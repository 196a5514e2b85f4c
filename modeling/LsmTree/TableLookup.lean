import LsmTree.TableRoundTrip

/-!
# Lookups in a table that was written

The keys of the index increase with the table's, so the binary search ends at the one
block that can hold the key: all earlier blocks have smaller keys and all later ones
larger keys. A block in the cache was put there by an earlier lookup, and offsets tell
blocks apart, so it is the block that would be read.
-/

namespace LsmTree.Table
open LittleEndian LayeredMap ByteStream IStream

/-! ### Finding a block -/

theorem Indexed.le_offset {off : ℕ} {idx : List (Key × ℕ)} {blocks : List (List Entry)}
    (h : Indexed off idx blocks) : ∀ p ∈ idx, off ≤ p.2 := by
  induction h with
  | nil => simp
  | cons e es hrest ih =>
    intro p hp
    rcases List.mem_cons.mp hp with rfl | hp
    · exact le_refl _
    · exact (Nat.le_add_right _ _).trans (ih p hp)

/-- Keys and offsets of an index increase. -/
theorem Indexed.pairwise {off : ℕ} {idx : List (Key × ℕ)} {blocks : List (List Entry)}
    (h : Indexed off idx blocks) (hsorted : Sorted blocks.flatten) :
    idx.Pairwise fun p q => p.1 < q.1 ∧ p.2 < q.2 := by
  induction h with
  | nil => exact List.Pairwise.nil
  | @cons off idx blocks e es hrest ih =>
    rw [List.flatten_cons, Sorted, List.pairwise_append] at hsorted
    refine List.pairwise_cons.mpr ⟨?_, ih hsorted.2.1⟩
    intro q hq
    obtain ⟨⟨f, hf, hqf⟩, -⟩ := hrest.mem hq
    have hoff := hrest.le_offset q hq
    have hpos := entrySize_pos e
    rw [length_encodeData_cons] at hoff
    refine ⟨?_, by simp only; omega⟩
    rw [hqf]
    exact hsorted.2.2 e List.mem_cons_self f hf

/-- Block `i` is the last whose first key is not above the key, or the first block. -/
structure LastBelow (idx : List (Key × ℕ)) (key : Key) (i : ℕ) : Prop where
  lt : i < idx.length
  le : i = 0 ∨ ∃ p, idx[i]? = some p ∧ p.1 ≤ key
  above : ∀ j p, i < j → idx[j]? = some p → key < p.1

theorem searchBlocks_spec {idx : List (Key × ℕ)} (hidx : idx.Pairwise fun p q => p.1 < q.1) {key : Key}
    {fuel lo hi : ℕ} (hle : lo ≤ hi) (hhi : hi < idx.length)
    (hlo : lo = 0 ∨ ∃ p, idx[lo]? = some p ∧ p.1 ≤ key)
    (habove : ∀ j p, hi < j → idx[j]? = some p → key < p.1) (hfuel : hi - lo ≤ fuel) :
    LastBelow idx key (searchBlocks idx key fuel lo hi) := by
  induction fuel generalizing lo hi with
  | zero =>
    have heq : lo = hi := by omega
    exact ⟨by rw [searchBlocks]; omega, hlo, by rw [searchBlocks, heq]; exact habove⟩
  | succ fuel ih =>
    rw [searchBlocks]
    split_ifs with hlt
    · have hmid : lo + (hi - lo + 1) / 2 < idx.length := by omega
      simp only [List.getElem?_eq_getElem hmid]
      split_ifs with hkey
      · refine ih (by omega) hhi (.inr ⟨_, List.getElem?_eq_getElem hmid, hkey⟩) habove (by omega)
      · refine ih (by omega) (by omega) hlo ?_ (by omega)
        intro j p hj hp
        -- A key at the middle or behind it is not below the one at the middle.
        rcases Nat.lt_or_ge (lo + (hi - lo + 1) / 2) j with hgt | hge
        · obtain ⟨hjlt, hjp⟩ := List.getElem?_eq_some_iff.mp hp
          have hpair := List.pairwise_iff_getElem.mp hidx _ _ hmid hjlt hgt
          rw [hjp] at hpair
          exact (not_le.mp hkey).trans hpair
        · have heq : j = lo + (hi - lo + 1) / 2 := by omega
          rw [heq, List.getElem?_eq_getElem hmid] at hp
          cases hp
          exact not_le.mp hkey
    · have heq : lo = hi := by omega
      exact ⟨by omega, hlo, by rw [heq]; exact habove⟩

theorem blockOf_spec {idx : List (Key × ℕ)} (hidx : idx.Pairwise fun p q => p.1 < q.1) (hne : idx ≠ [])
    (key : Key) : LastBelow idx key (blockOf idx key) := by
  have hpos := List.length_pos_iff.mpr hne
  refine searchBlocks_spec hidx (Nat.zero_le _) (by omega) (.inl rfl) ?_ (by omega)
  intro j p hj hp
  have hjlt := (List.getElem?_eq_some_iff.mp hp).1
  omega

/-! ### Lookups -/

/-- Where a key can stand in a table: in one block, after smaller keys and before larger ones. -/
structure Located (t : OpenTable) (es : List Entry) (key : Key) (i : ℕ) (before block after : List Entry) :
    Prop where
  entries : es = before ++ (block ++ after)
  start : t.index[i]?.map Prod.snd = some (encodeData before).length
  stop : t.blockEnd i = (encodeData (before ++ block)).length
  nonempty : block ≠ []
  before_lt : ∀ e ∈ before, e.1 < key
  lt_after : ∀ e ∈ after, key < e.1

namespace OpenTable.Holds
variable {t : OpenTable} {es : List Entry}

theorem indexed (h : t.Holds es) : ∃ blocks, Indexed 0 t.index blocks ∧ blocks.flatten = es := by
  rw [h.index_eq]
  exact indexed_index es

theorem index_pairwise (h : t.Holds es) : t.index.Pairwise fun p q => p.1 < q.1 ∧ p.2 < q.2 := by
  obtain ⟨blocks, hindexed, hflat⟩ := h.indexed
  exact hindexed.pairwise (hflat ▸ h.sorted)

theorem nil_of_index_nil (h : t.Holds es) (hnil : t.index = []) : es = [] := by
  obtain ⟨blocks, hindexed, hflat⟩ := h.indexed
  rw [hnil] at hindexed
  rw [← hflat, hindexed.eq_nil]
  rfl

theorem locate (h : t.Holds es) (hne : t.index ≠ []) (key : Key) :
    ∃ before block after, Located t es key (blockOf t.index key) before block after := by
  have hlast := blockOf_spec (h.index_pairwise.imp fun hpq => hpq.1) hne key
  obtain ⟨blocks, hindexed, hflat⟩ := h.indexed
  generalize blockOf t.index key = i at hlast ⊢
  obtain ⟨p, hp⟩ : ∃ p, t.index[i]? = some p := ⟨_, List.getElem?_eq_getElem hlast.lt⟩
  obtain ⟨before, after, e, block, hblocks, hlen, rfl, hafter⟩ := hindexed.split hp
  have hes : es = before.flatten ++ ((e :: block) ++ after.flatten) := by
    rw [← hflat, hblocks]
    simp
  have hsorted := h.sorted
  rw [hes] at hsorted
  obtain ⟨-, hrest, hcross⟩ := List.pairwise_append.mp hsorted
  obtain ⟨-, hsortedAfter, hcross'⟩ := List.pairwise_append.mp hrest
  refine ⟨before.flatten, e :: block, after.flatten, hes, by simp [hp], ?_, List.cons_ne_nil _ _, ?_, ?_⟩
  · rw [OpenTable.blockEnd]
    generalize hdrop : t.index.drop (i + 1) = idx at hafter
    cases hafter with
    | nil =>
      have hnone : t.index[i + 1]? = none := by
        rw [← List.head?_drop, hdrop]
        rfl
      rw [hnone, Option.map_none, Option.getD_none, h.indexOffset, hes]
      simp
    | cons f fs hrest' =>
      have hsome : t.index[i + 1]? = some (f.1, 0 + (encodeData (before.flatten ++ e :: block)).length) := by
        rw [← List.head?_drop, hdrop]
        rfl
      rw [hsome, Option.map_some, Option.getD_some, Nat.zero_add]
  · intro x hx
    rcases hlast.le with hzero | ⟨q, hq, hle⟩
    · rw [List.length_eq_zero_iff.mp (hlen.trans hzero)] at hx
      cases hx
    · rw [hp] at hq
      cases hq
      exact (hcross x hx e List.mem_cons_self).trans_le hle
  · intro x hx
    generalize hdrop : t.index.drop (i + 1) = idx at hafter
    cases hafter with
    | nil => cases hx
    | cons f fs hrest' =>
      have hsome : t.index[i + 1]? = some (f.1, 0 + (encodeData (before.flatten ++ e :: block)).length) := by
        rw [← List.head?_drop, hdrop]
        rfl
      have hlt := hlast.above (i + 1) _ (Nat.lt_succ_self i) hsome
      rw [List.flatten_cons] at hx hsortedAfter
      rcases List.mem_cons.mp hx with rfl | hx
      · exact hlt
      · exact hlt.trans ((List.pairwise_cons.mp hsortedAfter).1 x hx)

theorem fits_of_located {key : Key} {i : ℕ} {before block after : List Entry} (h : t.Holds es)
    (hloc : Located t es key i before block after) : ∀ e ∈ block ++ after, Fits e := by
  intro e he
  apply h.fits
  rw [hloc.entries]
  exact List.mem_append_right _ he

/-- What `get` reads for a block that one `pread` can move is the block. -/
theorem readBlock_eq {key : Key} {i : ℕ} {before block after : List Entry} (h : t.Holds es)
    (hloc : Located t es key i before block after) {transferMax : ℕ}
    (hwithin : t.blockEnd i - (encodeData before).length ≤ transferMax) :
    t.readBlock transferMax (encodeData before).length (t.blockEnd i) = block := by
  obtain ⟨rest, hdata⟩ := h.data
  have hlen : t.blockEnd i - (encodeData before).length = (encodeData block).length := by
    rw [hloc.stop, encodeData_append, List.length_append]
    omega
  have hslice : (t.file.drop (encodeData before).length).take (encodeData block).length = encodeData block := by
    rw [hdata, hloc.entries, encodeData_append, encodeData_append, List.append_assoc, List.drop_left,
      List.append_assoc, List.take_left]
  rw [OpenTable.readBlock, pread, min_eq_left hwithin, hlen, hslice]
  refine parseBlockEntries_encodeData ?_ (length_le_encodeData block)
  exact fun e he => h.fits_of_located hloc e (List.mem_append_left _ he)

theorem lookup_eq {key : Key} {i : ℕ} {before block after : List Entry}
    (hloc : Located t es key i before block after) : lookup key es = lookup key block := by
  have hbefore : lookup key before = none :=
    (lookup_eq_none_iff key before).mpr fun e he => (hloc.before_lt e he).ne
  have hafter : lookup key after = none :=
    (lookup_eq_none_iff key after).mpr fun e he => (hloc.lt_after e he).ne'
  rw [hloc.entries, lookup_append, lookup_append, hbefore, hafter, Option.none_or, Option.or_none]

end OpenTable.Holds

theorem scanBlock_eq_lookup {es : List Entry} (h : Sorted es) (key : Key) :
    scanBlock key es = lookup key es := by
  induction es with
  | nil => rfl
  | cons e es ih =>
    obtain ⟨hlt, hrest⟩ := List.pairwise_cons.mp h
    rw [scanBlock, lookup_cons]
    split_ifs with heq hgt
    · rfl
    · rw [eq_comm, lookup_eq_none_iff]
      exact fun f hf => (hgt.trans (hlt f hf)).ne'
    · exact ih hrest

/-- One `pread` gets all of the block between two offsets. -/
def OpenTable.Readable (transferMax : ℕ) (t : OpenTable) (start stop : ℕ) : Prop :=
  start < stop ∧ ¬ (pread transferMax t.file start (stop - start)).length < stop - start

theorem OpenTable.readable_iff {transferMax : ℕ} {t : OpenTable} {start stop : ℕ} :
    t.Readable transferMax start stop ↔ start < stop ∧ stop ≤ t.file.length ∧ stop - start ≤ transferMax := by
  rw [OpenTable.Readable, pread, List.length_take, List.length_drop]
  omega

/-- The block that a key belongs to is longer than what one `pread` moves. -/
def OpenTable.LongBlock (transferMax : ℕ) (t : OpenTable) (key : Key) : Prop :=
  ∃ p, t.index[blockOf t.index key]? = some p ∧ transferMax < t.blockEnd (blockOf t.index key) - p.2

/-- No block of the table is longer than what one `pread` moves. -/
def OpenTable.BlocksWithin (transferMax : ℕ) (t : OpenTable) : Prop :=
  ∀ (i : ℕ) (p : Key × ℕ), t.index[i]? = some p → t.blockEnd i - p.2 ≤ transferMax

theorem OpenTable.BlocksWithin.not_longBlock {transferMax : ℕ} {t : OpenTable} (h : t.BlocksWithin transferMax)
    (key : Key) : ¬ t.LongBlock transferMax key := by
  rintro ⟨p, hp, hlong⟩
  exact absurd (h _ p hp) (Nat.not_le.mpr hlong)

/-- Every cached block could be read and is what would be read. -/
def OpenTable.Coherent (transferMax : ℕ) (t : OpenTable) (cache : BlockCache) : Prop :=
  ∀ (i : ℕ) (p : Key × ℕ) (block : List Entry), t.index[i]? = some p → cache p.2 = some block →
    t.Readable transferMax p.2 (t.blockEnd i) ∧ block = t.readBlock transferMax p.2 (t.blockEnd i)

theorem OpenTable.coherent_empty (transferMax : ℕ) (t : OpenTable) : t.Coherent transferMax fun _ => none := by
  intro i p block _ hblock
  cases hblock

/-- With a coherent cache a lookup answers, or throws, as it does with an empty one. -/
theorem OpenTable.get_eq_of_coherent {transferMax : ℕ} {t : OpenTable} {cache : BlockCache}
    (hcache : t.Coherent transferMax cache) (key : Key) :
    (t.get transferMax cache key).1 = (t.get transferMax (fun _ => none) key).1 := by
  rw [OpenTable.get, OpenTable.get]
  split_ifs with hmay
  · cases hp : t.index[blockOf t.index key]? with
    | none => rfl
    | some p =>
      simp only
      cases hcached : cache p.2 with
      | some block =>
        obtain ⟨⟨hlt, hfull⟩, rfl⟩ := hcache _ p block hp hcached
        simp only [if_neg (Nat.not_le.mpr hlt), if_neg hfull]
      | none =>
        simp only
        split_ifs <;> rfl
  · rfl

namespace OpenTable.Holds
variable {transferMax : ℕ} {t : OpenTable} {es : List Entry} {cache : BlockCache}

/-- Offsets tell the blocks of a table apart. -/
theorem eq_of_offset_eq (h : t.Holds es) {i j : ℕ} {p q : Key × ℕ} (hp : t.index[i]? = some p)
    (hq : t.index[j]? = some q) (hoff : q.2 = p.2) : j = i := by
  obtain ⟨hj, rfl⟩ := List.getElem?_eq_some_iff.mp hq
  obtain ⟨hi, rfl⟩ := List.getElem?_eq_some_iff.mp hp
  have hpair := List.pairwise_iff_getElem.mp h.index_pairwise
  rcases Nat.lt_trichotomy j i with hlt | heq | hgt
  · exact absurd hoff (hpair j i hj hi hlt).2.ne
  · exact heq
  · exact absurd hoff (hpair i j hi hj hgt).2.ne'

theorem coherent_update (h : t.Holds es) (hcache : t.Coherent transferMax cache) {i : ℕ} {p : Key × ℕ}
    (hp : t.index[i]? = some p) (hread : t.Readable transferMax p.2 (t.blockEnd i)) :
    t.Coherent transferMax (Function.update cache p.2 (some (t.readBlock transferMax p.2 (t.blockEnd i)))) := by
  intro j q block hq hblock
  by_cases hoff : q.2 = p.2
  · rw [hoff, Function.update_self] at hblock
    cases hblock
    rw [hoff, h.eq_of_offset_eq hp hq hoff]
    exact ⟨hread, rfl⟩
  · rw [Function.update_of_ne hoff] at hblock
    exact hcache j q block hq hblock

theorem coherent_get (h : t.Holds es) (hcache : t.Coherent transferMax cache) (key : Key) :
    t.Coherent transferMax (t.get transferMax cache key).2 := by
  rw [OpenTable.get]
  split_ifs with hmay
  · cases hp : t.index[blockOf t.index key]? with
    | none => exact hcache
    | some p =>
      simp only
      cases cache p.2 with
      | some block => exact hcache
      | none =>
        simp only
        split_ifs with hstop hshort
        · exact hcache
        · exact hcache
        · exact h.coherent_update hcache hp ⟨Nat.lt_of_not_le hstop, hshort⟩
  · exact hcache

theorem coherent (h : t.Holds es) (hcached : t.Cached transferMax cache) : t.Coherent transferMax cache := by
  induction hcached with
  | empty => exact t.coherent_empty transferMax
  | get _ key ih => exact h.coherent_get ih key
  | @evict cache _ offset ih =>
    intro i p block hp hblock
    by_cases hoff : p.2 = offset
    · rw [hoff, Function.update_self] at hblock
      cases hblock
    · rw [Function.update_of_ne hoff] at hblock
      exact ih i p block hp hblock

/-- A lookup with nothing cached answers from the list, unless it gets as far as a block that one
`pread` cannot move. -/
theorem get_empty (h : t.Holds es) (key : Key) :
    (t.get transferMax (fun _ => none) key).1 = .ok (lookup key es) ∧
        (t.bloom.mayContain key.bytes = true → ¬ t.LongBlock transferMax key) ∨
      (t.get transferMax (fun _ => none) key).1 = .error .incompleteRead ∧
        t.bloom.mayContain key.bytes = true ∧ t.LongBlock transferMax key := by
  by_cases hmay : t.bloom.mayContain key.bytes = true
  · by_cases hnil : t.index = []
    · have hget : t.get transferMax (fun _ => none) key = (.ok none, fun _ => none) := by
        simp [OpenTable.get, hmay, hnil]
      rw [hget, h.nil_of_index_nil hnil]
      exact .inl ⟨rfl, fun _ => by simp [OpenTable.LongBlock, hnil]⟩
    · obtain ⟨before, block, after, hloc⟩ := h.locate hnil key
      obtain ⟨p, hp, hstart⟩ := Option.map_eq_some_iff.mp hloc.start
      have hnonempty : p.2 < t.blockEnd (blockOf t.index key) := by
        rw [hloc.stop, hstart, encodeData_append, List.length_append]
        have := length_le_encodeData block
        have := List.length_pos_iff.mpr hloc.nonempty
        omega
      have hinside : t.blockEnd (blockOf t.index key) ≤ t.file.length := by
        obtain ⟨rest, hdata⟩ := h.data
        rw [hloc.stop, hdata, hloc.entries, ← List.append_assoc, encodeData_append (before ++ block)]
        simp only [List.length_append]
        omega
      by_cases hlong : transferMax < t.blockEnd (blockOf t.index key) - p.2
      · have hshort : ¬ t.Readable transferMax p.2 (t.blockEnd (blockOf t.index key)) := by
          rw [readable_iff]
          omega
        rw [OpenTable.Readable, not_and, not_not] at hshort
        refine .inr ⟨?_, hmay, p, hp, hlong⟩
        simp only [OpenTable.get, hmay, if_true, hp, if_neg (Nat.not_le.mpr hnonempty), if_pos (hshort hnonempty)]
      · have hfull : t.Readable transferMax p.2 (t.blockEnd (blockOf t.index key)) :=
          readable_iff.mpr ⟨hnonempty, hinside, Nat.le_of_not_lt hlong⟩
        have hsorted : Sorted block := by
          have hall := h.sorted
          rw [hloc.entries] at hall
          exact (List.pairwise_append.mp (List.pairwise_append.mp hall).2.1).1
        have hread : t.readBlock transferMax p.2 (t.blockEnd (blockOf t.index key)) = block := by
          rw [hstart] at hlong ⊢
          exact h.readBlock_eq hloc (Nat.le_of_not_lt hlong)
        refine .inl ⟨?_, ?_⟩
        · simp only [OpenTable.get, hmay, if_true, hp, if_neg (Nat.not_le.mpr hnonempty), if_neg hfull.2, hread]
          rw [scanBlock_eq_lookup hsorted, lookup_eq hloc]
        · rintro - ⟨q, hq, hlong'⟩
          rw [hp] at hq
          cases hq
          exact hlong hlong'
  · -- The filter denies no key of the table.
    have hget : t.get transferMax (fun _ => none) key = (.ok none, fun _ => none) := by simp [OpenTable.get, hmay]
    have hnone : lookup key es = none := by
      rw [lookup_eq_none_iff]
      rintro e he rfl
      exact hmay (h.bloom e he)
    rw [hget, hnone]
    exact .inl ⟨rfl, fun hmay' => absurd hmay' hmay⟩

/-- A lookup with a coherent cache answers from the list, or its block is longer than one `pread`
moves and it throws. -/
theorem get_spec (h : t.Holds es) (hcache : t.Coherent transferMax cache) (key : Key) :
    (t.get transferMax cache key).1 = .ok (lookup key es) ∨
      (t.get transferMax cache key).1 = .error .incompleteRead ∧ t.LongBlock transferMax key := by
  rw [OpenTable.get_eq_of_coherent hcache]
  rcases h.get_empty key with ⟨hget, -⟩ | ⟨hget, -, hlong⟩
  · exact .inl hget
  · exact .inr ⟨hget, hlong⟩

theorem get_of_not_longBlock (h : t.Holds es) (hcache : t.Coherent transferMax cache) {key : Key}
    (hshort : ¬ t.LongBlock transferMax key) : (t.get transferMax cache key).1 = .ok (lookup key es) :=
  (h.get_spec hcache key).resolve_right fun hthrows => hshort hthrows.2

theorem blocksWithin_iff (h : t.Holds es) : t.BlocksWithin transferMax ↔ Table.BlocksWithin transferMax es := by
  simp only [OpenTable.BlocksWithin, Table.BlocksWithin, OpenTable.blockEnd, blockStop, h.index_eq, h.indexOffset]

/-- The first key of a block is found in this block. -/
theorem blockOf_first (h : t.Holds es) {i : ℕ} {p : Key × ℕ} (hp : t.index[i]? = some p) :
    blockOf t.index p.1 = i := by
  obtain ⟨hi, rfl⟩ := List.getElem?_eq_some_iff.mp hp
  have hne : t.index ≠ [] := List.ne_nil_of_length_pos (Nat.zero_lt_of_lt hi)
  have hlast := blockOf_spec (h.index_pairwise.imp fun hpq => hpq.1) hne t.index[i].1
  generalize blockOf t.index t.index[i].1 = j at hlast
  have hpair := List.pairwise_iff_getElem.mp h.index_pairwise
  rcases Nat.lt_trichotomy j i with hlt | heq | hgt
  · exact absurd (hlast.above i _ hlt hp) (lt_irrefl _)
  · exact heq
  · rcases hlast.le with hzero | ⟨q, hq, hle⟩
    · omega
    · obtain ⟨hj, rfl⟩ := List.getElem?_eq_some_iff.mp hq
      exact absurd hle (not_le.mpr (hpair i j hi hj hgt).1)

/-- Where a block is too long, the lookup of its first key throws. -/
theorem blocksWithin_of_get (h : t.Holds es)
    (hget : ∀ key, (t.get transferMax (fun _ => none) key).1 = .ok (lookup key es)) : t.BlocksWithin transferMax := by
  intro i p hp
  by_contra hlong
  obtain ⟨blocks, hindexed, hflat⟩ := h.indexed
  obtain ⟨⟨e, he, hpe⟩, -⟩ := hindexed.mem (List.mem_of_getElem? hp)
  have hmay : t.bloom.mayContain p.1.bytes = true := by
    rw [hpe]
    exact h.bloom e (hflat ▸ he)
  rcases h.get_empty p.1 with ⟨-, hshort⟩ | ⟨hthrows, -⟩
  · apply hshort hmay
    rw [OpenTable.LongBlock, h.blockOf_first hp]
    exact ⟨p, hp, Nat.lt_of_not_le hlong⟩
  · rw [hget] at hthrows
    cases hthrows

/-! ### Reading in order -/

theorem readAll_eq (h : t.Holds es) : t.readAll = .ok es := by
  obtain ⟨body, bloomOffset, hfooter⟩ := h.footer
  obtain ⟨rest, hdata⟩ := h.data
  obtain ⟨hready, hfile⟩ := ready_seekEnd body (encodeFooter (encodeData es).length bloomOffset)
  have hlen : (encodeData es).length ≤ t.file.length := by
    rw [hdata, List.length_append]
    omega
  have hlimit := h.limit
  rw [← hfooter, show (encodeFooter (encodeData es).length bloomOffset).length = 16 by simp [encodeFooter]]
    at hready hfile
  rw [encodeFooter] at hready
  obtain ⟨hread, hnext⟩ := readUint64_ready hready (by omega)
  have hat := @atEntries_seekg _ _ [] es hnext ⟨rest, by rw [data_move, hfile, hdata]; rfl⟩
    (by rwa [data_move, hfile]) h.fits
  simp only [OpenTable.readAll, hread, h.fileSize]
  refine hat.readEntries ?_ ?_
  · intro f hf
    have := size_le_encodeData hf
    omega
  · have := length_le_encodeData es
    omega

theorem start_yields (h : t.Holds es) {before rest : List Entry} (hes : es = before ++ rest) :
    (TableIterator.start (some (ofFile t.file)) t.indexOffset (encodeData before).length).Yields rest := by
  have hat : AtEntries ((ofFile t.file).seekg (encodeData before).length) rest t.indexOffset := by
    rw [h.indexOffset, hes]
    apply atEntries_seekg (ready_ofFile t.file) (hes ▸ h.data) h.limit
    exact fun e he => h.fits e (hes ▸ List.mem_append_right _ he)
  have hstart : TableIterator.start (some (ofFile t.file)) t.indexOffset (encodeData before).length =
      TableIterator.advance ⟨some ((ofFile t.file).seekg (encodeData before).length), t.indexOffset, none⟩ := by
    rw [TableIterator.start]
    split_ifs with hpos
    · rfl
    · rw [Nat.eq_zero_of_not_pos hpos]
      rfl
  rw [hstart]
  exact hat.yields none

theorem createIterator_yields (h : t.Holds es) : t.createIterator.Yields es :=
  h.start_yields (List.nil_append es).symm

end OpenTable.Holds

theorem dropWhile_eq_filter {es : List Entry} (h : Sorted es) (key : Key) :
    es.dropWhile (·.1 < key) = es.filter (key ≤ ·.1) := by
  induction es with
  | nil => rfl
  | cons e es ih =>
    obtain ⟨hlt, hrest⟩ := List.pairwise_cons.mp h
    rw [List.dropWhile_cons, List.filter_cons]
    by_cases he : e.1 < key
    · simp only [he, not_le.mpr he, decide_true, decide_false, if_true, Bool.false_eq_true, if_false]
      exact ih hrest
    · have hle := not_lt.mp he
      simp only [he, hle, decide_true, decide_false, if_true, Bool.false_eq_true, if_false]
      rw [List.filter_eq_self.mpr]
      intro f hf
      simpa using hle.trans (hlt f hf).le

namespace OpenTable.Holds
variable {t : OpenTable} {es : List Entry}

theorem length_le_fileSize (h : t.Holds es) : es.length ≤ t.fileSize := by
  obtain ⟨rest, hdata⟩ := h.data
  have := length_le_encodeData es
  rw [h.fileSize, hdata, List.length_append]
  omega

/-- Where an iterator from a key begins: no earlier entry has the key or a larger one. -/
theorem findBlock_split (h : t.Holds es) (key : Key) :
    ∃ before rest, es = before ++ rest ∧ t.findBlock key = (encodeData before).length ∧
      ∀ e ∈ before, e.1 < key := by
  by_cases hnil : t.index = []
  · exact ⟨[], es, rfl, by simp [OpenTable.findBlock, hnil, encodeData], by simp⟩
  · obtain ⟨before, block, after, hloc⟩ := h.locate hnil key
    exact ⟨before, block ++ after, hloc.entries, by simp [OpenTable.findBlock, hloc.start], hloc.before_lt⟩

theorem createIteratorFrom_yields (h : t.Holds es) (key : Key) :
    (t.createIteratorFrom key).Yields (es.filter (key ≤ ·.1)) := by
  have hfuel := h.length_le_fileSize
  obtain ⟨before, rest, hes, hfind, hbefore⟩ := h.findBlock_split key
  have hsorted := h.sorted
  rw [hes] at hsorted hfuel
  rw [List.length_append] at hfuel
  have hrest : rest.length ≤ t.file.length + 1 := by
    rw [h.fileSize] at hfuel
    omega
  have hskip := (h.start_yields hes).skipBelow key hrest
  rw [dropWhile_eq_filter (List.pairwise_append.mp hsorted).2.1] at hskip
  have hfilter : es.filter (key ≤ ·.1) = rest.filter (key ≤ ·.1) := by
    rw [hes, List.filter_append, List.filter_eq_nil_iff.mpr, List.nil_append]
    intro e he
    simpa using hbefore e he
  rw [hfilter, OpenTable.createIteratorFrom, OpenTable.iterateFromOn, hfind]
  exact hskip

end OpenTable.Holds

/-- All ways to read the table agree with the list: reading everything, iterating over all of it and
iterating from any key yield exactly its entries, the bounds are the first and the last key, and a
lookup, whatever of the table is in the cache, finds exactly what the list has. -/
structure ReadsBack (transferMax : ℕ) (file : Bytes) (es : List Entry) (t : OpenTable) : Prop where
  opened : openTable file = .ok t
  readAll : t.readAll = .ok es
  createIterator : t.createIterator.Yields es
  createIteratorFrom : ∀ key, (t.createIteratorFrom key).Yields (es.filter (key ≤ ·.1))
  smallest : ∀ e ∈ es.head?, t.smallestKey = e.1
  largest : ∀ e ∈ es.getLast?, t.largestKey = e.1
  get : ∀ cache, t.Cached transferMax cache → ∀ key, (t.get transferMax cache key).1 = .ok (lookup key es)

/-- Whatever `SSTable::write` accepts can be opened, and is read back exactly if one `pread` moves every
block of it: streams read on where a lookup gives up. -/
theorem write_then_read {transferMax numBlocks : ℕ} {h : 0 < numBlocks} {es : List Entry} {file : Bytes}
    (hwrite : write numBlocks h es = .ok file) :
    (∃ t, ReadsBack transferMax file es t) ↔ BlocksWithin transferMax es := by
  obtain ⟨t, hopen, hholds⟩ := openTable_of_write hwrite
  constructor
  · rintro ⟨t', hreads⟩
    have hsame := hreads.opened
    rw [hopen] at hsame
    cases hsame
    exact hholds.blocksWithin_iff.mp (hholds.blocksWithin_of_get (hreads.get _ .empty))
  · intro hwithin
    exact ⟨t,
      { opened := hopen
        readAll := hholds.readAll_eq
        createIterator := hholds.createIterator_yields
        createIteratorFrom := hholds.createIteratorFrom_yields
        smallest := hholds.smallest
        largest := hholds.largest
        get := fun cache hcache key => hholds.get_of_not_longBlock (hholds.coherent hcache)
          ((hholds.blocksWithin_iff.mpr hwithin).not_longBlock key) }⟩

/-- A value and a tombstone. -/
def smallTable : List Entry := [(.ofBytes [1], some [5]), (.ofBytes [2], none)]

theorem write_smallTable : write 1 Nat.one_pos smallTable = .ok (encode 1 Nat.one_pos smallTable) := by
  refine write_eq_ok_iff.mpr ⟨by decide, ?_, by decide, by decide +kernel, rfl⟩
  exact (firstTooLong_eq_none_iff smallTable).mp (by decide)

/-- A large value, which is a block of its own, and a block with a value and a tombstone. -/
def largeThenSmall (n : ℕ) : List Entry :=
  [(.ofBytes [1], some (List.replicate n 0)), (.ofBytes [2], some [5]), (.ofBytes [3], none)]

section LargeThenSmall
variable {n : ℕ}

theorem index_largeThenSmall (hn : targetBlockSize ≤ n) :
    index (largeThenSmall n) = [(.ofBytes [1], 0), (.ofBytes [2], 10 + n)] := by
  have hlarge : entrySize (.ofBytes [1], some (List.replicate n 0)) = 10 + n := by
    simp [entrySize, valueBytes, Key.size]
  have hsmall : ¬ targetBlockSize ≤ entrySize (.ofBytes [2], some [5]) := by decide
  simp only [largeThenSmall, index, indexFrom, hlarge, if_pos (show targetBlockSize ≤ 10 + n by omega), if_neg hsmall]

theorem length_encodeData_largeThenSmall : (encodeData (largeThenSmall n)).length = 31 + n := by
  simp [largeThenSmall, encodeData, entrySize, valueBytes, Key.size]
  omega

theorem write_largeThenSmall (hn : targetBlockSize ≤ n) (hfits : n ≤ uint32Max) :
    write 1 Nat.one_pos (largeThenSmall n) = .ok (encode 1 Nat.one_pos (largeThenSmall n)) := by
  have hblocks : (bloom 1 Nat.one_pos (largeThenSmall n)).numBlocks = 1 := (foldl_insert_numHashes _ _).2
  have hindex : (encodeIndex [(.ofBytes [1], 0), (.ofBytes [2], 10 + n)]).length = 30 := by
    simp [encodeIndex, Key.size]
  rw [uint32Max] at hfits
  refine write_eq_ok_iff.mpr ⟨?_, ?_, ?_, ?_, rfl⟩
  · have h₁ : Key.ofBytes [1] < Key.ofBytes [2] := by decide
    have h₂ : Key.ofBytes [1] < Key.ofBytes [3] := by decide
    have h₃ : Key.ofBytes [2] < Key.ofBytes [3] := by decide
    simp [largeThenSmall, Sorted, h₁, h₂, h₃]
  · simpa [largeThenSmall, Fits, Key.size, valueBytes, uint32Max] using hfits
  · rw [index_largeThenSmall hn]
    exact Nat.le_of_ble_eq_true rfl
  · rw [encode, index_largeThenSmall hn]
    simp only [List.length_append, length_encodeData_largeThenSmall, hindex, encodeBloom, length_leBytes,
      BloomFilter.length_serialize, hblocks, encodeFooter, offsetLimit]
    omega

/-- One `pread` has to move the large value with its ten other bytes. -/
theorem blocksWithin_largeThenSmall_iff (hn : targetBlockSize ≤ n) {transferMax : ℕ} :
    BlocksWithin transferMax (largeThenSmall n) ↔ 10 + n ≤ transferMax := by
  have htarget : targetBlockSize = 4096 := rfl
  rw [BlocksWithin]
  simp only [blockStop, index_largeThenSmall hn, length_encodeData_largeThenSmall]
  constructor
  · intro h
    simpa using h 0 _ rfl
  · intro h i p hp
    rcases i with _ | _ | i
    · cases hp
      simpa using h
    · cases hp
      simp only [List.getElem?_cons_succ, List.getElem?_nil, Option.map_none, Option.getD_none]
      omega
    · simp at hp

end LargeThenSmall

theorem write_then_read_largeThenSmall :
    ∃ t, ReadsBack linuxTransferMax (encode 1 Nat.one_pos (largeThenSmall 5000)) (largeThenSmall 5000) t :=
  (write_then_read (write_largeThenSmall (by decide) (by decide))).mpr
    ((blocksWithin_largeThenSmall_iff (by decide)).mpr (by decide))

/-- A value of 2200000000 bytes is written, and no lookup gets it back. -/
theorem not_readsBack_largeThenSmall :
    ∃ file, write 1 Nat.one_pos (largeThenSmall 2200000000) = .ok file ∧
      ¬ ∃ t, ReadsBack linuxTransferMax file (largeThenSmall 2200000000) t := by
  have hlarge : ¬ 10 + 2200000000 ≤ linuxTransferMax := by decide
  have hwrite := write_largeThenSmall (n := 2200000000) (by decide) (by decide)
  exact ⟨_, hwrite, fun hreads => hlarge ((blocksWithin_largeThenSmall_iff (by decide)).mp ((write_then_read hwrite).mp hreads))⟩

end LsmTree.Table
