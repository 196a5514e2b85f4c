import LsmTree.RangeScan
import LsmTree.TableShortRead

/-!
# Streams that fail under a compaction or a scan

An iterator takes a stream it could not open for a table without entries, and a read
that comes up short for the end of the table. Neither the merge loop of a compaction nor
that of a scan can tell the difference: a compaction publishes what it has read and
removes its inputs, and a scan returns what it has found.

Nothing is lost exactly if every failing stream still delivers all that matters of its
table: the missing bytes are all zero and belong to the last entry, of which at least one
byte was read. A table that any other failure strikes can stand above an older one
with a value for the key of an entry that is lost.
-/

namespace LsmTree
open LittleEndian LayeredMap Merge ByteStream Table

/-! ### Compaction on streams -/

/-- What the compactor's iterator over a table hands out. -/
def compactionSource (t : OpenTable) (fault : StreamFault) : List Table.Entry :=
  (t.iterateOn (fault.stream t.file)).drain (t.fileSize + 1)

/-- `LeveledCompactor::run` on the tables it has decided to merge, up to the removal of its inputs: the
contents of the tables it publishes, unless one of them is refused. `numBlocks` is how many
blocks the filter of a table with so many entries has. -/
def mergeTables (numBlocks : ℕ → ℕ) (hpos : ∀ n, 0 < numBlocks n) (tables : List WrittenTable)
    (faults : ℕ → StreamFault) : Except WriteError (List (List Table.Entry)) :=
  let staged := merge (tables.zipIdx.map fun p => compactionSource p.1.table (faults p.2))
  match staged.mapM fun es => write (numBlocks es.length) (hpos _) es with
  | .error err => .error err
  | .ok _ => .ok staged

/-- No failure goes unnoticed: a compaction that goes on to remove its inputs has kept every value
they hold, and scans return what they would return without the failures. -/
structure NoSilentLoss (numBlocks : ℕ → ℕ) (hpos : ∀ n, 0 < numBlocks n) (r : Reader)
    (faults : ℕ → StreamFault) : Prop where
  compaction : ∀ outputs, mergeTables numBlocks hpos r.tables faults = .ok outputs →
    ∀ k v, resolve k (r.tables.map WrittenTable.entries) = some v → resolve k outputs = some v
  scan : ∀ start stop limit, r.scanWith faults start stop limit = r.scan start stop limit

/-- The stream delivers all that matters of a table with these entries. -/
def StreamFault.Intact (es : List Table.Entry) : StreamFault → Prop
  | .none => True
  | .cannotOpen => es = []
  | .short n => Survives n es

instance (es : List Table.Entry) (fault : StreamFault) : Decidable (fault.Intact es) :=
  match fault with
  | .none => inferInstanceAs (Decidable True)
  | .cannotOpen => inferInstanceAs (Decidable (es = []))
  | .short n => inferInstanceAs (Decidable (Survives n es))

/-! ### What is delivered -/

/-- What an iterator that begins at an offset hands out of the entries from there on. -/
def StreamFault.delivered (offset : ℕ) (es : List Table.Entry) : StreamFault → List Table.Entry
  | .none => es
  | .cannotOpen => []
  | .short n => cutEntries (n - offset) es

theorem StreamFault.length_delivered_le (fault : StreamFault) (offset : ℕ) (es : List Table.Entry) :
    (fault.delivered offset es).length ≤ es.length := by
  cases fault with
  | none => exact le_refl _
  | cannotOpen => exact Nat.zero_le _
  | short n => exact length_cutEntries_le _ _

theorem start_yields_delivered {t : OpenTable} {es before rest : List Table.Entry} (h : t.Holds es)
    (hes : es = before ++ rest) (fault : StreamFault) :
    (TableIterator.start (fault.stream t.file) t.indexOffset (encodeData before).length).Yields
      (fault.delivered (encodeData before).length rest) := by
  cases fault with
  | none => exact h.start_yields hes
  | cannotOpen =>
    simp [StreamFault.stream, StreamFault.delivered, TableIterator.start, TableIterator.advance,
      TableIterator.Yields]
  | short n => exact h.start_yields_cut hes n

theorem compactionSource_eq (w : WrittenTable) (fault : StreamFault) :
    compactionSource w.table fault = fault.delivered 0 w.entries := by
  apply (start_yields_delivered w.holds (List.nil_append _).symm fault).drain_eq
  exact ((fault.length_delivered_le _ _).trans w.holds.length_le_fileSize).trans (Nat.le_succ _)

theorem tableSource_eq (w : WrittenTable) (fault : StreamFault) (start : Key) :
    ∃ before rest, w.entries = before ++ rest ∧ (∀ e ∈ before, e.1 < start) ∧
      Reader.tableSource w.table fault start =
        (fault.delivered (encodeData before).length rest).dropWhile (·.1 < start) := by
  obtain ⟨before, rest, hes, hfind, hbefore⟩ := w.holds.findBlock_split start
  refine ⟨before, rest, hes, hbefore, ?_⟩
  have hlen : (fault.delivered (encodeData before).length rest).length ≤ w.table.fileSize + 1 := by
    have hfile := w.holds.length_le_fileSize
    have hdelivered := fault.length_delivered_le (encodeData before).length rest
    rw [hes, List.length_append] at hfile
    omega
  have hyields := (start_yields_delivered w.holds hes fault).skipBelow start (w.holds.fileSize ▸ hlen)
  rw [← hfind] at hyields ⊢
  exact hyields.drain_eq ((List.dropWhile_sublist _).length_le.trans (by rwa [hfind]))

namespace StreamFault.Intact

theorem delivered_eq {fault : StreamFault} {before rest : List Table.Entry}
    (h : fault.Intact (before ++ rest)) (hfits : ∀ e ∈ rest, Fits e) :
    fault.delivered (encodeData before).length rest = rest := by
  cases fault with
  | none => rfl
  | cannotOpen => exact (List.append_eq_nil_iff.mp h).2.symm
  | short n =>
    by_cases hnil : rest = []
    · rw [hnil]
      rfl
    · exact (cutEntries_eq_iff hfits _).mpr (Survives.suffix h hnil)

theorem compactionSource_eq {w : WrittenTable} {fault : StreamFault} (h : fault.Intact w.entries) :
    compactionSource w.table fault = w.entries := by
  rw [LsmTree.compactionSource_eq]
  exact @delivered_eq fault [] w.entries h w.holds.fits

theorem tableSource_eq {w : WrittenTable} {fault : StreamFault} (h : fault.Intact w.entries) (start : Key) :
    Reader.tableSource w.table fault start = Reader.tableSource w.table .none start := by
  obtain ⟨before, rest, hes, hbefore, hsource⟩ := LsmTree.tableSource_eq w fault start
  have hrest : ∀ e ∈ rest, Fits e := fun e he => w.holds.fits e (hes ▸ List.mem_append_right _ he)
  have hsorted := w.holds.sorted
  rw [hes] at h hsorted
  have hnone : before.filter (start ≤ ·.1) = [] := by
    rw [List.filter_eq_nil_iff]
    intro e he
    simpa using hbefore e he
  rw [hsource, h.delivered_eq hrest, Reader.tableSource_none, hes,
    dropWhile_eq_filter (List.pairwise_append.mp hsorted).2.1, List.filter_append, hnone, List.nil_append]

end StreamFault.Intact

/-! ### Nothing that matters is missing -/

theorem zipIdx_map_eq {α β : Type*} {xs : List α} {f : α × ℕ → β} {g : α → β}
    (h : ∀ i x, xs[i]? = some x → f (x, i) = g x) : xs.zipIdx.map f = xs.map g := by
  apply List.ext_getElem?
  intro i
  simp only [List.getElem?_map, List.getElem?_zipIdx, Option.map_map]
  cases hx : xs[i]? with
  | none => rfl
  | some x => simpa using h i x hx

section Sufficient
variable {numBlocks : ℕ → ℕ} {hpos : ∀ n, 0 < numBlocks n} {r : Reader} {faults : ℕ → StreamFault}

theorem noSilentLoss_of_intact (h : ∀ i w, r.tables[i]? = some w → (faults i).Intact w.entries) :
    NoSilentLoss numBlocks hpos r faults := by
  constructor
  · intro outputs hmerge k v hread
    have hsorted : ∀ s ∈ r.tables.map WrittenTable.entries, Sorted s := by
      intro s hs
      obtain ⟨w, -, rfl⟩ := List.mem_map.mp hs
      exact w.holds.sorted
    have hstreams : r.tables.zipIdx.map (fun p => compactionSource p.1.table (faults p.2)) =
        r.tables.map WrittenTable.entries :=
      zipIdx_map_eq fun i w hw => (h i w hw).compactionSource_eq
    rw [mergeTables, hstreams] at hmerge
    split at hmerge
    · cases hmerge
    · cases hmerge
      rw [(liveStack_merge hsorted).resolve_eq, hread]
  · intro start stop limit
    have hsources : r.sources faults start stop = r.sources (fun _ => .none) start stop := by
      rw [Reader.sources, Reader.sources]
      congr 1
      apply List.map_congr_left
      intro p hp
      obtain ⟨i, hi⟩ := List.mem_iff_getElem?.mp (List.mem_filter.mp hp).1
      rw [List.getElem?_zipIdx, Option.map_eq_some_iff] at hi
      obtain ⟨w, hw, rfl⟩ := hi
      simp only [Nat.zero_add]
      exact (h i w hw).tableSource_eq start
    rw [Reader.scan, Reader.scanWith, Reader.scanWith, hsources]

end Sufficient

/-! ### Something is missing -/

/-- A failure that takes something away takes it from some key on: there the source of the table
has nothing, or the key with another value. -/
theorem exists_source_lost {w : WrittenTable} {fault : StreamFault} (h : ¬ fault.Intact w.entries) :
    ∃ e ∈ w.entries, Reader.tableSource w.table fault e.1 = [] ∨
      ∃ v, Reader.tableSource w.table fault e.1 = [(e.1, v)] ∧ v ≠ e.2 := by
  cases fault with
  | none => exact absurd trivial h
  | cannotOpen =>
    obtain ⟨e, es, hes⟩ := List.exists_cons_of_ne_nil h
    refine ⟨e, by rw [hes]; exact List.mem_cons_self, .inl ?_⟩
    obtain ⟨before, rest, -, -, hsource⟩ := tableSource_eq w .cannotOpen e.1
    rw [hsource]
    rfl
  | short n =>
    obtain ⟨before, e, after, hes, hlost⟩ := exists_lost fun heq =>
      h ((cutEntries_eq_iff w.holds.fits n).mp heq)
    refine ⟨e, by rw [hes]; simp, ?_⟩
    obtain ⟨first, rest, hsplit, hfirst, hsource⟩ := tableSource_eq w (.short n) e.1
    have hsorted := w.holds.sorted
    rw [hes] at hsplit hsorted
    have hbefore : ∀ f ∈ before, f.1 < e.1 := fun f hf =>
      (List.pairwise_append.mp hsorted).2.2 f hf e List.mem_cons_self
    -- The iterator begins at or before the entry.
    obtain ⟨mid, rfl, rfl⟩ : ∃ mid, before = first ++ mid ∧ rest = mid ++ e :: after := by
      rcases List.append_eq_append_iff.mp hsplit with ⟨mid, hmid, hrest⟩ | ⟨mid, hmid, hrest⟩
      · cases mid with
        | nil => exact ⟨[], by simpa using hmid.symm, by simpa using hrest.symm⟩
        | cons f mid =>
          rw [List.cons_append, List.cons.injEq] at hrest
          have hlt := hfirst e (by rw [hmid, hrest.1]; simp)
          exact absurd hlt (lt_irrefl _)
      · exact ⟨mid, hmid, hrest⟩
    have hfits : ∀ f ∈ mid ++ e :: after, Fits f := by
      intro f hf
      apply w.holds.fits
      rw [hes, List.append_assoc]
      exact List.mem_append_right _ hf
    rw [hsource]
    exact dropWhile_cutEntries_of_lost hfits (fun f hf => hbefore f (List.mem_append_right _ hf)) hlost

theorem exists_written {numBlocks : ℕ} {hpos : 0 < numBlocks} {es : List Table.Entry} {file : Bytes}
    (h : write numBlocks hpos es = .ok file) : ∃ w : WrittenTable, w.entries = es := by
  obtain ⟨t, hopen, -⟩ := openTable_of_write h
  exact ⟨⟨t, es, numBlocks, hpos, file, h, hopen⟩, rfl⟩

/-- A table with a single entry can be written, whatever its key. -/
theorem exists_single {k : Key} {x : Bytes} (hk : k.size ≤ uint32Max) (hx : x.length ≤ 1) :
    ∃ w : WrittenTable, w.entries = [(k, some x)] := by
  refine @exists_written 1 Nat.one_pos _ (encode 1 Nat.one_pos [(k, some x)]) ?_
  refine write_eq_ok_iff.mpr ⟨List.pairwise_singleton _ _, ?_, by simp [index, indexFrom, uint32Max], ?_, rfl⟩
  · intro e he
    rw [List.mem_singleton.mp he]
    exact ⟨hk, by simp only [valueBytes, Option.elim_some, uint32Max]; omega⟩
  · have hblocks : (bloom 1 Nat.one_pos [(k, some x)]).numBlocks = 1 := (foldl_insert_numHashes _ _).2
    simp only [encode, encodeData, encodeIndex, index, indexFrom, encodeBloom, encodeFooter, List.flatMap_cons,
      List.flatMap_nil, List.length_append, List.length_nil, length_encodeEntry, length_encodeIndexEntry,
      length_leBytes, BloomFilter.length_serialize, hblocks, entrySize, valueBytes, Option.elim_some, offsetLimit,
      uint32Max] at hk ⊢
    omega

/-- A table takes part in a scan from a key it holds. -/
theorem mayHold_of_mem {w : WrittenTable} {e : Table.Entry} (h : e ∈ w.entries) :
    Reader.mayHold w.table e.1 none = true := by
  by_contra hnot
  have hnone := Reader.lookup_of_not_mayHold w (Bool.eq_false_iff.mpr hnot) (le_refl e.1) (by simp)
  exact (lookup_eq_none_iff _ _).mp hnone e h rfl

theorem scan_all_eq {r : Reader} {faults : ℕ → StreamFault} {start : Key}
    (hsorted : ∀ s ∈ r.sources faults start none, Sorted s)
    (hsame : ∀ limit, r.scanWith faults start none limit = r.scan start none limit) (k : Key) :
    resolve k (r.sources faults start none) = resolve k (r.sources (fun _ => .none) start none) := by
  obtain ⟨all, hscan, -, hmem⟩ := scanLoop_spec none hsorted
  obtain ⟨all', hscan', -, hmem'⟩ := scanLoop_spec none (r.sorted_sources start none)
  have htake : ∀ limit, limit ≠ 0 → all.take limit = all'.take limit := by
    intro limit hlimit
    have heq := hsame limit
    rw [Reader.scan, Reader.scanWith, Reader.scanWith, if_neg (by simp [hlimit, pastEnd]),
      if_neg (by simp [hlimit, pastEnd])] at heq
    rwa [hscan, hscan'] at heq
  have hall : all = all' := by
    have heq := htake (all.length + all'.length + 1) (by omega)
    rwa [List.take_of_length_le (by omega), List.take_of_length_le (by omega)] at heq
  apply Option.ext
  intro v
  have hiff := hmem k v
  have hiff' := hmem' k v
  rw [hall] at hiff
  simpa using hiff.symm.trans hiff'

/-- A failing stream of a table does no silent harm, whatever else the engine holds, exactly if it
delivers all that matters of the table. -/
theorem no_silent_loss_iff (numBlocks : ℕ → ℕ) (hpos : ∀ n, 0 < numBlocks n) (w : WrittenTable)
    (fault : StreamFault) :
    (∀ (r : Reader) (faults : ℕ → StreamFault) (i : ℕ), r.tables[i]? = some w → faults i = fault →
        (∀ j u, j ≠ i → r.tables[j]? = some u → (faults j).Intact u.entries) →
        NoSilentLoss numBlocks hpos r faults) ↔
      fault.Intact w.entries := by
  constructor
  · intro h
    by_contra hlost
    obtain ⟨e, he, hsource⟩ := exists_source_lost hlost
    -- An older table has another value for the key.
    obtain ⟨x, hx, hne⟩ : ∃ x : Bytes, x.length ≤ 1 ∧ e.2 ≠ some x := by
      by_cases hnil : e.2 = some []
      · exact ⟨[0], le_refl _, by rw [hnil]; simp⟩
      · exact ⟨[], Nat.zero_le _, hnil⟩
    obtain ⟨u, hu⟩ := exists_single (w.holds.fits e he).1 hx
    have hu' : (e.1, some x) ∈ u.entries := by rw [hu]; exact List.mem_singleton_self _
    obtain ⟨r, hr⟩ : ∃ r : Reader, r = ⟨.new 0, [u, w]⟩ := ⟨_, rfl⟩
    obtain ⟨faults, hfaults⟩ : ∃ faults : ℕ → StreamFault, faults = fun i => if i = 1 then fault else .none :=
      ⟨_, rfl⟩
    have hloss : NoSilentLoss numBlocks hpos r faults := by
      apply h r faults 1
      · rw [hr]
        rfl
      · rw [hfaults]
        rfl
      · intro j _ hj _
        rw [hfaults]
        simp only [hj, if_false]
        trivial
    have hsources : r.sources faults e.1 none = [[(e.1, some x)], Reader.tableSource w.table fault e.1, []] := by
      have hmemtable : (Memtable.new 0).seek e.1 = [] := by rw [Memtable.seek_eq]; rfl
      simp only [Reader.sources, hr, hfaults, hmemtable, List.zipIdx_cons, List.zipIdx_nil, List.filter_cons,
        List.filter_nil, mayHold_of_mem he, mayHold_of_mem hu', if_true, List.map_cons, List.map_nil]
      simp [Reader.tableSource_none, hu]
    have hfaultless : resolve e.1 (r.sources (fun _ => .none) e.1 none) = e.2 := by
      have hfound : lookup e.1 w.entries = some e.2 := lookup_of_mem w.holds.sorted.keys_ne he
      rw [resolve, r.newest_sources (le_refl _) (by simp), hr]
      simp [Reader.contents, newest, hfound, Memtable.entries_new]
    have hsame : resolve e.1 (r.sources faults e.1 none) = e.2 := by
      rw [scan_all_eq ?_ (hloss.scan e.1 none), hfaultless]
      rw [hsources]
      rcases hsource with hsource | ⟨v, hsource, -⟩ <;> simp [hsource, Sorted]
    rw [hsources] at hsame
    rcases hsource with hsource | ⟨v, hsource, hv⟩
    · rw [hsource] at hsame
      exact hne (by simpa [resolve, newest, lookup] using hsame.symm)
    · rw [hsource] at hsame
      exact hv (by simpa [resolve, newest, lookup] using hsame)
  · intro hintact r faults i hi hfault hothers
    apply noSilentLoss_of_intact
    intro j u hj
    by_cases hji : j = i
    · rw [hji, hi] at hj
      cases hj
      rw [hji, hfault]
      exact hintact
    · exact hothers j u hji hj

/-- The last four bytes of this table are the zero length of a tombstone's value. -/
theorem short_smallTable_harmless : ∃ w : WrittenTable, w.entries = smallTable ∧
    ∀ (r : Reader) (faults : ℕ → StreamFault) (i : ℕ), r.tables[i]? = some w → faults i = .short 17 →
      (∀ j u, j ≠ i → r.tables[j]? = some u → (faults j).Intact u.entries) →
      NoSilentLoss (fun _ => 1) (fun _ => Nat.one_pos) r faults := by
  obtain ⟨w, hw⟩ := exists_written write_smallTable
  refine ⟨w, hw, (no_silent_loss_iff (fun _ => 1) (fun _ => Nat.one_pos) w (.short 17)).mpr ?_⟩
  rw [hw]
  decide +kernel

/-- The entry of a table with one key. -/
def singleEntry (b : UInt8) : List Table.Entry := [(.ofBytes [b], some [b])]

theorem write_threeKeys : write 1 Nat.one_pos (singleEntry 1 ++ singleEntry 2 ++ singleEntry 3) =
    .ok (encode 1 Nat.one_pos (singleEntry 1 ++ singleEntry 2 ++ singleEntry 3)) := by
  refine write_eq_ok_iff.mpr ⟨by decide, ?_, by decide, by decide +kernel, rfl⟩
  exact (firstTooLong_eq_none_iff _).mp (by decide)

/-- Four tables with a key each, of which the newest cannot be opened by the compactor's iterator: the
compaction returns, and the key is gone. -/
theorem unopened_table_is_dropped : ∃ r : Reader,
    r.tables.map WrittenTable.entries = [singleEntry 1, singleEntry 2, singleEntry 3, singleEntry 4] ∧
      ¬ NoSilentLoss (fun _ => 1) (fun _ => Nat.one_pos) r fun i => if i = 3 then .cannotOpen else .none := by
  have hwritten : ∀ b : UInt8, ∃ w : WrittenTable, w.entries = singleEntry b :=
    fun b => exists_single (by simp [Key.size, uint32Max]) (le_refl 1)
  obtain ⟨w₁, h₁⟩ := hwritten 1
  obtain ⟨w₂, h₂⟩ := hwritten 2
  obtain ⟨w₃, h₃⟩ := hwritten 3
  obtain ⟨w₄, h₄⟩ := hwritten 4
  refine ⟨⟨.new 0, [w₁, w₂, w₃, w₄]⟩, by simp [h₁, h₂, h₃, h₄], ?_⟩
  intro hsafe
  have hmerge : merge [singleEntry 1, singleEntry 2, singleEntry 3, []] =
      [singleEntry 1 ++ singleEntry 2 ++ singleEntry 3] := by decide
  have hrun : mergeTables (fun _ => 1) (fun _ => Nat.one_pos) [w₁, w₂, w₃, w₄]
      (fun i => if i = 3 then .cannotOpen else .none) = .ok [singleEntry 1 ++ singleEntry 2 ++ singleEntry 3] := by
    simp only [mergeTables, List.zipIdx_cons, List.zipIdx_nil, List.map_cons, List.map_nil, compactionSource_eq,
      h₁, h₂, h₃, StreamFault.delivered, Nat.reduceAdd, Nat.reduceEqDiff, OfNat.zero_ne_ofNat, if_true, if_false,
      hmerge, List.mapM_cons, List.mapM_nil, write_threeKeys]
    rfl
  have hlive : resolve (.ofBytes [4]) ([w₁, w₂, w₃, w₄].map WrittenTable.entries) = some [4] := by
    simp only [List.map_cons, List.map_nil, h₁, h₂, h₃, h₄]
    decide
  have hgone := hsafe.compaction _ hrun (.ofBytes [4]) [4] hlive
  revert hgone
  decide

end LsmTree
