import LsmTree.Merge
import LsmTree.TableLookup

/-!
# Range scans

A scan merges the memtable, from its first key that is not below the start, with one
iterator for every table that can hold a key of the range. The heap gives the smallest
key and, among equal keys, the newest source. While the winner is out of the heap the
older entries of its key are consumed; then the winner moves on, and its entry is
returned unless it is a tombstone.

What a source delivers does not depend on when it is asked, so the state of the heap and
the sources is again the list of what each has still to deliver, the oldest table first
and the memtable last.
-/

namespace LsmTree
open LittleEndian LayeredMap Merge ByteStream Table

/-! ### The loop -/

section Loop
variable {K V : Type*} [LinearOrder K]

/-- `end && !(key < *end)`. -/
def pastEnd (stop : Option K) (key : K) : Bool := stop.elim false fun e => !decide (key < e)

/-- A round of the scan: the winner, stream `i`, is out of the heap while the older entries of its
key are consumed, and moves on after that. -/
def takeWinner (i : ℕ) (key : K) (ss : List (List (K × Option V))) : List (List (K × Option V)) :=
  (skipDuplicates key (remaining ss) (ss.set i [])).set i (ss[i]?.getD []).tail

/-- The loop of `scan`; `out` is what it has found. -/
def scanLoop (stop : Option K) (limit : ℕ) : ℕ → List (List (K × Option V)) → List (K × V) → List (K × V)
  | 0, _, out => out
  | fuel + 1, ss, out =>
    if out.length < limit then
      match top ss with
      | none => out
      | some (i, winner) =>
        if pastEnd stop winner.1 then out
        else scanLoop stop limit fuel (takeWinner i winner.1 ss)
          (out ++ (winner.2.map fun v => (winner.1, v)).toList)
    else out

end Loop

/-! ### Sources -/

/-- How the stream of an iterator fares: well, or it cannot be opened, or only the first bytes of
the file can be read through it. -/
inductive StreamFault where
  | none
  | cannotOpen
  | short (readable : ℕ)
  deriving DecidableEq, Repr

/-- The stream of an iterator over a file. -/
def StreamFault.stream (file : Bytes) : StreamFault → Option IStream
  | .none => some (ofFile file)
  | .cannotOpen => Option.none
  | .short n => some (ofFile (file.take n))

/-- What an iterator hands out in so many steps at most. -/
def Table.TableIterator.drain : ℕ → TableIterator → List Table.Entry
  | 0, _ => []
  | fuel + 1, it =>
    match it.current with
    | none => []
    | some e => e :: it.advance.drain fuel

/-- A table that was opened on a file `SSTable::write` has written from `entries`. -/
structure WrittenTable where
  table : OpenTable
  entries : List Table.Entry
  numBlocks : ℕ
  numBlocks_pos : 0 < numBlocks
  file : Bytes
  write_eq : write numBlocks numBlocks_pos entries = .ok file
  open_eq : openTable file = .ok table

/-- `LSMEngine` as far as reads go: the memtable, and the tables with the newest last. -/
structure Reader where
  memtable : Memtable
  tables : List WrittenTable

namespace Reader

/-- The loop of `get` over the first `n` tables, from the newest on. Every table finds a cache of its own. -/
def getTables (transferMax : ℕ) (tables : List WrittenTable) (caches : ℕ → BlockCache) (key : Key) :
    ℕ → Except ReadError (Option (Option Bytes))
  | 0 => .ok none
  | n + 1 =>
    match tables[n]? with
    | none => getTables transferMax tables caches key n
    | some w =>
      match (w.table.get transferMax (caches n) key).1 with
      | .error err => .error err
      | .ok (some v) => .ok (some v)
      | .ok none => getTables transferMax tables caches key n

/-- Every table finds a cache that its own lookups have filled. -/
def CachesOf (transferMax : ℕ) (tables : List WrittenTable) (caches : ℕ → BlockCache) : Prop :=
  ∀ (i : ℕ) (w : WrittenTable), tables[i]? = some w → w.table.Cached transferMax (caches i)

/-- `LSMEngine::get`. -/
def get (transferMax : ℕ) (r : Reader) (caches : ℕ → BlockCache) (key : Key) : Except ReadError (Option Bytes) :=
  match r.memtable.get key with
  | some v => .ok v
  | none => (getTables transferMax r.tables caches key r.tables.length).map Option.join

/-- The tests by which `scan` leaves a table out. -/
def mayHold (t : OpenTable) (start : Key) (stop : Option Key) : Bool :=
  !(t.index.length == 0) && !decide (t.largestKey < start) && !pastEnd stop t.smallestKey

/-- What the source of a table delivers. -/
def tableSource (t : OpenTable) (fault : StreamFault) (start : Key) : List Table.Entry :=
  (t.iterateFromOn (fault.stream t.file) start).drain (t.fileSize + 1)

/-- The sources of a scan, when the stream of table `i` fares as `faults i` says. -/
def sources (r : Reader) (faults : ℕ → StreamFault) (start : Key) (stop : Option Key) :
    List (List Table.Entry) :=
  ((r.tables.zipIdx.filter fun p => mayHold p.1.table start stop).map fun p =>
    tableSource p.1.table (faults p.2) start) ++ [r.memtable.seek start]

/-- `LSMEngine::scan`. -/
def scanWith (r : Reader) (faults : ℕ → StreamFault) (start : Key) (stop : Option Key) (limit : ℕ) :
    List (Key × Bytes) :=
  if limit = 0 ∨ pastEnd stop start then []
  else
    let ss := r.sources faults start stop
    scanLoop stop limit (remaining ss) ss []

def scan (r : Reader) (start : Key) (stop : Option Key) (limit : ℕ) : List (Key × Bytes) :=
  r.scanWith (fun _ => .none) start stop limit

/-- The layers of an engine, oldest first. -/
def contents (r : Reader) : List (List Table.Entry) :=
  r.tables.map WrittenTable.entries ++ [r.memtable.entries]

end Reader

/-! ### Rounds -/

section Rounds
variable {K V : Type*} [LinearOrder K]

theorem getElem?_of_top {ss : List (List (K × Option V))} {i : ℕ} {e : K × Option V}
    (h : top ss = some (i, e)) : ∃ t, ss[i]? = some (e :: t) := by
  induction ss generalizing i e with
  | nil => cases h
  | cons s ss ih =>
    rcases top_cons_cases h with ⟨j, rfl, htop, -⟩ | ⟨t, rfl, rfl, -⟩
    · exact ih htop
    · exact ⟨t, rfl⟩

omit [LinearOrder K] in
theorem remaining_set_nil_le (ss : List (List (K × Option V))) (i : ℕ) :
    remaining (ss.set i []) ≤ remaining ss := by
  induction ss generalizing i with
  | nil => exact le_refl _
  | cons s ss ih =>
    simp only [remaining] at ih ⊢
    cases i with
    | zero => simp
    | succ i => simpa using ih i

/-- Consuming the duplicates before or after the winner has moved on makes no difference. -/
theorem takeWinner_eq {ss : List (List (K × Option V))} (hsorted : ∀ s ∈ ss, Sorted s) {i : ℕ}
    {e : K × Option V} (h : top ss = some (i, e)) :
    takeWinner i e.1 ss = skipDuplicates e.1 (remaining ss) (advance i ss) := by
  obtain ⟨t, ht⟩ := getElem?_of_top h
  obtain ⟨hmin, -⟩ := top_spec hsorted h
  obtain ⟨hmap, hcount⟩ := map_dropKey_advance hsorted h
  have hmem : ∀ s ∈ ss.set i [], s = [] ∨ s ∈ ss :=
    fun s hs => (List.mem_or_eq_of_mem_set hs).symm
  have hset : skipDuplicates e.1 (remaining ss) (ss.set i []) = (ss.set i []).map (dropKey e.1) := by
    refine skipDuplicates_eq ?_ ?_ (remaining_set_nil_le ss i)
    · intro s hs
      rcases hmem s hs with rfl | hs
      · exact List.Pairwise.nil
      · exact hsorted s hs
    · intro s hs f hf
      rcases hmem s hs with rfl | hs
      · cases hf
      · exact hmin s hs f hf
  have hadvance : skipDuplicates e.1 (remaining ss) (advance i ss) = ss.map (dropKey e.1) := by
    rw [← hmap]
    refine skipDuplicates_eq (sorted_advance hsorted i) ?_ (by omega)
    intro s hs f hf
    obtain ⟨u, hu, hsuf⟩ := mem_advance hs
    exact hmin u hu f (hsuf.subset hf)
  -- What the winner delivers next is its stream without the leading entry of the key.
  have hnext : (ss.map (dropKey e.1))[i]? = some t := by
    rw [List.getElem?_map, ht, Option.map_some, dropKey, if_pos rfl]
  rw [takeWinner, hset, hadvance, ht, Option.getD_some, List.tail_cons, List.map_set, List.set_set]
  apply List.ext_getElem?
  intro j
  rw [List.getElem?_set]
  split_ifs with hij hlt
  · rw [← hij, hnext]
  · rw [← hij, List.getElem?_eq_none (Nat.le_of_not_lt hlt)]
  · rfl

/-- The values among some entries. -/
def liveValues (es : List (K × Option V)) : List (K × V) :=
  es.filterMap fun e => e.2.map fun v => (e.1, v)

/-- The scan returns the values among the winners before the end of the range, up to the limit. -/
theorem scanLoop_eq (stop : Option K) (limit fuel : ℕ) {ss : List (List (K × Option V))}
    (hsorted : ∀ s ∈ ss, Sorted s) (out : List (K × V)) (hout : out.length ≤ limit) :
    scanLoop stop limit fuel ss out =
      out ++ (liveValues ((winners fuel ss).takeWhile fun e => !pastEnd stop e.1)).take (limit - out.length) := by
  induction fuel generalizing ss out with
  | zero => simp [scanLoop, winners, liveValues]
  | succ fuel ih =>
    rw [scanLoop, winners]
    split_ifs with hlt
    · cases htop : top ss with
      | none => simp [liveValues]
      | some p =>
        obtain ⟨i, winner⟩ := p
        obtain ⟨hrest, -, -, -⟩ := round_spec hsorted htop
        simp only [List.takeWhile_cons]
        cases hpast : pastEnd stop winner.1 with
        | true => simp [liveValues]
        | false =>
          simp only [Bool.false_eq_true, if_false, Bool.not_false, if_true]
          rw [takeWinner_eq hsorted htop]
          obtain ⟨key, value⟩ := winner
          cases value with
          | none =>
            rw [ih hrest _ (by simpa using hlt.le)]
            simp [liveValues]
          | some v =>
            rw [ih hrest _ (by simp only [List.length_append, Option.map_some, Option.toList_some,
              List.length_singleton]; omega)]
            have hlimit : limit - out.length = limit - (out.length + 1) + 1 := by omega
            simp [liveValues, hlimit]
    · rw [Nat.sub_eq_zero_of_le (Nat.le_of_not_lt hlt), List.take_zero, List.append_nil]

omit [LinearOrder K] in
theorem mem_liveValues {es : List (K × Option V)} {k : K} {v : V} :
    (k, v) ∈ liveValues es ↔ (k, some v) ∈ es := by
  rw [liveValues, List.mem_filterMap]
  constructor
  · rintro ⟨⟨k', v'⟩, he, heq⟩
    cases v' with
    | none => cases heq
    | some w =>
      cases heq
      exact he
  · intro he
    exact ⟨(k, some v), he, rfl⟩

theorem sorted_liveValues {es : List (K × Option V)} (h : Sorted es) : Sorted (liveValues es) := by
  rw [Sorted, liveValues, List.pairwise_filterMap]
  refine h.imp ?_
  rintro ⟨k, v⟩ ⟨k', v'⟩ hlt
  cases v <;> cases v' <;> simp_all

theorem pastEnd_eq_false {stop : Option K} {key : K} : pastEnd stop key = false ↔ ∀ e ∈ stop, key < e := by
  cases stop <;> simp [pastEnd]

/-- Past the end of the range all later keys are. -/
theorem takeWhile_eq_filter (stop : Option K) {es : List (K × Option V)} (h : Sorted es) :
    es.takeWhile (fun e => !pastEnd stop e.1) = es.filter fun e => !pastEnd stop e.1 := by
  induction es with
  | nil => rfl
  | cons e es ih =>
    obtain ⟨hlt, hrest⟩ := List.pairwise_cons.mp h
    rw [List.takeWhile_cons, List.filter_cons]
    cases hpast : pastEnd stop e.1 with
    | false => simp only [Bool.not_false, if_true, ih hrest]
    | true =>
      have hnil : es.filter (fun e => !pastEnd stop e.1) = [] := by
        rw [List.filter_eq_nil_iff]
        intro f hf hkeep
        rw [Bool.not_eq_true', pastEnd_eq_false] at hkeep
        have hbefore : pastEnd stop e.1 = false :=
          pastEnd_eq_false.mpr fun b hb => (hlt f hf).trans (hkeep b hb)
        rw [hpast] at hbefore
        cases hbefore
      simp only [Bool.not_true, Bool.false_eq_true, if_false, hnil]

/-- A merge of sorted streams finds, in key order, the values a reader of the stack finds. -/
theorem scanLoop_spec (stop : Option K) {ss : List (List (K × Option V))} (hsorted : ∀ s ∈ ss, Sorted s) :
    ∃ all : List (K × V), (∀ limit, scanLoop stop limit (remaining ss) ss [] = all.take limit) ∧ Sorted all ∧
      ∀ k v, (k, v) ∈ all ↔ resolve k ss = some v ∧ ∀ e ∈ stop, k < e := by
  have hwinners := sorted_winners hsorted (le_refl (remaining ss))
  refine ⟨_, fun limit => scanLoop_eq stop limit _ hsorted [] (Nat.zero_le _), ?_, ?_⟩
  · rw [takeWhile_eq_filter stop hwinners]
    exact sorted_liveValues (hwinners.filter _)
  · intro k v
    rw [takeWhile_eq_filter stop hwinners, mem_liveValues, List.mem_filter, Bool.not_eq_true',
      pastEnd_eq_false, resolve, Option.join_eq_some_iff, ← lookup_winners hsorted (le_refl (remaining ss)) k]
    exact and_congr_left fun _ => ⟨lookup_of_mem hwinners.keys_ne, mem_of_lookup⟩

end Rounds

/-! ### Reads -/

theorem WrittenTable.holds (w : WrittenTable) : w.table.Holds w.entries := by
  obtain ⟨t, hopen, hholds⟩ := openTable_of_write w.write_eq
  rw [w.open_eq] at hopen
  cases hopen
  exact hholds

theorem Table.TableIterator.Yields.drain_eq {it : TableIterator} {es : List Table.Entry} (h : it.Yields es)
    {fuel : ℕ} (hfuel : es.length ≤ fuel) : it.drain fuel = es := by
  induction es generalizing it fuel with
  | nil =>
    have hnone : it.current = none := h
    cases fuel with
    | zero => rfl
    | succ fuel => simp only [TableIterator.drain, hnone]
  | cons e es ih =>
    cases fuel with
    | zero => exact absurd hfuel (Nat.not_succ_le_zero _)
    | succ fuel =>
      simp only [TableIterator.drain, h.1]
      rw [ih h.2 (Nat.le_of_succ_le_succ hfuel)]

namespace Reader

theorem tableSource_none (w : WrittenTable) (start : Key) :
    tableSource w.table .none start = w.entries.filter (start ≤ ·.1) := by
  apply (w.holds.createIteratorFrom_yields start).drain_eq
  exact ((List.length_filter_le _ _).trans w.holds.length_le_fileSize).trans (Nat.le_succ _)

theorem sources_none (r : Reader) (start : Key) (stop : Option Key) :
    r.sources (fun _ => .none) start stop =
      (r.tables.filter fun w => mayHold w.table start stop).map (fun w => w.entries.filter (start ≤ ·.1)) ++
        [r.memtable.entries.filter (start ≤ ·.1)] := by
  have htables : (r.tables.zipIdx.filter fun p => mayHold p.1.table start stop).map (fun p =>
      tableSource p.1.table .none start) =
      (r.tables.filter fun w => mayHold w.table start stop).map (fun w => tableSource w.table .none start) := by
    conv_rhs => rw [← List.zipIdx_map_fst 0 r.tables, List.filter_map, List.map_map]
    rfl
  simp only [sources, r.memtable.seek_eq]
  rw [htables]
  simp only [tableSource_none]

theorem sorted_sources (r : Reader) (start : Key) (stop : Option Key) :
    ∀ s ∈ r.sources (fun _ => .none) start stop, Sorted s := by
  intro s hs
  rw [sources_none, List.mem_append, List.mem_singleton] at hs
  rcases hs with hs | rfl
  · obtain ⟨w, -, rfl⟩ := List.mem_map.mp hs
    exact w.holds.sorted.filter _
  · exact r.memtable.sorted_entries.filter _

/-- A table that is left out has no key in the range. -/
theorem lookup_of_not_mayHold (w : WrittenTable) {start : Key} {stop : Option Key}
    (h : mayHold w.table start stop = false) {k : Key} (hstart : start ≤ k) (hstop : ∀ e ∈ stop, k < e) :
    lookup k w.entries = none := by
  rw [lookup_eq_none_iff]
  rintro e he rfl
  have hsorted := w.holds.sorted
  have hindex : w.table.index.length ≠ 0 := by
    intro hzero
    rw [w.holds.nil_of_index_nil (List.length_eq_zero_iff.mp hzero)] at he
    cases he
  have hlarge : ¬ w.table.largestKey < start := by
    obtain ⟨last, hlast⟩ : ∃ last, w.entries.getLast? = some last :=
      Option.ne_none_iff_exists'.mp (by rw [Ne, List.getLast?_eq_none_iff]; exact List.ne_nil_of_mem he)
    obtain ⟨before, hsplit⟩ := List.getLast?_eq_some_iff.mp hlast
    rw [w.holds.largest last hlast, not_lt]
    refine hstart.trans ?_
    rw [hsplit] at he hsorted
    rcases List.mem_append.mp he with he | he
    · exact ((List.pairwise_append.mp hsorted).2.2 e he last List.mem_cons_self).le
    · rw [List.mem_singleton.mp he]
  have hsmall : pastEnd stop w.table.smallestKey = false := by
    rw [pastEnd_eq_false]
    intro b hb
    obtain ⟨first, rest, hcons⟩ := List.exists_cons_of_ne_nil (List.ne_nil_of_mem he)
    rw [w.holds.smallest first (by rw [hcons]; rfl)]
    rw [hcons] at he hsorted
    exact (le_of_sorted_cons hsorted e he).trans_lt (hstop b hb)
  simp [mayHold, hindex, hlarge, hsmall] at h

theorem newest_sources (r : Reader) {start : Key} {stop : Option Key} {k : Key} (hstart : start ≤ k)
    (hstop : ∀ e ∈ stop, k < e) :
    newest k (r.sources (fun _ => .none) start stop) = newest k r.contents := by
  have hfilter : ∀ es : List Table.Entry, lookup k (es.filter (start ≤ ·.1)) = lookup k es := by
    intro es
    rw [lookup_filter (start ≤ ·), if_pos (by simpa using hstart)]
  have hpruned : newest k (r.tables.map WrittenTable.entries) =
      newest k ((r.tables.filter fun w => mayHold w.table start stop).map WrittenTable.entries) := by
    apply newest_filter
    intro as w bs _ hw hne
    exact absurd (lookup_of_not_mayHold w hw hstart hstop) hne
  rw [sources_none, contents, newest_append_singleton, newest_append_singleton, hfilter, hpruned]
  congr 1
  apply newest_congr
  rw [List.forall₂_map_left_iff, List.forall₂_map_right_iff]
  exact List.forall₂_same.mpr fun w _ => hfilter w.entries

/-- No table has a block that one `pread` cannot move. -/
def BlocksWithin (transferMax : ℕ) (tables : List WrittenTable) : Prop :=
  ∀ w ∈ tables, w.table.BlocksWithin transferMax

section Get
variable {transferMax : ℕ} {caches : ℕ → BlockCache}

theorem getTables_eq {tables : List WrittenTable} (hblocks : BlocksWithin transferMax tables)
    (hcaches : CachesOf transferMax tables caches) (key : Key) (n : ℕ) :
    getTables transferMax tables caches key n = .ok (newest key ((tables.take n).map WrittenTable.entries)) := by
  induction n with
  | zero => rfl
  | succ n ih =>
    rw [getTables]
    cases hw : tables[n]? with
    | none =>
      simp only
      rw [ih, List.take_add_one, hw, Option.toList_none, List.append_nil]
    | some w =>
      have hget := w.holds.get_of_not_longBlock (w.holds.coherent (hcaches n w hw))
        ((hblocks w (List.mem_of_getElem? hw)).not_longBlock key)
      simp only [hget]
      rw [List.take_add_one, hw, Option.toList_some, List.map_append, List.map_singleton, newest_append_singleton]
      cases lookup key w.entries with
      | none => exact ih
      | some v => rfl

theorem get_eq (r : Reader) (hblocks : BlocksWithin transferMax r.tables)
    (hcaches : CachesOf transferMax r.tables caches) (key : Key) :
    r.get transferMax caches key = .ok (resolve key r.contents) := by
  rw [get, r.memtable.get_eq, resolve, contents, newest_append_singleton, getTables_eq hblocks hcaches,
    List.take_length]
  cases lookup key r.memtable.entries <;> rfl

end Get

end Reader

/-- A scan returns the first `limit` elements of the increasing list of all pairs in the range that
point reads find, whatever the tables hold and whatever of them is cached, if one `pread` moves every
block. -/
theorem scan_agrees_with_get (r : Reader) {transferMax : ℕ} (hblocks : Reader.BlocksWithin transferMax r.tables)
    {caches : ℕ → BlockCache} (hcaches : Reader.CachesOf transferMax r.tables caches) (start : Key)
    (stop : Option Key) (limit : ℕ) :
    ∃ all : List (Key × Bytes), r.scan start stop limit = all.take limit ∧ Sorted all ∧
      ∀ k v, (k, v) ∈ all ↔ start ≤ k ∧ (∀ e ∈ stop, k < e) ∧ r.get transferMax caches k = .ok (some v) := by
  obtain ⟨all, hscan, hall, hmem⟩ := scanLoop_spec stop (r.sorted_sources start stop)
  have hmem' : ∀ k v, (k, v) ∈ all ↔ start ≤ k ∧ (∀ e ∈ stop, k < e) ∧ r.get transferMax caches k = .ok (some v) := by
    intro k v
    rw [hmem, r.get_eq hblocks hcaches, Except.ok.injEq]
    constructor
    · rintro ⟨hread, hstop⟩
      have hstart : start ≤ k := by
        obtain ⟨s, hs, hx⟩ := exists_mem_of_newest (Option.join_eq_some_iff.mp hread)
        have he := mem_of_lookup hx
        rw [Reader.sources_none, List.mem_append, List.mem_singleton] at hs
        rcases hs with hs | rfl
        · obtain ⟨w, -, rfl⟩ := List.mem_map.mp hs
          simpa using (List.mem_filter.mp he).2
        · simpa using (List.mem_filter.mp he).2
      exact ⟨hstart, hstop, by rw [resolve, ← r.newest_sources hstart hstop]; exact hread⟩
    · rintro ⟨hstart, hstop, hread⟩
      refine ⟨?_, hstop⟩
      rw [resolve, r.newest_sources hstart hstop]
      exact hread
  refine ⟨all, ?_, hall, hmem'⟩
  rw [Reader.scan, Reader.scanWith]
  split_ifs with hearly
  · rcases hearly with rfl | hpast
    · rw [List.take_zero]
    · -- The range is empty.
      have hnil : all = [] := by
        apply List.eq_nil_iff_forall_not_mem.mpr
        rintro ⟨k, v⟩ hkv
        obtain ⟨hstart, hstop, -⟩ := (hmem' k v).mp hkv
        have hbefore : pastEnd stop start = false :=
          pastEnd_eq_false.mpr fun e he => hstart.trans_lt (hstop e he)
        rw [hpast] at hbefore
        cases hbefore
      rw [hnil, List.take_nil]
  · exact hscan limit

/-- A newer table, which has a value for a key that the older one has deleted. -/
def newerTable : List Table.Entry := [(.ofBytes [2], some [7]), (.ofBytes [3], some [8])]

theorem write_newerTable : write 1 Nat.one_pos newerTable = .ok (encode 1 Nat.one_pos newerTable) := by
  refine write_eq_ok_iff.mpr ⟨by decide, ?_, by decide, by decide +kernel, rfl⟩
  exact (firstTooLong_eq_none_iff newerTable).mp (by decide)

/-- Two tables and the memtable overlap, and a lookup has cached the block of the older table. -/
theorem scan_newerTable : ∃ (r : Reader) (caches : ℕ → BlockCache),
    r.tables.map WrittenTable.entries = [smallTable, newerTable] ∧
    r.memtable.entries = [(.ofBytes [3], none), (.ofBytes [4], some [9])] ∧ caches 0 0 = some smallTable ∧
    ∃ all : List (Key × Bytes), r.scan (.ofBytes [1]) none 2 = all.take 2 ∧ Sorted all ∧
      ∀ k v, (k, v) ∈ all ↔ .ofBytes [1] ≤ k ∧ (∀ e ∈ none, k < e) ∧
        r.get linuxTransferMax caches k = .ok (some v) := by
  obtain ⟨older, hopen, hholds⟩ := openTable_of_write write_smallTable
  obtain ⟨newer, hopen', hholds'⟩ := openTable_of_write write_newerTable
  have hmemtable : (((Memtable.new 100).update (.ofBytes [4]) (some [9]) 0).update (.ofBytes [3]) none 0).entries =
      [(.ofBytes [3], none), (.ofBytes [4], some [9])] := by decide +kernel
  let r : Reader :=
    ⟨((Memtable.new 100).update (.ofBytes [4]) (some [9]) 0).update (.ofBytes [3]) none 0,
      [⟨older, smallTable, 1, Nat.one_pos, _, write_smallTable, hopen⟩,
        ⟨newer, newerTable, 1, Nat.one_pos, _, write_newerTable, hopen'⟩]⟩
  let caches : ℕ → BlockCache := fun i =>
    if i = 0 then (older.get linuxTransferMax (fun _ => none) (.ofBytes [1])).2 else fun _ => none
  have hfilled : (openTable (encode 1 Nat.one_pos smallTable)).toOption.map
      (fun t => (t.get linuxTransferMax (fun _ => none) (.ofBytes [1])).2 0) = some (some smallTable) := by
    decide +kernel
  rw [hopen] at hfilled
  have hblocks : Reader.BlocksWithin linuxTransferMax r.tables := by
    intro w hw
    simp only [r, List.mem_cons, List.not_mem_nil, or_false] at hw
    rcases hw with rfl | rfl
    · exact hholds.blocksWithin_iff.mpr (blocksWithin_of_entrySize (by decide))
    · exact hholds'.blocksWithin_iff.mpr (blocksWithin_of_entrySize (by decide))
  have hcaches : Reader.CachesOf linuxTransferMax r.tables caches := by
    intro i w hw
    cases i with
    | zero =>
      cases hw
      exact .get .empty _
    | succ i => exact .empty
  exact ⟨r, caches, rfl, hmemtable, Option.some.inj hfilled,
    scan_agrees_with_get r hblocks hcaches (.ofBytes [1]) none 2⟩

end LsmTree
