import LsmTree.SharedCache
import LsmTree.TableDecoders

/-!
# Moved tables

A table object can be moved into a new object or onto one that is open. Both operations carry
over every member but the size of the file: a new object has the initial value 0 for it, and
an object that is assigned to keeps its own. Only `readAll` looks at this member, as the
bound for the lengths it finds, so it is the one observer that can tell a moved table from
the original, and it does if a length on its walk is above the smaller bound. An assignment
also closes the table that was there without what its destructor does to the block cache.
-/

namespace LsmTree.Table
open LittleEndian LayeredMap ByteStream Transition

/-! ### Moving -/

/-- The move constructor. `file_size_` is not among its initializers. -/
def OpenTable.moveConstruct (other : OpenTable) : OpenTable where
  file := other.file
  index := other.index
  bloom := other.bloom
  smallestKey := other.smallestKey
  largestKey := other.largestKey
  fileSize := 0
  indexOffset := other.indexOffset

/-- The move assignment, from another object. -/
def OpenTable.moveAssign (t other : OpenTable) : OpenTable :=
  { t with
    file := other.file
    index := other.index
    bloom := other.bloom
    smallestKey := other.smallestKey
    largestKey := other.largestKey
    indexOffset := other.indexOffset }

/-- The tables there can be: constructed from a file, and moved any number of times. -/
inductive OpenTable.Opened : OpenTable → Prop
  | construct {file : Bytes} {t : OpenTable} (h : openTable file = .ok t) : t.Opened
  | moveConstruct {t : OpenTable} (h : t.Opened) : t.moveConstruct.Opened
  | moveAssign {t other : OpenTable} (h : t.Opened) (hother : other.Opened) : (t.moveAssign other).Opened

/-- A table object with the path it was opened on, which is moved with it. -/
abbrev TableObject := String × OpenTable

def moveConstruct (other : TableObject) : TableObject := (other.1, other.2.moveConstruct)

def moveAssign (t other : TableObject) : TableObject := (other.1, t.2.moveAssign other.2)

/-- The second object answers as the first one, whatever the block cache holds. -/
structure SameResults (t t' : TableObject) : Prop where
  get : ∀ transferMax cache key r,
    t'.2.getShared transferMax t'.1 cache key r = t.2.getShared transferMax t.1 cache key r
  readAll : t'.2.readAll = t.2.readAll
  createIterator : t'.2.createIterator = t.2.createIterator
  createIteratorFrom : ∀ start, t'.2.createIteratorFrom start = t.2.createIteratorFrom start
  smallestKey : t'.2.smallestKey = t.2.smallestKey
  largestKey : t'.2.largestKey = t.2.largestKey
  indexOffset : t'.2.indexOffset = t.2.indexOffset
  indexSize : t'.2.index.length = t.2.index.length

/-! ### The bound of `readAll` -/

/-- Another number for the size of the file. -/
def OpenTable.withFileSize (t : OpenTable) (n : ℕ) : OpenTable := { t with fileSize := n }

theorem OpenTable.moveConstruct_eq (other : OpenTable) : other.moveConstruct = other.withFileSize 0 := rfl

theorem OpenTable.moveAssign_eq (t other : OpenTable) : t.moveAssign other = other.withFileSize t.fileSize := rfl

/-- Apart from that number a table is what the constructor made of the file. -/
theorem OpenTable.Opened.constructed {t : OpenTable} (h : t.Opened) :
    ∃ t₀, openTable t.file = .ok t₀ ∧ t = t₀.withFileSize t.fileSize := by
  induction h with
  | @construct file t h =>
    obtain ⟨hfile, -⟩ := openTable_file h
    exact ⟨t, by rw [hfile]; exact h, rfl⟩
  | @moveConstruct t h ih =>
    obtain ⟨t₀, hopen, heq⟩ := ih
    refine ⟨t₀, hopen, ?_⟩
    rw [OpenTable.moveConstruct_eq, heq]
    rfl
  | @moveAssign t other h hother ih ihother =>
    obtain ⟨t₀, hopen, heq⟩ := ihother
    refine ⟨t₀, hopen, ?_⟩
    rw [OpenTable.moveAssign_eq, heq]
    rfl

theorem TableIterator.Yields.unique {it : TableIterator} {es es' : List Entry} (h : it.Yields es)
    (h' : it.Yields es') : es = es' := by
  induction es generalizing it es' with
  | nil =>
    cases es' with
    | nil => rfl
    | cons e' es' =>
      have hcurrent := h'.1
      rw [show it.current = none from h] at hcurrent
      cases hcurrent
  | cons e es ih =>
    cases es' with
    | nil =>
      have hcurrent := h.1
      rw [show it.current = none from h'] at hcurrent
      cases hcurrent
    | cons e' es' =>
      have hcurrent := h.1.symm.trans h'.1
      cases hcurrent
      rw [ih h.2 h'.2]

section Bound
variable {t : OpenTable}

theorem readAll_withFileSize (h : t.Opened) (n : ℕ) :
    (t.withFileSize n).readAll = readEntries n t.indexOffset (t.file.length + 1) (ofFile t.file) := by
  obtain ⟨t₀, hopen, heq⟩ := h.constructed
  obtain ⟨hfile, -, hlen, hindex⟩ := openTable_file hopen
  have hoffset : t.indexOffset = t₀.indexOffset := by
    rw [heq]
    rfl
  simp only [OpenTable.readAll, OpenTable.withFileSize]
  rw [seekg_start hlen, hoffset, hindex]

/-- While no length is above the bound, it makes no difference what the bound is. -/
theorem readAll_of_within (h : t.Opened) {n m : ℕ} (hn : LengthsWithin n t.file t.indexOffset 0)
    (hm : LengthsWithin m t.file t.indexOffset 0) :
    ∃ es, (t.withFileSize n).readAll = .ok es ∧ (t.withFileSize m).readAll = .ok es := by
  have hfuel : (ofFile t.file).data.length < (ofFile t.file).pos + (t.file.length + 1) := by
    simp only [ofFile]
    omega
  obtain ⟨es, hes, hyields⟩ := readEntries_of_lengthsWithin none rfl (Nat.zero_le _) hfuel hn
  obtain ⟨es', hes', hyields'⟩ := readEntries_of_lengthsWithin none rfl (Nat.zero_le _) hfuel hm
  rw [readAll_withFileSize h, readAll_withFileSize h]
  refine ⟨es, hes, ?_⟩
  rw [hes', hyields'.unique hyields]

theorem readAll_of_not_within (h : t.Opened) {n : ℕ} (hn : ¬ LengthsWithin n t.file t.indexOffset 0) :
    ∃ len, (t.withFileSize n).readAll = .error (.stringTooLong len n) := by
  have hfuel : (ofFile t.file).data.length < (ofFile t.file).pos + (t.file.length + 1) := by
    simp only [ofFile]
    omega
  rw [readAll_withFileSize h]
  exact readEntries_of_not_lengthsWithin rfl (Nat.zero_le _) hfuel hn

theorem lengthsWithin_min {n m : ℕ} {file : Bytes} {limit start : ℕ} :
    LengthsWithin (min n m) file limit start ↔
      LengthsWithin n file limit start ∧ LengthsWithin m file limit start := by
  constructor
  · intro h
    refine ⟨?_, ?_⟩
    · intro p hp hlt hfile
      have := h p hp hlt hfile
      omega
    · intro p hp hlt hfile
      have := h p hp hlt hfile
      omega
  · intro ⟨hn, hm⟩ p hp hlt hfile
    have hpn := hn p hp hlt hfile
    have hpm := hm p hp hlt hfile
    omega

/-- `readAll` returns or throws the same under two bounds exactly if they are equal or no length on
its walk is above the smaller one. -/
theorem readAll_withFileSize_iff (h : t.Opened) (n m : ℕ) :
    (t.withFileSize n).readAll = (t.withFileSize m).readAll ↔
      n = m ∨ LengthsWithin (min n m) t.file t.indexOffset 0 := by
  rw [lengthsWithin_min]
  constructor
  · intro heq
    by_cases hn : LengthsWithin n t.file t.indexOffset 0
    · by_cases hm : LengthsWithin m t.file t.indexOffset 0
      · exact .inr ⟨hn, hm⟩
      · obtain ⟨es, hes, -⟩ := readAll_of_within h hn hn
        obtain ⟨len, hlen⟩ := readAll_of_not_within h hm
        rw [hes, hlen] at heq
        cases heq
    · obtain ⟨len, hlen⟩ := readAll_of_not_within h hn
      by_cases hm : LengthsWithin m t.file t.indexOffset 0
      · obtain ⟨es, hes, -⟩ := readAll_of_within h hm hm
        rw [hes, hlen] at heq
        cases heq
      · obtain ⟨len', hlen'⟩ := readAll_of_not_within h hm
        rw [hlen, hlen'] at heq
        cases heq
        exact .inl rfl
  · rintro (rfl | ⟨hn, hm⟩)
    · rfl
    · obtain ⟨es, hes, hes'⟩ := readAll_of_within h hn hm
      rw [hes, hes']

/-- No other observer looks at the size of the file. -/
theorem sameResults_withFileSize_iff (h : t.Opened) (path : String) (n : ℕ) :
    SameResults (path, t) (path, t.withFileSize n) ↔
      n = t.fileSize ∨ LengthsWithin (min n t.fileSize) t.file t.indexOffset 0 := by
  rw [← readAll_withFileSize_iff h]
  constructor
  · intro hsame
    exact hsame.readAll
  · intro hread
    exact ⟨fun _ _ _ _ => rfl, hread, rfl, fun _ => rfl, rfl, rfl, rfl, rfl⟩

end Bound

/-! ### The block cache -/

namespace TableStore

/-- `tables[target] = std::move(tables[source])`. The object that is moved from is no table any more. -/
def moveAssign (s : TableStore) (target source : ℕ) : TableStore :=
  if target = source then s
  else
    match s.tables target, s.tables source with
    | some t, some other =>
      { s with
        tables := Function.update (Function.update s.tables target (some (Table.moveAssign t other))) source none }
    | _, _ => s

/-- No block is cached for the path. -/
def NoneCached (s : TableStore) (path : String) : Prop := ∀ n ∈ s.cache.list, n.key.sstablePath ≠ path

theorem cache_moveAssign (s : TableStore) (target source : ℕ) : (s.moveAssign target source).cache = s.cache := by
  unfold moveAssign
  split_ifs
  · rfl
  · split
    · rfl
    · rfl

theorem tables_moveAssign {s : TableStore} {target source : ℕ} {t other : TableObject} (hne : target ≠ source)
    (ht : s.tables target = some t) (hother : s.tables source = some other) :
    (s.moveAssign target source).tables target = some (Table.moveAssign t other) := by
  simp only [moveAssign, if_neg hne, ht, hother, Function.update_of_ne hne, Function.update_self]

/-- A move construction gives a table with the same answers exactly if the size of the file is 0 in
the original already or no string on the walk over its data section is other than empty. An
assignment onto another open table does so exactly if the two have the same file size or no
string on the walk is longer than the smaller of the two sizes, and it leaves no block of the
path it overwrites exactly if none was cached for this path before. -/
theorem move_preserves_iff {s : TableStore} {target source : ℕ} {t other : TableObject} (hne : target ≠ source)
    (htarget : s.tables target = some t) (hsource : s.tables source = some other) (hother : other.2.Opened) :
    (SameResults other (Table.moveConstruct other) ↔
      other.2.fileSize = 0 ∨ LengthsWithin 0 other.2.file other.2.indexOffset 0) ∧
    ((∃ moved, (s.moveAssign target source).tables target = some moved ∧ SameResults other moved) ∧
        (s.moveAssign target source).NoneCached t.1 ↔
      (t.2.fileSize = other.2.fileSize ∨
        LengthsWithin (min t.2.fileSize other.2.fileSize) other.2.file other.2.indexOffset 0) ∧
      s.NoneCached t.1) := by
  constructor
  · have hconstruct := sameResults_withFileSize_iff hother other.1 0
    rw [Nat.zero_min, eq_comm (a := 0)] at hconstruct
    exact hconstruct
  · have hassign := sameResults_withFileSize_iff hother other.1 t.2.fileSize
    rw [tables_moveAssign hne htarget hsource, NoneCached, cache_moveAssign]
    refine and_congr ?_ Iff.rfl
    constructor
    · rintro ⟨moved, hmoved, hsame⟩
      cases hmoved
      exact hassign.mp hsame
    · intro hbound
      exact ⟨_, rfl, hassign.mpr hbound⟩

/-- Two tables of the same file on different paths, with nothing cached: the assignment is harmless. -/
theorem move_preserves_smallTable :
    ∃ (s : TableStore) (other moved : TableObject), s.tables 1 = some other ∧ other.2.readAll = .ok smallTable ∧
      (s.moveAssign 0 1).tables 0 = some moved ∧ SameResults other moved := by
  obtain ⟨t, hopen, hholds⟩ := openTable_of_write write_smallTable
  have hread := hholds.readAll_eq
  let s : TableStore :=
    ⟨fun _ => none, fun id => if id = 0 then some ("a", t) else if id = 1 then some ("b", t) else none, .new 2 4096⟩
  have hpreserves := move_preserves_iff (s := s) Nat.zero_ne_one rfl rfl (.construct hopen)
  obtain ⟨⟨moved, hmoved, hsame⟩, -⟩ := hpreserves.2.mpr ⟨.inl rfl, by simp [NoneCached, s, LruCache.Cache.new]⟩
  exact ⟨s, ("b", t), moved, rfl, hread, hmoved, hsame⟩

/-! ### What is lost -/

/-- What `get` answers on a table object, if it answers. -/
def answer (s : TableStore) (id : ℕ) (key : Key) : Option (Option Bytes) :=
  match s.tables id with
  | none => none
  | some (path, t) =>
    match t.getShared linuxTransferMax path s.cache key ⟨2, fun _ => 15, fun _ => 15⟩ with
    | some (.ok result, _) => result
    | _ => none

/-- Two tables are open, and the first one has been asked for a key. -/
def beforeMove : TableStore :=
  [.write "sst-0-000000.sst" 1 Nat.one_pos smallTable, .construct 0 "sst-0-000000.sst",
    .get 0 (.ofBytes [1]) ⟨2, fun _ => 15, fun _ => 15⟩, .write "sst-0-000001.sst" 1 Nat.one_pos smallTable,
    .construct 1 "sst-0-000001.sst"].foldl (next linuxTransferMax)
    (empty 1024 (4 * 1024 * 1024))

/-- After the second table was moved onto the first one, a file with another value is written under
the path that no table has any more, and opened. -/
def afterMove : TableStore :=
  [.write "sst-0-000000.sst" 1 Nat.one_pos [(.ofBytes [1], some [6])], .construct 2 "sst-0-000000.sst"].foldl
    (next linuxTransferMax) (beforeMove.moveAssign 0 1)

/-- `readAll` on a new object refuses the first string of the file, and a table on the later file
answers with the block of the earlier one. -/
theorem move_loses_fileSize_and_invalidation :
    (∃ t, openTable (encode 1 Nat.one_pos smallTable) = .ok t ∧ t.readAll = .ok smallTable ∧
      t.moveConstruct.readAll = .error (.stringTooLong 1 0) ∧
      ¬ SameResults ("sst-0-000000.sst", t) (Table.moveConstruct ("sst-0-000000.sst", t))) ∧
    afterMove.files "sst-0-000000.sst" = some (encode 1 Nat.one_pos [(.ofBytes [1], some [6])]) ∧
    afterMove.answer 2 (.ofBytes [1]) = some (some [5]) := by
  refine ⟨?_, by decide +kernel, by decide +kernel⟩
  obtain ⟨t, hopen, hholds⟩ := openTable_of_write write_smallTable
  have hread := hholds.readAll_eq
  have hmoved : (openTable (encode 1 Nat.one_pos smallTable)).bind (·.moveConstruct.readAll) =
      .error (.stringTooLong 1 0) := by decide +kernel
  rw [hopen] at hmoved
  have hthrows : t.moveConstruct.readAll = .error (.stringTooLong 1 0) := hmoved
  refine ⟨t, hopen, hread, hthrows, ?_⟩
  intro hsame
  have heq : t.moveConstruct.readAll = t.readAll := hsame.readAll
  rw [hthrows, hread] at heq
  cases heq

end TableStore

end LsmTree.Table
