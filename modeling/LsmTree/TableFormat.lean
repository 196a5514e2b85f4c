import LsmTree.BloomFilter
import LsmTree.ByteStream
import LsmTree.Memtable

/-!
# The table file

`SSTable::write` lays a table out as a data section, a sparse index, a Bloom filter and
a footer with the offsets of the two. Entries follow each other without padding; an
entry is a tombstone byte, the key and the value, each string behind its 32-bit length.
The index names the first key of every block and where the block begins. A block is
closed by the entry that brings it to 4096 bytes or more, so the blocks partition the
data section and none is empty.
-/

namespace LsmTree.Table
open LittleEndian LayeredMap ByteStream

/-- `SSTable::Entry`; a tombstone has no value. -/
abbrev Entry := Key × Option Bytes

/-- `TARGET_BLOCK_SIZE`. -/
def targetBlockSize : ℕ := 4096

/-- `std::numeric_limits<uint32_t>::max()`. -/
def uint32Max : ℕ := 2 ^ 32 - 1

/-- `writeString` of a string that fits. -/
def encodeString (s : Bytes) : Bytes := leBytes 4 s.length ++ s

/-- The tombstone byte. -/
def tombstoneByte (value : Option Bytes) : UInt8 := if value.isSome then 0 else 1

/-- `writeEntry`. -/
def encodeEntry (e : Entry) : Bytes :=
  tombstoneByte e.2 :: (encodeString e.1.bytes ++ encodeString (e.2.getD []))

/-- `entry_bytes`. -/
def entrySize (e : Entry) : ℕ := 1 + 4 + e.1.size + 4 + valueBytes e.2

def encodeData (es : List Entry) : Bytes := es.flatMap encodeEntry

/-- The index entries of the loop of `SSTable::write`, from the state it has after its first
entry: `blockBytes` is `current_block_bytes` and `offset` is `out.tellp()`. -/
def indexFrom : ℕ → ℕ → List Entry → List (Key × ℕ)
  | _, _, [] => []
  | blockBytes, offset, e :: es =>
    if targetBlockSize ≤ blockBytes then
      (e.1, offset) :: indexFrom (entrySize e) (offset + entrySize e) es
    else indexFrom (blockBytes + entrySize e) (offset + entrySize e) es

/-- The sparse index; the first entry always begins a block. -/
def index : List Entry → List (Key × ℕ)
  | [] => []
  | e :: es => (e.1, 0) :: indexFrom (entrySize e) (entrySize e) es

/-- Where the block numbered `i` ends: where the next one begins, or with the data section. -/
def blockStop (es : List Entry) (i : ℕ) : ℕ := ((index es)[i + 1]?.map Prod.snd).getD (encodeData es).length

/-- No block of the table has more bytes. -/
def BlocksWithin (maxBytes : ℕ) (es : List Entry) : Prop :=
  ∀ (i : ℕ) (p : Key × ℕ), (index es)[i]? = some p → blockStop es i - p.2 ≤ maxBytes

def encodeIndexEntry (p : Key × ℕ) : Bytes := encodeString p.1.bytes ++ leBytes 8 p.2

def encodeIndex (idx : List (Key × ℕ)) : Bytes := leBytes 4 idx.length ++ idx.flatMap encodeIndexEntry

/-- `serializeBloom`. -/
def encodeBloom (f : BloomFilter) : Bytes := leBytes 8 f.numHashes ++ (leBytes 8 f.numBlocks ++ f.serialize)

/-- The filter of a table with so many blocks. -/
def bloom (numBlocks : ℕ) (h : 0 < numBlocks) (es : List Entry) : BloomFilter :=
  (es.map fun e => e.1.bytes).foldl BloomFilter.insert (BloomFilter.new numBlocks h)

def encodeFooter (indexOffset bloomOffset : ℕ) : Bytes := leBytes 8 indexOffset ++ leBytes 8 bloomOffset

def encode (numBlocks : ℕ) (h : 0 < numBlocks) (es : List Entry) : Bytes :=
  encodeData es ++ (encodeIndex (index es) ++ (encodeBloom (bloom numBlocks h es) ++
    encodeFooter (encodeData es).length ((encodeData es).length + (encodeIndex (index es)).length)))

/-- Why `SSTable::write` throws: an entry that does not have a larger key than the one before it,
a string too long for its length field, more blocks than the index can count, or a file larger
than a file offset can address. -/
inductive WriteError where
  | unsorted (position : ℕ)
  | tooLong (bytes : ℕ)
  | tooManyBlocks
  | tooLarge
  deriving DecidableEq, Repr

/-- The position of the first entry, from the one numbered `i` on, that is out of order. -/
def firstUnsorted : ℕ → List Entry → Option ℕ
  | i, a :: b :: es => if a.1 < b.1 then firstUnsorted (i + 1) (b :: es) else some i
  | _, _ => none

/-- The first string that `writeString` refuses. -/
def firstTooLong (es : List Entry) : Option ℕ :=
  es.findSome? fun e =>
    if uint32Max < e.1.size then some e.1.size
    else if uint32Max < valueBytes e.2 then some (valueBytes e.2) else none

/-- The bytes that `SSTable::write` publishes. The number of blocks of the filter is computed in
floating point and is a parameter here. -/
def write (numBlocks : ℕ) (h : 0 < numBlocks) (es : List Entry) : Except WriteError Bytes :=
  match firstUnsorted 1 es with
  | some i => .error (.unsorted i)
  | none =>
    match firstTooLong es with
    | some n => .error (.tooLong n)
    | none =>
      if uint32Max < (index es).length then .error .tooManyBlocks
      else if offsetLimit ≤ (encode numBlocks h es).length then .error .tooLarge
      else .ok (encode numBlocks h es)

/-! ### What is accepted -/

theorem firstUnsorted_eq_none_iff (i : ℕ) (es : List Entry) :
    firstUnsorted i es = none ↔ Sorted es := by
  induction es generalizing i with
  | nil => simp [firstUnsorted, Sorted]
  | cons a es ih =>
    cases es with
    | nil => simp [firstUnsorted, Sorted]
    | cons b es =>
      rw [firstUnsorted]
      split_ifs with hab
      · rw [ih (i + 1)]
        constructor
        · intro h
          refine List.pairwise_cons.mpr ⟨?_, h⟩
          intro c hc
          rcases List.mem_cons.mp hc with rfl | hc
          · exact hab
          · exact hab.trans ((List.pairwise_cons.mp h).1 c hc)
        · exact fun h => (List.pairwise_cons.mp h).2
      · simp only [false_iff]
        exact fun h => hab ((List.pairwise_cons.mp h).1 b List.mem_cons_self)

/-- Both strings of an entry fit their length fields. -/
def Fits (e : Entry) : Prop := e.1.size ≤ uint32Max ∧ valueBytes e.2 ≤ uint32Max

theorem firstTooLong_eq_none_iff (es : List Entry) : firstTooLong es = none ↔ ∀ e ∈ es, Fits e := by
  rw [firstTooLong, List.findSome?_eq_none_iff]
  refine forall₂_congr fun e _ => ?_
  rw [Fits]
  split_ifs with hkey hvalue
  · simp [Nat.not_le.mpr hkey]
  · simp [Nat.not_le.mpr hvalue]
  · simp [Nat.le_of_not_lt hkey, Nat.le_of_not_lt hvalue]

/-- What `SSTable::write` accepts, and what it then writes. -/
theorem write_eq_ok_iff {numBlocks : ℕ} {h : 0 < numBlocks} {es : List Entry} {file : Bytes} :
    write numBlocks h es = .ok file ↔ Sorted es ∧ (∀ e ∈ es, Fits e) ∧ (index es).length ≤ uint32Max ∧
      (encode numBlocks h es).length < offsetLimit ∧ encode numBlocks h es = file := by
  rw [← firstUnsorted_eq_none_iff 1, ← firstTooLong_eq_none_iff, write]
  cases firstUnsorted 1 es with
  | some i => simp
  | none =>
    cases firstTooLong es with
    | some n => simp
    | none =>
      split_ifs with hcount hsize
      · simp [Nat.not_le.mpr hcount]
      · simp [Nat.not_lt.mpr hsize]
      · simp only [Except.ok.injEq, true_and]
        exact ⟨fun hf => ⟨Nat.le_of_not_lt hcount, Nat.lt_of_not_le hsize, hf⟩, fun hf => hf.2.2⟩

/-! ### Blocks -/

@[simp] theorem length_encodeString (s : Bytes) : (encodeString s).length = 4 + s.length := by
  simp [encodeString]

@[simp] theorem length_encodeEntry (e : Entry) : (encodeEntry e).length = entrySize e := by
  obtain ⟨k, v⟩ := e
  cases v <;> simp [encodeEntry, entrySize, valueBytes, Key.size] <;> omega

theorem encodeData_cons (e : Entry) (es : List Entry) :
    encodeData (e :: es) = encodeEntry e ++ encodeData es := List.flatMap_cons

theorem encodeData_append (es fs : List Entry) :
    encodeData (es ++ fs) = encodeData es ++ encodeData fs := List.flatMap_append

theorem length_encodeData_cons (e : Entry) (es : List Entry) :
    (encodeData (e :: es)).length = entrySize e + (encodeData es).length := by
  rw [encodeData_cons, List.length_append, length_encodeEntry]

/-- The blocks an index describes, the first one at offset `off`: its entries are the first keys
of the blocks and the offsets at which they begin. No block is empty. -/
inductive Indexed : ℕ → List (Key × ℕ) → List (List Entry) → Prop
  | nil (off : ℕ) : Indexed off [] []
  | cons {off : ℕ} {idx : List (Key × ℕ)} {blocks : List (List Entry)} (e : Entry) (es : List Entry)
      (h : Indexed (off + (encodeData (e :: es)).length) idx blocks) :
      Indexed off ((e.1, off) :: idx) ((e :: es) :: blocks)

/-- The loop extends the block it is in until it begins the next one. -/
theorem indexed_indexFrom (e : Entry) (block es : List Entry) {start blockBytes offset : ℕ}
    (hoffset : offset = start + (encodeData (e :: block)).length) :
    ∃ blocks, Indexed start ((e.1, start) :: indexFrom blockBytes offset es) blocks ∧
      blocks.flatten = e :: block ++ es := by
  induction es generalizing e block start blockBytes offset with
  | nil => exact ⟨[e :: block], .cons e block (.nil _), by simp⟩
  | cons f es ih =>
    rw [indexFrom]
    split_ifs
    · have hnext : offset + entrySize f = offset + (encodeData [f]).length := by
        rw [length_encodeData_cons]
        rfl
      obtain ⟨blocks, hidx, hflat⟩ := @ih f [] offset (entrySize f) _ hnext
      refine ⟨(e :: block) :: blocks, .cons e block (hoffset ▸ hidx), ?_⟩
      rw [List.flatten_cons, hflat]
      rfl
    · have hnext : offset + entrySize f = start + (encodeData (e :: (block ++ [f]))).length := by
        rw [hoffset, ← List.cons_append, encodeData_append, List.length_append, length_encodeData_cons f]
        simp [encodeData, Nat.add_assoc]
      obtain ⟨blocks, hidx, hflat⟩ := @ih e (block ++ [f]) start (blockBytes + entrySize f) _ hnext
      exact ⟨blocks, hidx, by rw [hflat]; simp⟩

theorem indexed_index (es : List Entry) : ∃ blocks, Indexed 0 (index es) blocks ∧ blocks.flatten = es := by
  cases es with
  | nil => exact ⟨[], .nil 0, rfl⟩
  | cons e es =>
    apply indexed_indexFrom e [] es
    rw [length_encodeData_cons]
    simp [encodeData]

/-- Where the entry numbered `i` of an index stands: it has the first key and the offset of its
block, and the block ends where the next one begins, or with the data section. -/
theorem Indexed.split {off : ℕ} {idx : List (Key × ℕ)} {blocks : List (List Entry)}
    (h : Indexed off idx blocks) {i : ℕ} {p : Key × ℕ} (hi : idx[i]? = some p) :
    ∃ (before after : List (List Entry)) (e : Entry) (es : List Entry),
      blocks = before ++ (e :: es) :: after ∧ before.length = i ∧
      p = (e.1, off + (encodeData before.flatten).length) ∧
      Indexed (off + (encodeData (before.flatten ++ e :: es)).length) (idx.drop (i + 1)) after := by
  induction h generalizing i with
  | nil => cases hi
  | @cons off idx blocks e es hrest ih =>
    cases i with
    | zero =>
      cases hi
      exact ⟨[], blocks, e, es, rfl, rfl, rfl, hrest⟩
    | succ i =>
      obtain ⟨before, after, f, fs, rfl, hlen, hp, hafter⟩ := ih hi
      refine ⟨(e :: es) :: before, after, f, fs, rfl, by simp [hlen], ?_, ?_⟩
      · rw [hp, List.flatten_cons, encodeData_append, List.length_append, Nat.add_assoc]
      · rw [List.flatten_cons, List.append_assoc, encodeData_append, List.length_append, ← Nat.add_assoc]
        exact hafter

/-- The blocks that the loop makes, from the one it is in to the last: a block is closed by the entry
that brings it to 4096 bytes, so this entry is all it has beyond 4095. -/
theorem isChain_indexFrom {largest start blockBytes offset : ℕ} {es : List Entry}
    (hentries : ∀ e ∈ es, entrySize e ≤ largest) (hoffset : offset = start + blockBytes)
    (hblock : blockBytes ≤ targetBlockSize - 1 + largest) :
    (start :: ((indexFrom blockBytes offset es).map Prod.snd ++ [offset + (encodeData es).length])).IsChain
      fun a b => b - a ≤ targetBlockSize - 1 + largest := by
  induction es generalizing start blockBytes offset with
  | nil =>
    refine List.isChain_cons_cons.mpr ⟨?_, List.IsChain.singleton _⟩
    simp only [encodeData, List.flatMap_nil, List.length_nil]
    omega
  | cons e es ih =>
    have he := hentries e List.mem_cons_self
    have hrest := fun e' he' => hentries e' (List.mem_cons_of_mem _ he')
    rw [indexFrom, length_encodeData_cons, ← Nat.add_assoc]
    split_ifs with hfull
    · rw [List.map_cons, List.cons_append, List.isChain_cons_cons]
      exact ⟨by omega, ih hrest rfl (by omega)⟩
    · exact ih hrest (by omega) (by omega)

/-- Blocks are at most one entry longer than the size at which they are closed. -/
theorem blocksWithin_of_entrySize {maxBytes : ℕ} {es : List Entry}
    (h : ∀ e ∈ es, targetBlockSize - 1 + entrySize e ≤ maxBytes) : BlocksWithin maxBytes es := by
  intro i p hp
  cases es with
  | nil => cases hp
  | cons e es =>
    have hlarge : targetBlockSize - 1 ≤ maxBytes := (Nat.le_add_right _ _).trans (h e List.mem_cons_self)
    have hentries : ∀ e' ∈ e :: es, entrySize e' ≤ maxBytes - (targetBlockSize - 1) := fun e' he' => by
      have := h e' he'
      omega
    have hfirst := hentries e List.mem_cons_self
    have hchain := @isChain_indexFrom (maxBytes - (targetBlockSize - 1)) 0 (entrySize e) (entrySize e) es
      (fun e' he' => hentries e' (List.mem_cons_of_mem _ he')) (Nat.zero_add _).symm (by omega)
    rw [← length_encodeData_cons] at hchain
    have hoffsets : 0 :: ((indexFrom (entrySize e) (entrySize e) es).map Prod.snd ++ [(encodeData (e :: es)).length]) =
        (index (e :: es)).map Prod.snd ++ [(encodeData (e :: es)).length] := rfl
    rw [hoffsets, List.isChain_iff_getElem] at hchain
    have hi := (List.getElem?_eq_some_iff.mp hp).1
    have hstart : ((index (e :: es)).map Prod.snd ++ [(encodeData (e :: es)).length])[i]? = some p.2 := by
      rw [List.getElem?_append_left (by simpa using hi), List.getElem?_map, hp]
      rfl
    have hstop : ((index (e :: es)).map Prod.snd ++ [(encodeData (e :: es)).length])[i + 1]? =
        some (blockStop (e :: es) i) := by
      rw [blockStop]
      by_cases hnext : i + 1 < (index (e :: es)).length
      · rw [List.getElem?_append_left (by simpa using hnext), List.getElem?_map, List.getElem?_eq_getElem hnext]
        rfl
      · have hlast : i + 1 = (index (e :: es)).length := by omega
        rw [List.getElem?_append_right (by simp [hlast]), List.getElem?_eq_none (Nat.le_of_not_lt hnext)]
        simp [hlast]
    obtain ⟨_, hstart⟩ := List.getElem?_eq_some_iff.mp hstart
    obtain ⟨hlt, hstop⟩ := List.getElem?_eq_some_iff.mp hstop
    have hgap := hchain i hlt
    rw [hstart, hstop, Nat.add_sub_cancel' hlarge] at hgap
    exact hgap

end LsmTree.Table
