import LsmTree.LittleEndian
import Mathlib.Data.List.FinRange

/-!
# The blocked Bloom filter of a table

A filter is a number of blocks of 512 bits. A key selects one block, and in it the bits
at the positions of a double hashing sequence: inserting the key sets them, and a filter
may contain a key if all of them are set. Setting bits never clears one, so no key that
was inserted is ever denied. Stored in a file, the words of the blocks are written one
after the other.
-/

namespace LsmTree
open LittleEndian

/-- `BloomFilter::hash`: FNV-1a, and a second hash that is made odd. -/
def bloomHash (key : Bytes) : BitVec 64 × BitVec 64 :=
  let h := key.foldl (fun (h : BitVec 64 × BitVec 64) c =>
    ((h.1 ^^^ BitVec.ofNat 64 c.toNat) * 1099511628211#64,
      ((h.2 ^^^ BitVec.ofNat 64 c.toNat) * 0x9E3779B97F4A7C15#64).rotateLeft 27))
    (14695981039346656037#64, 1099511628211#64)
  let h2 := (h.2 ^^^ (h.2 >>> 33)) * 0xff51afd7ed558ccd#64
  (h.1, (h2 ^^^ (h2 >>> 29)) ||| 1#64)

/-- `BloomFilter::Block`, 512 bits in eight words. -/
abbrev BloomBlock := Vector (BitVec 64) 8

namespace BloomBlock

/-- `bits[bit / 64] |= 1ULL << (bit % 64)`. -/
def setBit (block : BloomBlock) (bit : Fin 512) : BloomBlock :=
  block.set (bit.val / 64) (block[bit.val / 64] ||| (1#64 <<< (bit.val % 64)))

/-- `bits[bit / 64] & (1ULL << (bit % 64))`, as a truth value. -/
def testBit (block : BloomBlock) (bit : Fin 512) : Bool :=
  decide (block[bit.val / 64] &&& (1#64 <<< (bit.val % 64)) ≠ 0#64)

theorem testBit_eq (block : BloomBlock) (bit : Fin 512) :
    block.testBit bit = block[bit.val / 64].getLsbD (bit.val % 64) := by
  have hlt : bit.val % 64 < 64 := Nat.mod_lt _ (by decide)
  have hpow : (BitVec.twoPow 64 (bit.val % 64)).toNat ≠ 0 := by
    rw [BitVec.toNat_twoPow_of_lt hlt]
    exact (Nat.two_pow_pos _).ne'
  rw [testBit, ← BitVec.twoPow_eq, BitVec.and_twoPow]
  split_ifs with hbit
  · rw [hbit, decide_eq_true_eq]
    exact fun hzero => hpow (congrArg BitVec.toNat hzero)
  · simpa using hbit

/-- Setting a bit sets that bit and keeps all others. -/
theorem testBit_setBit (block : BloomBlock) (b c : Fin 512) :
    (block.setBit b).testBit c = (block.testBit c || decide (c = b)) := by
  have hb : b.val % 64 < 64 := Nat.mod_lt _ (by decide)
  rw [testBit_eq, testBit_eq]
  simp only [setBit, Vector.getElem_set]
  split_ifs with hword
  · simp only [hword, BitVec.getLsbD_or]
    congr 1
    rw [← BitVec.twoPow_eq, BitVec.getLsbD_twoPow, decide_eq_true hb, Bool.true_and, decide_eq_decide,
      Fin.ext_iff]
    omega
  · have hne : c ≠ b := by
      rintro rfl
      exact hword rfl
    rw [decide_eq_false hne, Bool.or_false]

theorem testBit_foldl_setBit (block : BloomBlock) (bits : List (Fin 512)) (c : Fin 512) :
    (bits.foldl setBit block).testBit c = (block.testBit c || decide (c ∈ bits)) := by
  induction bits generalizing block with
  | nil => simp
  | cons b bits ih =>
    rw [List.foldl_cons, ih, testBit_setBit, Bool.or_assoc]
    simp

end BloomBlock

/-- `BloomFilter`; there is at least one block. -/
structure BloomFilter where
  numBlocks : ℕ
  numHashes : ℕ
  blocks : Vector BloomBlock numBlocks
  numBlocks_pos : 0 < numBlocks

namespace BloomFilter

/-- A filter of empty blocks, with the number of hashes the constructor fixes. -/
def new (numBlocks : ℕ) (h : 0 < numBlocks) : BloomFilter :=
  ⟨numBlocks, 8, Vector.replicate numBlocks (Vector.replicate 8 0#64), h⟩

/-- The block a key selects. -/
def blockIdx (f : BloomFilter) (key : Bytes) : Fin f.numBlocks :=
  ⟨(bloomHash key).1.toNat % f.numBlocks, Nat.mod_lt _ f.numBlocks_pos⟩

/-- The `i`-th bit a key selects in its block. -/
def bitIdx (key : Bytes) (i : ℕ) : Fin 512 :=
  ⟨((bloomHash key).1 + BitVec.ofNat 64 i * (bloomHash key).2).toNat % 512, Nat.mod_lt _ (by decide)⟩

def insert (f : BloomFilter) (key : Bytes) : BloomFilter :=
  { f with
    blocks := f.blocks.set (f.blockIdx key)
      (((List.range f.numHashes).map (bitIdx key)).foldl BloomBlock.setBit f.blocks[f.blockIdx key]) }

def mayContain (f : BloomFilter) (key : Bytes) : Bool :=
  (List.range f.numHashes).all fun i => f.blocks[f.blockIdx key].testBit (bitIdx key i)

def serialize (f : BloomFilter) : Bytes :=
  f.blocks.toList.flatMap fun block => block.toList.flatMap fun w => leBytes 8 w.toNat

/-- The block of eight words at an offset. -/
def readBlock (data : Bytes) (offset : ℕ) : BloomBlock :=
  Vector.ofFn fun j => BitVec.ofNat 64 (leNat ((data.drop (offset + j.val * 8)).take 8))

/-- A filter with blocks copied from `data`, or with empty ones if there is too little of it. -/
def ofData (numBlocks numHashes : ℕ) (data : Bytes) (h : 0 < numBlocks) : BloomFilter where
  numBlocks := numBlocks
  numHashes := numHashes
  blocks := if numBlocks * 64 ≤ data.length then Vector.ofFn fun i => readBlock data (i.val * 64)
    else Vector.replicate numBlocks (Vector.replicate 8 0#64)
  numBlocks_pos := h

theorem clamp_pos (n : ℕ) : 0 < max n 1 := Nat.lt_of_lt_of_le Nat.zero_lt_one (Nat.le_max_right n 1)

/-- Both numbers come from a file; a zero is taken as one. -/
def deserialize (numBlocks numHashes : ℕ) (data : Bytes) : BloomFilter :=
  ofData (max numBlocks 1) (max numHashes 1) data (clamp_pos numBlocks)

/-! ### No false negatives -/

theorem mayContain_iff (f : BloomFilter) (key : Bytes) :
    f.mayContain key = true ↔ ∀ i < f.numHashes, f.blocks[f.blockIdx key].testBit (bitIdx key i) = true := by
  simp [mayContain]

/-- The bits of a filter after an insertion: those there were, and those of the key. -/
theorem testBit_insert (f : BloomFilter) (key : Bytes) (i : Fin f.numBlocks) (c : Fin 512) :
    (f.insert key).blocks[i].testBit c = (f.blocks[i].testBit c ||
      decide (i = f.blockIdx key ∧ c ∈ (List.range f.numHashes).map (bitIdx key))) := by
  have hget : (f.insert key).blocks[i] = if (f.blockIdx key).val = i.val then
      ((List.range f.numHashes).map (bitIdx key)).foldl BloomBlock.setBit f.blocks[f.blockIdx key]
      else f.blocks[i] := Vector.getElem_set (f.blockIdx key).isLt i.isLt
  rw [hget]
  split_ifs with hi
  · have hi' : i = f.blockIdx key := Fin.ext hi.symm
    rw [BloomBlock.testBit_foldl_setBit, hi']
    simp
  · have hi' : i ≠ f.blockIdx key := fun h => hi (congrArg Fin.val h).symm
    simp [hi']

theorem mayContain_insert_self (f : BloomFilter) (key : Bytes) : (f.insert key).mayContain key = true := by
  rw [mayContain_iff]
  intro i hi
  have hbit : bitIdx key i ∈ (List.range f.numHashes).map (bitIdx key) :=
    List.mem_map_of_mem (List.mem_range.mpr hi)
  have htest := testBit_insert f key (f.blockIdx key) (bitIdx key i)
  rw [decide_eq_true ⟨rfl, hbit⟩, Bool.or_true] at htest
  exact htest

/-- Later insertions never turn an answer to false. -/
theorem mayContain_insert (f : BloomFilter) {key : Bytes} (other : Bytes) (h : f.mayContain key = true) :
    (f.insert other).mayContain key = true := by
  rw [mayContain_iff] at h ⊢
  intro i hi
  have htest := testBit_insert f other (f.blockIdx key) (bitIdx key i)
  rw [h i hi, Bool.true_or] at htest
  exact htest

theorem mayContain_foldl_insert (f : BloomFilter) {keys : List Bytes} {key : Bytes}
    (h : key ∈ keys ∨ f.mayContain key = true) : (keys.foldl insert f).mayContain key = true := by
  induction keys generalizing f with
  | nil => exact h.resolve_left List.not_mem_nil
  | cons k keys ih =>
    apply ih
    rcases h with h | h
    · rcases List.mem_cons.mp h with rfl | h
      · exact .inr (f.mayContain_insert_self key)
      · exact .inl h
    · exact .inr (f.mayContain_insert k h)

/-! ### Storage -/

/-- A block as it is stored. -/
def blockBytes (block : BloomBlock) : Bytes := block.toList.flatMap fun w => leBytes 8 w.toNat

theorem length_blockBytes (block : BloomBlock) : (blockBytes block).length = 64 := by
  simp [blockBytes, List.length_flatMap]

theorem length_serialize (f : BloomFilter) : f.serialize.length = f.numBlocks * 64 := by
  have hlen : ∀ block : BloomBlock, (block.toList.flatMap fun w => leBytes 8 w.toNat).length = 64 :=
    length_blockBytes
  simp [serialize, List.length_flatMap, hlen]

theorem readBlock_serialize (f : BloomFilter) (i : Fin f.numBlocks) :
    readBlock f.serialize (i.val * 64) = f.blocks[i] := by
  have hi : i.val < f.blocks.toList.length := by simp
  have hblock : (f.serialize.drop (i.val * 64)).take 64 = blockBytes f.blocks[i] := by
    have hslice := take_drop_flatMap length_blockBytes hi
    rw [Vector.getElem_toList] at hslice
    exact hslice
  apply Vector.ext
  intro j hj
  have hword : (f.serialize.drop (i.val * 64 + j * 8)).take 8 = leBytes 8 f.blocks[i][j].toNat := by
    calc (f.serialize.drop (i.val * 64 + j * 8)).take 8
        = (((f.serialize.drop (i.val * 64)).take 64).drop (j * 8)).take 8 := by
          rw [List.drop_take, List.take_take, List.drop_drop, Nat.min_eq_left (by omega)]
      _ = ((blockBytes f.blocks[i]).drop (j * 8)).take 8 := by rw [hblock]
      _ = leBytes 8 f.blocks[i][j].toNat := by
          have hj' : j < f.blocks[i].toList.length := by simpa using hj
          have hslice := take_drop_flatMap (f := fun w : BitVec 64 => leBytes 8 w.toNat)
            (fun w => length_leBytes 8 w.toNat) hj'
          rw [Vector.getElem_toList] at hslice
          exact hslice
  simp only [readBlock, Vector.getElem_ofFn]
  rw [hword, leNat_leBytes (by simpa using f.blocks[i][j].isLt), BitVec.ofNat_toNat, BitVec.setWidth_eq]

theorem ofData_serialize (f : BloomFilter) :
    ofData f.numBlocks f.numHashes f.serialize f.numBlocks_pos = f := by
  have hblocks : (ofData f.numBlocks f.numHashes f.serialize f.numBlocks_pos).blocks = f.blocks := by
    simp only [ofData, length_serialize, le_refl, if_true]
    apply Vector.ext
    intro i hi
    rw [Vector.getElem_ofFn]
    exact readBlock_serialize f ⟨i, hi⟩
  obtain ⟨n, m, blocks, hpos⟩ := f
  exact congrArg (BloomFilter.mk n m · hpos) hblocks

/-- A filter read back from a file is the filter that was stored. -/
theorem deserialize_serialize (f : BloomFilter) (h : 0 < f.numHashes) :
    deserialize f.numBlocks f.numHashes f.serialize = f := by
  have hclamp : ∀ {n m : ℕ} (hn : 0 < n), n = f.numBlocks → m = f.numHashes →
      ofData n m f.serialize hn = f := by
    rintro n m hn rfl rfl
    exact f.ofData_serialize
  exact hclamp _ (Nat.max_eq_left f.numBlocks_pos) (Nat.max_eq_left h)

end BloomFilter

end LsmTree
