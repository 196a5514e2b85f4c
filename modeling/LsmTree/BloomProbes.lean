import LsmTree.BloomFilter
import Mathlib.Data.Finset.Card
import Mathlib.Data.Fintype.Prod
import Mathlib.Data.Nat.ModEq
import Mathlib.Data.Nat.Prime.Basic

/-!
# The probes of a key

The bits of a key in its block are the first terms of an arithmetic progression modulo 512.
Its step is odd, thus prime to 512, and a progression with such a step repeats itself only
after 512 terms; that the code computes it modulo 2^64 changes nothing, 512 being a divisor.
So the eight probes of a key are eight bits, an insertion into an empty filter sets these
and no others, and a filter accepts a key if and only if it has all eight of them.
-/

namespace LsmTree
open LittleEndian

/-- A progression whose step is prime to the modulus has no repetition within one period. -/
theorem progression_injOn {m step : ℕ} (start : ℕ) (hstep : step.Coprime m) :
    Set.InjOn (fun i => (start + i * step) % m) (Set.Iio m) := by
  intro i hi j hj hij
  have hsum : start + i * step ≡ start + j * step [MOD m] := hij
  have hmul : i * step ≡ j * step [MOD m] := Nat.ModEq.add_left_cancel' start hsum
  have hmod : i ≡ j [MOD m] := Nat.ModEq.cancel_right_of_coprime (Nat.Coprime.symm hstep) hmul
  exact Nat.ModEq.eq_of_lt_of_lt hmod hi hj

/-- The last step of `BloomFilter::hash` makes the second hash odd. -/
theorem bloomHash_odd (key : Bytes) : (bloomHash key).2.toNat % 2 = 1 := by
  have hbit : (bloomHash key).2.getLsbD 0 = true := by simp [bloomHash]
  rw [← BitVec.testBit_toNat, Nat.testBit_zero] at hbit
  exact of_decide_eq_true hbit

theorem bloomHash_coprime (key : Bytes) : (bloomHash key).2.toNat.Coprime 512 := by
  have hodd : (bloomHash key).2.toNat.Coprime 2 :=
    Nat.coprime_two_right.mpr (Nat.odd_iff.mpr (bloomHash_odd key))
  exact Nat.Coprime.pow_right 9 hodd

namespace BloomFilter

/-- A wrapped sum of a number and a wrapped product, modulo a divisor of the wrap. -/
theorem toNat_add_mul_mod {w m : ℕ} (hdvd : m ∣ 2 ^ w) (x y : BitVec w) (i : ℕ) :
    (x + BitVec.ofNat w i * y).toNat % m = (x.toNat + i * y.toNat) % m := by
  have hmul : (i % 2 ^ w * y.toNat) % 2 ^ w = (i * y.toNat) % 2 ^ w := Nat.mod_mul_mod _ _ _
  rw [BitVec.toNat_add, BitVec.toNat_mul, BitVec.toNat_ofNat, hmul, Nat.add_mod_mod, Nat.mod_mod_of_dvd _ hdvd]

theorem bitIdx_val (key : Bytes) (i : ℕ) :
    (bitIdx key i).val = ((bloomHash key).1.toNat + i * (bloomHash key).2.toNat) % 512 := by
  have hdvd : 512 ∣ 2 ^ 64 := by decide
  exact toNat_add_mul_mod hdvd _ _ i

theorem bitIdx_injOn (key : Bytes) : Set.InjOn (bitIdx key) (Set.Iio 512) := by
  intro i hi j hj hij
  have hval := congrArg Fin.val hij
  rw [bitIdx_val, bitIdx_val] at hval
  exact progression_injOn _ (bloomHash_coprime key) hi hj hval

/-- The eight bits a key selects in its block. -/
def probes (key : Bytes) : Finset (Fin 512) := (Finset.range 8).image (bitIdx key)

theorem card_probes (key : Bytes) : (probes key).card = 8 := by
  have hinj : Set.InjOn (bitIdx key) (Finset.range 8) := by
    intro i hi j hj hij
    have hi' : i < 8 := Finset.mem_range.mp hi
    have hj' : j < 8 := Finset.mem_range.mp hj
    exact bitIdx_injOn key (by simp; omega) (by simp; omega) hij
  rw [probes, Finset.card_image_of_injOn hinj, Finset.card_range]

theorem mem_probes (key : Bytes) (c : Fin 512) :
    c ∈ probes key ↔ c ∈ (List.range 8).map (bitIdx key) := by
  simp [probes]

/-- The bit of a block of the filter. -/
def hasBit (f : BloomFilter) (i : Fin f.numBlocks) (c : Fin 512) : Bool := (f.blocks.get i).testBit c

/-- The bits that are set in a filter, each with the number of its block. -/
def bitsSet (f : BloomFilter) : Finset (ℕ × Fin 512) :=
  (Finset.univ.filter fun p : Fin f.numBlocks × Fin 512 => f.hasBit p.1 p.2 = true).image
    fun p => (p.1.val, p.2)

theorem mem_bitsSet (f : BloomFilter) (p : ℕ × Fin 512) :
    p ∈ f.bitsSet ↔ ∃ i : Fin f.numBlocks, i.val = p.1 ∧ f.hasBit i p.2 = true := by
  rw [bitsSet, Finset.mem_image]
  constructor
  · rintro ⟨q, hq, rfl⟩
    exact ⟨q.1, rfl, (Finset.mem_filter.mp hq).2⟩
  · rintro ⟨i, hi, htest⟩
    exact ⟨(i, p.2), Finset.mem_filter.mpr ⟨Finset.mem_univ _, htest⟩, Prod.ext hi rfl⟩

theorem hasBit_new {numBlocks : ℕ} (h : 0 < numBlocks) (i : Fin numBlocks) (c : Fin 512) :
    (new numBlocks h).hasBit i c = false := by
  have hblock : (new numBlocks h).blocks.get i = Vector.replicate 8 0#64 := Vector.getElem_replicate i.isLt
  have hbit : BloomBlock.testBit (Vector.replicate 8 0#64) c = false := by
    rw [BloomBlock.testBit_eq, Vector.getElem_replicate, BitVec.getLsbD_zero]
  exact (congrArg (BloomBlock.testBit · c) hblock).trans hbit

theorem hasBit_insert (f : BloomFilter) (key : Bytes) (i : Fin f.numBlocks) (c : Fin 512) :
    (f.insert key).hasBit i c = true ↔
      f.hasBit i c = true ∨ (i = f.blockIdx key ∧ c ∈ (List.range f.numHashes).map (bitIdx key)) := by
  have hbit : (f.insert key).hasBit i c = (f.hasBit i c ||
      decide (i = f.blockIdx key ∧ c ∈ (List.range f.numHashes).map (bitIdx key))) := testBit_insert f key i c
  rw [hbit, Bool.or_eq_true, decide_eq_true_eq]

/-- An insertion into an empty filter sets the probes of the key in its block and nothing else. -/
theorem bitsSet_insert_new {numBlocks : ℕ} (h : 0 < numBlocks) (key : Bytes) :
    ((new numBlocks h).insert key).bitsSet =
      (probes key).image fun c => (((new numBlocks h).blockIdx key).val, c) := by
  have htest : ∀ (i : Fin numBlocks) (c : Fin 512),
      ((new numBlocks h).insert key).hasBit i c = true ↔
        i.val = ((new numBlocks h).blockIdx key).val ∧ c ∈ probes key := by
    intro i c
    have hbit := hasBit_insert (new numBlocks h) key i c
    constructor
    · intro hset
      rcases hbit.mp hset with hnew | ⟨hi, hc⟩
      · exact absurd hnew (Bool.eq_false_iff.mp (hasBit_new h i c))
      · exact ⟨congrArg Fin.val hi, (mem_probes key c).mpr hc⟩
    · intro ⟨hi, hc⟩
      exact hbit.mpr (.inr ⟨Fin.ext hi, (mem_probes key c).mp hc⟩)
  ext ⟨n, c⟩
  rw [mem_bitsSet, Finset.mem_image]
  constructor
  · rintro ⟨i, rfl, hi⟩
    obtain ⟨hblock, hc⟩ := (htest i c).mp hi
    exact ⟨c, hc, Prod.ext hblock.symm rfl⟩
  · rintro ⟨d, hd, heq⟩
    obtain ⟨rfl, rfl⟩ := Prod.mk.inj heq
    exact ⟨(new numBlocks h).blockIdx key, rfl, (htest _ d).mpr ⟨rfl, hd⟩⟩

theorem card_bitsSet_insert_new {numBlocks : ℕ} (h : 0 < numBlocks) (key : Bytes) :
    ((new numBlocks h).insert key).bitsSet.card = 8 := by
  have hinj : Function.Injective fun c : Fin 512 => (((new numBlocks h).blockIdx key).val, c) := by
    intro c d heq
    exact congrArg Prod.snd heq
  rw [bitsSet_insert_new, Finset.card_image_of_injective _ hinj, card_probes]

theorem mayContain_iff_probes {f : BloomFilter} (hhashes : f.numHashes = 8) (key : Bytes) :
    f.mayContain key = true ↔ ∀ c ∈ probes key, f.hasBit (f.blockIdx key) c = true := by
  have hiff : f.mayContain key = true ↔ ∀ i < f.numHashes, f.hasBit (f.blockIdx key) (bitIdx key i) = true :=
    f.mayContain_iff key
  rw [hiff, hhashes]
  simp [probes]

/-- The probes of a key never collapse: they are pairwise different, so an empty filter has
exactly eight bits after the key is inserted, all in its block, and a filter accepts the key
exactly when it has those eight bits there. -/
theorem probes_never_collapse (key : Bytes) :
    (∀ i < 8, ∀ j < 8, i ≠ j → bitIdx key i ≠ bitIdx key j) ∧
    (∀ (numBlocks : ℕ) (h : 0 < numBlocks),
      ((new numBlocks h).insert key).bitsSet.card = 8 ∧
      ∀ p ∈ ((new numBlocks h).insert key).bitsSet, p.1 = ((new numBlocks h).blockIdx key).val) ∧
    ∀ f : BloomFilter, f.numHashes = 8 →
      (probes key).card = 8 ∧
      (f.mayContain key = true ↔ ∀ c ∈ probes key, f.hasBit (f.blockIdx key) c = true) := by
  refine ⟨?_, ?_, ?_⟩
  · intro i hi j hj hne heq
    exact hne (bitIdx_injOn key (by simp; omega) (by simp; omega) heq)
  · intro numBlocks h
    refine ⟨card_bitsSet_insert_new h key, ?_⟩
    intro p hp
    rw [bitsSet_insert_new] at hp
    obtain ⟨c, -, rfl⟩ := Finset.mem_image.mp hp
    rfl
  · intro f hhashes
    exact ⟨card_probes key, mayContain_iff_probes hhashes key⟩

/-! ### Insertions in any order, and storage -/

theorem numHashes_foldl_insert (f : BloomFilter) (keys : List Bytes) :
    (keys.foldl insert f).numHashes = f.numHashes := by
  induction keys generalizing f with
  | nil => rfl
  | cons key keys ih => exact ih (f.insert key)

/-- A filter of a number of blocks with the keys inserted into it, one after the other. -/
def ofKeys (numBlocks : ℕ) (h : 0 < numBlocks) (keys : List Bytes) : BloomFilter :=
  keys.foldl insert (new numBlocks h)

/-- A filter of any positive size accepts every key that was inserted, keeps every answer
that was true through all later insertions, and answers the same for every key whatsoever
after it was written to a file and read back. -/
theorem no_false_negatives_and_storage (numBlocks : ℕ) (h : 0 < numBlocks) (keys : List Bytes) :
    (∀ key ∈ keys, (ofKeys numBlocks h keys).mayContain key = true) ∧
    (∀ (key : Bytes) (later : List Bytes), (ofKeys numBlocks h keys).mayContain key = true →
      (ofKeys numBlocks h (keys ++ later)).mayContain key = true) ∧
    ∀ key : Bytes,
      (deserialize (ofKeys numBlocks h keys).numBlocks (ofKeys numBlocks h keys).numHashes
        (ofKeys numBlocks h keys).serialize).mayContain key = (ofKeys numBlocks h keys).mayContain key := by
  refine ⟨?_, ?_, ?_⟩
  · intro key hkey
    exact mayContain_foldl_insert _ (.inl hkey)
  · intro key later htrue
    rw [ofKeys, List.foldl_append]
    exact mayContain_foldl_insert _ (.inr htrue)
  · intro key
    have hhashes : (ofKeys numBlocks h keys).numHashes = 8 := numHashes_foldl_insert _ keys
    rw [deserialize_serialize _ (by rw [hhashes]; decide)]

/-- Three blocks, and two keys of which one is empty. -/
theorem no_false_negatives_three :
    (∀ key ∈ [[], [107, 49]], (ofKeys 3 (by decide) [[], [107, 49]]).mayContain key = true) ∧
    ∀ key : Bytes,
      (deserialize (ofKeys 3 (by decide) [[], [107, 49]]).numBlocks (ofKeys 3 (by decide) [[], [107, 49]]).numHashes
        (ofKeys 3 (by decide) [[], [107, 49]]).serialize).mayContain key =
      (ofKeys 3 (by decide) [[], [107, 49]]).mayContain key :=
  ⟨(no_false_negatives_and_storage 3 (by decide) _).1, (no_false_negatives_and_storage 3 (by decide) _).2.2⟩

end BloomFilter

end LsmTree
