import LsmTree.Faults
import LsmTree.Transition
import Mathlib.Data.Nat.Basic
import Mathlib.Algebra.Order.Group.Nat
import Mathlib.Data.List.Pairwise

/-!
# The arena of the memtable

`Arena::allocate` hands out pieces of blocks, the next one behind the last one with some
padding for the alignment, and takes a fresh block when the current one has no room. Every
`size_t` computation is made with a check here, and the model stops where one would wrap
around. The invariant is that the part of the current block from the bump pointer on meets
no region that was handed out: a request either takes the front of this part, or the front
of a block that is disjoint from all blocks before it.
-/

namespace LsmTree.BumpAllocator
open Faults Transition

/-! ### Regions of memory -/

/-- The addresses from `start` on, `size` of them. -/
structure Region where
  start : ℕ
  size : ℕ
  deriving DecidableEq, Repr

namespace Region
variable {r s t : Region}

def Contains (r : Region) (x : ℕ) : Prop := r.start ≤ x ∧ x < r.start + r.size

/-- No address is in both. -/
def Disjoint (r s : Region) : Prop := ∀ x, ¬ (r.Contains x ∧ s.Contains x)

/-- It begins and ends within the other. -/
def Inside (r s : Region) : Prop := s.start ≤ r.start ∧ r.start + r.size ≤ s.start + s.size

theorem Inside.trans (h : r.Inside s) (h' : s.Inside t) : r.Inside t :=
  ⟨Nat.le_trans h'.1 h.1, Nat.le_trans h.2 h'.2⟩

theorem Inside.contains (h : r.Inside s) {x : ℕ} (hx : r.Contains x) : s.Contains x :=
  ⟨Nat.le_trans h.1 hx.1, Nat.lt_of_lt_of_le hx.2 h.2⟩

theorem Disjoint.symm (h : r.Disjoint s) : s.Disjoint r := by
  intro x hx
  exact h x ⟨hx.2, hx.1⟩

theorem Disjoint.mono (h : r.Disjoint s) (hinside : t.Inside s) : r.Disjoint t := by
  intro x hx
  exact h x ⟨hx.1, hinside.contains hx.2⟩

theorem disjoint_of_le (h : r.start + r.size ≤ s.start) : r.Disjoint s := by
  intro x hx
  have hr := hx.1.2
  have hs := hx.2.1
  omega

end Region

/-! ### Arithmetic on `size_t` -/

inductive SizeFault where
  | wrapped
  deriving DecidableEq, Repr

def sizeAdd (a b : ℕ) : Except SizeFault ℕ := if a + b < 2 ^ 64 then .ok (a + b) else .error .wrapped

def sizeSub (a b : ℕ) : Except SizeFault ℕ := if b ≤ a then .ok (a - b) else .error .wrapped

/-- `std::numeric_limits<size_t>::max()`. -/
def sizeMax : ℕ := 2 ^ 64 - 1

theorem sizeAdd_of_lt {a b : ℕ} (h : a + b < 2 ^ 64) : sizeAdd a b = .ok (a + b) := if_pos h

theorem sizeSub_of_le {a b : ℕ} (h : b ≤ a) : sizeSub a b = .ok (a - b) := if_pos h

/-! ### The arena -/

/-- The members of `Arena` that `allocate` uses. Each block is kept with the size it was made of. -/
structure Arena where
  blockSize : ℕ
  offset : ℕ
  currentBlockSize : ℕ
  currentBlock : ℕ
  blocks : List Region
  deriving DecidableEq, Repr

/-- `Arena::Arena`, with the address at which `new` puts the first block. -/
def init (blockSize start : ℕ) : Arena := ⟨blockSize, 0, blockSize, start, [⟨start, blockSize⟩]⟩

/-- The arguments of a call. -/
structure Request where
  bytes : ℕ
  alignment : ℕ
  bytes_lt : bytes < 2 ^ 64
  alignment_lt : alignment < 2 ^ 64
  deriving DecidableEq, Repr

/-- What the heap does in a call if it is asked: whether `reserve` finds room for one more pointer, and
the address `new` returns, or none if it throws. -/
structure Heap where
  reserves : Bool
  fresh : Option ℕ
  deriving DecidableEq, Repr

inductive Refusal where
  | invalidArgument (what : String)
  | badAlloc
  | lengthError
  deriving DecidableEq, Repr

/-- `std::vector<char*>::max_size()`. -/
def maxBlocks : ℕ := (2 ^ 63 - 1) / 8

/-- `Arena::padFor`; `p` is taken to an integer of 64 bits. -/
def padFor (p alignment : ℕ) : Except SizeFault ℕ :=
  let rem := p % 2 ^ 64 % alignment
  if rem ≠ 0 then sizeSub alignment rem else .ok 0

/-- `alignment == 0 || (alignment & (alignment - 1)) != 0`. -/
def rejectsAlignment (alignment : ℕ) : Except SizeFault Bool :=
  if alignment = 0 then .ok true
  else do
    let mask ← sizeSub alignment 1
    return decide (alignment &&& mask ≠ 0)

/-- `pad > remaining || bytes > remaining - pad`. -/
def lacksRoom (pad bytes remaining : ℕ) : Except SizeFault Bool :=
  if pad > remaining then .ok true
  else do
    let room ← sizeSub remaining pad
    return decide (bytes > room)

namespace Arena

/-- The last two steps: the result behind the padding, and the bump pointer behind the result. -/
def bump (a : Arena) (pad bytes : ℕ) : Except SizeFault (Arena × Except Refusal ℕ) := do
  let taken ← sizeAdd pad bytes
  let offset ← sizeAdd a.offset taken
  return ({ a with offset := offset }, .ok (a.currentBlock + a.offset + pad))

/-- The members after a fresh block was made. -/
def withBlock (a : Arena) (start size : ℕ) : Arena :=
  { a with blocks := a.blocks ++ [⟨start, size⟩], currentBlock := start, currentBlockSize := size, offset := 0 }

/-- The branch for a request the current block has no room for. -/
def allocateFresh (a : Arena) (r : Request) (heap : Heap) : Except SizeFault (Arena × Except Refusal ℕ) := do
  let need ← sizeAdd r.bytes r.alignment
  let count ← sizeAdd a.blocks.length 1
  if maxBlocks < count then return (a, .error .lengthError)
  if heap.reserves = false then return (a, .error .badAlloc)
  match heap.fresh with
  | none => return (a, .error .badAlloc)
  | some start =>
    let pad ← padFor start r.alignment
    (a.withBlock start (max a.blockSize need)).bump pad r.bytes

def allocate (a : Arena) (r : Request) (heap : Heap) : Except SizeFault (Arena × Except Refusal ℕ) := do
  if ← rejectsAlignment r.alignment then
    return (a, .error (.invalidArgument "Arena::allocate: alignment must be a non-zero power of two"))
  let limit ← sizeSub sizeMax r.alignment
  if r.bytes > limit then return (a, .error .badAlloc)
  let pad ← padFor (a.currentBlock + a.offset) r.alignment
  let remaining ← sizeSub a.currentBlockSize a.offset
  if ← lacksRoom pad r.bytes remaining then a.allocateFresh r heap else a.bump pad r.bytes

end Arena

/-! ### What each step computes -/

theorem rejectsAlignment_eq (alignment : ℕ) :
    rejectsAlignment alignment = .ok (decide (¬ alignment.isPowerOfTwo)) := by
  unfold rejectsAlignment
  by_cases hzero : alignment = 0
  · have hnot : ¬ alignment.isPowerOfTwo := by
      intro hpow
      exact (Nat.ne_zero_and_sub_one_eq_zero_iff_isPowerOfTwo.mpr hpow).1 hzero
    rw [if_pos hzero, decide_eq_true hnot]
  · have hiff := Nat.and_sub_one_eq_zero_iff_isPowerOfTwo hzero
    rw [if_neg hzero, sizeSub_of_le (Nat.pos_of_ne_zero hzero), ok_bind]
    simp only [ne_eq, hiff]
    rfl

/-- The padding brings any address to a multiple of the alignment, and is smaller than the alignment. -/
theorem padFor_spec (p : ℕ) {alignment : ℕ} (hpow : alignment.isPowerOfTwo) (hlt : alignment < 2 ^ 64) :
    ∃ pad, padFor p alignment = .ok pad ∧ pad < alignment ∧ alignment ∣ p + pad := by
  obtain ⟨k, rfl⟩ := hpow
  have hpos : 0 < 2 ^ k := Nat.two_pow_pos k
  have hdvd : 2 ^ k ∣ 2 ^ 64 := Nat.pow_dvd_pow 2 (Nat.le_of_lt ((Nat.pow_lt_pow_iff_right (by decide)).mp hlt))
  have hrem : p % 2 ^ 64 % 2 ^ k = p % 2 ^ k := Nat.mod_mod_of_dvd p hdvd
  have hmod : p % 2 ^ k < 2 ^ k := Nat.mod_lt p hpos
  simp only [padFor, hrem]
  by_cases hzero : p % 2 ^ k = 0
  · exact ⟨0, by simp [hzero], hpos, by simpa using Nat.dvd_of_mod_eq_zero hzero⟩
  · refine ⟨2 ^ k - p % 2 ^ k, ?_, by omega, ?_⟩
    · rw [if_pos hzero, sizeSub_of_le (Nat.le_of_lt hmod)]
    · have hsplit := Nat.div_add_mod p (2 ^ k)
      refine ⟨p / 2 ^ k + 1, ?_⟩
      rw [Nat.mul_add, Nat.mul_one]
      omega

theorem lacksRoom_eq (pad bytes remaining : ℕ) :
    lacksRoom pad bytes remaining = .ok (decide (remaining < pad + bytes)) := by
  unfold lacksRoom
  by_cases hpad : pad > remaining
  · rw [if_pos hpad, decide_eq_true (Nat.lt_of_lt_of_le hpad (Nat.le_add_right _ _))]
  · have hiff : bytes > remaining - pad ↔ remaining < pad + bytes := by omega
    rw [if_neg hpad, sizeSub_of_le (Nat.le_of_not_lt hpad), ok_bind]
    simp only [hiff]
    rfl

theorem Arena.bump_eq {a : Arena} {pad bytes : ℕ} (h : a.offset + (pad + bytes) < 2 ^ 64) :
    a.bump pad bytes =
      .ok ({ a with offset := a.offset + (pad + bytes) }, .ok (a.currentBlock + a.offset + pad)) := by
  rw [Arena.bump, sizeAdd_of_lt (by omega), ok_bind, sizeAdd_of_lt h]
  rfl

/-! ### One call -/

/-- The part of the current block from the bump pointer on. -/
def Arena.free (a : Arena) : Region := ⟨a.currentBlock + a.offset, a.currentBlockSize - a.offset⟩

/-- An arena and the regions it has handed out, the last one first. -/
structure State where
  arena : Arena
  regions : List Region

structure Invariant (s : State) : Prop where
  blockSize_lt : s.arena.blockSize < 2 ^ 64
  currentBlockSize_lt : s.arena.currentBlockSize < 2 ^ 64
  offset_le : s.arena.offset ≤ s.arena.currentBlockSize
  current : ⟨s.arena.currentBlock, s.arena.currentBlockSize⟩ ∈ s.arena.blocks
  blocks_le : s.arena.blocks.length ≤ maxBlocks
  blocks_fit : ∀ b ∈ s.arena.blocks, b.start + b.size ≤ 2 ^ 64
  inside : ∀ r ∈ s.regions, ∃ b ∈ s.arena.blocks, r.Inside b
  disjoint : s.regions.Pairwise Region.Disjoint
  free : ∀ r ∈ s.regions, r.Disjoint s.arena.free

/-- The front of the free part is handed out. -/
theorem Invariant.bump {s : State} (h : Invariant s) {pad bytes : ℕ}
    (hroom : pad + bytes ≤ s.arena.currentBlockSize - s.arena.offset) :
    Invariant ⟨{ s.arena with offset := s.arena.offset + (pad + bytes) },
      ⟨s.arena.currentBlock + s.arena.offset + pad, bytes⟩ :: s.regions⟩ := by
  have hoffset := h.offset_le
  have hfront : Region.Inside ⟨s.arena.currentBlock + s.arena.offset + pad, bytes⟩ s.arena.free := by
    constructor
    · exact Nat.le_add_right _ _
    · simp only [Arena.free]
      omega
  have hrest : Region.Inside ⟨s.arena.currentBlock + (s.arena.offset + (pad + bytes)),
      s.arena.currentBlockSize - (s.arena.offset + (pad + bytes))⟩ s.arena.free := by
    constructor
    · simp only [Arena.free]
      omega
    · simp only [Arena.free]
      omega
  have hblock : s.arena.free.Inside ⟨s.arena.currentBlock, s.arena.currentBlockSize⟩ := by
    constructor
    · exact Nat.le_add_right _ _
    · simp only [Arena.free]
      omega
  refine { h with offset_le := ?_, inside := ?_, disjoint := ?_, free := ?_ }
  · simp only
    omega
  · intro r hr
    rcases List.mem_cons.mp hr with rfl | hr
    · exact ⟨_, h.current, hfront.trans hblock⟩
    · exact h.inside r hr
  · refine List.pairwise_cons.mpr ⟨?_, h.disjoint⟩
    intro r hr
    exact ((h.free r hr).mono hfront).symm
  · intro r hr
    rcases List.mem_cons.mp hr with rfl | hr
    · exact Region.disjoint_of_le (by simp only [Arena.free]; omega)
    · exact (h.free r hr).mono hrest

/-- A block that is disjoint from all blocks is disjoint from everything that was handed out. -/
theorem Invariant.withBlock {s : State} (h : Invariant s) {start size : ℕ} (hsize : size < 2 ^ 64)
    (hcount : s.arena.blocks.length + 1 ≤ maxBlocks) (hfits : start + size ≤ 2 ^ 64)
    (hdisjoint : ∀ b ∈ s.arena.blocks, Region.Disjoint ⟨start, size⟩ b) :
    Invariant ⟨s.arena.withBlock start size, s.regions⟩ := by
  refine { h with
    currentBlockSize_lt := hsize, offset_le := Nat.zero_le _, current := ?_, blocks_le := ?_,
    blocks_fit := ?_, inside := ?_, free := ?_ }
  · exact List.mem_append_right _ List.mem_cons_self
  · simpa [Arena.withBlock] using hcount
  · intro b hb
    rcases List.mem_append.mp hb with hb | hb
    · exact h.blocks_fit b hb
    · rw [List.mem_singleton.mp hb]
      exact hfits
  · intro r hr
    obtain ⟨b, hb, hinside⟩ := h.inside r hr
    exact ⟨b, List.mem_append_left _ hb, hinside⟩
  · intro r hr
    obtain ⟨b, hb, hinside⟩ := h.inside r hr
    exact ((hdisjoint b hb).mono hinside).symm

/-- The size of the block that is asked for. -/
def nextSize (a : Arena) (r : Request) : ℕ := max a.blockSize (r.bytes + r.alignment)

/-- An address `new` returns begins a block that does not wrap around and is disjoint from all others. -/
def Heap.Sound (heap : Heap) (a : Arena) (r : Request) : Prop :=
  ∀ start, heap.fresh = some start →
    start + nextSize a r ≤ 2 ^ 64 ∧ ∀ b ∈ a.blocks, Region.Disjoint ⟨start, nextSize a r⟩ b

/-- The reasons for which a call throws. -/
inductive Refused (a : Arena) (r : Request) (heap : Heap) : Refusal → Prop
  | alignment (h : ¬ r.alignment.isPowerOfTwo) :
    Refused a r heap (.invalidArgument "Arena::allocate: alignment must be a non-zero power of two")
  | representable (h : 2 ^ 64 ≤ r.bytes + r.alignment) : Refused a r heap .badAlloc
  | newFails (h : heap.fresh = none ∨ heap.reserves = false) : Refused a r heap .badAlloc
  | reserveRefuses (h : maxBlocks < a.blocks.length + 1) : Refused a r heap .lengthError

/-- The call returns the address of a region of the size that was asked for. -/
structure Returned (s : State) (r : Request) (a : Arena) (p : ℕ) : Prop where
  alignment : r.alignment.isPowerOfTwo
  representable : r.bytes + r.alignment < 2 ^ 64
  aligned : r.alignment ∣ p
  invariant : Invariant ⟨a, ⟨p, r.bytes⟩ :: s.regions⟩

theorem allocateFresh_spec {s : State} (h : Invariant s) {r : Request} {heap : Heap} (hheap : heap.Sound s.arena r)
    (hpow : r.alignment.isPowerOfTwo) (hrep : r.bytes + r.alignment < 2 ^ 64) :
    (∃ t, s.arena.allocateFresh r heap = .ok (s.arena, .error t) ∧ Refused s.arena r heap t) ∨
    ∃ a p, s.arena.allocateFresh r heap = .ok (a, .ok p) ∧ Returned s r a p := by
  have hblocks := h.blocks_le
  have hblockSize := h.blockSize_lt
  simp only [maxBlocks] at hblocks
  rw [Arena.allocateFresh, sizeAdd_of_lt hrep, ok_bind, sizeAdd_of_lt (by omega), ok_bind]
  by_cases hcount : maxBlocks < s.arena.blocks.length + 1
  · exact .inl ⟨_, if_pos hcount, .reserveRefuses hcount⟩
  rw [if_neg hcount]
  by_cases hreserves : heap.reserves = false
  · exact .inl ⟨_, if_pos hreserves, .newFails (.inr hreserves)⟩
  rw [if_neg hreserves]
  cases hfresh : heap.fresh with
  | none => exact .inl ⟨_, rfl, .newFails (.inl hfresh)⟩
  | some start =>
    obtain ⟨hfits, hdisjoint⟩ := hheap start hfresh
    have hsize : nextSize s.arena r < 2 ^ 64 := by
      unfold nextSize
      omega
    obtain ⟨pad, hpad, hlt, hdvd⟩ := padFor_spec start hpow r.alignment_lt
    have hblock := h.withBlock hsize (Nat.le_of_not_lt hcount) hfits hdisjoint
    -- Worst-case padding was part of the size.
    have hroom : pad + r.bytes ≤ nextSize s.arena r := by
      unfold nextSize
      omega
    refine .inr ⟨_, _, ?_, hpow, hrep, ?_, hblock.bump hroom⟩
    · simp only [hpad, ok_bind]
      exact Arena.bump_eq (by simp only [Arena.withBlock]; omega)
    · simpa [Arena.withBlock] using hdvd

theorem allocate_spec {s : State} (h : Invariant s) {r : Request} {heap : Heap} (hheap : heap.Sound s.arena r) :
    (∃ t, s.arena.allocate r heap = .ok (s.arena, .error t) ∧ Refused s.arena r heap t) ∨
    ∃ a p, s.arena.allocate r heap = .ok (a, .ok p) ∧ Returned s r a p := by
  have hbytes := r.bytes_lt
  have halignment := r.alignment_lt
  have hoffset := h.offset_le
  have hcurrent := h.currentBlockSize_lt
  rw [Arena.allocate, rejectsAlignment_eq, ok_bind]
  by_cases hpow : r.alignment.isPowerOfTwo
  · rw [decide_eq_false (not_not_intro hpow), if_neg Bool.false_ne_true,
      sizeSub_of_le (by unfold sizeMax; omega), ok_bind]
    by_cases hlimit : r.bytes > sizeMax - r.alignment
    · exact .inl ⟨_, if_pos hlimit, .representable (by unfold sizeMax at hlimit; omega)⟩
    obtain ⟨pad, hpad, -, hdvd⟩ := padFor_spec (s.arena.currentBlock + s.arena.offset) hpow halignment
    have hrep : r.bytes + r.alignment < 2 ^ 64 := by
      unfold sizeMax at hlimit
      omega
    rw [if_neg hlimit, hpad, ok_bind, sizeSub_of_le hoffset, ok_bind, lacksRoom_eq, ok_bind]
    by_cases hroom : s.arena.currentBlockSize - s.arena.offset < pad + r.bytes
    · rw [decide_eq_true hroom, if_pos rfl]
      exact allocateFresh_spec h hheap hpow hrep
    · rw [decide_eq_false hroom, if_neg Bool.false_ne_true]
      exact .inr ⟨_, _, Arena.bump_eq (by omega), hpow, hrep, hdvd, h.bump (Nat.le_of_not_lt hroom)⟩
  · rw [decide_eq_true hpow, if_pos rfl]
    exact .inl ⟨_, rfl, .alignment hpow⟩

/-! ### Any sequence of calls -/

structure Call where
  request : Request
  heap : Heap

/-- Calls of `allocate`, one after the other; the mutex orders the calls of several threads. -/
def calls : System State Call where
  Enabled s c := c.heap.Sound s.arena c.request
  next s c := match s.arena.allocate c.request c.heap with
    | .ok (a, .ok p) => ⟨a, ⟨p, c.request.bytes⟩ :: s.regions⟩
    | .ok (a, .error _) => ⟨a, s.regions⟩
    | .error _ => s

theorem Invariant.next {s : State} {c : Call} (h : Invariant s) (hc : calls.Enabled s c) :
    Invariant (calls.next s c) := by
  rcases allocate_spec h hc with ⟨t, ht, -⟩ | ⟨a, p, hp, hreturned⟩
  · simp only [calls, ht]
    exact h
  · simp only [calls, hp]
    exact hreturned.invariant

theorem invariant_init {blockSize start : ℕ} (hsize : blockSize < 2 ^ 64) (hfits : start + blockSize ≤ 2 ^ 64) :
    Invariant ⟨init blockSize start, []⟩ where
  blockSize_lt := hsize
  currentBlockSize_lt := hsize
  offset_le := Nat.zero_le _
  current := List.mem_cons_self
  blocks_le := by simp [init, maxBlocks]
  blocks_fit b hb := by
    rw [List.mem_singleton.mp hb]
    exact hfits
  inside := by simp
  disjoint := .nil
  free := by simp

/-- The arena after any calls, with any addresses from `new` that are disjoint and do not wrap around.
The regions that were handed out are pairwise disjoint and each lies in one block, and the bump
pointer is within the current block. The next call, whatever it asks for, makes no computation
that wraps around, and it either throws, for one of the reasons there are, and leaves the
members as they were, or returns the address of a region that is aligned as asked, lies in one
block and meets no earlier region. -/
theorem run_hands_out_disjoint_regions {blockSize start : ℕ} (hsize : blockSize < 2 ^ 64)
    (hfits : start + blockSize ≤ 2 ^ 64) {cs : List Call} {s : State}
    (hrun : Run calls (fun _ _ => True) ⟨init blockSize start, []⟩ cs s) :
    s.arena.offset ≤ s.arena.currentBlockSize ∧ s.regions.Pairwise Region.Disjoint ∧
    (∀ r ∈ s.regions, ∃ b ∈ s.arena.blocks, r.Inside b) ∧
    ∀ c : Call, calls.Enabled s c →
      (∃ t, s.arena.allocate c.request c.heap = .ok (s.arena, .error t) ∧ Refused s.arena c.request c.heap t) ∨
      ∃ a p, s.arena.allocate c.request c.heap = .ok (a, .ok p) ∧
        c.request.alignment.isPowerOfTwo ∧ c.request.bytes + c.request.alignment < 2 ^ 64 ∧
        c.request.alignment ∣ p ∧ (∃ b ∈ a.blocks, Region.Inside ⟨p, c.request.bytes⟩ b ∧ b.start + b.size ≤ 2 ^ 64) ∧
        (∀ r ∈ s.regions, Region.Disjoint ⟨p, c.request.bytes⟩ r) ∧ a.offset ≤ a.currentBlockSize := by
  have hinv : Invariant s :=
    hrun.invariant Invariant (fun _ _ h _ hc => h.next hc) (invariant_init hsize hfits)
  refine ⟨hinv.offset_le, hinv.disjoint, hinv.inside, ?_⟩
  intro c hc
  rcases allocate_spec hinv hc with hthrown | ⟨a, p, hp, hpow, hrep, hdvd, hnext⟩
  · exact .inl hthrown
  · obtain ⟨b, hb, hinside⟩ := hnext.inside _ List.mem_cons_self
    exact .inr ⟨a, p, hp, hpow, hrep, hdvd, ⟨b, hb, hinside, hnext.blocks_fit b hb⟩,
      (List.pairwise_cons.mp hnext.disjoint).1, hnext.offset_le⟩

/-- A block of 16 bytes, which a request for 100 bytes does not fit in. -/
def largeCall : Call := ⟨⟨100, 32, by decide, by decide⟩, ⟨true, some 4100⟩⟩

theorem largeCall_sound (s : State) (hblocks : s.arena.blocks = [⟨1000, 16⟩]) (hsize : s.arena.blockSize = 16) :
    calls.Enabled s largeCall := by
  intro start hstart
  have hnext : nextSize s.arena largeCall.request = 132 := by
    simp only [nextSize, hsize]
    decide
  cases hstart
  rw [hnext]
  refine ⟨by decide, ?_⟩
  intro b hb
  rw [hblocks] at hb
  rw [List.mem_singleton.mp hb]
  exact (Region.disjoint_of_le (by decide)).symm

/-- A request for 8 bytes, then one that takes a fresh block at an address that is not aligned. -/
theorem run_hands_out_disjoint_regions_largeCall :
    ∃ s, Run calls (fun _ _ => True) ⟨init 16 1000, []⟩ [⟨⟨8, 16, by decide, by decide⟩, ⟨true, none⟩⟩, largeCall] s ∧
      s.regions = [⟨4128, 100⟩, ⟨1008, 8⟩] ∧ s.regions.Pairwise Region.Disjoint := by
  have hallowed : Allowed calls (fun _ _ => True) ⟨init 16 1000, []⟩
      [⟨⟨8, 16, by decide, by decide⟩, ⟨true, none⟩⟩, largeCall] :=
    ⟨trivial, by rintro start ⟨⟩, trivial, largeCall_sound _ rfl rfl, trivial⟩
  exact ⟨_, hallowed.run, rfl, (run_hands_out_disjoint_regions (by decide) (by decide) hallowed.run).2.1⟩

end LsmTree.BumpAllocator
