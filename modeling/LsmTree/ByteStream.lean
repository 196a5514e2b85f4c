import LsmTree.LittleEndian

/-!
# Input file streams

A stream has a position in the bytes that can be read from its file. A read that comes
up short stores what there is and makes the stream fail, and a failed stream stays
failed: it reads nothing, does not move and has no position. Buffers are zeroed before
they are read into, so what a short read leaves of them is zero.

Positions are signed 64-bit numbers.
-/

namespace LsmTree.ByteStream
open LittleEndian

/-- The first number that is not a file offset. -/
def offsetLimit : ℕ := 2 ^ 63

/-- A `std::ifstream` that has been opened. -/
structure IStream where
  data : Bytes
  pos : ℕ
  failed : Bool
  deriving DecidableEq, Repr

/-- A stream at the start of a file. -/
def ofFile (data : Bytes) : IStream := ⟨data, 0, false⟩

namespace IStream

/-- The comparison of `tellg`, taken as an unsigned number, with an offset: -1 is above all. -/
def Below (s : IStream) (offset : ℕ) : Prop := s.failed = false ∧ s.pos < offset

instance (s : IStream) (offset : ℕ) : Decidable (s.Below offset) := inferInstanceAs (Decidable (_ ∧ _))

/-- `seekg` to an unsigned 64-bit offset. -/
def seekg (s : IStream) (offset : ℕ) : IStream :=
  if s.failed then s else if offset < offsetLimit then { s with pos := offset } else { s with failed := true }

/-- `seekg` to a distance before the end. -/
def seekEnd (s : IStream) (distance : ℕ) : IStream :=
  if s.failed then s
  else if distance ≤ s.data.length then { s with pos := s.data.length - distance }
  else { s with failed := true }

/-- `peek() != EOF`. -/
def More (s : IStream) : Prop := s.failed = false ∧ s.pos < s.data.length

instance (s : IStream) : Decidable s.More := inferInstanceAs (Decidable (_ ∧ _))

/-- The bytes a read of `n` bytes can store. -/
def available (s : IStream) (n : ℕ) : Bytes := if s.failed then [] else (s.data.drop s.pos).take n

/-- The stream after a read of `n` bytes. -/
def skip (s : IStream) (n : ℕ) : IStream :=
  if s.failed = false ∧ (s.available n).length = n then { s with pos := s.pos + n }
  else { s with failed := true }

/-- A read into a buffer of `n` zero bytes. -/
def read (s : IStream) (n : ℕ) : Bytes × IStream :=
  (s.available n ++ List.replicate (n - (s.available n).length) 0, s.skip n)

/-- The first `n` bytes of a string that zeros continue. -/
def zeroFilled (n : ℕ) (bs : Bytes) : Bytes := bs.take n ++ List.replicate (n - bs.length) 0

/-- The bytes that can still be read: none, if the stream has failed. -/
def Left (s : IStream) (bs : Bytes) : Prop := if s.failed then bs = [] else s.data.drop s.pos = bs

/-- The stream `n` bytes further on. -/
def move (s : IStream) (n : ℕ) : IStream := { s with pos := s.pos + n }

@[simp] theorem pos_move (s : IStream) (n : ℕ) : (s.move n).pos = s.pos + n := rfl

@[simp] theorem data_move (s : IStream) (n : ℕ) : (s.move n).data = s.data := rfl

@[simp] theorem move_move (s : IStream) (n m : ℕ) : (s.move n).move m = s.move (n + m) := by
  simp [move, Nat.add_assoc]

/-- The stream is at the beginning of these bytes. -/
structure Ready (s : IStream) (bs : Bytes) : Prop where
  good : s.failed = false
  rest : s.data.drop s.pos = bs

theorem ready_ofFile (data : Bytes) : (ofFile data).Ready data := ⟨rfl, rfl⟩

section Ready
variable {s : IStream} {as bs : Bytes}

/-- What is there can be read, and the stream is then behind it. -/
theorem Ready.read {n : ℕ} (h : s.Ready (as ++ bs)) (hn : as.length = n) :
    s.read n = (as, s.move n) ∧ (s.move n).Ready bs := by
  subst hn
  have havail : s.available as.length = as := by
    rw [available, h.good, h.rest]
    simp
  refine ⟨?_, h.good, ?_⟩
  · simp only [IStream.read, skip, havail, h.good]
    simp [move, h.good]
  · have hdrop := congrArg (List.drop as.length) h.rest
    rw [List.drop_drop, List.drop_left] at hdrop
    exact hdrop

theorem Ready.more (h : s.Ready bs) (hne : bs ≠ []) : s.More := by
  refine ⟨h.good, ?_⟩
  apply Nat.lt_of_not_le
  intro hle
  exact hne (h.rest.symm.trans (List.drop_of_length_le hle))

theorem Ready.below (h : s.Ready bs) (offset : ℕ) : s.Below offset ↔ s.pos < offset :=
  and_iff_right h.good

theorem Ready.seekg (h : s.Ready as) {offset : ℕ} (hoff : offset < offsetLimit)
    (hdrop : s.data.drop offset = bs) :
    (s.seekg offset).Ready bs ∧ (s.seekg offset).pos = offset ∧ (s.seekg offset).data = s.data := by
  have hseek : s.seekg offset = { s with pos := offset } := by
    rw [IStream.seekg, h.good, if_pos hoff]
    rfl
  rw [hseek]
  exact ⟨⟨h.good, hdrop⟩, rfl, rfl⟩

theorem ready_seekEnd (data tail : Bytes) :
    ((ofFile (data ++ tail)).seekEnd tail.length).Ready tail ∧
      ((ofFile (data ++ tail)).seekEnd tail.length).data = data ++ tail := by
  have hle : tail.length ≤ (data ++ tail).length := by simp
  have hseek : (ofFile (data ++ tail)).seekEnd tail.length =
      { ofFile (data ++ tail) with pos := (data ++ tail).length - tail.length } := by
    rw [seekEnd, if_neg (by simp [ofFile]), ofFile, if_pos hle]
  rw [hseek, List.length_append, Nat.add_sub_cancel]
  exact ⟨⟨rfl, List.drop_left⟩, rfl⟩

end Ready

/-! ### Short reads -/

@[simp] theorem length_zeroFilled (n : ℕ) (bs : Bytes) : (zeroFilled n bs).length = n := by
  simp only [zeroFilled, List.length_append, List.length_take, List.length_replicate]
  omega

theorem zeroFilled_eq_take {n : ℕ} {bs : Bytes} (h : n ≤ bs.length) : zeroFilled n bs = bs.take n := by
  rw [zeroFilled, Nat.sub_eq_zero_of_le h, List.replicate_zero, List.append_nil]

theorem zeroFilled_append_replicate (n j : ℕ) (bs : Bytes) :
    zeroFilled n (bs ++ List.replicate j 0) = zeroFilled n bs := by
  simp only [zeroFilled, List.take_append, List.length_append, List.length_replicate, List.append_assoc,
    List.take_replicate, List.replicate_append_replicate]
  congr 2
  omega

theorem Ready.left {s : IStream} {bs : Bytes} (h : s.Ready bs) : s.Left bs := by
  simp only [Left, h.good, Bool.false_eq_true, if_false]
  exact h.rest

theorem Left.not_more {s : IStream} (h : s.Left []) : ¬ s.More := by
  rintro ⟨hgood, hlt⟩
  simp only [Left, hgood, Bool.false_eq_true, if_false, List.drop_eq_nil_iff] at h
  omega

/-- A read takes what is left, fills up with zeros and leaves the rest. -/
theorem Left.read {s : IStream} {bs : Bytes} (h : s.Left bs) (n : ℕ) :
    (s.read n).1 = zeroFilled n bs ∧ (s.read n).2.Left (bs.drop n) := by
  rw [Left] at h
  split_ifs at h with hfailed
  · subst h
    simp [IStream.read, available, skip, zeroFilled, Left, hfailed]
  · have havail : s.available n = bs.take n := by
      simp only [available, hfailed, Bool.false_eq_true, if_false, h]
    refine ⟨?_, ?_⟩
    · simp only [IStream.read, havail, zeroFilled, List.length_take]
      congr 2
      omega
    · simp only [IStream.read, skip, havail, hfailed, true_and, List.length_take]
      split_ifs with hlen
      · simp only [Left, Bool.false_eq_true, if_false]
        rw [← h, List.drop_drop]
      · simp only [Left, if_true, List.drop_eq_nil_iff]
        omega

/-! ### Reads in a row -/

/-- The stream `t` is `s` after reads of `n` bytes in all: behind them if the file has them, and
failed otherwise. -/
structure After (s : IStream) (n : ℕ) (t : IStream) : Prop where
  data : t.data = s.data
  good : s.pos + n ≤ s.data.length → t.failed = false ∧ t.pos = s.pos + n
  short : s.data.length < s.pos + n → t.failed = true

theorem After.eq_of_le {s t : IStream} {n : ℕ} (h : s.After n t) (hle : s.pos + n ≤ s.data.length) :
    t = ⟨s.data, s.pos + n, false⟩ := by
  obtain ⟨hgood, hpos⟩ := h.good hle
  rw [← h.data, ← hpos, ← hgood]

theorem after_zero {s : IStream} (hgood : s.failed = false) (hpos : s.pos ≤ s.data.length) : s.After 0 s where
  data := rfl
  good := fun _ => ⟨hgood, rfl⟩
  short := fun h => absurd hpos (Nat.not_le.mpr h)

theorem After.read {s t : IStream} {n : ℕ} (h : s.After n t) (m : ℕ) : s.After (n + m) (t.read m).2 where
  data := by
    simp only [IStream.read, skip]
    split_ifs
    · exact h.data
    · exact h.data
  good := by
    intro hle
    obtain ⟨hgood, hpos⟩ := h.good (by omega)
    have hlen : (t.available m).length = m := by
      simp only [available, hgood, Bool.false_eq_true, if_false, List.length_take, List.length_drop, h.data, hpos]
      omega
    simp only [IStream.read, skip, hgood, hlen, and_self, if_true, hpos]
    exact ⟨trivial, by omega⟩
  short := by
    intro hlt
    by_cases hle : s.pos + n ≤ s.data.length
    · obtain ⟨hgood, hpos⟩ := h.good hle
      have hlen : (t.available m).length ≠ m := by
        simp only [available, hgood, Bool.false_eq_true, if_false, List.length_take, List.length_drop, h.data, hpos]
        omega
      simp [IStream.read, skip, hlen]
    · simp [IStream.read, skip, h.short (by omega)]

/-- What the file has can be read. -/
theorem read_of_le {s : IStream} {n : ℕ} (hgood : s.failed = false) (h : s.pos + n ≤ s.data.length) :
    s.read n = ((s.data.drop s.pos).take n, s.move n) := by
  have havail : s.available n = (s.data.drop s.pos).take n := by simp [available, hgood]
  have hlen : ((s.data.drop s.pos).take n).length = n := by
    rw [List.length_take, List.length_drop]
    omega
  rw [IStream.read, skip, havail, hlen]
  simp [hgood, move]

@[simp] theorem data_read (s : IStream) (n : ℕ) : (s.read n).2.data = s.data := by
  simp only [IStream.read, skip]
  split_ifs
  · rfl
  · rfl

theorem read_of_failed {s : IStream} (h : s.failed = true) (n : ℕ) : s.read n = (List.replicate n 0, s) := by
  have havail : s.available n = [] := by simp [available, h]
  simp [IStream.read, skip, havail, h]
  rw [← h]

theorem seekg_of_failed {s : IStream} (h : s.failed = true) (offset : ℕ) : s.seekg offset = s := if_pos h

theorem seekg_of_lt {s : IStream} (hgood : s.failed = false) {offset : ℕ} (h : offset < offsetLimit) :
    s.seekg offset = ⟨s.data, offset, false⟩ := by
  rw [seekg, hgood, if_pos h]
  rfl

@[simp] theorem length_read (s : IStream) (n : ℕ) : (s.read n).1.length = n := by
  have hle : (s.available n).length ≤ n := by
    rw [available]
    split_ifs
    · exact Nat.zero_le _
    · exact List.length_take_le _ _
  simp only [IStream.read, List.length_append, List.length_replicate]
  omega

end IStream

end LsmTree.ByteStream
