import Mathlib.Data.List.Basic
import Mathlib.Tactic.Ring

/-!
# Fixed-width little-endian byte strings

Unsigned numbers are stored least significant byte first in a field of a fixed
number of bytes. Writing truncates to the width of the field; reading inverts
writing on every number that fits, and writing inverts reading on every field.
-/

namespace LsmTree.LittleEndian

/-- A string of bytes. -/
abbrev Bytes := List UInt8

/-- The low `w` bytes of `n`, least significant first. -/
def leBytes : ℕ → ℕ → Bytes
  | 0, _ => []
  | w + 1, n => UInt8.ofNat n :: leBytes w (n / 256)

/-- The number stored in a little-endian field. -/
def leNat : Bytes → ℕ
  | [] => 0
  | b :: bs => b.toNat + 256 * leNat bs

@[simp] theorem length_leBytes (w n : ℕ) : (leBytes w n).length = w := by
  induction w generalizing n with
  | zero => rfl
  | succ w ih => simp [leBytes, ih]

theorem leNat_leBytes {w n : ℕ} (h : n < 256 ^ w) : leNat (leBytes w n) = n := by
  induction w generalizing n with
  | zero => simp at h; simp [leBytes, leNat, h]
  | succ w ih =>
    have hdiv : n / 256 < 256 ^ w := by
      apply Nat.div_lt_of_lt_mul
      rw [← pow_succ']
      exact h
    have hbyte : (UInt8.ofNat n).toNat = n % 256 := by simp
    rw [leBytes, leNat, ih hdiv, hbyte]
    exact Nat.mod_add_div n 256

theorem leNat_lt (bs : Bytes) : leNat bs < 256 ^ bs.length := by
  induction bs with
  | nil => simp [leNat]
  | cons b bs ih =>
    have hb : b.toNat < 256 := b.toNat_lt
    rw [leNat, List.length_cons, pow_succ]
    omega

theorem leBytes_leNat (bs : Bytes) : leBytes bs.length (leNat bs) = bs := by
  induction bs with
  | nil => rfl
  | cons b bs ih =>
    have hb : b.toNat < 256 := b.toNat_lt
    have hlow : UInt8.ofNat (b.toNat + 256 * leNat bs) = b := by
      apply UInt8.toNat_inj.mp
      rw [UInt8.toNat_ofNat']
      omega
    have hhigh : (b.toNat + 256 * leNat bs) / 256 = leNat bs := by omega
    rw [List.length_cons, leNat, leBytes, hlow, hhigh, ih]

/-- A field of the right width is determined by the number it stores. -/
theorem eq_leBytes_of_leNat {w n : ℕ} {bs : Bytes} (hlen : bs.length = w)
    (h : leNat bs = n) : bs = leBytes w n := by
  rw [← hlen, ← h, leBytes_leNat]

/-- A field in a row of fields of equal width. -/
theorem take_drop_flatMap {α : Type*} {f : α → Bytes} {w : ℕ} (hf : ∀ a, (f a).length = w)
    {xs : List α} {i : ℕ} (hi : i < xs.length) : ((xs.flatMap f).drop (i * w)).take w = f xs[i] := by
  induction xs generalizing i with
  | nil => exact absurd hi (Nat.not_lt_zero i)
  | cons x xs ih =>
    rw [List.flatMap_cons]
    cases i with
    | zero => simp [← hf x]
    | succ i =>
      have hdrop : (f x ++ xs.flatMap f).drop ((i + 1) * w) = (xs.flatMap f).drop (i * w) := by
        rw [Nat.succ_mul, Nat.add_comm, ← hf x, List.drop_append, List.drop_of_length_le (by omega)]
        simp
      rw [hdrop]
      exact ih (Nat.lt_of_succ_lt_succ hi)

end LsmTree.LittleEndian
