import Mathlib.Data.List.Basic

/-!
# Positional writes into a file

A file is the list of its cells. A write at an offset past the end extends the
file with filler cells first; a write inside the file replaces what was there.
-/

namespace LsmTree.PositionalFile

variable {α : Type*} (fill : α)

/-- Write `data` at offset `off`. -/
def pwrite (file : List α) (off : ℕ) (data : List α) : List α :=
  (file ++ List.replicate (off - file.length) fill).take off ++ data ++ file.drop (off + data.length)

theorem pwrite_end (file data : List α) : pwrite fill file file.length data = file ++ data := by
  simp [pwrite]

/-- A write past a leading part leaves that part alone. -/
theorem pwrite_append_left (xs file : List α) (off : ℕ) (data : List α) :
    pwrite fill (xs ++ file) (xs.length + off) data = xs ++ pwrite fill file off data := by
  have hgap : xs.length + off - (xs ++ file).length = off - file.length := by
    simp only [List.length_append]
    omega
  have htail : (xs ++ file).drop (xs.length + off + data.length) = file.drop (off + data.length) := by
    rw [Nat.add_assoc, List.drop_append, List.drop_eq_nil_of_le (by omega)]
    simp
  rw [pwrite, hgap, htail, List.append_assoc xs, List.take_length_add_append]
  simp [pwrite, List.append_assoc]

/-- A write into an empty file is preceded by filler. -/
theorem pwrite_nil (off : ℕ) (data : List α) :
    pwrite fill [] off data = List.replicate off fill ++ data := by
  simp [pwrite]

theorem pwrite_nil_add (n off : ℕ) (data : List α) :
    pwrite fill [] (n + off) data = List.replicate n fill ++ pwrite fill [] off data := by
  rw [pwrite_nil, pwrite_nil, List.replicate_add, List.append_assoc]

/-- A write of the same length as the leading part replaces it. -/
theorem pwrite_zero {old data : List α} (h : old.length = data.length) (rest : List α) :
    pwrite fill (old ++ rest) 0 data = data ++ rest := by
  simp [pwrite, ← h]

end LsmTree.PositionalFile
