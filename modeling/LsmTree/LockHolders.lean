import Mathlib.Algebra.Order.BigOperators.Group.Finset
import Mathlib.Algebra.Order.Group.Nat
import Mathlib.Logic.Function.Basic

/-!
# Locks read off the program counters

Who holds a lock is read off the places where the threads stand. A lock is sound when no
two threads stand where it is held; a lock with readers also keeps the readers out of
where it is held for writing. A thread that moves keeps this, when it moves into such a
place only while no thread is there. A measure on the places is summed over the threads, of
which there may be infinitely many if all but finitely many have none.
-/

namespace LsmTree.LockHolders

variable {ι π : Type*}

/-- At most one thread stands where the lock is held. -/
def AtMostOne (holds : π → Bool) (pc : ι → π) : Prop :=
  ∀ t u, holds (pc t) = true → holds (pc u) = true → t = u

/-- No thread stands there. -/
def Nowhere (holds : π → Bool) (pc : ι → π) : Prop := ∀ t, holds (pc t) = false

instance [Fintype ι] (holds : π → Bool) (pc : ι → π) : Decidable (Nowhere holds pc) :=
  inferInstanceAs (Decidable (∀ t, holds (pc t) = false))

/-- Where a thread stands in the first way, none stands in the second way. -/
def KeepsOut (holds others : π → Bool) (pc : ι → π) : Prop :=
  ∀ t u, holds (pc t) = true → others (pc u) = false

theorem AtMostOne.nowhere_else {holds : π → Bool} {pc : ι → π} (h : AtMostOne holds pc) {t u : ι}
    (ht : holds (pc t) = true) (hu : u ≠ t) : holds (pc u) = false :=
  Bool.eq_false_iff.mpr fun hheld => hu (h u t hheld ht)

section Moves
variable [DecidableEq ι] {holds others : π → Bool} {pc : ι → π} {t : ι} {p : π}

/-- A thread comes to where the lock is held from such a place, or while nobody is there. -/
theorem AtMostOne.update (h : AtMostOne holds pc)
    (hp : holds p = true → holds (pc t) = true ∨ Nowhere holds pc) :
    AtMostOne holds (Function.update pc t p) := by
  have hother : holds p = true → ∀ u, u ≠ t → holds (pc u) = false := by
    intro hheld u hu
    rcases hp hheld with ht | hfree
    · exact h.nowhere_else ht hu
    · exact hfree u
  intro u v hu hv
  by_cases hut : u = t
  · by_cases hvt : v = t
    · rw [hut, hvt]
    · rw [hut, Function.update_self] at hu
      rw [Function.update_of_ne hvt, hother hu v hvt] at hv
      cases hv
  · by_cases hvt : v = t
    · rw [hvt, Function.update_self] at hv
      rw [Function.update_of_ne hut, hother hv u hut] at hu
      cases hu
    · rw [Function.update_of_ne hut] at hu
      rw [Function.update_of_ne hvt] at hv
      exact h u v hu hv

theorem KeepsOut.update (h : KeepsOut holds others pc)
    (hp : holds p = true → others p = false ∧ (holds (pc t) = true ∨ Nowhere others pc))
    (hp' : others p = true → others (pc t) = true ∨ Nowhere holds pc) :
    KeepsOut holds others (Function.update pc t p) := by
  intro u v hu
  by_cases hut : u = t
  · rw [hut, Function.update_self] at hu
    by_cases hvt : v = t
    · rw [hvt, Function.update_self]
      exact (hp hu).1
    · rw [Function.update_of_ne hvt]
      rcases (hp hu).2 with ht | hfree
      · exact h t v ht
      · exact hfree v
  · rw [Function.update_of_ne hut] at hu
    by_cases hvt : v = t
    · rw [hvt, Function.update_self, Bool.eq_false_iff]
      intro hother
      rcases hp' hother with ht | hfree
      · rw [h u t hu] at ht
        cases ht
      · rw [hfree u] at hu
        cases hu
    · rw [Function.update_of_ne hvt]
      exact h u v hu

/-- Somebody stands there after a move that only takes a thread there. -/
theorem exists_update (hex : ∃ u, holds (pc u) = true) (hp : holds (pc t) = true → holds p = true) :
    ∃ u, holds (Function.update pc t p u) = true := by
  obtain ⟨u, hu⟩ := hex
  by_cases hut : u = t
  · exact ⟨t, by rw [Function.update_self]; exact hp (hut ▸ hu)⟩
  · exact ⟨u, by rwa [Function.update_of_ne hut]⟩

end Moves

/-! ### Measures -/

section Measures
variable [Fintype ι] {weight : π → ℕ} {pc : ι → π}

def total (weight : π → ℕ) (pc : ι → π) : ℕ := ∑ t, weight (pc t)

theorem total_update [DecidableEq ι] (t : ι) (p : π) :
    total weight (Function.update pc t p) + weight (pc t) = total weight pc + weight p := by
  have hnew := Finset.add_sum_erase Finset.univ (fun u => weight (Function.update pc t p u)) (Finset.mem_univ t)
  have hold := Finset.add_sum_erase Finset.univ (fun u => weight (pc u)) (Finset.mem_univ t)
  have hrest : ∑ u ∈ Finset.univ.erase t, weight (Function.update pc t p u) =
      ∑ u ∈ Finset.univ.erase t, weight (pc u) :=
    Finset.sum_congr rfl fun u hu => by rw [Function.update_of_ne (Finset.ne_of_mem_erase hu)]
  rw [Function.update_self] at hnew
  rw [total, total]
  omega

/-- All threads moving at once, each at a bounded cost. -/
theorem total_map_le {f : π → π} {cost : ℕ} (hf : ∀ p, weight (f p) ≤ weight p + cost) :
    total weight (fun t => f (pc t)) ≤ total weight pc + cost * Fintype.card ι := by
  have hle : ∑ t, weight (f (pc t)) ≤ ∑ t, (weight (pc t) + cost) := Finset.sum_le_sum fun t _ => hf (pc t)
  have hcost : ∑ _ : ι, cost = Fintype.card ι * cost := Finset.sum_const_nat fun _ _ => rfl
  rwa [Finset.sum_add_distrib, hcost, Nat.mul_comm] at hle

end Measures

/-! ### Debts -/

section Debts

/-- What the threads owe, all but finitely many of them nothing. -/
def Owed (weight : ι → ℤ) (total : ℤ) : Prop :=
  ∃ ts : Finset ι, (∀ t, t ∉ ts → weight t = 0) ∧ ∑ t ∈ ts, weight t = total

theorem owed_zero {weight : ι → ℤ} (h : ∀ t, weight t = 0) : Owed weight 0 :=
  ⟨∅, fun t _ => h t, rfl⟩

theorem Owed.eq_zero {weight : ι → ℤ} {total : ℤ} (h : Owed weight total) (hzero : ∀ t, weight t = 0) :
    total = 0 := by
  obtain ⟨ts, -, rfl⟩ := h
  exact Finset.sum_eq_zero fun t _ => hzero t

/-- One thread comes to owe something else. -/
theorem Owed.update {weight weight' : ι → ℤ} {total : ℤ} (h : Owed weight total) {t : ι}
    (hothers : ∀ u, u ≠ t → weight' u = weight u) : Owed weight' (total - weight t + weight' t) := by
  classical
  obtain ⟨ts, hzero, rfl⟩ := h
  refine ⟨insert t ts, fun u hu => ?_, ?_⟩
  · obtain ⟨hne, hmem⟩ := not_or.mp (Finset.mem_insert.not.mp hu)
    rw [hothers u hne, hzero u hmem]
  · have hsame : ∑ u ∈ ts.erase t, weight' u = ∑ u ∈ ts.erase t, weight u :=
      Finset.sum_congr rfl fun u hu => hothers u (Finset.ne_of_mem_erase hu)
    have hnew := Finset.add_sum_erase (insert t ts) weight' (Finset.mem_insert_self t ts)
    have hold := Finset.add_sum_erase (insert t ts) weight (Finset.mem_insert_self t ts)
    have hinsert : ∑ u ∈ insert t ts, weight u = ∑ u ∈ ts, weight u :=
      Finset.sum_insert_of_eq_zero_if_notMem (hzero t)
    rw [Finset.erase_insert_eq_erase] at hnew hold
    omega

end Debts

end LsmTree.LockHolders
