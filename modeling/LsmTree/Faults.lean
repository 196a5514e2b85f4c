import Mathlib.Logic.Basic

/-!
# Calculations that can end in a fault

A calculation goes on with a result as if it had been there from the start, and ends with the
first fault.
-/

namespace LsmTree.Faults

universe u v
variable {ε : Type v} {α β : Type u}

theorem ok_bind (a : α) (f : α → Except ε β) : (Except.ok a >>= f) = f a := rfl

theorem error_bind (err : ε) (f : α → Except ε β) : (Except.error err >>= f) = .error err := rfl

/-- The same without the notation. -/
theorem bind_ok (a : α) (f : α → Except ε β) : (Except.ok a).bind f = f a := rfl

theorem exists_of_bind_ok {x : Except ε α} {f : α → Except ε β} {b : β} (h : (x >>= f) = .ok b) :
    ∃ a, x = .ok a ∧ f a = .ok b := by
  cases x with
  | error err => cases h
  | ok a => exact ⟨a, rfl, h⟩

theorem exists_of_isOk {x : Except ε α} (h : x.isOk = true) : ∃ a, x = .ok a := by
  cases x with
  | error err => cases h
  | ok a => exact ⟨a, rfl⟩

end LsmTree.Faults
