import LsmTree.Transition
import Mathlib.Logic.Function.Basic

/-!
# Atomic objects

Threads call the operations of an object and get answers. In the atomic object a call
takes effect in one step of its own, some time between the call and its return. A history
of calls and returns is linearizable when the atomic object has it, with the steps at
which calls take effect left out.
-/

namespace LsmTree.AtomicObject
open Transition

variable {τ σ ι ρ : Type*}

/-- What can be seen of a run: calls and returns. -/
inductive Seen (τ ι ρ : Type*) where
  | call (t : τ) (i : ι)
  | ret (t : τ) (r : ρ)

inductive Status (ι ρ : Type*) where
  | idle
  | called (i : ι)
  | answered (r : ρ)

inductive Step (τ ι ρ : Type*) where
  | seen (x : Seen τ ι ρ)
  | effect (t : τ)

/-- The same calls and returns, with answers that are related. -/
inductive Seen.Rel (T : ρ → ρ → Prop) : Seen τ ι ρ → Seen τ ι ρ → Prop
  | call (t : τ) (i : ι) : Rel T (.call t i) (.call t i)
  | ret (t : τ) {r r' : ρ} (h : T r r') : Rel T (.ret t r) (.ret t r')

theorem Seen.Rel.mono {T T' : ρ → ρ → Prop} (hT : ∀ r r', T r r' → T' r r') {x y : Seen τ ι ρ} (h : Rel T x y) :
    Rel T' x y := by
  cases h with
  | call t i => exact .call t i
  | ret t h => exact .ret t (hT _ _ h)

theorem Seen.Rel.eq {T : ρ → ρ → Prop} (hT : ∀ r r', T r r' → r = r') {x y : Seen τ ι ρ} (h : Rel T x y) : x = y := by
  cases h with
  | call t i => rfl
  | ret t h => rw [hT _ _ h]

/-- What is seen of a step. -/
def Step.seen? : Step τ ι ρ → Option (Seen τ ι ρ)
  | .seen x => some x
  | .effect _ => none

/-- The state of the object and what has become of the call of each thread. -/
structure State (τ σ ι ρ : Type*) where
  value : σ
  status : τ → Status ι ρ

def initial (value : σ) : State τ σ ι ρ := ⟨value, fun _ => .idle⟩

section System
variable [DecidableEq τ] (apply : σ → ι → σ × ρ)

def Enabled (s : State τ σ ι ρ) : Step τ ι ρ → Prop
  | .seen (.call t _) => s.status t = .idle
  | .seen (.ret t r) => s.status t = .answered r
  | .effect t => ∃ i, s.status t = .called i

def next (s : State τ σ ι ρ) : Step τ ι ρ → State τ σ ι ρ
  | .seen (.call t i) => { s with status := Function.update s.status t (.called i) }
  | .seen (.ret t _) => { s with status := Function.update s.status t .idle }
  | .effect t =>
    match s.status t with
    | .called i => ⟨(apply s.value i).1, Function.update s.status t (.answered (apply s.value i).2)⟩
    | _ => s

def system : System (State τ σ ι ρ) (Step τ ι ρ) := ⟨Enabled, next apply⟩

/-- Every call of the history can be thought to take effect at one moment. -/
def Linearizable (value : σ) (history : List (Seen τ ι ρ)) : Prop :=
  ∃ steps s, Run (system apply) (fun _ _ => True) (initial value) steps s ∧ steps.filterMap Step.seen? = history

variable {apply} {s : State τ σ ι ρ} {t : τ}

/-- A call that takes effect. -/
theorem run_effect {i : ι} (h : s.status t = .called i) :
    Run (system apply) (fun _ _ => True) s [.effect t]
      ⟨(apply s.value i).1, Function.update s.status t (.answered (apply s.value i).2)⟩ := by
  have hnext : next apply s (.effect t) =
      ⟨(apply s.value i).1, Function.update s.status t (.answered (apply s.value i).2)⟩ := by
    simp only [next, h]
  exact .cons trivial ⟨i, h⟩ (hnext ▸ .nil _)

end System

end LsmTree.AtomicObject
