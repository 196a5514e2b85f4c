import Mathlib.Data.List.Forall2

/-!
# Event-driven transition systems

A system is given by the events enabled in a state and the state each of them leads
to. A run is a list of events taken one after another; a predicate on states and
events restricts which runs are looked at. Invariants are proved for one step and
hold along every such run.
-/

namespace LsmTree.Transition

variable {σ ε : Type*}

structure System (σ ε : Type*) where
  Enabled : σ → ε → Prop
  next : σ → ε → σ

/-- Runs from one state to another all of whose steps satisfy `ok`. -/
inductive Run (M : System σ ε) (ok : σ → ε → Prop) : σ → List ε → σ → Prop
  | nil (s : σ) : Run M ok s [] s
  | cons {s t : σ} {e : ε} {es : List ε} (hok : ok s e) (he : M.Enabled s e)
      (hrun : Run M ok (M.next s e) es t) : Run M ok s (e :: es) t

variable {M : System σ ε} {ok : σ → ε → Prop}

theorem Run.invariant (inv : σ → Prop)
    (hstep : ∀ s e, inv s → ok s e → M.Enabled s e → inv (M.next s e))
    {s t : σ} {es : List ε} (h : Run M ok s es t) (hs : inv s) : inv t := by
  induction h with
  | nil s => exact hs
  | cons hok he _ ih => exact ih (hstep _ _ hs hok he)

/-- The states in which the events of a run are taken. -/
def System.visited (M : System σ ε) : σ → List ε → List σ
  | _, [] => []
  | s, e :: es => s :: M.visited (M.next s e) es

/-- An invariant may look at the states that have been visited. -/
theorem Run.invariant_visited (inv : List σ → σ → Prop)
    (hstep : ∀ us s e, inv us s → ok s e → M.Enabled s e → inv (us ++ [s]) (M.next s e))
    {us : List σ} {s t : σ} {es : List ε} (h : Run M ok s es t) (hs : inv us s) : inv (us ++ M.visited s es) t := by
  induction h generalizing us with
  | nil s => rwa [System.visited, List.append_nil]
  | @cons s t e es hok he _ ih =>
    have hrest := ih (hstep us s e hs hok he)
    rwa [List.append_assoc] at hrest

/-- What an invariant says of every step holds of every step of a run. -/
theorem Run.strengthen {ok' : σ → ε → Prop} (inv : σ → Prop)
    (hstep : ∀ s e, inv s → ok s e → M.Enabled s e → inv (M.next s e))
    (hok' : ∀ s e, inv s → ok s e → M.Enabled s e → ok' s e)
    {s t : σ} {es : List ε} (h : Run M ok s es t) (hs : inv s) : Run M ok' s es t := by
  induction h with
  | nil s => exact .nil s
  | cons hok he _ ih => exact .cons (hok' _ _ hs hok he) he (ih (hstep _ _ hs hok he))

theorem Run.restrict {p : ε → Prop} {s t : σ} {es : List ε} (h : Run M ok s es t)
    (hp : ∀ e ∈ es, p e) : Run M (fun s e => ok s e ∧ p e) s es t := by
  induction h with
  | nil s => exact .nil s
  | cons hok he _ ih =>
    exact .cons ⟨hok, hp _ List.mem_cons_self⟩ he (ih fun e he => hp e (List.mem_cons_of_mem _ he))

theorem Run.append {s t u : σ} {es fs : List ε} (h : Run M ok s es t) (h' : Run M ok t fs u) :
    Run M ok s (es ++ fs) u := by
  induction h with
  | nil s => exact h'
  | cons hok he _ ih => exact .cons hok he (ih h')

/-- Where each step of one system is matched by steps of another that show something related, so are
runs. -/
theorem Run.simulate_rel {σ' ε' κ κ' : Type*} {N : System σ' ε'} {label : ε → Option κ} {label' : ε' → Option κ'}
    (T : κ' → κ → Prop) (R : σ → σ' → Prop)
    (hstep : ∀ s s' e, R s s' → ok s e → M.Enabled s e → ∃ es' t', Run N (fun _ _ => True) s' es' t' ∧
      List.Forall₂ T (es'.filterMap label') (label e).toList ∧ R (M.next s e) t')
    {s t : σ} {es : List ε} (h : Run M ok s es t) {s' : σ'} (hs : R s s') :
    ∃ es' t', Run N (fun _ _ => True) s' es' t' ∧ List.Forall₂ T (es'.filterMap label') (es.filterMap label) ∧ R t t' := by
  induction h generalizing s' with
  | nil s => exact ⟨[], s', .nil s', .nil, hs⟩
  | @cons s t e es hok he _ ih =>
    obtain ⟨es₁, t₁, hrun₁, hlabel₁, hR₁⟩ := hstep s s' e hs hok he
    obtain ⟨es₂, t₂, hrun₂, hlabel₂, hR₂⟩ := ih hR₁
    refine ⟨es₁ ++ es₂, t₂, hrun₁.append hrun₂, ?_, hR₂⟩
    have hlabels : List.Forall₂ T (es₁.filterMap label' ++ es₂.filterMap label') ((label e).toList ++ es.filterMap label) :=
      List.rel_append hlabel₁ hlabel₂
    rw [List.filterMap_append, List.filterMap_cons]
    cases hlabel : label e with
    | none => rwa [hlabel] at hlabels
    | some x => rwa [hlabel] at hlabels

/-- Where each step of one system is matched by steps of another that show the same, so are runs. -/
theorem Run.simulate {σ' ε' κ : Type*} {N : System σ' ε'} {label : ε → Option κ} {label' : ε' → Option κ}
    (R : σ → σ' → Prop)
    (hstep : ∀ s s' e, R s s' → ok s e → M.Enabled s e → ∃ es' t', Run N (fun _ _ => True) s' es' t' ∧
      es'.filterMap label' = (label e).toList ∧ R (M.next s e) t')
    {s t : σ} {es : List ε} (h : Run M ok s es t) {s' : σ'} (hs : R s s') :
    ∃ es' t', Run N (fun _ _ => True) s' es' t' ∧ es'.filterMap label' = es.filterMap label ∧ R t t' := by
  simp only [← List.forall₂_eq_eq_eq] at hstep ⊢
  exact h.simulate_rel Eq R hstep hs

/-- A run is as long as the measure allows, where an event from outside gives back at most the cost. -/
theorem Run.length_le {inv : σ → Prop} {measure : σ → ℕ} {outside : ε → Bool} {cost : ℕ}
    (hstep : ∀ s e, inv s → ok s e → M.Enabled s e →
      inv (M.next s e) ∧ measure (M.next s e) + 1 ≤ measure s + if outside e then cost else 0)
    {s t : σ} {es : List ε} (h : Run M ok s es t) (hs : inv s) :
    measure t + es.length ≤ measure s + cost * es.countP outside := by
  induction h with
  | nil s => simp
  | @cons s t e es hok he _ ih =>
    obtain ⟨hinv, hmeasure⟩ := hstep _ _ hs hok he
    have hrest := ih hinv
    rw [List.countP_cons, List.length_cons, Nat.mul_add]
    split at hmeasure <;> simp_all <;> omega

/-- Every event of the list is enabled and permitted where it is taken. -/
def Allowed (M : System σ ε) (ok : σ → ε → Prop) : σ → List ε → Prop
  | _, [] => True
  | s, e :: es => ok s e ∧ M.Enabled s e ∧ Allowed M ok (M.next s e) es

instance Allowed.decidable [∀ s e, Decidable (M.Enabled s e)] [∀ s e, Decidable (ok s e)] :
    (s : σ) → (es : List ε) → Decidable (Allowed M ok s es)
  | _, [] => isTrue trivial
  | s, e :: es =>
    have := Allowed.decidable (M.next s e) es
    inferInstanceAs (Decidable (_ ∧ _ ∧ _))

/-- A list of events that can be taken is a run to the state they compute. -/
theorem Allowed.run {s : σ} {es : List ε} (h : Allowed M ok s es) :
    Run M ok s es (es.foldl M.next s) := by
  induction es generalizing s with
  | nil => exact .nil s
  | cons e es ih => exact .cons h.1 h.2.1 (ih h.2.2)

theorem Run.allowed {s t : σ} {es : List ε} (h : Run M ok s es t) : Allowed M ok s es := by
  induction h with
  | nil s => trivial
  | cons hok he _ ih => exact ⟨hok, he, ih⟩

end LsmTree.Transition
