import LsmTree.ConcurrentMemtable

/-!
# The memtable is an atomic object

The contents of the list are the state of the object. Each step of a thread leaves the
contents and what has become of its call as they are, or it is the step at which the call
takes effect: the contents change as the call says, and what it has read of them is what it
is going to answer.
-/

namespace LsmTree.ConcurrentMemtable
open LittleEndian LayeredMap SkipList Transition AtomicObject
open ConcurrentSkipList (ThreadId)

def State.contents (s : State) : List (Key × Option Bytes) := s.list.list.toList

/-- What has become of the call of a thread. Iteration is no call of the object. -/
def statusAt : Pc → ConcurrentSkipList.Pc Key Bytes → Status Request Answer
  | .inserting op, q => if linked q then .answered .done else .called (.write op)
  | .charging _ _, _ | .counting, _ => .answered .done
  | .finding key, _ | .loading key _, _ => .called (.get key)
  | .returning a, _ => .answered a
  | .idle, _ | .seeking _, _ | .beginning, _ | .reading _ _, _ | .advancing _ _, _ | .ended _, _ => .idle

def State.status (s : State) (t : ThreadId) : Status Request Answer := statusAt (s.pc t) (s.list.pc t)

/-- The contents and the call of the thread stay, or the call takes effect. -/
def Effect (s : State) (t : ThreadId) (s' : State) : Prop :=
  s'.contents = s.contents ∧ s'.status t = s.status t ∨
    ∃ r, s.status t = .called r ∧ s'.contents = (apply s.contents r).1 ∧
      s'.status t = .answered (apply s.contents r).2

section Steps
variable {s : State} {level : ℕ → List ℕ} {t : ThreadId}

theorem effect_insert (h : Good s level) {op : Op} (hpc : s.pc t = .inserting op) : Effect s t (step s t) := by
  obtain ⟨p, hinsert⟩ := exists_insertStep h hpc
  have hcontents := ConcurrentSkipList.toList_step h.inv t
  -- What has become of the call is read off how far the write is.
  have hstatus : (step s t).status t =
      match progress p ((ConcurrentSkipList.step s.list t).pc t) with
      | .before op => .called (.write op)
      | _ => .answered .done := by
    rw [hinsert.eq, State.status, State.goto]
    simp only [Function.update_self]
    rcases hinsert.place with rfl | ⟨result, rfl⟩
    · simp only [statusAt, progress]
      split_ifs <;> rfl
    · rfl
  have hbefore : s.status t = if linked (s.list.pc t) then .answered .done else .called (.write op) := by
    rw [State.status, hpc]
    rfl
  have hlist : (step s t).contents = (ConcurrentSkipList.step s.list t).list.toList := by
    rw [hinsert.eq]
    rfl
  rcases hinsert.effect with ⟨hnone, hsame⟩ | ⟨hwrites, hnot, result, hafter, -⟩
  · refine .inl ⟨?_, ?_⟩
    · rw [hlist, hcontents, hnone]
      rfl
    · rw [hstatus, hsame, hbefore]
      simp only [progress]
      split_ifs <;> rfl
  · refine .inr ⟨.write op, ?_, ?_, ?_⟩
    · rw [hbefore, hnot]
      rfl
    · rw [hlist, hcontents, hwrites]
      rfl
    · rw [hstatus, hafter]
      rfl

/-- A load of a search changes nothing. -/
theorem contents_find (h : Good s level) {c : ConcurrentSkipList.Caller Key Bytes} {key : Key} {i x : ℕ}
    {r : ConcurrentSkipList.Neighbours} (hq : s.list.pc t = .finding c key i x r) :
    (ConcurrentSkipList.step s.list t).list.toList = s.list.list.toList := by
  rw [ConcurrentSkipList.toList_step h.inv t]
  simp only [ConcurrentSkipList.writes, ConcurrentSkipList.written, hq]

theorem effect_find (h : Good s level) {key : Key} (hpc : s.pc t = .finding key) : Effect s t (step s t) := by
  have hcall := h.calls t
  rw [hpc] at hcall
  obtain ⟨before, i, x, r, hq⟩ := hcall.of_finding
  have hcontents := contents_find h hq
  have hbefore : s.status t = .called (.get key) := by
    rw [State.status, hpc]
    rfl
  rcases find_cases h hq with ⟨hreturn, i', x', r', hq'⟩ | ⟨n, hreturn, hq', hfirst⟩
  · have hstay : step s t = { s with list := ConcurrentSkipList.step s.list t } := by
      simp only [step, hpc, hreturn]
    rw [hstay]
    refine .inl ⟨hcontents, ?_⟩
    rw [hbefore, State.status, hpc]
    rfl
  · cases hfilter : n.filter (fun n => (s.list.list.node n).key = key) with
    | some y =>
      have hback : step s t = { s.goto t (.loading key y) with list := ConcurrentSkipList.step s.list t } := by
        simp only [step, hpc, hreturn, hfilter]
      rw [hback]
      refine .inl ⟨hcontents, ?_⟩
      rw [hbefore, State.status, State.goto]
      simp only [Function.update_self, statusAt]
    | none =>
      have hback : step s t =
          { s.goto t (.returning (.value none)) with list := ConcurrentSkipList.step s.list t } := by
        simp only [step, hpc, hreturn, hfilter]
      -- A node with the key would be where the search has ended.
      have hmiss : lookup key s.contents = none := by
        refine h.inv.levels.lookup_eq_none fun a ha hkey => ?_
        have hhit := hfirst.filter_eq h.inv.levels ha hkey
        rw [hfilter] at hhit
        cases hhit
      rw [hback]
      refine .inr ⟨.get key, hbefore, hcontents, ?_⟩
      rw [State.status, State.goto]
      simp only [Function.update_self, statusAt, apply, hmiss]

theorem effect_load (h : Good s level) {key : Key} {n : ℕ} (hpc : s.pc t = .loading key n) :
    Effect s t (step s t) := by
  have hstand := h.stands t
  rw [hpc] at hstand
  obtain ⟨hn, rfl⟩ := hstand
  have hhit : lookup (s.list.list.node n).key s.contents = some (s.list.list.node n).value :=
    h.inv.levels.lookup_eq_some hn
  refine .inr ⟨.get (s.list.list.node n).key, ?_, ?_, ?_⟩
  · rw [State.status, hpc]
    rfl
  · simp only [step, hpc]
    rfl
  · simp only [step, hpc, State.status, State.goto, Function.update_self, statusAt, apply, hhit]

theorem effect_seek (h : Good s level) {start : Key} (hpc : s.pc t = .seeking start) : Effect s t (step s t) := by
  have hcall := h.calls t
  rw [hpc] at hcall
  obtain ⟨before, i, x, r, hq⟩ := hcall.of_seeking
  have hbefore : s.status t = .idle := by
    rw [State.status, hpc]
    rfl
  refine .inl ⟨?_, ?_⟩
  · simp only [step, hpc]
    split
    · exact contents_find h hq
    · exact contents_find h hq
  · rw [hbefore]
    simp only [step, hpc]
    split
    · rename_i n hn
      simp only [State.status, State.goto, Function.update_self]
      cases n <;> rfl
    · simp only [State.status, hpc]
      rfl

theorem effect_step (h : Good s level) (t : ThreadId) : Effect s t (step s t) := by
  -- A step that is neither in the list nor a load of a value.
  have hquiet : ∀ p, (step s t).list = s.list → (step s t).pc t = p → statusAt p (s.list.pc t) = s.status t →
      Effect s t (step s t) := by
    intro p hlist hp hstatus
    refine .inl ⟨?_, ?_⟩
    · rw [State.contents, hlist]
      rfl
    · rw [State.status, hp, hlist, hstatus]
  have hiterator : ∀ n seen, statusAt (iteratorAt n seen) (s.list.pc t) = .idle := by
    intro n seen
    cases n with
    | none => rfl
    | some n => rfl
  cases hpc : s.pc t with
  | inserting op => exact effect_insert h hpc
  | finding key => exact effect_find h hpc
  | loading key n => exact effect_load h hpc
  | seeking start => exact effect_seek h hpc
  | idle | returning _ | ended _ => exact hquiet (s.pc t) (by simp only [step, hpc]) (by simp only [step, hpc]) rfl
  | charging op result =>
    refine hquiet (if result.inserted then .counting else .returning .done) (by simp only [step, hpc, State.goto])
      (by simp only [step, hpc, State.goto, Function.update_self]) ?_
    rw [State.status, hpc]
    split_ifs
    · rfl
    · rfl
  | counting =>
    refine hquiet (.returning .done) (by simp only [step, hpc, State.goto])
      (by simp only [step, hpc, State.goto, Function.update_self]) ?_
    rw [State.status, hpc]
    rfl
  | reading n seen =>
    refine hquiet (.advancing n (seen ++ [((s.list.list.node n).key, (s.list.list.node n).value)]))
      (by simp only [step, hpc, State.goto]) (by simp only [step, hpc, State.goto, Function.update_self]) ?_
    rw [State.status, hpc]
    rfl
  | beginning =>
    refine hquiet (iteratorAt (s.list.list.link 0 0) []) (by simp only [step, hpc, State.goto])
      (by simp only [step, hpc, State.goto, Function.update_self]) ?_
    rw [hiterator, State.status, hpc]
    rfl
  | advancing n seen =>
    refine hquiet (iteratorAt (s.list.list.link n 0) seen) (by simp only [step, hpc, State.goto])
      (by simp only [step, hpc, State.goto, Function.update_self]) ?_
    rw [hiterator, State.status, hpc]
    rfl

/-- Threads other than the one that moves see nothing of a step but its writes. -/
theorem status_of_ne {s' : State} {level' : ℕ → List ℕ} (hm : Moves s.list level t s'.list level') {u : ThreadId}
    (hu : u ≠ t) (hpc : s'.pc u = s.pc u) : s'.status u = s.status u := by
  rw [State.status, hpc, hm.others u hu]
  rfl

end Steps

/-! ### Runs -/

/-- The object has the contents, and of each call has become what the thread knows. -/
structure Simulates (s : State) (a : AtomicObject.State ThreadId (List (Key × Option Bytes)) Request Answer) :
    Prop where
  good : ∃ level, Good s level
  value : a.value = s.contents
  status : ∀ t, a.status t = s.status t

section Simulation
variable {s s' : State} {a : AtomicObject.State ThreadId (List (Key × Option Bytes)) Request Answer} {t : ThreadId}

theorem simulates_initial : Simulates initial (AtomicObject.initial []) where
  good := ⟨_, good_initial⟩
  value := good_initial.inv.levels.toList_eq.symm
  status := fun _ => rfl

/-- The thread has moved, and its call is where the object says. -/
theorem Simulates.update (h : Simulates s a) (hgood : ∃ level, Good s' level) (hvalue : a.value = s'.contents)
    (hothers : ∀ u, u ≠ t → s'.status u = s.status u) {x : Status Request Answer} (hx : s'.status t = x) :
    Simulates s' { a with status := Function.update a.status t x } where
  good := hgood
  value := hvalue
  status := by
    intro u
    by_cases hut : u = t
    · rw [hut, hx]
      exact Function.update_self _ _ _
    · rw [hothers u hut, ← h.status u]
      exact Function.update_of_ne hut _ _

/-- Nothing that can be seen of the object has changed. -/
theorem Simulates.same (h : Simulates s a) (hgood : ∃ level, Good s' level) (hcontents : s'.contents = s.contents)
    (hstatus : ∀ u, s'.status u = s.status u) : Simulates s' a where
  good := hgood
  value := h.value.trans hcontents.symm
  status := fun u => (h.status u).trans (hstatus u).symm

theorem State.status_goto_of_ne (s : State) (l : ConcurrentSkipList.State Key Bytes) (p : Pc) {t u : ThreadId}
    (hu : u ≠ t) (hl : l.pc u = s.list.pc u) : { s.goto t p with list := l }.status u = s.status u := by
  have hpc : (s.goto t p).pc u = s.pc u := Function.update_of_ne hu _ _
  simp only [State.status, hpc, hl]

theorem status_draw (s : State) (t : ThreadId) (height : ℕ) (u : ThreadId) :
    { s with list := ConcurrentSkipList.draw s.list t height }.status u = s.status u := by
  have hlinked := linked_draw s.list t height u
  cases hpc : s.pc u with
  | _ => simp only [State.status, hpc, statusAt, hlinked]

/-- Every step of the threads is matched by steps of the object that show the same. -/
theorem Simulates.follows (h : Simulates s a) {e : Event} (he : Enabled s e) :
    ∃ as b, Run (AtomicObject.system apply) (fun _ _ => True) a as b ∧
      as.filterMap Step.seen? = (label e).toList ∧ Simulates (next s e) b := by
  have hgood : ∃ level, Good (next s e) level := by
    obtain ⟨level, hgood⟩ := h.good
    obtain ⟨level', hgood', -⟩ := good_next hgood he
    exact ⟨level', hgood'⟩
  cases e with
  | call t r =>
    have hidle : a.status t = .idle := by
      rw [h.status, State.status, show s.pc t = .idle from he]
      rfl
    have hrun : Run (AtomicObject.system apply) (fun _ _ => True) a [.seen (.call t r)] _ :=
      .cons trivial hidle (.nil _)
    refine ⟨_, _, hrun, rfl, ?_⟩
    cases r with
    | write op =>
      refine h.update hgood h.value (fun u hu => s.status_goto_of_ne _ _ hu (Function.update_of_ne hu _ _)) ?_
      simp only [next, State.status, State.goto, ConcurrentSkipList.next,
        ConcurrentSkipList.State.goto, Function.update_self]
      rfl
    | get key =>
      refine h.update hgood h.value (fun u hu => s.status_goto_of_ne _ _ hu (Function.update_of_ne hu _ _)) ?_
      simp only [next, State.status, State.goto, Function.update_self, statusAt]
  | iterate t start =>
    have hidle : s.status t = .idle := by
      rw [State.status, show s.pc t = .idle from he]
      rfl
    refine ⟨[], a, .nil a, rfl, ?_⟩
    cases start with
    | none =>
      refine h.same hgood rfl fun u => ?_
      by_cases hut : u = t
      · rw [hut, hidle]
        simp only [next, State.status, State.goto, Function.update_self, statusAt]
      · exact s.status_goto_of_ne s.list _ hut rfl
    | some start =>
      refine h.same hgood rfl fun u => ?_
      by_cases hut : u = t
      · rw [hut, hidle]
        simp only [next, State.status, State.goto, Function.update_self, statusAt]
      · exact s.status_goto_of_ne _ _ hut (Function.update_of_ne hut _ _)
  | draw t height =>
    refine ⟨[], a, .nil a, rfl, h.same hgood ?_ (status_draw s t height)⟩
    obtain ⟨level, hlevel⟩ := h.good
    exact ConcurrentSkipList.toList_draw hlevel.inv t height
  | step t =>
    obtain ⟨level, hlevel⟩ := h.good
    obtain ⟨level', -, hm⟩ := good_step hlevel t
    have hothers : ∀ u, u ≠ t → (step s t).status u = s.status u :=
      fun u hu => status_of_ne hm hu (pc_step_of_ne s hu)
    rcases effect_step hlevel t with ⟨hcontents, hstatus⟩ | ⟨r, hcalled, hcontents, hanswered⟩
    · refine ⟨[], a, .nil a, rfl, h.same hgood hcontents fun u => ?_⟩
      by_cases hut : u = t
      · rw [hut]
        exact hstatus
      · exact hothers u hut
    · rw [← h.status t] at hcalled
      rw [← h.value] at hcontents hanswered
      refine ⟨_, _, run_effect hcalled, rfl, ?_⟩
      refine ⟨hgood, hcontents.symm, fun u => ?_⟩
      by_cases hut : u = t
      · rw [hut]
        exact (Function.update_self _ _ _).trans hanswered.symm
      · exact (Function.update_of_ne hut _ _).trans ((h.status u).trans (hothers u hut).symm)
  | ret t answer =>
    have hanswered : a.status t = .answered answer := by
      rw [h.status, State.status, show s.pc t = .returning answer from he]
      rfl
    have hrun : Run (AtomicObject.system apply) (fun _ _ => True) a [.seen (.ret t answer)] _ :=
      .cons trivial hanswered (.nil _)
    refine ⟨_, _, hrun, rfl, h.update hgood h.value (fun u hu => s.status_goto_of_ne s.list _ hu rfl) ?_⟩
    simp only [next, State.status, State.goto, Function.update_self, statusAt]
  | ended t seen =>
    have hidle : s.status t = .idle := by
      rw [State.status, show s.pc t = .ended seen from he]
      rfl
    refine ⟨[], a, .nil a, rfl, h.same hgood rfl fun u => ?_⟩
    by_cases hut : u = t
    · rw [hut, hidle]
      simp only [next, State.status, State.goto, Function.update_self, statusAt]
    · exact s.status_goto_of_ne s.list _ hut rfl

end Simulation

/-- However the steps of the threads interleave, the calls of `put`, `del` and `get` and what they return are
those of a memtable in which each call takes effect at one moment between its call and its return; what
iteration would find at the end is what that memtable holds. -/
theorem memtable_linearizable {es : List Event} {s : State} (h : Run system (fun _ _ => True) initial es s) :
    Linearizable apply [] (es.filterMap label) ∧
    ∃ steps a, Run (AtomicObject.system apply) (fun _ _ => True) (AtomicObject.initial []) steps a ∧
      steps.filterMap Step.seen? = es.filterMap label ∧ a.value = s.contents := by
  have hstep : ∀ s a e, Simulates s a → True → Enabled s e → ∃ as b,
      Run (AtomicObject.system apply) (fun _ _ => True) a as b ∧ as.filterMap Step.seen? = (label e).toList ∧
        Simulates (next s e) b :=
    fun _ _ _ hsim _ he => hsim.follows he
  obtain ⟨steps, a, hrun, hseen, hsim⟩ := h.simulate Simulates hstep simulates_initial
  exact ⟨⟨steps, a, hrun, hseen⟩, steps, a, hrun, hseen, hsim.value⟩

instance (p : Pc) : Decidable (p = .idle) :=
  match p with
  | .idle => isTrue rfl
  | .inserting _ | .charging _ _ | .counting | .finding _ | .loading _ _ | .seeking _ | .beginning | .reading _ _
  | .advancing _ _ | .returning _ | .ended _ => isFalse nofun

instance (p : Pc) (a : Answer) : Decidable (p = .returning a) :=
  match p with
  | .returning b => decidable_of_iff (b = a) ⟨congrArg Pc.returning, Pc.returning.inj⟩
  | .idle | .inserting _ | .charging _ _ | .counting | .finding _ | .loading _ _ | .seeking _ | .beginning
  | .reading _ _ | .advancing _ _ | .ended _ => isFalse nofun

instance (p : Pc) (seen : List (Key × Option Bytes)) : Decidable (p = .ended seen) :=
  match p with
  | .ended seen' => decidable_of_iff (seen' = seen) ⟨congrArg Pc.ended, Pc.ended.inj⟩
  | .idle | .inserting _ | .charging _ _ | .counting | .finding _ | .loading _ _ | .seeking _ | .beginning
  | .reading _ _ | .advancing _ _ | .returning _ => isFalse nofun

instance (s : State) : (e : Event) → Decidable (system.Enabled s e)
  | .call _ _ | .iterate _ _ => inferInstanceAs (Decidable (_ = Pc.idle))
  | .draw _ _ => inferInstanceAs (Decidable (_ ∧ _))
  | .step _ => isTrue trivial
  | .ret _ a => inferInstanceAs (Decidable (_ = Pc.returning a))
  | .ended _ seen => inferInstanceAs (Decidable (_ = Pc.ended seen))

/-- A `put` and a `del` of a key race. The node of the `put` is on level 0 only when the compare-exchange of the
`del` fails, so the `del` overwrites its value and returns first; a `get` in between sees the value. -/
def racingWrites : List Event :=
  List.flatten [
    [.call 0 (.write (.put (.ofBytes [5]) [1])), .call 1 (.write (.del (.ofBytes [5])))],
    List.replicate 12 (.step 0), List.replicate 12 (.step 1),
    [.draw 0 2, .draw 1 1, .step 1, .step 0, .step 0, .step 0, .step 1, .call 2 (.get (.ofBytes [5]))],
    List.replicate 12 (.step 2), List.replicate 12 (.step 1),
    [.step 1, .step 2, .step 1, .step 1, .ret 1 .done, .ret 2 (.value (some (some [1])))],
    List.replicate 4 (.step 0), [.ret 0 .done, .iterate 3 none], List.replicate 3 (.step 3),
    [.ended 3 [(.ofBytes [5], none)]]]

theorem memtable_linearizable_racingWrites : Linearizable apply [] (racingWrites.filterMap label) :=
  have hrun : Run system (fun _ _ => True) initial racingWrites _ := Allowed.run (by decide +kernel)
  (memtable_linearizable hrun).1

end LsmTree.ConcurrentMemtable
