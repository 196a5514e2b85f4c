import LsmTree.MemtableLinearizability

/-!
# Iterating over the memtable while it is written

An iterator follows level 0. Nodes are never taken off it, so where the iterator stands
there is a node, and the link that it follows leads to the next larger key of that moment;
what is added behind it later it does not see. It yields the keys that it passes in
increasing order, misses none that was there when the iteration began, and yields with each
key a value that the key has had since then. When nobody writes meanwhile, it yields the
contents.
-/

namespace LsmTree.SkipList

section Following
variable {K V : Type*} [LinearOrder K] {l : SkipList K V} {level : ℕ → List ℕ} {x : ℕ}

/-- The link of a node leads to a larger key. -/
theorem Levels.lt_of_link (h : l.Levels level) {i y : ℕ} (hi : i < maxHeight) (hx : x ∈ level i)
    (hy : l.link x i = some y) : (l.node x).key < (l.node y).key := by
  obtain ⟨as, bs, hsplit, hlast, hhead, hshape⟩ := (h.linked i hi).split (.inr hx)
  have hyb : y ∈ bs := List.mem_of_mem_head? (hhead ▸ hy)
  have hsorted := h.sorted i hi
  rw [hsplit, List.pairwise_append] at hsorted
  rcases hshape with rfl | ⟨cs, rfl⟩
  · -- Only the head is in front of everything.
    have hzero : 0 = x := hlast
    exact absurd (h.bounds i hi x hx).1 (by omega)
  · exact hsorted.2.2 x (by simp) y hyb

/-- Between a node and where its link leads there is no key. -/
theorem Levels.link_le (h : l.Levels level) {i a : ℕ} (hi : i < maxHeight) (hx : x = 0 ∨ x ∈ level i)
    (ha : a ∈ level i) (hafter : x ∈ level i → (l.node x).key < (l.node a).key) :
    ∃ y ∈ l.link x i, (l.node y).key ≤ (l.node a).key := by
  obtain ⟨as, bs, hsplit, -, hhead, hshape⟩ := (h.linked i hi).split hx
  have hmem : a ∈ bs := by
    rw [hsplit] at ha
    refine (List.mem_append.mp ha).resolve_left fun has => ?_
    exact absurd (h.lt_of_split hi hsplit hshape (hx.imp_right fun hin => ⟨hin, hafter hin⟩) a has) (lt_irrefl _)
  cases bs with
  | nil => cases hmem
  | cons y ys =>
    refine ⟨y, hhead, ?_⟩
    rcases List.mem_cons.mp hmem with rfl | hys
    · exact le_refl _
    · have hsorted := h.sorted i hi
      rw [hsplit, List.pairwise_append] at hsorted
      exact ((List.pairwise_cons.mp hsorted.2.1).1 a hys).le

end Following

end LsmTree.SkipList

namespace LsmTree.ConcurrentMemtable
open LittleEndian LayeredMap SkipList Transition
open ConcurrentSkipList (ThreadId)

/-! ### What an iterator has passed -/

/-- The end of an iteration of the thread. -/
def Event.ends (t : ThreadId) : Event → Bool
  | .ended u _ => u = t
  | _ => false

/-- What has been yielded up to some keys: increasing keys from the start on, no old one missing, each with
a value that it had in one of the states. -/
structure Passed (start : Option Key) (old : List (Key × Option Bytes)) (us : List State) (upto : Key → Prop)
    (seen : List (Key × Option Bytes)) : Prop where
  sorted : Sorted seen
  bounds : ∀ e ∈ seen, (∀ k ∈ start, k ≤ e.1) ∧ upto e.1
  complete : ∀ e ∈ old, (∀ k ∈ start, k ≤ e.1) → upto e.1 → ∃ v, (e.1, v) ∈ seen
  held : ∀ e ∈ seen, ∃ u ∈ us, lookup e.1 u.contents = some e.2

/-- Where the iterator stands. -/
def Place (l : SkipList Key Bytes) (start : Option Key) (old : List (Key × Option Bytes)) (us : List State) :
    Pc → Prop
  | .seeking key => start = some key
  | .beginning => start = none
  | .reading n seen => Passed start old us (· < (l.node n).key) seen ∧ ∀ k ∈ start, k ≤ (l.node n).key
  | .advancing n seen => Passed start old us (· ≤ (l.node n).key) seen ∧ ∀ k ∈ start, k ≤ (l.node n).key
  | .ended seen => Passed start old us (fun _ => True) seen
  | _ => False

/-- The old keys are still there. -/
def Remains (l : SkipList Key Bytes) (level : ℕ → List ℕ) (old : List (Key × Option Bytes)) : Prop :=
  ∀ e ∈ old, ∃ a ∈ level 0, (l.node a).key = e.1

structure Iterates (t : ThreadId) (start : Option Key) (old : List (Key × Option Bytes)) (us : List State)
    (s : State) : Prop where
  good : ∃ level, Good s level ∧ Remains s.list.list level old
  place : Place s.list.list start old us (s.pc t)

section Passing
variable {start : Option Key} {old seen : List (Key × Option Bytes)} {us us' : List State} {upto : Key → Prop}
  {l l' : SkipList Key Bytes} {level level' : ℕ → List ℕ}

theorem passed_nil : Passed start old us (fun _ => False) [] :=
  ⟨.nil, fun _ he => (by cases he), fun _ _ _ hfalse => hfalse.elim, fun _ he => (by cases he)⟩

theorem Passed.mono (h : Passed start old us upto seen) (hsub : us ⊆ us') : Passed start old us' upto seen := by
  refine ⟨h.sorted, h.bounds, h.complete, fun e he => ?_⟩
  obtain ⟨u, hu, hlookup⟩ := h.held e he
  exact ⟨u, hsub hu, hlookup⟩

/-- The iterator comes to the next node: what it has passed is before it, and nothing lies between. -/
theorem Passed.place_iteratorAt (h : Passed start old us upto seen) (hremains : Remains l level old) {n : Option ℕ}
    (hstart : ∀ y ∈ n, ∀ k ∈ start, k ≤ (l.node y).key) (hbefore : ∀ y ∈ n, ∀ k, upto k → k < (l.node y).key)
    (hnext : ∀ a ∈ level 0, (∀ k ∈ start, k ≤ (l.node a).key) → ¬upto (l.node a).key →
      ∃ y ∈ n, (l.node y).key ≤ (l.node a).key) : Place l start old us (iteratorAt n seen) := by
  have hleft : ∀ e ∈ old, (∀ k ∈ start, k ≤ e.1) → (∃ v, (e.1, v) ∈ seen) ∨ ∃ y ∈ n, (l.node y).key ≤ e.1 := by
    intro e he hge
    by_cases hup : upto e.1
    · exact .inl (h.complete e he hge hup)
    · obtain ⟨a, ha, hkey⟩ := hremains e he
      rw [← hkey] at hge hup
      obtain ⟨y, hy, hle⟩ := hnext a ha hge hup
      exact .inr ⟨y, hy, hkey ▸ hle⟩
  cases n with
  | none =>
    refine ⟨h.sorted, fun e he => ⟨(h.bounds e he).1, trivial⟩, fun e he hge _ => ?_, h.held⟩
    refine (hleft e he hge).resolve_right ?_
    rintro ⟨y, hy, -⟩
    cases hy
  | some n =>
    refine ⟨⟨h.sorted, fun e he => ⟨(h.bounds e he).1, hbefore n rfl e.1 (h.bounds e he).2⟩, ?_, h.held⟩, hstart n rfl⟩
    intro e he hge hlt
    refine (hleft e he hge).resolve_right ?_
    rintro ⟨y, hy, hle⟩
    cases hy
    exact absurd hlt (not_lt.mpr hle)

/-- The iterator loads the value of the node. -/
theorem Passed.read {k : Key} {v : Option Bytes} {u : State} (h : Passed start old us (· < k) seen)
    (hstart : ∀ k' ∈ start, k' ≤ k) (hlookup : lookup k u.contents = some v) :
    Passed start old (us ++ [u]) (· ≤ k) (seen ++ [(k, v)]) where
  sorted := by
    rw [Sorted, List.pairwise_append]
    refine ⟨h.sorted, List.pairwise_singleton _ _, fun e he f hf => ?_⟩
    rw [List.mem_singleton.mp hf]
    exact (h.bounds e he).2
  bounds := by
    intro e he
    rcases List.mem_append.mp he with he | he
    · exact ⟨(h.bounds e he).1, (h.bounds e he).2.le⟩
    · rw [List.mem_singleton.mp he]
      exact ⟨hstart, le_refl k⟩
  complete := by
    intro e he hge hle
    rcases hle.lt_or_eq with hlt | heq
    · obtain ⟨w, hw⟩ := h.complete e he hge hlt
      exact ⟨w, List.mem_append_left _ hw⟩
    · exact ⟨v, by simp [heq]⟩
  held := by
    intro e he
    rcases List.mem_append.mp he with he | he
    · obtain ⟨u', hu, hold⟩ := h.held e he
      exact ⟨u', List.mem_append_left _ hu, hold⟩
    · rw [List.mem_singleton.mp he]
      exact ⟨u, by simp, hlookup⟩

/-- Nodes keep their keys, so the iterator stands where it stood. -/
theorem Place.mono {p : Pc} (h : Place l start old us p) (hstands : Stands l level p)
    (hkey : ∀ a ∈ level 0, (l'.node a).key = (l.node a).key) (hsub : us ⊆ us') : Place l' start old us' p := by
  cases p with
  | seeking key => exact h
  | beginning => exact h
  | reading n seen =>
    rw [Place, hkey n hstands]
    exact ⟨h.1.mono hsub, h.2⟩
  | advancing n seen =>
    rw [Place, hkey n hstands]
    exact ⟨h.1.mono hsub, h.2⟩
  | ended seen => exact Passed.mono h hsub
  | idle | inserting _ | charging _ _ | counting | finding _ | loading _ _ | returning _ => exact h.elim

end Passing

/-! ### Steps -/

section Steps
variable {s : State} {level : ℕ → List ℕ} {t : ThreadId} {start : Option Key} {old : List (Key × Option Bytes)}
  {us : List State}

theorem place_seek (h : Good s level) (hremains : Remains s.list.list level old) {key : Key}
    (hpc : s.pc t = .seeking key) (hstart : start = some key) :
    Place (step s t).list.list start old us ((step s t).pc t) := by
  have hcall := h.calls t
  rw [hpc] at hcall
  obtain ⟨before, i, x, r, hq⟩ := hcall.of_seeking
  have hlist : (ConcurrentSkipList.step s.list t).list = s.list.list := by
    simp only [ConcurrentSkipList.step, hq]
    exact (ConcurrentSkipList.load_eq s.list t (.find before) key i x r).1
  rcases find_cases h hq with ⟨hreturn, -⟩ | ⟨n, hreturn, -, hfirst⟩
  · simp only [step, hpc, hreturn]
    exact hstart
  · have hback : Place s.list.list start old us (iteratorAt n []) := by
      subst hstart
      refine passed_nil.place_iteratorAt hremains ?_ (fun _ _ _ hfalse => hfalse.elim) ?_
      · rintro y hy k ⟨⟩
        exact (hfirst.1 y hy).2
      · exact fun a ha hge _ => hfirst.2 a ha (hge key rfl)
    simp only [step, hpc, hreturn, State.goto, Function.update_self, hlist]
    exact hback

theorem place_begin (h : Good s level) (hremains : Remains s.list.list level old) (hstart : start = none) :
    Place s.list.list start old us (iteratorAt (s.list.list.link 0 0) []) := by
  subst hstart
  refine passed_nil.place_iteratorAt hremains (fun _ _ _ hk => by cases hk) (fun _ _ _ hfalse => hfalse.elim) ?_
  intro a ha _ _
  refine h.inv.levels.link_le (by decide) (.inl rfl) ha fun hzero => ?_
  exact absurd (h.inv.levels.bounds 0 (by decide) 0 hzero).1 (lt_irrefl 0)

theorem place_advance (h : Good s level) (hremains : Remains s.list.list level old) {n : ℕ}
    {seen : List (Key × Option Bytes)} (hn : n ∈ level 0)
    (hplace : Place s.list.list start old us (.advancing n seen)) :
    Place s.list.list start old us (iteratorAt (s.list.list.link n 0) seen) := by
  have hlt : ∀ y ∈ s.list.list.link n 0, (s.list.list.node n).key < (s.list.list.node y).key :=
    fun y hy => h.inv.levels.lt_of_link (by decide) hn hy
  refine hplace.1.place_iteratorAt hremains ?_ ?_ ?_
  · exact fun y hy k hk => (hplace.2 k hk).trans (hlt y hy).le
  · exact fun y hy k hk => lt_of_le_of_lt hk (hlt y hy)
  · exact fun a ha _ hnot => h.inv.levels.link_le (by decide) (.inr hn) ha fun _ => not_le.mp hnot

/-- A step of the iterating thread. -/
theorem place_step (h : Good s level) (hremains : Remains s.list.list level old)
    (hplace : Place s.list.list start old us (s.pc t)) :
    Place (step s t).list.list start old (us ++ [s]) ((step s t).pc t) := by
  have hstands := h.stands t
  have hlater : Place s.list.list start old (us ++ [s]) (s.pc t) :=
    hplace.mono hstands (fun _ _ => rfl) (List.subset_append_left us [s])
  cases hpc : s.pc t with
  | seeking key =>
    rw [hpc] at hplace
    exact place_seek h hremains hpc hplace
  | beginning =>
    rw [hpc] at hplace
    simp only [step, hpc, State.goto, Function.update_self]
    exact place_begin h hremains hplace
  | reading n seen =>
    rw [hpc] at hplace hstands
    simp only [step, hpc, State.goto, Function.update_self]
    exact ⟨hplace.1.read hplace.2 (h.inv.levels.lookup_eq_some hstands), hplace.2⟩
  | advancing n seen =>
    rw [hpc] at hlater hstands
    simp only [step, hpc, State.goto, Function.update_self]
    exact place_advance h hremains hstands hlater
  | ended seen =>
    rw [hpc] at hlater
    simp only [step, hpc]
    exact hlater
  | idle | inserting _ | charging _ _ | counting | finding _ | loading _ _ | returning _ =>
    rw [hpc] at hplace
    exact hplace.elim

theorem Iterates.next (h : Iterates t start old us s) {e : Event} (he : Enabled s e)
    (hends : e.ends t = false) : Iterates t start old (us ++ [s]) (ConcurrentMemtable.next s e) := by
  obtain ⟨level, hgood, hremains⟩ := h.good
  obtain ⟨level', hgood', hm⟩ := good_next hgood he
  have hremains' : Remains (ConcurrentMemtable.next s e).list.list level' old := by
    intro x hx
    obtain ⟨a, ha, hkey⟩ := hremains x hx
    exact ⟨a, hm.mono a ha, (hm.key a (hgood.inv.levels.bounds 0 (by decide) a ha).2.1).trans hkey⟩
  refine ⟨⟨level', hgood', hremains'⟩, ?_⟩
  -- The iterator stands where it stood.
  have hrests : (ConcurrentMemtable.next s e).pc t = s.pc t →
      Place (ConcurrentMemtable.next s e).list.list start old (us ++ [s]) ((ConcurrentMemtable.next s e).pc t) := by
    intro hpc
    rw [hpc]
    exact h.place.mono (hgood.stands t) (fun a ha => hm.key a (hgood.inv.levels.bounds 0 (by decide) a ha).2.1)
      (List.subset_append_left us [s])
  by_cases hthread : t = e.thread
  · have hplace := h.place
    cases e with
    | step u =>
      obtain rfl : t = u := hthread
      exact place_step hgood hremains hplace
    | draw u height => exact hrests rfl
    | call u r | iterate u start' =>
      obtain rfl : t = u := hthread
      rw [show s.pc t = .idle from he] at hplace
      exact hplace.elim
    | ret u a =>
      obtain rfl : t = u := hthread
      rw [show s.pc t = .returning a from he] at hplace
      exact hplace.elim
    | ended u seen =>
      obtain rfl : t = u := hthread
      simp [Event.ends] at hends
  · exact hrests (pc_next_of_ne s e hthread)

end Steps

/-! ### Runs -/

section Runs
variable {s₀ s₁ : State} {es₀ es : List Event} {t : ThreadId} {start : Option Key} {seen : List (Key × Option Bytes)}

theorem good_run (h : Run system (fun _ _ => True) initial es s₀) : ∃ level, Good s₀ level := by
  refine h.invariant (fun s => ∃ level, Good s level) ?_ ⟨_, good_initial⟩
  rintro s e ⟨level, hgood⟩ - he
  obtain ⟨level', hgood', -⟩ := good_next hgood he
  exact ⟨level', hgood'⟩

theorem iterates_start {level : ℕ → List ℕ} (h : Good s₀ level) (hcall : s₀.pc t = .idle) :
    Iterates t start s₀.contents [] (next s₀ (.iterate t start)) := by
  obtain ⟨level', hgood, hm⟩ := good_next h (e := .iterate t start) hcall
  have hremains : Remains (next s₀ (.iterate t start)).list.list level' s₀.contents := by
    intro x hx
    obtain ⟨a, ha, hkey, -⟩ := h.inv.levels.mem_toList.mp hx
    exact ⟨a, hm.mono a ha, (hm.key a (h.inv.levels.bounds 0 (by decide) a ha).2.1).trans hkey⟩
  refine ⟨⟨level', hgood, hremains⟩, ?_⟩
  cases start with
  | none =>
    simp only [next, State.goto, Function.update_self]
    rfl
  | some key =>
    simp only [next, State.goto, Function.update_self]
    rfl

/-- Whatever other threads write while a thread iterates, it yields keys in increasing order from the start on,
none that was there at its call is missing, and each comes with a value that the memtable has held for it
in between; if the contents did not change meanwhile, it yields them. -/
theorem iteration_passes (h₀ : Run system (fun _ _ => True) initial es₀ s₀) (hcall : s₀.pc t = .idle)
    (h : Run system (fun _ e => e.ends t = false) (next s₀ (.iterate t start)) es s₁)
    (hend : s₁.pc t = .ended seen) :
    Sorted seen ∧ (∀ e ∈ seen, ∀ k ∈ start, k ≤ e.1) ∧
    (∀ e ∈ s₀.contents, (∀ k ∈ start, k ≤ e.1) → ∃ v, (e.1, v) ∈ seen) ∧
    (∀ e ∈ seen, ∃ u ∈ system.visited (next s₀ (.iterate t start)) es, lookup e.1 u.contents = some e.2) ∧
    ((∀ u ∈ system.visited (next s₀ (.iterate t start)) es, u.contents = s₀.contents) →
      seen = s₀.contents.filter fun e => start.all (· ≤ e.1)) := by
  obtain ⟨level, hgood⟩ := good_run h₀
  have hiterates := h.invariant_visited (fun us s => Iterates t start s₀.contents us s)
    (fun us s e hinv hends he => hinv.next he hends) (iterates_start hgood hcall)
  have hpassed := hiterates.place
  rw [hend, List.nil_append] at hpassed
  have hpassed : Passed start s₀.contents (system.visited (next s₀ (.iterate t start)) es) (fun _ => True) seen :=
    hpassed
  refine ⟨hpassed.sorted, fun e he => (hpassed.bounds e he).1, fun e he hge => hpassed.complete e he hge trivial,
    hpassed.held, fun hsame => ?_⟩
  have hsorted : Sorted s₀.contents := hgood.inv.levels.sorted_toList
  have hheld : ∀ e ∈ seen, lookup e.1 s₀.contents = some e.2 := by
    intro e he
    obtain ⟨u, hu, hlookup⟩ := hpassed.held e he
    rwa [hsame u hu] at hlookup
  refine hpassed.sorted.eq_of_mem_iff (hsorted.filter _) fun e => ?_
  rw [List.mem_filter, Option.all_eq_true]
  constructor
  · intro he
    exact ⟨mem_of_lookup (hheld e he), by simpa using (hpassed.bounds e he).1⟩
  · rintro ⟨he, hge⟩
    obtain ⟨v, hv⟩ := hpassed.complete e he (by simpa using hge) trivial
    have hvalue : some v = some e.2 := (hheld _ hv).symm.trans (lookup_of_mem hsorted.keys_ne he)
    cases hvalue
    exact hv

end Runs

/-- A `put` that has returned, and one that overtakes an iterator which stands on the key of the first. -/
def returnedPut : List Event :=
  List.flatten [[.call 0 (.write (.put (.ofBytes [5]) [1]))], List.replicate 12 (.step 0), [.draw 0 1],
    List.replicate 4 (.step 0), [.ret 0 .done]]

def overtakingPut : List Event :=
  List.flatten [[.step 3, .step 3, .call 1 (.write (.put (.ofBytes [7]) [2]))], List.replicate 13 (.step 1),
    [.draw 1 1], List.replicate 2 (.step 1), List.replicate 3 (.step 3)]

theorem iteration_passes_overtakingPut :
    let s₀ := returnedPut.foldl system.next initial
    ∀ e ∈ ([(.ofBytes [5], some [1]), (.ofBytes [7], some [2])] : List (Key × Option Bytes)),
      ∃ u ∈ system.visited (next s₀ (.iterate 3 none)) overtakingPut, lookup e.1 u.contents = some e.2 := by
  have h₀ : Run system (fun _ _ => True) initial returnedPut _ := Allowed.run (by decide +kernel)
  have h : Run system (fun _ e => e.ends 3 = false) (next (returnedPut.foldl system.next initial) (.iterate 3 none))
      overtakingPut _ := Allowed.run (by decide +kernel)
  have hend : (overtakingPut.foldl system.next
      (next (returnedPut.foldl system.next initial) (.iterate 3 none))).pc 3 =
        .ended [(.ofBytes [5], some [1]), (.ofBytes [7], some [2])] := by decide +kernel
  exact (iteration_passes h₀ (by decide +kernel) h hend).2.2.2.1

end LsmTree.ConcurrentMemtable
