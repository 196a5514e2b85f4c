import LsmTree.AtomicObject
import LsmTree.ConcurrentContents
import LsmTree.Engine

/-!
# Threads that share a memtable

`put`, `del`, `get` and the iterator of one memtable run in any number of threads, without
a lock. What a call does besides its call of the list is a step for each atomic access:
the two counters after an insertion, the value after a search, the link and the value that
the iterator comes to.

A write takes effect with the step of the list that writes the contents, which may come
long before `insert` returns. A `get` that finds the key takes effect when it loads the
value; one that does not find it, with the last load of the search, since level 0 has no
node with the key then.
-/

namespace LsmTree.ConcurrentMemtable
open LittleEndian LayeredMap SkipList Transition AtomicObject
open ConcurrentSkipList (ThreadId)

inductive Request where
  | write (op : Op)
  | get (key : Key)

inductive Answer where
  | done
  | value (v : Option (Option Bytes))
  deriving DecidableEq

/-- Where a thread stands: outside; in `insert`, or with its result, about to account for the bytes, then
for the entry; in `find`, or having found the key, about to load its value; in the `find` of `seek`, or
about to load the first link in `begin`; with an iterator on a node, about to load its value or its
link; about to return. -/
inductive Pc where
  | idle
  | inserting (op : Op)
  | charging (op : Op) (result : InsertResult Bytes)
  | counting
  | finding (key : Key)
  | loading (key : Key) (n : ℕ)
  | seeking (start : Key)
  | beginning
  | reading (n : ℕ) (seen : List (Key × Option Bytes))
  | advancing (n : ℕ) (seen : List (Key × Option Bytes))
  | returning (a : Answer)
  | ended (seen : List (Key × Option Bytes))

/-- `current_bytes_` and `count_` are a `size_t` each. -/
structure State where
  list : ConcurrentSkipList.State Key Bytes
  pc : ThreadId → Pc
  currentBytes : ℕ
  count : ℕ

def initial : State := ⟨ConcurrentSkipList.initial, fun _ => .idle, 0, 0⟩

/-- Threads call and return, iterate from `begin()` or from `seek(start)` to `end()`, draw heights and
take steps. -/
inductive Event where
  | call (t : ThreadId) (r : Request)
  | iterate (t : ThreadId) (start : Option Key)
  | draw (t : ThreadId) (height : ℕ)
  | step (t : ThreadId)
  | ret (t : ThreadId) (a : Answer)
  | ended (t : ThreadId) (seen : List (Key × Option Bytes))

def Event.thread : Event → ThreadId
  | call t _ | iterate t _ | draw t _ | step t | ret t _ | ended t _ => t

/-! ### The steps of the source -/

def State.goto (s : State) (t : ThreadId) (p : Pc) : State := { s with pc := Function.update s.pc t p }

/-- What `insert` has returned, if that was the thread's last step in it. -/
def insertReturn (l : ConcurrentSkipList.State Key Bytes) (t : ThreadId) : Option (InsertResult Bytes) :=
  match l.pc t with
  | .idle => l.inserts.head?.map Prod.snd
  | _ => none

/-- What `find` returns in `succs[0]`, if the next step is the thread's last in it. -/
def findReturn (l : ConcurrentSkipList.State Key Bytes) (t : ThreadId) : Option (Option ℕ) :=
  match l.pc t, (ConcurrentSkipList.step l t).pc t with
  | .finding _ _ _ x _, .idle => some (l.list.link x 0)
  | _, _ => none

/-- An iterator on a node, or at the end. -/
def iteratorAt (n : Option ℕ) (seen : List (Key × Option Bytes)) : Pc :=
  match n with
  | some n => .reading n seen
  | none => .ended seen

/-- The next step of a thread that is inside a call. -/
def step (s : State) (t : ThreadId) : State :=
  match s.pc t with
  | .idle | .returning _ | .ended _ => s
  | .inserting op =>
    let l := ConcurrentSkipList.step s.list t
    match insertReturn l t with
    | some result => { s.goto t (.charging op result) with list := l }
    | none => { s with list := l }
  | .charging op result =>
    { s.goto t (if result.inserted then .counting else .returning .done) with
      currentBytes := Memtable.chargedBytes s.currentBytes result op.key op.value }
  | .counting => { s.goto t (.returning .done) with count := (s.count + 1) % 2 ^ 64 }
  | .finding key =>
    let l := ConcurrentSkipList.step s.list t
    match findReturn s.list t with
    | some n =>
      match n.filter fun n => (s.list.list.node n).key = key with
      | some n => { s.goto t (.loading key n) with list := l }
      | none => { s.goto t (.returning (.value none)) with list := l }
    | none => { s with list := l }
  | .loading _ n => s.goto t (.returning (.value (some (s.list.list.node n).value)))
  | .seeking _ =>
    let l := ConcurrentSkipList.step s.list t
    match findReturn s.list t with
    | some n => { s.goto t (iteratorAt n []) with list := l }
    | none => { s with list := l }
  | .beginning => s.goto t (iteratorAt (s.list.list.link 0 0) [])
  | .reading n seen => s.goto t (.advancing n (seen ++ [((s.list.list.node n).key, (s.list.list.node n).value)]))
  | .advancing n seen => s.goto t (iteratorAt (s.list.list.link n 0) seen)

def Enabled (s : State) : Event → Prop
  | .call t _ | .iterate t _ => s.pc t = .idle
  | .draw _ height => 1 ≤ height ∧ height ≤ maxHeight
  | .step _ => True
  | .ret t a => s.pc t = .returning a
  | .ended t seen => s.pc t = .ended seen

def next (s : State) : Event → State
  | .call t (.write op) =>
    { s.goto t (.inserting op) with list := ConcurrentSkipList.next s.list (.insert t op.key op.value) }
  | .call t (.get key) => { s.goto t (.finding key) with list := ConcurrentSkipList.next s.list (.find t key) }
  | .iterate t (some start) =>
    { s.goto t (.seeking start) with list := ConcurrentSkipList.next s.list (.find t start) }
  | .iterate t none => s.goto t .beginning
  | .draw t height => { s with list := ConcurrentSkipList.draw s.list t height }
  | .step t => step s t
  | .ret t _ | .ended t _ => s.goto t .idle

def system : System State Event := ⟨Enabled, next⟩

/-- What a memtable does that one thread uses at a time. -/
def apply (es : List (Key × Option Bytes)) : Request → List (Key × Option Bytes) × Answer
  | .write op => (upsert op.key op.value es, .done)
  | .get key => (es, .value (lookup key es))

/-- Calls and returns of `put`, `del` and `get`. -/
def label : Event → Option (Seen ThreadId Request Answer)
  | .call t r => some (.call t r)
  | .ret t a => some (.ret t a)
  | .iterate _ _ | .draw _ _ | .step _ | .ended _ _ => none

/-! ### Where a call stands in the list -/

def Pc.inList : Pc → Bool
  | inserting _ | finding _ | seeking _ => true
  | _ => false

/-- A thread is in the call of the list that it has made, or in none. A node that it has not published
yet has the value of the call. -/
inductive Matches (l : SkipList Key Bytes) : Pc → ConcurrentSkipList.Pc Key Bytes → Prop
  | outside {p : Pc} (h : p.inList = false) : Matches l p .idle
  | searching (op : Op) (i x : ℕ) (r : ConcurrentSkipList.Neighbours) :
      Matches l (.inserting op) (.finding (.insert op.value) op.key i x r)
  | found (op : Op) (n : ℕ) : Matches l (.inserting op) (.found op.key op.value n)
  | replacing (op : Op) (n : ℕ) (previous : Option Bytes) :
      Matches l (.inserting op) (.replacing op.key op.value n previous)
  | drawing (op : Op) (r : ConcurrentSkipList.Neighbours) : Matches l (.inserting op) (.drawing op.key op.value r)
  | preparing (op : Op) (n height i : ℕ) (r : ConcurrentSkipList.Neighbours) (h : (l.node n).value = op.value) :
      Matches l (.inserting op) (.preparing op.key op.value n height i r)
  | publishing (op : Op) (n height : ℕ) (r : ConcurrentSkipList.Neighbours) (h : (l.node n).value = op.value) :
      Matches l (.inserting op) (.publishing op.key op.value n height r)
  | raising (op : Op) (n height i : ℕ) (r : ConcurrentSkipList.Neighbours) :
      Matches l (.inserting op) (.raising op.key n height i r)
  | linking (op : Op) (n height i : ℕ) (r : ConcurrentSkipList.Neighbours) :
      Matches l (.inserting op) (.linking op.key n height i r)
  | relinking (op : Op) (n height j i x : ℕ) (r : ConcurrentSkipList.Neighbours) :
      Matches l (.inserting op) (.finding (.relink n height j) op.key i x r)
  | finding (key : Key) (before : List Key) (i x : ℕ) (r : ConcurrentSkipList.Neighbours) :
      Matches l (.finding key) (.finding (.find before) key i x r)
  | seeking (start : Key) (before : List Key) (i x : ℕ) (r : ConcurrentSkipList.Neighbours) :
      Matches l (.seeking start) (.finding (.find before) start i x r)

/-- The nodes that a thread comes back to are on level 0. -/
def Stands (l : SkipList Key Bytes) (level : ℕ → List ℕ) : Pc → Prop
  | .loading key n => n ∈ level 0 ∧ (l.node n).key = key
  | .reading n _ | .advancing n _ => n ∈ level 0
  | _ => True

structure Good (s : State) (level : ℕ → List ℕ) : Prop where
  inv : ConcurrentSkipList.Inv s.list level
  calls : ∀ t, Matches s.list.list (s.pc t) (s.list.pc t)
  stands : ∀ t, Stands s.list.list level (s.pc t)

/-- What the other threads can rely on when a thread takes a step in the list. -/
structure Moves (l : ConcurrentSkipList.State Key Bytes) (level : ℕ → List ℕ) (t : ThreadId)
    (l' : ConcurrentSkipList.State Key Bytes) (level' : ℕ → List ℕ) : Prop where
  inv : ConcurrentSkipList.Inv l' level'
  mono : ∀ a ∈ level 0, a ∈ level' 0
  key : ∀ a < l.list.size, (l'.list.node a).key = (l.list.node a).key
  value : ∀ a < l.list.size, a ∉ level 0 → (l'.list.node a).value = (l.list.node a).value
  others : ∀ u, u ≠ t → l'.pc u = l.pc u

section Moving
variable {l : ConcurrentSkipList.State Key Bytes} {level : ℕ → List ℕ} {t : ThreadId}

theorem Moves.refl (h : ConcurrentSkipList.Inv l level) : Moves l level t l level :=
  ⟨h, fun _ ha => ha, fun _ _ => rfl, fun _ _ _ => rfl, fun _ _ => rfl⟩

theorem exists_moves_step (h : ConcurrentSkipList.Inv l level) (t : ThreadId) :
    ∃ level', Moves l level t (ConcurrentSkipList.step l t) level' := by
  obtain ⟨level', hinv, hmono⟩ := ConcurrentSkipList.inv_step h t
  have hnode := fun a => ConcurrentSkipList.node_step l t a
  refine ⟨level', hinv, hmono, fun a _ => (hnode a).1, fun a _ ha => (hnode a).2 fun key value previous hq => ?_,
    fun u hu => ConcurrentSkipList.pc_step_of_ne l hu⟩
  have hp := h.threads t
  rw [hq] at hp
  exact ha hp.1

theorem moves_draw (h : ConcurrentSkipList.Inv l level) (t : ThreadId) {height : ℕ} (hpos : 1 ≤ height)
    (hle : height ≤ maxHeight) : Moves l level t (ConcurrentSkipList.draw l t height) level where
  inv := ConcurrentSkipList.inv_draw h hpos hle
  mono := fun _ ha => ha
  key := fun a ha => by rw [ConcurrentSkipList.node_draw l t height ha]
  value := fun a ha _ => by rw [ConcurrentSkipList.node_draw l t height ha]
  others := fun u hu => ConcurrentSkipList.pc_draw_of_ne l hu height

/-- The thread calls the list. -/
theorem exists_moves_call (h : ConcurrentSkipList.Inv l level) {e : ConcurrentSkipList.Event Key Bytes}
    (he : ConcurrentSkipList.Enabled l e) {q : ConcurrentSkipList.Pc Key Bytes}
    (heq : ConcurrentSkipList.next l e = l.goto t q) : ∃ level', Moves l level t (l.goto t q) level' := by
  obtain ⟨level', hinv, hmono⟩ := ConcurrentSkipList.inv_next h he
  rw [heq] at hinv
  exact ⟨level', hinv, hmono, fun _ _ => rfl, fun _ _ _ => rfl, fun _ hu => Function.update_of_ne hu _ _⟩

end Moving

section Frame
variable {s : State} {level level' : ℕ → List ℕ} {t : ThreadId} {l' : ConcurrentSkipList.State Key Bytes}

theorem Matches.mono {p : Pc} {q : ConcurrentSkipList.Pc Key Bytes} (h : Matches s.list.list p q)
    (hq : ConcurrentSkipList.PcInv s.list.list level q) (hm : Moves s.list level t l' level') :
    Matches l'.list p q := by
  cases h with
  | outside h => exact .outside h
  | searching op i x r => exact .searching op i x r
  | found op n => exact .found op n
  | replacing op n previous => exact .replacing op n previous
  | drawing op r => exact .drawing op r
  | preparing op n height i r hvalue =>
    have hnot : n ∉ level 0 := by
      rw [hq.1.on 0 (by decide)]
      omega
    exact .preparing op n height i r ((hm.value n hq.1.lt_size hnot).trans hvalue)
  | publishing op n height r hvalue =>
    have hnot : n ∉ level 0 := by
      rw [hq.1.on 0 (by decide)]
      omega
    exact .publishing op n height r ((hm.value n hq.1.lt_size hnot).trans hvalue)
  | raising op n height i r => exact .raising op n height i r
  | linking op n height i r => exact .linking op n height i r
  | relinking op n height j i x r => exact .relinking op n height j i x r
  | finding key before i x r => exact .finding key before i x r
  | seeking start before i x r => exact .seeking start before i x r

theorem Stands.mono {p : Pc} (h : Stands s.list.list level p) (hl : s.list.list.Levels level)
    (hm : Moves s.list level t l' level') : Stands l'.list level' p := by
  cases p with
  | loading key n => exact ⟨hm.mono n h.1, (hm.key n (hl.bounds 0 (by decide) n h.1).2.1).trans h.2⟩
  | reading n seen => exact hm.mono n h
  | advancing n seen => exact hm.mono n h
  | idle | inserting _ | charging _ _ | counting | finding _ | seeking _ | beginning | returning _ | ended _ => trivial

/-- A thread moves, and all others find things as they left them. -/
theorem Good.move (h : Good s level) (hm : Moves s.list level t l' level') {p : Pc}
    (hcall : Matches l'.list p (l'.pc t)) (hstand : Stands l'.list level' p) {currentBytes count : ℕ} :
    Good ⟨l', Function.update s.pc t p, currentBytes, count⟩ level' where
  inv := hm.inv
  calls := by
    intro u
    by_cases hut : u = t
    · simp only [hut, Function.update_self]
      exact hcall
    · simp only [Function.update_of_ne hut, hm.others u hut]
      exact (h.calls u).mono (h.inv.threads u) hm
  stands := by
    intro u
    by_cases hut : u = t
    · simp only [hut, Function.update_self]
      exact hstand
    · simp only [Function.update_of_ne hut]
      exact (h.stands u).mono h.inv.levels hm

end Frame

/-! ### What a step does -/

/-- How far a write is: none is made; it has not taken effect; it has, with what `insert` returns for
it; only the entry is still to be counted. -/
inductive Progress where
  | none
  | before (op : Op)
  | after (op : Op) (result : InsertResult Bytes)
  | counting

/-- The node of the thread is on level 0. -/
def linked : ConcurrentSkipList.Pc Key Bytes → Bool
  | .raising _ _ _ _ _ | .linking _ _ _ _ _ | .finding (.relink _ _ _) _ _ _ _ => true
  | _ => false

/-- To draw a height changes nothing that others can see. -/
theorem linked_draw (l : ConcurrentSkipList.State Key Bytes) (t : ThreadId) (height : ℕ) (u : ThreadId) :
    linked ((ConcurrentSkipList.draw l t height).pc u) = linked (l.pc u) := by
  by_cases hut : u = t
  · subst hut
    cases hq : l.pc u with
    | drawing key value r =>
      simp only [ConcurrentSkipList.draw, hq, ConcurrentSkipList.State.goto, Function.update_self, linked]
    | _ => simp only [ConcurrentSkipList.draw, hq]
  · rw [ConcurrentSkipList.pc_draw_of_ne l hut height]

def progress : Pc → ConcurrentSkipList.Pc Key Bytes → Progress
  | .inserting op, q => if linked q then .after op ⟨true, none⟩ else .before op
  | .charging op result, _ => .after op result
  | .counting, _ => .counting
  | _, _ => .none

/-- What `insert` returns for a write that takes effect. -/
inductive Displaces (s : State) (t : ThreadId) (op : Op) : InsertResult Bytes → Prop
  | inserted (h : lookup op.key s.list.list.toList = none) : Displaces s t op ⟨true, none⟩
  | replaced (n : ℕ) (previous : Option Bytes) (h : s.list.pc t = .replacing op.key op.value n previous) :
      Displaces s t op ⟨false, previous⟩

/-- A step in `insert`: the thread stays there or comes back with what `insert` returns; the contents
stay, or the write takes effect. -/
structure InsertStep (s : State) (t : ThreadId) (op : Op) (p : Pc) : Prop where
  eq : step s t = { s.goto t p with list := ConcurrentSkipList.step s.list t }
  calls : Matches (ConcurrentSkipList.step s.list t).list p ((ConcurrentSkipList.step s.list t).pc t)
  place : p = .inserting op ∨ ∃ result, p = .charging op result
  effect : ConcurrentSkipList.writes s.list t = none ∧
        progress p ((ConcurrentSkipList.step s.list t).pc t) = progress (.inserting op) (s.list.pc t) ∨
      ConcurrentSkipList.writes s.list t = some (op.key, op.value) ∧ linked (s.list.pc t) = false ∧
        ∃ result, progress p ((ConcurrentSkipList.step s.list t).pc t) = .after op result ∧ Displaces s t op result

section Inserting
variable {s : State} {level : ℕ → List ℕ} {t : ThreadId} {op : Op}

/-- The thread stays in `insert`. -/
theorem InsertStep.stay (hpc : s.pc t = .inserting op) {q : ConcurrentSkipList.Pc Key Bytes}
    (hq : (ConcurrentSkipList.step s.list t).pc t = q) (hne : q ≠ .idle)
    (hcalls : Matches (ConcurrentSkipList.step s.list t).list (.inserting op) q)
    (heffect : ConcurrentSkipList.writes s.list t = none ∧ linked q = linked (s.list.pc t) ∨
      ConcurrentSkipList.writes s.list t = some (op.key, op.value) ∧ linked (s.list.pc t) = false ∧ linked q = true ∧
        Displaces s t op ⟨true, none⟩) : InsertStep s t op (.inserting op) where
  eq := by
    have hreturn : insertReturn (ConcurrentSkipList.step s.list t) t = none := by
      rw [insertReturn, hq]
      cases q with
      | idle => exact absurd rfl hne
      | _ => rfl
    have hsame : Function.update s.pc t (.inserting op) = s.pc := Function.update_eq_self_iff.mpr hpc.symm
    simp only [step, hpc, hreturn, State.goto, hsame]
  calls := hq ▸ hcalls
  place := .inl rfl
  effect := by
    rcases heffect with ⟨hnone, hsame⟩ | ⟨hwrites, hbefore, hafter, hdisplaces⟩
    · exact .inl ⟨hnone, by simp only [progress, hq, hsame]⟩
    · exact .inr ⟨hwrites, hbefore, _, by simp only [progress, hq, hafter, if_true], hdisplaces⟩

/-- The thread comes back. -/
theorem InsertStep.back (hpc : s.pc t = .inserting op) {result : InsertResult Bytes}
    (hq : (ConcurrentSkipList.step s.list t).pc t = .idle)
    (hresult : (ConcurrentSkipList.step s.list t).inserts.head?.map Prod.snd = some result)
    (heffect : ConcurrentSkipList.writes s.list t = none ∧ linked (s.list.pc t) = true ∧ result = ⟨true, none⟩ ∨
      ConcurrentSkipList.writes s.list t = some (op.key, op.value) ∧ linked (s.list.pc t) = false ∧
        Displaces s t op result) : InsertStep s t op (.charging op result) where
  eq := by
    have hreturn : insertReturn (ConcurrentSkipList.step s.list t) t = some result := by
      simp only [insertReturn, hq, hresult]
    simp only [step, hpc, hreturn]
  calls := by
    rw [hq]
    exact .outside rfl
  place := .inr ⟨result, rfl⟩
  effect := by
    rcases heffect with ⟨hnone, hlinked, rfl⟩ | ⟨hwrites, hbefore, hdisplaces⟩
    · exact .inl ⟨hnone, by simp only [progress, hlinked, if_true]⟩
    · exact .inr ⟨hwrites, hbefore, _, rfl, hdisplaces⟩

/-- The end of the compare-exchange loops: the node is put on another level, or `insert` returns. -/
theorem InsertStep.raise (hpc : s.pc t = .inserting op) {l : ConcurrentSkipList.State Key Bytes} {n height i : ℕ}
    {r : ConcurrentSkipList.Neighbours}
    (hstep : ConcurrentSkipList.step s.list t = ConcurrentSkipList.raise l t op.key n height i r)
    (heffect : ConcurrentSkipList.writes s.list t = none ∧ linked (s.list.pc t) = true ∨
      ConcurrentSkipList.writes s.list t = some (op.key, op.value) ∧ linked (s.list.pc t) = false ∧
        Displaces s t op ⟨true, none⟩) : ∃ p, InsertStep s t op p := by
  by_cases hi : i < height
  · have hq : (ConcurrentSkipList.step s.list t).pc t = .raising op.key n height i r := by
      rw [hstep, ConcurrentSkipList.raise, if_pos hi]
      exact Function.update_self _ _ _
    refine ⟨_, .stay hpc hq (by simp) (.raising op n height i r) ?_⟩
    rcases heffect with ⟨hnone, hlinked⟩ | ⟨hwrites, hbefore, hdisplaces⟩
    · exact .inl ⟨hnone, hlinked.symm⟩
    · exact .inr ⟨hwrites, hbefore, rfl, hdisplaces⟩
  · have hq : (ConcurrentSkipList.step s.list t).pc t = .idle := by
      rw [hstep, ConcurrentSkipList.raise, if_neg hi]
      exact Function.update_self _ _ _
    have hresult : (ConcurrentSkipList.step s.list t).inserts.head?.map Prod.snd = some ⟨true, none⟩ := by
      rw [hstep, ConcurrentSkipList.raise, if_neg hi]
      rfl
    refine ⟨_, .back hpc hq hresult ?_⟩
    rcases heffect with ⟨hnone, hlinked⟩ | ⟨hwrites, hbefore, hdisplaces⟩
    · exact .inl ⟨hnone, hlinked, rfl⟩
    · exact .inr ⟨hwrites, hbefore, hdisplaces⟩

/-- Neighbours on level 0 between which a compare-exchange succeeds have no node of the key between them. -/
theorem lookup_of_around {l : SkipList Key Bytes} (hl : l.Levels level) {key : Key} {p : ℕ × Option ℕ}
    (h : ConcurrentSkipList.Around l level key 0 p) (hcas : l.link p.1 0 = p.2) : lookup key l.toList = none := by
  refine hl.lookup_eq_none fun a ha hkey => ?_
  have hstop : ∀ y ∈ l.link p.1 0, ¬ (l.node y).key < key := fun y hy => ((h.2 y (hcas ▸ hy)).2).asymm
  have hlink := hl.link_eq_of_key (by decide) h.1 hstop ha hkey
  have hlt := (h.2 a (hcas ▸ hlink)).2
  rw [hkey] at hlt
  exact lt_irrefl _ hlt

theorem exists_insertStep (h : Good s level) (hpc : s.pc t = .inserting op) : ∃ p, InsertStep s t op p := by
  have hcall := h.calls t
  have hp := h.inv.threads t
  rw [hpc] at hcall
  cases hq : s.list.pc t with
  | idle =>
    rw [hq] at hcall
    cases hcall with
    | outside h => cases h
  | finding c key i x r =>
    rw [hq] at hcall
    have hstep : ConcurrentSkipList.step s.list t = ConcurrentSkipList.load s.list t c key i x r := by
      simp only [ConcurrentSkipList.step, hq]
    have hwrites : ConcurrentSkipList.writes s.list t = none := by simp only [ConcurrentSkipList.writes, hq]
    rcases ConcurrentSkipList.load_cases s.list t c key i x r with ⟨i', x', r', heq⟩ | ⟨-, -, heq⟩
    · have hq' : (ConcurrentSkipList.step s.list t).pc t = .finding c key i' x' r' := by
        rw [hstep, heq]
        exact Function.update_self _ _ _
      refine ⟨_, .stay hpc hq' (by simp) ?_ (.inl ⟨hwrites, ?_⟩)⟩
      · cases hcall with
        | searching _ _ _ _ => exact .searching op i' x' r'
        | relinking _ n height j _ _ _ => exact .relinking op n height j i' x' r'
      · rw [hq]
        cases c <;> rfl
    · cases hcall with
      | searching _ _ _ _ =>
        simp only [ConcurrentSkipList.finishFind] at heq
        split at heq
        · rename_i n hn
          have hq' : (ConcurrentSkipList.step s.list t).pc t = .found op.key op.value n := by
            rw [hstep, heq]
            exact Function.update_self _ _ _
          exact ⟨_, .stay hpc hq' (by simp) (.found op n) (.inl ⟨hwrites, by rw [hq]; rfl⟩)⟩
        · have hq' : (ConcurrentSkipList.step s.list t).pc t =
              .drawing op.key op.value (Function.update r 0 (x, s.list.list.link x 0)) := by
            rw [hstep, heq]
            exact Function.update_self _ _ _
          exact ⟨_, .stay hpc hq' (by simp) (.drawing op _) (.inl ⟨hwrites, by rw [hq]; rfl⟩)⟩
      | relinking _ n height j _ _ _ =>
        have hq' : (ConcurrentSkipList.step s.list t).pc t =
            .raising op.key n height j (Function.update r 0 (x, s.list.list.link x 0)) := by
          rw [hstep, heq]
          exact Function.update_self _ _ _
        exact ⟨_, .stay hpc hq' (by simp) (.raising op n height j _) (.inl ⟨hwrites, by rw [hq]; rfl⟩)⟩
  | found key value n =>
    rw [hq] at hcall
    cases hcall with
    | found _ _ =>
      have hq' : (ConcurrentSkipList.step s.list t).pc t =
          .replacing op.key op.value n (s.list.list.node n).value := by
        simp only [ConcurrentSkipList.step, hq, ConcurrentSkipList.State.goto, Function.update_self]
      have hwrites : ConcurrentSkipList.writes s.list t = none := by simp only [ConcurrentSkipList.writes, hq]
      exact ⟨_, .stay hpc hq' (by simp) (.replacing op n _) (.inl ⟨hwrites, by rw [hq]; rfl⟩)⟩
  | replacing key value n previous =>
    rw [hq] at hcall
    cases hcall with
    | replacing _ _ _ =>
      have hq' : (ConcurrentSkipList.step s.list t).pc t = .idle := by
        simp only [ConcurrentSkipList.step, hq, ConcurrentSkipList.State.goto, Function.update_self]
      have hresult : (ConcurrentSkipList.step s.list t).inserts.head?.map Prod.snd = some ⟨false, previous⟩ := by
        simp only [ConcurrentSkipList.step, hq, List.head?_cons, Option.map_some]
      refine ⟨_, .back hpc hq' hresult (.inr ⟨?_, by rw [hq]; rfl, .replaced n previous hq⟩)⟩
      simp only [ConcurrentSkipList.writes, hq]
  | drawing key value r =>
    rw [hq] at hcall
    cases hcall with
    | drawing _ _ =>
      have hq' : (ConcurrentSkipList.step s.list t).pc t = .drawing op.key op.value r := by
        simp only [ConcurrentSkipList.step, hq]
      have hwrites : ConcurrentSkipList.writes s.list t = none := by simp only [ConcurrentSkipList.writes, hq]
      exact ⟨_, .stay hpc hq' (by simp) (.drawing op r) (.inl ⟨hwrites, by rw [hq]⟩)⟩
  | preparing key value n height i r =>
    rw [hq] at hcall
    cases hcall with
    | preparing _ _ _ _ _ hvalue =>
      have hwrites : ConcurrentSkipList.writes s.list t = none := by simp only [ConcurrentSkipList.writes, hq]
      have hvalue' : ((ConcurrentSkipList.step s.list t).list.node n).value = op.value := by
        simp only [ConcurrentSkipList.step, hq, ConcurrentSkipList.State.goto, value_store, hvalue]
      by_cases hi : i + 1 < height
      · have hq' : (ConcurrentSkipList.step s.list t).pc t = .preparing op.key op.value n height (i + 1) r := by
          simp only [ConcurrentSkipList.step, hq, ConcurrentSkipList.State.goto, Function.update_self, if_pos hi]
        exact ⟨_, .stay hpc hq' (by simp) (.preparing op n height _ r hvalue') (.inl ⟨hwrites, by rw [hq]; rfl⟩)⟩
      · have hq' : (ConcurrentSkipList.step s.list t).pc t = .publishing op.key op.value n height r := by
          simp only [ConcurrentSkipList.step, hq, ConcurrentSkipList.State.goto, Function.update_self, if_neg hi]
        exact ⟨_, .stay hpc hq' (by simp) (.publishing op n height r hvalue') (.inl ⟨hwrites, by rw [hq]; rfl⟩)⟩
  | publishing key value n height r =>
    rw [hq] at hcall hp
    cases hcall with
    | publishing _ _ _ _ hvalue =>
      by_cases hcas : s.list.list.link (r 0).1 0 = (r 0).2
      · have hstep : ConcurrentSkipList.step s.list t = ConcurrentSkipList.raise
            { s.list with list := s.list.list.store (r 0).1 0 (some n) } t op.key n height 1 r := by
          simp only [ConcurrentSkipList.step, hq, if_pos hcas]
        have hwrites : ConcurrentSkipList.writes s.list t = some (op.key, op.value) := by
          simp only [ConcurrentSkipList.writes, hq, if_pos hcas, hvalue]
        have hnone := lookup_of_around h.inv.levels (hp.2.2.1 0 (by decide)) hcas
        exact InsertStep.raise hpc hstep (.inr ⟨hwrites, by rw [hq]; rfl, .inserted hnone⟩)
      · have hq' : (ConcurrentSkipList.step s.list t).pc t = .finding (.insert op.value) op.key (maxHeight - 1) 0
            (Function.update r 0 ((r 0).1, s.list.list.link (r 0).1 0)) := by
          simp only [ConcurrentSkipList.step, hq, if_neg hcas, ConcurrentSkipList.State.goto,
            ConcurrentSkipList.startFind, Function.update_self]
        have hwrites : ConcurrentSkipList.writes s.list t = none := by
          simp only [ConcurrentSkipList.writes, hq, if_neg hcas]
        exact ⟨_, .stay hpc hq' (by simp) (.searching op _ _ _) (.inl ⟨hwrites, by rw [hq]; rfl⟩)⟩
  | raising key n height i r =>
    rw [hq] at hcall
    cases hcall with
    | raising _ _ _ _ _ =>
      have hq' : (ConcurrentSkipList.step s.list t).pc t = .linking op.key n height i r := by
        simp only [ConcurrentSkipList.step, hq, ConcurrentSkipList.State.goto, Function.update_self]
      have hwrites : ConcurrentSkipList.writes s.list t = none := by simp only [ConcurrentSkipList.writes, hq]
      exact ⟨_, .stay hpc hq' (by simp) (.linking op n height i r) (.inl ⟨hwrites, by rw [hq]; rfl⟩)⟩
  | linking key n height i r =>
    rw [hq] at hcall
    have hwrites : ConcurrentSkipList.writes s.list t = none := by simp only [ConcurrentSkipList.writes, hq]
    cases hcall with
    | linking _ _ _ _ _ =>
      by_cases hcas : s.list.list.link (r i).1 i = (r i).2
      · have hstep : ConcurrentSkipList.step s.list t = ConcurrentSkipList.raise
            { s.list with list := s.list.list.store (r i).1 i (some n) } t op.key n height (i + 1) r := by
          simp only [ConcurrentSkipList.step, hq, if_pos hcas]
        exact InsertStep.raise hpc hstep (.inl ⟨hwrites, by rw [hq]; rfl⟩)
      · have hq' : (ConcurrentSkipList.step s.list t).pc t =
            .finding (.relink n height i) op.key (maxHeight - 1) 0 r := by
          simp only [ConcurrentSkipList.step, hq, if_neg hcas, ConcurrentSkipList.State.goto,
            ConcurrentSkipList.startFind, Function.update_self]
        exact ⟨_, .stay hpc hq' (by simp) (.relinking op n height i _ _ _) (.inl ⟨hwrites, by rw [hq]; rfl⟩)⟩

end Inserting

/-- The first node of level 0 that is not before the key, if there is one. -/
def First (l : SkipList Key Bytes) (level : ℕ → List ℕ) (key : Key) (n : Option ℕ) : Prop :=
  (∀ y ∈ n, y ∈ level 0 ∧ key ≤ (l.node y).key) ∧
    ∀ a ∈ level 0, key ≤ (l.node a).key → ∃ y ∈ n, (l.node y).key ≤ (l.node a).key

section Finding
variable {s : State} {level : ℕ → List ℕ} {t : ThreadId} {key : Key}

/-- A walk on level 0 that stops has come to the first node that is not before the key. -/
theorem first_link {l : SkipList Key Bytes} (hl : l.Levels level) {x : ℕ}
    (hx : x = 0 ∨ x ∈ level 0 ∧ (l.node x).key < key) (hstop : ∀ y ∈ l.link x 0, ¬ (l.node y).key < key) :
    First l level key (l.link x 0) := by
  refine ⟨fun y hy => ⟨hl.mem_of_link (by decide) (hx.imp_right And.left) hy, not_lt.mp (hstop y hy)⟩, ?_⟩
  intro a ha hle
  obtain ⟨as, bs, hsplit, -, hhead, hshape⟩ := (hl.linked 0 (by decide)).split (hx.imp_right And.left)
  have hmem : a ∈ bs := by
    rw [hsplit] at ha
    refine (List.mem_append.mp ha).resolve_left fun has => ?_
    exact absurd (hl.lt_of_split (by decide) hsplit hshape hx a has) (not_lt.mpr hle)
  cases bs with
  | nil => cases hmem
  | cons y ys =>
    refine ⟨y, hhead, ?_⟩
    rcases List.mem_cons.mp hmem with rfl | hys
    · exact le_refl _
    · have hsorted := hl.sorted 0 (by decide)
      rw [hsplit, List.pairwise_append] at hsorted
      exact ((List.pairwise_cons.mp hsorted.2.1).1 a hys).le

/-- A node with the key is the first one that is not before it. -/
theorem First.filter_eq {l : SkipList Key Bytes} {n : Option ℕ} (h : First l level key n) (hl : l.Levels level) {a : ℕ}
    (ha : a ∈ level 0) (hkey : (l.node a).key = key) : n.filter (fun y => (l.node y).key = key) = some a := by
  obtain ⟨y, hy, hle⟩ := h.2 a ha hkey.ge
  obtain ⟨hmem, hge⟩ := h.1 y hy
  have heq := hl.eq_of_key_eq (by decide) hmem ha (le_antisymm hle (hkey.trans_le hge))
  cases hy
  rw [heq]
  simp [hkey]

/-- A load of `find` called from outside goes on, or `find` returns. -/
theorem find_cases (h : Good s level) {before : List Key} {i x : ℕ} {r : ConcurrentSkipList.Neighbours}
    (hq : s.list.pc t = .finding (.find before) key i x r) :
    (findReturn s.list t = none ∧
        ∃ i' x' r', (ConcurrentSkipList.step s.list t).pc t = .finding (.find before) key i' x' r') ∨
      ∃ n, findReturn s.list t = some n ∧ (ConcurrentSkipList.step s.list t).pc t = .idle ∧
        First s.list.list level key n := by
  have hp := h.inv.threads t
  rw [hq] at hp
  have hstep : ConcurrentSkipList.step s.list t = ConcurrentSkipList.load s.list t (.find before) key i x r := by
    simp only [ConcurrentSkipList.step, hq]
  rcases ConcurrentSkipList.load_cases s.list t (.find before) key i x r with ⟨i', x', r', heq⟩ | ⟨rfl, hstop, heq⟩
  · have hq' : (ConcurrentSkipList.step s.list t).pc t = .finding (.find before) key i' x' r' := by
      rw [hstep, heq]
      exact Function.update_self _ _ _
    exact .inl ⟨by simp only [findReturn, hq, hq'], i', x', r', hq'⟩
  · have hq' : (ConcurrentSkipList.step s.list t).pc t = .idle := by
      rw [hstep, heq]
      exact Function.update_self _ _ _
    exact .inr ⟨_, by simp only [findReturn, hq, hq'], hq', first_link h.inv.levels hp.2.2.1 hstop⟩

end Finding

/-! ### Every step keeps the threads where they stand -/

section Keeping
variable {s : State} {level : ℕ → List ℕ} {t : ThreadId}

/-- Where an iterator comes to. -/
theorem stands_iteratorAt {l : SkipList Key Bytes} {n : Option ℕ} (h : ∀ y ∈ n, y ∈ level 0)
    (seen : List (Key × Option Bytes)) : Stands l level (iteratorAt n seen) := by
  cases n with
  | none => trivial
  | some n => exact h n rfl

theorem matches_iteratorAt (l : SkipList Key Bytes) (n : Option ℕ) (seen : List (Key × Option Bytes)) :
    Matches l (iteratorAt n seen) .idle := by
  cases n with
  | none => exact .outside rfl
  | some n => exact .outside rfl

/-- A thread that is in no call of the list is in none of its steps. -/
theorem Good.outside (h : Good s level) (hpc : (s.pc t).inList = false) : s.list.pc t = .idle := by
  have hcall := h.calls t
  cases hq : s.list.pc t with
  | idle => rfl
  | _ =>
    rw [hq] at hcall
    cases hp : s.pc t <;> rw [hp] at hcall hpc <;> cases hcall <;> cases hpc

/-- A thread moves outside of the list. -/
theorem Good.goto (h : Good s level) {p : Pc} (hpc : (s.pc t).inList = false) (hp : p.inList = false)
    (hstand : Stands s.list.list level p) {currentBytes count : ℕ} :
    Good ⟨s.list, Function.update s.pc t p, currentBytes, count⟩ level := by
  refine h.move (.refl h.inv) ?_ hstand
  rw [h.outside hpc]
  exact .outside hp

/-- A thread moves with a load of `find`. -/
theorem Good.find (h : Good s level) {key : Key} {before : List Key} {i x : ℕ} {r : ConcurrentSkipList.Neighbours}
    (hq : s.list.pc t = .finding (.find before) key i x r) {p : Pc}
    (hcall : Matches s.list.list p ((ConcurrentSkipList.step s.list t).pc t)) (hstand : Stands s.list.list level p) :
    Good { s.goto t p with list := ConcurrentSkipList.step s.list t } level ∧
      Moves s.list level t (ConcurrentSkipList.step s.list t) level := by
  have hstep : ConcurrentSkipList.step s.list t = ConcurrentSkipList.load s.list t (.find before) key i x r := by
    simp only [ConcurrentSkipList.step, hq]
  obtain ⟨hlist, hothers⟩ := ConcurrentSkipList.load_eq s.list t (.find before) key i x r
  have hm : Moves s.list level t (ConcurrentSkipList.step s.list t) level := by
    rw [hstep]
    refine ⟨ConcurrentSkipList.inv_load h.inv hq, fun _ ha => ha, ?_, ?_, hothers⟩
    · exact fun a _ => by rw [hlist]
    · exact fun a _ _ => by rw [hlist]
  rw [← hstep] at hlist
  exact ⟨h.move hm (hlist ▸ hcall) (hlist ▸ hstand), hm⟩

theorem Matches.of_finding {l : SkipList Key Bytes} {key : Key} {q : ConcurrentSkipList.Pc Key Bytes}
    (h : Matches l (.finding key) q) : ∃ before i x r, q = .finding (.find before) key i x r := by
  cases h with
  | outside h => cases h
  | finding _ before i x r => exact ⟨before, i, x, r, rfl⟩

theorem Matches.of_seeking {l : SkipList Key Bytes} {start : Key} {q : ConcurrentSkipList.Pc Key Bytes}
    (h : Matches l (.seeking start) q) : ∃ before i x r, q = .finding (.find before) start i x r := by
  cases h with
  | outside h => cases h
  | seeking _ before i x r => exact ⟨before, i, x, r, rfl⟩

theorem good_insert (h : Good s level) {op : Op} (hpc : s.pc t = .inserting op) :
    ∃ level', Good (step s t) level' ∧ Moves s.list level t (step s t).list level' := by
  obtain ⟨p, hinsert⟩ := exists_insertStep h hpc
  obtain ⟨level', hm⟩ := exists_moves_step h.inv t
  have hstand : Stands (ConcurrentSkipList.step s.list t).list level' p := by
    rcases hinsert.place with rfl | ⟨result, rfl⟩
    · trivial
    · trivial
  rw [hinsert.eq]
  exact ⟨level', h.move hm hinsert.calls hstand, hm⟩

theorem good_find (h : Good s level) {key : Key} (hpc : s.pc t = .finding key) :
    Good (step s t) level ∧ Moves s.list level t (step s t).list level := by
  have hcall := h.calls t
  rw [hpc] at hcall
  obtain ⟨before, i, x, r, hq⟩ := hcall.of_finding
  rcases find_cases h hq with ⟨hreturn, i', x', r', hq'⟩ | ⟨n, hreturn, hq', hfirst⟩
  · have hstay : step s t = { s.goto t (.finding key) with list := ConcurrentSkipList.step s.list t } := by
      have hsame : Function.update s.pc t (.finding key) = s.pc := Function.update_eq_self_iff.mpr hpc.symm
      simp only [step, hpc, hreturn, State.goto, hsame]
    rw [hstay]
    exact h.find hq (hq' ▸ .finding key before i' x' r') trivial
  · cases hfilter : n.filter (fun n => (s.list.list.node n).key = key) with
    | some y =>
      have hback : step s t = { s.goto t (.loading key y) with list := ConcurrentSkipList.step s.list t } := by
        simp only [step, hpc, hreturn, hfilter]
      obtain ⟨hy, hkey⟩ := Option.filter_eq_some_iff.mp hfilter
      rw [hback]
      exact h.find hq (hq' ▸ .outside rfl) ⟨(hfirst.1 y hy).1, by simpa using hkey⟩
    | none =>
      have hback : step s t =
          { s.goto t (.returning (.value none)) with list := ConcurrentSkipList.step s.list t } := by
        simp only [step, hpc, hreturn, hfilter]
      rw [hback]
      exact h.find hq (hq' ▸ .outside rfl) trivial

theorem good_seek (h : Good s level) {start : Key} (hpc : s.pc t = .seeking start) :
    Good (step s t) level ∧ Moves s.list level t (step s t).list level := by
  have hcall := h.calls t
  rw [hpc] at hcall
  obtain ⟨before, i, x, r, hq⟩ := hcall.of_seeking
  rcases find_cases h hq with ⟨hreturn, i', x', r', hq'⟩ | ⟨n, hreturn, hq', hfirst⟩
  · have hstay : step s t = { s.goto t (.seeking start) with list := ConcurrentSkipList.step s.list t } := by
      have hsame : Function.update s.pc t (.seeking start) = s.pc := Function.update_eq_self_iff.mpr hpc.symm
      simp only [step, hpc, hreturn, State.goto, hsame]
    rw [hstay]
    exact h.find hq (hq' ▸ .seeking start before i' x' r') trivial
  · have hback : step s t = { s.goto t (iteratorAt n []) with list := ConcurrentSkipList.step s.list t } := by
      simp only [step, hpc, hreturn]
    rw [hback]
    exact h.find hq (hq' ▸ matches_iteratorAt _ n []) (stands_iteratorAt (fun y hy => (hfirst.1 y hy).1) [])

/-- One step keeps what is known of all threads. -/
theorem good_step (h : Good s level) (t : ThreadId) :
    ∃ level', Good (step s t) level' ∧ Moves s.list level t (step s t).list level' := by
  have hstay : s = step s t → ∃ level', Good (step s t) level' ∧ Moves s.list level t (step s t).list level' :=
    fun heq => ⟨level, heq ▸ h, heq ▸ .refl h.inv⟩
  -- A step outside of the list.
  have hgoto : ∀ (p : Pc) (bytes count : ℕ), (s.pc t).inList = false → p.inList = false →
      Stands s.list.list level p → step s t = ⟨s.list, Function.update s.pc t p, bytes, count⟩ →
      ∃ level', Good (step s t) level' ∧ Moves s.list level t (step s t).list level' := by
    intro p bytes count hpc hp hstand heq
    rw [heq]
    exact ⟨level, h.goto hpc hp hstand, .refl h.inv⟩
  have hstand := h.stands t
  have hiterator : ∀ (n : Option ℕ) (seen : List (Key × Option Bytes)), (iteratorAt n seen).inList = false := by
    intro n seen
    cases n <;> rfl
  cases hpc : s.pc t with
  | idle => exact hstay (by simp only [step, hpc])
  | returning a => exact hstay (by simp only [step, hpc])
  | ended seen => exact hstay (by simp only [step, hpc])
  | inserting op => exact good_insert h hpc
  | finding key => exact ⟨level, good_find h hpc⟩
  | seeking start => exact ⟨level, good_seek h hpc⟩
  | charging op result =>
    refine hgoto (if result.inserted then .counting else .returning .done)
      (Memtable.chargedBytes s.currentBytes result op.key op.value) s.count (by rw [hpc]; rfl) ?_ ?_
      (by simp only [step, hpc, State.goto])
    · split_ifs
      · rfl
      · rfl
    · split_ifs
      · trivial
      · trivial
  | counting =>
    exact hgoto (.returning .done) s.currentBytes ((s.count + 1) % 2 ^ 64) (by rw [hpc]; rfl) rfl trivial
      (by simp only [step, hpc, State.goto])
  | loading key n =>
    exact hgoto (.returning (.value (some (s.list.list.node n).value))) s.currentBytes s.count (by rw [hpc]; rfl) rfl
      trivial (by simp only [step, hpc, State.goto])
  | beginning =>
    refine hgoto (iteratorAt (s.list.list.link 0 0) []) s.currentBytes s.count (by rw [hpc]; rfl) (hiterator _ _)
      (stands_iteratorAt ?_ []) (by simp only [step, hpc, State.goto])
    exact fun y hy => h.inv.levels.mem_of_link (by decide) (.inl rfl) hy
  | reading n seen =>
    rw [hpc] at hstand
    exact hgoto (.advancing n (seen ++ [((s.list.list.node n).key, (s.list.list.node n).value)])) s.currentBytes s.count
      (by rw [hpc]; rfl) rfl hstand (by simp only [step, hpc, State.goto])
  | advancing n seen =>
    rw [hpc] at hstand
    refine hgoto (iteratorAt (s.list.list.link n 0) seen) s.currentBytes s.count (by rw [hpc]; rfl) (hiterator _ _)
      (stands_iteratorAt ?_ seen) (by simp only [step, hpc, State.goto])
    exact fun y hy => h.inv.levels.mem_of_link (by decide) (.inr hstand) hy

/-- A thread that is outside calls the list. -/
theorem Good.call (h : Good s level) {e : ConcurrentSkipList.Event Key Bytes} (he : ConcurrentSkipList.Enabled s.list e)
    {q : ConcurrentSkipList.Pc Key Bytes} (heq : ConcurrentSkipList.next s.list e = s.list.goto t q) {p : Pc}
    (hcall : Matches s.list.list p q) (hstand : ∀ level', Stands s.list.list level' p) :
    ∃ level', Good { s.goto t p with list := ConcurrentSkipList.next s.list e } level' ∧
      Moves s.list level t (ConcurrentSkipList.next s.list e) level' := by
  obtain ⟨level', hm⟩ := exists_moves_call h.inv he heq
  rw [heq]
  refine ⟨level', h.move hm ?_ (hstand level'), hm⟩
  simp only [ConcurrentSkipList.State.goto, Function.update_self]
  exact hcall

theorem Matches.of_drawing {l : SkipList Key Bytes} {p : Pc} {key : Key} {value : Option Bytes}
    {r : ConcurrentSkipList.Neighbours} (h : Matches l p (.drawing key value r)) :
    ∃ op, p = .inserting op ∧ key = op.key ∧ value = op.value := by
  cases h with
  | drawing op _ => exact ⟨op, rfl, rfl, rfl⟩

theorem good_draw (h : Good s level) {height : ℕ} (hpos : 1 ≤ height) (hle : height ≤ maxHeight) :
    Good { s with list := ConcurrentSkipList.draw s.list t height } level := by
  have hm := moves_draw h.inv t hpos hle
  have hsame : Function.update s.pc t (s.pc t) = s.pc := Function.update_eq_self t s.pc
  have hstand : Stands (ConcurrentSkipList.draw s.list t height).list level (s.pc t) := (h.stands t).mono h.inv.levels hm
  have hcall : Matches (ConcurrentSkipList.draw s.list t height).list (s.pc t)
      ((ConcurrentSkipList.draw s.list t height).pc t) := by
    have hold := h.calls t
    simp only [ConcurrentSkipList.draw]
    split
    · rename_i key value r hq
      rw [hq] at hold
      obtain ⟨op, hp, rfl, rfl⟩ := hold.of_drawing
      have hvalue : ((s.list.list.create op.key op.value height).node s.list.list.size).value = op.value := by
        simp [SkipList.create]
      simp only [ConcurrentSkipList.State.goto, Function.update_self, hp]
      exact .preparing op _ _ _ _ hvalue
    · exact hold
  have hgood : Good ⟨ConcurrentSkipList.draw s.list t height, Function.update s.pc t (s.pc t), s.currentBytes, s.count⟩
      level := h.move hm hcall hstand
  rwa [hsame] at hgood

/-- What is known of all threads stays true whatever happens. -/
theorem good_next (h : Good s level) {e : Event} (he : Enabled s e) :
    ∃ level', Good (next s e) level' ∧ Moves s.list level e.thread (next s e).list level' := by
  have hidle : ∀ t p, s.pc t = p → p.inList = false → s.list.pc t = .idle := by
    rintro t p rfl hp
    exact h.outside hp
  cases e with
  | call t r =>
    have hq := hidle t .idle he rfl
    cases r with
    | write op => exact h.call (e := .insert t op.key op.value) hq rfl (.searching op _ _ _) fun _ => trivial
    | get key => exact h.call (e := .find t key) hq rfl (.finding key _ _ _ _) fun _ => trivial
  | iterate t start =>
    have hq := hidle t .idle he rfl
    cases start with
    | none =>
      have hout : (s.pc t).inList = false := by
        rw [show s.pc t = .idle from he]
        rfl
      exact ⟨level, h.goto (p := .beginning) hout rfl trivial, .refl h.inv⟩
    | some start => exact h.call (e := .find t start) hq rfl (.seeking start _ _ _ _) fun _ => trivial
  | draw t height => exact ⟨level, good_draw h he.1 he.2, moves_draw h.inv t he.1 he.2⟩
  | step t => exact good_step h t
  | ret t a =>
    have hout : (s.pc t).inList = false := by
      rw [show s.pc t = .returning a from he]
      rfl
    exact ⟨level, h.goto (p := .idle) hout rfl trivial, .refl h.inv⟩
  | ended t seen =>
    have hout : (s.pc t).inList = false := by
      rw [show s.pc t = .ended seen from he]
      rfl
    exact ⟨level, h.goto (p := .idle) hout rfl trivial, .refl h.inv⟩

theorem pc_step_of_ne (s : State) {t u : ThreadId} (hu : u ≠ t) : (step s t).pc u = s.pc u := by
  have hgoto : ∀ p, (s.goto t p).pc u = s.pc u := by
    intro p
    exact Function.update_of_ne hu _ _
  cases hpc : s.pc t with
  | idle | returning _ | ended _ => simp only [step, hpc]
  | charging _ _ | counting | loading _ _ | beginning | reading _ _ | advancing _ _ =>
    simp only [step, hpc]
    exact hgoto _
  | inserting op =>
    simp only [step, hpc]
    split
    · exact hgoto _
    · rfl
  | seeking start =>
    simp only [step, hpc]
    split
    · exact hgoto _
    · rfl
  | finding key =>
    simp only [step, hpc]
    split
    · split
      · exact hgoto _
      · exact hgoto _
    · rfl

theorem pc_next_of_ne (s : State) (e : Event) {u : ThreadId} (hu : u ≠ e.thread) : (next s e).pc u = s.pc u := by
  cases e with
  | call t r =>
    cases r with
    | write op => exact Function.update_of_ne hu _ _
    | get key => exact Function.update_of_ne hu _ _
  | iterate t start =>
    cases start with
    | none => exact Function.update_of_ne hu _ _
    | some start => exact Function.update_of_ne hu _ _
  | draw t height => rfl
  | step t => exact pc_step_of_ne s hu
  | ret t a => exact Function.update_of_ne hu _ _
  | ended t seen => exact Function.update_of_ne hu _ _

theorem good_initial : Good initial fun _ => [] where
  inv := ConcurrentSkipList.inv_initial
  calls := fun _ => .outside rfl
  stands := fun _ => trivial

end Keeping

end LsmTree.ConcurrentMemtable
