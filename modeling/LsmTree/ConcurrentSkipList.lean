import LsmTree.SkipListLevels
import LsmTree.Transition

/-!
# Inserting into the skip list from many threads

Every atomic load, store and compare-exchange of `insert` and `find` is a step of its own,
and the steps of the threads interleave in any order. Keys and heights are written before
a node is published and never again, so reading them is part of the step that uses them.

A thread may rely on what it has read although it may be out of date: nodes are never
taken off a level, so a predecessor is still on its level and a successor is still larger.
Whether the two are still neighbours is what the compare-exchange finds out. A node is
put on the levels from the bottom up, and only by the thread that has created it; so when
that thread searches again it can meet its own node below the level it has come to, but no
node with the key there or above.
-/

namespace LsmTree.ConcurrentSkipList
open SkipList Transition

variable {K V : Type*}

abbrev ThreadId := ℕ

/-- `preds` and `succs`, for every level. -/
abbrev Neighbours := ℕ → ℕ × Option ℕ

/-- Where `find` returns to: a caller from outside, the head of the loop of `insert`, or the loop that
links the node `n` on level `i`. A caller from outside is given with the keys whose insertion had
returned when it called, which are not in the source. -/
inductive Caller (K V : Type*) where
  | find (before : List K)
  | insert (value : Option V)
  | relink (n height i : ℕ)

/-- Where a thread stands: outside; in `find`, about to load the link of `x` on level `i`; having found
the key, about to load or to store its value; not having found it, about to create the node, to store
its link on level `i`, to publish it on level 0; about to store its link on level `i` again, or to
link it there. -/
inductive Pc (K V : Type*) where
  | idle
  | finding (c : Caller K V) (key : K) (i x : ℕ) (r : Neighbours)
  | found (key : K) (value : Option V) (n : ℕ)
  | replacing (key : K) (value : Option V) (n : ℕ) (previous : Option V)
  | drawing (key : K) (value : Option V) (r : Neighbours)
  | preparing (key : K) (value : Option V) (n height i : ℕ) (r : Neighbours)
  | publishing (key : K) (value : Option V) (n height : ℕ) (r : Neighbours)
  | raising (key : K) (n height i : ℕ) (r : Neighbours)
  | linking (key : K) (n height i : ℕ) (r : Neighbours)

/-- A call of `find` that has returned. -/
structure FindRecord (K : Type*) where
  key : K
  before : List K
  found : Bool

/-- The list and the threads. The last two components record the calls that have returned. -/
structure State (K V : Type*) where
  list : SkipList K V
  pc : ThreadId → Pc K V
  inserts : List (K × InsertResult V)
  finds : List (FindRecord K)

/-- A list with only its head. -/
def initial [Inhabited K] : State K V := ⟨.empty, fun _ => .idle, [], []⟩

inductive Event (K V : Type*) where
  | find (t : ThreadId) (key : K)
  | insert (t : ThreadId) (key : K) (value : Option V)
  | draw (t : ThreadId) (height : ℕ)
  | step (t : ThreadId)

/-! ### The steps of the source -/

def State.goto (s : State K V) (t : ThreadId) (p : Pc K V) : State K V :=
  { s with pc := Function.update s.pc t p }

/-- The call of `find` that begins at the head on the top level. -/
def startFind (c : Caller K V) (key : K) (r : Neighbours) : Pc K V := .finding c key (maxHeight - 1) 0 r

section Steps
variable [LinearOrder K]

/-- `find` has come to its end. -/
def finishFind (s : State K V) (t : ThreadId) (c : Caller K V) (key : K) (r : Neighbours) : State K V :=
  let hit := (r 0).2.filter fun n => (s.list.node n).key = key
  match c with
  | .find before => { s.goto t .idle with finds := ⟨key, before, hit.isSome⟩ :: s.finds }
  | .insert value =>
    match hit with
    | some n => s.goto t (.found key value n)
    | none => s.goto t (.drawing key value r)
  | .relink n height i => s.goto t (.raising key n height i r)

/-- The walk on level `i` ends at `x`. -/
def endLevel (s : State K V) (t : ThreadId) (c : Caller K V) (key : K) (i x : ℕ) (r : Neighbours) : State K V :=
  let r := Function.update r i (x, s.list.link x i)
  match i with
  | 0 => finishFind s t c key r
  | i + 1 => s.goto t (.finding c key i x r)

/-- A load of `find`. -/
def load (s : State K V) (t : ThreadId) (c : Caller K V) (key : K) (i x : ℕ) (r : Neighbours) : State K V :=
  match s.list.link x i with
  | some n =>
    if (s.list.node n).key < key then s.goto t (.finding c key i n r) else endLevel s t c key i x r
  | none => endLevel s t c key i x r

/-- The node is linked below level `i`; `insert` returns if this is its height. -/
def raise (s : State K V) (t : ThreadId) (key : K) (n height i : ℕ) (r : Neighbours) : State K V :=
  if i < height then s.goto t (.raising key n height i r)
  else { s.goto t .idle with inserts := (key, ⟨true, none⟩) :: s.inserts }

/-- The next step of a thread that is inside a call. A level 0 compare-exchange that fails writes what
it has found to `succs[0]`, and everything begins again with another node. -/
def step (s : State K V) (t : ThreadId) : State K V :=
  match s.pc t with
  | .idle | .drawing _ _ _ => s
  | .finding c key i x r => load s t c key i x r
  | .found key value n => s.goto t (.replacing key value n (s.list.node n).value)
  | .replacing key value n previous =>
    { s.goto t .idle with
      list := s.list.setValue n value
      inserts := (key, ⟨false, previous⟩) :: s.inserts }
  | .preparing key value n height i r =>
    { s with list := s.list.store n i (r i).2 }.goto t
      (if i + 1 < height then .preparing key value n height (i + 1) r else .publishing key value n height r)
  | .publishing key value n height r =>
    if s.list.link (r 0).1 0 = (r 0).2 then
      raise { s with list := s.list.store (r 0).1 0 (some n) } t key n height 1 r
    else
      s.goto t (startFind (.insert value) key (Function.update r 0 ((r 0).1, s.list.link (r 0).1 0)))
  | .raising key n height i r =>
    { s with list := s.list.store n i (r i).2 }.goto t (.linking key n height i r)
  | .linking key n height i r =>
    if s.list.link (r i).1 i = (r i).2 then
      raise { s with list := s.list.store (r i).1 i (some n) } t key n height (i + 1) r
    else s.goto t (startFind (.relink n height i) key r)

/-- `randomHeight` and `Node::create`. -/
def draw (s : State K V) (t : ThreadId) (height : ℕ) : State K V :=
  match s.pc t with
  | .drawing key value r =>
    { s with list := s.list.create key value height }.goto t (.preparing key value s.list.size height 0 r)
  | _ => s

def Enabled (s : State K V) : Event K V → Prop
  | .find t _ | .insert t _ _ => s.pc t = .idle
  | .draw _ height => 1 ≤ height ∧ height ≤ maxHeight
  | .step _ => True

def next (s : State K V) : Event K V → State K V
  | .find t key => s.goto t (startFind (.find (s.inserts.map Prod.fst)) key fun _ => (0, none))
  | .insert t key value => s.goto t (startFind (.insert value) key fun _ => (0, none))
  | .draw t height => draw s t height
  | .step t => step s t

def system : System (State K V) (Event K V) := ⟨Enabled, next⟩

end Steps

/-! ### What a thread relies on -/

/-- The node `n` has the key and the height, and is on the levels below `i` only. -/
structure Owns (l : SkipList K V) (level : ℕ → List ℕ) (key : K) (n height i : ℕ) : Prop where
  pos : 0 < n
  lt_size : n < l.size
  key_eq : (l.node n).key = key
  height_eq : (l.node n).height = height
  height_le : height ≤ maxHeight
  on : ∀ j < maxHeight, n ∈ level j ↔ j < i

section Owns
variable {own : Option ℕ} {l l' : SkipList K V} {level level' : ℕ → List ℕ} {key : K} {n height i : ℕ}

theorem Owns.mono (h : Owns l level key n height i) (hg : Grows own l level l' level')
    (hown : own ≠ some n) : Owns l' level' key n height i where
  pos := h.pos
  lt_size := Nat.lt_of_lt_of_le h.lt_size hg.size_le
  key_eq := (hg.key n h.lt_size).trans h.key_eq
  height_eq := (hg.height n h.lt_size).trans h.height_eq
  height_le := h.height_le
  on := by
    intro j hj
    rw [← h.on j hj]
    constructor
    · intro hmem
      by_contra hnot
      exact (hg.others n j hown h.pos h.lt_size hnot).1 hmem
    · exact hg.mono j n

/-- The link of a node stays as long as it is not on the level. -/
theorem Owns.link_eq {j : ℕ} (h : Owns l level key n height i) (hg : Grows own l level l' level')
    (hown : own ≠ some n) (hij : i ≤ j) (hj : j < maxHeight) : l'.link n j = l.link n j := by
  have hnot : n ∉ level j := by
    rw [h.on j hj]
    omega
  exact (hg.others n j hown h.pos h.lt_size hnot).2

end Owns

section Invariant
variable [LinearOrder K]

/-- The node is before the key on level `i`. -/
def Before (l : SkipList K V) (level : ℕ → List ℕ) (key : K) (i x : ℕ) : Prop :=
  x = 0 ∨ x ∈ level i ∧ (l.node x).key < key

/-- Neighbours as `find` records them. -/
def Reached (l : SkipList K V) (level : ℕ → List ℕ) (key : K) (i : ℕ) (p : ℕ × Option ℕ) : Prop :=
  Before l level key i p.1 ∧ ∀ y ∈ p.2, y ∈ level i ∧ ¬ (l.node y).key < key

/-- Neighbours between which the key is missing. -/
def Around (l : SkipList K V) (level : ℕ → List ℕ) (key : K) (i : ℕ) (p : ℕ × Option ℕ) : Prop :=
  Before l level key i p.1 ∧ ∀ y ∈ p.2, y ∈ level i ∧ key < (l.node y).key

def CallerInv (l : SkipList K V) (level : ℕ → List ℕ) (key : K) : Caller K V → Prop
  | .find before => key ∈ before → ∃ a ∈ level 0, (l.node a).key = key
  | .insert _ => True
  | .relink n height i => Owns l level key n height i ∧ 1 ≤ i ∧ i < height

def PcInv (l : SkipList K V) (level : ℕ → List ℕ) : Pc K V → Prop
  | .idle => True
  | .finding c key i x r => CallerInv l level key c ∧ i < maxHeight ∧ Before l level key i x ∧
      ∀ j, i < j → j < maxHeight → Reached l level key j (r j)
  | .found key _ n | .replacing key _ n _ => n ∈ level 0 ∧ (l.node n).key = key
  | .drawing key _ r => ∀ j < maxHeight, Around l level key j (r j)
  | .preparing key _ n height i r => Owns l level key n height 0 ∧ i < height ∧
      (∀ j < maxHeight, Around l level key j (r j)) ∧ ∀ j < i, l.link n j = (r j).2
  | .publishing key _ n height r => Owns l level key n height 0 ∧ 0 < height ∧
      (∀ j < maxHeight, Around l level key j (r j)) ∧ l.link n 0 = (r 0).2
  | .raising key n height i r => Owns l level key n height i ∧ 1 ≤ i ∧ i < height ∧
      ∀ j, i ≤ j → j < maxHeight → Around l level key j (r j)
  | .linking key n height i r => Owns l level key n height i ∧ 1 ≤ i ∧ i < height ∧
      (∀ j, i ≤ j → j < maxHeight → Around l level key j (r j)) ∧ l.link n i = (r i).2

/-- The node that the thread is about to link. -/
def owned : Pc K V → Option ℕ
  | .preparing _ _ n _ _ _ | .publishing _ _ n _ _ | .raising _ n _ _ _ | .linking _ n _ _ _
  | .finding (.relink n _ _) _ _ _ _ => some n
  | .idle | .finding (.find _) _ _ _ _ | .finding (.insert _) _ _ _ _ | .found _ _ _ | .replacing _ _ _ _
  | .drawing _ _ _ => none

section Mono
variable {own : Option ℕ} {l l' : SkipList K V} {level level' : ℕ → List ℕ} {key : K} {i : ℕ}

/-- A node stays on its levels, with its key. -/
theorem stays (hl : l.Levels level) (hg : Grows own l level l' level') (hi : i < maxHeight) {x : ℕ}
    (hx : x ∈ level i) : x ∈ level' i ∧ (l'.node x).key = (l.node x).key :=
  ⟨hg.mono i x hx, hg.key x (hl.bounds i hi x hx).2.1⟩

/-- So what is known of its key stays true. -/
theorem stays_with (hl : l.Levels level) (hg : Grows own l level l' level') (hi : i < maxHeight) {P : K → Prop} {x : ℕ}
    (hx : x ∈ level i ∧ P (l.node x).key) : x ∈ level' i ∧ P (l'.node x).key := by
  obtain ⟨hmem, hkey⟩ := stays hl hg hi hx.1
  exact ⟨hmem, hkey ▸ hx.2⟩

theorem Before.mono {x : ℕ} (h : Before l level key i x) (hl : l.Levels level) (hg : Grows own l level l' level')
    (hi : i < maxHeight) : Before l' level' key i x := by
  rcases h with hzero | ⟨hmem, hlt⟩
  · exact .inl hzero
  · exact .inr (stays_with (P := (· < key)) hl hg hi ⟨hmem, hlt⟩)

theorem Reached.mono {p : ℕ × Option ℕ} (h : Reached l level key i p) (hl : l.Levels level)
    (hg : Grows own l level l' level') (hi : i < maxHeight) : Reached l' level' key i p := by
  refine ⟨h.1.mono hl hg hi, ?_⟩
  intro y hy
  exact stays_with (P := (¬ · < key)) hl hg hi (h.2 y hy)

theorem Around.mono {p : ℕ × Option ℕ} (h : Around l level key i p) (hl : l.Levels level)
    (hg : Grows own l level l' level') (hi : i < maxHeight) : Around l' level' key i p := by
  refine ⟨h.1.mono hl hg hi, ?_⟩
  intro y hy
  exact stays_with (P := (key < ·)) hl hg hi (h.2 y hy)

theorem exists_key_mono (hl : l.Levels level) (hg : Grows own l level l' level')
    (h : ∃ a ∈ level 0, (l.node a).key = key) : ∃ a ∈ level' 0, (l'.node a).key = key := by
  obtain ⟨a, ha, hkey⟩ := h
  obtain ⟨ha', hsame⟩ := stays hl hg (by decide) ha
  exact ⟨a, ha', hsame.trans hkey⟩

theorem CallerInv.mono {c : Caller K V} {x : ℕ} {r : Neighbours} (h : CallerInv l level key c) (hl : l.Levels level)
    (hg : Grows own l level l' level') (hown : ∀ n, owned (Pc.finding c key i x r) = some n → own ≠ some n) :
    CallerInv l' level' key c := by
  cases c with
  | find before => exact fun hmem => exists_key_mono hl hg (h hmem)
  | insert value => trivial
  | relink n height i => exact ⟨h.1.mono hg (hown n rfl), h.2⟩

/-- A thread can go on relying on what it knows while other threads write. -/
theorem PcInv.mono {p : Pc K V} (h : PcInv l level p) (hl : l.Levels level) (hg : Grows own l level l' level')
    (hown : ∀ n, owned p = some n → own ≠ some n) : PcInv l' level' p := by
  have hkey : ∀ {key : K} {n : ℕ}, n ∈ level 0 ∧ (l.node n).key = key → n ∈ level' 0 ∧ (l'.node n).key = key := by
    rintro key n ⟨hn, hkey⟩
    obtain ⟨hn', hsame⟩ := stays hl hg (by decide) hn
    exact ⟨hn', hsame.trans hkey⟩
  cases p with
  | idle => trivial
  | finding c key i x r =>
    obtain ⟨hc, hi, hx, hr⟩ := h
    exact ⟨hc.mono hl hg hown, hi, hx.mono hl hg hi, fun j hij hj => (hr j hij hj).mono hl hg hj⟩
  | found key value n => exact hkey h
  | replacing key value n previous => exact hkey h
  | drawing key value r => exact fun j hj => (h j hj).mono hl hg hj
  | preparing key value n height i r =>
    obtain ⟨ho, hi, hr, hlink⟩ := h
    refine ⟨ho.mono hg (hown n rfl), hi, fun j hj => (hr j hj).mono hl hg hj, ?_⟩
    intro j hj
    have hheight := ho.height_le
    rw [ho.link_eq hg (hown n rfl) (Nat.zero_le j) (by omega)]
    exact hlink j hj
  | publishing key value n height r =>
    obtain ⟨ho, hpos, hr, hlink⟩ := h
    refine ⟨ho.mono hg (hown n rfl), hpos, fun j hj => (hr j hj).mono hl hg hj, ?_⟩
    rw [ho.link_eq hg (hown n rfl) (le_refl 0) (by decide)]
    exact hlink
  | raising key n height i r =>
    obtain ⟨ho, hpos, hi, hr⟩ := h
    exact ⟨ho.mono hg (hown n rfl), hpos, hi, fun j hij hj => (hr j hij hj).mono hl hg hj⟩
  | linking key n height i r =>
    obtain ⟨ho, hpos, hi, hr, hlink⟩ := h
    refine ⟨ho.mono hg (hown n rfl), hpos, hi, fun j hij hj => (hr j hij hj).mono hl hg hj, ?_⟩
    have hheight := ho.height_le
    rw [ho.link_eq hg (hown n rfl) (le_refl i) (by omega)]
    exact hlink

end Mono

/-! ### The invariant -/

structure Inv (s : State K V) (level : ℕ → List ℕ) : Prop where
  levels : s.list.Levels level
  threads : ∀ t, PcInv s.list level (s.pc t)
  distinct : ∀ t u n, owned (s.pc t) = some n → owned (s.pc u) = some n → t = u
  owned_lt : ∀ t n, owned (s.pc t) = some n → n < s.list.size
  inserts : ∀ e ∈ s.inserts, ∃ a ∈ level 0, (s.list.node a).key = e.1
  finds : ∀ f ∈ s.finds, f.key ∈ f.before → f.found = true

theorem inv_initial [Inhabited K] : Inv (initial : State K V) fun _ => [] where
  levels := ⟨Nat.one_pos, fun _ _ => rfl, fun _ _ => .nil, by simp, by simp⟩
  threads := fun _ => trivial
  distinct := by simp [initial, owned]
  owned_lt := by simp [initial, owned]
  inserts := by simp [initial]
  finds := by simp [initial]

/-- A thread moves; it writes no node but its own, and takes none from another thread. -/
theorem Inv.move {s : State K V} {level : ℕ → List ℕ} (h : Inv s level) {t : ThreadId} {p : Pc K V}
    {l' : SkipList K V} {level' : ℕ → List ℕ} (hl : l'.Levels level') (own : Option ℕ)
    (hg : Grows own s.list level l' level') (hmine : ∀ n, own = some n → owned (s.pc t) = some n)
    (hp : PcInv l' level' p)
    (hown : ∀ n, owned p = some n → n < l'.size ∧ (owned (s.pc t) = some n ∨ s.list.size ≤ n))
    {inserts : List (K × InsertResult V)}
    (hinserts : ∀ e ∈ inserts, e ∈ s.inserts ∨ ∃ a ∈ level' 0, (l'.node a).key = e.1)
    {finds : List (FindRecord K)}
    (hfinds : ∀ f ∈ finds, f ∈ s.finds ∨ (f.key ∈ f.before → f.found = true)) :
    Inv ⟨l', Function.update s.pc t p, inserts, finds⟩ level' where
  levels := hl
  threads := by
    intro u
    by_cases hut : u = t
    · simp only [hut, Function.update_self]
      exact hp
    · simp only [Function.update_of_ne hut]
      refine (h.threads u).mono h.levels hg ?_
      intro n hn hsome
      exact hut (h.distinct u t n hn (hmine n hsome))
  distinct := by
    -- A node that a thread comes to own is its own already or has just been created.
    have hother : ∀ u n, u ≠ t → owned (s.pc u) = some n → owned p ≠ some n := by
      intro u n hut hu hp
      rcases (hown n hp).2 with hold | hnew
      · exact hut (h.distinct u t n hu hold)
      · exact absurd (h.owned_lt u n hu) (Nat.not_lt.mpr hnew)
    intro u v n hu hv
    by_cases hut : u = t
    · by_cases hvt : v = t
      · rw [hut, hvt]
      · simp only [hut, Function.update_self] at hu
        simp only [Function.update_of_ne hvt] at hv
        exact absurd hu (hother v n hvt hv)
    · simp only [Function.update_of_ne hut] at hu
      by_cases hvt : v = t
      · simp only [hvt, Function.update_self] at hv
        exact absurd hv (hother u n hut hu)
      · simp only [Function.update_of_ne hvt] at hv
        exact h.distinct u v n hu hv
  owned_lt := by
    intro u n hu
    by_cases hut : u = t
    · simp only [hut, Function.update_self] at hu
      exact (hown n hu).1
    · simp only [Function.update_of_ne hut] at hu
      exact Nat.lt_of_lt_of_le (h.owned_lt u n hu) hg.size_le
  inserts := by
    intro e he
    rcases hinserts e he with hold | hnew
    · exact exists_key_mono h.levels hg (h.inserts e hold)
    · exact hnew
  finds := by
    intro f hf
    rcases hfinds f hf with hold | hnew
    · exact h.finds f hold
    · exact hnew

/-- A thread moves without writing. -/
theorem Inv.goto {s : State K V} {level : ℕ → List ℕ} (h : Inv s level) {t : ThreadId} {p : Pc K V}
    (hp : PcInv s.list level p) (hown : ∀ n, owned p = some n → owned (s.pc t) = some n) :
    Inv (s.goto t p) level := by
  refine h.move h.levels none (.refl none s.list level) (fun n hn => by cases hn) hp ?_ (fun e he => .inl he)
    fun f hf => .inl hf
  intro n hn
  exact ⟨h.owned_lt t n (hown n hn), .inl (hown n hn)⟩

/-- A thread writes to its node, which stays its own, and moves. -/
theorem Inv.write {s : State K V} {level : ℕ → List ℕ} (h : Inv s level) {t : ThreadId} {p : Pc K V}
    {l' : SkipList K V} {level' : ℕ → List ℕ} {n : ℕ} (hl : l'.Levels level')
    (hg : Grows (some n) s.list level l' level') (hmine : owned (s.pc t) = some n) (hp : PcInv l' level' p)
    (hstill : owned p = some n) : Inv ⟨l', Function.update s.pc t p, s.inserts, s.finds⟩ level' := by
  refine h.move hl (some n) hg (fun m hm => hm ▸ hmine) hp ?_ (fun e he => .inl he) fun f hf => .inl hf
  intro m hm
  rw [hstill] at hm
  cases hm
  exact ⟨Nat.lt_of_lt_of_le (h.owned_lt t n hmine) hg.size_le, .inl hmine⟩

/-! ### Searching -/

section Search
variable {s : State K V} {level : ℕ → List ℕ} {t : ThreadId} {c : Caller K V} {key : K} {i x : ℕ} {r : Neighbours}

/-- Neighbours are around the key unless one of them has it. -/
theorem Reached.around {l : SkipList K V} {p : ℕ × Option ℕ} (h : Reached l level key i p)
    (hne : ∀ y ∈ level i, (l.node y).key ≠ key) : Around l level key i p := by
  refine ⟨h.1, ?_⟩
  intro y hy
  obtain ⟨hmem, hle⟩ := h.2 y hy
  exact ⟨hmem, lt_of_le_of_ne (not_lt.mp hle) (Ne.symm (hne y hmem))⟩

theorem inv_finishFind (h : Inv s level) (hc : CallerInv s.list level key c)
    (hr : ∀ j < maxHeight, Reached s.list level key j (r j))
    (hhit : ∀ a ∈ level 0, (s.list.node a).key = key → (r 0).2 = some a)
    (hown : ∀ n height i, c = .relink n height i → owned (s.pc t) = some n) :
    Inv (finishFind s t c key r) level := by
  have hfilter : ∀ a ∈ level 0, (s.list.node a).key = key →
      (r 0).2.filter (fun n => (s.list.node n).key = key) = some a := by
    intro a ha hkey
    rw [hhit a ha hkey]
    simp [hkey]
  cases c with
  | find before =>
    have hidle : PcInv s.list level (.idle : Pc K V) := trivial
    refine h.move h.levels none (.refl none s.list level) (fun n hn => by cases hn) hidle (fun n hn => by cases hn)
      (fun e he => .inl he) ?_
    intro f hf
    rcases List.mem_cons.mp hf with rfl | hf
    · refine .inr fun hmem => ?_
      obtain ⟨a, ha, hkey⟩ := hc hmem
      simp only [hfilter a ha hkey, Option.isSome_some]
    · exact .inl hf
  | insert value =>
    simp only [finishFind]
    split
    · rename_i n hn
      obtain ⟨hsome, hkey⟩ := Option.filter_eq_some_iff.mp hn
      refine h.goto ⟨((hr 0 (by decide)).2 n hsome).1, by simpa using hkey⟩ fun m hm => by cases hm
    · rename_i hnone
      refine h.goto ?_ fun m hm => by cases hm
      intro j hj
      refine (hr j hj).around fun y hy hkey => ?_
      have hsome := hfilter y (h.levels.mem_of_le (Nat.zero_le j) hj hy) hkey
      rw [hnone] at hsome
      cases hsome
  | relink n height i =>
    obtain ⟨ho, hpos, hi⟩ := hc
    refine h.goto ⟨ho, hpos, hi, ?_⟩ fun m hm => ?_
    · intro j hij hj
      -- The only node with the key is `n`, and it is not on this level yet.
      refine (hr j hj).around fun y hy hkey => ?_
      have hzero : n ∈ level 0 := (ho.on 0 (by decide)).mpr hpos
      have heq := h.levels.eq_of_key_eq (by decide) (h.levels.mem_of_le (Nat.zero_le j) hj hy) hzero
        (hkey.trans ho.key_eq.symm)
      rw [heq, ho.on j hj] at hy
      omega
    · cases hm
      exact hown n height i rfl

theorem inv_endLevel (h : Inv s level) (hpc : s.pc t = .finding c key i x r)
    (hstop : ∀ y ∈ s.list.link x i, ¬ (s.list.node y).key < key) : Inv (endLevel s t c key i x r) level := by
  have hp := h.threads t
  rw [hpc] at hp
  obtain ⟨hc, hi, hx, hr⟩ := hp
  have hhere : Reached s.list level key i (x, s.list.link x i) :=
    ⟨hx, fun y hy => ⟨h.levels.mem_of_link hi (hx.imp_right And.left) hy, hstop y hy⟩⟩
  have hrecorded : ∀ j, i ≤ j → j < maxHeight →
      Reached s.list level key j (Function.update r i (x, s.list.link x i) j) := by
    intro j hij hj
    by_cases hji : j = i
    · rw [hji, Function.update_self]
      exact hhere
    · rw [Function.update_of_ne hji]
      exact hr j (by omega) hj
  cases i with
  | zero =>
    refine inv_finishFind h hc (fun j hj => hrecorded j (Nat.zero_le j) hj) ?_ ?_
    · intro a ha hkey
      rw [Function.update_self]
      exact h.levels.link_eq_of_key hi hx hstop ha hkey
    · rintro n height i rfl
      rw [hpc]
      rfl
  | succ i =>
    refine h.goto ⟨hc, Nat.lt_of_succ_lt hi, ?_, fun j hij hj => hrecorded j hij hj⟩ fun n hn => ?_
    · exact hx.imp_right fun hmem => ⟨h.levels.below i hi x hmem.1, hmem.2⟩
    · rw [hpc]
      cases c <;> exact hn

theorem inv_load (h : Inv s level) (hpc : s.pc t = .finding c key i x r) : Inv (load s t c key i x r) level := by
  have hp := h.threads t
  rw [hpc] at hp
  obtain ⟨hc, hi, hx, hr⟩ := hp
  simp only [load]
  split
  · rename_i n hn
    split_ifs with hlt
    · refine h.goto ⟨hc, hi, .inr ⟨h.levels.mem_of_link hi (hx.imp_right And.left) hn, hlt⟩, hr⟩ fun m hm => ?_
      rw [hpc]
      cases c <;> exact hm
    · refine inv_endLevel h hpc ?_
      intro y hy
      rw [hn] at hy
      cases hy
      exact hlt
  · rename_i hn
    refine inv_endLevel h hpc ?_
    intro y hy
    rw [hn] at hy
    cases hy

end Search

/-! ### Writing -/

section Write
variable {s : State K V} {level : ℕ → List ℕ} {t : ThreadId} {key : K} {value : Option V} {n height i : ℕ}
  {r : Neighbours}

theorem inv_replace (h : Inv s level) {previous : Option V} (hpc : s.pc t = .replacing key value n previous) :
    Inv (step s t) level := by
  have hp := h.threads t
  rw [hpc] at hp
  obtain ⟨hl, hg⟩ := h.levels.setValue n value
  have hidle : PcInv (s.list.setValue n value) level (.idle : Pc K V) := trivial
  simp only [step, hpc]
  refine h.move hl none hg (fun n hn => by cases hn) hidle (fun n hn => by cases hn) ?_ fun f hf => .inl hf
  intro e he
  rcases List.mem_cons.mp he with rfl | he
  · exact .inr (exists_key_mono h.levels hg ⟨n, hp⟩)
  · exact .inl he

/-- The thread stores a link of its node on a level that the node is not on. -/
theorem Owns.store {l : SkipList K V} (ho : Owns l level key n height i) (hl : l.Levels level) {j : ℕ} (hij : i ≤ j)
    (hj : j < maxHeight) (y : Option ℕ) :
    (l.store n j y).Levels level ∧ Grows (some n) l level (l.store n j y) level ∧
      Owns (l.store n j y) level key n height i := by
  have hnot : n ∉ level j := by
    rw [ho.on j hj]
    omega
  obtain ⟨hlevels, hg⟩ := hl.store ho.pos hnot y
  refine ⟨hlevels, hg, ⟨ho.pos, ho.lt_size, ?_, ?_, ho.height_le, ho.on⟩⟩
  · rw [key_store, ho.key_eq]
  · rw [height_store, ho.height_eq]

theorem inv_prepare (h : Inv s level) (hpc : s.pc t = .preparing key value n height i r) :
    Inv (step s t) level := by
  have hp := h.threads t
  rw [hpc] at hp
  obtain ⟨ho, hi, hr, hlink⟩ := hp
  have hheight := ho.height_le
  obtain ⟨hl, hg, ho'⟩ := ho.store h.levels (Nat.zero_le i) (by omega) (r i).2
  have hr' : ∀ j < maxHeight, Around (s.list.store n i (r i).2) level key j (r j) :=
    fun j hj => (hr j hj).mono h.levels hg hj
  have hlink' : ∀ j < i + 1, (s.list.store n i (r i).2).link n j = (r j).2 := by
    intro j hj
    by_cases hji : j = i
    · rw [hji, link_store_self]
    · rw [link_store_of_ne _ _ (.inr hji)]
      exact hlink j (by omega)
  have hmine : owned (s.pc t) = some n := by
    rw [hpc]
    rfl
  simp only [step, hpc, State.goto]
  split_ifs with hlt
  · exact h.write hl hg hmine (p := .preparing key value n height (i + 1) r) ⟨ho', hlt, hr', hlink'⟩ rfl
  · have hpos := Nat.lt_of_le_of_lt (Nat.zero_le i) hi
    exact h.write hl hg hmine (p := .publishing key value n height r) ⟨ho', hpos, hr', hlink' 0 (Nat.succ_pos i)⟩ rfl

theorem inv_raising (h : Inv s level) (hpc : s.pc t = .raising key n height i r) : Inv (step s t) level := by
  have hp := h.threads t
  rw [hpc] at hp
  obtain ⟨ho, hpos, hi, hr⟩ := hp
  have hheight := ho.height_le
  obtain ⟨hl, hg, ho'⟩ := ho.store h.levels (le_refl i) (by omega) (r i).2
  have hmine : owned (s.pc t) = some n := by
    rw [hpc]
    rfl
  have hr' : ∀ j, i ≤ j → j < maxHeight → Around (s.list.store n i (r i).2) level key j (r j) :=
    fun j hij hj => (hr j hij hj).mono h.levels hg hj
  simp only [step, hpc, State.goto]
  exact h.write hl hg hmine (p := .linking key n height i r) ⟨ho', hpos, hi, hr', link_store_self _ _ _ _⟩ rfl

/-- A compare-exchange that succeeds takes the node one level up. -/
theorem inv_exchange (h : Inv s level) (hmine : owned (s.pc t) = some n) (ho : Owns s.list level key n height i)
    (hi : i < height) (hr : ∀ j, i ≤ j → j < maxHeight → Around s.list level key j (r j))
    (hlink : s.list.link n i = (r i).2) (hcas : s.list.link (r i).1 i = (r i).2) :
    ∃ level', Inv (raise { s with list := s.list.store (r i).1 i (some n) } t key n height (i + 1) r) level' ∧
      ∀ a ∈ level 0, a ∈ level' 0 := by
  have hheight := ho.height_le
  obtain ⟨hbefore, hafter⟩ := hr i (le_refl i) (by omega)
  obtain ⟨level', hl, hg, hon⟩ := h.levels.exchange (by omega) ⟨ho.pos, ho.lt_size, ho.height_eq ▸ hi⟩ ho.on
    (ho.key_eq ▸ hbefore) (fun y hy => ho.key_eq ▸ (hafter y (hcas ▸ hy)).2) (hlink.trans hcas.symm)
  refine ⟨level', ?_, hg.mono 0⟩
  have ho' : Owns (s.list.store (r i).1 i (some n)) level' key n height (i + 1) := by
    refine ⟨ho.pos, ho.lt_size, ?_, ?_, ho.height_le, hon⟩
    · rw [key_store, ho.key_eq]
    · rw [height_store, ho.height_eq]
  simp only [raise]
  split_ifs with hlt
  · have hr' : ∀ j, i + 1 ≤ j → j < maxHeight → Around (s.list.store (r i).1 i (some n)) level' key j (r j) :=
      fun j hij hj => (hr j (by omega) hj).mono h.levels hg hj
    exact h.write hl hg hmine (p := .raising key n height (i + 1) r) ⟨ho', Nat.succ_pos i, hlt, hr'⟩ rfl
  · have hidle : PcInv (s.list.store (r i).1 i (some n)) level' (.idle : Pc K V) := trivial
    refine h.move hl (some n) hg (fun m hm => hm ▸ hmine) hidle (fun m hm => by cases hm) ?_ fun f hf => .inl hf
    intro e he
    rcases List.mem_cons.mp he with rfl | he
    · exact .inr ⟨n, (hon 0 (by decide)).mpr (Nat.succ_pos i), ho'.key_eq⟩
    · exact .inl he

theorem inv_draw (h : Inv s level) (hpos : 1 ≤ height) (hle : height ≤ maxHeight) : Inv (draw s t height) level := by
  simp only [draw]
  split
  · rename_i key value r hpc
    have hp := h.threads t
    rw [hpc] at hp
    obtain ⟨hl, hg⟩ := h.levels.create key value height
    have hnew : ∀ j < maxHeight, s.list.size ∉ level j := by
      intro j hj hmem
      exact lt_irrefl _ (h.levels.bounds j hj _ hmem).2.1
    have ho : Owns (s.list.create key value height) level key s.list.size height 0 := by
      refine ⟨h.levels.size_pos, Nat.lt_succ_self _, ?_, ?_, hle, ?_⟩
      · simp [SkipList.create]
      · simp [SkipList.create]
      · intro j hj
        simp [hnew j hj]
    refine h.move hl none hg (fun n hn => by cases hn) ?_ ?_ (fun e he => .inl he) fun f hf => .inl hf
    · exact ⟨ho, hpos, fun j hj => (hp j hj).mono h.levels hg hj, fun j hj => absurd hj (Nat.not_lt_zero j)⟩
    · rintro m ⟨⟩
      exact ⟨Nat.lt_succ_self _, .inr (le_refl _)⟩
  · exact h

end Write

/-! ### Runs -/

/-- A search can begin at any time. -/
theorem Inv.startFind {s : State K V} {level : ℕ → List ℕ} (h : Inv s level) {t : ThreadId} {c : Caller K V} {key : K}
    (r : Neighbours) (hc : CallerInv s.list level key c)
    (hown : ∀ n height i, c = .relink n height i → owned (s.pc t) = some n) :
    Inv (s.goto t (startFind c key r)) level := by
  refine h.goto ⟨hc, by decide, .inl rfl, fun j hij hj => ?_⟩ fun n hn => ?_
  · omega
  · cases c with
    | find before => cases hn
    | insert value => cases hn
    | relink m height i => exact hown n height i (by cases hn; rfl)

theorem inv_step {s : State K V} {level : ℕ → List ℕ} (h : Inv s level) (t : ThreadId) :
    ∃ level', Inv (step s t) level' ∧ ∀ a ∈ level 0, a ∈ level' 0 := by
  have hp := h.threads t
  have hstay : Inv (step s t) level → ∃ level', Inv (step s t) level' ∧ ∀ a ∈ level 0, a ∈ level' 0 :=
    fun hinv => ⟨level, hinv, fun _ ha => ha⟩
  cases hpc : s.pc t with
  | idle =>
    apply hstay
    simp only [step, hpc]
    exact h
  | drawing key value r =>
    apply hstay
    simp only [step, hpc]
    exact h
  | finding c key i x r =>
    apply hstay
    simp only [step, hpc]
    exact inv_load h hpc
  | found key value n =>
    rw [hpc] at hp
    apply hstay
    simp only [step, hpc]
    exact h.goto hp fun n hn => by cases hn
  | replacing key value n previous => exact hstay (inv_replace h hpc)
  | preparing key value n height i r => exact hstay (inv_prepare h hpc)
  | raising key n height i r => exact hstay (inv_raising h hpc)
  | publishing key value n height r =>
    rw [hpc] at hp
    obtain ⟨ho, hpos, hr, hlink⟩ := hp
    by_cases hcas : s.list.link (r 0).1 0 = (r 0).2
    · simp only [step, hpc, if_pos hcas]
      exact inv_exchange h (by rw [hpc]; rfl) ho hpos (fun j _ hj => hr j hj) hlink hcas
    · apply hstay
      simp only [step, hpc, if_neg hcas]
      exact h.startFind _ trivial fun n height i hc => by cases hc
  | linking key n height i r =>
    rw [hpc] at hp
    obtain ⟨ho, hpos, hi, hr, hlink⟩ := hp
    by_cases hcas : s.list.link (r i).1 i = (r i).2
    · simp only [step, hpc, if_pos hcas]
      exact inv_exchange h (by rw [hpc]; rfl) ho hi hr hlink hcas
    · apply hstay
      simp only [step, hpc, if_neg hcas]
      refine h.startFind _ ⟨ho, hpos, hi⟩ ?_
      rintro m height' i' ⟨⟩
      rw [hpc]
      rfl

/-- One step keeps the invariant and takes no node off level 0. -/
theorem inv_next {s : State K V} {level : ℕ → List ℕ} (h : Inv s level) {e : Event K V} (he : Enabled s e) :
    ∃ level', Inv (next s e) level' ∧ ∀ a ∈ level 0, a ∈ level' 0 := by
  cases e with
  | find t key =>
    refine ⟨level, h.startFind _ ?_ fun n height i hc => (by cases hc), fun _ ha => ha⟩
    intro hmem
    obtain ⟨e, hin, rfl⟩ := List.mem_map.mp hmem
    exact h.inserts e hin
  | insert t key value =>
    exact ⟨level, h.startFind _ trivial fun n height i hc => (by cases hc), fun _ ha => ha⟩
  | draw t height => exact ⟨level, inv_draw h he.1 he.2, fun _ ha => ha⟩
  | step t => exact inv_step h t

theorem inv_run {s s' : State K V} {level : ℕ → List ℕ} {es : List (Event K V)} (h : Inv s level)
    (hrun : Run system (fun _ _ => True) s es s') : ∃ level', Inv s' level' ∧ ∀ a ∈ level 0, a ∈ level' 0 := by
  refine hrun.invariant (fun s => ∃ level', Inv s level' ∧ ∀ a ∈ level 0, a ∈ level' 0) ?_ ⟨level, h, fun _ ha => ha⟩
  rintro s e ⟨level₁, h₁, hsub₁⟩ - he
  obtain ⟨level₂, h₂, hsub₂⟩ := inv_next h₁ he
  exact ⟨level₂, h₂, fun a ha => hsub₂ a (hsub₁ a ha)⟩

theorem Inv.linkedAt_iff {s : State K V} {level : ℕ → List ℕ} (h : Inv s level) {i : ℕ} (hi : i < maxHeight) (a : ℕ) :
    s.list.LinkedAt i a ↔ a ∈ level i := by
  constructor
  · rintro ⟨ns, hns, ha⟩
    rwa [← hns.unique (h.levels.linked i hi)]
  · exact fun ha => ⟨level i, h.levels.linked i hi, ha⟩

end Invariant

variable [LinearOrder K] [Inhabited K]

/-- In every state that the threads reach: the chain of every level ends and has strictly increasing keys;
a node of a level above 0 is on level 0 and has the height for it; no two nodes have the same key; a
node stays on level 0 whatever comes next; and a `find` that was called after an `insert` of its key had
returned has found it. -/
theorem concurrent_structure {es : List (Event K V)} {s : State K V}
    (h : Run system (fun _ _ => True) initial es s) :
    (∀ i < maxHeight, ∃ ns, s.list.Linked i 0 ns ∧ ns.Pairwise fun a b => (s.list.node a).key < (s.list.node b).key) ∧
    (∀ i, 1 ≤ i → i < maxHeight → ∀ a, s.list.LinkedAt i a → s.list.LinkedAt 0 a ∧ i < (s.list.node a).height) ∧
    (∀ a b, s.list.LinkedAt 0 a → s.list.LinkedAt 0 b → (s.list.node a).key = (s.list.node b).key → a = b) ∧
    (∀ es' s', Run system (fun _ _ => True) s es' s' → ∀ a, s.list.LinkedAt 0 a → s'.list.LinkedAt 0 a) ∧
    ∀ f ∈ s.finds, f.key ∈ f.before → f.found = true := by
  obtain ⟨level, hinv, -⟩ := inv_run inv_initial h
  have hzero : (0 : ℕ) < maxHeight := by decide
  refine ⟨?_, ?_, ?_, ?_, hinv.finds⟩
  · exact fun i hi => ⟨level i, hinv.levels.linked i hi, hinv.levels.sorted i hi⟩
  · intro i _ hi a ha
    rw [hinv.linkedAt_iff hi] at ha
    rw [hinv.linkedAt_iff hzero]
    exact ⟨hinv.levels.mem_of_le (Nat.zero_le i) hi ha, (hinv.levels.bounds i hi a ha).2.2⟩
  · intro a b ha hb
    rw [hinv.linkedAt_iff hzero] at ha hb
    exact hinv.levels.eq_of_key_eq hzero ha hb
  · intro es' s' hrun a ha
    obtain ⟨level', hinv', hsub⟩ := inv_run hinv hrun
    rw [hinv.linkedAt_iff hzero] at ha
    rw [hinv'.linkedAt_iff hzero]
    exact hsub a ha

instance (p : Pc K V) : Decidable (p = .idle) :=
  match p with
  | .idle => isTrue rfl
  | .finding _ _ _ _ _ | .found _ _ _ | .replacing _ _ _ _ | .drawing _ _ _ | .preparing _ _ _ _ _ _
  | .publishing _ _ _ _ _ | .raising _ _ _ _ _ | .linking _ _ _ _ _ => isFalse nofun

instance (s : State K V) : (e : Event K V) → Decidable (system.Enabled s e)
  | .find _ _ | .insert _ _ _ => inferInstanceAs (Decidable (_ = Pc.idle))
  | .draw _ _ => inferInstanceAs (Decidable (_ ∧ _))
  | .step _ => isTrue trivial

/-- Two threads insert the same key. Both miss it, the second compare-exchange fails, and the second
thread overwrites the value of the first while that one links its node on level 1. -/
def racingInserts : List (Event ℕ ℕ) :=
  [.insert 0 5 (some 1), .insert 1 5 (some 2)] ++ List.replicate 12 (.step 0) ++ List.replicate 12 (.step 1) ++
    [.draw 0 2, .draw 1 1, .step 1, .step 0, .step 0, .step 0, .step 1] ++ List.replicate 12 (.step 1) ++
    [.step 0, .step 1, .step 0, .step 1, .find 2 5] ++ List.replicate 12 (.step 2)

theorem concurrent_structure_racingInserts :
    ∃ s, Run system (fun _ _ => True) initial racingInserts s ∧ s.finds.map FindRecord.found = [true] ∧
      ∀ i < maxHeight, ∃ ns, s.list.Linked i 0 ns ∧ ns.Pairwise fun a b => (s.list.node a).key < (s.list.node b).key := by
  have hallowed : Allowed system (fun _ _ => True) initial racingInserts := by decide +kernel
  have hrun := hallowed.run
  refine ⟨_, hrun, ?_, (concurrent_structure hrun).1⟩
  decide +kernel

end LsmTree.ConcurrentSkipList
