import LsmTree.SkipList
import Mathlib.Data.List.Nodup

/-!
# The levels of a skip list that is being written

While threads insert, a node is linked one level at a time, from the bottom up, so the
levels are not the nodes of a certain height any more. What remains is that every level is
a chain in strictly increasing order, that a node of a level has the height for it and is
on the level below as well.

The links change in three ways: a node is created, a link of a node that is not on the
level is stored, and a compare-exchange puts a node between two neighbours. Each of them
keeps the levels, never takes a node off one, and leaves the links of all nodes alone that
another thread is still preparing.
-/

namespace LsmTree.SkipList

variable {K V : Type*}

/-- Store a link, null included. -/
def store (l : SkipList K V) (x i : ℕ) (n : Option ℕ) : SkipList K V where
  node := Function.update l.node x { l.node x with next := Function.update (l.node x).next i n }
  size := l.size

/-- `Node::create`: all links are null. -/
def create (l : SkipList K V) (key : K) (value : Option V) (height : ℕ) : SkipList K V where
  node := Function.update l.node l.size ⟨key, value, height, fun _ => none⟩
  size := l.size + 1

/-- A node that following level `i` from the head reaches. -/
def LinkedAt (l : SkipList K V) (i a : ℕ) : Prop := ∃ ns, l.Linked i 0 ns ∧ a ∈ ns

section Fields
variable (l : SkipList K V) (x i : ℕ) (n : Option ℕ) (a : ℕ)

@[simp] theorem size_store : (l.store x i n).size = l.size := rfl

@[simp] theorem key_store : ((l.store x i n).node a).key = (l.node a).key := by
  by_cases h : a = x
  · simp [store, h]
  · simp [store, h]

@[simp] theorem height_store : ((l.store x i n).node a).height = (l.node a).height := by
  by_cases h : a = x
  · simp [store, h]
  · simp [store, h]

theorem link_store_self : (l.store x i n).link x i = n := by simp [store, link]

theorem link_store_of_ne {x i a j : ℕ} (h : a ≠ x ∨ j ≠ i) : (l.store x i n).link a j = l.link a j := by
  by_cases hax : a = x
  · have hji := h.resolve_left (not_not_intro hax)
    simp [store, link, hax, hji]
  · simp [store, link, hax]

theorem node_create_of_lt {a : ℕ} (key : K) (value : Option V) (height : ℕ) (h : a < l.size) :
    (l.create key value height).node a = l.node a := Function.update_of_ne h.ne _ _

theorem setValue_node (v : Option V) :
    ((l.setValue x v).node a).key = (l.node a).key ∧ ((l.setValue x v).node a).height = (l.node a).height ∧
      ((l.setValue x v).node a).next = (l.node a).next := by
  by_cases h : a = x
  · simp [setValue, h]
  · simp [setValue, h]

end Fields

/-- The nodes of every level, in order. -/
structure Levels [LinearOrder K] (l : SkipList K V) (level : ℕ → List ℕ) : Prop where
  size_pos : 0 < l.size
  linked : ∀ i < maxHeight, l.Linked i 0 (level i)
  sorted : ∀ i < maxHeight, (level i).Pairwise fun a b => (l.node a).key < (l.node b).key
  bounds : ∀ i < maxHeight, ∀ a ∈ level i, 0 < a ∧ a < l.size ∧ i < (l.node a).height
  below : ∀ i, i + 1 < maxHeight → ∀ a ∈ level (i + 1), a ∈ level i

/-- What other threads can rely on while one thread writes: nodes keep their keys and heights and stay
on their levels, and of the nodes that are not on a level only `own` changes its link there or comes
onto it. -/
structure Grows (own : Option ℕ) (l : SkipList K V) (level : ℕ → List ℕ) (l' : SkipList K V)
    (level' : ℕ → List ℕ) : Prop where
  size_le : l.size ≤ l'.size
  key : ∀ a < l.size, (l'.node a).key = (l.node a).key
  height : ∀ a < l.size, (l'.node a).height = (l.node a).height
  mono : ∀ i, ∀ a ∈ level i, a ∈ level' i
  others : ∀ a i, own ≠ some a → 0 < a → a < l.size → a ∉ level i → a ∉ level' i ∧ l'.link a i = l.link a i

variable {l l' : SkipList K V} {level level' : ℕ → List ℕ}

theorem Grows.refl (own : Option ℕ) (l : SkipList K V) (level : ℕ → List ℕ) : Grows own l level l level :=
  ⟨le_refl _, fun _ _ => rfl, fun _ _ => rfl, fun _ _ ha => ha, fun _ _ _ _ _ ha => ⟨ha, rfl⟩⟩

/-- Following links visits one sequence of nodes only. -/
theorem Linked.unique {i x : ℕ} {ns ms : List ℕ} (h : l.Linked i x ns) (h' : l.Linked i x ms) :
    ns = ms := by
  induction ns generalizing x ms with
  | nil =>
    cases ms with
    | nil => rfl
    | cons m ms => exact absurd (h.symm.trans h'.1) (by simp)
  | cons n ns ih =>
    cases ms with
    | nil => exact absurd (h.1.symm.trans h') (by simp)
    | cons m ms =>
      have hnm : n = m := Option.some.inj (h.1.symm.trans h'.1)
      subst hnm
      rw [ih h.2 h'.2]

/-- A level is cut open behind one of its nodes or the head. -/
theorem Linked.split {i x : ℕ} {ns : List ℕ} (h : l.Linked i 0 ns) (hx : x = 0 ∨ x ∈ ns) :
    ∃ as bs, ns = as ++ bs ∧ as.getLastD 0 = x ∧ l.link x i = bs.head? ∧ (as = [] ∨ ∃ cs, as = cs ++ [x]) := by
  rcases hx with rfl | hx
  · exact ⟨[], ns, rfl, rfl, h.link_eq, .inl rfl⟩
  · obtain ⟨cs, bs, rfl⟩ := List.append_of_mem hx
    refine ⟨cs ++ [x], bs, by simp, by simp, ?_, .inr ⟨cs, rfl⟩⟩
    have hrest : l.Linked i 0 ((cs ++ [x]) ++ bs) := by simpa using h
    have hlast := hrest.of_append.link_eq
    rwa [show (cs ++ [x]).getLastD 0 = x by simp] at hlast

section Ordered
variable [LinearOrder K]

theorem Levels.mem_of_le (h : l.Levels level) {i j a : ℕ} (hij : i ≤ j) (hj : j < maxHeight) (ha : a ∈ level j) :
    a ∈ level i := by
  induction j with
  | zero =>
    rw [Nat.le_zero.mp hij]
    exact ha
  | succ j ih =>
    rcases Nat.lt_or_eq_of_le hij with hlt | rfl
    · exact ih (Nat.le_of_lt_succ hlt) (Nat.lt_of_succ_lt hj) (h.below j hj a ha)
    · exact ha

/-- No two nodes of a level have the same key. -/
theorem Levels.eq_of_key_eq (h : l.Levels level) {i a b : ℕ} (hi : i < maxHeight) (ha : a ∈ level i)
    (hb : b ∈ level i) (heq : (l.node a).key = (l.node b).key) : a = b := by
  have hnodup : ((level i).map fun a => (l.node a).key).Nodup :=
    List.pairwise_map.mpr ((h.sorted i hi).imp fun hab => hab.ne)
  exact List.inj_on_of_nodup_map hnodup ha hb heq

theorem Levels.nodup (h : l.Levels level) {i : ℕ} (hi : i < maxHeight) : (0 :: level i).Nodup := by
  refine List.nodup_cons.mpr ⟨fun hzero => absurd (h.bounds i hi 0 hzero).1 (lt_irrefl 0), ?_⟩
  refine (h.sorted i hi).imp ?_
  rintro a b hab rfl
  exact lt_irrefl _ hab

theorem Levels.lt_of_split (h : l.Levels level) {i x : ℕ} (hi : i < maxHeight) {as bs : List ℕ}
    (hsplit : level i = as ++ bs) (has : as = [] ∨ ∃ cs, as = cs ++ [x]) {key : K}
    (hx : x = 0 ∨ x ∈ level i ∧ (l.node x).key < key) : ∀ a ∈ as, (l.node a).key < key := by
  intro a ha
  rcases has with rfl | ⟨cs, rfl⟩
  · cases ha
  · have hmem : x ∈ level i := by
      rw [hsplit]
      simp
    have hlt : (l.node x).key < key :=
      (hx.resolve_left fun hzero => absurd (h.bounds i hi x hmem).1 (by omega)).2
    have hsorted := h.sorted i hi
    rw [hsplit, List.pairwise_append] at hsorted
    rcases List.mem_append.mp ha with hc | hlast
    · exact ((List.pairwise_append.mp hsorted.1).2.2 a hc x List.mem_cons_self).trans hlt
    · rwa [List.mem_singleton.mp hlast]

/-- A link of a node of a level leads to the level. -/
theorem Levels.mem_of_link (h : l.Levels level) {i x y : ℕ} (hi : i < maxHeight) (hx : x = 0 ∨ x ∈ level i)
    (hy : l.link x i = some y) : y ∈ level i := by
  obtain ⟨as, bs, hsplit, -, hhead, -⟩ := (h.linked i hi).split hx
  rw [hsplit]
  exact List.mem_append_right _ (List.mem_of_mem_head? (hhead ▸ hy))

/-- Walking along a level stops at the node that has the key, if there is one. -/
theorem Levels.link_eq_of_key (h : l.Levels level) {i x a : ℕ} {key : K} (hi : i < maxHeight)
    (hx : x = 0 ∨ x ∈ level i ∧ (l.node x).key < key) (hstop : ∀ y ∈ l.link x i, ¬ (l.node y).key < key)
    (ha : a ∈ level i) (hkey : (l.node a).key = key) : l.link x i = some a := by
  obtain ⟨as, bs, hsplit, -, hhead, hshape⟩ := (h.linked i hi).split (hx.imp_right And.left)
  have hmem : a ∈ bs := by
    rw [hsplit] at ha
    refine (List.mem_append.mp ha).resolve_left fun has => ?_
    exact absurd (h.lt_of_split hi hsplit hshape hx a has) (by simp [hkey])
  rw [hhead] at hstop ⊢
  cases bs with
  | nil => cases hmem
  | cons y ys =>
    rcases List.mem_cons.mp hmem with rfl | hys
    · rfl
    · have hsorted := h.sorted i hi
      rw [hsplit, List.pairwise_append] at hsorted
      have hlt := (List.pairwise_cons.mp hsorted.2.1).1 a hys
      exact absurd (hkey ▸ hlt) (hstop y rfl)

/-! ### The three ways to write -/

theorem Levels.create (h : l.Levels level) (key : K) (value : Option V) (height : ℕ) :
    (l.create key value height).Levels level ∧ Grows none l level (l.create key value height) level := by
  have hnode : ∀ a < l.size, (l.create key value height).node a = l.node a :=
    fun a ha => l.node_create_of_lt key value height ha
  have hlink : ∀ a < l.size, ∀ i, (l.create key value height).link a i = l.link a i :=
    fun a ha i => congrArg (fun n => n.next i) (hnode a ha)
  refine ⟨⟨Nat.succ_pos _, ?_, ?_, ?_, h.below⟩, ⟨Nat.le_succ _, ?_, ?_, fun _ _ ha => ha, ?_⟩⟩
  · intro i hi
    refine (h.linked i hi).congr ?_
    rintro a (rfl | ha)
    · exact hlink 0 h.size_pos i
    · exact hlink a (h.bounds i hi a ha).2.1 i
  · intro i hi
    refine (h.sorted i hi).imp_of_mem ?_
    intro a b ha hb hab
    rwa [hnode a (h.bounds i hi a ha).2.1, hnode b (h.bounds i hi b hb).2.1]
  · intro i hi a ha
    obtain ⟨hpos, hlt, hheight⟩ := h.bounds i hi a ha
    rw [hnode a hlt]
    exact ⟨hpos, Nat.lt_succ_of_lt hlt, hheight⟩
  · exact fun a ha => congrArg Node.key (hnode a ha)
  · exact fun a ha => congrArg Node.height (hnode a ha)
  · exact fun a i _ _ hlt ha => ⟨ha, hlink a hlt i⟩

theorem Levels.setValue (h : l.Levels level) (n : ℕ) (v : Option V) :
    (l.setValue n v).Levels level ∧ Grows none l level (l.setValue n v) level := by
  have hnode := fun a => l.setValue_node n a v
  have hlink : ∀ a i, (l.setValue n v).link a i = l.link a i := fun a i => congrFun (hnode a).2.2 i
  refine ⟨⟨h.size_pos, ?_, ?_, ?_, h.below⟩, ⟨le_refl _, ?_, ?_, fun _ _ ha => ha, ?_⟩⟩
  · exact fun i hi => (h.linked i hi).congr fun a _ => hlink a i
  · intro i hi
    simpa only [hnode] using h.sorted i hi
  · intro i hi a ha
    rw [(hnode a).2.1]
    exact h.bounds i hi a ha
  · exact fun a _ => (hnode a).1
  · exact fun a _ => (hnode a).2.1
  · exact fun a i _ _ _ ha => ⟨ha, hlink a i⟩

/-- A link of a node that is not on the level. -/
theorem Levels.store (h : l.Levels level) {n i : ℕ} (hpos : 0 < n) (hn : n ∉ level i) (y : Option ℕ) :
    (l.store n i y).Levels level ∧ Grows (some n) l level (l.store n i y) level := by
  refine ⟨⟨h.size_pos, ?_, ?_, ?_, h.below⟩, ⟨le_refl _, ?_, ?_, fun _ _ ha => ha, ?_⟩⟩
  · intro j hj
    refine (h.linked j hj).congr ?_
    intro a ha
    apply link_store_of_ne
    by_cases hji : j = i
    · left
      rintro rfl
      rcases ha with rfl | ha
      · exact lt_irrefl _ hpos
      · exact hn (hji ▸ ha)
    · exact .inr hji
  · intro j hj
    simpa only [key_store] using h.sorted j hj
  · intro j hj
    simpa only [height_store, size_store] using h.bounds j hj
  · exact fun a _ => key_store l n i y a
  · exact fun a _ => height_store l n i y a
  · intro a j hne _ _ ha
    exact ⟨ha, link_store_of_ne _ _ (.inl fun heq => hne (heq ▸ rfl))⟩

/-- The neighbours of the place at which the exchange puts the node are on the right sides of it. -/
theorem Levels.sorted_splice (h : l.Levels level) {n i x : ℕ} (hi : i < maxHeight) {as bs : List ℕ}
    (hsplit : level i = as ++ bs) (has : as = [] ∨ ∃ cs, as = cs ++ [x])
    (hx : x = 0 ∨ x ∈ level i ∧ (l.node x).key < (l.node n).key)
    (hy : ∀ y ∈ bs.head?, (l.node n).key < (l.node y).key) :
    (as ++ n :: bs).Pairwise fun a b => (l.node a).key < (l.node b).key := by
  have hsorted := h.sorted i hi
  rw [hsplit] at hsorted
  obtain ⟨hleft, hright, hcross⟩ := List.pairwise_append.mp hsorted
  have hbefore := h.lt_of_split hi hsplit has hx
  have hafter : ∀ b ∈ bs, (l.node n).key < (l.node b).key := by
    intro b hb
    cases bs with
    | nil => cases hb
    | cons y ys =>
      have hny := hy y rfl
      rcases List.mem_cons.mp hb with rfl | hb
      · exact hny
      · exact hny.trans ((List.pairwise_cons.mp hright).1 b hb)
  refine List.pairwise_append.mpr ⟨hleft, List.pairwise_cons.mpr ⟨hafter, hright⟩, ?_⟩
  intro a ha b hb
  rcases List.mem_cons.mp hb with rfl | hb
  · exact hbefore a ha
  · exact hcross a ha b hb

/-- A compare-exchange that succeeds puts a node that is on the levels below `i` on level `i`. -/
theorem Levels.exchange (h : l.Levels level) {n i x : ℕ} (hi : i < maxHeight)
    (hn : 0 < n ∧ n < l.size ∧ i < (l.node n).height) (hon : ∀ j < maxHeight, n ∈ level j ↔ j < i)
    (hx : x = 0 ∨ x ∈ level i ∧ (l.node x).key < (l.node n).key)
    (hy : ∀ y ∈ l.link x i, (l.node n).key < (l.node y).key) (hnext : l.link n i = l.link x i) :
    ∃ level', (l.store x i (some n)).Levels level' ∧ Grows (some n) l level (l.store x i (some n)) level' ∧
      ∀ j < maxHeight, n ∈ level' j ↔ j < i + 1 := by
  obtain ⟨as, bs, hsplit, hlast, hhead, hshape⟩ := (h.linked i hi).split (hx.imp_right And.left)
  have hni : n ∉ level i := fun hmem => lt_irrefl i ((hon i hi).mp hmem)
  have hnx : n ≠ x := by
    rintro rfl
    rcases hx with hzero | hmem
    · exact absurd hn.1 (by omega)
    · exact hni hmem.1
  set level' := Function.update level i (as ++ n :: bs) with hlevel'
  have hself : level' i = as ++ n :: bs := Function.update_self _ _ _
  have hother : ∀ j, j ≠ i → level' j = level j := fun j hj => Function.update_of_ne hj _ _
  have hmem : ∀ j a, a ∈ level' j ↔ a ∈ level j ∨ (j = i ∧ a = n) := by
    intro j a
    by_cases hj : j = i
    · rw [hj, hself, hsplit]
      simp only [List.mem_append, List.mem_cons, true_and]
      tauto
    · rw [hother j hj]
      simp [hj]
  refine ⟨level', ⟨h.size_pos, ?_, ?_, ?_, ?_⟩, ⟨le_refl _, ?_, ?_, ?_, ?_⟩, ?_⟩
  · intro j hj
    by_cases hji : j = i
    · rw [hji, hself]
      have hlinked := h.linked i hi
      have hnodup := h.nodup hi
      rw [hsplit] at hlinked hnodup
      refine hlinked.splice hnodup ?_ ?_ ?_
      · rw [hlast, link_store_self]
      · rw [link_store_of_ne _ _ (.inl hnx), hnext, hhead]
      · intro a hne _
        exact link_store_of_ne _ _ (.inl (hlast ▸ hne))
    · rw [hother j hji]
      exact (h.linked j hj).congr fun a _ => link_store_of_ne _ _ (.inr hji)
  · intro j hj
    simp only [key_store]
    by_cases hji : j = i
    · rw [hji, hself]
      exact h.sorted_splice hi hsplit hshape hx (hhead ▸ hy)
    · rw [hother j hji]
      exact h.sorted j hj
  · intro j hj a ha
    rw [height_store, size_store]
    rcases (hmem j a).mp ha with hold | ⟨rfl, rfl⟩
    · exact h.bounds j hj a hold
    · exact hn
  · intro j hj a ha
    rw [hmem]
    rcases (hmem (j + 1) a).mp ha with hold | ⟨hji, rfl⟩
    · exact .inl (h.below j hj a hold)
    · exact .inl ((hon j (by omega)).mpr (by omega))
  · exact fun a _ => key_store l x i _ a
  · exact fun a _ => height_store l x i _ a
  · exact fun j a ha => (hmem j a).mpr (.inl ha)
  · intro a j hne hpos _ ha
    refine ⟨?_, ?_⟩
    · rw [hmem]
      rintro (hold | ⟨-, rfl⟩)
      · exact ha hold
      · exact hne rfl
    · apply link_store_of_ne
      by_cases hji : j = i
      · left
        rintro rfl
        rcases hx with hzero | hin
        · omega
        · exact ha (hji ▸ hin.1)
      · exact .inr hji
  · intro j hj
    rw [hmem, hon j hj]
    constructor
    · rintro (hlt | ⟨rfl, -⟩)
      · exact Nat.lt_succ_of_lt hlt
      · exact Nat.lt_succ_self _
    · intro hle
      rcases Nat.lt_or_eq_of_le (Nat.le_of_lt_succ hle) with hlt | heq
      · exact .inl hlt
      · exact .inr ⟨heq, rfl⟩

end Ordered

end LsmTree.SkipList
