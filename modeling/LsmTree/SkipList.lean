import LsmTree.LayeredMap
import Mathlib.Data.List.Pairwise
import Mathlib.Data.List.Perm.Subperm
import Mathlib.Order.Basic
import Mathlib.Logic.Function.Basic

/-!
# The skip list of the memtable

Nodes live at addresses of an arena, the head at address zero. `find` descends from
the top level and records at every level the last node before the key and its
successor; `insert` splices a new node in at as many levels as its random height says,
or replaces the value of an existing node. All writers hold the engine lock, so every
compare-exchange meets the link that `find` has read.

Whatever heights are drawn, the list represents the same strictly increasing sequence
of keys: the chain of a level consists of the nodes higher than it, in key order.
-/

namespace LsmTree
open LayeredMap

variable {K V : Type*}

/-- `Node`, with the contents of its current value slot; `none` is a tombstone. -/
structure Node (K V : Type*) where
  key : K
  value : Option V
  height : ℕ
  next : ℕ → Option ℕ

/-- The arena: addresses below `size` are allocated. -/
structure SkipList (K V : Type*) where
  node : ℕ → Node K V
  size : ℕ

namespace SkipList

/-- `SkipList::MAX_HEIGHT`. -/
abbrev maxHeight : ℕ := 12

def link (l : SkipList K V) (x i : ℕ) : Option ℕ := (l.node x).next i

/-- A list with only its head. -/
def empty [Inhabited K] : SkipList K V where
  node := fun _ => ⟨default, none, maxHeight, fun _ => none⟩
  size := 1

section Operations
variable [LinearOrder K]

/-- The inner loop of `find`: walk along level `i` while the next key is smaller. -/
def walk (l : SkipList K V) (key : K) (i : ℕ) : ℕ → ℕ → ℕ × Option ℕ
  | 0, x => (x, l.link x i)
  | fuel + 1, x =>
    match l.link x i with
    | none => (x, none)
    | some n => if (l.node n).key < key then l.walk key i fuel n else (x, some n)

/-- The levels of `find` below `i`, from node `x` on; the result holds `preds` and `succs`. -/
def search (l : SkipList K V) (key : K) : ℕ → ℕ → ℕ → ℕ × Option ℕ
  | 0, _ => fun _ => (0, none)
  | i + 1, x =>
    let found := l.walk key i l.size x
    Function.update (l.search key i found.1) i found

/-- `SkipList::find`: the neighbours on every level, and the node that has the key. -/
def find (l : SkipList K V) (key : K) : (ℕ → ℕ × Option ℕ) × Option ℕ :=
  let r := l.search key maxHeight 0
  (r, (r 0).2.filter fun n => (l.node n).key = key)

def setLink (l : SkipList K V) (x i n : ℕ) : SkipList K V where
  node := Function.update l.node x
    { l.node x with next := Function.update (l.node x).next i (some n) }
  size := l.size

/-- The compare-exchanges of `insert` on the levels below `h`, lowest first. -/
def linkLevels (r : ℕ → ℕ × Option ℕ) (n : ℕ) : ℕ → SkipList K V → SkipList K V
  | 0, l => l
  | h + 1, l => (linkLevels r n h l).setLink (r h).1 h n

/-- `Node::create` with the links `insert` stores into it before it is published. -/
def allocate (l : SkipList K V) (r : ℕ → ℕ × Option ℕ) (key : K) (value : Option V)
    (height : ℕ) : SkipList K V where
  node := Function.update l.node l.size
    ⟨key, value, height, fun i => if i < height then (r i).2 else none⟩
  size := l.size + 1

def setValue (l : SkipList K V) (n : ℕ) (value : Option V) : SkipList K V where
  node := Function.update l.node n { l.node n with value := value }
  size := l.size

/-- `SkipList::InsertResult`, with the displaced value itself. -/
structure InsertResult (V : Type*) where
  inserted : Bool
  replaced : Option V

/-- `SkipList::insert` with the height `randomHeight` draws for a new node. -/
def insert (l : SkipList K V) (key : K) (value : Option V) (height : ℕ) :
    SkipList K V × InsertResult V :=
  match l.find key with
  | (_, some n) => (l.setValue n value, ⟨false, (l.node n).value⟩)
  | (r, none) => (linkLevels r l.size height (l.allocate r key value height), ⟨true, none⟩)

/-- Iteration along level zero after node `x`. -/
def toListFrom (l : SkipList K V) : ℕ → ℕ → List (K × Option V)
  | 0, _ => []
  | fuel + 1, x =>
    match l.link x 0 with
    | none => []
    | some n => ((l.node n).key, (l.node n).value) :: l.toListFrom fuel n

/-- `begin()` to `end()`. -/
def toList (l : SkipList K V) : List (K × Option V) := l.toListFrom l.size 0

/-- `seek(key)` to `end()`: iteration from the successor that `find` has on the lowest level. -/
def seek (l : SkipList K V) (key : K) : List (K × Option V) :=
  match ((l.find key).1 0).2 with
  | none => []
  | some n => ((l.node n).key, (l.node n).value) :: l.toListFrom l.size n

end Operations

/-! ### Chains -/

/-- Following level `i` from `x` visits exactly the given addresses. -/
def Linked (l : SkipList K V) (i : ℕ) : ℕ → List ℕ → Prop
  | x, [] => l.link x i = none
  | x, n :: ns => l.link x i = some n ∧ l.Linked i n ns

theorem Linked.link_eq {l : SkipList K V} {i x : ℕ} {ns : List ℕ} (h : l.Linked i x ns) :
    l.link x i = ns.head? := by
  cases ns with
  | nil => exact h
  | cons n ns => exact h.1

theorem Linked.of_append {l : SkipList K V} {i x : ℕ} {as bs : List ℕ}
    (h : l.Linked i x (as ++ bs)) : l.Linked i (as.getLastD x) bs := by
  induction as generalizing x with
  | nil => exact h
  | cons a as ih =>
    rw [List.getLastD_cons]
    exact ih h.2

/-- Only the links out of `x` and of the visited nodes matter. -/
theorem Linked.congr {l l' : SkipList K V} {i x : ℕ} {ns : List ℕ} (h : l.Linked i x ns)
    (heq : ∀ a, a = x ∨ a ∈ ns → l'.link a i = l.link a i) : l'.Linked i x ns := by
  induction ns generalizing x with
  | nil => exact (heq x (.inl rfl)).trans h
  | cons n ns ih =>
    refine ⟨(heq x (.inl rfl)).trans h.1, ih h.2 ?_⟩
    intro a ha
    apply heq
    rcases ha with rfl | ha
    · exact .inr List.mem_cons_self
    · exact .inr (List.mem_cons_of_mem _ ha)

/-- Splicing a fresh node in after `as`: its predecessor gets a new link, all other links of
the level stay. -/
theorem Linked.splice {l l' : SkipList K V} {i x n : ℕ} {as bs : List ℕ}
    (h : l.Linked i x (as ++ bs)) (hnodup : (x :: (as ++ bs)).Nodup)
    (hpred : l'.link (as.getLastD x) i = some n) (hnew : l'.link n i = bs.head?)
    (hrest : ∀ a, a ≠ as.getLastD x → a = x ∨ a ∈ as ++ bs → l'.link a i = l.link a i) :
    l'.Linked i x (as ++ n :: bs) := by
  induction as generalizing x with
  | nil =>
    refine ⟨hpred, ?_⟩
    cases bs with
    | nil => exact hnew
    | cons b bs =>
      refine ⟨hnew, Linked.congr h.2 ?_⟩
      intro a ha
      have hmem : a ∈ b :: bs := by
        rcases ha with rfl | ha
        · exact List.mem_cons_self
        · exact List.mem_cons_of_mem _ ha
      apply hrest a _ (.inr hmem)
      rintro rfl
      exact (List.nodup_cons.mp hnodup).1 hmem
  | cons b as ih =>
    obtain ⟨hx, hnodup'⟩ := List.nodup_cons.mp hnodup
    rw [List.getLastD_cons] at hpred hrest
    have hne : x ≠ as.getLastD b := by
      intro heq
      apply hx
      rw [heq, List.getLastD_eq_getLast?]
      cases hl : as.getLast? with
      | none => exact List.mem_cons_self
      | some y => exact List.mem_cons_of_mem _ (List.mem_append_left _ (List.mem_of_getLast? hl))
    refine ⟨(hrest x hne (.inl rfl)).trans h.1, ih h.2 hnodup' hpred ?_⟩
    intro a ha hmem
    apply hrest a ha
    right
    rcases hmem with rfl | hmem
    · exact List.mem_cons_self
    · exact List.mem_cons_of_mem _ hmem

/-! ### Searching -/

section Search
variable [LinearOrder K]

theorem walk_linked {l : SkipList K V} {key : K} {i x fuel : ℕ} {as bs : List ℕ}
    (h : l.Linked i x (as ++ bs)) (has : ∀ a ∈ as, (l.node a).key < key)
    (hbs : ∀ b ∈ bs, ¬ (l.node b).key < key) (hfuel : as.length ≤ fuel) :
    l.walk key i fuel x = (as.getLastD x, bs.head?) := by
  induction as generalizing x fuel with
  | nil =>
    have hlink : l.link x i = bs.head? := Linked.link_eq h
    cases fuel with
    | zero => rw [walk, hlink]; rfl
    | succ fuel =>
      cases bs with
      | nil => rw [walk, hlink]; rfl
      | cons b bs =>
        rw [walk, hlink]
        simp [hbs b List.mem_cons_self]
  | cons a as ih =>
    cases fuel with
    | zero => simp at hfuel
    | succ fuel =>
      have hlink : l.link x i = some a := h.1
      rw [walk, hlink, List.getLastD_cons]
      simp only [has a List.mem_cons_self, ↓reduceIte]
      exact ih h.2 (fun b hb => has b (List.mem_cons_of_mem _ hb))
        (Nat.le_of_succ_le_succ (by simpa using hfuel))

/-- What a skip list represents: the addresses of its nodes in key order. -/
structure Valid (l : SkipList K V) (order : List ℕ) : Prop where
  size_pos : 0 < l.size
  addresses : ∀ a, a ∈ order ↔ 0 < a ∧ a < l.size
  sorted : order.Pairwise (fun a b => (l.node a).key < (l.node b).key)
  chain : ∀ i < maxHeight, l.Linked i 0 (order.filter fun a => i < (l.node a).height)
  height : ∀ a ∈ order, 0 < (l.node a).height

/-- The nodes of level `i` with a smaller key, and the others. -/
def below (l : SkipList K V) (key : K) (order : List ℕ) (i : ℕ) : List ℕ :=
  (order.filter fun a => (l.node a).key < key).filter fun a => i < (l.node a).height

def above (l : SkipList K V) (key : K) (order : List ℕ) (i : ℕ) : List ℕ :=
  (order.filter fun a => ¬ (l.node a).key < key).filter fun a => i < (l.node a).height

/-- A sorted list falls apart into the smaller elements and the others. -/
theorem filter_lt_append_filter_not_lt {α : Type*} {f : α → K} {l : List α} (key : K)
    (h : l.Pairwise fun a b => f a < f b) :
    (l.filter fun a => f a < key) ++ (l.filter fun a => ¬ f a < key) = l := by
  induction l with
  | nil => rfl
  | cons a l ih =>
    obtain ⟨ha, hl⟩ := List.pairwise_cons.mp h
    by_cases hlt : f a < key
    · simp only [hlt, not_true_eq_false, decide_true, decide_false, List.filter_cons_of_pos,
        List.filter_cons_of_neg, Bool.false_eq_true, not_false_eq_true, List.cons_append]
      rw [ih hl]
    · have hnone : (l.filter fun b => f b < key) = [] := by
        rw [List.filter_eq_nil_iff]
        intro b hb
        simp only [decide_eq_true_eq, not_lt]
        exact (not_lt.mp hlt).trans (ha b hb).le
      have hall : (l.filter fun b => ¬ f b < key) = l := by
        rw [List.filter_eq_self]
        intro b hb
        simp only [decide_eq_true_eq, not_lt]
        exact (not_lt.mp hlt).trans (ha b hb).le
      simp only [hlt, decide_false, Bool.false_eq_true, not_false_eq_true,
        List.filter_cons_of_neg, decide_true, List.filter_cons_of_pos]
      rw [hnone, hall, List.nil_append]

variable {l : SkipList K V} {order : List ℕ}

theorem Valid.below_append_above (h : l.Valid order) (key : K) (i : ℕ) :
    l.below key order i ++ l.above key order i =
      order.filter fun a => i < (l.node a).height := by
  rw [below, above, ← List.filter_append, filter_lt_append_filter_not_lt key h.sorted]

theorem below_lt {key : K} {i : ℕ} : ∀ a ∈ l.below key order i, (l.node a).key < key := by
  intro a ha
  simpa using (List.mem_filter.mp (List.mem_filter.mp ha).1).2

theorem above_not_lt {key : K} {i : ℕ} :
    ∀ a ∈ l.above key order i, ¬ (l.node a).key < key := by
  intro a ha
  simpa using (List.mem_filter.mp (List.mem_filter.mp ha).1).2

theorem Valid.nodup (h : l.Valid order) : order.Nodup :=
  h.sorted.imp fun hab heq => by simp [heq] at hab

theorem Valid.length_le (h : l.Valid order) : order.length ≤ l.size := by
  have hsub : order ⊆ List.range l.size := by
    intro a ha
    exact List.mem_range.mpr ((h.addresses a).mp ha).2
  simpa using (h.nodup.subperm hsub).length_le

/-- A walk on a level may start at the head or at any smaller node of the level. -/
theorem Valid.walk_eq (h : l.Valid order) (key : K) {i x : ℕ} (hi : i < maxHeight)
    (hx : x = 0 ∨ x ∈ l.below key order i) :
    l.walk key i l.size x =
      ((l.below key order i).getLastD 0, (l.above key order i).head?) := by
  have hchain := h.chain i hi
  rw [← h.below_append_above key i] at hchain
  have hlen : (l.below key order i).length ≤ l.size := by
    refine Nat.le_trans ?_ h.length_le
    exact (List.length_filter_le _ _).trans (List.length_filter_le _ _)
  rcases hx with rfl | hx
  · exact walk_linked hchain below_lt above_not_lt hlen
  · obtain ⟨as, bs, hsplit⟩ := List.append_of_mem hx
    rw [hsplit, List.append_assoc] at hchain
    have hlinked : l.Linked i x (bs ++ l.above key order i) := by
      have := Linked.of_append hchain
      exact this.2
    have hlast : (l.below key order i).getLastD 0 = bs.getLastD x := by
      rw [hsplit, List.getLastD_eq_getLast?, List.getLastD_eq_getLast?, List.getLast?_append,
        List.getLast?_cons]
      cases bs.getLast? <;> rfl
    rw [hlast]
    apply walk_linked hlinked
    · intro b hb
      apply below_lt b
      rw [hsplit]
      exact List.mem_append_right _ (List.mem_cons_of_mem _ hb)
    · exact above_not_lt
    · rw [hsplit] at hlen
      simp only [List.length_append, List.length_cons] at hlen
      omega

theorem Valid.search_eq (h : l.Valid order) (key : K) {i x : ℕ} (hi : i ≤ maxHeight)
    (hx : x = 0 ∨ ∀ j < i, x ∈ l.below key order j) {j : ℕ} (hj : j < i) :
    l.search key i x j = ((l.below key order j).getLastD 0, (l.above key order j).head?) := by
  induction i generalizing x with
  | zero => omega
  | succ i ih =>
    have hwalk := h.walk_eq key (i := i) (x := x) (by omega)
      (hx.imp_right fun hall => hall i (Nat.lt_succ_self i))
    rw [search, hwalk]
    by_cases hji : j = i
    · rw [hji, Function.update_self]
    · rw [Function.update_of_ne hji]
      apply ih (by omega) _ (by omega)
      -- The predecessor on a level is a node of every lower level too.
      rw [List.getLastD_eq_getLast?]
      cases hlast : (l.below key order i).getLast? with
      | none => exact .inl rfl
      | some y =>
        right
        intro m hm
        obtain ⟨hlt, hheight⟩ := List.mem_filter.mp (List.mem_of_getLast? hlast)
        refine List.mem_filter.mpr ⟨hlt, ?_⟩
        simp only [decide_eq_true_eq, Option.getD_some] at hheight ⊢
        omega

/-- The first node whose key is not smaller, on the lowest level. -/
theorem Valid.above_zero (h : l.Valid order) (key : K) :
    l.above key order 0 = order.filter fun a => ¬ (l.node a).key < key := by
  rw [above, List.filter_eq_self]
  intro a ha
  simpa using h.height a (List.mem_filter.mp ha).1

theorem Valid.below_zero (h : l.Valid order) (key : K) :
    l.below key order 0 = order.filter fun a => (l.node a).key < key := by
  rw [below, List.filter_eq_self]
  intro a ha
  simpa using h.height a (List.mem_filter.mp ha).1

theorem Valid.find_fst (h : l.Valid order) (key : K) {i : ℕ} (hi : i < maxHeight) :
    (l.find key).1 i = ((l.below key order i).getLastD 0, (l.above key order i).head?) :=
  h.search_eq key (Nat.le_refl _) (.inl rfl) hi

theorem Valid.find_snd (h : l.Valid order) (key : K) :
    (l.find key).2 = (l.above key order 0).head?.filter fun n => (l.node n).key = key := by
  have hzero := h.find_fst key (i := 0) (by decide)
  show ((l.find key).1 0).2.filter _ = _
  rw [hzero]

/-- A found node stands right after all smaller ones, and the keys behind it are larger. -/
theorem Valid.split_of_find (h : l.Valid order) {key : K} {n : ℕ}
    (hfind : (l.find key).2 = some n) :
    (l.node n).key = key ∧ ∃ as bs, order = as ++ n :: bs ∧
      (∀ a ∈ as, (l.node a).key < key) ∧ ∀ b ∈ bs, key < (l.node b).key := by
  rw [h.find_snd, Option.filter_eq_some_iff] at hfind
  obtain ⟨hhead, hkey⟩ := hfind
  have hkey : (l.node n).key = key := by simpa using hkey
  cases habove : l.above key order 0 with
  | nil => simp [habove] at hhead
  | cons m bs =>
    obtain rfl : m = n := by simpa [habove] using hhead
    have hsplit := filter_lt_append_filter_not_lt key h.sorted
    rw [← h.above_zero, ← h.below_zero, habove] at hsplit
    refine ⟨hkey, _, bs, hsplit.symm, below_lt, ?_⟩
    have hsorted := h.sorted
    rw [← hsplit] at hsorted
    intro b hb
    rw [← hkey]
    exact (List.pairwise_cons.mp (List.pairwise_append.mp hsorted).2.1).1 b hb

/-- Without a hit, the keys that are not smaller are larger. -/
theorem Valid.lt_of_find (h : l.Valid order) {key : K} (hfind : (l.find key).2 = none) {a : ℕ}
    (ha : a ∈ order) (hlt : ¬ (l.node a).key < key) : key < (l.node a).key := by
  have hmem : a ∈ l.above key order 0 := by
    rw [h.above_zero]
    exact List.mem_filter.mpr ⟨ha, by simpa using hlt⟩
  have hsorted : (l.above key order 0).Pairwise fun a b => (l.node a).key < (l.node b).key :=
    (h.sorted.filter _).filter _
  rw [h.find_snd] at hfind
  cases habove : l.above key order 0 with
  | nil => simp [habove] at hmem
  | cons m bs =>
    have hfirst : m ∈ l.above key order 0 := by simp [habove]
    have hm : ¬ (l.node m).key < key := above_not_lt m hfirst
    have hne : (l.node m).key ≠ key := by simpa [habove] using hfind
    have hgt : key < (l.node m).key := lt_of_le_of_ne (not_lt.mp hm) hne.symm
    rw [habove] at hmem hsorted
    rcases List.mem_cons.mp hmem with rfl | hmem
    · exact hgt
    · exact hgt.trans ((List.pairwise_cons.mp hsorted).1 a hmem)

end Search

/-! ### Linking -/

theorem linkLevels_link (r : ℕ → ℕ × Option ℕ) (n h : ℕ) (l : SkipList K V) (a i : ℕ) :
    (linkLevels r n h l).link a i = if i < h ∧ a = (r i).1 then some n else l.link a i := by
  induction h with
  | zero => simp [linkLevels]
  | succ h ih =>
    have hset : (linkLevels r n (h + 1) l).link a i =
        if a = (r h).1 ∧ i = h then some n else (linkLevels r n h l).link a i := by
      simp only [linkLevels, setLink, link, Function.update_apply]
      split_ifs with ha hi <;> simp_all
    rw [hset, ih]
    by_cases hi : i = h
    · subst hi
      simp
    · have hlt : i < h + 1 ↔ i < h := by omega
      simp [hi, hlt]

/-- Linking touches nothing but links. -/
theorem linkLevels_node (r : ℕ → ℕ × Option ℕ) (n h : ℕ) (l : SkipList K V) (a : ℕ) :
    ((linkLevels r n h l).node a).key = (l.node a).key ∧
    ((linkLevels r n h l).node a).value = (l.node a).value ∧
    ((linkLevels r n h l).node a).height = (l.node a).height := by
  induction h with
  | zero => exact ⟨rfl, rfl, rfl⟩
  | succ h ih =>
    simp only [linkLevels, setLink, Function.update_apply]
    split_ifs with ha
    · subst ha
      exact ih
    · exact ih

theorem linkLevels_size (r : ℕ → ℕ × Option ℕ) (n h : ℕ) (l : SkipList K V) :
    (linkLevels r n h l).size = l.size := by
  induction h with
  | zero => rfl
  | succ h ih => exact ih

theorem allocate_node_size (l : SkipList K V) (r : ℕ → ℕ × Option ℕ) (key : K) (v : Option V) (height : ℕ) :
    (l.allocate r key v height).node l.size =
      ⟨key, v, height, fun i => if i < height then (r i).2 else none⟩ := Function.update_self _ _ _

/-! ### Contents -/

/-- The entries of the given nodes. -/
def entriesOf (l : SkipList K V) (order : List ℕ) : List (K × Option V) :=
  order.map fun a => ((l.node a).key, (l.node a).value)

theorem toListFrom_linked {l : SkipList K V} {x fuel : ℕ} {ns : List ℕ} (h : l.Linked 0 x ns)
    (hfuel : ns.length ≤ fuel) : l.toListFrom fuel x = l.entriesOf ns := by
  induction ns generalizing x fuel with
  | nil =>
    cases fuel with
    | zero => rfl
    | succ fuel =>
      have hlink : l.link x 0 = none := h
      rw [toListFrom, hlink]
      rfl
  | cons n ns ih =>
    cases fuel with
    | zero => simp at hfuel
    | succ fuel =>
      rw [toListFrom, h.1]
      simp only [entriesOf, List.map_cons]
      rw [ih h.2 (by simpa using hfuel)]
      rfl

theorem key_lt_of_nodes [LinearOrder K] {l : SkipList K V} {ns : List ℕ} {key : K}
    (h : ∀ a ∈ ns, (l.node a).key < key) : ∀ e ∈ l.entriesOf ns, e.1 < key := by
  intro e he
  obtain ⟨a, ha, rfl⟩ := List.mem_map.mp he
  exact h a ha

theorem lt_key_of_nodes [LinearOrder K] {l : SkipList K V} {ns : List ℕ} {key : K}
    (h : ∀ a ∈ ns, key < (l.node a).key) : ∀ e ∈ l.entriesOf ns, key < e.1 := by
  intro e he
  obtain ⟨a, ha, rfl⟩ := List.mem_map.mp he
  exact h a ha

section Contents
variable [LinearOrder K] {l : SkipList K V} {order : List ℕ}

theorem Valid.toList_eq (h : l.Valid order) : l.toList = l.entriesOf order := by
  have hchain := h.chain 0 (by decide)
  rw [List.filter_eq_self.mpr (fun a ha => by simpa using h.height a ha)] at hchain
  exact toListFrom_linked hchain h.length_le

theorem Valid.sorted_toList (h : l.Valid order) : Sorted l.toList := by
  rw [h.toList_eq, Sorted, entriesOf, List.pairwise_map]
  exact h.sorted

/-- `seek` starts at the first key that is not smaller. -/
theorem Valid.seek_eq (h : l.Valid order) (key : K) : l.seek key = l.toList.filter (key ≤ ·.1) := by
  have hfilter : l.toList.filter (key ≤ ·.1) = l.entriesOf (l.above key order 0) := by
    simp only [h.toList_eq, h.above_zero, entriesOf, List.filter_map, not_lt]
    rfl
  have hchain := h.chain 0 (by decide)
  rw [← h.below_append_above key 0] at hchain
  have hlinked : l.Linked 0 _ (l.above key order 0) := hchain.of_append
  have hlen : (l.above key order 0).length ≤ l.size :=
    ((List.length_filter_le _ _).trans (List.length_filter_le _ _)).trans h.length_le
  rw [hfilter, seek, h.find_fst key (by decide)]
  cases habove : l.above key order 0 with
  | nil => rfl
  | cons n ns =>
    rw [habove] at hlinked hlen
    have htail := toListFrom_linked hlinked.2 (Nat.le_of_succ_le (by simpa using hlen))
    simp only [List.head?_cons, htail]
    rfl

/-- The node `find` hits holds the entry of the key. -/
theorem Valid.find_value (h : l.Valid order) (key : K) :
    (l.find key).2.map (fun n => (l.node n).value) = lookup key l.toList := by
  cases hfind : (l.find key).2 with
  | some n =>
    obtain ⟨hkey, as, bs, hsplit, -⟩ := h.split_of_find hfind
    symm
    apply lookup_of_mem h.sorted_toList.keys_ne
    rw [h.toList_eq, hsplit, entriesOf, ← hkey]
    exact List.mem_map_of_mem (List.mem_append_right _ List.mem_cons_self)
  | none =>
    symm
    rw [Option.map_none, lookup_eq_none_iff, h.toList_eq]
    intro e he heq
    obtain ⟨a, ha, rfl⟩ := List.mem_map.mp he
    have heq : (l.node a).key = key := heq
    have hlt := h.lt_of_find hfind ha (by simp [heq])
    simp [heq] at hlt

/-! ### Insertion -/

theorem Valid.empty [Inhabited K] : (SkipList.empty : SkipList K V).Valid [] where
  size_pos := by simp [SkipList.empty]
  addresses := by simp [SkipList.empty]; omega
  sorted := List.Pairwise.nil
  chain := fun _ _ => rfl
  height := by simp

theorem Valid.setValue (h : l.Valid order) (n : ℕ) (v : Option V) :
    (l.setValue n v).Valid order := by
  have hnode : ∀ a, ((l.setValue n v).node a).key = (l.node a).key ∧
      ((l.setValue n v).node a).height = (l.node a).height ∧
      ((l.setValue n v).node a).next = (l.node a).next := by
    intro a
    simp only [SkipList.setValue, Function.update_apply]
    split_ifs with ha
    · subst ha
      exact ⟨rfl, rfl, rfl⟩
    · exact ⟨rfl, rfl, rfl⟩
  constructor
  · exact h.size_pos
  · exact h.addresses
  · simpa only [hnode] using h.sorted
  · intro i hi
    simp only [hnode]
    apply (h.chain i hi).congr
    intro a _
    simp only [link, hnode]
  · simpa only [hnode] using h.height

theorem Valid.entriesOf_setValue (h : l.Valid order) {key : K} {n : ℕ} (v : Option V)
    (hfind : (l.find key).2 = some n) :
    (l.setValue n v).entriesOf order = upsert key v (l.entriesOf order) := by
  obtain ⟨hkey, as, bs, rfl, has, hbs⟩ := h.split_of_find hfind
  have hother : ∀ a, (l.node a).key ≠ key → (l.setValue n v).node a = l.node a := by
    intro a hne
    apply Function.update_of_ne
    rintro rfl
    exact hne hkey
  have hself : (l.setValue n v).node n = { l.node n with value := v } := by simp [SkipList.setValue]
  have hmap : ∀ ns : List ℕ, (∀ a ∈ ns, (l.node a).key ≠ key) →
      (l.setValue n v).entriesOf ns = l.entriesOf ns := by
    intro ns hns
    exact List.map_congr_left fun a ha => by rw [hother a (hns a ha)]
  have hupsert := upsert_append v _ (l.entriesOf [n]) _ (key_lt_of_nodes has)
    (by simp [entriesOf, hkey]) (lt_key_of_nodes hbs)
  have hold : l.entriesOf (as ++ n :: bs) = l.entriesOf as ++ l.entriesOf [n] ++ l.entriesOf bs := by
    simp [entriesOf]
  have hnew : (l.setValue n v).entriesOf (as ++ n :: bs) =
      (l.setValue n v).entriesOf as ++ (key, v) :: (l.setValue n v).entriesOf bs := by
    simp [entriesOf, hself, hkey]
  rw [hold, hupsert, hnew, hmap as (fun a ha => (has a ha).ne), hmap bs (fun b hb => (hbs b hb).ne')]

/-- The list after `insert` has linked the new node `l.size`. -/
def spliced (l : SkipList K V) (key : K) (v : Option V) (height : ℕ) : SkipList K V :=
  linkLevels (l.find key).1 l.size height (l.allocate (l.find key).1 key v height)

variable {key : K} {v : Option V} {height : ℕ}

theorem spliced_node_of_ne (key : K) (v : Option V) (height : ℕ) {a : ℕ} (ha : a ≠ l.size) :
    ((l.spliced key v height).node a).key = (l.node a).key ∧
    ((l.spliced key v height).node a).value = (l.node a).value ∧
    ((l.spliced key v height).node a).height = (l.node a).height := by
  have hnode := linkLevels_node (l.find key).1 l.size height
    (l.allocate (l.find key).1 key v height) a
  have hold : (l.allocate (l.find key).1 key v height).node a = l.node a :=
    Function.update_of_ne ha _ _
  rw [hold] at hnode
  exact hnode

theorem spliced_node_size :
    ((l.spliced key v height).node l.size).key = key ∧
    ((l.spliced key v height).node l.size).value = v ∧
    ((l.spliced key v height).node l.size).height = height := by
  have hnode := linkLevels_node (l.find key).1 l.size height
    (l.allocate (l.find key).1 key v height) l.size
  rw [allocate_node_size] at hnode
  exact hnode

/-- The order of the nodes once the new one stands behind the smaller keys. -/
def splicedOrder (l : SkipList K V) (key : K) (order : List ℕ) : List ℕ :=
  order.filter (fun a => (l.node a).key < key) ++
    l.size :: order.filter fun a => ¬ (l.node a).key < key

theorem Valid.ne_size (h : l.Valid order) {a : ℕ} (ha : a ∈ order) : a ≠ l.size :=
  Nat.ne_of_lt ((h.addresses a).mp ha).2

theorem Valid.mem_splicedOrder (h : l.Valid order) (key : K) (a : ℕ) :
    a ∈ l.splicedOrder key order ↔ a = l.size ∨ a ∈ order := by
  have hsplit := filter_lt_append_filter_not_lt key h.sorted
  rw [← hsplit, splicedOrder, List.mem_append, List.mem_append, List.mem_cons, hsplit]
  tauto

theorem Valid.chain_spliced (h : l.Valid order) {i : ℕ} (hi : i < maxHeight) :
    (l.spliced key v height).Linked i 0
      (l.below key order i ++ if i < height then l.size :: l.above key order i
        else l.above key order i) := by
  have hold := h.chain i hi
  rw [← h.below_append_above key i] at hold
  have hmem : ∀ a, a = 0 ∨ a ∈ l.below key order i ++ l.above key order i → a ≠ l.size := by
    rintro a (rfl | ha)
    · exact h.size_pos.ne
    · rw [h.below_append_above] at ha
      exact h.ne_size (List.mem_filter.mp ha).1
  have hlink : ∀ a, (l.spliced key v height).link a i =
      if i < height ∧ a = (l.below key order i).getLastD 0 then some l.size
      else (l.allocate (l.find key).1 key v height).link a i := by
    intro a
    rw [spliced, linkLevels_link, h.find_fst key hi]
  have hallocate : ∀ a, a ≠ l.size →
      (l.allocate (l.find key).1 key v height).link a i = l.link a i := by
    intro a ha
    simp only [link, allocate, Function.update_of_ne ha]
  by_cases hheight : i < height
  · rw [if_pos hheight]
    apply hold.splice
    · refine List.nodup_cons.mpr ⟨?_, ?_⟩
      · rw [h.below_append_above]
        intro hzero
        exact absurd ((h.addresses 0).mp (List.mem_filter.mp hzero).1).1 (lt_irrefl 0)
      · rw [h.below_append_above]
        exact h.nodup.filter _
    · rw [hlink, if_pos ⟨hheight, rfl⟩]
    · have hne : l.size ≠ (l.below key order i).getLastD 0 := by
        intro heq
        have hlast := List.getLastD_mem_cons (l := l.below key order i) (a := 0)
        rw [← heq] at hlast
        apply hmem l.size _ rfl
        rcases List.mem_cons.mp hlast with hz | hb
        · exact .inl hz
        · exact .inr (List.mem_append_left _ hb)
      rw [hlink, if_neg (fun hc => hne hc.2), link, allocate_node_size]
      simp only [hheight, if_true, h.find_fst key hi]
    · intro a hne ha
      rw [hlink, if_neg (fun hc => hne hc.2), hallocate a (hmem a ha)]
  · rw [if_neg hheight]
    apply hold.congr
    intro a ha
    rw [hlink, if_neg (fun hc => hheight hc.1), hallocate a (hmem a ha)]

theorem Valid.sorted_spliced (h : l.Valid order) (hfind : (l.find key).2 = none) :
    (l.splicedOrder key order).Pairwise fun a b =>
      ((l.spliced key v height).node a).key < ((l.spliced key v height).node b).key := by
  have hold : order.Pairwise fun a b =>
      ((l.spliced key v height).node a).key < ((l.spliced key v height).node b).key := by
    refine h.sorted.imp_of_mem ?_
    intro a b ha hb hab
    rwa [(spliced_node_of_ne _ _ _ (h.ne_size ha)).1, (spliced_node_of_ne _ _ _ (h.ne_size hb)).1]
  have hsmall : ∀ a ∈ order.filter (fun a => (l.node a).key < key),
      ((l.spliced key v height).node a).key < key := by
    intro a ha
    obtain ⟨ha, hlt⟩ := List.mem_filter.mp ha
    rw [(spliced_node_of_ne _ _ _ (h.ne_size ha)).1]
    simpa using hlt
  have hlarge : ∀ b ∈ order.filter (fun a => ¬ (l.node a).key < key),
      key < ((l.spliced key v height).node b).key := by
    intro b hb
    obtain ⟨hb, hlt⟩ := List.mem_filter.mp hb
    rw [(spliced_node_of_ne _ _ _ (h.ne_size hb)).1]
    exact h.lt_of_find hfind hb (by simpa using hlt)
  refine List.pairwise_append.mpr
    ⟨hold.filter _, List.pairwise_cons.mpr ⟨?_, hold.filter _⟩, ?_⟩
  · intro b hb
    rw [spliced_node_size.1]
    exact hlarge b hb
  · intro a ha b hb
    rcases List.mem_cons.mp hb with rfl | hb
    · rw [spliced_node_size.1]
      exact hsmall a ha
    · exact (hsmall a ha).trans (hlarge b hb)

theorem Valid.spliced (h : l.Valid order) (hfind : (l.find key).2 = none) (hpos : 0 < height) :
    (l.spliced key v height).Valid (l.splicedOrder key order) where
  size_pos := by rw [SkipList.spliced, linkLevels_size]; exact Nat.succ_pos _
  addresses := by
    intro a
    have hsize : (l.spliced key v height).size = l.size + 1 := by
      rw [SkipList.spliced, linkLevels_size]
      rfl
    rw [h.mem_splicedOrder, h.addresses, hsize]
    have := h.size_pos
    omega
  sorted := h.sorted_spliced hfind
  chain := by
    intro i hi
    have hheight : ∀ p : ℕ → Bool,
        ((order.filter p).filter fun a => i < ((l.spliced key v height).node a).height) =
          (order.filter p).filter fun a => i < (l.node a).height := by
      intro p
      apply List.filter_congr
      intro a ha
      rw [(spliced_node_of_ne _ _ _ (h.ne_size (List.mem_filter.mp ha).1)).2.2]
    have hlevel : ((l.splicedOrder key order).filter fun a =>
        i < ((l.spliced key v height).node a).height) =
        l.below key order i ++ if i < height then l.size :: l.above key order i
          else l.above key order i := by
      rw [splicedOrder, List.filter_append, List.filter_cons, hheight, hheight, spliced_node_size.2.2]
      by_cases hlt : i < height
      · simp [hlt, below, above]
      · simp [hlt, below, above]
    rw [hlevel]
    exact h.chain_spliced hi
  height := by
    intro a ha
    rcases (h.mem_splicedOrder key a).mp ha with rfl | ha
    · rw [spliced_node_size.2.2]
      exact hpos
    · rw [(spliced_node_of_ne _ _ _ (h.ne_size ha)).2.2]
      exact h.height a ha

theorem Valid.entriesOf_spliced (h : l.Valid order) (hfind : (l.find key).2 = none) :
    (l.spliced key v height).entriesOf (l.splicedOrder key order) =
      upsert key v (l.entriesOf order) := by
  have hmap : ∀ p : ℕ → Bool,
      (l.spliced key v height).entriesOf (order.filter p) = l.entriesOf (order.filter p) := by
    intro p
    apply List.map_congr_left
    intro a ha
    have hnode := spliced_node_of_ne key v height (h.ne_size (List.mem_filter.mp ha).1)
    rw [hnode.1, hnode.2.1]
  have hupsert := upsert_append v (l.entriesOf (order.filter fun a => (l.node a).key < key)) []
    (l.entriesOf (order.filter fun a => ¬ (l.node a).key < key))
    (key_lt_of_nodes fun a ha => by simpa using (List.mem_filter.mp ha).2) (by simp)
    (lt_key_of_nodes fun a ha => by
      obtain ⟨ha, hlt⟩ := List.mem_filter.mp ha
      exact h.lt_of_find hfind ha (by simpa using hlt))
  have hold : l.entriesOf (order.filter fun a => (l.node a).key < key) ++ [] ++
      l.entriesOf (order.filter fun a => ¬ (l.node a).key < key) = l.entriesOf order := by
    rw [List.append_nil, entriesOf, entriesOf, ← List.map_append,
      filter_lt_append_filter_not_lt key h.sorted]
    rfl
  rw [hold] at hupsert
  rw [hupsert, ← hmap, ← hmap, splicedOrder]
  simp [entriesOf, spliced_node_size]

/-- `insert` keeps the list valid and sets the key, whatever height is drawn; it reports
whether the key was new and the value it displaced. -/
theorem Valid.insert (h : l.Valid order) (key : K) (v : Option V) {height : ℕ} (hpos : 0 < height) :
    (∃ order', (l.insert key v height).1.Valid order') ∧
    (l.insert key v height).1.toList = upsert key v l.toList ∧
    (l.insert key v height).2.inserted = (lookup key l.toList).isNone ∧
    (l.insert key v height).2.replaced = (lookup key l.toList).join := by
  rw [← h.find_value key]
  cases hfind : (l.find key).2 with
  | some n =>
    have hinsert : l.insert key v height = (l.setValue n v, ⟨false, (l.node n).value⟩) := by
      have hpair : l.find key = ((l.find key).1, some n) := Prod.ext rfl hfind
      rw [SkipList.insert, hpair]
    have hvalid := h.setValue n v
    rw [hinsert]
    refine ⟨⟨order, hvalid⟩, ?_, rfl, rfl⟩
    rw [hvalid.toList_eq, h.toList_eq, h.entriesOf_setValue v hfind]
  | none =>
    have hinsert : l.insert key v height = (l.spliced key v height, ⟨true, none⟩) := by
      have hpair : l.find key = ((l.find key).1, none) := Prod.ext rfl hfind
      rw [SkipList.insert, hpair]
      rfl
    have hvalid : (l.spliced key v height).Valid (l.splicedOrder key order) := h.spliced hfind hpos
    rw [hinsert]
    refine ⟨⟨_, hvalid⟩, ?_, rfl, rfl⟩
    rw [hvalid.toList_eq, h.toList_eq, h.entriesOf_spliced hfind]

end Contents

end SkipList

end LsmTree
