import LsmTree.ConcurrentSkipList

/-!
# What a skip list holds while it is written

The contents are what iteration along level 0 yields, and they are a sorted layer at every
moment. Of the steps of the threads two change them: the compare-exchange that succeeds on
level 0 adds an entry, and the store of a value puts another value into one. All others
store links above level 0 or in nodes that level 0 does not have, and the value of such
a node stays what its creator gave it.
-/

namespace LsmTree.SkipList
open LayeredMap

variable {K V : Type*}

@[simp] theorem value_store (l : SkipList K V) (x i : ℕ) (n : Option ℕ) (a : ℕ) :
    ((l.store x i n).node a).value = (l.node a).value := by
  by_cases h : a = x
  · simp [store, h]
  · simp [store, h]

theorem value_setValue_self (l : SkipList K V) (n : ℕ) (v : Option V) : ((l.setValue n v).node n).value = v := by
  simp [setValue]

theorem value_setValue_of_ne (l : SkipList K V) {n a : ℕ} (v : Option V) (h : a ≠ n) :
    ((l.setValue n v).node a).value = (l.node a).value := by
  simp [setValue, h]

section Contents
variable [LinearOrder K] {own : Option ℕ} {l l' : SkipList K V} {level level' : ℕ → List ℕ}

theorem Levels.length_le (h : l.Levels level) : (level 0).length ≤ l.size := by
  have hsub : level 0 ⊆ List.range l.size := by
    intro a ha
    exact List.mem_range.mpr (h.bounds 0 (by decide) a ha).2.1
  have hnodup : (level 0).Nodup := (List.nodup_cons.mp (h.nodup (by decide))).2
  simpa using (hnodup.subperm hsub).length_le

theorem Levels.toList_eq (h : l.Levels level) : l.toList = l.entriesOf (level 0) :=
  toListFrom_linked (h.linked 0 (by decide)) h.length_le

theorem Levels.sorted_toList (h : l.Levels level) : Sorted l.toList := by
  rw [h.toList_eq, Sorted, entriesOf, List.pairwise_map]
  exact h.sorted 0 (by decide)

theorem Levels.mem_toList (h : l.Levels level) {e : K × Option V} :
    e ∈ l.toList ↔ ∃ a ∈ level 0, (l.node a).key = e.1 ∧ (l.node a).value = e.2 := by
  rw [h.toList_eq, entriesOf, List.mem_map]
  simp only [Prod.ext_iff]

/-- A key is looked up in the contents by finding its node. -/
theorem Levels.lookup_eq_some (h : l.Levels level) {a : ℕ} (ha : a ∈ level 0) :
    lookup (l.node a).key l.toList = some (l.node a).value :=
  lookup_of_mem h.sorted_toList.keys_ne (h.mem_toList.mpr ⟨a, ha, rfl, rfl⟩)

theorem Levels.lookup_eq_none (h : l.Levels level) {key : K} (hne : ∀ a ∈ level 0, (l.node a).key ≠ key) :
    lookup key l.toList = none := by
  rw [lookup_eq_none_iff]
  intro e he
  obtain ⟨a, ha, hkey, -⟩ := h.mem_toList.mp he
  exact hkey ▸ hne a ha

/-- The same nodes with the same keys and values. -/
theorem Levels.toList_congr (h : l.Levels level) (h' : l'.Levels level)
    (hsame : ∀ a ∈ level 0, (l'.node a).key = (l.node a).key ∧ (l'.node a).value = (l.node a).value) :
    l'.toList = l.toList := by
  rw [h.toList_eq, h'.toList_eq, entriesOf, entriesOf]
  apply List.map_congr_left
  intro a ha
  rw [(hsame a ha).1, (hsame a ha).2]

/-- One node is new or has a new value. -/
theorem Levels.toList_upsert (h : l.Levels level) (h' : l'.Levels level') {n : ℕ}
    (hmem : ∀ a, a ∈ level' 0 ↔ a ∈ level 0 ∨ a = n)
    (hkey : ∀ a ∈ level 0, (l'.node a).key = (l.node a).key)
    (hvalue : ∀ a ∈ level 0, a ≠ n → (l'.node a).value = (l.node a).value) :
    l'.toList = upsert (l'.node n).key (l'.node n).value l.toList := by
  have hn : n ∈ level' 0 := (hmem n).mpr (.inr rfl)
  refine h'.sorted_toList.eq_of_mem_iff (sorted_upsert h.sorted_toList _ _) fun e => ?_
  rw [mem_upsert, h'.mem_toList, h.mem_toList]
  constructor
  · rintro ⟨a, ha, hakey, havalue⟩
    by_cases han : a = n
    · exact .inl (Prod.ext (han ▸ hakey.symm) (han ▸ havalue.symm))
    · have hold := ((hmem a).mp ha).resolve_right han
      refine .inr ⟨⟨a, hold, (hkey a hold).symm.trans hakey, (hvalue a hold han).symm.trans havalue⟩, fun heq => ?_⟩
      exact han (h'.eq_of_key_eq (by decide) ha hn (hakey.trans heq))
  · rintro (rfl | ⟨⟨a, ha, hakey, havalue⟩, hne⟩)
    · exact ⟨n, hn, rfl, rfl⟩
    · have hakey' := (hkey a ha).trans hakey
      have han : a ≠ n := by
        rintro rfl
        exact hne hakey'.symm
      exact ⟨a, (hmem a).mpr (.inl ha), hakey', (hvalue a ha han).trans havalue⟩

end Contents

end LsmTree.SkipList

namespace LsmTree.ConcurrentSkipList
open SkipList LayeredMap

variable {K V : Type*}

theorem list_raise (s : State K V) (t : ThreadId) (key : K) (n height i : ℕ) (r : Neighbours) :
    (raise s t key n height i r).list = s.list := by
  rw [raise]
  split_ifs
  · rfl
  · rfl

theorem list_draw (s : State K V) (t : ThreadId) (height : ℕ) :
    (draw s t height).list = s.list ∨ ∃ key value, (draw s t height).list = s.list.create key value height := by
  simp only [draw]
  split
  · exact .inr ⟨_, _, rfl⟩
  · exact .inl rfl

theorem pc_raise (s : State K V) (t : ThreadId) (key : K) (n height i : ℕ) (r : Neighbours) :
    (raise s t key n height i r).pc t = .raising key n height i r ∨ (raise s t key n height i r).pc t = .idle := by
  simp only [raise]
  split_ifs
  · exact .inl (Function.update_self _ _ _)
  · exact .inr (Function.update_self _ _ _)

theorem pc_raise_of_ne (s : State K V) {t u : ThreadId} (h : u ≠ t) (key : K) (n height i : ℕ) (r : Neighbours) :
    (raise s t key n height i r).pc u = s.pc u := by
  rw [raise]
  split_ifs
  · exact Function.update_of_ne h _ _
  · exact Function.update_of_ne h _ _

theorem pc_draw_of_ne (s : State K V) {t u : ThreadId} (h : u ≠ t) (height : ℕ) : (draw s t height).pc u = s.pc u := by
  simp only [draw]
  split
  · exact Function.update_of_ne h _ _
  · rfl

theorem node_draw (s : State K V) (t : ThreadId) (height : ℕ) {a : ℕ} (ha : a < s.list.size) :
    (draw s t height).list.node a = s.list.node a := by
  rcases list_draw s t height with heq | ⟨key, value, heq⟩
  · rw [heq]
  · rw [heq, s.list.node_create_of_lt key value height ha]

/-- A compare-exchange above level 0 leaves the contents alone. -/
theorem toList_exchange {s : State K V} {n i x : ℕ} (hi : i ≠ 0) :
    (s.list.store x i (some n)).toList = s.list.toList := by
  have hfrom : ∀ fuel y, (s.list.store x i (some n)).toListFrom fuel y = s.list.toListFrom fuel y := by
    intro fuel
    induction fuel with
    | zero => intro y; rfl
    | succ fuel ih =>
      intro y
      have hlink : (s.list.store x i (some n)).link y 0 = s.list.link y 0 := link_store_of_ne _ _ (.inr hi.symm)
      simp only [toListFrom, hlink, key_store, value_store, ih]
  exact hfrom s.list.size 0

section Steps
variable [LinearOrder K] {s : State K V} {level : ℕ → List ℕ} {t : ThreadId}

/-- What the next step of the thread writes into the contents. -/
def writes (s : State K V) (t : ThreadId) : Option (K × Option V) :=
  match s.pc t with
  | .replacing key value _ _ => some (key, value)
  | .publishing key _ n _ r =>
    if s.list.link (r 0).1 0 = (r 0).2 then some (key, (s.list.node n).value) else none
  | _ => none

/-- The contents after writing an entry, if there is one. -/
def written (e : Option (K × Option V)) (es : List (K × Option V)) : List (K × Option V) :=
  match e with
  | some (key, value) => upsert key value es
  | none => es

theorem finishFind_eq (s : State K V) (t : ThreadId) (c : Caller K V) (key : K) (r : Neighbours) :
    (finishFind s t c key r).list = s.list ∧ ∀ u, u ≠ t → (finishFind s t c key r).pc u = s.pc u := by
  cases c with
  | find before => exact ⟨rfl, fun u hu => Function.update_of_ne hu _ _⟩
  | insert value =>
    simp only [finishFind]
    split
    · exact ⟨rfl, fun u hu => Function.update_of_ne hu _ _⟩
    · exact ⟨rfl, fun u hu => Function.update_of_ne hu _ _⟩
  | relink n height i => exact ⟨rfl, fun u hu => Function.update_of_ne hu _ _⟩

/-- A load of `find` goes on, or it is the last one and stops at the link it has loaded. -/
theorem load_cases (s : State K V) (t : ThreadId) (c : Caller K V) (key : K) (i x : ℕ) (r : Neighbours) :
    (∃ i' x' r', load s t c key i x r = s.goto t (.finding c key i' x' r')) ∨
    (i = 0 ∧ (∀ y ∈ s.list.link x 0, ¬ (s.list.node y).key < key) ∧
      load s t c key i x r = finishFind s t c key (Function.update r 0 (x, s.list.link x 0))) := by
  have hend : (∀ y ∈ s.list.link x i, ¬ (s.list.node y).key < key) →
      (∃ i' x' r', endLevel s t c key i x r = s.goto t (.finding c key i' x' r')) ∨
      (i = 0 ∧ (∀ y ∈ s.list.link x 0, ¬ (s.list.node y).key < key) ∧
        endLevel s t c key i x r = finishFind s t c key (Function.update r 0 (x, s.list.link x 0))) := by
    intro hstop
    cases i with
    | zero => exact .inr ⟨rfl, hstop, rfl⟩
    | succ i => exact .inl ⟨_, _, _, rfl⟩
  simp only [load]
  split
  · rename_i n hn
    split_ifs with hlt
    · exact .inl ⟨_, _, _, rfl⟩
    · refine hend fun y hy => ?_
      rw [hn] at hy
      cases hy
      exact hlt
  · rename_i hn
    refine hend fun y hy => ?_
    rw [hn] at hy
    cases hy

theorem load_eq (s : State K V) (t : ThreadId) (c : Caller K V) (key : K) (i x : ℕ) (r : Neighbours) :
    (load s t c key i x r).list = s.list ∧ ∀ u, u ≠ t → (load s t c key i x r).pc u = s.pc u := by
  rcases load_cases s t c key i x r with ⟨i', x', r', heq⟩ | ⟨-, -, heq⟩
  · rw [heq]
    exact ⟨rfl, fun u hu => Function.update_of_ne hu _ _⟩
  · rw [heq]
    exact finishFind_eq s t c key _

/-- A step moves one thread only. -/
theorem pc_step_of_ne (s : State K V) {t u : ThreadId} (h : u ≠ t) : (step s t).pc u = s.pc u := by
  cases hpc : s.pc t with
  | idle => simp only [step, hpc]
  | drawing key value r => simp only [step, hpc]
  | finding c key i x r =>
    simp only [step, hpc]
    exact (load_eq s t c key i x r).2 u h
  | found key value n => simp only [step, hpc, State.goto, Function.update_of_ne h]
  | replacing key value n previous => simp only [step, hpc, State.goto, Function.update_of_ne h]
  | preparing key value n height i r => simp only [step, hpc, State.goto, Function.update_of_ne h]
  | publishing key value n height r =>
    simp only [step, hpc]
    split_ifs
    · exact pc_raise_of_ne _ h _ _ _ _ _
    · exact Function.update_of_ne h _ _
  | raising key n height i r => simp only [step, hpc, State.goto, Function.update_of_ne h]
  | linking key n height i r =>
    simp only [step, hpc]
    split_ifs
    · exact pc_raise_of_ne _ h _ _ _ _ _
    · exact Function.update_of_ne h _ _

/-- One step of a thread writes what it is said to write, and nothing else changes. -/
theorem toList_step (h : Inv s level) (t : ThreadId) :
    (step s t).list.toList = written (writes s t) s.list.toList := by
  have hp := h.threads t
  cases hpc : s.pc t with
  | idle => simp only [step, writes, written, hpc]
  | drawing key value r => simp only [step, writes, written, hpc]
  | finding c key i x r => simp only [step, writes, written, hpc, (load_eq s t c key i x r).1]
  | found key value n => simp only [step, writes, written, hpc, State.goto]
  | replacing key value n previous =>
    rw [hpc] at hp
    obtain ⟨hl, -⟩ := h.levels.setValue n value
    have hnode := fun a => s.list.setValue_node n a value
    have hcontents := h.levels.toList_upsert hl (n := n) (fun a => ⟨.inl, fun ha => ha.elim id (· ▸ hp.1)⟩)
      (fun a _ => (hnode a).1) fun a _ hne => s.list.value_setValue_of_ne value hne
    rw [(hnode n).1, hp.2, value_setValue_self] at hcontents
    simp only [step, writes, written, hpc]
    exact hcontents
  | preparing key value n height i r =>
    rw [hpc] at hp
    obtain ⟨hl, -, -⟩ := hp.1.store h.levels (Nat.zero_le i) (Nat.lt_of_lt_of_le hp.2.1 hp.1.height_le) (r i).2
    simp only [step, writes, written, hpc]
    exact h.levels.toList_congr hl fun a _ => ⟨key_store _ _ _ _ _, value_store _ _ _ _ _⟩
  | publishing key value n height r =>
    rw [hpc] at hp
    obtain ⟨ho, hpos, hr, hlink⟩ := hp
    by_cases hcas : s.list.link (r 0).1 0 = (r 0).2
    · have hfits : 0 < n ∧ n < s.list.size ∧ 0 < (s.list.node n).height := ⟨ho.pos, ho.lt_size, ho.height_eq ▸ hpos⟩
      obtain ⟨hbefore, hafter⟩ := hr 0 (by decide)
      obtain ⟨level', hl, hg, hon⟩ := h.levels.exchange (by decide) hfits ho.on (ho.key_eq ▸ hbefore)
        (fun y hy => ho.key_eq ▸ (hafter y (hcas ▸ hy)).2) (hlink.trans hcas.symm)
      have hmem : ∀ a, a ∈ level' 0 ↔ a ∈ level 0 ∨ a = n := by
        intro a
        constructor
        · intro ha
          obtain ⟨hapos, halt, -⟩ := hl.bounds 0 (by decide) a ha
          by_contra hnot
          obtain ⟨hold, hne⟩ := not_or.mp hnot
          exact (hg.others a 0 (fun heq => hne (Option.some.inj heq).symm) hapos halt hold).1 ha
        · rintro (ha | rfl)
          · exact hg.mono 0 a ha
          · exact (hon 0 (by decide)).mpr Nat.one_pos
      have hcontents := h.levels.toList_upsert hl hmem (fun a _ => key_store _ _ _ _ _)
        fun a _ _ => value_store _ _ _ _ _
      rw [key_store, value_store, ho.key_eq] at hcontents
      simp only [step, writes, written, hpc, if_pos hcas, list_raise]
      exact hcontents
    · simp only [step, writes, written, hpc, if_neg hcas, State.goto]
  | raising key n height i r =>
    rw [hpc] at hp
    obtain ⟨hl, -, -⟩ := hp.1.store h.levels (le_refl i) (Nat.lt_of_lt_of_le hp.2.2.1 hp.1.height_le) (r i).2
    simp only [step, writes, written, hpc]
    exact h.levels.toList_congr hl fun a _ => ⟨key_store _ _ _ _ _, value_store _ _ _ _ _⟩
  | linking key n height i r =>
    rw [hpc] at hp
    by_cases hcas : s.list.link (r i).1 i = (r i).2
    · simp only [step, writes, written, hpc, if_pos hcas, list_raise]
      exact toList_exchange (Nat.pos_iff_ne_zero.mp hp.2.1)
    · simp only [step, writes, written, hpc, if_neg hcas, State.goto]

theorem toList_draw (h : Inv s level) (t : ThreadId) (height : ℕ) : (draw s t height).list.toList = s.list.toList := by
  rcases list_draw s t height with heq | ⟨key, value, heq⟩
  · rw [heq]
  · rw [heq]
    refine h.levels.toList_congr (h.levels.create key value height).1 fun a ha => ?_
    rw [s.list.node_create_of_lt key value height (h.levels.bounds 0 (by decide) a ha).2.1]
    exact ⟨rfl, rfl⟩

/-- A step gives no node another key, and only an overwrite gives a node another value. -/
theorem node_step (s : State K V) (t : ThreadId) (a : ℕ) :
    ((step s t).list.node a).key = (s.list.node a).key ∧
      ((∀ key value previous, s.pc t ≠ .replacing key value a previous) →
        ((step s t).list.node a).value = (s.list.node a).value) := by
  cases hpc : s.pc t with
  | idle => simp only [step, hpc, true_and, implies_true]
  | drawing key value r => simp only [step, hpc, true_and, implies_true]
  | finding c key i x r => simp only [step, hpc, (load_eq s t c key i x r).1, true_and, implies_true]
  | found key value n => simp only [step, hpc, State.goto, true_and, implies_true]
  | replacing key value n previous =>
    simp only [step, hpc]
    refine ⟨(s.list.setValue_node n a value).1, fun ha => ?_⟩
    exact s.list.value_setValue_of_ne value fun heq => ha key value previous (heq ▸ rfl)
  | preparing key value n height i r =>
    simp only [step, hpc, State.goto, key_store, value_store, true_and, implies_true]
  | publishing key value n height r =>
    simp only [step, hpc]
    split_ifs
    · simp only [list_raise, key_store, value_store, true_and, implies_true]
    · simp only [State.goto, true_and, implies_true]
  | raising key n height i r => simp only [step, hpc, State.goto, key_store, value_store, true_and, implies_true]
  | linking key n height i r =>
    simp only [step, hpc]
    split_ifs
    · simp only [list_raise, key_store, value_store, true_and, implies_true]
    · simp only [State.goto, true_and, implies_true]

end Steps

/-! ### What an overwrite has loaded -/

/-- The value that an overwrite has loaded is the one that it is about to displace. -/
def Loaded (s : State K V) : Prop :=
  ∀ t key value n previous, s.pc t = .replacing key value n previous → (s.list.node n).value = previous

theorem loaded_initial [Inhabited K] : Loaded (initial : State K V) := nofun

/-- The thread goes on to a search. -/
theorem Loaded.goto {s : State K V} (h : Loaded s) {t : ThreadId} {c : Caller K V} {key : K} {i x : ℕ}
    {r : Neighbours} : Loaded (s.goto t (.finding c key i x r)) := by
  intro u key' value n previous hu
  by_cases hut : u = t
  · subst hut
    cases (Function.update_self _ _ _).symm.trans hu
  · exact h u key' value n previous ((Function.update_of_ne hut _ _).symm.trans hu)

section Loading
variable [LinearOrder K] {s : State K V} {level : ℕ → List ℕ} {t : ThreadId}

theorem pc_finishFind (s : State K V) (t : ThreadId) (c : Caller K V) (key : K) (r : Neighbours) {key' : K}
    {value : Option V} {n : ℕ} {previous : Option V} :
    (finishFind s t c key r).pc t ≠ .replacing key' value n previous := by
  cases c with
  | find before => simp [finishFind, State.goto]
  | relink n height i => simp [finishFind, State.goto]
  | insert value =>
    simp only [finishFind]
    split
    · simp [State.goto]
    · simp [State.goto]

/-- A thread that comes to store has just loaded. -/
theorem value_of_replacing_step {key : K} {value : Option V} {n : ℕ} {previous : Option V}
    (h : (step s t).pc t = .replacing key value n previous) : ((step s t).list.node n).value = previous := by
  have hraise : ∀ {s' key' n' height i r},
      (raise s' t key' n' height i r).pc t ≠ .replacing key value n previous := by
    intro s' key' n' height i r hq
    rcases pc_raise s' t key' n' height i r with heq | heq
    · cases heq.symm.trans hq
    · cases heq.symm.trans hq
  cases hpc : s.pc t with
  | found key' value' n' =>
    simp only [step, hpc, State.goto, Function.update_self] at h ⊢
    cases h
    rfl
  | finding c key' i x r =>
    simp only [step, hpc] at h
    rcases load_cases s t c key' i x r with ⟨i', x', r', heq⟩ | ⟨-, -, heq⟩
    · rw [heq] at h
      cases (Function.update_self _ _ _).symm.trans h
    · rw [heq] at h
      exact absurd h (pc_finishFind s t c key' _)
  | idle | drawing _ _ _ =>
    simp only [step, hpc] at h
    cases h
  | replacing _ _ _ _ | raising _ _ _ _ _ =>
    simp only [step, hpc, State.goto, Function.update_self] at h
    cases h
  | preparing key' value' n' height i r =>
    simp only [step, hpc, State.goto, Function.update_self] at h
    split_ifs at h
  | publishing key' value' n' height r =>
    simp only [step, hpc] at h
    split_ifs at h
    · exact absurd h hraise
    · cases (Function.update_self _ _ _).symm.trans h
  | linking key' n' height i r =>
    simp only [step, hpc] at h
    split_ifs at h
    · exact absurd h hraise
    · cases (Function.update_self _ _ _).symm.trans h

/-- No other thread is about to overwrite the node that the thread overwrites. -/
theorem Loaded.step (h : Loaded s) (hone : ∀ u key key' value value' n previous previous',
      s.pc t = .replacing key value n previous → s.pc u = .replacing key' value' n previous' → u = t) :
    Loaded (step s t) := by
  intro u key value n previous hu
  by_cases hut : u = t
  · subst hut
    exact value_of_replacing_step hu
  · rw [pc_step_of_ne s hut] at hu
    have hvalue := (node_step s t n).2 fun key' value' previous' ht =>
      hut (hone u key' key value' value n previous' previous ht hu)
    rw [hvalue]
    exact h u key value n previous hu

theorem Loaded.draw (h : Loaded s) (hinv : Inv s level) (height : ℕ) : Loaded (draw s t height) := by
  intro u key value n previous hu
  have hbefore : s.pc u = .replacing key value n previous := by
    by_cases hut : u = t
    · subst hut
      simp only [ConcurrentSkipList.draw] at hu
      split at hu
      · cases (Function.update_self _ _ _).symm.trans hu
      · exact hu
    · rwa [pc_draw_of_ne s hut height] at hu
  have hp := hinv.threads u
  rw [hbefore] at hp
  rw [node_draw s t height (hinv.levels.bounds 0 (by decide) n hp.1).2.1]
  exact h u key value n previous hbefore

end Loading

end LsmTree.ConcurrentSkipList
