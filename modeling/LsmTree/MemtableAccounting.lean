import LsmTree.LockHolders
import LsmTree.MemtableLinearizability

/-!
# The counters of the memtable between threads

A thread that has written accounts for it after `insert` has returned, the bytes first and
then the entry, so in between it owes something to the counters. What the threads owe
and what the counters say make up what the contents hold: for the entries always, for the
bytes up to a drift. An overwrite charges the difference to the value that it has loaded,
which by the time of its store need not be the one that it displaces.
-/

namespace LsmTree.ConcurrentMemtable
open LittleEndian LayeredMap SkipList Transition LockHolders
open ConcurrentSkipList (ThreadId)

def State.progress (s : State) (t : ThreadId) : Progress := ConcurrentMemtable.progress (s.pc t) (s.list.pc t)

/-! ### What a step does to the counters -/

/-- How many bytes an overwrite displaces beyond those that it is going to account for. -/
def stale (s : State) : Event → ℤ
  | .step t =>
    match s.list.pc t with
    | .replacing _ _ n previous => valueBytes (s.list.list.node n).value - valueBytes previous
    | _ => 0
  | _ => 0

/-- What a write that takes effect finds: no entry, or one in place of which `insert` may have seen another. -/
inductive Finds (s : State) (op : Op) : InsertResult Bytes → ℤ → Prop
  | none (h : lookup op.key s.contents = none) : Finds s op ⟨true, none⟩ 0
  | some (value previous : Option Bytes) (h : lookup op.key s.contents = some value) :
      Finds s op ⟨false, previous⟩ (valueBytes value - valueBytes previous)

/-- A step leaves things alone, or a write is called, or takes effect, or its bytes or its entry are
accounted for. Only an overwrite may leave the bytes off, by `d`. -/
inductive Accounts (s : State) (t : ThreadId) (s' : State) (d : ℤ) : Prop
  | calls (op : Op) (hd : d = 0) (hbefore : s.progress t = .none) (hafter : s'.progress t = .before op)
      (hcontents : s'.contents = s.contents) (hbytes : s'.currentBytes = s.currentBytes) (hcount : s'.count = s.count)
  | quiet (hd : d = 0) (hcontents : s'.contents = s.contents) (hprogress : s'.progress t = s.progress t)
      (hbytes : s'.currentBytes = s.currentBytes) (hcount : s'.count = s.count)
  | writes (op : Op) (result : InsertResult Bytes) (hfinds : Finds s op result d)
      (hbefore : s.progress t = .before op) (hafter : s'.progress t = .after op result)
      (hcontents : s'.contents = upsert op.key op.value s.contents)
      (hbytes : s'.currentBytes = s.currentBytes) (hcount : s'.count = s.count)
  | charges (op : Op) (result : InsertResult Bytes) (hd : d = 0) (hbefore : s.progress t = .after op result)
      (hafter : s'.progress t = if result.inserted then .counting else .none) (hcontents : s'.contents = s.contents)
      (hbytes : s'.currentBytes = Memtable.chargedBytes s.currentBytes result op.key op.value)
      (hcount : s'.count = s.count)
  | counts (hd : d = 0) (hbefore : s.progress t = .counting) (hafter : s'.progress t = .none)
      (hcontents : s'.contents = s.contents) (hbytes : s'.currentBytes = s.currentBytes)
      (hcount : s'.count = (s.count + 1) % 2 ^ 64)

section Steps
variable {s : State} {level : ℕ → List ℕ} {t : ThreadId}

theorem progress_of_pc {p : Pc} (hpc : s.pc t = p) : s.progress t = progress p (s.list.pc t) := by
  rw [State.progress, hpc]

theorem Matches.of_replacing {l : SkipList Key Bytes} {p : Pc} {key : Key} {value : Option Bytes} {n : ℕ}
    {previous : Option Bytes} (h : Matches l p (.replacing key value n previous)) :
    ∃ op : Op, p = .inserting op ∧ op.key = key ∧ op.value = value := by
  cases h with
  | replacing op n previous => exact ⟨op, rfl, rfl, rfl⟩

theorem stale_of_not_replacing
    (h : ∀ key value n previous, s.list.pc t ≠ .replacing key value n previous) : stale s (.step t) = 0 := by
  cases hq : s.list.pc t with
  | replacing key value n previous => exact absurd hq (h key value n previous)
  | _ => simp only [stale, hq]

theorem stale_of_not_inserting (h : Good s level) (hpc : ∀ op, s.pc t ≠ .inserting op) : stale s (.step t) = 0 := by
  refine stale_of_not_replacing fun key value n previous hq => ?_
  have hcall := h.calls t
  rw [hq] at hcall
  obtain ⟨op, hop, -, -⟩ := hcall.of_replacing
  exact hpc op hop

theorem Good.lookup_of_replacing (h : Good s level) {key : Key} {value : Option Bytes} {n : ℕ}
    {previous : Option Bytes} (hq : s.list.pc t = .replacing key value n previous) :
    lookup key s.contents = some (s.list.list.node n).value := by
  have hp := h.inv.threads t
  rw [hq] at hp
  obtain ⟨hn, rfl⟩ := hp
  exact h.inv.levels.lookup_eq_some hn

theorem Displaces.finds (h : Good s level) {op : Op} (hpc : s.pc t = .inserting op) {result : InsertResult Bytes}
    (hd : Displaces s t op result) : Finds s op result (stale s (.step t)) := by
  cases hd with
  | inserted hnone =>
    have hstale : stale s (.step t) = 0 := by
      refine stale_of_not_replacing fun key value n previous hq => ?_
      have hcall := h.calls t
      rw [hq, hpc] at hcall
      obtain ⟨op', hop, rfl, -⟩ := hcall.of_replacing
      obtain rfl := Pc.inserting.inj hop
      have hhit := h.lookup_of_replacing hq
      rw [State.contents, hnone] at hhit
      cases hhit
    rw [hstale]
    exact .none hnone
  | replaced n previous hq =>
    have hstale : stale s (.step t) = valueBytes (s.list.list.node n).value - valueBytes previous := by
      simp only [stale, hq]
    rw [hstale]
    exact .some _ previous (h.lookup_of_replacing hq)

theorem accounts_insert (h : Good s level) {op : Op} (hpc : s.pc t = .inserting op) :
    Accounts s t (step s t) (stale s (.step t)) := by
  obtain ⟨p, hinsert⟩ := exists_insertStep h hpc
  have hcontents : (step s t).contents =
      ConcurrentSkipList.written (ConcurrentSkipList.writes s.list t) s.contents := by
    rw [hinsert.eq]
    exact ConcurrentSkipList.toList_step h.inv t
  have hafter : (step s t).progress t = progress p ((ConcurrentSkipList.step s.list t).pc t) := by
    rw [hinsert.eq, State.progress, State.goto]
    simp only [Function.update_self]
  have hbefore : s.progress t = progress (.inserting op) (s.list.pc t) := by rw [State.progress, hpc]
  have hbytes : (step s t).currentBytes = s.currentBytes := by
    rw [hinsert.eq]
    rfl
  have hcount : (step s t).count = s.count := by
    rw [hinsert.eq]
    rfl
  rcases hinsert.effect with ⟨hnone, hsame⟩ | ⟨hwrites, hnot, result, hlinked, hdisplaces⟩
  · refine .quiet (stale_of_not_replacing fun key value n previous hq => ?_) ?_
      (hafter.trans (hsame.trans hbefore.symm)) hbytes hcount
    · simp only [ConcurrentSkipList.writes, hq, reduceCtorEq] at hnone
    · rw [hcontents, hnone]
      rfl
  · refine .writes op result (hdisplaces.finds h hpc) ?_ (hafter.trans hlinked) ?_ hbytes hcount
    · rw [hbefore, progress, if_neg (by simp [hnot])]
    · rw [hcontents, hwrites]
      rfl

/-- The thread goes on, writes nothing and is not in a `put` or a `del`. -/
theorem accounts_goto {d : ℤ} (hd : d = 0) (hbefore : s.progress t = .none) {p : Pc} (hp : ∀ q, progress p q = .none)
    {l : ConcurrentSkipList.State Key Bytes} (hcontents : l.list.toList = s.contents) :
    Accounts s t { s.goto t p with list := l } d := by
  refine .quiet hd hcontents ?_ rfl rfl
  rw [hbefore, State.progress, State.goto]
  simp only [Function.update_self]
  exact hp _

theorem progress_iteratorAt (n : Option ℕ) (seen : List (Key × Option Bytes))
    (q : ConcurrentSkipList.Pc Key Bytes) : progress (iteratorAt n seen) q = .none := by
  cases n with
  | none => rfl
  | some n => rfl

theorem accounts_find (h : Good s level) {key : Key} (hpc : s.pc t = .finding key) :
    Accounts s t (step s t) (stale s (.step t)) := by
  have hcall := h.calls t
  rw [hpc] at hcall
  obtain ⟨before, i, x, r, hq⟩ := hcall.of_finding
  have hstale : stale s (.step t) = 0 := stale_of_not_inserting h (by simp [hpc])
  have hbefore : s.progress t = .none := progress_of_pc hpc
  simp only [step, hpc]
  split
  · split
    · exact accounts_goto hstale hbefore (fun _ => rfl) (contents_find h hq)
    · exact accounts_goto hstale hbefore (fun _ => rfl) (contents_find h hq)
  · refine .quiet hstale (contents_find h hq) ?_ rfl rfl
    simp only [State.progress, hpc, progress]

theorem accounts_seek (h : Good s level) {start : Key} (hpc : s.pc t = .seeking start) :
    Accounts s t (step s t) (stale s (.step t)) := by
  have hcall := h.calls t
  rw [hpc] at hcall
  obtain ⟨before, i, x, r, hq⟩ := hcall.of_seeking
  have hstale : stale s (.step t) = 0 := stale_of_not_inserting h (by simp [hpc])
  have hbefore : s.progress t = .none := progress_of_pc hpc
  simp only [step, hpc]
  split
  · exact accounts_goto hstale hbefore (progress_iteratorAt _ _) (contents_find h hq)
  · refine .quiet hstale (contents_find h hq) ?_ rfl rfl
    simp only [State.progress, hpc, progress]

theorem accounts_step (h : Good s level) (t : ThreadId) : Accounts s t (step s t) (stale s (.step t)) := by
  have hstale : (∀ op, s.pc t ≠ .inserting op) → stale s (.step t) = 0 := stale_of_not_inserting h
  -- The thread stays out of the list.
  have hgoto : ∀ p, s.progress t = .none → (∀ op, s.pc t ≠ .inserting op) → (∀ q, progress p q = .none) →
      Accounts s t (s.goto t p) (stale s (.step t)) :=
    fun p hbefore hpc hp => accounts_goto (hstale hpc) hbefore hp rfl
  cases hpc : s.pc t with
  | inserting op => exact accounts_insert h hpc
  | finding key => exact accounts_find h hpc
  | seeking start => exact accounts_seek h hpc
  | charging op result =>
    refine .charges op result (hstale (by simp [hpc])) (progress_of_pc hpc) ?_ ?_ ?_ ?_
    · simp only [step, hpc, State.progress, State.goto, Function.update_self]
      split_ifs
      · rfl
      · rfl
    · simp only [step, hpc]
      rfl
    · simp only [step, hpc]
    · simp only [step, hpc, State.goto]
  | counting =>
    refine .counts (hstale (by simp [hpc])) (progress_of_pc hpc) ?_ ?_ ?_ ?_
    · simp only [step, hpc, State.progress, State.goto, Function.update_self]
      rfl
    · simp only [step, hpc]
      rfl
    · simp only [step, hpc, State.goto]
    · simp only [step, hpc]
  | idle | returning _ | ended _ =>
    have hstay : step s t = s := by simp only [step, hpc]
    rw [hstay]
    exact .quiet (hstale (by simp [hpc])) rfl rfl rfl rfl
  | loading _ _ | reading _ _ =>
    simp only [step, hpc]
    exact hgoto _ (progress_of_pc hpc) (by simp [hpc]) fun _ => rfl
  | beginning | advancing _ _ =>
    simp only [step, hpc]
    exact hgoto _ (progress_of_pc hpc) (by simp [hpc]) (progress_iteratorAt _ _)

theorem progress_of_ne {s' : State} {level' : ℕ → List ℕ} (hm : Moves s.list level t s'.list level') {u : ThreadId}
    (hu : u ≠ t) (hpc : s'.pc u = s.pc u) : s'.progress u = s.progress u := by
  rw [State.progress, hpc, hm.others u hu]
  rfl

theorem progress_draw (s : State) (t : ThreadId) (height : ℕ) :
    { s with list := ConcurrentSkipList.draw s.list t height }.progress t = s.progress t := by
  have hlinked := linked_draw s.list t height t
  cases hpc : s.pc t with
  | _ => simp only [State.progress, hpc, progress, hlinked]

theorem accounts_next (h : Good s level) {e : Event} (he : Enabled s e) :
    Accounts s e.thread (next s e) (stale s e) := by
  cases e with
  | call t r =>
    have hbefore : s.progress t = .none := progress_of_pc he
    cases r with
    | write op =>
      refine .calls op rfl hbefore ?_ rfl rfl rfl
      simp only [next, Event.thread, State.progress, State.goto, ConcurrentSkipList.next,
        ConcurrentSkipList.State.goto, Function.update_self]
      rfl
    | get key => exact accounts_goto rfl hbefore (fun _ => rfl) rfl
  | iterate t start =>
    have hbefore : s.progress t = .none := progress_of_pc he
    cases start with
    | none => exact accounts_goto rfl hbefore (fun _ => rfl) rfl
    | some start => exact accounts_goto rfl hbefore (fun _ => rfl) rfl
  | draw t height =>
    exact .quiet rfl (ConcurrentSkipList.toList_draw h.inv t height) (progress_draw s t height) rfl rfl
  | step t => exact accounts_step h t
  | ret t a => exact accounts_goto rfl (progress_of_pc he) (fun _ => rfl) rfl
  | ended t seen => exact accounts_goto rfl (progress_of_pc he) (fun _ => rfl) rfl

end Steps

/-! ### What the threads owe -/

/-- What is still to be added to the entry count for a write. -/
def uncounted : Progress → ℤ
  | .after _ result => if result.inserted then 1 else 0
  | .counting => 1
  | .none | .before _ => 0

/-- What is still to be added to the byte total. -/
def uncharged : Progress → ℤ
  | .after op result =>
    if result.inserted then entryBytes (op.key, op.value) else valueBytes op.value - valueBytes result.replaced
  | .none | .before _ | .counting => 0

/-- A counter and what the threads owe to it make up an amount, modulo the range of `size_t`. -/
def Settles (s : State) (weight : Progress → ℤ) (counter : ℕ) (amount : ℤ) : Prop :=
  counter < 2 ^ 64 ∧ ∃ owed, Owed (fun t => weight (s.progress t)) owed ∧ (2 ^ 64 : ℤ) ∣ counter + owed - amount

section Debts
variable {s s' : State} {level : ℕ → List ℕ} {t : ThreadId} {weight : Progress → ℤ} {counter counter' : ℕ}
  {amount amount' : ℤ}

/-- The counter, the debt of the thread and the amount change by as much. -/
theorem Settles.update (h : Settles s weight counter amount) (hlt : counter' < 2 ^ 64)
    (hothers : ∀ u, u ≠ t → s'.progress u = s.progress u)
    (hdvd : (2 ^ 64 : ℤ) ∣
      counter' - counter + (weight (s'.progress t) - weight (s.progress t)) - (amount' - amount)) :
    Settles s' weight counter' amount' := by
  obtain ⟨-, owed, howed, hold⟩ := h
  refine ⟨hlt, _, howed.update fun u hu => congrArg weight (hothers u hu), ?_⟩
  have hsum := Int.dvd_add hold hdvd
  omega

theorem Settles.same (h : Settles s weight counter amount) (hothers : ∀ u, u ≠ t → s'.progress u = s.progress u)
    (hweight : weight (s'.progress t) = weight (s.progress t)) : Settles s' weight counter amount := by
  refine h.update h.1 hothers ?_
  rw [hweight, sub_self, sub_self, sub_self, add_zero, sub_zero]
  exact dvd_zero _

/-- No thread owes anything. -/
theorem Settles.eq (h : Settles s weight counter amount) (hzero : ∀ t, weight (s.progress t) = 0) :
    (counter : ℤ) = amount % 2 ^ 64 := by
  obtain ⟨hlt, owed, howed, hdvd⟩ := h
  rw [howed.eq_zero hzero] at hdvd
  omega

theorem settles_count (h : Settles s uncounted s.count s.contents.length) (hgood : Good s level)
    (hothers : ∀ u, u ≠ t → s'.progress u = s.progress u) {d : ℤ} (hstep : Accounts s t s' d) :
    Settles s' uncounted s'.count s'.contents.length := by
  have hsorted : Sorted s.contents := hgood.inv.levels.sorted_toList
  have hlt := h.1
  cases hstep with
  | quiet hd hcontents hprogress hbytes hcount =>
    rw [hcount, hcontents]
    exact h.same hothers (by rw [hprogress])
  | calls op hd hbefore hafter hcontents hbytes hcount =>
    rw [hcount, hcontents]
    exact h.same hothers (by rw [hbefore, hafter]; rfl)
  | writes op result hfinds hbefore hafter hcontents hbytes hcount =>
    rw [hcount]
    refine h.update hlt hothers ?_
    have hlength := hsorted.length_upsert op.key op.value
    rw [hbefore, hafter, hcontents]
    cases hfinds with
    | none hnone =>
      simp only [hnone, Option.isSome_none, Bool.false_eq_true, if_false] at hlength
      simp only [uncounted, if_true]
      omega
    | some value previous hsome =>
      simp only [hsome, Option.isSome_some, if_true] at hlength
      simp only [uncounted, Bool.false_eq_true, if_false]
      omega
  | charges op result hd hbefore hafter hcontents hbytes hcount =>
    rw [hcount, hcontents]
    refine h.same hothers ?_
    rw [hbefore, hafter]
    cases hinserted : result.inserted with
    | true => simp only [uncounted, hinserted, if_true]
    | false => simp only [uncounted, hinserted, Bool.false_eq_true, if_false]
  | counts hd hbefore hafter hcontents hbytes hcount =>
    refine h.update (by omega) hothers ?_
    rw [hbefore, hafter, hcount, hcontents, uncounted, uncounted]
    omega

theorem chargedBytes_modEq (total : ℕ) (result : InsertResult Bytes) (op : Op) :
    Memtable.chargedBytes total result op.key op.value < 2 ^ 64 ∧
    (2 ^ 64 : ℤ) ∣ Memtable.chargedBytes total result op.key op.value - total - uncharged (.after op result) := by
  simp only [Memtable.chargedBytes, Memtable.adjustValueBytes, uncharged, entryBytes]
  split_ifs <;> omega

theorem settles_bytes {d offset : ℤ} (h : Settles s uncharged s.currentBytes (usedBytes s.contents + offset))
    (hgood : Good s level) (hothers : ∀ u, u ≠ t → s'.progress u = s.progress u) (hstep : Accounts s t s' d) :
    Settles s' uncharged s'.currentBytes (usedBytes s'.contents + (offset + d)) := by
  have hsorted : Sorted s.contents := hgood.inv.levels.sorted_toList
  have hlt := h.1
  cases hstep with
  | quiet hd hcontents hprogress hbytes hcount =>
    rw [hbytes, hcontents, hd, add_zero]
    exact h.same hothers (by rw [hprogress])
  | calls op hd hbefore hafter hcontents hbytes hcount =>
    rw [hbytes, hcontents, hd, add_zero]
    exact h.same hothers (by rw [hbefore, hafter]; rfl)
  | writes op result hfinds hbefore hafter hcontents hbytes hcount =>
    rw [hbytes]
    refine h.update hlt hothers ?_
    have hsum := hsorted.sum_upsert entryBytes op.key op.value
    rw [hbefore, hafter, hcontents]
    cases hfinds with
    | none hnone =>
      simp only [hnone, Option.elim_none] at hsum
      simp only [uncharged, if_true, usedBytes]
      omega
    | some value previous hsome =>
      simp only [hsome, Option.elim_some, entryBytes] at hsum
      simp only [uncharged, Bool.false_eq_true, if_false, usedBytes]
      omega
  | charges op result hd hbefore hafter hcontents hbytes hcount =>
    obtain ⟨hlt', hdvd⟩ := chargedBytes_modEq s.currentBytes result op
    rw [hbytes, hcontents, hd, add_zero]
    refine h.update hlt' hothers ?_
    have hpaid : uncharged (s'.progress t) = 0 := by
      rw [hafter]
      split_ifs
      · rfl
      · rfl
    rw [hpaid, hbefore]
    omega
  | counts hd hbefore hafter hcontents hbytes hcount =>
    rw [hbytes, hcontents, hd, add_zero]
    exact h.same hothers (by rw [hbefore, hafter]; rfl)

end Debts

/-! ### One writer of a key at a time -/

/-- "Single-writer per key": nothing writes a key while another call is in `insert` with it. -/
def OneWriter (s : State) : Event → Prop
  | .call _ (.write op) => ∀ u op', s.pc u = .inserting op' → op'.key ≠ op.key
  | _ => True

structure Separate (s : State) : Prop where
  apart : ∀ t u op op', s.pc t = .inserting op → s.pc u = .inserting op' → op.key = op'.key → t = u
  loaded : ConcurrentSkipList.Loaded s.list

section Writers
variable {s : State} {level : ℕ → List ℕ} {t : ThreadId}

theorem separate_initial : Separate initial where
  apart := nofun
  loaded := ConcurrentSkipList.loaded_initial

/-- A thread is in `insert` because it has called it. -/
theorem inserting_step {op : Op} (h : (step s t).pc t = .inserting op) : s.pc t = .inserting op := by
  have hiterator : ∀ n seen, iteratorAt n seen ≠ .inserting op := by
    intro n seen
    cases n with
    | none => nofun
    | some n => nofun
  cases hpc : s.pc t with
  | idle | returning _ | ended _ =>
    simp only [step, hpc] at h
    cases h
  | inserting op' =>
    simp only [step, hpc] at h
    split at h
    · cases (Function.update_self _ _ _).symm.trans h
    · exact hpc.symm.trans h
  | charging op' result =>
    simp only [step, hpc, State.goto, Function.update_self] at h
    split_ifs at h
  | counting | loading _ _ | reading _ _ =>
    simp only [step, hpc, State.goto, Function.update_self] at h
    cases h
  | finding key =>
    simp only [step, hpc] at h
    split at h
    · split at h
      · cases (Function.update_self _ _ _).symm.trans h
      · cases (Function.update_self _ _ _).symm.trans h
    · cases hpc.symm.trans h
  | seeking start =>
    simp only [step, hpc] at h
    split at h
    · exact absurd ((Function.update_self _ _ _).symm.trans h) (hiterator _ _)
    · cases hpc.symm.trans h
  | beginning | advancing _ _ =>
    simp only [step, hpc, State.goto, Function.update_self] at h
    exact absurd h (hiterator _ _)

theorem inserting_next {e : Event} {op : Op} (h : (next s e).pc e.thread = .inserting op) :
    s.pc e.thread = .inserting op ∨ e = .call e.thread (.write op) := by
  cases e with
  | call t r =>
    cases r with
    | write op' =>
      obtain rfl := Pc.inserting.inj ((Function.update_self _ _ _).symm.trans h)
      exact .inr rfl
    | get key => cases (Function.update_self _ _ _).symm.trans h
  | iterate t start =>
    cases start with
    | none => cases (Function.update_self _ _ _).symm.trans h
    | some start => cases (Function.update_self _ _ _).symm.trans h
  | draw t height => exact .inl h
  | step t => exact .inl (inserting_step h)
  | ret t a => cases (Function.update_self _ _ _).symm.trans h
  | ended t seen => cases (Function.update_self _ _ _).symm.trans h

theorem Separate.apart_next (h : Separate s) {e : Event} (hone : OneWriter s e) {t u : ThreadId} {op op' : Op}
    (ht : (next s e).pc t = .inserting op) (hu : (next s e).pc u = .inserting op') (hkey : op.key = op'.key) :
    t = u := by
  -- Of two threads in `insert` one may have come there with this event.
  have hcase : ∀ {v op}, (next s e).pc v = .inserting op →
      s.pc v = .inserting op ∨ v = e.thread ∧ e = .call e.thread (.write op) := by
    intro v op hv
    by_cases hve : v = e.thread
    · subst hve
      exact (inserting_next hv).imp_right fun he => ⟨rfl, he⟩
    · exact .inl ((pc_next_of_ne s e hve).symm.trans hv)
  rcases hcase ht with ht | ⟨ht, hcall⟩
  · rcases hcase hu with hu | ⟨hu, hcall⟩
    · exact h.apart t u op op' ht hu hkey
    · rw [hcall] at hone
      exact absurd hkey (hone t op ht)
  · rcases hcase hu with hu | ⟨hu, -⟩
    · rw [hcall] at hone
      exact absurd hkey.symm (hone u op' hu)
    · exact ht.trans hu.symm

theorem Separate.loaded_step (h : Separate s) (hgood : Good s level) (t : ThreadId) :
    ConcurrentSkipList.Loaded (ConcurrentSkipList.step s.list t) := by
  -- Threads that overwrite one node are in `insert` with its key.
  have hkey : ∀ {u key value n previous}, s.list.pc u = .replacing key value n previous →
      ∃ op, s.pc u = .inserting op ∧ op.key = (s.list.list.node n).key := by
    intro u key value n previous hq
    have hcall := hgood.calls u
    have hp := hgood.inv.threads u
    rw [hq] at hcall hp
    obtain ⟨op, hop, rfl, -⟩ := hcall.of_replacing
    exact ⟨op, hop, hp.2.symm⟩
  refine h.loaded.step fun u key key' value value' n previous previous' ht hu => ?_
  obtain ⟨op, hop, hn⟩ := hkey ht
  obtain ⟨op', hop', hn'⟩ := hkey hu
  exact h.apart u t op' op hop' hop (hn'.trans hn.symm)

theorem list_step (s : State) (t : ThreadId) :
    (step s t).list = s.list ∨ (step s t).list = ConcurrentSkipList.step s.list t := by
  cases hpc : s.pc t with
  | idle | returning _ | ended _ | charging _ _ | counting | loading _ _ | beginning | reading _ _ | advancing _ _ =>
    exact .inl (by simp only [step, hpc, State.goto])
  | inserting op =>
    simp only [step, hpc]
    split
    · exact .inr rfl
    · exact .inr rfl
  | seeking start =>
    simp only [step, hpc]
    split
    · exact .inr rfl
    · exact .inr rfl
  | finding key =>
    simp only [step, hpc]
    split
    · split
      · exact .inr rfl
      · exact .inr rfl
    · exact .inr rfl

theorem Separate.next (h : Separate s) (hgood : Good s level) {e : Event} (hone : OneWriter s e) :
    Separate (ConcurrentMemtable.next s e) where
  apart := fun _ _ _ _ ht hu hkey => h.apart_next hone ht hu hkey
  loaded := by
    cases e with
    | call t r =>
      cases r with
      | write op => exact h.loaded.goto
      | get key => exact h.loaded.goto
    | iterate t start =>
      cases start with
      | none => exact h.loaded
      | some start => exact h.loaded.goto
    | draw t height => exact h.loaded.draw hgood.inv height
    | step t =>
      rcases list_step s t with heq | heq
      · exact heq ▸ h.loaded
      · exact heq ▸ h.loaded_step hgood t
    | ret t a => exact h.loaded
    | ended t seen => exact h.loaded

theorem Separate.stale_eq_zero (h : Separate s) (e : Event) : stale s e = 0 := by
  cases e with
  | step t =>
    cases hq : s.list.pc t with
    | replacing key value n previous => simp only [stale, hq, h.loaded t key value n previous hq, sub_self]
    | _ => simp only [stale, hq]
  | call _ _ | iterate _ _ | draw _ _ | ret _ _ | ended _ _ => rfl

end Writers

/-! ### Runs -/

/-- By how much the overwrites of a run have left the byte total off. -/
def drift (s : State) : List Event → ℤ
  | [] => 0
  | e :: es => stale s e + drift (next s e) es

section Runs
variable {s s' : State} {es : List Event}

theorem settles_run (h : Run system (fun _ _ => True) s es s') {offset : ℤ} (hgood : ∃ level, Good s level)
    (hcount : Settles s uncounted s.count s.contents.length)
    (hbytes : Settles s uncharged s.currentBytes (usedBytes s.contents + offset)) :
    Settles s' uncounted s'.count s'.contents.length ∧
      Settles s' uncharged s'.currentBytes (usedBytes s'.contents + (offset + drift s es)) := by
  induction h generalizing offset with
  | nil s => exact ⟨hcount, by rwa [drift, add_zero]⟩
  | @cons s s' e es _ he _ ih =>
    obtain ⟨level, hlevel⟩ := hgood
    obtain ⟨level', hlevel', hm⟩ := good_next hlevel he
    have hothers : ∀ u, u ≠ e.thread → (next s e).progress u = s.progress u :=
      fun u hu => progress_of_ne hm hu (pc_next_of_ne s e hu)
    have hstep := accounts_next hlevel he
    have hrest := ih ⟨level', hlevel'⟩ (settles_count hcount hlevel hothers hstep)
      (settles_bytes hbytes hlevel hothers hstep)
    rwa [add_assoc] at hrest

theorem drift_eq_zero (h : Run system OneWriter s es s') (hgood : ∃ level, Good s level) (hs : Separate s) :
    drift s es = 0 := by
  induction h with
  | nil s => rfl
  | @cons s s' e es hone he _ ih =>
    obtain ⟨level, hlevel⟩ := hgood
    obtain ⟨level', hlevel', -⟩ := good_next hlevel he
    have hrest : drift (next s e) es = 0 := ih ⟨level', hlevel'⟩ (hs.next hlevel hone)
    rw [drift, hs.stale_eq_zero e, hrest, add_zero]

theorem settles_initial (weight : Progress → ℤ) (hzero : weight .none = 0) : Settles initial weight 0 0 :=
  ⟨by decide, 0, owed_zero fun _ => hzero, by decide⟩

/-- A thread that takes no part in a run is where it was. -/
theorem pc_run_of_notMem {ok : State → Event → Prop} (h : Run system ok s es s')
    {t : ThreadId} (ht : t ∉ es.map Event.thread) : s'.pc t = s.pc t := by
  induction h with
  | nil s => rfl
  | @cons s s' e es _ _ _ ih =>
    obtain ⟨hne, hrest⟩ := not_or.mp (List.mem_cons.not.mp ht)
    exact (ih hrest).trans (pc_next_of_ne s e hne)

end Runs

/-- The thread is in a `put` or a `del` and has not accounted for it. -/
def Pc.writing : Pc → Bool
  | inserting _ | charging _ _ | counting => true
  | _ => false

theorem progress_of_not_writing {p : Pc} (h : p.writing = false) (q : ConcurrentSkipList.Pc Key Bytes) :
    progress p q = .none := by
  cases p with
  | inserting _ | charging _ _ | counting => cases h
  | idle | finding _ | loading _ _ | seeking _ | beginning | reading _ _ | advancing _ _ | returning _ | ended _ =>
    rfl

/-- However the steps of the threads interleave, when no thread is in a `put` or a `del` the entry count is the
number of entries, and the byte total is what they take up and what overwrites have displaced beyond the values
that they had loaded. If no key is written by two threads at once, these are the same values. -/
theorem memtable_accounts {es : List Event} {s : State} (h : Run system (fun _ _ => True) initial es s)
    (hquiet : ∀ t, (s.pc t).writing = false) :
    s.count = s.contents.length % 2 ^ 64 ∧
    (s.currentBytes : ℤ) = (usedBytes s.contents + drift initial es) % 2 ^ 64 ∧
    (Run system OneWriter initial es s → s.currentBytes = usedBytes s.contents % 2 ^ 64) := by
  have hgood : ∃ level, Good initial level := ⟨_, good_initial⟩
  have hempty : initial.contents = [] := good_initial.inv.levels.toList_eq
  have hnone : ∀ t, s.progress t = .none := fun t => progress_of_not_writing (hquiet t) _
  have hcount₀ : Settles initial uncounted initial.count initial.contents.length := by
    rw [hempty]
    exact settles_initial uncounted rfl
  have hbytes₀ : Settles initial uncharged initial.currentBytes (usedBytes initial.contents + 0) := by
    rw [hempty]
    exact settles_initial uncharged rfl
  obtain ⟨hcount, hbytes⟩ := settles_run h hgood hcount₀ hbytes₀
  have htotal : (s.currentBytes : ℤ) = (usedBytes s.contents + drift initial es) % 2 ^ 64 := by
    have heq := hbytes.eq fun t => congrArg uncharged (hnone t)
    rwa [zero_add] at heq
  refine ⟨?_, htotal, fun hone => ?_⟩
  · have heq := hcount.eq fun t => congrArg uncounted (hnone t)
    omega
  · rw [drift_eq_zero hone hgood separate_initial] at htotal
    omega

/-- Two overwrites of a value of one byte race: both load it, and what the second one displaces is the value of the
first one, longer by a byte. -/
def racingOverwrites : List Event :=
  List.flatten [
    [.call 0 (.write (.put (.ofBytes [5]) [1]))], List.replicate 12 (.step 0), [.draw 0 1],
    List.replicate 4 (.step 0), [.ret 0 .done,
    .call 0 (.write (.put (.ofBytes [5]) [2, 2])), .call 1 (.write (.put (.ofBytes [5]) [3, 3, 3]))],
    List.replicate 13 (.step 0), List.replicate 13 (.step 1), [.step 0, .step 1, .step 0, .step 1,
    .ret 0 .done, .ret 1 .done]]

theorem memtable_accounts_racingOverwrites :
    let s := racingOverwrites.foldl system.next initial
    s.count = 1 ∧ (s.currentBytes : ℤ) = (usedBytes s.contents + 1) % 2 ^ 64 := by
  have h : Run system (fun _ _ => True) initial racingOverwrites _ := Allowed.run (by decide +kernel)
  have hquiet : ∀ t, ((racingOverwrites.foldl system.next initial).pc t).writing = false := by
    have hpart : ∀ t ∈ racingOverwrites.map Event.thread,
        ((racingOverwrites.foldl system.next initial).pc t).writing = false := by decide +kernel
    intro t
    by_cases ht : t ∈ racingOverwrites.map Event.thread
    · exact hpart t ht
    · rw [pc_run_of_notMem h ht]
      rfl
  have hdrift : drift initial racingOverwrites = 1 := by decide +kernel
  obtain ⟨hcount, hbytes, -⟩ := memtable_accounts h hquiet
  rw [hdrift] at hbytes
  exact ⟨hcount.trans (by decide +kernel), hbytes⟩

end LsmTree.ConcurrentMemtable
