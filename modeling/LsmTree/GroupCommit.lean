import Mathlib.Logic.Relation
import LsmTree.Blocking
import LsmTree.CrashMachine
import LsmTree.WalLifecycle

/-!
# Group commit by itself

`WAL::waitDurable` is a part of the models of the ring, of the locks and of the crashes. What the
threads share in it is little: the epoch, the durable end, and whether somebody leads. A waiter
returns when its record is covered, or it becomes the leader while there is none; the leader notes
how far the log extends and raises the durable end to there, or it fails; a new epoch begins only
while nobody leads.

Seen this way, every run of one of the three models is a run of this one. So in each of them one
thread leads at most, and always for the epoch that is current.
-/

namespace LsmTree.GroupCommit
open LockHolders Relation
open WalRing (Ticket)

/-- Where a thread stands: not in `waitDurable`, at the head of its loop, chosen as leader, a leader
that knows what it syncs, or one with an error. -/
inductive Role where
  | outside
  | waiting (k : Ticket)
  | leading (k : Ticket) (epoch : ℕ)
  | syncing (k : Ticket) (epoch target : ℕ)
  | failed

def Role.leads : Role → Bool
  | outside | waiting _ => false
  | leading _ _ | syncing _ _ _ | failed => true

structure State (ι : Type*) where
  role : ι → Role
  epoch : ℕ
  durableEnd : ℕ
  syncInProgress : Bool

variable {ι : Type*}

def initial : State ι := ⟨fun _ => .outside, 0, 0, false⟩

def State.move [DecidableEq ι] (s : State ι) (t : ι) (r : Role) : State ι := { s with role := Function.update s.role t r }

inductive Step [DecidableEq ι] : State ι → State ι → Prop
  | call {s : State ι} {t : ι} (k : Ticket) (ht : s.role t = .outside) : Step s (s.move t (.waiting k))
  | finish {s : State ι} {t : ι} {k : Ticket} (ht : s.role t = .waiting k)
      (hdone : k.epoch ≠ s.epoch ∨ k.stop ≤ s.durableEnd) : Step s (s.move t .outside)
  | lead {s : State ι} {t : ι} {k : Ticket} (ht : s.role t = .waiting k) (hepoch : k.epoch = s.epoch)
      (hopen : s.durableEnd < k.stop) (hfree : s.syncInProgress = false) :
      Step s ({ s with syncInProgress := true }.move t (.leading k s.epoch))
  | drain {s : State ι} {t : ι} {k : Ticket} {epoch : ℕ} (target : ℕ) (ht : s.role t = .leading k epoch) :
      Step s (s.move t (.syncing k epoch target))
  | fail {s : State ι} {t : ι} (ht : (s.role t).leads = true) : Step s (s.move t .failed)
  | settle {s : State ι} {t : ι} {k : Ticket} {epoch target : ℕ} (ht : s.role t = .syncing k epoch target) :
      Step s ({ s with
        syncInProgress := false
        durableEnd := if s.epoch = epoch then max s.durableEnd target else s.durableEnd }.move t (.waiting k))
  | giveUp {s : State ι} {t : ι} (ht : s.role t = .failed) :
      Step s ({ s with syncInProgress := false }.move t .outside)
  | clear {s : State ι} (hfree : s.syncInProgress = false) : Step s { s with durableEnd := 0 }
  | newEpoch {s : State ι} (hfree : s.syncInProgress = false) : Step s { s with epoch := s.epoch + 1 }
  | restart {s : State ι} : Step s initial

/-! ### One leader, of the current epoch -/

def Role.Current (epoch : ℕ) : Role → Prop
  | leading k e | syncing k e _ => k.epoch = e ∧ e = epoch
  | outside | waiting _ | failed => True

variable {s s' : State ι} {t : ι} {k : Ticket} {epoch target : ℕ} {r : Role}

structure Inv (s : State ι) : Prop where
  leader : AtMostOne Role.leads s.role
  inProgress : s.syncInProgress = true ↔ ∃ t, (s.role t).leads = true
  current : ∀ t, (s.role t).Current s.epoch

theorem inv_initial : Inv (initial : State ι) where
  leader := fun _ _ ht => by cases ht
  inProgress := ⟨fun h => absurd h Bool.false_ne_true, fun ⟨_, ht⟩ => absurd ht Bool.false_ne_true⟩
  current := fun _ => trivial

theorem Inv.nowhere (h : Inv s) (hfree : s.syncInProgress = false) : Nowhere Role.leads s.role := fun t =>
  Bool.eq_false_iff.mpr fun ht => absurd (hfree.symm.trans (h.inProgress.mpr ⟨t, ht⟩)) Bool.false_ne_true

/-- A leader that comes back always raises the durable end: the epoch cannot have changed meanwhile. -/
theorem Inv.settle_current (h : Inv s) (ht : s.role t = .syncing k epoch target) : s.epoch = epoch := by
  have hcurrent := h.current t
  rw [ht] at hcurrent
  exact hcurrent.2.symm

section Steps
variable [DecidableEq ι]

theorem Inv.current_move (h : Inv s) (hr : r.Current s.epoch) (u : ι) :
    (Function.update s.role t r u).Current s.epoch :=
  (Function.forall_update_iff s.role fun _ q => q.Current s.epoch).mpr ⟨hr, fun u _ => h.current u⟩ u

/-- Whether a thread leads does not change. -/
theorem Inv.move (h : Inv s) (hleads : r.leads = (s.role t).leads) (hr : r.Current s.epoch) : Inv (s.move t r) where
  leader := h.leader.update fun hp => .inl (hleads ▸ hp)
  inProgress := by
    have hsame : ∀ u, (Function.update s.role t r u).leads = (s.role u).leads :=
      (Function.forall_update_iff s.role fun u q => q.leads = (s.role u).leads).mpr ⟨hleads, fun _ _ => rfl⟩
    simpa only [State.move, hsame] using h.inProgress
  current := h.current_move hr

theorem Inv.takeLead (h : Inv s) (hfree : s.syncInProgress = false) (hleads : r.leads = true)
    (hr : r.Current s.epoch) : Inv ({ s with syncInProgress := true }.move t r) where
  leader := h.leader.update fun _ => .inr (h.nowhere hfree)
  inProgress := ⟨fun _ => ⟨t, by simp [State.move, hleads]⟩, fun _ => rfl⟩
  current := h.current_move hr

theorem Inv.leaveLead (h : Inv s) (ht : (s.role t).leads = true) (hleads : r.leads = false)
    (hr : r.Current s.epoch) (durableEnd : ℕ) :
    Inv ({ s with syncInProgress := false, durableEnd := durableEnd }.move t r) where
  leader := h.leader.update fun hp => absurd (hleads.symm.trans hp) Bool.false_ne_true
  inProgress := by
    have hnone : ∀ u, (Function.update s.role t r u).leads = false :=
      (Function.forall_update_iff s.role fun _ q => q.leads = false).mpr
        ⟨hleads, fun _ hu => h.leader.nowhere_else ht hu⟩
    simp [State.move, hnone]
  current := h.current_move hr

theorem Inv.step (h : Inv s) (hs : Step s s') : Inv s' := by
  cases hs with
  | call k ht => exact h.move (by rw [ht, Role.leads, Role.leads]) trivial
  | finish ht _ => exact h.move (by rw [ht, Role.leads, Role.leads]) trivial
  | lead ht hepoch _ hfree => exact h.takeLead hfree rfl ⟨hepoch, rfl⟩
  | @drain t k epoch target ht =>
    have hcurrent := h.current t
    rw [ht] at hcurrent
    exact h.move (by rw [ht, Role.leads, Role.leads]) hcurrent
  | fail ht => exact h.move ht.symm trivial
  | @settle t k epoch target ht =>
    exact h.leaveLead (r := .waiting k) (by rw [ht, Role.leads]) rfl trivial _
  | giveUp ht => exact h.leaveLead (r := .outside) (by rw [ht, Role.leads]) rfl trivial _
  | clear _ => exact ⟨h.leader, h.inProgress, h.current⟩
  | newEpoch hfree =>
    -- Nobody leads, so nobody leads for the epoch that ends.
    refine ⟨h.leader, h.inProgress, fun t => ?_⟩
    have ht := h.nowhere hfree t
    cases hrole : s.role t with
    | outside | waiting _ => trivial
    | leading _ _ | syncing _ _ _ | failed =>
      rw [hrole] at ht
      cases ht
  | restart => exact inv_initial

theorem Inv.steps (h : Inv s) (hs : ReflTransGen Step s s') : Inv s' := by
  induction hs with
  | refl => exact h
  | tail _ hstep ih => exact ih.step hstep

theorem inv_of_steps (h : ReflTransGen Step initial s) : Inv s := inv_initial.steps h

/-! ### What a model shows of a group commit -/

/-- A thread moves without a change of its role. -/
theorem steps_stay {π : Type*} {role : π → Role} {pc : ι → π} {p : π} {durableEnd : ℕ} {busy : Bool}
    (hp : role p = role (pc t)) : ReflTransGen Step (⟨role ∘ pc, epoch, durableEnd, busy⟩ : State ι)
      ⟨role ∘ Function.update pc t p, epoch, durableEnd, busy⟩ := by
  have hsame : role ∘ Function.update pc t p = role ∘ pc := by
    rw [Function.comp_update, hp]
    exact Function.update_eq_self t (role ∘ pc)
  rw [hsame]

/-- A thread moves, and takes a step. -/
theorem steps_move {π : Type*} {role : π → Role} {pc : ι → π} {p : π} {durableEnd epoch' durableEnd' : ℕ}
    {busy busy' : Bool} (hstep : Step (⟨role ∘ pc, epoch, durableEnd, busy⟩ : State ι)
      (State.move ⟨role ∘ pc, epoch', durableEnd', busy'⟩ t (role p))) :
    ReflTransGen Step (⟨role ∘ pc, epoch, durableEnd, busy⟩ : State ι)
      ⟨role ∘ Function.update pc t p, epoch', durableEnd', busy'⟩ := by
  rw [Function.comp_update]
  exact .single hstep

end Steps

end LsmTree.GroupCommit

/-! ### The ring -/

namespace LsmTree.WalRing
open GroupCommit (Role Step steps_stay steps_move)
open LockHolders Relation Transition

/-- The drain and the `fdatasync` are the work of a leader; an append is no part of a group commit. -/
def Pc.role : Pc → Role
  | idle | retry _ | reaping _ => .outside
  | waiting k => .waiting k
  | leading k epoch | draining k epoch | parked k epoch => .leading k epoch
  | syncing k epoch target _ | synced k epoch target => .syncing k epoch target
  | aborting => .failed

def State.commit (s : State) : GroupCommit.State ThreadId := ⟨Pc.role ∘ s.pc, s.epoch, s.durableEnd, s.syncInProgress⟩

variable {s : State} {t : ThreadId}

theorem role_commit {p : Pc} (ht : s.pc t = p) : s.commit.role t = p.role := congrArg Pc.role ht

theorem commit_reapOne (submit : Submit) (c : Cqe) (s : State) : (reapOne submit c s).commit = s.commit := by
  unfold reapOne resubmit
  split
  · rfl
  · split_ifs
    · rfl
    · cases submit <;> rfl
    all_goals rfl

theorem steps_submitOwn (submit : Submit) (e : Wal.Entry) (ht : s.commit.role t = .outside) :
    ReflTransGen Step s.commit (submitOwn submit t e s).commit := by
  cases submit with
  | accepted => exact steps_stay ht.symm
  | refused errno => exact steps_stay ht.symm

theorem steps_finishDrain {ticket : Ticket} {epoch : ℕ} (ht : s.commit.role t = .leading ticket epoch) :
    ReflTransGen Step s.commit (finishDrain t ticket epoch s).commit := by
  unfold finishDrain
  split
  · exact steps_move (.fail (congrArg Role.leads ht))
  · exact steps_move (.drain _ ht)

theorem steps_afterReap (submit : Submit) (t : ThreadId) (s : State) :
    ReflTransGen Step s.commit (afterReap submit t s).commit := by
  unfold afterReap
  split
  case h_1 e ht =>
    split_ifs
    · exact steps_submitOwn submit e (role_commit ht)
    · exact steps_stay (role_commit ht).symm
  case h_2 r ht => exact steps_stay (role_commit ht).symm
  case h_3 ticket epoch ht =>
    split_ifs
    · exact steps_stay (role_commit ht).symm
    · exact steps_finishDrain (role_commit ht)
  case h_4 => exact .refl

theorem steps_checkTicket {ticket : Ticket} (ht : s.commit.role t = .waiting ticket) :
    ReflTransGen Step s.commit (checkTicket t ticket s).commit := by
  unfold checkTicket
  split_ifs with hepoch hend hflag
  · exact steps_move (.finish ht (.inl hepoch))
  · exact steps_move (.finish ht (.inr hend))
  · exact .refl
  · exact steps_move (.lead ht (not_not.mp hepoch) (not_le.mp hend) (Bool.eq_false_iff.mpr hflag))

theorem steps_settle (t : ThreadId) (s : State) : ReflTransGen Step s.commit (settle t s).commit := by
  unfold settle
  split
  case h_1 ticket epoch target ht => exact steps_move (.settle (role_commit ht))
  case h_2 ht => exact steps_move (.giveUp (role_commit ht))
  case h_3 => exact .refl

theorem steps_startAppend (submit : Submit) (e : Wal.Entry) (ht : s.commit.role t = .outside) :
    ReflTransGen Step s.commit (startAppend submit t e s).commit := by
  unfold startAppend
  split_ifs
  · exact steps_submitOwn submit e ht
  · cases submit with
    | refused errno => exact .refl
    | accepted => exact steps_stay ht.symm

/-- Each step of the ring is some steps of the group commit, or none. -/
theorem steps_next (s : State) {e : Event} (he : Enabled s e) : ReflTransGen Step s.commit (next s e).commit := by
  cases e with
  | append t e submit => exact steps_startAppend submit e (role_commit he.1)
  | reap t submit =>
    simp only [next]
    split
    · exact .refl
    · rw [commit_reapOne]
      exact .refl
  | reaped t submit => exact steps_afterReap submit t s
  | wake t =>
    simp only [next]
    split
    case h_1 ticket epoch ht => exact steps_stay (role_commit ht).symm
    case h_2 => exact .refl
  | waitFailed t errno =>
    simp only [next]
    split
    case h_1 ticket epoch ht =>
      exact steps_finishDrain (s := s.recordFailure (.drainFailed errno)) (role_commit ht)
    case h_2 => exact .refl
  | waitDurable t ticket => exact steps_move (.call ticket (role_commit he))
  | sync t => exact steps_move (.call _ (role_commit he.1))
  | check t =>
    simp only [next]
    split
    case h_1 ticket ht => exact steps_checkTicket (role_commit ht)
    case h_2 => exact .refl
  | lead t =>
    simp only [next]
    split
    case h_1 ticket epoch ht => exact steps_stay (role_commit ht).symm
    case h_2 => exact .refl
  | fdatasync t ok =>
    simp only [next]
    split
    case h_1 ticket epoch target before ht =>
      split_ifs
      · exact steps_stay (role_commit ht).symm
      · exact steps_move (.fail (congrArg Role.leads (role_commit ht)))
    case h_2 => exact .refl
  | settle t => exact steps_settle t s
  | complete i res =>
    simp only [next, complete]
    split
    · exact .refl
    · exact .refl

theorem commit_of_run {ok : State → Event → Prop} {size : ℕ} {es : List Event} (h : Run system ok (initial size) es s) :
    ReflTransGen Step GroupCommit.initial s.commit :=
  h.invariant (fun s => ReflTransGen Step GroupCommit.initial s.commit)
    (fun s _ hs _ he => hs.trans (steps_next s he)) .refl

/-- No two threads are between the choice of a leader and its return. -/
theorem one_leader {ok : State → Event → Prop} {size : ℕ} {es : List Event} (h : Run system ok (initial size) es s) :
    AtMostOne (Role.leads ∘ Pc.role) s.pc := (GroupCommit.inv_of_steps (commit_of_run h)).leader

end LsmTree.WalRing

/-! ### The ring between its opening and its end -/

namespace LsmTree.WalLifecycle
open GroupCommit (Step)
open Relation Transition WalRing

theorem steps_next (s : State) {e : Event} (he : Enabled s e) :
    ReflTransGen Step s.wal.commit (next s e).wal.commit := by
  obtain ⟨-, he⟩ := he
  cases e with
  | wal e => exact WalRing.steps_next s.wal he.1
  | clear t => exact .head (.clear he.2.2.2) (.single (.newEpoch he.2.2.2))
  | drainReap submit =>
    simp only [next]
    split
    · exact .refl
    · rw [commit_reapOne]
      exact .refl
  | clearEnd outcome => cases outcome <;> exact .refl
  | refuse t | recover t | destroy t | drainReaped | drainWake | drainFailed errno | destroyEnd => exact .refl

theorem commit_of_run {ok : State → Event → Prop} {size : ℕ} {es : List Event} {s : State}
    (h : Run system ok (initial size) es s) : ReflTransGen Step GroupCommit.initial s.wal.commit :=
  h.invariant (fun s => ReflTransGen Step GroupCommit.initial s.wal.commit)
    (fun s _ hs _ he => hs.trans (steps_next s he)) .refl

/-- No `clear` begins a new epoch between the choice of a leader and its return. -/
theorem settle_current {ok : State → Event → Prop} {size : ℕ} {es : List Event} {s : State}
    (h : Run system ok (initial size) es s) {t : ThreadId} {ticket : Ticket} {epoch target : ℕ}
    (ht : s.wal.pc t = .synced ticket epoch target) : s.wal.epoch = epoch :=
  (GroupCommit.inv_of_steps (commit_of_run h)).settle_current (role_commit ht)

end LsmTree.WalLifecycle

/-! ### The locks -/

namespace LsmTree.Blocking
open GroupCommit (Role Step steps_stay steps_move)
open Relation Transition WalRing

def Pc.role : Pc → Role
  | waiting k | asleep k => .waiting k
  | leading k epoch | draining k epoch => .leading k epoch
  | syncing k epoch target _ | settling k epoch (some target) => .syncing k epoch target
  | settling _ _ none => .failed
  | _ => .outside

variable {n : ℕ} {s : State n} {t : Fin n}

def State.commit (s : State n) : GroupCommit.State (Fin n) := ⟨Pc.role ∘ s.pc, s.epoch, s.durableEnd, s.syncInProgress⟩

theorem role_commit {p : Pc} (ht : s.pc t = p) : s.commit.role t = p.role := congrArg Pc.role ht

theorem role_woken (p : Pc) : p.woken.role = p.role := by cases p <;> rfl

/-- A notification changes nothing of a group commit. -/
theorem commit_notifyAll (s : State n) : s.notifyAll.commit = s.commit := by
  have hrole : (Pc.role ∘ fun t => (s.pc t).woken) = Pc.role ∘ s.pc := funext fun t => role_woken (s.pc t)
  rw [State.commit, State.notifyAll, hrole]
  rfl

theorem steps_test {k : Ticket} (ht : s.commit.role t = .waiting k) :
    ReflTransGen Step s.commit (s.test t k).commit := by
  unfold State.test
  split_ifs with hepoch hend hflag
  · exact steps_move (.finish ht (.inl hepoch))
  · exact steps_move (.finish ht (.inr hend))
  · exact steps_stay ht.symm
  · exact steps_move (.lead ht (not_not.mp hepoch) (not_le.mp hend) (Bool.eq_false_iff.mpr hflag))

theorem commit_move (s : State n) (t : Fin n) (p : Pc) : (s.move t p).commit = s.commit.move t p.role := by
  rw [State.commit, State.move, Function.comp_update]
  rfl

theorem steps_to {p : Pc} (hp : p.role = s.commit.role t) : ReflTransGen Step s.commit (s.move t p).commit :=
  steps_stay hp

/-- The head of the loop does not look at where the thread stood. -/
theorem test_move (s : State n) (t : Fin n) (p : Pc) (k : Ticket) : (s.move t p).test t k = s.test t k := by
  unfold State.test
  simp only [State.move, Function.update_idem]

theorem steps_settle {k : Ticket} {epoch : ℕ} {target : Option ℕ} (ht : s.pc t = .settling k epoch target) :
    ReflTransGen Step s.commit (s.settle t k epoch target).commit := by
  have hrole := role_commit ht
  cases target with
  | none =>
    rw [State.settle, commit_move, commit_notifyAll]
    exact .single (.giveUp hrole)
  | some target =>
    have hsettled : Step s.commit ({ s with
        syncInProgress := false
        durableEnd := if s.epoch = epoch then max s.durableEnd target else s.durableEnd }.notifyAll.move t
          (.waiting k)).commit := by
      rw [commit_move, commit_notifyAll]
      exact .settle hrole
    rw [State.settle, ← test_move _ t (.waiting k)]
    exact .head hsettled (steps_test (role_commit (p := .waiting k) (Function.update_self t _ _)))

theorem steps_acquire (h : Inv s) (t : Fin n) : ReflTransGen Step s.commit (s.acquire t).commit := by
  unfold State.acquire
  split
  case h_1 ht => exact steps_to (role_commit ht).symm
  case h_2 bytes ht => exact steps_to (role_commit ht).symm
  case h_3 call _ ht => exact steps_to (role_commit ht).symm
  case h_4 bytes ht => exact steps_to (role_commit ht).symm
  case h_5 k ht =>
    split_ifs with hflag
    · exact steps_to (role_commit ht).symm
    · exact .head (.clear (Bool.eq_false_iff.mpr hflag)) (steps_to (s := { s with durableEnd := 0 }) (role_commit ht).symm)
  case h_6 k ht =>
    have hfree : s.syncInProgress = false := h.cleared t (by rw [ht, Pc.syncHeld])
    have hepoch : Step s.commit ({ s with epoch := s.epoch + 1 } : State n).notifyAll.commit := by
      rw [commit_notifyAll]
      exact .newEpoch hfree
    exact .head hepoch (steps_to (by rw [commit_notifyAll]; exact (role_commit ht).symm))
  case h_7 ht => exact steps_move (.call _ (role_commit ht))
  case h_8 k ht => exact steps_test (role_commit ht)
  case h_9 k epoch ht => exact steps_to (role_commit ht).symm
  case h_10 k epoch target ht => exact steps_settle ht
  case h_11 => exact .refl

theorem steps_release (durable : Bool) {k : Option Ticket} (ht : s.commit.role t = .outside) :
    ReflTransGen Step s.commit (s.release durable t k).commit := by
  unfold State.release
  split
  case h_1 k => exact steps_move (.call k ht)
  case h_2 => exact steps_to ht.symm

theorem steps_clear {k : Option Ticket} (result : Result) (ht : s.commit.role t = .outside) :
    ReflTransGen Step s.commit (s.clear t k result).commit := by
  unfold State.clear
  split <;> exact steps_stay ht.symm

theorem steps_finish (durable : Bool) {result : Result} (hends : (s.pc t).ends result = true) :
    ReflTransGen Step s.commit (s.finish durable t result).commit := by
  unfold State.finish
  split
  case h_1 ht => exact steps_to (role_commit ht).symm
  case h_2 bytes ht => exact steps_stay (role_commit ht).symm
  case h_3 bytes ht => exact steps_stay (role_commit ht).symm
  case h_4 k ht => exact steps_release durable (role_commit ht)
  case h_5 k ht => exact steps_to (role_commit ht).symm
  case h_6 k ht => exact steps_to (role_commit ht).symm
  case h_7 k result ht => exact steps_clear _ (role_commit ht)
  case h_8 k ht => exact steps_release durable (role_commit ht)
  case h_9 k epoch ht => exact steps_move (.drain _ (role_commit ht))
  case h_10 result k epoch ht _ => exact steps_move (.fail (congrArg Role.leads (role_commit ht)))
  case h_11 k epoch target fd ht => exact steps_to (role_commit ht).symm
  case h_12 result k epoch target fd ht _ => exact steps_move (.fail (congrArg Role.leads (role_commit ht)))
  case h_13 =>
    refine steps_to (t := t) (.symm ?_)
    change (s.pc t).role = .outside
    cases hq : s.pc t <;> simp_all [Pc.ends, Pc.role]

/-- Each step of the locks is some steps of the group commit, or none. -/
theorem steps_next (h : Inv s) (durable : Bool) {e : Event n} (he : Enabled s e) :
    ReflTransGen Step s.commit (next durable s e).commit := by
  cases e with
  | begin t call => exact steps_to ((by cases call <;> rfl : call.start.role = .outside).trans (role_commit he).symm)
  | acquire t => exact steps_acquire h t
  | finish t result => exact steps_finish durable he
  | wakeUp t => exact steps_to (role_woken _)

theorem commit_of_run {durable : Bool} {size : ℕ} {es : List (Event n)}
    (h : Run (system n durable) (fun _ _ => True) (initial n size) es s) :
    ReflTransGen Step GroupCommit.initial s.commit :=
  (h.invariant (fun s => Inv s ∧ ReflTransGen Step GroupCommit.initial s.commit)
    (fun _ _ hs _ he => ⟨hs.1.next durable he, hs.2.trans (steps_next hs.1 durable he)⟩) ⟨inv_initial size, .refl⟩).2

end LsmTree.Blocking

/-! ### The crashes -/

namespace LsmTree.CrashMachine
open GroupCommit (Role Step steps_stay steps_move)
open Relation Transition
open WalRing (ThreadId)

def Pc.role : Pc → Role
  | idle | writing _ | flushing => .outside
  | waiting w => .waiting w.ticket
  | leading w epoch => .leading w.ticket epoch
  | drained w epoch target => .syncing w.ticket epoch target

def State.commit (s : State) : GroupCommit.State ThreadId :=
  ⟨Pc.role ∘ s.threads, s.epoch, s.durableEnd, s.syncInProgress⟩

variable {s : State} {t : ThreadId}

theorem role_commit {p : Pc} (ht : s.threads t = p) : s.commit.role t = p.role := congrArg Pc.role ht

theorem steps_finish {w : Wait} (ht : s.threads t = .waiting w)
    (hdone : w.ticket.epoch ≠ s.epoch ∨ w.ticket.stop ≤ s.durableEnd) :
    ReflTransGen Step s.commit (s.finish t w.caller).commit := by
  have hstep : Step s.commit (s.commit.move t .outside) := .finish (role_commit ht) hdone
  unfold State.finish
  split
  case h_1 => exact steps_move hstep
  case h_2 => exact steps_move hstep

theorem steps_check {w : Wait} (ht : s.threads t = .waiting w) :
    ReflTransGen Step s.commit (s.check t w).commit := by
  unfold State.check
  split_ifs with hepoch hend hflag
  · exact steps_finish ht (.inl hepoch)
  · exact steps_finish ht (.inr hend)
  · exact .refl
  · exact steps_move (.lead (role_commit ht) (not_not.mp hepoch) (not_le.mp hend) (Bool.eq_false_iff.mpr hflag))

theorem steps_released (s : State) (t : ThreadId) :
    ReflTransGen Step s.commit (s.setPc t (s.released (s.threads t))).commit := by
  unfold State.released
  split
  case h_1 w ht =>
    split_ifs
    · exact steps_move (.call w.ticket (role_commit ht))
    · exact steps_stay (role_commit ht).symm
  case h_2 ht => exact steps_stay (role_commit ht).symm
  case h_3 => exact steps_stay rfl

theorem steps_advance (hready : s.Ready) : ReflTransGen Step s.commit s.advance.commit := by
  unfold State.advance
  split
  case h_1 => exact .refl
  case h_2 store _ =>
    split
    case h_1 hstage =>
      have hfree : s.syncInProgress = false := by simpa only [State.Ready, hstage] using hready
      exact .head (.clear hfree) (.single (.newEpoch hfree))
    case h_2 u hstage hholder => exact steps_released { s with store := store, holder := none } u
    case h_3 => exact .refl

/-- Each step of the engine is some steps of the group commit, or none; a crash begins it anew. -/
theorem steps_next (s : State) {e : Event} (he : Enabled s e) : ReflTransGen Step s.commit (next s e).commit := by
  obtain ⟨-, he⟩ := he
  cases e with
  | write t op height => exact steps_stay (role_commit he.2.1).symm
  | flush t => exact steps_stay (role_commit he.2.1).symm
  | sync t => exact steps_move (.call _ (role_commit he.1))
  | step => exact steps_advance he
  | land i => exact .refl
  | check t =>
    simp only [next]
    split
    case h_1 w ht => exact steps_check ht
    case h_2 => exact .refl
  | drain t =>
    simp only [next]
    split
    case h_1 w epoch ht => exact steps_move (.drain _ (role_commit ht))
    case h_2 => exact .refl
  | settle t =>
    simp only [next]
    split
    case h_1 w epoch target ht => exact steps_move (.settle (role_commit ht))
    case h_2 => exact .refl
  | crash maxBytes heights =>
    simp only [next, State.crash]
    split
    · exact .refl
    · exact .single .restart

theorem commit_of_run {ok : State → Event → Prop} {durability : Durability} {maxBytes : ℕ} {es : List Event}
    (h : Run machine ok (initial durability maxBytes) es s) : ReflTransGen Step GroupCommit.initial s.commit :=
  h.invariant (fun s => ReflTransGen Step GroupCommit.initial s.commit)
    (fun s _ hs _ he => hs.trans (steps_next s he)) .refl

/-- A leader that comes back finds the epoch it began with, so it always raises the durable end. -/
theorem settle_current {ok : State → Event → Prop} {durability : Durability} {maxBytes : ℕ} {es : List Event}
    (h : Run machine ok (initial durability maxBytes) es s) {w : Wait} {epoch target : ℕ}
    (ht : s.threads t = .drained w epoch target) : s.epoch = epoch :=
  (GroupCommit.inv_of_steps (commit_of_run h)).settle_current (role_commit ht)

end LsmTree.CrashMachine
