import LsmTree.LockHolders
import LsmTree.WalRing

/-!
# Every call returns

Threads call one engine. A call takes `LSMEngine::mu_`, shared or exclusive, inside it
`WAL::sync_mu_` when a flush clears the log, and inside that `WAL::mu_`; a durable write
and `sync` wait for a group commit, which holds `sync_mu_` only for a moment at a time and
sleeps on `sync_cv_`. A clear sleeps there too, holding the engine, until no `fdatasync`
runs.

A step takes a lock that is free, or ends a piece of work: an append, the writing of a
table, a drain, an `fdatasync`, a compaction. Work ends, in success or by an exception,
whatever the device takes for it. What a thread does between two waits while it holds
`sync_mu_` is one step. Threads are run in any order, a sleeper may wake up for no reason,
and nothing is assumed to be fair.
-/

namespace LsmTree.Blocking
open Transition LockHolders WalRing

/-- The calls; `put` is also `del`, with the bytes its record takes in the log, and `get` is
also `scan`. -/
inductive Call where
  | get
  | put (bytes : ℕ)
  | flush
  | sync
  deriving DecidableEq

/-- Where a thread stands. What holds `mu_` exclusively in a put goes on with the ticket of its
record, in a flush with none. The last six are in `waitDurable`. -/
inductive Pc where
  | idle
  | lockShared
  | reading
  | lockExclusive (call : Call)
  | testEmpty
  | lockLog (bytes : ℕ)
  | appending (bytes : ℕ)
  | inserting (k : Ticket)
  | writing (k : Option Ticket)
  | clearLock (k : Option Ticket)
  | clearAsleep (k : Option Ticket)
  | clearMu (k : Option Ticket)
  | clearing (k : Option Ticket)
  | compacting (k : Option Ticket)
  | syncMu
  | waiting (k : Ticket)
  | asleep (k : Ticket)
  | leading (k : Ticket) (epoch : ℕ)
  | draining (k : Ticket) (epoch : ℕ)
  | syncing (k : Ticket) (epoch target : ℕ) (fd : Option ℕ)
  | settling (k : Ticket) (epoch : ℕ) (target : Option ℕ)
  deriving DecidableEq

namespace Pc

/-- `LSMEngine::mu_` is held shared. -/
@[simp] def shared : Pc → Bool
  | reading => true
  | _ => false

/-- `LSMEngine::mu_` is held exclusively. -/
@[simp] def exclusive : Pc → Bool
  | testEmpty | lockLog _ | appending _ | inserting _ | writing _ | clearLock _ | clearAsleep _ | clearMu _
  | clearing _ | compacting _ => true
  | _ => false

/-- `WAL::sync_mu_` is held. -/
@[simp] def syncHeld : Pc → Bool
  | clearMu _ | clearing _ => true
  | _ => false

/-- `WAL::mu_` is held. -/
@[simp] def logHeld : Pc → Bool
  | appending _ | clearing _ | draining _ _ => true
  | _ => false

/-- The thread is the leader of a group commit. -/
@[simp] def leads : Pc → Bool
  | leading _ _ | draining _ _ | syncing _ _ _ _ | settling _ _ _ => true
  | _ => false

/-- The thread sleeps on `sync_cv_`. -/
@[simp] def sleeps : Pc → Bool
  | asleep _ | clearAsleep _ => true
  | _ => false

/-- The log is emptied under `WAL::mu_`. -/
@[simp] def clears : Pc → Bool
  | clearing _ => true
  | _ => false

@[simp] def ticket : Pc → Option Ticket
  | inserting k | waiting k | asleep k | leading k _ | draining k _ | syncing k _ _ _ | settling k _ _ => some k
  | writing k | clearLock k | clearAsleep k | clearMu k | clearing k | compacting k => k
  | _ => none

/-- What a notification of `sync_cv_` does to a thread: it wants the lock again. -/
@[simp] def woken : Pc → Pc
  | asleep k => waiting k
  | clearAsleep k => clearLock k
  | p => p

end Pc

/-- `sync_cv_`, the fields of a `WAL` that the waits depend on, and the threads. `fd_` is known by
how often the log had been opened before. -/
structure State (n : ℕ) where
  pc : Fin n → Pc
  epoch : ℕ
  writeOffset : ℕ
  durableEnd : ℕ
  syncInProgress : Bool
  fd : Option ℕ
  opened : ℕ

def initial (n size : ℕ) : State n where
  pc := fun _ => .idle
  epoch := 0
  writeOffset := size
  durableEnd := 0
  syncInProgress := false
  fd := some 0
  opened := 1

/-- How a piece of work ends: by itself, with a memtable to be written out, by an exception, or
by an exception thrown after the offset of the log was changed. -/
inductive Result where
  | done
  | full
  | threw
  | threwLate
  deriving DecidableEq

inductive Event (n : ℕ) where
  | begin (t : Fin n) (call : Call)
  | acquire (t : Fin n)
  | finish (t : Fin n) (result : Result)
  | wakeUp (t : Fin n)
  deriving DecidableEq

namespace State
variable {n : ℕ}

def move (s : State n) (t : Fin n) (p : Pc) : State n := { s with pc := Function.update s.pc t p }

/-- `sync_cv_.notify_all()`. -/
def notifyAll (s : State n) : State n := { s with pc := fun t => (s.pc t).woken }

/-- Whether the lock the thread waits for is free for it. -/
def LockFree (s : State n) : Pc → Prop
  | .lockShared => Nowhere Pc.exclusive s.pc
  | .lockExclusive _ => Nowhere Pc.exclusive s.pc ∧ Nowhere Pc.shared s.pc
  | .lockLog _ | .clearMu _ | .syncMu | .leading _ _ => Nowhere Pc.logHeld s.pc
  | .clearLock _ | .waiting _ | .settling _ _ _ => Nowhere Pc.syncHeld s.pc
  | _ => False

instance (s : State n) : (p : Pc) → Decidable (s.LockFree p)
  | .lockShared => inferInstanceAs (Decidable (Nowhere _ _))
  | .lockExclusive _ => inferInstanceAs (Decidable (_ ∧ _))
  | .lockLog _ | .clearMu _ | .syncMu | .leading _ _ => inferInstanceAs (Decidable (Nowhere _ _))
  | .clearLock _ | .waiting _ | .settling _ _ _ => inferInstanceAs (Decidable (Nowhere _ _))
  | .idle | .reading | .testEmpty | .appending _ | .inserting _ | .writing _ | .clearAsleep _ | .clearing _
  | .compacting _ | .asleep _ | .draining _ _ | .syncing _ _ _ _ => inferInstanceAs (Decidable False)

/-- One pass of `WAL::waitDurable` through the head of its loop. -/
def test (s : State n) (t : Fin n) (k : Ticket) : State n :=
  if k.epoch ≠ s.epoch then s.move t .idle
  else if k.stop ≤ s.durableEnd then s.move t .idle
  else if s.syncInProgress then s.move t (.asleep k)
  else { s with syncInProgress := true }.move t (.leading k s.epoch)

/-- The leader has `sync_mu_` again. -/
def settle (s : State n) (t : Fin n) (k : Ticket) (epoch : ℕ) : Option ℕ → State n
  | none => { s with syncInProgress := false }.notifyAll.move t .idle
  | some target =>
    { s with
      syncInProgress := false
      durableEnd := if s.epoch = epoch then max s.durableEnd target else s.durableEnd }.notifyAll.test t k

/-- What the thread does with the lock it gets, up to where it works or waits. -/
def acquire (s : State n) (t : Fin n) : State n :=
  match s.pc t with
  | .lockShared => s.move t .reading
  | .lockExclusive (.put bytes) => s.move t (.lockLog bytes)
  | .lockExclusive _ => s.move t .testEmpty
  | .lockLog bytes => s.move t (.appending bytes)
  | .clearLock k =>
    if s.syncInProgress then s.move t (.clearAsleep k) else { s with durableEnd := 0 }.move t (.clearMu k)
  | .clearMu k => ({ s with epoch := s.epoch + 1 }.notifyAll).move t (.clearing k)
  | .syncMu => s.move t (.waiting ⟨s.epoch, s.writeOffset⟩)
  | .waiting k => s.test t k
  | .leading k epoch => s.move t (.draining k epoch)
  | .settling k epoch target => s.settle t k epoch target
  | _ => s

/-- A call gives back `mu_`. A durable put then waits for its record. -/
def release (durable : Bool) (s : State n) (t : Fin n) (k : Option Ticket) : State n :=
  match durable, k with
  | true, some k => s.move t (.waiting k)
  | _, _ => s.move t .idle

/-- `WAL::clear` from the drain on. A failure to remove or to open the log leaves it closed at its
old offset, one to set up the ring leaves it closed and empty. -/
def clear (s : State n) (t : Fin n) (k : Option Ticket) : Result → State n
  | .threw => { s with fd := none }.move t .idle
  | .threwLate => { s with fd := none, writeOffset := 0, opened := s.opened + 1 }.move t .idle
  | _ => { s with fd := some s.opened, writeOffset := 0, opened := s.opened + 1 }.move t (.compacting k)

/-- The work of a thread ends. An exception, the end of a read and an empty memtable end the call. -/
def finish (durable : Bool) (s : State n) (t : Fin n) (result : Result) : State n :=
  match s.pc t, result with
  | .testEmpty, .full => s.move t (.writing none)
  | .appending bytes, .done =>
    { s with writeOffset := s.writeOffset + bytes }.move t (.inserting ⟨s.epoch, s.writeOffset + bytes⟩)
  | .appending bytes, .threwLate => { s with writeOffset := s.writeOffset + bytes }.move t .idle
  | .inserting k, .done => s.release durable t (some k)
  | .inserting k, .full => s.move t (.writing (some k))
  | .writing k, .done => s.move t (.clearLock k)
  | .clearing k, result => s.clear t k result
  | .compacting k, .done => s.release durable t k
  | .draining k epoch, .done => s.move t (.syncing k epoch s.writeOffset s.fd)
  | .draining k epoch, _ => s.move t (.settling k epoch none)
  | .syncing k epoch target _, .done => s.move t (.settling k epoch (some target))
  | .syncing k epoch _ _, _ => s.move t (.settling k epoch none)
  | _, _ => s.move t .idle

end State

/-- How the work of a thread can end. Where it waits for a lock, sleeps or is in no call, it does
not work. -/
def Pc.ends : Pc → Result → Bool
  | .testEmpty, .done | .testEmpty, .full | .inserting _, .full => true
  | .appending _, .threwLate | .clearing _, .threwLate => true
  | .reading, .done | .appending _, .done | .inserting _, .done | .writing _, .done | .clearing _, .done => true
  | .compacting _, .done | .draining _ _, .done | .syncing _ _ _ _, .done => true
  | .reading, .threw | .appending _, .threw | .inserting _, .threw | .writing _, .threw | .clearing _, .threw => true
  | .compacting _, .threw | .draining _ _, .threw | .syncing _ _ _ _, .threw => true
  | _, _ => false

/-- Where a call starts. -/
def Call.start : Call → Pc
  | .get => .lockShared
  | .sync => .syncMu
  | call => .lockExclusive call

section System
variable {n : ℕ}

def Enabled (s : State n) : Event n → Prop
  | .begin t _ => s.pc t = .idle
  | .acquire t => s.LockFree (s.pc t)
  | .finish t result => (s.pc t).ends result = true
  | .wakeUp t => (s.pc t).sleeps = true

instance (s : State n) : (e : Event n) → Decidable (Enabled s e)
  | .begin _ _ => inferInstanceAs (Decidable (_ = _))
  | .acquire t => inferInstanceAs (Decidable (s.LockFree (s.pc t)))
  | .finish _ _ | .wakeUp _ => inferInstanceAs (Decidable (_ = true))

def next (durable : Bool) (s : State n) : Event n → State n
  | .begin t call => s.move t call.start
  | .acquire t => s.acquire t
  | .finish t result => s.finish durable t result
  | .wakeUp t => s.move t (s.pc t).woken

def system (n : ℕ) (durable : Bool) : System (State n) (Event n) := ⟨Enabled, next durable⟩

instance (durable : Bool) (s : State n) (e : Event n) : Decidable ((system n durable).Enabled s e) :=
  inferInstanceAs (Decidable (Enabled s e))

/-- What comes from outside: a call, or a wake-up for no reason. -/
def Event.outside : Event n → Bool
  | .begin _ _ | .wakeUp _ => true
  | _ => false

/-! ### The invariant -/

/-- The locks exclude each other as they should, and at most one thread leads. -/
structure Exclusion (pc : Fin n → Pc) : Prop where
  engine : AtMostOne Pc.exclusive pc
  readers : KeepsOut Pc.exclusive Pc.shared pc
  log : AtMostOne Pc.logHeld pc
  sync : AtMostOne Pc.syncHeld pc
  leader : AtMostOne Pc.leads pc

/-- A leader leads for the current epoch. What it syncs is the open log, up to its own ticket at
least. -/
def PcInv (s : State n) : Pc → Prop
  | .leading k epoch | .draining k epoch | .settling k epoch none => k.epoch = epoch ∧ epoch = s.epoch
  | .syncing k epoch target fd => k.epoch = epoch ∧ epoch = s.epoch ∧ k.stop ≤ target ∧ fd = s.fd
  | .settling k epoch (some target) => k.epoch = epoch ∧ epoch = s.epoch ∧ k.stop ≤ target
  | _ => True

structure Inv (s : State n) : Prop extends Exclusion s.pc where
  inProgress : s.syncInProgress = true ↔ ∃ t, (s.pc t).leads = true
  asleep : ∀ t, (s.pc t).sleeps = true → s.syncInProgress = true
  cleared : ∀ t, (s.pc t).syncHeld = true → s.syncInProgress = false
  tickets : ∀ t k, (s.pc t).ticket = some k → k.epoch ≤ s.epoch ∧ (k.epoch = s.epoch → k.stop ≤ s.writeOffset)
  stale : ∀ t, (s.pc t).clears = true → ∀ u k, (s.pc u).ticket = some k → k.epoch < s.epoch
  threads : ∀ t, PcInv s (s.pc t)

theorem inv_initial (size : ℕ) : Inv (initial n size) := by
  constructor
  · constructor <;> intro t u h <;> cases h
  all_goals simp [initial, Pc.leads, Pc.sleeps, Pc.syncHeld, Pc.ticket, Pc.clears, PcInv]

theorem Pc.shared_of_exclusive {p : Pc} (h : p.exclusive = true) : p.shared = false := by
  cases p <;> first | rfl | cases h

theorem Pc.logHeld_of_clears {p : Pc} (h : p.clears = true) : p.logHeld = true := by
  cases p <;> first | rfl | cases h

theorem Pc.syncHeld_of_clears {p : Pc} (h : p.clears = true) : p.syncHeld = true := by
  cases p <;> first | rfl | cases h

theorem Exclusion.move {pc : Fin n → Pc} (h : Exclusion pc) {t : Fin n} {p : Pc}
    (hexclusive : p.exclusive = true → (pc t).exclusive = true ∨ Nowhere Pc.exclusive pc ∧ Nowhere Pc.shared pc)
    (hshared : p.shared = true → Nowhere Pc.exclusive pc)
    (hlog : p.logHeld = true → (pc t).logHeld = true ∨ Nowhere Pc.logHeld pc)
    (hsync : p.syncHeld = true → (pc t).syncHeld = true ∨ Nowhere Pc.syncHeld pc)
    (hleads : p.leads = true → (pc t).leads = true ∨ Nowhere Pc.leads pc) :
    Exclusion (Function.update pc t p) where
  engine := h.engine.update fun hp => (hexclusive hp).imp id And.left
  readers := h.readers.update (fun hp => ⟨Pc.shared_of_exclusive hp, (hexclusive hp).imp id And.right⟩)
    fun hp => .inr (hshared hp)
  log := h.log.update hlog
  sync := h.sync.update hsync
  leader := h.leader.update hleads

/-- A thread moves, all else stays. -/
theorem Inv.move {s : State n} (h : Inv s) {t : Fin n} {p : Pc} (hexcl : Exclusion (Function.update s.pc t p))
    (hleads : p.leads = (s.pc t).leads) (hsleeps : p.sleeps = true → s.syncInProgress = true)
    (hsync : p.syncHeld = true → s.syncInProgress = false)
    (hticket : ∀ k, p.ticket = some k →
      (s.pc t).ticket = some k ∨ k = ⟨s.epoch, s.writeOffset⟩ ∧ Nowhere Pc.clears s.pc)
    (hclears : p.clears = true → (s.pc t).clears = true) (hpc : PcInv s p) : Inv (s.move t p) := by
  refine ⟨hexcl, ?_, ?_, ?_, ?_, ?_, ?_⟩
  · rw [State.move, h.inProgress]
    constructor
    · exact fun hex => exists_update hex fun ht => hleads.trans ht
    · intro hex
      rcases (Function.exists_update_iff s.pc fun _ q => q.leads = true).mp hex with hp | ⟨u, -, hu⟩
      · exact ⟨t, hleads.symm.trans hp⟩
      · exact ⟨u, hu⟩
  · exact (Function.forall_update_iff s.pc fun _ q => q.sleeps = true → s.syncInProgress = true).mpr
      ⟨hsleeps, fun u _ => h.asleep u⟩
  · exact (Function.forall_update_iff s.pc fun _ q => q.syncHeld = true → s.syncInProgress = false).mpr
      ⟨hsync, fun u _ => h.cleared u⟩
  · refine (Function.forall_update_iff s.pc fun _ q => ∀ k, q.ticket = some k →
      k.epoch ≤ s.epoch ∧ (k.epoch = s.epoch → k.stop ≤ s.writeOffset)).mpr ⟨?_, fun u _ => h.tickets u⟩
    intro k hk
    rcases hticket k hk with hold | ⟨rfl, -⟩
    · exact h.tickets t k hold
    · exact ⟨le_refl _, fun _ => le_refl _⟩
  · have hold : ∀ u, (s.pc u).clears = true → ∀ v k, ((s.move t p).pc v).ticket = some k → k.epoch < s.epoch := by
      intro u hu
      refine (Function.forall_update_iff s.pc fun _ q => ∀ k, q.ticket = some k → k.epoch < s.epoch).mpr
        ⟨?_, fun v _ => h.stale u hu v⟩
      intro k hk
      rcases hticket k hk with hk | ⟨-, hfree⟩
      · exact h.stale u hu t k hk
      · rw [hfree u] at hu
        cases hu
    exact (Function.forall_update_iff s.pc fun _ q => q.clears = true → _).mpr
      ⟨fun hp => hold t (hclears hp), fun u _ => hold u⟩
  · exact (Function.forall_update_iff s.pc fun _ q => PcInv s q).mpr ⟨hpc, fun u _ => h.threads u⟩

/-- The thread takes no lock, sleeps nowhere and brings no new ticket. -/
def Pc.Follows (p q : Pc) : Prop :=
  (p.exclusive = true → q.exclusive = true) ∧ p.shared = false ∧ (p.logHeld = true → q.logHeld = true) ∧
    p.syncHeld = false ∧ p.leads = q.leads ∧ p.sleeps = false ∧ p.clears = false ∧
      ∀ k, p.ticket = some k → q.ticket = some k

theorem Pc.idle_follows {p : Pc} (h : p.leads = false) : Pc.idle.Follows p :=
  ⟨nofun, rfl, nofun, rfl, h.symm, rfl, rfl, nofun⟩

theorem Inv.follow {s : State n} (h : Inv s) {t : Fin n} {p : Pc} (hp : p.Follows (s.pc t)) (hpc : PcInv s p) :
    Inv (s.move t p) := by
  obtain ⟨hexclusive, hshared, hlog, hsync, hleads, hsleeps, hclears, hticket⟩ := hp
  refine h.move (h.toExclusion.move ?_ ?_ ?_ ?_ ?_) hleads ?_ ?_ ?_ ?_ hpc
  · exact fun hx => .inl (hexclusive hx)
  · exact fun hx => absurd (hshared.symm.trans hx) Bool.false_ne_true
  · exact fun hx => .inl (hlog hx)
  · exact fun hx => absurd (hsync.symm.trans hx) Bool.false_ne_true
  · exact fun hx => .inl (hleads.symm.trans hx)
  · exact fun hx => absurd (hsleeps.symm.trans hx) Bool.false_ne_true
  · exact fun hx => absurd (hsync.symm.trans hx) Bool.false_ne_true
  · exact fun k hk => .inl (hticket k hk)
  · exact fun hx => absurd (hclears.symm.trans hx) Bool.false_ne_true

/-! ### One step -/

theorem Pc.woken_follows {p : Pc} (hp : p.sleeps = true) : p.woken.Follows p := by
  cases p <;> simp_all [Pc.Follows]

theorem Pc.woken_exclusive (p : Pc) : p.woken.exclusive = p.exclusive := by cases p <;> rfl

theorem Pc.woken_shared (p : Pc) : p.woken.shared = p.shared := by cases p <;> rfl

theorem Pc.woken_logHeld (p : Pc) : p.woken.logHeld = p.logHeld := by cases p <;> rfl

theorem Pc.woken_syncHeld (p : Pc) : p.woken.syncHeld = p.syncHeld := by cases p <;> rfl

theorem Pc.woken_leads (p : Pc) : p.woken.leads = p.leads := by cases p <;> rfl

theorem Pc.woken_clears (p : Pc) : p.woken.clears = p.clears := by cases p <;> rfl

theorem Pc.woken_ticket (p : Pc) : p.woken.ticket = p.ticket := by cases p <;> rfl

theorem Pc.woken_sleeps (p : Pc) : p.woken.sleeps = false := by cases p <;> rfl

theorem pcInv_woken {s : State n} {p : Pc} (h : PcInv s p) : PcInv s p.woken := by
  cases p <;> exact h

theorem pcInv_of_leads_eq_false {s : State n} {p : Pc} (h : p.leads = false) : PcInv s p := by
  cases p <;> simp_all [PcInv]

theorem Exclusion.notifyAll {pc : Fin n → Pc} (h : Exclusion pc) : Exclusion fun t => (pc t).woken where
  engine := by simpa only [AtMostOne, Pc.woken_exclusive] using h.engine
  readers := by simpa only [KeepsOut, Pc.woken_exclusive, Pc.woken_shared] using h.readers
  log := by simpa only [AtMostOne, Pc.woken_logHeld] using h.log
  sync := by simpa only [AtMostOne, Pc.woken_syncHeld] using h.sync
  leader := by simpa only [AtMostOne, Pc.woken_leads] using h.leader

/-- Where nobody sleeps a notification does nothing. -/
theorem State.notifyAll_eq_self {s : State n} (h : Nowhere Pc.sleeps s.pc) : s.notifyAll = s := by
  have hpc : (fun t => (s.pc t).woken) = s.pc := by
    funext t
    have ht := h t
    cases hp : s.pc t <;> simp_all
  rw [notifyAll, hpc]

/-- While a thread holds `sync_mu_` inside `clear`, nobody leads and nobody sleeps. -/
theorem Inv.nowhere_sleeps {s : State n} (h : Inv s) {t : Fin n} (ht : (s.pc t).syncHeld = true) :
    Nowhere Pc.sleeps s.pc := fun u => by
  rw [Bool.eq_false_iff]
  intro hu
  have hflag := h.asleep u hu
  rw [h.cleared t ht] at hflag
  cases hflag

theorem Inv.nowhere_leads {s : State n} (h : Inv s) (hflag : s.syncInProgress = false) :
    Nowhere Pc.leads s.pc := fun u => by
  rw [Bool.eq_false_iff]
  intro hu
  have hflag' := h.inProgress.mpr ⟨u, hu⟩
  rw [hflag] at hflag'
  cases hflag'

theorem Inv.lead {s : State n} (h : Inv s) {t : Fin n} {k : Ticket} (hq : s.pc t = .waiting k)
    (hepoch : k.epoch = s.epoch) (hflag : s.syncInProgress = false) (hfree : Nowhere Pc.syncHeld s.pc) :
    Inv ({ s with syncInProgress := true }.move t (.leading k s.epoch)) := by
  have hnoclear : Nowhere Pc.clears s.pc := fun u =>
    Bool.eq_false_iff.mpr fun hu => absurd ((hfree u).symm.trans (Pc.syncHeld_of_clears hu)) Bool.false_ne_true
  refine ⟨?_, ?_, fun _ _ => rfl, ?_, ?_, ?_, ?_⟩
  · refine h.toExclusion.move ?_ ?_ ?_ ?_ fun _ => .inr (h.nowhere_leads hflag) <;> simp
  · exact ⟨fun _ => ⟨t, by simp [State.move]⟩, fun _ => rfl⟩
  · refine (Function.forall_update_iff s.pc fun _ q => q.syncHeld = true → _).mpr ⟨by simp, fun u _ hu => ?_⟩
    rw [hfree u] at hu
    cases hu
  · refine (Function.forall_update_iff s.pc fun _ q => ∀ k, q.ticket = some k →
      k.epoch ≤ s.epoch ∧ (k.epoch = s.epoch → k.stop ≤ s.writeOffset)).mpr ⟨?_, fun u _ => h.tickets u⟩
    intro k' hk'
    exact h.tickets t k' (by rw [hq]; exact hk')
  · refine (Function.forall_update_iff s.pc fun _ q => q.clears = true → _).mpr ⟨by simp, fun u _ hu => ?_⟩
    rw [hnoclear u] at hu
    cases hu
  · exact (Function.forall_update_iff s.pc fun _ q => PcInv s q).mpr ⟨⟨hepoch, rfl⟩, fun u _ => h.threads u⟩

theorem Inv.test {s : State n} (h : Inv s) {t : Fin n} {k : Ticket} (hq : s.pc t = .waiting k)
    (hfree : Nowhere Pc.syncHeld s.pc) : Inv (s.test t k) := by
  unfold State.test
  split_ifs with hepoch hdurable hflag
  · exact h.follow (by simp [Pc.Follows, hq]) trivial
  · exact h.follow (by simp [Pc.Follows, hq]) trivial
  · refine h.move (h.toExclusion.move ?_ ?_ ?_ ?_ ?_) ?_ (fun _ => hflag) ?_ ?_ ?_ trivial <;> simp [hq]
  · exact h.lead hq (not_not.mp hepoch) (Bool.eq_false_iff.mpr hflag) hfree

/-- A leader gives up the lead. -/
theorem Inv.unlead {s : State n} (h : Inv s) {t : Fin n} (ht : (s.pc t).leads = true) (durableEnd : ℕ) :
    Inv ({ s with syncInProgress := false, durableEnd := durableEnd }.notifyAll.move t .idle) := by
  let pcs : Fin n → Pc := fun u => (s.pc u).woken
  have hnoleader : ∀ u, (Function.update pcs t .idle u).leads = false :=
    (Function.forall_update_iff pcs fun _ q => q.leads = false).mpr
      ⟨rfl, fun u hu => (Pc.woken_leads _).trans (h.leader.nowhere_else ht hu)⟩
  have hnosync : Nowhere Pc.syncHeld s.pc := fun u =>
    Bool.eq_false_iff.mpr fun hu =>
      absurd ((h.cleared u hu).symm.trans (h.inProgress.mpr ⟨t, ht⟩)) Bool.false_ne_true
  refine ⟨?_, ?_, ?_, fun _ _ => rfl, ?_, ?_, ?_⟩
  · refine h.toExclusion.notifyAll.move ?_ ?_ ?_ ?_ ?_ <;> simp
  · refine ⟨fun hflag => absurd hflag Bool.false_ne_true, fun ⟨u, hu⟩ => ?_⟩
    exact absurd ((hnoleader u).symm.trans hu) Bool.false_ne_true
  · exact (Function.forall_update_iff pcs fun _ q => q.sleeps = true → _).mpr
      ⟨nofun, fun u _ hu => absurd ((Pc.woken_sleeps _).symm.trans hu) Bool.false_ne_true⟩
  · exact (Function.forall_update_iff pcs fun _ q => ∀ k, q.ticket = some k →
      k.epoch ≤ s.epoch ∧ (k.epoch = s.epoch → k.stop ≤ s.writeOffset)).mpr
      ⟨nofun, fun u _ k hk => h.tickets u k ((Pc.woken_ticket _).symm.trans hk)⟩
  · refine (Function.forall_update_iff pcs fun _ q => q.clears = true → _).mpr ⟨nofun, fun u _ hu => ?_⟩
    have hheld := Pc.syncHeld_of_clears ((Pc.woken_clears _).symm.trans hu)
    exact absurd ((hnosync u).symm.trans hheld) Bool.false_ne_true
  · exact (Function.forall_update_iff pcs fun _ q => PcInv s q).mpr
      ⟨trivial, fun u _ => pcInv_woken (h.threads u)⟩

theorem settle_eq {s : State n} {t : Fin n} {k : Ticket} {epoch : ℕ} {target : Option ℕ}
    (h : PcInv s (.settling k epoch target)) : ∃ durableEnd, s.settle t k epoch target =
      { s with syncInProgress := false, durableEnd := durableEnd }.notifyAll.move t .idle := by
  cases target with
  | none => exact ⟨s.durableEnd, rfl⟩
  | some target =>
    obtain ⟨rfl, hepoch, hstop⟩ := h
    refine ⟨max s.durableEnd target, ?_⟩
    simp only [State.settle, State.test, State.notifyAll, hepoch, ne_eq, not_true_eq_false, ↓reduceIte,
      hstop.trans (le_max_right _ _)]

theorem Inv.bumpEpoch {s : State n} (h : Inv s) {t : Fin n} {k : Option Ticket} (hq : s.pc t = .clearMu k)
    (hfree : Nowhere Pc.logHeld s.pc) :
    Inv ({ s with epoch := s.epoch + 1 }.notifyAll.move t (.clearing k)) := by
  have hsync : (s.pc t).syncHeld = true := by simp [hq]
  have hflag := h.cleared t hsync
  have hnoleader := h.nowhere_leads hflag
  have hquiet : ({ s with epoch := s.epoch + 1 } : State n).notifyAll = { s with epoch := s.epoch + 1 } :=
    State.notifyAll_eq_self (h.nowhere_sleeps hsync)
  rw [hquiet]
  have hticket : ∀ u k', (Function.update s.pc t (.clearing k) u).ticket = some k' → k'.epoch ≤ s.epoch :=
    (Function.forall_update_iff s.pc fun _ q => ∀ k', q.ticket = some k' → k'.epoch ≤ s.epoch).mpr
      ⟨fun k' hk' => (h.tickets t k' (by rw [hq]; exact hk')).1, fun u _ k' hk' => (h.tickets u k' hk').1⟩
  refine ⟨?_, ?_, ?_, ?_, ?_, ?_, ?_⟩
  · refine h.toExclusion.move ?_ ?_ (fun _ => .inr hfree) ?_ ?_ <;> simp [hq]
  · refine ⟨fun hset => absurd (hflag.symm.trans hset) Bool.false_ne_true, fun hex => ?_⟩
    rcases (Function.exists_update_iff s.pc fun _ q => q.leads = true).mp hex with hp | ⟨u, -, hu⟩
    · simp at hp
    · exact absurd ((hnoleader u).symm.trans hu) Bool.false_ne_true
  · exact (Function.forall_update_iff s.pc fun _ q => q.sleeps = true → _).mpr
      ⟨by simp, fun u _ => h.asleep u⟩
  · exact fun _ _ => hflag
  · intro u k' hk'
    have hle := hticket u k' hk'
    exact ⟨Nat.le_succ_of_le hle, fun heq => absurd heq (Nat.ne_of_lt (Nat.lt_succ_of_le hle))⟩
  · exact fun _ _ u k' hk' => Nat.lt_succ_of_le (hticket u k' hk')
  · exact (Function.forall_update_iff s.pc fun _ q => PcInv _ q).mpr
      ⟨trivial, fun u _ => pcInv_of_leads_eq_false (hnoleader u)⟩

/-- Whatever becomes of the log, a clear leaves no ticket of the new epoch behind. -/
theorem Inv.empty {s : State n} (h : Inv s) {t : Fin n} (ht : (s.pc t).clears = true) {p : Pc}
    (hp : p.Follows (s.pc t)) (fd : Option ℕ) (writeOffset opened : ℕ) :
    Inv ({ s with fd := fd, writeOffset := writeOffset, opened := opened }.move t p) := by
  have hnoleader := h.nowhere_leads (h.cleared t (Pc.syncHeld_of_clears ht))
  have hleads : p.leads = false := hp.2.2.2.2.1.trans (hnoleader t)
  have hmoved := h.follow hp (pcInv_of_leads_eq_false hleads)
  refine ⟨hmoved.toExclusion, hmoved.inProgress, hmoved.asleep, hmoved.cleared, ?_, hmoved.stale, ?_⟩
  · refine (Function.forall_update_iff s.pc fun _ q => ∀ k, q.ticket = some k →
      k.epoch ≤ s.epoch ∧ (k.epoch = s.epoch → k.stop ≤ writeOffset)).mpr ⟨fun k hk => ?_, fun u _ k hk => ?_⟩
    · have hlt := h.stale t ht t k (hp.2.2.2.2.2.2.2 k hk)
      exact ⟨hlt.le, fun heq => absurd heq hlt.ne⟩
    · have hlt := h.stale t ht u k hk
      exact ⟨hlt.le, fun heq => absurd heq hlt.ne⟩
  · exact (Function.forall_update_iff s.pc fun _ q => PcInv _ q).mpr
      ⟨pcInv_of_leads_eq_false hleads, fun u _ => pcInv_of_leads_eq_false (hnoleader u)⟩

theorem Inv.grow {s : State n} (h : Inv s) (bytes : ℕ) : Inv { s with writeOffset := s.writeOffset + bytes } := by
  refine ⟨h.toExclusion, h.inProgress, h.asleep, h.cleared, ?_, h.stale, h.threads⟩
  intro t k hk
  obtain ⟨hle, hstop⟩ := h.tickets t k hk
  exact ⟨hle, fun heq => (hstop heq).trans (Nat.le_add_right _ _)⟩

theorem Inv.acquire {s : State n} (h : Inv s) {t : Fin n} (hfree : s.LockFree (s.pc t)) : Inv (s.acquire t) := by
  unfold State.acquire
  split
  case h_1 hq =>
    rw [hq] at hfree
    refine h.move (h.toExclusion.move ?_ (fun _ => hfree) ?_ ?_ ?_) ?_ ?_ ?_ ?_ ?_ trivial <;> simp [hq]
  case h_2 hq =>
    rw [hq] at hfree
    refine h.move (h.toExclusion.move (fun _ => .inr hfree) ?_ ?_ ?_ ?_) ?_ ?_ ?_ ?_ ?_ trivial <;> simp [hq]
  case h_3 hq =>
    rw [hq] at hfree
    refine h.move (h.toExclusion.move (fun _ => .inr hfree) ?_ ?_ ?_ ?_) ?_ ?_ ?_ ?_ ?_ trivial <;> simp [hq]
  case h_4 hq =>
    rw [hq] at hfree
    refine h.move (h.toExclusion.move ?_ ?_ (fun _ => .inr hfree) ?_ ?_) ?_ ?_ ?_ ?_ ?_ trivial <;> simp [hq]
  case h_5 k hq =>
    rw [hq] at hfree
    split_ifs with hflag
    · refine h.move (h.toExclusion.move ?_ ?_ ?_ ?_ ?_) ?_ (fun _ => hflag) ?_ (fun _ hk => .inl (hq ▸ hk))
        ?_ trivial <;> simp [hq]
    · have hmoved : Inv (s.move t (.clearMu k)) := by
        refine h.move (h.toExclusion.move ?_ ?_ ?_ (fun _ => .inr hfree) ?_) ?_ ?_
          (fun _ => Bool.eq_false_iff.mpr hflag) (fun _ hk => .inl (hq ▸ hk)) ?_ trivial <;> simp [hq]
      exact ⟨hmoved.toExclusion, hmoved.inProgress, hmoved.asleep, hmoved.cleared, hmoved.tickets, hmoved.stale,
        hmoved.threads⟩
  case h_6 hq =>
    rw [hq] at hfree
    exact h.bumpEpoch hq hfree
  case h_7 hq =>
    rw [hq] at hfree
    have hnoclear : Nowhere Pc.clears s.pc := fun u =>
      Bool.eq_false_iff.mpr fun hu => absurd ((hfree u).symm.trans (Pc.logHeld_of_clears hu)) Bool.false_ne_true
    refine h.move (h.toExclusion.move ?_ ?_ ?_ ?_ ?_) ?_ ?_ ?_
      (fun k hk => .inr ⟨(Option.some.inj hk).symm, hnoclear⟩) ?_ trivial <;> simp [hq]
  case h_8 k hq =>
    rw [hq] at hfree
    exact h.test hq hfree
  case h_9 k epoch hq =>
    rw [hq] at hfree
    have hpc := h.threads t
    rw [hq] at hpc
    refine h.move (h.toExclusion.move ?_ ?_ (fun _ => .inr hfree) ?_ ?_) ?_ ?_ ?_ ?_ ?_ hpc <;> simp [hq]
  case h_10 k epoch target hq =>
    have hpc := h.threads t
    rw [hq] at hpc
    obtain ⟨durableEnd, heq⟩ := settle_eq (t := t) hpc
    rw [heq]
    exact h.unlead (by simp [hq]) durableEnd
  case h_11 => exact h

theorem Inv.release {s : State n} (h : Inv s) (durable : Bool) {t : Fin n} {k : Option Ticket}
    (hp : ∀ k', k = some k' → (Pc.waiting k').Follows (s.pc t)) (hidle : Pc.idle.Follows (s.pc t)) :
    Inv (s.release durable t k) := by
  unfold State.release
  split
  case h_1 k => exact h.follow (hp k rfl) trivial
  case h_2 => exact h.follow hidle trivial

theorem Inv.finish {s : State n} (h : Inv s) (durable : Bool) {t : Fin n} {result : Result}
    (hends : (s.pc t).ends result = true) : Inv (s.finish durable t result) := by
  have hpc := h.threads t
  unfold State.finish
  split
  case h_1 hq => exact h.follow (by simp [Pc.Follows, hq]) trivial
  case h_2 bytes hq =>
    have hheld : (s.pc t).logHeld = true := by simp [hq]
    have hnoclear : Nowhere Pc.clears s.pc := fun u => Bool.eq_false_iff.mpr fun hu => by
      have hut := h.log u t (Pc.logHeld_of_clears hu) hheld
      rw [hut, hq] at hu
      cases hu
    refine (h.grow bytes).move (h.toExclusion.move ?_ ?_ ?_ ?_ ?_) ?_ ?_ ?_
      (fun k hk => .inr ⟨(Option.some.inj hk).symm, hnoclear⟩) ?_ trivial <;> simp [hq]
  case h_3 bytes hq => exact (h.grow bytes).follow (by simp [Pc.Follows, hq]) trivial
  case h_4 hq => exact h.release durable (by simp [Pc.Follows, hq]) (by simp [Pc.Follows, hq])
  case h_5 hq => exact h.follow (by simp [Pc.Follows, hq]) trivial
  case h_6 hq => exact h.follow (by simp [Pc.Follows, hq]) trivial
  case h_7 k result hq =>
    have ht : (s.pc t).clears = true := by simp [hq]
    unfold State.clear
    split
    · exact h.empty ht (by simp [Pc.Follows, hq]) none s.writeOffset s.opened
    · exact h.empty ht (by simp [Pc.Follows, hq]) none 0 _
    · exact h.empty ht (by simp [Pc.Follows, hq]) (some s.opened) 0 _
  case h_8 hq => exact h.release durable (by simp [Pc.Follows, hq]) (by simp [Pc.Follows, hq])
  case h_9 k epoch hq =>
    rw [hq] at hpc
    obtain ⟨hk, hepoch⟩ := hpc
    have hstop := (h.tickets t k (by simp [hq])).2 (hk.trans hepoch)
    exact h.follow (by simp [Pc.Follows, hq]) ⟨hk, hepoch, hstop, rfl⟩
  case h_10 result k epoch hq hne =>
    rw [hq] at hpc
    exact h.follow (by simp [Pc.Follows, hq]) hpc
  case h_11 hq =>
    rw [hq] at hpc
    exact h.follow (by simp [Pc.Follows, hq]) ⟨hpc.1, hpc.2.1, hpc.2.2.1⟩
  case h_12 result k epoch target fd hq hne =>
    rw [hq] at hpc
    exact h.follow (by simp [Pc.Follows, hq]) ⟨hpc.1, hpc.2.1⟩
  case h_13 =>
    refine h.follow (Pc.idle_follows ?_) trivial
    cases hq : s.pc t <;> simp_all [Pc.ends]

theorem Inv.next {s : State n} (h : Inv s) (durable : Bool) {e : Event n} (he : Enabled s e) :
    Inv (next durable s e) := by
  cases e with
  | begin t call =>
    have hq : s.pc t = .idle := he
    refine h.follow ?_ (by cases call <;> trivial)
    cases call <;> simp [Pc.Follows, Call.start, hq]
  | acquire t => exact h.acquire he
  | finish t result => exact h.finish durable he
  | wakeUp t => exact h.follow (Pc.woken_follows he) (pcInv_woken (h.threads t))

/-! ### No deadlock -/

/-- No thread can go on by itself. -/
def Stuck (s : State n) : Prop := ∀ e : Event n, e.outside = false → ¬Enabled s e

theorem Pc.ends_of_logHeld {p : Pc} (h : p.logHeld = true) : p.ends .done = true := by
  cases p with
  | appending _ | clearing _ | draining _ _ => rfl
  | _ => cases h

theorem Pc.ends_of_shared {p : Pc} (h : p.shared = true) : p.ends .done = true := by
  cases p with
  | reading => rfl
  | _ => cases h

/-- Who holds `sync_mu_` works, or wants the free lock of the log. -/
theorem State.goes_of_syncHeld {s : State n} (hlog : Nowhere Pc.logHeld s.pc) {p : Pc} (h : p.syncHeld = true) :
    p.ends .done = true ∨ s.LockFree p := by
  cases p with
  | clearMu k => exact .inr hlog
  | clearing k => exact .inl rfl
  | _ => cases h

theorem State.goes_of_leads {s : State n} (hlog : Nowhere Pc.logHeld s.pc) (hsync : Nowhere Pc.syncHeld s.pc) {p : Pc}
    (h : p.leads = true) : p.ends .done = true ∨ s.LockFree p := by
  cases p with
  | leading k epoch => exact .inr hlog
  | draining k epoch | syncing k epoch target fd => exact .inl rfl
  | settling k epoch target => exact .inr hsync
  | _ => cases h

theorem State.goes_of_exclusive {s : State n} (hlog : Nowhere Pc.logHeld s.pc) (hsync : Nowhere Pc.syncHeld s.pc)
    {p : Pc} (h : p.exclusive = true) (hawake : p.sleeps = false) : p.ends .done = true ∨ s.LockFree p := by
  cases p with
  | lockLog bytes | clearMu k => exact .inr hlog
  | clearLock k => exact .inr hsync
  | clearAsleep k => cases hawake
  | testEmpty | appending _ | inserting _ | writing _ | clearing _ | compacting _ => exact .inl rfl
  | _ => cases h

/-- Where all locks are free, a thread that is in a call and awake can go on. -/
theorem State.goes_of_free {s : State n} (hlog : Nowhere Pc.logHeld s.pc) (hsync : Nowhere Pc.syncHeld s.pc)
    (hexclusive : Nowhere Pc.exclusive s.pc) (hshared : Nowhere Pc.shared s.pc) {p : Pc} (hp : p ≠ .idle)
    (hawake : p.sleeps = false) : p.ends .done = true ∨ s.LockFree p := by
  cases p with
  | idle => exact absurd rfl hp
  | lockShared => exact .inr hexclusive
  | lockExclusive call => exact .inr ⟨hexclusive, hshared⟩
  | lockLog _ | clearMu _ | syncMu | leading _ _ => exact .inr hlog
  | clearLock _ | waiting _ | settling _ _ _ => exact .inr hsync
  | clearAsleep k | asleep k => cases hawake
  | reading | testEmpty | appending _ | inserting _ | writing _ | clearing _ | compacting _ | draining _ _
  | syncing _ _ _ _ => exact .inl rfl

/-- Locks are taken in one order, and whoever holds the last one works. -/
theorem Inv.idle_of_stuck {s : State n} (h : Inv s) (hstuck : Stuck s) (t : Fin n) : s.pc t = .idle := by
  have hworks : ∀ u, (s.pc u).ends .done ≠ true := fun u hu => hstuck (.finish u .done) rfl hu
  have hgoes : ∀ u, ¬((s.pc u).ends .done = true ∨ s.LockFree (s.pc u)) :=
    fun u hu => hu.elim (hworks u) fun hfree => hstuck (.acquire u) rfl hfree
  have hlog : Nowhere Pc.logHeld s.pc := fun u => Bool.eq_false_iff.mpr fun hu => hworks u (Pc.ends_of_logHeld hu)
  have hsync : Nowhere Pc.syncHeld s.pc := fun u =>
    Bool.eq_false_iff.mpr fun hu => hgoes u (State.goes_of_syncHeld hlog hu)
  have hleads : Nowhere Pc.leads s.pc := fun u =>
    Bool.eq_false_iff.mpr fun hu => hgoes u (State.goes_of_leads hlog hsync hu)
  have hsleeps : Nowhere Pc.sleeps s.pc := fun u => Bool.eq_false_iff.mpr fun hu => by
    obtain ⟨v, hv⟩ := h.inProgress.mp (h.asleep u hu)
    exact absurd ((hleads v).symm.trans hv) Bool.false_ne_true
  have hexclusive : Nowhere Pc.exclusive s.pc := fun u =>
    Bool.eq_false_iff.mpr fun hu => hgoes u (State.goes_of_exclusive hlog hsync hu (hsleeps u))
  have hshared : Nowhere Pc.shared s.pc := fun u => Bool.eq_false_iff.mpr fun hu => hworks u (Pc.ends_of_shared hu)
  by_contra hidle
  exact hgoes t (State.goes_of_free hlog hsync hexclusive hshared hidle (hsleeps t))

theorem stuck_of_idle {s : State n} (h : ∀ t, s.pc t = .idle) : Stuck s := by
  intro e he henabled
  cases e with
  | begin t call => cases he
  | acquire t =>
    simp only [Enabled, h t] at henabled
    exact henabled
  | finish t result =>
    simp only [Enabled, h t] at henabled
    cases henabled
  | wakeUp t => cases he

/-! ### Every run of steps ends -/

/-- How many steps a thread may still take, with what it may make others do. -/
def weight (n : ℕ) : Pc → ℕ
  | .idle => 0
  | .reading => 1
  | .lockShared => 2
  | .settling _ _ _ => 2 * n + 1
  | .syncing _ _ _ _ => 2 * n + 2
  | .draining _ _ => 2 * n + 3
  | .leading _ _ => 2 * n + 4
  | .asleep _ => 2 * n + 3
  | .waiting _ => 2 * n + 5
  | .syncMu => 2 * n + 6
  | .compacting _ => 2 * n + 6
  | .clearing _ => 2 * n + 7
  | .clearMu _ => 2 * n + 8
  | .clearAsleep _ => 2 * n + 7
  | .clearLock _ => 2 * n + 9
  | .writing _ => 2 * n + 10
  | .inserting _ => 2 * n + 11
  | .testEmpty => 2 * n + 11
  | .appending _ => 2 * n + 12
  | .lockLog _ => 2 * n + 13
  | .lockExclusive _ => 2 * n + 14

def State.measure (s : State n) : ℕ := total (weight n) s.pc

theorem measure_initial (size : ℕ) : (initial n size).measure = 0 := by
  rw [State.measure, total]
  exact Finset.sum_eq_zero fun _ _ => rfl

theorem measure_move (s : State n) (t : Fin n) (p : Pc) :
    (s.move t p).measure + weight n (s.pc t) = s.measure + weight n p := total_update t p

theorem measure_move_lt {s : State n} {t : Fin n} {p : Pc} (h : weight n p < weight n (s.pc t)) :
    (s.move t p).measure + 1 ≤ s.measure := by
  have hmove := measure_move s t p
  omega

theorem weight_woken_le (p : Pc) : weight n p.woken ≤ weight n p + 2 := by
  cases p <;> simp [weight]

theorem measure_notifyAll_le (s : State n) : s.notifyAll.measure ≤ s.measure + 2 * n := by
  have hle : s.notifyAll.measure ≤ s.measure + 2 * Fintype.card (Fin n) := total_map_le weight_woken_le
  rwa [Fintype.card_fin] at hle

theorem measure_test_lt {s : State n} {t : Fin n} {k : Ticket} (hq : s.pc t = .waiting k) :
    (s.test t k).measure + 1 ≤ s.measure := by
  unfold State.test
  split_ifs
  · exact measure_move_lt (by simp [hq, weight])
  · exact measure_move_lt (by simp [hq, weight])
  · exact measure_move_lt (by simp [hq, weight])
  · exact measure_move_lt (s := { s with syncInProgress := true }) (by simp [hq, weight])

theorem measure_settle_lt {s : State n} {t : Fin n} {k : Ticket} {epoch : ℕ} {target : Option ℕ} (h : Inv s)
    (hq : s.pc t = .settling k epoch target) : (s.settle t k epoch target).measure + 1 ≤ s.measure := by
  have hpc := h.threads t
  rw [hq] at hpc
  obtain ⟨durableEnd, heq⟩ := settle_eq (t := t) hpc
  -- The notification costs less than the sync that ends was worth.
  have hwake := measure_notifyAll_le { s with syncInProgress := false, durableEnd := durableEnd }
  have hmove := measure_move ({ s with syncInProgress := false, durableEnd := durableEnd } : State n).notifyAll t .idle
  have hself : (({ s with syncInProgress := false, durableEnd := durableEnd } : State n).notifyAll.pc t) =
      .settling k epoch target := congrArg Pc.woken hq
  have hsame : ({ s with syncInProgress := false, durableEnd := durableEnd } : State n).measure = s.measure := rfl
  rw [hself] at hmove
  simp only [weight] at hmove
  rw [heq]
  omega

theorem measure_acquire_lt {s : State n} (h : Inv s) {t : Fin n} (hfree : s.LockFree (s.pc t)) :
    (s.acquire t).measure + 1 ≤ s.measure := by
  unfold State.acquire
  split
  case h_5 k hq =>
    split_ifs
    · exact measure_move_lt (by simp [hq, weight])
    · exact measure_move_lt (s := { s with durableEnd := 0 }) (by simp [hq, weight])
  case h_6 k hq =>
    have hsync : (s.pc t).syncHeld = true := by simp [hq]
    have hquiet : ({ s with epoch := s.epoch + 1 } : State n).notifyAll = { s with epoch := s.epoch + 1 } :=
      State.notifyAll_eq_self (h.nowhere_sleeps hsync)
    rw [hquiet]
    exact measure_move_lt (s := { s with epoch := s.epoch + 1 }) (by simp [hq, weight])
  case h_8 hq => exact measure_test_lt hq
  case h_10 hq => exact measure_settle_lt h hq
  case h_11 => cases hq : s.pc t <;> simp_all [State.LockFree]
  all_goals exact measure_move_lt (by simp [*, weight])

theorem measure_release_lt (s : State n) (durable : Bool) {t : Fin n} {k : Option Ticket}
    (h : 2 * n + 5 < weight n (s.pc t)) : (s.release durable t k).measure + 1 ≤ s.measure := by
  unfold State.release
  split
  · exact measure_move_lt h
  · exact measure_move_lt (Nat.zero_lt_of_lt h)

theorem measure_finish_lt {s : State n} (durable : Bool) {t : Fin n} {result : Result}
    (hends : (s.pc t).ends result = true) : (s.finish durable t result).measure + 1 ≤ s.measure := by
  unfold State.finish
  split
  case h_2 bytes hq => exact measure_move_lt (s := { s with writeOffset := _ }) (by simp [hq, weight])
  case h_3 bytes hq => exact measure_move_lt (s := { s with writeOffset := _ }) (by simp [hq, weight])
  case h_4 hq => exact measure_release_lt s durable (by simp [hq, weight])
  case h_7 k result hq =>
    unfold State.clear
    split
    · exact measure_move_lt (s := { s with fd := _ }) (by simp [hq, weight])
    · exact measure_move_lt (s := { s with fd := _, writeOffset := _, opened := _ }) (by simp [hq, weight])
    · exact measure_move_lt (s := { s with fd := _, writeOffset := _, opened := _ }) (by simp [hq, weight])
  case h_8 hq => exact measure_release_lt s durable (by simp [hq, weight])
  case h_13 =>
    refine measure_move_lt ?_
    cases hq : s.pc t <;> simp_all [Pc.ends, weight]
  all_goals exact measure_move_lt (by simp [*, weight])

theorem measure_next {s : State n} (h : Inv s) (durable : Bool) {e : Event n} (he : Enabled s e) :
    (next durable s e).measure + 1 ≤ s.measure + if e.outside then 2 * n + 15 else 0 := by
  cases e with
  | begin t call =>
    have hmove := measure_move s t call.start
    have hq : s.pc t = .idle := he
    have hstart : weight n call.start ≤ 2 * n + 14 := by cases call <;> simp [Call.start, weight]
    have hidle : weight n (s.pc t) = 0 := by rw [hq, weight]
    simp only [next, Event.outside, ↓reduceIte]
    omega
  | acquire t =>
    have hlt := measure_acquire_lt h he
    simpa [Event.outside, next] using hlt
  | finish t result =>
    have hlt := measure_finish_lt durable he
    simpa [Event.outside, next] using hlt
  | wakeUp t =>
    have hmove := measure_move s t (s.pc t).woken
    have hwoken := weight_woken_le (n := n) (s.pc t)
    simp only [next, Event.outside, ↓reduceIte]
    omega

/-! ### Runs -/

variable {durable : Bool} {size : ℕ} {es : List (Event n)} {s : State n}

theorem inv_of_run (h : Run (system n durable) (fun _ _ => True) (initial n size) es s) : Inv s :=
  h.invariant Inv (fun _ _ hs _ he => hs.next durable he) (inv_initial size)

/-- However the threads are run, there are at most `2 * n + 15` steps for a call or a wake-up for no
reason, and the threads are stuck only when every call has returned. -/
theorem calls_return (h : Run (system n durable) (fun _ _ => True) (initial n size) es s) :
    es.length ≤ (2 * n + 15) * es.countP Event.outside ∧ (Stuck s ↔ ∀ t, s.pc t = .idle) := by
  have hlength : s.measure + es.length ≤ (initial n size).measure + (2 * n + 15) * es.countP Event.outside :=
    h.length_le (fun s _ (hs : Inv s) _ he => ⟨hs.next durable he, measure_next hs durable he⟩) (inv_initial size)
  rw [measure_initial, Nat.zero_add] at hlength
  exact ⟨(Nat.le_add_left _ _).trans hlength, (inv_of_run h).idle_of_stuck, stuck_of_idle⟩

/-- Two durable puts. The second one fills the memtable while the first one leads a group commit,
so its flush sleeps in `clear` until the `fdatasync` is over. -/
def twoPuts : List (Event 2) :=
  [.begin 0 (.put 512), .acquire 0, .acquire 0, .finish 0 .done, .begin 1 (.put 512), .finish 0 .done, .acquire 0,
    .acquire 1, .acquire 0, .finish 0 .done, .acquire 1, .finish 1 .done, .finish 1 .full, .finish 1 .done,
    .acquire 1, .finish 0 .done, .acquire 0, .acquire 1, .acquire 1, .finish 1 .done, .finish 1 .done, .acquire 1]

theorem calls_return_twoPuts :
    twoPuts.length ≤ 19 * 2 ∧ Stuck (twoPuts.foldl (system 2 true).next (initial 2 0)) := by
  have hrun : Run (system 2 true) (fun _ _ => True) (initial 2 0) twoPuts _ := Allowed.run (by decide +kernel)
  exact ⟨(calls_return hrun).1, (calls_return hrun).2.mpr (by decide +kernel)⟩

/-- While a thread is in `fdatasync` its descriptor is the one of the open log: nobody else leads
and no clear has got past its wait. -/
theorem leader_keeps_log (h : Run (system n durable) (fun _ _ => True) (initial n size) es s) {t : Fin n} {k : Ticket}
    {epoch target : ℕ} {fd : Option ℕ} (ht : s.pc t = .syncing k epoch target fd) :
    fd = s.fd ∧ k.epoch = s.epoch ∧ k.stop ≤ target ∧
      (∀ u, (s.pc u).leads = true → u = t) ∧ Nowhere Pc.syncHeld s.pc := by
  have hinv := inv_of_run h
  have hpc := hinv.threads t
  rw [ht] at hpc
  obtain ⟨hk, hepoch, hstop, hfd⟩ := hpc
  have hleads : (s.pc t).leads = true := by rw [ht, Pc.leads]
  refine ⟨hfd, hk.trans hepoch, hstop, fun u hu => hinv.leader u t hu hleads, fun u => ?_⟩
  rw [Bool.eq_false_iff]
  exact fun hu => absurd ((hinv.cleared u hu).symm.trans (hinv.inProgress.mpr ⟨t, hleads⟩)) Bool.false_ne_true

theorem leader_keeps_log_twoPuts :
    let s := (twoPuts.take 15).foldl (system 2 true).next (initial 2 0)
    some 0 = s.fd ∧ 0 = s.epoch ∧ 512 ≤ 512 ∧ (∀ u, (s.pc u).leads = true → u = 0) ∧ Nowhere Pc.syncHeld s.pc := by
  have hrun : Run (system 2 true) (fun _ _ => True) (initial 2 0) (twoPuts.take 15) _ :=
    Allowed.run (by decide +kernel)
  have hsyncing : ((twoPuts.take 15).foldl (system 2 true).next (initial 2 0)).pc 0 =
      .syncing ⟨0, 512⟩ 0 512 (some 0) := by decide +kernel
  exact leader_keeps_log hrun hsyncing

end System

end LsmTree.Blocking
