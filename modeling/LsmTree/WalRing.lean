import LsmTree.Transition
import LsmTree.WalFormat
import Mathlib.Logic.Function.Basic

/-!
# The submission ring and the group commit of the log

Threads append records to one `WAL` and wait for them to become durable. Appending
and draining run under `mu_`, the rest of `waitDurable` does not. The kernel takes the
queued requests when a submit succeeds and completes each of them once, at any later
time, in any order and with any result. Every iteration of the loops of `reap` and
`drain` is a step of its own, so completions may arrive between any two of them.

The last five components of a state are not in the source. They record what has
happened, for the statements: the records handed to the kernel by their own append,
the records whose write completed in full, those for which this was so before the
start of an `fdatasync` that succeeded, the tickets returned, and the tickets for
which `waitDurable` returned normally while their epoch was current.
-/

namespace LsmTree.WalRing
open Wal Transition

abbrev ThreadId := ℕ

/-- Slots of the submission queue, `io_uring_queue_init(8, ...)`. -/
def ringEntries : ℕ := 8

def maxWriteAttempts : ℕ := 6

/-- The completion result `-ECANCELED`. -/
def canceled : ℤ := -125

structure PendingWrite where
  buf : ℕ
  bytes : ℕ
  offset : ℕ
  attempts : ℕ
  deriving DecidableEq, Repr

structure Sqe where
  buf : ℕ
  bytes : ℕ
  offset : ℕ
  data : Option PendingWrite
  deriving DecidableEq, Repr

structure Cqe where
  data : Option PendingWrite
  res : ℤ
  deriving DecidableEq, Repr

/-- What `io_uring_submit` does: hand over everything queued, or fail and leave it queued. -/
inductive Submit where
  | accepted
  | refused (errno : ℕ)
  deriving DecidableEq, Repr

/-- What `failure_` reports. -/
inductive Failure where
  | canceled (attempts offset : ℕ)
  | writeFailed (res : ℤ)
  | shortWrite (res : ℤ) (bytes : ℕ)
  | resubmitFailed (errno offset : ℕ)
  | drainFailed (errno : ℕ)
  deriving DecidableEq, Repr

/-- The part of the log a record occupies. -/
structure Region where
  offset : ℕ
  bytes : ℕ
  deriving DecidableEq, Repr

def Region.stop (r : Region) : ℕ := r.offset + r.bytes

structure Ticket where
  epoch : ℕ
  stop : ℕ
  deriving DecidableEq, Repr

/-- Where a thread stands. `retry` and `reaping` are inside `writeEntry`, in the `reap`
after the submit that made room and after its own submit. The others are inside
`waitDurable`: at the head of its loop, chosen as leader, in the `reap` of `drain`, in
the wait of `drain`, in `fdatasync`, and after it. `aborting` is a leader with an error. -/
inductive Pc where
  | idle
  | retry (e : Entry)
  | reaping (r : Region)
  | waiting (t : Ticket)
  | leading (t : Ticket) (epoch : ℕ)
  | draining (t : Ticket) (epoch : ℕ)
  | parked (t : Ticket) (epoch : ℕ)
  | syncing (t : Ticket) (epoch target : ℕ) (before : List Region)
  | synced (t : Ticket) (epoch target : ℕ)
  | aborting
  deriving DecidableEq, Repr

/-- A `WAL` object, its ring, the kernel's side of the ring and the threads. -/
structure State where
  failure : Option Failure
  pendingCqes : ℕ
  writeOffset : ℕ
  epoch : ℕ
  durableEnd : ℕ
  syncInProgress : Bool
  mu : Option ThreadId
  sq : List Sqe
  inFlight : List Sqe
  cq : List Cqe
  nextBuf : ℕ
  freed : List ℕ
  pc : ThreadId → Pc
  handed : List Region
  completed : List Region
  stable : List Region
  tickets : List (Region × Ticket)
  acks : List Ticket

/-- A `WAL` just opened on a log of `size` bytes. -/
def initial (size : ℕ) : State where
  failure := none
  pendingCqes := 0
  writeOffset := size
  epoch := 0
  durableEnd := 0
  syncInProgress := false
  mu := none
  sq := []
  inFlight := []
  cq := []
  nextBuf := 0
  freed := []
  pc := fun _ => .idle
  handed := []
  completed := []
  stable := []
  tickets := []
  acks := []

inductive Event where
  | append (t : ThreadId) (e : Entry) (submit : Submit)
  | reap (t : ThreadId) (submit : Submit)
  | reaped (t : ThreadId) (submit : Submit)
  | wake (t : ThreadId)
  | waitFailed (t : ThreadId) (errno : ℕ)
  | waitDurable (t : ThreadId) (ticket : Ticket)
  | sync (t : ThreadId)
  | check (t : ThreadId)
  | lead (t : ThreadId)
  | fdatasync (t : ThreadId) (ok : Bool)
  | settle (t : ThreadId)
  | complete (i : ℕ) (res : ℤ)

/-! ### The parts of the source -/

def State.setPc (s : State) (t : ThreadId) (p : Pc) : State :=
  { s with pc := Function.update s.pc t p }

def State.recordFailure (s : State) (f : Failure) : State :=
  { s with failure := s.failure.or (some f) }

def State.free (s : State) (buf : ℕ) : State := { s with freed := buf :: s.freed }

/-- `io_uring_cqe_seen` and the guarded decrement of `pending_cqes_`. -/
def State.seen (s : State) : State := { s with pendingCqes := s.pendingCqes - 1 }

/-- `io_uring_prep_write` and `io_uring_sqe_set_data`. -/
def PendingWrite.prepare (p : PendingWrite) : Sqe := ⟨p.buf, p.bytes, p.offset, some p⟩

/-- `io_uring_sqe_set_data(sqe, nullptr)`. -/
def Sqe.detach (q : Sqe) : Sqe := { q with data := none }

/-- `WAL::resubmit` with its return value. -/
def resubmit (submit : Submit) (p : PendingWrite) (s : State) : State × ℤ :=
  if ringEntries ≤ s.sq.length then (s, 0)
  else
    let q : PendingWrite := { p with attempts := p.attempts + 1 }
    match submit with
    | .accepted =>
      ({ s with inFlight := s.inFlight ++ (s.sq ++ [q.prepare]), sq := [] }, 1)
    | .refused errno =>
      (({ s with sq := s.sq ++ [q.prepare.detach] } : State).recordFailure
        (.resubmitFailed errno q.offset), -1)

/-- The end of an iteration of `reap` for a write that is final. -/
def State.finalWrite (s : State) (p : PendingWrite) : State := (s.free p.buf).seen

/-- One iteration of the loop of `WAL::reap`, for a completion already taken off the queue. -/
def reapOne (submit : Submit) (c : Cqe) (s : State) : State :=
  match c.data with
  | none => s.seen
  | some p =>
    if c.res = canceled then
      if p.attempts < maxWriteAttempts then
        match resubmit submit p s with
        | (s, 1) => s
        | (s, -1) => s.seen
        | (s, _) => (s.recordFailure (.canceled p.attempts p.offset)).finalWrite p
      else (s.recordFailure (.canceled p.attempts p.offset)).finalWrite p
    else if c.res < 0 then (s.recordFailure (.writeFailed c.res)).finalWrite p
    else if c.res < p.bytes then (s.recordFailure (.shortWrite c.res p.bytes)).finalWrite p
    else s.finalWrite p

/-- The second half of `WAL::writeEntry`: take an offset, prepare the write and submit. -/
def submitOwn (submit : Submit) (t : ThreadId) (e : Entry) (s : State) : State :=
  let r : Region := ⟨s.writeOffset, e.alignedSize⟩
  let p : PendingWrite := ⟨s.nextBuf, r.bytes, r.offset, 1⟩
  match submit with
  | .accepted =>
    { s with
      writeOffset := s.writeOffset + r.bytes
      nextBuf := s.nextBuf + 1
      inFlight := s.inFlight ++ (s.sq ++ [p.prepare])
      sq := []
      pendingCqes := s.pendingCqes + (s.sq.length + 1)
      handed := r :: s.handed
      mu := some t
      pc := Function.update s.pc t (.reaping r) }
  | .refused _ =>
    { s with
      writeOffset := s.writeOffset + r.bytes
      nextBuf := s.nextBuf + 1
      sq := s.sq ++ [p.prepare.detach]
      mu := none
      pc := Function.update s.pc t .idle }

/-- `WAL::writeEntry` up to its first `reap`. A full ring is flushed first. A call that
throws for a recorded failure or an oversize field changes nothing and is no event. -/
def startAppend (submit : Submit) (t : ThreadId) (e : Entry) (s : State) : State :=
  if s.sq.length < ringEntries then submitOwn submit t e s
  else match submit with
    | .refused _ => s
    | .accepted =>
      { s with
        inFlight := s.inFlight ++ s.sq
        sq := []
        pendingCqes := s.pendingCqes + s.sq.length
        mu := some t
        pc := Function.update s.pc t (.retry e) }

/-- The end of `drain` and of the critical section around it in `waitDurable`. -/
def finishDrain (t : ThreadId) (ticket : Ticket) (epoch : ℕ) (s : State) : State :=
  match s.failure with
  | some _ => { s with mu := none, pc := Function.update s.pc t .aborting }
  | none =>
    { s with mu := none, pc := Function.update s.pc t (.syncing ticket epoch s.writeOffset s.completed) }

/-- The completion queue is empty, so the `reap` of thread `t` returns. -/
def afterReap (submit : Submit) (t : ThreadId) (s : State) : State :=
  match s.pc t with
  | .retry e =>
    if s.sq.length < ringEntries then submitOwn submit t e s
    else { s with mu := none, pc := Function.update s.pc t .idle }
  | .reaping r =>
    { s with
      tickets := (r, ⟨s.epoch, s.writeOffset⟩) :: s.tickets
      mu := none
      pc := Function.update s.pc t .idle }
  | .draining ticket epoch =>
    if 0 < s.pendingCqes then s.setPc t (.parked ticket epoch) else finishDrain t ticket epoch s
  | _ => s

/-- One pass through the head of the loop of `waitDurable`. -/
def checkTicket (t : ThreadId) (ticket : Ticket) (s : State) : State :=
  if ticket.epoch ≠ s.epoch then s.setPc t .idle
  else if ticket.stop ≤ s.durableEnd then
    { s with acks := ticket :: s.acks, pc := Function.update s.pc t .idle }
  else if s.syncInProgress then s
  else { s with syncInProgress := true, pc := Function.update s.pc t (.leading ticket s.epoch) }

def settle (t : ThreadId) (s : State) : State :=
  match s.pc t with
  | .synced ticket epoch target =>
    { s with
      syncInProgress := false
      durableEnd := if s.epoch = epoch then max s.durableEnd target else s.durableEnd
      pc := Function.update s.pc t (.waiting ticket) }
  | .aborting => { s with syncInProgress := false, pc := Function.update s.pc t .idle }
  | _ => s

def complete (i : ℕ) (res : ℤ) (s : State) : State :=
  match s.inFlight[i]? with
  | none => s
  | some q =>
    { s with
      inFlight := s.inFlight.eraseIdx i
      cq := s.cq ++ [⟨q.data, res⟩]
      completed := if res = q.bytes then ⟨q.offset, q.bytes⟩ :: s.completed else s.completed }

/-! ### The system -/

def Pc.inReap : Pc → Bool
  | .retry _ | .reaping _ | .draining _ _ => true
  | _ => false

def Enabled (s : State) : Event → Prop
  | .append t e _ => s.pc t = .idle ∧ s.mu = none ∧ s.failure = none ∧ e.Fits
  | .reap t _ => s.mu = some t ∧ (s.pc t).inReap ∧ s.cq ≠ []
  | .reaped t _ => s.mu = some t ∧ (s.pc t).inReap ∧ s.cq = []
  | .wake t => s.mu = some t ∧ s.cq ≠ []
  | .waitFailed t _ => s.mu = some t
  | .waitDurable t _ => s.pc t = .idle
  | .sync t => s.pc t = .idle ∧ s.mu = none
  | .check _ => True
  | .lead _ => s.mu = none
  | .fdatasync _ _ => True
  | .settle _ => True
  | .complete i res => ∃ q ∈ s.inFlight[i]?, res ≤ q.bytes

def next (s : State) : Event → State
  | .append t e submit => startAppend submit t e s
  | .reap _ submit =>
    match s.cq with
    | [] => s
    | c :: cq => reapOne submit c { s with cq := cq }
  | .reaped t submit => afterReap submit t s
  | .wake t =>
    match s.pc t with
    | .parked ticket epoch => s.setPc t (.draining ticket epoch)
    | _ => s
  | .waitFailed t errno =>
    match s.pc t with
    | .parked ticket epoch => finishDrain t ticket epoch (s.recordFailure (.drainFailed errno))
    | _ => s
  | .waitDurable t ticket => s.setPc t (.waiting ticket)
  | .sync t => s.setPc t (.waiting ⟨s.epoch, s.writeOffset⟩)
  | .check t =>
    match s.pc t with
    | .waiting ticket => checkTicket t ticket s
    | _ => s
  | .lead t =>
    match s.pc t with
    | .leading ticket epoch => { s with mu := some t, pc := Function.update s.pc t (.draining ticket epoch) }
    | _ => s
  | .fdatasync t ok =>
    match s.pc t with
    | .syncing ticket epoch target before =>
      if ok then
        { s with stable := before ++ s.stable, pc := Function.update s.pc t (.synced ticket epoch target) }
      else s.setPc t .aborting
    | _ => s
  | .settle t => settle t s
  | .complete i res => complete i res s

instance Enabled.decidable (s : State) : (e : Event) → Decidable (Enabled s e)
  | .append _ _ _ => inferInstanceAs (Decidable (_ ∧ _ ∧ _ ∧ _))
  | .reap _ _ => inferInstanceAs (Decidable (_ ∧ _ ∧ _))
  | .reaped _ _ => inferInstanceAs (Decidable (_ ∧ _ ∧ _))
  | .wake _ => inferInstanceAs (Decidable (_ ∧ _))
  | .waitFailed _ _ => inferInstanceAs (Decidable (_ = _))
  | .waitDurable _ _ => inferInstanceAs (Decidable (_ = _))
  | .sync _ => inferInstanceAs (Decidable (_ ∧ _))
  | .check _ => inferInstanceAs (Decidable True)
  | .lead _ => inferInstanceAs (Decidable (_ = _))
  | .fdatasync _ _ => inferInstanceAs (Decidable True)
  | .settle _ => inferInstanceAs (Decidable True)
  | .complete i _ => inferInstanceAs (Decidable (∃ q ∈ s.inFlight[i]?, _))

def system : System State Event := ⟨Enabled, next⟩

instance (s : State) (e : Event) : Decidable (system.Enabled s e) := Enabled.decidable s e

end LsmTree.WalRing
