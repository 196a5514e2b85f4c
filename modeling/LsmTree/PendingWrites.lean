import LsmTree.WalLifecycle

/-!
# Pending writes

`writeEntry` makes a `PendingWrite` for the buffer of a record and puts a pointer to it on
the request. From then on the record is looked after by `reap` alone: a completion is
final, and buffer and `PendingWrite` are freed, or it is a cancellation and the write is
submitted once more. Two things take the pointer off a request again, both after a submit
that has failed: the buffer is then retained, since the request may still be queued.

The ring is followed here request by request, with pointers to the `PendingWrite`s where
`WalRing` has copies, with submits that take only some of what is queued, and with the
failure points inside `reap` and at the end of `writeEntry`. Everything in this file happens
under `mu_`, so one call is inside at a time; only completions arrive in between.
-/

namespace LsmTree.PendingWrites
open Wal WalRing Transition
open WalLifecycle (ClearOutcome)

/-! ### The ring -/

/-- A prepared write. Its length is the 32-bit number that `io_uring_prep_write` takes, its user data
the name of a `PendingWrite`. -/
structure Sqe where
  addr : ℕ
  len : ℕ
  offset : ℕ
  data : Option ℕ
  deriving DecidableEq, Repr

/-- A completion and the request it is of. -/
structure Cqe where
  sqe : Sqe
  res : ℤ
  deriving DecidableEq, Repr

/-- What `io_uring_submit` does: the kernel takes the first requests of the queue, and their number is
returned or an error. -/
inductive Submit where
  | returned (taken : ℕ)
  | failed (taken errno : ℕ)
  deriving DecidableEq, Repr

def Submit.taken : Submit → ℕ
  | .returned n => n
  | .failed n _ => n

/-- The last failure point of `reap` that fires on a completion. -/
inductive Fault where
  | none | cqeError | shortWrite | cqeCancel
  deriving DecidableEq, Repr

def toInt32 (n : ℕ) : ℤ := Int.bmod n (2 ^ 32)

/-- `res`, behind the failure points. -/
def Fault.observed (fault : Fault) (res : ℤ) (bytes : ℕ) : ℤ :=
  match fault with
  | .none => res
  | .cqeError => -5
  | .shortWrite => toInt32 (bytes / 2)
  | .cqeCancel => canceled

/-- The calls that drain the ring: the leader of a group commit, `clear` and the destructor. -/
inductive Drainer where
  | leader | clear | destroy
  deriving DecidableEq, Repr

/-- Where the call that holds `mu_` stands: in `writeEntry`, in the `reap` that makes room or in the
`reap` behind the submit, or in `drain`, in its `reap` or in its wait, or behind it. -/
inductive Phase where
  | idle
  | room (e : Entry) (buf : ℕ)
  | reaping (ptr : ℕ)
  | draining (d : Drainer)
  | parked (d : Drainer)
  | drained (d : Drainer)
  | gone
  deriving DecidableEq, Repr

/-- The part of a `WAL` that `mu_` guards, its ring and its heap. Buffers are numbered as they are
allocated, and the `PendingWrite` of a buffer has its number. What `delete` is called on stays in
`heap`, for the statements.

`lost` and the last three components are not in the source: the requests of rings that have been
exited, the requests the kernel has taken, the result of the last completion of each write, and the
writes of the current log whose append has returned. -/
structure State where
  heap : ℕ → Option PendingWrite
  deleted : List ℕ
  nextBuf : ℕ
  freed : List ℕ
  sq : List Sqe
  inFlight : List Sqe
  cq : List Cqe
  ringReady : Bool
  failure : Option Failure
  pendingCqes : ℕ
  writeOffset : ℕ
  phase : Phase
  lost : List Sqe
  handed : List Sqe
  result : ℕ → Option ℤ
  returned : List ℕ

def initial (size : ℕ) : State where
  heap := fun _ => none
  deleted := []
  nextBuf := 0
  freed := []
  sq := []
  inFlight := []
  cq := []
  ringReady := true
  failure := none
  pendingCqes := 0
  writeOffset := size
  phase := .idle
  lost := []
  handed := []
  result := fun _ => none
  returned := []

inductive Event where
  | append (e : Entry) (submit : Submit)
  | reap (fault : Fault) (submit : Submit)
  | reaped (submit : Submit) (throws : Bool)
  | drain (d : Drainer)
  | wake
  | waitFailed (errno : ℕ)
  | clearEnd (outcome : ClearOutcome)
  | destroyEnd
  | complete (i : ℕ) (res : ℤ)

/-! ### The parts of the source -/

namespace State

def recordFailure (s : State) (f : Failure) : State := { s with failure := s.failure.or (some f) }

def free (s : State) (buf : ℕ) : State := { s with freed := buf :: s.freed }

def delete (s : State) (ptr : ℕ) : State := { s with deleted := ptr :: s.deleted }

/-- `posix_memalign`. -/
def alloc (s : State) : State := { s with nextBuf := s.nextBuf + 1 }

def setPhase (s : State) (phase : Phase) : State := { s with phase := phase }

def addPending (s : State) (n : ℕ) : State := { s with pendingCqes := s.pendingCqes + n }

/-- `io_uring_cqe_seen` and the guarded decrement of `pending_cqes_`. -/
def seen (s : State) : State := { s with pendingCqes := s.pendingCqes - 1 }

/-- `io_uring_get_sqe`, `io_uring_prep_write` and `io_uring_sqe_set_data`, on a queue with a free slot;
the `PendingWrite` is new or has one more attempt. -/
def prepare (s : State) (ptr : ℕ) (p : PendingWrite) : State :=
  { s with
    heap := Function.update s.heap ptr (some p)
    sq := s.sq ++ [⟨p.buf, p.bytes % 2 ^ 32, p.offset, some ptr⟩] }

def submit (s : State) (submit : Submit) : State :=
  { s with
    sq := s.sq.drop submit.taken
    inFlight := s.inFlight ++ s.sq.take submit.taken
    handed := s.sq.take submit.taken ++ s.handed }

/-- `io_uring_sqe_set_data(sqe, nullptr)` on the request of a buffer, if the kernel has not taken it. -/
def detach (s : State) (buf : ℕ) : State :=
  { s with sq := s.sq.map fun q => if q.addr = buf then { q with data := none } else q }

def note (s : State) (buf : ℕ) (res : ℤ) : State := { s with result := Function.update s.result buf (some res) }

def exitRing (s : State) : State :=
  { s with
    sq := []
    inFlight := []
    cq := []
    ringReady := false
    lost := s.sq ++ s.inFlight ++ s.cq.map Cqe.sqe ++ s.lost }

end State

def resubmit (submit : Submit) (ptr : ℕ) (p : PendingWrite) (s : State) : State × ℤ :=
  if ringEntries ≤ s.sq.length then (s, 0)
  else
    let q : PendingWrite := { p with attempts := p.attempts + 1 }
    let t := (s.prepare ptr q).submit submit
    match submit with
    | .returned _ => (t, 1)
    | .failed _ errno => ((t.detach q.buf).recordFailure (.resubmitFailed errno q.offset), -1)

/-- The end of an iteration of `reap` for a write that is final. -/
def State.finalWrite (s : State) (ptr : ℕ) (p : PendingWrite) : State := ((s.free p.buf).delete ptr).seen

/-- `reap` on a completion of the `PendingWrite` `p` with the result `res`. -/
def reapPending (submit : Submit) (ptr : ℕ) (p : PendingWrite) (res : ℤ) (s : State) : State :=
  if res = canceled then
    if p.attempts < maxWriteAttempts then
      match resubmit submit ptr p s with
      | (t, 1) => t
      | (t, -1) => t.seen
      | (t, _) => (t.recordFailure (.canceled p.attempts p.offset)).finalWrite ptr p
    else (s.recordFailure (.canceled p.attempts p.offset)).finalWrite ptr p
  else if res < 0 then (s.recordFailure (.writeFailed res)).finalWrite ptr p
  else if res < p.bytes then (s.recordFailure (.shortWrite res p.bytes)).finalWrite ptr p
  else s.finalWrite ptr p

/-- One iteration of the loop of `WAL::reap`, for a completion already taken off the queue. -/
def reapOne (fault : Fault) (submit : Submit) (c : Cqe) (s : State) : State :=
  match c.sqe.data with
  | none => (s.note c.sqe.addr c.res).seen
  | some ptr =>
    match s.heap ptr with
    | none => s
    | some p =>
      reapPending submit ptr p (fault.observed c.res p.bytes) (s.note c.sqe.addr (fault.observed c.res p.bytes))

/-- The second half of `WAL::writeEntry`, for the buffer `buf`. -/
def submitOwn (submit : Submit) (e : Entry) (buf : ℕ) (s : State) : State :=
  let p : PendingWrite := ⟨buf, e.alignedSize, s.writeOffset, 1⟩
  let t := (({ s with writeOffset := s.writeOffset + e.alignedSize } : State).prepare buf p).submit submit
  match submit with
  | .returned n => (t.addPending (min n (s.sq.length + 1))).setPhase (.reaping buf)
  | .failed _ _ => (t.detach buf).setPhase .idle

/-- `WAL::writeEntry` up to its first `reap`. A call that throws for an oversize field, at
`wal.before_append` or for want of memory changes nothing and is no event. -/
def startAppend (submit : Submit) (e : Entry) (s : State) : State :=
  match s.failure with
  | some _ => s
  | none =>
    if s.sq.length < ringEntries then submitOwn submit e s.nextBuf s.alloc
    else
      match submit with
      | .failed _ _ => (s.alloc.submit submit).free s.nextBuf
      | .returned n => ((s.alloc.submit submit).addPending (min n s.sq.length)).setPhase (.room e s.nextBuf)

/-- The end of `drain`. The leader gives up `mu_`. -/
def State.endDrain (s : State) : Drainer → State
  | .leader => s.setPhase .idle
  | d => s.setPhase (.drained d)

/-- The completion queue is empty, so `reap` returns. -/
def afterReap (submit : Submit) (throws : Bool) (s : State) : State :=
  match s.phase with
  | .room e buf =>
    if s.sq.length < ringEntries then submitOwn submit e buf s else (s.setPhase .idle).free buf
  | .reaping ptr =>
    { s with
      returned := if throws then s.returned else ptr :: s.returned
      phase := .idle }
  | .draining d => if 0 < s.pendingCqes ∧ s.ringReady = true then s.setPhase (.parked d) else s.endDrain d
  | _ => s

def State.clearEnd (s : State) : ClearOutcome → State
  | .done =>
    { s.exitRing with
      ringReady := true
      writeOffset := 0
      pendingCqes := 0
      failure := none
      returned := []
      phase := .idle }
  | .removeFailed | .openFailed => s.exitRing.setPhase .idle
  | .initFailed => { s.exitRing with writeOffset := 0, phase := .idle }

def complete (i : ℕ) (res : ℤ) (s : State) : State :=
  match s.inFlight[i]? with
  | none => s
  | some q => { s with inFlight := s.inFlight.eraseIdx i, cq := s.cq ++ [⟨q, res⟩] }

/-! ### The system -/

def Phase.inReap : Phase → Bool
  | .room _ _ | .reaping _ | .draining _ => true
  | _ => false

/-- A write completes with at most its length. A ring that has been exited is not used any more. -/
def Enabled (s : State) : Event → Prop
  | .append e _ => s.phase = .idle ∧ e.Fits ∧ (s.failure = none → s.ringReady = true)
  | .reap _ _ => s.phase.inReap = true ∧ s.cq ≠ []
  | .reaped _ _ => s.phase.inReap = true ∧ s.cq = []
  | .drain _ => s.phase = .idle ∧ s.ringReady = true
  | .wake => s.cq ≠ []
  | .waitFailed _ => True
  | .clearEnd _ => s.phase = .drained .clear
  | .destroyEnd => s.phase = .drained .destroy
  | .complete i res => ∃ q ∈ s.inFlight[i]?, res ≤ q.len

def next (s : State) : Event → State
  | .append e submit => startAppend submit e s
  | .reap fault submit =>
    match s.cq with
    | [] => s
    | c :: cq => reapOne fault submit c { s with cq := cq }
  | .reaped submit throws => afterReap submit throws s
  | .drain d => s.setPhase (.draining d)
  | .wake =>
    match s.phase with
    | .parked d => s.setPhase (.draining d)
    | _ => s
  | .waitFailed errno =>
    match s.phase with
    | .parked d => (s.recordFailure (.drainFailed errno)).endDrain d
    | _ => s
  | .clearEnd outcome => s.clearEnd outcome
  | .destroyEnd => s.exitRing.setPhase .gone
  | .complete i res => complete i res s

def system : System State Event := ⟨Enabled, next⟩

instance Enabled.decidable (s : State) : (e : Event) → Decidable (Enabled s e)
  | .append _ _ => inferInstanceAs (Decidable (_ ∧ _ ∧ _))
  | .reap _ _ | .reaped _ _ | .drain _ => inferInstanceAs (Decidable (_ ∧ _))
  | .wake => inferInstanceAs (Decidable (_ ≠ _))
  | .waitFailed _ => isTrue trivial
  | .clearEnd _ | .destroyEnd => inferInstanceAs (Decidable (_ = _))
  | .complete i _ => inferInstanceAs (Decidable (∃ q ∈ s.inFlight[i]?, _))

instance (s : State) (e : Event) : Decidable (system.Enabled s e) := Enabled.decidable s e

end LsmTree.PendingWrites
