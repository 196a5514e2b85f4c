import LsmTree.StoreInvariant
import LsmTree.WalRing

/-!
# Threads, group commit and crashes

Any number of threads call `put`, `del`, `flush` and `sync`. A write appends its record
and goes on under the engine lock; in durable mode it then waits for the log with its
ticket. The first to wait drains the records in flight and raises the durable end for
all. A flush waits for that to finish, takes a new epoch, and clears the log. Records
land in any order. A crash can happen between any two events; it keeps the files and
ends everything else, and the engine opened next starts on what it finds.

A call that throws for an oversize key or value changes nothing and is no event, and
neither is a `flush` with an empty memtable. A clean shutdown is a flush, the landing of
the records in flight, and a crash. The last three components of a state record the
calls that returned, and the lives of the processes before this one.
-/

namespace LsmTree.CrashMachine
open LittleEndian LayeredMap Merge Transition
open WalRing (Ticket ThreadId)

/-- `WAL::Durability`. -/
inductive Durability where
  | async | durable
  deriving DecidableEq

/-- A call that waits: the write of an operation, or a `sync` after a number of them. -/
inductive Caller where
  | write (index : ℕ)
  | sync (count : ℕ)
  deriving DecidableEq

/-- How many operations the ticket of a call covers. -/
def Caller.upto : Caller → ℕ
  | .write i => i + 1
  | .sync n => n

structure Wait where
  ticket : Ticket
  caller : Caller
  deriving DecidableEq

/-- Where a thread stands: outside, in the engine with a write or with a flush, at the head of the
loop of `waitDurable`, chosen as leader, or behind the drain. -/
inductive Pc where
  | idle
  | writing (w : Wait)
  | flushing
  | waiting (w : Wait)
  | leading (w : Wait) (epoch : ℕ)
  | drained (w : Wait) (epoch target : ℕ)
  deriving DecidableEq

/-- What happened between an opening of the engine and the crash after it. -/
structure Life where
  ops : List Op
  acked : List ℕ
  synced : ℕ

def Life.issued (l : Life) : List Issued :=
  l.ops.mapIdx fun i op => ⟨op, i ∈ l.acked, i < l.synced⟩

structure State where
  durability : Durability
  store : Store
  holder : Option ThreadId
  threads : ThreadId → Pc
  epoch : ℕ
  durableEnd : ℕ
  syncInProgress : Bool
  down : Option Failure
  acked : List ℕ
  synced : ℕ
  past : List Life

/-- A process that has just opened an engine. -/
def State.started (durability : Durability) (e : Engine) (past : List Life) : State where
  durability := durability
  store := .opened e
  holder := none
  threads := fun _ => .idle
  epoch := 0
  durableEnd := 0
  syncInProgress := false
  down := none
  acked := []
  synced := 0
  past := past

def initial (durability : Durability) (maxBytes : ℕ) : State :=
  .started durability (.fresh maxBytes) []

inductive Event where
  | write (t : ThreadId) (op : Op) (height : Height)
  | flush (t : ThreadId)
  | sync (t : ThreadId)
  | step
  | land (i : ℕ)
  | check (t : ThreadId)
  | drain (t : ThreadId)
  | settle (t : ThreadId)
  | crash (maxBytes : ℕ) (heights : ℕ → Height)

namespace State

def life (s : State) : Life := ⟨s.store.ops, s.acked, s.synced⟩

/-- Everything that was ever issued, in log order. -/
def history (s : State) : List Issued := s.past.flatMap Life.issued ++ s.life.issued

def log (s : State) : List Wal.Slot := s.store.engine.log

def setPc (s : State) (t : ThreadId) (p : Pc) : State :=
  { s with threads := Function.update s.threads t p }

/-- Nothing is in flight, so `drain` returns. -/
def Drained (s : State) : Prop := ∀ r ∈ s.log, r.write ≠ .inFlight

/-- The lock holder may take its next step: `clear` waits for the leader, and drains. -/
def Ready (s : State) : Prop :=
  match s.store.stage with
  | none => False
  | some .clear => s.syncInProgress = false
  | some .drain => s.Drained
  | _ => True

/-- A call leaves the engine lock. -/
def released (s : State) : Pc → Pc
  | .writing w => if s.durability = .durable then .waiting w else .idle
  | .flushing => .idle
  | p => p

/-- The next step of the lock holder, with what `clear` does to the group commit. -/
def advance (s : State) : State :=
  match s.store.advance with
  | .error f => { s with down := some f }
  | .ok store =>
    match s.store.stage, s.holder with
    | some .clear, _ => { s with store := store, epoch := s.epoch + 1, durableEnd := 0 }
    | some .release, some t =>
      ({ s with store := store, holder := none } : State).setPc t (s.released (s.threads t))
    | _, _ => { s with store := store }

/-- `waitDurable` returns, and with it the call. -/
def finish (s : State) (t : ThreadId) : Caller → State
  | .write i => ({ s with acked := i :: s.acked } : State).setPc t .idle
  | .sync n => ({ s with synced := max s.synced n } : State).setPc t .idle

/-- One pass through the head of the loop of `waitDurable`. -/
def check (s : State) (t : ThreadId) (w : Wait) : State :=
  if w.ticket.epoch ≠ s.epoch then s.finish t w.caller
  else if w.ticket.stop ≤ s.durableEnd then s.finish t w.caller
  else if s.syncInProgress then s
  else { s with syncInProgress := true }.setPc t (.leading w s.epoch)

/-- The leader comes back from `fdatasync`. -/
def settle (s : State) (t : ThreadId) (w : Wait) (epoch target : ℕ) : State :=
  { s with
    syncInProgress := false
    durableEnd := if s.epoch = epoch then max s.durableEnd target else s.durableEnd }.setPc t (.waiting w)

/-- The process dies and the next one opens the engine. -/
def crash (s : State) (maxBytes : ℕ) (heights : ℕ → Height) : State :=
  match s.store.reopen maxBytes heights with
  | .error f => { s with down := some f }
  | .ok e => .started s.durability e (s.past ++ [s.life])

end State

def EventEnabled (s : State) : Event → Prop
  | .write t op _ => s.store.stage.isNone ∧ s.threads t = .idle ∧ op.entry.Fits
  | .flush t => s.store.stage.isNone ∧ s.threads t = .idle ∧ s.store.engine.memtable.empty = false
  | .sync t => s.threads t = .idle ∧ s.store.clearing = false
  | .step => s.Ready
  | .land i => s.log[i]?.map (·.write) = some .inFlight
  | .check _ => s.store.clearing = false
  | .drain _ => s.store.clearing = false ∧ s.Drained
  | .settle _ => s.store.clearing = false
  | .crash _ _ => True

def Enabled (s : State) (e : Event) : Prop := s.down.isNone ∧ EventEnabled s e

def next (s : State) : Event → State
  | .write t op height =>
    let store := s.store.append op height
    ({ s with store := store, holder := some t } : State).setPc t
      (.writing ⟨⟨s.epoch, Wal.writeOffset store.engine.log⟩, .write s.store.ops.length⟩)
  | .flush t => ({ s with store := s.store.startFlush, holder := some t } : State).setPc t .flushing
  | .sync t => s.setPc t (.waiting ⟨⟨s.epoch, Wal.writeOffset s.log⟩, .sync s.store.ops.length⟩)
  | .step => s.advance
  | .land i => { s with store := s.store.land i }
  | .check t =>
    match s.threads t with
    | .waiting w => s.check t w
    | _ => s
  | .drain t =>
    match s.threads t with
    | .leading w epoch => s.setPc t (.drained w epoch (Wal.writeOffset s.log))
    | _ => s
  | .settle t =>
    match s.threads t with
    | .drained w epoch target => s.settle t w epoch target
    | _ => s
  | .crash maxBytes heights => s.crash maxBytes heights

instance (s : State) : Decidable s.Drained := inferInstanceAs (Decidable (∀ r ∈ s.log, r.write ≠ .inFlight))

instance (s : State) : Decidable s.Ready :=
  match h : s.store.stage with
  | none => isFalse (by rw [State.Ready, h]; exact id)
  | some .clear => decidable_of_iff (s.syncInProgress = false) (by rw [State.Ready, h])
  | some .drain => decidable_of_iff s.Drained (by rw [State.Ready, h])
  | some (.insert _ _) | some .stage | some (.publish _) | some .unlink | some .renew | some .compact
  | some (.rewrite _ _) | some .release => isTrue (by rw [State.Ready, h]; trivial)

instance EventEnabled.decidable (s : State) : (e : Event) → Decidable (EventEnabled s e)
  | .write _ _ _ => inferInstanceAs (Decidable (_ ∧ _ ∧ _))
  | .flush _ => inferInstanceAs (Decidable (_ ∧ _ ∧ _))
  | .sync _ => inferInstanceAs (Decidable (_ ∧ _))
  | .step => inferInstanceAs (Decidable s.Ready)
  | .land _ => inferInstanceAs (Decidable (_ = _))
  | .check _ => inferInstanceAs (Decidable (_ = _))
  | .drain _ => inferInstanceAs (Decidable (_ ∧ _))
  | .settle _ => inferInstanceAs (Decidable (_ = _))
  | .crash _ _ => isTrue trivial

instance (s : State) (e : Event) : Decidable (Enabled s e) := inferInstanceAs (Decidable (_ ∧ _))

def machine : System State Event := ⟨Enabled, next⟩

instance (s : State) (e : Event) : Decidable (machine.Enabled s e) := inferInstanceAs (Decidable (Enabled s e))

/-- The log on disk is not too large to be read back. -/
def LogReadable (s : State) : Prop := (Wal.image s.log).length ≤ Wal.maxRecoveryBytes

instance (s : State) : Decidable (LogReadable s) := inferInstanceAs (Decidable (_ ≤ _))

/-- The next number of a table is within `int`, and a reopening can read the log. -/
def InRange (s : State) : Event → Prop
  | .step => s.store.InRange
  | .crash _ _ => LogReadable s
  | _ => True

instance InRange.decidable (s : State) : (e : Event) → Decidable (InRange s e)
  | .step => inferInstanceAs (Decidable s.store.InRange)
  | .crash _ _ => inferInstanceAs (Decidable (LogReadable s))
  | .write _ _ _ | .flush _ | .sync _ | .land _ | .check _ | .drain _ | .settle _ => isTrue trivial

end LsmTree.CrashMachine
