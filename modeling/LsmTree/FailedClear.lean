import LsmTree.CrashSafety
import LsmTree.WalRemains

/-!
# Clears that fail

`clear` takes a new epoch before it drains and removes the log, and a thread whose ticket
is of an older epoch returns from `waitDurable`: its records are in a table. While `clear`
holds the locks nobody can look. If it throws, the locks are free, and the threads return.

If the log was removed this is as good as a clear that returns. If it was not, the log is
replayed over the table at the next start. A record of the log that has landed is then
read again although the table has a later operation on its key, unless the record of that
operation has landed as well. Writes may fail, so the log may have holes, and a log with a
hole behind a landed record of the same key brings the older value back.

After a clear that has thrown there is no ring, and a call that would use it has no defined
behaviour; a flush still gets as far as the next `clear`.

A write that fails may have left some of its sectors in the file, or all of them. In the last
case its record will be read like any other. Else what is left of it stays in the log until
that is removed, and the processes that follow read over it.
-/

namespace LsmTree.FailedClear
open LittleEndian LayeredMap Merge Transition
open WalRing (Ticket ThreadId)
open CrashMachine (Life Durability covered)

/-- `clear` throws because the log cannot be removed, because it cannot be opened again, or because the
ring cannot be set up. -/
inductive ClearFault where
  | remove | reopen | init
  deriving DecidableEq, Repr

/-- The machine of threads and crashes, with a log some of whose writes have failed. `broken` says
why a `clear` of this process has thrown, `failed` that `failure_` is set once the completions are reaped.
`left` has the records whose write has failed, with the sectors that are there of them, and `found` is
what the process has found of the log when it started. -/
structure State where
  run : CrashMachine.State
  broken : Option ClearFault
  failed : Bool
  left : List (ℕ × List ℕ)
  found : List Wal.Piece

def initial (durability : Durability) (maxBytes : ℕ) : State :=
  ⟨CrashMachine.initial durability maxBytes, none, false, [], []⟩

/-- What can happen besides: the write of a record fails and leaves some sectors, a leader throws, the
drain of `clear` gives up on writes that have failed or take too long, and `clear` throws. -/
inductive Event where
  | base (e : CrashMachine.Event)
  | fail (i : ℕ) (sectors : List ℕ)
  | abort (t : ThreadId)
  | giveUp
  | clearFails (fault : ClearFault)

/-! ### Where a flush stands, and the records of its log -/

/-- The steps of `clear`: it takes a new epoch, drains, removes the log, and opens a new log and ring. -/
inductive ClearStep where
  | enter | drain | unlink | renew
  deriving DecidableEq, Repr

def ClearStep.stage : ClearStep → Stage
  | .enter => .clear
  | .drain => .drain
  | .unlink => .unlink
  | .renew => .renew

/-- The step of `clear` that a flush takes next. -/
def clearStep (s : Store) : Option ClearStep :=
  match s.stage with
  | some .clear => some .enter
  | some .drain => some .drain
  | some .unlink => some .unlink
  | some .renew => some .renew
  | _ => none

theorem stage_of_clearStep {s : Store} {c : ClearStep} (h : clearStep s = some c) : s.stage = some c.stage := by
  rw [clearStep] at h
  split at h <;> cases h <;> assumption

/-- The key of a record of the log. -/
def keyAt (s : Store) (i : ℕ) : Option Key := s.engine.log[i]?.map fun r => (recoveredOp r.entry).key

def writeAt (s : Store) (i : ℕ) : Option Wal.Write := s.engine.log[i]?.map Wal.Slot.write

/-! ### The log file -/

namespace State

/-- The records whose write has failed and that are not whole. -/
def dead (s : State) : List ℕ := s.left.map Prod.fst

/-- The records of this process, with the sectors that are there of those that are dead. -/
def remains (s : State) : List (Wal.Slot × List ℕ) :=
  (s.run.log.mapIdx fun i r => (r, (s.left.lookup i).getD [])).drop s.run.store.recovered

def pieces (s : State) : List Wal.Piece := s.found ++ Wal.pieces s.remains

/-- The log can be read back: it is not too large, and nothing in it is mistaken for a record. -/
def Readable (s : State) : Prop := (Wal.bytesOf s.pieces).length ≤ Wal.maxRecoveryBytes ∧ Wal.Unmistaken s.pieces

instance (s : State) : Decidable s.Readable := inferInstanceAs (Decidable (_ ∧ _))

/-- The constructor of `LSMEngine`, on the files a process has left. -/
def reopen (s : State) (maxBytes : ℕ) (heights : ℕ → Height) : Except Failure Engine :=
  let dir := s.run.store.engine.dir
  match Wal.recover (Wal.bytesOf s.pieces) with
  | .error err => .error (.recover err)
  | .ok entries =>
    if nextCounter .l0 dir.load ≤ intMax then
      .ok { memtable := Engine.replay (.new maxBytes) entries heights
            sstables := dir.load
            sstCounter := nextCounter .l0 dir.load
            dir := dir
            log := s.pieces.map Wal.Piece.slot }
    else .error .undefined

/-- The process dies and the next one opens the engine. -/
def crash (s : State) (maxBytes : ℕ) (heights : ℕ → Height) : State :=
  match s.reopen maxBytes heights with
  | .error f => { s with run := { s.run with down := some f } }
  | .ok e => ⟨.started s.run.durability e (s.run.past ++ [s.run.life]), none, false, [], s.pieces⟩

end State

/-! ### The system -/

/-- The events that do without a ring. With the new log open and empty a `sync` has nothing to wait
for; else it leads and drains. -/
def WithoutRing (fault : ClearFault) (s : CrashMachine.State) : CrashMachine.Event → Prop
  | .flush _ | .land _ | .check _ | .crash _ _ => True
  | .step => clearStep s.store ≠ some .enter
  | .sync _ => fault = .init
  | .write _ _ _ | .drain _ | .settle _ => False

def landing : CrashMachine.Event → Option ℕ
  | .land i => some i
  | .write _ _ _ | .flush _ | .sync _ | .step | .check _ | .drain _ | .settle _ | .crash _ _ => none

/-- A leader that drains finds every failure there is. -/
def drains : CrashMachine.Event → Bool
  | .drain _ => true
  | .write _ _ _ | .flush _ | .sync _ | .step | .land _ | .check _ | .settle _ | .crash _ _ => false

def EventEnabled (s : State) : Event → Prop
  | .base e => CrashMachine.EventEnabled s.run e ∧ (∀ fault ∈ s.broken, WithoutRing fault s.run e) ∧
      (∀ i ∈ landing e, i ∉ s.dead) ∧ (drains e = true → s.failed = false)
  | .fail i _ => writeAt s.run.store i = some .inFlight ∧ i ∉ s.dead
  | .abort _ => s.broken = none ∧ s.run.store.clearing = false
  | .giveUp => s.broken = none ∧ clearStep s.run.store = some .drain
  | .clearFails .remove => s.broken = none ∧ clearStep s.run.store = some .unlink
  | .clearFails .reopen | .clearFails .init => s.broken = none ∧ clearStep s.run.store = some .renew

def Enabled (s : State) (e : Event) : Prop := s.run.down.isNone ∧ EventEnabled s e

/-- A pass through the head of the loop of `waitDurable`. If it returns for the epoch, everything up to
the ticket counts as covered. -/
def check (s : CrashMachine.State) (t : ThreadId) : CrashMachine.State :=
  match s.threads t with
  | .waiting w =>
    if w.ticket.epoch ≠ s.epoch then
      { s.check t w with synced := max (s.check t w).synced w.caller.upto }
    else s.check t w
  | _ => s

def abort (s : CrashMachine.State) (t : ThreadId) : CrashMachine.State :=
  match s.threads t with
  | .leading _ _ | .drained _ _ _ => ({ s with syncInProgress := false } : CrashMachine.State).setPc t .idle
  | _ => s

/-- The exception leaves the flush and the call around it. -/
def throwClear (s : CrashMachine.State) : CrashMachine.State :=
  match s.holder with
  | some t =>
    ({ s with store := { s.store with stage := none }, holder := none } : CrashMachine.State).setPc t .idle
  | none => { s with store := { s.store with stage := none } }

/-- The write of a record fails. If it has left all of the record, this has landed. -/
def fail (s : State) (i : ℕ) (sectors : List ℕ) : State :=
  if ∀ r ∈ s.run.log[i]?, r.entry.AllLeft sectors then
    { s with run := { s.run with store := s.run.store.land i }, failed := true }
  else { s with left := (i, sectors) :: s.left, failed := true }

/-- A step of the lock holder. With the log its pieces are gone, and `failure_` is cleared at the end. -/
def step (s : State) : State :=
  match clearStep s.run.store with
  | some .unlink => { s with run := s.run.advance, left := [], found := [] }
  | some .renew => { s with run := s.run.advance, failed := false }
  | _ => { s with run := s.run.advance }

def next (s : State) : Event → State
  | .base (.check t) => { s with run := check s.run t }
  | .base .step => step s
  | .base (.crash maxBytes heights) => s.crash maxBytes heights
  | .base e => { s with run := CrashMachine.next s.run e }
  | .fail i sectors => fail s i sectors
  | .abort t => { s with run := abort s.run t }
  | .giveUp => { s with run := s.run.advance }
  | .clearFails fault => { s with run := throwClear s.run, broken := some fault }

def system : System State Event := ⟨Enabled, next⟩

/-! ### The condition and the property -/

/-- The record or a later one of its key has landed. -/
def LandedSince (s : Store) (j : ℕ) : Prop :=
  ∃ l < s.engine.log.length, j ≤ l ∧ keyAt s l = keyAt s j ∧ writeAt s l = some .landed

/-- If the record `j` of this process is on the key of the earlier record `i`, then `i` will never be
read, or `j` or a later record of the key has landed. -/
def Superseded (s : Store) (dead : List ℕ) (i j : ℕ) : Prop :=
  s.recovered ≤ j → keyAt s i = keyAt s j → i ∈ dead ∨ writeAt s i = some .lost ∨ LandedSince s j

/-- No record that has landed or may still land is hidden by records only that have not. -/
def NoStale (s : Store) (dead : List ℕ) : Prop :=
  ∀ j < s.engine.log.length, ∀ i < j, Superseded s dead i j

/-- A log that cannot be removed has nothing stale in it, and a log that is read back has nothing in it that
is mistaken for a record. Besides, numbers are within `int`, and logs are not too large. -/
def Careful (s : State) : Event → Prop
  | .base (.crash _ _) => s.Readable
  | .base e => CrashMachine.InRange s.run e
  | .clearFails .remove => NoStale s.run.store s.dead
  | .clearFails .reopen | .clearFails .init | .fail _ _ | .abort _ | .giveUp => True

/-- A process that opens the engine after a crash reads for every key the effect of the last operation on
it for which a wait has returned, or of a later one. -/
def Honoured (s : State) : Prop :=
  ∀ maxBytes heights, ∃ e, s.reopen maxBytes heights = .ok e ∧
    ∀ k, Outcome covered none s.run.history k (e.get k)

instance (fault : ClearFault) (s : CrashMachine.State) : (e : CrashMachine.Event) → Decidable (WithoutRing fault s e)
  | .flush _ | .land _ | .check _ | .crash _ _ => isTrue trivial
  | .step => inferInstanceAs (Decidable (_ ≠ _))
  | .sync _ => inferInstanceAs (Decidable (_ = _))
  | .write _ _ _ | .drain _ | .settle _ => isFalse id

instance EventEnabled.decidable (s : State) : (e : Event) → Decidable (EventEnabled s e)
  | .base e => inferInstanceAs (Decidable (_ ∧ (∀ fault ∈ s.broken, _) ∧ (∀ i ∈ landing e, _) ∧ _))
  | .fail _ _ | .abort _ | .giveUp | .clearFails .remove | .clearFails .reopen | .clearFails .init =>
    inferInstanceAs (Decidable (_ ∧ _))

instance (s : State) (e : Event) : Decidable (system.Enabled s e) := inferInstanceAs (Decidable (_ ∧ _))

instance (s : Store) (j : ℕ) : Decidable (LandedSince s j) :=
  inferInstanceAs (Decidable (∃ l < s.engine.log.length, j ≤ l ∧ keyAt s l = keyAt s j ∧ writeAt s l = some .landed))

instance (s : Store) (dead : List ℕ) (i j : ℕ) : Decidable (Superseded s dead i j) :=
  inferInstanceAs (Decidable (_ → _ → _ ∨ _ ∨ _))

instance (s : Store) (dead : List ℕ) : Decidable (NoStale s dead) :=
  inferInstanceAs (Decidable (∀ j < s.engine.log.length, ∀ i < j, Superseded s dead i j))

instance (s : State) : (e : Event) → Decidable (Careful s e)
  | .base (.crash _ _) => inferInstanceAs (Decidable s.Readable)
  | .base .step => inferInstanceAs (Decidable s.run.store.InRange)
  | .clearFails .remove => inferInstanceAs (Decidable (NoStale _ _))
  | .base (.write _ _ _) | .base (.flush _) | .base (.sync _) | .base (.land _) | .base (.check _) | .base (.drain _)
  | .base (.settle _) | .clearFails .reopen | .clearFails .init | .fail _ _ | .abort _ | .giveUp => isTrue trivial

/-! ### A log without stale records -/

section Log
variable {s : Store} {dead : List ℕ}

theorem keyAt_of_slot {i : ℕ} {r : Wal.Slot} {op : Op} (hi : s.engine.log[i]? = some r) (hentry : op.entry = r.entry) :
    keyAt s i = some op.key := by
  rw [keyAt, hi, Option.map_some, ← hentry, recoveredOp_entry]

/-- The record of an operation that has not been flushed. -/
theorem slot_of_op (h : s.LogInv) {j : ℕ} {op : Op} (hj : s.flushed ≤ j) (hop : s.ops[j]? = some op) :
    ∃ r, s.engine.log[s.recovered + (j - s.flushed)]? = some r ∧ op.entry = r.entry := by
  have haligned := congrArg (·[j - s.flushed]?) h.aligned
  simp only [List.getElem?_map, List.getElem?_drop, Nat.add_sub_cancel' hj, hop, Option.map_some] at haligned
  obtain ⟨r, hr, hentry⟩ := Option.map_eq_some_iff.mp haligned
  rw [Store.current, List.getElem?_drop] at hr
  exact ⟨r, hr, hentry.symm⟩

/-- The dead records have not landed. -/
def DeadInv (s : Store) (dead : List ℕ) : Prop := ∀ i ∈ dead, ∃ w, writeAt s i = some w ∧ w ≠ .landed

/-- Every record of this process behind a landed record that is read last is on another key. -/
theorem NoStale.key_ne (h : NoStale s dead) (hdead : DeadInv s dead) {k : Key} {i : ℕ} {r : Wal.Slot}
    (hi : s.engine.log[i]? = some r) (hlanded : r.write = .landed) (hkey : keyAt s i = some k)
    (hlast : ∀ (j : ℕ) (q : Wal.Slot), i < j → s.engine.log[j]? = some q → lookup k (slotLayer q) = none) {j : ℕ}
    (hij : i < j) (hj : s.recovered ≤ j) : keyAt s j ≠ some k := by
  intro hjk
  have hwrite : writeAt s i = some .landed := by rw [writeAt, hi, Option.map_some, hlanded]
  obtain ⟨q, hq, -⟩ := Option.map_eq_some_iff.mp hjk
  rcases h j (List.getElem?_eq_some_iff.mp hq).1 i hij hj (hkey.trans hjk.symm) with hd | hlost | ⟨l, -, hjl, hlk, hll⟩
  · obtain ⟨w, hw, hne⟩ := hdead i hd
    rw [hwrite] at hw
    exact hne (Option.some.inj hw).symm
  · rw [hwrite] at hlost
    cases hlost
  · obtain ⟨p, hp, hpw⟩ := Option.map_eq_some_iff.mp hll
    have hnone := hlast l p (by omega) hp
    have hpk : (recoveredOp p.entry).key = k := by
      have := hlk.trans hjk
      rw [keyAt, hp] at this
      exact Option.some.inj this
    simp [slotLayer, hpw, Engine.recordLayer, lookup_cons, hpk] at hnone

/-- What is replayed is the effect of all operations. -/
theorem NoStale.replay (h : NoStale s dead) (hdead : DeadInv s dead) (hlog : s.LogInv) {k : Key} {v : Option Bytes}
    (hv : newest k (s.engine.log.map slotLayer) = some v) : applyOps s.base s.ops k = v := by
  rcases newest_map_cases slotLayer k s.engine.log with ⟨i, r, v', hi, hlookup, hnew, hlast⟩ | ⟨hnew, -⟩
  · have hvv : v' = v := Option.some.inj (hnew.symm.trans hv)
    subst hvv
    have hcond : r.write = .landed ∧ (recoveredOp r.entry).key = k ∧ (recoveredOp r.entry).value = v' := by
      rw [slotLayer] at hlookup
      split_ifs at hlookup with hw
      · rw [Engine.recordLayer, lookup_cons, lookup_nil] at hlookup
        split_ifs at hlookup with hk
        exact ⟨hw, hk, Option.some.inj hlookup⟩
      · cases hlookup
    obtain ⟨hlanded, hk, hval⟩ := hcond
    have hkey : keyAt s i = some k := by rw [keyAt, hi, Option.map_some, hk]
    have hne := fun j => h.key_ne hdead hi hlanded hkey hlast (j := j)
    by_cases hold : s.recovered ≤ i
    · -- The record is the last one of its key in this process.
      have hcur : s.current[i - s.recovered]? = some r := by
        rw [Store.current, List.getElem?_drop, Nat.add_sub_cancel' hold, hi]
      obtain ⟨op, hop, hentry⟩ := hlog.op_of_slot hcur
      rw [← hentry, recoveredOp_entry] at hk hval
      rw [← hk, ← hval]
      refine applyOps_of_last s.base hop ?_
      intro j p hj hp hpk
      obtain ⟨q, hq, hqe⟩ := slot_of_op hlog (by omega) hp
      refine hne (s.recovered + (j - s.flushed)) (by omega) (by omega) ?_
      rw [keyAt_of_slot hq hqe, hpk, hk]
    · -- The record is of an earlier process, and this one has not written the key.
      have hzero : s.flushed = 0 := hlog.unflushed (by omega)
      have hcurrent : newest k (s.current.map slotLayer) = none := by
        rw [newest_eq_none_iff]
        intro t ht
        obtain ⟨q, hq, rfl⟩ := List.mem_map.mp ht
        obtain ⟨n, hn⟩ := List.mem_iff_getElem?.mp hq
        rw [Store.current, List.getElem?_drop] at hn
        exact hlast (s.recovered + n) q (by omega) hn
      have holdv : newest k (s.old.map slotLayer) = some v' := by
        rw [← s.old_append_current, List.map_append, newest_append, hcurrent, Option.none_or] at hv
        exact hv
      rw [applyOps_of_forall_ne, hlog.old_base k v' holdv]
      intro op hop hopk
      obtain ⟨j, hj⟩ := List.mem_iff_getElem?.mp hop
      obtain ⟨q, hq, hqe⟩ := slot_of_op hlog (by omega) hj
      refine hne (s.recovered + (j - s.flushed)) (by omega) (by omega) ?_
      rw [keyAt_of_slot hq hqe, hopk]
  · rw [hnew] at hv
    cases hv

theorem keyAt_land (s : Store) (n i : ℕ) : keyAt (s.land n) i = keyAt s i := by
  simp only [keyAt, Store.land, Wal.land, List.getElem?_modify]
  cases s.engine.log[i]? with
  | none => rfl
  | some r => by_cases hni : n = i <;> simp [hni]

theorem writeAt_land {n i : ℕ} (hw : writeAt s n = some .inFlight) :
    writeAt (s.land n) i = if n = i then some .landed else writeAt s i := by
  obtain ⟨r, hr, -⟩ := Option.map_eq_some_iff.mp hw
  simp only [writeAt, Store.land, Wal.land, List.getElem?_modify]
  split_ifs with hni
  · rw [← hni, hr]
    rfl
  · cases s.engine.log[i]? <;> rfl

/-- A record that lands supersedes more, and is not one that was given up. -/
theorem NoStale.land (h : NoStale s dead) {n : ℕ} (hw : writeAt s n = some .inFlight) :
    NoStale (s.land n) dead := by
  have hlength : (s.land n).engine.log.length = s.engine.log.length := by
    simp only [Store.land, Wal.land, List.length_modify]
  intro j hj i hij hrec hkey
  rw [hlength] at hj
  rw [keyAt_land, keyAt_land] at hkey
  rcases h j hj i hij hrec hkey with hd | hlost | ⟨l, hl, hjl, hlk, hll⟩
  · exact .inl hd
  · refine .inr (.inl ?_)
    rw [writeAt_land hw, if_neg, hlost]
    rintro rfl
    rw [hw] at hlost
    cases hlost
  · refine .inr (.inr ⟨l, hlength.symm ▸ hl, hjl, ?_, ?_⟩)
    · rw [keyAt_land, keyAt_land, hlk]
    · rw [writeAt_land hw, hll]
      split_ifs <;> rfl

theorem DeadInv.land (h : DeadInv s dead) {n : ℕ} (hw : writeAt s n = some .inFlight) (hn : n ∉ dead) :
    DeadInv (s.land n) dead := by
  intro i hi
  obtain ⟨w, hiw, hne⟩ := h i hi
  refine ⟨w, ?_, hne⟩
  rw [writeAt_land hw, if_neg, hiw]
  rintro rfl
  exact hn hi

end Log

/-! ### The tables under such a log -/

/-- The memtable holds nothing but the effect of all operations. -/
def Repeats (s : Store) : Prop := ∀ k v, lookup k s.engine.memtable.entries = some v → applyOps s.base s.ops k = v

theorem repeats_of_buffered {s : Store} (hlog : s.LogInv) (h : s.Buffered s.engine.memtable) : Repeats s := by
  intro k v hv
  rw [h k, newest_append] at hv
  rw [applyOps_eq]
  cases hops : newest k ((s.ops.drop s.flushed).map opLayer) with
  | some x =>
    rw [hops, Option.some_or] at hv
    have hsuffix : (s.ops.drop s.flushed).map opLayer <:+ s.ops.map opLayer := (List.drop_suffix _ _).map _
    rw [newest_of_suffix hsuffix hops, Option.getD_some]
    exact Option.some.inj hv
  | none =>
    rw [hops, Option.none_or] at hv
    have hzero : s.flushed = 0 := by
      apply hlog.unflushed
      intro hz
      rw [Store.old, hz, List.take_zero] at hv
      cases hv
    rw [hzero, List.drop_zero] at hops
    rw [hops, Option.getD_none, hlog.old_base k v hv]

/-- What a flush does after a `clear` that has thrown: it gets as far as the next `clear`. -/
def BrokenStage (s : Store) : Option Stage → Prop
  | none | some .stage => s.engine.Ordered ∧ Repeats s
  | some (.publish t) => s.Staged t ∧ Repeats s
  | some .clear => s.engine.Ordered
  | some (.insert _ _) | some .drain | some .unlink | some .renew | some .compact | some (.rewrite _ _)
  | some .release => False

/-- The tables hold everything, and a flush can only repeat it. -/
structure BrokenStore (s : Store) (dead : List ℕ) : Prop where
  log : s.LogInv
  counter_le : s.engine.sstCounter ≤ intMax
  l0_lt : ∀ t ∈ s.engine.dir.files, t.name.level = .l0 → t.name.counter < intMax
  settled : s.Settled
  stage : BrokenStage s s.stage
  stale : NoStale s dead

/-- The tables and what is read of the log are the effect of all operations. -/
theorem BrokenStore.resolve_eq {s : Store} {dead : List ℕ} (h : BrokenStore s dead) (hdead : DeadInv s dead) (k : Key) :
    resolve k (layers s.engine.dir.load ++ s.engine.log.map slotLayer) = applyOps s.base s.ops k := by
  rw [resolve_append]
  cases hnew : newest k (s.engine.log.map slotLayer) with
  | some v => rw [Option.getD_some, h.stale.replay hdead h.log hnew]
  | none => rw [Option.getD_none, h.settled k]

theorem BrokenStore.land {s : Store} {dead : List ℕ} (h : BrokenStore s dead) {n : ℕ}
    (hw : writeAt s n = some .inFlight) : BrokenStore (s.land n) dead := by
  obtain ⟨r, hr, hrw⟩ := Option.map_eq_some_iff.mp hw
  have hrec := h.log.recovered_le_of_inFlight hr hrw
  refine ⟨h.log.land hrec, h.counter_le, h.l0_lt, h.settled, ?_, h.stale.land hw⟩
  have hstage := h.stage
  show BrokenStage (s.land n) s.stage
  cases hs : s.stage with
  | none =>
    rw [hs] at hstage
    exact ⟨⟨hstage.1.load_eq, hstage.1.l0_lt⟩, hstage.2⟩
  | some next =>
    rw [hs] at hstage
    cases next with
    | stage => exact ⟨⟨hstage.1.load_eq, hstage.1.l0_lt⟩, hstage.2⟩
    | publish t =>
      obtain ⟨hst, hrep⟩ := hstage
      exact ⟨⟨hst.load_eq, hst.level, hst.newer, hst.counter_lt, hst.entries⟩, hrep⟩
    | clear => exact ⟨hstage.load_eq, hstage.l0_lt⟩
    | insert | drain | unlink | renew | compact | rewrite | release => exact hstage.elim

theorem BrokenStore.startFlush {s : Store} {dead : List ℕ} (h : BrokenStore s dead) (hfree : s.stage = none) :
    BrokenStore s.startFlush dead := by
  have hstage := h.stage
  rw [hfree] at hstage
  exact ⟨h.log.frame rfl rfl rfl rfl rfl, h.counter_le, h.l0_lt, h.settled, hstage, h.stale⟩

/-- It never comes to the removal of the log again. -/
theorem BrokenStore.clearStep_eq {s : Store} {dead : List ℕ} (h : BrokenStore s dead) {c : ClearStep}
    (hc : clearStep s = some c) : c = .enter := by
  have hstage := h.stage
  rw [stage_of_clearStep hc] at hstage
  cases c with
  | enter => rfl
  | drain | unlink | renew => exact hstage.elim

theorem BrokenStore.advance_isOk {s : Store} {dead : List ℕ} (h : BrokenStore s dead) (hrange : s.InRange) :
    ∃ s', s.advance = .ok s' := by
  have hstage := h.stage
  cases hs : s.stage with
  | none =>
    simp only [Store.advance, hs]
    exact ⟨_, rfl⟩
  | some next =>
    rw [hs] at hstage
    cases next with
    | stage =>
      simp only [Store.InRange, hs] at hrange
      simp only [Store.advance, hs, hrange, ↓reduceDIte]
      exact ⟨_, rfl⟩
    | publish | clear =>
      simp only [Store.advance, hs]
      exact ⟨_, rfl⟩
    | insert | drain | unlink | renew | compact | rewrite | release => exact hstage.elim

/-- A second flush publishes what the tables hold already. -/
theorem BrokenStore.advance {s s' : Store} {dead : List ℕ} (h : BrokenStore s dead) (hclear : clearStep s ≠ some .enter)
    (ha : s.advance = .ok s') : BrokenStore s' dead ∧ s'.base = s.base := by
  have hstage := h.stage
  cases hs : s.stage with
  | none =>
    simp only [Store.advance, hs] at ha
    cases ha
    exact ⟨h, rfl⟩
  | some next =>
    rw [hs] at hstage
    cases next with
    | stage =>
      simp only [Store.advance, hs] at ha
      split at ha
      case isFalse => cases ha
      case isTrue hlt =>
        cases ha
        obtain ⟨hord, hrep⟩ := hstage
        exact ⟨⟨h.log.frame rfl rfl rfl rfl rfl, hlt, h.l0_lt, h.settled, ⟨Store.staged_of_ordered hord hlt, hrep⟩,
          h.stale⟩, rfl⟩
    | publish t =>
      simp only [Store.advance, hs] at ha
      cases ha
      obtain ⟨hst, hrep⟩ := hstage
      obtain ⟨hord, hl0⟩ := hst.ordered h.counter_le h.l0_lt
      refine ⟨⟨h.log.frame rfl rfl rfl rfl rfl, h.counter_le, hl0, ?_, hord, h.stale⟩, rfl⟩
      intro k
      show resolve k (layers (s.engine.dir.apply (.publish t)).load) = _
      have hsingle : layers [t] = [s.engine.memtable.entries] := congrArg (fun es => [es]) hst.entries
      rw [Store.load_apply_publish hst.level hst.newer, layers_append, resolve_append, hsingle, newest_singleton]
      cases hmem : lookup k s.engine.memtable.entries with
      | some v => rw [Option.getD_some, hrep k v hmem]
      | none => rw [Option.getD_none, h.settled k]
    | clear => simp [clearStep, hs] at hclear
    | insert | drain | unlink | renew | compact | rewrite | release => exact hstage.elim

/-! ### The invariant -/

structure Inv (s : State) : Prop where
  dead : DeadInv s.run.store s.dead
  found : Wal.landedEntries s.run.store.old = Wal.records s.found
  down : s.run.down = none
  past : ∀ k, Outcome covered none (s.run.past.flatMap Life.issued) k (s.run.store.base k)
  sound : s.broken = none → CrashMachine.Inv s.run ∧ ((clearStep s.run.store).isSome → Repeats s.run.store)
  broken : ∀ fault ∈ s.broken, BrokenStore s.run.store s.dead

theorem inv_of_sound {s : State} (hb : s.broken = none) (hrun : CrashMachine.Inv s.run)
    (hdead : DeadInv s.run.store s.dead) (hfound : Wal.landedEntries s.run.store.old = Wal.records s.found)
    (hrep : (clearStep s.run.store).isSome → Repeats s.run.store) : Inv s := by
  refine ⟨hdead, hfound, hrun.down, hrun.past, fun _ => ⟨hrun, hrep⟩, ?_⟩
  rw [hb]
  simp

theorem inv_initial (durability : Durability) (maxBytes : ℕ) : Inv (initial durability maxBytes) :=
  inv_of_sound rfl (CrashMachine.inv_initial durability maxBytes) (by simp [DeadInv, State.dead, initial]) rfl
    fun h => by cases h

theorem Inv.log {s : State} (h : Inv s) : s.run.store.LogInv := by
  cases hb : s.broken with
  | none => exact (h.sound hb).1.store.log
  | some fault => exact (h.broken fault hb).log

theorem DeadInv.congr {s s' : Store} {dead : List ℕ} (h : DeadInv s dead) (hlog : s'.engine.log = s.engine.log) :
    DeadInv s' dead := by
  intro i hi
  obtain ⟨w, hw, hne⟩ := h i hi
  refine ⟨w, ?_, hne⟩
  rw [writeAt, hlog]
  exact hw

theorem DeadInv.append {s : Store} {dead : List ℕ} (h : DeadInv s dead) (op : Op) (height : Height) :
    DeadInv (s.append op height) dead := by
  intro i hi
  obtain ⟨w, hw, hne⟩ := h i hi
  obtain ⟨r, hr, hrw⟩ := Option.map_eq_some_iff.mp hw
  refine ⟨w, ?_, hne⟩
  simp only [writeAt, Store.append]
  rw [List.getElem?_append_left (List.getElem?_eq_some_iff.mp hr).1, hr, Option.map_some, hrw]

/-- The memtable of a flush stays until the log is cleared. -/
theorem clearStep_advance {s s' : Store} (ha : s.advance = .ok s') (h : (clearStep s').isSome) :
    ((clearStep s).isSome ∨ ∃ t, s.stage = some (.publish t)) ∧ s'.engine.memtable = s.engine.memtable ∧
      s'.base = s.base ∧ s'.ops = s.ops := by
  cases hs : s.stage with
  | none =>
    simp only [Store.advance, hs] at ha
    cases ha
    simp [clearStep, hs] at h
  | some next =>
    cases next with
    | publish t =>
      simp only [Store.advance, hs] at ha
      cases ha
      exact ⟨.inr ⟨t, rfl⟩, rfl, rfl, rfl⟩
    | clear | drain | unlink =>
      simp only [Store.advance, hs] at ha
      cases ha
      exact ⟨.inl (by simp [clearStep, hs]), rfl, rfl, rfl⟩
    | renew =>
      simp only [Store.advance, hs] at ha
      cases ha
      cases h
    | insert op height =>
      simp only [Store.advance, hs] at ha
      cases ha
      simp only [clearStep] at h
      split_ifs at h <;> cases h
    | stage =>
      simp only [Store.advance, hs] at ha
      split at ha <;> cases ha
      cases h
    | compact =>
      simp only [Store.advance, hs] at ha
      split at ha
      · cases ha
        cases h
      · split at ha <;> cases ha
        cases h
    | rewrite outputs steps =>
      cases steps <;> simp only [Store.advance, hs] at ha <;> cases ha <;> cases h
    | release =>
      simp only [Store.advance, hs] at ha
      cases ha
      cases h

/-- The same log, in which the same part is old. -/
structure SameLog (s s' : Store) : Prop where
  log_eq : s'.engine.log = s.engine.log
  recovered_eq : s'.recovered = s.recovered

theorem SameLog.old_eq {s s' : Store} (h : SameLog s s') : s'.old = s.old := by
  rw [Store.old, h.log_eq, h.recovered_eq]
  rfl

/-- Only the removal of the log changes it. -/
theorem sameLog_advance {s s' : Store} (ha : s.advance = .ok s') (h : clearStep s ≠ some .unlink) : SameLog s s' := by
  rcases Store.advance_cases ha with ⟨-, hq⟩ | ⟨-, rfl⟩ | ⟨hs, -⟩ | ⟨-, hlog, -, -, -, hrec, -⟩
  · exact ⟨hq.log_eq, hq.recovered_eq⟩
  · exact ⟨rfl, rfl⟩
  · simp [clearStep, hs] at h
  · exact ⟨hlog, hrec⟩

theorem old_unlink {s s' : Store} (ha : s.advance = .ok s') (h : clearStep s = some .unlink) : s'.old = [] := by
  have hs := stage_of_clearStep h
  rw [ClearStep.stage] at hs
  simp only [Store.advance, hs] at ha
  cases ha
  rfl

/-- Inside `clear` the tables hold everything, and so they do when it throws. -/
theorem brokenStore_of_throw {s : Store} {dead : List ℕ} {c : ClearStep} (h : s.Inv)
    (hrep : (clearStep s).isSome → Repeats s) (hc : clearStep s = some c) (hstale : NoStale s dead) :
    BrokenStore { s with stage := none } dead := by
  have hstage := h.stage
  rw [stage_of_clearStep hc] at hstage
  have hsettled : s.engine.Ordered ∧ s.Settled := by
    cases c with
    | enter | drain | unlink => exact hstage
    | renew => exact ⟨hstage.1, hstage.2.1⟩
  exact ⟨h.log.frame rfl rfl rfl rfl rfl, h.counter_le, h.l0_lt, hsettled.2,
    ⟨hsettled.1, hrep (by rw [hc]; rfl)⟩, hstale⟩

/-- Once the log is removed there is nothing to be replayed. -/
theorem noStale_of_renew {s : Store} (h : s.Inv) (hc : clearStep s = some .renew) (dead : List ℕ) :
    NoStale s dead := by
  have hstage := h.stage
  rw [stage_of_clearStep hc] at hstage
  intro j hj
  rw [hstage.2.2.log_nil] at hj
  cases hj

/-! ### The steps -/

section Steps
variable {s : State}

theorem NoStale.mono {store : Store} {dead dead' : List ℕ} (h : NoStale store dead) (hsub : dead ⊆ dead') :
    NoStale store dead' := by
  intro j hj i hij hrec hkey
  rcases h j hj i hij hrec hkey with hd | hrest
  · exact .inl (hsub hd)
  · exact .inr hrest

/-- The state of a process whose `clear` throws or has thrown, with a store on the same log. -/
theorem Inv.of_broken (h : Inv s) (fault : ClearFault) {run : CrashMachine.State} {store : Store}
    (hrun : run.store = store ∧ run.down = s.run.down ∧ run.past = s.run.past)
    (hlog : SameLog s.run.store store) (hbase : store.base = s.run.store.base)
    (hbroken : BrokenStore store s.dead) : Inv { s with run := run, broken := some fault } := by
  obtain ⟨rfl, hdown, hpast⟩ := hrun
  refine ⟨h.dead.congr hlog.log_eq, hlog.old_eq ▸ h.found, hdown.trans h.down, ?_, fun hn => ?_, fun _ _ => hbroken⟩
  · show ∀ k, Outcome covered none (run.past.flatMap Life.issued) k (run.store.base k)
    rw [hpast, hbase]
    exact h.past
  · cases hn

/-- A step of a thread that leaves the store alone. -/
structure SameStore (run run' : CrashMachine.State) : Prop where
  store_eq : run'.store = run.store
  down_eq : run'.down = run.down
  past_eq : run'.past = run.past

theorem Inv.same (h : Inv s) {run : CrashMachine.State} (hsame : SameStore s.run run)
    (hsound : s.broken = none → CrashMachine.Inv run) : Inv { s with run := run } := by
  obtain ⟨hstore, hdown, hpast⟩ := hsame
  refine ⟨hstore ▸ h.dead, hstore ▸ h.found, hdown ▸ h.down, ?_, fun hb => ⟨hsound hb, hstore ▸ (h.sound hb).2⟩, ?_⟩
  · show ∀ k, Outcome covered none (run.past.flatMap Life.issued) k (run.store.base k)
    rw [hstore, hpast]
    exact h.past
  · show ∀ fault ∈ s.broken, BrokenStore run.store s.dead
    rw [hstore]
    exact h.broken

theorem same_check (run : CrashMachine.State) (t : ThreadId) : SameStore run (check run t) := by
  have hcheck : ∀ w, SameStore run (run.check t w) := by
    intro w
    rw [CrashMachine.State.check]
    split_ifs
    · cases w.caller <;> exact ⟨rfl, rfl, rfl⟩
    · cases w.caller <;> exact ⟨rfl, rfl, rfl⟩
    · exact ⟨rfl, rfl, rfl⟩
    · exact ⟨rfl, rfl, rfl⟩
  rw [check]
  split
  case h_1 w _ =>
    split_ifs
    · exact ⟨(hcheck w).store_eq, (hcheck w).down_eq, (hcheck w).past_eq⟩
    · exact hcheck w
  case h_2 => exact ⟨rfl, rfl, rfl⟩

theorem same_drain (run : CrashMachine.State) (t : ThreadId) : SameStore run (CrashMachine.next run (.drain t)) := by
  rw [CrashMachine.next]
  split <;> exact ⟨rfl, rfl, rfl⟩

theorem same_settle (run : CrashMachine.State) (t : ThreadId) : SameStore run (CrashMachine.next run (.settle t)) := by
  rw [CrashMachine.next]
  split <;> exact ⟨rfl, rfl, rfl⟩

theorem same_abort (run : CrashMachine.State) (t : ThreadId) : SameStore run (abort run t) := by
  rw [abort]
  split <;> exact ⟨rfl, rfl, rfl⟩

/-- A wait that returns for the epoch has nothing to lose, for itself or for the records before it. -/
theorem sound_check {run : CrashMachine.State} (h : CrashMachine.Inv run) {t : ThreadId}
    (he : CrashMachine.Enabled run (.check t)) : CrashMachine.Inv (check run t) := by
  have hnext := CrashMachine.inv_check h he
  have hstore := (same_check run t).store_eq
  have hpc := h.threads t
  cases ht : run.threads t with
  | waiting w =>
    simp only [CrashMachine.next, check, ht] at hnext hstore ⊢
    rw [ht] at hpc
    split_ifs at hstore ⊢ with hepoch
    · refine ⟨hnext.down, hnext.store, hnext.acked_safe, ?_, hnext.durable, hnext.reset, hnext.threads,
        hnext.past⟩
      intro i hi
      rcases lt_max_iff.mp hi with hi | hi
      · exact hnext.synced_safe i hi
      · rw [hstore]
        exact hpc.safe h.store.log he.2 h.durable (.inl hepoch) hi
    · exact hnext
  | idle | writing | flushing | leading | drained =>
    simp only [check, ht]
    exact h

theorem sound_abort {run : CrashMachine.State} (h : CrashMachine.Inv run) (t : ThreadId) :
    CrashMachine.Inv (abort run t) := by
  have hfree : CrashMachine.Inv { run with syncInProgress := false } :=
    ⟨h.down, h.store, h.acked_safe, h.synced_safe, h.durable, h.reset, h.threads, h.past⟩
  rw [abort]
  split
  · exact hfree.setPc t (p := .idle) trivial
  · exact hfree.setPc t (p := .idle) trivial
  · exact h

theorem throwClear_store (run : CrashMachine.State) :
    (throwClear run).store = { run.store with stage := none } ∧ (throwClear run).down = run.down ∧
      (throwClear run).past = run.past := by
  rw [throwClear]
  split <;> exact ⟨rfl, rfl, rfl⟩

theorem store_advance {run : CrashMachine.State} {store : Store} (ha : run.store.advance = .ok store) :
    run.advance.store = store ∧ run.advance.down = run.down ∧ run.advance.past = run.past := by
  by_cases hclear : run.store.stage = some .clear
  · simp only [CrashMachine.State.advance, ha, hclear]
    trivial
  · rcases CrashMachine.advance_of_ne_clear ha hclear with heq | ⟨t, heq⟩
    · rw [heq]
      exact ⟨rfl, rfl, rfl⟩
    · rw [heq]
      exact ⟨rfl, rfl, rfl⟩

/-- A step of the lock holder, in a process whose `clear` has not thrown. -/
theorem sound_advance (h : Inv s) (hb : s.broken = none) (hrange : s.run.store.InRange) (failed : Bool)
    {left : List (ℕ × List ℕ)} {found : List Wal.Piece}
    (hlog : clearStep s.run.store = some .unlink ∧ left = [] ∧ found = [] ∨
      clearStep s.run.store ≠ some .unlink ∧ left = s.left ∧ found = s.found) :
    Inv ⟨s.run.advance, s.broken, failed, left, found⟩ := by
  rw [hb]
  obtain ⟨hrun, hrep⟩ := h.sound hb
  obtain ⟨store, ha⟩ := hrun.store.advance_isOk hrange
  have hstore := (store_advance ha).1
  refine inv_of_sound rfl (CrashMachine.inv_step hrun hrange) ?_ ?_ ?_
  · rcases hlog with ⟨-, rfl, rfl⟩ | ⟨hunlink, rfl, rfl⟩
    · simp [DeadInv, State.dead]
    · rw [hstore]
      exact h.dead.congr (sameLog_advance ha hunlink).log_eq
  · rw [hstore]
    rcases hlog with ⟨hunlink, rfl, rfl⟩ | ⟨hunlink, rfl, rfl⟩
    · rw [old_unlink ha hunlink]
      rfl
    · rw [(sameLog_advance ha hunlink).old_eq]
      exact h.found
  · rw [hstore]
    intro hin
    obtain ⟨hwas, hmem, hbase, hops⟩ := clearStep_advance ha hin
    have hrepeats : Repeats s.run.store := by
      rcases hwas with hwas | ⟨t, ht⟩
      · exact hrep hwas
      · have hstage := hrun.store.stage
        rw [ht] at hstage
        exact repeats_of_buffered hrun.store.log hstage.2.2
    intro k v hv
    rw [hmem] at hv
    rw [hbase, hops]
    exact hrepeats k v hv

/-- In a process whose `clear` has thrown, a second flush gets as far as the next `clear`. -/
theorem broken_advance {fault : ClearFault} (hb : s.broken = some fault) (h : Inv s)
    (hclear : clearStep s.run.store ≠ some .enter) (hrange : s.run.store.InRange) :
    Inv { s with run := s.run.advance } := by
  have hbroken := h.broken fault hb
  obtain ⟨store, ha⟩ := hbroken.advance_isOk hrange
  obtain ⟨hnext, hbase⟩ := hbroken.advance hclear ha
  have hunlink : clearStep s.run.store ≠ some .unlink := fun hc => by cases hbroken.clearStep_eq hc
  have hinv := h.of_broken fault (store_advance ha) (sameLog_advance ha hunlink) hbase hnext
  rwa [← hb] at hinv

theorem inv_step (h : Inv s) (he : EventEnabled s (.base .step)) (hrange : s.run.store.InRange) : Inv (step s) := by
  cases hb : s.broken with
  | none =>
    rw [step]
    split
    case h_1 hunlink => exact sound_advance h hb hrange s.failed (.inl ⟨hunlink, rfl, rfl⟩)
    case h_2 hrenew => exact sound_advance h hb hrange false (.inr ⟨by simp [hrenew], rfl, rfl⟩)
    case h_3 hunlink hrenew => exact sound_advance h hb hrange s.failed (.inr ⟨hunlink, rfl, rfl⟩)
  | some fault =>
    have hnone : clearStep s.run.store = none := by
      cases hc : clearStep s.run.store with
      | none => rfl
      | some c => exact absurd (hc.trans (congrArg some ((h.broken fault hb).clearStep_eq hc))) (he.2.1 fault hb)
    rw [step]
    simp only [hnone]
    exact broken_advance hb h (he.2.1 fault hb) hrange

theorem Inv.land (h : Inv s) (hdown : s.run.down.isNone) {i : ℕ} (hin : writeAt s.run.store i = some .inFlight)
    (hdead : i ∉ s.dead) : Inv { s with run := { s.run with store := s.run.store.land i } } := by
  obtain ⟨r, hr, hrw⟩ := Option.map_eq_some_iff.mp hin
  have hold : (s.run.store.land i).old = s.run.store.old :=
    Store.old_land (h.log.recovered_le_of_inFlight hr hrw)
  refine ⟨h.dead.land hin hdead, (congrArg Wal.landedEntries hold).trans h.found, h.down, h.past, ?_, ?_⟩
  · intro hb
    obtain ⟨hrun, hrep⟩ := h.sound hb
    exact ⟨CrashMachine.inv_land hrun ⟨hdown, hin⟩, hrep⟩
  · intro fault hb
    exact (h.broken fault hb).land hin

theorem inv_flush (h : Inv s) {t : ThreadId} (he : Enabled s (.base (.flush t))) :
    Inv (next s (.base (.flush t))) := by
  obtain ⟨hdown, henabled, -, -⟩ := he
  have hfree : s.run.store.stage = none := by simpa using henabled.1
  refine ⟨h.dead.congr rfl, h.found, h.down, h.past, ?_, ?_⟩
  · intro hb
    exact ⟨CrashMachine.inv_flush (h.sound hb).1 ⟨hdown, henabled⟩, fun hin => by cases hin⟩
  · intro fault hb
    exact (h.broken fault hb).startFlush hfree

theorem Inv.setFailed (h : Inv s) (failed : Bool) : Inv { s with failed := failed } :=
  ⟨h.dead, h.found, h.down, h.past, h.sound, h.broken⟩

theorem inv_fail (h : Inv s) {i : ℕ} {sectors : List ℕ} (he : Enabled s (.fail i sectors)) :
    Inv (fail s i sectors) := by
  obtain ⟨hdown, hin, hnot⟩ := he
  rw [fail]
  split_ifs
  · exact (h.land hdown hin hnot).setFailed true
  · have hdead : DeadInv s.run.store (i :: s.dead) := by
      intro j hj
      rcases List.mem_cons.mp hj with rfl | hj
      · exact ⟨.inFlight, hin, by decide⟩
      · exact h.dead j hj
    refine ⟨hdead, h.found, h.down, h.past, h.sound, ?_⟩
    intro fault hb
    have hbroken := h.broken fault hb
    exact { hbroken with stale := hbroken.stale.mono (List.subset_cons_self i s.dead) }

/-- A `clear` that throws leaves tables that hold everything, and a log with nothing stale in it. -/
theorem inv_clearFails (h : Inv s) {fault : ClearFault} (he : EventEnabled s (.clearFails fault))
    (hok : Careful s (.clearFails fault)) : Inv (next s (.clearFails fault)) := by
  have hthrown : BrokenStore { s.run.store with stage := none } s.dead := by
    cases fault with
    | remove =>
      obtain ⟨hrun, hrep⟩ := h.sound he.1
      exact brokenStore_of_throw hrun.store hrep he.2 hok
    | reopen | init =>
      obtain ⟨hrun, hrep⟩ := h.sound he.1
      exact brokenStore_of_throw hrun.store hrep he.2 (noStale_of_renew hrun.store he.2 s.dead)
  exact h.of_broken fault (throwClear_store s.run) ⟨rfl, rfl⟩ rfl hthrown

/-! ### Crashes -/

theorem map_remains (s : State) : s.remains.map Prod.fst = s.run.store.current := by
  rw [State.remains, List.map_drop]
  congr 1
  apply List.ext_getElem?
  intro i
  simp [CrashMachine.State.log, Function.comp_def]

/-- The records that have landed are those of the file. -/
theorem Inv.landedEntries_log (h : Inv s) :
    Wal.landedEntries s.run.store.engine.log = Wal.records s.pieces := by
  rw [State.pieces, Wal.records_append, Wal.records_pieces, map_remains, ← h.found, ← s.run.store.old_append_current]
  simp [Wal.landedEntries]

theorem Inv.l0_lt (h : Inv s) : ∀ t ∈ s.run.store.engine.dir.files, t.name.level = .l0 → t.name.counter < intMax := by
  cases hb : s.broken with
  | none => exact (h.sound hb).1.store.l0_lt
  | some fault => exact (h.broken fault hb).l0_lt

/-- The next process opens the engine, on the records that have landed. -/
theorem Inv.reopen_isOk (h : Inv s) (hread : s.Readable) (maxBytes : ℕ) (heights : ℕ → Height) :
    ∃ e, s.reopen maxBytes heights = .ok e ∧ (Store.opened e).Inv ∧ e.log = s.pieces.map Wal.Piece.slot ∧
      ∀ k, e.get k = resolve k (layers s.run.store.engine.dir.load ++ s.run.store.engine.log.map slotLayer) := by
  have hrecords := h.landedEntries_log
  have hfits : ∀ e ∈ Wal.records s.pieces, e.Fits := by
    rw [← hrecords]
    intro e he
    obtain ⟨r, hr, rfl⟩ := List.mem_map.mp he
    exact h.log.fits r (List.mem_filter.mp hr).1
  have hnext : nextCounter .l0 s.run.store.engine.dir.load ≤ intMax :=
    nextCounter_le fun t ht => h.l0_lt t (Directory.mem_load.mp ht)
  have hmem : ∀ k, lookup k (Engine.replay (.new maxBytes) (Wal.records s.pieces) heights).entries =
      newest k ((Wal.records s.pieces).map Engine.recordLayer) := by
    intro k
    rw [Engine.lookup_replay, newest_cons, Memtable.entries_new, lookup_nil, Option.or_none]
  rw [State.reopen, Wal.recover_bytesOf hfits hread.2 hread.1]
  simp only [hnext, if_true]
  refine ⟨_, rfl, Store.opened_inv ⟨rfl, fun t ht hl => lt_nextCounter ht hl⟩ hnext ?_ ?_ ?_, rfl, ?_⟩
  · intro r hr
    obtain ⟨p, -, rfl⟩ := List.mem_map.mp hr
    cases p <;> exact Wal.Write.noConfusion
  · intro r hr
    obtain ⟨p, hp, rfl⟩ := List.mem_map.mp hr
    cases p with
    | record e => exact hfits e (List.mem_filterMap.mpr ⟨_, hp, rfl⟩)
    | sector b hlength => exact ⟨Nat.zero_le _, Nat.zero_le _⟩
  · intro k
    rw [hmem k, ← newest_landedEntries, Wal.landedEntries_slots]
  · intro k
    rw [Engine.get_eq, Engine.contents, resolve_append, newest_singleton, hmem k, ← hrecords, newest_landedEntries,
      resolve_append]

/-- What it reads is permitted. -/
theorem Inv.reopen (h : Inv s) (hread : s.Readable) (maxBytes : ℕ) (heights : ℕ → Height) :
    ∃ e, s.reopen maxBytes heights = .ok e ∧ (Store.opened e).Inv ∧ e.log = s.pieces.map Wal.Piece.slot ∧
      ∀ k, Outcome covered none s.run.history k (e.get k) := by
  obtain ⟨e, he, hinv, hlog, hget⟩ := h.reopen_isOk hread maxBytes heights
  refine ⟨e, he, hinv, hlog, fun k => (h.past k).append ?_⟩
  rw [hget k]
  cases hb : s.broken with
  | none =>
    have hrun := (h.sound hb).1
    exact hrun.store.outcome (CrashMachine.map_op_issued s.run.life)
      (fun j o ho hcov => CrashMachine.covered_safe hrun ho hcov) k
  | some fault =>
    have hall := @outcome_all covered s.run.store.base s.run.life.issued k
    rw [CrashMachine.map_op_issued] at hall
    rw [(h.broken fault hb).resolve_eq h.dead k]
    exact hall

theorem inv_crash (h : Inv s) (hread : s.Readable) (maxBytes : ℕ) (heights : ℕ → Height) :
    Inv (s.crash maxBytes heights) := by
  obtain ⟨e, he, hinv, hlog, hpast⟩ := h.reopen hread maxBytes heights
  have hcrash : s.crash maxBytes heights =
      ⟨.started s.run.durability e (s.run.past ++ [s.run.life]), none, false, [], s.pieces⟩ := by
    rw [State.crash, he]
  rw [hcrash]
  refine inv_of_sound rfl (CrashMachine.inv_started s.run.durability hinv ?_) (by simp [DeadInv, State.dead]) ?_ ?_
  · intro k
    rw [List.flatMap_append, List.flatMap_singleton]
    exact hpast k
  · have hold : (Store.opened e).old = s.pieces.map Wal.Piece.slot := hlog ▸ List.take_length
    show Wal.landedEntries (Store.opened e).old = Wal.records s.pieces
    rw [hold, Wal.landedEntries_slots]
  · intro hin
    cases hin

/-! ### Runs -/

theorem inv_base (h : Inv s) {e : CrashMachine.Event} (he : Enabled s (.base e)) (hok : Careful s (.base e)) :
    Inv (next s (.base e)) := by
  obtain ⟨hdown, henabled, hring, hlanding, hdrain⟩ := he
  cases e with
  | write t op height =>
    cases hb : s.broken with
    | some fault => exact (hring fault hb).elim
    | none =>
      obtain ⟨hrun, -⟩ := h.sound hb
      refine inv_of_sound hb (CrashMachine.inv_write hrun ⟨hdown, henabled⟩) (h.dead.append op height) ?_ ?_
      · exact (congrArg Wal.landedEntries (Store.old_append h.log op height)).trans h.found
      · intro hin
        cases hin
  | flush t => exact inv_flush h ⟨hdown, henabled, hring, hlanding, hdrain⟩
  | sync t =>
    exact h.same ⟨rfl, rfl, rfl⟩ fun hb => CrashMachine.inv_sync (h.sound hb).1 ⟨hdown, henabled⟩
  | step => exact inv_step h ⟨henabled, hring, hlanding, hdrain⟩ hok
  | land i => exact h.land hdown henabled (hlanding i rfl)
  | check t =>
    exact h.same (same_check s.run t) fun hb => sound_check (h.sound hb).1 ⟨hdown, henabled⟩
  | drain t =>
    exact h.same (same_drain s.run t) fun hb => CrashMachine.inv_drain (h.sound hb).1 ⟨hdown, henabled⟩
  | settle t =>
    exact h.same (same_settle s.run t) fun hb => CrashMachine.inv_settle (h.sound hb).1 ⟨hdown, henabled⟩
  | crash maxBytes heights => exact inv_crash h hok maxBytes heights

/-- The drain of `clear` ends although writes have failed. -/
theorem inv_giveUp (h : Inv s) (he : EventEnabled s .giveUp) : Inv (next s .giveUp) := by
  obtain ⟨hb, hdrain⟩ := he
  have hs := stage_of_clearStep hdrain
  have hrange : s.run.store.InRange := by
    simp only [Store.InRange, hs, ClearStep.stage]
  have hunlink : clearStep s.run.store ≠ some .unlink := by simp [hdrain]
  exact sound_advance h hb hrange s.failed (.inr ⟨hunlink, rfl, rfl⟩)

theorem inv_next (s : State) (e : Event) (h : Inv s) (hok : Careful s e) (he : system.Enabled s e) :
    Inv (system.next s e) := by
  cases e with
  | base e => exact inv_base h he hok
  | fail i sectors => exact inv_fail h he
  | abort t =>
    exact h.same (same_abort s.run t) fun hb => sound_abort (h.sound hb).1 t
  | giveUp => exact inv_giveUp h he.2
  | clearFails fault => exact inv_clearFails h he.2 hok

end Steps

/-- In every run in which no log with something stale in it fails to be removed, and in what is left of
failed writes nothing is mistaken for a record, a crash in any state leaves what the waits that have
returned promise. -/
theorem waits_honoured (durability : Durability) (maxBytes : ℕ) (es : List Event) (s : State)
    (h : Run system Careful (initial durability maxBytes) es s) (hread : s.Readable) : Honoured s := by
  have hinv := h.invariant Inv inv_next (inv_initial durability maxBytes)
  intro maxBytes' heights
  obtain ⟨e, he, -, -, hpast⟩ := hinv.reopen hread maxBytes' heights
  exact ⟨e, he, hpast⟩

/-- A put has landed, the write of one of another key has left the first of its two sectors, and a `sync`
waits. A flush publishes the table, its `clear` throws because the log cannot be removed, the `sync` returns
and another flush begins. The next process writes on behind the sector. -/
def leftoverLog : List Event :=
  [.base (.write 0 (.put (.ofBytes [1]) [5]) 0), .base .step, .base .step, .base (.land 0),
    .base (.write 0 (.put (.ofBytes [2]) (List.replicate 600 6)) 0), .base .step, .base .step, .fail 1 [0],
    .base (.sync 1), .base (.flush 0), .base .step, .base .step, .base .step, .giveUp, .clearFails .remove,
    .base (.check 1), .base (.flush 2), .base .step, .base (.crash 100 fun _ => 0),
    .base (.write 0 (.put (.ofBytes [1]) [7]) 0), .base .step, .base .step, .fail 2 [0]]

theorem waits_honoured_leftoverLog : Honoured (leftoverLog.foldl system.next (initial .async 1000)) :=
  waits_honoured .async 1000 leftoverLog _ (Allowed.run (by decide +kernel)) (by decide +kernel)

/-- The same with a second put of the first key, which the log then hides from the next process. -/
def staleLog : List Event :=
  [.base (.write 0 (.put (.ofBytes [1]) [5]) 0), .base .step, .base .step, .base (.land 0),
    .base (.write 0 (.put (.ofBytes [1]) [6]) 0), .base .step, .base .step, .fail 1 [], .base (.sync 1),
    .base (.flush 0), .base .step, .base .step, .base .step, .giveUp, .clearFails .remove, .base (.check 1)]

theorem not_honoured_staleLog :
    ∃ s, Run system (fun _ _ => True) (initial .async 100) staleLog s ∧ s.Readable ∧ ¬ Honoured s := by
  refine ⟨staleLog.foldl system.next (initial .async 100), Allowed.run (by decide +kernel), by decide +kernel, ?_⟩
  intro h
  obtain ⟨e, he, hread⟩ := h 100 fun _ => 0
  have hget : (((staleLog.foldl system.next (initial .async 100)).reopen 100 fun _ => 0).toOption.map
      fun e => e.get (.ofBytes [1])) = some (some [5]) := by decide +kernel
  have hsecond : ((staleLog.foldl system.next (initial .async 100)).run.history.getLast?.map
      fun o => (o.op.key, o.op.value, covered o)) = some (.ofBytes [1], some [6], true) := by decide +kernel
  obtain ⟨o, hlast, hop⟩ := Option.map_eq_some_iff.mp hsecond
  obtain ⟨first, hhistory⟩ := List.getLast?_eq_some_iff.mp hlast
  obtain ⟨hkey, hval, hcov⟩ : o.op.key = .ofBytes [1] ∧ o.op.value = some [6] ∧ covered o = true := by
    simpa only [Prod.mk.injEq] using hop
  have hone := hread (.ofBytes [1])
  rw [hhistory, ← hkey] at hone
  have hsix := hone.eq_of_last hcov
  rw [he] at hget
  have hfive : e.get (.ofBytes [1]) = some [5] := Option.some.inj hget
  rw [hkey, hfive, hval] at hsix
  cases hsix

end LsmTree.FailedClear
