import LsmTree.FaultPoints
import LsmTree.WalLifecycle

/-!
# Failures that a flush clears

A failed write is recorded in `failure_`, every later append is refused, and only `clear`
takes the record back. `clear` runs inside a flush, and a flush of an empty memtable
does nothing. So the engine stays writable as long as a failure is never recorded while
the memtable is empty and no `put` or `del` is on its way to it.

Failures are recorded when completions are reaped or a wait for them times out, by any
thread and at any later time. With an empty memtable there must therefore be nothing left
to complete. This holds after `clear`, and a call that throws before anything is submitted
keeps it. It is broken by a call that has submitted a request and throws before it reaches
the memtable.
-/

namespace LsmTree.FailureLatch
open LittleEndian LayeredMap Merge WalRing Transition WalLifecycle

inductive Call where
  | write (op : Op) (height : Height)
  | flush

/-- Where the call stands that holds the engine lock: inside the append, between it and the
memtable, or in `flushMemtable` before the table is registered, before `clear`, inside it and
after it. -/
inductive Stage where
  | appending | appended | flushing | tabled | clearing | cleared
  deriving DecidableEq, Repr

structure Holder where
  thread : ThreadId
  call : Call
  stage : Stage

/-- An engine, its `WAL` object and the call that holds the engine lock. The log is described by the
ring, not by the `log` of the engine. -/
structure State where
  engine : Engine
  ring : WalLifecycle.State
  holder : Option Holder

/-- An engine just opened, on a log of `size` bytes. -/
def opened (e : Engine) (size : ℕ) : State := ⟨e, WalLifecycle.initial size, none⟩

/-- The steps of the log alone, and those of the call that holds the engine lock. The steps named
after a failure are the ones at which that call throws. -/
inductive Event where
  | ring (e : WalLifecycle.Event)
  | write (t : ThreadId) (op : Op) (height : Height) (submit : Submit)
  | appendReaped (t : ThreadId) (submit : Submit)
  | failAppended (t : ThreadId)
  | insert (t : ThreadId)
  | flush (t : ThreadId)
  | writeTable (t : ThreadId)
  | failTable (t : ThreadId) (fault : Option FlushFault)
  | failTabled (t : ThreadId)
  | clear (t : ThreadId)
  | clearEnd (t : ThreadId) (outcome : ClearOutcome)
  | failCleared (t : ThreadId)
  | compact (t : ThreadId)
  | failCompact (t : ThreadId) (fault : CompactionFault)

/-! ### The system -/

/-- The thread that takes a step of the log, but for an iteration of `reap`. -/
def caller : WalRing.Event → Option ThreadId
  | .append t _ _ | .reaped t _ | .wake t | .waitFailed t _ | .waitDurable t _ | .sync t | .check t | .lead t
  | .fdatasync t _ | .settle t => some t
  | .reap _ _ | .complete _ _ => none

/-- The steps of the log that the engine does not notice. -/
def Unnoticed (s : State) : WalLifecycle.Event → Prop
  | .wal (.append _ _ _) => False
  | .wal e => ∀ h ∈ s.holder, caller e ≠ some h.thread
  | .drainReap _ | .drainReaped | .drainWake | .drainFailed _ => s.holder.map Holder.stage = some .clearing
  | .refuse _ | .recover _ | .clear _ | .destroy _ | .clearEnd _ | .destroyEnd => False

/-- The step of the log that a step contains. -/
def ringEvent : Event → Option WalLifecycle.Event
  | .ring e => some e
  | .write t op _ submit => some (.wal (.append t op.entry submit))
  | .appendReaped t submit => some (.wal (.reaped t submit))
  | .clear t => some (.clear t)
  | .clearEnd _ outcome => some (.clearEnd outcome)
  | .failAppended _ | .insert _ | .flush _ | .writeTable _ | .failTable _ _ | .failTabled _ | .failCleared _
  | .compact _ | .failCompact _ _ => none

def State.At (s : State) (t : ThreadId) (stage : Stage) : Prop :=
  s.holder.map (fun h => (h.thread, h.stage)) = some (t, stage)

def EventEnabled (s : State) : Event → Prop
  | .ring e => Unnoticed s e
  | .write _ _ _ _ => s.holder.isNone
  | .appendReaped t _ => s.At t .appending
  | .failAppended t | .insert t => s.At t .appended
  | .flush t => s.holder.isNone ∧ s.ring.wal.pc t = .idle
  | .writeTable t | .failTable t _ => s.At t .flushing
  | .failTabled t | .clear t => s.At t .tabled
  | .clearEnd t _ => s.At t .clearing
  | .failCleared t | .compact t => s.At t .cleared
  | .failCompact t fault => s.At t .cleared ∧ s.engine.CompactionThrows fault

def Enabled (s : State) (e : Event) : Prop :=
  (∀ r ∈ ringEvent e, WalLifecycle.Enabled s.ring r) ∧ EventEnabled s e

def State.enter (s : State) (stage : Stage) : State :=
  { s with holder := s.holder.map fun h => { h with stage := stage } }

def State.leave (s : State) : State := { s with holder := none }

/-- After room was made in the submission queue there is none, or the submit of the append fails. -/
def appendThrows (w : WalRing.State) (t : ThreadId) (submit : Submit) : Prop :=
  match w.pc t with
  | .retry _ => ringEntries ≤ w.sq.length ∨ submit ≠ .accepted
  | _ => False

instance (w : WalRing.State) (t : ThreadId) (submit : Submit) : Decidable (appendThrows w t submit) :=
  match h : w.pc t with
  | .retry _ => decidable_of_iff (ringEntries ≤ w.sq.length ∨ submit ≠ .accepted) (by simp [appendThrows, h])
  | .idle | .reaping _ | .waiting _ | .leading _ _ | .draining _ _ | .parked _ _ | .syncing _ _ _ _ | .synced _ _ _
  | .aborting => isFalse (by simp [appendThrows, h])

/-- The step of the engine; `s'` is the state with the step of the log done. -/
def engineNext (s s' : State) : Event → State
  | .ring _ => s'
  | .write t op height submit =>
    match submit with
    | .accepted => { s' with holder := some ⟨t, .write op height, .appending⟩ }
    | .refused _ => s'
  | .appendReaped t submit =>
    if appendThrows s.ring.wal t submit then s'.leave
    else match s.ring.wal.pc t with
      | .retry _ => s'
      | _ => s'.enter .appended
  | .insert t =>
    match s.holder with
    | some ⟨_, .write op height, _⟩ =>
      { s' with
        engine := s.engine.append op height
        holder := if (s.engine.append op height).memtable.isFull then some ⟨t, .write op height, .flushing⟩ else none }
    | _ => s'
  | .flush t => if s.engine.memtable.empty then s' else { s' with holder := some ⟨t, .flush, .flushing⟩ }
  | .writeTable _ =>
    match s.engine.writeTable with
    | .ok e => { s' with engine := e }.enter .tabled
    | .error _ => s'
  | .failTable _ none => s'.leave
  | .failTable _ (some fault) =>
    match s.engine.failFlush fault with
    | .ok e => { s' with engine := e }.leave
    | .error _ => s'
  | .clear _ => s'.enter .clearing
  | .clearEnd _ outcome =>
    match outcome with
    | .done => { s' with engine := s.engine.clearLog }.enter .cleared
    | .removeFailed | .openFailed | .initFailed => s'.leave
  | .compact _ =>
    match s.engine.compact with
    | .ok e => { s' with engine := e }.leave
    | .error _ => s'
  | .failCompact _ fault =>
    match s.engine.failCompact fault with
    | .ok e => { s' with engine := e }.leave
    | .error _ => s'
  | .failAppended _ | .failTabled _ | .failCleared _ => s'.leave

def next (s : State) (e : Event) : State :=
  engineNext s { s with ring := (ringEvent e).elim s.ring (WalLifecycle.next s.ring) } e

def system : System State Event := ⟨Enabled, next⟩

/-! ### The condition and the property -/

/-- The numbers a compaction takes are within `int`. -/
def CompactionInRange (e : Engine) : Prop :=
  l0Threshold ≤ l0Count e.sstables →
    max (l1Start e.sstables) (l1Start e.dir.files) + (merge (layers e.sstables)).length ≤ intMax

/-- A call that has submitted a request does not throw on its way to an empty memtable, and the
numbers of the tables are within `int`. -/
def EventCareful (s : State) : Event → Prop
  | .appendReaped t submit => appendThrows s.ring.wal t submit → s.engine.memtable.empty = false
  | .failAppended _ => s.engine.memtable.empty = false
  | .writeTable _ => s.engine.sstCounter < intMax
  | .failTable _ fault => fault ≠ none → s.engine.sstCounter < intMax
  | .compact _ | .failCompact _ _ => CompactionInRange s.engine
  | .ring _ | .write _ _ _ _ | .insert _ | .flush _ | .failTabled _ | .clear _ | .clearEnd _ _ | .failCleared _ => True

/-- In addition, no call begins to use the ring once `clear` has thrown. -/
def Careful (s : State) (e : Event) : Prop := (∀ r ∈ ringEvent e, NoneAfterThrow s.ring r) ∧ EventCareful s e

instance (s : State) : (e : WalLifecycle.Event) → Decidable (Unnoticed s e)
  | .wal (.append _ _ _) => isFalse id
  | .wal (.reap _ _) | .wal (.reaped _ _) | .wal (.wake _) | .wal (.waitFailed _ _) | .wal (.waitDurable _ _)
  | .wal (.sync _) | .wal (.check _) | .wal (.lead _) | .wal (.fdatasync _ _) | .wal (.settle _)
  | .wal (.complete _ _) => inferInstanceAs (Decidable (∀ h ∈ s.holder, _))
  | .drainReap _ | .drainReaped | .drainWake | .drainFailed _ => inferInstanceAs (Decidable (_ = _))
  | .refuse _ | .recover _ | .clear _ | .destroy _ | .clearEnd _ | .destroyEnd => isFalse id

instance (s : State) (t : ThreadId) (stage : Stage) : Decidable (s.At t stage) := inferInstanceAs (Decidable (_ = _))

instance EventEnabled.decidable (s : State) : (e : Event) → Decidable (EventEnabled s e)
  | .ring e => inferInstanceAs (Decidable (Unnoticed s e))
  | .write _ _ _ _ => inferInstanceAs (Decidable (_ = _))
  | .appendReaped _ _ | .failAppended _ | .insert _ | .writeTable _ | .failTable _ _ | .failTabled _ | .clear _
  | .clearEnd _ _ | .failCleared _ | .compact _ => inferInstanceAs (Decidable (State.At _ _ _))
  | .flush _ | .failCompact _ _ => inferInstanceAs (Decidable (_ ∧ _))

instance (r : WalLifecycle.State) (e : WalLifecycle.Event) : Decidable (WalLifecycle.Enabled r e) :=
  inferInstanceAs (Decidable (_ ∧ _))

instance (s : State) (e : Event) : Decidable (Enabled s e) :=
  inferInstanceAs (Decidable ((∀ r ∈ ringEvent e, _) ∧ _))

instance (s : State) (e : Event) : Decidable (system.Enabled s e) := inferInstanceAs (Decidable (Enabled s e))

instance (e : Engine) : Decidable (CompactionInRange e) := inferInstanceAs (Decidable (_ → _))

instance EventCareful.decidable (s : State) : (e : Event) → Decidable (EventCareful s e)
  | .appendReaped _ _ | .failTable _ _ => inferInstanceAs (Decidable (_ → _))
  | .failAppended _ => inferInstanceAs (Decidable (_ = _))
  | .writeTable _ => inferInstanceAs (Decidable (_ < _))
  | .compact _ | .failCompact _ _ => inferInstanceAs (Decidable (CompactionInRange _))
  | .ring _ | .write _ _ _ _ | .insert _ | .flush _ | .failTabled _ | .clear _ | .clearEnd _ _ | .failCleared _ =>
    isTrue trivial

instance (s : State) (e : Event) : Decidable (Careful s e) :=
  inferInstanceAs (Decidable ((∀ r ∈ ringEvent e, _) ∧ _))

/-! ### The tables on disk -/

/-- The registered tables are on disk, and the next level 0 name is none of theirs. -/
structure OnDisk (e : Engine) : Prop where
  on_disk : ∀ t ∈ e.sstables, t ∈ e.dir.files
  l0_lt : ∀ t ∈ e.sstables, t.name.level = .l0 → t.name.counter < e.sstCounter

theorem OnDisk.construct {maxBytes : ℕ} {dir : Directory} {log : List Wal.Slot} {heights : ℕ → Height} {e : Engine}
    (h : Engine.construct maxBytes dir log heights = .ok e) : OnDisk e := by
  simp only [Engine.construct] at h
  split at h
  · cases h
  · split_ifs at h
    cases h
    exact ⟨fun t => Directory.mem_load.mp, fun t ht hl => lt_nextCounter ht hl⟩

/-- Publishing the next level 0 table replaces none of the registered ones. -/
theorem OnDisk.mem_publish {e : Engine} (h : OnDisk e) (hle : e.sstCounter ≤ intMax) {t : SSTable}
    (ht : t ∈ e.sstables) : t ∈ (e.dir.applyAll [.stage (e.table hle), .publish (e.table hle)]).files := by
  have hne : t.name ≠ (e.table hle).name := by
    intro heq
    have hlt := h.l0_lt t ht (heq ▸ rfl)
    rw [heq] at hlt
    exact lt_irrefl _ hlt
  simp only [Directory.applyAll, List.foldl_cons, List.foldl_nil, Directory.apply, List.mem_append, List.mem_filter,
    decide_eq_true_eq]
  exact .inl ⟨h.on_disk t ht, hne⟩

theorem OnDisk.writeTable {e e' : Engine} (h : OnDisk e) (he : e.writeTable = .ok e') :
    OnDisk e' ∧ e'.memtable = e.memtable := by
  obtain ⟨hlt, rfl⟩ := Engine.writeTable_ok he
  refine ⟨⟨?_, ?_⟩, rfl⟩
  · intro t ht
    rcases List.mem_append.mp ht with ht | ht
    · exact h.mem_publish hlt.le ht
    · rw [List.mem_singleton.mp ht]
      simp [Directory.applyAll, Directory.apply]
  · intro t ht
    exact l0_lt_succ h.l0_lt rfl (by simpa using ht)

theorem OnDisk.failFlush {e e' : Engine} {fault : FlushFault} (h : OnDisk e) (he : e.failFlush fault = .ok e') :
    OnDisk e' ∧ e'.memtable = e.memtable := by
  simp only [Engine.failFlush] at he
  split_ifs at he with hempty hlt hpublished
  · cases he
    exact ⟨h, rfl⟩
  · cases he
    exact ⟨⟨fun t ht => h.mem_publish hlt.le ht, fun t ht hl => Nat.lt_succ_of_lt (h.l0_lt t ht hl)⟩, rfl⟩
  · cases he
    exact ⟨⟨fun t ht => h.on_disk t ht, fun t ht hl => Nat.lt_succ_of_lt (h.l0_lt t ht hl)⟩, rfl⟩

/-- The outputs of a compaction stay when its inputs are removed. -/
theorem mem_files_compacted {d : Directory} {sstables outputs : List SSTable} (h : Outputs d sstables outputs)
    (hsub : ∀ t ∈ sstables, t ∈ d.files) {o : SSTable} (ho : o ∈ outputs) :
    o ∈ (d.applyAll (compactionSteps d sstables outputs)).files := by
  rw [files_compacted, applyAll_append, mem_files_applyAll_remove,
    files_applyAll_publish (nodup_files_append h.pairwise h.level h.fresh)]
  refine ⟨List.mem_append_right _ ho, ?_⟩
  intro s hs heq
  have hlt := h.fresh o ho s (hsub s hs) (heq ▸ h.level o ho)
  rw [heq] at hlt
  exact lt_irrefl _ hlt

theorem OnDisk.compact {e e' : Engine} (h : OnDisk e) (he : e.compact = .ok e') :
    OnDisk e' ∧ e'.memtable = e.memtable := by
  rcases Engine.compact_cases he with ⟨-, rfl⟩ | ⟨outputs, -, hout, rfl⟩
  · exact ⟨h, rfl⟩
  · have hspec := compactionOutputs_spec hout
    refine ⟨⟨fun t ht => mem_files_compacted hspec h.on_disk ht, ?_⟩, rfl⟩
    intro t ht hl
    have hl1 := hspec.level t ht
    rw [hl] at hl1
    cases hl1

theorem OnDisk.same {e e' : Engine} (h : OnDisk e) (he : e'.SameTables e) : OnDisk e' := by
  constructor
  · intro t ht
    rw [he.files]
    exact h.on_disk t (he.sstables ▸ ht)
  · intro t ht hl
    rw [he.sstCounter]
    exact h.l0_lt t (he.sstables ▸ ht) hl

/-- In range, a compaction returns. -/
theorem compact_isOk {e : Engine} (h : CompactionInRange e) : ∃ e', e.compact = .ok e' := by
  simp only [Engine.compact]
  split_ifs with hfew
  · exact ⟨e, rfl⟩
  · simp only [compactionOutputs, dif_pos (h (Nat.le_of_not_lt hfew))]
    exact ⟨_, rfl⟩

/-! ### Nothing left to complete -/

/-- The thread is about to submit, or waits for a completion. -/
def calm : Pc → Bool
  | .retry _ | .parked _ _ => false
  | .idle | .reaping _ | .waiting _ | .leading _ _ | .draining _ _ | .syncing _ _ _ _ | .synced _ _ _ | .aborting => true

/-- No failure is recorded, and none can come. -/
structure Quiet (w : WalRing.State) : Prop where
  failure : w.failure = none
  pending : w.pendingCqes = 0
  inFlight : w.inFlight = []
  cq : w.cq = []
  calm : ∀ t, calm (w.pc t) = true

theorem Quiet.move {w w' : WalRing.State} (h : Quiet w) {t : ThreadId} {p : Pc}
    (hpc : w'.pc = Function.update w.pc t p) (hp : FailureLatch.calm p = true) (hfailure : w'.failure = w.failure)
    (hpending : w'.pendingCqes = w.pendingCqes) (hinFlight : w'.inFlight = w.inFlight) (hcq : w'.cq = w.cq) :
    Quiet w' := by
  refine ⟨hfailure.trans h.failure, hpending.trans h.pending, hinFlight.trans h.inFlight, hcq.trans h.cq, ?_⟩
  rw [hpc]
  exact (Function.forall_update_iff w.pc fun _ p => FailureLatch.calm p = true).mpr ⟨hp, fun u _ => h.calm u⟩

theorem quiet_refused {w : WalRing.State} (h : Quiet w) (t : ThreadId) (e : Wal.Entry) (errno : ℕ) :
    Quiet (startAppend (.refused errno) t e w) := by
  simp only [startAppend, submitOwn]
  split_ifs
  · exact h.move rfl rfl rfl rfl rfl rfl
  · exact h

theorem quiet_reaped {w : WalRing.State} (h : Quiet w) (t : ThreadId) (submit : Submit) :
    Quiet (afterReap submit t w) := by
  have hcalm := h.calm t
  cases hpc : w.pc t with
  | retry e =>
    rw [hpc] at hcalm
    cases hcalm
  | reaping r =>
    simp only [afterReap, hpc]
    exact h.move rfl rfl rfl rfl rfl rfl
  | draining ticket epoch =>
    simp only [afterReap, hpc, h.pending, lt_irrefl, if_false, finishDrain, h.failure]
    exact h.move rfl rfl h.failure.symm h.pending.symm rfl rfl
  | idle | waiting | leading | parked | syncing | synced | aborting =>
    simp only [afterReap, hpc]
    exact h

/-- While there is nothing to complete, only an append changes that. -/
theorem quiet_next {w : WalRing.State} {e : WalRing.Event} (h : Quiet w) (he : WalRing.Enabled w e)
    (hnot : ∀ t entry submit, e ≠ .append t entry submit) : Quiet (WalRing.next w e) := by
  cases e with
  | append t entry submit => exact absurd rfl (hnot t entry submit)
  | reap t submit => exact absurd h.cq he.2.2
  | reaped t submit => exact quiet_reaped h t submit
  | wake t => exact absurd h.cq he.2
  | waitFailed t errno =>
    have hcalm := h.calm t
    simp only [WalRing.next]
    split
    · rename_i hpc
      rw [hpc] at hcalm
      cases hcalm
    · exact h
  | waitDurable t ticket => exact h.move rfl rfl rfl rfl rfl rfl
  | sync t => exact h.move rfl rfl rfl rfl rfl rfl
  | check t =>
    simp only [WalRing.next]
    split
    · simp only [checkTicket]
      split_ifs
      · exact h.move rfl rfl rfl rfl rfl rfl
      · exact h.move rfl rfl rfl rfl rfl rfl
      · exact h
      · exact h.move rfl rfl rfl rfl rfl rfl
    · exact h
  | lead t =>
    simp only [WalRing.next]
    split
    · exact h.move rfl rfl rfl rfl rfl rfl
    · exact h
  | fdatasync t ok =>
    simp only [WalRing.next]
    split
    · split_ifs
      · exact h.move rfl rfl rfl rfl rfl rfl
      · exact h.move rfl rfl rfl rfl rfl rfl
    · exact h
  | settle t =>
    simp only [WalRing.next, settle]
    split
    · exact h.move rfl rfl rfl rfl rfl rfl
    · exact h.move rfl rfl rfl rfl rfl rfl
    · exact h
  | complete i res =>
    obtain ⟨q, hq, -⟩ := he
    rw [h.inFlight] at hq
    cases hq

/-- `clear` leaves nothing to complete, whatever its drain has left. -/
theorem quiet_clearEnd {r : WalLifecycle.State} (h : WalLifecycle.Inv (r.clearEnd .done)) :
    Quiet (r.clearEnd .done).wal := by
  refine ⟨rfl, rfl, rfl, rfl, ?_⟩
  intro t
  have hfree : ¬ holdsMu (r.wal.pc t) = true := fun hholds => by cases h.lock t hholds
  simp only [State.clearEnd]
  cases hpc : r.wal.pc t with
  | retry e => exact absurd (hpc ▸ rfl) hfree
  | parked ticket epoch => exact absurd (hpc ▸ rfl) hfree
  | idle | reaping | waiting | leading | draining | syncing | synced | aborting => rfl

/-! ### The invariant -/

/-- What is known between two steps, from where the call stands that holds the lock. -/
def Stands (e : Engine) (w : WalRing.State) : Option Stage → Prop
  | some .appending | some .appended => True
  | some .flushing | some .tabled | some .clearing => e.memtable.empty = false
  | some .cleared => e.memtable.empty = true ∧ Quiet w
  | none => e.memtable.empty = true → Quiet w

structure Inv (s : State) : Prop where
  ring : WalLifecycle.Inv s.ring
  tables : OnDisk s.engine
  stands : Stands s.engine s.ring.wal (s.holder.map Holder.stage)

theorem State.At.stage {s : State} {t : ThreadId} {stage : Stage} (h : s.At t stage) :
    s.holder.map Holder.stage = some stage := by
  obtain ⟨holder, hholder, heq⟩ := Option.map_eq_some_iff.mp h
  rw [hholder, Option.map_some, (Prod.mk.inj heq).2]

/-- The call goes on to its next stage. -/
theorem inv_enter {e : Engine} {ring : WalLifecycle.State} {holder : Option Holder} {old : Stage}
    (hring : WalLifecycle.Inv ring) (htables : OnDisk e) (hold : holder.map Holder.stage = some old) {stage : Stage}
    (hstands : Stands e ring.wal (some stage)) : Inv (State.enter ⟨e, ring, holder⟩ stage) := by
  obtain ⟨h, rfl, -⟩ := Option.map_eq_some_iff.mp hold
  exact ⟨hring, htables, hstands⟩

theorem Inv.stands_at {s : State} (h : Inv s) {t : ThreadId} {stage : Stage} (hat : s.At t stage) :
    Stands s.engine s.ring.wal (some stage) := hat.stage ▸ h.stands

/-- With something in the memtable, a call may end. -/
theorem stands_none {e : Engine} {w : WalRing.State} (h : e.memtable.empty = false) : Stands e w none := by
  intro hempty
  rw [h] at hempty
  cases hempty

theorem ring_next {s : State} {e : Event} (h : Inv s) (hok : Careful s e) (he : Enabled s e) :
    WalLifecycle.Inv ((ringEvent e).elim s.ring (WalLifecycle.next s.ring)) := by
  cases hr : ringEvent e with
  | none => exact h.ring
  | some r => exact WalLifecycle.inv_next s.ring r h.ring (hok.1 r hr) (he.1 r hr)

theorem Stands.mono {e : Engine} {w w' : WalRing.State} {stage : Option Stage} (h : Stands e w stage)
    (hquiet : stage ≠ some .clearing → Quiet w → Quiet w') : Stands e w' stage := by
  cases stage with
  | none => exact fun hempty => hquiet (by simp) (h hempty)
  | some stage =>
    cases stage with
    | cleared => exact ⟨h.1, hquiet (by simp) h.2⟩
    | appending | appended | flushing | tabled | clearing => exact h

theorem inv_ring {s : State} {r : WalLifecycle.Event} (h : Inv s) (hok : Careful s (.ring r))
    (he : Enabled s (.ring r)) : Inv (next s (.ring r)) := by
  refine ⟨ring_next h hok he, h.tables, h.stands.mono ?_⟩
  intro hstage hquiet
  have hen := (he.1 r rfl).2
  have hdrain : ∀ w, s.holder.map Holder.stage = some .clearing → Quiet w := fun _ heq => absurd heq hstage
  cases r with
  | wal e =>
    refine quiet_next hquiet hen.1 ?_
    rintro t entry submit rfl
    exact he.2
  | drainReap submit => exact hdrain _ he.2
  | drainReaped => exact hdrain _ he.2
  | drainWake => exact hdrain _ he.2
  | drainFailed errno => exact hdrain _ he.2
  | refuse | recover | clear | destroy | clearEnd | destroyEnd => exact he.2.elim

theorem inv_write {s : State} {t : ThreadId} {op : Op} {height : Height} {submit : Submit} (h : Inv s)
    (hok : Careful s (.write t op height submit)) (he : Enabled s (.write t op height submit)) :
    Inv (next s (.write t op height submit)) := by
  have hring := ring_next h hok he
  cases submit with
  | accepted => exact ⟨hring, h.tables, trivial⟩
  | refused errno =>
    refine ⟨hring, h.tables, ?_⟩
    have hnone : s.holder = none := Option.isNone_iff_eq_none.mp he.2
    have hstands := h.stands
    simp only [hnone, Option.map_none] at hstands
    simp only [next, engineNext, hnone, Option.map_none]
    exact fun hempty => quiet_refused (hstands hempty) t op.entry errno

theorem inv_appendReaped {s : State} {t : ThreadId} {submit : Submit} (h : Inv s)
    (hok : Careful s (.appendReaped t submit)) (he : Enabled s (.appendReaped t submit)) :
    Inv (next s (.appendReaped t submit)) := by
  have hring := ring_next h hok he
  have hstage := State.At.stage he.2
  simp only [next, engineNext]
  split_ifs with hthrows
  · exact ⟨hring, h.tables, stands_none (hok.2 hthrows)⟩
  · split
    · refine ⟨hring, h.tables, ?_⟩
      simp only [hstage]
      trivial
    · exact inv_enter hring h.tables hstage trivial

theorem empty_append (e : Engine) (op : Op) (height : Height) : (e.append op height).memtable.empty = false := by
  have hne := e.entries_append_ne_nil op height
  rw [← Bool.not_eq_true, Memtable.empty_iff]
  exact hne

theorem inv_insert {s : State} {t : ThreadId} (h : Inv s) : Inv (next s (.insert t)) := by
  simp only [next, engineNext]
  split
  · rename_i op height _ _
    refine ⟨h.ring, ⟨h.tables.on_disk, h.tables.l0_lt⟩, ?_⟩
    have hempty := empty_append s.engine op height
    split_ifs
    · exact hempty
    · exact stands_none hempty
  · exact h

theorem inv_flush {s : State} {t : ThreadId} (h : Inv s) : Inv (next s (.flush t)) := by
  simp only [next, engineNext]
  split_ifs with hempty
  · exact h
  · exact ⟨h.ring, h.tables, Bool.eq_false_of_not_eq_true hempty⟩

theorem inv_clearEnd {s : State} {t : ThreadId} {outcome : ClearOutcome} (h : Inv s)
    (hok : Careful s (.clearEnd t outcome)) (he : Enabled s (.clearEnd t outcome)) :
    Inv (next s (.clearEnd t outcome)) := by
  have hring := ring_next h hok he
  have hfull : s.engine.memtable.empty = false := h.stands_at he.2
  cases outcome with
  | done =>
    have htables : OnDisk s.engine.clearLog := ⟨h.tables.on_disk, h.tables.l0_lt⟩
    have hstands : Stands s.engine.clearLog (s.ring.clearEnd .done).wal (some .cleared) :=
      ⟨rfl, quiet_clearEnd hring⟩
    exact inv_enter hring htables (State.At.stage he.2) hstands
  | removeFailed => exact ⟨hring, h.tables, stands_none hfull⟩
  | openFailed => exact ⟨hring, h.tables, stands_none hfull⟩
  | initFailed => exact ⟨hring, h.tables, stands_none hfull⟩

/-- A call that throws or returns with a memtable it has not changed. -/
theorem Inv.leave {s : State} (h : Inv s) {e : Engine} (htables : OnDisk e) (hmem : e.memtable = s.engine.memtable)
    (hstands : Stands s.engine s.ring.wal none) : Inv (State.leave { s with engine := e }) := by
  refine ⟨h.ring, htables, ?_⟩
  intro hempty
  exact hstands (hmem ▸ hempty)

theorem inv_next (s : State) (e : Event) (h : Inv s) (hok : Careful s e) (he : Enabled s e) : Inv (next s e) := by
  cases e with
  | ring r => exact inv_ring h hok he
  | write t op height submit => exact inv_write h hok he
  | appendReaped t submit => exact inv_appendReaped h hok he
  | failAppended t => exact h.leave h.tables rfl (stands_none hok.2)
  | insert t => exact inv_insert h
  | flush t => exact inv_flush h
  | writeTable t =>
    have hfull : s.engine.memtable.empty = false := h.stands_at he.2
    simp only [next, engineNext]
    split
    · rename_i e' he'
      obtain ⟨htables, hmem⟩ := h.tables.writeTable he'
      exact inv_enter h.ring htables (State.At.stage he.2) ((congrArg Memtable.empty hmem).trans hfull)
    · exact h
  | failTable t fault =>
    have hfull : s.engine.memtable.empty = false := h.stands_at he.2
    cases fault with
    | none => exact h.leave h.tables rfl (stands_none hfull)
    | some fault =>
      simp only [next, engineNext]
      split
      · rename_i e' he'
        obtain ⟨htables, hmem⟩ := h.tables.failFlush he'
        exact h.leave htables hmem (stands_none hfull)
      · exact h
  | failTabled t => exact h.leave h.tables rfl (stands_none (h.stands_at he.2))
  | clear t =>
    have hfull : s.engine.memtable.empty = false := h.stands_at he.2
    exact inv_enter (ring_next h hok he) h.tables (State.At.stage he.2) hfull
  | clearEnd t outcome => exact inv_clearEnd h hok he
  | failCleared t =>
    have hcleared := h.stands_at he.2
    exact h.leave h.tables rfl fun _ => hcleared.2
  | compact t =>
    have hcleared := h.stands_at he.2
    simp only [next, engineNext]
    split
    · rename_i e' he'
      obtain ⟨htables, hmem⟩ := h.tables.compact he'
      exact h.leave htables hmem fun _ => hcleared.2
    · exact h
  | failCompact t fault =>
    have hcleared := h.stands_at he.2.1
    simp only [next, engineNext]
    split
    · rename_i e' he'
      have hsame := Engine.failCompact_same he'
      exact h.leave (h.tables.same hsame) hsame.memtable fun _ => hcleared.2
    · exact h

/-! ### After a flush -/

/-- With an empty memtable, reads come from the tables. -/
theorem OnDisk.durable {e : Engine} (h : OnDisk e) (hempty : e.memtable.empty = true) {k : Key} {v : Bytes}
    (hget : e.get k = some v) : ∃ t ∈ e.sstables, t ∈ e.dir.files ∧ t.get k = some (some v) := by
  have hnone : e.memtable.get k = none := by
    rw [Memtable.get_eq, (Memtable.empty_iff _).mp hempty, lookup_nil]
  simp only [Engine.get, hnone] at hget
  obtain ⟨t, ht, htk⟩ := List.exists_of_findSome?_eq_some (Option.join_eq_some_iff.mp hget)
  have hmem := List.mem_reverse.mp ht
  exact ⟨t, hmem, h.on_disk t hmem, htk⟩

end LsmTree.FailureLatch
