import LsmTree.CompactionRun
import LsmTree.FailedFlush

/-!
# Calls that throw at a fault point

A call of `put` or `del` may throw before or after its log record is submitted, before or
after its flush has registered the new table, after the log is cleared, or inside the
compaction. All but one of these leave a memory image that the files describe: until the
log is cleared it holds the records of the memtable, and a compaction that throws takes
its outputs back.

The exception is `wal.after_append`. The record is in the log, but the key does not reach
the memtable, so the engine goes on without it while a restart would replay it. What is
pending in this way, the newest such record of each key, stays until the key is written
again or the log is cleared.
-/

namespace LsmTree
open LittleEndian LayeredMap Merge

/-- Where a call of `put` or `del` throws. -/
inductive FaultPoint where
  | beforeAppend
  | afterAppend
  | beforeSst
  | afterSst
  | afterWalClear
  | compaction (fault : CompactionFault)
  deriving DecidableEq, Repr

def FaultPoint.compaction? : FaultPoint → Option CompactionFault
  | .compaction fault => some fault
  | _ => none

/-- An engine, and the records in its log that are newer than what it has in memory for their key. -/
structure PointRun where
  engine : Engine
  pending : List (Key × Option Bytes)

/-- A call, with the point at which it throws if it reaches it. -/
inductive PointCall where
  | write (op : Op) (height : Height) (point : Option FaultPoint)
  | sync

namespace PointRun

def start (maxBytes : ℕ) : PointRun := ⟨.fresh maxBytes, []⟩

/-- `flushMemtable`. -/
def flushMemtable (r : PointRun) (point : Option FaultPoint) : Except Failure PointRun :=
  if r.engine.memtable.empty then .ok r
  else if point = some .beforeSst then .ok r
  else match r.engine.writeTable with
    | .error f => .error f
    | .ok e =>
      if point = some .afterSst then .ok { r with engine := e }
      else if point = some .afterWalClear then .ok ⟨e.clearLog, []⟩
      else match e.clearLog.compactWith (point.bind FaultPoint.compaction?) with
        | .error f => .error f
        | .ok e' => .ok ⟨e', []⟩

/-- The record is submitted, and the key does not reach the memtable. -/
def logOnly (r : PointRun) (op : Op) : PointRun :=
  ⟨{ r.engine with log := r.engine.log ++ [⟨op.entry, .inFlight⟩] }, (op.key, op.value) :: r.pending⟩

def append (r : PointRun) (op : Op) (height : Height) : PointRun :=
  ⟨r.engine.append op height, r.pending.filter (·.1 ≠ op.key)⟩

/-- `put` and `del`. -/
def write (r : PointRun) (op : Op) (height : Height) (point : Option FaultPoint) : Except Failure PointRun :=
  if op.entry.Fits then
    if point = some .beforeAppend then .ok r
    else if point = some .afterAppend then .ok (r.logOnly op)
    else if (r.append op height).engine.memtable.isFull then (r.append op height).flushMemtable point
    else .ok (r.append op height)
  else .ok r

/-- `sync`: every record has landed when it returns. -/
def sync (r : PointRun) : PointRun := { r with engine := { r.engine with log := Engine.drain r.engine.log } }

def call (r : PointRun) : PointCall → Except Failure PointRun
  | .write op height point => r.write op height point
  | .sync => .ok r.sync

def calls : PointRun → List PointCall → Except Failure PointRun
  | r, [] => .ok r
  | r, c :: cs =>
    match r.call c with
    | .error f => .error f
    | .ok r' => r'.calls cs

/-- The numbers that a flush takes are within `int`, as far as it gets. -/
def FlushInRange (r : PointRun) (point : Option FaultPoint) : Prop :=
  point ≠ some .beforeSst → r.engine.sstCounter < intMax ∧
    (point ≠ some .afterSst → point ≠ some .afterWalClear → r.engine.CompactionFits)

instance (r : PointRun) (point : Option FaultPoint) : Decidable (r.FlushInRange point) :=
  inferInstanceAs (Decidable (_ → _ ∧ (_ → _ → _)))

def InRange (r : PointRun) : PointCall → Prop
  | .write op height point =>
    op.entry.Fits → point ≠ some .beforeAppend → point ≠ some .afterAppend →
      (r.append op height).engine.memtable.isFull → (r.append op height).FlushInRange point
  | .sync => True

instance (r : PointRun) : (c : PointCall) → Decidable (r.InRange c)
  | .write _ _ _ => inferInstanceAs (Decidable (_ → _ → _ → _ → _))
  | .sync => inferInstanceAs (Decidable True)

def CallsInRange : PointRun → List PointCall → Prop
  | _, [] => True
  | r, c :: cs => r.InRange c ∧
    match r.call c with
    | .error _ => True
    | .ok r' => r'.CallsInRange cs

instance CallsInRange.decidable : (r : PointRun) → (cs : List PointCall) → Decidable (r.CallsInRange cs)
  | _, [] => isTrue trivial
  | r, c :: cs =>
    have : Decidable (match r.call c with
        | .error _ => True
        | .ok r' => r'.CallsInRange cs) :=
      match r.call c with
      | .error _ => isTrue trivial
      | .ok r' => CallsInRange.decidable r' cs
    inferInstanceAs (Decidable (_ ∧ _))

end PointRun

/-- An engine that opens the files as they are answers as this one does. -/
def Engine.RecoversAlike (e : Engine) : Prop :=
  ∀ heights : ℕ → Height, ∃ e', Engine.construct e.memtable.maxBytes e.dir e.log heights = .ok e' ∧
    ∀ k, e'.get k = e.get k

/-- The log can be read back, and no pending record would change what is read. -/
def PointRun.Settled (r : PointRun) : Prop :=
  Wal.writeOffset r.engine.log ≤ Wal.maxRecoveryBytes ∧
    ∀ k v, lookup k r.pending = some v → r.engine.get k = v

/-! ### What the files describe -/

/-- The table list is what the directory would be loaded as, and the log describes the memtable
and what is pending. -/
structure PointRun.Described (r : PointRun) : Prop where
  ordered : r.engine.Ordered
  counter_le : r.engine.sstCounter ≤ intMax
  logged : ∀ k, newest k (r.engine.log.map fun s => Engine.recordLayer s.entry) =
    (lookup k r.pending).or (lookup k r.engine.memtable.entries)
  fits : ∀ s ∈ r.engine.log, s.entry.Fits ∧ s.write ≠ .lost

namespace Engine

theorem SameTables.ordered {e f : Engine} (h : e.SameTables f) (hf : f.Ordered) : e.Ordered where
  load_eq := by
    rw [h.sstables, ← hf.load_eq]
    simp only [Directory.load, h.files]
  l0_lt := by
    rw [h.sstables, h.sstCounter]
    exact hf.l0_lt

/-- A compaction whose numbers fit, throwing or not, leaves a table list that describes the files. -/
theorem Ordered.compactWith {e : Engine} (h : e.Ordered) (hcounter : e.sstCounter ≤ intMax)
    (hfits : l0Threshold ≤ l0Count e.sstables → l1Start e.dir.files +
      (liveKeys (layers e.sstables) + (l1MaxFileEntries - 1)) / l1MaxFileEntries ≤ intMax)
    (fault : Option CompactionFault) :
    ∃ e', e.compactWith fault = .ok e' ∧ e'.Ordered ∧ e'.sstCounter ≤ intMax ∧
      e'.memtable = e.memtable ∧ e'.log = e.log := by
  have hreturns : ∃ e', e.compact = .ok e' ∧ e'.Ordered ∧ e'.sstCounter ≤ intMax ∧
      e'.memtable = e.memtable ∧ e'.log = e.log := by
    obtain ⟨e', he'⟩ := h.compact_isOk hfits
    obtain ⟨hord, -, hmem, hlog⟩ := h.compact he'
    refine ⟨e', he', hord, ?_, hmem, hlog⟩
    rcases compact_cases he' with ⟨-, rfl⟩ | ⟨outputs, -, -, rfl⟩
    · exact hcounter
    · exact Nat.zero_le _
  cases fault with
  | none => exact hreturns
  | some fault =>
    simp only [Engine.compactWith]
    split_ifs with hthrows
    · have hfail : ∃ e', e.failCompact fault = .ok e' := by
        have hlen : ((merge (layers e.sstables)).take (fault.numbered e.outputCount)).length ≤
            (liveKeys (layers e.sstables) + (l1MaxFileEntries - 1)) / l1MaxFileEntries := by
          rw [← length_merge (sorted_layers _), List.length_take]
          exact Nat.min_le_right _ _
        have hfit := hfits hthrows.1
        simp only [Engine.failCompact, firstOutputs, h.l1Start_eq]
        rw [dif_pos (by omega)]
        exact ⟨_, rfl⟩
      obtain ⟨e', he'⟩ := hfail
      have hsame := failCompact_same he'
      exact ⟨e', he', hsame.ordered h, hsame.sstCounter ▸ hcounter, hsame.memtable, hsame.log⟩
    · exact hreturns

end Engine

namespace PointRun.Described

theorem start (maxBytes : ℕ) : (PointRun.start maxBytes).Described where
  ordered := Engine.ordered_fresh maxBytes
  counter_le := Nat.zero_le _
  logged := by simp [PointRun.start, Engine.fresh]
  fits := by simp [PointRun.start, Engine.fresh]

section Steps
variable {r : PointRun}

theorem logOnly (h : r.Described) {op : Op} (hfits : op.entry.Fits) : (r.logOnly op).Described where
  ordered := ⟨h.ordered.load_eq, h.ordered.l0_lt⟩
  counter_le := h.counter_le
  logged := by
    intro k
    simp only [PointRun.logOnly, Engine.newest_log_append, lookup_cons, h.logged k]
    split_ifs <;> rfl
  fits := Engine.kept_append h.fits hfits

theorem append (h : r.Described) {op : Op} (hfits : op.entry.Fits) (height : Height) :
    (r.append op height).Described where
  ordered := ⟨h.ordered.load_eq, h.ordered.l0_lt⟩
  counter_le := h.counter_le
  logged := by
    intro k
    simp only [PointRun.append, Engine.append, Engine.newest_log_append, h.logged k, Memtable.entries_update,
      lookup_upsert, lookup_filter (· ≠ op.key)]
    by_cases hk : k = op.key
    · simp [hk]
    · simp [hk, Ne.symm hk]
  fits := Engine.kept_append h.fits hfits

/-- With the log cleared and the memtable replaced nothing is pending. -/
theorem of_cleared {e : Engine} (hord : e.Ordered) (hcounter : e.sstCounter ≤ intMax)
    (hmem : e.memtable.entries = []) (hlog : e.log = []) : (⟨e, []⟩ : PointRun).Described :=
  ⟨hord, hcounter, by simp [hmem, hlog], by simp [hlog]⟩

theorem flushMemtable (h : r.Described) {point : Option FaultPoint} (hrange : r.FlushInRange point) :
    ∃ r', r.flushMemtable point = .ok r' ∧ r'.Described := by
  rw [PointRun.flushMemtable]
  by_cases hempty : r.engine.memtable.empty = true
  · rw [if_pos hempty]
    exact ⟨r, rfl, h⟩
  by_cases hbefore : point = some .beforeSst
  · rw [if_neg hempty, if_pos hbefore]
    exact ⟨r, rfl, h⟩
  · obtain ⟨hlt, hcompaction⟩ := hrange hbefore
    obtain ⟨e, he⟩ := Engine.writeTable_isOk hlt
    obtain ⟨hord, hlayers, hcount, hstart, hnext, hmem, hlog⟩ := h.ordered.writeTable he
    have hcounter : e.sstCounter ≤ intMax := by omega
    simp only [if_neg hempty, if_neg hbefore, he]
    by_cases hafter : point = some .afterSst
    · rw [if_pos hafter]
      refine ⟨_, rfl, hord, hcounter, ?_, ?_⟩
      · simp only [hmem, hlog]
        exact h.logged
      · simp only [hlog]
        exact h.fits
    by_cases hclear : point = some .afterWalClear
    · rw [if_neg hafter, if_pos hclear]
      exact ⟨_, rfl, of_cleared hord.clearLog hcounter (Memtable.entries_new _) rfl⟩
    · have hfits : l0Threshold ≤ l0Count e.clearLog.sstables → l1Start e.clearLog.dir.files +
          (liveKeys (layers e.clearLog.sstables) + (l1MaxFileEntries - 1)) / l1MaxFileEntries ≤ intMax := by
        intro hmany
        show l1Start e.dir.files + _ ≤ intMax
        rw [hstart, show layers e.clearLog.sstables = r.engine.contents from hlayers]
        exact hcompaction hafter hclear (hcount ▸ hmany)
      obtain ⟨e', he', hord', hcounter', hmem', hlog'⟩ := hord.clearLog.compactWith hcounter hfits
        (point.bind FaultPoint.compaction?)
      simp only [if_neg hafter, if_neg hclear, he']
      refine ⟨_, rfl, of_cleared hord' hcounter' ?_ ?_⟩
      · rw [hmem']
        exact Memtable.entries_new _
      · rw [hlog']
        rfl

theorem sync (h : r.Described) : r.sync.Described where
  ordered := ⟨h.ordered.load_eq, h.ordered.l0_lt⟩
  counter_le := h.counter_le
  logged := by
    intro k
    have hlayers := congrArg (List.map Engine.recordLayer) (Engine.map_entry_drain r.engine.log)
    rw [List.map_map, List.map_map] at hlayers
    exact (congrArg (newest k) hlayers).trans (h.logged k)
  fits := by
    intro s hs
    have hlanded := Engine.drain_landed fun s hs => (h.fits s hs).2
    exact ⟨Engine.fits_drain (fun s hs => (h.fits s hs).1) s hs, by simp [hlanded s hs]⟩

theorem call (h : r.Described) {c : PointCall} (hrange : r.InRange c) :
    ∃ r', r.call c = .ok r' ∧ r'.Described := by
  cases c with
  | sync => exact ⟨_, rfl, h.sync⟩
  | write op height point =>
    rw [PointRun.call, PointRun.write]
    split_ifs with hfits hbefore hafter hfull
    · exact ⟨r, rfl, h⟩
    · exact ⟨_, rfl, h.logOnly hfits⟩
    · exact (h.append hfits height).flushMemtable (hrange hfits hbefore hafter hfull)
    · exact ⟨_, rfl, h.append hfits height⟩
    · exact ⟨r, rfl, h⟩

theorem calls (h : r.Described) {cs : List PointCall} (hrange : r.CallsInRange cs) :
    ∃ r', r.calls cs = .ok r' ∧ r'.Described := by
  induction cs generalizing r with
  | nil => exact ⟨r, rfl, h⟩
  | cons c cs ih =>
    obtain ⟨hc, hcs⟩ := hrange
    obtain ⟨f, hf, hdesc⟩ := h.call hc
    rw [hf] at hcs
    obtain ⟨r', hr', hend⟩ := ih hdesc hcs
    refine ⟨r', ?_, hend⟩
    rw [PointRun.calls, hf]
    exact hr'

theorem nextCounter_le (h : r.Described) : nextCounter .l0 r.engine.dir.load ≤ intMax := by
  rw [h.ordered.load_eq]
  exact (LsmTree.nextCounter_le h.ordered.l0_lt).trans h.counter_le

/-- What an engine on a copy of the files answers, all records having landed. -/
theorem recovered_get (h : r.Described) (hsize : Wal.writeOffset r.engine.log ≤ Wal.maxRecoveryBytes)
    (heights : ℕ → Height) :
    ∃ e', Engine.construct r.engine.memtable.maxBytes r.engine.dir (Engine.drain r.engine.log) heights = .ok e' ∧
      ∀ k, e'.get k = (lookup k r.pending).getD (r.engine.get k) := by
  obtain ⟨m, hconstruct, hmem⟩ := Engine.construct_drain h.fits h.nextCounter_le hsize
    r.engine.memtable.maxBytes heights
  refine ⟨_, hconstruct, ?_⟩
  intro k
  rw [Engine.get_eq, Engine.get_eq, resolve, resolve, Engine.contents, Engine.contents,
    newest_append_singleton, newest_append_singleton, hmem, h.logged k]
  simp only [h.ordered.load_eq]
  cases lookup k r.pending <;> rfl

theorem writeOffset_le (h : r.Described) {heights : ℕ → Height} {maxBytes : ℕ} {e' : Engine}
    (he' : Engine.construct maxBytes r.engine.dir (Engine.drain r.engine.log) heights = .ok e') :
    Wal.writeOffset r.engine.log ≤ Wal.maxRecoveryBytes := by
  have hlanded := Engine.drain_landed fun s hs => (h.fits s hs).2
  have hlen : (Wal.image (Engine.drain r.engine.log)).length = Wal.writeOffset r.engine.log := by
    rw [Wal.image_of_all_landed hlanded, Wal.length_encodeLog, Engine.map_entry_drain, List.map_map]
    rfl
  rw [Engine.construct] at he'
  split at he'
  case h_1 => cases he'
  case h_2 entries hrecover =>
    rw [← hlen]
    exact (Wal.recover_ok_iff.mp hrecover).1

theorem recoversAlike_iff (h : r.Described) : r.sync.engine.RecoversAlike ↔ r.Settled := by
  constructor
  · intro halike
    obtain ⟨e', he', hget⟩ := halike fun _ => 0
    have hsize := h.writeOffset_le he'
    refine ⟨hsize, ?_⟩
    intro k v hpending
    obtain ⟨f, hf, hread⟩ := h.recovered_get hsize fun _ => 0
    have hsame : f = e' := Except.ok.inj (hf.symm.trans he')
    have hvalue := hread k
    rw [hsame, hget k, hpending, Option.getD_some] at hvalue
    exact hvalue
  · rintro ⟨hsize, hsettled⟩ heights
    obtain ⟨e', he', hread⟩ := h.recovered_get hsize heights
    refine ⟨e', he', ?_⟩
    intro k
    show e'.get k = r.engine.get k
    rw [hread]
    cases hpending : lookup k r.pending with
    | none => rfl
    | some v => exact (hsettled k v hpending).symm

end Steps

end PointRun.Described

/-- After a `sync` of a run in which any calls have thrown at any of the points, a copy of the files
opens and answers as the live engine does exactly if the log can be read back and the records
of calls that threw at `wal.after_append` make no difference. -/
theorem recovery_agrees_iff (maxBytes : ℕ) (cs : List PointCall)
    (hrange : (PointRun.start maxBytes).CallsInRange cs) :
    ∃ r, (PointRun.start maxBytes).calls cs = .ok r ∧ (r.sync.engine.RecoversAlike ↔ r.Settled) := by
  obtain ⟨r, hr, hdesc⟩ := (PointRun.Described.start maxBytes).calls hrange
  exact ⟨r, hr, hdesc.recoversAlike_iff⟩

/-- Writes that throw at every other point, under a memtable that is full at once. -/
def throwingWrites : List PointCall :=
  [.write (.put (.ofBytes [1]) [5]) 0 (some .beforeSst), .write (.put (.ofBytes [2]) [6]) 0 (some .beforeAppend),
    .write (.put (.ofBytes [2]) [7]) 0 (some .afterSst), .sync, .write (.del (.ofBytes [1])) 0 (some .afterWalClear),
    .write (.put (.ofBytes [3]) [8]) 0 none, .write (.put (.ofBytes [2]) [9]) 0 (some (.compaction .afterMerge)),
    .write (.put (.ofBytes [4]) [1]) 0 (some (.compaction (.midPublish 0)))]

theorem recovery_agrees_throwingWrites : ∃ r, (PointRun.start 0).calls throwingWrites = .ok r ∧
    r.sync.engine.RecoversAlike := by
  obtain ⟨r, hr, hiff⟩ := recovery_agrees_iff 0 throwingWrites (by decide +kernel)
  have hpending : ((PointRun.start 0).calls throwingWrites).toOption.map
      (fun r => (r.pending, Wal.writeOffset r.engine.log)) = some ([], 0) := by decide +kernel
  rw [hr] at hpending
  obtain ⟨hnil, hlog⟩ := Prod.mk.inj (Option.some.inj hpending)
  refine ⟨r, hr, hiff.mpr ⟨?_, ?_⟩⟩
  · rw [hlog]
    exact Nat.zero_le _
  · intro k v hk
    rw [hnil] at hk
    cases hk

/-- The value of a `put` that threw at `wal.after_append` is absent, and present after a restart. -/
theorem thrown_put_reappears : ∃ r, (PointRun.start 100).calls
    [.write (.put (.ofBytes [1]) [5]) 0 (some .afterAppend), .sync] = .ok r ∧ ¬ r.engine.RecoversAlike := by
  refine ⟨_, rfl, ?_⟩
  intro halike
  obtain ⟨e', he', hget⟩ := halike fun _ => 0
  have hafter : (Engine.construct 100 ⟨[], [], List.nodup_nil⟩
      [⟨⟨.put, [1], [5]⟩, .landed⟩] fun _ => 0).toOption.map (·.get (.ofBytes [1])) = some (some [5]) := by
    decide +kernel
  have hfive : some (e'.get (.ofBytes [1])) = some (some [5]) := by
    rw [← hafter]
    exact congrArg (fun x => x.toOption.map (·.get (.ofBytes [1]))) he'.symm
  rw [hget] at hfive
  exact absurd hfive (by decide)

end LsmTree
