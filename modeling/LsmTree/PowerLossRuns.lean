import LsmTree.Faults
import LsmTree.PowerLossPrograms
import LsmTree.Transition

/-!
# Power loss in a running engine

An engine runs on a disk of its own: a write appends a record to the log, `sync` syncs
the log, a flush writes its table, removes the log and creates it anew, and a compaction
stages its outputs, renames them and removes its inputs. The power may fail between any
two steps of any of them.

The tables that a start then finds answer as they did before or after the flush in
progress, since a flush begins with the write of its table and the directory is synced
at its end. The log that is found may be the one the engine is writing to, or none, or
the one that the last flush removed: nothing has synced its removal. Of a log that is
found the synced records are there.
-/

namespace LsmTree.PowerLoss
open Faults LittleEndian LayeredMap Merge Table StableStorage Transition

/-- An engine, its disk, and what the statements are about: the operations whose tables are on
disk, the records of the log that the last flush removed, and those of the log that is written to. -/
structure Host where
  engine : FileEngine
  disk : Disk FileName Contents
  flushed : List Op
  removed : List LogRecord
  log : List LogRecord

/-- A `put` or `del` is an append, and a flush if the memtable is full then. An engine is closed and
opened again with an empty memtable, since the destructor flushes first. -/
inductive Event where
  | append (op : Op) (height : Height)
  | sync
  | flush (luck : Luck)
  | restart (heights : ℕ → Height) (newProcess : Bool)

def appendRecord (op : Op) : Contents → Contents
  | .records rs => .records (rs ++ [⟨op, .unsynced⟩])
  | .bytes b synced => .bytes b synced

/-- What an event does to the disk. -/
def Event.instrs (sizes : Sizes) (e : FileEngine) : Event → Program
  | .append op _ => [.modify .log (appendRecord op)]
  | .sync => [.modify .log Contents.sync]
  | .flush luck => flushInstrs sizes luck e
  -- The destructor of the log syncs it.
  | .restart _ _ => [.modify .log Contents.sync]

namespace Host

/-- An engine on a new directory. -/
def fresh (maxBytes capacity cacheBytes : ℕ) : Host where
  engine := .fresh maxBytes capacity cacheBytes
  disk := blank.step (.create .log (.records []))
  flushed := []
  removed := []
  log := []

/-- A flush and a restart are events where they succeed. -/
def Enabled (sizes : Sizes) (h : Host) : Event → Prop
  | .append op _ => op.entry.Fits ∧ h.engine.memtable.isFull = false
  | .sync => True
  | .flush _ => h.engine.memtable.empty = false ∧ (h.engine.flushMemtable sizes).isOk = true
  | .restart heights newProcess =>
    h.engine.memtable.empty = true ∧ (h.engine.reopen sizes heights newProcess).isOk = true

instance (sizes : Sizes) (h : Host) (ev : Event) : Decidable (h.Enabled sizes ev) :=
  match ev with
  | .append op _ => inferInstanceAs (Decidable (op.entry.Fits ∧ h.engine.memtable.isFull = false))
  | .sync => isTrue trivial
  | .flush _ =>
    inferInstanceAs (Decidable (h.engine.memtable.empty = false ∧ (h.engine.flushMemtable sizes).isOk = true))
  | .restart heights newProcess => inferInstanceAs (Decidable
      (h.engine.memtable.empty = true ∧ (h.engine.reopen sizes heights newProcess).isOk = true))

def next (sizes : Sizes) (h : Host) (ev : Event) : Host :=
  let disk := h.disk.run (ev.instrs sizes h.engine)
  match ev with
  | .append op height =>
    { h with engine := h.engine.append op height, disk := disk, log := h.log ++ [⟨op, .unsynced⟩] }
  | .sync => { h with disk := disk, log := h.log.map LogRecord.sync }
  | .flush _ =>
    match h.engine.flushMemtable sizes with
    | .error _ => h
    | .ok e =>
      { engine := e, disk := disk, flushed := h.flushed ++ h.log.map LogRecord.op, removed := h.log, log := [] }
  | .restart heights newProcess =>
    match h.engine.reopen sizes heights newProcess with
    | .error _ => h
    | .ok e => { h with engine := e, disk := disk, log := h.log.map LogRecord.sync }

end Host

def hostSystem (sizes : Sizes) : System Host Event := ⟨Host.Enabled sizes, Host.next sizes⟩

/-- The map after some operations on an empty one. -/
abbrev mapOf (ops : List Op) : Key → Option Bytes := applyOps (fun _ => none) ops

/-! ### The invariant -/

/-- The engine has the tables of the operations flushed, and the records of the log in its memtable. -/
structure Tracks (sizes : Sizes) (f : FileEngine) (e : Engine) (flushed : List Op) (log : List LogRecord) :
    Prop where
  represents : Represents sizes f e
  steady : e.Steady
  fits : ∀ x ∈ e.memtable.entries, Fits x
  tables : ∀ k, resolve k (layers e.sstables) = mapOf flushed k
  logged : ∀ k, lookup k e.memtable.entries = newest k (log.map fun r => opLayer r.op)

/-- Whatever a power loss leaves of the directory has the tables of the operations flushed, and as a
log the one that is written to, the one that was removed, or none. -/
structure Host.Consistent (sizes : Sizes) (h : Host) : Prop where
  stable : h.disk.Stable Watched Settled
  engine : ∃ e, Tracks sizes h.engine e h.flushed h.log
  files : ∀ name, h.disk.find (.table name 0) = (findFile h.engine.files name).map (.bytes · true)
  log : h.disk.find .log = some (.records h.log)
  recorded : ∀ r ∈ h.log, r.op.entry.Fits
  removedRecorded : ∀ r ∈ h.removed, r.op.entry.Fits
  earlier : ∀ dir, h.disk.MayLeave dir → Resolved sizes (mapOf h.flushed) (fun x => (dir x).map h.disk.contents) ∧
    (dir .log = none ∨ dir .log = h.disk.view .log ∨ (dir .log).map h.disk.contents = some (.records h.removed))

theorem LogRecord.op_sync (r : LogRecord) : r.sync.op = r.op := by
  rw [LogRecord.sync]
  split_ifs <;> rfl

theorem settled_sync {x : Contents} (h : Settled x) : Settled x.sync := by
  cases x with
  | bytes b synced => rfl
  | records rs => exact h

namespace Tracks
variable {sizes : Sizes} {f f' : FileEngine} {e : Engine} {flushed : List Op} {log : List LogRecord}

theorem get_eq (h : Tracks sizes f e flushed log) (k : Key) :
    e.get k = mapOf (flushed ++ log.map LogRecord.op) k := by
  have htables := h.tables k
  rw [resolve, mapOf] at htables
  rw [Engine.get_eq, resolve, Engine.contents, newest_append_singleton, h.logged k, mapOf, applyOps_append, applyOps_eq,
    List.map_map, ← htables]
  show ((newest k (log.map (opLayer ∘ LogRecord.op))).or _).join = _
  cases newest k (log.map (opLayer ∘ LogRecord.op)) <;> rfl

theorem append (h : Tracks sizes f e flushed log) {op : Op} (hop : op.entry.Fits) (height : Height) :
    Tracks sizes (f.append op height) (e.append op height) flushed (log ++ [⟨op, .unsynced⟩]) where
  represents := h.represents.append op height
  steady := h.steady.append op height
  fits := by
    intro x hx
    rw [Engine.append, Memtable.entries_update] at hx
    rcases mem_of_mem_upsert hx with hx | rfl
    · exact h.fits x hx
    · exact fits_of_recorded hop
  tables := h.tables
  logged := by
    intro k
    rw [Engine.append, Memtable.entries_update, lookup_upsert, h.logged k, List.map_append, List.map_singleton,
      newest_append_singleton, lookup_opLayer]
    by_cases hk : k = op.key
    · rw [if_pos hk, if_pos hk.symm]
      rfl
    · rw [if_neg hk, if_neg (Ne.symm hk), Option.none_or]

theorem sync (h : Tracks sizes f e flushed log) : Tracks sizes f e flushed (log.map LogRecord.sync) := by
  refine ⟨h.represents, h.steady, h.fits, h.tables, fun k => ?_⟩
  rw [h.logged k, List.map_map]
  exact congrArg _ (List.map_congr_left fun r _ => congrArg opLayer r.op_sync.symm)

/-- A flush hands the records to the tables. -/
theorem flush (h : Tracks sizes f e flushed log) (hok : f.flushMemtable sizes = .ok f') :
    ∃ e', e.flushMemtable = .ok e' ∧ Tracks sizes f' e' (flushed ++ log.map LogRecord.op) [] := by
  have hflush := h.represents.flushMemtable h.steady.toOrdered h.fits
  rw [hok] at hflush
  obtain ⟨e', he', hrep⟩ := hflush
  obtain ⟨-, hget, hnil, -, -⟩ := h.steady.toOrdered.flushMemtable he'
  refine ⟨e', he', hrep, h.steady.flushMemtable he', by simp [hnil], fun k => ?_, fun k => by rw [hnil]; rfl⟩
  rw [← h.get_eq k, ← hget k, Engine.get_eq, Engine.contents, hnil, resolve_append_nil]

/-- An engine with an empty memtable is opened again as it was. -/
theorem restart (h : Tracks sizes f e flushed log) (hempty : f.memtable.empty = true) {heights : ℕ → Height}
    {newProcess : Bool} (hok : f.reopen sizes heights newProcess = .ok f') :
    f'.files = f.files ∧ ∃ e', Tracks sizes f' e' flushed log := by
  have hnil : e.memtable.entries = [] := e.memtable.empty_iff.mp (h.represents.memtable ▸ hempty)
  have hreopen := h.represents.reopen h.steady h.fits heights newProcess
  rw [hok] at hreopen
  obtain ⟨e', he', hrep⟩ := hreopen
  have hsteady := (h.steady.reopen he').1
  rw [Engine.reopen, Engine.flush, if_pos (e.memtable.empty_iff.mpr hnil)] at he'
  have heq := Except.ok.inj (he'.symm.trans (h.steady.construct hnil heights))
  have hnil' : e'.memtable.entries = [] := by rw [heq, Memtable.entries_new]
  refine ⟨?_, e', hrep, hsteady, by simp [hnil'], ?_, ?_⟩
  · rw [hrep.files, h.represents.files, heq]
  · rw [heq]
    exact h.tables
  · intro k
    rw [hnil', ← h.logged k, hnil]

end Tracks

namespace Host.Consistent
variable {sizes : Sizes} {h : Host}

/-- The file of the log holds records, and no file of a table does. -/
theorem map_modify_log (hc : h.Consistent sizes) (f : Contents → Contents) {dir : Dir FileName}
    (hdir : h.disk.MayLeave dir) (name : TableName) :
    (dir (.table name 0)).map (h.disk.step (.modify .log f)).contents = (dir (.table name 0)).map h.disk.contents := by
  obtain ⟨file, hfile, hrecords⟩ := Option.map_eq_some_iff.mp hc.log
  rw [Disk.step_modify_of_view hfile]
  obtain ⟨⟨d, -, hshows, -⟩, -⟩ := hc.earlier dir hdir
  have hbytes : (dir (.table name 0)).map h.disk.contents = _ := hshows name
  cases htable : dir (.table name 0) with
  | none => rfl
  | some file' =>
    rw [htable, Option.map_some] at hbytes
    have hne : file' ≠ file := by
      rintro rfl
      rw [hrecords] at hbytes
      cases hfind : findFile (d.files.map (fileOf sizes)) name with
      | none =>
        rw [hfind] at hbytes
        cases hbytes
      | some b =>
        rw [hfind] at hbytes
        cases hbytes
    exact congrArg some (Function.update_of_ne hne _ _)

/-- What is done to the log in place changes what is in it now, under whatever directory it is left. -/
theorem modify_log (hc : h.Consistent sizes) {f : Contents → Contents} (hf : ∀ x, Settled x → Settled (f x))
    {log : List LogRecord} (hlog : f (.records h.log) = .records log) {engine : FileEngine} {e : Engine}
    (htracks : Tracks sizes engine e h.flushed log) (hfiles : engine.files = h.engine.files)
    (hrecorded : ∀ r ∈ log, r.op.entry.Fits) :
    Consistent sizes { h with engine := engine, disk := h.disk.step (.modify .log f), log := log } := by
  have hmay : ∀ dir, (h.disk.step (.modify .log f)).MayLeave dir → h.disk.MayLeave dir := by
    intro dir hdir
    rcases Disk.mayLeave_step hdir with hdir | rfl
    · exact hdir
    · rw [Disk.view_modify]
      exact h.disk.mayLeave_view
  obtain ⟨file, hfile, hrecords⟩ := Option.map_eq_some_iff.mp hc.log
  have hself : (h.disk.step (.modify .log f)).contents file = .records log := by
    rw [Disk.step_modify_of_view hfile, ← hlog, ← hrecords]
    exact Function.update_self _ _ _
  refine ⟨hc.stable.modify _ hf, ⟨e, htracks⟩, fun name => ?_, ?_, hrecorded, hc.removedRecorded, fun dir hdir => ?_⟩
  · rw [hfiles, ← hc.files name, Disk.find, Disk.view_modify]
    exact hc.map_modify_log f h.disk.mayLeave_view name
  · rw [Disk.find, Disk.view_modify, hfile, Option.map_some, hself]
  · obtain ⟨⟨d, haccepted, hshows, hresolve⟩, hold⟩ := hc.earlier dir (hmay dir hdir)
    refine ⟨⟨d, haccepted, fun name => ?_, hresolve⟩, ?_⟩
    · exact (hc.map_modify_log f (hmay dir hdir) name).trans (hshows name)
    · rw [Disk.view_modify]
      rcases hold with hnone | hview | hremoved
      · exact .inl hnone
      · exact .inr (.inl hview)
      · by_cases hsame : dir .log = some file
        · exact .inr (.inl (hsame.trans hfile.symm))
        · refine .inr (.inr ?_)
          obtain ⟨file', hfile', hcontents⟩ := Option.map_eq_some_iff.mp hremoved
          have hne : file' ≠ file := fun heq => hsame (heq ▸ hfile')
          rw [hfile', Option.map_some, Disk.step_modify_of_view hfile, ← hcontents]
          exact congrArg some (Function.update_of_ne hne _ _)

end Host.Consistent

/-! ### A flush -/

/-- A flush is the writing of its table, a sync of the directory, the removal and creation of the log,
and the steps of a compaction. -/
structure FlushParts (sizes : Sizes) (found : FileName → Option Contents) (old new : Key → Option Bytes)
    (f' : FileEngine) (write rest : Program) : Prop where
  careful : Disk.CarefulRun Watched Settled found (write ++ .syncDir :: (clearInstrs ++ rest))
  writing : Throughout (fun g => (Resolved sizes old g ∨ Resolved sizes new g) ∧ g .log = found .log) found write
  written : Resolved sizes new (acts found write)
  compacting : CompactMoments sizes (acts (acts found write) clearInstrs) new f' rest

theorem within_clear : Within (· = .log) clearInstrs := .cons (fun _ => Eq.symm) (.cons (fun _ => Eq.symm) .nil)

theorem acts_clear (found : FileName → Option Contents) : acts found clearInstrs .log = some (.records []) := by
  simp [acts, clearInstrs, Instr.act]

theorem flush_parts {sizes : Sizes} {f f' : FileEngine} {e : Engine} {flushed : List Op} {log : List LogRecord}
    (h : Tracks sizes f e flushed log) (hempty : f.memtable.empty = false) (hok : f.flushMemtable sizes = .ok f')
    {found : FileName → Option Contents} (hshows : Shows sizes found e.dir) (luck : Luck) :
    ∃ write rest, flushInstrs sizes luck f = write ++ .syncDir :: (clearInstrs ++ rest) ∧
      FlushParts sizes found (mapOf flushed) (mapOf (flushed ++ log.map LogRecord.op)) f' write rest ∧
      ((f.sstables.filter (·.name.level = .l0)).length + 1 < l0Threshold → rest = []) := by
  rw [FileEngine.flushMemtable, hempty] at hok
  simp only [Bool.false_eq_true, if_false] at hok
  cases hg : f.writeTable sizes with
  | error err =>
    rw [hg] at hok
    cases hok
  | ok g =>
    rw [hg] at hok
    have hwrite := h.represents.writeTable h.fits
    rw [hg] at hwrite
    obtain ⟨e₁, he₁, hrep⟩ := hwrite
    obtain ⟨hord, hlayers, hcount, -⟩ := h.steady.toOrdered.writeTable he₁
    obtain ⟨hlt, haccepted, hinstrs⟩ := flushInstrs_eq h.represents hg luck
    have hfiles : e₁.dir.files = (e.dir.apply (.publish (e.table hlt.le))).files := by
      obtain ⟨_, rfl⟩ := Engine.writeTable_ok he₁
      rfl
    have hnew : (fun k => resolve k (layers e₁.sstables)) = mapOf (flushed ++ log.map LogRecord.op) := by
      funext k
      rw [← h.get_eq k, Engine.get_eq, hlayers]
      rfl
    generalize e.table hlt.le = t at hinstrs hfiles
    have hpublished : Shows sizes (published found t.name (fileOf sizes t).2) e₁.dir :=
      (hshows.published t).of_files hfiles
    have hold : Resolved sizes (mapOf flushed) found :=
      ⟨e.dir, h.represents.accepted, hshows, fun k => by rw [h.steady.load_eq]; exact h.tables k⟩
    have hresolved : Resolved sizes (mapOf (flushed ++ log.map LogRecord.op))
        (published found t.name (fileOf sizes t).2) :=
      ⟨e₁.dir, hrep.accepted, hpublished, fun k => by rw [hord.load_eq]; exact congrFun hnew k⟩
    obtain ⟨write, hwriteEq⟩ : ∃ write : Program, write = stageInstrs (.table t.name 1) (fileOf sizes t).2 ++
      [.rename (.table t.name 1) (.table t.name 0)] := ⟨_, rfl⟩
    have hsplit : writeInstrs t.name 0 (fileOf sizes t).2 .done = write ++ [.syncDir] := by
      rw [hwriteEq, List.append_assoc]
      rfl
    have hacts : ∀ x, Watched x → acts found write x = published found t.name (fileOf sizes t).2 x :=
      hwriteEq ▸ fun x hw => acts_publish found t.name (fileOf sizes t).2 hw
    have hcareful := careful_write found t.name 0 (fileOf sizes t).2 .done
    have hmoments := throughout_write found t.name (fileOf sizes t).2 .done
    rw [hsplit] at hcareful hmoments
    have hcleared : Shows sizes (acts (acts found write) clearInstrs) e₁.clearLog.dir := by
      refine (hpublished.congr hacts : Shows sizes (acts found write) e₁.dir).congr_tables ?_
      exact fun name => acts_of_within _ within_clear FileName.noConfusion
    have hcompacting := compact_moments hrep.clearLog hord.clearLog hok hcleared luck
    have hrest : CompactMoments sizes (acts (acts found write) clearInstrs)
        (mapOf (flushed ++ log.map LogRecord.op)) f' (compactInstrs sizes luck g.clearLog) := hnew ▸ hcompacting
    refine ⟨write, compactInstrs sizes luck g.clearLog, ?_, ⟨?_, ?_, ?_, hrest⟩, fun hfew => ?_⟩
    · rw [hinstrs, hsplit, List.append_assoc]
      rfl
    · obtain ⟨hfirst, -⟩ := Disk.carefulRun_append.mp hcareful
      refine Disk.carefulRun_append.mpr ⟨hfirst, trivial, ?_⟩
      exact Disk.carefulRun_append.mpr ⟨⟨trivial, fun _ => trivial, trivial⟩, hrest.careful⟩
    · intro n
      have hmoment := hmoments (min n write.length)
      rw [List.take_append_of_le_length (Nat.min_le_right _ _), ← List.take_eq_take_min] at hmoment
      rcases hmoment with hold' | hnew'
      · exact ⟨.inl (Resolved.congr _ _ hold' hold), hold' .log trivial⟩
      · refine ⟨.inr (Resolved.congr _ _ hnew' hresolved), (hnew' .log trivial).trans ?_⟩
        rw [published, if_neg FileName.noConfusion]
    · exact Resolved.congr _ _ hacts hresolved
    · have hcount' : (g.clearLog.sstables.filter (·.name.level = .l0)).length < l0Threshold := by
        rw [hrep.clearLog.l0Count_eq]
        rw [h.represents.l0Count_eq, ← hcount] at hfew
        exact hfew
      rw [compactInstrs, if_pos hcount']

/-- The tables answer as after the flush; the log is as it was, or removed, or new. -/
def Written (sizes : Sizes) (new : Key → Option Bytes) (log : List LogRecord)
    (found : FileName → Option Contents) : Prop :=
  Resolved sizes new found ∧ (found .log = some (.records log) ∨ found .log = none ∨ found .log = some (.records []))

def FlushMoment (sizes : Sizes) (old new : Key → Option Bytes) (log : List LogRecord)
    (found : FileName → Option Contents) : Prop :=
  Resolved sizes old found ∧ found .log = some (.records log) ∨ Written sizes new log found

namespace FlushParts
variable {sizes : Sizes} {found : FileName → Option Contents} {old new : Key → Option Bytes} {f' : FileEngine}
  {write rest : Program} {log : List LogRecord}

theorem log_write (h : FlushParts sizes found old new f' write rest) : acts found write .log = found .log :=
  h.writing.last.2

theorem log_rest (h : FlushParts sizes found old new f' write rest) (n : ℕ) :
    acts (acts (acts found write) clearInstrs) (rest.take n) .log = some (.records []) := by
  rw [acts_of_within _ (h.compacting.within.take n) (not_not.mpr rfl), acts_clear]

theorem throughout_clear (h : FlushParts sizes found old new f' write rest) (hlog : found .log = some (.records log)) :
    Throughout (Written sizes new log) (acts found write) (clearInstrs ++ rest) := by
  have htables : ∀ n, Resolved sizes new (acts (acts found write) (clearInstrs.take n)) := by
    intro n
    obtain ⟨d, haccepted, hshows, hresolve⟩ := h.written
    refine ⟨d, haccepted, hshows.congr_tables fun name => ?_, hresolve⟩
    exact acts_of_within _ (within_clear.take n) FileName.noConfusion
  refine Throughout.append (fun n => ⟨htables n, ?_⟩) fun n => ⟨h.compacting.resolved n, .inr (.inr (h.log_rest n))⟩
  match n with
  | 0 => exact .inl (h.log_write.trans hlog)
  | 1 => exact .inr (.inl (by simp [clearInstrs, acts, Instr.act]))
  | n + 2 => exact .inr (.inr (by rw [List.take_of_length_le (by simp [clearInstrs]), acts_clear]))

theorem throughout (h : FlushParts sizes found old new f' write rest) (hlog : found .log = some (.records log)) :
    Throughout (FlushMoment sizes old new log) found (write ++ .syncDir :: (clearInstrs ++ rest)) := by
  have hclear := h.throughout_clear hlog
  refine Throughout.append (fun n => ?_) fun n => ?_
  · obtain ⟨hold | hnew, hsame⟩ := h.writing n
    · exact .inl ⟨hold, hsame.trans hlog⟩
    · exact .inr ⟨hnew, .inl (hsame.trans hlog)⟩
  · cases n with
    | zero => exact .inr (hclear 0)
    | succ n => exact .inr (hclear n)

end FlushParts

namespace Host.Consistent
variable {sizes : Sizes} {h : Host}

theorem shows (hc : h.Consistent sizes) {e : Engine} (he : Tracks sizes h.engine e h.flushed h.log) :
    Shows sizes h.disk.find e.dir := by
  intro name
  rw [hc.files name, he.represents.files]

/-- A flush leaves the tables of all operations, and the log that it removed until the directory is
synced again. -/
theorem flush (hc : h.Consistent sizes) {luck : Luck} (hempty : h.engine.memtable.empty = false) {f' : FileEngine}
    (hok : h.engine.flushMemtable sizes = .ok f') :
    Consistent sizes ⟨f', h.disk.run (flushInstrs sizes luck h.engine), h.flushed ++ h.log.map LogRecord.op, h.log, []⟩ := by
  obtain ⟨e, he⟩ := hc.engine
  obtain ⟨e', -, he'⟩ := he.flush hok
  obtain ⟨write, rest, hinstrs, hparts, -⟩ := flush_parts he hempty hok (hc.shows he) luck
  have hfind := (hc.stable.toSound.run hparts.careful).2
  have hend : acts h.disk.find (write ++ .syncDir :: (clearInstrs ++ rest)) =
      acts (acts (acts h.disk.find write) clearInstrs) rest := by
    rw [acts_append, ← acts_append _ clearInstrs]
    rfl
  rw [hend] at hfind
  have hlogEnd : acts (acts (acts h.disk.find write) clearInstrs) rest .log = some (.records []) := by
    rw [acts_of_within _ hparts.compacting.within (not_not.mpr rfl), acts_clear]
  rw [hinstrs]
  refine ⟨hc.stable.run hparts.careful, ⟨e', he'⟩, fun name => ?_, ?_, by simp, hc.recorded, fun dir hdir => ?_⟩
  · rw [hfind]
    exact hparts.compacting.files name
  · rw [hfind, hlogEnd]
  · obtain ⟨m, -, hview, hcontents⟩ := hc.stable.mayLeave_run_syncDir hparts.careful hdir
    have hmoment : acts h.disk.find (write ++ .syncDir :: (clearInstrs ++ rest).take m) =
        acts (acts h.disk.find write) ((clearInstrs ++ rest).take m) := acts_append _ _ _
    rw [hmoment] at hcontents
    have hlog : (dir .log).map _ = _ := hcontents .log trivial
    refine ⟨Resolved.congr _ _ hcontents (hparts.throughout_clear hc.log m).1, ?_⟩
    match m with
    | 0 => exact .inr (.inr (hlog.trans (hparts.log_write.trans hc.log)))
    | 1 =>
      have hnone : acts (acts h.disk.find write) ((clearInstrs ++ rest).take 1) .log = none := by
        simp [clearInstrs, acts, Instr.act]
      exact .inl (Option.map_eq_none_iff.mp (hlog.trans hnone))
    | m + 2 =>
      have hsplit : write ++ .syncDir :: (clearInstrs ++ rest) =
          (write ++ .syncDir :: (clearInstrs ++ rest).take (m + 2)) ++ rest.drop m := by
        rw [List.append_assoc, List.cons_append, show clearInstrs ++ rest = [.unlink .log, .create .log (.records [])] ++ rest
          from rfl]
        simp
      have hsame : Within (· ≠ .log) (rest.drop m) := fun i hi => hparts.compacting.within i (List.mem_of_mem_drop hi)
      have hlast : (h.disk.run (write ++ .syncDir :: (clearInstrs ++ rest))).view .log =
          (h.disk.run (write ++ .syncDir :: (clearInstrs ++ rest).take (m + 2))).view .log := by
        rw [hsplit, Disk.run_append _ (write ++ _), Disk.view_run_of_within _ hsame (not_not.mpr rfl)]
      exact .inr (.inl ((congrFun hview .log).trans hlast.symm))

theorem recorded_sync (hc : h.Consistent sizes) : ∀ r ∈ h.log.map LogRecord.sync, r.op.entry.Fits := by
  intro r hr
  obtain ⟨s, hs, rfl⟩ := List.mem_map.mp hr
  rw [s.op_sync]
  exact hc.recorded s hs

theorem fresh (sizes : Sizes) (maxBytes capacity cacheBytes : ℕ) :
    Consistent sizes (.fresh maxBytes capacity cacheBytes) := by
  have hview : (Host.fresh maxBytes capacity cacheBytes).disk.view = Function.update (fun _ => none) .log (some 0) :=
    Disk.view_create blank .log (.records [])
  have hempty : Resolved sizes (mapOf []) fun x => ((fun _ => none : Dir FileName) x).map
      (Host.fresh maxBytes capacity cacheBytes).disk.contents :=
    ⟨⟨[], [], List.nodup_nil⟩, by simp, fun _ => rfl, fun _ => rfl⟩
  have htable : ∀ name, (Host.fresh maxBytes capacity cacheBytes).disk.view (.table name 0) = none := by
    intro name
    rw [hview, Function.update_of_ne FileName.noConfusion]
  have hcareful : Disk.Careful Watched Settled blank.find (.create .log (.records [])) := fun _ => trivial
  refine ⟨stable_blank.step hcareful, ⟨.fresh maxBytes, ?_⟩, fun name => ?_, ?_, by simp [Host.fresh],
    by simp [Host.fresh], fun dir hdir => ?_⟩
  · refine ⟨.fresh maxBytes capacity cacheBytes, Engine.steady_fresh maxBytes, ?_, fun _ => rfl, fun k => ?_⟩
    · rw [Engine.fresh, Memtable.entries_new]
      simp
    · rw [Engine.fresh, Memtable.entries_new]
      rfl
  · rw [Disk.find, htable name]
    rfl
  · rw [Disk.find, hview, Function.update_self]
    rfl
  · rcases Disk.mayLeave_step hdir with hdir | rfl
    · rw [Disk.mayLeave_of_pending_nil rfl hdir]
      exact ⟨hempty, .inl rfl⟩
    · refine ⟨?_, .inr (.inl rfl)⟩
      obtain ⟨d, haccepted, hshows, hresolve⟩ := hempty
      refine ⟨d, haccepted, hshows.congr_tables fun name => ?_, hresolve⟩
      exact congrArg (Option.map _) (htable name)

theorem next (hc : h.Consistent sizes) {ev : Event} (hev : h.Enabled sizes ev) : Consistent sizes (h.next sizes ev) := by
  obtain ⟨e, he⟩ := hc.engine
  cases ev with
  | append op height =>
    refine hc.modify_log ?_ rfl (he.append hev.1 height) rfl ?_
    · rintro (⟨b, synced⟩ | rs) hx
      · exact hx
      · exact hx
    · intro r hr
      rcases List.mem_append.mp hr with hr | hr
      · exact hc.recorded r hr
      · exact List.mem_singleton.mp hr ▸ hev.1
  | sync => exact hc.modify_log (fun _ => settled_sync) rfl he.sync rfl hc.recorded_sync
  | flush luck =>
    obtain ⟨f', hok⟩ := exists_of_isOk hev.2
    simp only [Host.next, hok]
    exact hc.flush hev.1 hok
  | restart heights newProcess =>
    obtain ⟨f', hok⟩ := exists_of_isOk hev.2
    obtain ⟨hfiles, e', he'⟩ := he.restart hev.1 hok
    simp only [Host.next, hok]
    exact hc.modify_log (fun _ => settled_sync) rfl he'.sync hfiles hc.recorded_sync

theorem run {maxBytes capacity cacheBytes : ℕ} {es : List Event}
    (hrun : Run (hostSystem sizes) (fun _ _ => True) (.fresh maxBytes capacity cacheBytes) es h) : h.Consistent sizes :=
  hrun.invariant (Host.Consistent sizes) (fun _ _ hc _ hev => hc.next hev) (.fresh sizes maxBytes capacity cacheBytes)

end Host.Consistent

/-! ### Starting again -/

/-- A start finds these table files, in some order, and this log or none. -/
structure Finds (dir : Dir FileName) (read : ℕ → Contents) (files : FileList) (log : List LogRecord) : Prop where
  nodup : (files.map Prod.fst).Nodup
  tables : ∀ name, (dir (.table name 0)).map read = (findFile files name).map (.bytes · true)
  log : (dir .log).map read = some (.records log) ∨ dir .log = none ∧ log = []

/-- The record as a start reads it; a missing one is a hole. -/
def LogRecord.slot (r : LogRecord) : Wal.Slot := ⟨r.op.entry, if r.state = .missing then .lost else .landed⟩

def keptOps (log : List LogRecord) : List Op := (log.filter (·.state ≠ .missing)).map LogRecord.op

theorem landedEntries_slots (log : List LogRecord) :
    Wal.landedEntries (log.map LogRecord.slot) = (keptOps log).map Op.entry := by
  induction log with
  | nil => rfl
  | cons r rs ih =>
    rw [Wal.landedEntries, keptOps] at ih ⊢
    by_cases hr : r.state = .missing
    · simpa [LogRecord.slot, hr] using ih
    · simpa [LogRecord.slot, hr] using ih

/-- The tables of the operations flushed are found, and one of the two logs or none. -/
def Host.Leaves (sizes : Sizes) (h : Host) (found : FileName → Option Contents) : Prop :=
  Resolved sizes (mapOf h.flushed) found ∧
    (found .log = none ∨ found .log = some (.records h.removed) ∨ found .log = some (.records h.log))

theorem Host.Leaves.congr {sizes : Sizes} {h : Host} (f g : FileName → Option Contents)
    (hfg : ∀ x, Watched x → g x = f x) (hf : h.Leaves sizes f) : h.Leaves sizes g :=
  ⟨Resolved.congr f g hfg hf.1, hfg .log trivial ▸ hf.2⟩

namespace Host.Consistent
variable {sizes : Sizes} {h : Host}

end Host.Consistent

theorem Kept.ops {rs ss : List LogRecord} (h : Kept rs ss) (hfits : ∀ r ∈ rs, r.op.entry.Fits) :
    ∀ s ∈ ss, s.op.entry.Fits := by
  intro s hs
  obtain ⟨r, hr, hrs⟩ := exists_of_forall₂ h.flip hs
  cases hrs with
  | keep => exact hfits s hr
  | lose op => exact hfits ⟨op, .unsynced⟩ hr

end LsmTree.PowerLoss
