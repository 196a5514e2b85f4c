import LsmTree.PowerLoss

/-!
# The disk under a flush

A flush writes its table, removes the log, creates it anew, and may go on to a
compaction, which stages its outputs under temporary names, renames them and removes its
inputs. Each of these programs changes files under temporary names only and gives a
table its name once it is synced.

At every moment of a compaction the files found are those of a directory in which a
compaction may have been cut short, so they answer as before it.
-/

namespace LsmTree.PowerLoss
open LittleEndian LayeredMap Merge Table StableStorage

/-! ### The steps of a flush and of a compaction -/

/-- What goes well in a compaction without being checked: the temporaries that are swept, and
whether the directory gets synced after the renames and after the removals. -/
structure Luck where
  swept : List (TableName × ℕ)
  renamesSynced : Bool
  removalsSynced : Bool

def syncDirIf (synced : Bool) : Program := if synced then [.syncDir] else []

/-- `flushBuffer`: `SSTable::write` on a temporary name, and `fsyncFile`. -/
def flushBufferInstrs (p : TableName × Bytes) : Program :=
  writeInstrs p.1 1 p.2 .done ++ [.modify (.table p.1 1) Contents.sync]

/-- `LeveledCompactor::run` without an error. -/
def compactInstrs (sizes : Sizes) (luck : Luck) (e : FileEngine) : Program :=
  if (e.sstables.filter (·.name.level = .l0)).length < l0Threshold then []
  else
    match FileEngine.stageAll sizes e.l1Start (merge (e.sstables.map e.mergeSource)) with
    | .error _ => []
    | .ok staged =>
      luck.swept.map (fun p => .unlink (.table p.1 (p.2 + 1))) ++ staged.flatMap flushBufferInstrs ++
        (staged.map (fun p => .rename (.table p.1 1) (.table p.1 0)) ++ syncDirIf luck.renamesSynced) ++
        (e.sstables.map (fun t => .unlink (.table t.name 0)) ++ syncDirIf luck.removalsSynced)

/-- `wal_.clear()`. -/
def clearInstrs : Program := [.unlink .log, .create .log (.records [])]

theorem numBlocks_pos (sizes : Sizes) (e : FileEngine) : 0 < sizes.numBlocks e.memtable.entries.length :=
  sizes.pos _

theorem sstCounter_le {e : FileEngine} (h : e.sstCounter < intMax) : e.sstCounter ≤ intMax := h.le

/-- `flushMemtable` without an error. -/
def flushInstrs (sizes : Sizes) (luck : Luck) (e : FileEngine) : Program :=
  if h : e.sstCounter < intMax then
    match Table.write (sizes.numBlocks e.memtable.entries.length) (numBlocks_pos sizes e) e.memtable.entries,
      e.writeTable sizes with
    | .ok file, .ok e' =>
      writeInstrs ⟨.l0, e.sstCounter, sstCounter_le h⟩ 0 file .done ++
        (clearInstrs ++ compactInstrs sizes luck e'.clearLog)
    | _, _ => []
  else []

/-! ### What is found in the course of them -/

/-- The table files found are those of the directory. -/
def Shows (sizes : Sizes) (found : FileName → Option Contents) (d : Directory) : Prop :=
  ∀ name, found (.table name 0) = (findFile (d.files.map (fileOf sizes)) name).map (.bytes · true)

section Shows
variable {sizes : Sizes} {found found' : FileName → Option Contents} {d d' : Directory}

theorem Shows.congr_tables (h : Shows sizes found d)
    (hfound : ∀ name, found' (.table name 0) = found (.table name 0)) : Shows sizes found' d :=
  fun name => (hfound name).trans (h name)

theorem Shows.congr (h : Shows sizes found d) (hfound : ∀ x, Watched x → found' x = found x) :
    Shows sizes found' d := h.congr_tables fun name => hfound (.table name 0) (Eq.refl 0)

theorem Shows.of_files (h : Shows sizes found d) (hfiles : d'.files = d.files) : Shows sizes found d' := by
  intro name
  rw [hfiles]
  exact h name

theorem Shows.published (h : Shows sizes found d) (t : SSTable) :
    Shows sizes (published found t.name (fileOf sizes t).2) (d.apply (.publish t)) := by
  intro name
  rw [← publishFile_fileOf, findFile_publishFile, PowerLoss.published, h name]
  by_cases hname : name = t.name
  · rw [if_pos (congrArg (FileName.table · 0) hname), if_pos hname, Option.map_some]
  · rw [if_neg hname, if_neg fun heq => hname (FileName.table.inj heq).1]

theorem Shows.unlink (h : Shows sizes found d) (t : SSTable) :
    Shows sizes ((Instr.unlink (.table t.name 0)).act found) (d.apply (.remove t)) := by
  intro name
  rw [Instr.act, Function.update_apply, Directory.apply, map_fileOf_filter, findFile_removeFile, h name]
  by_cases hname : name = t.name
  · rw [if_pos (congrArg (FileName.table · 0) hname), if_pos hname, Option.map_none]
  · rw [if_neg hname, if_neg fun heq => hname (FileName.table.inj heq).1]

/-- The synced temporaries of the tables are there. -/
def Staged (sizes : Sizes) (found : FileName → Option Contents) (ts : List SSTable) : Prop :=
  ∀ t ∈ ts, found (.table t.name 1) = some (.bytes (fileOf sizes t).2 true)

def renames (ts : List SSTable) : Program := ts.map fun t => .rename (.table t.name 1) (.table t.name 0)

def unlinks (ts : List SSTable) : Program := ts.map fun t => .unlink (.table t.name 0)

theorem Staged.rename {t : SSTable} {ts : List SSTable} (h : Staged sizes found (t :: ts))
    (hnames : ((t :: ts).map SSTable.name).Nodup) :
    Staged sizes ((Instr.rename (.table t.name 1) (.table t.name 0)).act found) ts := by
  intro s hs
  have hne : s.name ≠ t.name := fun heq => (List.nodup_cons.mp hnames).1 (heq ▸ List.mem_map_of_mem hs)
  rw [act_of_not_mentions]
  · exact h s (List.mem_cons_of_mem _ hs)
  · rintro (heq | heq)
    · exact hne (FileName.table.inj heq).1.symm
    · cases (FileName.table.inj heq).2

theorem Shows.renames (h : Shows sizes found d) {ts : List SSTable} (hstaged : Staged sizes found ts)
    (hnames : (ts.map SSTable.name).Nodup) (n : ℕ) :
    Shows sizes (acts found ((renames ts).take n)) (d.applyAll ((ts.map .publish).take n)) := by
  induction ts generalizing found d n with
  | nil => rwa [PowerLoss.renames, List.map_nil, List.take_nil, List.map_nil, List.take_nil]
  | cons t ts ih =>
    cases n with
    | zero => exact h
    | succ n =>
      have htable := hstaged t List.mem_cons_self
      have hstep := (h.published t).congr fun x hw => act_publish (not_watched_tmp t.name 0) htable hw
      exact ih hstep (hstaged.rename hnames) (List.nodup_cons.mp hnames).2 n

theorem careful_renames {ts : List SSTable} (hstaged : Staged sizes found ts) (hnames : (ts.map SSTable.name).Nodup) :
    Disk.CarefulRun Watched Settled found (renames ts) := by
  induction ts generalizing found with
  | nil => trivial
  | cons t ts ih =>
    have htable := hstaged t List.mem_cons_self
    exact ⟨careful_publish (tmp_ne t.name 0) (not_watched_tmp t.name 0) htable,
      ih (hstaged.rename hnames) (List.nodup_cons.mp hnames).2⟩

theorem Shows.unlinks (h : Shows sizes found d) (ts : List SSTable) (n : ℕ) :
    Shows sizes (acts found ((unlinks ts).take n)) (d.applyAll ((ts.map .remove).take n)) := by
  induction ts generalizing found d n with
  | nil => rwa [PowerLoss.unlinks, List.map_nil, List.take_nil, List.map_nil, List.take_nil]
  | cons t ts ih =>
    cases n with
    | zero => exact h
    | succ n => exact ih (h.unlink t) n

end Shows

/-! ### A compaction -/

/-- The tables found answer as the map does, and each was written by the engine. -/
def Resolved (sizes : Sizes) (m : Key → Option Bytes) (found : FileName → Option Contents) : Prop :=
  ∃ d : Directory, (∀ t ∈ d.files, Accepted sizes t.entries) ∧ Shows sizes found d ∧
    ∀ k, resolve k (layers d.load) = m k

theorem Resolved.congr {sizes : Sizes} {m : Key → Option Bytes} (f g : FileName → Option Contents)
    (hfg : ∀ x, Watched x → g x = f x) : Resolved sizes m f → Resolved sizes m g := by
  rintro ⟨d, haccepted, hshows, hresolve⟩
  exact ⟨d, haccepted, hshows.congr hfg, hresolve⟩

theorem within_syncDirIf {P : FileName → Prop} (synced : Bool) : Within P (syncDirIf synced) := by
  cases synced
  · exact .nil
  · exact within_syncDir

theorem careful_syncDirIf (found : FileName → Option Contents) (synced : Bool) :
    Disk.CarefulRun Watched Settled found (syncDirIf synced) := by
  cases synced
  · exact trivial
  · exact ⟨trivial, trivial⟩

theorem careful_unlinks {α : Type} (found : FileName → Option Contents) (name : α → FileName) (xs : List α) :
    Disk.CarefulRun Watched Settled found (xs.map fun x => .unlink (name x)) := by
  induction xs generalizing found with
  | nil => trivial
  | cons x xs ih => exact ⟨trivial, ih _⟩

/-- A temporary of the table. -/
def IsTmp (name : TableName) (x : FileName) : Prop := ∃ tmps, x = .table name (tmps + 1)

theorem IsTmp.not_watched {name : TableName} {x : FileName} (h : IsTmp name x) : ¬ Watched x := by
  obtain ⟨tmps, rfl⟩ := h
  exact not_watched_tmp name tmps

theorem within_flushBuffer (p : TableName × Bytes) : Within (IsTmp p.1) (flushBufferInstrs p) := by
  refine .append (.append ((within_stage _ p.2).mono fun x hx => ⟨1, hx⟩) ?_) ?_
  · refine .cons ?_ within_syncDir
    rintro x (rfl | rfl)
    · exact ⟨1, rfl⟩
    · exact ⟨0, rfl⟩
  · exact .cons (fun x hx => ⟨0, hx.symm⟩) .nil

theorem careful_flushBuffer (found : FileName → Option Contents) (p : TableName × Bytes) :
    Disk.CarefulRun Watched Settled found (flushBufferInstrs p) :=
  Disk.carefulRun_append.mpr ⟨careful_write _ _ _ _ _, not_watched_tmp p.1 0, trivial⟩

theorem acts_flushBuffer (found : FileName → Option Contents) (p : TableName × Bytes) :
    acts found (flushBufferInstrs p) (.table p.1 1) = some (.bytes p.2 true) := by
  have hne : FileName.table p.1 1 ≠ .table p.1 2 := by
    intro heq
    cases (FileName.table.inj heq).2
  simp [flushBufferInstrs, writeInstrs, acts, Instr.act, stageInstrs, Contents.sync, hne]

section Rewrite
variable {sizes : Sizes} {found : FileName → Option Contents} {d : Directory} {outputs : List SSTable}

def stageOutputs (sizes : Sizes) (luck : Luck) (outputs : List SSTable) : Program :=
  luck.swept.map (fun p => .unlink (.table p.1 (p.2 + 1))) ++ (outputs.map (fileOf sizes)).flatMap flushBufferInstrs

/-- The steps of a compaction with these outputs. -/
def rewriteInstrs (sizes : Sizes) (luck : Luck) (inputs outputs : List SSTable) : Program :=
  stageOutputs sizes luck outputs ++ (renames outputs ++ syncDirIf luck.renamesSynced) ++
    (unlinks inputs ++ syncDirIf luck.removalsSynced)

theorem quiet_stageOutputs (luck : Luck) (outputs : List SSTable) : Quiet (stageOutputs sizes luck outputs) := by
  intro i hi
  rcases List.mem_append.mp hi with hi | hi
  · obtain ⟨p, -, rfl⟩ := List.mem_map.mp hi
    rintro x rfl
    exact not_watched_tmp p.1 p.2
  · obtain ⟨p, -, hi⟩ := List.mem_flatMap.mp hi
    exact fun x hx => (within_flushBuffer p i hi x hx).not_watched

theorem careful_stageOutputs (found : FileName → Option Contents) (luck : Luck) (outputs : List SSTable) :
    Disk.CarefulRun Watched Settled found (stageOutputs sizes luck outputs) := by
  refine Disk.carefulRun_append.mpr ⟨careful_unlinks found (fun p : TableName × ℕ => .table p.1 (p.2 + 1)) _, ?_⟩
  generalize acts found _ = found'
  induction outputs generalizing found' with
  | nil => trivial
  | cons o os ih =>
    rw [List.map_cons, List.flatMap_cons]
    exact Disk.carefulRun_append.mpr ⟨careful_flushBuffer _ _, ih _⟩

theorem staged_stageOutputs (found : FileName → Option Contents) (luck : Luck)
    (hnames : (outputs.map SSTable.name).Nodup) : Staged sizes (acts found (stageOutputs sizes luck outputs)) outputs := by
  rw [stageOutputs, acts_append]
  generalize acts found _ = found'
  induction outputs generalizing found' with
  | nil => exact fun t ht => absurd ht List.not_mem_nil
  | cons o os ih =>
    rw [List.map_cons, List.nodup_cons] at hnames
    rw [List.map_cons, List.flatMap_cons, acts_append]
    intro t ht
    rcases List.mem_cons.mp ht with rfl | ht
    · have hrest : Within (fun x => ∃ s ∈ os, IsTmp s.name x) ((os.map (fileOf sizes)).flatMap flushBufferInstrs) := by
        intro i hi x hx
        obtain ⟨p, hp, hi⟩ := List.mem_flatMap.mp hi
        obtain ⟨s, hs, rfl⟩ := List.mem_map.mp hp
        exact ⟨s, hs, within_flushBuffer _ i hi x hx⟩
      rw [acts_of_within _ hrest]
      · exact acts_flushBuffer found' (fileOf sizes t)
      · rintro ⟨s, hs, tmps, heq⟩
        exact hnames.1 ((FileName.table.inj heq).1 ▸ List.mem_map_of_mem hs)
    · exact ih hnames.2 _ t ht

theorem resolved_crash (haccepted : ∀ t ∈ d.files, Accepted sizes t.entries) (hout : Outputs d d.load outputs)
    (houtputs : ∀ o ∈ outputs, Accepted sizes o.entries) (n : ℕ)
    (hshows : Shows sizes found (d.applyAll ((compactionSteps d d.load outputs).take n))) :
    Resolved sizes (fun k => resolve k (layers d.load)) found := by
  refine ⟨_, fun t ht => ?_, hshows, resolve_crash hout n⟩
  rcases ((mem_files_crash hout n).2 t).mp ht with ht | ht
  · exact haccepted t (Directory.mem_load.mp (List.mem_of_mem_drop ht))
  · exact houtputs t (List.mem_of_mem_take ht)

/-- Some renames of a compaction are the end of a first part of its steps. -/
theorem exists_take_renames (d : Directory) (inputs outputs : List SSTable) (n : ℕ) :
    ∃ m, (compactionSteps d inputs outputs).take m =
      d.temps.map .discard ++ outputs.map .stage ++ (outputs.map .publish).take n := by
  refine ⟨(d.temps.map DirStep.discard ++ outputs.map DirStep.stage).length + min n outputs.length, ?_⟩
  have hmin : min n outputs.length ≤ (outputs.map DirStep.publish).length := by simp
  rw [compactionSteps, List.append_assoc, List.take_length_add_append, List.take_append_of_le_length hmin]
  congr 1
  rw [List.take_eq_take_iff]
  simp

/-- The moments of a compaction, from a directory on which it could run. -/
structure Compacting (sizes : Sizes) (found : FileName → Option Contents) (d : Directory)
    (outputs : List SSTable) : Prop where
  shows : Shows sizes found d
  accepted : ∀ t ∈ d.files, Accepted sizes t.entries
  spec : Outputs d d.load outputs
  outputsAccepted : ∀ o ∈ outputs, Accepted sizes o.entries

namespace Compacting

theorem nodup (h : Compacting sizes found d outputs) : (outputs.map SSTable.name).Nodup :=
  h.spec.nodup.sublist ((List.sublist_append_right _ _).map _)

theorem careful (h : Compacting sizes found d outputs) (luck : Luck) :
    Disk.CarefulRun Watched Settled found (rewriteInstrs sizes luck d.load outputs) := by
  refine Disk.carefulRun_append.mpr ⟨Disk.carefulRun_append.mpr ⟨careful_stageOutputs _ _ _, ?_⟩, ?_⟩
  · exact Disk.carefulRun_append.mpr ⟨careful_renames (staged_stageOutputs _ _ h.nodup) h.nodup, careful_syncDirIf _ _⟩
  · exact Disk.carefulRun_append.mpr ⟨careful_unlinks _ (fun t : SSTable => .table t.name 0) _, careful_syncDirIf _ _⟩

theorem shows_renames (h : Compacting sizes found d outputs) (luck : Luck) (n : ℕ) :
    Shows sizes (acts (acts found (stageOutputs sizes luck outputs)) ((renames outputs).take n))
      (d.applyAll (d.temps.map .discard ++ outputs.map .stage ++ (outputs.map .publish).take n)) := by
  have hstaged : Shows sizes (acts found (stageOutputs sizes luck outputs))
      (d.applyAll (d.temps.map .discard ++ outputs.map .stage)) := by
    refine (h.shows.congr fun x hw => acts_quiet (quiet_stageOutputs luck outputs) found hw).of_files ?_
    rw [applyAll_append, files_applyAll_stage, files_applyAll_discard]
  rw [applyAll_append]
  exact hstaged.renames (staged_stageOutputs found luck h.nodup) h.nodup n

theorem shows_unlinks (h : Compacting sizes found d outputs) (luck : Luck) (n : ℕ) :
    Shows sizes (acts (acts found (stageOutputs sizes luck outputs ++ (renames outputs ++ syncDirIf luck.renamesSynced)))
        ((unlinks d.load).take n))
      (d.applyAll (d.temps.map .discard ++ outputs.map .stage ++ outputs.map .publish ++
        (d.load.map .remove).take n)) := by
  have hrenamed := h.shows_renames luck outputs.length
  rw [List.take_of_length_le (by simp [renames]), List.take_of_length_le (by simp)] at hrenamed
  rw [acts_append, acts_append, applyAll_append]
  exact (hrenamed.congr fun x hw => acts_quiet (within_syncDirIf _) _ hw).unlinks d.load n

/-- At every moment of a compaction the tables found answer as before it. -/
theorem throughout (h : Compacting sizes found d outputs) (luck : Luck) :
    Throughout (Resolved sizes fun k => resolve k (layers d.load)) found (rewriteInstrs sizes luck d.load outputs) := by
  have hcrash : ∀ {g : FileName → Option Contents} {steps : List DirStep},
      (∃ n, (compactionSteps d d.load outputs).take n = steps) → Shows sizes g (d.applyAll steps) →
        Resolved sizes (fun k => resolve k (layers d.load)) g := by
    rintro g _ ⟨n, rfl⟩ hshows
    exact resolved_crash h.accepted h.spec h.outputsAccepted n hshows
  have hstaged := throughout_quiet Resolved.congr (@quiet_stageOutputs sizes luck outputs)
    (hcrash ⟨0, rfl⟩ h.shows)
  have hrenamed : Throughout (Resolved sizes fun k => resolve k (layers d.load))
      (acts found (stageOutputs sizes luck outputs)) (renames outputs) :=
    fun n => hcrash (exists_take_renames d d.load outputs n) (h.shows_renames luck n)
  have hsynced := hrenamed.append (throughout_quiet Resolved.congr (within_syncDirIf luck.renamesSynced) hrenamed.last)
  have hremoved : Throughout (Resolved sizes fun k => resolve k (layers d.load))
      (acts found (stageOutputs sizes luck outputs ++ (renames outputs ++ syncDirIf luck.renamesSynced)))
      (unlinks d.load) := fun n => hcrash ⟨_, List.take_length_add_append _⟩ (h.shows_unlinks luck n)
  exact (hstaged.append hsynced).append
    (hremoved.append (throughout_quiet Resolved.congr (within_syncDirIf luck.removalsSynced) hremoved.last))

theorem shows_end (h : Compacting sizes found d outputs) (luck : Luck) :
    Shows sizes (acts found (rewriteInstrs sizes luck d.load outputs))
      (d.applyAll (compactionSteps d d.load outputs)) := by
  have hremoved := h.shows_unlinks luck d.load.length
  rw [List.take_of_length_le (by simp [unlinks]), List.take_of_length_le (by simp)] at hremoved
  rw [rewriteInstrs, acts_append, acts_append]
  exact hremoved.congr fun x hw => acts_quiet (within_syncDirIf _) _ hw

end Compacting

/-- A compaction leaves the log alone. -/
theorem within_rewrite (luck : Luck) (inputs outputs : List SSTable) :
    Within (· ≠ .log) (rewriteInstrs sizes luck inputs outputs) := by
  refine .append (.append ((quiet_stageOutputs luck outputs).mono fun x hx heq => hx (heq ▸ trivial))
    (.append ?_ (within_syncDirIf _))) (.append ?_ (within_syncDirIf _))
  · intro i hi x hx
    obtain ⟨t, -, rfl⟩ := List.mem_map.mp hi
    rcases hx with rfl | rfl <;> exact FileName.noConfusion
  · intro i hi x hx
    obtain ⟨t, -, rfl⟩ := List.mem_map.mp hi
    cases hx
    exact FileName.noConfusion

end Rewrite

/-! ### Along the engine -/

section Engine
variable {sizes : Sizes} {f f' : FileEngine} {e : Engine} {found : FileName → Option Contents}

/-- What the steps of an undisturbed compaction of the engine do. -/
structure CompactMoments (sizes : Sizes) (found : FileName → Option Contents) (m : Key → Option Bytes)
    (f' : FileEngine) (is : Program) : Prop where
  careful : Disk.CarefulRun Watched Settled found is
  within : Within (· ≠ .log) is
  resolved : Throughout (Resolved sizes m) found is
  files : ∀ name, acts found is (.table name 0) = (findFile f'.files name).map (.bytes · true)

theorem compact_moments (h : Represents sizes f e) (hord : e.Ordered) (hok : f.compact sizes = .ok f')
    (hshows : Shows sizes found e.dir) (luck : Luck) :
    CompactMoments sizes found (fun k => resolve k (layers e.sstables)) f' (compactInstrs sizes luck f) := by
  have hresolved : Resolved sizes (fun k => resolve k (layers e.sstables)) found :=
    ⟨e.dir, h.accepted, hshows, fun k => by rw [hord.load_eq]⟩
  have hfiles : ∀ {g : FileName → Option Contents} {d : Directory}, Shows sizes g d →
      f'.files = d.files.map (fileOf sizes) →
        ∀ name, g (.table name 0) = (findFile f'.files name).map (.bytes · true) := by
    intro g d hg heq name
    rw [heq]
    exact hg name
  have hcompact := h.compact hord
  rw [hok] at hcompact
  obtain ⟨e', he', hrep'⟩ := hcompact
  rw [FileEngine.compact] at hok
  by_cases hfew : (f.sstables.filter (·.name.level = .l0)).length < l0Threshold
  · rw [if_pos hfew] at hok
    rw [compactInstrs, if_pos hfew]
    cases hok
    exact ⟨trivial, .nil, fun n => by rwa [List.take_nil], hfiles hshows h.files⟩
  · rw [if_neg hfew] at hok
    split_ifs at hok with hstart
    have hstaged := h.staged_eq hord (Nat.le_of_not_lt hstart)
    rw [compactInstrs, if_neg hfew]
    cases hstage : FileEngine.stageAll sizes f.l1Start (merge (f.sstables.map f.mergeSource)) with
    | error err =>
      rw [hstage] at hok
      cases hok
    | ok staged =>
      rw [hstage] at hstaged
      obtain ⟨outputs, hout, rfl, haccepted⟩ := hstaged
      have hcompacting : Compacting sizes found e.dir outputs := ⟨hshows, h.accepted, hord.outputs hout, haccepted⟩
      have hprogram : luck.swept.map (fun p => Instr.unlink (FileName.table p.1 (p.2 + 1))) ++
          (outputs.map (fileOf sizes)).flatMap flushBufferInstrs ++
          ((outputs.map (fileOf sizes)).map (fun p => .rename (.table p.1 1) (.table p.1 0)) ++
            syncDirIf luck.renamesSynced) ++
          (f.sstables.map (fun t => .unlink (.table t.name 0)) ++ syncDirIf luck.removalsSynced) =
          rewriteInstrs sizes luck e.dir.load outputs := by
        have hinputs : f.sstables.map (fun t => (.unlink (.table t.name 0) : Instr FileName Contents)) =
            unlinks e.dir.load := by
          have hnames := congrArg (List.map fun name => (.unlink (.table name 0) : Instr FileName Contents))
            (OpenedAs.map_name h.opened)
          rw [List.map_map, List.map_map] at hnames
          rw [hord.load_eq]
          exact hnames
        rw [hinputs, List.map_map]
        rfl
      have hdir : e'.dir = e.dir.applyAll (compactionSteps e.dir e.dir.load outputs) := by
        rw [hord.load_eq]
        rcases Engine.compact_cases he' with ⟨hlt, -⟩ | ⟨outputs', -, hout', rfl⟩
        · exact absurd (h.l0Count_eq ▸ hlt) hfew
        · rw [Option.some.inj (hout'.symm.trans hout)]
      simp only [hprogram]
      refine ⟨hcompacting.careful luck, within_rewrite luck _ _, ?_, hfiles (hcompacting.shows_end luck) ?_⟩
      · have hmoments := hcompacting.throughout luck
        rwa [hord.load_eq] at hmoments ⊢
      · rw [hrep'.files, hdir]

/-- The table of a flush is written and registered; the other steps come after. -/
theorem flushInstrs_eq {g : FileEngine} (h : Represents sizes f e) (hok : f.writeTable sizes = .ok g) (luck : Luck) :
    ∃ hlt : e.sstCounter < intMax, Accepted sizes e.memtable.entries ∧ flushInstrs sizes luck f =
      writeInstrs (e.table hlt.le).name 0 (fileOf sizes (e.table hlt.le)).2 .done ++
        (clearInstrs ++ compactInstrs sizes luck g.clearLog) := by
  obtain ⟨memtable, sstables, sstCounter, files, log, cache⟩ := f
  obtain ⟨rfl, rfl, rfl, rfl, -, -, -⟩ := h
  have hwrite := hok
  rw [FileEngine.writeTable] at hwrite
  split_ifs at hwrite with hlt
  cases hfile : Table.write (sizes.numBlocks e.memtable.entries.length) (sizes.pos _) e.memtable.entries with
  | error err =>
    simp only [hfile] at hwrite
    cases hwrite
  | ok file =>
    obtain ⟨haccepted, rfl⟩ := Accepted.of_write hfile
    refine ⟨hlt, haccepted, ?_⟩
    rw [flushInstrs, dif_pos hlt]
    simp only [hfile, hok]
    rfl

end Engine

end LsmTree.PowerLoss
