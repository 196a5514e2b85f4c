import LsmTree.CompactionCrash
import LsmTree.CrashStore
import LsmTree.FileEngineRefinement
import LsmTree.StableStorage

/-!
# Power loss

A table is written under a temporary name, synced, renamed, and then the directory is
synced; only then is the log removed and created anew, and only then does a compaction
begin, which stages its outputs in the same way before it publishes the first of them.
So what a power loss leaves is a state of the directory from an earlier moment, with
every table complete.

The log is another matter. Its removal is not synced, so it can come back; and those of
its records that no `fdatasync` has covered can then be missing. What is recovered is
never worse than after a power loss before the flush, but a flush that has returned is
safe only if no such record hides an older value in the same log.
-/

namespace LsmTree.PowerLoss
open LittleEndian LayeredMap Merge Table StableStorage

/-- A table under its name with so many `.tmp` appended, or the log. -/
inductive FileName where
  | table (name : TableName) (tmps : ℕ)
  | log
  deriving DecidableEq

/-- Whether an `fdatasync` has covered a record, or a power loss has made a hole of it. -/
inductive RecordState where
  | unsynced
  | synced
  | missing
  deriving DecidableEq

structure LogRecord where
  op : Op
  state : RecordState
  deriving DecidableEq

def LogRecord.sync (r : LogRecord) : LogRecord := if r.state = .unsynced then { r with state := .synced } else r

/-- A table file, synced or not, or the log. -/
inductive Contents where
  | bytes (b : Bytes) (synced : Bool)
  | records (rs : List LogRecord)
  deriving DecidableEq

def Contents.sync : Contents → Contents
  | .bytes b _ => .bytes b true
  | .records rs => .records (rs.map LogRecord.sync)

/-- What a power loss makes of a record. -/
inductive RecordKept : LogRecord → LogRecord → Prop
  | keep (r : LogRecord) : RecordKept r r
  | lose (op : Op) : RecordKept ⟨op, .unsynced⟩ ⟨op, .missing⟩

abbrev Kept : List LogRecord → List LogRecord → Prop := List.Forall₂ RecordKept

/-- What a power loss leaves of a file. Anything may stand where nothing was synced. -/
inductive Keeps : Contents → Contents → Prop
  | synced (b : Bytes) : Keeps (.bytes b true) (.bytes b true)
  | torn (b b' : Bytes) (synced : Bool) : Keeps (.bytes b false) (.bytes b' synced)
  | records {rs ss : List LogRecord} (h : Kept rs ss) : Keeps (.records rs) (.records ss)

theorem Keeps.refl (x : Contents) : Keeps x x := by
  cases x with
  | bytes b synced =>
    cases synced
    · exact .torn b b false
    · exact .synced b
  | records rs => exact .records (List.forall₂_same.mpr fun r _ => .keep r)

/-- The names that a start looks for. -/
def Watched : FileName → Prop
  | .table _ tmps => tmps = 0
  | .log => True

def Settled : Contents → Prop
  | .bytes _ synced => synced = true
  | .records _ => True

abbrev Program := List (Instr FileName Contents)

/-! ### Writing a table -/

/-- How far `SSTable::write` gets: the entries are refused or the file cannot be created; a length is out
of range, with part of the table written; the stream fails; the file cannot be closed, opened again, synced
or closed after the sync; it cannot be renamed; the directory cannot be synced. Errors of `discardPartial`
are swallowed. -/
inductive WriteOutcome where
  | cannotCreate
  | abandoned (part : Bytes)
  | failedStream (part : Bytes) (removed : Bool)
  | failedSync (synced removed : Bool)
  | failedRename (removed : Bool)
  | failedDirSync
  | done

def discardPartial (name : FileName) (removed : Bool) : Program := if removed then [.unlink name] else []

/-- The temporary is written and synced. -/
def stageInstrs (name : FileName) (file : Bytes) : Program :=
  [.create name (.bytes [] false), .modify name fun _ => .bytes file false, .modify name Contents.sync]

/-- `SSTable::write` on a path with so many `.tmp` at its end. -/
def writeInstrs (name : TableName) (tmps : ℕ) (file : Bytes) : WriteOutcome → Program
  | .cannotCreate => []
  | .abandoned part => [.create (.table name (tmps + 1)) (.bytes part false)]
  | .failedStream part removed =>
    .create (.table name (tmps + 1)) (.bytes part false) :: discardPartial (.table name (tmps + 1)) removed
  | .failedSync synced removed =>
    .create (.table name (tmps + 1)) (.bytes [] false) ::
      .modify (.table name (tmps + 1)) (fun _ => .bytes file synced) :: discardPartial (.table name (tmps + 1)) removed
  | .failedRename removed =>
    stageInstrs (.table name (tmps + 1)) file ++ discardPartial (.table name (tmps + 1)) removed
  | .failedDirSync =>
    stageInstrs (.table name (tmps + 1)) file ++ [.rename (.table name (tmps + 1)) (.table name tmps)]
  | .done =>
    stageInstrs (.table name (tmps + 1)) file ++ [.rename (.table name (tmps + 1)) (.table name tmps), .syncDir]

/-- The program leaves the names alone that a start looks for. -/
abbrev Quiet (is : Program) : Prop := Within (fun x => ¬ Watched x) is

theorem acts_quiet {is : Program} (his : Quiet is) (found : FileName → Option Contents) {x : FileName}
    (hw : Watched x) : acts found is x = found x := acts_of_within found his (not_not.mpr hw)

theorem not_watched_tmp (name : TableName) (tmps : ℕ) : ¬ Watched (.table name (tmps + 1)) := Nat.succ_ne_zero tmps

theorem within_stage (name : FileName) (file : Bytes) : Within (· = name) (stageInstrs name file) :=
  .cons (fun _ => Eq.symm) (.cons (fun _ => Eq.symm) (.cons (fun _ => Eq.symm) .nil))

theorem within_discard (name : FileName) (removed : Bool) : Within (· = name) (discardPartial name removed) := by
  cases removed
  · exact .nil
  · exact .cons (fun _ => Eq.symm) .nil

theorem within_syncDir {P : FileName → Prop} : Within P ([.syncDir] : Program) := .cons (fun _ hx => hx.elim) .nil

theorem quiet_of_within {name : FileName} (hname : ¬ Watched name) {is : Program} (h : Within (· = name) is) :
    Quiet is := h.mono fun _ heq => heq ▸ hname

theorem throughout_quiet {Q : (FileName → Option Contents) → Prop}
    (hQ : ∀ f g, (∀ x, Watched x → g x = f x) → Q f → Q g) {found : FileName → Option Contents} {is : Program}
    (his : Quiet is) (h : Q found) : Throughout Q found is :=
  fun n => hQ found _ (fun _ hw => acts_quiet (his.take n) found hw) h

theorem acts_stage (found : FileName → Option Contents) (name : FileName) (file : Bytes) :
    acts found (stageInstrs name file) = Function.update found name (some (.bytes file true)) := by
  simp [acts, stageInstrs, Instr.act, Contents.sync]

theorem careful_stage {name : FileName} (h : ¬ Watched name) (found : FileName → Option Contents) (file : Bytes) :
    Disk.CarefulRun Watched Settled found (stageInstrs name file) :=
  ⟨fun hw => absurd hw h, h, h, trivial⟩

theorem careful_discard (found : FileName → Option Contents) (name : FileName) (removed : Bool) :
    Disk.CarefulRun Watched Settled found (discardPartial name removed) := by
  cases removed
  · exact trivial
  · exact ⟨trivial, trivial⟩

/-- The renaming of a synced temporary. -/
theorem careful_publish {found : FileName → Option Contents} {src dst : FileName} {file : Bytes} (hne : src ≠ dst)
    (hsrc : ¬ Watched src) (hfound : found src = some (.bytes file true)) :
    Disk.Careful Watched Settled found (.rename src dst) := ⟨hne, hsrc, _, hfound, fun _ => rfl⟩

theorem act_publish {found : FileName → Option Contents} {src dst : FileName} {x : Contents} (hsrc : ¬ Watched src)
    (hfound : found src = some x) {name : FileName} (hw : Watched name) :
    (Instr.rename src dst).act found name = if name = dst then some x else found name := by
  have hne : name ≠ src := fun heq => hsrc (heq ▸ hw)
  rw [Instr.act, Function.update_of_ne hne, Function.update_apply, hfound]

theorem tmp_ne (name : TableName) (tmps : ℕ) : FileName.table name (tmps + 1) ≠ .table name tmps := by
  intro heq
  cases heq

theorem acts_stage_tmp (found : FileName → Option Contents) (name : TableName) (tmps : ℕ) (file : Bytes) :
    acts found (stageInstrs (.table name (tmps + 1)) file) (.table name (tmps + 1)) = some (.bytes file true) := by
  rw [acts_stage, Function.update_self]

theorem careful_write (found : FileName → Option Contents) (name : TableName) (tmps : ℕ) (file : Bytes)
    (outcome : WriteOutcome) : Disk.CarefulRun Watched Settled found (writeInstrs name tmps file outcome) := by
  have htmp := not_watched_tmp name tmps
  have hpublish := careful_publish (tmp_ne name tmps) htmp (acts_stage_tmp found name tmps file)
  cases outcome with
  | cannotCreate => trivial
  | abandoned part => exact ⟨fun hw => absurd hw htmp, trivial⟩
  | failedStream part removed => exact ⟨fun hw => absurd hw htmp, careful_discard _ _ _⟩
  | failedSync synced removed => exact ⟨fun hw => absurd hw htmp, htmp, careful_discard _ _ _⟩
  | failedRename removed => exact Disk.carefulRun_append.mpr ⟨careful_stage htmp _ _, careful_discard _ _ _⟩
  | failedDirSync => exact Disk.carefulRun_append.mpr ⟨careful_stage htmp _ _, hpublish, trivial⟩
  | done => exact Disk.carefulRun_append.mpr ⟨careful_stage htmp _ _, hpublish, trivial, trivial⟩

/-- What a start would find once the table has its name. -/
def published (found : FileName → Option Contents) (name : TableName) (file : Bytes) (x : FileName) : Option Contents :=
  if x = .table name 0 then some (.bytes file true) else found x

/-- A start would find what it would have found before, or the table in addition. -/
def OldOrNew (found : FileName → Option Contents) (name : TableName) (file : Bytes)
    (found' : FileName → Option Contents) : Prop :=
  (∀ x, Watched x → found' x = found x) ∨ ∀ x, Watched x → found' x = published found name file x

theorem acts_publish (found : FileName → Option Contents) (name : TableName) (file : Bytes) {x : FileName}
    (hw : Watched x) : acts found (stageInstrs (.table name 1) file ++ [.rename (.table name 1) (.table name 0)]) x =
      published found name file x := by
  have htmp := not_watched_tmp name 0
  rw [acts_append]
  refine (act_publish htmp (acts_stage_tmp found name 0 file) hw).trans ?_
  rw [acts_quiet (quiet_of_within htmp (within_stage _ file)) found hw, published]

theorem throughout_write (found : FileName → Option Contents) (name : TableName) (file : Bytes) (outcome : WriteOutcome) :
    Throughout (OldOrNew found name file) found (writeInstrs name 0 file outcome) := by
  have htmp := not_watched_tmp name 0
  have hagree : ∀ f g, (∀ x, Watched x → g x = f x) → OldOrNew found name file f → OldOrNew found name file g :=
    fun f g hfg h => h.imp (fun hf x hw => (hfg x hw).trans (hf x hw)) fun hf x hw => (hfg x hw).trans (hf x hw)
  have hold : OldOrNew found name file found := .inl fun _ _ => rfl
  have hquiet : ∀ is : Program, Within (· = .table name 1) is → Throughout (OldOrNew found name file) found is :=
    fun is his => throughout_quiet hagree (quiet_of_within htmp his) hold
  have hpublished : Throughout (OldOrNew found name file) found
      (stageInstrs (.table name 1) file ++ [.rename (.table name 1) (.table name 0)]) := by
    refine (hquiet _ (within_stage _ file)).append fun n => ?_
    cases n with
    | zero => exact (hquiet _ (within_stage _ file)).last
    | succ n =>
      refine .inr fun x hw => ?_
      rw [List.take_succ_cons, List.take_nil, ← acts_append]
      exact acts_publish found name file hw
  cases outcome with
  | cannotCreate => exact hquiet [] .nil
  | abandoned part => exact hquiet _ (.cons (fun _ => Eq.symm) .nil)
  | failedStream part removed => exact hquiet _ (.cons (fun _ => Eq.symm) (within_discard _ removed))
  | failedSync synced removed =>
    exact hquiet _ (.cons (fun _ => Eq.symm) (.cons (fun _ => Eq.symm) (within_discard _ removed)))
  | failedRename removed => exact hquiet _ ((within_stage _ file).append (within_discard _ removed))
  | failedDirSync => exact hpublished
  | done =>
    have hsynced := hpublished.append (throughout_quiet hagree within_syncDir hpublished.last)
    rwa [List.append_assoc] at hsynced

/-- What a power loss leaves of what a start would have found. -/
def Survives (found : FileName → Option Contents) (dir : Dir FileName) (read : ℕ → Contents) : Prop :=
  ∀ x, Watched x → Option.Rel Keeps (found x) ((dir x).map read)

theorem survives_of_eq {found : FileName → Option Contents} {disk : Disk FileName Contents} {dir : Dir FileName}
    {read : ℕ → Contents} (hkeeps : ∀ file, Keeps (disk.contents file) (read file))
    (h : ∀ x, Watched x → (dir x).map disk.contents = found x) : Survives found dir read := by
  intro x hw
  rw [← h x hw]
  cases dir x with
  | none => exact .none
  | some file => exact .some (hkeeps file)

/-- However far `SSTable::write` gets and wherever the power fails in it, a start finds what it could have
found before the call, or in addition the complete table; once the call has returned, the table. -/
theorem write_atomic_durable {disk : Disk FileName Contents} (h : disk.Stable Watched Settled) (name : TableName)
    (file : Bytes) (outcome : WriteOutcome) (n : ℕ) {dir : Dir FileName} {read : ℕ → Contents}
    (hleaves : (disk.run ((writeInstrs name 0 file outcome).take n)).Leaves Keeps dir read) :
    ((∃ dir₀, disk.MayLeave dir₀ ∧ Survives (fun x => (dir₀ x).map disk.contents) dir read) ∨
        Survives (published disk.find name file) dir read) ∧
      (outcome = .done → (writeInstrs name 0 file .done).length ≤ n → Survives (published disk.find name file) dir read) := by
  obtain ⟨hdir, hkeeps⟩ := hleaves
  have hcareful := careful_write disk.find name 0 file outcome
  constructor
  · rw [← List.take_append_drop n (writeInstrs name 0 file outcome)] at hcareful
    rcases h.mayLeave_run (Disk.carefulRun_append.mp hcareful).1 hdir with ⟨hdir, hcontents⟩ | ⟨m, -, -, hcontents⟩
    · exact .inl ⟨dir, hdir, survives_of_eq hkeeps hcontents⟩
    · rw [List.take_take] at hcontents
      rcases throughout_write disk.find name file outcome (min m n) with hold | hnew
      · refine .inl ⟨disk.view, disk.mayLeave_view, survives_of_eq hkeeps fun x hw => ?_⟩
        exact (hcontents x hw).trans (hold x hw)
      · exact .inr (survives_of_eq hkeeps fun x hw => (hcontents x hw).trans (hnew x hw))
  · rintro rfl hn
    have hsplit : writeInstrs name 0 file .done = (stageInstrs (.table name 1) file ++
        [.rename (.table name 1) (.table name 0)]) ++ .syncDir :: [] := by
      rw [List.append_assoc]
      rfl
    rw [List.take_of_length_le hn, hsplit] at hdir hkeeps
    rw [hsplit] at hcareful
    obtain ⟨m, -, -, hcontents⟩ := h.mayLeave_run_syncDir hcareful hdir
    refine survives_of_eq hkeeps fun x hw => (hcontents x hw).trans ?_
    rw [List.take_nil, acts_append]
    exact acts_publish disk.find name file hw

/-- An empty directory. -/
def blank : Disk FileName Contents where
  committed := fun _ => none
  pending := []
  contents := fun _ => .records []
  fresh := 0

theorem stable_blank : blank.Stable Watched Settled where
  injective := by
    intro a b file ha
    cases ha
  old := by
    intro name file hfile
    cases hfile
  settled := by
    intro name x _ hx
    cases hx
  frozen_of_mayLeave := by
    intro dir name file hdir _ hfile
    rw [Disk.mayLeave_of_pending_nil rfl hdir] at hfile
    cases hfile

def firstTable : TableName := ⟨.l0, 0, Nat.zero_le _⟩

def secondTable : TableName := ⟨.l0, 1, one_le_intMax⟩

/-- One table has been written, and the write of a second one has left a part of it that was not synced. -/
def halfWritten : Disk FileName Contents :=
  blank.run (writeInstrs firstTable 0 [7] .done ++ writeInstrs secondTable 0 [8] (.abandoned [9]))

theorem stable_halfWritten : halfWritten.Stable Watched Settled :=
  stable_blank.run (Disk.carefulRun_append.mpr ⟨careful_write _ _ _ _ _, careful_write _ _ _ _ _⟩)

/-- The second table is written again. -/
def writtenAgain (n : ℕ) : Disk FileName Contents := halfWritten.run ((writeInstrs secondTable 0 [8] .done).take n)

/-- The bytes of the part are lost. -/
def tornPart (disk : Disk FileName Contents) : ℕ → Contents := Function.update disk.contents 1 (.bytes [] true)

theorem keeps_tornPart {disk : Disk FileName Contents} (h : disk.contents 1 = .bytes [9] false) (file : ℕ) :
    Keeps (disk.contents file) (tornPart disk file) := by
  rw [tornPart]
  by_cases hfile : file = 1
  · rw [hfile, h, Function.update_self]
    exact .torn [9] [] true
  · rw [Function.update_of_ne hfile]
    exact .refl _

theorem Survives.table {found : FileName → Option Contents} {dir : Dir FileName} {read : ℕ → Contents} {b : Bytes}
    {name : TableName} (h : Survives found dir read) (hfound : found (.table name 0) = some (.bytes b true)) :
    (dir (.table name 0)).map read = some (.bytes b true) := by
  have hrel := h (.table name 0) rfl
  rw [hfound] at hrel
  generalize (dir (.table name 0)).map read = x at hrel ⊢
  obtain ⟨⟨⟩⟩ := hrel
  rfl

/-- If the power fails before the directory is synced, and the new name is lost, the first table is there; if
it fails once the call has returned, both are. -/
theorem write_atomic_durable_secondTable :
    ((writtenAgain 4).committed (.table firstTable 0)).map (tornPart (writtenAgain 4)) = some (.bytes [7] true) ∧
      Survives (published halfWritten.find secondTable [8]) (writtenAgain 5).view (tornPart (writtenAgain 5)) := by
  constructor
  · rcases (write_atomic_durable stable_halfWritten secondTable [8] .done 4
      ⟨⟨0, rfl⟩, keeps_tornPart (by decide +kernel)⟩).1 with ⟨dir₀, ⟨n, rfl⟩, hold⟩ | hnew
    · refine hold.table ?_
      cases n with
      | zero => decide +kernel
      | succ n =>
        have hpending : halfWritten.pending.length ≤ 1 := by decide +kernel
        rw [List.take_of_length_le (hpending.trans (Nat.le_add_left 1 n))]
        decide +kernel
    · exact hnew.table (by decide +kernel)
  · exact (write_atomic_durable stable_halfWritten secondTable [8] .done 5
      ⟨Disk.mayLeave_view _, keeps_tornPart (by decide +kernel)⟩).2 rfl (by decide)

end LsmTree.PowerLoss
