import Mathlib.Data.List.Induction
import Mathlib.Order.Basic
import Mathlib.Order.Nat
import Mathlib.Logic.Function.Basic

/-!
# Stable storage

A directory maps names to files. Changes of the directory reach stable storage in the
order they were made, at the latest when the directory is synced; what a file holds
reaches it when the file is synced. A power loss leaves the directory as some prefix of
the changes made since the last sync has made it, and of each file what its contents
keep.

Some names are watched. A program is careful when it changes files under other names
only, and gives a file a watched name only when its contents are settled. For the watched
names a power loss is then the end of the program after an earlier step.
-/

namespace LsmTree.StableStorage

variable {ν α : Type*}

abbrev Dir (ν : Type*) := ν → Option ℕ

inductive DirOp (ν : Type*) where
  | link (name : ν) (file : ℕ)
  | rename (src dst : ν)
  | unlink (name : ν)

/-- The steps of a program. A file that is created is a new one. -/
inductive Instr (ν α : Type*) where
  | create (name : ν) (x : α)
  | modify (name : ν) (f : α → α)
  | rename (src dst : ν)
  | unlink (name : ν)
  | syncDir

/-- A step on what is found under the names. -/
def Instr.act [DecidableEq ν] (found : ν → Option α) : Instr ν α → ν → Option α
  | .create name x => Function.update found name (some x)
  | .modify name f => Function.update found name ((found name).map f)
  | .rename src dst => Function.update (Function.update found dst (found src)) src none
  | .unlink name => Function.update found name none
  | .syncDir => found

def acts [DecidableEq ν] (found : ν → Option α) (is : List (Instr ν α)) : ν → Option α := is.foldl Instr.act found

def Instr.Mentions (name : ν) : Instr ν α → Prop
  | .create a _ | .modify a _ | .unlink a => a = name
  | .rename src dst => src = name ∨ dst = name
  | .syncDir => False

/-- The program mentions such names only. -/
def Within (P : ν → Prop) (is : List (Instr ν α)) : Prop := ∀ i ∈ is, ∀ name, i.Mentions name → P name

theorem Within.mono {P Q : ν → Prop} {is : List (Instr ν α)} (h : Within P is) (hPQ : ∀ name, P name → Q name) :
    Within Q is := fun i hi name hname => hPQ name (h i hi name hname)

theorem Within.nil {P : ν → Prop} : Within P ([] : List (Instr ν α)) := by
  intro i hi
  cases hi

theorem Within.cons {P : ν → Prop} {i : Instr ν α} {is : List (Instr ν α)} (hi : ∀ name, i.Mentions name → P name)
    (h : Within P is) : Within P (i :: is) := by
  intro j hj
  rcases List.mem_cons.mp hj with rfl | hj
  · exact hi
  · exact h j hj

theorem Within.append {P : ν → Prop} {is js : List (Instr ν α)} (h : Within P is) (h' : Within P js) :
    Within P (is ++ js) := fun i hi => (List.mem_append.mp hi).elim (h i) (h' i)

theorem Within.take {P : ν → Prop} {is : List (Instr ν α)} (h : Within P is) (n : ℕ) : Within P (is.take n) :=
  fun i hi => h i (List.mem_of_mem_take hi)

structure Disk (ν α : Type*) where
  committed : Dir ν
  pending : List (DirOp ν)
  contents : ℕ → α
  fresh : ℕ

section Steps
variable [DecidableEq ν]

def DirOp.apply (dir : Dir ν) : DirOp ν → Dir ν
  | .link name file => Function.update dir name (some file)
  | .rename src dst => Function.update (Function.update dir dst (dir src)) src none
  | .unlink name => Function.update dir name none

namespace Disk

/-- The directory as the running system sees it. -/
def view (d : Disk ν α) : Dir ν := d.pending.foldl DirOp.apply d.committed

/-- What is under a name. -/
def find (d : Disk ν α) (name : ν) : Option α := (d.view name).map d.contents

def record (d : Disk ν α) (op : DirOp ν) : Disk ν α := { d with pending := d.pending ++ [op] }

def step (d : Disk ν α) : Instr ν α → Disk ν α
  | .create name x =>
    { d with contents := Function.update d.contents d.fresh x, fresh := d.fresh + 1 }.record (.link name d.fresh)
  | .modify name f =>
    match d.view name with
    | none => d
    | some file => { d with contents := Function.update d.contents file (f (d.contents file)) }
  | .rename src dst => d.record (.rename src dst)
  | .unlink name => d.record (.unlink name)
  | .syncDir => { d with committed := d.view, pending := [] }

def run (d : Disk ν α) (is : List (Instr ν α)) : Disk ν α := is.foldl step d

@[simp] theorem run_nil (d : Disk ν α) : d.run [] = d := rfl

@[simp] theorem run_cons (d : Disk ν α) (i : Instr ν α) (is : List (Instr ν α)) : d.run (i :: is) = (d.step i).run is := rfl

theorem run_append (d : Disk ν α) (is js : List (Instr ν α)) : d.run (is ++ js) = (d.run is).run js :=
  List.foldl_append

theorem view_record (d : Disk ν α) (op : DirOp ν) : (d.record op).view = op.apply d.view := by
  rw [view, record, List.foldl_append]
  rfl

/-- A directory that a power loss may leave. -/
def MayLeave (d : Disk ν α) (dir : Dir ν) : Prop := ∃ n, dir = (d.pending.take n).foldl DirOp.apply d.committed

/-- What a power loss may leave: a directory and the contents of the files. -/
def Leaves (keeps : α → α → Prop) (d : Disk ν α) (dir : Dir ν) (read : ℕ → α) : Prop :=
  d.MayLeave dir ∧ ∀ file, keeps (d.contents file) (read file)

theorem mayLeave_view (d : Disk ν α) : d.MayLeave d.view := ⟨d.pending.length, by rw [List.take_length, view]⟩

theorem mayLeave_of_pending_nil {d : Disk ν α} (hd : d.pending = []) {dir : Dir ν} (h : d.MayLeave dir) :
    dir = d.view := by
  obtain ⟨n, rfl⟩ := h
  rw [view, hd, List.take_nil]

theorem mayLeave_record {d : Disk ν α} {op : DirOp ν} {dir : Dir ν} (h : (d.record op).MayLeave dir) :
    d.MayLeave dir ∨ dir = (d.record op).view := by
  obtain ⟨n, rfl⟩ := h
  by_cases hn : n ≤ d.pending.length
  · exact .inl ⟨n, by rw [record, List.take_append_of_le_length hn]⟩
  · exact .inr (by rw [view, List.take_of_length_le (by simp [record]; omega)])

/-- A step adds at most one directory to those that a power loss may leave. -/
theorem mayLeave_step {d : Disk ν α} {i : Instr ν α} {dir : Dir ν} (h : (d.step i).MayLeave dir) :
    d.MayLeave dir ∨ dir = (d.step i).view := by
  cases i with
  | create name x => exact mayLeave_record h
  | modify name f =>
    refine .inl ?_
    simp only [step] at h
    cases hname : d.view name with
    | none => rwa [hname] at h
    | some file => rwa [hname] at h
  | rename src dst => exact mayLeave_record h
  | unlink name => exact mayLeave_record h
  | syncDir => exact .inr (mayLeave_of_pending_nil rfl h)

theorem mayLeave_run {d : Disk ν α} {is : List (Instr ν α)} {dir : Dir ν} (h : (d.run is).MayLeave dir) :
    d.MayLeave dir ∨ ∃ m ≤ is.length, dir = (d.run (is.take m)).view := by
  induction is using List.reverseRecOn with
  | nil => exact .inl h
  | append_singleton is i ih =>
    rw [run_append] at h
    rcases mayLeave_step h with h | h
    · refine (ih h).imp_right ?_
      rintro ⟨m, hm, heq⟩
      exact ⟨m, hm.trans (by simp), by rw [heq, List.take_append_of_le_length hm]⟩
    · exact .inr ⟨_, Nat.le_refl _, by rw [h, List.take_length, run_append, run_cons, run_nil]⟩

/-! ### Careful programs -/

section Careful
variable (Watched : ν → Prop) (settled : α → Prop)

/-- The step changes no file with a watched name, and gives a watched name to a settled file only. -/
def Careful (found : ν → Option α) : Instr ν α → Prop
  | .create name x => Watched name → settled x
  | .modify name _ => ¬ Watched name
  | .rename src dst => src ≠ dst ∧ ¬ Watched src ∧ ∃ x, found src = some x ∧ (Watched dst → settled x)
  | .unlink _ => True
  | .syncDir => True

def CarefulRun : (ν → Option α) → List (Instr ν α) → Prop
  | _, [] => True
  | found, i :: is => Careful Watched settled found i ∧ CarefulRun (i.act found) is

/-- Every file has one name, and one with a watched name is settled. -/
structure Sound (d : Disk ν α) : Prop where
  injective : ∀ a b file, d.view a = some file → d.view b = some file → a = b
  old : ∀ name file, d.view name = some file → file < d.fresh
  settled : ∀ name x, Watched name → d.find name = some x → settled x

/-- The file is not under an unwatched name. -/
def Frozen (d : Disk ν α) (file : ℕ) : Prop := file < d.fresh ∧ ∀ name, d.view name = some file → Watched name

/-- Whatever directory a power loss leaves, its watched files stay as they are. -/
structure Stable (d : Disk ν α) : Prop extends Sound Watched settled d where
  frozen_of_mayLeave : ∀ dir name file, d.MayLeave dir → Watched name → dir name = some file → Frozen Watched d file

variable {Watched settled} {d : Disk ν α}

theorem view_create (d : Disk ν α) (name : ν) (x : α) :
    (d.step (.create name x)).view = Function.update d.view name (some d.fresh) :=
  view_record { d with contents := _, fresh := _ } _

theorem view_modify (d : Disk ν α) (name : ν) (f : α → α) : (d.step (.modify name f)).view = d.view := by
  simp only [step]
  cases d.view name <;> rfl

theorem view_rename (d : Disk ν α) (src dst : ν) :
    (d.step (.rename src dst)).view = Function.update (Function.update d.view dst (d.view src)) src none :=
  view_record d _

theorem view_unlink (d : Disk ν α) (name : ν) : (d.step (.unlink name)).view = Function.update d.view name none :=
  view_record d _

theorem step_modify_of_view {name : ν} {file : ℕ} (h : d.view name = some file) (f : α → α) :
    d.step (.modify name f) = { d with contents := Function.update d.contents file (f (d.contents file)) } := by
  simp only [step, h]

theorem step_modify_of_none {name : ν} (h : d.view name = none) (f : α → α) : d.step (.modify name f) = d := by
  simp only [step, h]

theorem Sound.find_some (h : Sound Watched settled d) {name : ν} {file : ℕ} (hw : Watched name)
    (hfile : d.view name = some file) : settled (d.contents file) :=
  h.settled name _ hw (by rw [find, hfile, Option.map_some])

theorem Sound.step (h : Sound Watched settled d) {i : Instr ν α} (hi : Careful Watched settled d.find i) :
    Sound Watched settled (d.step i) := by
  cases i with
  | create name x =>
    have hfresh : ∀ a, d.view a ≠ some d.fresh := fun a ha => Nat.lt_irrefl _ (h.old a _ ha)
    refine ⟨?_, ?_, ?_⟩
    · intro a b file ha hb
      rw [view_create, Function.update_apply] at ha hb
      split_ifs at ha hb with hna hnb hnb
      · exact hna.trans hnb.symm
      · exact absurd (hb.trans ha.symm) (hfresh b)
      · exact absurd (ha.trans hb.symm) (hfresh a)
      · exact h.injective a b file ha hb
    · intro a file ha
      rw [view_create, Function.update_apply] at ha
      split_ifs at ha
      · exact Option.some.inj ha ▸ Nat.lt_succ_self _
      · exact Nat.lt_succ_of_lt (h.old a file ha)
    · intro a y hw ha
      rw [find, view_create, Function.update_apply] at ha
      split_ifs at ha with hname
      · have hself : (d.step (.create name x)).contents d.fresh = x := by
          simp only [Disk.step, Disk.record, Function.update_self]
        rw [Option.map_some, hself] at ha
        exact Option.some.inj ha ▸ hi (hname ▸ hw)
      · obtain ⟨file, hfile, rfl⟩ := Option.map_eq_some_iff.mp ha
        have hcontents : (d.step (.create name x)).contents file = d.contents file :=
          Function.update_of_ne (h.old a file hfile).ne _ _
        exact hcontents ▸ h.find_some hw hfile
  | modify name f =>
    cases hname : d.view name with
    | none => rwa [step_modify_of_none hname]
    | some file =>
      rw [step_modify_of_view hname]
      refine ⟨h.injective, h.old, ?_⟩
      intro a y hw ha
      obtain ⟨file', hfile', rfl⟩ := Option.map_eq_some_iff.mp ha
      have hne : file' ≠ file := by
        rintro rfl
        exact hi (h.injective a name _ hfile' hname ▸ hw)
      have hcontents : Function.update d.contents file (f (d.contents file)) file' = d.contents file' :=
        Function.update_of_ne hne _ _
      exact (congrArg settled hcontents).mpr (h.find_some hw hfile')
  | rename src dst =>
    obtain ⟨hne, hsrc, x, hx, hsettled⟩ := hi
    have hother : ∀ a file, (d.step (.rename src dst)).view a = some file →
        a = dst ∧ d.view src = some file ∨ a ≠ src ∧ a ≠ dst ∧ d.view a = some file := by
      intro a file ha
      rw [view_rename, Function.update_apply, Function.update_apply] at ha
      split_ifs at ha with h₁ h₂
      · exact .inl ⟨h₂, ha⟩
      · exact .inr ⟨h₁, h₂, ha⟩
    refine ⟨?_, ?_, ?_⟩
    · intro a b file ha hb
      rcases hother a file ha with ⟨hadst, ha'⟩ | ⟨hasrc, -, ha'⟩ <;>
        rcases hother b file hb with ⟨hbdst, hb'⟩ | ⟨hbsrc, -, hb'⟩
      · exact hadst.trans hbdst.symm
      · exact absurd (h.injective b src file hb' ha') hbsrc
      · exact absurd (h.injective a src file ha' hb') hasrc
      · exact h.injective a b file ha' hb'
    · intro a file ha
      rcases hother a file ha with ⟨-, ha'⟩ | ⟨-, -, ha'⟩
      · exact h.old src file ha'
      · exact h.old a file ha'
    · intro a y hw ha
      obtain ⟨file, hfile, rfl⟩ := Option.map_eq_some_iff.mp ha
      rcases hother a file hfile with ⟨hadst, hfile'⟩ | ⟨-, -, hfile'⟩
      · rw [find, hfile', Option.map_some, Option.some.injEq] at hx
        exact (congrArg settled hx).mpr (hsettled (hadst ▸ hw))
      · exact h.find_some hw hfile'
  | unlink name =>
    have hother : ∀ a file, (d.step (.unlink name)).view a = some file → d.view a = some file := by
      intro a file ha
      rw [view_unlink, Function.update_apply] at ha
      split_ifs at ha
      exact ha
    refine ⟨fun a b file ha hb => h.injective a b file (hother a file ha) (hother b file hb),
      fun a file ha => h.old a file (hother a file ha), fun a y hw ha => ?_⟩
    obtain ⟨file, hfile, rfl⟩ := Option.map_eq_some_iff.mp ha
    exact h.find_some hw (hother a file hfile)
  | syncDir => exact ⟨h.injective, h.old, h.settled⟩

theorem Frozen.step {file : ℕ} (h : Frozen Watched d file) {i : Instr ν α} (hi : Careful Watched settled d.find i) :
    Frozen Watched (d.step i) file ∧ (d.step i).contents file = d.contents file := by
  obtain ⟨hold, hnames⟩ := h
  cases i with
  | create name x =>
    refine ⟨⟨Nat.lt_succ_of_lt hold, fun a ha => ?_⟩, Function.update_of_ne hold.ne _ _⟩
    rw [view_create, Function.update_apply] at ha
    split_ifs at ha
    · exact absurd (Option.some.inj ha) hold.ne'
    · exact hnames a ha
  | modify name f =>
    cases hname : d.view name with
    | none =>
      rw [step_modify_of_none hname]
      exact ⟨⟨hold, hnames⟩, rfl⟩
    | some file' =>
      rw [step_modify_of_view hname]
      refine ⟨⟨hold, hnames⟩, Function.update_of_ne ?_ _ _⟩
      rintro rfl
      exact hi (hnames name hname)
  | rename src dst =>
    refine ⟨⟨hold, fun a ha => ?_⟩, rfl⟩
    rw [view_rename, Function.update_apply, Function.update_apply] at ha
    split_ifs at ha
    · exact absurd (hnames src ha) hi.2.1
    · exact hnames a ha
  | unlink name =>
    refine ⟨⟨hold, fun a ha => ?_⟩, rfl⟩
    rw [view_unlink, Function.update_apply] at ha
    split_ifs at ha
    exact hnames a ha
  | syncDir => exact ⟨⟨hold, hnames⟩, rfl⟩

theorem Sound.find_step (h : Sound Watched settled d) (i : Instr ν α) : (d.step i).find = i.act d.find := by
  funext a
  cases i with
  | create name x =>
    rw [find, view_create, Instr.act, Function.update_apply, Function.update_apply]
    split_ifs
    · have hself : (d.step (.create name x)).contents d.fresh = x := by
        simp only [Disk.step, Disk.record, Function.update_self]
      rw [Option.map_some, hself]
    · cases ha : d.view a with
      | none => rw [find, ha, Option.map_none, Option.map_none]
      | some file =>
        rw [find, ha, Option.map_some, Option.map_some]
        exact congrArg some (Function.update_of_ne (h.old a file ha).ne _ _)
  | modify name f =>
    cases hname : d.view name with
    | none =>
      have hnone : d.find name = none := by rw [find, hname, Option.map_none]
      rw [step_modify_of_none hname, Instr.act, hnone, Option.map_none, Function.update_apply]
      split_ifs with ha
      · rw [ha, hnone]
      · rfl
    | some file =>
      have hsome : d.find name = some (d.contents file) := by rw [find, hname, Option.map_some]
      rw [step_modify_of_view hname, Instr.act, hsome, Option.map_some, Function.update_apply]
      split_ifs with ha
      · have hfound : (d.view name).map (Function.update d.contents file (f (d.contents file))) =
            some (f (d.contents file)) := by rw [hname, Option.map_some, Function.update_self]
        exact ha ▸ hfound
      · cases hview : d.view a with
        | none =>
          have hnone : (d.view a).map (Function.update d.contents file (f (d.contents file))) = none := by
            rw [hview, Option.map_none]
          exact hnone.trans (by rw [find, hview, Option.map_none])
        | some file' =>
          have hne : file' ≠ file := fun heq => ha (h.injective a name file (heq ▸ hview) hname)
          have hkept : (d.view a).map (Function.update d.contents file (f (d.contents file))) =
              some (d.contents file') := by rw [hview, Option.map_some, Function.update_of_ne hne]
          exact hkept.trans (by rw [find, hview, Option.map_some])
  | rename src dst =>
    rw [find, view_rename, Instr.act, Function.update_apply, Function.update_apply, Function.update_apply,
      Function.update_apply]
    split_ifs <;> rfl
  | unlink name =>
    rw [find, view_unlink, Instr.act, Function.update_apply, Function.update_apply]
    split_ifs <;> rfl
  | syncDir => rfl

theorem Sound.run (h : Sound Watched settled d) {is : List (Instr ν α)} (his : CarefulRun Watched settled d.find is) :
    Sound Watched settled (d.run is) ∧ (d.run is).find = acts d.find is := by
  induction is generalizing d with
  | nil => exact ⟨h, rfl⟩
  | cons i is ih =>
    obtain ⟨hi, hrest⟩ := his
    rw [← h.find_step i] at hrest
    obtain ⟨hsound, hfind⟩ := ih (h.step hi) hrest
    exact ⟨hsound, hfind.trans (by rw [h.find_step i]; rfl)⟩

theorem Frozen.run {file : ℕ} (h : Sound Watched settled d) (hfrozen : Frozen Watched d file) {is : List (Instr ν α)}
    (his : CarefulRun Watched settled d.find is) : (d.run is).contents file = d.contents file := by
  induction is generalizing d with
  | nil => rfl
  | cons i is ih =>
    obtain ⟨hi, hrest⟩ := his
    obtain ⟨hfrozen', hcontents⟩ := hfrozen.step hi
    rw [← h.find_step i] at hrest
    exact (ih (h.step hi) hfrozen' hrest).trans hcontents

theorem carefulRun_append {found : ν → Option α} {is js : List (Instr ν α)} :
    CarefulRun Watched settled found (is ++ js) ↔
      CarefulRun Watched settled found is ∧ CarefulRun Watched settled (acts found is) js := by
  induction is generalizing found with
  | nil => exact ⟨fun h => ⟨trivial, h⟩, And.right⟩
  | cons i is ih =>
    rw [List.cons_append, CarefulRun, CarefulRun, ih, and_assoc]
    rfl

theorem Sound.frozen (h : Sound Watched settled d) {name : ν} {file : ℕ} (hw : Watched name)
    (hfile : d.view name = some file) : Frozen Watched d file :=
  ⟨h.old name file hfile, fun a ha => h.injective a name file ha hfile ▸ hw⟩

theorem Stable.step (h : Stable Watched settled d) {i : Instr ν α} (hi : Careful Watched settled d.find i) :
    Stable Watched settled (d.step i) := by
  have hsound := h.toSound.step hi
  refine ⟨hsound, fun dir name file hdir hw hfile => ?_⟩
  rcases mayLeave_step hdir with hdir | rfl
  · exact ((h.frozen_of_mayLeave dir name file hdir hw hfile).step hi).1
  · exact hsound.frozen hw hfile

theorem Stable.run (h : Stable Watched settled d) {is : List (Instr ν α)} (his : CarefulRun Watched settled d.find is) :
    Stable Watched settled (d.run is) := by
  induction is generalizing d with
  | nil => exact h
  | cons i is ih =>
    obtain ⟨hi, hrest⟩ := his
    rw [← h.find_step i] at hrest
    exact ih (h.step hi) hrest

/-- A watched file may be modified in place. -/
theorem Stable.modify (h : Stable Watched settled d) (name : ν) {f : α → α} (hf : ∀ x, settled x → settled (f x)) :
    Stable Watched settled (d.step (.modify name f)) := by
  cases hname : d.view name with
  | none => rwa [step_modify_of_none hname]
  | some file =>
    rw [step_modify_of_view hname]
    refine ⟨⟨h.injective, h.old, fun a x hw ha => ?_⟩, h.frozen_of_mayLeave⟩
    obtain ⟨file', hfile', rfl⟩ := Option.map_eq_some_iff.mp ha
    have hsettled : settled (d.contents file') := h.find_some hw hfile'
    by_cases heq : file' = file
    · have hself : Function.update d.contents file (f (d.contents file)) file' = f (d.contents file') := by
        rw [heq, Function.update_self]
      exact (congrArg settled hself).mpr (hf _ hsettled)
    · have hother : Function.update d.contents file (f (d.contents file)) file' = d.contents file' :=
        Function.update_of_ne heq _ _
      exact (congrArg settled hother).mpr hsettled

/-- After a careful program a power loss leaves under the watched names what it could have left before
it, or what was there after some number of its steps. -/
theorem Stable.mayLeave_run (h : Stable Watched settled d) {is : List (Instr ν α)}
    (his : CarefulRun Watched settled d.find is) {dir : Dir ν} (hdir : (d.run is).MayLeave dir) :
    (d.MayLeave dir ∧ ∀ name, Watched name → (dir name).map (d.run is).contents = (dir name).map d.contents) ∨
      ∃ m ≤ is.length, dir = (d.run (is.take m)).view ∧
        ∀ name, Watched name → (dir name).map (d.run is).contents = acts d.find (is.take m) name := by
  rcases Disk.mayLeave_run hdir with hdir | ⟨m, hm, rfl⟩
  · refine .inl ⟨hdir, fun name hw => ?_⟩
    cases hfile : dir name with
    | none => rfl
    | some file =>
      rw [Option.map_some, Option.map_some, (h.frozen_of_mayLeave dir name file hdir hw hfile).run h.toSound his]
  · refine .inr ⟨m, hm, rfl, fun name hw => ?_⟩
    obtain ⟨hfirst, hrest⟩ := carefulRun_append.mp ((List.take_append_drop m is).symm ▸ his)
    obtain ⟨hsound, hfind⟩ := h.toSound.run hfirst
    rw [← hfind] at hrest ⊢
    rw [find]
    cases hfile : (d.run (is.take m)).view name with
    | none => rfl
    | some file =>
      have hcontents := (hsound.frozen hw hfile).run hsound hrest
      rw [← run_append, List.take_append_drop] at hcontents
      rw [Option.map_some, Option.map_some, hcontents]

/-- Once the directory has been synced, it leaves what was there then or later. -/
theorem Stable.mayLeave_run_syncDir (h : Stable Watched settled d) {is js : List (Instr ν α)}
    (his : CarefulRun Watched settled d.find (is ++ .syncDir :: js)) {dir : Dir ν}
    (hdir : (d.run (is ++ .syncDir :: js)).MayLeave dir) :
    ∃ m ≤ js.length, dir = (d.run (is ++ .syncDir :: js.take m)).view ∧
      ∀ name, Watched name → (dir name).map (d.run (is ++ .syncDir :: js)).contents =
        acts d.find (is ++ .syncDir :: js.take m) name := by
  obtain ⟨hfirst, -, hrest⟩ := carefulRun_append.mp his
  have hstable : Stable Watched settled ((d.run is).step .syncDir) := (h.run hfirst).step trivial
  have hfind : ((d.run is).step .syncDir).find = acts d.find is :=
    ((h.run hfirst).find_step _).trans (h.toSound.run hfirst).2
  have hacts : ∀ m, acts d.find (is ++ .syncDir :: js.take m) = acts (acts d.find is) (js.take m) :=
    fun m => List.foldl_append
  have hrun : ∀ ks, d.run (is ++ .syncDir :: ks) = ((d.run is).step .syncDir).run ks := by
    intro ks
    rw [run_append, run_cons]
  rw [hrun] at hdir ⊢
  rcases hstable.mayLeave_run (hfind ▸ hrest) hdir with ⟨hdir, hcontents⟩ | ⟨m, hm, hview, hcontents⟩
  · refine ⟨0, Nat.zero_le _, ?_, fun name hw => ?_⟩
    · rw [List.take_zero, hrun]
      exact mayLeave_of_pending_nil rfl hdir
    · rw [hcontents name hw, mayLeave_of_pending_nil rfl hdir, hacts]
      exact congrFun hfind name
  · refine ⟨m, hm, by rw [hview, hrun], fun name hw => ?_⟩
    rw [hcontents name hw, hacts, hfind]

theorem view_run_of_within (d : Disk ν α) {P : ν → Prop} {is : List (Instr ν α)} (h : Within P is) {name : ν}
    (hname : ¬ P name) : (d.run is).view name = d.view name := by
  induction is generalizing d with
  | nil => rfl
  | cons i is ih =>
    have hi : ¬ i.Mentions name := fun hi => hname (h i List.mem_cons_self name hi)
    rw [run_cons, ih _ fun j hj => h j (List.mem_cons_of_mem _ hj)]
    cases i with
    | create a x => rw [view_create, Function.update_of_ne (Ne.symm hi)]
    | modify a f => rw [view_modify]
    | rename src dst =>
      obtain ⟨hsrc, hdst⟩ := not_or.mp hi
      rw [view_rename, Function.update_of_ne (Ne.symm hsrc), Function.update_of_ne (Ne.symm hdst)]
    | unlink a => rw [view_unlink, Function.update_of_ne (Ne.symm hi)]
    | syncDir => rfl

end Careful

end Disk

end Steps

/-! ### What is found at every moment of a program -/

section Throughout
variable [DecidableEq ν]

def Throughout (Q : (ν → Option α) → Prop) (found : ν → Option α) (is : List (Instr ν α)) : Prop :=
  ∀ n, Q (acts found (is.take n))

theorem act_of_not_mentions (found : ν → Option α) {i : Instr ν α} {name : ν} (h : ¬ i.Mentions name) :
    i.act found name = found name := by
  cases i with
  | create a x => exact Function.update_of_ne (Ne.symm h) _ _
  | modify a f => exact Function.update_of_ne (Ne.symm h) _ _
  | rename src dst =>
    obtain ⟨hsrc, hdst⟩ := not_or.mp h
    rw [Instr.act, Function.update_of_ne (Ne.symm hsrc), Function.update_of_ne (Ne.symm hdst)]
  | unlink a => exact Function.update_of_ne (Ne.symm h) _ _
  | syncDir => rfl

theorem acts_of_within (found : ν → Option α) {P : ν → Prop} {is : List (Instr ν α)} (h : Within P is) {name : ν}
    (hname : ¬ P name) : acts found is name = found name := by
  induction is generalizing found with
  | nil => rfl
  | cons i is ih =>
    have hrest := ih (i.act found) fun j hj => h j (List.mem_cons_of_mem _ hj)
    exact hrest.trans (act_of_not_mentions found fun hi => hname (h i List.mem_cons_self name hi))

theorem acts_append (found : ν → Option α) (is js : List (Instr ν α)) :
    acts found (is ++ js) = acts (acts found is) js := List.foldl_append

theorem Throughout.last {Q : (ν → Option α) → Prop} {found : ν → Option α} {is : List (Instr ν α)}
    (h : Throughout Q found is) : Q (acts found is) := by
  have hlast := h is.length
  rwa [List.take_length] at hlast

theorem Throughout.append {Q : (ν → Option α) → Prop} {found : ν → Option α} {is js : List (Instr ν α)}
    (h : Throughout Q found is) (h' : Throughout Q (acts found is) js) : Throughout Q found (is ++ js) := by
  intro n
  rcases Nat.le_total n is.length with hn | hn
  · rw [List.take_append_of_le_length hn]
    exact h n
  · rw [List.take_append, List.take_of_length_le hn, acts_append]
    exact h' _

end Throughout

end LsmTree.StableStorage
