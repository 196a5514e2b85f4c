import LsmTree.Memtable
import LsmTree.Merge
import Mathlib.Data.List.Sort

/-!
# Table files and compaction

A data directory holds table files `sst-<level>-<counter>.sst` and temporaries. The
engine loads level 1 before level 0 and each level by ascending counter, so that the
last table is the newest. `LeveledCompactor::run` merges all tables into new level 1
tables: it stages them as temporaries, renames them to names past every level 1 name on
disk, and then removes its inputs in list order.

A crash may fall between any two of these steps on the directory. Counters are of type
`int`; a compaction that would count past the largest `int` has no defined behaviour.
-/

namespace LsmTree
open LittleEndian LayeredMap Merge

/-- `std::numeric_limits<int>::max()`. -/
def intMax : ℕ := 2 ^ 31 - 1

theorem one_le_intMax : 1 ≤ intMax := by decide

theorem two_le_intMax : 2 ≤ intMax := by decide

inductive Level where
  | l0 | l1
  deriving DecidableEq, Repr

/-- A table file name that `loadSSTables` accepts. -/
structure TableName where
  level : Level
  counter : ℕ
  counter_le : counter ≤ intMax
  deriving DecidableEq

/-- A table: its file name, and the strictly increasing entries `SSTable::write` insists on. -/
structure SSTable where
  name : TableName
  entries : List (Key × Option Bytes)
  sorted : Sorted entries
  deriving DecidableEq

/-- The comparison by which `loadSSTables` sorts. -/
def SSTable.Before (a b : SSTable) : Prop :=
  if a.name.level = b.name.level then a.name.counter < b.name.counter else a.name.level = .l1

instance : DecidableRel SSTable.Before :=
  fun a b => inferInstanceAs (Decidable (if a.name.level = b.name.level then _ else _))

/-- The stack of layers a list of tables stands for. -/
def layers (ts : List SSTable) : List (List (Key × Option Bytes)) := ts.map SSTable.entries

/-- The files of a data directory; no two tables have the same name. -/
structure Directory where
  files : List SSTable
  temps : List SSTable
  nodup : (files.map SSTable.name).Nodup

/-- `loadSSTables`. -/
def Directory.load (d : Directory) : List SSTable :=
  d.files.insertionSort fun a b => ¬ b.Before a

/-- What the compactor and `SSTable::write` do to a directory. -/
inductive DirStep where
  | discard (t : SSTable)
  | stage (t : SSTable)
  | publish (t : SSTable)
  | remove (t : SSTable)

theorem nodup_remove {files : List SSTable} (h : (files.map SSTable.name).Nodup) (n : TableName) :
    ((files.filter (·.name ≠ n)).map SSTable.name).Nodup :=
  h.sublist (List.filter_sublist.map _)

theorem nodup_publish {files : List SSTable} (h : (files.map SSTable.name).Nodup) (t : SSTable) :
    ((files.filter (·.name ≠ t.name) ++ [t]).map SSTable.name).Nodup := by
  rw [List.map_append, List.nodup_append]
  refine ⟨nodup_remove h t.name, by simp, ?_⟩
  intro a ha b hb
  obtain ⟨s, hs, rfl⟩ := List.mem_map.mp ha
  rw [List.map_singleton, List.mem_singleton] at hb
  rw [hb]
  simpa using (List.mem_filter.mp hs).2

/-- One step. A rename replaces a file of the same name. -/
def Directory.apply (d : Directory) : DirStep → Directory
  | .discard t => { d with temps := d.temps.filter (·.name ≠ t.name) }
  | .stage t => { d with temps := d.temps.filter (·.name ≠ t.name) ++ [t] }
  | .publish t =>
    ⟨d.files.filter (·.name ≠ t.name) ++ [t], d.temps.filter (·.name ≠ t.name),
      nodup_publish d.nodup t⟩
  | .remove t => ⟨d.files.filter (·.name ≠ t.name), d.temps, nodup_remove d.nodup t.name⟩

/-- `L0_THRESHOLD`. -/
def l0Threshold : ℕ := 4

def l0Count (ts : List SSTable) : ℕ := (ts.filter (·.name.level = .l0)).length

/-- The first number past all names of a level. -/
def nextCounter (level : Level) : List SSTable → ℕ
  | [] => 0
  | t :: ts =>
    if t.name.level = level then max (t.name.counter + 1) (nextCounter level ts)
    else nextCounter level ts

def l1Start (ts : List SSTable) : ℕ := nextCounter .l1 ts

/-- Tables numbered from `n` on. -/
def numberFrom : (n : ℕ) → (runs : List (List (Key × Option Bytes))) →
    n + runs.length ≤ intMax → (∀ t ∈ runs, Sorted t) → List SSTable
  | _, [], _, _ => []
  | n, r :: rs, hfit, hsorted =>
    ⟨⟨.l1, n, by simp only [List.length_cons] at hfit; omega⟩, r, hsorted r List.mem_cons_self⟩ ::
      numberFrom (n + 1) rs (by simp only [List.length_cons] at hfit; omega)
        (fun t ht => hsorted t (List.mem_cons_of_mem _ ht))

theorem sorted_layers (ts : List SSTable) : ∀ s ∈ layers ts, Sorted s := by
  intro s hs
  obtain ⟨t, -, rfl⟩ := List.mem_map.mp hs
  exact t.sorted

/-- The tables a compaction of `sstables` writes, unless a counter leaves the range of `int`.
Numbering goes past the names in the list and the names on disk. -/
def compactionOutputs (d : Directory) (sstables : List SSTable) : Option (List SSTable) :=
  if h : max (l1Start sstables) (l1Start d.files) + (merge (layers sstables)).length ≤ intMax then
    some (numberFrom _ _ h (sorted_of_mem_merge (sorted_layers sstables)))
  else none

/-- The steps of a compaction, in order: the sweep of old temporaries, the staging of the
outputs, their publication, and the removal of the inputs. -/
def compactionSteps (d : Directory) (sstables outputs : List SSTable) : List DirStep :=
  d.temps.map .discard ++ outputs.map .stage ++ outputs.map .publish ++ sstables.map .remove

/-- The directory after some steps. -/
def Directory.applyAll (d : Directory) (steps : List DirStep) : Directory := steps.foldl .apply d

/-! ### Loading -/

instance : Std.Irrefl SSTable.Before := ⟨fun a => by simp [SSTable.Before]⟩

theorem SSTable.Before.asymm {a b : SSTable} (h : a.Before b) : ¬ b.Before a := by
  unfold SSTable.Before at h ⊢
  split_ifs at h with hl
  · rw [if_pos hl.symm]
    omega
  · rw [if_neg (Ne.symm hl)]
    rintro hb
    exact hl (h.trans hb.symm)

instance : Std.Antisymm SSTable.Before := ⟨fun _ _ hab hba => absurd hba hab.asymm⟩

theorem SSTable.before_or_before {a b : SSTable} (h : a.name ≠ b.name) : a.Before b ∨ b.Before a := by
  obtain ⟨⟨la, ca, ha⟩, ea, sa⟩ := a
  obtain ⟨⟨lb, cb, hb⟩, eb, sb⟩ := b
  unfold SSTable.Before
  rcases la <;> rcases lb <;> simp_all

theorem Directory.mem_load {d : Directory} {t : SSTable} : t ∈ d.load ↔ t ∈ d.files :=
  List.mem_insertionSort _

instance : Std.Total fun a b : SSTable => ¬ b.Before a :=
  ⟨fun a b => by by_cases h : b.Before a <;> simp [h, SSTable.Before.asymm]⟩

instance : IsTrans SSTable fun a b => ¬ b.Before a where
  trans := by
    intro a b c h h'
    unfold SSTable.Before at h h' ⊢
    rcases ha : a.name.level <;> rcases hb : b.name.level <;> rcases hc : c.name.level <;>
      simp_all <;> omega

theorem Directory.pairwise_load (d : Directory) : d.load.Pairwise SSTable.Before := by
  have hperm := List.perm_insertionSort (fun a b : SSTable => ¬ b.Before a) d.files
  have hsorted := List.pairwise_insertionSort (fun a b : SSTable => ¬ b.Before a) d.files
  have hnodup : d.load.Pairwise fun a b => a.name ≠ b.name :=
    List.pairwise_map.mp ((hperm.map SSTable.name).nodup_iff.mpr d.nodup)
  refine hsorted.imp₂ ?_ hnodup
  intro a b hle hne
  exact (SSTable.before_or_before hne).resolve_right hle

/-- The load order is determined by the files. -/
theorem Directory.load_eq {d : Directory} {ts : List SSTable} (hsorted : ts.Pairwise SSTable.Before)
    (hmem : ∀ t, t ∈ d.files ↔ t ∈ ts) : d.load = ts := by
  apply d.pairwise_load.eq_of_mem_iff hsorted
  intro t
  rw [Directory.mem_load, hmem]

/-! ### The outputs -/

section NextCounter
variable {level : Level} {ts : List SSTable}

theorem lt_nextCounter {t : SSTable} (ht : t ∈ ts) (hl : t.name.level = level) :
    t.name.counter < nextCounter level ts := by
  induction ts with
  | nil => cases ht
  | cons s ts ih =>
    rw [nextCounter]
    rcases List.mem_cons.mp ht with rfl | ht
    · rw [if_pos hl]
      omega
    · have := ih ht
      split_ifs <;> omega

theorem nextCounter_le {n : ℕ} (h : ∀ t ∈ ts, t.name.level = level → t.name.counter < n) :
    nextCounter level ts ≤ n := by
  induction ts with
  | nil => exact Nat.zero_le n
  | cons s ts ih =>
    have hrest := ih fun t ht => h t (List.mem_cons_of_mem _ ht)
    have hhead := h s List.mem_cons_self
    rw [nextCounter]
    split_ifs with hl
    · have := hhead hl
      omega
    · exact hrest

/-- The next number depends on the files of the level only. -/
theorem nextCounter_congr {us : List SSTable}
    (h : ∀ t, t.name.level = level → (t ∈ ts ↔ t ∈ us)) :
    nextCounter level ts = nextCounter level us := by
  apply Nat.le_antisymm
  · exact nextCounter_le fun t ht hl => lt_nextCounter ((h t hl).mp ht) hl
  · exact nextCounter_le fun t ht hl => lt_nextCounter ((h t hl).mpr ht) hl

end NextCounter

section NumberFrom
variable {n : ℕ} {runs : List (List (Key × Option Bytes))} {hfit : n + runs.length ≤ intMax}
  {hsorted : ∀ t ∈ runs, Sorted t}

theorem layers_numberFrom : layers (numberFrom n runs hfit hsorted) = runs := by
  induction runs generalizing n with
  | nil => rfl
  | cons r rs ih =>
    rw [numberFrom]
    simp only [layers, List.map_cons]
    exact congrArg (r :: ·) ih

theorem mem_numberFrom {t : SSTable} (ht : t ∈ numberFrom n runs hfit hsorted) :
    t.name.level = .l1 ∧ n ≤ t.name.counter ∧ t.name.counter < n + runs.length := by
  induction runs generalizing n with
  | nil => cases ht
  | cons r rs ih =>
    rw [List.length_cons]
    rcases List.mem_cons.mp ht with rfl | ht
    · exact ⟨rfl, le_refl n, by simp only; omega⟩
    · have := ih ht
      exact ⟨this.1, by omega, by omega⟩

theorem counters_numberFrom : (numberFrom n runs hfit hsorted).map (·.name.counter) =
    List.range' n runs.length := by
  induction runs generalizing n with
  | nil => rfl
  | cons r rs ih =>
    rw [numberFrom, List.map_cons, ih]
    rfl

theorem pairwise_numberFrom : (numberFrom n runs hfit hsorted).Pairwise SSTable.Before := by
  induction runs generalizing n with
  | nil => exact List.Pairwise.nil
  | cons r rs ih =>
    refine List.pairwise_cons.mpr ⟨?_, ih⟩
    intro t ht
    obtain ⟨hl, hge, -⟩ := mem_numberFrom ht
    rw [SSTable.Before, if_pos hl.symm]
    exact hge

end NumberFrom

/-- What is known of the outputs: their contents are the merge of the inputs, and their names
are level 1 names in increasing order past all those in use. -/
structure Outputs (d : Directory) (sstables outputs : List SSTable) : Prop where
  contents : layers outputs = merge (layers sstables)
  pairwise : outputs.Pairwise SSTable.Before
  level : ∀ o ∈ outputs, o.name.level = .l1
  fresh : ∀ o ∈ outputs, ∀ t ∈ d.files, t.name.level = .l1 → t.name.counter < o.name.counter
  counters : outputs.map (·.name.counter) =
    List.range' (max (l1Start sstables) (l1Start d.files)) (merge (layers sstables)).length

theorem compactionOutputs_spec {d : Directory} {sstables outputs : List SSTable}
    (h : compactionOutputs d sstables = some outputs) : Outputs d sstables outputs := by
  unfold compactionOutputs at h
  split at h
  case isTrue hfit =>
    cases h
    constructor
    · exact layers_numberFrom
    · exact pairwise_numberFrom
    · exact fun o ho => (mem_numberFrom ho).1
    · intro o ho t ht hl
      have hlt : t.name.counter < l1Start d.files := lt_nextCounter ht hl
      have hge := (mem_numberFrom ho).2.1
      omega
    · exact counters_numberFrom
  case isFalse => cases h

/-- A compaction is defined exactly when its numbers fit. -/
theorem compactionOutputs_isSome (d : Directory) (sstables : List SSTable) :
    (compactionOutputs d sstables).isSome ↔ max (l1Start sstables) (l1Start d.files) +
      (liveKeys (layers sstables) + (l1MaxFileEntries - 1)) / l1MaxFileEntries ≤ intMax := by
  rw [← length_merge (sorted_layers sstables), compactionOutputs]
  split <;> simp [*]

end LsmTree
