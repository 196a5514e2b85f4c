import LsmTree.Faults
import LsmTree.TableNames

/-!
# The numbers of table files

The engine numbers the tables of level 0 from a counter that it takes from the names it
loads; a compaction numbers its outputs past the level 1 tables in its list and those on
disk, and sets the counter of level 0 back to zero. Only names are followed here: which
files there are, in which order the tables are listed, and the two counters, all of them of
type `int`, whose overflow ends the run. A directory is described by the levels and
counters its names were made from; each flush and each compaction then finds its numbers
past all that are in use, as long as there are numbers left.
-/

namespace LsmTree.Naming
open Faults

inductive NameFault where
  | overflow
  deriving DecidableEq, Repr

/-- `n + 1` for an `int`. -/
def intSucc (n : ℤ) : Except NameFault ℤ := if n < intMax then .ok (n + 1) else .error .overflow

/-- A loop that takes a number past those of all elements that have one. -/
def numberPast {α : Type} (counter : α → Option ℤ) : List α → ℤ → Except NameFault ℤ
  | [], n => .ok n
  | x :: xs, n =>
    match counter x with
    | none => numberPast counter xs n
    | some c => do
      let next ← intSucc c
      numberPast counter xs (max n next)

/-! ### Loading -/

/-- `SSTFile`. -/
structure SSTFile where
  path : Name
  level : ℤ
  counter : ℤ
  deriving DecidableEq

/-- The comparison `loadSSTables` sorts by. -/
def SSTFile.Before (a b : SSTFile) : Prop := if a.level ≠ b.level then a.level > b.level else a.counter < b.counter

instance : DecidableRel SSTFile.Before :=
  fun a b => inferInstanceAs (Decidable (if a.level ≠ b.level then _ else _))

/-- The files that are not skipped, sorted. -/
def sstFiles (files : List Name) : List SSTFile :=
  (files.filterMap fun file => (loadName file).map fun p => ⟨file, p.1, p.2⟩).insertionSort fun a b => ¬ b.Before a

/-- The names of an engine: the files in its directory, `sstables_` and `sst_counter_`. -/
structure Names where
  files : List Name
  sstables : List Name
  sstCounter : ℤ
  deriving DecidableEq

/-- The number past which the level 0 counter is set. -/
def l0Number (f : SSTFile) : Option ℤ := if f.level = 0 then some f.counter else none

/-- `loadSSTables` in the constructor. -/
def loadSSTables (files : List Name) : Except NameFault Names := do
  let sstCounter ← numberPast l0Number (sstFiles files) 0
  return ⟨files, (sstFiles files).map SSTFile.path, sstCounter⟩

/-! ### Flushes and compactions -/

/-- A file is written or renamed to a name. -/
def create (files : List Name) (name : Name) : List Name := files.filter (· ≠ name) ++ [name]

namespace Names

/-- The new table of a flush. -/
def writeTable (s : Names) : Except NameFault Names := do
  let path := sstPath 0 s.sstCounter
  let next ← intSucc s.sstCounter
  return ⟨create s.files path, s.sstables ++ [path], next⟩

/-- The files once abandoned temporaries are removed. -/
def swept (s : Names) : List Name := s.files.filter fun file => (splitExtension file).2 ≠ ['.', 't', 'm', 'p']

/-- `l1_start`. -/
def l1Start (s : Names) : Except NameFault ℤ := do
  let start ← numberPast listedCounter (s.sstables.filter fun t => !isL0 t && isL1 t) 0
  numberPast storedCounter s.swept start

/-- `l1_counter++`, once for each output. -/
def outputNames : ℕ → ℤ → Except NameFault (List Name)
  | 0, _ => .ok []
  | n + 1, l1Counter => do
    let next ← intSucc l1Counter
    let rest ← outputNames n next
    return makeSSTPath 1 l1Counter :: rest

/-- Four tables of level 0. -/
def Compacts (s : Names) : Prop := l0Threshold ≤ (s.sstables.filter isL0).length

instance (s : Names) : Decidable s.Compacts := inferInstanceAs (Decidable (_ ≤ _))

/-- `LeveledCompactor::run`, when its merge fills so many outputs. -/
def compact (s : Names) (outputs : ℕ) : Except NameFault Names :=
  if s.Compacts then do
    let start ← s.l1Start
    let names ← outputNames outputs start
    return ⟨(names.foldl create s.swept).filter (· ∉ s.sstables), names, 0⟩
  else .ok s

end Names

/-- A flush with the compaction it may run, which fills so many outputs; or the engine is closed and
opened again. -/
inductive Event where
  | flush (outputs : ℕ)
  | reopen
  deriving DecidableEq, Repr

def Names.step (s : Names) : Event → Except NameFault Names
  | .flush outputs => do
    let s ← s.writeTable
    s.compact outputs
  | .reopen => loadSSTables s.files

/-! ### Numbers past others -/

theorem intSucc_of_lt {n : ℤ} (h : n < intMax) : intSucc n = .ok (n + 1) := if_pos h

theorem intSucc_of_ge {n : ℤ} (h : ¬ n < intMax) : intSucc n = .error .overflow := if_neg h

section NumberPast
variable {α : Type} {counter : α → Option ℤ} {xs : List α}

theorem numberPast_isOk_iff (n : ℤ) :
    (∃ r, numberPast counter xs n = .ok r) ↔ ∀ x ∈ xs, ∀ c, counter x = some c → c < intMax := by
  induction xs generalizing n with
  | nil => simp [numberPast]
  | cons x xs ih =>
    rw [numberPast]
    cases hx : counter x with
    | none => simp [ih, hx]
    | some c =>
      by_cases hc : c < intMax
      · simp [intSucc_of_lt hc, ok_bind, ih, hx, hc]
      · simp [intSucc_of_ge hc, error_bind, hx, hc]

/-- The result is the first number past the start and all counters. -/
theorem numberPast_spec {n r : ℤ} (h : numberPast counter xs n = .ok r) :
    n ≤ r ∧ (∀ x ∈ xs, ∀ c, counter x = some c → c < r) ∧
      (r = n ∨ ∃ x ∈ xs, ∃ c, counter x = some c ∧ r = c + 1) := by
  induction xs generalizing n with
  | nil =>
    cases h
    simp
  | cons x xs ih =>
    rw [numberPast] at h
    cases hx : counter x with
    | none =>
      rw [hx] at h
      obtain ⟨hle, hlt, heq⟩ := ih h
      refine ⟨hle, ?_, ?_⟩
      · intro y hy c hc
        rcases List.mem_cons.mp hy with rfl | hy
        · rw [hx] at hc
          cases hc
        · exact hlt y hy c hc
      · rcases heq with heq | ⟨y, hy, hc⟩
        · exact .inl heq
        · exact .inr ⟨y, List.mem_cons_of_mem _ hy, hc⟩
    | some d =>
      rw [hx] at h
      by_cases hd : d < intMax
      · simp only [intSucc_of_lt hd, ok_bind] at h
        obtain ⟨hle, hlt, heq⟩ := ih h
        refine ⟨by omega, ?_, ?_⟩
        · intro y hy c hc
          rcases List.mem_cons.mp hy with rfl | hy
          · rw [hx] at hc
            cases hc
            omega
          · exact hlt y hy c hc
        · rcases heq with heq | ⟨y, hy, hc⟩
          · rcases max_choice n (d + 1) with hmax | hmax
            · exact .inl (heq.trans hmax)
            · exact .inr ⟨x, List.mem_cons_self, d, hx, heq.trans hmax⟩
          · exact .inr ⟨y, List.mem_cons_of_mem _ hy, hc⟩
      · simp only [intSucc_of_ge hd, error_bind, reduceCtorEq] at h

end NumberPast

theorem outputNames_of_fits {n : ℕ} {start : ℤ} (h : start + n ≤ intMax) :
    Names.outputNames n start = .ok ((List.range n).map fun i : ℕ => makeSSTPath 1 (start + i)) := by
  induction n generalizing start with
  | zero => rfl
  | succ n ih =>
    have hlt : start < intMax := by
      push_cast at h
      omega
    have hrest : start + 1 + n ≤ intMax := by
      push_cast at h
      omega
    rw [Names.outputNames, intSucc_of_lt hlt, ok_bind, ih hrest, ok_bind, List.range_succ_eq_map, List.map_cons,
      List.map_map]
    have hshift : ∀ i : ℕ, start + 1 + i = start + (i + 1 : ℕ) := by
      intro i
      push_cast
      omega
    simp only [Function.comp_def, hshift, Nat.cast_zero, add_zero]
    rfl

theorem outputNames_of_not_fits {n : ℕ} {start : ℤ} (hstart : start ≤ intMax) (h : ¬ start + n ≤ intMax) :
    Names.outputNames n start = .error .overflow := by
  induction n generalizing start with
  | zero =>
    push_cast at h
    omega
  | succ n ih =>
    rw [Names.outputNames]
    by_cases hlt : start < intMax
    · rw [intSucc_of_lt hlt, ok_bind, ih (by omega) (by push_cast at h; omega)]
      rfl
    · rw [intSucc_of_ge hlt]
      rfl

end LsmTree.Naming
