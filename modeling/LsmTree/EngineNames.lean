import LsmTree.CompactionRun
import LsmTree.NumberingCorrectness

/-!
# The names of an engine

An engine that holds its tables under levels and counters is an engine on file names: each
table is seen as its file name, everything else of it is forgotten. Opening, flushing and
compacting commute with forgetting, errors included; for a compaction, the number of its
outputs is that of the runs the merge is cut into. So what is proved of names holds of the
engine: as long as its operations are defined, every name it makes is parsed back, new, and
the last of its level.
-/

namespace LsmTree
open Faults LittleEndian LayeredMap Merge Naming

/-- The file names of tables. -/
def tableNames (ts : List SSTable) : List Name := ts.map fun t => fileName t.name

namespace Engine

/-- What is left of an engine when only names are kept. -/
def names (e : Engine) : Names := ⟨tableNames e.dir.files, tableNames e.sstables, e.sstCounter⟩

/-- The same for a result. -/
def namesOf : Except Failure Engine → Except NameFault Names
  | .ok e => .ok e.names
  | .error _ => .error .overflow

end Engine

/-! ### Counters -/

/-- The loop over names finds the first number past a level, if it is within `int`. -/
theorem numberPast_eq {α : Type} {counter : α → Option ℤ} (name : SSTable → α) {level : Level} (ts : List SSTable)
    (h : ∀ t ∈ ts, counter (name t) = if t.name.level = level then some (t.name.counter : ℤ) else none) (n : ℕ) :
    numberPast counter (ts.map name) n =
      if nextCounter level ts ≤ intMax then .ok ((max n (nextCounter level ts) : ℕ) : ℤ) else .error .overflow := by
  induction ts generalizing n with
  | nil => simp [numberPast, nextCounter]
  | cons t ts ih =>
    have hrest := ih fun s hs => h s (List.mem_cons_of_mem _ hs)
    rw [List.map_cons, numberPast, h t List.mem_cons_self, nextCounter]
    by_cases hlevel : t.name.level = level
    · simp only [hlevel, if_true]
      by_cases hlt : t.name.counter < intMax
      · have hnext : max (n : ℤ) (t.name.counter + 1) = ((max n (t.name.counter + 1) : ℕ) : ℤ) := by
          omega
        have hiff : max (t.name.counter + 1) (nextCounter level ts) ≤ intMax ↔ nextCounter level ts ≤ intMax := by
          omega
        rw [intSucc_of_lt (by exact_mod_cast hlt), ok_bind, hnext, hrest, max_assoc]
        simp only [hiff]
      · have hnot : ¬ max (t.name.counter + 1) (nextCounter level ts) ≤ intMax := by omega
        rw [intSucc_of_ge (by exact_mod_cast hlt), error_bind, if_neg hnot]
    · simp only [hlevel, if_false]
      exact hrest n

theorem nextCounter_filter (level : Level) (ts : List SSTable) :
    nextCounter level (ts.filter (·.name.level = level)) = nextCounter level ts := by
  apply nextCounter_congr
  intro t ht
  simp [ht]

/-! ### Opening -/

theorem parsed_tableNames (ts : List SSTable) : parsed (tableNames ts) = ts.map fun t => sstFileOf t.name := by
  induction ts with
  | nil => rfl
  | cons t ts ih =>
    rw [tableNames, List.map_cons, parsed_cons_fileName, ← tableNames, ih, List.map_cons]

theorem loadSSTables_tableNames (d : Directory) :
    loadSSTables (tableNames d.files) =
      if nextCounter .l0 d.load ≤ intMax then .ok ⟨tableNames d.files, tableNames d.load, nextCounter .l0 d.load⟩
      else .error .overflow := by
  have hfiles := sstFiles_of_parsed (parsed_tableNames d.files)
  have hcounter := numberPast_eq (fun t => sstFileOf t.name) d.load (fun t _ => l0Number_sstFileOf t.name) 0
  rw [Nat.zero_max, Nat.cast_zero] at hcounter
  rw [loadSSTables, hfiles, hcounter]
  split_ifs
  · simp [ok_bind, tableNames, sstFileOf, Function.comp_def, pure, Except.pure]
  · rfl

/-- The constructor, when the log can be read. -/
theorem names_construct {maxBytes : ℕ} {dir : Directory} {log : List Wal.Slot} {heights : ℕ → Height}
    {entries : List Wal.Entry} (h : Wal.recover (Wal.image log) = .ok entries) :
    Engine.namesOf (Engine.construct maxBytes dir log heights) = loadSSTables (tableNames dir.files) := by
  rw [loadSSTables_tableNames, Engine.construct, h]
  simp only
  split_ifs
  · rfl
  · rfl

/-! ### Files -/

theorem tableNames_append (ts us : List SSTable) : tableNames (ts ++ us) = tableNames ts ++ tableNames us :=
  List.map_append

theorem mem_tableNames {ts : List SSTable} {n : TableName} : fileName n ∈ tableNames ts ↔ ∃ t ∈ ts, t.name = n := by
  rw [tableNames, List.mem_map]
  simp only [fileName_injective.eq_iff]

/-- Selecting names is selecting tables. -/
theorem tableNames_filter {select : Name → Bool} {keep : SSTable → Bool} {ts : List SSTable}
    (h : ∀ t ∈ ts, select (fileName t.name) = keep t) :
    (tableNames ts).filter select = tableNames (ts.filter keep) := by
  rw [tableNames, tableNames, List.filter_map]
  congr 1
  exact List.filter_congr h

theorem tableNames_publish (d : Directory) (t : SSTable) :
    tableNames (d.apply (.publish t)).files = create (tableNames d.files) (fileName t.name) := by
  have hkeep : (tableNames d.files).filter (· ≠ fileName t.name) = tableNames (d.files.filter (·.name ≠ t.name)) := by
    apply tableNames_filter
    intro s _
    rw [decide_eq_decide, ne_eq, ne_eq, fileName_injective.eq_iff]
  rw [create, hkeep, Directory.apply, tableNames_append]
  rfl

theorem tableNames_publish_all (d : Directory) (ts : List SSTable) :
    tableNames (d.applyAll (ts.map .publish)).files = (tableNames ts).foldl create (tableNames d.files) := by
  induction ts generalizing d with
  | nil => rfl
  | cons t ts ih =>
    have hrest := ih (d.apply (.publish t))
    rw [tableNames_publish] at hrest
    exact hrest

theorem tableNames_remove_all (d : Directory) (ts : List SSTable) :
    tableNames (d.applyAll (ts.map .remove)).files = (tableNames d.files).filter (· ∉ tableNames ts) := by
  rw [files_applyAll_remove]
  symm
  apply tableNames_filter
  intro t _
  rw [decide_eq_decide, mem_tableNames]
  simp only [not_exists, not_and, ne_eq, eq_comm]

/-- No table file is a temporary. -/
theorem swept_names (e : Engine) : e.names.swept = tableNames e.dir.files := by
  show (tableNames e.dir.files).filter _ = tableNames e.dir.files
  rw [List.filter_eq_self]
  intro f hf
  obtain ⟨t, -, rfl⟩ := List.mem_map.mp hf
  rw [extension_fileName]
  decide

/-! ### Flushes -/

theorem names_writeTable (e : Engine) : Engine.namesOf e.writeTable = e.names.writeTable := by
  rw [Engine.writeTable, Names.writeTable]
  by_cases hlt : e.sstCounter < intMax
  · have hcounter : e.names.sstCounter < intMax := Int.ofNat_lt.mpr hlt
    have hfiles := tableNames_publish (d := e.dir.apply (.stage (e.table hlt.le))) (e.table hlt.le)
    rw [dif_pos hlt, intSucc_of_lt hcounter, ok_bind]
    show Except.ok (Names.mk (tableNames (Directory.apply _ (.publish _)).files) (tableNames (_ ++ [_])) _) = _
    rw [hfiles, tableNames_append]
    rfl
  · have hcounter : ¬ e.names.sstCounter < intMax := fun h => hlt (Int.ofNat_lt.mp h)
    rw [dif_neg hlt, intSucc_of_ge hcounter, error_bind]
    rfl

/-! ### Compactions -/

theorem compacts_names_iff (e : Engine) : e.names.Compacts ↔ ¬ l0Count e.sstables < l0Threshold := by
  have hcount : (e.names.sstables.filter isL0).length = l0Count e.sstables := by
    have hlisted : e.names.sstables.filter isL0 = tableNames (e.sstables.filter (·.name.level = .l0)) :=
      tableNames_filter fun t _ => isL0_fileName t.name
    rw [hlisted, tableNames, List.length_map, l0Count]
  rw [Names.Compacts, hcount, not_lt]

theorem l1Start_names (e : Engine) :
    e.names.l1Start = if max (l1Start e.sstables) (l1Start e.dir.files) ≤ intMax then
      .ok ((max (l1Start e.sstables) (l1Start e.dir.files) : ℕ) : ℤ) else .error .overflow := by
  have hlisted : e.names.sstables.filter (fun t => !isL0 t && isL1 t) =
      tableNames (e.sstables.filter (·.name.level = .l1)) := by
    apply tableNames_filter
    intro t _
    rw [isL0_fileName, isL1_fileName]
    cases t.name.level <;> rfl
  have hcounter : ∀ t ∈ e.sstables.filter (·.name.level = .l1),
      listedCounter (fileName t.name) = if t.name.level = .l1 then some (t.name.counter : ℤ) else none := by
    intro t ht
    rw [listedCounter_fileName, if_pos (by simpa using (List.mem_filter.mp ht).2)]
  have hfirst := numberPast_eq (fun t => fileName t.name) _ hcounter 0
  have hsecond := numberPast_eq (fun t => fileName t.name) e.dir.files (fun t _ => storedCounter_fileName t.name)
  rw [nextCounter_filter, Nat.zero_max, Nat.cast_zero] at hfirst
  rw [Names.l1Start, hlisted, tableNames, hfirst, swept_names, l1Start, l1Start]
  by_cases hlist : nextCounter .l1 e.sstables ≤ intMax
  · rw [if_pos hlist, ok_bind, tableNames, hsecond]
    simp only [max_le_iff, hlist, true_and]
  · rw [if_neg hlist, error_bind, if_neg fun hmax => hlist ((le_max_left _ _).trans hmax)]

/-- The names of the outputs, if there are numbers for them. -/
theorem l1Names_eq (e : Engine) :
    (e.names.l1Start >>= Names.outputNames (merge (layers e.sstables)).length) =
      match compactionOutputs e.dir e.sstables with
      | some outputs => .ok (tableNames outputs)
      | none => .error .overflow := by
  rw [l1Start_names, compactionOutputs]
  by_cases hfit : max (l1Start e.sstables) (l1Start e.dir.files) + (merge (layers e.sstables)).length ≤ intMax
  · have hstart : max (l1Start e.sstables) (l1Start e.dir.files) ≤ intMax := by omega
    rw [if_pos hstart, ok_bind, dif_pos hfit, outputNames_of_fits (by exact_mod_cast hfit), ← names_numberFrom,
      List.map_map]
    rfl
  · rw [dif_neg hfit]
    split_ifs with hstart
    · exact outputNames_of_not_fits (by exact_mod_cast hstart) (by exact_mod_cast hfit)
    · rfl

theorem names_compact (e : Engine) :
    Engine.namesOf e.compact = e.names.compact (merge (layers e.sstables)).length := by
  rw [Engine.compact, Names.compact]
  by_cases hmany : l0Count e.sstables < l0Threshold
  · rw [if_pos hmany, if_neg (by simpa [compacts_names_iff] using hmany)]
    rfl
  · have hnames := l1Names_eq e
    rw [if_neg hmany, if_pos ((compacts_names_iff e).mpr hmany), swept_names, ← bind_assoc, hnames]
    cases compactionOutputs e.dir e.sstables with
    | some outputs =>
      have hfiles : tableNames (e.dir.applyAll (compactionSteps e.dir e.sstables outputs)).files =
          ((tableNames outputs).foldl create (tableNames e.dir.files)).filter (· ∉ tableNames e.sstables) := by
        rw [files_compacted, applyAll_append, tableNames_remove_all, tableNames_publish_all]
      show Except.ok (Names.mk (tableNames (Directory.applyAll _ _).files) _ _) = _
      rw [hfiles]
      rfl
    | none => rfl

/-! ### A flush with its compaction -/

namespace Engine

/-- The outputs of the compaction a flush may run: the runs that the merge of everything is cut into. -/
def flushEvent (e : Engine) : Event := .flush (merge e.contents).length

theorem flushEvent_eq (e : Engine) :
    e.flushEvent = .flush ((liveKeys e.contents + (l1MaxFileEntries - 1)) / l1MaxFileEntries) := by
  have hsorted : ∀ s ∈ e.contents, Sorted s := by
    intro s hs
    rcases List.mem_append.mp hs with hs | hs
    · exact sorted_layers e.sstables s hs
    · rw [List.mem_singleton.mp hs]
      exact e.memtable.sorted_entries
  rw [flushEvent, length_merge hsorted]

theorem names_flushMemtable {e : Engine} (h : e.memtable.entries ≠ []) :
    namesOf e.flushMemtable = e.names.step e.flushEvent := by
  have hempty : ¬ e.memtable.empty = true := by rwa [Memtable.empty_iff]
  have hwrite := names_writeTable e
  rw [flushMemtable, if_neg hempty, flushEvent, Names.step, ← hwrite]
  cases hf : e.writeTable with
  | error err => rfl
  | ok f =>
    obtain ⟨hlt, rfl⟩ := writeTable_ok hf
    have hlayers : layers (e.sstables ++ [e.table hlt.le]) = e.contents := layers_append _ _
    rw [← hlayers]
    exact names_compact _

/-- The invariant of names, for an engine. -/
theorem Ordered.described {e : Engine} (h : e.Ordered) (hcounter : e.sstCounter ≤ intMax) :
    Described e.names (e.sstables.map SSTable.name) := by
  have hmem : ∀ t, t ∈ e.dir.files ↔ t ∈ e.sstables := by
    intro t
    rw [← h.load_eq, Directory.mem_load]
  have hpairwise := e.dir.pairwise_load
  rw [h.load_eq] at hpairwise
  constructor
  · rw [List.map_map]
    rfl
  · exact List.pairwise_map.mpr hpairwise
  · have hnodup := e.dir.nodup.map fileName_injective
    rwa [List.map_map] at hnodup
  · intro n hn
    obtain ⟨t, ht, rfl⟩ := List.mem_map.mp hn
    exact mem_tableNames.mpr ⟨t, (hmem t).mpr ht, rfl⟩
  · intro f hf _
    obtain ⟨t, ht, rfl⟩ := List.mem_map.mp hf
    exact ⟨t.name, List.mem_map_of_mem ((hmem t).mp ht), rfl⟩
  · exact Int.natCast_nonneg _
  · exact Int.ofNat_le.mpr hcounter
  · intro n hn hlevel
    obtain ⟨t, ht, rfl⟩ := List.mem_map.mp hn
    exact Int.ofNat_lt.mpr (h.l0_lt t ht hlevel)

/-- Every flush of an engine that is defined names its tables as it should. -/
theorem Ordered.flush_names_correct {e e' : Engine} (h : e.Ordered) (hcounter : e.sstCounter ≤ intMax)
    (hne : e.memtable.entries ≠ []) (he : e.flushMemtable = .ok e') :
    e.flushEvent.Correct e.names ∧ e.names.step e.flushEvent = .ok e'.names := by
  have hdescribed := h.described hcounter
  have hstep := names_flushMemtable hne
  rw [he] at hstep
  exact ⟨hdescribed.correct_of_step hstep.symm, hstep.symm⟩

end Engine

end LsmTree
