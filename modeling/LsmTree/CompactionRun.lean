import LsmTree.Engine

/-!
# What a compaction returns and what it leaves

A compaction that returns has replaced the tables by level 1 tables with the live
entries in key order, cut into files.

A compaction that throws does so before it removes its first input: while it writes a
staged output, at one of the points where faults are injected, at a rename, or while it
opens a replacement. It then takes back what it has done. Per staged file this is the
removal of the final name if its rename took effect, and of the temporary otherwise; the
final names are new, so removing them touches no file that was there before. Only
temporaries can be left behind, and no part of the program reads those.
-/

namespace LsmTree
open LittleEndian LayeredMap Merge

/-! ### A compaction that returns -/

section Returns
variable {d : Directory} {sstables outputs : List SSTable}

theorem Outputs.flatten_layers (h : Outputs d sstables outputs) :
    (layers outputs).flatten = liveEntries (layers sstables) := by
  rw [h.contents, (merge_spec _).1]

theorem Outputs.entries_mem_merge (h : Outputs d sstables outputs) {o : SSTable} (ho : o ∈ outputs) :
    o.entries ∈ merge (layers sstables) := by
  rw [← h.contents]
  exact List.mem_map_of_mem ho

/-- No output holds a tombstone. -/
theorem Outputs.value_isSome (h : Outputs d sstables outputs) {o : SSTable} (ho : o ∈ outputs)
    {e : Key × Option Bytes} (he : e ∈ o.entries) : e.2.isSome = true := by
  have hmem : e ∈ liveEntries (layers sstables) := by
    rw [← h.flatten_layers]
    exact List.mem_flatten.mpr ⟨o.entries, List.mem_map_of_mem ho, he⟩
  exact (List.mem_filter.mp hmem).2

end Returns

/-- A live entry of a stack is what a reader finds. -/
theorem mem_liveEntries {ss : List (List (Key × Option Bytes))} (hsorted : ∀ s ∈ ss, Sorted s)
    {k : Key} {v : Bytes} : (k, some v) ∈ liveEntries ss ↔ resolve k ss = some v := by
  have hkeys := (sorted_liveEntries hsorted).keys_ne
  have hlookup := lookup_liveEntries hsorted k
  constructor
  · intro hmem
    rw [lookup_of_mem hkeys hmem, eq_comm, Option.filter_eq_some_iff] at hlookup
    rw [resolve, hlookup.1, Option.join_some]
  · intro hread
    apply mem_of_lookup
    rw [hlookup, Option.join_eq_some_iff.mp hread]
    rfl

theorem newestFirst_eq (ts : List SSTable) (k : Key) :
    (ts.reverse.findSome? (·.get k)).join = resolve k (layers ts) := by
  rw [resolve, ← findSome?_reverse_eq_newest, layers, ← List.map_reverse, List.findSome?_map]
  rfl

/-- When a compaction of four or more level 0 tables returns, reading the tables from the newest
to the oldest gives what it gave before; the outputs are level 1 tables of one to a thousand
values each, in strictly increasing key order across all of them; and their entries are exactly
the keys that had a value, each once. -/
theorem compact_wellFormed {e e' : Engine} (hmany : l0Threshold ≤ l0Count e.sstables)
    (h : e.compact = .ok e') :
    (∀ k, (e'.sstables.reverse.findSome? (·.get k)).join =
      (e.sstables.reverse.findSome? (·.get k)).join) ∧
    (∀ t ∈ e'.sstables, t.name.level = .l1 ∧ t.entries ≠ [] ∧ t.entries.length ≤ l1MaxFileEntries ∧
      ∀ x ∈ t.entries, x.2.isSome = true) ∧
    Sorted (e'.sstables.flatMap SSTable.entries) ∧
    ∀ k v, (k, some v) ∈ e'.sstables.flatMap SSTable.entries ↔
      (e.sstables.reverse.findSome? (·.get k)).join = some v := by
  rcases Engine.compact_cases h with ⟨hfew, -⟩ | ⟨outputs, -, hout, rfl⟩
  · exact absurd hmany (Nat.not_le.mpr hfew)
  · have hspec := compactionOutputs_spec hout
    have hsorted := sorted_layers e.sstables
    have hflat : outputs.flatMap SSTable.entries = liveEntries (layers e.sstables) :=
      hspec.flatten_layers
    refine ⟨?_, ?_, ?_, ?_⟩
    · intro k
      rw [newestFirst_eq, newestFirst_eq, hspec.contents]
      exact (liveStack_merge hsorted).resolve_eq k
    · intro t ht
      obtain ⟨hne, hlen⟩ := (merge_spec (layers e.sstables)).2.1 _ (hspec.entries_mem_merge ht)
      exact ⟨hspec.level t ht, hne, hlen, fun x hx => hspec.value_isSome ht hx⟩
    · show Sorted (outputs.flatMap SSTable.entries)
      rw [hflat]
      exact sorted_liveEntries hsorted
    · intro k v
      rw [newestFirst_eq]
      show (k, some v) ∈ outputs.flatMap SSTable.entries ↔ _
      rw [hflat]
      exact mem_liveEntries hsorted

/-- Four level 0 tables that overwrite and delete each other's keys, over one of level 1. -/
def overlappingTables : List SSTable :=
  [⟨⟨.l1, 9, by decide⟩, [(.ofBytes [1], some [5]), (.ofBytes [4], some [5])], by decide⟩,
    ⟨⟨.l0, 4, by decide⟩, [(.ofBytes [1], some [6]), (.ofBytes [2], some [6])], by decide⟩,
    ⟨⟨.l0, 5, by decide⟩, [(.ofBytes [2], none)], by decide⟩,
    ⟨⟨.l0, 6, by decide⟩, [(.ofBytes [1], some [8]), (.ofBytes [3], none)], by decide⟩,
    ⟨⟨.l0, 7, by decide⟩, [(.ofBytes [3], some [9])], by decide⟩]

def overlapping : Engine where
  memtable := .new 1
  sstables := overlappingTables
  sstCounter := 8
  dir := ⟨overlappingTables, [], by decide⟩
  log := []

theorem compact_overlapping_sorted :
    ∃ e', overlapping.compact = .ok e' ∧ Sorted (e'.sstables.flatMap SSTable.entries) := by
  have hmany : l0Threshold ≤ l0Count overlapping.sstables := by decide +kernel
  have hsome : (compactionOutputs overlapping.dir overlapping.sstables).isSome = true := by
    decide +kernel
  obtain ⟨outputs, hout⟩ := Option.isSome_iff_exists.mp hsome
  have hcompact : ∃ e', overlapping.compact = .ok e' := by
    rw [Engine.compact, if_neg (Nat.not_lt.mpr hmany), hout]
    exact ⟨_, rfl⟩
  obtain ⟨e', he'⟩ := hcompact
  exact ⟨e', he', (compact_wellFormed hmany he').2.2.1⟩

/-! ### A compaction that throws -/

/-- Where `run` throws before it removes an input: `SSTable::write` of an output, which has put
the temporary in place or not; `compact.after_merge`; the rename of an output;
`compact.mid_publish` after that rename; opening an output; `compact.after_publish`. Outputs are
counted from 0. -/
inductive CompactionFault where
  | write (output : ℕ) (inPlace : Bool)
  | afterMerge
  | rename (output : ℕ)
  | midPublish (output : ℕ)
  | openTable (output : ℕ)
  | afterPublish
  deriving DecidableEq, Repr

/-- A compaction with so many outputs reaches the point. -/
def CompactionFault.Strikes (outputs : ℕ) : CompactionFault → Prop
  | .write k _ | .rename k | .midPublish k | .openTable k => k < outputs
  | .afterMerge | .afterPublish => True

instance (outputs : ℕ) : (fault : CompactionFault) → Decidable (fault.Strikes outputs)
  | .write k _ | .rename k | .midPublish k | .openTable k => inferInstanceAs (Decidable (k < outputs))
  | .afterMerge | .afterPublish => inferInstanceAs (Decidable True)

/-- The handler around the merge. -/
def discardStaged (staged : List SSTable) : List DirStep := staged.map .discard

/-- The handler around the publication, after `published` renames. -/
def takeBack (staged : List SSTable) (published : ℕ) : List DirStep :=
  (staged.take published).map .remove ++ (staged.drop published).map .discard

/-- What a failing compaction does to the directory once the old temporaries are swept. An output
whose write threw is not in `staged`, though its temporary may be there. -/
def failedSteps (outputs : List SSTable) : CompactionFault → List DirStep
  | .write k inPlace =>
    (outputs.take k).map .stage ++
      (if inPlace then ((outputs.drop k).take 1).map .stage else []) ++ discardStaged (outputs.take k)
  | .afterMerge => outputs.map .stage ++ discardStaged outputs
  | .rename k => outputs.map .stage ++ (outputs.take k).map .publish ++ takeBack outputs k
  | .midPublish k => outputs.map .stage ++ (outputs.take (k + 1)).map .publish ++ takeBack outputs (k + 1)
  | .openTable _ | .afterPublish =>
    outputs.map .stage ++ outputs.map .publish ++ takeBack outputs outputs.length

/-- How many outputs have been given a number at that point. -/
def CompactionFault.numbered (outputs : ℕ) : CompactionFault → ℕ
  | .write k _ => k + 1
  | _ => outputs

/-- The first outputs of a compaction, unless a counter leaves the range of `int`. -/
def firstOutputs (d : Directory) (sstables : List SSTable) (n : ℕ) : Option (List SSTable) :=
  if h : max (l1Start sstables) (l1Start d.files) + ((merge (layers sstables)).take n).length ≤ intMax then
    some (numberFrom _ _ h fun t ht =>
      sorted_of_mem_merge (sorted_layers sstables) t (List.mem_of_mem_take ht))
  else none

namespace Engine

/-- The number of tables a compaction would write. -/
def outputCount (e : Engine) : ℕ := (merge (layers e.sstables)).length

/-- The compaction runs, and reaches the point of the fault. -/
def CompactionThrows (e : Engine) (fault : CompactionFault) : Prop :=
  l0Threshold ≤ l0Count e.sstables ∧ fault.Strikes e.outputCount

instance (e : Engine) (fault : CompactionFault) : Decidable (e.CompactionThrows fault) :=
  inferInstanceAs (Decidable (_ ∧ _))

/-- `compactor_.run(sstables_, sst_counter_)` up to the exception. -/
def failCompact (e : Engine) (fault : CompactionFault) : Except Failure Engine :=
  match firstOutputs e.dir e.sstables (fault.numbered e.outputCount) with
  | none => .error .undefined
  | some outputs =>
    .ok { e with dir := e.dir.applyAll (e.dir.temps.map .discard ++ failedSteps outputs fault) }

def compactWith (e : Engine) : Option CompactionFault → Except Failure Engine
  | none => e.compact
  | some fault => if e.CompactionThrows fault then e.failCompact fault else e.compact

end Engine

/-! ### The rollback -/

section TakeBack
variable {d : Directory} {ts : List SSTable}

/-- Publishing tables under new names and removing them again leaves the files as they were. -/
theorem files_applyAll_takeBack (hnew : ((d.files ++ ts).map SSTable.name).Nodup) (n : ℕ) :
    (d.applyAll ((ts.take n).map .publish ++ takeBack ts n)).files = d.files := by
  have hnew' : ((d.files ++ ts.take n).map SSTable.name).Nodup :=
    hnew.sublist (((List.Sublist.refl _).append (List.take_sublist _ _)).map _)
  rw [takeBack, applyAll_append, applyAll_append, files_applyAll_discard, files_applyAll_remove,
    files_applyAll_publish hnew', List.filter_append]
  rw [List.map_append, List.nodup_append] at hnew'
  have hkept : d.files.filter (fun t => ∀ s ∈ ts.take n, t.name ≠ s.name) = d.files := by
    rw [List.filter_eq_self]
    intro t ht
    rw [decide_eq_true_eq]
    intro s hs
    exact hnew'.2.2 _ (List.mem_map_of_mem ht) _ (List.mem_map_of_mem hs)
  have hgone : (ts.take n).filter (fun t => ∀ s ∈ ts.take n, t.name ≠ s.name) = [] := by
    rw [List.filter_eq_nil_iff]
    intro t ht
    simp only [decide_eq_true_eq]
    exact fun hne => hne t ht rfl
  rw [hkept, hgone, List.append_nil]

/-- No failure leaves a table file or takes one away. -/
theorem files_applyAll_failedSteps (hnew : ((d.files ++ ts).map SSTable.name).Nodup)
    (fault : CompactionFault) : (d.applyAll (failedSteps ts fault)).files = d.files := by
  have hstaged : ∀ us : List SSTable, (d.applyAll (us.map .stage)).files = d.files :=
    files_applyAll_stage d
  have hpublish : ∀ n, (d.applyAll (ts.map .stage ++
      ((ts.take n).map .publish ++ takeBack ts n))).files = d.files := by
    intro n
    rw [applyAll_append, files_applyAll_takeBack (by rwa [hstaged]), hstaged]
  cases fault with
  | write k inPlace =>
    rw [failedSteps, discardStaged, applyAll_append, files_applyAll_discard, applyAll_append]
    split_ifs
    · rw [files_applyAll_stage, hstaged]
    · exact hstaged _
  | afterMerge => rw [failedSteps, discardStaged, applyAll_append, files_applyAll_discard, hstaged]
  | rename k =>
    rw [failedSteps, List.append_assoc]
    exact hpublish k
  | midPublish k =>
    rw [failedSteps, List.append_assoc]
    exact hpublish (k + 1)
  | openTable _ | afterPublish =>
    have hall := hpublish ts.length
    rw [List.take_length] at hall
    rw [failedSteps, List.append_assoc]
    exact hall

end TakeBack

theorem firstOutputs_nodup {d : Directory} {sstables outputs : List SSTable} {n : ℕ}
    (h : firstOutputs d sstables n = some outputs) : ((d.files ++ outputs).map SSTable.name).Nodup := by
  unfold firstOutputs at h
  split at h
  case isFalse => cases h
  case isTrue hfit =>
    cases h
    apply nodup_files_append pairwise_numberFrom fun o ho => (mem_numberFrom ho).1
    intro o ho t ht hl
    have hlt : t.name.counter < l1Start d.files := lt_nextCounter ht hl
    have hge := (mem_numberFrom ho).2.1
    omega

/-! ### The run after a failed one -/

/-- What happens to the table files does not depend on the temporaries. -/
theorem files_applyAll_congr {d d' : Directory} (h : d.files = d'.files) (steps : List DirStep) :
    (d.applyAll steps).files = (d'.applyAll steps).files := by
  induction steps generalizing d d' with
  | nil => exact h
  | cons step steps ih =>
    apply ih
    cases step <;> simp only [Directory.apply, h]

theorem files_compacted (d : Directory) (sstables outputs : List SSTable) :
    (d.applyAll (compactionSteps d sstables outputs)).files =
      (d.applyAll (outputs.map .publish ++ sstables.map .remove)).files := by
  rw [compactionSteps, List.append_assoc, applyAll_append]
  apply files_applyAll_congr
  rw [applyAll_append, files_applyAll_stage, files_applyAll_discard]

namespace Engine

/-- Two engines that differ in the temporaries on disk at most. -/
structure SameTables (e f : Engine) : Prop where
  memtable : e.memtable = f.memtable
  sstables : e.sstables = f.sstables
  sstCounter : e.sstCounter = f.sstCounter
  log : e.log = f.log
  files : e.dir.files = f.dir.files

theorem SameTables.get_eq {e f : Engine} (h : e.SameTables f) (k : Key) : e.get k = f.get k := by
  simp only [get, h.memtable, h.sstables]

theorem SameTables.compact {e f e' : Engine} (h : e.SameTables f) (he : e.compact = .ok e') :
    ∃ f', f.compact = .ok f' ∧ e'.SameTables f' := by
  have hout : compactionOutputs e.dir e.sstables = compactionOutputs f.dir f.sstables := by
    simp only [compactionOutputs, h.sstables, h.files]
  rcases compact_cases he with ⟨hfew, rfl⟩ | ⟨outputs, hmany, hsome, rfl⟩
  · rw [h.sstables] at hfew
    exact ⟨f, by rw [Engine.compact, if_pos hfew], h⟩
  · rw [h.sstables] at hmany
    rw [hout] at hsome
    rw [Engine.compact, if_neg (Nat.not_lt.mpr hmany), hsome]
    refine ⟨_, rfl, h.memtable, rfl, rfl, h.log, ?_⟩
    rw [files_compacted, files_compacted, h.sstables]
    exact files_applyAll_congr h.files _

theorem failCompact_same {e e' : Engine} {fault : CompactionFault} (h : e.failCompact fault = .ok e') :
    e'.SameTables e := by
  unfold Engine.failCompact at h
  split at h
  case h_1 => cases h
  case h_2 outputs hout =>
    cases h
    refine ⟨rfl, rfl, rfl, rfl, ?_⟩
    have hfiles := files_applyAll_discard e.dir e.dir.temps
    rw [applyAll_append, files_applyAll_failedSteps, hfiles]
    rw [hfiles]
    exact firstOutputs_nodup hout

end Engine

/-- A compaction that throws, wherever it does, leaves the table files, the table list and the
counter as they were. A later compaction that returns ends in the same tables, the same counter
and the same files as if the failed one had not been, and so with the same value for every key. -/
theorem failed_compaction_leaves_no_residue {e e' : Engine} {fault : CompactionFault}
    (hthrows : e.CompactionThrows fault) (h : e.compactWith (some fault) = .ok e') :
    e'.dir.files = e.dir.files ∧ e'.sstables = e.sstables ∧ e'.sstCounter = e.sstCounter ∧
    ∀ f', e'.compact = .ok f' → ∃ f, e.compact = .ok f ∧ f'.dir.files = f.dir.files ∧
      f'.sstables = f.sstables ∧ f'.sstCounter = f.sstCounter ∧ ∀ k, f'.get k = f.get k := by
  rw [Engine.compactWith, if_pos hthrows] at h
  have hsame := Engine.failCompact_same h
  refine ⟨hsame.files, hsame.sstables, hsame.sstCounter, ?_⟩
  intro f' hf'
  obtain ⟨f, hf, hff⟩ := hsame.compact hf'
  exact ⟨f, hf, hff.files, hff.sstables, hff.sstCounter, hff.get_eq⟩

theorem overlapping_leaves_no_residue :
    ∃ e' f f', overlapping.compactWith (some (.midPublish 0)) = .ok e' ∧ e'.dir.files = overlapping.dir.files ∧
      e'.compact = .ok f' ∧ overlapping.compact = .ok f ∧ f'.dir.files = f.dir.files ∧ ∀ k, f'.get k = f.get k := by
  have hthrows : overlapping.CompactionThrows (.midPublish 0) := by decide +kernel
  have hsome : (firstOutputs overlapping.dir overlapping.sstables
      (CompactionFault.numbered overlapping.outputCount (.midPublish 0))).isSome = true := by
    decide +kernel
  obtain ⟨outputs, hout⟩ := Option.isSome_iff_exists.mp hsome
  have hfails : ∃ e', overlapping.compactWith (some (.midPublish 0)) = .ok e' := by
    rw [Engine.compactWith, if_pos hthrows, Engine.failCompact, hout]
    exact ⟨_, rfl⟩
  obtain ⟨e', he'⟩ := hfails
  have hcompacts : (overlapping.compactWith (some (.midPublish 0))).toOption.all (·.compact.isOk) = true := by
    decide +kernel
  obtain ⟨f', hf'⟩ : ∃ f', e'.compact = .ok f' := by
    rw [he'] at hcompacts
    cases hcompact : e'.compact with
    | error err => simp [hcompact, Except.toOption, Except.isOk, Except.toBool] at hcompacts
    | ok f' => exact ⟨f', rfl⟩
  obtain ⟨hfiles, -, -, hlater⟩ := failed_compaction_leaves_no_residue hthrows he'
  obtain ⟨f, hf, hsame, -, -, hget⟩ := hlater f' hf'
  exact ⟨e', f, f', he', hfiles, hf', hf, hsame, hget⟩

end LsmTree
