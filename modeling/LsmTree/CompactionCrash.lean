import LsmTree.Compaction

/-!
# Crashes inside a compaction

At every point of a compaction the files on disk, loaded in order, resolve every key as
the tables did before it began. Outputs hold only live entries and no tombstones, so
this rests on three facts: their names sort them after every older level 1 table and
before level 0, all of them are published before the first input goes, and level 1
inputs go before level 0 ones.

A restarted compaction numbers its outputs past those a crash has left behind, so the
argument repeats, until the numbers run out.
-/

namespace LsmTree
open LittleEndian LayeredMap Merge

/-! ### The directory at a crash -/

theorem applyAll_append (d : Directory) (as bs : List DirStep) :
    d.applyAll (as ++ bs) = (d.applyAll as).applyAll bs := List.foldl_append

theorem files_applyAll_discard (d : Directory) (ts : List SSTable) :
    (d.applyAll (ts.map .discard)).files = d.files := by
  induction ts generalizing d with
  | nil => rfl
  | cons t ts ih => exact ih _

theorem files_applyAll_stage (d : Directory) (ts : List SSTable) :
    (d.applyAll (ts.map .stage)).files = d.files := by
  induction ts generalizing d with
  | nil => rfl
  | cons t ts ih => exact ih _

/-- Tables published under new names are added to the files. -/
theorem files_applyAll_publish {d : Directory} {ts : List SSTable}
    (h : ((d.files ++ ts).map SSTable.name).Nodup) :
    (d.applyAll (ts.map .publish)).files = d.files ++ ts := by
  induction ts generalizing d with
  | nil => simp [Directory.applyAll]
  | cons t ts ih =>
    have hfiles : (d.apply (.publish t)).files = d.files ++ [t] := by
      have hkeep : d.files.filter (·.name ≠ t.name) = d.files := by
        rw [List.filter_eq_self]
        intro s hs
        rw [List.map_append, List.nodup_append] at h
        simpa using h.2.2 _ (List.mem_map_of_mem hs) _ (List.mem_map_of_mem List.mem_cons_self)
      simp only [Directory.apply, hkeep]
    have hrest := ih (d := d.apply (.publish t)) (by rwa [hfiles, List.append_assoc])
    rw [hfiles, List.append_assoc] at hrest
    exact hrest

theorem files_applyAll_remove (d : Directory) (ts : List SSTable) :
    (d.applyAll (ts.map .remove)).files = d.files.filter fun t => ∀ s ∈ ts, t.name ≠ s.name := by
  induction ts generalizing d with
  | nil => simp [Directory.applyAll]
  | cons s ts ih =>
    have hstep : d.applyAll ((s :: ts).map .remove) =
        (d.apply (.remove s)).applyAll (ts.map .remove) := rfl
    rw [hstep, ih, Directory.apply, List.filter_filter]
    simp [Bool.and_comm]

theorem mem_files_applyAll_remove {d : Directory} {ts : List SSTable} {t : SSTable} :
    t ∈ (d.applyAll (ts.map .remove)).files ↔ t ∈ d.files ∧ ∀ s ∈ ts, t.name ≠ s.name := by
  rw [files_applyAll_remove, List.mem_filter, decide_eq_true_iff]

section Crash
variable {d : Directory} {outputs : List SSTable}

/-- Level 1 names past all others are new, and distinct when they are in order. -/
theorem nodup_files_append (hpair : outputs.Pairwise SSTable.Before)
    (hlevel : ∀ o ∈ outputs, o.name.level = .l1)
    (hfresh : ∀ o ∈ outputs, ∀ t ∈ d.files, t.name.level = .l1 → t.name.counter < o.name.counter) :
    ((d.files ++ outputs).map SSTable.name).Nodup := by
  have hdistinct : outputs.Pairwise fun a b => a.name ≠ b.name := by
    refine hpair.imp ?_
    intro a b hab heq
    simp [SSTable.Before, heq] at hab
  rw [List.map_append, List.nodup_append]
  refine ⟨d.nodup, List.pairwise_map.mpr hdistinct, ?_⟩
  intro a ha b hb heq
  obtain ⟨t, ht, rfl⟩ := List.mem_map.mp ha
  obtain ⟨o, ho, rfl⟩ := List.mem_map.mp hb
  have hlt := hfresh o ho t ht (heq ▸ hlevel o ho)
  rw [heq] at hlt
  exact lt_irrefl _ hlt

theorem Outputs.nodup (h : Outputs d d.load outputs) :
    ((d.files ++ outputs).map SSTable.name).Nodup := nodup_files_append h.pairwise h.level h.fresh

/-- After any number of steps some outputs are there and some inputs are gone; inputs go only
once all outputs are there. -/
theorem mem_files_crash (h : Outputs d d.load outputs) (n : ℕ) :
    let j := n - d.temps.length - outputs.length
    let r := j - outputs.length
    (r = 0 ∨ outputs.take j = outputs) ∧ ∀ t,
      t ∈ (d.applyAll ((compactionSteps d d.load outputs).take n)).files ↔
        t ∈ d.load.drop r ∨ t ∈ outputs.take j := by
  intro j r
  refine ⟨?_, ?_⟩
  · rcases Nat.le_total j outputs.length with hle | hle
    · exact .inl (Nat.sub_eq_zero_of_le hle)
    · exact .inr (List.take_of_length_le hle)
  · intro t
    have hsteps : (compactionSteps d d.load outputs).take n =
        (d.temps.take n).map .discard ++ (outputs.take (n - d.temps.length)).map .stage ++
          (outputs.take j).map .publish ++ (d.load.take r).map .remove := by
      simp only [compactionSteps, List.take_append, List.map_take, List.length_append,
        List.length_map]
      rw [show n - (d.temps.length + outputs.length) = j by omega,
        show n - (d.temps.length + outputs.length + outputs.length) = r by omega]
    have hpublished : (d.applyAll ((d.temps.take n).map .discard ++
        (outputs.take (n - d.temps.length)).map .stage ++ (outputs.take j).map .publish)).files =
        d.files ++ outputs.take j := by
      rw [applyAll_append, applyAll_append, files_applyAll_publish]
      · rw [files_applyAll_stage, files_applyAll_discard]
      · rw [files_applyAll_stage, files_applyAll_discard]
        exact h.nodup.sublist (((List.Sublist.refl _).append (List.take_sublist _ _)).map _)
    rw [hsteps, applyAll_append, mem_files_applyAll_remove, hpublished, List.mem_append]
    -- Removal is by name; the inputs that stay and the outputs have other names.
    have hkept : t ∈ d.files → ((∀ s ∈ d.load.take r, t.name ≠ s.name) ↔ t ∈ d.load.drop r) := by
      intro ht
      have hsplit := List.take_append_drop r d.load
      have hpair := d.pairwise_load
      rw [← hsplit, List.pairwise_append] at hpair
      constructor
      · intro hne
        have hload : t ∈ d.load.take r ++ d.load.drop r := by
          rw [hsplit]
          exact Directory.mem_load.mpr ht
        rcases List.mem_append.mp hload with hin | hin
        · exact absurd rfl (hne t hin)
        · exact hin
      · intro hin s hs heq
        have hbefore := hpair.2.2 s hs t hin
        simp [SSTable.Before, heq] at hbefore
    have hout : t ∈ outputs.take j → ∀ s ∈ d.load.take r, t.name ≠ s.name := by
      intro ht s hs heq
      have ho := List.mem_of_mem_take ht
      have hin := Directory.mem_load.mp (List.mem_of_mem_take hs)
      have hlt := h.fresh t ho s hin (heq ▸ h.level t ho)
      rw [heq] at hlt
      exact lt_irrefl _ hlt
    constructor
    · rintro ⟨ht | ht, hne⟩
      · exact .inl ((hkept ht).mp hne)
      · exact .inr ht
    · rintro (ht | ht)
      · have hin := Directory.mem_load.mp (List.mem_of_mem_drop ht)
        exact ⟨.inl hin, (hkept hin).mpr ht⟩
      · exact ⟨.inr ht, hout ht⟩

/-- The load order has level 1 first. -/
theorem filter_levels {ts : List SSTable} (h : ts.Pairwise SSTable.Before) :
    ts.filter (·.name.level = .l1) ++ ts.filter (·.name.level = .l0) = ts := by
  induction ts with
  | nil => rfl
  | cons t ts ih =>
    obtain ⟨hhead, hrest⟩ := List.pairwise_cons.mp h
    cases hl : t.name.level with
    | l1 => simp [hl, ih hrest]
    | l0 =>
      have hnone : ts.filter (·.name.level = .l1) = [] := by
        rw [List.filter_eq_nil_iff]
        intro s hs
        have hbefore := hhead s hs
        simp only [SSTable.Before, hl] at hbefore
        split_ifs at hbefore with heq
        · simp [← heq]
      have hall : ts.filter (·.name.level = .l0) = ts := by
        have := ih hrest
        rwa [hnone, List.nil_append] at this
      simp [hl, hnone, hall]

theorem before_of_levels {a b : SSTable} (ha : a.name.level = .l1) (hb : b.name.level = .l0) :
    a.Before b := by
  rw [SSTable.Before, ha, hb]
  simp

/-- The tables a reopened engine finds: the rest of the old level 1, the published outputs,
the rest of level 0. -/
theorem load_crash (h : Outputs d d.load outputs) {d' : Directory} {rest : List SSTable} {j : ℕ}
    (hrest : rest.Sublist d.load) (hmem : ∀ t, t ∈ d'.files ↔ t ∈ rest ∨ t ∈ outputs.take j) :
    d'.load = rest.filter (·.name.level = .l1) ++ outputs.take j ++
      rest.filter (·.name.level = .l0) := by
  have hpair : rest.Pairwise SSTable.Before := d.pairwise_load.sublist hrest
  have hold : ∀ t ∈ rest.filter (·.name.level = .l1), t ∈ d.files ∧ t.name.level = .l1 := by
    intro t ht
    obtain ⟨ht, hl⟩ := List.mem_filter.mp ht
    exact ⟨Directory.mem_load.mp (hrest.subset ht), by simpa using hl⟩
  have hnew : ∀ t ∈ rest.filter (·.name.level = .l0), t.name.level = .l0 := by
    intro t ht
    simpa using (List.mem_filter.mp ht).2
  have hout : ∀ t ∈ outputs.take j, t.name.level = .l1 :=
    fun t ht => h.level t (List.mem_of_mem_take ht)
  apply Directory.load_eq
  · refine List.pairwise_append.mpr ⟨List.pairwise_append.mpr ⟨hpair.filter _,
      h.pairwise.sublist (List.take_sublist _ _), ?_⟩, hpair.filter _, ?_⟩
    · intro t ht o ho
      obtain ⟨hin, hl⟩ := hold t ht
      rw [SSTable.Before, if_pos (hl.trans (hout o ho).symm)]
      exact h.fresh o (List.mem_of_mem_take ho) t hin hl
    · intro t ht s hs
      rcases List.mem_append.mp ht with ht | ht
      · exact before_of_levels (hold t ht).2 (hnew s hs)
      · exact before_of_levels (hout t ht) (hnew s hs)
  · intro t
    have hrest' : t ∈ rest ↔ t ∈ rest.filter (·.name.level = .l1) ∨
        t ∈ rest.filter (·.name.level = .l0) := by
      rw [← List.mem_append, filter_levels hpair]
    rw [hmem, hrest', List.mem_append, List.mem_append]
    tauto

theorem layers_append (ts us : List SSTable) : layers (ts ++ us) = layers ts ++ layers us :=
  List.map_append

/-- An entry of an output is what the inputs resolve its key to. -/
theorem Outputs.newest_of_lookup (h : Outputs d d.load outputs) {o : SSTable} (ho : o ∈ outputs)
    {k : Key} {x : Option Bytes} (hx : lookup k o.entries = some x) :
    newest k (layers d.load) = some x := by
  have hmem : o.entries ∈ merge (layers d.load) := by
    rw [← h.contents]
    exact List.mem_map_of_mem ho
  exact newest_of_mem_merge (sorted_layers _) hmem hx

/-- Removal in list order takes level 1 first: of level 0 nothing is gone before all of it is. -/
theorem filter_levels_drop {ts : List SSTable} (h : ts.Pairwise SSTable.Before) (r : ℕ) :
    let old := ts.filter (·.name.level = .l1)
    (ts.drop r).filter (·.name.level = .l1) = old.drop r ∧
      (ts.drop r).filter (·.name.level = .l0) =
        (ts.filter (·.name.level = .l0)).drop (r - old.length) := by
  intro old
  have hdrop : ts.drop r =
      old.drop r ++ (ts.filter (·.name.level = .l0)).drop (r - old.length) := by
    rw [← List.drop_append, filter_levels h]
  have hl1 : ∀ t ∈ old.drop r, t.name.level = .l1 := by
    intro t ht
    simpa using (List.mem_filter.mp (List.mem_of_mem_drop ht)).2
  have hl0 : ∀ t ∈ (ts.filter (·.name.level = .l0)).drop (r - old.length), t.name.level = .l0 := by
    intro t ht
    simpa using (List.mem_filter.mp (List.mem_of_mem_drop ht)).2
  rw [hdrop, List.filter_append, List.filter_append,
    List.filter_eq_self.mpr (fun t ht => by simp [hl1 t ht]),
    List.filter_eq_nil_iff.mpr (fun t ht => by simp [hl0 t ht]),
    List.filter_eq_nil_iff.mpr (fun t ht => by simp [hl1 t ht]),
    List.filter_eq_self.mpr (fun t ht => by simp [hl0 t ht])]
  simp

/-- At every crash point every key resolves as before the compaction. -/
theorem resolve_crash (h : Outputs d d.load outputs) (n : ℕ) (k : Key) :
    resolve k (layers (d.applyAll ((compactionSteps d d.load outputs).take n)).load) =
      resolve k (layers d.load) := by
  obtain ⟨hjr, hmem⟩ := mem_files_crash h n
  set j := n - d.temps.length - outputs.length
  set r := j - outputs.length
  have hlive : LiveStack (layers outputs) (layers d.load) := by
    rw [h.contents]
    exact liveStack_merge (sorted_layers _)
  rw [load_crash h (List.drop_sublist r d.load) hmem, layers_append, layers_append,
    (filter_levels_drop d.pairwise_load r).1, (filter_levels_drop d.pairwise_load r).2]
  have hsplit : layers d.load = layers (d.load.filter (·.name.level = .l1)) ++
      layers (d.load.filter (·.name.level = .l0)) := by
    rw [← layers_append, filter_levels d.pairwise_load]
  rcases hjr with hzero | hall
  · rw [hzero, List.drop_zero, Nat.zero_sub, List.drop_zero, resolve_interpose, ← hsplit]
    intro m hm x hx
    obtain ⟨o, ho, rfl⟩ := List.mem_map.mp hm
    rw [← hsplit]
    exact h.newest_of_lookup (List.mem_of_mem_take ho) hx
  · rw [hall]
    rw [hsplit] at hlive ⊢
    rcases Nat.le_total r (d.load.filter (·.name.level = .l1)).length with hle | hle
    · rw [Nat.sub_eq_zero_of_le hle, List.drop_zero]
      exact resolve_drop_old ((List.drop_suffix r _).map _) hlive k
    · rw [List.drop_of_length_le hle]
      exact resolve_drop_new ((List.drop_suffix _ _).map _) hlive k

/-! ### Restarted compactions -/

/-- The directory after `n` steps of the compaction that an engine opened on it would run. -/
def crashedCompaction (d : Directory) (n : ℕ) : Option Directory :=
  if l0Count d.load < l0Threshold then some d
  else (compactionOutputs d d.load).map fun outputs =>
    d.applyAll ((compactionSteps d d.load outputs).take n)

/-- Compactions restarted on what the one before has left, each crashing after so many steps. -/
def crashes : Directory → List ℕ → Option Directory
  | d, [] => some d
  | d, n :: ns => (crashedCompaction d n).bind fun d' => crashes d' ns

/-- Up to `c` compactions may crash anywhere: they are defined, and the files they leave resolve
every key as the first one found it. -/
def CrashSafe (d : Directory) (c : ℕ) : Prop :=
  ∀ ns : List ℕ, ns.length ≤ c → ∃ d', crashes d ns = some d' ∧
    ∀ k, resolve k (layers d'.load) = resolve k (layers d.load)

/-- The number of tables a compaction of the directory writes. -/
def outputCount (d : Directory) : ℕ :=
  (liveKeys (layers d.load) + (l1MaxFileEntries - 1)) / l1MaxFileEntries

theorem outputCount_congr {d d' : Directory}
    (h : ∀ k, resolve k (layers d'.load) = resolve k (layers d.load)) :
    outputCount d' = outputCount d := by
  rw [outputCount, outputCount, liveKeys_congr h]

theorem l1Start_load (d : Directory) : max (l1Start d.load) (l1Start d.files) = l1Start d.files := by
  have hsame : l1Start d.load = l1Start d.files := nextCounter_congr fun _ _ => Directory.mem_load
  rw [hsame, max_self]

theorem Outputs.counters_eq (h : Outputs d d.load outputs) :
    outputs.map (·.name.counter) = List.range' (l1Start d.files) (outputCount d) := by
  rw [h.counters, l1Start_load, length_merge (sorted_layers _)]
  rfl

theorem outputs_isSome_iff :
    (compactionOutputs d d.load).isSome ↔ l1Start d.files + outputCount d ≤ intMax := by
  rw [compactionOutputs_isSome, l1Start_load]
  rfl

/-- A crash raises the first free number by the number of outputs at most. -/
theorem l1Start_crash (h : Outputs d d.load outputs) (n : ℕ) :
    l1Start (d.applyAll ((compactionSteps d d.load outputs).take n)).files ≤
      l1Start d.files + outputCount d := by
  obtain ⟨-, hmem⟩ := mem_files_crash h n
  apply nextCounter_le
  intro t ht hl
  rcases (hmem t).mp ht with ht | ht
  · have hlt : t.name.counter < l1Start d.files :=
      lt_nextCounter (Directory.mem_load.mp (List.mem_of_mem_drop ht)) hl
    omega
  · have hcounter := List.mem_map_of_mem (f := fun t : SSTable => t.name.counter)
      (List.mem_of_mem_take ht)
    rw [h.counters_eq, List.mem_range'_1] at hcounter
    exact hcounter.2

/-- A crash right after the last rename leaves all inputs, and raises it by exactly that. -/
theorem crash_after_publish (h : Outputs d d.load outputs) :
    let d' := d.applyAll ((compactionSteps d d.load outputs).take
      (d.temps.length + outputs.length + outputs.length))
    l0Count d'.load = l0Count d.load ∧
      (0 < outputCount d → l1Start d'.files = l1Start d.files + outputCount d) := by
  intro d'
  have hmem := (mem_files_crash h (d.temps.length + outputs.length + outputs.length)).2
  have hj : d.temps.length + outputs.length + outputs.length - d.temps.length - outputs.length =
      outputs.length := by omega
  rw [hj, Nat.sub_self, List.take_length, List.drop_zero] at hmem
  refine ⟨?_, ?_⟩
  · have hload : d'.load = d.load.filter (·.name.level = .l1) ++ outputs.take outputs.length ++
        d.load.filter (·.name.level = .l0) :=
      load_crash h (List.Sublist.refl _) (by simpa using hmem)
    rw [hload]
    have hold : (d.load.filter (·.name.level = .l1)).filter (·.name.level = .l0) = [] := by
      rw [List.filter_eq_nil_iff]
      intro t ht
      have := (List.mem_filter.mp ht).2
      simp_all
    have hout : (outputs.take outputs.length).filter (·.name.level = .l0) = [] := by
      rw [List.filter_eq_nil_iff]
      intro t ht
      simp [h.level t (List.mem_of_mem_take ht)]
    rw [l0Count, l0Count, List.filter_append, List.filter_append, hold, hout, List.nil_append,
      List.nil_append, List.filter_filter]
    simp
  · intro hpos
    apply Nat.le_antisymm (l1Start_crash h _)
    have hlast : l1Start d.files + outputCount d - 1 ∈ outputs.map (·.name.counter) := by
      rw [h.counters_eq, List.mem_range'_1]
      omega
    obtain ⟨o, ho, hcounter⟩ := List.mem_map.mp hlast
    have hlt : o.name.counter < l1Start d'.files :=
      lt_nextCounter ((hmem o).mpr (.inr ho)) (h.level o ho)
    show _ ≤ l1Start d'.files
    omega

theorem crashes_of_l0Count (h : l0Count d.load < l0Threshold) (ns : List ℕ) :
    crashes d ns = some d := by
  induction ns with
  | nil => rfl
  | cons n ns ih => rw [crashes, crashedCompaction, if_pos h, Option.bind_some, ih]

theorem crashedCompaction_of_fit (hmany : ¬ l0Count d.load < l0Threshold)
    (hfit : l1Start d.files + outputCount d ≤ intMax) :
    ∃ outputs, Outputs d d.load outputs ∧ ∀ n, crashedCompaction d n =
      some (d.applyAll ((compactionSteps d d.load outputs).take n)) := by
  obtain ⟨outputs, hout⟩ := Option.isSome_iff_exists.mp (outputs_isSome_iff.mpr hfit)
  refine ⟨outputs, compactionOutputs_spec hout, ?_⟩
  intro n
  rw [crashedCompaction, if_neg hmany, hout, Option.map_some]

end Crash

/-- Compactions restarted after crashes are safe exactly as long as the numbers of their outputs
stay within `int`, each time as many as there are thousands of live keys. -/
theorem crashSafe_iff (d : Directory) (c : ℕ) :
    CrashSafe d c ↔
      l0Count d.load < l0Threshold ∨ c = 0 ∨ l1Start d.files + c * outputCount d ≤ intMax := by
  induction c generalizing d with
  | zero =>
    refine ⟨fun _ => .inr (.inl rfl), ?_⟩
    intro _ ns hns
    rw [List.length_eq_zero_iff.mp (Nat.eq_zero_of_le_zero hns)]
    exact ⟨d, rfl, fun _ => rfl⟩
  | succ c ih =>
    by_cases hmany : l0Count d.load < l0Threshold
    · refine ⟨fun _ => .inl hmany, ?_⟩
      intro _ ns _
      exact ⟨d, crashes_of_l0Count hmany ns, fun _ => rfl⟩
    constructor
    · intro hsafe
      have hfit : l1Start d.files + outputCount d ≤ intMax := by
        obtain ⟨d', hd', -⟩ := hsafe [0] (by simp)
        rw [crashes, crashedCompaction, if_neg hmany] at hd'
        apply outputs_isSome_iff.mp
        cases hout : compactionOutputs d d.load with
        | none => simp [hout] at hd'
        | some outputs => rfl
      obtain ⟨outputs, hout, hcrash⟩ := crashedCompaction_of_fit hmany hfit
      let n := d.temps.length + outputs.length + outputs.length
      let d' := d.applyAll ((compactionSteps d d.load outputs).take n)
      have hresolve : ∀ k, resolve k (layers d'.load) = resolve k (layers d.load) :=
        resolve_crash hout n
      have hsafe' : CrashSafe d' c := by
        intro ns hns
        obtain ⟨d'', hd'', hsame⟩ := hsafe (n :: ns) (by simpa using hns)
        rw [crashes, hcrash, Option.bind_some] at hd''
        exact ⟨d'', hd'', fun k => (hsame k).trans (hresolve k).symm⟩
      obtain ⟨hl0, hstart⟩ := crash_after_publish hout
      right; right
      rcases Nat.eq_zero_or_pos (outputCount d) with hzero | hpos
      · simp only [hzero] at hfit ⊢
        omega
      · rcases (ih d').mp hsafe' with hfew | rfl | hle
        · exact absurd (hl0 ▸ hfew) hmany
        · simpa using hfit
        · rw [hstart hpos, outputCount_congr hresolve] at hle
          rw [Nat.succ_mul]
          omega
    · rintro (hfew | hzero | hfit) ns hns
      · exact absurd hfew hmany
      · cases hzero
      · rw [Nat.succ_mul] at hfit
        cases ns with
        | nil => exact ⟨d, rfl, fun _ => rfl⟩
        | cons n ns =>
          obtain ⟨outputs, hout, hcrash⟩ := crashedCompaction_of_fit hmany (by omega)
          let d' := d.applyAll ((compactionSteps d d.load outputs).take n)
          have hresolve : ∀ k, resolve k (layers d'.load) = resolve k (layers d.load) :=
            resolve_crash hout n
          have hsafe' : CrashSafe d' c := by
            refine (ih d').mpr (.inr (.inr ?_))
            have hstart : l1Start d'.files ≤ l1Start d.files + outputCount d := l1Start_crash hout n
            rw [outputCount_congr hresolve]
            omega
          obtain ⟨d'', hd'', hsame⟩ := hsafe' ns (by simpa using hns)
          refine ⟨d'', ?_, fun k => (hsame k).trans (hresolve k)⟩
          rw [crashes, hcrash, Option.bind_some]
          exact hd''

/-- A key of so many zero bytes. -/
def keyOfSize (n : ℕ) : Key := .ofBytes (List.replicate n 0)

theorem keyOfSize_lt {m n : ℕ} (h : m < n) : keyOfSize m < keyOfSize n := by
  obtain ⟨i, rfl⟩ := Nat.exists_eq_add_of_lt h
  show List.replicate m (0 : UInt8) < List.replicate (m + i + 1) 0
  induction m with
  | zero => exact List.nil_lt_cons _ _
  | succ m ih =>
    have hsucc : m + 1 + i + 1 = m + i + 1 + 1 := by omega
    rw [hsucc, List.replicate_succ, List.replicate_succ]
    exact List.cons_lt_cons_iff.mpr (.inr ⟨rfl, ih (by omega)⟩)

/-- A level 1 table of 1001 keys with the largest number but one, under four level 0 tables. One number is
left for what takes two tables; where `int` wraps round, the name of the second is one that a start skips. -/
def fullDirectory : Directory where
  files := [⟨⟨.l1, 2147483646, by decide⟩, (List.range 1001).map fun i => (keyOfSize i, some [5]),
      List.pairwise_map.mpr (List.pairwise_lt_range.imp keyOfSize_lt)⟩,
    ⟨⟨.l0, 0, by decide⟩, [(keyOfSize 1, some [6])], by decide⟩,
    ⟨⟨.l0, 1, by decide⟩, [(keyOfSize 1, some [7])], by decide⟩,
    ⟨⟨.l0, 2, by decide⟩, [(keyOfSize 1, some [8])], by decide⟩,
    ⟨⟨.l0, 3, by decide⟩, [(keyOfSize 1, some [9])], by decide⟩]
  temps := []
  nodup := by decide

theorem not_crashSafe_fullDirectory : ¬ CrashSafe fullDirectory 2 := by
  have hlive : (resolve (keyOfSize 1) (layers fullDirectory.load)).isSome = true := by decide +kernel
  have hpos : 0 < liveKeys (layers fullDirectory.load) :=
    List.length_pos_of_mem (List.mem_filter.mpr ⟨List.mem_dedup.mpr (mem_keys_of_resolve hlive), hlive⟩)
  have hstart : l1Start fullDirectory.files = intMax := by decide +kernel
  have hmany : ¬ l0Count fullDirectory.load < l0Threshold := by decide +kernel
  have hsize : l1MaxFileEntries = 1000 := rfl
  rw [crashSafe_iff, hstart, outputCount, hsize]
  omega

end LsmTree
