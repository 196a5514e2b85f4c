import LsmTree.CompactionNumbers

/-!
# Names are right until numbers run out

A step is correct if no counter leaves its range, each new name is sound when it is made,
and opening the engine again finds the listed tables in their order. From any directory of
well-named tables, every run is correct in all of its steps if and only if each step starts
with numbers left: opening the directory, if no table of level 0 has the number `INT_MAX`;
a flush, if its counter has not reached it; and a compaction, if the numbers from the first
one past level 1 suffice for its outputs.
-/

namespace LsmTree.Naming
open Faults

/-- What is to hold of a step. -/
def Event.Correct (s : Names) : Event → Prop
  | .flush outputs =>
    ∃ s₁ s₂, s.writeTable = .ok s₁ ∧ s₁.compact outputs = .ok s₂ ∧
      0 ≤ s₁.sstCounter ∧ s₁.sstCounter ≤ intMax ∧ 0 ≤ s₂.sstCounter ∧ s₂.sstCounter ≤ intMax ∧
      Sound 0 s.sstCounter (sstPath 0 s.sstCounter) s.files s.sstables ∧
      (s₁.Compacts → ∃ l1Start names, s₁.l1Start = .ok l1Start ∧ Names.outputNames outputs l1Start = .ok names ∧
        0 ≤ l1Start ∧ l1Start + outputs ≤ intMax ∧ names.length = outputs ∧ s₂.sstables = names ∧
        ∀ earlier name later, names = earlier ++ name :: later →
          Sound 1 (l1Start + earlier.length) name (s₁.files ++ earlier) (s₁.sstables ++ earlier))
  | .reopen =>
    ∃ s', loadSSTables s.files = .ok s' ∧ s'.sstables = s.sstables ∧ 0 ≤ s'.sstCounter ∧ s'.sstCounter ≤ intMax

/-- There are numbers left. -/
def Event.InRange (s : Names) : Event → Prop
  | .flush outputs =>
    s.sstCounter < intMax ∧
      (l0Threshold ≤ (s.sstables.filter isL0).length + 1 →
        (outputs : ℤ) ≤ intMax ∧ ∀ t ∈ s.sstables, ∀ c, loadName t = some (1, c) → c + 1 + outputs ≤ intMax)
  | .reopen => True

def RunCorrect (s : Names) : List Event → Prop
  | [] => True
  | e :: es => e.Correct s ∧ ∀ s', s.step e = .ok s' → RunCorrect s' es

def RunInRange (s : Names) : List Event → Prop
  | [] => True
  | e :: es => e.InRange s ∧ ∀ s', s.step e = .ok s' → RunInRange s' es

/-- What is to hold of a directory: it is opened, and all steps after that are correct. -/
def NamesCorrect (files : List Name) (es : List Event) : Prop :=
  ∃ s, loadSSTables files = .ok s ∧ 0 ≤ s.sstCounter ∧ s.sstCounter ≤ intMax ∧ RunCorrect s es

namespace Described
variable {s : Names} {ns : List TableName}

theorem compacts_append {s₁ : Names} {n : TableName} (hlevel : n.level = .l0)
    (hlisted : s₁.sstables = s.sstables ++ [fileName n]) :
    s₁.Compacts ↔ l0Threshold ≤ (s.sstables.filter isL0).length + 1 := by
  rw [Names.Compacts, hlisted, List.filter_append]
  simp [isL0_fileName, hlevel]

theorem l1_bound_iff (h : Described s ns) (k : ℤ) :
    (∀ t ∈ s.sstables, ∀ c, loadName t = some (1, c) → c + k ≤ intMax) ↔
      ∀ n ∈ ns, n.level = .l1 → (n.counter : ℤ) + k ≤ intMax := by
  rw [h.listed, List.forall_mem_map]
  refine forall₂_congr fun n _ => ?_
  rw [loadName_fileName]
  cases n.level <;> simp [levelNumber]

/-- Level 1 leaves room for the outputs. -/
theorem fits_iff (h : Described s ns) (outputs : ℕ) :
    (∃ start, s.l1Start = .ok start ∧ start + outputs ≤ intMax) ↔
      (outputs : ℤ) ≤ intMax ∧ ∀ n ∈ ns, n.level = .l1 → (n.counter : ℤ) + (1 + outputs) ≤ intMax := by
  constructor
  · rintro ⟨start, hstart, hfits⟩
    obtain ⟨hge, -, hpast, -⟩ := h.l1Start_spec hstart
    refine ⟨by omega, ?_⟩
    intro n hn hlevel
    have := hpast n hn hlevel
    omega
  · rintro ⟨houtputs, hroom⟩
    obtain ⟨start, hstart⟩ := h.l1Start_isOk_iff.mpr (by
      intro n hn hlevel
      have := hroom n hn hlevel
      omega)
    refine ⟨start, hstart, ?_⟩
    obtain ⟨-, -, -, rfl | ⟨n, hn, hlevel, rfl⟩⟩ := h.l1Start_spec hstart
    · omega
    · have := hroom n hn hlevel
      omega

theorem compact_isOk_iff (h : Described s ns) (outputs : ℕ) :
    (∃ s', s.compact outputs = .ok s') ↔
      (s.Compacts → ∃ start, s.l1Start = .ok start ∧ start + outputs ≤ intMax) := by
  by_cases hc : s.Compacts
  · simp only [Names.compact, hc, if_true, true_implies]
    cases hstart : s.l1Start with
    | error err => simp [bind, Except.bind]
    | ok start =>
      obtain ⟨-, hle, -, -⟩ := h.l1Start_spec hstart
      by_cases hfits : start + outputs ≤ intMax
      · rw [ok_bind, outputNames_of_fits hfits, ok_bind]
        simp [hfits, pure, Except.pure]
      · rw [ok_bind, outputNames_of_not_fits hle hfits, error_bind]
        simp [hfits]
  · simp [Names.compact, hc]

theorem compact_spec (h : Described s ns) {outputs : ℕ} {start : ℤ} (hc : s.Compacts) (hstart : s.l1Start = .ok start)
    (hfits : start + outputs ≤ intMax) :
    ∃ s' names outs, s.compact outputs = .ok s' ∧ Names.outputNames outputs start = .ok names ∧ s'.sstables = names ∧
      names.length = outputs ∧ Described s' outs ∧
      ∀ earlier name later, names = earlier ++ name :: later →
        Sound 1 (start + earlier.length) name (s.files ++ earlier) (s.sstables ++ earlier) := by
  obtain ⟨hge, -, hpast, -⟩ := h.l1Start_spec hstart
  obtain ⟨k, rfl⟩ := Int.eq_ofNat_of_zero_le hge
  obtain ⟨outs, houts, hnames⟩ := exists_numberedFrom (n := k) (k := outputs) (by omega)
  have hpast' : ∀ n ∈ ns, n.level = .l1 → n.counter < k := by
    intro n hn hlevel
    exact_mod_cast hpast n hn hlevel
  have hlength : (outs.map fileName).length = outputs := by
    have hranged := hnames
    rw [outputNames_of_fits hfits, Except.ok.injEq] at hranged
    simpa using (congrArg List.length hranged).symm
  refine ⟨_, _, outs, ?_, hnames, rfl, hlength, h.compacted hpast' houts, ?_⟩
  · rw [Names.compact, if_pos hc, hstart, ok_bind, hnames, ok_bind]
    rfl
  · intro earlier name later hsplit
    obtain ⟨pre, rest, houtsSplit, rfl, hrest⟩ := List.map_eq_append_iff.mp hsplit
    obtain ⟨o, post, rfl, rfl, -⟩ := List.map_eq_cons_iff.mp hrest
    rw [List.length_map]
    exact h.sound_output hpast' houts houtsSplit

/-- The condition on a flush, for the state in which it compacts. -/
theorem flush_inRange_iff (h : Described s ns) {s₁ : Names} {n : TableName} (hlt : s.sstCounter < intMax)
    (hlevel : n.level = .l0) (hlisted : s₁.sstables = s.sstables ++ [fileName n]) (h₁ : Described s₁ (ns ++ [n]))
    (outputs : ℕ) : (Event.flush outputs).InRange s ↔
      (s₁.Compacts → ∃ start, s₁.l1Start = .ok start ∧ start + outputs ≤ intMax) := by
  have hold : (∀ m ∈ ns ++ [n], m.level = .l1 → (m.counter : ℤ) + (1 + outputs) ≤ intMax) ↔
      ∀ m ∈ ns, m.level = .l1 → (m.counter : ℤ) + (1 + outputs) ≤ intMax := by
    rw [List.forall_mem_append]
    simp [hlevel]
  rw [h₁.fits_iff, hold, compacts_append hlevel hlisted, ← h.l1_bound_iff]
  simp only [Event.InRange, hlt, true_and, add_assoc]

theorem flush_cases (h : Described s ns) {outputs : ℕ} {s' : Names} (hs : s.step (.flush outputs) = .ok s') :
    ∃ s₁ n, s.writeTable = .ok s₁ ∧ s₁.compact outputs = .ok s' ∧ Described s₁ (ns ++ [n]) ∧
      Sound 0 s.sstCounter (sstPath 0 s.sstCounter) s.files s.sstables := by
  by_cases hlt : s.sstCounter < intMax
  · obtain ⟨s₁, n, hwrite, -, -, h₁, hsound⟩ := h.writeTable hlt
    rw [Names.step, hwrite, ok_bind] at hs
    exact ⟨s₁, n, hwrite, hs, h₁, hsound⟩
  · rw [Names.step, Names.writeTable, intSucc_of_ge hlt] at hs
    cases hs

/-- A step is defined if and only if there are numbers left for it. -/
theorem step_isOk_iff (h : Described s ns) (e : Event) : (∃ s', s.step e = .ok s') ↔ e.InRange s := by
  cases e with
  | reopen =>
    obtain ⟨s', hload, -, -⟩ := h.reload
    exact iff_of_true ⟨s', hload⟩ trivial
  | flush outputs =>
    by_cases hlt : s.sstCounter < intMax
    · obtain ⟨s₁, n, hwrite, hlevel, hlisted, h₁, -⟩ := h.writeTable hlt
      rw [h.flush_inRange_iff hlt hlevel hlisted h₁, ← h₁.compact_isOk_iff, Names.step, hwrite, ok_bind]
    · refine iff_of_false ?_ fun hrange => hlt hrange.1
      rintro ⟨s', hs⟩
      rw [Names.step, Names.writeTable, intSucc_of_ge hlt] at hs
      cases hs

theorem compact (h : Described s ns) {outputs : ℕ} {s' : Names} (hs : s.compact outputs = .ok s') :
    ∃ ns', Described s' ns' := by
  by_cases hc : s.Compacts
  · obtain ⟨start, hstart, hfits⟩ := (h.compact_isOk_iff outputs).mp ⟨s', hs⟩ hc
    obtain ⟨s₂, names, outs, hcompact, -, -, -, h₂, -⟩ := h.compact_spec hc hstart hfits
    rw [hcompact, Except.ok.injEq] at hs
    exact ⟨outs, hs ▸ h₂⟩
  · rw [Names.compact, if_neg hc, Except.ok.injEq] at hs
    exact ⟨ns, hs ▸ h⟩

theorem step (h : Described s ns) {e : Event} {s' : Names} (hs : s.step e = .ok s') : ∃ ns', Described s' ns' := by
  cases e with
  | reopen =>
    obtain ⟨s'', hload, -, hdescribed⟩ := h.reload
    rw [Names.step, hload, Except.ok.injEq] at hs
    exact ⟨ns, hs ▸ hdescribed⟩
  | flush outputs =>
    obtain ⟨s₁, n, -, hcompact, h₁, -⟩ := h.flush_cases hs
    exact h₁.compact hcompact

theorem correct_of_step (h : Described s ns) {e : Event} {s' : Names} (hs : s.step e = .ok s') : e.Correct s := by
  cases e with
  | reopen =>
    obtain ⟨s'', hload, hsame, hdescribed⟩ := h.reload
    exact ⟨s'', hload, hsame, hdescribed.counter_nonneg, hdescribed.counter_le⟩
  | flush outputs =>
    obtain ⟨s₁, n, hwrite, hcompact, h₁, hsound⟩ := h.flush_cases hs
    obtain ⟨ns', h₂⟩ := h₁.compact hcompact
    refine ⟨s₁, s', hwrite, hcompact, h₁.counter_nonneg, h₁.counter_le, h₂.counter_nonneg, h₂.counter_le, hsound, ?_⟩
    intro hc
    obtain ⟨start, hstart, hfits⟩ := (h₁.compact_isOk_iff outputs).mp ⟨s', hcompact⟩ hc
    obtain ⟨s₂, names, outs, hcompact', hnames, hlisted, hlength, -, hall⟩ := h₁.compact_spec hc hstart hfits
    rw [hcompact, Except.ok.injEq] at hcompact'
    subst hcompact'
    exact ⟨start, names, hstart, hnames, (h₁.l1Start_spec hstart).1, hfits, hlength, hlisted, hall⟩

/-- A step is correct if and only if there are numbers left for it. -/
theorem correct_iff (h : Described s ns) (e : Event) : e.Correct s ↔ e.InRange s := by
  rw [← h.step_isOk_iff]
  constructor
  · intro hcorrect
    cases e with
    | reopen =>
      obtain ⟨s', hload, -⟩ := hcorrect
      exact ⟨s', hload⟩
    | flush outputs =>
      obtain ⟨s₁, s₂, hwrite, hcompact, -⟩ := hcorrect
      exact ⟨s₂, by rw [Names.step, hwrite, ok_bind, hcompact]⟩
  · rintro ⟨s', hs⟩
    exact h.correct_of_step hs

theorem run_correct_iff (h : Described s ns) (es : List Event) : RunCorrect s es ↔ RunInRange s es := by
  induction es generalizing s ns with
  | nil => exact Iff.rfl
  | cons e es ih =>
    rw [RunCorrect, RunInRange, h.correct_iff]
    refine and_congr_right fun _ => forall₂_congr fun s' hs' => ?_
    obtain ⟨ns', h'⟩ := h.step hs'
    exact ih h'

end Described

/-- The largest number of level 0, in terms of what the files are parsed to. -/
theorem l0_bound_iff {files : List Name} (h : TableDirectory files) :
    (∀ f ∈ files, ∀ c, loadName f = some (0, c) → c < intMax) ↔
      ∀ n : TableName, fileName n ∈ files → n.level = .l0 → n.counter < intMax := by
  constructor
  · intro hbound n hn hlevel
    have hparsed := loadName_fileName n
    rw [hlevel] at hparsed
    exact_mod_cast hbound _ hn _ hparsed
  · intro hbound f hf c hc
    by_cases hext : (splitExtension f).2 = suffixChars
    · obtain ⟨n, rfl⟩ := h.2 f hf hext
      rw [loadName_fileName, Option.some.injEq, Prod.mk.injEq] at hc
      obtain ⟨hlevel, rfl⟩ := hc
      have hl0 : n.level = .l0 := levelNumber_injective (by exact_mod_cast hlevel)
      exact_mod_cast hbound n hf hl0
    · rw [loadName_of_extension hext] at hc
      cases hc

/-- Opening a directory of well-named tables and running on it. -/
theorem names_correct_iff {files : List Name} (h : TableDirectory files) (es : List Event) :
    NamesCorrect files es ↔ (∀ f ∈ files, ∀ c, loadName f = some (0, c) → c < intMax) ∧
      ∀ s, loadSSTables files = .ok s → RunInRange s es := by
  rw [l0_bound_iff h, ← loadSSTables_isOk_iff h]
  constructor
  · rintro ⟨s, hs, -, -, hcorrect⟩
    refine ⟨⟨s, hs⟩, ?_⟩
    intro s' hs'
    rw [hs, Except.ok.injEq] at hs'
    subst hs'
    obtain ⟨-, ns, hdescribed⟩ := described_of_load h hs
    exact (hdescribed.run_correct_iff es).mp hcorrect
  · rintro ⟨⟨s, hs⟩, hrange⟩
    obtain ⟨-, ns, hdescribed⟩ := described_of_load h hs
    exact ⟨s, hs, hdescribed.counter_nonneg, hdescribed.counter_le, (hdescribed.run_correct_iff es).mpr (hrange s hs)⟩

theorem tableDirectory_of_names {ns : List TableName} (h : ns.Nodup) : TableDirectory (ns.map fileName) := by
  refine ⟨h.map fileName_injective, ?_⟩
  intro f hf _
  obtain ⟨n, -, rfl⟩ := List.mem_map.mp hf
  exact ⟨n, rfl⟩

/-- A table of level 1 with this number, before three of level 0. -/
def threeAbove (c : ℕ) (h : c ≤ intMax) : List TableName :=
  [⟨.l1, c, h⟩, ⟨.l0, 0, Nat.zero_le intMax⟩, ⟨.l0, 1, one_le_intMax⟩, ⟨.l0, 2, two_le_intMax⟩]

theorem names_correct_threeAbove : NamesCorrect ((threeAbove 7 (by decide)).map fileName) [.flush 2, .reopen] := by
  have hload : loadSSTables ((threeAbove 7 (by decide)).map fileName) =
      .ok ⟨(threeAbove 7 (by decide)).map fileName, (threeAbove 7 (by decide)).map fileName, 3⟩ := by decide +kernel
  refine (names_correct_iff (tableDirectory_of_names (by decide)) _).mpr ⟨?_, ?_⟩
  · rw [List.forall_mem_map]
    intro n hn c hc
    rw [loadName_fileName, Option.some.injEq, Prod.mk.injEq] at hc
    have hcounter : ∀ n ∈ threeAbove 7 (by decide), (n.counter : ℤ) < intMax := by decide
    exact hc.2 ▸ hcounter n hn
  · intro s hs
    rw [hload, Except.ok.injEq] at hs
    subst hs
    refine ⟨⟨by decide, fun _ => ⟨by decide, ?_⟩⟩, fun _ _ => ⟨trivial, fun _ _ => trivial⟩⟩
    rw [List.forall_mem_map]
    intro n hn c hc
    rw [loadName_fileName, Option.some.injEq, Prod.mk.injEq] at hc
    have hcounter : ∀ n ∈ threeAbove 7 (by decide), (n.counter : ℤ) + 1 + (2 : ℕ) ≤ intMax := by decide
    exact hc.2 ▸ hcounter n hn

/-- The table of the largest number, alone in its directory. -/
def lastTable : TableName := ⟨.l0, intMax, le_refl intMax⟩

/-- The largest number ends the run: that of level 0 when the directory is opened, that of level 1 in
the first compaction. -/
theorem names_run_out :
    TableDirectory [fileName lastTable] ∧ ¬ NamesCorrect [fileName lastTable] [] ∧
      TableDirectory ((threeAbove intMax (le_refl _)).map fileName) ∧
      NamesCorrect ((threeAbove intMax (le_refl _)).map fileName) [] ∧
      ¬ NamesCorrect ((threeAbove intMax (le_refl _)).map fileName) [.flush 1] := by
  have hfirst : loadSSTables [fileName lastTable] = .error .overflow := by decide +kernel
  have hload : loadSSTables ((threeAbove intMax (le_refl _)).map fileName) =
      .ok ⟨(threeAbove intMax (le_refl _)).map fileName, (threeAbove intMax (le_refl _)).map fileName, 3⟩ := by
    decide +kernel
  refine ⟨@tableDirectory_of_names [lastTable] (by decide), ?_, tableDirectory_of_names (by decide), ?_, ?_⟩
  · rintro ⟨s, hs, -⟩
    rw [hfirst] at hs
    cases hs
  · exact ⟨_, hload, by decide, by decide, trivial⟩
  · rintro ⟨s, hs, -, -, hflush, -⟩
    rw [hload, Except.ok.injEq] at hs
    subst hs
    obtain ⟨s₁, s₂, hwrite, hcompact, -⟩ := hflush
    have hstep : Names.step ⟨(threeAbove intMax (le_refl _)).map fileName,
        (threeAbove intMax (le_refl _)).map fileName, 3⟩ (.flush 1) = .error .overflow := by decide +kernel
    rw [Names.step, hwrite, ok_bind, hcompact] at hstep
    cases hstep

end LsmTree.Naming
