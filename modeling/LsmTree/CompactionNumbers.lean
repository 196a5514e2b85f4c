import LsmTree.NumberingRuns

/-!
# The numbers of a compaction

A compaction takes the first number past all level 1 tables, those in its list and those on
disk, and counts on from there, once for each output. In a state between two steps both are
the same tables, and the number exists if and only if none of them has the largest one. The
outputs then come last, have names that are not in use, and replace all other tables; so
they are again the listed tables in loading order, and level 0 may start from zero.
-/

namespace LsmTree.Naming
open Faults LittleEndian

/-! ### The outputs -/

theorem names_numberFrom {n : ℕ} {runs : List (List (Key × Option Bytes))} {hfit : n + runs.length ≤ intMax}
    {hsorted : ∀ t ∈ runs, LayeredMap.Sorted t} :
    ((numberFrom n runs hfit hsorted).map SSTable.name).map fileName =
      (List.range runs.length).map fun i : ℕ => makeSSTPath 1 ((n : ℤ) + i) := by
  induction runs generalizing n with
  | nil => rfl
  | cons r rs ih =>
    have hshift : ∀ i : ℕ, ((n + 1 : ℕ) : ℤ) + i = (n : ℤ) + (i + 1 : ℕ) := by
      intro i
      push_cast
      omega
    have hfit' : n + 1 + rs.length ≤ intMax := by
      rw [List.length_cons] at hfit
      omega
    have hrest := @ih (n + 1) hfit' fun t ht => hsorted t (List.mem_cons_of_mem _ ht)
    rw [numberFrom, List.map_cons, List.map_cons, hrest, List.length_cons, List.range_succ_eq_map, List.map_cons,
      List.map_map]
    simp only [Function.comp_def, hshift]
    rfl

/-- Names of level 1, numbered from `n` on. -/
structure NumberedFrom (n : ℕ) (outs : List TableName) : Prop where
  level : ∀ o ∈ outs, o.level = .l1
  counters : outs.map TableName.counter = List.range' n outs.length

theorem numberedFrom_numberFrom {n : ℕ} {runs : List (List (Key × Option Bytes))} {hfit : n + runs.length ≤ intMax}
    {hsorted : ∀ t ∈ runs, LayeredMap.Sorted t} :
    NumberedFrom n ((numberFrom n runs hfit hsorted).map SSTable.name) := by
  have hcounters := @counters_numberFrom n runs hfit hsorted
  have hlength : (numberFrom n runs hfit hsorted).length = runs.length := by
    simpa using congrArg List.length hcounters
  constructor
  · intro o ho
    obtain ⟨t, ht, rfl⟩ := List.mem_map.mp ho
    exact (mem_numberFrom ht).1
  · rw [List.map_map, List.length_map, hlength]
    exact hcounters

theorem exists_numberedFrom {n k : ℕ} (h : n + k ≤ intMax) :
    ∃ outs, NumberedFrom n outs ∧ Names.outputNames k n = .ok (outs.map fileName) := by
  have hlength : (List.replicate k ([] : List (Key × Option Bytes))).length = k := List.length_replicate
  have hsorted : ∀ t ∈ List.replicate k ([] : List (Key × Option Bytes)), LayeredMap.Sorted t := by
    intro t ht
    rw [List.eq_of_mem_replicate ht]
    exact List.Pairwise.nil
  refine ⟨(numberFrom n (List.replicate k []) (by omega) hsorted).map SSTable.name, numberedFrom_numberFrom, ?_⟩
  rw [names_numberFrom, hlength]
  exact outputNames_of_fits (by omega)

namespace NumberedFrom
variable {n : ℕ} {outs : List TableName}

theorem counter_of_split (h : NumberedFrom n outs) {pre post : List TableName} {o : TableName}
    (hsplit : outs = pre ++ o :: post) : o.counter = n + pre.length := by
  have hlt : pre.length < outs.length := by
    rw [hsplit, List.length_append, List.length_cons]
    omega
  have hget : (outs.map TableName.counter)[pre.length]? = some (n + pre.length) := by
    rw [h.counters, List.getElem?_range' hlt, one_mul]
  rw [hsplit] at hget
  simpa using hget

theorem pairwise (h : NumberedFrom n outs) : outs.Pairwise NameBefore := by
  have hlt : outs.Pairwise fun a b => a.counter < b.counter := by
    have hrange : (List.range' n outs.length).Pairwise (· < ·) := List.pairwise_lt_range'
    rw [← h.counters] at hrange
    exact List.pairwise_map.mp hrange
  apply hlt.imp_of_mem
  intro a b ha hb hab
  rw [NameBefore, if_pos ((h.level a ha).trans (h.level b hb).symm)]
  exact hab

theorem start_le (h : NumberedFrom n outs) : ∀ o ∈ outs, n ≤ o.counter := by
  intro o ho
  obtain ⟨pre, post, hsplit⟩ := List.append_of_mem ho
  rw [h.counter_of_split hsplit]
  omega

theorem nodup_names (h : NumberedFrom n outs) : (outs.map fileName).Nodup := by
  refine List.Nodup.map fileName_injective ?_
  apply h.pairwise.imp
  rintro a _ hab rfl
  exact irrefl_of NameBefore a hab

end NumberedFrom

/-! ### The first number -/

namespace Described
variable {s : Names} {ns : List TableName}

theorem mem_swept (h : Described s ns) {n : TableName} : fileName n ∈ s.swept ↔ n ∈ ns := by
  rw [h.mem_iff, Names.swept, List.mem_filter, extension_fileName]
  simp [suffixChars]

theorem listedCounter_of_mem (h : Described s ns) {f : Name}
    (hf : f ∈ s.sstables.filter fun t => !isL0 t && isL1 t) {c : ℤ} (hc : listedCounter f = some c) :
    ∃ n ∈ ns, n.level = .l1 ∧ c = n.counter := by
  obtain ⟨hf, hl1⟩ := List.mem_filter.mp hf
  obtain ⟨n, hn, rfl⟩ := h.live f hf
  rw [isL1_fileName, Bool.and_eq_true, decide_eq_true_eq] at hl1
  rw [listedCounter_fileName, Option.some.injEq] at hc
  exact ⟨n, hn, hl1.2, hc.symm⟩

theorem storedCounter_of_mem (h : Described s ns) {f : Name} (hf : f ∈ s.swept) {c : ℤ}
    (hc : storedCounter f = some c) : ∃ n ∈ ns, n.level = .l1 ∧ c = n.counter := by
  by_cases hext : (splitExtension f).2 = suffixChars
  · obtain ⟨n, hn, rfl⟩ := h.complete f (List.mem_of_mem_filter hf) hext
    rw [storedCounter_fileName] at hc
    split_ifs at hc with hlevel
    cases hc
    exact ⟨n, hn, hlevel, rfl⟩
  · simp [storedCounter, hext] at hc

theorem listed_l1 (h : Described s ns) {n : TableName} (hn : n ∈ ns) (hlevel : n.level = .l1) :
    fileName n ∈ s.sstables.filter fun t => !isL0 t && isL1 t := by
  refine List.mem_filter.mpr ⟨?_, ?_⟩
  · rw [h.listed]
    exact List.mem_map_of_mem hn
  · simp [isL0_fileName, isL1_fileName, hlevel]

/-- A compaction finds a first number if and only if no table of level 1 has the largest one. -/
theorem l1Start_isOk_iff (h : Described s ns) :
    (∃ start, s.l1Start = .ok start) ↔ ∀ n ∈ ns, n.level = .l1 → n.counter < intMax := by
  have hlisted := @numberPast_isOk_iff _ listedCounter (s.sstables.filter fun t => !isL0 t && isL1 t) 0
  constructor
  · rintro ⟨start, hstart⟩ n hn hlevel
    obtain ⟨r, hfirst, -⟩ := exists_of_bind_ok hstart
    have hlt := hlisted.mp ⟨r, hfirst⟩ (fileName n) (h.listed_l1 hn hlevel) n.counter (listedCounter_fileName n)
    exact_mod_cast hlt
  · intro hlt
    obtain ⟨r, hr⟩ := hlisted.mpr (by
      intro f hf c hc
      obtain ⟨n, hn, hlevel, rfl⟩ := h.listedCounter_of_mem hf hc
      exact_mod_cast hlt n hn hlevel)
    rw [Names.l1Start, hr, ok_bind]
    apply (numberPast_isOk_iff r).mpr
    intro f hf c hc
    obtain ⟨n, hn, hlevel, rfl⟩ := h.storedCounter_of_mem hf hc
    exact_mod_cast hlt n hn hlevel

/-- It is the least number past level 1. -/
theorem l1Start_spec (h : Described s ns) {start : ℤ} (hstart : s.l1Start = .ok start) :
    0 ≤ start ∧ start ≤ intMax ∧ (∀ n ∈ ns, n.level = .l1 → (n.counter : ℤ) < start) ∧
      (start = 0 ∨ ∃ n ∈ ns, n.level = .l1 ∧ start = n.counter + 1) := by
  have hbound := h.l1Start_isOk_iff.mp ⟨start, hstart⟩
  obtain ⟨r, hfirst, hstart⟩ := exists_of_bind_ok hstart
  obtain ⟨hfirstGe, hfirstLt, hfirstEq⟩ := numberPast_spec hfirst
  obtain ⟨hge, -, heq⟩ := numberPast_spec hstart
  have hleast : start = 0 ∨ ∃ n ∈ ns, n.level = .l1 ∧ start = n.counter + 1 := by
    rcases heq with rfl | ⟨f, hf, c, hc, rfl⟩
    · rcases hfirstEq with hzero | ⟨f, hf, c, hc, rfl⟩
      · exact .inl hzero
      · obtain ⟨n, hn, hlevel, rfl⟩ := h.listedCounter_of_mem hf hc
        exact .inr ⟨n, hn, hlevel, rfl⟩
    · obtain ⟨n, hn, hlevel, rfl⟩ := h.storedCounter_of_mem hf hc
      exact .inr ⟨n, hn, hlevel, rfl⟩
  refine ⟨by omega, ?_, ?_, hleast⟩
  · rcases hleast with rfl | ⟨n, hn, hlevel, rfl⟩
    · exact Int.natCast_nonneg _
    · have := hbound n hn hlevel
      omega
  · intro n hn hlevel
    have := hfirstLt (fileName n) (h.listed_l1 hn hlevel) n.counter (listedCounter_fileName n)
    omega

/-! ### The state after it -/

/-- Each output, when it is created. -/
theorem sound_output (h : Described s ns) {k : ℕ} {outs pre post : List TableName} {o : TableName}
    (hpast : ∀ n ∈ ns, n.level = .l1 → n.counter < k) (houts : NumberedFrom k outs)
    (hsplit : outs = pre ++ o :: post) :
    Sound 1 (k + pre.length) (fileName o) (s.files ++ pre.map fileName) (s.sstables ++ pre.map fileName) := by
  have ho : o ∈ outs := by
    rw [hsplit]
    exact List.mem_append_right _ List.mem_cons_self
  have hlevel := houts.level o ho
  have hcounter : (o.counter : ℤ) = k + pre.length := by
    rw [houts.counter_of_split hsplit]
    push_cast
    rfl
  have hold : ∀ m ∈ ns, m.level = o.level → m.counter < o.counter := by
    intro m hm heq
    have := hpast m hm (heq.trans hlevel)
    have := houts.start_le o ho
    omega
  have hnew : ∀ m ∈ pre, m.level = o.level → m.counter < o.counter := by
    intro m hm heq
    have hpairwise := houts.pairwise
    rw [hsplit] at hpairwise
    have hbefore := (List.pairwise_append.mp hpairwise).2.2 m hm o List.mem_cons_self
    rwa [NameBefore, if_pos heq] at hbefore
  have hsound : Sound (levelNumber o.level) o.counter (fileName o) (s.files ++ pre.map fileName)
      (s.sstables ++ pre.map fileName) := by
    apply sound_of_past
    · intro f hf hext
      rcases List.mem_append.mp hf with hf | hf
      · obtain ⟨m, hm, heq⟩ := h.complete f hf hext
        exact ⟨m, heq, hold m hm⟩
      · obtain ⟨m, hm, rfl⟩ := List.mem_map.mp hf
        exact ⟨m, rfl, hnew m hm⟩
    · intro f hf
      rcases List.mem_append.mp hf with hf | hf
      · obtain ⟨m, hm, heq⟩ := h.live f hf
        exact ⟨m, heq, hold m hm⟩
      · obtain ⟨m, hm, rfl⟩ := List.mem_map.mp hf
        exact ⟨m, rfl, hnew m hm⟩
  rw [hlevel, hcounter] at hsound
  exact hsound

theorem files_after_compaction (h : Described s ns) {outs : List TableName} (hnodup : (outs.map fileName).Nodup)
    (hfresh : ∀ o ∈ outs, o ∉ ns) {f : Name} :
    f ∈ ((outs.map fileName).foldl create s.swept).filter (· ∉ s.sstables) ↔
      (f ∈ s.swept ∧ (splitExtension f).2 ≠ suffixChars) ∨ f ∈ outs.map fileName := by
  have hnew : ∀ f ∈ outs.map fileName, f ∉ s.swept ∧ f ∉ s.sstables := by
    intro f hf
    obtain ⟨o, ho, rfl⟩ := List.mem_map.mp hf
    refine ⟨?_, ?_⟩
    · rw [h.mem_swept]
      exact hfresh o ho
    · intro hmem
      obtain ⟨m, hm, heq⟩ := h.live _ hmem
      rw [← fileName_injective heq] at hm
      exact hfresh o ho hm
  have hlisted : ∀ f ∈ s.swept, f ∈ s.sstables ↔ (splitExtension f).2 = suffixChars := by
    intro f hf
    constructor
    · intro hmem
      obtain ⟨m, -, rfl⟩ := h.live f hmem
      exact extension_fileName m
    · intro hext
      obtain ⟨m, hm, rfl⟩ := h.complete f (List.mem_of_mem_filter hf) hext
      rw [h.listed]
      exact List.mem_map_of_mem hm
  rw [foldl_create hnodup fun f hf => (hnew f hf).1, List.mem_filter, List.mem_append, decide_eq_true_eq]
  constructor
  · rintro ⟨hf | hf, hnot⟩
    · exact .inl ⟨hf, fun hext => hnot ((hlisted f hf).mpr hext)⟩
    · exact .inr hf
  · rintro (⟨hf, hext⟩ | hf)
    · exact ⟨.inl hf, fun hmem => hext ((hlisted f hf).mp hmem)⟩
    · exact ⟨.inr hf, (hnew f hf).2⟩

/-- Only the outputs are left. -/
theorem compacted (h : Described s ns) {k : ℕ} {outs : List TableName}
    (hpast : ∀ n ∈ ns, n.level = .l1 → n.counter < k) (houts : NumberedFrom k outs) :
    Described ⟨((outs.map fileName).foldl create s.swept).filter (· ∉ s.sstables), outs.map fileName, 0⟩ outs := by
  have hfresh : ∀ o ∈ outs, o ∉ ns := by
    intro o ho hmem
    have := hpast o hmem (houts.level o ho)
    have := houts.start_le o ho
    omega
  have hfiles := @files_after_compaction s ns h outs houts.nodup_names hfresh
  refine ⟨rfl, houts.pairwise, ?_, ?_, ?_, le_refl 0, Int.natCast_nonneg _, ?_⟩
  · have hswept : ∀ f ∈ outs.map fileName, f ∉ s.swept := by
      intro f hf
      obtain ⟨o, ho, rfl⟩ := List.mem_map.mp hf
      rw [h.mem_swept]
      exact hfresh o ho
    simp only
    rw [foldl_create houts.nodup_names hswept]
    refine List.Nodup.filter _ (List.nodup_append.mpr ⟨h.nodup.filter _, houts.nodup_names, ?_⟩)
    rintro f hf g hg rfl
    exact hswept f hg hf
  · intro o ho
    exact hfiles.mpr (.inr (List.mem_map_of_mem ho))
  · intro f hf hext
    rcases hfiles.mp hf with ⟨-, hne⟩ | hf
    · exact absurd hext hne
    · obtain ⟨o, ho, rfl⟩ := List.mem_map.mp hf
      exact ⟨o, ho, rfl⟩
  · intro o ho hlevel
    rw [houts.level o ho] at hlevel
    cases hlevel

end Described

end LsmTree.Naming
