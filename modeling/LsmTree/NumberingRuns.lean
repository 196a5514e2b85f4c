import LsmTree.TableNumbers

/-!
# Runs of flushes and compactions keep the names in order

Between two steps the listed tables are the table files on disk, in the order in which they
would be loaded, and the level 0 counter is past all tables of its level. A flush takes
the counter itself, and a compaction the first number past level 1; so what they create
has a name that no file has, and that comes last in its level. The one thing that can go
wrong is that there is no next number, and the conditions under which there is one, step
by step, are exact.
-/

namespace LsmTree.Naming
open Faults

/-! ### Directories of well-named tables -/

/-- All table files have names that were made from a level, 0 or 1, and a counter within `int`. -/
def TableDirectory (files : List Name) : Prop :=
  files.Nodup ∧ ∀ f ∈ files, (splitExtension f).2 = suffixChars → ∃ n : TableName, f = fileName n

def sstFileOf (n : TableName) : SSTFile := ⟨fileName n, levelNumber n.level, n.counter⟩

/-- The order in which tables are loaded. -/
def NameBefore (a b : TableName) : Prop := if a.level = b.level then a.counter < b.counter else a.level = .l1

theorem sstFile_before_iff (a b : TableName) : (sstFileOf a).Before (sstFileOf b) ↔ NameBefore a b := by
  unfold SSTFile.Before NameBefore sstFileOf
  cases a.level <;> cases b.level <;> simp [levelNumber]

theorem loadName_of_extension {f : Name} (h : (splitExtension f).2 ≠ suffixChars) : loadName f = none := by
  rw [loadName, if_pos h]

/-- A table of which only the name matters. -/
def bare (n : TableName) : SSTable := ⟨n, [], List.Pairwise.nil⟩

/-- What `loadSSTables` makes of the files, before it sorts. -/
def parsed (files : List Name) : List SSTFile :=
  files.filterMap fun file => (loadName file).map fun p => ⟨file, p.1, p.2⟩

theorem parsed_cons_fileName (n : TableName) (files : List Name) :
    parsed (fileName n :: files) = sstFileOf n :: parsed files := by
  rw [parsed, List.filterMap_cons, loadName_fileName]
  rfl

theorem parsed_cons_other {f : Name} (h : (splitExtension f).2 ≠ suffixChars) (files : List Name) :
    parsed (f :: files) = parsed files := by
  rw [parsed, List.filterMap_cons, loadName_of_extension h]
  rfl

theorem extension_fileName (n : TableName) : (splitExtension (fileName n)).2 = suffixChars := by
  rw [splitExtension_fileName]

theorem exists_names {files : List Name} (h : TableDirectory files) :
    ∃ ns : List TableName, parsed files = ns.map sstFileOf ∧ ns.Nodup ∧ ∀ n, n ∈ ns ↔ fileName n ∈ files := by
  obtain ⟨hnodup, hnames⟩ := h
  induction files with
  | nil => exact ⟨[], rfl, List.nodup_nil, by simp⟩
  | cons f files ih =>
    obtain ⟨hf, hnodup⟩ := List.nodup_cons.mp hnodup
    obtain ⟨ns, hparsed, hns, hmem⟩ := ih hnodup fun g hg => hnames g (List.mem_cons_of_mem _ hg)
    by_cases hext : (splitExtension f).2 = suffixChars
    · obtain ⟨n, rfl⟩ := hnames f List.mem_cons_self hext
      refine ⟨n :: ns, ?_, ?_, ?_⟩
      · rw [parsed_cons_fileName, hparsed, List.map_cons]
      · refine List.nodup_cons.mpr ⟨?_, hns⟩
        intro hn
        exact hf ((hmem n).mp hn)
      · intro m
        rw [List.mem_cons, List.mem_cons, hmem, fileName_injective.eq_iff]
    · refine ⟨ns, ?_, hns, ?_⟩
      · rw [parsed_cons_other hext, hparsed]
      · intro m
        have hne : fileName m ≠ f := by
          rintro rfl
          exact hext (extension_fileName m)
        rw [hmem, List.mem_cons]
        simp only [hne, false_or]

/-- Sorting the files is sorting the tables. -/
theorem sstFiles_of_parsed {files : List Name} {d : Directory}
    (h : parsed files = d.files.map fun t => sstFileOf t.name) :
    sstFiles files = d.load.map fun t => sstFileOf t.name := by
  have hsort := List.map_insertionSort (r := fun a b : SSTable => ¬ b.Before a)
    (s := fun a b : SSTFile => ¬ b.Before a) (fun t : SSTable => sstFileOf t.name) d.files
    (fun a _ b _ => not_congr ((sstFile_before_iff b.name a.name).symm))
  rw [Directory.load, hsort, ← h]
  rfl

/-- The files of a directory, sorted. -/
theorem exists_sstFiles {files : List Name} (h : TableDirectory files) :
    ∃ ns : List TableName, sstFiles files = ns.map sstFileOf ∧ ns.Pairwise NameBefore ∧
      ∀ n, n ∈ ns ↔ fileName n ∈ files := by
  obtain ⟨ns, hparsed, hnodup, hmem⟩ := exists_names h
  have hname : (ns.map bare).map SSTable.name = ns := by simp [bare, Function.comp_def]
  let d : Directory := ⟨ns.map bare, [], by rwa [hname]⟩
  have hfiles : parsed files = d.files.map fun t => sstFileOf t.name := by
    rw [hparsed]
    simp [d, bare, Function.comp_def]
  refine ⟨d.load.map SSTable.name, ?_, ?_, ?_⟩
  · rw [sstFiles_of_parsed hfiles, List.map_map]
    rfl
  · exact List.pairwise_map.mpr d.pairwise_load
  · intro n
    rw [← hmem, List.mem_map]
    constructor
    · rintro ⟨t, ht, rfl⟩
      have hmem' := List.mem_map_of_mem (f := SSTable.name) (Directory.mem_load.mp ht)
      rwa [hname] at hmem'
    · intro hn
      exact ⟨bare n, Directory.mem_load.mpr (List.mem_map_of_mem hn), rfl⟩

/-! ### The invariant -/

/-- The listed tables are the table files on disk, in loading order; the counter is past level 0. -/
structure Described (s : Names) (ns : List TableName) : Prop where
  listed : s.sstables = ns.map fileName
  ordered : ns.Pairwise NameBefore
  nodup : s.files.Nodup
  stored : ∀ n ∈ ns, fileName n ∈ s.files
  complete : ∀ f ∈ s.files, (splitExtension f).2 = suffixChars → ∃ n ∈ ns, f = fileName n
  counter_nonneg : 0 ≤ s.sstCounter
  counter_le : s.sstCounter ≤ intMax
  l0_lt : ∀ n ∈ ns, n.level = .l0 → (n.counter : ℤ) < s.sstCounter

instance : Std.Irrefl NameBefore := ⟨fun a => by simp [NameBefore]⟩

instance : Std.Antisymm NameBefore where
  antisymm := by
    intro a b hab hba
    exact absurd (show (bare b).Before (bare a) from hba) (SSTable.Before.asymm (a := bare a) (b := bare b) hab)

theorem l0Number_sstFileOf (n : TableName) :
    l0Number (sstFileOf n) = if n.level = .l0 then some (n.counter : ℤ) else none := by
  cases hlevel : n.level <;> simp [l0Number, sstFileOf, levelNumber, hlevel]

/-- A directory can be loaded exactly if no table of level 0 has the largest number. -/
theorem loadSSTables_isOk_iff {files : List Name} (h : TableDirectory files) :
    (∃ s, loadSSTables files = .ok s) ↔ ∀ n : TableName, fileName n ∈ files → n.level = .l0 → n.counter < intMax := by
  obtain ⟨ns, hsorted, -, hmem⟩ := exists_sstFiles h
  have hiff := @numberPast_isOk_iff _ l0Number (sstFiles files) 0
  constructor
  · rintro ⟨s, hs⟩ n hn hlevel
    obtain ⟨r, hcounter, -⟩ := exists_of_bind_ok hs
    have hfile : sstFileOf n ∈ sstFiles files := by
      rw [hsorted]
      exact List.mem_map_of_mem ((hmem n).mpr hn)
    have hlt := hiff.mp ⟨r, hcounter⟩ (sstFileOf n) hfile n.counter (by rw [l0Number_sstFileOf, if_pos hlevel])
    exact_mod_cast hlt
  · intro hlt
    obtain ⟨r, hr⟩ := hiff.mpr (by
      intro x hx c hc
      rw [hsorted] at hx
      obtain ⟨n, hn, rfl⟩ := List.mem_map.mp hx
      rw [l0Number_sstFileOf] at hc
      split_ifs at hc with hlevel
      cases hc
      have := hlt n ((hmem n).mp hn) hlevel
      omega)
    exact ⟨_, by rw [loadSSTables, hr]; rfl⟩

theorem described_of_load {files : List Name} (h : TableDirectory files) {s : Names}
    (hs : loadSSTables files = .ok s) : s.files = files ∧ ∃ ns, Described s ns := by
  obtain ⟨ns, hsorted, hordered, hmem⟩ := exists_sstFiles h
  obtain ⟨r, hcounter, hs⟩ := exists_of_bind_ok hs
  cases hs
  obtain ⟨hge, hlt, heq⟩ := numberPast_spec hcounter
  refine ⟨rfl, ns, ?_, hordered, h.1, fun n hn => (hmem n).mp hn, ?_, hge, ?_, ?_⟩
  · simp [hsorted, sstFileOf, Function.comp_def]
  · intro f hf hext
    obtain ⟨n, rfl⟩ := h.2 f hf hext
    exact ⟨n, (hmem n).mpr hf, rfl⟩
  · rcases heq with rfl | ⟨x, hx, c, hc, rfl⟩
    · exact Int.natCast_nonneg _
    · exact (numberPast_isOk_iff 0).mp ⟨_, hcounter⟩ x hx c hc
  · intro n hn hlevel
    refine hlt (sstFileOf n) (by rw [hsorted]; exact List.mem_map_of_mem hn) n.counter ?_
    exact (l0Number_sstFileOf n).trans (if_pos hlevel)

/-! ### Names that are created -/

/-- A new name, made from a level and a counter, with the files that are on disk and the tables that
are listed at that moment: it is parsed back to what it was made from, no file has it, and it
comes after every listed table of its level. -/
structure Sound (level counter : ℤ) (name : Name) (files live : List Name) : Prop where
  parsed : loadName name = some (level, counter)
  fresh : name ∉ files
  last : ∀ t ∈ live, ∀ c, loadName t = some (level, c) → c < counter

/-- A name with a number that is past all of its level. -/
theorem sound_of_past {n : TableName} {files live : List Name}
    (hfiles : ∀ f ∈ files, (splitExtension f).2 = suffixChars →
      ∃ m, f = fileName m ∧ (m.level = n.level → m.counter < n.counter))
    (hlive : ∀ f ∈ live, ∃ m, f = fileName m ∧ (m.level = n.level → m.counter < n.counter)) :
    Sound (levelNumber n.level) n.counter (fileName n) files live where
  parsed := loadName_fileName n
  fresh := by
    intro hmem
    obtain ⟨m, heq, hpast⟩ := hfiles _ hmem (extension_fileName n)
    have hself := fileName_injective heq
    subst hself
    exact Nat.lt_irrefl _ (hpast rfl)
  last := by
    intro t ht c hc
    obtain ⟨m, rfl, hpast⟩ := hlive t ht
    rw [loadName_fileName, Option.some.injEq, Prod.mk.injEq] at hc
    obtain ⟨hlevel, rfl⟩ := hc
    have hlevel' : m.level = n.level := levelNumber_injective (by exact_mod_cast hlevel)
    exact_mod_cast hpast hlevel'

theorem create_of_fresh {files : List Name} {name : Name} (h : name ∉ files) :
    create files name = files ++ [name] := by
  rw [create, List.filter_eq_self.mpr]
  intro f hf
  rw [decide_eq_true_eq]
  rintro rfl
  exact h hf

theorem foldl_create {names files : List Name} (hnodup : names.Nodup) (hfresh : ∀ n ∈ names, n ∉ files) :
    names.foldl create files = files ++ names := by
  induction names generalizing files with
  | nil => simp
  | cons n names ih =>
    obtain ⟨hn, hnodup⟩ := List.nodup_cons.mp hnodup
    rw [List.foldl_cons, create_of_fresh (hfresh n List.mem_cons_self), ih hnodup]
    · simp
    · intro m hm hmem
      rcases List.mem_append.mp hmem with hmem | hmem
      · exact hfresh m (List.mem_cons_of_mem _ hm) hmem
      · rw [List.mem_singleton.mp hmem] at hm
        exact hn hm

namespace Described
variable {s : Names} {ns : List TableName}

theorem directory (h : Described s ns) : TableDirectory s.files := by
  refine ⟨h.nodup, ?_⟩
  intro f hf hext
  obtain ⟨n, -, rfl⟩ := h.complete f hf hext
  exact ⟨n, rfl⟩

theorem mem_iff (h : Described s ns) (n : TableName) : n ∈ ns ↔ fileName n ∈ s.files := by
  constructor
  · exact h.stored n
  · intro hmem
    obtain ⟨m, hm, heq⟩ := h.complete _ hmem (extension_fileName n)
    rwa [fileName_injective heq]

theorem live (h : Described s ns) : ∀ f ∈ s.sstables, ∃ n ∈ ns, f = fileName n := by
  intro f hf
  rw [h.listed] at hf
  obtain ⟨n, hn, rfl⟩ := List.mem_map.mp hf
  exact ⟨n, hn, rfl⟩

/-- A name past all tables of its level. -/
theorem sound (h : Described s ns) {n : TableName} (hpast : ∀ m ∈ ns, m.level = n.level → m.counter < n.counter) :
    Sound (levelNumber n.level) n.counter (fileName n) s.files s.sstables := by
  apply sound_of_past
  · intro f hf hext
    obtain ⟨m, hm, heq⟩ := h.complete f hf hext
    exact ⟨m, heq, hpast m hm⟩
  · intro f hf
    obtain ⟨m, hm, heq⟩ := h.live f hf
    exact ⟨m, heq, hpast m hm⟩

/-- The next loading finds the same tables in the same order. -/
theorem reload (h : Described s ns) :
    ∃ s', loadSSTables s.files = .ok s' ∧ s'.sstables = s.sstables ∧ Described s' ns := by
  have hok : ∀ n : TableName, fileName n ∈ s.files → n.level = .l0 → n.counter < intMax := by
    intro n hn hlevel
    have hlt := h.l0_lt n ((h.mem_iff n).mpr hn) hlevel
    have hle := h.counter_le
    omega
  obtain ⟨s', hs'⟩ := (loadSSTables_isOk_iff h.directory).mpr hok
  obtain ⟨hfiles, ns', hdescribed⟩ := described_of_load h.directory hs'
  have hns : ns' = ns := by
    apply hdescribed.ordered.eq_of_mem_iff h.ordered
    intro n
    rw [hdescribed.mem_iff, h.mem_iff, hfiles]
  subst hns
  exact ⟨s', hs', by rw [hdescribed.listed, h.listed], hdescribed⟩

/-- The table of a flush. -/
theorem writeTable (h : Described s ns) (hlt : s.sstCounter < intMax) :
    ∃ s' n, s.writeTable = .ok s' ∧ n.level = .l0 ∧ s'.sstables = s.sstables ++ [fileName n] ∧
      Described s' (ns ++ [n]) ∧ Sound 0 s.sstCounter (sstPath 0 s.sstCounter) s.files s.sstables := by
  obtain ⟨c, hc⟩ := Int.eq_ofNat_of_zero_le h.counter_nonneg
  have hcle : c ≤ intMax := by omega
  let n : TableName := ⟨.l0, c, hcle⟩
  have hname : sstPath 0 s.sstCounter = fileName n := by rw [hc]; rfl
  have hpast : ∀ m ∈ ns, m.level = n.level → m.counter < n.counter := by
    intro m hm hlevel
    have := h.l0_lt m hm hlevel
    simp only [n]
    omega
  have hsound := h.sound hpast
  have hfresh := hsound.fresh
  refine ⟨⟨s.files ++ [fileName n], s.sstables ++ [fileName n], s.sstCounter + 1⟩, n, ?_, rfl, rfl, ?_, ?_⟩
  · rw [Names.writeTable, intSucc_of_lt hlt, hname, create_of_fresh hfresh]
    rfl
  · refine ⟨?_, ?_, ?_, ?_, ?_, ?_, ?_, ?_⟩
    · rw [h.listed, List.map_append]
      rfl
    · refine List.pairwise_append.mpr ⟨h.ordered, List.pairwise_singleton _ _, ?_⟩
      intro m hm k hk
      rw [List.mem_singleton.mp hk, NameBefore]
      split_ifs with hlevel
      · exact hpast m hm hlevel
      · cases hm : m.level with
        | l0 => exact absurd hm hlevel
        | l1 => rfl
    · exact List.nodup_append.mpr ⟨h.nodup, List.nodup_singleton _, by
        intro f hf g hg heq
        rw [List.mem_singleton.mp hg] at heq
        exact hfresh (heq ▸ hf)⟩
    · intro m hm
      rcases List.mem_append.mp hm with hm | hm
      · exact List.mem_append_left _ (h.stored m hm)
      · rw [List.mem_singleton.mp hm]
        exact List.mem_append_right _ List.mem_cons_self
    · intro f hf hext
      rcases List.mem_append.mp hf with hf | hf
      · obtain ⟨m, hm, heq⟩ := h.complete f hf hext
        exact ⟨m, List.mem_append_left _ hm, heq⟩
      · exact ⟨n, List.mem_append_right _ List.mem_cons_self, List.mem_singleton.mp hf⟩
    · have := h.counter_nonneg
      simp only
      omega
    · simp only
      omega
    · intro m hm hlevel
      rcases List.mem_append.mp hm with hm | hm
      · have := h.l0_lt m hm hlevel
        simp only
        omega
      · rw [List.mem_singleton.mp hm]
        simp only [n]
        omega
  · have hzero : ((levelNumber n.level : ℕ) : ℤ) = 0 := rfl
    rw [hzero, show ((n.counter : ℕ) : ℤ) = s.sstCounter from hc.symm] at hsound
    rw [hname]
    exact hsound

end Described

end LsmTree.Naming
