import LsmTree.CompactionRun
import LsmTree.EngineRefinement

/-!
# The shape of the tree

Between two calls the tables of an engine have the shape that the compactor means to give
them: fewer than four tables in level 0, and a level 1 of full tables, but for the last
one, that hold values only and whose key ranges follow each other. So at most four tables
span any one key.

The numbers of level 1 tables grow with every compaction, by what the live keys need. How
many keys are live, and how often a compaction runs, is bounded by the number of writes;
so an engine that is written to a few million times never leaves the range of its counters.
-/

namespace LsmTree
open LittleEndian LayeredMap Merge

def l1Tables (ts : List SSTable) : List SSTable := ts.filter (·.name.level = .l1)

/-- No table is empty, and level 1 is as a compaction leaves it. -/
structure TreeShape (ts : List SSTable) : Prop where
  nonempty : ∀ t ∈ ts, t.entries ≠ []
  length_le : ∀ t ∈ l1Tables ts, t.entries.length ≤ l1MaxFileEntries
  values : ∀ t ∈ l1Tables ts, ∀ x ∈ t.entries, x.2.isSome = true
  sorted : Sorted ((l1Tables ts).flatMap SSTable.entries)
  packed : (l1Tables ts).length =
    (((l1Tables ts).flatMap SSTable.entries).length + (l1MaxFileEntries - 1)) / l1MaxFileEntries

/-- The key is within the key range of the table. -/
def SSTable.Spans (t : SSTable) (k : Key) : Prop := (∃ a ∈ t.entries, a.1 ≤ k) ∧ ∃ b ∈ t.entries, k ≤ b.1

instance (t : SSTable) (k : Key) : Decidable (t.Spans k) := inferInstanceAs (Decidable (_ ∧ _))

/-! ### What a step does to the shape -/

theorem treeShape_nil : TreeShape [] where
  nonempty := by simp
  length_le := by simp [l1Tables]
  values := by simp [l1Tables]
  sorted := List.Pairwise.nil
  packed := rfl

/-- A new level 0 table leaves level 1 alone. -/
theorem TreeShape.add {ts : List SSTable} {t : SSTable} (h : TreeShape ts) (hl : t.name.level = .l0)
    (hne : t.entries ≠ []) : TreeShape (ts ++ [t]) := by
  have hl1 : l1Tables (ts ++ [t]) = l1Tables ts := by simp [l1Tables, List.filter_append, hl]
  refine ⟨?_, hl1 ▸ h.length_le, hl1 ▸ h.values, hl1 ▸ h.sorted, hl1 ▸ h.packed⟩
  intro s hs
  rcases List.mem_append.mp hs with hs | hs
  · exact h.nonempty s hs
  · rw [List.mem_singleton.mp hs]
    exact hne

theorem Outputs.treeShape {d : Directory} {sstables outputs : List SSTable} (h : Outputs d sstables outputs) :
    TreeShape outputs := by
  have hsorted := sorted_layers sstables
  have hl1 : l1Tables outputs = outputs := List.filter_eq_self.mpr fun t ht => by simp [h.level t ht]
  have hflat : outputs.flatMap SSTable.entries = liveEntries (layers sstables) := h.flatten_layers
  refine ⟨?_, ?_, ?_, ?_, ?_⟩
  · exact fun t ht => ((merge_spec (layers sstables)).2.1 _ (h.entries_mem_merge ht)).1
  · rw [hl1]
    exact fun t ht => ((merge_spec (layers sstables)).2.1 _ (h.entries_mem_merge ht)).2
  · rw [hl1]
    exact fun t ht x hx => h.value_isSome ht hx
  · rw [hl1, hflat]
    exact sorted_liveEntries hsorted
  · have hlen := congrArg List.length h.contents
    rw [layers, List.length_map] at hlen
    rw [hl1, hflat, hlen, (merge_spec _).2.2]

/-- Of tables whose key ranges follow each other at most one spans a key. -/
theorem length_filter_spans_le_one {ts : List SSTable} (h : Sorted (ts.flatMap SSTable.entries)) (k : Key) :
    (ts.filter (·.Spans k)).length ≤ 1 := by
  have hpair := ((List.pairwise_flatMap.mp h).2).filter (·.Spans k)
  have hspans : ∀ t ∈ ts.filter (·.Spans k), t.Spans k := fun t ht => by simpa using (List.mem_filter.mp ht).2
  generalize ts.filter (·.Spans k) = us at hpair hspans ⊢
  match us with
  | [] => exact Nat.zero_le 1
  | [_] => exact le_refl 1
  | t :: u :: rest =>
    obtain ⟨-, b, hb, hkb⟩ := hspans t List.mem_cons_self
    obtain ⟨⟨a, ha, hak⟩, -⟩ := hspans u (List.mem_cons_of_mem _ List.mem_cons_self)
    have hlt := (List.pairwise_cons.mp hpair).1 u List.mem_cons_self b hb a ha
    exact absurd (hkb.trans_lt hlt) (not_lt.mpr hak)

namespace Engine

/-- An engine between two calls. -/
structure Shaped (e : Engine) : Prop extends e.Steady where
  shape : TreeShape e.sstables
  notFull : e.memtable.entries = [] ∨ e.memtable.isFull = false

theorem shaped_fresh (maxBytes : ℕ) : (fresh maxBytes).Shaped :=
  ⟨steady_fresh maxBytes, treeShape_nil, .inl (Memtable.entries_new _)⟩

theorem treeShape_flushMemtable {e e' : Engine} (hord : e.Ordered) (h : TreeShape e.sstables)
    (he : e.flushMemtable = .ok e') : TreeShape e'.sstables := by
  rcases flushMemtable_cases he with ⟨-, rfl⟩ | ⟨f, hne, hf, hcompact⟩
  · exact h
  · obtain ⟨hlt, rfl⟩ := writeTable_ok hf
    have hadded : TreeShape (e.sstables ++ [e.table hlt.le]) := h.add rfl hne
    rcases compact_cases hcompact with ⟨-, rfl⟩ | ⟨outputs, -, hout, rfl⟩
    · exact hadded
    · exact (compactionOutputs_spec hout).treeShape

theorem Shaped.flushMemtable {e e' : Engine} (hsteady : e.Steady) (h : TreeShape e.sstables)
    (he : e.flushMemtable = .ok e') : e'.Shaped :=
  ⟨hsteady.flushMemtable he, treeShape_flushMemtable hsteady.toOrdered h he,
    .inl (hsteady.toOrdered.flushMemtable he).2.2.1⟩

theorem Shaped.reopen {e e' : Engine} (h : e.Shaped) {heights : ℕ → Height} (he : e.reopen heights = .ok e') :
    e'.Shaped := by
  have hsteady := (h.toSteady.reopen he).1
  unfold Engine.reopen at he
  split at he
  case h_1 => cases he
  case h_2 f hf =>
    rw [flush_eq_flushMemtable] at hf
    have hshape := Shaped.flushMemtable h.toSteady h.shape hf
    rw [hshape.toSteady.construct (h.toOrdered.flushMemtable hf).2.2.1] at he
    cases he
    exact ⟨hsteady, hshape.shape, .inl (Memtable.entries_new _)⟩

theorem Shaped.call {e e' : Engine} (h : e.Shaped) {c : Call} (he : e.call c = .ok e') : e'.Shaped := by
  cases c with
  | write op height =>
    rw [Engine.call, Engine.write] at he
    split_ifs at he with hfits hfull
    · exact Shaped.flushMemtable (h.toSteady.append op height) h.shape he
    · cases he
      exact ⟨h.toSteady.append op height, h.shape, .inr (Bool.eq_false_iff.mpr hfull)⟩
    · cases he
      exact h
  | flush =>
    rw [Engine.call, flush_eq_flushMemtable] at he
    exact Shaped.flushMemtable h.toSteady h.shape he
  | reopen heights => exact h.reopen he

theorem Shaped.calls {e e' : Engine} (h : e.Shaped) {cs : List Call} (he : e.calls cs = .ok e') : e'.Shaped := by
  induction cs generalizing e with
  | nil =>
    cases he
    exact h
  | cons c cs ih =>
    rw [Engine.calls] at he
    split at he
    case h_1 => cases he
    case h_2 f hf => exact ih (h.call hf) he

theorem Shaped.spans_le {e : Engine} (h : e.Shaped) (k : Key) :
    (e.sstables.filter (·.Spans k)).length ≤ l0Threshold := by
  have hl0 : ((e.sstables.filter (·.name.level = .l0)).filter (·.Spans k)).length ≤ l0Count e.sstables :=
    List.length_filter_le _ _
  have hl1 := length_filter_spans_le_one h.shape.sorted k
  have hfew := h.few
  rw [← h.toSteady.l0Count_eq] at hfew
  have hcount : (e.sstables.filter (·.Spans k)).length =
      ((e.sstables.filter (·.name.level = .l0)).filter (·.Spans k)).length +
        ((l1Tables e.sstables).filter (·.Spans k)).length := by
    rw [l1Tables]
    generalize e.sstables = ts
    induction ts with
    | nil => rfl
    | cons t ts ih =>
      cases hl : t.name.level <;> by_cases hs : t.Spans k <;> simp [hl, hs, ih] <;> omega
  omega

end Engine

/-- After any calls an engine has the shape described above, its log and counters in step with it, and at
most four of its tables span any one key. -/
theorem calls_keep_shape (maxBytes : ℕ) (cs : List Call) {e : Engine}
    (h : (Engine.fresh maxBytes).calls cs = .ok e) :
    e.Shaped ∧ ∀ k, (e.sstables.filter (·.Spans k)).length ≤ l0Threshold := by
  have hshaped := (Engine.shaped_fresh maxBytes).calls h
  exact ⟨hshaped, hshaped.spans_le⟩

theorem calls_keep_shape_shortRun : ∃ e, (Engine.fresh 0).calls shortRun = .ok e ∧ e.Shaped ∧
    ∀ k, (e.sstables.filter (·.Spans k)).length ≤ l0Threshold := by
  have hrange : (Engine.fresh 0).CallsInRange shortRun := by decide +kernel
  obtain ⟨e, he⟩ := (Engine.steady_fresh 0).calls_isOk hrange
  exact ⟨e, he, calls_keep_shape 0 shortRun he⟩

/-! ### Numbers and writes -/

def Call.writes : Call → ℕ
  | .write _ _ => 1
  | .flush => 0
  | .reopen _ => 0

theorem liveKeys_le {ss : List (List (Key × Option Bytes))} {keys : List Key}
    (h : ∀ k, resolve k ss ≠ none → k ∈ keys) : liveKeys ss ≤ keys.length := by
  apply List.Subperm.length_le
  apply List.subperm_of_subset ((List.nodup_dedup _).filter _)
  intro k hk
  apply h
  rw [← Option.isSome_iff_ne_none]
  exact (List.mem_filter.mp hk).2

namespace Engine

/-- After so many writes: every fourth write at most has led to a compaction, which has used up at most
`perCompaction` numbers, and the keys with a value are among the keys written. -/
structure WithinWrites (perCompaction writes : ℕ) (e : Engine) : Prop where
  numbers : ∃ compactions,
    l0Threshold * compactions + e.sstCounter + (if e.memtable.entries = [] then 0 else 1) ≤ writes ∧
      l1Start e.dir.files ≤ compactions * perCompaction
  keys : ∃ keys : List Key, keys.length ≤ writes ∧ ∀ k, e.get k ≠ none → k ∈ keys

section WithinWrites
variable {per writes : ℕ} {e e' : Engine}

theorem WithinWrites.append (h : WithinWrites per writes e) (op : Op) (height : Height) :
    WithinWrites per (writes + 1) (e.append op height) where
  numbers := by
    obtain ⟨compactions, hcount, hstart⟩ := h.numbers
    refine ⟨compactions, ?_, hstart⟩
    rw [if_neg (entries_append_ne_nil e op height)]
    show l0Threshold * compactions + e.sstCounter + 1 ≤ writes + 1
    omega
  keys := by
    obtain ⟨keys, hlen, hkeys⟩ := h.keys
    refine ⟨op.key :: keys, Nat.succ_le_succ hlen, fun k hk => ?_⟩
    rw [get_append] at hk
    split_ifs at hk with heq
    · rw [heq]
      exact List.mem_cons_self
    · exact List.mem_cons_of_mem _ (hkeys k hk)

/-- What a compaction of the tables and the memtable needs. -/
theorem WithinWrites.outputs_le (h : WithinWrites per writes e)
    (hper : (writes + (l1MaxFileEntries - 1)) / l1MaxFileEntries ≤ per) :
    (liveKeys e.contents + (l1MaxFileEntries - 1)) / l1MaxFileEntries ≤ per := by
  obtain ⟨keys, hlen, hkeys⟩ := h.keys
  have hlive : liveKeys e.contents ≤ keys.length := liveKeys_le fun k hk => hkeys k (by rwa [get_eq])
  exact (Nat.div_le_div_right (by omega)).trans hper

theorem WithinWrites.compactionFits (h : WithinWrites per writes e) (hsteady : e.Steady)
    (hne : e.memtable.entries ≠ []) (hper : (writes + (l1MaxFileEntries - 1)) / l1MaxFileEntries ≤ per)
    (hmax : writes / l0Threshold * per ≤ intMax) : e.CompactionFits := by
  intro hmany
  obtain ⟨compactions, hcount, hstart⟩ := h.numbers
  have houtputs := h.outputs_le hper
  rw [hsteady.l0Count_eq] at hmany
  rw [if_neg hne] at hcount
  have hcompactions : compactions + 1 ≤ writes / l0Threshold := by
    rw [Nat.le_div_iff_mul_le (by decide)]
    unfold l0Threshold at *
    omega
  have hmul := Nat.mul_le_mul_right per hcompactions
  rw [Nat.add_mul, Nat.one_mul] at hmul
  omega

theorem WithinWrites.flushMemtable (h : WithinWrites per writes e) (hsteady : e.Steady)
    (hper : (writes + (l1MaxFileEntries - 1)) / l1MaxFileEntries ≤ per) (he : e.flushMemtable = .ok e') :
    WithinWrites per writes e' := by
  obtain ⟨compactions, hcount, hstart⟩ := h.numbers
  obtain ⟨-, hget, hnil, -, -⟩ := hsteady.toOrdered.flushMemtable he
  refine ⟨?_, by simpa only [hget] using h.keys⟩
  rw [if_pos hnil]
  rcases flushMemtable_cases he with ⟨-, rfl⟩ | ⟨f, hne, hf, hcompact⟩
  · exact ⟨compactions, (Nat.le_add_right _ _).trans hcount, hstart⟩
  rw [if_neg hne] at hcount
  obtain ⟨hord, hlayers, hlevel0, hl1, hnext, -, -⟩ := hsteady.toOrdered.writeTable hf
  rcases compact_cases hcompact with ⟨-, rfl⟩ | ⟨outputs, hmany, hout, rfl⟩
  · refine ⟨compactions, ?_, hl1.trans_le hstart⟩
    show l0Threshold * compactions + f.sstCounter + 0 ≤ writes
    omega
  · refine ⟨compactions + 1, ?_, ?_⟩
    · have hfull : l0Threshold ≤ l0Count f.sstables := hmany
      rw [hlevel0, hsteady.l0Count_eq] at hfull
      show l0Threshold * (compactions + 1) + 0 + 0 ≤ writes
      rw [Nat.mul_succ]
      omega
    · have hspec : Outputs f.dir f.dir.load outputs := hord.outputs hout
      have hload := load_compacted hspec
      rw [hord.load_eq] at hload
      have hlen : (merge (layers f.dir.load)).length ≤ per := by
        rw [length_merge (sorted_layers _), hord.load_eq, hlayers]
        exact h.outputs_le hper
      rw [Nat.add_mul, Nat.one_mul]
      apply nextCounter_le
      intro t ht _
      have ht' : t ∈ (f.dir.applyAll (compactionSteps f.dir f.sstables outputs)).load := Directory.mem_load.mpr ht
      rw [hload] at ht'
      have hmem : t.name.counter ∈ outputs.map (·.name.counter) := List.mem_map_of_mem ht'
      rw [hspec.counters, List.mem_range'_1, l1Start_load] at hmem
      omega

theorem WithinWrites.reopen (h : WithinWrites per writes e) (hsteady : e.Steady)
    (hper : (writes + (l1MaxFileEntries - 1)) / l1MaxFileEntries ≤ per) {heights : ℕ → Height}
    (he : e.reopen heights = .ok e') : WithinWrites per writes e' := by
  have hget := (hsteady.reopen he).2
  refine ⟨?_, by simpa only [hget] using h.keys⟩
  unfold Engine.reopen at he
  split at he
  case h_1 => cases he
  case h_2 f hf =>
    rw [flush_eq_flushMemtable] at hf
    have hnil := (hsteady.toOrdered.flushMemtable hf).2.2.1
    have hnumbers := (h.flushMemtable hsteady hper hf).numbers
    rw [(hsteady.flushMemtable hf).construct hnil] at he
    cases he
    rw [if_pos hnil] at hnumbers
    rw [if_pos (Memtable.entries_new _)]
    exact hnumbers

/-- A call is defined as long as all writes up to it fit, and they still bound what it leaves. -/
theorem WithinWrites.call (h : WithinWrites per writes e) (hsteady : e.Steady) (c : Call)
    (hper : (writes + c.writes + (l1MaxFileEntries - 1)) / l1MaxFileEntries ≤ per)
    (hmax : (writes + c.writes) / l0Threshold * per ≤ intMax) :
    ∃ e', e.call c = .ok e' ∧ WithinWrites per (writes + c.writes) e' := by
  have hflush : ∀ (f : Engine) (n : ℕ), WithinWrites per n f → f.Steady →
      (n + (l1MaxFileEntries - 1)) / l1MaxFileEntries ≤ per → n / l0Threshold * per ≤ intMax →
      ∃ f', f.flushMemtable = .ok f' ∧ WithinWrites per n f' := by
    intro f n hf hfs hn hm
    by_cases hnil : f.memtable.entries = []
    · have hempty : f.flushMemtable = .ok f := if_pos (f.memtable.empty_iff.mpr hnil)
      exact ⟨f, hempty, hf⟩
    · obtain ⟨f', hf'⟩ := hfs.toOrdered.flushMemtable_isOk (hfs.few.trans (by decide))
        (hf.compactionFits hfs hnil hn hm)
      exact ⟨f', hf', hf.flushMemtable hfs hn hf'⟩
  cases c with
  | write op height =>
    rw [Engine.call, Engine.write]
    have happend := h.append op height
    split_ifs with hfits hfull
    · exact hflush _ _ happend (hsteady.append op height) hper hmax
    · exact ⟨_, rfl, happend⟩
    · refine ⟨e, rfl, ?_, ?_⟩
      · obtain ⟨compactions, hcount, hstart⟩ := h.numbers
        exact ⟨compactions, hcount.trans (Nat.le_succ _), hstart⟩
      · obtain ⟨keys, hlen, hkeys⟩ := h.keys
        exact ⟨keys, hlen.trans (Nat.le_succ _), hkeys⟩
  | flush =>
    rw [Engine.call, flush_eq_flushMemtable]
    exact hflush e writes h hsteady hper hmax
  | reopen heights =>
    obtain ⟨f, hf, -⟩ := hflush e writes h hsteady hper hmax
    have hreopen : e.reopen heights = .ok { f with memtable := .new f.memtable.maxBytes } := by
      rw [Engine.reopen, flush_eq_flushMemtable, hf]
      exact (hsteady.flushMemtable hf).construct (hsteady.toOrdered.flushMemtable hf).2.2.1 heights
    exact ⟨_, hreopen, h.reopen hsteady hper hreopen⟩

end WithinWrites

end Engine

end LsmTree
