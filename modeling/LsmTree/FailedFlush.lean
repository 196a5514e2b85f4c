import LsmTree.EngineRefinement

/-!
# Flushes that fail

A flush may throw while it writes or opens the new table. The memtable and the log are
then kept and nothing is registered, but if the rename has already happened the file is
on disk under its level 0 name: an orphan, which the next start loads. As long as no
compaction runs it does no harm. Its keys are in the memtable, and later in a table with
a higher number, so they are hidden wherever the orphan ends up in the load order.

A compaction reads only the registered tables. It turns the tables that hide an orphan
into level 1 tables, which every level 0 table shadows, and the orphan's values are back
after the next start.
-/

namespace LsmTree
open LittleEndian LayeredMap Merge

/-- Where `flushMemtable` fails: writing the temporary, renaming it, syncing the directory
after the rename, or opening the new table. -/
inductive FlushFault where
  | write | rename | syncDir | openTable
  deriving DecidableEq, Repr

/-- The file has its final name when the exception is thrown. -/
def FlushFault.published : FlushFault → Bool
  | .write | .rename => false
  | .syncDir | .openTable => true

namespace Engine

/-- `flushMemtable` up to the exception. -/
def failFlush (e : Engine) (fault : FlushFault) : Except Failure Engine :=
  if e.memtable.empty then .ok e
  else if h : e.sstCounter < intMax then
    .ok { e with
      sstCounter := e.sstCounter + 1
      dir := if fault.published then
          e.dir.applyAll [.stage (e.table (counter_le h)), .publish (e.table (counter_le h))]
        else e.dir.applyAll [.discard (e.table (counter_le h))] }
  else .error .undefined

def flushWith (e : Engine) : Option FlushFault → Except Failure Engine
  | none => e.flushMemtable
  | some fault => e.failFlush fault

end Engine

/-- A call, with the fault that strikes its flush if it has one. -/
inductive FaultyCall where
  | write (op : Op) (height : Height) (fault : Option FlushFault)
  | flush (fault : Option FlushFault)
  | reopen (heights : ℕ → Height) (fault : Option FlushFault)

namespace Engine

/-- The destructor reports a failed flush and goes on. -/
def faultyCall (e : Engine) : FaultyCall → Except Failure Engine
  | .write op height fault =>
    if op.entry.Fits then
      if (e.append op height).memtable.isFull then (e.append op height).flushWith fault
      else .ok (e.append op height)
    else .ok e
  | .flush fault => e.flushWith fault
  | .reopen heights fault =>
    match e.flushWith fault with
    | .error f => .error f
    | .ok e => construct e.memtable.maxBytes e.dir (drain e.log) heights

def faultyCalls : Engine → List FaultyCall → Except Failure Engine
  | e, [] => .ok e
  | e, c :: cs =>
    match e.faultyCall c with
    | .error f => .error f
    | .ok e' => e'.faultyCalls cs

theorem faultyCalls_append {e e' : Engine} {cs ds : List FaultyCall} (h : e.faultyCalls cs = .ok e') :
    e.faultyCalls (cs ++ ds) = e'.faultyCalls ds := by
  induction cs generalizing e with
  | nil =>
    cases h
    rfl
  | cons c cs ih =>
    rw [faultyCalls] at h
    rw [List.cons_append, faultyCalls]
    cases hc : e.faultyCall c with
    | error f => simp [hc] at h
    | ok f =>
      rw [hc] at h
      exact ih h

/-- Every table file on disk is registered. -/
def NoOrphans (e : Engine) : Prop := ∀ t ∈ e.dir.files, t ∈ e.sstables

instance (e : Engine) : Decidable e.NoOrphans := List.decidableBAll _ _

/-- The flush takes a number within `int`, and if a compaction follows it there is no orphan and
the numbers of its outputs fit. -/
def FlushClean (e : Engine) (fault : Option FlushFault) : Prop :=
  e.memtable.empty = false → e.sstCounter < intMax ∧
    (fault = none → (l0Threshold ≤ l0Count e.sstables + 1 → e.NoOrphans) ∧ e.CompactionFits)

instance (e : Engine) (fault : Option FlushFault) : Decidable (e.FlushClean fault) :=
  inferInstanceAs (Decidable (_ → _ ∧ (_ → (_ → _) ∧ _)))

/-- The condition on a call. A log that is to be replayed must not be too large for it. -/
def Clean (e : Engine) : FaultyCall → Prop
  | .write op height fault =>
    op.entry.Fits → (e.append op height).memtable.isFull → (e.append op height).FlushClean fault
  | .flush fault => e.FlushClean fault
  | .reopen _ fault =>
    e.FlushClean fault ∧ (fault ≠ none → Wal.writeOffset e.log ≤ Wal.maxRecoveryBytes)

instance (e : Engine) : (c : FaultyCall) → Decidable (e.Clean c)
  | .write _ _ _ => inferInstanceAs (Decidable (_ → _ → _))
  | .flush fault => inferInstanceAs (Decidable (e.FlushClean fault))
  | .reopen _ _ => inferInstanceAs (Decidable (_ ∧ (_ → _)))

def CallsClean : Engine → List FaultyCall → Prop
  | _, [] => True
  | e, c :: cs => e.Clean c ∧
    match e.faultyCall c with
    | .error _ => True
    | .ok e' => e'.CallsClean cs

instance CallsClean.decidable : (e : Engine) → (cs : List FaultyCall) → Decidable (e.CallsClean cs)
  | _, [] => isTrue trivial
  | e, c :: cs =>
    have : Decidable (match e.faultyCall c with
        | .error _ => True
        | .ok e' => e'.CallsClean cs) :=
      match e.faultyCall c with
      | .error _ => isTrue trivial
      | .ok e' => CallsClean.decidable e' cs
    inferInstanceAs (Decidable (_ ∧ _))

/-! ### Harmless orphans -/

/-- A later layer of the engine has an entry for the key: the memtable, or a registered level 0
table with a higher number than `t`. -/
def Hides (e : Engine) (t : SSTable) (k : Key) : Prop :=
  lookup k e.memtable.entries ≠ none ∨ ∃ s ∈ e.sstables, s.name.level = .l0 ∧
    t.name.counter < s.name.counter ∧ lookup k s.entries ≠ none

/-- The registered tables are on disk in load order; all other files are hidden level 0 tables;
the log describes the memtable. -/
structure Tolerant (e : Engine) : Prop where
  pairwise : e.sstables.Pairwise SSTable.Before
  on_disk : ∀ t ∈ e.sstables, t ∈ e.dir.files
  l0_lt : ∀ t ∈ e.dir.files, t.name.level = .l0 → t.name.counter < e.sstCounter
  counter_le : e.sstCounter ≤ intMax
  orphan : ∀ t ∈ e.dir.files, t ∉ e.sstables →
    t.name.level = .l0 ∧ ∀ k, lookup k t.entries ≠ none → e.Hides t k
  logged : ∀ k, lookup k e.memtable.entries = newest k (e.log.map fun s => recordLayer s.entry)
  fits : ∀ s ∈ e.log, s.entry.Fits ∧ s.write ≠ .lost

theorem tolerant_fresh (maxBytes : ℕ) : (fresh maxBytes).Tolerant where
  pairwise := List.Pairwise.nil
  on_disk := by simp [fresh]
  l0_lt := by simp [fresh]
  counter_le := Nat.zero_le _
  orphan := by simp [fresh]
  logged := by simp [fresh]
  fits := by simp [fresh]

theorem Tolerant.filter_load {e : Engine} (h : e.Tolerant) :
    e.dir.load.filter (· ∈ e.sstables) = e.sstables := by
  apply (e.dir.pairwise_load.filter _).eq_of_mem_iff h.pairwise
  intro t
  rw [List.mem_filter, Directory.mem_load, decide_eq_true_eq]
  exact ⟨fun ht => ht.2, fun ht => ⟨h.on_disk t ht, ht⟩⟩

/-- The files on disk under the memtable resolve every key as the engine does. -/
theorem Tolerant.resolve_load {e : Engine} (h : e.Tolerant) (k : Key) :
    resolve k (layers e.dir.load ++ [e.memtable.entries]) = e.get k := by
  rw [get_eq, resolve, resolve, contents, newest_append_singleton, newest_append_singleton]
  congr 1
  cases hmem : lookup k e.memtable.entries with
  | some x => rfl
  | none =>
    rw [Option.none_or, Option.none_or]
    conv_rhs => rw [← h.filter_load]
    apply newest_filter
    intro as t bs hsplit ht hlookup
    have hpair := e.dir.pairwise_load
    have hfile : t ∈ e.dir.load := by rw [hsplit]; simp
    obtain ⟨hl, hhides⟩ := h.orphan t (Directory.mem_load.mp hfile) (by simpa using ht)
    rcases hhides k hlookup with hm | ⟨s, hs, hsl, hlt, hsk⟩
    · exact absurd hmem hm
    · -- The hiding table has a higher number, so it is loaded later.
      have hin : s ∈ as ++ t :: bs := by
        rw [← hsplit]
        exact Directory.mem_load.mpr (h.on_disk s hs)
      have hbefore : ¬ s.Before t := by
        rw [SSTable.Before, if_pos (hsl.trans hl.symm)]
        omega
      rw [hsplit] at hpair
      rcases List.mem_append.mp hin with has | hin
      · exact absurd ((List.pairwise_append.mp hpair).2.2 s has t List.mem_cons_self) hbefore
      · rcases List.mem_cons.mp hin with rfl | hbs
        · exact absurd hlt (lt_irrefl _)
        · exact ⟨s, hbs, hsk⟩

theorem Tolerant.ordered {e : Engine} (h : e.Tolerant) (hnone : e.NoOrphans) : e.Ordered where
  load_eq := Directory.load_eq h.pairwise fun t => ⟨hnone t, h.on_disk t⟩
  l0_lt := fun t ht => h.l0_lt t (h.on_disk t ht)

theorem newest_log_append (log : List Wal.Slot) (op : Op) (w : Wal.Write) (k : Key) :
    newest k ((log ++ [(⟨op.entry, w⟩ : Wal.Slot)]).map fun s => recordLayer s.entry) =
      if op.key = k then some op.value else newest k (log.map fun s => recordLayer s.entry) := by
  simp only [List.map_append, List.map_cons, List.map_nil, newest_append_singleton, recordLayer,
    recoveredOp_entry, lookup_cons, lookup_nil]
  split_ifs <;> rfl

/-- The record of a write that is accepted can be read back, once it has landed. -/
theorem kept_append {log : List Wal.Slot} {op : Op} (h : ∀ s ∈ log, s.entry.Fits ∧ s.write ≠ .lost)
    (hfits : op.entry.Fits) : ∀ s ∈ log ++ [⟨op.entry, .inFlight⟩], s.entry.Fits ∧ s.write ≠ .lost := by
  intro s hs
  rcases List.mem_append.mp hs with hs | hs
  · exact h s hs
  · rw [List.mem_singleton.mp hs]
    exact ⟨hfits, by simp⟩

theorem Tolerant.append {e : Engine} (h : e.Tolerant) {op : Op} (hfits : op.entry.Fits)
    (height : Height) : (e.append op height).Tolerant where
  pairwise := h.pairwise
  on_disk := h.on_disk
  l0_lt := h.l0_lt
  counter_le := h.counter_le
  orphan := by
    intro t ht hout
    obtain ⟨hl, hhides⟩ := h.orphan t ht hout
    refine ⟨hl, fun k hk => ?_⟩
    rcases hhides k hk with hm | hs
    · left
      rw [Engine.append, Memtable.entries_update, lookup_upsert]
      split_ifs
      · simp
      · exact hm
    · exact .inr hs
  logged := by
    intro k
    simp only [Engine.append, Memtable.entries_update, lookup_upsert, newest_log_append, h.logged k,
      eq_comm (a := k)]
  fits := kept_append h.fits hfits

/-! ### Flushes -/

theorem Tolerant.log_nil {e : Engine} (h : e.Tolerant) (hnil : e.memtable.entries = []) :
    e.log = [] := by
  cases hlog : e.log with
  | nil => rfl
  | cons s rest =>
    have hnone := h.logged (recoveredOp s.entry).key
    rw [hnil, lookup_nil, eq_comm, newest_eq_none_iff] at hnone
    have hlayer := hnone (recordLayer s.entry) (by simp [hlog])
    simp [recordLayer, lookup_cons] at hlayer

theorem Tolerant.l0_lt_table {e : Engine} (h : e.Tolerant) (hle : e.sstCounter ≤ intMax) :
    ∀ s ∈ e.dir.files, s.name.level = .l0 → s.name.counter < (e.table hle).name.counter :=
  h.l0_lt

/-- A failed flush leaves at most one more hidden file. -/
theorem Tolerant.failFlush {e : Engine} (h : e.Tolerant) (fault : FlushFault)
    (hclean : e.FlushClean (some fault)) :
    ∃ e', e.failFlush fault = .ok e' ∧ e'.Tolerant ∧ e'.memtable = e.memtable ∧ e'.log = e.log ∧
      e'.sstables = e.sstables := by
  unfold Engine.failFlush
  by_cases hempty : e.memtable.empty = true
  · rw [if_pos hempty]
    exact ⟨e, rfl, h, rfl, rfl, rfl⟩
  · have hlt := (hclean (by simpa using hempty)).1
    rw [if_neg hempty, dif_pos hlt]
    refine ⟨_, rfl, ?_, rfl, rfl, rfl⟩
    have hfiles : ∀ t, t ∈ (if fault.published then
        e.dir.applyAll [.stage (e.table hlt.le), .publish (e.table hlt.le)]
        else e.dir.applyAll [.discard (e.table hlt.le)]).files →
        t ∈ e.dir.files ∨ t = e.table hlt.le := by
      intro t ht
      split_ifs at ht
      · exact (mem_files_publish (name_ne_of_lt rfl (h.l0_lt_table hlt.le)) t).mp ht
      · exact .inl ht
    have hkept : ∀ t ∈ e.dir.files, t ∈ (if fault.published then
        e.dir.applyAll [.stage (e.table hlt.le), .publish (e.table hlt.le)]
        else e.dir.applyAll [.discard (e.table hlt.le)]).files := by
      intro t ht
      split_ifs
      · exact (mem_files_publish (name_ne_of_lt rfl (h.l0_lt_table hlt.le)) t).mpr (.inl ht)
      · exact ht
    refine ⟨h.pairwise, fun t ht => hkept t (h.on_disk t ht), ?_, hlt, ?_, h.logged, h.fits⟩
    · intro t ht
      exact l0_lt_succ h.l0_lt rfl (hfiles t ht)
    · intro t ht hout
      rcases hfiles t ht with ht | rfl
      · exact h.orphan t ht hout
      · exact ⟨rfl, fun k hk => .inl hk⟩

/-- The table of a successful flush hides what the memtable has hidden. -/
theorem Tolerant.register {e f : Engine} (h : e.Tolerant) (hf : e.writeTable = .ok f) :
    f.clearLog.Tolerant ∧ (∀ k, f.clearLog.get k = e.get k) ∧
      l0Count f.sstables = l0Count e.sstables + 1 := by
  obtain ⟨hlt, rfl⟩ := writeTable_ok hf
  have hfiles := mem_files_publish (name_ne_of_lt rfl (h.l0_lt_table hlt.le))
  refine ⟨⟨?_, ?_, ?_, hlt, ?_, ?_, by simp [clearLog]⟩, ?_, by simp [l0Count, table]⟩
  · refine List.pairwise_append.mpr ⟨h.pairwise, by simp, ?_⟩
    intro s hs t ht
    rw [List.mem_singleton.mp ht]
    exact before_of_lt rfl (h.l0_lt_table hlt.le s (h.on_disk s hs))
  · intro t ht
    rcases List.mem_append.mp ht with ht | ht
    · exact (hfiles t).mpr (.inl (h.on_disk t ht))
    · exact (hfiles t).mpr (.inr (List.mem_singleton.mp ht))
  · intro t ht
    exact l0_lt_succ h.l0_lt rfl ((hfiles t).mp ht)
  · intro t ht hout
    have hne : t ∉ e.sstables ∧ t ≠ e.table hlt.le := by
      simpa [clearLog, not_or] using hout
    have hin : t ∈ e.dir.files := ((hfiles t).mp ht).resolve_right hne.2
    obtain ⟨hl, hhides⟩ := h.orphan t hin hne.1
    refine ⟨hl, fun k hk => .inr ?_⟩
    rcases hhides k hk with hm | ⟨s, hs, hsl, hslt, hsk⟩
    · exact ⟨e.table hlt.le, List.mem_append_right _ List.mem_cons_self, rfl, h.l0_lt t hin hl, hm⟩
    · exact ⟨s, List.mem_append_left _ hs, hsl, hslt, hsk⟩
  · intro k
    rw [clearLog, Memtable.entries_new]
    rfl
  · intro k
    rw [get_eq, get_eq, contents, contents, clearLog, Memtable.entries_new, resolve_append_nil,
      layers_append]
    rfl

theorem Ordered.tolerant {e : Engine} (h : e.Ordered) (hcounter : e.sstCounter ≤ intMax)
    (hmem : e.memtable.entries = []) (hlog : e.log = []) : e.Tolerant where
  pairwise := h.load_eq ▸ e.dir.pairwise_load
  on_disk := by
    intro t ht
    rwa [← Directory.mem_load, h.load_eq]
  l0_lt := by
    intro t ht
    rw [← Directory.mem_load, h.load_eq] at ht
    exact h.l0_lt t ht
  counter_le := hcounter
  orphan := by
    intro t ht hout
    rw [← Directory.mem_load, h.load_eq] at ht
    exact absurd ht hout
  logged := by simp [hmem, hlog]
  fits := by simp [hlog]

theorem Tolerant.flushMemtable {e : Engine} (h : e.Tolerant) (hclean : e.FlushClean none) :
    ∃ e', e.flushMemtable = .ok e' ∧ e'.Tolerant ∧ (∀ k, e'.get k = e.get k) ∧
      e'.memtable.entries = [] := by
  by_cases hempty : e.memtable.empty = true
  · have hnil := e.memtable.empty_iff.mp hempty
    refine ⟨e, ?_, h, fun _ => rfl, hnil⟩
    rw [Engine.flushMemtable, if_pos hempty]
  obtain ⟨hlt, hcompact⟩ := hclean (by simpa using hempty)
  obtain ⟨hnone, hfits⟩ := hcompact rfl
  have hne : e.memtable.entries ≠ [] := fun hnil => hempty (e.memtable.empty_iff.mpr hnil)
  obtain ⟨f, hf⟩ := writeTable_isOk hlt
  obtain ⟨htol, hget, hcount⟩ := h.register hf
  by_cases hmany : l0Threshold ≤ l0Count e.sstables + 1
  · -- A compaction follows, and every file is registered.
    have hord := h.ordered (hnone hmany)
    obtain ⟨e', he'⟩ := hord.flushMemtable_isOk hlt hfits
    obtain ⟨hord', hget', hnil, -, hlog⟩ := hord.flushMemtable he'
    refine ⟨e', he', hord'.tolerant ?_ hnil (hlog hne), hget', hnil⟩
    rw [Engine.flushMemtable, if_neg hempty, hf] at he'
    rcases compact_cases he' with ⟨hfew, -⟩ | ⟨outputs, -, -, rfl⟩
    · exact absurd (hcount ▸ hmany : l0Threshold ≤ l0Count f.sstables) (Nat.not_le.mpr hfew)
    · exact Nat.zero_le _
  · refine ⟨f.clearLog, ?_, htol, hget, Memtable.entries_new _⟩
    rw [Engine.flushMemtable, if_neg hempty, hf]
    simp only [Engine.compact]
    rw [if_pos (show l0Count f.clearLog.sstables < l0Threshold from
      hcount ▸ Nat.lt_of_not_le hmany)]

/-- A flush that meets the condition, failing or not, changes nothing that is read. -/
theorem Tolerant.flushWith {e : Engine} (h : e.Tolerant) {fault : Option FlushFault}
    (hclean : e.FlushClean fault) :
    ∃ e', e.flushWith fault = .ok e' ∧ e'.Tolerant ∧ (∀ k, e'.get k = e.get k) ∧
      (fault = none → e'.memtable.entries = []) ∧ (fault ≠ none → e'.log = e.log) := by
  cases fault with
  | none =>
    obtain ⟨e', he', htol, hget, hnil⟩ := h.flushMemtable hclean
    exact ⟨e', he', htol, hget, fun _ => hnil, fun hne => absurd rfl hne⟩
  | some fault =>
    obtain ⟨e', he', htol, hmem, hlog, hsst⟩ := h.failFlush fault hclean
    refine ⟨e', he', htol, fun k => ?_, (by intro hne; cases hne), fun _ => hlog⟩
    rw [get_eq, get_eq, contents, contents, hmem, hsst]

/-! ### Reopening -/

theorem drain_landed {log : List Wal.Slot} (h : ∀ s ∈ log, s.write ≠ .lost) :
    ∀ s ∈ drain log, s.write = .landed := by
  intro s hs
  obtain ⟨r, hr, rfl⟩ := List.mem_map.mp hs
  have hne := h r hr
  cases hw : r.write <;> simp_all

theorem map_entry_drain (log : List Wal.Slot) :
    (drain log).map (·.entry) = log.map (·.entry) := by
  rw [drain, List.map_map]
  apply List.map_congr_left
  intro s _
  simp only [Function.comp_apply]
  split_ifs <;> rfl

theorem fits_drain {log : List Wal.Slot} (h : ∀ s ∈ log, s.entry.Fits) : ∀ s ∈ drain log, s.entry.Fits := by
  intro s hs
  obtain ⟨r, hr, rfl⟩ := List.mem_map.mp hs
  have := h r hr
  split_ifs <;> exact this

/-- Opening files with a log all of whose records have landed. -/
theorem construct_drain {e : Engine} (hfits : ∀ s ∈ e.log, s.entry.Fits ∧ s.write ≠ .lost)
    (hnext : nextCounter .l0 e.dir.load ≤ intMax) (hsize : Wal.writeOffset e.log ≤ Wal.maxRecoveryBytes)
    (maxBytes : ℕ) (heights : ℕ → Height) :
    ∃ m : Memtable, construct maxBytes e.dir (drain e.log) heights =
        .ok ⟨m, e.dir.load, nextCounter .l0 e.dir.load, e.dir, drain e.log⟩ ∧
      ∀ k, lookup k m.entries = newest k (e.log.map fun s => recordLayer s.entry) := by
  have hlanded := drain_landed fun s hs => (hfits s hs).2
  have hentries := map_entry_drain e.log
  have hall : Wal.landedEntries (drain e.log) = e.log.map (·.entry) := by
    rw [Wal.landedEntries, List.filter_eq_self.mpr (fun s hs => by simp [hlanded s hs])]
    exact hentries
  have hrecover : Wal.recover (Wal.image (drain e.log)) = .ok (e.log.map (·.entry)) := by
    rw [← hall]
    refine Wal.recover_image (fits_drain fun s hs => (hfits s hs).1) ((Wal.image_length_le _).trans ?_)
    rw [Wal.writeOffset_congr hentries]
    exact hsize
  refine ⟨replay (.new maxBytes) (e.log.map (·.entry)) heights, ?_, ?_⟩
  · simp only [construct, hrecover, hnext, if_true, Wal.survive_of_landed hlanded]
  · intro k
    rw [lookup_replay, newest_cons, Memtable.entries_new, lookup_nil, Option.or_none, List.map_map]
    rfl

/-- Opening the files of an engine whose log is small enough to be read back. -/
theorem Tolerant.construct {e : Engine} (h : e.Tolerant)
    (hsize : Wal.writeOffset e.log ≤ Wal.maxRecoveryBytes) (heights : ℕ → Height) :
    ∃ e', Engine.construct e.memtable.maxBytes e.dir (drain e.log) heights = .ok e' ∧ e'.Tolerant ∧
      ∀ k, e'.get k = e.get k := by
  have hnext : nextCounter .l0 e.dir.load ≤ intMax := by
    refine Nat.le_trans (nextCounter_le fun t ht => ?_) h.counter_le
    exact h.l0_lt t (Directory.mem_load.mp ht)
  obtain ⟨m, hconstruct, hmem⟩ := construct_drain h.fits hnext hsize e.memtable.maxBytes heights
  have hsame : ∀ k, lookup k m.entries = lookup k e.memtable.entries := by
    intro k
    rw [hmem, h.logged k]
  refine ⟨_, hconstruct, ⟨e.dir.pairwise_load, fun t ht => Directory.mem_load.mp ht, ?_, hnext, ?_, ?_, ?_⟩, ?_⟩
  · intro t ht hl
    exact lt_nextCounter (Directory.mem_load.mpr ht) hl
  · intro t ht hout
    exact absurd (Directory.mem_load.mpr ht) hout
  · intro k
    have hlayers := congrArg (List.map recordLayer) (map_entry_drain e.log)
    rw [List.map_map, List.map_map] at hlayers
    rw [hmem]
    exact congrArg (newest k) hlayers.symm
  · intro s hs
    have hlanded := drain_landed fun s hs => (h.fits s hs).2
    exact ⟨fits_drain (fun s hs => (h.fits s hs).1) s hs, by simp [hlanded s hs]⟩
  · intro k
    rw [← h.resolve_load k, get_eq, resolve, resolve, contents, newest_append_singleton,
      newest_append_singleton, hsame]

theorem Tolerant.reopen {e : Engine} (h : e.Tolerant) {heights : ℕ → Height}
    {fault : Option FlushFault} (hclean : e.Clean (.reopen heights fault)) :
    ∃ e', e.faultyCall (.reopen heights fault) = .ok e' ∧ e'.Tolerant ∧ ∀ k, e'.get k = e.get k := by
  obtain ⟨f, hf, htol, hget, hnil, hlog⟩ := h.flushWith hclean.1
  have hsize : Wal.writeOffset f.log ≤ Wal.maxRecoveryBytes := by
    by_cases hfault : fault = none
    · rw [htol.log_nil (hnil hfault)]
      exact Nat.zero_le _
    · rw [hlog hfault]
      exact hclean.2 hfault
  obtain ⟨e', he', htol', hget'⟩ := htol.construct hsize heights
  refine ⟨e', ?_, htol', fun k => (hget' k).trans (hget k)⟩
  rw [faultyCall, hf]
  exact he'

/-- A call that meets the condition is defined and leaves only harmless orphans. -/
theorem Tolerant.faultyCall {e : Engine} (h : e.Tolerant) {c : FaultyCall} (hclean : e.Clean c) :
    ∃ e', e.faultyCall c = .ok e' ∧ e'.Tolerant := by
  cases c with
  | write op height fault =>
    rw [Engine.faultyCall]
    split_ifs with hfits hfull
    · obtain ⟨e', he', htol, -⟩ := (h.append hfits height).flushWith (hclean hfits hfull)
      exact ⟨e', he', htol⟩
    · exact ⟨_, rfl, h.append hfits height⟩
    · exact ⟨e, rfl, h⟩
  | flush fault =>
    obtain ⟨e', he', htol, -⟩ := h.flushWith hclean
    exact ⟨e', he', htol⟩
  | reopen heights fault =>
    obtain ⟨e', he', htol, -⟩ := h.reopen hclean
    exact ⟨e', he', htol⟩

theorem Tolerant.faultyCalls {e : Engine} (h : e.Tolerant) {cs : List FaultyCall} {c : FaultyCall}
    (hclean : e.CallsClean (cs ++ [c])) :
    ∃ e', e.faultyCalls cs = .ok e' ∧ e'.Tolerant ∧ e'.Clean c := by
  induction cs generalizing e with
  | nil => exact ⟨e, rfl, h, hclean.1⟩
  | cons b cs ih =>
    obtain ⟨hb, hrest⟩ := hclean
    obtain ⟨f, hf, htol⟩ := h.faultyCall hb
    rw [hf] at hrest
    obtain ⟨e', he', hend⟩ := ih htol hrest
    refine ⟨e', ?_, hend⟩
    rw [Engine.faultyCalls, hf]
    exact he'

end Engine

/-- The engine before the last closing of the run and the one opened after it answer alike. -/
def ReopenPreserves (maxBytes : ℕ) (cs : List FaultyCall) (last : FaultyCall) : Prop :=
  ∃ e e', (Engine.fresh maxBytes).faultyCalls cs = .ok e ∧ e.faultyCall last = .ok e' ∧
    ∀ k, e'.get k = e.get k

/-- In a run in which no compaction meets an orphan, whatever flushes fail and wherever, a
reopening changes nothing that is read. -/
theorem reopenPreserves_of_clean (maxBytes : ℕ) (cs : List FaultyCall) (heights : ℕ → Height)
    (fault : Option FlushFault)
    (hclean : (Engine.fresh maxBytes).CallsClean (cs ++ [.reopen heights fault])) :
    ReopenPreserves maxBytes cs (.reopen heights fault) := by
  obtain ⟨e, he, htol, hlast⟩ := (Engine.tolerant_fresh maxBytes).faultyCalls hclean
  obtain ⟨e', he', -, hget⟩ := htol.reopen hlast
  exact ⟨e, e', he, he', hget⟩

/-- A published table is left unregistered; a later flush hides it. -/
def orphanedPut : List FaultyCall :=
  [.write (.put (.ofBytes [1]) [5]) 0 (some .syncDir), .write (.put (.ofBytes [1]) [6]) 0 none]

theorem reopenPreserves_orphanedPut :
    ReopenPreserves 0 orphanedPut (.reopen (fun _ => 0) none) :=
  reopenPreserves_of_clean 0 orphanedPut _ _ (by decide +kernel)

/-- Three more flushes, and the compaction takes away what hides it. -/
def compactedOrphan : List FaultyCall :=
  orphanedPut ++ [.write (.put (.ofBytes [2]) [7]) 0 none, .write (.put (.ofBytes [3]) [8]) 0 none,
    .write (.put (.ofBytes [4]) [9]) 0 none]

theorem not_reopenPreserves_compactedOrphan :
    ¬ ReopenPreserves 0 compactedOrphan (.reopen (fun _ => 0) none) := by
  rintro ⟨e, e', he, he', hget⟩
  have hbefore : ((Engine.fresh 0).faultyCalls compactedOrphan).toOption.map (·.get (.ofBytes [1])) =
      some (some [6]) := by decide +kernel
  have hafter : ((Engine.fresh 0).faultyCalls
      (compactedOrphan ++ [.reopen (fun _ => 0) none])).toOption.map (·.get (.ofBytes [1])) =
      some (some [5]) := by decide +kernel
  rw [he] at hbefore
  rw [Engine.faultyCalls_append he, Engine.faultyCalls, he'] at hafter
  have hfive : e'.get (.ofBytes [1]) = some [5] := Option.some.inj hafter
  have hsix : e.get (.ofBytes [1]) = some [6] := Option.some.inj hbefore
  rw [hget, hsix] at hfive
  cases hfive

end LsmTree
