import LsmTree.Engine

/-!
# The engine refines a map

Seen through `get`, a sequence of writes, flushes and clean reopenings acts on an engine
as it acts on a plain map: a put sets, a del removes, everything else changes nothing.
Between two calls level 0 holds fewer tables than the threshold, numbered from zero, and
an empty memtable comes with an empty log; so the destructor leaves nothing to replay,
and the next engine loads the list this one had.

The numbers of level 1 tables only ever grow, one compaction after another, and an
engine that lives long enough runs out of them.
-/

namespace LsmTree
open LittleEndian LayeredMap Merge

/-- What a client may do, with the heights of new skip list nodes. -/
inductive Call where
  | write (op : Op) (height : Height)
  | flush
  | reopen (heights : ℕ → Height)

def Engine.call (e : Engine) : Call → Except Failure Engine
  | .write op height => e.write op height
  | .flush => e.flush
  | .reopen heights => e.reopen heights

def Engine.calls : Engine → List Call → Except Failure Engine
  | e, [] => .ok e
  | e, c :: cs =>
    match e.call c with
    | .error f => .error f
    | .ok e' => e'.calls cs

/-- The reference map after a call. A write the log cannot record is refused by both. -/
def Call.apply (m : Key → Option Bytes) : Call → Key → Option Bytes
  | .write op _, k => if op.entry.Fits ∧ k = op.key then op.value else m k
  | .flush, k => m k
  | .reopen _, k => m k

def reference (cs : List Call) : Key → Option Bytes := cs.foldl Call.apply fun _ => none

/-- The engine survives the calls and answers as the reference map does. -/
def Refines (maxBytes : ℕ) (cs : List Call) : Prop :=
  ∃ e, (Engine.fresh maxBytes).calls cs = .ok e ∧ ∀ k, e.get k = reference cs k

/-- The state in which a call starts to flush, if it does. -/
def Engine.flushing (e : Engine) : Call → Option Engine
  | .write op height =>
    if op.entry.Fits ∧ (e.append op height).memtable.isFull then some (e.append op height) else none
  | .flush => if e.memtable.empty then none else some e
  | .reopen _ => if e.memtable.empty then none else some e

/-- If the call runs a compaction, the numbers of its outputs fit. -/
def Engine.InRange (e : Engine) (c : Call) : Prop :=
  match e.flushing c with
  | none => True
  | some f => f.CompactionFits

instance (e : Engine) (c : Call) : Decidable (e.InRange c) :=
  match h : e.flushing c with
  | none => isTrue (by rw [Engine.InRange, h]; trivial)
  | some f => decidable_of_iff f.CompactionFits (by rw [Engine.InRange, h])

/-- Every call of a run is in range where it is made. -/
def Engine.CallsInRange : Engine → List Call → Prop
  | _, [] => True
  | e, c :: cs => e.InRange c ∧
    match e.call c with
    | .error _ => True
    | .ok e' => e'.CallsInRange cs

instance Engine.CallsInRange.decidable : (e : Engine) → (cs : List Call) → Decidable (e.CallsInRange cs)
  | _, [] => isTrue trivial
  | e, c :: cs =>
    have : Decidable (match e.call c with
        | .error _ => True
        | .ok e' => e'.CallsInRange cs) :=
      match e.call c with
      | .error _ => isTrue trivial
      | .ok e' => Engine.CallsInRange.decidable e' cs
    inferInstanceAs (Decidable (_ ∧ _))

/-! ### The invariant between calls -/

/-- Level 0 is short and numbered from zero, and the log describes nothing but the memtable. -/
structure Engine.Steady (e : Engine) : Prop extends e.Ordered where
  counters : (e.sstables.filter (·.name.level = .l0)).map (·.name.counter) = List.range e.sstCounter
  few : e.sstCounter < l0Threshold
  log_nil : e.memtable.entries = [] → e.log = []

namespace Engine

theorem steady_fresh (maxBytes : ℕ) : (fresh maxBytes).Steady :=
  ⟨ordered_fresh maxBytes, rfl, show 0 < 4 by decide, fun _ => rfl⟩

theorem Steady.l0Count_eq {e : Engine} (h : e.Steady) : l0Count e.sstables = e.sstCounter := by
  have := congrArg List.length h.counters
  simpa [l0Count] using this

theorem Steady.append {e : Engine} (h : e.Steady) (op : Op) (height : Height) :
    (e.append op height).Steady where
  toOrdered := ⟨h.load_eq, h.l0_lt⟩
  counters := h.counters
  few := h.few
  log_nil := by
    intro hnil
    exact absurd hnil (entries_append_ne_nil e op height)

theorem Steady.flushMemtable {e e' : Engine} (h : e.Steady) (he : e.flushMemtable = .ok e') :
    e'.Steady := by
  have hord := (h.toOrdered.flushMemtable he).1
  rcases flushMemtable_cases he with ⟨-, rfl⟩ | ⟨f, -, hf, hcompact⟩
  · exact h
  · obtain ⟨-, -, hcount, -, hnext, -, -⟩ := h.toOrdered.writeTable hf
    have hf' : (f.sstables.filter (·.name.level = .l0)).map (·.name.counter) =
        List.range f.sstCounter := by
      obtain ⟨hlt, rfl⟩ := writeTable_ok hf
      simp [h.counters, List.range_succ, table]
    rcases compact_cases hcompact with ⟨hfew, rfl⟩ | ⟨outputs, -, hout, rfl⟩
    · refine ⟨hord, hf', ?_, fun _ => rfl⟩
      have hlt : l0Count f.sstables < l0Threshold := hfew
      rw [hcount, h.l0Count_eq] at hlt
      exact hnext ▸ hlt
    · have hl0 : outputs.filter (·.name.level = .l0) = [] := by
        rw [List.filter_eq_nil_iff]
        intro t ht
        simp [(compactionOutputs_spec hout).level t ht]
      exact ⟨hord, by simp [hl0], show 0 < 4 by decide, fun _ => rfl⟩

theorem nextCounter_of_counters {ts : List SSTable} {n : ℕ}
    (h : (ts.filter (·.name.level = .l0)).map (·.name.counter) = List.range n) :
    nextCounter .l0 ts = n := by
  have hmem : ∀ t ∈ ts, t.name.level = .l0 → t.name.counter < n := by
    intro t ht hl
    have : t.name.counter ∈ List.range n := by
      rw [← h]
      exact List.mem_map_of_mem (List.mem_filter.mpr ⟨ht, by simpa using hl⟩)
    exact List.mem_range.mp this
  apply Nat.le_antisymm (nextCounter_le hmem)
  cases n with
  | zero => exact Nat.zero_le _
  | succ n =>
    have hlast : n ∈ List.range (n + 1) := List.self_mem_range_succ
    rw [← h] at hlast
    obtain ⟨t, ht, rfl⟩ := List.mem_map.mp hlast
    obtain ⟨ht, hl⟩ := List.mem_filter.mp ht
    exact lt_nextCounter ht (by simpa using hl)

/-- Opening what a clean shutdown leaves gives the same tables and an empty memtable. -/
theorem Steady.construct {e : Engine} (h : e.Steady) (hnil : e.memtable.entries = [])
    (heights : ℕ → Height) :
    construct e.memtable.maxBytes e.dir (drain e.log) heights =
      .ok { e with memtable := .new e.memtable.maxBytes } := by
  have hnext := nextCounter_of_counters h.counters
  have hlt := h.few
  have hrecover : Wal.recover (Wal.image []) = .ok [] := by decide
  have hfit : e.sstCounter ≤ intMax := hlt.le.trans (by decide)
  rw [h.log_nil hnil, Engine.construct, drain, List.map_nil, hrecover, h.load_eq, hnext]
  simp only [hfit, if_true]
  rw [replay, Wal.survive, ← h.log_nil hnil]

theorem flush_eq_flushMemtable (e : Engine) : e.flush = e.flushMemtable := by
  unfold flush Engine.flushMemtable
  split_ifs <;> rfl

theorem Steady.reopen {e e' : Engine} (h : e.Steady) {heights : ℕ → Height}
    (he : e.reopen heights = .ok e') : e'.Steady ∧ ∀ k, e'.get k = e.get k := by
  unfold Engine.reopen at he
  split at he
  case h_1 => cases he
  case h_2 f hf =>
    rw [flush_eq_flushMemtable] at hf
    have hsteady := h.flushMemtable hf
    obtain ⟨-, hget, hnil, -, -⟩ := h.toOrdered.flushMemtable hf
    rw [hsteady.construct hnil] at he
    cases he
    refine ⟨⟨⟨hsteady.load_eq, hsteady.l0_lt⟩, hsteady.counters, hsteady.few,
      fun _ => hsteady.log_nil hnil⟩, ?_⟩
    intro k
    rw [← hget k, get_eq, get_eq, contents, contents, Memtable.entries_new, hnil]

/-- One call, as far as it is defined, keeps the invariant and does to `get` what it does to the
reference map. -/
theorem Steady.call {e e' : Engine} (h : e.Steady) {c : Call} (he : e.call c = .ok e') :
    e'.Steady ∧ ∀ k, e'.get k = c.apply e.get k := by
  cases c with
  | write op height =>
    rw [Engine.call, Engine.write] at he
    by_cases hfits : op.entry.Fits
    · have happly : ∀ k, (e.append op height).get k = Call.apply e.get (.write op height) k := by
        intro k
        rw [get_append, Call.apply]
        simp [hfits]
      rw [if_pos hfits] at he
      split_ifs at he with hfull
      · have hget := ((h.append op height).toOrdered.flushMemtable he).2.1
        exact ⟨(h.append op height).flushMemtable he, fun k => (hget k).trans (happly k)⟩
      · cases he
        exact ⟨h.append op height, happly⟩
    · rw [if_neg hfits] at he
      cases he
      refine ⟨h, fun k => ?_⟩
      rw [Call.apply]
      simp [hfits]
  | flush =>
    rw [Engine.call, flush_eq_flushMemtable] at he
    exact ⟨h.flushMemtable he, (h.toOrdered.flushMemtable he).2.1⟩
  | reopen heights => exact h.reopen he

/-- A call in range is defined. -/
theorem Steady.call_isOk {e : Engine} (h : e.Steady) {c : Call} (hrange : e.InRange c) :
    ∃ e', e.call c = .ok e' := by
  have hflush : ∀ f : Engine, f.Steady → f.CompactionFits → ∃ e', f.flushMemtable = .ok e' := by
    intro f hf hfits
    exact hf.toOrdered.flushMemtable_isOk (hf.few.trans (by decide)) hfits
  have hclosed : (¬ e.memtable.empty = true → e.CompactionFits) → ∃ f, e.flush = .ok f := by
    intro hfits
    unfold Engine.flush
    split
    · exact ⟨e, rfl⟩
    case isFalse hempty => exact hflush e h (hfits hempty)
  cases c with
  | write op height =>
    rw [Engine.call, Engine.write]
    split_ifs with hfits hfull
    · apply hflush _ (h.append op height)
      simpa [InRange, flushing, hfits, hfull] using hrange
    · exact ⟨_, rfl⟩
    · exact ⟨_, rfl⟩
  | flush =>
    apply hclosed
    intro hempty
    simpa [InRange, flushing, hempty] using hrange
  | reopen heights =>
    obtain ⟨f, hf⟩ := hclosed (by
      intro hempty
      simpa [InRange, flushing, hempty] using hrange)
    rw [flush_eq_flushMemtable] at hf
    have hnil := (h.toOrdered.flushMemtable hf).2.2.1
    rw [Engine.call, Engine.reopen, flush_eq_flushMemtable, hf]
    exact ⟨_, (h.flushMemtable hf).construct hnil heights⟩

theorem Steady.calls {e e' : Engine} (h : e.Steady) {cs : List Call} (he : e.calls cs = .ok e') :
    e'.Steady ∧ ∀ k, e'.get k = cs.foldl Call.apply e.get k := by
  induction cs generalizing e with
  | nil =>
    cases he
    exact ⟨h, fun _ => rfl⟩
  | cons c cs ih =>
    rw [Engine.calls] at he
    split at he
    case h_1 => cases he
    case h_2 f hf =>
      obtain ⟨hsteady, hget⟩ := h.call hf
      obtain ⟨hsteady', hget'⟩ := ih hsteady he
      refine ⟨hsteady', fun k => ?_⟩
      rw [hget' k, List.foldl_cons, funext hget]

theorem Steady.calls_isOk {e : Engine} (h : e.Steady) {cs : List Call} (hrange : e.CallsInRange cs) :
    ∃ e', e.calls cs = .ok e' := by
  induction cs generalizing e with
  | nil => exact ⟨e, rfl⟩
  | cons c cs ih =>
    obtain ⟨hc, hcs⟩ := hrange
    obtain ⟨f, hf⟩ := h.call_isOk hc
    rw [hf] at hcs
    rw [Engine.calls, hf]
    exact ih (h.call hf).1 hcs

theorem CallsInRange.take {e : Engine} {cs : List Call} (h : e.CallsInRange cs) (n : ℕ) :
    e.CallsInRange (cs.take n) := by
  induction cs generalizing e n with
  | nil => rwa [List.take_nil]
  | cons c cs ih =>
    cases n with
    | zero => trivial
    | succ n =>
      obtain ⟨hc, hcs⟩ := h
      refine ⟨hc, ?_⟩
      cases hcall : e.call c with
      | error f => trivial
      | ok e' =>
        rw [hcall] at hcs
        exact ih hcs n

end Engine

/-- For every memtable limit and every sequence of calls whose compactions are in range, the
engine agrees with the reference map after every call. -/
theorem refines_of_callsInRange (maxBytes : ℕ) (cs : List Call)
    (h : (Engine.fresh maxBytes).CallsInRange cs) (n : ℕ) : Refines maxBytes (cs.take n) := by
  have hsteady := Engine.steady_fresh maxBytes
  obtain ⟨e, he⟩ := hsteady.calls_isOk (h.take n)
  refine ⟨e, he, fun k => ?_⟩
  rw [(hsteady.calls he).2 k]
  rfl

/-- Four flushes and a compaction that drops a tombstone, then a reopening. -/
def shortRun : List Call :=
  [.write (.put (.ofBytes [1]) [5]) 0, .write (.put (.ofBytes [2]) [6]) 3, .write (.del (.ofBytes [1])) 1,
    .write (.put (.ofBytes [2]) [7]) 0, .reopen fun _ => 0, .write (.put (.ofBytes [3]) [8]) 2]

theorem refines_shortRun : Refines 0 (shortRun.take 6) :=
  refines_of_callsInRange 0 shortRun (by decide +kernel) 6

/-! ### Running out of numbers -/

namespace Engine

/-- How many level 0 and level 1 names have been used up, in flushes. -/
def spent (e : Engine) : ℕ := l0Threshold * l1Start e.dir.files + e.sstCounter

theorem Steady.spent_le {e : Engine} (h : e.Steady) : e.spent ≤ l0Threshold * (intMax + 2) := by
  have hstart : l1Start e.dir.files ≤ intMax + 1 :=
    nextCounter_le fun t _ _ => Nat.lt_succ_of_le t.name.counter_le
  have hfew := h.few
  unfold spent l0Threshold at *
  omega

/-- A compaction of tables with a live key takes at least one number. -/
theorem Steady.spent_flush {e e' : Engine} (h : e.Steady) (hne : e.memtable.entries ≠ [])
    {k : Key} (hk : e.get k ≠ none) (he : e.flushMemtable = .ok e') : e.spent < e'.spent := by
  rcases flushMemtable_cases he with ⟨hnil, -⟩ | ⟨f, -, hf, hcompact⟩
  · exact absurd hnil hne
  · obtain ⟨hord, hlayers, hcount, hstart, hnext, -, -⟩ := h.toOrdered.writeTable hf
    rcases compact_cases hcompact with ⟨-, rfl⟩ | ⟨outputs, -, hout, rfl⟩
    · show _ < l0Threshold * l1Start f.dir.files + f.sstCounter
      rw [hstart, hnext]
      exact Nat.lt_succ_self _
    · have hspec : Outputs f.dir f.dir.load outputs := hord.outputs hout
      have hread : resolve k (layers outputs) = e.get k := by
        have hlive : LiveStack (layers outputs) (layers f.dir.load) := by
          rw [hspec.contents]
          exact liveStack_merge (sorted_layers _)
        rw [hlive.resolve_eq, hord.load_eq, hlayers, get_eq]
        rfl
      -- Some output holds the live key, and its number is new.
      obtain ⟨o, ho⟩ : ∃ o, o ∈ outputs := by
        cases houts : outputs with
        | nil =>
          rw [houts] at hread
          exact absurd hread.symm hk
        | cons o os => exact ⟨o, List.mem_cons_self⟩
      have hload : (f.dir.applyAll (compactionSteps f.dir f.sstables outputs)).load = outputs := by
        have := load_compacted hspec
        rwa [hord.load_eq] at this
      have hfile : o ∈ (f.dir.applyAll (compactionSteps f.dir f.sstables outputs)).files := by
        rw [← Directory.mem_load, hload]
        exact ho
      have hlt : o.name.counter <
          l1Start (f.dir.applyAll (compactionSteps f.dir f.sstables outputs)).files :=
        lt_nextCounter hfile (hspec.level o ho)
      have hge : l1Start f.dir.files ≤ o.name.counter := nextCounter_le (hspec.fresh o ho)
      have hfew := h.few
      rw [hstart] at hge
      show l0Threshold * l1Start e.dir.files + e.sstCounter < l0Threshold *
        l1Start (f.dir.applyAll (compactionSteps f.dir f.sstables outputs)).files + 0
      have hmul := Nat.mul_le_mul_left l0Threshold (Nat.succ_le_of_lt (hge.trans_lt hlt))
      rw [Nat.mul_succ] at hmul
      omega

/-- With a memtable limit of zero every put flushes. -/
theorem Steady.spent_put {e e' : Engine} (h : e.Steady) (hzero : e.memtable.maxBytes = 0) {k : Key}
    {v : Bytes} {height : Height} (hfits : (Op.put k v).entry.Fits)
    (he : e.write (.put k v) height = .ok e') :
    e'.Steady ∧ e'.memtable.maxBytes = 0 ∧ e.spent < e'.spent := by
  have hfull : (e.append (.put k v) height).memtable.isFull = true := by
    have hmax : (e.append (.put k v) height).memtable.maxBytes = 0 := hzero
    simp [Memtable.isFull, hmax]
  rw [Engine.write, if_pos hfits, if_pos hfull] at he
  have happend := h.append (.put k v) height
  have hget : (e.append (.put k v) height).get k ≠ none := by
    rw [get_append, if_pos (show k = (Op.put k v).key from rfl)]
    simp [Op.value]
  refine ⟨happend.flushMemtable he, ?_,
    happend.spent_flush (entries_append_ne_nil e _ _) hget he⟩
  rw [maxBytes_flushMemtable he]
  exact hzero

theorem Steady.length_le_of_calls {e e' : Engine} (h : e.Steady) (hzero : e.memtable.maxBytes = 0) {keys : List Key}
    {v : Bytes} {height : Height} (hfits : ∀ k ∈ keys, (Op.put k v).entry.Fits)
    (he : e.calls (keys.map fun k => .write (.put k v) height) = .ok e') :
    e.spent + keys.length ≤ l0Threshold * (intMax + 2) := by
  induction keys generalizing e with
  | nil => exact h.spent_le
  | cons k keys ih =>
    obtain ⟨hk, hkeys⟩ := List.forall_mem_cons.mp hfits
    rw [List.map_cons, Engine.calls] at he
    split at he
    case h_1 => cases he
    case h_2 f hf =>
      obtain ⟨hsteady, hzero', hlt⟩ := h.spent_put hzero hk hf
      have := ih hsteady hzero' hkeys he
      rw [List.length_cons]
      omega

end Engine

/-- Putting 1001 keys, and then one of them over and over, into an engine that flushes every write. -/
theorem not_refines_replicate :
    ¬ Refines 0 (((List.range 1001).map keyOfSize ++ List.replicate 8589934597 (keyOfSize 1)).map fun k =>
      .write (.put k [2]) 0) := by
  rintro ⟨e, he, -⟩
  have hfits : ∀ n ≤ 1000, (Op.put (keyOfSize n) [2]).entry.Fits := by
    intro n hn
    have hkey : (Op.put (keyOfSize n) [2]).entry.key.length = n := List.length_replicate
    have hvalue : (Op.put (keyOfSize n) [2]).entry.value.length = 1 := rfl
    rw [Wal.Entry.Fits, hkey, hvalue, Wal.maxFieldBytes]
    omega
  have hle := (Engine.steady_fresh 0).length_le_of_calls rfl (List.forall_mem_append.mpr ⟨?_, ?_⟩) he
  · have hbound : l0Threshold * (intMax + 2) = 8589934596 := by decide
    rw [List.length_append, List.length_replicate] at hle
    omega
  · intro k hk
    obtain ⟨n, hn, rfl⟩ := List.mem_map.mp hk
    exact hfits n (Nat.le_of_lt_succ (List.mem_range.mp hn))
  · intro k hk
    rw [List.eq_of_mem_replicate hk]
    exact hfits 1 (by decide)

end LsmTree
