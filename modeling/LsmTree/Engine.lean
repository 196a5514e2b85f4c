import LsmTree.CompactionCrash
import LsmTree.WalImage

/-!
# The engine

An engine answers from its memtable and then from its tables, newest first. A write is
logged, inserted into the memtable, and followed by a flush when the memtable is full:
the memtable becomes the newest level 0 table, the log is cleared, and a compaction runs
if level 0 has grown to the threshold. Closing flushes what is left; opening replays the
log and loads the tables.

Two things can go wrong without any I/O error: the log can be too large to be read
back, and a counter of type `int` can overflow, which has no defined behaviour.
-/

namespace LsmTree
open LittleEndian LayeredMap Merge

/-- A call of `put` or `del`. -/
inductive Op where
  | put (key : Key) (value : Bytes)
  | del (key : Key)
  deriving DecidableEq

def Op.key : Op → Key
  | .put k _ => k
  | .del k => k

/-- The value the key has afterwards; a deletion leaves none. -/
def Op.value : Op → Option Bytes
  | .put _ v => some v
  | .del _ => none

/-- The record `appendPut` or `appendDel` writes. -/
def Op.entry : Op → Wal.Entry
  | .put k v => ⟨.put, k.bytes, v⟩
  | .del k => ⟨.del, k.bytes, []⟩

/-- What `recoverFromWAL` does with a record. -/
def recoveredOp (e : Wal.Entry) : Op :=
  match e.type with
  | .put => .put (.ofBytes e.key) e.value
  | .del => .del (.ofBytes e.key)

@[simp] theorem recoveredOp_entry (op : Op) : recoveredOp op.entry = op := by
  cases op <;> rfl

/-- Why an engine stops. -/
inductive Failure where
  | undefined
  | recover (error : Wal.RecoverError)

/-- `LSMEngine` with the data directory and the log file behind it. -/
structure Engine where
  memtable : Memtable
  sstables : List SSTable
  sstCounter : ℕ
  dir : Directory
  log : List Wal.Slot

/-- `SSTable::get`. -/
def SSTable.get (t : SSTable) (k : Key) : Option (Option Bytes) := lookup k t.entries

namespace Engine

/-- `LSMEngine::get`. Every table holds an open file descriptor, so their number is far within
the `int` the tables are counted down with. -/
def get (e : Engine) (k : Key) : Option Bytes :=
  match e.memtable.get k with
  | some v => v
  | none => (e.sstables.reverse.findSome? (·.get k)).join

/-- The table a flush writes. -/
def table (e : Engine) (h : e.sstCounter ≤ intMax) : SSTable :=
  ⟨⟨.l0, e.sstCounter, h⟩, e.memtable.entries, e.memtable.sorted_entries⟩

theorem counter_le {e : Engine} (h : e.sstCounter < intMax) : e.sstCounter ≤ intMax := h.le

/-- `SSTable::write` of the memtable under the next level 0 name, and its registration. -/
def writeTable (e : Engine) : Except Failure Engine :=
  if h : e.sstCounter < intMax then
    .ok { e with
      sstables := e.sstables ++ [e.table h.le]
      sstCounter := e.sstCounter + 1
      dir := e.dir.applyAll [.stage (e.table h.le), .publish (e.table h.le)] }
  else .error .undefined

/-- `wal_.clear()` and the new memtable. -/
def clearLog (e : Engine) : Engine := { e with log := [], memtable := .new e.memtable.maxBytes }

/-- `compactor_.run(sstables_, sst_counter_)`. -/
def compact (e : Engine) : Except Failure Engine :=
  if l0Count e.sstables < l0Threshold then .ok e
  else match compactionOutputs e.dir e.sstables with
    | none => .error .undefined
    | some outputs =>
      .ok { e with
        sstables := outputs
        sstCounter := 0
        dir := e.dir.applyAll (compactionSteps e.dir e.sstables outputs) }

def flushMemtable (e : Engine) : Except Failure Engine :=
  if e.memtable.empty then .ok e
  else match e.writeTable with
    | .error f => .error f
    | .ok e => e.clearLog.compact

def flush (e : Engine) : Except Failure Engine :=
  if e.memtable.empty then .ok e else e.flushMemtable

/-- The log record and the memtable entry of a write. -/
def append (e : Engine) (op : Op) (height : Height) : Engine :=
  { e with
    log := e.log ++ [⟨op.entry, .inFlight⟩]
    memtable := e.memtable.update op.key op.value height }

/-- `LSMEngine::put` and `LSMEngine::del`. A key or value too long for the log is refused. -/
def write (e : Engine) (op : Op) (height : Height) : Except Failure Engine :=
  if op.entry.Fits then
    if (e.append op height).memtable.isFull then (e.append op height).flushMemtable
    else .ok (e.append op height)
  else .ok e

/-- A log record as a layer of its own. -/
def recordLayer (e : Wal.Entry) : List (Key × Option Bytes) :=
  [((recoveredOp e).key, (recoveredOp e).value)]

/-- The loop of `recoverFromWAL`, with the heights drawn on the way. -/
def replay : Memtable → List Wal.Entry → (ℕ → Height) → Memtable
  | m, [], _ => m
  | m, e :: es, heights =>
    replay (m.update (recoveredOp e).key (recoveredOp e).value (heights 0)) es fun i => heights (i + 1)

/-- The constructor of `LSMEngine`, on the files it finds. -/
def construct (maxBytes : ℕ) (dir : Directory) (log : List Wal.Slot) (heights : ℕ → Height) :
    Except Failure Engine :=
  match Wal.recover (Wal.image log) with
  | .error err => .error (.recover err)
  | .ok entries =>
    if nextCounter .l0 dir.load ≤ intMax then
      .ok { memtable := replay (.new maxBytes) entries heights
            sstables := dir.load
            sstCounter := nextCounter .l0 dir.load
            dir := dir
            log := Wal.survive log }
    else .error .undefined

/-- The engine on a new directory. -/
def fresh (maxBytes : ℕ) : Engine where
  memtable := .new maxBytes
  sstables := []
  sstCounter := 0
  dir := ⟨[], [], List.nodup_nil⟩
  log := []

/-- `WAL::drain`: every submitted write lands. -/
def drain (log : List Wal.Slot) : List Wal.Slot :=
  log.map fun s => if s.write = .inFlight then { s with write := .landed } else s

/-- The destructor of an engine followed by the constructor of the next one. -/
def reopen (e : Engine) (heights : ℕ → Height) : Except Failure Engine :=
  match e.flush with
  | .error f => .error f
  | .ok e => construct e.memtable.maxBytes e.dir (drain e.log) heights

/-! ### Reading -/

/-- Replaying a log puts its records on top of each other. -/
theorem lookup_replay (m : Memtable) (es : List Wal.Entry) (heights : ℕ → Height) (k : Key) :
    lookup k (replay m es heights).entries = newest k (m.entries :: es.map recordLayer) := by
  induction es generalizing m heights with
  | nil => rfl
  | cons e es ih =>
    rw [replay, ih, newest_cons, Memtable.entries_update, lookup_upsert, List.map_cons, newest_cons,
      newest_cons, recordLayer, lookup_cons, lookup_nil, Option.or_assoc]
    simp only [eq_comm (a := k)]
    split_ifs <;> rfl

/-- The layers an engine reads from. -/
def contents (e : Engine) : List (List (Key × Option Bytes)) :=
  layers e.sstables ++ [e.memtable.entries]

theorem get_eq (e : Engine) (k : Key) : e.get k = resolve k e.contents := by
  have hfind : e.sstables.reverse.findSome? (·.get k) = newest k (layers e.sstables) := by
    rw [← findSome?_reverse_eq_newest, layers, ← List.map_reverse, List.findSome?_map]
    rfl
  rw [get, Memtable.get_eq, hfind, resolve, contents, newest_append_singleton]
  cases lookup k e.memtable.entries <;> rfl

/-- A write changes what is read for its own key, and nothing else. -/
theorem get_append (e : Engine) (op : Op) (height : Height) (k : Key) :
    (e.append op height).get k = if k = op.key then op.value else e.get k := by
  rw [get_eq, get_eq, resolve, resolve, contents, contents, newest_append_singleton,
    newest_append_singleton]
  simp only [append, Memtable.entries_update, lookup_upsert]
  split_ifs <;> rfl

theorem entries_append_ne_nil (e : Engine) (op : Op) (height : Height) :
    (e.append op height).memtable.entries ≠ [] := by
  rw [append, Memtable.entries_update, upsert]
  simp

/-! ### Flush and compaction -/

/-- The table list is what the directory would be loaded as, and the next level 0 name is new. -/
structure Ordered (e : Engine) : Prop where
  load_eq : e.dir.load = e.sstables
  l0_lt : ∀ t ∈ e.sstables, t.name.level = .l0 → t.name.counter < e.sstCounter

theorem ordered_fresh (maxBytes : ℕ) : (fresh maxBytes).Ordered :=
  ⟨Directory.load_eq List.Pairwise.nil fun _ => Iff.rfl, by simp [fresh]⟩

end Engine

theorem mem_files_publish {d : Directory} {t : SSTable} (hnew : ∀ s ∈ d.files, s.name ≠ t.name)
    (s : SSTable) :
    s ∈ (d.applyAll [.stage t, .publish t]).files ↔ s ∈ d.files ∨ s = t := by
  simp only [Directory.applyAll, List.foldl_cons, List.foldl_nil, Directory.apply, List.mem_append,
    List.mem_filter, List.mem_singleton, decide_eq_true_eq]
  exact or_congr_left ⟨fun h => h.1, fun h => ⟨h, hnew s h⟩⟩

/-- A level 0 name past all others is new. -/
theorem name_ne_of_lt {d : Directory} {t : SSTable} (hl : t.name.level = .l0)
    (hlt : ∀ s ∈ d.files, s.name.level = .l0 → s.name.counter < t.name.counter) :
    ∀ s ∈ d.files, s.name ≠ t.name := by
  intro s hs heq
  have := hlt s hs (heq ▸ hl)
  rw [heq] at this
  exact lt_irrefl _ this

/-- A counter past level 0 can be given to the next table of it. -/
theorem l0_lt_succ {ts : List SSTable} {t s : SSTable} {n : ℕ}
    (h : ∀ s ∈ ts, s.name.level = .l0 → s.name.counter < n) (ht : t.name.counter = n) (hs : s ∈ ts ∨ s = t)
    (hl : s.name.level = .l0) : s.name.counter < n + 1 := by
  rcases hs with hs | rfl
  · exact Nat.lt_succ_of_lt (h s hs hl)
  · exact ht ▸ Nat.lt_succ_self _

theorem before_of_lt {s t : SSTable} (hl : t.name.level = .l0)
    (hlt : s.name.level = .l0 → s.name.counter < t.name.counter) : s.Before t := by
  cases hsl : s.name.level with
  | l0 =>
    rw [SSTable.Before, if_pos (hsl.trans hl.symm)]
    exact hlt hsl
  | l1 => exact before_of_levels hsl hl

/-- A new table with the highest level 0 number is loaded last. -/
theorem load_publish {d : Directory} {t : SSTable} (hl : t.name.level = .l0)
    (hlt : ∀ s ∈ d.files, s.name.level = .l0 → s.name.counter < t.name.counter) :
    (d.applyAll [.stage t, .publish t]).load = d.load ++ [t] := by
  apply Directory.load_eq
  · refine List.pairwise_append.mpr ⟨d.pairwise_load, by simp, ?_⟩
    intro s hs u hu
    rw [List.mem_singleton.mp hu]
    exact before_of_lt hl (hlt s (Directory.mem_load.mp hs))
  · intro s
    rw [mem_files_publish (name_ne_of_lt hl hlt), List.mem_append, Directory.mem_load,
      List.mem_singleton]

/-- A finished compaction leaves its outputs. -/
theorem load_compacted {d : Directory} {outputs : List SSTable} (h : Outputs d d.load outputs) :
    (d.applyAll (compactionSteps d d.load outputs)).load = outputs := by
  have hmem := (mem_files_crash h (compactionSteps d d.load outputs).length).2
  have hlen : (compactionSteps d d.load outputs).length =
      d.temps.length + outputs.length + outputs.length + d.load.length := by
    simp only [compactionSteps, List.length_append, List.length_map]
  rw [List.take_length, hlen, List.drop_of_length_le (by omega),
    List.take_of_length_le (by omega)] at hmem
  apply Directory.load_eq h.pairwise
  intro t
  rw [hmem]
  simp

namespace Engine

/-- What a table written by a flush adds to the engine. -/
theorem writeTable_ok {e e' : Engine} (he : e.writeTable = .ok e') :
    ∃ hlt : e.sstCounter < intMax, e' = { e with
      sstables := e.sstables ++ [e.table hlt.le]
      sstCounter := e.sstCounter + 1
      dir := e.dir.applyAll [.stage (e.table hlt.le), .publish (e.table hlt.le)] } := by
  simp only [Engine.writeTable] at he
  split at he
  case isTrue hlt => exact ⟨hlt, (Except.ok.inj he).symm⟩
  case isFalse => cases he

/-- A compaction does nothing, or puts its outputs in the place of the tables. -/
theorem compact_cases {e e' : Engine} (he : e.compact = .ok e') :
    (l0Count e.sstables < l0Threshold ∧ e' = e) ∨
      ∃ outputs, l0Threshold ≤ l0Count e.sstables ∧ compactionOutputs e.dir e.sstables = some outputs ∧
        e' = { e with
          sstables := outputs
          sstCounter := 0
          dir := e.dir.applyAll (compactionSteps e.dir e.sstables outputs) } := by
  simp only [Engine.compact] at he
  split at he
  case isTrue hfew => exact .inl ⟨hfew, (Except.ok.inj he).symm⟩
  case isFalse hmany =>
    split at he
    case h_1 => cases he
    case h_2 outputs hout => exact .inr ⟨outputs, Nat.le_of_not_lt hmany, hout, (Except.ok.inj he).symm⟩

theorem flushMemtable_cases {e e' : Engine} (he : e.flushMemtable = .ok e') :
    (e.memtable.entries = [] ∧ e' = e) ∨
      ∃ f, e.memtable.entries ≠ [] ∧ e.writeTable = .ok f ∧ f.clearLog.compact = .ok e' := by
  simp only [Engine.flushMemtable] at he
  split at he
  case isTrue hempty => exact .inl ⟨e.memtable.empty_iff.mp hempty, (Except.ok.inj he).symm⟩
  case isFalse hempty =>
    split at he
    case h_1 => cases he
    case h_2 f hf => exact .inr ⟨f, fun hnil => hempty (e.memtable.empty_iff.mpr hnil), hf, he⟩

theorem Ordered.writeTable {e e' : Engine} (h : e.Ordered) (he : e.writeTable = .ok e') :
    e'.Ordered ∧ layers e'.sstables = layers e.sstables ++ [e.memtable.entries] ∧
      l0Count e'.sstables = l0Count e.sstables + 1 ∧
      l1Start e'.dir.files = l1Start e.dir.files ∧ e'.sstCounter = e.sstCounter + 1 ∧
      e'.memtable = e.memtable ∧ e'.log = e.log := by
  obtain ⟨hlt, rfl⟩ := writeTable_ok he
  have hload : (e.dir.applyAll [.stage (e.table hlt.le), .publish (e.table hlt.le)]).load =
      e.sstables ++ [e.table hlt.le] := by
    rw [load_publish (t := e.table hlt.le) rfl, h.load_eq]
    intro s hs
    rw [← Directory.mem_load, h.load_eq] at hs
    exact h.l0_lt s hs
  refine ⟨⟨hload, ?_⟩, layers_append _ _, by simp [l0Count, table], ?_, rfl, rfl, rfl⟩
  · intro t ht
    exact l0_lt_succ h.l0_lt rfl (by simpa using ht)
  · apply nextCounter_congr
    intro t hl
    rw [← Directory.mem_load, ← Directory.mem_load (d := e.dir), hload, h.load_eq,
      List.mem_append, List.mem_singleton]
    refine or_iff_left ?_
    rintro rfl
    cases hl

theorem writeTable_isOk {e : Engine} (h : e.sstCounter < intMax) : ∃ e', e.writeTable = .ok e' := by
  unfold Engine.writeTable
  rw [dif_pos h]
  exact ⟨_, rfl⟩

theorem Ordered.clearLog {e : Engine} (h : e.Ordered) : e.clearLog.Ordered := ⟨h.load_eq, h.l0_lt⟩

theorem Ordered.outputs {e : Engine} {outputs : List SSTable} (h : e.Ordered)
    (hout : compactionOutputs e.dir e.sstables = some outputs) :
    Outputs e.dir e.dir.load outputs := by
  rw [h.load_eq]
  exact compactionOutputs_spec hout

theorem Ordered.compact {e e' : Engine} (h : e.Ordered) (he : e.compact = .ok e') :
    e'.Ordered ∧ (∀ k, resolve k (layers e'.sstables) = resolve k (layers e.sstables)) ∧
      e'.memtable = e.memtable ∧ e'.log = e.log := by
  rcases compact_cases he with ⟨-, rfl⟩ | ⟨outputs, -, hout, rfl⟩
  · exact ⟨h, fun _ => rfl, rfl, rfl⟩
  · have hspec := h.outputs hout
    refine ⟨⟨?_, ?_⟩, ?_, rfl, rfl⟩
    · have hload := load_compacted hspec
      rw [h.load_eq] at hload
      exact hload
    · intro t ht hl
      have hl1 := hspec.level t ht
      rw [hl] at hl1
      cases hl1
    · intro k
      have hlive : LiveStack (layers outputs) (layers e.sstables) := by
        rw [← h.load_eq, hspec.contents]
        exact liveStack_merge (sorted_layers _)
      exact hlive.resolve_eq k

/-- A flush moves the memtable to the tables; nothing that is read changes. -/
theorem Ordered.flushMemtable {e e' : Engine} (h : e.Ordered) (he : e.flushMemtable = .ok e') :
    e'.Ordered ∧ (∀ k, e'.get k = e.get k) ∧ e'.memtable.entries = [] ∧
      (e.memtable.entries = [] → e' = e) ∧ (e.memtable.entries ≠ [] → e'.log = []) := by
  rcases flushMemtable_cases he with ⟨hnil, rfl⟩ | ⟨f, hne, hf, he⟩
  · exact ⟨h, fun _ => rfl, hnil, fun _ => rfl, fun hne => absurd hnil hne⟩
  · obtain ⟨hord, hlayers, -, -, -, hmem, -⟩ := h.writeTable hf
    obtain ⟨hord', hsame, hmem', hlog'⟩ := hord.clearLog.compact he
    have hnil : e'.memtable.entries = [] := by
      rw [hmem']
      exact Memtable.entries_new _
    refine ⟨hord', ?_, hnil, fun hn => absurd hn hne, fun _ => hlog'⟩
    intro k
    rw [get_eq, get_eq, contents, contents, hnil, resolve_append_nil, hsame k]
    exact congrArg (resolve k) hlayers

theorem maxBytes_flushMemtable {e e' : Engine} (he : e.flushMemtable = .ok e') :
    e'.memtable.maxBytes = e.memtable.maxBytes := by
  rcases flushMemtable_cases he with ⟨-, rfl⟩ | ⟨f, -, hf, hcompact⟩
  · rfl
  · obtain ⟨hlt, rfl⟩ := writeTable_ok hf
    rcases compact_cases hcompact with ⟨-, rfl⟩ | ⟨outputs, -, -, rfl⟩
    · rfl
    · rfl

/-- The numbers of the compaction that a flush in this state leads to, if any, stay within `int`:
there is room past the level 1 names for a table for every thousand live keys. -/
def CompactionFits (e : Engine) : Prop :=
  l0Threshold ≤ l0Count e.sstables + 1 →
    l1Start e.dir.files + (liveKeys e.contents + (l1MaxFileEntries - 1)) / l1MaxFileEntries ≤ intMax

instance (e : Engine) : Decidable e.CompactionFits := inferInstanceAs (Decidable (_ → _))

theorem Ordered.l1Start_eq {e : Engine} (h : e.Ordered) :
    max (l1Start e.sstables) (l1Start e.dir.files) = l1Start e.dir.files := by
  rw [← h.load_eq, l1Start_load]

theorem Ordered.compact_isOk {e : Engine} (h : e.Ordered)
    (hfits : l0Threshold ≤ l0Count e.sstables → l1Start e.dir.files +
      (liveKeys (layers e.sstables) + (l1MaxFileEntries - 1)) / l1MaxFileEntries ≤ intMax) :
    ∃ e', e.compact = .ok e' := by
  unfold Engine.compact
  split
  · exact ⟨_, rfl⟩
  case isFalse hmany =>
    have hsome : (compactionOutputs e.dir e.sstables).isSome := by
      rw [compactionOutputs_isSome, h.l1Start_eq]
      exact hfits (Nat.le_of_not_lt hmany)
    obtain ⟨outputs, hout⟩ := Option.isSome_iff_exists.mp hsome
    rw [hout]
    exact ⟨_, rfl⟩

/-- A flush is defined when the numbers it takes are. -/
theorem Ordered.flushMemtable_isOk {e : Engine} (h : e.Ordered) (hcounter : e.sstCounter < intMax)
    (hfits : e.CompactionFits) : ∃ e', e.flushMemtable = .ok e' := by
  unfold Engine.flushMemtable
  split
  · exact ⟨e, rfl⟩
  · obtain ⟨f, hf⟩ := writeTable_isOk hcounter
    obtain ⟨hord, hlayers, hcount, hstart, -, -, -⟩ := h.writeTable hf
    rw [hf]
    apply hord.clearLog.compact_isOk
    intro hmany
    show l1Start f.dir.files + _ ≤ intMax
    rw [hstart, show layers f.clearLog.sstables = e.contents from hlayers]
    exact hfits (hcount ▸ hmany)

end Engine

end LsmTree
