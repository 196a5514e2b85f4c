import LsmTree.EngineRefinement
import LsmTree.SharedCache
import LsmTree.StreamFaults
import LsmTree.TableNames

/-!
# The engine on its files

Here the tables of an engine are table files: a flush encodes the memtable and opens what
it has written, a compaction reads its inputs through iterators over the files and writes
its outputs as files, and a start opens whatever the directory holds. A point read goes
through the filter, the index and the block cache of the process; a scan reads through
iterators. Iterators open a file by its name, while point reads use the descriptor that
the table got when it was opened.

A temporary lives within one call and is left out. A run ends with the first call that
throws under the exclusive lock; what the engine has answered until then is kept. A `get`
that throws leaves nothing behind but its traces in the block cache, and the run goes on.
-/

namespace LsmTree
open LittleEndian LayeredMap Merge ByteStream Table LruCache

/-- The sizes that the code does not fix: how many blocks the filter of a table with so many entries
gets, which is computed in floating point, and how many bytes one `pread` moves at most. -/
structure Sizes where
  numBlocks : ℕ → ℕ
  pos : ∀ n, 0 < numBlocks n
  transferMax : ℕ

def Accepted (sizes : Sizes) (es : List Table.Entry) : Prop :=
  Table.write (sizes.numBlocks es.length) (sizes.pos _) es =
    .ok (encode (sizes.numBlocks es.length) (sizes.pos _) es)

/-- Why a call throws, or cannot be followed further: a counter that leaves its range, a log that
cannot be read, a table that cannot be written, opened or read, or a block cache that is broken. -/
inductive FileFailure where
  | undefined
  | recover (error : Wal.RecoverError)
  | write (error : WriteError)
  | cannotOpen
  | read (error : ReadError)
  | cache

/-! ### Files -/

/-- An element of `sstables_`. -/
structure OpenFile where
  name : TableName
  table : OpenTable

def OpenFile.path (t : OpenFile) : String := String.ofList (Naming.fileName t.name)

abbrev FileList := List (TableName × Bytes)

def findFile (files : FileList) (name : TableName) : Option Bytes := (files.find? (·.1 = name)).map Prod.snd

/-- A rename to the name; it replaces what was there. -/
def publishFile (files : FileList) (name : TableName) (file : Bytes) : FileList :=
  files.filter (·.1 ≠ name) ++ [(name, file)]

def removeFile (files : FileList) (name : TableName) : FileList := files.filter (·.1 ≠ name)

def publishAll (files staged : FileList) : FileList := staged.foldl (fun fs p => publishFile fs p.1 p.2) files

def removeAll (files : FileList) (ts : List OpenFile) : FileList :=
  ts.foldl (fun fs t => removeFile fs t.name) files

def openFile (files : FileList) (name : TableName) : Except FileFailure OpenFile :=
  match findFile files name with
  | none => .error .cannotOpen
  | some file =>
    match openTable file with
    | .error err => .error (.read err)
    | .ok t => .ok ⟨name, t⟩

def openAll (files : FileList) : List TableName → Except FileFailure (List OpenFile)
  | [] => .ok []
  | name :: names =>
    match openFile files name with
    | .error f => .error f
    | .ok t =>
      match openAll files names with
      | .error f => .error f
      | .ok ts => .ok (t :: ts)

def destroyAll (cache : LruBlockCache) : List OpenFile → Option LruBlockCache
  | [] => some cache
  | t :: ts =>
    match cache.invalidatePath t.path with
    | none => none
    | some cache' => destroyAll cache' ts

/-- The comparison by which `loadSSTables` sorts. -/
def TableName.Before (a b : TableName) : Prop :=
  if a.level = b.level then a.counter < b.counter else a.level = .l1

instance : DecidableRel TableName.Before :=
  fun a b => inferInstanceAs (Decidable (if a.level = b.level then _ else _))

/-- The first number past all names of a level. -/
def nextNumber (level : Level) : List TableName → ℕ
  | [] => 0
  | n :: ns => if n.level = level then max (n.counter + 1) (nextNumber level ns) else nextNumber level ns

/-! ### The engine -/

/-- `LSMEngine`, its table files and its log file, and the block cache of the process. -/
structure FileEngine where
  memtable : Memtable
  sstables : List OpenFile
  sstCounter : ℕ
  files : FileList
  log : List Wal.Slot
  cache : LruBlockCache

namespace FileEngine

/-- The engine on a new directory, in a process that has cached nothing. -/
def fresh (maxBytes capacity cacheBytes : ℕ) : FileEngine where
  memtable := .new maxBytes
  sstables := []
  sstCounter := 0
  files := []
  log := []
  cache := .new capacity cacheBytes

/-- The loop of `get` over tables, the next one to ask first: what it finds or throws, and the cache it
leaves. -/
def getTables (transferMax : ℕ) (key : Key) : List OpenFile → LruBlockCache → (ℕ → Reserved) →
    Except FileFailure (Except ReadError (Option (Option Bytes)) × LruBlockCache)
  | [], cache, _ => .ok (.ok none, cache)
  | t :: ts, cache, reserved =>
    match t.table.getShared transferMax t.path cache key (reserved 0) with
    | none => .error .cache
    | some (.ok none, cache') => getTables transferMax key ts cache' fun i => reserved (i + 1)
    | some (found, cache') => .ok (found, cache')

def get (transferMax : ℕ) (e : FileEngine) (key : Key) (reserved : ℕ → Reserved) :
    Except FileFailure (FileEngine × Except ReadError (Option Bytes)) :=
  match e.memtable.get key with
  | some v => .ok (e, .ok v)
  | none =>
    match getTables transferMax key e.sstables.reverse e.cache reserved with
    | .error f => .error f
    | .ok (found, cache) => .ok ({ e with cache := cache }, found.map Option.join)

/-- Lookups find what a map has. One that does not find its key in the memtable may throw, where the block
of a table that is to have the key is longer than one `pread` moves. -/
def Answers (transferMax : ℕ) (e : FileEngine) (m : Key → Option Bytes) : Prop :=
  ∀ key reserved, ∃ e' found, e.get transferMax key reserved = .ok (e', found) ∧
    (found = .ok (m key) ∨ found = .error .incompleteRead ∧ e.memtable.get key = none ∧
      ∃ o ∈ e.sstables, o.table.LongBlock transferMax key)

/-- A key in the memtable has one answer. -/
theorem Answers.eq {transferMax : ℕ} {e : FileEngine} {m m' : Key → Option Bytes} (h : e.Answers transferMax m)
    (h' : e.Answers transferMax m') {key : Key} (hkey : e.memtable.get key ≠ none) : m key = m' key := by
  obtain ⟨_, found, hget, hfound⟩ := h key fun _ => ⟨0, fun _ => 0, fun _ => 0⟩
  obtain ⟨_, found', hget', hfound'⟩ := h' key fun _ => ⟨0, fun _ => 0, fun _ => 0⟩
  obtain ⟨-, rfl⟩ := Prod.ext_iff.mp (Except.ok.inj (hget.symm.trans hget'))
  have hok := hfound.resolve_right fun hthrows => hkey hthrows.2.1
  have hok' := hfound'.resolve_right fun hthrows => hkey hthrows.2.1
  exact Except.ok.inj (hok.symm.trans hok')

/-- The stream an iterator opens on a table. -/
def stream (e : FileEngine) (t : OpenFile) : Option IStream := (findFile e.files t.name).map ofFile

def scanSource (e : FileEngine) (start : Key) (t : OpenFile) : List Table.Entry :=
  (t.table.iterateFromOn (e.stream t) start).drain (t.table.fileSize + 1)

def mergeSource (e : FileEngine) (t : OpenFile) : List Table.Entry :=
  (t.table.iterateOn (e.stream t)).drain (t.table.fileSize + 1)

def scan (e : FileEngine) (start : Key) (stop : Option Key) (limit : ℕ) : List (Key × Bytes) :=
  if limit = 0 ∨ pastEnd stop start then []
  else
    let ss := (e.sstables.filter fun t => Reader.mayHold t.table start stop).map (e.scanSource start) ++
      [e.memtable.seek start]
    scanLoop stop limit (remaining ss) ss []

/-- `SSTable::write` of the memtable under the next level 0 name, and its registration. -/
def writeTable (sizes : Sizes) (e : FileEngine) : Except FileFailure FileEngine :=
  if h : e.sstCounter < intMax then
    match Table.write (sizes.numBlocks e.memtable.entries.length) (sizes.pos _) e.memtable.entries with
    | .error err => .error (.write err)
    | .ok file =>
      match openFile (publishFile e.files ⟨.l0, e.sstCounter, h.le⟩ file) ⟨.l0, e.sstCounter, h.le⟩ with
      | .error f => .error f
      | .ok t => .ok { e with
          sstables := e.sstables ++ [t]
          sstCounter := e.sstCounter + 1
          files := publishFile e.files ⟨.l0, e.sstCounter, h.le⟩ file }
  else .error .undefined

/-- `wal_.clear()` and the new memtable. -/
def clearLog (e : FileEngine) : FileEngine := { e with log := [], memtable := .new e.memtable.maxBytes }

/-- The outputs of a compaction as `flushBuffer` writes them, numbered from `n` on. -/
def stageAll (sizes : Sizes) : ℕ → List (List Table.Entry) → Except FileFailure FileList
  | _, [] => .ok []
  | n, es :: rest =>
    if h : n < intMax then
      match Table.write (sizes.numBlocks es.length) (sizes.pos _) es with
      | .error err => .error (.write err)
      | .ok file =>
        match stageAll sizes (n + 1) rest with
        | .error f => .error f
        | .ok staged => .ok ((⟨.l1, n, h.le⟩, file) :: staged)
    else .error .undefined

/-- Where a compaction begins to number. -/
def l1Start (e : FileEngine) : ℕ :=
  max (nextNumber .l1 (e.sstables.map OpenFile.name)) (nextNumber .l1 (e.files.map Prod.fst))

/-- `compactor_.run(sstables_, sst_counter_)`. The inputs are destroyed after their files are
removed. -/
def compact (sizes : Sizes) (e : FileEngine) : Except FileFailure FileEngine :=
  if (e.sstables.filter (·.name.level = .l0)).length < l0Threshold then .ok e
  else if intMax < e.l1Start then .error .undefined
  else
    match stageAll sizes e.l1Start (merge (e.sstables.map e.mergeSource)) with
    | .error f => .error f
    | .ok staged =>
      match openAll (publishAll e.files staged) (staged.map Prod.fst) with
      | .error f => .error f
      | .ok outputs =>
        match destroyAll e.cache e.sstables with
        | none => .error .cache
        | some cache => .ok { e with
            sstables := outputs
            sstCounter := 0
            files := removeAll (publishAll e.files staged) e.sstables
            cache := cache }

def flushMemtable (sizes : Sizes) (e : FileEngine) : Except FileFailure FileEngine :=
  if e.memtable.empty then .ok e
  else match e.writeTable sizes with
    | .error f => .error f
    | .ok e => e.clearLog.compact sizes

def flush (sizes : Sizes) (e : FileEngine) : Except FileFailure FileEngine :=
  if e.memtable.empty then .ok e else e.flushMemtable sizes

/-- The log record and the memtable entry of a write. -/
def append (e : FileEngine) (op : Op) (height : Height) : FileEngine :=
  { e with
    log := e.log ++ [⟨op.entry, .inFlight⟩]
    memtable := e.memtable.update op.key op.value height }

/-- `LSMEngine::put` and `LSMEngine::del` of something that the log can record. -/
def write (sizes : Sizes) (e : FileEngine) (op : Op) (height : Height) : Except FileFailure FileEngine :=
  if (e.append op height).memtable.isFull then (e.append op height).flushMemtable sizes
  else .ok (e.append op height)

/-- `loadSSTables`. -/
def load (files : FileList) : Except FileFailure (List OpenFile) :=
  openAll files ((files.map Prod.fst).insertionSort fun a b => ¬ b.Before a)

/-- The constructor of `LSMEngine`, on the files it finds. -/
def construct (maxBytes : ℕ) (files : FileList) (log : List Wal.Slot) (cache : LruBlockCache)
    (heights : ℕ → Height) : Except FileFailure FileEngine :=
  match Wal.recover (Wal.image log) with
  | .error err => .error (.recover err)
  | .ok entries =>
    match load files with
    | .error f => .error f
    | .ok ts =>
      if nextNumber .l0 (ts.map OpenFile.name) ≤ intMax then
        .ok { memtable := Engine.replay (.new maxBytes) entries heights
              sstables := ts
              sstCounter := nextNumber .l0 (ts.map OpenFile.name)
              files := files
              log := Wal.survive log
              cache := cache }
      else .error .undefined

/-- The destructor of an engine followed by the constructor of the next one, in the same process or,
with an empty cache, in a new one. -/
def reopen (sizes : Sizes) (e : FileEngine) (heights : ℕ → Height) (newProcess : Bool) :
    Except FileFailure FileEngine :=
  match e.flush sizes with
  | .error f => .error f
  | .ok e =>
    match destroyAll e.cache e.sstables with
    | none => .error .cache
    | some cache =>
      construct e.memtable.maxBytes e.files (Engine.drain e.log)
        (if newProcess then .new cache.capacity cache.maxBytes else cache) heights

end FileEngine

/-! ### Requests -/

/-- What a client may ask for. -/
inductive Request where
  | write (op : Op) (height : Height)
  | flush
  | reopen (heights : ℕ → Height) (newProcess : Bool)
  | get (key : Key) (reserved : ℕ → Reserved)
  | scan (start : Key) (stop : Option Key) (limit : ℕ)

inductive Answer where
  | done
  | refused
  | value (v : Option Bytes)
  | pairs (kvs : List (Key × Bytes))
  | threw (error : ReadError)
  deriving DecidableEq

/-- What the caller of `get` sees. -/
def Answer.ofRead : Except ReadError (Option Bytes) → Answer
  | .ok v => .value v
  | .error err => .threw err

/-- One request; a write that the log cannot record is refused and changes nothing. -/
def FileEngine.request (sizes : Sizes) (e : FileEngine) : Request → Except FileFailure (FileEngine × Answer)
  | .write op height =>
    if op.entry.Fits then (e.write sizes op height).map fun e' => (e', .done) else .ok (e, .refused)
  | .flush => (e.flush sizes).map fun e' => (e', .done)
  | .reopen heights newProcess => (e.reopen sizes heights newProcess).map fun e' => (e', .done)
  | .get key reserved => (e.get sizes.transferMax key reserved).map fun r => (r.1, .ofRead r.2)
  | .scan start stop limit => .ok (e, .pairs (e.scan start stop limit))

/-- The answers to some requests up to the first that fails, and the failure. -/
def FileEngine.serve (sizes : Sizes) : FileEngine → List Request → List Answer × Option FileFailure
  | _, [] => ([], none)
  | e, r :: rs =>
    match e.request sizes r with
    | .error f => ([], some f)
    | .ok (e', a) => (a :: (e'.serve sizes rs).1, (e'.serve sizes rs).2)

/-! ### The reference -/

/-- A map as the increasing list of its pairs. -/
abbrev PlainMap := List (Key × Bytes)

namespace PlainMap

def write (m : PlainMap) (op : Op) : PlainMap :=
  match op with
  | .put k v => upsert k v m
  | .del k => m.filter (·.1 ≠ k)

def scan (m : PlainMap) (start : Key) (stop : Option Key) (limit : ℕ) : List (Key × Bytes) :=
  (m.filter fun kv => decide (start ≤ kv.1) && !pastEnd stop kv.1).take limit

def request (m : PlainMap) : Request → PlainMap × Answer
  | .write op _ => if op.entry.Fits then (m.write op, .done) else (m, .refused)
  | .flush => (m, .done)
  | .reopen _ _ => (m, .done)
  | .get key _ => (m, .value (lookup key m))
  | .scan start stop limit => (m, .pairs (m.scan start stop limit))

def serve : PlainMap → List Request → List Answer
  | _, [] => []
  | m, r :: rs => (m.request r).2 :: serve (m.request r).1 rs

end PlainMap

/-- The client is told what the map answers, or a read that may throw has thrown in place of a value. -/
inductive Answer.ToldAs (mayThrow : Prop) : Answer → Answer → Prop
  | same (a : Answer) : ToldAs mayThrow a a
  | threw (h : mayThrow) (v : Option Bytes) : ToldAs mayThrow (.value v) (.threw .incompleteRead)

/-- What is written, if it can be, has a property. -/
def Request.Writes (P : Table.Entry → Prop) : Request → Prop
  | .write op _ => op.entry.Fits → P (op.key, op.value)
  | _ => True

/-- One `pread` moves the block of an entry, wherever in the block the entry comes to stand. -/
def SmallEntry (transferMax : ℕ) (e : Table.Entry) : Prop := targetBlockSize - 1 + entrySize e ≤ transferMax

instance (transferMax : ℕ) : DecidablePred (SmallEntry transferMax) := fun _ => Nat.decLe _ _

end LsmTree
