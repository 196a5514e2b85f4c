import LsmTree.AtomicObject
import LsmTree.FileEngine
import LsmTree.LockHolders

/-!
# Threads that share an engine

Threads call one engine on its files. A call takes `mu_`, exclusively for `put`, `del` and
`flush` and shared for `get` and `scan`, works in steps, and gives it back before it
returns. Readers are interleaved with each other in any way: a lookup in a table takes the
lock of the block cache twice, to look for a block and to leave one there, and other
lookups may come between.

A step that throws under the exclusive lock ends what is followed of the run. A lookup that
throws gives back the lock and tells its caller.
-/

namespace LsmTree
open LittleEndian LayeredMap Merge ByteStream Table LruCache Transition AtomicObject LockHolders

/-! ### A lookup in two steps -/

/-- What `SSTable::get` knows when it has asked the cache: the answer, or which block to read. -/
inductive Probe where
  | answer (v : Option (Option Bytes))
  | miss (offset stop : ℕ)

/-- `SSTable::get` up to the cache; nothing if the cache breaks. -/
def Table.OpenTable.probe (t : OpenTable) (path : String) (cache : LruBlockCache) (key : Key) :
    Option (Probe × LruBlockCache) :=
  if t.bloom.mayContain key.bytes then
    match t.index[blockOf t.index key]? with
    | none => some (.answer none, cache)
    | some p =>
      match cache.get path p.2 with
      | none => none
      | some (cache', some block) => some (.answer (scanBlock key block), cache')
      | some (cache', none) =>
        if t.blockEnd (blockOf t.index key) ≤ p.2 then some (.answer none, cache')
        else some (.miss p.2 (t.blockEnd (blockOf t.index key)), cache')
  else some (.answer none, cache)

/-- The rest of `SSTable::get` after a miss. -/
def Table.OpenTable.fill (transferMax : ℕ) (t : OpenTable) (path : String) (cache : LruBlockCache) (key : Key) (offset stop : ℕ)
    (r : Reserved) : Option (Except ReadError (Option (Option Bytes)) × LruBlockCache) :=
  if (pread transferMax t.file offset (stop - offset)).length < stop - offset then
    some (.error .incompleteRead, cache)
  else
    match cache.put path offset (r.block (t.readBlock transferMax offset stop)) with
    | none => none
    | some (cache', _) => some (.ok (scanBlock key (t.readBlock transferMax offset stop)), cache')

/-- With nothing in between the two steps are the lookup. -/
theorem Table.OpenTable.getShared_eq_probe (transferMax : ℕ) (t : OpenTable) (path : String) (cache : LruBlockCache)
    (key : Key) (r : Reserved) :
    t.getShared transferMax path cache key r =
      match t.probe path cache key with
      | none => none
      | some (.answer v, cache') => some (.ok v, cache')
      | some (.miss offset stop, cache') => t.fill transferMax path cache' key offset stop r := by
  rw [getShared, probe]
  split_ifs
  · cases t.index[blockOf t.index key]? with
    | none => rfl
    | some p =>
      simp only
      cases cache.get path p.2 with
      | none => rfl
      | some found =>
        obtain ⟨cache', block⟩ := found
        cases block with
        | some block => rfl
        | none =>
          simp only
          split_ifs with hstop hshort
          · rfl
          · simp only [fill, if_pos hshort]
          · cases hput : cache'.put path p.2 (r.block (t.readBlock transferMax p.2 (t.blockEnd (blockOf t.index key)))) with
            | none => simp only [fill, if_neg hshort, hput]
            | some y => simp only [fill, if_neg hshort, hput]
  · rfl

/-! ### Calls and their steps -/

namespace EngineThreads

/-- What a call does next under the exclusive lock. -/
inductive Stage where
  | log (op : Op) (height : Height)
  | insert (op : Op) (height : Height)
  | test
  | table
  | clear
  | compact

/-- Where a thread stands. In a `get` the tables at positions below `left` are still to be asked. -/
inductive Pc where
  | idle
  | called (r : Request)
  | working (r : Request) (stage : Stage)
  | looking (key : Key) (reserved : ℕ → Reserved)
  | probing (key : Key) (reserved : ℕ → Reserved) (left : ℕ)
  | filling (key : Key) (reserved : ℕ → Reserved) (left offset stop : ℕ)
  | scanning (start : Key) (stop : Option Key) (limit : ℕ)
  | returning (a : Answer)

/-- `mu_` is held exclusively. -/
def Pc.exclusive : Pc → Bool
  | working _ _ => true
  | _ => false

/-- `mu_` is held shared. -/
def Pc.shared : Pc → Bool
  | looking _ _ | probing _ _ _ | filling _ _ _ _ _ | scanning _ _ _ => true
  | _ => false

/-- The call is one of those that threads may make while others do: an engine is not closed while
it is used. -/
def InUse : Request → Bool
  | .reopen _ _ => false
  | _ => true

/-- Where a call is once it has `mu_`. -/
def begin (r : Request) : Pc :=
  match r with
  | .write op height => .working r (.log op height)
  | .flush => .working r .test
  | .reopen _ _ => .called r
  | .get key reserved => .looking key reserved
  | .scan start stop limit => .scanning start stop limit

/-- One step under the exclusive lock, and what is next: a stage, or giving back the lock with an
answer. -/
def work (sizes : Sizes) (e : FileEngine) : Stage → Except FileFailure (FileEngine × (Stage ⊕ Answer))
  | .log op height =>
    if op.entry.Fits then .ok ({ e with log := e.log ++ [⟨op.entry, .inFlight⟩] }, .inl (.insert op height))
    else .ok (e, .inr .refused)
  | .insert op height =>
    let e' := { e with memtable := e.memtable.update op.key op.value height }
    .ok (e', if e'.memtable.isFull then .inl .table else .inr .done)
  | .test => .ok (e, if e.memtable.empty then .inr .done else .inl .table)
  | .table => if e.memtable.empty then .ok (e, .inr .done) else (e.writeTable sizes).map fun e' => (e', .inl .clear)
  | .clear => .ok (e.clearLog, .inl .compact)
  | .compact => (e.compact sizes).map fun e' => (e', .inr .done)

/-- What a lookup does with what a table has for the key. -/
def found (key : Key) (reserved : ℕ → Reserved) (left : ℕ) : Option (Option Bytes) → Pc
  | some v => .returning (.value v)
  | none => .probing key reserved left

/-- One step of a thread that works, with the engine after it. Nothing is read from a table that is
not there. -/
def step (sizes : Sizes) (e : FileEngine) : Pc → Except FileFailure (FileEngine × Pc)
  | .working r stage => (work sizes e stage).map fun x => (x.1, x.2.elim (.working r) .returning)
  | .looking key reserved =>
    match e.memtable.get key with
    | some v => .ok (e, .returning (.value v))
    | none => .ok (e, .probing key reserved e.sstables.length)
  | .probing _ _ 0 => .ok (e, .returning (.value none))
  | .probing key reserved (left + 1) =>
    match e.sstables[left]? with
    | none => .error .undefined
    | some t =>
      match t.table.probe t.path e.cache key with
      | none => .error .cache
      | some (.answer v, cache) => .ok ({ e with cache := cache }, found key reserved left v)
      | some (.miss offset stop, cache) => .ok ({ e with cache := cache }, .filling key reserved left offset stop)
  | .filling key reserved left offset stop =>
    match e.sstables[left]? with
    | none => .error .undefined
    | some t =>
      match t.table.fill sizes.transferMax t.path e.cache key offset stop (reserved left) with
      | none => .error .cache
      | some (.error err, cache) => .ok ({ e with cache := cache }, .returning (.threw err))
      | some (.ok v, cache) => .ok ({ e with cache := cache }, found key reserved left v)
  | .scanning start stop limit => .ok (e, .returning (.pairs (e.scan start stop limit)))
  | p => .ok (e, p)

structure State (n : ℕ) where
  engine : FileEngine
  pc : Fin n → Pc
  failure : Option FileFailure

/-- A new engine that no thread uses yet. -/
def initial (n maxBytes capacity cacheBytes : ℕ) : State n :=
  ⟨.fresh maxBytes capacity cacheBytes, fun _ => .idle, none⟩

inductive Event (n : ℕ) where
  | call (t : Fin n) (r : Request)
  | lock (t : Fin n)
  | step (t : Fin n)
  | ret (t : Fin n) (a : Answer)

section System
variable {n : ℕ}

/-- The thread waits for `mu_` and can have it. -/
def CanLock (pc : Fin n → Pc) : Pc → Prop
  | .called r => Nowhere Pc.exclusive pc ∧ ((begin r).exclusive = true → Nowhere Pc.shared pc)
  | _ => False

def EventEnabled (s : State n) : Event n → Prop
  | .call t r => s.pc t = .idle ∧ InUse r = true
  | .lock t => CanLock s.pc (s.pc t)
  | .step t => (s.pc t).exclusive = true ∨ (s.pc t).shared = true
  | .ret t a => s.pc t = .returning a

def Enabled (s : State n) (e : Event n) : Prop := s.failure.isNone = true ∧ EventEnabled s e

def next (sizes : Sizes) (s : State n) : Event n → State n
  | .call t r => { s with pc := Function.update s.pc t (.called r) }
  | .lock t =>
    match s.pc t with
    | .called r => { s with pc := Function.update s.pc t (begin r) }
    | _ => s
  | .step t =>
    match step sizes s.engine (s.pc t) with
    | .error err => { s with failure := some err }
    | .ok (e, p) => { s with engine := e, pc := Function.update s.pc t p }
  | .ret t _ => { s with pc := Function.update s.pc t .idle }

def system (n : ℕ) (sizes : Sizes) : System (State n) (Event n) := ⟨Enabled, next sizes⟩

/-- What a client sees. -/
def Event.seen? : Event n → Option (Seen (Fin n) Request Answer)
  | .call t r => some (.call t r)
  | .ret t a => some (.ret t a)
  | _ => none

instance : (p : Pc) → Decidable (p = .idle)
  | .idle => isTrue rfl
  | .called _ | .working _ _ | .looking _ _ | .probing _ _ _ | .filling _ _ _ _ _ | .scanning _ _ _
  | .returning _ => isFalse nofun

instance (a : Answer) : (p : Pc) → Decidable (p = .returning a)
  | .returning b => decidable_of_iff (b = a) ⟨congrArg _, fun h => by cases h; rfl⟩
  | .idle | .called _ | .working _ _ | .looking _ _ | .probing _ _ _ | .filling _ _ _ _ _
  | .scanning _ _ _ => isFalse nofun

instance (pc : Fin n → Pc) : (p : Pc) → Decidable (CanLock pc p)
  | .called _ => inferInstanceAs (Decidable (_ ∧ _))
  | .idle | .working _ _ | .looking _ _ | .probing _ _ _ | .filling _ _ _ _ _ | .scanning _ _ _
  | .returning _ => inferInstanceAs (Decidable False)

instance (s : State n) : (e : Event n) → Decidable (EventEnabled s e)
  | .call _ _ => inferInstanceAs (Decidable (_ ∧ _))
  | .lock t => inferInstanceAs (Decidable (CanLock s.pc (s.pc t)))
  | .step _ => inferInstanceAs (Decidable (_ ∨ _))
  | .ret t a => inferInstanceAs (Decidable (s.pc t = .returning a))

instance (sizes : Sizes) (s : State n) (e : Event n) : Decidable ((system n sizes).Enabled s e) :=
  inferInstanceAs (Decidable (_ ∧ _))

end System

end EngineThreads

end LsmTree
