import LsmTree.EngineThreads
import LsmTree.FileEngineRefinement

/-!
# Threads see a map

A call of a write takes effect when it gives back the lock, one of a read when it has its
answer. While a thread writes no other thread is past its wait, so what is left of the
write, from the engine as it is, is the whole write from the engine as it was. While
threads read only the block cache changes, and it only ever holds blocks of the open
tables; so what is left of a lookup, in the tables still to be asked, is the whole lookup.
-/

namespace LsmTree
open LittleEndian LayeredMap Merge ByteStream Table LruCache Transition AtomicObject LockHolders

/-! ### A lookup in two steps -/

/-- The block that a lookup misses: where one `pread` moves it, it is a block of the table and has the
answer. -/
structure Missed (transferMax : ℕ) (t : OpenTable) (es : List Table.Entry) (key : Key) (offset stop : ℕ) : Prop where
  lt : offset < stop
  answer : t.Readable transferMax offset stop → scanBlock key (t.readBlock transferMax offset stop) = lookup key es
  provides : t.Readable transferMax offset stop → t.Provides transferMax offset (t.readBlock transferMax offset stop)
  long : ¬ t.Readable transferMax offset stop → t.LongBlock transferMax key

section Lookup
variable {transferMax : ℕ} {t : OpenTable} {es : List Table.Entry} {cache : LruBlockCache}

theorem probe_spec {path : String} (hholds : t.Holds es) (hcoupled : Coupled cache)
    (hprovides : ∀ n ∈ cache.list, n.key.sstablePath = path →
      t.Provides transferMax n.key.blockOffset n.value.entries) (key : Key) :
    ∃ p cache', t.probe path cache key = some (p, cache') ∧ Coupled cache' ∧ (∀ n ∈ cache'.list, n ∈ cache.list) ∧
      match p with
      | .answer v => v = lookup key es
      | .miss offset stop => Missed transferMax t es key offset stop := by
  have hspec := hholds.get_spec (coherent_view hholds hprovides) key
  rw [OpenTable.get] at hspec
  rw [OpenTable.probe]
  split_ifs with hmay
  · rw [if_pos hmay] at hspec
    cases hp : t.index[blockOf t.index key]? with
    | none =>
      rw [hp] at hspec
      exact ⟨_, cache, rfl, hcoupled, fun n hn => hn, by simpa using hspec⟩
    | some p =>
      obtain ⟨cache', hget, hcoupled', hlist, -⟩ := hcoupled.get_spec ⟨path, p.2⟩
      have hmem : ∀ n ∈ cache'.list, n ∈ cache.list := by
        intro n hn
        rw [hlist, List.mem_append, List.mem_filter, List.mem_filter] at hn
        rcases hn with hn | hn
        · exact hn.1
        · exact hn.1
      have hget' : LruBlockCache.get cache path p.2 = some (cache', cache.view path p.2) := by
        rw [LruBlockCache.get, hget]
        simp [LruBlockCache.view, Function.comp_def]
      rw [hp] at hspec
      simp only [hget'] at hspec ⊢
      cases hview : cache.view path p.2 with
      | some block =>
        rw [hview] at hspec
        exact ⟨_, cache', rfl, hcoupled', hmem, by simpa using hspec⟩
      | none =>
        rw [hview] at hspec
        simp only at hspec ⊢
        split_ifs at hspec ⊢ with hstop hshort
        · exact ⟨_, cache', rfl, hcoupled', hmem, by simpa using hspec⟩
        · have hlong : t.LongBlock transferMax key := by simpa using hspec
          refine ⟨_, cache', rfl, hcoupled', hmem, Nat.lt_of_not_le hstop, ?_, ?_, fun _ => hlong⟩
          · exact fun hread => absurd hshort hread.2
          · exact fun hread => absurd hshort hread.2
        · have hanswer : scanBlock key (t.readBlock transferMax p.2 (t.blockEnd (blockOf t.index key))) =
              lookup key es := by simpa using hspec
          refine ⟨_, cache', rfl, hcoupled', hmem, Nat.lt_of_not_le hstop, fun _ => hanswer, ?_, ?_⟩
          · exact fun hread => ⟨_, p, hp, rfl, hread, rfl⟩
          · exact fun hunread => absurd ⟨Nat.lt_of_not_le hstop, hshort⟩ hunread
  · rw [if_neg hmay] at hspec
    exact ⟨_, cache, rfl, hcoupled, fun n hn => hn, by simpa using hspec⟩

theorem fill_spec (path : String) {key : Key} {offset stop : ℕ} (h : Missed transferMax t es key offset stop)
    (hcoupled : Coupled cache) (r : Reserved) :
    ∃ found cache', t.fill transferMax path cache key offset stop r = some (found, cache') ∧ Coupled cache' ∧
      (∀ n ∈ cache'.list, n ∈ cache.list ∨
        n.key.sstablePath = path ∧ t.Provides transferMax n.key.blockOffset n.value.entries) ∧
      (found = .ok (lookup key es) ∨ found = .error .incompleteRead ∧ t.LongBlock transferMax key) := by
  rw [OpenTable.fill]
  split_ifs with hshort
  · exact ⟨_, cache, rfl, hcoupled, fun n hn => .inl hn, .inr ⟨rfl, h.long fun hread => hread.2 hshort⟩⟩
  have hread : t.Readable transferMax offset stop := ⟨h.lt, hshort⟩
  obtain ⟨cache', m, out, hput, hcoupled', hkey, hvalue, -, hlist, -⟩ :=
    hcoupled.put_spec ⟨path, offset⟩ (r.block (t.readBlock transferMax offset stop)) _
  have hput' : LruBlockCache.put cache path offset _ = some (cache', _) := hput
  rw [hput', ← h.answer hread]
  refine ⟨_, cache', rfl, hcoupled', ?_, .inl rfl⟩
  intro n hn
  have hn' : n ∈ m :: cache.list.filter (·.key ≠ ⟨path, offset⟩) := hlist ▸ List.mem_append_left _ hn
  rcases List.mem_cons.mp hn' with rfl | hn'
  · refine .inr ⟨by rw [hkey], ?_⟩
    rw [hkey, hvalue]
    exact h.provides hread
  · exact .inl (List.mem_filter.mp hn').1

end Lookup

namespace EngineThreads

/-! ### The relation -/

/-- The engine on files, the engine on lists and the map stand for each other, and no call is under
way. -/
structure Standing (sizes : Sizes) (P : Table.Entry → Prop) (f : FileEngine) (e : Engine) (m : PlainMap) : Prop where
  represents : Represents sizes f e
  steady : e.Steady
  fits : ∀ x ∈ e.memtable.entries, Fits x
  each : e.Each P
  lookup_eq : ∀ k, lookup k m = e.get k
  sorted : Sorted m

section Standing
variable {sizes : Sizes} {P : Table.Entry → Prop} {f : FileEngine} {e : Engine} {m : PlainMap}

theorem Standing.serves (h : Standing sizes P f e m) : Serves sizes P f m :=
  ⟨⟨e, h.represents, h.steady, h.fits, h.each, h.lookup_eq⟩, h.sorted⟩

theorem exists_standing (h : Serves sizes P f m) : ∃ e, Standing sizes P f e m := by
  obtain ⟨e, hrep, hsteady, hfits, heach, hlookup⟩ := h.engine
  exact ⟨e, hrep, hsteady, hfits, heach, hlookup, h.sorted⟩

/-- A lookup leaves the block cache with blocks of the open tables. -/
theorem Standing.withCache (h : Standing sizes P f e m) {cache : LruBlockCache}
    (hcached : CachedFor sizes.transferMax f.sstables cache) : Standing sizes P { f with cache := cache } e m :=
  ⟨⟨h.represents.memtable, h.represents.sstCounter, h.represents.log, h.represents.files, h.represents.accepted,
    h.represents.opened, hcached⟩, h.steady, h.fits, h.each, h.lookup_eq, h.sorted⟩

end Standing

/-- What is left of a call under the exclusive lock. -/
def rest (sizes : Sizes) (f : FileEngine) : Stage → Except FileFailure (FileEngine × Answer)
  | .log op height => f.request sizes (.write op height)
  | .insert op height =>
    let f' := { f with memtable := f.memtable.update op.key op.value height }
    if f'.memtable.isFull then (f'.flushMemtable sizes).map fun g => (g, .done) else .ok (f', .done)
  | .test => (f.flush sizes).map fun g => (g, .done)
  | .table => (f.flushMemtable sizes).map fun g => (g, .done)
  | .clear => (f.clearLog.compact sizes).map fun g => (g, .done)
  | .compact => (f.compact sizes).map fun g => (g, .done)

/-- A step of the call and what is left then are what was left before. -/
theorem rest_eq_work (sizes : Sizes) (f : FileEngine) (stage : Stage) :
    rest sizes f stage =
      match work sizes f stage with
      | .error err => .error err
      | .ok (g, .inl stage') => rest sizes g stage'
      | .ok (g, .inr a) => .ok (g, a) := by
  cases stage with
  | log op height =>
    rw [rest, work, FileEngine.request]
    split_ifs
    · rw [FileEngine.write]
      split_ifs with hfull
      · exact (if_pos hfull).symm
      · exact (if_neg hfull).symm
    · rfl
  | insert op height =>
    simp only [rest, work]
    split_ifs <;> rfl
  | test =>
    simp only [rest, work, FileEngine.flush]
    split_ifs <;> rfl
  | table =>
    simp only [rest, work, FileEngine.flushMemtable]
    split_ifs
    · rfl
    · cases f.writeTable sizes <;> rfl
  | clear => rfl
  | compact =>
    rw [rest, work]
    cases f.compact sizes <;> rfl

/-- What the newest of the tables below a position has for a key. -/
def below (e : Engine) (left : ℕ) (key : Key) : Option Bytes :=
  ((e.sstables.take left).reverse.findSome? (·.get key)).join

/-- Where a thread stands next to the call it makes of a map. For a call under the exclusive lock `f` is
the engine it started on and `g` the engine as it is. -/
inductive Matches (sizes : Sizes) (P : Table.Entry → Prop) (f g : FileEngine) (e : Engine) (m : PlainMap) :
    Pc → Status Request Answer → Prop
  | idle : Matches sizes P f g e m .idle .idle
  | called {r : Request} (hr : r.Writes P) : Matches sizes P f g e m (.called r) (.called r)
  | working {r : Request} {stage : Stage} (hr : r.Writes P) (hrest : rest sizes g stage = f.request sizes r) :
    Matches sizes P f g e m (.working r stage) (.called r)
  | looking (key : Key) (reserved : ℕ → Reserved) :
    Matches sizes P f g e m (.looking key reserved) (.called (.get key reserved))
  | probing {key : Key} {reserved : ℕ → Reserved} {left : ℕ} (hleft : left ≤ e.sstables.length)
    (hlookup : lookup key m = below e left key) :
    Matches sizes P f g e m (.probing key reserved left) (.called (.get key reserved))
  | filling {key : Key} {reserved : ℕ → Reserved} {left offset stop : ℕ} {t : SSTable}
    (ht : e.sstables[left]? = some t) (hlookup : lookup key m = below e (left + 1) key)
    (hmissed : ∀ o, OpenedAs sizes o t → Missed sizes.transferMax o.table t.entries key offset stop) :
    Matches sizes P f g e m (.filling key reserved left offset stop) (.called (.get key reserved))
  | scanning (start : Key) (stop : Option Key) (limit : ℕ) :
    Matches sizes P f g e m (.scanning start stop limit) (.called (.scan start stop limit))
  | returning {a told : Answer} (htold : Answer.ToldAs (MayThrow sizes P) a told) :
    Matches sizes P f g e m (.returning told) (.answered a)

section Matches
variable {sizes : Sizes} {P : Table.Entry → Prop} {f f' g g' : FileEngine} {e e' : Engine} {m m' : PlainMap} {p : Pc}
  {x : Status Request Answer}

theorem Matches.of_not_exclusive (h : Matches sizes P f g e m p x) (hp : p.exclusive = false) :
    Matches sizes P f' g' e m p x := by
  cases h with
  | idle => exact .idle
  | called hr => exact .called hr
  | working hr hrest => cases hp
  | looking key reserved => exact .looking key reserved
  | probing hleft hlookup => exact .probing hleft hlookup
  | filling ht hlookup hmissed => exact .filling ht hlookup hmissed
  | scanning start stop limit => exact .scanning start stop limit
  | returning htold => exact .returning htold

theorem Matches.of_not_locked (h : Matches sizes P f g e m p x) (hp : p.exclusive = false) (hp' : p.shared = false) :
    Matches sizes P f' g' e' m' p x := by
  cases h with
  | idle => exact .idle
  | called hr => exact .called hr
  | returning htold => exact .returning htold
  | working hr hrest => cases hp
  | _ => cases hp'

end Matches

/-- The threads next to an atomic map. -/
structure Simulates {n : ℕ} (sizes : Sizes) (P : Table.Entry → Prop) (s : State n)
    (a : AtomicObject.State (Fin n) PlainMap Request Answer) : Prop where
  exclusive : AtMostOne Pc.exclusive s.pc
  readers : KeepsOut Pc.exclusive Pc.shared s.pc
  threads : ∃ f e, Standing sizes P f e a.value ∧ (Nowhere Pc.exclusive s.pc → s.engine = f) ∧
    ∀ t, Matches sizes P f s.engine e a.value (s.pc t) (a.status t)

theorem simulates_initial (n : ℕ) (sizes : Sizes) (P : Table.Entry → Prop) (maxBytes capacity cacheBytes : ℕ) :
    Simulates sizes P (initial n maxBytes capacity cacheBytes) (AtomicObject.initial []) := by
  refine ⟨fun _ _ h => absurd h Bool.false_ne_true, fun _ _ h => absurd h Bool.false_ne_true, ?_⟩
  obtain ⟨e, he⟩ := exists_standing (@Serves.fresh sizes P maxBytes capacity cacheBytes)
  exact ⟨_, e, he, fun _ => rfl, fun _ => .idle⟩

/-! ### Readers -/

section Readers
variable {sizes : Sizes} {P : Table.Entry → Prop} {g : FileEngine} {e : Engine} {m : PlainMap}

theorem below_succ {left : ℕ} {t : SSTable} (ht : e.sstables[left]? = some t) (key : Key) :
    below e (left + 1) key =
      match lookup key t.entries with
      | some v => v
      | none => below e left key := by
  rw [below, List.take_add_one, ht, List.reverse_append]
  simp only [Option.toList_some, List.reverse_singleton, List.singleton_append, List.findSome?_cons, SSTable.get]
  cases lookup key t.entries <;> rfl

theorem exists_opened {os : List OpenFile} {ts : List SSTable} (h : List.Forall₂ (OpenedAs sizes) os ts) {i : ℕ}
    {t : SSTable} (ht : ts[i]? = some t) : ∃ o, os[i]? = some o ∧ OpenedAs sizes o t := by
  induction h generalizing i with
  | nil => cases ht
  | cons hot _ ih =>
    cases i with
    | zero =>
      cases ht
      exact ⟨_, rfl, hot⟩
    | succ i => exact ih ht

theorem found_exclusive (key : Key) (reserved : ℕ → Reserved) (left : ℕ) (v : Option (Option Bytes)) :
    (found key reserved left v).exclusive = false := by
  cases v <;> rfl

/-- What a table answers sends the lookup on or back. -/
theorem matches_found {key : Key} {reserved : ℕ → Reserved} {left : ℕ} {t : SSTable} (ht : e.sstables[left]? = some t)
    (hlookup : lookup key m = below e (left + 1) key) :
    Matches sizes P g g e m (found key reserved left (lookup key t.entries)) (.called (.get key reserved)) ∨
      ∃ a, found key reserved left (lookup key t.entries) = .returning a ∧
        Answer.ToldAs (MayThrow sizes P) (m.request (.get key reserved)).2 a := by
  rw [below_succ ht] at hlookup
  cases hfound : lookup key t.entries with
  | some v =>
    rw [hfound] at hlookup
    exact .inr ⟨_, rfl, by rw [PlainMap.request, hlookup]; exact .same _⟩
  | none =>
    rw [hfound] at hlookup
    exact .inl (.probing (List.getElem?_eq_some_iff.mp ht).1.le hlookup)

/-- A step of a reader ends well, leaves the tables alone, and brings the reader on, to the answer of the
map or to what it throws. -/
theorem step_read (h : Standing sizes P g e m) {p : Pc} {x : Status Request Answer} (hp : p.shared = true)
    (hmatch : Matches sizes P g g e m p x) :
    ∃ r cache p', x = .called r ∧ step sizes g p = .ok ({ g with cache := cache }, p') ∧
      CachedFor sizes.transferMax g.sstables cache ∧ p'.exclusive = false ∧ (m.request r).1 = m ∧
      (Matches sizes P g g e m p' x ∨
        ∃ told, p' = .returning told ∧ Answer.ToldAs (MayThrow sizes P) (m.request r).2 told) := by
  have hord := h.steady.toOrdered
  have hcached := h.represents.cached
  cases hmatch with
  | idle => cases hp
  | called hr => cases hp
  | working hr hrest => cases hp
  | returning htold => cases hp
  | looking key reserved =>
    have hget := h.lookup_eq key
    rw [Engine.get, ← h.represents.memtable] at hget
    rw [step]
    cases hfound : g.memtable.get key with
    | some v =>
      rw [hfound] at hget
      exact ⟨_, g.cache, _, rfl, rfl, hcached, rfl, rfl, .inr ⟨_, rfl, by rw [PlainMap.request, hget]; exact .same _⟩⟩
    | none =>
      rw [hfound] at hget
      have hlength : g.sstables.length = e.sstables.length := h.represents.opened.length_eq
      refine ⟨_, g.cache, _, rfl, rfl, hcached, rfl, rfl, .inl (.probing hlength.le ?_)⟩
      rw [hget, below, hlength, List.take_length]
  | @probing key reserved left hleft hlookup =>
    cases left with
    | zero =>
      refine ⟨_, g.cache, _, rfl, rfl, hcached, rfl, rfl, .inr ⟨_, rfl, ?_⟩⟩
      rw [PlainMap.request, hlookup]
      exact .same _
    | succ left =>
      have ht : e.sstables[left]? = some (e.sstables.get ⟨left, hleft⟩) := List.getElem?_eq_getElem hleft
      generalize e.sstables.get ⟨left, hleft⟩ = t at ht
      obtain ⟨o, ho, hot⟩ := exists_opened h.represents.opened ht
      have hmem := List.mem_of_getElem? ho
      obtain ⟨found, cache, hprobe, hcoupled, hsub, hfound⟩ :=
        probe_spec hot.holds hcached.coupled (h.represents.provides hord hcached hmem) key
      have hcached' : CachedFor sizes.transferMax g.sstables cache := ⟨hcoupled, fun n hn => hcached.cached n (hsub n hn)⟩
      cases found with
      | answer v =>
        refine ⟨_, cache, found key reserved left v, rfl, by simp only [step, ho, hprobe], hcached',
          found_exclusive _ _ _ v, rfl, ?_⟩
        have hv : v = lookup key t.entries := hfound
        rw [hv]
        exact matches_found ht hlookup
      | miss offset stop =>
        refine ⟨_, cache, .filling key reserved left offset stop, rfl, by simp only [step, ho, hprobe], hcached', rfl, rfl,
          .inl (.filling ht hlookup ?_)⟩
        intro o' hot'
        have hopen := hot'.open_eq
        rw [hot.open_eq] at hopen
        rw [← Except.ok.inj hopen]
        exact hfound
  | @filling key reserved left offset stop t ht hlookup hmissed =>
    obtain ⟨o, ho, hot⟩ := exists_opened h.represents.opened ht
    have hmem := List.mem_of_getElem? ho
    obtain ⟨v, cache, hfill, hcoupled, hnew, hfound⟩ :=
      fill_spec o.path (hmissed o hot) hcached.coupled (reserved left)
    have hcached' : CachedFor sizes.transferMax g.sstables cache := by
      refine ⟨hcoupled, fun n hn => ?_⟩
      rcases hnew n hn with hn | ⟨hpath, hown⟩
      · exact hcached.cached n hn
      · exact ⟨o, hmem, hpath, hown⟩
    rcases hfound with rfl | ⟨rfl, hlong⟩
    · exact ⟨_, cache, found key reserved left (lookup key t.entries), rfl, by simp only [step, ho, hfill], hcached',
        found_exclusive _ _ _ _, rfl, matches_found ht hlookup⟩
    · exact ⟨_, cache, .returning (.threw .incompleteRead), rfl, by simp only [step, ho, hfill], hcached', rfl, rfl,
        .inr ⟨_, rfl, .threw (h.represents.mayThrow h.each hmem hlong) _⟩⟩
  | scanning start stop limit =>
    refine ⟨_, g.cache, _, rfl, rfl, hcached, rfl, rfl, .inr ⟨_, rfl, ?_⟩⟩
    rw [PlainMap.request, h.serves.scan]
    exact .same _

end Readers

/-! ### Steps of the system -/

section Simulation
variable {n : ℕ} {sizes : Sizes} {P : Table.Entry → Prop} {s : State n}
  {a : AtomicObject.State (Fin n) PlainMap Request Answer} {t : Fin n} {p : Pc} {x : Status Request Answer}

/-- One thread and its call move, the others are as they were. -/
theorem matches_update {f g : FileEngine} {e : Engine} {m : PlainMap}
    (hothers : ∀ u, u ≠ t → Matches sizes P f g e m (s.pc u) (a.status u))
    (hmatch : Matches sizes P f g e m p x) (u : Fin n) :
    Matches sizes P f g e m (Function.update s.pc t p u) (Function.update a.status t x u) := by
  by_cases hu : u = t
  · rw [hu, Function.update_self, Function.update_self]
    exact hmatch
  · rw [Function.update_of_ne hu, Function.update_of_ne hu]
    exact hothers u hu

/-- One thread moves within its call. -/
theorem matches_move {f g : FileEngine} {e : Engine} {m : PlainMap}
    (hothers : ∀ u, u ≠ t → Matches sizes P f g e m (s.pc u) (a.status u))
    (hmatch : Matches sizes P f g e m p (a.status t)) (u : Fin n) :
    Matches sizes P f g e m (Function.update s.pc t p u) (a.status u) := by
  have hupdated := matches_update hothers hmatch u
  rwa [Function.update_eq_self] at hupdated

theorem nowhere_of_update (h : Nowhere Pc.exclusive (Function.update s.pc t p))
    (ht : (s.pc t).exclusive = false) : Nowhere Pc.exclusive s.pc := fun u => by
  by_cases hu : u = t
  · rwa [hu]
  · have hother := h u
    rwa [Function.update_of_ne hu] at hother

/-- A thread outside the lock calls or returns. -/
theorem Simulates.outside (h : Simulates sizes P s a) (ht : (s.pc t).exclusive = false) (hp : p.exclusive = false)
    (hp' : p.shared = false) (hmatch : ∀ f e, Matches sizes P f s.engine e a.value p x) :
    Simulates sizes P { s with pc := Function.update s.pc t p }
      { a with status := Function.update a.status t x } := by
  obtain ⟨f, e, hstanding, hquiet, hall⟩ := h.threads
  refine ⟨h.exclusive.update ?_, h.readers.update ?_ ?_, f, e, hstanding, ?_, ?_⟩
  · exact fun hheld => absurd (hp.symm.trans hheld) Bool.false_ne_true
  · exact fun hheld => absurd (hp.symm.trans hheld) Bool.false_ne_true
  · exact fun hheld => absurd (hp'.symm.trans hheld) Bool.false_ne_true
  · exact fun hnone => hquiet (nowhere_of_update hnone ht)
  · exact matches_update (fun u _ => hall u) (hmatch f e)

/-- A thread gets the lock. -/
theorem Simulates.enter (h : Simulates sizes P s a) (hfree : Nowhere Pc.exclusive s.pc)
    (hreaders : p.exclusive = true → Nowhere Pc.shared s.pc) (hone : p.exclusive = true → p.shared = false)
    (hmatch : ∀ e, Matches sizes P s.engine s.engine e a.value p (a.status t)) :
    Simulates sizes P { s with pc := Function.update s.pc t p } a := by
  obtain ⟨f, e, hstanding, hquiet, hall⟩ := h.threads
  obtain rfl := hquiet hfree
  refine ⟨h.exclusive.update ?_, h.readers.update ?_ ?_, s.engine, e, hstanding, fun _ => rfl, ?_⟩
  · exact fun _ => .inr hfree
  · exact fun hheld => ⟨hone hheld, .inr (hreaders hheld)⟩
  · exact fun _ => .inr hfree
  · exact matches_move (fun u _ => hall u) (hmatch e)

/-- A step of a reader. -/
theorem Simulates.read (h : Simulates sizes P s a) (ht : (s.pc t).shared = true) :
    ∃ g p steps b, step sizes s.engine (s.pc t) = .ok (g, p) ∧
      Run (AtomicObject.system PlainMap.request) (fun _ _ => True) a steps b ∧ steps.filterMap Step.seen? = [] ∧
      Simulates sizes P { s with engine := g, pc := Function.update s.pc t p } b := by
  obtain ⟨f, e, hstanding, hquiet, hall⟩ := h.threads
  have hfree : Nowhere Pc.exclusive s.pc := fun u =>
    Bool.eq_false_iff.mpr fun hu => absurd ((h.readers u t hu).symm.trans ht) Bool.false_ne_true
  obtain rfl := hquiet hfree
  obtain ⟨r, cache, p, hcalled, hstep, hcached, hp, hvalue, hon⟩ := step_read hstanding ht (hall t)
  have hothers : ∀ u, u ≠ t → Matches sizes P { s.engine with cache := cache } { s.engine with cache := cache } e a.value
      (s.pc u) (a.status u) := fun u _ => (hall u).of_not_exclusive (hfree u)
  have hexclusive : AtMostOne Pc.exclusive (Function.update s.pc t p) :=
    h.exclusive.update fun hheld => absurd (hp.symm.trans hheld) Bool.false_ne_true
  have hreaders : KeepsOut Pc.exclusive Pc.shared (Function.update s.pc t p) :=
    h.readers.update (fun hheld => absurd (hp.symm.trans hheld) Bool.false_ne_true) fun _ => .inl ht
  rcases hon with hmatch | ⟨told, rfl, htold⟩
  · exact ⟨_, p, [], a, hstep, .nil a, rfl, hexclusive, hreaders, _, e, hstanding.withCache hcached, fun _ => rfl,
      matches_move hothers (hmatch.of_not_exclusive hp)⟩
  · refine ⟨_, _, [.effect t], _, hstep, run_effect hcalled, rfl, hexclusive, hreaders, _, e, ?_, fun _ => rfl, ?_⟩
    · rw [hvalue]
      exact hstanding.withCache hcached
    · rw [hvalue]
      exact matches_update hothers (.returning htold)

/-- A step under the exclusive lock. -/
theorem Simulates.write (h : Simulates sizes P s a) {r : Request} {stage : Stage} (hq : s.pc t = .working r stage) :
    match step sizes s.engine (s.pc t) with
    | .error err => err.OutOfRange
    | .ok (g, p) => ∃ steps b, Run (AtomicObject.system PlainMap.request) (fun _ _ => True) a steps b ∧
        steps.filterMap Step.seen? = [] ∧ Simulates sizes P { s with engine := g, pc := Function.update s.pc t p } b := by
  obtain ⟨f, e, hstanding, -, hall⟩ := h.threads
  have ht : (s.pc t).exclusive = true := by rw [hq, Pc.exclusive]
  have hself := hall t
  rw [hq] at hself
  generalize hcalled : a.status t = x at hself
  cases hself with
  | working hr hrest =>
    rw [rest_eq_work] at hrest
    have hserved := hstanding.serves.request hr
    rw [← hrest] at hserved
    simp only [hq, step]
    cases hwork : work sizes s.engine stage with
    | error err =>
      rw [hwork] at hserved
      exact hserved
    | ok y =>
      obtain ⟨g, stage' | b⟩ := y
      · rw [hwork] at hrest
        refine ⟨[], a, .nil a, rfl, h.exclusive.update fun _ => .inl ht, ?_, f, e, hstanding, ?_, ?_⟩
        · exact h.readers.update (fun _ => ⟨rfl, .inl ht⟩) fun hheld => absurd hheld Bool.false_ne_true
        · exact fun hnone => absurd (hnone t) (by simp [Pc.exclusive])
        · exact matches_move (fun u hu => (hall u).of_not_exclusive (h.exclusive.nowhere_else ht hu))
            (hcalled ▸ Matches.working hr hrest)
      · rw [hwork] at hserved
        obtain ⟨htold, hserves⟩ := hserved
        obtain ⟨e', hstanding'⟩ := exists_standing hserves
        refine ⟨[.effect t], _, run_effect hcalled, rfl, h.exclusive.update ?_, h.readers.update ?_ ?_, g, e', hstanding',
          fun _ => rfl, ?_⟩
        · exact fun hheld => absurd hheld Bool.false_ne_true
        · exact fun hheld => absurd hheld Bool.false_ne_true
        · exact fun hheld => absurd hheld Bool.false_ne_true
        · exact matches_update (fun u hu => (hall u).of_not_locked (h.exclusive.nowhere_else ht hu) (h.readers t u ht))
            (.returning htold)

/-- Up to a call that runs out of range. -/
def Follows (sizes : Sizes) (P : Table.Entry → Prop) (s : State n)
    (a : AtomicObject.State (Fin n) PlainMap Request Answer) : Prop :=
  (∀ err, s.failure = some err → err.OutOfRange) ∧ (s.failure = none → Simulates sizes P s a)

theorem Simulates.follows (h : Simulates sizes P s a) (hnone : s.failure = none) : Follows sizes P s a :=
  ⟨fun _ hsome => absurd (hnone.symm.trans hsome) nofun, fun _ => h⟩

/-- Every step is one or no step of the atomic map, and looks the same but for what may be thrown. -/
theorem Simulates.next (h : Simulates sizes P s a) (hnone : s.failure = none) {e : Event n} (he : EventEnabled s e)
    (hwrites : ∀ t r, e = .call t r → r.Writes P) :
    ∃ steps b, Run (AtomicObject.system PlainMap.request) (fun _ _ => True) a steps b ∧
      List.Forall₂ (Seen.Rel (Answer.ToldAs (MayThrow sizes P))) (steps.filterMap Step.seen?) e.seen?.toList ∧
      Follows sizes P (next sizes s e) b := by
  obtain ⟨_, _, -, -, hall⟩ := h.threads
  cases e with
  | call t r =>
    have hidle : a.status t = .idle := by
      have hself := hall t
      rw [he.1] at hself
      generalize a.status t = x at hself
      cases hself
      rfl
    refine ⟨[.seen (.call t r)], _, .cons trivial hidle (.nil _), .cons (.call t r) .nil, ?_⟩
    exact (h.outside (congrArg Pc.exclusive he.1) rfl rfl fun _ _ => .called (hwrites t r rfl)).follows hnone
  | lock t =>
    have hself := hall t
    have hlock : CanLock s.pc (s.pc t) := he
    refine ⟨[], a, .nil a, .nil, ?_⟩
    cases hq : s.pc t with
    | called r =>
      rw [hq] at hlock hself
      generalize hx : a.status t = x at hself
      obtain _ | hr := hself
      simp only [EngineThreads.next, hq]
      refine (h.enter hlock.1 hlock.2 ?_ ?_).follows hnone
      · cases r <;> first | exact fun _ => rfl | exact fun hheld => absurd hheld Bool.false_ne_true
      · intro e
        rw [hx]
        cases r with
        | write op height => exact .working hr rfl
        | flush => exact .working hr rfl
        | reopen heights newProcess => exact .called hr
        | get key reserved => exact .looking key reserved
        | scan start stop limit => exact .scanning start stop limit
    | _ => rw [hq] at hlock; exact hlock.elim
  | step t =>
    by_cases hshared : (s.pc t).shared = true
    · obtain ⟨g, p, steps, b, hstep, hrun, hseen, hsim⟩ := h.read hshared
      refine ⟨steps, b, hrun, hseen ▸ .nil, ?_⟩
      simp only [EngineThreads.next, hstep]
      exact hsim.follows hnone
    · have hexclusive : (s.pc t).exclusive = true := he.resolve_right hshared
      cases hq : s.pc t with
      | working r stage =>
        have hwrite := h.write hq
        cases hstep : step sizes s.engine (s.pc t) with
        | error err =>
          rw [hstep] at hwrite
          refine ⟨[], a, .nil a, .nil, ?_⟩
          simp only [EngineThreads.next, hstep]
          exact ⟨fun _ hsome => Option.some.inj hsome ▸ hwrite, nofun⟩
        | ok y =>
          rw [hstep] at hwrite
          obtain ⟨steps, b, hrun, hseen, hsim⟩ := hwrite
          refine ⟨steps, b, hrun, hseen ▸ .nil, ?_⟩
          simp only [EngineThreads.next, hstep]
          exact hsim.follows hnone
      | _ => rw [hq] at hexclusive; cases hexclusive
  | ret t told =>
    have hq : s.pc t = .returning told := he
    obtain ⟨answer, hanswered, htold⟩ :
        ∃ answer, a.status t = .answered answer ∧ Answer.ToldAs (MayThrow sizes P) answer told := by
      have hself := hall t
      rw [hq] at hself
      generalize a.status t = x at hself
      cases hself with
      | returning htold => exact ⟨_, rfl, htold⟩
    refine ⟨[.seen (.ret t answer)], _, .cons trivial hanswered (.nil _), .cons (.ret t htold) .nil, ?_⟩
    exact (h.outside (congrArg Pc.exclusive hq) rfl rfl fun _ _ => .idle).follows hnone

end Simulation

end EngineThreads

end LsmTree
