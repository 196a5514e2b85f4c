import LsmTree.LruCache
import LsmTree.TableReader
import Mathlib.Algebra.Order.BigOperators.Group.List

/-!
# The block cache

`BlockCache` keeps blocks of table files by path and block offset, in the order in which
they were last asked for or stored. A run of calls is followed with the keys that were
evicted along the way: what a key's last `put` stored stays until the key is evicted,
its path invalidated or the cache cleared.
-/

namespace LsmTree.Table
open LruCache

structure CacheKey where
  sstablePath : String
  blockOffset : ℕ
  deriving DecidableEq

/-- A `std::vector<SSTable::Entry>` in memory. How much it and its strings have reserved is up to
the library. -/
structure Block where
  entries : List Entry
  capacity : ℕ
  keyCapacity : ℕ → ℕ
  valueCapacity : ℕ → ℕ

/-- `sizeof(std::vector<SSTable::Entry>)`, three pointers. -/
def sizeofVector : ℕ := 24

/-- `sizeof(SSTable::Entry)`, a string and an optional string. -/
def sizeofEntry : ℕ := 72

def calculateBlockBytes (b : Block) : ℕ :=
  sizeofVector + b.capacity * sizeofEntry + (b.entries.zipIdx.map fun p =>
    b.keyCapacity p.2 + if p.1.2.isSome then b.valueCapacity p.2 else 0).sum

abbrev LruBlockCache := Cache CacheKey Block

inductive CacheCall where
  | get (path : String) (blockOffset : ℕ)
  | put (path : String) (blockOffset : ℕ) (entries : Block)
  | invalidatePath (path : String)
  | clear

/-- The key that a `get` or a `put` is about. -/
def CacheCall.key? : CacheCall → Option CacheKey
  | .get path blockOffset => some ⟨path, blockOffset⟩
  | .put path blockOffset _ => some ⟨path, blockOffset⟩
  | .invalidatePath _ => none
  | .clear => none

/-- The call takes the key out on purpose, or stores something else for it. -/
def CacheCall.Drops (key : CacheKey) : CacheCall → Prop
  | .get _ _ => False
  | .put path blockOffset _ => CacheKey.mk path blockOffset = key
  | .invalidatePath path => path = key.sstablePath
  | .clear => True

namespace LruBlockCache

def get (c : LruBlockCache) (path : String) (blockOffset : ℕ) :
    Option (LruBlockCache × Option (List Entry)) :=
  (Cache.get c ⟨path, blockOffset⟩).map fun r => (r.1, r.2.map Block.entries)

def put (c : LruBlockCache) (path : String) (blockOffset : ℕ) (entries : Block) :
    Option (LruBlockCache × List CacheKey) :=
  Cache.put c ⟨path, blockOffset⟩ entries (calculateBlockBytes entries)

def invalidatePath (c : LruBlockCache) (path : String) : Option LruBlockCache :=
  c.invalidate fun key => key.sstablePath = path

/-- A call, with the keys that are evicted in it. -/
def apply (c : LruBlockCache) : CacheCall → Option (LruBlockCache × List CacheKey)
  | .get path blockOffset => (get c path blockOffset).map fun r => (r.1, [])
  | .put path blockOffset entries => put c path blockOffset entries
  | .invalidatePath path => (invalidatePath c path).map fun c' => (c', [])
  | .clear => some (c.clear, [])

/-- Calls one after the other, with all keys that are evicted. -/
def run : LruBlockCache → List CacheCall → Option (LruBlockCache × List CacheKey)
  | c, [] => some (c, [])
  | c, call :: calls => do
    let (c', evicted) ← apply c call
    let (c'', evicted') ← run c' calls
    return (c'', evicted ++ evicted')

/-! ### Recency -/

/-- How many calls ago the key was last asked for or stored. -/
def age (key : CacheKey) (calls : List CacheCall) : ℕ := calls.reverse.findIdx (·.key? = some key)

theorem age_append_singleton (key : CacheKey) (calls : List CacheCall) (call : CacheCall) :
    age key (calls ++ [call]) = if call.key? = some key then 0 else age key calls + 1 := by
  rw [age, List.reverse_append, List.reverse_singleton, List.singleton_append, List.findIdx_cons]
  split_ifs with h
  · simp [h]
  · simp [h, age]

/-- The keys stand in the order in which they were last asked for or stored, the latest first. -/
def Recent (calls : List CacheCall) (keys : List CacheKey) : Prop :=
  keys.Pairwise fun j k => age j calls < age k calls

theorem Recent.sublist {calls : List CacheCall} {ks js : List CacheKey} (h : Recent calls ks)
    (hsub : js.Sublist ks) : Recent calls js :=
  List.Pairwise.sublist hsub h

/-- Keys that a call is not about stay in their order. -/
theorem Recent.snoc {calls : List CacheCall} {ks : List CacheKey} {call : CacheCall} (h : Recent calls ks)
    (hcall : ∀ k ∈ ks, call.key? ≠ some k) : Recent (calls ++ [call]) ks := by
  refine List.Pairwise.imp_of_mem ?_ h
  intro j k hj hk hlt
  rw [age_append_singleton, age_append_singleton, if_neg (hcall j hj), if_neg (hcall k hk)]
  omega

/-- The key a call is about comes to the front. -/
theorem Recent.front {calls : List CacheCall} {ks : List CacheKey} {call : CacheCall} {key : CacheKey}
    (h : Recent calls ks) (hcall : call.key? = some key) :
    Recent (calls ++ [call]) (key :: ks.filter (· ≠ key)) := by
  have hother : ∀ k ∈ ks.filter (· ≠ key), call.key? ≠ some k := by
    intro k hk heq
    rw [hcall, Option.some.injEq] at heq
    simp [heq] at hk
  refine List.pairwise_cons.mpr ⟨?_, (h.sublist List.filter_sublist).snoc hother⟩
  intro k hk
  rw [age_append_singleton, age_append_singleton, if_pos hcall, if_neg (hother k hk)]
  exact Nat.succ_pos _

/-- The order of the keys after a call, before anything leaves. -/
def reordered (call : CacheCall) (keys : List CacheKey) : List CacheKey :=
  match call.key? with
  | some key => key :: keys.filter (· ≠ key)
  | none => keys

theorem Recent.reordered {calls : List CacheCall} {ks : List CacheKey} (h : Recent calls ks) (call : CacheCall) :
    Recent (calls ++ [call]) (reordered call ks) := by
  cases hkey : call.key? with
  | some key =>
    simp only [LruBlockCache.reordered, hkey]
    exact h.front hkey
  | none =>
    simp only [LruBlockCache.reordered, hkey]
    exact h.snoc (by simp [hkey])

/-! ### One call -/

/-- The limits hold. -/
def Within (c : LruBlockCache) : Prop := c.mapSize ≤ c.capacity ∧ c.currentBytes ≤ c.maxBytes

theorem map_key_filter (ns : List (CacheNode CacheKey Block)) (p : CacheKey → Bool) :
    (ns.filter fun n => p n.key).map CacheNode.key = (ns.map CacheNode.key).filter p := by
  rw [List.filter_map]
  rfl

variable {c : LruBlockCache}

theorem apply_get (h : Coupled c) (path : String) (blockOffset : ℕ) :
    ∃ c', apply c (.get path blockOffset) = some (c', []) ∧ Coupled c' ∧
      c'.list.Perm c.list ∧ c'.keys.Sublist (reordered (.get path blockOffset) c.keys) ∧
      c'.capacity = c.capacity ∧ c'.maxBytes = c.maxBytes := by
  obtain ⟨c', hget, hc', hlist, hcap, hmax⟩ := h.get_spec ⟨path, blockOffset⟩
  refine ⟨c', by simp [apply, get, hget], hc', ?_, ?_, hcap, hmax⟩
  · have hperm := List.filter_append_perm (·.key = CacheKey.mk path blockOffset) c.list
    rw [hlist]
    simpa only [ne_eq, decide_not] using hperm
  · rw [Cache.keys, hlist, List.map_append, map_key_filter c.list (· ≠ _), reordered]
    simp only [CacheCall.key?]
    rw [← List.singleton_append]
    refine List.Sublist.append ?_ (List.Sublist.refl _)
    by_cases hk : ∃ n ∈ c.list, n.key = ⟨path, blockOffset⟩
    · obtain ⟨n, hn, hkey⟩ := hk
      rw [← hkey, h.filter_eq hn]
      exact List.Sublist.refl _
    · rw [List.filter_eq_nil_iff.mpr (by simpa using hk)]
      exact List.nil_sublist _

theorem apply_put (h : Coupled c) (path : String) (blockOffset : ℕ) (entries : Block) :
    ∃ c' evicted, apply c (.put path blockOffset entries) = some (c', evicted) ∧ Coupled c' ∧ Within c' ∧
      reordered (.put path blockOffset entries) c.keys = c'.keys ++ evicted.reverse ∧
      c'.capacity = c.capacity ∧ c'.maxBytes = c.maxBytes := by
  obtain ⟨c', n, out, hput, hc', hkey, -, -, hlist, hsize, hbytes, hcap, hmax⟩ :=
    h.put_spec ⟨path, blockOffset⟩ entries (calculateBlockBytes entries)
  refine ⟨c', (out.map CacheNode.key).reverse, hput, hc', ⟨hsize, hbytes⟩, ?_, hcap, hmax⟩
  have hkeys := congrArg (List.map CacheNode.key) hlist
  rw [List.map_cons, hkey, List.map_append, map_key_filter c.list (· ≠ _)] at hkeys
  simpa only [reordered, CacheCall.key?, List.reverse_reverse, Cache.keys] using hkeys

theorem apply_invalidatePath (h : Coupled c) (path : String) :
    ∃ c', apply c (.invalidatePath path) = some (c', []) ∧ Coupled c' ∧
      c'.list = c.list.filter (fun n => ! decide (n.key.sstablePath = path)) ∧
      c'.capacity = c.capacity ∧ c'.maxBytes = c.maxBytes := by
  obtain ⟨c', hinvalidate, hc', hlist, hcap, hmax⟩ := h.invalidate_spec fun key => key.sstablePath = path
  exact ⟨c', by simp [apply, invalidatePath, hinvalidate], hc', hlist, hcap, hmax⟩

theorem totalBytes_eq_sum (ns : List (CacheNode CacheKey Block)) :
    totalBytes ns = (ns.map CacheNode.byteSize).sum := by
  induction ns with
  | nil => rfl
  | cons n ns ih => rw [totalBytes_cons, ih, List.map_cons, List.sum_cons]

theorem within_of_sublist {c' : LruBlockCache} (h : Coupled c) (h' : Coupled c') (hwithin : Within c)
    {ns : List (CacheNode CacheKey Block)} (hperm : c'.list.Perm ns) (hsub : ns.Sublist c.list)
    (hcap : c'.capacity = c.capacity) (hmax : c'.maxBytes = c.maxBytes) : Within c' := by
  have hlen : c'.list.length ≤ c.list.length := hperm.length_eq ▸ hsub.length_le
  have hsum : totalBytes c'.list ≤ totalBytes c.list := totalBytes_perm hperm ▸ totalBytes_sublist hsub
  rw [Within, h.mapSize_eq, h.bytes] at hwithin
  rw [Within, h'.mapSize_eq, h'.bytes, hcap, hmax]
  exact ⟨hlen.trans hwithin.1, hsum.trans hwithin.2⟩

/-- Every call succeeds, keeps the structures coupled and the limits, and leaves of the reordered
keys some, in their order. -/
theorem apply_spec (h : Coupled c) (hwithin : Within c) (call : CacheCall) :
    ∃ c' evicted, apply c call = some (c', evicted) ∧ Coupled c' ∧ Within c' ∧
      c'.keys.Sublist (reordered call c.keys) ∧ c'.capacity = c.capacity ∧ c'.maxBytes = c.maxBytes := by
  cases call with
  | get path blockOffset =>
    obtain ⟨c', happly, hc', hperm, hsub, hcap, hmax⟩ := apply_get h path blockOffset
    exact ⟨c', [], happly, hc', within_of_sublist h hc' hwithin hperm (List.Sublist.refl _) hcap hmax, hsub,
      hcap, hmax⟩
  | put path blockOffset entries =>
    obtain ⟨c', evicted, happly, hc', hwithin', hkeys, hcap, hmax⟩ := apply_put h path blockOffset entries
    refine ⟨c', evicted, happly, hc', hwithin', ?_, hcap, hmax⟩
    rw [hkeys]
    exact List.sublist_append_left _ _
  | invalidatePath path =>
    obtain ⟨c', happly, hc', hlist, hcap, hmax⟩ := apply_invalidatePath h path
    have hsub : c'.list.Sublist c.list := hlist ▸ List.filter_sublist
    exact ⟨c', [], happly, hc', within_of_sublist h hc' hwithin (List.Perm.refl _) hsub hcap hmax,
      hsub.map CacheNode.key, hcap, hmax⟩
  | clear =>
    exact ⟨c.clear, [], rfl, .clear c, ⟨Nat.zero_le _, Nat.zero_le _⟩, List.nil_sublist _, rfl, rfl⟩

/-- The cache has these entries for the key. -/
def Stores (c : LruBlockCache) (key : CacheKey) (entries : List Entry) : Prop :=
  ∃ n ∈ c.list, n.key = key ∧ n.value.entries = entries

theorem get_of_stores (h : Coupled c) {path : String} {blockOffset : ℕ} {entries : List Entry}
    (hstores : Stores c ⟨path, blockOffset⟩ entries) :
    ∃ c', get c path blockOffset = some (c', some entries) := by
  obtain ⟨n, hn, hkey, hentries⟩ := hstores
  obtain ⟨c', hget, -⟩ := h.get_spec ⟨path, blockOffset⟩
  refine ⟨c', ?_⟩
  rw [← hkey, h.find?_eq hn] at hget
  rw [get, ← hkey, hget]
  simp [hentries]

/-- What `put` stores stays, unless it is evicted at once. -/
theorem stores_put (h : Coupled c) {c' : LruBlockCache} {path : String} {blockOffset : ℕ} {entries : Block}
    {evicted : List CacheKey} (happly : apply c (.put path blockOffset entries) = some (c', evicted))
    (hkept : CacheKey.mk path blockOffset ∉ evicted) : Stores c' ⟨path, blockOffset⟩ entries.entries := by
  obtain ⟨c'', n, out, hput, -, hkey, hvalue, -, hlist, -⟩ :=
    h.put_spec ⟨path, blockOffset⟩ entries (calculateBlockBytes entries)
  have heq : some (c'', (out.map CacheNode.key).reverse) = some (c', evicted) := hput.symm.trans happly
  simp only [Option.some.injEq, Prod.mk.injEq] at heq
  obtain ⟨rfl, rfl⟩ := heq
  have hmem : n ∈ c''.list ++ out := hlist ▸ List.mem_cons_self
  rcases List.mem_append.mp hmem with hn | hn
  · exact ⟨n, hn, hkey, by rw [hvalue]⟩
  · exact absurd (List.mem_reverse.mpr (hkey ▸ List.mem_map_of_mem hn)) hkept

/-- Other calls keep what is stored for a key, unless they evict it. -/
theorem Stores.apply (h : Coupled c) {c' : LruBlockCache} {key : CacheKey} {entries : List Entry}
    {call : CacheCall} {evicted : List CacheKey} (hstores : Stores c key entries)
    (happly : LruBlockCache.apply c call = some (c', evicted)) (hcall : ¬ call.Drops key)
    (hkept : key ∉ evicted) : Stores c' key entries := by
  obtain ⟨n, hn, hkey, hentries⟩ := hstores
  cases call with
  | get path blockOffset =>
    obtain ⟨c'', hget, -, hperm, -⟩ := apply_get h path blockOffset
    rw [hget] at happly
    cases happly
    exact ⟨n, hperm.mem_iff.mpr hn, hkey, hentries⟩
  | put path blockOffset block =>
    obtain ⟨c'', m, out, hput, -, -, -, -, hlist, -⟩ :=
      h.put_spec ⟨path, blockOffset⟩ block (calculateBlockBytes block)
    have heq : some (c'', (out.map CacheNode.key).reverse) = some (c', evicted) := hput.symm.trans happly
    simp only [Option.some.injEq, Prod.mk.injEq] at heq
    obtain ⟨rfl, rfl⟩ := heq
    have hne : n.key ≠ ⟨path, blockOffset⟩ := fun heq => hcall (heq.symm.trans hkey)
    have hmem : n ∈ c''.list ++ out := hlist ▸ List.mem_cons_of_mem _ (List.mem_filter.mpr ⟨hn, by simpa using hne⟩)
    rcases List.mem_append.mp hmem with hn | hn
    · exact ⟨n, hn, hkey, hentries⟩
    · exact absurd (List.mem_reverse.mpr (hkey ▸ List.mem_map_of_mem hn)) hkept
  | invalidatePath path =>
    obtain ⟨c'', hinvalidate, -, hlist, -⟩ := apply_invalidatePath h path
    rw [hinvalidate] at happly
    cases happly
    refine ⟨n, ?_, hkey, hentries⟩
    rw [hlist, List.mem_filter]
    have hne : n.key.sstablePath ≠ path := fun heq => hcall (hkey ▸ heq.symm)
    exact ⟨hn, by simpa using hne⟩
  | clear => exact absurd trivial hcall

/-! ### Runs -/

theorem run_cons_eq_some {call : CacheCall} {calls : List CacheCall} {c'' : LruBlockCache}
    {evicted : List CacheKey} :
    run c (call :: calls) = some (c'', evicted) ↔ ∃ c' first rest, apply c call = some (c', first) ∧
      run c' calls = some (c'', rest) ∧ evicted = first ++ rest := by
  simp only [run, Option.bind_eq_bind, Option.bind_eq_some_iff, Option.pure_def, Option.some.injEq, Prod.exists,
    Prod.mk.injEq]
  constructor
  · rintro ⟨c', first, happly, _, rest, hrun, rfl, rfl⟩
    exact ⟨c', first, rest, happly, hrun, rfl⟩
  · rintro ⟨c', first, rest, happly, hrun, rfl⟩
    exact ⟨c', first, happly, c'', rest, hrun, rfl, rfl⟩

/-- The state of the cache after some calls. -/
structure After (capacity maxBytes : ℕ) (calls : List CacheCall) (c : LruBlockCache) : Prop where
  coupled : Coupled c
  within : Within c
  recent : Recent calls c.keys
  capacity_eq : c.capacity = capacity
  maxBytes_eq : c.maxBytes = maxBytes

theorem after_nil (capacity maxBytes : ℕ) : After capacity maxBytes [] (.new capacity maxBytes) where
  coupled := .new capacity maxBytes
  within := ⟨Nat.zero_le _, Nat.zero_le _⟩
  recent := List.Pairwise.nil
  capacity_eq := rfl
  maxBytes_eq := rfl

theorem After.apply {capacity maxBytes : ℕ} {calls : List CacheCall} (h : After capacity maxBytes calls c)
    (call : CacheCall) :
    ∃ c' evicted, LruBlockCache.apply c call = some (c', evicted) ∧
      After capacity maxBytes (calls ++ [call]) c' := by
  obtain ⟨c', evicted, happly, hc', hwithin, hsub, hcap, hmax⟩ := apply_spec h.coupled h.within call
  exact ⟨c', evicted, happly, hc', hwithin, (h.recent.reordered call).sublist hsub, hcap.trans h.capacity_eq,
    hmax.trans h.maxBytes_eq⟩

theorem After.run {capacity maxBytes : ℕ} {calls : List CacheCall} (h : After capacity maxBytes calls c)
    (more : List CacheCall) :
    ∃ c' evicted, LruBlockCache.run c more = some (c', evicted) ∧ After capacity maxBytes (calls ++ more) c' := by
  induction more generalizing calls c with
  | nil => exact ⟨c, [], rfl, by simpa using h⟩
  | cons call more ih =>
    obtain ⟨c₁, evicted₁, happly, hafter₁⟩ := h.apply call
    obtain ⟨c₂, evicted₂, hrun, hafter₂⟩ := ih hafter₁
    exact ⟨c₂, evicted₁ ++ evicted₂, run_cons_eq_some.mpr ⟨c₁, _, _, happly, hrun, rfl⟩, by simpa using hafter₂⟩

/-- What is stored for a key stays through calls that neither drop it nor evict it. -/
theorem Stores.run (h : Coupled c) (hwithin : Within c) {c' : LruBlockCache} {key : CacheKey}
    {entries : List Entry} {calls : List CacheCall} {evicted : List CacheKey} (hstores : Stores c key entries)
    (hrun : LruBlockCache.run c calls = some (c', evicted)) (hcalls : ∀ call ∈ calls, ¬ call.Drops key)
    (hkept : key ∉ evicted) : Stores c' key entries := by
  induction calls generalizing c evicted with
  | nil =>
    cases hrun
    exact hstores
  | cons call calls ih =>
    obtain ⟨c₁, first, rest, happly, hrun₁, rfl⟩ := run_cons_eq_some.mp hrun
    obtain ⟨hfirst, hrest⟩ : key ∉ first ∧ key ∉ rest := by simpa using hkept
    obtain ⟨c₂, _, happly', hc₂, hwithin₂, -⟩ := apply_spec h hwithin call
    rw [happly] at happly'
    cases happly'
    refine ih hc₂ hwithin₂ ?_ hrun₁ (fun call' hmem => hcalls call' (List.mem_cons_of_mem _ hmem)) hrest
    exact hstores.apply h happly (hcalls call List.mem_cons_self) hfirst

/-- After any calls on a cache of any capacity and byte limit: no subtraction has underflowed and
every iterator was good; the map and the list hold the same keys, each once, the map's iterators
point to the nodes of their keys, the byte total is that of the nodes, the limits hold, and the
list has the most recently used keys first. A further `put` evicts a suffix of that order. What the
last `put` of a key stored is what `get` returns, while the key is not evicted, invalidated or
cleared away. -/
theorem run_keeps_lru_invariant (capacity maxBytes : ℕ) (calls : List CacheCall) :
    ∃ c evicted, run (.new capacity maxBytes) calls = some (c, evicted) ∧
      c.map.keys.Perm c.keys ∧ c.keys.Nodup ∧
      (∀ key a, c.map.lookup key = some a → ∃ n ∈ c.list, c.node a = some n ∧ n.key = key) ∧
      c.currentBytes = (c.list.map CacheNode.byteSize).sum ∧
      c.mapSize ≤ capacity ∧ c.currentBytes ≤ maxBytes ∧
      c.keys.Pairwise (fun j k => age j calls < age k calls) ∧
      (∀ path blockOffset block, ∃ c' out, put c path blockOffset block = some (c', out) ∧
        ⟨path, blockOffset⟩ :: c.keys.filter (· ≠ ⟨path, blockOffset⟩) = c'.keys ++ out.reverse) ∧
      ∀ before after path blockOffset block, calls = before ++ .put path blockOffset block :: after →
        (∀ call ∈ after, ¬ call.Drops ⟨path, blockOffset⟩) →
        ∀ c₀ out₀ out, run (.new capacity maxBytes) before = some (c₀, out₀) →
          run c₀ (.put path blockOffset block :: after) = some (c, out) → ⟨path, blockOffset⟩ ∉ out →
            ∃ c', get c path blockOffset = some (c', some block.entries) := by
  obtain ⟨c, evicted, hrun, hafter⟩ := (after_nil capacity maxBytes).run calls
  have hcoupled := hafter.coupled
  refine ⟨c, evicted, hrun, hcoupled.keys_perm, hcoupled.keys_nodup, ?_,
    hcoupled.bytes.trans (totalBytes_eq_sum _), hafter.capacity_eq ▸ hafter.within.1,
    hafter.maxBytes_eq ▸ hafter.within.2, hafter.recent, ?_, ?_⟩
  · intro key a hlookup
    obtain ⟨n, hn, hkey, rfl⟩ := (hcoupled.lookup_iff key a).mp hlookup
    exact ⟨n, hn, hcoupled.node_eq hn, hkey⟩
  · intro path blockOffset block
    obtain ⟨c', out, hput, -, -, hkeys, -⟩ := apply_put hcoupled path blockOffset block
    exact ⟨c', out, hput, hkeys⟩
  · intro before after path blockOffset block _ hdrops c₀ out₀ out hbefore hrest hkept
    obtain ⟨c₀', _, hbefore', hafter₀⟩ := (after_nil capacity maxBytes).run before
    rw [hbefore] at hbefore'
    cases hbefore'
    obtain ⟨c₁, first, rest, happly, hrun₁, rfl⟩ := run_cons_eq_some.mp hrest
    obtain ⟨hfirst, hrest⟩ : CacheKey.mk path blockOffset ∉ first ∧ CacheKey.mk path blockOffset ∉ rest := by
      simpa using hkept
    obtain ⟨c₂, _, happly₂, hafter₂⟩ := hafter₀.apply (.put path blockOffset block)
    rw [happly] at happly₂
    cases happly₂
    refine get_of_stores hcoupled ?_
    exact (stores_put hafter₀.coupled happly hfirst).run hafter₂.coupled hafter₂.within hrun₁ hdrops hrest

end LruBlockCache

end LsmTree.Table
