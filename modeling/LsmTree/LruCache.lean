import Mathlib.Data.List.AList
import Mathlib.Data.List.Nodup
import Mathlib.Order.Basic

/-!
# Least-recently-used caches

A cache with a limit on its entries and on their bytes is a doubly linked list with the
most recent entry first and a hash map from keys to the list's nodes. The map holds
iterators, here the addresses of nodes; looking at a node through an address that is not
in the list, or subtracting more bytes than the total holds, has no meaning and yields
nothing.

Coupled structures never get there. Every operation is described on the list alone: a
hit moves a node to the front, a new value replaces what its key had and pushes nodes
off the back until the limits hold, and invalidation filters.
-/

namespace LsmTree.LruCache

variable {K V : Type}

structure CacheNode (K V : Type) where
  address : ℕ
  key : K
  value : V
  byteSize : ℕ

/-- Sizes are those of values that are in memory together, so their sum is not reduced. -/
structure Cache (K V : Type) where
  capacity : ℕ
  maxBytes : ℕ
  currentBytes : ℕ
  list : List (CacheNode K V)
  map : AList fun _ : K => ℕ
  nextAddress : ℕ

/-- `current_bytes_ -= byte_size`, without wrapping around. -/
def subBytes (total n : ℕ) : Option ℕ := if n ≤ total then some (total - n) else none

namespace Cache

def new (capacity maxBytes : ℕ) : Cache K V where
  capacity := capacity
  maxBytes := maxBytes
  currentBytes := 0
  list := []
  map := ∅
  nextAddress := 0

/-- The node an iterator points to. -/
def node (c : Cache K V) (a : ℕ) : Option (CacheNode K V) := c.list.find? (·.address = a)

/-- The rest of the list when a node is spliced out. -/
def without (c : Cache K V) (a : ℕ) : List (CacheNode K V) := c.list.filter (·.address ≠ a)

def keys (c : Cache K V) : List K := c.list.map CacheNode.key

def mapSize (c : Cache K V) : ℕ := c.map.entries.length

/-- The condition of the loop of `evictIfNeeded`. -/
def Overfull (c : Cache K V) : Prop :=
  c.list ≠ [] ∧ (c.capacity < c.mapSize ∨ c.maxBytes < c.currentBytes)

instance (c : Cache K V) : Decidable c.Overfull :=
  decidable_of_iff (c.list.isEmpty = false ∧ (c.capacity < c.mapSize ∨ c.maxBytes < c.currentBytes)) (by
    simp [Overfull])

variable [DecidableEq K]

def get (c : Cache K V) (key : K) : Option (Cache K V × Option V) :=
  match c.map.lookup key with
  | none => some (c, none)
  | some a => do
    let n ← c.node a
    return ({ c with list := n :: c.without a }, some n.value)

/-- The loop of `evictIfNeeded`, with the keys it evicts; the list gets shorter in every round. -/
def evictLoop : ℕ → Cache K V → Option (Cache K V × List K)
  | 0, c => some (c, [])
  | fuel + 1, c =>
    if c.Overfull then do
      let last ← c.list.getLast?
      let total ← subBytes c.currentBytes last.byteSize
      let (c', evicted) ← evictLoop fuel
        { c with currentBytes := total, map := c.map.erase last.key, list := c.list.dropLast }
      return (c', last.key :: evicted)
    else some (c, [])

def evictIfNeeded (c : Cache K V) : Option (Cache K V × List K) := evictLoop c.list.length c

/-- A new value, with the keys that are evicted for it. -/
def put (c : Cache K V) (key : K) (value : V) (newBytes : ℕ) : Option (Cache K V × List K) :=
  match c.map.lookup key with
  | some a => do
    let n ← c.node a
    let total ← subBytes c.currentBytes n.byteSize
    evictIfNeeded { c with
      currentBytes := total + newBytes
      list := { n with value := value, byteSize := newBytes } :: c.without a }
  | none =>
    evictIfNeeded { c with
      currentBytes := c.currentBytes + newBytes
      list := ⟨c.nextAddress, key, value, newBytes⟩ :: c.list
      map := c.map.insert key c.nextAddress
      nextAddress := c.nextAddress + 1 }

/-- The loop that erases the nodes with certain keys, from the front to the back. -/
def invalidateLoop (p : K → Bool) : List (CacheNode K V) → ℕ → (AList fun _ : K => ℕ) →
    Option (List (CacheNode K V) × ℕ × AList fun _ : K => ℕ)
  | [], total, map => some ([], total, map)
  | n :: rest, total, map =>
    if p n.key then do
      let total' ← subBytes total n.byteSize
      invalidateLoop p rest total' (map.erase n.key)
    else do
      let (kept, total', map') ← invalidateLoop p rest total map
      return (n :: kept, total', map')

def invalidate (c : Cache K V) (p : K → Bool) : Option (Cache K V) := do
  let (kept, total, map) ← invalidateLoop p c.list c.currentBytes c.map
  return { c with list := kept, currentBytes := total, map := map }

def clear (c : Cache K V) : Cache K V := { c with map := ∅, list := [], currentBytes := 0 }

end Cache

/-! ### Coupled structures -/

/-- The bytes of some nodes. -/
def totalBytes : List (CacheNode K V) → ℕ
  | [] => 0
  | n :: ns => n.byteSize + totalBytes ns

@[simp] theorem totalBytes_nil : totalBytes ([] : List (CacheNode K V)) = 0 := rfl

@[simp] theorem totalBytes_cons (n : CacheNode K V) (ns : List (CacheNode K V)) :
    totalBytes (n :: ns) = n.byteSize + totalBytes ns := rfl

@[simp] theorem totalBytes_append (ms ns : List (CacheNode K V)) :
    totalBytes (ms ++ ns) = totalBytes ms + totalBytes ns := by
  induction ms with
  | nil => simp
  | cons m ms ih => simp [ih, Nat.add_assoc]

theorem totalBytes_perm {ms ns : List (CacheNode K V)} (h : ms.Perm ns) : totalBytes ms = totalBytes ns := by
  induction h with
  | nil => rfl
  | cons n _ ih => rw [totalBytes_cons, totalBytes_cons, ih]
  | swap m n ns =>
    simp only [totalBytes_cons]
    omega
  | trans _ _ ih₁ ih₂ => exact ih₁.trans ih₂

theorem totalBytes_sublist {ms ns : List (CacheNode K V)} (h : ms.Sublist ns) : totalBytes ms ≤ totalBytes ns := by
  induction h with
  | slnil => exact le_rfl
  | cons n _ ih => exact ih.trans (Nat.le_add_left _ _)
  | cons_cons n _ ih => exact Nat.add_le_add_left ih n.byteSize

theorem subBytes_add (total n : ℕ) : subBytes (n + total) n = some total := by
  simp [subBytes]

variable [DecidableEq K]

/-- The map has an iterator to the node of every key and nothing else, and the byte total is that of
the list. -/
structure Coupled (c : Cache K V) : Prop where
  keys_nodup : (c.list.map CacheNode.key).Nodup
  addresses_nodup : (c.list.map CacheNode.address).Nodup
  allocated : ∀ n ∈ c.list, n.address < c.nextAddress
  lookup_iff : ∀ k a, c.map.lookup k = some a ↔ ∃ n ∈ c.list, n.key = k ∧ n.address = a
  bytes : c.currentBytes = totalBytes c.list

namespace Coupled
variable {c : Cache K V}

theorem new (capacity maxBytes : ℕ) : Coupled (Cache.new capacity maxBytes : Cache K V) where
  keys_nodup := List.nodup_nil
  addresses_nodup := List.nodup_nil
  allocated := by simp [Cache.new]
  lookup_iff := by simp [Cache.new]
  bytes := rfl

theorem clear (c : Cache K V) : Coupled c.clear where
  keys_nodup := List.nodup_nil
  addresses_nodup := List.nodup_nil
  allocated := by simp [Cache.clear]
  lookup_iff := by simp [Cache.clear]
  bytes := rfl

theorem mem_keys_iff (h : Coupled c) (k : K) : k ∈ c.map.keys ↔ k ∈ c.keys := by
  rw [← AList.mem_keys, ← AList.lookup_isSome, Option.isSome_iff_exists, Cache.keys, List.mem_map]
  constructor
  · rintro ⟨a, ha⟩
    obtain ⟨n, hn, hkey, -⟩ := (h.lookup_iff k a).mp ha
    exact ⟨n, hn, hkey⟩
  · rintro ⟨n, hn, hkey⟩
    exact ⟨n.address, (h.lookup_iff k _).mpr ⟨n, hn, hkey, rfl⟩⟩

/-- The map and the list hold the same keys, each once. -/
theorem keys_perm (h : Coupled c) : c.map.keys.Perm c.keys :=
  (List.perm_ext_iff_of_nodup c.map.keys_nodup h.keys_nodup).mpr h.mem_keys_iff

theorem mapSize_eq (h : Coupled c) : c.mapSize = c.list.length := by
  have hlen := h.keys_perm.length_eq
  simpa [Cache.keys, AList.keys, List.keys, Cache.mapSize] using hlen

theorem eq_of_key_eq (h : Coupled c) {m n : CacheNode K V} (hm : m ∈ c.list) (hn : n ∈ c.list)
    (hkey : m.key = n.key) : m = n :=
  List.inj_on_of_nodup_map h.keys_nodup hm hn hkey

theorem eq_of_address_eq (h : Coupled c) {m n : CacheNode K V} (hm : m ∈ c.list) (hn : n ∈ c.list)
    (haddress : m.address = n.address) : m = n :=
  List.inj_on_of_nodup_map h.addresses_nodup hm hn haddress

/-- An iterator of the map can be dereferenced, and the node has the key. -/
theorem node_eq (h : Coupled c) {n : CacheNode K V} (hn : n ∈ c.list) : c.node n.address = some n := by
  cases hfind : c.node n.address with
  | none => simpa using List.find?_eq_none.mp hfind n hn
  | some m =>
    have hm := List.mem_of_find?_eq_some hfind
    have haddress : m.address = n.address := by simpa using List.find?_some hfind
    rw [h.eq_of_address_eq hm hn haddress]

theorem lookup_of_mem (h : Coupled c) {n : CacheNode K V} (hn : n ∈ c.list) :
    c.map.lookup n.key = some n.address :=
  (h.lookup_iff _ _).mpr ⟨n, hn, rfl, rfl⟩

theorem lookup_none (h : Coupled c) {k : K} (hk : ∀ n ∈ c.list, n.key ≠ k) : c.map.lookup k = none := by
  rw [Option.eq_none_iff_forall_ne_some]
  intro a ha
  obtain ⟨n, hn, hkey, -⟩ := (h.lookup_iff k a).mp ha
  exact hk n hn hkey

/-- Splicing a node out takes away what has its key. -/
theorem without_eq (h : Coupled c) {n : CacheNode K V} (hn : n ∈ c.list) :
    c.without n.address = c.list.filter (·.key ≠ n.key) := by
  apply List.filter_congr
  intro m hm
  have hiff : m.address = n.address ↔ m.key = n.key := by
    constructor
    · exact fun heq => congrArg CacheNode.key (h.eq_of_address_eq hm hn heq)
    · exact fun heq => congrArg CacheNode.address (h.eq_of_key_eq hm hn heq)
  simp [hiff]

theorem perm_cons_filter (h : Coupled c) {n : CacheNode K V} (hn : n ∈ c.list) :
    c.list.Perm (n :: c.list.filter (·.key ≠ n.key)) := by
  have hnodup : c.list.Nodup := List.Nodup.of_map _ h.keys_nodup
  refine (List.perm_ext_iff_of_nodup hnodup ?_).mpr ?_
  · refine List.nodup_cons.mpr ⟨?_, hnodup.filter _⟩
    simp
  · intro m
    simp only [List.mem_cons, List.mem_filter, ne_eq, decide_not, Bool.not_eq_eq_eq_not, Bool.not_true,
      decide_eq_false_iff_not]
    constructor
    · intro hm
      by_cases hkey : m.key = n.key
      · exact .inl (h.eq_of_key_eq hm hn hkey)
      · exact .inr ⟨hm, hkey⟩
    · rintro (rfl | ⟨hm, -⟩)
      · exact hn
      · exact hm

theorem totalBytes_eq (h : Coupled c) {n : CacheNode K V} (hn : n ∈ c.list) :
    totalBytes c.list = n.byteSize + totalBytes (c.list.filter (·.key ≠ n.key)) := by
  rw [← totalBytes_cons]
  exact totalBytes_perm (h.perm_cons_filter hn)

/-- A cache whose first node took the place of what had its key. -/
theorem front (h : Coupled c) {n : CacheNode K V} (hn : n ∈ c.list) (n' : CacheNode K V) (hkey : n'.key = n.key)
    (haddress : n'.address = n.address) :
    Coupled { c with
      currentBytes := totalBytes (c.list.filter (·.key ≠ n.key)) + n'.byteSize
      list := n' :: c.list.filter (·.key ≠ n.key) } where
  keys_nodup := by
    have hnodup := ((h.perm_cons_filter hn).map CacheNode.key).nodup_iff.mp h.keys_nodup
    simpa only [List.map_cons, hkey] using hnodup
  addresses_nodup := by
    have hnodup := ((h.perm_cons_filter hn).map CacheNode.address).nodup_iff.mp h.addresses_nodup
    simpa only [List.map_cons, haddress] using hnodup
  allocated := by
    intro m hm
    rcases List.mem_cons.mp hm with rfl | hm
    · rw [haddress]
      exact h.allocated n hn
    · exact h.allocated m (List.mem_filter.mp hm).1
  lookup_iff := by
    intro k a
    rw [h.lookup_iff]
    constructor
    · rintro ⟨m, hm, rfl, rfl⟩
      rcases List.mem_cons.mp ((h.perm_cons_filter hn).mem_iff.mp hm) with rfl | hm
      · exact ⟨n', List.mem_cons_self, hkey, haddress⟩
      · exact ⟨m, List.mem_cons_of_mem _ hm, rfl, rfl⟩
    · rintro ⟨m, hm, rfl, rfl⟩
      rcases List.mem_cons.mp hm with rfl | hm
      · exact ⟨n, hn, hkey.symm, haddress.symm⟩
      · exact ⟨m, (List.mem_filter.mp hm).1, rfl, rfl⟩
  bytes := by simp only [totalBytes_cons, Nat.add_comm]

/-- A cache with a new node in front. -/
theorem push (h : Coupled c) {k : K} (hk : ∀ n ∈ c.list, n.key ≠ k) (v : V) (bytes : ℕ) :
    Coupled { c with
      currentBytes := c.currentBytes + bytes
      list := ⟨c.nextAddress, k, v, bytes⟩ :: c.list
      map := c.map.insert k c.nextAddress
      nextAddress := c.nextAddress + 1 } where
  keys_nodup := by
    refine List.nodup_cons.mpr ⟨?_, h.keys_nodup⟩
    rintro hmem
    obtain ⟨n, hn, hkey⟩ := List.mem_map.mp hmem
    exact hk n hn hkey
  addresses_nodup := by
    refine List.nodup_cons.mpr ⟨?_, h.addresses_nodup⟩
    rintro hmem
    obtain ⟨n, hn, haddress⟩ := List.mem_map.mp hmem
    exact (h.allocated n hn).ne haddress
  allocated := by
    intro m hm
    rcases List.mem_cons.mp hm with rfl | hm
    · exact Nat.lt_succ_self _
    · exact (h.allocated m hm).trans (Nat.lt_succ_self _)
  lookup_iff := by
    intro j a
    by_cases hj : j = k
    · subst hj
      simp only [AList.lookup_insert, Option.some.injEq, List.mem_cons]
      constructor
      · rintro rfl
        exact ⟨_, .inl rfl, rfl, rfl⟩
      · rintro ⟨m, rfl | hm, hkey, rfl⟩
        · rfl
        · exact absurd hkey (hk m hm)
    · rw [AList.lookup_insert_ne hj, h.lookup_iff]
      simp only [List.mem_cons]
      constructor
      · rintro ⟨m, hm, rfl, rfl⟩
        exact ⟨m, .inr hm, rfl, rfl⟩
      · rintro ⟨m, rfl | hm, rfl, rfl⟩
        · exact absurd rfl hj
        · exact ⟨m, hm, rfl, rfl⟩
  bytes := by
    simp only [totalBytes_cons, h.bytes]
    omega

/-- A cache that has lost its last node. -/
theorem pop {ms : List (CacheNode K V)} {last : CacheNode K V} (h : Coupled c) (hlist : c.list = ms ++ [last]) :
    Coupled { c with
      currentBytes := totalBytes ms
      map := c.map.erase last.key
      list := ms } where
  keys_nodup := by
    have hnodup := h.keys_nodup
    rw [hlist, List.map_append] at hnodup
    exact hnodup.of_append_left
  addresses_nodup := by
    have hnodup := h.addresses_nodup
    rw [hlist, List.map_append] at hnodup
    exact hnodup.of_append_left
  allocated := by
    intro m hm
    exact h.allocated m (hlist ▸ List.mem_append_left _ hm)
  lookup_iff := by
    have hlast : ∀ m ∈ ms, m.key ≠ last.key := by
      have hnodup := h.keys_nodup
      rw [hlist, List.map_append, List.map_singleton] at hnodup
      intro m hm heq
      exact List.disjoint_of_nodup_append hnodup (List.mem_map_of_mem hm) (by simp [heq])
    intro k a
    by_cases hk : k = last.key
    · subst hk
      simp only [AList.lookup_erase, reduceCtorEq, false_iff]
      rintro ⟨m, hm, hkey, -⟩
      exact hlast m hm hkey
    · rw [AList.lookup_erase_ne hk, h.lookup_iff, hlist]
      constructor
      · rintro ⟨m, hm, rfl, rfl⟩
        rcases List.mem_append.mp hm with hm | hm
        · exact ⟨m, hm, rfl, rfl⟩
        · exact absurd (congrArg CacheNode.key (List.mem_singleton.mp hm)) hk
      · rintro ⟨m, hm, rfl, rfl⟩
        exact ⟨m, List.mem_append_left _ hm, rfl, rfl⟩
  bytes := rfl

/-! ### What the operations do to the list -/

theorem find?_eq (h : Coupled c) {n : CacheNode K V} (hn : n ∈ c.list) :
    c.list.find? (·.key = n.key) = some n := by
  cases hfind : c.list.find? (·.key = n.key) with
  | none => simpa using List.find?_eq_none.mp hfind n hn
  | some m =>
    have hkey : m.key = n.key := by simpa using List.find?_some hfind
    rw [h.eq_of_key_eq (List.mem_of_find?_eq_some hfind) hn hkey]

theorem filter_eq (h : Coupled c) {n : CacheNode K V} (hn : n ∈ c.list) :
    c.list.filter (·.key = n.key) = [n] := by
  have hperm := (h.perm_cons_filter hn).filter (·.key = n.key)
  have hnil : (c.list.filter (·.key ≠ n.key)).filter (·.key = n.key) = [] := by
    simp [List.filter_filter]
  rw [List.filter_cons_of_pos (by simp), hnil] at hperm
  exact List.perm_singleton.mp hperm

theorem filter_ne_eq_self {k : K} {ns : List (CacheNode K V)} (hk : ∀ n ∈ ns, n.key ≠ k) :
    ns.filter (·.key ≠ k) = ns := by
  rw [List.filter_eq_self]
  simpa using hk

/-- A lookup answers with the value of the key's node and moves the node to the front. -/
theorem get_spec (h : Coupled c) (k : K) :
    ∃ c', c.get k = some (c', (c.list.find? (·.key = k)).map CacheNode.value) ∧ Coupled c' ∧
      c'.list = c.list.filter (·.key = k) ++ c.list.filter (·.key ≠ k) ∧
      c'.capacity = c.capacity ∧ c'.maxBytes = c.maxBytes := by
  by_cases hk : ∃ n ∈ c.list, n.key = k
  · obtain ⟨n, hn, rfl⟩ := hk
    refine ⟨{ c with list := n :: c.list.filter (·.key ≠ n.key) }, ?_, ?_, ?_, rfl, rfl⟩
    · simp only [Cache.get, h.lookup_of_mem hn, h.node_eq hn, h.without_eq hn, h.find?_eq hn, Option.map_some]
      rfl
    · have hbytes : c.currentBytes = totalBytes (c.list.filter (·.key ≠ n.key)) + n.byteSize := by
        rw [h.bytes, h.totalBytes_eq hn, Nat.add_comm]
      rw [hbytes]
      exact h.front hn n rfl rfl
    · rw [h.filter_eq hn]
      rfl
  · have hk' : ∀ n ∈ c.list, n.key ≠ k := fun n hn hkey => hk ⟨n, hn, hkey⟩
    refine ⟨c, ?_, h, ?_, rfl, rfl⟩
    · have hnone : c.list.find? (·.key = k) = none := by simpa using hk'
      simp only [Cache.get, h.lookup_none hk', hnone, Option.map_none]
    · have hnil : c.list.filter (·.key = k) = [] := by simpa using hk'
      rw [hnil, filter_ne_eq_self hk', List.nil_append]

/-- The nodes that leave are the last ones, and with enough rounds the limits hold afterwards. -/
theorem evictLoop_spec (h : Coupled c) {fuel : ℕ} (hfuel : c.list.length ≤ fuel) :
    ∃ c' out, c.evictLoop fuel = some (c', (out.map CacheNode.key).reverse) ∧ Coupled c' ∧
      c.list = c'.list ++ out ∧ ¬ c'.Overfull ∧ c'.capacity = c.capacity ∧ c'.maxBytes = c.maxBytes := by
  induction fuel generalizing c with
  | zero =>
    have hnil : c.list = [] := List.length_eq_zero_iff.mp (Nat.le_zero.mp hfuel)
    exact ⟨c, [], rfl, h, (List.append_nil _).symm, fun hover => hover.1 hnil, rfl, rfl⟩
  | succ fuel ih =>
    by_cases hover : c.Overfull
    · obtain ⟨ms, last, hlist⟩ : ∃ ms last, c.list = ms ++ [last] :=
        ⟨_, _, (List.dropLast_append_getLast hover.1).symm⟩
      have hlen : ms.length ≤ fuel := by
        rw [hlist, List.length_append, List.length_singleton] at hfuel
        omega
      obtain ⟨c', out, hloop, hc', hms, hdone, hcap, hmax⟩ := ih (h.pop hlist) hlen
      refine ⟨c', out ++ [last], ?_, hc', ?_, hdone, hcap, hmax⟩
      · have hsub : subBytes c.currentBytes last.byteSize = some (totalBytes ms) := by
          rw [h.bytes, hlist, totalBytes_append, Nat.add_comm]
          exact subBytes_add _ _
        have hlast : c.list.getLast? = some last := by simp [hlist]
        have hinit : c.list.dropLast = ms := by simp [hlist]
        simp only [Cache.evictLoop, if_pos hover, hlast, hinit, hsub, Option.bind_eq_bind, Option.bind_some, hloop]
        simp
      · have hms : ms = c'.list ++ out := hms
        rw [hlist, hms, List.append_assoc]
    · refine ⟨c, [], ?_, h, (List.append_nil _).symm, hover, rfl, rfl⟩
      simp [Cache.evictLoop, hover]

/-- Limits that no longer make the loop go on hold. -/
theorem limits_of_not_overfull (h : Coupled c) (hover : ¬ c.Overfull) :
    c.mapSize ≤ c.capacity ∧ c.currentBytes ≤ c.maxBytes := by
  by_cases hnil : c.list = []
  · rw [h.mapSize_eq, h.bytes, hnil]
    exact ⟨Nat.zero_le _, Nat.zero_le _⟩
  · simp only [Cache.Overfull, not_and, not_or, not_lt] at hover
    exact hover hnil

/-- A new value goes to the front, in the place of what its key had, and nodes leave at the back
until the limits hold. -/
theorem put_spec (h : Coupled c) (k : K) (v : V) (bytes : ℕ) :
    ∃ c' n out, c.put k v bytes = some (c', (out.map CacheNode.key).reverse) ∧ Coupled c' ∧
      n.key = k ∧ n.value = v ∧ n.byteSize = bytes ∧
      n :: c.list.filter (·.key ≠ k) = c'.list ++ out ∧
      c'.mapSize ≤ c'.capacity ∧ c'.currentBytes ≤ c'.maxBytes ∧
      c'.capacity = c.capacity ∧ c'.maxBytes = c.maxBytes := by
  by_cases hk : ∃ n ∈ c.list, n.key = k
  · obtain ⟨n, hn, rfl⟩ := hk
    obtain ⟨c', out, hevict, hc', hlist, hdone, hcap, hmax⟩ :=
      (h.front hn { n with value := v, byteSize := bytes } rfl rfl).evictLoop_spec (le_refl _)
    obtain ⟨hsize, htotal⟩ := hc'.limits_of_not_overfull hdone
    refine ⟨c', { n with value := v, byteSize := bytes }, out, ?_, hc', rfl, rfl, rfl, hlist, hsize, htotal,
      hcap, hmax⟩
    have hsub : subBytes c.currentBytes n.byteSize = some (totalBytes (c.list.filter (·.key ≠ n.key))) := by
      rw [h.bytes, h.totalBytes_eq hn]
      exact subBytes_add _ _
    simp only [Cache.put, h.lookup_of_mem hn, h.node_eq hn, hsub, h.without_eq hn, Option.bind_eq_bind,
      Option.bind_some]
    exact hevict
  · have hk' : ∀ n ∈ c.list, n.key ≠ k := fun n hn hkey => hk ⟨n, hn, hkey⟩
    obtain ⟨c', out, hevict, hc', hlist, hdone, hcap, hmax⟩ := (h.push hk' v bytes).evictLoop_spec (le_refl _)
    obtain ⟨hsize, htotal⟩ := hc'.limits_of_not_overfull hdone
    refine ⟨c', ⟨c.nextAddress, k, v, bytes⟩, out, ?_, hc', rfl, rfl, rfl, ?_, hsize, htotal, hcap, hmax⟩
    · simp only [Cache.put, h.lookup_none hk']
      exact hevict
    · rw [filter_ne_eq_self hk']
      exact hlist

/-- The loop keeps the other nodes, and takes away the bytes and the map entries of those it erases;
`kept` is what the nodes before have. -/
theorem invalidateLoop_spec (p : K → Bool) (ns : List (CacheNode K V)) (kept : ℕ) (map : AList fun _ : K => ℕ) :
    ∃ map', Cache.invalidateLoop p ns (kept + totalBytes ns) map = some (ns.filter (! p ·.key),
        kept + totalBytes (ns.filter (! p ·.key)), map') ∧
      ∀ k, map'.lookup k = if p k = true ∧ ∃ n ∈ ns, n.key = k then none else map.lookup k := by
  induction ns generalizing kept map with
  | nil => exact ⟨map, rfl, by simp⟩
  | cons n ns ih =>
    by_cases hp : p n.key = true
    · obtain ⟨map', hloop, hlookup⟩ := ih kept (map.erase n.key)
      have hsub : subBytes (kept + totalBytes (n :: ns)) n.byteSize = some (kept + totalBytes ns) := by
        rw [totalBytes_cons, Nat.add_left_comm]
        exact subBytes_add _ _
      refine ⟨map', ?_, ?_⟩
      · simp only [Cache.invalidateLoop, if_pos hp, hsub, Option.bind_eq_bind, Option.bind_some, hloop]
        simp [hp]
      · intro k
        rw [hlookup]
        by_cases hk : k = n.key
        · subst hk
          simp [hp, AList.lookup_erase]
        · simp [AList.lookup_erase_ne hk, Ne.symm hk]
    · obtain ⟨map', hloop, hlookup⟩ := ih (kept + n.byteSize) map
      refine ⟨map', ?_, ?_⟩
      · simp only [Cache.invalidateLoop, if_neg hp, totalBytes_cons, ← Nat.add_assoc, hloop,
          Option.bind_eq_bind, Option.bind_some]
        simp [hp, Nat.add_assoc]
      · intro k
        rw [hlookup]
        by_cases hk : k = n.key
        · subst hk
          simp [hp]
        · simp [Ne.symm hk]

theorem invalidate_spec (h : Coupled c) (p : K → Bool) :
    ∃ c', c.invalidate p = some c' ∧ Coupled c' ∧ c'.list = c.list.filter (! p ·.key) ∧
      c'.capacity = c.capacity ∧ c'.maxBytes = c.maxBytes := by
  obtain ⟨map', hloop, hlookup⟩ := invalidateLoop_spec p c.list 0 c.map
  rw [Nat.zero_add, Nat.zero_add, ← h.bytes] at hloop
  have hsub : (c.list.filter (! p ·.key)).Sublist c.list := List.filter_sublist
  refine ⟨{ c with
    list := c.list.filter (! p ·.key)
    currentBytes := totalBytes (c.list.filter (! p ·.key))
    map := map' }, ?_, ?_, rfl, rfl, rfl⟩
  · simp only [Cache.invalidate, hloop, Option.bind_eq_bind, Option.bind_some]
    rfl
  exact {
    keys_nodup := h.keys_nodup.sublist (hsub.map _)
    addresses_nodup := h.addresses_nodup.sublist (hsub.map _)
    allocated := fun n hn => h.allocated n (hsub.subset hn)
    lookup_iff := by
      intro k a
      simp only [hlookup, List.mem_filter]
      split_ifs with hk
      · simp only [false_iff]
        rintro ⟨n, ⟨-, hn⟩, rfl, -⟩
        simp [hk.1] at hn
      · rw [h.lookup_iff]
        constructor
        · rintro ⟨n, hn, rfl, rfl⟩
          refine ⟨n, ⟨hn, ?_⟩, rfl, rfl⟩
          by_contra hp
          exact hk ⟨by simpa using hp, n, hn, rfl⟩
        · rintro ⟨n, ⟨hn, -⟩, rfl, rfl⟩
          exact ⟨n, hn, rfl, rfl⟩
    bytes := rfl }

end Coupled

end LsmTree.LruCache
