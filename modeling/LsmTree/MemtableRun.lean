import LsmTree.Engine
import Mathlib.Algebra.BigOperators.Group.Finset.Basic
import Mathlib.Order.Interval.Finset.Nat

/-!
# Runs of the memtable

A memtable is filled by `put` and `del` calls, each new key drawing a height. Its contents
are the fold of the calls over a sorted layer, so no result depends on the heights: the
layer has each written key once, with what the last call for it wrote. The byte total
follows the entries that come and go. It is a `size_t`, so it equals the sum over the keys
as long as that sum fits, and then every subtraction takes away less than there is.
-/

namespace LsmTree
open LittleEndian LayeredMap

/-! ### The sorted map -/

/-- What the last call for the key wrote, if there is one. -/
def latest (key : Key) (ws : List Op) : Option (Option Bytes) :=
  (ws.reverse.find? fun w => w.key = key).map Op.value

@[simp] theorem latest_nil (key : Key) : latest key [] = none := rfl

theorem latest_append_singleton (key : Key) (ws : List Op) (w : Op) :
    latest key (ws ++ [w]) = if key = w.key then some w.value else latest key ws := by
  rw [latest, List.reverse_append, List.reverse_singleton, List.singleton_append, List.find?_cons]
  by_cases h : w.key = key
  · simp [h]
  · simp [h, Ne.symm h, latest]

theorem latest_isSome_iff (key : Key) (ws : List Op) :
    (latest key ws).isSome ↔ key ∈ ws.map Op.key := by
  simp [latest, List.find?_isSome]

/-- The sorted layer that the calls build up. -/
def layer (ws : List Op) : List (Key × Option Bytes) :=
  ws.foldl (fun es w => upsert w.key w.value es) []

@[simp] theorem layer_append_singleton (ws : List Op) (w : Op) :
    layer (ws ++ [w]) = upsert w.key w.value (layer ws) := by
  simp [layer]

theorem lookup_layer (key : Key) (ws : List Op) : lookup key (layer ws) = latest key ws := by
  induction ws using List.reverseRecOn with
  | nil => rfl
  | append_singleton ws w ih =>
    rw [layer_append_singleton, lookup_upsert, latest_append_singleton, ih]

/-- The bytes of the distinct keys with their current values: eight more for each. -/
def distinctBytes (ws : List Op) : ℕ :=
  ∑ key ∈ (ws.map Op.key).toFinset, (key.size + 8 + valueBytes (latest key ws).join)

namespace Memtable

def apply (m : Memtable) (op : Op) (height : Height) : Memtable :=
  match op with
  | .put key value => m.put key value height
  | .del key => m.del key height

/-- The calls on a fresh memtable, each with the height it would draw. -/
def run (maxBytes : ℕ) (calls : List (Op × Height)) : Memtable :=
  calls.foldl (fun m c => m.apply c.1 c.2) (new maxBytes)

/-- `size()`. -/
def size (m : Memtable) : ℕ := m.count

theorem apply_eq_update (m : Memtable) (op : Op) (height : Height) :
    m.apply op height = m.update op.key op.value height := by
  cases op with
  | put key value => rfl
  | del key => rfl

@[simp] theorem run_append_singleton (maxBytes : ℕ) (calls : List (Op × Height)) (c : Op × Height) :
    run maxBytes (calls ++ [c]) = (run maxBytes calls).apply c.1 c.2 := by
  simp [run]

theorem entries_run (maxBytes : ℕ) (calls : List (Op × Height)) :
    (run maxBytes calls).entries = layer (calls.map Prod.fst) := by
  induction calls using List.reverseRecOn with
  | nil => exact entries_new maxBytes
  | append_singleton calls c ih =>
    rw [run_append_singleton, apply_eq_update, entries_update, ih, List.map_append, List.map_singleton,
      layer_append_singleton]

theorem maxBytes_run (maxBytes : ℕ) (calls : List (Op × Height)) :
    (run maxBytes calls).maxBytes = maxBytes := by
  induction calls using List.reverseRecOn with
  | nil => rfl
  | append_singleton calls c ih => rw [run_append_singleton, apply_eq_update, maxBytes_update, ih]

theorem lookup_run (maxBytes : ℕ) (calls : List (Op × Height)) (key : Key) :
    lookup key (run maxBytes calls).entries = latest key (calls.map Prod.fst) := by
  rw [entries_run, lookup_layer]

theorem mem_entries_iff (m : Memtable) (e : Key × Option Bytes) :
    e ∈ m.entries ↔ lookup e.1 m.entries = some e.2 := by
  constructor
  · exact fun h => lookup_of_mem m.sorted_entries.keys_ne h
  · exact fun h => mem_of_lookup h

theorem keys_nodup (m : Memtable) : (m.entries.map Prod.fst).Nodup :=
  List.pairwise_map.mpr m.sorted_entries.keys_ne

theorem toFinset_keys_run (maxBytes : ℕ) (calls : List (Op × Height)) :
    ((run maxBytes calls).entries.map Prod.fst).toFinset =
      ((calls.map Prod.fst).map Op.key).toFinset := by
  ext key
  rw [List.mem_toFinset, List.mem_toFinset, ← latest_isSome_iff, ← lookup_run maxBytes,
    ← Option.ne_none_iff_isSome, ne_eq, lookup_eq_none_iff]
  simp

/-- The iterator stops: more steps than there are nodes yield nothing more. -/
theorem toListFrom_eq_entries (m : Memtable) {fuel : ℕ} (h : m.list.size ≤ fuel) :
    m.list.toListFrom fuel 0 = m.entries := by
  obtain ⟨order, hvalid⟩ := m.valid
  have hchain := hvalid.chain 0 (by decide)
  rw [List.filter_eq_self.mpr (fun a ha => by simpa using hvalid.height a ha)] at hchain
  rw [entries, hvalid.toList_eq]
  exact SkipList.toListFrom_linked hchain (hvalid.length_le.trans h)

/-- Iteration from `seek(key)` leaves out the smaller keys and nothing else. -/
theorem entries_eq_append_seek (m : Memtable) (key : Key) :
    m.entries = m.entries.filter (·.1 < key) ++ m.seek key := by
  have hsplit := SkipList.filter_lt_append_filter_not_lt (f := Prod.fst) key m.sorted_entries
  simp only [not_lt] at hsplit
  rw [seek_eq, hsplit]

/-- Whatever heights are drawn, `get` answers with the last call for the key, iteration yields
every written key once, in increasing order and with its last value or tombstone, `seek` starts at
the first key that is not smaller, and `size` counts the distinct keys. -/
theorem run_refines_sorted_map (maxBytes : ℕ) (calls : List (Op × Height)) :
    (∀ key, (run maxBytes calls).get key = latest key (calls.map Prod.fst)) ∧
    Sorted (run maxBytes calls).entries ∧
    (∀ key value, (key, value) ∈ (run maxBytes calls).entries ↔
      latest key (calls.map Prod.fst) = some value) ∧
    (∀ fuel, (run maxBytes calls).list.size ≤ fuel →
      (run maxBytes calls).list.toListFrom fuel 0 = (run maxBytes calls).entries) ∧
    (∀ key, ∃ smaller, (run maxBytes calls).entries = smaller ++ (run maxBytes calls).seek key ∧
      (∀ e ∈ smaller, e.1 < key) ∧ ∀ e ∈ (run maxBytes calls).seek key, key ≤ e.1) ∧
    (run maxBytes calls).size = ((calls.map Prod.fst).map Op.key).toFinset.card ∧
    ∀ calls' : List (Op × Height), calls'.map Prod.fst = calls.map Prod.fst →
      (run maxBytes calls').entries = (run maxBytes calls).entries ∧
      (∀ key, (run maxBytes calls').get key = (run maxBytes calls).get key) ∧
      (∀ key, (run maxBytes calls').seek key = (run maxBytes calls).seek key) ∧
      (run maxBytes calls').size = (run maxBytes calls).size := by
  refine ⟨?_, sorted_entries _, ?_, fun fuel => toListFrom_eq_entries _, ?_, ?_, ?_⟩
  · intro key
    rw [get_eq, lookup_run]
  · intro key value
    rw [mem_entries_iff, lookup_run]
  · intro key
    refine ⟨_, entries_eq_append_seek _ key, ?_, ?_⟩
    · simp
    · simp [seek_eq]
  · rw [← toFinset_keys_run maxBytes, List.toFinset_card_of_nodup (keys_nodup _), List.length_map]
    exact count_eq _
  · intro calls' hcalls
    have hentries : (run maxBytes calls').entries = (run maxBytes calls).entries := by
      rw [entries_run, entries_run, hcalls]
    refine ⟨hentries, ?_, ?_, ?_⟩
    · intro key
      rw [get_eq, get_eq, hentries]
    · intro key
      rw [seek_eq, seek_eq, hentries]
    · have hcount : ∀ m : Memtable, m.size = m.entries.length := count_eq
      rw [hcount, hcount, hentries]

/-! ### The byte total -/

/-- What a call hands to `fetch_sub`, when it gets there. -/
def fetchSub (m : Memtable) (op : Op) (height : Height) : Option ℕ :=
  let result := (m.list.insert op.key op.value (height + 1)).2
  if result.inserted then none
  else if valueBytes result.replaced ≤ valueBytes op.value then none
  else some (valueBytes result.replaced - valueBytes op.value)

theorem usedBytes_run (maxBytes : ℕ) (calls : List (Op × Height)) :
    usedBytes (run maxBytes calls).entries = distinctBytes (calls.map Prod.fst) := by
  rw [distinctBytes, ← toFinset_keys_run maxBytes, List.sum_toFinset _ (keys_nodup _), List.map_map,
    usedBytes]
  congr 1
  apply List.map_congr_left
  intro e he
  have hlookup : lookup e.1 (run maxBytes calls).entries = some e.2 := (mem_entries_iff _ e).mp he
  rw [lookup_run] at hlookup
  simp only [entryBytes, Function.comp_apply, hlookup, Option.join_some]
  omega

theorem list_size_eq (m : Memtable) : m.list.size = m.count + 1 := by
  obtain ⟨order, h⟩ := m.valid
  have hcount : m.count = order.length := by
    rw [m.count_eq, h.toList_eq, SkipList.entriesOf, List.length_map]
  have hnodes : order.toFinset = Finset.Ioo 0 m.list.size := by
    ext a
    rw [List.mem_toFinset, h.addresses, Finset.mem_Ioo]
  have hcard : order.length = m.list.size - 0 - 1 := by
    rw [← List.toFinset_card_of_nodup h.nodup, hnodes, Nat.card_Ioo]
  have hpos := h.size_pos
  omega

/-- An entry that is there has its bytes in the total. -/
theorem entryBytes_le_usedBytes {es : List (Key × Option Bytes)} {e : Key × Option Bytes}
    (h : e ∈ es) : entryBytes e ≤ usedBytes es :=
  List.single_le_sum (by simp) _ (List.mem_map_of_mem h)

/-- What is subtracted was counted. -/
theorem fetchSub_le {m : Memtable} {op : Op} {height : Height} {n : ℕ}
    (h : m.fetchSub op height = some n) : n ≤ usedBytes m.entries := by
  obtain ⟨-, -, hinserted, hreplaced⟩ := m.insert_spec op.key op.value height
  simp only [fetchSub, hinserted, hreplaced] at h
  cases hlookup : lookup op.key m.entries with
  | none => simp [hlookup] at h
  | some old =>
    have hmem := entryBytes_le_usedBytes (mem_of_lookup hlookup)
    simp only [hlookup, Option.isNone_some, Bool.false_eq_true, if_false, Option.join_some] at h
    split_ifs at h with hle
    simp only [Option.some.injEq, entryBytes] at h hmem
    omega

theorem currentBytes_of_fits {m : Memtable} (h : usedBytes m.entries < 2 ^ 64) :
    m.currentBytes = usedBytes m.entries := by
  rw [m.currentBytes_eq]
  exact Nat.mod_eq_of_lt h

/-- A subtraction that does not underflow is one in ℕ. -/
theorem currentBytes_apply_of_fetchSub {m : Memtable} {op : Op} {height : Height} {n : ℕ}
    (h : m.fetchSub op height = some n) (hle : n ≤ m.currentBytes) :
    (m.apply op height).currentBytes = m.currentBytes - n := by
  have hlt : m.currentBytes < 2 ^ 64 := by
    rw [m.currentBytes_eq]
    exact Nat.mod_lt _ (by decide)
  rw [apply_eq_update]
  simp only [fetchSub] at h
  simp only [update, chargedBytes]
  split_ifs at h ⊢ with hinserted hle'
  simp only [Option.some.injEq] at h
  rw [adjustValueBytes, if_neg hle']
  omega

/-- While the bytes of the distinct keys fit a `size_t`, the total is exactly their sum, the count
is the number of nodes, nothing is subtracted that the total does not hold, and the memtable is
full when the sum reaches its limit. -/
theorem run_accounts_exactly (maxBytes : ℕ) (calls : List (Op × Height))
    (hfits : ∀ ws, ws <+: calls.map Prod.fst → distinctBytes ws < 2 ^ 64) :
    ∀ before after, calls = before ++ after →
      (run maxBytes before).currentBytes = distinctBytes (before.map Prod.fst) ∧
      (run maxBytes before).list.size = (run maxBytes before).count + 1 ∧
      (run maxBytes before).count = (run maxBytes before).entries.length ∧
      (run maxBytes before).count < 2 ^ 64 ∧
      ((run maxBytes before).isFull = true ↔ maxBytes ≤ distinctBytes (before.map Prod.fst)) ∧
      ∀ op height rest n, after = (op, height) :: rest →
        (run maxBytes before).fetchSub op height = some n →
          n ≤ (run maxBytes before).currentBytes ∧
          (run maxBytes (before ++ [(op, height)])).currentBytes =
            (run maxBytes before).currentBytes - n := by
  rintro before after rfl
  have hused := usedBytes_run maxBytes before
  have hlt : usedBytes (run maxBytes before).entries < 2 ^ 64 := by
    rw [hused]
    exact hfits _ (by simp)
  have htotal : (run maxBytes before).currentBytes = distinctBytes (before.map Prod.fst) := by
    rw [currentBytes_of_fits hlt, hused]
  have hcount : (run maxBytes before).count = (run maxBytes before).entries.length := count_eq _
  refine ⟨htotal, list_size_eq _, hcount, ?_, ?_, ?_⟩
  · have := eight_mul_length_le (run maxBytes before).entries
    omega
  · rw [isFull, decide_eq_true_iff, maxBytes_run, htotal]
  · intro op height rest n _ hsub
    have hle : n ≤ (run maxBytes before).currentBytes := by
      rw [currentBytes_of_fits hlt]
      exact fetchSub_le hsub
    refine ⟨hle, ?_⟩
    rw [run_append_singleton]
    exact currentBytes_apply_of_fetchSub hsub hle

/-- A key written, overwritten by a shorter value and deleted: both later calls subtract. -/
def shrinkingCalls : List (Op × Height) :=
  [(.put (.ofBytes [1]) [7, 7], 0), (.put (.ofBytes [1]) [7], 3), (.del (.ofBytes [1]), 0)]

theorem run_accounts_exactly_shrinking :
    (∀ ws, ws <+: shrinkingCalls.map Prod.fst → distinctBytes ws < 2 ^ 64) ∧
      (run 10 shrinkingCalls).currentBytes = 9 := by
  have hfits : ∀ ws, ws <+: shrinkingCalls.map Prod.fst → distinctBytes ws < 2 ^ 64 := by
    have hinits : ∀ ws ∈ (shrinkingCalls.map Prod.fst).inits, distinctBytes ws < 2 ^ 64 := by
      decide +kernel
    exact fun ws hws => hinits ws ((List.mem_inits _ _).mpr hws)
  have htotal : distinctBytes (shrinkingCalls.map Prod.fst) = 9 := by decide +kernel
  refine ⟨hfits, ?_⟩
  rw [(run_accounts_exactly 10 shrinkingCalls hfits shrinkingCalls [] (List.append_nil _).symm).1]
  exact htotal

end Memtable

end LsmTree
