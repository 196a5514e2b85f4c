import LsmTree.LruBlockCache
import LsmTree.TableLookup
import LsmTree.Transition

/-!
# Tables that share the block cache

All tables of a process look up blocks in one cache, under their path and the offset of
the block. File names are used again with other contents, so what the cache has for a
path must not outlive the tables on it: destroying a table invalidates its path. Every
cached block then belongs to a path with an open table and is the block that the table
would read, and a lookup answers as it would with nothing cached.
-/

namespace LsmTree.Table
open LittleEndian LayeredMap LruCache Transition

/-- What a parsed block has reserved when it is handed to the cache. -/
structure Reserved where
  capacity : ℕ
  keyCapacity : ℕ → ℕ
  valueCapacity : ℕ → ℕ

def Reserved.block (r : Reserved) (entries : List Entry) : Block :=
  ⟨entries, r.capacity, r.keyCapacity, r.valueCapacity⟩

/-- `SSTable::get` with the cache of the process; nothing if the cache breaks. -/
def OpenTable.getShared (transferMax : ℕ) (t : OpenTable) (path : String) (cache : LruBlockCache) (key : Key) (r : Reserved) :
    Option (Except ReadError (Option (Option Bytes)) × LruBlockCache) :=
  if t.bloom.mayContain key.bytes then
    match t.index[blockOf t.index key]? with
    | none => some (.ok none, cache)
    | some p =>
      let stop := t.blockEnd (blockOf t.index key)
      match cache.get path p.2 with
      | none => none
      | some (cache', some block) => some (.ok (scanBlock key block), cache')
      | some (cache', none) =>
        if stop ≤ p.2 then some (.ok none, cache')
        else if (pread transferMax t.file p.2 (stop - p.2)).length < stop - p.2 then
          some (.error .incompleteRead, cache')
        else
          match cache'.put path p.2 (r.block (t.readBlock transferMax p.2 stop)) with
          | none => none
          | some (cache'', _) => some (.ok (scanBlock key (t.readBlock transferMax p.2 stop)), cache'')
  else some (.ok none, cache)

/-- The files, the table objects with the paths they were opened on, and the cache. -/
structure TableStore where
  files : String → Option Bytes
  tables : ℕ → Option (String × OpenTable)
  cache : LruBlockCache

inductive StoreCall where
  | write (path : String) (numBlocks : ℕ) (h : 0 < numBlocks) (entries : List Entry)
  | remove (path : String)
  | construct (id : ℕ) (path : String)
  | get (id : ℕ) (key : Key) (reserved : Reserved)
  | destroy (id : ℕ)

namespace TableStore

def empty (capacity maxBytes : ℕ) : TableStore where
  files := fun _ => none
  tables := fun _ => none
  cache := .new capacity maxBytes

/-- No table object is open on the path. -/
def Unused (s : TableStore) (path : String) : Prop := ∀ id p, s.tables id = some p → p.1 ≠ path

/-- Files are only written, replaced and removed under paths that no table is open on. -/
def Enabled (s : TableStore) : StoreCall → Prop
  | .write path _ _ _ => s.Unused path
  | .remove path => s.Unused path
  | .construct id _ => s.tables id = none
  | .get id _ _ => s.tables id ≠ none
  | .destroy id => s.tables id ≠ none

def next (transferMax : ℕ) (s : TableStore) : StoreCall → TableStore
  | .write path numBlocks h entries =>
    match Table.write numBlocks h entries with
    | .error _ => s
    | .ok file => { s with files := Function.update s.files path (some file) }
  | .remove path => { s with files := Function.update s.files path none }
  | .construct id path =>
    match s.files path with
    | none => s
    | some file =>
      match openTable file with
      | .error _ => s
      | .ok t => { s with tables := Function.update s.tables id (some (path, t)) }
  | .get id key reserved =>
    match s.tables id with
    | none => s
    | some (path, t) =>
      match t.getShared transferMax path s.cache key reserved with
      | none => s
      | some (_, cache) => { s with cache := cache }
  | .destroy id =>
    match s.tables id with
    | none => s
    | some (path, _) =>
      match s.cache.invalidatePath path with
      | none => s
      | some cache => { s with tables := Function.update s.tables id none, cache := cache }

def system (transferMax : ℕ) : System TableStore StoreCall := ⟨Enabled, next transferMax⟩

end TableStore

/-! ### One lookup -/

/-- The block the table has at the offset, which one `pread` moves. -/
def OpenTable.Provides (transferMax : ℕ) (t : OpenTable) (offset : ℕ) (entries : List Entry) : Prop :=
  ∃ i p, t.index[i]? = some p ∧ p.2 = offset ∧ t.Readable transferMax p.2 (t.blockEnd i) ∧
    entries = t.readBlock transferMax p.2 (t.blockEnd i)

/-- What the cache has for a path. -/
def LruBlockCache.view (c : LruBlockCache) (path : String) : BlockCache :=
  fun offset => (c.list.find? (·.key = CacheKey.mk path offset)).map (·.value.entries)

section Lookup
variable {transferMax : ℕ} {t : OpenTable} {es : List Entry} {path : String} {cache : LruBlockCache}

theorem view_mem {offset : ℕ} {block : List Entry} (h : cache.view path offset = some block) :
    ∃ n ∈ cache.list, n.key = ⟨path, offset⟩ ∧ n.value.entries = block := by
  obtain ⟨n, hfind, hentries⟩ := Option.map_eq_some_iff.mp h
  exact ⟨n, List.mem_of_find?_eq_some hfind, by simpa using List.find?_some hfind, hentries⟩

theorem coherent_view (h : t.Holds es)
    (hcache : ∀ n ∈ cache.list, n.key.sstablePath = path → t.Provides transferMax n.key.blockOffset n.value.entries) :
    t.Coherent transferMax (cache.view path) := by
  intro i p block hp hview
  obtain ⟨n, hn, hkey, rfl⟩ := view_mem hview
  obtain ⟨j, q, hq, hoffset, hread, hentries⟩ := hcache n hn (by rw [hkey])
  have hqp : q.2 = p.2 := by rw [hoffset, hkey]
  rw [hqp, h.eq_of_offset_eq hp hq hqp] at hread hentries
  exact ⟨hread, hentries⟩

/-- A lookup through the shared cache answers as one with what the cache has for the path, and
leaves there what was there before or the table's own block. -/
theorem getShared_eq (transferMax : ℕ) (t : OpenTable) (path : String) (hcoupled : Coupled cache) (key : Key) (r : Reserved) :
    ∃ cache', t.getShared transferMax path cache key r =
        some ((t.get transferMax (cache.view path) key).1, cache') ∧ Coupled cache' ∧
      ∀ n ∈ cache'.list, n ∈ cache.list ∨
        n.key.sstablePath = path ∧ t.Provides transferMax n.key.blockOffset n.value.entries := by
  rw [OpenTable.getShared, OpenTable.get]
  split_ifs with hmay
  · cases hp : t.index[blockOf t.index key]? with
    | none => exact ⟨cache, rfl, hcoupled, fun n hn => .inl hn⟩
    | some p =>
      obtain ⟨cache', hget, hcoupled', hlist, -⟩ := hcoupled.get_spec ⟨path, p.2⟩
      have hmem : ∀ n ∈ cache'.list, n ∈ cache.list := by
        intro n hn
        rw [hlist, List.mem_append, List.mem_filter, List.mem_filter] at hn
        rcases hn with hn | hn
        · exact hn.1
        · exact hn.1
      have hget' : LruBlockCache.get cache path p.2 = some (cache', cache.view path p.2) := by
        rw [LruBlockCache.get, hget]
        simp [LruBlockCache.view, Function.comp_def]
      simp only [hget']
      cases hview : cache.view path p.2 with
      | some block => exact ⟨cache', rfl, hcoupled', fun n hn => .inl (hmem n hn)⟩
      | none =>
        simp only
        split_ifs with hstop hshort
        · exact ⟨cache', rfl, hcoupled', fun n hn => .inl (hmem n hn)⟩
        · exact ⟨cache', rfl, hcoupled', fun n hn => .inl (hmem n hn)⟩
        · obtain ⟨cache'', m, out, hput, hcoupled'', hkey, hvalue, -, hlist', -⟩ := hcoupled'.put_spec
            ⟨path, p.2⟩ (r.block (t.readBlock transferMax p.2 (t.blockEnd (blockOf t.index key)))) _
          have hput' : LruBlockCache.put cache' path p.2 _ = some (cache'', _) := hput
          refine ⟨cache'', by rw [hput'], hcoupled'', ?_⟩
          intro n hn
          have hn' : n ∈ m :: cache'.list.filter (·.key ≠ ⟨path, p.2⟩) := hlist' ▸ List.mem_append_left _ hn
          rcases List.mem_cons.mp hn' with rfl | hn'
          · refine .inr ⟨by rw [hkey], _, p, hp, by rw [hkey], ⟨Nat.lt_of_not_le hstop, hshort⟩, ?_⟩
            rw [hvalue]
            rfl
          · exact .inl (hmem n (List.mem_filter.mp hn').1)
  · exact ⟨cache, rfl, hcoupled, fun n hn => .inl hn⟩

end Lookup

/-! ### Runs -/

/-- Files were written by `SSTable::write`, tables are open on the file at their path, and what is
cached is a block of an open table. -/
structure TableStore.Coherent (transferMax : ℕ) (s : TableStore) : Prop where
  written : ∀ path file, s.files path = some file →
    ∃ numBlocks h entries, Table.write numBlocks h entries = .ok file
  opened : ∀ id path t, s.tables id = some (path, t) →
    ∃ file, s.files path = some file ∧ openTable file = .ok t
  coupled : Coupled s.cache
  cached : ∀ n ∈ s.cache.list, ∃ id t, s.tables id = some (n.key.sstablePath, t) ∧
    t.Provides transferMax n.key.blockOffset n.value.entries

namespace TableStore

theorem coherent_empty (transferMax capacity maxBytes : ℕ) : (empty capacity maxBytes).Coherent transferMax where
  written := by simp [empty]
  opened := by simp [empty]
  coupled := .new capacity maxBytes
  cached := by simp [empty, Cache.new]

namespace Coherent
variable {transferMax : ℕ} {s : TableStore}

/-- Tables on one path are the same table. -/
theorem provides (h : s.Coherent transferMax) {id : ℕ} {path : String} {t : OpenTable} (hopen : s.tables id = some (path, t)) :
    ∀ n ∈ s.cache.list, n.key.sstablePath = path → t.Provides transferMax n.key.blockOffset n.value.entries := by
  rintro n hn rfl
  obtain ⟨id', t', hopen', hprovides⟩ := h.cached n hn
  obtain ⟨file, hfile, ht⟩ := h.opened id _ t hopen
  obtain ⟨file', hfile', ht'⟩ := h.opened id' _ t' hopen'
  rw [hfile] at hfile'
  cases hfile'
  rw [ht] at ht'
  cases ht'
  exact hprovides

/-- Files under unused paths come and go without a trace in the tables and the cache. -/
theorem updateFile (h : s.Coherent transferMax) {path : String} (hunused : s.Unused path) {file? : Option Bytes}
    (hfile : ∀ file, file? = some file → ∃ numBlocks h entries, Table.write numBlocks h entries = .ok file) :
    TableStore.Coherent transferMax { s with files := Function.update s.files path file? } where
  written := by
    intro path' file hf
    by_cases hpath : path' = path
    · simp only [hpath, Function.update_self] at hf
      exact hfile file hf
    · simp only [Function.update_of_ne hpath] at hf
      exact h.written path' file hf
  opened := by
    intro id path' t hopen
    simp only [Function.update_of_ne (hunused id _ hopen)]
    exact h.opened id path' t hopen
  coupled := h.coupled
  cached := h.cached

theorem construct (h : s.Coherent transferMax) {id : ℕ} (hid : s.tables id = none) {path : String} {file : Bytes}
    {t : OpenTable} (hfile : s.files path = some file) (ht : openTable file = .ok t) :
    TableStore.Coherent transferMax { s with tables := Function.update s.tables id (some (path, t)) } where
  written := h.written
  opened := by
    intro id' path' t' hopen
    by_cases heq : id' = id
    · simp only [heq, Function.update_self, Option.some.injEq, Prod.mk.injEq] at hopen
      obtain ⟨rfl, rfl⟩ := hopen
      exact ⟨file, hfile, ht⟩
    · simp only [Function.update_of_ne heq] at hopen
      exact h.opened id' path' t' hopen
  coupled := h.coupled
  cached := by
    intro n hn
    obtain ⟨id', t', hopen, hprovides⟩ := h.cached n hn
    have hne : id' ≠ id := by
      rintro rfl
      rw [hid] at hopen
      cases hopen
    exact ⟨id', t', by simpa only [Function.update_of_ne hne] using hopen, hprovides⟩

theorem updateCache (h : s.Coherent transferMax) {cache : LruBlockCache} (hcoupled : Coupled cache) {id : ℕ} {path : String}
    {t : OpenTable} (hopen : s.tables id = some (path, t))
    (hcache : ∀ n ∈ cache.list, n ∈ s.cache.list ∨
      n.key.sstablePath = path ∧ t.Provides transferMax n.key.blockOffset n.value.entries) :
    TableStore.Coherent transferMax { s with cache := cache } where
  written := h.written
  opened := h.opened
  coupled := hcoupled
  cached := by
    intro n hn
    rcases hcache n hn with hn | ⟨rfl, hprovides⟩
    · exact h.cached n hn
    · exact ⟨id, t, hopen, hprovides⟩

/-- Nothing of the path is left in the cache, so no block loses its table. -/
theorem destroy (h : s.Coherent transferMax) {id : ℕ} {path : String} {t : OpenTable} (hopen : s.tables id = some (path, t)) :
    ∃ cache, s.cache.invalidatePath path = some cache ∧
      TableStore.Coherent transferMax { s with tables := Function.update s.tables id none, cache := cache } := by
  obtain ⟨cache, hinvalidate, hcoupled, hlist, -⟩ := h.coupled.invalidate_spec fun key => key.sstablePath = path
  refine ⟨cache, hinvalidate, h.written, ?_, hcoupled, ?_⟩
  · intro id' path' t' hopen'
    by_cases heq : id' = id
    · simp [heq] at hopen'
    · simp only [Function.update_of_ne heq] at hopen'
      exact h.opened id' path' t' hopen'
  · intro n hn
    rw [hlist, List.mem_filter] at hn
    obtain ⟨hn, hpath⟩ := hn
    obtain ⟨id', t', hopen', hprovides⟩ := h.cached n hn
    have hne : id' ≠ id := by
      rintro rfl
      rw [hopen] at hopen'
      cases hopen'
      simp at hpath
    exact ⟨id', t', by simpa only [Function.update_of_ne hne] using hopen', hprovides⟩

theorem next (h : s.Coherent transferMax) {call : StoreCall} (henabled : s.Enabled call) : (s.next transferMax call).Coherent transferMax := by
  cases call with
  | write path numBlocks hpos entries =>
    cases hwrite : Table.write numBlocks hpos entries with
    | error err =>
      simp only [TableStore.next, hwrite]
      exact h
    | ok file =>
      simp only [TableStore.next, hwrite]
      refine h.updateFile henabled ?_
      rintro _ ⟨⟩
      exact ⟨numBlocks, hpos, entries, hwrite⟩
  | remove path => exact h.updateFile henabled (by simp)
  | construct id path =>
    cases hfile : s.files path with
    | none =>
      simp only [TableStore.next, hfile]
      exact h
    | some file =>
      cases hopen : openTable file with
      | error err =>
        simp only [TableStore.next, hfile, hopen]
        exact h
      | ok t =>
        simp only [TableStore.next, hfile, hopen]
        exact h.construct henabled hfile hopen
  | get id key reserved =>
    obtain ⟨⟨path, t⟩, hopen⟩ := Option.ne_none_iff_exists'.mp henabled
    obtain ⟨cache, hget, hcoupled, hcache⟩ := getShared_eq transferMax t path h.coupled key reserved
    simp only [TableStore.next, hopen, hget]
    exact h.updateCache hcoupled hopen hcache
  | destroy id =>
    obtain ⟨⟨path, t⟩, hopen⟩ := Option.ne_none_iff_exists'.mp henabled
    obtain ⟨cache, hinvalidate, hcoherent⟩ := h.destroy hopen
    simp only [TableStore.next, hopen, hinvalidate]
    exact hcoherent

end Coherent

/-- However tables are written, opened, asked and destroyed, and files under unused paths removed or
written again: every open table answers as it would with an empty cache. It answers what the entries
of the file at its path say, or throws for a block that one `pread` cannot move, and destroying it
finds the cache in order. -/
theorem shared_cache_changes_no_answer {transferMax capacity maxBytes : ℕ} {calls : List StoreCall} {s : TableStore}
    (hrun : Run (system transferMax) (fun _ _ => True) (empty capacity maxBytes) calls s) {id : ℕ} {path : String}
    {t : OpenTable} (hopen : s.tables id = some (path, t)) (key : Key) (r : Reserved) :
    ∃ file numBlocks hpos es answer, s.files path = some file ∧ Table.write numBlocks hpos es = .ok file ∧
      (∃ cache, t.getShared transferMax path s.cache key r = some (answer, cache)) ∧
      (∃ cache, t.getShared transferMax path (.new capacity maxBytes) key r = some (answer, cache)) ∧
      (answer = .ok (lookup key es) ∨ answer = .error .incompleteRead ∧ t.LongBlock transferMax key) ∧
      ∃ cache, s.cache.invalidatePath path = some cache := by
  have h : s.Coherent transferMax := hrun.invariant (TableStore.Coherent transferMax)
    (fun _ _ hs _ henabled => hs.next henabled) (coherent_empty transferMax capacity maxBytes)
  obtain ⟨file, hfile, ht⟩ := h.opened id path t hopen
  obtain ⟨numBlocks, hpos, es, hwrite⟩ := h.written path file hfile
  obtain ⟨t', ht', hholds⟩ := openTable_of_write hwrite
  rw [ht] at ht'
  cases ht'
  have hcached := coherent_view hholds (h.provides hopen)
  have hempty : t.Coherent transferMax (LruBlockCache.view (.new capacity maxBytes) path) :=
    coherent_view hholds (by simp [Cache.new])
  refine ⟨file, numBlocks, hpos, es, (t.get transferMax (fun _ => none) key).1, hfile, hwrite, ?_, ?_,
    hholds.get_spec (t.coherent_empty transferMax) key, ?_⟩
  · obtain ⟨cache, hget, -⟩ := getShared_eq transferMax t path h.coupled key r
    rw [OpenTable.get_eq_of_coherent hcached] at hget
    exact ⟨cache, hget⟩
  · obtain ⟨cache, hget, -⟩ := getShared_eq transferMax t path (Coupled.new capacity maxBytes) key r
    rw [OpenTable.get_eq_of_coherent hempty] at hget
    exact ⟨cache, hget⟩
  · obtain ⟨cache, hinvalidate, -⟩ := h.destroy hopen
    exact ⟨cache, hinvalidate⟩

/-- The later contents of a path. -/
def laterTable : List Entry := [(.ofBytes [1], some [6])]

theorem write_laterTable : Table.write 1 Nat.one_pos laterTable = .ok (encode 1 Nat.one_pos laterTable) := by
  refine write_eq_ok_iff.mpr ⟨by decide, ?_, by decide, by decide +kernel, rfl⟩
  exact (firstTooLong_eq_none_iff laterTable).mp (by decide)

/-- A path is written, opened, asked and destroyed, then written again with another value, opened and
asked. -/
def recreated : List StoreCall :=
  let r : Reserved := ⟨2, fun _ => 15, fun _ => 15⟩
  [.write "sst-0-000000.sst" 1 Nat.one_pos smallTable, .construct 0 "sst-0-000000.sst", .get 0 (.ofBytes [1]) r,
    .destroy 0, .write "sst-0-000000.sst" 1 Nat.one_pos laterTable, .construct 1 "sst-0-000000.sst",
    .get 1 (.ofBytes [1]) r]

/-- The store after the first calls of this run. -/
def afterCalls (n : ℕ) : TableStore := (recreated.take n).foldl (next linuxTransferMax) (empty 2 4096)

/-- Calls about one object leave the others alone. -/
theorem tables_next_of_ne {transferMax : ℕ} {s : TableStore} {call : StoreCall} {id : ℕ}
    (hconstruct : ∀ path, call ≠ .construct id path) (hdestroy : call ≠ .destroy id) :
    (s.next transferMax call).tables id = s.tables id := by
  cases call with
  | write path numBlocks h entries =>
    rw [next]
    split <;> rfl
  | remove path => rfl
  | construct id' path =>
    have hne : id ≠ id' := fun heq => hconstruct path (heq ▸ rfl)
    rw [next]
    split
    · rfl
    · split
      · rfl
      · exact Function.update_of_ne hne _ _
  | get id' key reserved =>
    rw [next]
    split
    · rfl
    · split <;> rfl
  | destroy id' =>
    have hne : id ≠ id' := fun heq => hdestroy (heq ▸ rfl)
    rw [next]
    split
    · rfl
    · split
      · rfl
      · exact Function.update_of_ne hne _ _

theorem run_afterCalls {n : ℕ} (h : ∀ k < n, ∀ call, recreated[k]? = some call → (afterCalls k).Enabled call) :
    Run (system linuxTransferMax) (fun _ _ => True) (empty 2 4096) (recreated.take n) (afterCalls n) := by
  induction n with
  | zero => exact .nil _
  | succ n ih =>
    have hrun := ih fun k hk => h k (Nat.lt_succ_of_lt hk)
    rw [afterCalls, List.take_add_one, List.foldl_append]
    cases hcall : recreated[n]? with
    | none =>
      rw [Option.toList_none, List.append_nil]
      exact hrun
    | some call => exact hrun.append (.cons trivial (h n (Nat.lt_succ_self n) call hcall) (.nil _))

theorem unused_recreated : (afterCalls 4).Unused "sst-0-000000.sst" := by
  intro id p hp
  by_cases hid : id = 0
  · rw [hid, Option.isNone_iff_eq_none.mp (show ((afterCalls 4).tables 0).isNone = true by decide +kernel)] at hp
    cases hp
  · have hopened : (afterCalls 4).tables id = (empty 2 4096).tables id := by
      simp only [afterCalls, recreated, List.take_succ_cons, List.take_zero, List.foldl_cons, List.foldl_nil]
      rw [tables_next_of_ne (by simp) (by simp [Ne.symm hid]), tables_next_of_ne (by simp) (by simp),
        tables_next_of_ne (by simp [Ne.symm hid]) (by simp), tables_next_of_ne (by simp) (by simp)]
    rw [hopened] at hp
    cases hp

theorem run_recreated :
    Run (system linuxTransferMax) (fun _ _ => True) (empty 2 4096) recreated (afterCalls 7) := by
  refine @run_afterCalls 7 fun k hk call hcall => ?_
  match k with
  | 0 =>
    cases hcall
    rintro id p ⟨⟩
  | 1 =>
    cases hcall
    exact Option.isNone_iff_eq_none.mp (show ((afterCalls 1).tables 0).isNone = true by decide +kernel)
  | 2 =>
    cases hcall
    exact Option.isSome_iff_ne_none.mp (show ((afterCalls 2).tables 0).isSome = true by decide +kernel)
  | 3 =>
    cases hcall
    exact Option.isSome_iff_ne_none.mp (show ((afterCalls 3).tables 0).isSome = true by decide +kernel)
  | 4 =>
    cases hcall
    exact unused_recreated
  | 5 =>
    cases hcall
    exact Option.isNone_iff_eq_none.mp (show ((afterCalls 5).tables 1).isNone = true by decide +kernel)
  | 6 =>
    cases hcall
    exact Option.isSome_iff_ne_none.mp (show ((afterCalls 6).tables 1).isSome = true by decide +kernel)
  | k + 7 => omega

/-- The block of the later file is cached, and its value is the answer. -/
theorem shared_cache_changes_no_answer_recreated :
    ∃ t, Run (system linuxTransferMax) (fun _ _ => True) (empty 2 4096) recreated (afterCalls 7) ∧
      (afterCalls 7).tables 1 = some ("sst-0-000000.sst", t) ∧
      (afterCalls 7).cache.view "sst-0-000000.sst" 0 = some laterTable ∧
      ∃ cache, t.getShared linuxTransferMax "sst-0-000000.sst" (afterCalls 7).cache (.ofBytes [1])
        ⟨2, fun _ => 15, fun _ => 15⟩ = some (.ok (some (some [6])), cache) := by
  have hpath : ((afterCalls 7).tables 1).map Prod.fst = some "sst-0-000000.sst" := by decide +kernel
  obtain ⟨⟨path, t⟩, hopen, rfl⟩ := Option.map_eq_some_iff.mp hpath
  obtain ⟨file, numBlocks, hpos, es, answer, hfile, hwrite, ⟨cache, hget⟩, -, hanswer, -⟩ :=
    shared_cache_changes_no_answer run_recreated hopen (.ofBytes [1]) ⟨2, fun _ => 15, fun _ => 15⟩
  have hlater : (afterCalls 7).files "sst-0-000000.sst" = some (encode 1 Nat.one_pos laterTable) := by decide +kernel
  rw [hlater] at hfile
  obtain rfl := Option.some.inj hfile
  have hes : es = laterTable := by
    obtain ⟨u, hu, hholds⟩ := openTable_of_write hwrite
    obtain ⟨u', hu', hholds'⟩ := openTable_of_write write_laterTable
    obtain rfl := Except.ok.inj (hu.symm.trans hu')
    exact Except.ok.inj (hholds.readAll_eq.symm.trans hholds'.readAll_eq)
  have hshape : ((afterCalls 7).tables 1).map (fun p => (p.2.index, p.2.indexOffset)) =
      some ([(.ofBytes [1], 0)], 11) := by decide +kernel
  rw [hopen, Option.map_some, Option.some.injEq, Prod.mk.injEq] at hshape
  obtain ⟨hindex, hoffset⟩ : t.index = [(.ofBytes [1], 0)] ∧ t.indexOffset = 11 := hshape
  have hshort : ¬ t.LongBlock linuxTransferMax (.ofBytes [1]) := by
    simp [OpenTable.LongBlock, OpenTable.blockEnd, hindex, hoffset, blockOf, searchBlocks, linuxTransferMax]
  refine ⟨t, run_recreated, hopen, by decide +kernel, cache, ?_⟩
  rw [hget, hanswer.resolve_right fun hthrows => hshort hthrows.2, hes]
  rfl

end TableStore

end LsmTree.Table
