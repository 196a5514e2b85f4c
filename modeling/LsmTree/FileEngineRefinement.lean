import LsmTree.CompactionRun
import LsmTree.FileEngine
import LsmTree.TableDecoders

/-!
# The engine on its files refines a map

The engine on files and the engine on lists of entries take the same steps: every table
file is the encoding of the entries of its table, and what was opened is what opening the
file gives. So each read of a file finds the entries behind it, and a compaction merges
the same streams. What the block cache holds for a path belongs to the open table of that
name, since a table is destroyed before its name is given out again.

With the refinement of a map by the engine on lists, the answers of a run are those of a
map, up to a call that runs out of numbers or has more entries than a table file can
hold. No read is answered wrongly; a lookup that gets to a block longer than one `pread`
moves throws.
-/

namespace LsmTree
open LittleEndian LayeredMap Merge ByteStream Table LruCache

/-! ### Files -/

theorem findFile_removeFile (files : FileList) (name x : TableName) :
    findFile (removeFile files name) x = if x = name then none else findFile files x := by
  rw [findFile, removeFile, List.find?_filter, findFile]
  split_ifs with hx
  · have hnone : files.find? (fun p => decide (decide (p.1 ≠ name) = true ∧ decide (p.1 = x) = true)) = none := by
      rw [List.find?_eq_none]
      simp [hx]
    rw [hnone, Option.map_none]
  · congr 2
    funext p
    by_cases hp : p.1 = x <;> simp [hp, hx]

theorem findFile_publishFile (files : FileList) (name : TableName) (file : Bytes) (x : TableName) :
    findFile (publishFile files name file) x = if x = name then some file else findFile files x := by
  have hremoved := findFile_removeFile files name x
  rw [findFile, removeFile] at hremoved
  rw [findFile, publishFile, List.find?_append]
  split_ifs at hremoved ⊢ with hx
  · rw [Option.map_eq_none_iff.mp hremoved, Option.none_or, List.find?_singleton, if_pos (by simp [hx])]
    rfl
  · rw [List.find?_singleton, if_neg (by simpa using Ne.symm hx), Option.or_none, hremoved]

theorem findFile_publishFile_self (files : FileList) (name : TableName) (file : Bytes) :
    findFile (publishFile files name file) name = some file := by rw [findFile_publishFile, if_pos rfl]

section FileOf
variable (sizes : Sizes)

/-- The file of a table. -/
def fileOf (t : SSTable) : TableName × Bytes :=
  (t.name, encode (sizes.numBlocks t.entries.length) (sizes.pos _) t.entries)

variable {sizes}

theorem Accepted.of_write {es : List Table.Entry} {file : Bytes}
    (h : Table.write (sizes.numBlocks es.length) (sizes.pos _) es = .ok file) :
    Accepted sizes es ∧ file = encode (sizes.numBlocks es.length) (sizes.pos _) es := by
  have hfile := (write_eq_ok_iff.mp h).2.2.2.2
  exact ⟨by rw [Accepted, hfile]; exact h, hfile.symm⟩

theorem findFile_fileOf {ts : List SSTable} (hnodup : (ts.map SSTable.name).Nodup) {t : SSTable} (ht : t ∈ ts) :
    findFile (ts.map (fileOf sizes)) t.name = some (fileOf sizes t).2 := by
  rw [findFile, Option.map_eq_some_iff]
  refine ⟨fileOf sizes t, ?_, rfl⟩
  rw [List.find?_map, Option.map_eq_some_iff]
  refine ⟨t, ?_, rfl⟩
  induction ts with
  | nil => cases ht
  | cons s ts ih =>
    rw [List.map_cons, List.nodup_cons] at hnodup
    rcases List.mem_cons.mp ht with rfl | ht
    · simp [fileOf]
    · have hne : s.name ≠ t.name := fun heq => hnodup.1 (heq ▸ List.mem_map_of_mem ht)
      rw [List.find?_cons_of_neg (by simp [fileOf, hne])]
      exact ih hnodup.2 ht

theorem map_fileOf_filter (ts : List SSTable) (name : TableName) :
    (ts.filter (·.name ≠ name)).map (fileOf sizes) = removeFile (ts.map (fileOf sizes)) name := by
  rw [removeFile, List.filter_map]
  rfl

theorem publishFile_fileOf (d : Directory) (t : SSTable) :
    publishFile (d.files.map (fileOf sizes)) t.name (fileOf sizes t).2 =
      (d.apply (.publish t)).files.map (fileOf sizes) := by
  rw [Directory.apply, List.map_append, map_fileOf_filter]
  rfl

theorem publishAll_fileOf (d : Directory) (ts : List SSTable) :
    publishAll (d.files.map (fileOf sizes)) (ts.map (fileOf sizes)) =
      (d.applyAll (ts.map .publish)).files.map (fileOf sizes) := by
  induction ts generalizing d with
  | nil => rfl
  | cons t ts ih =>
    have hrest := ih (d.apply (.publish t))
    rw [← publishFile_fileOf] at hrest
    exact hrest

end FileOf

theorem nextNumber_map_name (level : Level) (ts : List SSTable) :
    nextNumber level (ts.map SSTable.name) = nextCounter level ts := by
  induction ts with
  | nil => rfl
  | cons t ts ih => rw [List.map_cons, nextNumber, nextCounter, ih]

/-! ### Open tables -/

theorem exists_of_forall₂ {α β : Type} {R : α → β → Prop} {xs : List α} {ys : List β} (h : List.Forall₂ R xs ys)
    {x : α} (hx : x ∈ xs) : ∃ y ∈ ys, R x y := by
  induction h with
  | nil => cases hx
  | cons hxy _ ih =>
    rcases List.mem_cons.mp hx with rfl | hx
    · exact ⟨_, List.mem_cons_self, hxy⟩
    · obtain ⟨y, hy, hR⟩ := ih hx
      exact ⟨y, List.mem_cons_of_mem _ hy, hR⟩

/-- The table was opened on the file of the other. -/
structure OpenedAs (sizes : Sizes) (o : OpenFile) (t : SSTable) : Prop where
  name : o.name = t.name
  accepted : Accepted sizes t.entries
  open_eq : openTable (fileOf sizes t).2 = .ok o.table

theorem OpenedAs.holds {sizes : Sizes} {o : OpenFile} {t : SSTable} (h : OpenedAs sizes o t) :
    o.table.Holds t.entries := by
  obtain ⟨table, hopen, hholds⟩ := openTable_of_write h.accepted
  have heq := h.open_eq
  rw [fileOf, hopen] at heq
  cases heq
  exact hholds

theorem OpenedAs.map_name {sizes : Sizes} {os : List OpenFile} {ts : List SSTable}
    (h : List.Forall₂ (OpenedAs sizes) os ts) : os.map OpenFile.name = ts.map SSTable.name := by
  induction h with
  | nil => rfl
  | cons ho _ ih => rw [List.map_cons, List.map_cons, ho.name, ih]

theorem openFile_of_find {files : FileList} {name : TableName} {file : Bytes} {t : OpenTable}
    (hfind : findFile files name = some file) (hopen : openTable file = .ok t) :
    openFile files name = .ok ⟨name, t⟩ := by
  simp only [openFile, hfind, hopen]

/-- A list that can be found and opened is opened. -/
theorem openAll_fileOf {sizes : Sizes} {files : FileList} {ts : List SSTable}
    (hfind : ∀ t ∈ ts, findFile files t.name = some (fileOf sizes t).2)
    (haccepted : ∀ t ∈ ts, Accepted sizes t.entries) :
    ∃ os, openAll files (ts.map SSTable.name) = .ok os ∧ List.Forall₂ (OpenedAs sizes) os ts := by
  induction ts with
  | nil => exact ⟨[], rfl, .nil⟩
  | cons t ts ih =>
    obtain ⟨os, hos, hopened⟩ := ih (fun s hs => hfind s (List.mem_cons_of_mem _ hs))
      fun s hs => haccepted s (List.mem_cons_of_mem _ hs)
    obtain ⟨table, hopen, -⟩ := openTable_of_write (haccepted t List.mem_cons_self)
    have ho := openFile_of_find (hfind t List.mem_cons_self) hopen
    refine ⟨⟨t.name, table⟩ :: os, ?_, .cons ⟨rfl, haccepted t List.mem_cons_self, hopen⟩ hopened⟩
    simp only [List.map_cons, openAll, ho, hos]

theorem OpenFile.path_injective {o o' : OpenFile} (h : o.path = o'.path) : o.name = o'.name :=
  Naming.fileName_injective (String.ofList_injective h)

/-! ### The block cache -/

/-- What is cached is a block of an open table. -/
structure CachedFor (transferMax : ℕ) (ts : List OpenFile) (cache : LruBlockCache) : Prop where
  coupled : Coupled cache
  cached : ∀ n ∈ cache.list, ∃ o ∈ ts, n.key.sstablePath = o.path ∧
    o.table.Provides transferMax n.key.blockOffset n.value.entries

/-- Destroyed tables leave nothing in the cache. -/
theorem CachedFor.destroyAll {transferMax : ℕ} {ts us : List OpenFile} {cache : LruBlockCache}
    (h : CachedFor transferMax (ts ++ us) cache) :
    ∃ cache', destroyAll cache ts = some cache' ∧ CachedFor transferMax us cache' ∧ cache'.capacity = cache.capacity ∧
      cache'.maxBytes = cache.maxBytes := by
  induction ts generalizing cache with
  | nil => exact ⟨cache, rfl, h, rfl, rfl⟩
  | cons t ts ih =>
    obtain ⟨c, hinvalidate, hcoupled, hlist, hcapacity, hbytes⟩ :=
      h.coupled.invalidate_spec fun key => key.sstablePath = t.path
    have hrest : CachedFor transferMax (ts ++ us) c := by
      refine ⟨hcoupled, ?_⟩
      intro n hn
      rw [hlist, List.mem_filter] at hn
      obtain ⟨o, ho, hpath, hprovides⟩ := h.cached n hn.1
      rcases List.mem_cons.mp ho with rfl | ho
      · simp [hpath] at hn
      · exact ⟨o, ho, hpath, hprovides⟩
    obtain ⟨cache', hdestroy, hcached, hcapacity', hbytes'⟩ := ih hrest
    refine ⟨cache', ?_, hcached, hcapacity'.trans hcapacity, hbytes'.trans hbytes⟩
    simp only [LsmTree.destroyAll, LruBlockCache.invalidatePath, hinvalidate, hdestroy]

theorem CachedFor.mono {transferMax : ℕ} {ts us : List OpenFile} {cache : LruBlockCache}
    (h : CachedFor transferMax ts cache) (hsub : ∀ o ∈ ts, o ∈ us) : CachedFor transferMax us cache := by
  refine ⟨h.coupled, fun n hn => ?_⟩
  obtain ⟨o, ho, hpath, hprovides⟩ := h.cached n hn
  exact ⟨o, hsub o ho, hpath, hprovides⟩

/-! ### The relation -/

/-- The engine on files has the files of the tables of the other engine, which it has opened. -/
structure Represents (sizes : Sizes) (f : FileEngine) (e : Engine) : Prop where
  memtable : f.memtable = e.memtable
  sstCounter : f.sstCounter = e.sstCounter
  log : f.log = e.log
  files : f.files = e.dir.files.map (fileOf sizes)
  accepted : ∀ t ∈ e.dir.files, Accepted sizes t.entries
  opened : List.Forall₂ (OpenedAs sizes) f.sstables e.sstables
  cached : CachedFor sizes.transferMax f.sstables f.cache

namespace Represents
variable {sizes : Sizes} {f : FileEngine} {e : Engine}

theorem fresh (maxBytes capacity cacheBytes : ℕ) :
    Represents sizes (.fresh maxBytes capacity cacheBytes) (.fresh maxBytes) where
  memtable := rfl
  sstCounter := rfl
  log := rfl
  files := rfl
  accepted := by simp [Engine.fresh]
  opened := .nil
  cached := ⟨.new capacity cacheBytes, by simp [FileEngine.fresh, Cache.new]⟩

theorem findFile_eq (h : Represents sizes f e) {t : SSTable} (ht : t ∈ e.dir.files) :
    findFile f.files t.name = some (fileOf sizes t).2 := by
  rw [h.files]
  exact findFile_fileOf e.dir.nodup ht

theorem mem_files (hord : e.Ordered) {t : SSTable} (ht : t ∈ e.sstables) : t ∈ e.dir.files := by
  rw [← Directory.mem_load, hord.load_eq]
  exact ht

/-- An iterator over a table reads the file that the table was opened on. -/
theorem stream_eq (h : Represents sizes f e) {o : OpenFile} {t : SSTable} (ht : t ∈ e.dir.files)
    (ho : OpenedAs sizes o t) : f.stream o = some (ofFile o.table.file) := by
  rw [FileEngine.stream, ho.name, h.findFile_eq ht, (openTable_file ho.open_eq).1]
  rfl

/-- Open tables of one name are one table. -/
theorem provides (h : Represents sizes f e) (hord : e.Ordered) {cache : LruBlockCache}
    (hcached : CachedFor sizes.transferMax f.sstables cache) {o : OpenFile} (ho : o ∈ f.sstables) :
    ∀ n ∈ cache.list, n.key.sstablePath = o.path →
      o.table.Provides sizes.transferMax n.key.blockOffset n.value.entries := by
  intro n hn hpath
  obtain ⟨o', ho', hpath', hprovides⟩ := hcached.cached n hn
  have hname : o'.name = o.name := OpenFile.path_injective (hpath'.symm.trans hpath)
  obtain ⟨t, ht, hot⟩ := exists_of_forall₂ h.opened ho
  obtain ⟨t', ht', hot'⟩ := exists_of_forall₂ h.opened ho'
  have htt : t' = t := by
    apply List.inj_on_of_nodup_map e.dir.nodup (mem_files hord ht') (mem_files hord ht)
    rw [← hot.name, ← hot'.name, hname]
  have hopen := hot'.open_eq
  rw [htt, hot.open_eq] at hopen
  rw [Except.ok.inj hopen]
  exact hprovides

/-! ### Reads -/

/-- The loop finds what the other engine finds, or comes to a table whose block one `pread` cannot move. -/
theorem getTables_spec (h : Represents sizes f e) (hord : e.Ordered) (key : Key) {os : List OpenFile}
    {ts : List SSTable} (hopened : List.Forall₂ (OpenedAs sizes) os ts) (hsub : ∀ o ∈ os, o ∈ f.sstables)
    {cache : LruBlockCache} (hcached : CachedFor sizes.transferMax f.sstables cache) (reserved : ℕ → Reserved) :
    ∃ found cache', FileEngine.getTables sizes.transferMax key os cache reserved = .ok (found, cache') ∧
      CachedFor sizes.transferMax f.sstables cache' ∧
      (found = .ok (ts.findSome? (·.get key)) ∨
        found = .error .incompleteRead ∧ ∃ o ∈ os, o.table.LongBlock sizes.transferMax key) := by
  induction hopened generalizing cache reserved with
  | nil => exact ⟨_, cache, rfl, hcached, .inl rfl⟩
  | @cons o t os ts hot hrest ih =>
    have ho := hsub o List.mem_cons_self
    have hprovides := h.provides hord hcached ho
    obtain ⟨cache', hget, hcoupled, hmem⟩ := getShared_eq sizes.transferMax o.table o.path hcached.coupled key (reserved 0)
    have hcached' : CachedFor sizes.transferMax f.sstables cache' := by
      refine ⟨hcoupled, fun n hn => ?_⟩
      rcases hmem n hn with hn | ⟨hpath, hown⟩
      · exact hcached.cached n hn
      · exact ⟨o, ho, hpath, hown⟩
    rcases hot.holds.get_spec (coherent_view hot.holds hprovides) key with hfound | ⟨hthrows, hlong⟩
    · rw [hfound] at hget
      simp only [FileEngine.getTables, hget, List.findSome?_cons, SSTable.get]
      cases lookup key t.entries with
      | some v => exact ⟨_, cache', rfl, hcached', .inl rfl⟩
      | none =>
        obtain ⟨found, cache'', hrun, hcached'', hspec⟩ :=
          ih (fun o' ho' => hsub o' (List.mem_cons_of_mem _ ho')) hcached' fun i => reserved (i + 1)
        refine ⟨found, cache'', hrun, hcached'', hspec.imp_right ?_⟩
        rintro ⟨hthrows, o', ho', hlong⟩
        exact ⟨hthrows, o', List.mem_cons_of_mem _ ho', hlong⟩
    · rw [hthrows] at hget
      simp only [FileEngine.getTables, hget]
      exact ⟨_, cache', rfl, hcached', .inr ⟨rfl, o, List.mem_cons_self, hlong⟩⟩

/-- A point read finds what the other engine finds, or throws at a block that one `pread` cannot move; it
leaves its traces in the cache only. -/
theorem get (h : Represents sizes f e) (hord : e.Ordered) (key : Key) (reserved : ℕ → Reserved) :
    ∃ f' found, f.get sizes.transferMax key reserved = .ok (f', found) ∧ Represents sizes f' e ∧
      (found = .ok (e.get key) ∨ found = .error .incompleteRead ∧ f.memtable.get key = none ∧
        ∃ o ∈ f.sstables, o.table.LongBlock sizes.transferMax key) := by
  rw [FileEngine.get, Engine.get, ← h.memtable]
  cases f.memtable.get key with
  | some v => exact ⟨f, _, rfl, h, .inl rfl⟩
  | none =>
    have hreverse : List.Forall₂ (OpenedAs sizes) f.sstables.reverse e.sstables.reverse :=
      List.rel_reverse h.opened
    obtain ⟨found, cache, hget, hcached, hspec⟩ := h.getTables_spec hord key hreverse
      (fun o ho => List.mem_reverse.mp ho) h.cached reserved
    refine ⟨{ f with cache := cache }, found.map Option.join, by simp only [hget], ?_, ?_⟩
    · exact ⟨h.memtable, h.sstCounter, h.log, h.files, h.accepted, h.opened, hcached⟩
    · rcases hspec with rfl | ⟨rfl, o, ho, hlong⟩
      · exact .inl rfl
      · exact .inr ⟨rfl, rfl, o, List.mem_reverse.mp ho, hlong⟩

/-- The open tables, with what was written to their files. -/
theorem written (h : Represents sizes f e) (hord : e.Ordered) :
    ∃ ws : List WrittenTable, ws.map WrittenTable.entries = layers e.sstables ∧
      List.Forall₂ (fun o w => o.table = w.table ∧ f.stream o = some (ofFile w.table.file)) f.sstables ws := by
  have hfiles : ∀ t ∈ e.sstables, t ∈ e.dir.files := fun t ht => mem_files hord ht
  have hopened := h.opened
  generalize f.sstables = os at hopened ⊢
  generalize e.sstables = ts at hopened hfiles ⊢
  induction hopened with
  | nil => exact ⟨[], rfl, .nil⟩
  | @cons o t os ts hot _ ih =>
    obtain ⟨ws, hentries, hws⟩ := ih fun s hs => hfiles s (List.mem_cons_of_mem _ hs)
    refine ⟨⟨o.table, t.entries, _, _, _, hot.accepted, hot.open_eq⟩ :: ws, ?_, .cons ⟨rfl, ?_⟩ hws⟩
    · rw [List.map_cons, hentries]
      rfl
    · exact h.stream_eq (hfiles t List.mem_cons_self) hot

theorem scan_eq (h : Represents sizes f e) {ws : List WrittenTable}
    (hws : List.Forall₂ (fun o w => o.table = w.table ∧ f.stream o = some (ofFile w.table.file)) f.sstables ws)
    (start : Key) (stop : Option Key) (limit : ℕ) :
    f.scan start stop limit = Reader.scan ⟨e.memtable, ws⟩ start stop limit := by
  have hsources : (f.sstables.filter fun t => Reader.mayHold t.table start stop).map (f.scanSource start) ++
      [f.memtable.seek start] = Reader.sources ⟨e.memtable, ws⟩ (fun _ => .none) start stop := by
    rw [Reader.sources_none, h.memtable, e.memtable.seek_eq]
    congr 1
    generalize f.sstables = os at hws
    induction hws with
    | nil => rfl
    | @cons o w os ws how _ ih =>
      obtain ⟨htable, hstream⟩ := how
      rw [List.filter_cons, List.filter_cons, htable]
      split_ifs
      · have hsource : f.scanSource start o = w.entries.filter (start ≤ ·.1) := by
          rw [FileEngine.scanSource, hstream, htable]
          exact Reader.tableSource_none w start
        rw [List.map_cons, List.map_cons, ih, hsource]
      · exact ih
  simp only [FileEngine.scan, hsources]
  rfl

theorem mergeSources_eq (h : Represents sizes f e) (hord : e.Ordered) :
    f.sstables.map f.mergeSource = layers e.sstables := by
  obtain ⟨ws, hentries, hws⟩ := h.written hord
  rw [← hentries]
  clear hentries
  generalize f.sstables = os at hws
  induction hws with
  | nil => rfl
  | @cons o w os ws how _ ih =>
    obtain ⟨htable, hstream⟩ := how
    have hsource : f.mergeSource o = w.entries := by
      rw [FileEngine.mergeSource, hstream, htable]
      exact compactionSource_eq w .none
    rw [List.map_cons, List.map_cons, ih, hsource]

end Represents

/-- A scan of layers that stand for a map is a scan of the map. -/
theorem Reader.scan_eq_of_lookup (r : Reader) {m : PlainMap} (hm : Sorted m)
    (hlookup : ∀ k, lookup k m = resolve k r.contents) (start : Key) (stop : Option Key) (limit : ℕ) :
    r.scan start stop limit = m.scan start stop limit := by
  have hmem : ∀ k v, (k, v) ∈ m ↔ resolve k r.contents = some v := by
    intro k v
    rw [← hlookup]
    exact ⟨fun hkv => lookup_of_mem hm.keys_ne hkv, mem_of_lookup⟩
  rw [Reader.scan, Reader.scanWith]
  split_ifs with hearly
  · rcases hearly with rfl | hpast
    · rfl
    · have hnil : m.filter (fun kv => decide (start ≤ kv.1) && !pastEnd stop kv.1) = [] := by
        rw [List.filter_eq_nil_iff]
        rintro ⟨k, v⟩ - hkv
        simp only [Bool.and_eq_true, decide_eq_true_eq, Bool.not_eq_true'] at hkv
        have hbefore : pastEnd stop start = false :=
          pastEnd_eq_false.mpr fun e he => hkv.1.trans_lt (pastEnd_eq_false.mp hkv.2 e he)
        rw [hpast] at hbefore
        cases hbefore
      rw [PlainMap.scan, hnil, List.take_nil]
  · obtain ⟨all, hscan, hall, hspec⟩ := scanLoop_spec stop (r.sorted_sources start stop)
    have heq : all = m.filter fun kv => decide (start ≤ kv.1) && !pastEnd stop kv.1 := by
      apply hall.eq_of_mem_iff (hm.filter _)
      rintro ⟨k, v⟩
      simp only [hspec, List.mem_filter, Bool.and_eq_true, decide_eq_true_eq, Bool.not_eq_true', pastEnd_eq_false, hmem]
      constructor
      · rintro ⟨hread, hstop⟩
        have hstart : start ≤ k := by
          obtain ⟨s, hs, hx⟩ := exists_mem_of_newest (Option.join_eq_some_iff.mp hread)
          rw [Reader.sources_none, List.mem_append, List.mem_singleton] at hs
          rcases hs with hs | rfl
          · obtain ⟨w, -, rfl⟩ := List.mem_map.mp hs
            simpa using (List.mem_filter.mp (mem_of_lookup hx)).2
          · simpa using (List.mem_filter.mp (mem_of_lookup hx)).2
        exact ⟨by rw [resolve, ← r.newest_sources hstart hstop]; exact hread, hstart, hstop⟩
      · rintro ⟨hread, hstart, hstop⟩
        refine ⟨?_, hstop⟩
        rw [resolve, r.newest_sources hstart hstop]
        exact hread
    rw [hscan limit, heq]
    rfl

/-! ### Writing tables -/

/-- A failure that is no misreading: a counter is past its range, or a table has more entries or
bytes than its file format can number. -/
def FileFailure.OutOfRange : FileFailure → Prop
  | .undefined => True
  | .write .tooManyBlocks => True
  | .write .tooLarge => True
  | _ => False

section Writing
variable {sizes : Sizes}

theorem FileEngine.writeTable_of_write {f : FileEngine} (hlt : f.sstCounter < intMax) {file : Bytes} {t : OpenTable}
    (hwrite : Table.write (sizes.numBlocks f.memtable.entries.length) (sizes.pos _) f.memtable.entries = .ok file)
    (hopen : openTable file = .ok t) :
    f.writeTable sizes = .ok { f with
      sstables := f.sstables ++ [⟨⟨.l0, f.sstCounter, hlt.le⟩, t⟩]
      sstCounter := f.sstCounter + 1
      files := publishFile f.files ⟨.l0, f.sstCounter, hlt.le⟩ file } := by
  have hfile := openFile_of_find (findFile_publishFile_self f.files ⟨.l0, f.sstCounter, hlt.le⟩ file) hopen
  rw [FileEngine.writeTable, dif_pos hlt]
  simp only [hwrite, hfile]

theorem outOfRange_of_write {numBlocks : ℕ} {h : 0 < numBlocks} {es : List Table.Entry} {err : WriteError}
    (hsorted : Sorted es) (hfits : ∀ x ∈ es, Fits x) (hwrite : Table.write numBlocks h es = .error err) :
    (FileFailure.write err).OutOfRange := by
  rw [Table.write, (firstUnsorted_eq_none_iff 1 es).mpr hsorted, (firstTooLong_eq_none_iff es).mpr hfits] at hwrite
  simp only at hwrite
  split_ifs at hwrite
  · cases hwrite
    trivial
  · cases hwrite
    trivial

/-- The outputs that are staged are the encodings of the tables of the other engine. -/
theorem stageAll_spec {n : ℕ} (hn : n ≤ intMax) {runs : List (List Table.Entry)} (hsorted : ∀ es ∈ runs, Sorted es)
    (hfits : ∀ es ∈ runs, ∀ x ∈ es, Fits x) :
    match FileEngine.stageAll sizes n runs with
    | .error err => err.OutOfRange
    | .ok staged => ∃ hfit : n + runs.length ≤ intMax,
        staged = (numberFrom n runs hfit hsorted).map (fileOf sizes) ∧ ∀ es ∈ runs, Accepted sizes es := by
  induction runs generalizing n with
  | nil => exact ⟨by simpa using hn, rfl, by simp⟩
  | cons es runs ih =>
    by_cases hlt : n < intMax
    · rw [FileEngine.stageAll, dif_pos hlt]
      cases hwrite : Table.write (sizes.numBlocks es.length) (sizes.pos _) es with
      | error err => exact outOfRange_of_write (hsorted _ List.mem_cons_self) (hfits _ List.mem_cons_self) hwrite
      | ok file =>
        have hrest := ih hlt (fun s hs => hsorted s (List.mem_cons_of_mem _ hs))
          fun s hs => hfits s (List.mem_cons_of_mem _ hs)
        cases hstage : FileEngine.stageAll sizes (n + 1) runs with
        | error err =>
          rw [hstage] at hrest
          exact hrest
        | ok staged =>
          rw [hstage] at hrest
          obtain ⟨hfit, rfl, haccepted⟩ := hrest
          obtain ⟨hes, rfl⟩ := Accepted.of_write hwrite
          refine ⟨by rw [List.length_cons]; omega, rfl, ?_⟩
          intro s hs
          rcases List.mem_cons.mp hs with rfl | hs
          · exact hes
          · exact haccepted s hs
    · rw [FileEngine.stageAll, dif_neg hlt]
      trivial

theorem removeAll_fileOf (d : Directory) {os : List OpenFile} {ts : List SSTable}
    (h : os.map OpenFile.name = ts.map SSTable.name) :
    removeAll (d.files.map (fileOf sizes)) os = (d.applyAll (ts.map .remove)).files.map (fileOf sizes) := by
  induction ts generalizing d os with
  | nil =>
    rw [List.map_nil, List.map_eq_nil_iff] at h
    rw [h]
    rfl
  | cons t ts ih =>
    obtain ⟨o, os, rfl⟩ : ∃ o os', os = o :: os' := List.exists_cons_of_ne_nil (by rintro rfl; cases h)
    rw [List.map_cons, List.map_cons, List.cons.injEq] at h
    have hstep : removeFile (d.files.map (fileOf sizes)) o.name = (d.apply (.remove t)).files.map (fileOf sizes) := by
      rw [h.1, ← map_fileOf_filter]
      rfl
    have hrest := ih (d.apply (.remove t)) h.2
    rw [← hstep] at hrest
    exact hrest

/-- What a merge puts out was in one of its inputs. -/
theorem exists_of_mem_merge {ss : List (List Table.Entry)} (hsorted : ∀ es ∈ ss, Sorted es) {es : List Table.Entry}
    (hes : es ∈ merge ss) {x : Table.Entry} (hx : x ∈ es) : ∃ s ∈ ss, x ∈ s := by
  obtain ⟨k, v⟩ := x
  have hlookup := lookup_of_mem (sorted_of_mem_merge hsorted es hes).keys_ne hx
  obtain ⟨s, hs, hv⟩ := exists_mem_of_newest (newest_of_mem_merge hsorted hes hlookup)
  exact ⟨s, hs, mem_of_lookup hv⟩

/-- Entries of accepted tables can be written again. -/
theorem fits_of_mem_merge {ss : List (List Table.Entry)} (h : ∀ es ∈ ss, Accepted sizes es)
    (hsorted : ∀ es ∈ ss, Sorted es) : ∀ es ∈ merge ss, ∀ x ∈ es, Fits x := by
  intro es hes x hx
  obtain ⟨s, hs, hmem⟩ := exists_of_mem_merge hsorted hes hx
  exact (write_eq_ok_iff.mp (h s hs)).2.1 x hmem

end Writing

namespace Represents
variable {sizes : Sizes} {f : FileEngine} {e : Engine}

theorem append (h : Represents sizes f e) (op : Op) (height : Height) :
    Represents sizes (f.append op height) (e.append op height) where
  memtable := by simp only [FileEngine.append, Engine.append, h.memtable]
  sstCounter := h.sstCounter
  log := by simp only [FileEngine.append, Engine.append, h.log]
  files := h.files
  accepted := h.accepted
  opened := h.opened
  cached := h.cached

theorem writeTable (h : Represents sizes f e) (hfits : ∀ x ∈ e.memtable.entries, Fits x) :
    match f.writeTable sizes with
    | .error err => err.OutOfRange
    | .ok f' => ∃ e', e.writeTable = .ok e' ∧ Represents sizes f' e' := by
  by_cases hlt : f.sstCounter < intMax
  · cases hwrite : Table.write (sizes.numBlocks f.memtable.entries.length) (sizes.pos _) f.memtable.entries with
    | error err =>
      have hfailed : f.writeTable sizes = .error (.write err) := by rw [FileEngine.writeTable, dif_pos hlt, hwrite]
      rw [hfailed]
      exact outOfRange_of_write f.memtable.sorted_entries (h.memtable ▸ hfits) hwrite
    | ok file =>
      obtain ⟨table, hopen, -⟩ := openTable_of_write hwrite
      rw [FileEngine.writeTable_of_write hlt hwrite hopen]
      obtain ⟨htable, rfl⟩ := Accepted.of_write hwrite
      obtain ⟨memtable, sstables, sstCounter, files, log, cache⟩ := f
      obtain ⟨rfl, rfl, rfl, rfl, haccepted, hopened, hcached⟩ := h
      refine ⟨_, dif_pos hlt, rfl, rfl, rfl, ?_, ?_, ?_, ?_⟩
      · exact publishFile_fileOf e.dir (e.table hlt.le)
      · intro t ht
        have ht' : (t ∈ e.dir.files ∧ ¬ t.name = (e.table hlt.le).name) ∨ t = e.table hlt.le := by
          simpa [Directory.applyAll, Directory.apply] using ht
        rcases ht' with ⟨ht, -⟩ | rfl
        · exact haccepted t ht
        · exact htable
      · exact List.rel_append hopened (.cons ⟨rfl, htable, hopen⟩ .nil)
      · exact hcached.mono fun o ho => List.mem_append_left _ ho
  · rw [FileEngine.writeTable, dif_neg hlt]
    trivial

theorem clearLog (h : Represents sizes f e) : Represents sizes f.clearLog e.clearLog where
  memtable := by simp only [FileEngine.clearLog, Engine.clearLog, h.memtable]
  sstCounter := h.sstCounter
  log := rfl
  files := h.files
  accepted := h.accepted
  opened := h.opened
  cached := h.cached

theorem l1Start_eq (h : Represents sizes f e) : f.l1Start = max (l1Start e.sstables) (l1Start e.dir.files) := by
  have hfiles : f.files.map Prod.fst = e.dir.files.map SSTable.name := by
    rw [h.files, List.map_map]
    rfl
  rw [FileEngine.l1Start, OpenedAs.map_name h.opened, hfiles, nextNumber_map_name, nextNumber_map_name]
  rfl

theorem l0Count_eq (h : Represents sizes f e) :
    (f.sstables.filter (·.name.level = .l0)).length = l0Count e.sstables := by
  have hopened := h.opened
  generalize f.sstables = os at hopened ⊢
  generalize e.sstables = ts at hopened ⊢
  induction hopened with
  | nil => rfl
  | cons hot _ ih =>
    rw [l0Count, List.filter_cons, List.filter_cons, hot.name]
    split_ifs
    · rw [List.length_cons, List.length_cons, ih]
      rfl
    · exact ih

/-- The files a compaction stages are those of the outputs of the other engine. -/
theorem staged_eq (h : Represents sizes f e) (hord : e.Ordered) (hstart : f.l1Start ≤ intMax) :
    match FileEngine.stageAll sizes f.l1Start (merge (f.sstables.map f.mergeSource)) with
    | .error err => err.OutOfRange
    | .ok staged => ∃ outputs, compactionOutputs e.dir e.sstables = some outputs ∧
        staged = outputs.map (fileOf sizes) ∧ ∀ o ∈ outputs, Accepted sizes o.entries := by
  rw [h.l1Start_eq] at hstart
  rw [h.l1Start_eq, h.mergeSources_eq hord]
  have hsorted := sorted_layers e.sstables
  have haccepted : ∀ es ∈ layers e.sstables, Accepted sizes es := by
    intro es hes
    obtain ⟨t, ht, rfl⟩ := List.mem_map.mp hes
    exact h.accepted t (mem_files hord ht)
  have hstage := @stageAll_spec sizes _ hstart _ (sorted_of_mem_merge hsorted) (fits_of_mem_merge haccepted hsorted)
  cases hstaged : FileEngine.stageAll sizes (max (l1Start e.sstables) (l1Start e.dir.files))
      (merge (layers e.sstables)) with
  | error err =>
    rw [hstaged] at hstage
    exact hstage
  | ok staged =>
    rw [hstaged] at hstage
    obtain ⟨hfit, rfl, hmerged⟩ := hstage
    have hout : compactionOutputs e.dir e.sstables = some (numberFrom _ _ hfit (sorted_of_mem_merge hsorted)) := by
      rw [compactionOutputs, dif_pos hfit]
    refine ⟨_, hout, rfl, fun o ho => hmerged _ ?_⟩
    have hcontents := (hord.outputs hout).contents
    rw [hord.load_eq] at hcontents
    rw [← hcontents]
    exact List.mem_map_of_mem ho

theorem compact (h : Represents sizes f e) (hord : e.Ordered) :
    match f.compact sizes with
    | .error err => err.OutOfRange
    | .ok f' => ∃ e', e.compact = .ok e' ∧ Represents sizes f' e' := by
  rw [FileEngine.compact, Engine.compact, h.l0Count_eq]
  by_cases hfew : l0Count e.sstables < l0Threshold
  · rw [if_pos hfew, if_pos hfew]
    exact ⟨e, rfl, h⟩
  rw [if_neg hfew, if_neg hfew]
  by_cases hstart : intMax < f.l1Start
  · rw [if_pos hstart]
    trivial
  rw [if_neg hstart]
  have hstage := h.staged_eq hord (Nat.le_of_not_lt hstart)
  cases hstaged : FileEngine.stageAll sizes f.l1Start (merge (f.sstables.map f.mergeSource)) with
  | error err =>
    rw [hstaged] at hstage
    exact hstage
  | ok staged =>
    rw [hstaged] at hstage
    obtain ⟨outputs, hout, rfl, haccepted'⟩ := hstage
    have hspec := hord.outputs hout
    have hpublished : publishAll f.files (outputs.map (fileOf sizes)) =
        (e.dir.applyAll (outputs.map .publish)).files.map (fileOf sizes) := by
      rw [h.files]
      exact publishAll_fileOf e.dir outputs
    have hfind : ∀ o ∈ outputs, findFile (publishAll f.files (outputs.map (fileOf sizes))) o.name =
        some (fileOf sizes o).2 := by
      intro o ho
      rw [hpublished]
      apply findFile_fileOf (Directory.nodup _)
      rw [files_applyAll_publish hspec.nodup]
      exact List.mem_append_right _ ho
    obtain ⟨os, hos, hopened⟩ := openAll_fileOf hfind haccepted'
    have hboth : CachedFor sizes.transferMax (f.sstables ++ os) f.cache := h.cached.mono fun o ho => List.mem_append_left _ ho
    obtain ⟨cache, hdestroy, hcached, -, -⟩ := hboth.destroyAll
    have hnames : (outputs.map (fileOf sizes)).map Prod.fst = outputs.map SSTable.name := by
      rw [List.map_map]
      rfl
    have hload := load_compacted hspec
    rw [hord.load_eq] at hload
    simp only [hnames, hos, hdestroy, hout]
    refine ⟨_, rfl, h.memtable, rfl, h.log, ?_, ?_, hopened, hcached⟩
    · rw [hpublished, removeAll_fileOf _ (OpenedAs.map_name h.opened), files_compacted, applyAll_append]
    · intro t ht
      apply haccepted'
      rw [← hload, Directory.mem_load]
      exact ht

theorem flushMemtable (h : Represents sizes f e) (hord : e.Ordered) (hfits : ∀ x ∈ e.memtable.entries, Fits x) :
    match f.flushMemtable sizes with
    | .error err => err.OutOfRange
    | .ok f' => ∃ e', e.flushMemtable = .ok e' ∧ Represents sizes f' e' := by
  rw [FileEngine.flushMemtable, Engine.flushMemtable, h.memtable]
  by_cases hempty : e.memtable.empty = true
  · rw [if_pos hempty, if_pos hempty]
    exact ⟨e, rfl, h⟩
  rw [if_neg hempty, if_neg hempty]
  have hwrite := h.writeTable hfits
  cases hf : f.writeTable sizes with
  | error err =>
    rw [hf] at hwrite
    exact hwrite
  | ok f' =>
    rw [hf] at hwrite
    obtain ⟨e', he', hrep⟩ := hwrite
    rw [he']
    exact hrep.clearLog.compact (hord.writeTable he').1.clearLog

theorem flush (h : Represents sizes f e) (hord : e.Ordered) (hfits : ∀ x ∈ e.memtable.entries, Fits x) :
    match f.flush sizes with
    | .error err => err.OutOfRange
    | .ok f' => ∃ e', e.flush = .ok e' ∧ Represents sizes f' e' := by
  have heq : f.flush sizes = f.flushMemtable sizes := by
    rw [FileEngine.flush, FileEngine.flushMemtable]
    split_ifs <;> rfl
  rw [heq, Engine.flush_eq_flushMemtable]
  exact h.flushMemtable hord hfits

theorem load_fileOf {dir : Directory} (haccepted : ∀ t ∈ dir.files, Accepted sizes t.entries) :
    ∃ os, FileEngine.load (dir.files.map (fileOf sizes)) = .ok os ∧ List.Forall₂ (OpenedAs sizes) os dir.load := by
  have hnames : ((dir.files.map (fileOf sizes)).map Prod.fst).insertionSort (fun a b => ¬ b.Before a) =
      dir.load.map SSTable.name := by
    have hsort := List.map_insertionSort (fun a b : SSTable => ¬ b.Before a) (fun a b : TableName => ¬ b.Before a)
      SSTable.name dir.files fun a _ b _ => Iff.rfl
    rw [List.map_map, Directory.load, hsort]
    rfl
  obtain ⟨os, hos, hopened⟩ := @openAll_fileOf sizes (dir.files.map (fileOf sizes)) dir.load
    (fun t ht => findFile_fileOf dir.nodup (Directory.mem_load.mp ht))
    fun t ht => haccepted t (Directory.mem_load.mp ht)
  exact ⟨os, by rw [FileEngine.load, hnames, hos], hopened⟩

/-- A start on the files of the tables opens them. -/
theorem construct {dir : Directory} (haccepted : ∀ t ∈ dir.files, Accepted sizes t.entries) {maxBytes : ℕ}
    {log : List Wal.Slot} {cache : LruBlockCache} (hcached : CachedFor sizes.transferMax [] cache) {heights : ℕ → Height} {e' : Engine}
    (he : Engine.construct maxBytes dir log heights = .ok e') :
    ∃ f', FileEngine.construct maxBytes (dir.files.map (fileOf sizes)) log cache heights = .ok f' ∧
      Represents sizes f' e' := by
  obtain ⟨os, hload, hopened⟩ := load_fileOf haccepted
  have hcounter : nextNumber .l0 (os.map OpenFile.name) = nextCounter .l0 dir.load := by
    rw [OpenedAs.map_name hopened, nextNumber_map_name]
  simp only [Engine.construct] at he
  simp only [FileEngine.construct, hload, hcounter]
  cases hrecover : Wal.recover (Wal.image log) with
  | error err =>
    rw [hrecover] at he
    cases he
  | ok entries =>
    rw [hrecover] at he
    simp only at he ⊢
    split_ifs at he with hle
    cases he
    rw [if_pos hle]
    exact ⟨_, rfl, rfl, rfl, rfl, rfl, haccepted, hopened, hcached.mono (by simp)⟩

theorem reopen (h : Represents sizes f e) (hsteady : e.Steady) (hfits : ∀ x ∈ e.memtable.entries, Fits x)
    (heights : ℕ → Height) (newProcess : Bool) :
    match f.reopen sizes heights newProcess with
    | .error err => err.OutOfRange
    | .ok f' => ∃ e', e.reopen heights = .ok e' ∧ Represents sizes f' e' := by
  have hflush := h.flush hsteady.toOrdered hfits
  rw [FileEngine.reopen]
  cases hf : f.flush sizes with
  | error err =>
    rw [hf] at hflush
    exact hflush
  | ok g =>
    rw [hf] at hflush
    obtain ⟨e₁, he₁, hg⟩ := hflush
    have heq := he₁
    rw [Engine.flush_eq_flushMemtable] at heq
    have hconstruct := (hsteady.flushMemtable heq).construct (hsteady.toOrdered.flushMemtable heq).2.2.1 heights
    have hnone : CachedFor sizes.transferMax (g.sstables ++ []) g.cache := hg.cached.mono fun o ho => List.mem_append_left _ ho
    obtain ⟨cache, hdestroy, hcached, -, -⟩ := hnone.destroyAll
    have hcached' : CachedFor sizes.transferMax []
        (if newProcess then .new cache.capacity cache.maxBytes else cache) := by
      split_ifs
      · exact ⟨.new _ _, by simp [Cache.new]⟩
      · exact hcached
    obtain ⟨f', hf', hrep⟩ := construct hg.accepted hcached' hconstruct
    simp only [hdestroy, hg.memtable, hg.files, hg.log, hf']
    exact ⟨_, by rw [Engine.reopen, he₁]; exact hconstruct, hrep⟩

end Represents

/-! ### Every entry -/

/-- All entries of the engine have the property. -/
structure Engine.Each (P : Table.Entry → Prop) (e : Engine) : Prop where
  memtable : ∀ x ∈ e.memtable.entries, P x
  tables : ∀ t ∈ e.sstables, ∀ x ∈ t.entries, P x

namespace Engine.Each
variable {P : Table.Entry → Prop} {e e' : Engine}

theorem fresh (maxBytes : ℕ) : (Engine.fresh maxBytes).Each P where
  memtable := by simp [Engine.fresh]
  tables := by simp [Engine.fresh]

theorem append (h : e.Each P) {op : Op} (hop : P (op.key, op.value)) (height : Height) : (e.append op height).Each P where
  memtable := by
    intro x hx
    rw [Engine.append, Memtable.entries_update] at hx
    rcases mem_of_mem_upsert hx with hx | rfl
    · exact h.memtable x hx
    · exact hop
  tables := h.tables

theorem writeTable (h : e.Each P) (he : e.writeTable = .ok e') : e'.Each P := by
  rw [Engine.writeTable] at he
  split_ifs at he
  cases he
  refine ⟨h.memtable, fun t ht => ?_⟩
  rcases List.mem_append.mp ht with ht | ht
  · exact h.tables t ht
  · rw [List.mem_singleton.mp ht]
    exact h.memtable

theorem clearLog (h : e.Each P) : e.clearLog.Each P where
  memtable := by simp [Engine.clearLog]
  tables := h.tables

theorem compact (h : e.Each P) (hord : e.Ordered) (he : e.compact = .ok e') : e'.Each P := by
  rw [Engine.compact] at he
  split_ifs at he
  · cases he
    exact h
  split at he
  · cases he
  rename_i outputs hout
  cases he
  refine ⟨h.memtable, fun t ht x hx => ?_⟩
  have hcontents := (hord.outputs hout).contents
  rw [hord.load_eq] at hcontents
  have hmerged : t.entries ∈ merge (layers e.sstables) := hcontents ▸ List.mem_map_of_mem ht
  obtain ⟨s, hs, hmem⟩ := exists_of_mem_merge (sorted_layers e.sstables) hmerged hx
  obtain ⟨u, hu, rfl⟩ := List.mem_map.mp hs
  exact h.tables u hu x hmem

theorem flushMemtable (h : e.Each P) (hord : e.Ordered) (he : e.flushMemtable = .ok e') : e'.Each P := by
  rw [Engine.flushMemtable] at he
  split_ifs at he
  · cases he
    exact h
  split at he
  · cases he
  rename_i g hg
  exact (h.writeTable hg).clearLog.compact (hord.writeTable hg).1.clearLog he

/-- A clean shutdown leaves nothing to replay, and the next engine loads the tables there are. -/
theorem reopen (h : e.Each P) (hsteady : e.Steady) {heights : ℕ → Height} (he : e.reopen heights = .ok e') :
    e'.Each P := by
  unfold Engine.reopen at he
  split at he
  case h_1 => cases he
  case h_2 g hg =>
    rw [Engine.flush_eq_flushMemtable] at hg
    have hsteady' := hsteady.flushMemtable hg
    rw [hsteady'.construct (hsteady.toOrdered.flushMemtable hg).2.2.1] at he
    cases he
    refine ⟨by simp, fun t ht => ?_⟩
    exact (h.flushMemtable hsteady.toOrdered hg).tables t (hsteady'.toOrdered.load_eq ▸ ht)

end Engine.Each

/-- In an engine with small entries one `pread` moves every block. -/
theorem Represents.blocksWithin {sizes : Sizes} {f : FileEngine} {e : Engine} (h : Represents sizes f e)
    (hsmall : e.Each (SmallEntry sizes.transferMax)) : ∀ o ∈ f.sstables, o.table.BlocksWithin sizes.transferMax := by
  intro o ho
  obtain ⟨t, ht, hot⟩ := exists_of_forall₂ h.opened ho
  exact hot.holds.blocksWithin_iff.mpr (blocksWithin_of_entrySize (hsmall.tables t ht))

/-! ### Requests -/

/-- What the log can record, a table can hold. -/
theorem fits_of_recorded {op : Op} (h : op.entry.Fits) : Fits (op.key, op.value) := by
  cases op with
  | put k v => exact h
  | del k => exact ⟨h.1, Nat.zero_le _⟩

theorem PlainMap.sorted_write {m : PlainMap} (h : Sorted m) (op : Op) : Sorted (m.write op) := by
  cases op with
  | put k v => exact sorted_upsert h k v
  | del k => exact h.filter _

theorem PlainMap.lookup_write (m : PlainMap) (op : Op) (k : Key) :
    lookup k (m.write op) = if k = op.key then op.value else lookup k m := by
  cases op with
  | put j v => exact lookup_upsert j v m k
  | del j =>
    rw [PlainMap.write, lookup_filter (· ≠ j)]
    by_cases hk : k = j <;> simp [hk, Op.key, Op.value]

/-- A clean shutdown leaves nothing to replay. -/
theorem Engine.Steady.entries_reopen {e e' : Engine} (h : e.Steady) {heights : ℕ → Height}
    (he : e.reopen heights = .ok e') : e'.memtable.entries = [] := by
  unfold Engine.reopen at he
  split at he
  case h_1 => cases he
  case h_2 f hf =>
    rw [flush_eq_flushMemtable] at hf
    rw [(h.flushMemtable hf).construct (h.toOrdered.flushMemtable hf).2.2.1] at he
    cases he
    exact Memtable.entries_new _

/-- The engine on files between two requests, next to the map that it stands for; all entries it was
given have the property `P`. -/
structure Serves (sizes : Sizes) (P : Table.Entry → Prop) (f : FileEngine) (m : PlainMap) : Prop where
  engine : ∃ e, Represents sizes f e ∧ e.Steady ∧ (∀ x ∈ e.memtable.entries, Fits x) ∧ e.Each P ∧
    ∀ k, lookup k m = e.get k
  sorted : Sorted m

/-- Not all entries with the property are small. -/
def MayThrow (sizes : Sizes) (P : Table.Entry → Prop) : Prop := ¬ ∀ x, P x → SmallEntry sizes.transferMax x

theorem Represents.mayThrow {sizes : Sizes} {P : Table.Entry → Prop} {f : FileEngine} {e : Engine}
    (h : Represents sizes f e) (heach : e.Each P) {o : OpenFile} (ho : o ∈ f.sstables) {key : Key}
    (hlong : o.table.LongBlock sizes.transferMax key) : MayThrow sizes P := by
  intro hsmall
  have hblocks := h.blocksWithin ⟨fun x hx => hsmall x (heach.memtable x hx), fun t ht x hx =>
    hsmall x (heach.tables t ht x hx)⟩
  exact (hblocks o ho).not_longBlock key hlong

/-- What a lookup finds or throws, for its caller. -/
theorem Represents.toldAs {sizes : Sizes} {P : Table.Entry → Prop} {f : FileEngine} {e : Engine}
    (h : Represents sizes f e) (heach : e.Each P) {key : Key} {v : Option Bytes}
    {found : Except ReadError (Option Bytes)}
    (hfound : found = .ok v ∨ found = .error .incompleteRead ∧ f.memtable.get key = none ∧
      ∃ o ∈ f.sstables, o.table.LongBlock sizes.transferMax key) :
    Answer.ToldAs (MayThrow sizes P) (.value v) (.ofRead found) := by
  rcases hfound with rfl | ⟨rfl, -, o, ho, hlong⟩
  · exact .same _
  · exact .threw (h.mayThrow heach ho hlong) v

theorem Answer.ToldAs.mono {p q : Prop} (hpq : p → q) {a b : Answer} (h : Answer.ToldAs p a b) : Answer.ToldAs q a b := by
  cases h with
  | same a => exact .same a
  | threw hp v => exact .threw (hpq hp) v

theorem Answer.ToldAs.eq {mayThrow : Prop} (hno : ¬ mayThrow) {a b : Answer} (h : Answer.ToldAs mayThrow a b) : a = b := by
  cases h with
  | same a => rfl
  | threw hp v => exact absurd hp hno

namespace Serves
variable {sizes : Sizes} {P : Table.Entry → Prop} {f : FileEngine} {m : PlainMap}

theorem fresh (maxBytes capacity cacheBytes : ℕ) : Serves sizes P (.fresh maxBytes capacity cacheBytes) [] where
  engine := by
    refine ⟨.fresh maxBytes, .fresh maxBytes capacity cacheBytes, Engine.steady_fresh maxBytes, ?_, .fresh maxBytes,
      fun _ => rfl⟩
    rw [Engine.fresh, Memtable.entries_new]
    simp
  sorted := List.Pairwise.nil

theorem flushed {e e' : Engine} {f' : FileEngine} (hsteady : e.Steady) (hsorted : Sorted m) (heach : e.Each P)
    (hlookup : ∀ k, lookup k m = e.get k) (he : e.flushMemtable = .ok e') (hrep : Represents sizes f' e') :
    Serves sizes P f' m := by
  obtain ⟨-, hget, hnil, -, -⟩ := hsteady.toOrdered.flushMemtable he
  refine ⟨⟨e', hrep, hsteady.flushMemtable he, ?_, heach.flushMemtable hsteady.toOrdered he,
    fun k => (hlookup k).trans (hget k).symm⟩, hsorted⟩
  rw [hnil]
  simp

theorem write (h : Serves sizes P f m) {op : Op} (hop : op.entry.Fits) (hP : P (op.key, op.value)) (height : Height) :
    match f.write sizes op height with
    | .error err => err.OutOfRange
    | .ok f' => Serves sizes P f' (m.write op) := by
  obtain ⟨e, hrep, hsteady, hfits, heach, hlookup⟩ := h.engine
  have happend := hrep.append op height
  have hsteady' := hsteady.append op height
  have heach' := heach.append hP height
  have hfits' : ∀ x ∈ (e.append op height).memtable.entries, Fits x := by
    intro x hx
    rw [Engine.append, Memtable.entries_update] at hx
    rcases mem_of_mem_upsert hx with hx | rfl
    · exact hfits x hx
    · exact fits_of_recorded hop
  have hlookup' : ∀ k, lookup k (m.write op) = (e.append op height).get k := by
    intro k
    rw [PlainMap.lookup_write, Engine.get_append, hlookup]
  rw [FileEngine.write]
  split_ifs with hfull
  · have hflush := happend.flushMemtable hsteady'.toOrdered hfits'
    cases hf : (f.append op height).flushMemtable sizes with
    | error err =>
      rw [hf] at hflush
      exact hflush
    | ok f' =>
      rw [hf] at hflush
      obtain ⟨e', he', hrep'⟩ := hflush
      exact flushed hsteady' (PlainMap.sorted_write h.sorted op) heach' hlookup' he' hrep'
  · exact ⟨⟨_, happend, hsteady', hfits', heach', hlookup'⟩, PlainMap.sorted_write h.sorted op⟩

theorem flush (h : Serves sizes P f m) :
    match f.flush sizes with
    | .error err => err.OutOfRange
    | .ok f' => Serves sizes P f' m := by
  obtain ⟨e, hrep, hsteady, hfits, heach, hlookup⟩ := h.engine
  have hflush := hrep.flush hsteady.toOrdered hfits
  cases hf : f.flush sizes with
  | error err =>
    rw [hf] at hflush
    exact hflush
  | ok f' =>
    rw [hf] at hflush
    obtain ⟨e', he', hrep'⟩ := hflush
    rw [Engine.flush_eq_flushMemtable] at he'
    exact flushed hsteady h.sorted heach hlookup he' hrep'

theorem reopen (h : Serves sizes P f m) (heights : ℕ → Height) (newProcess : Bool) :
    match f.reopen sizes heights newProcess with
    | .error err => err.OutOfRange
    | .ok f' => Serves sizes P f' m := by
  obtain ⟨e, hrep, hsteady, hfits, heach, hlookup⟩ := h.engine
  have hreopen := hrep.reopen hsteady hfits heights newProcess
  cases hf : f.reopen sizes heights newProcess with
  | error err =>
    rw [hf] at hreopen
    exact hreopen
  | ok f' =>
    rw [hf] at hreopen
    obtain ⟨e', he', hrep'⟩ := hreopen
    obtain ⟨hsteady', hget⟩ := hsteady.reopen he'
    refine ⟨⟨e', hrep', hsteady', ?_, heach.reopen hsteady he', fun k => (hlookup k).trans (hget k).symm⟩, h.sorted⟩
    rw [hsteady.entries_reopen he']
    simp

theorem scan (h : Serves sizes P f m) (start : Key) (stop : Option Key) (limit : ℕ) :
    f.scan start stop limit = m.scan start stop limit := by
  obtain ⟨e, hrep, hsteady, -, -, hlookup⟩ := h.engine
  obtain ⟨ws, hentries, hws⟩ := hrep.written hsteady.toOrdered
  rw [hrep.scan_eq hws]
  apply Reader.scan_eq_of_lookup _ h.sorted
  intro k
  rw [hlookup, Engine.get_eq, Engine.contents, Reader.contents, hentries]

/-- A request is answered as the map answers it or a lookup throws, or a number or a table is out of
range. -/
theorem request (h : Serves sizes P f m) {r : Request} (hr : r.Writes P) :
    match f.request sizes r with
    | .error err => err.OutOfRange
    | .ok (f', a) => Answer.ToldAs (MayThrow sizes P) (m.request r).2 a ∧ Serves sizes P f' (m.request r).1 := by
  cases r with
  | write op height =>
    rw [FileEngine.request, PlainMap.request]
    split_ifs with hop
    · have hwrite := h.write hop (hr hop) height
      cases hf : f.write sizes op height with
      | error err => rwa [hf] at hwrite
      | ok f' => exact ⟨.same _, by rwa [hf] at hwrite⟩
    · exact ⟨.same _, h⟩
  | flush =>
    rw [FileEngine.request, PlainMap.request]
    have hflush := h.flush
    cases hf : f.flush sizes with
    | error err => rwa [hf] at hflush
    | ok f' => exact ⟨.same _, by rwa [hf] at hflush⟩
  | reopen heights newProcess =>
    rw [FileEngine.request, PlainMap.request]
    have hreopen := h.reopen heights newProcess
    cases hf : f.reopen sizes heights newProcess with
    | error err => rwa [hf] at hreopen
    | ok f' => exact ⟨.same _, by rwa [hf] at hreopen⟩
  | get key reserved =>
    obtain ⟨e, hrep, hsteady, hfits, heach, hlookup⟩ := h.engine
    obtain ⟨f', found, hget, hrep', hfound⟩ := hrep.get hsteady.toOrdered key reserved
    rw [FileEngine.request, PlainMap.request, hget]
    refine ⟨?_, ⟨e, hrep', hsteady, hfits, heach, hlookup⟩, h.sorted⟩
    rw [hlookup]
    exact hrep.toldAs heach hfound
  | scan start stop limit =>
    rw [FileEngine.request, PlainMap.request, h.scan]
    exact ⟨.same _, h⟩

theorem serve (h : Serves sizes P f m) {requests : List Request} (hwrites : ∀ r ∈ requests, r.Writes P) :
    List.Forall₂ (Answer.ToldAs (MayThrow sizes P)) ((m.serve requests).take (f.serve sizes requests).1.length)
        (f.serve sizes requests).1 ∧
      match (f.serve sizes requests).2 with
      | some failure => failure.OutOfRange
      | none => (f.serve sizes requests).1.length = requests.length := by
  induction requests generalizing f m with
  | nil => exact ⟨.nil, rfl⟩
  | cons r rs ih =>
    have hrequest := h.request (hwrites r List.mem_cons_self)
    rw [FileEngine.serve, PlainMap.serve]
    cases hf : f.request sizes r with
    | error err =>
      rw [hf] at hrequest
      exact ⟨.nil, hrequest⟩
    | ok p =>
      obtain ⟨f', a⟩ := p
      rw [hf] at hrequest
      obtain ⟨htold, hserves⟩ := hrequest
      obtain ⟨hrest, hend⟩ := ih hserves fun r hr => hwrites r (List.mem_cons_of_mem _ hr)
      refine ⟨.cons htold hrest, ?_⟩
      cases hfailure : (f'.serve sizes rs).2 with
      | some failure =>
        rw [hfailure] at hend
        exact hend
      | none =>
        rw [hfailure] at hend
        exact congrArg (· + 1) hend

end Serves

/-- With a memtable limit of zero every write makes a table, and the fourth one a compaction. -/
example :
    let reserved : ℕ → Reserved := fun _ => ⟨4, fun _ => 15, fun _ => 15⟩
    let served := (FileEngine.fresh 0 2 4096).serve ⟨fun _ => 1, fun _ => Nat.one_pos, linuxTransferMax⟩
      [.write (.put (.ofBytes [1]) [5]) 0, .write (.put (.ofBytes [2]) [6]) 3, .get (.ofBytes [1]) reserved,
        .write (.del (.ofBytes [1])) 1, .write (.put (.ofBytes [2]) [7]) 0, .reopen (fun _ => 0) true,
        .get (.ofBytes [1]) reserved, .scan (.ofBytes []) none 10]
    served.1 = [.done, .done, .value (some [5]), .done, .done, .done, .value none, .pairs [(.ofBytes [2], [7])]] ∧
      served.2.isNone := by
  decide +kernel

/-- Where one `pread` moves 16 bytes, a value of ten is not read back, and the engine goes on. -/
example :
    let reserved : ℕ → Reserved := fun _ => ⟨4, fun _ => 15, fun _ => 15⟩
    let served := (FileEngine.fresh 0 2 4096).serve ⟨fun _ => 1, fun _ => Nat.one_pos, 16⟩
      [.write (.put (.ofBytes [1]) [0, 1, 2, 3, 4, 5, 6, 7, 8, 9]) 0, .get (.ofBytes [1]) reserved,
        .write (.put (.ofBytes [1]) [5]) 0, .get (.ofBytes [1]) reserved]
    served.1 = [.done, .threw .incompleteRead, .done, .value (some [5])] ∧ served.2.isNone := by
  decide +kernel

end LsmTree
