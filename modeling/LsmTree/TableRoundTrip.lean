import LsmTree.TableReader
import Mathlib.Data.List.TakeDrop

/-!
# What is written is read back

Each decoder is followed entry by entry: at the beginning of an encoded entry it returns
the entry and moves behind it. A loop over the data section, or over one block of it,
therefore returns the entries that were written, whatever follows them in the file.
-/

namespace LsmTree.Table
open LittleEndian LayeredMap ByteStream IStream

/-! ### One field, one entry -/

section Fields
variable {s : IStream} {rest : Bytes}

theorem readUint32_ready {n : ℕ} (h : s.Ready (leBytes 4 n ++ rest)) (hn : n ≤ uint32Max) :
    readUint32 s = (n, s.move 4) ∧ (s.move 4).Ready rest := by
  obtain ⟨hread, hnext⟩ := h.read (length_leBytes 4 n)
  refine ⟨?_, hnext⟩
  rw [readUint32, hread, leNat_leBytes]
  simp only [uint32Max] at hn
  omega

theorem readUint64_ready {n : ℕ} (h : s.Ready (leBytes 8 n ++ rest)) (hn : n < offsetLimit) :
    readUint64 s = (n, s.move 8) ∧ (s.move 8).Ready rest := by
  obtain ⟨hread, hnext⟩ := h.read (length_leBytes 8 n)
  refine ⟨?_, hnext⟩
  rw [readUint64, hread, leNat_leBytes]
  simp only [offsetLimit] at hn
  omega

theorem readString_ready {b : Bytes} {maxLen : ℕ} (h : s.Ready (encodeString b ++ rest))
    (hfits : b.length ≤ uint32Max) (hmax : b.length ≤ maxLen) :
    readString maxLen s = .ok (b, s.move (4 + b.length)) ∧ (s.move (4 + b.length)).Ready rest := by
  rw [encodeString, List.append_assoc] at h
  obtain ⟨hlen, hnext⟩ := readUint32_ready h hfits
  obtain ⟨hread, hnext'⟩ := hnext.read rfl
  rw [move_move] at hread hnext'
  refine ⟨?_, hnext'⟩
  simp only [readString, hlen, Nat.not_lt.mpr hmax, if_false, hread]

theorem mkEntry_tombstoneByte (e : Entry) : mkEntry [tombstoneByte e.2] e.1.bytes (e.2.getD []) = e := by
  obtain ⟨k, v⟩ := e
  cases v <;> rfl

theorem length_getD (v : Option Bytes) : (v.getD []).length = valueBytes v := by
  cases v <;> rfl

end Fields

section Entries
variable {s : IStream} {e : Entry} {rest : Bytes}

theorem entrySize_eq (e : Entry) : 1 + (4 + e.1.bytes.length) + (4 + (e.2.getD []).length) = entrySize e := by
  rw [length_getD, entrySize, Key.size]
  omega

/-- The checked reader, at the beginning of an entry. -/
theorem readEntry_ready {maxLen : ℕ} (h : s.Ready (encodeEntry e ++ rest)) (hfits : Fits e)
    (hkey : e.1.size ≤ maxLen) (hvalue : valueBytes e.2 ≤ maxLen) :
    readEntry maxLen s = .ok (e, s.move (entrySize e)) ∧ (s.move (entrySize e)).Ready rest := by
  rw [← length_getD] at hvalue
  have hvalueFits := hfits.2
  rw [← length_getD] at hvalueFits
  have hsplit : encodeEntry e ++ rest = [tombstoneByte e.2] ++
      (encodeString e.1.bytes ++ (encodeString (e.2.getD []) ++ rest)) := by simp [encodeEntry]
  rw [hsplit] at h
  obtain ⟨ht, h⟩ := h.read rfl
  obtain ⟨hk, h⟩ := readString_ready h hfits.1 hkey
  obtain ⟨hv, h⟩ := readString_ready h hvalueFits hvalue
  simp only [List.length_singleton, move_move, entrySize_eq] at ht hk hv h
  refine ⟨?_, h⟩
  simp only [readEntry, ht, hk, hv, mkEntry_tombstoneByte]

/-- The reader of an iterator, at the beginning of an entry. -/
theorem decode_ready (h : s.Ready (encodeEntry e ++ rest)) (hfits : Fits e) :
    TableIterator.decode s = (e, s.move (entrySize e)) ∧ (s.move (entrySize e)).Ready rest := by
  have hvalueFits := hfits.2
  rw [← length_getD] at hvalueFits
  have hsplit : encodeEntry e ++ rest = [tombstoneByte e.2] ++ (leBytes 4 e.1.bytes.length ++
      (e.1.bytes ++ (leBytes 4 (e.2.getD []).length ++ (e.2.getD [] ++ rest)))) := by
    simp [encodeEntry, encodeString]
  rw [hsplit] at h
  obtain ⟨ht, h⟩ := h.read rfl
  obtain ⟨hkl, h⟩ := readUint32_ready h hfits.1
  obtain ⟨hk, h⟩ := h.read rfl
  obtain ⟨hvl, h⟩ := readUint32_ready h hvalueFits
  obtain ⟨hv, h⟩ := h.read rfl
  have hsize : 1 + 4 + e.1.bytes.length + 4 + (e.2.getD []).length = entrySize e := by
    rw [← entrySize_eq]
    omega
  simp only [List.length_singleton, move_move, hsize] at ht hkl hk hvl hv h
  refine ⟨?_, h⟩
  simp only [TableIterator.decode, ht, hkl, hk, hvl, hv, mkEntry_tombstoneByte]

end Entries

theorem encodeEntry_ne_nil (e : Entry) : encodeEntry e ≠ [] := List.cons_ne_nil _ _

theorem entrySize_pos (e : Entry) : 0 < entrySize e := by
  rw [entrySize]
  omega

theorem length_le_encodeData (es : List Entry) : es.length ≤ (encodeData es).length := by
  induction es with
  | nil => exact Nat.zero_le _
  | cons e es ih =>
    have hpos := entrySize_pos e
    rw [length_encodeData_cons, List.length_cons]
    omega

theorem size_le_encodeData {es : List Entry} {e : Entry} (h : e ∈ es) :
    e.1.size ≤ (encodeData es).length ∧ valueBytes e.2 ≤ (encodeData es).length := by
  induction es with
  | nil => cases h
  | cons f es ih =>
    rw [length_encodeData_cons]
    rcases List.mem_cons.mp h with rfl | h
    · rw [entrySize]
      omega
    · have := ih h
      omega

/-! ### The data section -/

/-- `rest` follows the encoded entries, and the stream is at their beginning. -/
structure AtEntries (s : IStream) (es : List Entry) (limit : ℕ) : Prop where
  ready : ∃ rest, s.Ready (encodeData es ++ rest)
  limit_eq : limit = s.pos + (encodeData es).length
  fits : ∀ e ∈ es, Fits e

section Loops
variable {s : IStream} {e : Entry} {es : List Entry} {limit : ℕ}

theorem AtEntries.entry (h : AtEntries s (e :: es) limit) :
    ∃ rest, s.Ready (encodeEntry e ++ (encodeData es ++ rest)) := by
  obtain ⟨rest, hready⟩ := h.ready
  rw [encodeData_cons, List.append_assoc] at hready
  exact ⟨rest, hready⟩

theorem AtEntries.next (h : AtEntries s (e :: es) limit) : AtEntries (s.move (entrySize e)) es limit := by
  obtain ⟨rest, hready⟩ := h.entry
  have hlimit := h.limit_eq
  rw [length_encodeData_cons] at hlimit
  refine ⟨⟨rest, (decode_ready hready (h.fits e List.mem_cons_self)).2⟩, ?_,
    fun f hf => h.fits f (List.mem_cons_of_mem _ hf)⟩
  rw [pos_move]
  omega

theorem AtEntries.below_cons (h : AtEntries s (e :: es) limit) : s.Below limit ∧ s.More := by
  obtain ⟨rest, hready⟩ := h.entry
  have hlimit := h.limit_eq
  have hpos := entrySize_pos e
  rw [length_encodeData_cons] at hlimit
  exact ⟨(hready.below limit).mpr (by omega), hready.more (by simp [encodeEntry])⟩

theorem AtEntries.not_below_nil (h : AtEntries s [] limit) : ¬ s.Below limit := by
  obtain ⟨rest, hready⟩ := h.ready
  rw [hready.below, h.limit_eq]
  simp [encodeData]

theorem AtEntries.readEntry {maxLen : ℕ} (h : AtEntries s (e :: es) limit)
    (hmax : ∀ f ∈ e :: es, f.1.size ≤ maxLen ∧ valueBytes f.2 ≤ maxLen) :
    readEntry maxLen s = .ok (e, s.move (entrySize e)) := by
  obtain ⟨rest, hready⟩ := h.entry
  obtain ⟨hkey, hvalue⟩ := hmax e List.mem_cons_self
  exact (readEntry_ready hready (h.fits e List.mem_cons_self) hkey hvalue).1

/-- `readAll`'s loop. -/
theorem AtEntries.readEntries {maxLen fuel : ℕ} (h : AtEntries s es limit)
    (hmax : ∀ f ∈ es, f.1.size ≤ maxLen ∧ valueBytes f.2 ≤ maxLen) (hfuel : es.length ≤ fuel) :
    readEntries maxLen limit fuel s = .ok es := by
  induction es generalizing s fuel with
  | nil =>
    cases fuel with
    | zero => rfl
    | succ fuel => rw [Table.readEntries, if_neg fun hb => h.not_below_nil hb.1]
  | cons e es ih =>
    cases fuel with
    | zero => exact absurd hfuel (Nat.not_succ_le_zero _)
    | succ fuel =>
      have hrest := ih h.next (fun f hf => hmax f (List.mem_cons_of_mem _ hf)) (Nat.le_of_succ_le_succ hfuel)
      simp only [Table.readEntries, if_pos h.below_cons, h.readEntry hmax, hrest]

/-- The constructor's loop. -/
theorem AtEntries.lastEntry {maxLen fuel : ℕ} (h : AtEntries s es limit)
    (hmax : ∀ f ∈ es, f.1.size ≤ maxLen ∧ valueBytes f.2 ≤ maxLen) (hfuel : es.length ≤ fuel) (e₀ : Entry) :
    lastEntry maxLen limit fuel s e₀ = .ok (es.getLastD e₀) := by
  induction es generalizing s fuel e₀ with
  | nil =>
    cases fuel with
    | zero => rfl
    | succ fuel => rw [Table.lastEntry, if_neg h.not_below_nil, List.getLastD_nil]
  | cons e es ih =>
    cases fuel with
    | zero => exact absurd hfuel (Nat.not_succ_le_zero _)
    | succ fuel =>
      have hrest := ih h.next (fun f hf => hmax f (List.mem_cons_of_mem _ hf)) (Nat.le_of_succ_le_succ hfuel) e
      simp only [Table.lastEntry, if_pos h.below_cons.1, h.readEntry hmax, hrest]
      rw [List.getLastD_cons]

/-- An iterator at the beginning of the entries. -/
theorem AtEntries.yields (h : AtEntries s es limit) (current : Option Entry) :
    (TableIterator.advance ⟨some s, limit, current⟩).Yields es := by
  induction es generalizing s current with
  | nil =>
    rw [TableIterator.Yields, TableIterator.advance]
    simp [h.not_below_nil]
  | cons e es ih =>
    obtain ⟨rest, hready⟩ := h.entry
    have hadvance : TableIterator.advance ⟨some s, limit, current⟩ =
        ⟨some (s.move (entrySize e)), limit, some e⟩ := by
      simp only [TableIterator.advance, if_pos h.below_cons,
        (decode_ready hready (h.fits e List.mem_cons_self)).1]
    rw [hadvance, TableIterator.Yields]
    exact ⟨rfl, ih h.next (some e)⟩

end Loops

theorem TableIterator.Yields.skipBelow {it : TableIterator} {es : List Entry} (h : it.Yields es) (key : Key)
    {fuel : ℕ} (hfuel : es.length ≤ fuel) :
    (it.skipBelow key fuel).Yields (es.dropWhile (·.1 < key)) := by
  induction es generalizing it fuel with
  | nil =>
    cases fuel with
    | zero => exact h
    | succ fuel =>
      have hnone : it.current = none := h
      simp only [TableIterator.skipBelow, hnone]
      exact h
  | cons e es ih =>
    cases fuel with
    | zero => exact absurd hfuel (Nat.not_succ_le_zero _)
    | succ fuel =>
      rw [TableIterator.skipBelow, h.1, List.dropWhile_cons]
      by_cases he : e.1 < key
      · simpa only [he, if_true, decide_true] using ih h.2 (Nat.le_of_succ_le_succ hfuel)
      · simpa only [he, if_false, decide_false, Bool.false_eq_true] using h

/-- The parser of a block, at the beginning of an entry. -/
theorem parseBlockEntries_encodeEntry {e : Entry} (hfits : Fits e) (fuel : ℕ) (tail : Bytes) :
    parseBlockEntries (fuel + 1) (encodeEntry e ++ tail) = e :: parseBlockEntries fuel tail := by
  have hvalueFits := hfits.2
  rw [← length_getD] at hvalueFits
  have hdata : encodeEntry e ++ tail = tombstoneByte e.2 :: (leBytes 4 e.1.bytes.length ++
      (e.1.bytes ++ (leBytes 4 (e.2.getD []).length ++ (e.2.getD [] ++ tail)))) := by
    simp [encodeEntry, encodeString]
  have hkeyLen : leNat (leBytes 4 e.1.bytes.length) = e.1.bytes.length :=
    leNat_leBytes (by have := hfits.1; simp only [uint32Max, Key.size] at this; omega)
  have hvalueLen : leNat (leBytes 4 (e.2.getD []).length) = (e.2.getD []).length :=
    leNat_leBytes (by simp only [uint32Max] at hvalueFits; omega)
  rw [hdata]
  generalize hvalue : e.2.getD [] = value at hvalueLen ⊢
  -- The three guards hold, and every cut falls between two fields.
  have hcut : ∀ (as bs : Bytes) (n : ℕ), as.length = n → (as ++ bs).drop n = bs ∧ (as ++ bs).take n = as := by
    rintro as bs n rfl
    simp
  obtain ⟨rest, hrest⟩ : ∃ rest, rest = e.1.bytes ++ (leBytes 4 value.length ++ (value ++ tail)) := ⟨_, rfl⟩
  have hkey : rest.take e.1.bytes.length = e.1.bytes := by rw [hrest, (hcut _ _ _ rfl).2]
  have hlenField : (rest.drop e.1.bytes.length).take 4 = leBytes 4 value.length := by
    rw [hrest, (hcut _ _ _ rfl).1, (hcut _ _ 4 (length_leBytes _ _)).2]
  have hrest' : rest.drop (e.1.bytes.length + 4) = value ++ tail := by
    rw [← List.drop_drop, hrest, (hcut _ _ _ rfl).1, (hcut _ _ 4 (length_leBytes _ _)).1]
  have hguard : e.1.bytes.length + 4 ≤ rest.length := by
    rw [hrest]
    simp
  rw [← hrest]
  have hlenField₀ : ((tombstoneByte e.2 :: (leBytes 4 e.1.bytes.length ++ rest)).drop 1).take 4 =
      leBytes 4 e.1.bytes.length := (hcut _ _ 4 (length_leBytes _ _)).2
  have hrest₀ : (tombstoneByte e.2 :: (leBytes 4 e.1.bytes.length ++ rest)).drop 5 = rest :=
    (hcut _ _ 4 (length_leBytes _ _)).1
  have hguard₀ : 9 ≤ (tombstoneByte e.2 :: (leBytes 4 e.1.bytes.length ++ rest)).length := by
    simp
    omega
  simp only [parseBlockEntries, hlenField₀, hrest₀, hkeyLen, hkey, hlenField, hrest', hvalueLen,
    (hcut value tail _ rfl).1, (hcut value tail _ rfl).2, Nat.not_lt.mpr hguard₀, Nat.not_lt.mpr hguard, if_false]
  rw [if_neg (by simp), ← hvalue]
  exact congrArg (· :: parseBlockEntries fuel tail) (mkEntry_tombstoneByte e)

theorem parseBlockEntries_encodeData {es : List Entry} (hfits : ∀ e ∈ es, Fits e) {fuel : ℕ}
    (hfuel : es.length ≤ fuel) : parseBlockEntries fuel (encodeData es) = es := by
  induction es generalizing fuel with
  | nil =>
    cases fuel with
    | zero => rfl
    | succ fuel => simp [parseBlockEntries, encodeData]
  | cons e es ih =>
    cases fuel with
    | zero => exact absurd hfuel (Nat.not_succ_le_zero _)
    | succ fuel =>
      rw [encodeData_cons, parseBlockEntries_encodeEntry (hfits e List.mem_cons_self),
        ih (fun f hf => hfits f (List.mem_cons_of_mem _ hf)) (Nat.le_of_succ_le_succ hfuel)]

/-! ### Index, filter and footer -/

section Sections
variable {s : IStream} {rest : Bytes}

@[simp] theorem length_encodeIndexEntry (p : Key × ℕ) : (encodeIndexEntry p).length = 12 + p.1.size := by
  simp [encodeIndexEntry, Key.size]
  omega

theorem twelve_mul_length_le (idx : List (Key × ℕ)) : 12 * idx.length ≤ (idx.flatMap encodeIndexEntry).length := by
  induction idx with
  | nil => exact Nat.zero_le _
  | cons p idx ih =>
    rw [List.flatMap_cons, List.length_append, length_encodeIndexEntry, List.length_cons]
    omega

theorem readIndex_ready {idx : List (Key × ℕ)} {maxLen : ℕ} (h : s.Ready (idx.flatMap encodeIndexEntry ++ rest))
    (hfits : ∀ p ∈ idx, p.1.size ≤ uint32Max ∧ p.1.size ≤ maxLen ∧ p.2 < offsetLimit) :
    readIndex maxLen idx.length s = .ok (idx, s.move (idx.flatMap encodeIndexEntry).length) ∧
      (s.move (idx.flatMap encodeIndexEntry).length).Ready rest := by
  induction idx generalizing s with
  | nil => exact ⟨rfl, h⟩
  | cons p idx ih =>
    obtain ⟨hkey, hmax, hoff⟩ := hfits p List.mem_cons_self
    rw [List.flatMap_cons, encodeIndexEntry, List.append_assoc, List.append_assoc] at h
    obtain ⟨hread, h⟩ := readString_ready h hkey hmax
    obtain ⟨hoffset, h⟩ := readUint64_ready h hoff
    obtain ⟨hrest, h⟩ := ih h fun q hq => hfits q (List.mem_cons_of_mem _ hq)
    have hlen : 4 + p.1.bytes.length + 8 + (idx.flatMap encodeIndexEntry).length =
        ((p :: idx).flatMap encodeIndexEntry).length := by
      rw [List.flatMap_cons, List.length_append, length_encodeIndexEntry, Key.size]
      omega
    simp only [move_move, hlen] at hoffset hrest h
    refine ⟨?_, h⟩
    simp only [readIndex, List.length_cons, hread, hoffset, hrest]
    rfl

theorem deserializeBloom_ready {f : BloomFilter} (h : s.Ready (encodeBloom f ++ rest))
    (hrest : rest.length = 16) (hhashes : 0 < f.numHashes) (hhashes' : f.numHashes < offsetLimit)
    (hblocks : f.numBlocks < offsetLimit) :
    ∃ s', deserializeBloom s = .ok (f, s') ∧ s'.Ready rest ∧ s'.data = s.data := by
  have hsplit : encodeBloom f ++ rest =
      leBytes 8 f.numHashes ++ (leBytes 8 f.numBlocks ++ (f.serialize ++ rest)) := by
    simp [encodeBloom]
  rw [hsplit] at h
  have hdata : s.pos + 16 + f.numBlocks * 64 + 16 = s.data.length := by
    have hlen := congrArg List.length h.rest
    simp only [List.length_drop, List.length_append, length_leBytes, f.length_serialize, hrest] at hlen
    omega
  have havail : ¬ (s.available 16).length < 16 := by
    rw [IStream.available, h.good, h.rest]
    simp
    omega
  obtain ⟨hread₁, h⟩ := readUint64_ready h hhashes'
  obtain ⟨hread₂, h⟩ := readUint64_ready h hblocks
  obtain ⟨hread₃, h⟩ := h.read f.length_serialize
  simp only [move_move] at hread₂ hread₃ h
  have hguard : ¬ (if s.pos + 16 + 16 ≤ s.data.length then s.data.length - (s.pos + 16) - 16 else 0) / 64 <
      f.numBlocks := by
    rw [if_pos (by omega), ← hdata]
    omega
  refine ⟨_, ?_, h, rfl⟩
  simp only [deserializeBloom, if_neg havail, hread₁, hread₂, pos_move, Nat.reduceAdd, if_neg hguard, hread₃,
    f.deserialize_serialize hhashes]

end Sections

/-! ### Opening -/

/-- What an opened table knows of the entries its file was written from. -/
structure OpenTable.Holds (t : OpenTable) (es : List Entry) : Prop where
  sorted : Sorted es
  fits : ∀ e ∈ es, Fits e
  data : ∃ rest, t.file = encodeData es ++ rest
  footer : ∃ (body : Bytes) (bloomOffset : ℕ),
    t.file = body ++ encodeFooter (encodeData es).length bloomOffset
  limit : t.file.length < offsetLimit
  fileSize : t.fileSize = t.file.length
  indexOffset : t.indexOffset = (encodeData es).length
  index_eq : t.index = Table.index es
  bloom : ∀ e ∈ es, t.bloom.mayContain e.1.bytes = true
  smallest : ∀ e ∈ es.head?, t.smallestKey = e.1
  largest : ∀ e ∈ es.getLast?, t.largestKey = e.1

theorem Indexed.eq_nil {off : ℕ} {blocks : List (List Entry)} (h : Indexed off [] blocks) : blocks = [] := by
  cases h
  rfl

theorem Indexed.mem {off : ℕ} {idx : List (Key × ℕ)} {blocks : List (List Entry)}
    (h : Indexed off idx blocks) {p : Key × ℕ} (hp : p ∈ idx) :
    (∃ e ∈ blocks.flatten, p.1 = e.1) ∧ p.2 ≤ off + (encodeData blocks.flatten).length := by
  obtain ⟨i, hi⟩ := List.mem_iff_getElem?.mp hp
  obtain ⟨before, after, e, es, rfl, -, rfl, -⟩ := h.split hi
  refine ⟨⟨e, by simp, rfl⟩, ?_⟩
  rw [List.flatten_append, encodeData_append, List.length_append]
  omega

theorem bloom_mayContain {numBlocks : ℕ} (h : 0 < numBlocks) {es : List Entry} {e : Entry} (he : e ∈ es) :
    (bloom numBlocks h es).mayContain e.1.bytes = true := by
  apply BloomFilter.mayContain_foldl_insert
  exact .inl (List.mem_map_of_mem (f := fun e : Entry => e.1.bytes) he)

theorem foldl_insert_numHashes (f : BloomFilter) (keys : List Bytes) :
    (keys.foldl BloomFilter.insert f).numHashes = f.numHashes ∧
      (keys.foldl BloomFilter.insert f).numBlocks = f.numBlocks := by
  induction keys generalizing f with
  | nil => exact ⟨rfl, rfl⟩
  | cons k keys ih => exact ih (f.insert k)

/-- A stream for the file, at the beginning of a part of the data section that goes to its end. -/
theorem atEntries_seekg {s : IStream} {as : Bytes} {es fs : List Entry} (hready : s.Ready as)
    (hdata : ∃ rest, s.data = encodeData (es ++ fs) ++ rest) (hlimit : s.data.length < offsetLimit)
    (hfits : ∀ e ∈ fs, Fits e) :
    AtEntries (s.seekg (encodeData es).length) fs (encodeData (es ++ fs)).length := by
  obtain ⟨rest, hdata⟩ := hdata
  have hoff : (encodeData es).length < offsetLimit := by
    rw [hdata, encodeData_append] at hlimit
    simp only [List.length_append] at hlimit
    omega
  have hdrop : s.data.drop (encodeData es).length = encodeData fs ++ rest := by
    rw [hdata, encodeData_append, List.append_assoc, List.drop_left]
  obtain ⟨hnext, hpos, -⟩ := hready.seekg hoff hdrop
  refine ⟨⟨rest, hnext⟩, ?_, hfits⟩
  rw [hpos, encodeData_append, List.length_append]

/-- The bounds the constructor reads are the first and the last key. -/
theorem keyBounds_eq {s : IStream} {as : Bytes} {es : List Entry} {idx : List (Key × ℕ)}
    {blocks : List (List Entry)} (hready : s.Ready as) (hdata : ∃ rest, s.data = encodeData es ++ rest)
    (hlimit : s.data.length < offsetLimit) (hidx : Indexed 0 idx blocks) (hflat : blocks.flatten = es)
    (hfits : ∀ e ∈ es, Fits e) :
    ∃ keys, keyBounds s s.data.length (encodeData es).length idx = .ok keys ∧
      (∀ e ∈ es.head?, keys.1 = e.1) ∧ ∀ e ∈ es.getLast?, keys.2 = e.1 := by
  cases idx with
  | nil =>
    rw [hidx.eq_nil] at hflat
    refine ⟨(default, default), rfl, ?_⟩
    simp [← hflat]
  | cons first tail =>
    have hlast : (first :: tail)[tail.length]? = some (tail.getLastD first) := by
      rw [List.getLastD_eq_getLast?, ← List.getLast?_cons, List.getLast?_eq_getElem?]
      simp
    obtain ⟨before, after, e, block, hblocks, -, hp, hafter⟩ := hidx.split hlast
    have hnil : after = [] := by
      rw [List.drop_of_length_le (by simp)] at hafter
      exact hafter.eq_nil
    have hes : es = before.flatten ++ (e :: block) := by
      rw [← hflat, hblocks, hnil]
      simp
    have hhead : ∀ e ∈ es.head?, first.1 = e.1 := by
      obtain ⟨before₀, after₀, e₀, block₀, hblocks₀, hlen₀, hp₀, -⟩ := hidx.split (i := 0) (p := first) rfl
      rw [List.length_eq_zero_iff.mp hlen₀] at hblocks₀
      rw [← hflat, hblocks₀, hp₀]
      simp
    have hmax : ∀ f ∈ e :: block, f.1.size ≤ s.data.length ∧ valueBytes f.2 ≤ s.data.length := by
      intro f hf
      obtain ⟨rest, hdata⟩ := hdata
      have hle := @size_le_encodeData es f (by rw [hes]; exact List.mem_append_right _ hf)
      rw [hdata, List.length_append]
      omega
    have hfuel : (e :: block).length ≤ s.data.length + 1 := by
      obtain ⟨rest, hdata⟩ := hdata
      have hle := length_le_encodeData es
      rw [hes, List.length_append, ← hes] at hle
      rw [hdata, List.length_append]
      omega
    rw [hes] at hdata hfits
    have hat := atEntries_seekg hready hdata hlimit fun f hf => hfits f (List.mem_append_right _ hf)
    rw [← hes] at hat
    refine ⟨(first.1, (block.getLastD e).1), ?_, hhead, ?_⟩
    · simp only [keyBounds, hp, Nat.zero_add, hat.lastEntry hmax hfuel]
      rw [List.getLastD_cons]
    · intro f hf
      rw [hes, List.getLast?_append, List.getLast?_cons, Option.some_or] at hf
      rw [List.getLastD_eq_getLast?]
      cases hf
      rfl

/-- The constructor, on a file made of the four sections. -/
theorem openTable_sections {es : List Entry} {idx : List (Key × ℕ)} {f : BloomFilter} {file : Bytes}
    {blocks : List (List Entry)}
    (hfile : file = encodeData es ++ (encodeIndex idx ++ (encodeBloom f ++
      encodeFooter (encodeData es).length ((encodeData es).length + (encodeIndex idx).length))))
    (hlimit : file.length < offsetLimit) (hindexed : Indexed 0 idx blocks) (hflat : blocks.flatten = es)
    (hfits : ∀ e ∈ es, Fits e) (hcount : idx.length ≤ uint32Max) (hhashes : 0 < f.numHashes)
    (hhashes' : f.numHashes < offsetLimit) :
    ∃ keys : Key × Key, openTable file = .ok ⟨file, idx, f, keys.1, keys.2, file.length, (encodeData es).length⟩ ∧
      (∀ e ∈ es.head?, keys.1 = e.1) ∧ ∀ e ∈ es.getLast?, keys.2 = e.1 := by
  have hdata : ∃ rest, file = encodeData es ++ rest := ⟨_, hfile⟩
  have hmem : ∀ p ∈ idx, (∃ e ∈ blocks.flatten, p.1 = e.1) ∧ p.2 ≤ 0 + (encodeData blocks.flatten).length :=
    fun p hp => hindexed.mem hp
  rw [hflat, Nat.zero_add] at hmem
  have hlen : file.length = (encodeData es).length + (encodeIndex idx).length + (encodeBloom f).length + 16 := by
    rw [hfile]
    simp only [List.length_append, encodeFooter, length_leBytes]
    omega
  have hkeys : ∀ e ∈ es, e.1.size ≤ (encodeData es).length := fun e he => (size_le_encodeData he).1
  obtain ⟨dataLen, hdataLen⟩ : ∃ n, n = (encodeData es).length := ⟨_, rfl⟩
  obtain ⟨bloomOff, hbloomOff⟩ : ∃ n, n = dataLen + (encodeIndex idx).length := ⟨_, rfl⟩
  rw [← hdataLen] at hmem hkeys hlen ⊢
  rw [← hdataLen, ← hbloomOff] at hfile
  rw [← hbloomOff] at hlen
  -- The footer.
  have htail : file = (encodeData es ++ (encodeIndex idx ++ encodeBloom f)) ++ encodeFooter dataLen bloomOff := by
    rw [hfile]
    simp only [List.append_assoc]
  obtain ⟨h, hfile₀⟩ := ready_seekEnd (encodeData es ++ (encodeIndex idx ++ encodeBloom f))
    (encodeFooter dataLen bloomOff)
  rw [← htail, show (encodeFooter dataLen bloomOff).length = 16 by simp [encodeFooter]] at h hfile₀
  generalize hs : (ofFile file).seekEnd 16 = s at h hfile₀
  rw [encodeFooter] at h
  obtain ⟨hread₁, h⟩ := readUint64_ready h (by omega)
  rw [← List.append_nil (leBytes 8 bloomOff)] at h
  obtain ⟨hread₂, h⟩ := readUint64_ready h (by omega)
  -- The index.
  have hdrop : ((s.move 8).move 8).data.drop dataLen =
      leBytes 4 idx.length ++ (idx.flatMap encodeIndexEntry ++ (encodeBloom f ++ encodeFooter dataLen bloomOff)) := by
    rw [data_move, data_move, hfile₀, hfile, hdataLen, List.drop_left, encodeIndex, List.append_assoc]
  obtain ⟨h, -, hdata₁⟩ := h.seekg (by omega) hdrop
  rw [data_move, data_move, hfile₀] at hdata₁
  generalize hs₁ : ((s.move 8).move 8).seekg dataLen = s₁ at h hdata₁
  obtain ⟨hread₃, h⟩ := readUint32_ready h hcount
  have hentries : ∀ p ∈ idx, p.1.size ≤ uint32Max ∧ p.1.size ≤ file.length ∧ p.2 < offsetLimit := by
    intro p hp
    obtain ⟨⟨e, he, hpe⟩, hoff⟩ := hmem p hp
    have hsize := hkeys e he
    rw [hpe]
    exact ⟨(hfits e he).1, by omega, by omega⟩
  obtain ⟨hread₄, h⟩ := readIndex_ready h hentries
  have hindexLen : 4 + 12 * idx.length ≤ (encodeIndex idx).length := by
    rw [encodeIndex, List.length_append, length_leBytes]
    have := twelve_mul_length_le idx
    omega
  generalize hs₂ : (s₁.move 4).move (idx.flatMap encodeIndexEntry).length = s₂ at h hread₄
  have hdata₂ : s₂.data = file := by rw [← hs₂, data_move, data_move, hdata₁]
  -- The filter.
  have hdrop' : s₂.data.drop bloomOff = encodeBloom f ++ encodeFooter dataLen bloomOff := by
    have hcut : file = (encodeData es ++ encodeIndex idx) ++ (encodeBloom f ++ encodeFooter dataLen bloomOff) := by
      rw [hfile]
      simp only [List.append_assoc]
    rw [hdata₂, hcut, hbloomOff, hdataLen, ← List.length_append, List.drop_left]
  obtain ⟨h, -, hdata₃⟩ := h.seekg (by omega) hdrop'
  have hblocks : f.numBlocks < offsetLimit := by
    rw [encodeBloom] at hlen
    simp only [List.length_append, f.length_serialize] at hlen
    omega
  obtain ⟨s₃, hbloom, h, hdata₄⟩ := deserializeBloom_ready h (by simp [encodeFooter]) hhashes hhashes' hblocks
  rw [hdata₃, hdata₂] at hdata₄
  -- The bounds of the keys.
  obtain ⟨keys, hbounds, hfirst, hlast⟩ := keyBounds_eq h (by rwa [hdata₄]) (by rwa [hdata₄]) hindexed hflat hfits
  rw [hdata₄, ← hdataLen] at hbounds
  refine ⟨keys, ?_, hfirst, hlast⟩
  have hguard₁ : ¬ file.length < 16 := by omega
  have hguard₂ : ¬ (file.length < dataLen ∨ file.length < bloomOff ∨ bloomOff < dataLen) := by omega
  have hguard₃ : ¬ (bloomOff - dataLen - 4) / 12 < idx.length := by omega
  simp only [openTable, if_neg hguard₁, hs, hread₁, hread₂, if_neg hguard₂, hs₁, hread₃, if_neg hguard₃, hread₄,
    hbloom, hbounds]

/-- The file of an accepted list opens, and the table holds the list. -/
theorem openTable_of_write {numBlocks : ℕ} {h : 0 < numBlocks} {es : List Entry} {file : Bytes}
    (hwrite : write numBlocks h es = .ok file) : ∃ t, openTable file = .ok t ∧ t.Holds es := by
  obtain ⟨hsorted, hfits, hcount, hsize, rfl⟩ := write_eq_ok_iff.mp hwrite
  obtain ⟨blocks, hindexed, hflat⟩ := indexed_index es
  have hhashes : (bloom numBlocks h es).numHashes = 8 := (foldl_insert_numHashes _ _).1
  obtain ⟨keys, hopen, hfirst, hlast⟩ := openTable_sections (f := bloom numBlocks h es) rfl hsize hindexed hflat
    hfits hcount (by rw [hhashes]; decide) (by rw [hhashes]; decide)
  refine ⟨_, hopen, hsorted, hfits, ⟨_, rfl⟩, ?_, hsize, rfl, rfl, rfl,
    fun e he => bloom_mayContain h he, hfirst, hlast⟩
  refine ⟨encodeData es ++ (encodeIndex (index es) ++ encodeBloom (bloom numBlocks h es)),
    (encodeData es).length + (encodeIndex (index es)).length, ?_⟩
  simp only [List.append_assoc]

end LsmTree.Table
