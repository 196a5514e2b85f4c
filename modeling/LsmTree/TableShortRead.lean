import LsmTree.TableLookup
import Mathlib.Data.List.TakeWhile

/-!
# Iterators on a stream that comes up short

An iterator does not look at the state of its stream after a read. Where the bytes end
inside an entry, the fields that could not be read keep the zeros their buffers began
with, and the entry made of them is handed out like any other; after it, and where the
bytes end between two entries, the iterator reports its end.

The entry is the one that was written exactly if all the bytes that are missing of it
were zero. Otherwise its key is a smaller one, or its value is another one.
-/

namespace LsmTree.Table
open LittleEndian LayeredMap ByteStream IStream

/-! ### One entry -/

/-- The entry an iterator makes of the bytes that are left. -/
def decodeBytes (bs : Bytes) : Entry :=
  let keyLen := leNat (zeroFilled 4 (bs.drop 1))
  let rest := bs.drop (5 + keyLen)
  mkEntry (zeroFilled 1 bs) (zeroFilled keyLen (bs.drop 5)) (zeroFilled (leNat (zeroFilled 4 rest)) (rest.drop 4))

/-- How many bytes the fields of that entry have. -/
def decodedSize (bs : Bytes) : ℕ :=
  let keyLen := leNat (zeroFilled 4 (bs.drop 1))
  9 + keyLen + leNat (zeroFilled 4 (bs.drop (5 + keyLen)))

theorem decode_left {s : IStream} {bs : Bytes} (h : s.Left bs) :
    (TableIterator.decode s).1 = decodeBytes bs ∧ (TableIterator.decode s).2.Left (bs.drop (decodedSize bs)) := by
  obtain ⟨ht, h⟩ := h.read 1
  obtain ⟨hkl, h⟩ := h.read 4
  obtain ⟨hk, h⟩ := h.read (leNat (zeroFilled 4 (bs.drop 1)))
  obtain ⟨hvl, h⟩ := h.read 4
  obtain ⟨hv, h⟩ := h.read (leNat (zeroFilled 4 (bs.drop (5 + leNat (zeroFilled 4 (bs.drop 1))))))
  simp only [List.drop_drop, Nat.reduceAdd] at hk hvl hv h
  simp only [TableIterator.decode, readUint32, decodeBytes, decodedSize, ht, hkl, hk, hvl, hv, List.drop_drop]
  refine ⟨trivial, ?_⟩
  have hsize : 5 + leNat (zeroFilled 4 (bs.drop 1)) + 4 +
      leNat (zeroFilled 4 (bs.drop (5 + leNat (zeroFilled 4 (bs.drop 1))))) =
      9 + leNat (zeroFilled 4 (bs.drop 1)) + leNat (zeroFilled 4 (bs.drop (5 + leNat (zeroFilled 4 (bs.drop 1))))) := by
    omega
  rw [hsize] at h
  exact h

theorem leNat_replicate_zero (n : ℕ) : leNat (List.replicate n 0) = 0 := by
  induction n with
  | zero => rfl
  | succ n ih => simp [List.replicate_succ, leNat, ih]

theorem zeroFilled_succ_cons (n j : ℕ) (b : UInt8) (bs : Bytes) :
    zeroFilled (n + 1) ((b :: bs).take (j + 1)) = b :: zeroFilled n (bs.take j) := by simp [zeroFilled]

theorem zeroFilled_take_zero (n : ℕ) (bs : Bytes) : zeroFilled n (bs.take 0) = List.replicate n 0 := by
  simp [zeroFilled]

/-- Missing high bytes make a number smaller. -/
theorem leNat_zeroFilled_take_le {n : ℕ} {bs : Bytes} (h : n ≤ bs.length) (rest : Bytes) (j : ℕ) :
    leNat (zeroFilled n ((bs ++ rest).take j)) ≤ leNat bs := by
  induction bs generalizing n j with
  | nil =>
    rw [Nat.le_zero.mp h, zeroFilled_eq_take (Nat.zero_le _)]
    exact le_refl _
  | cons b bs ih =>
    cases j with
    | zero =>
      rw [zeroFilled_take_zero, leNat_replicate_zero]
      exact Nat.zero_le _
    | succ j =>
      cases n with
      | zero =>
        rw [zeroFilled_eq_take (Nat.zero_le _)]
        exact Nat.zero_le _
      | succ n =>
        have hle := ih (Nat.le_of_succ_le_succ h) j
        rw [List.cons_append, zeroFilled_succ_cons, leNat, leNat]
        omega

theorem nil_le_bytes (bs : Bytes) : ([] : Bytes) ≤ bs := not_lt.mp (List.not_lt_nil bs)

theorem replicate_zero_le {n : ℕ} {bs : Bytes} (h : n ≤ bs.length) : List.replicate n 0 ≤ bs := by
  induction n generalizing bs with
  | zero => exact nil_le_bytes bs
  | succ n ih =>
    cases bs with
    | nil => exact absurd h (Nat.not_succ_le_zero _)
    | cons b bs =>
      rw [List.replicate_succ]
      rcases (UInt8.zero_le : (0 : UInt8) ≤ b).lt_or_eq with hlt | rfl
      · exact le_of_lt (List.Lex.rel hlt)
      · exact List.cons_le_cons 0 (ih (Nat.le_of_succ_le_succ h))

/-- A string that stops early and is filled up with zeros comes before the whole one. -/
theorem zeroFilled_take_le {n : ℕ} {bs : Bytes} (h : n ≤ bs.length) (rest : Bytes) (j : ℕ) :
    zeroFilled n ((bs ++ rest).take j) ≤ bs := by
  induction bs generalizing n j with
  | nil =>
    rw [Nat.le_zero.mp h, zeroFilled_eq_take (Nat.zero_le _)]
    exact nil_le_bytes _
  | cons b bs ih =>
    cases j with
    | zero =>
      rw [zeroFilled_take_zero]
      exact replicate_zero_le h
    | succ j =>
      cases n with
      | zero =>
        rw [zeroFilled_eq_take (Nat.zero_le _)]
        exact nil_le_bytes _
      | succ n =>
        rw [List.cons_append, zeroFilled_succ_cons]
        exact List.cons_le_cons b (ih (Nat.le_of_succ_le_succ h) j)

section Cut
variable {e : Entry} {m : ℕ}

theorem encodeEntry_fields (e : Entry) : encodeEntry e = [tombstoneByte e.2] ++ (leBytes 4 e.1.size ++
    (e.1.bytes ++ (leBytes 4 (valueBytes e.2) ++ e.2.getD []))) := by
  rw [← length_getD]
  simp [encodeEntry, encodeString, Key.size]

theorem drop_one_encodeEntry (e : Entry) : (encodeEntry e).drop 1 =
    leBytes 4 e.1.size ++ (e.1.bytes ++ (leBytes 4 (valueBytes e.2) ++ e.2.getD [])) := by
  rw [encodeEntry_fields]
  rfl

theorem drop_five_encodeEntry (e : Entry) : (encodeEntry e).drop 5 =
    e.1.bytes ++ (leBytes 4 (valueBytes e.2) ++ e.2.getD []) := by
  rw [← List.drop_drop (i := 4) (j := 1), drop_one_encodeEntry, List.drop_left' (length_leBytes 4 _)]

theorem drop_value_encodeEntry (e : Entry) : (encodeEntry e).drop (5 + e.1.size) =
    leBytes 4 (valueBytes e.2) ++ e.2.getD [] := by
  rw [← List.drop_drop, drop_five_encodeEntry, Key.size, List.drop_left]

theorem leNat_field {n : ℕ} (h : n ≤ uint32Max) : leNat (leBytes 4 n) = n := by
  apply leNat_leBytes
  simp only [uint32Max] at h
  omega

theorem zeroFilled_take_append {w j : ℕ} {as : Bytes} (hlen : as.length = w) (hj : w ≤ j) (bs : Bytes) :
    zeroFilled w ((as ++ bs).take j) = as := by
  rw [zeroFilled_eq_take, List.take_take, Nat.min_eq_left hj, ← hlen, List.take_left]
  simp only [List.length_take, List.length_append]
  omega

/-- The length of the key, from a field of which some bytes may be missing. -/
theorem keyLen_cut_le (hfits : Fits e) (m : ℕ) :
    leNat (zeroFilled 4 (((encodeEntry e).take m).drop 1)) ≤ e.1.size := by
  rw [List.drop_take, drop_one_encodeEntry]
  have hle := leNat_zeroFilled_take_le (length_leBytes 4 e.1.size).ge
    (e.1.bytes ++ (leBytes 4 (valueBytes e.2) ++ e.2.getD [])) (m - 1)
  rwa [leNat_field hfits.1] at hle

theorem keyLen_cut_eq (hfits : Fits e) (hm : 5 ≤ m) :
    leNat (zeroFilled 4 (((encodeEntry e).take m).drop 1)) = e.1.size := by
  rw [List.drop_take, drop_one_encodeEntry, zeroFilled_take_append (length_leBytes 4 _) (by omega),
    leNat_field hfits.1]

theorem valueLen_cut_eq (hfits : Fits e) (hm : 9 + e.1.size ≤ m) :
    leNat (zeroFilled 4 (((encodeEntry e).take m).drop (5 + e.1.size))) = valueBytes e.2 := by
  rw [List.drop_take, drop_value_encodeEntry, zeroFilled_take_append (length_leBytes 4 _) (by omega),
    leNat_field hfits.2]

/-- Nothing is left behind an entry that is cut short. -/
theorem le_decodedSize (hfits : Fits e) (hm : m ≤ entrySize e) : m ≤ decodedSize ((encodeEntry e).take m) := by
  simp only [decodedSize]
  by_cases hkey : 5 ≤ m
  · rw [keyLen_cut_eq hfits hkey]
    by_cases hvalue : 9 + e.1.size ≤ m
    · rw [valueLen_cut_eq hfits hvalue]
      simp only [entrySize] at hm
      omega
    · omega
  · omega

theorem decodeBytes_key_le (hfits : Fits e) (m : ℕ) : (decodeBytes ((encodeEntry e).take m)).1 ≤ e.1 := by
  simp only [decodeBytes, mkEntry]
  rw [List.drop_take (i := 5), drop_five_encodeEntry]
  exact zeroFilled_take_le (keyLen_cut_le hfits m) _ _

theorem decodeBytes_append_replicate (bs : Bytes) (j : ℕ) :
    decodeBytes (bs ++ List.replicate j 0) = decodeBytes bs := by
  simp only [decodeBytes, List.drop_append, List.drop_replicate, zeroFilled_append_replicate]

theorem decodeBytes_encodeEntry (hfits : Fits e) : decodeBytes (encodeEntry e) = e := by
  have hlen : encodeEntry e = (encodeEntry e).take (entrySize e) := by
    rw [← length_encodeEntry, List.take_length]
  have hkey := @keyLen_cut_eq e (entrySize e) hfits (by simp only [entrySize]; omega)
  have hvalue := @valueLen_cut_eq e (entrySize e) hfits (by simp only [entrySize]; omega)
  rw [← hlen] at hkey hvalue
  have hvalueBytes : zeroFilled (valueBytes e.2) (((encodeEntry e).drop (5 + e.1.size)).drop 4) = e.2.getD [] := by
    rw [drop_value_encodeEntry, List.drop_left' (length_leBytes 4 _), zeroFilled_eq_take (length_getD e.2).ge,
      ← length_getD, List.take_length]
  have hkeyBytes : zeroFilled e.1.size ((encodeEntry e).drop 5) = e.1.bytes := by
    rw [drop_five_encodeEntry, zeroFilled_eq_take (by simp [Key.size]), Key.size, List.take_left]
  simp only [decodeBytes, hkey, hvalue, hvalueBytes, hkeyBytes]
  rw [encodeEntry_fields, zeroFilled_eq_take (by simp)]
  exact mkEntry_tombstoneByte e

/-- Bytes that decode to an entry encode it, if their tombstone byte does and, for a tombstone,
the length of its value. -/
theorem eq_encodeEntry_of_decodeBytes {bs : Bytes} (hlen : bs.length = entrySize e) (hdecode : decodeBytes bs = e)
    (hfirst : bs.take 1 = [tombstoneByte e.2])
    (hnone : e.2 = none → bs.drop (5 + e.1.size) = leBytes 4 0) : bs = encodeEntry e := by
  obtain ⟨k, v⟩ := e
  simp only [decodeBytes, mkEntry] at hdecode
  simp only [entrySize] at hlen
  obtain ⟨hkey, hvalue⟩ := Prod.mk.inj hdecode
  have hkeyBytes : zeroFilled (leNat (zeroFilled 4 (bs.drop 1))) (bs.drop 5) = k.bytes := hkey
  have hkeyLen : leNat (zeroFilled 4 (bs.drop 1)) = k.size := by
    rw [Key.size, ← hkeyBytes, length_zeroFilled]
  have hkeyField := eq_leBytes_of_leNat (length_zeroFilled 4 (bs.drop 1)) hkeyLen
  rw [hkeyLen] at hkeyBytes hvalue
  rw [zeroFilled_eq_take (by rw [List.length_drop]; omega)] at hkeyField hkeyBytes
  have hrest : bs.drop (5 + k.size) = leBytes 4 (valueBytes v) ++ v.getD [] := by
    cases v with
    | none =>
      rw [hnone rfl]
      rfl
    | some v =>
      have hbyte : leNat (zeroFilled 1 bs) = 0 := by
        rw [zeroFilled_eq_take (by omega), hfirst]
        rfl
      rw [if_pos hbyte, Option.some.injEq] at hvalue
      have hvalueLen : leNat (zeroFilled 4 (bs.drop (5 + k.size))) = v.length := by
        rw [← hvalue, length_zeroFilled]
      have hvalueField := eq_leBytes_of_leNat (length_zeroFilled 4 (bs.drop (5 + k.size))) hvalueLen
      simp only [valueBytes, Option.elim_some] at hlen
      rw [hvalueLen, zeroFilled_eq_take (by rw [List.drop_drop, List.length_drop]; omega),
        List.take_of_length_le (by rw [List.drop_drop, List.length_drop]; omega)] at hvalue
      rw [zeroFilled_eq_take (by rw [List.length_drop]; omega)] at hvalueField
      rw [← List.take_append_drop 4 (bs.drop (5 + k.size)), hvalueField, hvalue]
      rfl
  have hsplit : bs = bs.take 1 ++ ((bs.drop 1).take 4 ++ ((bs.drop 5).take k.size ++ bs.drop (5 + k.size))) := by
    rw [← List.drop_drop (i := k.size) (j := 5), List.take_append_drop, ← List.drop_drop (i := 4) (j := 1),
      List.take_append_drop, List.take_append_drop]
  rw [hsplit, hfirst, hkeyField, hkeyBytes, hrest, encodeEntry_fields]

/-- An entry survives a cut exactly if all bytes behind the cut are zero. -/
theorem decodeBytes_take_eq_iff (hfits : Fits e) (hm : 0 < m) :
    decodeBytes ((encodeEntry e).take m) = e ↔ ∀ b ∈ (encodeEntry e).drop m, b = 0 := by
  constructor
  · intro hdecode
    have hwhole : (encodeEntry e).take m ++ List.replicate (entrySize e - m) 0 = encodeEntry e := by
      apply eq_encodeEntry_of_decodeBytes
      · simp only [List.length_append, List.length_take, length_encodeEntry, List.length_replicate]
        omega
      · rw [decodeBytes_append_replicate, hdecode]
      · obtain ⟨n, rfl⟩ := Nat.exists_eq_add_of_lt hm
        simp [encodeEntry]
      · intro hnone
        have hzeros : leBytes 4 0 = List.replicate 4 0 := rfl
        rw [List.drop_append, List.drop_take, drop_value_encodeEntry, hnone]
        simp only [valueBytes, Option.elim_none, Option.getD_none, List.append_nil, hzeros, List.take_replicate,
          List.drop_replicate, List.replicate_append_replicate, List.length_take, length_encodeEntry]
        congr 1
        simp only [entrySize, hnone, valueBytes, Option.elim_none]
        omega
    intro b hb
    rw [← hwhole, List.drop_append] at hb
    simp only [List.drop_take, Nat.sub_self, List.take_zero, List.nil_append, List.drop_replicate] at hb
    exact List.eq_of_mem_replicate hb
  · intro hzero
    have hrest := List.eq_replicate_of_mem hzero
    have hwhole : (encodeEntry e).take m ++ List.replicate ((encodeEntry e).drop m).length 0 = encodeEntry e := by
      rw [← hrest, List.take_append_drop]
    rw [← decodeBytes_append_replicate, hwhole, decodeBytes_encodeEntry hfits]

end Cut

/-! ### The data section -/

/-- What an iterator hands out of some entries if only their first `m` bytes can be read. -/
def cutEntries : ℕ → List Entry → List Entry
  | _, [] => []
  | m, e :: es =>
    if m = 0 then []
    else if entrySize e ≤ m then e :: cutEntries (m - entrySize e) es
    else [decodeBytes ((encodeEntry e).take m)]

theorem cutEntries_zero (es : List Entry) : cutEntries 0 es = [] := by
  cases es with
  | nil => rfl
  | cons e es => rw [cutEntries, if_pos rfl]

theorem length_cutEntries_le (m : ℕ) (es : List Entry) : (cutEntries m es).length ≤ es.length := by
  induction es generalizing m with
  | nil => exact le_refl _
  | cons e es ih =>
    rw [cutEntries]
    split_ifs
    · exact Nat.zero_le _
    · exact Nat.succ_le_succ (ih _)
    · simp

/-- An iterator at the beginning of entries of which only `m` bytes can be read. -/
theorem yields_cutEntries {s : IStream} {es : List Entry} {rest : Bytes} {m limit : ℕ}
    (hready : s.Ready ((encodeData es ++ rest).take m)) (hlimit : limit = s.pos + (encodeData es).length)
    (hfits : ∀ e ∈ es, Fits e) (current : Option Entry) :
    (TableIterator.advance ⟨some s, limit, current⟩).Yields (cutEntries m es) := by
  induction es generalizing s m current with
  | nil =>
    have hbelow : ¬ s.Below limit := by
      rw [hready.below, hlimit]
      simp [encodeData]
    simp [cutEntries, TableIterator.Yields, TableIterator.advance, hbelow]
  | cons e es ih =>
    have hfits' := hfits e List.mem_cons_self
    have hpos := entrySize_pos e
    rw [length_encodeData_cons] at hlimit
    rw [encodeData_cons, List.append_assoc, List.take_append, length_encodeEntry] at hready
    rw [cutEntries]
    split_ifs with hzero hwhole
    · rw [hzero] at hready
      have hmore : ¬ s.More := by
        apply Left.not_more
        simpa using hready.left
      simp [TableIterator.Yields, TableIterator.advance, hmore]
    · rw [List.take_of_length_le (by rwa [length_encodeEntry])] at hready
      obtain ⟨hdecode, hnext⟩ := decode_ready hready hfits'
      have hmore : s.More := hready.more (by simp [encodeEntry])
      have hbelow : s.Below limit := (hready.below limit).mpr (by omega)
      have hadvance : TableIterator.advance ⟨some s, limit, current⟩ =
          ⟨some (s.move (entrySize e)), limit, some e⟩ := by
        simp only [TableIterator.advance, hbelow, hmore, and_self, if_true, hdecode]
      rw [hadvance, TableIterator.Yields]
      refine ⟨rfl, ih hnext ?_ (fun f hf => hfits f (List.mem_cons_of_mem _ hf)) (some e)⟩
      rw [pos_move]
      omega
    · rw [Nat.sub_eq_zero_of_le (by omega), List.take_zero, List.append_nil] at hready
      obtain ⟨hdecode, hnext⟩ := decode_left hready.left
      rw [List.drop_of_length_le] at hnext
      · have hmore : s.More := hready.more (by simp [hzero, encodeEntry_ne_nil])
        have hbelow : s.Below limit := (hready.below limit).mpr (by omega)
        have hadvance : TableIterator.advance ⟨some s, limit, current⟩ =
            ⟨some (TableIterator.decode s).2, limit, some (decodeBytes ((encodeEntry e).take m))⟩ := by
          simp only [TableIterator.advance, hbelow, hmore, and_self, if_true, hdecode]
        rw [hadvance, TableIterator.Yields]
        refine ⟨rfl, ?_⟩
        simp [TableIterator.Yields, TableIterator.advance, hnext.not_more]
      · refine le_trans ?_ (le_decodedSize hfits' (by omega))
        rw [List.length_take]
        exact Nat.min_le_left _ _

theorem OpenTable.Holds.start_yields_cut {t : OpenTable} {es before rest : List Entry} (h : t.Holds es)
    (hes : es = before ++ rest) (n : ℕ) :
    (TableIterator.start (some (ofFile (t.file.take n))) t.indexOffset (encodeData before).length).Yields
      (cutEntries (n - (encodeData before).length) rest) := by
  obtain ⟨tail, hdata⟩ := h.data
  rw [hes, encodeData_append, List.append_assoc] at hdata
  have hlimit := h.limit
  have hoff : (encodeData before).length < offsetLimit := by
    rw [hdata, List.length_append] at hlimit
    omega
  have hdrop : (ofFile (t.file.take n)).data.drop (encodeData before).length =
      (encodeData rest ++ tail).take (n - (encodeData before).length) := by
    rw [ofFile, List.drop_take, hdata, List.drop_left]
  obtain ⟨hready, hpos, -⟩ := (ready_ofFile (t.file.take n)).seekg hoff hdrop
  have hstart : TableIterator.start (some (ofFile (t.file.take n))) t.indexOffset (encodeData before).length =
      TableIterator.advance ⟨some ((ofFile (t.file.take n)).seekg (encodeData before).length), t.indexOffset,
        none⟩ := by
    rw [TableIterator.start]
    split_ifs with hzero
    · rfl
    · rw [Nat.eq_zero_of_not_pos hzero]
      rfl
  rw [hstart]
  apply yields_cutEntries hready
  · rw [hpos, h.indexOffset, hes, encodeData_append, List.length_append]
  · exact fun e he => h.fits e (hes ▸ List.mem_append_right _ he)

/-! ### What survives -/

/-- All of the entries can be made out: no byte of them is missing, or the last one has begun and
the missing bytes are zero. -/
def Survives (m : ℕ) (es : List Entry) : Prop :=
  (encodeData es).length ≤ m ∨
    ((encodeData es.dropLast).length < m ∧ ∀ b ∈ (encodeData es).drop m, b = 0)

instance (m : ℕ) (es : List Entry) : Decidable (Survives m es) := inferInstanceAs (Decidable (_ ∨ _))

theorem survives_cons_iff {e : Entry} {es : List Entry} {m : ℕ} (h : entrySize e ≤ m) :
    Survives m (e :: es) ↔ Survives (m - entrySize e) es := by
  cases es with
  | nil => simp [Survives, encodeData, h]
  | cons f es =>
    have hdrop : (encodeData (e :: f :: es)).drop m = (encodeData (f :: es)).drop (m - entrySize e) := by
      rw [encodeData_cons, List.drop_append, length_encodeEntry,
        List.drop_of_length_le (by rwa [length_encodeEntry]), List.nil_append]
    simp only [Survives, hdrop, List.dropLast_cons_cons, length_encodeData_cons]
    exact or_congr (by omega) (and_congr_left fun _ => by omega)

theorem cutEntries_eq_iff {es : List Entry} (hfits : ∀ e ∈ es, Fits e) (m : ℕ) :
    cutEntries m es = es ↔ Survives m es := by
  induction es generalizing m with
  | nil => simp [cutEntries, Survives, encodeData]
  | cons e es ih =>
    have hpos := entrySize_pos e
    rw [cutEntries]
    split_ifs with hzero hwhole
    · simp [Survives, hzero, encodeData_cons, hpos.ne']
    · rw [survives_cons_iff hwhole, List.cons.injEq, and_iff_right rfl]
      exact ih (fun f hf => hfits f (List.mem_cons_of_mem _ hf)) _
    · have hcut := @decodeBytes_take_eq_iff e m (hfits e List.mem_cons_self) (Nat.pos_of_ne_zero hzero)
      cases es with
      | nil =>
        rw [List.cons.injEq, and_iff_left rfl, hcut, Survives]
        simp [encodeData, hwhole, Nat.pos_of_ne_zero hzero]
      | cons f es =>
        simp only [List.cons.injEq, List.nil_eq, reduceCtorEq, and_false, false_iff, Survives, List.dropLast_cons_cons,
          length_encodeData_cons]
        omega

theorem Survives.suffix {m : ℕ} {before rest : List Entry} (h : Survives m (before ++ rest)) (hne : rest ≠ []) :
    Survives (m - (encodeData before).length) rest := by
  induction before generalizing m with
  | nil => simpa [encodeData] using h
  | cons e before ih =>
    have hle : entrySize e ≤ m := by
      rcases h with hlen | ⟨hlt, -⟩
      · rw [List.cons_append, length_encodeData_cons] at hlen
        omega
      · rw [List.cons_append, List.dropLast_cons_of_ne_nil (by simp [hne]), length_encodeData_cons] at hlt
        omega
    rw [List.cons_append, survives_cons_iff hle] at h
    have hrest := ih h
    rwa [Nat.sub_sub, ← length_encodeData_cons] at hrest

/-! ### What is lost -/

/-- An entry that does not come out as it was written: it was not reached, or it is the one that
was cut and a byte that is not zero is missing of it. -/
def Lost (m : ℕ) (before : List Entry) (e : Entry) : Prop :=
  m ≤ (encodeData before).length ∨
    ((encodeData before).length < m ∧ m < (encodeData before).length + entrySize e ∧
      decodeBytes ((encodeEntry e).take (m - (encodeData before).length)) ≠ e)

theorem exists_lost {es : List Entry} {m : ℕ} (h : cutEntries m es ≠ es) :
    ∃ before e after, es = before ++ e :: after ∧ Lost m before e := by
  induction es generalizing m with
  | nil => exact absurd rfl h
  | cons e es ih =>
    rw [cutEntries] at h
    split_ifs at h with hzero hwhole
    · exact ⟨[], e, es, rfl, .inl (by omega)⟩
    · obtain ⟨before, f, after, hes, hlost⟩ := ih fun heq => h (by rw [heq])
      refine ⟨e :: before, f, after, by rw [hes]; rfl, ?_⟩
      rw [Lost, length_encodeData_cons, ← Nat.sub_sub]
      rcases hlost with hle | ⟨hlt, hlt', hne⟩
      · exact .inl (by omega)
      · exact .inr ⟨by omega, by omega, hne⟩
    · by_cases hcut : decodeBytes ((encodeEntry e).take m) = e
      · cases es with
        | nil => exact absurd (by rw [hcut]) h
        | cons f es =>
          refine ⟨[e], f, es, rfl, .inl ?_⟩
          simp [encodeData]
          omega
      · refine ⟨[], e, es, rfl, .inr ?_⟩
        simp [encodeData]
        exact ⟨by omega, by omega, hcut⟩

theorem cutEntries_append {es : List Entry} {m : ℕ} (h : (encodeData es).length ≤ m) (fs : List Entry) :
    cutEntries m (es ++ fs) = es ++ cutEntries (m - (encodeData es).length) fs := by
  induction es generalizing m with
  | nil => rfl
  | cons e es ih =>
    have hpos := entrySize_pos e
    rw [length_encodeData_cons] at h ⊢
    rw [List.cons_append, cutEntries, if_neg (by omega), if_pos (by omega), ih (by omega), Nat.sub_sub]
    rfl

theorem cutEntries_append_of_le {es : List Entry} {m : ℕ} (h : m ≤ (encodeData es).length) (fs : List Entry) :
    cutEntries m (es ++ fs) = cutEntries m es := by
  induction es generalizing m with
  | nil =>
    rw [Nat.le_zero.mp h, cutEntries_zero, cutEntries_zero]
  | cons e es ih =>
    rw [length_encodeData_cons] at h
    rw [List.cons_append, cutEntries, cutEntries, ih (by omega)]

theorem le_of_mem_cutEntries {es : List Entry} (hfits : ∀ e ∈ es, Fits e) {m : ℕ} {x : Entry}
    (h : x ∈ cutEntries m es) : ∃ e ∈ es, x.1 ≤ e.1 := by
  induction es generalizing m with
  | nil => cases h
  | cons e es ih =>
    rw [cutEntries] at h
    split_ifs at h with hzero hwhole
    · cases h
    · rcases List.mem_cons.mp h with rfl | h
      · exact ⟨x, List.mem_cons_self, le_refl _⟩
      · obtain ⟨f, hf, hle⟩ := ih (fun f hf => hfits f (List.mem_cons_of_mem _ hf)) h
        exact ⟨f, List.mem_cons_of_mem _ hf, hle⟩
    · rw [List.mem_singleton.mp h]
      exact ⟨e, List.mem_cons_self, decodeBytes_key_le (hfits e List.mem_cons_self) m⟩

/-- From the key of a lost entry on, an iterator hands out nothing, or one entry of the key with
another value. -/
theorem dropWhile_cutEntries_of_lost {before mid after : List Entry} {e : Entry} {m : ℕ}
    (hfits : ∀ f ∈ mid ++ e :: after, Fits f) (hmid : ∀ f ∈ mid, f.1 < e.1) (hlost : Lost m (before ++ mid) e) :
    let out := (cutEntries (m - (encodeData before).length) (mid ++ e :: after)).dropWhile (·.1 < e.1)
    out = [] ∨ ∃ v, out = [(e.1, v)] ∧ v ≠ e.2 := by
  have hlen : (encodeData (before ++ mid)).length = (encodeData before).length + (encodeData mid).length := by
    rw [encodeData_append, List.length_append]
  rw [Lost, hlen] at hlost
  rcases hlost with hle | ⟨hlt, hlt', hne⟩
  · left
    rw [cutEntries_append_of_le (by omega), List.dropWhile_eq_nil_iff]
    intro x hx
    obtain ⟨f, hf, hxf⟩ := le_of_mem_cutEntries (fun f hf => hfits f (List.mem_append_left _ hf)) hx
    exact decide_eq_true (hxf.trans_lt (hmid f hf))
  · rw [← Nat.sub_sub] at hne
    generalize hj : m - (encodeData before).length - (encodeData mid).length = j at hne
    have hdrop : mid.dropWhile (·.1 < e.1) = [] := by
      rw [List.dropWhile_eq_nil_iff]
      exact fun f hf => decide_eq_true (hmid f hf)
    have hcut : cutEntries j (e :: after) = [decodeBytes ((encodeEntry e).take j)] := by
      rw [cutEntries, if_neg (by omega), if_neg (by omega)]
    rw [cutEntries_append (by omega), hj, List.dropWhile_append, hdrop, hcut, List.isEmpty_nil, if_pos rfl]
    have hkey := decodeBytes_key_le (hfits e (by simp)) j
    generalize decodeBytes ((encodeEntry e).take j) = g at hne hkey
    rcases hkey.lt_or_eq with hlt | heq
    · left
      simp [hlt]
    · right
      refine ⟨g.2, ?_, fun hv => hne (Prod.ext heq hv)⟩
      simp only [List.dropWhile_cons, heq, lt_irrefl, decide_false, Bool.false_eq_true, if_false]
      rw [← heq]

end LsmTree.Table
