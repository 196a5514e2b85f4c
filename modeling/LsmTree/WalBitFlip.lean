import LsmTree.WalParse
import Mathlib.Algebra.BigOperators.Group.List.Basic

/-!
# Flipped bits

A shift of the CRC register loses no information, because the polynomial puts the bit that
falls out at the bottom back at the top. Two messages that differ in one byte therefore
leave different registers behind, however long they are. A flipped bit in the type, the
key, the value or the checksum of a record is noticed, and a record of one sector is
passed over alone; a flipped bit in its padding is never looked at.
-/

namespace LsmTree.Wal
open LittleEndian

/-! ### The checksum tells messages apart that differ in one byte -/

theorem neg_and_one (x : BitVec 32) : -(x &&& 1#32) = if x.getLsbD 0 then BitVec.allOnes 32 else 0#32 := by
  rw [BitVec.and_one_eq_setWidth_ofBool_getLsbD]
  cases x.getLsbD 0 <;> decide

theorem crcShift_eq (x : BitVec 32) :
    crcShift x = (x >>> 1) ^^^ (if x.getLsbD 0 then 0xEDB88320#32 else 0#32) := by
  rw [crcShift, neg_and_one]
  cases x.getLsbD 0 <;> simp

/-- The bit that falls out comes back at the top. -/
theorem getLsbD_crcShift (x : BitVec 32) : (crcShift x).getLsbD 31 = x.getLsbD 0 := by
  rw [crcShift_eq, BitVec.getLsbD_xor, BitVec.getLsbD_ushiftRight, BitVec.getLsbD_of_ge x (1 + 31) (by decide)]
  cases x.getLsbD 0 <;> decide

theorem crcShift_injective : Function.Injective crcShift := by
  intro x y h
  have hlow : x.getLsbD 0 = y.getLsbD 0 := by rw [← getLsbD_crcShift, h, getLsbD_crcShift]
  rw [crcShift_eq, crcShift_eq, hlow, BitVec.xor_left_inj] at h
  apply BitVec.eq_of_getLsbD_eq
  intro i hi
  cases i with
  | zero => exact hlow
  | succ i =>
    have hbit := congrArg (BitVec.getLsbD · i) h
    simpa only [BitVec.getLsbD_ushiftRight, Nat.add_comm] using hbit

theorem crcUpdate_injective (byte : UInt8) : Function.Injective (crcUpdate · byte) := by
  intro x y h
  exact (BitVec.xor_left_inj _).mp (crcShift_injective.iterate 8 h)

theorem crcUpdate_byte_injective (crc : BitVec 32) : Function.Injective (crcUpdate crc) := by
  intro a b h
  have hnat := congrArg BitVec.toNat ((BitVec.xor_right_inj _).mp (crcShift_injective.iterate 8 h))
  have ha := a.toNat_lt
  have hb := b.toNat_lt
  simp only [BitVec.toNat_ofNat] at hnat
  apply UInt8.toNat_inj.mp
  omega

theorem foldl_crcUpdate_injective (bs : Bytes) : Function.Injective (bs.foldl crcUpdate ·) := by
  induction bs with
  | nil => exact fun x y h => h
  | cons b bs ih => exact fun x y h => crcUpdate_injective b (ih h)

/-- The bytes the checksum runs over. -/
def message (type : UInt8) (key value : Bytes) : Bytes := type :: (key ++ value)

theorem crc32_eq_foldl (type : UInt8) (key value : Bytes) :
    crc32 type key value = (message type key value).foldl crcUpdate 0xFFFFFFFF#32 ^^^ 0xFFFFFFFF#32 := by
  simp [crc32, message, List.foldl_append]

theorem crc32_ne_of_byte {type type' : UInt8} {key value key' value' as bs : Bytes} {a b : UInt8} (hab : a ≠ b)
    (h : message type key value = as ++ a :: bs) (h' : message type' key' value' = as ++ b :: bs) :
    crc32 type key value ≠ crc32 type' key' value' := by
  intro heq
  rw [crc32_eq_foldl, crc32_eq_foldl, BitVec.xor_left_inj, h, h', List.foldl_append, List.foldl_append] at heq
  exact hab (crcUpdate_byte_injective _ (foldl_crcUpdate_injective bs heq))

/-! ### Flipping a bit -/

/-- The byte string with one bit of one byte inverted. -/
def flipBit (bs : Bytes) (pos : ℕ) (bit : Fin 8) : Bytes := bs.modify pos (· ^^^ (1 <<< UInt8.ofNat bit))

theorem flip_ne (b : UInt8) (bit : Fin 8) : b ^^^ (1 <<< UInt8.ofNat bit) ≠ b := by
  have hmask : ∀ bit : Fin 8, (1 : UInt8) <<< UInt8.ofNat bit ≠ 0 := by decide
  intro h
  have hzero := congrArg (b ^^^ ·) h
  simp only [← UInt8.xor_assoc, UInt8.xor_self, UInt8.zero_xor] at hzero
  exact hmask bit hzero

@[simp] theorem length_flipBit (bs : Bytes) (pos : ℕ) (bit : Fin 8) : (flipBit bs pos bit).length = bs.length := by
  simp [flipBit]

theorem exists_split {bs : Bytes} {pos : ℕ} (h : pos < bs.length) :
    ∃ as b cs, bs = as ++ b :: cs ∧ as.length = pos := by
  refine ⟨bs.take pos, bs[pos], bs.drop (pos + 1), ?_, ?_⟩
  · rw [← List.drop_eq_getElem_cons h, List.take_append_drop]
  · rw [List.length_take]
    omega

theorem flipBit_append_right (as cs : Bytes) (pos : ℕ) (bit : Fin 8) :
    flipBit (as ++ cs) (as.length + pos) bit = as ++ flipBit cs pos bit :=
  List.modifyTailIdx_add _ pos as cs

theorem flipBit_split {as : Bytes} {pos : ℕ} (h : as.length = pos) (b : UInt8) (cs : Bytes) (bit : Fin 8) :
    flipBit (as ++ b :: cs) pos bit = as ++ (b ^^^ (1 <<< UInt8.ofNat bit)) :: cs := by
  rw [← h]
  exact flipBit_append_right as (b :: cs) 0 bit

theorem flipBit_append_left {as : Bytes} {pos : ℕ} (h : pos < as.length) (cs : Bytes) (bit : Fin 8) :
    flipBit (as ++ cs) pos bit = flipBit as pos bit ++ cs := by
  obtain ⟨as, b, bs, rfl, hlen⟩ := exists_split h
  rw [List.append_assoc, List.cons_append, flipBit_split hlen, flipBit_split hlen, List.append_assoc, List.cons_append]

/-- A flipped bit in a string is a flipped bit of one of its bytes. -/
theorem exists_flipBit (bs : Bytes) {pos : ℕ} (h : pos < bs.length) (bit : Fin 8) :
    ∃ as b b' cs, bs = as ++ b :: cs ∧ flipBit bs pos bit = as ++ b' :: cs ∧ b ≠ b' := by
  obtain ⟨as, b, cs, rfl, hlen⟩ := exists_split h
  exact ⟨as, b, _, cs, rfl, flipBit_split hlen b cs bit, (flip_ne b bit).symm⟩

/-! ### One record -/

/-- The reader rejects fields that do not go with the stored checksum. -/
theorem readRecord_rejects {type : UInt8} {klen vlen key value stored : Bytes} (rest : Bytes)
    (hklen : klen.length = 4) (hvlen : vlen.length = 4) (hstored : stored.length = 4)
    (hk : leNat klen = key.length) (hv : leNat vlen = value.length)
    (hcrc : leNat stored ≠ (crc32 type key value).toNat) :
    ∃ s, readRecord (type :: (klen ++ (vlen ++ (key ++ (value ++ (stored ++ rest)))))) = .error s := by
  by_cases htype : type = 0
  · exact ⟨.padding, by simp [readRecord, htype]⟩
  · refine ⟨.crcMismatch, ?_⟩
    rw [readRecord_fields rest htype hklen hvlen hstored hk hv, if_pos hcrc]

namespace Entry
variable {e : Entry}

/-- The stored checksum. -/
def storedCrc (e : Entry) : Bytes := leBytes 4 (crc32 e.type.byte e.key e.value).toNat

/-- The bytes of a record in the log, from the type byte on. -/
theorem encode_append (e : Entry) (rest : Bytes) :
    e.encode ++ rest = e.type.byte :: (leBytes 4 e.key.length ++ (leBytes 4 e.value.length ++
      (e.key ++ (e.value ++ (e.storedCrc ++ (zeros (e.alignedSize - e.size) ++ rest)))))) := by
  simp [Entry.encode, Entry.body, storedCrc]

theorem leNat_storedCrc (e : Entry) : leNat e.storedCrc = (crc32 e.type.byte e.key e.value).toNat :=
  leNat_leBytes (by simpa using (crc32 e.type.byte e.key e.value).isLt)

theorem leNat_keyLength (h : e.Fits) : leNat (leBytes 4 e.key.length) = e.key.length := by
  have := h.1
  simp only [maxFieldBytes] at this
  exact leNat_leBytes (by omega)

theorem leNat_valueLength (h : e.Fits) : leNat (leBytes 4 e.value.length) = e.value.length := by
  have := h.2
  simp only [maxFieldBytes] at this
  exact leNat_leBytes (by omega)

/-- The reader rejects another type byte, or other payload bytes that differ in one place, with the
checksum of the record. -/
theorem rejects_message (h : e.Fits) (type : UInt8) (key value : Bytes) (hkey : key.length = e.key.length)
    (hvalue : value.length = e.value.length) (as bs : Bytes) {a b : UInt8} (hab : a ≠ b)
    (hm : message e.type.byte e.key e.value = as ++ a :: bs) (hm' : message type key value = as ++ b :: bs)
    (rest : Bytes) :
    ∃ s, readRecord (type :: (leBytes 4 e.key.length ++ (leBytes 4 e.value.length ++
      (key ++ (value ++ (e.storedCrc ++ rest)))))) = .error s := by
  refine readRecord_rejects rest (length_leBytes 4 _) (length_leBytes 4 _) (length_leBytes 4 _) ?_ ?_ ?_
  · rw [leNat_keyLength h, hkey]
  · rw [leNat_valueLength h, hvalue]
  · rw [leNat_storedCrc]
    intro heq
    exact crc32_ne_of_byte hab hm hm' (BitVec.eq_of_toNat_eq heq)

theorem rejects_flipped_type (h : e.Fits) (bit : Fin 8) (rest : Bytes) :
    ∃ s, readRecord (flipBit (e.encode ++ rest) 0 bit) = .error s := by
  rw [encode_append]
  exact rejects_message h _ e.key e.value rfl rfl [] _ (flip_ne e.type.byte bit).symm rfl rfl _

theorem rejects_flipped_payload (h : e.Fits) {i : ℕ} (hi : i < e.key.length + e.value.length) (bit : Fin 8)
    (rest : Bytes) : ∃ s, readRecord (flipBit (e.encode ++ rest) (9 + i) bit) = .error s := by
  have hi' : i < (e.key ++ e.value).length := by rwa [List.length_append]
  obtain ⟨as, b, b', cs, hsplit, hflip, hne⟩ := exists_flipBit (e.key ++ e.value) hi' bit
  have hbytes : e.encode ++ rest = (e.type.byte :: (leBytes 4 e.key.length ++ leBytes 4 e.value.length)) ++
      ((e.key ++ e.value) ++ (e.storedCrc ++ (zeros (e.alignedSize - e.size) ++ rest))) := by
    rw [encode_append]
    simp
  have hlen : (e.type.byte :: (leBytes 4 e.key.length ++ leBytes 4 e.value.length)).length = 9 := by simp
  -- The damaged payload is cut where the lengths, which are intact, say.
  have hcut : flipBit (e.key ++ e.value) i bit = (flipBit (e.key ++ e.value) i bit).take e.key.length ++
      (flipBit (e.key ++ e.value) i bit).drop e.key.length := (List.take_append_drop _ _).symm
  have hrejects := rejects_message h e.type.byte ((flipBit (e.key ++ e.value) i bit).take e.key.length)
    ((flipBit (e.key ++ e.value) i bit).drop e.key.length) (by simp) (by simp) (e.type.byte :: as) cs hne
    (by rw [message, hsplit]; rfl) (by rw [message, ← hcut, hflip]; rfl) (zeros (e.alignedSize - e.size) ++ rest)
  rw [hbytes, ← hlen, flipBit_append_right, flipBit_append_left hi']
  rw [← List.append_assoc (List.take _ _), ← hcut] at hrejects
  simpa using hrejects

theorem rejects_flipped_crc (h : e.Fits) {i : ℕ} (hi : i < 4) (bit : Fin 8) (rest : Bytes) :
    ∃ s, readRecord (flipBit (e.encode ++ rest) (9 + e.key.length + e.value.length + i) bit) = .error s := by
  have hi' : i < e.storedCrc.length := by simpa [storedCrc] using hi
  obtain ⟨as, b, b', cs, hsplit, hflip, hne⟩ := exists_flipBit e.storedCrc hi' bit
  have hbytes : e.encode ++ rest =
      (e.type.byte :: (leBytes 4 e.key.length ++ (leBytes 4 e.value.length ++ (e.key ++ e.value)))) ++
      (e.storedCrc ++ (zeros (e.alignedSize - e.size) ++ rest)) := by
    rw [encode_append]
    simp
  have hlen : (e.type.byte :: (leBytes 4 e.key.length ++ (leBytes 4 e.value.length ++
      (e.key ++ e.value)))).length = 9 + e.key.length + e.value.length := by
    simp only [List.length_cons, List.length_append, length_leBytes]
    omega
  have hflipped : (flipBit e.storedCrc i bit).length = 4 := by simp [storedCrc]
  have hcrc : leNat (flipBit e.storedCrc i bit) ≠ (crc32 e.type.byte e.key e.value).toNat := by
    intro heq
    have hsame : flipBit e.storedCrc i bit = e.storedCrc := eq_leBytes_of_leNat hflipped heq
    rw [hflip, hsplit] at hsame
    have := List.append_cancel_left hsame
    exact hne (List.cons.inj this).1.symm
  have hrejects := readRecord_rejects (zeros (e.alignedSize - e.size) ++ rest) (length_leBytes 4 _)
    (length_leBytes 4 _) hflipped (leNat_keyLength h) (leNat_valueLength h) hcrc
  rw [hbytes, ← hlen, flipBit_append_right, flipBit_append_left hi']
  simpa using hrejects

/-- A flipped bit outside the length fields of a record is noticed. -/
theorem rejects_flipped (h : e.Fits) {pos : ℕ} (hpos : pos < e.size) (hlengths : ¬ (1 ≤ pos ∧ pos < 9))
    (bit : Fin 8) (rest : Bytes) : ∃ s, readRecord (flipBit (e.encode ++ rest) pos bit) = .error s := by
  unfold Entry.size at hpos
  by_cases htype : pos = 0
  · rw [htype]
    exact rejects_flipped_type h bit rest
  by_cases hpayload : pos < 9 + e.key.length + e.value.length
  · obtain ⟨i, rfl⟩ := Nat.exists_eq_add_of_le (show 9 ≤ pos by omega)
    exact rejects_flipped_payload h (by omega) bit rest
  · obtain ⟨i, rfl⟩ := Nat.exists_eq_add_of_le (show 9 + e.key.length + e.value.length ≤ pos by omega)
    exact rejects_flipped_crc h (by omega) bit rest

theorem alignedSize_of_sector (h : e.size ≤ 512) : e.alignedSize = 512 := by
  have := e.size_pos
  unfold Entry.alignedSize align
  omega

end Entry

/-! ### The log -/

section Log
variable {es : List Entry} {j : ℕ} {e : Entry}

/-- A flipped bit of a record, seen from where the record begins. -/
theorem flipBit_encodeLog (hj : es[j]? = some e) {pos : ℕ} (hpos : pos < e.alignedSize) (bit : Fin 8) :
    flipBit (encodeLog es) (startOffset es j + pos) bit =
      encodeLog (es.take j) ++ (flipBit e.encode pos bit ++ encodeLog (es.drop (j + 1))) := by
  obtain ⟨hlt, rfl⟩ := List.getElem?_eq_some_iff.mp hj
  have hsplit : encodeLog es = encodeLog (es.take j) ++ (es[j].encode ++ encodeLog (es.drop (j + 1))) := by
    rw [← encodeLog_cons, ← List.drop_eq_getElem_cons hlt]
    simp only [encodeLog, ← List.flatMap_append, List.take_append_drop]
  have hstart : startOffset es j = (encodeLog (es.take j)).length := by rw [length_encodeLog, startOffset]
  rw [hsplit, hstart, flipBit_append_right, flipBit_append_left (by rwa [Entry.length_encode])]

theorem scan_flipped_record (hfits : ∀ f ∈ es, f.Fits) (hj : es[j]? = some e) (hsector : e.size ≤ 512) {pos : ℕ}
    (hpos : pos < e.size) (hlengths : ¬ (1 ≤ pos ∧ pos < 9)) (bit : Fin 8) :
    scan (flipBit (encodeLog es) (startOffset es j + pos) bit) = es.eraseIdx j := by
  have haligned := e.alignedSize_of_sector hsector
  have hpos' : pos < e.alignedSize := by omega
  have hdrop : ∀ f ∈ es.drop (j + 1), f.Fits := fun f hf => hfits f (List.mem_of_mem_drop hf)
  obtain ⟨s, hread⟩ := Entry.rejects_flipped (hfits e (List.mem_of_getElem? hj)) hpos hlengths bit
    (encodeLog (es.drop (j + 1)))
  rw [flipBit_append_left (by rwa [Entry.length_encode])] at hread
  have hlen : (flipBit e.encode pos bit).length = 512 := by rw [length_flipBit, Entry.length_encode, haligned]
  rw [flipBit_encodeLog hj hpos', scan_encodeLog_append (fun f hf => hfits f (List.mem_of_mem_take hf)),
    scan_of_error hread, List.drop_left' hlen, scan_encodeLog hdrop, List.eraseIdx_eq_take_drop_succ]

theorem scan_flipped_padding (hfits : ∀ f ∈ es, f.Fits) (hj : es[j]? = some e) {pos : ℕ} (hpos : e.size ≤ pos)
    (hend : pos < e.alignedSize) (bit : Fin 8) :
    scan (flipBit (encodeLog es) (startOffset es j + pos) bit) = es := by
  have hdrop : ∀ f ∈ es.drop (j + 1), f.Fits := fun f hf => hfits f (List.mem_of_mem_drop hf)
  obtain ⟨i, hi⟩ := Nat.exists_eq_add_of_le hpos
  have hflip : flipBit e.encode pos bit = e.body ++ flipBit (zeros (e.alignedSize - e.size)) i bit := by
    rw [hi, Entry.encode, ← e.length_body, flipBit_append_right]
  have hread : readRecord (flipBit e.encode pos bit ++ encodeLog (es.drop (j + 1))) = .ok e := by
    rw [hflip, List.append_assoc]
    exact readRecord_body (hfits e (List.mem_of_getElem? hj)) _
  have hlen : (flipBit e.encode pos bit).length = e.alignedSize := by rw [length_flipBit, Entry.length_encode]
  obtain ⟨hlt, heq⟩ := List.getElem?_eq_some_iff.mp hj
  rw [flipBit_encodeLog hj hend, scan_encodeLog_append (fun f hf => hfits f (List.mem_of_mem_take hf)),
    scan_of_ok hread, List.drop_left' hlen, scan_encodeLog hdrop, ← heq, ← List.drop_eq_getElem_cons hlt,
    List.take_append_drop]

/-- In a log within the limit, a flipped bit in the type, the key, the value or the checksum of a
record of one sector costs this record and no other; one in its padding costs nothing. -/
theorem recover_flipBit (hfits : ∀ f ∈ es, f.Fits) (hmax : (encodeLog es).length ≤ maxRecoveryBytes)
    (hj : es[j]? = some e) (hsector : e.size ≤ 512) (bit : Fin 8) :
    recover (encodeLog es) = .ok es ∧
    (∀ pos < e.size, ¬ (1 ≤ pos ∧ pos < 9) →
      recover (flipBit (encodeLog es) (startOffset es j + pos) bit) = .ok (es.eraseIdx j)) ∧
    ∀ pos, e.size ≤ pos → pos < 512 →
      recover (flipBit (encodeLog es) (startOffset es j + pos) bit) = .ok es := by
  have hflipped : ∀ pos, (flipBit (encodeLog es) pos bit).length ≤ maxRecoveryBytes := by
    intro pos
    rwa [length_flipBit]
  refine ⟨?_, ?_, ?_⟩
  · rw [recover_of_le hmax, scan_encodeLog hfits]
  · intro pos hpos hlengths
    rw [recover_of_le (hflipped _), scan_flipped_record hfits hj hsector hpos hlengths bit]
  · intro pos hpos hend
    rw [recover_of_le (hflipped _), scan_flipped_padding hfits hj hpos (by rwa [e.alignedSize_of_sector hsector]) bit]

end Log

def threeRecords : List Entry := [⟨.put, [1], [5]⟩, ⟨.put, [2], [6]⟩, ⟨.del, [1], []⟩]

/-- A bit of the value in the middle record, and one of its padding. -/
theorem recover_flipBit_threeRecords :
    recover (flipBit (encodeLog threeRecords) 522 3) = .ok [⟨.put, [1], [5]⟩, ⟨.del, [1], []⟩] ∧
      recover (flipBit (encodeLog threeRecords) 612 3) = .ok threeRecords := by
  have hmax : (encodeLog threeRecords).length ≤ maxRecoveryBytes := by decide +kernel
  obtain ⟨-, hrecord, hpadding⟩ := @recover_flipBit threeRecords 1 _ (by decide) hmax rfl (by decide) 3
  exact ⟨hrecord 10 (by decide) (by decide), hpadding 100 (by decide) (by decide)⟩

/-- `put` of an empty value under the empty key, one sector in the log. -/
def emptyPut : Entry := ⟨.put, [], []⟩

/-- One sector more than the reader accepts, and nothing is recovered, whatever is flipped. -/
theorem recover_refuses_long_log :
    ¬ ∀ (es : List Entry) (j : ℕ) (e : Entry) (bit : Fin 8), (∀ f ∈ es, f.Fits) → es[j]? = some e → e.size ≤ 512 →
      ∀ pos < e.size, ¬ (1 ≤ pos ∧ pos < 9) →
        recover (flipBit (encodeLog es) (startOffset es j + pos) bit) = .ok (es.eraseIdx j) := by
  intro h
  have hrecover := h (List.replicate 2097153 emptyPut) 0 emptyPut 0
    (fun f hf => List.eq_of_mem_replicate hf ▸ (by decide))
    (by rw [List.getElem?_replicate, if_pos (by decide)]) (by decide) 0 (by decide) (by decide)
  have hlen := (recover_ok_iff.mp hrecover).1
  rw [length_flipBit, length_encodeLog, List.map_replicate, List.sum_replicate] at hlen
  have hsector : emptyPut.alignedSize = 512 := rfl
  simp only [hsector, Nat.nsmul_eq_mul, maxRecoveryBytes] at hlen
  omega

end LsmTree.Wal
