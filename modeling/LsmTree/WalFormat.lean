import LsmTree.LittleEndian
import Mathlib.Data.List.Infix

/-!
# The on-disk format of the write-ahead log and its reader

`WAL::writeEntry` lays a record out as type byte, two 32-bit lengths, key, value
and a CRC-32 over type, key and value, and pads it with zeros to a multiple of
512 bytes. `WAL::recover` reads the whole file and walks it from 512-byte
boundary to 512-byte boundary. Every way in which the reader rejects what it
finds at a boundary is kept apart here; all of them resume at the next boundary.
-/

namespace LsmTree.Wal
open LittleEndian

/-- `WAL::Entry::Type`. -/
inductive EntryType where
  | put | del
  deriving DecidableEq, Repr

/-- The byte stored for each type. -/
def EntryType.byte : EntryType → UInt8
  | .put => 0x01
  | .del => 0x02

/-- `WAL::Entry`. -/
structure Entry where
  type : EntryType
  key : Bytes
  value : Bytes
  deriving DecidableEq, Repr

/-- `MAX_RECOVERY_BYTES`: the largest log the reader accepts, 1 GiB. -/
def maxRecoveryBytes : ℕ := 2 ^ 30

/-- `kMaxFieldBytes`: the largest length a 32-bit field can record. -/
def maxFieldBytes : ℕ := 2 ^ 32 - 1

/-! ### Checksum -/

/-- One shift of the bitwise CRC loop. -/
def crcShift (crc : BitVec 32) : BitVec 32 :=
  (crc >>> 1) ^^^ (0xEDB88320#32 &&& -(crc &&& 1#32))

/-- The `update` lambda of `WAL::crc32`. -/
def crcUpdate (crc : BitVec 32) (byte : UInt8) : BitVec 32 :=
  crcShift^[8] (crc ^^^ BitVec.ofNat 32 byte.toNat)

/-- `WAL::crc32`. -/
def crc32 (type : UInt8) (key value : Bytes) : BitVec 32 :=
  value.foldl crcUpdate (key.foldl crcUpdate (crcUpdate 0xFFFFFFFF#32 type)) ^^^ 0xFFFFFFFF#32

/-! ### Writing -/

/-- Round up to a multiple of 512, `(size + 511) & ~511`. -/
def align (size : ℕ) : ℕ := (size + 511) / 512 * 512

/-- Bytes of a record before padding. -/
def Entry.size (e : Entry) : ℕ := 1 + 4 + 4 + e.key.length + e.value.length + 4

/-- Bytes a record occupies in the log. -/
def Entry.alignedSize (e : Entry) : ℕ := align e.size

/-- The length check at the head of `WAL::writeEntry`. -/
def Entry.Fits (e : Entry) : Prop :=
  e.key.length ≤ maxFieldBytes ∧ e.value.length ≤ maxFieldBytes

instance (e : Entry) : Decidable e.Fits := inferInstanceAs (Decidable (_ ∧ _))

/-- The record proper, without its padding. -/
def Entry.body (e : Entry) : Bytes :=
  e.type.byte :: (leBytes 4 e.key.length ++ (leBytes 4 e.value.length ++
    (e.key ++ (e.value ++ leBytes 4 (crc32 e.type.byte e.key e.value).toNat))))

/-- `n` zero bytes, as left by `memset` or by a hole in a file. -/
def zeros (n : ℕ) : Bytes := List.replicate n 0

/-- The buffer handed to the kernel for one record. -/
def Entry.encode (e : Entry) : Bytes := e.body ++ zeros (e.alignedSize - e.size)

/-- Consecutive records, each at the offset `writeEntry` assigns to it. -/
def encodeLog (es : List Entry) : Bytes := es.flatMap Entry.encode

/-- The offset of record `i` of a log that starts at offset zero. -/
def startOffset (es : List Entry) (i : ℕ) : ℕ := ((es.take i).map Entry.alignedSize).sum

/-! ### Reading -/

/-- Why the reader rejects the bytes at a boundary. -/
inductive Skip where
  | padding | truncatedHeader | lengthPastEnd | crcMismatch | unrecognisedType
  deriving DecidableEq, Repr

/-- Why `WAL::recover` gives up on the whole log. -/
inductive RecoverError where
  | tooLarge (bytes : ℕ)
  deriving DecidableEq, Repr

/-- The body of the parse loop, on the bytes from `entry_start` to the end of the
buffer. All positions are relative to `entry_start`. -/
def readRecord : Bytes → Except Skip Entry
  | [] => .error .padding
  | type :: rest =>
    if type = 0 then .error .padding
    else if rest.length < 8 then .error .truncatedHeader
    else
      let klen := leNat (rest.take 4)
      let vlen := leNat ((rest.drop 4).take 4)
      let payload := rest.drop 8
      if payload.length < klen + vlen + 4 then .error .lengthPastEnd
      else
        let key := payload.take klen
        let value := (payload.drop klen).take vlen
        let stored := leNat ((payload.drop (klen + vlen)).take 4)
        if stored ≠ (crc32 type key value).toNat then .error .crcMismatch
        else if type = 0x01 then .ok ⟨.put, key, value⟩
        else if type = 0x02 then .ok ⟨.del, key, value⟩
        else .error .unrecognisedType

/-- The parse loop of `WAL::recover` from `offset` on. `entry_size` is computed in
32 bits, as in the source. The loop moves forward in every iteration, so a fuel
of one more than the length of the buffer is never used up. -/
def recoverLoop (buf : Bytes) : ℕ → ℕ → List Entry
  | 0, _ => []
  | fuel + 1, offset =>
    if offset < buf.length then
      match readRecord (buf.drop offset) with
      | .error _ => recoverLoop buf fuel ((offset / 512 + 1) * 512)
      | .ok e => e :: recoverLoop buf fuel (offset + align (e.size % 2 ^ 32))
    else []

/-- `WAL::recover` on the bytes of the log file. -/
def recover (file : Bytes) : Except RecoverError (List Entry) :=
  if maxRecoveryBytes < file.length then .error (.tooLarge file.length)
  else .ok (recoverLoop file (file.length + 1) 0)

/-! ### Sizes -/

@[simp] theorem length_zeros (n : ℕ) : (zeros n).length = n := by simp [zeros]

theorem le_align (n : ℕ) : n ≤ align n := by
  unfold align
  omega

theorem align_dvd (n : ℕ) : 512 ∣ align n := Dvd.intro_left _ rfl

theorem Entry.size_pos (e : Entry) : 13 ≤ e.size := by
  unfold Entry.size
  omega

theorem Entry.size_le_alignedSize (e : Entry) : e.size ≤ e.alignedSize := le_align _

theorem Entry.alignedSize_pos (e : Entry) : 512 ≤ e.alignedSize := by
  have h := e.size_pos
  unfold Entry.alignedSize align
  omega

theorem Entry.alignedSize_dvd (e : Entry) : 512 ∣ e.alignedSize := align_dvd _

@[simp] theorem Entry.length_body (e : Entry) : e.body.length = e.size := by
  simp only [Entry.body, Entry.size, List.length_cons, List.length_append, length_leBytes]
  omega

@[simp] theorem Entry.length_encode (e : Entry) : e.encode.length = e.alignedSize := by
  have h := e.size_le_alignedSize
  simp only [Entry.encode, List.length_append, Entry.length_body, length_zeros]
  omega

@[simp] theorem encodeLog_nil : encodeLog [] = [] := rfl

@[simp] theorem encodeLog_cons (e : Entry) (es : List Entry) :
    encodeLog (e :: es) = e.encode ++ encodeLog es := rfl

@[simp] theorem startOffset_zero (es : List Entry) : startOffset es 0 = 0 := rfl

@[simp] theorem startOffset_cons_succ (e : Entry) (es : List Entry) (i : ℕ) :
    startOffset (e :: es) (i + 1) = e.alignedSize + startOffset es i := by
  simp [startOffset]

theorem length_encodeLog (es : List Entry) :
    (encodeLog es).length = (es.map Entry.alignedSize).sum := by
  induction es with
  | nil => rfl
  | cons e es ih => simp [ih]

theorem EntryType.byte_ne_zero (t : EntryType) : t.byte ≠ 0 := by cases t <;> decide

/-! ### One record read back -/

/-- The reader on a buffer already split into its fields. -/
theorem readRecord_fields {type : UInt8} {klen vlen key value stored : Bytes} (rest : Bytes)
    (htype : type ≠ 0) (hklen : klen.length = 4) (hvlen : vlen.length = 4)
    (hstored : stored.length = 4) (hk : leNat klen = key.length) (hv : leNat vlen = value.length) :
    readRecord (type :: (klen ++ (vlen ++ (key ++ (value ++ (stored ++ rest)))))) =
      if leNat stored ≠ (crc32 type key value).toNat then .error .crcMismatch
      else if type = 0x01 then .ok ⟨.put, key, value⟩
      else if type = 0x02 then .ok ⟨.del, key, value⟩
      else .error .unrecognisedType := by
  have hhead : ¬ (klen ++ (vlen ++ (key ++ (value ++ (stored ++ rest))))).length < 8 := by
    simp only [List.length_append]
    omega
  have hbody : ¬ (key ++ (value ++ (stored ++ rest))).length < key.length + value.length + 4 := by
    simp only [List.length_append]
    omega
  have hpayload : (klen ++ (vlen ++ (key ++ (value ++ (stored ++ rest))))).drop 8 =
      key ++ (value ++ (stored ++ rest)) := by
    simp [List.drop_append, hklen, hvlen]
  have hcrc : ((key ++ (value ++ (stored ++ rest))).drop (key.length + value.length)).take 4 =
      stored := by
    simp [List.drop_append, List.take_append, hstored]
  rw [readRecord, if_neg htype, if_neg hhead]
  simp only [hpayload, List.take_left' hklen, List.drop_left' hklen, List.take_left' hvlen, hk, hv,
    hcrc, List.take_left, List.drop_left, if_neg hbody]

/-- The reader accepts a complete record whatever follows it. -/
theorem readRecord_body {e : Entry} (h : e.Fits) (rest : Bytes) :
    readRecord (e.body ++ rest) = .ok e := by
  have hk : leNat (leBytes 4 e.key.length) = e.key.length := by
    apply leNat_leBytes
    have := h.1
    simp only [maxFieldBytes] at this
    omega
  have hv : leNat (leBytes 4 e.value.length) = e.value.length := by
    apply leNat_leBytes
    have := h.2
    simp only [maxFieldBytes] at this
    omega
  have hc : leNat (leBytes 4 (crc32 e.type.byte e.key e.value).toNat) =
      (crc32 e.type.byte e.key e.value).toNat :=
    leNat_leBytes (by simpa using (crc32 e.type.byte e.key e.value).isLt)
  have hread := readRecord_fields rest e.type.byte_ne_zero (length_leBytes 4 _)
    (length_leBytes 4 _) (length_leBytes 4 (crc32 e.type.byte e.key e.value).toNat) hk hv
  simp only [Entry.body, List.cons_append, List.append_assoc]
  rw [hread, hc, if_neg (not_not_intro rfl)]
  obtain ⟨type, key, value⟩ := e
  cases type <;> rfl

/-- Whatever the reader accepts is a complete record of the writer. -/
theorem body_of_readRecord {bs : Bytes} {e : Entry} (h : readRecord bs = .ok e) :
    e.Fits ∧ e.body <+: bs := by
  cases bs with
  | nil => simp [readRecord] at h
  | cons type rest =>
    by_cases htype : type = 0
    · simp [readRecord, htype] at h
    by_cases hhead : rest.length < 8
    · simp [readRecord, htype, hhead] at h
    by_cases hbody : (rest.drop 8).length < leNat (rest.take 4) + leNat ((rest.drop 4).take 4) + 4
    · rw [readRecord, if_neg htype, if_neg hhead] at h
      simp only [if_pos hbody] at h
      cases h
    -- The fields are cut out of the buffer and put back together.
    let klen := rest.take 4
    let vlen := (rest.drop 4).take 4
    let key := (rest.drop 8).take (leNat klen)
    let value := ((rest.drop 8).drop (leNat klen)).take (leNat vlen)
    let stored := ((rest.drop 8).drop (leNat klen + leNat vlen)).take 4
    let tail := ((rest.drop 8).drop (leNat klen + leNat vlen)).drop 4
    have hklen : klen.length = 4 := by simp only [klen, List.length_take]; omega
    have hvlen : vlen.length = 4 := by simp only [vlen, List.length_take, List.length_drop]; omega
    have hsum : leNat klen + leNat vlen + 4 ≤ (rest.drop 8).length := Nat.le_of_not_lt hbody
    have hk : leNat klen = key.length := by simp only [key, List.length_take]; omega
    have hv : leNat vlen = value.length := by
      simp only [value, List.length_take, List.length_drop] at hsum ⊢
      omega
    have hstored : stored.length = 4 := by
      simp only [stored, List.length_take, List.length_drop] at hsum ⊢
      omega
    have hsplit : rest = klen ++ (vlen ++ (key ++ (value ++ (stored ++ tail)))) := by
      have hst : stored ++ tail = (rest.drop 8).drop (leNat klen + leNat vlen) :=
        List.take_append_drop 4 _
      have hval : value ++ (stored ++ tail) = (rest.drop 8).drop (leNat klen) := by
        rw [hst, ← List.drop_drop]
        exact List.take_append_drop _ _
      have hkey : key ++ (value ++ (stored ++ tail)) = rest.drop 8 := by
        rw [hval]
        exact List.take_append_drop _ _
      have hvl : vlen ++ (key ++ (value ++ (stored ++ tail))) = rest.drop 4 := by
        rw [hkey, show rest.drop 8 = (rest.drop 4).drop 4 by rw [List.drop_drop]]
        exact List.take_append_drop _ _
      rw [hvl]
      exact (List.take_append_drop 4 rest).symm
    have hread := readRecord_fields tail htype hklen hvlen hstored hk hv
    rw [← hsplit, h] at hread
    have hkb := leNat_lt klen
    have hvb := leNat_lt vlen
    rw [hklen] at hkb
    rw [hvlen] at hvb
    split_ifs at hread with hcrc hput hdel
    all_goals cases hread
    all_goals
      refine ⟨⟨by simp only [maxFieldBytes]; omega, by simp only [maxFieldBytes]; omega⟩, tail, ?_⟩
      rw [not_ne_iff] at hcrc
      rw [hsplit]
      simp only [Entry.body, EntryType.byte, List.cons_append, List.append_assoc, ← hk, ← hv]
    · rw [← eq_leBytes_of_leNat hklen rfl, ← eq_leBytes_of_leNat hvlen rfl, ← hput,
        ← eq_leBytes_of_leNat hstored hcrc]
    · rw [← eq_leBytes_of_leNat hklen rfl, ← eq_leBytes_of_leNat hvlen rfl, ← hdel,
        ← eq_leBytes_of_leNat hstored hcrc]

/-- The reader accepts exactly the complete records of the writer. -/
theorem readRecord_ok_iff {bs : Bytes} {e : Entry} :
    readRecord bs = .ok e ↔ e.Fits ∧ e.body <+: bs := by
  constructor
  · exact body_of_readRecord
  · rintro ⟨hfits, rest, rfl⟩
    exact readRecord_body hfits rest

end LsmTree.Wal
