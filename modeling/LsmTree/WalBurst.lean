import LsmTree.WalBitFlip
import LsmTree.WalLengths

/-!
# Damage within four bytes

The CRC register is 32 bits wide, and its shift is linear in exclusive or. A bit that is put
into the register at place k comes to the bottom after k shifts without having met the
polynomial; four bytes that are fed one after the other act thus as one word that is added
to the register before the 32 shifts. The shift is a bijection, so four bytes in a row can
be read off from the register before and after them, and no later byte hides a difference.
-/

namespace LsmTree.Wal
open LittleEndian

/-! ### The register is linear -/

theorem crcShift_xor (x y : BitVec 32) : crcShift (x ^^^ y) = crcShift x ^^^ crcShift y := by
  have hpoly : ∀ a b : Bool, (if (a ^^ b) = true then 0xEDB88320#32 else 0#32) =
      (if a = true then 0xEDB88320#32 else 0#32) ^^^ (if b = true then 0xEDB88320#32 else 0#32) := by decide
  rw [crcShift_eq, crcShift_eq, crcShift_eq, BitVec.getLsbD_xor, hpoly, BitVec.ushiftRight_xor_distrib]
  ac_rfl

theorem iterate_crcShift_xor (k : ℕ) (x y : BitVec 32) :
    crcShift^[k] (x ^^^ y) = crcShift^[k] x ^^^ crcShift^[k] y := by
  induction k generalizing x y with
  | zero => rfl
  | succ k ih => rw [Function.iterate_succ_apply, crcShift_xor, ih]; rfl

/-- A word whose lowest bit is clear only moves down. -/
theorem crcShift_ofNat_double {n : ℕ} (h : n < 2 ^ 31) :
    crcShift (BitVec.ofNat 32 (2 * n)) = BitVec.ofNat 32 n := by
  have hlow : (BitVec.ofNat 32 (2 * n)).getLsbD 0 = false := by
    rw [← BitVec.testBit_toNat, Nat.testBit_zero, BitVec.toNat_ofNat, decide_eq_false_iff_not]
    omega
  rw [crcShift_eq, hlow]
  apply BitVec.eq_of_toNat_eq
  simp only [Bool.false_eq_true, if_false, BitVec.xor_zero, BitVec.toNat_ushiftRight, BitVec.toNat_ofNat,
    Nat.shiftRight_one]
  omega

theorem iterate_crcShift_ofNat {n k : ℕ} (h : 2 ^ k * n < 2 ^ 32) :
    crcShift^[k] (BitVec.ofNat 32 (2 ^ k * n)) = BitVec.ofNat 32 n := by
  induction k with
  | zero => rw [pow_zero, one_mul, Function.iterate_zero_apply]
  | succ k ih =>
    have hsplit : 2 ^ (k + 1) * n = 2 * (2 ^ k * n) := by ring
    rw [hsplit] at h
    rw [hsplit, Function.iterate_succ_apply, crcShift_ofNat_double (by omega), ih (by omega)]

/-! ### Up to four bytes are one word -/

theorem ofNat_xor_shifted {b n : ℕ} (hb : b < 256) :
    BitVec.ofNat 32 b ^^^ BitVec.ofNat 32 (2 ^ 8 * n) = BitVec.ofNat 32 (b + 256 * n) := by
  have hnat : b ^^^ 2 ^ 8 * n = 2 ^ 8 * n + b := by
    apply Nat.eq_of_testBit_eq
    intro i
    rw [Nat.testBit_two_pow_mul_add n hb i, Nat.testBit_xor, Nat.testBit_two_pow_mul]
    by_cases hi : i < 8
    · simp [hi, Nat.not_le.mpr hi]
    · have hpow : 2 ^ 8 ≤ 2 ^ i := Nat.pow_le_pow_right (by decide) (Nat.le_of_not_lt hi)
      simp [hi, Nat.le_of_not_lt hi, Nat.testBit_lt_two_pow (Nat.lt_of_lt_of_le hb hpow)]
  rw [← BitVec.ofNat_xor, hnat, Nat.add_comm]
  rfl

/-- Feeding up to four bytes is adding the word they spell and shifting it through. -/
theorem foldl_crcUpdate_eq (crc : BitVec 32) {bs : Bytes} (hlen : bs.length ≤ 4) :
    bs.foldl crcUpdate crc = crcShift^[8 * bs.length] (crc ^^^ BitVec.ofNat 32 (leNat bs)) := by
  induction bs generalizing crc with
  | nil => simp [leNat]
  | cons b bs ih =>
    rw [List.length_cons] at hlen
    have hword : 2 ^ 8 * leNat bs < 2 ^ 32 := by
      have hlt := leNat_lt bs
      have hpow : 256 ^ bs.length ≤ 256 ^ 3 := Nat.pow_le_pow_right (by decide) (by omega)
      omega
    have hsum : BitVec.ofNat 32 b.toNat ^^^ BitVec.ofNat 32 (2 ^ 8 * leNat bs) =
        BitVec.ofNat 32 (leNat (b :: bs)) := ofNat_xor_shifted b.toNat_lt
    calc (b :: bs).foldl crcUpdate crc
        = crcShift^[8 * bs.length] (crcUpdate crc b ^^^ BitVec.ofNat 32 (leNat bs)) := ih _ (by omega)
      _ = crcShift^[8 * bs.length] (crcShift^[8] ((crc ^^^ BitVec.ofNat 32 b.toNat) ^^^
            BitVec.ofNat 32 (2 ^ 8 * leNat bs))) := by
          rw [iterate_crcShift_xor 8, iterate_crcShift_ofNat hword, crcUpdate]
      _ = crcShift^[8 * (b :: bs).length] (crc ^^^ BitVec.ofNat 32 (leNat (b :: bs))) := by
          rw [BitVec.xor_assoc, hsum, ← Function.iterate_add_apply, List.length_cons, Nat.mul_succ]

/-- Two windows of the same length that leave the same register behind are the same. -/
theorem window_injective {crc : BitVec 32} {bs cs : Bytes} (hlen : bs.length ≤ 4) (hsame : bs.length = cs.length)
    (h : bs.foldl crcUpdate crc = cs.foldl crcUpdate crc) : bs = cs := by
  have hbs := leNat_lt bs
  have hcs := leNat_lt cs
  have hpow : 256 ^ bs.length ≤ 256 ^ 4 := Nat.pow_le_pow_right (by decide) hlen
  rw [foldl_crcUpdate_eq crc hlen, foldl_crcUpdate_eq crc (hsame ▸ hlen), ← hsame] at h
  have hword := (BitVec.xor_right_inj crc).mp (crcShift_injective.iterate _ h)
  have hnat := congrArg BitVec.toNat hword
  rw [← hsame] at hcs
  rw [BitVec.toNat_ofNat, BitVec.toNat_ofNat, Nat.mod_eq_of_lt (by omega), Nat.mod_eq_of_lt (by omega)] at hnat
  rw [← leBytes_leNat bs, ← leBytes_leNat cs, hnat, hsame]

/-! ### Messages -/

/-- Two byte strings of one length that are different, but only within four bytes in a row. -/
def DifferInWindow (bs cs : Bytes) : Prop :=
  bs.length = cs.length ∧ bs ≠ cs ∧ ∃ start, ∀ i, i < start ∨ start + 4 ≤ i → bs[i]? = cs[i]?

theorem DifferInWindow.split {bs cs : Bytes} (h : DifferInWindow bs cs) :
    ∃ as ws vs ds, bs = as ++ (ws ++ ds) ∧ cs = as ++ (vs ++ ds) ∧ ws ≠ vs ∧ ws.length ≤ 4 ∧
      ws.length = vs.length := by
  obtain ⟨hlen, hne, start, hsame⟩ := h
  have hbefore : bs.take start = cs.take start := by
    apply List.ext_getElem?
    intro i
    simp only [List.getElem?_take]
    split_ifs with hi
    · exact hsame i (.inl hi)
    · rfl
  have hbehind : bs.drop (start + 4) = cs.drop (start + 4) := by
    apply List.ext_getElem?
    intro i
    simp only [List.getElem?_drop]
    exact hsame _ (.inr (Nat.le_add_right _ _))
  have hparts : ∀ xs : Bytes, xs = xs.take start ++ ((xs.drop start).take 4 ++ xs.drop (start + 4)) := by
    intro xs
    rw [← List.drop_drop, List.take_append_drop, List.take_append_drop]
  refine ⟨bs.take start, (bs.drop start).take 4, (cs.drop start).take 4, bs.drop (start + 4), hparts bs,
    ?_, ?_, ?_, ?_⟩
  · rw [hbefore, hbehind]
    exact hparts cs
  · intro hwindow
    apply hne
    rw [hparts bs, hbefore, hwindow, hbehind]
    exact (hparts cs).symm
  · exact List.length_take_le 4 _
  · simp only [List.length_take, List.length_drop, hlen]

theorem crc32_ne_of_window {type type' : UInt8} {key value key' value' : Bytes}
    (h : DifferInWindow (message type key value) (message type' key' value')) :
    crc32 type key value ≠ crc32 type' key' value' := by
  obtain ⟨as, ws, vs, ds, hm, hm', hne, hfour, hlen⟩ := h.split
  intro heq
  rw [crc32_eq_foldl, crc32_eq_foldl, BitVec.xor_left_inj, hm, hm'] at heq
  simp only [List.foldl_append] at heq
  exact hne (window_injective hfour hlen (foldl_crcUpdate_injective ds heq))

/-! ### The altered record in the log -/

/-- A record as it stands in the log, with the bytes a type, a key and a value are stored as and any
four bytes for the checksum. -/
def recordBytes (type : UInt8) (key value : Bytes) (crc : BitVec 32) : Bytes :=
  type :: (leBytes 4 key.length ++ (leBytes 4 value.length ++ (key ++ (value ++ leBytes 4 crc.toNat))))

theorem Entry.body_eq_recordBytes (e : Entry) :
    e.body = recordBytes e.type.byte e.key e.value (crc32 e.type.byte e.key e.value) := rfl

/-- Fields that belong to another checksum than the one that is stored are rejected. -/
theorem readRecord_recordBytes {type : UInt8} {key value : Bytes} {crc : BitVec 32}
    (hkey : key.length ≤ maxFieldBytes) (hvalue : value.length ≤ maxFieldBytes) (hcrc : crc ≠ crc32 type key value)
    (rest : Bytes) : ∃ s, readRecord (recordBytes type key value crc ++ rest) = .error s := by
  have hfield : ∀ {n : ℕ}, n ≤ maxFieldBytes → leNat (leBytes 4 n) = n := by
    intro n hn
    simp only [maxFieldBytes] at hn
    exact leNat_leBytes (by omega)
  have hstored : leNat (leBytes 4 crc.toNat) = crc.toNat := leNat_leBytes (by simpa using crc.isLt)
  have hreject := readRecord_rejects rest (length_leBytes 4 key.length) (length_leBytes 4 value.length)
    (length_leBytes 4 crc.toNat) (hfield hkey) (hfield hvalue)
    (fun heq => hcrc (BitVec.eq_of_toNat_eq (hstored ▸ heq)))
  simpa [recordBytes] using hreject

theorem readRecord_of_recoveredAt {file : Bytes} {offset : ℕ} {e : Entry} (h : RecoveredAt file offset e) :
    readRecord (file.drop offset) = .ok e := by
  obtain ⟨found, hparse, hrecover, hmem⟩ := h
  have hmax := (recover_ok_iff.mp hrecover).1
  rw [parse_eq hmax, Except.ok.injEq] at hparse
  rw [← hparse] at hmem
  obtain ⟨d, hd, -, hfits, rest, hbody⟩ := mem_scanFrom hmem
  have hoffset : d = offset := by simpa using hd.symm
  rw [← hoffset, ← hbody]
  exact readRecord_body hfits rest

/-- The checksum detects every error that is confined to four bytes in a row: it differs for any
two triples whose streams of type, key and value have one length and differ within such a
window only. With the lengths and the checksum of the first triple, `recover` does not return the
second one, wherever it stands in a file; behind records that were written it goes on with the
next sector. -/
theorem crc32_detects_window {type type' : UInt8} {key value key' value' : Bytes}
    (h : DifferInWindow (message type key value) (message type' key' value')) :
    crc32 type key value ≠ crc32 type' key' value' ∧
    (key.length ≤ maxFieldBytes → value.length ≤ maxFieldBytes →
      key'.length = key.length → value'.length = value.length →
      (∀ (before rest : Bytes) (e : Entry),
        ¬ RecoveredAt (before ++ (recordBytes type' key' value' (crc32 type key value) ++ rest)) before.length e) ∧
      ∀ (written : List Entry) (rest : Bytes), (∀ e ∈ written, e.Fits) →
        (encodeLog written ++ (recordBytes type' key' value' (crc32 type key value) ++ rest)).length ≤
          maxRecoveryBytes →
        recover (encodeLog written ++ (recordBytes type' key' value' (crc32 type key value) ++ rest)) =
          .ok (written ++ scan ((recordBytes type' key' value' (crc32 type key value) ++ rest).drop 512))) := by
  have hcrc := crc32_ne_of_window h
  refine ⟨hcrc, ?_⟩
  intro hkey hvalue hkey' hvalue'
  have hreject := readRecord_recordBytes (hkey' ▸ hkey) (hvalue' ▸ hvalue) hcrc
  constructor
  · intro before rest e hfound
    obtain ⟨s, hs⟩ := hreject rest
    have hread := readRecord_of_recoveredAt hfound
    rw [List.drop_left, hs] at hread
    exact absurd hread (by simp)
  · intro written rest hfits hmax
    obtain ⟨s, hs⟩ := hreject rest
    rw [recover_of_le hmax, scan_encodeLog_append hfits, scan_of_error hs]

/-- Four zero bytes of a key in place of `"abcd"`. -/
theorem crc32_detects_window_zeros :
    crc32 1 [0x61, 0x62, 0x63, 0x64] [7] ≠ crc32 1 [0, 0, 0, 0] [7] ∧
    ∀ rest : Bytes, ¬ ∃ e,
      RecoveredAt ([] ++ (recordBytes 1 [0, 0, 0, 0] [7] (crc32 1 [0x61, 0x62, 0x63, 0x64] [7]) ++ rest)) 0 e := by
  have hwindow : DifferInWindow (message 1 [0x61, 0x62, 0x63, 0x64] [7]) (message 1 [0, 0, 0, 0] [7]) := by
    refine ⟨rfl, by decide, 1, ?_⟩
    intro i hi
    match i, hi with
    | 0, _ => rfl
    | 1, hi | 2, hi | 3, hi | 4, hi => omega
    | 5, _ => rfl
    | i + 6, _ => rfl
  have hdetects := crc32_detects_window hwindow
  refine ⟨hdetects.1, ?_⟩
  intro rest ⟨e, he⟩
  exact (hdetects.2 (by decide) (by decide) rfl rfl).1 [] rest e he

end LsmTree.Wal
