import LsmTree.WalParse

/-!
# Records with damaged lengths

The checksum of a record runs over the type byte, the key and the value as one string.
The lengths that cut this string in two are not covered. If only the eight length bytes
of a record are damaged, what guards it is the end of the log and the place where the
damaged lengths expect the checksum: with lengths of the same sum that is the true place,
and the record is accepted with its bytes split at another point.
-/

namespace LsmTree.Wal
open LittleEndian

/-- The bytes of a record behind its length fields. -/
def Entry.payload (e : Entry) : Bytes :=
  e.key ++ (e.value ++ (leBytes 4 (crc32 e.type.byte e.key e.value).toNat ++ zeros (e.alignedSize - e.size)))

/-- A record in the log with other numbers in its length fields. -/
def Entry.withLengths (e : Entry) (klen vlen : ℕ) : Bytes :=
  e.type.byte :: (leBytes 4 klen ++ (leBytes 4 vlen ++ e.payload))

def checksum (type : UInt8) (bytes : Bytes) : ℕ := (crc32 type bytes []).toNat

theorem crc32_eq_checksum (type : UInt8) (key value : Bytes) :
    (crc32 type key value).toNat = checksum type (key ++ value) := by
  simp [checksum, crc32, List.foldl_append]

theorem Entry.encode_eq_withLengths (e : Entry) : e.encode = e.withLengths e.key.length e.value.length := by
  simp [Entry.encode, Entry.body, Entry.withLengths, Entry.payload]

@[simp] theorem Entry.length_withLengths (e : Entry) (klen vlen : ℕ) :
    (e.withLengths klen vlen).length = e.alignedSize := by
  have h := e.length_encode
  rw [e.encode_eq_withLengths] at h
  simpa [Entry.withLengths] using h

theorem readRecord_withLengths (e : Entry) {klen vlen : ℕ} (hklen : klen < 2 ^ 32) (hvlen : vlen < 2 ^ 32)
    (rest : Bytes) (e' : Entry) :
    readRecord (e.withLengths klen vlen ++ rest) = .ok e' ↔
      klen + vlen + 4 ≤ (e.payload ++ rest).length ∧
      leNat (((e.payload ++ rest).drop (klen + vlen)).take 4) =
        checksum e.type.byte ((e.payload ++ rest).take (klen + vlen)) ∧
      e' = ⟨e.type, (e.payload ++ rest).take klen, ((e.payload ++ rest).drop klen).take vlen⟩ := by
  have hk : leNat (leBytes 4 klen) = klen := leNat_leBytes (by omega)
  have hv : leNat (leBytes 4 vlen) = vlen := leNat_leBytes (by omega)
  have hsplit : e.withLengths klen vlen ++ rest =
      e.type.byte :: (leBytes 4 klen ++ (leBytes 4 vlen ++ (e.payload ++ rest))) := by
    simp [Entry.withLengths]
  generalize e.payload ++ rest = payload at hsplit ⊢
  have hhead : ¬ (leBytes 4 klen ++ (leBytes 4 vlen ++ payload)).length < 8 := by
    simp only [List.length_append, length_leBytes]
    omega
  have hdrop : (leBytes 4 klen ++ (leBytes 4 vlen ++ payload)).drop 8 = payload := by
    simp [List.drop_append]
  have htake : payload.take klen ++ (payload.drop klen).take vlen = payload.take (klen + vlen) := by
    rw [List.take_add]
  rw [hsplit, readRecord, if_neg e.type.byte_ne_zero, if_neg hhead]
  simp only [hdrop, List.take_left' (length_leBytes 4 klen), List.drop_left' (length_leBytes 4 klen),
    List.take_left' (length_leBytes 4 vlen), hk, hv, crc32_eq_checksum, htake]
  by_cases hlen : payload.length < klen + vlen + 4
  · simp only [if_pos hlen, reduceCtorEq, false_iff]
    omega
  · rw [if_neg hlen]
    by_cases hcrc : leNat ((payload.drop (klen + vlen)).take 4) = checksum e.type.byte (payload.take (klen + vlen))
    · have htype : (if e.type.byte = 0x01 then Except.ok ⟨.put, payload.take klen, (payload.drop klen).take vlen⟩
          else if e.type.byte = 0x02 then .ok ⟨.del, payload.take klen, (payload.drop klen).take vlen⟩
          else .error Skip.unrecognisedType) =
          .ok (⟨e.type, payload.take klen, (payload.drop klen).take vlen⟩ : Entry) := by
        cases e.type <;> rfl
      rw [if_neg (not_not_intro hcrc), htype, Except.ok.injEq]
      constructor
      · rintro rfl
        exact ⟨by omega, hcrc, rfl⟩
      · rintro ⟨-, -, rfl⟩
        rfl
    · simp [hcrc]

/-! ### The entry at an offset -/

/-- `recover` returns the entry for the record at the offset. -/
def RecoveredAt (file : Bytes) (offset : ℕ) (e : Entry) : Prop :=
  ∃ found, parse file = .ok found ∧ recover file = .ok (found.map Prod.snd) ∧ (offset, e) ∈ found

theorem mem_scanFrom_self {offset : ℕ} {bs : Bytes} {e : Entry} :
    (offset, e) ∈ scanFrom offset bs ↔ readRecord bs = .ok e := by
  cases hread : readRecord bs with
  | error s =>
    simp only [reduceCtorEq, iff_false, scanFrom_of_error hread]
    intro hmem
    obtain ⟨d, hd, -⟩ := mem_scanFrom hmem
    simp only at hd
    omega
  | ok f =>
    rw [scanFrom_of_ok hread, List.mem_cons, Prod.mk.injEq, Except.ok.injEq]
    constructor
    · rintro (⟨-, rfl⟩ | hmem)
      · rfl
      · obtain ⟨d, hd, -⟩ := mem_scanFrom hmem
        have := f.alignedSize_pos
        simp only at hd
        omega
    · rintro rfl
      exact .inl ⟨rfl, rfl⟩

/-- Behind whole records the reader stands where the next one begins. -/
theorem mem_scanFrom_encodeLog_append {es : List Entry} (h : ∀ e ∈ es, e.Fits) {offset : ℕ} {bs : Bytes}
    {e : Entry} : (offset + (encodeLog es).length, e) ∈ scanFrom offset (encodeLog es ++ bs) ↔
      readRecord bs = .ok e := by
  induction es generalizing offset with
  | nil => simp [mem_scanFrom_self]
  | cons f es ih =>
    have hread : readRecord (f.encode ++ (encodeLog es ++ bs)) = .ok f := by
      rw [Entry.encode, List.append_assoc]
      exact readRecord_body (h f List.mem_cons_self) _
    have hpos := f.alignedSize_pos
    rw [encodeLog_cons, List.append_assoc, scanFrom_of_ok hread, ← f.length_encode, List.drop_left,
      List.mem_cons, List.length_append, ← Nat.add_assoc, f.length_encode,
      ih fun g hg => h g (List.mem_cons_of_mem _ hg)]
    have hne : ¬ (offset + f.alignedSize + (encodeLog es).length, e) = (offset, f) := by
      rw [Prod.mk.injEq]
      omega
    simp only [hne, false_or]

theorem recoveredAt_iff {before : List Entry} (h : ∀ f ∈ before, f.Fits) {bs : Bytes} {e : Entry} :
    RecoveredAt (encodeLog before ++ bs) (encodeLog before).length e ↔
      (encodeLog before ++ bs).length ≤ maxRecoveryBytes ∧ readRecord bs = .ok e := by
  by_cases hmax : (encodeLog before ++ bs).length ≤ maxRecoveryBytes
  · have hmem := @mem_scanFrom_encodeLog_append before h 0 bs e
    rw [Nat.zero_add] at hmem
    simp only [RecoveredAt, parse_eq hmax, recover_of_le hmax, hmax, true_and, ← hmem]
    constructor
    · rintro ⟨found, hfound, -, hmem⟩
      cases hfound
      exact hmem
    · intro hmem
      exact ⟨_, rfl, by rw [map_snd_scanFrom], hmem⟩
  · simp only [hmax, false_and, iff_false]
    rintro ⟨found, -, hrecover, -⟩
    exact hmax (recover_ok_iff.mp hrecover).1

/-- Whatever is in the length fields of a record, `recover` returns another key or value for its
offset only if the log is within the limit, the lengths are others, and the four bytes where they
expect the checksum are the checksum of the bytes before. -/
theorem no_resplit_iff {before : List Entry} (hbefore : ∀ f ∈ before, f.Fits) (e : Entry) {klen vlen : ℕ}
    (hklen : klen < 2 ^ 32) (hvlen : vlen < 2 ^ 32) (rest : Bytes) :
    (∀ e', RecoveredAt (encodeLog before ++ (e.withLengths klen vlen ++ rest)) (encodeLog before).length e' →
      e'.key = e.key ∧ e'.value = e.value) ↔
    maxRecoveryBytes < (encodeLog before ++ (e.withLengths klen vlen ++ rest)).length ∨
    (klen = e.key.length ∧ vlen = e.value.length) ∨
    (e.payload ++ rest).length < klen + vlen + 4 ∨
    leNat (((e.payload ++ rest).drop (klen + vlen)).take 4) ≠
      checksum e.type.byte ((e.payload ++ rest).take (klen + vlen)) := by
  simp only [recoveredAt_iff hbefore, readRecord_withLengths e hklen hvlen]
  constructor
  · intro h
    by_contra hnot
    push Not at hnot
    obtain ⟨hmax, hother, hlen, hcrc⟩ := hnot
    obtain ⟨hkey, hvalue⟩ := h _ ⟨hmax, hlen, hcrc, rfl⟩
    have hk := congrArg List.length hkey
    have hv := congrArg List.length hvalue
    simp only [List.length_take, List.length_drop] at hk hv
    exact hother (by omega) (by omega)
  · rintro h e' ⟨hmax, hlen, hcrc, rfl⟩
    rcases h with h | ⟨rfl, rfl⟩ | h | h
    · omega
    · simp [Entry.payload]
    · omega
    · exact absurd hcrc h

/-- Lengths of the same sum pass every check. -/
theorem recoveredAt_of_same_sum {before : List Entry} (hbefore : ∀ f ∈ before, f.Fits) {e : Entry}
    {klen vlen : ℕ} (hsum : klen + vlen = e.key.length + e.value.length) (hklen : klen < 2 ^ 32)
    (hvlen : vlen < 2 ^ 32) {rest : Bytes}
    (hmax : (encodeLog before ++ (e.withLengths klen vlen ++ rest)).length ≤ maxRecoveryBytes) :
    RecoveredAt (encodeLog before ++ (e.withLengths klen vlen ++ rest)) (encodeLog before).length
      ⟨e.type, (e.payload ++ rest).take klen, ((e.payload ++ rest).drop klen).take vlen⟩ := by
  have hpayload : e.payload ++ rest = (e.key ++ e.value) ++
      (leBytes 4 (crc32 e.type.byte e.key e.value).toNat ++ (zeros (e.alignedSize - e.size) ++ rest)) := by
    simp [Entry.payload]
  have hlen : klen + vlen = (e.key ++ e.value).length := by rw [hsum, List.length_append]
  have hcrc : leNat (leBytes 4 (crc32 e.type.byte e.key e.value).toNat) = checksum e.type.byte (e.key ++ e.value) := by
    rw [leNat_leBytes (by simpa using (crc32 e.type.byte e.key e.value).isLt), crc32_eq_checksum]
  refine (recoveredAt_iff hbefore).mpr ⟨hmax, (readRecord_withLengths e hklen hvlen rest _).mpr ⟨?_, ?_, rfl⟩⟩
  · rw [hpayload, hlen]
    simp only [List.length_append, length_leBytes]
    omega
  · rw [hpayload, hlen, List.drop_left, List.take_left, List.take_left' (length_leBytes 4 _), hcrc]

def smallPut : Entry := ⟨.put, [1], [2]⟩

-- With lengths two and zero it comes back as a put of the empty value under the key `12`.
example : ∃ e', RecoveredAt (encodeLog [] ++ (smallPut.withLengths 2 0 ++ [])) 0 e' ∧ e'.key = [1, 2] := by
  have hmax : (encodeLog [] ++ (smallPut.withLengths 2 0 ++ [])).length ≤ maxRecoveryBytes := by
    simp only [encodeLog_nil, List.append_nil, List.nil_append, Entry.length_withLengths]
    decide
  exact ⟨_, @recoveredAt_of_same_sum [] (List.forall_mem_nil _) smallPut 2 0 rfl (by decide) (by decide) [] hmax,
    by simp [Entry.payload, smallPut]⟩

/-- A put whose value begins with the checksum that its key alone would have. -/
def sealedPut : Entry := ⟨.put, [1], leBytes 4 (crc32 0x01 [1] []).toNat⟩

/-- One bit of its value length flipped, from four to zero, and the value is gone. -/
theorem resplit_sealedPut :
    ¬ ∀ e', RecoveredAt (encodeLog [] ++ (sealedPut.withLengths 1 0 ++ [])) (encodeLog []).length e' →
      e'.key = sealedPut.key ∧ e'.value = sealedPut.value := by
  intro h
  have hmax : (encodeLog [] ++ (sealedPut.withLengths 1 0 ++ [])).length ≤ maxRecoveryBytes := by
    simp only [encodeLog_nil, List.append_nil, List.nil_append, Entry.length_withLengths]
    decide
  have hpayload : sealedPut.payload ++ [] = [1] ++ (leBytes 4 (crc32 0x01 [1] []).toNat ++
      (leBytes 4 (crc32 0x01 sealedPut.key sealedPut.value).toNat ++
        zeros (sealedPut.alignedSize - sealedPut.size))) := by
    simp [Entry.payload, sealedPut, EntryType.byte]
  have hread : readRecord (sealedPut.withLengths 1 0 ++ []) = .ok ⟨.put, [1], []⟩ := by
    refine (readRecord_withLengths sealedPut (by decide) (by decide) [] _).mpr ⟨?_, ?_, ?_⟩
    · rw [hpayload]
      simp
    · have hcrc : leNat (leBytes 4 (crc32 0x01 [1] []).toNat) = (crc32 0x01 [1] []).toNat :=
        leNat_leBytes (by simpa using (crc32 0x01 [1] []).isLt)
      rw [hpayload, Nat.add_zero, List.singleton_append, List.drop_succ_cons, List.drop_zero,
        List.take_left' (length_leBytes 4 _), hcrc]
      rfl
    · rw [hpayload]
      simp [sealedPut]
  have hvalue := (h _ ((recoveredAt_iff (List.forall_mem_nil _)).mpr ⟨hmax, hread⟩)).2
  have hlen := congrArg List.length hvalue
  simp [sealedPut] at hlen

/-- Lengths that reach past the end of the log are found out. -/
theorem no_resplit_smallPut :
    ¬ ∃ e', RecoveredAt (encodeLog [] ++ (smallPut.withLengths 1 600 ++ [])) (encodeLog []).length e' ∧
      ¬ (e'.key = smallPut.key ∧ e'.value = smallPut.value) := by
  rintro ⟨e', hrecovered, hne⟩
  have hlong : (smallPut.payload ++ []).length < 1 + 600 + 4 := by
    simp [Entry.payload, smallPut, Entry.alignedSize, Entry.size, align]
  have hsafe := (no_resplit_iff (List.forall_mem_nil _) smallPut (by decide) (by decide) []).mpr
    (.inr (.inr (.inl hlong)))
  exact hne (hsafe e' hrecovered)

end LsmTree.Wal
