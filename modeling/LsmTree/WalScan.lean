import LsmTree.WalFormat

/-!
# The log reader as a scan over 512-byte sectors

The parse loop only ever stands on multiples of 512, so it is a recursion on the
remaining bytes: a complete record is consumed with its padding, anything else
costs one sector. All statements about recovery go through this form.
-/

namespace LsmTree.Wal
open LittleEndian

/-- The parse loop on the bytes that remain from a sector boundary on. -/
def scan (bs : Bytes) : List Entry :=
  if _h : bs = [] then []
  else match readRecord bs with
    | .error _ => scan (bs.drop 512)
    | .ok e => e :: scan (bs.drop e.alignedSize)
termination_by bs.length
decreasing_by
  all_goals
    have hpos := List.length_pos_iff.mpr _h
    simp only [List.length_drop]
  · omega
  · have := e.alignedSize_pos
    omega

@[simp] theorem scan_nil : scan [] = [] := by rw [scan, dif_pos rfl]

theorem scan_of_ok {bs : Bytes} {e : Entry} (h : readRecord bs = .ok e) :
    scan bs = e :: scan (bs.drop e.alignedSize) := by
  have hne : bs ≠ [] := by
    rintro rfl
    simp [readRecord] at h
  rw [scan, dif_neg hne, h]

theorem scan_of_error {bs : Bytes} {s : Skip} (h : readRecord bs = .error s) :
    scan bs = scan (bs.drop 512) := by
  by_cases hne : bs = []
  · simp [hne]
  · rw [scan, dif_neg hne, h]

/-- Once the fuel covers the remaining bytes the loop is the scan. -/
theorem recoverLoop_eq_scan (buf : Bytes) (hsize : buf.length < 2 ^ 32) (fuel offset : ℕ)
    (hoff : 512 ∣ offset) (hfuel : buf.length < offset + fuel) :
    recoverLoop buf fuel offset = scan (buf.drop offset) := by
  induction fuel generalizing offset with
  | zero => simp [recoverLoop, List.drop_eq_nil_of_le (show buf.length ≤ offset by omega)]
  | succ fuel ih =>
    rw [recoverLoop]
    by_cases hlt : offset < buf.length
    · rw [if_pos hlt]
      cases hread : readRecord (buf.drop offset) with
      | error s =>
        have hnext : (offset / 512 + 1) * 512 = offset + 512 := by omega
        rw [scan_of_error hread, List.drop_drop, hnext]
        exact ih (offset + 512) (by omega) (by omega)
      | ok e =>
        obtain ⟨-, rest, hrest⟩ := body_of_readRecord hread
        have hlen := congrArg List.length hrest
        simp only [List.length_append, Entry.length_body, List.length_drop] at hlen
        have hmod : e.size % 2 ^ 32 = e.size := Nat.mod_eq_of_lt (by omega)
        have hpos := e.alignedSize_pos
        have hdvd := e.alignedSize_dvd
        rw [scan_of_ok hread, List.drop_drop]
        simp only [hmod]
        exact congrArg (e :: ·) (ih (offset + e.alignedSize) (Nat.dvd_add hoff hdvd) (by omega))
    · rw [if_neg hlt, List.drop_eq_nil_of_le (Nat.le_of_not_lt hlt), scan_nil]

theorem recover_of_le {file : Bytes} (h : file.length ≤ maxRecoveryBytes) :
    recover file = .ok (scan file) := by
  have hsize : file.length < 2 ^ 32 := Nat.lt_of_le_of_lt h (by decide)
  rw [recover, if_neg (Nat.not_lt.mpr h),
    recoverLoop_eq_scan file hsize _ 0 (Nat.dvd_zero 512) (by omega), List.drop_zero]

theorem recover_ok_iff {file : Bytes} {es : List Entry} :
    recover file = .ok es ↔ file.length ≤ maxRecoveryBytes ∧ scan file = es := by
  by_cases h : file.length ≤ maxRecoveryBytes
  · simp [recover_of_le h, h]
  · simp [recover, Nat.not_le.mp h, h]

/-! ### Written sectors -/

theorem scan_encode_append {e : Entry} (h : e.Fits) (rest : Bytes) :
    scan (e.encode ++ rest) = e :: scan rest := by
  have hread : readRecord (e.encode ++ rest) = .ok e := by
    rw [Entry.encode, List.append_assoc]
    exact readRecord_body h _
  rw [scan_of_ok hread, ← e.length_encode, List.drop_left]

theorem scan_encodeLog_append {es : List Entry} (h : ∀ e ∈ es, e.Fits) (rest : Bytes) :
    scan (encodeLog es ++ rest) = es ++ scan rest := by
  induction es with
  | nil => rfl
  | cons e es ih =>
    rw [encodeLog_cons, List.append_assoc, scan_encode_append (h e List.mem_cons_self),
      ih (fun f hf => h f (List.mem_cons_of_mem _ hf)), List.cons_append]

theorem scan_encodeLog {es : List Entry} (h : ∀ e ∈ es, e.Fits) : scan (encodeLog es) = es := by
  simpa using scan_encodeLog_append h []

/-- A hole costs its sectors and nothing else, however long it is. -/
theorem scan_zeros_append {n : ℕ} (h : 512 ∣ n) (rest : Bytes) :
    scan (zeros n ++ rest) = scan rest := by
  obtain ⟨k, rfl⟩ := h
  induction k with
  | zero => rfl
  | succ k ih =>
    have hsplit : zeros (512 * (k + 1)) ++ rest = 0 :: (zeros 511 ++ (zeros (512 * k) ++ rest)) := by
      rw [show 512 * (k + 1) = 1 + (511 + 512 * k) by ring]
      simp only [zeros, List.replicate_add, List.append_assoc]
      rfl
    have hdrop : (0 :: (zeros 511 ++ (zeros (512 * k) ++ rest))).drop 512 =
        zeros (512 * k) ++ rest := by
      rw [List.drop_succ_cons]
      exact List.drop_left' (length_zeros 511)
    have hread : readRecord (0 :: (zeros 511 ++ (zeros (512 * k) ++ rest))) = .error .padding := by
      simp [readRecord]
    rw [hsplit, scan_of_error hread, hdrop, ih]

/-! ### What a scan can find -/

/-- The scan of a byte string is empty exactly when no sector of it begins with a
complete record. -/
theorem scan_eq_nil_iff (bs : Bytes) :
    scan bs = [] ↔ ∀ (i : ℕ) (e : Entry), e.Fits → ¬ e.body <+: bs.drop (512 * i) := by
  induction hn : bs.length using Nat.strong_induction_on generalizing bs with
  | _ n ih =>
    subst hn
    by_cases hnil : bs = []
    · subst hnil
      simp [Entry.body]
    cases hread : readRecord bs with
    | ok e =>
      have hbody := body_of_readRecord hread
      rw [scan_of_ok hread]
      constructor
      · intro h
        cases h
      · intro h
        exact absurd (by simpa using hbody.2) (h 0 e hbody.1)
    | error s =>
      have hlt : (bs.drop 512).length < bs.length := by
        have := List.length_pos_iff.mpr hnil
        simp only [List.length_drop]
        omega
      rw [scan_of_error hread, ih _ hlt _ rfl]
      constructor
      · intro h i e hfits
        cases i with
        | zero =>
          intro hpre
          rw [(@readRecord_ok_iff bs e).mpr ⟨hfits, by simpa using hpre⟩] at hread
          cases hread
        | succ i =>
          have := h i e hfits
          rwa [List.drop_drop, show 512 + 512 * i = 512 * (i + 1) by ring] at this
      · intro h i e hfits
        rw [List.drop_drop, show 512 + 512 * i = 512 * (i + 1) by ring]
        exact h (i + 1) e hfits

/-- Sectors that begin with no complete record are passed over. -/
theorem scan_append_of_no_record (k : ℕ) (bs rest : Bytes) (hlen : bs.length = 512 * k)
    (h : ∀ i < k, ∀ e : Entry, e.Fits → ¬ e.body <+: (bs ++ rest).drop (512 * i)) :
    scan (bs ++ rest) = scan rest := by
  induction k generalizing bs with
  | zero =>
    have hnil : bs = [] := List.length_eq_zero_iff.mp (by omega)
    simp [hnil]
  | succ k ih =>
    cases hread : readRecord (bs ++ rest) with
    | ok e =>
      obtain ⟨hfits, hpre⟩ := body_of_readRecord hread
      exact absurd (by simpa using hpre) (h 0 (by omega) e hfits)
    | error s =>
      have hdrop : (bs ++ rest).drop 512 = bs.drop 512 ++ rest :=
        List.drop_append_of_le_length (by omega)
      rw [scan_of_error hread, hdrop]
      apply ih
      · simp only [List.length_drop]
        omega
      · intro i hi e hfits
        rw [← hdrop, List.drop_drop, show 512 + 512 * i = 512 * (i + 1) by ring]
        exact h (i + 1) (by omega) e hfits

end LsmTree.Wal
