import LsmTree.PositionalFile
import LsmTree.WalScan

/-!
# Logs cut off at an arbitrary byte

A process crash may leave only the first `c` bytes of a log. The records whose
bodies end at or before `c` are read back. What the reader makes of the rest
depends on the torn record: it resynchronises at the next sector boundary, and
for a record longer than one sector that boundary lies inside the record's own
value. A writer that reopens the file resumes at its length, wherever that is.
-/

namespace LsmTree.Wal
open LittleEndian PositionalFile

/-- The longest run of leading records whose bodies lie within the first `c` bytes. -/
def intactRecords : List Entry → ℕ → List Entry
  | [], _ => []
  | e :: es, c => if e.size ≤ c then e :: intactRecords es (c - e.alignedSize) else []

/-- What is left of the record at which the cut falls. -/
def tornTail (es : List Entry) (c : ℕ) : Bytes :=
  ((encodeLog es).take c).drop (startOffset es (intactRecords es c).length)

/-- The intact records are the first `n` records, their bodies end within the cut,
and the body of the next one does not. -/
theorem intactRecords_spec (es : List Entry) (c : ℕ) :
    intactRecords es c = es.take (intactRecords es c).length ∧
    (∀ i e, i < (intactRecords es c).length → es[i]? = some e → startOffset es i + e.size ≤ c) ∧
    ∀ e, es[(intactRecords es c).length]? = some e →
      c < startOffset es (intactRecords es c).length + e.size := by
  induction es generalizing c with
  | nil => simp [intactRecords]
  | cons e es ih =>
    by_cases h : e.size ≤ c
    · obtain ⟨htake, hin, hout⟩ := ih (c - e.alignedSize)
      have hsize := e.size_le_alignedSize
      rw [intactRecords, if_pos h]
      refine ⟨?_, ?_, ?_⟩
      · rw [List.length_cons, List.take_succ_cons, ← htake]
      · intro i f hi hf
        cases i with
        | zero =>
          have hef : e = f := by simpa using hf
          subst hef
          simpa using h
        | succ i =>
          rw [List.length_cons] at hi
          have hle := hin i f (by omega) (by simpa using hf)
          have hpos := f.size_pos
          rw [startOffset_cons_succ]
          omega
      · intro f hf
        have hlt := hout f (by simpa using hf)
        rw [List.length_cons, startOffset_cons_succ]
        omega
    · rw [intactRecords, if_neg h]
      refine ⟨rfl, by simp, ?_⟩
      intro f hf
      have hef : e = f := by simpa using hf
      subst hef
      simpa using Nat.lt_of_not_le h

theorem tornTail_cons_of_le {e : Entry} {c : ℕ} (h : e.size ≤ c) (es : List Entry) :
    tornTail (e :: es) c = tornTail es (c - e.alignedSize) := by
  rw [tornTail, tornTail, intactRecords, if_pos h, List.length_cons, startOffset_cons_succ,
    ← List.drop_drop, encodeLog_cons, List.drop_take, ← e.length_encode, List.drop_left]

theorem tornTail_cons_of_lt {e : Entry} {c : ℕ} (h : c < e.size) (es : List Entry) :
    tornTail (e :: es) c = e.body.take c := by
  have hsize := e.size_le_alignedSize
  rw [tornTail, intactRecords, if_neg (Nat.not_le.mpr h)]
  simp only [List.length_nil, startOffset_zero, List.drop_zero, encodeLog_cons, Entry.encode]
  rw [List.append_assoc, List.take_append_of_le_length (by simpa using h.le)]

theorem readRecord_take_body {e : Entry} (h : e.Fits) {c : ℕ} (hc : c < e.size) :
    ∃ s, readRecord (e.body.take c) = .error s := by
  cases hread : readRecord (e.body.take c) with
  | error s => exact ⟨s, rfl⟩
  | ok f =>
    exfalso
    obtain ⟨hfits, hpre⟩ := body_of_readRecord hread
    -- The lengths stand at the front, so both bodies would have the same size.
    have hfull : f.body <+: e.body := hpre.trans (List.take_prefix c e.body)
    have hsame : f = e := by
      have h1 : readRecord e.body = .ok f := readRecord_ok_iff.mpr ⟨hfits, hfull⟩
      have h2 : readRecord e.body = .ok e := by simpa using readRecord_body h []
      exact Except.ok.inj (h1.symm.trans h2)
    have hlen := hpre.length_le
    rw [Entry.length_body, List.length_take, Entry.length_body, hsame] at hlen
    omega

/-- The first `c` bytes hold the intact records, then whatever the reader finds in
the later sectors of the torn record. -/
theorem scan_take_encodeLog {es : List Entry} (h : ∀ e ∈ es, e.Fits) (c : ℕ) :
    scan ((encodeLog es).take c) = intactRecords es c ++ scan ((tornTail es c).drop 512) := by
  induction es generalizing c with
  | nil => simp [intactRecords, tornTail]
  | cons e es ih =>
    have hfits := h e List.mem_cons_self
    have hrest : ∀ f ∈ es, f.Fits := fun f hf => h f (List.mem_cons_of_mem _ hf)
    by_cases hle : e.size ≤ c
    · rw [tornTail_cons_of_le hle, intactRecords, if_pos hle, List.cons_append, ← ih hrest]
      have hread : readRecord ((encodeLog (e :: es)).take c) = .ok e := by
        apply readRecord_ok_iff.mpr
        refine ⟨hfits, ?_⟩
        apply List.prefix_take_iff.mpr
        exact ⟨by simp [Entry.encode, List.append_assoc], by simpa using hle⟩
      rw [scan_of_ok hread, List.drop_take, encodeLog_cons, ← e.length_encode, List.drop_left]
    · have hlt := Nat.lt_of_not_le hle
      obtain ⟨s, hread⟩ := readRecord_take_body hfits hlt
      have htake : (encodeLog (e :: es)).take c = e.body.take c := by
        have := e.size_le_alignedSize
        rw [encodeLog_cons, Entry.encode, List.append_assoc,
          List.take_append_of_le_length (by simpa using hlt.le)]
      rw [tornTail_cons_of_lt hlt, intactRecords, if_neg hle, htake, scan_of_error hread,
        List.nil_append]

/-- Recovery of a log cut at byte `c` returns exactly the intact records if and only
if the surviving bytes are within the recovery limit and no sector of the torn
record after its first begins with a complete record. -/
theorem recover_take_iff {es : List Entry} (h : ∀ e ∈ es, e.Fits) (c : ℕ) :
    recover ((encodeLog es).take c) = .ok (intactRecords es c) ↔
      min c (encodeLog es).length ≤ maxRecoveryBytes ∧
      ∀ i, 0 < i → ∀ e : Entry, e.Fits → ¬ e.body <+: (tornTail es c).drop (512 * i) := by
  rw [recover_ok_iff, scan_take_encodeLog h, List.length_take, List.append_right_eq_self,
    scan_eq_nil_iff]
  refine and_congr_right fun _ => ⟨?_, ?_⟩
  · intro hno i hi e hfits
    obtain ⟨j, rfl⟩ := Nat.exists_eq_add_of_lt hi
    have := hno j e hfits
    rwa [List.drop_drop, show 512 + 512 * j = 512 * (0 + j + 1) by ring] at this
  · intro hno i e hfits
    rw [List.drop_drop, show 512 + 512 * i = 512 * (i + 1) by ring]
    exact hno (i + 1) (Nat.succ_pos i) e hfits

/-- A put whose value holds a complete record of its own at the next sector boundary. -/
def nestedPut : Entry :=
  ⟨.put, [], zeros 503 ++ (Entry.body ⟨.del, [7], []⟩ ++ zeros 8)⟩

theorem recover_take_nestedPut :
    ¬ recover ((encodeLog [nestedPut]).take 526) = .ok (intactRecords [nestedPut] 526) := by
  decide +kernel

theorem recover_take_short_tail :
    recover ((encodeLog [⟨.put, [1], [2]⟩, ⟨.del, [1], []⟩]).take 520) =
      .ok [⟨.put, [1], [2]⟩] := by
  apply (@recover_take_iff [⟨.put, [1], [2]⟩, ⟨.del, [1], []⟩] (by decide) 520).mpr
  refine ⟨by decide +kernel, ?_⟩
  intro i hi e hfits hpre
  have htail : (tornTail [⟨.put, [1], [2]⟩, ⟨.del, [1], []⟩] 520).length = 8 := by decide +kernel
  have hlen := hpre.length_le
  have hpos := e.size_pos
  rw [Entry.length_body, List.length_drop, htail] at hlen
  omega

/-! ### Appending after a torn tail -/

/-- The appends of a writer whose next record goes to `offset`, all of them landing. -/
def appendRecords : Bytes → ℕ → List Entry → Bytes
  | file, _, [] => file
  | file, offset, e :: es => appendRecords (pwrite 0 file offset e.encode) (offset + e.alignedSize) es

/-- The offsets `writeEntry` assigns to records appended from `offset` on. -/
def assignedOffsets : ℕ → List Entry → List ℕ
  | _, [] => []
  | offset, e :: es => offset :: assignedOffsets (offset + e.alignedSize) es

/-- `WAL::WAL` sets `write_offset_` to `st_size`. -/
def resumeOffset (file : Bytes) : ℕ := file.length

theorem appendRecords_resume (file : Bytes) (es : List Entry) :
    appendRecords file (resumeOffset file) es = file ++ encodeLog es := by
  induction es generalizing file with
  | nil => simp [appendRecords]
  | cons e es ih =>
    have hnext : resumeOffset file + e.alignedSize = resumeOffset (file ++ e.encode) := by
      simp [resumeOffset]
    rw [appendRecords, resumeOffset, pwrite_end, ← resumeOffset, hnext, ih, encodeLog_cons,
      List.append_assoc]

theorem assignedOffsets_dvd {offset : ℕ} (h : 512 ∣ offset) (es : List Entry) :
    ∀ o ∈ assignedOffsets offset es, 512 ∣ o := by
  induction es generalizing offset with
  | nil => simp [assignedOffsets]
  | cons e es ih =>
    intro o ho
    rcases List.mem_cons.mp ho with rfl | ho
    · exact h
    · exact ih (Nat.dvd_add h e.alignedSize_dvd) o ho

/-- On whole sectors the scan of a cut log with anything after it goes through the
intact records and then stands at the torn one. -/
theorem scan_take_encodeLog_append {es : List Entry} (h : ∀ e ∈ es, e.Fits) (c : ℕ)
    (hc : 512 ∣ min c (encodeLog es).length) (rest : Bytes) :
    512 ∣ (tornTail es c).length ∧
    scan ((encodeLog es).take c ++ rest) = intactRecords es c ++ scan (tornTail es c ++ rest) := by
  induction es generalizing c with
  | nil => simp [intactRecords, tornTail]
  | cons e es ih =>
    have hfits := h e List.mem_cons_self
    have hrest : ∀ f ∈ es, f.Fits := fun f hf => h f (List.mem_cons_of_mem _ hf)
    have hdvd := e.alignedSize_dvd
    have hsize := e.size_le_alignedSize
    rw [encodeLog_cons, List.length_append, Entry.length_encode] at hc
    by_cases hle : e.size ≤ c
    · -- A cut on a sector boundary past the body is past the padding too.
      have hpast : e.alignedSize ≤ c := by
        unfold Entry.alignedSize align at hc hsize ⊢
        omega
      have hc' : 512 ∣ min (c - e.alignedSize) (encodeLog es).length := by
        have hmin : min (c - e.alignedSize) (encodeLog es).length =
            min c (e.alignedSize + (encodeLog es).length) - e.alignedSize := by omega
        rw [hmin]
        exact Nat.dvd_sub hc hdvd
      obtain ⟨htail, hscan⟩ := ih hrest (c - e.alignedSize) hc'
      rw [tornTail_cons_of_le hle, intactRecords, if_pos hle]
      refine ⟨htail, ?_⟩
      rw [encodeLog_cons, List.take_append, List.take_of_length_le (by simpa using hpast),
        Entry.length_encode, List.append_assoc, scan_encode_append hfits, hscan, List.cons_append]
    · have hlt := Nat.lt_of_not_le hle
      have htake : (encodeLog (e :: es)).take c = e.body.take c := by
        rw [encodeLog_cons, Entry.encode, List.append_assoc,
          List.take_append_of_le_length (by simpa using hlt.le)]
      rw [tornTail_cons_of_lt hlt, intactRecords, if_neg hle, htake]
      refine ⟨?_, rfl⟩
      rw [List.length_take, Entry.length_body, Nat.min_eq_left hlt.le]
      rwa [Nat.min_eq_left (by omega)] at hc

/-- What appending to a cut log should achieve: every record of the truncated log
that was intact and every new record is recovered, and all new offsets are aligned. -/
def AppendRecovered (es : List Entry) (c : ℕ) (fs : List Entry) : Prop :=
  let file := (encodeLog es).take c
  recover (appendRecords file (resumeOffset file) fs) = .ok (intactRecords es c ++ fs) ∧
    ∀ o ∈ assignedOffsets (resumeOffset file) fs, 512 ∣ o

/-- The condition on the cut and on the surviving bytes: the final file is within the
recovery limit, the writer resumes on a sector boundary if it writes at all, and no
sector of the torn record begins, in the final file, with a complete record. -/
def CleanCut (es : List Entry) (c : ℕ) (fs : List Entry) : Prop :=
  min c (encodeLog es).length + (encodeLog fs).length ≤ maxRecoveryBytes ∧
  (fs = [] ∨ 512 ∣ min c (encodeLog es).length) ∧
  ∀ i, 512 * i < (tornTail es c).length → ∀ e : Entry, e.Fits →
    ¬ e.body <+: (tornTail es c ++ encodeLog fs).drop (512 * i)

/-- A cut log is appended to without loss when the cut is clean; the limit and the
sector boundary are also necessary. -/
theorem appendRecovered_of_cleanCut {es fs : List Entry} (hes : ∀ e ∈ es, e.Fits)
    (hfs : ∀ e ∈ fs, e.Fits) (c : ℕ) :
    (CleanCut es c fs → AppendRecovered es c fs) ∧
    (AppendRecovered es c fs →
      min c (encodeLog es).length + (encodeLog fs).length ≤ maxRecoveryBytes ∧
      (fs = [] ∨ 512 ∣ min c (encodeLog es).length)) := by
  have hresume : resumeOffset ((encodeLog es).take c) = min c (encodeLog es).length :=
    List.length_take
  have hlength : ((encodeLog es).take c ++ encodeLog fs).length =
      min c (encodeLog es).length + (encodeLog fs).length := by simp
  constructor
  · rintro ⟨hmax, halign, hclean⟩
    rw [AppendRecovered, appendRecords_resume, recover_ok_iff, hlength, hresume]
    refine ⟨⟨hmax, ?_⟩, ?_⟩
    · rcases halign with rfl | hdvd
      · -- Nothing appended: the first sector of the torn record cannot be accepted.
        rw [encodeLog_nil, List.append_nil, scan_take_encodeLog hes, List.append_nil,
          List.append_right_eq_self, scan_eq_nil_iff]
        intro i e hfits hpre
        rw [List.drop_drop, show 512 + 512 * i = 512 * (i + 1) by ring] at hpre
        have hin : 512 * (i + 1) < (tornTail es c).length := by
          have hlen := hpre.length_le
          have hpos := e.size_pos
          rw [Entry.length_body, List.length_drop] at hlen
          omega
        exact hclean (i + 1) hin e hfits (by simpa using hpre)
      · obtain ⟨⟨k, hk⟩, hscan⟩ := scan_take_encodeLog_append hes c hdvd (encodeLog fs)
        rw [hscan, scan_append_of_no_record k _ _ hk, scan_encodeLog hfs]
        intro i hi e hfits
        exact hclean i (by omega) e hfits
    · rcases halign with rfl | hdvd
      · simp [assignedOffsets]
      · exact assignedOffsets_dvd hdvd fs
  · rintro ⟨hrec, hoff⟩
    rw [appendRecords_resume, recover_ok_iff, hlength] at hrec
    refine ⟨hrec.1, ?_⟩
    cases fs with
    | nil => exact .inl rfl
    | cons f fs =>
      right
      rw [hresume] at hoff
      exact hoff _ List.mem_cons_self

/-- The cut loses only padding, and the record appended afterwards is lost. -/
theorem not_appendRecovered_in_padding :
    ¬ AppendRecovered [⟨.put, [1], [2]⟩] 100 [⟨.put, [3], [4]⟩] := by
  rintro ⟨-, hoff⟩
  exact absurd (hoff 100 (by decide +kernel)) (by decide)

theorem appendRecovered_on_boundary :
    AppendRecovered [⟨.put, [1], [2]⟩] 512 [⟨.put, [3], [4]⟩] := by
  refine (@appendRecovered_of_cleanCut [⟨.put, [1], [2]⟩] [⟨.put, [3], [4]⟩] (by decide) (by decide) 512).1 ?_
  refine ⟨by decide +kernel, .inr (by decide +kernel), ?_⟩
  intro i hi
  have htail : (tornTail [⟨.put, [1], [2]⟩] 512).length = 0 := by decide +kernel
  omega

end LsmTree.Wal
