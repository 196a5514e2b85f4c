import LsmTree.TableShortRead

/-!
# Two decoders for damaged data

`readAll` and an iterator decode the data section of a table with the same reads.
`readAll` refuses a length that is larger than the file; the iterator takes every length
as it is, hands out an entry filled up with zeros and has no way to report an error. Both
walk from entry to entry by the lengths they find. As long as no length on this walk is
larger than the file they decode the same entries; where one is, `readAll` throws and the
iterator does not.
-/

namespace LsmTree.Table
open LittleEndian LayeredMap ByteStream IStream

/-! ### The walk over the entries -/

/-- The key length in the bytes of an entry; bytes that are missing are zero. -/
def keyLength (bs : Bytes) : ℕ := leNat (zeroFilled 4 (bs.drop 1))

def valueLength (bs : Bytes) : ℕ := leNat (zeroFilled 4 (bs.drop (5 + keyLength bs)))

/-- The offsets at which entries are read, from `start` on: each is where the lengths of the entry
before say that it ends, unless the file ends first. -/
inductive EntryStart (file : Bytes) (limit start : ℕ) : ℕ → Prop
  | start : EntryStart file limit start start
  | next {p : ℕ} (h : EntryStart file limit start p) (hlt : p < limit)
      (hfit : p + decodedSize (file.drop p) ≤ file.length) :
      EntryStart file limit start (p + decodedSize (file.drop p))

/-- No length on the walk is larger than a bound. -/
def LengthsWithin (maxLen : ℕ) (file : Bytes) (limit start : ℕ) : Prop :=
  ∀ p, EntryStart file limit start p → p < limit → p < file.length →
    keyLength (file.drop p) ≤ maxLen ∧ valueLength (file.drop p) ≤ maxLen

/-- No length on the walk is larger than the file. -/
def LengthsFit (file : Bytes) (limit start : ℕ) : Prop :=
  ∀ p, EntryStart file limit start p → p < limit → p < file.length →
    keyLength (file.drop p) ≤ file.length ∧ valueLength (file.drop p) ≤ file.length

theorem decodedSize_eq (bs : Bytes) : decodedSize bs = 9 + keyLength bs + valueLength bs := rfl

/-- The first step of a walk. -/
theorem EntryStart.head {file : Bytes} {limit start p : ℕ} (h : EntryStart file limit start p) :
    p = start ∨ start < limit ∧ start + decodedSize (file.drop start) ≤ file.length ∧
      EntryStart file limit (start + decodedSize (file.drop start)) p := by
  induction h with
  | start => exact .inl rfl
  | @next p _ hlt hfit ih =>
    rcases ih with rfl | ⟨hstart, hstartFit, hrest⟩
    · exact .inr ⟨hlt, hfit, .start⟩
    · exact .inr ⟨hstart, hstartFit, hrest.next hlt hfit⟩

theorem EntryStart.cons {file : Bytes} {limit start p : ℕ} (hlt : start < limit)
    (hfit : start + decodedSize (file.drop start) ≤ file.length)
    (h : EntryStart file limit (start + decodedSize (file.drop start)) p) : EntryStart file limit start p := by
  induction h with
  | start => exact .next .start hlt hfit
  | next _ hlt' hfit' ih => exact .next ih hlt' hfit'

theorem lengthsWithin_iff {maxLen : ℕ} {file : Bytes} {limit start : ℕ} (hlt : start < limit)
    (hfile : start < file.length) :
    LengthsWithin maxLen file limit start ↔
      keyLength (file.drop start) ≤ maxLen ∧ valueLength (file.drop start) ≤ maxLen ∧
      (start + decodedSize (file.drop start) ≤ file.length →
        LengthsWithin maxLen file limit (start + decodedSize (file.drop start))) := by
  constructor
  · intro h
    obtain ⟨hkey, hvalue⟩ := h start .start hlt hfile
    refine ⟨hkey, hvalue, ?_⟩
    intro hfit p hp
    exact h p (.cons hlt hfit hp)
  · rintro ⟨hkey, hvalue, hrest⟩ p hp hplt hpfile
    rcases hp.head with rfl | ⟨-, hfit, hp⟩
    · exact ⟨hkey, hvalue⟩
    · exact hrest hfit p hp hplt hpfile

theorem lengthsWithin_of_end {maxLen : ℕ} {file : Bytes} {limit start : ℕ}
    (h : ¬ (start < limit ∧ start < file.length)) :
    LengthsWithin maxLen file limit start := by
  intro p hp hlt hfile
  rcases hp.head with rfl | ⟨hstart, hfit, -⟩
  · exact absurd ⟨hlt, hfile⟩ h
  · rw [decodedSize_eq] at hfit
    exact absurd ⟨hstart, by omega⟩ h

/-! ### One entry -/

/-- The length fields as a stream delivers them. -/
theorem lengths_left {s : IStream} {bs : Bytes} (h : s.Left bs) :
    (readUint32 (s.read 1).2).1 = keyLength bs ∧
    (readUint32 ((readUint32 (s.read 1).2).2.read (keyLength bs)).2).1 = valueLength bs := by
  obtain ⟨-, h₁⟩ := h.read 1
  obtain ⟨hkl, h₂⟩ := h₁.read 4
  obtain ⟨-, h₃⟩ := h₂.read (keyLength bs)
  obtain ⟨hvl, -⟩ := h₃.read 4
  simp only [List.drop_drop] at hvl
  constructor
  · simp only [readUint32, hkl, keyLength]
  · simp only [readUint32, hvl, valueLength]

/-- `readEntry` checks the two lengths and otherwise reads what the iterator reads. -/
theorem readEntry_left {s : IStream} {bs : Bytes} (h : s.Left bs) (maxLen : ℕ) :
    readEntry maxLen s =
      if maxLen < keyLength bs then .error (.stringTooLong (keyLength bs) maxLen)
      else if maxLen < valueLength bs then .error (.stringTooLong (valueLength bs) maxLen)
      else .ok (TableIterator.decode s) := by
  obtain ⟨hkey, hvalue⟩ := lengths_left h
  rw [readEntry]
  simp only [readString, hkey]
  by_cases hklt : maxLen < keyLength bs
  · simp only [if_pos hklt]
  · simp only [if_neg hklt, hvalue]
    by_cases hvlt : maxLen < valueLength bs
    · simp only [if_pos hvlt]
    · simp only [if_neg hvlt, TableIterator.decode, hkey, hvalue]

/-- A stream after an entry. -/
theorem after_decode {s : IStream} (hgood : s.failed = false) (hpos : s.pos ≤ s.data.length) :
    s.After (decodedSize (s.data.drop s.pos)) (TableIterator.decode s).2 := by
  have hleft : s.Left (s.data.drop s.pos) := by simp [Left, hgood]
  obtain ⟨hkey, hvalue⟩ := lengths_left hleft
  have hafter := (((((after_zero hgood hpos).read 1).read 4).read (keyLength (s.data.drop s.pos))).read 4).read
    (valueLength (s.data.drop s.pos))
  have hsize : 0 + 1 + 4 + keyLength (s.data.drop s.pos) + 4 + valueLength (s.data.drop s.pos) =
      decodedSize (s.data.drop s.pos) := by
    rw [decodedSize_eq]
    omega
  rw [hsize] at hafter
  simp only [TableIterator.decode, hkey, hvalue]
  exact hafter

/-! ### Draining an iterator -/

/-- What the loop over an iterator comes to. Nothing in `advance` reports an error. -/
inductive TableIterator.Drains : TableIterator → Except ReadError (List Entry) → Prop
  | done {it : TableIterator} (h : it.current = none) : Drains it (.ok [])
  | next {it : TableIterator} {e : Entry} {r : Except ReadError (List Entry)} (h : it.current = some e)
      (hrest : Drains it.advance r) : Drains it (r.map (e :: ·))

theorem TableIterator.Yields.drains {it : TableIterator} {es : List Entry} (h : it.Yields es) :
    it.Drains (.ok es) := by
  induction es generalizing it with
  | nil => exact .done h
  | cons e es ih => exact .next h.1 (ih h.2)

theorem TableIterator.not_drains_error {it : TableIterator} {err : ReadError} : ¬ it.Drains (.error err) := by
  generalize hr : (Except.error err : Except ReadError (List Entry)) = r
  intro h
  induction h with
  | done h => cases hr
  | @next it e r h _ ih =>
    cases r with
    | error err' =>
      apply ih
      simpa [Except.map] using hr
    | ok es => cases hr

/-! ### The two loops -/

theorem readEntries_of_end {s : IStream} {limit : ℕ} (h : ¬ (s.Below limit ∧ s.More)) (maxLen fuel : ℕ) :
    readEntries maxLen limit fuel s = .ok [] := by
  cases fuel with
  | zero => rfl
  | succ fuel => rw [readEntries, if_neg h]

theorem advance_of_end {s : IStream} {limit : ℕ} (h : ¬ (s.Below limit ∧ s.More)) (current : Option Entry) :
    (TableIterator.advance ⟨some s, limit, current⟩).Yields [] := by
  simp [TableIterator.advance, TableIterator.Yields, h]

theorem not_below_of_failed {s : IStream} (h : s.failed = true) (limit : ℕ) : ¬ (s.Below limit ∧ s.More) := by
  simp [Below, h]

theorem readEntry_of_good {s : IStream} (hgood : s.failed = false) (maxLen : ℕ) :
    readEntry maxLen s =
      if maxLen < keyLength (s.data.drop s.pos) then .error (.stringTooLong (keyLength (s.data.drop s.pos)) maxLen)
      else if maxLen < valueLength (s.data.drop s.pos) then
        .error (.stringTooLong (valueLength (s.data.drop s.pos)) maxLen)
      else .ok (TableIterator.decode s) :=
  readEntry_left (by simp [Left, hgood]) maxLen

/-- While the lengths are within the bound, `readAll` returns the entries that the iterator hands out. -/
theorem readEntries_of_lengthsWithin {s : IStream} {maxLen limit fuel : ℕ} (current : Option Entry)
    (hgood : s.failed = false) (hpos : s.pos ≤ s.data.length) (hfuel : s.data.length < s.pos + fuel)
    (hfit : LengthsWithin maxLen s.data limit s.pos) :
    ∃ es, readEntries maxLen limit fuel s = .ok es ∧
      (TableIterator.advance ⟨some s, limit, current⟩).Yields es := by
  induction fuel generalizing s current with
  | zero => omega
  | succ fuel ih =>
    by_cases hmore : s.Below limit ∧ s.More
    · obtain ⟨hkey, hvalue, hrest⟩ := (lengthsWithin_iff hmore.1.2 hmore.2.2).mp hfit
      have hread : readEntry maxLen s = .ok (TableIterator.decode s) := by
        rw [readEntry_of_good hgood, if_neg (by omega), if_neg (by omega)]
      have hafter := after_decode hgood hpos
      have hadvance : TableIterator.advance ⟨some s, limit, current⟩ =
          ⟨some (TableIterator.decode s).2, limit, some (TableIterator.decode s).1⟩ := by
        simp [TableIterator.advance, hmore]
      rw [hadvance, readEntries, if_pos hmore, hread]
      by_cases hend : s.pos + decodedSize (s.data.drop s.pos) ≤ s.data.length
      · obtain ⟨hgood', hpos'⟩ := hafter.good hend
        have hdata := hafter.data
        have hsize := decodedSize_eq (s.data.drop s.pos)
        obtain ⟨es, hes, hyields⟩ := ih (some (TableIterator.decode s).1) hgood' (by rw [hdata, hpos']; exact hend)
          (by rw [hdata, hpos']; omega) (by rw [hdata, hpos']; exact hrest hend)
        exact ⟨(TableIterator.decode s).1 :: es, by simp only [hes], rfl, hyields⟩
      · -- The entry was cut off by the end of the file; it is the last one for both.
        have hstop := not_below_of_failed (hafter.short (by omega)) limit
        exact ⟨[(TableIterator.decode s).1], by simp only [readEntries_of_end hstop], rfl, advance_of_end hstop _⟩
    · exact ⟨[], readEntries_of_end hmore _ _, advance_of_end hmore current⟩

/-- Where a length is not within the bound, `readAll` throws and says so. -/
theorem readEntries_of_not_lengthsWithin {s : IStream} {maxLen limit fuel : ℕ} (hgood : s.failed = false)
    (hpos : s.pos ≤ s.data.length) (hfuel : s.data.length < s.pos + fuel)
    (hfit : ¬ LengthsWithin maxLen s.data limit s.pos) :
    ∃ len, readEntries maxLen limit fuel s = .error (.stringTooLong len maxLen) := by
  induction fuel generalizing s with
  | zero => omega
  | succ fuel ih =>
    by_cases hmore : s.Below limit ∧ s.More
    · rw [lengthsWithin_iff hmore.1.2 hmore.2.2] at hfit
      rw [readEntries, if_pos hmore, readEntry_of_good hgood]
      by_cases hkey : maxLen < keyLength (s.data.drop s.pos)
      · exact ⟨_, by simp only [if_pos hkey]; rfl⟩
      by_cases hvalue : maxLen < valueLength (s.data.drop s.pos)
      · exact ⟨_, by simp only [if_neg hkey, if_pos hvalue]; rfl⟩
      have hafter := after_decode hgood hpos
      have hsize := decodedSize_eq (s.data.drop s.pos)
      push Not at hfit
      obtain ⟨hend, hrest⟩ := hfit (by omega) (by omega)
      obtain ⟨hgood', hpos'⟩ := hafter.good hend
      have hdata := hafter.data
      obtain ⟨len, herr⟩ := ih hgood' (by rw [hdata, hpos']; exact hend) (by rw [hdata, hpos']; omega)
        (by rw [hdata, hpos']; exact hrest)
      exact ⟨len, by simp only [if_neg hkey, if_neg hvalue, herr]⟩
    · have hend : ¬ (s.pos < limit ∧ s.pos < s.data.length) := by
        rintro ⟨hlt, hfile⟩
        exact hmore ⟨⟨hgood, hlt⟩, hgood, hfile⟩
      exact absurd (lengthsWithin_of_end hend) hfit

/-! ### Tables -/

/-- What the constructor keeps of the file and its footer. -/
theorem openTable_file {file : Bytes} {t : OpenTable} (h : openTable file = .ok t) :
    t.file = file ∧ t.fileSize = file.length ∧ 16 ≤ file.length ∧
      t.indexOffset = (readUint64 ((ofFile file).seekEnd 16)).1 := by
  rw [openTable] at h
  by_cases hsize : file.length < 16
  · rw [if_pos hsize] at h
    cases h
  rw [if_neg hsize] at h
  simp only at h
  split at h
  · cases h
  split at h
  · cases h
  split at h
  · cases h
  split at h
  · cases h
  split at h
  · cases h
  cases h
  exact ⟨rfl, rfl, Nat.le_of_not_lt hsize, rfl⟩

/-- After the footer has been read, the stream of `readAll` goes back to the start of the file. -/
theorem seekg_start {file : Bytes} (h : 16 ≤ file.length) :
    (readUint64 ((ofFile file).seekEnd 16)).2.seekg 0 = ofFile file := by
  have hseek : (ofFile file).seekEnd 16 = ⟨file, file.length - 16, false⟩ := by simp [ofFile, seekEnd, h]
  have hafter := (after_zero (s := (ofFile file).seekEnd 16) (by rw [hseek]) (by rw [hseek]; simp)).read 8
  obtain ⟨hgood, -⟩ := hafter.good (by rw [hseek]; simp only; omega)
  rw [readUint64, seekg_of_lt hgood (by decide), hafter.data, hseek]
  rfl

/-- The iterator over a table delivers what `readAll` returns, and an error where `readAll` throws. -/
def DecodersAgree (t : OpenTable) : Prop :=
  (∀ es, t.readAll = .ok es → t.createIterator.Drains (.ok es)) ∧
  ∀ err, t.readAll = .error err → ∃ err', t.createIterator.Drains (.error err')

section Open
variable {file : Bytes} {t : OpenTable}

theorem readAll_eq_readEntries (h : openTable file = .ok t) :
    t.readAll = readEntries file.length t.indexOffset (file.length + 1) (ofFile file) := by
  obtain ⟨hfile, hsize, hlen, hindex⟩ := openTable_file h
  rw [OpenTable.readAll, hfile, hsize, seekg_start hlen, ← hindex]

theorem createIterator_eq_advance (h : openTable file = .ok t) :
    t.createIterator = TableIterator.advance ⟨some (ofFile file), t.indexOffset, none⟩ := by
  obtain ⟨hfile, -⟩ := openTable_file h
  rw [OpenTable.createIterator, OpenTable.iterateOn, hfile]
  rfl

theorem readAll_throws (h : openTable file = .ok t) (hfit : ¬ LengthsFit file t.indexOffset 0) :
    ∃ err, t.readAll = .error err := by
  rw [readAll_eq_readEntries h]
  have hfuel : (ofFile file).data.length < (ofFile file).pos + (file.length + 1) := by
    simp only [ofFile]
    omega
  obtain ⟨len, herr⟩ := readEntries_of_not_lengthsWithin rfl (Nat.zero_le _) hfuel hfit
  exact ⟨_, herr⟩

/-- Whatever is in the data section of a table that opens, its two decoders agree exactly if no
length on the walk over the entries is larger than the file. -/
theorem decoders_agree_iff (h : openTable file = .ok t) :
    DecodersAgree t ↔ LengthsFit file t.indexOffset 0 := by
  constructor
  · intro hagree
    by_contra hfit
    obtain ⟨err, herr⟩ := readAll_throws h hfit
    obtain ⟨err', hdrains⟩ := hagree.2 err herr
    exact TableIterator.not_drains_error hdrains
  · intro hfit
    have hfuel : (ofFile file).data.length < (ofFile file).pos + (file.length + 1) := by
      simp only [ofFile]
      omega
    obtain ⟨es, hread, hyields⟩ := readEntries_of_lengthsWithin none rfl (Nat.zero_le _) hfuel hfit
    have hall : t.readAll = .ok es := (readAll_eq_readEntries h).trans hread
    rw [← createIterator_eq_advance h] at hyields
    constructor
    · intro es' hes'
      rw [hall] at hes'
      cases hes'
      exact hyields.drains
    · intro err herr
      rw [hall] at herr
      cases herr

end Open

/-- A file that opens, with no index entries, whose data section is one key length of 200. -/
def damagedLength : Bytes :=
  [0, 200, 0, 0, 0] ++ (leBytes 4 0 ++ (leBytes 8 8 ++ (leBytes 8 0 ++ encodeFooter 5 9)))

theorem openTable_damagedLength : ∃ t, openTable damagedLength = .ok t ∧ t.indexOffset = 5 := by
  have hopens : (match openTable damagedLength with | .ok t => t.indexOffset | .error _ => 0) = 5 := by
    decide +kernel
  split at hopens
  · exact ⟨_, by assumption, hopens⟩
  · cases hopens

/-- `readAll` throws, and the iterator hands out an entry with a key of 200 bytes: those that follow in the
file, and zeros. -/
theorem decoders_disagree_damagedLength : ∃ t, openTable damagedLength = .ok t ∧ ¬ DecodersAgree t := by
  obtain ⟨t, hopen, hindex⟩ := openTable_damagedLength
  refine ⟨t, hopen, ?_⟩
  have hfit : ¬ LengthsFit damagedLength t.indexOffset 0 := by
    intro h
    have hkey := (h 0 .start (by rw [hindex]; decide) (by decide)).1
    revert hkey
    decide
  intro hagree
  obtain ⟨err, herr⟩ := readAll_throws hopen hfit
  obtain ⟨err', hdrains⟩ := hagree.2 err herr
  exact TableIterator.not_drains_error hdrains

/-- The same with an entry of one byte in its data section whose value length has become 2. Both decoders
take the first byte of the index for the other one. -/
def damagedValue : Bytes :=
  [0, 1, 0, 0, 0, 1, 2, 0, 0, 0, 5] ++ (leBytes 4 0 ++ (leBytes 8 8 ++ (leBytes 8 0 ++ encodeFooter 11 15)))

theorem decoders_agree_damagedValue : ∃ t, openTable damagedValue = .ok t ∧ DecodersAgree t := by
  have hopens : (match openTable damagedValue with | .ok t => t.indexOffset | .error _ => 0) = 11 := by
    decide +kernel
  split at hopens
  · rename_i t hopen
    refine ⟨t, hopen, (decoders_agree_iff hopen).mpr ?_⟩
    rw [hopens]
    exact (lengthsWithin_iff (by decide) (by decide)).mpr
      ⟨by decide, by decide, fun _ => lengthsWithin_of_end (by decide)⟩
  · cases hopens

end LsmTree.Table
