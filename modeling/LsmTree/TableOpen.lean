import LsmTree.TableDecoders

/-!
# Opening an arbitrary file

The constructor of `SSTable` bounds every number it takes from a file before it uses it:
the offsets by the size of the file, the index count by the room for the index, the length
of a string by the size of the file, and the number of filter blocks by what is left of
the file. The numbers of the filter are read into variables without an initial value,
though. If the sixteen bytes of the two are not all there, or the stream has failed while
the index was read, the bound is computed from the position of a failed stream and the
block count is whatever the variable held.

A number that has passed its check is not yet a number of bytes. An index entry takes at
least twelve bytes in the file and forty in memory, a filter begins with one block even if
the file has none for it, and a string is allocated with its terminator.
-/

namespace LsmTree.Table
open LittleEndian LayeredMap ByteStream IStream

/-- A file; its size is a file offset. -/
structure StoredFile where
  bytes : Bytes
  size_lt : bytes.length < offsetLimit

/-! ### What the file says -/

/-- The first number of the footer. -/
def indexOffset (file : Bytes) : ℕ := leNat ((file.drop (file.length - 16)).take 8)

/-- The second number of the footer. -/
def bloomOffset (file : Bytes) : ℕ := leNat ((file.drop (file.length - 8)).take 8)

def indexCount (file : Bytes) : ℕ := leNat (zeroFilled 4 (file.drop (indexOffset file)))

/-- The file is too small for a footer, or the footer points outside or has its offsets the wrong
way round. -/
def BadFooter (file : Bytes) : Prop :=
  file.length < 16 ∨ file.length < indexOffset file ∨ file.length < bloomOffset file ∨
    bloomOffset file < indexOffset file

instance (file : Bytes) : Decidable (BadFooter file) := inferInstanceAs (Decidable (_ ∨ _ ∨ _ ∨ _))

/-- The index has more entries than there is room for. -/
def BadCount (file : Bytes) : Prop := (bloomOffset file - indexOffset file - 4) / 12 < indexCount file

instance (file : Bytes) : Decidable (BadCount file) := inferInstanceAs (Decidable (_ < _))

/-- The numbers of the filter. -/
def storedHashes (file : Bytes) : ℕ := leNat ((file.drop (bloomOffset file)).take 8)

def storedBlocks (file : Bytes) : ℕ := leNat ((file.drop (bloomOffset file + 8)).take 8)

inductive IndexWalk where
  | inside | tooLong | pastEnd
  deriving DecidableEq

/-- Where a walk over index entries gets by their key lengths: through all of them, to a length
larger than the file, or past the end of the file. -/
def indexWalk (file : Bytes) : ℕ → ℕ → IndexWalk
  | 0, _ => .inside
  | n + 1, p =>
    let len := leNat (zeroFilled 4 (file.drop p))
    if file.length < len then .tooLong
    else if file.length < p + (12 + len) then .pastEnd
    else indexWalk file n (p + (12 + len))

/-- The file is rejected before its filter is read, or the index ends inside the file and the two
numbers of the filter are there. -/
def FilterReached (file : Bytes) : Prop :=
  BadFooter file ∨ BadCount file ∨ indexWalk file (indexCount file) (indexOffset file + 4) = .tooLong ∨
  (indexWalk file (indexCount file) (indexOffset file + 4) = .inside ∧ bloomOffset file + 16 ≤ file.length)

/-- What is left for the blocks of the filter holds as many as the file says. -/
def BlocksFit (file : Bytes) : Prop :=
  storedBlocks file ≤
    (if bloomOffset file + 16 + 16 ≤ file.length then file.length - (bloomOffset file + 16) - 16 else 0) / 64

/-- The offset in the last of the index entries from `p` on. -/
def lastOffset (file : Bytes) : ℕ → ℕ → ℕ
  | 0, _ => 0
  | 1, p => leNat ((file.drop (p + 4 + leNat (zeroFilled 4 (file.drop p)))).take 8)
  | n + 2, p => lastOffset file (n + 1) (p + (12 + leNat (zeroFilled 4 (file.drop p))))

/-- No string on the walk over a block has the length of the file; the value is read only if the key
is not longer than the file. -/
def NoWholeFileString (file : Bytes) (limit start : ℕ) : Prop :=
  ∀ p, EntryStart file limit start p → p < limit →
    keyLength (file.drop p) ≠ file.length ∧
      (keyLength (file.drop p) ≤ file.length → valueLength (file.drop p) ≠ file.length)

/-- What the constructor asks for fits into the file: forty bytes for each entry of the index, the one
block that every filter begins with, and the strings of the last block with their terminators. -/
def RequestsFit (file : Bytes) : Prop :=
  BadFooter file ∨ BadCount file ∨
  (40 * indexCount file ≤ file.length ∧
    (indexWalk file (indexCount file) (indexOffset file + 4) = .inside → BlocksFit file →
      (storedBlocks file = 0 → 64 ≤ file.length) ∧
      (indexCount file ≠ 0 →
        NoWholeFileString file (indexOffset file) (lastOffset file (indexCount file) (indexOffset file + 4)))))

/-! ### The bytes the constructor asks for -/

/-- A string of up to fifteen bytes lies in its object; a longer one is allocated with its
terminator. -/
def stringRequest (len : ℕ) : List ℕ := if len ≤ 15 then [] else [len + 1]

/-- What the string that `readString` makes asks for. -/
def readStringSizes (maxLen : ℕ) (s : IStream) : List ℕ :=
  let len := readUint32 s
  if maxLen < len.1 then [] else stringRequest len.1

def readEntrySizes (maxLen : ℕ) (s : IStream) : List ℕ :=
  let t := s.read 1
  readStringSizes maxLen t.2 ++
    match readString maxLen t.2 with
    | .error _ => []
    | .ok key => readStringSizes maxLen key.2

def readIndexSizes (maxLen : ℕ) : ℕ → IStream → List ℕ
  | 0, _ => []
  | n + 1, s =>
    readStringSizes maxLen s ++
      match readString maxLen s with
      | .error _ => []
      | .ok key => readIndexSizes maxLen n (readUint64 key.2).2

/-- The buffer, the block of the filter that `deserialize` begins with and the blocks it resizes the
filter to, if `deserializeBloom` gets there. -/
def bloomSizes (s : IStream) : List ℕ :=
  match deserializeBloom s with
  | .error _ => []
  | .ok bloom => [(readUint64 (readUint64 s).2).1 * 64, 64, bloom.1.numBlocks * 64]

def lastEntrySizes (maxLen limit : ℕ) : ℕ → IStream → List ℕ
  | 0, _ => []
  | fuel + 1, s =>
    if s.Below limit then
      readEntrySizes maxLen s ++
        match readEntry maxLen s with
        | .error _ => []
        | .ok next => lastEntrySizes maxLen limit fuel next.2
    else []

/-- The bytes that the constructor asks for, as far as it gets: for `index_`, whose entries are a
string object of 32 bytes and an offset of eight, for every string, and for the buffer and the blocks of
the filter. -/
def openSizes (file : Bytes) : List ℕ :=
  if BadFooter file then []
  else
    let count := readUint32 ((ofFile file).seekg (indexOffset file))
    if BadCount file then []
    else
      count.1 * 40 :: (readIndexSizes file.length count.1 count.2 ++
        match readIndex file.length count.1 count.2 with
        | .error _ => []
        | .ok idx =>
          bloomSizes (idx.2.seekg (bloomOffset file)) ++
            match deserializeBloom (idx.2.seekg (bloomOffset file)), idx.1 with
            | .ok bloom, first :: rest =>
              lastEntrySizes file.length (indexOffset file) (file.length + 1)
                (bloom.2.seekg (rest.getLastD first).2)
            | _, _ => [])

/-- What the constructor does is bounded by the file. -/
structure BoundedOpen (file : Bytes) : Prop where
  determined : openTable file ≠ .error .undetermined
  sizes : ∀ n ∈ openSizes file, n ≤ file.length
  index : ∀ t, openTable file = .ok t →
    t.index.length = 0 ∨ 4 + 12 * t.index.length ≤ bloomOffset file - indexOffset file
  keys : ∀ t, openTable file = .ok t → ∀ p ∈ t.index, p.1.size ≤ file.length
  filter : ∀ t, openTable file = .ok t →
    bloomOffset file + 16 ≤ file.length ∧ storedBlocks file * 64 ≤ file.length ∧
      ∃ data, t.bloom = BloomFilter.deserialize (storedBlocks file) (storedHashes file) data

/-! ### Sizes -/

section Sizes

/-- A table file is not smaller than a footer. -/
theorem forall_stringRequest {len n : ℕ} (h : 16 ≤ n) : (∀ m ∈ stringRequest len, m ≤ n) ↔ len < n := by
  rw [stringRequest]
  split_ifs with hlen
  · simp only [List.not_mem_nil, false_implies, implies_true, true_iff]
    omega
  · simp only [List.mem_singleton, forall_eq]
    omega

variable {s : IStream}

theorem readEntrySizes_iff (hgood : s.failed = false) (hsize : 16 ≤ s.data.length) :
    (∀ m ∈ readEntrySizes s.data.length s, m ≤ s.data.length) ↔
      keyLength (s.data.drop s.pos) ≠ s.data.length ∧
        (keyLength (s.data.drop s.pos) ≤ s.data.length → valueLength (s.data.drop s.pos) ≠ s.data.length) := by
  obtain ⟨hkey, hvalue⟩ := @lengths_left s (s.data.drop s.pos) (by simp [Left, hgood])
  simp only [readEntrySizes, readStringSizes, readString, hkey]
  by_cases hlong : s.data.length < keyLength (s.data.drop s.pos)
  · simp only [if_pos hlong, List.append_nil, List.not_mem_nil, false_implies, implies_true, true_iff]
    omega
  · simp only [if_neg hlong, hvalue, List.forall_mem_append, forall_stringRequest hsize]
    by_cases hvlong : s.data.length < valueLength (s.data.drop s.pos)
    · simp only [if_pos hvlong, List.not_mem_nil, false_implies, implies_true, and_true]
      omega
    · rw [if_neg hvlong, forall_stringRequest hsize]
      omega

theorem noWholeFileString_iff {file : Bytes} {limit start : ℕ} (hlt : start < limit) :
    NoWholeFileString file limit start ↔
      (keyLength (file.drop start) ≠ file.length ∧
        (keyLength (file.drop start) ≤ file.length → valueLength (file.drop start) ≠ file.length)) ∧
      (start + decodedSize (file.drop start) ≤ file.length →
        NoWholeFileString file limit (start + decodedSize (file.drop start))) := by
  constructor
  · intro h
    exact ⟨h start .start hlt, fun hfit p hp => h p (.cons hlt hfit hp)⟩
  · rintro ⟨hstart, hrest⟩ p hp hplt
    rcases hp.head with rfl | ⟨-, hfit, hp⟩
    · exact hstart
    · exact hrest hfit p hp hplt

theorem noWholeFileString_of_end {file : Bytes} {limit start : ℕ} (h : ¬ start < limit) :
    NoWholeFileString file limit start := by
  intro p hp hlt
  rcases hp.head with rfl | ⟨hstart, -⟩
  · exact absurd hlt h
  · exact absurd hstart h

theorem lastEntrySizes_of_failed {maxLen limit fuel : ℕ} (h : s.failed = true) :
    lastEntrySizes maxLen limit fuel s = [] := by
  cases fuel with
  | zero => rfl
  | succ fuel => rw [lastEntrySizes, if_neg (by simp [Below, h])]

/-- The strings of a block ask for no more than the file holds exactly if none is as long as the
file. -/
theorem lastEntrySizes_iff {limit fuel : ℕ} (hgood : s.failed = false) (hsize : 16 ≤ s.data.length)
    (hlimit : limit ≤ s.data.length) (hfuel : s.data.length < s.pos + fuel) :
    (∀ m ∈ lastEntrySizes s.data.length limit fuel s, m ≤ s.data.length) ↔
      NoWholeFileString s.data limit s.pos := by
  induction fuel generalizing s with
  | zero =>
    have hend : ¬ s.pos < limit := by omega
    simp [lastEntrySizes, noWholeFileString_of_end hend]
  | succ fuel ih =>
    by_cases hlt : s.pos < limit
    · rw [lastEntrySizes, if_pos ⟨hgood, hlt⟩, List.forall_mem_append, readEntrySizes_iff hgood hsize,
        noWholeFileString_iff hlt, readEntry_of_good hgood]
      have hdecoded := decodedSize_eq (s.data.drop s.pos)
      by_cases hkey : s.data.length < keyLength (s.data.drop s.pos)
      · simp only [if_pos hkey, List.not_mem_nil, false_implies, implies_true, and_true]
        exact ⟨fun h => ⟨h, fun hfit => absurd hfit (by omega)⟩, fun h => h.1⟩
      by_cases hvalue : s.data.length < valueLength (s.data.drop s.pos)
      · simp only [if_neg hkey, if_pos hvalue, List.not_mem_nil, false_implies, implies_true, and_true]
        exact ⟨fun h => ⟨h, fun hfit => absurd hfit (by omega)⟩, fun h => h.1⟩
      simp only [if_neg hkey, if_neg hvalue]
      have hafter := after_decode hgood (show s.pos ≤ s.data.length by omega)
      have hdata := hafter.data
      by_cases hfit : s.pos + decodedSize (s.data.drop s.pos) ≤ s.data.length
      · obtain ⟨hgood', hpos'⟩ := hafter.good hfit
        have hrest := ih (s := (TableIterator.decode s).2) hgood' (by rwa [hdata]) (by rwa [hdata])
          (by rw [hdata, hpos']; omega)
        rw [hdata, hpos'] at hrest
        simp only [hrest, hfit, true_implies]
      · -- The entry is cut off by the end of the file, and the failed stream ends the loop.
        simp [lastEntrySizes_of_failed (hafter.short (by omega)), hfit]
    · rw [lastEntrySizes, if_neg (fun h => hlt h.2)]
      simp [noWholeFileString_of_end hlt]

end Sizes

/-! ### Errors -/

section Errors
variable {maxLen : ℕ} {err : ReadError}

theorem readString_error {s : IStream} (h : readString maxLen s = .error err) : err ≠ .undetermined := by
  rw [readString] at h
  split at h
  · cases h
    exact ReadError.noConfusion
  · cases h

theorem readEntry_error {s : IStream} (h : readEntry maxLen s = .error err) : err ≠ .undetermined := by
  rw [readEntry] at h
  split at h
  · cases h
    exact readString_error (by assumption)
  · split at h
    · cases h
      exact readString_error (by assumption)
    · cases h

theorem lastEntry_error {limit fuel : ℕ} {s : IStream} {e : Entry}
    (h : lastEntry maxLen limit fuel s e = .error err) : err ≠ .undetermined := by
  induction fuel generalizing s e with
  | zero => cases h
  | succ fuel ih =>
    rw [lastEntry] at h
    split_ifs at h
    split at h
    · cases h
      exact readEntry_error (by assumption)
    · exact ih h

theorem readIndex_error {count : ℕ} {s : IStream} (h : readIndex maxLen count s = .error err) :
    err ≠ .undetermined := by
  induction count generalizing s with
  | zero => cases h
  | succ count ih =>
    rw [readIndex] at h
    split at h
    · cases h
      exact readString_error (by assumption)
    · simp only at h
      split at h
      · cases h
        exact ih (by assumption)
      · cases h

theorem keyBounds_error {limit : ℕ} {s : IStream} {idx : List (Key × ℕ)}
    (h : keyBounds s maxLen limit idx = .error err) : err ≠ .undetermined := by
  cases idx with
  | nil => cases h
  | cons first rest =>
    rw [keyBounds] at h
    split at h
    · cases h
      exact lastEntry_error (by assumption)
    · cases h

end Errors

/-! ### The index -/

section Index
variable {file : Bytes} {p n : ℕ}

/-- A key and an offset of the index. -/
theorem readString_index (hp : p ≤ file.length) (hlen : leNat (zeroFilled 4 (file.drop p)) ≤ file.length) :
    ∃ key, readString file.length ⟨file, p, false⟩ = .ok key ∧
      IStream.After ⟨file, p, false⟩ (12 + leNat (zeroFilled 4 (file.drop p))) (readUint64 key.2).2 ∧
      (p + (12 + leNat (zeroFilled 4 (file.drop p))) ≤ file.length →
        (readUint64 key.2).1 = leNat ((file.drop (p + 4 + leNat (zeroFilled 4 (file.drop p)))).take 8)) := by
  have hleft : Left ⟨file, p, false⟩ (file.drop p) := by simp [Left]
  obtain ⟨hfour, -⟩ := hleft.read 4
  have hkey := ((after_zero (s := ⟨file, p, false⟩) rfl hp).read 4).read (leNat (zeroFilled 4 (file.drop p)))
  have hafter := hkey.read 8
  rw [show 0 + 4 + leNat (zeroFilled 4 (file.drop p)) + 8 = 12 + leNat (zeroFilled 4 (file.drop p)) by omega]
    at hafter
  refine ⟨_, ?_, hafter, ?_⟩
  · simp only [readString, readUint32, hfour]
    rw [if_neg (Nat.not_lt.mpr hlen)]
  · intro hfit
    rw [hkey.eq_of_le (by simp only; omega), readUint64, read_of_le rfl (by simp only; omega)]
    simp only
    rw [Nat.zero_add, ← Nat.add_assoc]

theorem readString_index_tooLong (hlen : file.length < leNat (zeroFilled 4 (file.drop p))) :
    readString file.length ⟨file, p, false⟩ =
      .error (.stringTooLong (leNat (zeroFilled 4 (file.drop p))) file.length) := by
  have hleft : Left ⟨file, p, false⟩ (file.drop p) := by simp [Left]
  obtain ⟨hfour, -⟩ := hleft.read 4
  simp only [readString, readUint32, hfour]
  rw [if_pos hlen]

theorem readIndex_of_failed {maxLen : ℕ} {s : IStream} (h : s.failed = true) :
    ∃ idx, readIndex maxLen n s = .ok (idx, s) := by
  induction n with
  | zero => exact ⟨[], rfl⟩
  | succ n ih =>
    obtain ⟨idx, hidx⟩ := ih
    have hzero : leNat (List.replicate 4 0) = 0 := by decide
    have hkey : readString maxLen s = .ok ([], s) := by
      simp only [readString, readUint32, read_of_failed h, hzero, Nat.not_lt_zero, if_false, List.replicate_zero]
    exact ⟨_, by simp only [readIndex, hkey, readUint64, read_of_failed h, hidx]; rfl⟩

/-- Where the walk over the key lengths gets decides what `readIndex` comes to. -/
theorem readIndex_of_walk (hp : p ≤ file.length) {w : IndexWalk} (hw : indexWalk file n p = w) :
    match w with
    | .tooLong => ∃ len, readIndex file.length n ⟨file, p, false⟩ = .error (.stringTooLong len file.length)
    | .inside => ∃ idx q, readIndex file.length n ⟨file, p, false⟩ = .ok (idx, ⟨file, q, false⟩)
    | .pastEnd => ∃ idx s, readIndex file.length n ⟨file, p, false⟩ = .ok (idx, s) ∧ s.failed = true := by
  induction n generalizing p w with
  | zero =>
    subst hw
    exact ⟨[], p, rfl⟩
  | succ n ih =>
    rw [indexWalk] at hw
    rw [readIndex]
    simp only at hw ⊢
    by_cases hlen : file.length < leNat (zeroFilled 4 (file.drop p))
    · rw [if_pos hlen] at hw
      subst hw
      rw [readString_index_tooLong hlen]
      exact ⟨_, rfl⟩
    rw [if_neg hlen] at hw
    obtain ⟨key, hkey, hafter, -⟩ := readString_index hp (Nat.le_of_not_lt hlen)
    rw [hkey]
    by_cases hend : file.length < p + (12 + leNat (zeroFilled 4 (file.drop p)))
    · have hfailed := hafter.short hend
      obtain ⟨idx, hidx⟩ : ∃ idx, readIndex file.length n _ = .ok (idx, _) := readIndex_of_failed hfailed
      rw [if_pos hend] at hw
      subst hw
      exact ⟨_, _, by simp only [hidx]; rfl, hfailed⟩
    · have hstream := hafter.eq_of_le (Nat.le_of_not_lt hend)
      rw [if_neg hend] at hw
      simp only [hstream]
      have hrest := ih (Nat.le_of_not_lt hend) hw
      cases w with
      | tooLong =>
        obtain ⟨len, hlen⟩ := hrest
        exact ⟨len, by simp only [hlen]⟩
      | inside =>
        obtain ⟨idx, q, hidx⟩ := hrest
        exact ⟨_, q, by simp only [hidx]; rfl⟩
      | pastEnd =>
        obtain ⟨idx, s, hidx, hfailed⟩ := hrest
        exact ⟨_, s, by simp only [hidx]; rfl, hfailed⟩

theorem readStringSizes_index (hsize : 16 ≤ file.length) :
    (∀ m ∈ readStringSizes file.length ⟨file, p, false⟩, m ≤ file.length) ↔
      leNat (zeroFilled 4 (file.drop p)) ≠ file.length := by
  have hleft : Left ⟨file, p, false⟩ (file.drop p) := by simp [Left]
  obtain ⟨hfour, -⟩ := hleft.read 4
  simp only [readStringSizes, readUint32, hfour]
  split_ifs with hlen
  · simp only [List.not_mem_nil, false_implies, implies_true, true_iff]
    omega
  · rw [forall_stringRequest hsize]
    omega

/-- The strings of an index that ends inside the file, or at a length larger than the file. -/
theorem readIndexSizes_le (hp : p ≤ file.length) (hsize : 16 ≤ file.length) (hw : indexWalk file n p ≠ .pastEnd) :
    ∀ m ∈ readIndexSizes file.length n ⟨file, p, false⟩, m ≤ file.length := by
  induction n generalizing p with
  | zero => simp [readIndexSizes]
  | succ n ih =>
    rw [indexWalk] at hw
    rw [readIndexSizes, List.forall_mem_append, readStringSizes_index hsize]
    by_cases hlen : file.length < leNat (zeroFilled 4 (file.drop p))
    · simp [readString_index_tooLong hlen, Nat.ne_of_gt hlen]
    · rw [if_neg hlen] at hw
      by_cases hend : file.length < p + (12 + leNat (zeroFilled 4 (file.drop p)))
      · exact absurd (if_pos hend) hw
      rw [if_neg hend] at hw
      obtain ⟨key, hkey, hafter, -⟩ := readString_index hp (Nat.le_of_not_lt hlen)
      refine ⟨by omega, ?_⟩
      rw [hkey]
      simp only [hafter.eq_of_le (Nat.le_of_not_lt hend)]
      exact ih (Nat.le_of_not_lt hend) hw

/-- The last block begins where the last entry of the index says. -/
theorem lastOffset_of_readIndex (hp : p ≤ file.length) (hw : indexWalk file n p = .inside) (hn : n ≠ 0)
    {idx : List (Key × ℕ) × IStream} (h : readIndex file.length n ⟨file, p, false⟩ = .ok idx) (e : Key × ℕ) :
    (idx.1.getLastD e).2 = lastOffset file n p := by
  induction n generalizing p idx e with
  | zero => exact absurd rfl hn
  | succ n ih =>
    rw [indexWalk] at hw
    split_ifs at hw with hlen hend
    obtain ⟨key, hkey, hafter, hoffset⟩ := readString_index hp (Nat.le_of_not_lt hlen)
    have hstream := hafter.eq_of_le (Nat.le_of_not_lt hend)
    rw [readIndex, hkey] at h
    simp only [hstream] at h
    split at h
    · cases h
    rename_i rest hrest
    cases h
    rw [List.getLastD_cons]
    cases n with
    | zero =>
      cases hrest
      exact hoffset (Nat.le_of_not_lt hend)
    | succ n => exact ih (Nat.le_of_not_lt hend) hw (Nat.succ_ne_zero n) hrest _

theorem length_readIndex {maxLen : ℕ} {s : IStream} {idx : List (Key × ℕ) × IStream}
    (h : readIndex maxLen n s = .ok idx) : idx.1.length = n := by
  induction n generalizing s idx with
  | zero =>
    cases h
    rfl
  | succ n ih =>
    rw [readIndex] at h
    split at h
    · cases h
    simp only at h
    split at h
    · cases h
    · cases h
      rename_i rest hrest
      exact congrArg (· + 1) (ih hrest)

theorem size_readString {maxLen : ℕ} {s : IStream} {key : Bytes × IStream}
    (h : readString maxLen s = .ok key) : key.1.length ≤ maxLen ∧ key.2.data = s.data := by
  rw [readString] at h
  split at h
  · cases h
  · rename_i hle
    cases h
    exact ⟨by rw [length_read]; omega, by simp [readUint32]⟩

theorem size_readIndex {maxLen : ℕ} {s : IStream} {idx : List (Key × ℕ) × IStream}
    (h : readIndex maxLen n s = .ok idx) : (∀ e ∈ idx.1, e.1.size ≤ maxLen) ∧ idx.2.data = s.data := by
  induction n generalizing s idx with
  | zero =>
    cases h
    exact ⟨fun e he => absurd he List.not_mem_nil, rfl⟩
  | succ n ih =>
    rw [readIndex] at h
    split at h
    · cases h
    rename_i key hkey
    simp only at h
    split at h
    · cases h
    · cases h
      rename_i rest hrest
      obtain ⟨hsize, hdata⟩ := size_readString hkey
      obtain ⟨hsizes, hdatas⟩ := ih hrest
      refine ⟨?_, by rw [hdatas]; simp [readUint64, hdata]⟩
      intro e he
      rcases List.mem_cons.mp he with rfl | he
      · exact hsize
      · exact hsizes e he

end Index

/-! ### The filter -/

section Filter
variable {file : Bytes} {b : ℕ}

theorem readUint64_of_le (hb : b + 8 ≤ file.length) :
    readUint64 ⟨file, b, false⟩ = (leNat ((file.drop b).take 8), ⟨file, b + 8, false⟩) := by
  rw [readUint64, read_of_le rfl hb]
  rfl

/-- A filter that is deserialized was there to be read. -/
theorem seekg_of_deserializeBloom {s : IStream} {r : BloomFilter × IStream} (hdata : s.data = file)
    (hb : b < offsetLimit) (h : deserializeBloom (s.seekg b) = .ok r) :
    s.seekg b = ⟨file, b, false⟩ ∧ b + 16 ≤ file.length := by
  rw [deserializeBloom] at h
  split at h
  · cases h
  rename_i havail
  by_cases hfailed : s.failed = true
  · simp [seekg_of_failed hfailed, available, hfailed] at havail
  · have hseek := seekg_of_lt (Bool.eq_false_iff.mpr hfailed) hb
    rw [hdata] at hseek
    rw [hseek] at havail ⊢
    simp only [available, Bool.false_eq_true, if_false, List.length_take, List.length_drop] at havail
    exact ⟨rfl, by omega⟩

theorem deserializeBloom_of_not_blocksFit (hb : bloomOffset file + 16 ≤ file.length) (h : ¬ BlocksFit file) :
    deserializeBloom ⟨file, bloomOffset file, false⟩ = .error .bloomBlocks := by
  have havail : ¬ (available ⟨file, bloomOffset file, false⟩ 16).length < 16 := by
    simp only [available, Bool.false_eq_true, if_false, List.length_take, List.length_drop]
    omega
  have hsecond := readUint64_of_le (show bloomOffset file + 8 + 8 ≤ file.length by omega)
  rw [deserializeBloom, if_neg havail, readUint64_of_le (by omega)]
  simp only [hsecond]
  exact if_pos (Nat.lt_of_not_le h)

theorem deserializeBloom_of_blocksFit (hb : bloomOffset file + 16 ≤ file.length) (h : BlocksFit file) :
    ∃ data q, deserializeBloom ⟨file, bloomOffset file, false⟩ =
      .ok (BloomFilter.deserialize (storedBlocks file) (storedHashes file) data, ⟨file, q, false⟩) := by
  have havail : ¬ (available ⟨file, bloomOffset file, false⟩ 16).length < 16 := by
    simp only [available, Bool.false_eq_true, if_false, List.length_take, List.length_drop]
    omega
  have hsecond := readUint64_of_le (show bloomOffset file + 8 + 8 ≤ file.length by omega)
  have hblocks : bloomOffset file + 8 + 8 + storedBlocks file * 64 ≤ file.length := by
    rw [BlocksFit] at h
    split_ifs at h
    · omega
    · omega
  rw [deserializeBloom, if_neg havail, readUint64_of_le (by omega)]
  simp only [hsecond]
  rw [show leNat ((file.drop (bloomOffset file + 8)).take 8) = storedBlocks file from rfl,
    if_neg (show ¬ _ < storedBlocks file from Nat.not_lt.mpr h), read_of_le rfl hblocks]
  exact ⟨_, _, rfl⟩

/-- Blocks that fit behind the numbers fit into the file. -/
theorem BlocksFit.le (h : BlocksFit file) : storedBlocks file * 64 ≤ file.length := by
  rw [BlocksFit] at h
  split_ifs at h
  · omega
  · omega

theorem deserializeBloom_undetermined_iff {s : IStream} :
    deserializeBloom s = .error .undetermined ↔ s.failed = true ∨ s.data.length < s.pos + 16 := by
  have hshort : (s.available 16).length < 16 ↔ s.failed = true ∨ s.data.length < s.pos + 16 := by
    rw [available]
    split_ifs with hfailed
    · simp [hfailed]
    · simp only [List.length_take, List.length_drop, hfailed, Bool.false_eq_true, false_or]
      omega
  rw [← hshort, deserializeBloom]
  constructor
  · intro h
    by_contra hlt
    rw [if_neg hlt] at h
    simp only at h
    split_ifs at h
    · cases h
    · cases h
  · intro h
    exact if_pos h

theorem bloomSizes_iff (hb : bloomOffset file + 16 ≤ file.length) :
    (∀ m ∈ bloomSizes ⟨file, bloomOffset file, false⟩, m ≤ file.length) ↔
      (BlocksFit file → storedBlocks file = 0 → 64 ≤ file.length) := by
  have hsecond := readUint64_of_le (show bloomOffset file + 8 + 8 ≤ file.length by omega)
  rw [bloomSizes, readUint64_of_le (by omega)]
  simp only [hsecond]
  by_cases hfit : BlocksFit file
  · obtain ⟨data, q, hok⟩ := deserializeBloom_of_blocksFit hb hfit
    have hle := hfit.le
    have hnum : (BloomFilter.deserialize (storedBlocks file) (storedHashes file) data).numBlocks =
        max (storedBlocks file) 1 := rfl
    simp only [hok, List.mem_cons, List.not_mem_nil, or_false, forall_eq_or_imp, forall_eq, hnum, hfit, true_implies]
    rw [show leNat ((file.drop (bloomOffset file + 8)).take 8) = storedBlocks file from rfl]
    omega
  · simp [deserializeBloom_of_not_blocksFit hb hfit, hfit]

end Filter

/-! ### The constructor -/

/-- The stream of the constructor after the index count. -/
def indexStream (file : Bytes) : IStream := (readUint32 ⟨file, indexOffset file, false⟩).2

theorem indexStream_eq (file : Bytes) : indexStream file = (IStream.read ⟨file, indexOffset file, false⟩ 4).2 := by
  rw [indexStream, readUint32]

section Constructor
variable (file : StoredFile)

theorem readUint32_indexOffset :
    readUint32 ⟨file.bytes, indexOffset file.bytes, false⟩ = (indexCount file.bytes, indexStream file.bytes) := by
  have hleft : Left ⟨file.bytes, indexOffset file.bytes, false⟩ (file.bytes.drop (indexOffset file.bytes)) := by
    simp [Left]
  have hcount : (readUint32 ⟨file.bytes, indexOffset file.bytes, false⟩).1 = indexCount file.bytes := by
    rw [readUint32, (hleft.read 4).1, indexCount]
  exact Prod.ext hcount (by rw [indexStream])

theorem data_indexStream : (indexStream file.bytes).data = file.bytes := by
  rw [indexStream_eq, data_read]

variable {file}

theorem offset_lt {offset : ℕ} (h : ¬ file.bytes.length < offset) : offset < offsetLimit :=
  lt_of_le_of_lt (Nat.le_of_not_lt h) file.size_lt

/-- The constructor, in terms of what the file says. -/
theorem openTable_eq :
    openTable file.bytes =
      if file.bytes.length < 16 then .error .fileTooSmall
      else if BadFooter file.bytes then .error .footerOffsets
      else if BadCount file.bytes then .error .indexCount
      else
        match readIndex file.bytes.length (indexCount file.bytes) (indexStream file.bytes) with
        | .error err => .error err
        | .ok idx =>
          match deserializeBloom (idx.2.seekg (bloomOffset file.bytes)) with
          | .error err => .error err
          | .ok bloom =>
            match keyBounds bloom.2 file.bytes.length (indexOffset file.bytes) idx.1 with
            | .error err => .error err
            | .ok keys =>
              .ok ⟨file.bytes, idx.1, bloom.1, keys.1, keys.2, file.bytes.length, indexOffset file.bytes⟩ := by
  rw [openTable]
  by_cases hsize : file.bytes.length < 16
  · rw [if_pos hsize, if_pos hsize]
  rw [if_neg hsize, if_neg hsize]
  have hend : (ofFile file.bytes).seekEnd 16 = ⟨file.bytes, file.bytes.length - 16, false⟩ := by
    simp [ofFile, seekEnd, Nat.le_of_not_lt hsize]
  have hindex : readUint64 ⟨file.bytes, file.bytes.length - 16, false⟩ =
      (indexOffset file.bytes, ⟨file.bytes, file.bytes.length - 16 + 8, false⟩) :=
    readUint64_of_le (by omega)
  have hbloom : readUint64 ⟨file.bytes, file.bytes.length - 16 + 8, false⟩ =
      (bloomOffset file.bytes, ⟨file.bytes, file.bytes.length - 16 + 8 + 8, false⟩) := by
    rw [readUint64_of_le (by omega), show file.bytes.length - 16 + 8 = file.bytes.length - 8 by omega]
    rfl
  simp only [hend, hindex, hbloom]
  by_cases hoffsets : file.bytes.length < indexOffset file.bytes ∨ file.bytes.length < bloomOffset file.bytes ∨
      bloomOffset file.bytes < indexOffset file.bytes
  · rw [if_pos hoffsets, if_pos (show BadFooter file.bytes from .inr hoffsets)]
  · have hfooter : ¬ BadFooter file.bytes := not_or.mpr ⟨hsize, hoffsets⟩
    have hlt : indexOffset file.bytes < offsetLimit := offset_lt fun h => hoffsets (.inl h)
    have hseek : IStream.seekg ⟨file.bytes, file.bytes.length - 16 + 8 + 8, false⟩ (indexOffset file.bytes) =
        ⟨file.bytes, indexOffset file.bytes, false⟩ := seekg_of_lt rfl hlt
    rw [if_neg hoffsets, if_neg hfooter, hseek, readUint32_indexOffset]
    simp only
    by_cases hcount : BadCount file.bytes
    · rw [if_pos hcount, if_pos (show _ < _ from hcount)]
    · rw [if_neg hcount]
      exact if_neg (show ¬ _ < _ from hcount)

theorem openSizes_eq (hfooter : ¬ BadFooter file.bytes) (hcount : ¬ BadCount file.bytes) :
    openSizes file.bytes = indexCount file.bytes * 40 ::
      (readIndexSizes file.bytes.length (indexCount file.bytes) (indexStream file.bytes) ++
        match readIndex file.bytes.length (indexCount file.bytes) (indexStream file.bytes) with
        | .error _ => []
        | .ok idx =>
          bloomSizes (idx.2.seekg (bloomOffset file.bytes)) ++
            match deserializeBloom (idx.2.seekg (bloomOffset file.bytes)), idx.1 with
            | .ok bloom, first :: rest =>
              lastEntrySizes file.bytes.length (indexOffset file.bytes) (file.bytes.length + 1)
                (bloom.2.seekg (rest.getLastD first).2)
            | _, _ => []) := by
  have hlt : indexOffset file.bytes < offsetLimit := offset_lt fun h => hfooter (.inr (.inl h))
  have hseek : (ofFile file.bytes).seekg (indexOffset file.bytes) = ⟨file.bytes, indexOffset file.bytes, false⟩ :=
    seekg_of_lt rfl hlt
  rw [openSizes, if_neg hfooter, hseek, readUint32_indexOffset]
  simp only [if_neg hcount]

theorem offset_lt_of_not_badFooter (h : ¬ BadFooter file.bytes) : bloomOffset file.bytes < offsetLimit :=
  offset_lt fun hlt => h (.inr (.inr (.inl hlt)))

/-- A table that opens has passed the checks, and its index and its filter were read. -/
theorem openTable_ok {t : OpenTable} (h : openTable file.bytes = .ok t) :
    ¬ BadFooter file.bytes ∧ ¬ BadCount file.bytes ∧
    ∃ idx bloom, readIndex file.bytes.length (indexCount file.bytes) (indexStream file.bytes) = .ok idx ∧
      deserializeBloom (idx.2.seekg (bloomOffset file.bytes)) = .ok bloom ∧
      t.index = idx.1 ∧ t.bloom = bloom.1 := by
  rw [openTable_eq] at h
  split_ifs at h with hsize hfooter hcount
  refine ⟨hfooter, hcount, ?_⟩
  split at h
  · cases h
  rename_i idx hidx
  split at h
  · cases h
  rename_i bloom hbloom
  split at h
  · cases h
  cases h
  exact ⟨idx, bloom, hidx, hbloom, rfl, rfl⟩

/-- Where the two numbers of the filter come from once it has been deserialized. -/
theorem seekg_of_readIndex {idx : List (Key × ℕ) × IStream} {bloom : BloomFilter × IStream}
    (hfooter : ¬ BadFooter file.bytes)
    (hidx : readIndex file.bytes.length (indexCount file.bytes) (indexStream file.bytes) = .ok idx)
    (hbloom : deserializeBloom (idx.2.seekg (bloomOffset file.bytes)) = .ok bloom) :
    idx.2.seekg (bloomOffset file.bytes) = ⟨file.bytes, bloomOffset file.bytes, false⟩ ∧
      bloomOffset file.bytes + 16 ≤ file.bytes.length := by
  have hdata : idx.2.data = file.bytes := (size_readIndex hidx).2.trans (data_indexStream file)
  exact seekg_of_deserializeBloom hdata (offset_lt_of_not_badFooter hfooter) hbloom

theorem index_of_open {t : OpenTable} (h : openTable file.bytes = .ok t) :
    t.index.length = 0 ∨ 4 + 12 * t.index.length ≤ bloomOffset file.bytes - indexOffset file.bytes := by
  obtain ⟨-, hcount, idx, bloom, hidx, -, hindex, -⟩ := openTable_ok h
  rw [BadCount] at hcount
  rw [hindex, length_readIndex hidx]
  omega

theorem keys_of_open {t : OpenTable} (h : openTable file.bytes = .ok t) :
    ∀ p ∈ t.index, p.1.size ≤ file.bytes.length := by
  obtain ⟨-, -, idx, bloom, hidx, -, hindex, -⟩ := openTable_ok h
  rw [hindex]
  exact (size_readIndex hidx).1

theorem filter_of_open {t : OpenTable} (h : openTable file.bytes = .ok t) :
    bloomOffset file.bytes + 16 ≤ file.bytes.length ∧ storedBlocks file.bytes * 64 ≤ file.bytes.length ∧
      ∃ data, t.bloom = BloomFilter.deserialize (storedBlocks file.bytes) (storedHashes file.bytes) data := by
  obtain ⟨hfooter, -, idx, bloom, hidx, hbloom, -, hfilter⟩ := openTable_ok h
  obtain ⟨hseek, hle⟩ := seekg_of_readIndex hfooter hidx hbloom
  rw [hseek] at hbloom
  by_cases hfit : BlocksFit file.bytes
  · obtain ⟨data, q, hok⟩ := deserializeBloom_of_blocksFit hle hfit
    rw [hok] at hbloom
    cases hbloom
    exact ⟨hle, hfit.le, data, hfilter⟩
  · rw [deserializeBloom_of_not_blocksFit hle hfit] at hbloom
    cases hbloom

/-- The index count is read from behind the end of the file only if it is then zero. -/
theorem indexStream_of_not_badCount (hfooter : ¬ BadFooter file.bytes) (hcount : ¬ BadCount file.bytes) :
    (indexOffset file.bytes + 4 ≤ file.bytes.length ∧
      indexStream file.bytes = ⟨file.bytes, indexOffset file.bytes + 4, false⟩) ∨
    (file.bytes.length < indexOffset file.bytes + 4 ∧ indexCount file.bytes = 0 ∧
      (indexStream file.bytes).failed = true) := by
  have hindexle : indexOffset file.bytes ≤ file.bytes.length :=
    Nat.le_of_not_lt fun hlt => hfooter (.inr (.inl hlt))
  have hbloomle : bloomOffset file.bytes ≤ file.bytes.length :=
    Nat.le_of_not_lt fun hlt => hfooter (.inr (.inr (.inl hlt)))
  have hafter := (after_zero (s := ⟨file.bytes, indexOffset file.bytes, false⟩) rfl hindexle).read 4
  rw [Nat.zero_add] at hafter
  rw [indexStream_eq]
  by_cases hle : indexOffset file.bytes + 4 ≤ file.bytes.length
  · exact .inl ⟨hle, hafter.eq_of_le hle⟩
  · rw [BadCount] at hcount
    have hlt : file.bytes.length < indexOffset file.bytes + 4 := Nat.lt_of_not_le hle
    exact .inr ⟨hlt, by omega, hafter.short hlt⟩

/-- Past the first checks, it is the filter that can be undetermined. -/
theorem openTable_undetermined_iff_filter (hfooter : ¬ BadFooter file.bytes) (hcount : ¬ BadCount file.bytes) :
    openTable file.bytes = .error .undetermined ↔
      ∃ idx, readIndex file.bytes.length (indexCount file.bytes) (indexStream file.bytes) = .ok idx ∧
        deserializeBloom (idx.2.seekg (bloomOffset file.bytes)) = .error .undetermined := by
  rw [openTable_eq, if_neg fun hsize => hfooter (.inl hsize), if_neg hfooter, if_neg hcount]
  cases hidx : readIndex file.bytes.length (indexCount file.bytes) (indexStream file.bytes) with
  | error err =>
    have herr := readIndex_error hidx
    simp [herr]
  | ok idx =>
    simp only [Except.ok.injEq, exists_eq_left']
    cases hbloom : deserializeBloom (idx.2.seekg (bloomOffset file.bytes)) with
    | error err => simp
    | ok bloom =>
      simp only [reduceCtorEq, iff_false]
      intro h
      split at h
      · cases h
        exact keyBounds_error (by assumption) rfl
      · cases h

/-- The constructor uses an undetermined number exactly if it gets to the filter and the filter's
numbers cannot be read. -/
theorem openTable_undetermined_iff : openTable file.bytes = .error .undetermined ↔ ¬ FilterReached file.bytes := by
  by_cases hfooter : BadFooter file.bytes
  · rw [openTable_eq]
    split_ifs
    · simp [FilterReached, hfooter]
    · simp [FilterReached, hfooter]
  by_cases hcount : BadCount file.bytes
  · rw [openTable_eq, if_neg fun hsize => hfooter (.inl hsize), if_neg hfooter, if_pos hcount]
    simp [FilterReached, hcount]
  rw [openTable_undetermined_iff_filter hfooter hcount]
  have hreached : FilterReached file.bytes ↔
      indexWalk file.bytes (indexCount file.bytes) (indexOffset file.bytes + 4) = .tooLong ∨
      (indexWalk file.bytes (indexCount file.bytes) (indexOffset file.bytes + 4) = .inside ∧
        bloomOffset file.bytes + 16 ≤ file.bytes.length) := by
    simp only [FilterReached, hfooter, hcount, false_or]
  rw [hreached]
  rcases indexStream_of_not_badCount hfooter hcount with ⟨hle, hstream⟩ | ⟨hlt, hzero, hfailed⟩
  · generalize hw : indexWalk file.bytes (indexCount file.bytes) (indexOffset file.bytes + 4) = w
    have hwalk := readIndex_of_walk hle hw
    rw [← hstream] at hwalk
    cases w with
    | tooLong =>
      obtain ⟨len, hlen⟩ := hwalk
      simp [hlen]
    | inside =>
      obtain ⟨idx, q, hidx⟩ := hwalk
      have hseek : IStream.seekg ⟨file.bytes, q, false⟩ (bloomOffset file.bytes) =
          ⟨file.bytes, bloomOffset file.bytes, false⟩ := seekg_of_lt rfl (offset_lt_of_not_badFooter hfooter)
      simp [hidx, hseek, deserializeBloom_undetermined_iff]
    | pastEnd =>
      obtain ⟨idx, s, hidx, hfailed⟩ := hwalk
      simp [hidx, seekg_of_failed hfailed, deserializeBloom_undetermined_iff, hfailed]
  · -- The filter does not begin before the index, so its numbers are not there either.
    have hshort : ¬ bloomOffset file.bytes + 16 ≤ file.bytes.length := by
      have hle : indexOffset file.bytes ≤ bloomOffset file.bytes :=
        Nat.le_of_not_lt fun h => hfooter (.inr (.inr (.inr h)))
      omega
    simp [hzero, readIndex, indexWalk, seekg_of_failed hfailed, deserializeBloom_undetermined_iff, hfailed, hshort]

/-- The strings of the last block, once the filter has been read. -/
theorem lastBlockSizes_iff (hfooter : ¬ BadFooter file.bytes) (hsize : 16 ≤ file.bytes.length) (q offset : ℕ) :
    (∀ m ∈ lastEntrySizes file.bytes.length (indexOffset file.bytes) (file.bytes.length + 1)
        (IStream.seekg ⟨file.bytes, q, false⟩ offset), m ≤ file.bytes.length) ↔
      NoWholeFileString file.bytes (indexOffset file.bytes) offset := by
  have hindexle : indexOffset file.bytes ≤ file.bytes.length :=
    Nat.le_of_not_lt fun hlt => hfooter (.inr (.inl hlt))
  by_cases hoffset : offset < offsetLimit
  · rw [seekg_of_lt rfl hoffset]
    exact lastEntrySizes_iff (s := ⟨file.bytes, offset, false⟩) rfl hsize hindexle (by simp only; omega)
  · -- No file offset: the stream fails, and the block would not begin before the index.
    have hfile := file.size_lt
    have hfailed : (IStream.seekg ⟨file.bytes, q, false⟩ offset).failed = true := by simp [seekg, hoffset]
    have hend := @noWholeFileString_of_end file.bytes _ _ (show ¬ offset < indexOffset file.bytes by omega)
    simp [lastEntrySizes_of_failed hfailed, hend]

/-- Where the constructor uses no undetermined number, its requests are those of the condition. -/
theorem openSizes_iff (hreached : FilterReached file.bytes) :
    (∀ m ∈ openSizes file.bytes, m ≤ file.bytes.length) ↔ RequestsFit file.bytes := by
  by_cases hfooter : BadFooter file.bytes
  · simp [openSizes, RequestsFit, hfooter]
  by_cases hcount : BadCount file.bytes
  · simp [openSizes, RequestsFit, hfooter, hcount]
  have hsize : 16 ≤ file.bytes.length := Nat.le_of_not_lt fun hlt => hfooter (.inl hlt)
  have hindexle : indexOffset file.bytes ≤ bloomOffset file.bytes :=
    Nat.le_of_not_lt fun hlt => hfooter (.inr (.inr (.inr hlt)))
  rw [openSizes_eq hfooter hcount, RequestsFit, or_iff_right hfooter, or_iff_right hcount, List.forall_mem_cons,
    Nat.mul_comm, List.forall_mem_append]
  simp only [FilterReached, hfooter, hcount, false_or] at hreached
  rcases indexStream_of_not_badCount hfooter hcount with ⟨hle, hstream⟩ | ⟨hlt, hzero, -⟩
  · rw [hstream]
    rcases hreached with hw | ⟨hw, hb⟩
    · have hstrings := readIndexSizes_le hle hsize (by rw [hw]; exact IndexWalk.noConfusion)
      obtain ⟨len, herr⟩ := readIndex_of_walk hle hw
      simp only [herr, hw, List.not_mem_nil, reduceCtorEq, false_implies, implies_true, and_true]
      exact and_iff_left hstrings
    · have hstrings := readIndexSizes_le hle hsize (by rw [hw]; exact IndexWalk.noConfusion)
      obtain ⟨idx, q, hidx⟩ := readIndex_of_walk hle hw
      have hseek : IStream.seekg ⟨file.bytes, q, false⟩ (bloomOffset file.bytes) =
          ⟨file.bytes, bloomOffset file.bytes, false⟩ := seekg_of_lt rfl (offset_lt_of_not_badFooter hfooter)
      simp only [hidx, hw, hseek, List.forall_mem_append, bloomSizes_iff hb, true_implies]
      rw [and_iff_right hstrings]
      apply and_congr_right'
      by_cases hfit : BlocksFit file.bytes
      · obtain ⟨data, r, hok⟩ := deserializeBloom_of_blocksFit hb hfit
        simp only [hok, hfit, true_implies]
        apply and_congr_right'
        have hlength := length_readIndex hidx
        cases idx with
        | nil =>
          have hzero : indexCount file.bytes = 0 := hlength.symm
          simp [hzero]
        | cons first rest =>
          have hne : indexCount file.bytes ≠ 0 := by
            rw [← hlength]
            exact Nat.succ_ne_zero _
          have hlast := lastOffset_of_readIndex hle hw hne hidx first
          rw [List.getLastD_cons] at hlast
          rw [← hlast]
          simp only [hne, ne_eq, not_false_eq_true, true_implies]
          exact lastBlockSizes_iff hfooter hsize r _
      · simp [deserializeBloom_of_not_blocksFit hb hfit, hfit]
  · -- The filter does not begin before the index, so its numbers are not there either.
    rw [hzero] at hreached
    simp only [indexWalk, reduceCtorEq, false_or, true_and] at hreached
    omega

/-- The constructor is bounded by the file exactly if it reads the numbers of the filter whenever it
gets there, and what it asks for fits into the file. -/
theorem boundedOpen_iff (file : StoredFile) :
    BoundedOpen file.bytes ↔ FilterReached file.bytes ∧ RequestsFit file.bytes := by
  constructor
  · intro h
    have hreached : FilterReached file.bytes := by
      by_contra hreached
      exact h.determined (openTable_undetermined_iff.mpr hreached)
    exact ⟨hreached, (openSizes_iff hreached).mp h.sizes⟩
  · rintro ⟨hreached, hfit⟩
    exact
      { determined := fun hopen => openTable_undetermined_iff.mp hopen hreached
        sizes := (openSizes_iff hreached).mpr hfit
        index := fun _ => index_of_open
        keys := fun _ => keys_of_open
        filter := fun _ => filter_of_open }

end Constructor

/-- An empty index, and a filter that begins where the file ends. -/
def filterAtEnd : StoredFile := ⟨leBytes 4 0 ++ encodeFooter 0 20, by decide⟩

/-- The block count of this file is never read. -/
theorem not_boundedOpen_filterAtEnd : ¬ BoundedOpen filterAtEnd.bytes := by
  intro h
  apply h.determined
  have hopen : (match openTable filterAtEnd.bytes with | .error err => decide (err = .undetermined) | .ok _ => false) =
      true := by decide +kernel
  split at hopen
  · rename_i err herr
    rw [herr, of_decide_eq_true hopen]
  · cases hopen

end LsmTree.Table
