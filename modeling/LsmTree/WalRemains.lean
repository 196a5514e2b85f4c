import LsmTree.WalImage

/-!
# Log files with what failed writes have left

A write that fails may have left nothing, some of its sectors or all of them. If all are
there the record has landed, whatever its completion says. Otherwise what is there stays in
the file, with zeros where the other sectors should be, and the reader goes over it sector by
sector. It finds no record in it unless one of the sectors happens to begin with bytes that
pass all its checks, as a value can that was made to look like a log.
-/

namespace LsmTree.Wal
open LittleEndian

/-- What the reader comes to in a log file: a record, or a sector that belongs to none. -/
inductive Piece where
  | record (e : Entry)
  | sector (b : Bytes) (hlength : b.length = 512)

def Piece.bytes : Piece → Bytes
  | .record e => e.encode
  | .sector b _ => b

def Piece.recorded : Piece → Option Entry
  | .record e => some e
  | .sector _ _ => none

/-- A writer that starts on the file goes on behind the piece. Any other sector takes the place of a
record that is one sector long and has not landed. -/
def Piece.slot : Piece → Slot
  | .record e => ⟨e, .landed⟩
  | .sector _ _ => ⟨⟨.put, [], []⟩, .lost⟩

def bytesOf (ps : List Piece) : Bytes := ps.flatMap Piece.bytes

def records (ps : List Piece) : List Entry := ps.filterMap Piece.recorded

/-- No sector that belongs to no record begins with one. -/
def Unmistaken : List Piece → Prop
  | [] => True
  | .record _ :: ps => Unmistaken ps
  | .sector b _ :: ps => (readRecord (b ++ bytesOf ps)).isOk = false ∧ Unmistaken ps

instance decidableUnmistaken : (ps : List Piece) → Decidable (Unmistaken ps)
  | [] => isTrue trivial
  | .record _ :: ps => decidableUnmistaken ps
  | .sector _ _ :: ps => @instDecidableAnd _ _ _ (decidableUnmistaken ps)

/-! ### What a write leaves -/

def Entry.sectorCount (e : Entry) : ℕ := e.alignedSize / 512

/-- All sectors of the record are among these. -/
def Entry.AllLeft (e : Entry) (sectors : List ℕ) : Prop := ∀ j < e.sectorCount, j ∈ sectors

instance (e : Entry) (sectors : List ℕ) : Decidable (e.AllLeft sectors) :=
  inferInstanceAs (Decidable (∀ j < e.sectorCount, j ∈ sectors))

theorem Entry.length_sector {e : Entry} {j : ℕ} (hj : j < e.sectorCount) :
    ((e.encode.drop (512 * j)).take 512).length = 512 := by
  rw [sectorCount] at hj
  simp only [List.length_take, List.length_drop, length_encode]
  omega

/-- What is in the place of sector `j` when the write has left these. -/
def Entry.sectorLeft (e : Entry) (sectors : List ℕ) (j : ℕ) : Piece :=
  if h : j < e.sectorCount ∧ j ∈ sectors then .sector ((e.encode.drop (512 * j)).take 512) (length_sector h.1)
  else .sector (zeros 512) (length_zeros 512)

/-- How far the file reaches if nothing comes after the record: to the last sector that is left. -/
def Entry.lastLeft (e : Entry) (sectors : List ℕ) : ℕ :=
  ((sectors.filter (· < e.sectorCount)).map (· + 1)).foldr max 0

/-- The file when all writes have landed, failed or come to nothing. Each record has with it the sectors that
its write has left if it has failed. -/
def pieces : List (Slot × List ℕ) → List Piece
  | [] => []
  | (s, sectors) :: rest =>
    if s.write = .landed then .record s.entry :: pieces rest
    else
      let stop := if (pieces rest).isEmpty then s.entry.lastLeft sectors else s.entry.sectorCount
      (List.range stop).map (s.entry.sectorLeft sectors) ++ pieces rest

/-! ### Reading it back -/

section Reading
variable {ps qs : List Piece}

@[simp] theorem bytesOf_cons (p : Piece) (ps : List Piece) : bytesOf (p :: ps) = p.bytes ++ bytesOf ps := rfl

@[simp] theorem records_record (e : Entry) (ps : List Piece) : records (.record e :: ps) = e :: records ps := rfl

@[simp] theorem records_sector (b : Bytes) (hlength : b.length = 512) (ps : List Piece) :
    records (.sector b hlength :: ps) = records ps := rfl

theorem bytesOf_append (ps qs : List Piece) : bytesOf (ps ++ qs) = bytesOf ps ++ bytesOf qs := List.flatMap_append

theorem records_append (ps qs : List Piece) : records (ps ++ qs) = records ps ++ records qs := List.filterMap_append

theorem recorded_sectorLeft (e : Entry) (sectors : List ℕ) (j : ℕ) : (e.sectorLeft sectors j).recorded = none := by
  rw [Entry.sectorLeft]
  split_ifs <;> rfl

theorem records_sectorsLeft (e : Entry) (sectors : List ℕ) (stop : ℕ) :
    records ((List.range stop).map (e.sectorLeft sectors)) = [] := by
  rw [records, List.filterMap_map, List.filterMap_eq_nil_iff]
  exact fun j _ => recorded_sectorLeft e sectors j

/-- What a failed write has left counts for nothing. -/
theorem records_pieces (rs : List (Slot × List ℕ)) : records (pieces rs) = landedEntries (rs.map Prod.fst) := by
  induction rs with
  | nil => rfl
  | cons r rs ih =>
    obtain ⟨s, sectors⟩ := r
    rw [pieces, List.map_cons]
    by_cases hs : s.write = .landed
    · have hcons : landedEntries (s :: rs.map Prod.fst) = s.entry :: landedEntries (rs.map Prod.fst) := by
        simp [landedEntries, hs]
      rw [if_pos hs, hcons, ← ih]
      rfl
    · have hcons : landedEntries (s :: rs.map Prod.fst) = landedEntries (rs.map Prod.fst) := by
        simp [landedEntries, hs]
      simp only [if_neg hs]
      rw [records_append, records_sectorsLeft, List.nil_append, ih, hcons]

/-- Where no sector is taken for a record, the records are all that is read. -/
theorem scan_bytesOf (hfits : ∀ e ∈ records ps, e.Fits) (h : Unmistaken ps) : scan (bytesOf ps) = records ps := by
  induction ps with
  | nil => exact scan_nil
  | cons p ps ih =>
    cases p with
    | record e =>
      obtain ⟨he, hrest⟩ := List.forall_mem_cons.mp hfits
      exact (scan_encode_append he (bytesOf ps)).trans (congrArg (e :: ·) (ih hrest h))
    | sector b hlength =>
      obtain ⟨hread, hrest⟩ := h
      have hcons : bytesOf (.sector b hlength :: ps) = b ++ bytesOf ps := rfl
      cases hskip : readRecord (b ++ bytesOf ps) with
      | ok e =>
        rw [hskip] at hread
        cases hread
      | error skip =>
        rw [hcons, scan_of_error hskip, List.drop_left' hlength]
        exact ih hfits hrest

theorem recover_bytesOf (hfits : ∀ e ∈ records ps, e.Fits) (h : Unmistaken ps)
    (hmax : (bytesOf ps).length ≤ maxRecoveryBytes) : recover (bytesOf ps) = .ok (records ps) := by
  rw [recover_of_le hmax, scan_bytesOf hfits h]

/-- The next writer finds the records that are read. -/
theorem landedEntries_slots (ps : List Piece) : landedEntries (ps.map Piece.slot) = records ps := by
  induction ps with
  | nil => rfl
  | cons p ps ih =>
    cases p with
    | record e => exact congrArg (e :: ·) ih
    | sector b hlength => exact ih

/-- It goes on at the end of the file. -/
theorem writeOffset_slots (ps : List Piece) : writeOffset (ps.map Piece.slot) = (bytesOf ps).length := by
  induction ps with
  | nil => rfl
  | cons p ps ih =>
    rw [List.map_cons, writeOffset_cons, ih, bytesOf_cons, List.length_append]
    cases p with
    | record e => rw [Piece.bytes, Entry.length_encode, Piece.slot]
    | sector b hlength =>
      have hempty : (⟨.put, [], []⟩ : Entry).alignedSize = 512 := by decide
      rw [Piece.bytes, hlength, Piece.slot, hempty]

end Reading

/-! ### Where failed writes leave nothing -/

theorem bytesOf_eq_nil_iff (ps : List Piece) : bytesOf ps = [] ↔ ps = [] := by
  cases ps with
  | nil => exact iff_of_true rfl rfl
  | cons p ps =>
    have hpos : 512 ≤ p.bytes.length := by
      cases p with
      | record e => exact e.alignedSize_pos.trans_eq e.length_encode.symm
      | sector b hlength => exact hlength.ge
    have hne : p.bytes ≠ [] := List.ne_nil_of_length_pos (by omega)
    simp [hne]

theorem bytesOf_zeros (e : Entry) (stop : ℕ) :
    bytesOf ((List.range stop).map (e.sectorLeft [])) = zeros (512 * stop) := by
  induction stop with
  | zero => rfl
  | succ stop ih =>
    have hlast : e.sectorLeft [] stop = .sector (zeros 512) (length_zeros 512) := dif_neg (by simp)
    have hsplit : zeros (512 * (stop + 1)) = zeros (512 * stop) ++ zeros 512 := List.replicate_add ..
    rw [List.range_succ, List.map_append, bytesOf_append, ih, List.map_singleton, hlast, hsplit]
    exact congrArg _ (List.append_nil _)

/-- If nothing is left of what has not landed, the file is the one with holes. -/
theorem bytesOf_pieces (slots : List Slot) : bytesOf (pieces (slots.map (·, []))) = image slots := by
  induction slots with
  | nil => rfl
  | cons s slots ih =>
    rw [List.map_cons, pieces, image]
    split_ifs with hs hempty hnil hnil
    · rw [bytesOf_cons, ih]
      rfl
    · rw [bytesOf_append, ih, hnil]
      rfl
    · rw [List.isEmpty_iff, ← bytesOf_eq_nil_iff, ih] at hempty
      exact absurd hempty hnil
    · rw [← ih, bytesOf_eq_nil_iff, ← List.isEmpty_iff] at hnil
      exact absurd hnil hempty
    · rw [bytesOf_append, bytesOf_zeros, ih, Entry.sectorCount, Nat.mul_div_cancel' s.entry.alignedSize_dvd]

end LsmTree.Wal
