import LsmTree.WalTornLog

/-!
# Log files with holes

Records are given their offsets when they are submitted; their writes land later, in
any order, some of them twice and some of them never. The bytes of the file depend
only on which records have landed: a missing record is a run of zeros if a later one
has landed, and lies beyond the end of the file otherwise. The reader gives back
exactly the landed records in the order of their offsets.
-/

namespace LsmTree.Wal
open LittleEndian PositionalFile

/-- What has become of the write of a record. -/
inductive Write where
  | inFlight | landed | lost
  deriving DecidableEq, Repr

/-- A record together with the state of its write. -/
structure Slot where
  entry : Entry
  write : Write
  deriving DecidableEq, Repr

/-- The bytes of a log file in which exactly the `landed` records have been written. -/
def image : List Slot → Bytes
  | [] => []
  | s :: rest =>
    if s.write = .landed then s.entry.encode ++ image rest
    else if image rest = [] then []
    else zeros s.entry.alignedSize ++ image rest

/-- The records a log file holds. -/
def landedEntries (slots : List Slot) : List Entry :=
  (slots.filter (·.write = .landed)).map Slot.entry

/-- `write_offset_` after the records of `slots`. -/
def writeOffset (slots : List Slot) : ℕ := (slots.map (·.entry.alignedSize)).sum

/-- The write of record `i` lands. -/
def land (i : ℕ) (slots : List Slot) : List Slot := slots.modify i ({ · with write := .landed })

@[simp] theorem writeOffset_nil : writeOffset [] = 0 := rfl

@[simp] theorem writeOffset_cons (s : Slot) (rest : List Slot) :
    writeOffset (s :: rest) = s.entry.alignedSize + writeOffset rest := by simp [writeOffset]

theorem writeOffset_append (slots rest : List Slot) :
    writeOffset (slots ++ rest) = writeOffset slots + writeOffset rest := by simp [writeOffset]

theorem writeOffset_congr {slots rest : List Slot} (h : slots.map (·.entry) = rest.map (·.entry)) :
    writeOffset slots = writeOffset rest := by
  have := congrArg (fun es => (es.map Entry.alignedSize).sum) h
  simpa [writeOffset, Function.comp_def] using this

theorem map_entry_land (i : ℕ) (slots : List Slot) :
    (land i slots).map (·.entry) = slots.map (·.entry) := by
  apply List.ext_getElem?
  intro j
  simp only [land, List.getElem?_map, List.getElem?_modify]
  cases slots[j]? with
  | none => rfl
  | some s => by_cases hij : i = j <;> simp [hij]

theorem mem_land {i : ℕ} {slots : List Slot} {s : Slot} (h : s ∈ land i slots) :
    ∃ t ∈ slots, t.entry = s.entry ∧ (s.write = t.write ∨ s.write = .landed) := by
  obtain ⟨j, hj⟩ := List.mem_iff_getElem?.mp h
  rw [land, List.getElem?_modify] at hj
  cases hs : slots[j]? with
  | none =>
    rw [hs] at hj
    cases hj
  | some t =>
    refine ⟨t, List.mem_of_getElem? hs, ?_⟩
    rw [hs] at hj
    by_cases hij : i = j
    · simp only [hij, if_true, Option.map_eq_map, Option.map_some, Option.some.injEq] at hj
      rw [← hj]
      exact ⟨rfl, .inr rfl⟩
    · simp only [hij, if_false, Option.map_eq_map, Option.map_some, Option.some.injEq] at hj
      rw [← hj]
      exact ⟨rfl, .inl rfl⟩

theorem image_eq_nil_iff (slots : List Slot) : image slots = [] ↔ landedEntries slots = [] := by
  induction slots with
  | nil => simp [image, landedEntries]
  | cons s rest ih =>
    by_cases hs : s.write = .landed
    · have hne : s.entry.encode ≠ [] := by
        apply List.ne_nil_of_length_pos
        have := s.entry.alignedSize_pos
        rw [Entry.length_encode]
        omega
      simp [image, landedEntries, hs, hne]
    · have hcons : landedEntries (s :: rest) = landedEntries rest := by simp [landedEntries, hs]
      rw [hcons, ← ih, image, if_neg hs]
      by_cases hrest : image rest = []
      · simp [hrest]
      · simp [hrest]

theorem image_length_le (slots : List Slot) : (image slots).length ≤ writeOffset slots := by
  induction slots with
  | nil => simp [image]
  | cons s rest ih =>
    rw [image, writeOffset_cons]
    split_ifs
    · simp only [List.length_append, Entry.length_encode]
      omega
    · simp
    · simp only [List.length_append, length_zeros]
      omega

theorem image_of_all_landed {slots : List Slot} (h : ∀ s ∈ slots, s.write = .landed) :
    image slots = encodeLog (slots.map Slot.entry) := by
  induction slots with
  | nil => rfl
  | cons s rest ih =>
    rw [image, if_pos (h s List.mem_cons_self), List.map_cons, encodeLog_cons,
      ih (fun r hr => h r (List.mem_cons_of_mem _ hr))]

/-- One write at its own offset turns the image into that of the log with one more
landed record. Repeating it changes nothing. -/
theorem pwrite_image {slots : List Slot} {i : ℕ} {s : Slot} (h : slots[i]? = some s) :
    pwrite 0 (image slots) (writeOffset (slots.take i)) s.entry.encode = image (land i slots) := by
  induction slots generalizing i with
  | nil => simp at h
  | cons r rest ih =>
    cases i with
    | zero =>
      have hrs : r = s := by simpa using h
      subst hrs
      have hland : image (land 0 (r :: rest)) = r.entry.encode ++ image rest := by
        simp [land, image]
      rw [hland, List.take_zero, writeOffset_nil, image]
      split_ifs with hr hrest
      · exact pwrite_zero 0 rfl _
      · simp [hrest, pwrite_nil]
      · exact pwrite_zero 0 (by simp) _
    | succ i =>
      have hi : rest[i]? = some s := by simpa using h
      have hstep := ih hi
      have hland : land (i + 1) (r :: rest) = r :: land i rest := by simp [land]
      have hne : image (land i rest) ≠ [] := by
        have hmem : { s with write := .landed } ∈ land i rest := by
          apply List.mem_iff_getElem?.mpr
          exact ⟨i, by simp [land, hi]⟩
        rw [Ne, image_eq_nil_iff]
        intro hnil
        have hin : s.entry ∈ landedEntries (land i rest) :=
          List.mem_map.mpr ⟨_, List.mem_filter.mpr ⟨hmem, by simp⟩, rfl⟩
        rw [hnil] at hin
        cases hin
      rw [hland, List.take_succ_cons, writeOffset_cons, image, image]
      split_ifs with hr hrest
      · rw [← r.entry.length_encode, pwrite_append_left, hstep]
      · rw [pwrite_nil_add, ← hstep, hrest, zeros]
      · have hlen : (zeros r.entry.alignedSize).length = r.entry.alignedSize := length_zeros _
        rw [← hstep]
        conv_lhs => rw [← hlen]
        simpa using pwrite_append_left 0 (zeros r.entry.alignedSize) (image rest) _ _

/-! ### Reading a log with holes -/

theorem scan_image_append {slots : List Slot} (h : ∀ s ∈ slots, s.entry.Fits) (rest : Bytes) :
    scan (image slots ++ rest) = landedEntries slots ++ scan rest := by
  induction slots with
  | nil => rfl
  | cons s slots ih =>
    have hstep := ih (fun r hr => h r (List.mem_cons_of_mem _ hr))
    rw [image]
    by_cases hs : s.write = .landed
    · have hcons : landedEntries (s :: slots) = s.entry :: landedEntries slots := by
        simp [landedEntries, hs]
      rw [if_pos hs, hcons, List.append_assoc, scan_encode_append (h s List.mem_cons_self), hstep,
        List.cons_append]
    · have hcons : landedEntries (s :: slots) = landedEntries slots := by simp [landedEntries, hs]
      rw [if_neg hs, hcons]
      split_ifs with hnil
      · rw [(image_eq_nil_iff slots).mp hnil]
        rfl
      · rw [List.append_assoc, scan_zeros_append s.entry.alignedSize_dvd, hstep]

theorem recover_image {slots : List Slot} (h : ∀ s ∈ slots, s.entry.Fits)
    (hmax : (image slots).length ≤ maxRecoveryBytes) :
    recover (image slots) = .ok (landedEntries slots) := by
  have hscan := scan_image_append h []
  rw [List.append_nil, scan_nil, List.append_nil] at hscan
  rw [recover_of_le hmax, hscan]

/-! ### What a crash leaves -/

/-- The records whose place in the file a new writer finds: those up to the last one that
has landed. A hole below it stays a hole. -/
def survive : List Slot → List Slot
  | [] => []
  | s :: rest =>
    if s.write = .landed then s :: survive rest
    else if survive rest = [] then []
    else ⟨s.entry, .lost⟩ :: survive rest

theorem landedEntries_survive (slots : List Slot) :
    landedEntries (survive slots) = landedEntries slots := by
  induction slots with
  | nil => rfl
  | cons s rest ih =>
    rw [survive]
    split_ifs with hs hrest
    · simp only [landedEntries, List.filter_cons, hs, decide_true, if_true, List.map_cons] at ih ⊢
      rw [ih]
    · rw [hrest] at ih
      simpa [landedEntries, hs] using ih
    · simpa [landedEntries, hs] using ih

theorem survive_eq_nil_iff (slots : List Slot) : survive slots = [] ↔ image slots = [] := by
  rw [image_eq_nil_iff, ← landedEntries_survive]
  constructor
  · intro h
    rw [h]
    rfl
  · intro h
    induction slots with
    | nil => rfl
    | cons s rest ih =>
      rw [survive] at h ⊢
      split_ifs at h ⊢ with hs hrest
      · simp [landedEntries, hs] at h
      · rfl
      · have : landedEntries (survive rest) = [] := by simpa [landedEntries] using h
        exact absurd (ih this) hrest

theorem image_survive (slots : List Slot) : image (survive slots) = image slots := by
  induction slots with
  | nil => rfl
  | cons s rest ih =>
    rw [survive, image]
    split_ifs with hs hrest hnil hnil
    · rw [image, if_pos hs, ih]
    · rfl
    · exact absurd ((survive_eq_nil_iff rest).mp hrest) hnil
    · exact absurd ((survive_eq_nil_iff rest).mpr hnil) hrest
    · rw [image, if_neg (by simp), ih, if_neg hnil]

/-- A new writer resumes right behind the surviving records. -/
theorem writeOffset_survive (slots : List Slot) :
    writeOffset (survive slots) = (image slots).length := by
  induction slots with
  | nil => rfl
  | cons s rest ih =>
    rw [survive, image]
    split_ifs with hs hrest hnil hnil
    · rw [writeOffset_cons, ih, List.length_append, Entry.length_encode]
    · rfl
    · exact absurd ((survive_eq_nil_iff rest).mp hrest) hnil
    · exact absurd ((survive_eq_nil_iff rest).mpr hnil) hrest
    · rw [writeOffset_cons, ih, List.length_append, length_zeros]

theorem survive_of_landed {slots : List Slot} (h : ∀ s ∈ slots, s.write = .landed) :
    survive slots = slots := by
  induction slots with
  | nil => rfl
  | cons s rest ih =>
    rw [survive, if_pos (h s List.mem_cons_self), ih fun r hr => h r (List.mem_cons_of_mem _ hr)]

theorem mem_survive {slots : List Slot} {s : Slot} (h : s ∈ survive slots) :
    s.write ≠ .inFlight ∧ ∃ t ∈ slots, t.entry = s.entry := by
  induction slots with
  | nil => cases h
  | cons r rest ih =>
    rw [survive] at h
    split_ifs at h with hr hrest
    case neg =>
      rcases List.mem_cons.mp h with rfl | h
      · exact ⟨by simp, r, List.mem_cons_self, rfl⟩
      · obtain ⟨hs, t, ht, heq⟩ := ih h
        exact ⟨hs, t, List.mem_cons_of_mem _ ht, heq⟩
    · rcases List.mem_cons.mp h with rfl | h
      · exact ⟨by simp [hr], s, List.mem_cons_self, rfl⟩
      · obtain ⟨hs, t, ht, heq⟩ := ih h
        exact ⟨hs, t, List.mem_cons_of_mem _ ht, heq⟩
    · cases h

/-! ### Several writers, one after another -/

/-- The life of one `WAL` object: the records appended to it, and the writes that reach
the file, by record index, in the order in which they land. An index occurs again when a
cancelled write that had landed was submitted once more. -/
structure Session where
  entries : List Entry
  writes : List ℕ

/-- The slots of a session after some of its writes. -/
def Session.slots (s : Session) (writes : List ℕ) : List Slot :=
  s.entries.mapIdx fun i e => ⟨e, if i ∈ writes then .landed else .inFlight⟩

/-- One write of a session that started on a file of `base` bytes. -/
def Session.write (s : Session) (base : ℕ) (file : Bytes) (i : ℕ) : Bytes :=
  match s.entries[i]? with
  | none => file
  | some e => pwrite 0 file (base + startOffset s.entries i) e.encode

/-- Open the file, append all records, let the writes land. -/
def Session.run (file : Bytes) (s : Session) : Bytes :=
  s.writes.foldl (s.write (resumeOffset file)) file

/-- The records of the session whose write landed, in append order. -/
def Session.landed (s : Session) : List Entry :=
  (s.entries.zipIdx.filter (fun p => p.2 ∈ s.writes)).map Prod.fst

theorem Session.landedEntries_slots (s : Session) :
    landedEntries (s.slots s.writes) = s.landed := by
  simp only [landedEntries, Session.slots, Session.landed, List.mapIdx_eq_zipIdx_map,
    List.filter_map, List.map_map]
  have hkept : s.entries.zipIdx.filter ((fun t : Slot => decide (t.write = .landed)) ∘ fun p =>
      ⟨p.1, if p.2 ∈ s.writes then .landed else .inFlight⟩) =
      s.entries.zipIdx.filter (fun p => p.2 ∈ s.writes) := by
    apply List.filter_congr
    intro p _
    by_cases hp : p.2 ∈ s.writes <;> simp [hp]
  rw [hkept]
  rfl

theorem Session.land_slots (s : Session) (writes : List ℕ) (i : ℕ) :
    land i (s.slots writes) = s.slots (writes ++ [i]) := by
  apply List.ext_getElem?
  intro j
  simp only [land, Session.slots, List.getElem?_modify, List.getElem?_mapIdx, List.mem_append,
    List.mem_singleton]
  cases s.entries[j]? with
  | none => rfl
  | some e =>
    by_cases hij : i = j
    · simp [hij]
    · simp [hij, Ne.symm hij]

theorem Session.writeOffset_take_slots (s : Session) (writes : List ℕ) (i : ℕ) :
    writeOffset ((s.slots writes).take i) = startOffset s.entries i := by
  have hmap : (s.slots writes).map (·.entry) = s.entries := by
    apply List.ext_getElem?
    intro j
    simp [Session.slots, Function.comp_def]
  rw [writeOffset, startOffset, ← hmap, ← List.map_take, List.map_map]
  rfl

/-- After any of its writes a session has added the image of its slots to the file. -/
theorem Session.foldl_write (s : Session) (file : Bytes) (writes : List ℕ) :
    writes.foldl (s.write (resumeOffset file)) file = file ++ image (s.slots writes) := by
  induction writes using List.reverseRecOn with
  | nil =>
    have hnil : image (s.slots []) = [] := by
      rw [image_eq_nil_iff, landedEntries, List.map_eq_nil_iff, List.filter_eq_nil_iff]
      intro t ht
      obtain ⟨i, -, rfl⟩ := List.mem_mapIdx.mp ht
      simp
    simp [hnil]
  | append_singleton writes i ih =>
    rw [List.foldl_append, ih, List.foldl_cons, List.foldl_nil, Session.write, ← s.land_slots]
    cases he : s.entries[i]? with
    | none =>
      have hland : land i (s.slots writes) = s.slots writes := by
        apply List.modify_eq_self
        simpa [Session.slots] using he
      simp [hland]
    | some e =>
      have hslot : (s.slots writes)[i]? = some ⟨e, if i ∈ writes then .landed else .inFlight⟩ := by
        simp [Session.slots, he]
      have himage := pwrite_image hslot
      rw [s.writeOffset_take_slots] at himage
      rw [← himage]
      exact pwrite_append_left 0 file _ _ _

theorem scan_sessions_append {sessions : List Session}
    (h : ∀ s ∈ sessions, ∀ e ∈ s.entries, e.Fits) (rest : Bytes) :
    scan (sessions.foldl Session.run [] ++ rest) =
      sessions.flatMap Session.landed ++ scan rest := by
  induction sessions using List.reverseRecOn generalizing rest with
  | nil => simp
  | append_singleton sessions s ih =>
    have hslots : ∀ t ∈ s.slots s.writes, t.entry.Fits := by
      intro t ht
      obtain ⟨i, hi, rfl⟩ := List.mem_mapIdx.mp ht
      exact h s (by simp) _ (List.getElem_mem hi)
    rw [List.foldl_append, List.foldl_cons, List.foldl_nil, Session.run, s.foldl_write,
      List.append_assoc, ih (fun t ht => h t (by simp [ht])), scan_image_append hslots,
      s.landedEntries_slots, List.flatMap_append, List.append_assoc]
    simp

/-- The log written by any number of sessions, each opened on what the previous one
left, is read back as the landed records of all of them in append order. -/
theorem recover_sessions (sessions : List Session)
    (hfits : ∀ s ∈ sessions, ∀ e ∈ s.entries, e.Fits)
    (hmax : (sessions.foldl Session.run []).length ≤ maxRecoveryBytes) :
    recover (sessions.foldl Session.run []) = .ok (sessions.flatMap Session.landed) := by
  rw [recover_of_le hmax]
  simpa using scan_sessions_append hfits []

/-- Two sessions: the second write of the first never lands, its third lands twice. -/
theorem recover_two_sessions :
    recover ([⟨[⟨.put, [1], [5]⟩, ⟨.put, [2], [6]⟩, ⟨.del, [1], []⟩], [2, 0, 2]⟩,
        ⟨[⟨.put, [3], [7]⟩], [0]⟩].foldl Session.run []) =
      .ok [⟨.put, [1], [5]⟩, ⟨.del, [1], []⟩, ⟨.put, [3], [7]⟩] :=
  recover_sessions [⟨[⟨.put, [1], [5]⟩, ⟨.put, [2], [6]⟩, ⟨.del, [1], []⟩], [2, 0, 2]⟩,
    ⟨[⟨.put, [3], [7]⟩], [0]⟩] (by decide) (by decide +kernel)

end LsmTree.Wal
