import LsmTree.Faults
import LsmTree.WalScan

/-!
# The parse loop on arbitrary bytes

The loop of `WAL::recover` reads a buffer of any content. Here it is written out with
every access and every sum checked: an access outside the buffer, a sum that does not fit
its type and a loop that does not end are faults. Below `MAX_RECOVERY_BYTES` there are no
faults, and what the loop finds are records of the writer at sector boundaries, one after
the other.
-/

namespace LsmTree.Wal
open Faults LittleEndian

/-- What must not happen while a log is parsed. -/
inductive ParseFault where
  | outOfBounds | wrapped | endless
  deriving DecidableEq

/-- `buf[offset]`. -/
def loadByte (buf : Bytes) (offset : ℕ) : Except ParseFault UInt8 :=
  match buf[offset]? with
  | some b => .ok b
  | none => .error .outOfBounds

/-- The bytes from `buf.data() + offset` on. -/
def load (buf : Bytes) (offset n : ℕ) : Except ParseFault Bytes :=
  if offset + n ≤ buf.length then .ok ((buf.drop offset).take n) else .error .outOfBounds

/-- A sum in an unsigned type of so many bits. -/
def checked (bits n : ℕ) : Except ParseFault ℕ := if n < 2 ^ bits then .ok n else .error .wrapped

/-- How a round of the loop ends, with the next offset. -/
inductive Round where
  | stop
  | skip (next : ℕ)
  | found (next : ℕ) (e : Entry)

/-- `offset = ((entry_start / 512) + 1) * 512; continue`. -/
def resync (entryStart : ℕ) : Except ParseFault Round :=
  (checked 64 ((entryStart / 512 + 1) * 512)).map .skip

/-- The part of a round behind the length check. `entry_size` is a sum in 32 bits. -/
def parseFields (buf : Bytes) (entryStart payload : ℕ) (type : UInt8) (klen vlen : ℕ) :
    Except ParseFault Round :=
  (load buf payload klen).bind fun key =>
  (load buf (payload + klen) vlen).bind fun value =>
  (load buf (payload + klen + vlen) 4).bind fun stored =>
  if leNat stored ≠ (crc32 type key value).toNat then resync entryStart
  else if type ≠ 0x01 ∧ type ≠ 0x02 then resync entryStart
  else
    (checked 32 (1 + 4 + 4 + klen + vlen + 4)).bind fun entrySize =>
    (checked 64 (entryStart + align entrySize)).map fun next =>
      .found next ⟨if type = 0x01 then .put else .del, key, value⟩

/-- A round of the loop. Lengths are 32-bit and offsets 64-bit numbers. -/
def parseRound (buf : Bytes) (entryStart : ℕ) : Except ParseFault Round :=
  (checked 64 (entryStart + 1)).bind fun offset =>
  if buf.length < offset then .ok .stop
  else
    (loadByte buf entryStart).bind fun type =>
    if type = 0 then resync entryStart
    else
      (checked 64 (offset + 8)).bind fun payload =>
      if buf.length < payload then resync entryStart
      else
        (load buf offset 4).bind fun klen =>
        (load buf (offset + 4) 4).bind fun vlen =>
        (checked 64 (payload + leNat klen + leNat vlen + 4)).bind fun stop =>
        if buf.length < stop then resync entryStart
        else parseFields buf entryStart payload type (leNat klen) (leNat vlen)

/-- The loop, with the `entry_start` of every entry it finds. -/
def parseLoop (buf : Bytes) : ℕ → ℕ → Except ParseFault (List (ℕ × Entry))
  | 0, _ => .error .endless
  | fuel + 1, offset =>
    if offset < buf.length then
      (parseRound buf offset).bind fun round =>
        match round with
        | .stop => .ok []
        | .skip next => parseLoop buf fuel next
        | .found next e => (parseLoop buf fuel next).map ((offset, e) :: ·)
    else .ok []

def parse (buf : Bytes) : Except ParseFault (List (ℕ × Entry)) := parseLoop buf (buf.length + 1) 0

/-! ### One round -/

theorem checked_of_lt {bits n : ℕ} (h : n < 2 ^ bits) : checked bits n = .ok n := if_pos h

theorem load_of_le {buf : Bytes} {offset n : ℕ} (h : offset + n ≤ buf.length) :
    load buf offset n = .ok ((buf.drop offset).take n) :=
  if_pos h

theorem resync_of_lt {buf : Bytes} {offset : ℕ} (hbuf : buf.length ≤ maxRecoveryBytes)
    (hoffset : offset < buf.length) : resync offset = .ok (.skip ((offset / 512 + 1) * 512)) := by
  rw [resync, checked_of_lt]
  · rfl
  · simp only [maxRecoveryBytes] at hbuf
    omega

theorem parseFields_eq {buf : Bytes} {offset payload klen vlen : ℕ} {type : UInt8}
    (hbuf : buf.length ≤ maxRecoveryBytes) (hpayload : payload = offset + 9)
    (hfit : payload + klen + vlen + 4 ≤ buf.length) :
    parseFields buf offset payload type klen vlen =
      if leNat ((buf.drop (payload + klen + vlen)).take 4) ≠
          (crc32 type ((buf.drop payload).take klen) ((buf.drop (payload + klen)).take vlen)).toNat then
        .ok (.skip ((offset / 512 + 1) * 512))
      else if type ≠ 0x01 ∧ type ≠ 0x02 then .ok (.skip ((offset / 512 + 1) * 512))
      else .ok (.found (offset + align (1 + 4 + 4 + klen + vlen + 4))
        ⟨if type = 0x01 then .put else .del, (buf.drop payload).take klen,
          (buf.drop (payload + klen)).take vlen⟩) := by
  have hmax : maxRecoveryBytes = 2 ^ 30 := rfl
  have hsync := @resync_of_lt buf offset hbuf (by omega)
  have halign : align (1 + 4 + 4 + klen + vlen + 4) < 1 + 4 + 4 + klen + vlen + 4 + 512 := by
    unfold align
    omega
  rw [parseFields, load_of_le (by omega), load_of_le (by omega), load_of_le (by omega)]
  simp only [bind_ok, hsync]
  rw [checked_of_lt (by omega), bind_ok, checked_of_lt (by omega)]
  rfl

/-- Inside the loop a round does with checked accesses what the reader of a record does with the rest
of the buffer. -/
theorem parseRound_eq {buf : Bytes} {offset : ℕ} (hbuf : buf.length ≤ maxRecoveryBytes)
    (hoffset : offset < buf.length) :
    parseRound buf offset = match readRecord (buf.drop offset) with
      | .error _ => .ok (.skip ((offset / 512 + 1) * 512))
      | .ok e => .ok (.found (offset + e.alignedSize) e) := by
  have hmax : maxRecoveryBytes = 2 ^ 30 := rfl
  have hsync := resync_of_lt hbuf hoffset
  have hload : loadByte buf offset = .ok buf[offset] := by rw [loadByte, List.getElem?_eq_getElem hoffset]
  rw [List.drop_eq_getElem_cons hoffset, readRecord, parseRound, checked_of_lt (by omega), bind_ok,
    if_neg (by omega), hload, bind_ok]
  generalize buf[offset] = type
  by_cases hzero : type = 0
  · rw [if_pos hzero, if_pos hzero, hsync]
  rw [if_neg hzero, if_neg hzero, checked_of_lt (by omega), bind_ok, List.length_drop]
  by_cases hhead : buf.length < offset + 1 + 8
  · rw [if_pos hhead, if_pos (by omega), hsync]
  rw [if_neg hhead, if_neg (by omega), load_of_le (by omega), bind_ok, load_of_le (by omega), bind_ok]
  simp only [List.drop_drop, List.length_drop]
  have hklen := leNat_lt ((buf.drop (offset + 1)).take 4)
  have hvlen := leNat_lt ((buf.drop (offset + 1 + 4)).take 4)
  generalize leNat ((buf.drop (offset + 1)).take 4) = klen at *
  generalize leNat ((buf.drop (offset + 1 + 4)).take 4) = vlen at *
  have hpow : ∀ n, n ≤ 4 → 256 ^ n ≤ 2 ^ 32 := fun n hn => Nat.pow_le_pow_right (by decide : 0 < 256) hn
  have hklen' := hklen.trans_le (hpow _ (List.length_take_le _ _))
  have hvlen' := hvlen.trans_le (hpow _ (List.length_take_le _ _))
  rw [checked_of_lt (by omega), bind_ok]
  by_cases hbody : buf.length < offset + 1 + 8 + klen + vlen + 4
  · rw [if_pos hbody, if_pos (by omega), hsync]
  rw [if_neg hbody, if_neg (by omega), parseFields_eq hbuf (by omega) (by omega)]
  have hkey : ((buf.drop (offset + 1 + 8)).take klen).length = klen := by
    rw [List.length_take, List.length_drop]
    omega
  have hvalue : ((buf.drop (offset + 1 + 8 + klen)).take vlen).length = vlen := by
    rw [List.length_take, List.length_drop]
    omega
  simp only [← Nat.add_assoc]
  by_cases hcrc : leNat ((buf.drop (offset + 1 + 8 + klen + vlen)).take 4) ≠
      (crc32 type ((buf.drop (offset + 1 + 8)).take klen) ((buf.drop (offset + 1 + 8 + klen)).take vlen)).toNat
  · simp only [if_pos hcrc]
  · simp only [if_neg hcrc]
    by_cases hput : type = 1
    · simp [hput, Entry.alignedSize, Entry.size, hkey, hvalue]
    · by_cases hdel : type = 2
      · simp [hdel, Entry.alignedSize, Entry.size, hkey, hvalue]
      · simp [hput, hdel]

/-! ### Records and their offsets -/

/-- The scan of the bytes from an offset on, with the offset of every record. -/
def scanFrom (offset : ℕ) (bs : Bytes) : List (ℕ × Entry) :=
  if _h : bs = [] then []
  else match readRecord bs with
    | .error _ => scanFrom (offset + 512) (bs.drop 512)
    | .ok e => (offset, e) :: scanFrom (offset + e.alignedSize) (bs.drop e.alignedSize)
termination_by bs.length
decreasing_by
  all_goals
    have hpos := List.length_pos_iff.mpr _h
    simp only [List.length_drop]
  · omega
  · have := e.alignedSize_pos
    omega

@[simp] theorem scanFrom_nil (offset : ℕ) : scanFrom offset [] = [] := by rw [scanFrom, dif_pos rfl]

theorem scanFrom_of_ok {offset : ℕ} {bs : Bytes} {e : Entry} (h : readRecord bs = .ok e) :
    scanFrom offset bs = (offset, e) :: scanFrom (offset + e.alignedSize) (bs.drop e.alignedSize) := by
  have hne : bs ≠ [] := by
    rintro rfl
    simp [readRecord] at h
  rw [scanFrom, dif_neg hne, h]

theorem scanFrom_of_error {offset : ℕ} {bs : Bytes} {s : Skip} (h : readRecord bs = .error s) :
    scanFrom offset bs = scanFrom (offset + 512) (bs.drop 512) := by
  by_cases hne : bs = []
  · simp [hne]
  · rw [scanFrom, dif_neg hne, h]

/-- An induction over the rounds of a scan. -/
theorem scan_induction {motive : ℕ → Bytes → Prop} (nil : ∀ offset, motive offset [])
    (skip : ∀ offset bs s, readRecord bs = .error s → motive (offset + 512) (bs.drop 512) → motive offset bs)
    (found : ∀ offset bs e, readRecord bs = .ok e →
      motive (offset + e.alignedSize) (bs.drop e.alignedSize) → motive offset bs)
    (offset : ℕ) (bs : Bytes) : motive offset bs := by
  induction hn : bs.length using Nat.strong_induction_on generalizing offset bs with
  | _ n ih =>
    subst hn
    by_cases hne : bs = []
    · rw [hne]
      exact nil offset
    have hpos := List.length_pos_iff.mpr hne
    cases hread : readRecord bs with
    | error s => exact skip offset bs s hread (ih _ (by simp only [List.length_drop]; omega) _ _ rfl)
    | ok e =>
      have he := e.alignedSize_pos
      exact found offset bs e hread (ih _ (by simp only [List.length_drop]; omega) _ _ rfl)

theorem map_snd_scanFrom (offset : ℕ) (bs : Bytes) : (scanFrom offset bs).map Prod.snd = scan bs := by
  induction offset, bs using scan_induction with
  | nil offset => simp
  | skip offset bs s hread ih => rw [scanFrom_of_error hread, scan_of_error hread, ih]
  | found offset bs e hread ih => rw [scanFrom_of_ok hread, scan_of_ok hread, List.map_cons, ih]

/-- Every record that is found stands behind whole sectors, complete. -/
theorem mem_scanFrom {offset : ℕ} {bs : Bytes} {p : ℕ × Entry} (hp : p ∈ scanFrom offset bs) :
    ∃ d, p.1 = offset + d ∧ 512 ∣ d ∧ p.2.Fits ∧ p.2.body <+: bs.drop d := by
  induction offset, bs using scan_induction with
  | nil offset => simp at hp
  | skip offset bs s hread ih =>
    rw [scanFrom_of_error hread] at hp
    obtain ⟨d, hd, hdvd, hfits, hbody⟩ := ih hp
    refine ⟨512 + d, by omega, Nat.dvd_add (dvd_refl 512) hdvd, hfits, ?_⟩
    rwa [List.drop_drop] at hbody
  | found offset bs e hread ih =>
    rw [scanFrom_of_ok hread] at hp
    rcases List.mem_cons.mp hp with rfl | hp
    · obtain ⟨hfits, hbody⟩ := body_of_readRecord hread
      exact ⟨0, rfl, Nat.dvd_zero 512, hfits, hbody⟩
    · obtain ⟨d, hd, hdvd, hfits, hbody⟩ := ih hp
      refine ⟨e.alignedSize + d, by omega, Nat.dvd_add e.alignedSize_dvd hdvd, hfits, ?_⟩
      rwa [List.drop_drop] at hbody

/-- A record ends, with its padding, before the next one begins. -/
theorem pairwise_scanFrom (offset : ℕ) (bs : Bytes) :
    (scanFrom offset bs).Pairwise fun p q => p.1 + p.2.alignedSize ≤ q.1 := by
  induction offset, bs using scan_induction with
  | nil offset => simp
  | skip offset bs s hread ih =>
    rw [scanFrom_of_error hread]
    exact ih
  | found offset bs e hread ih =>
    rw [scanFrom_of_ok hread]
    refine List.pairwise_cons.mpr ⟨?_, ih⟩
    intro q hq
    obtain ⟨d, hd, -⟩ := mem_scanFrom hq
    simp only [hd]
    omega

/-! ### The loop -/

theorem parseLoop_eq {buf : Bytes} (hbuf : buf.length ≤ maxRecoveryBytes) {fuel offset : ℕ}
    (hoffset : 512 ∣ offset) (hpos : 0 < fuel) (hfuel : buf.length < offset + fuel) :
    parseLoop buf fuel offset = .ok (scanFrom offset (buf.drop offset)) := by
  induction fuel generalizing offset with
  | zero => omega
  | succ fuel ih =>
    rw [parseLoop]
    by_cases hlt : offset < buf.length
    · rw [if_pos hlt, parseRound_eq hbuf hlt]
      cases hread : readRecord (buf.drop offset) with
      | error s =>
        have hnext : (offset / 512 + 1) * 512 = offset + 512 := by omega
        rw [scanFrom_of_error hread, List.drop_drop]
        simp only [bind_ok, hnext]
        exact ih (by omega) (by omega) (by omega)
      | ok e =>
        have he := e.alignedSize_pos
        rw [scanFrom_of_ok hread, List.drop_drop]
        simp only [bind_ok]
        rw [ih (Nat.dvd_add hoffset e.alignedSize_dvd) (by omega) (by omega)]
        rfl
    · rw [if_neg hlt, List.drop_eq_nil_of_le (Nat.le_of_not_lt hlt), scanFrom_nil]

theorem parse_eq {buf : Bytes} (hbuf : buf.length ≤ maxRecoveryBytes) : parse buf = .ok (scanFrom 0 buf) := by
  rw [parse, parseLoop_eq hbuf (Nat.dvd_zero 512) (Nat.succ_pos _) (by omega), List.drop_zero]

/-- On every log within the limit the loop ends without reading outside the buffer and without a sum
that wraps around, and returns what `recover` returns. Each entry is the writer's record at its
offset; the offsets are multiples of 512 and increase, and no record reaches into the next. -/
theorem parse_finds_written_records {buf : Bytes} (hbuf : buf.length ≤ maxRecoveryBytes) :
    ∃ found, parse buf = .ok found ∧ recover buf = .ok (found.map Prod.snd) ∧
      found.Pairwise (fun p q => p.1 < q.1 ∧ p.1 + p.2.size ≤ q.1) ∧
      ∀ p ∈ found, 512 ∣ p.1 ∧ p.1 + p.2.size ≤ buf.length ∧ p.2.size < 2 ^ 32 ∧ p.2.Fits ∧
        (buf.drop p.1).take p.2.size = p.2.body := by
  refine ⟨scanFrom 0 buf, parse_eq hbuf, ?_, ?_, ?_⟩
  · rw [recover_of_le hbuf, map_snd_scanFrom]
  · refine (pairwise_scanFrom 0 buf).imp ?_
    intro p q hpq
    have hpos := p.2.alignedSize_pos
    have hsize := p.2.size_le_alignedSize
    omega
  · intro p hp
    obtain ⟨d, hd, hdvd, hfits, hbody⟩ := mem_scanFrom hp
    obtain rfl : d = p.1 := by omega
    have hmax : maxRecoveryBytes = 2 ^ 30 := rfl
    have hpos := p.2.size_pos
    have hlen := hbody.length_le
    rw [Entry.length_body, List.length_drop] at hlen
    refine ⟨hdvd, by omega, by omega, hfits, ?_⟩
    have htake := List.prefix_iff_eq_take.mp hbody
    rw [Entry.length_body] at htake
    exact htake.symm

/-- Two records, a sector with a length past the end between them, and a header that stops short. -/
def damagedLog : Bytes :=
  Entry.encode ⟨.put, [1], [5]⟩ ++ (0x01 :: List.replicate 511 0xFF) ++ Entry.encode ⟨.del, [1], []⟩ ++ [0x01, 0xFF, 0xFF]

theorem parse_finds_written_records_damagedLog :
    ∃ found, parse damagedLog = .ok found ∧ found.map Prod.snd = [⟨.put, [1], [5]⟩, ⟨.del, [1], []⟩] ∧
      ∀ p ∈ found, 512 ∣ p.1 ∧ (damagedLog.drop p.1).take p.2.size = p.2.body := by
  have hread : recover damagedLog = .ok [⟨.put, [1], [5]⟩, ⟨.del, [1], []⟩] := by decide +kernel
  obtain ⟨found, hparse, hrecover, -, hfound⟩ := parse_finds_written_records (show damagedLog.length ≤ _ by decide +kernel)
  rw [hread] at hrecover
  refine ⟨found, hparse, (Except.ok.inj hrecover).symm, fun p hp => ?_⟩
  obtain ⟨hdvd, -, -, -, hbody⟩ := hfound p hp
  exact ⟨hdvd, hbody⟩

end LsmTree.Wal
