import LsmTree.CrashMachine
import LsmTree.LogSize

/-!
# One key, over and over

A put of a key that is in the memtable does not bring the next flush closer, and adds a
record to the log. One client that repeats it makes the log as large as it likes, with
every record landed and every call returned, and in the end larger than what the next
process is willing to read.
-/

namespace LsmTree.CrashMachine
open LittleEndian LayeredMap Merge Transition
open WalRing (Ticket ThreadId)

def overwrite : Op := .put (.ofBytes [1]) [2]

def overwriteRecord : Wal.Slot := ⟨overwrite.entry, .landed⟩

/-- A log of overwrites, and a memtable that knows only the last. -/
structure Overwritten (n : ℕ) (s : State) : Prop where
  down : s.down = none
  stage : s.store.stage = none
  calm : s.syncInProgress = false
  log : s.log = List.replicate n overwriteRecord
  limit : s.store.engine.memtable.maxBytes = Memtable.defaultMaxBytes
  entries : s.store.engine.memtable.entries = [] ∨
    s.store.engine.memtable.entries = [(.ofBytes [1], some [2])]

theorem alignedSize_overwrite : overwrite.entry.alignedSize = 512 := by decide

theorem writeOffset_overwrites (n : ℕ) :
    Wal.writeOffset (List.replicate n overwriteRecord) = n * 512 := by
  rw [Wal.writeOffset, List.map_replicate, List.sum_replicate, Nat.nsmul_eq_mul,
    overwriteRecord, alignedSize_overwrite]

theorem land_overwrite (n : ℕ) :
    Wal.land n (List.replicate n overwriteRecord ++ [⟨overwrite.entry, .inFlight⟩]) =
      List.replicate (n + 1) overwriteRecord := by
  rw [Wal.land, List.modify_eq_take_cons_drop (by simp), List.replicate_succ']
  simp [overwriteRecord]

theorem advance_insert {s : State} {op : Op} {height : Height} (hs : s.store.stage = some (.insert op height))
    (hfull : (s.store.engine.memtable.update op.key op.value height).isFull = false) :
    s.advance = { s with store := { s.store with
      engine := { s.store.engine with memtable := s.store.engine.memtable.update op.key op.value height }
      stage := some .release } } := by
  unfold State.advance Store.advance
  rw [hs]
  simp only [hfull]
  rfl

theorem advance_release {s : State} {t : ThreadId} (hs : s.store.stage = some .release)
    (ht : s.holder = some t) :
    s.advance = ({ s with store := { s.store with stage := none }, holder := none } : State).setPc t
      (s.released (s.threads t)) := by
  unfold State.advance Store.advance
  rw [hs, ht]

/-- A put that does not fill the memtable, up to its release of the engine lock. -/
def State.afterPut (s : State) (t : ThreadId) (op : Op) (height : Height) : State :=
  { s with
    store := { s.store with
      engine := { s.store.engine with
        log := s.store.engine.log ++ [⟨op.entry, .inFlight⟩]
        memtable := s.store.engine.memtable.update op.key op.value height }
      ops := s.store.ops ++ [op]
      stage := none }
    holder := none
    threads := Function.update s.threads t (s.released (.writing
      ⟨⟨s.epoch, Wal.writeOffset (s.store.engine.log ++ [⟨op.entry, .inFlight⟩])⟩,
        .write s.store.ops.length⟩)) }

theorem run_put {s : State} {t : ThreadId} {op : Op} {height : Height} (hdown : s.down = none)
    (hstage : s.store.stage = none) (hidle : s.threads t = .idle) (hfits : op.entry.Fits)
    (hfull : (s.store.engine.memtable.update op.key op.value height).isFull = false) :
    Run machine (fun _ _ => True) s [.write t op height, .step, .step] (s.afterPut t op height) := by
  have hinserted := advance_insert (s := next s (.write t op height)) rfl hfull
  have hreleased : (next s (.write t op height)).advance.advance = s.afterPut t op height := by
    rw [hinserted, advance_release (t := t) rfl rfl]
    simp only [next, State.setPc, Store.append, Function.update_self, Function.update_idem]
    rfl
  rw [← hreleased]
  refine .cons trivial ?_ (.cons trivial ?_ (.cons trivial ?_ (.nil _)))
  · exact ⟨by simp [hdown], by simp [hstage], hidle, hfits⟩
  · exact ⟨by simp [machine, next, State.setPc, hdown], trivial⟩
  · show Enabled (next s (.write t op height)).advance .step
    rw [hinserted]
    exact ⟨by simp [next, State.setPc, hdown], trivial⟩

/-- A put whose record lands after it has left the engine lock. -/
theorem overwritten_put {n : ℕ} {s : State} (h : Overwritten n s) (hidle : s.threads 0 = .idle) :
    ∃ s', Run machine (fun _ _ => True) s [.write 0 overwrite 0, .step, .step, .land n] s' ∧
      Overwritten (n + 1) s' ∧ s'.durability = s.durability ∧ s'.epoch = s.epoch ∧
      s'.durableEnd = s.durableEnd ∧
      s'.threads 0 = s.released (.writing ⟨⟨s.epoch, (n + 1) * 512⟩, .write s.store.ops.length⟩) := by
  have hfull : (s.store.engine.memtable.update overwrite.key overwrite.value 0).isFull = false :=
    Memtable.isFull_put_again h.limit h.entries
  have hfits : overwrite.entry.Fits := by decide
  have hput := run_put (t := 0) h.down h.stage hidle hfits hfull
  have hlog : (s.afterPut 0 overwrite 0).log =
      List.replicate n overwriteRecord ++ [⟨overwrite.entry, .inFlight⟩] := by
    rw [← h.log]
    rfl
  have hland : Run machine (fun _ _ => True) (s.afterPut 0 overwrite 0) [.land n]
      (next (s.afterPut 0 overwrite 0) (.land n)) := by
    refine .cons trivial ⟨by simp [State.afterPut, h.down], ?_⟩ (.nil _)
    show Option.map _ (s.afterPut 0 overwrite 0).log[n]? = _
    rw [hlog]
    simp
  refine ⟨_, hput.append hland, ⟨h.down, rfl, h.calm, ?_, h.limit, .inr (Memtable.entries_put_again h.entries)⟩,
    rfl, rfl, rfl, ?_⟩
  · show Wal.land n (s.afterPut 0 overwrite 0).log = _
    rw [hlog, land_overwrite]
  · have hstop : Wal.writeOffset (s.store.engine.log ++ [⟨overwrite.entry, .inFlight⟩]) = (n + 1) * 512 := by
      rw [Wal.writeOffset_append, show s.store.engine.log = _ from h.log, writeOffset_overwrites,
        Wal.writeOffset_cons, Wal.writeOffset_nil, alignedSize_overwrite]
      omega
    simp only [next, State.afterPut, Function.update_self, hstop]

@[simp] theorem threads_setPc (s : State) (t : ThreadId) (p : Pc) : (s.setPc t p).threads t = p :=
  Function.update_self _ _ _

@[simp] theorem setPc_setPc (s : State) (t : ThreadId) (p q : Pc) :
    (s.setPc t p).setPc t q = s.setPc t q := by
  rw [State.setPc, State.setPc, State.setPc, Function.update_idem]

/-- A wait in which the thread becomes leader, and finds the log drained. -/
theorem run_wait {s : State} {t : ThreadId} {w : Wait} (hdown : s.down = none)
    (hfree : s.store.clearing = false) (hcalm : s.syncInProgress = false) (hdrained : s.Drained)
    (hwait : s.threads t = .waiting w) (hepoch : w.ticket.epoch = s.epoch)
    (hend : s.durableEnd < w.ticket.stop) (hstop : w.ticket.stop ≤ Wal.writeOffset s.log) :
    Run machine (fun _ _ => True) s [.check t, .drain t, .settle t, .check t]
      ({ s with syncInProgress := false, durableEnd := Wal.writeOffset s.log }.finish t w.caller) := by
  have hlead : next s (.check t) = { s with syncInProgress := true }.setPc t (.leading w s.epoch) := by
    rw [next, hwait]
    simp only [State.check, hcalm]
    rw [if_neg (by simp [hepoch]), if_neg (by omega), if_neg (by simp)]
  have hdrain : next ({ s with syncInProgress := true }.setPc t (.leading w s.epoch)) (.drain t) =
      { s with syncInProgress := true }.setPc t (.drained w s.epoch (Wal.writeOffset s.log)) := by
    simp only [next, threads_setPc, setPc_setPc]
    rfl
  have hsettle : next ({ s with syncInProgress := true }.setPc t
      (.drained w s.epoch (Wal.writeOffset s.log))) (.settle t) =
      { s with syncInProgress := false, durableEnd := Wal.writeOffset s.log }.setPc t (.waiting w) := by
    have hmax : max s.durableEnd (Wal.writeOffset s.log) = Wal.writeOffset s.log :=
      Nat.max_eq_right (by omega)
    simp only [next, threads_setPc]
    simp [State.settle, State.setPc, hmax]
  have hreturn : next ({ s with syncInProgress := false, durableEnd := Wal.writeOffset s.log }.setPc t
      (.waiting w)) (.check t) =
      { s with syncInProgress := false, durableEnd := Wal.writeOffset s.log }.finish t w.caller := by
    simp only [next, threads_setPc]
    simp only [State.check, State.setPc, hepoch, hstop, ne_eq, not_true_eq_false, if_false, if_true]
    cases w.caller <;> simp [State.finish, State.setPc]
  have hone : s.down.isNone = true := by simp [hdown]
  refine .cons trivial ⟨hone, hfree⟩ ?_
  show Run machine _ (next s (.check t)) _ _
  rw [hlead]
  refine .cons trivial ⟨hone, hfree, hdrained⟩ ?_
  show Run machine _ (next _ (.drain t)) _ _
  rw [hdrain]
  refine .cons trivial ⟨hone, hfree⟩ ?_
  show Run machine _ (next _ (.settle t)) _ _
  rw [hsettle]
  refine .cons trivial ⟨hone, hfree⟩ ?_
  show Run machine _ (next _ (.check t)) _ _
  rw [hreturn]
  exact .nil _

theorem overwritten_wait {n : ℕ} {s : State} (h : Overwritten n s) {w : Wait}
    (hwait : s.threads 0 = .waiting w) (hepoch : w.ticket.epoch = s.epoch)
    (hstop : w.ticket.stop = n * 512) (hend : s.durableEnd < n * 512) :
    ∃ s', Run machine (fun _ _ => True) s [.check 0, .drain 0, .settle 0, .check 0] s' ∧
      Overwritten n s' ∧ s'.durability = s.durability ∧ s'.durableEnd = n * 512 ∧ s'.threads 0 = .idle := by
  have hoffset : Wal.writeOffset s.log = n * 512 := by rw [h.log, writeOffset_overwrites]
  have hdrained : s.Drained := by
    intro r hr
    rw [h.log] at hr
    rw [List.eq_of_mem_replicate hr]
    simp [overwriteRecord]
  have hrun := run_wait h.down (by rw [Store.clearing, h.stage]) h.calm hdrained hwait hepoch
    (by omega) (by omega)
  refine ⟨_, hrun, ?_⟩
  rw [hoffset]
  cases w.caller with
  | write i =>
    exact ⟨⟨h.down, h.stage, rfl, h.log, h.limit, h.entries⟩, rfl, rfl, by simp [State.finish]⟩
  | sync m =>
    exact ⟨⟨h.down, h.stage, rfl, h.log, h.limit, h.entries⟩, rfl, rfl, by simp [State.finish]⟩

/-- One acknowledged put. -/
def durableRound (n : ℕ) : List Event :=
  [.write 0 overwrite 0, .step, .step, .land n, .check 0, .drain 0, .settle 0, .check 0]

/-- One put and a `sync` after it. -/
def syncedRound (n : ℕ) : List Event :=
  [.write 0 overwrite 0, .step, .step, .land n, .sync 0, .check 0, .drain 0, .settle 0, .check 0]

/-- Between two rounds. -/
structure Between (durability : Durability) (n : ℕ) (s : State) : Prop extends Overwritten n s where
  durability_eq : s.durability = durability
  end_eq : s.durableEnd = n * 512
  idle : s.threads 0 = .idle

theorem between_initial (durability : Durability) :
    Between durability 0 (initial durability Memtable.defaultMaxBytes) :=
  ⟨⟨rfl, rfl, rfl, rfl, rfl, .inl (Memtable.entries_new _)⟩, rfl, rfl, rfl⟩

theorem between_durableRound {n : ℕ} {s : State} (h : Between .durable n s) :
    ∃ s', Run machine (fun _ _ => True) s (durableRound n) s' ∧ Between .durable (n + 1) s' := by
  obtain ⟨s₁, hrun₁, hover₁, hdur₁, hepoch₁, hend₁, hpc₁⟩ := overwritten_put h.toOverwritten h.idle
  rw [State.released, if_pos h.durability_eq] at hpc₁
  have hlt : s₁.durableEnd < (n + 1) * 512 := by
    have := h.end_eq
    omega
  obtain ⟨s₂, hrun₂, hover₂, hdur₂, hend₂, hidle₂⟩ := overwritten_wait hover₁ hpc₁ hepoch₁.symm rfl hlt
  exact ⟨s₂, hrun₁.append hrun₂, hover₂, by rw [hdur₂, hdur₁, h.durability_eq], hend₂, hidle₂⟩

theorem between_syncedRound {n : ℕ} {s : State} (h : Between .async n s) :
    ∃ s', Run machine (fun _ _ => True) s (syncedRound n) s' ∧ Between .async (n + 1) s' := by
  obtain ⟨s₁, hrun₁, hover₁, hdur₁, hepoch₁, hend₁, hpc₁⟩ := overwritten_put h.toOverwritten h.idle
  have hasync : ¬ s.durability = .durable := by simp [h.durability_eq]
  rw [State.released, if_neg hasync] at hpc₁
  have hlt : s₁.durableEnd < (n + 1) * 512 := by
    have := h.end_eq
    omega
  have hstop : Wal.writeOffset s₁.log = (n + 1) * 512 := by rw [hover₁.log, writeOffset_overwrites]
  have hsync : Run machine (fun _ _ => True) s₁ [.sync 0] (next s₁ (.sync 0)) :=
    .cons trivial ⟨by simp [hover₁.down], hpc₁, by rw [Store.clearing, hover₁.stage]⟩ (.nil _)
  have hover : Overwritten (n + 1) (next s₁ (.sync 0)) :=
    ⟨hover₁.down, hover₁.stage, hover₁.calm, hover₁.log, hover₁.limit, hover₁.entries⟩
  obtain ⟨s₂, hrun₂, hover₂, hdur₂, hend₂, hidle₂⟩ :=
    overwritten_wait hover (threads_setPc _ _ _) rfl hstop hlt
  refine ⟨s₂, hrun₁.append (hsync.append hrun₂), hover₂, ?_, hend₂, hidle₂⟩
  rw [hdur₂, ← h.durability_eq, ← hdur₁]
  rfl

/-- As many rounds as one likes. -/
theorem between_rounds {durability : Durability} {round : ℕ → List Event}
    (hround : ∀ n s, Between durability n s →
      ∃ s', Run machine (fun _ _ => True) s (round n) s' ∧ Between durability (n + 1) s') (n : ℕ) :
    ∃ s, Run machine (fun _ _ => True) (initial durability Memtable.defaultMaxBytes)
      ((List.range n).flatMap round) s ∧ Between durability n s := by
  induction n with
  | zero => exact ⟨_, .nil _, between_initial durability⟩
  | succ n ih =>
    obtain ⟨s, hrun, hs⟩ := ih
    obtain ⟨s', hrun', hs'⟩ := hround n s hs
    refine ⟨s', ?_, hs'⟩
    rw [List.range_succ, List.flatMap_append, List.flatMap_singleton]
    exact hrun.append hrun'

/-- A log of more than 1 GiB cannot be opened. -/
theorem Overwritten.reopen {n : ℕ} {s : State} (h : Overwritten n s)
    (hn : Wal.maxRecoveryBytes < n * 512) (maxBytes : ℕ) (heights : ℕ → Height) (e : Engine) :
    s.store.reopen maxBytes heights ≠ .ok e := by
  have hlen : (Wal.image s.log).length = n * 512 := by
    rw [h.log, Wal.image_of_all_landed (fun r hr => by rw [List.eq_of_mem_replicate hr]; rfl),
      Wal.length_encodeLog, List.map_replicate, List.map_replicate, List.sum_replicate, Nat.nsmul_eq_mul,
      overwriteRecord, alignedSize_overwrite]
  intro he
  rw [Store.reopen, Engine.construct] at he
  split at he
  case h_1 => cases he
  case h_2 entries hrecover =>
    have hle := (Wal.recover_ok_iff.mp hrecover).1
    rw [show (Wal.image s.store.engine.log).length = n * 512 from hlen] at hle
    omega

end LsmTree.CrashMachine
