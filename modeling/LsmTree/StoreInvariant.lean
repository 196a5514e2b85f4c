import LsmTree.CrashStore

/-!
# What a crash leaves of a store

Until its table is published, a flush has changed nothing that is read back: the tables
hold what earlier flushes have moved there, and the log the rest. From then on the
tables hold everything, and the records that are replayed over them repeat a part of it.
When the log is gone the two descriptions agree. A compaction keeps what the tables
say at every one of its steps.

A record of an earlier process that is still in the log was replayed when the engine
was opened, so it repeats what the engine has answered since then.
-/

namespace LsmTree
open LittleEndian LayeredMap Merge

namespace Store

/-- The log consists of the records of earlier processes, none of them on its way any more, and
of those of the operations that have not been flushed. -/
structure LogInv (s : Store) : Prop where
  recovered_le : s.recovered ≤ s.engine.log.length
  flushed_le : s.flushed ≤ s.ops.length
  aligned : s.current.map (·.entry) = (s.ops.drop s.flushed).map Op.entry
  old_settled : ∀ r ∈ s.old, r.write ≠ .inFlight
  current_kept : ∀ r ∈ s.current, r.write ≠ .lost
  unflushed : s.recovered ≠ 0 → s.flushed = 0
  old_base : ∀ k v, newest k (s.old.map slotLayer) = some v → s.base k = v
  fits : ∀ r ∈ s.engine.log, r.entry.Fits

/-- The tables and the records of earlier processes hold what has been flushed. -/
def Below (s : Store) : Prop :=
  ∀ k, resolve k (layers s.engine.dir.load ++ s.old.map slotLayer) =
    applyOps s.base (s.ops.take s.flushed) k

/-- The tables hold every operation. -/
def Settled (s : Store) : Prop :=
  ∀ k, resolve k (layers s.engine.dir.load) = applyOps s.base s.ops k

/-- A memtable with the entries of the log. -/
def Buffered (s : Store) (m : Memtable) : Prop :=
  ∀ k, lookup k m.entries = newest k (s.old.map slotLayer ++ (s.ops.drop s.flushed).map opLayer)

structure Cleared (s : Store) : Prop where
  log_nil : s.engine.log = []
  recovered_eq : s.recovered = 0
  flushed_eq : s.flushed = s.ops.length

/-- A table on its way to the directory. -/
structure Staged (s : Store) (t : SSTable) : Prop where
  load_eq : s.engine.dir.load = s.engine.sstables
  level : t.name.level = .l0
  newer : ∀ u ∈ s.engine.dir.files, u.name.level = .l0 → u.name.counter < t.name.counter
  counter_lt : t.name.counter < s.engine.sstCounter
  entries : t.entries = s.engine.memtable.entries

/-- A compaction under way. -/
structure Rewriting (s : Store) (outputs : List SSTable) (steps : List DirStep) : Prop where
  cleared : s.Cleared
  empty : s.engine.memtable.entries = []
  start : ∃ (d : Directory) (n : ℕ), Outputs d d.load outputs ∧
    s.engine.dir = d.applyAll ((compactionSteps d d.load outputs).take n) ∧
    steps = (compactionSteps d d.load outputs).drop n ∧
    (∀ t ∈ d.files, t.name.level = .l0 → t.name.counter < intMax) ∧
    ∀ k, resolve k (layers d.load) = applyOps s.base s.ops k

def StageInv (s : Store) : Option Stage → Prop
  | none | some .stage | some .release => s.engine.Ordered ∧ s.Below ∧ s.Buffered s.engine.memtable
  | some (.insert op height) =>
    s.engine.Ordered ∧ s.Below ∧ s.Buffered (s.engine.memtable.update op.key op.value height)
  | some (.publish t) => s.Staged t ∧ s.Below ∧ s.Buffered s.engine.memtable
  | some .clear | some .drain | some .unlink => s.engine.Ordered ∧ s.Settled
  | some .renew => s.engine.Ordered ∧ s.Settled ∧ s.Cleared
  | some .compact =>
    s.engine.Ordered ∧ s.Settled ∧ s.Cleared ∧ s.engine.memtable.entries = []
  | some (.rewrite outputs steps) => s.Rewriting outputs steps

structure Inv (s : Store) : Prop where
  log : s.LogInv
  counter_le : s.engine.sstCounter ≤ intMax
  l0_lt : ∀ t ∈ s.engine.dir.files, t.name.level = .l0 → t.name.counter < intMax
  stage : s.StageInv s.stage

/-! ### Records and operations -/

theorem old_append_current (s : Store) : s.old ++ s.current = s.engine.log := List.take_append_drop _ _

/-- The operation of a record of this process. -/
theorem LogInv.op_of_slot {s : Store} (h : s.LogInv) {i : ℕ} {r : Wal.Slot}
    (hi : s.current[i]? = some r) : ∃ op, s.ops[s.flushed + i]? = some op ∧ op.entry = r.entry := by
  have haligned := congrArg (·[i]?) h.aligned
  simp only [List.getElem?_map, List.getElem?_drop, hi, Option.map_some] at haligned
  cases hop : s.ops[s.flushed + i]? with
  | none =>
    rw [hop] at haligned
    cases haligned
  | some op =>
    rw [hop] at haligned
    exact ⟨op, rfl, (Option.some.inj haligned).symm⟩

theorem lookup_slotLayer {k : Key} {r : Wal.Slot} {op : Op} (h : op.entry = r.entry) :
    lookup k (slotLayer r) = if r.write = .landed ∧ op.key = k then some op.value else none := by
  rw [slotLayer, ← h]
  by_cases hr : r.write = .landed
  · simp [hr, Engine.recordLayer, lookup_cons]
  · simp [hr]

/-- An operation on a key of which no record is replayed from `i` on. -/
theorem LogInv.not_safe {s : Store} (h : s.LogInv) {k : Key} {i j : ℕ} {op : Op}
    (hnone : ∀ (n : ℕ) (r : Wal.Slot), i ≤ n → s.current[n]? = some r → lookup k (slotLayer r) = none)
    (hj : s.flushed + i ≤ j) (hop : s.ops[j]? = some op) (hkey : op.key = k) : ¬ s.Safe j := by
  rintro (hlt | ⟨r, hr, hlanded⟩)
  · omega
  · obtain ⟨op', hop', hentry⟩ := h.op_of_slot hr
    rw [Nat.add_sub_cancel' (by omega), hop] at hop'
    cases hop'
    have := hnone (j - s.flushed) r (by omega) hr
    rw [lookup_slotLayer hentry, if_pos ⟨hlanded, hkey⟩] at this
    cases this

/-- The tables under the buffered entries hold everything. -/
theorem Below.buffered {s : Store} (h : s.Below) {m : Memtable} (hm : s.Buffered m) (k : Key) :
    resolve k (layers s.engine.dir.load ++ [m.entries]) = applyOps s.base s.ops k :=
  calc resolve k (layers s.engine.dir.load ++ [m.entries])
      = resolve k (layers s.engine.dir.load ++
          (s.old.map slotLayer ++ (s.ops.drop s.flushed).map opLayer)) := by
        rw [resolve_append, newest_singleton, hm k, resolve_append]
    _ = applyOps (applyOps s.base (s.ops.take s.flushed)) (s.ops.drop s.flushed) k := by
        rw [← List.append_assoc, resolve_append, h k, applyOps_eq (applyOps _ _)]
    _ = applyOps s.base s.ops k := by rw [← applyOps_append, List.take_append_drop]

theorem Cleared.old_nil {s : Store} (h : s.Cleared) : s.old = [] := by
  rw [old, h.log_nil, List.take_nil]

theorem Cleared.below {s : Store} (h : s.Cleared) (hs : s.Settled) : s.Below := by
  intro k
  rw [h.old_nil, List.map_nil, List.append_nil, h.flushed_eq, List.take_length]
  exact hs k

theorem Cleared.buffered {s : Store} (h : s.Cleared) {m : Memtable} (hm : m.entries = []) :
    s.Buffered m := by
  intro k
  rw [hm, h.old_nil, h.flushed_eq, List.drop_length]
  rfl

/-- At every point the tables hold what was flushed or everything. -/
theorem Inv.below_or_settled {s : Store} (h : s.Inv) : s.Below ∨ s.Settled := by
  have hstage := h.stage
  cases hs : s.stage with
  | none =>
    rw [hs] at hstage
    exact .inl hstage.2.1
  | some next =>
    rw [hs] at hstage
    cases next with
    | insert op height => exact .inl hstage.2.1
    | stage => exact .inl hstage.2.1
    | publish t => exact .inl hstage.2.1
    | clear => exact .inr hstage.2
    | drain => exact .inr hstage.2
    | unlink => exact .inr hstage.2
    | renew => exact .inr hstage.2.1
    | compact => exact .inr hstage.2.1
    | rewrite outputs steps =>
      obtain ⟨d, n, hout, hdir, -, -, hread⟩ := hstage.start
      right
      intro k
      rw [hdir, resolve_crash hout n k, hread k]
    | release => exact .inl hstage.2.1

/-! ### Appending and landing -/

theorem LogInv.append {s : Store} (h : s.LogInv) {op : Op} (hfits : op.entry.Fits) (height : Height) :
    (s.append op height).LogInv where
  recovered_le := by
    have := h.recovered_le
    simp only [Store.append, List.length_append, List.length_singleton]
    omega
  flushed_le := by
    have := h.flushed_le
    simp only [Store.append, List.length_append, List.length_singleton]
    omega
  aligned := by
    have := h.aligned
    simp only [current, Store.append] at this ⊢
    rw [List.drop_append_of_le_length h.recovered_le, List.drop_append_of_le_length h.flushed_le,
      List.map_append, List.map_append, this]
    rfl
  old_settled := by
    simp only [old, Store.append]
    rw [List.take_append_of_le_length h.recovered_le]
    exact h.old_settled
  current_kept := by
    simp only [current, Store.append]
    rw [List.drop_append_of_le_length h.recovered_le]
    intro r hr
    rcases List.mem_append.mp hr with hr | hr
    · exact h.current_kept r hr
    · rw [List.mem_singleton.mp hr]
      simp
  unflushed := h.unflushed
  old_base := by
    simp only [old, Store.append]
    rw [List.take_append_of_le_length h.recovered_le]
    exact h.old_base
  fits := by
    intro r hr
    rcases List.mem_append.mp hr with hr | hr
    · exact h.fits r hr
    · rw [List.mem_singleton.mp hr]
      exact hfits

theorem old_append {s : Store} (h : s.LogInv) (op : Op) (height : Height) :
    (s.append op height).old = s.old := List.take_append_of_le_length h.recovered_le

theorem Inv.append {s : Store} (h : s.Inv) (hfree : s.stage = none) {op : Op} (hfits : op.entry.Fits)
    (height : Height) : (s.append op height).Inv := by
  have hstage := h.stage
  rw [hfree] at hstage
  obtain ⟨hord, hbelow, hbuf⟩ := hstage
  refine ⟨h.log.append hfits height, h.counter_le, h.l0_lt, ⟨⟨hord.load_eq, hord.l0_lt⟩, ?_, ?_⟩⟩
  · intro k
    rw [old_append h.log]
    simp only [Store.append]
    rw [List.take_append_of_le_length h.log.flushed_le]
    exact hbelow k
  · intro k
    rw [old_append h.log]
    simp only [Store.append]
    rw [Memtable.entries_update, lookup_upsert, hbuf k, List.drop_append_of_le_length h.log.flushed_le,
      List.map_append, ← List.append_assoc, List.map_singleton, newest_append_singleton, lookup_opLayer]
    simp only [eq_comm (a := k)]
    split_ifs <;> rfl

/-- The log invariant looks at the log and at what is recorded about it. -/
theorem LogInv.frame {s t : Store} (h : s.LogInv) (hlog : t.engine.log = s.engine.log)
    (hbase : t.base = s.base) (hops : t.ops = s.ops) (hflushed : t.flushed = s.flushed)
    (hrecovered : t.recovered = s.recovered) : t.LogInv := by
  have hold : t.old = s.old := by rw [old, old, hlog, hrecovered]
  have hcurrent : t.current = s.current := by rw [current, current, hlog, hrecovered]
  constructor
  · rw [hlog, hrecovered]
    exact h.recovered_le
  · rw [hops, hflushed]
    exact h.flushed_le
  · rw [hcurrent, hops, hflushed]
    exact h.aligned
  · rw [hold]
    exact h.old_settled
  · rw [hcurrent]
    exact h.current_kept
  · rw [hrecovered, hflushed]
    exact h.unflushed
  · rw [hold, hbase]
    exact h.old_base
  · rw [hlog]
    exact h.fits

theorem Inv.startFlush {s : Store} (h : s.Inv) (hfree : s.stage = none) : s.startFlush.Inv := by
  have hstage := h.stage
  rw [hfree] at hstage
  exact ⟨h.log.frame rfl rfl rfl rfl rfl, h.counter_le, h.l0_lt, hstage⟩

/-- Only a record of this process can be on its way. -/
theorem LogInv.recovered_le_of_inFlight {s : Store} (h : s.LogInv) {i : ℕ} {r : Wal.Slot}
    (hi : s.engine.log[i]? = some r) (hr : r.write = .inFlight) : s.recovered ≤ i := by
  by_contra hlt
  have hmem : r ∈ s.old := by
    apply List.mem_iff_getElem?.mpr
    exact ⟨i, by rw [old, List.getElem?_take_of_lt (by omega), hi]⟩
  exact h.old_settled r hmem hr

theorem old_land {s : Store} {i : ℕ} (h : s.recovered ≤ i) : (s.land i).old = s.old := by
  simp only [old, Store.land, Wal.land]
  rw [List.take_modify]
  exact List.modify_eq_self (by rw [List.length_take]; omega)

theorem current_land {s : Store} {i : ℕ} (h : s.recovered ≤ i) :
    (s.land i).current = Wal.land (i - s.recovered) s.current :=
  List.drop_modify_of_ge _ _ _ _ h

theorem LogInv.land {s : Store} (h : s.LogInv) {i : ℕ} (hi : s.recovered ≤ i) : (s.land i).LogInv where
  recovered_le := by
    simp only [Store.land, Wal.land, List.length_modify]
    exact h.recovered_le
  flushed_le := h.flushed_le
  aligned := by
    rw [current_land hi, Wal.map_entry_land]
    exact h.aligned
  old_settled := by
    rw [old_land hi]
    exact h.old_settled
  current_kept := by
    rw [current_land hi]
    intro r hr
    obtain ⟨q, hq, -, hw | hw⟩ := Wal.mem_land hr
    · rw [hw]
      exact h.current_kept q hq
    · simp [hw]
  unflushed := h.unflushed
  old_base := by
    rw [old_land hi]
    exact h.old_base
  fits := by
    intro r hr
    obtain ⟨q, hq, hentry, -⟩ := Wal.mem_land hr
    rw [← hentry]
    exact h.fits q hq

/-- A record that lands changes only itself. -/
theorem Inv.land {s : Store} (h : s.Inv) {i : ℕ} (hi : s.recovered ≤ i) : (s.land i).Inv := by
  have hold := old_land hi
  have hbelow : s.Below → (s.land i).Below := by
    intro hb k
    rw [hold]
    exact hb k
  have hbuf : ∀ m, s.Buffered m → (s.land i).Buffered m := by
    intro m hb k
    rw [hold]
    exact hb k
  have hcleared : s.Cleared → (s.land i).Cleared := by
    intro hc
    refine ⟨?_, hc.recovered_eq, hc.flushed_eq⟩
    simp only [Store.land, hc.log_nil, Wal.land, List.modify_nil]
  have hord : s.engine.Ordered → (s.land i).engine.Ordered := fun ho => ⟨ho.load_eq, ho.l0_lt⟩
  refine ⟨h.log.land hi, h.counter_le, h.l0_lt, ?_⟩
  have hstage := h.stage
  show (s.land i).StageInv s.stage
  cases hs : s.stage with
  | none =>
    rw [hs] at hstage
    exact ⟨hord hstage.1, hbelow hstage.2.1, hbuf _ hstage.2.2⟩
  | some next =>
    rw [hs] at hstage
    cases next with
    | insert op height => exact ⟨hord hstage.1, hbelow hstage.2.1, hbuf _ hstage.2.2⟩
    | stage => exact ⟨hord hstage.1, hbelow hstage.2.1, hbuf _ hstage.2.2⟩
    | publish t =>
      obtain ⟨hst, hb, hm⟩ := hstage
      exact ⟨⟨hst.load_eq, hst.level, hst.newer, hst.counter_lt, hst.entries⟩, hbelow hb, hbuf _ hm⟩
    | clear => exact ⟨hord hstage.1, hstage.2⟩
    | drain => exact ⟨hord hstage.1, hstage.2⟩
    | unlink => exact ⟨hord hstage.1, hstage.2⟩
    | renew => exact ⟨hord hstage.1, hstage.2.1, hcleared hstage.2.2⟩
    | compact => exact ⟨hord hstage.1, hstage.2.1, hcleared hstage.2.2.1, hstage.2.2.2⟩
    | rewrite outputs steps => exact ⟨hcleared hstage.cleared, hstage.empty, hstage.start⟩
    | release => exact ⟨hord hstage.1, hbelow hstage.2.1, hbuf _ hstage.2.2⟩

/-! ### The steps of a call -/

theorem load_apply_publish {d : Directory} {t : SSTable} (hl : t.name.level = .l0)
    (hlt : ∀ u ∈ d.files, u.name.level = .l0 → u.name.counter < t.name.counter) :
    (d.apply (.publish t)).load = d.load ++ [t] := load_publish hl hlt

/-- The table of a memtable gets a number past those of the directory. -/
theorem staged_of_ordered {s : Store} (h : s.engine.Ordered) (hlt : s.engine.sstCounter < intMax) :
    Staged { s with
      engine := { s.engine with
        sstCounter := s.engine.sstCounter + 1
        dir := s.engine.dir.apply (.stage (s.engine.table hlt.le)) }
      stage := some (.publish (s.engine.table hlt.le)) } (s.engine.table hlt.le) := by
  refine ⟨h.load_eq, rfl, ?_, Nat.lt_succ_self _, rfl⟩
  intro u hu hl
  have hin : u ∈ s.engine.sstables := by
    rw [← h.load_eq, Directory.mem_load]
    exact hu
  exact h.l0_lt u hin hl

/-- The table that is published is the newest of the directory, and its number is in use. -/
theorem Staged.ordered {s : Store} {t : SSTable} (h : s.Staged t) (hle : s.engine.sstCounter ≤ intMax)
    (hl0 : ∀ u ∈ s.engine.dir.files, u.name.level = .l0 → u.name.counter < intMax) :
    Engine.Ordered { s.engine with sstables := s.engine.sstables ++ [t], dir := s.engine.dir.apply (.publish t) } ∧
      ∀ u ∈ (s.engine.dir.apply (.publish t)).files, u.name.level = .l0 → u.name.counter < intMax := by
  have hfiles : ∀ u ∈ (s.engine.dir.apply (.publish t)).files, u ∈ s.engine.dir.files ∨ u = t :=
    fun u hu => (mem_files_publish (name_ne_of_lt h.level h.newer) u).mp hu
  refine ⟨⟨?_, ?_⟩, ?_⟩
  · show (s.engine.dir.apply (.publish t)).load = s.engine.sstables ++ [t]
    rw [load_apply_publish h.level h.newer, h.load_eq]
  · intro u hu hl
    rcases List.mem_append.mp hu with hu | hu
    · rw [← h.load_eq, Directory.mem_load] at hu
      exact Nat.lt_trans (h.newer u hu hl) h.counter_lt
    · rw [List.mem_singleton.mp hu]
      exact h.counter_lt
  · intro u hu hl
    rcases hfiles u hu with hu | rfl
    · exact hl0 u hu hl
    · exact Nat.lt_of_lt_of_le h.counter_lt hle

theorem Inv.publish {s s' : Store} (h : s.Inv) {t : SSTable} (hs : s.stage = some (.publish t))
    (ha : s.advance = .ok s') : s'.Inv := by
  have hstage := h.stage
  rw [hs] at hstage
  obtain ⟨hst, hbelow, hbuf⟩ := hstage
  simp only [Store.advance, hs] at ha
  cases ha
  obtain ⟨hord, hl0⟩ := hst.ordered h.counter_le h.l0_lt
  refine ⟨h.log.frame rfl rfl rfl rfl rfl, h.counter_le, hl0, hord, ?_⟩
  intro k
  show resolve k (layers (s.engine.dir.apply (.publish t)).load) = _
  rw [load_apply_publish hst.level hst.newer, layers_append, ← hbelow.buffered hbuf k, ← hst.entries]
  rfl

theorem Cleared.logInv {s : Store} (h : s.Cleared) : s.LogInv where
  recovered_le := by
    rw [h.recovered_eq]
    exact Nat.zero_le _
  flushed_le := h.flushed_eq.le
  aligned := by simp [current, h.log_nil, h.flushed_eq]
  old_settled := by simp [h.old_nil]
  current_kept := by simp [current, h.log_nil]
  unflushed := fun hne => absurd h.recovered_eq hne
  old_base := by simp [h.old_nil]
  fits := by simp [h.log_nil]

theorem Inv.compact {s s' : Store} (h : s.Inv) (hs : s.stage = some .compact)
    (ha : s.advance = .ok s') : s'.Inv := by
  have hstage := h.stage
  rw [hs] at hstage
  obtain ⟨hord, hset, hclr, hempty⟩ := hstage
  have hclr' : ∀ stage, ({ s with stage := stage } : Store).Cleared :=
    fun _ => ⟨hclr.log_nil, hclr.recovered_eq, hclr.flushed_eq⟩
  simp only [Store.advance, hs] at ha
  split at ha
  case isTrue =>
    cases ha
    exact ⟨h.log.frame rfl rfl rfl rfl rfl, h.counter_le, h.l0_lt, hord, (hclr' _).below hset,
      (hclr' _).buffered hempty⟩
  case isFalse =>
    split at ha
    case h_1 => cases ha
    case h_2 outputs hout =>
      cases ha
      refine ⟨h.log.frame rfl rfl rfl rfl rfl, h.counter_le, h.l0_lt, hclr' _, hempty, ?_⟩
      refine ⟨s.engine.dir, 0, hord.outputs hout, rfl, ?_, h.l0_lt, hset⟩
      rw [hord.load_eq, List.drop_zero]

theorem Inv.rewrite {s s' : Store} (h : s.Inv) {outputs : List SSTable} {steps : List DirStep}
    (hs : s.stage = some (.rewrite outputs steps)) (ha : s.advance = .ok s') : s'.Inv := by
  have hstage := h.stage
  rw [hs] at hstage
  obtain ⟨hclr, hempty, d, n, hout, hdir, hsteps, hl0, hread⟩ := hstage
  simp only [Store.advance, hs] at ha
  cases steps with
  | nil =>
    cases ha
    have hlen := List.drop_eq_nil_iff.mp hsteps.symm
    have hload : s.engine.dir.load = outputs := by
      rw [hdir, List.take_of_length_le hlen, load_compacted hout]
    have hset : s.Settled := by
      intro k
      rw [hdir, resolve_crash hout n k, hread k]
    refine ⟨h.log.frame rfl rfl rfl rfl rfl, Nat.zero_le _, h.l0_lt, ⟨hload, ?_⟩, ?_, ?_⟩
    · intro t ht hl
      rw [hout.level t ht] at hl
      cases hl
    · exact Cleared.below ⟨hclr.log_nil, hclr.recovered_eq, hclr.flushed_eq⟩ hset
    · exact Cleared.buffered ⟨hclr.log_nil, hclr.recovered_eq, hclr.flushed_eq⟩ hempty
  | cons step steps =>
    cases ha
    have hlt : n < (compactionSteps d d.load outputs).length := by
      by_contra hge
      rw [List.drop_of_length_le (Nat.le_of_not_lt hge)] at hsteps
      cases hsteps
    rw [List.drop_eq_getElem_cons hlt] at hsteps
    obtain ⟨hstep, hrest⟩ := List.cons.inj hsteps
    have hnext : s.engine.dir.apply step =
        d.applyAll ((compactionSteps d d.load outputs).take (n + 1)) := by
      rw [List.take_succ_eq_append_getElem hlt, applyAll_append, ← hdir, ← hstep]
      rfl
    refine ⟨h.log.frame rfl rfl rfl rfl rfl, h.counter_le, ?_,
      ⟨hclr.log_nil, hclr.recovered_eq, hclr.flushed_eq⟩, hempty, d, n + 1, hout, hnext, hrest, hl0, hread⟩
    intro t ht hl
    rw [show _ = _ from hnext] at ht
    rcases ((mem_files_crash hout (n + 1)).2 t).mp ht with hin | hin
    · exact hl0 t (Directory.mem_load.mp (List.mem_of_mem_drop hin)) hl
    · rw [hout.level t (List.mem_of_mem_take hin)] at hl
      cases hl

/-- Every step of a call keeps the invariant. -/
theorem Inv.advance {s s' : Store} (h : s.Inv) (ha : s.advance = .ok s') : s'.Inv := by
  have hstage := h.stage
  cases hs : s.stage with
  | none =>
    simp only [Store.advance, hs] at ha
    cases ha
    exact h
  | some next =>
    rw [hs] at hstage
    cases next with
    | publish t => exact h.publish hs ha
    | compact => exact h.compact hs ha
    | rewrite outputs steps => exact h.rewrite hs ha
    | insert op height =>
      simp only [Store.advance, hs] at ha
      cases ha
      obtain ⟨hord, hbelow, hbuf⟩ := hstage
      refine ⟨h.log.frame rfl rfl rfl rfl rfl, h.counter_le, h.l0_lt, ?_⟩
      dsimp only
      split_ifs
      · exact ⟨⟨hord.load_eq, hord.l0_lt⟩, hbelow, hbuf⟩
      · exact ⟨⟨hord.load_eq, hord.l0_lt⟩, hbelow, hbuf⟩
    | stage =>
      simp only [Store.advance, hs] at ha
      split at ha
      case isFalse => cases ha
      case isTrue hlt =>
        cases ha
        obtain ⟨hord, hbelow, hbuf⟩ := hstage
        exact ⟨h.log.frame rfl rfl rfl rfl rfl, hlt, h.l0_lt, staged_of_ordered hord hlt, hbelow, hbuf⟩
    | clear | drain =>
      simp only [Store.advance, hs] at ha
      cases ha
      exact ⟨h.log.frame rfl rfl rfl rfl rfl, h.counter_le, h.l0_lt, hstage⟩
    | unlink =>
      simp only [Store.advance, hs] at ha
      cases ha
      exact ⟨Cleared.logInv ⟨rfl, rfl, rfl⟩, h.counter_le, h.l0_lt,
        ⟨hstage.1.load_eq, hstage.1.l0_lt⟩, hstage.2, rfl, rfl, rfl⟩
    | renew =>
      simp only [Store.advance, hs] at ha
      cases ha
      obtain ⟨hord, hset, hclr⟩ := hstage
      exact ⟨h.log.frame rfl rfl rfl rfl rfl, h.counter_le, h.l0_lt, ⟨hord.load_eq, hord.l0_lt⟩, hset,
        ⟨hclr.log_nil, hclr.recovered_eq, hclr.flushed_eq⟩, Memtable.entries_new _⟩
    | release =>
      simp only [Store.advance, hs] at ha
      cases ha
      exact ⟨h.log.frame rfl rfl rfl rfl rfl, h.counter_le, h.l0_lt, hstage⟩

/-- A step in range is defined. -/
theorem Inv.advance_isOk {s : Store} (h : s.Inv) (hrange : s.InRange) : ∃ s', s.advance = .ok s' := by
  have hstage := h.stage
  unfold Store.advance
  unfold InRange at hrange
  cases hs : s.stage with
  | none => exact ⟨_, rfl⟩
  | some next =>
    rw [hs] at hstage hrange
    cases next with
    | stage =>
      simp only
      rw [dif_pos hrange]
      exact ⟨_, rfl⟩
    | compact =>
      simp only
      split
      · exact ⟨_, rfl⟩
      case isFalse hmany =>
        have hsome : (compactionOutputs s.engine.dir s.engine.sstables).isSome := by
          rw [compactionOutputs_isSome, hstage.1.l1Start_eq]
          exact hrange (Nat.le_of_not_lt hmany)
        obtain ⟨outputs, hout⟩ := Option.isSome_iff_exists.mp hsome
        rw [hout]
        exact ⟨_, rfl⟩
    | rewrite outputs steps => cases steps <;> exact ⟨_, rfl⟩
    | insert op height => exact ⟨_, rfl⟩
    | publish t => exact ⟨_, rfl⟩
    | clear | drain | unlink | renew | release => exact ⟨_, rfl⟩

/-- The parts of a store that a waiting thread depends on. -/
structure Quiet (s s' : Store) : Prop where
  log_eq : s'.engine.log = s.engine.log
  base_eq : s'.base = s.base
  ops_eq : s'.ops = s.ops
  flushed_eq : s'.flushed = s.flushed
  recovered_eq : s'.recovered = s.recovered
  clearing_eq : s'.clearing = s.clearing

/-- The steps that change them are those of `clear`. -/
theorem advance_cases {s s' : Store} (ha : s.advance = .ok s') :
    (s.stage ≠ some .clear ∧ s.Quiet s') ∨
    (s.stage = some .clear ∧ s' = { s with stage := some .drain }) ∨
    (s.stage = some .unlink ∧ s'.Cleared ∧ s'.base = s.base ∧ s'.ops = s.ops ∧ s'.clearing = true) ∨
    (s.stage = some .renew ∧ s'.engine.log = s.engine.log ∧ s'.base = s.base ∧ s'.ops = s.ops ∧
      s'.flushed = s.flushed ∧ s'.recovered = s.recovered ∧ s'.clearing = false) := by
  unfold Store.advance at ha
  cases hs : s.stage with
  | none =>
    rw [hs] at ha
    cases ha
    exact .inl ⟨by simp, rfl, rfl, rfl, rfl, rfl, rfl⟩
  | some next =>
    rw [hs] at ha
    cases next with
    | insert op height =>
      cases ha
      refine .inl ⟨by simp, rfl, rfl, rfl, rfl, rfl, ?_⟩
      simp only [clearing, hs]
      split_ifs <;> rfl
    | stage =>
      simp only at ha
      split at ha
      case isFalse => cases ha
      case isTrue =>
        cases ha
        exact .inl ⟨by simp, rfl, rfl, rfl, rfl, rfl, by simp [clearing, hs]⟩
    | publish t =>
      cases ha
      exact .inl ⟨by simp, rfl, rfl, rfl, rfl, rfl, by simp [clearing, hs]⟩
    | clear =>
      cases ha
      exact .inr (.inl ⟨rfl, rfl⟩)
    | drain =>
      cases ha
      exact .inl ⟨by simp, rfl, rfl, rfl, rfl, rfl, by simp [clearing, hs]⟩
    | unlink =>
      cases ha
      exact .inr (.inr (.inl ⟨rfl, ⟨rfl, rfl, rfl⟩, rfl, rfl, rfl⟩))
    | renew =>
      cases ha
      exact .inr (.inr (.inr ⟨rfl, rfl, rfl, rfl, rfl, rfl, rfl⟩))
    | compact =>
      simp only at ha
      split at ha
      · cases ha
        exact .inl ⟨by simp, rfl, rfl, rfl, rfl, rfl, by simp [clearing, hs]⟩
      · split at ha
        · cases ha
        · cases ha
          exact .inl ⟨by simp, rfl, rfl, rfl, rfl, rfl, by simp [clearing, hs]⟩
    | rewrite outputs steps =>
      cases steps with
      | nil =>
        cases ha
        exact .inl ⟨by simp, rfl, rfl, rfl, rfl, rfl, by simp [clearing, hs]⟩
      | cons step steps =>
        cases ha
        exact .inl ⟨by simp, rfl, rfl, rfl, rfl, rfl, by simp [clearing, hs]⟩
    | release =>
      cases ha
      exact .inl ⟨by simp, rfl, rfl, rfl, rfl, rfl, by simp [clearing, hs]⟩

theorem advance_ops {s s' : Store} (ha : s.advance = .ok s') : s'.base = s.base ∧ s'.ops = s.ops := by
  rcases advance_cases ha with ⟨-, hq⟩ | ⟨-, rfl⟩ | ⟨-, -, hbase, hops, -⟩ | ⟨-, -, hbase, hops, -⟩
  · exact ⟨hq.base_eq, hq.ops_eq⟩
  · exact ⟨rfl, rfl⟩
  · exact ⟨hbase, hops⟩
  · exact ⟨hbase, hops⟩

/-- What a crash cannot take back stays so. -/
theorem Safe.append {s : Store} {j : ℕ} (h : s.Safe j) (hlog : s.LogInv) (op : Op) (height : Height) :
    (s.append op height).Safe j := by
  rcases h with h | ⟨r, hr, hlanded⟩
  · exact .inl h
  · refine .inr ⟨r, ?_, hlanded⟩
    have hlt := (List.getElem?_eq_some_iff.mp hr).1
    simp only [current, Store.append] at hr hlt ⊢
    rw [List.drop_append_of_le_length hlog.recovered_le, List.getElem?_append_left hlt, hr]

theorem Safe.land {s : Store} {i j : ℕ} (h : s.Safe j) (hi : s.recovered ≤ i) : (s.land i).Safe j := by
  rcases h with h | ⟨r, hr, hlanded⟩
  · exact .inl h
  · right
    rw [current_land hi]
    show ∃ q, (Wal.land (i - s.recovered) s.current)[j - s.flushed]? = some q ∧ _
    rw [Wal.land, List.getElem?_modify, hr]
    split_ifs
    · exact ⟨_, rfl, rfl⟩
    · exact ⟨r, rfl, hlanded⟩

theorem Safe.quiet {s s' : Store} {j : ℕ} (h : s.Safe j) (hq : s.Quiet s') : s'.Safe j := by
  rw [Safe, current, hq.flushed_eq, hq.log_eq, hq.recovered_eq]
  exact h

theorem LogInv.length_current {s : Store} (h : s.LogInv) :
    s.current.length = s.ops.length - s.flushed := by
  simpa using congrArg List.length h.aligned

theorem Safe.lt {s : Store} {j : ℕ} (h : s.Safe j) (hlog : s.LogInv) : j < s.ops.length := by
  have hlen := hlog.length_current
  have hle := hlog.flushed_le
  rcases h with h | ⟨r, hr, -⟩
  · omega
  · have := (List.getElem?_eq_some_iff.mp hr).1
    omega

theorem Safe.advance {s s' : Store} {j : ℕ} (h : s.Safe j) (hlog : s.LogInv)
    (ha : s.advance = .ok s') : s'.Safe j := by
  rcases advance_cases ha with ⟨-, hq⟩ | ⟨-, rfl⟩ | ⟨-, hclr, -, hops, -⟩ |
    ⟨-, hlog', -, -, hflushed, hrecovered, -⟩
  · exact h.quiet hq
  · exact h
  · left
    rw [hclr.flushed_eq, hops]
    exact h.lt hlog
  · rw [Safe, current, hflushed, hlog', hrecovered]
    exact h

/-! ### Reopening -/

theorem opened_inv {e : Engine} (hord : e.Ordered) (hcounter : e.sstCounter ≤ intMax)
    (hsettled : ∀ r ∈ e.log, r.write ≠ .inFlight) (hfits : ∀ r ∈ e.log, r.entry.Fits)
    (hmem : ∀ k, lookup k e.memtable.entries = newest k (e.log.map slotLayer)) : (opened e).Inv := by
  have hold : (opened e).old = e.log := List.take_length
  have hcurrent : (opened e).current = [] := List.drop_length
  have hread : ∀ k, e.get k = resolve k (layers e.dir.load ++ e.log.map slotLayer) := by
    intro k
    rw [Engine.get_eq, Engine.contents, resolve_append, newest_singleton, hmem k, resolve_append,
      hord.load_eq]
  refine ⟨⟨le_rfl, le_rfl, ?_, ?_, ?_, fun _ => rfl, ?_, hfits⟩, hcounter, ?_, hord, ?_, ?_⟩
  · rw [hcurrent]
    rfl
  · rw [hold]
    exact hsettled
  · simp [hcurrent]
  · intro k v hv
    rw [hold] at hv
    show e.get k = v
    rw [hread k, resolve_append, hv, Option.getD_some]
  · intro t ht hl
    rw [← Directory.mem_load] at ht
    change t ∈ e.dir.load at ht
    rw [hord.load_eq] at ht
    exact Nat.lt_of_lt_of_le (hord.l0_lt t ht hl) hcounter
  · intro k
    rw [hold]
    exact (hread k).symm
  · intro k
    rw [hold]
    simpa [opened] using hmem k

theorem inv_fresh (maxBytes : ℕ) : (opened (.fresh maxBytes)).Inv :=
  opened_inv (Engine.ordered_fresh maxBytes) (Nat.zero_le _) (by simp [Engine.fresh])
    (by simp [Engine.fresh]) (by simp [Engine.fresh])

/-- A log that is not too large is replayed over the tables, whatever has landed of it. -/
theorem reopen_isOk {s : Store} (hfits : ∀ r ∈ s.engine.log, r.entry.Fits)
    (hl0 : ∀ t ∈ s.engine.dir.files, t.name.level = .l0 → t.name.counter < intMax)
    (hsize : (Wal.image s.engine.log).length ≤ Wal.maxRecoveryBytes) (maxBytes : ℕ)
    (heights : ℕ → Height) :
    ∃ e, s.reopen maxBytes heights = .ok e ∧ (opened e).Inv ∧
      ∀ k, e.get k = resolve k (layers s.engine.dir.load ++ s.engine.log.map slotLayer) := by
  have hnext : nextCounter .l0 s.engine.dir.load ≤ intMax :=
    nextCounter_le fun t ht => hl0 t (Directory.mem_load.mp ht)
  have hmem : ∀ k, lookup k (Engine.replay (.new maxBytes) (Wal.landedEntries s.engine.log)
      heights).entries = newest k (s.engine.log.map slotLayer) := by
    intro k
    rw [Engine.lookup_replay, newest_cons, Memtable.entries_new, lookup_nil, Option.or_none,
      newest_landedEntries]
  rw [Store.reopen, Engine.construct, Wal.recover_image hfits hsize]
  simp only [hnext, if_true]
  refine ⟨_, rfl, opened_inv ⟨rfl, fun t ht hl => lt_nextCounter ht hl⟩ hnext ?_ ?_ ?_, ?_⟩
  · exact fun r hr => (Wal.mem_survive hr).1
  · intro r hr
    obtain ⟨-, q, hq, hentry⟩ := Wal.mem_survive hr
    rw [← hentry]
    exact hfits q hq
  · intro k
    rw [newest_survive]
    exact hmem k
  · intro k
    rw [Engine.get_eq, Engine.contents, resolve_append, newest_singleton, hmem k, resolve_append]

/-- What is read after a crash is permitted by every history of the operations that covers only
those a crash cannot take back. -/
theorem Inv.outcome {s : Store} (h : s.Inv) {history : List Issued} (hops : history.map (·.op) = s.ops)
    {covered : Issued → Bool}
    (hsafe : ∀ (j : ℕ) (o : Issued), history[j]? = some o → covered o = true → s.Safe j) (k : Key) :
    Outcome covered (s.base k) history k
      (resolve k (layers s.engine.dir.load ++ s.engine.log.map slotLayer)) := by
  have hop : ∀ {j : ℕ} {o : Issued}, history[j]? = some o → s.ops[j]? = some o.op := by
    intro j o ho
    rw [← hops, List.getElem?_map, ho, Option.map_some]
  have huncovered : ∀ {i : ℕ}, (∀ (n : ℕ) (r : Wal.Slot), i ≤ n → s.current[n]? = some r →
      lookup k (slotLayer r) = none) → ∀ (j : ℕ) (o : Issued), s.flushed + i ≤ j →
      history[j]? = some o → o.op.key = k → covered o = false := by
    intro i hnone j o hj ho hkey
    by_contra hcov
    exact h.log.not_safe hnone hj (hop ho) hkey (hsafe j o ho (by simpa using hcov))
  rw [← s.old_append_current, List.map_append, ← List.append_assoc, resolve_append]
  rcases newest_map_cases slotLayer k s.current with ⟨i, r, v, hi, hlookup, hnew, hlast⟩ | ⟨hnew, hall⟩
  · -- The last record of the key that is replayed is one of this process.
    obtain ⟨op, hopi, hentry⟩ := h.log.op_of_slot hi
    rw [lookup_slotLayer hentry] at hlookup
    split_ifs at hlookup with hcond
    rw [← hops, List.getElem?_map] at hopi
    obtain ⟨o, ho, rfl⟩ := Option.map_eq_some_iff.mp hopi
    rw [hnew, Option.getD_some]
    refine .inl ⟨s.flushed + i, o, ho, hcond.2, Option.some.inj hlookup, ?_⟩
    intro j p hj hp
    exact huncovered (i := i + 1) (fun n q hn hq => hlast n q hn hq) j p hj hp
  · have hrest : ∀ (j : ℕ) (o : Issued), s.flushed ≤ j → history[j]? = some o → o.op.key = k →
        covered o = false :=
      huncovered (i := 0) fun n r _ hr => hall r (List.mem_of_getElem? hr)
    rw [hnew, Option.getD_none]
    rcases h.below_or_settled with hbelow | hset
    · rw [hbelow k, ← hops, ← List.map_take]
      exact outcome_applyOps s.base history s.flushed k hrest
    · rw [resolve_append, hset k]
      cases hold : newest k (s.old.map slotLayer) with
      | some v =>
        -- Nothing has been flushed since the record was read.
        have hzero : s.flushed = 0 := by
          apply h.log.unflushed
          intro hz
          rw [old, hz, List.take_zero] at hold
          cases hold
        refine .inr ⟨(h.log.old_base k v hold).symm, ?_⟩
        intro o ho
        obtain ⟨j, hj⟩ := List.mem_iff_getElem?.mp ho
        exact hrest j o (hzero ▸ Nat.zero_le j) hj
      | none =>
        rw [Option.getD_none, ← hops]
        exact outcome_all s.base history k

end Store

end LsmTree
