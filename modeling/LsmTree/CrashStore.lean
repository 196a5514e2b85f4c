import LsmTree.Engine
import Mathlib.Logic.Relation

/-!
# The files of an engine, step by step

A write or a flush is cut into the steps between which the process can die: the record
is submitted, the entry inserted, the table staged and published, the log cleared, the
compaction carried out one directory operation at a time. The thread that holds the
engine lock takes them in order, while writes of log records land at any time.

Next to the engine, a store keeps what the statements are about: what the engine
answered when it was opened, the operations logged since, how many of these a cleared
log has handed to the tables, and how many records of the log are older than all of
them. A reopened engine reads the tables and replays the landed records over them. It
answers as if some operations had never been issued; an operation whose record has
landed, or was flushed, is not among them unless a later one on its key is read.
-/

namespace LsmTree
open LittleEndian LayeredMap Merge

/-- What the holder of the engine lock does next. -/
inductive Stage where
  | insert (op : Op) (height : Height)
  | stage
  | publish (t : SSTable)
  | clear
  | drain
  | unlink
  | renew
  | compact
  | rewrite (outputs : List SSTable) (steps : List DirStep)
  | release

/-- An engine with the call that runs in it. -/
structure Store where
  engine : Engine
  stage : Option Stage
  base : Key → Option Bytes
  ops : List Op
  flushed : ℕ
  recovered : ℕ

def Op.apply (m : Key → Option Bytes) (op : Op) (k : Key) : Option Bytes :=
  if k = op.key then op.value else m k

def applyOps (base : Key → Option Bytes) (ops : List Op) : Key → Option Bytes :=
  ops.foldl Op.apply base

namespace Store

def opened (e : Engine) : Store where
  engine := e
  stage := none
  base := e.get
  ops := []
  flushed := 0
  recovered := e.log.length

/-- `appendPut` or `appendDel`, under the engine lock. -/
def append (s : Store) (op : Op) (height : Height) : Store :=
  { s with
    engine := { s.engine with log := s.engine.log ++ [⟨op.entry, .inFlight⟩] }
    ops := s.ops ++ [op]
    stage := some (.insert op height) }

def startFlush (s : Store) : Store := { s with stage := some .stage }

def land (s : Store) (i : ℕ) : Store :=
  { s with engine := { s.engine with log := Wal.land i s.engine.log } }

/-- The next step of the call that holds the engine lock. The locks of `clear` and its wait for
the records in flight are not part of the store. -/
def advance (s : Store) : Except Failure Store :=
  match s.stage with
  | none => .ok s
  | some (.insert op height) =>
    let memtable := s.engine.memtable.update op.key op.value height
    .ok { s with
      engine := { s.engine with memtable := memtable }
      stage := some (if memtable.isFull then .stage else .release) }
  | some .stage =>
    if h : s.engine.sstCounter < intMax then
      .ok { s with
        engine := { s.engine with
          sstCounter := s.engine.sstCounter + 1
          dir := s.engine.dir.apply (.stage (s.engine.table h.le)) }
        stage := some (.publish (s.engine.table h.le)) }
    else .error .undefined
  | some (.publish t) =>
    .ok { s with
      engine := { s.engine with
        sstables := s.engine.sstables ++ [t]
        dir := s.engine.dir.apply (.publish t) }
      stage := some .clear }
  | some .clear => .ok { s with stage := some .drain }
  | some .drain => .ok { s with stage := some .unlink }
  | some .unlink =>
    .ok { s with
      engine := { s.engine with log := [] }
      flushed := s.ops.length
      recovered := 0
      stage := some .renew }
  | some .renew =>
    .ok { s with
      engine := { s.engine with memtable := .new s.engine.memtable.maxBytes }
      stage := some .compact }
  | some .compact =>
    if l0Count s.engine.sstables < l0Threshold then .ok { s with stage := some .release }
    else match compactionOutputs s.engine.dir s.engine.sstables with
      | none => .error .undefined
      | some outputs =>
        .ok { s with
          stage := some (.rewrite outputs
            (compactionSteps s.engine.dir s.engine.sstables outputs)) }
  | some (.rewrite outputs []) =>
    .ok { s with
      engine := { s.engine with sstables := outputs, sstCounter := 0 }
      stage := some .release }
  | some (.rewrite outputs (step :: steps)) =>
    .ok { s with
      engine := { s.engine with dir := s.engine.dir.apply step }
      stage := some (.rewrite outputs steps) }
  | some .release => .ok { s with stage := none }

/-- `clear` holds the locks of the log. -/
def clearing (s : Store) : Bool :=
  match s.stage with
  | some .drain | some .unlink | some .renew => true
  | _ => false

/-- The numbers the next step takes are within `int`. -/
def InRange (s : Store) : Prop :=
  match s.stage with
  | some .stage => s.engine.sstCounter < intMax
  | some .compact => l0Threshold ≤ l0Count s.engine.sstables → l1Start s.engine.dir.files +
      (liveKeys (layers s.engine.sstables) + (l1MaxFileEntries - 1)) / l1MaxFileEntries ≤ intMax
  | _ => True

instance (s : Store) : Decidable s.InRange :=
  match h : s.stage with
  | some .stage => decidable_of_iff (s.engine.sstCounter < intMax) (by rw [InRange, h])
  | some .compact => decidable_of_iff (l0Threshold ≤ l0Count s.engine.sstables →
      l1Start s.engine.dir.files + (liveKeys (layers s.engine.sstables) + (l1MaxFileEntries - 1)) /
        l1MaxFileEntries ≤ intMax) (by rw [InRange, h])
  | none | some (.insert _ _) | some (.publish _) | some .clear | some .drain | some .unlink
  | some .renew | some (.rewrite _ _) | some .release => isTrue (by rw [InRange, h]; trivial)

/-- The constructor on the files a process has left. -/
def reopen (s : Store) (maxBytes : ℕ) (heights : ℕ → Height) : Except Failure Engine :=
  Engine.construct maxBytes s.engine.dir s.engine.log heights

/-- The records an earlier process has left. -/
def old (s : Store) : List Wal.Slot := s.engine.log.take s.recovered

/-- The records of this process. -/
def current (s : Store) : List Wal.Slot := s.engine.log.drop s.recovered

/-- A crash cannot take back this operation. -/
def Safe (s : Store) (j : ℕ) : Prop :=
  j < s.flushed ∨ ∃ r, s.current[j - s.flushed]? = some r ∧ r.write = .landed

end Store

/-! ### The steps of a call make up the call -/

namespace Store

def Steps : Store → Store → Prop := Relation.ReflTransGen fun s s' => s.advance = .ok s'

theorem steps_cons {s s' s'' : Store} (h : s.advance = .ok s') (hs : Steps s' s'') : Steps s s'' :=
  Relation.ReflTransGen.head h hs

theorem steps_rewrite {s : Store} {outputs : List SSTable} {steps : List DirStep}
    (hs : s.stage = some (.rewrite outputs steps)) :
    Steps s { s with
      engine := { s.engine with
        sstables := outputs
        sstCounter := 0
        dir := s.engine.dir.applyAll steps }
      stage := some .release } := by
  induction steps generalizing s with
  | nil =>
    refine steps_cons ?_ .refl
    unfold advance
    rw [hs]
    rfl
  | cons step steps ih =>
    refine steps_cons ?_ (ih (s := { s with
      engine := { s.engine with dir := s.engine.dir.apply step }
      stage := some (.rewrite outputs steps) }) rfl)
    unfold advance
    rw [hs]

theorem steps_compact {s : Store} {e : Engine} (hs : s.stage = some .compact)
    (he : s.engine.compact = .ok e) : Steps s { s with engine := e, stage := some .release } := by
  rcases Engine.compact_cases he with ⟨hfew, rfl⟩ | ⟨outputs, hmany, hout, rfl⟩
  · refine steps_cons ?_ .refl
    simp only [advance, hs, hfew, if_true]
  · refine steps_cons ?_ (steps_rewrite (s := { s with stage := some (.rewrite outputs
      (compactionSteps s.engine.dir s.engine.sstables outputs)) }) rfl)
    simp only [advance, hs, Nat.not_lt.mpr hmany, if_false, hout]

/-- A flush that is not interrupted is `flushMemtable`. -/
theorem steps_flush {s : Store} {e : Engine} (hs : s.stage = some .stage)
    (hne : s.engine.memtable.empty = false) (he : s.engine.flushMemtable = .ok e) :
    ∃ s', Steps s s' ∧ s'.engine = e ∧ s'.stage = some .release := by
  rcases Engine.flushMemtable_cases he with ⟨hnil, -⟩ | ⟨f, -, hf, he⟩
  · rw [(Memtable.empty_iff _).mpr hnil] at hne
    cases hne
  · obtain ⟨hlt, rfl⟩ := Engine.writeTable_ok hf
    have hstage : s.advance = .ok { s with
        engine := { s.engine with
          sstCounter := s.engine.sstCounter + 1
          dir := s.engine.dir.apply (.stage (s.engine.table hlt.le)) }
        stage := some (.publish (s.engine.table hlt.le)) } := by
      unfold advance
      rw [hs]
      simp only [hlt, dif_pos]
    have hcompact := steps_compact (s := { s with
      engine := Engine.clearLog { s.engine with
        sstables := s.engine.sstables ++ [s.engine.table hlt.le]
        sstCounter := s.engine.sstCounter + 1
        dir := s.engine.dir.applyAll [.stage (s.engine.table hlt.le), .publish (s.engine.table hlt.le)] }
      flushed := s.ops.length
      recovered := 0
      stage := some .compact }) rfl he
    -- Publish, clear, drain, unlink, renew.
    exact ⟨_, steps_cons hstage (steps_cons rfl (steps_cons rfl (steps_cons rfl (steps_cons rfl
      (steps_cons rfl hcompact))))), rfl, rfl⟩

/-- A write that is not interrupted is `put` or `del`. -/
theorem steps_write {s : Store} {e : Engine} {op : Op} {height : Height} (hfits : op.entry.Fits)
    (he : s.engine.write op height = .ok e) :
    ∃ s', Steps (s.append op height) s' ∧ s'.engine = e ∧ s'.stage = some .release := by
  rw [Engine.write, if_pos hfits] at he
  split_ifs at he with hfull
  · have hne : (s.engine.append op height).memtable.empty = false := by
      rw [Bool.eq_false_iff, Ne, Memtable.empty_iff]
      exact Engine.entries_append_ne_nil s.engine op height
    obtain ⟨s', hsteps, hend⟩ := steps_flush (s := { s.append op height with
      engine := s.engine.append op height
      stage := some .stage }) rfl hne he
    refine ⟨s', steps_cons ?_ hsteps, hend⟩
    have hmem : (s.engine.memtable.update op.key op.value height).isFull = true := hfull
    simp only [advance, append, hmem, if_true]
    rfl
  · cases he
    refine ⟨_, steps_cons rfl .refl, rfl, ?_⟩
    have hmem : ¬ (s.engine.memtable.update op.key op.value height).isFull = true := hfull
    simp only [append, hmem]
    rfl

end Store

/-! ### Layers of operations and of records -/

def opLayer (op : Op) : List (Key × Option Bytes) := [(op.key, op.value)]

/-- What a record adds to a replay. -/
def slotLayer (r : Wal.Slot) : List (Key × Option Bytes) :=
  if r.write = .landed then Engine.recordLayer r.entry else []

theorem lookup_opLayer (k : Key) (op : Op) :
    lookup k (opLayer op) = if op.key = k then some op.value else none := rfl

theorem applyOps_eq (base : Key → Option Bytes) (ops : List Op) (k : Key) :
    applyOps base ops k = (newest k (ops.map opLayer)).getD (base k) := by
  induction ops using List.reverseRecOn with
  | nil => rfl
  | append_singleton ops op ih =>
    rw [applyOps, List.foldl_append, List.foldl_cons, List.foldl_nil, Op.apply, List.map_append,
      List.map_singleton, newest_append_singleton, lookup_opLayer]
    by_cases hk : k = op.key
    · rw [if_pos hk, if_pos hk.symm]
      rfl
    · rw [if_neg hk, if_neg (Ne.symm hk), Option.none_or]
      exact ih

theorem applyOps_of_forall_ne (base : Key → Option Bytes) {ops : List Op} {k : Key}
    (h : ∀ op ∈ ops, op.key ≠ k) : applyOps base ops k = base k := by
  have hnone : newest k (ops.map opLayer) = none := by
    rw [newest_eq_none_iff]
    intro t ht
    obtain ⟨op, hop, rfl⟩ := List.mem_map.mp ht
    rw [lookup_opLayer, if_neg (h op hop)]
  rw [applyOps_eq, hnone, Option.getD_none]

theorem applyOps_append (base : Key → Option Bytes) (ops rest : List Op) :
    applyOps base (ops ++ rest) = applyOps (applyOps base ops) rest := List.foldl_append

/-- The last operation on a key decides. -/
theorem applyOps_of_last (base : Key → Option Bytes) {ops : List Op} {i : ℕ} {op : Op}
    (hi : ops[i]? = some op)
    (hlast : ∀ (j : ℕ) (p : Op), i < j → ops[j]? = some p → p.key ≠ op.key) :
    applyOps base ops op.key = op.value := by
  obtain ⟨hlt, hop⟩ := List.getElem?_eq_some_iff.mp hi
  have hsplit : ops = ops.take i ++ op :: ops.drop (i + 1) := by
    rw [← hop, ← List.drop_eq_getElem_cons hlt, List.take_append_drop]
  rw [hsplit, applyOps_append]
  show applyOps (Op.apply _ op) (ops.drop (i + 1)) op.key = op.value
  rw [applyOps_of_forall_ne, Op.apply, if_pos rfl]
  intro p hp
  obtain ⟨j, hj⟩ := List.mem_iff_getElem?.mp hp
  rw [List.getElem?_drop] at hj
  exact hlast (i + 1 + j) p (by omega) hj

theorem newest_landedEntries (k : Key) (slots : List Wal.Slot) :
    newest k ((Wal.landedEntries slots).map Engine.recordLayer) = newest k (slots.map slotLayer) := by
  induction slots with
  | nil => rfl
  | cons r rest ih =>
    rw [List.map_cons, newest_cons, slotLayer, ← ih]
    by_cases hr : r.write = .landed
    · simp [Wal.landedEntries, hr, newest_cons]
    · simp [Wal.landedEntries, hr]

theorem newest_survive (k : Key) (slots : List Wal.Slot) :
    newest k ((Wal.survive slots).map slotLayer) = newest k (slots.map slotLayer) := by
  rw [← newest_landedEntries, Wal.landedEntries_survive, newest_landedEntries]

/-! ### Histories -/

/-- An operation with what its caller knows: its call has returned after the wait for the log,
or a later `sync` has. -/
structure Issued where
  op : Op
  acked : Bool
  synced : Bool

/-- An answer that a history permits: the effect of an operation on the key such that no later
operation on it is covered, or the answer before the history if no operation on the key is. -/
def Outcome (covered : Issued → Bool) (before : Option Bytes) (history : List Issued) (k : Key)
    (x : Option Bytes) : Prop :=
  (∃ (i : ℕ) (o : Issued), history[i]? = some o ∧ o.op.key = k ∧ o.op.value = x ∧
    ∀ (j : ℕ) (p : Issued), i < j → history[j]? = some p → p.op.key = k → covered p = false) ∨
  (x = before ∧ ∀ o ∈ history, o.op.key = k → covered o = false)

theorem Outcome.append {covered : Issued → Bool} {before x y : Option Bytes} {history rest : List Issued}
    {k : Key} (h : Outcome covered before history k x) (h' : Outcome covered x rest k y) :
    Outcome covered before (history ++ rest) k y := by
  rcases h' with ⟨i, o, hi, hkey, hval, hlast⟩ | ⟨rfl, hrest⟩
  · refine .inl ⟨history.length + i, o, ?_, hkey, hval, ?_⟩
    · rw [List.getElem?_append_right (Nat.le_add_right _ _), Nat.add_sub_cancel_left, hi]
    · intro j p hj hp
      rw [List.getElem?_append_right (by omega)] at hp
      exact hlast (j - history.length) p (by omega) hp
  · rcases h with ⟨i, o, hi, hkey, hval, hlast⟩ | ⟨rfl, hall⟩
    · have hlt : i < history.length := (List.getElem?_eq_some_iff.mp hi).1
      refine .inl ⟨i, o, by rw [List.getElem?_append_left hlt, hi], hkey, hval, ?_⟩
      intro j p hj hp hpk
      by_cases hjl : j < history.length
      · rw [List.getElem?_append_left hjl] at hp
        exact hlast j p hj hp hpk
      · rw [List.getElem?_append_right (by omega)] at hp
        exact hrest p (List.mem_of_getElem? hp) hpk
    · refine .inr ⟨rfl, ?_⟩
      intro o ho
      rcases List.mem_append.mp ho with ho | ho
      · exact hall o ho
      · exact hrest o ho

/-- If the last operation is covered, its effect is the only answer for its key. -/
theorem Outcome.eq_of_last {covered : Issued → Bool} {before x : Option Bytes} {history : List Issued} {o : Issued}
    (h : Outcome covered before (history ++ [o]) o.op.key x) (hcov : covered o = true) : x = o.op.value := by
  rcases h with ⟨i, p, hi, -, hval, hlast⟩ | ⟨-, hall⟩
  · have hend : (history ++ [o])[history.length]? = some o := List.getElem?_concat_length
    have hlt := (List.getElem?_eq_some_iff.mp hi).1
    rw [List.length_append, List.length_singleton] at hlt
    rcases Nat.lt_or_eq_of_le (Nat.le_of_lt_succ hlt) with hbefore | rfl
    · have hnot := hlast history.length o hbefore hend rfl
      rw [hcov] at hnot
      cases hnot
    · rw [hend] at hi
      rw [← hval, Option.some.inj hi]
  · have hnot := hall o (List.mem_append_right _ List.mem_cons_self) rfl
    rw [hcov] at hnot
    cases hnot

/-- Covering fewer operations permits more. -/
theorem Outcome.mono {covered covered' : Issued → Bool} {before x : Option Bytes} {history : List Issued}
    {k : Key} (himp : ∀ o, covered' o = true → covered o = true)
    (h : Outcome covered before history k x) : Outcome covered' before history k x := by
  have hnot : ∀ o, covered o = false → covered' o = false := by
    intro o ho
    by_contra hc
    rw [himp o (by simpa using hc)] at ho
    cases ho
  rcases h with ⟨i, o, hi, hkey, hval, hlast⟩ | ⟨hx, hall⟩
  · exact .inl ⟨i, o, hi, hkey, hval, fun j p hj hp hk => hnot p (hlast j p hj hp hk)⟩
  · exact .inr ⟨hx, fun o ho hk => hnot o (hall o ho hk)⟩

/-- The effect of a first part of a history is permitted if nothing after it is covered. -/
theorem outcome_applyOps {covered : Issued → Bool} (base : Key → Option Bytes) (history : List Issued)
    (n : ℕ) (k : Key)
    (h : ∀ (j : ℕ) (p : Issued), n ≤ j → history[j]? = some p → p.op.key = k → covered p = false) :
    Outcome covered (base k) history k (applyOps base ((history.take n).map (·.op)) k) := by
  have hnone : ∀ o : Issued, lookup k (opLayer o.op) = none → o.op.key ≠ k := by
    intro o ho heq
    rw [lookup_opLayer, if_pos heq] at ho
    cases ho
  rw [applyOps_eq, List.map_map]
  rcases newest_map_cases (opLayer ∘ Issued.op) k (history.take n) with
    ⟨i, o, v, hi, hlookup, hnew, hlast⟩ | ⟨hnew, hall⟩
  · rw [hnew, Option.getD_some]
    have hlt : i < n := by
      have := (List.getElem?_eq_some_iff.mp hi).1
      rw [List.length_take] at this
      omega
    rw [List.getElem?_take_of_lt hlt] at hi
    rw [Function.comp_apply, lookup_opLayer] at hlookup
    split_ifs at hlookup with hkey
    refine .inl ⟨i, o, hi, hkey, Option.some.inj hlookup, ?_⟩
    intro j p hj hp hpk
    by_cases hjn : j < n
    · exact absurd hpk (hnone p (hlast j p hj (by rw [List.getElem?_take_of_lt hjn, hp])))
    · exact h j p (Nat.le_of_not_lt hjn) hp hpk
  · rw [hnew, Option.getD_none]
    refine .inr ⟨rfl, ?_⟩
    intro o ho hok
    obtain ⟨j, hj⟩ := List.mem_iff_getElem?.mp ho
    by_cases hjn : j < n
    · have hmem : o ∈ history.take n :=
        List.mem_iff_getElem?.mpr ⟨j, by rw [List.getElem?_take_of_lt hjn, hj]⟩
      exact absurd hok (hnone o (hall o hmem))
    · exact h j o (Nat.le_of_not_lt hjn) hj hok

/-- The effect of a whole history is permitted. -/
theorem outcome_all {covered : Issued → Bool} (base : Key → Option Bytes) (history : List Issued) (k : Key) :
    Outcome covered (base k) history k (applyOps base (history.map (·.op)) k) := by
  have hfull := @outcome_applyOps covered base history history.length k (by
    intro j p hj hp
    rw [List.getElem?_eq_none hj] at hp
    cases hp)
  rw [List.take_length] at hfull
  exact hfull

/-- If everything but the last operation is covered, it is the only one in question. -/
theorem prefix_of_outcome {covered : Issued → Bool} {base x : Key → Option Bytes} {history : List Issued}
    {n : ℕ} (hcov : ∀ (j : ℕ) (o : Issued), j < n → history[j]? = some o → covered o = true)
    (hlen : history.length ≤ n + 1) (h : ∀ k, Outcome covered (base k) history k (x k)) :
    x = applyOps base ((history.map (·.op)).take n) ∨
      x = applyOps base ((history.map (·.op)).take (n + 1)) := by
  have hkey : ∀ k, x k = applyOps base ((history.map (·.op)).take n) k ∨
      ∃ o, history[n]? = some o ∧ o.op.key = k ∧ o.op.value = x k := by
    intro k
    rcases h k with ⟨i, o, hi, rfl, hval, hlast⟩ | ⟨hx, hall⟩
    · have hlt := (List.getElem?_eq_some_iff.mp hi).1
      rcases Nat.lt_or_eq_of_le (Nat.le_of_lt_succ (Nat.lt_of_lt_of_le hlt hlen)) with hin | rfl
      · left
        rw [← hval]
        symm
        apply applyOps_of_last (i := i)
        · rw [List.getElem?_take_of_lt hin, List.getElem?_map, hi]
          rfl
        · intro j p hj hp hsame
          rw [List.getElem?_take] at hp
          split_ifs at hp with hjn
          rw [List.getElem?_map] at hp
          obtain ⟨q, hq, rfl⟩ := Option.map_eq_some_iff.mp hp
          have huncov := hlast j q hj hq hsame
          rw [hcov j q hjn hq] at huncov
          cases huncov
      · exact .inr ⟨o, hi, rfl, hval⟩
    · left
      rw [hx, applyOps_of_forall_ne]
      intro op hop hsame
      obtain ⟨j, hj⟩ := List.mem_iff_getElem?.mp hop
      rw [List.getElem?_take] at hj
      split_ifs at hj with hjn
      rw [List.getElem?_map] at hj
      obtain ⟨o, ho, rfl⟩ := Option.map_eq_some_iff.mp hj
      have huncov := hall o (List.mem_of_getElem? ho) hsame
      rw [hcov j o hjn ho] at huncov
      cases huncov
  by_cases hall : ∀ k, x k = applyOps base ((history.map (·.op)).take n) k
  · exact .inl (funext hall)
  · right
    obtain ⟨k, hk⟩ := not_forall.mp hall
    obtain ⟨o, ho, rfl, hval⟩ := (hkey k).resolve_left hk
    have hlast : (history.map (·.op)).take (n + 1) = (history.map (·.op)).take n ++ [o.op] := by
      rw [List.take_add_one, List.getElem?_map, ho]
      rfl
    funext k
    rw [hlast, applyOps_append]
    show x k = if k = o.op.key then o.op.value else _
    split_ifs with hsame
    · rw [hsame, hval]
    · rcases hkey k with heq | ⟨q, hq, hqk, -⟩
      · exact heq
      · rw [ho] at hq
        cases hq
        exact absurd hqk.symm hsame

end LsmTree
