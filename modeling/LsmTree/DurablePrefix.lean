import LsmTree.CrashSafety

/-!
# Crashes in durable mode

In durable mode a write is acknowledged when its wait has ended, so no acknowledged
operation is lost. When all writes come from one thread, only the last one can be
unacknowledged: the thread waits for it. What is read after a crash is then the state
after the acknowledged operations or after one more, and this is where the next process
goes on.
-/

namespace LsmTree.CrashMachine
open LittleEndian LayeredMap Merge Transition
open WalRing (Ticket ThreadId)

/-- The states that crashes leave of a single writer: every process goes on from what the last one
left, with the acknowledged operations, or with one more. -/
inductive PrefixState : List Life → (Key → Option Bytes) → Prop
  | empty : PrefixState [] fun _ => none
  | acknowledged {lives : List Life} {m : Key → Option Bytes} (h : PrefixState lives m) (l : Life) :
      PrefixState (lives ++ [l]) (applyOps m (l.ops.take l.acked.length))
  | another {lives : List Life} {m : Key → Option Bytes} (h : PrefixState lives m) (l : Life) :
      PrefixState (lives ++ [l]) (applyOps m (l.ops.take (l.acked.length + 1)))

/-- No other thread writes. -/
def Event.OnlyWriter (t : ThreadId) : Event → Prop
  | .write u _ _ => u = t
  | _ => True

/-- The index of the operation a thread waits for. -/
def Caller.own : Caller → Option ℕ
  | .write i => some i
  | .sync _ => none

def Pc.own : Pc → Option ℕ
  | .idle | .flushing => none
  | .writing w | .waiting w | .leading w _ | .drained w _ _ => w.caller.own

/-- All operations but the last are acknowledged, in order, and the writer waits for the last. -/
structure Single (t : ThreadId) (s : State) : Prop where
  durable : s.durability = .durable
  acked_eq : s.acked = (List.range s.acked.length).reverse
  own : ∀ u i, (s.threads u).own = some i →
    u = t ∧ i = s.acked.length ∧ s.store.ops.length = s.acked.length + 1
  last : s.store.ops.length = s.acked.length ∨ (s.threads t).own = some s.acked.length
  past : PrefixState s.past s.store.base

theorem Single.frame {t : ThreadId} {s s' : State} (h : Single t s) (hdurable : s'.durability = s.durability)
    (hacked : s'.acked = s.acked) (hops : s'.store.ops = s.store.ops)
    (hbase : s'.store.base = s.store.base) (hpast : s'.past = s.past)
    (hown : ∀ u, (s'.threads u).own = (s.threads u).own) : Single t s' where
  durable := by rw [hdurable, h.durable]
  acked_eq := by
    rw [hacked]
    exact h.acked_eq
  own := by
    intro u i hi
    rw [hown u] at hi
    rw [hacked, hops]
    exact h.own u i hi
  last := by
    rw [hown t, hacked, hops]
    exact h.last
  past := by
    rw [hpast, hbase]
    exact h.past

/-- A thread that moves on with the same call. -/
theorem own_update {threads : ThreadId → Pc} {t : ThreadId} {p : Pc} (h : p.own = (threads t).own)
    (u : ThreadId) : (Function.update threads t p u).own = (threads u).own := by
  by_cases hu : u = t
  · rw [hu, Function.update_self, h]
  · rw [Function.update_of_ne hu]

theorem single_started (t : ThreadId) {e : Engine} {past : List Life} (h : PrefixState past e.get) :
    Single t (.started .durable e past) where
  durable := rfl
  acked_eq := rfl
  own := by
    intro u i hi
    cases hi
  last := .inl rfl
  past := h

theorem single_initial (t : ThreadId) (maxBytes : ℕ) : Single t (initial .durable maxBytes) := by
  apply single_started
  have hnone : (Engine.fresh maxBytes).get = fun _ => none := by
    funext k
    rw [Engine.get_eq, Engine.contents, Engine.fresh, Memtable.entries_new]
    rfl
  rw [hnone]
  exact .empty

theorem single_write {t : ThreadId} {s : State} (h : Single t s) {op : Op} {height : Height}
    (hidle : s.threads t = .idle) : Single t (next s (.write t op height)) := by
  have hfree : (s.threads t).own = none := by rw [hidle]; rfl
  have hlen : s.store.ops.length = s.acked.length := by
    rcases h.last with hlen | hown
    · exact hlen
    · rw [hfree] at hown
      cases hown
  have hops : (s.store.append op height).ops.length = s.acked.length + 1 := by simp [Store.append, hlen]
  have hown : ∀ u, ((next s (.write t op height)).threads u).own =
      if u = t then some s.acked.length else (s.threads u).own := by
    intro u
    by_cases hu : u = t
    · rw [if_pos hu, hu, ← hlen]
      simp only [next, State.setPc, Function.update_self]
      rfl
    · rw [if_neg hu]
      simp only [next, State.setPc, Function.update_of_ne hu]
  refine ⟨h.durable, h.acked_eq, ?_, .inr ?_, h.past⟩
  · intro u i hi
    rw [hown u] at hi
    by_cases hu : u = t
    · rw [if_pos hu] at hi
      exact ⟨hu, (Option.some.inj hi).symm, hops⟩
    · rw [if_neg hu] at hi
      exact absurd (h.own u i hi).1 hu
  · rw [hown t, if_pos rfl]
    rfl

theorem Single.finish {t u : ThreadId} {s : State} (h : Single t s) {c : Caller}
    (hown : (s.threads u).own = c.own) : Single t (s.finish u c) := by
  cases c with
  | sync n =>
    exact h.frame rfl rfl rfl rfl rfl fun v => own_update (p := .idle) hown.symm v
  | write i =>
    obtain ⟨rfl, rfl, hops⟩ := h.own u i hown
    have hothers : ∀ v, (Function.update s.threads u .idle v).own = none := by
      intro v
      by_cases hv : v = u
      · rw [hv, Function.update_self]
        rfl
      · rw [Function.update_of_ne hv]
        by_contra hsome
        obtain ⟨j, hj⟩ := Option.ne_none_iff_exists'.mp hsome
        exact hv (h.own v j hj).1
    refine ⟨h.durable, ?_, ?_, .inl hops, h.past⟩
    · show s.acked.length :: s.acked = (List.range (s.acked.length + 1)).reverse
      rw [List.range_succ, List.reverse_append, ← h.acked_eq]
      rfl
    · intro v j hj
      have hnone : (Function.update s.threads u .idle v).own = some j := hj
      rw [hothers v] at hnone
      cases hnone

theorem single_check {t u : ThreadId} {s : State} (h : Single t s) : Single t (next s (.check u)) := by
  rw [next]
  split
  case h_2 => exact h
  case h_1 w hu =>
    have hown : (s.threads u).own = w.caller.own := by rw [hu]; rfl
    unfold State.check
    split_ifs
    · exact h.finish hown
    · exact h.finish hown
    · exact h
    · exact h.frame rfl rfl rfl rfl rfl fun v => own_update (p := .leading w s.epoch) hown.symm v

theorem own_released {s : State} (hdurable : s.durability = .durable) (p : Pc) :
    (s.released p).own = p.own := by
  cases p with
  | writing w =>
    rw [State.released, if_pos hdurable]
    rfl
  | idle => rfl
  | flushing => rfl
  | waiting w => rfl
  | leading w lead => rfl
  | drained w lead target => rfl

theorem single_step {t : ThreadId} {s : State} (h : Single t s) : Single t (next s .step) := by
  rw [next, State.advance]
  cases ha : s.store.advance with
  | error f => exact h.frame rfl rfl rfl rfl rfl fun _ => rfl
  | ok store =>
    obtain ⟨hbase, hops⟩ := Store.advance_ops ha
    dsimp only
    split
    · exact h.frame rfl rfl hops hbase rfl fun _ => rfl
    · exact h.frame rfl rfl hops hbase rfl fun v => own_update (own_released h.durable _) v
    · exact h.frame rfl rfl hops hbase rfl fun _ => rfl

/-- What a crash leaves of one life of a single writer. -/
theorem Single.prefixState {t : ThreadId} {s : State} (h : Single t s) {x : Key → Option Bytes}
    (hread : ∀ k, Outcome covered (s.store.base k) s.life.issued k (x k)) :
    PrefixState (s.past ++ [s.life]) x := by
  have hlen : s.store.ops.length ≤ s.acked.length + 1 := by
    rcases h.last with hlen | hown
    · omega
    · exact (h.own t _ hown).2.2.le
  have hcov : ∀ (j : ℕ) (o : Issued), j < s.acked.length → s.life.issued[j]? = some o →
      covered o = true := by
    intro j o hj ho
    rw [Life.issued, List.getElem?_mapIdx] at ho
    obtain ⟨op, -, rfl⟩ := Option.map_eq_some_iff.mp ho
    have hmem : j ∈ s.acked := by
      rw [h.acked_eq, List.mem_reverse, List.mem_range]
      exact hj
    simp [covered, State.life, hmem]
  have hissued : s.life.issued.length ≤ s.acked.length + 1 := by
    simpa [Life.issued, State.life] using hlen
  rcases prefix_of_outcome hcov hissued hread with hx | hx
  · rw [hx, map_op_issued]
    exact .acknowledged h.past s.life
  · rw [hx, map_op_issued]
    exact .another h.past s.life

theorem single_crash {t : ThreadId} {s : State} (hinv : Inv s) (h : Single t s) (hlog : LogReadable s)
    (maxBytes : ℕ) (heights : ℕ → Height) : Single t (next s (.crash maxBytes heights)) := by
  obtain ⟨e, he, -, hread, -⟩ := hinv.reopen hlog maxBytes heights
  have hcrash : s.crash maxBytes heights = .started .durable e (s.past ++ [s.life]) := by
    rw [State.crash, he, h.durable]
  rw [next, hcrash]
  exact single_started t (h.prefixState hread)

theorem single_next {t : ThreadId} (s : State) (e : Event) (h : Inv s ∧ Single t s)
    (hok : InRange s e ∧ e.OnlyWriter t) (he : machine.Enabled s e) :
    Inv (machine.next s e) ∧ Single t (machine.next s e) := by
  refine ⟨inv_next s e h.1 hok.1 he, ?_⟩
  obtain ⟨hinv, hsingle⟩ := h
  cases e with
  | write u op height =>
    obtain rfl : u = t := hok.2
    exact single_write hsingle he.2.2.1
  | flush u =>
    exact hsingle.frame rfl rfl rfl rfl rfl fun v => own_update (p := .flushing) (by rw [he.2.2.1]; rfl) v
  | sync u => exact hsingle.frame rfl rfl rfl rfl rfl fun v => own_update (by rw [he.2.1]; rfl) v
  | step => exact single_step hsingle
  | land i => exact hsingle.frame rfl rfl rfl rfl rfl fun _ => rfl
  | check u => exact single_check hsingle
  | drain u =>
    show Single t (next s (.drain u))
    rw [next]
    split
    case h_2 => exact hsingle
    case h_1 w lead hu =>
      exact hsingle.frame rfl rfl rfl rfl rfl fun v => own_update (by rw [hu]; rfl) v
  | settle u =>
    show Single t (next s (.settle u))
    rw [next]
    split
    case h_2 => exact hsingle
    case h_1 w lead target hu =>
      exact hsingle.frame rfl rfl rfl rfl rfl fun v => own_update (by rw [hu]; rfl) v
  | crash maxBytes heights => exact single_crash hinv hsingle hok.1 maxBytes heights

/-- What the engine promises in durable mode of a process that dies now, after these events: the
next one opens the engine, reads for every key the effect of the last acknowledged operation on it
or of a later one, and if one thread made all the writes, it reads the state after the acknowledged
operations or after one more. -/
def DurableContract (es : List Event) (s : State) : Prop :=
  ∀ maxBytes heights, ∃ e, s.store.reopen maxBytes heights = .ok e ∧
    (∀ k, Outcome (·.acked) none s.history k (e.get k)) ∧
    ∀ t, (∀ ev ∈ es, ev.OnlyWriter t) → PrefixState (s.past ++ [s.life]) e.get

/-- In every run whose tables are numbered within `int` and whose crashes leave logs that can be
read back, a crash in any state keeps the contract. -/
theorem durableContract_of_inRange (maxBytes : ℕ) (es : List Event) (s : State)
    (h : Run machine InRange (initial .durable maxBytes) es s) (hlog : LogReadable s) :
    DurableContract es s := by
  intro maxBytes' heights
  obtain ⟨e, he, -, hlife, hread⟩ := (inv_run h).reopen hlog maxBytes' heights
  refine ⟨e, he, fun k => (hread k).mono ?_, ?_⟩
  · intro o ho
    rw [covered, ho, Bool.true_or]
  · intro t ht
    obtain ⟨-, hsingle⟩ := (h.restrict ht).invariant (fun s => Inv s ∧ Single t s) single_next
      ⟨inv_initial .durable maxBytes, single_initial t maxBytes⟩
    exact hsingle.prefixState hlife

/-- Two threads share a drain, a third is in the middle of its flush when the process dies; after it
thread 0 alone goes on. -/
def durableRun : List Event :=
  [.write 0 (.put (.ofBytes [1]) [5]) 0, .step, .step, .write 1 (.put (.ofBytes [2]) [6]) 1, .step, .step,
    .land 1, .check 1, .check 0, .land 0, .drain 1, .settle 1, .check 1, .check 0,
    .write 2 (.put (.ofBytes [1]) [1, 2, 3, 4, 5, 6, 7, 8]) 2, .step, .step, .step, .step,
    .crash 1000 fun _ => 0, .write 0 (.del (.ofBytes [2])) 0, .step, .step, .land 2]

theorem durableContract_durableRun :
    DurableContract durableRun (durableRun.foldl machine.next (initial .durable 25)) :=
  durableContract_of_inRange 25 durableRun _ (Allowed.run (by decide +kernel)) (by decide +kernel)

/-- Two million puts of one key, each of them acknowledged. -/
theorem not_durableContract_overwrites :
    ∃ s, Run machine (fun _ _ => True) (initial .durable Memtable.defaultMaxBytes)
      ((List.range 2097153).flatMap durableRound) s ∧
      ¬ DurableContract ((List.range 2097153).flatMap durableRound) s := by
  obtain ⟨s, hrun, hs⟩ := between_rounds (fun _ _ => between_durableRound) 2097153
  refine ⟨s, hrun, ?_⟩
  intro hcontract
  obtain ⟨e, he, -⟩ := hcontract 0 fun _ => 0
  exact hs.toOverwritten.reopen (by decide) 0 _ e he

end LsmTree.CrashMachine
