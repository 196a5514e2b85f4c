import LsmTree.Overwrites

/-!
# Nothing covered is lost

A thread returns from `waitDurable` when the durable end has passed its ticket, or when
the epoch of its ticket is over. In the first case no record up to the ticket is in
flight, because the leader drained the log before it noted how far it extends. In the
second case the log of the ticket has been cleared, after its operations had been
published in a table; the locks that `clear` holds keep a thread from looking before
the file is gone. Either way a crash cannot take the operations back.
-/

namespace LsmTree.CrashMachine
open LittleEndian LayeredMap Merge Transition
open WalRing (Ticket ThreadId)

/-! ### The durable end -/

/-- No record below this offset is in flight. -/
def DurableTo (log : List Wal.Slot) (stop : ℕ) : Prop :=
  stop ≤ Wal.writeOffset log ∧
    ∀ n, Wal.writeOffset (log.take n) ≤ stop → ∀ r ∈ log.take n, r.write ≠ .inFlight

theorem durableTo_zero (log : List Wal.Slot) : DurableTo log 0 := by
  refine ⟨Nat.zero_le _, ?_⟩
  intro n hn r hr
  cases htake : log.take n with
  | nil =>
    rw [htake] at hr
    cases hr
  | cons q rest =>
    have := q.entry.alignedSize_pos
    rw [htake, Wal.writeOffset_cons] at hn
    omega

theorem durableTo_writeOffset {log : List Wal.Slot} (h : ∀ r ∈ log, r.write ≠ .inFlight) :
    DurableTo log (Wal.writeOffset log) :=
  ⟨le_rfl, fun _ _ r hr => h r (List.mem_of_mem_take hr)⟩

theorem DurableTo.max {log : List Wal.Slot} {a b : ℕ} (ha : DurableTo log a) (hb : DurableTo log b) :
    DurableTo log (max a b) := by
  rcases Nat.le_total a b with hab | hba
  · rw [Nat.max_eq_right hab]
    exact hb
  · rw [Nat.max_eq_left hba]
    exact ha

theorem DurableTo.append {log : List Wal.Slot} {stop : ℕ} (h : DurableTo log stop) (r : Wal.Slot) :
    DurableTo (log ++ [r]) stop := by
  have hpos := r.entry.alignedSize_pos
  have hwhole : Wal.writeOffset (log ++ [r]) = Wal.writeOffset log + r.entry.alignedSize := by
    simp [Wal.writeOffset_append]
  refine ⟨h.1.trans (by omega), ?_⟩
  intro n hn
  by_cases hle : n ≤ log.length
  · rw [List.take_append_of_le_length hle] at hn ⊢
    exact h.2 n hn
  · -- The new record ends past every earlier durable end.
    rw [List.take_of_length_le (by simp; omega), hwhole] at hn
    have := h.1
    omega

theorem DurableTo.land {log : List Wal.Slot} {stop : ℕ} (h : DurableTo log stop) (i : ℕ) :
    DurableTo (Wal.land i log) stop := by
  have htake : ∀ n, (Wal.land i log).take n = Wal.land i (log.take n) := fun n => List.take_modify _ _ _ _
  refine ⟨?_, ?_⟩
  · rw [Wal.writeOffset_congr (Wal.map_entry_land i log)]
    exact h.1
  · intro n hn r hr
    rw [htake, Wal.writeOffset_congr (Wal.map_entry_land i _)] at hn
    rw [htake] at hr
    obtain ⟨q, hq, -, hw | hw⟩ := Wal.mem_land hr
    · rw [hw]
      exact h.2 n hn q hq
    · simp [hw]

/-! ### Tickets -/

/-- A ticket of the current epoch ends where the records of its operations end. One of an earlier
epoch has seen its operations flushed, or will before anyone can look. -/
structure WaitInv (store : Store) (epoch : ℕ) (w : Wait) : Prop where
  epoch_le : w.ticket.epoch ≤ epoch
  upto_le : w.caller.upto ≤ store.ops.length
  earlier : w.ticket.epoch < epoch → store.clearing = true ∨ w.caller.upto ≤ store.flushed
  same : w.ticket.epoch = epoch → store.clearing = false ∧ store.flushed ≤ w.caller.upto ∧
    w.ticket.stop =
      Wal.writeOffset (store.engine.log.take (store.recovered + (w.caller.upto - store.flushed)))

structure LeadInv (store : Store) (epoch lead : ℕ) : Prop where
  lead_le : lead ≤ epoch
  lead_lt : store.clearing = true → lead < epoch

def PcInv (store : Store) (epoch : ℕ) : Pc → Prop
  | .idle | .flushing => True
  | .writing w | .waiting w => WaitInv store epoch w
  | .leading w lead => WaitInv store epoch w ∧ LeadInv store epoch lead
  | .drained w lead target =>
    WaitInv store epoch w ∧ LeadInv store epoch lead ∧
      (lead = epoch → DurableTo store.engine.log target)

/-- A store after steps in which no log was cleared. -/
structure Follows (store store' : Store) : Prop where
  ops_le : store.ops.length ≤ store'.ops.length
  flushed_eq : store'.flushed = store.flushed
  recovered_eq : store'.recovered = store.recovered
  clearing_eq : store'.clearing = store.clearing
  offsets : ∀ n ≤ store.engine.log.length,
    Wal.writeOffset (store'.engine.log.take n) = Wal.writeOffset (store.engine.log.take n)
  durable : ∀ stop, DurableTo store.engine.log stop → DurableTo store'.engine.log stop

theorem length_log {store : Store} (h : store.LogInv) :
    store.engine.log.length = store.recovered + (store.ops.length - store.flushed) := by
  have hlen := h.length_current
  have hle := h.recovered_le
  rw [Store.current, List.length_drop] at hlen
  omega

theorem WaitInv.follows {store store' : Store} {epoch : ℕ} {w : Wait} (h : WaitInv store epoch w)
    (hlog : store.LogInv) (hf : Follows store store') : WaitInv store' epoch w where
  epoch_le := h.epoch_le
  upto_le := h.upto_le.trans hf.ops_le
  earlier := by
    rw [hf.clearing_eq, hf.flushed_eq]
    exact h.earlier
  same := by
    intro heq
    obtain ⟨hclear, hle, hstop⟩ := h.same heq
    have hlen := length_log hlog
    have hupto := h.upto_le
    rw [hf.clearing_eq, hf.flushed_eq, hf.recovered_eq, hf.offsets _ (by omega)]
    exact ⟨hclear, hle, hstop⟩

theorem LeadInv.follows {store store' : Store} {epoch lead : ℕ} (h : LeadInv store epoch lead)
    (hf : Follows store store') : LeadInv store' epoch lead := by
  refine ⟨h.lead_le, ?_⟩
  rw [hf.clearing_eq]
  exact h.lead_lt

theorem PcInv.follows {store store' : Store} {epoch : ℕ} {p : Pc} (h : PcInv store epoch p)
    (hlog : store.LogInv) (hf : Follows store store') : PcInv store' epoch p := by
  cases p with
  | idle => trivial
  | flushing => trivial
  | writing w => exact WaitInv.follows h hlog hf
  | waiting w => exact WaitInv.follows h hlog hf
  | leading w lead => exact ⟨h.1.follows hlog hf, h.2.follows hf⟩
  | drained w lead target =>
    exact ⟨h.1.follows hlog hf, h.2.1.follows hf, fun heq => hf.durable _ (h.2.2 heq)⟩

theorem follows_quiet {store store' : Store} (h : store.Quiet store') : Follows store store' where
  ops_le := by rw [h.ops_eq]
  flushed_eq := h.flushed_eq
  recovered_eq := h.recovered_eq
  clearing_eq := h.clearing_eq
  offsets := by
    intro n _
    rw [h.log_eq]
  durable := by
    rw [h.log_eq]
    exact fun _ hd => hd

theorem follows_append {store : Store} (hfree : store.stage = none) (op : Op) (height : Height) :
    Follows store (store.append op height) where
  ops_le := by simp [Store.append]
  flushed_eq := rfl
  recovered_eq := rfl
  clearing_eq := by simp [Store.clearing, Store.append, hfree]
  offsets := by
    intro n hn
    simp only [Store.append]
    rw [List.take_append_of_le_length hn]
  durable := fun _ hd => hd.append _

theorem follows_land (store : Store) (i : ℕ) : Follows store (store.land i) where
  ops_le := le_rfl
  flushed_eq := rfl
  recovered_eq := rfl
  clearing_eq := rfl
  offsets := by
    intro n _
    apply Wal.writeOffset_congr
    simp only [Store.land, Wal.land]
    rw [List.take_modify]
    exact Wal.map_entry_land i _
  durable := fun _ hd => hd.land i

/-- The steps of `clear` in which an epoch ends. -/
theorem PcInv.of_earlier {store store' : Store} {epoch epoch' : ℕ} {p : Pc} (h : PcInv store epoch p)
    (hops : store'.ops = store.ops)
    (hpast : ∀ n ≤ epoch, (n = epoch → store.clearing = false) → n < epoch')
    (hclear : ∀ n ≤ store.ops.length, store'.clearing = true ∨ n ≤ store'.flushed) :
    PcInv store' epoch' p := by
  have hwait : ∀ w, WaitInv store epoch w → WaitInv store' epoch' w := by
    intro w hw
    have hlt := hpast _ hw.epoch_le fun heq => (hw.same heq).1
    exact ⟨hlt.le, hops ▸ hw.upto_le, fun _ => hclear _ hw.upto_le, fun heq => absurd heq hlt.ne⟩
  have hlead : ∀ lead, LeadInv store epoch lead → lead < epoch' := by
    intro lead hl
    refine hpast lead hl.lead_le ?_
    intro heq
    by_contra hc
    exact absurd heq (hl.lead_lt (by simpa using hc)).ne
  cases p with
  | idle => trivial
  | flushing => trivial
  | writing w => exact hwait w h
  | waiting w => exact hwait w h
  | leading w lead =>
    have hlt := hlead lead h.2
    exact ⟨hwait w h.1, hlt.le, fun _ => hlt⟩
  | drained w lead target =>
    have hlt := hlead lead h.2.1
    exact ⟨hwait w h.1, ⟨hlt.le, fun _ => hlt⟩, fun heq => absurd heq hlt.ne⟩

/-- A call that may return has nothing to lose. -/
theorem WaitInv.safe {store : Store} {epoch durableEnd : ℕ} {w : Wait} (h : WaitInv store epoch w)
    (hlog : store.LogInv) (hfree : store.clearing = false)
    (hdurable : DurableTo store.engine.log durableEnd)
    (hreturn : w.ticket.epoch ≠ epoch ∨ w.ticket.stop ≤ durableEnd) {i : ℕ} (hi : i < w.caller.upto) :
    store.Safe i := by
  rcases Nat.lt_or_eq_of_le h.epoch_le with hlt | heq
  · left
    rcases h.earlier hlt with hc | hle
    · rw [hfree] at hc
      cases hc
    · exact Nat.lt_of_lt_of_le hi hle
  · obtain ⟨-, hle, hstop⟩ := h.same heq
    have hend : w.ticket.stop ≤ durableEnd := hreturn.resolve_left (absurd heq)
    by_cases hflushed : i < store.flushed
    · exact .inl hflushed
    right
    have hlen := hlog.length_current
    have hupto := h.upto_le
    have hlt : i - store.flushed < store.current.length := by omega
    refine ⟨store.current[i - store.flushed], List.getElem?_eq_getElem hlt, ?_⟩
    have hmem : store.current[i - store.flushed] ∈
        store.engine.log.take (store.recovered + (w.caller.upto - store.flushed)) := by
      apply List.mem_iff_getElem?.mpr
      refine ⟨store.recovered + (i - store.flushed), ?_⟩
      rw [List.getElem?_take_of_lt (by omega), ← List.getElem?_drop]
      exact List.getElem?_eq_getElem hlt
    have hsettled := hdurable.2 _ (hstop ▸ hend) _ hmem
    have hkept := hlog.current_kept _ (List.getElem_mem hlt)
    cases hw : (store.current[i - store.flushed]).write with
    | inFlight => exact absurd hw hsettled
    | landed => rfl
    | lost => exact absurd hw hkept

/-! ### The machine -/

/-- Someone was told that the operation is safe. -/
def covered (o : Issued) : Bool := o.acked || o.synced

structure Inv (s : State) : Prop where
  down : s.down = none
  store : s.store.Inv
  acked_safe : ∀ i ∈ s.acked, s.store.Safe i
  synced_safe : ∀ i < s.synced, s.store.Safe i
  durable : DurableTo s.log s.durableEnd
  reset : s.store.clearing = true → s.durableEnd = 0
  threads : ∀ t, PcInv s.store s.epoch (s.threads t)
  past : ∀ k, Outcome covered none (s.past.flatMap Life.issued) k (s.store.base k)

theorem inv_started (durability : Durability) {e : Engine} (h : (Store.opened e).Inv) {past : List Life}
    (hpast : ∀ k, Outcome covered none (past.flatMap Life.issued) k (e.get k)) :
    Inv (.started durability e past) where
  down := rfl
  store := h
  acked_safe := by simp [State.started]
  synced_safe := by simp [State.started]
  durable := durableTo_zero _
  reset := fun _ => rfl
  threads := fun _ => trivial
  past := hpast

theorem inv_initial (durability : Durability) (maxBytes : ℕ) : Inv (initial durability maxBytes) := by
  refine inv_started durability (Store.inv_fresh maxBytes) ?_
  intro k
  refine .inr ⟨?_, by simp⟩
  rw [Engine.get_eq, Engine.contents, Engine.fresh, Memtable.entries_new]
  rfl

/-- Moving one thread. -/
theorem Inv.setPc {s : State} (h : Inv s) (t : ThreadId) {p : Pc} (hp : PcInv s.store s.epoch p) :
    Inv (s.setPc t p) := by
  have hthreads : ∀ u, PcInv s.store s.epoch (Function.update s.threads t p u) :=
    (Function.forall_update_iff s.threads fun _ => PcInv s.store s.epoch).mpr ⟨hp, fun u _ => h.threads u⟩
  exact ⟨h.down, h.store, h.acked_safe, h.synced_safe, h.durable, h.reset, hthreads, h.past⟩

/-- A new store in the same epoch. -/
theorem Inv.follows {s : State} (h : Inv s) {store : Store} (hinv : store.Inv)
    (hf : Follows s.store store) (hsafe : ∀ i, s.store.Safe i → store.Safe i)
    (hbase : store.base = s.store.base) (holder : Option ThreadId) :
    Inv { s with store := store, holder := holder } where
  down := h.down
  store := hinv
  acked_safe := fun i hi => hsafe i (h.acked_safe i hi)
  synced_safe := fun i hi => hsafe i (h.synced_safe i hi)
  durable := hf.durable _ h.durable
  reset := by
    show store.clearing = true → s.durableEnd = 0
    rw [hf.clearing_eq]
    exact h.reset
  threads := fun t => (h.threads t).follows h.store.log hf
  past := by
    intro k
    show Outcome covered none _ k (store.base k)
    rw [hbase]
    exact h.past k

theorem clearing_of_free {store : Store} (h : store.stage = none) : store.clearing = false := by
  rw [Store.clearing, h]

theorem inv_write {s : State} (h : Inv s) {t : ThreadId} {op : Op} {height : Height}
    (he : Enabled s (.write t op height)) : Inv (next s (.write t op height)) := by
  obtain ⟨-, hstage, -, hfits⟩ := he
  have hfree : s.store.stage = none := by simpa using hstage
  have hinv := h.store.append hfree hfits height
  have hstore := h.follows hinv (follows_append hfree op height)
    (fun i hi => hi.append h.store.log op height) rfl (some t)
  refine hstore.setPc t ?_
  have hlen := length_log hinv.log
  have hle := h.store.log.flushed_le
  have hops : (s.store.append op height).ops.length = s.store.ops.length + 1 := by simp [Store.append]
  refine ⟨le_rfl, hops.ge, fun hlt => absurd hlt (lt_irrefl _), fun _ => ⟨?_, ?_, ?_⟩⟩
  · show (s.store.append op height).clearing = false
    rw [(follows_append hfree op height).clearing_eq]
    exact clearing_of_free hfree
  · exact Nat.le_succ_of_le hle
  · rw [hops] at hlen
    show Wal.writeOffset (s.store.append op height).engine.log = Wal.writeOffset
      ((s.store.append op height).engine.log.take ((s.store.append op height).recovered +
        (s.store.ops.length + 1 - (s.store.append op height).flushed)))
    rw [← hlen, List.take_length]

theorem inv_flush {s : State} (h : Inv s) {t : ThreadId} (he : Enabled s (.flush t)) :
    Inv (next s (.flush t)) := by
  obtain ⟨-, hstage, -, -⟩ := he
  have hfree : s.store.stage = none := by simpa using hstage
  have hquiet : s.store.Quiet s.store.startFlush :=
    ⟨rfl, rfl, rfl, rfl, rfl, by simp [Store.clearing, Store.startFlush, hfree]⟩
  exact (h.follows (h.store.startFlush hfree) (follows_quiet hquiet) (fun i hi => hi.quiet hquiet) rfl
    (some t)).setPc t trivial

theorem inv_sync {s : State} (h : Inv s) {t : ThreadId} (he : Enabled s (.sync t)) :
    Inv (next s (.sync t)) := by
  obtain ⟨-, -, hclear⟩ := he
  apply h.setPc
  have hlen := length_log h.store.log
  refine ⟨le_rfl, le_rfl, fun hlt => absurd hlt (lt_irrefl _), fun _ => ⟨hclear, ?_, ?_⟩⟩
  · exact h.store.log.flushed_le
  · show Wal.writeOffset s.log = Wal.writeOffset
      (s.store.engine.log.take (s.store.recovered + (s.store.ops.length - s.store.flushed)))
    rw [← hlen, List.take_length]
    rfl

theorem inv_land {s : State} (h : Inv s) {i : ℕ} (he : Enabled s (.land i)) :
    Inv (next s (.land i)) := by
  obtain ⟨r, hr, hw⟩ := Option.map_eq_some_iff.mp he.2
  have hi := h.store.log.recovered_le_of_inFlight hr hw
  exact h.follows (h.store.land hi) (follows_land s.store i) (fun j hj => hj.land hi) rfl s.holder

theorem Inv.finish {s : State} (h : Inv s) (t : ThreadId) {c : Caller}
    (hsafe : ∀ i < c.upto, s.store.Safe i) : Inv (s.finish t c) := by
  cases c with
  | write i =>
    have hacked : Inv { s with acked := i :: s.acked } := by
      refine ⟨h.down, h.store, ?_, h.synced_safe, h.durable, h.reset, h.threads, h.past⟩
      intro j hj
      rcases List.mem_cons.mp hj with rfl | hj
      · exact hsafe j (Nat.lt_succ_self j)
      · exact h.acked_safe j hj
    exact hacked.setPc t (p := .idle) trivial
  | sync n =>
    have hsynced : Inv { s with synced := max s.synced n } := by
      refine ⟨h.down, h.store, h.acked_safe, ?_, h.durable, h.reset, h.threads, h.past⟩
      intro j hj
      rcases lt_max_iff.mp hj with hj | hj
      · exact h.synced_safe j hj
      · exact hsafe j hj
    exact hsynced.setPc t (p := .idle) trivial

theorem inv_check {s : State} (h : Inv s) {t : ThreadId} (he : Enabled s (.check t)) :
    Inv (next s (.check t)) := by
  have hclear : s.store.clearing = false := he.2
  have hpc := h.threads t
  rw [next]
  split
  case h_2 => exact h
  case h_1 w ht =>
    rw [ht] at hpc
    unfold State.check
    split_ifs with hepoch hend hsync
    · exact h.finish t fun i hi => hpc.safe h.store.log hclear h.durable (.inl hepoch) hi
    · exact h.finish t fun i hi => hpc.safe h.store.log hclear h.durable (.inr hend) hi
    · exact h
    · have hlead : LeadInv s.store s.epoch s.epoch := by
        refine ⟨le_rfl, fun hc => ?_⟩
        rw [hclear] at hc
        cases hc
      have hbusy : Inv { s with syncInProgress := true } :=
        ⟨h.down, h.store, h.acked_safe, h.synced_safe, h.durable, h.reset, h.threads, h.past⟩
      exact hbusy.setPc t (p := .leading w s.epoch) ⟨hpc, hlead⟩

theorem inv_drain {s : State} (h : Inv s) {t : ThreadId} (he : Enabled s (.drain t)) :
    Inv (next s (.drain t)) := by
  have hpc := h.threads t
  rw [next]
  split
  case h_2 => exact h
  case h_1 w lead ht =>
    rw [ht] at hpc
    exact h.setPc t ⟨hpc.1, hpc.2, fun _ => durableTo_writeOffset he.2.2⟩

theorem inv_settle {s : State} (h : Inv s) {t : ThreadId} (he : Enabled s (.settle t)) :
    Inv (next s (.settle t)) := by
  have hclear : s.store.clearing = false := he.2
  have hpc := h.threads t
  rw [next]
  split
  case h_2 => exact h
  case h_1 w lead target ht =>
    rw [ht] at hpc
    have hdurable : DurableTo s.log (if s.epoch = lead then max s.durableEnd target else s.durableEnd) := by
      split_ifs with heq
      · exact h.durable.max (hpc.2.2 heq.symm)
      · exact h.durable
    have hdone : Inv { s with
        syncInProgress := false
        durableEnd := if s.epoch = lead then max s.durableEnd target else s.durableEnd } := by
      refine ⟨h.down, h.store, h.acked_safe, h.synced_safe, hdurable, fun hc => ?_, h.threads, h.past⟩
      rw [hclear] at hc
      cases hc
    exact hdone.setPc t (p := .waiting w) hpc.1

theorem pcInv_released {s : State} {store : Store} {epoch : ℕ} {p : Pc} (h : PcInv store epoch p) :
    PcInv store epoch (s.released p) := by
  cases p with
  | writing w =>
    rw [State.released]
    split_ifs
    · exact h
    · trivial
  | idle => exact h
  | flushing => exact h
  | waiting w => exact h
  | leading w lead => exact h
  | drained w lead target => exact h

/-- A step that does not end an epoch changes the store, and at its end the thread that leaves the
engine lock. -/
theorem advance_of_ne_clear {s : State} {store : Store} (ha : s.store.advance = .ok store)
    (hne : s.store.stage ≠ some .clear) :
    s.advance = { s with store := store } ∨
      ∃ t, s.advance = ({ s with store := store, holder := none } : State).setPc t (s.released (s.threads t)) := by
  unfold State.advance
  rw [ha]
  dsimp only
  split
  · exact absurd ‹_› hne
  · exact .inr ⟨_, rfl⟩
  · exact .inl rfl

/-- What the step of the store means for the threads, outside the step that ends the epoch. -/
theorem threads_advance {s : State} (h : Inv s) {store : Store} (ha : s.store.advance = .ok store)
    (hne : s.store.stage ≠ some .clear) :
    (∀ t, PcInv store s.epoch (s.threads t)) ∧ DurableTo store.engine.log s.durableEnd ∧
      (store.clearing = true → s.durableEnd = 0) := by
  rcases Store.advance_cases ha with ⟨-, hq⟩ | ⟨hs, -⟩ | ⟨hs, hclr, -, hops, hlocked⟩ |
    ⟨hs, hlog, -, hops, hflushed, -, hfree⟩
  · refine ⟨fun t => (h.threads t).follows h.store.log (follows_quiet hq),
      (follows_quiet hq).durable _ h.durable, ?_⟩
    rw [hq.clearing_eq]
    exact h.reset
  · exact absurd hs hne
  · have hlock : s.store.clearing = true := by rw [Store.clearing, hs]
    rw [h.reset hlock]
    refine ⟨fun t => (h.threads t).of_earlier hops ?_ fun _ _ => .inl hlocked, durableTo_zero _, fun _ => rfl⟩
    intro n hn hsame
    exact lt_of_le_of_ne hn fun heq => by simp [hsame heq] at hlock
  · have hlock : s.store.clearing = true := by rw [Store.clearing, hs]
    have hstage := h.store.stage
    rw [hs] at hstage
    rw [h.reset hlock]
    refine ⟨fun t => (h.threads t).of_earlier hops ?_ ?_, durableTo_zero _, fun _ => rfl⟩
    · intro n hn hsame
      exact lt_of_le_of_ne hn fun heq => by simp [hsame heq] at hlock
    · intro n hn
      right
      rw [hflushed, hstage.2.2.flushed_eq]
      exact hn

theorem inv_step {s : State} (h : Inv s) (hrange : s.store.InRange) : Inv (next s .step) := by
  obtain ⟨store, ha⟩ := h.store.advance_isOk hrange
  have hinv := h.store.advance ha
  have hsafe : ∀ i, s.store.Safe i → store.Safe i := fun i hi => hi.advance h.store.log ha
  obtain ⟨hbase, hops⟩ := Store.advance_ops ha
  have hpast : ∀ k, Outcome covered none (s.past.flatMap Life.issued) k (store.base k) := by
    rw [hbase]
    exact h.past
  rw [next]
  by_cases hclear : s.store.stage = some .clear
  · -- The epoch ends; the locks keep everyone away until the log is gone.
    have hadvance : s.advance = { s with store := store, epoch := s.epoch + 1, durableEnd := 0 } := by
      unfold State.advance
      rw [ha, hclear]
    have hlocked : store.clearing = true := by
      simp only [Store.advance, hclear] at ha
      cases ha
      rfl
    rw [hadvance]
    exact ⟨h.down, hinv, fun i hi => hsafe i (h.acked_safe i hi), fun i hi => hsafe i (h.synced_safe i hi),
      durableTo_zero _, fun _ => rfl, fun t => (h.threads t).of_earlier hops
        (fun n hn _ => Nat.lt_succ_of_le hn) fun _ _ => .inl hlocked, hpast⟩
  · obtain ⟨hthreads, hdurable, hreset⟩ := threads_advance h ha hclear
    have hstore : ∀ holder, Inv { s with store := store, holder := holder } := fun _ =>
      ⟨h.down, hinv, fun i hi => hsafe i (h.acked_safe i hi), fun i hi => hsafe i (h.synced_safe i hi),
        hdurable, hreset, hthreads, hpast⟩
    rcases advance_of_ne_clear ha hclear with heq | ⟨t, heq⟩
    · rw [heq]
      exact hstore s.holder
    · rw [heq]
      exact (hstore none).setPc t (pcInv_released (hthreads t))

/-! ### Crashes -/

theorem map_op_issued (l : Life) : l.issued.map (·.op) = l.ops := by
  apply List.ext_getElem?
  intro j
  simp [Life.issued, Function.comp_def]

theorem covered_safe {s : State} (h : Inv s) {j : ℕ} {o : Issued} (ho : s.life.issued[j]? = some o)
    (hcov : covered o = true) : s.store.Safe j := by
  rw [Life.issued, List.getElem?_mapIdx] at ho
  obtain ⟨op, -, rfl⟩ := Option.map_eq_some_iff.mp ho
  simp only [covered, Bool.or_eq_true, decide_eq_true_eq] at hcov
  rcases hcov with hacked | hsynced
  · exact h.acked_safe j hacked
  · exact h.synced_safe j hsynced

/-- The next process opens the engine, and what it reads is permitted. -/
theorem Inv.reopen {s : State} (h : Inv s) (hlog : LogReadable s) (maxBytes : ℕ) (heights : ℕ → Height) :
    ∃ e, s.store.reopen maxBytes heights = .ok e ∧ (Store.opened e).Inv ∧
      (∀ k, Outcome covered (s.store.base k) s.life.issued k (e.get k)) ∧
      ∀ k, Outcome covered none s.history k (e.get k) := by
  obtain ⟨e, he, hinv, hget⟩ := Store.reopen_isOk h.store.log.fits h.store.l0_lt hlog maxBytes heights
  have hlife : ∀ k, Outcome covered (s.store.base k) s.life.issued k (e.get k) := by
    intro k
    rw [hget k]
    exact h.store.outcome (map_op_issued s.life) (fun j o ho hcov => covered_safe h ho hcov) k
  exact ⟨e, he, hinv, hlife, fun k => (h.past k).append (hlife k)⟩

theorem inv_crash {s : State} (h : Inv s) (hlog : LogReadable s) (maxBytes : ℕ) (heights : ℕ → Height) :
    Inv (next s (.crash maxBytes heights)) := by
  obtain ⟨e, he, hinv, -, hread⟩ := h.reopen hlog maxBytes heights
  have hcrash : s.crash maxBytes heights = .started s.durability e (s.past ++ [s.life]) := by
    rw [State.crash, he]
  rw [next, hcrash]
  refine inv_started s.durability hinv ?_
  intro k
  rw [List.flatMap_append, List.flatMap_singleton]
  exact hread k

theorem inv_next (s : State) (e : Event) (h : Inv s) (hok : InRange s e) (he : machine.Enabled s e) :
    Inv (machine.next s e) := by
  cases e with
  | write t op height => exact inv_write h he
  | flush t => exact inv_flush h he
  | sync t => exact inv_sync h he
  | step => exact inv_step h hok
  | land i => exact inv_land h he
  | check t => exact inv_check h he
  | drain t => exact inv_drain h he
  | settle t => exact inv_settle h he
  | crash maxBytes heights => exact inv_crash h hok maxBytes heights

theorem inv_run {durability : Durability} {maxBytes : ℕ} {es : List Event} {s : State}
    (h : Run machine InRange (initial durability maxBytes) es s) : Inv s :=
  h.invariant Inv inv_next (inv_initial durability maxBytes)

/-- What the engine promises in asynchronous mode of a process that dies now: the next one opens
the engine, and reads for every key the effect of the last operation on it that a returned `sync`
covers, or of a later one. -/
def AsyncContract (s : State) : Prop :=
  ∀ maxBytes heights, ∃ e, s.store.reopen maxBytes heights = .ok e ∧
    ∀ k, Outcome (·.synced) none s.history k (e.get k)

/-- In every run whose tables are numbered within `int` and whose crashes leave logs that can be
read back, a crash in any state keeps the contract. -/
theorem asyncContract_of_inRange (maxBytes : ℕ) (es : List Event) (s : State)
    (h : Run machine InRange (initial .async maxBytes) es s) (hlog : LogReadable s) :
    AsyncContract s := by
  intro maxBytes' heights
  obtain ⟨e, he, -, -, hread⟩ := (inv_run h).reopen hlog maxBytes' heights
  refine ⟨e, he, fun k => (hread k).mono ?_⟩
  intro o ho
  rw [covered, ho, Bool.or_true]

/-- A put that is flushed, one whose flush dies between the publication of its table and the clearing
of the log, and in the next process a put covered by a `sync` and a deletion still in flight. -/
def asyncRun : List Event :=
  [.write 0 (.put (.ofBytes [1]) [5]) 0, .land 0] ++ List.replicate 9 .step ++
  [.write 0 (.put (.ofBytes [2]) [6]) 0, .step, .step, .step, .crash 100 fun _ => 1,
    .write 0 (.put (.ofBytes [2]) [7]) 0, .step, .step, .land 0, .sync 0, .check 0, .drain 0, .settle 0,
    .check 0, .write 0 (.del (.ofBytes [1])) 2, .step, .step]

theorem asyncContract_asyncRun : AsyncContract (asyncRun.foldl machine.next (initial .async 0)) :=
  asyncContract_of_inRange 0 asyncRun _ (Allowed.run (by decide +kernel)) (by decide +kernel)

/-- Two million puts of one key, each followed by a `sync` that returns. -/
theorem not_asyncContract_overwrites :
    ∃ s, Run machine (fun _ _ => True) (initial .async Memtable.defaultMaxBytes)
      ((List.range 2097153).flatMap syncedRound) s ∧ ¬ AsyncContract s := by
  obtain ⟨s, hrun, hs⟩ := between_rounds (fun _ _ => between_syncedRound) 2097153
  refine ⟨s, hrun, ?_⟩
  intro hcontract
  obtain ⟨e, he, -⟩ := hcontract 0 fun _ => 0
  exact hs.toOverwritten.reopen (by decide) 0 _ e he

end LsmTree.CrashMachine
