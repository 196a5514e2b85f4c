import LsmTree.WalGroupCommit

/-!
# The life of the ring

`clear` takes the ring and the descriptor of the log down and sets them up again. It
throws if the file cannot be removed, the new one not opened or the new ring not
initialised, and then leaves the object with `ring_ready_` false and `fd_` at -1. Of the
functions that use the ring only the end of `clear`, the destructor's exit and the wait
of `drain` look at `ring_ready_`: an append goes straight to `io_uring_get_sqe`, and
`drain` begins with a `reap`, which peeks.

What protects the ring is its lock. A thread that is inside `reap` or between two
requests holds `mu_`, and `clear` holds `mu_` from its drain on, so the ring is never
taken away from a call that has begun to use it. It is misused only by a call that begins
after `clear` has thrown.
-/

namespace LsmTree.WalLifecycle
open Wal WalRing Transition

/-- A request of the source to `io_uring`. -/
inductive RingOp where
  | getSqe | prepWrite | submit | peekCqe | waitCqe
  deriving DecidableEq, Repr

/-- The two calls that drain the ring and take it down. -/
inductive Closing where
  | clear | destroy
  deriving DecidableEq, Repr

/-- Where they stand: in the `reap` of `drain`, in its wait, or behind it. -/
inductive DrainPhase where
  | reaping | parked | drained
  deriving DecidableEq, Repr

structure Closer where
  thread : ThreadId
  closing : Closing
  phase : DrainPhase
  deriving DecidableEq, Repr

inductive ClearOutcome where
  | done | removeFailed | openFailed | initFailed
  deriving DecidableEq, Repr

/-- A `WAL` object with its handles. `threw` is not in the source: a call of `clear` has thrown. -/
structure State where
  wal : WalRing.State
  ringReady : Bool
  fdOpen : Bool
  closer : Option Closer
  destroyed : Bool
  threw : Bool

/-- A `WAL` just opened on a log of `size` bytes. -/
def initial (size : ℕ) : State := ⟨WalRing.initial size, true, true, none, false, false⟩

/-- The steps of appends, waits and the kernel, an append that throws before it reaches the ring,
`recover`, the steps of `clear` and of the destructor. -/
inductive Event where
  | wal (e : WalRing.Event)
  | refuse (t : ThreadId)
  | recover (t : ThreadId)
  | clear (t : ThreadId)
  | destroy (t : ThreadId)
  | drainReap (submit : Submit)
  | drainReaped
  | drainWake
  | drainFailed (errno : ℕ)
  | clearEnd (outcome : ClearOutcome)
  | destroyEnd

/-! ### The requests of a step -/

/-- `resubmit`, if the completion calls for it. -/
def resubmitOps (s : WalRing.State) (c : Cqe) : List RingOp :=
  if c.retried then
    if ringEntries ≤ s.sq.length then [.getSqe] else [.getSqe, .prepWrite, .submit]
  else []

/-- An iteration of `reap`. -/
def reapOps (s : WalRing.State) : List RingOp :=
  match s.cq with
  | [] => [.peekCqe]
  | c :: _ => .peekCqe :: resubmitOps s c

/-- The wait of `drain`. -/
def waitOps : Pc → List RingOp
  | .parked _ _ => [.waitCqe]
  | _ => []

def walOps (s : WalRing.State) : WalRing.Event → List RingOp
  | .append _ _ _ =>
    if s.sq.length < ringEntries then [.getSqe, .prepWrite, .submit] else [.getSqe, .submit]
  | .reap _ _ => reapOps s
  | .reaped t _ =>
    match s.pc t with
    | .retry _ =>
      if s.sq.length < ringEntries then [.peekCqe, .getSqe, .prepWrite, .submit] else [.peekCqe, .getSqe]
    | _ => [.peekCqe]
  | .wake t => waitOps (s.pc t)
  | .waitFailed t _ => waitOps (s.pc t)
  | .waitDurable _ _ | .sync _ | .check _ | .lead _ | .fdatasync _ _ | .settle _ | .complete _ _ => []

def ops (s : State) : Event → List RingOp
  | .wal e => walOps s.wal e
  | .drainReap _ | .drainReaped => reapOps s.wal
  | .drainWake | .drainFailed _ => [.waitCqe]
  | .refuse _ | .recover _ | .clear _ | .destroy _ | .clearEnd _ | .destroyEnd => []

/-- Nothing is asked of a ring that is not there, and no write is prepared on a closed descriptor. -/
def Safe (s : State) (e : Event) : Prop :=
  ∀ op ∈ ops s e, s.ringReady = true ∧ (op = .prepWrite → s.fdOpen = true)

/-! ### The system -/

/-- The kernel's side of a step. -/
def Kernel : WalRing.Event → Prop
  | .complete _ _ => True
  | _ => False

def InDrain (s : State) (phase : DrainPhase) : Prop := s.closer.map Closer.phase = some phase

def EventEnabled (s : State) : Event → Prop
  | .wal e => WalRing.Enabled s.wal e ∧ (s.closer.isNone ∨ Kernel e)
  | .refuse t | .recover t => s.closer.isNone ∧ s.wal.pc t = .idle ∧ s.wal.mu = none
  | .clear t | .destroy t =>
    s.closer.isNone ∧ s.wal.pc t = .idle ∧ s.wal.mu = none ∧ s.wal.syncInProgress = false
  | .drainReap _ => InDrain s .reaping ∧ s.wal.cq ≠ []
  | .drainReaped => InDrain s .reaping ∧ s.wal.cq = []
  | .drainWake => InDrain s .parked ∧ s.wal.cq ≠ []
  | .drainFailed _ => InDrain s .parked
  | .clearEnd _ => InDrain s .drained ∧ s.closer.map Closer.closing = some .clear
  | .destroyEnd => InDrain s .drained ∧ s.closer.map Closer.closing = some .destroy

def Enabled (s : State) (e : Event) : Prop := s.destroyed = false ∧ EventEnabled s e

def State.setPhase (s : State) (phase : DrainPhase) : State :=
  { s with closer := s.closer.map fun c => { c with phase := phase } }

/-- The end of `clear`: the ring is exited, the descriptor closed, and as much set up again as can be. -/
def State.clearEnd (s : State) : ClearOutcome → State
  | .done =>
    { s with
      wal := { s.wal with
        sq := [], inFlight := [], cq := [], pendingCqes := 0, writeOffset := 0, failure := none, mu := none }
      ringReady := true, fdOpen := true, closer := none }
  | .removeFailed | .openFailed =>
    { s with
      wal := { s.wal with mu := none }
      ringReady := false, fdOpen := false, closer := none, threw := true }
  | .initFailed =>
    { s with
      wal := { s.wal with writeOffset := 0, mu := none }
      ringReady := false, fdOpen := false, closer := none, threw := true }

def next (s : State) : Event → State
  | .wal e => { s with wal := WalRing.next s.wal e }
  | .refuse _ | .recover _ => s
  | .clear t =>
    { s with
      wal := { s.wal with durableEnd := 0, epoch := s.wal.epoch + 1, mu := some t }
      closer := some ⟨t, .clear, .reaping⟩ }
  | .destroy t => { s with wal := { s.wal with mu := some t }, closer := some ⟨t, .destroy, .reaping⟩ }
  | .drainReap submit =>
    match s.wal.cq with
    | [] => s
    | c :: cq => { s with wal := reapOne submit c { s.wal with cq := cq } }
  | .drainReaped => s.setPhase (if 0 < s.wal.pendingCqes ∧ s.ringReady = true then .parked else .drained)
  | .drainWake => s.setPhase .reaping
  | .drainFailed errno => { s with wal := s.wal.recordFailure (.drainFailed errno) }.setPhase .drained
  | .clearEnd outcome => s.clearEnd outcome
  | .destroyEnd => { s with ringReady := false, fdOpen := false, destroyed := true }

def system : System State Event := ⟨Enabled, next⟩

instance (e : WalRing.Event) : Decidable (Kernel e) :=
  match e with
  | .complete _ _ => isTrue trivial
  | .append _ _ _ | .reap _ _ | .reaped _ _ | .wake _ | .waitFailed _ _ | .waitDurable _ _ | .sync _ | .check _
  | .lead _ | .fdatasync _ _ | .settle _ => isFalse id

instance (s : State) (phase : DrainPhase) : Decidable (InDrain s phase) := inferInstanceAs (Decidable (_ = _))

instance EventEnabled.decidable (s : State) : (e : Event) → Decidable (EventEnabled s e)
  | .wal _ => inferInstanceAs (Decidable (_ ∧ (_ ∨ _)))
  | .refuse _ | .recover _ => inferInstanceAs (Decidable (_ ∧ _ ∧ _))
  | .clear _ | .destroy _ => inferInstanceAs (Decidable (_ ∧ _ ∧ _ ∧ _))
  | .drainReap _ | .drainReaped | .drainWake | .clearEnd _ | .destroyEnd => inferInstanceAs (Decidable (_ ∧ _))
  | .drainFailed _ => inferInstanceAs (Decidable (InDrain _ _))

instance (s : State) (e : Event) : Decidable (system.Enabled s e) := inferInstanceAs (Decidable (_ ∧ _))

instance (s : State) (e : Event) : Decidable (Safe s e) := inferInstanceAs (Decidable (∀ op ∈ ops s e, _))

/-! ### Who is inside -/

/-- The thread holds `mu_`. -/
def holdsMu : Pc → Bool
  | .retry _ | .reaping _ | .draining _ _ | .parked _ _ => true
  | .idle | .waiting _ | .leading _ _ | .syncing _ _ _ _ | .synced _ _ _ | .aborting => false

def LockInv (s : WalRing.State) : Prop := ∀ t, holdsMu (s.pc t) = true → s.mu = some t

/-- A thread moves, and the lock goes to or from it at most. -/
theorem LockInv.move {s s' : WalRing.State} (h : LockInv s) {t : ThreadId} {p : Pc}
    (hpc : s'.pc = Function.update s.pc t p) (hmu : s'.mu = s.mu ∨ s.mu = none ∨ s.mu = some t)
    (hp : holdsMu p = true → s'.mu = some t) : LockInv s' := by
  intro u hu
  rw [hpc] at hu
  by_cases hut : u = t
  · rw [hut, Function.update_self] at hu
    rw [hut]
    exact hp hu
  · rw [Function.update_of_ne hut] at hu
    have hown := h u hu
    rcases hmu with hsame | hfree | hmine
    · rw [hsame, hown]
    · rw [hfree] at hown
      cases hown
    · rw [hmine] at hown
      exact absurd (Option.some.inj hown).symm hut

theorem LockInv.of_eq {s s' : WalRing.State} (h : LockInv s) (hpc : s'.pc = s.pc) (hmu : s'.mu = s.mu) :
    LockInv s' := by
  intro t ht
  rw [hmu]
  exact h t (hpc ▸ ht)

theorem lockInv_submitOwn {s : WalRing.State} (h : LockInv s) (submit : Submit) {t : ThreadId} (e : Entry)
    (hmu : s.mu = none ∨ s.mu = some t) : LockInv (submitOwn submit t e s) := by
  cases submit with
  | accepted => exact h.move rfl (.inr hmu) fun _ => rfl
  | refused errno => exact h.move rfl (.inr hmu) fun hp => by cases hp

theorem lockInv_finishDrain {s : WalRing.State} (h : LockInv s) {t : ThreadId} (ticket : Ticket) (epoch : ℕ)
    (hmu : s.mu = some t) : LockInv (finishDrain t ticket epoch s) := by
  unfold finishDrain
  split
  · exact h.move rfl (.inr (.inr hmu)) fun hp => by cases hp
  · exact h.move rfl (.inr (.inr hmu)) fun hp => by cases hp

theorem lockInv_next {s : WalRing.State} (h : LockInv s) {e : WalRing.Event} (he : WalRing.Enabled s e) :
    LockInv (WalRing.next s e) := by
  cases e with
  | append t e submit =>
    simp only [WalRing.next, startAppend]
    split_ifs
    · exact lockInv_submitOwn h submit e (.inl he.2.1)
    · cases submit with
      | refused errno => exact h
      | accepted => exact h.move rfl (.inr (.inl he.2.1)) fun _ => rfl
  | reap t submit =>
    simp only [WalRing.next]
    split
    · exact h
    · have hsame := sameLog_reapOne submit ‹Cqe› { s with cq := ‹List Cqe› }
      exact h.of_eq hsame.pc hsame.mu
  | reaped t submit =>
    simp only [WalRing.next, afterReap]
    split
    · split_ifs
      · exact lockInv_submitOwn h submit _ (.inr he.1)
      · exact h.move rfl (.inr (.inr he.1)) fun hp => by cases hp
    · exact h.move rfl (.inr (.inr he.1)) fun hp => by cases hp
    · split_ifs
      · exact h.move rfl (.inl rfl) fun _ => he.1
      · exact lockInv_finishDrain h _ _ he.1
    · exact h
  | wake t =>
    simp only [WalRing.next]
    split
    · exact h.move rfl (.inl rfl) fun _ => he.1
    · exact h
  | waitFailed t errno =>
    simp only [WalRing.next]
    split
    · have hsame : LockInv (s.recordFailure (.drainFailed errno)) := h.of_eq rfl rfl
      exact lockInv_finishDrain hsame _ _ he
    · exact h
  | waitDurable t ticket => exact h.move rfl (.inl rfl) fun hp => by cases hp
  | sync t => exact h.move rfl (.inl rfl) fun hp => by cases hp
  | check t =>
    simp only [WalRing.next]
    split
    · unfold checkTicket
      split_ifs
      · exact h.move rfl (.inl rfl) fun hp => by cases hp
      · exact h.move rfl (.inl rfl) fun hp => by cases hp
      · exact h
      · exact h.move rfl (.inl rfl) fun hp => by cases hp
    · exact h
  | lead t =>
    simp only [WalRing.next]
    split
    · exact h.move rfl (.inr (.inl he)) fun _ => rfl
    · exact h
  | fdatasync t ok =>
    simp only [WalRing.next]
    split
    · split_ifs
      · exact h.move rfl (.inl rfl) fun hp => by cases hp
      · exact h.move rfl (.inl rfl) fun hp => by cases hp
    · exact h
  | settle t =>
    simp only [WalRing.next, settle]
    split
    · exact h.move rfl (.inl rfl) fun hp => by cases hp
    · exact h.move rfl (.inl rfl) fun hp => by cases hp
    · exact h
  | complete i res =>
    simp only [WalRing.next, complete]
    split
    · exact h
    · exact h.of_eq rfl rfl

/-! ### Calls that begin -/

/-- The steps with which a call begins to use the ring: an append that is not refused, the drain of
the leader of a group commit, and the drains of `clear` and of the destructor. -/
def begins : Event → Bool
  | .wal (.append _ _ _) | .wal (.lead _) | .clear _ | .destroy _ => true
  | _ => false

/-- No call begins to use the ring once `clear` has thrown. -/
def NoneAfterThrow (s : State) (e : Event) : Prop := begins e = true → s.threw = false

instance (s : State) (e : Event) : Decidable (NoneAfterThrow s e) := inferInstanceAs (Decidable (_ → _))

structure Inv (s : State) : Prop where
  lock : LockInv s.wal
  ready : s.threw = false → s.destroyed = false → s.ringReady = true ∧ s.fdOpen = true
  closer : ∀ c ∈ s.closer, s.wal.mu = some c.thread ∧ s.wal.pc c.thread = .idle ∧ s.threw = false
  outside : s.threw = true → s.wal.mu = none

theorem inv_initial (size : ℕ) : Inv (initial size) := by
  constructor
  · intro t ht
    cases ht
  · exact fun _ _ => ⟨rfl, rfl⟩
  · intro c hc
    cases hc
  · intro h
    cases h

/-- Unless a call begins, nobody gets a lock that is free. -/
theorem mu_next {s : WalRing.State} {e : WalRing.Event} (hmu : s.mu = none) (he : WalRing.Enabled s e)
    (hb : begins (.wal e) = false) : (WalRing.next s e).mu = none ∧ walOps s e = [] := by
  have hfree : ∀ t, s.mu ≠ some t := by
    intro t ht
    rw [hmu] at ht
    cases ht
  cases e with
  | append t e submit => cases hb
  | lead t => cases hb
  | reap t submit => exact absurd he.1 (hfree t)
  | reaped t submit => exact absurd he.1 (hfree t)
  | wake t => exact absurd he.1 (hfree t)
  | waitFailed t errno => exact absurd he (hfree t)
  | waitDurable t ticket => exact ⟨hmu, rfl⟩
  | sync t => exact ⟨hmu, rfl⟩
  | check t =>
    refine ⟨?_, rfl⟩
    simp only [WalRing.next, checkTicket]
    split
    · split_ifs <;> exact hmu
    · exact hmu
  | fdatasync t ok =>
    refine ⟨?_, rfl⟩
    simp only [WalRing.next]
    split
    · split_ifs <;> exact hmu
    · exact hmu
  | settle t =>
    refine ⟨?_, rfl⟩
    simp only [WalRing.next, settle]
    split <;> exact hmu
  | complete i res =>
    refine ⟨?_, rfl⟩
    simp only [WalRing.next, complete]
    split <;> exact hmu

theorem kernel_next {s : WalRing.State} {e : WalRing.Event} (h : Kernel e) :
    (WalRing.next s e).mu = s.mu ∧ (WalRing.next s e).pc = s.pc := by
  cases e with
  | complete i res =>
    simp only [WalRing.next, complete]
    split <;> exact ⟨rfl, rfl⟩
  | _ => cases h

theorem not_threw_of_inDrain {s : State} {phase : DrainPhase} (h : Inv s) (hd : InDrain s phase) :
    s.threw = false := by
  obtain ⟨c, hc, -⟩ := Option.map_eq_some_iff.mp hd
  exact (h.closer c hc).2.2

theorem safe_of_inv {s : State} {e : Event} (h : Inv s) (hok : NoneAfterThrow s e) (he : Enabled s e) :
    Safe s e := by
  have hready : s.threw = false → Safe s e := by
    intro hthrew op _
    obtain ⟨hring, hfd⟩ := h.ready hthrew he.1
    exact ⟨hring, fun _ => hfd⟩
  cases hthrew : s.threw with
  | false => exact hready hthrew
  | true =>
    have hb : begins e = false := by
      by_contra hb
      have hfalse := hok (by simpa using hb)
      rw [hthrew] at hfalse
      cases hfalse
    intro op hop
    cases e with
    | wal e =>
      rw [ops, (mu_next (h.outside hthrew) he.2.1 hb).2] at hop
      cases hop
    | drainReap submit => exact hready (not_threw_of_inDrain h he.2.1) op hop
    | drainReaped => exact hready (not_threw_of_inDrain h he.2.1) op hop
    | drainWake => exact hready (not_threw_of_inDrain h he.2.1) op hop
    | drainFailed errno => exact hready (not_threw_of_inDrain h he.2) op hop
    | refuse | recover | clear | destroy | clearEnd | destroyEnd => cases hop

theorem Inv.setPhase {s : State} (h : Inv s) (phase : DrainPhase) : Inv (s.setPhase phase) := by
  refine ⟨h.lock, h.ready, ?_, h.outside⟩
  intro c hc
  obtain ⟨c', hc', rfl⟩ := Option.map_eq_some_iff.mp hc
  exact h.closer c' hc'

/-- The thread that is closing lets go of the lock, and nobody else is in. -/
theorem LockInv.release {s s' : WalRing.State} (h : LockInv s) {t : ThreadId} (hmu : s.mu = some t)
    (hidle : s.pc t = .idle) (hpc : s'.pc = s.pc) : LockInv s' := by
  intro u hu
  rw [hpc] at hu
  have hown := h u hu
  rw [hmu] at hown
  rw [← Option.some.inj hown, hidle] at hu
  cases hu

theorem Inv.clearEnd {s : State} (h : Inv s) {c : Closer} (hc : s.closer = some c)
    (outcome : ClearOutcome) : Inv (s.clearEnd outcome) := by
  obtain ⟨hmu, hidle, hthrew⟩ := h.closer c hc
  have hlock : ∀ wal : WalRing.State, wal.pc = s.wal.pc → LockInv wal := fun _ => h.lock.release hmu hidle
  cases outcome with
  | done =>
    refine ⟨hlock _ rfl, fun _ _ => ⟨rfl, rfl⟩, fun c hc => (by cases hc), fun ht => ?_⟩
    simp only [State.clearEnd, hthrew] at ht
    cases ht
  | removeFailed => exact ⟨hlock _ rfl, fun hf => (by cases hf), fun c hc => (by cases hc), fun _ => rfl⟩
  | openFailed => exact ⟨hlock _ rfl, fun hf => (by cases hf), fun c hc => (by cases hc), fun _ => rfl⟩
  | initFailed => exact ⟨hlock _ rfl, fun hf => (by cases hf), fun c hc => (by cases hc), fun _ => rfl⟩

/-- A call that drains the ring starts. -/
theorem Inv.close {s : State} (h : Inv s) {t : ThreadId} (hidle : s.wal.pc t = .idle) (hmu : s.wal.mu = none)
    (hthrew : s.threw = false) (closing : Closing) {wal : WalRing.State} (hpc : wal.pc = s.wal.pc)
    (hown : wal.mu = some t) : Inv { s with wal := wal, closer := some ⟨t, closing, .reaping⟩ } := by
  refine ⟨?_, h.ready, ?_, ?_⟩
  · intro u hu
    simp only [hpc] at hu
    have := h.lock u hu
    rw [hmu] at this
    cases this
  · intro c hc
    cases hc
    refine ⟨hown, ?_, hthrew⟩
    simp only [hpc, hidle]
  · intro ht
    simp only [hthrew] at ht
    cases ht

/-- The ring changes under a call that drains it, which keeps the lock. -/
theorem Inv.ofWal {s : State} (h : Inv s) {wal : WalRing.State} (hpc : wal.pc = s.wal.pc)
    (hmu : wal.mu = s.wal.mu) : Inv { s with wal := wal } := by
  refine ⟨h.lock.of_eq hpc hmu, h.ready, ?_, ?_⟩
  · intro c hc
    simpa only [hmu, hpc] using h.closer c hc
  · intro ht
    simpa only [hmu] using h.outside ht

theorem inv_wal {s : State} {e : WalRing.Event} (h : Inv s) (hok : NoneAfterThrow s (.wal e))
    (he : EventEnabled s (.wal e)) : Inv (next s (.wal e)) := by
  obtain ⟨hen, hfree | hk⟩ := he
  · refine ⟨lockInv_next h.lock hen, h.ready, ?_, ?_⟩
    · intro c hc
      simp only [next] at hc
      rw [Option.isNone_iff_eq_none.mp hfree] at hc
      cases hc
    · intro hthrew
      simp only [next] at hthrew
      have hb : begins (.wal e) = false := by
        by_contra hb
        have hfalse := hok (by simpa using hb)
        rw [hthrew] at hfalse
        cases hfalse
      exact (mu_next (h.outside hthrew) hen hb).1
  · obtain ⟨hmu, hpc⟩ := kernel_next (s := s.wal) hk
    exact h.ofWal hpc hmu

theorem inv_next (s : State) (e : Event) (h : Inv s) (hok : NoneAfterThrow s e) (he : Enabled s e) :
    Inv (next s e) := by
  replace he := he.2
  cases e with
  | wal e => exact inv_wal h hok he
  | refuse t => exact h
  | recover t => exact h
  | clear t => exact h.close he.2.1 he.2.2.1 (hok rfl) _ rfl rfl
  | destroy t => exact h.close he.2.1 he.2.2.1 (hok rfl) _ rfl rfl
  | drainReap submit =>
    simp only [next]
    split
    · exact h
    · rename_i c cq _
      have hsame := sameLog_reapOne submit c { s.wal with cq := cq }
      exact h.ofWal hsame.pc hsame.mu
  | drainReaped => exact h.setPhase _
  | drainWake => exact h.setPhase _
  | drainFailed errno =>
    have hw : Inv { s with wal := s.wal.recordFailure (.drainFailed errno) } := h.ofWal rfl rfl
    exact hw.setPhase _
  | clearEnd outcome =>
    obtain ⟨c, hc, -⟩ := Option.map_eq_some_iff.mp he.1
    exact h.clearEnd hc outcome
  | destroyEnd =>
    refine ⟨h.lock, ?_, h.closer, h.outside⟩
    intro _ hdestroyed
    cases hdestroyed

/-- As long as no call begins to use the ring after `clear` has thrown, every request goes to a ring
that is there and every write to a descriptor that is open. -/
theorem ring_used_while_ready (size : ℕ) {es : List Event} {s : State}
    (h : Run system NoneAfterThrow (initial size) es s) : Run system Safe (initial size) es s :=
  h.strengthen Inv inv_next (fun _ _ => safe_of_inv) (inv_initial size)

def firstEntry : Entry := ⟨.put, [1], [2]⟩

/-- A record is written and waited for, `clear` fails to remove the log, and the calls made after that
all stop before they reach the ring. -/
def failedClear : List Event :=
  [.wal (.append 0 firstEntry .accepted), .wal (.complete 0 512), .wal (.reap 0 .accepted),
    .wal (.reaped 0 .accepted), .wal (.waitDurable 0 ⟨0, 512⟩), .wal (.check 0), .wal (.lead 0),
    .wal (.reaped 0 .accepted), .wal (.fdatasync 0 true), .wal (.settle 0), .wal (.check 0),
    .wal (.waitDurable 1 ⟨0, 1024⟩), .clear 0, .drainReaped, .clearEnd .removeFailed, .refuse 0, .recover 0,
    .wal (.check 1)]

theorem ring_used_until_clear_throws :
    Run system Safe (initial 0) failedClear (failedClear.foldl system.next (initial 0)) :=
  ring_used_while_ready 0 (Allowed.run (by decide +kernel))

/-- After a `clear` that threw at the removal of the log, an append asks for a slot of the ring that
has been exited and prepares its write on the descriptor -1. -/
theorem append_after_failed_clear :
    ∃ es s, Run system (fun _ _ => True) (initial 0) es s ∧ ¬ Run system Safe (initial 0) es s := by
  let es : List Event := [.clear 0, .drainReaped, .clearEnd .removeFailed, .wal (.append 0 firstEntry .accepted)]
  refine ⟨es, es.foldl system.next (initial 0), Allowed.run (by decide +kernel), ?_⟩
  intro h
  have hallowed : ¬ Allowed system Safe (initial 0) es := by decide +kernel
  exact hallowed h.allowed

end LsmTree.WalLifecycle
