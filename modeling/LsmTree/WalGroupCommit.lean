import LsmTree.WalRing

/-!
# No acknowledgement before the data is stable

The leader of a group commit trusts `pending_cqes_`: when it is zero, every record
handed to the kernel has completed. The counter is exact as long as no resubmission
of a cancelled write carries along requests that an earlier failed submit had left in
the queue, because those are then in flight without being counted.
-/

namespace LsmTree.WalRing
open Wal Transition

/-- The completion belongs to a cancelled write that will be submitted again. -/
def Cqe.retried (c : Cqe) : Bool :=
  match c.data with
  | some p => c.res = canceled ∧ p.attempts < maxWriteAttempts
  | none => false

/-- A cancelled write is resubmitted successfully only when nothing else is queued. -/
def NoLeftoverCarried (s : State) : Event → Prop
  | .reap _ .accepted => (∃ c ∈ s.cq.head?, c.retried) → s.sq = []
  | _ => True

instance NoLeftoverCarried.decidable (s : State) : (e : Event) → Decidable (NoLeftoverCarried s e)
  | .reap _ .accepted => inferInstanceAs (Decidable ((∃ c ∈ s.cq.head?, c.retried) → s.sq = []))
  | .reap _ (.refused _) => inferInstanceAs (Decidable True)
  | .append _ _ _ | .reaped _ _ | .wake _ | .waitFailed _ _ | .waitDurable _ _ | .sync _ | .check _
  | .lead _ | .fdatasync _ _ | .settle _ | .complete _ _ => inferInstanceAs (Decidable True)

/-- A write of region `r` is still tagged on this user data. -/
def Carries (r : Region) (data : Option PendingWrite) : Prop :=
  ∃ p, data = some p ∧ (⟨p.offset, p.bytes⟩ : Region) = r

/-- A write of region `r` is in flight or completed but not yet reaped. -/
def Outstanding (inFlight : List Sqe) (cq : List Cqe) (r : Region) : Prop :=
  (∃ q ∈ inFlight, Carries r q.data) ∨ ∃ c ∈ cq, Carries r c.data

/-- The counter and the tags of the ring. -/
structure RingInv (s : State) : Prop where
  count : s.pendingCqes = s.inFlight.length + s.cq.length
  detached : ∀ q ∈ s.sq, q.data = none
  tagged : ∀ q ∈ s.inFlight, ∀ p, q.data = some p → p.offset = q.offset ∧ p.bytes = q.bytes
  results : ∀ c ∈ s.cq, ∀ p, c.data = some p → (p.bytes : ℤ) ≤ c.res →
    (⟨p.offset, p.bytes⟩ : Region) ∈ s.completed
  accounted : s.failure = none → ∀ r ∈ s.handed,
    r ∈ s.completed ∨ Outstanding s.inFlight s.cq r

/-- What a thread relies on at its program point. -/
def PcInv (s : State) (t : ThreadId) : Pc → Prop
  | .retry _ => s.mu = some t
  | .reaping r => s.mu = some t ∧ r ∈ s.handed ∧ r.stop = s.writeOffset
  | .draining _ _ => s.mu = some t
  | .parked _ _ => s.mu = some t
  | .syncing _ _ target before => target ≤ s.writeOffset ∧ ∀ r ∈ s.handed, r.stop ≤ target → r ∈ before
  | .synced _ _ target => target ≤ s.writeOffset ∧ ∀ r ∈ s.handed, r.stop ≤ target → r ∈ s.stable
  | _ => True

/-- The bookkeeping of the group commit. -/
structure CommitInv (s : State) : Prop where
  bounded : ∀ r ∈ s.handed, r.stop ≤ s.writeOffset
  ticketed : ∀ x ∈ s.tickets, x.1 ∈ s.handed ∧ x.2.stop = x.1.stop
  durableEnd_le : s.durableEnd ≤ s.writeOffset
  durable : ∀ r ∈ s.handed, r.stop ≤ s.durableEnd → r ∈ s.stable
  acked : ∀ t ∈ s.acks, t.stop ≤ s.durableEnd
  threads : ∀ t, PcInv s t (s.pc t)

theorem ringInv_initial (size : ℕ) : RingInv (initial size) := by
  constructor <;> simp [initial]

theorem commitInv_initial (size : ℕ) : CommitInv (initial size) := by
  constructor <;> simp [initial, PcInv]

/-! ### The ring -/

theorem RingInv.of_eq {s s' : State} (h : RingInv s) (hp : s'.pendingCqes = s.pendingCqes)
    (hi : s'.inFlight = s.inFlight) (hc : s'.cq = s.cq) (hq : s'.sq = s.sq)
    (hd : s'.completed = s.completed) (hh : s'.handed = s.handed)
    (hf : s'.failure = none → s.failure = none) : RingInv s' := by
  obtain ⟨h1, h2, h3, h4, h5⟩ := h
  refine ⟨by rw [hp, hi, hc, h1], by rwa [hq], by rwa [hi], by rwa [hc, hd], ?_⟩
  intro hnone
  rw [hi, hc, hd, hh]
  exact h5 (hf hnone)

theorem failure_none_of_recordFailure {s : State} {f : Failure}
    (h : (s.recordFailure f).failure = none) : s.failure = none := by
  cases hf : s.failure <;> simp_all [State.recordFailure]

theorem recordFailure_ne_none (s : State) (f : Failure) : (s.recordFailure f).failure ≠ none := by
  cases hf : s.failure <;> simp [State.recordFailure, hf]

theorem Outstanding.mono {inFlight inFlight' : List Sqe} {cq cq' : List Cqe} {r : Region}
    (hi : ∀ q ∈ inFlight, q ∈ inFlight') (hc : ∀ c ∈ cq, c ∈ cq')
    (h : Outstanding inFlight cq r) : Outstanding inFlight' cq' r := by
  rcases h with ⟨q, hq, hr⟩ | ⟨c, hmem, hr⟩
  · exact .inl ⟨q, hi q hq, hr⟩
  · exact .inr ⟨c, hc c hmem, hr⟩

/-- Everything queued is handed over together with one tagged request of its own. -/
theorem tagged_handOver {s : State} (h : RingInv s) (p : PendingWrite) :
    ∀ q ∈ s.inFlight ++ (s.sq ++ [p.prepare]), ∀ u, q.data = some u →
      u.offset = q.offset ∧ u.bytes = q.bytes := by
  intro q hq u hu
  simp only [List.mem_append, List.mem_singleton] at hq
  rcases hq with hq | hq | rfl
  · exact h.tagged q hq u hu
  · rw [h.detached q hq] at hu
    cases hu
  · cases hu
    exact ⟨rfl, rfl⟩

theorem detached_leaveQueued {s : State} (h : RingInv s) (p : PendingWrite) :
    ∀ q ∈ s.sq ++ [p.prepare.detach], q.data = none := by
  intro q hq
  rcases List.mem_append.mp hq with hq | hq
  · exact h.detached q hq
  · rw [List.mem_singleton.mp hq]
    rfl

theorem carries_prepare (p : PendingWrite) : Carries ⟨p.offset, p.bytes⟩ p.prepare.data :=
  ⟨p, rfl, rfl⟩

theorem ringInv_submitOwn {s : State} (h : RingInv s) (submit : Submit) (t : ThreadId) (e : Entry) :
    RingInv (submitOwn submit t e s) := by
  cases submit with
  | accepted =>
    refine ⟨?_, by simp [submitOwn], tagged_handOver h _, h.results, ?_⟩
    · have hcount := h.count
      simp only [submitOwn, List.length_append, List.length_singleton]
      omega
    · intro hnone r hr
      rcases List.mem_cons.mp hr with rfl | hr
      · right
        left
        exact ⟨_, List.mem_append_right _ (List.mem_append_right _ (List.mem_singleton_self _)),
          carries_prepare ⟨s.nextBuf, e.alignedSize, s.writeOffset, 1⟩⟩
      · rcases h.accounted hnone r hr with hdone | hout
        · exact .inl hdone
        · exact .inr (hout.mono (fun q hq => List.mem_append_left _ hq) (fun c hc => hc))
  | refused errno => exact ⟨h.count, detached_leaveQueued h _, h.tagged, h.results, h.accounted⟩

theorem ringInv_startAppend {s : State} (h : RingInv s) (submit : Submit) (t : ThreadId) (e : Entry) :
    RingInv (startAppend submit t e s) := by
  unfold startAppend
  split_ifs
  · exact ringInv_submitOwn h submit t e
  · obtain ⟨hcount, hdet, htag, hres, hacc⟩ := h
    cases submit with
    | refused errno => exact ⟨hcount, hdet, htag, hres, hacc⟩
    | accepted =>
      refine ⟨?_, by simp, ?_, hres, ?_⟩
      · simp only [List.length_append]
        omega
      · intro q hq p hp
        rcases List.mem_append.mp hq with hq | hq
        · exact htag q hq p hp
        · rw [hdet q hq] at hp
          cases hp
      · intro hnone r hr
        rcases hacc hnone r hr with hdone | hout
        · exact .inl hdone
        · exact .inr (hout.mono (by simp +contextual) (fun c hc => hc))

/-- Dropping a completion that was counted, when a failure has been recorded, when it
belonged to no record, or when the write it reports was full. -/
theorem ringInv_drop {s : State} {c : Cqe} {cq : List Cqe} (h : RingInv s) (hcq : s.cq = c :: cq)
    {s' : State} (hp : s'.pendingCqes = s.pendingCqes - 1) (hi : s'.inFlight = s.inFlight)
    (hc : s'.cq = cq) (hq : ∀ q ∈ s'.sq, q.data = none) (hd : s'.completed = s.completed)
    (hh : s'.handed = s.handed) (hf : s'.failure = none → s.failure = none)
    (hdone : s'.failure = none → ∀ p, c.data = some p → (⟨p.offset, p.bytes⟩ : Region) ∈ s.completed) :
    RingInv s' := by
  obtain ⟨hcount, -, htag, hres, hacc⟩ := h
  refine ⟨?_, hq, by rwa [hi], ?_, ?_⟩
  · rw [hp, hi, hc, hcount, hcq, List.length_cons]
    omega
  · rw [hc, hd]
    intro d hd'
    exact hres d (by simp [hcq, hd'])
  · intro hnone r hr
    rw [hh] at hr
    rw [hi, hc, hd]
    rcases hacc (hf hnone) r hr with hr | ⟨q, hq, hqr⟩ | ⟨d, hmem, p, hp, hpr⟩
    · exact .inl hr
    · exact .inr (.inl ⟨q, hq, hqr⟩)
    · rw [hcq] at hmem
      rcases List.mem_cons.mp hmem with rfl | hmem
      · exact .inl (hpr ▸ hdone hnone p hp)
      · exact .inr (.inr ⟨d, hmem, p, hp, hpr⟩)

/-- The one request in flight before a clean resubmission is the one in flight after it. -/
theorem ringInv_resubmitted {s : State} {c : Cqe} {cq : List Cqe} (h : RingInv s)
    (hcq : s.cq = c :: cq) (hsq : s.sq = []) {p : PendingWrite} (hdata : c.data = some p) :
    RingInv { s with
      cq := cq
      inFlight := s.inFlight ++ (s.sq ++ [{ p with attempts := p.attempts + 1 }.prepare])
      sq := [] } := by
  refine ⟨?_, by simp, tagged_handOver h _, ?_, ?_⟩
  · have hcount := h.count
    rw [hcq, List.length_cons] at hcount
    simp only [hsq, List.length_append, List.length_nil, List.length_singleton]
    omega
  · intro d hd
    exact h.results d (hcq ▸ List.mem_cons_of_mem _ hd)
  · intro hnone r hr
    rcases h.accounted hnone r hr with hdone | ⟨q, hq, hqr⟩ | ⟨d, hmem, u, hu, hur⟩
    · exact .inl hdone
    · exact .inr (.inl ⟨q, List.mem_append_left _ hq, hqr⟩)
    · rw [hcq] at hmem
      rcases List.mem_cons.mp hmem with rfl | hmem
      · rw [hdata] at hu
        cases hu
        exact .inr (.inl ⟨_, List.mem_append_right _ (List.mem_append_right _
          (List.mem_singleton_self _)), hur ▸ carries_prepare { p with attempts := p.attempts + 1 }⟩)
      · exact .inr (.inr ⟨d, hmem, u, hu, hur⟩)

theorem ringInv_reapOne {s : State} {c : Cqe} {cq : List Cqe} (h : RingInv s) (hcq : s.cq = c :: cq)
    (submit : Submit) (hclean : submit = .accepted → c.retried → s.sq = []) :
    RingInv (reapOne submit c { s with cq := cq }) := by
  have hfinal : ∀ (p : PendingWrite) (f : Failure),
      RingInv ((({ s with cq := cq } : State).recordFailure f).finalWrite p) := by
    intro p f
    refine ringInv_drop h hcq rfl rfl rfl h.detached rfl rfl failure_none_of_recordFailure ?_
    intro hnone
    exact absurd hnone (recordFailure_ne_none _ f)
  cases hdata : c.data with
  | none =>
    simp only [reapOne, hdata]
    refine ringInv_drop h hcq rfl rfl rfl h.detached rfl rfl id ?_
    intro _ p hp
    rw [hdata] at hp
    cases hp
  | some p =>
    simp only [reapOne, hdata]
    split_ifs with hcancel hattempts hneg hshort
    · by_cases hfull : ringEntries ≤ s.sq.length
      · simp only [resubmit, hfull, ↓reduceIte]
        exact hfinal p _
      · simp only [resubmit, hfull, ↓reduceIte]
        cases submit with
        | accepted =>
          have hretried : c.retried := by simp [Cqe.retried, hdata, hcancel, hattempts]
          exact ringInv_resubmitted h hcq (hclean rfl hretried) hdata
        | refused errno =>
          refine ringInv_drop h hcq rfl rfl rfl (detached_leaveQueued h _) rfl rfl
            failure_none_of_recordFailure ?_
          intro hnone
          exact absurd hnone (recordFailure_ne_none _ _)
    · exact hfinal p _
    · exact hfinal p _
    · exact hfinal p _
    · refine ringInv_drop h hcq rfl rfl rfl h.detached rfl rfl id ?_
      intro _ u hu
      rw [hdata] at hu
      cases hu
      exact h.results c (hcq ▸ List.mem_cons_self) p hdata (Int.not_lt.mp hshort)

theorem ringInv_complete {s : State} (h : RingInv s) {i : ℕ} {res : ℤ} {q : Sqe}
    (hq : s.inFlight[i]? = some q) (hres : res ≤ q.bytes) : RingInv (complete i res s) := by
  obtain ⟨hcount, hdet, htag, hresults, hacc⟩ := h
  have hi : i < s.inFlight.length := (List.getElem?_eq_some_iff.mp hq).1
  have hmem : q ∈ s.inFlight := List.mem_of_getElem? hq
  have hmono : ∀ r ∈ s.completed, r ∈ (complete i res s).completed := by
    intro r hr
    simp only [complete, hq]
    split_ifs
    · exact List.mem_cons_of_mem _ hr
    · exact hr
  refine ⟨?_, by simpa [complete, hq] using hdet, ?_, ?_, ?_⟩
  · simp only [complete, hq, List.length_append, List.length_singleton]
    rw [List.length_eraseIdx_of_lt hi, hcount]
    omega
  · intro u hu
    simp only [complete, hq] at hu
    exact htag u (List.mem_of_mem_eraseIdx hu)
  · intro c hc p hp hfull
    simp only [complete, hq, List.mem_append, List.mem_singleton] at hc
    rcases hc with hc | rfl
    · exact hmono _ (hresults c hc p hp hfull)
    · obtain ⟨ho, hb⟩ := htag q hmem p hp
      dsimp only at hfull
      have heq : res = q.bytes := by omega
      simp only [complete, hq, heq, ↓reduceIte, ho, hb]
      exact List.mem_cons_self
  · intro hnone r hr
    have hnone' : s.failure = none := by simpa [complete, hq] using hnone
    have hr' : r ∈ s.handed := by simpa [complete, hq] using hr
    rcases hacc hnone' r hr' with hdone | ⟨u, hu, hur⟩ | ⟨c, hc, hcr⟩
    · exact .inl (hmono r hdone)
    · right
      by_cases hui : u ∈ s.inFlight.eraseIdx i
      · exact .inl ⟨u, by simpa [complete, hq] using hui, hur⟩
      · -- The request that left the kernel is now in the completion queue.
        have huq : u = q := by
          obtain ⟨j, hj⟩ := List.mem_iff_getElem?.mp hu
          by_cases hji : j = i
          · rw [hji, hq] at hj
            exact (Option.some.inj hj).symm
          · exact absurd (List.mem_eraseIdx_iff_getElem?.mpr ⟨j, hji, hj⟩) hui
        exact .inr ⟨⟨q.data, res⟩, by simp [complete, hq], huq ▸ hur⟩
    · exact .inr (.inr ⟨c, by simp [complete, hq, hc], hcr⟩)

theorem ringInv_afterReap {s : State} (h : RingInv s) (submit : Submit) (t : ThreadId) :
    RingInv (afterReap submit t s) := by
  unfold afterReap
  split
  · split_ifs
    · exact ringInv_submitOwn h submit t _
    · exact h.of_eq rfl rfl rfl rfl rfl rfl id
  · exact h.of_eq rfl rfl rfl rfl rfl rfl id
  · unfold finishDrain
    split_ifs
    · exact h.of_eq rfl rfl rfl rfl rfl rfl id
    · split <;> exact h.of_eq rfl rfl rfl rfl rfl rfl id
  · exact h

theorem ringInv_next {s : State} (h : RingInv s) (e : Event) (hclean : NoLeftoverCarried s e)
    (he : Enabled s e) : RingInv (next s e) := by
  cases e with
  | append t e submit => exact ringInv_startAppend h submit t e
  | reap t submit =>
    cases hcq : s.cq with
    | nil => exact absurd hcq he.2.2
    | cons c cq =>
      simp only [next, hcq]
      apply ringInv_reapOne h hcq submit
      rintro rfl hretried
      exact hclean ⟨c, by simp [hcq], hretried⟩
  | reaped t submit => exact ringInv_afterReap h submit t
  | wake t =>
    simp only [next]
    split
    · exact h.of_eq rfl rfl rfl rfl rfl rfl id
    · exact h
  | waitFailed t errno =>
    simp only [next]
    split
    · unfold finishDrain
      split <;> exact h.of_eq rfl rfl rfl rfl rfl rfl failure_none_of_recordFailure
    · exact h
  | waitDurable t ticket => exact h.of_eq rfl rfl rfl rfl rfl rfl id
  | sync t => exact h.of_eq rfl rfl rfl rfl rfl rfl id
  | check t =>
    simp only [next]
    split
    · unfold checkTicket
      split_ifs <;> exact h.of_eq rfl rfl rfl rfl rfl rfl id
    · exact h
  | lead t =>
    simp only [next]
    split
    · exact h.of_eq rfl rfl rfl rfl rfl rfl id
    · exact h
  | fdatasync t ok =>
    simp only [next]
    split
    · split_ifs <;> exact h.of_eq rfl rfl rfl rfl rfl rfl id
    · exact h
  | settle t =>
    simp only [next, settle]
    split <;> exact h.of_eq rfl rfl rfl rfl rfl rfl id
  | complete i res =>
    obtain ⟨q, hq, hres⟩ := he
    exact ringInv_complete h hq hres

/-! ### The group commit -/

/-- A step of one thread leaves what the others rely on: it takes `mu_` only when no
other thread holds it, and new records lie past the old end of the log. -/
structure Frame (s s' : State) (t : ThreadId) : Prop where
  mu : ∀ u, u ≠ t → s.mu = some u → s'.mu = some u ∧ s'.writeOffset = s.writeOffset
  offset : s.writeOffset ≤ s'.writeOffset
  kept : ∀ r ∈ s.handed, r ∈ s'.handed
  fresh : ∀ r ∈ s'.handed, r ∈ s.handed ∨ s.writeOffset < r.stop
  stable : ∀ r ∈ s.stable, r ∈ s'.stable

theorem Frame.of_eq {s s' : State} (t : ThreadId)
    (hmu : ∀ u, u ≠ t → s.mu = some u → s'.mu = some u) (hw : s'.writeOffset = s.writeOffset)
    (hh : s'.handed = s.handed) (hs : s'.stable = s.stable) : Frame s s' t :=
  ⟨fun u hu hm => ⟨hmu u hu hm, hw⟩, hw.ge, fun _ hr => hh ▸ hr, fun _ hr => .inl (hh ▸ hr),
    fun _ hr => hs ▸ hr⟩

theorem Frame.pcInv {s s' : State} {t u : ThreadId} (h : Frame s s' t) (hu : u ≠ t) {p : Pc}
    (hp : PcInv s u p) : PcInv s' u p := by
  have hold : ∀ {target : ℕ} {known : List Region}, target ≤ s.writeOffset →
      (∀ r ∈ s.handed, r.stop ≤ target → r ∈ known) → ∀ r ∈ s'.handed, r.stop ≤ target → r ∈ known := by
    intro target known hle hknown r hr hstop
    rcases h.fresh r hr with hr | hlt
    · exact hknown r hr hstop
    · omega
  cases p with
  | idle => trivial
  | retry e => exact (h.mu u hu hp).1
  | reaping r =>
    obtain ⟨hmu, hr, hstop⟩ := hp
    obtain ⟨hmu', hw⟩ := h.mu u hu hmu
    exact ⟨hmu', h.kept r hr, by rw [hw, hstop]⟩
  | waiting t => trivial
  | leading t epoch => trivial
  | draining t epoch => exact (h.mu u hu hp).1
  | parked t epoch => exact (h.mu u hu hp).1
  | syncing t epoch target before => exact ⟨hp.1.trans h.offset, hold hp.1 hp.2⟩
  | synced t epoch target =>
    exact ⟨hp.1.trans h.offset, hold hp.1 (fun r hr hstop => h.stable r (hp.2 r hr hstop))⟩
  | aborting => trivial

theorem threads_update {s s' : State} {t : ThreadId} {p : Pc} (h : ∀ u, PcInv s u (s.pc u))
    (hframe : Frame s s' t) (hpc : s'.pc = Function.update s.pc t p) (hp : PcInv s' t p) :
    ∀ u, PcInv s' u (s'.pc u) := by
  rw [hpc]
  exact (Function.forall_update_iff s.pc fun u => PcInv s' u).mpr ⟨hp, fun u hu => hframe.pcInv hu (h u)⟩

/-- Steps that move one thread and touch nothing the commit relies on but `mu_`. -/
theorem CommitInv.move {s s' : State} (h : CommitInv s) {t : ThreadId} {p : Pc}
    (hmu : ∀ u, u ≠ t → s.mu = some u → s'.mu = some u) (hw : s'.writeOffset = s.writeOffset)
    (hh : s'.handed = s.handed) (hs : s'.stable = s.stable) (hd : s'.durableEnd = s.durableEnd)
    (ht : s'.tickets = s.tickets) (ha : s'.acks = s.acks)
    (hpc : s'.pc = Function.update s.pc t p) (hp : PcInv s' t p) : CommitInv s' := by
  refine ⟨?_, ?_, ?_, ?_, ?_, threads_update h.threads (.of_eq t hmu hw hh hs) hpc hp⟩
  · rw [hh, hw]
    exact h.bounded
  · rw [ht, hh]
    exact h.ticketed
  · rw [hd, hw]
    exact h.durableEnd_le
  · rw [hh, hd, hs]
    exact h.durable
  · rw [ha, hd]
    exact h.acked

theorem commitInv_submitOwn {s : State} (h : CommitInv s) (submit : Submit) {t : ThreadId}
    (hmu : s.mu = none ∨ s.mu = some t) (e : Entry) : CommitInv (submitOwn submit t e s) := by
  have hpos := e.alignedSize_pos
  have hother : ∀ u, u ≠ t → s.mu ≠ some u := by
    intro u hu heq
    rcases hmu with hnone | hsome
    · rw [hnone] at heq
      cases heq
    · rw [hsome] at heq
      exact hu (Option.some.inj heq).symm
  cases submit with
  | accepted =>
    have hframe : Frame s (submitOwn .accepted t e s) t := by
      refine ⟨fun u hu hm => absurd hm (hother u hu), Nat.le_add_right _ _,
        fun r hr => List.mem_cons_of_mem _ hr, ?_, fun r hr => hr⟩
      intro r hr
      rcases List.mem_cons.mp hr with rfl | hr
      · right
        simp only [Region.stop]
        omega
      · exact .inl hr
    refine ⟨?_, ?_, ?_, ?_, h.acked,
      threads_update h.threads hframe rfl ⟨rfl, List.mem_cons_self, rfl⟩⟩
    · intro r hr
      rcases List.mem_cons.mp hr with rfl | hr
      · exact Nat.le_refl _
      · exact (h.bounded r hr).trans (Nat.le_add_right _ _)
    · intro x hx
      exact ⟨List.mem_cons_of_mem _ (h.ticketed x hx).1, (h.ticketed x hx).2⟩
    · exact h.durableEnd_le.trans (Nat.le_add_right _ _)
    · intro r hr hstop
      rcases hframe.fresh r hr with hr | hlt
      · exact h.durable r hr hstop
      · have := h.durableEnd_le
        simp only [submitOwn] at hstop
        omega
  | refused errno =>
    have hframe : Frame s (submitOwn (.refused errno) t e s) t :=
      ⟨fun u hu hm => absurd hm (hother u hu), Nat.le_add_right _ _, fun r hr => hr,
        fun r hr => .inl hr, fun r hr => hr⟩
    exact ⟨fun r hr => (h.bounded r hr).trans (Nat.le_add_right _ _), h.ticketed,
      h.durableEnd_le.trans (Nat.le_add_right _ _), h.durable, h.acked,
      threads_update h.threads hframe rfl trivial⟩

/-- When the counter is zero and nothing has failed, every record handed over has completed. -/
theorem handed_completed {s : State} (h : RingInv s) (hfail : s.failure = none)
    (hpending : s.pendingCqes = 0) : ∀ r ∈ s.handed, r ∈ s.completed := by
  have hcount := h.count
  have hinFlight : s.inFlight = [] := List.length_eq_zero_iff.mp (by omega)
  have hcq : s.cq = [] := List.length_eq_zero_iff.mp (by omega)
  intro r hr
  rcases h.accounted hfail r hr with hdone | ⟨q, hq, -⟩ | ⟨c, hc, -⟩
  · exact hdone
  · rw [hinFlight] at hq
    cases hq
  · rw [hcq] at hc
    cases hc

theorem commitInv_finishDrain {s : State} (h : CommitInv s) {t : ThreadId} (hmu : s.mu = some t)
    (ticket : Ticket) (epoch : ℕ)
    (hdone : s.failure = none → ∀ r ∈ s.handed, r ∈ s.completed) :
    CommitInv (finishDrain t ticket epoch s) := by
  have hother : ∀ u, u ≠ t → s.mu = some u → (none : Option ThreadId) = some u := by
    intro u hu heq
    rw [hmu] at heq
    exact absurd (Option.some.inj heq).symm hu
  unfold finishDrain
  cases hfail : s.failure with
  | some f => exact h.move hother rfl rfl rfl rfl rfl rfl rfl trivial
  | none =>
    exact h.move hother rfl rfl rfl rfl rfl rfl rfl
      ⟨Nat.le_refl _, fun r hr _ => hdone hfail r hr⟩

/-- Steps of the ring leave the log, the threads and the commit alone. -/
structure SameLog (s s' : State) : Prop where
  mu : s'.mu = s.mu
  pc : s'.pc = s.pc
  writeOffset : s'.writeOffset = s.writeOffset
  durableEnd : s'.durableEnd = s.durableEnd
  handed : s'.handed = s.handed
  stable : s'.stable = s.stable
  tickets : s'.tickets = s.tickets
  acks : s'.acks = s.acks

theorem sameLog_reapOne (submit : Submit) (c : Cqe) (s : State) :
    SameLog s (reapOne submit c s) := by
  unfold reapOne resubmit
  split
  · exact ⟨rfl, rfl, rfl, rfl, rfl, rfl, rfl, rfl⟩
  · split_ifs
    · exact ⟨rfl, rfl, rfl, rfl, rfl, rfl, rfl, rfl⟩
    · cases submit <;> exact ⟨rfl, rfl, rfl, rfl, rfl, rfl, rfl, rfl⟩
    all_goals exact ⟨rfl, rfl, rfl, rfl, rfl, rfl, rfl, rfl⟩

theorem CommitInv.of_sameLog {s s' : State} (h : CommitInv s) (e : SameLog s s') : CommitInv s' := by
  refine ⟨?_, ?_, ?_, ?_, ?_, ?_⟩
  · rw [e.handed, e.writeOffset]
    exact h.bounded
  · rw [e.tickets, e.handed]
    exact h.ticketed
  · rw [e.durableEnd, e.writeOffset]
    exact h.durableEnd_le
  · rw [e.handed, e.durableEnd, e.stable]
    exact h.durable
  · rw [e.acks, e.durableEnd]
    exact h.acked
  · intro t
    have ht := h.threads t
    rw [e.pc]
    cases hp : s.pc t <;> simp_all [PcInv, e.mu, e.handed, e.writeOffset, e.stable]

theorem commitInv_startAppend {s : State} (h : CommitInv s) (submit : Submit) {t : ThreadId}
    (hmu : s.mu = none) (e : Entry) : CommitInv (startAppend submit t e s) := by
  unfold startAppend
  split_ifs
  · exact commitInv_submitOwn h submit (.inl hmu) e
  · cases submit with
    | refused errno => exact h
    | accepted =>
      have hother : ∀ u, u ≠ t → s.mu = some u → some t = some u := by
        intro u _ heq
        rw [hmu] at heq
        cases heq
      exact h.move hother rfl rfl rfl rfl rfl rfl rfl rfl

theorem commitInv_afterReap {s : State} (hring : RingInv s) (h : CommitInv s) (submit : Submit)
    {t : ThreadId} (hmu : s.mu = some t) : CommitInv (afterReap submit t s) := by
  have hother : ∀ u, u ≠ t → s.mu = some u → (none : Option ThreadId) = some u := by
    intro u hu heq
    rw [hmu] at heq
    exact absurd (Option.some.inj heq).symm hu
  have hpc := h.threads t
  unfold afterReap
  split
  · split_ifs
    · exact commitInv_submitOwn h submit (.inr hmu) _
    · exact h.move hother rfl rfl rfl rfl rfl rfl rfl trivial
  next r heq =>
    -- The ticket names the end of the record, since nothing was appended meanwhile.
    rw [heq] at hpc
    obtain ⟨-, hr, hstop⟩ := hpc
    refine ⟨h.bounded, ?_, h.durableEnd_le, h.durable, h.acked,
      threads_update h.threads (.of_eq t hother rfl rfl rfl) rfl trivial⟩
    intro x hx
    rcases List.mem_cons.mp hx with rfl | hx
    · exact ⟨hr, hstop.symm⟩
    · exact h.ticketed x hx
  next ticket epoch heq =>
    split_ifs with hpending
    · exact h.move (fun u _ hm => hm) rfl rfl rfl rfl rfl rfl rfl hmu
    · apply commitInv_finishDrain h hmu
      intro hfail
      exact handed_completed hring hfail (by omega)
  · exact h

theorem commitInv_checkTicket {s : State} (h : CommitInv s) (t : ThreadId) (ticket : Ticket) :
    CommitInv (checkTicket t ticket s) := by
  unfold checkTicket
  split_ifs with hepoch hstop hbusy
  · exact h.move (fun u _ hm => hm) rfl rfl rfl rfl rfl rfl rfl trivial
  · refine ⟨h.bounded, h.ticketed, h.durableEnd_le, h.durable, ?_,
      threads_update h.threads (.of_eq t (fun u _ hm => hm) rfl rfl rfl) rfl trivial⟩
    intro a ha
    rcases List.mem_cons.mp ha with rfl | ha
    · exact hstop
    · exact h.acked a ha
  · exact h
  · exact h.move (fun u _ hm => hm) rfl rfl rfl rfl rfl rfl rfl trivial

theorem commitInv_settle {s : State} (h : CommitInv s) (t : ThreadId) : CommitInv (settle t s) := by
  have hpc := h.threads t
  unfold settle
  split
  next ticket epoch target heq =>
    rw [heq] at hpc
    have hbound : (if s.epoch = epoch then max s.durableEnd target else s.durableEnd) ≤
        max s.durableEnd target := by
      split_ifs
      · exact Nat.le_refl _
      · exact Nat.le_max_left _ _
    refine ⟨h.bounded, h.ticketed, ?_, ?_, ?_,
      threads_update h.threads (.of_eq t (fun u _ hm => hm) rfl rfl rfl) rfl trivial⟩
    · exact hbound.trans (Nat.max_le.mpr ⟨h.durableEnd_le, hpc.1⟩)
    · intro r hr hstop
      rcases le_max_iff.mp (hstop.trans hbound) with hle | hle
      · exact h.durable r hr hle
      · exact hpc.2 r hr hle
    · intro a ha
      have := h.acked a ha
      dsimp only
      split_ifs <;> omega
  · exact h.move (fun u _ hm => hm) rfl rfl rfl rfl rfl rfl rfl trivial
  · exact h

theorem commitInv_next {s : State} (hring : RingInv s) (h : CommitInv s) (e : Event)
    (he : Enabled s e) : CommitInv (next s e) := by
  cases e with
  | append t e submit => exact commitInv_startAppend h submit he.2.1 e
  | reap t submit =>
    simp only [next]
    split
    · exact h
    next c cq hcq =>
      have hdrop : CommitInv { s with cq := cq } :=
        h.of_sameLog ⟨rfl, rfl, rfl, rfl, rfl, rfl, rfl, rfl⟩
      exact hdrop.of_sameLog (sameLog_reapOne submit c _)
  | reaped t submit => exact commitInv_afterReap hring h submit he.1
  | wake t =>
    simp only [next]
    split
    · exact h.move (fun u _ hm => hm) rfl rfl rfl rfl rfl rfl rfl he.1
    · exact h
  | waitFailed t errno =>
    simp only [next]
    split
    · have hrec : CommitInv (s.recordFailure (.drainFailed errno)) :=
        h.of_sameLog ⟨rfl, rfl, rfl, rfl, rfl, rfl, rfl, rfl⟩
      apply commitInv_finishDrain hrec he
      intro hnone
      exact absurd hnone (recordFailure_ne_none _ _)
    · exact h
  | waitDurable t ticket => exact h.move (fun u _ hm => hm) rfl rfl rfl rfl rfl rfl rfl trivial
  | sync t => exact h.move (fun u _ hm => hm) rfl rfl rfl rfl rfl rfl rfl trivial
  | check t =>
    simp only [next]
    split
    · exact commitInv_checkTicket h t _
    · exact h
  | lead t =>
    simp only [next]
    split
    · have hother : ∀ u, u ≠ t → s.mu = some u → some t = some u := by
        intro u _ heq
        have hnone : s.mu = none := he
        rw [hnone] at heq
        cases heq
      exact h.move hother rfl rfl rfl rfl rfl rfl rfl rfl
    · exact h
  | fdatasync t ok =>
    have hpc := h.threads t
    simp only [next]
    split
    next ticket epoch target before heq =>
      rw [heq] at hpc
      split_ifs
      · have hframe : Frame s { s with
            stable := before ++ s.stable
            pc := Function.update s.pc t (.synced ticket epoch target) } t :=
          ⟨fun u _ hm => ⟨hm, rfl⟩, Nat.le_refl _, fun _ hr => hr, fun _ hr => .inl hr,
            fun _ hr => List.mem_append_right _ hr⟩
        exact ⟨h.bounded, h.ticketed, h.durableEnd_le,
          fun r hr hstop => List.mem_append_right _ (h.durable r hr hstop), h.acked,
          threads_update h.threads hframe rfl
            ⟨hpc.1, fun r hr hstop => List.mem_append_left _ (hpc.2 r hr hstop)⟩⟩
      · exact h.move (fun u _ hm => hm) rfl rfl rfl rfl rfl rfl rfl trivial
    · exact h
  | settle t => exact commitInv_settle h t
  | complete i res =>
    simp only [next, complete]
    split
    · exact h
    · exact h.of_sameLog ⟨rfl, rfl, rfl, rfl, rfl, rfl, rfl, rfl⟩

/-! ### Whole runs -/

/-- Every record covered by an acknowledged ticket of the current epoch completed in full
before the start of an `fdatasync` that succeeded. -/
def AcknowledgedStable (s : State) : Prop :=
  ∀ t ∈ s.acks, ∀ x ∈ s.tickets, x.2.epoch = t.epoch → x.2.stop ≤ t.stop → x.1 ∈ s.stable

theorem acknowledgedStable_of_inv {s : State} (h : CommitInv s) : AcknowledgedStable s := by
  intro t ht x hx _ hstop
  obtain ⟨hhanded, hend⟩ := h.ticketed x hx
  apply h.durable x.1 hhanded
  rw [← hend]
  exact hstop.trans (h.acked t ht)

/-- In every run in which no resubmission of a cancelled write carries leftover requests
to the kernel, nothing is acknowledged before it is stable. -/
theorem run_acknowledgedStable {size : ℕ} {events : List Event} {s : State}
    (h : Run system NoLeftoverCarried (initial size) events s) : AcknowledgedStable s := by
  have hinv : RingInv s ∧ CommitInv s := by
    refine Run.invariant (fun s => RingInv s ∧ CommitInv s) ?_ h
      ⟨ringInv_initial size, commitInv_initial size⟩
    rintro s e ⟨hring, hcommit⟩ hclean he
    exact ⟨ringInv_next hring e hclean he, commitInv_next hring hcommit e he⟩
  exact acknowledgedStable_of_inv hinv.2

/-- Thread 0 appends; the submit of thread 1's append fails and leaves its request
queued; the first write is cancelled and its resubmission carries the leftover along. The
leftover's completion is then taken for that of the first record. -/
def leftoverRun : List Event :=
  [.append 0 ⟨.put, [1], [2]⟩ .accepted, .reaped 0 .accepted,
    .append 1 ⟨.put, [3], [4]⟩ (.refused 11), .waitDurable 0 ⟨0, 512⟩, .check 0, .lead 0,
    .complete 0 canceled, .reap 0 .accepted, .complete 0 512, .reap 0 .accepted,
    .reaped 0 .accepted, .fdatasync 0 true, .settle 0, .check 0]

theorem leftoverRun_not_stable :
    Run system (fun _ _ => True) (initial 0) leftoverRun (leftoverRun.foldl next (initial 0)) ∧
      ¬ AcknowledgedStable (leftoverRun.foldl next (initial 0)) := by
  refine ⟨Allowed.run (M := system) (by decide), ?_⟩
  intro h
  exact absurd (h ⟨0, 512⟩ (by decide) (⟨0, 512⟩, ⟨0, 512⟩) (by decide) rfl (by decide)) (by decide)

/-- Two records, one of them cancelled once, covered by one `fdatasync`. -/
def groupRun : List Event :=
  [.append 0 ⟨.put, [1], [2]⟩ .accepted, .reaped 0 .accepted,
    .append 1 ⟨.del, [1], []⟩ .accepted, .reaped 1 .accepted, .complete 1 512, .complete 0 canceled,
    .waitDurable 0 ⟨0, 512⟩, .waitDurable 1 ⟨0, 1024⟩, .check 0, .lead 0, .reap 0 .accepted,
    .reap 0 .accepted, .reaped 0 .accepted, .complete 0 512, .wake 0, .reap 0 .accepted,
    .reaped 0 .accepted, .check 1, .fdatasync 0 true, .settle 0, .check 0, .check 1]

theorem groupRun_acknowledgedStable :
    (groupRun.foldl next (initial 0)).acks = [⟨0, 1024⟩, ⟨0, 512⟩] ∧
      AcknowledgedStable (groupRun.foldl next (initial 0)) :=
  ⟨by decide, run_acknowledgedStable (Allowed.run (M := system) (by decide))⟩

end LsmTree.WalRing
