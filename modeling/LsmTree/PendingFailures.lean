import LsmTree.PendingOwnership

/-!
# Failures of pending writes

While no failure is recorded, every request of a record whose append has returned points to
its `PendingWrite`, and such a record has a request as long as its last completion was not a
full one. So a final completion that is not full is noticed by `reap`, which records it.
The failure then stays until `clear` succeeds, and every append that begins meanwhile is
refused.
-/

namespace LsmTree.PendingWrites
open Wal WalRing Transition

/-! ### Records that are followed -/

/-- The append of the write has returned, or is about to. -/
def Tracked (s : State) (ptr : ℕ) : Prop := ptr ∈ s.returned ∨ s.phase = .reaping ptr

/-- The requests of a write point to it, and if its last completion was not a full one there still is
a request. -/
structure Followed (s : State) (ptr : ℕ) : Prop where
  made : ∃ p, s.heap ptr = some p
  tagged : ∀ q ∈ s.requests, q.addr = ptr → q.data = some ptr
  settled : ∀ p r, s.heap ptr = some p → s.result ptr = some r → r = p.bytes ∨ ∃ q ∈ s.requests, q.addr = ptr

/-- Without a recorded failure every write whose append has returned is followed. -/
def Latch (s : State) : Prop := s.failure = none → ∀ ptr, Tracked s ptr → Followed s ptr

section Latch
variable {s t : State} {ptr : ℕ}

/-- Nothing happens to the requests of the write. -/
theorem Followed.of_eq (h : Followed s ptr) (hheap : t.heap ptr = s.heap ptr) (hresult : t.result ptr = s.result ptr)
    (hrequests : ∀ q, q.addr = ptr → (q ∈ t.requests ↔ q ∈ s.requests)) : Followed t ptr := by
  constructor
  · rw [hheap]
    exact h.made
  · intro q hq haddr
    exact h.tagged q ((hrequests q haddr).mp hq) haddr
  · intro p r hp hr
    rw [hheap] at hp
    rw [hresult] at hr
    rcases h.settled p r hp hr with hfull | ⟨q, hq, haddr⟩
    · exact .inl hfull
    · exact .inr ⟨q, (hrequests q haddr).mpr hq, haddr⟩

/-- A step that moves requests at most. -/
theorem Latch.of_eq (h : Latch s) (hfailure : t.failure = none → s.failure = none) (hheap : t.heap = s.heap)
    (hresult : t.result = s.result) (hrequests : ∀ q, q ∈ t.requests ↔ q ∈ s.requests)
    (htracked : ∀ ptr, Tracked t ptr → Tracked s ptr) : Latch t := by
  intro hnone ptr hptr
  exact (h (hfailure hnone) ptr (htracked ptr hptr)).of_eq (by rw [hheap]) (by rw [hresult])
    fun q _ => hrequests q

theorem tracked_setPhase {phase : Phase} (hphase : ∀ ptr, phase ≠ .reaping ptr) (ptr : ℕ)
    (h : Tracked (s.setPhase phase) ptr) : Tracked s ptr := by
  rcases h with hreturned | hreaping
  · exact .inl hreturned
  · exact absurd hreaping (hphase ptr)

theorem Latch.setPhase (h : Latch s) {phase : Phase} (hphase : ∀ ptr, phase ≠ .reaping ptr) :
    Latch (s.setPhase phase) :=
  h.of_eq id rfl rfl (fun _ => Iff.rfl) (tracked_setPhase hphase)

theorem mem_requests_prepare {p : PendingWrite} {q : Sqe} :
    q ∈ (s.prepare ptr p).requests ↔ q ∈ s.requests ∨ q = ⟨p.buf, p.bytes % 2 ^ 32, p.offset, some ptr⟩ := by
  simp only [State.requests, State.prepare, List.mem_append, List.mem_singleton]
  tauto

theorem mem_requests_pop {c : Cqe} {cq : List Cqe} (hcq : s.cq = c :: cq) {q : Sqe} (hne : q.addr ≠ c.sqe.addr) :
    q ∈ State.requests { s with cq := cq } ↔ q ∈ s.requests := by
  have hq : q ≠ c.sqe := by
    rintro rfl
    exact hne rfl
  simp only [State.requests, hcq, List.map_cons, List.mem_append, List.mem_cons, hq, false_or]

/-- Another write is given a request. -/
theorem Followed.prepare {buf : ℕ} {p : PendingWrite} (h : Followed s ptr) (hbuf : p.buf = buf) (hne : ptr ≠ buf)
    (submit : Submit) : Followed ((s.prepare buf p).submit submit) ptr := by
  refine h.of_eq ?_ rfl ?_
  · simp only [State.submit, State.prepare, Function.update_of_ne hne]
  · intro q haddr
    rw [mem_requests_submit, mem_requests_prepare]
    constructor
    · rintro (hq | rfl)
      · exact hq
      · exact absurd (haddr.symm.trans hbuf) hne
    · exact .inl

theorem Followed.detach {buf : ℕ} (h : Followed s ptr) (hne : ptr ≠ buf) : Followed (s.detach buf) ptr := by
  refine h.of_eq rfl rfl ?_
  intro q haddr
  constructor
  · intro hq
    obtain ⟨q', hq', -, -, -, -, hsame⟩ := mem_requests_detach hq
    rw [hsame (haddr ▸ hne)]
    exact hq'
  · intro hq
    have hkeep : (if q.addr = buf then { q with data := none } else q) = q := if_neg (haddr ▸ hne)
    simp only [State.requests, State.detach, List.mem_append, List.mem_map] at hq ⊢
    rcases hq with ((hq | hq) | hq) | hq
    · exact .inl (.inl (.inl ⟨q, hq, hkeep⟩))
    · exact .inl (.inl (.inr hq))
    · exact .inl (.inr hq)
    · exact .inr hq

/-- A completion of another write. -/
theorem Followed.pop (h : Followed s ptr) {c : Cqe} {cq : List Cqe} (hcq : s.cq = c :: cq)
    (hne : ptr ≠ c.sqe.addr) (res : ℤ) : Followed (State.note { s with cq := cq } c.sqe.addr res) ptr := by
  refine h.of_eq rfl (by simp only [State.note, Function.update_of_ne hne]) ?_
  rintro q rfl
  exact mem_requests_pop hcq hne

end Latch

/-! ### A log that is closed -/

section Closed
variable {s t : State}

/-- A call of `writeEntry` is under way. -/
def Phase.inAppend : Phase → Bool
  | .room _ _ | .reaping _ => true
  | _ => false

/-- The failure stays, and the call of `writeEntry` that is under way, if there is one, is the last
one to return. -/
structure Closed (s t : State) : Prop where
  failure : t.failure ≠ none
  returned : (t.returned = s.returned ∧ (t.phase.inAppend = true → s.phase.inAppend = true)) ∨
    s.phase.inAppend = true ∧ t.phase.inAppend = false ∧ ∃ ptr, t.returned = ptr :: s.returned

theorem Closed.refl (h : s.failure ≠ none) : Closed s s := ⟨h, .inl ⟨rfl, id⟩⟩

/-- Steps outside of `writeEntry`. -/
theorem Closed.of_eq (hfailure : t.failure ≠ none) (hreturned : t.returned = s.returned)
    (hphase : t.phase.inAppend = true → s.phase.inAppend = true) : Closed s t :=
  ⟨hfailure, .inl ⟨hreturned, hphase⟩⟩

theorem Closed.trans {u : State} (h : Closed s t) (h' : Closed t u) : Closed s u := by
  refine ⟨h'.failure, ?_⟩
  rcases h.returned with ⟨hsame, hphase⟩ | ⟨hin, hout, ptr, hlast⟩
  · rcases h'.returned with ⟨hsame', hphase'⟩ | ⟨hin', hout', ptr, hlast⟩
    · exact .inl ⟨hsame'.trans hsame, fun hu => hphase (hphase' hu)⟩
    · exact .inr ⟨hphase hin', hout', ptr, hsame ▸ hlast⟩
  · rcases h'.returned with ⟨hsame', hphase'⟩ | ⟨hin', -, -⟩
    · refine .inr ⟨hin, ?_, ptr, hsame'.trans hlast⟩
      cases hu : u.phase.inAppend with
      | false => rfl
      | true => exact absurd (hphase' hu) (by simp [hout])
    · rw [hout] at hin'
      cases hin'

end Closed

/-! ### The contract of a pending write -/

/-- Ownership of buffers and `PendingWrite`s, and the bound on submissions. -/
structure Owned (s : State) : Prop where
  bounded : ∀ ptr p, s.heap ptr = some p → about p.buf (s.handed ++ s.sq) ≤ maxWriteAttempts
  same : ∀ q ∈ s.handed ++ s.sq,
    ∃ p, s.heap q.addr = some p ∧ p.buf = q.addr ∧ q.len = p.bytes % 2 ^ 32 ∧ q.offset = p.offset
  freed_once : s.freed.Nodup
  freed_unused : ∀ q ∈ s.sq ++ s.inFlight ++ s.lost, q.addr ∉ s.freed
  deleted_once : s.deleted.Nodup
  deleted_unused : ∀ q ∈ s.requests, ∀ ptr, q.data = some ptr → ptr ∉ s.deleted

theorem Books.owned {s : State} (h : Books s) : Owned s := by
  have hrequests : ∀ q ∈ s.requests, q.addr ∉ s.freed := by
    intro q hq hfreed
    have hone := h.places.once q.addr
    have habout : about q.addr s.requests ≠ 0 := fun hzero => addr_ne_of_about hzero hq rfl
    have hcount := List.count_pos_iff.mpr hfreed
    rw [State.held] at hone
    omega
  constructor
  · intro ptr p hp
    obtain ⟨hbuf, -, hattempts⟩ := h.named ptr p hp
    rw [about_append, hbuf]
    exact (h.prepared ptr p hp).trans hattempts
  · intro q hq
    have hmem : q ∈ s.handed ++ s.requests := by
      simp only [State.requests, List.mem_append] at hq ⊢
      tauto
    obtain ⟨p, hp, hof⟩ := h.request q hmem
    exact ⟨p, hp, (h.named _ p hp).1, hof.len, hof.offset⟩
  · rw [List.nodup_iff_count_le_one]
    intro buf
    have hone := h.places.once buf
    rw [State.held] at hone
    omega
  · intro q hq
    apply hrequests q
    simp only [State.requests, List.mem_append] at hq ⊢
    tauto
  · exact h.deleted.1
  · intro q hq ptr hdata hdeleted
    obtain ⟨p, -, hof⟩ := h.request q (List.mem_append_right _ hq)
    rw [hof.data ptr hdata] at hdeleted
    exact hrequests q hq (h.deleted.2 _ hdeleted)

def firstEntry : Entry := ⟨.put, [1], [2]⟩

end LsmTree.PendingWrites
