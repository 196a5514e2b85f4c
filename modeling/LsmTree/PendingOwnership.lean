import LsmTree.PendingWrites
import Mathlib.Data.List.Nodup
import Mathlib.Data.List.Perm.Basic

/-!
# Who owns a buffer

A buffer is in one place at a time: allocated and not yet queued, on one request, or freed.
Every step moves buffers between these places or drops them, and only an allocation adds
one. So a buffer that is freed is on no request, and none is freed twice. Along with this the
books say that every request is that of a `PendingWrite`, with its address, length and
offset, and that no write has been prepared more often than it has attempts.
-/

namespace LsmTree.PendingWrites
open Wal WalRing
open WalLifecycle (ClearOutcome)

/-! ### Things that are in one place -/

/-- Things with numbers below a limit, each of which is in one place at most. -/
structure OnePlace (places : ℕ → ℕ) (limit : ℕ) : Prop where
  once : ∀ x, places x ≤ 1
  fresh : ∀ x, limit ≤ x → places x = 0

section OnePlace
variable {places places' : ℕ → ℕ} {limit : ℕ}

/-- Things are moved or dropped. -/
theorem OnePlace.of_le (h : OnePlace places limit) (hle : ∀ x, places' x ≤ places x) : OnePlace places' limit where
  once x := (hle x).trans (h.once x)
  fresh x hx := Nat.le_zero.mp ((hle x).trans (h.fresh x hx).le)

/-- A thing that is nowhere is put somewhere. -/
theorem OnePlace.put (h : OnePlace places limit) {x : ℕ} (hx : places x = 0) (hlt : x < limit)
    (hput : ∀ y, places' y = places y + if x = y then 1 else 0) : OnePlace places' limit := by
  constructor
  · intro y
    rw [hput]
    split_ifs with hy
    · rw [← hy, hx]
    · exact h.once y
  · intro y hy
    rw [hput, h.fresh y hy, if_neg (by rintro rfl; exact absurd hlt (Nat.not_lt.mpr hy))]

/-- There is a new thing, which is nowhere yet. -/
theorem OnePlace.succ (h : OnePlace places limit) : OnePlace places (limit + 1) where
  once := h.once
  fresh x hx := h.fresh x (Nat.le_of_succ_le hx)

end OnePlace

/-! ### Buffers and requests -/

/-- The number of requests for a buffer. -/
def about (buf : ℕ) (qs : List Sqe) : ℕ := (qs.map Sqe.addr).count buf

section About
variable {buf : ℕ} {xs ys : List Sqe}

@[simp] theorem about_nil : about buf [] = 0 := rfl

@[simp] theorem about_append : about buf (xs ++ ys) = about buf xs + about buf ys := by
  simp [about]

theorem about_cons (q : Sqe) : about buf (q :: xs) = about buf xs + if q.addr = buf then 1 else 0 := by
  simp [about, List.count_cons]

theorem about_take_drop (buf n : ℕ) (xs : List Sqe) :
    about buf (xs.take n) + about buf (xs.drop n) = about buf xs := by
  rw [← about_append, List.take_append_drop]

theorem cons_eraseIdx_perm {i : ℕ} {q : Sqe} (h : xs[i]? = some q) : (q :: xs.eraseIdx i).Perm xs := by
  obtain ⟨hlt, hget⟩ := List.getElem?_eq_some_iff.mp h
  rw [← hget]
  exact List.getElem_cons_eraseIdx_perm hlt

theorem about_eraseIdx (buf : ℕ) {i : ℕ} {q : Sqe} (h : xs[i]? = some q) :
    about buf (xs.eraseIdx i) + (if q.addr = buf then 1 else 0) = about buf xs := by
  rw [← about_cons]
  exact ((cons_eraseIdx_perm h).map Sqe.addr).count_eq buf

theorem about_eq_zero (h : ∀ q ∈ xs, q.addr ≠ buf) : about buf xs = 0 := by
  rw [about, List.count_eq_zero]
  intro hmem
  obtain ⟨q, hq, haddr⟩ := List.mem_map.mp hmem
  exact h q hq haddr

theorem addr_ne_of_about {q : Sqe} (h : about buf xs = 0) (hq : q ∈ xs) : q.addr ≠ buf := by
  rintro rfl
  rw [about, List.count_eq_zero] at h
  exact h (List.mem_map_of_mem hq)

end About

/-- All requests that have not been looked after: queued, in flight, completed, or lost with a ring. -/
def State.requests (s : State) : List Sqe := s.sq ++ s.inFlight ++ s.cq.map Cqe.sqe ++ s.lost

/-- The buffer that is allocated and not yet queued. -/
def Phase.buffer : Phase → Option ℕ
  | .room _ buf => some buf
  | _ => none

def Phase.held (phase : Phase) (buf : ℕ) : ℕ := if phase.buffer = some buf then 1 else 0

/-- The number of places a buffer is in. -/
def State.held (s : State) (buf : ℕ) : ℕ := about buf s.requests + s.freed.count buf + s.phase.held buf

/-- What was asked of the kernel for a write is what the write says, and the request points to it or
to nothing. -/
structure Sqe.Of (q : Sqe) (p : PendingWrite) : Prop where
  len : q.len = p.bytes % 2 ^ 32
  offset : q.offset = p.offset
  data : ∀ ptr, q.data = some ptr → ptr = q.addr

/-- The books: every request is that of a write that was made, no buffer is in two places, and no
write has been prepared more often than it has attempts. -/
structure Books (s : State) : Prop where
  named : ∀ ptr p, s.heap ptr = some p → p.buf = ptr ∧ ptr < s.nextBuf ∧ p.attempts ≤ maxWriteAttempts
  request : ∀ q ∈ s.handed ++ s.requests, ∃ p, s.heap q.addr = some p ∧ q.Of p
  prepared : ∀ ptr p, s.heap ptr = some p → about ptr s.handed + about ptr s.sq ≤ p.attempts
  places : OnePlace s.held s.nextBuf
  room : ∀ e buf, s.phase = .room e buf → s.heap buf = none ∧ buf < s.nextBuf
  results : ∀ c ∈ s.cq, c.res ≤ c.sqe.len
  deleted : s.deleted.Nodup ∧ ∀ ptr ∈ s.deleted, ptr ∈ s.freed

section Books
variable {s : State}

/-- Steps that touch none of it. -/
theorem Books.of_eq (h : Books s) {t : State} (hheap : t.heap = s.heap) (hdeleted : t.deleted = s.deleted)
    (hnext : t.nextBuf = s.nextBuf) (hfreed : t.freed = s.freed) (hsq : t.sq = s.sq)
    (hflight : t.inFlight = s.inFlight) (hcq : t.cq = s.cq) (hlost : t.lost = s.lost)
    (hhanded : t.handed = s.handed) (hphase : t.phase = s.phase ∨ t.phase.buffer = none) : Books t := by
  have hrequests : t.requests = s.requests := by simp only [State.requests, hsq, hflight, hcq, hlost]
  have hheld : ∀ buf, t.held buf ≤ s.held buf := by
    intro buf
    simp only [State.held, hrequests, hfreed]
    rcases hphase with hphase | hphase
    · rw [hphase]
    · simp [Phase.held, hphase]
  constructor
  · rw [hheap, hnext]
    exact h.named
  · rw [hheap, hhanded, hrequests]
    exact h.request
  · rw [hheap, hhanded, hsq]
    exact h.prepared
  · rw [hnext]
    exact h.places.of_le hheld
  · intro e buf hroom
    rw [hheap, hnext]
    rcases hphase with hphase | hphase
    · exact h.room e buf (hphase ▸ hroom)
    · rw [hroom] at hphase
      cases hphase
  · rw [hcq]
    exact h.results
  · rw [hdeleted, hfreed]
    exact h.deleted

theorem Books.recordFailure (h : Books s) (f : Failure) : Books (s.recordFailure f) :=
  h.of_eq rfl rfl rfl rfl rfl rfl rfl rfl rfl (.inl rfl)

theorem Books.seen (h : Books s) : Books s.seen := h.of_eq rfl rfl rfl rfl rfl rfl rfl rfl rfl (.inl rfl)

theorem Books.note (h : Books s) (buf : ℕ) (res : ℤ) : Books (s.note buf res) :=
  h.of_eq rfl rfl rfl rfl rfl rfl rfl rfl rfl (.inl rfl)

theorem Books.addPending (h : Books s) (n : ℕ) : Books (s.addPending n) :=
  h.of_eq rfl rfl rfl rfl rfl rfl rfl rfl rfl (.inl rfl)

theorem Books.setPhase (h : Books s) {phase : Phase} (hphase : phase.buffer = none) : Books (s.setPhase phase) :=
  h.of_eq rfl rfl rfl rfl rfl rfl rfl rfl rfl (.inr hphase)

/-- A completion is taken off the queue; its buffer is then nowhere. -/
theorem held_pop {c : Cqe} {cq : List Cqe} (hcq : s.cq = c :: cq) (buf : ℕ) :
    State.held { s with cq := cq } buf + (if c.sqe.addr = buf then 1 else 0) = s.held buf := by
  simp only [State.held, State.requests, hcq, List.map_cons, about_append, about_cons]
  omega

theorem Books.pop (h : Books s) {c : Cqe} {cq : List Cqe} (hcq : s.cq = c :: cq) : Books { s with cq := cq } := by
  have hheld := held_pop hcq
  constructor
  · exact h.named
  · intro q hq
    apply h.request q
    simp only [State.requests, List.mem_append, hcq, List.map_cons, List.mem_cons] at hq ⊢
    tauto
  · exact h.prepared
  · refine h.places.of_le ?_
    intro buf
    rw [← hheld buf]
    exact Nat.le_add_right _ _
  · exact h.room
  · intro d hd
    apply h.results d
    rw [hcq]
    exact List.mem_cons_of_mem _ hd
  · exact h.deleted

theorem Books.free (h : Books s) {buf : ℕ} (hheld : s.held buf = 0) (hlt : buf < s.nextBuf) :
    Books (s.free buf) := by
  have hfree : ∀ b, (s.free buf).held b = s.held b + if buf = b then 1 else 0 := by
    intro b
    simp only [State.held, State.free, State.requests, List.count_cons, beq_iff_eq]
    omega
  constructor
  · exact h.named
  · exact h.request
  · exact h.prepared
  · exact h.places.put hheld hlt hfree
  · exact h.room
  · exact h.results
  · exact ⟨h.deleted.1, fun ptr hptr => List.mem_cons_of_mem _ (h.deleted.2 ptr hptr)⟩

theorem not_mem_freed_of_held {buf : ℕ} (hheld : s.held buf = 0) : buf ∉ s.freed := by
  rw [State.held] at hheld
  exact List.count_eq_zero.mp (by omega)

theorem Books.finalWrite (h : Books s) {ptr : ℕ} {p : PendingWrite} (hp : s.heap ptr = some p)
    (hheld : s.held ptr = 0) : Books (s.finalWrite ptr p) := by
  obtain ⟨hbuf, hlt, -⟩ := h.named ptr p hp
  have hfree := h.free hheld hlt
  rw [State.finalWrite, hbuf]
  refine Books.seen { hfree with deleted := ⟨?_, ?_⟩ }
  · refine List.nodup_cons.mpr ⟨?_, h.deleted.1⟩
    intro hmem
    exact not_mem_freed_of_held hheld (h.deleted.2 ptr hmem)
  · intro q hq
    rcases List.mem_cons.mp hq with rfl | hq
    · exact List.mem_cons_self
    · exact hfree.deleted.2 q hq

/-! ### Requests that move -/

theorem mem_requests_submit {submit : Submit} {q : Sqe} : q ∈ (s.submit submit).requests ↔ q ∈ s.requests := by
  have hsplit : q ∈ s.sq ↔ q ∈ s.sq.take submit.taken ∨ q ∈ s.sq.drop submit.taken := by
    rw [← List.mem_append, List.take_append_drop]
  simp only [State.requests, State.submit, List.mem_append, hsplit]
  tauto

theorem held_submit (submit : Submit) (buf : ℕ) : (s.submit submit).held buf = s.held buf := by
  have hsplit := about_take_drop buf submit.taken s.sq
  simp only [State.held, State.requests, State.submit, about_append]
  omega

theorem Books.submit (h : Books s) (submit : Submit) : Books (s.submit submit) := by
  constructor
  · exact h.named
  · intro q hq
    apply h.request q
    rw [List.mem_append, mem_requests_submit] at hq
    simp only [State.submit, List.mem_append] at hq ⊢
    rcases hq with (hq | hq) | hq
    · exact .inr (by simp [State.requests, List.mem_of_mem_take hq])
    · exact .inl hq
    · exact .inr hq
  · intro ptr p hp
    have hprepared := h.prepared ptr p hp
    have hsplit := about_take_drop ptr submit.taken s.sq
    simp only [State.submit, about_append]
    omega
  · exact h.places.of_le fun buf => (held_submit submit buf).le
  · exact h.room
  · exact h.results
  · exact h.deleted

/-- What detaching the request of a buffer leaves of a request. -/
theorem mem_requests_detach {buf : ℕ} {q : Sqe} (hq : q ∈ (s.detach buf).requests) :
    ∃ q' ∈ s.requests, q'.addr = q.addr ∧ q'.len = q.len ∧ q'.offset = q.offset ∧ (q.data = none ∨ q = q') ∧
      (q.addr ≠ buf → q = q') := by
  simp only [State.requests, State.detach, List.mem_append, List.mem_map] at hq ⊢
  rcases hq with ((⟨q', hq', rfl⟩ | hq) | hq) | hq
  · refine ⟨q', .inl (.inl (.inl hq')), ?_⟩
    split_ifs with haddr
    · exact ⟨rfl, rfl, rfl, .inl rfl, fun hne => absurd haddr hne⟩
    · exact ⟨rfl, rfl, rfl, .inr rfl, fun _ => rfl⟩
  · exact ⟨q, .inl (.inl (.inr hq)), rfl, rfl, rfl, .inr rfl, fun _ => rfl⟩
  · exact ⟨q, .inl (.inr hq), rfl, rfl, rfl, .inr rfl, fun _ => rfl⟩
  · exact ⟨q, .inr hq, rfl, rfl, rfl, .inr rfl, fun _ => rfl⟩

theorem about_detach (buf b : ℕ) : about b (s.detach buf).sq = about b s.sq := by
  have haddr : (s.detach buf).sq.map Sqe.addr = s.sq.map Sqe.addr := by
    rw [State.detach, List.map_map]
    apply List.map_congr_left
    intro q _
    simp only [Function.comp_apply]
    split_ifs
    · rfl
    · rfl
  rw [about, haddr, about]

theorem Books.detach (h : Books s) (buf : ℕ) : Books (s.detach buf) := by
  have hheld : ∀ b, (s.detach buf).held b = s.held b := by
    intro b
    have habout := about_detach (s := s) buf b
    simp only [State.held, State.requests, about_append, habout]
    rfl
  constructor
  · exact h.named
  · intro q hq
    rcases List.mem_append.mp hq with hq | hq
    · exact h.request q (List.mem_append_left _ hq)
    · obtain ⟨q', hq', haddr, hlen, hoffset, hdata, -⟩ := mem_requests_detach hq
      obtain ⟨p, hp, hof⟩ := h.request q' (List.mem_append_right _ hq')
      refine ⟨p, haddr ▸ hp, hlen ▸ hof.len, hoffset ▸ hof.offset, ?_⟩
      rcases hdata with hnone | rfl
      · intro ptr hptr
        rw [hnone] at hptr
        cases hptr
      · exact hof.data
  · intro ptr p hp
    rw [about_detach]
    exact h.prepared ptr p hp
  · exact h.places.of_le fun b => (hheld b).le
  · exact h.room
  · exact h.results
  · exact h.deleted

/-- A buffer that is nowhere goes on a request, for a new write or for one more attempt. -/
theorem Books.prepare (h : Books s) {ptr : ℕ} {p : PendingWrite} (hbuf : p.buf = ptr) (hlt : ptr < s.nextBuf)
    (hheld : s.held ptr = 0) (hattempts : 1 ≤ p.attempts ∧ p.attempts ≤ maxWriteAttempts)
    (hold : ∀ p', s.heap ptr = some p' → p.bytes = p'.bytes ∧ p.offset = p'.offset ∧ p'.attempts + 1 = p.attempts) :
    Books (s.prepare ptr p) := by
  have hhold : ∀ b, (s.prepare ptr p).held b = s.held b + if ptr = b then 1 else 0 := by
    intro b
    simp only [State.held, State.requests, State.prepare, about_append, about_cons, about_nil, hbuf]
    omega
  have hof : ∀ q ∈ s.handed ++ s.requests, ∃ p', (s.prepare ptr p).heap q.addr = some p' ∧ q.Of p' := by
    intro q hq
    obtain ⟨p', hp', hof⟩ := h.request q hq
    by_cases haddr : q.addr = ptr
    · rw [haddr] at hp'
      obtain ⟨hbytes, hoffset, -⟩ := hold p' hp'
      refine ⟨p, by simp [State.prepare, haddr], ?_, ?_, hof.data⟩
      · rw [hbytes, hof.len]
      · rw [hoffset, hof.offset]
    · exact ⟨p', by simp [State.prepare, Function.update_of_ne haddr, hp'], hof⟩
  constructor
  · intro ptr' p' hp'
    by_cases hptr : ptr' = ptr
    · subst hptr
      simp only [State.prepare, Function.update_self, Option.some.injEq] at hp'
      subst hp'
      exact ⟨hbuf, hlt, hattempts.2⟩
    · simp only [State.prepare, Function.update_of_ne hptr] at hp'
      exact h.named ptr' p' hp'
  · intro q hq
    simp only [State.requests, State.prepare, List.mem_append, List.mem_singleton] at hq
    by_cases hnew : q = ⟨p.buf, p.bytes % 2 ^ 32, p.offset, some ptr⟩
    · refine ⟨p, by simp [State.prepare, hnew, hbuf], ?_⟩
      rw [hnew]
      exact ⟨rfl, rfl, fun ptr' hptr' => by rw [← Option.some.inj hptr', hbuf]⟩
    · apply hof q
      simp only [State.requests, List.mem_append]
      tauto
  · intro ptr' p' hp'
    simp only [State.prepare, about_append, about_cons, about_nil, hbuf]
    by_cases hptr : ptr' = ptr
    · subst hptr
      simp only [State.prepare, Function.update_self, Option.some.injEq] at hp'
      subst hp'
      rw [if_pos rfl]
      cases hmade : s.heap ptr' with
      | some p₀ =>
        have hprepared := h.prepared ptr' p₀ hmade
        have hnext := (hold p₀ hmade).2.2
        omega
      | none =>
        -- A request of the buffer would have a write.
        have hnone : ∀ q ∈ s.handed ++ s.requests, q.addr ≠ ptr' := by
          rintro q hq rfl
          obtain ⟨p₀, hp₀, -⟩ := h.request q hq
          rw [hmade] at hp₀
          cases hp₀
        have hhanded : about ptr' s.handed = 0 :=
          about_eq_zero fun q hq => hnone q (List.mem_append_left _ hq)
        have hqueued : about ptr' s.sq = 0 :=
          about_eq_zero fun q hq => hnone q (by simp [State.requests, hq])
        omega
    · simp only [State.prepare, Function.update_of_ne hptr] at hp'
      have hprepared := h.prepared ptr' p' hp'
      rw [if_neg (Ne.symm hptr)]
      omega
  · exact h.places.put hheld hlt hhold
  · intro e buf hroom
    have hne : buf ≠ ptr := by
      rintro rfl
      have hphase : s.phase.held buf = 1 := by
        rw [show s.phase = .room e buf from hroom]
        simp [Phase.held, Phase.buffer]
      rw [State.held, hphase] at hheld
      omega
    simp only [State.prepare, Function.update_of_ne hne]
    exact h.room e buf hroom
  · exact h.results
  · exact h.deleted

theorem requests_exitRing : s.exitRing.requests = s.requests := by
  simp [State.requests, State.exitRing]

theorem Books.exitRing (h : Books s) : Books s.exitRing := by
  have hheld : ∀ b, s.exitRing.held b = s.held b := by
    intro b
    rw [State.held, requests_exitRing]
    rfl
  constructor
  · exact h.named
  · intro q hq
    rw [requests_exitRing] at hq
    exact h.request q hq
  · intro ptr p hp
    have hprepared := h.prepared ptr p hp
    simp only [State.exitRing, about_nil]
    omega
  · exact h.places.of_le fun b => (hheld b).le
  · exact h.room
  · intro c hc
    cases hc
  · exact h.deleted

theorem mem_requests_complete {i : ℕ} {res : ℤ} {q : Sqe} : q ∈ (complete i res s).requests ↔ q ∈ s.requests := by
  rw [complete]
  split
  · rfl
  · rename_i q₀ hq₀
    have hsplit : q ∈ s.inFlight ↔ q = q₀ ∨ q ∈ s.inFlight.eraseIdx i := by
      rw [← (cons_eraseIdx_perm hq₀).mem_iff, List.mem_cons]
    simp only [State.requests, List.mem_append, List.map_append, List.map_cons, List.map_nil, List.mem_singleton,
      hsplit]
    tauto

theorem Books.complete (h : Books s) {i : ℕ} {res : ℤ} (hres : ∃ q ∈ s.inFlight[i]?, res ≤ q.len) :
    Books (complete i res s) := by
  obtain ⟨q₀, hq₀, hle⟩ := hres
  have hcomplete : PendingWrites.complete i res s =
      { s with inFlight := s.inFlight.eraseIdx i, cq := s.cq ++ [⟨q₀, res⟩] } := by
    rw [PendingWrites.complete, hq₀]
  have hheld : ∀ b, (PendingWrites.complete i res s).held b = s.held b := by
    intro b
    have herase := about_eraseIdx b hq₀
    rw [hcomplete]
    simp only [State.held, State.requests, about_append, List.map_append, List.map_cons, List.map_nil, about_cons,
      about_nil]
    omega
  constructor
  · rw [hcomplete]
    exact h.named
  · intro q hq
    rw [List.mem_append, mem_requests_complete, hcomplete] at hq
    rw [hcomplete]
    exact h.request q (List.mem_append.mpr hq)
  · rw [hcomplete]
    exact h.prepared
  · have hnext : (PendingWrites.complete i res s).nextBuf = s.nextBuf := by rw [hcomplete]
    rw [hnext]
    exact h.places.of_le fun b => (hheld b).le
  · rw [hcomplete]
    exact h.room
  · intro c hc
    rw [hcomplete] at hc
    rcases List.mem_append.mp hc with hc | hc
    · exact h.results c hc
    · rw [List.mem_singleton] at hc
      rw [hc]
      exact hle
  · rw [hcomplete]
    exact h.deleted

/-- A buffer is allocated. -/
theorem Books.alloc (h : Books s) : Books s.alloc := by
  constructor
  · intro ptr p hp
    obtain ⟨hbuf, hlt, hattempts⟩ := h.named ptr p hp
    exact ⟨hbuf, Nat.lt_succ_of_lt hlt, hattempts⟩
  · exact h.request
  · exact h.prepared
  · exact h.places.succ
  · intro e buf hroom
    obtain ⟨hnone, hlt⟩ := h.room e buf hroom
    exact ⟨hnone, Nat.lt_succ_of_lt hlt⟩
  · exact h.results
  · exact h.deleted

end Books

/-! ### The steps -/

section Steps
variable {s : State}

end Steps

end LsmTree.PendingWrites
