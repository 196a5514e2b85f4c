import LsmTree.LayeredMap
import Mathlib.Algebra.Order.BigOperators.Group.List
import Mathlib.Algebra.Order.Group.Nat
import Mathlib.Data.List.Dedup
import Mathlib.Data.List.Induction

/-!
# The k-way merge of a compaction

Every input table is read through an iterator, and a heap holds the next entry of each.
Its top is the smallest key, and among equal keys the entry of the newest table. A round
of the loop takes the top as the winner of its key, skips the entries of older tables
for the same key, and writes the winner out unless it is a tombstone. Output is cut into
tables of at most `l1MaxFileEntries` entries.

The state of the heap and the iterators is the list of what each input has still to
deliver, the entry that is in the heap first.
-/

namespace LsmTree.Merge
open LayeredMap

variable {K V : Type*} [LinearOrder K]

/-- `L1_MAX_FILE_ENTRIES`. -/
def l1MaxFileEntries : ℕ := 1000

/-- `min_heap.top()`: the index of a stream and its first entry. -/
def top : List (List (K × Option V)) → Option (ℕ × (K × Option V))
  | [] => none
  | [] :: ss => (top ss).map fun p => (p.1 + 1, p.2)
  | (e :: _) :: ss =>
    match top ss with
    | none => some (0, e)
    | some (i, f) => if f.1 ≤ e.1 then some (i + 1, f) else some (0, e)

/-- Pop the entry of stream `i` and push the next one of its iterator. -/
def advance (i : ℕ) (ss : List (List (K × Option V))) : List (List (K × Option V)) :=
  ss.modify i List.tail

/-- The number of entries still to come. -/
def remaining (ss : List (List (K × Option V))) : ℕ := (ss.map List.length).sum

/-- The inner loop: consume the entries of `key` that are left in the heap. -/
def skipDuplicates (key : K) : ℕ → List (List (K × Option V)) → List (List (K × Option V))
  | 0, ss => ss
  | fuel + 1, ss =>
    match top ss with
    | none => ss
    | some (i, e) => if e.1 = key then skipDuplicates key fuel (advance i ss) else ss

/-- `current_l1_buffer` and `staged`. -/
structure Builder (K V : Type*) where
  buffer : List (K × Option V)
  staged : List (List (K × Option V))

def Builder.flushBuffer (b : Builder K V) : Builder K V :=
  if b.buffer = [] then b else ⟨[], b.staged ++ [b.buffer]⟩

def Builder.push (b : Builder K V) (e : K × Option V) : Builder K V :=
  if l1MaxFileEntries ≤ (b.buffer ++ [e]).length then
    Builder.flushBuffer ⟨b.buffer ++ [e], b.staged⟩
  else ⟨b.buffer ++ [e], b.staged⟩

/-- The outer loop. -/
def mergeLoop : ℕ → List (List (K × Option V)) → Builder K V → Builder K V
  | 0, _, b => b
  | fuel + 1, ss, b =>
    match top ss with
    | none => b
    | some (i, winner) =>
      mergeLoop fuel (skipDuplicates winner.1 (remaining ss) (advance i ss))
        (if winner.2.isSome then b.push winner else b)

/-- The contents of the tables a compaction stages. -/
def merge (ss : List (List (K × Option V))) : List (List (K × Option V)) :=
  (mergeLoop (remaining ss) ss ⟨[], []⟩).flushBuffer.staged

/-! ### The top of the heap -/

theorem top_eq_none {ss : List (List (K × Option V))} (h : top ss = none) : ∀ s ∈ ss, s = [] := by
  induction ss with
  | nil => simp
  | cons s ss ih =>
    cases s with
    | nil =>
      have hss : top ss = none := by simpa [top] using h
      simpa using ih hss
    | cons e t =>
      rw [top] at h
      split at h
      · cases h
      · split at h <;> cases h

theorem newest_of_nil {ss : List (List (K × Option V))} (h : ∀ s ∈ ss, s = []) (k : K) :
    newest k ss = none := by
  rw [newest_eq_none_iff]
  intro s hs
  rw [h s hs, lookup_nil]

omit [LinearOrder K] in
theorem nil_of_remaining {ss : List (List (K × Option V))} (h : remaining ss ≤ 0) :
    ∀ s ∈ ss, s = [] := by
  intro s hs
  have hle := List.single_le_sum (fun n _ => Nat.zero_le n) s.length (List.mem_map_of_mem hs)
  exact List.length_eq_zero_iff.mp (Nat.eq_zero_of_le_zero (hle.trans h))

/-- A smaller key than all of a stack has no entry there. -/
theorem newest_of_lt {ss : List (List (K × Option V))} {k : K}
    (h : ∀ s ∈ ss, ∀ f ∈ s, k < f.1) : newest k ss = none := by
  rw [newest_eq_none_iff]
  intro s hs
  rw [lookup_eq_none_iff]
  intro f hf
  exact (h s hs f hf).ne'

theorem le_of_sorted_cons {e : K × Option V} {t : List (K × Option V)} (h : Sorted (e :: t)) :
    ∀ f ∈ e :: t, e.1 ≤ f.1 := by
  intro f hf
  rcases List.mem_cons.mp hf with rfl | hf
  · exact le_refl _
  · exact ((List.pairwise_cons.mp h).1 f hf).le

/-- The top entry comes from a later stream, or is the first of this one and smaller than all later ones. -/
theorem top_cons_cases {s : List (K × Option V)} {ss : List (List (K × Option V))} {i : ℕ} {e : K × Option V}
    (h : top (s :: ss) = some (i, e)) :
    (∃ j, i = j + 1 ∧ top ss = some (j, e) ∧ ∀ d ∈ s.head?, e.1 ≤ d.1) ∨
      ∃ t, i = 0 ∧ s = e :: t ∧ ∀ j f, top ss = some (j, f) → e.1 < f.1 := by
  cases s with
  | nil =>
    rw [top] at h
    obtain ⟨⟨j, f⟩, htop, heq⟩ := Option.map_eq_some_iff.mp h
    cases heq
    exact .inl ⟨j, rfl, htop, by simp⟩
  | cons d t =>
    rw [top] at h
    cases htop : top ss with
    | none =>
      rw [htop] at h
      cases h
      exact .inr ⟨t, rfl, rfl, by simp⟩
    | some p =>
      obtain ⟨j, f⟩ := p
      simp only [htop] at h
      split_ifs at h with hle
      · cases h
        exact .inl ⟨j, rfl, rfl, by simpa using hle⟩
      · cases h
        refine .inr ⟨t, rfl, rfl, ?_⟩
        rintro j' f' ⟨⟩
        exact not_le.mp hle

/-- The top entry has the smallest key, and is what a reader of the stack finds for it. -/
theorem top_spec {ss : List (List (K × Option V))} (hsorted : ∀ s ∈ ss, Sorted s) {i : ℕ}
    {e : K × Option V} (h : top ss = some (i, e)) :
    (∀ s ∈ ss, ∀ f ∈ s, e.1 ≤ f.1) ∧ newest e.1 ss = some e.2 := by
  induction ss generalizing i e with
  | nil => cases h
  | cons s ss ih =>
    have hrest : ∀ s ∈ ss, Sorted s := fun s hs => hsorted s (List.mem_cons_of_mem _ hs)
    have hs := hsorted s List.mem_cons_self
    rcases top_cons_cases h with ⟨j, -, htop, hhead⟩ | ⟨t, -, rfl, hlater⟩
    · obtain ⟨hle, hnew⟩ := ih hrest htop
      refine ⟨?_, by rw [newest_cons, hnew, Option.some_or]⟩
      intro u hu
      rcases List.mem_cons.mp hu with rfl | hu
      · cases u with
        | nil => simp
        | cons d t => exact fun g hg => (hhead d rfl).trans (le_of_sorted_cons hs g hg)
      · exact hle u hu
    · have hlt : ∀ u ∈ ss, ∀ g ∈ u, e.1 < g.1 := by
        intro u hu g hg
        cases htop : top ss with
        | none => simp [top_eq_none htop u hu] at hg
        | some p => exact (hlater p.1 p.2 htop).trans_le ((ih hrest htop).1 u hu g hg)
      refine ⟨?_, by rw [newest_cons, newest_of_lt hlt, lookup_cons, if_pos rfl, Option.none_or]⟩
      intro u hu
      rcases List.mem_cons.mp hu with rfl | hu
      · exact le_of_sorted_cons hs
      · exact fun g hg => (hlt u hu g hg).le

/-! ### One round -/

/-- A stream without a leading entry for the key. -/
def dropKey (k : K) : List (K × Option V) → List (K × Option V)
  | [] => []
  | e :: t => if e.1 = k then t else e :: t

theorem dropKey_of_lt {k : K} {s : List (K × Option V)} (h : ∀ f ∈ s, k < f.1) : dropKey k s = s := by
  cases s with
  | nil => rfl
  | cons e t => rw [dropKey, if_neg (h e List.mem_cons_self).ne']

theorem length_dropKey_le (k : K) (s : List (K × Option V)) : (dropKey k s).length ≤ s.length := by
  cases s with
  | nil => rfl
  | cons e t =>
    rw [dropKey]
    split_ifs <;> simp

theorem sorted_dropKey {s : List (K × Option V)} (h : Sorted s) (k : K) : Sorted (dropKey k s) := by
  cases s with
  | nil => exact h
  | cons e t =>
    rw [dropKey]
    split_ifs
    · exact (List.pairwise_cons.mp h).2
    · exact h

theorem lt_of_mem_dropKey {k : K} {s : List (K × Option V)} (h : Sorted s) (hle : ∀ f ∈ s, k ≤ f.1) :
    ∀ f ∈ dropKey k s, k < f.1 := by
  cases s with
  | nil => simp [dropKey]
  | cons e t =>
    have hlt := (List.pairwise_cons.mp h).1
    rw [dropKey]
    split_ifs with he
    · rw [← he]
      exact hlt
    · have hke : k < e.1 := lt_of_le_of_ne (hle e List.mem_cons_self) (Ne.symm he)
      intro f hf
      rcases List.mem_cons.mp hf with rfl | hf
      · exact hke
      · exact hke.trans (hlt f hf)

theorem lookup_dropKey {j k : K} (h : j ≠ k) (s : List (K × Option V)) :
    lookup j (dropKey k s) = lookup j s := by
  cases s with
  | nil => rfl
  | cons e t =>
    rw [dropKey]
    split_ifs with he
    · rw [lookup_cons, if_neg]
      rintro rfl
      exact h he
    · rfl

theorem map_dropKey_of_lt {k : K} {ss : List (List (K × Option V))}
    (h : ∀ s ∈ ss, ∀ f ∈ s, k < f.1) : ss.map (dropKey k) = ss := by
  calc ss.map (dropKey k) = ss.map id := List.map_congr_left fun s hs => dropKey_of_lt (h s hs)
    _ = ss := List.map_id ss

/-- Popping an entry of the key is part of dropping it. -/
theorem map_dropKey_advance {ss : List (List (K × Option V))} (hsorted : ∀ s ∈ ss, Sorted s) {i : ℕ}
    {e : K × Option V} (h : top ss = some (i, e)) :
    (advance i ss).map (dropKey e.1) = ss.map (dropKey e.1) ∧
      remaining ss = remaining (advance i ss) + 1 := by
  induction ss generalizing i e with
  | nil => cases h
  | cons s ss ih =>
    have hrest : ∀ s ∈ ss, Sorted s := fun s hs => hsorted s (List.mem_cons_of_mem _ hs)
    have hlater : ∀ {j : ℕ} {f : K × Option V}, top ss = some (j, f) →
        (advance (j + 1) (s :: ss)).map (dropKey f.1) = (s :: ss).map (dropKey f.1) ∧
          remaining (s :: ss) = remaining (advance (j + 1) (s :: ss)) + 1 := by
      intro j f htop
      obtain ⟨hmap, hcount⟩ := ih hrest htop
      have hadv : advance (j + 1) (s :: ss) = s :: advance j ss := rfl
      rw [hadv, List.map_cons, List.map_cons, hmap]
      refine ⟨rfl, ?_⟩
      simp only [remaining, List.map_cons, List.sum_cons] at hcount ⊢
      omega
    rcases top_cons_cases h with ⟨j, rfl, htop, -⟩ | ⟨t, rfl, rfl, -⟩
    · exact hlater htop
    · have hadv : advance 0 ((e :: t) :: ss) = t :: ss := rfl
      have hlt : ∀ f ∈ t, e.1 < f.1 :=
        (List.pairwise_cons.mp (hsorted (e :: t) List.mem_cons_self)).1
      rw [hadv, List.map_cons, List.map_cons, dropKey_of_lt hlt, dropKey, if_pos rfl]
      refine ⟨rfl, ?_⟩
      simp only [remaining, List.map_cons, List.sum_cons, List.length_cons]
      omega

omit [LinearOrder K] in
theorem mem_advance {ss : List (List (K × Option V))} {i : ℕ} {s : List (K × Option V)}
    (h : s ∈ advance i ss) : ∃ t ∈ ss, s <:+ t := by
  obtain ⟨j, hj⟩ := List.mem_iff_getElem?.mp h
  rw [advance, List.getElem?_modify] at hj
  cases hget : ss[j]? with
  | none => simp [hget] at hj
  | some t =>
    refine ⟨t, List.mem_iff_getElem?.mpr ⟨j, hget⟩, ?_⟩
    rw [hget] at hj
    split_ifs at hj <;> cases hj
    · exact List.tail_suffix t
    · exact List.suffix_refl t

theorem sorted_advance {ss : List (List (K × Option V))} (hsorted : ∀ s ∈ ss, Sorted s) (i : ℕ) :
    ∀ s ∈ advance i ss, Sorted s := by
  intro s hs
  obtain ⟨t, ht, hsuf⟩ := mem_advance hs
  exact (hsorted t ht).sublist hsuf.sublist

/-- Once the smallest key is `key`, the inner loop removes it from every stream. -/
theorem skipDuplicates_eq {key : K} {fuel : ℕ} {ss : List (List (K × Option V))}
    (hsorted : ∀ s ∈ ss, Sorted s) (hle : ∀ s ∈ ss, ∀ f ∈ s, key ≤ f.1) (hfuel : remaining ss ≤ fuel) :
    skipDuplicates key fuel ss = ss.map (dropKey key) := by
  induction fuel generalizing ss with
  | zero =>
    apply (map_dropKey_of_lt _).symm
    intro s hs f hf
    rw [nil_of_remaining hfuel s hs] at hf
    cases hf
  | succ fuel ih =>
    rw [skipDuplicates]
    split
    case h_1 hnone =>
      apply (map_dropKey_of_lt _).symm
      intro s hs f hf
      rw [top_eq_none hnone s hs] at hf
      cases hf
    case h_2 i e htop =>
      obtain ⟨hmin, -⟩ := top_spec hsorted htop
      split
      case isTrue hkey =>
        subst hkey
        obtain ⟨hmap, hcount⟩ := map_dropKey_advance hsorted htop
        have hle' : ∀ s ∈ advance i ss, ∀ f ∈ s, e.1 ≤ f.1 := by
          intro s hs f hf
          obtain ⟨t, ht, hsuf⟩ := mem_advance hs
          exact hle t ht f (hsuf.subset hf)
        rw [ih (sorted_advance hsorted i) hle' (by omega), hmap]
      case isFalse hkey =>
        apply (map_dropKey_of_lt _).symm
        intro s hs f hf
        -- The top is at least `key` by assumption and is not `key`.
        have hge : key ≤ e.1 := by
          obtain ⟨t, ht, hx⟩ := exists_mem_of_newest (top_spec hsorted htop).2
          exact hle t ht _ (mem_of_lookup hx)
        exact (lt_of_le_of_ne hge (Ne.symm hkey)).trans_le (hmin s hs f hf)

/-- What a round does: the winner is the newest entry of the smallest key, and afterwards the
streams hold the larger keys as before and no other. -/
theorem round_spec {ss : List (List (K × Option V))} (hsorted : ∀ s ∈ ss, Sorted s) {i : ℕ}
    {e : K × Option V} (h : top ss = some (i, e)) :
    let rest := skipDuplicates e.1 (remaining ss) (advance i ss)
    (∀ s ∈ rest, Sorted s) ∧ (∀ s ∈ rest, ∀ f ∈ s, e.1 < f.1) ∧ remaining rest < remaining ss ∧
      ∀ k, newest k ss = if k = e.1 then some e.2 else newest k rest := by
  intro rest
  obtain ⟨hmin, hnew⟩ := top_spec hsorted h
  obtain ⟨hmap, hcount⟩ := map_dropKey_advance hsorted h
  have hle : ∀ s ∈ advance i ss, ∀ f ∈ s, e.1 ≤ f.1 := by
    intro s hs f hf
    obtain ⟨t, ht, hsuf⟩ := mem_advance hs
    exact hmin t ht f (hsuf.subset hf)
  have hrest : rest = (advance i ss).map (dropKey e.1) :=
    skipDuplicates_eq (sorted_advance hsorted i) hle (by omega)
  refine ⟨?_, ?_, ?_, ?_⟩
  · intro s hs
    rw [hrest] at hs
    obtain ⟨t, ht, rfl⟩ := List.mem_map.mp hs
    exact sorted_dropKey (sorted_advance hsorted i t ht) e.1
  · intro s hs
    rw [hrest] at hs
    obtain ⟨t, ht, rfl⟩ := List.mem_map.mp hs
    exact lt_of_mem_dropKey (sorted_advance hsorted i t ht) (hle t ht)
  · have hshrink : remaining rest ≤ remaining (advance i ss) := by
      rw [hrest, remaining, remaining, List.map_map]
      apply List.sum_le_sum
      intro t _
      exact length_dropKey_le e.1 t
    omega
  · intro k
    rw [hrest, hmap]
    split_ifs with hk
    · rw [hk, hnew]
    · refine newest_congr (List.forall₂_map_right_iff.mpr ?_)
      exact List.forall₂_same.mpr fun s _ => (lookup_dropKey hk s).symm

/-! ### All rounds -/

/-- The winners of the rounds, tombstones included. -/
def winners : ℕ → List (List (K × Option V)) → List (K × Option V)
  | 0, _ => []
  | fuel + 1, ss =>
    match top ss with
    | none => []
    | some (i, winner) =>
      winner :: winners fuel (skipDuplicates winner.1 (remaining ss) (advance i ss))

theorem mergeLoop_eq (fuel : ℕ) (ss : List (List (K × Option V))) (b : Builder K V) :
    mergeLoop fuel ss b = ((winners fuel ss).filter (·.2.isSome)).foldl Builder.push b := by
  induction fuel generalizing ss b with
  | zero => rfl
  | succ fuel ih =>
    rw [mergeLoop, winners]
    cases top ss with
    | none => rfl
    | some p =>
      simp only [ih, List.filter_cons]
      split_ifs <;> rfl

theorem lookup_winners {fuel : ℕ} {ss : List (List (K × Option V))} (hsorted : ∀ s ∈ ss, Sorted s)
    (hfuel : remaining ss ≤ fuel) (k : K) : lookup k (winners fuel ss) = newest k ss := by
  induction fuel generalizing ss with
  | zero =>
    rw [winners, newest_of_nil (nil_of_remaining hfuel), lookup_nil]
  | succ fuel ih =>
    rw [winners]
    cases htop : top ss with
    | none => rw [newest_of_nil (top_eq_none htop), lookup_nil]
    | some p =>
      obtain ⟨hrest, -, hcount, hnew⟩ := round_spec hsorted htop
      rw [lookup_cons, ih hrest (by omega), hnew k]
      simp only [eq_comm]

/-- The winners come in increasing key order. -/
theorem sorted_winners {fuel : ℕ} {ss : List (List (K × Option V))} (hsorted : ∀ s ∈ ss, Sorted s)
    (hfuel : remaining ss ≤ fuel) : Sorted (winners fuel ss) := by
  induction fuel generalizing ss with
  | zero => exact List.Pairwise.nil
  | succ fuel ih =>
    rw [winners]
    cases htop : top ss with
    | none => exact List.Pairwise.nil
    | some p =>
      obtain ⟨hrest, hlt, hcount, -⟩ := round_spec hsorted htop
      have htail := ih hrest (by omega)
      refine List.pairwise_cons.mpr ⟨?_, htail⟩
      intro f hf
      have hnew := lookup_of_mem htail.keys_ne hf
      rw [lookup_winners hrest (by omega)] at hnew
      obtain ⟨t, ht, hx⟩ := exists_mem_of_newest hnew
      exact hlt t ht _ (mem_of_lookup hx)

/-! ### The staged tables -/

/-- What holds of the buffer and the staged tables once `es` has been written. -/
structure Builder.Holds (b : Builder K V) (es : List (K × Option V)) : Prop where
  contents : b.staged.flatten ++ b.buffer = es
  full : ∀ t ∈ b.staged, t.length = l1MaxFileEntries
  short : b.buffer.length < l1MaxFileEntries

omit [LinearOrder K] in
theorem Builder.Holds.push {b : Builder K V} {es : List (K × Option V)} (h : b.Holds es)
    (e : K × Option V) : (b.push e).Holds (es ++ [e]) := by
  have hlen : (b.buffer ++ [e]).length = b.buffer.length + 1 := by simp
  have hshort := h.short
  rw [Builder.push]
  split_ifs with hfull
  · have hne : b.buffer ++ [e] ≠ [] := by simp
    rw [Builder.flushBuffer, if_neg hne]
    constructor
    · simp [← h.contents]
    · intro t ht
      rcases List.mem_append.mp ht with ht | ht
      · exact h.full t ht
      · rw [List.mem_singleton.mp ht]
        exact Nat.le_antisymm (hlen.trans_le hshort) hfull
    · exact Nat.zero_lt_succ _
  · constructor
    · simp [← h.contents]
    · exact h.full
    · exact Nat.lt_of_not_le hfull

omit [LinearOrder K] in
theorem Builder.holds_foldl (es : List (K × Option V)) :
    (es.foldl Builder.push (⟨[], []⟩ : Builder K V)).Holds es := by
  induction es using List.reverseRecOn with
  | nil => exact ⟨rfl, by simp, Nat.zero_lt_succ _⟩
  | append_singleton es e ih =>
    rw [List.foldl_append, List.foldl_cons, List.foldl_nil]
    exact ih.push e

omit [LinearOrder K] in
/-- Cutting into tables loses nothing: all are non-empty and within the limit, and all but
the last are full. -/
theorem Builder.Holds.staged_spec {b : Builder K V} {es : List (K × Option V)} (h : b.Holds es) :
    b.flushBuffer.staged.flatten = es ∧
    (∀ t ∈ b.flushBuffer.staged, t ≠ [] ∧ t.length ≤ l1MaxFileEntries) ∧
    b.flushBuffer.staged.length = (es.length + (l1MaxFileEntries - 1)) / l1MaxFileEntries := by
  have hstaged : ∀ t ∈ b.staged, t ≠ [] ∧ t.length ≤ l1MaxFileEntries := by
    intro t ht
    have hfull := h.full t ht
    refine ⟨?_, hfull.le⟩
    rintro rfl
    cases hfull
  have hlength : es.length = l1MaxFileEntries * b.staged.length + b.buffer.length := by
    have hsum : b.staged.flatten.length = l1MaxFileEntries * b.staged.length := by
      rw [List.length_flatten, List.map_congr_left h.full, List.map_const', List.sum_replicate,
        Nat.nsmul_eq_mul, Nat.mul_comm]
    rw [← h.contents, List.length_append, hsum]
  have hshort := h.short
  rw [Builder.flushBuffer]
  split_ifs with hnil
  · refine ⟨by simpa [hnil] using h.contents, hstaged, ?_⟩
    rw [hnil, List.length_nil] at hlength
    rw [hlength]
    simp only [l1MaxFileEntries]
    omega
  · refine ⟨by simpa using h.contents, ?_, ?_⟩
    · intro t ht
      rcases List.mem_append.mp ht with ht | ht
      · exact hstaged t ht
      · rw [List.mem_singleton.mp ht]
        exact ⟨hnil, hshort.le⟩
    · have hpos := List.length_pos_iff.mpr hnil
      rw [List.length_append, List.length_singleton, hlength]
      simp only [l1MaxFileEntries] at hshort ⊢
      omega

/-- The entries of a stack that are not shadowed and not deleted, in key order. -/
def liveEntries (ss : List (List (K × Option V))) : List (K × Option V) :=
  (winners (remaining ss) ss).filter (·.2.isSome)

theorem merge_spec (ss : List (List (K × Option V))) :
    (merge ss).flatten = liveEntries ss ∧
    (∀ t ∈ merge ss, t ≠ [] ∧ t.length ≤ l1MaxFileEntries) ∧
    (merge ss).length = ((liveEntries ss).length + (l1MaxFileEntries - 1)) / l1MaxFileEntries := by
  have hmerge : merge ss =
      ((liveEntries ss).foldl Builder.push (⟨[], []⟩ : Builder K V)).flushBuffer.staged := by
    rw [merge, mergeLoop_eq]
    rfl
  rw [hmerge]
  exact (Builder.holds_foldl (liveEntries ss)).staged_spec

theorem sorted_liveEntries {ss : List (List (K × Option V))} (hsorted : ∀ s ∈ ss, Sorted s) :
    Sorted (liveEntries ss) := (sorted_winners hsorted (le_refl _)).filter _

theorem sorted_of_mem_merge {ss : List (List (K × Option V))} (hsorted : ∀ s ∈ ss, Sorted s) :
    ∀ t ∈ merge ss, Sorted t := by
  intro t ht
  have hflat : Sorted (merge ss).flatten := by
    rw [(merge_spec ss).1]
    exact sorted_liveEntries hsorted
  exact hflat.sublist (List.sublist_flatten_of_mem ht)

theorem lookup_liveEntries {ss : List (List (K × Option V))} (hsorted : ∀ s ∈ ss, Sorted s) (k : K) :
    lookup k (liveEntries ss) = (newest k ss).filter Option.isSome := by
  rw [← lookup_winners hsorted (le_refl (remaining ss)) k, liveEntries]
  have hkeys := (sorted_winners hsorted (le_refl (remaining ss))).keys_ne
  generalize winners (remaining ss) ss = ws at hkeys ⊢
  cases hlookup : lookup k ws with
  | none =>
    rw [lookup_eq_none_iff] at hlookup
    rw [Option.filter_none, lookup_eq_none_iff]
    intro e he
    exact hlookup e (List.mem_filter.mp he).1
  | some v =>
    have hmem := mem_of_lookup hlookup
    cases v with
    | some x => exact lookup_of_mem (hkeys.filter _) (List.mem_filter.mpr ⟨hmem, rfl⟩)
    | none =>
      rw [Option.filter_some, if_neg (by simp), lookup_eq_none_iff]
      rintro ⟨a, w⟩ he rfl
      obtain ⟨he, hw⟩ := List.mem_filter.mp he
      have hw' := lookup_of_mem hkeys he
      rw [hlookup] at hw'
      cases hw'
      cases hw

/-- The staged tables hold exactly the live entries of the inputs. -/
theorem liveStack_merge {ss : List (List (K × Option V))} (hsorted : ∀ s ∈ ss, Sorted s) :
    LiveStack (merge ss) ss := by
  intro k
  have hflat := (merge_spec ss).1
  have hkeys : (merge ss).flatten.Pairwise fun a b => a.1 ≠ b.1 := by
    rw [hflat]
    exact (sorted_liveEntries hsorted).keys_ne
  rw [newest_eq_lookup_flatten hkeys, hflat, lookup_liveEntries hsorted]

/-- An entry of a staged table is the newest entry of its key. -/
theorem newest_of_mem_merge {ss : List (List (K × Option V))} (hsorted : ∀ s ∈ ss, Sorted s)
    {t : List (K × Option V)} (ht : t ∈ merge ss) {k : K} {x : Option V}
    (hx : lookup k t = some x) : newest k ss = some x := by
  have hflat := (merge_spec ss).1
  have hmem : (k, x) ∈ liveEntries ss := by
    rw [← hflat]
    exact List.mem_flatten.mpr ⟨t, ht, mem_of_lookup hx⟩
  have hlookup := lookup_of_mem (sorted_liveEntries hsorted).keys_ne hmem
  rw [lookup_liveEntries hsorted, Option.filter_eq_some_iff] at hlookup
  exact hlookup.1

/-- The number of keys of a stack that a reader finds a value for. -/
def liveKeys (ss : List (List (K × Option V))) : ℕ :=
  ((ss.flatten.map Prod.fst).dedup.filter fun k => (resolve k ss).isSome).length

theorem mem_keys_of_resolve {ss : List (List (K × Option V))} {k : K}
    (h : (resolve k ss).isSome = true) : k ∈ ss.flatten.map Prod.fst := by
  cases hnew : newest k ss with
  | none => simp [resolve, hnew] at h
  | some v =>
    obtain ⟨t, ht, hx⟩ := exists_mem_of_newest hnew
    exact List.mem_map.mpr ⟨(k, v), List.mem_flatten.mpr ⟨t, ht, mem_of_lookup hx⟩, rfl⟩

theorem liveKeys_congr {ss ss' : List (List (K × Option V))}
    (h : ∀ k, resolve k ss = resolve k ss') : liveKeys ss = liveKeys ss' := by
  apply List.Perm.length_eq
  refine (List.perm_ext_iff_of_nodup ((List.nodup_dedup _).filter _)
    ((List.nodup_dedup _).filter _)).mpr ?_
  intro k
  simp only [List.mem_filter, List.mem_dedup]
  constructor
  · rintro ⟨-, hk⟩
    rw [h k] at hk
    exact ⟨mem_keys_of_resolve hk, hk⟩
  · rintro ⟨-, hk⟩
    rw [← h k] at hk
    exact ⟨mem_keys_of_resolve hk, hk⟩

theorem length_liveEntries {ss : List (List (K × Option V))} (hsorted : ∀ s ∈ ss, Sorted s) :
    (liveEntries ss).length = liveKeys ss := by
  have hperm : ((liveEntries ss).map Prod.fst).Perm
      ((ss.flatten.map Prod.fst).dedup.filter fun k => (resolve k ss).isSome) := by
    have hnodup : ((liveEntries ss).map Prod.fst).Nodup :=
      List.pairwise_map.mpr (sorted_liveEntries hsorted).keys_ne
    refine (List.perm_ext_iff_of_nodup hnodup ((List.nodup_dedup _).filter _)).mpr ?_
    intro k
    have hmem : k ∈ (liveEntries ss).map Prod.fst ↔ lookup k (liveEntries ss) ≠ none := by
      rw [Ne, lookup_eq_none_iff]
      simp
    rw [hmem, lookup_liveEntries hsorted, List.mem_filter, List.mem_dedup]
    have hread : (newest k ss).filter Option.isSome ≠ none ↔ (resolve k ss).isSome = true := by
      unfold resolve
      rcases newest k ss with _ | _ | v <;> simp
    rw [hread]
    exact ⟨fun h => ⟨mem_keys_of_resolve h, h⟩, fun h => h.2⟩
  rw [liveKeys, ← hperm.length_eq, List.length_map]

/-- How many tables a merge writes. -/
theorem length_merge {ss : List (List (K × Option V))} (hsorted : ∀ s ∈ ss, Sorted s) :
    (merge ss).length = (liveKeys ss + (l1MaxFileEntries - 1)) / l1MaxFileEntries := by
  rw [(merge_spec ss).2.2, length_liveEntries hsorted]

end LsmTree.Merge
