import Mathlib.Algebra.GroupWithZero.Nat
import Mathlib.Data.List.Induction
import Mathlib.Data.List.Sort
import Mathlib.Order.Defs.LinearOrder
import Mathlib.Order.Lattice

/-!
# Stacks of partial maps with deletion marks

A layer is an association list from keys to values or deletion marks. A stack lists
its layers from oldest to newest and answers a key with the entry of the newest layer
that has one. A reader sees a value or nothing; a deletion mark hides older entries and
reads as nothing. This file collects how stacks are cut, joined and replaced.
-/

namespace LsmTree.LayeredMap

variable {K V : Type*}

section Lookup
variable [DecidableEq K] {β : Type*}

/-- The first entry for a key. -/
def lookup (k : K) : List (K × β) → Option β
  | [] => none
  | (a, v) :: es => if a = k then some v else lookup k es

@[simp] theorem lookup_nil (k : K) : lookup k ([] : List (K × β)) = none := rfl

theorem lookup_cons (k : K) (e : K × β) (es : List (K × β)) :
    lookup k (e :: es) = if e.1 = k then some e.2 else lookup k es := rfl

theorem lookup_append (k : K) (es fs : List (K × β)) :
    lookup k (es ++ fs) = (lookup k es).or (lookup k fs) := by
  induction es with
  | nil => rfl
  | cons e es ih =>
    rw [List.cons_append, lookup_cons, lookup_cons, ih]
    split_ifs <;> rfl

theorem lookup_eq_none_iff (k : K) (es : List (K × β)) :
    lookup k es = none ↔ ∀ e ∈ es, e.1 ≠ k := by
  induction es with
  | nil => simp
  | cons e es ih =>
    rw [lookup_cons]
    split_ifs with h
    · simp [h]
    · simp [h, ih]

theorem mem_of_lookup {k : K} {v : β} {es : List (K × β)} (h : lookup k es = some v) :
    (k, v) ∈ es := by
  induction es with
  | nil => cases h
  | cons e es ih =>
    rw [lookup_cons] at h
    split_ifs at h with he
    · cases h
      rw [← he]
      exact List.mem_cons_self
    · exact List.mem_cons_of_mem _ (ih h)

/-- With at most one entry for a key, the entry is the answer. -/
theorem lookup_of_mem {k : K} {v : β} {es : List (K × β)}
    (hkeys : es.Pairwise (fun a b => a.1 ≠ b.1)) (h : (k, v) ∈ es) : lookup k es = some v := by
  induction es with
  | nil => cases h
  | cons e es ih =>
    obtain ⟨hne, hrest⟩ := List.pairwise_cons.mp hkeys
    rw [lookup_cons]
    rcases List.mem_cons.mp h with rfl | h
    · rw [if_pos rfl]
    · rw [if_neg (hne _ h), ih hrest h]

end Lookup

section Stack
variable [DecidableEq K]

/-- The entry of the newest layer that has one. The last layer is the newest. -/
def newest (k : K) : List (List (K × Option V)) → Option (Option V)
  | [] => none
  | t :: ts => (newest k ts).or (lookup k t)

/-- What a reader sees: a value, or nothing. -/
def resolve (k : K) (ts : List (List (K × Option V))) : Option V := (newest k ts).join

@[simp] theorem newest_nil (k : K) : newest k ([] : List (List (K × Option V))) = none := rfl

theorem newest_cons (k : K) (t : List (K × Option V)) (ts : List (List (K × Option V))) :
    newest k (t :: ts) = (newest k ts).or (lookup k t) := rfl

theorem newest_append (k : K) (ts us : List (List (K × Option V))) :
    newest k (ts ++ us) = (newest k us).or (newest k ts) := by
  induction ts with
  | nil => simp
  | cons t ts ih => rw [List.cons_append, newest_cons, newest_cons, ih, Option.or_assoc]

@[simp] theorem newest_singleton (k : K) (t : List (K × Option V)) :
    newest k [t] = lookup k t := rfl

theorem newest_append_singleton (k : K) (ts : List (List (K × Option V))) (t : List (K × Option V)) :
    newest k (ts ++ [t]) = (lookup k t).or (newest k ts) := newest_append k ts [t]

/-- Reading through a stack put on top of another one. -/
theorem resolve_append (k : K) (ts us : List (List (K × Option V))) :
    resolve k (ts ++ us) = (newest k us).getD (resolve k ts) := by
  rw [resolve, newest_append, resolve]
  cases newest k us <;> rfl

theorem resolve_append_nil (k : K) (ts : List (List (K × Option V))) :
    resolve k (ts ++ [[]]) = resolve k ts := by
  rw [resolve, newest_append_singleton, lookup_nil, Option.none_or, resolve]

theorem newest_eq_none_iff (k : K) (ts : List (List (K × Option V))) :
    newest k ts = none ↔ ∀ t ∈ ts, lookup k t = none := by
  induction ts with
  | nil => simp
  | cons t ts ih => simp [newest_cons, ih, and_comm]

/-- Every answer comes from one of the layers. -/
theorem exists_mem_of_newest {k : K} {x : Option V} {ts : List (List (K × Option V))}
    (h : newest k ts = some x) : ∃ t ∈ ts, lookup k t = some x := by
  induction ts with
  | nil => cases h
  | cons t ts ih =>
    rw [newest_cons, Option.or_eq_some_iff] at h
    rcases h with h | ⟨-, h⟩
    · obtain ⟨u, hu, hx⟩ := ih h
      exact ⟨u, List.mem_cons_of_mem _ hu, hx⟩
    · exact ⟨t, List.mem_cons_self, h⟩

/-- The entry that is read comes from the last layer that has one. -/
theorem newest_map_cases {α : Type*} (f : α → List (K × Option V)) (k : K) (xs : List α) :
    (∃ (i : ℕ) (x : α) (v : Option V), xs[i]? = some x ∧ lookup k (f x) = some v ∧ newest k (xs.map f) = some v ∧
      ∀ (j : ℕ) (y : α), i < j → xs[j]? = some y → lookup k (f y) = none) ∨
    (newest k (xs.map f) = none ∧ ∀ x ∈ xs, lookup k (f x) = none) := by
  induction xs using List.reverseRecOn with
  | nil => exact .inr ⟨rfl, by simp⟩
  | append_singleton xs x ih =>
    rw [List.map_append, List.map_singleton, newest_append_singleton]
    cases hx : lookup k (f x) with
    | some v =>
      refine .inl ⟨xs.length, x, v, by simp, hx, rfl, ?_⟩
      intro j y hj hy
      rw [List.getElem?_eq_none (by simp; omega)] at hy
      cases hy
    | none =>
      rcases ih with ⟨i, y, v, hi, hlookup, hnew, hlast⟩ | ⟨hnew, hall⟩
      · have hlt : i < xs.length := (List.getElem?_eq_some_iff.mp hi).1
        refine .inl ⟨i, y, v, by rw [List.getElem?_append_left hlt, hi], hlookup, hnew, ?_⟩
        intro j z hj hz
        rcases Nat.lt_trichotomy j xs.length with hjl | hjl | hjl
        · rw [List.getElem?_append_left hjl] at hz
          exact hlast j z hj hz
        · rw [hjl, List.getElem?_concat_length] at hz
          cases hz
          exact hx
        · rw [List.getElem?_eq_none (by simp; omega)] at hz
          cases hz
      · refine .inr ⟨hnew, ?_⟩
        intro y hy
        rcases List.mem_append.mp hy with hy | hy
        · exact hall y hy
        · rw [List.mem_singleton.mp hy]
          exact hx

/-- The newer part of a stack decides the keys it has. -/
theorem newest_of_suffix {k : K} {x : Option V} {ts us : List (List (K × Option V))}
    (h : us <:+ ts) (hx : newest k us = some x) : newest k ts = some x := by
  obtain ⟨old, rfl⟩ := h
  rw [newest_append, hx, Option.some_or]

/-- Searching the layers from the back, as a reader does. -/
theorem findSome?_reverse_eq_newest (k : K) (ts : List (List (K × Option V))) :
    ts.reverse.findSome? (lookup k) = newest k ts := by
  induction ts with
  | nil => rfl
  | cons t ts ih =>
    rw [List.reverse_cons, List.findSome?_append, ih, newest_cons]
    cases hl : lookup k t <;> simp [List.findSome?, hl]

/-- Layers that agree answer alike. -/
theorem newest_congr {k : K} {ts us : List (List (K × Option V))}
    (h : List.Forall₂ (fun t u => lookup k t = lookup k u) ts us) : newest k ts = newest k us := by
  induction h with
  | nil => rfl
  | cons hl _ ih => rw [newest_cons, newest_cons, hl, ih]

/-- Layers whose entries are all hidden by later layers that stay can be left out. -/
theorem newest_filter {α : Type*} (f : α → List (K × Option V)) (p : α → Bool) {k : K} {ts : List α}
    (h : ∀ as t bs, ts = as ++ t :: bs → p t = false → lookup k (f t) ≠ none →
      ∃ s ∈ bs, lookup k (f s) ≠ none) :
    newest k (ts.map f) = newest k ((ts.filter p).map f) := by
  induction ts with
  | nil => rfl
  | cons t ts ih =>
    have hrest : newest k (ts.map f) = newest k ((ts.filter p).map f) := by
      apply ih
      intro as u bs hts
      exact h (t :: as) u bs (by rw [hts, List.cons_append])
    rw [List.map_cons, newest_cons, hrest, List.filter_cons]
    split_ifs with hp
    · rw [List.map_cons, newest_cons]
    · cases hlookup : lookup k (f t) with
      | none => rw [Option.or_none]
      | some x =>
        obtain ⟨s, hs, hne⟩ := h [] t ts rfl (by simpa using hp) (by simp [hlookup])
        have hsome : newest k (ts.map f) ≠ none := by
          rw [Ne, newest_eq_none_iff]
          intro hall
          exact hne (hall _ (List.mem_map_of_mem hs))
        rw [← hrest]
        cases hnew : newest k (ts.map f) with
        | none => exact absurd hnew hsome
        | some y => rfl

end Stack

section Replace
variable [DecidableEq K]

/-- The stack `mid` holds exactly the entries of the stack `ts` that are values. -/
def LiveStack (mid ts : List (List (K × Option V))) : Prop :=
  ∀ k, newest k mid = (newest k ts).filter Option.isSome

theorem LiveStack.newest_of_newest {mid ts : List (List (K × Option V))} (h : LiveStack mid ts)
    {k : K} {x : Option V} (hx : newest k mid = some x) : newest k ts = some x := by
  rw [h k, Option.filter_eq_some_iff] at hx
  exact hx.1

theorem LiveStack.resolve_of_newest_none {mid ts : List (List (K × Option V))} (h : LiveStack mid ts)
    {k : K} (hx : newest k mid = none) : resolve k ts = none := by
  rw [h k] at hx
  unfold resolve
  cases hn : newest k ts with
  | none => rfl
  | some y =>
    rw [hn] at hx
    cases y with
    | none => rfl
    | some v => simp [Option.filter] at hx

theorem LiveStack.resolve_eq {mid ts : List (List (K × Option V))} (h : LiveStack mid ts) (k : K) :
    resolve k mid = resolve k ts := by
  cases hm : newest k mid with
  | some x => rw [resolve, resolve, hm, h.newest_of_newest hm]
  | none => rw [h.resolve_of_newest_none hm, resolve, hm, Option.join_none]

/-- Between the older and the newer part of a stack any layers may stand whose entries are
all answers of the stack: the newer part hides them where it has a say, and elsewhere they
agree with the older part. -/
theorem resolve_interpose {k : K} {old new mid : List (List (K × Option V))}
    (h : ∀ m ∈ mid, ∀ x, lookup k m = some x → newest k (old ++ new) = some x) :
    resolve k (old ++ mid ++ new) = resolve k (old ++ new) := by
  unfold resolve
  congr 1
  rw [List.append_assoc, newest_append, newest_append, newest_append]
  cases hn : newest k new with
  | some x => rfl
  | none =>
    cases hm : newest k mid with
    | none => rfl
    | some x =>
      obtain ⟨m, hmem, hx⟩ := exists_mem_of_newest hm
      have hw := h m hmem x hx
      rw [newest_append, hn, Option.none_or] at hw
      rw [hw]
      rfl

/-- Once all live entries of a stack stand between its older and its newer part, the older
part may lose its oldest layers. -/
theorem resolve_drop_old {old old' new mid : List (List (K × Option V))} (hold : old' <:+ old)
    (h : LiveStack mid (old ++ new)) (k : K) :
    resolve k (old' ++ mid ++ new) = resolve k (old ++ new) := by
  have hread : resolve k (old' ++ mid ++ new) =
      ((newest k new).or ((newest k mid).or (newest k old'))).join := by
    rw [resolve, newest_append, newest_append]
  cases hn : newest k new with
  | some x => rw [hread, hn, resolve, newest_append, hn, Option.some_or, Option.some_or]
  | none =>
    cases hm : newest k mid with
    | some x => rw [hread, hn, hm, resolve, h.newest_of_newest hm, Option.none_or, Option.some_or]
    | none =>
      cases ho : newest k old' with
      | none => rw [hread, hn, hm, ho, h.resolve_of_newest_none hm]; rfl
      | some y =>
        have hw : newest k (old ++ new) = some y := by
          rw [newest_append, hn, Option.none_or, newest_of_suffix hold ho]
        rw [hread, hn, hm, ho, resolve, hw, Option.none_or, Option.none_or]

/-- When the older part is gone, the newer part may lose its oldest layers as well. -/
theorem resolve_drop_new {old new new' mid : List (List (K × Option V))} (hnew : new' <:+ new)
    (h : LiveStack mid (old ++ new)) (k : K) : resolve k (mid ++ new') = resolve k (old ++ new) := by
  cases hn : newest k new' with
  | some x =>
    rw [resolve, newest_append, hn, resolve, newest_append, newest_of_suffix hnew hn, Option.some_or,
      Option.some_or]
  | none => rw [← h.resolve_eq k, resolve, newest_append, hn, Option.none_or, resolve]

/-- Layers with one joint entry per key answer as their concatenation does. -/
theorem newest_eq_lookup_flatten {mid : List (List (K × Option V))}
    (h : mid.flatten.Pairwise (fun a b => a.1 ≠ b.1)) (k : K) :
    newest k mid = lookup k mid.flatten := by
  induction mid with
  | nil => rfl
  | cons m mid ih =>
    rw [List.flatten_cons] at h ⊢
    obtain ⟨-, hrest, hcross⟩ := List.pairwise_append.mp h
    rw [newest_cons, ih hrest, lookup_append]
    cases hm : lookup k m with
    | none => simp
    | some x =>
      have hnone : lookup k mid.flatten = none := by
        rw [lookup_eq_none_iff]
        intro e he heq
        exact hcross _ (mem_of_lookup hm) e he heq.symm
      simp [hnone]

end Replace

section Sorted
variable [LinearOrder K] {β : Type*}

/-- Keys strictly increase. -/
def Sorted (es : List (K × β)) : Prop := es.Pairwise fun a b => a.1 < b.1

instance (es : List (K × β)) : Decidable (Sorted es) := List.instDecidablePairwise es

/-- Insertion into a sorted layer, in the place of an older entry if there is one. -/
def upsert (k : K) (v : β) (es : List (K × β)) : List (K × β) :=
  es.filter (·.1 < k) ++ (k, v) :: es.filter (k < ·.1)

theorem Sorted.keys_ne {es : List (K × β)} (h : Sorted es) : es.Pairwise fun a b => a.1 ≠ b.1 :=
  List.Pairwise.imp (fun hab => ne_of_lt hab) h

theorem mem_upsert {k : K} {v : β} {es : List (K × β)} {e : K × β} :
    e ∈ upsert k v es ↔ e = (k, v) ∨ e ∈ es ∧ e.1 ≠ k := by
  rw [upsert, List.mem_append, List.mem_cons, List.mem_filter, List.mem_filter]
  simp only [decide_eq_true_eq, ne_iff_lt_or_gt]
  tauto

theorem mem_of_mem_upsert {k : K} {v : β} {es : List (K × β)} {e : K × β} (h : e ∈ upsert k v es) :
    e ∈ es ∨ e = (k, v) := by
  rcases mem_upsert.mp h with heq | hmem
  · exact .inr heq
  · exact .inl hmem.1

theorem sorted_upsert {es : List (K × β)} (h : Sorted es) (k : K) (v : β) : Sorted (upsert k v es) := by
  rw [Sorted, upsert, List.pairwise_append]
  refine ⟨h.filter _, List.pairwise_cons.mpr ⟨?_, h.filter _⟩, ?_⟩
  · intro e he
    simpa using (List.mem_filter.mp he).2
  · intro e he f hf
    have hlt : e.1 < k := by simpa using (List.mem_filter.mp he).2
    rcases List.mem_cons.mp hf with rfl | hf
    · exact hlt
    · exact hlt.trans (by simpa using (List.mem_filter.mp hf).2)

/-- Sorted layers with the same entries are the same. -/
theorem Sorted.eq_of_mem_iff {es fs : List (K × β)} (h : Sorted es) (h' : Sorted fs)
    (hmem : ∀ e, e ∈ es ↔ e ∈ fs) : es = fs := by
  have hirrefl : Std.Irrefl fun a b : K × β => a.1 < b.1 := ⟨fun a => lt_irrefl a.1⟩
  have hasymm : Std.Antisymm fun a b : K × β => a.1 < b.1 := ⟨fun a b hab hba => absurd hba hab.asymm⟩
  exact List.Pairwise.eq_of_mem_iff h h' (fun {e} => hmem e)

/-- Where the entries of the key stand in a sorted layer, the new one takes their place. -/
theorem upsert_append {k : K} (v : β) (as mid bs : List (K × β)) (has : ∀ e ∈ as, e.1 < k)
    (hmid : ∀ e ∈ mid, e.1 = k) (hbs : ∀ e ∈ bs, k < e.1) :
    upsert k v (as ++ mid ++ bs) = as ++ (k, v) :: bs := by
  have hsmall : (as ++ mid ++ bs).filter (·.1 < k) = as := by
    rw [List.filter_append, List.filter_append,
      List.filter_eq_self.mpr (fun e he => by simpa using has e he),
      List.filter_eq_nil_iff.mpr (fun e he => by simp [hmid e he]),
      List.filter_eq_nil_iff.mpr (fun e he => by simpa using (hbs e he).le)]
    simp
  have hlarge : (as ++ mid ++ bs).filter (k < ·.1) = bs := by
    rw [List.filter_append, List.filter_append,
      List.filter_eq_nil_iff.mpr (fun e he => by simpa using (has e he).le),
      List.filter_eq_nil_iff.mpr (fun e he => by simp [hmid e he]),
      List.filter_eq_self.mpr (fun e he => by simpa using hbs e he)]
    simp
  rw [upsert, hsmall, hlarge]

theorem lookup_filter (p : K → Bool) (k : K) (es : List (K × β)) :
    lookup k (es.filter (p ·.1)) = if p k then lookup k es else none := by
  induction es with
  | nil => simp
  | cons e es ih =>
    rw [List.filter_cons]
    split_ifs with he hk hk
    · simp only [lookup_cons, ih, hk, if_true]
    · have hne : e.1 ≠ k := by rintro rfl; exact hk he
      simp [lookup_cons, ih, hk, hne]
    · have hne : e.1 ≠ k := by rintro rfl; exact he hk
      simp [lookup_cons, ih, hk, hne]
    · simp [ih, hk]

theorem lookup_upsert (k : K) (v : β) (es : List (K × β)) (j : K) :
    lookup j (upsert k v es) = if j = k then some v else lookup j es := by
  rw [upsert, lookup_append, lookup_cons, lookup_filter (· < k), lookup_filter (k < ·)]
  rcases lt_trichotomy j k with hlt | rfl | hgt
  · cases lookup j es <;> simp [hlt, hlt.ne, hlt.ne']
  · simp
  · cases lookup j es <;> simp [hgt, hgt.asymm, hgt.ne, hgt.ne']

/-- A weight summed over a sorted layer changes by the entry that goes and the one that comes. -/
theorem Sorted.sum_upsert (f : K × β → ℕ) {es : List (K × β)} (h : Sorted es) (k : K) (v : β) :
    ((upsert k v es).map f).sum + (lookup k es).elim 0 (fun x => f (k, x)) =
      (es.map f).sum + f (k, v) := by
  have hsplit : ((es.filter (·.1 < k)).map f).sum + ((es.filter (k < ·.1)).map f).sum +
      (lookup k es).elim 0 (fun x => f (k, x)) = (es.map f).sum := by
    induction es with
    | nil => rfl
    | cons e es ih =>
      obtain ⟨hhead, hrest⟩ := List.pairwise_cons.mp h
      have hsum := ih hrest
      rcases lt_trichotomy e.1 k with hlt | heq | hgt
      · simp only [List.filter_cons, hlt, hlt.asymm, lookup_cons, hlt.ne, decide_true, decide_false,
          if_true, if_false, Bool.false_eq_true, List.map_cons, List.sum_cons]
        omega
      · have hnone : lookup k es = none := by
          rw [lookup_eq_none_iff]
          intro a ha hak
          have := hhead a ha
          rw [heq, hak] at this
          exact lt_irrefl _ this
        rw [hnone] at hsum
        obtain ⟨a, w⟩ := e
        subst heq
        simp only [List.filter_cons, lt_irrefl, lookup_cons, decide_false, if_true, if_false,
          Bool.false_eq_true, List.map_cons, List.sum_cons, Option.elim_none, Option.elim_some] at hsum ⊢
        omega
      · simp only [List.filter_cons, hgt, hgt.asymm, lookup_cons, hgt.ne', decide_true, decide_false,
          if_true, if_false, Bool.false_eq_true, List.map_cons, List.sum_cons]
        omega
  rw [upsert, List.map_append, List.map_cons, List.sum_append, List.sum_cons]
  omega

theorem Sorted.length_upsert {es : List (K × β)} (h : Sorted es) (k : K) (v : β) :
    (upsert k v es).length + (if (lookup k es).isSome then 1 else 0) = es.length + 1 := by
  have hsum := h.sum_upsert (fun _ => 1) k v
  simp only [List.map_const', List.sum_replicate_nat, Nat.mul_one] at hsum
  cases hlookup : lookup k es with
  | none => simpa [hlookup] using hsum
  | some x => simpa [hlookup] using hsum

end Sorted

end LsmTree.LayeredMap
