import LsmTree.EngineRefinement

/-!
# How large the log gets

A flush is triggered by the byte total of the memtable, and clears the log. The total
counts the current entry of every key; the log keeps a padded record for every write. So
a write to a key that is already in the memtable grows the log by its whole record, and
takes the value it displaces out of the total. The log is bounded by the memtable limit
and by what such writes add, and without a bound on these it outgrows what recovery
accepts.
-/

namespace LsmTree
open LittleEndian LayeredMap Merge

/-- The calls of a client that only writes. -/
def writeCalls (ws : List (Op × Height)) : List Call := ws.map fun w => .write w.1 w.2

/-- Whichever of its records have landed, the log is not refused for its size. -/
def Engine.LogRecoverable (e : Engine) : Prop :=
  ∀ log : List Wal.Slot, log.map (·.entry) = e.log.map (·.entry) →
    (Wal.image log).length ≤ Wal.maxRecoveryBytes

/-- An engine with the default memtable limit can recover its log after these writes. -/
def LogBounded (ws : List (Op × Height)) : Prop :=
  ∃ e, (Engine.fresh Memtable.defaultMaxBytes).calls (writeCalls ws) = .ok e ∧ e.LogRecoverable

/-- What a write adds to the log without adding it to the memtable, or takes from the memtable
without taking it from the log. -/
def Engine.surplus (e : Engine) (op : Op) : ℕ :=
  match lookup op.key e.memtable.entries with
  | none => 0
  | some old => op.entry.alignedSize + valueBytes old

def maxSurplus : ℕ := Wal.maxRecoveryBytes - 66 * Memtable.defaultMaxBytes

/-- The surplus since the last flush, after one more write. -/
def Engine.nextSurplus (e : Engine) (acc : ℕ) (op : Op) (height : Height) : ℕ :=
  if ¬ op.entry.Fits then acc
  else if (e.flushing (.write op height)).isSome then 0
  else acc + e.surplus op

/-- Between two flushes the writes to keys that are already in the memtable stay within the room
there is for them, and every compaction is in range. -/
def Engine.SurplusBounded : Engine → ℕ → List (Op × Height) → Prop
  | _, _, [] => True
  | e, acc, (op, height) :: ws =>
    e.InRange (.write op height) ∧ e.nextSurplus acc op height ≤ maxSurplus ∧
    match e.write op height with
    | .error _ => True
    | .ok e' => e'.SurplusBounded (e.nextSurplus acc op height) ws

instance Engine.SurplusBounded.decidable :
    (e : Engine) → (acc : ℕ) → (ws : List (Op × Height)) → Decidable (e.SurplusBounded acc ws)
  | _, _, [] => isTrue trivial
  | e, acc, (op, height) :: ws =>
    have : Decidable (match e.write op height with
        | .error _ => True
        | .ok e' => e'.SurplusBounded (e.nextSurplus acc op height) ws) :=
      match e.write op height with
      | .error _ => isTrue trivial
      | .ok e' => Engine.SurplusBounded.decidable e' _ ws
    inferInstanceAs (Decidable (_ ∧ _ ∧ _))

namespace Engine

/-- The log is paid for by the memtable, entry by entry, and by the surplus. -/
structure Accounted (e : Engine) (acc : ℕ) : Prop where
  limit : e.memtable.maxBytes = Memtable.defaultMaxBytes
  used_lt : usedBytes e.memtable.entries < Memtable.defaultMaxBytes
  log_le : Wal.writeOffset e.log ≤
    usedBytes e.memtable.entries + 516 * e.memtable.entries.length + acc
  acc_le : acc ≤ maxSurplus

theorem Accounted.logRecoverable {e : Engine} {acc : ℕ} (h : e.Accounted acc) : e.LogRecoverable := by
  intro log hlog
  have hoffset := Wal.writeOffset_congr hlog
  have himage := Wal.image_length_le log
  have hlength := eight_mul_length_le e.memtable.entries
  obtain ⟨-, hused, hlog, hacc⟩ := h
  unfold maxSurplus Wal.maxRecoveryBytes Memtable.defaultMaxBytes at *
  omega

theorem alignedSize_entry_le (op : Op) :
    op.entry.alignedSize ≤ entryBytes (op.key, op.value) + 516 := by
  have hsize : op.entry.size + 8 = entryBytes (op.key, op.value) + 13 := by
    cases op with
    | put k v =>
      simp only [Op.entry, Wal.Entry.size, entryBytes, Op.key, Op.value, Key.size, valueBytes,
        Option.elim_some]
      omega
    | del k =>
      simp only [Op.entry, Wal.Entry.size, entryBytes, Op.key, Op.value, Key.size, valueBytes,
        Option.elim_none, List.length_nil]
      omega
  unfold Wal.Entry.alignedSize Wal.align
  omega

/-- A logged write is paid for by the entry it adds or by its surplus. -/
theorem Accounted.log_append {e : Engine} {acc : ℕ} (h : e.Accounted acc) (op : Op)
    (height : Height) :
    Wal.writeOffset (e.append op height).log ≤ usedBytes (e.append op height).memtable.entries +
      516 * (e.append op height).memtable.entries.length + (acc + e.surplus op) := by
  have hrecord := alignedSize_entry_le op
  have hlog := h.log_le
  have hbytes := e.memtable.sorted_entries.sum_upsert entryBytes op.key op.value
  have hcount := e.memtable.sorted_entries.sum_upsert (fun _ => 1) op.key op.value
  simp only [List.map_const', List.sum_replicate, Nat.nsmul_eq_mul, Nat.mul_one] at hcount
  have hoffset : Wal.writeOffset (e.append op height).log =
      Wal.writeOffset e.log + op.entry.alignedSize := by
    simp [Engine.append, Wal.writeOffset_append]
  have hentries : (e.append op height).memtable.entries = upsert op.key op.value e.memtable.entries :=
    Memtable.entries_update _ _ _ _
  rw [hoffset, hentries, surplus]
  simp only [usedBytes] at hlog ⊢
  cases hlookup : lookup op.key e.memtable.entries with
  | none =>
    simp only [hlookup, Option.elim_none] at hbytes hcount ⊢
    omega
  | some old =>
    simp only [hlookup, Option.elim_some, entryBytes] at hbytes hcount hrecord ⊢
    omega

theorem usedBytes_append_lt {e : Engine} {acc : ℕ} (h : e.Accounted acc) {op : Op}
    (hfits : op.entry.Fits) (height : Height) :
    usedBytes (e.append op height).memtable.entries < 2 ^ 64 := by
  have hbytes := e.memtable.sorted_entries.sum_upsert entryBytes op.key op.value
  have hused := h.used_lt
  have hentry : entryBytes (op.key, op.value) ≤ 2 ^ 34 := by
    obtain ⟨hkey, hvalue⟩ := hfits
    unfold Wal.maxFieldBytes at hkey hvalue
    cases op with
    | put k v =>
      simp only [Op.entry, entryBytes, Op.key, Op.value, Key.size, valueBytes,
        Option.elim_some] at hkey hvalue ⊢
      omega
    | del k =>
      simp only [Op.entry, entryBytes, Op.key, Op.value, Key.size, valueBytes,
        Option.elim_none] at hkey hvalue ⊢
      omega
  have hentries : (e.append op height).memtable.entries = upsert op.key op.value e.memtable.entries :=
    Memtable.entries_update _ _ _ _
  rw [hentries]
  simp only [usedBytes, Memtable.defaultMaxBytes] at hused ⊢
  omega

theorem Accounted.write {e e' : Engine} {acc : ℕ} (h : e.Accounted acc) (hsteady : e.Steady) {op : Op}
    {height : Height} (hsurplus : e.nextSurplus acc op height ≤ maxSurplus)
    (he : e.write op height = .ok e') : e'.Accounted (e.nextSurplus acc op height) := by
  unfold nextSurplus flushing at *
  unfold Engine.write at he
  by_cases hfits : op.entry.Fits
  · rw [if_pos hfits] at he
    by_cases hfull : (e.append op height).memtable.isFull = true
    · rw [if_pos hfull] at he
      obtain ⟨-, -, hnil, -, hlog⟩ := (hsteady.append op height).toOrdered.flushMemtable he
      have hlimit : e'.memtable.maxBytes = Memtable.defaultMaxBytes := by
        rw [maxBytes_flushMemtable he]
        exact h.limit
      simp only [hfits, hfull, not_true_eq_false, if_false, and_self, if_true, Option.isSome_some]
      refine ⟨hlimit, ?_, ?_, Nat.zero_le _⟩
      · rw [hnil]
        decide
      · rw [hlog (entries_append_ne_nil e op height)]
        exact Nat.zero_le _
    · rw [if_neg hfull] at he
      cases he
      simp only [hfits, hfull, not_true_eq_false, if_false, and_false, Option.isSome_none,
        Bool.false_eq_true] at hsurplus ⊢
      refine ⟨h.limit, ?_, h.log_append op height, hsurplus⟩
      have hlt := usedBytes_append_lt h hfits height
      rw [Memtable.isFull_iff, Nat.mod_eq_of_lt hlt] at hfull
      have hmax : (e.append op height).memtable.maxBytes = Memtable.defaultMaxBytes := h.limit
      rw [hmax] at hfull
      exact Nat.lt_of_not_le hfull
  · rw [if_neg hfits] at he
    cases he
    simpa only [hfits, not_false_eq_true, if_true] using h

theorem Accounted.calls {e : Engine} {acc : ℕ} (h : e.Accounted acc) (hsteady : e.Steady)
    {ws : List (Op × Height)} (hbound : e.SurplusBounded acc ws) :
    ∃ e', e.calls (writeCalls ws) = .ok e' ∧ e'.LogRecoverable := by
  induction ws generalizing e acc with
  | nil => exact ⟨e, rfl, h.logRecoverable⟩
  | cons w ws ih =>
    obtain ⟨op, height⟩ := w
    obtain ⟨hrange, hsurplus, hrest⟩ := hbound
    obtain ⟨f, hf⟩ := hsteady.call_isOk hrange
    have hf' : e.write op height = .ok f := hf
    rw [hf'] at hrest
    obtain ⟨e', he', hlog⟩ := ih (h.write hsteady hsurplus hf') (hsteady.call hf).1 hrest
    refine ⟨e', ?_, hlog⟩
    rw [writeCalls, List.map_cons, Engine.calls, hf]
    exact he'

theorem SurplusBounded.take {e : Engine} {acc : ℕ} {ws : List (Op × Height)}
    (h : e.SurplusBounded acc ws) (n : ℕ) : e.SurplusBounded acc (ws.take n) := by
  induction ws generalizing e acc n with
  | nil => rwa [List.take_nil]
  | cons w ws ih =>
    cases n with
    | zero => trivial
    | succ n =>
      obtain ⟨hrange, hsurplus, hrest⟩ := h
      refine ⟨hrange, hsurplus, ?_⟩
      cases hwrite : e.write w.1 w.2 with
      | error f => trivial
      | ok e' =>
        rw [hwrite] at hrest
        exact ih hrest n

end Engine

/-- The log stays recoverable after every write of a run that stays within the surplus. -/
theorem logBounded_of_surplusBounded (ws : List (Op × Height))
    (h : (Engine.fresh Memtable.defaultMaxBytes).SurplusBounded 0 ws) (n : ℕ) :
    LogBounded (ws.take n) := by
  have haccounted : (Engine.fresh Memtable.defaultMaxBytes).Accounted 0 := by
    refine ⟨rfl, ?_, Nat.zero_le _, Nat.zero_le _⟩
    rw [Engine.fresh, Memtable.entries_new]
    decide
  exact haccounted.calls (Engine.steady_fresh _) (h.take n)

theorem logBounded_overwrite :
    LogBounded ([(.put (.ofBytes [1]) [2], 0), (.del (.ofBytes [1]), 0), (.put (.ofBytes [3]) [4], 2)].take 3) :=
  logBounded_of_surplusBounded _ (by decide +kernel) 3

/-- Putting the same small entry again leaves the memtable as it is. -/
theorem Memtable.entries_put_again {m : Memtable}
    (h : m.entries = [] ∨ m.entries = [(.ofBytes [1], some [2])]) :
    (m.update (.ofBytes [1]) (some [2]) 0).entries = [(.ofBytes [1], some [2])] := by
  rw [Memtable.entries_update]
  rcases h with hnil | hone
  · rw [hnil]
    rfl
  · rw [hone]
    exact upsert_append _ [] [_] [] (by simp) (by simp) (by simp)

theorem Memtable.isFull_put_again {m : Memtable} (hlimit : m.maxBytes = Memtable.defaultMaxBytes)
    (h : m.entries = [] ∨ m.entries = [(.ofBytes [1], some [2])]) :
    (m.update (.ofBytes [1]) (some [2]) 0).isFull = false := by
  rw [Bool.eq_false_iff, Ne, Memtable.isFull_iff, Memtable.entries_put_again h, Memtable.maxBytes_update,
    hlimit]
  decide +kernel

namespace Engine

/-- Writing one small key over and over fills the log and nothing else. -/
theorem calls_replicate_put {e : Engine} {n : ℕ}
    (hlimit : e.memtable.maxBytes = Memtable.defaultMaxBytes)
    (hentries : e.memtable.entries = [] ∨ e.memtable.entries = [(.ofBytes [1], some [2])]) :
    ∃ e', e.calls (writeCalls (List.replicate n (.put (.ofBytes [1]) [2], 0))) = .ok e' ∧
      e'.log.map (·.entry) = e.log.map (·.entry) ++ List.replicate n ⟨.put, [1], [2]⟩ := by
  induction n generalizing e with
  | zero => exact ⟨e, rfl, by simp⟩
  | succ n ih =>
    let f := e.append (.put (.ofBytes [1]) [2]) 0
    have hf : f.memtable.entries = [(.ofBytes [1], some [2])] := Memtable.entries_put_again hentries
    have hlimit' : f.memtable.maxBytes = Memtable.defaultMaxBytes := hlimit
    have hwrite : e.call (.write (.put (.ofBytes [1]) [2]) 0) = .ok f := by
      have hfits : (Op.put (.ofBytes [1]) [2]).entry.Fits := by decide
      have hfull : f.memtable.isFull = false := Memtable.isFull_put_again hlimit hentries
      rw [Engine.call, Engine.write, if_pos hfits, if_neg (Bool.eq_false_iff.mp hfull)]
    obtain ⟨e', he', hlog⟩ := ih hlimit' (.inr hf)
    refine ⟨e', ?_, ?_⟩
    · rw [List.replicate_succ, writeCalls, List.map_cons, Engine.calls, hwrite]
      exact he'
    · rw [hlog, List.replicate_succ]
      simp [f, Engine.append, Op.entry]

/-- Once all records have landed, enough small ones are refused. -/
theorem not_logRecoverable_of_small {e : Engine} {n : ℕ}
    (hlog : e.log.map (·.entry) = List.replicate n ⟨.put, [1], [2]⟩)
    (hn : Wal.maxRecoveryBytes < n * 512) : ¬ e.LogRecoverable := by
  intro hrecoverable
  have hle := hrecoverable (List.replicate n ⟨⟨.put, [1], [2]⟩, .landed⟩) (by simp [hlog])
  have hsize : Wal.Entry.alignedSize ⟨.put, [1], [2]⟩ = 512 := by decide
  rw [Wal.image_of_all_landed (fun s hs => by rw [List.eq_of_mem_replicate hs]),
    Wal.length_encodeLog, List.map_replicate, List.map_replicate, List.sum_replicate, hsize,
    Nat.nsmul_eq_mul] at hle
  omega

end Engine

/-- One small key is put two million times: no flush, and a log of more than 1 GiB. -/
theorem not_logBounded_replicate :
    ¬ LogBounded (List.replicate 2097153 (.put (.ofBytes [1]) [2], 0)) := by
  rintro ⟨e, he, hlog⟩
  obtain ⟨e', he', hentries⟩ := Engine.calls_replicate_put
    (e := Engine.fresh Memtable.defaultMaxBytes) (n := 2097153) rfl (.inl (Memtable.entries_new _))
  rw [he] at he'
  cases he'
  exact Engine.not_logRecoverable_of_small hentries (by decide) hlog

end LsmTree
