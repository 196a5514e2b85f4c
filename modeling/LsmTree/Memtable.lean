import LsmTree.LittleEndian
import LsmTree.SkipList
import Mathlib.Algebra.BigOperators.Group.List.Basic
import Mathlib.Data.List.Lex

/-!
# The memtable

Keys are byte strings in the order of `std::string`: bytes compare as unsigned numbers,
strings lexicographically. A memtable is a skip list together with a byte total and an
entry count, both kept up to date by every insertion. Its contents are a sorted layer
with at most one entry per key; a deletion is an entry without a value.
-/

namespace LsmTree
open LittleEndian LayeredMap

instance byteOrder : LinearOrder UInt8 where
  le_refl := UInt8.le_refl
  le_trans := fun _ _ _ => UInt8.le_trans
  le_antisymm := fun _ _ => UInt8.le_antisymm
  le_total := UInt8.le_total
  lt_iff_le_not_ge := by
    intro a b
    simp only [UInt8.lt_iff_toNat_lt, UInt8.le_iff_toNat_le]
    omega
  toDecidableLE := inferInstance
  toDecidableEq := inferInstance
  toDecidableLT := inferInstance

def Key : Type := Bytes

def Key.ofBytes (b : Bytes) : Key := b

def Key.bytes (k : Key) : Bytes := k

@[simp] theorem Key.bytes_ofBytes (b : Bytes) : (Key.ofBytes b).bytes = b := rfl

instance : LinearOrder Key := inferInstanceAs (LinearOrder (List UInt8))

instance : Inhabited Key := ⟨.ofBytes []⟩

instance : Repr Key := inferInstanceAs (Repr (List UInt8))

/-- `key.size()`. -/
def Key.size (k : Key) : ℕ := k.bytes.length

/-- The bytes of a value; a tombstone holds none. -/
def valueBytes (v : Option Bytes) : ℕ := v.elim 0 List.length

/-- What an entry of the memtable counts for. -/
def entryBytes (e : Key × Option Bytes) : ℕ := e.1.size + valueBytes e.2 + 8

def usedBytes (es : List (Key × Option Bytes)) : ℕ := (es.map entryBytes).sum

/-- Every entry costs eight bytes at least. -/
theorem eight_mul_length_le (es : List (Key × Option Bytes)) : 8 * es.length ≤ usedBytes es := by
  induction es with
  | nil => rfl
  | cons e es ih =>
    simp only [usedBytes, List.map_cons, List.sum_cons, entryBytes, List.length_cons] at ih ⊢
    omega

/-- What `randomHeight` draws: `h` stands for a node of `h + 1` levels. -/
abbrev Height := Fin SkipList.maxHeight

instance neZeroMaxHeight : NeZero SkipList.maxHeight := ⟨by decide⟩

/-- `Memtable`. The byte total is a `size_t`. -/
structure Memtable where
  list : SkipList Key Bytes
  maxBytes : ℕ
  currentBytes : ℕ
  count : ℕ
  valid : ∃ order, list.Valid order
  currentBytes_eq : currentBytes = usedBytes list.toList % 2 ^ 64
  count_eq : count = list.toList.length

namespace Memtable

/-- `DEFAULT_MAX_BYTES`, 4 MiB. -/
def defaultMaxBytes : ℕ := 4 * 1024 * 1024

/-- What iteration from `begin()` to `end()` yields. -/
def entries (m : Memtable) : List (Key × Option Bytes) := m.list.toList

def new (maxBytes : ℕ) : Memtable where
  list := .empty
  maxBytes := maxBytes
  currentBytes := 0
  count := 0
  valid := ⟨[], .empty⟩
  currentBytes_eq := by simp [SkipList.Valid.empty.toList_eq, SkipList.entriesOf, usedBytes]
  count_eq := by simp [SkipList.Valid.empty.toList_eq, SkipList.entriesOf]

/-- `adjustValueBytes`. -/
def adjustValueBytes (total oldBytes newBytes : ℕ) : ℕ :=
  if oldBytes ≤ newBytes then (total + (newBytes - oldBytes)) % 2 ^ 64
  else (total + (2 ^ 64 - (oldBytes - newBytes) % 2 ^ 64)) % 2 ^ 64

/-- The byte total after an insertion. -/
def chargedBytes (total : ℕ) (r : SkipList.InsertResult Bytes) (key : Key) (value : Option Bytes) :
    ℕ :=
  if r.inserted then (total + (key.size + valueBytes value + 8)) % 2 ^ 64
  else adjustValueBytes total (valueBytes r.replaced) (valueBytes value)

theorem sorted_entries (m : Memtable) : Sorted m.entries := by
  obtain ⟨order, h⟩ := m.valid
  exact h.sorted_toList

theorem insert_spec (m : Memtable) (key : Key) (value : Option Bytes) (height : Height) :
    (∃ order, (m.list.insert key value (height + 1)).1.Valid order) ∧
    (m.list.insert key value (height + 1)).1.toList = upsert key value m.entries ∧
    (m.list.insert key value (height + 1)).2.inserted = (lookup key m.entries).isNone ∧
    (m.list.insert key value (height + 1)).2.replaced = (lookup key m.entries).join := by
  obtain ⟨order, h⟩ := m.valid
  exact h.insert key value (Nat.succ_pos _)

theorem chargedBytes_eq (m : Memtable) (key : Key) (value : Option Bytes) (height : Height) :
    chargedBytes m.currentBytes (m.list.insert key value (height + 1)).2 key value =
      usedBytes (upsert key value m.entries) % 2 ^ 64 := by
  obtain ⟨-, -, hinserted, hreplaced⟩ := m.insert_spec key value height
  have hsum := m.sorted_entries.sum_upsert entryBytes key value
  have hbytes : m.currentBytes = usedBytes m.entries % 2 ^ 64 := m.currentBytes_eq
  rw [chargedBytes, hinserted, hreplaced, hbytes]
  simp only [usedBytes] at hsum ⊢
  cases hlookup : lookup key m.entries with
  | none =>
    simp only [hlookup, Option.elim_none, entryBytes, Option.isNone_none, if_true] at hsum ⊢
    omega
  | some old =>
    simp only [hlookup, Option.elim_some, entryBytes, Option.isNone_some, Bool.false_eq_true,
      if_false, Option.join_some, adjustValueBytes] at hsum ⊢
    split_ifs
    · omega
    · omega

/-- Insertion of a value or a tombstone with the accounting of `put` and `del`. -/
def update (m : Memtable) (key : Key) (value : Option Bytes) (height : Height) : Memtable where
  list := (m.list.insert key value (height + 1)).1
  maxBytes := m.maxBytes
  currentBytes := chargedBytes m.currentBytes (m.list.insert key value (height + 1)).2 key value
  count := if (m.list.insert key value (height + 1)).2.inserted then m.count + 1 else m.count
  valid := (m.insert_spec key value height).1
  currentBytes_eq := by
    rw [m.chargedBytes_eq, (m.insert_spec key value height).2.1]
  count_eq := by
    obtain ⟨-, hlist, hinserted, -⟩ := m.insert_spec key value height
    have hlength := m.sorted_entries.length_upsert key value
    have hcount : m.count = m.entries.length := m.count_eq
    rw [hlist, hinserted, hcount]
    cases hlookup : lookup key m.entries with
    | none => simpa [hlookup] using hlength.symm
    | some old => simpa [hlookup] using hlength.symm

def put (m : Memtable) (key : Key) (value : Bytes) (height : Height) : Memtable :=
  m.update key (some value) height

def del (m : Memtable) (key : Key) (height : Height) : Memtable := m.update key none height

/-- A value, a tombstone, or nothing. -/
def get (m : Memtable) (key : Key) : Option (Option Bytes) :=
  (m.list.find key).2.map fun n => (m.list.node n).value

/-- What iteration from `seek(key)` to `end()` yields. -/
def seek (m : Memtable) (key : Key) : List (Key × Option Bytes) := m.list.seek key

def isFull (m : Memtable) : Bool := m.maxBytes ≤ m.currentBytes

def empty (m : Memtable) : Bool := m.count = 0

@[simp] theorem entries_new (maxBytes : ℕ) : (new maxBytes).entries = [] :=
  SkipList.Valid.empty.toList_eq

@[simp] theorem entries_update (m : Memtable) (key : Key) (value : Option Bytes) (height : Height) :
    (m.update key value height).entries = upsert key value m.entries :=
  (m.insert_spec key value height).2.1

@[simp] theorem maxBytes_update (m : Memtable) (key : Key) (value : Option Bytes) (height : Height) :
    (m.update key value height).maxBytes = m.maxBytes := rfl

theorem get_eq (m : Memtable) (key : Key) : m.get key = lookup key m.entries := by
  obtain ⟨order, h⟩ := m.valid
  exact h.find_value key

theorem seek_eq (m : Memtable) (key : Key) : m.seek key = m.entries.filter (key ≤ ·.1) := by
  obtain ⟨order, h⟩ := m.valid
  exact h.seek_eq key

theorem empty_iff (m : Memtable) : m.empty = true ↔ m.entries = [] := by
  rw [empty, decide_eq_true_iff, m.count_eq, List.length_eq_zero_iff]
  rfl

theorem isFull_iff (m : Memtable) :
    m.isFull = true ↔ m.maxBytes ≤ usedBytes m.entries % 2 ^ 64 := by
  rw [isFull, decide_eq_true_iff, m.currentBytes_eq]
  rfl

end Memtable

end LsmTree
