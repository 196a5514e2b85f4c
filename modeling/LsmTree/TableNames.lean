import LsmTree.Compaction
import Mathlib.Data.List.TakeWhile

/-!
# The names of table files

A table file is named by its level and its counter, the counter padded with zeros to at
least six places. Two functions make such names. Three parsers read them again: the one of
`loadSSTables`, which takes the whole name apart and checks it, and the two the compactor
numbers its outputs with, which look for the last dash or cut off a fixed prefix and leave
the rest to `std::stoi`. On a name that was made from a level and a counter in the range of
`int`, each of them finds what the name was made from.
-/

namespace LsmTree.Naming

/-- A file name, without the path of its directory. -/
abbrev Name := List Char

/-! ### Making names -/

/-- `std::setw` with `std::setfill`. -/
def setw (width : ℕ) (fill : Char) (s : Name) : Name := List.replicate (width - s.length) fill ++ s

/-- An `int` as `operator<<` writes it. -/
def intChars : ℤ → Name
  | .ofNat n => Nat.toDigits 10 n
  | .negSucc n => '-' :: Nat.toDigits 10 (n + 1)

def prefixChars : Name := ['s', 's', 't', '-']

def suffixChars : Name := ['.', 's', 's', 't']

def tableFile (level counter : ℤ) : Name :=
  prefixChars ++ (intChars level ++ '-' :: (setw 6 '0' (intChars counter) ++ suffixChars))

/-- `LSMEngine::sstPath`. -/
def sstPath (level counter : ℤ) : Name := tableFile level counter

/-- `LeveledCompactor::makeSSTPath`. -/
def makeSSTPath (level counter : ℤ) : Name := tableFile level counter

/-! ### Taking names apart -/

/-- `std::filesystem::path::stem` and `extension` of a file name. -/
def splitExtension (name : Name) : Name × Name :=
  let ext := name.reverse.takeWhile (· ≠ '.')
  match name.reverse.drop ext.length with
  | [] => (name, [])
  | [_] => (name, [])
  | _ :: stem => (stem.reverse, '.' :: ext.reverse)

def isSpace (c : Char) : Bool := c ∈ [' ', '\t', '\n', '\x0b', '\x0c', '\r']

/-- `std::strtol`, base 10: white space, a sign, and the digits that follow; nothing if there are
none. What comes after them is not looked at. -/
def strtol (s : Name) : Option ℤ :=
  let s := s.dropWhile isSpace
  let unsigned := if s.head? = some '-' ∨ s.head? = some '+' then s.drop 1 else s
  let digits := unsigned.takeWhile Char.isDigit
  if digits = [] then none
  else if s.head? = some '-' then some (-(Nat.ofDigitChars 10 digits 0 : ℤ))
  else some (Nat.ofDigitChars 10 digits 0 : ℤ)

/-- `std::stoi`; nothing stands for an exception. -/
def stoi (s : Name) : Option ℤ := (strtol s).filter fun n => decide (-(2 ^ 31) ≤ n ∧ n ≤ intMax)

/-- `std::stoll`. -/
def stoll (s : Name) : Option ℤ := (strtol s).filter fun n => decide (-(2 ^ 63) ≤ n ∧ n ≤ 2 ^ 63 - 1)

def allDigits (s : Name) : Bool := decide (s ≠ []) && s.all Char.isDigit

/-- The level and the counter `loadSSTables` finds in a file name; nothing for a file it skips. -/
def loadName (file : Name) : Option (ℤ × ℤ) :=
  let stem := (splitExtension file).1
  if (splitExtension file).2 ≠ suffixChars then none
  else if ¬ prefixChars <+: stem then none
  else
    let levelStr := (stem.drop 4).takeWhile (· ≠ '-')
    match (stem.drop 4).drop levelStr.length with
    | [] => none
    | _ :: counterStr =>
      if ¬ (allDigits levelStr && allDigits counterStr) then none
      else
        match stoll levelStr, stoll counterStr with
        | some level, some counter => if intMax < level ∨ intMax < counter then none else some (level, counter)
        | _, _ => none

/-- The test by which the compactor takes a table for one of level 0. -/
def isL0 (file : Name) : Bool := decide (['s', 's', 't', '-', '0', '-'] <+: file)

def isL1 (file : Name) : Bool := decide (['s', 's', 't', '-', '1', '-'] <+: file)

/-- The number of a level 1 table in the list: what follows the last dash of the stem. -/
def listedCounter (file : Name) : Option ℤ :=
  let stem := (splitExtension file).1
  let tail := stem.reverse.takeWhile (· ≠ '-')
  if tail.length = stem.length then none else stoi tail.reverse

/-- The number of a level 1 table on disk: what follows six characters. -/
def storedCounter (file : Name) : Option ℤ :=
  let stem := (splitExtension file).1
  if (splitExtension file).2 ≠ suffixChars ∨ ¬ ['s', 's', 't', '-', '1', '-'] <+: stem then none
  else stoi (stem.drop 6)

/-! ### Digits -/

theorem isDigit_intChars (n : ℕ) : ∀ c ∈ intChars n, c.isDigit = true := by
  intro c hc
  exact Nat.isDigit_of_mem_toDigits (by decide) (le_refl 10) hc

theorem intChars_ne_nil (n : ℕ) : intChars n ≠ [] := Nat.toDigits_ne_nil

theorem isDigit_setw {s : Name} (h : ∀ c ∈ s, c.isDigit = true) (width : ℕ) :
    ∀ c ∈ setw width '0' s, c.isDigit = true := by
  intro c hc
  rcases List.mem_append.mp hc with hc | hc
  · rw [List.eq_of_mem_replicate hc]
    decide
  · exact h c hc

theorem setw_ne_nil {s : Name} (h : s ≠ []) (width : ℕ) (fill : Char) : setw width fill s ≠ [] :=
  List.append_ne_nil_of_right_ne_nil _ h

/-- Zeros in front do not change the number. -/
theorem ofDigitChars_setw (n width : ℕ) : Nat.ofDigitChars 10 (setw width '0' (intChars n)) 0 = n := by
  rw [setw, Nat.ofDigitChars_append, Nat.ofDigitChars_replicate_zero, Nat.mul_zero]
  exact Nat.ofDigitChars_ten_toDigits

theorem ofDigitChars_intChars (n : ℕ) : Nat.ofDigitChars 10 (intChars n) 0 = n := Nat.ofDigitChars_ten_toDigits

/-- A character that is no digit is in no number. -/
theorem not_mem_of_digits {s : Name} (h : ∀ c ∈ s, c.isDigit = true) {d : Char} (hd : d.isDigit = false) : d ∉ s := by
  intro hmem
  rw [h d hmem] at hd
  cases hd

theorem strtol_digits {s : Name} (hne : s ≠ []) (h : ∀ c ∈ s, c.isDigit = true) :
    strtol s = some (Nat.ofDigitChars 10 s 0 : ℤ) := by
  obtain ⟨c, cs, rfl⟩ := List.exists_cons_of_ne_nil hne
  have hc := h c List.mem_cons_self
  have hdigit : ∀ d : Char, d.isDigit = false → c ≠ d := by
    rintro d hd rfl
    rw [hc] at hd
    cases hd
  have hspace : isSpace c = false := by
    simp only [isSpace, List.mem_cons, List.not_mem_nil, or_false, decide_eq_false_iff_not, not_or]
    refine ⟨?_, ?_, ?_, ?_, ?_, ?_⟩
    all_goals exact hdigit _ (by decide)
  have hdrop : (c :: cs).dropWhile isSpace = c :: cs := by simp [hspace]
  have htake : (c :: cs).takeWhile Char.isDigit = c :: cs := List.takeWhile_eq_self_iff.mpr h
  have hminus : c ≠ '-' := hdigit _ (by decide)
  have hplus : c ≠ '+' := hdigit _ (by decide)
  simp only [strtol, hdrop, List.head?_cons, Option.some.injEq, hminus, hplus, or_self, if_false, htake, reduceCtorEq]

theorem stoi_digits {s : Name} (hne : s ≠ []) (h : ∀ c ∈ s, c.isDigit = true)
    (hle : Nat.ofDigitChars 10 s 0 ≤ intMax) : stoi s = some (Nat.ofDigitChars 10 s 0 : ℤ) := by
  rw [stoi, strtol_digits hne h, Option.filter_some, if_pos]
  rw [decide_eq_true_eq]
  omega

theorem stoll_digits {s : Name} (hne : s ≠ []) (h : ∀ c ∈ s, c.isDigit = true)
    (hle : Nat.ofDigitChars 10 s 0 ≤ intMax) : stoll s = some (Nat.ofDigitChars 10 s 0 : ℤ) := by
  have hmax : intMax = 2 ^ 31 - 1 := rfl
  rw [stoll, strtol_digits hne h, Option.filter_some, if_pos]
  rw [decide_eq_true_eq]
  omega

theorem allDigits_of {s : Name} (hne : s ≠ []) (h : ∀ c ∈ s, c.isDigit = true) : allDigits s = true := by
  simp only [allDigits, hne, ne_eq, not_false_eq_true, decide_true, Bool.true_and]
  exact List.all_eq_true.mpr h

/-! ### Cutting at a character -/

theorem takeWhile_until {s : List Char} {d : Char} (h : d ∉ s) (rest : List Char) :
    (s ++ d :: rest).takeWhile (· ≠ d) = s := by
  rw [List.takeWhile_append_of_pos]
  · simp
  · intro c hc
    rw [decide_eq_true_eq]
    rintro rfl
    exact h hc

theorem splitExtension_append {stem ext : List Char} (hstem : stem ≠ []) (hext : '.' ∉ ext) :
    splitExtension (stem ++ '.' :: ext) = (stem, '.' :: ext) := by
  have hback : (stem ++ '.' :: ext).reverse = ext.reverse ++ '.' :: stem.reverse := by simp
  have htake := takeWhile_until (s := ext.reverse) (by simpa using hext) stem.reverse
  have hlast : stem.reverse ≠ [] := by simpa using hstem
  obtain ⟨c, cs, hcs⟩ := List.exists_cons_of_ne_nil hlast
  have hrest : (ext.reverse ++ '.' :: stem.reverse).drop ext.reverse.length = '.' :: c :: cs := by
    rw [List.drop_left, hcs]
  simp only [splitExtension]
  rw [hback, htake, hrest]
  simp only [List.reverse_reverse]
  rw [← hcs, List.reverse_reverse]

/-! ### The round trip -/

/-- The number of a level. -/
def levelNumber : Level → ℕ
  | .l0 => 0
  | .l1 => 1

theorem levelNumber_injective : Function.Injective levelNumber := by
  intro a b h
  cases a <;> cases b <;> simp [levelNumber] at h ⊢

/-- The file name of a table. -/
def fileName (n : TableName) : Name := sstPath (levelNumber n.level) n.counter

/-- What stands before the extension. -/
def stemOf (n : TableName) : Name :=
  prefixChars ++ (intChars (levelNumber n.level) ++ '-' :: setw 6 '0' (intChars n.counter))

theorem splitExtension_fileName (n : TableName) : splitExtension (fileName n) = (stemOf n, suffixChars) := by
  have hname : fileName n = stemOf n ++ '.' :: ['s', 's', 't'] := by
    simp [fileName, sstPath, tableFile, stemOf, suffixChars]
  rw [hname, splitExtension_append (by simp [stemOf, prefixChars]) (by decide)]
  rfl

theorem intChars_levelNumber (level : Level) :
    intChars (levelNumber level) = if level = .l0 then ['0'] else ['1'] := by
  cases level <;> rfl

theorem counterStr_digits (n : ℕ) : ∀ c ∈ setw 6 '0' (intChars n), c.isDigit = true :=
  isDigit_setw (isDigit_intChars n) 6

theorem counterStr_ne_nil (n : ℕ) : setw 6 '0' (intChars n) ≠ [] := setw_ne_nil (intChars_ne_nil n) 6 '0'

/-- `std::stoi` on the counter of a table. -/
theorem stoi_counterStr (n : TableName) : stoi (setw 6 '0' (intChars n.counter)) = some (n.counter : ℤ) := by
  have hvalue := ofDigitChars_setw n.counter 6
  rw [stoi_digits (counterStr_ne_nil _) (counterStr_digits _) (hvalue.trans_le n.counter_le), hvalue]

/-- `loadSSTables` finds the level and the counter a name was made from. -/
theorem loadName_fileName (n : TableName) :
    loadName (fileName n) = some ((levelNumber n.level : ℤ), (n.counter : ℤ)) := by
  have hlevelDigits := isDigit_intChars (levelNumber n.level)
  have hlevelValue := ofDigitChars_intChars (levelNumber n.level)
  have hlevel : levelNumber n.level ≤ intMax := by cases n.level <;> decide
  have hcounterValue := ofDigitChars_setw n.counter 6
  have hcounter := n.counter_le
  have hdash : '-' ∉ intChars (levelNumber n.level) := not_mem_of_digits hlevelDigits (by decide)
  have hprefix : prefixChars <+: stemOf n := List.prefix_append _ _
  have hdrop : (stemOf n).drop 4 = intChars (levelNumber n.level) ++ '-' :: setw 6 '0' (intChars n.counter) :=
    List.drop_left' rfl
  have hlevelAll := allDigits_of (intChars_ne_nil (levelNumber n.level)) hlevelDigits
  have hcounterAll := allDigits_of (counterStr_ne_nil n.counter) (counterStr_digits n.counter)
  have hlevelInt := stoll_digits (intChars_ne_nil (levelNumber n.level)) hlevelDigits (hlevelValue.trans_le hlevel)
  have hcounterInt := stoll_digits (counterStr_ne_nil n.counter) (counterStr_digits n.counter)
    (hcounterValue.trans_le hcounter)
  have hrange : ¬ ((intMax : ℤ) < levelNumber n.level ∨ (intMax : ℤ) < n.counter) := by omega
  simp only [loadName, splitExtension_fileName, ne_eq, not_true_eq_false, if_false, hprefix, hdrop,
    takeWhile_until hdash, List.drop_left, hlevelAll, hcounterAll, Bool.and_true, hlevelInt, hcounterInt,
    hlevelValue, hcounterValue, hrange]

theorem fileName_injective : Function.Injective fileName := by
  intro a b h
  have hparsed := loadName_fileName a
  rw [h, loadName_fileName b, Option.some.injEq, Prod.mk.injEq] at hparsed
  obtain ⟨hlevel, hcounter⟩ := hparsed
  have hcounter' : b.counter = a.counter := by omega
  have hlevel' : b.level = a.level := levelNumber_injective (by exact_mod_cast hlevel)
  cases a
  cases b
  simp only at hlevel' hcounter'
  subst hlevel' hcounter'
  rfl

/-! ### The parsers of the compactor -/

theorem isL0_fileName (n : TableName) : isL0 (fileName n) = decide (n.level = .l0) := by
  rw [isL0, decide_eq_decide, fileName, sstPath, tableFile, intChars_levelNumber]
  cases n.level <;> simp [prefixChars]

theorem isL1_fileName (n : TableName) : isL1 (fileName n) = decide (n.level = .l1) := by
  rw [isL1, decide_eq_decide, fileName, sstPath, tableFile, intChars_levelNumber]
  cases n.level <;> simp [prefixChars]

theorem listedCounter_fileName (n : TableName) : listedCounter (fileName n) = some (n.counter : ℤ) := by
  have hdash : '-' ∉ (setw 6 '0' (intChars n.counter)).reverse := by
    rw [List.mem_reverse]
    exact not_mem_of_digits (counterStr_digits n.counter) (by decide)
  have hback : (stemOf n).reverse = (setw 6 '0' (intChars n.counter)).reverse ++
      '-' :: (prefixChars ++ intChars (levelNumber n.level)).reverse := by
    simp [stemOf]
  have hlen : ¬ (setw 6 '0' (intChars n.counter)).reverse.length = (stemOf n).length := by
    have := congrArg List.length hback
    simp only [List.length_append, List.length_cons, List.length_reverse] at this ⊢
    omega
  simp only [listedCounter, splitExtension_fileName, hback, takeWhile_until hdash, hlen, if_false,
    List.reverse_reverse]
  exact stoi_counterStr n

theorem storedCounter_fileName (n : TableName) :
    storedCounter (fileName n) = if n.level = .l1 then some (n.counter : ℤ) else none := by
  have hstem : ['s', 's', 't', '-', '1', '-'] <+: stemOf n ↔ n.level = .l1 := by
    rw [stemOf, intChars_levelNumber]
    cases n.level <;> simp [prefixChars]
  simp only [storedCounter, splitExtension_fileName, ne_eq, not_true_eq_false, false_or, hstem]
  by_cases hlevel : n.level = .l1
  · have hdrop : (stemOf n).drop 6 = setw 6 '0' (intChars n.counter) := by
      rw [stemOf, hlevel]
      rfl
    simp only [hlevel, not_true_eq_false, if_false, if_true, hdrop]
    exact stoi_counterStr n
  · simp only [hlevel, not_false_eq_true, if_true, if_false]

end LsmTree.Naming
