import Mathlib.Data.List.Basic
import Peiosutils.Lib.Numeral

/-!
# Comparing texts (`custom_str_cmp.rs`, `version_cmp.rs`, `sort.rs`)

The comparisons of bytes that sort keys use, and how they are equal on equal texts. Without options `customStrCmp` is the
byte order, and with the case ignored it is `asciiCaseInsensitiveCmp` (`asciiCaseInsensitiveCmp_eq`).
-/

set_option autoImplicit false

namespace Peiosutils.Sort.Key

open Ascii

/-! ## The code -/

def filterChar (c : UInt8) (ignoreNonPrinting ignoreNonDictionary : Bool) : Bool :=
  if ignoreNonDictionary && !(isAlphanumeric c || isWhitespace c) then false
  else if ignoreNonPrinting && (isControl c || 128 ≤ c) then false
  else true

def cmpChars (a b : UInt8) (ignoreCase : Bool) : Ordering :=
  if ignoreCase then compare (toUpper a) (toUpper b) else compare a b

/-- The loop of `custom_str_cmp` over the characters that are left. -/
def cmpFiltered (ignoreCase : Bool) : List UInt8 → List UInt8 → Ordering
  | [], [] => .eq
  | _ :: _, [] => .gt
  | [], _ :: _ => .lt
  | a :: as, b :: bs => if cmpChars a b ignoreCase ≠ .eq then cmpChars a b ignoreCase else cmpFiltered ignoreCase as bs

def customStrCmp (a b : List UInt8) (ignoreNonPrinting ignoreNonDictionary ignoreCase : Bool) : Ordering :=
  if !(ignoreCase || ignoreNonDictionary || ignoreNonPrinting) then compare a b
  else
    cmpFiltered ignoreCase (a.filter (filterChar · ignoreNonPrinting ignoreNonDictionary))
      (b.filter (filterChar · ignoreNonPrinting ignoreNonDictionary))

/-- The first pair of bytes that differ decides, or else the lengths. -/
def asciiCaseInsensitiveCmp (a b : List UInt8) : Ordering :=
  match (a.zip b).find? fun (lhs, rhs) => toUpper lhs ≠ toUpper rhs with
  | some (lhs, rhs) => compare (toUpper lhs) (toUpper rhs)
  | none => compare a.length b.length

/-- The parts of a version without digits: `~` is before everything else, even ends, and letters are before the rest. -/
def versionNonDigitCmp : List UInt8 → List UInt8 → Ordering
  | [], [] => .eq
  | [], 126 :: _ => .gt
  | 126 :: _, [] => .lt
  | [], _ :: _ => .lt
  | _ :: _, [] => .gt
  | c₁ :: as, c₂ :: bs =>
    if c₁ = c₂ then versionNonDigitCmp as bs
    else if c₂ = 126 then .gt
    else if c₁ = 126 then .lt
    else if isAlphabetic c₁ && !isAlphabetic c₂ then .lt
    else if !isAlphabetic c₁ && isAlphabetic c₂ then .gt
    else compare c₁ c₂

/-- The loop of `remove_file_ending`, from `idx` on: where the ending starts, and whether the last byte was a dot. -/
def endingFrom : List UInt8 → Nat → Option Nat → Bool → Option Nat × Bool
  | [], _, endingStart, prevWasDot => (endingStart, prevWasDot)
  | char :: rest, idx, endingStart, prevWasDot =>
    if char = 46 then
      endingFrom rest (idx + 1) (if endingStart.isNone || prevWasDot then some idx else endingStart) true
    else if prevWasDot then
      endingFrom rest (idx + 1) (if !isAlphabetic char && char != 126 then none else endingStart) false
    else endingFrom rest (idx + 1) (if !isAlphanumeric char && char != 126 then none else endingStart) false

/-- Without file endings, which match `(\.[A-Za-z~][A-Za-z0-9~]*)*$`. -/
def removeFileEnding (a : List UInt8) : List UInt8 :=
  match endingFrom a 0 none false with
  | (some endingStart, false) => a.take endingStart
  | _ => a

/-- Only equal parts are equal. -/
theorem versionNonDigitCmp_eq {a b : List UInt8} (h : versionNonDigitCmp a b = .eq) : a = b := by
  induction a generalizing b with
  | nil =>
    cases b with
    | nil => rfl
    | cons c₂ bs =>
      rw [versionNonDigitCmp.eq_def] at h
      split at h <;> simp_all
  | cons c₁ as ih =>
    cases b with
    | nil =>
      rw [versionNonDigitCmp.eq_def] at h
      split at h <;> simp_all
    | cons c₂ bs =>
      rw [versionNonDigitCmp] at h
      split at h
      · rename_i heq
        rw [heq, ih h]
      · rename_i hne
        repeat' split at h
        any_goals cases h
        exact absurd (Std.LawfulEqOrd.eq_of_compare h) hne

/-- What is left behind the first number. -/
def afterNumber (a : List UInt8) : List UInt8 :=
  (a.drop (a.findIdx isDigit)).drop ((a.drop (a.findIdx isDigit)).findIdx (!isDigit ·))

theorem length_afterNumber_lt {a : List UInt8} (h : a ≠ []) : (afterNumber a).length < a.length := by
  obtain ⟨c, as, rfl⟩ := List.exists_cons_of_ne_nil h
  unfold afterNumber
  rw [List.length_drop, List.length_drop]
  by_cases hc : isDigit c = true
  · have hstart : (c :: as).findIdx isDigit = 0 := by simp [List.findIdx_cons, hc]
    have hend : 0 < (c :: as).findIdx (!isDigit ·) := by simp [List.findIdx_cons, hc]
    rw [hstart, List.drop_zero, List.length_cons]
    omega
  · have hstart : 0 < (c :: as).findIdx isDigit := by simp [List.findIdx_cons, hc]
    rw [List.length_cons]
    omega

/-- The parts without digits are equally long where they are equal. -/
theorem findIdx_eq_of_take_eq {a b : List UInt8} (h : a.take (a.findIdx isDigit) = b.take (b.findIdx isDigit)) :
    a.findIdx isDigit = b.findIdx isDigit := by
  have hlen := congrArg List.length h
  rwa [List.length_take_of_le List.findIdx_le_length, List.length_take_of_le List.findIdx_le_length] at hlen

/-- The loop of `version_cmp`: a part without digits, then a number, by length and by its digits, and so on. -/
def versionLoop (a b : List UInt8) : Ordering :=
  if _hempty : a = [] ∧ b = [] then .eq
  else
    let aNumericalStart := a.findIdx isDigit
    let bNumericalStart := b.findIdx isDigit
    if _hstr : versionNonDigitCmp (a.take aNumericalStart) (b.take bNumericalStart) ≠ .eq then
      versionNonDigitCmp (a.take aNumericalStart) (b.take bNumericalStart)
    else
      let a' := a.drop aNumericalStart
      let b' := b.drop aNumericalStart
      let aNumericalEnd := a'.findIdx (!isDigit ·)
      let bNumericalEnd := b'.findIdx (!isDigit ·)
      let aStr := (a'.take aNumericalEnd).drop (a'.findIdx (· ≠ 48))
      let bStr := (b'.take bNumericalEnd).drop (b'.findIdx (· ≠ 48))
      if compare aStr.length bStr.length ≠ .eq then compare aStr.length bStr.length
      else if compare aStr bStr ≠ .eq then compare aStr bStr
      else versionLoop (a'.drop aNumericalEnd) (b'.drop bNumericalEnd)
termination_by a.length + b.length
decreasing_by
  have heq := findIdx_eq_of_take_eq (versionNonDigitCmp_eq (Decidable.not_not.1 _hstr))
  show (afterNumber a).length + ((b.drop (a.findIdx isDigit)).drop
    ((b.drop (a.findIdx isDigit)).findIdx (!isDigit ·))).length < a.length + b.length
  rw [heq]
  show (afterNumber a).length + (afterNumber b).length < a.length + b.length
  by_cases ha : a = []
  · subst ha
    have hb : b ≠ [] := fun hb => _hempty ⟨rfl, hb⟩
    have := length_afterNumber_lt hb
    simpa [afterNumber] using this
  · have := length_afterNumber_lt ha
    by_cases hb : b = []
    · subst hb
      simpa [afterNumber] using this
    · have := length_afterNumber_lt hb
      omega

def versionCmp (a b : List UInt8) : Ordering :=
  if compare a b = .eq then .eq
  else if a = [] then .lt
  else if b = [] then .gt
  else if a = [46] then .lt
  else if b = [46] then .gt
  else if a = [46, 46] then .lt
  else if b = [46, 46] then .gt
  else if a.head? = some 46 ∧ b.head? ≠ some 46 then .lt
  else if a.head? ≠ some 46 ∧ b.head? = some 46 then .gt
  else
    let a := if a.head? = some 46 then a.tail else a
    let b := if b.head? = some 46 then b.tail else b
    if removeFileEnding a = removeFileEnding b then versionLoop a b
    else versionLoop (removeFileEnding a) (removeFileEnding b)

/-! ## Equal texts -/

theorem cmpFiltered_self (ignoreCase : Bool) (a : List UInt8) : cmpFiltered ignoreCase a a = .eq := by
  induction a with
  | nil => rfl
  | cons c a ih =>
    have hc : cmpChars c c ignoreCase = .eq := by
      unfold cmpChars
      split <;> exact Std.ReflOrd.compare_self
    rw [cmpFiltered, if_neg (not_not.2 hc), ih]

theorem customStrCmp_self (a : List UInt8) (ignoreNonPrinting ignoreNonDictionary ignoreCase : Bool) :
    customStrCmp a a ignoreNonPrinting ignoreNonDictionary ignoreCase = .eq := by
  unfold customStrCmp
  split
  · exact Std.ReflOrd.compare_self
  · exact cmpFiltered_self _ _

theorem versionCmp_self (a : List UInt8) : versionCmp a a = .eq := if_pos Std.ReflOrd.compare_self

theorem asciiCaseInsensitiveCmp_cons (c d : UInt8) (a b : List UInt8) :
    asciiCaseInsensitiveCmp (c :: a) (d :: b) =
      if toUpper c = toUpper d then asciiCaseInsensitiveCmp a b else compare (toUpper c) (toUpper d) := by
  have hlen : compare (c :: a).length (d :: b).length = compare a.length b.length := by
    simp [compare, compareOfLessAndEq]
  unfold asciiCaseInsensitiveCmp
  rw [hlen, List.zip_cons_cons, List.find?_cons]
  by_cases heq : toUpper c = toUpper d
  · simp only [heq, ne_eq, not_true, decide_false, if_true]
  · simp only [heq, ne_eq, not_false_iff, decide_true, if_false]

/-- The comparison that ignores the case only. -/
theorem asciiCaseInsensitiveCmp_eq (a b : List UInt8) :
    asciiCaseInsensitiveCmp a b = customStrCmp a b false false true := by
  have hall : ∀ c : List UInt8, c.filter (filterChar · false false) = c := fun c =>
    List.filter_eq_self.2 fun _ _ => rfl
  rw [customStrCmp, hall, hall]
  show asciiCaseInsensitiveCmp a b = cmpFiltered true a b
  induction a generalizing b with
  | nil => cases b <;> rfl
  | cons c a ih =>
    cases b with
    | nil => rfl
    | cons d b =>
      have hcase : cmpChars c d true = compare (toUpper c) (toUpper d) := rfl
      rw [asciiCaseInsensitiveCmp_cons, cmpFiltered, hcase, ih]
      by_cases heq : toUpper c = toUpper d
      · rw [if_pos heq, heq, if_neg (not_not.2 Std.ReflOrd.compare_self)]
      · rw [if_neg heq, if_pos fun h => heq (Std.LawfulEqOrd.eq_of_compare h)]

end Peiosutils.Sort.Key
