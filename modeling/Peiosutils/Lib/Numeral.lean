import Mathlib.Logic.Basic
import Peiosutils.Lib.Hex

/-!
# ASCII bytes

The classes of bytes that programs ask for, and the upper and lower case of letters.
-/

set_option autoImplicit false

namespace Ascii

def isDigit (b : UInt8) : Bool := 48 ≤ b && b ≤ 57

def isUpper (b : UInt8) : Bool := 65 ≤ b && b ≤ 90

def isLower (b : UInt8) : Bool := 97 ≤ b && b ≤ 122

def isAlphabetic (b : UInt8) : Bool := isUpper b || isLower b

def isAlphanumeric (b : UInt8) : Bool := isAlphabetic b || isDigit b

/-- Space, tab, line feed, form feed and carriage return. -/
def isWhitespace (b : UInt8) : Bool := b == 32 || b == 9 || b == 10 || b == 12 || b == 13

def isControl (b : UInt8) : Bool := b < 32 || b == 127

def toUpper (b : UInt8) : UInt8 := if isLower b then b - 32 else b

def toLower (b : UInt8) : UInt8 := if isUpper b then b + 32 else b

/-- The value of a digit. -/
def digit (b : UInt8) : Nat := b.toNat - 48

theorem digit_lt {b : UInt8} (h : isDigit b = true) : digit b < 10 := by
  simp only [isDigit, Bool.and_eq_true, decide_eq_true_eq, UInt8.le_iff_toNat_le] at h
  have h₁ : b.toNat ≤ 57 := h.2
  unfold digit
  omega

/-- Digits compare as their values. -/
theorem compare_digit {a b : UInt8} (ha : isDigit a = true) (hb : isDigit b = true) :
    compare (digit a) (digit b) = compare a b := by
  simp only [isDigit, Bool.and_eq_true, decide_eq_true_eq, UInt8.le_iff_toNat_le] at ha hb
  have ha₁ : 48 ≤ a.toNat := ha.1
  have hb₁ : 48 ≤ b.toNat := hb.1
  rw [show compare a b = compare a.toNat b.toNat by
    simp only [compare, compareOfLessAndEq, UInt8.lt_iff_toNat_lt, ← UInt8.toNat_inj]]
  unfold digit
  rcases Nat.lt_trichotomy a.toNat b.toNat with h | h | h
  · rw [Nat.compare_eq_lt.2 h, Nat.compare_eq_lt]
    omega
  · rw [h, Nat.compare_eq_eq.2 rfl, Nat.compare_eq_eq.2 rfl]
  · rw [Nat.compare_eq_gt.2 h, Nat.compare_eq_gt]
    omega

theorem digit_eq_zero {b : UInt8} (h : isDigit b = true) : digit b = 0 ↔ b = 48 := by
  simp only [isDigit, Bool.and_eq_true, decide_eq_true_eq, UInt8.le_iff_toNat_le] at h
  have h₁ : 48 ≤ b.toNat := h.1
  rw [← UInt8.toNat_inj]
  show b.toNat - 48 = 0 ↔ b.toNat = 48
  omega

end Ascii

/-!
# Decimal numbers in text

`parseUnsigned` and `parseSigned` read a whole text as a decimal number within bounds, an unsigned one after an optional
plus sign and a signed one after an optional sign. What `decimal` and `signed` write is read back
(`parseUnsigned_decimal`, `parseSigned_signed`).
-/

namespace Numeral

open Hex (asciiBytes)

/-- The digits read on after `acc`. -/
def readDecimal (acc : Nat) : List UInt8 → Option Nat
  | [] => some acc
  | b :: bs => if Ascii.isDigit b then readDecimal (10 * acc + Ascii.digit b) bs else none

/-- One digit or more, of a number up to `most`. -/
def parseDigits (most : Nat) (bs : List UInt8) : Option Nat :=
  if bs = [] then none else (readDecimal 0 bs).filter (· ≤ most)

/-- `str::parse` for an unsigned type whose largest number is `most`. -/
def parseUnsigned (most : Nat) : List UInt8 → Option Nat
  | [] => none
  | b :: bs => if b = 43 then parseDigits most bs else parseDigits most (b :: bs)

/-- `str::parse` for a signed type whose largest number is `most`, and whose least is one further from zero. -/
def parseSigned (most : Nat) : List UInt8 → Option Int
  | [] => none
  | b :: bs =>
    if b = 45 then (parseDigits (most + 1) bs).map fun n => -(n : Int)
    else (parseUnsigned most (b :: bs)).map Int.ofNat

/-- A number as it is displayed. -/
def decimal (n : Nat) : List UInt8 := asciiBytes (Nat.toDigits 10 n)

def signed : Int → List UInt8
  | .ofNat n => decimal n
  | .negSucc n => 45 :: decimal (n + 1)

/-- The octal digits read on after `acc`. -/
def readOctal (acc : Nat) : List UInt8 → Option Nat
  | [] => some acc
  | b :: bs => if 48 ≤ b ∧ b ≤ 55 then readOctal (8 * acc + Ascii.digit b) bs else none

/-- `from_str_radix(_, 8)` for an unsigned type whose largest number is `most`. -/
def parseOctal (most : Nat) : List UInt8 → Option Nat
  | [] => none
  | b :: bs =>
    let digits := if b = 43 then bs else b :: bs
    if digits = [] then none else (readOctal 0 digits).filter (· ≤ most)

/-- A number in digits. -/
def Digits (t : List UInt8) (n : Nat) : Prop := t ≠ [] ∧ readDecimal 0 t = some n

/-! ## What is read -/

theorem readDecimal_isSome (t : List UInt8) : ∀ acc, (readDecimal acc t).isSome = t.all Ascii.isDigit := by
  induction t with
  | nil => exact fun _ => rfl
  | cons b bs ih =>
    intro acc
    rw [readDecimal, List.all_cons]
    split
    · rename_i h
      rw [ih, h, Bool.true_and]
    · rename_i h
      rw [Bool.eq_false_iff.2 h]
      rfl

theorem Digits.all {t : List UInt8} {n : Nat} (h : Digits t n) : t.all Ascii.isDigit = true := by
  rw [← readDecimal_isSome t 0, h.2]
  rfl

theorem Digits.head_ne {b : UInt8} {bs : List UInt8} {n : Nat} (h : Digits (b :: bs) n) : b ≠ 43 ∧ b ≠ 45 := by
  have hb : Ascii.isDigit b = true := List.all_eq_true.1 h.all b List.mem_cons_self
  constructor <;> rintro rfl <;> exact absurd hb (by decide)

theorem exists_digits {t : List UInt8} (hne : t ≠ []) (h : t.all Ascii.isDigit = true) : ∃ n, Digits t n := by
  rw [← readDecimal_isSome t 0] at h
  obtain ⟨n, hn⟩ := Option.isSome_iff_exists.1 h
  exact ⟨n, hne, hn⟩

theorem Digits.unique {t : List UInt8} {n m : Nat} (h : Digits t n) (h' : Digits t m) : n = m :=
  Option.some.inj (h.2.symm.trans h'.2)

theorem parseDigits_eq_some {most n : Nat} {t : List UInt8} : parseDigits most t = some n ↔ Digits t n ∧ n ≤ most := by
  unfold parseDigits Digits
  split
  · rename_i h
    simp [h]
  · rename_i h
    simp [h, Option.filter_eq_some_iff]

theorem parseUnsigned_eq_some {most n : Nat} {t : List UInt8} :
    parseUnsigned most t = some n ↔ (Digits t n ∨ ∃ ds, t = 43 :: ds ∧ Digits ds n) ∧ n ≤ most := by
  cases t with
  | nil => simp [parseUnsigned, Digits]
  | cons b bs =>
    rw [parseUnsigned]
    split
    · rename_i hb
      rw [parseDigits_eq_some]
      refine and_congr_left fun _ => ⟨fun h => Or.inr ⟨bs, by rw [hb], h⟩, ?_⟩
      rintro (h | ⟨ds, heq, h⟩)
      · exact absurd hb h.head_ne.1
      · rwa [(List.cons.inj heq).2]
    · rename_i hb
      rw [parseDigits_eq_some]
      refine and_congr_left fun _ => ⟨Or.inl, ?_⟩
      rintro (h | ⟨ds, heq, -⟩)
      · exact h
      · exact absurd (List.cons.inj heq).1 hb

theorem parseDigits_le {most n : Nat} {bs : List UInt8} (h : parseDigits most bs = some n) : n ≤ most := by
  unfold parseDigits at h
  split at h
  · cases h
  · simpa using (Option.filter_eq_some_iff.1 h).2

theorem parseUnsigned_le {most n : Nat} {bs : List UInt8} (h : parseUnsigned most bs = some n) : n ≤ most := by
  cases bs with
  | nil => cases h
  | cons b bs =>
    rw [parseUnsigned] at h
    split at h
    · exact parseDigits_le h
    · exact parseDigits_le h

/-! ## Reading back -/

theorem isDigit_digitChar {d : Nat} (h : d < 10) : Ascii.isDigit (UInt8.ofNat (Nat.digitChar d).toNat) = true := by
  interval_cases d <;> rfl

theorem digit_digitChar {d : Nat} (h : d < 10) : Ascii.digit (UInt8.ofNat (Nat.digitChar d).toNat) = d := by
  interval_cases d <;> rfl

theorem readDecimal_append (acc : Nat) (xs ys : List UInt8) :
    readDecimal acc (xs ++ ys) = (readDecimal acc xs).bind fun n => readDecimal n ys := by
  induction xs generalizing acc with
  | nil => rfl
  | cons x xs ih =>
    rw [List.cons_append, readDecimal, readDecimal]
    split
    · exact ih _
    · rfl

/-- By the digits but the last, and the last. -/
theorem readDecimal_decimal (n : Nat) : readDecimal 0 (decimal n) = some n := by
  induction n using Nat.strongRecOn with
  | ind n ih =>
    have hlast := Nat.mod_lt n (by omega : 0 < 10)
    by_cases hn : n < 10
    · rw [decimal, Nat.toDigits_of_lt_base hn]
      simp [asciiBytes, readDecimal, isDigit_digitChar hn, digit_digitChar hn]
    · rw [decimal, Nat.toDigits_of_base_le (by omega) (by omega), Hex.asciiBytes_append, readDecimal_append,
        ← decimal, ih (n / 10) (by omega)]
      simp only [asciiBytes, List.map_cons, List.map_nil, Option.bind_some, readDecimal, isDigit_digitChar hlast,
        digit_digitChar hlast, if_true, Option.some.injEq]
      omega

theorem isDigit_of_mem_decimal {n : Nat} {b : UInt8} (h : b ∈ decimal n) : Ascii.isDigit b = true := by
  induction n using Nat.strongRecOn generalizing b with
  | ind n ih =>
    have hlast := Nat.mod_lt n (by omega : 0 < 10)
    by_cases hn : n < 10
    · rw [decimal, Nat.toDigits_of_lt_base hn] at h
      simp only [asciiBytes, List.map_cons, List.map_nil, List.mem_singleton] at h
      rw [h]
      exact isDigit_digitChar hn
    · rw [decimal, Nat.toDigits_of_base_le (by omega) (by omega), Hex.asciiBytes_append, List.mem_append] at h
      rcases h with h | h
      · exact ih (n / 10) (by omega) h
      · simp only [asciiBytes, List.map_cons, List.map_nil, List.mem_singleton] at h
        rw [h]
        exact isDigit_digitChar hlast

@[simp] theorem decimal_ne_nil (n : Nat) : decimal n ≠ [] := by
  simp [decimal, asciiBytes]

theorem parseDigits_decimal {most n : Nat} (h : n ≤ most) : parseDigits most (decimal n) = some n := by
  rw [parseDigits, if_neg (decimal_ne_nil n), readDecimal_decimal]
  simpa using h

/-- A displayed number starts with a digit. -/
theorem decimal_eq_cons (n : Nat) : ∃ b bs, decimal n = b :: bs ∧ b ≠ 43 ∧ b ≠ 45 := by
  obtain ⟨b, bs, h⟩ := List.exists_cons_of_ne_nil (decimal_ne_nil n)
  have hb : Ascii.isDigit b = true := isDigit_of_mem_decimal (h ▸ List.mem_cons_self)
  refine ⟨b, bs, h, ?_, ?_⟩
  · rintro rfl
    cases hb
  · rintro rfl
    cases hb

/-- **Displayed, then read.** -/
theorem parseUnsigned_decimal {most n : Nat} (h : n ≤ most) : parseUnsigned most (decimal n) = some n := by
  obtain ⟨b, bs, hcons, hplus, -⟩ := decimal_eq_cons n
  rw [hcons, parseUnsigned, if_neg hplus, ← hcons, parseDigits_decimal h]

theorem parseSigned_signed {most : Nat} {n : Int} (hlow : -(most + 1 : Int) ≤ n) (hhigh : n ≤ most) :
    parseSigned most (signed n) = some n := by
  cases n with
  | ofNat n =>
    obtain ⟨b, bs, hcons, -, hminus⟩ := decimal_eq_cons n
    have hn : n ≤ most := by simpa using hhigh
    rw [signed, hcons, parseSigned, if_neg hminus, ← hcons, parseUnsigned_decimal hn]
    rfl
  | negSucc n =>
    have hn : n + 1 ≤ most + 1 := by
      rw [Int.negSucc_eq] at hlow
      omega
    rw [signed, parseSigned, if_pos rfl, parseDigits_decimal hn]
    rfl

end Numeral
