import Mathlib.Algebra.Order.Ring.Nat
import Mathlib.Data.List.TakeWhile
import Mathlib.Tactic.IntervalCases

/-!
# Numbers in a radix

`digit` is the value of a letter or decimal digit in a radix and `value` that of a list of digits, read on after `acc`.
`fromStrRadix` reads a number below a limit `W` from the left: the first letter that is no digit or at which the number
no longer fits is the error. So digits alone are read if the number fits (`fromStrRadix_digits`), and a letter that is
no digit is the error only while the digits in front of it fit (`fromStrRadix_letter`).
-/

set_option autoImplicit false

namespace Radix

variable {W radix acc : Nat}

/-! ## Digits -/

def digit (radix : Nat) (c : Char) : Option Nat :=
  let v :=
    if 48 ≤ c.toNat ∧ c.toNat ≤ 57 then c.toNat - 48
    else if 97 ≤ c.toNat ∧ c.toNat ≤ 122 then c.toNat - 87
    else if 65 ≤ c.toNat ∧ c.toNat ≤ 90 then c.toNat - 55
    else radix
  if v < radix then some v else none

def value (radix acc : Nat) : List Char → Option Nat
  | [] => some acc
  | c :: cs =>
    match digit radix c with
    | none => none
    | some d => value radix (acc * radix + d) cs

theorem value_cons_some {c : Char} {d : Nat} (h : digit radix c = some d) (cs : List Char) :
    value radix acc (c :: cs) = value radix (acc * radix + d) cs := by rw [value, h]

theorem value_cons_none {c : Char} (h : digit radix c = none) (cs : List Char) : value radix acc (c :: cs) = none := by
  rw [value, h]

theorem digit_lt {c : Char} {d : Nat} (h : digit radix c = some d) : d < radix := by
  simp only [digit, Option.ite_none_right_eq_some, Option.some.injEq] at h
  omega

/-- The number of digits behind others. -/
theorem value_append (ds fs : List Char) :
    value radix acc (ds ++ fs) = (value radix acc ds).bind fun n => value radix n fs := by
  induction ds generalizing acc with
  | nil => rfl
  | cons c ds ih =>
    cases hc : digit radix c with
    | none => rw [List.cons_append, value_cons_none hc, value_cons_none hc, Option.bind_none]
    | some d => rw [List.cons_append, value_cons_some hc, value_cons_some hc, ih]

theorem isSome_value {cs : List Char} : (value radix acc cs).isSome ↔ ∀ c ∈ cs, (digit radix c).isSome := by
  induction cs generalizing acc with
  | nil => simp [value]
  | cons c cs ih =>
    rw [List.forall_mem_cons]
    cases h : digit radix c with
    | none => simp [value_cons_none h]
    | some d => simp [value_cons_some h, ih]

/-- Digits make a number. -/
theorem exists_value {cs : List Char} (h : ∀ c ∈ cs, (digit radix c).isSome) : ∃ n, value radix acc cs = some n :=
  Option.isSome_iff_exists.1 (isSome_value.2 h)

theorem digit_of_value {cs : List Char} {n : Nat} (h : value radix acc cs = some n) {c : Char} (hc : c ∈ cs) :
    (digit radix c).isSome :=
  isSome_value.1 (by rw [h]; rfl) c hc

theorem le_value (hradix : 0 < radix) {cs : List Char} {n : Nat} (h : value radix acc cs = some n) : acc ≤ n := by
  induction cs generalizing acc with
  | nil => exact Nat.le_of_eq (Option.some.inj h)
  | cons c cs ih =>
    cases hc : digit radix c with
    | none =>
      rw [value_cons_none hc] at h
      cases h
    | some d =>
      rw [value_cons_some hc] at h
      calc acc ≤ acc * radix := Nat.le_mul_of_pos_right acc hradix
        _ ≤ acc * radix + d := Nat.le_add_right _ _
        _ ≤ n := ih h

/-! ## Digits at the front -/

def isDigit (radix : Nat) (c : Char) : Bool := (digit radix c).isSome

theorem exists_value_takeWhile (radix acc : Nat) (cs : List Char) :
    ∃ n, value radix acc (cs.takeWhile (isDigit radix)) = some n :=
  exists_value fun c hc => show isDigit radix c = true from List.mem_takeWhile_imp hc

/-- What is behind the digits at the front does not begin with one. -/
theorem head_dropWhile (f : Char → Bool) (cs : List Char) : ∀ c ∈ (cs.dropWhile f).head?, f c = false := by
  intro c hc
  have h := List.head?_dropWhile_not f cs
  rw [Option.mem_def.1 hc] at h
  exact h

/-- Digits up to a letter that is none are all digits at the front. -/
theorem cut_eq {ds rest : List Char} {n : Nat} (hds : value radix acc ds = some n)
    (hrest : ∀ c ∈ rest.head?, isDigit radix c = false) :
    (ds ++ rest).takeWhile (isDigit radix) = ds ∧ (ds ++ rest).dropWhile (isDigit radix) = rest := by
  have hdigits : ∀ c ∈ ds, isDigit radix c = true := fun c hc => digit_of_value hds hc
  rw [List.takeWhile_append_of_pos hdigits, List.dropWhile_append_of_pos hdigits]
  cases rest with
  | nil => simp
  | cons c rest =>
    have hc := hrest c rfl
    simp [hc]

/-! ## Numbers -/

/-- Without digits only in front of a letter that is none. -/
theorem exists_of_value_none {cs : List Char} (h : value radix acc cs = none) :
    ∃ ds m c rest, cs = ds ++ c :: rest ∧ value radix acc ds = some m ∧ digit radix c = none := by
  induction cs generalizing acc with
  | nil => cases h
  | cons c cs ih =>
    cases hc : digit radix c with
    | none => exact ⟨[], acc, c, cs, rfl, rfl, hc⟩
    | some d =>
      rw [value_cons_some hc] at h
      obtain ⟨ds, m, c', rest, rfl, hvalue, hnone⟩ := ih h
      exact ⟨c :: ds, m, c', rest, rfl, by rw [value_cons_some hc, hvalue], hnone⟩

/-- Zeros in front do not count. -/
theorem value_zeros (hradix : 0 < radix) (k : Nat) (cs : List Char) :
    value radix 0 (List.replicate k '0' ++ cs) = value radix 0 cs := by
  induction k with
  | zero => rfl
  | succ k ih =>
    have hzero : digit radix '0' = some 0 := if_pos hradix
    rw [List.replicate_succ, List.cons_append, value_cons_some hzero, Nat.zero_mul, ih]

theorem digit_mono {r r' : Nat} (hle : r ≤ r') {c : Char} {d : Nat} (h : digit r c = some d) : digit r' c = some d := by
  simp only [digit, Option.ite_none_right_eq_some, Option.some.injEq] at h ⊢
  split_ifs at h ⊢ <;> omega

/-- The same digits are no less in a larger radix. -/
theorem value_mono {r r' : Nat} (hle : r ≤ r') {cs : List Char} {acc acc' n : Nat} (hacc : acc ≤ acc')
    (h : value r acc cs = some n) : ∃ n', value r' acc' cs = some n' ∧ n ≤ n' := by
  induction cs generalizing acc acc' with
  | nil => exact ⟨acc', rfl, by rwa [← Option.some.inj h]⟩
  | cons c cs ih =>
    cases hc : digit r c with
    | none =>
      rw [value_cons_none hc] at h
      cases h
    | some d =>
      rw [value_cons_some hc] at h
      rw [value_cons_some (digit_mono hle hc)]
      exact ih (Nat.add_le_add_right (Nat.mul_le_mul hacc hle) d) h

/-! ## Writing digits -/

theorem digit_digitChar {d : Nat} (h : d < radix) (hradix : radix ≤ 16) :
    digit radix (Nat.digitChar d) = some d := by
  have hlt : d < 16 := by omega
  have hbig : digit 16 (Nat.digitChar d) = some d := by
    interval_cases d <;> rfl
  simp only [digit, Option.ite_none_right_eq_some, Option.some.injEq] at hbig ⊢
  split_ifs at hbig ⊢ <;> omega

/-- The digits of a number are read back. -/
theorem value_toDigits (hradix : 2 ≤ radix) (hradix' : radix ≤ 16) (n : Nat) :
    value radix 0 (Nat.toDigits radix n) = some n := by
  induction n using Nat.strong_induction_on with
  | _ n ih =>
    rcases Nat.lt_or_ge n radix with hlt | hge
    · rw [Nat.toDigits_of_lt_base hlt, value_cons_some (digit_digitChar hlt hradix'), Nat.zero_mul, Nat.zero_add]
      rfl
    · have hdiv : n / radix < n := Nat.div_lt_self (by omega) hradix
      have hmod : n % radix < radix := Nat.mod_lt n (by omega)
      rw [Nat.toDigits_of_base_le hradix hge, value_append, ih _ hdiv, Option.bind_some,
        value_cons_some (digit_digitChar hmod hradix')]
      exact congrArg some (Nat.div_add_mod' n radix)

/-! ## Numbers below a limit -/

inductive IntErrorKind where
  | empty
  | invalidDigit
  | posOverflow
  deriving DecidableEq, Repr

/-- A letter that is no digit is an error before the number is looked at. -/
def readOn (W radix acc : Nat) : List Char → Except IntErrorKind Nat
  | [] => .ok acc
  | c :: cs =>
    match digit radix c with
    | none => .error .invalidDigit
    | some d => if acc * radix + d < W then readOn W radix (acc * radix + d) cs else .error .posOverflow

/-- `from_str_radix` for unsigned numbers, which may have a plus sign. -/
def fromStrRadix (W radix : Nat) : List Char → Except IntErrorKind Nat
  | [] => .error .empty
  | '+' :: cs => if cs = [] then .error .invalidDigit else readOn W radix 0 cs
  | c :: cs => readOn W radix 0 (c :: cs)

theorem readOn_digits (hradix : 0 < radix) (hacc : acc < W) {cs : List Char} {n : Nat}
    (h : value radix acc cs = some n) : readOn W radix acc cs = if n < W then .ok n else .error .posOverflow := by
  induction cs generalizing acc with
  | nil => rw [readOn, ← Option.some.inj h, if_pos hacc]
  | cons c cs ih =>
    cases hc : digit radix c with
    | none =>
      rw [value_cons_none hc] at h
      cases h
    | some d =>
      rw [value_cons_some hc] at h
      simp only [readOn, hc]
      by_cases hlt : acc * radix + d < W
      · rw [if_pos hlt, ih hlt h]
      · have hle := le_value hradix h
        rw [if_neg hlt, if_neg (by omega)]

theorem readOn_letter (hradix : 0 < radix) (hacc : acc < W) {ds : List Char} {m : Nat}
    (h : value radix acc ds = some m) {c : Char} (hc : digit radix c = none) (rest : List Char) :
    readOn W radix acc (ds ++ c :: rest) = .error (if m < W then .invalidDigit else .posOverflow) := by
  induction ds generalizing acc with
  | nil => simp only [List.nil_append, readOn, hc, ← Option.some.inj h, if_pos hacc]
  | cons d ds ih =>
    cases hd : digit radix d with
    | none =>
      rw [value_cons_none hd] at h
      cases h
    | some v =>
      rw [value_cons_some hd] at h
      simp only [List.cons_append, readOn, hd]
      by_cases hlt : acc * radix + v < W
      · rw [if_pos hlt, ih hlt h]
      · have hle := le_value hradix h
        rw [if_neg hlt, if_neg (show ¬ m < W by omega)]

theorem fromStrRadix_of_ne_plus {c : Char} (hplus : c ≠ '+') (cs : List Char) :
    fromStrRadix W radix (c :: cs) = readOn W radix 0 (c :: cs) := by
  rw [fromStrRadix]
  exact fun h => hplus h

theorem ne_plus_of_digit {c : Char} (h : (digit radix c).isSome) : c ≠ '+' := by
  rintro rfl
  simp [digit] at h

theorem fromStrRadix_digits (hradix : 0 < radix) (hW : 0 < W) {cs : List Char} (hne : cs ≠ []) {n : Nat}
    (h : value radix 0 cs = some n) : fromStrRadix W radix cs = if n < W then .ok n else .error .posOverflow := by
  cases cs with
  | nil => exact absurd rfl hne
  | cons c cs =>
    rw [fromStrRadix_of_ne_plus (ne_plus_of_digit (digit_of_value h List.mem_cons_self)),
      readOn_digits hradix hW h]

theorem fromStrRadix_letter (hradix : 0 < radix) (hW : 0 < W) {ds : List Char} {m : Nat}
    (h : value radix 0 ds = some m) {c : Char} (hc : digit radix c = none) (hplus : ds = [] → c ≠ '+')
    (rest : List Char) :
    fromStrRadix W radix (ds ++ c :: rest) = .error (if m < W then .invalidDigit else .posOverflow) := by
  rw [← readOn_letter hradix hW h hc rest]
  cases ds with
  | nil => exact fromStrRadix_of_ne_plus (hplus rfl) rest
  | cons d ds => exact fromStrRadix_of_ne_plus (ne_plus_of_digit (digit_of_value h List.mem_cons_self)) _

/-- Zeros in front may be left out if anything is left. -/
theorem fromStrRadix_trim (hradix : 0 < radix) (hW : 0 < W) {cs : List Char} (hplus : '+' ∉ cs)
    (hne : cs.dropWhile (· = '0') ≠ []) :
    fromStrRadix W radix (cs.dropWhile (· = '0')) = fromStrRadix W radix cs := by
  induction cs with
  | nil => rfl
  | cons c cs ih =>
    by_cases hc : c = '0'
    · have hdrop : (c :: cs).dropWhile (· = '0') = cs.dropWhile (· = '0') :=
        List.dropWhile_cons_of_pos (by simpa using hc)
      have hzero : digit radix '0' = some 0 := if_pos hradix
      rw [hdrop] at hne ⊢
      rw [ih (fun h => hplus (List.mem_cons_of_mem c h)) hne, hc, fromStrRadix_of_ne_plus (by decide)]
      simp only [readOn, hzero, Nat.zero_mul, Nat.zero_add, if_pos hW]
      cases cs with
      | nil => exact absurd rfl hne
      | cons d cs => exact fromStrRadix_of_ne_plus (fun h => hplus (by simp [h])) cs
    · rw [List.dropWhile_cons_of_neg (by simpa using hc)]

end Radix
