import Mathlib.Data.Nat.Digits.Defs
import Mathlib.Data.Nat.Log
import Peiosutils.Lib.Fallible
import Peiosutils.Lib.Positional
import Peiosutils.Lib.While

/-!
# Numbers in file names (`number.rs`)

A number of fixed width and one whose width grows. The fixed one has the lowest digits of its value
(`FixedWidthNumber.new_eq`) and counts them up (`FixedWidthNumber.increment_eq`); the growing one has a level for each
width, and its digits are those of the index within its level (`DynamicWidthNumber.digits_settles`). A product or a sum
of `usize` that does not fit is a panic.
-/

set_option autoImplicit false

namespace Peiosutils.Split

open Positional (lowDigits)
open While (Stop Settles loop)

/-- One more than the largest `usize`. -/
def usizeLimit : Nat := 18446744073709551616

/-! ## Fixed width -/

/-- The digits, the most significant one first. -/
structure FixedWidthNumber where
  radix : Nat
  digits : List Nat
  deriving DecidableEq, Repr

namespace FixedWidthNumber

/-- From the lowest digit on; with what is left of the start. -/
def newDigits (radix : Nat) : (width suffixStart : Nat) → List Nat × Nat
  | 0, suffixStart => ([], suffixStart)
  | width + 1, suffixStart =>
    let remainder := suffixStart % radix
    let suffixStart := suffixStart / radix
    if suffixStart = 0 then (remainder :: List.replicate width 0, 0)
    else
      let rest := newDigits radix width suffixStart
      (remainder :: rest.1, rest.2)

/-- None if the start has more digits than the width. -/
def new (radix width suffixStart : Nat) : Option FixedWidthNumber :=
  let r := newDigits radix width suffixStart
  if r.2 = 0 then some ⟨radix, r.1.reverse⟩ else none

/-- It overflows if all digits are zero afterwards. -/
def increment (n : FixedWidthNumber) : Bool × FixedWidthNumber :=
  let digits := (Positional.increment n.radix n.digits.reverse).reverse
  (digits ≠ List.replicate digits.length 0, { n with digits := digits })

end FixedWidthNumber

/-! ## Growing width -/

structure DynamicWidthNumber where
  radix : Nat
  current : Nat
  deriving DecidableEq, Repr

namespace DynamicWidthNumber

def increment (n : DynamicWidthNumber) : Except Stop DynamicWidthNumber :=
  if n.current + 1 < usizeLimit then .ok { n with current := n.current + 1 } else .error .panic

/-- One turn of the loop that subtracts the levels: `remaining`, `sub_value` and `num_fill_chars`. -/
def widenTurn (radix : Nat) : Nat × Nat × Nat → Except Stop ((Nat × Nat × Nat) ⊕ (Nat × Nat))
  | (remaining, subValue, numFillChars) =>
    if remaining < subValue then .ok (.inr (remaining, numFillChars))
    else if subValue * radix < usizeLimit then .ok (.inl (remaining - subValue, subValue * radix, numFillChars + 1))
    else .error .panic

/-- `Vec::resize` with zeros. -/
def resize (ds : List Nat) (n : Nat) : List Nat := ds.take n ++ List.replicate (n - ds.length) 0

/-- The digits of what remains, the lowest first, are padded and reversed. -/
def digits (fuel : Nat) (n : DynamicWidthNumber) : Except Stop (List Nat) := do
  let (remaining, numFillChars) ← loop (widenTurn n.radix) fuel (n.current, (n.radix - 1) * n.radix, 2)
  return (resize (Nat.digits n.radix remaining) numFillChars).reverse

end DynamicWidthNumber

/-! ## Display -/

def mapDigit (radix d : Nat) : UInt8 :=
  if radix = 10 then UInt8.ofNat (48 + d)
  else if radix = 16 then (if d < 10 then UInt8.ofNat (48 + d) else UInt8.ofNat (97 + (d - 10)))
  else if radix = 26 then UInt8.ofNat (97 + d)
  else 0

inductive Number where
  | fixedWidth (n : FixedWidthNumber)
  | dynamicWidth (n : DynamicWidthNumber)
  deriving DecidableEq, Repr

namespace Number

/-- False where a fixed width is exceeded. -/
def increment : Number → Except Stop (Bool × Number)
  | .fixedWidth n => .ok (n.increment.1, .fixedWidth n.increment.2)
  | .dynamicWidth n => do return (true, .dynamicWidth (← n.increment))

def display (fuel : Nat) : Number → Except Stop (List UInt8)
  | .fixedWidth n => .ok (n.digits.map (mapDigit n.radix))
  | .dynamicWidth n => do
    let digits ← n.digits fuel
    let fill := List.replicate (digits.length - 2) (mapDigit n.radix (n.radix - 1))
    return fill ++ digits.map (mapDigit n.radix)

end Number

/-! ## Digits of a fixed width -/

namespace FixedWidthNumber

variable {radix : Nat}

theorem newDigits_eq (width start : Nat) :
    newDigits radix width start = (lowDigits radix width start, start / radix ^ width) := by
  induction width generalizing start with
  | zero => rw [newDigits, Nat.pow_zero, Nat.div_one, lowDigits]
  | succ width ih =>
    rw [newDigits, lowDigits, Nat.pow_succ', ← Nat.div_div_eq_div_mul]
    dsimp only
    split
    · rename_i hzero
      rw [hzero, Positional.lowDigits_zero, Nat.zero_div]
    · rw [ih]

/-- It starts unless the start has more digits. -/
theorem new_eq (hradix : 0 < radix) (width start : Nat) :
    new radix width start =
      if start < radix ^ width then some ⟨radix, Positional.digits radix width start⟩ else none := by
  have hpow : 0 < radix ^ width := Nat.pow_pos hradix
  rw [new, newDigits_eq]
  dsimp only
  by_cases h : start < radix ^ width
  · rw [if_pos h, if_pos (Nat.div_eq_of_lt h)]
    rfl
  · rw [if_neg h, if_neg (Nat.div_pos (Nat.not_lt.1 h) hpow).ne']

/-- It counts, up to the largest number of its width. -/
theorem increment_eq (hradix : 0 < radix) {width n : Nat} (h : n < radix ^ width) :
    increment ⟨radix, Positional.digits radix width n⟩ =
      (decide (n + 1 < radix ^ width), ⟨radix, Positional.digits radix width (n + 1)⟩) := by
  have hdigits : (Positional.increment radix (Positional.digits radix width n).reverse).reverse =
      Positional.digits radix width (n + 1) := by
    rw [Positional.digits, List.reverse_reverse, Positional.increment_lowDigits hradix, Positional.digits]
  have hzero : Positional.digits radix width (n + 1) = List.replicate width 0 ↔ ¬ n + 1 < radix ^ width := by
    rw [Positional.digits, List.reverse_eq_iff, List.reverse_replicate]
    rcases Nat.lt_or_eq_of_le (Nat.succ_le_of_lt h) with hlt | heq
    · rw [Positional.lowDigits_eq_zeros_iff hlt]
      simp [hlt]
    · rw [show n + 1 = radix ^ width from heq, Positional.lowDigits_pow hradix]
      simp
  simp only [increment, hdigits, Positional.length_digits, ne_eq, hzero, not_not]

end FixedWidthNumber

/-! ## Levels of growing width -/

/-- The first index of a level, where level `k` has `(radix - 1) * radix ^ (k + 1)` of them. -/
def base (radix k : Nat) : Nat := radix ^ (k + 1) - radix

/-- The level of an index. -/
def level (radix i : Nat) : Nat := Nat.log radix (i + radix) - 1

section Levels

variable {radix i : Nat}

theorem base_le_iff (hradix : 1 < radix) {k : Nat} : base radix k ≤ i ↔ k ≤ level radix i := by
  have hne : i + radix ≠ 0 := by omega
  have hlog : 1 ≤ Nat.log radix (i + radix) := (Nat.le_log_iff_pow_le hradix hne).2 (by
    rw [Nat.pow_one]
    omega)
  rw [base, level, Nat.sub_le_iff_le_add, ← Nat.le_log_iff_pow_le hradix hne]
  omega

theorem base_level_le (hradix : 1 < radix) : base radix (level radix i) ≤ i := (base_le_iff hradix).2 (Nat.le_refl _)

theorem base_succ (hradix : 1 < radix) (k : Nat) :
    base radix (k + 1) = base radix k + (radix - 1) * radix ^ (k + 1) := by
  have hle : radix ≤ radix ^ (k + 1) := Nat.le_self_pow (Nat.succ_ne_zero k) radix
  rw [base, base, Nat.sub_one_mul, Nat.pow_succ' (n := k + 1)]
  have hmul : radix ^ (k + 1) ≤ radix * radix ^ (k + 1) := Nat.le_mul_of_pos_left _ (by omega)
  omega

/-- The index within its level. -/
theorem sub_base_lt (hradix : 1 < radix) :
    i - base radix (level radix i) < (radix - 1) * radix ^ (level radix i + 1) := by
  have hlt : ¬ base radix (level radix i + 1) ≤ i := fun h => absurd ((base_le_iff hradix).1 h) (by omega)
  rw [base_succ hradix] at hlt
  have := @base_level_le radix i hradix
  omega

theorem level_mono (hradix : 1 < radix) {j : Nat} (h : i ≤ j) : level radix i ≤ level radix j :=
  (base_le_iff hradix).1 ((base_level_le hradix).trans h)

end Levels

/-- No product of the levels up to that of the index overflows. -/
def Fits (radix i : Nat) : Prop := ∀ k, base radix (k + 1) ≤ i → (radix - 1) * radix ^ (k + 2) < usizeLimit

namespace DynamicWidthNumber

variable {radix i : Nat}

/-- From level to level, up to that of the index. -/
theorem widen_settles (hradix : 1 < radix) (hfits : Fits radix i) {k j : Nat} (h : k + j = level radix i) :
    Settles (loop (widenTurn radix) · (i - base radix k, (radix - 1) * radix ^ (k + 1), k + 2))
      (i - base radix (level radix i), level radix i + 2) := by
  induction j generalizing k with
  | zero =>
    obtain rfl : k = level radix i := h
    refine While.settles_loop_done ?_
    rw [widenTurn, if_pos (sub_base_lt hradix)]
  | succ j ih =>
    have hnext : base radix (k + 1) ≤ i := (base_le_iff hradix).2 (by omega)
    have hproduct := hfits k hnext
    have hsucc := base_succ hradix k
    rw [Nat.pow_succ, ← Nat.mul_assoc] at hproduct
    refine While.settles_loop_next ?_ (ih (k := k + 1) (by omega))
    rw [widenTurn, if_neg (by omega), if_pos hproduct, hsucc, Nat.sub_add_eq, Nat.pow_succ _ (k + 1), Nat.mul_assoc]

/-- A product that overflows is a panic. -/
theorem widen_ne_ok (hradix : 1 < radix) {last : Nat} (hlast : base radix (last + 1) ≤ i)
    (hlarge : ¬ (radix - 1) * radix ^ (last + 2) < usizeLimit) {fuel k : Nat} (h : k ≤ last) (r : Nat × Nat) :
    loop (widenTurn radix) fuel (i - base radix k, (radix - 1) * radix ^ (k + 1), k + 2) ≠ .ok r := by
  induction fuel generalizing k with
  | zero => exact fun h => by cases h
  | succ fuel ih =>
    have hlevel := (base_le_iff hradix).1 hlast
    have hnext : base radix (k + 1) ≤ i := (base_le_iff hradix).2 (by omega)
    have hsucc := base_succ hradix k
    have hturn : widenTurn radix (i - base radix k, (radix - 1) * radix ^ (k + 1), k + 2) =
        if (radix - 1) * radix ^ (k + 2) < usizeLimit then
          .ok (.inl (i - base radix (k + 1), (radix - 1) * radix ^ (k + 2), k + 1 + 2))
        else .error .panic := by
      rw [widenTurn, if_neg (by omega), hsucc, Nat.sub_add_eq, Nat.pow_succ _ (k + 1), Nat.mul_assoc]
    rw [loop, hturn]
    by_cases hlt : (radix - 1) * radix ^ (k + 2) < usizeLimit
    · rw [if_pos hlt]
      refine ih (k := k + 1) (Nat.lt_of_le_of_ne h fun e => ?_)
      exact hlarge (e ▸ hlt)
    · rw [if_neg hlt]
      exact fun h => by cases h

theorem resize_digits (hradix : 1 < radix) {w n : Nat} (h : n < radix ^ w) :
    resize (Nat.digits radix n) w = lowDigits radix w n := by
  induction w generalizing n with
  | zero => simp [resize, lowDigits]
  | succ w ih =>
    have hdiv : n / radix < radix ^ w := Nat.div_lt_of_lt_mul (by rwa [← Nat.pow_succ'])
    rcases Nat.eq_zero_or_pos n with rfl | hpos
    · rw [Positional.lowDigits_zero, Nat.digits_zero, resize, List.take_nil, List.nil_append, List.length_nil,
        Nat.sub_zero]
    · rw [Nat.digits_def' hradix hpos, lowDigits, ← ih hdiv, resize, resize, List.take_succ_cons, List.length_cons,
        Nat.succ_sub_succ, List.cons_append]

/-- The digits of an index are those within its level. -/
theorem digits_settles (hradix : 1 < radix) (hfits : Fits radix i) : Settles (digits · ⟨radix, i⟩)
    (Positional.digits radix (level radix i + 2) (i - base radix (level radix i))) := by
  have hlt : i - base radix (level radix i) < radix ^ (level radix i + 2) := by
    refine (sub_base_lt hradix).trans_le ?_
    rw [Nat.pow_succ' (n := level radix i + 1)]
    exact Nat.mul_le_mul_right _ (Nat.sub_le radix 1)
  have hloop := @widen_settles radix i hradix hfits 0 _ (Nat.zero_add _)
  rw [show base radix 0 = 0 by simp [base], Nat.sub_zero, Nat.pow_one] at hloop
  refine hloop.bind (While.settles_pure ?_)
  dsimp only
  rw [resize_digits hradix hlt]
  rfl

theorem digits_ne_ok (hradix : 1 < radix) (h : ¬ Fits radix i) (fuel : Nat) (r : List Nat) :
    digits fuel ⟨radix, i⟩ ≠ .ok r := by
  simp only [Fits, not_forall] at h
  obtain ⟨last, hlast, hlarge⟩ := h
  intro hok
  obtain ⟨x, hloop, -⟩ := Fallible.bind_eq_ok.1 hok
  have hne := @widen_ne_ok radix i hradix last hlast hlarge fuel 0 (Nat.zero_le _) x
  rw [show base radix 0 = 0 by simp [base], Nat.sub_zero, Nat.pow_one] at hne
  exact hne hloop

end DynamicWidthNumber

/-- An index that can be computed. -/
def Computes (radix i : Nat) : Prop := i < usizeLimit ∧ Fits radix i

theorem Computes.mono {radix i j : Nat} (h : Computes radix j) (hle : i ≤ j) : Computes radix i :=
  ⟨Nat.lt_of_le_of_lt hle h.1, fun k hk => h.2 k (hk.trans hle)⟩

end Peiosutils.Split
