import Mathlib.Algebra.GroupWithZero.Nat
import Mathlib.Data.Nat.Basic

/-!
# Decimal digits of a fixed width

`padded w n` is the last `w` decimal digits of `n`, as bytes. A number whose digits fit the width is rendered with zeros
in front (`zeroPadded_eq`), and digits are cut and joined as numbers are (`padded_add`).
-/

set_option autoImplicit false

namespace Padded

/-- The byte of a digit. -/
def byteOf (d : Nat) : UInt8 := UInt8.ofNat (48 + d)

/-- The last `w` decimal digits. -/
def padded : (w n : Nat) → List UInt8
  | 0, _ => []
  | w + 1, n => padded w (n / 10) ++ [byteOf (n % 10)]

/-- `n.to_string()`. -/
def decimal (n : Nat) : List UInt8 := (Nat.toDigits 10 n).map fun c => UInt8.ofNat c.toNat

def numDigits (n : Nat) : Nat := (decimal n).length

/-- The rendering of a number with zeros in front, up to a width. -/
def zeroPadded (padding n : Nat) : List UInt8 := List.replicate (padding - numDigits n) 48 ++ decimal n

@[simp] theorem length_padded (w n : Nat) : (padded w n).length = w := by
  induction w generalizing n with
  | zero => rfl
  | succ w ih => rw [padded, List.length_append, ih, List.length_singleton]

theorem padded_add (w k n : Nat) : padded (w + k) n = padded w (n / 10 ^ k) ++ padded k n := by
  induction k generalizing n with
  | zero => simp [padded]
  | succ k ih =>
    rw [← Nat.add_assoc, padded, ih, padded, Nat.div_div_eq_div_mul, Nat.pow_succ', List.append_assoc]

theorem padded_mod (w n : Nat) : padded w (n % 10 ^ w) = padded w n := by
  induction w generalizing n with
  | zero => rfl
  | succ w ih =>
    have hdiv : n % 10 ^ (w + 1) / 10 = n / 10 % 10 ^ w := by
      rw [Nat.pow_succ', Nat.mod_mul_right_div_self]
    have hmod : n % 10 ^ (w + 1) % 10 = n % 10 := by
      rw [Nat.pow_succ', Nat.mod_mul_right_mod]
    rw [padded, hdiv, hmod, ih, padded]

theorem padded_zero (w : Nat) : padded w 0 = List.replicate w 48 := by
  induction w with
  | zero => rfl
  | succ w ih =>
    rw [padded, Nat.zero_div, ih, List.replicate_succ']
    rfl

theorem ofNat_digitChar : ∀ d < 10, UInt8.ofNat (Nat.digitChar d).toNat = byteOf d := by decide

theorem decimal_of_lt {n : Nat} (h : n < 10) : decimal n = [byteOf n] := by
  rw [decimal, Nat.toDigits_of_lt_base h, List.map_singleton, ofNat_digitChar n h]

theorem decimal_of_le {n : Nat} (h : 10 ≤ n) : decimal n = decimal (n / 10) ++ [byteOf (n % 10)] := by
  have hlast := ofNat_digitChar (n % 10) (Nat.mod_lt n (by decide))
  rw [decimal, decimal, Nat.toDigits_of_base_le (by decide) h, List.map_append, List.map_singleton, hlast]

theorem numDigits_eq (n : Nat) : numDigits n = (Nat.toDigits 10 n).length := List.length_map _

theorem numDigits_pos (n : Nat) : 0 < numDigits n := numDigits_eq n ▸ Nat.length_toDigits_pos

/-- A number is its digits. -/
theorem decimal_eq (n : Nat) : decimal n = padded (numDigits n) n := by
  induction n using Nat.strongRecOn with
  | ind n ih =>
    by_cases h : n < 10
    · rw [numDigits, decimal_of_lt h]
      simp [padded, Nat.mod_eq_of_lt h]
    · have hlen : numDigits n = numDigits (n / 10) + 1 := by
        rw [numDigits, decimal_of_le (by omega), List.length_append]
        rfl
      rw [hlen, padded, ← ih (n / 10) (by omega), decimal_of_le (by omega)]

/-- A number has at most so many digits if it is below the power of ten. -/
theorem numDigits_le_iff {n w : Nat} (hw : 0 < w) : numDigits n ≤ w ↔ n < 10 ^ w := by
  rw [numDigits_eq, Nat.length_toDigits_le_iff (by decide) hw]

theorem mem_padded {w : Nat} : ∀ {n : Nat} {b : UInt8}, b ∈ padded w n → ∃ d < 10, b = byteOf d := by
  induction w with
  | zero => simp [padded]
  | succ w ih =>
    intro n b hb
    rw [padded, List.mem_append, List.mem_singleton] at hb
    rcases hb with hb | hb
    · exact ih hb
    · exact ⟨n % 10, Nat.mod_lt n (by decide), hb⟩

theorem lt_pow_numDigits (n : Nat) : n < 10 ^ numDigits n := (numDigits_le_iff (numDigits_pos n)).1 (le_refl _)

theorem numDigits_mono {m n : Nat} (h : m ≤ n) : numDigits m ≤ numDigits n :=
  (numDigits_le_iff (numDigits_pos n)).2 (lt_of_le_of_lt h (lt_pow_numDigits n))

/-- Zeros in front of a number are digits of it. -/
theorem zeroPadded_eq (padding n : Nat) : zeroPadded padding n = padded (max padding (numDigits n)) n := by
  have hmax : max padding (numDigits n) = padding - numDigits n + numDigits n := by omega
  rw [zeroPadded, decimal_eq, hmax, padded_add, Nat.div_eq_of_lt (lt_pow_numDigits n), padded_zero]

end Padded
