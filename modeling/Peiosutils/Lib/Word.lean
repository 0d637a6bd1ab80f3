import Mathlib.Data.Nat.Log
import Mathlib.Tactic.Ring

/-!
# Arithmetic of 64-bit words

The checked, saturating and rounding operations of 64-bit words, each with its value as a natural number. `+`, `-`
and `*` of `UInt64` wrap. `roundUp v a` is the least multiple of `a` from `v` on (`roundUp_le_iff`).
-/

set_option autoImplicit false

namespace Word64

/-! ## Checked and saturating operations -/

def checkedAdd (a b : UInt64) : Option UInt64 := if a.toNat + b.toNat < 2 ^ 64 then some (a + b) else none

def checkedSub (a b : UInt64) : Option UInt64 := if b ≤ a then some (a - b) else none

def saturatingAdd (a b : UInt64) : UInt64 := if a.toNat + b.toNat < 2 ^ 64 then a + b else UInt64.ofNat (2 ^ 64 - 1)

def saturatingSub (a b : UInt64) : UInt64 := if b ≤ a then a - b else 0

/-- Division rounding up. -/
def divCeil (a b : UInt64) : UInt64 := if a % b = 0 then a / b else a / b + 1

theorem checkedAdd_eq_some {a b c : UInt64} : checkedAdd a b = some c ↔ a.toNat + b.toNat = c.toNat := by
  have hc := c.toNat_lt
  unfold checkedAdd
  split
  · rename_i h
    rw [Option.some.injEq, ← UInt64.toNat_inj, UInt64.toNat_add, Nat.mod_eq_of_lt h]
  · constructor
    · intro h; cases h
    · intro h; omega

theorem checkedSub_eq_some {a b c : UInt64} : checkedSub a b = some c ↔ a.toNat = b.toNat + c.toNat := by
  unfold checkedSub
  split
  · rename_i h
    have h' := UInt64.le_iff_toNat_le.1 h
    rw [Option.some.injEq, ← UInt64.toNat_inj, UInt64.toNat_sub_of_le _ _ h]
    omega
  · rename_i h
    have h' := UInt64.le_iff_toNat_le.not.1 h
    constructor
    · intro h; cases h
    · intro h; omega

/-- A sum exists and is within a bound. -/
theorem checkedAdd_all_lt {a b d : UInt64} :
    (checkedAdd a b).all (d < ·) = false ↔ a.toNat + b.toNat ≤ d.toNat := by
  have hd := d.toNat_lt
  cases h : checkedAdd a b with
  | none =>
    have : ¬ a.toNat + b.toNat < 2 ^ 64 := fun hlt => by rw [checkedAdd, if_pos hlt] at h; cases h
    simp; omega
  | some c =>
    rw [checkedAdd_eq_some] at h
    simp only [Option.all_some, decide_eq_false_iff_not, UInt64.lt_iff_toNat_lt]
    omega

/-- A difference exists and is past a bound. -/
theorem checkedSub_all_le {a b d : UInt64} :
    (checkedSub a b).all (· ≤ d) = false ↔ d.toNat + b.toNat < a.toNat := by
  cases h : checkedSub a b with
  | none =>
    have : ¬ b ≤ a := fun hle => by rw [checkedSub, if_pos hle] at h; cases h
    rw [UInt64.le_iff_toNat_le] at this
    simp; omega
  | some c =>
    rw [checkedSub_eq_some] at h
    simp only [Option.all_some, decide_eq_false_iff_not, UInt64.le_iff_toNat_le]
    omega

theorem toNat_saturatingAdd (a b : UInt64) : (saturatingAdd a b).toNat = min (a.toNat + b.toNat) (2 ^ 64 - 1) := by
  unfold saturatingAdd
  split
  · rename_i h
    rw [UInt64.toNat_add, Nat.mod_eq_of_lt h]; omega
  · rw [UInt64.toNat_ofNat']; omega

theorem toNat_saturatingSub (a b : UInt64) : (saturatingSub a b).toNat = a.toNat - b.toNat := by
  unfold saturatingSub
  split
  · rename_i h
    exact UInt64.toNat_sub_of_le _ _ h
  · rename_i h
    have := UInt64.le_iff_toNat_le.not.1 h
    rw [UInt64.toNat_zero]; omega

theorem toNat_max (a b : UInt64) : (max a b).toNat = max a.toNat b.toNat := by
  have : (max a b) = if a ≤ b then b else a := rfl
  rw [this]
  split
  · rename_i h
    have := UInt64.le_iff_toNat_le.1 h
    omega
  · rename_i h
    have := UInt64.le_iff_toNat_le.not.1 h
    omega

theorem toNat_foldl_max : ∀ (ws : List UInt64) (w : UInt64),
    (ws.foldl max w).toNat = (ws.map UInt64.toNat).foldl max w.toNat
  | [], _ => rfl
  | x :: ws, w => by rw [List.foldl_cons, List.map_cons, List.foldl_cons, toNat_foldl_max, toNat_max]

/-! ## Rounding up -/

/-- The least multiple of `a` from `v` on. -/
def roundUp (v a : Nat) : Nat := (v + a - 1) / a * a

theorem dvd_roundUp (v a : Nat) : a ∣ roundUp v a := Nat.dvd_mul_left _ _

theorem roundUp_le_iff {v a x : Nat} (ha : 0 < a) (hx : a ∣ x) : roundUp v a ≤ x ↔ v ≤ x := by
  obtain ⟨k, rfl⟩ := hx
  unfold roundUp
  rw [Nat.mul_comm a k, Nat.mul_le_mul_right_iff ha, ← Nat.lt_succ_iff, Nat.div_lt_iff_lt_mul ha, Nat.succ_mul]
  omega

theorem le_roundUp {v a : Nat} (ha : 0 < a) : v ≤ roundUp v a := (roundUp_le_iff ha (dvd_roundUp v a)).1 (Nat.le_refl _)

theorem roundUp_lt_add {v a : Nat} (ha : 0 < a) : roundUp v a < v + a := by
  unfold roundUp
  have := Nat.div_mul_le_self (v + a - 1) a
  omega

/-- A range that `a` divides is not left by rounding inside it. -/
theorem roundUp_le_of_dvd {v a m : Nat} (ha : 0 < a) (hm : a ∣ m) (hv : v ≤ m) : roundUp v a ≤ m :=
  (roundUp_le_iff ha hm).2 hv

theorem toNat_divCeil {a b : UInt64} (hb : 0 < b.toNat) :
    (divCeil a b).toNat = (a.toNat + b.toNat - 1) / b.toNat := by
  have ha := a.toNat_lt
  have hdm := Nat.div_add_mod a.toNat b.toNat
  have hlt := Nat.mod_lt a.toNat hb
  unfold divCeil
  split
  · rename_i h
    have hz : a.toNat % b.toNat = 0 := by
      have := congrArg UInt64.toNat h
      simpa using this
    rw [UInt64.toNat_div, eq_comm, Nat.div_eq_iff hb, Nat.mul_comm]
    omega
  · rename_i h
    have hz : a.toNat % b.toNat ≠ 0 := by
      intro hz
      apply h
      apply UInt64.toNat_inj.1
      simpa using hz
    have hq : (a.toNat + b.toNat - 1) / b.toNat = a.toNat / b.toNat + 1 := by
      rw [Nat.div_eq_iff hb, Nat.add_mul, Nat.mul_comm]
      omega
    have hlt' : a.toNat / b.toNat + 1 < 2 ^ 64 := by
      have hb1 : b.toNat ≠ 1 := by
        intro h1
        rw [h1, Nat.mod_one] at hz
        exact hz rfl
      have : a.toNat / b.toNat ≤ a.toNat / 2 := Nat.div_le_div_left (by omega) (by omega)
      omega
    rw [UInt64.toNat_add, UInt64.toNat_div, UInt64.toNat_one, Nat.mod_eq_of_lt hlt', hq]

/-! ## Powers of two -/

def isPowerOfTwo (n : Nat) : Bool := 2 ^ n.log2 = n

theorem isPowerOfTwo_iff {n : Nat} : isPowerOfTwo n = true ↔ ∃ k, n = 2 ^ k := by
  rw [isPowerOfTwo, decide_eq_true_eq]
  constructor
  · exact fun h => ⟨_, h.symm⟩
  · rintro ⟨k, rfl⟩
    rw [Nat.log2_two_pow]

end Word64
