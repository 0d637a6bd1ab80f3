import Mathlib.Algebra.Order.Field.Basic
import Mathlib.Algebra.Order.Field.Power
import Mathlib.Algebra.Order.Ring.Rat
import Mathlib.Tactic.Linarith
import Mathlib.Tactic.Positivity
import Mathlib.Tactic.FieldSimp
import Mathlib.Tactic.Ring

/-!
# Decimal numbers as digits

`mantissa` reads digits as a number whose first digit stands in front of the point, and `natValue` as a natural number.
Numbers of this form are compared digit by digit, where missing digits count as zeros (`compareDigits_eq`), and those that
start with a nonzero digit and are scaled by powers of ten by their exponents first (`compare_scaled`).
-/

set_option autoImplicit false

namespace Decimal

/-- The digits with a point behind the first. -/
def mantissa : List Nat → ℚ
  | [] => 0
  | d :: ds => d + mantissa ds / 10

def natValue (ds : List Nat) : Nat := ds.foldl (fun n d => 10 * n + d) 0

/-- From the front, up to the first difference; digits that are missing count as zeros. -/
def compareDigits : List Nat → List Nat → Ordering
  | [], [] => .eq
  | a :: as, [] => if a = 0 ∧ as.all (· = 0) then .eq else .gt
  | [], b :: bs => if b = 0 ∧ bs.all (· = 0) then .eq else .lt
  | a :: as, b :: bs =>
    match compare a b with
    | .eq => compareDigits as bs
    | ord => ord

/-- All of them are digits. -/
def Digits (ds : List Nat) : Prop := ∀ d ∈ ds, d < 10

theorem Digits.of_cons {d : Nat} {ds : List Nat} (h : Digits (d :: ds)) : d < 10 ∧ Digits ds :=
  ⟨h d List.mem_cons_self, fun e he => h e (List.mem_cons_of_mem d he)⟩

theorem mantissa_nonneg (ds : List Nat) : 0 ≤ mantissa ds := by
  induction ds with
  | nil => exact le_refl 0
  | cons d ds ih =>
    rw [mantissa]
    positivity

theorem mantissa_lt_ten {ds : List Nat} (h : Digits ds) : mantissa ds < 10 := by
  induction ds with
  | nil => norm_num [mantissa]
  | cons d ds ih =>
    obtain ⟨hd, hds⟩ := h.of_cons
    have hd' : (d : ℚ) ≤ 9 := by exact_mod_cast Nat.le_of_lt_succ hd
    have := ih hds
    rw [mantissa]
    linarith

theorem one_le_mantissa {d : Nat} (hd : d ≠ 0) (ds : List Nat) : 1 ≤ mantissa (d :: ds) := by
  have hd' : (1 : ℚ) ≤ d := by exact_mod_cast Nat.one_le_iff_ne_zero.2 hd
  have := mantissa_nonneg ds
  rw [mantissa]
  linarith

theorem mantissa_eq_zero {ds : List Nat} : mantissa ds = 0 ↔ ds.all (· = 0) = true := by
  induction ds with
  | nil => simp [mantissa]
  | cons d ds ih =>
    have hnonneg := mantissa_nonneg ds
    rw [mantissa, List.all_cons, Bool.and_eq_true, ← ih, decide_eq_true_eq]
    constructor
    · intro h
      have hd : (0 : ℚ) ≤ d := Nat.cast_nonneg d
      exact ⟨by exact_mod_cast (show (d : ℚ) = 0 by linarith), by linarith⟩
    · rintro ⟨rfl, h⟩
      simp [h]

/-- Comparing digit by digit compares the numbers. -/
theorem compareDigits_eq {as bs : List Nat} (ha : Digits as) (hb : Digits bs) :
    compareDigits as bs = compare (mantissa as) (mantissa bs) := by
  induction as generalizing bs with
  | nil =>
    cases bs with
    | nil => rfl
    | cons b bs =>
      have hnonneg := mantissa_nonneg (b :: bs)
      rw [compareDigits]
      have hzero : (b = 0 ∧ bs.all (· = 0) = true) ↔ mantissa (b :: bs) = 0 := by
        rw [mantissa_eq_zero, List.all_cons, Bool.and_eq_true, decide_eq_true_eq]
      split
      · rename_i h
        rw [hzero.1 h]
        rfl
      · rename_i h
        rw [mantissa, eq_comm, compare_lt_iff_lt]
        exact lt_of_le_of_ne hnonneg fun heq => h (hzero.2 heq.symm)
  | cons a as ih =>
    obtain ⟨_, has⟩ := ha.of_cons
    cases bs with
    | nil =>
      have hnonneg := mantissa_nonneg (a :: as)
      rw [compareDigits]
      have hzero : (a = 0 ∧ as.all (· = 0) = true) ↔ mantissa (a :: as) = 0 := by
        rw [mantissa_eq_zero, List.all_cons, Bool.and_eq_true, decide_eq_true_eq]
      split
      · rename_i h
        rw [hzero.1 h]
        rfl
      · rename_i h
        rw [eq_comm, compare_gt_iff_gt]
        exact lt_of_le_of_ne hnonneg fun heq => h (hzero.2 heq.symm)
    | cons b bs =>
      obtain ⟨_, hbs⟩ := hb.of_cons
      have ha₁ := mantissa_lt_ten has
      have hb₁ := mantissa_lt_ten hbs
      have ha₀ := mantissa_nonneg as
      have hb₀ := mantissa_nonneg bs
      rw [compareDigits]
      rcases lt_trichotomy a b with hlt | rfl | hgt
      · have hlt' : (a : ℚ) + 1 ≤ b := by exact_mod_cast hlt
        rw [Nat.compare_eq_lt.2 hlt, eq_comm, compare_lt_iff_lt, mantissa, mantissa]
        linarith
      · rw [Nat.compare_eq_eq.2 rfl, ih has hbs]
        rcases lt_trichotomy (mantissa as) (mantissa bs) with h | h | h
        · rw [compare_lt_iff_lt.2 h, eq_comm, compare_lt_iff_lt, mantissa, mantissa]
          linarith
        · rw [mantissa, mantissa, h, compare_eq_iff_eq.2 rfl, compare_eq_iff_eq.2 rfl]
        · rw [compare_gt_iff_gt.2 h, eq_comm, compare_gt_iff_gt, mantissa, mantissa]
          linarith
      · have hgt' : (b : ℚ) + 1 ≤ a := by exact_mod_cast hgt
        rw [Nat.compare_eq_gt.2 hgt, eq_comm, compare_gt_iff_gt, mantissa, mantissa]
        linarith

/-! ## Natural values and powers of ten -/

theorem natValue_foldl (n : Nat) (ds : List Nat) :
    ((ds.foldl (fun n d => 10 * n + d) n : Nat) : ℚ) = (n + mantissa ds / 10) * 10 ^ ds.length := by
  induction ds generalizing n with
  | nil => simp [mantissa]
  | cons d ds ih =>
    rw [List.foldl_cons, ih, mantissa, List.length_cons, pow_succ]
    push_cast
    ring

theorem natValue_eq (ds : List Nat) : (natValue ds : ℚ) = mantissa ds * 10 ^ ((ds.length : ℤ) - 1) := by
  rw [natValue, natValue_foldl, zpow_sub_one₀ (by norm_num), zpow_natCast]
  simp only [Nat.cast_zero, zero_add]
  ring

/-- A greater exponent, a greater number. -/
theorem compare_scaled {m n : ℚ} {e f : ℤ} (hm : 1 ≤ m) (hm' : m < 10) (hn : 1 ≤ n) (hn' : n < 10) (hef : e ≠ f) :
    compare (m * 10 ^ e) (n * 10 ^ f) = compare e f := by
  have hlt : ∀ {m n : ℚ} {e f : ℤ}, m < 10 → 1 ≤ n → e < f → m * 10 ^ e < n * 10 ^ f := by
    intro m n e f hm hn hef
    have hpos : (0 : ℚ) < 10 ^ e := by positivity
    have hpow : (10 : ℚ) ^ (e + 1) ≤ 10 ^ f := zpow_le_zpow_right₀ (by norm_num) hef
    calc m * 10 ^ e < 10 * 10 ^ e := mul_lt_mul_of_pos_right hm hpos
      _ = 10 ^ (e + 1) := by rw [zpow_add_one₀ (by norm_num), mul_comm]
      _ ≤ 10 ^ f := hpow
      _ ≤ n * 10 ^ f := le_mul_of_one_le_left (by positivity) hn
  rcases lt_or_gt_of_ne hef with h | h
  · rw [compare_lt_iff_lt.2 h, compare_lt_iff_lt]
    exact hlt hm' hn h
  · rw [compare_gt_iff_gt.2 h, compare_gt_iff_gt]
    exact hlt hn' hm h

/-- The same exponent. -/
theorem compare_scaled_same (m n : ℚ) (e : ℤ) : compare (m * 10 ^ e) (n * 10 ^ e) = compare m n := by
  have hpos : (0 : ℚ) < 10 ^ e := by positivity
  rcases lt_trichotomy m n with h | rfl | h
  · rw [compare_lt_iff_lt.2 h, compare_lt_iff_lt]
    exact mul_lt_mul_of_pos_right h hpos
  · rw [compare_eq_iff_eq.2 rfl, compare_eq_iff_eq.2 rfl]
  · rw [compare_gt_iff_gt.2 h, compare_gt_iff_gt]
    exact mul_lt_mul_of_pos_right h hpos

end Decimal
