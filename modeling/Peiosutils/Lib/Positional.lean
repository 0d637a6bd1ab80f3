import Mathlib.Algebra.Order.Ring.Nat
import Mathlib.Data.List.Basic

/-!
# Digits of a fixed width

`lowDigits r w n` are the `w` lowest digits of `n`, the lowest first. Counting up digit by digit gives those of the next
number (`increment_lowDigits`), which are all zero where the width is exceeded (`lowDigits_pow`). Written the highest
first, smaller numbers come first (`ahead_digits`), where `Ahead` compares lists at the first place where they differ.
-/

set_option autoImplicit false

namespace Positional

def lowDigits (r : Nat) : (w n : Nat) → List Nat
  | 0, _ => []
  | w + 1, n => n % r :: lowDigits r w (n / r)

/-- Adds one to the lowest digit, and carries. -/
def increment (r : Nat) : List Nat → List Nat
  | [] => []
  | d :: ds => if d + 1 = r then 0 :: increment r ds else (d + 1) :: ds

/-- The highest digit first. -/
def digits (r w n : Nat) : List Nat := (lowDigits r w n).reverse

@[simp] theorem length_lowDigits (r w n : Nat) : (lowDigits r w n).length = w := by
  induction w generalizing n with
  | zero => rfl
  | succ w ih => rw [lowDigits, List.length_cons, ih]

@[simp] theorem length_digits (r w n : Nat) : (digits r w n).length = w := by
  rw [digits, List.length_reverse, length_lowDigits]

theorem digits_succ (r w n : Nat) : digits r (w + 1) n = digits r w (n / r) ++ [n % r] := by
  rw [digits, lowDigits, List.reverse_cons, digits]

theorem lowDigits_zero (r w : Nat) : lowDigits r w 0 = List.replicate w 0 := by
  induction w with
  | zero => rfl
  | succ w ih => rw [lowDigits, Nat.zero_mod, Nat.zero_div, ih, List.replicate_succ]

/-- The highest digit. -/
theorem lowDigits_concat (r w n : Nat) : lowDigits r (w + 1) n = lowDigits r w n ++ [n / r ^ w % r] := by
  induction w generalizing n with
  | zero => simp [lowDigits]
  | succ w ih => rw [lowDigits, ih, lowDigits, Nat.div_div_eq_div_mul, Nat.pow_succ', List.cons_append]

theorem digits_cons (r w n : Nat) : digits r (w + 1) n = n / r ^ w % r :: digits r w n := by
  rw [digits, lowDigits_concat, List.reverse_append, List.reverse_singleton, List.singleton_append, digits]

variable {r : Nat}

theorem lowDigits_lt (hr : 0 < r) {w n d : Nat} (h : d ∈ lowDigits r w n) : d < r := by
  induction w generalizing n with
  | zero => cases h
  | succ w ih =>
    rcases List.mem_cons.1 h with rfl | h
    · exact Nat.mod_lt n hr
    · exact ih h

theorem digits_lt (hr : 0 < r) {w n d : Nat} (h : d ∈ digits r w n) : d < r := lowDigits_lt hr (List.mem_reverse.1 h)

/-! ## Counting -/

theorem succ_div_mod (hr : 0 < r) (n : Nat) : (n % r + 1 = r ∧ (n + 1) % r = 0 ∧ (n + 1) / r = n / r + 1) ∨
    (n % r + 1 ≠ r ∧ (n + 1) % r = n % r + 1 ∧ (n + 1) / r = n / r) := by
  have hmod := Nat.mod_lt n hr
  have hsplit := Nat.div_add_mod n r
  by_cases h : n % r + 1 = r
  · left
    have hn : n + 1 = r * (n / r + 1) := by
      rw [Nat.mul_add, Nat.mul_one]
      omega
    exact ⟨h, by rw [hn, Nat.mul_mod_right], by rw [hn, Nat.mul_div_cancel_left _ hr]⟩
  · right
    have hn : n + 1 = n % r + 1 + r * (n / r) := by omega
    refine ⟨h, ?_, ?_⟩
    · rw [hn, Nat.add_mul_mod_self_left, Nat.mod_eq_of_lt (by omega)]
    · rw [hn, Nat.add_mul_div_left _ _ hr, Nat.div_eq_of_lt (by omega), Nat.zero_add]

theorem increment_lowDigits (hr : 0 < r) (w n : Nat) : increment r (lowDigits r w n) = lowDigits r w (n + 1) := by
  induction w generalizing n with
  | zero => rfl
  | succ w ih =>
    rw [lowDigits, increment, lowDigits]
    rcases succ_div_mod hr n with ⟨hcarry, hmod, hdiv⟩ | ⟨hcarry, hmod, hdiv⟩
    · rw [if_pos hcarry, hmod, hdiv, ih]
    · rw [if_neg hcarry, hmod, hdiv]

/-- The digits of a number below the limit are all zero only for zero. -/
theorem lowDigits_eq_zeros_iff {w n : Nat} (h : n < r ^ w) :
    lowDigits r w n = List.replicate w 0 ↔ n = 0 := by
  constructor
  · intro hzero
    induction w generalizing n with
    | zero => simpa using h
    | succ w ih =>
      rw [lowDigits, List.replicate_succ, List.cons.injEq] at hzero
      have hdiv : n / r = 0 := ih (Nat.div_lt_of_lt_mul (by rwa [← Nat.pow_succ'])) hzero.2
      rw [← Nat.div_add_mod n r, hdiv, hzero.1, Nat.mul_zero]
  · rintro rfl
    exact lowDigits_zero r w

/-- Behind the last number there are zeros again. -/
theorem lowDigits_pow (hr : 0 < r) (w : Nat) : lowDigits r w (r ^ w) = List.replicate w 0 := by
  induction w with
  | zero => rfl
  | succ w ih =>
    rw [lowDigits, Nat.pow_succ', Nat.mul_mod_right, Nat.mul_div_cancel_left _ hr, ih, List.replicate_succ]

/-! ## Order -/

/-- At the first place in which the lists differ, the first one has less. -/
def Ahead {α : Type} [LT α] (as bs : List α) : Prop :=
  ∃ front x y tail tail', as = front ++ x :: tail ∧ bs = front ++ y :: tail' ∧ x < y

section Ahead

variable {α : Type} [LT α] {as bs : List α}

theorem Ahead.append (h : Ahead as bs) (cs ds : List α) : Ahead (as ++ cs) (bs ++ ds) := by
  obtain ⟨front, x, y, tail, tail', rfl, rfl, hlt⟩ := h
  exact ⟨front, x, y, tail ++ cs, tail' ++ ds, by simp, by simp, hlt⟩

theorem Ahead.behind (h : Ahead as bs) (front : List α) : Ahead (front ++ as) (front ++ bs) := by
  obtain ⟨front', x, y, tail, tail', rfl, rfl, hlt⟩ := h
  exact ⟨front ++ front', x, y, tail, tail', by simp, by simp, hlt⟩

theorem Ahead.map {β : Type} [LT β] {f : α → β} (h : Ahead as bs) (hf : ∀ x ∈ as, ∀ y ∈ bs, x < y → f x < f y) :
    Ahead (as.map f) (bs.map f) := by
  obtain ⟨front, x, y, tail, tail', rfl, rfl, hlt⟩ := h
  exact ⟨front.map f, f x, f y, tail.map f, tail'.map f, by simp, by simp, hf x (by simp) y (by simp) hlt⟩

/-- Neither is a prefix of the other, and the first one is less. -/
theorem Ahead.neither_begins (hirrefl : ∀ x : α, ¬ x < x) (h : Ahead as bs) :
    ¬ as <+: bs ∧ ¬ bs <+: as ∧ List.Lex (· < ·) as bs := by
  obtain ⟨front, x, y, tail, tail', rfl, rfl, hlt⟩ := h
  have hne : x ≠ y := fun e => hirrefl x (e ▸ hlt)
  refine ⟨?_, ?_, ?_⟩
  · rw [List.prefix_append_right_inj, List.cons_prefix_cons]
    exact fun h => hne h.1
  · rw [List.prefix_append_right_inj, List.cons_prefix_cons]
    exact fun h => hne h.1.symm
  · induction front with
    | nil => exact .rel hlt
    | cons z front ih => exact .cons ih

end Ahead

theorem ahead_digits {w n m : Nat} (h : n < m) (hm : m < r ^ w) : Ahead (digits r w n) (digits r w m) := by
  induction w generalizing n m with
  | zero =>
    rw [Nat.pow_zero] at hm
    omega
  | succ w ih =>
    have hdiv : m / r < r ^ w := Nat.div_lt_of_lt_mul (by rwa [← Nat.pow_succ'])
    rw [digits_succ, digits_succ]
    rcases Nat.lt_or_eq_of_le (Nat.div_le_div_right (c := r) (Nat.le_of_lt h)) with hlt | heq
    · exact (ih hlt hdiv).append _ _
    · have hmod : n % r < m % r := by
        have hn := Nat.div_add_mod n r
        have hm := Nat.div_add_mod m r
        rw [heq] at hn
        omega
      exact ⟨digits r w (m / r), n % r, m % r, [], [], by rw [heq], rfl, hmod⟩

end Positional
