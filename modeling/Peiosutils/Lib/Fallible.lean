import Mathlib.Data.List.Forall2
import Mathlib.Tactic.Basic

/-!
# Computations that may fail

When a guard, or a computation in sequence, succeeds and when it fails.
-/

set_option autoImplicit false

namespace Fallible

variable {ε α β : Type}

/-- A guard passes. -/
theorem guard_eq_ok {c : Prop} [Decidable c] {e : ε} {x : Except ε α} {v : α} :
    (if c then .error e else x) = .ok v ↔ ¬ c ∧ x = .ok v := by
  split <;> simp_all

theorem guard_eq_error {c : Prop} [Decidable c] {e e' : ε} {x : Except ε α} :
    (if c then .error e else x) = .error e' ↔ (c ∧ e = e') ∨ (¬ c ∧ x = .error e') := by
  split <;> simp_all

/-- A computation in sequence. -/
theorem bind_eq_ok {x : Except ε α} {f : α → Except ε β} {v : β} :
    (x >>= f) = .ok v ↔ ∃ a, x = .ok a ∧ f a = .ok v := by
  cases x <;> simp [bind, Except.bind]

theorem bind_eq_error {x : Except ε α} {f : α → Except ε β} {e : ε} :
    (x >>= f) = .error e ↔ x = .error e ∨ ∃ a, x = .ok a ∧ f a = .error e := by
  cases x <;> simp [bind, Except.bind]

theorem exists_bind_eq_ok {x : Except ε α} {f : α → Except ε β} :
    (∃ v, (x >>= f) = .ok v) ↔ ∃ a, x = .ok a ∧ ∃ v, f a = .ok v := by
  cases x <;> simp [bind, Except.bind]

/-- A list of computations succeeds when each of them does. -/
theorem exists_mapM_eq_ok {f : α → Except ε β} (xs : List α) :
    (∃ ys, xs.mapM f = .ok ys) ↔ ∀ x ∈ xs, ∃ y, f x = .ok y := by
  induction xs with
  | nil => simp [pure, Except.pure]
  | cons x xs ih =>
    rw [List.mapM_cons, exists_bind_eq_ok, List.forall_mem_cons, ← ih]
    constructor
    · rintro ⟨y, hy, h⟩
      obtain ⟨ys, hys, -⟩ := exists_bind_eq_ok.1 h
      exact ⟨⟨y, hy⟩, ys, hys⟩
    · rintro ⟨⟨y, hy⟩, ys, hys⟩
      exact ⟨y, hy, exists_bind_eq_ok.2 ⟨ys, hys, _, rfl⟩⟩

/-- The results of a list of computations are theirs, one by one. -/
theorem mapM_eq_ok {f : α → Except ε β} (xs : List α) (ys : List β) :
    xs.mapM f = .ok ys ↔ List.Forall₂ (fun x y => f x = .ok y) xs ys := by
  induction xs generalizing ys with
  | nil => simp [pure, Except.pure, eq_comm]
  | cons x xs ih =>
    rw [List.mapM_cons, bind_eq_ok, List.forall₂_cons_left_iff]
    constructor
    · rintro ⟨y, hy, h⟩
      obtain ⟨ys', hys, h⟩ := bind_eq_ok.1 h
      exact ⟨y, ys', hy, (ih ys').1 hys, (Except.ok.inj h).symm⟩
    · rintro ⟨y, ys', hy, hys, rfl⟩
      exact ⟨y, hy, bind_eq_ok.2 ⟨ys', (ih ys').2 hys, rfl⟩⟩

/-- Where results are related one by one, each input has one. -/
theorem exists_of_mem {R : α → β → Prop} {as : List α} {bs : List β} (h : List.Forall₂ R as bs) {a : α} (ha : a ∈ as) :
    ∃ b ∈ bs, R a b := by
  induction h with
  | nil => cases ha
  | cons hab _ ih =>
    rcases List.mem_cons.1 ha with rfl | ha
    · exact ⟨_, List.mem_cons_self, hab⟩
    · obtain ⟨b, hb, hr⟩ := ih ha
      exact ⟨b, List.mem_cons_of_mem _ hb, hr⟩

/-- What each step keeps, a fold keeps. -/
theorem foldlM_induction {P : β → Prop} {f : β → α → Except ε β} (hstep : ∀ b a b', P b → f b a = .ok b' → P b')
    {as : List α} {b b' : β} (h : P b) (hf : as.foldlM f b = .ok b') : P b' := by
  induction as generalizing b with
  | nil => cases hf; exact h
  | cons a as ih =>
    rw [List.foldlM_cons, bind_eq_ok] at hf
    obtain ⟨b₁, hb, hf⟩ := hf
    exact ih (hstep b a b₁ h hb) hf

end Fallible

/-!
# Checked arithmetic

Sums, differences and products of numbers below a limit `W`, which exist if the result is one too.
-/

namespace Checked

variable {W a b : Nat}

def add (W a b : Nat) : Option Nat := if a + b < W then some (a + b) else none

def sub (a b : Nat) : Option Nat := if b ≤ a then some (a - b) else none

def mul (W a b : Nat) : Option Nat := if a * b < W then some (a * b) else none

theorem add_of_lt (h : a + b < W) : add W a b = some (a + b) := if_pos h

theorem sub_of_le (h : b ≤ a) : sub a b = some (a - b) := if_pos h

theorem mul_of_lt (h : a * b < W) : mul W a b = some (a * b) := if_pos h

/-- A step that has a result. -/
theorem bind_of_eq {α β : Type} {x : Option α} {v : α} {f : α → Option β} (h : x = some v) : (x >>= f) = f v := by
  rw [h]
  rfl

end Checked
