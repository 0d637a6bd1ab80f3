import Mathlib.Algebra.GroupWithZero.Nat
import Mathlib.Data.List.Lex
import Mathlib.Data.Prod.Lex
import Mathlib.Order.PiLex
import Mathlib.Tactic.Ring

/-!
# Comparing sequences

Lists, pairs and sequences without an end are compared by their first part, and then by what is left of them
(`order_cons`, `order_pair`, `order_seq`). Digits without leading zeros are compared as numbers by how many they are
(`value_lt_of_length_lt`), and then one by one (`compareLex_digits`).
-/

set_option autoImplicit false

namespace Lexical

variable {α β : Type} [LinearOrder α] [LinearOrder β]

/-- The comparison of a linear order. -/
def order (a b : α) : Ordering := compare a b

theorem order_lt {a b : α} : order a b = .lt ↔ a < b := compare_lt_iff_lt

theorem order_gt {a b : α} : order a b = .gt ↔ b < a := compare_gt_iff_gt

theorem order_eq {a b : α} : order a b = .eq ↔ a = b := compare_eq_iff_eq

theorem order_swap (a b : α) : (order a b).swap = order b a := by
  rcases lt_trichotomy a b with h | rfl | h
  · rw [order_lt.2 h, order_gt.2 h]
    rfl
  · rw [order_eq.2 rfl]
    rfl
  · rw [order_gt.2 h, order_lt.2 h]
    rfl

theorem order_ne_gt {a b : α} : order a b ≠ .gt ↔ a ≤ b := by rw [ne_eq, order_gt, not_lt]

theorem then_of_eq {o p : Ordering} (h : o = .eq) : o.then p = p := by
  subst h
  rfl

theorem then_of_ne {o p : Ordering} (h : o ≠ .eq) : o.then p = o := by
  cases o with
  | eq => exact absurd rfl h
  | lt => rfl
  | gt => rfl

theorem ite_ne_eq_then (o p : Ordering) : (if o ≠ .eq then o else p) = o.then p := by
  cases o <;> rfl

/-- What is smaller by its first part, or has the same first part and is smaller by the rest. -/
theorem order_eq_then {γ : Type} [LinearOrder γ] {x y : γ} {a b : α} {p q : β} (hlt : x < y ↔ a < b ∨ a = b ∧ p < q)
    (hgt : y < x ↔ b < a ∨ b = a ∧ q < p) : order x y = (order a b).then (order p q) := by
  rcases lt_trichotomy a b with h | rfl | h
  · rw [order_lt.2 h, order_lt.2 (hlt.2 (.inl h))]
    rfl
  · rw [then_of_eq (order_eq.2 rfl)]
    rcases lt_trichotomy p q with h | h | h
    · rw [order_lt.2 h, order_lt.2 (hlt.2 (.inr ⟨rfl, h⟩))]
    · have hx : ¬ x < y := fun hxy => (hlt.1 hxy).elim (lt_irrefl a) fun hpq => absurd hpq.2 (h ▸ lt_irrefl p)
      have hy : ¬ y < x := fun hyx => (hgt.1 hyx).elim (lt_irrefl a) fun hqp => absurd hqp.2 (h ▸ lt_irrefl p)
      rw [order_eq.2 h, order_eq.2 (le_antisymm (not_lt.1 hy) (not_lt.1 hx))]
    · rw [order_gt.2 h, order_gt.2 (hgt.2 (.inr ⟨rfl, h⟩))]
  · rw [order_gt.2 h, order_gt.2 (hgt.2 (.inl h))]
    rfl

theorem order_cons (a b : α) (as bs : List α) :
    order (a :: as) (b :: bs) = (order a b).then (order as bs) :=
  order_eq_then List.cons_lt_cons_iff List.cons_lt_cons_iff

theorem order_pair (x y : α × β) :
    order (toLex x) (toLex y) = (order x.1 y.1).then (order x.2 y.2) :=
  order_eq_then Prod.Lex.toLex_lt_toLex Prod.Lex.toLex_lt_toLex

theorem seq_lt_tail {x y : ℕ → α} :
    toLex x < toLex y ↔ x 0 < y 0 ∨ x 0 = y 0 ∧ toLex (fun n => x (n + 1)) < toLex fun n => y (n + 1) := by
  constructor
  · rintro ⟨i, hbefore, hi⟩
    cases i with
    | zero => exact .inl hi
    | succ i => exact .inr ⟨hbefore 0 (Nat.succ_pos i), i, fun j hj => hbefore (j + 1) (Nat.succ_lt_succ hj), hi⟩
  · rintro (h | ⟨h, i, hbefore, hi⟩)
    · exact ⟨0, fun j hj => absurd hj (Nat.not_lt_zero j), h⟩
    · refine ⟨i + 1, fun j hj => ?_, hi⟩
      cases j with
      | zero => exact h
      | succ j => exact hbefore j (Nat.lt_of_succ_lt_succ hj)

theorem order_seq (x y : ℕ → α) : order (toLex x) (toLex y) =
    (order (x 0) (y 0)).then (order (toLex fun n => x (n + 1)) (toLex fun n => y (n + 1))) :=
  order_eq_then seq_lt_tail seq_lt_tail

/-! ## Digits -/

/-- The number of decimal digits. -/
def value (ds : List Nat) : Nat := ds.foldl (fun n d => 10 * n + d) 0

theorem foldl_value (ds : List Nat) : ∀ n, ds.foldl (fun n d => 10 * n + d) n = n * 10 ^ ds.length + value ds := by
  induction ds with
  | nil => simp [value]
  | cons d ds ih =>
    intro n
    rw [value, List.foldl_cons, List.foldl_cons, ih, ih, List.length_cons, Nat.pow_succ]
    ring

theorem value_cons (d : Nat) (ds : List Nat) : value (d :: ds) = d * 10 ^ ds.length + value ds := by
  rw [value, List.foldl_cons, foldl_value, Nat.mul_zero, Nat.zero_add]

theorem value_lt {ds : List Nat} (h : ∀ d ∈ ds, d < 10) : value ds < 10 ^ ds.length := by
  induction ds with
  | nil => decide
  | cons d ds ih =>
    have hd := h d List.mem_cons_self
    have hds := ih fun e he => h e (List.mem_cons_of_mem d he)
    have hmul : (d + 1) * 10 ^ ds.length ≤ 10 * 10 ^ ds.length := Nat.mul_le_mul_right _ hd
    rw [Nat.succ_mul] at hmul
    rw [value_cons, List.length_cons, Nat.pow_succ, Nat.mul_comm _ 10]
    omega

/-- Digits that do not start with a zero are a number of their length. -/
theorem pow_le_value {ds : List Nat} (hne : ds ≠ []) (hhead : ds.head? ≠ some 0) : 10 ^ (ds.length - 1) ≤ value ds := by
  obtain ⟨d, ds, rfl⟩ := List.exists_cons_of_ne_nil hne
  have hd : 1 ≤ d := Nat.one_le_iff_ne_zero.2 fun h => hhead (by rw [h]; rfl)
  have hmul : 1 * 10 ^ ds.length ≤ d * 10 ^ ds.length := Nat.mul_le_mul_right _ hd
  rw [value_cons, List.length_cons, Nat.add_sub_cancel]
  omega

theorem order_value_cons {d e : Nat} {ds es : List Nat} (hlen : ds.length = es.length) (hds : ∀ d ∈ ds, d < 10)
    (hes : ∀ e ∈ es, e < 10) :
    order (value (d :: ds)) (value (e :: es)) = (order d e).then (order (value ds) (value es)) := by
  have hd := value_lt hds
  have he := value_lt hes
  have hmul : ∀ {a b : Nat}, a < b → (a + 1) * 10 ^ es.length ≤ b * 10 ^ es.length := fun h => Nat.mul_le_mul_right _ h
  simp only [Nat.succ_mul] at hmul
  rw [value_cons, value_cons, hlen]
  rw [hlen] at hd
  refine order_eq_then ⟨fun h => ?_, fun h => ?_⟩ ⟨fun h => ?_, fun h => ?_⟩
  · rcases lt_trichotomy d e with hde | rfl | hde
    · exact .inl hde
    · exact .inr ⟨rfl, by omega⟩
    · have := hmul hde
      omega
  · rcases h with hde | ⟨rfl, h⟩
    · have := hmul hde
      omega
    · omega
  · rcases lt_trichotomy e d with hde | rfl | hde
    · exact .inl hde
    · exact .inr ⟨rfl, by omega⟩
    · have := hmul hde
      omega
  · rcases h with hde | ⟨rfl, h⟩
    · have := hmul hde
      omega
    · omega

/-- A number with fewer digits is smaller. -/
theorem value_lt_of_length_lt {ds es : List Nat} (hds : ∀ d ∈ ds, d < 10) (hhead : es.head? ≠ some 0)
    (hlen : ds.length < es.length) : value ds < value es := by
  have hne : es ≠ [] := fun h => by simp [h] at hlen
  exact lt_of_lt_of_le (lt_of_lt_of_le (value_lt hds) (Nat.pow_le_pow_right (by decide) (Nat.le_sub_one_of_lt hlen)))
    (pow_le_value hne hhead)

/-- As many digits of one number are the same digits. -/
theorem eq_of_value_eq_of_length {ds es : List Nat} (hds : ∀ d ∈ ds, d < 10) (hes : ∀ e ∈ es, e < 10)
    (hlen : ds.length = es.length) (h : value ds = value es) : ds = es := by
  induction ds generalizing es with
  | nil => exact (List.eq_nil_of_length_eq_zero hlen.symm).symm
  | cons d ds ih =>
    cases es with
    | nil => cases hlen
    | cons e es =>
      rw [List.forall_mem_cons] at hds hes
      have hlen' : ds.length = es.length := Nat.succ.inj hlen
      have horder := order_value_cons (d := d) (e := e) hlen' hds.2 hes.2
      rw [order_eq.2 h] at horder
      cases hde : order d e with
      | lt =>
        rw [hde] at horder
        cases horder
      | gt =>
        rw [hde] at horder
        cases horder
      | eq =>
        rw [hde] at horder
        rw [order_eq.1 hde, ih hds.2 hes.2 hlen' (order_eq.1 horder.symm)]

/-- A number has one row of digits without leading zeros. -/
theorem eq_of_value_eq {ds es : List Nat} (hds : ∀ d ∈ ds, d < 10) (hes : ∀ e ∈ es, e < 10) (hd : ds.head? ≠ some 0)
    (he : es.head? ≠ some 0) (h : value ds = value es) : ds = es := by
  refine eq_of_value_eq_of_length hds hes ?_ h
  rcases lt_trichotomy ds.length es.length with hlt | heq | hgt
  · exact absurd h (value_lt_of_length_lt hds he hlt).ne
  · exact heq
  · exact absurd h (value_lt_of_length_lt hes hd hgt).ne'

/-- As many digits are compared one by one. -/
theorem compareLex_digits {γ : Type} {cmp : γ → γ → Ordering} {f : γ → Nat} {as bs : List γ}
    (hlen : as.length = bs.length) (has : ∀ a ∈ as, f a < 10) (hbs : ∀ b ∈ bs, f b < 10)
    (hcmp : ∀ a ∈ as, ∀ b ∈ bs, cmp a b = order (f a) (f b)) :
    List.compareLex cmp as bs = order (value (as.map f)) (value (bs.map f)) := by
  induction as generalizing bs with
  | nil =>
    obtain rfl := List.eq_nil_of_length_eq_zero hlen.symm
    rfl
  | cons a as ih =>
    have hne : bs ≠ [] := fun h => by simp [h] at hlen
    obtain ⟨b, bs, rfl⟩ := List.exists_cons_of_ne_nil hne
    have hlen' : as.length = bs.length := Nat.succ.inj hlen
    have hrest := ih hlen' (fun a h => has a (List.mem_cons_of_mem _ h)) (fun b h => hbs b (List.mem_cons_of_mem _ h))
      fun a ha b hb => hcmp a (List.mem_cons_of_mem _ ha) b (List.mem_cons_of_mem _ hb)
    rw [List.compareLex_cons_cons, hcmp a List.mem_cons_self b List.mem_cons_self, hrest, List.map_cons, List.map_cons,
      order_value_cons (by simpa using hlen')]
    · intro d hd
      obtain ⟨a, ha, rfl⟩ := List.mem_map.1 hd
      exact has a (List.mem_cons_of_mem _ ha)
    · intro d hd
      obtain ⟨b, hb, rfl⟩ := List.mem_map.1 hd
      exact hbs b (List.mem_cons_of_mem _ hb)

end Lexical
