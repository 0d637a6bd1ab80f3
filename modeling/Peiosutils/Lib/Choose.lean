import Mathlib.Order.MinMax
import Mathlib.Data.List.Basic

/-!
# Choosing from a list: the first that fits, the last of the largest

`List.find?` takes the first element that passes. `lastMax key` takes an element with the largest key, the last one
when there are several. Folding `max` over a list gives its largest value (`foldl_max_mem`, `le_foldl_max`).
-/

set_option autoImplicit false

namespace ListChoice

variable {α β : Type} [LinearOrder β]

/-- The last of the elements with the largest key. -/
def lastMax (key : α → β) : List α → Option α
  | [] => none
  | x :: xs =>
    match lastMax key xs with
    | none => some x
    | some y => if key y < key x then some x else some y

theorem lastMax_eq_none {key : α → β} : ∀ {xs : List α}, lastMax key xs = none → xs = []
  | [], _ => rfl
  | x :: xs, h => by
    rw [lastMax] at h
    split at h
    · cases h
    · split at h <;> cases h

/-- What is chosen: nothing before it is larger, everything behind it is smaller. -/
theorem lastMax_eq_some {key : α → β} {x : α} : ∀ {xs : List α}, lastMax key xs = some x →
    ∃ as bs, xs = as ++ x :: bs ∧ (∀ a ∈ as, key a ≤ key x) ∧ ∀ b ∈ bs, key b < key x
  | [], h => by cases h
  | z :: xs, h => by
    rw [lastMax] at h
    cases hr : lastMax key xs with
    | none =>
      rw [hr] at h
      cases h
      rw [lastMax_eq_none hr]
      exact ⟨[], [], rfl, by simp, by simp⟩
    | some y =>
      rw [hr] at h
      obtain ⟨as, bs, rfl, has, hbs⟩ := lastMax_eq_some hr
      dsimp only at h
      split at h
      · rename_i hlt
        cases h
        refine ⟨[], as ++ y :: bs, rfl, by simp, ?_⟩
        intro b hb
        rcases List.mem_append.1 hb with hb | hb
        · exact lt_of_le_of_lt (has b hb) hlt
        · rcases List.mem_cons.1 hb with rfl | hb
          · exact hlt
          · exact (hbs b hb).trans hlt
      · rename_i hlt
        cases h
        refine ⟨z :: as, bs, rfl, ?_, hbs⟩
        intro a ha
        rcases List.mem_cons.1 ha with rfl | ha
        · exact not_lt.1 hlt
        · exact has a ha

theorem lastMax_mem {key : α → β} {x : α} {xs : List α} (h : lastMax key xs = some x) : x ∈ xs := by
  obtain ⟨as, bs, rfl, -, -⟩ := lastMax_eq_some h
  simp

/-- The chosen key bounds every key. -/
theorem le_lastMax {key : α → β} {x y : α} {xs : List α} (h : lastMax key xs = some x) (hy : y ∈ xs) :
    key y ≤ key x := by
  obtain ⟨as, bs, rfl, has, hbs⟩ := lastMax_eq_some h
  rcases List.mem_append.1 hy with hy | hy
  · exact has y hy
  · rcases List.mem_cons.1 hy with rfl | hy
    · exact le_refl _
    · exact (hbs y hy).le

/-- Whatever relates earlier elements to later ones relates an element of the largest key to the chosen one. -/
theorem rel_lastMax {key : α → β} {R : α → α → Prop} {x y : α} {xs : List α} (hR : xs.Pairwise R)
    (h : lastMax key xs = some x) (hy : y ∈ xs) (hk : key x ≤ key y) : y = x ∨ R y x := by
  obtain ⟨as, bs, rfl, -, hbs⟩ := lastMax_eq_some h
  rw [List.pairwise_append] at hR
  rcases List.mem_append.1 hy with hy | hy
  · exact Or.inr (hR.2.2 y hy x (by simp))
  · rcases List.mem_cons.1 hy with rfl | hy
    · exact Or.inl rfl
    · exact absurd (hbs y hy) (not_lt.2 hk)

/-- Whatever relates earlier elements to later ones relates the first that passes to every one that passes. -/
theorem rel_find? {p : α → Bool} {R : α → α → Prop} {x y : α} {xs : List α} (hR : xs.Pairwise R)
    (h : xs.find? p = some x) (hy : y ∈ xs) (hp : p y = true) : y = x ∨ R x y := by
  obtain ⟨-, as, bs, rfl, has⟩ := List.find?_eq_some_iff_append.1 h
  rw [List.pairwise_append] at hR
  rcases List.mem_append.1 hy with hy | hy
  · have := has y hy
    simp [hp] at this
  · rcases List.mem_cons.1 hy with rfl | hy
    · exact Or.inl rfl
    · exact Or.inr ((List.pairwise_cons.1 hR.2.1).1 y hy)

/-- Folding `max` gives the start or an element. -/
theorem foldl_max_mem : ∀ (xs : List β) (b : β), xs.foldl max b = b ∨ xs.foldl max b ∈ xs
  | [], _ => Or.inl rfl
  | x :: xs, b => by
    rw [List.foldl_cons]
    rcases foldl_max_mem xs (max b x) with h | h
    · rcases max_choice b x with hm | hm
      · exact Or.inl (h.trans hm)
      · exact Or.inr (List.mem_cons.2 (Or.inl (h.trans hm)))
    · exact Or.inr (List.mem_cons_of_mem x h)

/-- Folding `max` bounds the start and every element. -/
theorem le_foldl_max {y : β} : ∀ (xs : List β) (b : β), y ≤ b ∨ y ∈ xs → y ≤ xs.foldl max b
  | [], _, h => by simpa using h
  | x :: xs, b, h => by
    rw [List.foldl_cons]
    apply le_foldl_max
    rcases h with h | h
    · exact Or.inl (h.trans (le_max_left b x))
    · rcases List.mem_cons.1 h with rfl | h
      · exact Or.inl (le_max_right b y)
      · exact Or.inr h

end ListChoice
