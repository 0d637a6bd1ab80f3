import Mathlib.Order.Basic

/-!
# Values that hold other values

Items stand one behind the other. An item says how many values behind it belong to it, so that a value is an item with
its own values. `Values Item n` goes over `n` values; it can be cut between them (`values_add`), ends at one place only
(`Values.unique`), and gets smaller with every item (`Values.measure_le`).
-/

set_option autoImplicit false

namespace Nested

variable {σ : Type} {Item : σ → Nat → σ → Prop} {k m n : Nat} {s t u : σ}

/-- From the one state to the other there are `n` values. -/
inductive Values (Item : σ → Nat → σ → Prop) : Nat → σ → σ → Prop
  | done (s : σ) : Values Item 0 s s
  | item {k n : Nat} {s t u : σ} (h : Item s k t) (hrest : Values Item (k + n) t u) : Values Item (n + 1) s u

theorem Values.append (h : Values Item m s t) (h' : Values Item n t u) : Values Item (m + n) s u := by
  induction h with
  | done => rwa [Nat.zero_add]
  | @item k m s t u hitem _ ih =>
    rw [Nat.add_right_comm]
    refine .item hitem ?_
    rw [← Nat.add_assoc]
    exact ih h'

theorem Values.split (h : Values Item n s u) :
    ∀ {m k : Nat}, n = m + k → ∃ t, Values Item m s t ∧ Values Item k t u := by
  induction h with
  | done s =>
    intro m k hn
    obtain ⟨rfl, rfl⟩ : m = 0 ∧ k = 0 := by omega
    exact ⟨s, .done s, .done s⟩
  | @item j n s t u hitem hrest ih =>
    intro m k hn
    cases m with
    | zero =>
      rw [Nat.zero_add] at hn
      subst hn
      exact ⟨s, .done s, .item hitem hrest⟩
    | succ m =>
      obtain ⟨t', hleft, hright⟩ := @ih (j + m) k (by omega)
      exact ⟨t', .item hitem hleft, hright⟩

/-- Values may be cut. -/
theorem values_add : Values Item (m + n) s u ↔ ∃ t, Values Item m s t ∧ Values Item n t u := by
  constructor
  · exact fun h => h.split rfl
  · rintro ⟨t, hleft, hright⟩
    exact hleft.append hright

theorem values_one : Values Item 1 s u ↔ ∃ k t, Item s k t ∧ Values Item k t u := by
  constructor
  · intro h
    cases h with
    | item hitem hrest => exact ⟨_, _, hitem, hrest⟩
  · rintro ⟨k, t, hitem, hrest⟩
    exact .item hitem hrest

/-- Where items are unique, values end at one place only. -/
theorem Values.unique (hItem : ∀ s k k' t t', Item s k t → Item s k' t' → k = k' ∧ t = t')
    (h : Values Item n s t) (h' : Values Item n s u) : t = u := by
  induction h with
  | done =>
    cases h'
    rfl
  | item hitem _ ih =>
    cases h' with
    | item hitem' hrest' =>
      obtain ⟨rfl, rfl⟩ := hItem _ _ _ _ _ hitem hitem'
      exact ih hrest'

/-- Every value takes something. -/
theorem Values.measure_le {f : σ → Nat} (hItem : ∀ s k t, Item s k t → f t < f s) (h : Values Item n s t) :
    f t + n ≤ f s := by
  induction h with
  | done => exact Nat.le_refl _
  | item hitem _ ih =>
    have hlt := hItem _ _ _ hitem
    omega

end Nested
