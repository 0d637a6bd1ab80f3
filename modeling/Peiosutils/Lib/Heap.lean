import Mathlib.Data.List.Perm.Basic

/-!
# Binary heaps

`MaxHeap` is what a binary heap promises about its top, for any total preorder of what it holds: `peek` gives a
greatest one, `pop` removes it and writing through `peek_mut` puts another in its place. `MaxHeap.unordered` is the
plainest heap there is.
-/

set_option autoImplicit false

namespace Peiosutils

/-- A heap of `α`s whose top is the greatest by `cmp`. -/
structure MaxHeap (α : Type) (cmp : α → α → Ordering) where
  Carrier : Type
  fromVec : List α → Carrier
  elems : Carrier → List α
  peek : Carrier → Option α
  pop : Carrier → Carrier
  setTop : Carrier → α → Carrier
  elems_fromVec : ∀ xs, (elems (fromVec xs)).Perm xs
  peek_eq_none : ∀ h, peek h = none ↔ elems h = []
  elems_pop : ∀ {h x}, peek h = some x → (elems h).Perm (x :: elems (pop h))
  elems_setTop : ∀ {h x}, peek h = some x → ∀ y, (elems (setTop h y)).Perm (y :: elems (pop h))
  peek_greatest : ∀ {h x}, peek h = some x → ∀ y ∈ elems h, (cmp y x).isLE

namespace MaxHeap

variable {α : Type} {cmp : α → α → Ordering} (H : MaxHeap α cmp)

variable {H} in
theorem mem_of_peek {h : H.Carrier} {x : α} (hx : H.peek h = some x) : x ∈ H.elems h :=
  (H.elems_pop hx).mem_iff.2 List.mem_cons_self

/-! ## A list that is searched for its greatest -/

/-- The greatest, the first of several, and the others. -/
def takeGreatest (cmp : α → α → Ordering) (x : α) : List α → α × List α
  | [] => (x, [])
  | y :: ys =>
    let (top, rest) := takeGreatest cmp y ys
    if (cmp top x).isLE then (x, top :: rest) else (top, x :: rest)

theorem perm_takeGreatest (x : α) (xs : List α) :
    (x :: xs).Perm ((takeGreatest cmp x xs).1 :: (takeGreatest cmp x xs).2) := by
  induction xs generalizing x with
  | nil => exact List.Perm.refl _
  | cons y ys ih =>
    unfold takeGreatest
    dsimp only
    split
    · exact (ih y).cons x
    · exact ((ih y).cons x).trans (List.Perm.swap _ _ _)

theorem le_takeGreatest [Std.TransCmp cmp] (x : α) (xs : List α) :
    ∀ y ∈ x :: xs, (cmp y (takeGreatest cmp x xs).1).isLE := by
  induction xs generalizing x with
  | nil =>
    intro y hy
    rw [List.mem_singleton.1 hy]
    simp [takeGreatest, Std.ReflCmp.compare_self]
  | cons z zs ih =>
    intro y hy
    unfold takeGreatest
    dsimp only
    split
    · rename_i hle
      rcases List.mem_cons.1 hy with rfl | hy
      · simp [Std.ReflCmp.compare_self]
      · exact Std.TransCmp.isLE_trans (ih z y hy) hle
    · rename_i hle
      rcases List.mem_cons.1 hy with rfl | hy
      · have : cmp (takeGreatest cmp z zs).1 y = .gt := by
          revert hle
          cases cmp (takeGreatest cmp z zs).1 y <;> simp
        rw [Std.OrientedCmp.lt_of_gt this]
        rfl
      · exact ih z y hy

/-- A heap that keeps its elements in a list, in no order. -/
def unordered (cmp : α → α → Ordering) [Std.TransCmp cmp] : MaxHeap α cmp where
  Carrier := List α
  fromVec xs := xs
  elems xs := xs
  peek
    | [] => none
    | x :: xs => some (takeGreatest cmp x xs).1
  pop
    | [] => []
    | x :: xs => (takeGreatest cmp x xs).2
  setTop xs y := match xs with
    | [] => []
    | x :: xs => y :: (takeGreatest cmp x xs).2
  elems_fromVec xs := List.Perm.refl xs
  peek_eq_none h := by cases h <;> simp
  elems_pop {h x} hx := by
    cases h with
    | nil => cases hx
    | cons y ys =>
      cases hx
      exact perm_takeGreatest y ys
  elems_setTop {h x} hx y := by
    cases h with
    | nil => cases hx
    | cons z zs => exact List.Perm.refl _
  peek_greatest {h x} hx := by
    cases h with
    | nil => cases hx
    | cons y ys =>
      cases hx
      exact le_takeGreatest y ys

end MaxHeap

end Peiosutils
