import Peiosutils.Lib.Keyed

/-!
# Joining two sorted lists by a key

`join` is the relational definition: for every key, in ascending order, what comes of the lines that have it in the one
list and in the other. A merge of the two lists passes through it from the front: a line whose key is below all keys of
the other list comes first (`joinOver_left`, `joinOver_right`), and so do the lines of both lists that have the smallest
key (`joinOver_paired`).
-/

set_option autoImplicit false

namespace MergeJoin

open Keyed

variable {α β κ γ : Type} [LinearOrder κ]

/-- What comes of the lines of one key: of those of two lists together, and of one that has no partner. -/
structure Parts (α β γ : Type) where
  paired : List α → List β → List γ
  left : α → List γ
  right : β → List γ

namespace Parts

/-- The lines of one key. -/
def group (p : Parts α β γ) (as : List α) (bs : List β) : List γ :=
  match as, bs with
  | as, [] => as.flatMap p.left
  | [], bs => bs.flatMap p.right
  | as, bs => p.paired as bs

def swap (p : Parts α β γ) : Parts β α γ := ⟨fun bs as => p.paired as bs, p.right, p.left⟩

@[simp] theorem group_nil_right (p : Parts α β γ) (as : List α) : p.group as [] = as.flatMap p.left := by
  cases as <;> rfl

@[simp] theorem group_nil_left (p : Parts α β γ) (bs : List β) : p.group [] bs = bs.flatMap p.right := by
  cases bs <;> rfl

theorem group_of_ne (p : Parts α β γ) {as : List α} {bs : List β} (ha : as ≠ []) (hb : bs ≠ []) :
    p.group as bs = p.paired as bs := by
  cases as with
  | nil => exact absurd rfl ha
  | cons a as =>
    cases bs with
    | nil => exact absurd rfl hb
    | cons b bs => rfl

theorem group_swap (p : Parts α β γ) (as : List α) (bs : List β) : p.swap.group bs as = p.group as bs := by
  cases as <;> cases bs <;> rfl

end Parts

variable {p : Parts α β γ} {key₁ : α → κ} {key₂ : β → κ}

/-- The join, where the keys are given. -/
def joinOver (p : Parts α β γ) (key₁ : α → κ) (key₂ : β → κ) (keys : List κ) (as : List α) (bs : List β) : List γ :=
  keys.flatMap fun k => p.group (as.filter (key₁ · = k)) (bs.filter (key₂ · = k))

/-- The keys of two lists, each once and in ascending order. -/
def keysOf (key₁ : α → κ) (key₂ : β → κ) (as : List α) (bs : List β) : OrdSet (id : κ → κ) :=
  OrdSet.ofList (as.map key₁ ++ bs.map key₂)

/-- For each key in ascending order, what comes of its lines. -/
def join (p : Parts α β γ) (key₁ : α → κ) (key₂ : β → κ) (as : List α) (bs : List β) : List γ :=
  joinOver p key₁ key₂ (keysOf key₁ key₂ as bs).toList as bs

theorem mem_keysOf {as : List α} {bs : List β} {k : κ} :
    k ∈ (keysOf key₁ key₂ as bs).toList ↔ (∃ a ∈ as, key₁ a = k) ∨ ∃ b ∈ bs, key₂ b = k := by
  rw [OrdSet.mem_toList, keysOf, OrdSet.mem_ofList Function.injective_id, List.mem_append, List.mem_map, List.mem_map]

theorem joinOver_swap (p : Parts α β γ) (keys : List κ) (as : List α) (bs : List β) :
    joinOver p.swap key₂ key₁ keys bs as = joinOver p key₁ key₂ keys as bs := by
  simp only [joinOver, Parts.group_swap]

/-- What is in front of the smallest key that gives anything gives nothing, and what is behind it stays. -/
theorem flatMap_first {keys : List κ} (hkeys : keys.Pairwise (· < ·)) {k : κ} (hk : k ∈ keys) {f g : κ → List γ}
    {out : List γ} (hlt : ∀ j, j < k → f j = [] ∧ g j = []) (hfirst : f k = out ++ g k) (hgt : ∀ j, k < j → f j = g j) :
    keys.flatMap f = out ++ keys.flatMap g := by
  induction keys with
  | nil => cases hk
  | cons x keys ih =>
    obtain ⟨hx, hkeys⟩ := List.pairwise_cons.1 hkeys
    rw [List.flatMap_cons, List.flatMap_cons]
    rcases List.mem_cons.1 hk with rfl | hk
    · have hrest : keys.flatMap f = keys.flatMap g := List.flatMap_congr fun j hj => hgt j (hx j hj)
      rw [hfirst, hrest, List.append_assoc]
    · obtain ⟨hf, hg⟩ := hlt x (hx k hk)
      rw [hf, hg, ih hkeys hk]
      rfl

/-- Where all keys are others, no line is left. -/
theorem filter_key_eq_nil {key : α → κ} {as : List α} {k : κ} (h : ∀ a ∈ as, key a ≠ k) :
    as.filter (key · = k) = [] :=
  List.filter_eq_nil_iff.2 fun a ha => by simpa using h a ha

theorem filter_key_eq_self {key : α → κ} {as : List α} {k : κ} (h : ∀ a ∈ as, key a = k) :
    as.filter (key · = k) = as :=
  List.filter_eq_self.2 fun a ha => by simpa using h a ha

variable {keys : List κ} {a : α} {b : β} {as : List α} {bs : List β}

/-- A line whose key is below all keys of the other list has no partner, and comes first. -/
theorem joinOver_left (hkeys : keys.Pairwise (· < ·)) (hmem : key₁ a ∈ keys) (has : ∀ x ∈ as, key₁ a ≤ key₁ x)
    (hbs : ∀ y ∈ bs, key₁ a < key₂ y) :
    joinOver p key₁ key₂ keys (a :: as) bs = p.left a ++ joinOver p key₁ key₂ keys as bs := by
  refine flatMap_first hkeys hmem (fun j hj => ?_) ?_ fun j hj => ?_
  · have h₁ : (a :: as).filter (key₁ · = j) = [] := filter_key_eq_nil (by
      intro x hx
      rcases List.mem_cons.1 hx with rfl | hx
      · exact hj.ne'
      · exact (hj.trans_le (has x hx)).ne')
    have h₂ : as.filter (key₁ · = j) = [] := filter_key_eq_nil fun x hx => (hj.trans_le (has x hx)).ne'
    have h₃ : bs.filter (key₂ · = j) = [] := filter_key_eq_nil fun y hy => (hj.trans (hbs y hy)).ne'
    rw [h₁, h₂, h₃]
    exact ⟨rfl, rfl⟩
  · have h₃ : bs.filter (key₂ · = key₁ a) = [] := filter_key_eq_nil fun y hy => (hbs y hy).ne'
    rw [h₃, List.filter_cons_of_pos (by simp), Parts.group_nil_right, Parts.group_nil_right, List.flatMap_cons]
  · rw [List.filter_cons_of_neg (by simpa using hj.ne)]

theorem joinOver_right (hkeys : keys.Pairwise (· < ·)) (hmem : key₂ b ∈ keys) (hbs : ∀ y ∈ bs, key₂ b ≤ key₂ y)
    (has : ∀ x ∈ as, key₂ b < key₁ x) :
    joinOver p key₁ key₂ keys as (b :: bs) = p.right b ++ joinOver p key₁ key₂ keys as bs := by
  rw [← joinOver_swap, ← joinOver_swap p keys as bs]
  exact joinOver_left hkeys hmem hbs has

/-- The lines of the smallest key, which both lists have, come first. -/
theorem joinOver_paired (hkeys : keys.Pairwise (· < ·)) {k : κ} (hmem : k ∈ keys) {as' : List α} {bs' : List β}
    (hne₁ : as ≠ []) (hne₂ : bs ≠ []) (has : ∀ x ∈ as, key₁ x = k) (hbs : ∀ y ∈ bs, key₂ y = k)
    (has' : ∀ x ∈ as', k < key₁ x) (hbs' : ∀ y ∈ bs', k < key₂ y) :
    joinOver p key₁ key₂ keys (as ++ as') (bs ++ bs') = p.paired as bs ++ joinOver p key₁ key₂ keys as' bs' := by
  refine flatMap_first hkeys hmem (fun j hj => ?_) ?_ fun j hj => ?_
  · have h₁ : as.filter (key₁ · = j) = [] := filter_key_eq_nil fun x hx => (has x hx).trans_ne hj.ne'
    have h₂ : bs.filter (key₂ · = j) = [] := filter_key_eq_nil fun y hy => (hbs y hy).trans_ne hj.ne'
    have h₃ : as'.filter (key₁ · = j) = [] := filter_key_eq_nil fun x hx => (hj.trans (has' x hx)).ne'
    have h₄ : bs'.filter (key₂ · = j) = [] := filter_key_eq_nil fun y hy => (hj.trans (hbs' y hy)).ne'
    rw [List.filter_append, List.filter_append, h₁, h₂, h₃, h₄]
    exact ⟨rfl, rfl⟩
  · have h₃ : as'.filter (key₁ · = k) = [] := filter_key_eq_nil fun x hx => (has' x hx).ne'
    have h₄ : bs'.filter (key₂ · = k) = [] := filter_key_eq_nil fun y hy => (hbs' y hy).ne'
    rw [List.filter_append, List.filter_append, h₃, h₄, filter_key_eq_self has, filter_key_eq_self hbs, List.append_nil,
      List.append_nil, Parts.group_of_ne p hne₁ hne₂]
    exact (List.append_nil _).symm
  · have h₁ : as.filter (key₁ · = j) = [] := filter_key_eq_nil fun x hx => (has x hx).trans_ne hj.ne
    have h₂ : bs.filter (key₂ · = j) = [] := filter_key_eq_nil fun y hy => (hbs y hy).trans_ne hj.ne
    rw [List.filter_append, List.filter_append, h₁, h₂, List.nil_append, List.nil_append]

/-- Lines of a sorted list that are alone have no partners. -/
theorem joinOver_nil_right (hkeys : keys.Pairwise (· < ·)) (hmem : ∀ x ∈ as, key₁ x ∈ keys)
    (has : as.Pairwise fun x y => key₁ x ≤ key₁ y) : joinOver p key₁ key₂ keys as [] = as.flatMap p.left := by
  induction as with
  | nil => simp [joinOver]
  | cons a as ih =>
    obtain ⟨ha, has⟩ := List.pairwise_cons.1 has
    rw [joinOver_left hkeys (hmem a List.mem_cons_self) ha (by simp),
      ih (fun x hx => hmem x (List.mem_cons_of_mem _ hx)) has, List.flatMap_cons]

theorem joinOver_nil_left (hkeys : keys.Pairwise (· < ·)) (hmem : ∀ y ∈ bs, key₂ y ∈ keys)
    (hbs : bs.Pairwise fun x y => key₂ x ≤ key₂ y) : joinOver p key₁ key₂ keys [] bs = bs.flatMap p.right := by
  rw [← joinOver_swap]
  exact joinOver_nil_right hkeys hmem hbs

end MergeJoin
