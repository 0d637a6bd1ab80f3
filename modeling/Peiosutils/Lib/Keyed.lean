import Mathlib.Data.List.Infix
import Mathlib.Data.List.Lex
import Mathlib.Data.List.Sort
import Mathlib.Order.Lattice

/-!
# Sorting by a key, and sets in the order of a key

`sortOn key` sorts a list by a key and keeps the order of elements with equal keys. `OrdSet key` is a set kept as the
strictly ascending list of its members: two of them with the same members are equal (`OrdSet.ext_mem`), so that nothing
computed from such a set depends on how the set was built.
-/

set_option autoImplicit false

namespace Keyed

variable {α β : Type} [LinearOrder β] {key : α → β}

/-! ## Sorting -/

def sortOn (key : α → β) (xs : List α) : List α := xs.insertionSort fun a b => key a ≤ key b

theorem perm_sortOn (key : α → β) (xs : List α) : (sortOn key xs).Perm xs := List.perm_insertionSort _ xs

@[simp] theorem mem_sortOn {x : α} {xs : List α} : x ∈ sortOn key xs ↔ x ∈ xs := (perm_sortOn key xs).mem_iff

theorem pairwise_sortOn (key : α → β) (xs : List α) : (sortOn key xs).Pairwise fun a b => key a ≤ key b := by
  have : Std.Total fun a b : α => key a ≤ key b := ⟨fun a b => le_total (key a) (key b)⟩
  have : IsTrans α fun a b => key a ≤ key b := ⟨fun _ _ _ => le_trans⟩
  exact List.pairwise_insertionSort _ xs

/-- Where the keys are distinct, the sorted list does not depend on the order of the input. -/
theorem sortOn_eq_sortOn {xs ys : List α} (h : xs.Perm ys) (hinj : ∀ a ∈ xs, ∀ b ∈ xs, key a = key b → a = b) :
    sortOn key xs = sortOn key ys := by
  have hxs := perm_sortOn key xs
  have hys := (perm_sortOn key ys).trans h.symm
  refine List.Perm.eq_of_pairwise ?_ (pairwise_sortOn key xs) (pairwise_sortOn key ys) (hxs.trans hys.symm)
  intro a b ha hb hab hba
  exact hinj a (hxs.mem_iff.1 ha) b (hys.mem_iff.1 hb) (le_antisymm hab hba)

/-- The sorted keys ascend strictly, where they are distinct. -/
theorem pairwise_lt_sortOn {xs : List α} (hnd : (xs.map key).Nodup) :
    (sortOn key xs).Pairwise fun a b => key a < key b := by
  have hne : (sortOn key xs).Pairwise fun a b => key a ≠ key b :=
    List.pairwise_map.1 (((perm_sortOn key xs).map key).nodup_iff.2 hnd)
  exact ((pairwise_sortOn key xs).and hne).imp fun h => lt_of_le_of_ne h.1 h.2

/-! ## Stability -/

theorem filter_orderedInsert (k : β) (x : α) (xs : List α) :
    (xs.orderedInsert (fun a b => key a ≤ key b) x).filter (key · = k) = (x :: xs).filter (key · = k) := by
  induction xs with
  | nil => rfl
  | cons y ys ih =>
    rw [List.orderedInsert_cons]
    split
    · rfl
    · rename_i h
      rw [List.filter_cons, ih]
      by_cases hx : key x = k
      · have hy : key y ≠ k := fun hy => h (by rw [hx, hy])
        simp [hx, hy]
      · simp [hx, List.filter_cons]

/-- Sorting keeps the order among the elements of one key. -/
theorem filter_sortOn (k : β) (xs : List α) : (sortOn key xs).filter (key · = k) = xs.filter (key · = k) := by
  induction xs with
  | nil => rfl
  | cons x xs ih =>
    have : sortOn key (x :: xs) = (sortOn key xs).orderedInsert (fun a b => key a ≤ key b) x := rfl
    rw [this, filter_orderedInsert, List.filter_cons, List.filter_cons, ih]

/-- A sorted list is determined by what it holds under each key. -/
theorem eq_of_filter_eq {xs ys : List α} (hx : xs.Pairwise fun a b => key a ≤ key b)
    (hy : ys.Pairwise fun a b => key a ≤ key b) (h : ∀ k, xs.filter (key · = k) = ys.filter (key · = k)) : xs = ys := by
  have hmem : ∀ x, x ∈ xs ↔ x ∈ ys := by
    intro x
    have := congrArg (x ∈ ·) (h (key x))
    simpa using this
  induction xs generalizing ys with
  | nil =>
    cases ys with
    | nil => rfl
    | cons y ys => exact absurd ((hmem y).2 List.mem_cons_self) List.not_mem_nil
  | cons x xs ih =>
    cases ys with
    | nil => exact absurd ((hmem x).1 List.mem_cons_self) List.not_mem_nil
    | cons y ys =>
      have ⟨hx₁, hx₂⟩ := List.pairwise_cons.1 hx
      have ⟨hy₁, hy₂⟩ := List.pairwise_cons.1 hy
      have hxy : key x = key y := by
        apply le_antisymm
        · rcases List.mem_cons.1 ((hmem y).2 List.mem_cons_self) with e | hm
          · rw [e]
          · exact hx₁ y hm
        · rcases List.mem_cons.1 ((hmem x).1 List.mem_cons_self) with e | hm
          · rw [e]
          · exact hy₁ x hm
      have hhead := h (key x)
      rw [List.filter_cons_of_pos (by simp), List.filter_cons_of_pos (by simp [hxy])] at hhead
      have ⟨he, _⟩ := List.cons.inj hhead
      subst he
      have htail : ∀ k, xs.filter (key · = k) = ys.filter (key · = k) := by
        intro k
        have := h k
        by_cases hk : key x = k
        · rw [List.filter_cons_of_pos (by simp [hk]), List.filter_cons_of_pos (by simp [hk])] at this
          exact (List.cons.inj this).2
        · rwa [List.filter_cons_of_neg (by simp [hk]), List.filter_cons_of_neg (by simp [hk])] at this
      rw [ih hx₂ hy₂ htail]
      intro z
      have := congrArg (z ∈ ·) (htail (key z))
      simpa using this

/-- Lists that hold the same under each key are sorted to the same list. -/
theorem sortOn_congr {xs ys : List α} (h : ∀ k, xs.filter (key · = k) = ys.filter (key · = k)) :
    sortOn key xs = sortOn key ys := by
  refine eq_of_filter_eq (pairwise_sortOn key xs) (pairwise_sortOn key ys) fun k => ?_
  rw [filter_sortOn, filter_sortOn, h k]

theorem sortOn_eq_iff {xs ys : List α} :
    sortOn key xs = sortOn key ys ↔ ∀ k, xs.filter (key · = k) = ys.filter (key · = k) :=
  ⟨fun h k => by rw [← filter_sortOn k xs, h, filter_sortOn], sortOn_congr⟩

/-- A relation between the elements with equal keys, one key at a time. -/
theorem pairwise_filter_key {R : α → α → Prop} {xs : List α} :
    (∀ k, (xs.filter (key · = k)).Pairwise R) ↔ xs.Pairwise fun a b => key a = key b → R a b := by
  simp only [List.pairwise_filter, decide_eq_true_eq]
  constructor
  · intro h
    rw [List.pairwise_iff_forall_sublist]
    intro a b hab hk
    exact List.pairwise_iff_forall_sublist.1 (h (key a)) hab rfl hk.symm
  · intro h k
    exact h.imp fun hR ha hb => hR (ha.trans hb.symm)

/-- Lists with strictly ascending places and the same members are equal. -/
theorem eq_of_ascending {γ : Type} [LinearOrder γ] {place : α → γ} {xs ys : List α}
    (hx : xs.Pairwise fun a b => place a < place b) (hy : ys.Pairwise fun a b => place a < place b)
    (h : ∀ z, z ∈ xs ↔ z ∈ ys) : xs = ys := by
  have hnd : ∀ {zs : List α}, zs.Pairwise (fun a b => place a < place b) → zs.Nodup :=
    fun hz => hz.imp fun hlt e => absurd (congrArg place e) (ne_of_lt hlt)
  exact ((List.perm_ext_iff_of_nodup (hnd hx) (hnd hy)).2 h).eq_of_pairwise
    (fun _ _ _ _ hab hba => absurd hab hba.asymm) hx hy

/-- A list is sorted to the same as one whose places ascend just where it has the same members and its places ascend
among the elements of one key. -/
theorem sortOn_eq_iff_of_ascending {γ : Type} [LinearOrder γ] {place : α → γ} {xs ys : List α}
    (hy : ys.Pairwise fun a b => place a < place b) :
    sortOn key xs = sortOn key ys ↔
      (∀ z, z ∈ xs ↔ z ∈ ys) ∧ xs.Pairwise fun a b => key a = key b → place a < place b := by
  rw [sortOn_eq_iff, ← pairwise_filter_key]
  constructor
  · intro h
    refine ⟨fun z => ?_, fun k => ?_⟩
    · have := congrArg (z ∈ ·) (h (key z))
      simpa using this
    · rw [h k]
      exact hy.filter _
  · rintro ⟨hmem, hx⟩ k
    refine eq_of_ascending (hx k) (hy.filter _) fun z => ?_
    simp only [List.mem_filter, hmem]

theorem sortOn_map_eq_iff {γ : Type} {f : γ → α} (hf : Function.Injective f) {xs ys : List γ} :
    sortOn key (xs.map f) = sortOn key (ys.map f) ↔ sortOn (key ∘ f) xs = sortOn (key ∘ f) ys := by
  rw [sortOn_eq_iff, sortOn_eq_iff]
  refine forall_congr' fun k => ?_
  rw [List.filter_map, List.filter_map, (List.map_injective_iff.2 hf).eq_iff]
  rfl

/-- A part of a list, sorted, is that part of the sorted list. -/
theorem sortOn_filter (p : α → Bool) (xs : List α) : sortOn key (xs.filter p) = (sortOn key xs).filter p := by
  refine eq_of_filter_eq (pairwise_sortOn key _) ((pairwise_sortOn key xs).filter p) fun k => ?_
  rw [filter_sortOn, List.filter_comm, ← filter_sortOn k xs]
  exact List.filter_comm ..

/-! ## Ordered sets -/

/-- `x` put into an ascending list, unless its key is there. -/
def place (key : α → β) (x : α) : List α → List α
  | [] => [x]
  | y :: ys => if key x < key y then x :: y :: ys else if key y < key x then y :: place key x ys else y :: ys

theorem mem_place (hinj : Function.Injective key) {x z : α} {ys : List α} : z ∈ place key x ys ↔ z = x ∨ z ∈ ys := by
  induction ys with
  | nil => simp [place]
  | cons y ys ih =>
    unfold place
    split
    · simp
    · split
      · simp only [List.mem_cons, ih]
        tauto
      · rename_i h₁ h₂
        have hxy : x = y := hinj (le_antisymm (not_lt.1 h₂) (not_lt.1 h₁))
        simp only [List.mem_cons, hxy]
        tauto

theorem mem_of_mem_place {x z : α} {ys : List α} (h : z ∈ place key x ys) : z = x ∨ z ∈ ys := by
  induction ys with
  | nil => simpa [place] using h
  | cons y ys ih =>
    unfold place at h
    split at h
    · simpa using h
    · split at h
      · rcases List.mem_cons.1 h with rfl | h
        · exact Or.inr (by simp)
        · exact (ih h).imp id (List.mem_cons_of_mem y)
      · exact Or.inr h

theorem pairwise_place {x : α} {ys : List α} (h : ys.Pairwise fun a b => key a < key b) :
    (place key x ys).Pairwise fun a b => key a < key b := by
  induction ys with
  | nil => simp [place]
  | cons y ys ih =>
    have ⟨hy, hys⟩ := List.pairwise_cons.1 h
    unfold place
    split
    · rename_i hlt
      refine List.pairwise_cons.2 ⟨?_, h⟩
      intro z hz
      rcases List.mem_cons.1 hz with rfl | hz
      · exact hlt
      · exact hlt.trans (hy z hz)
    · split
      · rename_i hlt
        refine List.pairwise_cons.2 ⟨?_, ih hys⟩
        intro z hz
        rcases mem_of_mem_place hz with rfl | hz
        · exact hlt
        · exact hy z hz
      · exact h

/-- A set kept as the ascending list of its members. -/
structure OrdSet (key : α → β) where
  toList : List α
  ascending : toList.Pairwise fun a b => key a < key b

namespace OrdSet

instance : Membership α (OrdSet key) := ⟨fun s x => x ∈ s.toList⟩

theorem mem_toList {x : α} {s : OrdSet key} : x ∈ s.toList ↔ x ∈ s := Iff.rfl

instance [DecidableEq α] (x : α) (s : OrdSet key) : Decidable (x ∈ s) := inferInstanceAs (Decidable (x ∈ s.toList))

def insert (s : OrdSet key) (x : α) : OrdSet key := ⟨place key x s.toList, pairwise_place s.ascending⟩

/-- The set of the elements of a list. -/
def ofList (xs : List α) : OrdSet key := xs.foldl insert ⟨[], List.Pairwise.nil⟩

theorem mem_insert (hinj : Function.Injective key) {x z : α} {s : OrdSet key} : z ∈ s.insert x ↔ z = x ∨ z ∈ s :=
  mem_place hinj

theorem mem_ofList (hinj : Function.Injective key) {z : α} {xs : List α} :
    z ∈ (ofList xs : OrdSet key) ↔ z ∈ xs := by
  suffices h : ∀ s : OrdSet key, z ∈ xs.foldl insert s ↔ z ∈ s ∨ z ∈ xs by
    refine (h _).trans ?_
    simp [← mem_toList]
  induction xs with
  | nil => simp
  | cons x xs ih =>
    intro s
    rw [List.foldl_cons, ih, mem_insert hinj, List.mem_cons]
    tauto

theorem nodup (s : OrdSet key) : s.toList.Nodup := s.ascending.imp fun h e => absurd (congrArg key e) (ne_of_lt h)

/-- Sets with the same members are equal. -/
theorem ext_mem {s t : OrdSet key} (h : ∀ x, x ∈ s ↔ x ∈ t) : s = t := by
  obtain ⟨xs, hxs⟩ := s
  obtain ⟨ys, hys⟩ := t
  have hp : xs.Perm ys := (List.perm_ext_iff_of_nodup (nodup ⟨xs, hxs⟩) (nodup ⟨ys, hys⟩)).2 h
  have : xs = ys := hp.eq_of_pairwise (fun a b _ _ hab hba => absurd hab hba.asymm) hxs hys
  subst this
  rfl

/-- The least member, and the set without it. -/
def popFirst (s : OrdSet key) : Option (α × OrdSet key) :=
  match s with
  | ⟨[], _⟩ => none
  | ⟨x :: xs, h⟩ => some (x, ⟨xs, (List.pairwise_cons.1 h).2⟩)

theorem popFirst_eq_none {s : OrdSet key} : s.popFirst = none ↔ ∀ x, x ∉ s := by
  obtain ⟨xs, hxs⟩ := s
  cases xs with
  | nil => simp [popFirst, ← mem_toList]
  | cons x xs =>
    simp only [popFirst, reduceCtorEq, false_iff, not_forall, not_not]
    exact ⟨x, List.mem_cons_self⟩

theorem popFirst_eq_some {s t : OrdSet key} {x : α} (h : s.popFirst = some (x, t)) :
    x ∈ s ∧ (∀ z ∈ s, key x ≤ key z) ∧ ∀ z, z ∈ t ↔ z ∈ s ∧ z ≠ x := by
  obtain ⟨xs, hxs⟩ := s
  cases xs with
  | nil => cases h
  | cons y ys =>
    cases h
    have ⟨hy, _⟩ := List.pairwise_cons.1 hxs
    refine ⟨List.mem_cons_self, ?_, ?_⟩
    · intro z hz
      rcases List.mem_cons.1 hz with rfl | hz
      · exact le_refl _
      · exact (hy z hz).le
    · intro z
      change z ∈ ys ↔ z ∈ x :: ys ∧ z ≠ x
      rw [List.mem_cons]
      constructor
      · intro hz
        exact ⟨Or.inr hz, fun e => absurd (congrArg key e) (ne_of_gt (hy z hz))⟩
      · rintro ⟨rfl | hz, hne⟩
        · exact absurd rfl hne
        · exact hz

end OrdSet

/-- Passing over two ascending lists gives the same, where an element that only one of them has gives nothing. -/
theorem flatMap_eq_of_ascending {δ : Type} (f : α → List δ) {xs ys : List α}
    (hx : xs.Pairwise fun a b => key a < key b) (hy : ys.Pairwise fun a b => key a < key b)
    (hxy : ∀ x ∈ xs, f x ≠ [] → x ∈ ys) (hyx : ∀ y ∈ ys, f y ≠ [] → y ∈ xs) : xs.flatMap f = ys.flatMap f := by
  classical
  have hdrop : ∀ zs : List α, zs.flatMap f = (zs.filter (f · ≠ [])).flatMap f := by
    intro zs
    induction zs with
    | nil => rfl
    | cons z zs ih =>
      by_cases hz : f z = []
      · rw [List.flatMap_cons, hz, List.nil_append, ih, List.filter_cons_of_neg (by simp [hz])]
      · rw [List.flatMap_cons, ih, List.filter_cons_of_pos (by simp [hz]), List.flatMap_cons]
  have hset : (⟨xs.filter (f · ≠ []), hx.filter _⟩ : OrdSet key) = ⟨ys.filter (f · ≠ []), hy.filter _⟩ := by
    refine OrdSet.ext_mem fun z => ?_
    change z ∈ xs.filter _ ↔ z ∈ ys.filter _
    simp only [List.mem_filter, decide_eq_true_eq]
    exact ⟨fun ⟨hz, hf⟩ => ⟨hxy z hz hf, hf⟩, fun ⟨hz, hf⟩ => ⟨hyx z hz hf, hf⟩⟩
  rw [hdrop xs, hdrop ys, (OrdSet.mk.inj hset)]

/-! ## Keys that are lists -/

/-- In the lexicographic order, what lies between `p` and a list that begins with `p` begins with `p` as well. -/
theorem prefix_of_between {α : Type} [LinearOrder α] {p x s : List α} (h₁ : p ≤ x) (h₂ : x ≤ p ++ s) : p <+: x := by
  induction p generalizing x with
  | nil => exact List.nil_prefix
  | cons a p ih =>
    cases x with
    | nil => exact absurd (not_lt.2 h₁) (not_not.2 (List.nil_lt_cons a p))
    | cons b x =>
      have h₁' : ¬ b :: x < a :: p := not_lt.2 h₁
      have h₂' : ¬ a :: (p ++ s) < b :: x := not_lt.2 h₂
      rw [List.cons_lt_cons_iff, not_or, not_and] at h₁' h₂'
      obtain rfl : a = b := le_antisymm (not_lt.1 h₁'.1) (not_lt.1 h₂'.1)
      exact (List.prefix_cons_inj a).2 (ih (not_lt.1 (h₁'.2 rfl)) (not_lt.1 (h₂'.2 rfl)))

/-- A list comes before what begins with it. -/
theorem le_append {α : Type} [LinearOrder α] (p s : List α) : p ≤ p ++ s := by
  induction p with
  | nil =>
    cases s with
    | nil => exact le_refl _
    | cons a s => exact le_of_lt (List.nil_lt_cons a s)
  | cons a p ih => exact List.cons_le_cons a ih

end Keyed
