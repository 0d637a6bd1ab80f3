import Mathlib.Data.List.Destutter

/-!
# Stable sorting by a comparator

A comparator that is a total preorder cuts a list into classes. `SortOf` says that a list is sorted and holds every
class of another list in the order it has there, and `SortOf.unique` that there is one such list. Sorting
(`sortOf_mergeSort`) and merging (`SortOf.merge`) give it. `UniqOf` is the same with the first of each class
only (`uniqOf_eraseDupsBy`, `UniqOf.destutter`).
-/

set_option autoImplicit false

namespace Peiosutils.Stable

variable {α : Type} (cmp : α → α → Ordering)

/-- What the comparator calls equal to `k`, in the order of the list. -/
def classOf (k : α) (xs : List α) : List α := xs.filter fun a => cmp k a == .eq

def Sorted (xs : List α) : Prop := xs.Pairwise fun a b => (cmp a b).isLE

/-- `ys` is sorted and holds each class of `xs` in the order of `xs`. -/
structure SortOf (xs ys : List α) : Prop where
  sorted : Sorted cmp ys
  classes : ∀ k, classOf cmp k ys = classOf cmp k xs

/-- `ys` is sorted and holds the first of each class of `xs`. -/
structure UniqOf (xs ys : List α) : Prop where
  sorted : Sorted cmp ys
  classes : ∀ k, classOf cmp k ys = (classOf cmp k xs).take 1

variable {cmp}

/-! ## Classes -/

@[simp] theorem classOf_nil (k : α) : classOf cmp k [] = [] := rfl

theorem classOf_cons (k a : α) (xs : List α) :
    classOf cmp k (a :: xs) = if cmp k a = .eq then a :: classOf cmp k xs else classOf cmp k xs := by
  simp [classOf, List.filter_cons]

@[simp] theorem classOf_append (k : α) (xs ys : List α) :
    classOf cmp k (xs ++ ys) = classOf cmp k xs ++ classOf cmp k ys := List.filter_append xs ys

theorem classOf_flatten (k : α) (xss : List (List α)) :
    classOf cmp k xss.flatten = (xss.map (classOf cmp k)).flatten := List.filter_flatten

@[simp] theorem mem_classOf {k a : α} {xs : List α} : a ∈ classOf cmp k xs ↔ a ∈ xs ∧ cmp k a = .eq := by
  simp [classOf]

theorem classOf_eq_nil {k : α} {xs : List α} : classOf cmp k xs = [] ↔ ∀ a ∈ xs, cmp k a ≠ .eq := by
  simp [classOf]

theorem sorted_cons {a : α} {xs : List α} : Sorted cmp (a :: xs) ↔ (∀ b ∈ xs, (cmp a b).isLE) ∧ Sorted cmp xs :=
  List.pairwise_cons

namespace SortOf

theorem of_sorted {xs : List α} (h : Sorted cmp xs) : SortOf cmp xs xs := ⟨h, fun _ => rfl⟩

end SortOf

variable [Std.TransCmp cmp]

theorem isLE_total (a b : α) : ((cmp a b).isLE || (cmp b a).isLE) = true := by
  rw [show cmp b a = (cmp a b).swap from Std.OrientedCmp.eq_swap]
  cases cmp a b <;> rfl

theorem mem_of_classes {xs ys : List α} (h : ∀ k, classOf cmp k ys = classOf cmp k xs) {a : α} :
    a ∈ ys ↔ a ∈ xs := by
  have hself : ∀ zs, a ∈ classOf cmp a zs ↔ a ∈ zs := fun zs => by simp [Std.ReflCmp.compare_self]
  rw [← hself ys, ← hself xs, h]

/-- A sorted list starts with the class of its head. -/
theorem classOf_eq_nil_of_lt {k a : α} {xs : List α} (hs : Sorted cmp (a :: xs)) (h : cmp k a = .lt) :
    classOf cmp k (a :: xs) = [] := by
  rw [classOf_eq_nil]
  intro b hb heq
  have hab : (cmp a b).isLE := by
    rcases List.mem_cons.1 hb with rfl | hb
    · simp [Std.ReflCmp.compare_self]
    · exact List.rel_of_pairwise_cons hs hb
  have := Std.TransCmp.lt_of_lt_of_isLE h hab
  rw [heq] at this
  cases this

/-- Two sorted lists with the same classes are the same. -/
theorem eq_of_classes {xs ys : List α} (hx : Sorted cmp xs) (hy : Sorted cmp ys)
    (h : ∀ k, classOf cmp k xs = classOf cmp k ys) : xs = ys := by
  induction xs generalizing ys with
  | nil =>
    cases ys with
    | nil => rfl
    | cons b ys =>
      have := (mem_of_classes h (a := b)).2 List.mem_cons_self
      cases this
  | cons a xs ih =>
    cases ys with
    | nil =>
      have := (mem_of_classes h (a := a)).1 List.mem_cons_self
      cases this
    | cons b ys =>
      -- each head is in the other list, so neither comes before the other
      have hab : cmp a b = .eq := by
        have ha := (mem_of_classes h (a := a)).1 List.mem_cons_self
        have hb := (mem_of_classes h (a := b)).2 List.mem_cons_self
        rcases hcmp : cmp a b with _ | _ | _
        · have hnil := classOf_eq_nil_of_lt hy hcmp
          exact absurd (mem_classOf.2 ⟨ha, Std.ReflCmp.compare_self⟩) (by rw [hnil]; exact List.not_mem_nil)
        · rfl
        · have hnil := classOf_eq_nil_of_lt hx (Std.OrientedCmp.lt_of_gt hcmp)
          exact absurd (mem_classOf.2 ⟨hb, Std.ReflCmp.compare_self⟩) (by rw [hnil]; exact List.not_mem_nil)
      have hhead : a = b := by
        have ha := h a
        rw [classOf_cons, classOf_cons, if_pos Std.ReflCmp.compare_self, if_pos hab] at ha
        exact (List.cons.inj ha).1
      subst hhead
      rw [ih hx.of_cons hy.of_cons]
      intro k
      have hk := h k
      rw [classOf_cons, classOf_cons] at hk
      split at hk
      · exact (List.cons.inj hk).2
      · exact hk

/-! ## Sorting and merging -/

/-- A class is a sorted sublist, so sorting keeps it, and sorting adds nothing to it. -/
theorem classOf_mergeSort (k : α) (xs : List α) :
    classOf cmp k (xs.mergeSort fun a b => (cmp a b).isLE) = classOf cmp k xs := by
  have hclass : Sorted cmp (classOf cmp k xs) := by
    apply List.pairwise_of_forall_mem_list
    intro a ha b hb
    rw [mem_classOf] at ha hb
    rw [← Std.TransCmp.congr_left ha.2, hb.2]
    rfl
  have hsub : (classOf cmp k xs).Sublist (xs.mergeSort fun a b => (cmp a b).isLE) := by
    apply List.sublist_mergeSort (fun _ _ _ => Std.TransCmp.isLE_trans) isLE_total hclass
    exact List.filter_sublist
  have hsub' : (classOf cmp k xs).Sublist (classOf cmp k (xs.mergeSort fun a b => (cmp a b).isLE)) := by
    have := hsub.filter fun a => cmp k a == .eq
    simpa only [classOf, List.filter_filter, Bool.and_self] using this
  have hperm := (List.mergeSort_perm xs fun a b => (cmp a b).isLE).filter fun a => cmp k a == .eq
  exact (hsub'.eq_of_length hperm.length_eq.symm).symm

theorem sortOf_mergeSort (xs : List α) : SortOf cmp xs (xs.mergeSort fun a b => (cmp a b).isLE) where
  sorted := List.pairwise_mergeSort (fun _ _ _ => Std.TransCmp.isLE_trans) isLE_total xs
  classes k := classOf_mergeSort k xs

/-- A merge that takes from the left while the left is not greater. -/
theorem sortOf_merge {xs ys : List α} (hx : Sorted cmp xs) (hy : Sorted cmp ys) :
    SortOf cmp (xs ++ ys) (xs.merge ys fun a b => cmp a b != .gt) := by
  have hle : (fun a b => cmp a b != .gt) = fun a b => (cmp a b).isLE := by
    funext a b
    cases cmp a b <;> rfl
  rw [hle]
  refine ⟨List.pairwise_merge (fun _ _ _ => Std.TransCmp.isLE_trans) isLE_total xs ys hx hy, fun k => ?_⟩
  induction xs, ys using List.merge.induct (fun a b => (cmp a b).isLE) with
  | case1 ys => simp
  | case2 xs => simp
  | case3 x xs y ys hle ih =>
    rw [List.cons_merge_cons_pos _ _ _ hle, List.cons_append, classOf_cons, classOf_cons,
      ih hx.of_cons hy]
  | case4 x xs y ys hle ih =>
    rw [List.cons_merge_cons_neg _ _ _ hle, classOf_cons, ih hx hy.of_cons, classOf_append, classOf_append]
    split
    · rename_i hk
      -- `y` comes before all of `x :: xs`, so none of these is in its class
      have hlt : cmp k x = .lt := by
        rw [Std.TransCmp.congr_left hk]
        have : cmp x y = .gt := by
          revert hle
          cases cmp x y <;> simp
        exact Std.OrientedCmp.lt_of_gt this
      rw [classOf_eq_nil_of_lt hx hlt, List.nil_append, List.nil_append, classOf_cons, if_pos hk]
    · rename_i hk
      rw [classOf_cons k y, if_neg hk]

/-! ## One of each class -/

theorem classOf_eraseDupsBy (k : α) (xs : List α) :
    classOf cmp k (xs.eraseDupsBy fun a b => cmp a b == .eq) = (classOf cmp k xs).take 1 := by
  induction h : xs.length using Nat.strong_induction_on generalizing xs with
  | _ n ih =>
    cases xs with
    | nil => simp
    | cons a xs =>
      rw [List.eraseDupsBy_cons, classOf_cons, classOf_cons]
      have hlen : (xs.filter fun b => (cmp b a == .eq) = false).length < n := by
        have := List.length_filter_le (fun b => decide ((cmp b a == .eq) = false)) xs
        rw [List.length_cons] at h
        omega
      rw [ih _ hlen _ rfl]
      split
      · rename_i hk
        have : classOf cmp k (xs.filter fun b => (cmp b a == .eq) = false) = [] := by
          rw [classOf_eq_nil]
          intro b hb heq
          have hba := (List.mem_filter.1 hb).2
          rw [Std.TransCmp.congr_left heq] at hk
          simp [hk] at hba
        rw [this]
        rfl
      · rename_i hk
        have : classOf cmp k (xs.filter fun b => (cmp b a == .eq) = false) = classOf cmp k xs := by
          rw [classOf, classOf, List.filter_filter]
          refine List.filter_congr fun b _ => ?_
          cases hkb : cmp k b == .eq with
          | false => rfl
          | true =>
            have hkb' : cmp k b = .eq := by simpa using hkb
            rw [Std.TransCmp.congr_left hkb'] at hk
            simp [hk]
        rw [this]

theorem uniqOf_eraseDupsBy (xs : List α) :
    UniqOf cmp xs ((xs.mergeSort fun a b => (cmp a b).isLE).eraseDupsBy fun a b => cmp a b == .eq) where
  sorted := by
    have hsub : ∀ ys : List α, (ys.eraseDupsBy fun a b => cmp a b == .eq).Sublist ys := by
      intro ys
      induction h : ys.length using Nat.strong_induction_on generalizing ys with
      | _ n ih =>
        cases ys with
        | nil => simp
        | cons a ys =>
          rw [List.eraseDupsBy_cons]
          apply List.Sublist.cons_cons
          refine (ih _ ?_ _ rfl).trans List.filter_sublist
          have := List.length_filter_le (fun b => decide ((cmp b a == .eq) = false)) ys
          rw [List.length_cons] at h
          omega
    exact (sortOf_mergeSort xs).sorted.sublist (hsub _)
  classes k := by rw [classOf_eraseDupsBy, classOf_mergeSort]

/-- Keeps what is not equal to what stood right before it, kept or not. -/
def dropRepeats (cmp : α → α → Ordering) : Option α → List α → List α
  | _, [] => []
  | prev, a :: xs =>
    if prev.any fun p => cmp p a == .eq then dropRepeats cmp (some a) xs else a :: dropRepeats cmp (some a) xs

omit [Std.TransCmp cmp] in
theorem dropRepeats_sublist (prev : Option α) (xs : List α) : (dropRepeats cmp prev xs).Sublist xs := by
  induction xs generalizing prev with
  | nil => exact List.Sublist.refl _
  | cons a xs ih =>
    unfold dropRepeats
    split
    · exact (ih _).cons a
    · exact (ih _).cons_cons a

/-- In a sorted list all of a class stand together, and all but the first are dropped. -/
theorem classOf_dropRepeats (k : α) {prev : Option α} {xs : List α} (hs : Sorted cmp xs)
    (hprev : ∀ p ∈ prev, ∀ a ∈ xs, (cmp p a).isLE) :
    classOf cmp k (dropRepeats cmp prev xs) =
      if prev.any fun p => cmp p k == .eq then [] else (classOf cmp k xs).take 1 := by
  induction xs generalizing prev with
  | nil => simp [dropRepeats]
  | cons a xs ih =>
    have ih' := @ih (some a) hs.of_cons (by
      intro p hp b hb
      cases hp
      exact List.rel_of_pairwise_cons hs hb)
    unfold dropRepeats
    cases hk : cmp a k == .eq with
    | true =>
      have hka : cmp k a = .eq := Std.OrientedCmp.eq_symm (by simpa using hk)
      have hsame : (prev.any fun p => cmp p a == .eq) = prev.any fun p => cmp p k == .eq := by
        congr 1
        funext p
        rw [Std.TransCmp.congr_right hka]
      rw [hsame, classOf_cons, if_pos hka]
      split <;> simp [classOf_cons, ih', hk, hka]
    | false =>
      have hka : cmp k a ≠ .eq := fun heq => by simp [Std.OrientedCmp.eq_symm heq] at hk
      rw [Option.any_some, hk, if_neg Bool.false_ne_true] at ih'
      have hout : classOf cmp k (if prev.any fun p => cmp p a == .eq then dropRepeats cmp (some a) xs
          else a :: dropRepeats cmp (some a) xs) = (classOf cmp k xs).take 1 := by
        split
        · exact ih'
        · rw [classOf_cons, if_neg hka, ih']
      rw [hout, classOf_cons, if_neg hka]
      split
      · -- the class of what came before `a` is over at `a`
        rename_i hany
        obtain ⟨p, rfl, hp⟩ : ∃ p, prev = some p ∧ cmp p k = .eq := by simpa [Option.any_eq_true] using hany
        have hpa : cmp k a = .lt := by
          have := hprev p rfl a List.mem_cons_self
          rw [Std.TransCmp.congr_left hp] at this
          revert this hka
          cases cmp k a <;> simp
        have hnil := classOf_eq_nil_of_lt hs hpa
        rw [classOf_cons, if_neg hka] at hnil
        rw [hnil]
        rfl
      · rfl

theorem uniqOf_dropRepeats {xs : List α} (hs : Sorted cmp xs) : UniqOf cmp xs (dropRepeats cmp none xs) where
  sorted := hs.sublist (dropRepeats_sublist none xs)
  classes k := by
    rw [classOf_dropRepeats k hs (fun p hp => by cases hp)]
    rfl

/-- Comparing with what was kept last comes to the same. -/
theorem destutter_eq_dropRepeats (xs : List α) : xs.destutter (fun a b => cmp a b ≠ .eq) = dropRepeats cmp none xs := by
  have hfrom : ∀ (xs : List α) (kept prev : α), cmp kept prev = .eq →
      xs.destutter' (fun a b => cmp a b ≠ .eq) kept = kept :: dropRepeats cmp (some prev) xs := by
    intro xs
    induction xs with
    | nil => intro kept prev _; rfl
    | cons b xs ih =>
      intro kept prev heq
      have hb : cmp kept b = cmp prev b := Std.TransCmp.congr_left heq
      rw [List.destutter', dropRepeats, hb]
      by_cases hpb : cmp prev b = .eq
      · rw [if_neg (not_not.2 hpb), ih kept b (hb.trans hpb)]
        simp [hpb]
      · rw [if_pos hpb, ih b b Std.ReflCmp.compare_self]
        simp [hpb]
  cases xs with
  | nil => rfl
  | cons a xs => exact hfrom xs a a Std.ReflCmp.compare_self

end Peiosutils.Stable
