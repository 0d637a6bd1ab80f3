import Mathlib.Data.List.Induction
import Mathlib.Data.List.Sort
import Mathlib.Order.Lattice

/-!
# Maps from keys to lists of values

A map is kept as the list of its bindings, strictly ascending by key, and a value is added at the end of the list under
its key (`push`). A map that is filled in this way holds under each key the values that came with it, in the order in
which they came (`mem_group`).
-/

set_option autoImplicit false

namespace Multimap

variable {κ ν β : Type} [LinearOrder β] {key : κ → β}

/-- Add `v` under `k`. -/
def push (key : κ → β) (k : κ) (v : ν) : List (κ × List ν) → List (κ × List ν)
  | [] => [(k, [v])]
  | (k', vs) :: rest =>
    if key k < key k' then (k, [v]) :: (k', vs) :: rest
    else if key k' < key k then (k', vs) :: push key k v rest
    else (k', vs ++ [v]) :: rest

/-- The keys ascend strictly. -/
def Ascending (key : κ → β) (m : List (κ × List ν)) : Prop := m.Pairwise fun a b => key a.1 < key b.1

theorem key_of_mem_push {k : κ} {v : ν} {m : List (κ × List ν)} {b : κ × List ν} (h : b ∈ push key k v m) :
    key b.1 = key k ∨ b ∈ m := by
  induction m with
  | nil => simp_all [push]
  | cons c m ih =>
    unfold push at h
    split at h
    · rcases List.mem_cons.1 h with rfl | h
      · exact Or.inl rfl
      · exact Or.inr h
    · split at h
      · rcases List.mem_cons.1 h with rfl | h
        · exact Or.inr List.mem_cons_self
        · exact (ih h).imp id (List.mem_cons_of_mem c)
      · rename_i h₁ h₂
        rcases List.mem_cons.1 h with rfl | h
        · exact Or.inl (le_antisymm (not_lt.1 h₁) (not_lt.1 h₂))
        · exact Or.inr (List.mem_cons_of_mem c h)

theorem ascending_push {k : κ} {v : ν} {m : List (κ × List ν)} (h : Ascending key m) :
    Ascending key (push key k v m) := by
  induction m with
  | nil => simp [push, Ascending]
  | cons c m ih =>
    have ⟨hc, hm⟩ := List.pairwise_cons.1 h
    unfold push
    split
    · rename_i hlt
      refine List.pairwise_cons.2 ⟨?_, h⟩
      intro b hb
      rcases List.mem_cons.1 hb with rfl | hb
      · exact hlt
      · exact hlt.trans (hc b hb)
    · split
      · rename_i hlt
        refine List.pairwise_cons.2 ⟨?_, ih hm⟩
        intro b hb
        rcases key_of_mem_push hb with e | hb
        · exact e ▸ hlt
        · exact hc b hb
      · exact List.pairwise_cons.2 ⟨fun b hb => hc b hb, hm⟩

/-- What is bound after `push`: under `k` one value more, under the other keys what was bound before. -/
theorem mem_push (hinj : Function.Injective key) {k : κ} {v : ν} {m : List (κ × List ν)} (h : Ascending key m)
    {k' : κ} {vs : List ν} : (k', vs) ∈ push key k v m ↔
      (k' ≠ k ∧ (k', vs) ∈ m) ∨
        (k' = k ∧ ((∃ us, (k, us) ∈ m ∧ vs = us ++ [v]) ∨ ((∀ us, (k, us) ∉ m) ∧ vs = [v]))) := by
  induction m with
  | nil => simp [push]
  | cons c m ih =>
    obtain ⟨kc, uc⟩ := c
    have ⟨hc, hm⟩ := List.pairwise_cons.1 h
    have hafter : ∀ us, (kc, us) ∉ m := fun us hus => lt_irrefl (key kc) (hc (kc, us) hus)
    unfold push
    split
    · rename_i hlt
      have hk : ∀ us, (k, us) ∉ (kc, uc) :: m := by
        intro us hus
        rcases List.mem_cons.1 hus with e | hus
        · exact absurd (Prod.mk.inj e).1 fun e => lt_irrefl _ (e ▸ hlt)
        · exact lt_irrefl _ (hlt.trans (hc _ hus))
      constructor
      · intro hb
        rcases List.mem_cons.1 hb with e | hb
        · obtain ⟨rfl, rfl⟩ := Prod.mk.inj e
          exact Or.inr ⟨rfl, Or.inr ⟨hk, rfl⟩⟩
        · exact Or.inl ⟨fun e => hk vs (e ▸ hb), hb⟩
      · rintro (⟨_, hb⟩ | ⟨rfl, ⟨us, hus, _⟩ | ⟨_, rfl⟩⟩)
        · exact List.mem_cons_of_mem _ hb
        · exact absurd hus (hk us)
        · exact List.mem_cons_self
    · split
      · rename_i hlt
        have hne : k ≠ kc := fun e => lt_irrefl _ (e ▸ hlt)
        rw [List.mem_cons, ih hm]
        simp only [List.mem_cons, Prod.mk.injEq, hne, false_and, false_or]
        constructor
        · rintro (⟨rfl, rfl⟩ | ⟨hk, hb⟩ | h)
          · exact Or.inl ⟨Ne.symm hne, Or.inl ⟨rfl, rfl⟩⟩
          · exact Or.inl ⟨hk, Or.inr hb⟩
          · exact Or.inr h
        · rintro (⟨hk, ⟨rfl, rfl⟩ | hb⟩ | h)
          · exact Or.inl ⟨rfl, rfl⟩
          · exact Or.inr (Or.inl ⟨hk, hb⟩)
          · exact Or.inr (Or.inr h)
      · rename_i h₁ h₂
        have he : kc = k := hinj (le_antisymm (not_lt.1 h₁) (not_lt.1 h₂))
        subst he
        simp only [List.mem_cons, Prod.mk.injEq, true_and]
        constructor
        · rintro (⟨rfl, rfl⟩ | hb)
          · exact Or.inr ⟨rfl, Or.inl ⟨uc, Or.inl rfl, rfl⟩⟩
          · exact Or.inl ⟨fun e => hafter vs (e ▸ hb), Or.inr hb⟩
        · rintro (⟨hk, ⟨e, _⟩ | hb⟩ | ⟨rfl, ⟨us, rfl | hus, rfl⟩ | ⟨hno, _⟩⟩)
          · exact absurd e hk
          · exact Or.inr hb
          · exact Or.inl ⟨rfl, rfl⟩
          · exact absurd hus (hafter us)
          · exact absurd (Or.inl rfl) (hno uc)

/-- The map filled with the items, in turn. -/
def group (key : κ → β) (items : List (κ × ν)) : List (κ × List ν) :=
  items.foldl (fun m kv => push key kv.1 kv.2 m) []

theorem group_append_singleton (items : List (κ × ν)) (kv : κ × ν) :
    group key (items ++ [kv]) = push key kv.1 kv.2 (group key items) := by
  rw [group, List.foldl_append]
  rfl

theorem ascending_group (items : List (κ × ν)) : Ascending key (group key items) := by
  induction items using List.reverseRecOn with
  | nil => exact List.Pairwise.nil
  | append_singleton items kv ih =>
    rw [group_append_singleton]
    exact ascending_push ih

section Group

variable [DecidableEq κ]

/-- The values that come with `k`. -/
def valuesOf (items : List (κ × ν)) (k : κ) : List ν := (items.filter (·.1 = k)).map Prod.snd

theorem valuesOf_append_singleton (items : List (κ × ν)) (k k' : κ) (v : ν) :
    valuesOf (items ++ [(k, v)]) k' = valuesOf items k' ++ if k = k' then [v] else [] := by
  unfold valuesOf
  split <;> simp_all

/-- The bindings of a filled map. -/
theorem mem_group (hinj : Function.Injective key) {items : List (κ × ν)} {k : κ} {vs : List ν} :
    (k, vs) ∈ group key items ↔ k ∈ items.map Prod.fst ∧ vs = valuesOf items k := by
  induction items using List.reverseRecOn generalizing k vs with
  | nil => simp [group]
  | append_singleton items kv ih =>
    obtain ⟨k₁, v⟩ := kv
    rw [group_append_singleton, mem_push hinj (ascending_group items), valuesOf_append_singleton]
    simp only [ih, List.map_append, List.map_cons, List.map_nil, List.mem_append, List.mem_singleton]
    by_cases hk : k = k₁
    · subst hk
      have hnil : k ∉ items.map Prod.fst → valuesOf items k = [] := by
        intro hno
        simp only [valuesOf, List.map_eq_nil_iff, List.filter_eq_nil_iff, decide_eq_true_eq]
        intro kv hkv e
        exact hno (List.mem_map.2 ⟨kv, hkv, e⟩)
      by_cases hin : k ∈ items.map Prod.fst
      · simp [hin]
      · simp [hin, hnil hin]
    · simp [hk, Ne.symm hk]

/-- What is found under a key. -/
theorem lookup_group [BEq κ] [LawfulBEq κ] (hinj : Function.Injective key) (items : List (κ × ν)) (k : κ) :
    ((group key items).lookup k).getD [] = valuesOf items k := by
  cases hlookup : (group key items).lookup k with
  | some vs =>
    obtain ⟨before, after, hmap, -⟩ := List.lookup_eq_some_iff.1 hlookup
    have hmem : (k, vs) ∈ group key items := by
      rw [hmap]
      exact List.mem_append_right _ List.mem_cons_self
    exact ((mem_group hinj).1 hmem).2
  | none =>
    have hno : k ∉ items.map Prod.fst := by
      intro hk
      have hmem := (mem_group hinj).2 ⟨hk, rfl⟩
      have hne : (k != k) = true := List.lookup_eq_none_iff.1 hlookup _ hmem
      simp at hne
    refine (List.map_eq_nil_iff.2 (List.filter_eq_nil_iff.2 fun e he hek => hno ?_)).symm
    exact of_decide_eq_true hek ▸ List.mem_map_of_mem he

end Group

end Multimap
