import Mathlib.Data.List.Nodup
import Mathlib.Data.Set.Insert
import Mathlib.Logic.Relation

/-!
# Unfolding a graph into trees

A graph is unfolded from a node into a tree by way of its links, and a branch stops at a node that it has been at before
(`Unfolds`). So a child is linked to its parent (`Unfolds.link`), the names on a path from the root do not repeat but for
the last one (`Unfolds.nodup`), and the nodes of the tree are those that can be reached from its root
(`Unfolds.appears_iff`).
-/

set_option autoImplicit false

namespace Unfolding

variable {τ α : Type} {label : τ → α} {children : τ → List τ} {next : α → List α} {chain : Set α} {t : τ}

/-- `t` unfolds the graph below its root, on a branch that has been at the nodes of the chain. -/
inductive Unfolds (label : τ → α) (children : τ → List τ) (next : α → List α) : Set α → τ → Prop
  | stop {chain : Set α} {t : τ} (h : label t ∈ chain) (hnil : children t = []) : Unfolds label children next chain t
  | step {chain : Set α} {t : τ} (h : label t ∉ chain) (hnext : (children t).map label = next (label t))
    (hbelow : ∀ c ∈ children t, Unfolds label children next (insert (label t) chain) c) :
    Unfolds label children next chain t

/-- The labels on the way from the root to a node, both with theirs. -/
inductive Path (label : τ → α) (children : τ → List τ) : τ → List α → τ → Prop
  | here (t : τ) : Path label children t [label t] t
  | down {t c d : τ} {labels : List α} (hc : c ∈ children t) (h : Path label children c labels d) :
    Path label children t (label t :: labels) d

/-- A label appears in a tree. -/
def Appears (label : τ → α) (children : τ → List τ) (t : τ) (a : α) : Prop :=
  ∃ labels d, Path label children t labels d ∧ label d = a

theorem Path.ne_nil {labels : List α} {d : τ} (h : Path label children t labels d) : labels ≠ [] := by
  cases h with
  | here => exact List.cons_ne_nil _ _
  | down => exact List.cons_ne_nil _ _

theorem Path.dropLast_append {labels : List α} {d : τ} (h : Path label children t labels d) :
    labels.dropLast ++ [label d] = labels := by
  induction h with
  | here => rfl
  | down _ hpath ih => rw [List.dropLast_cons_of_ne_nil hpath.ne_nil, List.cons_append, ih]

/-- A child is linked to its parent. -/
theorem Unfolds.link {labels : List α} {d c : τ} (h : Unfolds label children next chain t)
    (hpath : Path label children t labels d) (hc : c ∈ children d) : label c ∈ next (label d) := by
  induction hpath generalizing chain with
  | here t =>
    cases h with
    | stop _ hnil =>
      rw [hnil] at hc
      cases hc
    | step _ hnext =>
      rw [← hnext]
      exact List.mem_map_of_mem hc
  | down hc' _ ih =>
    cases h with
    | stop _ hnil =>
      rw [hnil] at hc'
      cases hc'
    | step _ _ hbelow => exact ih (hbelow _ hc') hc

/-! ## Paths -/

/-- No label above the last one is on the chain or repeats, and a last one that does has no children. -/
theorem Unfolds.nodup {labels : List α} {d : τ} (h : Unfolds label children next chain t)
    (hpath : Path label children t labels d) :
    labels.dropLast.Nodup ∧ (∀ a ∈ labels.dropLast, a ∉ chain) ∧
      ((label d ∈ chain ∨ ¬ labels.Nodup) → children d = []) := by
  induction hpath generalizing chain with
  | here t =>
    refine ⟨List.nodup_nil, fun a ha => (by cases ha), fun hrepeat => ?_⟩
    have hmem : label t ∈ chain := hrepeat.resolve_right fun hdup => hdup (List.nodup_singleton _)
    cases h with
    | stop _ hnil => exact hnil
    | step hout => exact absurd hmem hout
  | @down t c d labels hc hpath ih =>
    cases h with
    | stop _ hnil =>
      rw [hnil] at hc
      cases hc
    | step hout _ hbelow =>
      obtain ⟨hnodup, hapart, hlast⟩ := ih (hbelow c hc)
      have hne := hpath.ne_nil
      have hnot : label t ∉ labels.dropLast := fun hmem => hapart _ hmem (Set.mem_insert _ _)
      rw [List.dropLast_cons_of_ne_nil hne]
      refine ⟨List.nodup_cons.2 ⟨hnot, hnodup⟩, List.forall_mem_cons.2 ⟨hout, fun a ha hmem => ?_⟩, fun hrepeat => ?_⟩
      · exact hapart a ha (Set.mem_insert_of_mem _ hmem)
      · refine hlast ?_
        rcases hrepeat with hmem | hdup
        · exact .inl (Set.mem_insert_of_mem _ hmem)
        · by_cases hmem : label t ∈ labels
          · rw [← hpath.dropLast_append, List.mem_append, List.mem_singleton] at hmem
            exact .inl (Set.mem_insert_iff.2 (.inl (hmem.resolve_left hnot).symm))
          · exact .inr fun hlabels => hdup (List.nodup_cons.2 ⟨hmem, hlabels⟩)

/-! ## Nodes that are reached -/

/-- The last visit of `a` on the way to another node. -/
theorem last_visit {r : α → α → Prop} {a b : α} (h : Relation.ReflTransGen r a b) :
    b = a ∨ ∃ c, r a c ∧ c ≠ a ∧ Relation.ReflTransGen (fun x y => r x y ∧ y ≠ a) c b := by
  induction h with
  | refl => exact .inl rfl
  | @tail b d _ hbd ih =>
    by_cases hd : d = a
    · exact .inl hd
    · rcases ih with rfl | ⟨c, hac, hc, hcb⟩
      · exact .inr ⟨d, hbd, hd, .refl⟩
      · exact .inr ⟨c, hac, hc, hcb.tail ⟨hbd, hd⟩⟩

/-- A node that is reached without the chain appears. -/
theorem Unfolds.appears_of_reach (h : Unfolds label children next chain t) (hout : label t ∉ chain) {b : α}
    (hreach : Relation.ReflTransGen (fun x y => y ∈ next x ∧ y ∉ chain) (label t) b) :
    Appears label children t b := by
  induction h with
  | stop hmem => exact absurd hmem hout
  | @step chain t _ hnext _ ih =>
    rcases last_visit hreach with rfl | ⟨a, hlink, hne, hrest⟩
    · exact ⟨[label t], t, .here t, rfl⟩
    · rw [← hnext] at hlink
      obtain ⟨c, hc, rfl⟩ := List.mem_map.1 hlink.1
      have hfresh : label c ∉ insert (label t) chain := fun hmem => (Set.mem_insert_iff.1 hmem).elim hne hlink.2
      have hapart : ∀ x y, (y ∈ next x ∧ y ∉ chain) ∧ y ≠ label t → y ∈ next x ∧ y ∉ insert (label t) chain :=
        fun x y hxy => ⟨hxy.1.1, fun hmem => (Set.mem_insert_iff.1 hmem).elim hxy.2 hxy.1.2⟩
      obtain ⟨labels, d, hpath, hd⟩ := ih c hc hfresh (Relation.ReflTransGen.mono hapart _ _ hrest)
      exact ⟨label t :: labels, d, .down hc hpath, hd⟩

theorem Unfolds.reach_of_path {labels : List α} {d : τ} (h : Unfolds label children next chain t)
    (hpath : Path label children t labels d) : Relation.ReflTransGen (fun x y => y ∈ next x) (label t) (label d) := by
  induction hpath generalizing chain with
  | here => exact .refl
  | @down t c d labels hc hpath ih =>
    have hlink := h.link (.here t) hc
    cases h with
    | stop _ hnil =>
      rw [hnil] at hc
      cases hc
    | step _ _ hbelow => exact .head hlink (ih (hbelow c hc))

/-- The nodes of a whole tree are those that can be reached from its root. -/
theorem Unfolds.appears_iff (h : Unfolds label children next ∅ t) (b : α) :
    Appears label children t b ↔ Relation.ReflTransGen (fun x y => y ∈ next x) (label t) b := by
  constructor
  · rintro ⟨labels, d, hpath, rfl⟩
    exact h.reach_of_path hpath
  · intro hreach
    have hapart : ∀ x y, y ∈ next x → y ∈ next x ∧ y ∉ (∅ : Set α) := fun x y hxy => ⟨hxy, Set.notMem_empty y⟩
    exact h.appears_of_reach (Set.notMem_empty _) (Relation.ReflTransGen.mono hapart _ _ hreach)

end Unfolding
