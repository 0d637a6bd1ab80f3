import Mathlib.Data.Fintype.Card
import Mathlib.Data.List.Nodup
import Mathlib.Data.Set.Finite.Basic
import Mathlib.Logic.Relation
import Mathlib.Order.WellFounded

/-!
# Ordering nodes by taking the first one that is ready

Nodes are placed one at a time. One is `Ready` when it is not placed and everything it waits for is; a list is `Legal`
when each of its elements was ready where it stands, and `Greedy` when each came first among those ready.

A legal list that cannot be extended holds every node exactly when no node waits for itself, through whatever chain
(`complete_iff_acyclic`); there is only one greedy list that cannot be extended (`Greedy.unique`). A relation stays
acyclic when edges are added out of a set that no edge enters (`Acyclic.add_layer`).
-/

set_option autoImplicit false

namespace GreedyOrder

variable {α γ : Type} {nodes : List α} {E : α → α → Prop} {le : α → α → Prop}

/-- `a` stands before `b`. -/
def Precedes (l : List α) (a b : α) : Prop := ∃ pre post, l = pre ++ b :: post ∧ a ∈ pre

/-- Not placed, and everything it waits for is. -/
def Ready (nodes : List α) (E : α → α → Prop) (placed : List α) (v : α) : Prop :=
  v ∈ nodes ∧ v ∉ placed ∧ ∀ u ∈ nodes, E u v → u ∈ placed

def Legal (nodes : List α) (E : α → α → Prop) (l : List α) : Prop :=
  ∀ pre v post, l = pre ++ v :: post → Ready nodes E pre v

/-- Nothing ready comes before what is taken. -/
def Greedy (nodes : List α) (E le : α → α → Prop) (l : List α) : Prop :=
  ∀ pre v post, l = pre ++ v :: post → Ready nodes E pre v ∧ ∀ w, Ready nodes E pre w → le v w

/-- `E` between nodes only. -/
def Edge (nodes : List α) (E : α → α → Prop) (u v : α) : Prop := u ∈ nodes ∧ v ∈ nodes ∧ E u v

def Acyclic (R : α → α → Prop) : Prop := ∀ v, ¬ Relation.TransGen R v v

/-! ## Standing before -/

/-- In a list without repetitions an element stands in one place. -/
theorem split_unique {l pre pre' post post' : List α} {v : α} (hnd : l.Nodup) (h : l = pre ++ v :: post)
    (h' : l = pre' ++ v :: post') : pre = pre' := by
  subst h
  have hnd' := List.nodup_middle.1 hnd
  have hv := (List.nodup_cons.1 hnd').1
  rw [List.mem_append, not_or] at hv
  exact ((List.append_cons_inj_of_notMem hv.1 hv.2).1 h').1

theorem Precedes.trans {l : List α} {u v w : α} (hnd : l.Nodup) (huv : Precedes l u v) (hvw : Precedes l v w) :
    Precedes l u w := by
  obtain ⟨pre, post, e, hu⟩ := huv
  obtain ⟨pre', post', e', hv⟩ := hvw
  obtain ⟨as, bs, rfl⟩ := List.append_of_mem hv
  have hpre : pre = as := split_unique hnd e (by rw [e', List.append_assoc]; rfl)
  exact ⟨as ++ v :: bs, post', e', List.mem_append_left _ (hpre ▸ hu)⟩

theorem not_precedes_self {l : List α} (hnd : l.Nodup) (v : α) : ¬ Precedes l v v := by
  rintro ⟨pre, post, rfl, hv⟩
  exact (List.nodup_append.1 hnd).2.2 v hv v List.mem_cons_self rfl

/-! ## Legal lists -/

theorem Greedy.legal {l : List α} (h : Greedy nodes E le l) : Legal nodes E l := fun pre v post e => (h pre v post e).1

theorem Legal.prefix {l l' : List α} (h : Legal nodes E (l ++ l')) : Legal nodes E l := by
  rintro pre v post rfl
  exact h pre v (post ++ l') (by simp)

theorem Legal.mem_nodes {l : List α} (h : Legal nodes E l) {v : α} (hv : v ∈ l) : v ∈ nodes := by
  obtain ⟨pre, post, rfl⟩ := List.append_of_mem hv
  exact (h pre v post rfl).1

theorem Legal.nodup {l : List α} (h : Legal nodes E l) : l.Nodup := by
  induction l using List.reverseRecOn with
  | nil => exact List.nodup_nil
  | append_singleton l v ih =>
    have hv := (h l v [] rfl).2.1
    rw [List.nodup_append]
    refine ⟨ih h.prefix, List.nodup_singleton v, ?_⟩
    rintro a ha b hb rfl
    exact hv (List.mem_singleton.1 hb ▸ ha)

/-- What a node waits for stands before it. -/
theorem Legal.precedes {l : List α} (h : Legal nodes E l) {u v : α} (huv : Edge nodes E u v) (hv : v ∈ l) :
    Precedes l u v := by
  obtain ⟨pre, post, rfl⟩ := List.append_of_mem hv
  exact ⟨pre, post, rfl, (h pre v post rfl).2.2 u huv.1 huv.2.2⟩

/-! ## Adding a node -/

/-- The parts of a split of `l ++ [x]`: the last element, or a split of `l`. -/
theorem split_snoc {l pre post : List α} {x v : α} (h : l ++ [x] = pre ++ v :: post) :
    (pre = l ∧ v = x) ∨ ∃ post', l = pre ++ v :: post' := by
  rcases List.eq_nil_or_concat post with rfl | ⟨post', y, rfl⟩
  · obtain ⟨h₁, h₂⟩ := List.append_inj' h rfl
    exact Or.inl ⟨h₁.symm, (List.singleton_inj.1 h₂).symm⟩
  · rw [List.concat_eq_append, ← List.cons_append, ← List.append_assoc] at h
    exact Or.inr ⟨post', (List.append_inj' h rfl).1⟩

theorem Greedy.nil : Greedy nodes E le [] := by
  intro pre v post h
  simp at h

theorem Greedy.snoc {l : List α} {x : α} (h : Greedy nodes E le l) (hx : Ready nodes E l x)
    (hle : ∀ w, Ready nodes E l w → le x w) : Greedy nodes E le (l ++ [x]) := by
  intro pre v post e
  rcases split_snoc e with ⟨rfl, rfl⟩ | ⟨post', rfl⟩
  · exact ⟨hx, hle⟩
  · exact h pre v post' rfl

/-! ## Completeness -/

/-- A chain of waiting runs along the list. -/
theorem Legal.precedes_of_transGen {l : List α} (h : Legal nodes E l) (hall : ∀ v ∈ nodes, v ∈ l) {u v : α}
    (huv : Relation.TransGen (Edge nodes E) u v) : Precedes l u v := by
  induction huv with
  | single e => exact h.precedes e (hall _ e.2.1)
  | tail _ e ih => exact ih.trans h.nodup (h.precedes e (hall _ e.2.1))

/-- A legal list that holds every node exists only where nothing waits for itself. -/
theorem Legal.acyclic {l : List α} (h : Legal nodes E l) (hall : ∀ v ∈ nodes, v ∈ l) : Acyclic (Edge nodes E) :=
  fun v hv => not_precedes_self h.nodup v (h.precedes_of_transGen hall hv)

/-- Where nothing waits for itself, some node of a nonempty collection waits for none of it. -/
theorem exists_source (hac : Acyclic (Edge nodes E)) {P : α → Prop} {v : α} (hv : v ∈ nodes) (hP : P v) :
    ∃ w ∈ nodes, P w ∧ ∀ u ∈ nodes, E u w → ¬ P u := by
  let R : {x // x ∈ nodes} → {x // x ∈ nodes} → Prop := fun a b => Relation.TransGen (Edge nodes E) a.1 b.1
  have : Finite {x // x ∈ nodes} := List.finite_toSet nodes
  have : IsTrans _ R := ⟨fun _ _ _ => Relation.TransGen.trans⟩
  have : Std.Irrefl R := ⟨fun a => hac a.1⟩
  have hwf : WellFounded R := Finite.wellFounded_of_trans_of_irrefl R
  obtain ⟨⟨w, hw⟩, hPw, hmin⟩ := hwf.has_min {x | P x.1} ⟨⟨v, hv⟩, hP⟩
  refine ⟨w, hw, hPw, ?_⟩
  intro u hu huw hPu
  exact hmin ⟨u, hu⟩ hPu (Relation.TransGen.single ⟨hu, hw, huw⟩)

/-- A list that cannot be extended holds every node, where nothing waits for itself. -/
theorem complete_of_acyclic {l : List α} (hac : Acyclic (Edge nodes E)) (hstuck : ∀ v, ¬ Ready nodes E l v) :
    ∀ v ∈ nodes, v ∈ l := by
  by_contra hne
  push Not at hne
  obtain ⟨v, hv, hvl⟩ := hne
  obtain ⟨w, hw, hwl, hsrc⟩ := exists_source (P := fun x => x ∉ l) hac hv hvl
  exact hstuck w ⟨hw, hwl, fun u hu huw => not_not.1 (hsrc u hu huw)⟩

theorem complete_iff_acyclic {l : List α} (h : Legal nodes E l) (hstuck : ∀ v, ¬ Ready nodes E l v) :
    (∀ v ∈ nodes, v ∈ l) ↔ Acyclic (Edge nodes E) :=
  ⟨h.acyclic, fun hac => complete_of_acyclic hac hstuck⟩

/-! ## Uniqueness -/

/-- Two greedy lists that cannot be extended are the same list. -/
theorem Greedy.unique (hanti : ∀ u v, u ∈ nodes → v ∈ nodes → le u v → le v u → u = v) {l l' : List α}
    (h : Greedy nodes E le l) (h' : Greedy nodes E le l') (hs : ∀ v, ¬ Ready nodes E l v)
    (hs' : ∀ v, ¬ Ready nodes E l' v) : l = l' := by
  suffices hgen : ∀ pre t t', l = pre ++ t → l' = pre ++ t' → t = t' from hgen [] l l' rfl rfl
  intro pre t
  induction t generalizing pre with
  | nil =>
    intro t' e e'
    cases t' with
    | nil => rfl
    | cons v t' =>
      rw [List.append_nil] at e
      exact absurd (h' pre v t' e').1 (e ▸ hs v)
  | cons u t ih =>
    intro t' e e'
    cases t' with
    | nil =>
      rw [List.append_nil] at e'
      exact absurd (h pre u t e).1 (e' ▸ hs' u)
    | cons v t' =>
      have hu := h pre u t e
      have hv := h' pre v t' e'
      have huv : u = v := hanti u v hu.1.1 hv.1.1 (hu.2 v hv.1) (hv.2 u hu.1)
      subst huv
      rw [ih (pre ++ [u]) t' (by simp [e]) (by simp [e'])]

/-! ## Renaming the nodes -/

section Map

variable {f : α → γ} {E' le' : γ → γ → Prop}

theorem Ready.map_iff (hinj : ∀ u ∈ nodes, ∀ v ∈ nodes, f u = f v → u = v)
    (hE : ∀ u ∈ nodes, ∀ v ∈ nodes, (E' (f u) (f v) ↔ E u v)) {placed : List α} (hp : ∀ u ∈ placed, u ∈ nodes) {v : α}
    (hv : v ∈ nodes) : Ready (nodes.map f) E' (placed.map f) (f v) ↔ Ready nodes E placed v := by
  have hmem : ∀ u ∈ nodes, f u ∈ placed.map f ↔ u ∈ placed := by
    intro u hu
    refine ⟨fun h => ?_, List.mem_map_of_mem⟩
    obtain ⟨w, hw, e⟩ := List.mem_map.1 h
    exact hinj w (hp w hw) u hu e ▸ hw
  unfold Ready
  rw [hmem v hv, List.forall_mem_map]
  refine ⟨fun h => ⟨hv, h.2.1, ?_⟩, fun h => ⟨List.mem_map_of_mem hv, h.2.1, ?_⟩⟩
  · intro u hu huv
    exact (hmem u hu).1 (h.2.2 u hu ((hE u hu v hv).2 huv))
  · intro u hu huv
    exact (hmem u hu).2 (h.2.2 u hu ((hE u hu v hv).1 huv))

theorem Greedy.map (hinj : ∀ u ∈ nodes, ∀ v ∈ nodes, f u = f v → u = v)
    (hE : ∀ u ∈ nodes, ∀ v ∈ nodes, (E' (f u) (f v) ↔ E u v))
    (hle : ∀ u ∈ nodes, ∀ v ∈ nodes, le u v → le' (f u) (f v)) {l : List α} (h : Greedy nodes E le l) :
    Greedy (nodes.map f) E' le' (l.map f) := by
  intro pre' v' post' e
  obtain ⟨pre, t, rfl, rfl, ht⟩ := List.map_eq_append_iff.1 e
  obtain ⟨v, post, rfl, rfl, rfl⟩ := List.map_eq_cons_iff.1 ht
  obtain ⟨hv, hmin⟩ := h pre v post rfl
  have hp : ∀ u ∈ pre, u ∈ nodes := fun u hu => h.legal.mem_nodes (List.mem_append_left _ hu)
  refine ⟨(Ready.map_iff hinj hE hp hv.1).2 hv, ?_⟩
  intro w' hw'
  obtain ⟨w, hw, rfl⟩ := List.mem_map.1 hw'.1
  exact hle v hv.1 w hw (hmin w ((Ready.map_iff hinj hE hp hw).1 hw'))

theorem Precedes.of_map {l : List α} {a b : α} (hinj : ∀ u ∈ l, ∀ v ∈ l, f u = f v → u = v) (ha : a ∈ l) (hb : b ∈ l)
    (h : Precedes (l.map f) (f a) (f b)) : Precedes l a b := by
  obtain ⟨pre', t', e, hpre⟩ := h
  obtain ⟨pre, t, rfl, rfl, ht⟩ := List.map_eq_append_iff.1 e
  obtain ⟨b', post, rfl, hfb, rfl⟩ := List.map_eq_cons_iff.1 ht
  obtain ⟨a', ha', hfa⟩ := List.mem_map.1 hpre
  obtain rfl := hinj b' (by simp) b hb hfb
  obtain rfl := hinj a' (by simp [ha']) a ha hfa
  exact ⟨pre, post, rfl, ha'⟩

end Map

/-! ## Acyclic relations -/

/-- A cycle between renamed nodes is one between the nodes. -/
theorem transGen_of_map {f : α → γ} {R' : γ → γ → Prop} (hinj : ∀ u ∈ nodes, ∀ v ∈ nodes, f u = f v → u = v)
    (hR' : ∀ x y, R' x y → ∃ u ∈ nodes, ∃ v ∈ nodes, f u = x ∧ f v = y) {x y : γ} (h : Relation.TransGen R' x y) :
    ∃ u ∈ nodes, ∃ v ∈ nodes, f u = x ∧ f v = y ∧
      Relation.TransGen (Edge nodes fun a b => R' (f a) (f b)) u v := by
  induction h with
  | single e =>
    obtain ⟨u, hu, v, hv, rfl, rfl⟩ := hR' _ _ e
    exact ⟨u, hu, v, hv, rfl, rfl, .single ⟨hu, hv, e⟩⟩
  | tail _ e ih =>
    obtain ⟨u, hu, v, hv, rfl, rfl, hpath⟩ := ih
    obtain ⟨v', hv', w, hw, hfv, rfl⟩ := hR' _ _ e
    obtain rfl := hinj v' hv' v hv hfv
    exact ⟨u, hu, w, hw, rfl, rfl, hpath.tail ⟨hv, hw, e⟩⟩

theorem acyclic_of_map {f : α → γ} {R' : γ → γ → Prop} (hinj : ∀ u ∈ nodes, ∀ v ∈ nodes, f u = f v → u = v)
    (hR' : ∀ x y, R' x y → ∃ u ∈ nodes, ∃ v ∈ nodes, f u = x ∧ f v = y)
    (h : Acyclic (Edge nodes fun a b => R' (f a) (f b))) : Acyclic R' := by
  intro x hx
  obtain ⟨u, hu, v, hv, e, e', hpath⟩ := transGen_of_map hinj hR' hx
  obtain rfl := hinj u hu v hv (e.trans e'.symm)
  exact h u hpath

/-- Edges out of a set that nothing outside leads into close no cycle. -/
theorem Acyclic.add_layer {R R' : α → α → Prop} {S : α → Prop} (h : Acyclic R)
    (hS : ∀ u v, R u v → S v → S u) (hR' : ∀ u v, R' u v → R u v ∨ (S u ∧ ¬ S v)) : Acyclic R' := by
  have hpath : ∀ u v, Relation.TransGen R' u v → (S v → S u) ∧ (Relation.TransGen R u v ∨ (S u ∧ ¬ S v)) := by
    intro u v huv
    induction huv with
    | single e =>
      rcases hR' _ _ e with e | e
      · exact ⟨hS _ _ e, Or.inl (.single e)⟩
      · exact ⟨fun _ => e.1, Or.inr e⟩
    | tail _ e ih =>
      obtain ⟨hback, ih⟩ := ih
      rcases hR' _ _ e with e | e
      · refine ⟨fun hw => hback (hS _ _ e hw), ih.imp (fun p => p.tail e) fun q => ⟨q.1, fun hw => q.2 (hS _ _ e hw)⟩⟩
      · exact ⟨fun hw => absurd hw e.2, Or.inr ⟨hback e.1, e.2⟩⟩
  intro v hv
  rcases (hpath v v hv).2 with hv | hv
  · exact h v hv
  · exact hv.2 hv.1

end GreedyOrder
