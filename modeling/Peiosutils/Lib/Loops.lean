import Mathlib.Data.List.Chain
import Mathlib.Data.List.Nodup
import Mathlib.Logic.Relation

/-!
# Loops of a relation

A loop is a cycle of edges through distinct nodes. Every node of a loop has an edge out of it, and from its first node a
loop leads back to it. A chain against the edges that is read backwards from a node, with an edge back to that node, is
a loop (`isLoop_dropWhile`).
-/

set_option autoImplicit false

namespace Loops

variable {α : Type} {edge : α → α → Prop}

/-- A cycle of edges through distinct nodes: each has an edge to the next, and the last to the first. -/
structure IsLoop (edge : α → α → Prop) (cycle : List α) : Prop where
  nodup : cycle.Nodup
  chain : cycle.IsChain edge
  closing : ∃ u v, cycle.getLast? = some u ∧ cycle.head? = some v ∧ edge u v

theorem IsLoop.mono {edge' : α → α → Prop} {cycle : List α} (h : IsLoop edge cycle)
    (hedge : ∀ u v, edge u v → edge' u v) : IsLoop edge' cycle := by
  obtain ⟨u, v, hu, hv, huv⟩ := h.closing
  exact ⟨h.nodup, h.chain.imp fun u v => hedge u v, u, v, hu, hv, hedge u v huv⟩

/-- Every node of a loop has an edge out of it. -/
theorem IsLoop.source {cycle : List α} (h : IsLoop edge cycle) {x : α}
    (hx : x ∈ cycle) : ∃ y, edge x y := by
  obtain ⟨before, after, rfl⟩ := List.append_of_mem hx
  cases after with
  | nil =>
    obtain ⟨u, v, hu, -, huv⟩ := h.closing
    rw [List.getLast?_concat] at hu
    exact ⟨v, Option.some.inj hu ▸ huv⟩
  | cons y after => exact ⟨y, (List.isChain_append_cons_cons.1 h.chain).2.1⟩

/-- A loop leads from its first node back to it. -/
theorem IsLoop.transGen {cycle : List α} (h : IsLoop edge cycle) :
    ∃ x, Relation.TransGen edge x x := by
  obtain ⟨u, v, hu, hv, huv⟩ := h.closing
  have hreach : ∀ {l : List α} {x y : α}, (x :: l).IsChain edge → (x :: l).getLast? = some y →
      Relation.ReflTransGen edge x y := by
    intro l
    induction l with
    | nil =>
      intro x y _ hy
      obtain rfl := Option.some.inj hy
      exact .refl
    | cons z l ih =>
      intro x y hchain hy
      rw [List.getLast?_cons_cons] at hy
      have hxz := List.isChain_cons_cons.1 hchain
      exact .head hxz.1 (ih hxz.2 hy)
  cases cycle with
  | nil => cases hv
  | cons x l =>
    obtain rfl := Option.some.inj hv
    exact ⟨x, .tail' (hreach h.chain hu) huv⟩

/-- A path, the last node first, whose last node has an edge back to one of its nodes. -/
theorem isLoop_dropWhile [DecidableEq α] {path : List α} {last entry : α} (hnodup : (last :: path).Nodup)
    (hchain : (last :: path).IsChain fun v u => edge u v) (hentry : entry ∈ last :: path) (hclose : edge last entry)
    {below : List α} (hbelow : entry ∉ below) :
    IsLoop edge ((last :: path ++ below).reverse.dropWhile fun node => node ≠ entry) := by
  obtain ⟨onto, under, hsplit⟩ := List.append_of_mem hentry
  rw [hsplit] at hnodup hchain
  have hunder : entry ∉ under := (List.nodup_cons.1 (List.nodup_append.1 hnodup).2.1).1
  have hdrop : ((last :: path ++ below).reverse.dropWhile fun node => node ≠ entry) = entry :: onto.reverse := by
    rw [hsplit, List.reverse_append, List.reverse_append, List.reverse_cons]
    have hskip : ∀ {xs : List α}, entry ∉ xs → ∀ x ∈ xs.reverse, decide (x ≠ entry) = true := by
      intro xs hxs x hx
      exact decide_eq_true fun e => hxs (e ▸ List.mem_reverse.1 hx)
    rw [List.dropWhile_append_of_pos (hskip hbelow), List.append_assoc, List.dropWhile_append_of_pos (hskip hunder)]
    simp
  have hrev : (entry :: onto.reverse) = (onto ++ [entry]).reverse := by simp
  have honto : (onto ++ [entry]).IsChain fun v u => edge u v := by
    rw [List.append_cons] at hchain
    exact hchain.left_of_append
  rw [hdrop]
  refine ⟨?_, ?_, last, entry, ?_, rfl, hclose⟩
  · rw [hrev, List.nodup_reverse]
    rw [List.append_cons] at hnodup
    exact (List.nodup_append.1 hnodup).1
  · rw [hrev, List.isChain_reverse]
    exact honto
  · rw [hrev, List.getLast?_reverse]
    cases onto with
    | nil => exact congrArg some (List.cons.inj hsplit).1.symm
    | cons x onto => exact congrArg some (List.cons.inj hsplit).1.symm

end Loops
