import Mathlib.Data.List.Dedup
import Peiosutils.Tsort.Cycle

/-!
# The order that `tsort` prints (`run_tsort`)

A node without predecessors is printed and taken out of the graph; where there is none, a loop is reported and the edge
from its last node to its first is removed. Every edge of the input is always accounted for: it has been printed in
order, it is still in the graph, or it was removed (`Progress`). In the end, the tokens have been printed once each, and
every pair that was not removed in order (`tsort_sorts`).
-/

set_option autoImplicit false

namespace Peiosutils.Tsort

open While (Stop loop loop_spec loop_mono)
open Keyed (sortOn mem_sortOn perm_sortOn)
open Loops

-- the symbols are in the order of their names
variable {Sym : Type} [LinearOrder Sym]

/-! ## The sort -/

/-- What is written: a token to the output, or a loop with its nodes to the error stream. -/
inductive Event (Sym : Type) where
  | print (sym : Sym)
  | loop (name : Sym) (cycle : List Sym)
  deriving DecidableEq, Repr

/-- The graph, `independent_nodes_queue`, and what has been written. -/
structure State (Sym : Type) [LinearOrder Sym] where
  nodes : Nodes Sym
  frontier : List Sym
  out : List (Event Sym) := []

def findAndBreakCycle (name : Sym) (s : State Sym) : Except Stop (State Sym) :=
  match detectCycle s.nodes with
  | .error e => .error e
  | .ok cycle =>
    match cycle.getLast?, cycle.head? with
    | some u, some v =>
      match removeEdge s.nodes u v with
      | .error e => .error e
      | .ok (nodes, indegree) =>
        .ok { nodes
              frontier := if indegree = 0 then s.frontier ++ [v] else s.frontier
              out := s.out ++ [.loop name cycle] }
    | _, _ => .error .panic

/-- A turn of the loop of `find_next_node`. -/
def nextTurn (name : Sym) (s : State Sym) : Except Stop (State Sym ⊕ (Sym × State Sym)) :=
  match s.frontier with
  | [] => (findAndBreakCycle name s).map .inl
  | v :: frontier => .ok (.inr (v, { s with frontier }))

def findNextNode (name : Sym) (fuel : Nat) (s : State Sym) : Except Stop (Sym × State Sym) :=
  loop (nextTurn name) fuel s

/-- The successors of a printed node lose a predecessor; those that have no other one become independent. -/
def release (s : State Sym) : List Sym → Except Stop (State Sym)
  | [] => .ok s
  | x :: due =>
    match decrement s.nodes x with
    | .error e => .error e
    | .ok (nodes, count) =>
      release { s with nodes, frontier := if count = 0 then s.frontier ++ [x] else s.frontier } due

/-- A turn of the loop of `run_tsort`. -/
def sortTurn (name : Sym) (fuel : Nat) (s : State Sym) : Except Stop (State Sym ⊕ List (Event Sym)) :=
  if s.nodes.entries.isEmpty then .ok (.inr s.out)
  else
    match findNextNode name fuel s with
    | .error e => .error e
    | .ok (v, s) =>
      let out := s.out ++ [.print v]
      match s.nodes.lookup v with
      | none => .ok (.inl { s with out })
      -- the successors are reversed to match the order of GNU tsort
      | some node => (release ⟨s.nodes.erase v, s.frontier, out⟩ node.successorTokens.reverse).map .inl

/-- `independent_nodes_queue` at the start. -/
def independentNodes (nodes : Nodes Sym) : List Sym :=
  sortOn id ((nodes.entries.filter fun e => e.2.predecessorCount = 0).map Sigma.fst)

/-- `run_tsort`; `fuel` bounds the turns of each of its loops. -/
def runTsort (fuel : Nat) (graph : Graph Sym) : Except Stop (List (Event Sym)) :=
  loop (sortTurn graph.nameSym fuel) fuel ⟨graph.nodes, independentNodes graph.nodes, []⟩

/-! ## What has been written -/

/-- The tokens that have been printed, in order. -/
def printed (out : List (Event Sym)) : List Sym :=
  out.filterMap fun
    | .print sym => some sym
    | .loop _ _ => none

/-- The edge from the last node of a loop to the first. -/
def closingEdge (cycle : List Sym) : Option (Sym × Sym) :=
  cycle.getLast?.bind fun u => cycle.head?.map fun v => (u, v)

/-- The edges that have been removed. -/
def removed (out : List (Event Sym)) : List (Sym × Sym) :=
  out.filterMap fun
    | .print _ => none
    | .loop _ cycle => closingEdge cycle

/-- Every loop is one of edges that had not been removed before it, between tokens that had not been printed before. -/
def LoopsGenuine (es : List (Sym × Sym)) (out : List (Event Sym)) : Prop :=
  ∀ before name cycle after, out = before ++ .loop name cycle :: after →
    IsLoop (fun u v => (u, v) ∈ es.diff (removed before)) cycle ∧ ∀ x ∈ cycle, x ∉ printed before

omit [LinearOrder Sym] in
theorem printed_append (out out' : List (Event Sym)) : printed (out ++ out') = printed out ++ printed out' :=
  List.filterMap_append

omit [LinearOrder Sym] in
theorem removed_append (out out' : List (Event Sym)) : removed (out ++ out') = removed out ++ removed out' :=
  List.filterMap_append

omit [LinearOrder Sym] in
theorem closingEdge_eq {cycle : List Sym} {u v : Sym} (hu : cycle.getLast? = some u) (hv : cycle.head? = some v) :
    closingEdge cycle = some (u, v) := by
  rw [closingEdge, hu, hv]
  rfl

theorem loopsGenuine_append {es : List (Sym × Sym)} {out : List (Event Sym)} (h : LoopsGenuine es out)
    {event : Event Sym} (hevent : ∀ name cycle, event = .loop name cycle →
      IsLoop (fun u v => (u, v) ∈ es.diff (removed out)) cycle ∧ ∀ x ∈ cycle, x ∉ printed out) :
    LoopsGenuine es (out ++ [event]) := by
  intro before name cycle after hsplit
  rcases List.eq_nil_or_concat after with rfl | ⟨after, last, rfl⟩
  · obtain ⟨rfl, hlast⟩ := List.append_inj' hsplit rfl
    exact hevent name cycle (List.singleton_inj.1 hlast)
  · rw [List.concat_eq_append, ← List.cons_append, ← List.append_assoc] at hsplit
    obtain ⟨rfl, -⟩ := List.append_inj' hsplit rfl
    exact h before name cycle after rfl

/-! ## The state between two turns -/

/-- The graph holds the edges `es` that are left of the edges `es₀` of the tokens. -/
structure Progress (tokens : List Sym) (es₀ es : List (Sym × Sym)) (s : State Sym) : Prop where
  holds : Holds s.nodes es []
  frontier_nodup : s.frontier.Nodup
  mem_frontier : ∀ x, x ∈ s.frontier ↔ x ∈ s.nodes ∧ indeg es x = 0
  printed_nodup : (printed s.out).Nodup
  mem_tokens : ∀ x, x ∈ tokens ↔ x ∈ printed s.out ∨ x ∈ s.nodes
  not_printed : ∀ x ∈ s.nodes, x ∉ printed s.out
  accounted : ∃ kept, es₀.Perm (kept ++ es ++ removed s.out) ∧
    ∀ e ∈ kept, (printed s.out).idxOf e.1 < (printed s.out).idxOf e.2
  loops : LoopsGenuine es₀ s.out

variable {tokens : List Sym} {es₀ es : List (Sym × Sym)} {s : State Sym}

theorem Progress.length_le (h : Progress tokens es₀ es s) : es.length ≤ es₀.length := by
  obtain ⟨kept, hperm, -⟩ := h.accounted
  rw [hperm.length_eq, List.length_append, List.length_append]
  omega

theorem append_diff_self {α : Type} [BEq α] [LawfulBEq α] (xs ys : List α) : (xs ++ ys).diff xs = ys := by
  induction xs with
  | nil => rfl
  | cons x xs ih => rw [List.cons_append, List.diff_cons, List.erase_cons_head, ih]

/-- An edge that is left has not been removed. -/
theorem Progress.mem_diff (h : Progress tokens es₀ es s) {e : Sym × Sym} (he : e ∈ es) :
    e ∈ es₀.diff (removed s.out) := by
  obtain ⟨kept, hperm, -⟩ := h.accounted
  have hdiff := (hperm.trans List.perm_append_comm).diff_right (removed s.out)
  rw [append_diff_self] at hdiff
  exact hdiff.symm.subset (List.mem_append_right kept he)

/-- Where no node is independent, a loop is reported and broken. -/
theorem Progress.break (h : Progress tokens es₀ es s) (hfrontier : s.frontier = []) (hne : ∃ x, x ∈ s.nodes)
    (name : Sym) :
    ∃ s' es', findAndBreakCycle name s = .ok s' ∧ Progress tokens es₀ es' s' ∧ es'.length < es.length ∧
      printed s'.out = printed s.out ∧ ∃ x, x ∈ s'.nodes := by
  have hpred : ∀ x ∈ s.nodes, indeg es x ≠ 0 := fun x hx h0 => by
    have := (h.mem_frontier x).2 ⟨hx, h0⟩
    rw [hfrontier] at this
    cases this
  obtain ⟨cycle, hcycle, hloop⟩ := detectCycle_spec h.holds hne hpred
  obtain ⟨u, v, hu, hv, huv⟩ := hloop.closing
  obtain ⟨nodes, hremove, hholds, hmem⟩ := h.holds.removeEdge huv
  have hclosing : removed (s.out ++ [.loop name cycle]) = removed s.out ++ [(u, v)] := by
    rw [removed_append]
    exact congrArg (_ ++ ·) (by simp [removed, closingEdge_eq hu hv])
  have hprinted : printed (s.out ++ [.loop name cycle]) = printed s.out := by
    rw [printed_append]
    exact List.append_nil _
  have hindeg : ∀ x, indeg es x = indeg (es.erase (u, v)) x + [v].count x := indeg_erase huv
  refine ⟨⟨nodes, if indeg (es.erase (u, v)) v = 0 then [v] else [], s.out ++ [.loop name cycle]⟩, es.erase (u, v),
    ?_, ⟨hholds, ?_, fun x => ?_, hprinted ▸ h.printed_nodup, fun x => ?_, fun x hx => ?_, ?_, ?_⟩, ?_, hprinted, ?_⟩
  · simp only [findAndBreakCycle, hcycle, hu, hv, hremove, hfrontier, List.nil_append]
  · show (if indeg (es.erase (u, v)) v = 0 then [v] else []).Nodup
    split <;> simp
  · -- only the target of the removed edge can have lost its last predecessor
    show x ∈ (if indeg (es.erase (u, v)) v = 0 then [v] else []) ↔ x ∈ nodes ∧ indeg (es.erase (u, v)) x = 0
    constructor
    · intro hx
      split at hx
      · rename_i h0
        obtain rfl := List.mem_singleton.1 hx
        exact ⟨(hmem x).2 (h.holds.target _ huv), h0⟩
      · cases hx
    · rintro ⟨hx, h0⟩
      have hxv : x = v := by
        by_contra hxv
        refine hpred x ((hmem x).1 hx) ?_
        rw [hindeg, h0, List.count_singleton, if_neg (by simpa using Ne.symm hxv)]
      subst hxv
      rw [if_pos h0]
      exact List.mem_singleton_self x
  · show x ∈ tokens ↔ x ∈ printed (s.out ++ [.loop name cycle]) ∨ x ∈ nodes
    rw [hprinted, hmem, h.mem_tokens]
  · exact hprinted ▸ h.not_printed x ((hmem x).1 hx)
  · obtain ⟨kept, hperm, hkept⟩ := h.accounted
    refine ⟨kept, ?_, hprinted ▸ hkept⟩
    show es₀.Perm (kept ++ es.erase (u, v) ++ removed (s.out ++ [.loop name cycle]))
    rw [hclosing]
    refine hperm.trans ?_
    rw [List.append_assoc, List.append_assoc]
    refine List.Perm.append_left _ (((List.perm_cons_erase huv).append_right _).trans ?_)
    rw [← List.append_assoc]
    exact (List.perm_append_singleton _ _).symm
  · refine loopsGenuine_append h.loops fun name' cycle' hevent => ?_
    obtain ⟨-, rfl⟩ := Event.loop.inj hevent
    refine ⟨hloop.mono fun u v huv => h.mem_diff huv, fun x hx => ?_⟩
    obtain ⟨y, hxy⟩ := hloop.source hx
    exact h.not_printed x (h.holds.source _ hxy)
  · rw [List.length_erase_of_mem huv]
    have := List.length_pos_of_mem huv
    omega
  · obtain ⟨x, hx⟩ := hne
    exact ⟨x, (hmem x).2 hx⟩

/-- An independent node is found, once enough loops are broken. -/
theorem Progress.findNextNode (h : Progress tokens es₀ es s) (hne : ∃ x, x ∈ s.nodes) (name : Sym) {fuel : Nat}
    (hfuel : es.length < fuel) :
    ∃ r, Tsort.findNextNode name fuel s = .ok r ∧ printed r.2.out = printed s.out ∧
      ∃ es', Progress tokens es₀ es' { r.2 with frontier := r.1 :: r.2.frontier } := by
  refine loop_spec
    (fun n s' => ∃ es, Progress tokens es₀ es s' ∧ es.length = n ∧ printed s'.out = printed s.out ∧ ∃ x, x ∈ s'.nodes)
    (fun r : Sym × State Sym => printed r.2.out = printed s.out ∧
      ∃ es', Progress tokens es₀ es' { r.2 with frontier := r.1 :: r.2.frontier }) ?_ ⟨es, h, rfl, rfl, hne⟩ hfuel
  rintro n s' ⟨es, h, rfl, hprinted, hne⟩
  cases hfrontier : s'.frontier with
  | nil =>
    obtain ⟨s'', es', hbreak, h', hlt, hsame, hne'⟩ := h.break hfrontier hne name
    refine .inr ⟨es'.length, s'', ?_, hlt, es', h', rfl, hsame.trans hprinted, hne'⟩
    simp only [nextTurn, hfrontier, hbreak, Except.map]
  | cons v frontier =>
    refine .inl ⟨(v, { s' with frontier }), by simp only [nextTurn, hfrontier], hprinted, es, ?_⟩
    have hs : ({ s' with frontier := v :: frontier } : State Sym) = s' := by rw [← hfrontier]
    exact hs.symm ▸ h

/-- The successors that are due are released. -/
theorem release_spec {es : List (Sym × Sym)} {due : List Sym} {s : State Sym} (h : Holds s.nodes es due)
    (hnodup : s.frontier.Nodup)
    (hfrontier : ∀ x, x ∈ s.frontier ↔ x ∈ s.nodes ∧ indeg es x + due.count x = 0) :
    ∃ s', release s due = .ok s' ∧ Holds s'.nodes es [] ∧ s'.frontier.Nodup ∧
      (∀ x, x ∈ s'.frontier ↔ x ∈ s'.nodes ∧ indeg es x = 0) ∧ (∀ x, x ∈ s'.nodes ↔ x ∈ s.nodes) ∧ s'.out = s.out := by
  induction due generalizing s with
  | nil => exact ⟨s, rfl, h, hnodup, hfrontier, fun _ => .rfl, rfl⟩
  | cons v due ih =>
    obtain ⟨nodes, hdec, hholds, hmem⟩ := h.decrement
    have hv : v ∈ s.nodes := h.due v List.mem_cons_self
    have hvnot : v ∉ s.frontier := fun hin => by
      have := ((hfrontier v).1 hin).2
      rw [List.count_cons_self] at this
      omega
    have hother : ∀ x, x ≠ v → (x ∈ s.frontier ↔ x ∈ nodes ∧ indeg es x + due.count x = 0) := by
      intro x hx
      rw [hfrontier, hmem, List.count_cons_of_ne (Ne.symm hx)]
    have hnext : ∃ frontier, frontier = (if indeg es v + due.count v = 0 then s.frontier ++ [v] else s.frontier) ∧
        frontier.Nodup ∧ ∀ x, x ∈ frontier ↔ x ∈ nodes ∧ indeg es x + due.count x = 0 := by
      refine ⟨_, rfl, ?_⟩
      split
      · rename_i h0
        refine ⟨List.nodup_append.2 ⟨hnodup, List.nodup_singleton v, fun x hx y hy hxy => hvnot ?_⟩, fun x => ?_⟩
        · exact List.mem_singleton.1 hy ▸ hxy ▸ hx
        · by_cases hx : x = v
          · subst hx
            simp [hmem, hv, h0]
          · rw [List.mem_append, hother x hx, List.mem_singleton, or_iff_left hx]
      · rename_i h0
        refine ⟨hnodup, fun x => ?_⟩
        by_cases hx : x = v
        · subst hx
          exact ⟨fun hin => absurd hin hvnot, fun hin => absurd hin.2 h0⟩
        · exact hother x hx
    obtain ⟨frontier, hif, hnodup', hfrontier'⟩ := hnext
    obtain ⟨s', hs', hholds', hnodup'', hfrontier'', hmem', hout⟩ :=
      ih (s := ⟨nodes, frontier, s.out⟩) hholds hnodup' hfrontier'
    refine ⟨s', ?_, hholds', hnodup'', hfrontier'', fun x => (hmem' x).trans (hmem x), hout⟩
    simp only [release, hdec, ← hif]
    exact hs'

/-- An independent node is printed, and its successors are released. -/
theorem Progress.print {v : Sym} {frontier : List Sym}
    (h : Progress tokens es₀ es { s with frontier := v :: frontier }) :
    ∃ node s', s.nodes.lookup v = some node ∧
      release ⟨s.nodes.erase v, frontier, s.out ++ [.print v]⟩ node.successorTokens.reverse = .ok s' ∧
      Progress tokens es₀ (without es v) s' ∧ s'.out = s.out ++ [.print v] ∧ v ∈ s.nodes := by
  obtain ⟨hv, hindeg⟩ := (h.mem_frontier v).1 List.mem_cons_self
  have hholds := h.holds.erase hindeg
  have hvs : ∀ x, x ∈ s.nodes.erase v ↔ x ≠ v ∧ x ∈ s.nodes := fun x => AList.mem_erase
  have hfrontier : ∀ x, x ∈ frontier ↔
      x ∈ s.nodes.erase v ∧ indeg (without es v) x + (succs es v).reverse.count x = 0 := by
    intro x
    rw [← indeg_without, hvs]
    have hx := h.mem_frontier x
    rw [List.mem_cons] at hx
    constructor
    · intro hin
      have hxv : x ≠ v := fun e => (List.nodup_cons.1 h.frontier_nodup).1 (e ▸ hin)
      exact ⟨⟨hxv, (hx.1 (.inr hin)).1⟩, (hx.1 (.inr hin)).2⟩
    · rintro ⟨⟨hxv, hin⟩, h0⟩
      exact (hx.2 ⟨hin, h0⟩).resolve_left hxv
  obtain ⟨s', hs', hholds', hnodup', hfrontier', hmem', hout⟩ :=
    release_spec (s := ⟨s.nodes.erase v, frontier, s.out ++ [.print v]⟩) hholds
      (List.nodup_cons.1 h.frontier_nodup).2 hfrontier
  have hmem : ∀ x, x ∈ s'.nodes ↔ x ≠ v ∧ x ∈ s.nodes := fun x => (hmem' x).trans (hvs x)
  have hprinted : printed s'.out = printed s.out ++ [v] := by
    rw [hout, printed_append]
    rfl
  have hremoved : removed s'.out = removed s.out := by
    rw [hout, removed_append]
    exact List.append_nil _
  have hvnot : v ∉ printed s.out := h.not_printed v hv
  refine ⟨_, s', h.holds.lookup hv, hs', ⟨hholds', hnodup', hfrontier', ?_, fun x => ?_, fun x hx => ?_, ?_, ?_⟩, hout,
    hv⟩
  · rw [hprinted, List.nodup_append]
    refine ⟨h.printed_nodup, List.nodup_singleton v, fun x hx y hy hxy => hvnot ?_⟩
    exact List.mem_singleton.1 hy ▸ hxy ▸ hx
  · rw [hprinted, hmem, List.mem_append, List.mem_singleton, or_assoc]
    refine (h.mem_tokens x).trans (or_congr_right ?_)
    by_cases hxv : x = v
    · subst hxv
      simpa using hv
    · simp [hxv]
  · obtain ⟨hxv, hx⟩ := (hmem x).1 hx
    rw [hprinted, List.mem_append, List.mem_singleton, not_or]
    exact ⟨h.not_printed x hx, hxv⟩
  · obtain ⟨kept, hperm, hkept⟩ := h.accounted
    refine ⟨kept ++ (succs es v).map fun x => (v, x), ?_, fun e he => ?_⟩
    · rw [hremoved, List.append_assoc kept]
      exact hperm.trans (((perm_without es v).append_left kept).append_right _)
    · rw [hprinted]
      rcases List.mem_append.1 he with he | he
      · have hlt := hkept e he
        have hin : e.1 ∈ printed s.out := by
          rw [← List.idxOf_lt_length_iff]
          exact lt_of_lt_of_le hlt List.idxOf_le_length
        rw [List.idxOf_append_of_mem hin]
        by_cases hin' : e.2 ∈ printed s.out
        · rwa [List.idxOf_append_of_mem hin']
        · rw [List.idxOf_append_of_notMem hin']
          exact lt_of_lt_of_le (List.idxOf_lt_length_iff.2 hin) (Nat.le_add_right _ _)
      · -- the successor is still in the graph, so it is printed later
        obtain ⟨x, hx, rfl⟩ := List.mem_map.1 he
        have hvx := mem_succs.1 hx
        have hxnot : x ∉ printed s.out := h.not_printed x (h.holds.target _ hvx)
        have hxv : x ≠ v := fun e => h.holds.ne _ hvx e.symm
        rw [List.idxOf_append_of_notMem hvnot, List.idxOf_append_of_notMem hxnot]
        simp [Ne.symm hxv]
  · rw [hout]
    exact loopsGenuine_append h.loops fun _ _ hevent => (by cases hevent)

/-! ## The whole run -/

theorem Progress.printed_length_le (h : Progress tokens es₀ es s) : (printed s.out).length ≤ tokens.length :=
  (List.subperm_of_subset h.printed_nodup fun x hx => (h.mem_tokens x).2 (.inl hx)).length_le

/-- The sort ends, and no node is left. -/
theorem Progress.runs (h : Progress tokens es₀ es s) (name : Sym) {fuel : Nat} (hes : es₀.length < fuel)
    (htokens : tokens.length < fuel) :
    ∃ out, loop (sortTurn name fuel) fuel s = .ok out ∧
      ∃ s', Progress tokens es₀ [] s' ∧ s'.out = out ∧ ∀ x, x ∉ s'.nodes := by
  -- each turn prints a token that has not been printed
  refine loop_spec
    (fun n s => ∃ es, Progress tokens es₀ es s ∧ (printed s.out).length + n = tokens.length)
    (fun out => ∃ s', Progress tokens es₀ [] s' ∧ s'.out = out ∧ ∀ x, x ∉ s'.nodes) ?_
    ⟨es, h, Nat.add_sub_cancel' h.printed_length_le⟩ (Nat.lt_of_le_of_lt (Nat.sub_le _ _) htokens)
  rintro n s ⟨es, h, hn⟩
  by_cases hempty : s.nodes.entries.isEmpty
  · have hnone : ∀ x, x ∉ s.nodes := by
      intro x hx
      rw [AList.mem_keys, AList.keys, List.isEmpty_iff.1 hempty] at hx
      cases hx
    have hes : es = [] := List.eq_nil_iff_forall_not_mem.2 fun e he => hnone e.1 (h.holds.source e he)
    exact .inl ⟨s.out, by simp only [sortTurn, hempty, if_true], s, hes ▸ h, rfl, hnone⟩
  · have hne : ∃ x, x ∈ s.nodes := by
      cases hentries : s.nodes.entries with
      | nil => exact absurd (List.isEmpty_iff.2 hentries) hempty
      | cons e entries => exact ⟨e.1, by simp [AList.mem_keys, AList.keys, hentries, List.keys]⟩
    obtain ⟨⟨v, s'⟩, hfind, hprinted, es', h'⟩ := h.findNextNode hne name (Nat.lt_of_le_of_lt h.length_le hes)
    obtain ⟨node, s'', hlookup, hrelease, h'', hout, -⟩ := h'.print
    have hlength : (printed s''.out).length = (printed s.out).length + 1 := by
      rw [hout, printed_append, List.length_append, hprinted]
      rfl
    have hle := h''.printed_length_le
    refine .inr ⟨n - 1, s'', ?_, by omega, without es' v, h'', by omega⟩
    simp only [sortTurn, hempty, hfind, hlookup, hrelease, Except.map, Bool.false_eq_true, if_false]

/-- More fuel finds the same node. -/
theorem findNextNode_mono (name : Sym) {fuel fuel' : Nat} (hfuel : fuel ≤ fuel') {r : Sym × State Sym}
    (h : findNextNode name fuel s = .ok r) : findNextNode name fuel' s = .ok r :=
  loop_mono (fun _ _ ht => ht) hfuel h

/-- More fuel prints the same. -/
theorem runTsort_mono {graph : Graph Sym} {fuel fuel' : Nat} (hfuel : fuel ≤ fuel') {out : List (Event Sym)}
    (h : runTsort fuel graph = .ok out) : runTsort fuel' graph = .ok out := by
  refine loop_mono (fun s t ht => ?_) hfuel h
  unfold sortTurn at ht ⊢
  split
  · rename_i hempty
    rwa [if_pos hempty] at ht
  · rename_i hempty
    rw [if_neg hempty] at ht
    cases hfind : findNextNode graph.nameSym fuel s with
    | error e =>
      rw [hfind] at ht
      cases ht
    | ok r =>
      rw [hfind] at ht
      rw [findNextNode_mono graph.nameSym hfuel hfind]
      exact ht

/-- The nodes that have no predecessor at the start. -/
theorem independentNodes_spec {nodes : Nodes Sym} (h : Holds nodes es []) :
    (independentNodes nodes).Nodup ∧ ∀ x, x ∈ independentNodes nodes ↔ x ∈ nodes ∧ indeg es x = 0 := by
  constructor
  · refine (perm_sortOn id _).nodup_iff.2 ?_
    exact (List.filter_sublist.map Sigma.fst).nodup nodes.keys_nodup
  · intro x
    rw [independentNodes, mem_sortOn, List.mem_map]
    constructor
    · rintro ⟨⟨y, node⟩, hin, rfl⟩
      obtain ⟨hentry, h0⟩ := List.mem_filter.1 hin
      have hlookup : nodes.lookup y = some node := AList.mem_lookup_iff.2 hentry
      refine ⟨AList.lookup_isSome.1 (by rw [hlookup]; rfl), ?_⟩
      simpa [h.node y node hlookup] using h0
    · rintro ⟨hx, h0⟩
      refine ⟨⟨x, ⟨succs es x, indeg es x + [].count x⟩⟩, List.mem_filter.2 ⟨?_, by simp [h0]⟩, rfl⟩
      exact AList.mem_lookup_iff.1 (h.lookup hx)

/-- The pairs are put in one after the other. -/
theorem holds_foldl (ps : List (Sym × Sym)) {nodes : Nodes Sym} (h : Holds nodes es []) :
    Holds (ps.foldl (fun nodes e => addEdge nodes e.1 e.2) nodes) (es ++ ps.filter fun e => e.1 ≠ e.2) [] ∧
      ∀ x, x ∈ ps.foldl (fun nodes e => addEdge nodes e.1 e.2) nodes ↔
        (∃ e ∈ ps, x = e.1 ∨ x = e.2) ∨ x ∈ nodes := by
  induction ps generalizing nodes es with
  | nil => simpa using h
  | cons e ps ih =>
    obtain ⟨hadd, hmem⟩ := h.addEdge e.1 e.2
    obtain ⟨hholds, hmems⟩ := ih hadd
    refine ⟨?_, fun x => ?_⟩
    · rw [List.append_assoc] at hholds
      by_cases he : e.1 = e.2 <;> simpa [he] using hholds
    · rw [List.foldl_cons, hmems, hmem]
      simp only [List.mem_cons, exists_eq_or_imp, or_assoc]
      exact or_left_comm.trans (or_congr_right or_left_comm)

/-- The whole run: every token once, every pair of different tokens that was not removed in order, only genuine loops,
and none where the pairs are acyclic. -/
structure Sorts (tokens : List Sym) (out : List (Event Sym)) : Prop where
  once : (printed out).Nodup
  all : ∀ x, x ∈ printed out ↔ x ∈ tokens
  ordered : ∃ kept, (edges tokens).Perm (kept ++ removed out) ∧
    ∀ e ∈ kept, (printed out).idxOf e.1 < (printed out).idxOf e.2
  loops : LoopsGenuine (edges tokens) out
  acyclic : (∀ x, ¬ Relation.TransGen (fun u v => (u, v) ∈ edges tokens) x x) →
    ∀ name cycle, .loop name cycle ∉ out

/-- What has been written when no node is left. -/
theorem Progress.sorts (h : Progress tokens (edges tokens) [] s) (hempty : ∀ x, x ∉ s.nodes) : Sorts tokens s.out := by
  refine ⟨h.printed_nodup, fun x => ?_, ?_, h.loops, fun hacyclic name cycle hin => ?_⟩
  · rw [h.mem_tokens, or_iff_left (hempty x)]
  · obtain ⟨kept, hperm, hkept⟩ := h.accounted
    exact ⟨kept, by rwa [List.append_nil] at hperm, hkept⟩
  · obtain ⟨before, after, hsplit⟩ := List.append_of_mem hin
    have hloop := (h.loops before name cycle after hsplit).1
    obtain ⟨x, hx⟩ := (hloop.mono fun u v huv => List.diff_subset _ _ huv).transGen
    exact hacyclic x hx

/-- The start of the sort. -/
theorem progress_start {tokens : List Sym} (heven : tokens.length % 2 = 0) {nodes : Nodes Sym}
    (hnodes : nodes = (pairs tokens).foldl (fun nodes e => addEdge nodes e.1 e.2) ∅) :
    Progress tokens (edges tokens) (edges tokens) ⟨nodes, independentNodes nodes, []⟩ := by
  have hnone : Holds (∅ : Nodes Sym) [] [] := holds_empty
  obtain ⟨hholds, hmem⟩ := holds_foldl (pairs tokens) hnone
  rw [List.nil_append, ← hnodes] at hholds
  obtain ⟨hnodup, hfrontier⟩ := independentNodes_spec hholds
  refine ⟨hholds, hnodup, hfrontier, List.nodup_nil, fun x => ?_, fun x _ => List.not_mem_nil, ?_, ?_⟩
  · show x ∈ tokens ↔ x ∈ [] ∨ x ∈ nodes
    rw [hnodes, hmem, ← mem_pairs heven]
    simp
  · exact ⟨[], by simp [removed], by simp⟩
  · intro before name cycle after hsplit
    exact absurd hsplit (by simp)

/-- Every even list of tokens, in whatever lines, is read, and the sort of it ends without a panic and is right. -/
theorem tsort_sorts (name : Sym) (lines : List (List Sym)) (heven : lines.flatten.length % 2 = 0) :
    ∃ graph out, processInput ⟨name, ∅⟩ (lines.map .ok) none = .ok graph ∧
      (∀ fuel, lines.flatten.length < fuel → runTsort fuel graph = .ok out) ∧ Sorts lines.flatten out := by
  have hread := processInput_ok ⟨name, ∅⟩ lines none
  rw [foldl_processToken, Option.toList_none, List.nil_append, unpaired_eq_none heven] at hread
  have hstart := progress_start heven rfl
  have hedges := Nat.lt_succ_of_le (length_edges_le lines.flatten)
  obtain ⟨out, hrun, s, hend, rfl, hempty⟩ := hstart.runs name hedges (Nat.lt_succ_self _)
  exact ⟨_, s.out, hread, fun fuel hfuel => runTsort_mono hfuel hrun, hend.sorts hempty⟩

/-- Two tokens that must each be before the other, and one behind them. -/
theorem tsort_sorts_loop : [[0, 1], [1, 0, 1], [2]].flatten.length % 2 = 0 ∧
    ∃ graph out, processInput ⟨9, ∅⟩ ([[0, 1], [1, 0, 1], [2]].map .ok) none = .ok graph ∧
      (∀ fuel, [[0, 1], [1, 0, 1], [2]].flatten.length < fuel → runTsort fuel graph = .ok out) ∧
      Sorts [[0, 1], [1, 0, 1], [2]].flatten out :=
  ⟨rfl, tsort_sorts 9 [[0, 1], [1, 0, 1], [2]] rfl⟩

end Peiosutils.Tsort
