import Mathlib.Data.List.AList
import Peiosutils.Lib.While

/-!
# The graph of `tsort`

`process_input` reads the tokens in pairs, and `add_edge` puts each pair into the graph. What a graph holds is said by
the list of its edges, an edge as often as it was put in (`Holds`): the successors of a node are the targets of its
edges in order, and its predecessor count is the number of edges into it and of those that are due to be taken off.
`add_edge`, `remove_edge`, the removal of a node and the decrement of a count each keep this.
-/

set_option autoImplicit false

namespace Peiosutils.Tsort

open While (Stop)

variable {Sym : Type} [DecidableEq Sym]

/-! ## Nodes and edges -/

/-- `remove`: find the element and remove it. -/
def remove (vec : List Sym) (x : Sym) : Option Nat × List Sym :=
  match vec.idxOf? x with
  | some i => (some i, vec.eraseIdx i)
  | none => (none, vec)

/-- A node; the tokens are interned, and a symbol stands for its token. -/
structure Node (Sym : Type) where
  successorTokens : List Sym := []
  predecessorCount : Nat := 0
  deriving DecidableEq, Repr

def Node.addSuccessor (node : Node Sym) (successor : Sym) : Node Sym :=
  { node with successorTokens := node.successorTokens ++ [successor] }

abbrev Nodes (Sym : Type) [DecidableEq Sym] := AList fun _ : Sym => Node Sym

structure Graph (Sym : Type) [DecidableEq Sym] where
  nameSym : Sym
  nodes : Nodes Sym := ∅

/-- `nodes.entry(sym).or_default()`. -/
def entryOrDefault (nodes : Nodes Sym) (sym : Sym) : Node Sym := (nodes.lookup sym).getD {}

def addEdge (nodes : Nodes Sym) (source target : Sym) : Nodes Sym :=
  let fromNode := entryOrDefault nodes source
  if source ≠ target then
    let nodes := nodes.insert source (fromNode.addSuccessor target)
    let toNode := entryOrDefault nodes target
    nodes.insert target { toNode with predecessorCount := toNode.predecessorCount + 1 }
  else nodes.insert source fromNode

/-- A node that must be there loses a predecessor; the count it then has. -/
def decrement (nodes : Nodes Sym) (sym : Sym) : Except Stop (Nodes Sym × Nat) :=
  match nodes.lookup sym with
  | none => .error .panic
  | some node =>
    if node.predecessorCount = 0 then .error .panic
    else .ok (nodes.insert sym { node with predecessorCount := node.predecessorCount - 1 }, node.predecessorCount - 1)

/-- `remove_edge`; the predecessor count that the target then has. -/
def removeEdge (nodes : Nodes Sym) (u v : Sym) : Except Stop (Nodes Sym × Nat) :=
  match nodes.lookup u with
  | none => .error .panic
  | some node =>
    decrement (nodes.insert u { node with successorTokens := (remove node.successorTokens v).2 }) v

/-! ## The input -/

/-- Why a line cannot be read. -/
inductive ReadError where
  | isADirectory
  | other
  deriving DecidableEq, Repr

inductive TsortError (Sym : Type) where
  | isDir (name : Sym)
  | numTokensOdd (name : Sym)
  | io
  deriving DecidableEq, Repr

/-- A token is kept pending, or ends a pair. -/
def processToken (state : Option Sym × Nodes Sym) (token : Sym) : Option Sym × Nodes Sym :=
  match state.1 with
  | some source => (none, addEdge state.2 source token)
  | none => (some token, state.2)

/-- `process_input`: each line is its tokens, or could not be read. -/
def processInput (graph : Graph Sym) : List (Except ReadError (List Sym)) → Option Sym →
    Except (TsortError Sym) (Graph Sym)
  | [], pending => if pending.isSome then .error (.numTokensOdd graph.nameSym) else .ok graph
  | .error .isADirectory :: _, _ => .error (.isDir graph.nameSym)
  | .error .other :: _, _ => .error .io
  | .ok line :: lines, pending =>
    let (pending, nodes) := line.foldl processToken (pending, graph.nodes)
    processInput { graph with nodes } lines pending

/-! ## The pairs of the input -/

/-- The tokens in pairs. -/
def pairs : List Sym → List (Sym × Sym)
  | u :: v :: tokens => (u, v) :: pairs tokens
  | _ => []

/-- The token that is left without a partner. -/
def unpaired : List Sym → Option Sym
  | [] => none
  | [u] => some u
  | _ :: _ :: tokens => unpaired tokens

/-- The pairs of different tokens, in the order of the input. -/
def edges (tokens : List Sym) : List (Sym × Sym) := (pairs tokens).filter fun e => e.1 ≠ e.2

omit [DecidableEq Sym] in
theorem unpaired_eq_none : ∀ {tokens : List Sym}, tokens.length % 2 = 0 → unpaired tokens = none
  | [], _ => rfl
  | [_], h => by simp at h
  | _ :: _ :: tokens, h => by
    have hrest : tokens.length % 2 = 0 := by
      rw [List.length_cons, List.length_cons] at h
      omega
    have htail : unpaired tokens = none := unpaired_eq_none hrest
    exact htail

omit [DecidableEq Sym] in
theorem mem_pairs {t : Sym} : ∀ {tokens : List Sym}, tokens.length % 2 = 0 →
    ((∃ e ∈ pairs tokens, t = e.1 ∨ t = e.2) ↔ t ∈ tokens)
  | [], _ => by simp [pairs]
  | [_], h => by simp at h
  | u :: v :: tokens, h => by
    have hrest : tokens.length % 2 = 0 := by
      rw [List.length_cons, List.length_cons] at h
      omega
    have ih := mem_pairs (t := t) hrest
    simp [pairs, ← ih, or_assoc]

omit [DecidableEq Sym] in
theorem length_pairs_le : ∀ tokens : List Sym, (pairs tokens).length ≤ tokens.length
  | [] => le_rfl
  | [_] => Nat.zero_le _
  | _ :: _ :: tokens => by
    have ih := length_pairs_le tokens
    simp only [pairs, List.length_cons]
    omega

theorem length_edges_le (tokens : List Sym) : (edges tokens).length ≤ tokens.length :=
  Nat.le_trans (List.length_filter_le _ _) (length_pairs_le tokens)

/-- Reading tokens puts in the pairs that they make with the pending one. -/
theorem foldl_processToken (tokens : List Sym) (pending : Option Sym) (nodes : Nodes Sym) :
    tokens.foldl processToken (pending, nodes) =
      (unpaired (pending.toList ++ tokens),
        (pairs (pending.toList ++ tokens)).foldl (fun nodes e => addEdge nodes e.1 e.2) nodes) := by
  induction tokens generalizing pending nodes with
  | nil => cases pending <;> rfl
  | cons token tokens ih =>
    cases pending with
    | none => exact ih (some token) nodes
    | some source => exact ih none (addEdge nodes source token)

/-- All lines are read as the tokens of the whole input. -/
theorem processInput_ok (graph : Graph Sym) (lines : List (List Sym)) (pending : Option Sym) :
    processInput graph (lines.map .ok) pending =
      if (lines.flatten.foldl processToken (pending, graph.nodes)).1.isSome then .error (.numTokensOdd graph.nameSym)
      else .ok { graph with nodes := (lines.flatten.foldl processToken (pending, graph.nodes)).2 } := by
  induction lines generalizing graph pending with
  | nil => rfl
  | cons line lines ih =>
    rw [List.flatten_cons, List.foldl_append]
    exact ih _ _

/-! ## What a graph holds -/

/-- The targets of the edges out of a node. -/
def succs (es : List (Sym × Sym)) (u : Sym) : List Sym := (es.filter fun e => e.1 = u).map Prod.snd

/-- The number of edges into a node. -/
def indeg (es : List (Sym × Sym)) (v : Sym) : Nat := (es.map Prod.snd).count v

theorem mem_succs {es : List (Sym × Sym)} {u v : Sym} : v ∈ succs es u ↔ (u, v) ∈ es := by
  simp [succs]

theorem indeg_eq_zero {es : List (Sym × Sym)} {v : Sym} : indeg es v = 0 ↔ ∀ e ∈ es, e.2 ≠ v := by
  rw [indeg, List.count_eq_zero, List.mem_map]
  exact ⟨fun h e he hev => h ⟨e, he, hev⟩, fun h ⟨e, he, hev⟩ => h e he hev⟩

/-- The nodes hold the edges; the predecessors in `due` have not been taken off yet. -/
structure Holds (nodes : Nodes Sym) (es : List (Sym × Sym)) (due : List Sym) : Prop where
  node : ∀ x n, nodes.lookup x = some n → n = ⟨succs es x, indeg es x + due.count x⟩
  source : ∀ e ∈ es, e.1 ∈ nodes
  target : ∀ e ∈ es, e.2 ∈ nodes
  ne : ∀ e ∈ es, e.1 ≠ e.2
  due : ∀ x ∈ due, x ∈ nodes

theorem Holds.lookup {nodes : Nodes Sym} {es : List (Sym × Sym)} {due : List Sym} (h : Holds nodes es due) {x : Sym}
    (hx : x ∈ nodes) : nodes.lookup x = some ⟨succs es x, indeg es x + due.count x⟩ := by
  obtain ⟨n, hn⟩ := Option.isSome_iff_exists.1 (AList.lookup_isSome.2 hx)
  rw [hn, h.node x n hn]

/-- A node that is not there has no edges. -/
theorem Holds.entryOrDefault {nodes : Nodes Sym} {es : List (Sym × Sym)} {due : List Sym} (h : Holds nodes es due)
    (x : Sym) : Tsort.entryOrDefault nodes x = ⟨succs es x, indeg es x + due.count x⟩ := by
  by_cases hx : x ∈ nodes
  · rw [Tsort.entryOrDefault, h.lookup hx]
    rfl
  · have hsuccs : succs es x = [] := List.eq_nil_iff_forall_not_mem.2 fun v hv => hx (h.source _ (mem_succs.1 hv))
    have hindeg : indeg es x = 0 := indeg_eq_zero.2 fun e he hex => hx (hex ▸ h.target e he)
    have hdue : due.count x = 0 := List.count_eq_zero.2 fun hd => hx (h.due x hd)
    rw [Tsort.entryOrDefault, AList.lookup_eq_none.2 hx, hsuccs, hindeg, hdue]
    rfl

theorem holds_empty : Holds (∅ : Nodes Sym) [] [] where
  node x n h := by cases h
  source := by simp
  target := by simp
  ne := by simp
  due := by simp

theorem succs_append (es : List (Sym × Sym)) (u v x : Sym) :
    succs (es ++ [(u, v)]) x = if u = x then succs es x ++ [v] else succs es x := by
  by_cases h : u = x <;> simp [succs, h]

theorem indeg_append (es : List (Sym × Sym)) (u v x : Sym) :
    indeg (es ++ [(u, v)]) x = indeg es x + if v = x then 1 else 0 := by
  by_cases h : v = x <;> simp [indeg, h]

/-- A pair of different tokens becomes the last edge; a pair of equal ones is a node only. -/
theorem Holds.addEdge {nodes : Nodes Sym} {es : List (Sym × Sym)} (h : Holds nodes es []) (u v : Sym) :
    Holds (Tsort.addEdge nodes u v) (es ++ if u ≠ v then [(u, v)] else []) [] ∧
      ∀ x, x ∈ Tsort.addEdge nodes u v ↔ x = u ∨ x = v ∨ x ∈ nodes := by
  have hu := h.entryOrDefault u
  have hv := h.entryOrDefault v
  unfold Tsort.addEdge
  by_cases huv : u = v
  · subst huv
    simp only [ne_eq, not_true_eq_false, if_false, List.append_nil, AList.mem_insert, ← or_assoc, or_self, implies_true,
      and_true]
    refine ⟨fun x n hx => ?_, fun e he => ?_, fun e he => ?_, h.ne, by simp⟩
    · by_cases hxu : x = u
      · subst hxu
        rw [AList.lookup_insert] at hx
        exact (Option.some.inj hx).symm.trans hu
      · rw [AList.lookup_insert_ne hxu] at hx
        exact h.node x n hx
    · exact AList.mem_insert _ |>.2 (.inr (h.source e he))
    · exact AList.mem_insert _ |>.2 (.inr (h.target e he))
  · have hvu : v ≠ u := fun e => huv e.symm
    have hto : Tsort.entryOrDefault (nodes.insert u ((Tsort.entryOrDefault nodes u).addSuccessor v)) v =
        Tsort.entryOrDefault nodes v := by
      rw [Tsort.entryOrDefault, AList.lookup_insert_ne hvu, ← Tsort.entryOrDefault]
    simp only [ne_eq, huv, not_false_eq_true, if_true]
    have hmem : ∀ (nodes : Nodes Sym) (a b : Node Sym) x,
        x ∈ (nodes.insert u a).insert v b ↔ x = u ∨ x = v ∨ x ∈ nodes := by
      intro nodes a b x
      rw [AList.mem_insert, AList.mem_insert, or_left_comm]
    refine ⟨⟨fun x n hx => ?_, fun e he => ?_, fun e he => ?_, fun e he => ?_, by simp⟩, hmem _ _ _⟩
    · rw [succs_append, indeg_append, List.count_nil]
      by_cases hxv : x = v
      · subst hxv
        rw [AList.lookup_insert, hto, hv] at hx
        simpa [huv] using (Option.some.inj hx).symm
      · rw [AList.lookup_insert_ne hxv] at hx
        by_cases hxu : x = u
        · subst hxu
          rw [AList.lookup_insert, hu] at hx
          simpa [Node.addSuccessor, hvu] using (Option.some.inj hx).symm
        · rw [AList.lookup_insert_ne hxu] at hx
          rw [h.node x n hx]
          simp [Ne.symm hxu, Ne.symm hxv]
    · rcases List.mem_append.1 he with he | he
      · exact (hmem _ _ _ _).2 (.inr (.inr (h.source e he)))
      · exact (hmem _ _ _ _).2 (.inl (by rw [List.mem_singleton.1 he]))
    · rcases List.mem_append.1 he with he | he
      · exact (hmem _ _ _ _).2 (.inr (.inr (h.target e he)))
      · exact (hmem _ _ _ _).2 (.inr (.inl (by rw [List.mem_singleton.1 he])))
    · rcases List.mem_append.1 he with he | he
      · exact h.ne e he
      · rw [List.mem_singleton.1 he]
        exact huv

/-! ## Taking off -/

theorem remove_snd (vec : List Sym) (x : Sym) : (remove vec x).2 = vec.erase x := by
  rw [List.erase_eq_eraseIdx, remove]
  cases vec.idxOf? x <;> rfl

/-- A predecessor that is due is taken off. -/
theorem Holds.decrement {nodes : Nodes Sym} {es : List (Sym × Sym)} {v : Sym} {due : List Sym}
    (h : Holds nodes es (v :: due)) :
    ∃ nodes', Tsort.decrement nodes v = .ok (nodes', indeg es v + due.count v) ∧ Holds nodes' es due ∧
      ∀ x, x ∈ nodes' ↔ x ∈ nodes := by
  have hv : v ∈ nodes := h.due v List.mem_cons_self
  have hcount : indeg es v + (v :: due).count v = indeg es v + due.count v + 1 := by
    rw [List.count_cons_self, Nat.add_assoc]
  have hmem : ∀ (n : Node Sym) x, x ∈ nodes.insert v n ↔ x ∈ nodes := by
    intro n x
    rw [AList.mem_insert, or_iff_right_of_imp]
    rintro rfl
    exact hv
  refine ⟨nodes.insert v ⟨succs es v, indeg es v + due.count v⟩, ?_, ⟨fun x n hx => ?_, ?_, ?_, h.ne, ?_⟩, hmem _⟩
  · simp only [Tsort.decrement, h.lookup hv, hcount, Nat.add_sub_cancel, Nat.succ_ne_zero, if_false]
  · by_cases hxv : x = v
    · subst hxv
      rw [AList.lookup_insert] at hx
      exact (Option.some.inj hx).symm
    · rw [AList.lookup_insert_ne hxv] at hx
      rw [h.node x n hx, List.count_cons_of_ne (Ne.symm hxv)]
  · exact fun e he => (hmem _ _).2 (h.source e he)
  · exact fun e he => (hmem _ _).2 (h.target e he)
  · exact fun x hx => (hmem _ _).2 (h.due x (List.mem_cons_of_mem v hx))

theorem succs_erase {es : List (Sym × Sym)} {u v : Sym} (x : Sym) :
    succs (es.erase (u, v)) x = if x = u then (succs es x).erase v else succs es x := by
  induction es with
  | nil => simp [succs]
  | cons e es ih =>
    by_cases he : e = (u, v)
    · subst he
      rw [List.erase_cons_head]
      by_cases hx : u = x
      · subst hx
        simp [succs]
      · simp [succs, hx, Ne.symm hx]
    · rw [List.erase_cons_tail (by simpa using he)]
      by_cases hx : e.1 = x
      · have hcons : ∀ es : List (Sym × Sym), succs (e :: es) x = e.2 :: succs es x := by simp [succs, hx]
        rw [hcons, hcons, ih]
        split
        · rename_i hxu
          have hne : e.2 ≠ v := fun hev => he (Prod.ext (hx.trans hxu) hev)
          rw [List.erase_cons_tail (by simpa using hne)]
        · rfl
      · have hcons : ∀ es : List (Sym × Sym), succs (e :: es) x = succs es x := by simp [succs, hx]
        rw [hcons, hcons, ih]

theorem indeg_erase {es : List (Sym × Sym)} {u v : Sym} (h : (u, v) ∈ es) (x : Sym) :
    indeg es x = indeg (es.erase (u, v)) x + [v].count x := by
  have hperm : (es.map Prod.snd).Perm (v :: (es.erase (u, v)).map Prod.snd) := (List.perm_cons_erase h).map Prod.snd
  rw [indeg, hperm.count_eq, List.count_cons, indeg, List.count_singleton]

/-- An edge that is there is taken out, and its target counts one predecessor less. -/
theorem Holds.removeEdge {nodes : Nodes Sym} {es : List (Sym × Sym)} (h : Holds nodes es []) {u v : Sym}
    (huv : (u, v) ∈ es) :
    ∃ nodes', Tsort.removeEdge nodes u v = .ok (nodes', indeg (es.erase (u, v)) v) ∧
      Holds nodes' (es.erase (u, v)) [] ∧ ∀ x, x ∈ nodes' ↔ x ∈ nodes := by
  have hu : u ∈ nodes := h.source _ huv
  have hmem : ∀ (n : Node Sym) x, x ∈ nodes.insert u n ↔ x ∈ nodes := by
    intro n x
    rw [AList.mem_insert, or_iff_right_of_imp]
    rintro rfl
    exact hu
  have hsub : ∀ e ∈ es.erase (u, v), e ∈ es := fun e he => List.mem_of_mem_erase he
  -- the edge is out, and the predecessor is due
  have hdue : Holds (nodes.insert u ⟨(remove (succs es u) v).2, indeg es u + [].count u⟩) (es.erase (u, v)) [v] := by
    refine ⟨fun x n hx => ?_, fun e he => ?_, fun e he => ?_, fun e he => h.ne e (hsub e he), fun x hx => ?_⟩
    · rw [succs_erase, ← indeg_erase huv]
      by_cases hxu : x = u
      · subst hxu
        rw [AList.lookup_insert, remove_snd] at hx
        simpa using (Option.some.inj hx).symm
      · rw [AList.lookup_insert_ne hxu] at hx
        simpa [hxu] using h.node x n hx
    · exact (hmem _ _).2 (h.source e (hsub e he))
    · exact (hmem _ _).2 (h.target e (hsub e he))
    · rw [List.mem_singleton.1 hx]
      exact (hmem _ _).2 (h.target _ huv)
  obtain ⟨nodes', hdec, hholds, hmem'⟩ := hdue.decrement
  refine ⟨nodes', ?_, hholds, fun x => (hmem' x).trans (hmem _ x)⟩
  rw [Tsort.removeEdge, h.lookup hu]
  exact hdec

/-- The edges that do not come out of a node. -/
def without (es : List (Sym × Sym)) (u : Sym) : List (Sym × Sym) := es.filter fun e => e.1 ≠ u

theorem perm_without (es : List (Sym × Sym)) (u : Sym) :
    es.Perm ((succs es u).map (fun v => (u, v)) ++ without es u) := by
  have hsuccs : (succs es u).map (fun v => (u, v)) = es.filter fun e => e.1 = u := by
    rw [succs, List.map_map]
    conv_rhs => rw [← List.map_id (es.filter fun e => e.1 = u)]
    refine List.map_congr_left fun e he => ?_
    rw [List.mem_filter, decide_eq_true_eq] at he
    exact Prod.ext he.2.symm rfl
  have hnot : without es u = es.filter fun e => !decide (e.1 = u) :=
    List.filter_congr fun e _ => by simp
  rw [hsuccs, hnot]
  exact (List.filter_append_perm _ es).symm

theorem indeg_without (es : List (Sym × Sym)) (v x : Sym) :
    indeg es x = indeg (without es v) x + (succs es v).reverse.count x := by
  have := ((perm_without es v).map Prod.snd).count_eq x
  rw [List.map_append, List.map_map, List.count_append] at this
  rw [indeg, this, Nat.add_comm, indeg, List.count_reverse]
  exact congrArg (_ + List.count x ·) (List.map_id _)

/-- A node without predecessors is taken out, and each of its successors is due to lose it. -/
theorem Holds.erase {nodes : Nodes Sym} {es : List (Sym × Sym)} (h : Holds nodes es []) {v : Sym}
    (hv : indeg es v = 0) : Holds (nodes.erase v) (without es v) (succs es v).reverse := by
  have hsub : ∀ e ∈ without es v, e ∈ es ∧ e.1 ≠ v := fun e he => by simpa [without] using he
  refine ⟨fun x n hx => ?_, fun e he => ?_, fun e he => ?_, fun e he => h.ne e (hsub e he).1, fun x hx => ?_⟩
  · have hxv : x ≠ v := by
      rintro rfl
      rw [AList.lookup_erase] at hx
      cases hx
    rw [AList.lookup_erase_ne hxv] at hx
    have hsuccs : succs (without es v) x = succs es x := by
      rw [succs, succs, without, List.filter_filter]
      refine congrArg (List.map Prod.snd) (List.filter_congr fun e _ => ?_)
      by_cases he : e.1 = x <;> simp [he, hxv]
    rw [h.node x n hx, hsuccs, indeg_without es v, List.count_nil, Nat.add_zero]
  · exact AList.mem_erase.2 ⟨(hsub e he).2, h.source e (hsub e he).1⟩
  · exact AList.mem_erase.2 ⟨fun hev => indeg_eq_zero.1 hv e (hsub e he).1 hev, h.target e (hsub e he).1⟩
  · have hvx := mem_succs.1 (List.mem_reverse.1 hx)
    exact AList.mem_erase.2 ⟨fun hxv => h.ne _ hvx hxv.symm, h.target _ hvx⟩

end Peiosutils.Tsort
