import Mathlib.Data.List.Range
import Mathlib.Data.Prod.Lex
import Peiosutils.Lib.Greedy
import Peiosutils.Lib.Keyed
import Peiosutils.Lib.Utf8

/-!
# Hooks and their execution order (`hooks.rs`)

The hooks as `discover` parsed them, the order that `resolve` bakes into the image, and the edges that
`apply_implicit_ordering` adds before it. `kahnLoop` is the loop of `kahn_sort` on its explicit state; it is given as
many steps as there are hooks, which is enough for it to stop (`kahn_spec`).
-/

set_option autoImplicit false

namespace Peiosutils.Mkirf

open Keyed Utf8

/-- One discovered hook and its parsed ordering metadata. -/
structure Hook where
  name : String
  path : String
  /-- Capabilities this hook satisfies on its own. -/
  provides : List String
  /-- Capabilities this hook is one contributor to. -/
  contributes : List String
  /-- Capabilities that something must supply. -/
  requires : List String
  /-- Capabilities to be ordered after if anything supplies them. -/
  after : List String
  hasBlock : Bool
  deriving DecidableEq, Repr, Inhabited

namespace Hook

def supplies (h : Hook) : List String := h.provides ++ h.contributes

def consumes (h : Hook) : List String := h.requires ++ h.after

def isConstrained (h : Hook) : Bool := h.supplies.head?.isSome || h.consumes.head?.isSome

/-- The bytes that order hooks. -/
def nameBytes (h : Hook) : List Nat := asBytes h.name

end Hook

/-- The order, as the paths of `hooks.seq`, and the advisories. -/
structure Resolved where
  order : List String
  warnings : List String
  deriving DecidableEq, Repr

def initramfsReady : String := "initramfs-ready"

/-! ## The loop of `kahn_sort` -/

/-- `suppliers.get(cap)`: the indices of the hooks that supply `cap`, once for each mention. -/
def suppliersOf (constrained : List Hook) (cap : String) : List Nat :=
  constrained.zipIdx.flatMap fun (h, i) => (h.supplies.filter (· == cap)).map fun _ => i

/-- The pairs of a supplier and a consumer, as they are found. -/
def foundEdges (constrained : List Hook) : List (Nat × Nat) :=
  constrained.zipIdx.flatMap fun (h, c) => h.consumes.flatMap fun cap =>
    ((suppliersOf constrained cap).filter (· ≠ c)).map fun p => (p, c)

/-- `edge_set`, a `BTreeSet` of pairs. -/
def edgeSet (constrained : List Hook) : OrdSet (toLex : Nat × Nat → Nat ×ₗ Nat) := .ofList (foundEdges constrained)

/-- `edges[p]`. -/
def successors (edges : List (Nat × Nat)) (p : Nat) : List Nat := (edges.filter (·.1 == p)).map Prod.snd

/-- `indegree[c]` before the loop. -/
def initialIndegree (edges : List (Nat × Nat)) (c : Nat) : Nat := edges.countP (·.2 == c)

structure KahnState where
  indegree : Nat → Nat
  ready : OrdSet (id : Nat → Nat)
  order : List Nat

/-- One edge of a placed node is taken away. -/
def release (s : KahnState) (succ : Nat) : KahnState :=
  let d := s.indegree succ - 1
  { s with
    indegree := Function.update s.indegree succ d
    ready := if d = 0 then s.ready.insert succ else s.ready }

def kahnStep (edges : List (Nat × Nat)) (s : KahnState) : Option KahnState :=
  match s.ready.popFirst with
  | none => none
  | some (node, rest) =>
    some ((successors edges node).foldl release { s with ready := rest, order := s.order ++ [node] })

def kahnLoop (edges : List (Nat × Nat)) : Nat → KahnState → KahnState
  | 0, s => s
  | fuel + 1, s =>
    match kahnStep edges s with
    | none => s
    | some s' => kahnLoop edges fuel s'

def kahnInit (n : Nat) (edges : List (Nat × Nat)) : KahnState where
  indegree := initialIndegree edges
  ready := .ofList ((List.range n).filter fun i => initialIndegree edges i == 0)
  order := []

/-- The order of the hooks as indices, or the names of those caught in a cycle. -/
def kahnSort (constrained : List Hook) : Except String (List Nat) :=
  let n := constrained.length
  let edges := (edgeSet constrained).toList
  let order := (kahnLoop edges n (kahnInit n edges)).order
  if order.length ≠ n then
    let stuck := ((List.range n).filter (· ∉ order)).filterMap fun i => constrained[i]?.map Hook.name
    .error ("hook dependency cycle involving: " ++ ", ".intercalate stuck)
  else
    .ok order

/-! ## `resolve` -/

/-- The names of the hooks that pass, sorted and joined. -/
def namedHooks (hooks : List Hook) (pred : Hook → Bool) : String :=
  ", ".intercalate (sortOn asBytes ((hooks.filter pred).map Hook.name))

def provided (hooks : List Hook) : OrdSet asBytes := .ofList (hooks.flatMap Hook.provides)

def contributed (hooks : List Hook) : OrdSet asBytes := .ofList (hooks.flatMap Hook.contributes)

/-- The first of `provided.intersection(&contributed)`. -/
def mixedCapability (hooks : List Hook) : Option String :=
  (provided hooks).toList.find? fun cap => cap ∈ contributed hooks

def mixedError (hooks : List Hook) (cap : String) : String :=
  let providers := namedHooks hooks fun h => h.provides.any (· == cap)
  let contributors := namedHooks hooks fun h => h.contributes.any (· == cap)
  "capability `" ++ cap ++ "` is both provided (by " ++ providers ++ ") and contributed to (by " ++ contributors ++
    "); a capability is either alternatives, where one supplier suffices, or contributors, where all must complete " ++
    "— not both"

/-- The first requirement that no hook supplies, with the name of the hook that has it. -/
def unsuppliedRequirement (hooks constrained : List Hook) : Option (String × String) :=
  constrained.findSome? fun h =>
    (h.requires.find? fun req => req ∉ provided hooks ∧ req ∉ contributed hooks).map fun req => (h.name, req)

def unsuppliedError (name req : String) : String :=
  "hook `" ++ name ++ "` requires capability `" ++ req ++ "`, which no hook provides"

def noBlockWarning (name : String) : String :=
  "hook `" ++ name ++ "` has no `# /// hook` metadata block; scheduling it last"

/-- The hooks with an ordering key, by name, and those with none. -/
def constrainedOf (hooks : List Hook) : List Hook := (sortOn Hook.nameBytes hooks).filter Hook.isConstrained

def unconstrainedOf (hooks : List Hook) : List Hook := (sortOn Hook.nameBytes hooks).filter fun h => !h.isConstrained

def resolve (hooks : List Hook) : Except String Resolved :=
  let constrained := constrainedOf hooks
  let unconstrained := unconstrainedOf hooks
  match mixedCapability hooks with
  | some cap => .error (mixedError hooks cap)
  | none =>
    match unsuppliedRequirement hooks constrained with
    | some (name, req) => .error (unsuppliedError name req)
    | none =>
      match kahnSort constrained with
      | .error e => .error e
      | .ok order =>
        .ok { order := (order.filterMap fun i => constrained[i]?.map Hook.path) ++ unconstrained.map Hook.path
              warnings := (unconstrained.filter fun h => !h.hasBlock).map fun h => noBlockWarning h.name }

/-! ## `apply_implicit_ordering` -/

/-- The edge after `initramfs-ready`, for a hook that has ordering keys, does not supply it and does not wait on it. -/
def Hook.implicitlyOrdered (h : Hook) : Hook :=
  if !h.isConstrained || h.supplies.any (· == initramfsReady) then h
  else if h.consumes.any (· == initramfsReady) then h
  else { h with after := h.after ++ [initramfsReady] }

def applyImplicitOrdering (hooks : List Hook) : List Hook := hooks.map Hook.implicitlyOrdered

end Peiosutils.Mkirf

/-!
# The loop of `kahn_sort` places the first index that is ready

The loop keeps an in-degree for each node and a set of ready nodes up to date. `Running` says what the two mean: the
in-degree counts the edges from nodes that are not placed, and the set holds the nodes that wait for nothing but placed
ones. One step keeps it (`kahnStep_spec`), so what the loop returns is the greedy order and cannot be extended
(`kahnLoop_spec`).
-/

namespace Peiosutils.Mkirf

open Keyed GreedyOrder

/-! ## Releasing the successors of a node -/

@[simp] theorem release_order (s : KahnState) (c : Nat) : (release s c).order = s.order := rfl

theorem mem_release_ready {s : KahnState} {c i : Nat} :
    i ∈ (release s c).ready ↔ i ∈ s.ready ∨ (i = c ∧ s.indegree c - 1 = 0) := by
  unfold release
  dsimp only
  split
  · rename_i h
    rw [OrdSet.mem_insert Function.injective_id]
    tauto
  · rename_i h
    tauto

theorem foldl_release_order (succs : List Nat) (s : KahnState) : (succs.foldl release s).order = s.order := by
  induction succs generalizing s with
  | nil => rfl
  | cons c succs ih => rw [List.foldl_cons, ih, release_order]

/-- Every node on the list loses one. -/
theorem foldl_release_indegree {succs : List Nat} (hnd : succs.Nodup) (s : KahnState) (i : Nat) :
    (succs.foldl release s).indegree i = if i ∈ succs then s.indegree i - 1 else s.indegree i := by
  induction succs generalizing s with
  | nil => simp
  | cons c succs ih =>
    have ⟨hc, hnd'⟩ := List.nodup_cons.1 hnd
    rw [List.foldl_cons, ih hnd']
    by_cases hic : i = c
    · subst hic
      simp [hc, release]
    · simp [hic, release]

/-- A node on the list becomes ready when it had one left. -/
theorem mem_foldl_release_ready {succs : List Nat} (hnd : succs.Nodup) (s : KahnState) (i : Nat) :
    i ∈ (succs.foldl release s).ready ↔ i ∈ s.ready ∨ (i ∈ succs ∧ s.indegree i - 1 = 0) := by
  induction succs generalizing s with
  | nil => simp
  | cons c succs ih =>
    have ⟨hc, hnd'⟩ := List.nodup_cons.1 hnd
    rw [List.foldl_cons, ih hnd', mem_release_ready, List.mem_cons]
    by_cases hic : i = c
    · subst hic
      simp [hc]
    · simp [hic, release]

/-! ## The invariant -/

/-- The pairs run between different nodes below `n`, and none is there twice. -/
structure EdgeList (n : Nat) (edges : List (Nat × Nat)) : Prop where
  nodup : edges.Nodup
  bound : ∀ e ∈ edges, e.1 < n ∧ e.2 < n
  loopless : ∀ e ∈ edges, e.1 ≠ e.2

def Joins (edges : List (Nat × Nat)) (p c : Nat) : Prop := (p, c) ∈ edges

/-- The edges into `c` from nodes that are not placed. -/
def pending (edges : List (Nat × Nat)) (order : List Nat) (c : Nat) : Nat :=
  edges.countP fun e => e.2 == c && e.1 ∉ order

structure Running (n : Nat) (edges : List (Nat × Nat)) (s : KahnState) : Prop where
  indegree : ∀ c, s.indegree c = pending edges s.order c
  ready : ∀ i, i ∈ s.ready ↔ Ready (List.range n) (Joins edges) s.order i
  greedy : Greedy (List.range n) (Joins edges) (· ≤ ·) s.order

variable {n : Nat} {edges : List (Nat × Nat)} {s s' : KahnState}

theorem mem_successors {p c : Nat} : c ∈ successors edges p ↔ Joins edges p c := by
  simp [successors, Joins]

theorem nodup_successors (he : EdgeList n edges) (p : Nat) : (successors edges p).Nodup := by
  unfold successors
  refine (List.nodup_map_iff_inj_on (he.nodup.filter _)).2 ?_
  rintro ⟨a, c⟩ ha ⟨b, d⟩ hb (rfl : c = d)
  have ha' : a = p := by simpa using (List.mem_filter.1 ha).2
  have hb' : b = p := by simpa using (List.mem_filter.1 hb).2
  rw [ha', hb']

theorem pending_eq_zero {order : List Nat} {c : Nat} : pending edges order c = 0 ↔ ∀ p, Joins edges p c → p ∈ order := by
  simp only [pending, List.countP_eq_zero, Joins, Bool.and_eq_true, beq_iff_eq, decide_eq_true_eq, not_and, not_not]
  exact ⟨fun h p hp => h (p, c) hp rfl, fun h e he hc => h e.1 (hc ▸ he)⟩

/-- Placing a node takes away its edge, if it has one. -/
theorem pending_snoc {order : List Nat} {node c : Nat} (hnd : edges.Nodup) (hnode : node ∉ order) :
    pending edges (order ++ [node]) c =
      if c ∈ successors edges node then pending edges order c - 1 else pending edges order c := by
  suffices h : pending edges order c = pending edges (order ++ [node]) c + edges.count (node, c) by
    split
    · rename_i hj
      rw [h, List.count_eq_one_of_mem hnd (mem_successors.1 hj)]
      omega
    · rename_i hj
      rw [h, List.count_eq_zero_of_not_mem fun hm => hj (mem_successors.2 hm), Nat.add_zero]
  unfold pending
  induction edges with
  | nil => rfl
  | cons e edges ih =>
    obtain ⟨p, d⟩ := e
    have := ih (List.nodup_cons.1 hnd).2
    simp only [List.countP_cons, List.count_cons, this]
    by_cases hd : d = c <;> by_cases hp : p ∈ order <;> by_cases hpn : p = node <;>
      simp_all <;> omega

/-- An edge's source is a node, so a ready node waits for no edge. -/
theorem ready_iff (he : EdgeList n edges) {order : List Nat} {i : Nat} :
    Ready (List.range n) (Joins edges) order i ↔ i < n ∧ i ∉ order ∧ pending edges order i = 0 := by
  unfold Ready
  rw [pending_eq_zero, List.mem_range]
  refine and_congr_right fun _ => and_congr_right fun _ => ⟨fun h p hp => ?_, fun h p _ hp => h p hp⟩
  exact h p (List.mem_range.2 (he.bound _ hp).1) hp

/-- Nothing placed waits for what is not placed. -/
theorem pending_of_mem (he : EdgeList n edges) (h : Running n edges s) {i : Nat} (hi : i ∈ s.order) :
    pending edges s.order i = 0 := by
  obtain ⟨pre, post, e⟩ := List.append_of_mem hi
  have hr := (ready_iff he).1 (h.greedy.legal pre i post e)
  refine pending_eq_zero.2 fun p hp => ?_
  rw [e]
  exact List.mem_append_left _ (pending_eq_zero.1 hr.2.2 p hp)

/-! ## One step -/

/-- A step places the least ready node. -/
theorem kahnStep_eq_some (hs : kahnStep edges s = some s') :
    ∃ node rest, s.ready.popFirst = some (node, rest) ∧
      s' = (successors edges node).foldl release { s with ready := rest, order := s.order ++ [node] } := by
  unfold kahnStep at hs
  split at hs
  · cases hs
  · rename_i node rest hpop
    exact ⟨node, rest, hpop, (Option.some.inj hs).symm⟩

theorem kahnStep_spec (he : EdgeList n edges) (h : Running n edges s) (hs : kahnStep edges s = some s') :
    Running n edges s' ∧ s'.order.length = s.order.length + 1 := by
  obtain ⟨node, rest, hpop, rfl⟩ := kahnStep_eq_some hs
  obtain ⟨hmem, hleast, hrest⟩ := OrdSet.popFirst_eq_some hpop
  have hready := (h.ready node).1 hmem
  have hnode := hready.2.1
  have hnd := nodup_successors he node
  refine ⟨⟨?_, ?_, ?_⟩, by simp [foldl_release_order]⟩
  · intro c
    rw [foldl_release_indegree hnd, foldl_release_order, pending_snoc he.nodup hnode]
    simp only [h.indegree]
  · intro i
    rw [mem_foldl_release_ready hnd, foldl_release_order, ready_iff he, pending_snoc he.nodup hnode, hrest, h.ready,
      ready_iff he]
    dsimp only
    rw [h.indegree i]
    by_cases hj : i ∈ successors edges node
    · -- a successor of `node` was not ready, and is not placed
      have hjoin := mem_successors.1 hj
      have hpos : pending edges s.order i ≠ 0 := fun h0 => hnode (pending_eq_zero.1 h0 node hjoin)
      have hi : i ∉ s.order := fun hi => hpos (pending_of_mem he h hi)
      have hne : i ≠ node := fun e => he.loopless _ hjoin e.symm
      have hlt : i < n := (he.bound _ hjoin).2
      simp [hj, hpos, hi, hne, hlt]
    · simp only [hj, false_and, or_false, List.mem_append, List.mem_singleton, not_or]
      tauto
  · rw [foldl_release_order]
    exact h.greedy.snoc hready fun w hw => hleast w ((h.ready w).2 hw)

/-! ## The run -/

theorem kahnInit_spec (he : EdgeList n edges) : Running n edges (kahnInit n edges) := by
  have hpend : ∀ c, initialIndegree edges c = pending edges [] c := by
    intro c
    simp [initialIndegree, pending]
  refine ⟨hpend, ?_, Greedy.nil⟩
  intro i
  rw [ready_iff he, kahnInit, OrdSet.mem_ofList Function.injective_id]
  simp [hpend]

theorem Running.length_le (h : Running n edges s) : s.order.length ≤ n := by
  have := h.greedy.legal.nodup.subperm fun i hi => h.greedy.legal.mem_nodes hi
  simpa using this.length_le

/-- All nodes are placed when there are as many. -/
theorem Running.complete_iff (h : Running n edges s) : s.order.length = n ↔ ∀ i ∈ List.range n, i ∈ s.order := by
  have hsub := h.greedy.legal.nodup.subperm fun i hi => h.greedy.legal.mem_nodes hi
  constructor
  · intro hlen i hi
    exact (hsub.perm_of_length_le (by simp [hlen])).mem_iff.2 hi
  · intro hall
    have := (List.nodup_range.subperm hall).length_le
    exact le_antisymm h.length_le (by simpa using this)

/-- `n` steps are enough for the loop to run out of ready nodes. -/
theorem kahnLoop_spec (he : EdgeList n edges) (fuel : Nat) (h : Running n edges s)
    (hfuel : n ≤ s.order.length + fuel) :
    Running n edges (kahnLoop edges fuel s) ∧
      ∀ i, ¬ Ready (List.range n) (Joins edges) (kahnLoop edges fuel s).order i := by
  induction fuel generalizing s with
  | zero =>
    refine ⟨h, fun i hi => ?_⟩
    exact hi.2.1 (h.complete_iff.1 (le_antisymm h.length_le hfuel) i hi.1)
  | succ fuel ih =>
    unfold kahnLoop
    cases hs : kahnStep edges s with
    | none =>
      refine ⟨h, fun i hi => ?_⟩
      unfold kahnStep at hs
      split at hs
      · rename_i hpop
        exact OrdSet.popFirst_eq_none.1 hpop i ((h.ready i).2 hi)
      · cases hs
    | some s' =>
      obtain ⟨h', hlen⟩ := kahnStep_spec he h hs
      exact ih h' (by omega)

end Peiosutils.Mkirf
