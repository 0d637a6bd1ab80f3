import Mathlib.Logic.Function.Basic
import Peiosutils.Lib.Keyed
import Peiosutils.Lib.Loops
import Peiosutils.Tsort.Graph

/-!
# Finding a loop (`detect_cycle`, `dfs`)

The search keeps a stack of nodes with the successors that they have left. The open nodes of the stack are a path
(`OpenPath`); below them stand entries that a search from a closed node has left, which do no harm; and a node is closed
after all its successors (`ClosedInOrder`). So an open successor ends a loop, and where every node has been closed
without one, the node that was closed last has no predecessor: in a graph where every node has one, a loop is found
(`detectCycle_spec`).
-/

set_option autoImplicit false

namespace Peiosutils.Tsort

open While (Stop)
open Keyed (sortOn mem_sortOn)
open Loops

-- the symbols are in the order of their names
variable {Sym : Type} [LinearOrder Sym]

/-! ## The search -/

inductive VisitedState where
  | opened
  | closed
  deriving DecidableEq, Repr

abbrev Visited (Sym : Type) := Sym → Option VisitedState

/-- Nodes with the successors they have left, the last pushed first. -/
abbrev Stack (Sym : Type) := List (Sym × List Sym)

def visit (visited : Visited Sym) (sym : Sym) (state : VisitedState) : Visited Sym :=
  Function.update visited sym (some state)

def successors (nodes : Nodes Sym) (sym : Sym) : List Sym := ((nodes.lookup sym).map Node.successorTokens).getD []

/-- The turns that the nodes not seen yet can still cost. -/
def unseen (nodes : Nodes Sym) (visited : Visited Sym) : List Sym → Nat
  | [] => 0
  | x :: xs => (if visited x = none then 2 * (successors nodes x).length + 1 else 0) + unseen nodes visited xs

/-- The turns that the stack can still cost. -/
def onStack : Stack Sym → Nat
  | [] => 0
  | e :: stack => 2 * e.2.length + 1 + onStack stack

theorem unseen_visit_le (nodes : Nodes Sym) (visited : Visited Sym) (sym : Sym) (state : VisitedState) (xs : List Sym) :
    unseen nodes (visit visited sym state) xs ≤ unseen nodes visited xs := by
  induction xs with
  | nil => exact le_rfl
  | cons x xs ih =>
    by_cases hx : x = sym
    · simp only [unseen, visit, hx, Function.update_self, reduceCtorEq, if_false] at ih ⊢
      omega
    · simp only [unseen, visit, Function.update_of_ne hx] at ih ⊢
      omega

theorem unseen_visit {nodes : Nodes Sym} {visited : Visited Sym} {sym : Sym} (hsym : visited sym = none)
    (state : VisitedState) {xs : List Sym} (hx : sym ∈ xs) :
    unseen nodes (visit visited sym state) xs + (2 * (successors nodes sym).length + 1) ≤ unseen nodes visited xs := by
  induction xs with
  | nil => cases hx
  | cons x xs ih =>
    by_cases hxs : x = sym
    · have hle := unseen_visit_le nodes visited sym state xs
      simp only [unseen, visit, hxs, Function.update_self, reduceCtorEq, if_false, hsym, if_true] at hle ⊢
      omega
    · have hlt := ih ((List.mem_cons.1 hx).resolve_left (Ne.symm hxs))
      simp only [unseen, visit, Function.update_of_ne hxs] at hlt ⊢
      omega

/-- Opening a node costs less than going on to it. -/
theorem unseen_open (nodes : Nodes Sym) {visited : Visited Sym} {sym : Sym} (hsym : visited sym = none) :
    unseen nodes (visit visited sym .opened) nodes.keys + (2 * (successors nodes sym).length + 1) <
      unseen nodes visited nodes.keys + 2 := by
  by_cases hmem : sym ∈ nodes
  · have hlt : unseen nodes (visit visited sym .opened) nodes.keys + (2 * (successors nodes sym).length + 1) ≤
        unseen nodes visited nodes.keys := unseen_visit hsym .opened hmem
    omega
  · have hnone : successors nodes sym = [] := by rw [successors, AList.lookup_eq_none.2 hmem]; rfl
    have := unseen_visit_le nodes visited sym .opened nodes.keys
    rw [hnone, List.length_nil]
    omega

/-- The loop of `dfs`: whether a loop was found, and what has been visited and stands on the stack then. -/
def dfsLoop (nodes : Nodes Sym) (visited : Visited Sym) : Stack Sym → Bool × Visited Sym × Stack Sym
  | [] => (false, visited, [])
  | (node, []) :: stack => dfsLoop nodes (visit visited node .closed) stack
  | (node, next :: pending) :: stack =>
    match _h : visited next with
    | none =>
      dfsLoop nodes (visit visited next .opened) ((next, successors nodes next) :: (node, pending) :: stack)
    | some .opened => (true, visited, (next, []) :: (node, pending) :: stack)
    | some .closed => dfsLoop nodes visited ((node, pending) :: stack)
termination_by stack => unseen nodes visited nodes.keys + onStack stack
decreasing_by
  · have := unseen_visit_le nodes visited node .closed nodes.keys
    simp only [onStack]
    omega
  · have := unseen_open nodes _h
    simp only [onStack, List.length_cons]
    omega
  · simp only [onStack, List.length_cons]
    omega

def dfs (nodes : Nodes Sym) (node : Sym) (visited : Visited Sym) (stack : Stack Sym) :
    Bool × Visited Sym × Stack Sym :=
  let stack := (node, successors nodes node) :: stack
  let visited := if visited node = none then visit visited node .opened else visited
  if visited node = some .closed then (false, visited, stack) else dfsLoop nodes visited stack

/-- The nodes from which `detect_cycle` starts, one after the other. -/
def detectFrom (nodes : Nodes Sym) : List Sym → Visited Sym → Stack Sym → Except Stop (List Sym)
  -- `unreachable!`
  | [], _, _ => .error .panic
  | node :: starts, visited, stack =>
    let (found, visited, stack) := dfs nodes node visited stack
    if found then
      match stack with
      | [] => .error .panic
      | (loopEntry, _) :: stack => .ok ((stack.reverse.map Prod.fst).dropWhile fun node => node ≠ loopEntry)
    else detectFrom nodes starts visited stack

def detectCycle (nodes : Nodes Sym) : Except Stop (List Sym) :=
  detectFrom nodes (sortOn id nodes.keys) (fun _ => none) []

/-! ## What the search keeps -/

/-- Closed nodes, the last closed first: each was closed after its successors. -/
def ClosedInOrder (nodes : Nodes Sym) : List Sym → Prop
  | [] => True
  | x :: xs => (∀ y ∈ successors nodes x, y ∈ xs) ∧ x ∉ xs ∧ ClosedInOrder nodes xs

theorem ClosedInOrder.successors {nodes : Nodes Sym} {xs : List Sym} (h : ClosedInOrder nodes xs) {x y : Sym}
    (hx : x ∈ xs) (hy : y ∈ Tsort.successors nodes x) : y ∈ xs := by
  induction xs with
  | nil => cases hx
  | cons z xs ih =>
    rcases List.mem_cons.1 hx with rfl | hx
    · exact List.mem_cons_of_mem x (h.1 y hy)
    · exact List.mem_cons_of_mem z (ih h.2.2 hx)

/-- The open nodes, the last opened first: the successors that each has gone through are closed, but for the node above
it, which is one of them. -/
def OpenPath (nodes : Nodes Sym) (closed : List Sym) : Option Sym → Stack Sym → Prop
  | _, [] => True
  | above, (x, pending) :: path =>
    (∃ gone, successors nodes x = gone ++ pending ∧ ∀ y ∈ gone, y ∈ closed ∨ above = some y) ∧
      (∀ y, above = some y → y ∈ successors nodes x) ∧ OpenPath nodes closed (some x) path

theorem OpenPath.mono {nodes : Nodes Sym} {closed closed' : List Sym} (hsub : ∀ x ∈ closed, x ∈ closed')
    {above : Option Sym} {path : Stack Sym} (h : OpenPath nodes closed above path) :
    OpenPath nodes closed' above path := by
  induction path generalizing above with
  | nil => trivial
  | cons e path ih =>
    obtain ⟨⟨gone, hgone, hclosed⟩, habove, hpath⟩ := h
    exact ⟨⟨gone, hgone, fun y hy => (hclosed y hy).imp_left (hsub y)⟩, habove, ih hpath⟩

/-- The node above is closed. -/
theorem OpenPath.close {nodes : Nodes Sym} {closed : List Sym} {x : Sym} {path : Stack Sym}
    (h : OpenPath nodes closed (some x) path) : OpenPath nodes (x :: closed) none path := by
  cases path with
  | nil => trivial
  | cons e path =>
    obtain ⟨⟨gone, hgone, hclosed⟩, -, hpath⟩ := h
    refine ⟨⟨gone, hgone, fun y hy => .inl ?_⟩, fun y hy => (by cases hy), hpath.mono fun y => List.mem_cons_of_mem x⟩
    rcases hclosed y hy with hy | hy
    · exact List.mem_cons_of_mem x hy
    · exact Option.some.inj hy ▸ List.mem_cons_self

/-- Each open node is a successor of the one below it. -/
theorem OpenPath.chain {nodes : Nodes Sym} {closed : List Sym} {above : Option Sym} {path : Stack Sym}
    (h : OpenPath nodes closed above path) :
    (path.map Prod.fst).IsChain fun above below => above ∈ successors nodes below := by
  induction path generalizing above with
  | nil => exact .nil
  | cons e path ih =>
    obtain ⟨-, -, hpath⟩ := h
    cases path with
    | nil => exact .singleton _
    | cons e' path => exact List.isChain_cons_cons.2 ⟨hpath.2.1 _ rfl, ih hpath⟩

/-- What the search has visited, closed and left on the stack: a path of open nodes above what earlier searches left. -/
structure Searched (nodes : Nodes Sym) (closed : List Sym) (visited : Visited Sym) (path leftover : Stack Sym) :
    Prop where
  order : ClosedInOrder nodes closed
  closed_iff : ∀ x, visited x = some .closed ↔ x ∈ closed
  opened_iff : ∀ x, visited x = some .opened ↔ x ∈ path.map Prod.fst
  mem : ∀ x, visited x ≠ none → x ∈ nodes
  nodup : (path.map Prod.fst).Nodup
  path : OpenPath nodes closed none path
  leftover : ∀ e ∈ leftover, e.1 ∈ closed ∧ ∀ y ∈ e.2, y ∈ closed

variable {nodes : Nodes Sym} {closed : List Sym} {visited : Visited Sym} {path leftover : Stack Sym}

theorem Searched.visited_of_closed (h : Searched nodes closed visited path leftover) {x : Sym} (hx : x ∈ closed) :
    visited x ≠ none := by
  rw [(h.closed_iff x).2 hx]
  exact Option.some_ne_none _

/-- With no node open, what has been visited is closed. -/
theorem Searched.closed_of_visited (h : Searched nodes closed visited [] leftover) {x : Sym} (hx : visited x ≠ none) :
    x ∈ closed := by
  cases hv : visited x with
  | none => exact absurd hv hx
  | some state =>
    cases state with
    | closed => exact (h.closed_iff x).1 hv
    | opened => exact absurd ((h.opened_iff x).1 hv) List.not_mem_nil

/-- The last open node has gone through its successors and is closed. -/
theorem Searched.close {x : Sym} (h : Searched nodes closed visited ((x, []) :: path) leftover) :
    Searched nodes (x :: closed) (visit visited x .closed) path leftover := by
  obtain ⟨⟨gone, hgone, hclosed⟩, -, hpath⟩ := h.path
  have hopen : visited x = some .opened := (h.opened_iff x).2 List.mem_cons_self
  have hx : x ∉ closed := by
    intro hx
    rw [(h.closed_iff x).2 hx] at hopen
    cases hopen
  have hnodup := List.nodup_cons.1 h.nodup
  refine ⟨⟨fun y hy => ?_, hx, h.order⟩, fun y => ?_, fun y => ?_, fun y hy => ?_, hnodup.2, hpath.close, ?_⟩
  · rw [hgone, List.append_nil] at hy
    exact (hclosed y hy).resolve_right (by simp)
  · by_cases hyx : y = x
    · simp [visit, hyx]
    · simp [visit, hyx, h.closed_iff]
  · by_cases hyx : y = x
    · simpa [visit, hyx] using hnodup.1
    · simp [visit, hyx, h.opened_iff]
  · by_cases hyx : y = x
    · exact hyx ▸ h.mem x (by simp [hopen])
    · exact h.mem y (by simpa [visit, hyx] using hy)
  · intro e he
    exact ⟨List.mem_cons_of_mem x (h.leftover e he).1, fun y hy => List.mem_cons_of_mem x ((h.leftover e he).2 y hy)⟩

/-- A node that was closed before is closed again. -/
theorem Searched.closeLeftover {x : Sym} (h : Searched nodes closed visited [] ((x, []) :: leftover)) :
    Searched nodes closed (visit visited x .closed) [] leftover := by
  have hx : visited x = some .closed := (h.closed_iff x).2 (h.leftover _ List.mem_cons_self).1
  have hsame : visit visited x .closed = visited := by rw [visit, ← hx, Function.update_eq_self]
  rw [hsame]
  exact ⟨h.order, h.closed_iff, h.opened_iff, h.mem, h.nodup, h.path,
    fun e he => h.leftover e (List.mem_cons_of_mem _ he)⟩

/-- The successors of a leftover entry are closed. -/
theorem Searched.closed_of_leftover (h : Searched nodes closed visited [] leftover) {x next : Sym} {pending : List Sym}
    {stack : Stack Sym} (hstack : (x, next :: pending) :: stack = leftover) : visited next = some .closed :=
  (h.closed_iff next).2 ((h.leftover (x, next :: pending) (hstack ▸ List.mem_cons_self)).2 next List.mem_cons_self)

/-- The last open node goes past a successor that is closed. -/
theorem Searched.pass {x next : Sym} {pending : List Sym}
    (h : Searched nodes closed visited ((x, next :: pending) :: path) leftover) (hnext : next ∈ closed) :
    Searched nodes closed visited ((x, pending) :: path) leftover := by
  obtain ⟨⟨gone, hgone, hclosed⟩, habove, hpath⟩ := h.path
  refine ⟨h.order, h.closed_iff, h.opened_iff, h.mem, h.nodup, ⟨⟨gone ++ [next], ?_, ?_⟩, habove, hpath⟩, h.leftover⟩
  · rw [hgone, List.append_assoc]
    rfl
  · intro y hy
    rcases List.mem_append.1 hy with hy | hy
    · exact hclosed y hy
    · exact .inl (List.mem_singleton.1 hy ▸ hnext)

theorem Searched.passLeftover {x next : Sym} {pending : List Sym}
    (h : Searched nodes closed visited [] ((x, next :: pending) :: leftover)) :
    Searched nodes closed visited [] ((x, pending) :: leftover) := by
  refine ⟨h.order, h.closed_iff, h.opened_iff, h.mem, h.nodup, h.path, fun e he => ?_⟩
  rcases List.mem_cons.1 he with rfl | he
  · have hx := h.leftover _ List.mem_cons_self
    exact ⟨hx.1, fun y hy => hx.2 y (List.mem_cons_of_mem next hy)⟩
  · exact h.leftover e (List.mem_cons_of_mem _ he)

/-- A node that was not visited is opened, at the end of the path. -/
theorem Searched.openNode (h : Searched nodes closed visited path leftover) {x : Sym} (hx : visited x = none)
    (hmem : x ∈ nodes) (habove : OpenPath nodes closed (some x) path) :
    Searched nodes closed (visit visited x .opened) ((x, successors nodes x) :: path) leftover := by
  have hpath : x ∉ path.map Prod.fst := by
    intro hin
    rw [(h.opened_iff x).2 hin] at hx
    cases hx
  have hclosed : x ∉ closed := by
    intro hin
    rw [(h.closed_iff x).2 hin] at hx
    cases hx
  refine ⟨h.order, fun y => ?_, fun y => ?_, fun y hy => ?_, List.nodup_cons.2 ⟨hpath, h.nodup⟩,
    ⟨⟨[], rfl, by simp⟩, by simp, habove⟩, h.leftover⟩
  · by_cases hyx : y = x
    · simpa [visit, hyx] using hclosed
    · simp [visit, hyx, h.closed_iff]
  · by_cases hyx : y = x
    · simp [visit, hyx]
    · simp only [visit, Function.update_of_ne hyx, h.opened_iff, List.map_cons, List.mem_cons, hyx, false_or]
  · by_cases hyx : y = x
    · exact hyx ▸ hmem
    · exact h.mem y (by simpa [visit, hyx] using hy)

/-- The last open node goes on to a successor that was not visited. -/
theorem Searched.descend {x next : Sym} {pending : List Sym} (hsucc : ∀ x, ∀ y ∈ successors nodes x, y ∈ nodes)
    (h : Searched nodes closed visited ((x, next :: pending) :: path) leftover) (hnext : visited next = none) :
    Searched nodes closed (visit visited next .opened)
      ((next, successors nodes next) :: (x, pending) :: path) leftover := by
  obtain ⟨⟨gone, hgone, hclosed⟩, habove, hpath⟩ := h.path
  have hmem : next ∈ successors nodes x := by simp [hgone]
  have hbelow : OpenPath nodes closed (some next) ((x, pending) :: path) := by
    refine ⟨⟨gone ++ [next], by simp [hgone], fun y hy => ?_⟩, fun y hy => Option.some.inj hy ▸ hmem, hpath⟩
    rcases List.mem_append.1 hy with hy | hy
    · exact .inl ((hclosed y hy).resolve_right (by simp))
    · exact .inr (congrArg some (List.mem_singleton.1 hy).symm)
  -- opening asks only for what has been visited, and for the path below the opened node
  have hstill : Searched nodes closed (visit visited next .opened)
      ((next, successors nodes next) :: (x, next :: pending) :: path) leftover :=
    h.openNode hnext (hsucc x next hmem)
      ⟨⟨gone, hgone, fun y hy => (hclosed y hy).imp_right (by simp)⟩, fun y hy => Option.some.inj hy ▸ hmem, hpath⟩
  exact ⟨hstill.order, hstill.closed_iff, hstill.opened_iff, hstill.mem, hstill.nodup,
    ⟨hstill.path.1, hstill.path.2.1, hbelow⟩, hstill.leftover⟩

/-- An open successor of the last open node ends a loop. -/
theorem Searched.isLoop {x next : Sym} {pending : List Sym}
    (h : Searched nodes closed visited ((x, next :: pending) :: path) leftover) (hnext : visited next = some .opened) :
    IsLoop (fun u v => v ∈ successors nodes u)
      (((((x, pending) :: path ++ leftover).reverse.map Prod.fst).dropWhile fun node => node ≠ next)) := by
  obtain ⟨gone, hgone, -⟩ := h.path.1
  have hbelow : next ∉ leftover.map Prod.fst := by
    intro hin
    obtain ⟨e, he, hen⟩ := List.mem_map.1 hin
    rw [(h.closed_iff next).2 (hen ▸ (h.leftover e he).1)] at hnext
    cases hnext
  rw [List.map_reverse, List.map_append]
  exact isLoop_dropWhile h.nodup h.path.chain ((h.opened_iff next).1 hnext) (by simp [hgone]) hbelow

/-! ## What the search finds -/

/-- A search ends with an empty stack and everything it has visited closed, or with a loop on the stack. -/
def Ends (nodes : Nodes Sym) (visited : Visited Sym) (result : Bool × Visited Sym × Stack Sym) : Prop :=
  (result.1 = false ∧ result.2.2 = [] ∧ ∃ closed, Searched nodes closed result.2.1 [] [] ∧
      ∀ x, visited x ≠ none → x ∈ closed) ∨
    (result.1 = true ∧ ∃ entry stack, result.2.2 = (entry, []) :: stack ∧
      IsLoop (fun u v => v ∈ successors nodes u)
        ((stack.reverse.map Prod.fst).dropWhile fun node => node ≠ entry))

theorem visit_ne_none {x y : Sym} {state : VisitedState} (h : visited x ≠ none) : visit visited y state x ≠ none := by
  by_cases hxy : x = y
  · simp [visit, hxy]
  · simpa [visit, hxy] using h

/-- What was visited before stays visited. -/
theorem Ends.mono {visited' : Visited Sym} {result : Bool × Visited Sym × Stack Sym} (h : Ends nodes visited' result)
    (hsub : ∀ x, visited x ≠ none → visited' x ≠ none) : Ends nodes visited result := by
  rcases h with ⟨hfalse, hempty, closed, hsearched, hclosed⟩ | htrue
  · exact .inl ⟨hfalse, hempty, closed, hsearched, fun x hx => hclosed x (hsub x hx)⟩
  · exact .inr htrue

theorem dfsLoop_ends (hsucc : ∀ x, ∀ y ∈ successors nodes x, y ∈ nodes) {stack : Stack Sym}
    (hstack : stack = path ++ leftover) (h : Searched nodes closed visited path leftover) :
    Ends nodes visited (dfsLoop nodes visited stack) := by
  fun_induction dfsLoop nodes visited stack generalizing path leftover closed with
  | case1 visited =>
    obtain ⟨rfl, rfl⟩ := List.append_eq_nil_iff.1 hstack.symm
    exact .inl ⟨rfl, rfl, closed, h, fun x => h.closed_of_visited⟩
  | case2 visited node stack ih =>
    suffices hends : Ends nodes (visit visited node .closed) _ from hends.mono fun x => visit_ne_none
    cases path with
    | nil => exact ih rfl ((show (node, []) :: stack = leftover from hstack) ▸ h).closeLeftover
    | cons e path =>
      obtain ⟨rfl, rfl⟩ := List.cons.inj hstack
      exact ih rfl h.close
  | case3 visited node next pending stack hnext ih =>
    suffices hends : Ends nodes (visit visited next .opened) _ from hends.mono fun x => visit_ne_none
    cases path with
    | nil =>
      cases hnext.symm.trans (h.closed_of_leftover hstack)
    | cons e path =>
      obtain ⟨rfl, rfl⟩ := List.cons.inj hstack
      exact ih rfl (h.descend hsucc hnext)
  | case4 visited node next pending stack hnext =>
    cases path with
    | nil =>
      cases hnext.symm.trans (h.closed_of_leftover hstack)
    | cons e path =>
      obtain ⟨rfl, rfl⟩ := List.cons.inj hstack
      exact .inr ⟨rfl, next, _, rfl, h.isLoop hnext⟩
  | case5 visited node next pending stack hnext ih =>
    cases path with
    | nil => exact ih rfl ((show (node, next :: pending) :: stack = leftover from hstack) ▸ h).passLeftover
    | cons e path =>
      obtain ⟨rfl, rfl⟩ := List.cons.inj hstack
      exact ih rfl (h.pass ((h.closed_iff next).1 hnext))

/-- From a node, with entries left on the stack and no node open. -/
theorem dfs_ends (hsucc : ∀ x, ∀ y ∈ successors nodes x, y ∈ nodes) (h : Searched nodes closed visited [] leftover)
    {node : Sym} (hnode : node ∈ nodes) :
    (node ∈ closed ∧ ∃ entry, dfs nodes node visited leftover = (false, visited, entry :: leftover) ∧
      Searched nodes closed visited [] (entry :: leftover)) ∨
    ∃ visited', (∀ x, x = node ∨ visited x ≠ none → visited' x ≠ none) ∧
      Ends nodes visited' (dfs nodes node visited leftover) := by
  have hopened : visited node ≠ some .opened := fun hopen => absurd ((h.opened_iff node).1 hopen) (by simp)
  unfold dfs
  cases hv : visited node with
  | none =>
    refine .inr ⟨visit visited node .opened, fun x hx => ?_, ?_⟩
    · rcases hx with rfl | hx
      · simp [visit]
      · exact visit_ne_none hx
    · have hself : visit visited node .opened node = some .opened := by simp [visit]
      simp only [if_true, hself, Option.some.injEq, reduceCtorEq, if_false]
      exact dfsLoop_ends hsucc rfl (h.openNode hv hnode trivial)
  | some state =>
    cases state with
    | opened => exact absurd hv hopened
    | closed =>
      have hclosed := (h.closed_iff node).1 hv
      refine .inl ⟨hclosed, (node, successors nodes node), by simp [hv], h.order, h.closed_iff, h.opened_iff, h.mem,
        h.nodup, h.path, fun e he => ?_⟩
      rcases List.mem_cons.1 he with rfl | he
      · exact ⟨hclosed, fun y hy => h.order.successors hclosed hy⟩
      · exact h.leftover e he

/-- The searches find a loop, or every start is closed after its successors. -/
theorem detectFrom_spec (hsucc : ∀ x, ∀ y ∈ successors nodes x, y ∈ nodes) {starts : List Sym}
    (hstarts : ∀ x ∈ starts, x ∈ nodes) (h : Searched nodes closed visited [] leftover) :
    (∃ cycle, detectFrom nodes starts visited leftover = .ok cycle ∧ IsLoop (fun u v => v ∈ successors nodes u) cycle) ∨
      ∃ closed', ClosedInOrder nodes closed' ∧ (∀ x ∈ closed', x ∈ nodes) ∧
        ∀ x, x ∈ starts ∨ visited x ≠ none → x ∈ closed' := by
  induction starts generalizing closed visited leftover with
  | nil =>
    exact .inr ⟨closed, h.order, fun x hx => h.mem x (h.visited_of_closed hx), fun x hx =>
      h.closed_of_visited (hx.resolve_left List.not_mem_nil)⟩
  | cons node starts ih =>
    have hrest : ∀ x ∈ starts, x ∈ nodes := fun x hx => hstarts x (List.mem_cons_of_mem node hx)
    unfold detectFrom
    rcases dfs_ends hsucc h (hstarts node List.mem_cons_self) with
      ⟨hclosed, entry, hdfs, hleft⟩ | ⟨visited', hsub, hends⟩
    · simp only [hdfs, Bool.false_eq_true, if_false]
      refine (ih hrest hleft).imp_right fun ⟨closed', horder, hmem, hin⟩ => ⟨closed', horder, hmem, fun x hx => ?_⟩
      rcases hx with hx | hx
      · rcases List.mem_cons.1 hx with rfl | hx
        · exact hin x (.inr (h.visited_of_closed hclosed))
        · exact hin x (.inl hx)
      · exact hin x (.inr hx)
    · generalize dfs nodes node visited leftover = result at hends
      obtain ⟨found, visited'', stack⟩ := result
      rcases hends with ⟨hfalse, hempty, closed'', hsearched, hin''⟩ | ⟨htrue, entry, stack', hstack, hloop⟩
      · obtain rfl : found = false := hfalse
        obtain rfl : stack = [] := hempty
        simp only [Bool.false_eq_true, if_false]
        refine (ih hrest hsearched).imp_right fun ⟨closed', horder, hmem, hin⟩ =>
          ⟨closed', horder, hmem, fun x hx => ?_⟩
        have hvisited : ∀ x, x = node ∨ visited x ≠ none → x ∈ closed' := fun x hx =>
          hin x (.inr (hsearched.visited_of_closed (hin'' x (hsub x hx))))
        rcases hx with hx | hx
        · rcases List.mem_cons.1 hx with rfl | hx
          · exact hvisited x (.inl rfl)
          · exact hin x (.inl hx)
        · exact hvisited x (.inr hx)
      · obtain rfl : found = true := htrue
        obtain rfl : stack = (entry, []) :: stack' := hstack
        exact .inl ⟨_, rfl, hloop⟩

/-- Where every node has a predecessor, a loop is found. -/
theorem detectCycle_spec {es : List (Sym × Sym)} (h : Holds nodes es []) (hne : ∃ x, x ∈ nodes)
    (hpred : ∀ x ∈ nodes, indeg es x ≠ 0) :
    ∃ cycle, detectCycle nodes = .ok cycle ∧ IsLoop (fun u v => (u, v) ∈ es) cycle := by
  have hedge : ∀ u v, v ∈ successors nodes u ↔ (u, v) ∈ es := by
    intro u v
    by_cases hu : u ∈ nodes
    · rw [successors, h.lookup hu, ← mem_succs]
      rfl
    · rw [successors, AList.lookup_eq_none.2 hu]
      exact ⟨fun hv => (by cases hv), fun huv => absurd (h.source _ huv) hu⟩
  have hsucc : ∀ x, ∀ y ∈ successors nodes x, y ∈ nodes := fun x y hy => h.target _ ((hedge x y).1 hy)
  have hstart : Searched nodes [] (fun _ => none) [] [] :=
    ⟨trivial, by simp, by simp, by simp, .nil, trivial, by simp⟩
  have hkeys : ∀ x ∈ sortOn id nodes.keys, x ∈ nodes := fun x hx => AList.mem_keys.2 (mem_sortOn.1 hx)
  rcases detectFrom_spec hsucc hkeys hstart with ⟨cycle, hcycle, hloop⟩ | ⟨closed, horder, hmem, hin⟩
  · exact ⟨cycle, hcycle, hloop.mono fun u v => (hedge u v).1⟩
  · have hall : ∀ x ∈ nodes, x ∈ closed := fun x hx => hin x (.inl (mem_sortOn.2 (AList.mem_keys.1 hx)))
    exfalso
    cases closed with
    | nil =>
      obtain ⟨x, hx⟩ := hne
      cases hall x hx
    | cons x closed =>
      -- the node closed last has a predecessor, which was closed before its successor
      refine hpred x (hmem x List.mem_cons_self) (indeg_eq_zero.2 fun e he hex => ?_)
      have hsource := hall e.1 (h.source e he)
      have hx : x ∈ successors nodes e.1 := (hedge e.1 x).2 (hex ▸ he)
      rcases List.mem_cons.1 hsource with hxe | hin'
      · exact horder.2.1 (horder.1 x (hxe ▸ hx))
      · exact horder.2.1 (horder.2.2.successors hin' hx)

end Peiosutils.Tsort
