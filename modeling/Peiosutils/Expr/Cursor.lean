import Peiosutils.Expr.Numbered
import Peiosutils.Lib.Outcomes

/-!
# The parser and its index (`syntax_tree.rs`)

The parser holds an index into the arguments. An error names the argument in front of the index, and a read in front of
the first argument is a panic. The parser does what the one on the arguments that are left does (`parse_eq`); so it does
not panic.
-/

set_option autoImplicit false

namespace Peiosutils.Expr

open Utf8
open Outcomes (outcome Follows)

/-! ## Single steps on what is left -/

section Steps

variable {p : Parser} {token : MaybeNonUtf8String} {rest : List MaybeNonUtf8String}
  {ops : List (MaybeNonUtf8String × BinOp)}

theorem outcome_next (h : p.rest = token :: rest) :
    outcome Parser.next p = some (.ok (token, { p with rest := rest, last := token })) := by
  unfold outcome StateT.run
  rw [Parser.next, h]
  rfl

theorem outcome_next_nil (h : p.rest = []) :
    outcome Parser.next p = some (.error (.missingArgument (lossy p.last))) := by
  unfold outcome StateT.run
  rw [Parser.next, h]
  rfl

theorem outcome_parseOp_some {op : BinOp} (h : p.rest = token :: rest) (hop : ops.lookup token = some op) :
    outcome (Parser.parseOp ops) p = some (.ok (some op, { p with rest := rest, last := token })) := by
  unfold outcome StateT.run
  rw [Parser.parseOp, h]
  simp only [hop]
  rfl

theorem outcome_parseOp_none (h : ∀ token ∈ p.rest.head?, ops.lookup token = none) :
    outcome (Parser.parseOp ops) p = some (.ok (none, p)) := by
  unfold outcome StateT.run
  rw [Parser.parseOp]
  cases hrest : p.rest with
  | nil => rfl
  | cons token rest =>
    rw [hrest] at h
    simp only [h token rfl]
    rfl

theorem outcome_closeParenthesis (h : p.rest = utf8 ")" :: rest) :
    outcome Parser.closeParenthesis p = some (.ok ((), { p with rest := rest, last := utf8 ")" })) := by
  unfold outcome StateT.run
  rw [Parser.closeParenthesis, h]
  simp only [if_pos]
  rfl

theorem outcome_closeParenthesis_nil (h : p.rest = []) :
    outcome Parser.closeParenthesis p = some (.error (.expectedClosingBraceAfter (lossy p.last))) := by
  unfold outcome StateT.run
  rw [Parser.closeParenthesis, h]
  rfl

theorem outcome_closeParenthesis_other (h : p.rest = token :: rest) (htoken : token ≠ utf8 ")") :
    outcome Parser.closeParenthesis p = some (.error (.expectedClosingBraceInsteadOf (lossy token))) := by
  unfold outcome StateT.run
  rw [Parser.closeParenthesis, h]
  simp only [if_neg htoken]
  rfl

end Steps

namespace Cursor

/-- What ends a parse without a tree. -/
inductive Stop where
  | err (e : ExprError)
  | panic
  deriving DecidableEq, Repr

/-- The index, and the next number of a node. -/
structure State where
  index : Nat
  nextId : Nat

/-- None when the turns do not suffice. -/
abbrev CursorM (α : Type) := StateT State (ExceptT Stop Option) α

def outOfTurns {α : Type} : CursorM α := fun _ => ExceptT.mk none

def getNextId : CursorM UInt32 := fun c => pure (UInt32.ofNat c.nextId, { c with nextId := c.nextId + 1 })

section Parser

variable (input : List MaybeNonUtf8String)

/-- `self.input[self.index - 1]`. -/
def before : CursorM MaybeNonUtf8String := fun c =>
  if c.index = 0 then throw .panic
  else
    match input[c.index - 1]? with
    | some token => pure (token, c)
    | none => throw .panic

/-- `self.input.get(self.index)`. -/
def peek : CursorM (Option MaybeNonUtf8String) := fun c => pure (input[c.index]?, c)

def advance : CursorM Unit := fun c => pure ((), { c with index := c.index + 1 })

def next : CursorM MaybeNonUtf8String := do
  match ← peek input with
  | some token =>
    advance
    return token
  | none =>
    let last ← before input
    throw (.err (.missingArgument (lossy last)))

/-- An operator of the given ones, if the next argument is one. -/
def parseOp (ops : List (MaybeNonUtf8String × BinOp)) : CursorM (Option BinOp) := do
  match ← peek input with
  | some token =>
    match ops.lookup token with
    | some op =>
      advance
      return some op
    | none => return none
  | none => return none

/-- The argument behind an expression in parentheses. -/
def closeParenthesis : CursorM Unit := do
  match ← peek input with
  | some token =>
    advance
    if token = utf8 ")" then return ()
    else
      let last ← before input
      throw (.err (.expectedClosingBraceInsteadOf (lossy last)))
  | none =>
    -- `next` reads the last argument for its own error first
    let _ ← before input
    let last ← before input
    throw (.err (.expectedClosingBraceAfter (lossy last)))

mutual

/-- An expression with operators of the given precedences; with none of them a simple expression. -/
def parsePrecedence : Nat → List (List (MaybeNonUtf8String × BinOp)) → CursorM AstNode
  | 0, _ => outOfTurns
  | turns + 1, [] => parseSimpleExpression turns
  | turns + 1, ops :: stronger => do
    let left ← parsePrecedence turns stronger
    parseOps turns ops stronger left

/-- The loop of `parse_precedence`: more operators behind a left operand. -/
def parseOps : Nat → List (MaybeNonUtf8String × BinOp) → List (List (MaybeNonUtf8String × BinOp)) → AstNode →
    CursorM AstNode
  | 0, _, _, _ => outOfTurns
  | turns + 1, ops, stronger, left => do
    match ← parseOp input ops with
    | none => return left
    | some op =>
      let right ← parsePrecedence turns stronger
      let id ← getNextId
      parseOps turns ops stronger (.binOp id op left right)

def parseSimpleExpression : Nat → CursorM AstNode
  | 0 => outOfTurns
  | turns + 1 => do
    let first ← next input
    if first = utf8 "match" then
      let left ← parseSimpleExpression turns
      let right ← parseSimpleExpression turns
      return .binOp (← getNextId) (.string .match) left right
    else if first = utf8 "substr" then
      let string ← parseSimpleExpression turns
      let pos ← parseSimpleExpression turns
      let length ← parseSimpleExpression turns
      return .substr (← getNextId) string pos length
    else if first = utf8 "index" then
      let left ← parseSimpleExpression turns
      let right ← parseSimpleExpression turns
      return .binOp (← getNextId) (.string .index) left right
    else if first = utf8 "length" then
      let string ← parseSimpleExpression turns
      return .length (← getNextId) string
    else if first = utf8 "+" then
      let value ← next input
      return .leaf (← getNextId) value
    else if first = utf8 "(" then
      let s ← parsePrecedence turns Parser.precedence
      closeParenthesis input
      return s.withId (← getNextId)
    else return .leaf (← getNextId) first

end

/-- The whole input is one expression. -/
def parseAll (turns : Nat) : CursorM AstNode := do
  let res ← parsePrecedence input turns Parser.precedence
  match ← peek input with
  | some arg => throw (.err (.unexpectedArgument (lossy arg)))
  | none => return res

/-- `Parser::parse`, with the first number that is free. -/
def parse (nextId : Nat) : Option (Except Stop AstNode) :=
  if input.isEmpty then some (.error (.err .missingOperand))
  else (outcome (parseAll input (parseTurns input)) ⟨0, nextId⟩).map fun r => r.map (·.1)

end Parser

/-! ## The arguments that are left -/

/-- The parser on the arguments that are left is where the index is. -/
structure At (input : List MaybeNonUtf8String) (c : State) (p : Expr.Parser) : Prop where
  rest : input.drop c.index = p.rest
  nextId : c.nextId = p.nextId
  last : 0 < c.index → input[c.index - 1]? = some p.last

section Simulation

variable {input : List MaybeNonUtf8String} {c : State} {p : Expr.Parser} {token : MaybeNonUtf8String}

theorem At.getElem? (h : At input c p) : input[c.index]? = p.rest.head? := by
  rw [← h.rest, List.head?_drop]

/-- An argument is taken. -/
theorem At.advance (h : At input c p) {rest : List MaybeNonUtf8String} (hrest : p.rest = token :: rest) :
    At input { c with index := c.index + 1 } { p with rest := rest, last := token } := by
  have htoken := h.getElem?
  rw [hrest] at htoken
  refine ⟨?_, h.nextId, fun _ => htoken⟩
  simp only
  rw [← List.drop_drop, h.rest, hrest]
  rfl

theorem outcome_peek (input : List MaybeNonUtf8String) (c : State) :
    outcome (peek input) c = some (.ok (input[c.index]?, c)) := rfl

theorem outcome_before (hindex : 0 < c.index) (h : input[c.index - 1]? = some token) :
    outcome (before input) c = some (.ok (token, c)) := by
  have hbefore : before input c = pure (token, c) := by
    rw [before, if_neg (Nat.ne_of_gt hindex), h]
  rw [outcome, StateT.run, hbefore]
  rfl

/-- At the end there is an argument in front of the index. -/
theorem At.before (hinput : input ≠ []) (h : At input c p) (hrest : p.rest = []) :
    outcome (before input) c = some (.ok (p.last, c)) := by
  have hlen : input.length ≤ c.index := List.drop_eq_nil_iff.1 (h.rest.trans hrest)
  have hpos : 0 < c.index := Nat.lt_of_lt_of_le (List.length_pos_iff.2 hinput) hlen
  exact outcome_before hpos (h.last hpos)

theorem follows_next (hinput : input ≠ []) : Follows (At input) Stop.err (next input) Expr.Parser.next := by
  intro c p h
  have hpeek := outcome_peek input c
  rw [h.getElem?] at hpeek
  cases hrest : p.rest with
  | nil =>
    rw [outcome_next_nil hrest, next]
    rw [hrest] at hpeek
    simp only [Outcomes.outcome_bind_ok hpeek, List.head?_nil, Outcomes.outcome_bind_ok (h.before hinput hrest)]
    rfl
  | cons token rest =>
    rw [outcome_next hrest, next]
    rw [hrest] at hpeek
    simp only [Outcomes.outcome_bind_ok hpeek, List.head?_cons]
    exact ⟨_, rfl, h.advance hrest⟩

theorem follows_getNextId : Follows (At input) Stop.err getNextId Expr.Parser.getNextId := by
  intro c p h
  refine ⟨{ c with nextId := c.nextId + 1 }, ?_, h.rest, ?_, h.last⟩
  · rw [← h.nextId]
    rfl
  · rw [h.nextId]

theorem follows_parseOp (ops : List (MaybeNonUtf8String × BinOp)) :
    Follows (At input) Stop.err (parseOp input ops) (Expr.Parser.parseOp ops) := by
  intro c p h
  have hpeek := outcome_peek input c
  rw [h.getElem?] at hpeek
  cases hrest : p.rest with
  | nil =>
    rw [outcome_parseOp_none (by simp [hrest]), parseOp]
    rw [hrest] at hpeek
    simp only [Outcomes.outcome_bind_ok hpeek, List.head?_nil]
    exact ⟨c, rfl, h⟩
  | cons token rest =>
    rw [hrest] at hpeek
    cases hlookup : ops.lookup token with
    | none =>
      rw [outcome_parseOp_none (by simpa only [hrest, List.head?_cons, Option.mem_some_iff, forall_eq'] using hlookup),
        parseOp]
      simp only [Outcomes.outcome_bind_ok hpeek, List.head?_cons, hlookup]
      exact ⟨c, rfl, h⟩
    | some op =>
      rw [outcome_parseOp_some hrest hlookup, parseOp]
      simp only [Outcomes.outcome_bind_ok hpeek, List.head?_cons, hlookup]
      exact ⟨_, rfl, h.advance hrest⟩

theorem follows_closeParenthesis (hinput : input ≠ []) :
    Follows (At input) Stop.err (closeParenthesis input) Expr.Parser.closeParenthesis := by
  intro c p h
  have hpeek := outcome_peek input c
  rw [h.getElem?] at hpeek
  cases hrest : p.rest with
  | nil =>
    rw [outcome_closeParenthesis_nil hrest, closeParenthesis]
    rw [hrest] at hpeek
    simp only [Outcomes.outcome_bind_ok hpeek, List.head?_nil, Outcomes.outcome_bind_ok (h.before hinput hrest)]
    rfl
  | cons token rest =>
    rw [hrest] at hpeek
    have hadvance := h.advance hrest
    have hstep : outcome advance c = some (.ok ((), { c with index := c.index + 1 })) := rfl
    rw [closeParenthesis]
    simp only [Outcomes.outcome_bind_ok hpeek, List.head?_cons, Outcomes.outcome_bind_ok hstep]
    by_cases htoken : token = utf8 ")"
    · subst htoken
      rw [outcome_closeParenthesis hrest, if_pos rfl]
      exact ⟨_, rfl, hadvance⟩
    · have hlast := outcome_before (Nat.succ_pos c.index) (hadvance.last (Nat.succ_pos c.index))
      rw [outcome_closeParenthesis_other hrest htoken, if_neg htoken, Outcomes.outcome_bind_ok hlast]
      rfl

/-- Whatever the turns: the parser with an index follows the other one. -/
structure FollowsAll (input : List MaybeNonUtf8String) (turns : Nat) : Prop where
  precedence : ∀ levels, Follows (At input) Stop.err (parsePrecedence input turns levels)
    (Expr.Parser.parsePrecedence turns levels)
  ops : ∀ ops stronger left, Follows (At input) Stop.err (parseOps input turns ops stronger left)
    (Expr.Parser.parseOps turns ops stronger left)
  simple : Follows (At input) Stop.err (parseSimpleExpression input turns) (Expr.Parser.parseSimpleExpression turns)

theorem follows_outOfTurns {α : Type} : Follows (At input) Stop.err (outOfTurns : CursorM α) Expr.outOfTurns :=
  fun _ _ _ => rfl

theorem follows_simple {turns : Nat} (hinput : input ≠ []) (ih : FollowsAll input turns) :
    Follows (At input) Stop.err (parseSimpleExpression input (turns + 1))
      (Expr.Parser.parseSimpleExpression (turns + 1)) := by
  have hnode : ∀ make : UInt32 → AstNode, Follows (At input) Stop.err (do return make (← getNextId))
      (do return make (← Expr.Parser.getNextId)) :=
    fun make => follows_getNextId.andThen fun id => Outcomes.follows_pure (make id)
  have htwo : ∀ op, Follows (At input) Stop.err (do
      let left ← parseSimpleExpression input turns
      let right ← parseSimpleExpression input turns
      return AstNode.binOp (← getNextId) op left right) (do
      let left ← Expr.Parser.parseSimpleExpression turns
      let right ← Expr.Parser.parseSimpleExpression turns
      return AstNode.binOp (← Expr.Parser.getNextId) op left right) :=
    fun op => ih.simple.andThen fun left => ih.simple.andThen fun right => hnode (.binOp · op left right)
  rw [parseSimpleExpression, Expr.Parser.parseSimpleExpression]
  refine (follows_next hinput).andThen fun first => ?_
  refine Outcomes.follows_ite (fun _ => htwo _) fun _ => ?_
  refine Outcomes.follows_ite (fun _ => ?_) fun _ => ?_
  · exact ih.simple.andThen fun string => ih.simple.andThen fun pos => ih.simple.andThen fun len =>
      hnode (.substr · string pos len)
  refine Outcomes.follows_ite (fun _ => htwo _) fun _ => ?_
  refine Outcomes.follows_ite (fun _ => ih.simple.andThen fun string => hnode (.length · string)) fun _ => ?_
  refine Outcomes.follows_ite (fun _ => (follows_next hinput).andThen fun value => hnode (.leaf · value)) fun _ => ?_
  refine Outcomes.follows_ite (fun _ => ?_) fun _ => hnode (.leaf · first)
  exact (ih.precedence _).andThen fun s => (follows_closeParenthesis hinput).andThen fun _ => hnode s.withId

theorem followsAll (hinput : input ≠ []) (turns : Nat) : FollowsAll input turns := by
  induction turns with
  | zero => exact ⟨fun _ => follows_outOfTurns, fun _ _ _ => follows_outOfTurns, follows_outOfTurns⟩
  | succ turns ih =>
    refine ⟨fun levels => ?_, fun ops stronger left => ?_, follows_simple hinput ih⟩
    · cases levels with
      | nil =>
        rw [parsePrecedence, Expr.Parser.parsePrecedence]
        exact ih.simple
      | cons ops stronger =>
        rw [parsePrecedence, Expr.Parser.parsePrecedence]
        exact (ih.precedence stronger).andThen fun left => ih.ops ops stronger left
    · rw [parseOps, Expr.Parser.parseOps]
      refine (follows_parseOp ops).andThen fun op => ?_
      cases op with
      | none => exact Outcomes.follows_pure left
      | some op =>
        exact (ih.precedence stronger).andThen fun right => follows_getNextId.andThen fun id =>
          ih.ops ops stronger (.binOp id op left right)

theorem follows_parseAll (hinput : input ≠ []) (turns : Nat) :
    Follows (At input) Stop.err (parseAll input turns) (Expr.Parser.parseAll turns) := by
  refine ((followsAll hinput turns).precedence _).andThen fun res => ?_
  intro c p h
  have hpeek := outcome_peek input c
  have hget : outcome (get : ParseM Expr.Parser) p = some (.ok (p, p)) := rfl
  rw [h.getElem?] at hpeek
  rw [Outcomes.outcome_bind_ok hpeek, Outcomes.outcome_bind_ok hget]
  cases hrest : p.rest with
  | nil => exact ⟨c, rfl, h⟩
  | cons arg rest => rfl

end Simulation

/-- The parser with an index does what the other one does. -/
theorem parse_eq (input : List MaybeNonUtf8String) (nextId : Nat) :
    parse input nextId = (AstNode.parse input nextId).map fun r => r.mapError Stop.err := by
  cases input with
  | nil => rfl
  | cons token input =>
    have hstart : At (token :: input) ⟨0, nextId⟩ ⟨token :: input, [], nextId⟩ := ⟨rfl, rfl, fun h => by cases h⟩
    have hfollows := follows_parseAll (List.cons_ne_nil token input) (parseTurns (token :: input)) _ _ hstart
    have hparse : AstNode.parse (token :: input) nextId =
        (outcome (Expr.Parser.parseAll (parseTurns (token :: input))) ⟨token :: input, [], nextId⟩).map
          fun r => r.map (·.1) := rfl
    rw [hparse, parse]
    cases hrun : outcome (Expr.Parser.parseAll (parseTurns (token :: input))) ⟨token :: input, [], nextId⟩ with
    | none =>
      rw [hrun] at hfollows
      simp [hfollows]
    | some r =>
      rw [hrun] at hfollows
      cases r with
      | error e =>
        simp only at hfollows
        simp [hfollows, Except.map, Except.mapError]
      | ok r =>
        obtain ⟨c', hc, -⟩ := hfollows
        simp [hc, Except.map, Except.mapError]

end Cursor

end Peiosutils.Expr
