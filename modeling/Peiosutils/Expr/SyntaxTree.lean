import Mathlib.Algebra.Group.Int.Defs
import Mathlib.Algebra.GroupWithZero.Nat
import Mathlib.Logic.Function.Basic
import Peiosutils.Lib.Utf8

/-!
# Expressions and their parser (`syntax_tree.rs`)

The parser makes a tree of the arguments, by the precedence of the operators. Every node gets a number of its own from a
counter of 32 bits.
-/

set_option autoImplicit false

namespace Peiosutils.Expr

open Utf8

abbrev MaybeNonUtf8String := List UInt8

inductive RelationOp where
  | lt | leq | eq | neq | gt | geq
  deriving DecidableEq, Repr

inductive NumericOp where
  | add | sub | mul | div | mod
  deriving DecidableEq, Repr

inductive StringOp where
  | match | index | and | or
  deriving DecidableEq, Repr

inductive BinOp where
  | relation (op : RelationOp)
  | numeric (op : NumericOp)
  | string (op : StringOp)
  deriving DecidableEq, Repr

inductive ExprError where
  | unexpectedArgument (arg : String)
  | missingArgument (arg : String)
  | nonIntegerArgument
  | missingOperand
  | divisionByZero
  | invalidRegexExpression
  | expectedClosingBraceAfter (arg : String)
  | expectedClosingBraceInsteadOf (arg : String)
  | unmatchedOpeningParenthesis
  | unmatchedClosingParenthesis
  | unmatchedOpeningBrace
  | invalidBracketContent
  | trailingBackslash
  | tooBigRangeQuantifierIndex
  | unsupportedNonUtf8Match (arg : String)
  deriving DecidableEq, Repr

/-- A node and its number. -/
inductive AstNode where
  | leaf (id : UInt32) (value : MaybeNonUtf8String)
  | binOp (id : UInt32) (opType : BinOp) (left right : AstNode)
  | substr (id : UInt32) (string pos length : AstNode)
  | length (id : UInt32) (string : AstNode)
  deriving DecidableEq

namespace AstNode

def id : AstNode → UInt32
  | leaf id _ => id
  | binOp id .. => id
  | substr id .. => id
  | length id _ => id

/-- The same node under another number. -/
def withId (id : UInt32) : AstNode → AstNode
  | leaf _ value => leaf id value
  | binOp _ opType left right => binOp id opType left right
  | substr _ string pos len => substr id string pos len
  | length _ string => length id string

end AstNode

/-! ## The parser -/

/-- The arguments that are left, the one in front of them and the next number. -/
structure Parser where
  rest : List MaybeNonUtf8String
  last : MaybeNonUtf8String
  nextId : Nat

/-- None when the turns do not suffice. -/
abbrev ParseM (α : Type) := StateT Parser (ExceptT ExprError Option) α

def outOfTurns {α : Type} : ParseM α := fun _ => ExceptT.mk none

namespace Parser

/-- `get_next_id`: the counter wraps at 32 bits. -/
def getNextId : ParseM UInt32 := fun p => pure (UInt32.ofNat p.nextId, { p with nextId := p.nextId + 1 })

def next : ParseM MaybeNonUtf8String := fun p =>
  match p.rest with
  | token :: rest => pure (token, { p with rest := rest, last := token })
  | [] => throw (.missingArgument (lossy p.last))

/-- Infix operators by precedence, the weakest first. -/
def precedence : List (List (MaybeNonUtf8String × BinOp)) := [
  [(utf8 "|", .string .or)],
  [(utf8 "&", .string .and)],
  [(utf8 "<", .relation .lt), (utf8 "<=", .relation .leq), (utf8 "=", .relation .eq), (utf8 "!=", .relation .neq),
    (utf8 ">=", .relation .geq), (utf8 ">", .relation .gt)],
  [(utf8 "+", .numeric .add), (utf8 "-", .numeric .sub)],
  [(utf8 "*", .numeric .mul), (utf8 "/", .numeric .div), (utf8 "%", .numeric .mod)],
  [(utf8 ":", .string .match)]]

/-- An operator of the given ones, if the next argument is one. -/
def parseOp (ops : List (MaybeNonUtf8String × BinOp)) : ParseM (Option BinOp) := fun p =>
  match p.rest with
  | token :: rest =>
    match ops.lookup token with
    | some op => pure (some op, { p with rest := rest, last := token })
    | none => pure (none, p)
  | [] => pure (none, p)

/-- The argument behind an expression in parentheses. -/
def closeParenthesis : ParseM Unit := fun p =>
  match p.rest with
  | token :: rest =>
    if token = utf8 ")" then pure ((), { p with rest := rest, last := token })
    else throw (.expectedClosingBraceInsteadOf (lossy token))
  | [] => throw (.expectedClosingBraceAfter (lossy p.last))

mutual

/-- An expression with operators of the given precedences; with none of them a simple expression. -/
def parsePrecedence : Nat → List (List (MaybeNonUtf8String × BinOp)) → ParseM AstNode
  | 0, _ => outOfTurns
  | turns + 1, [] => parseSimpleExpression turns
  | turns + 1, ops :: stronger => do
    let left ← parsePrecedence turns stronger
    parseOps turns ops stronger left

/-- The loop of `parse_precedence`: more operators behind a left operand. -/
def parseOps : Nat → List (MaybeNonUtf8String × BinOp) → List (List (MaybeNonUtf8String × BinOp)) → AstNode →
    ParseM AstNode
  | 0, _, _, _ => outOfTurns
  | turns + 1, ops, stronger, left => do
    match ← parseOp ops with
    | none => return left
    | some op =>
      let right ← parsePrecedence turns stronger
      let id ← getNextId
      parseOps turns ops stronger (.binOp id op left right)

def parseSimpleExpression : Nat → ParseM AstNode
  | 0 => outOfTurns
  | turns + 1 => do
    let first ← next
    if first = utf8 "match" then
      let left ← parseSimpleExpression turns
      let right ← parseSimpleExpression turns
      return .binOp (← getNextId) (.string .match) left right
    else if first = utf8 "substr" then
      let string ← parseSimpleExpression turns
      let pos ← parseSimpleExpression turns
      let length ← parseSimpleExpression turns
      return .substr (← getNextId) string pos length
    else if first = utf8 "index" then
      let left ← parseSimpleExpression turns
      let right ← parseSimpleExpression turns
      return .binOp (← getNextId) (.string .index) left right
    else if first = utf8 "length" then
      let string ← parseSimpleExpression turns
      return .length (← getNextId) string
    else if first = utf8 "+" then
      let value ← next
      return .leaf (← getNextId) value
    else if first = utf8 "(" then
      let s ← parsePrecedence turns precedence
      closeParenthesis
      return s.withId (← getNextId)
    else return .leaf (← getNextId) first

end

/-- The whole input is one expression. -/
def parseAll (turns : Nat) : ParseM AstNode := do
  let res ← parsePrecedence turns precedence
  let p ← get
  match p.rest with
  | arg :: _ => throw (.unexpectedArgument (lossy arg))
  | [] => return res

end Parser

/-- As many turns as the parser can make. -/
def parseTurns (input : List MaybeNonUtf8String) : Nat := 8 * (input.length + 1)

/-- `AstNode::parse`, with the first number that is free. -/
def AstNode.parse (input : List MaybeNonUtf8String) (nextId : Nat) : Option (Except ExprError AstNode) :=
  if input.isEmpty then some (.error .missingOperand)
  else
    ((Parser.parseAll (parseTurns input)).run ⟨input, [], nextId⟩).run.map fun r => r.map (·.1)

end Peiosutils.Expr

/-!
# Evaluating with a stack (`syntax_tree.rs`)

`AstNode.eval` keeps the nodes that are to be evaluated on a stack, and the results of the nodes by their numbers.
-/

namespace Peiosutils.Expr

open Utf8

inductive NumOrStr where
  | num (n : Int)
  | str (s : MaybeNonUtf8String)
  deriving DecidableEq, Repr

abbrev ExprResult (α : Type) := Except ExprError α

/-- What depends on the locale, the regular expressions, and how the text of a number is read. -/
structure Locale where
  comparison : MaybeNonUtf8String → MaybeNonUtf8String → Ordering
  index : MaybeNonUtf8String → MaybeNonUtf8String → Nat
  length : MaybeNonUtf8String → Nat
  substr : MaybeNonUtf8String → Nat → Nat → MaybeNonUtf8String
  matchExpression : MaybeNonUtf8String → MaybeNonUtf8String → ExprResult NumOrStr
  /-- None also for bytes that are not UTF-8. -/
  parseBigInt : MaybeNonUtf8String → Option Int

/-! ## Values -/

namespace NumOrStr

def toBigInt (env : Locale) : NumOrStr → Option Int
  | num n => some n
  | str s => env.parseBigInt s

def evalAsBigInt (env : Locale) : NumOrStr → ExprResult Int
  | num n => .ok n
  | str s =>
    match env.parseBigInt s with
    | some n => .ok n
    | none => .error .nonIntegerArgument

def evalAsString : NumOrStr → MaybeNonUtf8String
  | num n => utf8 (toString n)
  | str s => s

end NumOrStr

/-- Not empty, and not zeros with at most one `-` in front. -/
def isTruthy : NumOrStr → Bool
  | .num n => n != 0
  | .str s =>
    if s = utf8 "-" then true
    else
      match s with
      | [] => false
      | first :: bytes => !((first == 45 || first == 48) && bytes.all (· == 48))

/-! ## Operators -/

def RelationOp.checkCmp (op : RelationOp) (cmp : Ordering) : Bool :=
  match op, cmp with
  | .lt, .lt | .leq, .lt | .neq, .lt => true
  | .leq, .eq | .eq, .eq | .geq, .eq => true
  | .gt, .gt | .geq, .gt | .neq, .gt => true
  | _, _ => false

def RelationOp.eval (env : Locale) (op : RelationOp) (a b : ExprResult NumOrStr) : ExprResult NumOrStr := do
  let a ← a
  let b ← b
  let holds :=
    match a.toBigInt env, b.toBigInt env with
    | some a, some b => op.checkCmp (compare a b)
    | _, _ => op.checkCmp (env.comparison a.evalAsString b.evalAsString)
  if holds then return .num 1 else return .num 0

def NumericOp.eval (env : Locale) (op : NumericOp) (left right : ExprResult NumOrStr) : ExprResult NumOrStr := do
  let a ← (← left).evalAsBigInt env
  let b ← (← right).evalAsBigInt env
  match op with
  | .add => return .num (a + b)
  | .sub => return .num (a - b)
  | .mul => return .num (a * b)
  | .div => if b = 0 then throw .divisionByZero else return .num (a.tdiv b)
  | .mod => if b = 0 then throw .divisionByZero else return .num (a.tmod b)

def StringOp.eval (env : Locale) (op : StringOp) (left right : ExprResult NumOrStr) : ExprResult NumOrStr :=
  match op with
  | .or => do
    let left ← left
    if isTruthy left then return left
    let right ← right
    if isTruthy right then return right
    return .num 0
  | .and => do
    let left ← left
    if !isTruthy left then return .num 0
    let right ← right
    if !isTruthy right then return .num 0
    return left
  | .match => do
    let left ← left
    let right ← right
    env.matchExpression left.evalAsString right.evalAsString
  | .index => do
    let left ← left
    let right ← right
    return .num (env.index left.evalAsString right.evalAsString)

def BinOp.eval (env : Locale) (op : BinOp) (left right : ExprResult NumOrStr) : ExprResult NumOrStr :=
  match op with
  | .relation op => op.eval env left right
  | .numeric op => op.eval env left right
  | .string op => op.eval env left right

/-- A position or length: 0 for what is not a number, or not one of 64 bits. -/
def coerceUsize (env : Locale) (value : NumOrStr) : Nat :=
  match value.evalAsBigInt env with
  | .ok n => if 0 ≤ n ∧ n < 2 ^ 64 then n.toNat else 0
  | .error _ => 0

def substrOf (env : Locale) (string pos length : NumOrStr) : NumOrStr :=
  let pos := coerceUsize env pos
  let length := coerceUsize env length
  if 0 < pos ∧ 0 < length then .str (env.substr string.evalAsString (pos - 1) length) else .str []

def lengthOf (env : Locale) (string : NumOrStr) : NumOrStr := .num (env.length string.evalAsString)

/-! ## The stack -/

/-- The results by the numbers of their nodes. -/
abbrev ResultStack := UInt32 → Option (ExprResult NumOrStr)

namespace ResultStack

def insert (results : ResultStack) (id : UInt32) (result : ExprResult NumOrStr) : ResultStack :=
  Function.update results id (some result)

def remove (results : ResultStack) (id : UInt32) : ResultStack := Function.update results id none

end ResultStack

/-- One turn for the node on top of the stack: an error that ends the evaluation, or the nodes that are put on the stack,
the top first, and the results. -/
def AstNode.visit (env : Locale) (results : ResultStack) (node : AstNode) : ExprResult (List AstNode × ResultStack) :=
  match node with
  | leaf id value => .ok ([], results.insert id (.ok (.str value)))
  | binOp id opType left right =>
    let removed := (results.remove right.id).remove left.id
    match results right.id, (results.remove right.id) left.id with
    | some rightResult, some leftResult => .ok ([], removed.insert id (opType.eval env leftResult rightResult))
    | _, _ => .ok ([left, right, node], removed)
  | substr id string pos len =>
    let removed := ((results.remove string.id).remove pos.id).remove len.id
    match results string.id, (results.remove string.id) pos.id,
        ((results.remove string.id).remove pos.id) len.id with
    | some stringResult, some posResult, some lenResult => do
      let string ← stringResult
      let pos ← posResult
      let len ← lenResult
      return ([], removed.insert id (.ok (substrOf env string pos len)))
    | _, _, _ => .ok ([len, pos, string, node], removed)
  | length id string =>
    match results string.id with
    | some stringResult => do
      let string' ← stringResult
      return ([], (results.remove string.id).insert id (.ok (lengthOf env string')))
    | none => .ok ([string, node], results.remove string.id)

/-- The loop over the stack; none when the turns do not suffice. -/
def evalLoop (env : Locale) : Nat → List AstNode → ResultStack → Option (ExprResult ResultStack)
  | _, [], results => some (.ok results)
  | 0, _ :: _, _ => none
  | turns + 1, node :: stack, results =>
    match node.visit env results with
    | .ok (pushed, results) => evalLoop env turns (pushed ++ stack) results
    | .error e => some (.error e)

/-- Every node is on top of the stack once, or twice where it has children. -/
def AstNode.visits : AstNode → Nat
  | leaf .. => 1
  | binOp _ _ left right => left.visits + right.visits + 2
  | substr _ string pos len => len.visits + pos.visits + string.visits + 2
  | length _ string => string.visits + 2

/-- None is a panic. -/
def AstNode.eval (env : Locale) (node : AstNode) : Option (ExprResult NumOrStr) :=
  match evalLoop env node.visits [node] fun _ => none with
  | some (.ok results) => results node.id
  | some (.error e) => some (.error e)
  | none => none

end Peiosutils.Expr
