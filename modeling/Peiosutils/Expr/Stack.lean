import Peiosutils.Expr.Numbered
import Peiosutils.Expr.SyntaxTree

/-!
# The stack and the tree

The loop over the stack evaluates a tree like the recursion `AstNode.value`, but an error in an operand of `substr` or
`length` ends it at once (`evalLoop_eq`): also where the recursion goes on without the operand, or with another error.
`eval_iff` says when both have the same result.
-/

set_option autoImplicit false

namespace Peiosutils.Expr

open Utf8

variable {env : Locale}

/-! ## The recursion -/

/-- The value of a tree by recursion. -/
def AstNode.value (env : Locale) : AstNode → ExprResult NumOrStr
  | leaf _ value => .ok (.str value)
  | binOp _ op left right => op.eval env (left.value env) (right.value env)
  | substr _ string pos len => do
    let string ← string.value env
    let pos ← pos.value env
    let len ← len.value env
    return substrOf env string pos len
  | length _ string => do
    let string ← string.value env
    return lengthOf env string

def errorOf {α : Type} : ExprResult α → Option ExprError
  | .ok _ => none
  | .error e => some e

/-- The first node of `substr` or `length` whose value is an error, in the order of the stack: left operands first, and
the length and the position of `substr` before its string. -/
def AstNode.firstFailure (env : Locale) : AstNode → Option ExprError
  | leaf .. => none
  | binOp _ _ left right => (left.firstFailure env).or (right.firstFailure env)
  | substr id string pos len =>
    (len.firstFailure env).or ((pos.firstFailure env).or ((string.firstFailure env).or
      (errorOf ((substr id string pos len).value env))))
  | length id string => (string.firstFailure env).or (errorOf ((length id string).value env))

/-! ## The results -/

namespace ResultStack

variable {results : ResultStack} {id id' : UInt32} {v : ExprResult NumOrStr}

theorem insert_self : results.insert id v id = some v := Function.update_self ..

theorem insert_of_ne (h : id' ≠ id) : results.insert id v id' = results id' := Function.update_of_ne h ..

/-- Nothing is removed where there is nothing. -/
theorem remove_of_none (h : results id = none) : results.remove id = results := by
  unfold remove
  rw [← h]
  exact Function.update_eq_self id results

theorem remove_insert (h : results id = none) : (results.insert id v).remove id = results := by
  unfold insert remove
  rw [Function.update_idem]
  exact remove_of_none h

end ResultStack

open ResultStack

/-- No result is known of a tree. -/
def Unknown (results : ResultStack) (node : AstNode) : Prop := ∀ id ∈ node.ids, results id = none

theorem id_mem_ids (node : AstNode) : node.id ∈ node.ids := by
  obtain ⟨rest, hrest, -⟩ := ids_withId 0 node
  rw [hrest]
  exact List.mem_cons_self

theorem Unknown.insert {results : ResultStack} {node : AstNode} {id : UInt32} {v : ExprResult NumOrStr}
    (h : Unknown results node) (hid : id ∉ node.ids) : Unknown (results.insert id v) node := by
  intro i hi
  rw [insert_of_ne (by rintro rfl; exact hid hi)]
  exact h i hi

/-! ## The loop -/

/-- What the loop does with a tree on top of the stack: it goes on with its value, or ends in an error. -/
def Evaluates (env : Locale) (node : AstNode) : Prop :=
  ∀ (turns : Nat) (stack : List AstNode) (results : ResultStack), node.ids.Nodup → Unknown results node →
    evalLoop env (node.visits + turns) (node :: stack) results =
      match node.firstFailure env with
      | some e => some (.error e)
      | none => evalLoop env turns stack (results.insert node.id (node.value env))

theorem evalLoop_succ (turns : Nat) (node : AstNode) (stack : List AstNode) (results : ResultStack) :
    evalLoop env (turns + 1) (node :: stack) results =
      match node.visit env results with
      | .ok (pushed, results) => evalLoop env turns (pushed ++ stack) results
      | .error e => some (.error e) := rfl

theorem evaluates_binOp {id : UInt32} {op : BinOp} {left right : AstNode} (hleft : Evaluates env left)
    (hright : Evaluates env right) : Evaluates env (.binOp id op left right) := by
  intro turns stack results hnodup hunknown
  simp only [AstNode.ids, List.nodup_cons, List.mem_append, not_or] at hnodup
  obtain ⟨⟨hidLeft, hidRight⟩, hnodup⟩ := hnodup
  obtain ⟨hnodupLeft, hnodupRight, hdisjoint⟩ := List.nodup_append.1 hnodup
  have hunknownLeft : Unknown results left := fun i hi => hunknown i (by simp [AstNode.ids, hi])
  have hunknownRight : Unknown results right := fun i hi => hunknown i (by simp [AstNode.ids, hi])
  have hl := hunknownLeft _ (id_mem_ids left)
  have hr := hunknownRight _ (id_mem_ids right)
  have hne : left.id ≠ right.id := hdisjoint _ (id_mem_ids left) _ (id_mem_ids right)
  have hfirst : (AstNode.binOp id op left right).visit env results =
      .ok ([left, right, .binOp id op left right], results) := by
    simp only [AstNode.visit, hr, remove_of_none hr, remove_of_none hl]
  rw [show (AstNode.binOp id op left right).visits + turns = left.visits + (right.visits + (turns + 1)) + 1 by
    simp only [AstNode.visits]; omega, evalLoop_succ, hfirst]
  simp only [List.cons_append, List.nil_append]
  rw [hleft _ _ _ hnodupLeft hunknownLeft, AstNode.firstFailure]
  cases left.firstFailure env with
  | some e => rfl
  | none =>
    simp only [Option.none_or]
    rw [hright _ _ _ hnodupRight (hunknownRight.insert fun h => hdisjoint _ (id_mem_ids left) _ h rfl)]
    cases right.firstFailure env with
    | some e => rfl
    | none =>
      simp only
      have hsecond : (AstNode.binOp id op left right).visit env
          ((results.insert left.id (left.value env)).insert right.id (right.value env)) =
            .ok ([], results.insert id ((AstNode.binOp id op left right).value env)) := by
        have hremoved : ((results.insert left.id (left.value env)).insert right.id (right.value env)).remove right.id =
            results.insert left.id (left.value env) := remove_insert (by rw [insert_of_ne hne.symm, hr])
        simp only [AstNode.visit, hremoved, insert_self, remove_insert hl]
        rfl
      rw [evalLoop_succ, hsecond]
      rfl

theorem evaluates_length {id : UInt32} {string : AstNode} (hstring : Evaluates env string) :
    Evaluates env (.length id string) := by
  intro turns stack results hnodup hunknown
  simp only [AstNode.ids, List.nodup_cons] at hnodup
  have hunknownString : Unknown results string := fun i hi => hunknown i (by simp [AstNode.ids, hi])
  have hs := hunknownString _ (id_mem_ids string)
  have hfirst : (AstNode.length id string).visit env results = .ok ([string, .length id string], results) := by
    simp only [AstNode.visit, hs, remove_of_none hs]
  rw [show (AstNode.length id string).visits + turns = string.visits + (turns + 1) + 1 by
    simp only [AstNode.visits]; omega, evalLoop_succ, hfirst]
  simp only [List.cons_append, List.nil_append]
  rw [hstring _ _ _ hnodup.2 hunknownString, AstNode.firstFailure]
  cases string.firstFailure env with
  | some e => rfl
  | none =>
    simp only [Option.none_or]
    rw [evalLoop_succ]
    simp only [AstNode.visit, insert_self, remove_insert hs, AstNode.value]
    cases string.value env <;> rfl

theorem evaluates_substr {id : UInt32} {string pos len : AstNode} (hstring : Evaluates env string)
    (hpos : Evaluates env pos) (hlen : Evaluates env len) : Evaluates env (.substr id string pos len) := by
  intro turns stack results hnodup hunknown
  simp only [AstNode.ids, List.nodup_cons, List.mem_append, not_or] at hnodup
  obtain ⟨-, hnodup⟩ := hnodup
  obtain ⟨hnodupString, hnodup', hdisjoint⟩ := List.nodup_append.1 hnodup
  obtain ⟨hnodupPos, hnodupLen, hdisjoint'⟩ := List.nodup_append.1 hnodup'
  have hunknownString : Unknown results string := fun i hi => hunknown i (by simp [AstNode.ids, hi])
  have hunknownPos : Unknown results pos := fun i hi => hunknown i (by simp [AstNode.ids, hi])
  have hunknownLen : Unknown results len := fun i hi => hunknown i (by simp [AstNode.ids, hi])
  have hs := hunknownString _ (id_mem_ids string)
  have hp := hunknownPos _ (id_mem_ids pos)
  have hl := hunknownLen _ (id_mem_ids len)
  have hsp : ∀ i ∈ pos.ids, i ∉ string.ids := fun i hi h =>
    hdisjoint i h i (List.mem_append_left _ hi) rfl
  have hsl : ∀ i ∈ len.ids, i ∉ string.ids := fun i hi h =>
    hdisjoint i h i (List.mem_append_right _ hi) rfl
  have hpl : ∀ i ∈ len.ids, i ∉ pos.ids := fun i hi h => hdisjoint' i h i hi rfl
  have hneSP : string.id ≠ pos.id := fun h => hsp _ (id_mem_ids pos) (h ▸ id_mem_ids string)
  have hneSL : string.id ≠ len.id := fun h => hsl _ (id_mem_ids len) (h ▸ id_mem_ids string)
  have hnePL : pos.id ≠ len.id := fun h => hpl _ (id_mem_ids len) (h ▸ id_mem_ids pos)
  have hfirst : (AstNode.substr id string pos len).visit env results =
      .ok ([len, pos, string, .substr id string pos len], results) := by
    simp only [AstNode.visit, hs, remove_of_none hs, remove_of_none hp, remove_of_none hl]
  rw [show (AstNode.substr id string pos len).visits + turns =
      len.visits + (pos.visits + (string.visits + (turns + 1))) + 1 by
    simp only [AstNode.visits]; omega, evalLoop_succ, hfirst]
  simp only [List.cons_append, List.nil_append]
  rw [hlen _ _ _ hnodupLen hunknownLen, AstNode.firstFailure]
  cases len.firstFailure env with
  | some e => rfl
  | none =>
    simp only [Option.none_or]
    rw [hpos _ _ _ hnodupPos (hunknownPos.insert (hpl _ (id_mem_ids len)))]
    cases pos.firstFailure env with
    | some e => rfl
    | none =>
      simp only [Option.none_or]
      rw [hstring _ _ _ hnodupString
        ((hunknownString.insert (hsl _ (id_mem_ids len))).insert (hsp _ (id_mem_ids pos)))]
      cases string.firstFailure env with
      | some e => rfl
      | none =>
        simp only [Option.none_or]
        rw [evalLoop_succ]
        -- the results of the operands are taken, in the order string, position, length
        have hremoveString : (((results.insert len.id (len.value env)).insert pos.id (pos.value env)).insert string.id
            (string.value env)).remove string.id =
              (results.insert len.id (len.value env)).insert pos.id (pos.value env) :=
          remove_insert (by rw [insert_of_ne hneSP, insert_of_ne hneSL, hs])
        have hremovePos : ((results.insert len.id (len.value env)).insert pos.id (pos.value env)).remove pos.id =
            results.insert len.id (len.value env) := remove_insert (by rw [insert_of_ne hnePL, hp])
        simp only [AstNode.visit, hremoveString, hremovePos, insert_self, remove_insert hl, AstNode.value]
        cases string.value env with
        | error e => rfl
        | ok s =>
          cases pos.value env with
          | error e => rfl
          | ok p => cases len.value env <;> rfl

/-- The loop takes a tree from the stack for its value, or ends in the first failure. -/
theorem evalLoop_eq (node : AstNode) : Evaluates env node := by
  induction node with
  | leaf id value =>
    intro turns stack results _ _
    rw [show (AstNode.leaf id value).visits + turns = turns + 1 from Nat.add_comm 1 turns]
    rfl
  | binOp id op left right hleft hright => exact evaluates_binOp hleft hright
  | substr id string pos len hstring hpos hlen => exact evaluates_substr hstring hpos hlen
  | length id string hstring => exact evaluates_length hstring

theorem eval_eq {node : AstNode} (hnodup : node.ids.Nodup) :
    node.eval env = some (match node.firstFailure env with
      | some e => .error e
      | none => node.value env) := by
  have hloop := @evalLoop_eq env node 0 [] (fun _ => none) hnodup fun _ _ => rfl
  rw [Nat.add_zero] at hloop
  rw [AstNode.eval, hloop]
  cases node.firstFailure env with
  | some e => rfl
  | none =>
    simp only [evalLoop]
    exact insert_self

/-- Every tree that the parser makes is evaluated, and to its value by recursion exactly when no node of `substr` or
`length` has an error for its value, or the first one has the error of the whole tree. -/
theorem eval_iff {input : List MaybeNonUtf8String} (hinput : input.length < 2 ^ 32) {nextId : Nat} {tree : AstNode}
    (hparse : AstNode.parse input nextId = some (.ok tree)) :
    ∃ result, tree.eval env = some result ∧
      (result = tree.value env ↔ ∀ e, tree.firstFailure env = some e → tree.value env = .error e) := by
  obtain ⟨r, hr, hnodup⟩ := parse_ends input nextId
  rw [hparse] at hr
  refine ⟨_, eval_eq (hnodup tree (Option.some.inj hr).symm hinput), ?_⟩
  cases tree.firstFailure env with
  | none => simp
  | some e =>
    simp only [Option.some.injEq, forall_eq']
    exact eq_comm

/-- Single bytes as characters, numbers in digits, and no regular expression matches. -/
def digitLocale : Locale where
  comparison a b := compare (a.map UInt8.toNat) (b.map UInt8.toNat)
  index left right := (left.findIdx? fun b => right.contains b).elim 0 (· + 1)
  length := List.length
  substr s pos len := (s.drop pos).take len
  matchExpression _ _ := .ok (.num 0)
  parseBigInt s :=
    if s ≠ [] ∧ s.all (fun b => 48 ≤ b && b ≤ 57) then some (s.foldl (fun n b => 10 * n + (b.toNat - 48)) 0) else none

/-- `1 | 1 / 0` -/
theorem eval_iff_or :
    let tree : AstNode := .binOp 5 (.string .or) (.leaf 1 [49]) (.binOp 4 (.numeric .div) (.leaf 2 [49]) (.leaf 3 [48]))
    tree.eval digitLocale = some (.ok (.str [49])) ∧ tree.value digitLocale = .ok (.str [49]) := by
  intro tree
  have hparse : AstNode.parse [[49], [124], [49], [47], [48]] 1 = some (.ok tree) := by decide
  obtain ⟨result, heval, hiff⟩ := @eval_iff digitLocale _ (by decide) 1 tree hparse
  have hvalue : tree.value digitLocale = .ok (.str [49]) := by decide
  have hnone : tree.firstFailure digitLocale = none := by decide
  have hsame : result = tree.value digitLocale := by
    apply hiff.2
    intro e he
    rw [hnone] at he
    cases he
  exact ⟨by rw [heval, hsame, hvalue], hvalue⟩

/-- `1 | length ( 1 / 0 )` -/
theorem eval_or_length :
    let tree : AstNode := .binOp 7 (.string .or) (.leaf 1 [49])
      (.length 6 (.binOp 5 (.numeric .div) (.leaf 2 [49]) (.leaf 3 [48])))
    AstNode.parse [[49], [124], utf8 "length", [40], [49], [47], [48], [41]] 1 = some (.ok tree) ∧
      tree.eval digitLocale = some (.error .divisionByZero) ∧ tree.value digitLocale = .ok (.str [49]) := by decide

end Peiosutils.Expr
