import Mathlib.Algebra.GroupWithZero.Nat
import Mathlib.Data.List.Nodup
import Peiosutils.Expr.SyntaxTree
import Peiosutils.Lib.Outcomes

/-!
# The numbers of the nodes

The parser comes to an end (`parse_isSome`), and it numbers a node after its children, one number for an argument at
most. So the numbers of a tree are distinct when there are fewer arguments than numbers (`parse_nodup`).
-/

set_option autoImplicit false

namespace Peiosutils.Expr

open Ending

/-- The numbers of a tree. -/
def AstNode.ids : AstNode → List UInt32
  | leaf id _ => [id]
  | binOp id _ left right => id :: (left.ids ++ right.ids)
  | substr id string pos len => id :: (string.ids ++ (pos.ids ++ len.ids))
  | length id string => id :: string.ids

/-! ## Numbers from a range -/

/-- The numbers are distinct values that the counter had in a range. -/
def Numbered (lo hi : Nat) (ids : List UInt32) : Prop :=
  ∃ js : List Nat, ids = js.map UInt32.ofNat ∧ js.Nodup ∧ ∀ j ∈ js, lo ≤ j ∧ j < hi

theorem Numbered.append {lo mid hi : Nat} {ids ids' : List UInt32} (h : Numbered lo mid ids)
    (h' : Numbered mid hi ids') (hlo : lo ≤ mid) (hhi : mid ≤ hi) : Numbered lo hi (ids ++ ids') := by
  obtain ⟨js, rfl, hnodup, hrange⟩ := h
  obtain ⟨js', rfl, hnodup', hrange'⟩ := h'
  refine ⟨js ++ js', (List.map_append ..).symm, ?_, ?_⟩
  · refine List.nodup_append.2 ⟨hnodup, hnodup', ?_⟩
    rintro j hj k hk rfl
    have := (hrange j hj).2
    have := (hrange' j hk).1
    omega
  · intro j hj
    rcases List.mem_append.1 hj with hj | hj
    · have := hrange j hj
      omega
    · have := hrange' j hj
      omega

/-- The next number. -/
theorem Numbered.next {lo hi : Nat} {ids : List UInt32} (h : Numbered lo hi ids) (hle : lo ≤ hi) :
    Numbered lo (hi + 1) (UInt32.ofNat hi :: ids) := by
  obtain ⟨js, rfl, hnodup, hrange⟩ := h
  refine ⟨hi :: js, rfl, List.nodup_cons.2 ⟨fun hmem => ?_, hnodup⟩, ?_⟩
  · exact Nat.lt_irrefl hi (hrange hi hmem).2
  · intro j hj
    rcases List.mem_cons.1 hj with rfl | hj
    · exact ⟨hle, Nat.lt_succ_self j⟩
    · have := hrange j hj
      omega

theorem Numbered.tail {lo hi : Nat} {id : UInt32} {ids : List UInt32} (h : Numbered lo hi (id :: ids)) :
    Numbered lo hi ids := by
  obtain ⟨js, hids, hnodup, hrange⟩ := h
  cases js with
  | nil => cases hids
  | cons j js =>
    exact ⟨js, (List.cons.inj hids).2, (List.nodup_cons.1 hnodup).2, fun k hk => hrange k (List.mem_cons_of_mem j hk)⟩

/-- Fewer than `2 ^ 32` values in a row are distinct numbers. -/
theorem Numbered.nodup {lo hi : Nat} {ids : List UInt32} (h : Numbered lo hi ids) (hlt : hi - lo ≤ 2 ^ 32) :
    ids.Nodup := by
  obtain ⟨js, rfl, hnodup, hrange⟩ := h
  refine hnodup.map_on ?_
  intro j hj k hk heq
  have h1 := hrange j hj
  have h2 := hrange k hk
  have hmod := congrArg UInt32.toNat heq
  simp only [UInt32.toNat_ofNat'] at hmod
  omega

theorem ids_withId (id : UInt32) (node : AstNode) : ∃ rest, node.ids = node.id :: rest ∧
    (node.withId id).ids = id :: rest := by
  cases node with
  | leaf _ value => exact ⟨[], rfl, rfl⟩
  | binOp _ op left right => exact ⟨_, rfl, rfl⟩
  | substr _ string pos len => exact ⟨_, rfl, rfl⟩
  | length _ string => exact ⟨_, rfl, rfl⟩

/-! ## The parser -/

/-- From one state of the parser to another one: arguments are used up, no fewer than numbers, and with a number at
least one. -/
structure Forward (p p' : Parser) : Prop where
  ids : p.nextId ≤ p'.nextId
  rest : p'.nextId + p'.rest.length ≤ p.nextId + p.rest.length

theorem Forward.refl (p : Parser) : Forward p p := ⟨Nat.le_refl _, Nat.le_refl _⟩

theorem Forward.trans {p p' p'' : Parser} (h : Forward p p') (h' : Forward p' p'') : Forward p p'' :=
  ⟨Nat.le_trans h.ids h'.ids, Nat.le_trans h'.rest h.rest⟩

/-- A node was parsed, with numbers from `lo` on. -/
structure Parsed (lo : Nat) (p : Parser) (node : AstNode) (p' : Parser) : Prop where
  forward : Forward p p'
  numbered : Numbered lo p'.nextId node.ids

namespace Parser

/-- An argument is taken. -/
def Took (p p' : Parser) : Prop := p'.nextId = p.nextId ∧ p'.rest.length + 1 = p.rest.length

theorem Took.forward {p p' : Parser} (h : Took p p') : Forward p p' := by
  obtain ⟨hid, hrest⟩ := h
  exact ⟨by omega, by omega⟩

theorem next_ends (p : Parser) : Ends next p fun _ p' => Took p p' := by
  cases hrest : p.rest with
  | nil =>
    have h : next p = throw (.missingArgument (Utf8.lossy p.last)) := by simp only [next, hrest]
    exact ends_error h
  | cons token rest =>
    have h : next p = pure (token, { p with rest := rest, last := token }) := by simp only [next, hrest]
    exact ends_ok h ⟨rfl, by rw [hrest]; rfl⟩

theorem closeParenthesis_ends (p : Parser) : Ends closeParenthesis p fun _ p' => Took p p' := by
  cases hrest : p.rest with
  | nil =>
    have h : closeParenthesis p = throw (.expectedClosingBraceAfter (Utf8.lossy p.last)) := by
      simp only [closeParenthesis, hrest]
    exact ends_error h
  | cons token rest =>
    by_cases htoken : token = Utf8.utf8 ")"
    · have h : closeParenthesis p = pure ((), { p with rest := rest, last := token }) := by
        simp only [closeParenthesis, hrest, if_pos htoken]
      exact ends_ok h ⟨rfl, by rw [hrest]; rfl⟩
    · have h : closeParenthesis p = throw (.expectedClosingBraceInsteadOf (Utf8.lossy token)) := by
        simp only [closeParenthesis, hrest, if_neg htoken]
      exact ends_error h

theorem parseOp_ends (ops : List (MaybeNonUtf8String × BinOp)) (p : Parser) :
    Ends (parseOp ops) p fun op p' => if op.isSome then Took p p' else p' = p := by
  cases hrest : p.rest with
  | nil =>
    have h : parseOp ops p = pure (none, p) := by simp only [parseOp, hrest]
    exact ends_ok h (by simp)
  | cons token rest =>
    cases hop : ops.lookup token with
    | none =>
      have h : parseOp ops p = pure (none, p) := by simp only [parseOp, hrest, hop]
      exact ends_ok h (by simp)
    | some op =>
      have h : parseOp ops p = pure (some op, { p with rest := rest, last := token }) := by
        simp only [parseOp, hrest, hop]
      exact ends_ok h (by simp [Took, hrest])

theorem getNextId_ends (p : Parser) : Ends getNextId p fun id p' =>
    id = UInt32.ofNat p.nextId ∧ p' = { p with nextId := p.nextId + 1 } := ends_ok rfl ⟨rfl, rfl⟩

end Parser

theorem Parsed.rest_lt {p p' : Parser} {node : AstNode} (h : Parsed p.nextId p node p') :
    p'.rest.length < p.rest.length := by
  obtain ⟨⟨hid, hrest⟩, js, hids, -, hrange⟩ := h
  obtain ⟨tail, hnode, -⟩ := ids_withId 0 node
  cases js with
  | nil =>
    rw [hnode] at hids
    cases hids
  | cons j js =>
    have := hrange j List.mem_cons_self
    omega

/-- A node gets the next number, and an argument was taken for it. -/
theorem Parsed.ofNext {lo : Nat} {p p₁ p' : Parser} {node : AstNode} {ids : List UInt32} (htook : Parser.Took p p₁)
    (hforward : Forward p₁ p') (hnode : node.ids = UInt32.ofNat p'.nextId :: ids) (hids : Numbered lo p'.nextId ids)
    (hlo : lo ≤ p'.nextId) : Parsed lo p node { p' with nextId := p'.nextId + 1 } := by
  obtain ⟨hid, hrest⟩ := htook
  obtain ⟨hid', hrest'⟩ := hforward
  refine ⟨⟨?_, ?_⟩, ?_⟩
  · simp only
    omega
  · simp only
    omega
  · rw [hnode]
    exact hids.next hlo

theorem numbered_nil (lo hi : Nat) : Numbered lo hi [] := ⟨[], rfl, List.nodup_nil, fun _ h => by cases h⟩

namespace Parser

/-- Enough turns for an expression, for more operators and for a simple expression. -/
def Enough (turns : Nat) : Prop :=
  (∀ (ops : List (List (MaybeNonUtf8String × BinOp))) (p : Parser), ops.length ≤ 6 →
    8 * p.rest.length + 2 + ops.length ≤ turns →
      Ends (parsePrecedence turns ops) p fun node p' => Parsed p.nextId p node p') ∧
  (∀ (ops : List (MaybeNonUtf8String × BinOp)) (stronger : List (List (MaybeNonUtf8String × BinOp))) (left : AstNode)
    (lo : Nat) (p : Parser), stronger.length ≤ 6 → 8 * p.rest.length + 3 ≤ turns → lo ≤ p.nextId →
      Numbered lo p.nextId left.ids → Ends (parseOps turns ops stronger left) p fun node p' => Parsed lo p node p') ∧
  ∀ p : Parser, 8 * p.rest.length + 1 ≤ turns →
    Ends (parseSimpleExpression turns) p fun node p' => Parsed p.nextId p node p'

theorem parsePrecedence_ends {turns : Nat} (ih : Enough turns) (ops : List (List (MaybeNonUtf8String × BinOp)))
    (p : Parser) (hops : ops.length ≤ 6) (hturns : 8 * p.rest.length + 2 + ops.length ≤ turns + 1) :
    Ends (parsePrecedence (turns + 1) ops) p fun node p' => Parsed p.nextId p node p' := by
  obtain ⟨ihPrecedence, ihOps, ihSimple⟩ := ih
  cases ops with
  | nil =>
    rw [parsePrecedence]
    apply ihSimple
    rw [List.length_nil] at hturns
    omega
  | cons ops stronger =>
    rw [List.length_cons] at hops hturns
    rw [parsePrecedence]
    apply (ihPrecedence stronger p (by omega) (by omega)).andThen
    intro left p₁ hleft
    have := hleft.rest_lt
    apply (ihOps ops stronger left p.nextId p₁ (by omega) (by omega) hleft.forward.ids hleft.numbered).mono
    intro node p' hnode
    exact ⟨hleft.forward.trans hnode.forward, hnode.numbered⟩

theorem parseOps_ends {turns : Nat} (ih : Enough turns) (ops : List (MaybeNonUtf8String × BinOp))
    (stronger : List (List (MaybeNonUtf8String × BinOp))) (left : AstNode) (lo : Nat) (p : Parser)
    (hstronger : stronger.length ≤ 6) (hturns : 8 * p.rest.length + 3 ≤ turns + 1) (hlo : lo ≤ p.nextId)
    (hleft : Numbered lo p.nextId left.ids) :
    Ends (parseOps (turns + 1) ops stronger left) p fun node p' => Parsed lo p node p' := by
  obtain ⟨ihPrecedence, ihOps, -⟩ := ih
  rw [parseOps]
  apply (parseOp_ends ops p).andThen
  intro op p₁ hop
  cases op with
  | none =>
    obtain rfl : p₁ = p := by simpa using hop
    exact ends_pure ⟨Forward.refl p₁, hleft⟩
  | some op =>
    have htook : Took p p₁ := by simpa using hop
    have hid := htook.1
    have hlen := htook.2
    simp only
    apply (ihPrecedence stronger p₁ hstronger (by omega)).andThen
    intro right p₂ hright
    apply (getNextId_ends p₂).andThen
    rintro id p₃ ⟨rfl, rfl⟩
    have hrest := hright.rest_lt
    rw [← hid] at hleft
    have hboth := hleft.append hright.numbered (by omega) hright.forward.ids
    have hnode : Parsed lo p (.binOp (UInt32.ofNat p₂.nextId) op left right) { p₂ with nextId := p₂.nextId + 1 } :=
      Parsed.ofNext htook hright.forward rfl hboth (Nat.le_trans (by omega) hright.forward.ids)
    apply (ihOps ops stronger _ lo _ hstronger (by simp only; omega) (Nat.le_trans hlo hnode.forward.ids)
      hnode.numbered).mono
    intro node p' hmore
    exact ⟨hnode.forward.trans hmore.forward, hmore.numbered⟩

theorem parseSimpleExpression_ends {turns : Nat} (ih : Enough turns) (p : Parser)
    (hturns : 8 * p.rest.length + 1 ≤ turns + 1) :
    Ends (parseSimpleExpression (turns + 1)) p fun node p' => Parsed p.nextId p node p' := by
  obtain ⟨ihPrecedence, -, ihSimple⟩ := ih
  rw [parseSimpleExpression]
  apply (next_ends p).andThen
  intro first p₁ htook
  have hid := htook.1
  have hlen := htook.2
  -- the argument that was taken leaves a turn for every node below
  have hsimple : ∀ p₂, p₂.rest.length ≤ p₁.rest.length →
      Ends (parseSimpleExpression turns) p₂ fun node p' => Parsed p₂.nextId p₂ node p' :=
    fun p₂ hle => ihSimple p₂ (by omega)
  have hfinish : ∀ (make : UInt32 → AstNode) (ids : List UInt32) (p₂ : Parser), (∀ id, (make id).ids = id :: ids) →
      Forward p₁ p₂ → Numbered p₁.nextId p₂.nextId ids →
      Ends (do return make (← getNextId)) p₂ fun node p' => Parsed p.nextId p node p' := by
    intro make ids p₂ hmake hforward hids
    apply (getNextId_ends p₂).andThen
    rintro id p₃ ⟨rfl, rfl⟩
    rw [hid] at hids
    exact ends_pure (Parsed.ofNext htook hforward (hmake _) hids (hid ▸ hforward.ids))
  have htwo : ∀ op, Ends (do
      let left ← parseSimpleExpression turns
      let right ← parseSimpleExpression turns
      return .binOp (← getNextId) op left right) p₁ fun node p' => Parsed p.nextId p node p' := by
    intro op
    apply (hsimple p₁ (Nat.le_refl _)).andThen
    intro left p₂ hleft
    have h₂ := hleft.rest_lt
    apply (hsimple p₂ (by omega)).andThen
    intro right p₃ hright
    exact hfinish (.binOp · op left right) _ p₃ (fun _ => rfl) (hleft.forward.trans hright.forward)
      (hleft.numbered.append hright.numbered hleft.forward.ids hright.forward.ids)
  split
  · exact htwo _
  · split
    · apply (hsimple p₁ (Nat.le_refl _)).andThen
      intro string p₂ hstring
      have h₂ := hstring.rest_lt
      apply (hsimple p₂ (by omega)).andThen
      intro pos p₃ hpos
      have h₃ := hpos.rest_lt
      apply (hsimple p₃ (by omega)).andThen
      intro len p₄ hlength
      have hrest := hpos.forward.trans hlength.forward
      exact hfinish (.substr · string pos len) _ p₄ (fun _ => rfl) (hstring.forward.trans hrest)
        (hstring.numbered.append (hpos.numbered.append hlength.numbered hpos.forward.ids hlength.forward.ids)
          hstring.forward.ids hrest.ids)
    · split
      · exact htwo _
      · split
        · apply (hsimple p₁ (Nat.le_refl _)).andThen
          intro string p₂ hstring
          exact hfinish (.length · string) _ p₂ (fun _ => rfl) hstring.forward hstring.numbered
        · split
          · apply (next_ends p₁).andThen
            intro value p₂ hvalue
            exact hfinish (.leaf · value) [] p₂ (fun _ => rfl) hvalue.forward (numbered_nil _ _)
          · split
            · apply (ihPrecedence precedence p₁ (by decide) (by rw [show precedence.length = 6 from rfl]; omega)).andThen
              intro inner p₂ hinner
              apply (closeParenthesis_ends p₂).andThen
              intro _ p₃ hclose
              obtain ⟨ids, hids, -⟩ := ids_withId 0 inner
              have hnumbered := hinner.numbered
              rw [hids, ← hclose.1] at hnumbered
              exact hfinish (inner.withId ·) ids p₃ (fun id => by
                obtain ⟨ids', hids', hwith⟩ := ids_withId id inner
                rw [hids'] at hids
                rw [hwith, (List.cons.inj hids).2]) (hinner.forward.trans hclose.forward) hnumbered.tail
            · exact hfinish (.leaf · first) [] p₁ (fun _ => rfl) (Forward.refl p₁) (numbered_nil _ _)

theorem enough (turns : Nat) : Enough turns := by
  induction turns with
  | zero => exact ⟨fun _ _ _ h => absurd h (by omega), fun _ _ _ _ _ _ h => absurd h (by omega),
      fun _ h => absurd h (by omega)⟩
  | succ turns ih => exact ⟨parsePrecedence_ends ih, parseOps_ends ih, parseSimpleExpression_ends ih⟩

end Parser

/-- The parser comes to an end, and the numbers of its tree are distinct. -/
theorem parse_ends (input : List MaybeNonUtf8String) (nextId : Nat) : ∃ r, AstNode.parse input nextId = some r ∧
    ∀ tree, r = .ok tree → input.length < 2 ^ 32 → tree.ids.Nodup := by
  unfold AstNode.parse
  split
  · exact ⟨_, rfl, fun _ h => by cases h⟩
  · have hprecedence := (Parser.enough (parseTurns input)).1 Parser.precedence ⟨input, [], nextId⟩ (by decide)
      (by rw [show Parser.precedence.length = 6 from rfl, parseTurns]; simp only; omega)
    have hall : Ends (Parser.parseAll (parseTurns input)) ⟨input, [], nextId⟩ fun node p' =>
        Parsed nextId ⟨input, [], nextId⟩ node p' := by
      unfold Parser.parseAll
      apply hprecedence.andThen
      intro node p' hnode
      apply ends_bind
      refine ends_ok rfl ?_
      split
      · exact ends_throw _
      · exact ends_pure hnode
    unfold Ends at hall
    generalize ((Parser.parseAll (parseTurns input)).run ⟨input, [], nextId⟩).run = r at hall
    cases r with
    | none => exact absurd hall id
    | some r =>
      refine ⟨_, rfl, fun tree htree hlt => ?_⟩
      cases r with
      | error e => cases htree
      | ok r =>
        obtain ⟨node, p'⟩ := r
        obtain rfl : node = tree := by injection htree
        obtain ⟨⟨-, hrest⟩, hnumbered⟩ := hall
        simp only at hrest
        exact hnumbered.nodup (by omega)

end Peiosutils.Expr
