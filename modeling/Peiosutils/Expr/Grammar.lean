import Peiosutils.Expr.Cursor

/-!
# The grammar of expressions

Sentences of simple expressions and of expressions with operators by precedence, which are left-associative, with their
trees (`Sentence`). The parser gives a tree for sentences only (`sound`), and for each of them its tree (`complete`), so
that the result is a tree exactly if the arguments are a sentence (`parse_sentence`).
-/

set_option autoImplicit false

namespace Peiosutils.Expr

open Utf8
open Outcomes (outcome Yields Succeeds yields_ok yields_error yields_none yields_pure succeeds_ok succeeds_pure)

/-! ## Sentences -/

/-- The meaning of a sentence: a node without its number. -/
inductive Tree where
  | leaf (value : MaybeNonUtf8String)
  | binOp (opType : BinOp) (left right : Tree)
  | substr (string pos length : Tree)
  | length (string : Tree)
  deriving DecidableEq

def AstNode.tree : AstNode → Tree
  | leaf _ value => .leaf value
  | binOp _ opType left right => .binOp opType left.tree right.tree
  | substr _ string pos len => .substr string.tree pos.tree len.tree
  | length _ string => .length string.tree

/-- Operators with their spellings, the weakest level first. -/
abbrev Levels := List (List (MaybeNonUtf8String × BinOp))

/-- A simple expression, or an expression with the operators of some levels. -/
inductive Category where
  | simple
  | expression (levels : Levels)

/-- What starts a form of its own. -/
def keywords : List MaybeNonUtf8String :=
  [utf8 "match", utf8 "substr", utf8 "index", utf8 "length", utf8 "+", utf8 "("]

inductive Sentence : Category → List MaybeNonUtf8String → Tree → Prop
  | simple {ts : List MaybeNonUtf8String} {t : Tree} (h : Sentence .simple ts t) : Sentence (.expression []) ts t
  | operand {ops : List (MaybeNonUtf8String × BinOp)} {stronger : Levels} {ts : List MaybeNonUtf8String} {t : Tree}
      (h : Sentence (.expression stronger) ts t) : Sentence (.expression (ops :: stronger)) ts t
  | binOp {ops : List (MaybeNonUtf8String × BinOp)} {stronger : Levels} {ts ts' : List MaybeNonUtf8String}
      {left right : Tree} {token : MaybeNonUtf8String} {op : BinOp}
      (h : Sentence (.expression (ops :: stronger)) ts left) (hop : (token, op) ∈ ops)
      (h' : Sentence (.expression stronger) ts' right) :
      Sentence (.expression (ops :: stronger)) (ts ++ token :: ts') (.binOp op left right)
  | token {value : MaybeNonUtf8String} (h : value ∉ keywords) : Sentence .simple [value] (.leaf value)
  | quoted (value : MaybeNonUtf8String) : Sentence .simple [utf8 "+", value] (.leaf value)
  | parenthesis {ts : List MaybeNonUtf8String} {t : Tree} (h : Sentence (.expression Parser.precedence) ts t) :
      Sentence .simple (utf8 "(" :: (ts ++ [utf8 ")"])) t
  | matched {ts ts' : List MaybeNonUtf8String} {left right : Tree} (h : Sentence .simple ts left)
      (h' : Sentence .simple ts' right) :
      Sentence .simple (utf8 "match" :: (ts ++ ts')) (.binOp (.string .match) left right)
  | index {ts ts' : List MaybeNonUtf8String} {left right : Tree} (h : Sentence .simple ts left)
      (h' : Sentence .simple ts' right) :
      Sentence .simple (utf8 "index" :: (ts ++ ts')) (.binOp (.string .index) left right)
  | substr {ts ts' ts'' : List MaybeNonUtf8String} {string pos len : Tree} (h : Sentence .simple ts string)
      (h' : Sentence .simple ts' pos) (h'' : Sentence .simple ts'' len) :
      Sentence .simple (utf8 "substr" :: (ts ++ (ts' ++ ts''))) (.substr string pos len)
  | length {ts : List MaybeNonUtf8String} {string : Tree} (h : Sentence .simple ts string) :
      Sentence .simple (utf8 "length" :: ts) (.length string)

theorem tree_withId (id : UInt32) (node : AstNode) : (node.withId id).tree = node.tree := by
  cases node <;> rfl

/-! ## What is parsed is a sentence -/

section Sound

/-- A sentence was taken from the arguments. -/
def Took (category : Category) (p : Parser) (node : AstNode) (p' : Parser) : Prop :=
  ∃ ts, p.rest = ts ++ p'.rest ∧ Sentence category ts node.tree

theorem yields_next (p : Parser) : Yields Parser.next p fun token p' => p.rest = token :: p'.rest := by
  cases hrest : p.rest with
  | nil => exact yields_error (outcome_next_nil hrest)
  | cons token rest => exact yields_ok (outcome_next hrest) rfl

theorem yields_closeParenthesis (p : Parser) :
    Yields Parser.closeParenthesis p fun _ p' => p.rest = utf8 ")" :: p'.rest := by
  cases hrest : p.rest with
  | nil => exact yields_error (outcome_closeParenthesis_nil hrest)
  | cons token rest =>
    by_cases htoken : token = utf8 ")"
    · subst htoken
      exact yields_ok (outcome_closeParenthesis hrest) rfl
    · exact yields_error (outcome_closeParenthesis_other hrest htoken)

theorem yields_parseOp (ops : List (MaybeNonUtf8String × BinOp)) (p : Parser) :
    Yields (Parser.parseOp ops) p fun found p' => (found = none → p' = p) ∧
      ∀ op, found = some op → ∃ token, p.rest = token :: p'.rest ∧ (token, op) ∈ ops := by
  by_cases h : ∀ token ∈ p.rest.head?, ops.lookup token = none
  · exact yields_ok (outcome_parseOp_none h) ⟨fun _ => rfl, fun op hop => by cases hop⟩
  · simp only [not_forall] at h
    obtain ⟨token, htoken, hlookup⟩ := h
    obtain ⟨rest, hrest⟩ := List.head?_eq_some_iff.1 htoken
    obtain ⟨op, hop⟩ := Option.ne_none_iff_exists'.1 hlookup
    refine yields_ok (outcome_parseOp_some hrest hop) ⟨(fun h => by cases h), ?_⟩
    intro op' hop'
    cases hop'
    obtain ⟨l₁, l₂, hl, -⟩ := List.lookup_eq_some_iff.1 hop
    exact ⟨token, hrest, by rw [hl]; exact List.mem_append_right _ List.mem_cons_self⟩

/-- A node gets its number, and nothing is taken. -/
theorem yields_node (make : UInt32 → AstNode) (t : Tree) (hmake : ∀ id, (make id).tree = t) (p : Parser) :
    Yields (do return make (← Parser.getNextId)) p fun node p' => node.tree = t ∧ p'.rest = p.rest :=
  (yields_ok (Q := fun _ p' => p'.rest = p.rest) (m := Parser.getNextId) rfl rfl).andThen fun id _ hrest =>
    yields_pure ⟨hmake id, hrest⟩

/-- Whatever the turns: what is parsed is a sentence. -/
structure Sound (turns : Nat) : Prop where
  precedence : ∀ levels p, Yields (Parser.parsePrecedence turns levels) p (Took (.expression levels) p)
  ops : ∀ ops stronger left ts p, Sentence (.expression (ops :: stronger)) ts left.tree →
    Yields (Parser.parseOps turns ops stronger left) p fun node p' =>
      ∃ ts', p.rest = ts' ++ p'.rest ∧ Sentence (.expression (ops :: stronger)) (ts ++ ts') node.tree
  simple : ∀ p, Yields (Parser.parseSimpleExpression turns) p (Took .simple p)

theorem sound_ops {turns : Nat} (ih : Sound turns) (ops : List (MaybeNonUtf8String × BinOp)) (stronger : Levels)
    (left : AstNode) (ts : List MaybeNonUtf8String) (p : Parser)
    (h : Sentence (.expression (ops :: stronger)) ts left.tree) :
    Yields (Parser.parseOps (turns + 1) ops stronger left) p fun node p' =>
      ∃ ts', p.rest = ts' ++ p'.rest ∧ Sentence (.expression (ops :: stronger)) (ts ++ ts') node.tree := by
  rw [Parser.parseOps]
  refine (yields_parseOp ops p).andThen fun found p₁ hfound => ?_
  cases found with
  | none =>
    rw [hfound.1 rfl]
    exact yields_pure ⟨[], rfl, by rwa [List.append_nil]⟩
  | some op =>
    obtain ⟨token, hrest, hop⟩ := hfound.2 op rfl
    refine (ih.precedence stronger p₁).andThen fun right p₂ hright => ?_
    obtain ⟨ts₁, hrest₁, hright⟩ := hright
    refine (yields_ok (Q := fun _ p' => p'.rest = p₂.rest) (m := Parser.getNextId) rfl rfl).andThen
      fun id p₃ hrest₂ => ?_
    have hnode := ih.ops ops stronger (.binOp id op left right) (ts ++ token :: ts₁) p₃ (.binOp h hop hright)
    intro node p' heq
    obtain ⟨ts', hrest', hsentence⟩ := hnode node p' heq
    refine ⟨token :: (ts₁ ++ ts'), ?_, ?_⟩
    · rw [hrest, hrest₁, ← hrest₂, hrest', List.cons_append, List.append_assoc]
    · rwa [List.append_assoc, List.cons_append] at hsentence

/-- A simple expression, by its first argument. -/
theorem sound_simple {turns : Nat} (ih : Sound turns) (p : Parser) :
    Yields (Parser.parseSimpleExpression (turns + 1)) p (Took .simple p) := by
  rw [Parser.parseSimpleExpression]
  refine (yields_next p).andThen fun first p₁ hfirst => ?_
  have htwo : ∀ op, (∀ {ts ts' : List MaybeNonUtf8String} {left right : Tree}, Sentence .simple ts left →
      Sentence .simple ts' right → Sentence .simple (first :: (ts ++ ts')) (.binOp op left right)) →
      Yields (do
        let left ← Parser.parseSimpleExpression turns
        let right ← Parser.parseSimpleExpression turns
        return AstNode.binOp (← Parser.getNextId) op left right) p₁ (Took .simple p) := by
    intro op hform
    refine (ih.simple p₁).andThen fun left p₂ hleft => (ih.simple p₂).andThen fun right p₃ hright => ?_
    obtain ⟨ts, hrest, hleft⟩ := hleft
    obtain ⟨ts', hrest', hright⟩ := hright
    intro node p' heq
    obtain ⟨htree, hend⟩ := yields_node (.binOp · op left right) _ (fun _ => rfl) p₃ node p' heq
    refine ⟨first :: (ts ++ ts'), ?_, htree ▸ hform hleft hright⟩
    rw [hfirst, hrest, hrest', hend, List.cons_append, List.append_assoc]
  split
  · rename_i hmatch
    exact htwo _ fun h h' => hmatch ▸ .matched h h'
  split
  · rename_i hsubstr
    refine (ih.simple p₁).andThen fun string p₂ hstring => (ih.simple p₂).andThen fun pos p₃ hpos =>
      (ih.simple p₃).andThen fun len p₄ hlen => ?_
    obtain ⟨ts, hrest, hstring⟩ := hstring
    obtain ⟨ts', hrest', hpos⟩ := hpos
    obtain ⟨ts'', hrest'', hlen⟩ := hlen
    intro node p' heq
    obtain ⟨htree, hend⟩ := yields_node (.substr · string pos len) _ (fun _ => rfl) p₄ node p' heq
    refine ⟨first :: (ts ++ (ts' ++ ts'')), ?_, htree ▸ hsubstr ▸ .substr hstring hpos hlen⟩
    rw [hfirst, hrest, hrest', hrest'', hend, List.cons_append, List.append_assoc, List.append_assoc]
  split
  · rename_i hindex
    exact htwo _ fun h h' => hindex ▸ .index h h'
  split
  · rename_i hlength
    refine (ih.simple p₁).andThen fun string p₂ hstring => ?_
    obtain ⟨ts, hrest, hstring⟩ := hstring
    intro node p' heq
    obtain ⟨htree, hend⟩ := yields_node (.length · string) _ (fun _ => rfl) p₂ node p' heq
    refine ⟨first :: ts, ?_, htree ▸ hlength ▸ .length hstring⟩
    rw [hfirst, hrest, hend, List.cons_append]
  split
  · rename_i hplus
    refine (yields_next p₁).andThen fun value p₂ hvalue => ?_
    intro node p' heq
    obtain ⟨htree, hend⟩ := yields_node (.leaf · value) _ (fun _ => rfl) p₂ node p' heq
    refine ⟨[first, value], ?_, htree ▸ hplus ▸ .quoted value⟩
    rw [hfirst, hvalue, hend]
    rfl
  split
  · rename_i hparen
    refine (ih.precedence Parser.precedence p₁).andThen fun inner p₂ hinner =>
      (yields_closeParenthesis p₂).andThen fun _ p₃ hclose => ?_
    obtain ⟨ts, hrest, hinner⟩ := hinner
    intro node p' heq
    obtain ⟨htree, hend⟩ := yields_node inner.withId _ (fun id => tree_withId id inner) p₃ node p' heq
    refine ⟨first :: (ts ++ [utf8 ")"]), ?_, htree ▸ hparen ▸ .parenthesis hinner⟩
    rw [hfirst, hrest, hclose, hend, List.cons_append, List.append_assoc]
    rfl
  · intro node p' heq
    obtain ⟨htree, hend⟩ := yields_node (.leaf · first) _ (fun _ => rfl) p₁ node p' heq
    refine ⟨[first], ?_, htree ▸ .token ?_⟩
    · rw [hfirst, hend]
      rfl
    · simp_all [keywords]

theorem sound (turns : Nat) : Sound turns := by
  induction turns with
  | zero => exact ⟨fun _ _ => yields_none rfl, fun _ _ _ _ _ _ => yields_none rfl, fun _ => yields_none rfl⟩
  | succ turns ih =>
    refine ⟨fun levels p => ?_, sound_ops ih, sound_simple ih⟩
    cases levels with
    | nil =>
      intro node p' heq
      rw [Parser.parsePrecedence] at heq
      obtain ⟨ts, hrest, h⟩ := ih.simple p node p' heq
      exact ⟨ts, hrest, .simple h⟩
    | cons ops stronger =>
      rw [Parser.parsePrecedence]
      refine (ih.precedence stronger p).andThen fun left p₁ hleft => ?_
      obtain ⟨ts, hrest, hleft⟩ := hleft
      intro node p' heq
      obtain ⟨ts', hrest', h⟩ := ih.ops ops stronger left ts p₁ (.operand hleft) node p' heq
      exact ⟨ts ++ ts', by rw [hrest, hrest', List.append_assoc], h⟩

end Sound

/-! ## Sentences are parsed -/

section Complete

/-- The spellings of the operators of some levels. -/
def spellings (levels : Levels) : List MaybeNonUtf8String := levels.flatten.map Prod.fst

theorem spellings_cons (ops : List (MaybeNonUtf8String × BinOp)) (stronger : Levels) :
    spellings (ops :: stronger) = ops.map Prod.fst ++ spellings stronger := by
  rw [spellings, List.flatten_cons, List.map_append, spellings]

/-- An operand, and what the operators of a level make of it. -/
inductive Chain (ops : List (MaybeNonUtf8String × BinOp)) (stronger : Levels) :
    Tree → List MaybeNonUtf8String → Tree → Prop
  | done (t : Tree) : Chain ops stronger t [] t
  | more {left right t : Tree} {token : MaybeNonUtf8String} {op : BinOp} {ts ts' : List MaybeNonUtf8String}
      (hop : (token, op) ∈ ops) (h : Sentence (.expression stronger) ts right)
      (h' : Chain ops stronger (.binOp op left right) ts' t) : Chain ops stronger left (token :: (ts ++ ts')) t

theorem Chain.snoc {ops : List (MaybeNonUtf8String × BinOp)} {stronger : Levels} {first left right : Tree}
    {token : MaybeNonUtf8String} {op : BinOp} {ts ts' : List MaybeNonUtf8String} (h : Chain ops stronger first ts left)
    (hop : (token, op) ∈ ops) (h' : Sentence (.expression stronger) ts' right) :
    Chain ops stronger first (ts ++ token :: ts') (.binOp op left right) := by
  induction h with
  | done t =>
    have hend := Chain.more hop h' (.done (.binOp op t right))
    rwa [List.append_nil] at hend
  | @more left' right' t token' op' ts ts'' hop' hright hchain ih =>
    have hmore := Chain.more hop' hright ih
    rwa [List.cons_append, List.append_assoc]

/-- A left-associative expression is an operand with a chain of operators. -/
theorem Sentence.chain {ops : List (MaybeNonUtf8String × BinOp)} {stronger : Levels} {ts : List MaybeNonUtf8String}
    {t : Tree} (h : Sentence (.expression (ops :: stronger)) ts t) : ∃ ts₁ ts₂ first, ts = ts₁ ++ ts₂ ∧
      Sentence (.expression stronger) ts₁ first ∧ Chain ops stronger first ts₂ t := by
  generalize hcategory : Category.expression (ops :: stronger) = category at h
  induction h with
  | @operand ops' stronger' ts t h _ =>
    cases hcategory
    exact ⟨ts, [], t, (List.append_nil ts).symm, h, .done t⟩
  | @binOp ops' stronger' ts ts' left right token op h hop h' ih _ =>
    cases hcategory
    obtain ⟨ts₁, ts₂, first, rfl, hfirst, hchain⟩ := ih rfl
    exact ⟨ts₁, ts₂ ++ token :: ts', first, List.append_assoc _ _ _, hfirst, hchain.snoc hop h'⟩
  | _ => cases hcategory

/-- With one entry for a spelling the entry is found. -/
theorem lookup_of_mem {ops : List (MaybeNonUtf8String × BinOp)} (hnodup : (ops.map Prod.fst).Nodup)
    {token : MaybeNonUtf8String} {op : BinOp} (h : (token, op) ∈ ops) : ops.lookup token = some op := by
  obtain ⟨l₁, l₂, rfl⟩ := List.append_of_mem h
  refine List.lookup_eq_some_iff.2 ⟨l₁, l₂, rfl, fun e he => ?_⟩
  rw [List.map_append, List.nodup_append] at hnodup
  exact bne_iff_ne.2 fun heq => hnodup.2.2 e.1 (List.mem_map_of_mem he) token (by simp) heq.symm

theorem lookup_eq_none {ops : List (MaybeNonUtf8String × BinOp)} {token : MaybeNonUtf8String}
    (h : token ∉ ops.map Prod.fst) : ops.lookup token = none := by
  cases hlookup : ops.lookup token with
  | none => rfl
  | some op =>
    obtain ⟨l₁, l₂, hl, -⟩ := List.lookup_eq_some_iff.1 hlookup
    exact absurd (by rw [hl]; simp) h

/-- A node for the sentence was made, and the rest is left. -/
def Made (t : Tree) (rest : List MaybeNonUtf8String) (node : AstNode) (p' : Parser) : Prop :=
  node.tree = t ∧ p'.rest = rest

/-- Whatever the turns: a sentence is parsed, if no operator follows that would go on with it. -/
structure Complete (turns : Nat) : Prop where
  precedence : ∀ levels ts t rest p, (spellings levels).Nodup → Sentence (.expression levels) ts t →
    p.rest = ts ++ rest → (∀ token ∈ rest.head?, token ∉ spellings levels) →
      Succeeds (Parser.parsePrecedence turns levels) p (Made t rest)
  ops : ∀ ops stronger left ts t rest p, (spellings (ops :: stronger)).Nodup → Chain ops stronger left.tree ts t →
    p.rest = ts ++ rest → (∀ token ∈ rest.head?, token ∉ spellings (ops :: stronger)) →
      Succeeds (Parser.parseOps turns ops stronger left) p (Made t rest)
  simple : ∀ ts t rest p, Sentence .simple ts t → p.rest = ts ++ rest →
    Succeeds (Parser.parseSimpleExpression turns) p (Made t rest)

theorem succeeds_next {p : Parser} {token : MaybeNonUtf8String} {rest : List MaybeNonUtf8String}
    (h : p.rest = token :: rest) : Succeeds Parser.next p fun first p' => first = token ∧ p'.rest = rest :=
  succeeds_ok (outcome_next h) ⟨rfl, rfl⟩

theorem succeeds_node (make : UInt32 → AstNode) {t : Tree} (hmake : ∀ id, (make id).tree = t) {p : Parser}
    {rest : List MaybeNonUtf8String} (h : p.rest = rest) :
    Succeeds (do return make (← Parser.getNextId)) p (Made t rest) :=
  (succeeds_ok (Q := fun _ p' => p'.rest = rest) (m := Parser.getNextId) rfl h).andThen fun id _ hrest =>
    succeeds_pure ⟨hmake id, hrest⟩

/-- No operator of the stronger levels goes on with an operand of a chain. -/
theorem Chain.head {ops : List (MaybeNonUtf8String × BinOp)} {stronger : Levels} {left t : Tree}
    {ts rest : List MaybeNonUtf8String} (h : Chain ops stronger left ts t)
    (hnodup : (spellings (ops :: stronger)).Nodup) (hrest : ∀ token ∈ rest.head?, token ∉ spellings (ops :: stronger)) :
    ∀ token ∈ (ts ++ rest).head?, token ∉ spellings stronger := by
  rw [spellings_cons] at hnodup hrest
  cases h with
  | done => exact fun token htoken hmem => hrest token htoken (List.mem_append_right _ hmem)
  | more hop =>
    rintro token htoken hmem
    cases htoken
    exact (List.nodup_append.1 hnodup).2.2 _ (List.mem_map_of_mem hop) _ hmem rfl

theorem complete_ops {turns : Nat} (ih : Complete turns) (ops : List (MaybeNonUtf8String × BinOp)) (stronger : Levels)
    (left : AstNode) (ts : List MaybeNonUtf8String) (t : Tree) (rest : List MaybeNonUtf8String) (p : Parser)
    (hnodup : (spellings (ops :: stronger)).Nodup) (h : Chain ops stronger left.tree ts t) (hp : p.rest = ts ++ rest)
    (hrest : ∀ token ∈ rest.head?, token ∉ spellings (ops :: stronger)) :
    Succeeds (Parser.parseOps (turns + 1) ops stronger left) p (Made t rest) := by
  rw [Parser.parseOps]
  have hsplit := hnodup
  rw [spellings_cons] at hsplit
  generalize htree : left.tree = first at h
  cases h with
  | done =>
    have hnone : outcome (Parser.parseOp ops) p = some (.ok (none, p)) := by
      refine outcome_parseOp_none fun token htoken => lookup_eq_none fun hmem => ?_
      rw [hp] at htoken
      exact hrest token htoken (by rw [spellings_cons]; exact List.mem_append_left _ hmem)
    rw [Succeeds, Outcomes.outcome_bind_ok hnone]
    exact succeeds_pure ⟨htree, hp⟩
  | @more _ right _ token op ts ts' hop hright hchain =>
    rw [List.cons_append, List.append_assoc] at hp
    have hfound := lookup_of_mem (List.nodup_append.1 hsplit).1 hop
    rw [Succeeds, Outcomes.outcome_bind_ok (outcome_parseOp_some hp hfound)]
    refine (ih.precedence stronger ts right (ts' ++ rest) _ (List.nodup_append.1 hsplit).2.1 hright rfl
      (hchain.head hnodup hrest)).andThen fun node p₂ hnode => ?_
    refine (succeeds_ok (Q := fun _ p' => p'.rest = ts' ++ rest) (m := Parser.getNextId) rfl hnode.2).andThen
      fun id p₃ hp₃ => ?_
    refine ih.ops ops stronger (.binOp id op left node) ts' t rest p₃ hnodup ?_ hp₃ hrest
    rw [AstNode.tree, htree, hnode.1]
    exact hchain

theorem complete_simple {turns : Nat} (ih : Complete turns) (ts : List MaybeNonUtf8String) (t : Tree)
    (rest : List MaybeNonUtf8String) (p : Parser) (h : Sentence .simple ts t) (hp : p.rest = ts ++ rest) :
    Succeeds (Parser.parseSimpleExpression (turns + 1)) p (Made t rest) := by
  rw [Parser.parseSimpleExpression]
  have htwo : ∀ op {ts ts' : List MaybeNonUtf8String} {left right : Tree} (p₁ : Parser), Sentence .simple ts left →
      Sentence .simple ts' right → p₁.rest = ts ++ ts' ++ rest → Succeeds (do
        let left ← Parser.parseSimpleExpression turns
        let right ← Parser.parseSimpleExpression turns
        return AstNode.binOp (← Parser.getNextId) op left right) p₁ (Made (.binOp op left right) rest) := by
    intro op ts ts' left right p₁ hleft hright hp₁
    rw [List.append_assoc] at hp₁
    refine (ih.simple ts left (ts' ++ rest) p₁ hleft hp₁).andThen fun node p₂ hnode => ?_
    refine (ih.simple ts' right rest p₂ hright hnode.2).andThen fun node' p₃ hnode' => ?_
    exact succeeds_node (.binOp · op node node') (fun _ => by rw [AstNode.tree, hnode.1, hnode'.1]) hnode'.2
  cases h with
  | @token value hvalue =>
    refine (succeeds_next hp).andThen fun first p₁ hfirst => ?_
    obtain ⟨rfl, hp₁⟩ := hfirst
    simp only [keywords, List.mem_cons, List.not_mem_nil, or_false, not_or] at hvalue
    obtain ⟨hmatch, hsubstr, hindex, hlength, hplus, hparen⟩ := hvalue
    rw [if_neg hmatch, if_neg hsubstr, if_neg hindex, if_neg hlength, if_neg hplus, if_neg hparen]
    exact succeeds_node (.leaf · first) (fun _ => rfl) hp₁
  | quoted value =>
    refine (succeeds_next hp).andThen fun first p₁ hfirst => ?_
    obtain ⟨rfl, hp₁⟩ := hfirst
    rw [if_neg (by decide), if_neg (by decide), if_neg (by decide), if_neg (by decide), if_pos rfl]
    refine (succeeds_next hp₁).andThen fun value' p₂ hvalue => ?_
    obtain ⟨rfl, hp₂⟩ := hvalue
    exact succeeds_node (.leaf · value') (fun _ => rfl) hp₂
  | @parenthesis ts t hinner =>
    rw [List.cons_append, List.append_assoc] at hp
    refine (succeeds_next hp).andThen fun first p₁ hfirst => ?_
    obtain ⟨rfl, hp₁⟩ := hfirst
    rw [if_neg (by decide), if_neg (by decide), if_neg (by decide), if_neg (by decide), if_neg (by decide), if_pos rfl]
    refine (ih.precedence Parser.precedence ts t _ p₁ (by decide) hinner hp₁ ?_).andThen fun inner p₂ hinner => ?_
    · rintro token htoken
      cases htoken
      decide
    refine (succeeds_ok (Q := fun _ p' => p'.rest = rest) (outcome_closeParenthesis hinner.2) rfl).andThen
      fun _ p₃ hp₃ => ?_
    exact succeeds_node inner.withId (fun id => (tree_withId id inner).trans hinner.1) hp₃
  | @matched ts ts' left right hleft hright =>
    refine (succeeds_next hp).andThen fun first p₁ hfirst => ?_
    obtain ⟨rfl, hp₁⟩ := hfirst
    rw [if_pos rfl]
    exact htwo _ p₁ hleft hright hp₁
  | @index ts ts' left right hleft hright =>
    refine (succeeds_next hp).andThen fun first p₁ hfirst => ?_
    obtain ⟨rfl, hp₁⟩ := hfirst
    rw [if_neg (by decide), if_neg (by decide), if_pos rfl]
    exact htwo _ p₁ hleft hright hp₁
  | @substr ts ts' ts'' string pos len hstring hpos hlen =>
    rw [List.cons_append, List.append_assoc, List.append_assoc] at hp
    refine (succeeds_next hp).andThen fun first p₁ hfirst => ?_
    obtain ⟨rfl, hp₁⟩ := hfirst
    rw [if_neg (by decide), if_pos rfl]
    refine (ih.simple ts string _ p₁ hstring hp₁).andThen fun node p₂ hnode => ?_
    refine (ih.simple ts' pos _ p₂ hpos hnode.2).andThen fun node' p₃ hnode' => ?_
    refine (ih.simple ts'' len _ p₃ hlen hnode'.2).andThen fun node'' p₄ hnode'' => ?_
    exact succeeds_node (.substr · node node' node'') (fun _ => by rw [AstNode.tree, hnode.1, hnode'.1, hnode''.1])
      hnode''.2
  | @length ts string hstring =>
    refine (succeeds_next hp).andThen fun first p₁ hfirst => ?_
    obtain ⟨rfl, hp₁⟩ := hfirst
    rw [if_neg (by decide), if_neg (by decide), if_neg (by decide), if_pos rfl]
    refine (ih.simple ts string rest p₁ hstring hp₁).andThen fun node p₂ hnode => ?_
    exact succeeds_node (.length · node) (fun _ => by rw [AstNode.tree, hnode.1]) hnode.2

theorem complete (turns : Nat) : Complete turns := by
  induction turns with
  | zero =>
    exact ⟨fun _ _ _ _ _ _ _ _ _ => Or.inl rfl, fun _ _ _ _ _ _ _ _ _ _ _ => Or.inl rfl, fun _ _ _ _ _ _ => Or.inl rfl⟩
  | succ turns ih =>
    refine ⟨fun levels ts t rest p hnodup h hp hrest => ?_, complete_ops ih, complete_simple ih⟩
    cases levels with
    | nil =>
      rw [Parser.parsePrecedence]
      cases h with
      | simple h => exact ih.simple ts t rest p h hp
    | cons ops stronger =>
      rw [Parser.parsePrecedence]
      obtain ⟨ts₁, ts₂, first, rfl, hfirst, hchain⟩ := h.chain
      rw [List.append_assoc] at hp
      have hsplit := hnodup
      rw [spellings_cons] at hsplit
      refine (ih.precedence stronger ts₁ first (ts₂ ++ rest) p (List.nodup_append.1 hsplit).2.1 hfirst hp
        (hchain.head hnodup hrest)).andThen fun left p₁ hleft => ?_
      exact ih.ops ops stronger left ts₂ t rest p₁ hnodup (hleft.1 ▸ hchain) hleft.2 hrest

end Complete

/-! ## The parser -/

/-- The arguments are a sentence exactly if there is a tree, and it is the one of the sentence. -/
theorem parse_sentence {input : List MaybeNonUtf8String} (hinput : input ≠ []) (nextId : Nat) (t : Tree) :
    (∃ node, AstNode.parse input nextId = some (.ok node) ∧ node.tree = t) ↔
      Sentence (.expression Parser.precedence) input t := by
  have hparse : AstNode.parse input nextId =
      (outcome (Parser.parseAll (parseTurns input)) ⟨input, [], nextId⟩).map fun r => r.map (·.1) := by
    rw [AstNode.parse, if_neg (by simpa using hinput)]
    rfl
  constructor
  · rintro ⟨node, hnode, rfl⟩
    have hall : Yields (Parser.parseAll (parseTurns input)) ⟨input, [], nextId⟩ fun node _ =>
        Sentence (.expression Parser.precedence) input node.tree := by
      refine ((sound _).precedence _ _).andThen fun node p₁ hnode => ?_
      obtain ⟨ts, hrest, hsentence⟩ := hnode
      refine (yields_ok (Q := fun p p' => p = p₁ ∧ p' = p₁) (m := get) rfl ⟨rfl, rfl⟩).andThen fun p p' hp => ?_
      obtain ⟨rfl, rfl⟩ := hp
      cases hend : p'.rest with
      | nil =>
        rw [hend, List.append_nil] at hrest
        have hwhole : input = ts := hrest
        exact yields_pure (hwhole ▸ hsentence)
      | cons arg rest => exact yields_error rfl
    rw [hparse] at hnode
    cases hrun : outcome (Parser.parseAll (parseTurns input)) ⟨input, [], nextId⟩ with
    | none =>
      rw [hrun] at hnode
      cases hnode
    | some r =>
      rw [hrun] at hnode
      cases r with
      | error e => cases hnode
      | ok r =>
        cases hnode
        exact hall _ _ hrun
  · intro h
    have hall : Succeeds (Parser.parseAll (parseTurns input)) ⟨input, [], nextId⟩ fun node _ => node.tree = t := by
      refine ((complete _).precedence Parser.precedence input t [] _ (by decide) h (List.append_nil input).symm
        (fun _ h => by cases h)).andThen fun node p₁ hnode => ?_
      refine (succeeds_ok (Q := fun p _ => p = p₁) (m := get) rfl rfl).andThen fun p _ hp => ?_
      rw [hp, hnode.2]
      exact succeeds_pure hnode.1
    obtain ⟨r, hr, -⟩ := parse_ends input nextId
    rw [hparse] at hr ⊢
    rcases hall with hnone | ⟨node, p', hok, htree⟩
    · rw [hnone] at hr
      cases hr
    · exact ⟨node, by rw [hok]; rfl, htree⟩

/-- The parser ends and does not panic; it gives a tree exactly for a sentence, its tree; and the numbers of the nodes
are distinct, as a program has fewer than `2 ^ 31` arguments. -/
theorem cursor_parse_sentence {input : List MaybeNonUtf8String} (hinput : input ≠ []) (nextId : Nat) :
    ∃ r, Cursor.parse input nextId = some r ∧ r ≠ .error .panic ∧
      (∀ t, (∃ node, r = .ok node ∧ node.tree = t) ↔ Sentence (.expression Parser.precedence) input t) ∧
      ∀ node, r = .ok node → input.length < 2 ^ 32 → node.ids.Nodup := by
  obtain ⟨r, hr, hnodup⟩ := parse_ends input nextId
  refine ⟨r.mapError Cursor.Stop.err, by rw [Cursor.parse_eq, hr]; rfl, ?_, fun t => ?_, fun node hnode => ?_⟩
  · cases r <;> exact fun h => by cases h
  · rw [← parse_sentence hinput nextId t, hr]
    cases r <;> simp [Except.mapError]
  · cases r with
    | error e => cases hnode
    | ok tree =>
      cases hnode
      exact hnodup node rfl

/-- "1 + 2" is a sentence. -/
theorem cursor_parse_sentence_sum : ∃ node, Cursor.parse [utf8 "1", utf8 "+", utf8 "2"] 1 = some (.ok node) ∧
    node.ids.Nodup := by
  obtain ⟨r, hr, -, htree, hnodup⟩ := @cursor_parse_sentence [utf8 "1", utf8 "+", utf8 "2"] (by decide) 1
  have hsentence : Sentence (.expression Parser.precedence) [utf8 "1", utf8 "+", utf8 "2"]
      (.binOp (.numeric .add) (.leaf (utf8 "1")) (.leaf (utf8 "2"))) := by
    have htoken : ∀ v, v ∉ keywords → Sentence (.expression (Parser.precedence.drop 4)) [v] (.leaf v) :=
      fun v hv => .operand (.operand (.simple (.token hv)))
    have hsum := @Sentence.binOp [(utf8 "+", .numeric .add), (utf8 "-", .numeric .sub)] (Parser.precedence.drop 4)
      [utf8 "1"] [utf8 "2"] _ _ (utf8 "+") (.numeric .add)
      (.operand (htoken (utf8 "1") (by decide))) (by decide) (htoken (utf8 "2") (by decide))
    exact .operand (.operand (.operand hsum))
  obtain ⟨node, rfl, -⟩ := (htree _).2 hsentence
  exact ⟨node, hr, hnodup node rfl (by decide)⟩

end Peiosutils.Expr
