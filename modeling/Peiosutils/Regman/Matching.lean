import Peiosutils.Regman.Fragment

/-!
# What an anchor matches (`pattern.rs`)

`Reads anchor query rest` says that the query is read off the front of the anchor, up to `rest`: literal bytes stand for
themselves, and each wildcard for a part of the query. `walk` goes over rows of reachable prefixes; it finds a reading
whose rest is accepted just when there is one, and so does the search with backtracking (`walk_eq_backtrack`).
-/

set_option autoImplicit false

namespace Peiosutils.Regman

open Utf8

/-! ## Readings -/

/-- May a wildcard take this byte? -/
def allowed (spans : Bool) (byte : UInt8) : Bool := byte ≠ space && (spans || byte ≠ backslash)

/-- The query is read off the front of the anchor, up to `rest`. -/
inductive Reads : (anchor query rest : List UInt8) → Prop where
  | done (anchor : List UInt8) : Reads anchor [] anchor
  | literal {byte : UInt8} {anchor query rest : List UInt8} (hw : wildcard (byte :: anchor) = none)
      (h : Reads anchor query rest) : Reads (byte :: anchor) (byte :: query) rest
  | wild {anchor part query rest : List UInt8} {width : Nat} {spans : Bool}
      (hw : wildcard anchor = some (width, spans)) (hne : part ≠ []) (hpart : ∀ b ∈ part, allowed spans b = true)
      (h : Reads (anchor.drop width) query rest) : Reads anchor (part ++ query) rest

/-- There is a reading whose rest is accepted. -/
def Accepts (tailOk : List UInt8 → Bool) (anchor query : List UInt8) : Prop :=
  ∃ rest, Reads anchor query rest ∧ tailOk rest = true

/-- A part that a wildcard may take, and then `p`. -/
def Spread (spans : Bool) (p : List UInt8 → Prop) (query : List UInt8) : Prop :=
  ∃ part rest, query = part ++ rest ∧ part ≠ [] ∧ (∀ b ∈ part, allowed spans b = true) ∧ p rest

mutual

/-- The search with backtracking. -/
def backtrack (tailOk : List UInt8 → Bool) (anchor query : List UInt8) : Bool :=
  match query, anchor with
  | [], anchor => tailOk anchor
  | _ :: _, [] => false
  | byte :: query, literal :: rest =>
    match wildcard (literal :: rest) with
    | some (width, spans) => backtrackPart tailOk ((literal :: rest).drop width) spans (byte :: query)
    | none => literal = byte && backtrack tailOk rest query
termination_by (query.length, 1)

/-- Each part of the query that a wildcard may take, the shortest first. -/
def backtrackPart (tailOk : List UInt8 → Bool) (behind : List UInt8) (spans : Bool) (query : List UInt8) : Bool :=
  match query with
  | [] => false
  | byte :: query =>
    if allowed spans byte then backtrack tailOk behind query || backtrackPart tailOk behind spans query else false
termination_by (query.length, 0)

end

section Accepts

variable {tailOk : List UInt8 → Bool}

@[simp] theorem spread_nil {spans : Bool} {p : List UInt8 → Prop} : Spread spans p [] ↔ False := by
  constructor
  · rintro ⟨part, rest, hq, hne, -⟩
    exact hne (List.append_eq_nil_iff.1 hq.symm).1
  · exact False.elim

/-- A part takes the first byte, and ends there or takes more. -/
theorem spread_cons {spans : Bool} {p : List UInt8 → Prop} {byte : UInt8} {query : List UInt8} :
    Spread spans p (byte :: query) ↔ allowed spans byte = true ∧ (p query ∨ Spread spans p query) := by
  constructor
  · rintro ⟨_ | ⟨b, part⟩, rest, hq, hne, hpart, hp⟩
    · exact absurd rfl hne
    · obtain ⟨rfl, rfl⟩ := List.cons.inj hq
      obtain ⟨hb, hpart⟩ := List.forall_mem_cons.1 hpart
      by_cases hpart' : part = []
      · subst hpart'
        exact ⟨hb, Or.inl hp⟩
      · exact ⟨hb, Or.inr ⟨part, rest, rfl, hpart', hpart, hp⟩⟩
  · rintro ⟨hb, hp | ⟨part, rest, rfl, -, hpart, hp⟩⟩
    · exact ⟨[byte], query, rfl, by simp, by simpa using hb, hp⟩
    · exact ⟨byte :: part, rest, rfl, by simp, List.forall_mem_cons.2 ⟨hb, hpart⟩, hp⟩

@[simp] theorem wildcard_nil : wildcard [] = none := by decide

theorem accepts_nil {query : List UInt8} : Accepts tailOk [] query ↔ query = [] ∧ tailOk [] = true := by
  constructor
  · rintro ⟨rest, h, hok⟩
    cases h with
    | done => exact ⟨rfl, hok⟩
    | wild hw => simp at hw
  · rintro ⟨rfl, hok⟩
    exact ⟨[], .done [], hok⟩

/-- A literal byte stands for itself. -/
theorem accepts_literal {literal : UInt8} {anchor query : List UInt8} (hw : wildcard (literal :: anchor) = none) :
    Accepts tailOk (literal :: anchor) query ↔ (query = [] ∧ tailOk (literal :: anchor) = true) ∨
      ∃ query', query = literal :: query' ∧ Accepts tailOk anchor query' := by
  constructor
  · rintro ⟨rest, h, hok⟩
    cases h with
    | done => exact Or.inl ⟨rfl, hok⟩
    | literal _ h => exact Or.inr ⟨_, rfl, rest, h, hok⟩
    | wild hw' => simp [hw] at hw'
  · rintro (⟨rfl, hok⟩ | ⟨query', rfl, rest, h, hok⟩)
    · exact ⟨_, .done _, hok⟩
    · exact ⟨rest, .literal hw h, hok⟩

/-- A wildcard stands for a part of the query. -/
theorem accepts_wild {anchor query : List UInt8} {width : Nat} {spans : Bool}
    (hw : wildcard anchor = some (width, spans)) :
    Accepts tailOk anchor query ↔ (query = [] ∧ tailOk anchor = true) ∨
      Spread spans (Accepts tailOk (anchor.drop width)) query := by
  constructor
  · rintro ⟨rest, h, hok⟩
    cases h with
    | done => exact Or.inl ⟨rfl, hok⟩
    | literal hw' => simp [hw] at hw'
    | wild hw' hne hpart h =>
      rw [hw, Option.some.injEq, Prod.mk.injEq] at hw'
      obtain ⟨rfl, rfl⟩ := hw'
      exact Or.inr ⟨_, _, rfl, hne, hpart, rest, h, hok⟩
  · rintro (⟨rfl, hok⟩ | ⟨part, query', rfl, hne, hpart, rest, h, hok⟩)
    · exact ⟨_, .done _, hok⟩
    · exact ⟨rest, .wild hw hne hpart h, hok⟩

end Accepts

/-! ## Rows -/

/-- Some reachable prefix of the query leaves a rest with `p`. -/
def Row (p : List UInt8 → Prop) : (query : List UInt8) → (reachable : List Bool) → Prop
  | _, [] => False
  | [], r :: _ => r = true ∧ p []
  | byte :: query, r :: reachable => (r = true ∧ p (byte :: query)) ∨ Row p query reachable

section Row

variable {p q : List UInt8 → Prop}

theorem row_cons {query : List UInt8} {r : Bool} {reachable : List Bool} :
    Row p query (r :: reachable) ↔ (r = true ∧ p query) ∨ Row p query (false :: reachable) := by
  cases query <;> simp [Row]

theorem row_or {query : List UInt8} {reachable : List Bool} :
    Row (fun s => p s ∨ q s) query reachable ↔ Row p query reachable ∨ Row q query reachable := by
  induction query generalizing reachable with
  | nil => cases reachable <;> simp [Row, and_or_left]
  | cons byte query ih =>
    cases reachable with
    | nil => simp [Row]
    | cons r reachable =>
      simp only [Row, ih]
      tauto

theorem row_congr (h : ∀ s, p s ↔ q s) {query : List UInt8} {reachable : List Bool} :
    Row p query reachable ↔ Row q query reachable := by
  rw [funext fun s => propext (h s)]

/-- The whole query is reachable. -/
theorem row_nil {ok : Prop} {query : List UInt8} {reachable : List Bool} :
    Row (fun s => s = [] ∧ ok) query reachable ↔ reachable.getD query.length false = true ∧ ok := by
  induction query generalizing reachable with
  | nil => cases reachable <;> simp [Row]
  | cons byte query ih => cases reachable <;> simp [Row, ih]

theorem any_of_row {query : List UInt8} {reachable : List Bool} (h : Row p query reachable) :
    reachable.any id = true := by
  induction query generalizing reachable with
  | nil =>
    cases reachable with
    | nil => exact h.elim
    | cons r reachable => simp [h.1]
  | cons byte query ih =>
    cases reachable with
    | nil => exact h.elim
    | cons r reachable =>
      rcases h with ⟨hr, -⟩ | h
      · simp [hr]
      · rw [List.any_cons, ih h, Bool.or_true]

theorem row_replicate {query : List UInt8} {n : Nat} : ¬ Row p query (List.replicate n false) := by
  intro h
  have := any_of_row h
  simp at this

/-- Only the empty prefix is reachable. -/
theorem row_initial {query : List UInt8} {n : Nat} : Row p query (true :: List.replicate n false) ↔ p query := by
  rw [row_cons, ← List.replicate_succ]
  simp [row_replicate]

/-- The row behind a literal byte. -/
theorem row_advance {literal : UInt8} {query : List UInt8} {reachable : List Bool} :
    Row p query (false :: advance literal query reachable) ↔
      Row (fun s => ∃ s', s = literal :: s' ∧ p s') query reachable := by
  induction query generalizing reachable with
  | nil => cases reachable <;> simp [Row]
  | cons byte query ih =>
    cases reachable with
    | nil => simp [Row, advance]
    | cons r reachable =>
      have hnext : advance literal (byte :: query) (r :: reachable) =
          (r && literal = byte) :: advance literal query reachable := rfl
      rw [hnext]
      simp only [Row, Bool.false_eq_true, false_and, false_or]
      rw [row_cons, ih]
      refine or_congr ?_ Iff.rfl
      simp only [Bool.and_eq_true, decide_eq_true_eq, List.cons.injEq]
      constructor
      · rintro ⟨⟨hr, rfl⟩, hp⟩
        exact ⟨hr, query, ⟨rfl, rfl⟩, hp⟩
      · rintro ⟨hr, _, ⟨rfl, rfl⟩, hp⟩
        exact ⟨⟨hr, rfl⟩, hp⟩

/-- The row behind a wildcard; `prev` says that the wildcard has taken a part up to here. -/
theorem row_spread {spans prev : Bool} {query : List UInt8} {reachable : List Bool}
    (hlen : query.length ≤ reachable.length) :
    Row p query (false :: spread spans prev query reachable) ↔
      (prev = true ∧ Spread spans p query) ∨ Row (Spread spans p) query reachable := by
  induction query generalizing prev reachable with
  | nil => cases reachable <;> simp [Row]
  | cons byte query ih =>
    cases reachable with
    | nil => simp at hlen
    | cons r reachable =>
      rw [List.length_cons, List.length_cons, Nat.add_le_add_iff_right] at hlen
      have hnext : spread spans prev (byte :: query) (r :: reachable) =
          (allowed spans byte && (r || prev)) :: spread spans (allowed spans byte && (r || prev)) query reachable := rfl
      rw [hnext]
      simp only [Row, Bool.false_eq_true, false_and, false_or]
      rw [row_cons, ih hlen, spread_cons]
      simp only [Bool.and_eq_true, Bool.or_eq_true]
      tauto

end Row

/-! ## The matcher -/

theorem length_spread {spans : Bool} : ∀ {prev : Bool} {query : List UInt8} {reachable : List Bool},
    query.length ≤ reachable.length → (spread spans prev query reachable).length = query.length
  | _, [], _, _ => by simp [spread]
  | _, _ :: _, [], h => by simp at h
  | prev, byte :: query, r :: reachable, h => by
    rw [List.length_cons, List.length_cons, Nat.add_le_add_iff_right] at h
    simp only [spread, List.length_cons, length_spread h]

/-- From any row on, the matcher looks for a reading of what a reachable prefix leaves. -/
theorem walkFrom_iff {query : List UInt8} {tailOk : List UInt8 → Bool} (anchor : List UInt8) (reachable : List Bool)
    (hlen : query.length ≤ reachable.length) :
    walkFrom query tailOk anchor reachable = true ↔ Row (Accepts tailOk anchor) query reachable := by
  induction hn : anchor.length using Nat.strongRecOn generalizing anchor reachable with
  | ind n ih =>
    subst hn
    rw [walkFrom.eq_def]
    split
    · rename_i hdone
      rw [Bool.and_eq_true] at hdone
      have hrow : Row (fun s => s = [] ∧ tailOk anchor = true) query reachable := row_nil.2 hdone
      refine iff_of_true rfl ?_
      rw [row_congr (q := fun s => (s = [] ∧ tailOk anchor = true) ∨ Accepts tailOk anchor s), row_or]
      · exact Or.inl hrow
      · refine fun s => ⟨Or.inr, ?_⟩
        rintro (⟨rfl, hok⟩ | h)
        · exact ⟨anchor, .done anchor, hok⟩
        · exact h
    · rename_i hdone
      rw [Bool.and_eq_true] at hdone
      -- no reading ends here, so one goes on
      have hnil : ¬ Row (fun s => s = [] ∧ tailOk anchor = true) query reachable := fun h => hdone (row_nil.1 h)
      split
      · rw [row_congr fun s => accepts_nil]
        exact iff_of_false (by simp) hnil
      · rename_i _ literal rest
        split
        · rename_i width spans hw
          have hlen' : query.length ≤ (false :: spread spans false query reachable).length := by
            rw [List.length_cons, length_spread hlen]
            exact Nat.le_succ _
          have hdrop : ((literal :: rest).drop width).length < (literal :: rest).length := by
            rw [List.length_drop]
            have := wildcard_pos hw
            have : (literal :: rest).length = rest.length + 1 := List.length_cons
            omega
          have hstep : Row (Accepts tailOk (literal :: rest)) query reachable ↔
              Row (Accepts tailOk ((literal :: rest).drop width)) query (false :: spread spans false query reachable) := by
            rw [row_congr fun s => accepts_wild hw, row_or, or_iff_right hnil, row_spread hlen]
            simp
          rw [hstep]
          dsimp only
          split
          · exact ih _ hdrop _ _ hlen' rfl
          · rename_i hany
            exact iff_of_false (by simp) fun h => hany (any_of_row h)
        · rename_i hw
          have hlen' : query.length ≤ (false :: advance literal query reachable).length := by
            rw [List.length_cons, advance, List.length_zipWith]
            omega
          have hstep : Row (Accepts tailOk (literal :: rest)) query reachable ↔
              Row (Accepts tailOk rest) query (false :: advance literal query reachable) := by
            rw [row_congr fun s => accepts_literal hw, row_or, or_iff_right hnil, row_advance]
          rw [hstep]
          dsimp only
          split
          · exact ih _ (by simp) _ _ hlen' rfl
          · rename_i hany
            exact iff_of_false (by simp) fun h => hany (any_of_row h)

theorem walk_iff {anchor query : List UInt8} {tailOk : List UInt8 → Bool} :
    walk anchor query tailOk = true ↔ Accepts tailOk anchor query := by
  rw [walk, walkFrom_iff _ _ (by simp), row_initial]

mutual

theorem backtrack_iff {tailOk : List UInt8 → Bool} (anchor query : List UInt8) :
    backtrack tailOk anchor query = true ↔ Accepts tailOk anchor query := by
  match query, anchor with
  | [], anchor =>
    rw [backtrack]
    refine ⟨fun hok => ⟨anchor, .done anchor, hok⟩, ?_⟩
    rintro ⟨rest, h, hok⟩
    generalize hq : ([] : List UInt8) = query at h
    cases h with
    | done => exact hok
    | literal => cases hq
    | wild _ hne => exact absurd (List.append_eq_nil_iff.1 hq.symm).1 hne
  | byte :: query, [] =>
    rw [backtrack, accepts_nil]
    simp
  | byte :: query, literal :: rest =>
    rw [backtrack]
    split
    · rename_i width spans hw
      rw [backtrackPart_iff, accepts_wild hw]
      simp
    · rename_i hw
      rw [accepts_literal hw, Bool.and_eq_true, decide_eq_true_eq, backtrack_iff]
      constructor
      · rintro ⟨rfl, h⟩
        exact Or.inr ⟨query, rfl, h⟩
      · rintro (⟨hnil, -⟩ | ⟨_, hq, h⟩)
        · cases hnil
        · obtain ⟨rfl, rfl⟩ := List.cons.inj hq
          exact ⟨rfl, h⟩
termination_by (query.length, 1)

theorem backtrackPart_iff {tailOk : List UInt8 → Bool} (behind : List UInt8) (spans : Bool) (query : List UInt8) :
    backtrackPart tailOk behind spans query = true ↔ Spread spans (Accepts tailOk behind) query := by
  match query with
  | [] =>
    rw [backtrackPart, spread_nil]
    simp
  | byte :: query =>
    rw [backtrackPart, spread_cons]
    split
    · rename_i hb
      rw [Bool.or_eq_true, backtrack_iff, backtrackPart_iff]
      simp [hb]
    · rename_i hb
      simp [hb]
termination_by (query.length, 0)

end

/-- The matcher finds what the search with backtracking finds: a reading whose rest is accepted. -/
theorem walk_eq_backtrack (anchor query : List UInt8) (tailOk : List UInt8 → Bool) :
    walk anchor query tailOk = backtrack tailOk anchor query ∧
      (walk anchor query tailOk = true ↔ ∃ rest, Reads anchor query rest ∧ tailOk rest = true) := by
  refine ⟨?_, walk_iff⟩
  rw [Bool.eq_iff_iff, walk_iff, backtrack_iff]

/-- The first wildcard takes two bytes or three, and the text behind it ends the reading. -/
example : walk (encode "a<x>b".toList) (encode "axbb".toList) (fun rest => rest.isEmpty) = true ∧
    walk (encode "a<x>b".toList) (encode "a b".toList) (fun rest => rest.isEmpty) = false := by
  decide +kernel

end Peiosutils.Regman
