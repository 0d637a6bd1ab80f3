import Mathlib.Data.List.Basic

/-!
# Lists with escaped separators

A text is split at the separators that no escape protects (`pieces`), where an escape is kept with what it protects. Pieces
that are closed, so that no separator is unprotected in them and no escape is left open, are joined and split again
(`pieces_intercalate`). Texts whose special symbols are escaped (`escapeBy`) are closed, and removing the escapes gives the
text back (`plain_escapeBy`).
-/

set_option autoImplicit false

namespace Escaped

variable {α : Type} [DecidableEq α] (esc sep : α)

/-! ## Splitting -/

/-- The pieces of what is left, behind `cur`. -/
def piecesFrom (cur : List α) (escaped : Bool) : List α → List (List α)
  | [] => [cur]
  | b :: bs =>
    if escaped then piecesFrom (cur ++ [b]) false bs
    else if b = esc then piecesFrom (cur ++ [b]) true bs
    else if b = sep then cur :: piecesFrom [] false bs
    else piecesFrom (cur ++ [b]) false bs

/-- The pieces between separators that are not protected. -/
def pieces (s : List α) : List (List α) := piecesFrom esc sep [] false s

/-- The state behind a text: whether an escape is open. None where a separator is not protected. -/
def scan (escaped : Bool) : List α → Option Bool
  | [] => some escaped
  | b :: bs =>
    if escaped then scan false bs
    else if b = esc then scan true bs
    else if b = sep then none
    else scan false bs

/-- An escape at the end protects nothing. -/
def danglesFrom (escaped : Bool) : List α → Bool
  | [] => escaped
  | b :: bs => if escaped then danglesFrom false bs else danglesFrom (b = esc) bs

def Dangles (s : List α) : Prop := danglesFrom esc false s = true

/-- No separator is unprotected, and no escape is open. -/
def Closed (s : List α) : Prop := scan esc sep false s = some false

variable {esc sep}

theorem piecesFrom_ne_nil (cur : List α) (e : Bool) (s : List α) : piecesFrom esc sep cur e s ≠ [] := by
  induction s generalizing cur e with
  | nil => exact List.cons_ne_nil cur []
  | cons b s ih =>
    rw [piecesFrom]
    split
    · exact ih _ _
    · split
      · exact ih _ _
      · split
        · exact List.cons_ne_nil _ _
        · exact ih _ _

theorem pieces_ne_nil (s : List α) : pieces esc sep s ≠ [] := piecesFrom_ne_nil [] false s

theorem scan_append (e : Bool) (xs ys : List α) :
    scan esc sep e (xs ++ ys) = (scan esc sep e xs).bind fun e' => scan esc sep e' ys := by
  induction xs generalizing e with
  | nil => rfl
  | cons x xs ih =>
    rw [List.cons_append, scan, scan]
    split
    · exact ih _
    · split
      · exact ih _
      · split
        · rfl
        · exact ih _

theorem closed_nil : Closed esc sep [] := rfl

theorem Closed.append {xs ys : List α} (hx : Closed esc sep xs) (hy : Closed esc sep ys) : Closed esc sep (xs ++ ys) := by
  rw [Closed, scan_append, hx, Option.bind_some]
  exact hy

theorem closed_flatMap {β : Type} {f : β → List α} {xs : List β} (h : ∀ x ∈ xs, Closed esc sep (f x)) :
    Closed esc sep (xs.flatMap f) := by
  induction xs with
  | nil => exact closed_nil
  | cons x xs ih =>
    rw [List.flatMap_cons]
    exact (h x List.mem_cons_self).append (ih fun y hy => h y (List.mem_cons_of_mem x hy))

/-- A text with neither escapes nor separators. -/
theorem closed_of_plain {s : List α} (h : ∀ b ∈ s, b ≠ esc ∧ b ≠ sep) : Closed esc sep s := by
  induction s with
  | nil => exact closed_nil
  | cons b s ih =>
    obtain ⟨hesc, hsep⟩ := h b List.mem_cons_self
    rw [Closed, scan, if_neg Bool.false_ne_true, if_neg hesc, if_neg hsep]
    exact ih fun c hc => h c (List.mem_cons_of_mem b hc)

theorem piecesFrom_append {e e' : Bool} {xs : List α} (h : scan esc sep e xs = some e') (cur rest : List α) :
    piecesFrom esc sep cur e (xs ++ rest) = piecesFrom esc sep (cur ++ xs) e' rest := by
  induction xs generalizing e cur with
  | nil =>
    rw [scan, Option.some.injEq] at h
    rw [h, List.nil_append, List.append_nil]
  | cons x xs ih =>
    rw [scan] at h
    rw [List.cons_append, piecesFrom, List.append_cons cur x xs]
    split at h
    · rename_i he
      rw [if_pos he, ih h]
    · rename_i he
      rw [if_neg he]
      split at h
      · rename_i hesc
        rw [if_pos hesc, ih h]
      · rename_i hesc
        rw [if_neg hesc]
        split at h
        · cases h
        · rename_i hsep
          rw [if_neg hsep, ih h]

theorem pieces_of_closed {s : List α} (h : Closed esc sep s) : pieces esc sep s = [s] := by
  have hall := piecesFrom_append h [] []
  rwa [List.append_nil] at hall

theorem pieces_append {xs : List α} (h : Closed esc sep xs) (hne : sep ≠ esc) (rest : List α) :
    pieces esc sep (xs ++ sep :: rest) = xs :: pieces esc sep rest := by
  rw [pieces, piecesFrom_append h, List.nil_append, piecesFrom, if_neg Bool.false_ne_true, if_neg hne, if_pos rfl]
  rfl

/-- **Joined, then split.** -/
theorem pieces_intercalate (hne : sep ≠ esc) {ts : List (List α)} (h : ∀ t ∈ ts, Closed esc sep t) (hts : ts ≠ []) :
    pieces esc sep ([sep].intercalate ts) = ts := by
  induction ts with
  | nil => exact absurd rfl hts
  | cons t ts ih =>
    have ht := h t List.mem_cons_self
    cases ts with
    | nil => simpa [List.intercalate] using pieces_of_closed ht
    | cons u ts =>
      have hjoin : [sep].intercalate (t :: u :: ts) = t ++ sep :: [sep].intercalate (u :: ts) := by
        simp [List.intercalate]
      rw [hjoin, pieces_append ht hne, ih (fun v hv => h v (List.mem_cons_of_mem t hv)) (List.cons_ne_nil u ts)]

theorem danglesFrom_of_scan {e e' : Bool} {s : List α} (h : scan esc sep e s = some e') : danglesFrom esc e s = e' := by
  induction s generalizing e with
  | nil => exact Option.some.inj h
  | cons b s ih =>
    rw [scan] at h
    rw [danglesFrom]
    split at h
    · rename_i he
      rw [if_pos he, ih h]
    · rename_i he
      rw [if_neg he]
      split at h
      · rename_i hesc
        rw [decide_eq_true hesc, ih h]
      · rename_i hesc
        split at h
        · cases h
        · rw [decide_eq_false hesc, ih h]

theorem not_dangles_of_closed {s : List α} (h : Closed esc sep s) : ¬ Dangles esc s := by
  rw [Dangles, danglesFrom_of_scan h]
  exact Bool.false_ne_true

theorem danglesFrom_append (e : Bool) (xs ys : List α) :
    danglesFrom esc e (xs ++ ys) = danglesFrom esc (danglesFrom esc e xs) ys := by
  induction xs generalizing e with
  | nil => rfl
  | cons x xs ih =>
    rw [List.cons_append, danglesFrom, danglesFrom]
    split
    · exact ih _
    · exact ih _

/-! ## Joined texts -/

theorem not_dangles_intercalate {other : α} (hne : other ≠ esc) {ts : List (List α)} (h : ∀ t ∈ ts, ¬ Dangles esc t) :
    ¬ Dangles esc ([other].intercalate ts) := by
  induction ts with
  | nil => simp [Dangles, danglesFrom]
  | cons t ts ih =>
    have ht := h t List.mem_cons_self
    cases ts with
    | nil => simpa [List.intercalate] using ht
    | cons u ts =>
      have hjoin : [other].intercalate (t :: u :: ts) = t ++ other :: [other].intercalate (u :: ts) := by
        simp [List.intercalate]
      rw [Dangles, Bool.not_eq_true] at ht
      rw [hjoin, Dangles, danglesFrom_append, ht, danglesFrom, if_neg Bool.false_ne_true, decide_eq_false hne]
      exact ih fun v hv => h v (List.mem_cons_of_mem t hv)

theorem closed_intercalate {other : α} (hne : other ≠ esc) (hsep : other ≠ sep) {ts : List (List α)}
    (h : ∀ t ∈ ts, Closed esc sep t) : Closed esc sep ([other].intercalate ts) := by
  have hone : Closed esc sep [other] :=
    closed_of_plain fun b hb => by rw [List.mem_singleton.1 hb]; exact ⟨hne, hsep⟩
  induction ts with
  | nil => exact closed_nil
  | cons t ts ih =>
    have ht := h t List.mem_cons_self
    cases ts with
    | nil => simpa [List.intercalate] using ht
    | cons u ts =>
      have hjoin : [other].intercalate (t :: u :: ts) = t ++ ([other] ++ [other].intercalate (u :: ts)) := by
        simp [List.intercalate]
      rw [hjoin]
      exact ht.append (hone.append (ih fun v hv => h v (List.mem_cons_of_mem t hv)))

/-! ## Escaping -/

variable (esc)

/-- The special symbols are escaped. -/
def escapeBy (special : α → Bool) (s : List α) : List α := s.flatMap fun b => if special b then [esc, b] else [b]

/-- Without the escapes; an open one is dropped. -/
def plain : List α → List α
  | [] => []
  | b :: bs =>
    if b = esc then
      match bs with
      | [] => []
      | c :: cs => c :: plain cs
    else b :: plain bs

def protectedFrom (escaped : Bool) : List α → List α
  | [] => []
  | b :: bs => if escaped then b :: protectedFrom false bs else protectedFrom (b = esc) bs

/-- The symbols that escapes protect. -/
def protectedBy (s : List α) : List α := protectedFrom esc false s

variable {esc} {special : α → Bool}

theorem closed_escapeBy (hesc : special esc = true) (hsep : special sep = true) (s : List α) :
    Closed esc sep (escapeBy esc special s) := by
  refine closed_flatMap fun b _ => ?_
  split
  · rw [Closed, scan, if_neg Bool.false_ne_true, if_pos rfl, scan, if_pos rfl]
    rfl
  · rename_i hb
    exact closed_of_plain fun c hc => by
      rw [List.mem_singleton.1 hc]
      exact ⟨fun h => hb (h ▸ hesc), fun h => hb (h ▸ hsep)⟩

theorem plain_escapeBy (hesc : special esc = true) (s : List α) : plain esc (escapeBy esc special s) = s := by
  induction s with
  | nil => rfl
  | cons b s ih =>
    rw [escapeBy, List.flatMap_cons, ← escapeBy]
    split
    · rw [List.cons_append, List.singleton_append, plain, if_pos rfl, ih]
    · rename_i hb
      rw [List.singleton_append, plain.eq_def]
      simp only [if_neg fun h : b = esc => hb (h ▸ hesc), ih]

omit [DecidableEq α] in
theorem escapeBy_eq_nil {s : List α} : escapeBy esc special s = [] ↔ s = [] := by
  cases s with
  | nil => simp [escapeBy]
  | cons b s =>
    simp only [escapeBy, List.flatMap_cons, List.append_eq_nil_iff, reduceCtorEq, iff_false, not_and]
    intro h
    split at h <;> cases h

/-! ## Protected symbols -/

theorem protectedFrom_append (e : Bool) (xs ys : List α) :
    protectedFrom esc e (xs ++ ys) = protectedFrom esc e xs ++ protectedFrom esc (danglesFrom esc e xs) ys := by
  induction xs generalizing e with
  | nil => rfl
  | cons x xs ih =>
    rw [List.cons_append, protectedFrom, protectedFrom, danglesFrom]
    cases e with
    | true => simp [ih]
    | false => simp [ih]

/-- A protected symbol is protected in one of the pieces. -/
theorem exists_mem_piecesFrom {c : α} {e : Bool} {cur s : List α} (hcur : danglesFrom esc false cur = e)
    (h : c ∈ protectedBy esc (cur ++ s)) : ∃ p ∈ piecesFrom esc sep cur e s, c ∈ protectedBy esc p := by
  induction s generalizing cur e with
  | nil => exact ⟨cur, List.mem_cons_self, by rwa [List.append_nil] at h⟩
  | cons b s ih =>
    rw [piecesFrom]
    have hstep : danglesFrom esc false (cur ++ [b]) = if e then false else decide (b = esc) := by
      rw [danglesFrom_append, hcur, danglesFrom]
      split <;> rfl
    rw [List.append_cons] at h
    cases e with
    | true => exact ih hstep h
    | false =>
      rw [if_neg Bool.false_ne_true] at hstep ⊢
      split
      · rename_i hb
        rw [decide_eq_true hb] at hstep
        exact ih hstep h
      · rename_i hb
        rw [decide_eq_false hb] at hstep
        split
        · -- the separator itself is not protected
          rw [List.append_assoc, List.singleton_append, protectedBy, protectedFrom_append, List.mem_append, hcur,
            protectedFrom, if_neg Bool.false_ne_true, decide_eq_false hb] at h
          rcases h with h | h
          · exact ⟨cur, List.mem_cons_self, h⟩
          · obtain ⟨p, hp, hc⟩ := @ih false [] rfl h
            exact ⟨p, List.mem_cons_of_mem cur hp, hc⟩
        · exact ih hstep h

theorem exists_mem_pieces {c : α} {s : List α} (h : c ∈ protectedBy esc s) :
    ∃ p ∈ pieces esc sep s, c ∈ protectedBy esc p := exists_mem_piecesFrom rfl h

theorem protectedBy_escapeBy (hesc : special esc = true) (s : List α) :
    protectedBy esc (escapeBy esc special s) = s.filter special := by
  induction s with
  | nil => rfl
  | cons b s ih =>
    rw [escapeBy, List.flatMap_cons, ← escapeBy, protectedBy, protectedFrom_append, List.filter_cons]
    split
    · simpa [protectedFrom, danglesFrom, protectedBy] using ih
    · rename_i hb
      have hne : b ≠ esc := fun h => hb (h ▸ hesc)
      simpa [protectedFrom, danglesFrom, protectedBy, hne] using ih

theorem protectedBy_eq_nil {s : List α} (h : esc ∉ s) : protectedBy esc s = [] := by
  induction s with
  | nil => rfl
  | cons b s ih =>
    rw [List.mem_cons, not_or] at h
    rw [protectedBy, protectedFrom, if_neg Bool.false_ne_true, decide_eq_false (Ne.symm h.1)]
    exact ih h.2

end Escaped
