import Mathlib.Algebra.GroupWithZero.Nat
import Mathlib.Data.List.Basic

/-!
# Lines

`pieces sep c` cuts a text behind each separator, and `lines sep c` are the pieces without it: the last line need not be
terminated, and the empty text has no line. A text that is terminated can be cut off in front (`pieces_append`,
`lines_append`), and terminating a text leaves its lines (`lines_terminate`).
-/

set_option autoImplicit false

namespace Lines

variable {α : Type} [DecidableEq α] (sep : α)

/-- The text cut behind each separator. -/
def pieces : List α → List (List α)
  | [] => []
  | x :: xs =>
    if x = sep then [x] :: pieces xs
    else
      match pieces xs with
      | [] => [[x]]
      | p :: ps => (x :: p) :: ps

/-- Without the separator at the end, if there is one. -/
def chomp (p : List α) : List α := if p.getLast? = some sep then p.dropLast else p

def lines (c : List α) : List (List α) := (pieces sep c).map (chomp sep)

/-- No line is open at the end. -/
def Terminated (c : List α) : Prop := c = [] ∨ c.getLast? = some sep

instance (c : List α) : Decidable (Terminated sep c) := inferInstanceAs (Decidable (_ ∨ _))

variable {sep}

@[simp] theorem pieces_eq_nil {c : List α} : pieces sep c = [] ↔ c = [] := by
  cases c with
  | nil => simp [pieces]
  | cons x xs =>
    unfold pieces
    split
    · simp
    · split <;> simp

theorem ne_nil_of_mem_pieces {c p : List α} (h : p ∈ pieces sep c) : p ≠ [] := by
  induction c generalizing p with
  | nil => cases h
  | cons x xs ih =>
    unfold pieces at h
    split at h
    · rcases List.mem_cons.1 h with rfl | h
      · simp
      · exact ih h
    · split at h
      · rw [List.mem_singleton.1 h]
        simp
      · rename_i q qs hq
        rcases List.mem_cons.1 h with rfl | h
        · simp
        · exact ih (hq ▸ List.mem_cons_of_mem q h)

@[simp] theorem flatten_pieces (c : List α) : (pieces sep c).flatten = c := by
  induction c with
  | nil => rfl
  | cons x xs ih =>
    unfold pieces
    split
    · rw [List.flatten_cons, ih]
      rfl
    · split
      · rename_i h
        rw [pieces_eq_nil] at h
        rw [h]
        rfl
      · rename_i p ps h
        rw [h] at ih
        rw [← ih]
        rfl

/-- The first piece is cut off; it is terminated where another one follows. -/
theorem pieces_eq_cons {c p : List α} {ps : List (List α)} (h : pieces sep c = p :: ps) :
    c = p ++ ps.flatten ∧ pieces sep ps.flatten = ps ∧ (p.getLast? = some sep ∨ ps = []) := by
  have hflat : c = p ++ ps.flatten := by rw [← List.flatten_cons, ← h, flatten_pieces]
  refine ⟨hflat, ?_⟩
  clear hflat
  induction c generalizing p with
  | nil => cases h
  | cons x xs ih =>
    unfold pieces at h
    split at h
    · rename_i hx
      obtain ⟨rfl, rfl⟩ := List.cons_eq_cons.1 h
      exact ⟨by rw [flatten_pieces], Or.inl (by rw [hx]; rfl)⟩
    · split at h
      · obtain ⟨rfl, rfl⟩ := List.cons_eq_cons.1 h
        exact ⟨rfl, Or.inr rfl⟩
      · rename_i q qs hq
        obtain ⟨rfl, rfl⟩ := List.cons_eq_cons.1 h
        obtain ⟨hps, hlast⟩ := ih hq
        refine ⟨hps, hlast.imp_left fun hlast => ?_⟩
        obtain ⟨y, ys, rfl⟩ := List.exists_cons_of_ne_nil (ne_nil_of_mem_pieces (hq ▸ List.mem_cons_self))
        rwa [List.getLast?_cons_cons]

omit [DecidableEq α] in
theorem Terminated.of_cons {x : α} {xs : List α} (h : Terminated sep (x :: xs)) : Terminated sep xs := by
  cases xs with
  | nil => exact Or.inl rfl
  | cons y ys => exact Or.inr (by simpa [Terminated] using h)

/-- What is terminated is cut on its own. -/
theorem pieces_append {c : List α} (h : Terminated sep c) (d : List α) :
    pieces sep (c ++ d) = pieces sep c ++ pieces sep d := by
  induction c with
  | nil => rfl
  | cons x xs ih =>
    rw [List.cons_append, pieces, pieces, ih h.of_cons]
    split
    · rfl
    · rename_i hx
      cases hp : pieces sep xs with
      | nil =>
        rw [pieces_eq_nil] at hp
        subst hp
        simp [Terminated, hx] at h
      | cons p ps => rfl

theorem lines_append {c : List α} (h : Terminated sep c) (d : List α) :
    lines sep (c ++ d) = lines sep c ++ lines sep d := by
  rw [lines, pieces_append h, List.map_append, lines, lines]

@[simp] theorem lines_nil : lines sep [] = [] := rfl

@[simp] theorem lines_eq_nil {c : List α} : lines sep c = [] ↔ c = [] := by
  rw [lines, List.map_eq_nil_iff, pieces_eq_nil]

theorem chomp_cons {x : α} {p : List α} (h : p ≠ []) : chomp sep (x :: p) = x :: chomp sep p := by
  obtain ⟨y, ys, rfl⟩ := List.exists_cons_of_ne_nil h
  unfold chomp
  rw [List.getLast?_cons_cons]
  split
  · rw [List.dropLast_cons_of_ne_nil h]
  · rfl

theorem lines_cons {x : α} (xs : List α) : lines sep (x :: xs) =
    if x = sep then [] :: lines sep xs else if xs = [] then [[x]] else (lines sep xs).modifyHead (x :: ·) := by
  unfold lines
  rw [pieces]
  split
  · rename_i hx
    subst hx
    simp [chomp]
  · rename_i hx
    split
    · rename_i h
      rw [pieces_eq_nil] at h
      simp [h, chomp, hx]
    · rename_i p ps h
      have hxs : xs ≠ [] := by
        rintro rfl
        cases h
      rw [if_neg hxs, h, List.map_cons, List.map_cons, List.modifyHead_cons,
        chomp_cons (ne_nil_of_mem_pieces (h ▸ List.mem_cons_self))]

/-- Terminating an open line changes no line. -/
theorem lines_terminate {c : List α} (h : ¬ Terminated sep c) : lines sep (c ++ [sep]) = lines sep c := by
  induction c with
  | nil => exact absurd (Or.inl rfl) h
  | cons x xs ih =>
    rw [List.cons_append, lines_cons, lines_cons]
    by_cases hxs : xs = []
    · subst hxs
      have hx : x ≠ sep := fun hx => h (Or.inr (by simp [hx]))
      simp [hx, lines_cons]
    · have hne : xs ++ [sep] ≠ [] := by simp
      have hopen : ¬ Terminated sep xs := by
        rintro (hnil | hlast)
        · exact hxs hnil
        · obtain ⟨y, ys, rfl⟩ := List.exists_cons_of_ne_nil hxs
          exact h (Or.inr (by rwa [List.getLast?_cons_cons]))
      rw [ih hopen, if_neg hxs, if_neg hne]

/-- The lines are as many as the separators, and one more that is open. -/
theorem length_lines (c : List α) : (lines sep c).length = c.count sep + if Terminated sep c then 0 else 1 := by
  induction c with
  | nil => simp [Terminated]
  | cons x xs ih =>
    rw [lines_cons]
    by_cases hx : x = sep
    · subst hx
      have hterm : Terminated x (x :: xs) ↔ Terminated x xs := by
        cases xs with
        | nil => simp [Terminated]
        | cons y ys => simp [Terminated]
      rw [if_pos rfl, List.length_cons, ih, List.count_cons_self]
      simp only [hterm]
      omega
    · rw [if_neg hx, List.count_cons_of_ne hx]
      cases xs with
      | nil => simp [Terminated, hx]
      | cons y ys =>
        have hterm : Terminated sep (x :: y :: ys) ↔ Terminated sep (y :: ys) := by simp [Terminated]
        rw [if_neg (List.cons_ne_nil y ys), List.length_modifyHead, ih]
        simp only [hterm]

/-- An open line is the last one, and it is not empty. -/
theorem exists_open_line {c : List α} (h : ¬ Terminated sep c) : ∃ whole tail, lines sep c = whole ++ [tail] ∧ tail ≠ [] := by
  induction c with
  | nil => exact absurd (Or.inl rfl) h
  | cons x xs ih =>
    rw [lines_cons]
    cases xs with
    | nil =>
      have hx : x ≠ sep := fun hx => h (Or.inr (by rw [hx]; rfl))
      exact ⟨[], [x], by simp [hx], List.cons_ne_nil x []⟩
    | cons y ys =>
      have hopen : ¬ Terminated sep (y :: ys) := by
        simpa [Terminated] using h
      obtain ⟨whole, tail, hlines, htail⟩ := ih hopen
      rw [hlines, if_neg (List.cons_ne_nil y ys)]
      split
      · exact ⟨[] :: whole, tail, rfl, htail⟩
      · cases whole with
        | nil => exact ⟨[], x :: tail, rfl, List.cons_ne_nil x tail⟩
        | cons l ls => exact ⟨(x :: l) :: ls, tail, rfl, htail⟩

/-- The line that is open, if there is one. -/
def openLine (sep : α) (c : List α) : Option (List α) := if Terminated sep c then none else (lines sep c).getLast?

theorem openLine_append {p : List α} (hp : p.getLast? = some sep) (c : List α) : openLine sep (p ++ c) = openLine sep c := by
  have hterm : Terminated sep p := Or.inr hp
  cases c with
  | nil =>
    have hnil : Terminated sep ([] : List α) := Or.inl rfl
    rw [List.append_nil, openLine, openLine, if_pos hterm, if_pos hnil]
  | cons x xs =>
    have hiff : Terminated sep (p ++ x :: xs) ↔ Terminated sep (x :: xs) := by simp [Terminated]
    obtain ⟨l, ls, hls⟩ := List.exists_cons_of_ne_nil (mt lines_eq_nil.1 (List.cons_ne_nil x xs))
    rw [openLine, openLine, lines_append hterm, hls]
    simp only [hiff]
    rw [List.getLast?_append_cons]

/-- The pieces are the lines with their separators, and the open line. -/
theorem pieces_eq_lines (c : List α) : ∃ whole, lines sep c = whole ++ (openLine sep c).toList ∧
    pieces sep c = whole.map (· ++ [sep]) ++ (openLine sep c).toList := by
  generalize hps : pieces sep c = ps
  induction ps generalizing c with
  | nil =>
    rw [pieces_eq_nil] at hps
    subst hps
    exact ⟨[], by simp [openLine, Terminated], by simp [openLine, Terminated]⟩
  | cons p ps ih =>
    have hne : p ≠ [] := ne_nil_of_mem_pieces (hps ▸ List.mem_cons_self)
    obtain ⟨hc, hrest, hlast⟩ := pieces_eq_cons hps
    by_cases hp : p.getLast? = some sep
    · obtain ⟨whole, hlines, hpieces⟩ := ih ps.flatten hrest
      have hchomp : chomp sep p ++ [sep] = p := by
        rw [chomp, if_pos hp]
        exact List.dropLast_append_getLast? sep hp
      refine ⟨chomp sep p :: whole, ?_, ?_⟩
      · rw [lines, hps, List.map_cons, ← hrest, ← lines, hlines, hc, openLine_append hp]
        rfl
      · rw [hc, openLine_append hp, List.map_cons, hchomp, List.cons_append, ← hpieces]
    · have hps' : ps = [] := hlast.resolve_left hp
      subst hps'
      have hcp : c = p := by simpa using hc
      have hopen : ¬ Terminated sep c := by
        rintro (hnil | hsep)
        · exact hne (hcp ▸ hnil)
        · exact hp (hcp ▸ hsep)
      have hlines : lines sep c = [p] := by rw [lines, hps, List.map_singleton, chomp, if_neg hp]
      have hline : openLine sep c = some p := by rw [openLine, if_neg hopen, hlines, List.getLast?_singleton]
      rw [hline]
      exact ⟨[], hlines, rfl⟩

/-- The open line is not empty. -/
theorem ne_nil_of_openLine {c line : List α} (h : openLine sep c = some line) : line ≠ [] := by
  unfold openLine at h
  split at h
  · cases h
  · rename_i hopen
    obtain ⟨whole, tail, hlines, htail⟩ := exists_open_line hopen
    rw [hlines, List.getLast?_concat] at h
    cases h
    exact htail

/-- The lines and the separators are the whole text. -/
theorem sum_length_lines (c : List α) : ((lines sep c).map List.length).sum + c.count sep = c.length := by
  induction c with
  | nil => rfl
  | cons x xs ih =>
    rw [lines_cons, List.length_cons]
    by_cases hx : x = sep
    · rw [if_pos hx, hx, List.count_cons_self, List.map_cons, List.sum_cons, List.length_nil]
      omega
    · rw [if_neg hx, List.count_cons_of_ne hx]
      by_cases hxs : xs = []
      · rw [if_pos hxs, hxs]
        rfl
      · obtain ⟨l, ls, hls⟩ := List.exists_cons_of_ne_nil (mt lines_eq_nil.1 hxs)
        rw [hls, List.map_cons, List.sum_cons] at ih
        rw [if_neg hxs, hls, List.modifyHead_cons, List.map_cons, List.sum_cons, List.length_cons]
        omega

theorem length_lines_le (c : List α) : (lines sep c).length ≤ c.length := by
  induction c with
  | nil => exact Nat.le_refl 0
  | cons x xs ih =>
    rw [lines_cons, List.length_cons]
    split
    · rw [List.length_cons]
      omega
    · split
      · simp
      · rw [List.length_modifyHead]
        omega

theorem not_mem_of_mem_lines {c line : List α} (h : line ∈ lines sep c) : sep ∉ line := by
  induction c generalizing line with
  | nil => cases h
  | cons x xs ih =>
    rw [lines_cons] at h
    split at h
    · rcases List.mem_cons.1 h with rfl | h
      · exact List.not_mem_nil
      · exact ih h
    · rename_i hx
      split at h
      · rw [List.mem_singleton.1 h, List.mem_singleton]
        exact Ne.symm hx
      · cases hl : lines sep xs with
        | nil =>
          rw [hl] at h
          cases h
        | cons l ls =>
          rw [hl, List.modifyHead_cons] at h
          rcases List.mem_cons.1 h with rfl | h
          · rw [List.mem_cons, not_or]
            exact ⟨Ne.symm hx, ih (hl ▸ List.mem_cons_self)⟩
          · exact ih (hl ▸ List.mem_cons_of_mem l h)

/-- Pieces that others follow are terminated. -/
theorem terminated_of_pieces {c : List α} {a b : List (List α)} (h : pieces sep c = a ++ b) (hb : b ≠ []) :
    ∀ p ∈ a, ∃ l, sep ∉ l ∧ p = l ++ [sep] := by
  obtain ⟨whole, hlines, hpieces⟩ := @pieces_eq_lines _ _ sep c
  have hlen : (openLine sep c).toList.length ≤ b.length := by
    have := List.length_pos_iff.2 hb
    cases openLine sep c <;> simp
    omega
  have hfront : a <+: whole.map (· ++ [sep]) := by
    refine @List.prefix_of_prefix_length_le _ a (whole.map (· ++ [sep])) (pieces sep c) (h ▸ List.prefix_append a b)
      (hpieces ▸ List.prefix_append _ _) ?_
    have := congrArg List.length (h.symm.trans hpieces)
    rw [List.length_append, List.length_append] at this
    omega
  intro p hp
  obtain ⟨line, hline, rfl⟩ := List.mem_map.1 (hfront.subset hp)
  exact ⟨line, not_mem_of_mem_lines (hlines ▸ List.mem_append_left _ hline), rfl⟩

omit [DecidableEq α] in
/-- A text begins with one terminated line only. -/
theorem append_sep_inj {l l' a b : List α} (hl : sep ∉ l) (hl' : sep ∉ l') (h : l ++ [sep] ++ a = l' ++ [sep] ++ b) :
    l = l' ∧ a = b := by
  induction l generalizing l' with
  | nil =>
    cases l' with
    | nil => exact ⟨rfl, List.append_cancel_left h⟩
    | cons y l' =>
      obtain ⟨rfl, -⟩ := List.cons_eq_cons.1 h
      exact absurd List.mem_cons_self hl'
  | cons x l ih =>
    cases l' with
    | nil =>
      obtain ⟨rfl, -⟩ := List.cons_eq_cons.1 h
      exact absurd List.mem_cons_self hl
    | cons y l' =>
      obtain ⟨rfl, hrest⟩ := List.cons_eq_cons.1 h
      rw [List.mem_cons, not_or] at hl hl'
      obtain ⟨rfl, heq⟩ := ih hl.2 hl'.2 hrest
      exact ⟨rfl, heq⟩

/-- The first line is as long as what has no separator in front of the text. -/
theorem length_le_head {w : List α} (hw : sep ∉ w) (post : List α) {l : List α} {ls : List (List α)}
    (h : lines sep (w ++ post) = l :: ls) : w.length ≤ l.length := by
  induction w generalizing l ls with
  | nil => exact Nat.zero_le _
  | cons x w ih =>
    rw [List.mem_cons, not_or] at hw
    rw [List.cons_append, lines_cons, if_neg (Ne.symm hw.1)] at h
    split at h
    · rename_i hnil
      rw [List.append_eq_nil_iff] at hnil
      cases h
      simp [hnil.1]
    · cases hl : lines sep (w ++ post) with
      | nil =>
        rw [hl] at h
        cases h
      | cons l' ls' =>
        rw [hl, List.modifyHead_cons] at h
        cases h
        exact Nat.succ_le_succ (ih hw.2 hl)

/-- What holds no separator lies within a line. -/
theorem exists_line_of_append {c w : List α} (hw : sep ∉ w) (post : List α) (hne : w ≠ []) :
    ∀ pre : List α, c = pre ++ w ++ post → ∃ line ∈ lines sep c, w.length ≤ line.length := by
  intro pre
  induction pre generalizing c with
  | nil =>
    rintro rfl
    rw [List.nil_append]
    cases hl : lines sep (w ++ post) with
    | nil => exact absurd (List.append_eq_nil_iff.1 (lines_eq_nil.1 hl)).1 hne
    | cons l ls => exact ⟨l, List.mem_cons_self, length_le_head hw post hl⟩
  | cons x pre ih =>
    rintro rfl
    obtain ⟨line, hline, hlen⟩ := ih rfl
    rw [List.cons_append, List.cons_append, lines_cons]
    split
    · exact ⟨line, List.mem_cons_of_mem _ hline, hlen⟩
    · split
      · rename_i hnil
        rw [hnil] at hline
        cases hline
      · cases hl : lines sep (pre ++ w ++ post) with
        | nil =>
          rw [hl] at hline
          cases hline
        | cons l ls =>
          rw [hl] at hline
          rw [List.modifyHead_cons]
          rcases List.mem_cons.1 hline with rfl | hline
          · exact ⟨x :: line, List.mem_cons_self, Nat.le_succ_of_le hlen⟩
          · exact ⟨line, List.mem_cons_of_mem _ hline, hlen⟩

/-- A line that is terminated. -/
theorem lines_line {line : List α} (h : sep ∉ line) : lines sep (line ++ [sep]) = [line] := by
  induction line with
  | nil => simp [lines_cons]
  | cons x xs ih =>
    rw [List.mem_cons, not_or] at h
    rw [List.cons_append, lines_cons, if_neg (Ne.symm h.1), if_neg (by simp), ih h.2]
    rfl

theorem pieces_line {line : List α} (h : sep ∉ line) : pieces sep (line ++ [sep]) = [line ++ [sep]] := by
  induction line with
  | nil => simp [pieces]
  | cons x xs ih =>
    rw [List.mem_cons, not_or] at h
    rw [List.cons_append, pieces, if_neg (Ne.symm h.1), ih h.2]

/-- Lines that are written with their separators. -/
theorem lines_flatMap {ls : List (List α)} (h : ∀ line ∈ ls, sep ∉ line) : lines sep (ls.flatMap (· ++ [sep])) = ls := by
  induction ls with
  | nil => rfl
  | cons line ls ih =>
    have hterm : Terminated sep (line ++ [sep]) := Or.inr (by simp)
    rw [List.flatMap_cons, lines_append hterm, lines_line (h line List.mem_cons_self),
      ih fun l hl => h l (List.mem_cons_of_mem line hl)]
    rfl

/-- The lines of a text, with their separators, are the text. -/
theorem flatMap_lines {c : List α} (h : Terminated sep c) : (lines sep c).flatMap (· ++ [sep]) = c := by
  induction c with
  | nil => rfl
  | cons x xs ih =>
    have hxs := ih h.of_cons
    rw [lines_cons]
    by_cases hx : x = sep
    · rw [if_pos hx, List.flatMap_cons, hxs, hx]
      rfl
    · cases xs with
      | nil => simp [Terminated, hx] at h
      | cons y ys =>
        obtain ⟨l, ls, hls⟩ := List.exists_cons_of_ne_nil (mt lines_eq_nil.1 (List.cons_ne_nil y ys))
        rw [hls, List.flatMap_cons] at hxs
        rw [if_neg hx, if_neg (List.cons_ne_nil y ys), hls, List.modifyHead_cons, List.flatMap_cons, List.cons_append,
          List.cons_append, hxs]

/-- The lines as they come between the separators. -/
theorem splitOn_chomp {c : List α} (h : c ≠ []) : (chomp sep c).splitOn sep = lines sep c := by
  induction c with
  | nil => exact absurd rfl h
  | cons x xs ih =>
    rw [lines_cons]
    by_cases hxs : xs = []
    · subst hxs
      by_cases hx : x = sep
      · subst hx
        simp [chomp]
      · simp [chomp, hx, List.splitOn, List.splitOnP_cons_eq_if_modifyHead]
    · rw [chomp_cons hxs, List.splitOn, List.splitOnP_cons_eq_if_modifyHead, ← List.splitOn, ih hxs, if_neg hxs]
      simp

/-- Behind the last separator there is one piece more. -/
theorem splitOn_eq_lines (c : List α) : c.splitOn sep = lines sep c ++ if Terminated sep c then [[]] else [] := by
  induction c with
  | nil => simp [Terminated]
  | cons x xs ih =>
    rw [lines_cons, List.splitOn, List.splitOnP_cons_eq_if_modifyHead, ← List.splitOn, ih]
    by_cases hxs : xs = []
    · subst hxs
      by_cases hx : x = sep
      · simp [Terminated, hx]
      · simp [Terminated, hx]
    · have hterm : Terminated sep (x :: xs) ↔ Terminated sep xs := by
        obtain ⟨y, ys, rfl⟩ := List.exists_cons_of_ne_nil hxs
        simp [Terminated]
      have hne : lines sep xs ≠ [] := mt lines_eq_nil.1 hxs
      obtain ⟨l, ls, hls⟩ := List.exists_cons_of_ne_nil hne
      rw [if_congr hterm rfl rfl, hls]
      by_cases hx : x = sep <;> simp [hx, hxs]

/-- Texts that are written with separators behind them are read piece by piece. -/
theorem lines_flatMap_splitOn (ls : List (List α)) :
    lines sep (ls.flatMap (· ++ [sep])) = ls.flatMap (·.splitOn sep) := by
  induction ls with
  | nil => rfl
  | cons text ls ih =>
    have hterm : Terminated sep (text ++ [sep]) := Or.inr (by simp)
    have hchomp : chomp sep (text ++ [sep]) = text := by simp [chomp]
    rw [List.flatMap_cons, lines_append hterm, ih, ← splitOn_chomp (by simp), hchomp, List.flatMap_cons]

omit [DecidableEq α] in
/-- What a joined text has besides separators is in its parts. -/
theorem mem_intercalate {x : α} (hx : x ≠ sep) : ∀ ps : List (List α), x ∈ [sep].intercalate ps ↔ ∃ p ∈ ps, x ∈ p
  | [] => by simp [List.intercalate]
  | [p] => by simp [List.intercalate]
  | p :: q :: ps => by
    have hcons : [sep].intercalate (p :: q :: ps) = p ++ sep :: [sep].intercalate (q :: ps) := by
      simp [List.intercalate]
    rw [hcons, List.mem_append, List.mem_cons, mem_intercalate hx (q :: ps), or_iff_right hx]
    simp

/-- What a text has besides separators is in the parts between them. -/
theorem mem_iff_mem_splitOn {x : α} (hx : x ≠ sep) (s : List α) : x ∈ s ↔ ∃ p ∈ s.splitOn sep, x ∈ p := by
  rw [← mem_intercalate hx, List.intercalate_splitOn]

end Lines
