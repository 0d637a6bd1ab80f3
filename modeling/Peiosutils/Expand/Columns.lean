import Peiosutils.Lib.Gaps

/-!
# Columns of a line

The column and the leading blanks of a line, byte by byte, and a text with its tabs replaced by the spaces from their
columns on (`expanded`). The columns are reckoned once from the start of each line, and once as they are held over reads
some of which are passed over: the two give the same text exactly when no read that starts behind a non-blank has a tab
among its leading blanks (where only leading tabs are replaced) and the gaps have equal widths (`held_eq_iff`).
-/

set_option autoImplicit false

namespace Peiosutils.Expand

open Gaps (Mark)

def tab : UInt8 := 9
def backspace : UInt8 := 8
def newline : UInt8 := 10
def carriageReturn : UInt8 := 13
def space : UInt8 := 32

/-- A line so far: the column, and whether there are only blanks. -/
@[ext] structure Line where
  col : Nat
  init : Bool

def Line.start : Line := ⟨0, true⟩

section Meaning

-- The spaces from a column to the next stop.
variable (spaces : Nat → Nat)

def Line.advance (l : Line) (b : UInt8) : Line :=
  if b = tab then ⟨l.col + spaces l.col, l.init⟩
  else if b = backspace then ⟨l.col - 1, false⟩
  else if b = newline then .start
  else ⟨l.col + 1, l.init && decide (b = space)⟩

def Line.after (l : Line) (bs : List UInt8) : Line := bs.foldl (Line.advance spaces) l

-- Whether only leading tabs are replaced.
variable (iflag : Bool)

/-- What stands for a byte. -/
def Line.written (l : Line) (b : UInt8) : List UInt8 :=
  if b = tab ∧ (l.init = true ∨ iflag = false) then List.replicate (spaces l.col) space else [b]

/-- The bytes with their tabs replaced. -/
def expanded (l : Line) : List UInt8 → List UInt8
  | [] => []
  | b :: bs => l.written spaces iflag b ++ expanded (l.advance spaces b) bs

/-! ## Marks -/

def Line.mark (l : Line) (b : UInt8) : Mark UInt8 :=
  if b = tab ∧ (l.init = true ∨ iflag = false) then .blanks (spaces l.col)
  else if b = space then .blanks 1
  else .item b

def marks (l : Line) : List UInt8 → List (Mark UInt8)
  | [] => []
  | b :: bs => l.mark spaces iflag b :: marks (l.advance spaces b) bs

theorem expanded_eq (bs : List UInt8) : ∀ l : Line,
    expanded spaces iflag l bs = Gaps.text space (marks spaces iflag l bs) := by
  induction bs with
  | nil => intro l; rfl
  | cons b bs ih =>
    intro l
    rw [expanded, marks, ih, Line.written, Line.mark]
    split
    · rfl
    · split
      · rename_i hspace
        rw [hspace]
        rfl
      · rfl

theorem marks_append (bs bs' : List UInt8) : ∀ l : Line,
    marks spaces iflag l (bs ++ bs') = marks spaces iflag l bs ++ marks spaces iflag (l.after spaces bs) bs' := by
  induction bs with
  | nil => intro l; rfl
  | cons b bs ih => intro l; rw [List.cons_append, marks, ih, marks]; rfl

theorem space_notMem (bs : List UInt8) : ∀ l : Line, space ∉ Gaps.items (marks spaces iflag l bs) := by
  induction bs with
  | nil => intro l; simp [marks, Gaps.items]
  | cons b bs ih =>
    intro l
    rw [marks, Line.mark]
    split
    · exact ih _
    · split
      · exact ih _
      · rename_i hspace
        rw [Gaps.items, List.mem_cons, not_or]
        exact ⟨Ne.symm hspace, ih _⟩

/-- Without tabs, nothing is replaced. -/
theorem expanded_of_notMem {bs : List UInt8} (h : tab ∉ bs) : ∀ l : Line, expanded spaces iflag l bs = bs := by
  induction bs with
  | nil => intro l; rfl
  | cons b bs ih =>
    intro l
    rw [List.mem_cons, not_or] at h
    rw [expanded, ih h.2, Line.written, if_neg fun hb => h.1 hb.1.symm]
    rfl

/-! ## Which tabs are replaced

It depends on the leading blanks alone. -/

def blank (b : UInt8) : Bool := b = tab || b = space

theorem init_advance {l l' : Line} (h : l.init = l'.init) (b : UInt8) :
    (l.advance spaces b).init = (l'.advance spaces b).init := by
  unfold Line.advance
  split
  · exact h
  · split
    · rfl
    · split
      · rfl
      · simp only [h]

theorem items_congr (bs : List UInt8) : ∀ {l l' : Line}, l.init = l'.init →
    Gaps.items (marks spaces iflag l bs) = Gaps.items (marks spaces iflag l' bs) := by
  induction bs with
  | nil => intro l l' _; rfl
  | cons b bs ih =>
    intro l l' h
    rw [marks, marks, Line.mark, Line.mark, h]
    split
    · exact ih (init_advance spaces h b)
    · split
      · exact ih (init_advance spaces h b)
      · rw [Gaps.items, Gaps.items, ih (init_advance spaces h b)]

theorem items_all (bs : List UInt8) : ∀ l l' : Line,
    Gaps.items (marks spaces false l bs) = Gaps.items (marks spaces false l' bs) := by
  induction bs with
  | nil => intro l l'; rfl
  | cons b bs ih =>
    intro l l'
    simp only [marks, Line.mark, or_true, and_true]
    split
    · exact ih _ _
    · split
      · exact ih _ _
      · rw [Gaps.items, Gaps.items, ih]

/-- Where only leading tabs are replaced, those among the leading blanks of the bytes are items behind a non-blank, and
behind blanks they are not. -/
theorem items_leading {bs : List UInt8} : ∀ {l l' : Line}, l.init = true → l'.init = false →
    (Gaps.items (marks spaces true l bs)).length ≤ (Gaps.items (marks spaces true l' bs)).length ∧
      (Gaps.items (marks spaces true l bs) = Gaps.items (marks spaces true l' bs) ↔ tab ∉ bs.takeWhile blank) := by
  induction bs with
  | nil => intro l l' _ _; simp [marks, Gaps.items]
  | cons b bs ih =>
    intro l l' hl hl'
    by_cases htab : b = tab
    · subst htab
      have hmark : l.mark spaces true tab = .blanks (spaces l.col) := by simp [Line.mark, hl]
      have hmark' : l'.mark spaces true tab = .item tab := by simp [Line.mark, hl', tab, space]
      obtain ⟨hle, -⟩ := ih (show (l.advance spaces tab).init = true from hl)
        (show (l'.advance spaces tab).init = false from hl')
      rw [marks, marks, hmark, hmark', Gaps.items, Gaps.items, List.length_cons]
      refine ⟨Nat.le_succ_of_le hle, iff_of_false (fun h => ?_) ?_⟩
      · have := congrArg List.length h
        rw [List.length_cons] at this
        omega
      · simp [blank]
    · have hmark : ∀ l : Line, l.mark spaces true b = if b = space then .blanks 1 else .item b := by
        simp [Line.mark, htab]
      rw [marks, marks, hmark, hmark]
      by_cases hspace : b = space
      · subst hspace
        have hadvance : ∀ l : Line, (l.advance spaces space).init = l.init := by
          simp [Line.advance, tab, space, backspace, newline]
        simp only [if_true, Gaps.items]
        rw [List.takeWhile_cons_of_pos (by simp [blank]), List.mem_cons, not_or]
        obtain ⟨hle, hiff⟩ := ih ((hadvance l).trans hl) ((hadvance l').trans hl')
        exact ⟨hle, hiff.trans ⟨fun h => ⟨by decide, h⟩, And.right⟩⟩
      · have hsame : (l.advance spaces b).init = (l'.advance spaces b).init := by
          simp only [Line.advance, htab, if_false]
          split
          · rfl
          · split
            · rfl
            · simp [hspace]
        rw [if_neg hspace, Gaps.items, Gaps.items, items_congr spaces true bs hsame,
          List.takeWhile_cons_of_neg (by simp [blank, htab, hspace])]
        simp

/-- From leading blanks on, as opposed to any start, the items are the same when no tab among the leading blanks is one
only by the start. -/
theorem items_init (bs : List UInt8) {l : Line} (hl : l.init = true) (l' : Line) :
    (Gaps.items (marks spaces iflag l bs)).length ≤ (Gaps.items (marks spaces iflag l' bs)).length ∧
      (Gaps.items (marks spaces iflag l bs) = Gaps.items (marks spaces iflag l' bs) ↔
        (iflag = true → l'.init = false → tab ∉ bs.takeWhile blank)) := by
  cases iflag with
  | false => simp [items_all spaces bs l l']
  | true =>
    cases hl' : l'.init with
    | true => simp [items_congr spaces true bs (hl.trans hl'.symm)]
    | false => simpa using items_leading spaces hl hl'

/-! ## Columns held over reads -/

-- Whether characters of several bytes are looked for.
variable (utf8 : Bool)

/-- A read whose bytes do not count for the column. -/
def PassedOver (r : List UInt8) : Prop :=
  tab ∉ r ∧ backspace ∉ r ∧ (utf8 = true ∨ carriageReturn ∉ r) ∧ newline ∉ r

instance (r : List UInt8) : Decidable (PassedOver utf8 r) := by unfold PassedOver; infer_instance

/-- The column that is held behind a read. -/
def heldCol (col : Nat) (r : List UInt8) : Nat :=
  if PassedOver utf8 r then col else (Line.after spaces ⟨col, true⟩ r).col

/-- The marks of a text in reads, each of which starts anew with leading blanks. -/
def heldMarks (col : Nat) : List (List UInt8) → List (Mark UInt8)
  | [] => []
  | r :: rs => marks spaces iflag ⟨col, true⟩ r ++ heldMarks (heldCol spaces utf8 col r) rs

/-- No read that starts behind a non-blank of its line has a tab among its leading blanks. -/
def Leading (l : Line) : List (List UInt8) → Prop
  | [] => True
  | r :: rs => (l.init = false → tab ∉ r.takeWhile blank) ∧ Leading (l.after spaces r) rs

theorem items_held (reads : List (List UInt8)) : ∀ (col : Nat) (l : Line),
    (Gaps.items (heldMarks spaces iflag utf8 col reads)).length ≤
        (Gaps.items (marks spaces iflag l reads.flatten)).length ∧
      (Gaps.items (heldMarks spaces iflag utf8 col reads) = Gaps.items (marks spaces iflag l reads.flatten) ↔
        (iflag = true → Leading spaces l reads)) := by
  induction reads with
  | nil => intro col l; simp [heldMarks, marks, Gaps.items, Leading]
  | cons r rs ih =>
    intro col l
    obtain ⟨hle, hiff⟩ := ih (heldCol spaces utf8 col r) (l.after spaces r)
    obtain ⟨hler, hiffr⟩ := items_init spaces iflag r (l := ⟨col, true⟩) rfl l
    rw [heldMarks, List.flatten_cons, marks_append, Gaps.items_append, Gaps.items_append, List.length_append,
      List.length_append, Leading, imp_and]
    refine ⟨Nat.add_le_add hler hle, ?_⟩
    rw [← hiff, ← hiffr]
    constructor
    · intro h
      have hlen := congrArg List.length h
      rw [List.length_append, List.length_append] at hlen
      exact List.append_inj h (by omega)
    · rintro ⟨hr, hrs⟩
      rw [hr, hrs]

theorem space_notMem_held (reads : List (List UInt8)) : ∀ col,
    space ∉ Gaps.items (heldMarks spaces iflag utf8 col reads) := by
  induction reads with
  | nil => intro col; simp [heldMarks, Gaps.items]
  | cons r rs ih =>
    intro col
    rw [heldMarks, Gaps.items_append, List.mem_append, not_or]
    exact ⟨space_notMem spaces iflag r _, ih _⟩

/-- **The text by the columns that are held** is that by the columns of the lines exactly when no tab is taken for a
leading one wrongly, and each gap is as wide by the one columns as by the others. -/
theorem held_eq_iff (reads : List (List UInt8)) :
    Gaps.text space (heldMarks spaces iflag utf8 0 reads) = expanded spaces iflag .start reads.flatten ↔
      (iflag = true → Leading spaces .start reads) ∧
        Gaps.gaps 0 (heldMarks spaces iflag utf8 0 reads) =
          Gaps.gaps 0 (marks spaces iflag .start reads.flatten) := by
  rw [expanded_eq, Gaps.text_eq_iff (space_notMem_held spaces iflag utf8 reads 0) (space_notMem spaces iflag _ _),
    (items_held spaces iflag utf8 reads 0 .start).2]

/-- Reads that end with their lines hold the columns of the lines. -/
theorem heldMarks_lines : ∀ {reads : List (List UInt8)}, (∀ r ∈ reads.dropLast, r.getLast? = some newline) →
    heldMarks spaces iflag utf8 0 reads = marks spaces iflag .start reads.flatten
  | [], _ => rfl
  | [r], _ => by
    rw [heldMarks, heldMarks, List.append_nil, List.flatten_cons, List.flatten_nil, List.append_nil]
    rfl
  | r :: r' :: rs, h => by
    rw [List.dropLast_cons_cons, List.forall_mem_cons] at h
    obtain ⟨front, rfl⟩ := List.getLast?_eq_some_iff.1 h.1
    have hafter : ∀ l : Line, l.after spaces (front ++ [newline]) = .start := by
      intro l
      rw [Line.after, List.foldl_append]
      rfl
    have hcol : heldCol spaces utf8 0 (front ++ [newline]) = 0 := by
      rw [heldCol, if_neg fun hp => hp.2.2.2 (by simp), hafter]
      rfl
    rw [heldMarks, hcol, heldMarks_lines h.2, List.flatten_cons (l := front ++ [newline]),
      marks_append spaces iflag (front ++ [newline]), hafter]
    rfl

end Meaning

end Peiosutils.Expand
