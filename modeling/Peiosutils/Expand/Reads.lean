import Peiosutils.Expand.Columns
import Peiosutils.Expand.Tabstops
import Peiosutils.Lib.Utf8

/-!
# Expanding what is read (`expand.rs`)

A read without tabs is written as it is, and its bytes count for the column only behind its last newline; any other read
goes byte by byte, with leading blanks that start anew. So the column that is held falls behind that of the line
(`expandFile_iff`), and the result is right under conditions on how the bytes are read (`expand_meets_iff`).
-/

set_option autoImplicit false

namespace Peiosutils.Expand

/-- The most bytes that can be allocated. -/
def isizeMax : Nat := 9223372036854775807

/-- `" ".repeat(n)`, which panics where the length is out of range. -/
def repeatSpaces (n : Nat) : Option (List UInt8) := if n ≤ isizeMax then some (List.replicate n space) else none

/-! ## The options -/

structure Options where
  tabstops : List Nat
  tspaces : List UInt8
  iflag : Bool
  utf8 : Bool
  remainingMode : RemainingMode

/-- The steps from each stop to the next one. -/
def steps (pr : Nat) : List Nat → List Nat
  | [] => []
  | stop :: stops => (stop - pr) :: steps stop stops

/-- The longest string of spaces that the stops themselves need. -/
def nspaces (tabstops : List Nat) : Nat := (steps 0 tabstops).foldl max 0

def Options.new (tabs : RemainingMode × List Nat) (iflag utf8 : Bool) : Option Options := do
  let tspaces ← repeatSpaces (nspaces tabs.2)
  return ⟨tabs.2, tspaces, iflag, utf8, tabs.1⟩

/-! ## One read -/

inductive CharType where
  | backspace
  | tab
  | other
  deriving DecidableEq, Repr

-- The columns of a character.
variable (width : Char → Option Nat)

/-- The kind, the width and the number of bytes of the character at `b`, in front of `rest`. -/
def classifyChar (utf8 : Bool) (b : UInt8) (rest : List UInt8) : CharType × Nat × Nat :=
  if b < 128 then
    if b = tab then (.tab, 0, 1) else if b = backspace then (.backspace, 0, 1) else (.other, 1, 1)
  else if utf8 then
    -- `char::from(b)` has two bytes, whatever the sequence that `b` starts.
    match rest with
    | [] => (.other, 1, 1)
    | c :: _ =>
      match (Utf8.decodeOne b [c]).1 with
      | some t => (.other, (width t).getD 0, 2)
      | none => (.other, 1, 1)
  else (.other, 1, 1)

def writeTabSpaces (nts : Nat) (tspaces : List UInt8) : Option (List UInt8) :=
  if nts ≤ tspaces.length then some (tspaces.take nts) else repeatSpaces nts

/-- What is written for the character of the bytes `here`, and the line behind it; none is a panic. -/
def expandChar (options : Options) (ctype : CharType) (cwidth : Nat) (b : UInt8) (here : List UInt8) (l : Line) :
    Option (List UInt8 × Line) :=
  match ctype with
  | .tab =>
    let nts := nextTabstop options.tabstops l.col options.remainingMode
    (checkedAdd l.col nts).bind fun col =>
      (if l.init || !options.iflag then writeTabSpaces nts options.tspaces else some here).map fun written =>
        (written, ⟨col, l.init⟩)
  | .backspace => some (here, ⟨l.col - 1, l.init && decide (b = space)⟩)
  | .other =>
    (checkedAdd l.col cwidth).map fun col =>
      (here, if b = newline then ⟨0, true⟩ else ⟨col, l.init && decide (b = space)⟩)

def expandLoop (options : Options) : List UInt8 → Line → Option (List UInt8 × Nat)
  | [], l => some ([], l.col)
  | b :: rest, l => do
    let (ctype, cwidth, nbytes) := classifyChar width options.utf8 b rest
    let (written, l) ← expandChar options ctype cwidth b ((b :: rest).take nbytes) l
    let (output, col) ← expandLoop options (rest.drop (nbytes - 1)) l
    return (written ++ output, col)
termination_by buf => buf.length
decreasing_by simp only [List.length_drop, List.length_cons]; omega

/-- The index of the last item that meets a condition. -/
def rposition {α : Type} (p : α → Bool) (xs : List α) : Option Nat :=
  (xs.reverse.findIdx? p).map (xs.length - 1 - ·)

/-- What is written for a read, and the column behind it. -/
def expandBuf (options : Options) (buf : List UInt8) (col : Nat) : Option (List UInt8 × Nat) :=
  if !buf.contains tab && !buf.contains backspace && (options.utf8 || !buf.contains carriageReturn) then
    match rposition (· = newline) buf with
    | some n => some (buf, buf.length - n - 1)
    | none => some (buf, col)
  else expandLoop width options buf ⟨col, true⟩

/-- The output for the reads of a file; an empty read is the end. -/
def expandFile (options : Options) : List (List UInt8) → Nat → Option (List UInt8)
  | [], _ => some []
  | buf :: reads, col =>
    if buf = [] then some []
    else do
      let (written, col) ← expandBuf width options buf col
      let output ← expandFile options reads col
      return written ++ output

/-- The output with tab stops that were accepted. -/
def expand (tabs : RemainingMode × List Nat) (iflag utf8 : Bool) (reads : List (List UInt8)) : Option (List UInt8) := do
  let options ← Options.new tabs iflag utf8
  expandFile width options reads 0

/-! ## What fits -/

section Fits

variable (spaces : Nat → Nat) (iflag : Bool)

/-- The column behind a byte is in range, and so are the spaces of a tab that is replaced. -/
def Fits (l : Line) (b : UInt8) : Prop :=
  if b = tab then l.col + spaces l.col < usizeLimit ∧ (l.init = true ∨ iflag = false → spaces l.col ≤ isizeMax)
  else b ≠ backspace → l.col + 1 < usizeLimit

def FitsAll (l : Line) : List UInt8 → Prop
  | [] => True
  | b :: bs => Fits spaces iflag l b ∧ FitsAll (l.advance spaces b) bs

/-- A read that is written as it is. -/
def Verbatim (utf8 : Bool) (r : List UInt8) : Prop :=
  tab ∉ r ∧ backspace ∉ r ∧ (utf8 = true ∨ carriageReturn ∉ r)

/-- Each read that goes byte by byte fits from the column on that is held. -/
def FitsReads (utf8 : Bool) (col : Nat) : List (List UInt8) → Prop
  | [] => True
  | r :: rs =>
    (¬ Verbatim utf8 r → FitsAll spaces iflag ⟨col, true⟩ r) ∧ FitsReads utf8 (heldCol spaces utf8 col r) rs

end Fits

/-! ## A read byte by byte -/

/-- The spaces to the next stop of the options. -/
def Options.spaces (o : Options) (col : Nat) : Nat := nextTabstop o.tabstops col o.remainingMode

/-- The precomputed spaces are spaces, as many as can be. -/
def Options.Spaced (o : Options) : Prop := ∃ n, n ≤ isizeMax ∧ o.tspaces = List.replicate n space

theorem writeTabSpaces_eq {o : Options} (h : o.Spaced) (nts : Nat) :
    writeTabSpaces nts o.tspaces = repeatSpaces nts := by
  obtain ⟨n, hn, htspaces⟩ := h
  unfold writeTabSpaces repeatSpaces
  rw [htspaces, List.length_replicate]
  split
  · rename_i hle
    rw [if_pos (Nat.le_trans hle hn), List.take_replicate, Nat.min_eq_left hle]
  · rfl

theorem repeatSpaces_eq_some {n : Nat} {bs : List UInt8} :
    repeatSpaces n = some bs ↔ n ≤ isizeMax ∧ bs = List.replicate n space := by
  unfold repeatSpaces
  split <;> simp_all [eq_comm]

theorem classifyChar_ascii {b : UInt8} (hb : b < 128) (utf8 : Bool) (rest : List UInt8) :
    classifyChar width utf8 b rest =
      if b = tab then (.tab, 0, 1) else if b = backspace then (.backspace, 0, 1) else (.other, 1, 1) := by
  unfold classifyChar
  rw [if_pos hb]

variable {o : Options} (hspaced : o.Spaced)

include hspaced

/-- **One byte**: it is written as it should be, exactly when it fits. -/
theorem expandChar_iff {b : UInt8} (hb : b < 128) (rest : List UInt8) (l : Line) (r : List UInt8 × Line) :
    expandChar o (classifyChar width o.utf8 b rest).1 (classifyChar width o.utf8 b rest).2.1 b [b] l = some r ↔
      Fits o.spaces o.iflag l b ∧ r = (l.written o.spaces o.iflag b, l.advance o.spaces b) := by
  rw [classifyChar_ascii width hb]
  unfold Fits Line.written Line.advance
  by_cases htab : b = tab
  · simp only [htab, if_true, true_and, expandChar, writeTabSpaces_eq hspaced, Option.bind_eq_some_iff,
      Option.map_eq_some_iff, checkedAdd_eq_some]
    change (∃ col, (l.col + o.spaces l.col < usizeLimit ∧ col = l.col + o.spaces l.col) ∧ _) ↔ _
    by_cases hrepl : l.init = true ∨ o.iflag = false
    · have hcond : (l.init || !o.iflag) = true := by simpa using hrepl
      simp only [hcond, if_true, repeatSpaces_eq_some, hrepl, forall_const]
      constructor
      · rintro ⟨_, ⟨hcol, rfl⟩, _, ⟨hsize, rfl⟩, rfl⟩
        exact ⟨⟨hcol, hsize⟩, rfl⟩
      · rintro ⟨⟨hcol, hsize⟩, rfl⟩
        exact ⟨_, ⟨hcol, rfl⟩, _, ⟨hsize, rfl⟩, rfl⟩
    · have hcond : (l.init || !o.iflag) = false := by simpa using hrepl
      simp only [hcond, Bool.false_eq_true, if_false, hrepl, false_imp_iff, and_true, Option.some.injEq]
      constructor
      · rintro ⟨_, ⟨hcol, rfl⟩, _, rfl, rfl⟩
        exact ⟨hcol, rfl⟩
      · rintro ⟨hcol, rfl⟩
        exact ⟨_, ⟨hcol, rfl⟩, _, rfl, rfl⟩
  · by_cases hback : b = backspace
    · subst hback
      have hspace : backspace ≠ space := by decide
      rw [if_neg htab, if_pos rfl, if_neg htab, if_neg fun h => htab h.1, if_neg htab, if_pos rfl]
      simp only [expandChar, hspace, decide_false, Bool.and_false, Option.some.injEq, ne_eq, not_true_eq_false,
        false_imp_iff, true_and]
      exact eq_comm
    · rw [if_neg htab, if_neg hback, if_neg htab, if_neg fun h => htab h.1, if_neg htab, if_neg hback]
      simp only [expandChar, hback, ne_eq, not_false_eq_true, forall_const, Option.map_eq_some_iff, checkedAdd_eq_some]
      constructor
      · rintro ⟨_, ⟨hcol, rfl⟩, rfl⟩
        exact ⟨hcol, rfl⟩
      · rintro ⟨hcol, rfl⟩
        exact ⟨_, ⟨hcol, rfl⟩, rfl⟩

/-- **The loop**: the bytes are expanded from the line on, exactly when they fit. -/
theorem expandLoop_iff {buf : List UInt8} (hascii : ∀ b ∈ buf, b < 128) : ∀ {l : Line} {r : List UInt8 × Nat},
    expandLoop width o buf l = some r ↔
      FitsAll o.spaces o.iflag l buf ∧ r = (expanded o.spaces o.iflag l buf, (l.after o.spaces buf).col) := by
  induction buf with
  | nil =>
    intro l r
    rw [expandLoop, Option.some.injEq, FitsAll, true_and]
    exact eq_comm
  | cons b rest ih =>
    intro l r
    rw [List.forall_mem_cons] at hascii
    have hnbytes : (classifyChar width o.utf8 b rest).2.2 = 1 := by
      rw [classifyChar_ascii width hascii.1]
      split
      · rfl
      · split <;> rfl
    rw [expandLoop]
    simp only [hnbytes, List.take_succ_cons, List.take_zero, Nat.sub_self, List.drop_zero, Option.bind_eq_bind,
      Option.bind_eq_some_iff, Option.pure_def, Option.some.injEq, expandChar_iff width hspaced hascii.1]
    rw [FitsAll, expanded, Line.after, List.foldl_cons]
    constructor
    · rintro ⟨_, ⟨hfits, rfl⟩, _, hrest, rfl⟩
      obtain ⟨hall, rfl⟩ := (ih hascii.2).1 hrest
      exact ⟨⟨hfits, hall⟩, rfl⟩
    · rintro ⟨⟨hfits, hall⟩, rfl⟩
      exact ⟨_, ⟨hfits, rfl⟩, _, (ih hascii.2).2 ⟨hall, rfl⟩, rfl⟩

/-! ## A read that is written as it is -/

omit hspaced in
/-- The items behind the last one that meets a condition. -/
theorem rposition_eq_some {α : Type} {p : α → Bool} {xs : List α} {n : Nat} (h : rposition p xs = some n) :
    ∃ front x back, xs = front ++ x :: back ∧ p x = true ∧ (∀ y ∈ back, p y = false) ∧
      xs.length - n - 1 = back.length := by
  obtain ⟨i, hi, rfl⟩ := Option.map_eq_some_iff.1 h
  obtain ⟨hlt, hp, hbefore⟩ := List.findIdx?_eq_some_iff_getElem.1 hi
  have hlen : i < xs.length := by rwa [List.length_reverse] at hlt
  have hsplit : xs.reverse = xs.reverse.take i ++ xs.reverse[i] :: xs.reverse.drop (i + 1) := by
    rw [← List.drop_eq_getElem_cons, List.take_append_drop]
  refine ⟨(xs.reverse.drop (i + 1)).reverse, xs.reverse[i], (xs.reverse.take i).reverse, ?_, hp, ?_, ?_⟩
  · have hxs := congrArg List.reverse hsplit
    rwa [List.reverse_reverse, List.reverse_append, List.reverse_cons, List.append_assoc, List.singleton_append] at hxs
  · intro y hy
    obtain ⟨k, hk, rfl⟩ := List.mem_take_iff_getElem.1 (List.mem_reverse.1 hy)
    exact Bool.eq_false_iff.2 (hbefore k (by omega))
  · rw [List.length_reverse, List.length_take, List.length_reverse]
    omega

omit hspaced in
theorem rposition_eq_none {α : Type} {p : α → Bool} {xs : List α} : rposition p xs = none ↔ ∀ x ∈ xs, p x = false := by
  simp [rposition]

section Plain

variable (spaces : Nat → Nat)

omit hspaced in
theorem col_after_plain {bs : List UInt8} (htab : tab ∉ bs) (hback : backspace ∉ bs) (hline : newline ∉ bs) :
    ∀ l : Line, (l.after spaces bs).col = l.col + bs.length := by
  induction bs with
  | nil => intro l; rfl
  | cons b bs ih =>
    intro l
    rw [List.mem_cons, not_or] at htab hback hline
    rw [Line.after, List.foldl_cons, ← Line.after, ih htab.2 hback.2 hline.2, Line.advance, if_neg (Ne.symm htab.1),
      if_neg (Ne.symm hback.1), if_neg (Ne.symm hline.1), List.length_cons, Nat.add_comm bs.length, ← Nat.add_assoc]

omit hspaced in
theorem after_newline (front back : List UInt8) (l : Line) :
    l.after spaces (front ++ newline :: back) = Line.start.after spaces back := by
  rw [Line.after, List.foldl_append, List.foldl_cons]
  rfl

end Plain

/-- **One read**: it is expanded from the column on that is held, exactly when it fits. -/
theorem expandBuf_iff {buf : List UInt8} (hascii : ∀ b ∈ buf, b < 128) {col : Nat} {r : List UInt8 × Nat} :
    expandBuf width o buf col = some r ↔
      (¬ Verbatim o.utf8 buf → FitsAll o.spaces o.iflag ⟨col, true⟩ buf) ∧
        r = (expanded o.spaces o.iflag ⟨col, true⟩ buf, heldCol o.spaces o.utf8 col buf) := by
  have hfast : (!buf.contains tab && !buf.contains backspace && (o.utf8 || !buf.contains carriageReturn)) = true ↔
      Verbatim o.utf8 buf := by
    simp [Verbatim, and_assoc]
  unfold expandBuf
  by_cases hverb : Verbatim o.utf8 buf
  · have ⟨htab, hback, hret⟩ := hverb
    rw [if_pos (hfast.2 hverb), expanded_of_notMem o.spaces o.iflag htab]
    have hcol : (match rposition (· = newline) buf with
        | some n => some (buf, buf.length - n - 1)
        | none => some (buf, col)) = some (buf, heldCol o.spaces o.utf8 col buf) := by
      cases hlast : rposition (· = newline) buf with
      | none =>
        have hline : newline ∉ buf := fun h => by simpa using rposition_eq_none.1 hlast _ h
        rw [heldCol, if_pos ⟨htab, hback, hret, hline⟩]
      | some n =>
        obtain ⟨front, x, back, rfl, hx, hbackplain, hlen⟩ := rposition_eq_some hlast
        obtain rfl : x = newline := by simpa using hx
        have hline : newline ∉ back := fun h => by simpa using hbackplain _ h
        rw [List.mem_append, List.mem_cons, not_or, not_or] at htab hback
        rw [heldCol, if_neg fun h => h.2.2.2 (by simp), after_newline,
          col_after_plain o.spaces htab.2.2 hback.2.2 hline, Line.start, Nat.zero_add]
        exact congrArg (fun n => some (_, n)) hlen
    rw [hcol, Option.some.injEq]
    simp [hverb, eq_comm]
  · have hpassed : ¬ PassedOver o.utf8 buf := fun h => hverb ⟨h.1, h.2.1, h.2.2.1⟩
    rw [if_neg fun h => hverb (hfast.1 h), expandLoop_iff width hspaced hascii, heldCol, if_neg hpassed]
    simp [hverb]

/-- **All reads**: they are expanded from the columns on that are held, exactly when they fit. -/
theorem expandFile_iff {reads : List (List UInt8)} (hne : ∀ r ∈ reads, r ≠ [])
    (hascii : ∀ r ∈ reads, ∀ b ∈ r, b < 128) : ∀ {col : Nat} {out : List UInt8},
    expandFile width o reads col = some out ↔
      FitsReads o.spaces o.iflag o.utf8 col reads ∧
        out = Gaps.text space (heldMarks o.spaces o.iflag o.utf8 col reads) := by
  induction reads with
  | nil =>
    intro col out
    rw [expandFile, Option.some.injEq, FitsReads, true_and]
    exact eq_comm
  | cons buf reads ih =>
    intro col out
    rw [List.forall_mem_cons] at hne hascii
    rw [expandFile, if_neg hne.1, FitsReads, heldMarks, Gaps.text_append, ← expanded_eq]
    simp only [Option.bind_eq_bind, Option.bind_eq_some_iff, Option.pure_def, Option.some.injEq,
      expandBuf_iff width hspaced hascii.1]
    constructor
    · rintro ⟨_, ⟨hfits, rfl⟩, _, hrest, rfl⟩
      obtain ⟨hall, rfl⟩ := (ih hne.2 hascii.2).1 hrest
      exact ⟨⟨hfits, hall⟩, rfl⟩
    · rintro ⟨⟨hfits, hall⟩, rfl⟩
      exact ⟨_, ⟨hfits, rfl⟩, _, (ih hne.2 hascii.2).2 ⟨hall, rfl⟩, rfl⟩

omit hspaced

/-! ## When the output is right -/

/-- The longest step can be allocated; no column or width that is reckoned is out of range; with `-i`, no read that
starts behind a non-blank of its line has a tab among its leading blanks; and with the columns that are held, in which a
read without tabs, backspaces and newlines does not count, each gap is as wide as with those of the lines. -/
structure Meets (tabs : RemainingMode × List Nat) (iflag utf8 : Bool) (reads : List (List UInt8)) : Prop where
  room : nspaces tabs.2 ≤ isizeMax
  fits : FitsReads (spacesToStop tabs.1 tabs.2) iflag utf8 0 reads
  leading : iflag = true → Leading (spacesToStop tabs.1 tabs.2) .start reads
  widths : Gaps.gaps 0 (heldMarks (spacesToStop tabs.1 tabs.2) iflag utf8 0 reads) =
    Gaps.gaps 0 (marks (spacesToStop tabs.1 tabs.2) iflag .start reads.flatten)

/-- For reads that end with their lines, nothing is asked but that all is in range. -/
theorem meets_lines {tabs : RemainingMode × List Nat} {iflag utf8 : Bool} {reads : List (List UInt8)}
    (h : ∀ r ∈ reads.dropLast, r.getLast? = some newline) :
    Meets tabs iflag utf8 reads ↔
      nspaces tabs.2 ≤ isizeMax ∧ FitsReads (spacesToStop tabs.1 tabs.2) iflag utf8 0 reads := by
  have hheld := heldMarks_lines (spacesToStop tabs.1 tabs.2) iflag utf8 h
  constructor
  · exact fun hm => ⟨hm.room, hm.fits⟩
  · rintro ⟨hroom, hfits⟩
    refine ⟨hroom, hfits, ?_, congrArg (Gaps.gaps 0) hheld⟩
    exact (items_held _ iflag utf8 reads 0 .start).2.1 (congrArg Gaps.items hheld)

end Peiosutils.Expand
