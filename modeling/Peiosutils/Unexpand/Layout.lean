import Peiosutils.Expand.Columns
import Peiosutils.Lib.Lines
import Peiosutils.Lib.Utf8
import Peiosutils.Unexpand.TabConfig

/-!
# What is written has the layout of the input (`unexpand.rs`)

Blanks are held back, with the column of what is read and that of what is written, and are turned into tabs where a stop
is not behind the column. `Moves` relates the two texts: they have the same layout up to the blanks that are pending, by
each character (`unexpandChar_spec`), each piece of a line (`unexpandBuf_spec`) and all reads (`unexpandReads_spec`).
Behind the last stop the program no longer counts columns, which changes nothing (`Tracks`). So the layout is kept for
every list that `expand` reads as `unexpand` does (`unexpand_meets_iff`).
-/

set_option autoImplicit false

namespace Peiosutils.Unexpand

open Expand (tab backspace newline space usizeLimit checkedAdd)

/-! ## The program -/

inductive CharType where
  | backspace
  | space
  | tab
  | other
  deriving DecidableEq, Repr

/-- The column of what is read, the one of what is printed, whether there are only blanks on the line, and the last
character. -/
structure PrintState where
  col : Nat
  scol : Nat
  leading : Bool
  pctype : CharType

def PrintState.newLine : PrintState := ⟨0, 0, true, .other⟩

structure Options where
  tabConfig : TabConfig
  aflag : Bool
  utf8 : Bool

section Code

variable (tabConfig : TabConfig)

/-- The loop that writes tabs up to the column; as many turns as columns are enough. -/
def tabsLoop (col : Nat) : Nat → Nat → Option (List UInt8 × Nat)
  | 0, _ => none
  | turns + 1, scol =>
    match nextTabstop tabConfig scol with
    | none => some ([], scol)
    | some nts =>
      (checkedAdd scol nts).bind fun next =>
        if col < next then some ([], scol) else (tabsLoop col turns next).map fun r => (tab :: r.1, r.2)

/-- Whether blanks are turned into tabs; a single space in front of a non-blank is not, but at the start of the line. -/
def turnsBlanks (st : PrintState) (amode : Bool) : Option Bool :=
  let ai := st.leading || amode
  if ai = true ∧ st.pctype ≠ .tab then
    (checkedAdd st.scol 1).map fun next => decide (next < st.col) || (decide (st.scol < st.col) && st.leading)
  else some (decide (st.scol < st.col) && (st.leading || (ai && decide (st.pctype = .tab))))

/-- What is written for the blanks that are pending. -/
def writeTabs (st : PrintState) (amode : Bool) : Option (List UInt8 × PrintState) :=
  (turnsBlanks st amode).bind fun turns =>
    (if turns then tabsLoop tabConfig st.col (st.col - st.scol + 1) st.scol else some ([], st.scol)).map fun r =>
      (r.1 ++ List.replicate (st.col - r.2) space, { st with scol := max r.2 st.col })

/-- The kind, the width and the number of bytes of the character at `b`, in front of `rest`. -/
def nextCharInfo (utf8 : Bool) (b : UInt8) (rest : List UInt8) : CharType × Nat × Nat :=
  if b < 128 then
    if b = space then (.space, 0, 1)
    else if b = tab then (.tab, 0, 1)
    else if b = backspace then (.backspace, 0, 1)
    else (.other, 1, 1)
  else if utf8 then
    -- `char::from(b)` has two bytes, whatever the sequence that `b` starts.
    match rest with
    | [] => (.other, 1, 1)
    | c :: _ => if (Utf8.decodeOne b [c]).1.isSome then (.other, 2, 2) else (.other, 1, 1)
  else (.other, 1, 1)

variable (options : Options) (lastcol : Nat)

/-- A blank of the bytes `here`, which is held back or written. -/
def unexpandBlank (ctype : CharType) (width : Nat) (here : List UInt8) (st : PrintState) :
    Option (List UInt8 × PrintState) :=
  (checkedAdd st.col width).map fun col =>
    if st.leading || options.aflag then ([], { st with col := col, pctype := ctype })
    else (here, { st with col := col, scol := col, pctype := ctype })

/-- One character of the bytes `here`. -/
def unexpandChar (ctype : CharType) (cwidth : Nat) (here : List UInt8) (st : PrintState) :
    Option (List UInt8 × PrintState) :=
  match ctype with
  | .space => unexpandBlank options ctype 1 here st
  | .tab => unexpandBlank options ctype ((nextTabstop tabConfig st.col).getD 1) here st
  | .other =>
    (writeTabs tabConfig st options.aflag).bind fun r =>
      (checkedAdd r.2.col cwidth).map fun col => (r.1 ++ here, ⟨col, col, false, ctype⟩)
  | .backspace =>
    (writeTabs tabConfig st options.aflag).map fun r =>
      (r.1 ++ here, ⟨r.2.col - 1, r.2.col - 1, false, ctype⟩)

/-- The loop over the characters. -/
def unexpandLoop : List UInt8 → PrintState → Option (List UInt8 × PrintState)
  | [], st => some ([], st)
  | b :: rest, st =>
    if 0 < lastcol ∧ lastcol ≤ st.col then
      (writeTabs tabConfig st true).map fun r => (r.1 ++ b :: rest, { r.2 with scol := r.2.col })
    else do
      let (ctype, cwidth, nbytes) := nextCharInfo options.utf8 b rest
      let (written, st) ← unexpandChar tabConfig options ctype cwidth ((b :: rest).take nbytes) st
      let (output, st) ← unexpandLoop (rest.drop (nbytes - 1)) st
      return (written ++ output, st)
termination_by buf => buf.length
decreasing_by simp only [List.length_drop, List.length_cons]; omega

/-- The blanks in front of a line, and what is behind them. -/
def leadingBlanks : List UInt8 → PrintState → Option (List UInt8 × PrintState)
  | [], st => some ([], st)
  | b :: rest, st =>
    if b = space then (checkedAdd st.col 1).bind fun col => leadingBlanks rest { st with col := col }
    else if b = tab then
      (checkedAdd st.col ((nextTabstop tabConfig st.col).getD 1)).bind fun col =>
        leadingBlanks rest { st with col := col, pctype := .tab }
    else some (b :: rest, st)

/-- A piece of a line. -/
def unexpandBuf (buf : List UInt8) (st : PrintState) : Option (List UInt8 × PrintState) :=
  let line := decide (buf.getLast? = some newline)
  let blank := decide (buf.head? = some space ∨ buf.head? = some tab)
  if line && !options.aflag && (!blank || !st.leading) then
    (writeTabs tabConfig st options.aflag).bind fun r =>
      (checkedAdd r.2.col buf.length).map fun col => (r.1 ++ buf, { r.2 with scol := r.2.col, col := col })
  else if line && !options.utf8 && !options.aflag && st.leading then
    (leadingBlanks tabConfig buf st).bind fun r =>
      (if r.1.length < buf.length then writeTabs tabConfig r.2 options.aflag else some ([], r.2)).map fun w =>
        (w.1 ++ r.1, if r.1 = [] then w.2 else { w.2 with leading := false })
  else unexpandLoop tabConfig options lastcol buf st

/-- The pieces of a read. -/
def unexpandPieces : List (List UInt8) → PrintState → Option (List UInt8 × PrintState)
  | [], st => some ([], st)
  | line :: lines, st => do
    let (written, st) ← unexpandBuf tabConfig options lastcol line st
    let (output, st) ← unexpandPieces lines (if line.getLast? = some newline then .newLine else st)
    return (written ++ output, st)

/-- The reads of a file; an empty read is the end. -/
def unexpandReads : List (List UInt8) → PrintState → Option (List UInt8)
  | [], st => (writeTabs tabConfig st options.aflag).map Prod.fst
  | buf :: reads, st =>
    if buf = [] then (writeTabs tabConfig st options.aflag).map Prod.fst
    else do
      let (written, st) ← unexpandPieces tabConfig options lastcol (Lines.pieces newline buf) st
      let output ← unexpandReads reads st
      return written ++ output

end Code

/-- The last column that is converted, where the stops come to an end. -/
def lastcol (tabConfig : TabConfig) : Nat :=
  if 1 < tabConfig.tabstops.length ∧ tabConfig.incrementSize = none ∧ tabConfig.extendSize = none then
    tabConfig.tabstops.getLast?.getD 0
  else 0

/-- What is written for a file. -/
def unexpand (options : Options) (reads : List (List UInt8)) : Option (List UInt8) :=
  unexpandReads options.tabConfig options (lastcol options.tabConfig) reads .newLine

/-! ## Layout -/

section Layout

-- The spaces from a column to the next stop.
variable (sp : Nat → Nat)

/-- The bytes with their tabs replaced, from a column on. -/
def layout (c : Nat) (bs : List UInt8) : List UInt8 := Expand.expanded sp false ⟨c, true⟩ bs

def column (c : Nat) (bs : List UInt8) : Nat := (Expand.Line.after sp ⟨c, true⟩ bs).col

/-- The column behind a byte that is no backspace. -/
def behind (c : Nat) (b : UInt8) : Nat := if b = tab then c + sp c else if b = newline then 0 else c + 1

theorem column_init (bs : List UInt8) : ∀ {l l' : Expand.Line}, l.col = l'.col →
    (l.after sp bs).col = (l'.after sp bs).col := by
  induction bs with
  | nil => exact fun h => h
  | cons b bs ih =>
    intro l l' h
    refine ih ?_
    simp only [Expand.Line.advance, h]
    split
    · rfl
    · split
      · rfl
      · split <;> rfl

theorem layout_init (bs : List UInt8) : ∀ {l l' : Expand.Line}, l.col = l'.col →
    Expand.expanded sp false l bs = Expand.expanded sp false l' bs := by
  induction bs with
  | nil => exact fun _ => rfl
  | cons b bs ih =>
    intro l l' h
    have hcol : (l.advance sp b).col = (l'.advance sp b).col := column_init sp [b] h
    rw [Expand.expanded, Expand.expanded, ih hcol]
    simp [Expand.Line.written, h]

theorem column_cons {b : UInt8} (hb : b ≠ backspace) (c : Nat) (bs : List UInt8) :
    column sp c (b :: bs) = column sp (behind sp c b) bs := by
  refine column_init sp bs ?_
  simp only [Expand.Line.advance, if_neg hb, behind]
  split
  · rfl
  · split <;> rfl

theorem layout_cons {b : UInt8} (hb : b ≠ backspace) (c : Nat) (bs : List UInt8) :
    layout sp c (b :: bs) =
      (if b = tab then List.replicate (sp c) space else [b]) ++ layout sp (behind sp c b) bs := by
  have hcol : ((⟨c, true⟩ : Expand.Line).advance sp b).col = behind sp c b := column_cons sp hb c []
  have hrest : Expand.expanded sp false (Expand.Line.advance sp ⟨c, true⟩ b) bs = layout sp (behind sp c b) bs :=
    layout_init sp bs hcol
  rw [layout, Expand.expanded, hrest]
  simp [Expand.Line.written]

theorem column_append (c : Nat) (as bs : List UInt8) : column sp c (as ++ bs) = column sp (column sp c as) bs := by
  rw [column, Expand.Line.after, List.foldl_append]
  exact column_init sp bs rfl

theorem layout_append (c : Nat) (as bs : List UInt8) :
    layout sp c (as ++ bs) = layout sp c as ++ layout sp (column sp c as) bs := by
  have hrest : Expand.expanded sp false (Expand.Line.after sp ⟨c, true⟩ as) bs = layout sp (column sp c as) bs :=
    layout_init sp bs rfl
  rw [layout, layout, Expand.expanded_eq, Expand.marks_append, Gaps.text_append, ← Expand.expanded_eq,
    ← Expand.expanded_eq, hrest]

/-- What is read with `p` blanks pending behind the column `lo`, and what is written: the layouts are the same up to the
blanks that are pending then. -/
structure Moves (lo p : Nat) (buf w : List UInt8) (lo' p' : Nat) : Prop where
  text : layout sp lo w ++ List.replicate p' space = List.replicate p space ++ layout sp (lo + p) buf
  out : column sp lo w = lo'
  read : column sp (lo + p) buf = lo' + p'

namespace Moves

variable {sp} {lo lo' lo'' p p' p'' : Nat} {buf buf' w w' : List UInt8}

theorem trans (h : Moves sp lo p buf w lo' p') (h' : Moves sp lo' p' buf' w' lo'' p'') :
    Moves sp lo p (buf ++ buf') (w ++ w') lo'' p'' where
  text := by
    rw [layout_append, h.out, List.append_assoc, h'.text, ← List.append_assoc, h.text, layout_append, h.read,
      List.append_assoc]
  out := by rw [column_append, h.out, h'.out]
  read := by rw [column_append, h.read, h'.read]

theorem refl : Moves sp lo p [] [] lo p := ⟨by simp [layout, Expand.expanded], rfl, rfl⟩

theorem verbatim (sp : Nat → Nat) (lo : Nat) (buf : List UInt8) : Moves sp lo 0 buf buf (column sp lo buf) 0 :=
  ⟨by simp, rfl, rfl⟩

theorem hold_space : Moves sp lo p [space] [] lo (p + 1) where
  text := by
    rw [layout_cons sp (by decide), if_neg (by decide), List.replicate_succ']
    rfl
  out := rfl
  read := by
    rw [column_cons sp (by decide)]
    rfl

theorem hold_tab : Moves sp lo p [tab] [] lo (p + sp (lo + p)) where
  text := by
    rw [layout_cons sp (by decide), if_pos rfl, List.replicate_add]
    simp [layout, Expand.expanded]
  out := rfl
  read := by
    rw [column_cons sp (by decide), behind, if_pos rfl, Nat.add_assoc]
    rfl

theorem put_tab (h : sp lo ≤ p) : Moves sp lo p [] [tab] (lo + sp lo) (p - sp lo) where
  text := by
    rw [layout_cons sp (by decide), if_pos rfl]
    simp only [layout, Expand.expanded, List.append_nil]
    rw [← List.replicate_add, Nat.add_sub_cancel' h]
  out := by
    rw [column_cons sp (by decide)]
    rfl
  read := by
    change lo + p = lo + sp lo + (p - sp lo)
    omega

theorem put_space (h : 1 ≤ p) : Moves sp lo p [] [space] (lo + 1) (p - 1) where
  text := by
    rw [layout_cons sp (by decide), if_neg (by decide)]
    simp only [layout, Expand.expanded, List.append_nil]
    rw [List.singleton_append, ← List.replicate_succ, Nat.sub_add_cancel h]
  out := by
    rw [column_cons sp (by decide)]
    rfl
  read := by
    change lo + p = lo + 1 + (p - 1)
    omega

theorem put_spaces (sp : Nat → Nat) : ∀ p lo : Nat, Moves sp lo p [] (List.replicate p space) (lo + p) 0
  | 0, _ => refl
  | p + 1, lo => by
    have hfirst : Moves sp lo (p + 1) [] [space] (lo + 1) p := put_space (Nat.succ_pos p)
    have h := trans hfirst (put_spaces sp p (lo + 1))
    rw [Nat.add_right_comm, Nat.add_assoc] at h
    exact h

end Moves

/-! ## Stops in range -/

/-- The stops of the layout are those of the program, up to the columns in range. -/
structure Stops (tabConfig : TabConfig) (R : Nat → Prop) : Prop where
  mono : ∀ c c', c ≤ c' → R c' → R c
  here : ∀ c nts, nextTabstop tabConfig c = some nts → 0 < nts ∧ (R (c + nts) ∨ R (c + sp c) → sp c = nts)
  behindLast : ∀ c, nextTabstop tabConfig c = none → sp c = 1
  last : ∀ c, 0 < lastcol tabConfig → lastcol tabConfig ≤ c → nextTabstop tabConfig c = none
  fits : ∀ c, R c → c + (nextTabstop tabConfig c).getD 1 < usizeLimit

/-- Every column of a text is in range. -/
def InRange (R : Nat → Prop) (c : Nat) : List UInt8 → Prop
  | [] => R c
  | b :: bs => R c ∧ InRange R (behind sp c b) bs

variable {sp} {R : Nat → Prop}

theorem InRange.here {c : Nat} {bs : List UInt8} (h : InRange sp R c bs) : R c := by
  cases bs with
  | nil => exact h
  | cons b bs => exact h.1

/-- No backspaces, and only bytes that are characters. -/
def Plain (bs : List UInt8) : Prop := ∀ b ∈ bs, b < 128 ∧ b ≠ backspace

theorem inRange_append {as : List UInt8} (hplain : Plain as) (bs : List UInt8) : ∀ {c : Nat},
    InRange sp R c (as ++ bs) → InRange sp R c as ∧ InRange sp R (column sp c as) bs := by
  induction as with
  | nil => exact fun h => ⟨h.here, h⟩
  | cons a as ih =>
    intro c h
    rw [Plain, List.forall_mem_cons] at hplain
    obtain ⟨has, hbs⟩ := ih hplain.2 h.2
    rw [column_cons sp hplain.1.2]
    exact ⟨⟨h.1, has⟩, hbs⟩

namespace Stops

variable {tabConfig : TabConfig} (h : Stops sp tabConfig R)

include h

theorem next_pos (c : Nat) : 0 < (nextTabstop tabConfig c).getD 1 := by
  cases hnext : nextTabstop tabConfig c with
  | none => exact Nat.one_pos
  | some nts => exact (h.here c nts hnext).1

theorem succ_lt {c : Nat} (hc : R c) : c + 1 < usizeLimit := by
  have := h.fits c hc
  have := h.next_pos c
  omega

theorem sp_pos {c : Nat} (hc : R (c + sp c)) : 0 < sp c := by
  cases hnext : nextTabstop tabConfig c with
  | none => rw [h.behindLast c hnext]; exact Nat.one_pos
  | some nts =>
    obtain ⟨hpos, hsp⟩ := h.here c nts hnext
    rwa [hsp (.inr hc)]

/-- A text without newlines goes a column on at least with each byte. -/
theorem le_column {bs : List UInt8} (hplain : Plain bs) (hline : newline ∉ bs) : ∀ {c : Nat}, InRange sp R c bs →
    c + bs.length ≤ column sp c bs := by
  induction bs with
  | nil => intro c _; exact Nat.le_refl c
  | cons b bs ih =>
    intro c hrange
    rw [Plain, List.forall_mem_cons] at hplain
    rw [List.mem_cons, not_or] at hline
    have hle := ih hplain.2 hline.2 hrange.2
    have hb : c + 1 ≤ behind sp c b := by
      unfold behind
      split
      · rename_i htab
        have hc := hrange.2.here
        rw [behind, if_pos htab] at hc
        have := h.sp_pos hc
        omega
      · rw [if_neg (Ne.symm hline.1)]
    rw [column_cons sp hplain.1.2, List.length_cons]
    omega

end Stops

/-! ## The state

The columns of the state are those of what is read and written, or both are behind the last stop. -/

/-- A column of the state for the column `c`. -/
def Tracks (tabConfig : TabConfig) (c scol : Nat) : Prop :=
  scol = c ∨ 0 < lastcol tabConfig ∧ lastcol tabConfig ≤ scol ∧ scol ≤ c

theorem Tracks.le {tabConfig : TabConfig} {c scol : Nat} (h : Tracks tabConfig c scol) : scol ≤ c :=
  h.elim Nat.le_of_eq fun h => h.2.2

theorem Tracks.add {tabConfig : TabConfig} {c scol : Nat} (h : Tracks tabConfig c scol) (n : Nat) :
    Tracks tabConfig (c + n) (scol + n) := by
  rcases h with rfl | ⟨hpos, hlast, hle⟩
  · exact .inl rfl
  · exact .inr ⟨hpos, by omega, by omega⟩

/-- The blanks that are pending. -/
def PrintState.pending (st : PrintState) : Nat := st.col - st.scol

structure Holds (options : Options) (lo : Nat) (st : PrintState) : Prop where
  le : st.scol ≤ st.col
  tracks : Tracks options.tabConfig lo st.scol
  printed : st.leading = false → options.aflag = false → st.scol = st.col

theorem holds_newLine (options : Options) : Holds options 0 .newLine := ⟨Nat.le_refl _, .inl rfl, fun _ _ => rfl⟩

variable {options : Options} (h : Stops sp options.tabConfig R)

theorem Holds.tracks_col {lo : Nat} {st : PrintState} (hst : Holds options lo st) :
    Tracks options.tabConfig (lo + st.pending) st.col := by
  have := hst.tracks.add st.pending
  rwa [PrintState.pending, Nat.add_sub_cancel' hst.le] at this

include h

/-- The columns to the next stop, where the column behind it is in range. -/
theorem Tracks.next_eq {c col : Nat} (htracks : Tracks options.tabConfig c col) (hrange : R (c + sp c)) :
    (nextTabstop options.tabConfig col).getD 1 = sp c := by
  rcases htracks with rfl | ⟨hpos, hlast, hle⟩
  · cases hnext : nextTabstop options.tabConfig col with
    | none => exact (h.behindLast col hnext).symm
    | some nts => exact ((h.here col nts hnext).2 (.inr hrange)).symm
  · rw [h.last col hpos hlast, h.behindLast c (h.last c hpos (by omega))]
    rfl

/-- **Tabs up to a column**: enough turns lead to the last stop that is not behind it. -/
theorem tabsLoop_spec (col : Nat) : ∀ turns lo scol : Nat, col - scol < turns → scol ≤ col →
    R (lo + (col - scol)) → Tracks options.tabConfig lo scol →
      ∃ w scol', tabsLoop options.tabConfig col turns scol = some (w, scol') ∧ scol ≤ scol' ∧ scol' ≤ col ∧
        Moves sp lo (col - scol) [] w (lo + (scol' - scol)) (col - scol')
  | 0, _, _, hturns, _, _, _ => absurd hturns (Nat.not_lt_zero _)
  | turns + 1, lo, scol, hturns, hle, hrange, htracks => by
    have hrefl : Moves sp lo (col - scol) [] [] (lo + (scol - scol)) (col - scol) := by
      rw [Nat.sub_self]
      exact .refl
    rw [tabsLoop]
    cases hnext : nextTabstop options.tabConfig scol with
    | none => exact ⟨[], scol, rfl, Nat.le_refl _, hle, hrefl⟩
    | some nts =>
      obtain rfl : scol = lo := by
        refine htracks.resolve_right fun hpast => ?_
        rw [h.last scol hpast.1 hpast.2.1] at hnext
        cases hnext
      obtain ⟨hpos, hsp⟩ := h.here scol nts hnext
      have hfits := h.fits scol (h.mono _ _ (Nat.le_add_right _ _) hrange)
      rw [hnext, Option.getD_some] at hfits
      simp only [Expand.checkedAdd, if_pos hfits, Option.bind_some]
      by_cases hlt : col < scol + nts
      · rw [if_pos hlt]
        exact ⟨[], scol, rfl, Nat.le_refl _, hle, hrefl⟩
      · rw [if_neg hlt]
        have hstop : scol + nts ≤ col := Nat.le_of_not_lt hlt
        have heq : sp scol = nts := hsp (.inl (h.mono _ _ (by omega) hrange))
        have hsub : col - scol - nts = col - (scol + nts) := Nat.sub_sub _ _ _
        obtain ⟨w, scol', hloop, hle', hcol, hmoves⟩ :=
          tabsLoop_spec col turns (scol + nts) (scol + nts) (by omega) hstop (h.mono _ _ (by omega) hrange) (.inl rfl)
        have hput : Moves sp scol (col - scol) [] [tab] (scol + sp scol) (col - scol - sp scol) := .put_tab (by omega)
        rw [heq, hsub] at hput
        refine ⟨tab :: w, scol', by rw [hloop]; rfl, by omega, hcol, ?_⟩
        have hall := hput.trans hmoves
        rw [show scol + nts + (scol' - (scol + nts)) = scol + (scol' - scol) by omega] at hall
        exact hall

/-- **Pending blanks** are written up to the column. -/
theorem writeTabs_spec {lo : Nat} {st : PrintState} (hst : Holds options lo st) (hrange : R (lo + st.pending))
    (amode : Bool) : ∃ w, writeTabs options.tabConfig st amode = some (w, { st with scol := st.col }) ∧
      Moves sp lo st.pending [] w (lo + st.pending) 0 := by
  have hturns : ∃ turns, turnsBlanks st amode = some turns := by
    unfold turnsBlanks
    have hfits : st.scol + 1 < usizeLimit :=
      Nat.lt_of_le_of_lt (Nat.succ_le_succ (Nat.le_trans hst.tracks.le (Nat.le_add_right _ _))) (h.succ_lt hrange)
    simp only [Expand.checkedAdd, if_pos hfits]
    split
    · exact ⟨_, rfl⟩
    · exact ⟨_, rfl⟩
  obtain ⟨turns, hturns⟩ := hturns
  rw [writeTabs, hturns, Option.bind_some]
  cases turns with
  | false =>
    refine ⟨List.replicate st.pending space, ?_, .put_spaces sp _ _⟩
    simp only [Bool.false_eq_true, if_false, Option.map_some, List.nil_append, Nat.max_eq_right hst.le]
    rfl
  | true =>
    obtain ⟨w, scol', hloop, hle, hcol, hmoves⟩ :=
      tabsLoop_spec h st.col (st.col - st.scol + 1) lo st.scol (Nat.lt_succ_self _) hst.le hrange hst.tracks
    rw [if_pos rfl, hloop]
    refine ⟨w ++ List.replicate (st.col - scol') space, by rw [Option.map_some, Nat.max_eq_right hcol], ?_⟩
    have hall := hmoves.trans (Moves.put_spaces sp _ _)
    rw [show lo + (scol' - st.scol) + (st.col - scol') = lo + st.pending by unfold PrintState.pending; omega] at hall
    exact hall

omit h

theorem nextCharInfo_ascii {b : UInt8} (hb : b < 128) (utf8 : Bool) (rest : List UInt8) :
    nextCharInfo utf8 b rest =
      if b = space then (.space, 0, 1)
      else if b = tab then (.tab, 0, 1)
      else if b = backspace then (.backspace, 0, 1)
      else (.other, 1, 1) := by
  unfold nextCharInfo
  rw [if_pos hb]

/-- A blank of the width that it has in the layout. -/
theorem unexpandBlank_spec {lo n : Nat} {st : PrintState} (hst : Holds options lo st) {b : UInt8} (ctype : CharType)
    (hfits : st.col + n < usizeLimit) (hhold : Moves sp lo st.pending [b] [] lo (st.pending + n)) :
    ∃ w st' lo', unexpandBlank options ctype n [b] st = some (w, st') ∧ Holds options lo' st' ∧
      Moves sp lo st.pending [b] w lo' st'.pending := by
  have hle := hst.le
  simp only [unexpandBlank, Expand.checkedAdd, if_pos hfits, Option.map_some]
  by_cases hbuf : (st.leading || options.aflag) = true
  · rw [if_pos hbuf]
    refine ⟨[], _, lo, rfl, ⟨?_, hst.tracks, ?_⟩, ?_⟩
    · exact Nat.le_trans hle (Nat.le_add_right _ _)
    · intro hleading haflag
      rw [show st.leading = false from hleading, haflag] at hbuf
      exact absurd hbuf (by decide)
    · have hpending : st.pending + n = st.col + n - st.scol := by
        unfold PrintState.pending
        omega
      rw [hpending] at hhold
      exact hhold
  · rw [if_neg hbuf]
    rw [Bool.or_eq_true, not_or, Bool.not_eq_true, Bool.not_eq_true] at hbuf
    have hprinted := hst.printed hbuf.1 hbuf.2
    have hzero : st.pending = 0 := by
      unfold PrintState.pending
      omega
    rw [hzero, Nat.zero_add] at hhold
    rw [hzero]
    have hcol : column sp lo [b] = lo + n := hhold.read
    have htracks := hst.tracks_col
    rw [hzero, Nat.add_zero] at htracks
    refine ⟨[b], _, lo + n, rfl, ⟨Nat.le_refl _, htracks.add n, fun _ _ => rfl⟩, ?_⟩
    have hverb := Moves.verbatim sp lo [b]
    rw [hcol] at hverb
    simpa [PrintState.pending] using hverb

include h

/-- **One character** that ends no line. -/
theorem unexpandChar_spec {lo : Nat} {st : PrintState} (hst : Holds options lo st) {b : UInt8} (hb : b < 128)
    (hback : b ≠ backspace) (hline : b ≠ newline) (hrange : InRange sp R (lo + st.pending) [b]) (rest : List UInt8) :
    ∃ w st' lo', unexpandChar options.tabConfig options (nextCharInfo options.utf8 b rest).1
        (nextCharInfo options.utf8 b rest).2.1 [b] st = some (w, st') ∧ Holds options lo' st' ∧
      Moves sp lo st.pending [b] w lo' st'.pending := by
  have hcol := hst.tracks_col.le
  rw [nextCharInfo_ascii hb]
  by_cases hspace : b = space
  · subst hspace
    rw [if_pos rfl]
    refine unexpandBlank_spec hst _ ?_ .hold_space
    have := h.succ_lt hrange.1
    omega
  · rw [if_neg hspace]
    by_cases htab : b = tab
    · subst htab
      rw [if_pos rfl]
      have hbehind : R (lo + st.pending + sp (lo + st.pending)) := by
        have := hrange.2.here
        rwa [behind, if_pos rfl] at this
      have hnext := hst.tracks_col.next_eq h hbehind
      have hfits := h.fits _ hbehind
      simp only [unexpandChar]
      rw [hnext]
      exact unexpandBlank_spec hst _ (by omega) .hold_tab
    · rw [if_neg htab, if_neg hback]
      obtain ⟨w, hw, hmoves⟩ := writeTabs_spec h hst hrange.1 options.aflag
      have hfits : st.col + 1 < usizeLimit := by
        have := h.succ_lt hrange.1
        omega
      simp only [unexpandChar, hw, Option.bind_some, Expand.checkedAdd, if_pos hfits, Option.map_some]
      refine ⟨w ++ [b], _, lo + st.pending + 1, rfl, ⟨Nat.le_refl _, hst.tracks_col.add 1, fun _ _ => rfl⟩, ?_⟩
      have hverb := hmoves.trans (Moves.verbatim sp (lo + st.pending) [b])
      rw [column_cons sp hback, behind, if_neg htab, if_neg hline] at hverb
      rw [List.nil_append] at hverb
      simpa [PrintState.pending, column, Expand.Line.after] using hverb

/-- The end of a line. -/
theorem unexpandChar_newline {lo : Nat} {st : PrintState} (hst : Holds options lo st) (hrange : R (lo + st.pending))
    (rest : List UInt8) :
    ∃ w st', unexpandChar options.tabConfig options (nextCharInfo options.utf8 newline rest).1
        (nextCharInfo options.utf8 newline rest).2.1 [newline] st = some (w, st') ∧
      Moves sp lo st.pending [newline] w 0 0 := by
  have hcol := hst.tracks_col.le
  obtain ⟨w, hw, hmoves⟩ := writeTabs_spec h hst hrange options.aflag
  have hfits : st.col + 1 < usizeLimit := by
    have := h.succ_lt hrange
    omega
  rw [nextCharInfo_ascii (by decide), if_neg (by decide), if_neg (by decide), if_neg (by decide)]
  simp only [unexpandChar, hw, Option.bind_some, Expand.checkedAdd, if_pos hfits, Option.map_some]
  exact ⟨w ++ [newline], _, rfl, hmoves.trans (Moves.verbatim sp (lo + st.pending) [newline])⟩

omit h

/-! ## Pieces of lines -/

/-- What a piece that ends with `tail` comes to: a state for what is read and written, or the end of a line. -/
def Reaches (sp : Nat → Nat) (options : Options) (lo : Nat) (st : PrintState) (buf tail : List UInt8)
    (r : Option (List UInt8 × PrintState)) : Prop :=
  ∃ w st', r = some (w, st') ∧
    (tail = [] ∧ (∃ lo', Holds options lo' st' ∧ Moves sp lo st.pending buf w lo' st'.pending) ∨
      tail = [newline] ∧ Moves sp lo st.pending buf w 0 0)

/-- A piece ends its line or does not. -/
def IsTail (tail : List UInt8) : Prop := tail = [] ∨ tail = [newline]

theorem IsTail.plain {tail : List UInt8} (h : IsTail tail) : Plain tail := by
  rcases h with rfl | rfl
  · simp [Plain]
  · intro b hb
    rw [List.mem_singleton.1 hb]
    decide

theorem column_newline {line : List UInt8} (c : Nat) : column sp c (line ++ [newline]) = 0 := by
  rw [column_append, column_cons sp (by decide)]
  rfl

include h

/-- Behind the last stop, the rest of a piece is written as it is. -/
theorem verbatim_spec {lo : Nat} {st : PrintState} (hst : Holds options lo st) (line : List UInt8) {tail : List UInt8}
    (hplain : Plain line) (hline : newline ∉ line) (htail : IsTail tail)
    (hrange : InRange sp R (lo + st.pending) (line ++ tail)) (hlast : 0 < lastcol options.tabConfig)
    (hcol : lastcol options.tabConfig ≤ st.col) :
    Reaches sp options lo st (line ++ tail) tail
      ((writeTabs options.tabConfig st true).map fun r => (r.1 ++ (line ++ tail), { r.2 with scol := r.2.col })) := by
  obtain ⟨w, hw, hmoves⟩ := writeTabs_spec h hst hrange.here true
  have hall := hmoves.trans (Moves.verbatim sp (lo + st.pending) (line ++ tail))
  refine ⟨w ++ (line ++ tail), _, by rw [hw, Option.map_some], ?_⟩
  rcases htail with rfl | rfl
  · rw [List.append_nil] at hrange hall ⊢
    refine .inl ⟨rfl, column sp (lo + st.pending) line, ⟨Nat.le_refl _, .inr ⟨hlast, hcol, ?_⟩, fun _ _ => rfl⟩, ?_⟩
    · exact Nat.le_trans hst.tracks_col.le (Nat.le_trans (Nat.le_add_right _ _) (h.le_column hplain hline hrange))
    · simpa [PrintState.pending] using hall
  · rw [column_newline] at hall
    exact .inr ⟨rfl, hall⟩

/-- **The loop** over a piece. -/
theorem unexpandLoop_spec {line : List UInt8} (hplain : Plain line) (hline : newline ∉ line) {tail : List UInt8}
    (htail : IsTail tail) : ∀ {lo : Nat} {st : PrintState}, Holds options lo st →
      InRange sp R (lo + st.pending) (line ++ tail) →
        Reaches sp options lo st (line ++ tail) tail
          (unexpandLoop options.tabConfig options (lastcol options.tabConfig) (line ++ tail) st) := by
  have hnbytes : ∀ b : UInt8, b < 128 → ∀ rest, (nextCharInfo options.utf8 b rest).2.2 = 1 := by
    intro b hb rest
    rw [nextCharInfo_ascii hb]
    split
    · rfl
    · split
      · rfl
      · split <;> rfl
  induction line with
  | nil =>
    intro lo st hst hrange
    rcases htail with rfl | rfl
    · rw [List.append_nil, unexpandLoop]
      exact ⟨[], st, rfl, .inl ⟨rfl, lo, hst, .refl⟩⟩
    · by_cases hlast : 0 < lastcol options.tabConfig ∧ lastcol options.tabConfig ≤ st.col
      · rw [List.nil_append, unexpandLoop, if_pos hlast]
        exact verbatim_spec h hst [] hplain hline (.inr rfl) hrange hlast.1 hlast.2
      · obtain ⟨w, st', hchar, hmoves⟩ := unexpandChar_newline h hst hrange.here []
        rw [List.nil_append, unexpandLoop, if_neg hlast]
        simp only [hnbytes newline (by decide), List.take_succ_cons, List.take_zero, hchar, Option.bind_eq_bind,
          Option.bind_some, Nat.sub_self, List.drop_zero, unexpandLoop, Option.pure_def, List.append_nil]
        exact ⟨w, st', rfl, .inr ⟨rfl, hmoves⟩⟩
  | cons b line ih =>
    intro lo st hst hrange
    have hplain' := hplain
    rw [Plain, List.forall_mem_cons] at hplain
    have hline' := hline
    rw [List.mem_cons, not_or] at hline
    by_cases hlast : 0 < lastcol options.tabConfig ∧ lastcol options.tabConfig ≤ st.col
    · rw [List.cons_append, unexpandLoop, if_pos hlast]
      exact verbatim_spec h hst (b :: line) hplain' hline' htail hrange hlast.1 hlast.2
    · obtain ⟨w, st', lo', hchar, hst', hmoves⟩ := unexpandChar_spec h hst hplain.1.1 hplain.1.2 (Ne.symm hline.1)
        ⟨hrange.1, hrange.2.here⟩ (line ++ tail)
      have hcol : behind sp (lo + st.pending) b = lo' + st'.pending := by
        have := hmoves.read
        rwa [column_cons sp hplain.1.2] at this
      obtain ⟨v, st'', hloop, hreach⟩ := ih hplain.2 hline.2 hst' (hcol ▸ hrange.2)
      rw [List.cons_append, unexpandLoop, if_neg hlast]
      simp only [hnbytes b hplain.1.1, List.take_succ_cons, List.take_zero, hchar, Option.bind_eq_bind,
        Option.bind_some, Nat.sub_self, List.drop_zero, hloop, Option.pure_def]
      refine ⟨w ++ v, st'', rfl, ?_⟩
      rcases hreach with ⟨htail, lo'', hst'', hmoves'⟩ | ⟨htail, hmoves'⟩
      · exact .inl ⟨htail, lo'', hst'', hmoves.trans hmoves'⟩
      · exact .inr ⟨htail, hmoves.trans hmoves'⟩

omit h

theorem getLast_tail {line tail : List UInt8} (hline : newline ∉ line) (htail : IsTail tail) :
    (line ++ tail).getLast? = some newline ↔ tail = [newline] := by
  rcases htail with rfl | rfl
  · rw [List.append_nil]
    exact iff_of_false (fun h => hline (List.mem_of_getLast? h)) (by simp)
  · simp

include h

/-- The blanks in front are all held back. -/
theorem leadingBlanks_spec {line : List UInt8} (hplain : Plain line) : ∀ {lo : Nat} {st : PrintState},
    Holds options lo st → st.leading = true → InRange sp R (lo + st.pending) (line ++ [newline]) →
      ∃ blanks rest st', line ++ [newline] = blanks ++ rest ∧
        leadingBlanks options.tabConfig (line ++ [newline]) st = some (rest, st') ∧ rest ≠ [] ∧
        (line.head? = some space ∨ line.head? = some tab → blanks ≠ []) ∧ Holds options lo st' ∧
        Moves sp lo st.pending blanks [] lo st'.pending := by
  induction line with
  | nil =>
    intro lo st hst _ _
    exact ⟨[], [newline], st, rfl, rfl, by simp, by simp, hst, .refl⟩
  | cons b line ih =>
    intro lo st hst hleading hrange
    rw [Plain, List.forall_mem_cons] at hplain
    have hle := hst.le
    -- A blank of the width that it has in the layout.
    have hblank : ∀ n (ctype : CharType), Moves sp lo st.pending [b] [] lo (st.pending + n) →
        ∃ blanks rest st', b :: line ++ [newline] = blanks ++ rest ∧
          leadingBlanks options.tabConfig (line ++ [newline]) { st with col := st.col + n, pctype := ctype } =
            some (rest, st') ∧ rest ≠ [] ∧ blanks ≠ [] ∧ Holds options lo st' ∧
          Moves sp lo st.pending blanks [] lo st'.pending := by
      intro n ctype hhold
      have hpending : ({ st with col := st.col + n, pctype := ctype } : PrintState).pending = st.pending + n := by
        simp only [PrintState.pending]
        omega
      have hcol : behind sp (lo + st.pending) b = lo + (st.pending + n) := by
        have := hhold.read
        rwa [column_cons sp hplain.1.2] at this
      have hst₁ : Holds options lo { st with col := st.col + n, pctype := ctype } :=
        ⟨Nat.le_trans hle (Nat.le_add_right _ _), hst.tracks, fun h => by simp [hleading] at h⟩
      obtain ⟨blanks, rest, st', hsplit, hrun, hrest, -, hst', hmoves⟩ :=
        ih hplain.2 hst₁ hleading (hpending ▸ hcol ▸ hrange.2)
      refine ⟨b :: blanks, rest, st', by rw [List.cons_append, hsplit]; rfl, hrun, hrest, by simp, hst', ?_⟩
      rw [hpending] at hmoves
      exact hhold.trans hmoves
    rw [List.cons_append, leadingBlanks]
    have hcol := hst.tracks_col.le
    by_cases hspace : b = space
    · have hfits : st.col + 1 < usizeLimit := by
        have := h.succ_lt hrange.1
        omega
      obtain ⟨blanks, rest, st', hsplit, hrun, hrest, hne, hst', hmoves⟩ := hblank 1 st.pctype (hspace ▸ .hold_space)
      rw [if_pos hspace]
      simp only [Expand.checkedAdd, if_pos hfits, Option.bind_some]
      exact ⟨blanks, rest, st', hsplit, hrun, hrest, fun _ => hne, hst', hmoves⟩
    · rw [if_neg hspace]
      by_cases htab : b = tab
      · have hbehind : R (lo + st.pending + sp (lo + st.pending)) := by
          have := hrange.2.here
          rwa [behind, if_pos htab] at this
        have hnext := hst.tracks_col.next_eq h hbehind
        have hfits : st.col + sp (lo + st.pending) < usizeLimit := by
          have := h.fits _ hbehind
          omega
        obtain ⟨blanks, rest, st', hsplit, hrun, hrest, hne, hst', hmoves⟩ := hblank (sp (lo + st.pending)) .tab
          (by rw [htab]; exact .hold_tab)
        rw [if_pos htab, hnext]
        simp only [Expand.checkedAdd, if_pos hfits, Option.bind_some]
        exact ⟨blanks, rest, st', hsplit, hrun, hrest, fun _ => hne, hst', hmoves⟩
      · rw [if_neg htab]
        exact ⟨[], b :: (line ++ [newline]), st, rfl, rfl, by simp, fun h => by simp [hspace, htab] at h, hst, .refl⟩

/-- **A piece**: by any of the three ways. -/
theorem unexpandBuf_spec {line tail : List UInt8} (hplain : Plain line) (hline : newline ∉ line) (htail : IsTail tail)
    {lo : Nat} {st : PrintState} (hst : Holds options lo st)
    (hrange : InRange sp R (lo + st.pending) (line ++ tail)) :
    Reaches sp options lo st (line ++ tail) tail
      (unexpandBuf options.tabConfig options (lastcol options.tabConfig) (line ++ tail) st) := by
  have hcol := hst.tracks_col.le
  unfold unexpandBuf
  simp only [getLast_tail hline htail]
  split
  · rename_i hfast
    obtain rfl : tail = [newline] := by
      simp only [Bool.and_eq_true, decide_eq_true_eq] at hfast
      exact hfast.1.1
    obtain ⟨w, hw, hmoves⟩ := writeTabs_spec h hst hrange.here options.aflag
    have hfits : st.col + (line ++ [newline]).length < usizeLimit := by
      have hranges := inRange_append hplain _ hrange
      have := h.le_column hplain hline hranges.1
      have := h.succ_lt hranges.2.here
      rw [List.length_append, List.length_singleton]
      omega
    have hall := hmoves.trans (Moves.verbatim sp (lo + st.pending) (line ++ [newline]))
    rw [column_newline] at hall
    simp only [hw, Option.bind_some, Expand.checkedAdd, if_pos hfits, Option.map_some]
    exact ⟨_, _, rfl, .inr ⟨rfl, hall⟩⟩
  · split
    · rename_i hslow hfast
      simp only [Bool.and_eq_true, decide_eq_true_eq] at hfast
      obtain ⟨⟨⟨rfl, -⟩, haflag⟩, hleading⟩ := hfast
      have hblank : line.head? = some space ∨ line.head? = some tab := by
        simp only [haflag, hleading, decide_true, Bool.true_and, Bool.not_true, Bool.or_false, Bool.not_eq_true',
          decide_eq_false_iff_not, not_not] at hslow
        cases line with
        | nil => revert hslow; decide
        | cons b line => exact hslow
      obtain ⟨blanks, rest, st', hsplit, hrun, hrest, hne, hst', hmoves⟩ :=
        leadingBlanks_spec h hplain hst hleading hrange
      have hlt : rest.length < (line ++ [newline]).length := by
        have := List.length_pos_iff.2 (hne hblank)
        rw [hsplit, List.length_append]
        omega
      have hzero : column sp (lo + st'.pending) rest = 0 := by
        rw [← hmoves.read, ← column_append, ← hsplit, column_newline]
      have hrange' : R (lo + st'.pending) := by
        have hplain' : Plain blanks := by
          intro b hb
          have hmem : b ∈ line ++ [newline] := hsplit ▸ List.mem_append_left _ hb
          rcases List.mem_append.1 hmem with hmem | hmem
          · exact hplain b hmem
          · exact htail.plain b hmem
        rw [← hmoves.read]
        exact (inRange_append hplain' rest (hsplit ▸ hrange)).2.here
      obtain ⟨w, hw, hmoves'⟩ := writeTabs_spec h hst' hrange' options.aflag
      have hall := hmoves.trans (hmoves'.trans (Moves.verbatim sp (lo + st'.pending) rest))
      rw [hzero] at hall
      simp only [hrun, Option.bind_some, if_pos hlt, hw, Option.map_some]
      rw [hsplit]
      exact ⟨_, _, rfl, .inr ⟨rfl, hall⟩⟩
    · exact unexpandLoop_spec h hplain hline htail hst hrange

omit h

/-! ## All reads -/

/-- A piece is a part of a line, perhaps with the newline behind it. -/
theorem pieces_tail {buf p : List UInt8} (h : p ∈ Lines.pieces newline buf) :
    ∃ line tail, p = line ++ tail ∧ newline ∉ line ∧ IsTail tail := by
  have hline : newline ∉ Lines.chomp newline p := Lines.not_mem_of_mem_lines (List.mem_map_of_mem h)
  by_cases hlast : p.getLast? = some newline
  · obtain ⟨line, rfl⟩ := List.getLast?_eq_some_iff.1 hlast
    rw [Lines.chomp, if_pos hlast, List.dropLast_concat] at hline
    exact ⟨line, [newline], rfl, hline, .inr rfl⟩
  · rw [Lines.chomp, if_neg hlast] at hline
    exact ⟨p, [], (List.append_nil p).symm, hline, .inl rfl⟩

theorem Plain.append {as bs : List UInt8} : Plain (as ++ bs) ↔ Plain as ∧ Plain bs := by
  simp only [Plain, List.mem_append, or_imp]
  exact forall_and

include h

theorem unexpandPieces_spec {ps : List (List UInt8)}
    (hps : ∀ p ∈ ps, ∃ line tail, p = line ++ tail ∧ newline ∉ line ∧ IsTail tail) (hplain : Plain ps.flatten) :
    ∀ {lo : Nat} {st : PrintState}, Holds options lo st → InRange sp R (lo + st.pending) ps.flatten →
      ∃ w st' lo', unexpandPieces options.tabConfig options (lastcol options.tabConfig) ps st = some (w, st') ∧
        Holds options lo' st' ∧ Moves sp lo st.pending ps.flatten w lo' st'.pending := by
  induction ps with
  | nil => exact fun {lo st} hst _ => ⟨[], st, lo, rfl, hst, .refl⟩
  | cons p ps ih =>
    intro lo st hst hrange
    rw [List.forall_mem_cons] at hps
    rw [List.flatten_cons, Plain.append] at hplain
    obtain ⟨⟨line, tail, rfl, hline, htail⟩, hps⟩ := hps
    have hplainLine := (Plain.append.1 hplain.1).1
    have hranges := inRange_append hplain.1 ps.flatten hrange
    obtain ⟨w, st', hbuf, hreach⟩ := unexpandBuf_spec h hplainLine hline htail hst hranges.1
    have hnext : ∃ st₁ lo₁, (if (line ++ tail).getLast? = some newline then PrintState.newLine else st') = st₁ ∧
        Holds options lo₁ st₁ ∧ Moves sp lo st.pending (line ++ tail) w lo₁ st₁.pending := by
      rcases hreach with ⟨rfl, lo', hst', hmoves⟩ | ⟨rfl, hmoves⟩
      · rw [if_neg fun h => by simpa using (getLast_tail hline (.inl rfl)).1 h]
        exact ⟨st', lo', rfl, hst', hmoves⟩
      · rw [if_pos ((getLast_tail hline htail).2 rfl)]
        exact ⟨.newLine, 0, rfl, holds_newLine options, hmoves⟩
    obtain ⟨st₁, lo₁, hst₁, hholds, hmoves⟩ := hnext
    obtain ⟨v, st₂, lo₂, hpieces, hholds₂, hmoves₂⟩ := ih hps hplain.2 hholds (hmoves.read ▸ hranges.2)
    rw [unexpandPieces, hbuf]
    simp only [Option.bind_eq_bind, Option.bind_some, hst₁, hpieces, Option.pure_def]
    exact ⟨w ++ v, st₂, lo₂, rfl, hholds₂, hmoves.trans hmoves₂⟩

/-- **All reads**: what is written has the layout of what is read. -/
theorem unexpandReads_spec {reads : List (List UInt8)} (hne : ∀ r ∈ reads, r ≠ []) (hplain : Plain reads.flatten) :
    ∀ {lo : Nat} {st : PrintState}, Holds options lo st → InRange sp R (lo + st.pending) reads.flatten →
      ∃ w lo', unexpandReads options.tabConfig options (lastcol options.tabConfig) reads st = some w ∧
        Moves sp lo st.pending reads.flatten w lo' 0 := by
  induction reads with
  | nil =>
    intro lo st hst hrange
    obtain ⟨w, hw, hmoves⟩ := writeTabs_spec h hst hrange options.aflag
    exact ⟨w, _, by rw [unexpandReads, hw, Option.map_some], hmoves⟩
  | cons r reads ih =>
    intro lo st hst hrange
    rw [List.forall_mem_cons] at hne
    rw [List.flatten_cons, Plain.append] at hplain
    have hranges := inRange_append hplain.1 reads.flatten hrange
    have hps : ∀ p ∈ Lines.pieces newline r, ∃ line tail, p = line ++ tail ∧ newline ∉ line ∧ IsTail tail :=
      fun _ => pieces_tail
    obtain ⟨w, st', lo', hpieces, hst', hmoves⟩ := unexpandPieces_spec h hps
      (by rw [Lines.flatten_pieces]; exact hplain.1) hst (by rw [Lines.flatten_pieces]; exact hranges.1)
    rw [Lines.flatten_pieces] at hmoves
    obtain ⟨v, lo'', hreads, hmoves'⟩ := ih hne.2 hplain.2 hst' (hmoves.read ▸ hranges.2)
    rw [unexpandReads, if_neg hne.1, hpieces]
    simp only [Option.bind_eq_bind, Option.bind_some, hreads, Option.pure_def]
    exact ⟨w ++ v, lo'', rfl, hmoves.trans hmoves'⟩

/-- A file is written with its layout. -/
theorem unexpand_layout {reads : List (List UInt8)} (hne : ∀ r ∈ reads, r ≠ []) (hplain : Plain reads.flatten)
    (hrange : InRange sp R 0 reads.flatten) :
    ∃ w, unexpand options reads = some w ∧ layout sp 0 w = layout sp 0 reads.flatten := by
  obtain ⟨w, lo', hw, hmoves⟩ := unexpandReads_spec h hne hplain (holds_newLine options) hrange
  refine ⟨w, hw, ?_⟩
  have htext := hmoves.text
  rw [List.replicate_zero, List.append_nil] at htext
  exact htext

omit h

end Layout

/-! ## Lists that both accept -/

section Lists

open Expand (RemainingMode Valid spacesToStop spacesToStop_eq)

/-- No stop behind a column up to this one is out of range. -/
def Reachable (tabConfig : TabConfig) (c : Nat) : Prop :=
  ∀ c' ≤ c, c' + (nextTabstop tabConfig c').getD 1 < usizeLimit

theorem reachable_mono {tabConfig : TabConfig} {c c' : Nat} (hle : c ≤ c') (h : Reachable tabConfig c') :
    Reachable tabConfig c := fun d hd => h d (Nat.le_trans hd hle)

variable {mode : RemainingMode} {stops : List Nat} {tabConfig : TabConfig}

theorem spacesToStop_pos (hvalid : Valid mode stops) (c : Nat) : 0 < spacesToStop mode stops c := by
  have hlt := (Expand.nextTabstop_isLeast hvalid c).1.2
  rw [spacesToStop_eq hvalid]
  exact Nat.lt_add_right_iff_pos.1 hlt

/-- Lists with the same stops. -/
theorem Agrees.toStops (hagrees : Agrees mode stops tabConfig) (hvalid : Valid mode stops) :
    Stops (spacesToStop mode stops) tabConfig (Reachable tabConfig) := by
  have hsp : ∀ c, spacesToStop mode stops c = (nextTabstop tabConfig c).getD 1 := by
    intro c
    rw [spacesToStop_eq hvalid]
    exact nextTabstop_agrees hvalid hagrees c
  refine ⟨fun _ _ => reachable_mono, ?_, ?_, ?_, fun c h => h c (Nat.le_refl c)⟩
  · intro c nts hnext
    have heq := hsp c
    rw [hnext, Option.getD_some] at heq
    exact ⟨heq ▸ spacesToStop_pos hvalid c, fun _ => heq⟩
  · intro c hnext
    rw [hsp, hnext]
    rfl
  · intro c hpos hlast
    cases hagrees with
    | fixed hne =>
      by_cases hlen : 1 < stops.length
      · have hlastcol : lastcol ⟨stops, none, none⟩ = stops.getLast?.getD 0 := if_pos ⟨hlen, rfl, rfl⟩
        rw [hlastcol] at hlast
        have hfind : stops.find? (c < ·) = none := by
          rw [List.find?_eq_none]
          intro t ht
          have := hvalid.le_last t ht
          simp only [decide_eq_true_eq]
          omega
        simp only [nextTabstop, if_neg hne, Option.any_none, hfind]
        rw [if_neg fun h => by omega]
        cases stops.getLast? <;> rfl
      · exact absurd hpos (by simp [lastcol, hlen])
    | plus n hne => exact absurd hpos (by simp [lastcol])
    | slash n hne => exact absurd hpos (by simp [lastcol])

end Lists

/-! ## `/+N` behind numbers -/

section SlashPlus

open Expand (Valid spacesToStop spacesToStop_eq)

variable {ns : List Nat} {n : Nat}

variable (hns : ns ≠ []) (hvalid : Valid .plus (ns ++ [n]))

include hvalid

theorem ascending_front : Expand.Ascending ns := by
  have h := hvalid.dropLast
  rwa [List.dropLast_concat] at h

theorem slashPlus_pos : 0 < n := hvalid.positive n (by simp)

include hns

theorem slashPlus_last : 0 < ns.getLast?.getD 0 ∧ ns.getLast?.getD 0 < n ∧ ns.getLast?.getD 0 ∈ ns := by
  rw [List.getLast?_eq_some_getLast hns, Option.getD_some]
  have hmem := List.getLast_mem hns
  exact ⟨hvalid.positive _ (by simp [hmem]), (List.pairwise_append.1 hvalid.sorted).2.2 _ hmem n (by simp), hmem⟩

/-- The stop of either program behind a column. -/
theorem next_slashPlus (c : Nat) :
    (∃ t ∈ ns, c < t ∧ nextTabstop ⟨ns, none, some n⟩ c = some (t - c) ∧ spacesToStop .plus (ns ++ [n]) c = t - c) ∨
      ns.getLast?.getD 0 ≤ c ∧ nextTabstop ⟨ns, none, some n⟩ c = some (n - c % n) ∧
        spacesToStop .plus (ns ++ [n]) c = n - (c - ns.getLast?.getD 0) % n := by
  have hpos := slashPlus_pos hvalid
  have hlen : 2 ≤ (ns ++ [n]).length := hvalid.two (by simp)
  rw [spacesToStop_eq hvalid]
  simp only [Expand.nextTabstop, Expand.getD_last, Expand.getD_fixed hlen, ← List.dropLast_eq_take,
    List.dropLast_concat, List.getLast?_concat, Option.getD_some, Expand.steps_eq hpos, nextTabstop, if_neg hns]
  rw [if_neg (by simp [hpos])]
  cases hfind : ns.find? (c < ·) with
  | some t =>
    obtain ⟨hmem, hlt, -⟩ := Expand.find_least (ascending_front hvalid).sorted hfind
    exact .inl ⟨t, hmem, hlt, rfl, rfl⟩
  | none =>
    refine .inr ⟨Expand.find_none hfind _ (slashPlus_last hns hvalid).2.2, ?_, rfl⟩
    rw [List.getLast?_eq_some_getLast hns]
    simp only [if_neg (Nat.ne_of_gt hpos)]

/-- Where a second stop of `unexpand` is out of range, none that is not one of `expand` too is reached. -/
theorem slashPlus_stops (hlarge : usizeLimit ≤ 2 * n) :
    Stops (spacesToStop .plus (ns ++ [n])) ⟨ns, none, some n⟩ (Reachable ⟨ns, none, some n⟩) := by
  have hpos := slashPlus_pos hvalid
  obtain ⟨-, hlast, -⟩ := slashPlus_last hns hvalid
  have hunreachable : ∀ c, n ≤ c → ¬ Reachable ⟨ns, none, some n⟩ c := by
    intro c hc hreach
    have hn := hreach n hc
    rcases next_slashPlus hns hvalid n with ⟨t, ht, hlt, -, -⟩ | ⟨-, hnext, -⟩
    · have := (ascending_front hvalid).le_last t ht
      omega
    · rw [hnext, Nat.mod_self, Option.getD_some] at hn
      omega
  refine ⟨fun _ _ => reachable_mono, ?_, ?_, ?_, fun c h => h c (Nat.le_refl c)⟩
  · intro c nts hnext
    rcases next_slashPlus hns hvalid c with ⟨t, -, hlt, hu, he⟩ | ⟨hle, hu, he⟩
    · obtain rfl := Option.some.inj (hu.symm.trans hnext)
      exact ⟨by omega, fun _ => he⟩
    · obtain rfl := Option.some.inj (hu.symm.trans hnext)
      have hmod := Nat.mod_lt c hpos
      have hmod_le := Nat.mod_le c n
      have hmod_le' := Nat.mod_le (c - ns.getLast?.getD 0) n
      refine ⟨by omega, fun hreach => absurd hreach (not_or.2 ⟨hunreachable _ (by omega), hunreachable _ ?_⟩)⟩
      rw [he]
      omega
  · intro c hnext
    rcases next_slashPlus hns hvalid c with ⟨t, -, -, hu, -⟩ | ⟨-, hu, -⟩ <;> rw [hu] at hnext <;> cases hnext
  · intro c hlastcol
    exact absurd hlastcol (by simp [lastcol])

/-- Up to the second stop behind the numbers, `unexpand` writes a tab for which `expand` goes further. -/
theorem tabsLoop_slashPlus (hsmall : 2 * n < usizeLimit) : ∀ turns scol : Nat, scol ≤ ns.getLast?.getD 0 →
    n - scol < turns → ∃ w, tabsLoop ⟨ns, none, some n⟩ n turns scol = some (w, n) ∧ (∀ b ∈ w, b = tab) ∧
      column (spacesToStop .plus (ns ++ [n])) scol w = ns.getLast?.getD 0 + n
  | 0, _, _, hturns => absurd hturns (Nat.not_lt_zero _)
  | turns + 1, scol, hle, hturns => by
    obtain ⟨hlastpos, hlast, -⟩ := slashPlus_last hns hvalid
    rw [tabsLoop]
    rcases next_slashPlus hns hvalid scol with ⟨t, ht, hlt, hu, he⟩ | ⟨hge, hu, he⟩
    · have htle := (ascending_front hvalid).le_last t ht
      have hstop : scol + (t - scol) = t := Nat.add_sub_cancel' (Nat.le_of_lt hlt)
      obtain ⟨w, hw, htabs, hcol⟩ := tabsLoop_slashPlus hsmall turns t htle (by omega)
      simp only [hu, Expand.checkedAdd, hstop]
      rw [if_pos (by omega), Option.bind_some, if_neg (by omega), hw]
      refine ⟨tab :: w, rfl, by simpa using htabs, ?_⟩
      rwa [column_cons _ (by decide), behind, if_pos rfl, he, hstop]
    · obtain rfl : scol = ns.getLast?.getD 0 := Nat.le_antisymm hle hge
      have hmod : ns.getLast?.getD 0 % n = ns.getLast?.getD 0 := Nat.mod_eq_of_lt hlast
      have hstop : ns.getLast?.getD 0 + (n - ns.getLast?.getD 0) = n := Nat.add_sub_cancel' (Nat.le_of_lt hlast)
      have hdone : tabsLoop ⟨ns, none, some n⟩ n turns n = some ([], n) := by
        obtain ⟨turns, rfl⟩ : ∃ k, turns = k + 1 := ⟨turns - 1, by omega⟩
        rw [tabsLoop]
        rcases next_slashPlus hns hvalid n with ⟨t, ht, hlt, -, -⟩ | ⟨-, hu', -⟩
        · have := (ascending_front hvalid).le_last t ht
          omega
        · simp only [hu', Nat.mod_self, Nat.sub_zero, Expand.checkedAdd]
          rw [if_pos (by omega), Option.bind_some, if_pos (by omega)]
      simp only [hu, hmod, Expand.checkedAdd, hstop]
      rw [if_pos (by omega), Option.bind_some, if_neg (Nat.lt_irrefl n), hdone]
      refine ⟨[tab], rfl, by simp, ?_⟩
      rw [column_cons _ (by decide), behind, if_pos rfl, he, Nat.sub_self, Nat.zero_mod]
      rfl

end SlashPlus

/-- Blanks are held back at the start of a line. -/
theorem unexpandLoop_spaces (tabConfig : TabConfig) (options : Options) : ∀ (k : Nat) (st : PrintState),
    st.leading = true → st.col + k < usizeLimit →
      unexpandLoop tabConfig options 0 (List.replicate k space) st =
        some ([], { st with col := st.col + k, pctype := if k = 0 then st.pctype else .space })
  | 0, st, _, _ => by rw [List.replicate_zero, unexpandLoop]; rfl
  | k + 1, st, hleading, hfits => by
    have hchar : nextCharInfo options.utf8 space (List.replicate k space) = (.space, 0, 1) := by
      rw [nextCharInfo_ascii (by decide), if_pos rfl]
    have hfirst : st.col + 1 < usizeLimit := by omega
    have hloop := unexpandLoop_spaces tabConfig options k { st with col := st.col + 1, pctype := .space } hleading
      (by simp only; omega)
    rw [List.replicate_succ, unexpandLoop, if_neg (by simp)]
    simp only [hchar, unexpandChar, unexpandBlank, Expand.checkedAdd, if_pos hfirst, Option.map_some, hleading,
      Bool.true_or, if_true, Option.bind_eq_bind, Option.bind_some, Nat.sub_self, List.drop_zero, Option.pure_def]
    rw [hleading] at hloop
    rw [hloop]
    simp only [Option.bind_some, ite_self, Nat.succ_ne_zero, if_false, List.append_nil, Nat.add_assoc, Nat.add_comm 1]

theorem inRange_spaces {sp : Nat → Nat} {R : Nat → Prop} : ∀ (k c : Nat), (∀ c' ≤ c + k, R c') →
    InRange sp R c (List.replicate k space)
  | 0, c, h => h c (Nat.le_refl _)
  | k + 1, c, h => ⟨h c (Nat.le_add_right _ _), inRange_spaces k (c + 1) fun c' hc' => h c' (by omega)⟩

theorem layout_spaces (sp : Nat → Nat) : ∀ k c : Nat, layout sp c (List.replicate k space) = List.replicate k space
  | 0, _ => rfl
  | k + 1, c => by
    rw [List.replicate_succ, layout_cons sp (by decide), if_neg (by decide), layout_spaces sp k]
    rfl

theorem length_layout_tabs (sp : Nat → Nat) {w : List UInt8} (h : ∀ b ∈ w, b = tab) : ∀ c : Nat,
    c + (layout sp c w).length = column sp c w := by
  induction w with
  | nil => exact fun c => rfl
  | cons b w ih =>
    intro c
    rw [List.forall_mem_cons] at h
    obtain ⟨rfl, htabs⟩ := h
    rw [column_cons sp (by decide), layout_cons sp (by decide), if_pos rfl, List.length_append, List.length_replicate,
      ← ih htabs, behind, if_pos rfl, Nat.add_assoc]

theorem pieces_spaces : ∀ k : Nat, Lines.pieces newline (List.replicate (k + 1) space) = [List.replicate (k + 1) space]
  | 0 => rfl
  | k + 1 => by
    rw [List.replicate_succ, Lines.pieces, if_neg (by decide), pieces_spaces k]

/-- Blanks alone are written as the loop over the tabs leaves them. -/
theorem unexpand_spaces {options : Options} (hlastcol : lastcol options.tabConfig = 0) {n : Nat} (hn : 2 ≤ n)
    (hfits : n < usizeLimit) {w : List UInt8}
    (hloop : tabsLoop options.tabConfig n (n + 1) 0 = some (w, n)) :
    unexpand options [List.replicate n space] = some w := by
  obtain ⟨k, rfl⟩ : ∃ k, n = k + 1 := ⟨n - 1, by omega⟩
  have hchars := unexpandLoop_spaces options.tabConfig options (k + 1) .newLine rfl
    (by simp only [PrintState.newLine]; omega)
  have hlast : (List.replicate (k + 1) space).getLast? ≠ some newline := by
    rw [List.getLast?_replicate]
    simp [space, newline]
  have hone : 0 + 1 < usizeLimit := by decide
  rw [unexpand, hlastcol, unexpandReads, if_neg (by simp), pieces_spaces, unexpandPieces, unexpandBuf]
  simp only [hlast, decide_false, Bool.false_and, Bool.false_eq_true, if_false, hchars, Option.bind_eq_bind,
    Option.bind_some, unexpandPieces, Option.pure_def, unexpandReads]
  simp only [PrintState.newLine, writeTabs, turnsBlanks, Bool.true_or, Expand.checkedAdd, if_pos hone, true_and,
    Nat.succ_ne_zero, if_false, ne_eq, reduceCtorEq, not_false_eq_true, if_true, Option.map_some, Nat.zero_add,
    Option.bind_some, decide_eq_true (show 1 < k + 1 by omega), Nat.sub_zero, hloop]
  simp

/-! ## The layout of the input -/

section Meets

open Expand (Str RemainingMode Valid spacesToStop)

theorem slashPlus_unique {s : Str} {m n : Nat} (hm : SlashPlus s m) (hn : SlashPlus s n) : m = n := by
  obtain ⟨words, digits, hs, -, -, hread⟩ := hm
  obtain ⟨words', digits', hs', -, -, hread'⟩ := hn
  have hlast := (List.append_inj' (hs.symm.trans hs') rfl).2
  have hdigits : digits = digits' := by simpa using hlast
  rw [hdigits] at hread
  exact Except.ok.inj (hread.symm.trans hread')

/-- The blanks up to the second stop become tabs that `expand` takes further. -/
theorem slashPlus_moves {ns : List Nat} {n : Nat} (hns : ns ≠ []) (hvalid : Valid .plus (ns ++ [n]))
    (hsmall : 2 * n < usizeLimit) (aflag utf8 : Bool) :
    ∃ w, unexpand ⟨⟨ns, none, some n⟩, aflag, utf8⟩ [List.replicate n space] = some w ∧
      layout (spacesToStop .plus (ns ++ [n])) 0 w ≠
        layout (spacesToStop .plus (ns ++ [n])) 0 (List.replicate n space) := by
  obtain ⟨hlastpos, hlast, -⟩ := slashPlus_last hns hvalid
  obtain ⟨w, hloop, htabs, hcol⟩ := tabsLoop_slashPlus hns hvalid hsmall (n + 1) 0 (Nat.zero_le _)
    (by omega)
  refine ⟨w, unexpand_spaces (by simp [lastcol]) (by omega) (by omega) hloop, fun h => ?_⟩
  have hlen := length_layout_tabs (spacesToStop .plus (ns ++ [n])) htabs 0
  rw [h, layout_spaces, List.length_replicate, hcol] at hlen
  omega

theorem slashPlus_inRange {ns : List Nat} {n : Nat} (hns : ns ≠ []) (hvalid : Valid .plus (ns ++ [n]))
    (hsmall : 2 * n < usizeLimit) (sp : Nat → Nat) :
    InRange sp (Reachable ⟨ns, none, some n⟩) 0 (List.replicate n space) := by
  refine inRange_spaces n 0 fun c hc c' hc' => ?_
  obtain ⟨-, hlast, -⟩ := slashPlus_last hns hvalid
  rcases next_slashPlus hns hvalid c' with ⟨t, ht, hlt, hu, -⟩ | ⟨-, hu, -⟩
  · have := (ascending_front hvalid).le_last t ht
    rw [hu, Option.getD_some]
    omega
  · rw [hu, Option.getD_some]
    omega

end Meets

end Peiosutils.Unexpand
