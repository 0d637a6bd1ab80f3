import Mathlib.Data.List.ModifyLast
import Peiosutils.Csplit.Patterns
import Peiosutils.Lib.Lines
import Peiosutils.Lib.While

/-!
# Splitting (`csplit.rs`)

The input is UTF-8, and reading and writing do not fail. A regular expression is a predicate on lines, without their end.
What is written to the splits, and what is skipped, is kept in sections in the order in which they are opened. An assert, an
unwrap or a counter that fails is a panic; a loop that is out of fuel has not ended.
-/

set_option autoImplicit false

namespace Peiosutils.Csplit

open While (Stop loop loopWith)

/-- `CsplitOptions`: what is asked for here. -/
structure CsplitOptions where
  elideEmptyFiles : Bool
  suppressMatched : Bool
  deriving DecidableEq, Repr

/-! ## The input -/

/-- A line with its end, and its number from zero. -/
abbrev Numbered := Nat × Text

/-- `InputSplitter`. -/
structure InputSplitter where
  iter : List Numbered
  buffer : List Numbered
  size : Nat
  rewind : Bool
  deriving DecidableEq, Repr

namespace InputSplitter

def new (iter : List Numbered) : InputSplitter := ⟨iter, [], 1, false⟩

def rewindBuffer (input : InputSplitter) : InputSplitter := { input with rewind := true }

def setSizeOfBuffer (input : InputSplitter) (size : Nat) : InputSplitter := { input with size := size }

/-- The lines that are too much, and the buffer without them. -/
def shrinkBufferToSize (input : InputSplitter) : List Text × InputSplitter :=
  let shrinkOffset := if input.buffer.length > input.size then input.buffer.length - input.size else 0
  ((input.buffer.take shrinkOffset).map Prod.snd, { input with buffer := input.buffer.drop shrinkOffset })

def drainBuffer (input : InputSplitter) : List Text × InputSplitter :=
  (input.buffer.map Prod.snd, { input with buffer := [] })

/-- A line that is added may push out the first one. -/
def addLineToBuffer (input : InputSplitter) (ln : Nat) (line : Text) : Except Stop (Option Text × InputSplitter) :=
  if input.rewind then .ok (none, { input with buffer := (ln, line) :: input.buffer })
  else if input.buffer.length ≥ input.size then
    match input.buffer with
    | [] => .error .panic
    | head :: buffer => .ok (some head.2, { input with buffer := buffer ++ [(ln, line)] })
  else .ok (none, { input with buffer := input.buffer ++ [(ln, line)] })

/-- `assert!(input_iter.add_line_to_buffer(ln, line).is_none())`. -/
def assertAdd (input : InputSplitter) (ln : Nat) (line : Text) : Except Stop InputSplitter := do
  let added ← input.addLineToBuffer ln line
  if added.1.isNone then return added.2 else .error .panic

/-- From the iterator, when no line is buffered for it. -/
def nextOfIter (input : InputSplitter) : Option Numbered × InputSplitter :=
  match input.iter with
  | [] => (none, input)
  | item :: iter => (some item, { input with iter := iter })

def next (input : InputSplitter) : Option Numbered × InputSplitter :=
  if input.rewind then
    match input.buffer with
    | item :: buffer => (some item, { input with buffer := buffer })
    | [] => nextOfIter { input with rewind := false }
  else nextOfIter input

end InputSplitter

/-! ## The splits -/

/-- A split with the number its name has, or a part of the input that is skipped. -/
structure Section where
  name : Option Nat
  content : Text
  deriving DecidableEq, Repr

/-- `SplitWriter`, with the sections so far; what is written goes to the last of them. -/
structure SplitWriter where
  counter : Nat
  currentWriter : Bool
  size : Nat
  devNull : Bool
  sections : List Section
  deriving DecidableEq, Repr

namespace SplitWriter

def new : SplitWriter := ⟨0, false, 0, false, []⟩

/-- What has been written and skipped. -/
def text (w : SplitWriter) : Text := w.sections.flatMap Section.content

/-- The file of the next name is created, or made empty. -/
def newWriter (w : SplitWriter) : SplitWriter :=
  { counter := w.counter + 1
    currentWriter := true
    size := 0
    devNull := false
    sections := w.sections.filter (·.name ≠ some w.counter) ++ [⟨some w.counter, []⟩] }

def asDevNull (w : SplitWriter) : SplitWriter := { w with devNull := true, sections := w.sections ++ [⟨none, []⟩] }

/-- At the end of the last section. -/
def appendLine (sections : List Section) (line : Text) : List Section :=
  sections.modifyLast fun s => { s with content := s.content ++ line }

def writeln (w : SplitWriter) (line : Text) : Except Stop SplitWriter :=
  if w.devNull then .ok { w with sections := appendLine w.sections line }
  else if w.currentWriter then .ok { w with size := w.size + line.length, sections := appendLine w.sections line }
  else .error .panic

def writeLines (w : SplitWriter) : List Text → Except Stop SplitWriter
  | [] => .ok w
  | line :: lines => do
    let w ← w.writeln line
    w.writeLines lines

/-- The number of the split before the counter. -/
def finishSplit (opts : CsplitOptions) (w : SplitWriter) : Except Stop SplitWriter :=
  if w.devNull then .ok w
  else if w.counter = 0 then .error .panic
  else if opts.elideEmptyFiles && w.size = 0 then .ok { w with counter := w.counter - 1 }
  else .ok w

/-- `Drop`: an empty split is removed. -/
def drop (opts : CsplitOptions) (w : SplitWriter) : SplitWriter :=
  if opts.elideEmptyFiles && w.size = 0 then
    { w with sections := w.sections.filter (·.name ≠ some w.counter) }
  else w

end SplitWriter

/-! ## Applying a pattern -/

/-- The display form of a pattern. -/
def Pattern.display : Pattern → Text
  | .upToLine n _ => Numeral.decimal n
  | .upToMatch regex offset _ => 47 :: regex ++ 47 :: offsetDisplay offset
  | .skipToMatch regex offset _ => 37 :: regex ++ 37 :: offsetDisplay offset
where
  offsetDisplay (offset : Int) : Text :=
    if offset = 0 then [] else (if offset > 0 then [43] else []) ++ Numeral.signed offset

/-- A section is being written: the writer and the input. -/
abbrev Splitting := SplitWriter × InputSplitter

/-- How an application ends: with an error, or without. -/
abbrev Applied := Option CsplitError × SplitWriter × InputSplitter

def toLineTurn (opts : CsplitOptions) (pattern : Text) (n : Nat) : Splitting → Except Stop (Splitting ⊕ Applied)
  | (w, input) =>
    match input.next with
    | (none, input) => .ok (.inr (some (.lineOutOfRange pattern), w, input))
    | (some (ln, line), input) =>
      if n < ln + 1 then do
        let input ← input.assertAdd ln line
        return .inr (none, w, input)
      else if n = ln + 1 then do
        let input ← if opts.suppressMatched then pure input else input.assertAdd ln line
        return .inr (none, w, input)
      else do
        let w ← w.writeln line
        return .inl (w, input)

def doToLine (opts : CsplitOptions) (fuel : Nat) (pattern : Text) (n : Nat) (w : SplitWriter) (input : InputSplitter) :
    Except Stop Applied := do
  let (e, w, input) ← loop (toLineTurn opts pattern n) fuel (w, (input.rewindBuffer).setSizeOfBuffer 1)
  let w ← w.finishSplit opts
  return (e, w, input)

/-- A line without its end. -/
def stripped (line : Text) : Text :=
  if [13, 10].isSuffixOf line then line.dropLast.dropLast
  else if [10].isSuffixOf line then line.dropLast
  else line

/-- The extra lines of a positive offset; there may not be so many. -/
def extraLines (count : Nat) (w : SplitWriter) (input : InputSplitter) : Except Stop (Bool × SplitWriter × InputSplitter) :=
  match count with
  | 0 => .ok (true, w, input)
  | count + 1 =>
    match input.next with
    | (none, input) => .ok (false, w, input)
    | (some (_, line), input) => do
      let w ← w.writeln line
      extraLines count w input

/-- The matched line, where the offset is not negative: kept for the next section, written, or suppressed. -/
def keepMatched (opts : CsplitOptions) (offset : Nat) (ln : Nat) (line : Text) (w : SplitWriter) (input : InputSplitter) :
    Except Stop Splitting :=
  if offset = 0 then
    if opts.suppressMatched then .ok (w, input)
    else do
      let input ← input.assertAdd ln line
      return (w, input)
  else do
    let w ← w.writeln line
    return (w, input)

def matched (opts : CsplitOptions) (pattern : Text) (offset : Nat) (ln : Nat) (line : Text) (w : SplitWriter)
    (input : InputSplitter) : Except Stop Applied := do
  let (w, input) ← keepMatched opts offset ln line w input
  let (enough, w, input) ← extraLines (offset - 1) w input
  let w ← w.finishSplit opts
  if enough then
    return (none, w, if opts.suppressMatched && 0 < offset then (input.next).2 else input)
  else return (some (.lineOutOfRange pattern), w, input)

def toMatchTurn (opts : CsplitOptions) (pattern : Text) (isMatch : Text → Bool) (offset : Nat) :
    Splitting → Except Stop (Splitting ⊕ Applied)
  | (w, input) =>
    match input.next with
    | (none, input) => do
      let w ← w.finishSplit opts
      return .inr (some (.matchNotFound pattern), w, input)
    | (some (ln, line), input) =>
      if isMatch (stripped line) then do
        let applied ← matched opts pattern offset ln line w input
        return .inr applied
      else do
        let w ← w.writeln line
        return .inl (w, input)

/-- The matched line goes to the buffer: in the place of another one, or with place made for it. -/
def holdMatched (opts : CsplitOptions) (offset : Nat) (ln : Nat) (line : Text) (input : InputSplitter) :
    Except Stop InputSplitter :=
  if opts.suppressMatched then do
    let added ← input.addLineToBuffer ln line
    return added.2
  else (input.setSizeOfBuffer (offset + 1)).assertAdd ln line

/-- A match, with lines before it held back. -/
def matchedBefore (opts : CsplitOptions) (pattern : Text) (offset : Nat) (ln : Nat) (line : Text) (w : SplitWriter)
    (input : InputSplitter) : Except Stop Applied := do
  let w ← w.writeLines input.shrinkBufferToSize.1
  let input ← holdMatched opts offset ln line input.shrinkBufferToSize.2
  let w ← w.finishSplit opts
  return (if input.buffer.length < offset then some (.lineOutOfRange pattern) else none, w, input)

/-- `offset` lines before a match are held back. -/
def beforeMatchTurn (opts : CsplitOptions) (pattern : Text) (isMatch : Text → Bool) (offset : Nat) :
    Splitting → Except Stop (Splitting ⊕ Applied)
  | (w, input) =>
    match input.next with
    | (none, input) => do
      let w ← w.writeLines input.drainBuffer.1
      let w ← w.finishSplit opts
      return .inr (some (.matchNotFound pattern), w, input.drainBuffer.2)
    | (some (ln, line), input) =>
      if isMatch (stripped line) then do
        let applied ← matchedBefore opts pattern offset ln line w input
        return .inr applied
      else do
        let (out, input) ← input.addLineToBuffer ln line
        let w ← w.writeLines out.toList
        return .inl (w, input)

/-- `-offset as usize`; the least `i32` is its own negative. -/
def offsetUsize (offset : Int) : Nat := if offset = -2 ^ 31 then 2 ^ 64 - 2 ^ 31 else (-offset).toNat

def doToMatch (opts : CsplitOptions) (fuel : Nat) (pattern : Text) (isMatch : Text → Bool) (offset : Int) (w : SplitWriter)
    (input : InputSplitter) : Except Stop Applied :=
  if 0 ≤ offset then do
    let w ← w.writeLines input.drainBuffer.1
    loop (toMatchTurn opts pattern isMatch offset.toNat) fuel (w, input.drainBuffer.2.setSizeOfBuffer 1)
  else
    loop (beforeMatchTurn opts pattern isMatch (offsetUsize offset)) fuel
      (w, input.setSizeOfBuffer (offsetUsize offset))

/-! ## All patterns -/

def Pattern.execute : Pattern → ExecutePattern
  | .upToLine _ ex | .upToMatch _ _ ex | .skipToMatch _ _ ex => ex

/-- `ExecutePatternIter::max`. -/
def ExecutePattern.max : ExecutePattern → Option Nat
  | .always => none
  | .times n => some n

/-- The loop over the applications of a pattern: how many there were, and the line the next one goes to. -/
structure Repeat where
  cur : Nat
  upToLine : Nat
  writer : SplitWriter
  input : InputSplitter
  deriving DecidableEq, Repr

/-- The next pattern, or the end of `do_csplit`. -/
inductive Flow where
  | next (writer : SplitWriter) (input : InputSplitter)
  | return (e : Option CsplitError) (writer : SplitWriter) (input : InputSplitter)
  deriving DecidableEq, Repr

/-- Behind application `ith` that goes to a line. -/
def afterLine (pattern : Text) (n ith upToLine : Nat) : Applied → Repeat ⊕ Flow
  | (none, w, input) => .inl ⟨ith, upToLine + n, w, input⟩
  | (some (.lineOutOfRange p), w, input) =>
    .inr (.return (some (if ith ≠ 1 then .lineOutOfRangeOnRepetition pattern (ith - 1) else .lineOutOfRange p)) w input)
  | (some e, w, input) => .inr (.return (some e) w input)

/-- Behind application `ith` that goes to a match. -/
def afterMatch (pattern : Text) (max : Option Nat) (ith upToLine : Nat) : Applied → Repeat ⊕ Flow
  | (none, w, input) => .inl ⟨ith, upToLine, w, input⟩
  | (some (.matchNotFound p), w, input) =>
    match max with
    | none => .inr (.return none w input)
    | some m =>
      .inr (.return (some (if m ≠ 1 ∧ ith ≠ 1 then .matchNotFoundOnRepetition pattern (ith - 1) else .matchNotFound p))
        w input)
  | (some e, w, input) => .inr (.return (some e) w input)

section Csplit

variable (opts : CsplitOptions) (isMatch : Text → Text → Bool)

/-- One application of a pattern. -/
def applyOnce (pattern : Pattern) (fuel : Nat) (r : Repeat) : Except Stop (Repeat ⊕ Flow) :=
  match pattern with
  | .upToLine n _ => do
    let applied ← doToLine opts fuel pattern.display r.upToLine r.writer.newWriter r.input
    return afterLine pattern.display n (r.cur + 1) r.upToLine applied
  | .upToMatch regex offset ex => do
    let applied ← doToMatch opts fuel pattern.display (isMatch regex) offset r.writer.newWriter r.input
    return afterMatch pattern.display ex.max (r.cur + 1) r.upToLine applied
  | .skipToMatch regex offset ex => do
    let applied ← doToMatch opts fuel pattern.display (isMatch regex) offset r.writer.asDevNull r.input
    return afterMatch pattern.display ex.max (r.cur + 1) r.upToLine applied

def applyTurn (pattern : Pattern) (fuel : Nat) (r : Repeat) : Except Stop (Repeat ⊕ Flow) :=
  if pattern.execute.max = some r.cur then .ok (.inr (.next r.writer r.input))
  else applyOnce opts isMatch pattern fuel r

/-- Before the first application of a pattern. -/
def Repeat.start (pattern : Pattern) (w : SplitWriter) (input : InputSplitter) : Repeat :=
  match pattern with
  | .upToLine n _ => ⟨0, n, w, input⟩
  | _ => ⟨0, 0, w, input⟩

def doCsplit (fuel : Nat) : List Pattern → SplitWriter → InputSplitter → Except Stop Applied
  | [], w, input => .ok (none, w, input)
  | pattern :: patterns, w, input => do
    match ← loopWith (applyTurn opts isMatch pattern) fuel (Repeat.start pattern w input) with
    | .next w input => doCsplit fuel patterns w input
    | .return e w input => return (e, w, input)

/-- The lines that are left when the buffer is rewound. -/
def InputSplitter.rest (input : InputSplitter) : List Text := (input.buffer ++ input.iter).map Prod.snd

def isUpToLine : Pattern → Bool
  | .upToLine _ _ => true
  | _ => false

/-- What is left goes to a split of its own. -/
def copyRest (allUpToLine : Bool) (w : SplitWriter) (input : InputSplitter) : Except Stop SplitWriter :=
  match input.rest with
  | line :: lines => do
    let w ← w.newWriter.writeLines (line :: lines)
    w.finishSplit opts
  | [] => if allUpToLine && opts.suppressMatched then w.newWriter.finishSplit opts else .ok w

/-- Behind the patterns, unless one of them failed. -/
def finishRun (allUpToLine : Bool) : Applied → Except Stop (Option CsplitError × SplitWriter)
  | (none, w, input) => do
    let w ← copyRest opts allUpToLine w input
    return (none, w.drop opts)
  | (some e, w, _) => .ok (some e, w.drop opts)

/-- The lines of the input, with their numbers. -/
def enumerated (input : Text) : List Numbered := (Lines.pieces 10 input).zipIdx.map Prod.swap

/-- `csplit`, behind `get_patterns`. -/
def csplit (patterns : List Pattern) (input : Text) (fuel : Nat) : Except Stop (Option CsplitError × SplitWriter) := do
  let applied ← doCsplit opts isMatch fuel patterns .new (.new (enumerated input))
  finishRun opts (patterns.all isUpToLine) applied

end Csplit

end Peiosutils.Csplit

/-!
# What the writer of splits keeps

Between two sections the writer is `Ready`: the sections with a name that is not used up are empty, so that neither the file
that is created anew nor the one that is removed at the end holds anything. While a section is `Open`, lines go to the end of
what has been written.
-/

namespace Peiosutils.Csplit

open While (Stop)

namespace SplitWriter

/-- Sections with the names from `counter` on are empty. -/
def Tidy (counter : Nat) (sections : List Section) : Prop :=
  ∀ s ∈ sections, ∀ i, s.name = some i → counter ≤ i → s.content = []

/-- Between two sections, with `t` written. -/
structure Ready (w : SplitWriter) (t : Text) : Prop where
  text : w.text = t
  tidy : Tidy w.counter w.sections

/-- A section is open, a split or one that is skipped. -/
inductive Open (w : SplitWriter) (t : Text) : Prop
  | split (front : List Section) (content : Text) (hsections : w.sections = front ++ [⟨some (w.counter - 1), content⟩])
    (hcounter : 0 < w.counter) (htidy : Tidy (w.counter - 1) front) (hsize : w.size = content.length)
    (hdevNull : w.devNull = false) (hwriter : w.currentWriter = true) (htext : w.text = t)
  | skip (front : List Section) (content : Text) (hsections : w.sections = front ++ [⟨none, content⟩])
    (htidy : Tidy w.counter front) (hdevNull : w.devNull = true) (htext : w.text = t)

theorem ready_new : Ready .new [] := ⟨rfl, nofun⟩

/-- Taking away the sections of a name that is not used up takes nothing away. -/
theorem text_filter {counter : Nat} {sections : List Section} (h : Tidy counter sections) :
    (sections.filter (·.name ≠ some counter)).flatMap Section.content = sections.flatMap Section.content := by
  induction sections with
  | nil => rfl
  | cons s sections ih =>
    have htail := ih fun s' hs' => h s' (List.mem_cons_of_mem s hs')
    by_cases hs : s.name = some counter
    · have hnil := h s List.mem_cons_self counter hs (Nat.le_refl _)
      rw [List.filter_cons_of_neg (by simp [hs]), htail, List.flatMap_cons, hnil, List.nil_append]
    · rw [List.filter_cons_of_pos (by simp [hs]), List.flatMap_cons, List.flatMap_cons, htail]

theorem open_newWriter {w : SplitWriter} {t : Text} (h : Ready w t) : Open w.newWriter t := by
  refine .split _ [] rfl (Nat.succ_pos _) (fun s hs i hi hle => ?_) rfl rfl rfl ?_
  · exact h.tidy s (List.mem_of_mem_filter hs) i hi hle
  · rw [text, newWriter, List.flatMap_append, text_filter h.tidy, ← h.text, text]
    simp

theorem open_asDevNull {w : SplitWriter} {t : Text} (h : Ready w t) : Open w.asDevNull t := by
  refine .skip w.sections [] rfl h.tidy rfl ?_
  rw [text, asDevNull, List.flatMap_append, ← h.text, text]
  simp

theorem open_writeln {w : SplitWriter} {t : Text} (h : Open w t) (line : Text) :
    ∃ w', w.writeln line = .ok w' ∧ Open w' (t ++ line) := by
  have happend : ∀ front (s : Section), appendLine (front ++ [s]) line = front ++ [⟨s.name, s.content ++ line⟩] :=
    fun front s => List.modifyLast_concat _ s front
  cases h with
  | split front content hsections hcounter htidy hsize hdevNull hwriter htext =>
    have hnew : appendLine w.sections line = front ++ [⟨some (w.counter - 1), content ++ line⟩] := by
      rw [hsections, happend]
    refine ⟨_, by rw [writeln, hdevNull, hwriter]; rfl, ?_⟩
    refine .split front (content ++ line) hnew hcounter htidy ?_ rfl rfl ?_
    · rw [List.length_append, ← hsize]
    · rw [text] at htext ⊢
      rw [hnew, ← htext, hsections]
      simp
  | skip front content hsections htidy hdevNull htext =>
    have hnew : appendLine w.sections line = front ++ [⟨none, content ++ line⟩] := by
      rw [hsections, happend]
    refine ⟨_, by rw [writeln, hdevNull]; rfl, ?_⟩
    refine .skip front (content ++ line) hnew htidy rfl ?_
    rw [text] at htext ⊢
    rw [hnew, ← htext, hsections]
    simp

theorem open_writeLines {w : SplitWriter} {t : Text} (h : Open w t) (lines : List Text) :
    ∃ w', w.writeLines lines = .ok w' ∧ Open w' (t ++ lines.flatten) := by
  induction lines generalizing w t with
  | nil => exact ⟨w, rfl, by simpa using h⟩
  | cons line lines ih =>
    obtain ⟨w₁, hw₁, hopen₁⟩ := open_writeln h line
    obtain ⟨w₂, hw₂, hopen₂⟩ := ih hopen₁
    refine ⟨w₂, by rw [writeLines, hw₁]; exact hw₂, ?_⟩
    rwa [List.flatten_cons, ← List.append_assoc]

theorem ready_finishSplit {w : SplitWriter} {t : Text} (h : Open w t) (opts : CsplitOptions) :
    ∃ w', w.finishSplit opts = .ok w' ∧ Ready w' t := by
  cases h with
  | split front content hsections hcounter htidy hsize hdevNull hwriter htext =>
    rw [finishSplit, hdevNull, if_neg Bool.false_ne_true, if_neg (by omega)]
    have hfront : ∀ s ∈ front, ∀ i, s.name = some i → w.counter - 1 ≤ i → s.content = [] := htidy
    split
    · rename_i helide
      simp only [Bool.and_eq_true, decide_eq_true_eq] at helide
      have hnil : content = [] := List.eq_nil_of_length_eq_zero (hsize ▸ helide.2)
      refine ⟨_, rfl, htext, fun s hs i hi hle => ?_⟩
      rw [hsections] at hs
      rcases List.mem_append.1 hs with hs | hs
      · exact hfront s hs i hi hle
      · rw [List.mem_singleton.1 hs, hnil]
    · refine ⟨w, rfl, htext, fun s hs i hi hle => ?_⟩
      rw [hsections] at hs
      rcases List.mem_append.1 hs with hs | hs
      · exact hfront s hs i hi (by omega)
      · rw [List.mem_singleton.1 hs] at hi
        cases hi
        omega
  | skip front content hsections htidy hdevNull htext =>
    refine ⟨w, by rw [finishSplit, hdevNull]; rfl, htext, fun s hs i hi hle => ?_⟩
    rw [hsections] at hs
    rcases List.mem_append.1 hs with hs | hs
    · exact htidy s hs i hi hle
    · rw [List.mem_singleton.1 hs] at hi
      cases hi

/-- The file that is removed at the end is empty. -/
theorem text_drop {w : SplitWriter} {t : Text} (h : Ready w t) (opts : CsplitOptions) : (w.drop opts).text = t := by
  rw [drop]
  split
  · rw [text, text_filter h.tidy, ← h.text, text]
  · exact h.text

end SplitWriter

end Peiosutils.Csplit
