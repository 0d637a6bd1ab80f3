import Peiosutils.Csplit.Splitter

/-!
# Applying one pattern

What an application does to the input and to the splits (`Moves`): nothing of the lines that are left is lost or repeated. An
application that looks back for its match is the exception, where the buffer is not empty and the input is rewound: then the
first line of the buffer is put back in front of it, and is read again for ever if it does not match; if it does, the lines
behind it that are too many for the buffer are written before it.
-/

set_option autoImplicit false

namespace Peiosutils.Csplit

open While (Stop Settles Hangs loop settles_loop_done settles_loop_next settles_pure)

variable {opts : CsplitOptions}

/-! ## The input -/

namespace InputSplitter

variable {input : InputSplitter}

/-- The lines in the buffer, and those behind. -/
def left (input : InputSplitter) : List Numbered := input.buffer ++ input.iter

theorem rest_eq (input : InputSplitter) : input.rest = input.left.map Prod.snd := rfl

/-- The next line is the first one that is left. -/
def Rewound (input : InputSplitter) : Prop := input.rewind = true ∨ input.buffer = []

/-- The next line is the first one behind the buffer. -/
def Forward (input : InputSplitter) : Prop := input.rewind = true → input.buffer = []

theorem next_of_forward (h : input.Forward) :
    input.next = (input.iter.head?, { input with rewind := false, iter := input.iter.tail }) := by
  obtain ⟨iter, buffer, size, rewind⟩ := input
  cases rewind with
  | false => cases iter <;> rfl
  | true =>
    cases h rfl
    cases iter <;> rfl

theorem next_of_rewound (h : input.Rewound) :
    input.next.1 = input.left.head? ∧ input.next.2.left = input.left.tail ∧ input.next.2.Rewound ∧
      input.next.2.size = input.size := by
  obtain ⟨iter, buffer, size, rewind⟩ := input
  cases rewind with
  | false =>
    cases h.resolve_left Bool.false_ne_true
    cases iter with
    | nil => exact ⟨rfl, rfl, Or.inr rfl, rfl⟩
    | cons item iter => exact ⟨rfl, rfl, Or.inr rfl, rfl⟩
  | true =>
    cases buffer with
    | nil =>
      cases iter with
      | nil => exact ⟨rfl, rfl, Or.inr rfl, rfl⟩
      | cons item iter => exact ⟨rfl, rfl, Or.inr rfl, rfl⟩
    | cons item buffer => exact ⟨rfl, rfl, Or.inl rfl, rfl⟩

/-- A line is put back. -/
theorem assertAdd_of_rewound (h : input.Rewound) (hsize : 0 < input.size) (ln : Nat) (line : Text) :
    ∃ input', input.assertAdd ln line = .ok input' ∧ input'.left = (ln, line) :: input.left := by
  obtain ⟨iter, buffer, size, rewind⟩ := input
  cases rewind with
  | true => exact ⟨_, rfl, rfl⟩
  | false =>
    cases h.resolve_left Bool.false_ne_true
    refine ⟨⟨iter, [(ln, line)], size, false⟩, ?_, rfl⟩
    have hlt : ¬ 0 ≥ size := Nat.not_le.2 hsize
    simp [assertAdd, addLineToBuffer, hlt]
    rfl

end InputSplitter

/-! ## What an application does -/

/-- Lines that were left have been written, and none of them is lost if the application is fair. -/
structure Moves (opts : CsplitOptions) (fair : Prop) (t : Text) (input : InputSplitter) (P : Text → Prop)
    (input' : InputSplitter) : Prop where
  mem : ∀ x ∈ input'.left, x ∈ input.left
  written : ∃ lines : List Text, P (t ++ lines.flatten) ∧
    (opts.suppressMatched = false → fair → lines ++ input'.rest = input.rest)

variable {fair : Prop} {t : Text} {input input₁ input' : InputSplitter} {P : Text → Prop}

/-- Nothing is written, and the lines stay. -/
theorem Moves.of_left_eq (hP : P t) (h : input'.left = input.left) : Moves opts fair t input P input' := by
  refine ⟨fun x hx => h ▸ hx, [], by simpa using hP, fun _ _ => ?_⟩
  rw [List.nil_append, InputSplitter.rest_eq, InputSplitter.rest_eq, h]

/-- Some lines first. -/
theorem Moves.prepend {lines : List Numbered} (hleft : input.left = lines ++ input₁.left)
    (h : Moves opts fair (t ++ (lines.map Prod.snd).flatten) input₁ P input') : Moves opts fair t input P input' := by
  obtain ⟨hmem, written, hP, hlines⟩ := h
  refine ⟨fun x hx => hleft ▸ List.mem_append_right _ (hmem x hx), lines.map Prod.snd ++ written, ?_, fun hsup hfair => ?_⟩
  · rwa [List.flatten_append, ← List.append_assoc]
  · rw [List.append_assoc, hlines hsup hfair, InputSplitter.rest_eq, InputSplitter.rest_eq, hleft, List.map_append]

/-- Some lines are lost, which is right only if they are suppressed. -/
theorem Moves.suppress {lines : List Numbered} (hsup : opts.suppressMatched = true)
    (hleft : input.left = lines ++ input₁.left) (h : Moves opts fair t input₁ P input') :
    Moves opts fair t input P input' := by
  obtain ⟨hmem, written, hP, -⟩ := h
  refine ⟨fun x hx => hleft ▸ List.mem_append_right _ (hmem x hx), written, hP, fun hnot _ => ?_⟩
  rw [hsup] at hnot
  cases hnot

theorem Moves.fair_imp {fair' : Prop} (h : Moves opts fair t input P input') (hfair : fair' → fair) :
    Moves opts fair' t input P input' := by
  obtain ⟨hmem, written, hP, hlines⟩ := h
  exact ⟨hmem, written, hP, fun hsup hfair' => hlines hsup (hfair hfair')⟩

/-! ## To a line -/

section ToLine

variable {pattern : Text} {n : Nat}

theorem settles_toLine {w : SplitWriter} {lines : List Numbered} (hopen : w.Open t) (hlines : input.left = lines)
    (hrewound : input.Rewound) (hsize : 0 < input.size) :
    ∃ e w' input', Settles (loop (toLineTurn opts pattern n) · (w, input)) (e, w', input') ∧
      Moves opts True t input w'.Open input' ∧ (e = none → ∃ x ∈ lines, n ≤ x.1 + 1) := by
  obtain ⟨hnext, hleft, hrewound', hsize'⟩ := InputSplitter.next_of_rewound hrewound
  rw [hlines] at hnext hleft
  induction lines generalizing t w input with
  | nil =>
    have hturn : input.next = (none, input.next.2) := Prod.ext hnext rfl
    refine ⟨some (.lineOutOfRange pattern), w, input.next.2, settles_loop_done ?_, ?_, nofun⟩
    · rw [toLineTurn, hturn]
    · exact Moves.of_left_eq hopen (hleft.trans hlines.symm)
  | cons x lines ih =>
    obtain ⟨ln, line⟩ := x
    have hturn : input.next = (some (ln, line), input.next.2) := Prod.ext hnext rfl
    rw [List.tail_cons] at hleft
    obtain ⟨input₁, hadd, hadded⟩ := InputSplitter.assertAdd_of_rewound hrewound' (hsize' ▸ hsize) ln line
    rw [hleft, ← hlines] at hadded
    rcases Nat.lt_trichotomy n (ln + 1) with hlt | heq | hgt
    · refine ⟨none, w, input₁, settles_loop_done ?_, Moves.of_left_eq hopen hadded, fun _ =>
        ⟨_, List.mem_cons_self, Nat.le_of_lt hlt⟩⟩
      rw [toLineTurn, hturn]
      simp only [hlt, if_true, hadd]
      rfl
    · cases hsup : opts.suppressMatched with
      | true =>
        refine ⟨none, w, input.next.2, settles_loop_done ?_, ?_, fun _ => ⟨_, List.mem_cons_self, Nat.le_of_eq heq⟩⟩
        · rw [toLineTurn, hturn]
          simp only [heq, Nat.lt_irrefl, if_false, if_true, hsup]
          rfl
        · have hsuppressed : input.left = [(ln, line)] ++ input.next.2.left := by rw [hlines, hleft]; rfl
          exact Moves.suppress hsup hsuppressed (Moves.of_left_eq hopen rfl)
      | false =>
        refine ⟨none, w, input₁, settles_loop_done ?_, Moves.of_left_eq hopen hadded, fun _ =>
          ⟨_, List.mem_cons_self, Nat.le_of_eq heq⟩⟩
        rw [toLineTurn, hturn]
        simp only [heq, Nat.lt_irrefl, if_false, if_true, hsup, Bool.false_eq_true, hadd]
        rfl
    · obtain ⟨w₁, hw₁, hopen₁⟩ := SplitWriter.open_writeln hopen line
      obtain ⟨hnext₁, hleft₁, hrewound₁, hsize₁⟩ := InputSplitter.next_of_rewound hrewound'
      obtain ⟨e, w', input', hsettles, hmoves, hend⟩ := ih hopen₁ hleft hrewound' (hsize' ▸ hsize)
        (by rw [hnext₁, hleft]) (by rw [hleft₁, hleft]) hrewound₁ hsize₁
      refine ⟨e, w', input', settles_loop_next ?_ hsettles, ?_, fun he => ?_⟩
      · rw [toLineTurn, hturn]
        simp only [Nat.not_lt_of_gt hgt, Nat.ne_of_gt hgt, if_false, hw₁]
        rfl
      · have hmoved : input.left = [(ln, line)] ++ input.next.2.left := by rw [hlines, hleft]; rfl
        exact Moves.prepend hmoved (by simpa using hmoves)
      · obtain ⟨x, hx, hle⟩ := hend he
        exact ⟨x, List.mem_cons_of_mem _ hx, hle⟩

/-- Up to a line: there is no such line, or one with this number or beyond. -/
theorem settles_doToLine {w : SplitWriter} (hopen : w.Open t) (n : Nat) (input : InputSplitter) :
    ∃ e w' input', Settles (fun fuel => doToLine opts fuel pattern n w input) (e, w', input') ∧
      Moves opts True t input w'.Ready input' ∧ (e = none → ∃ x ∈ input.left, n ≤ x.1 + 1) := by
  obtain ⟨e, w₁, input', hsettles, hmoves, hend⟩ := @settles_toLine opts t (input.rewindBuffer.setSizeOfBuffer 1)
    pattern n w input.left hopen rfl (Or.inl rfl) Nat.one_pos
  obtain ⟨hmem, written, hopen₁, hlines⟩ := hmoves
  obtain ⟨w', hw', hready⟩ := SplitWriter.ready_finishSplit hopen₁ opts
  refine ⟨e, w', input', hsettles.bind (settles_pure ?_), ⟨hmem, written, hready, hlines⟩, hend⟩
  simp only [hw']
  rfl

end ToLine

/-! ## To a match -/

/-- At a match the input goes on, and is not rewound. -/
def Goes (input input' : InputSplitter) (e : Option CsplitError) : Prop :=
  e = none → input'.rewind = false ∧ input'.iter.length < input.iter.length

section ToMatch

variable {pattern : Text} {isMatch : Text → Bool} {offset : Nat} {w : SplitWriter}

theorem InputSplitter.left_of_buffer (h : input.buffer = []) : input.left = input.iter := by
  rw [InputSplitter.left, h]
  rfl

/-- The next line, where none is in the buffer. -/
theorem InputSplitter.next_of_cons {x : Numbered} {iter : List Numbered} (h : input.Forward) (hiter : input.iter = x :: iter) :
    input.next = (some x, { input with rewind := false, iter := iter }) := by
  rw [InputSplitter.next_of_forward h, hiter]
  rfl

theorem InputSplitter.next_of_nil (h : input.Forward) (hiter : input.iter = []) :
    input.next = (none, { input with rewind := false }) := by
  rw [InputSplitter.next_of_forward h, hiter]
  cases input
  cases hiter
  rfl

theorem extraLines_eq (count : Nat) (hopen : w.Open t) (hbuffer : input.buffer = []) (hrewind : input.rewind = false) :
    ∃ enough w' input', extraLines count w input = .ok (enough, w', input') ∧ Moves opts True t input w'.Open input' ∧
      input'.buffer = [] ∧ input'.rewind = false ∧ input'.iter.length ≤ input.iter.length := by
  induction count generalizing t w input with
  | zero => exact ⟨true, w, input, rfl, Moves.of_left_eq hopen rfl, hbuffer, hrewind, Nat.le_refl _⟩
  | succ count ih =>
    have hforward : input.Forward := fun _ => hbuffer
    cases hiter : input.iter with
    | nil =>
      refine ⟨false, w, { input with rewind := false }, ?_, Moves.of_left_eq hopen rfl, hbuffer, rfl, by simp [hiter]⟩
      rw [extraLines, InputSplitter.next_of_nil hforward hiter]
    | cons x iter =>
      obtain ⟨ln, line⟩ := x
      obtain ⟨w₁, hw₁, hopen₁⟩ := SplitWriter.open_writeln hopen line
      obtain ⟨enough, w', input', hrun, hmoves, hbuffer', hrewind', hle⟩ :=
        @ih _ { input with rewind := false, iter := iter } w₁ hopen₁ hbuffer rfl
      refine ⟨enough, w', input', ?_, ?_, hbuffer', hrewind', Nat.le_succ_of_le hle⟩
      · rw [extraLines, InputSplitter.next_of_cons hforward hiter]
        simp only [hw₁]
        exact hrun
      · have hmoved : input.left = [(ln, line)] ++ InputSplitter.left { input with rewind := false, iter := iter } := by
          rw [InputSplitter.left_of_buffer hbuffer, hiter, InputSplitter.left, hbuffer]
          rfl
        exact Moves.prepend hmoved (by simpa using hmoves)

/-- The matched line has just been taken. -/
theorem keepMatched_eq (hopen : w.Open t) (hbuffer : input₁.buffer = []) (hrewind : input₁.rewind = false)
    (hsize : 0 < input₁.size) {ln : Nat} {line : Text} (hleft : input.left = (ln, line) :: input₁.left) :
    ∃ w' input', keepMatched opts offset ln line w input₁ = .ok (w', input') ∧
      Moves opts True t input w'.Open input' ∧ input'.rewind = false ∧ input'.iter = input₁.iter ∧
      (0 < offset → input'.buffer = []) := by
  have hmoved : input.left = [(ln, line)] ++ input₁.left := hleft
  cases offset with
  | zero =>
    cases hsup : opts.suppressMatched with
    | true =>
      refine ⟨w, input₁, by rw [keepMatched, if_pos rfl, hsup]; rfl, ?_, hrewind, rfl, fun _ => hbuffer⟩
      exact Moves.suppress hsup hmoved (Moves.of_left_eq hopen rfl)
    | false =>
      have hadd : input₁.assertAdd ln line = .ok { input₁ with buffer := [(ln, line)] } := by
        obtain ⟨iter, buffer, size, rewind⟩ := input₁
        cases hbuffer
        cases hrewind
        have hlt : ¬ 0 ≥ size := Nat.not_le.2 hsize
        simp [InputSplitter.assertAdd, InputSplitter.addLineToBuffer, hlt]
        rfl
      refine ⟨w, { input₁ with buffer := [(ln, line)] }, ?_, Moves.of_left_eq hopen ?_, hrewind, rfl, nofun⟩
      · rw [keepMatched, if_pos rfl, hsup, if_neg Bool.false_ne_true, hadd]
        rfl
      · rw [hleft, InputSplitter.left_of_buffer hbuffer]
        rfl
  | succ offset =>
    obtain ⟨w₁, hw₁, hopen₁⟩ := SplitWriter.open_writeln hopen line
    refine ⟨w₁, input₁, ?_, ?_, hrewind, rfl, fun _ => hbuffer⟩
    · rw [keepMatched, if_neg (Nat.succ_ne_zero offset), hw₁]
      rfl
    · have hopen' : w₁.Open (t ++ ([(ln, line)].map Prod.snd).flatten) := by simpa using hopen₁
      exact Moves.prepend hmoved (Moves.of_left_eq hopen' rfl)

/-- One move behind the other. -/
theorem Moves.trans {Q : Text → Prop} (h : Moves opts fair t input P input₁)
    (h' : ∀ t₁, P t₁ → Moves opts fair t₁ input₁ Q input') : Moves opts fair t input Q input' := by
  obtain ⟨hmem, written, hP, hlines⟩ := h
  obtain ⟨hmem', written', hQ, hlines'⟩ := h' _ hP
  refine ⟨fun x hx => hmem x (hmem' x hx), written ++ written', ?_, fun hsup hfair => ?_⟩
  · rwa [List.flatten_append, ← List.append_assoc]
  · rw [List.append_assoc, hlines' hsup hfair, hlines hsup hfair]

theorem matched_of {w₁ w₂ w₃ : SplitWriter} {input₂ input₃ : InputSplitter} {ln : Nat} {line : Text} {enough : Bool}
    (hkeep : keepMatched opts offset ln line w input₁ = .ok (w₁, input₂))
    (hextra : extraLines (offset - 1) w₁ input₂ = .ok (enough, w₂, input₃)) (hfinish : w₂.finishSplit opts = .ok w₃) :
    matched opts pattern offset ln line w input₁ = .ok
      (if enough then (none, w₃, if opts.suppressMatched && 0 < offset then input₃.next.2 else input₃)
        else (some (.lineOutOfRange pattern), w₃, input₃)) := by
  simp only [matched, hkeep, hextra, hfinish, bind, Except.bind, pure, Except.pure]
  cases enough <;> rfl

/-- The line behind a match is suppressed, where the offset is positive. -/
theorem suppressNext (hbuffer : 0 < offset → input₁.buffer = []) (hrewind : input₁.rewind = false)
    (hP : P t) :
    Moves opts True t input₁ P (if opts.suppressMatched && 0 < offset then input₁.next.2 else input₁) ∧
      (if opts.suppressMatched && 0 < offset then input₁.next.2 else input₁).rewind = false ∧
      (if opts.suppressMatched && 0 < offset then input₁.next.2 else input₁).iter.length ≤ input₁.iter.length := by
  split
  · rename_i hsup
    simp only [Bool.and_eq_true, decide_eq_true_eq] at hsup
    have hforward : input₁.Forward := fun _ => hbuffer hsup.2
    rw [InputSplitter.next_of_forward hforward]
    refine ⟨?_, rfl, by simp⟩
    cases hiter : input₁.iter with
    | nil =>
      refine Moves.of_left_eq hP ?_
      rw [InputSplitter.left, InputSplitter.left, hiter]
      rfl
    | cons x iter =>
      have hlost : input₁.left = [x] ++ InputSplitter.left { input₁ with rewind := false, iter := iter } := by
        rw [InputSplitter.left, InputSplitter.left, hbuffer hsup.2, hiter]
        rfl
      exact Moves.suppress hsup.1 hlost (Moves.of_left_eq hP rfl)
  · exact ⟨Moves.of_left_eq hP rfl, hrewind, Nat.le_refl _⟩

theorem matched_eq (hopen : w.Open t) (hbuffer : input₁.buffer = []) (hrewind : input₁.rewind = false)
    (hsize : 0 < input₁.size) {ln : Nat} {line : Text} (hleft : input.left = (ln, line) :: input₁.left) :
    ∃ e w' input', matched opts pattern offset ln line w input₁ = .ok (e, w', input') ∧
      Moves opts True t input w'.Ready input' ∧ (e = none → input'.rewind = false) ∧
      input'.iter.length ≤ input₁.iter.length := by
  obtain ⟨w₁, input₂, hkeep, hmoves₁, hrewind₂, hiter₂, hbuffer₂⟩ :=
    @keepMatched_eq opts t input input₁ offset w hopen hbuffer hrewind hsize ln line hleft
  -- only an offset beyond the matched line reads on, and then nothing is in the buffer
  obtain ⟨enough, w₂, input₃, hextra, hmoves₂, hbuffer₃, hrewind₃, hle₃⟩ : ∃ enough w₂ input₃,
      extraLines (offset - 1) w₁ input₂ = .ok (enough, w₂, input₃) ∧ Moves opts True t input w₂.Open input₃ ∧
        (0 < offset → input₃.buffer = []) ∧ input₃.rewind = false ∧ input₃.iter.length ≤ input₁.iter.length := by
    cases offset with
    | zero => exact ⟨true, w₁, input₂, rfl, hmoves₁, nofun, hrewind₂, Nat.le_of_eq (by rw [hiter₂])⟩
    | succ offset =>
      obtain ⟨hmem, written, hopen₁, hlines⟩ := hmoves₁
      obtain ⟨enough, w₂, input₃, hextra, hmoves₂, hbuffer₃, hrewind₃, hle₃⟩ :=
        @extraLines_eq opts _ input₂ w₁ (offset + 1 - 1) hopen₁ (hbuffer₂ (Nat.succ_pos _)) hrewind₂
      refine ⟨enough, w₂, input₃, hextra, ?_, fun _ => hbuffer₃, hrewind₃, hiter₂ ▸ hle₃⟩
      refine Moves.trans (P := fun t₁ => t₁ = t ++ written.flatten) ⟨hmem, written, rfl, hlines⟩ ?_
      rintro _ rfl
      exact hmoves₂
  obtain ⟨hmem, written, hopen₂, hlines⟩ := hmoves₂
  obtain ⟨w₃, hw₃, hready⟩ := SplitWriter.ready_finishSplit hopen₂ opts
  have hrun := @matched_of opts input₁ pattern offset w _ _ _ _ _ _ _ _ hkeep hextra hw₃
  have hmoves₃ : Moves opts True t input w₃.Ready input₃ := ⟨hmem, written, hready, hlines⟩
  cases enough with
  | false => exact ⟨_, _, _, hrun, hmoves₃, nofun, hle₃⟩
  | true =>
    obtain ⟨hmoves, hrewind', hle⟩ := @suppressNext opts _ input₃ _ offset hbuffer₃ hrewind₃ hready
    refine ⟨_, _, _, hrun, ?_, fun _ => hrewind', Nat.le_trans hle hle₃⟩
    refine Moves.trans (P := fun t₁ => t₁ = t ++ written.flatten) ⟨hmem, written, rfl, hlines⟩ ?_
    rintro _ rfl
    exact hmoves

theorem settles_toMatch {iter : List Numbered} (hopen : w.Open t) (hiter : input.iter = iter) (hbuffer : input.buffer = [])
    (hsize : 0 < input.size) :
    ∃ e w' input', Settles (loop (toMatchTurn opts pattern isMatch offset) · (w, input)) (e, w', input') ∧
      Moves opts True t input w'.Ready input' ∧ Goes input input' e := by
  induction iter generalizing t w input with
  | nil =>
    obtain ⟨w', hw', hready⟩ := SplitWriter.ready_finishSplit hopen opts
    refine ⟨some (.matchNotFound pattern), w', { input with rewind := false }, settles_loop_done ?_, ?_, nofun⟩
    · rw [toMatchTurn, InputSplitter.next_of_nil (fun _ => hbuffer) hiter]
      simp only [hw']
      rfl
    · exact Moves.of_left_eq hready rfl
  | cons x iter ih =>
    obtain ⟨ln, line⟩ := x
    have hnext := InputSplitter.next_of_cons (fun _ => hbuffer) hiter
    have hleft : input.left = (ln, line) :: InputSplitter.left { input with rewind := false, iter := iter } := by
      rw [InputSplitter.left, InputSplitter.left, hbuffer, hiter]
      rfl
    cases hmatch : isMatch (stripped line) with
    | true =>
      obtain ⟨e, w', input', hrun, hmoves, hrewind', hle⟩ :=
        @matched_eq opts t input { input with rewind := false, iter := iter } pattern offset w hopen hbuffer rfl hsize
          ln line hleft
      refine ⟨e, w', input', settles_loop_done ?_, hmoves, fun he => ⟨hrewind' he, ?_⟩⟩
      · rw [toMatchTurn, hnext]
        simp only [hmatch, if_true, hrun]
        rfl
      · rw [hiter]
        exact Nat.lt_succ_of_le hle
    | false =>
      obtain ⟨w₁, hw₁, hopen₁⟩ := SplitWriter.open_writeln hopen line
      obtain ⟨e, w', input', hsettles, hmoves, hgoes⟩ :=
        @ih _ { input with rewind := false, iter := iter } w₁ hopen₁ rfl hbuffer hsize
      refine ⟨e, w', input', settles_loop_next ?_ hsettles, ?_, fun he => ⟨(hgoes he).1, ?_⟩⟩
      · rw [toMatchTurn, hnext]
        simp only [hmatch, Bool.false_eq_true, if_false, hw₁]
        rfl
      · have hmoved : input.left = [(ln, line)] ++ InputSplitter.left { input with rewind := false, iter := iter } := hleft
        exact Moves.prepend hmoved (by simpa using hmoves)
      · rw [hiter]
        exact Nat.lt_succ_of_lt (hgoes he).2

/-- To a match, with an offset that is not negative. -/
theorem settles_doToMatch_of_nonneg (hopen : w.Open t) {offset : Int} (hoffset : 0 ≤ offset) (input : InputSplitter) :
    ∃ e w' input', Settles (fun fuel => doToMatch opts fuel pattern isMatch offset w input) (e, w', input') ∧
      Moves opts True t input w'.Ready input' ∧ Goes input input' e := by
  obtain ⟨w₁, hw₁, hopen₁⟩ := SplitWriter.open_writeLines hopen input.drainBuffer.1
  obtain ⟨e, w', input', hsettles, hmoves, hgoes⟩ := @settles_toMatch opts _ (input.drainBuffer.2.setSizeOfBuffer 1)
    pattern isMatch offset.toNat w₁ _ hopen₁ rfl rfl Nat.one_pos
  refine ⟨e, w', input', ?_, ?_, hgoes⟩
  · simp only [doToMatch, hoffset, if_true, hw₁]
    exact hsettles
  · have hmoved : input.left = input.buffer ++ (input.drainBuffer.2.setSizeOfBuffer 1).left := rfl
    exact Moves.prepend hmoved hmoves

end ToMatch

end Peiosutils.Csplit

/-!
# Looking back from a match

A pattern with a negative offset keeps as many lines in the buffer as the offset says. Where the input goes forward, it
loses no line (`settles_beforeMatch`). Where it is rewound to a buffer that is not empty, the pattern comes to the first line
of the buffer again and again if that does not match (`hangs_beforeMatch`); if it does, only the buffer may change
(`settles_beforeMatch_of_rewound`).
-/

namespace Peiosutils.Csplit

open While (Stop Settles Hangs loop settles_loop_done settles_loop_next settles_pure)

variable {opts : CsplitOptions} {t : Text} {input input₁ : InputSplitter} {pattern : Text} {isMatch : Text → Bool}
  {offset : Nat} {w : SplitWriter}

/-- What is too much for the buffer. -/
def InputSplitter.excess (input : InputSplitter) : Nat := input.buffer.length - input.size

theorem shrinkBufferToSize_eq (input : InputSplitter) : input.shrinkBufferToSize =
    ((input.buffer.take input.excess).map Prod.snd, { input with buffer := input.buffer.drop input.excess }) := by
  have hif : (if input.buffer.length > input.size then input.buffer.length - input.size else 0) = input.excess := by
    rw [InputSplitter.excess]
    split <;> omega
  rw [InputSplitter.shrinkBufferToSize, hif]

/-- A match with the buffer shrunk, the line added, and the section finished. -/
theorem matchedBefore_of {ln : Nat} {line : Text} {w₁ w₂ : SplitWriter} {input₂ : InputSplitter}
    (hwrite : w.writeLines ((input.buffer.take input.excess).map Prod.snd) = .ok w₁)
    (hadd : holdMatched opts offset ln line { input with buffer := input.buffer.drop input.excess } = .ok input₂)
    (hfinish : w₁.finishSplit opts = .ok w₂) :
    matchedBefore opts pattern offset ln line w input =
      .ok (if input₂.buffer.length < offset then some (.lineOutOfRange pattern) else none, w₂, input₂) := by
  rw [matchedBefore, shrinkBufferToSize_eq]
  simp only [hwrite, hadd, hfinish, bind, Except.bind, pure, Except.pure]

/-! ## Forward -/

/-- A line is added at the end, and the first one may go. -/
theorem addLineToBuffer_eq (hrewind : input.rewind = false) (hsize : 0 < input.size) (ln : Nat) (line : Text) :
    ∃ out buffer, input.addLineToBuffer ln line = .ok (out.map Prod.snd, { input with buffer := buffer }) ∧
      input.buffer ++ [(ln, line)] = Option.toList out ++ buffer ∧ (input.buffer.length < input.size → out = none) := by
  obtain ⟨iter, buffer, size, rewind⟩ := input
  cases hrewind
  by_cases hfull : buffer.length ≥ size
  · cases buffer with
    | nil =>
      simp only [List.length_nil] at hfull hsize
      omega
    | cons head buffer =>
      refine ⟨some head, buffer ++ [(ln, line)], ?_, rfl, fun hlt => ?_⟩
      · simp only [InputSplitter.addLineToBuffer, hfull, if_true, Bool.false_eq_true, if_false, Option.map_some]
      · exact absurd hfull (Nat.not_le.2 hlt)
  · refine ⟨none, buffer ++ [(ln, line)], ?_, rfl, fun _ => rfl⟩
    simp only [InputSplitter.addLineToBuffer, hfull, if_false, Bool.false_eq_true, Option.map_none]

theorem matchedBefore_eq (hopen : w.Open t) (hrewind : input₁.rewind = false) (hsize : input₁.size = offset)
    (hoffset : 0 < offset) {ln : Nat} {line : Text} (hleft : input.left = input₁.buffer ++ (ln, line) :: input₁.iter) :
    ∃ e w' input', matchedBefore opts pattern offset ln line w input₁ = .ok (e, w', input') ∧
      Moves opts True t input w'.Ready input' ∧ input'.rewind = false ∧ input'.iter = input₁.iter := by
  obtain ⟨w₁, hw₁, hopen₁⟩ := SplitWriter.open_writeLines hopen ((input₁.buffer.take input₁.excess).map Prod.snd)
  obtain ⟨w₂, hw₂, hready⟩ := SplitWriter.ready_finishSplit hopen₁ opts
  have hlen : (input₁.buffer.drop input₁.excess).length ≤ offset := by
    rw [List.length_drop, InputSplitter.excess, hsize]
    omega
  have hbuffer : input.left = input₁.buffer.take input₁.excess ++
      InputSplitter.left ⟨input₁.iter, input₁.buffer.drop input₁.excess ++ [(ln, line)], offset + 1, false⟩ := by
    rw [hleft, InputSplitter.left, ← List.append_assoc, ← List.append_assoc, List.take_append_drop, List.append_assoc]
    rfl
  cases hsup : opts.suppressMatched with
  | true =>
    obtain ⟨out, buffer, hadd, hsplit, -⟩ := @addLineToBuffer_eq
      { input₁ with buffer := input₁.buffer.drop input₁.excess } hrewind (by simpa [hsize] using hoffset) ln line
    have hrun := @matchedBefore_of opts input₁ pattern offset w ln line w₁ w₂ { input₁ with buffer := buffer } hw₁
      (by rw [holdMatched, hsup, if_pos rfl, hadd]; rfl) hw₂
    refine ⟨_, _, _, hrun, ?_, hrewind, rfl⟩
    refine Moves.prepend hbuffer ?_
    have hlost : InputSplitter.left ⟨input₁.iter, input₁.buffer.drop input₁.excess ++ [(ln, line)], offset + 1, false⟩ =
        out.toList ++ InputSplitter.left { input₁ with buffer := buffer } := by
      rw [InputSplitter.left, hsplit, List.append_assoc]
      rfl
    exact Moves.suppress hsup hlost (Moves.of_left_eq hready rfl)
  | false =>
    obtain ⟨out, buffer, hadd, hsplit, hnone⟩ := @addLineToBuffer_eq
      ⟨input₁.iter, input₁.buffer.drop input₁.excess, offset + 1, input₁.rewind⟩ hrewind (Nat.succ_pos _) ln line
    have hout := hnone (Nat.lt_succ_of_le hlen)
    subst hout
    have hassert : (InputSplitter.setSizeOfBuffer { input₁ with buffer := input₁.buffer.drop input₁.excess }
        (offset + 1)).assertAdd ln line = .ok ⟨input₁.iter, buffer, offset + 1, input₁.rewind⟩ := by
      rw [InputSplitter.assertAdd]
      simp only [InputSplitter.setSizeOfBuffer, hadd, bind, Except.bind, Option.map_none, Option.isNone_none, if_true]
      rfl
    have hrun := @matchedBefore_of opts input₁ pattern offset w ln line w₁ w₂ _ hw₁
      (by rw [holdMatched, hsup, if_neg Bool.false_ne_true, hassert]) hw₂
    refine ⟨_, _, _, hrun, Moves.prepend hbuffer ?_, hrewind, rfl⟩
    refine Moves.of_left_eq hready ?_
    rw [InputSplitter.left, InputSplitter.left, show input₁.buffer.drop input₁.excess ++ [(ln, line)] = buffer from hsplit]

/-- To a match, with lines held back. -/
theorem settles_beforeMatch {iter : List Numbered} (hopen : w.Open t) (hiter : input.iter = iter) (hforward : input.Forward)
    (hsize : input.size = offset) (hoffset : 0 < offset) :
    ∃ e w' input', Settles (loop (beforeMatchTurn opts pattern isMatch offset) · (w, input)) (e, w', input') ∧
      Moves opts True t input w'.Ready input' ∧ Goes input input' e := by
  induction iter generalizing t w input with
  | nil =>
    obtain ⟨w₁, hw₁, hopen₁⟩ := SplitWriter.open_writeLines hopen (input.buffer.map Prod.snd)
    obtain ⟨w', hw', hready⟩ := SplitWriter.ready_finishSplit hopen₁ opts
    refine ⟨some (.matchNotFound pattern), w', ⟨input.iter, [], input.size, false⟩, settles_loop_done ?_, ?_, nofun⟩
    · rw [beforeMatchTurn, InputSplitter.next_of_nil hforward hiter]
      simp only [InputSplitter.drainBuffer, hw₁, hw', bind, Except.bind]
      rfl
    · have hmoved : input.left = input.buffer ++ InputSplitter.left ⟨input.iter, [], input.size, false⟩ := rfl
      exact Moves.prepend hmoved (Moves.of_left_eq hready rfl)
  | cons x iter ih =>
    obtain ⟨ln, line⟩ := x
    have hnext := InputSplitter.next_of_cons hforward hiter
    have hleft : input.left = input.buffer ++ (ln, line) :: iter := by rw [InputSplitter.left, hiter]
    cases hmatch : isMatch (stripped line) with
    | true =>
      obtain ⟨e, w', input', hrun, hmoves, hrewind', hiter'⟩ :=
        @matchedBefore_eq opts t input { input with rewind := false, iter := iter } pattern offset w hopen rfl hsize hoffset
          ln line hleft
      refine ⟨e, w', input', settles_loop_done ?_, hmoves, fun _ => ⟨hrewind', ?_⟩⟩
      · rw [beforeMatchTurn, hnext]
        simp only [hmatch, if_true, hrun]
        rfl
      · rw [hiter', hiter]
        exact Nat.lt_succ_self _
    | false =>
      obtain ⟨out, buffer, hadd, hsplit, -⟩ := @addLineToBuffer_eq { input with rewind := false, iter := iter } rfl
        (hsize ▸ hoffset) ln line
      obtain ⟨w₁, hw₁, hopen₁⟩ := SplitWriter.open_writeLines hopen (out.map Prod.snd).toList
      obtain ⟨e, w', input', hsettles, hmoves, hgoes⟩ :=
        @ih _ ⟨iter, buffer, input.size, false⟩ w₁ hopen₁ rfl (fun h => by cases h) hsize
      refine ⟨e, w', input', settles_loop_next ?_ hsettles, ?_, fun he => ⟨(hgoes he).1, ?_⟩⟩
      · rw [beforeMatchTurn, hnext]
        simp only [hmatch, Bool.false_eq_true, if_false, hadd, bind, Except.bind, hw₁]
        rfl
      · have hmoved : input.left = out.toList ++ InputSplitter.left ⟨iter, buffer, input.size, false⟩ := by
          rw [hleft, InputSplitter.left, ← List.append_assoc, ← hsplit, List.append_assoc]
          rfl
        refine Moves.prepend hmoved ?_
        rwa [show out.toList.map Prod.snd = (out.map Prod.snd).toList by cases out <;> rfl]
      · rw [hiter]
        exact Nat.lt_succ_of_lt (hgoes he).2

/-! ## Rewound to a buffer -/

/-- The first line of the buffer does not match: it is put back, and comes next. -/
theorem hangs_beforeMatch {x : Numbered} {rest : List Numbered} (hrewind : input.rewind = true)
    (hbuffer : input.buffer = x :: rest) (hmatch : isMatch (stripped x.2) = false) :
    Hangs (loop (beforeMatchTurn opts pattern isMatch offset) · (w, input)) := by
  obtain ⟨iter, buffer, size, rewind⟩ := input
  cases hrewind
  cases hbuffer
  refine While.loop_never (· = (w, ⟨iter, x :: rest, size, true⟩)) ?_ rfl
  rintro _ rfl
  refine ⟨_, ?_, rfl⟩
  simp only [beforeMatchTurn, InputSplitter.next, if_true, hmatch, Bool.false_eq_true, if_false,
    InputSplitter.addLineToBuffer, bind, Except.bind]
  rfl

/-- The first line of the buffer matches: it stays, and what is too much behind it is written. -/
theorem settles_beforeMatch_of_rewound {x : Numbered} {rest : List Numbered} (hopen : w.Open t)
    (hrewind : input.rewind = true) (hbuffer : input.buffer = x :: rest) (hsize : input.size = offset)
    (hmatch : isMatch (stripped x.2) = true) :
    ∃ w' size, Settles (loop (beforeMatchTurn opts pattern isMatch offset) · (w, input))
        (if rest.length + 1 < offset then some (.lineOutOfRange pattern) else none, w',
          ⟨input.iter, x :: rest.drop (rest.length - offset), size, true⟩) ∧
      w'.Ready (t ++ ((rest.take (rest.length - offset)).map Prod.snd).flatten) := by
  obtain ⟨iter, buffer, size, rewind⟩ := input
  cases hrewind
  cases hbuffer
  cases hsize
  obtain ⟨w₁, hw₁, hopen₁⟩ := SplitWriter.open_writeLines hopen ((rest.take (rest.length - size)).map Prod.snd)
  obtain ⟨w₂, hw₂, hready⟩ := SplitWriter.ready_finishSplit hopen₁ opts
  obtain ⟨size', hadd⟩ : ∃ size', holdMatched opts size x.1 x.2 ⟨iter, rest.drop (rest.length - size), size, true⟩ =
      .ok ⟨iter, x :: rest.drop (rest.length - size), size', true⟩ := by
    rw [holdMatched]
    cases opts.suppressMatched with
    | true => exact ⟨size, rfl⟩
    | false => exact ⟨size + 1, rfl⟩
  have hrun := @matchedBefore_of opts ⟨iter, rest, size, true⟩ pattern size w x.1 x.2 w₁ w₂ _ hw₁ hadd hw₂
  have hlen : (x :: rest.drop (rest.length - size)).length < size ↔ rest.length + 1 < size := by
    rw [List.length_cons, List.length_drop]
    omega
  simp only [hlen] at hrun
  refine ⟨w₂, size', settles_loop_done ?_, hready⟩
  simp only [beforeMatchTurn, InputSplitter.next, if_true, hmatch, hrun]
  rfl

end Peiosutils.Csplit
