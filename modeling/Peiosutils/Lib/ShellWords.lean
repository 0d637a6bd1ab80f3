import Peiosutils.Lib.Octal

/-!
# Shell words

`readWords` takes a command line apart into words: blanks between them, single quotes, double quotes, a backslash in
front of one byte, and dollar quotes with letters and octal escapes. Where a shell would do more than that (an operator,
a pattern, an expansion, a comment), or a quote is not closed, there is no result. `Takes` composes what the reader
takes in, piece by piece.
-/

set_option autoImplicit false

namespace ShellWords

open CEscape (letterByte octalEscape)
open Octal (isOctal digits)

/-- Where the reader is. -/
inductive Mode where
  | between
  | bare
  | bareSlash
  /-- Behind a dollar sign that is not quoted. -/
  | bareDollar
  | single
  | double
  | doubleSlash
  | doubleDollar
  | dollar
  | dollarSlash
  /-- Behind one or two octal digits. -/
  | dollarOctal (value count : Nat)
  deriving DecidableEq, Repr

/-- The word so far, and the words before it. -/
structure Reader where
  mode : Mode
  word : List UInt8
  words : List (List UInt8)
  deriving DecidableEq, Repr

def start : Reader := ⟨.between, [], []⟩

namespace Reader

def enter (r : Reader) (mode : Mode) : Reader := { r with mode := mode }

/-- One more byte of the word. -/
def push (r : Reader) (b : UInt8) : Reader := { r with word := r.word ++ [b] }

end Reader

open Reader

/-- Space and tab. -/
def isBlank (b : UInt8) : Bool := b = 32 || b = 9

/-- Operators, patterns, history, backquote and newline. -/
def isSpecial (b : UInt8) : Bool := b ∈ ([38, 42, 40, 41, 124, 91, 59, 60, 62, 63, 33, 96, 10] : List UInt8)

/-- What starts an expansion behind a dollar sign. -/
def expands (b : UInt8) : Bool :=
  (97 ≤ b && b ≤ 122) || (65 ≤ b && b ≤ 90) || (48 ≤ b && b ≤ 57) ||
    b ∈ ([95, 123, 40, 91, 42, 64, 35, 63, 45, 36, 33] : List UInt8)

def stepBare (r : Reader) (b : UInt8) : Option Reader :=
  if isBlank b then some ⟨.between, [], r.words ++ [r.word]⟩
  else if b = 39 then some (r.enter .single)
  else if b = 34 then some (r.enter .double)
  else if b = 92 then some (r.enter .bareSlash)
  else if b = 36 then some (r.enter .bareDollar)
  else if isSpecial b then none
  else some ((r.push b).enter .bare)

def stepDouble (r : Reader) (b : UInt8) : Option Reader :=
  if b = 34 then some (r.enter .bare)
  else if b = 92 then some (r.enter .doubleSlash)
  else if b = 36 then some (r.enter .doubleDollar)
  else if b = 96 then none
  else some ((r.push b).enter .double)

def stepDollar (r : Reader) (b : UInt8) : Option Reader :=
  if b = 39 then some (r.enter .bare)
  else if b = 92 then some (r.enter .dollarSlash)
  else some ((r.push b).enter .dollar)

def step (r : Reader) (b : UInt8) : Option Reader :=
  match r.mode with
  | .between =>
    if isBlank b then some r
    else if b = 126 || b = 35 then none
    else stepBare r b
  | .bare => stepBare r b
  | .bareSlash => if b = 10 then some (r.enter .bare) else some ((r.push b).enter .bare)
  | .bareDollar => if b = 39 then some (r.enter .dollar) else none
  | .single => if b = 39 then some (r.enter .bare) else some (r.push b)
  | .double => stepDouble r b
  | .doubleSlash =>
    if b = 36 || b = 96 || b = 34 || b = 92 then some ((r.push b).enter .double)
    else if b = 10 then some (r.enter .double)
    else some (((r.push 92).push b).enter .double)
  | .doubleDollar => if expands b then none else stepDouble (r.push 36) b
  | .dollar => stepDollar r b
  | .dollarSlash =>
    if isOctal b then some (r.enter (.dollarOctal (b.toNat - 48) 1))
    else if b = 92 || b = 39 || b = 34 || b = 63 then some ((r.push b).enter .dollar)
    else if b = 101 then some ((r.push 27).enter .dollar)
    else (letterByte b).map fun v => (r.push v).enter .dollar
  | .dollarOctal value count =>
    if isOctal b then
      let value := 8 * value + (b.toNat - 48)
      some (if count = 2 then (r.push (UInt8.ofNat value)).enter .dollar else r.enter (.dollarOctal value (count + 1)))
    else stepDollar (r.push (UInt8.ofNat value)) b

/-- The words at the end of the line, unless a quote is open. -/
def finish (r : Reader) : Option (List (List UInt8)) :=
  match r.mode with
  | .between => some r.words
  | .bare => some (r.words ++ [r.word])
  | _ => none

def readWords (line : List UInt8) : Option (List (List UInt8)) := (line.foldlM step start).bind finish

/-! ## Pieces of a word -/

/-- The reader takes `out` in. -/
def Takes (r : Reader) (out : List UInt8) (r' : Reader) : Prop := out.foldlM step r = some r'

variable {w : List UInt8} {ws : List (List UInt8)}

theorem Takes.append {r r' r'' : Reader} {out out' : List UInt8} (h : Takes r out r') (h' : Takes r' out' r'') :
    Takes r (out ++ out') r'' := by
  rw [Takes, List.foldlM_append, h]
  exact h'

theorem Takes.readWords {line : List UInt8} {r : Reader} (h : Takes start line r) : readWords line = finish r := by
  rw [ShellWords.readWords, h]
  rfl

theorem Takes.nil (r : Reader) : Takes r [] r := rfl

theorem takes_singleton {r r' : Reader} {b : UInt8} (h : step r b = some r') : Takes r [b] r' := by
  rw [Takes, List.foldlM_cons, h]
  rfl

/-- Bytes that stand for themselves. -/
theorem takes_literal {mode : Mode} {out : List UInt8}
    (h : ∀ b ∈ out, ∀ w, step ⟨mode, w, ws⟩ b = some ⟨mode, w ++ [b], ws⟩) :
    Takes ⟨mode, w, ws⟩ out ⟨mode, w ++ out, ws⟩ := by
  induction out generalizing w with
  | nil => simpa using Takes.nil _
  | cons b out ih =>
    have hrest := @ih (w ++ [b]) fun b hb => h b (List.mem_cons_of_mem _ hb)
    rw [List.append_assoc] at hrest
    exact (takes_singleton (h b List.mem_cons_self w)).append hrest

theorem takes_single {out : List UInt8} (h : 39 ∉ out) : Takes ⟨.single, w, ws⟩ out ⟨.single, w ++ out, ws⟩ := by
  refine takes_literal fun b hb w => ?_
  have hne : b ≠ 39 := fun e => h (e ▸ hb)
  simp only [step, if_neg hne, Reader.push]

/-- Not special between double quotes. -/
def PlainDouble (b : UInt8) : Prop := b ≠ 34 ∧ b ≠ 92 ∧ b ≠ 36 ∧ b ≠ 96

theorem stepDouble_plain {b : UInt8} (h : PlainDouble b) (mode : Mode) (w : List UInt8) :
    stepDouble ⟨mode, w, ws⟩ b = some ⟨.double, w ++ [b], ws⟩ := by
  obtain ⟨hquote, hslash, hdollar, hback⟩ := h
  simp only [stepDouble, if_neg hquote, if_neg hslash, if_neg hdollar, if_neg hback, Reader.push, Reader.enter]

theorem takes_double {out : List UInt8} (h : ∀ b ∈ out, PlainDouble b) :
    Takes ⟨.double, w, ws⟩ out ⟨.double, w ++ out, ws⟩ :=
  takes_literal fun b hb w => stepDouble_plain (h b hb) .double w

/-- Not special outside quotes. -/
def PlainBare (b : UInt8) : Prop :=
  isBlank b = false ∧ b ≠ 39 ∧ b ≠ 34 ∧ b ≠ 92 ∧ b ≠ 36 ∧ isSpecial b = false

theorem stepBare_plain {b : UInt8} (h : PlainBare b) (mode : Mode) (w : List UInt8) :
    stepBare ⟨mode, w, ws⟩ b = some ⟨.bare, w ++ [b], ws⟩ := by
  obtain ⟨hblank, hsingle, hdouble, hslash, hdollar, hspecial⟩ := h
  simp only [stepBare, hblank, hspecial, if_neg hsingle, if_neg hdouble, if_neg hslash, if_neg hdollar, Reader.push,
    Reader.enter, Bool.false_eq_true, if_false]

/-- A word without quotes. -/
theorem readWords_bare {b : UInt8} {out : List UInt8} (h : ∀ c ∈ b :: out, PlainBare c) (htilde : b ≠ 126)
    (hhash : b ≠ 35) : readWords (b :: out) = some [b :: out] := by
  have hfirst : step start b = some ⟨.bare, [b], []⟩ := by
    have hbare := h b List.mem_cons_self
    simp only [step, start, hbare.1, Bool.false_eq_true, if_false, htilde, hhash, decide_false, Bool.or_self]
    exact stepBare_plain hbare _ _
  have hrest : Takes ⟨.bare, [b], []⟩ out ⟨.bare, [b] ++ out, []⟩ :=
    takes_literal fun c hc w => stepBare_plain (h c (List.mem_cons_of_mem _ hc)) .bare w
  exact ((takes_singleton hfirst).append hrest).readWords

/-! ## Quotes -/

theorem takes_open_single : Takes start [39] ⟨.single, [], []⟩ := rfl

theorem takes_open_double : Takes start [34] ⟨.double, [], []⟩ := rfl

/-- The quotes that are closed at the end, dollar quotes or not. -/
theorem readWords_single {inDollar : Bool} {line : List UInt8}
    (h : Takes start line ⟨if inDollar then .dollar else .single, w, []⟩) : readWords (line ++ [39]) = some [w] := by
  have hclose : Takes ⟨if inDollar then .dollar else .single, w, []⟩ [39] ⟨.bare, w, []⟩ := by
    cases inDollar <;> rfl
  exact (h.append hclose).readWords

theorem readWords_double {line : List UInt8} (h : Takes start line ⟨.double, w, []⟩) :
    readWords (line ++ [34]) = some [w] :=
  (h.append (show Takes _ [34] ⟨.bare, w, []⟩ from rfl)).readWords

/-- A single quote behind a backslash, outside quotes. -/
theorem takes_escaped_quote (inDollar : Bool) :
    Takes ⟨if inDollar then .dollar else .single, w, ws⟩ [39, 92, 39, 39] ⟨.single, w ++ [39], ws⟩ := by
  cases inDollar <;> rfl

theorem takes_enter_dollar : Takes ⟨.single, w, ws⟩ [39, 36, 39] ⟨.dollar, w, ws⟩ := rfl

theorem takes_exit_dollar : Takes ⟨.dollar, w, ws⟩ [39, 39] ⟨.single, w, ws⟩ := rfl

/-! ## Escapes -/

theorem takes_dollar_slash : Takes ⟨.dollar, w, ws⟩ [92] ⟨.dollarSlash, w, ws⟩ := rfl

theorem takes_double_slash : Takes ⟨.double, w, ws⟩ [92] ⟨.doubleSlash, w, ws⟩ := rfl

theorem takes_letter {l v : UInt8} (h : letterByte l = some v) :
    Takes ⟨.dollar, w, ws⟩ [92, l] ⟨.dollar, w ++ [v], ws⟩ := by
  have hstep : step ⟨.dollarSlash, w, ws⟩ l = some ⟨.dollar, w ++ [v], ws⟩ := by
    unfold letterByte at h
    repeat' split at h
    all_goals first | (subst l; cases h; rfl) | cases h
  exact takes_dollar_slash.append (takes_singleton hstep)

theorem takes_octalEscape (b : UInt8) : Takes ⟨.dollar, w, ws⟩ (octalEscape b) ⟨.dollar, w ++ [b], ws⟩ := by
  obtain ⟨h₀, h₁, h₂⟩ := Octal.isOctal_digits b
  have hvalue : 8 * (8 * ((digits b).1.toNat - 48) + ((digits b).2.1.toNat - 48)) + ((digits b).2.2.toNat - 48) =
      b.toNat := by
    rw [← Octal.number_digits b, Octal.number]
    omega
  have hlast : step ⟨.dollarOctal (8 * ((digits b).1.toNat - 48) + ((digits b).2.1.toNat - 48)) 2, w, ws⟩
      (digits b).2.2 = some ⟨.dollar, w ++ [b], ws⟩ := by
    simp only [step, h₂, if_true, hvalue, UInt8.ofNat_toNat, Reader.push, Reader.enter]
  have hfirst : step ⟨.dollarSlash, w, ws⟩ (digits b).1 = some ⟨.dollarOctal ((digits b).1.toNat - 48) 1, w, ws⟩ := by
    simp only [step, h₀, if_true, Reader.enter]
  have hsecond : step ⟨.dollarOctal ((digits b).1.toNat - 48) 1, w, ws⟩ (digits b).2.1 =
      some ⟨.dollarOctal (8 * ((digits b).1.toNat - 48) + ((digits b).2.1.toNat - 48)) 2, w, ws⟩ := by
    simp only [step, h₁, if_true, Reader.enter]
    rfl
  exact takes_dollar_slash.append ((takes_singleton hfirst).append
    ((takes_singleton hsecond).append (takes_singleton hlast)))

/-! ## Escapes that are none -/

/-- Between double quotes dollar quotes are literal. -/
theorem takes_double_dollar : Takes ⟨.double, w, ws⟩ [39, 36, 39] ⟨.double, w ++ [39, 36, 39], ws⟩ := by
  rw [show w ++ [39, 36, 39] = w ++ [39] ++ [36] ++ [39] by simp]
  rfl

/-- Between double quotes an octal escape is literal. -/
theorem takes_double_octal (b : UInt8) :
    Takes ⟨.double, w, ws⟩ (octalEscape b) ⟨.double, w ++ octalEscape b, ws⟩ := by
  have hplain : ∀ {d}, isOctal d = true → PlainDouble d ∧ d ≠ 10 := by
    intro d hd
    obtain ⟨hlo, hhi⟩ := Octal.isOctal_bounds hd
    refine ⟨⟨?_, ?_, ?_, ?_⟩, ?_⟩ <;> rintro rfl <;> revert hlo hhi <;> decide
  obtain ⟨h₀, h₁, h₂⟩ := Octal.isOctal_digits b
  obtain ⟨⟨hquote, hslash, hdollar, hback⟩, hline⟩ := hplain h₀
  have hfirst : step ⟨.doubleSlash, w, ws⟩ (digits b).1 = some ⟨.double, w ++ [92] ++ [(digits b).1], ws⟩ := by
    simp only [step, hquote, hslash, hdollar, hback, hline, decide_false, Bool.or_self, Bool.false_eq_true, if_false,
      Reader.push, Reader.enter]
  have hrest : Takes ⟨.double, w ++ [92] ++ [(digits b).1], ws⟩ [(digits b).2.1, (digits b).2.2]
      ⟨.double, w ++ [92] ++ [(digits b).1] ++ [(digits b).2.1, (digits b).2.2], ws⟩ :=
    takes_double (List.forall_mem_cons.2 ⟨(hplain h₁).1, List.forall_mem_singleton.2 (hplain h₂).1⟩)
  rw [show w ++ octalEscape b = w ++ [92] ++ [(digits b).1] ++ [(digits b).2.1, (digits b).2.2] by simp [octalEscape]]
  exact (takes_double_slash.append (takes_singleton hfirst)).append hrest

end ShellWords
