import Mathlib.Algebra.GroupWithZero.Nat
import Mathlib.Data.List.DropRight
import Peiosutils.Lib.Fallible
import Peiosutils.Lib.Numeral

/-!
# The patterns of csplit (`patterns.rs`)

The arguments are patterns, each with a repeat count behind it where the next argument looks like one. Two regular
expressions tell them apart; `captureToMatch` and `captureNtimes` are what these capture (`captureToMatch_eq_some`,
`captureNtimes_isSome`).

The repeat counts are told by an expression whose alternatives are each anchored at one side only, and the numbers are
unwrapped. `getPatterns` does what is written exactly when no argument that it comes to is taken by half, and all numbers
fit (`meets_iff`).
-/

set_option autoImplicit false

namespace Peiosutils.Csplit

open Numeral (Digits)

/-- A text, in UTF-8. -/
abbrev Text := List UInt8

def usizeMax : Nat := 2 ^ 64 - 1

def i32Max : Nat := 2 ^ 31 - 1

/-! ## Patterns -/

inductive ExecutePattern where
  | always
  | times (n : Nat)
  deriving DecidableEq, Repr

inductive Pattern where
  | upToLine (n : Nat) (ex : ExecutePattern)
  | upToMatch (regex : Text) (offset : Int) (ex : ExecutePattern)
  | skipToMatch (regex : Text) (offset : Int) (ex : ExecutePattern)
  deriving DecidableEq, Repr

/-- The errors of patterns and of their application. -/
inductive CsplitError where
  | lineOutOfRange (pattern : Text)
  | lineOutOfRangeOnRepetition (pattern : Text) (repetition : Nat)
  | matchNotFound (pattern : Text)
  | matchNotFoundOnRepetition (pattern : Text) (repetition : Nat)
  | lineNumberIsZero
  | lineNumberSmallerThanPrevious (current previous : Nat)
  | invalidPattern (arg : Text)
  deriving DecidableEq, Repr

inductive Failure where
  | error (e : CsplitError)
  | panic
  deriving DecidableEq, Repr

/-! ## What the regular expressions capture -/

def isDigits (t : Text) : Bool := t ≠ [] && t.all Ascii.isDigit

/-- `[\+-]?[0-9]+`. -/
def isOffset (t : Text) : Bool :=
  match t with
  | 43 :: ds | 45 :: ds => isDigits ds
  | ds => isDigits ds

inductive MatchKind where
  | upTo
  | skipTo
  deriving DecidableEq, Repr

def MatchKind.delim : MatchKind → UInt8
  | .upTo => 47
  | .skipTo => 37

structure ToMatch where
  kind : MatchKind
  regex : Text
  offset : Option Text
  deriving DecidableEq, Repr

/-- Behind the first delimiter: `.+` goes as far as it can, which is up to the last delimiter, since none is in an offset. -/
def capture (kind : MatchKind) (rest : Text) : Option ToMatch :=
  let regex := (rest.rdropWhile (· ≠ kind.delim)).dropLast
  let offset := rest.rtakeWhile (· ≠ kind.delim)
  if rest.contains kind.delim && regex ≠ [] && !regex.contains 10 && (offset = [] || isOffset offset) then
    some ⟨kind, regex, if offset = [] then none else some offset⟩
  else none

/-- `^(/(?P<UPTO>.+)/|%(?P<SKIPTO>.+)%)(?P<OFFSET>[\+-]?[0-9]+)?$`. -/
def captureToMatch (arg : Text) : Option ToMatch :=
  match arg with
  | 47 :: rest => capture .upTo rest
  | 37 :: rest => capture .skipTo rest
  | _ => none

/-- `^\{(?P<TIMES>[0-9]+)|\*\}$`: the digits behind a brace at the start, or else just a star and a brace at the end. -/
def captureNtimes (item : Text) : Option (Option Text) :=
  let times := if item.head? = some 123 then (item.drop 1).takeWhile Ascii.isDigit else []
  if times ≠ [] then some (some times) else if [42, 125].isSuffixOf item then some none else none

/-! ## Reading the arguments -/

/-- The number of times is one more than the number in braces; an overflow is a panic, as the unwrapped parse is. -/
def executeNtimes : Option Text → Except Failure ExecutePattern
  | none => .ok .always
  | some times =>
    match Numeral.parseUnsigned usizeMax times with
    | some n => if n = usizeMax then .error .panic else .ok (.times (n + 1))
    | none => .error .panic

def parseOffset : Option Text → Except Failure Int
  | none => .ok 0
  | some m =>
    match Numeral.parseSigned i32Max m with
    | some n => .ok n
    | none => .error .panic

def MatchKind.pattern (kind : MatchKind) (regex : Text) (offset : Int) (ex : ExecutePattern) : Pattern :=
  match kind with
  | .upTo => .upToMatch regex offset ex
  | .skipTo => .skipToMatch regex offset ex

/-- The pattern of an argument; `compiles` is whether a regular expression does. -/
def parsePattern (compiles : Text → Bool) (arg : Text) (ex : ExecutePattern) : Except Failure Pattern :=
  match captureToMatch arg with
  | some c => do
    let offset ← parseOffset c.offset
    if compiles c.regex then return c.kind.pattern c.regex offset ex else .error (.error (.invalidPattern arg))
  | none =>
    match Numeral.parseUnsigned usizeMax arg with
    | some lineNumber => .ok (.upToLine lineNumber ex)
    | none => .error (.error (.invalidPattern arg))

def extractPatterns (compiles : Text → Bool) : List Text → Except Failure (List Pattern)
  | [] => .ok []
  | [arg] => do
    let pattern ← parsePattern compiles arg (.times 1)
    return [pattern]
  | arg :: next :: rest =>
    match captureNtimes next with
    | none => do
      let pattern ← parsePattern compiles arg (.times 1)
      let patterns ← extractPatterns compiles (next :: rest)
      return pattern :: patterns
    | some times => do
      let ex ← executeNtimes times
      let pattern ← parsePattern compiles arg ex
      let patterns ← extractPatterns compiles rest
      return pattern :: patterns

def lineNumbers (patterns : List Pattern) : List Nat :=
  patterns.filterMap fun pattern =>
    match pattern with
    | .upToLine n _ => some n
    | _ => none

/-- The numbers ascend, where equal ones follow each other with a warning. -/
def validateFrom (prev : Nat) : List Nat → Except Failure Unit
  | [] => .ok ()
  | m :: ms =>
    if m = 0 then .error (.error .lineNumberIsZero)
    else if prev = m then validateFrom prev ms
    else if m < prev then .error (.error (.lineNumberSmallerThanPrevious m prev))
    else validateFrom m ms

def validateLineNumbers (patterns : List Pattern) : Except Failure Unit := validateFrom 0 (lineNumbers patterns)

def getPatterns (compiles : Text → Bool) (args : List Text) : Except Failure (List Pattern) := do
  let patterns ← extractPatterns compiles args
  validateLineNumbers patterns
  return patterns

/-! ## What is written -/

/-- A repeat count as a whole: a number in braces, or a star. -/
inductive Count : Text → ExecutePattern → Prop
  | times {t : Text} {n : Nat} (h : Digits t n) : Count (123 :: t ++ [125]) (.times (n + 1))
  | always : Count [123, 42, 125] .always

inductive Offset : Text → Int → Prop
  | none : Offset [] 0
  | plain {t : Text} {n : Nat} (h : Digits t n) : Offset t n
  | plus {t : Text} {n : Nat} (h : Digits t n) : Offset (43 :: t) n
  | minus {t : Text} {n : Nat} (h : Digits t n) : Offset (45 :: t) (-n)

/-- The pattern that is written in an argument, with its number of times. -/
inductive Denotes : Text → ExecutePattern → Pattern → Prop
  | line {t : Text} {n : Nat} {ex : ExecutePattern} (h : Digits t n) : Denotes t ex (.upToLine n ex)
  | linePlus {t : Text} {n : Nat} {ex : ExecutePattern} (h : Digits t n) : Denotes (43 :: t) ex (.upToLine n ex)
  | toMatch {kind : MatchKind} {regex off : Text} {z : Int} {ex : ExecutePattern} (hne : regex ≠ [])
    (hoff : Offset off z) : Denotes (kind.delim :: regex ++ kind.delim :: off) ex (kind.pattern regex z ex)

/-- The patterns that are written in the arguments. -/
inductive Written : List Text → List Pattern → Prop
  | nil : Written [] []
  | once {arg : Text} {rest : List Text} {p : Pattern} {ps : List Pattern} (hp : Denotes arg (.times 1) p)
    (hnext : ∀ next ∈ rest.head?, ∀ ex, ¬ Count next ex) (hps : Written rest ps) : Written (arg :: rest) (p :: ps)
  | counted {arg next : Text} {rest : List Text} {ex : ExecutePattern} {p : Pattern} {ps : List Pattern}
    (hcount : Count next ex) (hp : Denotes arg ex p) (hps : Written rest ps) : Written (arg :: next :: rest) (p :: ps)

/-! ## What is captured -/

theorem isDigits_iff {t : Text} : isDigits t = true ↔ ∃ n, Digits t n := by
  unfold isDigits
  rw [Bool.and_eq_true, decide_eq_true_iff]
  exact ⟨fun h => Numeral.exists_digits h.1 h.2, fun ⟨_, h⟩ => ⟨h.1, h.all⟩⟩

theorem isOffset_iff {t : Text} : isOffset t = true ↔ t ≠ [] ∧ ∃ z, Offset t z := by
  constructor
  · intro h
    unfold isOffset at h
    split at h
    · obtain ⟨n, hn⟩ := isDigits_iff.1 h
      exact ⟨List.cons_ne_nil _ _, n, .plus hn⟩
    · obtain ⟨n, hn⟩ := isDigits_iff.1 h
      exact ⟨List.cons_ne_nil _ _, -n, .minus hn⟩
    · obtain ⟨n, hn⟩ := isDigits_iff.1 h
      exact ⟨hn.1, n, .plain hn⟩
  · rintro ⟨hne, z, h⟩
    cases h with
    | none => exact absurd rfl hne
    | plus hn => exact isDigits_iff.2 ⟨_, hn⟩
    | minus hn => exact isDigits_iff.2 ⟨_, hn⟩
    | plain hn =>
      obtain ⟨b, bs, rfl⟩ := List.exists_cons_of_ne_nil hne
      unfold isOffset
      split
      · rename_i heq
        exact absurd (List.cons.inj heq).1 hn.head_ne.1
      · rename_i heq
        exact absurd (List.cons.inj heq).1 hn.head_ne.2
      · exact isDigits_iff.2 ⟨_, hn⟩

/-- Only digits and signs are in an offset. -/
theorem Offset.mem {t : Text} {z : Int} (h : Offset t z) {b : UInt8} (hb : b ∈ t) :
    Ascii.isDigit b = true ∨ b = 43 ∨ b = 45 := by
  cases h with
  | none => cases hb
  | plain hn => exact Or.inl (List.all_eq_true.1 hn.all b hb)
  | plus hn =>
    rcases List.mem_cons.1 hb with rfl | hb
    · exact Or.inr (Or.inl rfl)
    · exact Or.inl (List.all_eq_true.1 hn.all b hb)
  | minus hn =>
    rcases List.mem_cons.1 hb with rfl | hb
    · exact Or.inr (Or.inr rfl)
    · exact Or.inl (List.all_eq_true.1 hn.all b hb)

theorem Offset.delim_notMem {t : Text} {z : Int} (h : Offset t z) (kind : MatchKind) : kind.delim ∉ t := by
  intro hb
  have := h.mem hb
  cases kind <;> revert this <;> decide

section Last

variable {d : UInt8}

/-- The last delimiter. -/
theorem last_delim (a : Text) {b : Text} (hb : d ∉ b) :
    (a ++ d :: b).rdropWhile (· ≠ d) = a ++ [d] ∧ (a ++ d :: b).rtakeWhile (· ≠ d) = b := by
  induction b using List.reverseRecOn with
  | nil => exact ⟨List.rdropWhile_concat_neg _ _ _ (by simp), List.rtakeWhile_concat_neg _ _ _ (by simp)⟩
  | append_singleton b x ih =>
    rw [List.mem_append, not_or, List.mem_singleton] at hb
    obtain ⟨hdrop, htake⟩ := ih hb.1
    have hx : decide (x ≠ d) = true := decide_eq_true (Ne.symm hb.2)
    have heq : a ++ d :: (b ++ [x]) = (a ++ d :: b) ++ [x] := by simp
    rw [heq, List.rdropWhile_concat_pos (fun x => decide (x ≠ d)) _ x hx,
      List.rtakeWhile_concat_pos (fun x => decide (x ≠ d)) _ x hx, hdrop, htake]
    exact ⟨rfl, rfl⟩

theorem exists_last_delim {t : Text} (h : d ∈ t) : ∃ a b, t = a ++ d :: b ∧ d ∉ b := by
  obtain ⟨b, a, heq, hb⟩ := List.eq_append_cons_of_mem (List.mem_reverse.2 h)
  refine ⟨a.reverse, b.reverse, ?_, by simpa using hb⟩
  rw [← List.reverse_reverse t, heq]
  simp

end Last

theorem capture_eq_some {kind : MatchKind} {rest : Text} {c : ToMatch} : capture kind rest = some c ↔
    c.kind = kind ∧ c.regex ≠ [] ∧ 10 ∉ c.regex ∧ ∃ off, rest = c.regex ++ kind.delim :: off ∧
      (off = [] ∧ c.offset = none ∨ off ≠ [] ∧ (∃ z, Offset off z) ∧ c.offset = some off) := by
  have hoffset : ∀ b : Text, (b = [] ∨ isOffset b = true) ↔ b = [] ∨ b ≠ [] ∧ ∃ z, Offset b z := fun b => by
    rw [isOffset_iff]
  unfold capture
  rw [Option.ite_none_right_eq_some]
  simp only [Bool.and_eq_true, Bool.or_eq_true, decide_eq_true_iff, Bool.not_eq_true', List.contains_eq_mem,
    decide_eq_false_iff_not, hoffset]
  constructor
  · rintro ⟨⟨⟨⟨hmem, hne⟩, hline⟩, hoff⟩, hc⟩
    cases hc
    obtain ⟨a, b, rfl, hb⟩ := exists_last_delim hmem
    obtain ⟨hdrop, htake⟩ := last_delim a hb
    rw [hdrop, List.dropLast_concat] at hne hline
    rw [htake] at hoff
    simp only [hdrop, htake, List.dropLast_concat]
    refine ⟨trivial, hne, hline, b, rfl, ?_⟩
    rcases hoff with hnil | ⟨hne', hoff⟩
    · exact Or.inl ⟨hnil, if_pos hnil⟩
    · exact Or.inr ⟨hne', hoff, if_neg hne'⟩
  · obtain ⟨kind', regex, offset⟩ := c
    rintro ⟨rfl, hne, hline, off, rfl, hoff⟩
    have hdelim : kind'.delim ∉ off := by
      rcases hoff with ⟨rfl, -⟩ | ⟨-, ⟨z, hz⟩, -⟩
      · exact List.not_mem_nil
      · exact hz.delim_notMem kind'
    obtain ⟨hdrop, htake⟩ := last_delim regex hdelim
    rw [hdrop, htake, List.dropLast_concat]
    refine ⟨⟨⟨⟨by simp, hne⟩, hline⟩, hoff.imp And.left fun h => ⟨h.1, h.2.1⟩⟩, ?_⟩
    rcases hoff with ⟨rfl, rfl⟩ | ⟨hne', -, rfl⟩
    · rfl
    · rw [if_neg hne']

/-- How a pattern is written. -/
def Captured (arg : Text) (c : ToMatch) : Prop :=
  c.regex ≠ [] ∧ 10 ∉ c.regex ∧ ∃ off, arg = c.kind.delim :: c.regex ++ c.kind.delim :: off ∧
    (off = [] ∧ c.offset = none ∨ off ≠ [] ∧ (∃ z, Offset off z) ∧ c.offset = some off)

theorem delim_injective {kind kind' : MatchKind} (h : kind.delim = kind'.delim) : kind = kind' := by
  cases kind <;> cases kind' <;> first | rfl | exact absurd h (by decide)

theorem capture_iff_captured {kind : MatchKind} {rest : Text} {c : ToMatch} :
    capture kind rest = some c ↔ Captured (kind.delim :: rest) c := by
  rw [capture_eq_some, Captured]
  constructor
  · rintro ⟨rfl, hne, hline, off, rfl, hoff⟩
    exact ⟨hne, hline, off, rfl, hoff⟩
  · rintro ⟨hne, hline, off, heq, hoff⟩
    obtain ⟨hdelim, hrest⟩ := List.cons.inj heq
    have hkind := delim_injective hdelim
    rw [← hkind] at hrest
    exact ⟨hkind.symm, hne, hline, off, hrest, hoff⟩

/-- What the expression for patterns captures. -/
theorem captureToMatch_eq_some {arg : Text} {c : ToMatch} : captureToMatch arg = some c ↔ Captured arg c := by
  unfold captureToMatch
  split
  · exact capture_iff_captured
  · exact capture_iff_captured
  · rename_i hup hskip
    refine iff_of_false (by simp) ?_
    rintro ⟨-, -, off, rfl, -⟩
    cases hc : c.kind with
    | upTo => exact hup (c.regex ++ 47 :: off) (by rw [hc]; rfl)
    | skipTo => exact hskip (c.regex ++ 37 :: off) (by rw [hc]; rfl)

/-- What is taken for a repeat count: it starts with a brace and a digit, or ends with a star and a brace. -/
theorem captureNtimes_isSome {item : Text} : (captureNtimes item).isSome = true ↔
    (∃ b bs, item = 123 :: b :: bs ∧ Ascii.isDigit b = true) ∨ [42, 125] <:+ item := by
  have htimes : (if item.head? = some 123 then (item.drop 1).takeWhile Ascii.isDigit else []) ≠ [] ↔
      ∃ b bs, item = 123 :: b :: bs ∧ Ascii.isDigit b = true := by
    constructor
    · intro h
      split at h
      · rename_i hhead
        obtain ⟨rest, rfl⟩ := List.head?_eq_some_iff.1 hhead
        cases rest with
        | nil => exact absurd rfl h
        | cons b bs =>
          refine ⟨b, bs, rfl, ?_⟩
          by_contra hb
          exact h (by rw [List.drop_one, List.tail_cons, List.takeWhile_cons_of_neg hb])
      · exact absurd rfl h
    · rintro ⟨b, bs, rfl, hb⟩
      rw [List.head?_cons, if_pos rfl, List.drop_one, List.tail_cons, List.takeWhile_cons_of_pos hb]
      exact List.cons_ne_nil _ _
  rw [captureNtimes, ← htimes, ← List.isSuffixOf_iff_suffix]
  generalize (if item.head? = some 123 then (item.drop 1).takeWhile Ascii.isDigit else []) = times
  by_cases h : times = []
  · cases [42, 125].isSuffixOf item <;> simp [h]
  · simp [h]

/-- A repeat count is taken for one. -/
theorem Count.captured {item : Text} {ex : ExecutePattern} (h : Count item ex) :
    (captureNtimes item).isSome = true := by
  rw [captureNtimes_isSome]
  cases h with
  | times hn =>
    obtain ⟨b, bs, rfl⟩ := List.exists_cons_of_ne_nil hn.1
    exact Or.inl ⟨b, bs ++ [125], rfl, List.all_eq_true.1 hn.all b List.mem_cons_self⟩
  | always => exact Or.inr ⟨[123], rfl⟩

/-- What is taken of it are its digits. -/
theorem captureNtimes_digits {t : Text} {n : Nat} (h : Digits t n) : captureNtimes (123 :: t ++ [125]) = some (some t) := by
  have htimes : (t ++ [125]).takeWhile Ascii.isDigit = t := by
    rw [List.takeWhile_append_of_pos fun b hb => List.all_eq_true.1 h.all b hb]
    simp [Ascii.isDigit]
  rw [captureNtimes]
  simp only [List.cons_append, List.head?_cons, if_true, List.drop_succ_cons, List.drop_zero, htimes, if_pos h.1]

/-! ## Numbers that fit -/

theorem parseSigned_eq_some {most : Nat} {t : Text} {z : Int} : Numeral.parseSigned most t = some z ↔
    t ≠ [] ∧ Offset t z ∧ -(most + 1 : Int) ≤ z ∧ z ≤ most := by
  cases t with
  | nil => simp [Numeral.parseSigned]
  | cons b bs =>
    rw [Numeral.parseSigned, and_iff_right (List.cons_ne_nil b bs)]
    split
    · rename_i hb
      subst hb
      constructor
      · intro h
        cases hparse : Numeral.parseDigits (most + 1) bs with
        | none =>
          rw [hparse] at h
          cases h
        | some n =>
          rw [hparse] at h
          cases h
          obtain ⟨hn, hle⟩ := Numeral.parseDigits_eq_some.1 hparse
          exact ⟨.minus hn, show -(most + 1 : Int) ≤ -(n : Int) by omega, show -(n : Int) ≤ most by omega⟩
      · rintro ⟨hoff, hlow, -⟩
        cases hoff with
        | plain hn => exact absurd rfl hn.head_ne.2
        | @minus t n hn =>
          rw [Numeral.parseDigits_eq_some.2 ⟨hn, show n ≤ most + 1 by omega⟩]
          rfl
    · rename_i hb
      rw [Option.map_eq_some_iff]
      constructor
      · rintro ⟨n, hn, rfl⟩
        obtain ⟨hn | ⟨ds, heq, hn⟩, hle⟩ := Numeral.parseUnsigned_eq_some.1 hn
        · exact ⟨.plain hn, by rw [Int.ofNat_eq_natCast]; omega, by rw [Int.ofNat_eq_natCast]; omega⟩
        · rw [heq]
          exact ⟨.plus hn, by rw [Int.ofNat_eq_natCast]; omega, by rw [Int.ofNat_eq_natCast]; omega⟩
      · rintro ⟨hoff, -, hhigh⟩
        cases hoff with
        | plain hn => exact ⟨_, Numeral.parseUnsigned_eq_some.2 ⟨Or.inl hn, by omega⟩, rfl⟩
        | plus hn => exact ⟨_, Numeral.parseUnsigned_eq_some.2 ⟨Or.inr ⟨_, rfl, hn⟩, by omega⟩, rfl⟩
        | minus hn => exact absurd rfl hb

theorem Offset.unique {t : Text} {z z' : Int} (h : Offset t z) (h' : Offset t z') : z = z' := by
  cases h with
  | none =>
    cases h' with
    | none => rfl
    | plain hn => exact absurd rfl hn.1
  | plain hn =>
    cases h' with
    | none => exact absurd rfl hn.1
    | plain hn' => rw [hn.unique hn']
    | plus hn' => exact absurd rfl hn.head_ne.1
    | minus hn' => exact absurd rfl hn.head_ne.2
  | plus hn =>
    cases h' with
    | plain hn' => exact absurd rfl hn'.head_ne.1
    | plus hn' => rw [hn.unique hn']
  | minus hn =>
    cases h' with
    | plain hn' => exact absurd rfl hn'.head_ne.2
    | minus hn' => rw [hn.unique hn']

/-- What is taken for a count is one, with a number that can be increased. -/
def CountFits (next : Text) : Prop :=
  (captureNtimes next).isSome = true →
    next = [123, 42, 125] ∨ ∃ t n, next = 123 :: t ++ [125] ∧ Digits t n ∧ n < usizeMax

/-- The offset of a pattern fits 32 bits. -/
def OffsetFits (arg : Text) : Prop :=
  ∀ c off z, Captured arg c → c.offset = some off → Offset off z → -(i32Max + 1 : Int) ≤ z ∧ z ≤ i32Max

theorem executeNtimes_of_fits {next : Text} {times : Option Text} (h : CountFits next)
    (hnext : captureNtimes next = some times) : ∃ ex, executeNtimes times = .ok ex ∧ Count next ex := by
  rcases h (by rw [hnext]; rfl) with rfl | ⟨t, n, rfl, hn, hlt⟩
  · have hstar : captureNtimes [123, 42, 125] = some none := rfl
    rw [hstar] at hnext
    cases hnext
    exact ⟨.always, rfl, .always⟩
  · rw [captureNtimes_digits hn] at hnext
    cases hnext
    have hparse := Numeral.parseUnsigned_eq_some.2 ⟨Or.inl hn, Nat.le_of_lt hlt⟩
    refine ⟨.times (n + 1), ?_, .times hn⟩
    simp only [executeNtimes, hparse, if_neg (Nat.ne_of_lt hlt)]

/-- A count is taken without a panic only where its number can be increased. -/
theorem countFits_of_executeNtimes {next : Text} {ex : ExecutePattern} (h : Count next ex)
    (hex : ∀ times, captureNtimes next = some times → executeNtimes times ≠ .error .panic) : CountFits next := by
  intro _
  cases h with
  | always => exact Or.inl rfl
  | @times t n hn =>
    refine Or.inr ⟨t, n, rfl, hn, ?_⟩
    have hok := hex _ (captureNtimes_digits hn)
    by_contra hlt
    apply hok
    rw [executeNtimes]
    cases hparse : Numeral.parseUnsigned usizeMax t with
    | none => rfl
    | some m =>
      obtain ⟨hm | ⟨ds, rfl, -⟩, hle⟩ := Numeral.parseUnsigned_eq_some.1 hparse
      · have := hn.unique hm
        exact if_pos (by omega)
      · exact absurd rfl hn.head_ne.1

/-- The offset is unwrapped. -/
theorem parseOffset_panic {arg : Text} {c : ToMatch} (hc : Captured arg c) :
    parseOffset c.offset = .error .panic ↔ ¬ OffsetFits arg := by
  have hunique : ∀ c', Captured arg c' → c' = c := fun c' hc' =>
    Option.some.inj ((captureToMatch_eq_some.2 hc').symm.trans (captureToMatch_eq_some.2 hc))
  obtain ⟨-, -, off, -, ⟨-, hoff⟩ | ⟨hne, ⟨z, hz⟩, hoff⟩⟩ := id hc
  · refine iff_of_false (by simp [parseOffset, hoff]) (not_not.2 ?_)
    intro c' off' z' hc' hoff'
    rw [hunique c' hc', hoff] at hoff'
    cases hoff'
  · have hfits : OffsetFits arg ↔ -(i32Max + 1 : Int) ≤ z ∧ z ≤ i32Max := by
      refine ⟨fun h => h c off z hc hoff hz, fun hbounds c' off' z' hc' hoff' hz' => ?_⟩
      rw [hunique c' hc', hoff] at hoff'
      cases hoff'
      rwa [hz'.unique hz]
    rw [hfits, hoff, parseOffset]
    cases hparse : Numeral.parseSigned i32Max off with
    | none =>
      refine iff_of_true rfl fun hbounds => ?_
      have := parseSigned_eq_some.2 ⟨hne, hz, hbounds⟩
      rw [hparse] at this
      cases this
    | some z' =>
      obtain ⟨-, hz', hbounds⟩ := parseSigned_eq_some.1 hparse
      rw [hz.unique hz']
      exact iff_of_false (by simp) (not_not.2 hbounds)

theorem parsePattern_panic {compiles : Text → Bool} {arg : Text} {ex : ExecutePattern} :
    parsePattern compiles arg ex = .error .panic ↔ ¬ OffsetFits arg := by
  unfold parsePattern
  cases hc : captureToMatch arg with
  | none =>
    have hfits : OffsetFits arg := by
      intro c off z hcap
      rw [captureToMatch_eq_some.2 hcap] at hc
      cases hc
    refine iff_of_false ?_ (not_not.2 hfits)
    simp only
    split <;> simp
  | some c =>
    rw [← parseOffset_panic (captureToMatch_eq_some.1 hc)]
    simp only
    rw [Fallible.bind_eq_error]
    refine or_iff_left ?_
    rintro ⟨offset, -, h⟩
    split at h <;> cases h

/-- A pattern that is read is the one that is written. -/
theorem denotes_of_parsePattern {compiles : Text → Bool} {arg : Text} {ex : ExecutePattern} {p : Pattern}
    (h : parsePattern compiles arg ex = .ok p) : Denotes arg ex p := by
  unfold parsePattern at h
  cases hc : captureToMatch arg with
  | none =>
    rw [hc] at h
    simp only at h
    split at h
    · rename_i n hn
      cases h
      obtain ⟨hd | ⟨ds, rfl, hd⟩, -⟩ := Numeral.parseUnsigned_eq_some.1 hn
      · exact .line hd
      · exact .linePlus hd
    · cases h
  | some c =>
    rw [hc] at h
    obtain ⟨offset, hoffset, h⟩ := Fallible.bind_eq_ok.1 h
    split at h
    · cases h
      obtain ⟨hne, -, off, rfl, ⟨rfl, hoff⟩ | ⟨-, -, hoff⟩⟩ := captureToMatch_eq_some.1 hc
      · rw [hoff] at hoffset
        cases hoffset
        exact .toMatch hne .none
      · rw [hoff, parseOffset] at hoffset
        split at hoffset
        · rename_i z hz
          cases hoffset
          exact .toMatch hne (parseSigned_eq_some.1 hz).2.1
        · cases hoffset
    · cases h

/-! ## All arguments -/

/-- What is left of the arguments where the loop comes to a pattern. -/
inductive Reached (compiles : Text → Bool) (args : List Text) : List Text → Prop
  | start : Reached compiles args args
  | once {arg next : Text} {rest : List Text} {p : Pattern} (h : Reached compiles args (arg :: next :: rest))
    (hnext : captureNtimes next = none) (hp : parsePattern compiles arg (.times 1) = .ok p) :
    Reached compiles args (next :: rest)
  | counted {arg next : Text} {rest : List Text} {times : Option Text} {ex : ExecutePattern} {p : Pattern}
    (h : Reached compiles args (arg :: next :: rest)) (hnext : captureNtimes next = some times)
    (hex : executeNtimes times = .ok ex) (hp : parsePattern compiles arg ex = .ok p) : Reached compiles args rest

/-- What the arguments say is what comes of them: there is no panic; just the repeat counts are taken for such; and the
patterns are those that are written, with numbers of lines that are positive and ascend. -/
structure Meets (compiles : Text → Bool) (args : List Text) : Prop where
  noPanic : getPatterns compiles args ≠ .error .panic
  counts : ∀ arg next rest, Reached compiles args (arg :: next :: rest) →
    ((captureNtimes next).isSome = true ↔ ∃ ex, Count next ex)
  written : ∀ ps, getPatterns compiles args = .ok ps →
    Written args ps ∧ (∀ n ∈ lineNumbers ps, 0 < n) ∧ (lineNumbers ps).Pairwise (· ≤ ·)

/-- What is in front fits: the offset of the pattern, and what is taken for its count. -/
def Fits : List Text → Prop
  | [] => True
  | [arg] => OffsetFits arg
  | arg :: next :: _ => OffsetFits arg ∧ CountFits next

variable {compiles : Text → Bool} {args : List Text}

theorem Fits.offset {arg : Text} {rest : List Text} (h : Fits (arg :: rest)) : OffsetFits arg := by
  cases rest with
  | nil => exact h
  | cons next rest => exact h.1

theorem Reached.trans {mid left : List Text} (h : Reached compiles args mid) (h' : Reached compiles mid left) :
    Reached compiles args left := by
  induction h' with
  | start => exact h
  | once _ hnext hp ih => exact ih.once hnext hp
  | counted _ hnext hex hp ih => exact ih.counted hnext hex hp

/-- A failure that the loop comes to is the one that is reported. -/
theorem Reached.extractPatterns_error {left : List Text} (h : Reached compiles args left) {e : Failure}
    (he : extractPatterns compiles left = .error e) : extractPatterns compiles args = .error e := by
  induction h with
  | start => exact he
  | once _ hnext hp ih =>
    apply ih
    rw [extractPatterns, hnext]
    simp only [hp, he, bind, Except.bind]
  | counted _ hnext hex hp ih =>
    apply ih
    rw [extractPatterns, hnext]
    simp only [hex, hp, he, bind, Except.bind]

/-- **Where everything fits** there is no panic, and the patterns are those that are written. -/
theorem extractPatterns_of_fits (hfits : ∀ left, Reached compiles args left → Fits left) :
    extractPatterns compiles args ≠ .error .panic ∧ ∀ ps, extractPatterns compiles args = .ok ps → Written args ps := by
  induction args using extractPatterns.induct with
  | case1 =>
    refine ⟨by simp [extractPatterns], fun ps h => ?_⟩
    cases h
    exact .nil
  | case2 arg =>
    have hoffset := (hfits _ .start).offset
    refine ⟨fun h => ?_, fun ps h => ?_⟩
    · rw [extractPatterns, Fallible.bind_eq_error] at h
      obtain h | ⟨p, -, h⟩ := h
      · exact parsePattern_panic.1 h hoffset
      · cases h
    · obtain ⟨p, hp, h⟩ := Fallible.bind_eq_ok.1 h
      cases h
      exact .once (denotes_of_parsePattern hp) (by simp) .nil
  | case3 arg next rest hnext ih =>
    have hoffset := (hfits _ .start).offset
    have hrest : ∀ p, parsePattern compiles arg (.times 1) = .ok p →
        ∀ left, Reached compiles (next :: rest) left → Fits left :=
      fun p hp left h => hfits left ((Reached.start.once hnext hp).trans h)
    refine ⟨fun h => ?_, fun ps h => ?_⟩
    · rw [extractPatterns, hnext] at h
      rcases Fallible.bind_eq_error.1 h with h | ⟨p, hp, h⟩
      · exact parsePattern_panic.1 h hoffset
      · rcases Fallible.bind_eq_error.1 h with h | ⟨ps, -, h⟩
        · exact (ih (hrest p hp)).1 h
        · cases h
    · rw [extractPatterns, hnext] at h
      obtain ⟨p, hp, h⟩ := Fallible.bind_eq_ok.1 h
      obtain ⟨ps, hps, h⟩ := Fallible.bind_eq_ok.1 h
      cases h
      refine .once (denotes_of_parsePattern hp) ?_ ((ih (hrest p hp)).2 ps hps)
      intro next' hnext' ex hcount
      cases hnext'
      have := hcount.captured
      rw [hnext] at this
      cases this
  | case4 arg next rest times hnext ih =>
    obtain ⟨hoffset, hcount⟩ := hfits _ .start
    obtain ⟨ex, hex, hwritten⟩ := executeNtimes_of_fits hcount hnext
    have hrest : ∀ p, parsePattern compiles arg ex = .ok p → ∀ left, Reached compiles rest left → Fits left :=
      fun p hp left h => hfits left ((Reached.start.counted hnext hex hp).trans h)
    refine ⟨fun h => ?_, fun ps h => ?_⟩
    · rw [extractPatterns, hnext] at h
      rcases Fallible.bind_eq_error.1 h with h | ⟨ex', hex', h⟩
      · rw [hex] at h
        cases h
      cases hex.symm.trans hex'
      rcases Fallible.bind_eq_error.1 h with h | ⟨p, hp, h⟩
      · exact parsePattern_panic.1 h hoffset
      · rcases Fallible.bind_eq_error.1 h with h | ⟨ps, -, h⟩
        · exact (ih (hrest p hp)).1 h
        · cases h
    · rw [extractPatterns, hnext] at h
      obtain ⟨ex', hex', h⟩ := Fallible.bind_eq_ok.1 h
      cases hex.symm.trans hex'
      obtain ⟨p, hp, h⟩ := Fallible.bind_eq_ok.1 h
      obtain ⟨ps, hps, h⟩ := Fallible.bind_eq_ok.1 h
      cases h
      exact .counted hwritten (denotes_of_parsePattern hp) ((ih (hrest p hp)).2 ps hps)

/-- Numbers that pass are positive and ascend from the one before. -/
theorem validateFrom_eq_ok {prev : Nat} {ns : List Nat} (h : validateFrom prev ns = .ok ()) :
    (∀ n ∈ ns, 0 < n ∧ prev ≤ n) ∧ ns.Pairwise (· ≤ ·) := by
  induction ns generalizing prev with
  | nil => exact ⟨by simp, .nil⟩
  | cons m ms ih =>
    rw [validateFrom] at h
    split at h
    · cases h
    · rename_i hm
      have hle : prev ≤ m ∧ validateFrom m ms = .ok () := by
        split at h
        · rename_i heq
          exact ⟨Nat.le_of_eq heq, heq ▸ h⟩
        · split at h
          · cases h
          · exact ⟨by omega, h⟩
      obtain ⟨hall, hsorted⟩ := ih hle.2
      refine ⟨?_, List.pairwise_cons.2 ⟨fun n hn => (hall n hn).2, hsorted⟩⟩
      intro n hn
      rcases List.mem_cons.1 hn with rfl | hn
      · exact ⟨Nat.pos_of_ne_zero hm, hle.1⟩
      · exact ⟨(hall n hn).1, Nat.le_trans hle.1 (hall n hn).2⟩

theorem validateFrom_ne_panic (prev : Nat) (ns : List Nat) : validateFrom prev ns ≠ .error .panic := by
  induction ns generalizing prev with
  | nil => simp [validateFrom]
  | cons m ms ih =>
    rw [validateFrom]
    split
    · simp
    · split
      · exact ih prev
      · split
        · simp
        · exact ih m

/-- **When `get_patterns` does what is written.** -/
theorem meets_iff (compiles : Text → Bool) (args : List Text) :
    Meets compiles args ↔ ∀ left, Reached compiles args left → Fits left := by
  constructor
  · intro h left hleft
    have hpanic : extractPatterns compiles left ≠ .error .panic := fun he => h.noPanic (by
      rw [getPatterns, hleft.extractPatterns_error he]
      rfl)
    cases left with
    | nil => trivial
    | cons arg rest =>
      cases rest with
      | nil =>
        by_contra hoffset
        refine hpanic ?_
        rw [extractPatterns, parsePattern_panic.2 hoffset]
        rfl
      | cons next rest =>
        have hcounts := h.counts arg next rest hleft
        cases hnext : captureNtimes next with
        | none =>
          refine ⟨?_, fun hsome => by rw [hnext] at hsome; cases hsome⟩
          by_contra hoffset
          refine hpanic ?_
          rw [extractPatterns, hnext]
          simp only [parsePattern_panic.2 hoffset, bind, Except.bind]
        | some times =>
          obtain ⟨ex, hcount⟩ := hcounts.1 (by rw [hnext]; rfl)
          have hfits : CountFits next := countFits_of_executeNtimes hcount fun times' htimes hex => by
            cases hnext.symm.trans htimes
            refine hpanic ?_
            rw [extractPatterns, hnext]
            simp only [hex, bind, Except.bind]
          refine ⟨?_, hfits⟩
          by_contra hoffset
          obtain ⟨ex', hex', -⟩ := executeNtimes_of_fits hfits hnext
          refine hpanic ?_
          rw [extractPatterns, hnext]
          simp only [hex', parsePattern_panic.2 hoffset, bind, Except.bind]
  · intro hfits
    obtain ⟨hpanic, hwritten⟩ := extractPatterns_of_fits hfits
    refine ⟨fun h => ?_, fun arg next rest h => ⟨fun hsome => ?_, fun ⟨_, hcount⟩ => hcount.captured⟩, fun ps h => ?_⟩
    · rcases Fallible.bind_eq_error.1 h with h | ⟨ps, -, h⟩
      · exact hpanic h
      · rcases Fallible.bind_eq_error.1 h with h | ⟨-, -, h⟩
        · exact validateFrom_ne_panic _ _ h
        · cases h
    · obtain ⟨times, htimes⟩ := Option.isSome_iff_exists.1 hsome
      obtain ⟨ex, -, hcount⟩ := executeNtimes_of_fits (hfits _ h).2 htimes
      exact ⟨ex, hcount⟩
    · obtain ⟨ps', hps, h⟩ := Fallible.bind_eq_ok.1 h
      obtain ⟨⟨⟩, hvalid, h⟩ := Fallible.bind_eq_ok.1 h
      cases h
      obtain ⟨hall, hsorted⟩ := validateFrom_eq_ok hvalid
      exact ⟨hwritten ps hps, fun n hn => (hall n hn).1, hsorted⟩

/-- `/a/9999999999` panics: its offset is no `i32`. -/
theorem offset_panics : ¬ ∀ compiles args, Meets compiles args := fun h =>
  (h (fun _ => true) [[47, 97, 47, 57, 57, 57, 57, 57, 57, 57, 57, 57, 57]]).noPanic (by decide +kernel)

/-- `{2x` is taken for a repeat count, though it is none. -/
example : getPatterns (fun _ => true) [[53], [123, 50, 120]] = .ok [.upToLine 5 (.times 3)] := by decide +kernel

end Peiosutils.Csplit
