import Mathlib.Tactic.Basic
import Peiosutils.Lib.Radix

/-!
# The sets of `tr` (`operation.rs`)

A set is read from the left, one sequence after the other: a range, a repetition, a class or a single byte, the first
that there is. Every one takes a byte at least, so that the whole set is read (`many0_item`). Warnings are left out.
-/

set_option autoImplicit false

namespace Peiosutils.Tr

abbrev Bytes := List UInt8

inductive Class where
  | alnum
  | alpha
  | blank
  | control
  | digit
  | graph
  | lower
  | print
  | punct
  | space
  | upper
  | xdigit
  deriving DecidableEq, Repr

inductive Sequence where
  | char (c : UInt8)
  | charRange (l r : UInt8)
  | charStar (c : UInt8)
  | charRepeat (c : UInt8) (n : Nat)
  | class (c : Class)
  deriving DecidableEq, Repr

/-- Texts of messages are kept as bytes. -/
inductive BadSequence where
  | missingCharClassName
  | invalidCharClass (name : Bytes)
  | missingEquivalentClassChar
  | multipleCharRepeatInSet2
  | charRepeatInSet1
  | invalidRepeatCount (count : Bytes)
  | emptySet2WhenNotTruncatingSet1
  | classExceptLowerUpperInSet2
  | classInSet2NotMatchedBySet1
  | set1LongerSet2EndsInClass
  | complementMoreThanOneUniqueInSet2
  | backwardsRange (last start : Nat)
  | multipleCharInEquivalence (chars : Bytes)
  deriving DecidableEq, Repr

/-! ## Parts of a sequence -/

abbrev Parser (α : Type) := Bytes → Option (α × Bytes)

def bytes (text : String) : Bytes := text.toList.map Char.toUInt8

def tag (text : String) : Parser Unit := fun s =>
  if (bytes text).isPrefixOf s then some ((), s.drop (bytes text).length) else none

def singleChar : Parser UInt8
  | [] => none
  | c :: rest => some (c, rest)

def takeUntil (text : Bytes) : Parser Bytes
  | [] => if text.isPrefixOf [] then some ([], []) else none
  | c :: rest =>
    if text.isPrefixOf (c :: rest) then some ([], c :: rest)
    else (takeUntil text rest).map fun r => (c :: r.1, r.2)

def isOctalDigit (b : UInt8) : Bool := 48 ≤ b && b ≤ 55

def chars (s : Bytes) : List Char := s.map fun b => Char.ofNat b.toNat

/-- Octal digits, no more than `most`, which are a byte. -/
def octalDigits (least most : Nat) : Parser UInt8 := fun s =>
  let digits := (s.take most).takeWhile isOctalDigit
  if least ≤ digits.length then
    match Radix.fromStrRadix 256 8 (chars digits) with
    | .ok n => some (UInt8.ofNat n, s.drop digits.length)
    | .error _ => none
  else none

def parseOctalUpToThreeDigits : Parser UInt8 := octalDigits 1 3

def parseOctalTwoDigits : Parser UInt8 := octalDigits 2 2

def parseOctal : Parser UInt8 := fun s => do
  let (_, s) ← tag "\\" s
  parseOctalUpToThreeDigits s

/-- Three digits that are no byte are two digits and a character. -/
def parseOctalWithWarning : Parser UInt8 := fun s => do
  let (_, s) ← tag "\\" s
  parseOctalUpToThreeDigits s <|> parseOctalTwoDigits s

def unescape (c : UInt8) : UInt8 :=
  if c = 'a'.toUInt8 then 0x7
  else if c = 'b'.toUInt8 then 0x8
  else if c = 'f'.toUInt8 then 0xC
  else if c = 'n'.toUInt8 then 0xA
  else if c = 'r'.toUInt8 then 0xD
  else if c = 't'.toUInt8 then 0x9
  else if c = 'v'.toUInt8 then 0xB
  else c

def parseBackslash : Parser UInt8 := fun s => do
  let (_, s) ← tag "\\" s
  let (c, s) ← singleChar s
  return (unescape c, s)

def parseBackslashOrChar : Parser UInt8 := fun s => parseOctal s <|> parseBackslash s <|> singleChar s

def parseBackslashOrCharWithWarning : Parser UInt8 := fun s =>
  parseOctalWithWarning s <|> parseBackslash s <|> singleChar s

/-! ## Sequences -/

abbrev Item := Except BadSequence Sequence

def parseCharRange : Parser Item := fun s => do
  let (a, s) ← parseBackslashOrChar s
  let (_, s) ← tag "-" s
  let (b, s) ← parseBackslashOrChar s
  return (if b < a then .error (.backwardsRange b.toNat a.toNat) else .ok (.charRange a b), s)

def parseCharStar : Parser Item := fun s => do
  let (_, s) ← tag "[" s
  let (c, s) ← parseBackslashOrChar s
  let (_, s) ← tag "*]" s
  return (.ok (.charStar c), s)

/-- The repetition with a count; none of it is as many as are wanted. -/
def repeated (c : UInt8) (count : Bytes) : Item :=
  match Radix.fromStrRadix 18446744073709551616 (if count.head? = some '0'.toUInt8 then 8 else 10) (chars count) with
  | .ok n => .ok (if n = 0 then .charStar c else .charRepeat c n)
  | .error _ => .error (.invalidRepeatCount count)

def parseCharRepeat : Parser Item := fun s => do
  let (_, s) ← tag "[" s
  let (c, s) ← parseBackslashOrChar s
  let (_, s) ← tag "*" s
  let count := s.takeWhile fun b => b != ']'.toUInt8 && b != '\\'.toUInt8
  let (_, s) ← tag "]" (s.drop count.length)
  return (repeated c count, s)

def classNames : List (String × Class) :=
  [("alnum", .alnum), ("alpha", .alpha), ("blank", .blank), ("cntrl", .control), ("digit", .digit), ("graph", .graph),
    ("lower", .lower), ("print", .print), ("punct", .punct), ("space", .space), ("upper", .upper), ("xdigit", .xdigit)]

def classNamed (name : Bytes) : Item :=
  if name = [] then .error .missingCharClassName
  else
    match classNames.find? fun entry => bytes entry.1 = name with
    | some entry => .ok (.class entry.2)
    | none => .error (.invalidCharClass name)

def parseClass : Parser Item := fun s => do
  let (_, s) ← tag "[:" s
  let (name, s) ← takeUntil (bytes ":]") s
  let (_, s) ← tag ":]" s
  return (classNamed name, s)

/-- The character of an equivalence class, none where it ends at once. -/
def equivalenceChar (s : Bytes) : Option (Option UInt8 × Bytes) :=
  if (bytes "=]").isPrefixOf s then some (none, s) else (parseBackslashOrChar s).map fun r => (some r.1, r.2)

def equivalence (c : Option UInt8) (others : Bytes) : Item :=
  match c with
  | none => .error .missingEquivalentClassChar
  | some c => if others = [] then .ok (.char c) else .error (.multipleCharInEquivalence (c :: others))

def parseCharEqual : Parser Item := fun s => do
  let (_, s) ← tag "[=" s
  let (c, s) ← equivalenceChar s
  let (others, s) ← takeUntil (bytes "=]") s
  let (_, s) ← tag "=]" s
  return (equivalence c others, s)

def parseChar : Parser Item := fun s => (parseBackslashOrCharWithWarning s).map fun r => (.ok (.char r.1), r.2)

def item : Parser Item := fun s =>
  parseCharRange s <|> parseCharStar s <|> parseCharRepeat s <|> parseClass s <|> parseCharEqual s <|> parseChar s

/-- One item after the other, until there is none. -/
def many0 {α : Type} (p : Parser α) : (fuel : Nat) → Bytes → List α
  | 0, _ => []
  | fuel + 1, s =>
    match p s with
    | none => []
    | some (a, rest) => a :: many0 p fuel rest

namespace Sequence

/-- The first error is the one of the set. -/
def fromStr (input : Bytes) : Except BadSequence (List Sequence) := (many0 item input.length input).mapM id

end Sequence

/-! ## Every item takes a byte -/

/-- What is left is shorter, by `k` at least. -/
def Takes {α : Type} (k : Nat) (p : Parser α) : Prop := ∀ s a rest, p s = some (a, rest) → rest.length + k ≤ s.length

section Takes

variable {α β : Type} {k : Nat} {p q : Parser α}

theorem Takes.mono {j : Nat} (h : Takes k p) (hle : j ≤ k) : Takes j p := fun s a rest hs =>
  (Nat.add_le_add_left hle _).trans (h s a rest hs)

theorem Takes.or (hp : Takes k p) (hq : Takes k q) : Takes k fun s => p s <|> q s := by
  intro s a rest h
  rcases (Option.orElse_eq_some _ _ _).1 h with h | ⟨-, h⟩
  · exact hp s a rest h
  · exact hq s a rest h

theorem Takes.map (hp : Takes k p) (f : α → β) : Takes k fun s => (p s).map fun r => (f r.1, r.2) := by
  intro s b rest h
  obtain ⟨r, hr, heq⟩ := Option.map_eq_some_iff.1 h
  cases heq
  exact hp s r.1 r.2 hr

theorem takes_tag (text : String) : Takes (bytes text).length (tag text) := by
  intro s a rest h
  rw [tag] at h
  split at h
  next hprefix =>
    cases h
    have hle := (List.isPrefixOf_iff_prefix.1 hprefix).length_le
    rw [List.length_drop]
    omega
  next => cases h

theorem takes_singleChar : Takes 1 singleChar := by
  intro s a rest h
  cases s with
  | nil => cases h
  | cons c s =>
    cases h
    exact Nat.le_refl _

theorem takes_takeUntil (text : Bytes) : Takes 0 (takeUntil text) := by
  intro s
  induction s with
  | nil =>
    intro a rest h
    rw [takeUntil] at h
    split at h <;> cases h
    exact Nat.le_refl _
  | cons c s ih =>
    intro a rest h
    rw [takeUntil] at h
    split at h
    · cases h
      exact Nat.le_refl _
    · obtain ⟨r, hr, heq⟩ := Option.map_eq_some_iff.1 h
      cases heq
      exact (ih r.1 r.2 hr).trans (Nat.le_succ _)

theorem takes_octalDigits (least most : Nat) : Takes 0 (octalDigits least most) := by
  intro s a rest h
  simp only [octalDigits, Option.ite_none_right_eq_some] at h
  obtain ⟨-, h⟩ := h
  split at h
  · cases h
    rw [List.length_drop]
    omega
  · cases h

theorem takes_parseOctal : Takes 1 parseOctal := by
  intro s a rest h
  obtain ⟨⟨_, s₁⟩, h₁, h⟩ := Option.bind_eq_some_iff.1 h
  have htag := takes_tag "\\" s _ s₁ h₁
  exact (Nat.add_le_add_right (takes_octalDigits 1 3 s₁ a rest h) 1).trans htag

theorem takes_parseOctalWithWarning : Takes 1 parseOctalWithWarning := by
  intro s a rest h
  obtain ⟨⟨_, s₁⟩, h₁, h⟩ := Option.bind_eq_some_iff.1 h
  have htag := takes_tag "\\" s _ s₁ h₁
  have hdigits := (takes_octalDigits 1 3).or (takes_octalDigits 2 2) s₁ a rest h
  exact (Nat.add_le_add_right hdigits 1).trans htag

theorem takes_parseBackslash : Takes 1 parseBackslash := by
  intro s a rest h
  obtain ⟨⟨_, s₁⟩, h₁, h⟩ := Option.bind_eq_some_iff.1 h
  obtain ⟨⟨c, s₂⟩, h₂, h⟩ := Option.bind_eq_some_iff.1 h
  cases h
  have htag := (takes_tag "\\").mono (Nat.zero_le _) s _ s₁ h₁
  exact (takes_singleChar s₁ c rest h₂).trans htag

theorem takes_parseBackslashOrChar : Takes 1 parseBackslashOrChar :=
  takes_parseOctal.or (takes_parseBackslash.or takes_singleChar)

theorem takes_parseBackslashOrCharWithWarning : Takes 1 parseBackslashOrCharWithWarning :=
  takes_parseOctalWithWarning.or (takes_parseBackslash.or takes_singleChar)

theorem takes_parseCharRange : Takes 1 parseCharRange := by
  intro s r rest h
  obtain ⟨⟨a, s₁⟩, h₁, h⟩ := Option.bind_eq_some_iff.1 h
  obtain ⟨⟨_, s₂⟩, h₂, h⟩ := Option.bind_eq_some_iff.1 h
  obtain ⟨⟨b, s₃⟩, h₃, h⟩ := Option.bind_eq_some_iff.1 h
  cases h
  have hfirst := takes_parseBackslashOrChar s a s₁ h₁
  have htag := (takes_tag "-").mono (Nat.zero_le _) s₁ _ s₂ h₂
  have hlast := takes_parseBackslashOrChar.mono (Nat.zero_le 1) s₂ b rest h₃
  exact (Nat.add_le_add_right (hlast.trans htag) 1).trans hfirst

theorem takes_parseCharStar : Takes 1 parseCharStar := by
  intro s r rest h
  obtain ⟨⟨_, s₁⟩, h₁, h⟩ := Option.bind_eq_some_iff.1 h
  obtain ⟨⟨c, s₂⟩, h₂, h⟩ := Option.bind_eq_some_iff.1 h
  obtain ⟨⟨_, s₃⟩, h₃, h⟩ := Option.bind_eq_some_iff.1 h
  cases h
  have hopen := takes_tag "[" s _ s₁ h₁
  have hchar := takes_parseBackslashOrChar.mono (Nat.zero_le 1) s₁ c s₂ h₂
  have hclose := (takes_tag "*]").mono (Nat.zero_le _) s₂ _ rest h₃
  exact (Nat.add_le_add_right (hclose.trans hchar) 1).trans hopen

theorem takes_parseCharRepeat : Takes 1 parseCharRepeat := by
  intro s r rest h
  obtain ⟨⟨_, s₁⟩, h₁, h⟩ := Option.bind_eq_some_iff.1 h
  obtain ⟨⟨c, s₂⟩, h₂, h⟩ := Option.bind_eq_some_iff.1 h
  obtain ⟨⟨_, s₃⟩, h₃, h⟩ := Option.bind_eq_some_iff.1 h
  obtain ⟨⟨_, s₄⟩, h₄, h⟩ := Option.bind_eq_some_iff.1 h
  cases h
  have hopen := takes_tag "[" s _ s₁ h₁
  have hchar := takes_parseBackslashOrChar.mono (Nat.zero_le 1) s₁ c s₂ h₂
  have hstar := (takes_tag "*").mono (Nat.zero_le _) s₂ _ s₃ h₃
  have hclose := (takes_tag "]").mono (Nat.zero_le _) _ _ rest h₄
  have hcount := (List.drop_sublist (s₃.takeWhile fun b => b != ']'.toUInt8 && b != '\\'.toUInt8).length s₃).length_le
  exact (Nat.add_le_add_right (hclose.trans (hcount.trans (hstar.trans hchar))) 1).trans hopen

theorem takes_parseClass : Takes 1 parseClass := by
  intro s r rest h
  obtain ⟨⟨_, s₁⟩, h₁, h⟩ := Option.bind_eq_some_iff.1 h
  obtain ⟨⟨name, s₂⟩, h₂, h⟩ := Option.bind_eq_some_iff.1 h
  obtain ⟨⟨_, s₃⟩, h₃, h⟩ := Option.bind_eq_some_iff.1 h
  cases h
  have hopen := (takes_tag "[:").mono (Nat.le_succ 1) s _ s₁ h₁
  have hname := takes_takeUntil _ s₁ name s₂ h₂
  have hclose := (takes_tag ":]").mono (Nat.zero_le _) s₂ _ rest h₃
  exact (Nat.add_le_add_right (hclose.trans hname) 1).trans hopen

theorem takes_equivalenceChar : Takes 0 equivalenceChar := by
  intro s a rest h
  rw [equivalenceChar] at h
  split at h
  · cases h
    exact Nat.le_refl _
  · exact (takes_parseBackslashOrChar.mono (Nat.zero_le 1)).map some s a rest h

theorem takes_parseCharEqual : Takes 1 parseCharEqual := by
  intro s r rest h
  obtain ⟨⟨_, s₁⟩, h₁, h⟩ := Option.bind_eq_some_iff.1 h
  obtain ⟨⟨c, s₂⟩, h₂, h⟩ := Option.bind_eq_some_iff.1 h
  obtain ⟨⟨others, s₃⟩, h₃, h⟩ := Option.bind_eq_some_iff.1 h
  obtain ⟨⟨_, s₄⟩, h₄, h⟩ := Option.bind_eq_some_iff.1 h
  cases h
  have hopen := (takes_tag "[=").mono (Nat.le_succ 1) s _ s₁ h₁
  have hchar := takes_equivalenceChar s₁ c s₂ h₂
  have hothers := takes_takeUntil _ s₂ others s₃ h₃
  have hclose := (takes_tag "=]").mono (Nat.zero_le _) s₃ _ rest h₄
  exact (Nat.add_le_add_right (hclose.trans (hothers.trans hchar)) 1).trans hopen

theorem takes_parseChar : Takes 1 parseChar :=
  takes_parseBackslashOrCharWithWarning.map fun c => Except.ok (Sequence.char c)

theorem takes_item : Takes 1 item :=
  takes_parseCharRange.or <| takes_parseCharStar.or <| takes_parseCharRepeat.or <| takes_parseClass.or <|
    takes_parseCharEqual.or takes_parseChar

/-- There is an item where there is a byte. -/
theorem item_cons (c : UInt8) (s : Bytes) : ∃ r, item (c :: s) = some r := by
  have hchar : ∃ r, parseChar (c :: s) = some r := by
    rw [parseChar, parseBackslashOrCharWithWarning]
    cases parseOctalWithWarning (c :: s) <;> cases parseBackslash (c :: s) <;> exact ⟨_, rfl⟩
  obtain ⟨r, hr⟩ := hchar
  rw [item, hr]
  cases parseCharRange (c :: s) <;> cases parseCharStar (c :: s) <;> cases parseCharRepeat (c :: s) <;>
    cases parseClass (c :: s) <;> cases parseCharEqual (c :: s) <;> exact ⟨_, rfl⟩

theorem many0_nil (hp : Takes 1 p) (fuel : Nat) : many0 p fuel [] = [] := by
  cases fuel with
  | zero => rfl
  | succ fuel =>
    cases h : p [] with
    | none => rw [many0, h]
    | some r => exact absurd (hp [] r.1 r.2 h) (Nat.not_succ_le_zero _)

/-- More fuel than there are bytes makes no difference. -/
theorem many0_fuel (hp : Takes 1 p) (fuel : Nat) :
    ∀ (fuel' : Nat) (s : Bytes), s.length ≤ fuel → s.length ≤ fuel' → many0 p fuel s = many0 p fuel' s := by
  induction fuel with
  | zero =>
    intro fuel' s hs _
    rw [List.length_eq_zero_iff.1 (Nat.le_zero.1 hs), many0_nil hp, many0_nil hp]
  | succ fuel ih =>
    intro fuel' s hs hs'
    cases fuel' with
    | zero => rw [List.length_eq_zero_iff.1 (Nat.le_zero.1 hs'), many0_nil hp, many0_nil hp]
    | succ fuel' =>
      rw [many0, many0]
      cases h : p s with
      | none => rfl
      | some r =>
        have hrest := hp s r.1 r.2 h
        exact congrArg (r.1 :: ·) (ih fuel' r.2 (by omega) (by omega))

end Takes

/-- A set is read to its end. -/
theorem many0_item (c : UInt8) (s : Bytes) :
    ∃ a rest, item (c :: s) = some (a, rest) ∧ rest.length ≤ s.length ∧
      many0 item (c :: s).length (c :: s) = a :: many0 item rest.length rest := by
  obtain ⟨⟨a, rest⟩, h⟩ := item_cons c s
  have hrest : rest.length + 1 ≤ s.length + 1 := takes_item _ a rest h
  refine ⟨a, rest, h, by omega, ?_⟩
  rw [List.length_cons, many0, h]
  exact congrArg (a :: ·) (many0_fuel takes_item _ _ rest (by omega) (Nat.le_refl _))

end Peiosutils.Tr
