import Mathlib.Algebra.Ring.Int.Defs
import Peiosutils.Lib.Fallible
import Peiosutils.Lib.Radix

/-!
# Numbers (`num_parser.rs`)

One scanner reads integers in four bases and decimal numbers with a fraction and an exponent, after a sign. Digits are
collected in a machine word, fifteen at a time, before they are added to the number. What does not fit a machine word is
a panic (none).

Numbers of any size are Lean's. A `BigDecimal` is its digits with a scale; the value of a hexadecimal one with a fraction
or an exponent is a parameter.
-/

set_option autoImplicit false

namespace Peiosutils.NumParser

abbrev Str := List Char

/-- One more than the largest `u64`. -/
def u64Limit : Nat := 18446744073709551616

/-- One more than the largest `i64`. -/
def i64Limit : Nat := 9223372036854775808

/-- One more than the largest `u32`. -/
def u32Limit : Nat := 4294967296

def inI64 (n : Int) : Prop := -i64Limit ≤ n ∧ n < i64Limit

instance (n : Int) : Decidable (inI64 n) := inferInstanceAs (Decidable (_ ∧ _))

/-! ## Digits -/

inductive Base where
  | binary
  | octal
  | decimal
  | hexadecimal
  deriving DecidableEq, Repr

namespace Base

def radix : Base → Nat
  | binary => 2
  | octal => 8
  | decimal => 10
  | hexadecimal => 16

def fromDecimal (c : Char) : Nat := c.toNat - '0'.toNat

def digit : Base → Char → Option Nat
  | binary, c => if '0' ≤ c ∧ c ≤ '1' then some (fromDecimal c) else none
  | octal, c => if '0' ≤ c ∧ c ≤ '7' then some (fromDecimal c) else none
  | decimal, c => if c.isDigit then some (fromDecimal c) else none
  | hexadecimal, c =>
    let lower := c.toLower
    if '0' ≤ lower ∧ lower ≤ '9' then some (fromDecimal c)
    else if 'a' ≤ lower ∧ lower ≤ 'f' then some (lower.toNat - 'a'.toNat + 10)
    else none

/-- What was read so far: the number with its digits, and the digits that were not added yet with their number and the
power of the base. -/
structure Accumulator where
  digits : Option Nat
  count : Nat
  digitsTmp : Nat
  countTmp : Nat
  mulTmp : Nat

def Accumulator.start (digits : Option Nat) : Accumulator := ⟨digits, 0, 0, 0, 1⟩

/-- Adds the digits that were not added yet. -/
def Accumulator.flush (a : Accumulator) : Option Accumulator := do
  let count ← Checked.add i64Limit a.count a.countTmp
  return .mk (some (a.digits.getD 0 * a.mulTmp + a.digitsTmp)) count 0 0 1

def Accumulator.push (base : Base) (a : Accumulator) (d : Nat) : Option Accumulator := do
  let product ← Checked.mul u64Limit a.digitsTmp base.radix
  let digitsTmp ← Checked.add u64Limit product d
  let mulTmp ← Checked.mul u64Limit a.mulTmp base.radix
  let a' : Accumulator := ⟨a.digits, a.count, digitsTmp, a.countTmp + 1, mulTmp⟩
  if 15 ≤ a'.countTmp then a'.flush else return a'

/-- The digits, their count and the rest. -/
def finish (a : Accumulator) (rest : Str) : Option (Option Nat × Nat × Str) :=
  if 1 < a.mulTmp then do
    let a ← a.flush
    return (a.digits, a.count, rest)
  else some (a.digits, a.count, rest)

def readDigits (base : Base) (a : Accumulator) : Str → Option (Option Nat × Nat × Str)
  | [] => finish a []
  | c :: rest =>
    match base.digit c with
    | none => finish a (c :: rest)
    | some d => do
      let a ← a.push base d
      readDigits base a rest

def parseDigitsCount (base : Base) (s : Str) (digits : Option Nat) : Option (Option Nat × Nat × Str) :=
  base.readDigits (.start digits) s

def parseDigits (base : Base) (s : Str) : Option (Option Nat × Str) := do
  let (digits, _, rest) ← base.parseDigitsCount s none
  return (digits, rest)

end Base

/-! ## Results -/

inductive ExtendedParserError (α : Type) where
  | notNumeric
  | partialMatch (value : α) (rest : Str)
  | overflow (value : α)
  | underflow (value : α)
  deriving DecidableEq, Repr

namespace ExtendedParserError

variable {α β : Type}

def extract (zero : α) : ExtendedParserError α → α
  | notNumeric => zero
  | partialMatch value _ => value
  | overflow value => value
  | underflow value => value

/-- The value of a result, also of an error. -/
def extractResult (zero : α) : Except (ExtendedParserError α) α → α
  | .ok value => value
  | .error e => e.extract zero

/-- This error takes precedence over one of the conversion. -/
def map (zero : β) (f : α → Option (Except (ExtendedParserError β) β)) :
    ExtendedParserError α → Option (ExtendedParserError β)
  | notNumeric => some .notNumeric
  | partialMatch value rest => (f value).map fun r => .partialMatch (extractResult zero r) rest
  | overflow value => (f value).map fun r => .overflow (extractResult zero r)
  | underflow value => (f value).map fun r => .underflow (extractResult zero r)

end ExtendedParserError

/-- `digits` times ten to the power of `-scale`. -/
structure BigDecimal where
  digits : Int
  scale : Int
  deriving DecidableEq, Repr

inductive ExtendedBigDecimal where
  | bigDecimal (bd : BigDecimal)
  | infinity
  | minusInfinity
  | minusZero
  | nan
  | minusNan
  deriving DecidableEq, Repr

namespace ExtendedBigDecimal

def zero : ExtendedBigDecimal := .bigDecimal ⟨0, 0⟩

def neg : ExtendedBigDecimal → ExtendedBigDecimal
  | bigDecimal bd => if bd.digits = 0 then minusZero else bigDecimal { bd with digits := -bd.digits }
  | minusZero => zero
  | infinity => minusInfinity
  | minusInfinity => infinity
  | nan => minusNan
  | minusNan => nan

end ExtendedBigDecimal

abbrev ParseResult := Except (ExtendedParserError ExtendedBigDecimal) ExtendedBigDecimal

/-! ## Parts of a number -/

/-- The integral part, and the fraction if there may be one: digits, scale and rest. -/
def parseDigits (base : Base) (s : Str) (fractional : Bool) : Option (Option Nat × Nat × Str) := do
  let (digits, rest) ← base.parseDigits s
  if fractional then
    match rest with
    | '.' :: rest => base.parseDigitsCount rest digits
    | _ => return (digits, 0, rest)
  else return (digits, 0, rest)

/-- The marks of an exponent; for other bases there is none. -/
def expChars : Base → Option (List Char)
  | .decimal => some ['e', 'E']
  | .hexadecimal => some ['p', 'P']
  | _ => none

/-- The sign of an exponent, and what is behind it. -/
def exponentSign : Str → Bool × Str
  | '-' :: rest => (true, rest)
  | '+' :: rest => (false, rest)
  | rest => (false, rest)

/-- An exponent with digits; otherwise nothing is read. -/
def parseExponent (base : Base) (s : Str) : Option (Option Int × Str) := do
  let chars ← expChars base
  match s with
  | [] => return (none, s)
  | c :: rest =>
    if c ∈ chars then
      let (negative, rest) := exponentSign rest
      let (digits, rest) ← Base.decimal.parseDigits rest
      match digits with
      | some n => return (some (if negative then -(n : Int) else n), rest)
      | none => return (none, s)
    else return (none, s)

def parseSuffixMultiplier (s : Str) (allowedSuffixes : List (Char × Nat)) : Nat × Str :=
  match s with
  | [] => (1, s)
  | c :: rest =>
    match allowedSuffixes.lookup c with
    | some mul => (mul, rest)
    | none => (1, s)

/-- Texts with the value when the sign is positive. -/
def matchTable : List (Str × ExtendedBigDecimal) :=
  [("infinity".toList, .infinity), ("inf".toList, .infinity), ("nan".toList, .nan)]

def parseSpecialValue (input : Str) (negative : Bool) (allowedSuffixes : List (Char × Nat)) : ParseResult :=
  match matchTable.find? fun entry => entry.1.isPrefixOf (input.map Char.toLower) with
  | some (text, ebd) =>
    let special := if negative then ebd.neg else ebd
    let rest := (parseSuffixMultiplier (input.drop text.length) allowedSuffixes).2
    if rest.isEmpty then .ok special else .error (.partialMatch special rest)
  | none => .error .notNumeric

/-- An error with zero or infinity. -/
def makeError (overflow negative : Bool) : ExtendedParserError ExtendedBigDecimal :=
  let v := if overflow then .infinity else .zero
  let v := if negative then v.neg else v
  if overflow then .overflow v else .underflow v

section Parse

variable (hexValue : Int → Nat → Int → BigDecimal)

def constructExtendedBigDecimal (digits : Nat) (negative : Bool) (base : Base) (scale : Nat) (exponent : Int) :
    Option ParseResult :=
  if digits = 0 then some (.ok (if negative then .minusZero else .zero))
  else
    let signedDigits : Int := if negative then -(digits : Int) else digits
    if scale = 0 ∧ exponent = 0 then some (.ok (.bigDecimal ⟨signedDigits, 0⟩))
    else if base = .decimal then
      if exponent = 0 then some (.ok (.bigDecimal ⟨signedDigits, scale⟩))
      else
        let newScale := -exponent + scale
        if inI64 newScale then some (.ok (.bigDecimal ⟨signedDigits, newScale⟩))
        else some (.error (makeError (newScale < 0) negative))
    else if base = .hexadecimal then
      if u32Limit ≤ scale then some (.error .notNumeric)
      else if inI64 exponent then some (.ok (.bigDecimal (hexValue signedDigits scale exponent)))
      else some (.error (makeError (0 < exponent) negative))
    else none

inductive ParseTarget where
  | decimal
  | integral
  | duration
  deriving DecidableEq, Repr

/-- `char::is_ascii_whitespace`. -/
def isAsciiWhitespace (c : Char) : Bool := c = ' ' || c = '\t' || c = '\n' || c = '\x0c' || c = '\r'

/-- The sign, and what is behind it. -/
def splitSign : Str → Bool × Str
  | '-' :: rest => (true, rest)
  | '+' :: rest => (false, rest)
  | rest => (false, rest)

/-- The base, and what is behind its prefix; the zero of an octal number is read as a digit. -/
def splitBase (target : ParseTarget) (unsigned : Str) : Base × Str :=
  match unsigned with
  | '0' :: rest =>
    match rest with
    | c :: rest' =>
      if c = 'x' ∨ c = 'X' then (.hexadecimal, rest')
      else if target = .integral then
        if c = 'b' ∨ c = 'B' then (.binary, rest') else (.octal, unsigned)
      else (.decimal, unsigned)
    | [] => if target = .integral then (.octal, unsigned) else (.decimal, unsigned)
  | _ => (.decimal, unsigned)

/-- The exponent of a number that may have one. -/
def exponentIf (allowed : Bool) (base : Base) (s : Str) : Option (Option Int × Str) :=
  if allowed then parseExponent base s else some (none, s)

/-- Without a digit: a prefix without a number, a special value or nothing. -/
def withoutDigits (target : ParseTarget) (allowedSuffixes : List (Char × Nat)) (negative : Bool) (unsigned : Str) :
    ParseResult :=
  match unsigned with
  | '0' :: rest => .error (.partialMatch (if negative then .minusZero else .zero) rest)
  | _ =>
    if target = .integral then .error .notNumeric else parseSpecialValue unsigned negative allowedSuffixes

def parse (input : Str) (target : ParseTarget) (allowedSuffixes : List (Char × Nat)) : Option ParseResult := do
  let (negative, unsigned) := splitSign (input.dropWhile isAsciiWhitespace)
  let (base, rest) := splitBase target unsigned
  let parseFracExp : Bool := (base = .decimal ∨ base = .hexadecimal) ∧ target ≠ .integral
  let (digits, scale, rest) ← parseDigits base rest parseFracExp
  let (exponent, rest) ← exponentIf parseFracExp base rest
  match digits with
  | none => return withoutDigits target allowedSuffixes negative unsigned
  | some digits =>
    let (mul, rest) := parseSuffixMultiplier rest allowedSuffixes
    let result ← constructExtendedBigDecimal hexValue (digits * mul) negative base scale (exponent.getD 0)
    if rest.isEmpty then return result
    else return .error (.partialMatch (ExtendedParserError.extractResult .zero result) rest)

/-! ## Targets -/

def intoI64 : ExtendedBigDecimal → Option (Except (ExtendedParserError Int) Int)
  | .bigDecimal bd =>
    if bd.scale = 0 then
      if inI64 bd.digits then some (.ok bd.digits)
      else some (.error (.overflow (if bd.digits < 0 then -i64Limit else i64Limit - 1)))
    else some (.error .notNumeric)
  | .minusZero => some (.ok 0)
  | _ => some (.error .notNumeric)

/-- A negative number is `!i + 1`. -/
def intoU64 : ExtendedBigDecimal → Option (Except (ExtendedParserError Nat) Nat)
  | .bigDecimal bd =>
    if bd.scale = 0 then
      if bd.digits.natAbs < u64Limit then
        if bd.digits < 0 then (Checked.add u64Limit (u64Limit - 1 - bd.digits.natAbs) 1).map .ok
        else some (.ok bd.digits.natAbs)
      else some (.error (.overflow (u64Limit - 1)))
    else some (.error .notNumeric)
  | .minusZero => some (.ok 0)
  | _ => some (.error .notNumeric)

/-- The integer of a type that a conversion makes. -/
def parseInteger {α : Type} (zero : α) (into : ExtendedBigDecimal → Option (Except (ExtendedParserError α) α))
    (input : Str) : Option (Except (ExtendedParserError α) α) := do
  match ← parse hexValue input .integral [] with
  | .ok v => into v
  | .error e => return .error (← e.map zero into)

def extendedParseI64 (input : Str) : Option (Except (ExtendedParserError Int) Int) :=
  parseInteger hexValue 0 intoI64 input

def extendedParseU64 (input : Str) : Option (Except (ExtendedParserError Nat) Nat) :=
  parseInteger hexValue 0 intoU64 input

def extendedParseBigDecimal (input : Str) : Option ParseResult := parse hexValue input .decimal []

end Parse

end Peiosutils.NumParser

/-!
# The digits of a number

The machine word that collects digits never overflows, and collecting them fifteen at a time makes the number that their
list has (`parseDigitsCount_eq`).
-/

namespace Peiosutils.NumParser.Base

/-! ## Digits of a base -/

theorem le_iff (a c : Char) : a ≤ c ↔ a.toNat ≤ c.toNat := by
  rw [Char.le_def, UInt32.le_iff_toNat_le]
  rfl

theorem toNat_toLower (c : Char) :
    c.toLower.toNat = if 65 ≤ c.toNat ∧ c.toNat ≤ 90 then c.toNat + 32 else c.toNat := by
  delta Char.toLower
  split
  next h =>
    rw [ge_iff_le, UInt32.le_iff_toNat_le, UInt32.le_iff_toNat_le] at h
    have hle : 65 ≤ c.toNat := h.1
    have hge : c.toNat ≤ 90 := h.2
    rw [if_pos ⟨hle, hge⟩]
    show (c.val + _).toNat = _
    rw [UInt32.toNat_add]
    show (c.toNat + 32) % _ = _
    omega
  next h =>
    rw [if_neg]
    rintro ⟨hle, hge⟩
    exact h ⟨UInt32.le_iff_toNat_le.2 hle, UInt32.le_iff_toNat_le.2 hge⟩

theorem digit_eq (base : Base) (c : Char) : base.digit c = Radix.digit base.radix c := by
  have h0 : ('0').toNat = 48 := rfl
  have h1 : ('1').toNat = 49 := rfl
  have h7 : ('7').toNat = 55 := rfl
  have h9 : ('9').toNat = 57 := rfl
  have ha : ('a').toNat = 97 := rfl
  have hf : ('f').toNat = 102 := rfl
  cases base with
  | binary =>
    simp only [digit, Radix.digit, radix, le_iff, fromDecimal, h0, h1]
    split_ifs <;> first | rfl | omega
  | octal =>
    simp only [digit, Radix.digit, radix, le_iff, fromDecimal, h0, h7]
    split_ifs <;> first | rfl | omega
  | decimal =>
    simp only [digit, Radix.digit, radix, Char.isDigit, fromDecimal, h0, Bool.and_eq_true, decide_eq_true_eq,
      ge_iff_le, UInt32.le_iff_toNat_le]
    show (if 48 ≤ c.toNat ∧ c.toNat ≤ 57 then _ else _) = _
    split_ifs <;> first | rfl | omega
  | hexadecimal =>
    simp only [digit, Radix.digit, radix, le_iff, fromDecimal, h0, h9, ha, hf, toNat_toLower]
    split_ifs <;> first | rfl | omega | (congr 1; omega)

theorem two_le_radix (base : Base) : 2 ≤ base.radix := by cases base <;> decide

theorem radix_le (base : Base) : base.radix ≤ 16 := by cases base <;> decide

/-! ## Digits that were not added yet -/

variable {base : Base} {a : Accumulator}

structure Good (base : Base) (a : Accumulator) : Prop where
  mul : a.mulTmp = base.radix ^ a.countTmp
  lt : a.digitsTmp < a.mulTmp
  few : a.countTmp < 15

/-- The number read so far. -/
def Accumulator.total (a : Accumulator) : Nat := a.digits.getD 0 * a.mulTmp + a.digitsTmp

def Accumulator.size (a : Accumulator) : Nat := a.count + a.countTmp

/-- The number read so far if a digit was read. -/
def Accumulator.result (a : Accumulator) : Option Nat :=
  if a.digits = none ∧ a.countTmp = 0 then none else some a.total

theorem good_start (base : Base) (digits : Option Nat) : Good base (.start digits) :=
  ⟨(Nat.pow_zero _).symm, Nat.zero_lt_one, Nat.succ_pos 14⟩

theorem total_start (digits : Option Nat) : (Accumulator.start digits).total = digits.getD 0 :=
  Nat.mul_one _

theorem result_start (digits : Option Nat) : (Accumulator.start digits).result = digits := by
  cases digits with
  | none => rfl
  | some n => exact congrArg some (total_start (some n))

theorem flush_eq (hsize : a.size < i64Limit) : a.flush = some ⟨some a.total, a.size, 0, 0, 1⟩ := by
  rw [Accumulator.flush, Checked.bind_of_eq (Checked.add_of_lt hsize)]
  rfl

theorem finish_eq (h : Good base a) (hsize : a.size < i64Limit) (rest : Str) :
    finish a rest = some (a.result, a.size, rest) := by
  rw [finish]
  by_cases hempty : a.countTmp = 0
  · have hmul : a.mulTmp = 1 := by rw [h.mul, hempty, Nat.pow_zero]
    have hzero : a.digitsTmp = 0 := by
      have := h.lt
      omega
    rw [if_neg (by omega), Accumulator.size, hempty, Nat.add_zero, Accumulator.result, Accumulator.total, hmul, hzero]
    cases hdigits : a.digits with
    | none => simp [hempty]
    | some n => simp
  · have hmul : 1 < a.mulTmp := by
      rw [h.mul]
      exact Nat.one_lt_pow hempty (two_le_radix base)
    rw [if_pos hmul, Checked.bind_of_eq (flush_eq hsize), Accumulator.result, if_neg fun hand => hempty hand.2]
    rfl

theorem pow_le_of_le (base : Base) {k : Nat} (hk : k ≤ 15) : base.radix ^ k ≤ 16 ^ 15 :=
  Nat.le_trans (Nat.pow_le_pow_left (radix_le base) k) (Nat.pow_le_pow_right (by decide) hk)

/-- One digit more. -/
theorem push_eq (h : Good base a) {d : Nat} (hd : d < base.radix) (hsize : a.size + 1 < i64Limit) :
    ∃ a', a.push base d = some a' ∧ Good base a' ∧ a'.total = a.total * base.radix + d ∧ a'.size = a.size + 1 ∧
      a'.result = some a'.total := by
  have hlt : a.digitsTmp * base.radix + d < base.radix ^ (a.countTmp + 1) := by
    rw [Nat.pow_succ, ← h.mul]
    calc a.digitsTmp * base.radix + d < a.digitsTmp * base.radix + base.radix := Nat.add_lt_add_left hd _
      _ = (a.digitsTmp + 1) * base.radix := (Nat.succ_mul _ _).symm
      _ ≤ a.mulTmp * base.radix := Nat.mul_le_mul_right _ h.lt
  have hword : base.radix ^ (a.countTmp + 1) < u64Limit :=
    Nat.lt_of_le_of_lt (pow_le_of_le base h.few) (by decide +kernel)
  have hmul : a.mulTmp * base.radix = base.radix ^ (a.countTmp + 1) := by rw [h.mul, Nat.pow_succ]
  rw [Accumulator.push, Checked.bind_of_eq (Checked.mul_of_lt (by omega)),
    Checked.bind_of_eq (Checked.add_of_lt (by omega)), Checked.bind_of_eq (Checked.mul_of_lt (by omega))]
  let a' : Accumulator := ⟨a.digits, a.count, a.digitsTmp * base.radix + d, a.countTmp + 1, a.mulTmp * base.radix⟩
  have htotal : a'.total = a.total * base.radix + d := by
    show a.digits.getD 0 * (a.mulTmp * base.radix) + (a.digitsTmp * base.radix + d) = _
    rw [Accumulator.total, Nat.add_mul, Nat.mul_assoc, Nat.add_assoc]
  have hsize' : a'.size = a.size + 1 := (Nat.add_assoc _ _ _).symm
  by_cases hfull : 15 ≤ a'.countTmp
  · refine ⟨⟨some a'.total, a'.size, 0, 0, 1⟩, ?_, ⟨(Nat.pow_zero _).symm, Nat.zero_lt_one, Nat.succ_pos 14⟩, ?_, hsize',
      rfl⟩
    · show (if 15 ≤ a'.countTmp then a'.flush else some a') = _
      rw [if_pos hfull, flush_eq (by omega)]
    · rw [← htotal]
      exact Nat.mul_one _
  · refine ⟨a', ?_, ⟨hmul, by rw [← hmul] at hlt; exact hlt, by omega⟩, htotal, hsize', ?_⟩
    · show (if 15 ≤ a'.countTmp then a'.flush else some a') = _
      rw [if_neg hfull]
    · exact if_neg fun hand => absurd hand.2 (Nat.succ_ne_zero _)

/-! ## Digits at the front -/

theorem readDigits_eq (base : Base) {ds rest : Str} {n : Nat} (h : Good base a)
    (hvalue : Radix.value base.radix a.total ds = some n) (hrest : ∀ c ∈ rest.head?, Radix.isDigit base.radix c = false)
    (hsize : a.size + ds.length < i64Limit) :
    base.readDigits a (ds ++ rest) = some (if ds = [] then a.result else some n, a.size + ds.length, rest) := by
  induction ds generalizing a with
  | nil =>
    have hfinish : base.readDigits a rest = finish a rest := by
      cases rest with
      | nil => rfl
      | cons c rest =>
        have hc : base.digit c = none := by
          rw [digit_eq]
          simpa [Radix.isDigit] using hrest c rfl
        simp only [readDigits, hc]
    exact hfinish.trans (finish_eq h hsize rest)
  | cons c ds ih =>
    cases hc : Radix.digit base.radix c with
    | none =>
      rw [Radix.value_cons_none hc] at hvalue
      cases hvalue
    | some d =>
      rw [Radix.value_cons_some hc] at hvalue
      rw [List.length_cons] at hsize
      obtain ⟨a', hpush, hgood, htotal, hsize', hresult⟩ := push_eq h (Radix.digit_lt hc) (by omega)
      have hread := ih hgood (by rw [htotal]; exact hvalue) (by omega)
      simp only [List.cons_append, readDigits, digit_eq, hc, Checked.bind_of_eq hpush, hread, hsize']
      have hsome : (if ds = [] then a'.result else some n) = some n := by
        split
        next hnil =>
          subst hnil
          rw [hresult, ← Option.some.inj hvalue, htotal]
        next => rfl
      rw [hsome, if_neg (List.cons_ne_nil c ds), List.length_cons, Nat.add_assoc, Nat.add_comm 1]

/-- What digits add to a number read before, if there was one. -/
def readOn (radix : Nat) (digits : Option Nat) (ds : Str) : Option Nat :=
  if ds = [] then digits else Radix.value radix (digits.getD 0) ds

theorem parseDigitsCount_eq (base : Base) {s : Str} (hs : s.length < i64Limit) (digits : Option Nat) :
    let ds := s.takeWhile (Radix.isDigit base.radix)
    base.parseDigitsCount s digits =
      some (readOn base.radix digits ds, ds.length, s.dropWhile (Radix.isDigit base.radix)) := by
  intro ds
  obtain ⟨n, hn⟩ := Radix.exists_value_takeWhile base.radix (digits.getD 0) s
  have hlen : ds.length ≤ s.length := (List.takeWhile_sublist _).length_le
  have hsize : (Accumulator.start digits).size + ds.length < i64Limit := by
    show 0 + 0 + ds.length < _
    omega
  have hread := readDigits_eq base (good_start base digits) (total_start digits ▸ hn)
    (Radix.head_dropWhile (Radix.isDigit base.radix) s) hsize
  rw [List.takeWhile_append_dropWhile, result_start] at hread
  rw [parseDigitsCount, hread, readOn, hn]
  simp only [Accumulator.size, Accumulator.start, Nat.zero_add]

end Peiosutils.NumParser.Base
