import Mathlib.Algebra.Order.Field.Rat
import Peiosutils.Uucore.NumDecimal

/-!
# What `extended_parse` reads

The parser reads what the plain scanners read (`parse_integral`, `parse_decimal`), so it reads the longest text at the
front of its input, and its result is the number of this text if it fits (`extendedParse_reads`).
-/

set_option autoImplicit false

namespace Peiosutils.NumParser

open Scanning (Scanner Longest)

variable {hexValue : Int → Nat → Int → BigDecimal}

/-! ## Parts of a number -/

theorem length_lt_of_le {s t : Str} (ht : t.length < i64Limit) (h : s.length ≤ t.length) : s.length < i64Limit :=
  Nat.lt_of_le_of_lt h ht

theorem baseParseDigits_eq (base : Base) {s : Str} (hs : s.length < i64Limit) :
    base.parseDigits s = some (Base.readOn base.radix none (s.takeWhile (Radix.isDigit base.radix)),
      s.dropWhile (Radix.isDigit base.radix)) := by
  rw [Base.parseDigits, Checked.bind_of_eq (Base.parseDigitsCount_eq base hs none)]
  rfl

theorem parseDigits_integral (base : Base) {s : Str} (hs : s.length < i64Limit) :
    parseDigits base s false = some (Base.readOn base.radix none (s.takeWhile (Radix.isDigit base.radix)), 0,
      s.dropWhile (Radix.isDigit base.radix)) := by
  rw [parseDigits, Checked.bind_of_eq (baseParseDigits_eq base hs)]
  rfl

/-- Digits behind digits. -/
theorem readOn_readOn (ds fs : Str) {n : Nat} (h : Radix.value 10 0 (ds ++ fs) = some n) :
    Base.readOn 10 (Base.readOn 10 none ds) fs = Base.readOn 10 none (ds ++ fs) := by
  rw [Radix.value_append] at h
  obtain ⟨m, hm, hn⟩ := Option.bind_eq_some_iff.1 h
  by_cases hds : ds = []
  · rw [hds]
    rfl
  · have hread : Base.readOn 10 none ds = some m := readOn_none.2 ⟨hds, hm⟩
    have hwhole : Base.readOn 10 none (ds ++ fs) = some n :=
      readOn_none.2 ⟨fun hnil => hds (List.append_eq_nil_iff.1 hnil).1, by rw [Radix.value_append, hm]; exact hn⟩
    rw [hread, hwhole, Base.readOn]
    split
    next hfs =>
      subst hfs
      exact congrArg some (Option.some.inj hn)
    next => exact hn

theorem decimalDigits_eq {s : Str} (hs : s.length < i64Limit) :
    Base.decimal.parseDigits s =
      some (Base.readOn 10 none (s.takeWhile (Radix.isDigit 10)), s.dropWhile (Radix.isDigit 10)) :=
  baseParseDigits_eq .decimal hs

theorem parseDigits_fractional {s fs behind : Str} (hs : s.length < i64Limit)
    (hsplit : fractionOf (s.dropWhile (Radix.isDigit 10)) = (fs, behind)) :
    parseDigits .decimal s true =
      some (Base.readOn 10 none (s.takeWhile (Radix.isDigit 10) ++ fs), fs.length, behind) := by
  have hdrop : (s.dropWhile (Radix.isDigit 10)).length < i64Limit :=
    length_lt_of_le hs (Scanning.length_dropWhile_le _ s)
  obtain ⟨-, -, -, hfs⟩ := fraction_fractionOf (s.dropWhile (Radix.isDigit 10))
  rw [hsplit] at hfs
  have hds : ∀ c ∈ s.takeWhile (Radix.isDigit 10), Radix.isDigit 10 c = true := fun c hc => List.mem_takeWhile_imp hc
  obtain ⟨n, hn⟩ : ∃ n, Radix.value 10 0 (s.takeWhile (Radix.isDigit 10) ++ fs) = some n :=
    Radix.exists_value (List.forall_mem_append.2 ⟨hds, hfs⟩)
  rw [parseDigits, Checked.bind_of_eq (decimalDigits_eq hs), ← readOn_readOn _ _ hn]
  simp only [if_true]
  generalize s.dropWhile (Radix.isDigit 10) = tail at hsplit hdrop ⊢
  cases tail with
  | nil =>
    cases hsplit
    rfl
  | cons c rest =>
    by_cases hc : c = '.'
    · subst hc
      cases hsplit
      exact Base.parseDigitsCount_eq .decimal (length_lt_of_le hdrop (Nat.le_succ _)) _
    · rw [fractionOf_of_ne hc] at hsplit
      cases hsplit
      split
      next heq =>
        cases heq
        exact absurd rfl hc
      next => rfl

theorem parseExponent_eq {s : Str} (hs : s.length < i64Limit) :
    ∃ e, parseExponent .decimal s = some (e, (exponentOf s).2) ∧ e.getD 0 = (exponentOf s).1 := by
  cases s with
  | nil => exact ⟨none, rfl, rfl⟩
  | cons c rest =>
    by_cases hc : c ∈ ['e', 'E']
    · cases hsplit : exponentSign rest with | mk negative digits
      have hdigits : digits.length < i64Limit := by
        obtain ⟨sign, -, hrest⟩ := sign_splitSign rest
        have hlen := congrArg List.length hrest
        rw [← exponentSign_eq, hsplit, List.length_append] at hlen
        rw [List.length_cons] at hs
        dsimp only at hlen
        omega
      simp only [parseExponent, expChars, Option.bind_eq_bind, Option.bind_some, if_pos hc, hsplit,
        decimalDigits_eq hdigits, exponentOf_mark (by simpa using hc) hsplit, scanDigits]
      cases Base.readOn 10 none (digits.takeWhile (Radix.isDigit 10)) with
      | none => exact ⟨none, rfl, rfl⟩
      | some n => exact ⟨_, rfl, rfl⟩
    · refine ⟨none, ?_, ?_⟩
      · rw [exponentOf, if_neg hc]
        exact if_neg hc
      · rw [exponentOf, if_neg hc]
        rfl

/-! ## Whole inputs -/

/-- An integer with its sign. -/
def signedInteger (negative : Bool) (n : Nat) : Int := if negative then -(n : Int) else n

/-- The decimal that an integer with a sign is kept as. -/
def integerBd (negative : Bool) (n : Nat) : ExtendedBigDecimal :=
  if n = 0 then (if negative then .minusZero else .zero) else .bigDecimal ⟨signedInteger negative n, 0⟩

/-- The result if nothing is left, or the value with what is left. -/
def conclude {β : Type} (zero : β) (rest : Str) (r : Except (ExtendedParserError β) β) :
    Except (ExtendedParserError β) β :=
  if rest = [] then r else .error (.partialMatch (ExtendedParserError.extractResult zero r) rest)

theorem splitBase_length (target : ParseTarget) (unsigned : Str) :
    (splitBase target unsigned).2.length ≤ unsigned.length := by
  unfold splitBase
  split
  next rest =>
    cases rest with
    | nil =>
      show (if target = .integral then _ else _ : Base × Str).2.length ≤ _
      split <;> exact Nat.le_refl _
    | cons c rest =>
      have hlen : rest.length ≤ ('0' :: c :: rest).length := (Nat.le_succ _).trans (Nat.le_succ _)
      show (if c = 'x' ∨ c = 'X' then _ else if target = .integral then (if c = 'b' ∨ c = 'B' then _ else _) else _ :
        Base × Str).2.length ≤ _
      split_ifs
      · exact hlen
      · exact hlen
      · exact Nat.le_refl _
      · exact Nat.le_refl _
  next => exact Nat.le_refl _

theorem splitSign_length (s : Str) : (splitSign s).2.length ≤ s.length := by
  obtain ⟨sign, -, hs⟩ := sign_splitSign s
  have hlen := congrArg List.length hs
  rw [List.length_append] at hlen
  omega

/-- What is behind whitespace, sign and prefix is no longer than the input. -/
theorem length_behind_prefix {input unsigned rest : Str} {negative : Bool} {target : ParseTarget} {base : Base}
    (hinput : input.length < i64Limit) (hsign : splitSign (input.dropWhile isAsciiWhitespace) = (negative, unsigned))
    (hbase : splitBase target unsigned = (base, rest)) : rest.length < i64Limit := by
  have hdrop := Scanning.length_dropWhile_le isAsciiWhitespace input
  have hunsigned := splitSign_length (input.dropWhile isAsciiWhitespace)
  have hrest := splitBase_length target unsigned
  rw [hsign] at hunsigned
  rw [hbase] at hrest
  exact Nat.lt_of_le_of_lt (hrest.trans (hunsigned.trans hdrop)) hinput

/-- The result of an integer that was read. -/
def integerRead (r : Option ((Bool × Nat) × Str)) : ParseResult :=
  r.elim (.error .notNumeric) fun r => conclude .zero r.2 (.ok (integerBd r.1.1 r.1.2))

theorem parseSuffixMultiplier_nil (s : Str) : parseSuffixMultiplier s [] = (1, s) := by
  cases s <;> rfl

section Parts

variable {input unsigned rest rest₁ rest₂ : Str} {target : ParseTarget} {negative : Bool} {base : Base}
  {digits : Option Nat} {scale : Nat} {exponent : Option Int}

/-- The parts of an input, one behind the other. -/
structure Parts (input : Str) (target : ParseTarget) (negative : Bool) (unsigned : Str) (base : Base)
    (digits : Option Nat) (scale : Nat) (exponent : Option Int) (behind : Str) : Prop where
  sign : splitSign (input.dropWhile isAsciiWhitespace) = (negative, unsigned)
  number : ∃ rest rest₁, splitBase target unsigned = (base, rest) ∧
    parseDigits base rest (decide ((base = .decimal ∨ base = .hexadecimal) ∧ target ≠ .integral)) =
      some (digits, scale, rest₁) ∧
    exponentIf (decide ((base = .decimal ∨ base = .hexadecimal) ∧ target ≠ .integral)) base rest₁ =
      some (exponent, behind)

theorem parse_withoutDigits (h : Parts input target negative unsigned base none scale exponent rest₂) :
    parse hexValue input target [] = some (withoutDigits target [] negative unsigned) := by
  obtain ⟨rest, rest₁, hbase, hdigits, hexponent⟩ := h.number
  simp only [parse, h.sign, hbase, hdigits, hexponent, Option.bind_eq_bind, Option.bind_some]
  rfl

theorem parse_digits {n : Nat} {r : ParseResult}
    (h : Parts input target negative unsigned base (some n) scale exponent rest₂)
    (hconstruct : constructExtendedBigDecimal hexValue n negative base scale (exponent.getD 0) = some r) :
    parse hexValue input target [] = some (conclude .zero rest₂ r) := by
  obtain ⟨rest, rest₁, hbase, hdigits, hexponent⟩ := h.number
  simp only [parse, h.sign, hbase, hdigits, hexponent, Option.bind_eq_bind, Option.bind_some,
    parseSuffixMultiplier_nil, Nat.mul_one, hconstruct]
  cases rest₂ <;> rfl

end Parts

theorem construct_integral (n : Nat) (negative : Bool) (base : Base) :
    constructExtendedBigDecimal hexValue n negative base 0 0 = some (.ok (integerBd negative n)) := by
  rw [constructExtendedBigDecimal, integerBd]
  split <;> rfl

theorem withoutDigits_of_ne {unsigned : Str} (hzero : unsigned.head? ≠ some '0') (target : ParseTarget)
    (negative : Bool) : withoutDigits target [] negative unsigned =
      if target = .integral then .error .notNumeric else parseSpecialValue unsigned negative [] := by
  cases unsigned with
  | nil => rfl
  | cons c rest =>
    have hne : c ≠ '0' := fun h => hzero (congrArg some h)
    unfold withoutDigits
    split
    next heq => exact absurd (List.cons.inj heq).1 hne
    next => rfl

/-- Without digits behind it, a prefix is a zero in front of the rest. -/
theorem withoutDigits_integral {unsigned rest : Str} {base : Base} {negative : Bool}
    (hbase : splitBase .integral unsigned = (base, rest)) (hnone : scanDigits base.radix rest = none) :
    withoutDigits .integral [] negative unsigned =
      integerRead ((zeroAlone unsigned).map fun r => ((negative, r.1), r.2)) := by
  cases hbase ▸ begins_splitBase unsigned with
  | hexadecimal _ hwhole => subst hwhole; rfl
  | binary _ hwhole => subst hwhole; rfl
  | octal _ hwhole =>
    subst hwhole
    obtain ⟨n, tail, hscan, -⟩ := (scanner_digits 8).greedy ['0'] 0 _ digits_zero
    exact absurd (hnone.symm.trans hscan) (by simp)
  | decimal hzero =>
    rw [zeroAlone_of_ne hzero, withoutDigits_of_ne hzero]
    rfl

theorem parse_integral {input : Str} (hinput : input.length < i64Limit) :
    parse hexValue input .integral [] = some (integerRead (scanText scanInteger input)) := by
  cases hsign : splitSign (input.dropWhile isAsciiWhitespace) with | mk negative unsigned
  cases hbase : splitBase .integral unsigned with | mk base rest
  have hrest := length_behind_prefix hinput hsign hbase
  rw [scanText_eq hsign, scanInteger_eq hbase]
  have hfrac : decide ((base = .decimal ∨ base = .hexadecimal) ∧ ParseTarget.integral ≠ .integral) = false := by simp
  have hparts : Parts input .integral negative unsigned base
      (Base.readOn base.radix none (rest.takeWhile (Radix.isDigit base.radix))) 0 none
      (rest.dropWhile (Radix.isDigit base.radix)) :=
    ⟨hsign, rest, _, hbase, hfrac ▸ parseDigits_integral base hrest, hfrac ▸ rfl⟩
  cases hread : Base.readOn base.radix none (rest.takeWhile (Radix.isDigit base.radix)) with
  | none =>
    have hscan : scanDigits base.radix rest = none := by rw [scanDigits, hread]; rfl
    rw [parse_withoutDigits (hread ▸ hparts), hscan, Option.none_or, withoutDigits_integral hbase hscan]
  | some n =>
    have hscan : scanDigits base.radix rest = some (n, rest.dropWhile (Radix.isDigit base.radix)) := by
      rw [scanDigits, hread]
      rfl
    rw [parse_digits (hread ▸ hparts) (construct_integral n negative base), hscan, Option.some_or]
    rfl

/-! ## Decimal numbers -/

/-- Behind whitespace and the sign, a hexadecimal prefix. -/
def Hexadecimal (input : Str) : Prop :=
  ∃ ws sign negative x rest, (∀ c ∈ ws, isAsciiWhitespace c = true) ∧ Sign sign negative ∧ (x = 'x' ∨ x = 'X') ∧
    input = ws ++ (sign ++ '0' :: x :: rest)

theorem Hexadecimal.append {pre : Str} (h : Hexadecimal pre) (rest : Str) : Hexadecimal (pre ++ rest) := by
  obtain ⟨ws, sign, negative, x, tail, hws, hsign, hx, rfl⟩ := h
  exact ⟨ws, sign, negative, x, tail ++ rest, hws, hsign, hx, by simp only [List.append_assoc, List.cons_append]⟩

theorem splitBase_of_not_hexadecimal {unsigned : Str}
    (h : ∀ x rest, unsigned = '0' :: x :: rest → ¬ (x = 'x' ∨ x = 'X')) : splitBase .decimal unsigned = (.decimal, unsigned) := by
  unfold splitBase
  split
  next rest =>
    cases rest with
    | nil => rfl
    | cons x rest =>
      show (if x = 'x' ∨ x = 'X' then _ else _) = _
      rw [if_neg (h x rest rfl)]
      rfl
  next => rfl

theorem splitBase_decimal_target {input unsigned : Str} {negative : Bool} (h : ¬ Hexadecimal input)
    (hsign : splitSign (input.dropWhile isAsciiWhitespace) = (negative, unsigned)) :
    splitBase .decimal unsigned = (.decimal, unsigned) := by
  refine splitBase_of_not_hexadecimal fun x rest hwhole hx => h ?_
  obtain ⟨sign, hsign', hdrop⟩ := sign_splitSign (input.dropWhile isAsciiWhitespace)
  rw [hsign] at hsign' hdrop
  refine ⟨input.takeWhile isAsciiWhitespace, sign, negative, x, rest, ?_, hsign', hx, ?_⟩
  · exact fun c hc => List.mem_takeWhile_imp hc
  · rw [← hwhole, ← show _ = sign ++ unsigned from hdrop, List.takeWhile_append_dropWhile]

/-- The result of a decimal number, if its scale fits. -/
def decimalBd (negative : Bool) : Decimal → ParseResult
  | .number n fraction exponent =>
    if n = 0 then .ok (if negative then .minusZero else .zero)
    else if inI64 (fraction - exponent) then .ok (.bigDecimal ⟨signedInteger negative n, fraction - exponent⟩)
    else .error (makeError (fraction - exponent < 0) negative)
  | .infinity => .ok (if negative then .minusInfinity else .infinity)
  | .nan => .ok (if negative then .minusNan else .nan)

def decimalRead (r : Option ((Bool × Decimal) × Str)) : ParseResult :=
  r.elim (.error .notNumeric) fun r => conclude .zero r.2 (decimalBd r.1.1 r.1.2)

theorem construct_decimal (n : Nat) (negative : Bool) {fraction : Nat} (hfraction : fraction < i64Limit)
    (exponent : Int) :
    constructExtendedBigDecimal hexValue n negative .decimal fraction exponent =
      some (decimalBd negative (.number n fraction exponent)) := by
  have hin : inI64 fraction := ⟨by unfold i64Limit; omega, by omega⟩
  rw [constructExtendedBigDecimal, decimalBd]
  by_cases hn : n = 0
  · rw [if_pos hn, if_pos hn]
  · rw [if_neg hn, if_neg hn]
    by_cases hexponent : exponent = 0
    · subst hexponent
      rw [Int.sub_zero, if_pos hin]
      by_cases hscale : fraction = 0
      · subst hscale
        rfl
      · simp only [hscale, false_and, if_false, if_true]
        rfl
    · rw [show -exponent + (fraction : Int) = fraction - exponent by omega]
      simp only [hexponent, and_false, if_false, if_true]
      rw [apply_ite some]
      rfl

/-- The value of a name. -/
def specialEbd : Decimal → ExtendedBigDecimal
  | .infinity => .infinity
  | _ => .nan

theorem special_eq {entry : Str × Decimal} (hentry : entry ∈ specialNames) (negative : Bool) :
    decimalBd negative entry.2 = .ok (if negative then (specialEbd entry.2).neg else specialEbd entry.2) := by
  simp only [specialNames, List.mem_cons, List.not_mem_nil, or_false] at hentry
  rcases hentry with rfl | rfl | rfl <;> cases negative <;> rfl

theorem parseSpecialValue_eq (s : Str) (negative : Bool) :
    parseSpecialValue s negative [] = decimalRead ((specialOf s).map fun r => ((negative, r.1), r.2)) := by
  have htable : matchTable = specialNames.map fun entry => (entry.1, specialEbd entry.2) := rfl
  have hfind : matchTable.find? (fun entry => entry.1.isPrefixOf (s.map Char.toLower)) =
      (specialNames.find? fun entry => entry.1.isPrefixOf (s.map Char.toLower)).map fun entry =>
        (entry.1, specialEbd entry.2) := by
    rw [htable, List.find?_map]
    rfl
  rw [parseSpecialValue, hfind, specialOf]
  cases hnames : specialNames.find? fun entry => entry.1.isPrefixOf (s.map Char.toLower) with
  | none => rfl
  | some entry =>
    show _ = conclude .zero (s.drop entry.1.length) (decimalBd negative entry.2)
    rw [special_eq (List.mem_of_find?_eq_some hnames), conclude]
    simp only [Option.map_some, parseSuffixMultiplier_nil]
    cases s.drop entry.1.length <;> rfl

/-- A number is read where there is a digit. -/
theorem head_of_not_digits {s fs : Str} (h : Base.readOn 10 none (s.takeWhile (Radix.isDigit 10) ++ fs) = none)
    (hfs : ∀ c ∈ fs, Radix.isDigit 10 c = true) : s.head? ≠ some '0' := by
  intro hhead
  have hds : ∀ c ∈ s.takeWhile (Radix.isDigit 10), Radix.isDigit 10 c = true := fun c hc => List.mem_takeWhile_imp hc
  obtain ⟨n, hn⟩ : ∃ n, Radix.value 10 0 (s.takeWhile (Radix.isDigit 10) ++ fs) = some n :=
    Radix.exists_value (List.forall_mem_append.2 ⟨hds, hfs⟩)
  cases s with
  | nil => cases hhead
  | cons c rest =>
    cases hhead
    have htake : ('0' :: rest).takeWhile (Radix.isDigit 10) = '0' :: rest.takeWhile (Radix.isDigit 10) :=
      List.takeWhile_cons_of_pos rfl
    have hread := readOn_none.2 ⟨by rw [htake]; exact List.cons_ne_nil _ _, hn⟩
    rw [h] at hread
    cases hread

theorem parse_decimal {input : Str} (hinput : input.length < i64Limit) (hhex : ¬ Hexadecimal input) :
    parse hexValue input .decimal [] = some (decimalRead (scanText scanDecimal input)) := by
  cases hsign : splitSign (input.dropWhile isAsciiWhitespace) with | mk negative unsigned
  have hbase := splitBase_decimal_target hhex hsign
  have hunsigned := length_behind_prefix hinput hsign hbase
  cases hsplit : fractionOf (unsigned.dropWhile (Radix.isDigit 10)) with | mk fs behind
  obtain ⟨fraction, hfraction, htail, hfs⟩ := fraction_fractionOf (unsigned.dropWhile (Radix.isDigit 10))
  have hdrop := Scanning.length_dropWhile_le (Radix.isDigit 10) unsigned
  rw [hsplit] at hfraction htail hfs
  have hlen : (unsigned.dropWhile (Radix.isDigit 10)).length = fraction.length + behind.length := by
    rw [htail, List.length_append]
  have hbehind : behind.length < i64Limit := length_lt_of_le hunsigned (by omega)
  have hscale : fs.length < i64Limit := by
    refine length_lt_of_le hunsigned ?_
    have hle : fs.length ≤ fraction.length := by
      cases hfraction with
      | absent => exact Nat.le_refl _
      | present => exact Nat.le_succ _
    omega
  obtain ⟨exponent, hexponent, hvalue⟩ := parseExponent_eq hbehind
  have hparts : Parts input .decimal negative unsigned .decimal
      (Base.readOn 10 none (unsigned.takeWhile (Radix.isDigit 10) ++ fs)) fs.length exponent (exponentOf behind).2 :=
    ⟨hsign, unsigned, behind, hbase, parseDigits_fractional hunsigned hsplit, hexponent⟩
  rw [scanText_eq hsign, scanDecimal_eq rfl rfl hsplit]
  cases hread : Base.readOn 10 none (unsigned.takeWhile (Radix.isDigit 10) ++ fs) with
  | none =>
    have hzero := head_of_not_digits hread hfs
    rw [parse_withoutDigits (hread ▸ hparts), withoutDigits_of_ne hzero]
    exact congrArg some (parseSpecialValue_eq unsigned negative)
  | some n => exact parse_digits (hread ▸ hparts) (hvalue ▸ construct_decimal n negative hscale _)

/-! ## Results -/

/-- The exact value of the digits and the scale. -/
def BigDecimal.value (bd : BigDecimal) : ℚ := bd.digits * (10 : ℚ) ^ (-bd.scale)

/-- A `u64` of a number and its sign: its value modulo the number of `u64`s, if the magnitude is one of them. -/
inductive U64Result (negative : Bool) (n : Nat) : Except (ExtendedParserError Nat) Nat → Prop
  | fits {u : Nat} (hn : n < u64Limit) (hu : u < u64Limit)
    (hvalue : (u : Int) % u64Limit = signedInteger negative n % u64Limit) : U64Result negative n (.ok u)
  | overflow (hn : u64Limit ≤ n) : U64Result negative n (.error (.overflow (u64Limit - 1)))

/-- An `i64` of a number and its sign: its value, or the `i64` closest to it. -/
inductive I64Result (negative : Bool) (n : Nat) : Except (ExtendedParserError Int) Int → Prop
  | fits (h : inI64 (signedInteger negative n)) : I64Result negative n (.ok (signedInteger negative n))
  | overflow (h : i64Limit ≤ signedInteger negative n) : I64Result negative n (.error (.overflow (i64Limit - 1)))
  | overflowNegative (h : signedInteger negative n < -i64Limit) : I64Result negative n (.error (.overflow (-i64Limit)))

/-- A decimal of a number and its sign: its value, if the scale is an `i64`. -/
inductive DecimalResult (negative : Bool) : Decimal → ParseResult → Prop
  | zero {fraction : Nat} {exponent : Int} :
    DecimalResult negative (.number 0 fraction exponent) (.ok (if negative then .minusZero else .zero))
  | fits {n fraction : Nat} {exponent : Int} {bd : BigDecimal} (hn : n ≠ 0) (hscale : inI64 (fraction - exponent))
    (hvalue : bd.value = signedInteger negative n * (10 : ℚ) ^ (exponent - fraction)) :
    DecimalResult negative (.number n fraction exponent) (.ok (.bigDecimal bd))
  | overflow {n fraction : Nat} {exponent : Int} (hn : n ≠ 0) (hscale : fraction - exponent < -i64Limit) :
    DecimalResult negative (.number n fraction exponent)
      (.error (.overflow (if negative then .minusInfinity else .infinity)))
  | underflow {n fraction : Nat} {exponent : Int} (hn : n ≠ 0) (hscale : i64Limit ≤ fraction - exponent) :
    DecimalResult negative (.number n fraction exponent) (.error (.underflow (if negative then .minusZero else .zero)))
  | infinity : DecimalResult negative .infinity (.ok (if negative then .minusInfinity else .infinity))
  | nan : DecimalResult negative .nan (.ok (if negative then .minusNan else .nan))

/-- The input is read up to the end of its longest text; if there is something behind it, the value of the result is the
one of the text alone. -/
structure Reads {α β : Type} (Body : Str → α → Prop) (Result : Bool → α → Except (ExtendedParserError β) β → Prop)
    (zero : β) (parse : Str → Option (Except (ExtendedParserError β) β)) (input : Str) : Prop where
  returns : parse input ≠ none
  notNumeric : parse input = some (.error .notNumeric) ↔ ∀ pre rest v, input = pre ++ rest → ¬ Text Body pre v
  exists_longest : parse input ≠ some (.error .notNumeric) →
    ∃ pre rest negative v, Longest (Text Body) input pre rest (negative, v)
  longest : ∀ pre rest negative v, Longest (Text Body) input pre rest (negative, v) →
    ∃ r, Result negative v r ∧ parse pre = some r ∧
      (rest = [] → parse input = some r) ∧
      (rest ≠ [] → parse input = some (.error (.partialMatch (ExtendedParserError.extractResult zero r) rest)))

section Reads

variable {α β : Type} {Body : Str → α → Prop} {Result : Bool → α → Except (ExtendedParserError β) β → Prop}
  {zero : β} {parse : Str → Option (Except (ExtendedParserError β) β)} {scan : Str → Option (α × Str)}
  {value : Bool → α → Except (ExtendedParserError β) β} {input : Str}

/-- The result of what a scanner reads. -/
def resultOf (zero : β) (value : Bool → α → Except (ExtendedParserError β) β) (r : Option ((Bool × α) × Str)) :
    Except (ExtendedParserError β) β :=
  r.elim (.error .notNumeric) fun r => conclude zero r.2 (value r.1.1 r.1.2)

theorem conclude_ne_notNumeric {r : Except (ExtendedParserError β) β} (h : r ≠ .error .notNumeric) (rest : Str) :
    conclude zero rest r ≠ .error .notNumeric := by
  rw [conclude]
  split
  · exact h
  · exact fun h => by cases h

theorem reads_of_scanner (hscan : Scanner (Text Body) (scanText scan))
    (hresult : ∀ negative v, Result negative v (value negative v))
    (hnumeric : ∀ negative v, value negative v ≠ .error .notNumeric)
    (hparse : ∀ pre rest, input = pre ++ rest → parse pre = some (resultOf zero value (scanText scan pre))) :
    Reads Body Result zero parse input := by
  have hinput := hparse input [] (List.append_nil input).symm
  have hnone : parse input = some (.error .notNumeric) ↔ scanText scan input = none := by
    rw [hinput, Option.some_inj]
    constructor
    · intro hnot
      cases hread : scanText scan input with
      | none => rfl
      | some r =>
        rw [hread] at hnot
        exact absurd hnot (conclude_ne_notNumeric (hnumeric _ _) _)
    · intro hread
      rw [hread]
      rfl
  refine ⟨?_, hnone.trans hscan.none_iff, ?_, ?_⟩
  · rw [hinput]
    exact Option.some_ne_none _
  · intro hnot
    obtain ⟨r, hread⟩ := Option.ne_none_iff_exists'.1 (mt hnone.2 hnot)
    obtain ⟨pre, hlongest⟩ := hscan.exists_longest (show scanText scan input = some (r.1, r.2) from hread)
    exact ⟨pre, r.2, r.1.1, r.1.2, hlongest⟩
  · intro pre rest negative v hlongest
    have hpre := hparse pre rest hlongest.whole
    rw [hscan.complete pre _ hlongest.text] at hpre
    rw [hscan.longest hlongest] at hinput
    refine ⟨value negative v, hresult negative v, hpre, ?_, ?_⟩
    · rintro rfl
      exact hinput
    · intro hrest
      exact hinput.trans (congrArg some (if_neg hrest))

end Reads

/-! ## Integers -/

theorem parseInteger_eq {β : Type} {zero : β}
    {into : ExtendedBigDecimal → Option (Except (ExtendedParserError β) β)}
    {value : Bool → Nat → Except (ExtendedParserError β) β}
    (hinto : ∀ negative n, into (integerBd negative n) = some (value negative n)) {input : Str}
    (hinput : input.length < i64Limit) :
    parseInteger hexValue zero into input = some (resultOf zero value (scanText scanInteger input)) := by
  rw [parseInteger, parse_integral hinput]
  cases scanText scanInteger input with
  | none => rfl
  | some r =>
    by_cases hrest : r.2 = []
    · have hread : integerRead (some r) = .ok (integerBd r.1.1 r.1.2) := if_pos hrest
      have hvalue : resultOf zero value (some r) = value r.1.1 r.1.2 := if_pos hrest
      rw [hread, hvalue]
      exact hinto _ _
    · have hread : integerRead (some r) = .error (.partialMatch (integerBd r.1.1 r.1.2) r.2) := if_neg hrest
      have hvalue : resultOf zero value (some r) =
          .error (.partialMatch (ExtendedParserError.extractResult zero (value r.1.1 r.1.2)) r.2) := if_neg hrest
      rw [hread, hvalue]
      simp only [Option.bind_eq_bind, Option.bind_some, ExtendedParserError.map, hinto, Option.map_some]
      rfl

def u64Of (negative : Bool) (n : Nat) : Except (ExtendedParserError Nat) Nat :=
  if n < u64Limit then .ok (if negative ∧ n ≠ 0 then u64Limit - n else n) else .error (.overflow (u64Limit - 1))

def i64Of (negative : Bool) (n : Nat) : Except (ExtendedParserError Int) Int :=
  if inI64 (signedInteger negative n) then .ok (signedInteger negative n)
  else .error (.overflow (if signedInteger negative n < 0 then -i64Limit else i64Limit - 1))

theorem signedInteger_zero (negative : Bool) : signedInteger negative 0 = 0 := by
  cases negative <;> rfl

theorem natAbs_signedInteger (negative : Bool) (n : Nat) : (signedInteger negative n).natAbs = n := by
  rw [signedInteger]
  split <;> simp

theorem signedInteger_neg_iff (negative : Bool) (n : Nat) :
    signedInteger negative n < 0 ↔ negative = true ∧ n ≠ 0 := by
  rw [signedInteger]
  split
  next h => simp [h, Nat.pos_iff_ne_zero]
  next h => simp [h]

theorem intoI64_integerBd (negative : Bool) (n : Nat) : intoI64 (integerBd negative n) = some (i64Of negative n) := by
  rw [integerBd, i64Of]
  by_cases hn : n = 0
  · subst hn
    rw [signedInteger_zero]
    cases negative <;> rfl
  · rw [if_neg hn, intoI64, if_pos rfl, apply_ite some]

theorem intoU64_integerBd (negative : Bool) (n : Nat) : intoU64 (integerBd negative n) = some (u64Of negative n) := by
  rw [integerBd, u64Of]
  by_cases hn : n = 0
  · subst hn
    cases negative <;> rfl
  · rw [if_neg hn, intoU64, if_pos rfl]
    simp only [natAbs_signedInteger, signedInteger_neg_iff]
    by_cases hfits : n < u64Limit
    · simp only [if_pos hfits]
      by_cases hnegative : negative = true ∧ n ≠ 0
      · rw [if_pos hnegative, if_pos hnegative, Checked.add, if_pos (by omega)]
        exact congrArg (fun u => some (Except.ok u)) (by omega)
      · rw [if_neg hnegative, if_neg hnegative]
    · simp only [if_neg hfits]

theorem i64Of_result (negative : Bool) (n : Nat) : I64Result negative n (i64Of negative n) := by
  rw [i64Of]
  by_cases hin : inI64 (signedInteger negative n)
  · rw [if_pos hin]
    exact .fits hin
  · rw [if_neg hin]
    simp only [inI64, i64Limit] at hin
    by_cases hneg : signedInteger negative n < 0
    · rw [if_pos hneg]
      exact .overflowNegative (by unfold i64Limit; omega)
    · rw [if_neg hneg]
      exact .overflow (by unfold i64Limit; omega)

theorem u64Of_result (negative : Bool) (n : Nat) : U64Result negative n (u64Of negative n) := by
  rw [u64Of]
  by_cases hfits : n < u64Limit
  · rw [if_pos hfits]
    by_cases hnegative : negative = true ∧ n ≠ 0
    · rw [if_pos hnegative]
      refine .fits hfits (by omega) ?_
      rw [signedInteger, if_pos hnegative.1]
      unfold u64Limit at hfits ⊢
      omega
    · rw [if_neg hnegative]
      have hsigned : signedInteger negative n = n := by
        rw [signedInteger]
        split
        next h =>
          have hn : n = 0 := not_not.1 fun hn => hnegative ⟨h, hn⟩
          rw [hn]
          rfl
        next => rfl
      exact .fits hfits hfits (by rw [hsigned])
  · rw [if_neg hfits]
    exact .overflow (Nat.le_of_not_lt hfits)

theorem i64Of_ne (negative : Bool) (n : Nat) : i64Of negative n ≠ .error .notNumeric := by
  intro h
  have hresult := i64Of_result negative n
  rw [h] at hresult
  cases hresult

theorem u64Of_ne (negative : Bool) (n : Nat) : u64Of negative n ≠ .error .notNumeric := by
  intro h
  have hresult := u64Of_result negative n
  rw [h] at hresult
  cases hresult

/-! ## Decimals -/

theorem decimalBd_result (negative : Bool) (v : Decimal) : DecimalResult negative v (decimalBd negative v) := by
  cases v with
  | infinity => exact .infinity
  | nan => exact .nan
  | number n fraction exponent =>
    rw [decimalBd]
    by_cases hn : n = 0
    · subst hn
      exact .zero
    · rw [if_neg hn]
      by_cases hscale : inI64 (fraction - exponent)
      · rw [if_pos hscale]
        refine .fits hn hscale ?_
        rw [BigDecimal.value, neg_sub]
      · rw [if_neg hscale]
        simp only [inI64, i64Limit] at hscale
        by_cases hneg : (fraction : Int) - exponent < 0
        · have herror : makeError (decide ((fraction : Int) - exponent < 0)) negative =
              .overflow (if negative then .minusInfinity else .infinity) := by
            rw [decide_eq_true hneg]
            cases negative <;> rfl
          rw [herror]
          exact .overflow hn (by unfold i64Limit; omega)
        · have herror : makeError (decide ((fraction : Int) - exponent < 0)) negative =
              .underflow (if negative then .minusZero else .zero) := by
            rw [decide_eq_false hneg]
            cases negative <;> rfl
          rw [herror]
          exact .underflow hn (by unfold i64Limit; omega)

theorem decimalBd_ne (negative : Bool) (v : Decimal) : decimalBd negative v ≠ .error .notNumeric := by
  intro h
  have hresult := decimalBd_result negative v
  rw [h] at hresult
  cases hresult

/-! ## All three targets -/

theorem scanner_integer_text : Scanner (Text IntegerBody) (scanText scanInteger) :=
  scanner_text scanner_integer head_integerBody

theorem scanner_decimal_text : Scanner (Text DecimalBody) (scanText scanDecimal) :=
  scanner_text scanner_decimal head_decimalBody

/-- A front is no longer than its input. -/
theorem length_front {input pre rest : Str} (hinput : input.length < i64Limit) (hwhole : input = pre ++ rest) :
    pre.length < i64Limit := by
  rw [hwhole, List.length_append] at hinput
  omega

/-- An input is read up to the end of the longest number at its front, and its result is the value of this number if it
fits: as a `u64`, as an `i64` and, without a hexadecimal prefix, as a decimal. -/
theorem extendedParse_reads (hexValue : Int → Nat → Int → BigDecimal) (input : Str) (hinput : input.length < i64Limit) :
    Reads IntegerBody U64Result 0 (extendedParseU64 hexValue) input ∧
      Reads IntegerBody I64Result 0 (extendedParseI64 hexValue) input ∧
      (¬ Hexadecimal input → Reads DecimalBody DecimalResult .zero (extendedParseBigDecimal hexValue) input) := by
  refine ⟨?_, ?_, fun hhex => ?_⟩
  · exact reads_of_scanner scanner_integer_text u64Of_result u64Of_ne fun pre rest hwhole =>
      parseInteger_eq intoU64_integerBd (length_front hinput hwhole)
  · exact reads_of_scanner scanner_integer_text i64Of_result i64Of_ne fun pre rest hwhole =>
      parseInteger_eq intoI64_integerBd (length_front hinput hwhole)
  · refine reads_of_scanner scanner_decimal_text decimalBd_result decimalBd_ne fun pre rest hwhole => ?_
    refine parse_decimal (length_front hinput hwhole) fun hpre => hhex ?_
    rw [hwhole]
    exact hpre.append rest

/-- The exact value of a hexadecimal number with a fraction or an exponent. -/
def hexadecimalExact (digits : Int) (scale : Nat) (exponent : Int) : BigDecimal :=
  let power := exponent - 4 * scale
  ⟨digits * 2 ^ power.toNat * 5 ^ (-power).toNat, (-power).toNat⟩

theorem extendedParse_reads_number :
    Reads IntegerBody U64Result 0 (extendedParseU64 hexadecimalExact) "-12.5e3s".toList ∧
      Reads IntegerBody I64Result 0 (extendedParseI64 hexadecimalExact) "-12.5e3s".toList ∧
      Reads DecimalBody DecimalResult .zero (extendedParseBigDecimal hexadecimalExact) "-12.5e3s".toList := by
  obtain ⟨hu64, hi64, hdecimal⟩ := extendedParse_reads hexadecimalExact "-12.5e3s".toList (by decide)
  refine ⟨hu64, hi64, hdecimal ?_⟩
  rintro ⟨ws, sign, negative, x, rest, hws, hsign, -, hinput⟩
  have hsplit := splitSign_text (c := '0') (s := x :: rest) hws hsign (by decide)
  rw [← hinput] at hsplit
  have hone : (splitSign ("-12.5e3s".toList.dropWhile isAsciiWhitespace)).2.head? = some '1' := rfl
  rw [hsplit] at hone
  have hzero : some '0' = some '1' := hone
  exact absurd hzero (by decide)

end Peiosutils.NumParser
