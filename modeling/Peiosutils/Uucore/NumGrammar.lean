import Peiosutils.Lib.Scanner
import Peiosutils.Uucore.NumParser

/-!
# The texts of numbers

The grammars of integers and of decimal numbers, and plain scanners that read the longest text at the front of their
input: `scanner_integer`, `scanner_decimal` and, behind whitespace and a sign, `Scanner.text`.
-/

set_option autoImplicit false

namespace Peiosutils.NumParser

open Scanning (Scanner)

/-! ## Grammars -/

/-- Digits of a number in a radix, at least one. -/
def Digits (radix : Nat) (ds : Str) (n : Nat) : Prop := ds ≠ [] ∧ Radix.value radix 0 ds = some n

inductive Sign : Str → Bool → Prop
  | none : Sign [] false
  | plus : Sign ['+'] false
  | minus : Sign ['-'] true

inductive IntegerBody : Str → Nat → Prop
  | hexadecimal {x : Char} {ds : Str} {n : Nat} (hx : x = 'x' ∨ x = 'X') (h : Digits 16 ds n) :
    IntegerBody ('0' :: x :: ds) n
  | binary {b : Char} {ds : Str} {n : Nat} (hb : b = 'b' ∨ b = 'B') (h : Digits 2 ds n) :
    IntegerBody ('0' :: b :: ds) n
  | octal {ds : Str} {n : Nat} (h : Digits 8 ('0' :: ds) n) : IntegerBody ('0' :: ds) n
  | decimal {ds : Str} {n : Nat} (hzero : ds.head? ≠ some '0') (h : Digits 10 ds n) : IntegerBody ds n

/-- A fraction with its digits. -/
inductive Fraction : Str → Str → Prop
  | absent : Fraction [] []
  | present (fs : Str) : Fraction ('.' :: fs) fs

inductive Exponent : Str → Int → Prop
  | absent : Exponent [] 0
  | present {e : Char} {sign es : Str} {negative : Bool} {n : Nat} (he : e = 'e' ∨ e = 'E')
    (hsign : Sign sign negative) (h : Digits 10 es n) :
    Exponent (e :: (sign ++ es)) (if negative then -(n : Int) else n)

/-- What a decimal text means without its sign: a number is its digits without the point, how many of them stand behind
it, and the exponent. -/
inductive Decimal where
  | number (digits fraction : Nat) (exponent : Int)
  | infinity
  | nan
  deriving DecidableEq, Repr

inductive DecimalBody : Str → Decimal → Prop
  | number {ds fraction fs exponent : Str} {n : Nat} {e : Int} (hne : ds ≠ [] ∨ fs ≠ [])
    (hvalue : Radix.value 10 0 (ds ++ fs) = some n) (hfraction : Fraction fraction fs)
    (hexponent : Exponent exponent e) : DecimalBody (ds ++ fraction ++ exponent) (.number n fs.length e)
  | infinity {s : Str} (h : s.map Char.toLower = "infinity".toList ∨ s.map Char.toLower = "inf".toList) :
    DecimalBody s .infinity
  | nan {s : Str} (h : s.map Char.toLower = "nan".toList) : DecimalBody s .nan

/-- A text behind whitespace and a sign, with the sign. -/
inductive Text {α : Type} (Body : Str → α → Prop) : Str → Bool × α → Prop
  | mk {ws sign body : Str} {negative : Bool} {v : α} (hws : ∀ c ∈ ws, isAsciiWhitespace c = true)
    (hsign : Sign sign negative) (hbody : Body body v) : Text Body (ws ++ (sign ++ body)) (negative, v)

/-! ## Digits -/

variable {radix : Nat}

def scanDigits (radix : Nat) (s : Str) : Option (Nat × Str) :=
  (Base.readOn radix none (s.takeWhile (Radix.isDigit radix))).map (·, s.dropWhile (Radix.isDigit radix))

theorem readOn_none {ds : Str} {n : Nat} : Base.readOn radix none ds = some n ↔ Digits radix ds n := by
  rw [Base.readOn, Digits]
  by_cases h : ds = [] <;> simp [h]

theorem all_digits {ds : Str} {acc n : Nat} (h : Radix.value radix acc ds = some n) :
    ∀ c ∈ ds, Radix.isDigit radix c = true := fun _ hc => Radix.digit_of_value h hc

/-- Digits are read with the digits behind them. -/
theorem takeWhile_digits {ds : Str} {acc n : Nat} (h : Radix.value radix acc ds = some n) (rest : Str) :
    (ds ++ rest).takeWhile (Radix.isDigit radix) = ds ++ rest.takeWhile (Radix.isDigit radix) :=
  List.takeWhile_append_of_pos (all_digits h)

theorem dropWhile_digits {ds : Str} {acc n : Nat} (h : Radix.value radix acc ds = some n) (rest : Str) :
    (ds ++ rest).dropWhile (Radix.isDigit radix) = rest.dropWhile (Radix.isDigit radix) :=
  List.dropWhile_append_of_pos (all_digits h)

theorem scanner_digits (radix : Nat) : Scanner (Digits radix) (scanDigits radix) where
  sound := by
    intro s n rest h
    obtain ⟨m, hm, heq⟩ := Option.map_eq_some_iff.1 h
    cases heq
    exact ⟨_, List.takeWhile_append_dropWhile.symm, readOn_none.1 hm⟩
  complete := by
    intro ds n h
    have htake := takeWhile_digits h.2 []
    have hdrop := dropWhile_digits h.2 []
    rw [List.append_nil] at htake hdrop
    rw [scanDigits, htake, hdrop, List.takeWhile_nil, List.append_nil, readOn_none.2 h]
    rfl
  greedy := by
    intro ds n rest h
    obtain ⟨m, hm⟩ := Radix.exists_value_takeWhile radix 0 (ds ++ rest)
    have hne : (ds ++ rest).takeWhile (Radix.isDigit radix) ≠ [] := by
      rw [takeWhile_digits h.2]
      exact fun hnil => h.1 (List.append_eq_nil_iff.1 hnil).1
    refine ⟨m, rest.dropWhile (Radix.isDigit radix), ?_, Scanning.length_dropWhile_le _ _⟩
    rw [scanDigits, readOn_none.2 ⟨hne, hm⟩, dropWhile_digits h.2]
    rfl

/-! ## Integers -/

/-- The zero of a prefix without digits. -/
def zeroAlone : Str → Option (Nat × Str)
  | '0' :: rest => some (0, rest)
  | _ => none

def scanInteger (unsigned : Str) : Option (Nat × Str) :=
  let (base, rest) := splitBase .integral unsigned
  (scanDigits base.radix rest).or (zeroAlone unsigned)

/-- The four ways an integer may begin. -/
inductive Begins (unsigned : Str) : Base × Str → Prop
  | hexadecimal {x : Char} {rest : Str} (hx : x = 'x' ∨ x = 'X') (h : unsigned = '0' :: x :: rest) :
    Begins unsigned (.hexadecimal, rest)
  | binary {b : Char} {rest : Str} (hb : b = 'b' ∨ b = 'B') (h : unsigned = '0' :: b :: rest) :
    Begins unsigned (.binary, rest)
  | octal {rest : Str} (hx : ∀ x ∈ rest.head?, x ≠ 'x' ∧ x ≠ 'X' ∧ x ≠ 'b' ∧ x ≠ 'B')
    (h : unsigned = '0' :: rest) : Begins unsigned (.octal, unsigned)
  | decimal (h : unsigned.head? ≠ some '0') : Begins unsigned (.decimal, unsigned)

theorem begins_splitBase (unsigned : Str) : Begins unsigned (splitBase .integral unsigned) := by
  unfold splitBase
  split
  next rest =>
    cases rest with
    | nil => exact .octal (fun x hx => by cases hx) rfl
    | cons c rest =>
      show Begins ('0' :: c :: rest) (if c = 'x' ∨ c = 'X' then _ else if c = 'b' ∨ c = 'B' then _ else _)
      by_cases hx : c = 'x' ∨ c = 'X'
      · rw [if_pos hx]
        exact .hexadecimal hx rfl
      · rw [if_neg hx]
        by_cases hb : c = 'b' ∨ c = 'B'
        · rw [if_pos hb]
          exact .binary hb rfl
        · rw [if_neg hb]
          refine .octal (fun x hc => ?_) rfl
          cases hc
          simp only [not_or] at hx hb
          exact ⟨hx.1, hx.2, hb.1, hb.2⟩
  next hzero =>
    refine .decimal fun hhead => ?_
    cases unsigned with
    | nil => cases hhead
    | cons c rest =>
      cases hhead
      exact hzero rest rfl

theorem scanInteger_eq {unsigned : Str} {base : Base} {rest : Str}
    (h : splitBase .integral unsigned = (base, rest)) :
    scanInteger unsigned = (scanDigits base.radix rest).or (zeroAlone unsigned) := by
  rw [scanInteger, h]

theorem digits_zero : Digits 8 ['0'] 0 := ⟨List.cons_ne_nil _ _, rfl⟩

/-- A prefix with digits, or its zero only. -/
theorem scanInteger_prefixed {base : Base} {x : Char} {rest : Str}
    (h : splitBase .integral ('0' :: x :: rest) = (base, rest)) :
    scanInteger ('0' :: x :: rest) = some ((scanDigits base.radix rest).getD (0, x :: rest)) := by
  rw [scanInteger_eq h]
  cases scanDigits base.radix rest <;> rfl

theorem scanInteger_octal {rest : Str} (h : splitBase .integral ('0' :: rest) = (.octal, '0' :: rest)) :
    scanInteger ('0' :: rest) = scanDigits 8 ('0' :: rest) := by
  obtain ⟨n, rest', hscan, -⟩ := (scanner_digits 8).greedy ['0'] 0 rest digits_zero
  rw [scanInteger_eq h]
  show (scanDigits 8 (['0'] ++ rest)).or _ = scanDigits 8 (['0'] ++ rest)
  rw [hscan, Option.some_or]

theorem zeroAlone_of_ne {unsigned : Str} (hzero : unsigned.head? ≠ some '0') : zeroAlone unsigned = none := by
  unfold zeroAlone
  split
  next => exact absurd rfl hzero
  next => rfl

theorem scanInteger_decimal {unsigned : Str} (h : splitBase .integral unsigned = (.decimal, unsigned))
    (hzero : unsigned.head? ≠ some '0') : scanInteger unsigned = scanDigits 10 unsigned := by
  rw [scanInteger_eq h, zeroAlone_of_ne hzero, Option.or_none]
  rfl

theorem splitBase_hexadecimal {x : Char} (hx : x = 'x' ∨ x = 'X') (target : ParseTarget) (rest : Str) :
    splitBase target ('0' :: x :: rest) = (.hexadecimal, rest) := by
  rcases hx with rfl | rfl <;> rfl

theorem splitBase_binary {b : Char} (hb : b = 'b' ∨ b = 'B') (rest : Str) :
    splitBase .integral ('0' :: b :: rest) = (.binary, rest) := by
  rcases hb with rfl | rfl <;> rfl

theorem splitBase_decimal {unsigned : Str} (hzero : unsigned.head? ≠ some '0') :
    splitBase .integral unsigned = (.decimal, unsigned) := by
  cases hbegins : splitBase .integral unsigned with | mk base rest
  cases hbegins ▸ begins_splitBase unsigned with
  | hexadecimal _ hwhole => exact absurd (by rw [hwhole]; rfl) hzero
  | binary _ hwhole => exact absurd (by rw [hwhole]; rfl) hzero
  | octal _ hwhole => exact absurd (by rw [hwhole]; rfl) hzero
  | decimal => rfl

/-- What is read behind a prefix. -/
theorem prefixed_sound {base : Base} {x : Char} {rest tail : Str} {n : Nat}
    (h : splitBase .integral ('0' :: x :: rest) = (base, rest))
    (hbody : ∀ ds n, Digits base.radix ds n → IntegerBody ('0' :: x :: ds) n)
    (hscan : scanInteger ('0' :: x :: rest) = some (n, tail)) :
    ∃ pre, '0' :: x :: rest = pre ++ tail ∧ IntegerBody pre n := by
  rw [scanInteger_prefixed h] at hscan
  cases hdigits : scanDigits base.radix rest with
  | none =>
    rw [hdigits] at hscan
    cases hscan
    exact ⟨['0'], rfl, .octal digits_zero⟩
  | some r =>
    rw [hdigits] at hscan
    cases hscan
    obtain ⟨ds, rfl, hds⟩ := (scanner_digits _).sound _ _ _ hdigits
    exact ⟨'0' :: x :: ds, rfl, hbody ds n hds⟩

theorem prefixed_greedy {base : Base} {x : Char} {rest : Str}
    (h : splitBase .integral ('0' :: x :: rest) = (base, rest)) :
    ∃ n tail, scanInteger ('0' :: x :: rest) = some (n, tail) ∧ tail.length ≤ (x :: rest).length := by
  rw [scanInteger_prefixed h]
  cases hdigits : scanDigits base.radix rest with
  | none => exact ⟨0, x :: rest, rfl, Nat.le_refl _⟩
  | some r =>
    obtain ⟨ds, rfl, -⟩ := (scanner_digits _).sound _ r.1 r.2 hdigits
    refine ⟨r.1, r.2, rfl, ?_⟩
    rw [List.length_cons, List.length_append]
    omega

/-- The mark of a prefix is behind a zero only. -/
theorem nil_of_mark {ds rest rest' : Str} {x : Char} (h : ∀ c ∈ ds, Radix.isDigit 8 c = true)
    (hx : Radix.isDigit 8 x = false) (hwhole : ds ++ rest = x :: rest') : ds = [] := by
  cases ds with
  | nil => rfl
  | cons c ds =>
    cases hwhole
    exact absurd (hx.symm.trans (h x List.mem_cons_self)) Bool.false_ne_true

theorem not_digit_hexadecimal {x : Char} (hx : x = 'x' ∨ x = 'X') : Radix.isDigit 8 x = false := by
  rcases hx with rfl | rfl <;> rfl

theorem not_digit_binary {b : Char} (hb : b = 'b' ∨ b = 'B') : Radix.isDigit 8 b = false := by
  rcases hb with rfl | rfl <;> rfl

theorem octal_greedy {ds : Str} {n : Nat} (h : Digits 8 ('0' :: ds) n) (rest : Str) :
    ∃ n' rest', scanInteger ('0' :: (ds ++ rest)) = some (n', rest') ∧ rest'.length ≤ rest.length := by
  have hdigit : ∀ c ∈ ds, Radix.isDigit 8 c = true := fun c hc => all_digits h.2 c (List.mem_cons_of_mem _ hc)
  cases hbegins : splitBase .integral ('0' :: (ds ++ rest)) with | mk base tail
  cases hbegins ▸ begins_splitBase ('0' :: (ds ++ rest)) with
  | hexadecimal hx hwhole =>
    have hwhole := (List.cons.inj hwhole).2
    have hnil := nil_of_mark hdigit (not_digit_hexadecimal hx) hwhole
    subst hnil
    cases hwhole
    exact prefixed_greedy hbegins
  | binary hb hwhole =>
    have hwhole := (List.cons.inj hwhole).2
    have hnil := nil_of_mark hdigit (not_digit_binary hb) hwhole
    subst hnil
    cases hwhole
    exact prefixed_greedy hbegins
  | octal =>
    rw [scanInteger_octal hbegins]
    exact (scanner_digits 8).greedy _ n rest h
  | decimal hzero => exact absurd rfl hzero

theorem octal_complete {ds : Str} {n : Nat} (h : Digits 8 ('0' :: ds) n) :
    scanInteger ('0' :: ds) = some (n, []) := by
  cases hbegins : splitBase .integral ('0' :: ds) with | mk base tail
  have hdigit : ∀ c ∈ '0' :: ds, Radix.isDigit 8 c = true := all_digits h.2
  cases hbegins ▸ begins_splitBase ('0' :: ds) with
  | hexadecimal hx hwhole =>
    rw [hwhole] at hdigit
    have hmark := hdigit _ (List.mem_cons_of_mem _ List.mem_cons_self)
    exact absurd ((not_digit_hexadecimal hx).symm.trans hmark) Bool.false_ne_true
  | binary hb hwhole =>
    rw [hwhole] at hdigit
    have hmark := hdigit _ (List.mem_cons_of_mem _ List.mem_cons_self)
    exact absurd ((not_digit_binary hb).symm.trans hmark) Bool.false_ne_true
  | octal =>
    rw [scanInteger_octal hbegins]
    exact (scanner_digits 8).complete _ n h
  | decimal hzero => exact absurd rfl hzero

theorem scanner_integer : Scanner IntegerBody scanInteger where
  sound := by
    intro unsigned n tail hscan
    cases hbegins : splitBase .integral unsigned with | mk base rest
    cases hbegins ▸ begins_splitBase unsigned with
    | hexadecimal hx hwhole =>
      subst hwhole
      exact prefixed_sound hbegins (fun ds n hds => .hexadecimal hx hds) hscan
    | binary hb hwhole =>
      subst hwhole
      exact prefixed_sound hbegins (fun ds n hds => .binary hb hds) hscan
    | octal _ hwhole =>
      subst hwhole
      rw [scanInteger_octal hbegins] at hscan
      obtain ⟨ds, hds, hdigits⟩ := (scanner_digits 8).sound _ _ _ hscan
      cases ds with
      | nil => exact absurd rfl hdigits.1
      | cons c ds =>
        cases hds
        exact ⟨'0' :: ds, rfl, .octal hdigits⟩
    | decimal hzero =>
      rw [scanInteger_decimal hbegins hzero] at hscan
      obtain ⟨ds, hds, hdigits⟩ := (scanner_digits 10).sound _ _ _ hscan
      refine ⟨ds, hds, .decimal (fun hhead => hzero ?_) hdigits⟩
      rw [hds, List.head?_append, hhead]
      rfl
  complete := by
    intro pre n htext
    cases htext with
    | hexadecimal hx h =>
      rw [scanInteger_prefixed (splitBase_hexadecimal hx .integral _)]
      exact congrArg (fun r => some (Option.getD r _)) ((scanner_digits 16).complete _ n h)
    | binary hb h =>
      rw [scanInteger_prefixed (splitBase_binary hb _)]
      exact congrArg (fun r => some (Option.getD r _)) ((scanner_digits 2).complete _ n h)
    | octal h => exact octal_complete h
    | decimal hzero h =>
      rw [scanInteger_decimal (splitBase_decimal hzero) hzero]
      exact (scanner_digits 10).complete pre n h
  greedy := by
    intro pre n rest htext
    cases htext with
    | hexadecimal hx h =>
      obtain ⟨m, tail, hscan, hle⟩ := (scanner_digits 16).greedy _ n rest h
      refine ⟨m, tail, ?_, hle⟩
      rw [List.cons_append, List.cons_append, scanInteger_prefixed (splitBase_hexadecimal hx .integral _)]
      exact congrArg (fun r => some (Option.getD r _)) hscan
    | binary hb h =>
      obtain ⟨m, tail, hscan, hle⟩ := (scanner_digits 2).greedy _ n rest h
      refine ⟨m, tail, ?_, hle⟩
      rw [List.cons_append, List.cons_append, scanInteger_prefixed (splitBase_binary hb _)]
      exact congrArg (fun r => some (Option.getD r _)) hscan
    | octal h => exact octal_greedy h rest
    | decimal hzero h =>
      have hzero' : (pre ++ rest).head? ≠ some '0' := by
        cases pre with
        | nil => exact absurd rfl h.1
        | cons c pre => exact hzero
      rw [scanInteger_decimal (splitBase_decimal hzero') hzero']
      exact (scanner_digits 10).greedy pre n rest h

end Peiosutils.NumParser
