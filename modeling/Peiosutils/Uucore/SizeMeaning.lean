import Mathlib.Data.Nat.Cast.Order.Basic
import Peiosutils.Lib.Fallible
import Peiosutils.Lib.Hex
import Peiosutils.Lib.Radix

/-!
# Sizes (`parse_size.rs`)

A size is a number with a unit. What is the numeric part, and in which radix it is, follows from the first characters
(`determineNumberSystem`); the unit is looked up in a table after the settings had their say (`Parser.suffix`).

`Quotable::quote` and the physical memory of the machine are parameters.
-/

set_option autoImplicit false

namespace Peiosutils.ParseSize

open Radix (fromStrRadix)

abbrev Str := List Char

/-- One more than the largest `u128`. -/
def u128Limit : Nat := 340282366920938463463374607431768211456

structure Parser where
  noEmptyNumeric : Bool := false
  capitalBBytes : Bool := false
  bByteCount : Bool := false
  allowList : Option (List Str) := none
  defaultUnit : Option Str := none
  deriving DecidableEq, Repr

inductive NumberSystem where
  | decimal
  | octal
  | hexadecimal
  | binary
  deriving DecidableEq, Repr

inductive ParseSizeError where
  | invalidSuffix (s : Str)
  | parseFailure (s : Str)
  | sizeTooBig (s : Str)
  | physicalMem (s : Str)
  deriving DecidableEq, Repr

/-- What ends a parse without a size. -/
inductive Stop where
  | err (e : ParseSizeError)
  | panic
  deriving DecidableEq, Repr

/-! ## The numeric part -/

/-- `str::len`. -/
def byteLen : Str → Nat
  | [] => 0
  | c :: cs => c.utf8Size + byteLen cs

def determineNumberSystem (size : Str) : NumberSystem :=
  if byteLen size ≤ 1 then .decimal
  else if ['0', 'x'] <+: size then .hexadecimal
  else if ['0', 'b'] <+: size ∧ size.drop 2 ≠ [] then .binary
  else
    let numDigits := (size.takeWhile Char.isDigit).length
    let allZeros := size.all (· = '0')
    if size.head? = some '0' ∧ 1 < numDigits ∧ allZeros = false then .octal else .decimal

def isBinaryDigit (c : Char) : Bool := c = '0' || c = '1'

def numericString (system : NumberSystem) (size : Str) : Str :=
  match system with
  | .hexadecimal => size.take 2 ++ (size.drop 2).takeWhile Hex.isHexDigit
  | .binary => size.take 2 ++ (size.drop 2).takeWhile isBinaryDigit
  | .decimal | .octal => size.takeWhile Char.isDigit

/-- `trim_start_matches` with a pattern of two characters. -/
def trimPairs (a b : Char) : Str → Str
  | x :: y :: rest => if x = a ∧ y = b then trimPairs a b rest else x :: y :: rest
  | s => s

/-! ## The unit -/

/-- The arms of the `match` on the unit: spellings, base and exponent. -/
def unitRows : List (List String × Nat × Nat) :=
  [([""], 1, 0), (["b"], 512, 1),
   (["KiB", "kiB", "K", "k"], 1024, 1), (["MiB", "miB", "M", "m"], 1024, 2), (["GiB", "giB", "G", "g"], 1024, 3),
   (["TiB", "tiB", "T", "t"], 1024, 4), (["PiB", "piB", "P", "p"], 1024, 5), (["EiB", "eiB", "E", "e"], 1024, 6),
   (["ZiB", "ziB", "Z", "z"], 1024, 7), (["YiB", "yiB", "Y", "y"], 1024, 8), (["RiB", "riB", "R", "r"], 1024, 9),
   (["QiB", "qiB", "Q", "q"], 1024, 10),
   (["KB", "kB", "KD", "kD"], 1000, 1), (["MB", "mB", "MD", "mD"], 1000, 2), (["GB", "gB", "GD", "gD"], 1000, 3),
   (["TB", "tB", "TD", "tD"], 1000, 4), (["PB", "pB", "PD", "pD"], 1000, 5), (["EB", "eB", "ED", "eD"], 1000, 6),
   (["ZB", "zB", "ZD", "zD"], 1000, 7), (["YB", "yB", "YD", "yD"], 1000, 8), (["RB", "rB", "RD", "rD"], 1000, 9),
   (["QB", "qB", "QD", "qD"], 1000, 10)]

def unitEntries : List (Str × Nat × Nat) := unitRows.flatMap fun row => row.1.map fun name => (name.toList, row.2)

/-- A capital "B" is a byte if the parser says so. -/
def unitBase (capitalBBytes : Bool) (unit : Str) : Option (Nat × Nat) :=
  if unit = ['B'] ∧ capitalBBytes = true then some (1, 0) else unitEntries.lookup unit

namespace Parser

def defaulted (p : Parser) (unit : Str) : Str :=
  match p.defaultUnit with
  | some d => if unit = [] then d else unit
  | none => unit

/-- The "b" at the end of the unit is a byte count. -/
def countsBytes (p : Parser) (unit : Str) : Bool := p.bByteCount && unit.getLast? == some 'b'

def allows (p : Parser) (unit : Str) : Bool :=
  match p.allowList with
  | some l => l.contains unit || unit.isEmpty
  | none => true

end Parser

section Parse

variable (quote : Str → Str)

def invalidSuffix {α : Type} (s : Str) : Except Stop α := .error (.err (.invalidSuffix (quote s)))

def parseFailure {α : Type} (s : Str) : Except Stop α := .error (.err (.parseFailure (quote s)))

def sizeTooBig {α : Type} (s : Str) : Except Stop α := .error (.err (.sizeTooBig (quote s)))

/-- Only a number that is too big is quoted. -/
def parseNumber (numeric : Str) (radix : Nat) (originalSize : Str) : Except Stop Nat :=
  match fromStrRadix u128Limit radix numeric with
  | .ok n => .ok n
  | .error .posOverflow => sizeTooBig quote originalSize
  | .error _ => .error (.err (.parseFailure originalSize))

namespace Parser

/-- Without the "b" of a byte count, which needs a number. -/
def withoutCount (p : Parser) (size numeric unit : Str) : Except Stop Str :=
  if p.countsBytes unit then if numeric = [] then parseFailure quote size else .ok unit.dropLast else .ok unit

/-- The unit of a size with this numeric part. -/
def suffix (p : Parser) (size numeric : Str) : Except Stop Str := do
  let unit ← p.withoutCount quote size numeric (p.defaulted (size.drop numeric.length))
  if p.allows unit then return unit
  else if numeric = [] then parseFailure quote size
  else invalidSuffix quote size

def number (p : Parser) (system : NumberSystem) (numeric size : Str) : Except Stop Nat :=
  match system with
  | .decimal => if numeric = [] ∧ p.noEmptyNumeric = false then .ok 1 else parseNumber quote numeric 10 size
  | .octal => parseNumber quote (numeric.dropWhile (· = '0')) 8 size
  | .hexadecimal => parseNumber quote (trimPairs '0' 'x' numeric) 16 size
  | .binary => parseNumber quote (trimPairs '0' 'b' numeric) 2 size

variable (totalPhysicalMemory : Option Nat)

/-- The product is not checked. -/
def share (number : Nat) (size : Str) : Except Stop Nat :=
  match totalPhysicalMemory with
  | some total =>
    match Checked.mul u128Limit (number / 100) total with
    | some v => .ok v
    | none => .error .panic
  | none => .error (.err (.physicalMem size))

def percentage (numeric size : Str) : Except Stop Nat := do
  let number ← parseNumber quote numeric 10 size
  share totalPhysicalMemory number size

def parse (p : Parser) (size : Str) : Except Stop Nat :=
  if size = [] then parseFailure quote size
  else do
    let system := determineNumberSystem size
    let numeric := numericString system size
    let unit ← p.suffix quote size numeric
    if unit = ['%'] then percentage quote totalPhysicalMemory numeric size
    else
      match unitBase p.capitalBBytes unit with
      | none => if numeric = [] then parseFailure quote size else invalidSuffix quote size
      | some (base, exponent) =>
        let number ← p.number quote system numeric size
        match Checked.mul u128Limit number (base ^ exponent) with
        | some v => return v
        | none => sizeTooBig quote size

end Parser

end Parse

end Peiosutils.ParseSize

/-!
# What a size means

A size is read as a number with a unit (`Reads`): the number is decimal, octal when it has a leading zero and further
digits, hexadecimal behind "0x" or binary behind "0b", and is one if it is omitted; a percentage is a decimal number of
hundredths of the physical memory. `Meets` says of a result that it is the number times the unit's factor if the two are
`u128`, too big if one of them is not, and another error if nothing is read.
-/

namespace Peiosutils.ParseSize

open Radix (digit value isDigit)

/-! ## Units -/

def letters : Str := "KMGTPEZYRQ".toList

/-- The units of a letter at a place. -/
def lettered (c : Char) (i : Nat) : List (Str × Nat) :=
  [([c], 1024 ^ (i + 1)), ([c, 'i', 'B'], 1024 ^ (i + 1)), ([c, 'B'], 1000 ^ (i + 1)), ([c, 'D'], 1000 ^ (i + 1))]

/-- The known units with their factors. -/
def unitFactors (capitalBBytes : Bool) : List (Str × Nat) :=
  [([], 1), (['b'], 512)] ++ (letters.zipIdx.flatMap fun c => lettered c.1 c.2 ++ lettered c.1.toLower c.2) ++
    if capitalBBytes then [(['B'], 1)] else []

namespace Parser

/-- What the settings make of the unit. -/
def effective (p : Parser) (rest : Str) : Str :=
  if p.countsBytes (p.defaulted rest) then (p.defaulted rest).dropLast else p.defaulted rest

def Known (p : Parser) (unit : Str) : Prop :=
  p.allows unit = true ∧ ∃ f, (unit, f) ∈ unitFactors p.capitalBBytes

def Percent (p : Parser) (unit : Str) : Prop := p.allows unit = true ∧ unit = ['%']

end Parser

/-! ## Numbers -/

/-- A number with what is behind it. A hexadecimal digit behind a hexadecimal number belongs to it. -/
inductive Numeral (rest : Str) : Str → Nat → Prop
  | decimal {ds : Str} {n : Nat} (hne : ds ≠ []) (hzero : ds.head? = some '0' → ds = ['0'])
      (h : value 10 0 ds = some n) : Numeral rest ds n
  | octal {ds : Str} {n : Nat} (hne : ds ≠ []) (h : value 8 0 ds = some n) : Numeral rest ('0' :: ds) n
  | hexadecimal {ds : Str} {n : Nat} (hne : ds ≠ []) (h : value 16 0 ds = some n)
      (hrest : ∀ c ∈ rest.head?, isDigit 16 c = false) : Numeral rest ('0' :: 'x' :: ds) n
  | binary {ds : Str} {n : Nat} (hne : ds ≠ []) (h : value 2 0 ds = some n) : Numeral rest ('0' :: 'b' :: ds) n

/-- The number and the unit of a size. -/
inductive Reads (p : Parser) (size : Str) : Nat → Str → Prop
  | number {num rest : Str} {n : Nat} (hsize : size = num ++ rest) (hnum : Numeral rest num n)
      (hunit : p.Known (p.effective rest)) : Reads p size n (p.effective rest)
  | omitted (hne : size ≠ []) (hallowed : p.noEmptyNumeric = false) (hcount : p.countsBytes size = false)
      (hunit : p.Known size) : Reads p size 1 size
  | percentage {ds rest : Str} {n : Nat} (hsize : size = ds ++ rest) (hne : ds ≠ []) (h : value 10 0 ds = some n)
      (hunit : p.Percent (p.effective rest)) : Reads p size n (p.effective rest)

/-- A number of units. -/
inductive Amount (p : Parser) (total : Option Nat) (n : Nat) : Str → Nat → Prop
  | product {unit : Str} {f : Nat} (h : (unit, f) ∈ unitFactors p.capitalBBytes) : Amount p total n unit (n * f)
  | percentage {t : Nat} (h : total = some t) : Amount p total n ['%'] (n * t / 100)

/-- What a result should be. -/
structure Meets (p : Parser) (total : Option Nat) (size : Str) (r : Except Stop Nat) : Prop where
  never_panics : r ≠ .error .panic
  ok_iff : ∀ v, r = .ok v ↔
    ∃ n unit, Reads p size n unit ∧ n < u128Limit ∧ Amount p total n unit v ∧ v < u128Limit
  tooBig_iff : (∃ s, r = .error (.err (.sizeTooBig s))) ↔
    ∃ n unit, Reads p size n unit ∧ (u128Limit ≤ n ∨ ∃ v, Amount p total n unit v ∧ u128Limit ≤ v)

/-! ## The table of units -/

theorem lookup_iff {unit : Str} {be : Nat × Nat} : unitEntries.lookup unit = some be ↔ (unit, be) ∈ unitEntries := by
  constructor
  · intro h
    obtain ⟨l₁, l₂, hl, -⟩ := List.lookup_eq_some_iff.1 h
    rw [hl]
    exact List.mem_append_right _ List.mem_cons_self
  · have hall : ∀ e ∈ unitEntries, unitEntries.lookup e.1 = some e.2 := by decide +kernel
    exact fun h => hall _ h

theorem entries_factors : (∀ e ∈ unitEntries, (e.1, e.2.1 ^ e.2.2) ∈ unitFactors false) ∧
    ∀ x ∈ unitFactors false, ∃ e ∈ unitEntries, e.1 = x.1 ∧ e.2.1 ^ e.2.2 = x.2 := by
  decide +kernel

theorem mem_unitFactors {capitalBBytes : Bool} {x : Str × Nat} :
    x ∈ unitFactors capitalBBytes ↔ x ∈ unitFactors false ∨ capitalBBytes = true ∧ x = (['B'], 1) := by
  cases capitalBBytes <;> simp [unitFactors, or_assoc]

/-- The table holds the known units. -/
theorem unitBase_iff {capitalBBytes : Bool} {unit : Str} {f : Nat} :
    (∃ base exponent, unitBase capitalBBytes unit = some (base, exponent) ∧ base ^ exponent = f) ↔
      (unit, f) ∈ unitFactors capitalBBytes := by
  have hbyte : ∀ f, (['B'], f) ∉ unitFactors false := by
    have hall : ∀ x ∈ unitFactors false, x.1 ≠ ['B'] := by decide +kernel
    exact fun f hf => hall _ hf rfl
  rw [mem_unitFactors, unitBase]
  by_cases hunit : unit = ['B'] ∧ capitalBBytes = true
  · rw [if_pos hunit, hunit.1]
    constructor
    · rintro ⟨base, exponent, h, rfl⟩
      cases h
      exact Or.inr ⟨hunit.2, rfl⟩
    · rintro (h | ⟨-, h⟩)
      · exact absurd h (hbyte f)
      · exact ⟨1, 0, rfl, (Prod.ext_iff.1 h).2.symm⟩
  · rw [if_neg hunit]
    constructor
    · rintro ⟨base, exponent, h, rfl⟩
      exact Or.inl (entries_factors.1 _ (lookup_iff.1 h))
    · rintro (h | ⟨hcapital, h⟩)
      · obtain ⟨⟨unit', base, exponent⟩, he, rfl, hf⟩ := entries_factors.2 _ h
        exact ⟨base, exponent, lookup_iff.2 he, hf⟩
      · exact absurd ⟨(Prod.ext_iff.1 h).1, hcapital⟩ hunit

/-- A unit has one factor. -/
theorem factor_unique {capitalBBytes : Bool} {unit : Str} {f f' : Nat} (h : (unit, f) ∈ unitFactors capitalBBytes)
    (h' : (unit, f') ∈ unitFactors capitalBBytes) : f = f' := by
  obtain ⟨base, exponent, hbase, rfl⟩ := unitBase_iff.2 h
  obtain ⟨base', exponent', hbase', rfl⟩ := unitBase_iff.2 h'
  cases hbase.symm.trans hbase'
  rfl

/-! ## How units begin -/

/-- No digit, no "x", and a "b" only on its own. -/
def Begins (unit : Str) : Bool :=
  unit.head?.all fun c => !c.isDigit && c != 'x' && (c != 'b' || unit == ['b'])

theorem begins_of_factor {capitalBBytes : Bool} {unit : Str} {f : Nat} (h : (unit, f) ∈ unitFactors capitalBBytes) :
    Begins unit = true := by
  have hall : ∀ x ∈ unitFactors false, Begins x.1 = true := by decide +kernel
  rcases mem_unitFactors.1 h with h | ⟨-, h⟩
  · exact hall _ h
  · cases (Prod.ext_iff.1 h).1
    decide

/-- A unit that stands in a size. -/
structure Stands (p : Parser) (c : Char) (tail : Str) : Prop where
  not_digit : c.isDigit = false
  ne_x : c ≠ 'x'
  of_b : c = 'b' → tail = [] ∨ tail = ['b'] ∧ p.bByteCount = true

theorem stands_of_begins {p : Parser} {c : Char} {tail : Str} (h : Begins (p.effective (c :: tail)) = true) :
    Stands p c tail := by
  have hdefaulted : p.defaulted (c :: tail) = c :: tail := by
    rw [Parser.defaulted]
    cases p.defaultUnit <;> rfl
  rw [Parser.effective, hdefaulted] at h
  have hbegins : ∀ unit : Str, Begins (c :: unit) = true →
      c.isDigit = false ∧ c ≠ 'x' ∧ (c = 'b' → unit = []) := by
    intro unit h
    simp only [Begins, List.head?_cons, Option.all_some, Bool.and_eq_true, Bool.not_eq_true', bne_iff_ne,
      Bool.or_eq_true, beq_iff_eq, List.cons.injEq] at h
    exact ⟨h.1.1, h.1.2, fun hb => h.2.elim (fun hne => absurd hb hne) And.right⟩
  by_cases hcount : p.countsBytes (c :: tail)
  · rw [if_pos hcount] at h
    simp only [Parser.countsBytes, Bool.and_eq_true, beq_iff_eq] at hcount
    cases tail with
    | nil =>
      cases hcount.2
      exact ⟨by decide, by decide, fun _ => Or.inl rfl⟩
    | cons d tail =>
      obtain ⟨hdigit, hx, hb⟩ := hbegins _ h
      refine ⟨hdigit, hx, fun hc => Or.inr ?_⟩
      have htail := hb hc
      cases tail with
      | nil =>
        cases hcount.2
        exact ⟨rfl, hcount.1⟩
      | cons e tail => cases htail
  · rw [if_neg hcount] at h
    obtain ⟨hdigit, hx, hb⟩ := hbegins _ h
    exact ⟨hdigit, hx, fun hc => Or.inl (hb hc)⟩

theorem Parser.Known.stands {p : Parser} {c : Char} {tail : Str} (h : p.Known (p.effective (c :: tail))) :
    Stands p c tail := by
  obtain ⟨-, f, hf⟩ := h
  exact stands_of_begins (begins_of_factor hf)

theorem Parser.Percent.stands {p : Parser} {c : Char} {tail : Str} (h : p.Percent (p.effective (c :: tail))) :
    Stands p c tail :=
  stands_of_begins (by rw [h.2]; decide)

theorem percent_not_factor {capitalBBytes : Bool} {f : Nat} : (['%'], f) ∉ unitFactors capitalBBytes := by
  have hall : ∀ x ∈ unitFactors false, x.1 ≠ ['%'] := by decide +kernel
  intro h
  rcases mem_unitFactors.1 h with h | ⟨-, h⟩
  · exact hall _ h rfl
  · cases (Prod.ext_iff.1 h).1

end Peiosutils.ParseSize

/-!
# How a size is read

The number of a size ends where its digits do: what a size reads follows from the decimal digits at its front, or from
the digits behind its prefix (`reads_iff`). A unit that stands in a size does not begin with a digit nor with an "x",
and with a "b" only on its own, so that a prefix is one in all readings (`not_reads_digits_x`, `reads_digits_b`).
-/

namespace Peiosutils.ParseSize

open Radix (digit value isDigit)

variable {p : Parser} {size rest unit : Str} {n : Nat}

/-! ## Digits -/

theorem isDigit_ten : isDigit 10 = Char.isDigit := by
  funext c
  rw [Bool.eq_iff_iff, Char.isDigit, Bool.and_eq_true, decide_eq_true_eq, decide_eq_true_eq, isDigit, digit]
  simp only [Option.isSome_ite]
  change _ ↔ 48 ≤ c.toNat ∧ c.toNat ≤ 57
  split_ifs <;> omega

theorem isDigit_two : isDigit 2 = isBinaryDigit := by
  funext c
  have hzero : c = '0' ↔ c.toNat = 48 := Char.toNat_inj.symm
  have hone : c = '1' ↔ c.toNat = 49 := Char.toNat_inj.symm
  rw [Bool.eq_iff_iff, isBinaryDigit, Bool.or_eq_true, decide_eq_true_eq, decide_eq_true_eq, hzero, hone, isDigit,
    digit]
  simp only [Option.isSome_ite]
  split_ifs <;> omega

theorem isDigit_sixteen : isDigit 16 = Hex.isHexDigit := by
  funext c
  rw [Bool.eq_iff_iff, isDigit, digit]
  simp only [Option.isSome_ite, Hex.isHexDigit, Bool.or_eq_true, Bool.and_eq_true, decide_eq_true_eq]
  change _ ↔ (48 ≤ c.toNat ∧ c.toNat ≤ 57 ∨ 97 ≤ c.toNat ∧ c.toNat ≤ 102) ∨ 65 ≤ c.toNat ∧ c.toNat ≤ 70
  split_ifs <;> omega

theorem isDigit_mono {r r' : Nat} (hle : r ≤ r') {c : Char} (h : isDigit r' c = false) : isDigit r c = false := by
  rw [← Bool.not_eq_true] at h ⊢
  intro hr
  obtain ⟨d, hd⟩ := Option.isSome_iff_exists.1 hr
  exact h (by rw [isDigit, Radix.digit_mono hle hd, Option.isSome_some])

/-! ## Readings -/

/-- The number that decimal digits at the front make. -/
def number (ds : Str) : Option Nat := if ds.head? = some '0' ∧ ds ≠ ['0'] then value 8 0 ds else value 10 0 ds

/-- Digits behind a prefix, with their unit. -/
def Prefixed (p : Parser) (radix : Nat) (tail : Str) (n : Nat) (unit : Str) : Prop :=
  tail.takeWhile (isDigit radix) ≠ [] ∧ value radix 0 (tail.takeWhile (isDigit radix)) = some n ∧
    unit = p.effective (tail.dropWhile (isDigit radix)) ∧ p.Known unit

/-- Decimal digits at the front, with their unit. -/
def Fronted (p : Parser) (size : Str) (n : Nat) (unit : Str) : Prop :=
  size.takeWhile (isDigit 10) ≠ [] ∧ unit = p.effective (size.dropWhile (isDigit 10)) ∧
    (p.Known unit ∧ number (size.takeWhile (isDigit 10)) = some n ∨
      p.Percent unit ∧ value 10 0 (size.takeWhile (isDigit 10)) = some n)

/-- No number at the front. -/
def Omitted (p : Parser) (size : Str) (n : Nat) (unit : Str) : Prop :=
  size ≠ [] ∧ p.noEmptyNumeric = false ∧ p.countsBytes size = false ∧ p.Known size ∧ n = 1 ∧ unit = size

theorem Parser.Known.head (h : p.Known (p.effective rest)) : ∀ c ∈ rest.head?, isDigit 10 c = false := by
  cases rest with
  | nil => simp
  | cons c tail =>
    simp only [List.head?_cons, Option.mem_some_iff, forall_eq']
    rw [isDigit_ten]
    exact h.stands.not_digit

theorem Parser.Percent.head (h : p.Percent (p.effective rest)) : ∀ c ∈ rest.head?, isDigit 10 c = false := by
  cases rest with
  | nil => simp
  | cons c tail =>
    simp only [List.head?_cons, Option.mem_some_iff, forall_eq']
    rw [isDigit_ten]
    exact h.stands.not_digit

theorem value_zero_cons (radix : Nat) (hradix : 0 < radix) (ds : Str) : value radix 0 ('0' :: ds) = value radix 0 ds :=
  Radix.value_zeros hradix 1 ds

theorem Reads.cut (h : Reads p size n unit) : Omitted p size n unit ∨ Fronted p size n unit ∨
    (∃ tail, size = '0' :: 'x' :: tail ∧ Prefixed p 16 tail n unit) ∨
      ∃ tail, size = '0' :: 'b' :: tail ∧ Prefixed p 2 tail n unit := by
  cases h with
  | omitted hne hallowed hcount hunit => exact Or.inl ⟨hne, hallowed, hcount, hunit, rfl, rfl⟩
  | @percentage ds rest n hsize hne hvalue hunit =>
    obtain ⟨htake, hdrop⟩ := Radix.cut_eq hvalue hunit.head
    refine Or.inr (Or.inl ?_)
    rw [Fronted, hsize, htake, hdrop]
    exact ⟨hne, rfl, Or.inr ⟨hunit, hvalue⟩⟩
  | @number num rest n hsize hnum hunit =>
    cases hnum with
    | decimal hne hzero hvalue =>
      obtain ⟨htake, hdrop⟩ := Radix.cut_eq hvalue hunit.head
      refine Or.inr (Or.inl ?_)
      rw [Fronted, hsize, htake, hdrop, ParseSize.number, if_neg (fun h => h.2 (hzero h.1))]
      exact ⟨hne, rfl, Or.inl ⟨hunit, hvalue⟩⟩
    | @octal ds n hne hvalue =>
      obtain ⟨m, hm, -⟩ := Radix.value_mono (show 8 ≤ 10 by decide) (Nat.le_refl 0) hvalue
      obtain ⟨htake, hdrop⟩ := Radix.cut_eq ((value_zero_cons 10 (by decide) ds).trans hm) hunit.head
      refine Or.inr (Or.inl ?_)
      rw [Fronted, hsize, htake, hdrop, ParseSize.number,
        if_pos ⟨rfl, fun h => hne (List.cons.inj h).2⟩, value_zero_cons 8 (by decide)]
      exact ⟨List.cons_ne_nil _ _, rfl, Or.inl ⟨hunit, hvalue⟩⟩
    | @hexadecimal ds n hne hvalue hrest =>
      obtain ⟨htake, hdrop⟩ := Radix.cut_eq hvalue hrest
      refine Or.inr (Or.inr (Or.inl ⟨ds ++ rest, hsize, ?_⟩))
      rw [Prefixed, htake, hdrop]
      exact ⟨hne, hvalue, rfl, hunit⟩
    | @binary ds n hne hvalue =>
      obtain ⟨htake, hdrop⟩ := Radix.cut_eq hvalue fun c hc => isDigit_mono (show 2 ≤ 10 by decide) (hunit.head c hc)
      refine Or.inr (Or.inr (Or.inr ⟨ds ++ rest, hsize, ?_⟩))
      rw [Prefixed, htake, hdrop]
      exact ⟨hne, hvalue, rfl, hunit⟩

theorem reads_of_fronted (h : Fronted p size n unit) : Reads p size n unit := by
  obtain ⟨hne, rfl, ⟨hunit, hvalue⟩ | ⟨hunit, hvalue⟩⟩ := h
  · refine .number (List.takeWhile_append_dropWhile).symm ?_ hunit
    rw [number] at hvalue
    by_cases hzero : (size.takeWhile (isDigit 10)).head? = some '0' ∧ size.takeWhile (isDigit 10) ≠ ['0']
    · rw [if_pos hzero] at hvalue
      obtain ⟨ds, hds⟩ := List.head?_eq_some_iff.1 hzero.1
      rw [hds] at hvalue hzero ⊢
      exact .octal (fun h => hzero.2 (by rw [h])) ((value_zero_cons 8 (by decide) ds).symm.trans hvalue)
    · rw [if_neg hzero] at hvalue
      exact .decimal hne (fun h => Classical.not_not.1 fun hne => hzero ⟨h, hne⟩) hvalue
  · exact .percentage (List.takeWhile_append_dropWhile).symm hne hvalue hunit

theorem reads_of_hexadecimal {tail : Str} (h : Prefixed p 16 tail n unit) : Reads p ('0' :: 'x' :: tail) n unit := by
  obtain ⟨hne, hvalue, rfl, hunit⟩ := h
  refine .number ?_ (.hexadecimal hne hvalue (Radix.head_dropWhile _ _)) hunit
  rw [List.cons_append, List.cons_append, List.takeWhile_append_dropWhile]

theorem reads_of_binary {tail : Str} (h : Prefixed p 2 tail n unit) : Reads p ('0' :: 'b' :: tail) n unit := by
  obtain ⟨hne, hvalue, rfl, hunit⟩ := h
  refine .number ?_ (.binary hne hvalue) hunit
  rw [List.cons_append, List.cons_append, List.takeWhile_append_dropWhile]

/-- What a size reads. -/
theorem reads_iff : Reads p size n unit ↔ Omitted p size n unit ∨ Fronted p size n unit ∨
    (∃ tail, size = '0' :: 'x' :: tail ∧ Prefixed p 16 tail n unit) ∨
      ∃ tail, size = '0' :: 'b' :: tail ∧ Prefixed p 2 tail n unit := by
  constructor
  · exact Reads.cut
  · rintro (⟨hne, hallowed, hcount, hunit, rfl, rfl⟩ | h | ⟨tail, rfl, h⟩ | ⟨tail, rfl, h⟩)
    · exact .omitted hne hallowed hcount hunit
    · exact reads_of_fronted h
    · exact reads_of_hexadecimal h
    · exact reads_of_binary h

/-! ## Digits or a prefix -/

theorem not_omitted_of_digit {c : Char} {tail : Str} (hc : c.isDigit = true) : ¬ Omitted p (c :: tail) n unit := by
  rintro ⟨-, -, -, ⟨-, f, hf⟩, -, -⟩
  have h := begins_of_factor hf
  simp [Begins, hc] at h

theorem takeWhile_zero {c : Char} {tail : Str} (hc : isDigit 10 c = false) :
    ('0' :: c :: tail).takeWhile (isDigit 10) = ['0'] ∧ ('0' :: c :: tail).dropWhile (isDigit 10) = c :: tail := by
  have hzero : isDigit 10 '0' = true := by decide
  simp [hzero, hc]

theorem not_fronted_x {tail : Str} : ¬ Fronted p ('0' :: 'x' :: tail) n unit := by
  rintro ⟨-, rfl, h⟩
  rw [(takeWhile_zero (by decide)).2] at h
  rcases h with h | h
  · exact h.1.stands.ne_x rfl
  · exact h.1.stands.ne_x rfl

/-- Only a "b" that is a byte count lets a block stand behind a zero. -/
theorem fronted_b {tail : Str} (hne : tail ≠ []) : Fronted p ('0' :: 'b' :: tail) n unit ↔
    tail = ['b'] ∧ p.bByteCount = true ∧ p.allows ['b'] = true ∧ n = 0 ∧ unit = ['b'] := by
  have hb := @takeWhile_zero 'b' tail (by decide)
  rw [Fronted, hb.1, hb.2]
  have heffective : p.bByteCount = true → p.effective ['b', 'b'] = ['b'] := by
    intro hcount
    have hdefaulted : p.defaulted ['b', 'b'] = ['b', 'b'] := by
      rw [Parser.defaulted]
      cases p.defaultUnit <;> rfl
    rw [Parser.effective, hdefaulted, if_pos (by simp [Parser.countsBytes, hcount])]
    rfl
  have hzero : number ['0'] = some 0 := by decide
  constructor
  · rintro ⟨-, rfl, ⟨hunit, hvalue⟩ | ⟨hunit, -⟩⟩
    · obtain ⟨rfl, hcount⟩ := (hunit.stands.of_b rfl).resolve_left hne
      rw [heffective hcount] at hunit ⊢
      exact ⟨rfl, hcount, hunit.1, Option.some.inj (hvalue.symm.trans hzero), rfl⟩
    · obtain ⟨rfl, hcount⟩ := (hunit.stands.of_b rfl).resolve_left hne
      rw [heffective hcount] at hunit
      exact absurd hunit.2 (by decide)
  · rintro ⟨rfl, hcount, hallows, rfl, rfl⟩
    rw [heffective hcount]
    exact ⟨by decide, rfl, Or.inl ⟨⟨hallows, 512, by simp [unitFactors]⟩, hzero⟩⟩

end Peiosutils.ParseSize
