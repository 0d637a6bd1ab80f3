import Mathlib.Data.List.TakeWhile
import Peiosutils.Lib.Decimal
import Peiosutils.Lib.Numeral

/-!
# Comparing numbers as text (`numeric_str_cmp.rs`)

`NumInfo.parse` finds the sign, the exponent and the digits of the number at the start of a text, and `numericStrCmp`
compares two such numbers without their values. On texts that are decimal numbers as a whole, without a plus sign, this
compares the values (`numericStrCmp_plain`).
-/

set_option autoImplicit false

namespace Peiosutils.Sort

open Ascii Decimal

/-! ## The code -/

inductive Sign where
  | negative
  | positive
  deriving DecidableEq, Repr

def Sign.cmp : Sign → Sign → Ordering
  | .negative, .positive => .lt
  | .positive, .negative => .gt
  | _, _ => .eq

structure NumInfo where
  exponent : Int
  sign : Sign
  deriving DecidableEq, Repr

structure NumInfoParseSettings where
  acceptSiUnits : Bool
  thousandsSeparator : Option UInt8
  decimalPt : Option UInt8

namespace NumInfo

/-- The variables of the loop of `parse`. -/
structure State where
  exponent : Int
  hadDecimalPt : Bool
  hadDigit : Bool
  start : Option Nat
  sign : Sign
  firstChar : Bool

/-- `is_invalid_char`, with the new value of `had_decimal_pt`. -/
def isInvalidChar (c : UInt8) (hadDecimalPt : Bool) (settings : NumInfoParseSettings) : Bool × Bool :=
  if some c = settings.decimalPt then (hadDecimalPt, true) else (!isDigit c, hadDecimalPt)

/-- `K`, `k`, `M`, `G`, `T`, `P`, `E`, `Z`, `Y`, `R` and `Q`. -/
def isSiUnit (c : UInt8) : Bool := [75, 107, 77, 71, 84, 80, 69, 90, 89, 82, 81].contains c

/-- What a digit does to the variables. -/
def State.digit (s : State) (idx : Nat) (char : UInt8) : State :=
  let s := { s with hadDigit := true }
  if s.start.isNone && char == 48 && !s.hadDecimalPt then s
  else
    let exponent := if s.start.isNone && char == 48 then s.exponent - 1 else s.exponent
    { s with
      exponent := if s.hadDecimalPt then exponent else exponent + 1
      start := if s.start.isNone && char != 48 then some idx else s.start }

/-- No number, or zeros up to `idx` only. -/
def zero (s : State) (idx : Nat) : NumInfo × Nat × Nat :=
  (⟨0, .positive⟩, if s.hadDigit then (idx, idx) else (0, 0))

/-- The loop of `parse`, from `idx` on. -/
def parseFrom (settings : NumInfoParseSettings) : List UInt8 → Nat → State → NumInfo × Nat × Nat
  | [], idx, s =>
    match s.start with
    | some start => (⟨s.exponent, s.sign⟩, start, idx)
    | none => zero s idx
  | char :: rest, idx, s =>
    if s.firstChar && isWhitespace char then parseFrom settings rest (idx + 1) s
    else if s.firstChar && char == 45 then
      parseFrom settings rest (idx + 1) { s with sign := .negative, firstChar := false }
    else
      let s := { s with firstChar := false }
      if settings.thousandsSeparator = some char then parseFrom settings rest (idx + 1) s
      else
        let (invalid, hadDecimalPt) := isInvalidChar char s.hadDecimalPt settings
        let s := { s with hadDecimalPt }
        if invalid then
          match s.start with
          | some start =>
            let hasSiUnit := settings.acceptSiUnits && isSiUnit char
            (⟨s.exponent, s.sign⟩, start, if hasSiUnit then idx + 1 else idx)
          | none => zero s idx
        else if some char = settings.decimalPt then parseFrom settings rest (idx + 1) s
        else parseFrom settings rest (idx + 1) (s.digit idx char)

def initial : State := ⟨-1, false, false, none, .positive, true⟩

/-- The number at the start of a text, and the range of its digits. -/
def parse (num : List UInt8) (settings : NumInfoParseSettings) : NumInfo × Nat × Nat :=
  parseFrom settings num 0 initial

end NumInfo

/-- `get_unit`. -/
def getUnit : Option UInt8 → Nat
  | none => 0
  | some unit =>
    if unit = 75 ∨ unit = 107 then 1
    else if unit = 77 then 2
    else if unit = 71 then 3
    else if unit = 84 then 4
    else if unit = 80 then 5
    else if unit = 69 then 6
    else if unit = 90 then 7
    else if unit = 89 then 8
    else if unit = 82 then 9
    else if unit = 81 then 10
    else 0

/-- The walk over the digits from the front. -/
def walkDigits : List UInt8 → List UInt8 → Ordering
  | [], [] => .eq
  | c :: as, [] => if c = 48 ∧ as.all (· = 48) then .eq else .gt
  | [], c :: bs => if c = 48 ∧ bs.all (· = 48) then .eq else .lt
  | a :: as, b :: bs =>
    match compare a b with
    | .eq => walkDigits as bs
    | ord => ord

def numericStrCmp (a : List UInt8) (aInfo : NumInfo) (b : List UInt8) (bInfo : NumInfo) : Ordering :=
  if aInfo.sign ≠ bInfo.sign then aInfo.sign.cmp bInfo.sign
  else
    let ordering :=
      if aInfo.exponent ≠ bInfo.exponent ∧ a ≠ [] ∧ b ≠ [] then compare aInfo.exponent bInfo.exponent
      else walkDigits (a.filter isDigit) (b.filter isDigit)
    if aInfo.sign = .negative then ordering.swap else ordering

def humanNumericStrCmp (a : List UInt8) (aInfo : NumInfo) (b : List UInt8) (bInfo : NumInfo) : Ordering :=
  if aInfo.sign ≠ bInfo.sign then aInfo.sign.cmp bInfo.sign
  else
    let ordering := compare (getUnit a.getLast?) (getUnit b.getLast?)
    if ordering = .eq then numericStrCmp a aInfo b bInfo
    else if aInfo.sign = .negative then ordering.swap
    else ordering

/-! ## The walk over the digits -/

theorem walkDigits_eq {as bs : List UInt8} (ha : ∀ a ∈ as, isDigit a = true) (hb : ∀ b ∈ bs, isDigit b = true) :
    walkDigits as bs = compareDigits (as.map digit) (bs.map digit) := by
  have hzero : ∀ c : UInt8, ∀ cs : List UInt8, (∀ d ∈ c :: cs, isDigit d = true) →
      ((c = 48 ∧ cs.all (· = 48) = true) ↔ (digit c = 0 ∧ (cs.map digit).all (· = 0) = true)) := by
    intro c cs h
    rw [digit_eq_zero (h c List.mem_cons_self), List.all_map, List.all_eq_true, List.all_eq_true]
    refine and_congr_right fun _ => forall_congr' fun d => forall_congr' fun hd => ?_
    simp [digit_eq_zero (h d (List.mem_cons_of_mem c hd))]
  induction as generalizing bs with
  | nil =>
    cases bs with
    | nil => rfl
    | cons b bs => simp only [walkDigits, List.map_nil, List.map_cons, compareDigits, hzero b bs hb]
  | cons a as ih =>
    cases bs with
    | nil => simp only [walkDigits, List.map_nil, List.map_cons, compareDigits, hzero a as ha]
    | cons b bs =>
      have hdigit := compare_digit (ha a List.mem_cons_self) (hb b List.mem_cons_self)
      have hrest := ih (fun c hc => ha c (List.mem_cons_of_mem a hc)) fun c hc => hb c (List.mem_cons_of_mem b hc)
      show (match compare a b with | .eq => walkDigits as bs | ord => ord) =
        (match compare (digit a) (digit b) with | .eq => compareDigits (as.map digit) (bs.map digit) | ord => ord)
      rw [hdigit, hrest]

/-! ## Decimal numbers -/

/-- The values of the digits of a text. -/
def digitsOf (p : List UInt8) : List Nat := (p.filter isDigit).map digit

/-- How many digits stand behind the point. -/
def fracLength (p : List UInt8) : Nat := (p.dropWhile (· ≠ 46)).countP isDigit

/-- Digits with at most one point among them. -/
def isPlain (p : List UInt8) : Bool := p.all (fun c => isDigit c || c == 46) && p.count 46 ≤ 1 && p.any isDigit

/-- The text without its sign, and whether it is negative. -/
def splitSign : List UInt8 → Bool × List UInt8
  | 45 :: body => (true, body)
  | 43 :: body => (false, body)
  | body => (false, body)

/-- What `parse::<f64>` reads in a text without letters, before it is rounded. -/
def parseDecimal (line : List UInt8) : Option ℚ :=
  let (negative, body) := splitSign line
  if isPlain body then
    let value : ℚ := natValue (digitsOf body) / 10 ^ fracLength body
    some (if negative then -value else value)
  else none

theorem digitsOf_append (p q : List UInt8) : digitsOf (p ++ q) = digitsOf p ++ digitsOf q := by
  rw [digitsOf, List.filter_append, List.map_append, digitsOf, digitsOf]

theorem digits_digitsOf (p : List UInt8) : Digits (digitsOf p) := by
  intro d hd
  obtain ⟨c, hc, rfl⟩ := List.mem_map.1 hd
  exact digit_lt (List.mem_filter.1 hc).2

theorem natValue_append_singleton (ds : List Nat) (d : Nat) : natValue (ds ++ [d]) = 10 * natValue ds + d := by
  rw [natValue, List.foldl_append]
  rfl

theorem isDigit_point : isDigit 46 = false := by decide

theorem digitsOf_digit {c : UInt8} (h : isDigit c = true) : digitsOf [c] = [digit c] := by
  simp [digitsOf, h]

theorem digitsOf_point : digitsOf [46] = [] := by decide

/-- A digit counts for the fraction once there is a point. -/
theorem fracLength_append_digit {p : List UInt8} {c : UInt8} (h : isDigit c = true) :
    fracLength (p ++ [c]) = if 46 ∈ p then fracLength p + 1 else 0 := by
  have hc : c ≠ 46 := fun heq => by
    rw [heq, isDigit_point] at h
    cases h
  unfold fracLength
  induction p with
  | nil => simp [hc]
  | cons x p ih =>
    by_cases hx : x = 46
    · subst hx
      simp [List.countP_append, List.countP_cons, h]
      omega
    · rw [List.cons_append, List.dropWhile_cons_of_pos (by simpa using hx), ih,
        List.dropWhile_cons_of_pos (by simpa using hx)]
      simp [Ne.symm hx]

theorem fracLength_append_point {p : List UInt8} (h : 46 ∉ p) : fracLength (p ++ [46]) = 0 ∧ fracLength p = 0 := by
  have hdrop : p.dropWhile (· ≠ 46) = [] := by
    rw [List.dropWhile_eq_nil_iff]
    intro c hc
    have : c ≠ 46 := fun heq => h (heq ▸ hc)
    simpa using this
  unfold fracLength
  rw [List.dropWhile_append, hdrop]
  decide

namespace NumInfo

/-- What is consumed of the digits and points `p`, which start at `offset`. -/
structure Consumed (offset : Nat) (p : List UInt8) (sign : Sign) (s : State) : Prop where
  sign : s.sign = sign
  first : s.firstChar = true → p = []
  point : s.hadDecimalPt = decide (46 ∈ p)
  had : s.hadDigit = p.any isDigit
  /-- The exponent is that of the digits from the start on. -/
  exponent : s.exponent = ((digitsOf (s.start.elim [] fun start => p.drop (start - offset))).length : Int) -
    fracLength p - 1
  value : natValue (digitsOf p) = natValue (digitsOf (s.start.elim [] fun start => p.drop (start - offset)))
  start : ∀ start, s.start = some start → offset ≤ start ∧ start - offset < p.length ∧
    ∃ d ds, digitsOf (p.drop (start - offset)) = d :: ds ∧ d ≠ 0

theorem Consumed.nil (offset : Nat) (sign : Sign) {s : State} (hs : s.sign = sign) (he : s.exponent = -1)
    (hp : s.hadDecimalPt = false) (hd : s.hadDigit = false) (hn : s.start = none) : Consumed offset [] sign s where
  sign := hs
  first _ := rfl
  point := by simp [hp]
  had := by simp [hd]
  exponent := by
    rw [he, hn]
    rfl
  value := by simp [hn]
  start start h := by simp [hn] at h

theorem fracLength_eq_zero {p : List UInt8} (h : 46 ∉ p) : fracLength p = 0 := (fracLength_append_point h).2

/-- A digit is consumed. -/
theorem Consumed.digit {offset : Nat} {p : List UInt8} {sign : Sign} {s : State} (h : Consumed offset p sign s)
    {c : UInt8} (hc : isDigit c = true) :
    Consumed offset (p ++ [c]) sign (({ s with firstChar := false } : State).digit (offset + p.length) c) := by
  obtain ⟨hsign, hfirst, hpoint, hhad, hexp, hval, hstart⟩ := h
  obtain ⟨exponent, hadDecimalPt, hadDigit, start, sign', firstChar⟩ := s
  simp only at hsign hfirst hpoint hhad hexp hval hstart
  have hc' : c ≠ 46 := fun heq => by
    rw [heq, isDigit_point] at hc
    cases hc
  have hpoint' : decide (46 ∈ p ++ [c]) = hadDecimalPt := by simp [hpoint, Ne.symm hc']
  have hhad' : (p ++ [c]).any isDigit = true := by simp [hc]
  have hfrac := fracLength_append_digit (p := p) hc
  cases start with
  | some start =>
    obtain ⟨hle, hlt, d, ds, hds, hd⟩ := hstart start rfl
    simp only [Option.elim_some] at hexp hval
    have hdrop : (p ++ [c]).drop (start - offset) = p.drop (start - offset) ++ [c] :=
      List.drop_append_of_le_length (Nat.le_of_lt hlt)
    simp only [State.digit, Option.isNone_some, Bool.false_and, Bool.false_eq_true, if_false]
    refine ⟨hsign, fun h => (by cases h), hpoint'.symm, hhad'.symm, ?_, ?_, ?_⟩
    · simp only [Option.elim_some, hdrop, digitsOf_append, digitsOf_digit hc, List.length_append, List.length_singleton]
      rw [hfrac, hpoint, hexp]
      by_cases hmem : 46 ∈ p
      · simp [hmem]
      · rw [fracLength_eq_zero hmem]
        simp [hmem]
    · simp only [Option.elim_some, hdrop, digitsOf_append, digitsOf_digit hc, natValue_append_singleton, hval]
    · intro start' h
      cases h
      refine ⟨hle, ?_, d, ds ++ [Ascii.digit c], ?_, hd⟩
      · rw [List.length_append]
        omega
      · rw [hdrop, digitsOf_append, hds, digitsOf_digit hc]
        rfl
  | none =>
    simp only [Option.elim_none] at hexp hval
    have hzero : natValue (digitsOf p) = 0 := hval
    by_cases h48 : c = 48
    · subst h48
      have hvalue : natValue (digitsOf (p ++ [48])) = 0 := by
        rw [digitsOf_append, digitsOf_digit hc, natValue_append_singleton, hzero]
        rfl
      cases hadDecimalPt with
      | true =>
        simp only [State.digit, Option.isNone_none, beq_self_eq_true, Bool.and_true, Bool.not_true, Bool.and_false,
          Bool.false_eq_true, if_false, if_true, bne_self_eq_false]
        refine ⟨hsign, fun h => (by cases h), hpoint'.symm, hhad'.symm, ?_, hvalue, fun _ h => (by cases h)⟩
        rw [hfrac, if_pos (by simpa using hpoint.symm), hexp]
        push_cast
        simp only [Option.elim_none]
        omega
      | false =>
        simp only [State.digit, Option.isNone_none, beq_self_eq_true, Bool.and_true, Bool.not_false, if_true]
        refine ⟨hsign, fun h => (by cases h), hpoint'.symm, hhad'.symm, ?_, hvalue, fun _ h => (by cases h)⟩
        have hmem : 46 ∉ p := by simpa using hpoint.symm
        rw [hfrac, if_neg hmem, hexp, fracLength_eq_zero hmem]
        rfl
    · have hne : Ascii.digit c ≠ 0 := fun h => h48 ((digit_eq_zero hc).1 h)
      have hbeq : (c == 48) = false := by simpa using h48
      have hdrop : (p ++ [c]).drop (offset + p.length - offset) = [c] := by
        rw [Nat.add_sub_cancel_left, List.drop_left']
        rfl
      simp only [State.digit, Option.isNone_none, hbeq, Bool.and_false, Bool.false_and, Bool.false_eq_true, if_false,
        bne, Bool.not_false, Bool.and_true, if_true]
      refine ⟨hsign, fun h => (by cases h), hpoint'.symm, hhad'.symm, ?_, ?_, ?_⟩
      · simp only [Option.elim_some, hdrop, digitsOf_digit hc, List.length_singleton]
        rw [hfrac, hpoint, hexp]
        by_cases hmem : 46 ∈ p
        · simp [hmem, digitsOf]
        · rw [fracLength_eq_zero hmem]
          simp [hmem, digitsOf]
      · simp only [Option.elim_some, hdrop, digitsOf_append, digitsOf_digit hc, natValue_append_singleton, hzero]
        simp [natValue]
      · intro start' h
        cases h
        refine ⟨Nat.le_add_right _ _, ?_, Ascii.digit c, [], (by rw [hdrop, digitsOf_digit hc]), hne⟩
        rw [List.length_append, List.length_singleton]
        omega

/-- The point is consumed. -/
theorem Consumed.point' {offset : Nat} {p : List UInt8} {sign : Sign} {s : State} (h : Consumed offset p sign s)
    (hp : 46 ∉ p) : Consumed offset (p ++ [46]) sign { s with firstChar := false, hadDecimalPt := true } := by
  obtain ⟨hsign, hfirst, hpoint, hhad, hexp, hval, hstart⟩ := h
  obtain ⟨exponent, hadDecimalPt, hadDigit, start, sign', firstChar⟩ := s
  simp only at hsign hfirst hpoint hhad hexp hval hstart
  have hdigits : ∀ q : List UInt8, digitsOf (q ++ [46]) = digitsOf q := fun q => by
    rw [digitsOf_append, digitsOf_point, List.append_nil]
  have hdrop : ∀ st, start = some st → (p ++ [46]).drop (st - offset) = p.drop (st - offset) ++ [46] := fun st h =>
    List.drop_append_of_le_length (Nat.le_of_lt (hstart st h).2.1)
  have hsig : digitsOf (start.elim [] fun start => (p ++ [46]).drop (start - offset)) =
      digitsOf (start.elim [] fun start => p.drop (start - offset)) := by
    cases start with
    | none => rfl
    | some st => simp only [Option.elim_some, hdrop st rfl, hdigits]
  refine ⟨hsign, fun h => (by cases h), (by simp), (by simpa [isDigit_point] using hhad), ?_, ?_, ?_⟩
  · rw [hsig, (fracLength_append_point hp).1, hexp, (fracLength_append_point hp).2]
  · rw [hsig, hdigits, hval]
  · intro st h
    obtain ⟨hle, hlt, d, ds, hds, hd⟩ := hstart st h
    refine ⟨hle, ?_, d, ds, (by rw [hdrop st h, hdigits, hds]), hd⟩
    rw [List.length_append]
    omega

/-- The settings read a plain number: the point is the decimal point, and no byte of it separates thousands. -/
structure Reads (settings : NumInfoParseSettings) (body : List UInt8) : Prop where
  point : settings.decimalPt = some 46
  thousands : ∀ c ∈ body, settings.thousandsSeparator ≠ some c

/-- The loop consumes a plain number as a whole. -/
theorem parseFrom_plain {settings : NumInfoParseSettings} {offset : Nat} {sign : Sign} (rest : List UInt8) :
    ∀ (p : List UInt8) (s : State), Consumed offset p sign s → Reads settings rest →
      (∀ c ∈ rest, isDigit c = true ∨ c = 46) → (p ++ rest).count 46 ≤ 1 →
      ∃ s', Consumed offset (p ++ rest) sign s' ∧
        parseFrom settings rest (offset + p.length) s = parseFrom settings [] (offset + (p ++ rest).length) s' := by
  induction rest with
  | nil =>
    intro p s hs _ _ _
    rw [List.append_nil]
    exact ⟨s, hs, rfl⟩
  | cons c rest ih =>
    intro p s hs hreads hplain hcount
    have hreads' : Reads settings rest := ⟨hreads.point, fun d hd => hreads.thousands d (List.mem_cons_of_mem c hd)⟩
    have hplain' : ∀ d ∈ rest, isDigit d = true ∨ d = 46 := fun d hd => hplain d (List.mem_cons_of_mem c hd)
    have happ : p ++ c :: rest = (p ++ [c]) ++ rest := by simp
    have hlen : offset + p.length + 1 = offset + (p ++ [c]).length := by
      rw [List.length_append, List.length_singleton, Nat.add_assoc]
    have hthousands := hreads.thousands c List.mem_cons_self
    rw [happ] at hcount ⊢
    rcases hplain c List.mem_cons_self with hc | rfl
    · have hspace : isWhitespace c = false ∧ (c == 45) = false ∧ c ≠ 46 := by
        simp only [isDigit, Bool.and_eq_true, decide_eq_true_eq, UInt8.le_iff_toNat_le] at hc
        have h₁ : 48 ≤ c.toNat := hc.1
        have hne : ∀ d : UInt8, d.toNat < 48 → c ≠ d := fun d hd heq => by
          rw [heq] at h₁
          omega
        simp [isWhitespace, hne 32 (by decide), hne 9 (by decide), hne 10 (by decide), hne 12 (by decide),
          hne 13 (by decide), hne 45 (by decide), hne 46 (by decide)]
      obtain ⟨s', hs', hrun⟩ := ih (p ++ [c]) _ (hs.digit hc) hreads' hplain' hcount
      refine ⟨s', hs', ?_⟩
      rw [← hrun, ← hlen, parseFrom]
      have hpt : ¬ some c = some (46 : UInt8) := fun h => hspace.2.2 (Option.some.inj h)
      simp only [hspace.1, hspace.2.1, Bool.and_false, Bool.false_eq_true, if_false, if_neg hthousands, isInvalidChar,
        hreads.point, if_neg hpt, hc, Bool.not_true]
    · have hmem : 46 ∉ p := fun hmem => by
        have := List.count_pos_iff.2 hmem
        rw [List.count_append, List.count_append, List.count_singleton_self] at hcount
        omega
      have hhad : s.hadDecimalPt = false := by simpa [hmem] using hs.point
      obtain ⟨s', hs', hrun⟩ := ih (p ++ [46]) _ (hs.point' hmem) hreads' hplain' hcount
      refine ⟨s', hs', ?_⟩
      rw [← hrun, ← hlen, parseFrom]
      simp only [show isWhitespace 46 = false by decide, show ((46 : UInt8) == 45) = false by decide, Bool.and_false,
        Bool.false_eq_true, if_false, if_neg hthousands, isInvalidChar, hreads.point, if_true, hhad]

end NumInfo

/-! ## Plain numbers -/

/-- A number as its sign, its digits and its exponent give it. -/
structure Scaled (value : ℚ) (num : List UInt8) (info : NumInfo) : Prop where
  value : value = (if info.sign = .negative then -1 else 1) * (mantissa (digitsOf num) * 10 ^ info.exponent)
  digits : num = [] ∧ info.sign = .positive ∨ ∃ d ds, digitsOf num = d :: ds ∧ d ≠ 0

/-- A number as `NumInfo` and its digits describe it. -/
structure Describes (value : ℚ) (num : List UInt8) (info : NumInfo) : Prop where
  value : value = (if info.sign = .negative then -1 else 1) * (mantissa (digitsOf num) * 10 ^ info.exponent)
  digits : num = [] ∧ info.sign = .positive ∨ ∃ d ds, digitsOf num = d :: ds ∧ d ≠ 0
  /-- No unit follows. -/
  unit : getUnit num.getLast? = 0

theorem Describes.scaled {value : ℚ} {num : List UInt8} {info : NumInfo} (h : Describes value num info) :
    Scaled value num info := ⟨h.value, h.digits⟩

theorem getUnit_digit {c : UInt8} (h : isDigit c = true ∨ c = 46) : getUnit (some c) = 0 := by
  have hlt : c.toNat < 58 := by
    rcases h with h | rfl
    · simp only [isDigit, Bool.and_eq_true, decide_eq_true_eq, UInt8.le_iff_toNat_le] at h
      have : c.toNat ≤ 57 := h.2
      omega
    · decide
  have hne : ∀ d : UInt8, 58 ≤ d.toNat → c ≠ d := fun d hd heq => by
    rw [heq] at hlt
    omega
  simp [getUnit, hne 75 (by decide), hne 107 (by decide), hne 77 (by decide), hne 71 (by decide), hne 84 (by decide),
    hne 80 (by decide), hne 69 (by decide), hne 90 (by decide), hne 89 (by decide), hne 82 (by decide),
    hne 81 (by decide)]

/-- The bytes of a range. -/
def slice (line : List UInt8) (start finish : Nat) : List UInt8 := (line.take finish).drop start

/-- Behind its sign a plain number is described by what is parsed of it. -/
theorem describes_body {settings : NumInfoParseSettings} {pre body : List UInt8} {sign : Sign} {s : NumInfo.State}
    (hs : NumInfo.Consumed pre.length [] sign s) (hreads : NumInfo.Reads settings body) (hplain : isPlain body = true) :
    ∃ info start finish, NumInfo.parseFrom settings body pre.length s = (info, start, finish) ∧
      Describes ((if sign = .negative then -1 else 1) * (natValue (digitsOf body) / 10 ^ fracLength body))
        (slice (pre ++ body) start finish) info := by
  simp only [isPlain, Bool.and_eq_true, List.all_eq_true, Bool.or_eq_true, beq_iff_eq, decide_eq_true_eq] at hplain
  obtain ⟨⟨hall, hcount⟩, hany⟩ := hplain
  obtain ⟨s', hs', hrun⟩ := NumInfo.parseFrom_plain body [] s hs hreads hall hcount
  rw [List.length_nil, Nat.add_zero, List.nil_append] at hrun
  rw [List.nil_append] at hs'
  rw [hrun, NumInfo.parseFrom]
  obtain ⟨hsign, _, _, hhad, hexp, hval, hstart⟩ := hs'
  cases hst : s'.start with
  | none =>
    rw [hst] at hval
    have hzero : natValue (digitsOf body) = 0 := hval
    refine ⟨⟨0, .positive⟩, pre.length + body.length, pre.length + body.length, ?_, ?_⟩
    · simp [NumInfo.zero, hhad, hany]
    · have hslice : slice (pre ++ body) (pre.length + body.length) (pre.length + body.length) = [] := by
        rw [slice, List.drop_eq_nil_of_le]
        rw [List.length_take]
        exact Nat.min_le_left _ _
      rw [hslice, hzero]
      exact ⟨by simp [digitsOf, mantissa], Or.inl ⟨rfl, rfl⟩, rfl⟩
  | some start =>
    obtain ⟨hle, hlt, d, ds, hds, hd⟩ := hstart start hst
    rw [hst] at hexp hval
    simp only [Option.elim_some] at hexp hval
    refine ⟨_, _, _, rfl, ?_⟩
    have hslice : slice (pre ++ body) start (pre.length + body.length) = body.drop (start - pre.length) := by
      rw [slice, ← List.length_append, List.take_length, List.drop_append, List.drop_eq_nil_of_le hle, List.nil_append]
    rw [hslice]
    refine ⟨?_, Or.inr ⟨d, ds, hds, hd⟩, ?_⟩
    · simp only [hsign]
      congr 1
      rw [hval, natValue_eq, hexp, div_eq_mul_inv, mul_assoc, ← zpow_natCast, ← zpow_neg, ← zpow_add₀ (by norm_num)]
      congr 2
      ring
    · have hne : body.drop (start - pre.length) ≠ [] := fun h => by
        rw [List.drop_eq_nil_iff] at h
        omega
      rw [List.getLast?_eq_some_getLast hne]
      exact getUnit_digit (hall _ (List.mem_of_mem_drop (List.getLast_mem hne)))

/-- A line that is a number, without a plus sign, is described by what is parsed of it. -/
theorem describes_line {settings : NumInfoParseSettings} {line : List UInt8} {value : ℚ}
    (h : parseDecimal line = some value) (hplus : line.head? ≠ some 43) (hreads : NumInfo.Reads settings line) :
    ∃ info start finish, NumInfo.parse line settings = (info, start, finish) ∧
      Describes value (slice line start finish) info := by
  by_cases hminus : ∃ body, line = 45 :: body
  · obtain ⟨body, rfl⟩ := hminus
    simp only [parseDecimal, splitSign] at h
    split at h
    · rename_i hplain
      cases h
      have hcons : NumInfo.Consumed [(45 : UInt8)].length [] .negative
          { NumInfo.initial with sign := .negative, firstChar := false } := .nil _ _ rfl rfl rfl rfl rfl
      obtain ⟨info, start, finish, hparse, hdesc⟩ := describes_body hcons
        ⟨hreads.point, fun c hc => hreads.thousands c (List.mem_cons_of_mem 45 hc)⟩ hplain
      refine ⟨info, start, finish, ?_, ?_⟩
      · rw [NumInfo.parse, NumInfo.parseFrom, ← hparse]
        simp [NumInfo.initial, isWhitespace]
      · simpa using hdesc
    · cases h
  · have hsplit : splitSign line = (false, line) := by
      unfold splitSign
      split
      · exact absurd ⟨_, rfl⟩ hminus
      · simp at hplus
      · rfl
    simp only [parseDecimal, hsplit] at h
    split at h
    · rename_i hplain
      cases h
      have hcons : NumInfo.Consumed ([] : List UInt8).length [] .positive NumInfo.initial :=
        .nil _ _ rfl rfl rfl rfl rfl
      obtain ⟨info, start, finish, hparse, hdesc⟩ := describes_body hcons hreads hplain
      refine ⟨info, start, finish, hparse, ?_⟩
      simpa using hdesc
    · cases h

theorem swap_compare_neg (x y : ℚ) : (compare x y).swap = compare (-1 * x) (-1 * y) := by
  rcases lt_trichotomy x y with h | rfl | h
  · rw [compare_lt_iff_lt.2 h, eq_comm]
    exact compare_gt_iff_gt.2 (by linarith)
  · rw [compare_eq_iff_eq.2 rfl, compare_eq_iff_eq.2 rfl]
    rfl
  · rw [compare_gt_iff_gt.2 h, eq_comm]
    exact compare_lt_iff_lt.2 (by linarith)

namespace Scaled

variable {x y : ℚ} {a b : List UInt8} {aInfo bInfo : NumInfo}

theorem neg_of_sign (h : Scaled x a aInfo) (hs : aInfo.sign = .negative) : x < 0 := by
  obtain ⟨hnil, hpos⟩ | ⟨d, ds, hds, hd⟩ := h.digits
  · rw [hs] at hpos
    cases hpos
  · have hm := one_le_mantissa hd ds
    rw [h.value, if_pos hs, hds]
    have : (0 : ℚ) < mantissa (d :: ds) * 10 ^ aInfo.exponent := by positivity
    linarith

theorem nonneg_of_sign (h : Scaled x a aInfo) (hs : aInfo.sign = .positive) : 0 ≤ x := by
  have := mantissa_nonneg (digitsOf a)
  rw [h.value, if_neg (by rw [hs]; decide)]
  positivity

/-- The comparison without the signs. -/
theorem compare_unsigned (ha : Scaled x a aInfo) (hb : Scaled y b bInfo) :
    (if aInfo.exponent ≠ bInfo.exponent ∧ a ≠ [] ∧ b ≠ [] then compare aInfo.exponent bInfo.exponent
      else walkDigits (a.filter isDigit) (b.filter isDigit)) =
      compare (mantissa (digitsOf a) * 10 ^ aInfo.exponent) (mantissa (digitsOf b) * 10 ^ bInfo.exponent) := by
  have hwalk : walkDigits (a.filter isDigit) (b.filter isDigit) =
      compare (mantissa (digitsOf a)) (mantissa (digitsOf b)) := by
    rw [walkDigits_eq (fun c hc => (List.mem_filter.1 hc).2) fun c hc => (List.mem_filter.1 hc).2]
    exact compareDigits_eq (digits_digitsOf a) (digits_digitsOf b)
  split
  · rename_i h
    obtain ⟨hne, hane, hbne⟩ := h
    obtain ⟨hnil, _⟩ | ⟨d, ds, hds, hd⟩ := ha.digits
    · exact absurd hnil hane
    · obtain ⟨hnil, _⟩ | ⟨e, es, hes, he⟩ := hb.digits
      · exact absurd hnil hbne
      · rw [hds, hes, compare_scaled (one_le_mantissa hd ds) _ (one_le_mantissa he es) _ hne]
        · exact hds ▸ mantissa_lt_ten (digits_digitsOf a)
        · exact hes ▸ mantissa_lt_ten (digits_digitsOf b)
  · rename_i h
    rw [hwalk]
    by_cases hexp : aInfo.exponent = bInfo.exponent
    · rw [hexp, compare_scaled_same]
    · -- one of them is zero, and its exponent does not count
      have hempty : a = [] ∨ b = [] := by
        by_contra hnone
        rw [not_or] at hnone
        exact h ⟨hexp, hnone⟩
      rcases hempty with rfl | rfl
      · have hzero : mantissa (digitsOf []) = 0 := rfl
        have := compare_scaled_same 0 (mantissa (digitsOf b)) bInfo.exponent
        rw [zero_mul] at this
        rw [hzero, zero_mul, this]
      · have hzero : mantissa (digitsOf []) = 0 := rfl
        have := compare_scaled_same (mantissa (digitsOf a)) 0 aInfo.exponent
        rw [zero_mul] at this
        rw [hzero, zero_mul, this]

/-- Comparing the texts compares the numbers. -/
theorem numericStrCmp (ha : Scaled x a aInfo) (hb : Scaled y b bInfo) :
    Sort.numericStrCmp a aInfo b bInfo = compare x y := by
  have hunsigned := compare_unsigned ha hb
  have hx := ha.value
  have hy := hb.value
  unfold Sort.numericStrCmp
  cases hsa : aInfo.sign <;> cases hsb : bInfo.sign
  · rw [if_neg (by simp), hunsigned, if_pos rfl, hx, hy, if_pos hsa, if_pos hsb, swap_compare_neg]
  · rw [if_pos (by simp)]
    exact (compare_lt_iff_lt.2 (lt_of_lt_of_le (ha.neg_of_sign hsa) (hb.nonneg_of_sign hsb))).symm
  · rw [if_pos (by simp)]
    exact (compare_gt_iff_gt.2 (lt_of_lt_of_le (hb.neg_of_sign hsb) (ha.nonneg_of_sign hsa))).symm
  · rw [if_neg (by simp), hunsigned, if_neg (by simp), hx, hy, if_neg (by simp [hsa]), if_neg (by simp [hsb]), one_mul,
      one_mul]

end Scaled

namespace Describes

variable {x y : ℚ} {a b : List UInt8} {aInfo bInfo : NumInfo}

theorem numericStrCmp (ha : Describes x a aInfo) (hb : Describes y b bInfo) :
    Sort.numericStrCmp a aInfo b bInfo = compare x y := ha.scaled.numericStrCmp hb.scaled

/-- So does the human comparison, where no unit follows. -/
theorem humanNumericStrCmp (ha : Describes x a aInfo) (hb : Describes y b bInfo) :
    Sort.humanNumericStrCmp a aInfo b bInfo = compare x y := by
  rw [← ha.numericStrCmp hb, Sort.humanNumericStrCmp, ha.unit, hb.unit]
  split
  · rename_i h
    rw [Sort.numericStrCmp, if_pos h]
  · rfl

end Describes

end Peiosutils.Sort
