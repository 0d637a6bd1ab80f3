import Peiosutils.Sort.Numeric

/-!
# The order of numeric prefixes (`numeric_str_cmp.rs`)

Any text starts with a number, if only an empty one: blanks, a minus sign, and digits with thousands separators and at
most one decimal point. Whatever the separators are, as long as they are not digits, what `NumInfo.parse` returns shows
the value of that number (`scaled_parse`), so that comparing the texts compares the values, and the human comparison is
by sign, unit and value (`numeric_compare_eq`). A unit behind a zero is not one.
-/

set_option autoImplicit false

namespace Peiosutils.Sort

open Ascii Decimal

/-! ## The number at the start of a text -/

/-- The longest start that is made of digits, thousands separators and at most one decimal point. -/
def numberPrefix (settings : NumInfoParseSettings) : (hadPoint : Bool) → List UInt8 → List UInt8
  | _, [] => []
  | hadPoint, c :: rest =>
    if settings.thousandsSeparator = some c then c :: numberPrefix settings hadPoint rest
    else if settings.decimalPt = some c then if hadPoint then [] else c :: numberPrefix settings true rest
    else if isDigit c then c :: numberPrefix settings hadPoint rest
    else []

/-- A byte of a number as it is commonly written, with commas and a point. -/
def commonByte (settings : NumInfoParseSettings) (c : UInt8) : UInt8 :=
  if settings.thousandsSeparator = some c then 44 else if settings.decimalPt = some c then 46 else c

/-- Whether a minus sign follows the blanks of the text, and what is behind them. -/
def splitMinus (text : List UInt8) : Bool × List UInt8 :=
  let text := text.dropWhile isWhitespace
  if text.head? = some 45 then (true, text.tail) else (false, text)

/-- The number behind the blanks and the sign. -/
def numberOf (settings : NumInfoParseSettings) (text : List UInt8) : List UInt8 :=
  numberPrefix settings false (splitMinus text).2

/-- The exact value of the numeric prefix; zero, if it has no digits. -/
def numericValue (settings : NumInfoParseSettings) (text : List UInt8) : ℚ :=
  let number := (numberOf settings text).map (commonByte settings)
  let value : ℚ := natValue (digitsOf number) / 10 ^ fracLength number
  if (splitMinus text).1 then -value else value

/-- The unit of the letter behind the numeric prefix, where units are accepted. -/
def letterUnit (settings : NumInfoParseSettings) (text : List UInt8) : Nat :=
  if settings.acceptSiUnits then getUnit ((splitMinus text).2.drop (numberOf settings text).length).head? else 0

/-- The unit of a number; zero has none. -/
def unitOf (settings : NumInfoParseSettings) (text : List UInt8) : Nat :=
  if numericValue settings text = 0 then 0 else letterUnit settings text

/-- By sign, then by unit, which is reversed for negative numbers, then by value. -/
def humanOrder (settings : NumInfoParseSettings) (unit : List UInt8 → Nat) : List UInt8 → List UInt8 → Ordering :=
  compareLex (compareOn fun text => decide (0 ≤ numericValue settings text))
    (compareLex (compareOn fun text => if numericValue settings text < 0 then -(unit text : Int) else unit text)
      (compareOn (numericValue settings)))

/-- What `parse` returns for a text: the information, and the bytes of the range. -/
def parsed (settings : NumInfoParseSettings) (text : List UInt8) : NumInfo × List UInt8 :=
  let (info, start, finish) := NumInfo.parse text settings
  (info, slice text start finish)

def numericCompare (settings : NumInfoParseSettings) (a b : List UInt8) : Ordering :=
  numericStrCmp (parsed settings a).2 (parsed settings a).1 (parsed settings b).2 (parsed settings b).1

def humanCompare (settings : NumInfoParseSettings) (a b : List UInt8) : Ordering :=
  humanNumericStrCmp (parsed settings a).2 (parsed settings a).1 (parsed settings b).2 (parsed settings b).1

/-- Neither the decimal point nor the thousands separator is a digit. -/
structure NoDigits (settings : NumInfoParseSettings) : Prop where
  point : ∀ c, settings.decimalPt = some c → isDigit c = false
  separator : ∀ c, settings.thousandsSeparator = some c → isDigit c = false

/-- Neither of them is the letter of a unit. -/
structure NoUnits (settings : NumInfoParseSettings) : Prop where
  point : getUnit settings.decimalPt = 0
  separator : getUnit settings.thousandsSeparator = 0

/-! ## Separators -/

variable {settings : NumInfoParseSettings}

theorem isDigit_commonByte (h : NoDigits settings) (c : UInt8) : isDigit (commonByte settings c) = isDigit c := by
  unfold commonByte
  split
  · rename_i hc
    rw [h.separator c hc]
    decide
  · split
    · rename_i hc
      rw [h.point c hc]
      decide
    · rfl

theorem commonByte_digit (h : NoDigits settings) {c : UInt8} (hc : isDigit c = true) : commonByte settings c = c := by
  unfold commonByte
  rw [if_neg, if_neg]
  · intro hp
    rw [h.point c hp] at hc
    cases hc
  · intro hs
    rw [h.separator c hs] at hc
    cases hc

theorem digitsOf_commonByte (h : NoDigits settings) (p : List UInt8) :
    digitsOf (p.map (commonByte settings)) = digitsOf p := by
  induction p with
  | nil => rfl
  | cons c p ih =>
    have hcons : ∀ (c : UInt8) p, digitsOf (c :: p) = digitsOf [c] ++ digitsOf p := fun c p => digitsOf_append [c] p
    rw [List.map_cons, hcons, ih, hcons c p]
    cases hc : isDigit c with
    | true => rw [commonByte_digit h hc]
    | false => simp [digitsOf, isDigit_commonByte h, hc]

/-- A byte that is no digit and not the point counts for nothing. -/
theorem fracLength_append_other {p : List UInt8} {c : UInt8} (hc : isDigit c = false) (hpoint : c ≠ 46) :
    fracLength (p ++ [c]) = fracLength p := by
  by_cases hmem : 46 ∈ p
  · have hne : p.dropWhile (· ≠ 46) ≠ [] := by
      intro h
      have := List.dropWhile_eq_nil_iff.1 h 46 hmem
      simp at this
    rw [fracLength, List.dropWhile_append, if_neg (by simpa using hne), List.countP_append]
    simp [fracLength, hc]
  · have hmem' : 46 ∉ p ++ [c] := by simpa [hmem] using Ne.symm hpoint
    rw [NumInfo.fracLength_eq_zero hmem, NumInfo.fracLength_eq_zero hmem']

namespace NumInfo

/-- A separator is consumed. -/
theorem Consumed.separator {offset : Nat} {p : List UInt8} {sign : Sign} {s : State} (h : Consumed offset p sign s) :
    Consumed offset (p ++ [44]) sign { s with firstChar := false } := by
  obtain ⟨hsign, -, hpoint, hhad, hexp, hval, hstart⟩ := h
  have hdigits : ∀ q : List UInt8, digitsOf (q ++ [44]) = digitsOf q := fun q => by
    rw [digitsOf_append, show digitsOf [44] = [] by decide, List.append_nil]
  have hdrop : ∀ start, s.start = some start → (p ++ [44]).drop (start - offset) = p.drop (start - offset) ++ [44] :=
    fun start h => List.drop_append_of_le_length (Nat.le_of_lt (hstart start h).2.1)
  have hsig : digitsOf (s.start.elim [] fun start => (p ++ [44]).drop (start - offset)) =
      digitsOf (s.start.elim [] fun start => p.drop (start - offset)) := by
    cases hst : s.start with
    | none => rfl
    | some start => simp only [Option.elim_some, hdrop start hst, hdigits]
  have hcomma : isDigit 44 = false := by decide
  refine ⟨hsign, fun h => (by cases h), (by simpa using hpoint), (by simpa [hcomma] using hhad), ?_, ?_, ?_⟩
  · rw [hsig, fracLength_append_other (by decide) (by decide)]
    exact hexp
  · rw [hsig, hdigits]
    exact hval
  · intro start hst
    obtain ⟨hle, hlt, d, ds, hds, hd⟩ := hstart start hst
    refine ⟨hle, ?_, d, ds, (by rw [hdrop start hst, hdigits, hds]), hd⟩
    rw [List.length_append]
    omega

/-- What `parse` returns where the number ends: at the end of the text, or before `tail`. -/
def finish (settings : NumInfoParseSettings) (tail : List UInt8) (idx : Nat) (s : State) : NumInfo × Nat × Nat :=
  match s.start with
  | some start => (⟨s.exponent, s.sign⟩, start,
      if settings.acceptSiUnits && tail.head?.any isSiUnit then idx + 1 else idx)
  | none => zero s idx

/-- The first byte of a number is not taken for a blank or a sign. -/
def Starts (s : State) (text : List UInt8) : Prop :=
  s.firstChar = true → ∀ c, text.head? = some c → isWhitespace c = false ∧ c ≠ 45

/-- From a state that has consumed `p`, the loop consumes the number that follows and ends there. -/
def Runs (settings : NumInfoParseSettings) (offset : Nat) (sign : Sign) (p : List UInt8) (s : State)
    (rest : List UInt8) : Prop :=
  ∃ number s', number = numberPrefix settings s.hadDecimalPt rest ∧ number <+: rest ∧
    Consumed offset ((p ++ number).map (commonByte settings)) sign s' ∧
    parseFrom settings rest (offset + p.length) s =
      finish settings (rest.drop number.length) (offset + (p ++ number).length) s'

section Steps

variable {offset : Nat} {sign : Sign} {p rest : List UInt8} {s s' : State} {c : UInt8}

/-- A byte of the number is consumed. -/
theorem Runs.take (h : Runs settings offset sign (p ++ [c]) s' rest)
    (hnum : numberPrefix settings s.hadDecimalPt (c :: rest) = c :: numberPrefix settings s'.hadDecimalPt rest)
    (hrun : parseFrom settings (c :: rest) (offset + p.length) s =
      parseFrom settings rest (offset + (p ++ [c]).length) s') : Runs settings offset sign p s (c :: rest) := by
  obtain ⟨number, s'', hnumber, hle, hs'', hrun'⟩ := h
  have happ : p ++ [c] ++ number = p ++ c :: number := by simp
  rw [happ] at hs'' hrun'
  exact ⟨c :: number, s'', by rw [hnum, hnumber], List.cons_prefix_cons.2 ⟨rfl, hle⟩, hs'', hrun.trans hrun'⟩

/-- The number ends. -/
theorem Runs.stop (h : Consumed offset (p.map (commonByte settings)) sign s')
    (hnum : numberPrefix settings s.hadDecimalPt rest = [])
    (hrun : parseFrom settings rest (offset + p.length) s = finish settings rest (offset + p.length) s') :
    Runs settings offset sign p s rest := by
  refine ⟨[], s', hnum.symm, List.nil_prefix, by rwa [List.append_nil], ?_⟩
  rw [hrun, List.append_nil]
  rfl

theorem Consumed.notFirst (h : Consumed offset p sign s) : Consumed offset p sign { s with firstChar := false } :=
  ⟨h.sign, fun hf => (by cases hf), h.point, h.had, h.exponent, h.value, h.start⟩

theorem State.digit_firstChar (s : State) (idx : Nat) (c : UInt8) : (s.digit idx c).firstChar = s.firstChar := by
  simp only [State.digit]
  split <;> rfl

theorem State.digit_hadDecimalPt (s : State) (idx : Nat) (c : UInt8) :
    (s.digit idx c).hadDecimalPt = s.hadDecimalPt := by
  simp only [State.digit]
  split <;> rfl

end Steps

/-- The loop consumes a number as far as it goes. -/
theorem parseFrom_number (hsep : NoDigits settings) {offset : Nat} {sign : Sign} (rest : List UInt8) :
    ∀ (p : List UInt8) (s : State), Consumed offset (p.map (commonByte settings)) sign s → Starts s rest →
      Runs settings offset sign p s rest := by
  induction rest with
  | nil =>
    intro p s hs _
    refine .stop hs rfl ?_
    rw [parseFrom, finish]
    cases s.start with
    | none => rfl
    | some start => simp
  | cons c rest ih =>
    intro p s hs hstart
    have hfirst : (s.firstChar && isWhitespace c) = false ∧ (s.firstChar && c == 45) = false := by
      cases hf : s.firstChar with
      | false => simp
      | true => simpa using hstart hf c rfl
    have hlen : offset + p.length + 1 = offset + (p ++ [c]).length := by
      rw [List.length_append, List.length_singleton, Nat.add_assoc]
    have hmap : (p ++ [c]).map (commonByte settings) = p.map (commonByte settings) ++ [commonByte settings c] := by simp
    have hgoes : ∀ s' : State, s'.firstChar = false → Starts s' rest := fun s' hf hf' => by
      rw [hf] at hf'
      cases hf'
    by_cases hthousands : settings.thousandsSeparator = some c
    · -- a thousands separator
      have hs' : Consumed offset ((p ++ [c]).map (commonByte settings)) sign { s with firstChar := false } := by
        rw [hmap, show commonByte settings c = 44 by rw [commonByte, if_pos hthousands]]
        exact hs.separator
      refine (ih _ _ hs' (hgoes _ rfl)).take ?_ ?_
      · rw [numberPrefix, if_pos hthousands]
      · simp only [parseFrom, hfirst, Bool.false_eq_true, if_false, if_pos hthousands, hlen]
    · by_cases hpoint : settings.decimalPt = some c
      · cases hhad : s.hadDecimalPt with
        | true =>
          -- a second decimal point
          refine .stop hs.notFirst ?_ ?_
          · rw [numberPrefix, if_neg hthousands, if_pos hpoint, hhad, if_pos rfl]
          · simp only [parseFrom, hfirst, Bool.false_eq_true, if_false, if_neg hthousands, isInvalidChar, hpoint,
              if_true, hhad, finish, List.head?_cons, Option.any_some]
            cases s.start <;> rfl
        | false =>
          have hnot : 46 ∉ p.map (commonByte settings) := by simpa [hhad] using hs.point
          have hs' : Consumed offset ((p ++ [c]).map (commonByte settings)) sign
              { s with firstChar := false, hadDecimalPt := true } := by
            rw [hmap, show commonByte settings c = 46 by rw [commonByte, if_neg hthousands, if_pos hpoint]]
            exact hs.point' hnot
          refine (ih _ _ hs' (hgoes _ rfl)).take ?_ ?_
          · rw [numberPrefix, if_neg hthousands, if_pos hpoint, hhad, if_neg (by simp)]
          · simp only [parseFrom, hfirst, Bool.false_eq_true, if_false, if_neg hthousands, isInvalidChar, hpoint,
              if_true, hhad, hlen]
      · have hpoint' : ¬ some c = settings.decimalPt := fun h => hpoint h.symm
        cases hdigit : isDigit c with
        | true =>
          have hs' := hs.digit hdigit
          rw [List.length_map, ← commonByte_digit hsep hdigit, ← hmap, commonByte_digit hsep hdigit] at hs'
          refine (ih _ _ hs' (hgoes _ (State.digit_firstChar _ _ _))).take ?_ ?_
          · rw [numberPrefix, if_neg hthousands, if_neg hpoint, hdigit, if_pos rfl, State.digit_hadDecimalPt]
          · simp only [parseFrom, hfirst, Bool.false_eq_true, if_false, if_neg hthousands, isInvalidChar,
              if_neg hpoint', hdigit, Bool.not_true, hlen]
        | false =>
          refine .stop hs.notFirst ?_ ?_
          · rw [numberPrefix, if_neg hthousands, if_neg hpoint, hdigit, if_neg (by simp)]
          · simp only [parseFrom, hfirst, Bool.false_eq_true, if_false, if_neg hthousands, isInvalidChar,
              if_neg hpoint', hdigit, Bool.not_false, if_true, finish, List.head?_cons, Option.any_some]
            cases s.start <;> rfl

/-- Blanks are skipped before the first byte. -/
theorem parseFrom_blanks {blanks : List UInt8} (hblanks : ∀ c ∈ blanks, isWhitespace c = true) (rest : List UInt8)
    (idx : Nat) {s : State} (hs : s.firstChar = true) :
    parseFrom settings (blanks ++ rest) idx s = parseFrom settings rest (idx + blanks.length) s := by
  induction blanks generalizing idx with
  | nil => rfl
  | cons c blanks ih =>
    have hc : (s.firstChar && isWhitespace c) = true := by rw [hs, hblanks c List.mem_cons_self]; rfl
    rw [List.cons_append, parseFrom, if_pos hc, ih (fun d hd => hblanks d (List.mem_cons_of_mem c hd)),
      List.length_cons, Nat.add_assoc, Nat.add_comm 1]

/-- Blanks and the sign are consumed. -/
theorem parse_split (settings : NumInfoParseSettings) (text : List UInt8) :
    ∃ pre s, text = pre ++ (splitMinus text).2 ∧
      parse text settings = parseFrom settings (splitMinus text).2 pre.length s ∧
      Consumed pre.length [] (if (splitMinus text).1 then .negative else .positive) s ∧
      Starts s (splitMinus text).2 := by
  have hblanks : ∀ c ∈ text.takeWhile isWhitespace, isWhitespace c = true := fun c hc =>
    (List.mem_takeWhile_imp hc)
  have hsplit := List.takeWhile_append_dropWhile (p := isWhitespace) (l := text)
  have hrun : parse text settings =
      parseFrom settings (text.dropWhile isWhitespace) (text.takeWhile isWhitespace).length initial := by
    conv_lhs => rw [parse, ← hsplit, parseFrom_blanks hblanks _ _ rfl, Nat.zero_add]
  have hhead : ∀ c, (text.dropWhile isWhitespace).head? = some c → isWhitespace c = false := fun c hc => by
    have := List.head?_dropWhile_not isWhitespace text
    rw [hc] at this
    simpa using this
  by_cases hminus : (text.dropWhile isWhitespace).head? = some 45
  · have hsigned : splitMinus text = (true, (text.dropWhile isWhitespace).tail) := by
      simp only [splitMinus, if_pos hminus]
    have hcons : text.dropWhile isWhitespace = 45 :: (text.dropWhile isWhitespace).tail :=
      (List.cons_head?_tail hminus).symm
    refine ⟨text.takeWhile isWhitespace ++ [45], { initial with sign := .negative, firstChar := false }, ?_, ?_, ?_, ?_⟩
    · rw [hsigned, List.append_assoc, List.singleton_append, ← hcons, hsplit]
    · rw [hrun, hcons, parseFrom, hsigned, List.length_append]
      simp [initial, isWhitespace]
    · rw [hsigned, if_pos rfl]
      exact .nil _ _ rfl rfl rfl rfl rfl
    · intro hf
      cases hf
  · have hplain : splitMinus text = (false, text.dropWhile isWhitespace) := by
      simp only [splitMinus, if_neg hminus]
    refine ⟨text.takeWhile isWhitespace, initial, ?_, ?_, ?_, ?_⟩
    · rw [hplain, hsplit]
    · rw [hrun, hplain]
    · rw [hplain, if_neg (by simp)]
      exact .nil _ _ rfl rfl rfl rfl rfl
    · rw [hplain]
      exact fun _ c hc => ⟨hhead c hc, fun h45 => hminus (h45 ▸ hc)⟩

end NumInfo

/-! ## The value that is shown -/

theorem slice_self (text : List UInt8) (i : Nat) : slice text i i = [] := by
  rw [slice, List.drop_eq_nil_of_le]
  exact List.length_take_le i text

/-- A range that starts in the middle part and ends behind what follows it. -/
theorem slice_middle {pre number : List UInt8} (letter rest : List UInt8) {start : Nat} (hle : pre.length ≤ start)
    (hlt : start - pre.length < number.length) :
    slice (pre ++ (number ++ (letter ++ rest))) start (pre.length + number.length + letter.length) =
      number.drop (start - pre.length) ++ letter := by
  have htake : (pre ++ (number ++ (letter ++ rest))).take (pre.length + number.length + letter.length) =
      pre ++ (number ++ letter) := by
    rw [Nat.add_assoc, List.take_length_add_append, List.take_length_add_append, List.take_left']
    rfl
  rw [slice, htake, List.drop_append, List.drop_eq_nil_of_le hle, List.nil_append,
    List.drop_append_of_le_length (Nat.le_of_lt hlt)]

theorem getUnit_of_not_isSiUnit {c : UInt8} (h : NumInfo.isSiUnit c = false) : getUnit (some c) = 0 := by
  simp only [NumInfo.isSiUnit, List.contains_eq_mem, List.mem_cons, List.not_mem_nil, or_false, decide_eq_false_iff_not,
    not_or] at h
  simp [getUnit, h]

theorem isDigit_of_isSiUnit {c : UInt8} (h : NumInfo.isSiUnit c = true) : isDigit c = false := by
  simp only [NumInfo.isSiUnit, List.contains_eq_mem, List.mem_cons, List.not_mem_nil, or_false, decide_eq_true_eq] at h
  rcases h with rfl | rfl | rfl | rfl | rfl | rfl | rfl | rfl | rfl | rfl | rfl <;> rfl

/-- The letter of a unit behind the number, where units are accepted. -/
def unitLetter (settings : NumInfoParseSettings) (text : List UInt8) : Option UInt8 :=
  if settings.acceptSiUnits then
    ((splitMinus text).2.drop (numberOf settings text).length).head?.filter NumInfo.isSiUnit
  else none

theorem getUnit_unitLetter (settings : NumInfoParseSettings) (text : List UInt8) :
    getUnit (unitLetter settings text) = letterUnit settings text := by
  unfold unitLetter letterUnit
  split
  · cases ((splitMinus text).2.drop (numberOf settings text).length).head? with
    | none => rfl
    | some c =>
      cases hc : NumInfo.isSiUnit c with
      | true => rw [Option.filter_some, hc, if_pos rfl]
      | false =>
        rw [Option.filter_some, hc, getUnit_of_not_isSiUnit hc]
        rfl
  · rfl

/-- The letter of a unit is the first byte behind the number, and the range ends behind it. -/
theorem unitLetter_split (settings : NumInfoParseSettings) (text : List UInt8) :
    ∃ rest, (splitMinus text).2.drop (numberOf settings text).length = (unitLetter settings text).toList ++ rest ∧
      ∀ n, (if settings.acceptSiUnits &&
        ((splitMinus text).2.drop (numberOf settings text).length).head?.any NumInfo.isSiUnit then n + 1 else n) =
        n + (unitLetter settings text).toList.length := by
  unfold unitLetter
  cases settings.acceptSiUnits with
  | false => exact ⟨(splitMinus text).2.drop (numberOf settings text).length, by simp, by simp⟩
  | true =>
    cases (splitMinus text).2.drop (numberOf settings text).length with
    | nil => exact ⟨[], by simp, by simp⟩
    | cons c rest =>
      cases hc : NumInfo.isSiUnit c with
      | false => exact ⟨c :: rest, by simp [hc, Option.filter_some], by simp [hc, Option.filter_some]⟩
      | true => exact ⟨rest, by simp [hc, Option.filter_some], by simp [hc, Option.filter_some]⟩

/-- A text with the value zero is parsed as zero; of any other, the range starts at the first digit that is not zero and
ends behind the number, or behind the letter of its unit. -/
inductive Parsed (settings : NumInfoParseSettings) (text : List UInt8) : NumInfo × List UInt8 → Prop where
  | zero (hvalue : natValue (digitsOf ((numberOf settings text).map (commonByte settings))) = 0) :
    Parsed settings text (⟨0, .positive⟩, [])
  | nonzero (k : Nat) (d : Nat) (ds : List Nat) (exponent : Int)
    (hdigits : digitsOf ((numberOf settings text).drop k) = d :: ds) (hd : d ≠ 0)
    (hvalue : natValue (digitsOf ((numberOf settings text).map (commonByte settings))) = natValue (d :: ds))
    (hexponent : exponent =
      ((d :: ds).length : Int) - fracLength ((numberOf settings text).map (commonByte settings)) - 1) :
    Parsed settings text (⟨exponent, if (splitMinus text).1 then .negative else .positive⟩,
      (numberOf settings text).drop k ++ (unitLetter settings text).toList)

theorem parsed_spec (hsep : NoDigits settings) (text : List UInt8) :
    Parsed settings text (parsed settings text) := by
  obtain ⟨pre, s, htext, hparse, hconsumed, hstarts⟩ := NumInfo.parse_split settings text
  obtain ⟨number, s', hnumber, ⟨tail, htail⟩, hs', hrun⟩ := NumInfo.parseFrom_number hsep _ [] s hconsumed hstarts
  have hpoint : s.hadDecimalPt = false := by simpa using hconsumed.point
  obtain rfl : number = numberOf settings text := by rw [hnumber, hpoint, numberOf]
  rw [List.nil_append] at hs' hrun
  rw [List.length_nil, Nat.add_zero] at hrun
  have hrest : (splitMinus text).2.drop (numberOf settings text).length = tail := by
    rw [← htail, List.drop_left]
  rw [← hparse, hrest] at hrun
  unfold NumInfo.finish at hrun
  cases hst : s'.start with
  | none =>
    have hzero := hs'.value
    rw [hst] at hzero hrun
    have hparsed : parsed settings text = (⟨0, .positive⟩, []) := by
      simp only [parsed, hrun, NumInfo.zero]
      split <;> rw [slice_self]
    rw [hparsed]
    exact .zero hzero
  | some start =>
    obtain ⟨hle, hlt, d, ds, hds, hd⟩ := hs'.start start hst
    have hvalue := hs'.value
    have hexponent := hs'.exponent
    rw [hst] at hvalue hexponent hrun
    simp only [Option.elim_some] at hvalue hexponent
    rw [← List.map_drop, digitsOf_commonByte hsep] at hds
    rw [← List.map_drop, digitsOf_commonByte hsep ((numberOf settings text).drop _), hds] at hvalue hexponent
    rw [List.length_map] at hlt
    have hparsed : parsed settings text = (⟨s'.exponent, if (splitMinus text).1 then .negative else .positive⟩,
        (numberOf settings text).drop (start - pre.length) ++ (unitLetter settings text).toList) := by
      simp only [parsed, hrun, hs'.sign]
      refine Prod.ext rfl ?_
      obtain ⟨rest, hsplit, hfinish⟩ := unitLetter_split settings text
      rw [hrest] at hsplit hfinish
      have hwhole : text = pre ++ (numberOf settings text ++ ((unitLetter settings text).toList ++ rest)) := by
        rw [← hsplit, htail]
        exact htext
      calc slice text start _ = slice text start _ := congrArg (slice text start) (hfinish _)
        _ = slice (pre ++ _) start _ := congrArg (fun text => slice text start _) hwhole
        _ = _ := slice_middle _ _ hle hlt
    rw [hparsed]
    exact .nonzero (start - pre.length) d ds s'.exponent hds hd hvalue hexponent

theorem numericValue_eq_zero (settings : NumInfoParseSettings) (text : List UInt8) : numericValue settings text = 0 ↔
    natValue (digitsOf ((numberOf settings text).map (commonByte settings))) = 0 := by
  have hpow : ∀ n : Nat, (10 : ℚ) ^ n ≠ 0 := fun n => pow_ne_zero n (by norm_num)
  unfold numericValue
  cases (splitMinus text).1 <;> simp [hpow]

/-- What is parsed shows the exact value. -/
theorem scaled_parse (hsep : NoDigits settings) (text : List UInt8) :
    Scaled (numericValue settings text) (parsed settings text).2 (parsed settings text).1 := by
  have hspec := parsed_spec hsep text
  generalize parsed settings text = r at hspec
  cases hspec with
  | zero hvalue =>
    refine ⟨?_, .inl ⟨rfl, rfl⟩⟩
    rw [(numericValue_eq_zero settings text).2 hvalue]
    simp [digitsOf, mantissa]
  | nonzero k d ds exponent hdigits hd hvalue hexponent =>
    have hletter : digitsOf (unitLetter settings text).toList = [] := by
      cases hletter : unitLetter settings text with
      | none => rfl
      | some c =>
        have hc : NumInfo.isSiUnit c = true := by
          unfold unitLetter at hletter
          split at hletter
          · exact (Option.filter_eq_some_iff.1 hletter).2
          · cases hletter
        simp [digitsOf, isDigit_of_isSiUnit hc]
    have hshown : digitsOf ((numberOf settings text).drop k ++ (unitLetter settings text).toList) = d :: ds := by
      rw [digitsOf_append, hletter, List.append_nil, hdigits]
    refine ⟨?_, .inr ⟨d, ds, hshown, hd⟩⟩
    have hscaled : (natValue (digitsOf ((numberOf settings text).map (commonByte settings))) : ℚ) /
        10 ^ fracLength ((numberOf settings text).map (commonByte settings)) = mantissa (d :: ds) * 10 ^ exponent := by
      rw [hvalue, natValue_eq, hexponent, div_eq_mul_inv, mul_assoc, ← zpow_natCast, ← zpow_neg,
        ← zpow_add₀ (by norm_num)]
      congr 2
      ring
    rw [hshown, ← hscaled, numericValue]
    cases (splitMinus text).1 <;> simp

theorem sign_parsed (hsep : NoDigits settings) (text : List UInt8) :
    (parsed settings text).1.sign = if 0 ≤ numericValue settings text then .positive else .negative := by
  have hscaled := scaled_parse hsep text
  cases hs : (parsed settings text).1.sign with
  | negative => rw [if_neg (not_le.2 (hscaled.neg_of_sign hs))]
  | positive => rw [if_pos (hscaled.nonneg_of_sign hs)]

/-! ## The orders -/

/-- The unit of the last byte of the range. -/
def rangeUnit (settings : NumInfoParseSettings) (text : List UInt8) : Nat := getUnit (parsed settings text).2.getLast?

/-- Comparing two texts compares their values. -/
theorem numericCompare_eq (hsep : NoDigits settings) :
    numericCompare settings = compareOn (numericValue settings) := by
  funext a b
  exact (scaled_parse hsep a).numericStrCmp (scaled_parse hsep b)

theorem compare_natCast (x y : Nat) : compare (x : Int) (y : Int) = compare x y := by
  rcases lt_trichotomy x y with h | rfl | h
  · rw [compare_lt_iff_lt.2 h, compare_lt_iff_lt]
    exact_mod_cast h
  · rw [compare_eq_iff_eq.2 rfl, compare_eq_iff_eq.2 rfl]
  · rw [compare_gt_iff_gt.2 h, compare_gt_iff_gt]
    exact_mod_cast h

theorem compare_neg_natCast (x y : Nat) : compare (-(x : Int)) (-(y : Int)) = (compare x y).swap := by
  rcases lt_trichotomy x y with h | rfl | h
  · rw [compare_lt_iff_lt.2 h]
    exact compare_gt_iff_gt.2 (neg_lt_neg (by exact_mod_cast h))
  · rw [compare_eq_iff_eq.2 rfl, compare_eq_iff_eq.2 rfl]
    rfl
  · rw [compare_gt_iff_gt.2 h]
    exact compare_lt_iff_lt.2 (neg_lt_neg (by exact_mod_cast h))

/-- The human comparison is by sign, by the unit at the end of the range, and by value. -/
theorem humanCompare_range (hsep : NoDigits settings) :
    humanCompare settings = humanOrder settings (rangeUnit settings) := by
  funext a b
  have hnumeric : numericStrCmp (parsed settings a).2 (parsed settings a).1 (parsed settings b).2
      (parsed settings b).1 = compare (numericValue settings a) (numericValue settings b) :=
    (scaled_parse hsep a).numericStrCmp (scaled_parse hsep b)
  simp only [humanCompare, humanNumericStrCmp, humanOrder, compareLex, compareOn, hnumeric, sign_parsed hsep, rangeUnit]
  by_cases ha : 0 ≤ numericValue settings a <;> by_cases hb : 0 ≤ numericValue settings b
  · simp only [ha, hb, if_true, not_lt.2 ha, not_lt.2 hb, if_false, compare_natCast, ne_eq, not_true_eq_false]
    cases compare (getUnit (parsed settings a).2.getLast?) (getUnit (parsed settings b).2.getLast?) <;> rfl
  · simp only [ha, hb, if_true, if_false]
    rfl
  · simp only [ha, hb, if_true, if_false]
    rfl
  · simp only [ha, hb, if_false, not_le.1 ha, not_le.1 hb, if_true, compare_neg_natCast, ne_eq, not_true_eq_false]
    cases compare (getUnit (parsed settings a).2.getLast?) (getUnit (parsed settings b).2.getLast?) <;> rfl

theorem numberPrefix_mem {c : UInt8} : ∀ {hadPoint : Bool} {text : List UInt8},
    c ∈ numberPrefix settings hadPoint text →
      settings.thousandsSeparator = some c ∨ settings.decimalPt = some c ∨ isDigit c = true
  | _, [], h => by cases h
  | hadPoint, d :: rest, h => by
    unfold numberPrefix at h
    split at h
    · rename_i hd
      rcases List.mem_cons.1 h with rfl | h
      · exact .inl hd
      · exact numberPrefix_mem h
    · split at h
      · rename_i hd
        split at h
        · cases h
        · rcases List.mem_cons.1 h with rfl | h
          · exact .inr (.inl hd)
          · exact numberPrefix_mem h
      · split at h
        · rename_i hd
          rcases List.mem_cons.1 h with rfl | h
          · exact .inr (.inr hd)
          · exact numberPrefix_mem h
        · cases h

/-- Where no separator is a letter of a unit, the range ends in the unit of the number. -/
theorem rangeUnit_eq (hsep : NoDigits settings) (hunits : NoUnits settings) (text : List UInt8) :
    rangeUnit settings text = unitOf settings text := by
  have hspec := parsed_spec hsep text
  unfold rangeUnit unitOf
  generalize parsed settings text = r at hspec
  cases hspec with
  | zero hvalue =>
    rw [if_pos ((numericValue_eq_zero settings text).2 hvalue)]
    rfl
  | nonzero k d ds exponent hdigits hd hvalue hexponent =>
    have hne : natValue (d :: ds) ≠ 0 := by
      intro h
      have hshown := natValue_eq (d :: ds)
      have hpos := one_le_mantissa hd ds
      rw [h, Nat.cast_zero] at hshown
      have : (0 : ℚ) < mantissa (d :: ds) * 10 ^ (((d :: ds).length : Int) - 1) := by positivity
      linarith
    rw [if_neg fun h => hne (hvalue.symm.trans ((numericValue_eq_zero settings text).1 h)), ← getUnit_unitLetter]
    cases hletter : unitLetter settings text with
    | some c => simp
    | none =>
      have hlast : (numberOf settings text).drop k ≠ [] := by
        intro h
        rw [h] at hdigits
        cases hdigits
      rw [Option.toList_none, List.append_nil, List.getLast?_eq_some_getLast hlast]
      have hmem := List.mem_of_mem_drop (List.getLast_mem hlast)
      rcases numberPrefix_mem hmem with h | h | h
      · exact h ▸ hunits.separator
      · exact h ▸ hunits.point
      · exact getUnit_digit (.inl h)

/-- Numbers are compared by their exact values, and human numbers by sign, unit and value; both are total preorders, the
latter with any separators. -/
theorem numeric_compare_eq (settings : NumInfoParseSettings) (hsep : NoDigits settings) :
    (∀ a b, numericCompare settings a b = compare (numericValue settings a) (numericValue settings b)) ∧
      (NoUnits settings → ∀ a b, humanCompare settings a b = humanOrder settings (unitOf settings) a b) ∧
      Std.TransCmp (numericCompare settings) ∧ Std.TransCmp (humanCompare settings) := by
  refine ⟨fun a b => ?_, fun hunits a b => ?_, ?_, ?_⟩
  · rw [numericCompare_eq hsep]
    rfl
  · rw [humanCompare_range hsep, funext (rangeUnit_eq hsep hunits)]
  · rw [numericCompare_eq hsep]
    infer_instance
  · rw [humanCompare_range hsep]
    unfold humanOrder
    infer_instance

/-- With commas, a point and units. -/
def commaPoint : NumInfoParseSettings := ⟨true, some 44, some 46⟩

theorem noDigits_commaPoint : NoDigits commaPoint := ⟨by simp [commaPoint, isDigit], by simp [commaPoint, isDigit]⟩

theorem numeric_compare_eq_commaPoint :
    (∀ a b, numericCompare commaPoint a b = compare (numericValue commaPoint a) (numericValue commaPoint b)) ∧
      (NoUnits commaPoint → ∀ a b, humanCompare commaPoint a b = humanOrder commaPoint (unitOf commaPoint) a b) ∧
      Std.TransCmp (numericCompare commaPoint) ∧ Std.TransCmp (humanCompare commaPoint) :=
  numeric_compare_eq commaPoint noDigits_commaPoint

/-- With `K` between thousands. -/
def letterSeparator : NumInfoParseSettings := ⟨true, some 75, some 46⟩

/-- `0K` comes before `5`, though its letter is that of a greater unit; and where `K` is a separator, `5K` comes behind
`7`, though it has no unit. -/
theorem human_compare_ignores_letter :
    ¬ (∀ a b, humanCompare commaPoint a b = humanOrder commaPoint (letterUnit commaPoint) a b) ∧
      ¬ ∀ a b, humanCompare letterSeparator a b = humanOrder letterSeparator (unitOf letterSeparator) a b := by
  constructor
  · intro h
    have hlt : humanCompare commaPoint [48, 75] [53] = .lt := by decide +kernel
    have hgt : humanOrder commaPoint (letterUnit commaPoint) [48, 75] [53] = .gt := by decide +kernel
    rw [h, hgt] at hlt
    cases hlt
  · intro h
    have hgt : humanCompare letterSeparator [53, 75] [55] = .gt := by decide +kernel
    have hlt : humanOrder letterSeparator (unitOf letterSeparator) [53, 75] [55] = .lt := by decide +kernel
    rw [h, hlt] at hgt
    cases hgt

end Peiosutils.Sort
