import Peiosutils.Lib.Fallible
import Peiosutils.Sort.Numeric

/-!
# Sort keys (`sort.rs`)

`FieldSelector.parse` reads the definition of a key, `tokenize` cuts a line into fields, and `FieldSelector.getRange`
finds the part of the line that the key selects. For the keys that are accepted this never panics
(`FieldSelector.getRange_eq`).
-/

set_option autoImplicit false

namespace Peiosutils.Sort.Key

open Ascii

/-! ## Settings -/

inductive SortMode where
  | numeric
  | humanNumeric
  | generalNumeric
  | month
  | version
  | random
  | default
  deriving DecidableEq, Repr

structure NumericLocaleSettings where
  thousandsSep : Option UInt8
  decimalPt : Option UInt8
  deriving DecidableEq, Repr

def NumericLocaleSettings.numInfoSettings (locale : NumericLocaleSettings) (acceptSiUnits : Bool) :
    NumInfoParseSettings := ⟨acceptSiUnits, locale.thousandsSep, locale.decimalPt⟩

structure KeySettings where
  mode : SortMode
  ignoreBlanks : Bool
  ignoreCase : Bool
  dictionaryOrder : Bool
  ignoreNonPrinting : Bool
  reverse : Bool
  deriving DecidableEq, Repr

/-- `KeySettings::default`, which are the settings of no options. -/
def KeySettings.default : KeySettings := ⟨.default, false, false, false, false, false⟩

structure ModeFlags where
  numeric : Bool := false
  generalNumeric : Bool := false
  humanNumeric : Bool := false
  month : Bool := false
  version : Bool := false
  random : Bool := false
  deriving DecidableEq, Repr

namespace ModeFlags

def fromMode : SortMode → ModeFlags
  | .numeric => { numeric := true }
  | .generalNumeric => { generalNumeric := true }
  | .humanNumeric => { humanNumeric := true }
  | .month => { month := true }
  | .version => { version := true }
  | .random => { random := true }
  | .default => {}

def toMode (flags : ModeFlags) : SortMode :=
  if flags.numeric then .numeric
  else if flags.generalNumeric then .generalNumeric
  else if flags.humanNumeric then .humanNumeric
  else if flags.month then .month
  else if flags.random then .random
  else if flags.version then .version
  else .default

end ModeFlags

def orderingOptsString (flags : ModeFlags) (dictionaryOrder ignoreNonPrinting ignoreCase : Bool) : String :=
  (if dictionaryOrder then "d" else "") ++ (if ignoreCase then "f" else "") ++
    (if flags.generalNumeric then "g" else "") ++ (if flags.humanNumeric then "h" else "") ++
    (if !dictionaryOrder && ignoreNonPrinting then "i" else "") ++ (if flags.month then "M" else "") ++
    (if flags.numeric then "n" else "") ++ (if flags.random then "R" else "") ++ (if flags.version then "V" else "")

def orderingIncompatible (flags : ModeFlags) (dictionaryOrder ignoreNonPrinting : Bool) : Bool :=
  let modeCount := flags.numeric.toNat + flags.generalNumeric.toNat + flags.humanNumeric.toNat + flags.month.toNat
  if modeCount > 1 then true
  else if modeCount = 1 then flags.version || flags.random || dictionaryOrder || ignoreNonPrinting
  else false

/-! ## Key definitions -/

/-- Where a key starts or ends. The field is 1-indexed, and so is the character, where 0 is the end of the field. -/
structure KeyPosition where
  field : Nat
  char : Nat
  ignoreBlanks : Bool
  field_pos : 0 < field

inductive KeyError where
  | invalidCount (msgKey : String) (input : List UInt8)
  | badFieldSpec (spec : List UInt8) (msgKey : String)
  | incompatibleOptions (opts : String)
  | invalidCharIndexZeroStart

def usizeMax : Nat := 2 ^ 64 - 1

/-- A number at the start of the text, or the largest one when it is too large. -/
def parseFieldCount (input : List UInt8) (msgKey : String) : Except KeyError (Nat × List UInt8) :=
  let digits := input.takeWhile isDigit
  if digits = [] then .error (.invalidCount msgKey input)
  else .ok (min (Decimal.natValue (digits.map digit)) usizeMax, input.dropWhile isDigit)

/-- `b`, `d`, `f`, `g`, `h`, `i`, `M`, `n`, `R`, `r` and `V`. -/
def isOrderingOptionChar (byte : UInt8) : Bool := [98, 100, 102, 103, 104, 105, 77, 110, 82, 114, 86].contains byte

/-- What the ordering options of a key set. -/
structure OrderingOptions where
  settings : KeySettings
  flags : ModeFlags
  ignoreBlanks : Bool

/-- One option; none for another byte. -/
def orderingOption (byte : UInt8) (o : OrderingOptions) : Option OrderingOptions :=
  if byte = 98 then some { o with ignoreBlanks := true }
  else if byte = 100 then
    some { o with settings := { o.settings with dictionaryOrder := true, ignoreNonPrinting := false } }
  else if byte = 102 then some { o with settings := { o.settings with ignoreCase := true } }
  else if byte = 103 then some { o with flags := { o.flags with generalNumeric := true } }
  else if byte = 104 then some { o with flags := { o.flags with humanNumeric := true } }
  else if byte = 105 then
    some (if o.settings.dictionaryOrder then o
      else { o with settings := { o.settings with ignoreNonPrinting := true } })
  else if byte = 77 then some { o with flags := { o.flags with month := true } }
  else if byte = 110 then some { o with flags := { o.flags with numeric := true } }
  else if byte = 82 then some { o with flags := { o.flags with random := true } }
  else if byte = 114 then some { o with settings := { o.settings with reverse := true } }
  else if byte = 86 then some { o with flags := { o.flags with version := true } }
  else none

/-- The options at the start of the text, and the rest of it. -/
def parseOrderingOptions : List UInt8 → OrderingOptions → List UInt8 × OrderingOptions
  | [], o => ([], o)
  | byte :: rest, o =>
    match orderingOption byte o with
    | some o => parseOrderingOptions rest o
    | none => (byte :: rest, o)

/-- A key. It is made by `new`, so the two flags are what `new` makes them and its first character is not 0. -/
structure FieldSelector where
  fromPos : KeyPosition
  toPos : Option KeyPosition
  settings : KeySettings
  needsTokens : Bool
  /-- The key selects a part of the line only, or a number of it. -/
  needsSelection : Bool
  char_pos : 0 < fromPos.char
  needsTokens_eq : needsTokens = (decide (fromPos.field ≠ 1) || decide (fromPos.char = 0) || toPos.isSome)
  needsSelection_eq : needsSelection =
    ((decide (fromPos.field ≠ 1) || decide (fromPos.char ≠ 1) || toPos.isSome ||
      decide (settings.mode = .numeric ∨ settings.mode = .humanNumeric) || fromPos.ignoreBlanks) &&
      decide (settings.mode ≠ .generalNumeric))

namespace FieldSelector

def new (fromPos : KeyPosition) (toPos : Option KeyPosition) (settings : KeySettings) :
    Except KeyError FieldSelector :=
  if h : fromPos.char = 0 then .error .invalidCharIndexZeroStart
  else .ok {
    fromPos, toPos, settings
    needsTokens := _
    needsSelection := _
    char_pos := Nat.pos_of_ne_zero h
    needsTokens_eq := rfl
    needsSelection_eq := rfl }

/-- The number of a field of the key `key`. -/
def parseField (key input : List UInt8) (msgKey : String) : Except KeyError ({ n : Nat // 0 < n } × List UInt8) :=
  match parseFieldCount input msgKey with
  | .error e => .error e
  | .ok (field, rest) =>
    if h : field = 0 then .error (.badFieldSpec key "sort-field-number-is-zero")
    else .ok (⟨field, Nat.pos_of_ne_zero h⟩, rest)

/-- A character number behind a dot, or else `missing`. -/
def parseChar (input : List UInt8) (missing : Nat) : Except KeyError (Nat × List UInt8) :=
  match input with
  | 46 :: stripped => parseFieldCount stripped "sort-invalid-number-after-dot"
  | _ => .ok (missing, input)

/-- The end of a key, behind the comma; the text ends there. -/
def parseTo (key input : List UInt8) (o : OrderingOptions) (toIgnoreBlanks : Bool) :
    Except KeyError (KeyPosition × OrderingOptions) := do
  let (field, rest) ← parseField key input "sort-invalid-number-after-comma"
  let (char, rest) ← parseChar rest 0
  let (rest, o) := parseOrderingOptions rest { o with ignoreBlanks := false }
  if rest ≠ [] then .error (.badFieldSpec key "sort-stray-character-field-spec")
  else .ok (⟨field, char, toIgnoreBlanks || o.ignoreBlanks, field.2⟩, o)

/-- A key definition. Without options of its own it has the global ones. -/
def parse (key : List UInt8) (globalSettings : KeySettings) : Except KeyError FieldSelector := do
  let hasOptions := key.any isOrderingOptionChar
  let settings := if hasOptions then KeySettings.default else globalSettings
  let flags := if hasOptions then {} else ModeFlags.fromMode settings.mode
  let ignoreBlanks := if hasOptions then false else settings.ignoreBlanks
  let (field, rest) ← parseField key key "sort-invalid-number-at-field-start"
  let (char, rest) ← parseChar rest 1
  if char = 0 then .error (.badFieldSpec key "sort-character-offset-is-zero")
  else
    let (rest, o) := parseOrderingOptions rest ⟨settings, flags, false⟩
    let fromPos : KeyPosition := ⟨field, char, ignoreBlanks || o.ignoreBlanks, field.2⟩
    let (toPos, o) ← match rest with
      | [] => Except.ok (none, o)
      | 44 :: rest => (parseTo key rest o ignoreBlanks).map fun (toPos, o) => (some toPos, o)
      | _ => .error (.badFieldSpec key "sort-stray-character-field-spec")
    if orderingIncompatible o.flags o.settings.dictionaryOrder o.settings.ignoreNonPrinting then
      .error (.incompatibleOptions (orderingOptsString o.flags o.settings.dictionaryOrder
        o.settings.ignoreNonPrinting o.settings.ignoreCase))
    else new fromPos toPos { o.settings with mode := o.flags.toMode }

/-- The key that is the whole line. -/
def whole (settings : KeySettings) : FieldSelector where
  fromPos := ⟨1, 1, settings.ignoreBlanks, Nat.one_pos⟩
  toPos := none
  settings := settings
  needsTokens := _
  needsSelection := _
  char_pos := Nat.one_pos
  needsTokens_eq := rfl
  needsSelection_eq := rfl

end FieldSelector

/-! ## Fields of a line -/

/-- The start of a field and its end, exclusive. -/
abbrev Field := Nat × Nat

/-- `K`, `k`, `M`, `G`, `T`, `P`, `E`, `Z`, `Y`, `R` and `Q`. -/
def isUnit (c : UInt8) : Bool := [75, 107, 77, 71, 84, 80, 69, 90, 89, 82, 81].contains c

/-- A blank between digits, or before a unit, is part of a number. -/
def isBlankThousandsSep (line : List UInt8) (idx : Nat) (allowUnitAfterBlank : Bool) : Bool :=
  if (line)[idx]? ≠ some 32 then false
  else if idx = 0 ∨ ((line)[idx - 1]?.map isDigit) ≠ some true then false
  else
    match (line)[idx + 1]? with
    | some c => if isDigit c then true else isUnit c && allowUnitAfterBlank
    | none => false

/-- Whitespace separates fields, but a blank inside a number need not. -/
def treatAsSeparator (line : List UInt8) (idx : Nat) (char : UInt8) (blankThousandsSep allowUnitAfterBlank : Bool) :
    Bool :=
  if isWhitespace char then
    if blankThousandsSep && char == 32 then !isBlankThousandsSep line idx allowUnitAfterBlank else true
  else false

/-- The loop of `tokenize_default`, from `idx` on, in the field that starts at `start`. -/
def tokenizeDefaultFrom (line : List UInt8) (blankThousandsSep allowUnitAfterBlank : Bool) :
    List UInt8 → Nat → Nat → Bool → List Field
  | [], _, start, _ => [(start, line.length)]
  | char :: rest, idx, start, previousWasWhitespace =>
    if treatAsSeparator line idx char blankThousandsSep allowUnitAfterBlank then
      if !previousWasWhitespace then
        (start, idx) :: tokenizeDefaultFrom line blankThousandsSep allowUnitAfterBlank rest (idx + 1) idx true
      else tokenizeDefaultFrom line blankThousandsSep allowUnitAfterBlank rest (idx + 1) start true
    else tokenizeDefaultFrom line blankThousandsSep allowUnitAfterBlank rest (idx + 1) start false

/-- Fields are separated by the first whitespace after other bytes. The whitespace is in the field that follows. -/
def tokenizeDefault (line : List UInt8) (blankThousandsSep allowUnitAfterBlank : Bool) : List Field :=
  tokenizeDefaultFrom line blankThousandsSep allowUnitAfterBlank line 0 0 true

/-- The loop of `tokenize_with_separator`, from `idx` on. -/
def tokenizeWithSeparatorFrom (separator : UInt8) : List UInt8 → Nat → Nat → List Field
  | [], idx, start => if start < idx then [(start, idx)] else []
  | c :: rest, idx, start =>
    if c = separator then (start, idx) :: tokenizeWithSeparatorFrom separator rest (idx + 1) (idx + 1)
    else tokenizeWithSeparatorFrom separator rest (idx + 1) start

/-- Fields stand between separators. -/
def tokenizeWithSeparator (line : List UInt8) (separator : UInt8) : List Field :=
  tokenizeWithSeparatorFrom separator line 0 0

def tokenize (line : List UInt8) (separator : Option UInt8) (blankThousandsSep allowUnitAfterBlank : Bool) :
    List Field :=
  match separator with
  | some separator => tokenizeWithSeparator line separator
  | none => tokenizeDefault line blankThousandsSep allowUnitAfterBlank

/-- Fields are inside the line. -/
def Inside (line : List UInt8) (tokens : List Field) : Prop :=
  ∀ t ∈ tokens, t.1 ≤ line.length ∧ t.2 ≤ line.length

theorem inside_tokenizeDefaultFrom (line : List UInt8) (blank unit : Bool) (rest : List UInt8) :
    ∀ idx start previous, idx + rest.length = line.length → start ≤ idx →
      Inside line (tokenizeDefaultFrom line blank unit rest idx start previous) := by
  induction rest with
  | nil =>
    intro idx start previous hlen hstart t ht
    obtain rfl := List.mem_singleton.1 ht
    exact ⟨hlen ▸ hstart, le_refl _⟩
  | cons char rest ih =>
    intro idx start previous hlen hstart
    rw [List.length_cons] at hlen
    have hnext : idx + 1 + rest.length = line.length := by omega
    have hskip := fun previous => ih (idx + 1) start previous hnext (Nat.le_succ_of_le hstart)
    unfold tokenizeDefaultFrom
    split
    · split
      · intro t ht
        rcases List.mem_cons.1 ht with rfl | ht
        · exact ⟨by omega, by omega⟩
        · exact ih (idx + 1) idx true hnext (Nat.le_succ idx) t ht
      · exact hskip true
    · exact hskip false

theorem inside_tokenizeWithSeparatorFrom (line : List UInt8) (separator : UInt8) (rest : List UInt8) :
    ∀ idx start, idx + rest.length = line.length → start ≤ idx →
      Inside line (tokenizeWithSeparatorFrom separator rest idx start) := by
  induction rest with
  | nil =>
    intro idx start hlen hstart t ht
    unfold tokenizeWithSeparatorFrom at ht
    split at ht
    · obtain rfl := List.mem_singleton.1 ht
      exact ⟨hlen ▸ hstart, le_of_eq hlen⟩
    · cases ht
  | cons c rest ih =>
    intro idx start hlen hstart
    rw [List.length_cons] at hlen
    have hnext : idx + 1 + rest.length = line.length := by omega
    unfold tokenizeWithSeparatorFrom
    split
    · intro t ht
      rcases List.mem_cons.1 ht with rfl | ht
      · exact ⟨by omega, by omega⟩
      · exact ih (idx + 1) (idx + 1) hnext (le_refl _) t ht
    · exact ih (idx + 1) start hnext (Nat.le_succ_of_le hstart)

theorem inside_tokenize (line : List UInt8) (separator : Option UInt8) (blank unit : Bool) :
    Inside line (tokenize line separator blank unit) := by
  cases separator with
  | none => exact inside_tokenizeDefaultFrom line blank unit line 0 0 true (Nat.zero_add _) (le_refl _)
  | some separator => exact inside_tokenizeWithSeparatorFrom line separator line 0 0 (Nat.zero_add _) (le_refl _)

/-! ## The range of a key -/

inductive Resolution where
  /-- The start of the character, inclusive. -/
  | startOfChar (idx : Nat)
  /-- The end of the character, exclusive, when the character index is 0. -/
  | endOfChar (idx : Nat)
  /-- Before the first character. -/
  | tooLow
  /-- Behind the last character. -/
  | tooHigh
  deriving DecidableEq, Repr

/-- A field by its number; a panic without the fields, or where there is none. -/
def fieldAt (tokens : Option (List Field)) (position : KeyPosition) : Option Field :=
  tokens.bind fun tokens => tokens[position.field - 1]?

/-- `resolve_index`; none is a panic. -/
def resolveIndex (line : List UInt8) (tokens : Option (List Field)) (position : KeyPosition) : Option Resolution :=
  if tokens.any (·.length < position.field) then some .tooHigh
  else if position.char = 0 then
    (fieldAt tokens position).map fun t => if t.2 = 0 then .tooLow else .endOfChar t.2
  else
    (if position.field = 1 then some 0 else (fieldAt tokens position).map Prod.fst).bind fun idx =>
      if idx > line.length then none
      else
        let idx := if position.ignoreBlanks then idx + (line.drop idx).findIdx (!isWhitespace ·) else idx
        let idx := idx + min (position.char - 1) (line.drop idx).length
        some (if idx ≥ line.length then .tooHigh else .startOfChar idx)

namespace FieldSelector

/-- The range that the key selects; none is a panic. -/
def getRange (s : FieldSelector) (line : List UInt8) (tokens : Option (List Field)) : Option (Nat × Nat) :=
  match resolveIndex line tokens s.fromPos with
  | some (.startOfChar start) =>
    let range : Option (Nat × Nat) :=
      match s.toPos.map (resolveIndex line tokens) with
      | none => some (start, line.length)
      | some none => none
      | some (some (.startOfChar finish)) => some (start, finish + 1)
      | some (some (.endOfChar finish)) => some (start, finish)
      | some (some .tooHigh) => some (start, line.length)
      | some (some .tooLow) => some (0, 0)
    range.map fun (start, finish) => (start, if start > finish then start else finish)
  | some .tooHigh => some (line.length, line.length)
  | some .tooLow => none
  | some (.endOfChar _) => none
  | none => none

end FieldSelector

/-- What is resolved is inside the line. -/
def Resolution.Inside (line : List UInt8) : Resolution → Prop
  | .startOfChar idx => idx < line.length
  | .endOfChar idx => idx ≤ line.length
  | .tooLow => True
  | .tooHigh => True

/-- A position is resolved where the fields are there, or the position needs none. -/
theorem resolveIndex_eq {line : List UInt8} {tokens : Option (List Field)} {position : KeyPosition}
    (hin : ∀ ts, tokens = some ts → Inside line ts)
    (hneeds : tokens = none → position.field = 1 ∧ position.char ≠ 0) :
    ∃ r, resolveIndex line tokens position = some r ∧ r.Inside line ∧
      (position.char ≠ 0 → r = .tooHigh ∨ ∃ idx, r = .startOfChar idx) := by
  have hfield : ¬ tokens.any (·.length < position.field) = true → tokens ≠ none →
      ∃ t, fieldAt tokens position = some t ∧ t.1 ≤ line.length ∧ t.2 ≤ line.length := by
    intro hlen hsome
    obtain ⟨ts, rfl⟩ := Option.ne_none_iff_exists'.1 hsome
    simp only [Option.any_some, decide_eq_true_eq, Nat.not_lt] at hlen
    have hlt : position.field - 1 < ts.length := by
      have := position.field_pos
      omega
    exact ⟨ts[position.field - 1], List.getElem?_eq_getElem hlt, hin ts rfl _ (List.getElem_mem hlt)⟩
  unfold resolveIndex
  split
  · exact ⟨_, rfl, trivial, fun _ => Or.inl rfl⟩
  · rename_i hlen
    split
    · rename_i hchar
      have hsome : tokens ≠ none := fun h => (hneeds h).2 hchar
      obtain ⟨t, ht, -, hend⟩ := hfield hlen hsome
      rw [ht, Option.map_some]
      refine ⟨_, rfl, ?_, fun h => absurd hchar h⟩
      split
      · trivial
      · exact hend
    · have hstart : ∃ idx, (if position.field = 1 then some 0 else (fieldAt tokens position).map Prod.fst) = some idx ∧
          idx ≤ line.length := by
        split
        · exact ⟨0, rfl, Nat.zero_le _⟩
        · rename_i hfirst
          obtain ⟨t, ht, hle, -⟩ := hfield hlen fun h => hfirst (hneeds h).1
          exact ⟨t.1, by rw [ht, Option.map_some], hle⟩
      obtain ⟨idx, hidx, hle⟩ := hstart
      rw [hidx, Option.bind_some, if_neg (Nat.not_lt.2 hle)]
      dsimp only
      generalize (if position.ignoreBlanks then _ else idx) = first
      refine ⟨_, rfl, ?_, fun _ => ?_⟩
      · split
        · trivial
        · rename_i hlt
          exact Nat.lt_of_not_le hlt
      · split
        · exact Or.inl rfl
        · exact Or.inr ⟨_, rfl⟩

namespace FieldSelector

/-- The fields are only needed when they are there. -/
theorem getRange_eq (s : FieldSelector) {line : List UInt8} {tokens : List Field} (hin : Inside line tokens) :
    ∃ start finish, s.getRange line (if s.needsTokens then some tokens else none) = some (start, finish) ∧
      start ≤ finish ∧ finish ≤ line.length := by
  have hnone : (if s.needsTokens then some tokens else none) = none → s.needsTokens = false := by
    intro h
    split at h
    · cases h
    · rename_i hneeds
      exact Bool.eq_false_iff.2 hneeds
  have hsome : ∀ ts, (if s.needsTokens then some tokens else none) = some ts → Inside line ts := by
    intro ts h
    split at h
    · cases h
      exact hin
    · cases h
  have hmissing : s.needsTokens = false → s.fromPos.field = 1 ∧ s.toPos = none := by
    intro h
    rw [s.needsTokens_eq] at h
    simpa [and_assoc, Nat.ne_of_gt s.char_pos] using h
  have hchar : s.fromPos.char ≠ 0 := Nat.ne_of_gt s.char_pos
  obtain ⟨r, hr, hinside, hkind⟩ := @resolveIndex_eq line _ s.fromPos hsome
    fun h => ⟨(hmissing (hnone h)).1, hchar⟩
  unfold getRange
  rw [hr]
  rcases hkind hchar with rfl | ⟨start, rfl⟩
  · exact ⟨_, _, rfl, le_refl _, le_refl _⟩
  · have hlt : start < line.length := hinside
    have hclose : ∀ i j : Nat, i ≤ line.length → j ≤ line.length → ∃ start finish,
        (some (i, j)).map (fun (p : Nat × Nat) => (p.1, if p.1 > p.2 then p.1 else p.2)) = some (start, finish) ∧
          start ≤ finish ∧ finish ≤ line.length := by
      intro i j hi hj
      refine ⟨_, _, rfl, ?_, ?_⟩ <;> simp only <;> split <;> omega
    have hle : start ≤ line.length := Nat.le_of_lt hlt
    cases hto : s.toPos with
    | none => exact hclose start line.length hle (le_refl _)
    | some position =>
      obtain ⟨r', hr', hinside', -⟩ := @resolveIndex_eq line _ position hsome
        fun h => by
          have := (hmissing (hnone h)).2
          rw [hto] at this
          cases this
      simp only [Option.map_some, hr']
      cases r' with
      | startOfChar idx =>
        have : idx < line.length := hinside'
        exact hclose start (idx + 1) hle this
      | endOfChar idx => exact hclose start idx hle hinside'
      | tooLow => exact hclose 0 0 (Nat.zero_le _) (Nat.zero_le _)
      | tooHigh => exact hclose start line.length hle (le_refl _)

end FieldSelector

end Peiosutils.Sort.Key
