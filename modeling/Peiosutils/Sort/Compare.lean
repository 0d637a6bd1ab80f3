import Mathlib.Order.Basic
import Peiosutils.Sort.Key
import Peiosutils.Sort.Strings

/-!
# Comparing lines (`sort.rs`)

`Line.create` computes what the keys of a line need once, into the flat tables of `LineData`, and `compareBy` compares
two lines by these tables, with three shortcuts. Locale collation is left out.
-/

set_option autoImplicit false

namespace Peiosutils.Sort.Key

open Ascii

/-! ## Settings -/

structure GlobalSettings where
  mode : SortMode
  ignoreLeadingBlanks : Bool
  ignoreCase : Bool
  dictionaryOrder : Bool
  ignoreNonPrinting : Bool
  reverse : Bool
  stable : Bool
  unique : Bool
  selectors : List FieldSelector
  separator : Option UInt8
  numericLocale : NumericLocaleSettings

/-- What a key without options of its own takes from the global settings. -/
def KeySettings.ofGlobal (settings : GlobalSettings) : KeySettings :=
  ⟨settings.mode, settings.ignoreLeadingBlanks, settings.ignoreCase, settings.dictionaryOrder,
    settings.ignoreNonPrinting, settings.reverse⟩

/-- The keys of the command line, or the whole line when there are none. -/
def selectorsOf (settings : GlobalSettings) (keys : List (List UInt8)) : Except KeyError (List FieldSelector) :=
  if keys = [] then .ok [FieldSelector.whole (.ofGlobal settings)]
  else keys.mapM fun key => FieldSelector.parse key (.ofGlobal settings)

/-- A key without options. -/
def FieldSelector.plain (s : FieldSelector) (ignoreCase : Bool) : Bool :=
  !s.needsSelection && s.settings.mode == .default && s.settings.ignoreCase == ignoreCase &&
    !s.settings.dictionaryOrder && !s.settings.ignoreNonPrinting && !s.settings.ignoreBlanks

namespace GlobalSettings

def canUseFastLexicographic (settings : GlobalSettings) : Bool :=
  settings.mode == .default && !settings.ignoreCase && !settings.dictionaryOrder && !settings.ignoreNonPrinting &&
    !settings.ignoreLeadingBlanks &&
    match settings.selectors with
    | [selector] => selector.plain false
    | _ => false

def canUseFastAsciiInsensitive (settings : GlobalSettings) : Bool :=
  settings.mode == .default && settings.ignoreCase && !settings.dictionaryOrder && !settings.ignoreNonPrinting &&
    !settings.ignoreLeadingBlanks &&
    match settings.selectors with
    | [selector] => selector.plain true
    | _ => false

end GlobalSettings

def SortMode.isNumeric (mode : SortMode) : Bool := mode == .numeric || mode == .humanNumeric

structure Precomputed where
  needsTokens : Bool
  numInfosPerLine : Nat
  floatsPerLine : Nat
  selectionsPerLine : Nat
  fastLexicographic : Bool
  fastAsciiInsensitive : Bool
  tokenizeBlankThousandsSep : Bool
  tokenizeAllowUnitAfterBlank : Bool

/-- `init_precomputed`, without locale collation. -/
def GlobalSettings.initPrecomputed (settings : GlobalSettings) : Precomputed :=
  let usesNumeric := settings.selectors.any (·.settings.mode.isNumeric)
  let usesHumanNumeric := settings.selectors.any (·.settings.mode == .humanNumeric)
  let blank := settings.separator.isNone && usesNumeric && settings.numericLocale.thousandsSep == some 32
  { needsTokens := settings.selectors.any (·.needsTokens)
    numInfosPerLine := settings.selectors.countP (·.settings.mode.isNumeric)
    floatsPerLine := settings.selectors.countP (·.settings.mode == .generalNumeric)
    selectionsPerLine := settings.selectors.countP (·.needsSelection)
    fastLexicographic := settings.canUseFastLexicographic
    fastAsciiInsensitive := settings.canUseFastAsciiInsensitive
    tokenizeBlankThousandsSep := blank
    tokenizeAllowUnitAfterBlank := blank && usesHumanNumeric }

/-! ## The tables of a chunk -/

/-- Rounding a decimal number to `f64`, of type `F`, and the comparisons for the other modes. -/
structure Externals (F G : Type) where
  roundF64 : ℚ → F
  generalBdParse : List UInt8 → G
  generalNumericCompare : G → G → Ordering
  monthCompare : List UInt8 → List UInt8 → Ordering
  randomShuffle : List UInt8 → List UInt8 → Ordering

inductive Selection (G : Type) where
  | asBigDecimal (parsed : G)
  | withNumInfo (str : List UInt8) (info : NumInfo)
  | str (str : List UInt8)

structure LineData (F G : Type) where
  selections : List (List UInt8)
  numInfos : List NumInfo
  parsedFloats : List G
  lineNumFloats : List (Option F)

structure Line where
  line : List UInt8
  index : Nat
  deriving DecidableEq, Repr

section

variable {F G : Type} (env : Externals F G) (settings : GlobalSettings)

/-- What a key is compared by, of the part of the line that it selects. -/
def Selection.ofRange (mode : SortMode) (rangeStr : List UInt8) : Selection G :=
  if mode.isNumeric then
    let (info, start, finish) := NumInfo.parse rangeStr (settings.numericLocale.numInfoSettings (mode == .humanNumeric))
    .withNumInfo (slice rangeStr start finish) info
  else if mode = .generalNumeric then .asBigDecimal (env.generalBdParse rangeStr)
  else .str rangeStr

/-- The selection of a key; none is a panic. -/
def FieldSelector.getSelection (s : FieldSelector) (line : List UInt8) (tokens : List Field) : Option (Selection G) :=
  (s.getRange line (if s.needsTokens then some tokens else none)).map fun (start, finish) =>
    Selection.ofRange env settings s.settings.mode (slice line start finish)

def LineData.push (data : LineData F G) (needsSelection : Bool) : Selection G → LineData F G
  | .asBigDecimal parsed => { data with parsedFloats := data.parsedFloats ++ [parsed] }
  | .withNumInfo str info => { data with numInfos := data.numInfos ++ [info], selections := data.selections ++ [str] }
  | .str str => if needsSelection then { data with selections := data.selections ++ [str] } else data

def LineData.empty : LineData F G := ⟨[], [], [], []⟩

/-- The number that the whole line is; infinities, NaN and scientific notation are excluded. -/
def lineNumFloat (line : List UInt8) : Option F :=
  if line.any isAlphabetic then none else (parseDecimal line).map env.roundF64

/-- The fields of a line, where a key needs them. -/
def tokensOf (line : List UInt8) : List Field :=
  let pre := settings.initPrecomputed
  if pre.needsTokens then
    tokenize line settings.separator pre.tokenizeBlankThousandsSep pre.tokenizeAllowUnitAfterBlank
  else []

/-- A line with its data in the tables; none is a panic. -/
def Line.create (line : List UInt8) (index : Nat) (data : LineData F G) : Option (Line × LineData F G) :=
  let pre := settings.initPrecomputed
  let needsLineData := pre.needsTokens || decide (pre.selectionsPerLine > 0) || decide (pre.numInfosPerLine > 0) ||
    decide (pre.floatsPerLine > 0) || settings.mode == .numeric
  if !needsLineData then some (⟨line, index⟩, data)
  else
    let tokens := tokensOf settings line
    let data :=
      if settings.mode = .numeric then { data with lineNumFloats := data.lineNumFloats ++ [lineNumFloat env line] }
      else data
    (settings.selectors.foldlM (fun data (selector : FieldSelector) =>
      (selector.getSelection env settings line tokens).map (data.push selector.needsSelection)) data).map
        fun data => (⟨line, index⟩, data)

/-- The lines of a chunk, from an index on. -/
def parseLinesFrom : List (List UInt8) → Nat → LineData F G → Option (List Line × LineData F G)
  | [], _, data => some ([], data)
  | line :: rest, index, data => do
    let (line, data) ← Line.create env settings line index data
    let (lines, data) ← parseLinesFrom rest (index + 1) data
    some (line :: lines, data)

/-- The lines of a chunk. -/
def parseLines (lines : List (List UInt8)) : Option (List Line × LineData F G) :=
  parseLinesFrom env settings lines 0 LineData.empty

/-! ## The comparison -/

/-- The byte order, the versions, the months, or the random order. -/
def compareStr (key : KeySettings) (a b : List UInt8) : Ordering :=
  let custom := customStrCmp a b key.ignoreNonPrinting key.dictionaryOrder key.ignoreCase
  match key.mode with
  | .random => if custom = .eq then .eq else env.randomShuffle a b
  | .month => env.monthCompare a b
  | .version => versionCmp a b
  | _ => custom

def reverseIf (reverse : Bool) (ord : Ordering) : Ordering := if reverse then ord.swap else ord

/-- The loop of `compare_by` over the keys, with the indices into the tables: the order by the first key that differs,
if one does. None is a panic. -/
def compareSelectors (aData bData : LineData F G) (a b : Line) :
    List FieldSelector → Nat → Nat → Nat → Option (Option Ordering)
  | [], _, _, _ => some none
  | selector :: rest, selectionIndex, numInfoIndex, parsedFloatIndex => do
    let pre := settings.initPrecomputed
    let (aStr, bStr) ←
      if selector.needsSelection then do
        let aStr ← aData.selections[a.index * pre.selectionsPerLine + selectionIndex]?
        let bStr ← bData.selections[b.index * pre.selectionsPerLine + selectionIndex]?
        some (aStr, bStr)
      else some (a.line, b.line)
    let selectionIndex := if selector.needsSelection then selectionIndex + 1 else selectionIndex
    let (cmp, numInfoIndex, parsedFloatIndex) ←
      if selector.settings.mode.isNumeric then do
        let aInfo ← aData.numInfos[a.index * pre.numInfosPerLine + numInfoIndex]?
        let bInfo ← bData.numInfos[b.index * pre.numInfosPerLine + numInfoIndex]?
        let cmp := if selector.settings.mode = .numeric then numericStrCmp aStr aInfo bStr bInfo
          else humanNumericStrCmp aStr aInfo bStr bInfo
        some (cmp, numInfoIndex + 1, parsedFloatIndex)
      else if selector.settings.mode = .generalNumeric then do
        let aFloat ← aData.parsedFloats[a.index * pre.floatsPerLine + parsedFloatIndex]?
        let bFloat ← bData.parsedFloats[b.index * pre.floatsPerLine + parsedFloatIndex]?
        some (env.generalNumericCompare aFloat bFloat, numInfoIndex, parsedFloatIndex + 1)
      else some (compareStr env selector.settings aStr bStr, numInfoIndex, parsedFloatIndex)
    if cmp ≠ .eq then some (some (reverseIf selector.settings.reverse cmp))
    else compareSelectors aData bData a b rest selectionIndex numInfoIndex parsedFloatIndex

/-- The order when all keys are equal. -/
def lastResort (a b : List UInt8) : Ordering :=
  let cmp := if settings.mode = .random ∨ settings.stable ∨ settings.unique then .eq else compare a b
  reverseIf settings.reverse cmp

/-- The order of the lines as numbers, where both are numbers and this is to be trusted. -/
def compareFloats [LinearOrder F] (aData bData : LineData F G) (a b : Line) : Option Ordering :=
  match aData.lineNumFloats[a.index]?, bData.lineNumFloats[b.index]? with
  | some (some x), some (some y) =>
    if compare x y ≠ .eq ∨ a.line = b.line then some (reverseIf settings.reverse (compare x y)) else none
  | _, _ => none

/-- The order of two lines; none is a panic. -/
def compareBy [LinearOrder F] (aData bData : LineData F G) (a b : Line) : Option Ordering :=
  let pre := settings.initPrecomputed
  if pre.fastLexicographic then some (reverseIf settings.reverse (compare a.line b.line))
  else
    let folded := asciiCaseInsensitiveCmp a.line b.line
    if pre.fastAsciiInsensitive ∧ (folded ≠ .eq ∨ a.line = b.line) then some (reverseIf settings.reverse folded)
    else
      match compareFloats settings aData bData a b with
      | some ord => some ord
      | none => (compareSelectors env settings aData bData a b settings.selectors 0 0 0).map fun ord =>
        ord.getD (lastResort settings a.line b.line)

end

end Peiosutils.Sort.Key
