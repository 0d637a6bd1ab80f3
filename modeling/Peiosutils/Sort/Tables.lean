import Peiosutils.Lib.Blocks
import Peiosutils.Sort.Compare

/-!
# The tables of a chunk hold the keys of its lines

Every key of every line can be selected (`FieldSelector.keyOf`), and `parseLines` writes these keys into the tables, with
as many entries for each line as `Precomputed` counts (`parseLines_eq`). So the loop of `compareBy` compares the keys of
the two lines, one after the other (`compareSelectors_eq`).
-/

set_option autoImplicit false

namespace Peiosutils.Sort.Key

section

variable {F G : Type} (env : Externals F G) (settings : GlobalSettings)

/-! ## The keys of a line -/

theorem inside_tokensOf (line : List UInt8) : Inside line (tokensOf settings line) := by
  unfold tokensOf
  simp only
  split
  · exact inside_tokenize _ _ _ _
  · intro t ht
    cases ht

theorem getSelection_isSome (s : FieldSelector) (line : List UInt8) :
    (s.getSelection env settings line (tokensOf settings line)).isSome := by
  obtain ⟨start, finish, hrange, -⟩ := s.getRange_eq (inside_tokensOf settings line)
  rw [FieldSelector.getSelection, hrange]
  rfl

/-- The key of a line: selecting it never panics. -/
def FieldSelector.keyOf (s : FieldSelector) (line : List UInt8) : Selection G :=
  (s.getSelection env settings line (tokensOf settings line)).get (getSelection_isSome env settings s line)

theorem getSelection_eq (s : FieldSelector) (line : List UInt8) :
    s.getSelection env settings line (tokensOf settings line) = some (s.keyOf env settings line) :=
  (Option.some_get _).symm

/-- A key is of the kind that its mode asks for. -/
theorem keyOf_cases (s : FieldSelector) (line : List UInt8) :
    (s.settings.mode.isNumeric = true ∧ ∃ str info, s.keyOf env settings line = .withNumInfo str info) ∨
    (s.settings.mode = .generalNumeric ∧ ∃ parsed, s.keyOf env settings line = .asBigDecimal parsed) ∨
    (s.settings.mode.isNumeric = false ∧ s.settings.mode ≠ .generalNumeric ∧
      ∃ str, s.keyOf env settings line = .str str) := by
  obtain ⟨start, finish, hrange, -⟩ := s.getRange_eq (inside_tokensOf settings line)
  have hkey : s.keyOf env settings line = Selection.ofRange env settings s.settings.mode (slice line start finish) := by
    have h := getSelection_eq env settings s line
    rw [FieldSelector.getSelection, hrange] at h
    exact (Option.some.inj h).symm
  rw [hkey, Selection.ofRange]
  by_cases hnum : s.settings.mode.isNumeric = true
  · rw [if_pos hnum]
    exact Or.inl ⟨hnum, _, _, rfl⟩
  · rw [if_neg hnum]
    by_cases hgen : s.settings.mode = .generalNumeric
    · rw [if_pos hgen]
      exact Or.inr (Or.inl ⟨hgen, _, rfl⟩)
    · rw [if_neg hgen]
      exact Or.inr (Or.inr ⟨Bool.eq_false_iff.2 hnum, hgen, _, rfl⟩)

/-- The range of a key that starts with the line, skips nothing and has no end. -/
theorem getRange_whole {s : FieldSelector} {line : List UInt8} {tokens : List Field}
    (hfield : s.fromPos.field = 1) (hchar : s.fromPos.char = 1) (hto : s.toPos = none)
    (hblank : s.fromPos.ignoreBlanks = true → ∀ c ∈ line.head?, Ascii.isWhitespace c = false) :
    s.getRange line (if s.needsTokens then some tokens else none) = some (0, line.length) := by
  have htokens : s.needsTokens = false := by
    rw [s.needsTokens_eq, hto, hfield, hchar]
    rfl
  have hresolve : resolveIndex line none s.fromPos = some (if line = [] then .tooHigh else .startOfChar 0) := by
    have hskip : (if s.fromPos.ignoreBlanks then 0 + (line.drop 0).findIdx (!Ascii.isWhitespace ·) else 0) = 0 := by
      split
      · rename_i hb
        cases line with
        | nil => rfl
        | cons c line =>
          have := hblank hb c rfl
          simp [List.findIdx_cons, this]
      · rfl
    simp only [resolveIndex, Option.any_none, Bool.false_eq_true, if_false, hchar, hfield, if_true, Option.bind_some,
      Nat.not_lt_zero, gt_iff_lt, hskip]
    cases line <;> simp
  unfold FieldSelector.getRange
  rw [htokens, if_neg Bool.false_ne_true, hresolve, hto]
  cases line <;> simp

theorem slice_whole (line : List UInt8) : slice line 0 line.length = line := by
  rw [slice, List.take_length, List.drop_zero]

/-- Where no selection is kept the key is the whole line. -/
theorem keyOf_whole {s : FieldSelector} (hsel : s.needsSelection = false) (hgen : s.settings.mode ≠ .generalNumeric)
    (line : List UInt8) : s.keyOf env settings line = .str line := by
  rw [s.needsSelection_eq] at hsel
  simp only [hgen, ne_eq, not_false_iff, decide_true, Bool.and_true, Bool.or_eq_false_iff, decide_eq_false_iff_not,
    not_not, not_or] at hsel
  obtain ⟨⟨⟨⟨hfield, hchar⟩, hto⟩, hnum⟩, hblank⟩ := hsel
  have hto : s.toPos = none := by simpa using hto
  have h := getSelection_eq env settings s line
  rw [FieldSelector.getSelection, getRange_whole hfield hchar hto fun hb => absurd hb (by simp [hblank])] at h
  have hmode : s.settings.mode.isNumeric = false := by simp [SortMode.isNumeric, hnum.1, hnum.2]
  simp only [Option.map_some, slice_whole, Selection.ofRange, hmode, Bool.false_eq_true, if_false, if_neg hgen] at h
  exact (Option.some.inj h).symm

/-! ## The tables -/

namespace Selection

def strPart (needsSelection : Bool) : Selection G → List (List UInt8)
  | asBigDecimal _ => []
  | withNumInfo s _ => [s]
  | str s => if needsSelection then [s] else []

def infoPart : Selection G → List NumInfo
  | withNumInfo _ info => [info]
  | _ => []

def floatPart : Selection G → List G
  | asBigDecimal parsed => [parsed]
  | _ => []

end Selection

theorem LineData.push_eq (data : LineData F G) (needsSelection : Bool) (sel : Selection G) :
    data.push needsSelection sel = ⟨data.selections ++ sel.strPart needsSelection, data.numInfos ++ sel.infoPart,
      data.parsedFloats ++ sel.floatPart, data.lineNumFloats⟩ := by
  cases sel with
  | asBigDecimal parsed => simp [push, Selection.strPart, Selection.infoPart, Selection.floatPart]
  | withNumInfo s info => simp [push, Selection.strPart, Selection.infoPart, Selection.floatPart]
  | str s => cases needsSelection <;> simp [push, Selection.strPart, Selection.infoPart, Selection.floatPart]

/-- What the keys of a line put into the table of selections. -/
def strBlock (selectors : List FieldSelector) (line : List UInt8) : List (List UInt8) :=
  selectors.flatMap fun s => (s.keyOf env settings line).strPart s.needsSelection

def infoBlock (selectors : List FieldSelector) (line : List UInt8) : List NumInfo :=
  selectors.flatMap fun s => (s.keyOf env settings line).infoPart

def floatBlock (selectors : List FieldSelector) (line : List UInt8) : List G :=
  selectors.flatMap fun s => (s.keyOf env settings line).floatPart

theorem strPart_length (s : FieldSelector) (line : List UInt8) :
    ((s.keyOf env settings line).strPart s.needsSelection).length = if s.needsSelection then 1 else 0 := by
  have hneeds := s.needsSelection_eq
  rcases keyOf_cases env settings s line with ⟨hnum, str, info, h⟩ | ⟨hgen, parsed, h⟩ | ⟨-, -, str, h⟩
  · have hne : s.settings.mode ≠ .generalNumeric := fun hg => by
      rw [hg] at hnum
      cases hnum
    simp only [SortMode.isNumeric, Bool.or_eq_true, beq_iff_eq] at hnum
    rw [h, hneeds]
    simp [Selection.strPart, hnum, hne]
  · rw [h, hneeds]
    simp [Selection.strPart, hgen]
  · rw [h]
    cases s.needsSelection <;> rfl

theorem infoPart_length (s : FieldSelector) (line : List UInt8) :
    (s.keyOf env settings line).infoPart.length = if s.settings.mode.isNumeric then 1 else 0 := by
  rcases keyOf_cases env settings s line with ⟨hnum, str, info, h⟩ | ⟨hgen, parsed, h⟩ | ⟨hnum, -, str, h⟩
  · rw [h, hnum]
    rfl
  · rw [h, hgen]
    rfl
  · rw [h, hnum]
    rfl

theorem floatPart_length (s : FieldSelector) (line : List UInt8) :
    (s.keyOf env settings line).floatPart.length = if s.settings.mode == .generalNumeric then 1 else 0 := by
  rcases keyOf_cases env settings s line with ⟨hnum, str, info, h⟩ | ⟨hgen, parsed, h⟩ | ⟨-, hgen, str, h⟩
  · have hne : s.settings.mode ≠ .generalNumeric := fun hg => by
      rw [hg] at hnum
      cases hnum
    rw [h, beq_false_of_ne hne]
    rfl
  · rw [h, hgen]
    rfl
  · rw [h, beq_false_of_ne hgen]
    rfl

/-- The tables hold one block for each line. -/
def tables (lines : List (List UInt8)) : LineData F G where
  selections := lines.flatMap (strBlock env settings settings.selectors)
  numInfos := lines.flatMap (infoBlock env settings settings.selectors)
  parsedFloats := lines.flatMap (floatBlock env settings settings.selectors)
  lineNumFloats := if settings.mode = .numeric then lines.map (lineNumFloat env) else []

def LineData.append (data more : LineData F G) : LineData F G :=
  ⟨data.selections ++ more.selections, data.numInfos ++ more.numInfos, data.parsedFloats ++ more.parsedFloats,
    data.lineNumFloats ++ more.lineNumFloats⟩

theorem LineData.append_assoc (a b c : LineData F G) : (a.append b).append c = a.append (b.append c) := by
  simp only [append, List.append_assoc]

theorem tables_cons (line : List UInt8) (lines : List (List UInt8)) :
    tables env settings (line :: lines) = (tables env settings [line]).append (tables env settings lines) := by
  simp only [tables, LineData.append, List.flatMap_cons, List.flatMap_nil, List.append_nil]
  split <;> rfl

/-- The keys of one line. -/
theorem foldlM_push (selectors : List FieldSelector) (line : List UInt8) (data : LineData F G) :
    (selectors.foldlM (fun data (s : FieldSelector) =>
      (s.getSelection env settings line (tokensOf settings line)).map (data.push s.needsSelection)) data) =
      some (data.append ⟨strBlock env settings selectors line, infoBlock env settings selectors line,
        floatBlock env settings selectors line, []⟩) := by
  induction selectors generalizing data with
  | nil => simp [LineData.append, strBlock, infoBlock, floatBlock]
  | cons s selectors ih =>
    rw [List.foldlM_cons, getSelection_eq, Option.map_some]
    show List.foldlM _ _ selectors = _
    rw [ih, LineData.push_eq]
    simp [LineData.append, strBlock, infoBlock, floatBlock]

/-- Without keys to keep there is nothing in the tables. -/
theorem blocks_eq_nil {selectors : List FieldSelector} (hsel : selectors.countP (·.needsSelection) = 0)
    (hnum : selectors.countP (·.settings.mode.isNumeric) = 0)
    (hgen : selectors.countP (·.settings.mode == .generalNumeric) = 0) (line : List UInt8) :
    strBlock env settings selectors line = [] ∧ infoBlock env settings selectors line = [] ∧
      floatBlock env settings selectors line = [] := by
  refine ⟨List.eq_nil_of_length_eq_zero ?_, List.eq_nil_of_length_eq_zero ?_, List.eq_nil_of_length_eq_zero ?_⟩
  · exact (Blocks.length_flatMap_of_countP selectors fun s _ => strPart_length env settings s line).trans hsel
  · exact (Blocks.length_flatMap_of_countP selectors fun s _ => infoPart_length env settings s line).trans hnum
  · exact (Blocks.length_flatMap_of_countP selectors fun s _ => floatPart_length env settings s line).trans hgen

/-- One line. -/
theorem create_eq (line : List UInt8) (index : Nat) (data : LineData F G) :
    Line.create env settings line index data = some (⟨line, index⟩, data.append (tables env settings [line])) := by
  unfold Line.create
  simp only
  split
  · rename_i hneeds
    simp only [Bool.not_eq_true', Bool.or_eq_false_iff, decide_eq_false_iff_not, Nat.not_lt, Nat.le_zero, gt_iff_lt]
      at hneeds
    obtain ⟨⟨⟨⟨-, hsel⟩, hnum⟩, hgen⟩, hmode⟩ := hneeds
    obtain ⟨h₁, h₂, h₃⟩ := blocks_eq_nil env settings hsel hnum hgen line
    have hmode : settings.mode ≠ .numeric := by simpa using hmode
    simp [tables, LineData.append, h₁, h₂, h₃, hmode]
  · rw [foldlM_push, Option.map_some]
    congr 2
    split <;> simp_all [tables, LineData.append]

/-- The lines of a chunk, by their indices, and the tables. -/
theorem parseLinesFrom_eq (lines : List (List UInt8)) (index : Nat) (data : LineData F G) :
    parseLinesFrom env settings lines index data =
      some (lines.zipIdx index |>.map fun (line, i) => ⟨line, i⟩, data.append (tables env settings lines)) := by
  induction lines generalizing index data with
  | nil => simp [parseLinesFrom, tables, LineData.append]
  | cons line lines ih =>
    rw [parseLinesFrom, create_eq]
    show (parseLinesFrom env settings lines (index + 1) _).bind _ = _
    rw [ih]
    show some (_, _) = _
    rw [List.zipIdx_cons, List.map_cons, LineData.append_assoc, ← tables_cons]

theorem parseLines_eq (lines : List (List UInt8)) :
    parseLines env settings lines =
      some (lines.zipIdx.map fun (line, i) => ⟨line, i⟩, tables env settings lines) := by
  rw [parseLines, parseLinesFrom_eq]
  rfl

/-! ## The loop over the keys -/

/-- Two keys under the settings of the key. -/
def compareKeys (key : KeySettings) : Selection G → Selection G → Ordering
  | .withNumInfo a aInfo, .withNumInfo b bInfo =>
    if key.mode = .numeric then numericStrCmp a aInfo b bInfo else humanNumericStrCmp a aInfo b bInfo
  | .asBigDecimal a, .asBigDecimal b => env.generalNumericCompare a b
  | .str a, .str b => compareStr env key a b
  | _, _ => .eq

/-- Two lines by one key. -/
def FieldSelector.compare (s : FieldSelector) (a b : List UInt8) : Ordering :=
  compareKeys env s.settings (s.keyOf env settings a) (s.keyOf env settings b)

variable {as bs : List (List UInt8)} {i j : Nat} {a b : List UInt8}

/-- One turn of the loop compares one key, at the indices where the tables hold it. -/
theorem compareSelectors_cons {before after : List FieldSelector} {s : FieldSelector}
    (hsel : settings.selectors = before ++ s :: after) (ha : as[i]? = some a) (hb : bs[j]? = some b) :
    compareSelectors env settings (tables env settings as) (tables env settings bs) ⟨a, i⟩ ⟨b, j⟩ (s :: after)
      (before.countP (·.needsSelection)) (before.countP (·.settings.mode.isNumeric))
      (before.countP (·.settings.mode == .generalNumeric)) =
    if s.compare env settings a b ≠ .eq then some (some (reverseIf s.settings.reverse (s.compare env settings a b)))
    else
      compareSelectors env settings (tables env settings as) (tables env settings bs) ⟨a, i⟩ ⟨b, j⟩ after
        ((before ++ [s]).countP (·.needsSelection)) ((before ++ [s]).countP (·.settings.mode.isNumeric))
        ((before ++ [s]).countP (·.settings.mode == .generalNumeric)) := by
  have hstr : ∀ {cs : List (List UInt8)} {k : Nat} {c : List UInt8}, cs[k]? = some c → s.needsSelection = true →
      (tables env settings cs).selections[k * settings.initPrecomputed.selectionsPerLine +
        before.countP (·.needsSelection)]? = ((s.keyOf env settings c).strPart s.needsSelection)[0]? := by
    intro cs k c hc hs
    have := Blocks.getElem?_column (fun s c => strPart_length env settings s c) before after hs hc
    rw [← hsel] at this
    exact this
  have hinfo : ∀ {cs : List (List UInt8)} {k : Nat} {c : List UInt8}, cs[k]? = some c →
      s.settings.mode.isNumeric = true →
      (tables env settings cs).numInfos[k * settings.initPrecomputed.numInfosPerLine +
        before.countP (·.settings.mode.isNumeric)]? = ((s.keyOf env settings c).infoPart)[0]? := by
    intro cs k c hc hs
    have := Blocks.getElem?_column (fun s c => infoPart_length env settings s c) before after hs hc
    rw [← hsel] at this
    exact this
  have hfloat : ∀ {cs : List (List UInt8)} {k : Nat} {c : List UInt8}, cs[k]? = some c →
      (s.settings.mode == .generalNumeric) = true →
      (tables env settings cs).parsedFloats[k * settings.initPrecomputed.floatsPerLine +
        before.countP (·.settings.mode == .generalNumeric)]? = ((s.keyOf env settings c).floatPart)[0]? := by
    intro cs k c hc hs
    have := Blocks.getElem?_column (fun s c => floatPart_length env settings s c) before after hs hc
    rw [← hsel] at this
    exact this
  have hcount : ∀ p : FieldSelector → Bool, (before ++ [s]).countP p = if p s then before.countP p + 1
      else before.countP p := by
    intro p
    rw [List.countP_append, List.countP_singleton]
    split <;> rfl
  have hneeds := s.needsSelection_eq
  rw [compareSelectors, hcount, hcount, hcount, FieldSelector.compare]
  rcases keyOf_cases env settings s a with ⟨hnum, str, info, hkey⟩ | ⟨hgen, parsed, hkey⟩ | ⟨hnum, hgen, str, hkey⟩
  · have hgen : s.settings.mode ≠ .generalNumeric := fun hg => by
      rw [hg] at hnum
      cases hnum
    have hneeds : s.needsSelection = true := by
      simp only [SortMode.isNumeric, Bool.or_eq_true, beq_iff_eq] at hnum
      simp [hneeds, hnum, hgen]
    obtain ⟨-, str', info', hkey'⟩ | ⟨hg, -⟩ | ⟨hn, -⟩ := keyOf_cases env settings s b
    · have hstra := hstr ha hneeds
      have hstrb := hstr hb hneeds
      have hinfoa := hinfo ha hnum
      have hinfob := hinfo hb hnum
      rw [hkey] at hstra hinfoa
      rw [hkey'] at hstrb hinfob
      simp only [hneeds, if_true, hstra, hstrb, hinfoa, hinfob, hnum, hkey, hkey', Selection.strPart,
        Selection.infoPart, List.getElem?_cons_zero, Option.bind_eq_bind, Option.bind_some, compareKeys,
        beq_false_of_ne hgen, Bool.false_eq_true, if_false]
    · exact absurd hg hgen
    · rw [hnum] at hn
      cases hn
  · have hneeds : s.needsSelection = false := by simp [hneeds, hgen]
    have hnum : s.settings.mode.isNumeric = false := by rw [hgen]; rfl
    obtain ⟨hn, -⟩ | ⟨-, parsed', hkey'⟩ | ⟨-, hg, -⟩ := keyOf_cases env settings s b
    · rw [hnum] at hn
      cases hn
    · have hfloata := hfloat ha (beq_iff_eq.2 hgen)
      have hfloatb := hfloat hb (beq_iff_eq.2 hgen)
      rw [hkey] at hfloata
      rw [hkey'] at hfloatb
      simp only [hneeds, Bool.false_eq_true, if_false, hfloata, hfloatb, hgen, if_true, hkey, hkey',
        show SortMode.generalNumeric.isNumeric = false from rfl, Selection.floatPart, List.getElem?_cons_zero, Option.bind_eq_bind, Option.bind_some, compareKeys,
        beq_self_eq_true]
    · exact absurd hgen hg
  · obtain ⟨hn, -⟩ | ⟨hg, -⟩ | ⟨-, -, str', hkey'⟩ := keyOf_cases env settings s b
    · rw [hnum] at hn
      cases hn
    · exact absurd hg hgen
    · cases hs : s.needsSelection with
      | true =>
        have hstra := hstr ha hs
        have hstrb := hstr hb hs
        rw [hkey, hs] at hstra
        rw [hkey', hs] at hstrb
        simp only [if_true, hstra, hstrb, hnum, hgen, hkey, hkey', Selection.strPart, List.getElem?_cons_zero,
          Bool.false_eq_true, if_false, Option.bind_eq_bind, Option.bind_some, compareKeys, beq_false_of_ne hgen]
      | false =>
        have hwhole := keyOf_whole env settings hs hgen a
        have hwhole' := keyOf_whole env settings hs hgen b
        simp only [hwhole, hwhole', hnum, hgen, Bool.false_eq_true, if_false, Option.bind_eq_bind, Option.bind_some,
          compareKeys, beq_false_of_ne hgen]

/-- The loop finds the first key that differs. -/
theorem compareSelectors_eq (before after : List FieldSelector) (hsel : settings.selectors = before ++ after)
    (ha : as[i]? = some a) (hb : bs[j]? = some b) :
    compareSelectors env settings (tables env settings as) (tables env settings bs) ⟨a, i⟩ ⟨b, j⟩ after
      (before.countP (·.needsSelection)) (before.countP (·.settings.mode.isNumeric))
      (before.countP (·.settings.mode == .generalNumeric)) =
    some ((after.find? fun s => s.compare env settings a b ≠ .eq).map fun s =>
      reverseIf s.settings.reverse (s.compare env settings a b)) := by
  induction after generalizing before with
  | nil => rfl
  | cons s after ih =>
    rw [compareSelectors_cons env settings hsel ha hb, ih (before ++ [s]) (by rw [hsel]; simp), List.find?_cons]
    by_cases hs : s.compare env settings a b = .eq
    · simp [hs]
    · simp [hs]

end

end Peiosutils.Sort.Key
