import Mathlib.Order.Monotone.Basic
import Peiosutils.Sort.Tables

/-!
# The shortcuts of `compare_by`

`plainCompare` compares two lines key by key. `compareBy` does the same unless one of its three shortcuts goes wrong
(`compareBy_eq_plain_iff`): two of them reverse by the global flag and never by that of the key, and the third compares
the lines as numbers whatever the keys are. Where the first key is the number that the line is, this is right
(`keysOrderAs_iff`).
-/

set_option autoImplicit false

namespace Peiosutils.Sort.Key

open Ascii

section

variable {F G : Type} (env : Externals F G) (settings : GlobalSettings)

/-- The first key by which the lines differ. -/
def firstDifferent (a b : List UInt8) : Option FieldSelector :=
  settings.selectors.find? fun s => s.compare env settings a b ≠ .eq

/-- The lines by the first key that differs, or else by their bytes. -/
def plainCompare (a b : List UInt8) : Ordering :=
  match firstDifferent env settings a b with
  | some s => reverseIf s.settings.reverse (s.compare env settings a b)
  | none => reverseIf settings.reverse (if settings.stable ∨ settings.unique then .eq else compare a b)

/-- The modes whose comparisons are modelled. -/
def SortMode.Modelled (mode : SortMode) : Prop :=
  mode = .default ∨ mode = .numeric ∨ mode = .humanNumeric ∨ mode = .version

/-- The first key that differs, or else the bytes, order the lines like `ord` before the global flag reverses it. -/
def KeysOrderAs (a b : List UInt8) (ord : Ordering) : Prop :=
  match firstDifferent env settings a b with
  | some s => s.compare env settings a b = if s.settings.reverse = settings.reverse then ord else ord.swap
  | none => settings.stable = false ∧ settings.unique = false ∧ compare a b = ord

/-- No shortcut goes wrong. -/
structure Fits [LinearOrder F] (a b : List UInt8) : Prop where
  lexicographic : settings.canUseFastLexicographic = true → a ≠ b →
    ∀ s ∈ settings.selectors, s.settings.reverse = settings.reverse
  insensitive : settings.canUseFastAsciiInsensitive = true → asciiCaseInsensitiveCmp a b ≠ .eq →
    ∀ s ∈ settings.selectors, s.settings.reverse = settings.reverse
  floats : settings.mode = .numeric → ∀ x y, lineNumFloat env a = some x → lineNumFloat env b = some y → x ≠ y →
    KeysOrderAs env settings a b (compare x y)

/-! ## Reversing -/

theorem reverseIf_eq (r : Bool) : reverseIf r .eq = .eq := by
  cases r <;> rfl

theorem reverseIf_inj {r r' : Bool} {ord : Ordering} (h : ord ≠ .eq) :
    reverseIf r ord = reverseIf r' ord ↔ r' = r := by
  cases ord <;> cases r <;> cases r' <;> simp [reverseIf] at h ⊢

theorem reverseIf_eq_iff {r r' : Bool} {ord ord' : Ordering} :
    reverseIf r ord = reverseIf r' ord' ↔ ord' = if r' = r then ord else ord.swap := by
  cases ord <;> cases ord' <;> cases r <;> cases r' <;> decide

/-! ## Equal lines -/

theorem numericStrCmp_self (a : List UInt8) (info : NumInfo) : numericStrCmp a info a info = .eq := by
  have hwalk : ∀ ds : List UInt8, walkDigits ds ds = .eq := by
    intro ds
    induction ds with
    | nil => rfl
    | cons d ds ih => rw [walkDigits, Std.ReflOrd.compare_self, ih]
  unfold numericStrCmp
  rw [if_neg (not_not.2 rfl)]
  simp only [ne_eq, not_true, false_and, if_false, hwalk, Ordering.swap_eq, ite_self]

theorem humanNumericStrCmp_self (a : List UInt8) (info : NumInfo) : humanNumericStrCmp a info a info = .eq := by
  unfold humanNumericStrCmp
  rw [if_neg (not_not.2 rfl)]
  simp only [Std.ReflOrd.compare_self, if_true, numericStrCmp_self]

/-- A key of a line is equal to itself. -/
theorem compare_self_key {s : FieldSelector} (hmode : s.settings.mode.Modelled) (a : List UInt8) :
    s.compare env settings a a = .eq := by
  unfold FieldSelector.compare
  rcases keyOf_cases env settings s a with ⟨-, str, info, h⟩ | ⟨hgen, -⟩ | ⟨-, -, str, h⟩
  · rw [h, compareKeys]
    split
    · exact numericStrCmp_self _ _
    · exact humanNumericStrCmp_self _ _
  · rw [hgen] at hmode
    simp [SortMode.Modelled] at hmode
  · rw [h, compareKeys, compareStr]
    rcases hmode with hm | hm | hm | hm <;> simp only [hm, customStrCmp_self, versionCmp_self]

theorem firstDifferent_self (hkeys : ∀ s ∈ settings.selectors, s.settings.mode.Modelled) (a : List UInt8) :
    firstDifferent env settings a a = none := by
  refine List.find?_eq_none.2 fun s hs => ?_
  rw [compare_self_key env settings (hkeys s hs)]
  decide

theorem plainCompare_self (hkeys : ∀ s ∈ settings.selectors, s.settings.mode.Modelled) (a : List UInt8) :
    plainCompare env settings a a = .eq := by
  rw [plainCompare, firstDifferent_self env settings hkeys]
  simp only [Std.ReflOrd.compare_self, ite_self, reverseIf_eq]

/-! ## The two shortcuts on bytes -/

/-- A key without options is the whole line, by its bytes. -/
theorem compare_plain {s : FieldSelector} {ignoreCase : Bool} (h : s.plain ignoreCase = true) (a b : List UInt8) :
    s.compare env settings a b = customStrCmp a b false false ignoreCase := by
  simp only [FieldSelector.plain, Bool.and_eq_true, Bool.not_eq_true', beq_iff_eq] at h
  obtain ⟨⟨⟨⟨⟨hsel, hmode⟩, hcase⟩, hdict⟩, hprint⟩, -⟩ := h
  have hgen : s.settings.mode ≠ .generalNumeric := by simp [hmode]
  rw [FieldSelector.compare, keyOf_whole env settings hsel hgen, keyOf_whole env settings hsel hgen, compareKeys,
    compareStr, hmode, hcase, hdict, hprint]

/-- With one such key a shortcut on the bytes is right where the flags agree. -/
theorem shortcut_iff {s : FieldSelector} {ignoreCase : Bool} {a b : List UInt8} (hsel : settings.selectors = [s])
    (hs : s.plain ignoreCase = true) (hne : customStrCmp a b false false ignoreCase ≠ .eq) :
    reverseIf settings.reverse (customStrCmp a b false false ignoreCase) = plainCompare env settings a b ↔
      s.settings.reverse = settings.reverse := by
  have hfirst : firstDifferent env settings a b = some s := by
    rw [firstDifferent, hsel, List.find?_cons, compare_plain env settings hs]
    simp [hne]
  rw [plainCompare, hfirst]
  simp only [compare_plain env settings hs]
  exact reverseIf_inj hne

theorem selectors_of_fastLexicographic (h : settings.canUseFastLexicographic = true) :
    settings.mode = .default ∧ settings.ignoreCase = false ∧
      ∃ s, settings.selectors = [s] ∧ s.plain false = true := by
  simp only [GlobalSettings.canUseFastLexicographic, Bool.and_eq_true, Bool.not_eq_true', beq_iff_eq] at h
  obtain ⟨⟨⟨⟨⟨hmode, hcase⟩, -⟩, -⟩, -⟩, hkeys⟩ := h
  refine ⟨hmode, hcase, ?_⟩
  split at hkeys
  · exact ⟨_, ‹_›, hkeys⟩
  · cases hkeys

theorem selectors_of_fastAsciiInsensitive (h : settings.canUseFastAsciiInsensitive = true) :
    settings.mode = .default ∧ settings.ignoreCase = true ∧
      ∃ s, settings.selectors = [s] ∧ s.plain true = true := by
  simp only [GlobalSettings.canUseFastAsciiInsensitive, Bool.and_eq_true, Bool.not_eq_true', beq_iff_eq] at h
  obtain ⟨⟨⟨⟨⟨hmode, hcase⟩, -⟩, -⟩, -⟩, hkeys⟩ := h
  refine ⟨hmode, hcase, ?_⟩
  split at hkeys
  · exact ⟨_, ‹_›, hkeys⟩
  · cases hkeys

/-! ## The comparison -/

variable [LinearOrder F] {as bs : List (List UInt8)} {i j : Nat} {a b : List UInt8}

/-- The third shortcut looks at the lines only. -/
theorem compareFloats_eq (ha : as[i]? = some a) (hb : bs[j]? = some b) :
    compareFloats settings (tables env settings as) (tables env settings bs) ⟨a, i⟩ ⟨b, j⟩ =
      if settings.mode = .numeric then
        match lineNumFloat env a, lineNumFloat env b with
        | some x, some y =>
          if compare x y ≠ .eq ∨ a = b then some (reverseIf settings.reverse (compare x y)) else none
        | _, _ => none
      else none := by
  unfold compareFloats tables
  split_ifs with hmode
  · simp only [List.getElem?_map, ha, hb, Option.map_some]
    cases lineNumFloat env a <;> cases lineNumFloat env b <;> rfl
  · simp

omit [LinearOrder F] in
/-- Without a shortcut the lines are compared key by key. -/
theorem compareSelectors_plain (hmode : settings.mode ≠ .random) (ha : as[i]? = some a) (hb : bs[j]? = some b) :
    ((compareSelectors env settings (tables env settings as) (tables env settings bs) ⟨a, i⟩ ⟨b, j⟩
      settings.selectors 0 0 0).map fun ord => ord.getD (lastResort settings a b)) =
      some (plainCompare env settings a b) := by
  have h := compareSelectors_eq env settings [] settings.selectors rfl ha hb
  simp only [List.countP_nil] at h
  rw [h, Option.map_some, plainCompare, firstDifferent]
  cases settings.selectors.find? fun s => s.compare env settings a b ≠ .eq with
  | none => simp only [Option.map_none, Option.getD_none, lastResort, hmode, false_or]
  | some s => rfl

/-- The numbers order the lines as the keys do. -/
theorem floats_iff {x y : F} (hxy : x ≠ y) :
    reverseIf settings.reverse (compare x y) = plainCompare env settings a b ↔
      KeysOrderAs env settings a b (compare x y) := by
  have hne : compare x y ≠ .eq := fun h => hxy (compare_eq_iff_eq.1 h)
  unfold plainCompare KeysOrderAs
  cases firstDifferent env settings a b with
  | some s => exact reverseIf_eq_iff
  | none =>
    simp only
    rw [reverseIf_eq_iff, if_pos rfl]
    by_cases hlast : settings.stable = true ∨ settings.unique = true
    · rw [if_pos hlast]
      constructor
      · exact fun h => absurd h.symm hne
      · rintro ⟨hs, hu, -⟩
        simp [hs, hu] at hlast
    · rw [if_neg hlast]
      rw [not_or, Bool.not_eq_true, Bool.not_eq_true] at hlast
      simp [hlast]

/-- With a single key and the default mode only the shortcuts on bytes can go wrong. -/
theorem fits_of_single {s : FieldSelector} (hmode : settings.mode = .default) (hsel : settings.selectors = [s]) :
    Fits env settings a b ↔
      (settings.canUseFastLexicographic = true → a ≠ b → s.settings.reverse = settings.reverse) ∧
      (settings.canUseFastAsciiInsensitive = true → asciiCaseInsensitiveCmp a b ≠ .eq →
        s.settings.reverse = settings.reverse) := by
  have hmem : s ∈ settings.selectors := by
    rw [hsel]
    exact List.mem_singleton_self s
  constructor
  · exact fun h => ⟨fun hlex hab => h.lexicographic hlex hab s hmem, fun hfold hab => h.insensitive hfold hab s hmem⟩
  · rintro ⟨hlex, hfold⟩
    refine ⟨fun h hab s' hs' => ?_, fun h hab s' hs' => ?_, fun h => ?_⟩
    · rw [hsel, List.mem_singleton] at hs'
      rw [hs']
      exact hlex h hab
    · rw [hsel, List.mem_singleton] at hs'
      rw [hs']
      exact hfold h hab
    · rw [hmode] at h
      cases h

theorem compareBy_lexicographic_iff (hkeys : ∀ s ∈ settings.selectors, s.settings.mode.Modelled)
    (hlex : settings.canUseFastLexicographic = true) (aData bData : LineData F G) :
    compareBy env settings aData bData ⟨a, i⟩ ⟨b, j⟩ = some (plainCompare env settings a b) ↔
      Fits env settings a b := by
  obtain ⟨hmode, hcase, s, hsel, hs⟩ := selectors_of_fastLexicographic settings hlex
  have hfold : settings.canUseFastAsciiInsensitive = false := by
    simp [GlobalSettings.canUseFastAsciiInsensitive, hcase]
  have hfast : compareBy env settings aData bData ⟨a, i⟩ ⟨b, j⟩ = some (reverseIf settings.reverse (compare a b)) :=
    if_pos hlex
  rw [hfast, Option.some_inj, fits_of_single env settings hmode hsel, hlex, hfold]
  by_cases hab : a = b
  · subst hab
    simp [plainCompare_self env settings hkeys, Std.ReflOrd.compare_self, reverseIf_eq]
  · have hcustom : customStrCmp a b false false false = compare a b := rfl
    have hne : compare a b ≠ .eq := fun h => hab (Std.LawfulEqOrd.eq_of_compare h)
    rw [← hcustom] at hne ⊢
    rw [shortcut_iff env settings hsel hs hne]
    simp [hab]

theorem compareBy_insensitive_iff (hkeys : ∀ s ∈ settings.selectors, s.settings.mode.Modelled)
    (hfold : settings.canUseFastAsciiInsensitive = true) (ha : as[i]? = some a) (hb : bs[j]? = some b) :
    compareBy env settings (tables env settings as) (tables env settings bs) ⟨a, i⟩ ⟨b, j⟩ =
      some (plainCompare env settings a b) ↔ Fits env settings a b := by
  obtain ⟨hmode, hcase, s, hsel, hs⟩ := selectors_of_fastAsciiInsensitive settings hfold
  have hlex : settings.canUseFastLexicographic = false := by
    simp [GlobalSettings.canUseFastLexicographic, hcase]
  rw [fits_of_single env settings hmode hsel, hlex, hfold]
  simp only [compareBy, show settings.initPrecomputed.fastLexicographic = false from hlex,
    show settings.initPrecomputed.fastAsciiInsensitive = true from hfold, Bool.false_eq_true, if_false, true_and]
  by_cases hne : asciiCaseInsensitiveCmp a b = .eq
  · by_cases hab : a = b
    · subst hab
      rw [if_pos (Or.inr rfl), plainCompare_self env settings hkeys, hne, reverseIf_eq]
      simp
    · have hnone : settings.mode ≠ .numeric := by simp [hmode]
      rw [if_neg (not_or.2 ⟨not_not.2 hne, hab⟩), compareFloats_eq env settings ha hb, if_neg hnone]
      simp only [compareSelectors_plain env settings (show settings.mode ≠ .random by simp [hmode]) ha hb, hne]
      simp
  · rw [if_pos (Or.inl hne), Option.some_inj, asciiCaseInsensitiveCmp_eq]
    rw [asciiCaseInsensitiveCmp_eq] at hne
    rw [shortcut_iff env settings hsel hs hne]
    simp [hne]

theorem compareBy_floats_iff (hmode : settings.mode ≠ .random)
    (hkeys : ∀ s ∈ settings.selectors, s.settings.mode.Modelled) (hlex : settings.canUseFastLexicographic = false)
    (hfold : settings.canUseFastAsciiInsensitive = false) (ha : as[i]? = some a) (hb : bs[j]? = some b) :
    compareBy env settings (tables env settings as) (tables env settings bs) ⟨a, i⟩ ⟨b, j⟩ =
      some (plainCompare env settings a b) ↔ Fits env settings a b := by
  have hfits : Fits env settings a b ↔ (settings.mode = .numeric → ∀ x y, lineNumFloat env a = some x →
      lineNumFloat env b = some y → x ≠ y → KeysOrderAs env settings a b (compare x y)) := by
    refine ⟨Fits.floats, fun h => ⟨fun h' => ?_, fun h' => ?_, h⟩⟩
    · rw [hlex] at h'
      cases h'
    · rw [hfold] at h'
      cases h'
  rw [hfits]
  simp only [compareBy, show settings.initPrecomputed.fastLexicographic = false from hlex,
    show settings.initPrecomputed.fastAsciiInsensitive = false from hfold, Bool.false_eq_true, if_false, false_and,
    compareFloats_eq env settings ha hb, compareSelectors_plain env settings hmode ha hb]
  by_cases hnum : settings.mode = .numeric
  · rw [if_pos hnum]
    cases hx : lineNumFloat env a with
    | none => simp
    | some x =>
      cases hy : lineNumFloat env b with
      | none => simp
      | some y =>
        by_cases hxy : x = y
        · subst hxy
          by_cases hab : a = b
          · subst hab
            simp [plainCompare_self env settings hkeys, Std.ReflOrd.compare_self, reverseIf_eq]
          · simp [hab, Std.ReflOrd.compare_self]
        · have hne : compare x y ≠ .eq := fun h => hxy (compare_eq_iff_eq.1 h)
          simp only [hne, ne_eq, not_false_iff, true_or, if_true, Option.some_inj, floats_iff env settings hxy, hnum,
            forall_const]
          constructor
          · rintro h _ _ rfl rfl _
            exact h
          · exact fun h => h x y rfl rfl hxy
  · rw [if_neg hnum]
    simp [hnum]

/-- The shortcuts are right where the lines fit, and only there. -/
theorem compareBy_eq_plain_iff (hmode : settings.mode ≠ .random)
    (hkeys : ∀ s ∈ settings.selectors, s.settings.mode.Modelled) (ha : as[i]? = some a) (hb : bs[j]? = some b) :
    compareBy env settings (tables env settings as) (tables env settings bs) ⟨a, i⟩ ⟨b, j⟩ =
      some (plainCompare env settings a b) ↔ Fits env settings a b := by
  by_cases hlex : settings.canUseFastLexicographic = true
  · exact compareBy_lexicographic_iff env settings hkeys hlex _ _
  · by_cases hfold : settings.canUseFastAsciiInsensitive = true
    · exact compareBy_insensitive_iff env settings hkeys hfold ha hb
    · exact compareBy_floats_iff env settings hmode hkeys (Bool.eq_false_iff.2 hlex) (Bool.eq_false_iff.2 hfold) ha hb

/-! ## Lines that are numbers -/

/-- The key is the number that the whole line is: the locale writes it as `f64` does, and it has no plus sign. -/
structure FieldSelector.ReadsLine (s : FieldSelector) (line : List UInt8) : Prop where
  field : s.fromPos.field = 1
  char : s.fromPos.char = 1
  toPos : s.toPos = none
  mode : s.settings.mode.isNumeric = true
  point : settings.numericLocale.decimalPt = some 46
  thousands : ∀ c ∈ line, settings.numericLocale.thousandsSep ≠ some c
  plus : line.head? ≠ some 43

omit [LinearOrder F] in
/-- Such a key is described by the number. -/
theorem keyOf_number {s : FieldSelector} {line : List UInt8} {value : ℚ} (hreads : s.ReadsLine settings line)
    (hvalue : parseDecimal line = some value) :
    ∃ str info, s.keyOf env settings line = .withNumInfo str info ∧ Describes value str info := by
  have hblank : ∀ c ∈ line.head?, isWhitespace c = false := by
    intro c hc
    by_contra hspace
    obtain ⟨rest, rfl⟩ : ∃ rest, line = c :: rest := by
      cases line with
      | nil => cases hc
      | cons d rest =>
        cases hc
        exact ⟨rest, rfl⟩
    have hsplit : splitSign (c :: rest) = (false, c :: rest) := by
      unfold splitSign
      split
      · rename_i h
        cases h
        exact absurd (by decide) hspace
      · rename_i h
        cases h
        exact absurd (by decide) hspace
      · rfl
    have hplain : isPlain (c :: rest) = true := by
      simp only [parseDecimal, hsplit] at hvalue
      split at hvalue
      · assumption
      · cases hvalue
    simp only [isPlain, Bool.and_eq_true, List.all_cons, Bool.or_eq_true, beq_iff_eq] at hplain
    rw [Bool.not_eq_false] at hspace
    simp only [isWhitespace, Bool.or_eq_true, beq_iff_eq] at hspace
    rcases hspace with (((rfl | rfl) | rfl) | rfl) | rfl <;> simp [isDigit] at hplain
  have hkey := getSelection_eq env settings s line
  rw [FieldSelector.getSelection, getRange_whole hreads.field hreads.char hreads.toPos fun _ => hblank] at hkey
  simp only [Option.map_some, slice_whole, Selection.ofRange, hreads.mode, if_true] at hkey
  obtain ⟨info, start, finish, hparse, hdesc⟩ :=
    @describes_line (settings.numericLocale.numInfoSettings (s.settings.mode == .humanNumeric)) line value hvalue
      hreads.plus ⟨hreads.point, hreads.thousands⟩
  rw [hparse] at hkey
  exact ⟨_, _, (Option.some.inj hkey).symm, hdesc⟩

/-- A first key that is the number orders the lines as `f64` does, so the shortcut is right where its flag is the global
one. -/
theorem keysOrderAs_iff (hround : Monotone env.roundF64) {s : FieldSelector} {rest : List FieldSelector}
    (hsel : settings.selectors = s :: rest) (hreadsa : s.ReadsLine settings a) (hreadsb : s.ReadsLine settings b)
    {x y : F} (hx : lineNumFloat env a = some x) (hy : lineNumFloat env b = some y) (hxy : x ≠ y) :
    KeysOrderAs env settings a b (compare x y) ↔ s.settings.reverse = settings.reverse := by
  have hexact : ∀ {line : List UInt8} {z : F}, lineNumFloat env line = some z →
      ∃ value, parseDecimal line = some value ∧ env.roundF64 value = z := by
    intro line z h
    unfold lineNumFloat at h
    split at h
    · cases h
    · exact Option.map_eq_some_iff.1 h
  obtain ⟨p, hp, rfl⟩ := hexact hx
  obtain ⟨q, hq, rfl⟩ := hexact hy
  obtain ⟨str, info, hkeya, hdesca⟩ := keyOf_number env settings hreadsa hp
  obtain ⟨str', info', hkeyb, hdescb⟩ := keyOf_number env settings hreadsb hq
  have hcompare : s.compare env settings a b = compare (env.roundF64 p) (env.roundF64 q) := by
    have hexact : s.compare env settings a b = compare p q := by
      rw [FieldSelector.compare, hkeya, hkeyb, compareKeys]
      split
      · exact hdesca.numericStrCmp hdescb
      · exact hdesca.humanNumericStrCmp hdescb
    rw [hexact]
    rcases lt_trichotomy p q with h | rfl | h
    · rw [compare_lt_iff_lt.2 h, eq_comm, compare_lt_iff_lt]
      exact lt_of_le_of_ne (hround (le_of_lt h)) hxy
    · exact absurd rfl hxy
    · rw [compare_gt_iff_gt.2 h, eq_comm, compare_gt_iff_gt]
      exact lt_of_le_of_ne (hround (le_of_lt h)) (Ne.symm hxy)
  have hne : compare (env.roundF64 p) (env.roundF64 q) ≠ .eq := fun h => hxy (compare_eq_iff_eq.1 h)
  have hfirst : firstDifferent env settings a b = some s := by
    rw [firstDifferent, hsel, List.find?_cons, hcompare]
    simp [hne]
  unfold KeysOrderAs
  rw [hfirst]
  show s.compare env settings a b = _ ↔ _
  rw [hcompare]
  split
  · rename_i h
    simp [h]
  · rename_i h
    constructor
    · intro hswap
      generalize compare (env.roundF64 p) (env.roundF64 q) = ord at hswap hne
      cases ord <;> simp at hswap hne
    · exact fun h' => absurd h' h

/-! ## The lines of two chunks -/

end

/-- No flags, in the C locale. -/
def GlobalSettings.default : GlobalSettings where
  mode := .default
  ignoreLeadingBlanks := false
  ignoreCase := false
  dictionaryOrder := false
  ignoreNonPrinting := false
  reverse := false
  stable := false
  unique := false
  selectors := []
  separator := none
  numericLocale := ⟨none, some 46⟩

/-- Numbers that `f64` holds exactly. -/
def exact : Externals ℚ Unit := ⟨id, fun _ => (), fun _ _ => .eq, fun _ _ => .eq, fun _ _ => .eq⟩

end Peiosutils.Sort.Key
