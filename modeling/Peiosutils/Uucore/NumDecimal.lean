import Peiosutils.Uucore.NumGrammar

/-!
# The texts of decimal numbers

A plain scanner of decimal numbers (`scanner_decimal`), and scanners of texts behind whitespace and a sign
(`scanner_text`).
-/

set_option autoImplicit false

namespace Peiosutils.NumParser

open Scanning (Scanner)

/-! ## Signs -/

theorem exponentSign_eq (s : Str) : exponentSign s = splitSign s := by
  unfold exponentSign splitSign
  rfl

theorem sign_splitSign (s : Str) : ∃ sign, Sign sign (splitSign s).1 ∧ s = sign ++ (splitSign s).2 := by
  unfold splitSign
  split
  next => exact ⟨['-'], .minus, rfl⟩
  next => exact ⟨['+'], .plus, rfl⟩
  next => exact ⟨[], .none, rfl⟩

theorem splitSign_append {sign : Str} {negative : Bool} (h : Sign sign negative) {c : Char} (hc : 46 ≤ c.toNat)
    (s : Str) : splitSign (sign ++ c :: s) = (negative, c :: s) := by
  cases h with
  | plus => rfl
  | minus => rfl
  | none =>
    show splitSign (c :: s) = _
    unfold splitSign
    split
    next heq =>
      cases heq
      exact absurd hc (by decide)
    next heq =>
      cases heq
      exact absurd hc (by decide)
    next => rfl

theorem toNat_of_digit {radix : Nat} {c : Char} (h : Radix.isDigit radix c = true) : 46 ≤ c.toNat := by
  obtain ⟨d, hd⟩ := Option.isSome_iff_exists.1 h
  simp only [Radix.digit, Option.ite_none_right_eq_some] at hd
  split_ifs at hd <;> omega

theorem toNat_of_decimal {c : Char} (h : Radix.isDigit 10 c = true) : c.toNat ≤ 57 := by
  obtain ⟨d, hd⟩ := Option.isSome_iff_exists.1 h
  simp only [Radix.digit, Option.ite_none_right_eq_some] at hd
  split_ifs at hd <;> omega

theorem exponentSign_digits {sign es : Str} {negative : Bool} {n : Nat} (hsign : Sign sign negative)
    (h : Digits 10 es n) (rest : Str) : exponentSign (sign ++ (es ++ rest)) = (negative, es ++ rest) := by
  cases es with
  | nil => exact absurd rfl h.1
  | cons c es =>
    rw [exponentSign_eq]
    exact splitSign_append hsign (toNat_of_digit (all_digits h.2 c List.mem_cons_self)) _

/-! ## Fraction and exponent -/

/-- The digits of a fraction, and what is behind it. -/
def fractionOf : Str → Str × Str
  | '.' :: s => (s.takeWhile (Radix.isDigit 10), s.dropWhile (Radix.isDigit 10))
  | s => ([], s)

theorem fraction_fractionOf (s : Str) :
    ∃ fraction, Fraction fraction (fractionOf s).1 ∧ s = fraction ++ (fractionOf s).2 ∧
      ∀ c ∈ (fractionOf s).1, Radix.isDigit 10 c = true := by
  unfold fractionOf
  split
  next s =>
    refine ⟨'.' :: s.takeWhile (Radix.isDigit 10), .present _, ?_, fun c hc => List.mem_takeWhile_imp hc⟩
    exact congrArg ('.' :: ·) List.takeWhile_append_dropWhile.symm
  next => exact ⟨[], .absent, rfl, fun c hc => by cases hc⟩

def exponentOf (s : Str) : Int × Str :=
  match s with
  | [] => (0, s)
  | c :: rest =>
    if c ∈ ['e', 'E'] then
      match scanDigits 10 (exponentSign rest).2 with
      | some (n, rest') => (if (exponentSign rest).1 then -(n : Int) else n, rest')
      | none => (0, s)
    else (0, s)

theorem exponentOf_mark {c : Char} (hc : c = 'e' ∨ c = 'E') {rest digits : Str} {negative : Bool}
    (hsign : exponentSign rest = (negative, digits)) :
    exponentOf (c :: rest) = ((scanDigits 10 digits).map fun r => (if negative then -(r.1 : Int) else r.1, r.2)).getD
      (0, c :: rest) := by
  have hmem : c ∈ ['e', 'E'] := by simpa using hc
  show (if c ∈ ['e', 'E'] then _ else _) = _
  rw [if_pos hmem, hsign]
  cases scanDigits 10 digits <;> rfl

theorem exponentOf_no_mark {s : Str} (h : ∀ c ∈ s.head?, c ≠ 'e' ∧ c ≠ 'E') : exponentOf s = (0, s) := by
  cases s with
  | nil => rfl
  | cons c rest =>
    have hmem : c ∉ ['e', 'E'] := by simpa using h c rfl
    exact if_neg hmem

theorem exponent_exponentOf (s : Str) :
    ∃ exponent, Exponent exponent (exponentOf s).1 ∧ s = exponent ++ (exponentOf s).2 := by
  cases s with
  | nil => exact ⟨[], .absent, rfl⟩
  | cons c rest =>
    by_cases hc : c = 'e' ∨ c = 'E'
    · obtain ⟨sign, hsign, hrest⟩ := sign_splitSign rest
      rw [← exponentSign_eq] at hsign hrest
      have hsplit : exponentSign rest = ((exponentSign rest).1, (exponentSign rest).2) := rfl
      rw [exponentOf_mark hc hsplit]
      cases hscan : scanDigits 10 (exponentSign rest).2 with
      | none => exact ⟨[], .absent, rfl⟩
      | some r =>
        obtain ⟨es, hes, hdigits⟩ := (scanner_digits 10).sound _ r.1 r.2 hscan
        refine ⟨c :: (sign ++ es), .present hc hsign hdigits, ?_⟩
        rw [List.cons_append, List.append_assoc]
        exact congrArg (c :: ·) (hrest.trans (congrArg (sign ++ ·) hes))
    · rw [exponentOf_no_mark fun c' hc' => by
        cases hc'
        exact not_or.1 hc]
      exact ⟨[], .absent, rfl⟩

theorem length_exponentOf_le (s : Str) : (exponentOf s).2.length ≤ s.length := by
  obtain ⟨exponent, -, hs⟩ := exponent_exponentOf s
  have hlen := congrArg List.length hs
  rw [List.length_append] at hlen
  omega

theorem length_fractionOf_le (s : Str) : (fractionOf s).2.length ≤ s.length := by
  obtain ⟨fraction, -, hs, -⟩ := fraction_fractionOf s
  have hlen := congrArg List.length hs
  rw [List.length_append] at hlen
  omega

theorem exponentOf_complete {exponent : Str} {e : Int} (h : Exponent exponent e) : exponentOf exponent = (e, []) := by
  cases h with
  | absent => rfl
  | present he hsign hdigits =>
    have hread := exponentSign_digits hsign hdigits []
    rw [List.append_nil] at hread
    rw [exponentOf_mark he hread, (scanner_digits 10).complete _ _ hdigits]
    rfl

/-- A mark is neither a digit nor a point. -/
theorem mark_spec {e : Char} (he : e = 'e' ∨ e = 'E') : Radix.isDigit 10 e = false ∧ e ≠ '.' := by
  rcases he with rfl | rfl <;> exact ⟨rfl, by decide⟩

theorem fractionOf_of_ne {c : Char} (hc : c ≠ '.') (s : Str) : fractionOf (c :: s) = ([], c :: s) := by
  unfold fractionOf
  split
  next heq =>
    cases heq
    exact absurd rfl hc
  next => rfl

/-- Behind the digits in front of an exponent no more than what is behind the exponent is left. -/
theorem length_behind_le {exponent : Str} {e : Int} (h : Exponent exponent e) (rest : Str) :
    let s := (exponent ++ rest).dropWhile (Radix.isDigit 10)
    (exponentOf s).2.length ≤ rest.length ∧ (exponentOf (fractionOf s).2).2.length ≤ rest.length := by
  cases h with
  | absent =>
    have hdrop : (([] ++ rest).dropWhile (Radix.isDigit 10)).length ≤ rest.length := Scanning.length_dropWhile_le _ _
    exact ⟨(length_exponentOf_le _).trans hdrop,
      (length_exponentOf_le _).trans ((length_fractionOf_le _).trans hdrop)⟩
  | @present mark sign es negative n he hsign hdigits =>
    obtain ⟨hdigit, hpoint⟩ := mark_spec he
    have hread : (exponentOf (mark :: (sign ++ es) ++ rest)).2.length ≤ rest.length := by
      obtain ⟨m, tail, hscan, hle⟩ := (scanner_digits 10).greedy _ n rest hdigits
      rw [List.cons_append, List.append_assoc, exponentOf_mark he (exponentSign_digits hsign hdigits rest), hscan]
      exact hle
    rw [List.cons_append] at hread ⊢
    have hdrop := List.dropWhile_cons_of_neg (l := sign ++ es ++ rest) (show ¬ Radix.isDigit 10 mark = true by simp [hdigit])
    simp only [hdrop, fractionOf_of_ne hpoint]
    exact ⟨hread, hread⟩

/-! ## Special values -/

/-- The names of special values, a longer one before its beginning. -/
def specialNames : List (Str × Decimal) :=
  [("infinity".toList, .infinity), ("inf".toList, .infinity), ("nan".toList, .nan)]

def specialOf (s : Str) : Option (Decimal × Str) :=
  (specialNames.find? fun entry => entry.1.isPrefixOf (s.map Char.toLower)).map fun entry =>
    (entry.2, s.drop entry.1.length)

theorem decimalBody_special {entry : Str × Decimal} (hentry : entry ∈ specialNames) {s : Str}
    (hs : s.map Char.toLower = entry.1) : DecimalBody s entry.2 := by
  simp only [specialNames, List.mem_cons, List.not_mem_nil, or_false] at hentry
  rcases hentry with rfl | rfl | rfl
  · exact .infinity (.inl hs)
  · exact .infinity (.inr hs)
  · exact .nan hs

theorem specialOf_sound {s rest : Str} {v : Decimal} (h : specialOf s = some (v, rest)) :
    ∃ pre, s = pre ++ rest ∧ DecimalBody pre v := by
  obtain ⟨entry, hfind, heq⟩ := Option.map_eq_some_iff.1 h
  cases heq
  refine ⟨s.take entry.1.length, (List.take_append_drop _ s).symm, ?_⟩
  refine decimalBody_special (List.mem_of_find?_eq_some hfind) ?_
  have hmatch : entry.1.isPrefixOf (s.map Char.toLower) = true :=
    List.find?_some (p := fun entry : Str × Decimal => entry.1.isPrefixOf (s.map Char.toLower)) hfind
  have hpre := List.isPrefixOf_iff_prefix.1 hmatch
  rw [List.map_take]
  exact (List.prefix_iff_eq_take.1 hpre).symm

/-- A special value in any case. -/
def Special (s : Str) (v : Decimal) : Prop := ∃ entry ∈ specialNames, s.map Char.toLower = entry.1 ∧ entry.2 = v

theorem specialOf_greedy {pre : Str} {v : Decimal} (h : Special pre v) (rest : Str) :
    ∃ v' rest', specialOf (pre ++ rest) = some (v', rest') ∧ rest'.length ≤ rest.length := by
  obtain ⟨entry, hentry, hpre, -⟩ := h
  have hmatch : entry.1.isPrefixOf ((pre ++ rest).map Char.toLower) = true := by
    rw [List.map_append, hpre, List.isPrefixOf_iff_prefix]
    exact List.prefix_append _ _
  have hlen : pre.length = entry.1.length := by rw [← hpre, List.length_map]
  have hsome : (specialNames.find? fun entry => entry.1.isPrefixOf ((pre ++ rest).map Char.toLower)).isSome :=
    List.find?_isSome.2 ⟨entry, hentry, hmatch⟩
  obtain ⟨found, hfind⟩ := Option.isSome_iff_exists.1 hsome
  refine ⟨found.2, (pre ++ rest).drop found.1.length, by rw [specialOf, hfind]; rfl, ?_⟩
  have hle : pre.length ≤ found.1.length := by
    have hlong : ∀ entry ∈ specialNames, 3 ≤ entry.1.length := by simp [specialNames]
    have hshort := hlong found (List.mem_of_find?_eq_some hfind)
    simp only [specialNames, List.mem_cons, List.not_mem_nil, or_false] at hentry
    rcases hentry with rfl | rfl | rfl
    · have hfirst := hfind.symm.trans (List.find?_cons_of_pos (p := fun entry : Str × Decimal =>
        entry.1.isPrefixOf ((pre ++ rest).map Char.toLower)) hmatch)
      cases hfirst
      exact Nat.le_of_eq hlen
    · exact Nat.le_trans (Nat.le_of_eq hlen) hshort
    · exact Nat.le_trans (Nat.le_of_eq hlen) hshort
  rw [List.length_drop, List.length_append]
  omega

theorem specialOf_complete {pre : Str} {v : Decimal} (h : Special pre v) : specialOf pre = some (v, []) := by
  obtain ⟨entry, hentry, hpre, rfl⟩ := h
  have hlen : pre.length = entry.1.length := by rw [← hpre, List.length_map]
  rw [specialOf, hpre]
  simp only [specialNames, List.mem_cons, List.not_mem_nil, or_false] at hentry
  rcases hentry with rfl | rfl | rfl
  · exact congrArg (fun r => some (Decimal.infinity, r)) (List.drop_eq_nil_of_le (Nat.le_of_eq hlen))
  · exact congrArg (fun r => some (Decimal.infinity, r)) (List.drop_eq_nil_of_le (Nat.le_of_eq hlen))
  · exact congrArg (fun r => some (Decimal.nan, r)) (List.drop_eq_nil_of_le (Nat.le_of_eq hlen))

/-- Special values begin with a letter. -/
theorem head_special {s : Str} {v : Decimal} (h : Special s v) :
    ∃ c rest, s = c :: rest ∧ 73 ≤ c.toNat := by
  obtain ⟨entry, hentry, hs, -⟩ := h
  cases s with
  | nil =>
    have hne : ∀ entry ∈ specialNames, entry.1 ≠ [] := by simp [specialNames]
    exact absurd hs.symm (hne entry hentry)
  | cons c rest =>
    refine ⟨c, rest, rfl, ?_⟩
    have hletter : ∀ entry ∈ specialNames, ∀ c ∈ entry.1.head?, 105 ≤ c.toNat := by
      simp only [specialNames, List.forall_mem_cons]
      simp
    have hlower := hletter entry hentry c.toLower (by rw [← hs]; rfl)
    rw [Base.toNat_toLower] at hlower
    split_ifs at hlower <;> omega

/-! ## Decimal numbers -/

def scanDecimal (s : Str) : Option (Decimal × Str) :=
  let ds := s.takeWhile (Radix.isDigit 10)
  let (fs, behind) := fractionOf (s.dropWhile (Radix.isDigit 10))
  match Base.readOn 10 none (ds ++ fs) with
  | none => specialOf s
  | some n => some (.number n fs.length (exponentOf behind).1, (exponentOf behind).2)

theorem scanDecimal_eq {s ds tail fs behind : Str} (hds : s.takeWhile (Radix.isDigit 10) = ds)
    (htail : s.dropWhile (Radix.isDigit 10) = tail) (hfraction : fractionOf tail = (fs, behind)) :
    scanDecimal s = match Base.readOn 10 none (ds ++ fs) with
      | none => specialOf s
      | some n => some (.number n fs.length (exponentOf behind).1, (exponentOf behind).2) := by
  rw [scanDecimal, hds, htail, hfraction]

theorem scanDecimal_sound {s rest : Str} {v : Decimal} (h : scanDecimal s = some (v, rest)) :
    ∃ pre, s = pre ++ rest ∧ DecimalBody pre v := by
  cases hsplit : fractionOf (s.dropWhile (Radix.isDigit 10)) with | mk fs behind
  obtain ⟨fraction, hfraction, htail, -⟩ := fraction_fractionOf (s.dropWhile (Radix.isDigit 10))
  rw [hsplit] at hfraction htail
  rw [scanDecimal_eq rfl rfl hsplit] at h
  cases hread : Base.readOn 10 none (s.takeWhile (Radix.isDigit 10) ++ fs) with
  | none =>
    rw [hread] at h
    exact specialOf_sound h
  | some n =>
    rw [hread] at h
    cases h
    obtain ⟨exponent, hexponent, hbehind⟩ := exponent_exponentOf behind
    obtain ⟨hne, hvalue⟩ := readOn_none.1 hread
    refine ⟨s.takeWhile (Radix.isDigit 10) ++ fraction ++ exponent, ?_, .number ?_ hvalue hfraction hexponent⟩
    · rw [List.append_assoc, List.append_assoc, ← hbehind, ← htail, List.takeWhile_append_dropWhile]
    · exact not_and_or.1 fun hnil => hne (List.append_eq_nil_iff.2 hnil)

/-- A special value is read where there is no digit. -/
theorem scanDecimal_special {pre : Str} {v : Decimal} (h : Special pre v) (rest : Str) :
    scanDecimal (pre ++ rest) = specialOf (pre ++ rest) := by
  obtain ⟨c, pre', hpre, hc⟩ := head_special h
  have hdigit : ¬ Radix.isDigit 10 c = true := by
    intro hdigit
    have hle := toNat_of_decimal hdigit
    omega
  have hpoint : c ≠ '.' := by
    rintro rfl
    exact absurd hc (by decide)
  rw [hpre, List.cons_append]
  have htake : (c :: (pre' ++ rest)).takeWhile (Radix.isDigit 10) = [] := List.takeWhile_cons_of_neg hdigit
  have hdrop : (c :: (pre' ++ rest)).dropWhile (Radix.isDigit 10) = c :: (pre' ++ rest) :=
    List.dropWhile_cons_of_neg hdigit
  exact scanDecimal_eq htake hdrop (fractionOf_of_ne hpoint _)

/-- What stands behind the digits of a number, or behind those of its fraction, does not begin with a digit. -/
theorem head_exponent {exponent : Str} {e : Int} (h : Exponent exponent e) :
    ∀ c ∈ exponent.head?, Radix.isDigit 10 c = false := by
  intro c hc
  cases h with
  | absent => cases hc
  | present he =>
    cases hc
    exact (mark_spec he).1

theorem fractionOf_exponent {exponent : Str} {e : Int} (h : Exponent exponent e) :
    fractionOf exponent = ([], exponent) := by
  cases h with
  | absent => rfl
  | present he => exact fractionOf_of_ne (mark_spec he).2 _

/-- The digits and the fraction of a number. -/
theorem cut_number {ds fraction fs exponent : Str} {n : Nat} {e : Int}
    (hvalue : Radix.value 10 0 (ds ++ fs) = some n) (hfraction : Fraction fraction fs)
    (hexponent : Exponent exponent e) :
    (ds ++ (fraction ++ exponent)).takeWhile (Radix.isDigit 10) = ds ∧
      (ds ++ (fraction ++ exponent)).dropWhile (Radix.isDigit 10) = fraction ++ exponent ∧
      fractionOf (fraction ++ exponent) = (fs, exponent) := by
  have hds : ∀ c ∈ ds, Radix.isDigit 10 c = true := fun c hc => all_digits hvalue c (List.mem_append_left _ hc)
  obtain ⟨m, hm⟩ : ∃ m, Radix.value 10 0 ds = some m := Radix.exists_value hds
  cases hfraction with
  | absent =>
    obtain ⟨htake, hdrop⟩ := Radix.cut_eq hm (head_exponent hexponent)
    exact ⟨htake, hdrop, fractionOf_exponent hexponent⟩
  | present fs =>
    have hfs : ∀ c ∈ fs, Radix.isDigit 10 c = true := fun c hc => all_digits hvalue c (List.mem_append_right _ hc)
    obtain ⟨k, hk⟩ : ∃ k, Radix.value 10 0 fs = some k := Radix.exists_value hfs
    have hpoint : ∀ c ∈ ('.' :: (fs ++ exponent)).head?, Radix.isDigit 10 c = false := by
      intro c hc
      cases hc
      rfl
    obtain ⟨htake, hdrop⟩ := Radix.cut_eq hm hpoint
    obtain ⟨htake', hdrop'⟩ := Radix.cut_eq hk (head_exponent hexponent)
    exact ⟨htake, hdrop, congrArg₂ Prod.mk htake' hdrop'⟩

theorem scanDecimal_complete {ds fraction fs exponent : Str} {n : Nat} {e : Int} (hne : ds ≠ [] ∨ fs ≠ [])
    (hvalue : Radix.value 10 0 (ds ++ fs) = some n) (hfraction : Fraction fraction fs)
    (hexponent : Exponent exponent e) :
    scanDecimal (ds ++ (fraction ++ exponent)) = some (.number n fs.length e, []) := by
  obtain ⟨htake, hdrop, hcut⟩ := cut_number hvalue hfraction hexponent
  have hread : Base.readOn 10 none (ds ++ fs) = some n :=
    readOn_none.2 ⟨fun hnil => not_and_or.2 hne (List.append_eq_nil_iff.1 hnil), hvalue⟩
  rw [scanDecimal_eq htake hdrop hcut, hread, exponentOf_complete hexponent]

/-- A number is read to its end, or further. -/
theorem number_greedy {ds fraction fs exponent : Str} {n : Nat} {e : Int} (hne : ds ≠ [] ∨ fs ≠ [])
    (hvalue : Radix.value 10 0 (ds ++ fs) = some n) (hfraction : Fraction fraction fs)
    (hexponent : Exponent exponent e) (rest : Str) :
    ∃ ds' tail fs' behind, (ds ++ (fraction ++ (exponent ++ rest))).takeWhile (Radix.isDigit 10) = ds' ∧
      (ds ++ (fraction ++ (exponent ++ rest))).dropWhile (Radix.isDigit 10) = tail ∧ fractionOf tail = (fs', behind) ∧
      ds' ++ fs' ≠ [] ∧ (∀ c ∈ ds' ++ fs', Radix.isDigit 10 c = true) ∧ (exponentOf behind).2.length ≤ rest.length := by
  have hds : ∀ c ∈ ds, Radix.isDigit 10 c = true := fun c hc => all_digits hvalue c (List.mem_append_left _ hc)
  obtain ⟨hshort, hlong⟩ := length_behind_le hexponent rest
  rw [List.takeWhile_append_of_pos hds, List.dropWhile_append_of_pos hds]
  cases hfraction with
  | absent =>
    have hne : ds ≠ [] := hne.resolve_right fun h => h rfl
    obtain ⟨fraction', -, -, hfs⟩ := fraction_fractionOf ((exponent ++ rest).dropWhile (Radix.isDigit 10))
    refine ⟨_, _, _, _, rfl, rfl, rfl, ?_, ?_, hlong⟩
    · exact fun hnil => hne (List.append_eq_nil_iff.1 (List.append_eq_nil_iff.1 hnil).1).1
    · exact List.forall_mem_append.2 ⟨List.forall_mem_append.2 ⟨hds, fun c hc => List.mem_takeWhile_imp hc⟩, hfs⟩
  | present fs =>
    have hfs : ∀ c ∈ fs, Radix.isDigit 10 c = true := fun c hc => all_digits hvalue c (List.mem_append_right _ hc)
    refine ⟨ds, '.' :: (fs ++ (exponent ++ rest)), fs ++ (exponent ++ rest).takeWhile (Radix.isDigit 10),
      (exponent ++ rest).dropWhile (Radix.isDigit 10), List.append_nil ds, rfl, ?_, ?_, ?_, hshort⟩
    · exact congrArg₂ Prod.mk (List.takeWhile_append_of_pos hfs) (List.dropWhile_append_of_pos hfs)
    · intro hnil
      obtain ⟨hnil, hnil'⟩ := List.append_eq_nil_iff.1 hnil
      exact not_and_or.2 hne ⟨hnil, (List.append_eq_nil_iff.1 hnil').1⟩
    · exact List.forall_mem_append.2 ⟨hds, List.forall_mem_append.2 ⟨hfs, fun c hc => List.mem_takeWhile_imp hc⟩⟩

theorem special_of_infinity {s : Str}
    (h : s.map Char.toLower = "infinity".toList ∨ s.map Char.toLower = "inf".toList) : Special s .infinity := by
  rcases h with h | h
  · exact ⟨("infinity".toList, .infinity), List.mem_cons_self, h, rfl⟩
  · exact ⟨("inf".toList, .infinity), List.mem_cons_of_mem _ List.mem_cons_self, h, rfl⟩

theorem special_of_nan {s : Str} (h : s.map Char.toLower = "nan".toList) : Special s .nan :=
  ⟨("nan".toList, .nan), List.mem_cons_of_mem _ (List.mem_cons_of_mem _ List.mem_cons_self), h, rfl⟩

theorem special_complete {pre : Str} {v : Decimal} (h : Special pre v) : scanDecimal pre = some (v, []) := by
  have hscan := scanDecimal_special h []
  rw [List.append_nil] at hscan
  exact hscan.trans (specialOf_complete h)

theorem special_greedy {pre : Str} {v : Decimal} (h : Special pre v) (rest : Str) :
    ∃ v' rest', scanDecimal (pre ++ rest) = some (v', rest') ∧ rest'.length ≤ rest.length := by
  rw [scanDecimal_special h rest]
  exact specialOf_greedy h rest

theorem scanner_decimal : Scanner DecimalBody scanDecimal where
  sound := fun _ _ _ h => scanDecimal_sound h
  complete := by
    intro pre v htext
    cases htext with
    | number hne hvalue hfraction hexponent =>
      rw [List.append_assoc]
      exact scanDecimal_complete hne hvalue hfraction hexponent
    | infinity h => exact special_complete (special_of_infinity h)
    | nan h => exact special_complete (special_of_nan h)
  greedy := by
    intro pre v rest htext
    cases htext with
    | number hne hvalue hfraction hexponent =>
      obtain ⟨ds, tail, fs, behind, htake, hdrop, hcut, hne', hdigits, hle⟩ :=
        number_greedy hne hvalue hfraction hexponent rest
      obtain ⟨m, hm⟩ : ∃ m, Radix.value 10 0 (ds ++ fs) = some m := Radix.exists_value hdigits
      refine ⟨.number m fs.length (exponentOf behind).1, (exponentOf behind).2, ?_, hle⟩
      rw [List.append_assoc, List.append_assoc, scanDecimal_eq htake hdrop hcut, readOn_none.2 ⟨hne', hm⟩]
    | infinity h => exact special_greedy (special_of_infinity h) rest
    | nan h => exact special_greedy (special_of_nan h) rest

/-! ## Texts behind whitespace and a sign -/

variable {α : Type} {Body : Str → α → Prop} {scan : Str → Option (α × Str)}

def scanText (scan : Str → Option (α × Str)) (input : Str) : Option ((Bool × α) × Str) :=
  let (negative, unsigned) := splitSign (input.dropWhile isAsciiWhitespace)
  (scan unsigned).map fun r => ((negative, r.1), r.2)

theorem scanText_eq {input unsigned : Str} {negative : Bool}
    (h : splitSign (input.dropWhile isAsciiWhitespace) = (negative, unsigned)) :
    scanText scan input = (scan unsigned).map fun r => ((negative, r.1), r.2) := by
  rw [scanText, h]

theorem not_whitespace {c : Char} (h : 43 ≤ c.toNat) : ¬ isAsciiWhitespace c = true := by
  intro hws
  simp only [isAsciiWhitespace, Bool.or_eq_true, decide_eq_true_eq] at hws
  rcases hws with (((rfl | rfl) | rfl) | rfl) | rfl <;> exact absurd h (by decide)

/-- Whitespace and the sign in front of a text. -/
theorem splitSign_text {ws sign s : Str} {negative : Bool} {c : Char} (hws : ∀ c ∈ ws, isAsciiWhitespace c = true)
    (hsign : Sign sign negative) (hc : 46 ≤ c.toNat) :
    splitSign ((ws ++ (sign ++ c :: s)).dropWhile isAsciiWhitespace) = (negative, c :: s) := by
  rw [List.dropWhile_append_of_pos hws]
  have hdrop : (sign ++ c :: s).dropWhile isAsciiWhitespace = sign ++ c :: s := by
    cases hsign with
    | none => exact List.dropWhile_cons_of_neg (not_whitespace (by omega))
    | plus => rfl
    | minus => rfl
  rw [hdrop]
  exact splitSign_append hsign hc s

theorem scanner_text (h : Scanner Body scan)
    (hhead : ∀ body v, Body body v → ∃ c rest, body = c :: rest ∧ 46 ≤ c.toNat) :
    Scanner (Text Body) (scanText scan) where
  sound := by
    intro input v rest hscan
    cases hsplit : splitSign (input.dropWhile isAsciiWhitespace) with | mk negative unsigned
    obtain ⟨sign, hsign, hdrop⟩ := sign_splitSign (input.dropWhile isAsciiWhitespace)
    rw [hsplit] at hsign hdrop
    rw [scanText_eq hsplit] at hscan
    obtain ⟨r, hr, heq⟩ := Option.map_eq_some_iff.1 hscan
    cases heq
    obtain ⟨body, hbody, htext⟩ := h.sound unsigned r.1 r.2 hr
    refine ⟨input.takeWhile isAsciiWhitespace ++ (sign ++ body), ?_,
      .mk (fun c hc => List.mem_takeWhile_imp hc) hsign htext⟩
    rw [List.append_assoc, List.append_assoc, ← hbody, ← hdrop, List.takeWhile_append_dropWhile]
  complete := by
    intro pre v htext
    cases htext with
    | mk hws hsign hbody =>
      obtain ⟨c, tail, rfl, hc⟩ := hhead _ _ hbody
      rw [scanText_eq (splitSign_text hws hsign hc), h.complete _ _ hbody]
      rfl
  greedy := by
    intro pre v rest htext
    cases htext with
    | @mk ws sign body negative v hws hsign hbody =>
      obtain ⟨c, tail, rfl, hc⟩ := hhead _ _ hbody
      obtain ⟨v', rest', hscan, hle⟩ := h.greedy _ _ rest hbody
      refine ⟨(negative, v'), rest', ?_, hle⟩
      rw [List.append_assoc, List.append_assoc, List.cons_append, scanText_eq (splitSign_text hws hsign hc)]
      exact congrArg (Option.map _) hscan

theorem head_digits {radix : Nat} {ds : Str} {n : Nat} (h : Digits radix ds n) :
    ∃ c rest, ds = c :: rest ∧ 46 ≤ c.toNat := by
  cases ds with
  | nil => exact absurd rfl h.1
  | cons c rest => exact ⟨c, rest, rfl, toNat_of_digit (all_digits h.2 c List.mem_cons_self)⟩

theorem head_integerBody (body : Str) (n : Nat) (h : IntegerBody body n) :
    ∃ c rest, body = c :: rest ∧ 46 ≤ c.toNat := by
  cases h with
  | hexadecimal => exact ⟨'0', _, rfl, by decide⟩
  | binary => exact ⟨'0', _, rfl, by decide⟩
  | octal => exact ⟨'0', _, rfl, by decide⟩
  | decimal _ h => exact head_digits h

theorem head_decimalBody (body : Str) (v : Decimal) (h : DecimalBody body v) :
    ∃ c rest, body = c :: rest ∧ 46 ≤ c.toNat := by
  cases h with
  | @number ds fraction fs exponent n e hne hvalue hfraction =>
    cases ds with
    | cons c ds => exact ⟨c, _, rfl, toNat_of_digit (all_digits hvalue c List.mem_cons_self)⟩
    | nil =>
      cases hfraction with
      | absent => exact absurd rfl (hne.resolve_left fun h => h rfl)
      | present fs => exact ⟨'.', _, rfl, by decide⟩
  | infinity h =>
    obtain ⟨c, rest, hs, hc⟩ := head_special (special_of_infinity h)
    exact ⟨c, rest, hs, by omega⟩
  | nan h =>
    obtain ⟨c, rest, hs, hc⟩ := head_special (special_of_nan h)
    exact ⟨c, rest, hs, by omega⟩

end Peiosutils.NumParser
