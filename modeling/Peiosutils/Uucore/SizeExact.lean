import Mathlib.Data.Nat.Cast.Order.Basic
import Peiosutils.Lib.Fallible
import Peiosutils.Uucore.SizeMeaning

/-!
# Results that meet a reading

`Parser.parse` step by step: what it comes to with a known unit (`parse_known`), with a percentage (`parse_percent`) and
with neither (`parse_refused`). A number that is parsed as it is read meets the meaning of a size (`meets_known`); a
percentage does if it is a whole multiple of the memory that fits (`meets_percent`).
-/

set_option autoImplicit false

namespace Peiosutils.ParseSize

open Radix (digit value isDigit fromStrRadix)

variable {quote : Str → Str} {total : Option Nat} {p : Parser} {size numeric rest : Str} {n : Nat}

/-! ## The steps of a parse -/

/-- An error that does not say that the size is too big. -/
def Refused {α : Type} (r : Except Stop α) : Prop := ∃ e, r = .error (.err e) ∧ ∀ s, e ≠ .sizeTooBig s

theorem refused_parseFailure {α : Type} {s : Str} : Refused (parseFailure quote s : Except Stop α) :=
  ⟨_, rfl, fun _ h => by cases h⟩

theorem refused_invalidSuffix {α : Type} {s : Str} : Refused (invalidSuffix quote s : Except Stop α) :=
  ⟨_, rfl, fun _ h => by cases h⟩

theorem withoutCount_eq (hcount : ¬ (p.countsBytes (p.defaulted rest) = true ∧ numeric = [])) :
    p.withoutCount quote size numeric (p.defaulted rest) = .ok (p.effective rest) := by
  rw [Parser.withoutCount, Parser.effective]
  by_cases h : p.countsBytes (p.defaulted rest) = true
  · rw [if_pos h, if_pos h, if_neg (fun hnumeric => hcount ⟨h, hnumeric⟩)]
  · rw [if_neg h, if_neg h]

section Steps

variable {system : NumberSystem} (hne : size ≠ []) (hsystem : determineNumberSystem size = system)
  (hnumeric : numericString system size = numeric) (hrest : size.drop numeric.length = rest)

include hne hsystem hnumeric hrest

/-- A byte count needs a number. -/
theorem parse_counted (hcount : p.countsBytes (p.defaulted rest) = true ∧ numeric = []) :
    p.parse quote total size = parseFailure quote size := by
  simp only [Parser.parse, Parser.suffix, if_neg hne, hsystem, hnumeric, hrest, Parser.withoutCount, if_pos hcount.1,
    if_pos hcount.2]
  rfl

variable (hcount : ¬ (p.countsBytes (p.defaulted rest) = true ∧ numeric = []))

include hcount

theorem parse_known {f : Nat} (hallows : p.allows (p.effective rest) = true)
    (hf : (p.effective rest, f) ∈ unitFactors p.capitalBBytes) : p.parse quote total size =
      (p.number quote system numeric size >>= fun n => if n * f < u128Limit then .ok (n * f)
        else sizeTooBig quote size) := by
  have hpercent : p.effective rest ≠ ['%'] := fun h => percent_not_factor (h ▸ hf)
  obtain ⟨base, exponent, hbase, rfl⟩ := unitBase_iff.2 hf
  simp only [Parser.parse, Parser.suffix, if_neg hne, hsystem, hnumeric, hrest, withoutCount_eq hcount]
  simp only [bind, Except.bind, hallows, if_true, pure, Except.pure, if_neg hpercent, hbase]
  congr 1
  funext n
  rw [Checked.mul]
  split_ifs <;> rfl

theorem parse_percent (hunit : p.Percent (p.effective rest)) :
    p.parse quote total size = Parser.percentage quote total numeric size := by
  simp only [Parser.parse, Parser.suffix, if_neg hne, hsystem, hnumeric, hrest, withoutCount_eq hcount]
  have hallows : p.allows ['%'] = true := hunit.2 ▸ hunit.1
  simp only [bind, Except.bind, hallows, if_true, pure, Except.pure, hunit.2]

theorem parse_refused (hknown : ¬ p.Known (p.effective rest)) (hpercent : ¬ p.Percent (p.effective rest)) :
    Refused (p.parse quote total size) := by
  have hunknown : Refused (if numeric = [] then parseFailure quote size else invalidSuffix quote size :
      Except Stop Nat) := by
    split_ifs
    · exact refused_parseFailure
    · exact refused_invalidSuffix
  simp only [Parser.parse, Parser.suffix, if_neg hne, hsystem, hnumeric, hrest, withoutCount_eq hcount]
  by_cases hallows : p.allows (p.effective rest) = true
  · have hne : p.effective rest ≠ ['%'] := fun h => hpercent ⟨hallows, h⟩
    simp only [bind, Except.bind, hallows, if_true, pure, Except.pure, if_neg hne]
    cases hbase : unitBase p.capitalBBytes (p.effective rest) with
    | none => exact hunknown
    | some be => exact absurd ⟨hallows, _, unitBase_iff.1 ⟨be.1, be.2, hbase, rfl⟩⟩ hknown
  · simp only [bind, Except.bind, if_neg hallows]
    split_ifs
    · exact refused_parseFailure
    · exact refused_invalidSuffix

end Steps

/-! ## Numbers below the limit -/

theorem limit_pos : 0 < u128Limit := by decide

theorem parseNumber_digits {radix : Nat} (hradix : 0 < radix) {ds : Str} (hne : ds ≠ [])
    (h : value radix 0 ds = some n) :
    parseNumber quote ds radix size = if n < u128Limit then .ok n else sizeTooBig quote size := by
  rw [parseNumber, Radix.fromStrRadix_digits hradix limit_pos hne h]
  split_ifs <;> rfl

/-- Digits that are none of the radix. -/
theorem parseNumber_letter {radix : Nat} (hradix : 0 < radix) {ds : Str} (hne : ds ≠ []) {m : Nat}
    (h : value radix 0 ds = some m) {c : Char} (hc : digit radix c = none) (back : Str) :
    parseNumber quote (ds ++ c :: back) radix size =
      if m < u128Limit then .error (.err (.parseFailure size)) else sizeTooBig quote size := by
  rw [parseNumber, Radix.fromStrRadix_letter hradix limit_pos h hc (fun h => absurd h hne)]
  split_ifs <;> rfl

theorem refused_parseNumber_nil {radix : Nat} : Refused (parseNumber quote [] radix size) :=
  ⟨_, rfl, fun _ h => by cases h⟩

theorem refused_bind {α β : Type} {x : Except Stop α} {f : α → Except Stop β} (h : Refused x) : Refused (x >>= f) := by
  obtain ⟨e, rfl, hbig⟩ := h
  exact ⟨e, rfl, hbig⟩

/-! ## Results that meet a reading -/

theorem amount_product {unit : Str} {f v : Nat} (hf : (unit, f) ∈ unitFactors p.capitalBBytes) :
    Amount p total n unit v ↔ v = n * f := by
  constructor
  · rintro (⟨hf'⟩ | ⟨-⟩)
    · rw [factor_unique hf hf']
    · exact absurd hf percent_not_factor
  · rintro rfl
    exact .product hf

theorem amount_percent {v : Nat} : Amount p total n ['%'] v ↔ ∃ t, total = some t ∧ v = n * t / 100 := by
  constructor
  · rintro (⟨hf⟩ | ⟨h⟩)
    · exact absurd hf percent_not_factor
    · exact ⟨_, h, rfl⟩
  · rintro ⟨t, h, rfl⟩
    exact .percentage h

theorem meets_of_refused {r : Except Stop Nat} (hreads : ∀ n unit, ¬ Reads p size n unit) (h : Refused r) :
    Meets p total size r := by
  obtain ⟨e, rfl, hbig⟩ := h
  constructor
  · exact fun h => by cases h
  · refine fun v => ⟨(fun h => by cases h), ?_⟩
    rintro ⟨n, unit, h, -⟩
    exact absurd h (hreads n unit)
  · constructor
    · rintro ⟨s, hs⟩
      cases hs
      exact absurd rfl (hbig s)
    · rintro ⟨n, unit, h, -⟩
      exact absurd h (hreads n unit)

section Reading

variable {unit : Str} {r : Except Stop Nat} (hreads : ∀ n' unit', Reads p size n' unit' ↔ n' = n ∧ unit' = unit)

include hreads

/-- What a result should be where there is one reading. -/
theorem meets_reading_iff : Meets p total size r ↔ r ≠ .error .panic ∧
    (∀ v, r = .ok v ↔ n < u128Limit ∧ Amount p total n unit v ∧ v < u128Limit) ∧
      ((∃ s, r = .error (.err (.sizeTooBig s))) ↔
        u128Limit ≤ n ∨ ∃ v, Amount p total n unit v ∧ u128Limit ≤ v) := by
  have hok : ∀ v, (∃ n' unit', Reads p size n' unit' ∧ n' < u128Limit ∧ Amount p total n' unit' v ∧ v < u128Limit) ↔
      n < u128Limit ∧ Amount p total n unit v ∧ v < u128Limit := by
    intro v
    simp only [hreads, and_assoc, exists_and_left, exists_eq_left]
  have hbig : (∃ n' unit', Reads p size n' unit' ∧
      (u128Limit ≤ n' ∨ ∃ v, Amount p total n' unit' v ∧ u128Limit ≤ v)) ↔
        u128Limit ≤ n ∨ ∃ v, Amount p total n unit v ∧ u128Limit ≤ v := by
    simp only [hreads, and_assoc, exists_and_left, exists_eq_left]
  constructor
  · exact fun h => ⟨h.never_panics, fun v => (h.ok_iff v).trans (hok v), h.tooBig_iff.trans hbig⟩
  · exact fun h => ⟨h.1, fun v => (h.2.1 v).trans (hok v).symm, h.2.2.trans hbig.symm⟩

/-- A number that is refused does not meet its reading. -/
theorem not_meets_of_refused {f : Nat} (hf : (unit, f) ∈ unitFactors p.capitalBBytes) (h : Refused r) :
    ¬ Meets p total size r := by
  rw [meets_reading_iff hreads]
  rintro ⟨-, hok, hbig⟩
  obtain ⟨e, rfl, hnot⟩ := h
  simp only [amount_product hf] at hok hbig
  by_cases hfits : n < u128Limit ∧ n * f < u128Limit
  · cases (hok _).2 ⟨hfits.1, rfl, hfits.2⟩
  · obtain ⟨s, hs⟩ := hbig.2 (by
      by_cases hn : n < u128Limit
      · exact Or.inr ⟨_, rfl, Nat.le_of_not_lt fun h => hfits ⟨hn, h⟩⟩
      · exact Or.inl (Nat.le_of_not_lt hn))
    cases hs
    exact hnot s rfl

/-- A number of a known unit. -/
theorem meets_known {f : Nat} (hf : (unit, f) ∈ unitFactors p.capitalBBytes)
    (hr : r = (if n < u128Limit then .ok n else sizeTooBig quote size : Except Stop Nat) >>= fun n =>
      if n * f < u128Limit then .ok (n * f) else sizeTooBig quote size) : Meets p total size r := by
  have hresult : r = if n < u128Limit ∧ n * f < u128Limit then .ok (n * f) else sizeTooBig quote size := by
    rw [hr]
    by_cases hn : n < u128Limit
    · simp only [bind, Except.bind, hn, if_true, true_and]
    · rw [if_neg hn, if_neg (fun h => hn h.1)]
      rfl
  rw [meets_reading_iff hreads, hresult]
  simp only [amount_product hf]
  split_ifs with h
  · refine ⟨(fun h => by cases h), fun v => ?_, ?_⟩
    · rw [Except.ok.injEq]
      constructor
      · rintro rfl
        exact ⟨h.1, rfl, h.2⟩
      · exact fun h => h.2.1.symm
    · simp [Nat.not_le.2 h.1, Nat.not_le.2 h.2]
  · refine ⟨(fun h => by cases h), fun v => ⟨(fun h => by cases h), ?_⟩, ⟨fun _ => ?_, fun _ => ⟨_, rfl⟩⟩⟩
    · rintro ⟨hn, rfl, hv⟩
      exact absurd ⟨hn, hv⟩ h
    · by_cases hn : n < u128Limit
      · exact Or.inr ⟨_, rfl, Nat.le_of_not_lt fun hv => h ⟨hn, hv⟩⟩
      · exact Or.inl (Nat.le_of_not_lt hn)

end Reading

/-! ## Percentages -/

/-- A share of the memory that is no multiple of it, or does not fit. -/
def Inexact (total : Option Nat) (n : Nat) : Prop :=
  n < u128Limit ∧ ∃ t, total = some t ∧ (100 ≤ n % 100 * t ∨ u128Limit ≤ n / 100 * t)

theorem share_eq (n t : Nat) : n * t / 100 = n / 100 * t + n % 100 * t / 100 := by
  have h : n * t = n % 100 * t + 100 * (n / 100 * t) := by
    rw [← Nat.mul_assoc, ← Nat.add_mul, Nat.mod_add_div]
  rw [h, Nat.add_mul_div_left _ _ (by decide), Nat.add_comm]

theorem share_some (n t : Nat) : Parser.share (some t) n size =
    if n / 100 * t < u128Limit then .ok (n / 100 * t) else .error .panic := by
  rw [Parser.share, Checked.mul]
  split_ifs <;> rfl

theorem percentage_eq {ds : Str} (hne : ds ≠ []) (h : value 10 0 ds = some n) :
    Parser.percentage quote total ds size =
      if n < u128Limit then Parser.share total n size else sizeTooBig quote size := by
  rw [Parser.percentage, parseNumber_digits (by decide) hne h]
  split_ifs <;> rfl

section Percent

variable {r : Except Stop Nat} (hreads : ∀ n' unit', Reads p size n' unit' ↔ n' = n ∧ unit' = ['%'])

include hreads

/-- Without the memory's size there is no result. -/
theorem meets_unknown (hn : n < u128Limit) : Meets p none size (Parser.share none n size) := by
  rw [meets_reading_iff hreads]
  simp only [amount_percent]
  refine ⟨(fun h => by cases h), fun v => ⟨(fun h => by cases h), ?_⟩, ⟨?_, ?_⟩⟩
  · rintro ⟨-, ⟨t, ht, -⟩, -⟩
    cases ht
  · rintro ⟨s, h⟩
    cases h
  · rintro (h | ⟨v, ⟨t, ht, -⟩, -⟩)
    · exact absurd hn (Nat.not_lt.2 h)
    · cases ht

theorem meets_share {t : Nat} (hn : n < u128Limit) : Meets p (some t) size (Parser.share (some t) n size) ↔
    n % 100 * t < 100 ∧ n / 100 * t < u128Limit := by
  have hshare := share_eq n t
  have hamount : ∀ v, Amount p (some t) n ['%'] v ↔ v = n * t / 100 := fun v => by simp [amount_percent]
  rw [meets_reading_iff hreads, share_some]
  simp only [hamount]
  constructor
  · rintro ⟨hpanic, hok, hbig⟩
    by_cases hfits : n / 100 * t < u128Limit
    · rw [if_pos hfits] at hok
      obtain ⟨-, hv, -⟩ := (hok _).1 rfl
      exact ⟨by omega, hfits⟩
    · rw [if_neg hfits] at hpanic
      exact absurd rfl hpanic
  · rintro ⟨hless, hfits⟩
    rw [Nat.div_eq_of_lt hless, Nat.add_zero] at hshare
    rw [if_pos hfits, hshare]
    refine ⟨(fun h => by cases h), fun v => ?_, ?_⟩
    · rw [Except.ok.injEq]
      constructor
      · rintro rfl
        exact ⟨hn, rfl, hfits⟩
      · exact fun h => h.2.1.symm
    · simp [Nat.not_le.2 hn, Nat.not_le.2 hfits]

theorem meets_large (hn : u128Limit ≤ n) : Meets p total size (sizeTooBig quote size) := by
  rw [meets_reading_iff hreads]
  refine ⟨(fun h => by cases h), fun v => ⟨(fun h => by cases h), ?_⟩, ⟨fun _ => Or.inl hn, fun _ => ⟨_, rfl⟩⟩⟩
  exact fun h => absurd h.1 (Nat.not_lt.2 hn)

/-- A percentage. -/
theorem meets_percent (hr : r = if n < u128Limit then Parser.share total n size else sizeTooBig quote size) :
    Meets p total size r ↔ ¬ Inexact total n := by
  rw [hr]
  by_cases hn : n < u128Limit
  · rw [if_pos hn]
    cases total with
    | none =>
      refine iff_of_true (meets_unknown hreads hn) ?_
      rintro ⟨-, t, ht, -⟩
      cases ht
    | some t =>
      rw [meets_share hreads hn, Inexact]
      simp [hn]
  · rw [if_neg hn]
    exact iff_of_true (meets_large hreads (Nat.le_of_not_lt hn)) (fun h => hn h.1)

end Percent

end Peiosutils.ParseSize
