import Peiosutils.Uucore.SizeExact

/-!
# Where a size is parsed as it is read

`Parser.parse` meets the meaning of a size exactly where none of four things is in the way (`parse_meets_iff`): a number
of zeros only that has a unit behind it (`ZerosOnly`), a zero with a block of bytes (`ZeroBlock`), digits beyond the
octal ones behind an octal number that is too big (`BeyondOctal`), and a percentage that is no whole multiple of the
memory (`Rounded`).
-/

set_option autoImplicit false

namespace Peiosutils.ParseSize

open Radix (digit value isDigit)

variable {quote : Str → Str} {total : Option Nat} {p : Parser} {size unit : Str} {n : Nat}

/-! ## What is in the way -/

/-- The unit behind the decimal digits at the front. -/
def unitOf (p : Parser) (size : Str) : Str := p.effective (size.dropWhile (isDigit 10))

/-- "00K": two zeros or more with a unit behind them. -/
def ZerosOnly (p : Parser) (size : Str) : Prop :=
  (∃ k, size.takeWhile (isDigit 10) = List.replicate (k + 2) '0') ∧ size.dropWhile (isDigit 10) ≠ [] ∧
    p.Known (unitOf p size)

/-- "0bb", where the last "b" is a byte count. -/
def ZeroBlock (p : Parser) (size : Str) : Prop :=
  size = ['0', 'b', 'b'] ∧ p.bByteCount = true ∧ p.allows ['b'] = true

/-- The digits of an octal number go on with an "8" or a "9" after it became too big. -/
def BeyondOctal (p : Parser) (size : Str) : Prop :=
  size.head? = some '0' ∧ p.Known (unitOf p size) ∧
    ∃ front c back m, size.takeWhile (isDigit 10) = front ++ c :: back ∧ digit 8 c = none ∧
      value 8 0 front = some m ∧ u128Limit ≤ m

/-- A percentage that is no whole multiple of the memory, or a multiple that does not fit. -/
def Rounded (p : Parser) (total : Option Nat) (size : Str) : Prop :=
  p.Percent (unitOf p size) ∧ ∃ n, size.takeWhile (isDigit 10) ≠ [] ∧
    value 10 0 (size.takeWhile (isDigit 10)) = some n ∧ Inexact total n

/-- Nothing is in the way. -/
structure Plain (p : Parser) (total : Option Nat) (size : Str) : Prop where
  not_zerosOnly : ¬ ZerosOnly p size
  not_zeroBlock : ¬ ZeroBlock p size
  not_beyondOctal : ¬ BeyondOctal p size
  not_rounded : ¬ Rounded p total size

/-! ## Number systems -/

theorem determine_x (tail : Str) : determineNumberSystem ('0' :: 'x' :: tail) = .hexadecimal := by
  have hlen : ¬ byteLen ('0' :: 'x' :: tail) ≤ 1 := by
    have hzero : Char.utf8Size '0' = 1 := rfl
    have hx : Char.utf8Size 'x' = 1 := rfl
    simp only [byteLen]
    omega
  rw [determineNumberSystem, if_neg hlen, if_pos ⟨tail, rfl⟩]

theorem determine_b {tail : Str} (hne : tail ≠ []) : determineNumberSystem ('0' :: 'b' :: tail) = .binary := by
  have hlen : ¬ byteLen ('0' :: 'b' :: tail) ≤ 1 := by
    have hzero : Char.utf8Size '0' = 1 := rfl
    have hb : Char.utf8Size 'b' = 1 := rfl
    simp only [byteLen]
    omega
  have hx : ¬ ['0', 'x'] <+: '0' :: 'b' :: tail := by simp
  rw [determineNumberSystem, if_neg hlen, if_neg hx, if_pos ⟨⟨tail, rfl⟩, hne⟩]

theorem length_le_byteLen : ∀ cs : Str, cs.length ≤ byteLen cs
  | [] => Nat.le_refl _
  | c :: cs => by
    have hpos := c.utf8Size_pos
    have hle := length_le_byteLen cs
    simp only [List.length_cons, byteLen]
    omega

/-- Without a prefix only a zero in front makes digits octal. -/
theorem determine_digits (hx : ¬ ['0', 'x'] <+: size) (hb : ¬ (['0', 'b'] <+: size ∧ size.drop 2 ≠ [])) :
    determineNumberSystem size =
      if size.head? = some '0' ∧ 1 < (size.takeWhile (isDigit 10)).length ∧ size.all (· = '0') = false then .octal
      else .decimal := by
  rw [isDigit_ten, determineNumberSystem, if_neg hx, if_neg hb]
  by_cases hlen : byteLen size ≤ 1
  · have hshort : ¬ 1 < (size.takeWhile Char.isDigit).length := by
      have htake := (List.takeWhile_sublist Char.isDigit (l := size)).length_le
      have hle := length_le_byteLen size
      omega
    rw [if_pos hlen, if_neg (fun h => hshort h.2.1)]
  · rw [if_neg hlen]

theorem numericString_digits {system : NumberSystem} (h : system = .decimal ∨ system = .octal) :
    numericString system size = size.takeWhile (isDigit 10) := by
  rw [isDigit_ten]
  rcases h with rfl | rfl <;> rfl

theorem drop_takeWhile (f : Char → Bool) (s : Str) : s.drop (s.takeWhile f).length = s.dropWhile f := by
  have h := List.takeWhile_append_dropWhile (p := f) (l := s)
  calc s.drop (s.takeWhile f).length
      = (s.takeWhile f ++ s.dropWhile f).drop (s.takeWhile f).length := by rw [h]
    _ = s.dropWhile f := List.drop_left

/-! ## Without a number -/

theorem zero_front {c : Char} {tail : Str} : ('0' :: c :: tail).takeWhile (isDigit 10) ≠ [] := by
  have hzero : isDigit 10 '0' = true := by decide
  simp [hzero]

section Omitted

variable (hds : size.takeWhile (isDigit 10) = [])

include hds

theorem reads_omitted : Reads p size n unit ↔ Omitted p size n unit := by
  rw [reads_iff]
  constructor
  · rintro (h | h | ⟨tail, rfl, -⟩ | ⟨tail, rfl, -⟩)
    · exact h
    · exact absurd hds h.1
    · exact absurd hds zero_front
    · exact absurd hds zero_front
  · exact Or.inl

theorem head_omitted : size.head? ≠ some '0' := by
  intro h
  obtain ⟨tail, rfl⟩ := List.head?_eq_some_iff.1 h
  have hzero : isDigit 10 '0' = true := by decide
  simp [hzero] at hds

theorem plain_omitted : Plain p total size := by
  constructor
  · rintro ⟨⟨k, h⟩, -⟩
    rw [hds] at h
    cases h
  · rintro ⟨rfl, -⟩
    exact zero_front hds
  · rintro ⟨-, -, front, c, back, m, h, -⟩
    rw [hds] at h
    simp at h
  · rintro ⟨-, n, h, -⟩
    exact h hds

theorem meets_omitted (hne : size ≠ []) : Meets p total size (p.parse quote total size) := by
  have hnot : ∀ b, ¬ ['0', b] <+: size := by
    rintro b ⟨tail, rfl⟩
    exact zero_front hds
  have hsystem : determineNumberSystem size = .decimal := by
    rw [determine_digits (hnot _) (fun h => hnot _ h.1), if_neg (fun h => head_omitted hds h.1)]
  have hnumeric : numericString .decimal size = [] := (numericString_digits (Or.inl rfl)).trans hds
  have hrest : size.drop ([] : Str).length = size := rfl
  have hdefaulted : p.defaulted size = size := by
    rw [Parser.defaulted]
    cases p.defaultUnit with
    | none => rfl
    | some d => exact if_neg hne
  by_cases hcount : p.countsBytes size = true
  · rw [parse_counted hne hsystem hnumeric hrest ⟨by rwa [hdefaulted], rfl⟩]
    refine meets_of_refused (fun n unit h => ?_) refused_parseFailure
    obtain ⟨-, -, hnot, -⟩ := (reads_omitted hds).1 h
    exact absurd hcount (by simp [hnot])
  · have hfree : ¬ (p.countsBytes (p.defaulted size) = true ∧ ([] : Str) = []) := fun h => hcount (hdefaulted ▸ h.1)
    have heffective : p.effective size = size := by rw [Parser.effective, hdefaulted, if_neg hcount]
    by_cases hknown : p.Known size
    · obtain ⟨hallows, f, hf⟩ := hknown
      rw [parse_known hne hsystem hnumeric hrest hfree (heffective.symm ▸ hallows) (heffective.symm ▸ hf),
        Parser.number]
      cases hempty : p.noEmptyNumeric with
      | false =>
        refine @meets_known quote total p size 1 size _ (fun n' unit' => ?_) f hf ?_
        · rw [reads_omitted hds, ParseSize.Omitted]
          simp [hne, hempty, hcount, show p.Known size from ⟨hallows, f, hf⟩]
        · rfl
      | true =>
        refine meets_of_refused (fun n unit h => ?_) (refused_bind ?_)
        · obtain ⟨-, hnot, -⟩ := (reads_omitted hds).1 h
          rw [hempty] at hnot
          cases hnot
        · simp only [Bool.true_eq_false, and_false, if_false]
          exact refused_parseNumber_nil
    · have hnone : ∀ n unit, ¬ Reads p size n unit := by
        intro n unit h
        obtain ⟨-, -, -, hunit, -⟩ := (reads_omitted hds).1 h
        exact hknown hunit
      by_cases hpercent : p.Percent size
      · rw [parse_percent hne hsystem hnumeric hrest hfree (heffective.symm ▸ hpercent)]
        exact meets_of_refused hnone (refused_bind refused_parseNumber_nil)
      · exact meets_of_refused hnone
          (parse_refused hne hsystem hnumeric hrest hfree (heffective.symm ▸ hknown) (heffective.symm ▸ hpercent))

end Omitted

/-! ## Behind a prefix -/

theorem trimPairs_eq {a b : Char} {ds : Str} (h : b ∉ ds) : trimPairs a b (a :: b :: ds) = ds := by
  rw [trimPairs, if_pos ⟨rfl, rfl⟩]
  cases ds with
  | nil => rfl
  | cons c ds =>
    cases ds with
    | nil => rfl
    | cons d ds =>
      rw [trimPairs, if_neg]
      rintro ⟨-, rfl⟩
      exact h (by simp)

theorem not_mem_takeWhile {f : Char → Bool} {c : Char} {s : Str} (h : f c = false) : c ∉ s.takeWhile f := fun hc => by
  rw [List.mem_takeWhile_imp hc] at h
  cases h

theorem digit_eq_none {radix : Nat} {c : Char} (h : isDigit radix c = false) : digit radix c = none :=
  Option.not_isSome_iff_eq_none.1 (by rw [← isDigit, h]; decide)

section Prefixed

variable {tail : Str} {x : Char} {radix : Nat} {system : NumberSystem} (hx : isDigit 10 x = false)
  (hradix : 0 < radix) (hsystem : determineNumberSystem ('0' :: x :: tail) = system)
  (hnumeric : numericString system ('0' :: x :: tail) = '0' :: x :: tail.takeWhile (isDigit radix))
  (hnumber : ∀ size, p.number quote system ('0' :: x :: tail.takeWhile (isDigit radix)) size =
    parseNumber quote (tail.takeWhile (isDigit radix)) radix size)

include hx hsystem hnumeric hnumber

/-- Without digits, or without a unit, there is no size. -/
theorem refused_prefixed (h : tail.takeWhile (isDigit radix) = [] ∨
    ¬ p.Known (p.effective (tail.dropWhile (isDigit radix)))) : Refused (p.parse quote total ('0' :: x :: tail)) := by
  have hne : '0' :: x :: tail ≠ [] := List.cons_ne_nil _ _
  have hrest : ('0' :: x :: tail).drop ('0' :: x :: tail.takeWhile (isDigit radix)).length =
      tail.dropWhile (isDigit radix) := drop_takeWhile _ _
  have hfree : ¬ (p.countsBytes (p.defaulted (tail.dropWhile (isDigit radix))) = true ∧
      '0' :: x :: tail.takeWhile (isDigit radix) = []) := fun h => List.cons_ne_nil _ _ h.2
  by_cases hknown : p.Known (p.effective (tail.dropWhile (isDigit radix)))
  · obtain ⟨hallows, f, hf⟩ := id hknown
    have hds := h.resolve_right (fun hnot => hnot hknown)
    rw [parse_known hne hsystem hnumeric hrest hfree hallows hf, hnumber, hds]
    exact refused_bind refused_parseNumber_nil
  · by_cases hpercent : p.Percent (p.effective (tail.dropWhile (isDigit radix)))
    · rw [parse_percent hne hsystem hnumeric hrest hfree hpercent, Parser.percentage]
      -- the prefix is no decimal number
      have hletter := @parseNumber_letter quote ('0' :: x :: tail) 10 (by decide) ['0'] (by decide) 0 (by decide) x
        (digit_eq_none hx) (tail.takeWhile (isDigit radix))
      rw [if_pos limit_pos] at hletter
      exact refused_bind ⟨_, hletter, fun _ h => by cases h⟩
    · exact parse_refused hne hsystem hnumeric hrest hfree hknown hpercent

include hradix

/-- Behind a prefix a size is parsed as it is read. -/
theorem meets_prefixed (hreads : ∀ n unit, Reads p ('0' :: x :: tail) n unit ↔ Prefixed p radix tail n unit) :
    Meets p total ('0' :: x :: tail) (p.parse quote total ('0' :: x :: tail)) := by
  by_cases hnothing : tail.takeWhile (isDigit radix) = [] ∨ ¬ p.Known (p.effective (tail.dropWhile (isDigit radix)))
  · refine meets_of_refused (fun n unit h => ?_) (refused_prefixed hx hsystem hnumeric hnumber hnothing)
    obtain ⟨hds, -, rfl, hunit⟩ := (hreads n unit).1 h
    exact hnothing.elim hds (fun hnot => hnot hunit)
  · obtain ⟨hds, hknown⟩ := not_or.1 hnothing
    obtain ⟨n, hvalue⟩ := Radix.exists_value_takeWhile radix 0 tail
    obtain ⟨hallows, f, hf⟩ := Classical.not_not.1 hknown
    refine @meets_known quote total p _ n _ _ (fun n' unit' => ?_) f hf ?_
    · rw [hreads, Prefixed, hvalue]
      constructor
      · rintro ⟨-, hn, hunit, -⟩
        exact ⟨(Option.some.inj hn).symm, hunit⟩
      · rintro ⟨rfl, rfl⟩
        exact ⟨hds, rfl, rfl, hallows, f, hf⟩
    · rw [parse_known (List.cons_ne_nil _ _) hsystem hnumeric (drop_takeWhile (isDigit radix) tail :)
        (fun h => List.cons_ne_nil _ _ h.2) hallows hf, hnumber, parseNumber_digits hradix hds hvalue]

end Prefixed

theorem reads_x {tail : Str} : Reads p ('0' :: 'x' :: tail) n unit ↔ Prefixed p 16 tail n unit := by
  rw [reads_iff]
  constructor
  · rintro (h | h | ⟨tail', htail, h⟩ | ⟨tail', htail, -⟩)
    · exact absurd h (not_omitted_of_digit (by decide))
    · exact absurd h not_fronted_x
    · cases htail
      exact h
    · cases htail
  · exact fun h => Or.inr (Or.inr (Or.inl ⟨tail, rfl, h⟩))

theorem reads_b {tail : Str} : Reads p ('0' :: 'b' :: tail) n unit ↔
    Fronted p ('0' :: 'b' :: tail) n unit ∨ Prefixed p 2 tail n unit := by
  rw [reads_iff]
  constructor
  · rintro (h | h | ⟨tail', htail, -⟩ | ⟨tail', htail, h⟩)
    · exact absurd h (not_omitted_of_digit (by decide))
    · exact Or.inl h
    · cases htail
    · cases htail
      exact Or.inr h
  · rintro (h | h)
    · exact Or.inr (Or.inl h)
    · exact Or.inr (Or.inr (Or.inr ⟨tail, rfl, h⟩))

theorem meets_x (tail : Str) : Meets p total ('0' :: 'x' :: tail) (p.parse quote total ('0' :: 'x' :: tail)) := by
  refine @meets_prefixed quote total p tail 'x' 16 .hexadecimal (by decide) (by decide) (determine_x tail) ?_ ?_ ?_
  · rw [isDigit_sixteen]
    rfl
  · intro size
    rw [Parser.number, trimPairs_eq (not_mem_takeWhile (by decide))]
  · exact fun n unit => reads_x

theorem number_b {tail : Str} (size : Str) : p.number quote .binary ('0' :: 'b' :: tail.takeWhile (isDigit 2)) size =
    parseNumber quote (tail.takeWhile (isDigit 2)) 2 size := by
  rw [Parser.number, trimPairs_eq (not_mem_takeWhile (by decide))]

theorem numericString_b (tail : Str) : numericString .binary ('0' :: 'b' :: tail) =
    '0' :: 'b' :: tail.takeWhile (isDigit 2) := by
  rw [isDigit_two]
  rfl

/-- A zero with a block of bytes is taken for a binary number without digits. -/
theorem meets_b {tail : Str} (hne : tail ≠ []) :
    Meets p total ('0' :: 'b' :: tail) (p.parse quote total ('0' :: 'b' :: tail)) ↔
      ¬ ZeroBlock p ('0' :: 'b' :: tail) := by
  have hx : isDigit 10 'b' = false := by decide
  by_cases hblock : ZeroBlock p ('0' :: 'b' :: tail)
  · refine iff_of_false ?_ (fun h => h hblock)
    obtain ⟨htail, hcount, hallows⟩ := hblock
    cases htail
    refine @not_meets_of_refused total p _ 0 ['b'] _ (fun n' unit' => ?_) 512 (by simp [unitFactors])
      (refused_prefixed hx (determine_b hne) (numericString_b _) number_b (Or.inl (by decide)))
    rw [reads_b, fronted_b hne]
    constructor
    · rintro (⟨-, -, -, hn, hunit⟩ | ⟨hds, -⟩)
      · exact ⟨hn, hunit⟩
      · exact absurd (by decide) hds
    · rintro ⟨hn, hunit⟩
      exact Or.inl ⟨rfl, hcount, hallows, hn, hunit⟩
  · refine iff_of_true ?_ hblock
    refine meets_prefixed hx (by decide) (determine_b hne) (numericString_b _) number_b fun n unit => ?_
    rw [reads_b, fronted_b hne]
    constructor
    · rintro (⟨rfl, hcount, hallows, -⟩ | h)
      · exact absurd ⟨rfl, hcount, hallows⟩ hblock
      · exact h
    · exact Or.inr

/-! ## A single zero -/

theorem takeWhile_front {x : Char} (hx : isDigit 10 x = false) (tail : Str) :
    ('0' :: x :: tail).takeWhile (isDigit 10) = ['0'] := (takeWhile_zero hx).1

theorem not_zerosOnly_of_single (h : size.takeWhile (isDigit 10) = ['0']) : ¬ ZerosOnly p size := by
  rintro ⟨⟨k, hk⟩, -⟩
  rw [h] at hk
  simp [List.replicate_succ] at hk

theorem not_beyondOctal_of_zeros (h : ∀ c ∈ size.takeWhile (isDigit 10), c = '0') : ¬ BeyondOctal p size := by
  rintro ⟨-, -, front, c, back, m, hds, hc, -⟩
  rw [h c (by simp [hds])] at hc
  cases hc

theorem not_beyondOctal_of_single (h : size.takeWhile (isDigit 10) = ['0']) : ¬ BeyondOctal p size :=
  not_beyondOctal_of_zeros (by simp [h])

theorem Rounded.fronted (h : Rounded p total size) : ∃ n, Fronted p size n ['%'] := by
  obtain ⟨hpercent, n, hds, hvalue, -⟩ := h
  exact ⟨n, hds, hpercent.2.symm, Or.inr ⟨by rwa [← hpercent.2], hvalue⟩⟩

theorem plain_x (tail : Str) : Plain p total ('0' :: 'x' :: tail) := by
  have hds := takeWhile_front (show isDigit 10 'x' = false by decide) tail
  refine ⟨not_zerosOnly_of_single hds, ?_, not_beyondOctal_of_single hds, ?_⟩
  · rintro ⟨h, -⟩
    cases h
  · intro h
    obtain ⟨n, hfronted⟩ := h.fronted
    exact not_fronted_x hfronted

theorem plain_b {tail : Str} (hne : tail ≠ []) :
    Plain p total ('0' :: 'b' :: tail) ↔ ¬ ZeroBlock p ('0' :: 'b' :: tail) := by
  have hds := takeWhile_front (show isDigit 10 'b' = false by decide) tail
  refine ⟨Plain.not_zeroBlock, fun h => ⟨not_zerosOnly_of_single hds, h, not_beyondOctal_of_single hds, ?_⟩⟩
  intro hrounded
  obtain ⟨n, hfronted⟩ := hrounded.fronted
  obtain ⟨-, -, -, -, hunit⟩ := (fronted_b hne).1 hfronted
  cases hunit

/-! ## Decimal digits at the front -/

section Digits

variable (hds : size.takeWhile (isDigit 10) ≠ []) (hx : ¬ ['0', 'x'] <+: size)
  (hb : ¬ (['0', 'b'] <+: size ∧ size.drop 2 ≠ []))

theorem head_takeWhile (hds : size.takeWhile (isDigit 10) ≠ []) :
    (size.takeWhile (isDigit 10)).head? = size.head? := by
  cases size with
  | nil => rfl
  | cons c tail =>
    by_cases hc : isDigit 10 c = true
    · rw [List.takeWhile_cons_of_pos hc]
      rfl
    · rw [List.takeWhile_cons_of_neg hc] at hds
      exact absurd rfl hds

theorem number_octal (hds : size.takeWhile (isDigit 10) ≠ []) (hhead : size.head? = some '0')
    (hmany : size.takeWhile (isDigit 10) ≠ ['0']) :
    number (size.takeWhile (isDigit 10)) = value 8 0 (size.takeWhile (isDigit 10)) := by
  rw [number, head_takeWhile hds, if_pos ⟨hhead, hmany⟩]

/-- Zeros with something behind them. -/
theorem zerosOnly_of_zeros (hds : size.takeWhile (isDigit 10) ≠ []) (hknown : p.Known (unitOf p size))
    (hhead : size.head? = some '0') (hmany : size.takeWhile (isDigit 10) ≠ ['0']) (hsome : ∃ c ∈ size, c ≠ '0')
    (hzeros : ∀ c ∈ size.takeWhile (isDigit 10), c = '0') : ZerosOnly p size := by
  obtain ⟨tail, htail⟩ := List.head?_eq_some_iff.1 ((head_takeWhile hds).trans hhead)
  have hlong : 2 ≤ (size.takeWhile (isDigit 10)).length := by
    rw [htail] at hmany ⊢
    cases tail with
    | nil => exact absurd rfl hmany
    | cons c tail => simp
  refine ⟨⟨(size.takeWhile (isDigit 10)).length - 2, ?_⟩, fun hrest => ?_, hknown⟩
  · rw [Nat.sub_add_cancel hlong]
    exact List.eq_replicate_length.2 hzeros
  · obtain ⟨c, hc, hne⟩ := hsome
    rw [← List.takeWhile_append_dropWhile (p := isDigit 10) (l := size), hrest, List.append_nil] at hc
    exact hne (hzeros c hc)

include hds hx hb

theorem reads_digits : Reads p size n unit ↔ Fronted p size n unit := by
  rw [reads_iff]
  constructor
  · rintro (h | h | ⟨tail, rfl, -⟩ | ⟨tail, rfl, h⟩)
    · cases size with
      | nil => exact absurd rfl h.1
      | cons c tail =>
        by_cases hc : isDigit 10 c = true
        · exact absurd h (not_omitted_of_digit (by rwa [← isDigit_ten]))
        · rw [List.takeWhile_cons_of_neg hc] at hds
          exact absurd rfl hds
    · exact h
    · exact absurd ⟨tail, rfl⟩ hx
    · refine absurd ⟨⟨tail, rfl⟩, ?_⟩ hb
      rintro rfl
      exact h.1 rfl
  · exact fun h => Or.inr (Or.inl h)

theorem meets_percentage (hpercent : p.Percent (unitOf p size)) :
    Meets p total size (p.parse quote total size) ↔ ¬ Rounded p total size := by
  have hne : size ≠ [] := fun h => hds (by rw [h]; rfl)
  have hfree : ¬ (p.countsBytes (p.defaulted (size.dropWhile (isDigit 10))) = true ∧
      size.takeWhile (isDigit 10) = []) := fun h => hds h.2
  obtain ⟨n, hvalue⟩ := Radix.exists_value_takeWhile 10 0 size
  have hsystem := determine_digits hx hb
  have hnumeric := @numericString_digits size (determineNumberSystem size) (by rw [hsystem]; split_ifs <;> simp)
  rw [parse_percent hne rfl hnumeric (drop_takeWhile _ _) hfree hpercent,
    meets_percent (n := n) (fun n' unit' => ?_) (percentage_eq hds hvalue)]
  · rw [Rounded]
    simp [hpercent, hds, hvalue]
  · rw [reads_digits hds hx hb, Fronted, hvalue]
    constructor
    · rintro ⟨-, rfl, ⟨⟨-, f, hf⟩, -⟩ | ⟨hunit, hn⟩⟩
      · rw [← unitOf, hpercent.2] at hf
        exact absurd hf percent_not_factor
      · exact ⟨(Option.some.inj hn).symm, hunit.2⟩
    · rintro ⟨rfl, rfl⟩
      exact ⟨hds, hpercent.2.symm, Or.inr ⟨⟨hpercent.2 ▸ hpercent.1, rfl⟩, rfl⟩⟩

/-- The number of a known unit is read in the system of its digits. -/
theorem parse_digits {f : Nat} (hallows : p.allows (unitOf p size) = true)
    (hf : (unitOf p size, f) ∈ unitFactors p.capitalBBytes) : p.parse quote total size =
      (p.number quote (determineNumberSystem size) (size.takeWhile (isDigit 10)) size >>= fun n =>
        if n * f < u128Limit then .ok (n * f) else sizeTooBig quote size) := by
  have hne : size ≠ [] := fun h => hds (by rw [h]; rfl)
  have hsystem := determine_digits hx hb
  have hnumeric := @numericString_digits size (determineNumberSystem size) (by rw [hsystem]; split_ifs <;> simp)
  exact parse_known hne rfl hnumeric (drop_takeWhile _ _) (fun h => hds h.2) hallows hf

theorem reads_known {f m : Nat} (hallows : p.allows (unitOf p size) = true)
    (hf : (unitOf p size, f) ∈ unitFactors p.capitalBBytes) (hnumber : number (size.takeWhile (isDigit 10)) = some m)
    (n' : Nat) (unit' : Str) : Reads p size n' unit' ↔ n' = m ∧ unit' = unitOf p size := by
  rw [reads_digits hds hx hb, Fronted, hnumber]
  constructor
  · rintro ⟨-, rfl, ⟨-, hn⟩ | ⟨hunit, -⟩⟩
    · exact ⟨(Option.some.inj hn).symm, rfl⟩
    · rw [← unitOf] at hunit
      exact absurd (hunit.2 ▸ hf) percent_not_factor
  · rintro ⟨rfl, rfl⟩
    exact ⟨hds, rfl, Or.inl ⟨⟨hallows, f, hf⟩, rfl⟩⟩

theorem not_reads_known {f : Nat} (hf : (unitOf p size, f) ∈ unitFactors p.capitalBBytes)
    (hnumber : number (size.takeWhile (isDigit 10)) = none) (n' : Nat) (unit' : Str) : ¬ Reads p size n' unit' := by
  rw [reads_digits hds hx hb, Fronted, hnumber]
  rintro ⟨-, rfl, ⟨-, hn⟩ | ⟨hunit, -⟩⟩
  · cases hn
  · rw [← unitOf] at hunit
    exact percent_not_factor (hunit.2 ▸ hf)

theorem determine_octal (hhead : size.head? = some '0') (hmany : size.takeWhile (isDigit 10) ≠ ['0'])
    (hsome : ∃ c ∈ size, c ≠ '0') : determineNumberSystem size = .octal := by
  rw [determine_digits hx hb, if_pos]
  refine ⟨hhead, ?_, ?_⟩
  · obtain ⟨tail, htail⟩ := List.head?_eq_some_iff.1 ((head_takeWhile hds).trans hhead)
    rw [htail] at hmany ⊢
    cases tail with
    | nil => exact absurd rfl hmany
    | cons c tail => simp
  · obtain ⟨c, hc, hne⟩ := hsome
    rw [List.all_eq_false]
    exact ⟨c, hc, by simpa using hne⟩

/-- Without its zeros an octal number is read as with them. -/
theorem number_trimmed (hhead : size.head? = some '0') (hmany : size.takeWhile (isDigit 10) ≠ ['0'])
    (hsome : ∃ c ∈ size, c ≠ '0') (hzeros : ¬ ∀ c ∈ size.takeWhile (isDigit 10), c = '0') :
    p.number quote (determineNumberSystem size) (size.takeWhile (isDigit 10)) size =
      parseNumber quote (size.takeWhile (isDigit 10)) 8 size := by
  rw [determine_octal hds hx hb hhead hmany hsome, Parser.number, parseNumber,
    Radix.fromStrRadix_trim (by decide) limit_pos, parseNumber]
  · exact not_mem_takeWhile (by decide)
  · intro h
    exact hzeros (by simpa using List.dropWhile_eq_nil_iff.1 h)

section Known

variable {f : Nat} (hallows : p.allows (unitOf p size) = true) (hf : (unitOf p size, f) ∈ unitFactors p.capitalBBytes)

include hallows hf

/-- A number that is parsed as it is read. -/
theorem meets_of_number {m : Nat} (hnumber : number (size.takeWhile (isDigit 10)) = some m)
    (hparse : p.number quote (determineNumberSystem size) (size.takeWhile (isDigit 10)) size =
      if m < u128Limit then .ok m else sizeTooBig quote size) : Meets p total size (p.parse quote total size) := by
  refine @meets_known quote total p _ m _ _ (reads_known hds hx hb hallows hf hnumber) f hf ?_
  rw [parse_digits hds hx hb hallows hf, hparse]

theorem meets_decimal (hzero : size.head? = some '0' → size.takeWhile (isDigit 10) = ['0']) :
    Meets p total size (p.parse quote total size) := by
  obtain ⟨m, hvalue⟩ := Radix.exists_value_takeWhile 10 0 size
  have hsystem : determineNumberSystem size = .decimal := by
    rw [determine_digits hx hb, if_neg]
    rintro ⟨hhead, hlen, -⟩
    rw [hzero hhead] at hlen
    exact absurd hlen (by decide)
  refine meets_of_number hds hx hb hallows hf (m := m) ?_ ?_
  · rw [number, head_takeWhile hds, if_neg (fun h => h.2 (hzero h.1)), hvalue]
  · rw [hsystem, Parser.number, if_neg (fun h => hds h.1), parseNumber_digits (by decide) hds hvalue]

variable (hhead : size.head? = some '0') (hmany : size.takeWhile (isDigit 10) ≠ ['0'])

include hhead hmany

theorem meets_allZeros (hall : ∀ c ∈ size, c = '0') : Meets p total size (p.parse quote total size) := by
  have hsystem : determineNumberSystem size = .decimal := by
    rw [determine_digits hx hb, if_neg]
    rintro ⟨-, -, hnot⟩
    rw [List.all_eq_true.2 (by simpa using hall)] at hnot
    cases hnot
  have hzeros : size.takeWhile (isDigit 10) = List.replicate (size.takeWhile (isDigit 10)).length '0' :=
    List.eq_replicate_length.2 fun c hc => hall c (List.takeWhile_subset _ hc)
  have hvalue : ∀ radix, 0 < radix → value radix 0 (size.takeWhile (isDigit 10)) = some 0 := by
    intro radix hradix
    have h := Radix.value_zeros hradix (size.takeWhile (isDigit 10)).length []
    rw [List.append_nil, ← hzeros] at h
    exact h
  refine meets_of_number hds hx hb hallows hf (m := 0) ?_ ?_
  · rw [number_octal hds hhead hmany, hvalue 8 (by decide)]
  · rw [hsystem, Parser.number, if_neg (fun h => hds h.1), parseNumber_digits (by decide) hds (hvalue 10 (by decide))]

variable (hsome : ∃ c ∈ size, c ≠ '0')

include hsome

/-- Without its zeros nothing is left of the number. -/
theorem not_meets_zeros (hzeros : ∀ c ∈ size.takeWhile (isDigit 10), c = '0') :
    ¬ Meets p total size (p.parse quote total size) := by
  have htrim : (size.takeWhile (isDigit 10)).dropWhile (· = '0') = [] :=
    List.dropWhile_eq_nil_iff.2 (by simpa using hzeros)
  have hvalue : value 8 0 (size.takeWhile (isDigit 10)) = some 0 := by
    have h := Radix.value_zeros (show 0 < 8 by decide) (size.takeWhile (isDigit 10)).length []
    rw [List.append_nil, ← List.eq_replicate_length.2 hzeros] at h
    exact h
  have hnumber := (number_octal hds hhead hmany).trans hvalue
  refine not_meets_of_refused (reads_known hds hx hb hallows hf hnumber) hf ?_
  rw [parse_digits hds hx hb hallows hf, determine_octal hds hx hb hhead hmany hsome, Parser.number, htrim]
  exact refused_bind refused_parseNumber_nil

theorem meets_octal (hzeros : ¬ ∀ c ∈ size.takeWhile (isDigit 10), c = '0') :
    Meets p total size (p.parse quote total size) ↔ ¬ BeyondOctal p size := by
  have htrimmed := @number_trimmed quote p size hds hx hb hhead hmany hsome hzeros
  have hoctal := number_octal hds hhead hmany
  cases hvalue : value 8 0 (size.takeWhile (isDigit 10)) with
  | some m =>
    refine iff_of_true (meets_of_number hds hx hb hallows hf (hoctal.trans hvalue) ?_) ?_
    · rw [htrimmed, parseNumber_digits (by decide) hds hvalue]
    · rintro ⟨-, -, front, c, back, m', hcut, hc, -⟩
      have hdigit := Radix.digit_of_value hvalue (show c ∈ size.takeWhile (isDigit 10) by simp [hcut])
      rw [hc] at hdigit
      cases hdigit
  | none =>
    have hnone := not_reads_known hds hx hb hf (hoctal.trans hvalue)
    by_cases hbeyond : BeyondOctal p size
    · refine iff_of_false (fun h => ?_) (fun h => h hbeyond)
      obtain ⟨-, -, front, c, back, m, hcut, hc, hm, hlarge⟩ := hbeyond
      have hfront : front ≠ [] := by
        rintro rfl
        cases hm
        exact absurd hlarge (by decide)
      have hbig : p.parse quote total size = sizeTooBig quote size := by
        rw [parse_digits hds hx hb hallows hf, htrimmed, hcut, parseNumber_letter (by decide) hfront hm hc,
          if_neg (Nat.not_lt.2 hlarge)]
        rfl
      obtain ⟨n, unit, hread, -⟩ := h.tooBig_iff.1 ⟨_, hbig⟩
      exact hnone n unit hread
    · refine iff_of_true (meets_of_refused hnone ?_) hbeyond
      obtain ⟨front, m, c, back, hcut, hm, hc⟩ := Radix.exists_of_value_none hvalue
      have hless : m < u128Limit := by
        by_contra hlarge
        exact hbeyond ⟨hhead, ⟨hallows, f, hf⟩, front, c, back, m, hcut, hc, hm, Nat.le_of_not_lt hlarge⟩
      have hfront : front ≠ [] := by
        rintro rfl
        have hfirst := (head_takeWhile hds).trans hhead
        rw [hcut] at hfirst
        cases hfirst
        cases hc
      rw [parse_digits hds hx hb hallows hf, htrimmed, hcut, parseNumber_letter (by decide) hfront hm hc, if_pos hless]
      exact refused_bind ⟨_, rfl, fun _ h => by cases h⟩

end Known

/-- The number of a known unit. -/
theorem meets_number (hknown : p.Known (unitOf p size)) :
    Meets p total size (p.parse quote total size) ↔ ¬ ZerosOnly p size ∧ ¬ BeyondOctal p size := by
  obtain ⟨hallows, f, hf⟩ := id hknown
  by_cases hzero : size.head? = some '0' → size.takeWhile (isDigit 10) = ['0']
  · refine iff_of_true (meets_decimal hds hx hb hallows hf hzero) ⟨?_, ?_⟩
    · rintro ⟨⟨k, hk⟩, -⟩
      have hsingle := hzero (by rw [← head_takeWhile hds, hk]; rfl)
      rw [hk] at hsingle
      simp [List.replicate_succ] at hsingle
    · exact fun h => not_beyondOctal_of_single (hzero h.1) h
  obtain ⟨hhead, hmany⟩ := Classical.not_imp.1 hzero
  by_cases hall : ∀ c ∈ size, c = '0'
  · refine iff_of_true (meets_allZeros hds hx hb hallows hf hhead hmany hall) ⟨?_, ?_⟩
    · rintro ⟨-, hrest, -⟩
      refine hrest (List.dropWhile_eq_nil_iff.2 fun c hc => ?_)
      rw [hall c hc]
      decide
    · exact not_beyondOctal_of_zeros fun c hc => hall c (List.takeWhile_subset _ hc)
  have hsome : ∃ c ∈ size, c ≠ '0' := by simpa using hall
  by_cases hzeros : ∀ c ∈ size.takeWhile (isDigit 10), c = '0'
  · refine iff_of_false (not_meets_zeros hds hx hb hallows hf hhead hmany hsome hzeros) fun h => ?_
    exact h.1 (zerosOnly_of_zeros hds hknown hhead hmany hsome hzeros)
  · rw [meets_octal hds hx hb hallows hf hhead hmany hsome hzeros, iff_and_self]
    rintro - ⟨⟨k, hk⟩, -⟩
    exact hzeros fun c hc => List.eq_of_mem_replicate (hk ▸ hc)

theorem refused_digits (hknown : ¬ p.Known (unitOf p size)) (hpercent : ¬ p.Percent (unitOf p size)) :
    Meets p total size (p.parse quote total size) := by
  have hne : size ≠ [] := fun h => hds (by rw [h]; rfl)
  have hsystem := determine_digits hx hb
  have hnumeric := @numericString_digits size (determineNumberSystem size) (by rw [hsystem]; split_ifs <;> simp)
  refine meets_of_refused (fun n unit h => ?_)
    (parse_refused hne rfl hnumeric (drop_takeWhile _ _) (fun h => hds h.2) hknown hpercent)
  obtain ⟨-, rfl, ⟨hunit, -⟩ | ⟨hunit, -⟩⟩ := (reads_digits hds hx hb).1 h
  · exact hknown hunit
  · exact hpercent hunit

theorem meets_digits : Meets p total size (p.parse quote total size) ↔ Plain p total size := by
  have hblock : ¬ ZeroBlock p size := by
    rintro ⟨rfl, -⟩
    exact hb ⟨by decide, by decide⟩
  by_cases hpercent : p.Percent (unitOf p size)
  · have hknown : ¬ p.Known (unitOf p size) := by
      rintro ⟨-, f, hf⟩
      exact percent_not_factor (hpercent.2 ▸ hf)
    rw [meets_percentage hds hx hb hpercent]
    exact ⟨fun h => ⟨fun hz => hknown hz.2.2, hblock, fun ho => hknown ho.2.1, h⟩, Plain.not_rounded⟩
  have hrounded : ¬ Rounded p total size := fun h => hpercent h.1
  by_cases hknown : p.Known (unitOf p size)
  · rw [meets_number hds hx hb hknown]
    exact ⟨fun h => ⟨h.1, hblock, h.2, hrounded⟩, fun h => ⟨h.not_zerosOnly, h.not_beyondOctal⟩⟩
  · refine iff_of_true (refused_digits hds hx hb hknown hpercent) ?_
    exact ⟨fun h => hknown h.2.2, hblock, fun h => hknown h.2.1, hrounded⟩

end Digits

/-! ## Every size -/

/-- For every string and every setting: a size is parsed as it is read if and only if nothing is in the way. -/
theorem parse_meets_iff (quote : Str → Str) (total : Option Nat) (p : Parser) (size : Str) :
    Meets p total size (p.parse quote total size) ↔ Plain p total size := by
  by_cases hne : size = []
  · subst hne
    refine iff_of_true (meets_of_refused (fun n unit h => ?_) refused_parseFailure) (plain_omitted rfl)
    exact ((reads_omitted rfl).1 h).1 rfl
  by_cases hds : size.takeWhile (isDigit 10) = []
  · exact iff_of_true (meets_omitted hds hne) (plain_omitted hds)
  by_cases hx : ['0', 'x'] <+: size
  · obtain ⟨tail, rfl⟩ := hx
    exact iff_of_true (meets_x tail) (plain_x tail)
  by_cases hb : ['0', 'b'] <+: size ∧ size.drop 2 ≠ []
  · obtain ⟨⟨tail, rfl⟩, htail⟩ := hb
    exact (meets_b htail).trans (plain_b htail).symm
  · exact meets_digits hds hx hb

/-- "00K" is no size, though it is nought times 1024. -/
theorem zeros_with_unit : ¬ Meets {} none ['0', '0', 'K'] (Parser.parse id none {} ['0', '0', 'K']) := by
  intro h
  have hread : Reads {} ['0', '0', 'K'] 0 ['K'] :=
    .number rfl (@Numeral.octal ['K'] ['0'] 0 (by decide) (by decide)) ⟨rfl, 1024, by decide +kernel⟩
  have hamount : Amount {} none 0 ['K'] 0 := @Amount.product {} none 0 ['K'] 1024 (by decide +kernel)
  have hok := (h.ok_iff 0).2 ⟨0, ['K'], hread, by decide, hamount, by decide⟩
  have hrun : Parser.parse id none {} ['0', '0', 'K'] = .error (.err (.parseFailure ['0', '0', 'K'])) := by
    decide +kernel
  rw [hrun] at hok
  cases hok

end Peiosutils.ParseSize
