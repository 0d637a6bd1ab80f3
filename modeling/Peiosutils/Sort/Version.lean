import Peiosutils.Lib.Lexical
import Peiosutils.Sort.Strings

/-!
# The order of versions (`version_cmp.rs`)

`version_cmp` never panics (`versionCmpChecked_eq`), and its loop is a linear order of keys (`versionLoop_eq`). Which
texts it compares depends on the pair, so that it is not transitive: `version_cmp_transitive_iff` says for which three
texts.
-/

set_option autoImplicit false

namespace Peiosutils.Sort.Key

open Ascii Lexical

/-! ## Slices and panics -/

/-- `&a[start..stop]`; no value is a panic. -/
def sliceChecked (a : List UInt8) (start stop : Nat) : Option (List UInt8) :=
  if start ≤ stop ∧ stop ≤ a.length then some ((a.take stop).drop start) else none

def removeFileEndingChecked (a : List UInt8) : Option (List UInt8) :=
  match endingFrom a 0 none false with
  | (some endingStart, false) => sliceChecked a 0 endingStart
  | _ => some a

/-- The loop of `version_cmp`, with at most `passes` passes. -/
def versionLoopChecked : (passes : Nat) → (a b : List UInt8) → Option Ordering
  | 0, _, _ => none
  | passes + 1, a, b =>
    if a = [] ∧ b = [] then some .eq
    else do
      let aNumericalStart := a.findIdx isDigit
      let bNumericalStart := b.findIdx isDigit
      let aStr ← sliceChecked a 0 aNumericalStart
      let bStr ← sliceChecked b 0 bNumericalStart
      if versionNonDigitCmp aStr bStr ≠ .eq then return versionNonDigitCmp aStr bStr
      else
        let a ← sliceChecked a aNumericalStart a.length
        let b ← sliceChecked b aNumericalStart b.length
        let aNumericalEnd := a.findIdx (!isDigit ·)
        let bNumericalEnd := b.findIdx (!isDigit ·)
        let aStr ← sliceChecked a (a.findIdx (· ≠ 48)) aNumericalEnd
        let bStr ← sliceChecked b (b.findIdx (· ≠ 48)) bNumericalEnd
        if compare aStr.length bStr.length ≠ .eq then return compare aStr.length bStr.length
        else if compare aStr bStr ≠ .eq then return compare aStr bStr
        else
          let a ← sliceChecked a aNumericalEnd a.length
          let b ← sliceChecked b bNumericalEnd b.length
          versionLoopChecked passes a b

/-- The special case of one text: both being it is unreachable. -/
def specialCase (isA isB : Bool) (otherwise : Option Ordering) : Option Ordering :=
  match isA, isB with
  | true, false => some .lt
  | false, true => some .gt
  | true, true => none
  | false, false => otherwise

/-- `version_cmp` behind its special cases. -/
def strippedCmpChecked (a b : List UInt8) : Option Ordering := do
  let aStripped ← removeFileEndingChecked a
  let bStripped ← removeFileEndingChecked b
  if aStripped = bStripped then versionLoopChecked (a.length + b.length + 1) a b
  else versionLoopChecked (a.length + b.length + 1) aStripped bStripped

/-- `version_cmp`, with its slices and its unreachable cases. -/
def versionCmpChecked (a b : List UInt8) : Option Ordering :=
  if compare a b = .eq then some .eq
  else
    specialCase (a = []) (b = []) <| specialCase (a = [46]) (b = [46]) <| specialCase (a = [46, 46]) (b = [46, 46]) <|
      match decide (a.head? = some 46), decide (b.head? = some 46) with
      | true, false => some .lt
      | false, true => some .gt
      | true, true => do
        let a ← sliceChecked a 1 a.length
        let b ← sliceChecked b 1 b.length
        strippedCmpChecked a b
      | false, false => strippedCmpChecked a b

/-! ## No panic -/

theorem sliceChecked_take {a : List UInt8} {stop : Nat} (h : stop ≤ a.length) :
    sliceChecked a 0 stop = some (a.take stop) := by
  rw [sliceChecked, if_pos ⟨Nat.zero_le _, h⟩, List.drop_zero]

theorem sliceChecked_drop {a : List UInt8} {start : Nat} (h : start ≤ a.length) :
    sliceChecked a start a.length = some (a.drop start) := by
  rw [sliceChecked, if_pos ⟨h, le_refl _⟩, List.take_length]

/-- The zeros in front of a number end in front of its end. -/
theorem findIdx_zeros_le (a : List UInt8) : a.findIdx (· ≠ 48) ≤ a.findIdx (!isDigit ·) := by
  induction a with
  | nil => exact le_refl _
  | cons c a ih =>
    rw [List.findIdx_cons, List.findIdx_cons]
    by_cases hc : c = 48
    · subst hc
      simpa [isDigit] using ih
    · simp [hc]

theorem sliceChecked_number (a : List UInt8) : sliceChecked a (a.findIdx (· ≠ 48)) (a.findIdx (!isDigit ·)) =
    some ((a.take (a.findIdx (!isDigit ·))).drop (a.findIdx (· ≠ 48))) := by
  rw [sliceChecked, if_pos ⟨findIdx_zeros_le a, List.findIdx_le_length⟩]

/-- An ending starts inside the text. -/
theorem endingFrom_le (a : List UInt8) : ∀ idx endingStart prevWasDot, (∀ i ∈ endingStart, i ≤ idx) →
    ∀ i ∈ (endingFrom a idx endingStart prevWasDot).1, i ≤ idx + a.length := by
  induction a with
  | nil => exact fun idx endingStart prevWasDot h i hi => h i hi
  | cons c a ih =>
    intro idx endingStart prevWasDot h i hi
    have hlen : idx + (c :: a).length = idx + 1 + a.length := by
      rw [List.length_cons]
      omega
    have hlater : ∀ i ∈ endingStart, i ≤ idx + 1 := fun i hi => (h i hi).trans (Nat.le_succ idx)
    rw [hlen]
    rw [endingFrom] at hi
    split at hi
    · refine ih _ _ _ (fun j hj => ?_) i hi
      split at hj
      · cases hj
        exact Nat.le_succ idx
      · exact hlater j hj
    · split at hi
      · refine ih _ _ _ (fun j hj => ?_) i hi
        split at hj
        · cases hj
        · exact hlater j hj
      · refine ih _ _ _ (fun j hj => ?_) i hi
        split at hj
        · cases hj
        · exact hlater j hj

theorem removeFileEndingChecked_eq (a : List UInt8) : removeFileEndingChecked a = some (removeFileEnding a) := by
  have hle := endingFrom_le a 0 none false (by simp)
  unfold removeFileEndingChecked removeFileEnding
  rcases he : endingFrom a 0 none false with ⟨endingStart | endingStart, dot | dot⟩
  · rfl
  · rfl
  · rw [he] at hle
    exact sliceChecked_take (by simpa using hle endingStart rfl)
  · rfl

theorem length_removeFileEnding_le (a : List UInt8) : (removeFileEnding a).length ≤ a.length := by
  unfold removeFileEnding
  split
  · exact List.length_take_le' _ _
  · exact le_refl _

theorem length_afterNumber_add_lt {a b : List UInt8} (h : ¬ (a = [] ∧ b = [])) :
    (afterNumber a).length + (afterNumber b).length < a.length + b.length := by
  have hle : ∀ a : List UInt8, (afterNumber a).length ≤ a.length := fun a => by
    unfold afterNumber
    rw [List.length_drop, List.length_drop]
    omega
  have ha := hle a
  have hb := hle b
  by_cases hnil : a = []
  · have := length_afterNumber_lt fun hb => h ⟨hnil, hb⟩
    omega
  · have := length_afterNumber_lt hnil
    omega

/-- Enough passes end the loop, without a panic. -/
theorem versionLoopChecked_eq (passes : Nat) : ∀ a b : List UInt8, a.length + b.length < passes →
    versionLoopChecked passes a b = some (versionLoop a b) := by
  induction passes with
  | zero => exact fun a b h => absurd h (Nat.not_lt_zero _)
  | succ passes ih =>
    intro a b hlt
    rw [versionLoopChecked, versionLoop]
    by_cases hempty : a = [] ∧ b = []
    · rw [if_pos hempty, dif_pos hempty]
    rw [if_neg hempty, dif_neg hempty]
    simp only [sliceChecked_take List.findIdx_le_length, Option.bind_eq_bind, Option.bind_some]
    by_cases hstr : versionNonDigitCmp (a.take (a.findIdx isDigit)) (b.take (b.findIdx isDigit)) ≠ .eq
    · rw [if_pos hstr, dif_pos hstr]
      rfl
    rw [if_neg hstr, dif_neg hstr]
    have hidx := findIdx_eq_of_take_eq (versionNonDigitCmp_eq (not_not.1 hstr))
    have hb : a.findIdx isDigit ≤ b.length := hidx ▸ List.findIdx_le_length
    simp only [sliceChecked_drop List.findIdx_le_length, sliceChecked_drop hb, Option.bind_some, sliceChecked_number]
    split
    · rfl
    split
    · rfl
    refine ih _ _ ?_
    show (afterNumber a).length + ((b.drop (a.findIdx isDigit)).drop
      ((b.drop (a.findIdx isDigit)).findIdx (!isDigit ·))).length < passes
    rw [hidx]
    show (afterNumber a).length + (afterNumber b).length < passes
    have := length_afterNumber_add_lt hempty
    omega

/-! ## The keys -/

/-- The order of the bytes of a part without digits. -/
def byteRank (c : UInt8) : Nat := if c = 126 then 0 else if isAlphabetic c then 2 + c.toNat else 256 + c.toNat

/-- A part without digits; its end is 1. -/
def nonDigitKey (a : List UInt8) : List Nat := a.map byteRank ++ [1]

/-- The part without digits in front of the first number. -/
def leadingText (a : List UInt8) : List UInt8 := a.take (a.findIdx isDigit)

/-- The digits of the first number, without zeros in front. -/
def leadingDigits (a : List UInt8) : List UInt8 :=
  ((a.drop (a.findIdx isDigit)).take ((a.drop (a.findIdx isDigit)).findIdx (!isDigit ·))).drop
    ((a.drop (a.findIdx isDigit)).findIdx (· ≠ 48))

/-- The part in front of the first number, and the number; it is 0 where there is none. -/
def versionPart (a : List UInt8) : List Nat ×ₗ Nat :=
  toLex (nonDigitKey (leadingText a), value ((leadingDigits a).map digit))

/-- The parts of a version, one after the other; behind the text they are empty. -/
def versionParts (a : List UInt8) (i : Nat) : List Nat ×ₗ Nat := versionPart (afterNumber^[i] a)

/-- The parts, in the order in which the first that differ decide. -/
def versionKey (a : List UInt8) : Lex (ℕ → List Nat ×ₗ Nat) := toLex (versionParts a)

theorem byteRank_ne_one (c : UInt8) : byteRank c ≠ 1 := by
  unfold byteRank
  split
  · decide
  · split <;> omega

theorem toNat_of_isAlphabetic {c : UInt8} (h : isAlphabetic c = true) : c.toNat ≤ 122 := by
  simp only [isAlphabetic, isUpper, isLower, Bool.or_eq_true, Bool.and_eq_true, decide_eq_true_eq,
    UInt8.le_iff_toNat_le] at h
  rcases h with ⟨_, h⟩ | ⟨_, h⟩
  · exact h.trans (by decide)
  · exact h

theorem compare_toNat (c d : UInt8) : compare c d = order c.toNat d.toNat := by
  show compare c d = compare c.toNat d.toNat
  simp only [compare, compareOfLessAndEq, UInt8.lt_iff_toNat_lt, ← UInt8.toNat_inj]

theorem order_add (n a b : Nat) : order (n + a) (n + b) = order a b := by
  rcases lt_trichotomy a b with h | rfl | h
  · rw [order_lt.2 h, order_lt]
    omega
  · rw [order_eq.2 rfl, order_eq.2 rfl]
  · rw [order_gt.2 h, order_gt]
    omega

/-- Where neither byte is a tilde, the letters come first, and then the numbers of the bytes decide. -/
theorem order_byteRank {c d : UInt8} (hc : c ≠ 126) (hd : d ≠ 126) : order (byteRank c) (byteRank d) =
    if isAlphabetic c && !isAlphabetic d then .lt
    else if !isAlphabetic c && isAlphabetic d then .gt
    else compare c d := by
  rw [byteRank, byteRank, if_neg hc, if_neg hd]
  by_cases hac : isAlphabetic c = true <;> by_cases had : isAlphabetic d = true
  · simp [hac, had, order_add, compare_toNat]
  · have hle := toNat_of_isAlphabetic hac
    simp only [hac, had, if_true, if_false, Bool.not_false, Bool.and_self, Bool.false_eq_true]
    exact order_lt.2 (by omega)
  · have hle := toNat_of_isAlphabetic had
    simp only [hac, had, if_true, if_false, Bool.not_false, Bool.not_true, Bool.and_self, Bool.false_eq_true]
    exact order_gt.2 (by omega)
  · simp [hac, had, order_add, compare_toNat]

theorem byteRank_tilde {c : UInt8} : byteRank c = 0 ↔ c = 126 := by
  unfold byteRank
  split
  · simpa
  · split <;> simp_all

theorem byteRank_injective : Function.Injective byteRank := by
  intro c d h
  by_cases hc : c = 126
  · rw [hc, byteRank_tilde.2 rfl] at h
    rw [hc, byteRank_tilde.1 h.symm]
  · by_cases hd : d = 126
    · rw [hd, byteRank_tilde.2 rfl] at h
      rw [hd, byteRank_tilde.1 h]
    · have horder := order_byteRank hc hd
      rw [order_eq.2 h] at horder
      split at horder
      · cases horder
      · split at horder
        · cases horder
        · exact Std.LawfulEqOrd.eq_of_compare horder.symm

theorem versionNonDigitCmp_nil_cons (d : UInt8) (bs : List UInt8) :
    versionNonDigitCmp [] (d :: bs) = if d = 126 then .gt else .lt := by
  rw [versionNonDigitCmp.eq_def]
  split <;> simp_all

theorem versionNonDigitCmp_cons_nil (c : UInt8) (as : List UInt8) :
    versionNonDigitCmp (c :: as) [] = if c = 126 then .lt else .gt := by
  rw [versionNonDigitCmp.eq_def]
  split <;> simp_all

/-- The first byte of a part against the end of the other. -/
theorem order_byteRank_end (c : UInt8) : order (byteRank c) 1 = if c = 126 then .lt else .gt := by
  have hne := byteRank_ne_one c
  split
  · rename_i hc
    exact order_lt.2 (by rw [byteRank_tilde.2 hc]; decide)
  · rename_i hc
    have hpos : byteRank c ≠ 0 := fun h => hc (byteRank_tilde.1 h)
    exact order_gt.2 (by omega)

/-- The parts without digits are in the order of their keys. -/
theorem versionNonDigitCmp_key (a b : List UInt8) :
    versionNonDigitCmp a b = order (nonDigitKey a) (nonDigitKey b) := by
  induction a generalizing b with
  | nil =>
    cases b with
    | nil => exact (order_eq.2 rfl).symm
    | cons d bs =>
      rw [versionNonDigitCmp_nil_cons, ← order_swap, nonDigitKey, nonDigitKey, List.map_cons, List.cons_append,
        List.map_nil, List.nil_append, order_cons, order_byteRank_end]
      split <;> rfl
  | cons c as ih =>
    cases b with
    | nil =>
      rw [versionNonDigitCmp_cons_nil, nonDigitKey, nonDigitKey, List.map_cons, List.cons_append, List.map_nil,
        List.nil_append, order_cons, order_byteRank_end]
      split <;> rfl
    | cons d bs =>
      have hkeys : order (nonDigitKey (c :: as)) (nonDigitKey (d :: bs)) =
          (order (byteRank c) (byteRank d)).then (versionNonDigitCmp as bs) := by
        rw [nonDigitKey, nonDigitKey, List.map_cons, List.map_cons, List.cons_append, List.cons_append, order_cons, ih]
        rfl
      rw [versionNonDigitCmp, hkeys]
      by_cases heq : c = d
      · rw [if_pos heq, then_of_eq (order_eq.2 (by rw [heq]))]
      rw [if_neg heq]
      have hne : order (byteRank c) (byteRank d) ≠ .eq := fun h => heq (byteRank_injective (order_eq.1 h))
      rw [then_of_ne hne]
      by_cases hd : d = 126
      · have hc : byteRank c ≠ 0 := fun h => heq ((byteRank_tilde.1 h).trans hd.symm)
        rw [if_pos hd, byteRank_tilde.2 hd, order_gt.2 (by omega)]
      rw [if_neg hd]
      by_cases hc : c = 126
      · have hd' : byteRank d ≠ 0 := fun h => hd (byteRank_tilde.1 h)
        rw [if_pos hc, byteRank_tilde.2 hc, order_lt.2 (by omega)]
      · rw [if_neg hc, order_byteRank hc hd]

/-! ## The loop compares the keys -/

/-- The digits at the front, without zeros in front. -/
theorem drop_zeros (n : List UInt8) : (n.take (n.findIdx (!isDigit ·))).drop (n.findIdx (· ≠ 48)) =
    (n.takeWhile isDigit).dropWhile (· = 48) := by
  induction n with
  | nil => rfl
  | cons c n ih =>
    by_cases hc : c = 48
    · subst hc
      simpa [List.findIdx_cons, isDigit] using ih
    · rw [List.takeWhile_eq_take_findIdx_not]
      by_cases hd : isDigit c = true
      · simp [List.findIdx_cons, hc, hd]
      · simp [List.findIdx_cons, hc, hd]

theorem isDigit_of_mem {a : List UInt8} {c : UInt8} (h : c ∈ leadingDigits a) : isDigit c = true := by
  rw [leadingDigits, drop_zeros] at h
  exact List.all_eq_true.1 List.all_takeWhile c ((List.dropWhile_suffix _).subset h)

theorem digits_lt (a : List UInt8) : ∀ d ∈ (leadingDigits a).map digit, d < 10 := by
  intro d hd
  obtain ⟨c, hc, rfl⟩ := List.mem_map.1 hd
  exact digit_lt (isDigit_of_mem hc)

theorem leadingDigits_head (a : List UInt8) : ((leadingDigits a).map digit).head? ≠ some 0 := by
  intro h
  rw [List.head?_map, Option.map_eq_some_iff] at h
  obtain ⟨c, hc, hzero⟩ := h
  have hmem : c ∈ leadingDigits a := List.mem_of_head? hc
  rw [leadingDigits, drop_zeros] at hc
  have hhead := List.head?_dropWhile_not (fun c : UInt8 => decide (c = 48))
    ((a.drop (a.findIdx isDigit)).takeWhile isDigit)
  rw [hc] at hhead
  exact absurd ((digit_eq_zero (isDigit_of_mem hmem)).1 hzero) (by simpa using hhead)

/-- Numbers are compared by how many digits they have, and then by these. -/
theorem order_leadingDigits (a b : List UInt8) :
    order (value ((leadingDigits a).map digit)) (value ((leadingDigits b).map digit)) =
      if compare (leadingDigits a).length (leadingDigits b).length ≠ .eq then
        compare (leadingDigits a).length (leadingDigits b).length
      else compare (leadingDigits a) (leadingDigits b) := by
  rcases Nat.lt_trichotomy (leadingDigits a).length (leadingDigits b).length with h | h | h
  · rw [Nat.compare_eq_lt.2 h, if_pos (by decide), order_lt]
    exact value_lt_of_length_lt (digits_lt a) (leadingDigits_head b) (by simpa using h)
  · rw [Nat.compare_eq_eq.2 h, if_neg (by decide), List.compare_eq_compareLex]
    refine (compareLex_digits h (fun c hc => digit_lt (isDigit_of_mem hc)) (fun c hc => digit_lt (isDigit_of_mem hc))
      fun c hc d hd => ?_).symm
    exact (compare_digit (isDigit_of_mem hc) (isDigit_of_mem hd)).symm
  · rw [Nat.compare_eq_gt.2 h, if_pos (by decide), order_gt]
    exact value_lt_of_length_lt (digits_lt b) (leadingDigits_head a) (by simpa using h)

/-- The first parts decide, or else what is behind them. -/
theorem order_versionKey (a b : List UInt8) : order (versionKey a) (versionKey b) =
    (order (versionPart a) (versionPart b)).then (order (versionKey (afterNumber a)) (versionKey (afterNumber b))) :=
  order_seq (versionParts a) (versionParts b)

theorem versionLoop_of_length (n : Nat) : ∀ a b : List UInt8, a.length + b.length ≤ n →
    versionLoop a b = order (versionKey a) (versionKey b) := by
  induction n with
  | zero =>
    intro a b h
    obtain rfl : a = [] := List.eq_nil_of_length_eq_zero (by omega)
    obtain rfl : b = [] := List.eq_nil_of_length_eq_zero (by omega)
    rw [versionLoop, dif_pos ⟨rfl, rfl⟩, order_eq.2 rfl]
  | succ n ih =>
    intro a b hle
    rw [versionLoop]
    by_cases hempty : a = [] ∧ b = []
    · rw [dif_pos hempty, hempty.1, hempty.2, order_eq.2 rfl]
    have hpart : order (versionPart a) (versionPart b) = (versionNonDigitCmp (leadingText a) (leadingText b)).then
        (order (value ((leadingDigits a).map digit)) (value ((leadingDigits b).map digit))) := by
      rw [versionPart, versionPart, order_pair, versionNonDigitCmp_key]
    rw [dif_neg hempty, order_versionKey, hpart]
    change (if _hstr : versionNonDigitCmp (leadingText a) (leadingText b) ≠ .eq then
      versionNonDigitCmp (leadingText a) (leadingText b) else _) = _
    by_cases hstr : versionNonDigitCmp (leadingText a) (leadingText b) = .eq
    · rw [dif_neg (not_not.2 hstr), then_of_eq hstr]
      have hidx := findIdx_eq_of_take_eq (versionNonDigitCmp_eq hstr)
      have hrest := ih (afterNumber a) (afterNumber b) (by have := length_afterNumber_add_lt hempty; omega)
      have hb : b.drop (a.findIdx isDigit) = b.drop (b.findIdx isDigit) := by rw [hidx]
      rw [order_leadingDigits, ← hrest]
      dsimp only
      rw [hb]
      change (if compare (leadingDigits a).length (leadingDigits b).length ≠ .eq then
          compare (leadingDigits a).length (leadingDigits b).length
        else if compare (leadingDigits a) (leadingDigits b) ≠ .eq then compare (leadingDigits a) (leadingDigits b)
        else versionLoop (afterNumber a) (afterNumber b)) = _
      by_cases hlen : compare (leadingDigits a).length (leadingDigits b).length = .eq
      · rw [if_neg (not_not.2 hlen), if_neg (not_not.2 hlen)]
        exact ite_ne_eq_then _ _
      · rw [if_pos hlen, if_pos hlen, then_of_ne hlen]
    · rw [dif_pos hstr, then_of_ne hstr, then_of_ne hstr]

/-- The loop compares the keys. -/
theorem versionLoop_eq (a b : List UInt8) : versionLoop a b = order (versionKey a) (versionKey b) :=
  versionLoop_of_length _ a b (le_refl _)

/-! ## The order -/

/-- The special cases, in their order: the empty text, one dot, two dots, a dot in front, and all others. -/
def versionClass (a : List UInt8) : Nat :=
  if a = [] then 0 else if a = [46] then 1 else if a = [46, 46] then 2 else if a.head? = some 46 then 3 else 4

/-- Without the dot in front. -/
def undotted (a : List UInt8) : List UInt8 := if a.head? = some 46 then a.tail else a

/-- What decides between two texts of a class. -/
def strippedCmp (a b : List UInt8) : Ordering :=
  if removeFileEnding a = removeFileEnding b then versionLoop a b
  else versionLoop (removeFileEnding a) (removeFileEnding b)

theorem strippedCmpChecked_eq (a b : List UInt8) : strippedCmpChecked a b = some (strippedCmp a b) := by
  have ha := length_removeFileEnding_le a
  have hb := length_removeFileEnding_le b
  simp only [strippedCmpChecked, removeFileEndingChecked_eq, Option.bind_eq_bind, Option.bind_some]
  rw [versionLoopChecked_eq _ a b (by omega), versionLoopChecked_eq _ _ _ (by omega), strippedCmp]
  split <;> rfl

/-- One special case, and then the classes behind it. -/
theorem specialCase_eq {a b t : List UInt8} {k m n : Nat} {o p : Ordering} (hne : a ≠ b) (hm : k < m) (hn : k < n)
    (h : o = (order m n).then p) : (if a = t then .lt else if b = t then .gt else o) =
      (order (if a = t then k else m) (if b = t then k else n)).then p := by
  by_cases ha : a = t
  · have hb : b ≠ t := fun hb => hne (ha.trans hb.symm)
    rw [if_pos ha, if_pos ha, if_neg hb, order_lt.2 hn]
    rfl
  · rw [if_neg ha, if_neg ha]
    by_cases hb : b = t
    · rw [if_pos hb, if_pos hb, order_gt.2 hm]
      rfl
    · rw [if_neg hb, if_neg hb, h]

theorem specialCase_some {a b t : List UInt8} {o : Ordering} (hne : a ≠ b) :
    specialCase (a = t) (b = t) (some o) = some (if a = t then .lt else if b = t then .gt else o) := by
  by_cases ha : a = t
  · have hb : b ≠ t := fun hb => hne (ha.trans hb.symm)
    simp [specialCase, ha, hb]
  · by_cases hb : b = t <;> simp [specialCase, ha, hb]

theorem strippedCmp_self (a : List UInt8) : strippedCmp a a = .eq := by
  rw [strippedCmp, if_pos rfl, versionLoop_eq, order_eq]

/-- The class decides, or else what is left of the texts. -/
theorem versionCmp_eq (a b : List UInt8) :
    versionCmp a b = (order (versionClass a) (versionClass b)).then (strippedCmp (undotted a) (undotted b)) := by
  by_cases hne : a = b
  · rw [hne, versionCmp_self, then_of_eq (order_eq.2 rfl), strippedCmp_self]
  have hcmp : ¬ compare a b = .eq := fun h => hne (Std.LawfulEqOrd.eq_of_compare h)
  rw [versionCmp, if_neg hcmp]
  refine specialCase_eq hne (by split_ifs <;> decide) (by split_ifs <;> decide) ?_
  refine specialCase_eq hne (by split_ifs <;> decide) (by split_ifs <;> decide) ?_
  refine specialCase_eq hne (by split_ifs <;> decide) (by split_ifs <;> decide) ?_
  by_cases ha : a.head? = some 46 <;> by_cases hb : b.head? = some 46
  · simp only [ha, hb, undotted, strippedCmp, ne_eq, not_true, and_false, if_false, false_and, if_true]
    rw [then_of_eq (order_eq.2 rfl)]
  · simp [ha, hb, order_lt.2 (show 3 < 4 by decide)]
  · simp [ha, hb, order_gt.2 (show 3 < 4 by decide)]
  · simp only [ha, hb, undotted, strippedCmp, ne_eq, not_false_iff, and_false, if_false, false_and]
    rw [then_of_eq (order_eq.2 rfl)]

/-- `version_cmp` never panics. -/
theorem versionCmpChecked_eq (a b : List UInt8) : versionCmpChecked a b = some (versionCmp a b) := by
  unfold versionCmpChecked versionCmp
  by_cases hcmp : compare a b = .eq
  · rw [if_pos hcmp, if_pos hcmp]
  have hne : a ≠ b := fun h => hcmp (by rw [h]; exact Std.ReflOrd.compare_self)
  rw [if_neg hcmp, if_neg hcmp]
  have hdot : ∀ c : List UInt8, c.head? = some 46 → sliceChecked c 1 c.length = some c.tail := by
    intro c hc
    have hpos : 1 ≤ c.length := List.length_pos_of_ne_nil fun h => by simp [h] at hc
    rw [sliceChecked_drop hpos, List.drop_one]
  have hrest : (match decide (a.head? = some 46), decide (b.head? = some 46) with
      | true, false => some .lt
      | false, true => some .gt
      | true, true => do
        let a ← sliceChecked a 1 a.length
        let b ← sliceChecked b 1 b.length
        strippedCmpChecked a b
      | false, false => strippedCmpChecked a b) =
      some (if a.head? = some 46 ∧ b.head? ≠ some 46 then .lt
        else if a.head? ≠ some 46 ∧ b.head? = some 46 then .gt
        else strippedCmp (undotted a) (undotted b)) := by
    by_cases ha : a.head? = some 46 <;> by_cases hb : b.head? = some 46
    · simp [ha, hb, hdot a ha, hdot b hb, strippedCmpChecked_eq, undotted]
    · simp [ha, hb]
    · simp [ha, hb]
    · simp [ha, hb, strippedCmpChecked_eq, undotted]
  rw [hrest, specialCase_some hne, specialCase_some hne, specialCase_some hne]
  rfl

/-- The text without its file ending, and without a dot in front. -/
def stem (a : List UInt8) : List UInt8 := removeFileEnding (undotted a)

/-- Not greater: by the class, or by the full texts where the stems are one, or by the stems. -/
theorem versionCmp_ne_gt (a b : List UInt8) : versionCmp a b ≠ .gt ↔ versionClass a < versionClass b ∨
    versionClass a = versionClass b ∧ (stem a = stem b ∧ versionKey (undotted a) ≤ versionKey (undotted b) ∨
      stem a ≠ stem b ∧ versionKey (stem a) ≤ versionKey (stem b)) := by
  have hstripped : strippedCmp (undotted a) (undotted b) ≠ .gt ↔
      (stem a = stem b ∧ versionKey (undotted a) ≤ versionKey (undotted b) ∨
        stem a ≠ stem b ∧ versionKey (stem a) ≤ versionKey (stem b)) := by
    unfold strippedCmp
    by_cases h : stem a = stem b
    · have h' : removeFileEnding (undotted a) = removeFileEnding (undotted b) := h
      rw [if_pos h', versionLoop_eq, order_ne_gt]
      simp [h]
    · have h' : ¬ removeFileEnding (undotted a) = removeFileEnding (undotted b) := h
      rw [if_neg h', versionLoop_eq, order_ne_gt]
      simp only [h, false_and, ne_eq, not_false_iff, true_and, false_or]
      rfl
  rw [versionCmp_eq]
  rcases lt_trichotomy (versionClass a) (versionClass b) with h | h | h
  · rw [order_lt.2 h]
    refine ⟨fun _ => .inl h, fun _ hgt => ?_⟩
    cases hgt
  · rw [then_of_eq (order_eq.2 h), hstripped]
    exact ⟨fun hs => .inr ⟨h, hs⟩, fun hs => hs.elim (fun hlt => absurd hlt (h ▸ lt_irrefl _)) And.right⟩
  · rw [order_gt.2 h]
    refine ⟨fun hs => absurd rfl hs, fun hs => ?_⟩
    rcases hs with hlt | ⟨heq, _⟩
    · exact absurd hlt (not_lt.2 h.le)
    · exact absurd heq h.ne'

theorem versionCmp_swap (a b : List UInt8) : (versionCmp a b).swap = versionCmp b a := by
  have hstripped : (strippedCmp (undotted a) (undotted b)).swap = strippedCmp (undotted b) (undotted a) := by
    unfold strippedCmp
    by_cases h : removeFileEnding (undotted a) = removeFileEnding (undotted b)
    · rw [if_pos h, if_pos h.symm, versionLoop_eq, versionLoop_eq, order_swap]
    · rw [if_neg h, if_neg fun h' => h h'.symm, versionLoop_eq, versionLoop_eq, order_swap]
  rw [versionCmp_eq, versionCmp_eq, Ordering.swap_then, order_swap, hstripped]

/-! ## Where it is not transitive -/

/-- What the sorting of versions needs of `version_cmp`, for three texts. -/
structure Preordered (a b c : List UInt8) : Prop where
  intro ::
  value : ∃ ord, versionCmpChecked a b = some ord
  reversed : ∀ ord, versionCmpChecked a b = some ord → versionCmpChecked b a = some ord.swap
  transitive : versionCmpChecked a b ≠ some .gt → versionCmpChecked b c ≠ some .gt → versionCmpChecked a c ≠ some .gt

/-- The outer texts have one stem, and are in the other order with their endings; the stem in the middle is another
text of the same key, as where a number has a zero in front. -/
structure Misordered (a b c : List UInt8) : Prop where
  intro ::
  classes : versionClass a = versionClass b ∧ versionClass b = versionClass c
  outer : stem a = stem c
  middle : stem a ≠ stem b
  keys : versionKey (stem a) = versionKey (stem b)
  full : versionKey (undotted c) < versionKey (undotted a)

/-- Three texts are compared as by a total preorder unless they are of this kind. -/
theorem version_cmp_transitive_iff (a b c : List UInt8) : Preordered a b c ↔ ¬ Misordered a b c := by
  have hsome : ∀ x y, versionCmpChecked x y ≠ some .gt ↔ versionCmp x y ≠ .gt := fun x y => by
    rw [versionCmpChecked_eq, ne_eq, Option.some.injEq]
  constructor
  · rintro ⟨_, _, htrans⟩ ⟨⟨hab, hbc⟩, houter, hmiddle, hkeys, hfull⟩
    have h₁ : versionCmp a b ≠ .gt := (versionCmp_ne_gt a b).2 (.inr ⟨hab, .inr ⟨hmiddle, hkeys.le⟩⟩)
    have h₂ : versionCmp b c ≠ .gt :=
      (versionCmp_ne_gt b c).2 (.inr ⟨hbc, .inr ⟨houter ▸ hmiddle.symm, houter ▸ hkeys.ge⟩⟩)
    have h₃ := (versionCmp_ne_gt a c).1 ((hsome a c).1 (htrans ((hsome a b).2 h₁) ((hsome b c).2 h₂)))
    rcases h₃ with hlt | ⟨_, ⟨_, hle⟩ | ⟨hne, _⟩⟩
    · exact absurd hlt (hab.trans hbc ▸ lt_irrefl _)
    · exact absurd hfull (not_lt.2 hle)
    · exact hne houter
  · intro hnot
    refine ⟨⟨_, versionCmpChecked_eq a b⟩, fun ord h => ?_, fun h₁ h₂ => ?_⟩
    · rw [versionCmpChecked_eq] at h ⊢
      rw [← Option.some.inj h, versionCmp_swap]
    rw [hsome, versionCmp_ne_gt] at h₁ h₂ ⊢
    rcases h₁ with h₁ | ⟨hab, h₁⟩
    · exact .inl (h₂.elim h₁.trans fun h => h.1 ▸ h₁)
    rcases h₂ with h₂ | ⟨hbc, h₂⟩
    · exact .inl (hab ▸ h₂)
    refine .inr ⟨hab.trans hbc, ?_⟩
    rcases h₁ with ⟨hsab, h₁⟩ | ⟨hsab, h₁⟩ <;> rcases h₂ with ⟨hsbc, h₂⟩ | ⟨hsbc, h₂⟩
    · exact .inl ⟨hsab.trans hsbc, h₁.trans h₂⟩
    · exact .inr ⟨hsab ▸ hsbc, hsab ▸ h₂⟩
    · exact .inr ⟨hsbc ▸ hsab, hsbc ▸ h₁⟩
    · by_cases hsac : stem a = stem c
      · have hkeys := le_antisymm h₁ (hsac ▸ h₂)
        exact .inl ⟨hsac, not_lt.1 fun hfull => hnot ⟨⟨hab, hbc⟩, hsac, hsab, hkeys, hfull⟩⟩
      · exact .inr ⟨hsac, h₁.trans h₂⟩

/-- `a1.z`, `a01.x` and `a1.y`: each is not greater than the next, and the first is greater than the last. -/
theorem version_cmp_not_transitive : ¬ ∀ a b c, Preordered a b c := by
  intro h
  have htrans := (h [97, 49, 46, 122] [97, 48, 49, 46, 120] [97, 49, 46, 121]).transitive (by decide +kernel)
    (by decide +kernel)
  exact htrans (by decide +kernel)

end Peiosutils.Sort.Key
