import Mathlib.Algebra.GroupWithZero.Nat
import Peiosutils.Lib.Intervals
import Peiosutils.Lib.Keyed
import Peiosutils.Lib.Numeral
import Peiosutils.Lib.Fallible
import Mathlib.Data.Prod.Lex

/-!
# Lists of positions (`uucore::ranges`)

A list such as `1,3-5,9-` is split into items, each item is a range, and the ranges are sorted and joined where they
overlap. Strings are their UTF-8 bytes.

The ranges of a list that is accepted ascend and cover the positions its items name; their complement is computed without
overflow, covers the other positions, and has the list's own positions as its complement (`fromList_spec`).
-/

set_option autoImplicit false

namespace Peiosutils.Ranges

open Stretch (cover Ascending)

/-! ## Ranges -/

def usizeMax : Nat := 2 ^ 64 - 1

/-- `Range`, from `low` to `high`. -/
abbrev Range := Stretch

/-- The number of an end. -/
def parse (s : List UInt8) : Except String Nat :=
  match Numeral.parseUnsigned usizeMax s with
  | none => .error "failed to parse range"
  | some n =>
    if n = 0 then .error "fields and positions are numbered from 1"
    else if n = usizeMax then .error "byte/character offset is too large"
    else .ok n

/-- `split_once('-')`. -/
def splitOnce (s : List UInt8) : Option (List UInt8 × List UInt8) :=
  if s.contains 45 then some (s.takeWhile (· ≠ 45), (s.dropWhile (· ≠ 45)).drop 1) else none

/-- `Range::from_str`. -/
def fromStr (s : List UInt8) : Except String Range :=
  match splitOnce s with
  | none => do
    let n ← parse s
    return ⟨n, n⟩
  | some (low, high) =>
    if low = [] ∧ high = [] then .error "invalid range with no endpoint"
    else if high = [] then do
      let low ← parse low
      return ⟨low, usizeMax - 1⟩
    else if low = [] then do
      let high ← parse high
      return ⟨1, high⟩
    else do
      let low ← parse low
      let high ← parse high
      if low ≤ high then return ⟨low, high⟩ else .error "high end of range less than low end"

/-! ## Lists -/

/-- A range is removed for as long as the next one starts within range `i`. -/
def absorbAt (i : Nat) (ranges : List Range) : List Range :=
  match ranges[i]?, h : ranges[i + 1]? with
  | some r, some next =>
    if next.low ≤ r.high then absorbAt i ((ranges.eraseIdx (i + 1)).set i ⟨r.low, max r.high next.high⟩) else ranges
  | _, _ => ranges
termination_by ranges.length
decreasing_by
  have := (List.getElem?_eq_some_iff.1 h).1
  rw [List.length_set, List.length_eraseIdx_of_lt this]
  omega

/-- `Range::merge`: as many turns as there are ranges at first. -/
def merge (ranges : List Range) : List Range :=
  let ranges := Keyed.sortOn (fun r => toLex (r.low, r.high)) ranges
  (List.range ranges.length).foldl (fun ranges i => absorbAt i ranges) ranges

/-- The item, and why it is invalid. -/
structure RangeError where
  item : List UInt8
  why : String

/-- The items of a list, between commas and spaces. -/
def items (list : List UInt8) : List (List UInt8) := list.splitOnP fun b => b = 44 || b = 32

def fromItem (item : List UInt8) : Except RangeError Range :=
  match fromStr item with
  | .ok r => .ok r
  | .error why => .error ⟨item, why⟩

/-- `Range::from_list`. -/
def fromList (list : List UInt8) : Except RangeError (List Range) := do
  let ranges ← (items list).mapM fromItem
  return merge ranges

/-! ## The complement -/

/-- `a + b` for `usize`, none where it overflows. -/
def add (a b : Nat) : Option Nat := if a + b ≤ usizeMax then some (a + b) else none

/-- `a - b` for `usize`, none where it is below zero. -/
def sub (a b : Nat) : Option Nat := if b ≤ a then some (a - b) else none

def complementFrom (prevHigh : Nat) : List Range → Option (List Range)
  | [] =>
    if prevHigh < usizeMax - 1 then do
      let low ← add prevHigh 1
      return [⟨low, usizeMax - 1⟩]
    else some []
  | range :: ranges => do
    let low ← add prevHigh 1
    if range.low > low then
      let high ← sub range.low 1
      let complements ← complementFrom range.high ranges
      return ⟨low, high⟩ :: complements
    else complementFrom range.high ranges

/-- None where an addition or a subtraction overflows. -/
def complement (ranges : List Range) : Option (List Range) := complementFrom 0 ranges

def contain : List Range → Nat → Bool
  | [], _ => false
  | range :: ranges, n => if n ≥ range.low && n ≤ range.high then true else contain ranges n

theorem contain_iff {ranges : List Range} {n : Nat} : contain ranges n = true ↔ n ∈ cover ranges := by
  induction ranges with
  | nil => simp [contain]
  | cons r rs ih =>
    rw [contain, Stretch.mem_cover_cons, ← ih]
    split <;> simp_all

/-! ## What an item names -/

/-- The positions an item names: between its ends, where the first and the last position stand for ends it does not
give. -/
def Names (item : List UInt8) (n : Nat) : Prop :=
  match splitOnce item with
  | none => Numeral.parseUnsigned usizeMax item = some n
  | some (low, high) =>
    (1 ≤ n ∧ n ≤ usizeMax - 1) ∧
    (low = [] ∨ ∃ a, Numeral.parseUnsigned usizeMax low = some a ∧ a ≤ n) ∧
    (high = [] ∨ ∃ b, Numeral.parseUnsigned usizeMax high = some b ∧ n ≤ b)

theorem parse_eq_ok {s : List UInt8} {n : Nat} (h : parse s = .ok n) :
    Numeral.parseUnsigned usizeMax s = some n ∧ 1 ≤ n ∧ n ≤ usizeMax - 1 := by
  unfold parse at h
  split at h
  · cases h
  · rename_i m hm
    have hle := Numeral.parseUnsigned_le hm
    rw [Fallible.guard_eq_ok, Fallible.guard_eq_ok] at h
    obtain ⟨hzero, hmax, heq⟩ := h
    cases heq
    exact ⟨hm, by omega, by omega⟩

/-- An item that is accepted is a range of positions, those it names. -/
theorem fromStr_eq_ok {s : List UInt8} {r : Range} (h : fromStr s = .ok r) :
    (1 ≤ r.low ∧ r.low ≤ r.high ∧ r.high ≤ usizeMax - 1) ∧ ∀ n, Names s n ↔ r.low ≤ n ∧ n ≤ r.high := by
  unfold fromStr at h
  unfold Names
  split at h
  · obtain ⟨n, hn, heq⟩ := Fallible.bind_eq_ok.1 h
    cases heq
    obtain ⟨hparse, hlow, hhigh⟩ := parse_eq_ok hn
    simp only [hparse]
    exact ⟨⟨hlow, Nat.le_refl n, hhigh⟩, fun m => by simp; omega⟩
  · rename_i low high _
    rw [Fallible.guard_eq_ok] at h
    obtain ⟨hends, h⟩ := h
    split at h
    · rename_i hhigh
      obtain ⟨a, ha, heq⟩ := Fallible.bind_eq_ok.1 h
      cases heq
      obtain ⟨hparse, hone, hle⟩ := parse_eq_ok ha
      have hlow : low ≠ [] := fun hlow => hends ⟨hlow, hhigh⟩
      refine ⟨⟨hone, hle, Nat.le_refl _⟩, fun n => ?_⟩
      simp only [hparse, hlow, hhigh, false_or, true_or, and_true, Option.some.injEq, exists_eq_left']
      omega
    · rename_i hhigh
      split at h
      · rename_i hlow
        obtain ⟨b, hb, heq⟩ := Fallible.bind_eq_ok.1 h
        cases heq
        obtain ⟨hparse, hone, hle⟩ := parse_eq_ok hb
        refine ⟨⟨Nat.le_refl 1, hone, hle⟩, fun n => ?_⟩
        simp only [hparse, hlow, hhigh, false_or, true_or, true_and, Option.some.injEq, exists_eq_left']
        omega
      · rename_i hlow
        obtain ⟨a, ha, h⟩ := Fallible.bind_eq_ok.1 h
        obtain ⟨b, hb, h⟩ := Fallible.bind_eq_ok.1 h
        obtain ⟨hparse, hone, hle⟩ := parse_eq_ok ha
        obtain ⟨hparse', hone', hle'⟩ := parse_eq_ok hb
        split at h
        · rename_i hab
          cases h
          refine ⟨⟨hone, hab, hle'⟩, fun n => ?_⟩
          simp only [hparse, hparse', hlow, hhigh, false_or, Option.some.injEq, exists_eq_left']
          omega
        · cases h

/-! ## Merging -/

/-- Turn `i` joins the range there with those that overlap. -/
theorem absorbAt_append (done : List Range) (r : Range) (rest : List Range) :
    ∃ r' rest', absorbAt done.length (done ++ r :: rest) = done ++ r' :: rest' ∧ rest'.length ≤ rest.length ∧
      Stretch.mergeFrom r rest = r' :: Stretch.merge rest' := by
  have hr : ∀ (r : Range) rest, (done ++ r :: rest)[done.length]? = some r := fun r rest => by simp
  have hnext : ∀ (r : Range) rest, (done ++ r :: rest)[done.length + 1]? = rest[0]? := fun r rest => by
    simp [List.getElem?_append_right]
  induction rest generalizing r with
  | nil =>
    refine ⟨r, [], ?_, Nat.le_refl _, rfl⟩
    rw [absorbAt, hr]
    simp
  | cons s rest ih =>
    rw [absorbAt, hr]
    by_cases hover : s.low ≤ r.high
    · obtain ⟨r', rest', hturn, hlen, hmerge⟩ := ih ⟨r.low, max r.high s.high⟩
      refine ⟨r', rest', ?_, Nat.le_succ_of_le hlen, by rw [Stretch.mergeFrom, if_pos hover, hmerge]⟩
      have hvec : ((done ++ r :: s :: rest).eraseIdx (done.length + 1)).set done.length ⟨r.low, max r.high s.high⟩ =
          done ++ ⟨r.low, max r.high s.high⟩ :: rest := by
        rw [List.eraseIdx_append_of_length_le (by omega), Nat.add_sub_cancel_left]
        simp [List.eraseIdx]
      split
      · rename_i r₀ s₀ h₀ h₁
        rw [hnext] at h₁
        simp only [List.getElem?_cons_zero, Option.some.injEq] at h₀ h₁
        rw [← h₀, ← h₁, if_pos hover, hvec, hturn]
      · rename_i hnone
        exact absurd (hnext r (s :: rest)) (hnone r s rfl)
    · refine ⟨r, s :: rest, ?_, Nat.le_refl _, by rw [Stretch.mergeFrom, if_neg hover]; rfl⟩
      split
      · rename_i r₀ s₀ h₀ h₁
        rw [hnext] at h₁
        simp only [List.getElem?_cons_zero, Option.some.injEq] at h₀ h₁
        rw [← h₀, ← h₁, if_neg hover]
      · rfl

theorem absorbAt_length (ranges : List Range) (i : Nat) (h : ranges.length ≤ i) : absorbAt i ranges = ranges := by
  rw [absorbAt, List.getElem?_eq_none h]

/-- The turns from `done.length` on join the ranges behind `done`. -/
theorem turns_append (turns : Nat) (done rest : List Range) (h : rest.length ≤ turns) :
    (List.range' done.length turns).foldl (fun ranges i => absorbAt i ranges) (done ++ rest) =
      done ++ Stretch.merge rest := by
  induction turns generalizing done rest with
  | zero =>
    rw [List.eq_nil_of_length_eq_zero (Nat.le_zero.1 h)]
    rfl
  | succ turns ih =>
    rw [List.range'_succ, List.foldl_cons]
    cases rest with
    | nil =>
      have hlen : (done ++ []).length ≤ done.length := by simp
      have hturns : ∀ k, done.length ≤ k → ∀ n,
          (List.range' k n).foldl (fun ranges i => absorbAt i ranges) (done ++ []) = done ++ [] := by
        intro k hk n
        induction n generalizing k with
        | zero => rfl
        | succ n ih => rw [List.range'_succ, List.foldl_cons, absorbAt_length _ _ (hlen.trans hk), ih (k + 1) (by omega)]
      rw [absorbAt_length _ _ hlen]
      exact hturns _ (Nat.le_succ _) turns
    | cons r rest =>
      obtain ⟨r', rest', hturn, hlen, hmerge⟩ := absorbAt_append done r rest
      have hih := ih (done ++ [r']) rest' (hlen.trans (Nat.le_of_succ_le_succ h))
      rw [hturn]
      simpa [Stretch.merge, hmerge] using hih

/-- The loop over the indices is the join from the front. -/
theorem merge_eq (ranges : List Range) :
    merge ranges = Stretch.merge (Keyed.sortOn (fun r => toLex (r.low, r.high)) ranges) := by
  have h := turns_append _ [] (Keyed.sortOn (fun r : Range => toLex (r.low, r.high)) ranges) (Nat.le_refl _)
  rw [List.length_nil, ← List.range_eq_range'] at h
  exact h

/-- Ranges of positions are joined to ascending ones, of the same positions. -/
theorem merge_spec {ranges : List Range} (h : ∀ r ∈ ranges, 1 ≤ r.low ∧ r.low ≤ r.high ∧ r.high ≤ usizeMax - 1) :
    Ascending 0 (merge ranges) ∧ cover (merge ranges) = cover ranges := by
  have hsorted := Keyed.pairwise_sortOn (fun r : Range => toLex (r.low, r.high)) ranges
  have hlow : (Keyed.sortOn (fun r : Range => toLex (r.low, r.high)) ranges).Pairwise fun r s => r.low ≤ s.low :=
    hsorted.imp fun {r s} hrs => by
      rcases Prod.Lex.le_iff.1 hrs with hlt | heq
      · exact Nat.le_of_lt hlt
      · exact Nat.le_of_eq heq.1
  have hne : ∀ r ∈ Keyed.sortOn (fun r : Range => toLex (r.low, r.high)) ranges, 0 < r.low ∧ r.low ≤ r.high :=
    fun r hr => ⟨(h r (Keyed.mem_sortOn.1 hr)).1, (h r (Keyed.mem_sortOn.1 hr)).2.1⟩
  rw [merge_eq]
  refine ⟨Stretch.ascending_merge hlow hne, ?_⟩
  rw [Stretch.cover_merge hlow fun r hr => (hne r hr).2]
  exact Stretch.cover_perm (Keyed.perm_sortOn _ ranges)

/-! ## The complement is the gaps -/

theorem complementFrom_eq {b : Nat} {ranges : List Range} (h : Ascending b ranges) (hb : b ≤ usizeMax - 1)
    (hhigh : ∀ r ∈ ranges, r.high ≤ usizeMax - 1) :
    complementFrom b ranges = some (Stretch.gaps (usizeMax - 1) b ranges) := by
  have hmax : 1 ≤ usizeMax := by decide
  induction ranges generalizing b with
  | nil =>
    rw [complementFrom, Stretch.gaps]
    split
    · rw [add, if_pos (by omega)]
      rfl
    · rfl
  | cons r rs ih =>
    obtain ⟨hlow, hr, hrs⟩ := h
    have hr' := hhigh r List.mem_cons_self
    have hih := ih hrs hr' fun s hs => hhigh s (List.mem_cons_of_mem r hs)
    have hadd : add b 1 = some (b + 1) := if_pos (by omega)
    have hsub : sub r.low 1 = some (r.low - 1) := if_pos (by omega)
    rw [complementFrom, Stretch.gaps, hadd]
    simp only [Option.bind_eq_bind, Option.bind_some, hsub, hih, gt_iff_lt]
    split <;> rfl

/-! ## Every list -/

theorem fromItem_eq_ok {item : List UInt8} {r : Range} : fromItem item = .ok r ↔ fromStr item = .ok r := by
  unfold fromItem
  cases fromStr item <;> simp

/-- The ranges of the items, in their order. -/
theorem mapM_fromItem : ∀ {texts : List (List UInt8)} {rs : List Range}, texts.mapM fromItem = .ok rs →
    List.Forall₂ (fun item r => fromStr item = .ok r) texts rs
  | [], rs, h => by
    cases h
    exact .nil
  | item :: texts, rs, h => by
    rw [List.mapM_cons] at h
    obtain ⟨r, hr, h⟩ := Fallible.bind_eq_ok.1 h
    obtain ⟨rs', hrs, heq⟩ := Fallible.bind_eq_ok.1 h
    cases heq
    exact .cons (fromItem_eq_ok.1 hr) (mapM_fromItem hrs)

/-- The items name what their ranges cover. -/
theorem cover_items {texts : List (List UInt8)} {rs : List Range}
    (h : List.Forall₂ (fun item r => fromStr item = .ok r) texts rs) :
    (∀ r ∈ rs, 1 ≤ r.low ∧ r.low ≤ r.high ∧ r.high ≤ usizeMax - 1) ∧
      ∀ n, n ∈ cover rs ↔ ∃ item ∈ texts, Names item n := by
  induction h with
  | nil => simp
  | cons hitem _ ih =>
    obtain ⟨hbounds, hnames⟩ := fromStr_eq_ok hitem
    refine ⟨List.forall_mem_cons.2 ⟨hbounds, ih.1⟩, fun n => ?_⟩
    rw [Stretch.mem_cover_cons, ih.2 n, List.exists_mem_cons_iff, hnames n]

/-- A position of the ranges of an accepted list. -/
theorem high_le_of_cover {b top : Nat} {rs ss : List Range} (h : Ascending b rs) (hcover : cover rs = cover ss)
    (hss : ∀ s ∈ ss, s.high ≤ top) : ∀ r ∈ rs, r.high ≤ top := by
  intro r hr
  have hin : r.high ∈ cover rs := ⟨r, hr, (h.bounds r hr).2, Nat.le_refl _⟩
  rw [hcover] at hin
  obtain ⟨s, hs, -, hle⟩ := hin
  exact hle.trans (hss s hs)

/-- The ranges of an accepted list, or of its complement. -/
def Produced (ranges : List Range) : Prop :=
  ∃ list given, fromList list = .ok given ∧ (ranges = given ∨ complement given = some ranges)

theorem Produced.ascending {ranges : List Range} (h : Produced ranges) :
    Ascending 0 ranges ∧ ∀ r ∈ ranges, r.high ≤ usizeMax - 1 := by
  obtain ⟨list, given, hgiven, h⟩ := h
  obtain ⟨rs, hrs, heq⟩ := Fallible.bind_eq_ok.1 hgiven
  cases heq
  obtain ⟨hbounds, -⟩ := cover_items (mapM_fromItem hrs)
  obtain ⟨hasc, hcover⟩ := merge_spec hbounds
  have hhigh := high_le_of_cover hasc hcover fun r hr => (hbounds r hr).2.2
  rcases h with rfl | h
  · exact ⟨hasc, hhigh⟩
  · rw [complement, complementFrom_eq hasc (Nat.zero_le _) hhigh] at h
    cases h
    exact ⟨@Stretch.ascending_gaps (usizeMax - 1) _ _ hasc, Stretch.high_le_of_mem_gaps hhigh hasc⟩

/-- **The ranges of every accepted list, and their complement.** There are some, none of them is empty, they lie within the
positions, are sorted and apart, and hold the positions the items name. The complement is computed without overflow and holds the other
positions, and its own complement holds those of the list. -/
theorem fromList_spec (list : List UInt8) (ranges : List Range) (h : fromList list = .ok ranges) :
    ranges ≠ [] ∧ (∀ r ∈ ranges, 1 ≤ r.low ∧ r.low ≤ r.high ∧ r.high ≤ usizeMax - 1) ∧
    (ranges.Pairwise fun r s => r.high < s.low) ∧
    (∀ n, contain ranges n = true ↔ ∃ item ∈ items list, Names item n) ∧
    ∃ others, complement ranges = some others ∧
      (∀ n, contain others n = true ↔ (1 ≤ n ∧ n ≤ usizeMax - 1) ∧ contain ranges n = false) ∧
      ∃ again, complement others = some again ∧ ∀ n, contain again n = contain ranges n := by
  obtain ⟨rs, hrs, heq⟩ := Fallible.bind_eq_ok.1 h
  cases heq
  obtain ⟨hbounds, hnames⟩ := cover_items (mapM_fromItem hrs)
  obtain ⟨hasc, hcover⟩ := merge_spec hbounds
  have hhigh := high_le_of_cover hasc hcover fun r hr => (hbounds r hr).2.2
  have hgaps := @Stretch.ascending_gaps (usizeMax - 1) _ _ hasc
  have hgapsHigh := Stretch.high_le_of_mem_gaps hhigh hasc
  refine ⟨fun hnil => ?_, fun r hr => ⟨(hasc.bounds r hr).1, (hasc.bounds r hr).2, hhigh r hr⟩, hasc.pairwise,
    fun n => ?_, ?_⟩
  · obtain ⟨item, texts, hitems⟩ := List.exists_cons_of_ne_nil (List.splitOnP_ne_nil (fun b => b = 44 || b = 32) list)
    have hread := mapM_fromItem hrs
    rw [items, hitems] at hread
    cases hread with
    | @cons _ r _ rs' _ _ =>
      have hin : r.low ∈ cover (r :: rs') :=
        ⟨r, List.mem_cons_self, Nat.le_refl _, (hbounds r List.mem_cons_self).2.1⟩
      rw [← hcover, show merge (r :: rs') = [] from hnil] at hin
      exact Stretch.not_mem_cover_nil _ hin
  · rw [contain_iff, hcover, hnames]
  · refine ⟨_, complementFrom_eq hasc (Nat.zero_le _) hhigh, fun n => ?_, _,
      complementFrom_eq hgaps (Nat.zero_le _) hgapsHigh, fun n => ?_⟩
    · rw [contain_iff, Stretch.mem_cover_gaps hasc hhigh, ← contain_iff, Bool.not_eq_true, and_assoc]
      rfl
    · rw [Bool.eq_iff_iff, contain_iff, contain_iff, Stretch.cover_gaps_gaps hasc hhigh]

/-- The list `3-,1`. -/
theorem fromList_spec_tail : ∃ others, complement [⟨1, 1⟩, ⟨3, usizeMax - 1⟩] = some others ∧
    ∀ n, contain others n = true ↔ (1 ≤ n ∧ n ≤ usizeMax - 1) ∧ contain [⟨1, 1⟩, ⟨3, usizeMax - 1⟩] n = false := by
  have hread : (items [51, 45, 44, 49]).mapM fromItem = .ok [⟨3, usizeMax - 1⟩, ⟨1, 1⟩] := by rfl
  have hlist : fromList [51, 45, 44, 49] = .ok [⟨1, 1⟩, ⟨3, usizeMax - 1⟩] := by
    have hmerge : merge [⟨3, usizeMax - 1⟩, ⟨1, 1⟩] = [⟨1, 1⟩, ⟨3, usizeMax - 1⟩] := by
      rw [merge_eq]
      decide +kernel
    rw [fromList, hread]
    exact congrArg Except.ok hmerge
  obtain ⟨-, -, -, -, others, hothers, hspec, -⟩ := fromList_spec _ _ hlist
  exact ⟨others, hothers, hspec⟩

end Peiosutils.Ranges
