import Peiosutils.Split.Number

/-!
# File names (`filenames.rs`)

The iterator of file names. With widening, the names of all indexes that can be computed are in byte order, and none is
the start of another; with a fixed width there is a name for each number of that width from the start on
(`names_in_order`).
-/

set_option autoImplicit false

namespace Peiosutils.Split

open Positional (Ahead)
open While (Stop Settles)

inductive SuffixType where
  | alphabetic
  | decimal
  | hexadecimal
  deriving DecidableEq, Repr

def SuffixType.radix : SuffixType → Nat
  | .alphabetic => 26
  | .decimal => 10
  | .hexadecimal => 16

structure Suffix where
  stype : SuffixType
  length : Nat
  start : Nat
  autoWidening : Bool
  additional : List UInt8
  deriving DecidableEq, Repr

/-- `pre` is the part in front of the number. -/
structure FilenameIterator where
  pre : List UInt8
  additionalSuffix : List UInt8
  number : Number
  firstIteration : Bool
  deriving DecidableEq, Repr

namespace FilenameIterator

/-- None if the start is too large for the width. -/
def new (pre : List UInt8) (suffix : Suffix) : Option FilenameIterator := do
  let radix := suffix.stype.radix
  let number ←
    if suffix.autoWidening then some (.dynamicWidth ⟨radix, suffix.start⟩)
    else (FixedWidthNumber.new radix suffix.length suffix.start).map Number.fixedWidth
  return ⟨pre, suffix.additional, number, true⟩

/-- The number of the next name; false if there is none. -/
def following (it : FilenameIterator) : Except Stop (Bool × Number) :=
  if it.firstIteration then .ok (true, it.number) else it.number.increment

def next (fuel : Nat) (it : FilenameIterator) : Except Stop (Option (List UInt8) × FilenameIterator) := do
  let (ok, number) ← it.following
  let it := { it with number := number, firstIteration := false }
  if ok then
    let text ← number.display fuel
    return (some (it.pre ++ text ++ it.additionalSuffix), it)
  else return (none, it)

/-- What the call of `next` behind `n` others gives. -/
def call (fuel : Nat) (it : FilenameIterator) : (n : Nat) → Except Stop (Option (List UInt8) × FilenameIterator)
  | 0 => it.next fuel
  | n + 1 => do
    let r ← call fuel it n
    r.2.next fuel

end FilenameIterator

/-! ## Suffixes -/

theorem SuffixType.radix_gt (stype : SuffixType) : 1 < stype.radix := by
  cases stype <;> decide

/-- The digits are in byte order. -/
theorem mapDigit_lt (stype : SuffixType) {d e : Nat} (h : d < e) (he : e < stype.radix) :
    mapDigit stype.radix d < mapDigit stype.radix e := by
  have hd : ∀ {n}, n < 256 → (UInt8.ofNat n).toNat = n := fun hn => UInt8.toNat_ofNat_of_lt' hn
  rw [UInt8.lt_iff_toNat_lt]
  cases stype with
  | alphabetic =>
    have he : e < 26 := he
    show (UInt8.ofNat (97 + d)).toNat < (UInt8.ofNat (97 + e)).toNat
    rw [hd (by omega), hd (by omega)]
    omega
  | decimal =>
    have he : e < 10 := he
    show (UInt8.ofNat (48 + d)).toNat < (UInt8.ofNat (48 + e)).toNat
    rw [hd (by omega), hd (by omega)]
    omega
  | hexadecimal =>
    have he : e < 16 := he
    show (if d < 10 then UInt8.ofNat (48 + d) else UInt8.ofNat (97 + (d - 10))).toNat <
      (if e < 10 then UInt8.ofNat (48 + e) else UInt8.ofNat (97 + (e - 10))).toNat
    split <;> split <;> rw [hd (by omega), hd (by omega)] <;> omega

/-- Digits as they are displayed. -/
def shown (radix w n : Nat) : List UInt8 := (Positional.digits radix w n).map (mapDigit radix)

theorem ahead_shown (stype : SuffixType) {w n m : Nat} (h : n < m) (hm : m < stype.radix ^ w) :
    Ahead (shown stype.radix w n) (shown stype.radix w m) :=
  (Positional.ahead_digits h hm).map fun _ _ _ he hlt =>
    mapDigit_lt stype hlt (Positional.digits_lt (Nat.zero_lt_of_lt stype.radix_gt) he)

/-- The suffix of an index: a fill character for each level, and digits within the level. -/
def widened (radix i : Nat) : List UInt8 :=
  List.replicate (level radix i) (mapDigit radix (radix - 1)) ++
    shown radix (level radix i + 2) (i - base radix (level radix i))

theorem ahead_widened (stype : SuffixType) {i j : Nat} (h : i < j) :
    Ahead (widened stype.radix i) (widened stype.radix j) := by
  have hradix := stype.radix_gt
  have hi := @base_level_le stype.radix i hradix
  have hwithin := @sub_base_lt stype.radix i hradix
  unfold widened
  rcases Nat.lt_or_eq_of_le (level_mono hradix (Nat.le_of_lt h)) with hlt | heq
  · -- the first digit is no fill character
    obtain ⟨k, hk⟩ := Nat.exists_eq_add_of_lt hlt
    have hdigit : (i - base stype.radix (level stype.radix i)) / stype.radix ^ (level stype.radix i + 1) % stype.radix <
        stype.radix - 1 :=
      Nat.lt_of_le_of_lt (Nat.mod_le _ _) (Nat.div_lt_of_lt_mul (by rwa [Nat.mul_comm]))
    rw [shown, Positional.digits_cons, List.map_cons, hk, Nat.add_assoc, List.replicate_add,
      List.replicate_succ]
    exact ⟨_, _, _, _, _, rfl, by rw [List.append_assoc, List.cons_append], mapDigit_lt stype hdigit (by omega)⟩
  · rw [← heq]
    have hj := @sub_base_lt stype.radix j hradix
    rw [← heq] at hj
    refine (ahead_shown stype (by omega) ?_).behind _
    refine hj.trans_le ?_
    rw [Nat.pow_succ' (n := level stype.radix i + 1)]
    exact Nat.mul_le_mul_right _ (Nat.sub_le _ 1)

/-! ## Widening -/

theorem display_settles (stype : SuffixType) {i : Nat} (h : Fits stype.radix i) :
    Settles ((Number.dynamicWidth ⟨stype.radix, i⟩).display ·) (widened stype.radix i) := by
  refine (DynamicWidthNumber.digits_settles stype.radix_gt h).bind (While.settles_pure ?_)
  rw [Positional.length_digits, Nat.add_sub_cancel]
  rfl

namespace FilenameIterator

theorem next_settles {it : FilenameIterator} {number : Number} {text : List UInt8}
    (hnumber : it.following = .ok (true, number)) (htext : Settles (number.display ·) text) :
    Settles (it.next ·) (some (it.pre ++ text ++ it.additionalSuffix),
      { it with number := number, firstIteration := false }) :=
  (While.settles_pure hnumber).bind (htext.bind (While.settles_pure rfl))

/-- The iterator of a growing number. -/
def growing (pre additional : List UInt8) (stype : SuffixType) (i : Nat) (first : Bool) : FilenameIterator :=
  ⟨pre, additional, .dynamicWidth ⟨stype.radix, i⟩, first⟩

variable {pre additional : List UInt8} {stype : SuffixType} {start : Nat}

theorem following_growing {i : Nat} (h : i + 1 < usizeLimit) :
    (growing pre additional stype i false).following = .ok (true, .dynamicWidth ⟨stype.radix, i + 1⟩) := by
  rw [following, growing, if_neg Bool.false_ne_true, Number.increment, DynamicWidthNumber.increment, if_pos h]
  rfl

theorem call_growing {n : Nat} (h : Computes stype.radix (start + n)) :
    Settles (call · (growing pre additional stype start true) n)
      (some (pre ++ widened stype.radix (start + n) ++ additional),
        growing pre additional stype (start + n) false) := by
  induction n with
  | zero => exact @next_settles (growing pre additional stype start true) _ _ rfl (display_settles stype h.2)
  | succ n ih =>
    exact (ih (h.mono (Nat.le_succ _))).bind (next_settles (following_growing h.1) (display_settles stype h.2))

theorem next_ne_ok {it : FilenameIterator} {i : Nat}
    (hnumber : it.following = .ok (true, .dynamicWidth ⟨stype.radix, i⟩)) (h : ¬ Fits stype.radix i) (fuel : Nat)
    (r : Option (List UInt8) × FilenameIterator) : it.next fuel ≠ .ok r := by
  intro hok
  obtain ⟨x, hx, hok⟩ := Fallible.bind_eq_ok.1 hok
  rw [hnumber] at hx
  cases hx
  obtain ⟨text, htext, -⟩ := Fallible.bind_eq_ok.1 hok
  obtain ⟨ds, hds, -⟩ := Fallible.bind_eq_ok.1 htext
  exact DynamicWidthNumber.digits_ne_ok stype.radix_gt h fuel ds hds

/-- An index that cannot be computed has no name. -/
theorem call_growing_ne_ok {n : Nat} (hstart : start < usizeLimit) (h : ¬ Computes stype.radix (start + n)) (fuel : Nat)
    (r : Option (List UInt8) × FilenameIterator) : call fuel (growing pre additional stype start true) n ≠ .ok r := by
  induction n generalizing r with
  | zero =>
    exact @next_ne_ok stype (growing pre additional stype start true) _ rfl (fun hfits => h ⟨hstart, hfits⟩) fuel r
  | succ n ih =>
    intro hok
    obtain ⟨r', hr', hok⟩ := Fallible.bind_eq_ok.1 hok
    by_cases hbefore : Computes stype.radix (start + n)
    · rcases (@call_growing pre additional stype start n hbefore).2 fuel with hfuel | hstate
      · cases hfuel.symm.trans hr'
      cases hstate.symm.trans hr'
      by_cases hlimit : start + n + 1 < usizeLimit
      · exact next_ne_ok (following_growing hlimit) (fun hfits => h ⟨hlimit, hfits⟩) fuel r hok
      · obtain ⟨x, hx, -⟩ := Fallible.bind_eq_ok.1 hok
        rw [following, growing, if_neg Bool.false_ne_true, Number.increment, DynamicWidthNumber.increment,
          if_neg hlimit] at hx
        cases hx
    · exact ih hbefore r' hr'

/-! ## A fixed width -/

/-- The iterator of a number of fixed width. -/
def fixed (pre additional : List UInt8) (stype : SuffixType) (w i : Nat) (first : Bool) : FilenameIterator :=
  ⟨pre, additional, .fixedWidth ⟨stype.radix, Positional.digits stype.radix w i⟩, first⟩

theorem new_fixed (w : Nat) : new pre ⟨stype, w, start, false, additional⟩ =
    if start < stype.radix ^ w then some (fixed pre additional stype w start true) else none := by
  have hnew := FixedWidthNumber.new_eq (Nat.zero_lt_of_lt stype.radix_gt) w start
  by_cases h : start < stype.radix ^ w
  · rw [if_pos h] at hnew ⊢
    simp only [new, hnew, Bool.false_eq_true, if_false]
    rfl
  · rw [if_neg h] at hnew ⊢
    simp only [new, hnew, Bool.false_eq_true, if_false]
    rfl

theorem following_fixed {w i : Nat} (h : i < stype.radix ^ w) : (fixed pre additional stype w i false).following =
    .ok (decide (i + 1 < stype.radix ^ w), .fixedWidth ⟨stype.radix, Positional.digits stype.radix w (i + 1)⟩) := by
  rw [following, fixed, if_neg Bool.false_ne_true, Number.increment,
    FixedWidthNumber.increment_eq (Nat.zero_lt_of_lt stype.radix_gt) h]

theorem call_fixed {w n : Nat} (h : start + n < stype.radix ^ w) :
    Settles (call · (fixed pre additional stype w start true) n)
      (some (pre ++ shown stype.radix w (start + n) ++ additional),
        fixed pre additional stype w (start + n) false) := by
  induction n with
  | zero => exact @next_settles (fixed pre additional stype w start true) _ _ rfl (While.settles_pure rfl)
  | succ n ih =>
    have hnumber := @following_fixed pre additional stype w (start + n) (Nat.lt_of_succ_lt h)
    rw [decide_eq_true (show start + n + 1 < stype.radix ^ w from h)] at hnumber
    exact (ih (Nat.lt_of_succ_lt h)).bind (next_settles hnumber (While.settles_pure rfl))

/-- Behind the last number there is no name. -/
theorem call_fixed_last {w : Nat} (h : start < stype.radix ^ w) :
    ∃ it, Settles (call · (fixed pre additional stype w start true) (stype.radix ^ w - start)) (none, it) := by
  obtain ⟨n, hn⟩ : ∃ n, stype.radix ^ w - start = n + 1 := ⟨stype.radix ^ w - start - 1, by omega⟩
  have hlast : start + n < stype.radix ^ w := by omega
  have hnumber := @following_fixed pre additional stype w _ hlast
  rw [decide_eq_false (show ¬ start + n + 1 < stype.radix ^ w by omega)] at hnumber
  rw [hn]
  exact ⟨_, (call_fixed hlast).bind ((While.settles_pure hnumber).bind (While.settles_pure rfl))⟩

end FilenameIterator

open FilenameIterator (call)

/-- **The names are in order.** With widening there is a name for every index that can be computed, and for no other;
the names differ, none is the start of another, and they increase in byte order. With a fixed width the iterator starts
unless the start has more digits; it gives one name of that width for each number from the start on, in byte order, and
then none. -/
theorem names_in_order (pre additional : List UInt8) (stype : SuffixType) (w start : Nat)
    (hstart : start < usizeLimit) :
    (∃ (it : FilenameIterator) (suffix : Nat → List UInt8),
      FilenameIterator.new pre ⟨stype, w, start, true, additional⟩ = some it ∧
      (∀ n, Computes stype.radix (start + n) →
        ∃ it', Settles (call · it n) (some (pre ++ suffix n ++ additional), it')) ∧
      (∀ n, ¬ Computes stype.radix (start + n) → ∀ fuel r, call fuel it n ≠ .ok r) ∧
      ∀ n m, n < m → suffix n ≠ suffix m ∧ ¬ suffix n <+: suffix m ∧ ¬ suffix m <+: suffix n ∧
        List.Lex (· < ·) (suffix n) (suffix m)) ∧
    (FilenameIterator.new pre ⟨stype, w, start, false, additional⟩ = none ↔ stype.radix ^ w ≤ start) ∧
    (start < stype.radix ^ w →
      ∃ (it : FilenameIterator) (suffix : Nat → List UInt8),
      FilenameIterator.new pre ⟨stype, w, start, false, additional⟩ = some it ∧
      (∀ n < stype.radix ^ w - start, (suffix n).length = w ∧
        ∃ it', Settles (call · it n) (some (pre ++ suffix n ++ additional), it')) ∧
      (∀ n m, n < m → m < stype.radix ^ w - start → List.Lex (· < ·) (suffix n) (suffix m)) ∧
      ∃ it', Settles (call · it (stype.radix ^ w - start)) (none, it')) := by
  have hirrefl : ∀ x : UInt8, ¬ x < x := UInt8.lt_irrefl
  refine ⟨⟨_, fun n => widened stype.radix (start + n), rfl, fun n h => ⟨_, FilenameIterator.call_growing h⟩,
    fun n h => FilenameIterator.call_growing_ne_ok hstart h, fun n m h => ?_⟩, ?_, fun h => ?_⟩
  · obtain ⟨hpre, hpre', hlex⟩ :=
      (ahead_widened stype (show start + n < start + m by omega)).neither_begins hirrefl
    exact ⟨fun e => hpre ⟨[], (List.append_nil _).trans e⟩, hpre, hpre', hlex⟩
  · rw [FilenameIterator.new_fixed]
    split <;> simp <;> omega
  · refine ⟨_, fun n => shown stype.radix w (start + n), by rw [FilenameIterator.new_fixed, if_pos h],
      fun n hn => ⟨?_, _, FilenameIterator.call_fixed (by omega)⟩, fun n m hnm hm => ?_,
      FilenameIterator.call_fixed_last h⟩
    · simp [shown]
    · exact ((ahead_shown stype (show start + n < start + m by omega) (by omega)).neither_begins hirrefl).2.2

/-- Two-digit hexadecimal numbers from 250 on, and why there are none from 256 on. -/
theorem names_in_order_hex : (∃ it, Settles (call · (FilenameIterator.fixed [120] [] .hexadecimal 2 250 true) 6) it) ∧
    FilenameIterator.new [120] ⟨.hexadecimal, 2, 256, false, []⟩ = none := by
  refine ⟨?_, (names_in_order [120] [] .hexadecimal 2 256 (by decide)).2.1.2 (by decide)⟩
  obtain ⟨it, suffix, hnew, -, -, it', hlast⟩ :=
    (names_in_order [120] [] .hexadecimal 2 250 (by decide)).2.2 (by decide)
  rw [FilenameIterator.new_fixed, if_pos (by decide)] at hnew
  cases hnew
  exact ⟨_, hlast⟩

end Peiosutils.Split
