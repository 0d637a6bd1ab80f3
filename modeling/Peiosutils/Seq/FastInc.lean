import Peiosutils.Lib.Padded
import Mathlib.Tactic.Ring

/-!
# Adding digits in place (`fast_inc.rs`)

`fast_inc` adds a number to the digits in front of the end of a buffer. Where the buffer holds a number behind its head
(`Holds`), the sum is there afterwards (`fastInc_spec`), unless the increment has more digits than are shown and the sum
has more than the increment: then what is shown has too few digits (`fastInc_wrong`).
-/

set_option autoImplicit false

namespace Peiosutils.Seq

open Padded

/-! ## The code -/

/-- The first loop of `fast_inc`, over the digits of the increment from the last on: the buffer, and where it stops with
which carry. No value is a panic. -/
def addDigits (start : Nat) : (inc : List UInt8) → (val : List UInt8) → (pos : Nat) → (carry : UInt8) →
    Option (List UInt8 × Nat × UInt8)
  | [], val, pos, carry => some (val, pos, carry)
  | digit :: inc, val, pos, carry =>
    if pos = 0 then none
    else do
      let pos := pos - 1
      let old ← val[pos]?
      let newVal := digit + carry
      let newVal := if pos ≥ start then newVal + (old - 48) else newVal
      if newVal > 57 then addDigits start inc (val.set pos (newVal - 10)) pos 1
      else addDigits start inc (val.set pos newVal) pos 0

/-- The loop of `fast_inc_one` over the `n` bytes from `start` on, from the last: the buffer and the start. -/
def fastIncOneLoop (start : Nat) : (n : Nat) → (val : List UInt8) → Option (List UInt8 × Nat)
  | 0, val =>
    -- the carry propagated so far that a new digit is added
    if start = 0 ∨ val.length < start then none else some (val.set (start - 1) 49, start - 1)
  | n + 1, val => do
    let pos := start + n
    let digit ← val[pos]?
    if digit = 57 then fastIncOneLoop start n (val.set pos 48) else some (val.set pos (digit + 1), start)

def fastIncOne (val : List UInt8) (start stop : Nat) : Option (List UInt8 × Nat) :=
  fastIncOneLoop start (stop - start) val

def fastInc (val : List UInt8) (start stop : Nat) (inc : List UInt8) : Option (List UInt8 × Nat) := do
  let (val, pos, carry) ← addDigits start inc.reverse val stop 0
  if carry = 0 then return (val, min start pos) else fastIncOne val start pos

/-! ## One position -/

/-- A digit, a carry, and the digit of the buffer under them. -/
theorem byteOf_add : ∀ d < 10, ∀ e < 10, ∀ c < 2, byteOf d + UInt8.ofNat c + (byteOf e - 48) = byteOf (d + e + c) := by
  decide

theorem byteOf_carry : ∀ d < 10, ∀ c < 2, byteOf d + UInt8.ofNat c = byteOf (d + c) := by decide

theorem byteOf_gt : ∀ n < 20, byteOf n > 57 ↔ 10 ≤ n := by decide

theorem byteOf_sub : ∀ n < 20, 10 ≤ n → byteOf n - 10 = byteOf (n % 10) := by decide

theorem byteOf_nine : ∀ d < 10, byteOf d = 57 ↔ d = 9 := by decide

theorem byteOf_succ : ∀ d < 9, byteOf d + 1 = byteOf (d + 1) := by decide

theorem set_append_cons {pre post : List UInt8} {x y : UInt8} :
    (pre ++ x :: post).set pre.length y = pre ++ y :: post := by
  rw [List.set_append_right _ _ (le_refl _), Nat.sub_self, List.set_cons_zero]

/-- One pass of the first loop writes a digit of the sum and keeps the carry. -/
theorem addDigits_step {start d e c : Nat} (inc pre post : List UInt8) {x : UInt8} (hd : d < 10) (hc : c < 2)
    (he : e < 10) (hx : start ≤ pre.length ∧ x = byteOf e ∨ pre.length < start ∧ e = 0) :
    addDigits start (byteOf d :: inc) (pre ++ x :: post) (pre.length + 1) (UInt8.ofNat c) =
      addDigits start inc (pre ++ byteOf ((d + e + c) % 10) :: post) pre.length (UInt8.ofNat ((d + e + c) / 10)) := by
  have hold : (pre ++ x :: post)[pre.length]? = some x := by simp
  have hnew : (if pre.length ≥ start then byteOf d + UInt8.ofNat c + (x - 48) else byteOf d + UInt8.ofNat c) =
      byteOf (d + e + c) := by
    rcases hx with ⟨hle, rfl⟩ | ⟨hlt, rfl⟩
    · rw [if_pos hle, byteOf_add d hd e he c hc]
    · rw [if_neg (not_le.2 hlt), byteOf_carry d hd c hc, Nat.add_zero]
  have hlt : d + e + c < 20 := by omega
  rw [addDigits, if_neg (Nat.succ_ne_zero _)]
  simp only [Nat.add_sub_cancel, hold, Option.bind_eq_bind, Option.bind_some, hnew, set_append_cons]
  by_cases hcarry : 10 ≤ d + e + c
  · have hdiv : (d + e + c) / 10 = 1 := by omega
    rw [if_pos ((byteOf_gt _ hlt).2 hcarry), byteOf_sub _ hlt hcarry, hdiv]
    rfl
  · have hdiv : (d + e + c) / 10 = 0 := by omega
    have hmod : (d + e + c) % 10 = d + e + c := by omega
    rw [if_neg fun h => hcarry ((byteOf_gt _ hlt).1 h), hmod, hdiv]
    rfl

/-! ## The loops -/

theorem reverse_padded (m i : Nat) : (padded (m + 1) i).reverse = byteOf (i % 10) :: (padded m (i / 10)).reverse := by
  rw [padded, List.reverse_append]
  rfl

/-- The carry behind one more digit. -/
theorem carry_succ (m v i c : Nat) :
    (v / 10 % 10 ^ m + i / 10 % 10 ^ m + (i % 10 + v % 10 + c) / 10) / 10 ^ m =
      (v % 10 ^ (m + 1) + i % 10 ^ (m + 1) + c) / 10 ^ (m + 1) := by
  rw [Nat.pow_succ', Nat.mod_mul, Nat.mod_mul, ← Nat.div_div_eq_div_mul]
  congr 1
  omega

/-- The first loop writes the last digits of the sum, and keeps the digits in front of them. -/
theorem addDigits_spec (start m : Nat) : ∀ (i w v c : Nat) (head suf : List UInt8), c < 2 → v < 10 ^ w →
    (head.length = start ∨ w = 0 ∧ head.length ≤ start) → m ≤ head.length + w →
    addDigits start (padded m i).reverse (head ++ padded w v ++ suf) (head.length + w) (UInt8.ofNat c) =
      some (head.take (head.length + w - m) ++ padded (w - m) (v / 10 ^ m) ++ padded m (v + i + c) ++ suf,
        head.length + w - m, UInt8.ofNat ((v % 10 ^ m + i % 10 ^ m + c) / 10 ^ m)) := by
  induction m with
  | zero =>
    intro i w v c head suf hc hv hstart hle
    have htake : head.take (head.length + w - 0) = head := List.take_of_length_le (by omega)
    rw [htake]
    simp [padded, addDigits, Nat.mod_one]
  | succ m ih =>
    intro i w v c head suf hc hv hstart hle
    have hi := Nat.mod_lt i (show 0 < 10 by decide)
    rw [reverse_padded]
    cases w with
    | succ w =>
      obtain hstart : head.length = start := by
        rcases hstart with h | ⟨h, _⟩
        · exact h
        · cases h
      have hv' : v / 10 < 10 ^ w := Nat.div_lt_of_lt_mul (by rwa [← Nat.pow_succ'])
      have hmod := Nat.mod_lt v (show 0 < 10 by decide)
      have hlen : (head ++ padded w (v / 10)).length = head.length + w := by simp
      have hbuf : head ++ padded (w + 1) v ++ suf = head ++ padded w (v / 10) ++ byteOf (v % 10) :: suf := by
        simp [padded]
      have hsum : (v + i + c) / 10 = v / 10 + i / 10 + (i % 10 + v % 10 + c) / 10 := by omega
      have hlast : (v + i + c) % 10 = (i % 10 + v % 10 + c) % 10 := by omega
      rw [hbuf, ← Nat.add_assoc, ← hlen, addDigits_step _ _ _ hi hc hmod (.inl ⟨by rw [hlen]; omega, rfl⟩), hlen,
        ih (i / 10) w (v / 10) _ head _ (by omega) hv' (.inl hstart) (by omega), carry_succ, Nat.div_div_eq_div_mul,
        ← Nat.pow_succ', padded, hsum, hlast]
      simp [Nat.add_sub_add_right]
    | zero =>
      obtain rfl : v = 0 := by simpa using hv
      obtain ⟨head, x, rfl⟩ : ∃ h x, head = h ++ [x] :=
        ⟨_, _, (List.dropLast_concat_getLast (List.ne_nil_of_length_pos (by omega))).symm⟩
      have hlen : (head ++ [x]).length = head.length + 1 := by simp
      have hlt : head.length < start := by
        rcases hstart with h | ⟨_, h⟩ <;> omega
      have hbuf : head ++ [x] ++ padded 0 0 ++ suf = head ++ x :: suf := by simp [padded]
      have hbuf' : head ++ byteOf ((i % 10 + 0 + c) % 10) :: suf =
          head ++ padded 0 (0 / 10) ++ byteOf ((i % 10 + 0 + c) % 10) :: suf := by simp [padded]
      have hsum : (0 + i + c) / 10 = 0 / 10 + i / 10 + (i % 10 + 0 % 10 + c) / 10 := by omega
      have hlast : (0 + i + c) % 10 = (i % 10 + 0 + c) % 10 := by omega
      have htake : (head ++ [x]).take (head.length + 1 - (m + 1)) = head.take (head.length - m) := by
        rw [Nat.add_sub_add_right, List.take_append_of_le_length (by omega)]
      rw [hbuf, hlen, Nat.add_zero, addDigits_step _ _ _ hi hc (by decide) (.inr ⟨hlt, rfl⟩), hbuf',
        ← Nat.add_zero head.length,
        ih (i / 10) 0 (0 / 10) _ head _ (by omega) (by decide) (.inr ⟨rfl, hlt.le⟩) (by omega), carry_succ, padded, hsum, hlast, Nat.add_zero, htake]
      simp [Nat.add_sub_add_right, padded]

/-- `fast_inc_one` adds one to the digits behind the head; where all are nines, there is one digit more. -/
theorem fastIncOneLoop_spec (w : Nat) : ∀ (v : Nat) (head suf : List UInt8), v < 10 ^ w →
    (v + 1 < 10 ^ w ∨ head ≠ []) → fastIncOneLoop head.length w (head ++ padded w v ++ suf) =
      some (if v + 1 < 10 ^ w then (head ++ padded w (v + 1) ++ suf, head.length)
        else (head.dropLast ++ padded (w + 1) (v + 1) ++ suf, head.length - 1)) := by
  induction w with
  | zero =>
    intro v head suf hv hroom
    obtain rfl : v = 0 := by simpa using hv
    obtain ⟨head, x, rfl⟩ : ∃ h x, head = h ++ [x] :=
      ⟨_, _, (List.dropLast_concat_getLast (hroom.resolve_left (by decide))).symm⟩
    have hbuf : head ++ [x] ++ padded 0 0 ++ suf = head ++ x :: suf := by simp [padded]
    have hone : padded 1 1 = [49] := by decide
    rw [hbuf, fastIncOneLoop, List.length_append, List.length_singleton, Nat.add_sub_cancel, set_append_cons,
      if_neg (by simp), if_neg (by decide), hone]
    simp
  | succ w ih =>
    intro v head suf hv hroom
    have hmod := Nat.mod_lt v (show 0 < 10 by decide)
    have hv' : v / 10 < 10 ^ w := Nat.div_lt_of_lt_mul (by rwa [← Nat.pow_succ'])
    have hpow : 10 ^ (w + 1) = 10 * 10 ^ w := Nat.pow_succ'
    have hbuf : head ++ padded (w + 1) v ++ suf = head ++ padded w (v / 10) ++ byteOf (v % 10) :: suf := by
      simp [padded]
    have hlen : (head ++ padded w (v / 10)).length = head.length + w := by simp
    have hread : (head ++ padded w (v / 10) ++ byteOf (v % 10) :: suf)[head.length + w]? = some (byteOf (v % 10)) := by
      rw [← hlen]
      simp
    rw [hbuf, fastIncOneLoop]
    simp only [hread, Option.bind_eq_bind, Option.bind_some]
    rw [← hlen, set_append_cons, set_append_cons]
    by_cases hnine : v % 10 = 9
    · have hroom' : v / 10 + 1 < 10 ^ w ∨ head ≠ [] := hroom.imp (fun h => by omega) id
      have hdiv : (v + 1) / 10 = v / 10 + 1 := by omega
      have hzero : (v + 1) % 10 = 0 := by omega
      have hiff : v + 1 < 10 ^ (w + 1) ↔ v / 10 + 1 < 10 ^ w := by omega
      have hpad : ∀ k, padded (k + 1) (v + 1) = padded k (v / 10 + 1) ++ [48] := fun k => by
        rw [padded, hdiv, hzero]
        rfl
      rw [if_pos ((byteOf_nine _ hmod).2 hnine), ih _ _ _ hv' hroom', hpad w, hpad (w + 1)]
      simp only [hiff]
      split <;> simp
    · have hdiv : (v + 1) / 10 = v / 10 := by omega
      have hsucc : (v + 1) % 10 = v % 10 + 1 := by omega
      have hlt : v + 1 < 10 ^ (w + 1) := by omega
      rw [if_neg fun h => hnine ((byteOf_nine _ hmod).1 h), byteOf_succ _ (by omega), if_pos hlt, padded, hdiv, hsucc]
      simp

/-! ## The sum -/

theorem sum_div_pow (v i m : Nat) : (v + i) / 10 ^ m = v / 10 ^ m + (v % 10 ^ m + i) / 10 ^ m := by
  have hpos : 0 < 10 ^ m := Nat.pow_pos (by decide)
  conv => lhs; rw [← Nat.div_add_mod v (10 ^ m), Nat.add_assoc]
  rw [Nat.mul_add_div hpos]

theorem carry_lt {v i m : Nat} (hi : i < 10 ^ m) : (v % 10 ^ m + i) / 10 ^ m < 2 := by
  have hmod := Nat.mod_lt v (show 0 < 10 ^ m from Nat.pow_pos (by decide))
  rw [Nat.div_lt_iff_lt_mul (Nat.pow_pos (by decide))]
  omega

/-- The first loop, on what a buffer holds. -/
theorem addDigits_holds {m i w v : Nat} {head suf : List UInt8} (hi : i < 10 ^ m) (hv : v < 10 ^ w)
    (hle : m ≤ head.length + w) :
    addDigits head.length (padded m i).reverse (head ++ padded w v ++ suf) (head.length + w) 0 =
      some (head.take (head.length + w - m) ++ padded (w - m) (v / 10 ^ m) ++ padded m (v + i) ++ suf,
        head.length + w - m, UInt8.ofNat ((v % 10 ^ m + i) / 10 ^ m)) := by
  have h := addDigits_spec head.length m i w v 0 head suf (by decide) hv (.inl rfl) hle
  rwa [Nat.mod_eq_of_lt hi, Nat.add_zero, Nat.add_zero] at h

/-- The increment has no more digits than are shown. -/
theorem fastInc_narrow (head suf : List UInt8) {m i w v : Nat} (hi : i < 10 ^ m) (hv : v < 10 ^ w) (hm : m ≤ w)
    (hroom : v + i < 10 ^ w ∨ head ≠ []) :
    fastInc (head ++ padded w v ++ suf) head.length (head.length + w) (padded m i) =
      some (if v + i < 10 ^ w then (head ++ padded w (v + i) ++ suf, head.length)
        else (head.dropLast ++ padded (w + 1) (v + i) ++ suf, head.length - 1)) := by
  obtain ⟨k, rfl⟩ := Nat.exists_eq_add_of_le' hm
  have hpow : 10 ^ (k + m) = 10 ^ k * 10 ^ m := Nat.pow_add 10 k m
  have hv' : v / 10 ^ m < 10 ^ k := by rwa [Nat.div_lt_iff_lt_mul (Nat.pow_pos (by decide)), ← hpow]
  have hsum := sum_div_pow v i m
  have hcarry := carry_lt (v := v) hi
  have htake : head.take (head.length + (k + m) - m) = head := List.take_of_length_le (by omega)
  have hlt : v + i < 10 ^ (k + m) ↔ (v + i) / 10 ^ m < 10 ^ k := by
    rw [Nat.div_lt_iff_lt_mul (Nat.pow_pos (by decide)), ← hpow]
  rw [fastInc, addDigits_holds hi hv (by omega), htake, Nat.add_sub_cancel]
  simp only [Option.bind_eq_bind, Option.bind_some]
  rcases Nat.lt_succ_iff_lt_or_eq.1 hcarry with hnone | hone
  · have hzero : (v % 10 ^ m + i) / 10 ^ m = 0 := Nat.lt_one_iff.1 hnone
    rw [hzero, Nat.add_zero] at hsum
    have hmin : min head.length (head.length + (k + m) - m) = head.length := by omega
    rw [hzero, if_pos (by decide), if_pos (hlt.2 (hsum ▸ hv')), padded_add, hsum, hmin]
    simp
  · rw [hone] at hsum
    have hstop : head.length + (k + m) - m - head.length = k := by omega
    have hroom' : v / 10 ^ m + 1 < 10 ^ k ∨ head ≠ [] := hroom.imp (fun h => by rw [← hsum]; exact hlt.1 h) id
    have hspec := fastIncOneLoop_spec k (v / 10 ^ m) head (padded m (v + i) ++ suf) hv' hroom'
    rw [hone, if_neg (by decide), fastIncOne, hstop]
    simp only [← List.append_assoc] at hspec
    rw [hspec, ← hsum]
    simp only [hlt]
    have hmore : k + m + 1 = k + 1 + m := by omega
    rw [hmore, padded_add k m, padded_add (k + 1) m]
    simp only [List.append_assoc]

/-- The increment has more digits than are shown, and as many as the sum. -/
theorem fastInc_wide (head suf : List UInt8) {m i w v : Nat} (hi : i < 10 ^ m) (hv : v < 10 ^ w) (hm : w < m)
    (hle : m ≤ head.length + w) (hsum : v + i < 10 ^ m) :
    fastInc (head ++ padded w v ++ suf) head.length (head.length + w) (padded m i) =
      some (head.take (head.length + w - m) ++ padded m (v + i) ++ suf, head.length + w - m) := by
  have hv' : v % 10 ^ m = v := Nat.mod_eq_of_lt (by omega)
  have hzero : w - m = 0 := by omega
  have hmin : min head.length (head.length + w - m) = head.length + w - m := by omega
  rw [fastInc, addDigits_holds hi hv hle, hv', Nat.div_eq_of_lt hsum, hzero]
  simp [hmin, padded]

/-- The increment has more digits than are shown, and fewer than the sum: the carry is written into the digit in front
of those that were shown. -/
theorem fastInc_dropped (head suf : List UInt8) {m i w v : Nat} (hi : i < 10 ^ m) (hv : v < 10 ^ w) (hm : w < m)
    (hle : m ≤ head.length + w) (hsum : 10 ^ m ≤ v + i) :
    fastInc (head ++ padded w v ++ suf) head.length (head.length + w) (padded m i) =
      some (head.take (head.length + w - m) ++ padded (m - (w + 1)) ((v + i) / 10 ^ (w + 1)) ++
        padded (w + 1) (10 ^ w + (v + i) % 10 ^ w) ++ suf, head.length - 1) := by
  have hmod : v % 10 ^ m = v := Nat.mod_eq_of_lt (lt_of_lt_of_le hv (Nat.pow_le_pow_right (by decide) hm.le))
  have hcarry := carry_lt (v := v) hi
  rw [hmod] at hcarry
  have hone : (v + i) / 10 ^ m = 1 := by
    have := (Nat.one_le_div_iff (Nat.pow_pos (by decide))).2 hsum
    omega
  have hzero : w - m = 0 := by omega
  have hstop : head.length + w - m - head.length = 0 := by omega
  -- the digits of the sum are those in front of the lost digit, this digit, and those that were shown
  have hcut : padded m (v + i) = padded (m - (w + 1)) ((v + i) / 10 ^ (w + 1)) ++
      byteOf ((v + i) / 10 ^ w % 10) :: padded w (v + i) := by
    have hm' : m = m - (w + 1) + (1 + w) := by omega
    conv => lhs; rw [hm', padded_add, padded_add 1 w]
    rw [Nat.add_comm 1 w]
    simp [padded]
  have hnew : padded (w + 1) (10 ^ w + (v + i) % 10 ^ w) = 49 :: padded w (v + i) := by
    have hmod := Nat.mod_lt (v + i) (show 0 < 10 ^ w from Nat.pow_pos (by decide))
    have hdiv : (10 ^ w + (v + i) % 10 ^ w) / 10 ^ w = 1 := by
      rw [Nat.add_div_left _ (Nat.pow_pos (by decide)), Nat.div_eq_of_lt hmod]
    rw [Nat.add_comm w 1, padded_add, hdiv, ← padded_mod w (10 ^ w + (v + i) % 10 ^ w), Nat.add_mod_left, Nat.mod_mod,
      padded_mod]
    rfl
  generalize hpre : head.take (head.length + w - m) ++ padded (m - (w + 1)) ((v + i) / 10 ^ (w + 1)) = pre
  have hlen : pre.length = head.length - 1 := by
    rw [← hpre, List.length_append, List.length_take, length_padded]
    omega
  have hbuf : head.take (head.length + w - m) ++ padded 0 (v / 10 ^ m) ++
      (padded (m - (w + 1)) ((v + i) / 10 ^ (w + 1)) ++ byteOf ((v + i) / 10 ^ w % 10) :: padded w (v + i)) ++
      suf = pre ++ byteOf ((v + i) / 10 ^ w % 10) :: (padded w (v + i) ++ suf) := by
    simp [← hpre, padded]
  rw [fastInc, addDigits_holds hi hv hle, hmod, hone, hzero, hcut, hbuf]
  simp only [Option.bind_eq_bind, Option.bind_some]
  rw [if_neg (by decide), fastIncOne, hstop, fastIncOneLoop, if_neg, ← hlen, set_append_cons, hnew]
  · simp
  · rw [List.length_append, List.length_cons]
    omega

/-! ## What a buffer holds -/

/-- Behind its head, the buffer holds `w` digits that are shown, and then its end. -/
structure Holds (val : List UInt8) (start w v : Nat) (suf : List UInt8) : Prop where
  intro ::
  fits : v < 10 ^ w
  digits : ∃ head, val = head ++ padded w v ++ suf ∧ head.length = start

/-- The carry would leave digits that are not shown. -/
def Dropped (w v i : Nat) : Prop := w < numDigits i ∧ 10 ^ numDigits i ≤ v + i

instance (w v i : Nat) : Decidable (Dropped w v i) := by
  unfold Dropped
  infer_instance

/-- The increment is added: as many digits are shown as before, or as the sum has. -/
theorem fastInc_spec {val suf : List UInt8} {start w v i : Nat} (h : Holds val start w v suf) (hwide : ¬ Dropped w v i)
    (hroom : numDigits (v + i) ≤ start + w) :
    ∃ val' start', fastInc val start (start + w) (decimal i) = some (val', start') ∧
      Holds val' start' (max w (numDigits (v + i))) (v + i) suf ∧ start' + max w (numDigits (v + i)) = start + w := by
  obtain ⟨hv, head, rfl, rfl⟩ := h
  have hpos := numDigits_pos i
  have hi := lt_pow_numDigits i
  have hmono : numDigits i ≤ numDigits (v + i) := numDigits_mono (Nat.le_add_left i v)
  rw [decimal_eq]
  by_cases hm : numDigits i ≤ w
  · have hfits : v + i < 10 ^ w ↔ numDigits (v + i) ≤ w := (numDigits_le_iff (by omega)).symm
    have hhead : v + i < 10 ^ w ∨ head ≠ [] := by
      refine or_iff_not_imp_left.2 fun hlt hnil => ?_
      rw [hnil, List.length_nil, Nat.zero_add] at hroom
      exact hlt (hfits.2 hroom)
    have hnext := fastInc_narrow head suf hi hv hm hhead
    by_cases hlt : v + i < 10 ^ w
    · have hmax : max w (numDigits (v + i)) = w := max_eq_left (hfits.1 hlt)
      rw [if_pos hlt] at hnext
      rw [hmax]
      exact ⟨_, _, hnext, ⟨hlt, head, rfl, rfl⟩, rfl⟩
    · have hlt' : v + i < 10 ^ (w + 1) := by
        have := Nat.pow_le_pow_right (show 0 < 10 by decide) hm
        rw [Nat.pow_succ]
        omega
      have hle : numDigits (v + i) ≤ w + 1 := (numDigits_le_iff (Nat.succ_pos w)).2 hlt'
      have hge : w < numDigits (v + i) := not_le.1 fun h => hlt (hfits.2 h)
      have hmax : max w (numDigits (v + i)) = w + 1 := by omega
      rw [if_neg hlt] at hnext
      rw [hmax]
      refine ⟨_, _, hnext, ⟨hlt', head.dropLast, rfl, List.length_dropLast⟩, ?_⟩
      omega
  · have hsum : v + i < 10 ^ numDigits i := not_le.1 fun h => hwide ⟨not_le.1 hm, h⟩
    have hle : numDigits (v + i) ≤ numDigits i := (numDigits_le_iff hpos).2 hsum
    have hmax : max w (numDigits (v + i)) = numDigits i := by omega
    have hnext := fastInc_wide head suf hi hv (not_le.1 hm) (by omega) hsum
    rw [hmax]
    refine ⟨_, _, hnext, ⟨hsum, _, rfl, ?_⟩, by omega⟩
    rw [List.length_take]
    omega

/-- A dropped carry leaves a number with fewer digits than the sum has. -/
theorem fastInc_wrong {val suf : List UInt8} {start w v i : Nat} (h : Holds val start w v suf) (hdrop : Dropped w v i)
    (hroom : numDigits (v + i) ≤ start + w) :
    ∃ val' start' v', fastInc val start (start + w) (decimal i) = some (val', start') ∧
      Holds val' start' (w + 1) v' suf ∧ start' + (w + 1) = start + w ∧ v' ≤ v + i ∧ w + 1 < numDigits (v + i) := by
  obtain ⟨hv, head, rfl, rfl⟩ := h
  obtain ⟨hm, hsum⟩ := hdrop
  have hi := lt_pow_numDigits i
  have hmono : numDigits i < numDigits (v + i) := not_le.1 fun h =>
    absurd ((numDigits_le_iff (numDigits_pos i)).1 h) (not_lt.2 hsum)
  have hnext := fastInc_dropped head suf hi hv hm (by omega) hsum
  have hmod := Nat.mod_lt (v + i) (show 0 < 10 ^ w from Nat.pow_pos (by decide))
  have hpow : 10 ^ (w + 1) ≤ 10 ^ numDigits i := Nat.pow_le_pow_right (by decide) hm
  have hpow' : 10 ^ (w + 1) = 10 * 10 ^ w := Nat.pow_succ'
  rw [← decimal_eq] at hnext
  refine ⟨_, _, _, hnext, ⟨by omega, _, rfl, ?_⟩, by omega, by omega, by omega⟩
  rw [List.length_append, List.length_take, length_padded]
  omega

/-- In each case something is shown that is no greater than the sum, with no more digits than it would have. -/
theorem fastInc_le {val suf : List UInt8} {start w v i : Nat} (h : Holds val start w v suf)
    (hroom : numDigits (v + i) ≤ start + w) :
    ∃ val' start' w' v', fastInc val start (start + w) (decimal i) = some (val', start') ∧ Holds val' start' w' v' suf ∧
      start' + w' = start + w ∧ v' ≤ v + i ∧ w' ≤ max w (numDigits (v + i)) := by
  by_cases hdrop : Dropped w v i
  · obtain ⟨val', start', v', hnext, hholds, hend, hv, hw⟩ := fastInc_wrong h hdrop hroom
    exact ⟨val', start', w + 1, v', hnext, hholds, hend, hv, by omega⟩
  · obtain ⟨val', start', hnext, hholds, hend⟩ := fastInc_spec h hdrop hroom
    exact ⟨val', start', _, _, hnext, hholds, hend, le_refl _, le_refl _⟩

end Peiosutils.Seq
