import Mathlib.Data.List.TakeWhile
import Peiosutils.Lib.Lexical

/-!
# The order of device names (`natural_cmp`)

Runs of digits are compared as numbers and other characters one by one. A name is a sequence of keys, a run or a
character each, and names are compared as these are (`naturalCmp_eq_order`): a run stands among the characters where
digits stand. So this is a total preorder, in which names are equal that differ in leading zeros of runs, or in runs
that are too large (`naturalCmp_preorder`).
-/

set_option autoImplicit false

namespace Peiosutils.Part

open Lexical (order)

def u64Max : Nat := 18446744073709551615

def saturatingMul (a b : Nat) : Nat := min (a * b) u64Max

def saturatingAdd (a b : Nat) : Nat := min (a + b) u64Max

/-- The number at the front, and what is behind it. -/
def takeNumber (number : Nat) : List Char → Nat × List Char
  | [] => (number, [])
  | c :: cs =>
    if c.isDigit then takeNumber (saturatingAdd (saturatingMul number 10) (c.toNat - 48)) cs else (number, c :: cs)

theorem length_takeNumber_le (number : Nat) (s : List Char) : (takeNumber number s).2.length ≤ s.length := by
  induction s generalizing number with
  | nil => exact Nat.le_refl _
  | cons c cs ih =>
    rw [takeNumber]
    split
    next => exact (ih _).trans (Nat.le_succ _)
    next => exact Nat.le_refl _

theorem length_takeNumber_lt {c : Char} (hc : c.isDigit = true) (number : Nat) (cs : List Char) :
    (takeNumber number (c :: cs)).2.length < (c :: cs).length := by
  rw [takeNumber, if_pos hc]
  exact Nat.lt_succ_of_le (length_takeNumber_le _ cs)

def naturalCmp : List Char → List Char → Ordering
  | [], [] => .eq
  | [], _ :: _ => .lt
  | _ :: _, [] => .gt
  | l :: left, r :: right =>
    if _h : l.isDigit ∧ r.isDigit then
      (compare (takeNumber 0 (l :: left)).1 (takeNumber 0 (r :: right)).1).then
        (naturalCmp (takeNumber 0 (l :: left)).2 (takeNumber 0 (r :: right)).2)
    else (compare l.toNat r.toNat).then (naturalCmp left right)
termination_by left => left.length
decreasing_by
  · exact length_takeNumber_lt _h.1 0 left
  · exact Nat.lt_succ_self _

/-! ## Keys -/

/-- A character by itself, or a digit with the number of its run. -/
def keys : List Char → List (Nat ×ₗ Nat)
  | [] => []
  | c :: cs =>
    if _h : c.isDigit then toLex (48, (takeNumber 0 (c :: cs)).1) :: keys (takeNumber 0 (c :: cs)).2
    else toLex (c.toNat, 0) :: keys cs
termination_by s => s.length
decreasing_by
  · exact length_takeNumber_lt _h 0 cs
  · exact Nat.lt_succ_self _

theorem keys_digit {c : Char} (hc : c.isDigit = true) (cs : List Char) :
    keys (c :: cs) = toLex (48, (takeNumber 0 (c :: cs)).1) :: keys (takeNumber 0 (c :: cs)).2 := by
  rw [keys, dif_pos hc]

theorem keys_other {c : Char} (hc : ¬ c.isDigit = true) (cs : List Char) :
    keys (c :: cs) = toLex (c.toNat, 0) :: keys cs := by
  rw [keys, dif_neg hc]

theorem isDigit_iff {c : Char} : c.isDigit = true ↔ 48 ≤ c.toNat ∧ c.toNat ≤ 57 := by
  simp only [Char.isDigit, Bool.and_eq_true, decide_eq_true_eq, ge_iff_le, UInt32.le_iff_toNat_le]
  rfl

theorem order_key (a b m n : Nat) : order (toLex (a, m)) (toLex (b, n)) = (order a b).then (order m n) :=
  Lexical.order_pair (a, m) (b, n)

theorem keys_cons (c : Char) (cs : List Char) : ∃ k ks, keys (c :: cs) = k :: ks := by
  by_cases hc : c.isDigit = true
  · exact ⟨_, _, keys_digit hc cs⟩
  · exact ⟨_, _, keys_other hc cs⟩

/-- Digits stand together among the characters. -/
theorem order_digit {c d : Char} (hc : c.isDigit = true) (hd : ¬ d.isDigit = true) :
    order 48 d.toNat = order c.toNat d.toNat ∧ order c.toNat d.toNat ≠ .eq := by
  rw [isDigit_iff] at hc hd
  rcases Nat.lt_or_ge d.toNat 48 with hlt | hge
  · have hgt : order c.toNat d.toNat = .gt := Lexical.order_gt.2 (by omega)
    rw [hgt]
    exact ⟨Lexical.order_gt.2 hlt, fun h => by cases h⟩
  · have hlt : order c.toNat d.toNat = .lt := Lexical.order_lt.2 (by omega)
    rw [hlt]
    exact ⟨Lexical.order_lt.2 (by omega), fun h => by cases h⟩

theorem order_keys_mixed {l r : Char} (h : ¬ (l.isDigit = true ∧ r.isDigit = true)) (left right : List Char) :
    order (keys (l :: left)) (keys (r :: right)) = (order l.toNat r.toNat).then (order (keys left) (keys right)) := by
  by_cases hl : l.isDigit = true
  · have hr : ¬ r.isDigit = true := fun hr => h ⟨hl, hr⟩
    obtain ⟨heq, hne⟩ := order_digit hl hr
    rw [keys_digit hl, keys_other hr, Lexical.order_cons, order_key, heq, Lexical.then_of_ne hne,
      Lexical.then_of_ne hne, Lexical.then_of_ne hne]
  · by_cases hr : r.isDigit = true
    · obtain ⟨heq, hne⟩ := order_digit hr hl
      have hswap : order l.toNat 48 = order l.toNat r.toNat := by
        rw [← Lexical.order_swap, heq, Lexical.order_swap]
      have hne' : order l.toNat r.toNat ≠ .eq := fun h => hne (Lexical.order_eq.2 (Lexical.order_eq.1 h).symm)
      rw [keys_other hl, keys_digit hr, Lexical.order_cons, order_key, hswap, Lexical.then_of_ne hne',
        Lexical.then_of_ne hne', Lexical.then_of_ne hne']
    · rw [keys_other hl, keys_other hr, Lexical.order_cons, order_key, Lexical.order_eq.2 (rfl : 0 = 0)]
      cases order l.toNat r.toNat <;> rfl

theorem naturalCmp_eq_order (left right : List Char) : naturalCmp left right = order (keys left) (keys right) := by
  fun_induction naturalCmp left right with
  | case1 => exact (Lexical.order_eq.2 rfl).symm
  | case2 r right =>
    obtain ⟨k, ks, hkeys⟩ := keys_cons r right
    rw [hkeys, keys]
    exact (Lexical.order_lt.2 (List.nil_lt_cons k ks)).symm
  | case3 l left =>
    obtain ⟨k, ks, hkeys⟩ := keys_cons l left
    rw [hkeys, keys]
    exact (Lexical.order_gt.2 (List.nil_lt_cons k ks)).symm
  | case4 l left r right h ih =>
    rw [keys_digit h.1, keys_digit h.2, Lexical.order_cons, ih, order_key, Lexical.order_eq.2 rfl]
    rfl
  | case5 l left r right h ih =>
    rw [order_keys_mixed h, ih]
    rfl

/-! ## Names that are equal -/

/-- The number of a run. -/
def runValue (run : List Char) : Nat := Lexical.value (run.map fun c => c.toNat - 48)

/-- Runs of one number apart from leading zeros, or of numbers that do not fit. -/
def SameRun (r s : List Char) : Prop :=
  r.dropWhile (· = '0') = s.dropWhile (· = '0') ∨
    u64Max ≤ runValue r ∧ u64Max ≤ runValue s ∧ (u64Max < runValue r ∨ u64Max < runValue s)

/-- A run of digits to its end. -/
structure Run (s run rest : List Char) : Prop where
  whole : s = run ++ rest
  ne : run ≠ []
  digits : ∀ c ∈ run, c.isDigit = true
  ends : ∀ c ∈ rest.head?, c.isDigit = false

/-- The same characters and runs. -/
inductive Alike : List Char → List Char → Prop
  | nil : Alike [] []
  | char {c : Char} {left right : List Char} (hc : c.isDigit = false) (h : Alike left right) :
    Alike (c :: left) (c :: right)
  | run {left right r s left' right' : List Char} (hl : Run left r left') (hr : Run right s right')
    (hsame : SameRun r s) (h : Alike left' right') : Alike left right

theorem run_takeWhile {c : Char} (hc : c.isDigit = true) (cs : List Char) :
    Run (c :: cs) ((c :: cs).takeWhile Char.isDigit) ((c :: cs).dropWhile Char.isDigit) where
  whole := List.takeWhile_append_dropWhile.symm
  ne := by
    rw [List.takeWhile_cons_of_pos hc]
    exact List.cons_ne_nil _ _
  digits := fun c hc => List.mem_takeWhile_imp hc
  ends := by
    intro d hd
    have h := List.head?_dropWhile_not Char.isDigit (c :: cs)
    rw [Option.mem_def.1 hd] at h
    exact h

/-- A number that no longer fits is the largest one. -/
theorem takeNumber_append {run rest : List Char} (hdigits : ∀ c ∈ run, c.isDigit = true)
    (hends : ∀ c ∈ rest.head?, c.isDigit = false) (n : Nat) :
    takeNumber (min n u64Max) (run ++ rest) =
      (min ((run.map fun c => c.toNat - 48).foldl (fun n d => 10 * n + d) n) u64Max, rest) := by
  induction run generalizing n with
  | nil =>
    cases rest with
    | nil => rfl
    | cons c rest =>
      have hc : ¬ c.isDigit = true := by rw [hends c rfl]; exact Bool.false_ne_true
      exact if_neg hc
  | cons c run ih =>
    rw [List.forall_mem_cons] at hdigits
    have hsaturated : saturatingAdd (saturatingMul (min n u64Max) 10) (c.toNat - 48) =
        min (10 * n + (c.toNat - 48)) u64Max := by
      simp only [saturatingAdd, saturatingMul, u64Max]
      omega
    rw [List.cons_append, takeNumber, if_pos hdigits.1, hsaturated, ih hdigits.2]
    rfl

theorem takeNumber_run {s run rest : List Char} (h : Run s run rest) :
    takeNumber 0 s = (min (runValue run) u64Max, rest) := by
  rw [h.whole]
  exact takeNumber_append h.digits h.ends 0

/-! ## Leading zeros -/

theorem digits_lt {run : List Char} (h : ∀ c ∈ run, c.isDigit = true) : ∀ d ∈ run.map fun c => c.toNat - 48, d < 10 := by
  intro d hd
  obtain ⟨c, hc, rfl⟩ := List.mem_map.1 hd
  have hdigit := isDigit_iff.1 (h c hc)
  omega

theorem runValue_dropWhile (run : List Char) : runValue (run.dropWhile (· = '0')) = runValue run := by
  induction run with
  | nil => rfl
  | cons c run ih =>
    by_cases hc : c = '0'
    · have hvalue : runValue ('0' :: run) = runValue run := by
        rw [runValue, List.map_cons, Lexical.value_cons]
        exact (congrArg (· + runValue run) (Nat.zero_mul _)).trans (Nat.zero_add _)
      have hdrop : ('0' :: run).dropWhile (· = '0') = run.dropWhile (· = '0') :=
        List.dropWhile_cons_of_pos (by decide)
      rw [hc, hdrop, ih, hvalue]
    · rw [List.dropWhile_cons_of_neg (by simpa using hc)]

theorem ofNat_digit {c : Char} (hc : c.isDigit = true) : Char.ofNat (c.toNat - 48 + 48) = c := by
  rw [isDigit_iff] at hc
  rw [Nat.sub_add_cancel hc.1, Char.ofNat_toNat]

theorem map_digits {run : List Char} (h : ∀ c ∈ run, c.isDigit = true) :
    (run.map fun c => c.toNat - 48).map (fun d => Char.ofNat (d + 48)) = run := by
  rw [List.map_map]
  exact (List.map_congr_left fun c hc => ofNat_digit (h c hc)).trans (List.map_id run)

/-- Digits that do not begin with a zero are those of their number only. -/
theorem eq_of_runValue_eq {r s : List Char} (hr : ∀ c ∈ r, c.isDigit = true) (hs : ∀ c ∈ s, c.isDigit = true)
    (hr0 : r.head? ≠ some '0') (hs0 : s.head? ≠ some '0') (h : runValue r = runValue s) : r = s := by
  have hhead : ∀ t : List Char, (∀ c ∈ t, c.isDigit = true) → t.head? ≠ some '0' →
      (t.map fun c => c.toNat - 48).head? ≠ some 0 := by
    intro t ht ht0 hzero
    cases t with
    | nil => cases hzero
    | cons c t =>
      have hc : c.toNat - 48 = 0 := Option.some.inj hzero
      have hdigit := ofNat_digit (ht c List.mem_cons_self)
      rw [hc] at hdigit
      exact ht0 (congrArg some hdigit.symm)
  have hmap := Lexical.eq_of_value_eq (digits_lt hr) (digits_lt hs) (hhead r hr hr0) (hhead s hs hs0) h
  rw [← map_digits hr, ← map_digits hs, hmap]

theorem head_dropWhile_zero (run : List Char) : (run.dropWhile (· = '0')).head? ≠ some '0' := by
  intro hhead
  have h := List.head?_dropWhile_not (fun c => decide (c = '0')) run
  rw [hhead] at h
  exact absurd h (by decide)

theorem sameRun_of_min_eq {r s : List Char} (hr : ∀ c ∈ r, c.isDigit = true) (hs : ∀ c ∈ s, c.isDigit = true)
    (h : min (runValue r) u64Max = min (runValue s) u64Max) : SameRun r s := by
  by_cases heq : runValue r = runValue s
  · refine .inl (eq_of_runValue_eq ?_ ?_ ?_ ?_ ?_)
    · exact fun c hc => hr c ((List.dropWhile_sublist _).subset hc)
    · exact fun c hc => hs c ((List.dropWhile_sublist _).subset hc)
    · exact head_dropWhile_zero r
    · exact head_dropWhile_zero s
    · rw [runValue_dropWhile, runValue_dropWhile, heq]
  · exact .inr (by omega)

theorem alike_of_eq {left right : List Char} (h : naturalCmp left right = .eq) : Alike left right := by
  fun_induction naturalCmp left right with
  | case1 => exact .nil
  | case2 => cases h
  | case3 => cases h
  | case4 l left r right hdigits ih =>
    obtain ⟨hnumber, hrest⟩ := Ordering.then_eq_eq.1 h
    have hl := run_takeWhile hdigits.1 left
    have hr := run_takeWhile hdigits.2 right
    rw [takeNumber_run hl, takeNumber_run hr] at hnumber hrest ih
    exact .run hl hr (sameRun_of_min_eq hl.digits hr.digits (compare_eq_iff_eq.1 hnumber)) (ih hrest)
  | case5 l left r right hdigits ih =>
    obtain ⟨hchar, hrest⟩ := Ordering.then_eq_eq.1 h
    obtain rfl : l = r := Char.toNat_inj.1 (compare_eq_iff_eq.1 hchar)
    have hl : l.isDigit = false := Bool.eq_false_iff.2 fun hl => hdigits ⟨hl, hl⟩
    exact .char hl (ih hrest)

/-- Names are compared in a total preorder, and equal names differ in leading zeros, or in runs that do not fit. -/
theorem naturalCmp_preorder :
    (∀ a b, naturalCmp a b = (naturalCmp b a).swap) ∧
      (∀ a b c, naturalCmp a b ≠ .gt → naturalCmp b c ≠ .gt → naturalCmp a c ≠ .gt) ∧
      ∀ a b, naturalCmp a b = .eq → Alike a b := by
  refine ⟨fun a b => ?_, fun a b c hab hbc => ?_, fun a b => alike_of_eq⟩
  · rw [naturalCmp_eq_order, naturalCmp_eq_order, Lexical.order_swap]
  · rw [naturalCmp_eq_order, Lexical.order_ne_gt] at hab hbc ⊢
    exact le_trans hab hbc

end Peiosutils.Part
