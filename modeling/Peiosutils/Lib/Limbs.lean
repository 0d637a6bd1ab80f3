import Mathlib.Data.List.TakeWhile
import Mathlib.Data.Nat.Digits.Lemmas
import Peiosutils.Lib.While

/-!
# Numbers in limbs, and from one base to another

A number is kept as a list of limbs below `W`, the lowest first; its value is `Nat.ofDigits W`. Multiplying by a factor
up to `W` and adding a limb stays below `W * W` at every limb (`mulAdd_spec`), and so does a long division by a divisor
up to `W` (`divLimbs_spec`). `popZeros` drops limbs at the top that are zero, except for the last one (`popZeros_spec`).

`rebase b c` writes digits of base `b`, the highest first, in base `c` and keeps the number of zeros in front.
Back again
it is the identity (`rebase_rebase`).
-/

set_option autoImplicit false

namespace Limbs

open While (Stop)

variable {W : Nat}

/-- A result that has to be below `limit`. -/
def checked (limit n : Nat) : Except Stop Nat := if n < limit then .ok n else .error .panic

/-- Multiplies the limbs by `factor` and adds `carry`; with the carry that is left over at the top. -/
def mulAddLimbs (W factor : Nat) : List Nat → (carry : Nat) → Except Stop (List Nat × Nat)
  | [], carry => .ok ([], carry)
  | n :: ns, carry => do
    let tmp ← checked (W * W) (n * factor + carry)
    let carry ← checked W (tmp / W)
    let (ns, carry) ← mulAddLimbs W factor ns carry
    return (tmp % W :: ns, carry)

/-- The carry that is left over is one more limb, unless it is zero. -/
def mulAdd (W factor : Nat) (num : List Nat) (carry : Nat) : Except Stop (List Nat) := do
  let (num, carry) ← mulAddLimbs W factor num carry
  return if carry > 0 then num ++ [carry] else num

/-- Divides the limbs from the top down; with the remainder. -/
def divLimbs (W divisor : Nat) : List Nat → Except Stop (List Nat × Nat)
  | [] => .ok ([], 0)
  | n :: ns => do
    let (ns, carry) ← divLimbs W divisor ns
    let tmp ← checked (W * W) (carry * W + n)
    let n ← checked W (tmp / divisor)
    return (n :: ns, tmp % divisor)

/-- From the back: zeros are skipped while there is something behind them. -/
def skipZeros : List Nat → List Nat
  | 0 :: n :: ns => skipZeros (n :: ns)
  | ns => ns

/-- Zeros at the end are popped, as long as there is more than one limb. -/
def popZeros (num : List Nat) : List Nat := (skipZeros num.reverse).reverse

/-- Limbs below `W`. -/
def Fits (W : Nat) (num : List Nat) : Prop := ∀ n ∈ num, n < W

theorem checked_of_lt {limit n : Nat} (h : n < limit) : checked limit n = .ok n := if_pos h

theorem Fits.of_cons {n : Nat} {ns : List Nat} (h : Fits W (n :: ns)) : n < W ∧ Fits W ns := List.forall_mem_cons.1 h

theorem Fits.cons {n : Nat} {ns : List Nat} (hn : n < W) (hns : Fits W ns) : Fits W (n :: ns) :=
  List.forall_mem_cons.2 ⟨hn, hns⟩

/-! ## Multiplication -/

/-- The carries stay below a limb, and all products with them below two. -/
theorem mulAddLimbs_spec {factor : Nat} (hfactor : factor ≤ W) :
    ∀ {num : List Nat} {carry : Nat}, Fits W num → carry < W →
      ∃ num' carry', mulAddLimbs W factor num carry = .ok (num', carry') ∧ Fits W num' ∧ carry' < W ∧
        Nat.ofDigits W (num' ++ [carry']) = Nat.ofDigits W num * factor + carry := by
  intro num
  induction num with
  | nil =>
    intro carry _ hcarry
    exact ⟨[], carry, rfl, (fun n hn => nomatch hn), hcarry, by simp⟩
  | cons n ns ih =>
    intro carry hfits hcarry
    obtain ⟨hn, hns⟩ := hfits.of_cons
    have hpos : 0 < W := Nat.zero_lt_of_lt hn
    have htmp : n * factor + carry < W * W := by
      calc n * factor + carry < n * W + W := Nat.add_lt_add_of_le_of_lt (Nat.mul_le_mul_left n hfactor) hcarry
        _ = (n + 1) * W := (Nat.succ_mul n W).symm
        _ ≤ W * W := Nat.mul_le_mul_right W hn
    have hdiv : (n * factor + carry) / W < W := Nat.div_lt_of_lt_mul htmp
    obtain ⟨num', carry', hrun, hfits', hcarry', hvalue⟩ := ih hns hdiv
    refine ⟨(n * factor + carry) % W :: num', carry', ?_, .cons (Nat.mod_lt _ hpos) hfits', hcarry', ?_⟩
    · simp only [mulAddLimbs, checked_of_lt htmp, checked_of_lt hdiv, hrun, bind, Except.bind, pure, Except.pure]
    · rw [List.cons_append, Nat.ofDigits_cons, hvalue, Nat.ofDigits_cons]
      calc (n * factor + carry) % W + W * (Nat.ofDigits W ns * factor + (n * factor + carry) / W)
        _ = ((n * factor + carry) % W + W * ((n * factor + carry) / W)) + W * (Nat.ofDigits W ns * factor) := by ring
        _ = (n * factor + carry) + W * (Nat.ofDigits W ns * factor) := by rw [Nat.mod_add_div]
        _ = (n + W * Nat.ofDigits W ns) * factor + carry := by ring

theorem mulAdd_spec {factor : Nat} (hfactor : factor ≤ W) {num : List Nat} {carry : Nat} (hfits : Fits W num)
    (hcarry : carry < W) : ∃ num', mulAdd W factor num carry = .ok num' ∧ Fits W num' ∧
      Nat.ofDigits W num' = Nat.ofDigits W num * factor + carry := by
  obtain ⟨num', carry', hrun, hfits', hcarry', hvalue⟩ := mulAddLimbs_spec hfactor hfits hcarry
  refine ⟨if carry' > 0 then num' ++ [carry'] else num', ?_, ?_, ?_⟩
  · simp only [mulAdd, hrun, bind, Except.bind, pure, Except.pure]
  · split
    · exact List.forall_mem_append.2 ⟨hfits', fun n hn => List.mem_singleton.1 hn ▸ hcarry'⟩
    · exact hfits'
  · rw [← hvalue]
    split
    · rfl
    · rename_i h
      rw [Nat.eq_zero_of_not_pos h, Nat.ofDigits_append_zero]

/-- Digits that are taken in one after the other, the highest first. -/
theorem foldlM_mulAdd {factor : Nat} (hfactor : factor ≤ W) : ∀ {ds num : List Nat}, Fits W num → (∀ d ∈ ds, d < W) →
    ∃ num', ds.foldlM (mulAdd W factor) num = .ok num' ∧ Fits W num' ∧
      Nat.ofDigits W num' = Nat.ofDigits factor (ds.reverse ++ [Nat.ofDigits W num]) := by
  intro ds
  induction ds with
  | nil =>
    intro num hfits _
    exact ⟨num, rfl, hfits, by simp⟩
  | cons d ds ih =>
    intro num hfits hds
    obtain ⟨num₁, hrun₁, hfits₁, hvalue₁⟩ := mulAdd_spec hfactor hfits (hds d List.mem_cons_self)
    obtain ⟨num', hrun, hfits', hvalue⟩ := ih hfits₁ fun d hd => hds d (List.mem_cons_of_mem _ hd)
    refine ⟨num', ?_, hfits', ?_⟩
    · rw [List.foldlM_cons, hrun₁]
      exact hrun
    · rw [hvalue, hvalue₁, List.reverse_cons, List.append_assoc, Nat.ofDigits_append, Nat.ofDigits_append]
      simp only [List.cons_append, List.nil_append, Nat.ofDigits_cons, Nat.ofDigits_nil]
      ring

/-! ## Division -/

theorem divLimbs_spec {divisor : Nat} (hpos : 0 < divisor) (hle : divisor ≤ W) {num : List Nat} (hfits : Fits W num) :
    ∃ num', divLimbs W divisor num = .ok (num', Nat.ofDigits W num % divisor) ∧ Fits W num' ∧
      Nat.ofDigits W num' = Nat.ofDigits W num / divisor := by
  induction num with
  | nil => exact ⟨[], by simp [divLimbs], hfits, by simp⟩
  | cons n ns ih =>
    obtain ⟨hn, hns⟩ := hfits.of_cons
    obtain ⟨num', hrun, hfits', hvalue⟩ := ih hns
    generalize hv : Nat.ofDigits W ns = v at hrun hvalue
    have htmp : v % divisor * W + n < divisor * W := by
      calc v % divisor * W + n < v % divisor * W + W := Nat.add_lt_add_left hn _
        _ = (v % divisor + 1) * W := (Nat.succ_mul _ W).symm
        _ ≤ divisor * W := Nat.mul_le_mul_right W (Nat.mod_lt v hpos)
    have hdouble : v % divisor * W + n < W * W := htmp.trans_le (Nat.mul_le_mul_right W hle)
    have hlimb : (v % divisor * W + n) / divisor < W := Nat.div_lt_of_lt_mul htmp
    have hsplit : n + W * v = v % divisor * W + n + divisor * (W * (v / divisor)) := by
      calc n + W * v = n + W * (v % divisor + divisor * (v / divisor)) := by rw [Nat.mod_add_div]
        _ = v % divisor * W + n + divisor * (W * (v / divisor)) := by ring
    refine ⟨(v % divisor * W + n) / divisor :: num', ?_, .cons hlimb hfits', ?_⟩
    · rw [Nat.ofDigits_cons, hv, hsplit, Nat.add_mul_mod_self_left]
      simp only [divLimbs, hrun, checked_of_lt hdouble, checked_of_lt hlimb, bind, Except.bind, pure, Except.pure]
    · rw [Nat.ofDigits_cons, Nat.ofDigits_cons, hvalue, hv, hsplit, Nat.add_mul_div_left _ _ hpos]

/-- All limbs are zero. -/
theorem ofDigits_eq_zero_iff (hW : 0 < W) {num : List Nat} : Nat.ofDigits W num = 0 ↔ ∀ n ∈ num, n = 0 := by
  induction num with
  | nil => simp
  | cons n ns ih =>
    rw [Nat.ofDigits_cons, Nat.add_eq_zero_iff, Nat.mul_eq_zero, or_iff_right hW.ne', ih, List.forall_mem_cons]

/-! ## Zeros at the top -/

theorem skipZeros_spec (ns : List Nat) : ∃ k, ns = List.replicate k 0 ++ skipZeros ns ∧
    ((skipZeros ns).head? = some 0 → skipZeros ns = [0]) := by
  induction ns using skipZeros.induct with
  | case1 n ns ih =>
    obtain ⟨k, hns, hhead⟩ := ih
    exact ⟨k + 1, by rw [skipZeros, List.replicate_succ, List.cons_append, ← hns], by rwa [skipZeros]⟩
  | case2 ns hns =>
    have hskip : skipZeros ns = ns := by
      unfold skipZeros
      split
      · exact absurd rfl (hns _ _)
      · rfl
    refine ⟨0, by rw [hskip]; rfl, ?_⟩
    rw [hskip]
    intro hhead
    cases ns with
    | nil => cases hhead
    | cons n ns =>
      obtain rfl := Option.some.inj hhead
      cases ns with
      | nil => rfl
      | cons m ns => exact absurd rfl (hns m ns)

/-- Only zeros are popped, and what is left ends in no zero, except for a single one. -/
theorem popZeros_spec (num : List Nat) : ∃ k, num = popZeros num ++ List.replicate k 0 ∧
    ((popZeros num).getLast? = some 0 → popZeros num = [0]) := by
  obtain ⟨k, hnum, hhead⟩ := skipZeros_spec num.reverse
  refine ⟨k, ?_, fun hlast => ?_⟩
  · rw [popZeros]
    conv_lhs => rw [← List.reverse_reverse num, hnum]
    rw [List.reverse_append, List.reverse_replicate]
  · rw [popZeros, List.getLast?_reverse] at hlast
    rw [popZeros, hhead hlast]
    rfl

theorem ofDigits_popZeros (num : List Nat) : Nat.ofDigits W (popZeros num) = Nat.ofDigits W num := by
  obtain ⟨k, hnum, -⟩ := popZeros_spec num
  conv_rhs => rw [hnum]
  rw [Nat.ofDigits_append_replicate_zero]

theorem Fits.popZeros {num : List Nat} (h : Fits W num) : Fits W (popZeros num) := by
  obtain ⟨k, hnum, -⟩ := popZeros_spec num
  intro n hn
  exact h n (hnum ▸ List.mem_append_left _ hn)

/-- Without zeros at the top the limbs of a positive number are its digits. -/
theorem popZeros_eq_digits (hW : 1 < W) {num : List Nat} (hfits : Fits W num) (hpos : Nat.ofDigits W num ≠ 0) :
    popZeros num = W.digits (Nat.ofDigits W num) := by
  obtain ⟨k, -, hlast⟩ := popZeros_spec num
  rw [← ofDigits_popZeros num] at hpos ⊢
  refine (Nat.digits_ofDigits W hW _ hfits.popZeros fun hne hzero => hpos ?_).symm
  rw [hlast (by rw [List.getLast?_eq_getLast_of_ne_nil hne, hzero])]
  simp

/-! ## From one base to another -/

/-- Digits of base `b`, the highest first, in base `c`, with the same number of zeros in front. -/
def rebase (b c : Nat) (ds : List Nat) : List Nat :=
  List.replicate (ds.takeWhile (· = 0)).length 0 ++ (c.digits (Nat.ofDigits b ds.reverse)).reverse

section Front

variable {α : Type} [DecidableEq α] {a : α} {z : Nat} {as : List α}

theorem takeWhile_replicate_append (h : as.head? ≠ some a) :
    (List.replicate z a ++ as).takeWhile (· = a) = List.replicate z a := by
  rw [List.takeWhile_append_of_pos fun x hx => by simpa using (List.mem_replicate.1 hx).2]
  cases as with
  | nil => simp
  | cons b as =>
    have hb : b ≠ a := fun e => h (by rw [e]; rfl)
    simp [hb]

/-- What is the same in front, and the rest. -/
theorem eq_replicate_append (a : α) (as : List α) :
    ∃ z rest, as = List.replicate z a ++ rest ∧ rest.head? ≠ some a := by
  refine ⟨(as.takeWhile (· = a)).length, as.dropWhile (· = a), ?_, ?_⟩
  · conv_lhs => rw [← List.takeWhile_append_dropWhile (p := (· = a)) (l := as)]
    congr 1
    exact List.eq_replicate_iff.2 ⟨rfl, fun x hx => by simpa using List.mem_takeWhile_imp hx⟩
  · intro hhead
    have := List.head?_dropWhile_not (fun x => decide (x = a)) as
    rw [hhead] at this
    simp at this

end Front

/-- A number whose highest digit is not zero. -/
theorem ofDigits_reverse_ne_zero {b : Nat} (hb : 0 < b) {ds : List Nat} (hne : ds ≠ []) (h : ds.head? ≠ some 0) :
    Nat.ofDigits b ds.reverse ≠ 0 := by
  cases ds with
  | nil => exact absurd rfl hne
  | cons d ds =>
    have hd : 0 < d := Nat.pos_of_ne_zero fun e => h (by rw [e]; rfl)
    rw [Nat.ofDigits_reverse_cons]
    exact (Nat.add_pos_right _ (Nat.mul_pos (Nat.pow_pos hb) hd)).ne'

theorem head?_reverse_digits {c v : Nat} : ((c.digits v).reverse).head? ≠ some 0 := by
  intro hhead
  rw [List.head?_reverse] at hhead
  have hv : v ≠ 0 := by
    rintro rfl
    rw [Nat.digits_zero] at hhead
    cases hhead
  rw [List.getLast?_eq_getLast_of_ne_nil (Nat.digits_ne_nil_iff_ne_zero.2 hv)] at hhead
  exact Nat.getLast_digit_ne_zero c hv (Option.some.inj hhead)

/-- The zeros in front stay, the rest is converted. -/
theorem rebase_replicate_append {b c z : Nat} {rest : List Nat} (hrest : rest.head? ≠ some 0) :
    rebase b c (List.replicate z 0 ++ rest) =
      List.replicate z 0 ++ (c.digits (Nat.ofDigits b rest.reverse)).reverse := by
  rw [rebase, takeWhile_replicate_append hrest, List.length_replicate, List.reverse_append, List.reverse_replicate,
    Nat.ofDigits_append_replicate_zero]

theorem rebase_rebase {b c : Nat} (hb : 1 < b) {ds : List Nat} (hds : ∀ d ∈ ds, d < b) :
    rebase c b (rebase b c ds) = ds := by
  obtain ⟨z, rest, rfl, hrest⟩ := eq_replicate_append 0 ds
  rw [rebase_replicate_append hrest, rebase_replicate_append head?_reverse_digits, List.reverse_reverse,
    Nat.ofDigits_digits]
  congr 1
  rw [Nat.digits_ofDigits b hb, List.reverse_reverse]
  · intro d hd
    exact hds d (List.mem_append_right _ (List.mem_reverse.1 hd))
  · intro hne hzero
    refine hrest ?_
    rw [← List.getLast?_reverse, List.getLast?_eq_getLast_of_ne_nil hne, hzero]

/-- What comes out are digits of the new base. -/
theorem rebase_lt {b c : Nat} (hc : 1 < c) {ds : List Nat} {d : Nat} (hd : d ∈ rebase b c ds) : d < c := by
  rcases List.mem_append.1 hd with hd | hd
  · rw [(List.mem_replicate.1 hd).2]
    exact Nat.zero_lt_of_lt hc
  · exact Nat.digits_lt_base hc (List.mem_reverse.1 hd)

end Limbs
