import Mathlib.Algebra.BigOperators.Group.List.Basic
import Mathlib.Data.Set.Card
import Peiosutils.Lib.Draws

/-!
# Numbers from a file of random bytes (`compat_random_source.rs`)

`generateAtMost` reads bytes until the numbers that they can make reach the bound, draws again where the number lies
in the margin at the upper end, and keeps what is left of a number for the next one. It comes to an end on every
source, with a number that is not above the bound (`generateAtMost_bounded`), and neither subtraction is below zero.
Leftovers do no harm: as long as the bounds leave room for the next byte, of all sources of a length exactly as many
give one sequence of numbers as give any other (`tally_even`).
-/

set_option autoImplicit false

namespace Peiosutils.Shuf

open Draws

/-! ## The code -/

def u64Max : Nat := 2 ^ 64 - 1

def wrap (n : Nat) : Nat := n % 2 ^ 64

inductive RandomError
  | readRandomBytes
  | endOfRandomBytes
deriving DecidableEq, Repr

/-- The bytes that are still to be read, whether the reader fails behind them, and what was kept of earlier bytes. -/
structure RandomSourceAdapter where
  reader : List UInt8
  fails : Bool
  state : Nat
  entropy : Nat
deriving DecidableEq, Repr

def RandomSourceAdapter.new (reader : List UInt8) (fails : Bool) : RandomSourceAdapter := ⟨reader, fails, 0, 0⟩

/-- The `while` of `generate_at_most`. -/
def fill (atMost : Nat) (fails : Bool) (bytes : List UInt8) (state entropy : Nat) :
    Except RandomError RandomSourceAdapter :=
  if entropy < atMost then
    match bytes with
    | [] => .error (if fails then .readRandomBytes else .endOfRandomBytes)
    | byte :: bytes =>
      fill atMost fails bytes (wrap (wrap (state * 256) + byte.toNat)) (wrap (wrap (entropy * 256) + 255))
  else .ok ⟨bytes, fails, state, entropy⟩

/-- What follows the `while`: a number, or what the call of itself starts from. -/
def attempt (atMost : Nat) (a : RandomSourceAdapter) : (Nat × RandomSourceAdapter) ⊕ RandomSourceAdapter :=
  if atMost = u64Max then .inl (a.state, { a with state := 0, entropy := 0 })
  else
    let numPossibilities := atMost + 1
    let margin := (a.entropy + 1) % numPossibilities
    let safeZone := a.entropy - margin
    if a.state ≤ safeZone then
      .inl (a.state % numPossibilities,
        { a with state := a.state / numPossibilities, entropy := (a.entropy - atMost) / numPossibilities })
    else .inr { a with state := a.state % numPossibilities, entropy := a.entropy % numPossibilities }

theorem fill_ok {atMost : Nat} {fails : Bool} {bytes : List UInt8} {state entropy : Nat} {b : RandomSourceAdapter}
    (h : fill atMost fails bytes state entropy = .ok b) : atMost ≤ b.entropy ∧
      (b = ⟨bytes, fails, state, entropy⟩ ∨
        b.reader.length < bytes.length ∧ b.state < 2 ^ 64 ∧ b.entropy < 2 ^ 64) := by
  induction bytes generalizing state entropy with
  | nil =>
    rw [fill] at h
    split at h
    · cases h
    · cases h
      exact ⟨Nat.le_of_not_lt ‹_›, .inl rfl⟩
  | cons byte bytes ih =>
    rw [fill] at h
    split at h
    · obtain ⟨hle, hb⟩ := ih h
      refine ⟨hle, .inr ?_⟩
      rcases hb with rfl | hb
      · exact ⟨Nat.lt_succ_self _, Nat.mod_lt _ (by omega), Nat.mod_lt _ (by omega)⟩
      · exact ⟨Nat.lt_succ_of_lt hb.1, hb.2⟩
    · cases h
      exact ⟨Nat.le_of_not_lt ‹_›, .inl rfl⟩

theorem fill_of_le {atMost entropy : Nat} (h : atMost ≤ entropy) (fails : Bool) (bytes : List UInt8) (state : Nat) :
    fill atMost fails bytes state entropy = .ok ⟨bytes, fails, state, entropy⟩ := by
  rw [fill.eq_def, if_neg (Nat.not_lt.2 h)]

/-- Another pass starts with less than the bound, or with just enough of it. -/
theorem attempt_inr {atMost : Nat} {b c : RandomSourceAdapter} (h : attempt atMost b = .inr c) :
    c.reader = b.reader ∧ c.state ≤ atMost ∧ c.entropy ≤ atMost ∧ (b.entropy = atMost → atMost < b.state) := by
  rw [attempt] at h
  split at h
  · cases h
  · dsimp only at h
    split at h
    · cases h
    · rename_i hstate
      cases h
      have hmod : ∀ k, k % (atMost + 1) ≤ atMost := fun k => Nat.le_of_lt_succ (Nat.mod_lt k (Nat.succ_pos _))
      refine ⟨rfl, hmod _, hmod _, ?_⟩
      intro heq
      rw [heq, Nat.mod_self, Nat.sub_zero] at hstate
      omega

/-- Two for each byte, and one for a first pass over leftovers of other bounds. -/
def RandomSourceAdapter.passes (a : RandomSourceAdapter) (atMost : Nat) : Nat :=
  2 * a.reader.length + if a.state ≤ atMost ∧ a.entropy ≤ atMost then 0 else 1

theorem passes_lt {atMost : Nat} {a b c : RandomSourceAdapter}
    (hfill : fill atMost a.fails a.reader a.state a.entropy = .ok b) (hattempt : attempt atMost b = .inr c) :
    c.passes atMost < a.passes atMost := by
  obtain ⟨hreader, hstate, hentropy, hfull⟩ := attempt_inr hattempt
  obtain ⟨hle, hb⟩ := fill_ok hfill
  rw [RandomSourceAdapter.passes, RandomSourceAdapter.passes, if_pos ⟨hstate, hentropy⟩, hreader]
  rcases hb with rfl | ⟨hlt, -⟩
  · dsimp only at hle hfull ⊢
    rw [if_neg (by omega)]
    omega
  · omega

def generateAtMost (atMost : Nat) (a : RandomSourceAdapter) : Except RandomError (Nat × RandomSourceAdapter) :=
  match _hfill : fill atMost a.fails a.reader a.state a.entropy with
  | .error e => .error e
  | .ok b =>
    match _hattempt : attempt atMost b with
    | .inl drawn => .ok drawn
    | .inr c => generateAtMost atMost c
termination_by a.passes atMost
decreasing_by exact passes_lt _hfill _hattempt

/-! ## One number -/

theorem generateAtMost_eq (atMost : Nat) (a : RandomSourceAdapter) : generateAtMost atMost a =
    match fill atMost a.fails a.reader a.state a.entropy with
    | .error e => .error e
    | .ok b =>
      match attempt atMost b with
      | .inl drawn => .ok drawn
      | .inr c => generateAtMost atMost c := by
  rw [generateAtMost]
  split
  · rename_i hfill
    rw [hfill]
  · rename_i hfill
    rw [hfill]
    dsimp only
    split
    · rename_i hattempt
      rw [hattempt]
    · rename_i hattempt
      rw [hattempt]

theorem generateAtMost_error {atMost : Nat} {a : RandomSourceAdapter} {e : RandomError}
    (h : fill atMost a.fails a.reader a.state a.entropy = .error e) : generateAtMost atMost a = .error e := by
  rw [generateAtMost_eq, h]

theorem generateAtMost_accept {atMost : Nat} {a b : RandomSourceAdapter} {drawn : Nat × RandomSourceAdapter}
    (hfill : fill atMost a.fails a.reader a.state a.entropy = .ok b) (hattempt : attempt atMost b = .inl drawn) :
    generateAtMost atMost a = .ok drawn := by
  rw [generateAtMost_eq, hfill]
  dsimp only
  rw [hattempt]

theorem generateAtMost_retry {atMost : Nat} {a b c : RandomSourceAdapter}
    (hfill : fill atMost a.fails a.reader a.state a.entropy = .ok b) (hattempt : attempt atMost b = .inr c) :
    generateAtMost atMost a = generateAtMost atMost c := by
  rw [generateAtMost_eq, hfill]
  dsimp only
  rw [hattempt]

/-- Both are numbers of 64 bits. -/
def RandomSourceAdapter.Fits (a : RandomSourceAdapter) : Prop := a.state < 2 ^ 64 ∧ a.entropy < 2 ^ 64

theorem attempt_inl {atMost : Nat} {b c : RandomSourceAdapter} (hb : b.Fits) {i : Nat}
    (h : attempt atMost b = .inl (i, c)) : i ≤ atMost ∧ c.Fits := by
  obtain ⟨hstate, hentropy⟩ := hb
  rw [attempt] at h
  split at h
  · cases h
    rename_i heq
    rw [u64Max] at heq
    exact ⟨by omega, Nat.two_pow_pos 64, Nat.two_pow_pos 64⟩
  · dsimp only at h
    split at h
    · cases h
      refine ⟨Nat.le_of_lt_succ (Nat.mod_lt _ (Nat.succ_pos _)), ?_, ?_⟩
      · exact lt_of_le_of_lt (Nat.div_le_self _ _) hstate
      · exact lt_of_le_of_lt ((Nat.div_le_self _ _).trans (Nat.sub_le _ _)) hentropy
    · cases h

theorem attempt_inr_fits {atMost : Nat} {b c : RandomSourceAdapter} (hb : b.Fits) (h : attempt atMost b = .inr c) :
    c.Fits := by
  rw [attempt] at h
  split at h
  · cases h
  · dsimp only at h
    split at h
    · cases h
    · cases h
      exact ⟨lt_of_le_of_lt (Nat.mod_le _ _) hb.1, lt_of_le_of_lt (Nat.mod_le _ _) hb.2⟩

theorem fill_fits {atMost : Nat} {a b : RandomSourceAdapter} (ha : a.Fits)
    (h : fill atMost a.fails a.reader a.state a.entropy = .ok b) : b.Fits := by
  obtain ⟨-, rfl | ⟨-, hb⟩⟩ := fill_ok h
  · exact ha
  · exact hb

theorem generateAtMost_spec {atMost : Nat} {a b : RandomSourceAdapter} (ha : a.Fits) {i : Nat}
    (h : generateAtMost atMost a = .ok (i, b)) : i ≤ atMost ∧ b.Fits := by
  induction a using generateAtMost.induct atMost with
  | case1 a e hfill =>
    rw [generateAtMost_error hfill] at h
    cases h
  | case2 a c hfill drawn hattempt =>
    rw [generateAtMost_accept hfill hattempt] at h
    cases h
    exact attempt_inl (fill_fits ha hfill) hattempt
  | case3 a c hfill d hattempt ih =>
    rw [generateAtMost_retry hfill hattempt] at h
    exact ih (attempt_inr_fits (fill_fits ha hfill) hattempt) h

/-- A number is never above the bound, whatever was left of earlier ones. -/
theorem generateAtMost_bounded : Bounded generateAtMost RandomSourceAdapter.Fits :=
  ⟨fun hs h => (generateAtMost_spec hs h).1, fun hs h => (generateAtMost_spec hs h).2⟩

/-! ## Leftovers -/

/-- Whether a source that starts with some leftovers gives exactly these numbers. -/
def yields (ms vs : List Nat) (fails : Bool) (state entropy : Nat) (bytes : List UInt8) : Bool :=
  match answers generateAtMost ms ⟨bytes, fails, state, entropy⟩ with
  | .ok (is, _) => is == vs
  | .error _ => false

/-- All contents of a file of some length. -/
def byteStrings : Nat → List (List UInt8)
  | 0 => [[]]
  | n + 1 => (List.range 256).flatMap fun b => (byteStrings n).map (UInt8.ofNat b :: ·)

/-- How many files of a length give the numbers, over all leftovers that an entropy allows. -/
def tally (n : Nat) (ms vs : List Nat) (fails : Bool) (entropy : Nat) : Nat :=
  ((List.range (entropy + 1)).map fun state => (byteStrings n).countP (yields ms vs fails state entropy)).sum

theorem sum_range_mul (f : Nat → Nat) (a c : Nat) : ((List.range (a * c)).map f).sum =
    ((List.range a).map fun s => ((List.range c).map fun b => f (s * c + b)).sum).sum := by
  induction a with
  | zero => rw [Nat.zero_mul]; rfl
  | succ a ih =>
    rw [Nat.succ_mul, List.range_add, List.map_append, List.sum_append, ih, List.range_succ, List.map_append,
      List.sum_append, List.map_map]
    simp [Function.comp_def]

theorem sum_range_single {v n : Nat} (h : v < n) (c : Nat) :
    ((List.range n).map fun i => if i = v then c else 0).sum = c := by
  induction n with
  | zero => cases h
  | succ n ih =>
    rw [List.range_succ, List.map_append, List.sum_append, List.map_singleton, List.sum_singleton]
    by_cases hv : v = n
    · subst hv
      have hzero : ((List.range v).map fun i => if i = v then c else 0) = (List.range v).map fun _ => 0 :=
        List.map_congr_left fun i hi => if_neg (Nat.ne_of_lt (List.mem_range.1 hi))
      rw [hzero, if_pos rfl]
      simp
    · rw [ih (by omega), if_neg (Ne.symm hv)]
      rfl

theorem wrap_of_lt {n : Nat} (h : n < 2 ^ 64) : wrap n = n := Nat.mod_eq_of_lt h

/-- With too little entropy for the bound, a byte is read. -/
theorem generateAtMost_read {m entropy state : Nat} (h : entropy < m) (hroom : m ≤ 2 ^ 56) (hstate : state ≤ entropy)
    {fails : Bool} {b : Nat} (hb : b < 256) (bytes : List UInt8) :
    generateAtMost m ⟨UInt8.ofNat b :: bytes, fails, state, entropy⟩ =
      generateAtMost m ⟨bytes, fails, state * 256 + b, entropy * 256 + 255⟩ := by
  have hbyte : (UInt8.ofNat b).toNat = b := by
    rw [UInt8.toNat_ofNat', Nat.mod_eq_of_lt (by omega)]
  have hfill : fill m fails (UInt8.ofNat b :: bytes) state entropy =
      fill m fails bytes (state * 256 + b) (entropy * 256 + 255) := by
    rw [fill, if_pos h, hbyte, wrap_of_lt (n := state * 256) (by omega), wrap_of_lt (n := entropy * 256) (by omega),
      wrap_of_lt (by omega), wrap_of_lt (by omega)]
  rw [generateAtMost_eq, generateAtMost_eq m ⟨bytes, fails, state * 256 + b, entropy * 256 + 255⟩]
  dsimp only
  rw [hfill]

theorem generateAtMost_nil {m entropy : Nat} (h : entropy < m) (fails : Bool) (state : Nat) :
    ∃ e, generateAtMost m ⟨[], fails, state, entropy⟩ = .error e :=
  ⟨_, generateAtMost_error (by rw [fill, if_pos h])⟩

/-- Below the margin the number is the remainder, and what is left is as good as any other leftover. -/
theorem generateAtMost_below {m entropy w i : Nat} (h : m ≤ entropy) (hm : m < u64Max)
    (hw : w < (entropy + 1) / (m + 1)) (hi : i ≤ m) (fails : Bool) (bytes : List UInt8) :
    generateAtMost m ⟨bytes, fails, w * (m + 1) + i, entropy⟩ =
      .ok (i, ⟨bytes, fails, w, (entropy + 1) / (m + 1) - 1⟩) := by
  refine generateAtMost_accept (fill_of_le h fails bytes _) ?_
  have hsplit := Nat.div_add_mod (entropy + 1) (m + 1)
  have hmul : (m + 1) * (w + 1) ≤ (m + 1) * ((entropy + 1) / (m + 1)) := Nat.mul_le_mul_left _ hw
  have hsafe : w * (m + 1) + i ≤ entropy - (entropy + 1) % (m + 1) := by
    rw [Nat.mul_succ, Nat.mul_comm] at hmul
    omega
  have hleft : (entropy - m) / (m + 1) = (entropy + 1) / (m + 1) - 1 := by
    have hstep := Nat.div_eq_sub_div (Nat.succ_pos m) (Nat.succ_le_succ h)
    rw [Nat.succ_sub_succ] at hstep
    exact (Nat.sub_eq_of_eq_add hstep).symm
  rw [attempt, if_neg (Nat.ne_of_lt hm)]
  dsimp only
  rw [if_pos hsafe, hleft, Nat.mul_comm w, Nat.mul_add_mod, Nat.mod_eq_of_lt (Nat.lt_succ_of_le hi),
    Nat.mul_add_div (Nat.succ_pos m), Nat.div_eq_of_lt (Nat.lt_succ_of_le hi), Nat.add_zero]

/-- In the margin the place within it is what is left. -/
theorem generateAtMost_margin {m entropy r : Nat} (h : m ≤ entropy) (hm : m < u64Max)
    (hr : r < (entropy + 1) % (m + 1)) (fails : Bool) (bytes : List UInt8) :
    generateAtMost m ⟨bytes, fails, (entropy + 1) / (m + 1) * (m + 1) + r, entropy⟩ =
      generateAtMost m ⟨bytes, fails, r, (entropy + 1) % (m + 1) - 1⟩ := by
  refine generateAtMost_retry (fill_of_le h fails bytes _) ?_
  have hsplit := Nat.div_add_mod (entropy + 1) (m + 1)
  have hlt : (entropy + 1) % (m + 1) < m + 1 := Nat.mod_lt _ (Nat.succ_pos m)
  rw [Nat.mul_comm] at hsplit
  have hentropy : entropy % (m + 1) = (entropy + 1) % (m + 1) - 1 := by
    have hval : entropy = (m + 1) * ((entropy + 1) / (m + 1)) + ((entropy + 1) % (m + 1) - 1) := by
      rw [Nat.mul_comm]
      omega
    conv_lhs => rw [hval]
    rw [Nat.mul_add_mod, Nat.mod_eq_of_lt (by omega)]
  rw [attempt, if_neg (Nat.ne_of_lt hm)]
  dsimp only
  rw [if_neg (by omega), hentropy, Nat.mul_comm, Nat.mul_add_mod, Nat.mod_eq_of_lt (by omega)]

section Tally

variable {m : Nat} {ms vs : List Nat} {fails : Bool} {entropy : Nat}

theorem yields_congr {s t e f : Nat} {bytes bytes' : List UInt8}
    (h : generateAtMost m ⟨bytes, fails, s, e⟩ = generateAtMost m ⟨bytes', fails, t, f⟩) :
    yields (m :: ms) vs fails s e bytes = yields (m :: ms) vs fails t f bytes' := by
  rw [yields, yields, answers, answers, h]

theorem yields_ok {v i s e t f : Nat} {bytes bytes' : List UInt8}
    (h : generateAtMost m ⟨bytes, fails, s, e⟩ = .ok (i, ⟨bytes', fails, t, f⟩)) :
    yields (m :: ms) (v :: vs) fails s e bytes = (decide (i = v) && yields ms vs fails t f bytes') := by
  rw [yields, answers, h, yields]
  dsimp only
  cases answers generateAtMost ms ⟨bytes', fails, t, f⟩ with
  | error e => rw [Bool.and_false]
  | ok q =>
    rw [Bool.eq_iff_iff]
    simp

theorem countP_byteStrings (p : List UInt8 → Bool) (n : Nat) : (byteStrings (n + 1)).countP p =
    ((List.range 256).map fun b => (byteStrings n).countP fun bytes => p (UInt8.ofNat b :: bytes)).sum := by
  rw [byteStrings, List.countP_flatMap]
  refine congrArg List.sum (List.map_congr_left fun b _ => ?_)
  rw [Function.comp_apply, List.countP_map]
  rfl

/-- Leftovers and the next byte together are the leftovers of a larger entropy. -/
theorem tally_read (h : entropy < m) (hroom : m ≤ 2 ^ 56) (n : Nat) :
    tally (n + 1) (m :: ms) vs fails entropy = tally n (m :: ms) vs fails (entropy * 256 + 255) := by
  rw [tally, tally, show entropy * 256 + 255 + 1 = (entropy + 1) * 256 by omega, sum_range_mul]
  refine congrArg List.sum (List.map_congr_left fun state hstate => ?_)
  rw [countP_byteStrings]
  refine congrArg List.sum (List.map_congr_left fun b hb => List.countP_congr fun bytes _ => ?_)
  have hle : state ≤ entropy := Nat.le_of_lt_succ (List.mem_range.1 hstate)
  rw [yields_congr (generateAtMost_read h hroom hle (List.mem_range.1 hb) bytes)]

theorem tally_zero (h : entropy < m) : tally 0 (m :: ms) vs fails entropy = 0 := by
  rw [tally]
  refine List.sum_eq_zero fun x hx => ?_
  obtain ⟨state, -, rfl⟩ := List.mem_map.1 hx
  obtain ⟨e, he⟩ := generateAtMost_nil h fails state
  simp [byteStrings, yields, answers, he]

/-- The leftovers of a drawn number, and those of the margin. -/
theorem tally_draw {v : Nat} (h : m ≤ entropy) (hm : m < u64Max) (hv : v ≤ m) (n : Nat) :
    tally n (m :: ms) (v :: vs) fails entropy = tally n ms vs fails ((entropy + 1) / (m + 1) - 1) +
      ((List.range ((entropy + 1) % (m + 1))).map fun r => (byteStrings n).countP
        (yields (m :: ms) (v :: vs) fails r ((entropy + 1) % (m + 1) - 1))).sum := by
  have hdiv : 1 ≤ (entropy + 1) / (m + 1) := Nat.div_pos (by omega) (Nat.succ_pos m)
  have hsplit : (entropy + 1) / (m + 1) * (m + 1) + (entropy + 1) % (m + 1) = entropy + 1 := Nat.div_add_mod' _ _
  rw [tally, ← hsplit, List.range_add, List.map_append, List.sum_append, sum_range_mul, hsplit]
  congr 1
  · rw [tally, Nat.sub_add_cancel hdiv]
    refine congrArg List.sum (List.map_congr_left fun w hw => ?_)
    rw [← sum_range_single (Nat.lt_succ_of_le hv)
      ((byteStrings n).countP (yields ms vs fails w ((entropy + 1) / (m + 1) - 1)))]
    refine congrArg List.sum (List.map_congr_left fun i hi => ?_)
    have hyields : ∀ bytes, yields (m :: ms) (v :: vs) fails (w * (m + 1) + i) entropy bytes =
        (decide (i = v) && yields ms vs fails w ((entropy + 1) / (m + 1) - 1) bytes) := fun bytes =>
      yields_ok (generateAtMost_below h hm (List.mem_range.1 hw) (Nat.le_of_lt_succ (List.mem_range.1 hi)) fails bytes)
    by_cases hiv : i = v
    · rw [if_pos hiv]
      exact List.countP_congr fun bytes _ => by rw [hyields, decide_eq_true hiv, Bool.true_and]
    · rw [if_neg hiv, List.countP_eq_zero]
      intro bytes _
      rw [hyields, decide_eq_false hiv, Bool.false_and]
      exact Bool.false_ne_true
  · rw [List.map_map]
    refine congrArg List.sum (List.map_congr_left fun r hr => List.countP_congr fun bytes _ => ?_)
    rw [yields_congr (generateAtMost_margin h hm (List.mem_range.1 hr) fails bytes)]

end Tally

/-- Of the files of a length, as many give one sequence of numbers as any other, whatever entropy is left over. -/
theorem tally_even {ms : List Nat} (hms : ∀ m ∈ ms, m ≤ 2 ^ 56) {vs vs' : List Nat} (hvs : Within vs ms)
    (hvs' : Within vs' ms) (fails : Bool) (n entropy : Nat) :
    tally n ms vs fails entropy = tally n ms vs' fails entropy := by
  induction ms generalizing vs vs' n entropy with
  | nil =>
    cases hvs
    cases hvs'
    rfl
  | cons m ms ih =>
    obtain ⟨hm, hms⟩ := List.forall_mem_cons.1 hms
    cases hvs with
    | cons hv hvs =>
      cases hvs' with
      | cons hv' hvs' =>
        rename_i v vs v' vs'
        have hmax : m < u64Max := lt_of_le_of_lt hm (by decide)
        -- the margin is smaller than the bound, so that a byte is read next
        have hdraw : ∀ n, (∀ e, e < m → tally n (m :: ms) (v :: vs) fails e = tally n (m :: ms) (v' :: vs') fails e) →
            ∀ e, m ≤ e → tally n (m :: ms) (v :: vs) fails e = tally n (m :: ms) (v' :: vs') fails e := by
          intro n hsmall e he
          rw [tally_draw he hmax hv, tally_draw he hmax hv', ih hms hvs hvs']
          congr 1
          have hlt : (e + 1) % (m + 1) < m + 1 := Nat.mod_lt _ (Nat.succ_pos m)
          cases hmargin : (e + 1) % (m + 1) with
          | zero => rfl
          | succ r => exact hsmall r (by omega)
        induction n generalizing entropy with
        | zero =>
          rcases Nat.lt_or_ge entropy m with hlt | hge
          · rw [tally_zero hlt, tally_zero hlt]
          · exact hdraw 0 (fun e he => by rw [tally_zero he, tally_zero he]) entropy hge
        | succ n ihn =>
          have hsmall : ∀ e, e < m →
              tally (n + 1) (m :: ms) (v :: vs) fails e = tally (n + 1) (m :: ms) (v' :: vs') fails e := by
            intro e he
            rw [tally_read he hm, tally_read he hm]
            exact ihn _
          rcases Nat.lt_or_ge entropy m with hlt | hge
          · exact hsmall entropy hlt
          · exact hdraw (n + 1) hsmall entropy hge

theorem mem_byteStrings {n : Nat} {bytes : List UInt8} : bytes ∈ byteStrings n ↔ bytes.length = n := by
  induction n generalizing bytes with
  | zero => rw [byteStrings, List.mem_singleton, List.length_eq_zero_iff]
  | succ n ih =>
    simp only [byteStrings, List.mem_flatMap, List.mem_map, List.mem_range]
    constructor
    · rintro ⟨b, -, rest, hrest, rfl⟩
      rw [List.length_cons, ih.1 hrest]
    · intro h
      cases bytes with
      | nil => cases h
      | cons b rest =>
        exact ⟨b.toNat, b.toNat_lt, rest, ih.2 (Nat.succ.inj h), by rw [UInt8.ofNat_toNat]⟩

theorem byteStrings_nodup (n : Nat) : (byteStrings n).Nodup := by
  induction n with
  | zero => exact List.nodup_singleton _
  | succ n ih =>
    rw [byteStrings, List.nodup_flatMap]
    refine ⟨fun b _ => ih.map (fun _ _ h => (List.cons.inj h).2), ?_⟩
    refine List.Nodup.pairwise_of_forall_ne List.nodup_range fun b hb c hc hne => ?_
    rw [List.mem_range] at hb hc
    refine List.disjoint_left.2 fun x hx hx' => hne ?_
    obtain ⟨r, -, rfl⟩ := List.mem_map.1 hx
    obtain ⟨r', -, h⟩ := List.mem_map.1 hx'
    have hbyte := congrArg UInt8.toNat (List.cons.inj h).1
    rw [UInt8.toNat_ofNat', UInt8.toNat_ofNat', Nat.mod_eq_of_lt (by omega), Nat.mod_eq_of_lt (by omega)] at hbyte
    exact hbyte.symm

/-- The files of a length that pass a test, counted. -/
theorem ncard_eq_countP (n : Nat) (p : List UInt8 → Bool) :
    {bytes : List UInt8 | bytes.length = n ∧ p bytes = true}.ncard = (byteStrings n).countP p := by
  have hset : {bytes : List UInt8 | bytes.length = n ∧ p bytes = true} =
      (((byteStrings n).filter p).toFinset : Set (List UInt8)) := by
    ext bytes
    simp [mem_byteStrings]
  rw [hset, Set.ncard_coe_finset, List.toFinset_card_of_nodup ((byteStrings_nodup n).filter p),
    List.countP_eq_length_filter]

/-- A new adapter: of the files of a length, as many give one sequence of numbers as any other. -/
theorem answers_even {ms : List Nat} (hms : ∀ m ∈ ms, m ≤ 2 ^ 56) {vs vs' : List Nat} (hvs : Within vs ms)
    (hvs' : Within vs' ms) (fails : Bool) (n : Nat) :
    {bytes : List UInt8 | bytes.length = n ∧ yields ms vs fails 0 0 bytes = true}.ncard =
      {bytes : List UInt8 | bytes.length = n ∧ yields ms vs' fails 0 0 bytes = true}.ncard := by
  have h := tally_even hms hvs hvs' fails n 0
  rw [ncard_eq_countP, ncard_eq_countP]
  simpa [tally] using h

end Peiosutils.Shuf
