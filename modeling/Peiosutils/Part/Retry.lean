import Mathlib.Data.Option.Basic
import Peiosutils.Lib.While

/-!
# Asking a busy kernel again (`retry_while_busy`)

The attempts are a sequence of outcomes without an end, and a nap is a call that is written down. The naps and the
budget that is left make up the budget (`Kept`), so the loop ends for every budget and every sequence
(`retryWhileBusy_ends`).
-/

set_option autoImplicit false

namespace Peiosutils.Part

open While (Stop Ends loop_spec)

/-! ## Durations -/

/-- One more than the nanoseconds of the longest `Duration`. -/
def durationLimit : Nat := 18446744073709551616 * 1000000000

structure Duration where
  nanos : Nat
  lt : nanos < durationLimit
  deriving DecidableEq

namespace Duration

def zero : Duration := ⟨0, by decide⟩

def ofNanos (n : Nat) : Except Stop Duration := if h : n < durationLimit then .ok ⟨n, h⟩ else .error .panic

def add (a b : Duration) : Except Stop Duration := ofNanos (a.nanos + b.nanos)

def sub (a b : Duration) : Except Stop Duration :=
  if b.nanos ≤ a.nanos then ofNanos (a.nanos - b.nanos) else .error .panic

def double (a : Duration) : Except Stop Duration := ofNanos (a.nanos * 2)

def min (a b : Duration) : Duration := if a.nanos ≤ b.nanos then a else b

theorem ofNanos_of_lt {n : Nat} (h : n < durationLimit) : ofNanos n = .ok ⟨n, h⟩ := dif_pos h

theorem sub_of_le {a b : Duration} (h : b.nanos ≤ a.nanos) :
    ∃ d, a.sub b = .ok d ∧ d.nanos = a.nanos - b.nanos := by
  have hlt : a.nanos - b.nanos < durationLimit := Nat.lt_of_le_of_lt (Nat.sub_le _ _) a.lt
  exact ⟨⟨_, hlt⟩, (if_pos h).trans (ofNanos_of_lt hlt), rfl⟩

theorem add_of_lt {a b : Duration} (h : a.nanos + b.nanos < durationLimit) :
    ∃ d, a.add b = .ok d ∧ d.nanos = a.nanos + b.nanos := ⟨⟨_, h⟩, ofNanos_of_lt h, rfl⟩

theorem double_of_lt {a : Duration} (h : a.nanos * 2 < durationLimit) :
    ∃ d, a.double = .ok d ∧ d.nanos = a.nanos * 2 := ⟨⟨_, h⟩, ofNanos_of_lt h, rfl⟩

theorem nanos_min (a b : Duration) :
    a.nanos ≤ b.nanos ∧ (a.min b).nanos = a.nanos ∨ b.nanos < a.nanos ∧ (a.min b).nanos = b.nanos := by
  by_cases h : a.nanos ≤ b.nanos
  · exact .inl ⟨h, by rw [min, if_pos h]⟩
  · exact .inr ⟨Nat.lt_of_not_le h, by rw [min, if_neg h]⟩

end Duration

def rereadFirstWait : Duration := ⟨10000000, by decide⟩

def rereadMaxWait : Duration := ⟨250000000, by decide⟩

/-- `EBUSY` -/
def ebusy : Int := 16

/-! ## The loop -/

section Loop

variable {ε : Type} (rawOsError : ε → Option Int) (outcomes : Nat → Except ε Unit) (budget : Duration)

/-- The kernel is busy. -/
def isBusy : Except ε Unit → Bool
  | .ok _ => false
  | .error e => rawOsError e = some ebusy

/-- The calls that were made, and the two variables of the loop. -/
structure Retry where
  attempts : Nat
  naps : List Duration
  waited : Duration
  wait : Duration

/-- The calls of a whole run, and its result. -/
structure Retried (ε : Type) where
  attempts : Nat
  naps : List Duration
  result : Except ε Unit

def turn (s : Retry) : Except Stop (Retry ⊕ Retried ε) :=
  let outcome := outcomes s.attempts
  let attempts := s.attempts + 1
  if isBusy rawOsError outcome ∧ s.waited.nanos < budget.nanos then do
    let left ← budget.sub s.waited
    let nap := s.wait.min left
    let waited ← s.waited.add nap
    let doubled ← s.wait.double
    return .inl ⟨attempts, s.naps ++ [nap], waited, doubled.min rereadMaxWait⟩
  else return .inr ⟨attempts, s.naps, outcome⟩

def retryWhileBusy (fuel : Nat) : Except Stop (Retried ε) :=
  While.loop (turn rawOsError outcomes budget) fuel ⟨0, [], .zero, rereadFirstWait⟩

end Loop

/-! ## What a turn keeps -/

variable {ε : Type} {rawOsError : ε → Option Int} {outcomes : Nat → Except ε Unit} {budget : Duration}

def total (naps : List Duration) : Nat := naps.foldl (fun sum nap => sum + nap.nanos) 0

theorem total_append (naps : List Duration) (nap : Duration) : total (naps ++ [nap]) = total naps + nap.nanos := by
  rw [total, List.foldl_append]
  rfl

/-- Every nap is behind an attempt that met a busy kernel, and no nap exceeds the cap. -/
structure Napped (rawOsError : ε → Option Int) (outcomes : Nat → Except ε Unit) (naps : List Duration) : Prop where
  busy : ∀ i < naps.length, isBusy rawOsError (outcomes i) = true
  le : ∀ nap ∈ naps, nap.nanos ≤ rereadMaxWait.nanos

structure Kept (rawOsError : ε → Option Int) (outcomes : Nat → Except ε Unit) (budget : Duration) (left : Nat)
    (s : Retry) : Prop where
  napped : Napped rawOsError outcomes s.naps
  attempts : s.attempts = s.naps.length
  waited : total s.naps = s.waited.nanos
  left : s.waited.nanos + left = budget.nanos
  pos : 0 < s.wait.nanos
  cap : s.wait.nanos ≤ rereadMaxWait.nanos

theorem kept_start : Kept rawOsError outcomes budget budget.nanos ⟨0, [], .zero, rereadFirstWait⟩ where
  napped := ⟨fun i hi => absurd hi (Nat.not_lt_zero i), fun nap hnap => by cases hnap⟩
  attempts := rfl
  waited := rfl
  left := Nat.zero_add _
  pos := by decide
  cap := by decide

theorem Napped.append {naps : List Duration} (h : Napped rawOsError outcomes naps)
    (hbusy : isBusy rawOsError (outcomes naps.length) = true) {nap : Duration}
    (hle : nap.nanos ≤ rereadMaxWait.nanos) : Napped rawOsError outcomes (naps ++ [nap]) where
  busy := by
    intro i hi
    rw [List.length_append, List.length_singleton] at hi
    rcases Nat.lt_succ_iff_lt_or_eq.1 hi with hi | rfl
    · exact h.busy i hi
    · exact hbusy
  le := List.forall_mem_append.2 ⟨h.le, fun nap hnap => by
    rw [List.mem_singleton.1 hnap]
    exact hle⟩

/-- A nap leaves less of the budget. -/
theorem turn_busy {left : Nat} {s : Retry} (h : Kept rawOsError outcomes budget left s)
    (hbusy : isBusy rawOsError (outcomes s.attempts) = true) (hlt : s.waited.nanos < budget.nanos) :
    ∃ left' s', turn rawOsError outcomes budget s = .ok (.inl s') ∧ left' < left ∧
      Kept rawOsError outcomes budget left' s' := by
  have hbudget := budget.lt
  have hwaited := h.left
  have hcap := h.cap
  have hpos := h.pos
  have hmax : rereadMaxWait.nanos * 2 < durationLimit := by decide
  have hmax' : 0 < rereadMaxWait.nanos := by decide
  obtain ⟨rest, hrest, hrestNanos⟩ := Duration.sub_of_le (Nat.le_of_lt hlt)
  have hnap := s.wait.nanos_min rest
  obtain ⟨waited, hadd, hwaitedNanos⟩ := Duration.add_of_lt (a := s.waited) (b := s.wait.min rest) (by omega)
  obtain ⟨doubled, hdouble, hdoubledNanos⟩ := Duration.double_of_lt (a := s.wait) (by omega)
  have hnext := doubled.nanos_min rereadMaxWait
  refine ⟨left - (s.wait.min rest).nanos,
    ⟨s.attempts + 1, s.naps ++ [s.wait.min rest], waited, doubled.min rereadMaxWait⟩, ?_, by omega, ?_⟩
  · simp only [turn, hbusy, hlt, and_self, if_true, hrest, hadd, hdouble, bind, Except.bind, pure, Except.pure]
  · exact {
      napped := h.napped.append (h.attempts ▸ hbusy) (by omega)
      attempts := by rw [List.length_append, h.attempts, List.length_singleton]
      waited := by rw [total_append, h.waited, hwaitedNanos]
      left := by dsimp only; omega
      pos := by dsimp only; omega
      cap := by dsimp only; omega }

/-! ## Whole runs -/

/-- What a run does. -/
structure Bounded (rawOsError : ε → Option Int) (outcomes : Nat → Except ε Unit) (budget : Duration)
    (r : Retried ε) : Prop where
  /-- The result is that of the last attempt. -/
  result : r.result = outcomes r.naps.length
  attempts : r.attempts = r.naps.length + 1
  /-- No attempt before the last one succeeded or failed otherwise. -/
  busy : ∀ i < r.naps.length, isBusy rawOsError (outcomes i) = true
  cap : ∀ nap ∈ r.naps, nap.nanos ≤ rereadMaxWait.nanos
  le : total r.naps ≤ budget.nanos
  /-- The run gives up on a busy kernel only when the budget is spent. -/
  spent : isBusy rawOsError r.result = true → total r.naps = budget.nanos

/-- The loop is left after an attempt that is not tried again. -/
theorem turn_done {left : Nat} {s : Retry} (h : Kept rawOsError outcomes budget left s)
    (hdone : ¬ (isBusy rawOsError (outcomes s.attempts) = true ∧ s.waited.nanos < budget.nanos)) :
    ∃ r, turn rawOsError outcomes budget s = .ok (.inr r) ∧ Bounded rawOsError outcomes budget r := by
  have hleft := h.left
  refine ⟨⟨s.attempts + 1, s.naps, outcomes s.attempts⟩, if_neg hdone, ?_⟩
  exact {
    result := by rw [h.attempts]
    attempts := by rw [h.attempts]
    busy := h.napped.busy
    cap := h.napped.le
    le := by
      rw [h.waited]
      omega
    spent := by
      intro hbusy
      have hge : ¬ s.waited.nanos < budget.nanos := fun hlt => hdone ⟨hbusy, hlt⟩
      rw [h.waited]
      omega }

/-- Every run ends, and within its budget. -/
theorem retryWhileBusy_bounded (rawOsError : ε → Option Int) (outcomes : Nat → Except ε Unit) (budget : Duration) :
    Ends (retryWhileBusy rawOsError outcomes budget) (Bounded rawOsError outcomes budget) := by
  refine ⟨budget.nanos, fun fuel hfuel => loop_spec (Kept rawOsError outcomes budget) _ ?_ kept_start hfuel⟩
  intro left s h
  by_cases hgo : isBusy rawOsError (outcomes s.attempts) = true ∧ s.waited.nanos < budget.nanos
  · obtain ⟨left', s', hturn, hlt, hkept⟩ := turn_busy h hgo.1 hgo.2
    exact .inr ⟨left', s', hturn, hlt, hkept⟩
  · exact .inl (turn_done h hgo)

/-- The kernel is asked again while it is busy and the budget lasts: the run ends with its first outcome that is not
busy, or with a busy one when the naps have used up the budget. -/
theorem retryWhileBusy_ends (rawOsError : ε → Option Int) (outcomes : Nat → Except ε Unit) (budget : Duration) :
    Ends (retryWhileBusy rawOsError outcomes budget) fun r =>
      r.result = outcomes (r.attempts - 1) ∧ r.attempts = r.naps.length + 1 ∧
      (∀ i, isBusy rawOsError (outcomes i) = false → r.attempts ≤ i + 1) ∧
      (∀ nap ∈ r.naps, nap.nanos ≤ rereadMaxWait.nanos) ∧ total r.naps ≤ budget.nanos ∧
      ((∀ i, isBusy rawOsError (outcomes i) = true) → total r.naps = budget.nanos) := by
  obtain ⟨enough, hends⟩ := retryWhileBusy_bounded rawOsError outcomes budget
  refine ⟨enough, fun fuel hfuel => ?_⟩
  obtain ⟨r, hr, h⟩ := hends fuel hfuel
  refine ⟨r, hr, by rw [h.result, h.attempts, Nat.add_sub_cancel], h.attempts, ?_, h.cap, h.le, ?_⟩
  · intro i hdone
    have hlast : ¬ i < r.naps.length := fun hi => Bool.false_ne_true (hdone.symm.trans (h.busy i hi))
    rw [h.attempts]
    omega
  · exact fun hall => h.spent (by rw [h.result]; exact hall _)

end Peiosutils.Part
