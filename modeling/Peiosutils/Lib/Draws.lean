import Mathlib.Data.List.Nodup
import Mathlib.Data.List.Perm.Subperm

/-!
# Drawing without replacement

A source of numbers answers a bound by a number that is not above it. Drawing from a list takes one of what is left at
a time: the first element goes to the place of the one taken (`pick`). Whatever the source says, what was drawn and
what is left are a rearrangement of the list (`drain_perm`); from a list without repetitions each choice of elements,
in each order, comes from exactly one sequence of numbers (`existsUnique_arrange`).
-/

set_option autoImplicit false

namespace Draws

variable {α σ ε : Type}

/-- Asked for a number that is not above a bound, a source answers or fails. -/
abbrev Source (σ ε : Type) := Nat → σ → Except ε (Nat × σ)

/-- The answers respect the bound, and what the source knows of itself stays true. -/
structure Bounded (draw : Source σ ε) (I : σ → Prop) : Prop where
  le : ∀ {n s i s'}, I s → draw n s = .ok (i, s') → i ≤ n
  keeps : ∀ {n s i s'}, I s → draw n s = .ok (i, s') → I s'

/-! ## One element -/

/-- The element at a place of `x :: xs`, and the others, the first one in its place. -/
def pick (x : α) (xs : List α) : Nat → α × List α
  | 0 => (x, xs)
  | i + 1 =>
    match xs[i]? with
    | some y => (y, xs.set i x)
    | none => (x, xs)

@[simp] theorem length_pick (x : α) (xs : List α) (i : Nat) : (pick x xs i).2.length = xs.length := by
  cases i with
  | zero => rfl
  | succ i =>
    rw [pick]
    split
    · exact List.length_set
    · rfl

theorem pick_succ {x : α} {xs : List α} {i : Nat} (h : i < xs.length) : pick x xs (i + 1) = (xs[i], xs.set i x) := by
  rw [pick, List.getElem?_eq_getElem h]

theorem pick_fst {x : α} {xs : List α} {i : Nat} (h : i < (x :: xs).length) : (pick x xs i).1 = (x :: xs)[i] := by
  cases i with
  | zero => rfl
  | succ i => rw [pick_succ (Nat.lt_of_succ_lt_succ h), List.getElem_cons_succ]

theorem perm_set {x : α} {xs : List α} {i : Nat} (h : i < xs.length) : (xs[i] :: xs.set i x).Perm (x :: xs) := by
  induction xs generalizing i with
  | nil => cases h
  | cons y ys ih =>
    cases i with
    | zero => exact List.Perm.swap x y ys
    | succ i =>
      have hi : i < ys.length := Nat.lt_of_succ_lt_succ h
      calc ys[i] :: y :: ys.set i x
        List.Perm _ (y :: ys[i] :: ys.set i x) := List.Perm.swap y ys[i] _
        List.Perm _ (y :: x :: ys) := (ih hi).cons y
        List.Perm _ (x :: y :: ys) := List.Perm.swap x y ys

/-- Nothing is lost and nothing is added. -/
theorem pick_perm (x : α) (xs : List α) (i : Nat) : ((pick x xs i).1 :: (pick x xs i).2).Perm (x :: xs) := by
  cases i with
  | zero => exact List.Perm.refl _
  | succ i =>
    by_cases h : i < xs.length
    · rw [pick_succ h]
      exact perm_set h
    · rw [pick, List.getElem?_eq_none (by omega)]

/-! ## Several elements -/

/-- Up to `n` elements of a list, drawn one by one, and where the source is then; or what was drawn before it failed. -/
def drain (draw : Source σ ε) : (n : Nat) → List α → σ → List α × Except ε σ
  | 0, _, s => ([], .ok s)
  | _ + 1, [], s => ([], .ok s)
  | n + 1, x :: xs, s =>
    match draw xs.length s with
    | .error e => ([], .error e)
    | .ok (i, s') =>
      let rest := drain draw n (pick x xs i).2 s'
      ((pick x xs i).1 :: rest.1, rest.2)

/-- What was drawn is a part of the list, in some order. -/
theorem drain_perm (draw : Source σ ε) (n : Nat) (l : List α) (s : σ) :
    ∃ left, ((drain draw n l s).1 ++ left).Perm l := by
  induction n generalizing l s with
  | zero => exact ⟨l, List.Perm.refl l⟩
  | succ n ih =>
    cases l with
    | nil => exact ⟨[], List.Perm.refl []⟩
    | cons x xs =>
      rw [drain]
      split
      · exact ⟨x :: xs, List.Perm.refl _⟩
      · rename_i i s' _
        obtain ⟨left, hperm⟩ := ih (pick x xs i).2 s'
        exact ⟨left, (hperm.cons _).trans (pick_perm x xs i)⟩

variable {draw : Source σ ε}

/-- Where the source does not fail, as many elements are drawn as are asked for, or all there are. -/
theorem length_drain {n : Nat} {l : List α} {s s' : σ} (h : (drain draw n l s).2 = .ok s') :
    (drain draw n l s).1.length = min n l.length := by
  induction n generalizing l s with
  | zero => exact (Nat.zero_min _).symm
  | succ n ih =>
    cases l with
    | nil => rfl
    | cons x xs =>
      rw [drain] at h ⊢
      split at h
      · cases h
      · rw [List.length_cons, ih h, length_pick, List.length_cons]
        omega

/-! ## The numbers behind them -/

/-- The bounds that `n` draws from a list of a length ask for. -/
def bounds : (n len : Nat) → List Nat
  | 0, _ => []
  | _ + 1, 0 => []
  | n + 1, len + 1 => len :: bounds n len

/-- The answers of a source to some bounds. -/
def answers (draw : Source σ ε) : List Nat → σ → Except ε (List Nat × σ)
  | [], s => .ok ([], s)
  | m :: ms, s =>
    match draw m s with
    | .error e => .error e
    | .ok (i, s') =>
      match answers draw ms s' with
      | .error e => .error e
      | .ok (is, s'') => .ok (i :: is, s'')

/-- The elements that some answers stand for. -/
def arrange : List Nat → List α → List α
  | [], _ => []
  | _ :: _, [] => []
  | i :: is, x :: xs => (pick x xs i).1 :: arrange is (pick x xs i).2

/-- Drawing is asking, and reading the answers. -/
theorem drain_eq_ok {n : Nat} {l : List α} {s s' : σ} {out : List α} :
    drain draw n l s = (out, .ok s') ↔
      ∃ is, answers draw (bounds n l.length) s = .ok (is, s') ∧ arrange is l = out := by
  induction n generalizing l s out with
  | zero => simp [drain, bounds, answers, arrange, and_comm]
  | succ n ih =>
    cases l with
    | nil => simp [drain, bounds, answers, arrange, and_comm]
    | cons x xs =>
      rw [drain, List.length_cons, bounds, answers]
      cases hdraw : draw xs.length s with
      | error e => simp
      | ok p =>
        obtain ⟨i, t⟩ := p
        have hlen : (pick x xs i).2.length = xs.length := length_pick x xs i
        constructor
        · intro h
          obtain ⟨hout, hend⟩ := Prod.mk.inj h
          obtain ⟨is, hanswers, harrange⟩ := ih.1 (Prod.ext rfl hend)
          refine ⟨i :: is, ?_, ?_⟩
          · rw [hlen] at hanswers
            simp only [hanswers]
          · rw [arrange, harrange, hout]
        · rintro ⟨js, hanswers, harrange⟩
          dsimp only at hanswers
          cases hrest : answers draw (bounds n xs.length) t with
          | error e => rw [hrest] at hanswers; cases hanswers
          | ok q =>
            obtain ⟨is, u⟩ := q
            rw [hrest] at hanswers
            cases hanswers
            have hdrain : drain draw n (pick x xs i).2 t = (arrange is (pick x xs i).2, .ok s') :=
              ih.2 ⟨is, by rw [hlen, hrest], rfl⟩
            dsimp only
            rw [hdrain, ← harrange, arrange]

theorem lt_of_mem_bounds {n len m : Nat} (h : m ∈ bounds n len) : m < len := by
  induction n generalizing len with
  | zero => cases h
  | succ n ih =>
    cases len with
    | zero => cases h
    | succ len =>
      rcases List.mem_cons.1 h with rfl | h
      · exact Nat.lt_succ_self _
      · exact Nat.lt_succ_of_lt (ih h)

/-- Answers that respect their bounds. -/
abbrev Within (is ms : List Nat) : Prop := List.Forall₂ (· ≤ ·) is ms

theorem Bounded.within {I : σ → Prop} (hdraw : Bounded draw I) {ms is : List Nat} {s s' : σ} (hs : I s)
    (h : answers draw ms s = .ok (is, s')) : Within is ms := by
  induction ms generalizing is s with
  | nil => cases h; exact .nil
  | cons m ms ih =>
    rw [answers] at h
    cases hi : draw m s with
    | error e => rw [hi] at h; cases h
    | ok p =>
      obtain ⟨i, t⟩ := p
      rw [hi] at h
      dsimp only at h
      cases hrest : answers draw ms t with
      | error e => rw [hrest] at h; cases h
      | ok q =>
        rw [hrest] at h
        cases h
        exact .cons (hdraw.le hs hi) (ih (hdraw.keeps hs hi) hrest)

/-- The place of an element of a list without repetitions. -/
theorem pick_fst_inj {x : α} {xs : List α} (hnodup : (x :: xs).Nodup) {i j : Nat} (hi : i ≤ xs.length)
    (hj : j ≤ xs.length) (h : (pick x xs i).1 = (pick x xs j).1) : i = j := by
  rw [pick_fst (Nat.lt_succ_of_le hi), pick_fst (Nat.lt_succ_of_le hj)] at h
  exact (List.Nodup.getElem_inj_iff hnodup).1 h

/-- Each choice of elements comes from exactly one sequence of answers. -/
theorem existsUnique_arrange {n : Nat} {l out : List α} (hnodup : l.Nodup) (hout : ∃ left, (out ++ left).Perm l)
    (hlen : out.length = min n l.length) :
    ∃ is, Within is (bounds n l.length) ∧ arrange is l = out ∧
      ∀ js, Within js (bounds n l.length) → arrange js l = out → js = is := by
  induction n generalizing l out with
  | zero =>
    rw [Nat.zero_min] at hlen
    exact ⟨[], .nil, (List.length_eq_zero_iff.1 hlen).symm, fun js hjs _ => by cases hjs; rfl⟩
  | succ n ih =>
    cases l with
    | nil =>
      rw [List.length_nil, Nat.min_zero] at hlen
      exact ⟨[], .nil, (List.length_eq_zero_iff.1 hlen).symm, fun js hjs _ => by cases hjs; rfl⟩
    | cons x xs =>
      cases out with
      | nil => simp at hlen
      | cons y out =>
        obtain ⟨left, hperm⟩ := hout
        have hy : y ∈ x :: xs := hperm.subset List.mem_cons_self
        obtain ⟨i, hi, hyi⟩ := List.getElem_of_mem hy
        have hi' : i ≤ xs.length := Nat.le_of_lt_succ hi
        have hpick : (pick x xs i).1 = y := by rw [pick_fst hi, hyi]
        have hrest : (pick x xs i).2.length = xs.length := length_pick x xs i
        have hperm' : (y :: (out ++ left)).Perm (y :: (pick x xs i).2) := by
          have h := pick_perm x xs i
          rw [hpick] at h
          exact hperm.trans h.symm
        have hnodup' : (pick x xs i).2.Nodup := by
          have h := (pick_perm x xs i).nodup_iff.2 hnodup
          exact (List.nodup_cons.1 h).2
        have hlen' : out.length = min n (pick x xs i).2.length := by
          rw [hrest]
          rw [List.length_cons, List.length_cons] at hlen
          omega
        obtain ⟨is, hwithin, harrange, hunique⟩ := ih hnodup' ⟨left, (List.perm_cons y).1 hperm'⟩ hlen'
        rw [hrest] at hwithin hunique
        refine ⟨i :: is, .cons hi' hwithin, by rw [arrange, hpick, harrange], ?_⟩
        intro js hjs hjsout
        cases hjs with
        | cons hj hjs =>
          rw [arrange, List.cons.injEq] at hjsout
          have hij := pick_fst_inj hnodup hj hi' (hjsout.1.trans hpick.symm)
          subst hij
          rw [hunique _ hjs hjsout.2]

end Draws
