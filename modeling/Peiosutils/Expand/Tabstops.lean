import Mathlib.Order.Bounds.Basic
import Mathlib.Order.ConditionallyCompleteLattice.Basic
import Mathlib.Order.Lattice.Nat
import Peiosutils.Lib.Fallible
import Peiosutils.Lib.Radix

/-!
# Tab stops (`expand.rs`)

The stops of `--tabs` with the mode for the columns behind them, and the way from a column to the next stop. A list that
is accepted has a stop, ascends from one on, and has a mode only beside two stops (`tabstopsParse_valid`); then
`nextTabstop` leads to the least stop behind the column (`nextTabstop_isLeast`).
-/

set_option autoImplicit false

namespace Peiosutils.Expand

abbrev Str := List Char

inductive RemainingMode where
  | none
  | slash
  | plus
  deriving DecidableEq, Repr

inductive ParseError where
  | invalidCharacter (s : Str)
  | specifierNotAtStartOfNumber (specifier number : Str)
  | specifierOnlyAllowedWithLastValue (specifier : Str)
  | tabSizeCannotBeZero
  | tabSizeTooLarge (s : Str)
  | tabSizesMustBeAscending
  deriving DecidableEq, Repr

def defaultTabstop : Nat := 8

/-- One more than the largest `usize`. -/
def usizeLimit : Nat := 18446744073709551616

def checkedAdd (a b : Nat) : Option Nat := if a + b < usizeLimit then some (a + b) else none

theorem checkedAdd_eq_some {a b c : Nat} : checkedAdd a b = some c ↔ a + b < usizeLimit ∧ c = a + b := by
  unfold checkedAdd
  split <;> simp_all [eq_comm]

def isSpaceOrComma (c : Char) : Bool := c = ' ' || c = ','

/-! ## Parsing -/

/-- What the loop over the words keeps. -/
structure Parsing where
  nums : List Nat
  remainingMode : RemainingMode
  isSpecifierAlreadyUsed : Bool

namespace Parsing

def start : Parsing := ⟨[], .none, false⟩

/-- A tab stop that is a number. -/
def push (p : Parsing) (num : Nat) : Except ParseError Parsing :=
  if num = 0 then .error .tabSizeCannotBeZero
  else if p.nums.getLast?.any (num ≤ ·) then .error .tabSizesMustBeAscending
  else if p.isSpecifierAlreadyUsed then
    .error (.specifierOnlyAllowedWithLastValue (if p.remainingMode = .slash then ['/'] else ['+']))
  else .ok ⟨p.nums ++ [num], p.remainingMode, decide (p.remainingMode ≠ .none)⟩

variable (isNumeric : Char → Bool)

/-- The error of a text that is no number. -/
def invalid (s : Str) : ParseError :=
  let rest := s.dropWhile isNumeric
  if rest.head? = some '/' ∨ rest.head? = some '+' then .specifierNotAtStartOfNumber (rest.take 1) rest
  else .invalidCharacter rest

/-- The specifiers of a word, and its number. -/
def word (p : Parsing) : Str → Except ParseError Parsing
  | [] => .ok p
  | c :: rest =>
    if c = '+' then word { p with remainingMode := .plus } rest
    else if c = '/' then word { p with remainingMode := .slash } rest
    else
      match Radix.fromStrRadix usizeLimit 10 (c :: rest) with
      | .ok num => p.push num
      | .error .posOverflow => .error (.tabSizeTooLarge (c :: rest))
      | .error _ => .error (invalid isNumeric (c :: rest))

end Parsing

variable (isNumeric : Char → Bool)

def tabstopsParse (s : Str) : Except ParseError (RemainingMode × List Nat) :=
  let s := s.dropWhile isSpaceOrComma
  if s = [] then .ok (.none, [defaultTabstop])
  else do
    let p ← (s.splitOnP isSpaceOrComma).foldlM (Parsing.word isNumeric) .start
    let nums := if p.nums = [] then [defaultTabstop] else p.nums
    return (if nums.length < 2 then .none else p.remainingMode, nums)

/-! ## The words

Empty words change nothing, so those that leading separators leave may be kept, and the words between commas may be read
one by one. -/

/-- What the words come to. -/
def Parsing.finish (p : Parsing) : RemainingMode × List Nat :=
  let nums := if p.nums = [] then [defaultTabstop] else p.nums
  (if nums.length < 2 then .none else p.remainingMode, nums)

/-- The words that blanks separate within a word. -/
def Parsing.spaced (p : Parsing) (w : Str) : Except ParseError Parsing :=
  (w.splitOnP (· = ' ')).foldlM (Parsing.word isNumeric) p

theorem Parsing.spaced_nil (p : Parsing) : p.spaced isNumeric [] = .ok p := rfl

theorem Parsing.spaced_of_notMem (p : Parsing) {w : Str} (h : ' ' ∉ w) : p.spaced isNumeric w = p.word isNumeric w := by
  have hwords : w.splitOnP (· = ' ') = [w] :=
    List.splitOnP_eq_singleton fun c hc => decide_eq_false fun hspace => h (hspace ▸ hc)
  rw [Parsing.spaced, hwords, List.foldlM_cons]
  exact bind_pure _

theorem splitOnP_isSpaceOrComma (s : Str) :
    s.splitOnP isSpaceOrComma = (s.splitOn ',').flatMap fun w => w.splitOnP (· = ' ') := by
  induction s with
  | nil => rfl
  | cons c s ih =>
    obtain ⟨w, ws, hws⟩ := List.exists_cons_of_ne_nil (List.splitOnP_ne_nil (· == ',') s)
    obtain ⟨v, vs, hvs⟩ := List.exists_cons_of_ne_nil (List.splitOnP_ne_nil (fun c => decide (c = ' ')) w)
    rw [List.splitOn_eq_splitOnP, hws, List.flatMap_cons] at ih
    rw [List.splitOn_eq_splitOnP, List.splitOnP_cons_eq_if_modifyHead, List.splitOnP_cons_eq_if_modifyHead, ih, hws]
    by_cases hcomma : c = ','
    · subst hcomma
      rfl
    · have hc : (c == ',') = false := by simpa using hcomma
      simp only [hc, Bool.false_eq_true, if_false, List.modifyHead_cons]
      rw [List.flatMap_cons, List.splitOnP_cons_eq_if_modifyHead, hvs]
      by_cases hspace : c = ' '
      · subst hspace
        rfl
      · rw [if_neg (by simp [isSpaceOrComma, hcomma, hspace]), if_neg (by simpa using hspace)]
        rfl

theorem foldlM_flatMap {α β γ ε : Type} (f : β → α → Except ε β) (g : γ → List α) (xs : List γ) : ∀ b,
    (xs.flatMap g).foldlM f b = xs.foldlM (fun b x => (g x).foldlM f b) b := by
  induction xs with
  | nil => intro b; rfl
  | cons x xs ih =>
    intro b
    rw [List.flatMap_cons, List.foldlM_append, List.foldlM_cons]
    exact congrArg _ (funext ih)

theorem foldlM_filter_nil {α β ε : Type} {f : β → List α → Except ε β} (hnil : ∀ b, f b [] = .ok b) :
    ∀ (ws : List (List α)) (b : β), (ws.filter (· ≠ [])).foldlM f b = ws.foldlM f b
  | [], b => rfl
  | [] :: ws, b => by
    rw [List.foldlM_cons, hnil, List.filter_cons_of_neg (by simp), foldlM_filter_nil hnil ws]
    rfl
  | (x :: w) :: ws, b => by
    rw [List.filter_cons_of_pos (by simp), List.foldlM_cons, List.foldlM_cons]
    exact congrArg _ (funext fun b => foldlM_filter_nil hnil ws b)

theorem foldlM_dropWhile {β ε : Type} {f : β → Str → Except ε β} (hnil : ∀ b, f b [] = .ok b) (s : Str) (b : β) :
    ((s.dropWhile isSpaceOrComma).splitOnP isSpaceOrComma).foldlM f b =
      (s.splitOnP isSpaceOrComma).foldlM f b := by
  induction s with
  | nil => rfl
  | cons c s ih =>
    by_cases hc : isSpaceOrComma c = true
    · rw [List.dropWhile_cons_of_pos hc, ih, List.splitOnP_cons_eq_if_modifyHead, if_pos hc, List.foldlM_cons, hnil]
      rfl
    · rw [List.dropWhile_cons_of_neg hc]

/-- The list is read between commas, without the empty words. -/
theorem tabstopsParse_eq (s : Str) :
    tabstopsParse isNumeric s =
      (((s.splitOn ',').filter (· ≠ [])).foldlM (Parsing.spaced isNumeric) .start).map Parsing.finish := by
  have hwords : ((s.dropWhile isSpaceOrComma).splitOnP isSpaceOrComma).foldlM (Parsing.word isNumeric) .start =
      ((s.splitOn ',').filter (· ≠ [])).foldlM (Parsing.spaced isNumeric) .start := by
    rw [foldlM_dropWhile (fun _ => rfl), splitOnP_isSpaceOrComma, foldlM_flatMap,
      foldlM_filter_nil (Parsing.spaced_nil isNumeric)]
    rfl
  rw [← hwords, tabstopsParse]
  by_cases hnil : s.dropWhile isSpaceOrComma = []
  · simp only [hnil, if_true]
    rfl
  · simp only [hnil, if_false]
    cases (List.splitOnP isSpaceOrComma (List.dropWhile isSpaceOrComma s)).foldlM (Parsing.word isNumeric) .start <;> rfl

/-! ## Accepted lists -/

/-- Stops from one on, ascending. -/
structure Ascending (nums : List Nat) : Prop where
  positive : ∀ n ∈ nums, 0 < n
  sorted : nums.Pairwise (· < ·)

/-- What is accepted. -/
structure Valid (mode : RemainingMode) (stops : List Nat) : Prop extends Ascending stops where
  nonempty : stops ≠ []
  two : mode ≠ .none → 2 ≤ stops.length

theorem Ascending.concat {nums : List Nat} (h : Ascending nums) {num : Nat} (hpos : num ≠ 0)
    (hlast : ¬ nums.getLast?.any (num ≤ ·)) : Ascending (nums ++ [num]) := by
  have hlt : ∀ n ∈ nums, n < num := by
    intro n hn
    obtain ⟨front, last, rfl⟩ := List.eq_nil_or_concat nums |>.resolve_left (List.ne_nil_of_mem hn)
    rw [List.concat_eq_append] at hn hlast h
    have hl : last < num := by simpa using hlast
    rcases List.mem_append.1 hn with hn | hn
    · exact Nat.lt_trans ((List.pairwise_append.1 h.sorted).2.2 n hn last (by simp)) hl
    · rwa [List.mem_singleton.1 hn]
  constructor
  · intro n hn
    rcases List.mem_append.1 hn with hn | hn
    · exact h.positive n hn
    · exact Nat.pos_of_ne_zero (List.mem_singleton.1 hn ▸ hpos)
  · rw [List.pairwise_append]
    exact ⟨h.sorted, List.pairwise_singleton _ _, fun n hn m hm => List.mem_singleton.1 hm ▸ hlt n hn⟩

theorem ascending_push {p p' : Parsing} {num : Nat} (h : Ascending p.nums) (hp : p.push num = .ok p') :
    Ascending p'.nums := by
  unfold Parsing.push at hp
  rw [Fallible.guard_eq_ok, Fallible.guard_eq_ok, Fallible.guard_eq_ok] at hp
  obtain ⟨hzero, hlast, -, hp⟩ := hp
  cases hp
  exact h.concat hzero hlast

theorem ascending_word (w : Str) {p p' : Parsing} (h : Ascending p.nums) (hp : p.word isNumeric w = .ok p') :
    Ascending p'.nums := by
  induction w generalizing p with
  | nil => cases hp; exact h
  | cons c rest ih =>
    rw [Parsing.word] at hp
    split at hp
    · exact ih (p := { p with remainingMode := .plus }) h hp
    · split at hp
      · exact ih (p := { p with remainingMode := .slash }) h hp
      · split at hp
        · exact ascending_push h hp
        · cases hp
        · cases hp

theorem tabstopsParse_valid {s : Str} {mode : RemainingMode} {stops : List Nat}
    (h : tabstopsParse isNumeric s = .ok (mode, stops)) : Valid mode stops := by
  unfold tabstopsParse at h
  simp only at h
  have default : Ascending [defaultTabstop] := ⟨by simp [defaultTabstop], by simp⟩
  split at h
  · cases h
    exact ⟨default, by simp, by simp⟩
  · obtain ⟨p, hp, h⟩ := Fallible.bind_eq_ok.1 h
    cases h
    have hasc : Ascending p.nums :=
      Fallible.foldlM_induction (P := fun p => Ascending p.nums) (fun _ w _ h hp => ascending_word isNumeric w h hp)
        ⟨by simp [Parsing.start], by simp [Parsing.start]⟩ hp
    refine ⟨?_, ?_, ?_⟩
    · split
      · exact default
      · exact hasc
    · split
      · simp
      · assumption
    · intro hmode
      by_contra hlen
      exact hmode (if_pos (Nat.lt_of_not_le hlen))

/-! ## The next stop -/

/-- The number of spaces to the next tab stop. -/
def nextTabstop (tabstops : List Nat) (col : Nat) (mode : RemainingMode) : Nat :=
  let numTabstops := tabstops.length
  match mode with
  | .plus =>
    match (tabstops.take (numTabstops - 1)).find? (col < ·) with
    | some t => t - col
    | none =>
      let stepSize := tabstops.getD (numTabstops - 1) 0
      let lastFixedTabstop := tabstops.getD (numTabstops - 2) 0
      let charactersSinceLastTabstop := col - lastFixedTabstop
      let stepsRequired := 1 + charactersSinceLastTabstop / stepSize
      stepsRequired * stepSize - charactersSinceLastTabstop
  | .slash =>
    match (tabstops.take (numTabstops - 1)).find? (col < ·) with
    | some t => t - col
    | none => tabstops.getD (numTabstops - 1) 0 - col % tabstops.getD (numTabstops - 1) 0
  | .none =>
    if numTabstops = 1 then tabstops.getD 0 0 - col % tabstops.getD 0 0
    else
      match tabstops.find? (col < ·) with
      | some t => t - col
      | none => 1

/-- The columns that a tab may end at: `stops` up to the last one, and then with the mode the steps of its length from
the one before, or its multiples, and without one every column. A single stop stands for its multiples. -/
def IsStop (mode : RemainingMode) (stops : List Nat) (col : Nat) : Prop :=
  match mode with
  | .plus => col ∈ stops.dropLast ∨
      ∃ k, 0 < k ∧ col = stops.dropLast.getLast?.getD 0 + k * stops.getLast?.getD 0
  | .slash => col ∈ stops.dropLast ∨ (∀ t ∈ stops.dropLast, t < col) ∧ stops.getLast?.getD 0 ∣ col
  | .none => if stops.length = 1 then stops.getLast?.getD 0 ∣ col else col ∈ stops ∨ ∀ t ∈ stops, t < col

/-- The first stop of a list behind a column is the least one. -/
theorem find_least {stops : List Nat} (h : stops.Pairwise (· < ·)) {col t : Nat} (ht : stops.find? (col < ·) = some t) :
    t ∈ stops ∧ col < t ∧ ∀ u ∈ stops, col < u → t ≤ u := by
  obtain ⟨hcol, front, back, rfl, hfront⟩ := List.find?_eq_some_iff_append.1 ht
  refine ⟨by simp, by simpa using hcol, fun u hu hlt => ?_⟩
  rw [List.mem_append, List.mem_cons] at hu
  rcases hu with hu | rfl | hu
  · exact absurd (hfront u hu) (by simpa using hlt)
  · exact Nat.le_refl _
  · have := (List.pairwise_append.1 h).2.1
    exact Nat.le_of_lt (List.rel_of_pairwise_cons this hu)

/-- Behind the stops of a list. -/
theorem find_none {stops : List Nat} {col : Nat} (h : stops.find? (col < ·) = none) : ∀ t ∈ stops, t ≤ col := by
  simpa using h

/-- The next multiple. -/
theorem next_multiple {n : Nat} (hn : 0 < n) (col : Nat) :
    col < col + (n - col % n) ∧ n ∣ col + (n - col % n) ∧ ∀ t, n ∣ t → col < t → col + (n - col % n) ≤ t := by
  have hmod := Nat.mod_lt col hn
  have hdiv := Nat.div_add_mod col n
  have heq : col + (n - col % n) = n * (col / n + 1) := by
    rw [Nat.mul_succ]
    omega
  refine ⟨by omega, heq ▸ Nat.dvd_mul_right _ _, ?_⟩
  rintro t ⟨k, rfl⟩ hlt
  rw [heq]
  apply Nat.mul_le_mul_left
  by_contra hk
  have : n * k ≤ n * (col / n) := Nat.mul_le_mul_left n (by omega)
  omega

/-- The steps from the last stop that is fixed. -/
theorem steps_eq {n : Nat} (hn : 0 < n) (since : Nat) : (1 + since / n) * n - since = n - since % n := by
  have hmod := Nat.mod_lt since hn
  have hdiv := Nat.div_add_mod since n
  rw [Nat.add_mul, Nat.one_mul, Nat.mul_comm (since / n)]
  omega

theorem getD_last (stops : List Nat) : stops.getD (stops.length - 1) 0 = stops.getLast?.getD 0 := by
  rw [List.getD_eq_getElem?_getD, List.getLast?_eq_getElem?]

theorem getD_fixed {stops : List Nat} (h : 2 ≤ stops.length) :
    stops.getD (stops.length - 2) 0 = stops.dropLast.getLast?.getD 0 := by
  rw [← getD_last, List.length_dropLast, List.getD_eq_getElem?_getD, List.getD_eq_getElem?_getD, List.getElem?_dropLast,
    if_pos (by omega)]
  rfl

theorem Ascending.le_last {stops : List Nat} (h : Ascending stops) : ∀ t ∈ stops, t ≤ stops.getLast?.getD 0 := by
  intro t ht
  obtain ⟨front, last, rfl⟩ := List.eq_nil_or_concat stops |>.resolve_left (List.ne_nil_of_mem ht)
  rw [List.concat_eq_append] at ht h ⊢
  rw [List.getLast?_concat, Option.getD_some]
  rcases List.mem_append.1 ht with ht | ht
  · exact Nat.le_of_lt ((List.pairwise_append.1 h.sorted).2.2 t ht last (by simp))
  · exact Nat.le_of_eq (List.mem_singleton.1 ht)

theorem Ascending.dropLast {stops : List Nat} (h : Ascending stops) : Ascending stops.dropLast :=
  ⟨fun n hn => h.positive n (List.mem_of_mem_dropLast hn), h.sorted.sublist (List.dropLast_sublist _)⟩

section Next

variable {mode : RemainingMode} {stops : List Nat} (h : Valid mode stops)

include h

theorem Valid.last_pos : 0 < stops.getLast?.getD 0 := by
  rw [List.getLast?_eq_some_getLast h.nonempty]
  exact h.positive _ (List.getLast_mem h.nonempty)

/-- **The next stop**: `nextTabstop` spaces lead to the least stop behind the column. -/
theorem nextTabstop_isLeast (col : Nat) :
    IsLeast {t | IsStop mode stops t ∧ col < t} (col + nextTabstop stops col mode) := by
  have hlast := h.last_pos
  unfold nextTabstop
  simp only [← List.dropLast_eq_take, getD_last]
  cases mode with
  | plus =>
    have hfixed := h.dropLast.le_last
    simp only [IsStop]
    cases hfind : stops.dropLast.find? (col < ·) with
    | some t =>
      obtain ⟨hmem, hlt, hleast⟩ := find_least h.dropLast.sorted hfind
      simp only [Nat.add_sub_cancel' (Nat.le_of_lt hlt)]
      refine ⟨⟨.inl hmem, hlt⟩, ?_⟩
      rintro u ⟨hu | ⟨k, hk, rfl⟩, hcol⟩
      · exact hleast u hu hcol
      · exact Nat.le_trans (hfixed t hmem) (Nat.le_add_right _ _)
    | none =>
      simp only [getD_fixed (h.two (by simp)), steps_eq hlast]
      obtain ⟨last, hlast'⟩ : ∃ n, n = stops.getLast?.getD 0 := ⟨_, rfl⟩
      obtain ⟨fixed, hfixed'⟩ : ∃ n, n = stops.dropLast.getLast?.getD 0 := ⟨_, rfl⟩
      have hle : fixed ≤ col := by
        rw [hfixed']
        cases hl : stops.dropLast.getLast? with
        | none => simp
        | some t => exact find_none hfind t (List.mem_of_getLast? hl)
      rw [← hlast'] at hlast ⊢
      rw [← hfixed']
      obtain ⟨hlt, ⟨k, hk⟩, hleast⟩ := next_multiple hlast (col - fixed)
      refine ⟨⟨.inr ⟨k, ?_, ?_⟩, by omega⟩, ?_⟩
      · exact Nat.pos_of_ne_zero fun hzero => by simp [hzero] at hk; omega
      · rw [Nat.mul_comm]
        omega
      · rintro u ⟨hu | ⟨k', hk', rfl⟩, hcol⟩
        · exact absurd (find_none hfind u hu) (by omega)
        · have := hleast (last * k') ⟨k', rfl⟩ (by rw [Nat.mul_comm]; omega)
          rw [Nat.mul_comm k']
          omega
  | slash =>
    simp only [IsStop]
    cases hfind : stops.dropLast.find? (col < ·) with
    | some t =>
      obtain ⟨hmem, hlt, hleast⟩ := find_least h.dropLast.sorted hfind
      simp only [Nat.add_sub_cancel' (Nat.le_of_lt hlt)]
      refine ⟨⟨.inl hmem, hlt⟩, ?_⟩
      rintro u ⟨hu | ⟨hu, -⟩, hcol⟩
      · exact hleast u hu hcol
      · exact Nat.le_of_lt (hu t hmem)
    | none =>
      obtain ⟨hlt, hdvd, hleast⟩ := next_multiple hlast col
      refine ⟨⟨.inr ⟨fun t ht => Nat.lt_of_le_of_lt (find_none hfind t ht) hlt, hdvd⟩, hlt⟩, ?_⟩
      rintro u ⟨hu | ⟨-, hu⟩, hcol⟩
      · exact absurd (find_none hfind u hu) (by omega)
      · exact hleast u hu hcol
  | none =>
    simp only [IsStop]
    by_cases hone : stops.length = 1
    · obtain ⟨n, rfl⟩ := List.length_eq_one_iff.1 hone
      obtain ⟨hlt, hdvd, hleast⟩ := next_multiple hlast col
      exact ⟨⟨hdvd, hlt⟩, fun u hu => hleast u hu.1 hu.2⟩
    · simp only [if_neg hone]
      cases hfind : stops.find? (col < ·) with
      | some t =>
        obtain ⟨hmem, hlt, hleast⟩ := find_least h.sorted hfind
        simp only [Nat.add_sub_cancel' (Nat.le_of_lt hlt)]
        refine ⟨⟨.inl hmem, hlt⟩, ?_⟩
        rintro u ⟨hu | hu, hcol⟩
        · exact hleast u hu hcol
        · exact Nat.le_of_lt (hu t hmem)
      | none =>
        exact ⟨⟨.inr fun t ht => Nat.lt_succ_of_le (find_none hfind t ht), Nat.lt_succ_self col⟩, fun u hu => hu.2⟩

end Next

/-- The spaces from a column to the next stop. -/
noncomputable def spacesToStop (mode : RemainingMode) (stops : List Nat) (col : Nat) : Nat :=
  sInf {t | IsStop mode stops t ∧ col < t} - col

theorem spacesToStop_eq {mode : RemainingMode} {stops : List Nat} (h : Valid mode stops) :
    spacesToStop mode stops = fun col => nextTabstop stops col mode := by
  funext col
  rw [spacesToStop, (nextTabstop_isLeast h col).csInf_eq, Nat.add_sub_cancel_left]

end Peiosutils.Expand
