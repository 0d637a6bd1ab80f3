import Peiosutils.Expand.Tabstops

/-!
# Tab stops (`unexpand.rs`)

The stops of `--tabs` as `unexpand` reads them, and its way to the next one (`nextTabstop_agrees`). Of a list that
`expand` accepts too, the two make the same stops (`parse_agrees`), unless its last word is `/+N` behind a number:
`expand` takes the last specifier, and `unexpand` the first one with a number that has a sign.
-/

set_option autoImplicit false

namespace Peiosutils.Unexpand

open Expand (Str usizeLimit RemainingMode Parsing)

def defaultTabstop : Nat := 8

inductive ParseError where
  | invalidCharacter (s : Str)
  | tabSizeCannotBeZero
  | tabSizeTooLarge
  | tabSizesMustBeAscending
  /-- No error of the source: an addition overflows. -/
  | panic
  deriving DecidableEq, Repr

structure TabConfig where
  tabstops : List Nat
  incrementSize : Option Nat
  extendSize : Option Nat
  deriving DecidableEq, Repr

section Parse

variable (isNumeric : Char → Bool)

def parseTabNum (word : Str) (allowZero : Bool) : Except ParseError Nat :=
  match Radix.fromStrRadix usizeLimit 10 word with
  | .ok num => if num = 0 ∧ allowZero = false then .error .tabSizeCannotBeZero else .ok num
  | .error .posOverflow => .error .tabSizeTooLarge
  | .error _ => .error (.invalidCharacter (word.dropWhile isNumeric))

/-- Each number is greater than the one before, and the first than zero. -/
def isAscending (nums : List Nat) : Bool := (nums.foldl (fun a n => (a.1 && decide (a.2 < n), n)) (true, 0)).1

/-- The stops with the one that an increment adds. -/
def withIncrement (nums : List Nat) (incrementSize : Option Nat) : Except ParseError (List Nat) :=
  match incrementSize with
  | some inc =>
    if inc > 0 then
      if nums.getLast?.getD 0 + inc < usizeLimit then .ok (nums ++ [nums.getLast?.getD 0 + inc]) else .error .panic
    else .ok nums
  | none => .ok nums

/-- What is made of the words once they are read. -/
def finish (nums : List Nat) (incrementSize extendSize : Option Nat) : Except ParseError TabConfig :=
  if nums = [] ∧ incrementSize = none ∧ extendSize = none then .ok ⟨[defaultTabstop], none, none⟩
  else do
    let nums ← withIncrement nums incrementSize
    if isAscending nums = true then .ok ⟨nums, incrementSize, extendSize⟩ else .error .tabSizesMustBeAscending

/-- The loop over the words; a specifier in front of all numbers leaves it. -/
def parseWords (nums : List Nat) (incrementSize extendSize : Option Nat) : List Str → Except ParseError TabConfig
  | [] => finish nums incrementSize extendSize
  | [] :: words => parseWords nums incrementSize extendSize words
  | (c :: word) :: words =>
    if c = '+' ∨ c = '/' then
      if incrementSize.isSome ∨ extendSize.isSome then .error (.invalidCharacter [c])
      else do
        let value ← parseTabNum isNumeric word true
        if nums = [] then
          if value = 0 then .error .tabSizeCannotBeZero else .ok ⟨[value], none, none⟩
        else if c = '+' then parseWords nums (some value) extendSize words
        else parseWords nums incrementSize (some value) words
    else if incrementSize.isSome ∨ extendSize.isSome then .error (.invalidCharacter (c :: word))
    else do
      let num ← parseTabNum isNumeric (c :: word) false
      parseWords (nums ++ [num]) incrementSize extendSize words

def parseTabstops (s : Str) : Except ParseError TabConfig := parseWords isNumeric [] none none (s.splitOn ',')

end Parse

/-- The columns to the next stop, if there is one. -/
def nextTabstop (tabConfig : TabConfig) (col : Nat) : Option Nat :=
  let tabstops := tabConfig.tabstops
  if tabstops = [] then none
  else if tabstops.length = 1 ∧ ¬ tabConfig.incrementSize.any (0 < ·) ∧ ¬ tabConfig.extendSize.any (0 < ·) then
    some (tabstops.getD 0 0 - col % tabstops.getD 0 0)
  else
    match tabstops.find? (col < ·) with
    | some nextTab => some (nextTab - col)
    | none =>
      match tabstops.getLast? with
      | none => none
      | some lastTab =>
        match tabConfig.extendSize with
        | some extendSize => if extendSize = 0 then none else some (extendSize - col % extendSize)
        | none =>
          match tabConfig.incrementSize with
          | some incrementSize =>
            if incrementSize = 0 ∨ col < lastTab then none
            else
              let remainder := (col - lastTab) % incrementSize
              some (if remainder = 0 then incrementSize else incrementSize - remainder)
          | none => none

/-! ## Words and numbers -/

/-- A specifier in front of a word. -/
def Specified (w : Str) : Prop := w.head? = some '+' ∨ w.head? = some '/'

theorem digit_of_readOn {cs : Str} : ∀ {acc n : Nat}, Radix.readOn usizeLimit 10 acc cs = .ok n →
    ∀ c ∈ cs, (Radix.digit 10 c).isSome := by
  induction cs with
  | nil => simp
  | cons c cs ih =>
    intro acc n h
    rw [Radix.readOn] at h
    cases hd : Radix.digit 10 c with
    | none => simp [hd] at h
    | some d =>
      simp only [hd] at h
      split at h
      · rw [List.forall_mem_cons]
        exact ⟨by simp [hd], ih h⟩
      · cases h

/-- A number is digits, behind a sign at most. -/
theorem number_cases {w : Str} {n : Nat} (h : Radix.fromStrRadix usizeLimit 10 w = .ok n) :
    ∃ c ds, Radix.readOn usizeLimit 10 0 (c :: ds) = .ok n ∧ (w = c :: ds ∨ w = '+' :: c :: ds) ∧
      (∀ d ∈ c :: ds, (Radix.digit 10 d).isSome) := by
  unfold Radix.fromStrRadix at h
  split at h
  · cases h
  · rename_i cs
    split at h
    · cases h
    · rename_i hne
      obtain ⟨c, ds, rfl⟩ := List.exists_cons_of_ne_nil hne
      exact ⟨c, ds, h, .inr rfl, digit_of_readOn h⟩
  · rename_i c ds _
    exact ⟨c, ds, h, .inl rfl, digit_of_readOn h⟩

theorem not_specified_of_digit {c : Char} (h : (Radix.digit 10 c).isSome) : c ≠ '+' ∧ c ≠ '/' ∧ c ≠ ' ' := by
  refine ⟨?_, ?_, ?_⟩ <;> rintro rfl <;> revert h <;> decide

theorem space_notMem_number {w : Str} {n : Nat} (h : Radix.fromStrRadix usizeLimit 10 w = .ok n) : ' ' ∉ w := by
  obtain ⟨c, ds, -, hw, hdigits⟩ := number_cases h
  have hspace : ' ' ∉ c :: ds := fun hmem => (not_specified_of_digit (hdigits _ hmem)).2.2 rfl
  rcases hw with rfl | rfl
  · exact hspace
  · rw [List.mem_cons, not_or]
    exact ⟨by decide, hspace⟩

section Word

variable (isNumeric : Char → Bool)

theorem parseTabNum_eq_ok {word : Str} {allowZero : Bool} {n : Nat}
    (h : parseTabNum isNumeric word allowZero = .ok n) : Radix.fromStrRadix usizeLimit 10 word = .ok n := by
  unfold parseTabNum at h
  split at h
  · rename_i hread
    rw [hread, Except.ok.inj (Fallible.guard_eq_ok.1 h).2]
  · cases h
  · cases h

theorem word_digits {c : Char} {ds : Str} {n : Nat} (h : Radix.readOn usizeLimit 10 0 (c :: ds) = .ok n)
    (p : Parsing) : p.word isNumeric (c :: ds) = p.push n := by
  obtain ⟨hplus, hslash, -⟩ := not_specified_of_digit (digit_of_readOn h c (by simp))
  have hread : Radix.fromStrRadix usizeLimit 10 (c :: ds) = .ok n := by
    rw [Radix.fromStrRadix_of_ne_plus hplus, h]
  rw [Parsing.word, if_neg hplus, if_neg hslash, hread]

/-- A number as a word of `expand`: a sign counts as a specifier. -/
theorem word_number {w : Str} {n : Nat} (h : Radix.fromStrRadix usizeLimit 10 w = .ok n) (p : Parsing) :
    p.word isNumeric w = Parsing.push (if w.head? = some '+' then { p with remainingMode := .plus } else p) n := by
  obtain ⟨c, ds, hread, hw, hdigits⟩ := number_cases h
  rcases hw with rfl | rfl
  · have hplus : (c :: ds).head? ≠ some '+' := fun hc =>
      (not_specified_of_digit (hdigits c (by simp))).1 (Option.some.inj hc)
    rw [if_neg hplus, word_digits isNumeric hread]
  · rw [if_pos (show ('+' :: c :: ds).head? = some '+' from rfl), Parsing.word, if_pos rfl, word_digits isNumeric hread]

theorem spaced_number {w : Str} {n : Nat} (h : Radix.fromStrRadix usizeLimit 10 w = .ok n) (p : Parsing) :
    p.spaced isNumeric w = p.word isNumeric w := p.spaced_of_notMem isNumeric (space_notMem_number h)

/-- A specifier in front of a number as a word of `expand`: the last one counts. -/
theorem spaced_specified {c : Char} (hc : c = '+' ∨ c = '/') {w : Str} {n : Nat}
    (h : Radix.fromStrRadix usizeLimit 10 w = .ok n) (nums : List Nat) (mode : RemainingMode) (used : Bool) :
    (⟨nums, mode, used⟩ : Parsing).spaced isNumeric (c :: w) =
      Parsing.push ⟨nums, if c = '+' ∨ w.head? = some '+' then .plus else .slash, used⟩ n := by
  have hspace : ' ' ∉ c :: w := by
    rw [List.mem_cons, not_or]
    exact ⟨by rintro rfl; revert hc; decide, space_notMem_number h⟩
  rw [Parsing.spaced_of_notMem isNumeric _ hspace, Parsing.word]
  by_cases hplus : c = '+'
  · rw [if_pos hplus, word_number isNumeric h, if_pos (Or.inl hplus : c = '+' ∨ w.head? = some '+')]
    split <;> rfl
  · rw [if_neg hplus, if_pos (hc.resolve_left hplus), word_number isNumeric h]
    by_cases hhead : w.head? = some '+'
    · rw [if_pos hhead, if_pos (.inr hhead)]
    · rw [if_neg hhead, if_neg fun h => h.elim hplus hhead]

end Word

theorem push_eq_ok {p p' : Parsing} {n : Nat} (h : p.push n = .ok p') :
    n ≠ 0 ∧ p.isSpecifierAlreadyUsed = false ∧
      p' = ⟨p.nums ++ [n], p.remainingMode, decide (p.remainingMode ≠ .none)⟩ := by
  unfold Parsing.push at h
  rw [Fallible.guard_eq_ok, Fallible.guard_eq_ok, Fallible.guard_eq_ok] at h
  obtain ⟨hzero, -, hused, h⟩ := h
  cases h
  exact ⟨hzero, by simpa using hused, rfl⟩

/-- Once a specifier is used, no number is read. -/
theorem word_used (isNumeric : Char → Bool) (w : Str) {p p' : Parsing} (hused : p.isSpecifierAlreadyUsed = true)
    (h : p.word isNumeric w = .ok p') : p'.nums = p.nums ∧ p'.isSpecifierAlreadyUsed = true := by
  induction w generalizing p with
  | nil => cases h; exact ⟨rfl, hused⟩
  | cons c w ih =>
    rw [Parsing.word] at h
    split at h
    · exact ih (p := { p with remainingMode := .plus }) hused h
    · split at h
      · exact ih (p := { p with remainingMode := .slash }) hused h
      · split at h
        · have := (push_eq_ok h).2.1
          rw [hused] at this
          cases this
        · cases h
        · cases h

theorem words_used (isNumeric : Char → Bool) {ws : List Str} {p p' : Parsing} (hused : p.isSpecifierAlreadyUsed = true)
    (h : ws.foldlM (Parsing.spaced isNumeric) p = .ok p') : p'.nums = p.nums := by
  have hstep : ∀ (q : Parsing) (w : Str) (q' : Parsing), q.nums = p.nums ∧ q.isSpecifierAlreadyUsed = true →
      q.spaced isNumeric w = .ok q' → q'.nums = p.nums ∧ q'.isSpecifierAlreadyUsed = true := by
    intro q w q' hq hw
    refine Fallible.foldlM_induction (P := fun q => q.nums = p.nums ∧ q.isSpecifierAlreadyUsed = true) ?_ hq hw
    intro q w q' hq hw
    obtain ⟨hnums, hused⟩ := word_used isNumeric w hq.2 hw
    exact ⟨hnums.trans hq.1, hused⟩
  exact (Fallible.foldlM_induction (P := fun q => q.nums = p.nums ∧ q.isSpecifierAlreadyUsed = true) hstep ⟨rfl, hused⟩
    h).1

/-! ## Two readings of one list -/

/-- The stops of `expand` and those of `unexpand` that are the same. -/
inductive Agrees : RemainingMode → List Nat → TabConfig → Prop
  | fixed {nums : List Nat} (h : nums ≠ []) : Agrees .none nums ⟨nums, none, none⟩
  | plus {nums : List Nat} (n : Nat) (h : nums ≠ []) :
    Agrees .plus (nums ++ [n]) ⟨nums ++ [nums.getLast?.getD 0 + n], some n, none⟩
  | slash {nums : List Nat} (n : Nat) (h : nums ≠ []) : Agrees .slash (nums ++ [n]) ⟨nums, none, some n⟩

/-- The last of these words is `/+N`, behind a number that may have been read already. -/
def LastSlashPlus (nums : List Nat) (ws : List Str) (n : Nat) : Prop :=
  ∃ words digits, ws = words ++ ['/' :: '+' :: digits] ∧ (nums ≠ [] ∨ words ≠ []) ∧ (∀ w ∈ words, ¬ Specified w) ∧
    Radix.readOn usizeLimit 10 0 digits = .ok n

/-- The last word is `/+N`, behind numbers. -/
def SlashPlus (s : Str) (n : Nat) : Prop := LastSlashPlus [] ((s.splitOn ',').filter (· ≠ [])) n

theorem lastSlashPlus_number {w : Str} (hw : ¬ Specified w) (nums : List Nat) (num : Nat) (ws : List Str) (n : Nat) :
    LastSlashPlus nums (w :: ws) n ↔ LastSlashPlus (nums ++ [num]) ws n := by
  constructor
  · rintro ⟨words, digits, hws, -, hnumbers, hread⟩
    cases words with
    | nil =>
      obtain ⟨rfl, -⟩ := List.cons_eq_cons.1 hws
      exact absurd (.inr rfl) hw
    | cons v words =>
      obtain ⟨rfl, rfl⟩ := List.cons_eq_cons.1 hws
      exact ⟨words, digits, rfl, .inl (by simp), fun u hu => hnumbers u (by simp [hu]), hread⟩
  · rintro ⟨words, digits, rfl, -, hnumbers, hread⟩
    refine ⟨w :: words, digits, rfl, .inr (by simp), ?_, hread⟩
    rw [List.forall_mem_cons]
    exact ⟨hw, hnumbers⟩

theorem not_lastSlashPlus_nil {w : Str} (hw : Specified w) (ws : List Str) (n : Nat) :
    ¬ LastSlashPlus [] (w :: ws) n := by
  rintro ⟨words, digits, hws, hne, hnumbers, -⟩
  cases words with
  | nil => exact hne.elim (fun h => h rfl) fun h => h rfl
  | cons v words =>
    obtain ⟨rfl, -⟩ := List.cons_eq_cons.1 hws
    exact hnumbers w (by simp) hw

/-- What two accepted readings of one list of words come to. -/
def Readings (nums : List Nat) (ws : List Str) (p : Parsing) (config : TabConfig) : Prop :=
  (Agrees p.finish.1 p.finish.2 config ∧ ∀ n, ¬ LastSlashPlus nums ws n) ∨
    ∃ ns n, ns ≠ [] ∧ p.finish = (.plus, ns ++ [n]) ∧ config = ⟨ns, none, some n⟩ ∧ LastSlashPlus nums ws n

theorem finish_behind {nums : List Nat} (h : nums ≠ []) (n : Nat) (mode : RemainingMode) (used : Bool) :
    (⟨nums ++ [n], mode, used⟩ : Parsing).finish = (mode, nums ++ [n]) := by
  have hlen : ¬ (nums ++ [n]).length < 2 := by
    have := List.length_pos_iff.2 h
    rw [List.length_append, List.length_singleton]
    omega
  simp only [Parsing.finish, if_neg (show nums ++ [n] ≠ [] by simp), if_neg hlen]

section Readings

variable (isNumeric : Char → Bool)

theorem parseWords_specified {nums : List Nat} {inc ext : Option Nat} (hused : inc.isSome ∨ ext.isSome) {ws : List Str}
    (hne : ∀ w ∈ ws, w ≠ []) {config : TabConfig} (h : parseWords isNumeric nums inc ext ws = .ok config) :
    ws = [] ∧ finish nums inc ext = .ok config := by
  cases ws with
  | nil => exact ⟨rfl, h⟩
  | cons w ws =>
    obtain ⟨c, w, rfl⟩ := List.exists_cons_of_ne_nil (hne w (by simp))
    rw [parseWords, if_pos hused, if_pos hused] at h
    split at h <;> cases h

theorem finish_fields {nums : List Nat} (hnums : nums ≠ []) {inc ext : Option Nat} {config : TabConfig}
    (h : finish nums inc ext = .ok config) (hinc : ∀ n ∈ inc, n ≠ 0) :
    config = ⟨inc.elim nums fun n => nums ++ [nums.getLast?.getD 0 + n], inc, ext⟩ := by
  rw [finish, if_neg fun h => hnums h.1, Fallible.bind_eq_ok] at h
  obtain ⟨all, hall, h⟩ := h
  split at h
  · cases h
    congr
    cases inc with
    | none => exact (Except.ok.inj hall).symm
    | some n =>
      simp only [withIncrement] at hall
      rw [if_pos (Nat.pos_of_ne_zero (hinc n rfl))] at hall
      split at hall
      · exact (Except.ok.inj hall).symm
      · cases hall
  · cases h

theorem specified_agree {c : Char} (hspec : c = '+' ∨ c = '/') {w : Str} {value : Nat}
    (hread : Radix.fromStrRadix usizeLimit 10 w = .ok value) (hzero : value ≠ 0) {ws : List Str}
    (hne : ∀ w ∈ ws, w ≠ []) {nums : List Nat} {p : Parsing} {mode : RemainingMode} {config : TabConfig}
    (hmode : mode = if c = '+' ∨ w.head? = some '+' then .plus else .slash)
    (hp : ws.foldlM (Parsing.spaced isNumeric) ⟨nums ++ [value], mode, true⟩ = .ok p)
    (hconfig : (if nums = [] then
        if value = 0 then Except.error .tabSizeCannotBeZero else .ok ⟨[value], none, none⟩
      else if c = '+' then parseWords isNumeric nums (some value) none ws
      else parseWords isNumeric nums none (some value) ws) = .ok config) :
    Readings nums ((c :: w) :: ws) p config := by
  by_cases hnums : nums = []
  · subst hnums
    rw [if_pos rfl, if_neg hzero] at hconfig
    cases hconfig
    have hspecified : Specified (c :: w) := by simpa [Specified] using hspec
    refine .inl ⟨?_, not_lastSlashPlus_nil hspecified ws⟩
    have hfinish : p.finish = (.none, [value]) := by
      simp [Parsing.finish, words_used isNumeric rfl hp]
    rw [hfinish]
    exact .fixed (by simp)
  · rw [if_neg hnums] at hconfig
    by_cases hplus : c = '+'
    · rw [if_pos hplus] at hconfig
      obtain ⟨rfl, hconfig⟩ := parseWords_specified isNumeric (.inl rfl) hne hconfig
      cases hp
      rw [if_pos (.inl hplus)] at hmode
      rw [finish_fields hnums hconfig (by simpa using hzero)]
      refine .inl ⟨?_, ?_⟩
      · rw [finish_behind hnums, hmode]
        exact .plus value hnums
      · rintro n ⟨words, digits, hws, -⟩
        cases words with
        | nil => exact absurd ((List.cons_eq_cons.1 (List.cons_eq_cons.1 hws).1).1.symm.trans hplus) (by decide)
        | cons v words => simp at hws
    · rw [if_neg hplus] at hconfig
      obtain rfl := hspec.resolve_left hplus
      obtain ⟨rfl, hconfig⟩ := parseWords_specified isNumeric (.inr rfl) hne hconfig
      cases hp
      rw [finish_fields hnums hconfig (by simp)]
      obtain ⟨d, ds, hvalue, hw, hdigits⟩ := number_cases hread
      rcases hw with rfl | rfl
      · have hhead : d ≠ '+' := (not_specified_of_digit (hdigits d (by simp))).1
        rw [if_neg (by simpa using hhead)] at hmode
        refine .inl ⟨?_, ?_⟩
        · rw [finish_behind hnums, hmode]
          exact .slash value hnums
        · rintro n ⟨words, digits, hws, -⟩
          cases words with
          | nil => exact hhead (List.cons_eq_cons.1 (List.cons_eq_cons.1 (List.cons_eq_cons.1 hws).1).2).1
          | cons v words => simp at hws
      · rw [if_pos (.inr rfl)] at hmode
        refine .inr ⟨nums, value, hnums, ?_, rfl, [], d :: ds, rfl, .inl hnums, by simp, hvalue⟩
        rw [finish_behind hnums, hmode]

/-- **Two readings of one list of words**, behind the same numbers. -/
theorem words_agree {ws : List Str} (hne : ∀ w ∈ ws, w ≠ []) : ∀ {nums : List Nat} {p : Parsing} {config : TabConfig},
    ws.foldlM (Parsing.spaced isNumeric) ⟨nums, .none, false⟩ = .ok p →
      parseWords isNumeric nums none none ws = .ok config → Readings nums ws p config := by
  induction ws with
  | nil =>
    intro nums p config hp hconfig
    cases hp
    refine .inl ⟨?_, fun n h => ?_⟩
    · by_cases hnums : nums = []
      · subst hnums
        cases hconfig
        exact .fixed (List.cons_ne_nil _ _)
      · rw [finish_fields hnums hconfig (by simp)]
        simp only [Parsing.finish, if_neg hnums, ite_self]
        exact .fixed hnums
    · obtain ⟨words, digits, hws, -⟩ := h
      exact absurd hws (by simp)
  | cons w ws ih =>
    intro nums p config hp hconfig
    rw [List.forall_mem_cons] at hne
    obtain ⟨c, w, rfl⟩ := List.exists_cons_of_ne_nil hne.1
    rw [List.foldlM_cons, Fallible.bind_eq_ok] at hp
    obtain ⟨q, hq, hp⟩ := hp
    rw [parseWords] at hconfig
    by_cases hspec : c = '+' ∨ c = '/'
    · rw [if_pos hspec, if_neg (by simp), Fallible.bind_eq_ok] at hconfig
      obtain ⟨value, hvalue, hconfig⟩ := hconfig
      have hread := parseTabNum_eq_ok isNumeric hvalue
      rw [spaced_specified isNumeric hspec hread] at hq
      obtain ⟨hzero, -, rfl⟩ := push_eq_ok hq
      refine specified_agree isNumeric hspec hread hzero hne.2 rfl ?_ hconfig
      rwa [decide_eq_true (by split <;> simp)] at hp
    · have hnot : ¬ Specified (c :: w) := by simpa [Specified] using hspec
      rw [if_neg hspec, if_neg (by simp), Fallible.bind_eq_ok] at hconfig
      obtain ⟨num, hnum, hconfig⟩ := hconfig
      have hread := parseTabNum_eq_ok isNumeric hnum
      rw [spaced_number isNumeric hread, word_number isNumeric hread, if_neg fun h => hnot (.inl h)] at hq
      obtain ⟨-, -, rfl⟩ := push_eq_ok hq
      rcases ih hne.2 hp hconfig with ⟨hagrees, hlast⟩ | ⟨ns, n, hns, hp, hconfig, hlast⟩
      · exact .inl ⟨hagrees, fun n h => hlast n ((lastSlashPlus_number hnot nums num ws n).1 h)⟩
      · exact .inr ⟨ns, n, hns, hp, hconfig, (lastSlashPlus_number hnot nums num ws n).2 hlast⟩

theorem parseWords_filter : ∀ (ws : List Str) (nums : List Nat) (inc ext : Option Nat),
    parseWords isNumeric nums inc ext (ws.filter (· ≠ [])) = parseWords isNumeric nums inc ext ws
  | [], _, _, _ => rfl
  | [] :: ws, nums, inc, ext => by
    rw [List.filter_cons_of_neg (by simp), parseWords, parseWords_filter ws]
  | (c :: w) :: ws, nums, inc, ext => by
    rw [List.filter_cons_of_pos (by simp), parseWords, parseWords]
    simp only [parseWords_filter ws]

/-- **The two readings of a list**: they make the same stops, unless the last word is `/+N` behind a number. -/
theorem parse_agrees {s : Str} {mode : RemainingMode} {stops : List Nat} {config : TabConfig}
    (he : Expand.tabstopsParse isNumeric s = .ok (mode, stops)) (hu : parseTabstops isNumeric s = .ok config) :
    (Agrees mode stops config ∧ ∀ n, ¬ SlashPlus s n) ∨
      ∃ ns n, ns ≠ [] ∧ mode = .plus ∧ stops = ns ++ [n] ∧ config = ⟨ns, none, some n⟩ ∧ SlashPlus s n := by
  rw [parseTabstops, ← parseWords_filter] at hu
  rw [Expand.tabstopsParse_eq] at he
  cases hp : ((s.splitOn ',').filter (· ≠ [])).foldlM (Parsing.spaced isNumeric) .start with
  | error e => rw [hp] at he; cases he
  | ok p =>
    rw [hp] at he
    have hfinish : p.finish = (mode, stops) := Except.ok.inj he
    have hreadings := words_agree isNumeric (fun w hw => by simpa using (List.mem_filter.1 hw).2) hp hu
    unfold Readings at hreadings
    rw [hfinish] at hreadings
    rcases hreadings with ⟨hagrees, hlast⟩ | ⟨ns, n, hns, hstops, hconfig, hlast⟩
    · exact .inl ⟨hagrees, hlast⟩
    · obtain ⟨rfl, rfl⟩ := Prod.mk.inj hstops
      exact .inr ⟨ns, n, hns, rfl, rfl, hconfig, hlast⟩

end Readings

/-! ## The next stop -/

/-- The steps from a column to the next stop of an increment. -/
theorem increment_eq {n last col : Nat} (h : last + n ≤ col) :
    (if (col - (last + n)) % n = 0 then n else n - (col - (last + n)) % n) = n - (col - last) % n := by
  have hmod : (col - last) % n = (col - (last + n)) % n := by
    rw [show col - last = col - (last + n) + n by omega, Nat.add_mod_right]
  rw [hmod]
  split
  · rename_i hzero
    rw [hzero, Nat.sub_zero]
  · rfl

/-- **The next stop**: that of `expand`, or the next column where `unexpand` has none. -/
theorem nextTabstop_agrees {mode : RemainingMode} {stops : List Nat} {config : TabConfig}
    (hvalid : Expand.Valid mode stops) (h : Agrees mode stops config) (col : Nat) :
    Expand.nextTabstop stops col mode = (nextTabstop config col).getD 1 := by
  cases h with
  | fixed hne =>
    simp only [Expand.nextTabstop, nextTabstop, if_neg hne, Option.any_none, Bool.false_eq_true, not_false_eq_true,
      and_true]
    split
    · rfl
    · cases stops.find? (col < ·) with
      | some t => rfl
      | none => cases stops.getLast? <;> rfl
  | plus n hne =>
    rename_i nums
    have hpos : 0 < n := hvalid.positive n (by simp)
    have hlen : 2 ≤ (nums ++ [n]).length := hvalid.two (by simp)
    simp only [Expand.nextTabstop, Expand.getD_last, Expand.getD_fixed hlen, ← List.dropLast_eq_take,
      List.dropLast_concat, List.getLast?_concat, Option.getD_some, nextTabstop, Expand.steps_eq hpos]
    rw [if_neg (by simp), if_neg (by simp [hpos]), List.find?_append]
    cases hfind : nums.find? (col < ·) with
    | some t => rfl
    | none =>
      have hle : nums.getLast?.getD 0 ≤ col := by
        cases hl : nums.getLast? with
        | none => simp
        | some t => exact Expand.find_none hfind t (List.mem_of_getLast? hl)
      by_cases hcol : col < nums.getLast?.getD 0 + n
      · rw [List.find?_cons_of_pos (by simpa using hcol)]
        have hmod : (col - nums.getLast?.getD 0) % n = col - nums.getLast?.getD 0 := Nat.mod_eq_of_lt (by omega)
        simp only [Option.none_or, Option.getD_some, hmod]
        omega
      · rw [List.find?_cons_of_neg (by simpa using hcol)]
        simp only [List.find?_nil, Option.or_none]
        rw [if_neg (by omega), Option.getD_some, increment_eq (Nat.le_of_not_lt hcol)]
  | slash n hne =>
    rename_i nums
    have hpos : 0 < n := hvalid.positive n (by simp)
    simp only [Expand.nextTabstop, Expand.getD_last, ← List.dropLast_eq_take, List.dropLast_concat,
      List.getLast?_concat, Option.getD_some, nextTabstop]
    rw [if_neg hne, if_neg (by simp [hpos])]
    cases hfind : nums.find? (col < ·) with
    | some t => rfl
    | none =>
      rw [List.getLast?_eq_some_getLast hne]
      simp only [if_neg (Nat.ne_of_gt hpos), Option.getD_some]

end Peiosutils.Unexpand
