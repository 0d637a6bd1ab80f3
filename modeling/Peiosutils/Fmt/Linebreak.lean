import Mathlib.Data.List.Basic
import Mathlib.Tactic.Linarith

/-!
# Line breaking (`linebreak.rs`)

The greedy breaker, and the optimal one: it keeps breaks with pointers to earlier ones (`Linked`), of which some are
active and are extended in place by each word, follows the pointers back from the best one, and writes the words in a
second pass that stops at the words of the breakpoints. A word is known by its index, which stands for its address. What
is computed with `f32` is a parameter (`Rating`). Where no sum is out of range (`Fits`), both breakers write every word
once and in order, and the breakpoints name words one behind the other (`breaks_meet`).
-/

set_option autoImplicit false

namespace Peiosutils.Fmt

structure WordInfo where
  word : List UInt8
  wordStart : Nat
  wordNchars : Nat
  beforeTab : Option Nat
  afterTab : Nat
  sentenceStart : Bool
  endsPunct : Bool
  newLine : Bool
  deriving DecidableEq, Repr

/-- The options, as they are checked: a tab is a column wide at least, and the goal is within the width. -/
structure FmtOptions where
  width : Nat
  goal : Nat
  tabwidth : Nat
  goal_le : goal ≤ width
  tabwidth_pos : 0 < tabwidth

structure BreakArgs extends FmtOptions where
  initLen : Nat
  indent : List UInt8
  indentLen : Nat
  uniform : Bool

/-! ## Machine integers

None is a panic. -/

/-- A `usize`. -/
def usize (n : Nat) : Option Nat := if n < 18446744073709551616 then some n else none

/-- A difference of `usize`s. -/
def sub (a b : Nat) : Option Nat := if b ≤ a then some (a - b) else none

/-- A `usize` as an `isize`, whose bits it keeps. -/
def asIsize (n : Nat) : Int := if n < 9223372036854775808 then n else n - 18446744073709551616

/-- An `isize`. -/
def isize (n : Int) : Option Int :=
  if -9223372036854775808 ≤ n ∧ n < 9223372036854775808 then some n else none

def saturate (n : Int) : Int := max (-9223372036854775808) (min n 9223372036854775807)

/-! ## What is written -/

/-- A line break with the indent, or a word behind some spaces, without its blanks in front when it is sliced. -/
inductive Piece where
  | newline
  | word (slen : Nat) (sliced : Bool) (winfo : WordInfo)
  deriving DecidableEq, Repr

def writeNewline (indent : List UInt8) : List UInt8 := 10 :: indent

def writeWithSpaces (word : List UInt8) (slen : Nat) : List UInt8 :=
  (if slen = 2 then [32, 32] else if slen = 1 then [32] else []) ++ word

def Piece.bytes (indent : List UInt8) : Piece → List UInt8
  | .newline => writeNewline indent
  | .word slen sliced winfo => writeWithSpaces (if sliced then winfo.word.drop winfo.wordStart else winfo.word) slen

/-- What is written behind the first word. -/
def written (args : BreakArgs) (pieces : List Piece) : List UInt8 := pieces.flatMap (Piece.bytes args.indent) ++ [10]

/-- The word without its blanks. -/
def WordInfo.core (winfo : WordInfo) : List UInt8 := winfo.word.drop winfo.wordStart

/-- The word of a piece. -/
def Piece.winfo : Piece → Option WordInfo
  | .newline => none
  | .word _ _ winfo => some winfo

/-- What is written of a piece in front of its word. -/
def Piece.spacing (indent : List UInt8) : Piece → List UInt8
  | .newline => writeNewline indent
  | .word slen sliced winfo => writeWithSpaces (if sliced then [] else winfo.word.take winfo.wordStart) slen

/-- Texts with the same words differ in their spacing alone. -/
theorem written_eq (args : BreakArgs) (pieces : List Piece) :
    written args pieces =
      pieces.flatMap (fun p => p.spacing args.indent ++ (p.winfo.map WordInfo.core).getD []) ++ [10] := by
  have hbytes : ∀ p : Piece, p.bytes args.indent = p.spacing args.indent ++ (p.winfo.map WordInfo.core).getD [] := by
    intro p
    cases p with
    | newline => simp [Piece.bytes, Piece.spacing, Piece.winfo]
    | word slen sliced winfo =>
      cases sliced <;> simp [Piece.bytes, Piece.spacing, Piece.winfo, writeWithSpaces, WordInfo.core]
  rw [written, List.flatMap_congr fun p _ => hbytes p]

/-- Number of spaces to add before a word, based on mode, newline, sentence start. -/
def computeSlen (uniform newline start punct : Bool) : Nat :=
  if uniform || newline then (if start || (newline && punct) then 2 else 1) else 0

/-- The spaces before a word, and whether it is sliced. -/
def sliceIfFresh (args : BreakArgs) (fresh prevPunct : Bool) (winfo : WordInfo) : Piece :=
  if fresh then .word 0 true winfo
  else .word (computeSlen args.uniform winfo.newLine winfo.sentenceStart prevPunct) false winfo

def computeWidth (args : BreakArgs) (winfo : WordInfo) (posn : Nat) (fresh : Bool) : Option Nat :=
  if fresh then some 0
  else
    match winfo.beforeTab with
    | none => some winfo.afterTab
    | some pre => do
      let sum ← usize (pre + posn)
      let tabs ← usize (sum / args.tabwidth + 1)
      let stop ← usize (tabs * args.tabwidth)
      let all ← usize (winfo.afterTab + stop)
      sub all posn

/-! ## The greedy breaker -/

def breakSimple (args : BreakArgs) : Nat → Bool → List WordInfo → Option (List Piece)
  | _, _, [] => some []
  | l, prevPunct, winfo :: iter => do
    let width ← computeWidth args winfo l false
    let wlen ← usize (winfo.wordNchars + width)
    let slen := computeSlen args.uniform winfo.newLine winfo.sentenceStart prevPunct
    let len ← usize (l + wlen)
    let len ← usize (len + slen)
    if args.width < len then do
      let next ← usize (args.indentLen + winfo.wordNchars)
      let rest ← breakSimple args next winfo.endsPunct iter
      return .newline :: .word 0 true winfo :: rest
    else do
      let rest ← breakSimple args len winfo.endsPunct iter
      return .word slen false winfo :: rest

/-! ## The optimal breaker -/

/-- The arithmetic of `f32`, which is not modelled. -/
structure Rating (Ratio : Type) where
  ratio : Int → Nat → Ratio
  badLinelen : Ratio → Int
  badWordlen : Nat → Nat → Int
  badDeltaR : Ratio → Ratio → Int
  isNan : Ratio → Bool
  nan : Ratio
  zero : Ratio
  one : Ratio
  minusOne : Ratio

variable {Ratio : Type} (rating : Rating Ratio) (args : BreakArgs)

/-- A break, by the index of its word. -/
structure LineBreak (Ratio : Type) where
  prev : Nat
  linebreak : Option Nat
  breakBefore : Bool
  demerits : Int
  prevRat : Ratio
  length : Nat
  fresh : Bool

def orphanBreakPenalty : Int := 250000000

def isWordSentenceFinal (current : WordInfo) (next : Option WordInfo) : Bool :=
  match next with
  | none => true
  | some nextWord => nextWord.sentenceStart || (nextWord.newLine && current.endsPunct)

def isNextWordSentenceFinal : List WordInfo → Bool
  | [] => false
  | nextWord :: iter => isWordSentenceFinal nextWord iter.head?

def computeDemerits (deltaLen : Int) (stretch wlen : Nat) (prevRat : Ratio) : Option (Int × Ratio) := do
  let ratio := if deltaLen = 0 then rating.zero else rating.ratio deltaLen stretch
  let badLinelen := rating.badLinelen ratio
  let badWordlen ←
    if stretch ≤ wlen then some 0
    else (sub stretch wlen).bind fun short => (sub stretch 1).map fun all => rating.badWordlen short all
  let badDeltaR := if rating.isNan prevRat then 0 else rating.badDeltaR ratio prevRat
  let base := saturate (saturate (saturate (1 + badLinelen) + badWordlen) + badDeltaR)
  return (saturate (base * base), ratio)

/-- What the loop over the active breaks keeps. -/
structure Scan (Ratio : Type) where
  linebreaks : List (LineBreak Ratio)
  nextActiveBreaks : List Nat
  bestActiveDemerits : Int
  ldIdx : Nat
  bestBreakBefore : Option (LineBreak Ratio)
  bestBreakAfter : Option (LineBreak Ratio)

/-- What is known of a word when the active breaks are gone through. -/
structure Current where
  index : Nat
  w : WordInfo
  isLastWord : Bool
  isSentenceEnd : Bool
  nextWordSentenceFinal : Bool
  slen : Nat
  stretch : Nat
  minlength : Nat

/-- The better one of a break and a new one. -/
def better (best : Option (LineBreak Ratio)) (new : LineBreak Ratio) : Option (LineBreak Ratio) :=
  match best with
  | none => some new
  | some old => if new.demerits < old.demerits then some new else some old

/-- A break before the word, behind the active break. -/
def considerBefore (c : Current) (i : Nat) (active : LineBreak Ratio) (best : Option (LineBreak Ratio)) :
    Option (Option (LineBreak Ratio)) :=
  if active.fresh = false ∧ c.minlength ≤ active.length then do
    let delta ← isize (asIsize args.goal - asIsize active.length)
    let (demerits, newRatio) ← computeDemerits rating delta c.stretch c.w.wordNchars active.prevRat
    let newDemerits := if c.isSentenceEnd then saturate (demerits + orphanBreakPenalty) else demerits
    let length ← usize (args.indentLen + c.w.wordNchars)
    return better best ⟨i, some c.index, true, saturate (active.demerits + newDemerits), newRatio, length, false⟩
  else some best

/-- A break behind the word, where the line has come to `tlen`. -/
def considerAfter (c : Current) (i : Nat) (active : LineBreak Ratio) (tlen : Nat) (best : Option (LineBreak Ratio)) :
    Option (Option (LineBreak Ratio)) :=
  if c.minlength ≤ tlen then do
    let (demerits, newRatio) ←
      if c.isLastWord then some (0, rating.zero)
      else
        (isize (asIsize args.goal - asIsize tlen)).bind fun delta =>
          computeDemerits rating delta c.stretch c.w.wordNchars active.prevRat
    let newDemerits :=
      if c.isLastWord = false ∧ c.nextWordSentenceFinal then saturate (demerits + orphanBreakPenalty) else demerits
    return better best
      ⟨i, some c.index, false, saturate (active.demerits + newDemerits), newRatio, args.indentLen, true⟩
  else some best

/-- The length of the line with the word. -/
def extended (c : Current) (active : LineBreak Ratio) : Option Nat := do
  let width ← computeWidth args c.w active.length active.fresh
  let wlen ← usize (c.w.wordNchars + width)
  let wlen ← usize (wlen + c.slen)
  usize (wlen + active.length)

/-- One active break. -/
def scanActive (c : Current) (s : Scan Ratio) (i : Nat) : Option (Scan Ratio) := do
  let active ← s.linebreaks[i]?
  let (best, ldIdx) :=
    if active.demerits < s.bestActiveDemerits then (active.demerits, i) else (s.bestActiveDemerits, s.ldIdx)
  let before ← considerBefore rating args c i active s.bestBreakBefore
  let tlen ← extended args c active
  if tlen ≤ args.width then do
    let after ← considerAfter rating args c i active tlen s.bestBreakAfter
    return ⟨s.linebreaks.set i { active with fresh := false, length := tlen }, s.nextActiveBreaks ++ [i], best, ldIdx,
      before, after⟩
  else return ⟨s.linebreaks, s.nextActiveBreaks, best, ldIdx, before, s.bestBreakAfter⟩

/-- Whether to break before the word, and the length of the line then. -/
def restartSide (active : LineBreak Ratio) (c : Current) : Option (Bool × Nat) :=
  if active.fresh then some (false, args.indentLen)
  else do
    let width ← computeWidth args c.w active.length active.fresh
    let wlen ← usize (c.w.wordNchars + width)
    let underlen ← isize (asIsize c.minlength - asIsize active.length)
    let len ← usize (wlen + c.slen)
    let len ← usize (len + active.length)
    let overlen ← isize (asIsize len - asIsize args.width)
    if underlen < overlen then (usize (args.indentLen + c.w.wordNchars)).map fun length => (true, length)
    else some (false, args.indentLen)

def restartActiveBreaks (active : LineBreak Ratio) (actIdx : Nat) (c : Current) : Option (LineBreak Ratio) := do
  let (breakBefore, lineLength) ← restartSide args active c
  return ⟨actIdx, some c.index, breakBefore, 0, if breakBefore then rating.one else rating.minusOne, lineLength,
    !breakBefore⟩

/-- One word: the breaks, and the active ones of them. -/
def scanWord (c : Current) (linebreaks : List (LineBreak Ratio)) (activeBreaks : List Nat) :
    Option (List (LineBreak Ratio) × List Nat) := do
  let s ← activeBreaks.foldlM (scanActive rating args c) ⟨linebreaks, [], 9223372036854775807, 0, none, none⟩
  let new := s.bestBreakBefore.toList ++ s.bestBreakAfter.toList
  let linebreaks := s.linebreaks ++ new
  let active := s.nextActiveBreaks ++ (List.range new.length).map (s.linebreaks.length + ·)
  if active = [] then do
    let old ← linebreaks[s.ldIdx]?
    let newBreak ← restartActiveBreaks rating args old s.ldIdx c
    return (linebreaks ++ [newBreak], [linebreaks.length])
  else return (linebreaks, active)

/-- Whether a sentence ends with a word, by the words behind it. -/
def isSentenceEnd (w : WordInfo) (iter : List WordInfo) : Bool :=
  match iter.head? with
  | none => true
  | some next => next.sentenceStart || (next.newLine && w.endsPunct)

/-- The loop over the words. -/
def scanWords (stretch minlength : Nat) : Nat → Bool → List WordInfo → List (LineBreak Ratio) → List Nat →
    Option (List (LineBreak Ratio) × List Nat)
  | _, _, [], linebreaks, active => some (linebreaks, active)
  | index, isSentenceStart, w :: iter, linebreaks, active => do
    let c : Current := ⟨index, w, iter.head?.isNone, isSentenceEnd w iter, isNextWordSentenceFinal iter,
      computeSlen args.uniform w.newLine isSentenceStart false, stretch, minlength⟩
    let (linebreaks, active) ← scanWord rating args c linebreaks active
    scanWords stretch minlength (index + 1) (isSentenceEnd w iter) iter linebreaks active

/-- The pointers back through the breaks; as many as there are breaks are enough. -/
def chase (paths : List (LineBreak Ratio)) : Nat → Nat → Option (List (Nat × Bool))
  | 0, _ => none
  | turns + 1, best =>
    paths[best]?.bind fun next =>
      match next.linebreak with
      | none => some []
      | some word => (chase paths turns next.prev).map ((word, next.breakBefore) :: ·)

/-- The first of the active breaks with the fewest demerits. -/
def minByKey (paths : List (LineBreak Ratio)) (active : List Nat) : Option Nat :=
  active.foldl (fun best a =>
    match best with
    | none => some a
    | some b =>
      if (paths[a]?.map LineBreak.demerits).getD 0 < (paths[b]?.map LineBreak.demerits).getD 0 then some a else some b)
    none

def buildBestPath (paths : List (LineBreak Ratio)) (active : List Nat) : Option (List (Nat × Bool)) :=
  match minByKey paths active with
  | none => some []
  | some best => chase paths paths.length best

/-- The length from which on a line may be broken. -/
def minlength (stretch : Nat) : Option Nat :=
  if args.goal ≤ 10 then some 1 else sub (max args.goal (stretch + 1)) stretch

/-- The words at which lines are broken, the last one first. -/
def findKpBreakpoints (words : List WordInfo) : Option (List (Nat × Bool)) := do
  let stretch ← sub args.width args.goal
  let minlength ← minlength args stretch
  let (linebreaks, active) ← scanWords rating args stretch minlength 0 false words
    [⟨0, none, false, 0, rating.nan, args.initLen, false⟩] [0]
  buildBestPath linebreaks active

/-! ## The second pass -/

/-- Words up to that of a breakpoint: what is written, what is left, and whether the last word was punctuated and a line
is fresh. -/
def emitUntil (nextBreak : Nat) (breakBefore : Bool) : Bool → Bool → List (Nat × WordInfo) →
    List Piece × List (Nat × WordInfo) × Bool × Bool
  | prevPunct, fresh, [] => ([], [], prevPunct, fresh)
  | prevPunct, fresh, (index, winfo) :: iter =>
    let piece := sliceIfFresh args fresh prevPunct winfo
    if index = nextBreak then
      if breakBefore then ([.newline, .word 0 true winfo], iter, winfo.endsPunct, false)
      else ([piece], iter, winfo.endsPunct, true)
    else
      let r := emitUntil nextBreak breakBefore winfo.endsPunct false iter
      (piece :: r.1, r.2)

/-- The words behind the last breakpoint. -/
def emitRest : Bool → Bool → List (Nat × WordInfo) → List Piece
  | _, _, [] => []
  | prevPunct, fresh, (_, winfo) :: iter =>
    (if fresh then [.newline] else []) ++ sliceIfFresh args fresh prevPunct winfo :: emitRest winfo.endsPunct false iter

def emit : List (Nat × Bool) → Bool → Bool → List (Nat × WordInfo) → List Piece
  | [], prevPunct, fresh, iter => emitRest args prevPunct fresh iter
  | (nextBreak, breakBefore) :: breakpoints, prevPunct, fresh, iter =>
    let r := emitUntil args nextBreak breakBefore prevPunct fresh iter
    (if fresh then [.newline] else []) ++ r.1 ++ emit breakpoints r.2.2.1 r.2.2.2 r.2.1

def breakKnuthPlass (words : List WordInfo) : Option (List Piece) :=
  (findKpBreakpoints rating args words).map fun breakpoints =>
    emit args breakpoints.reverse false false (words.zipIdx.map fun p => (p.2, p.1))

/-! ## Words and widths -/

/-- The width of the blanks in front of a word. -/
def blanks (args : BreakArgs) (winfo : WordInfo) (posn : Nat) : Nat :=
  match winfo.beforeTab with
  | none => winfo.afterTab
  | some pre => winfo.afterTab + ((pre + posn) / args.tabwidth + 1) * args.tabwidth - posn

/-- No line with two words or more is wider than it should be; `some l` is a line of the length `l` that has a word
already. -/
def Within (args : BreakArgs) : Option Nat → List Piece → Prop
  | _, [] => True
  | _, .newline :: ps => Within args none ps
  | none, .word slen _ winfo :: ps => Within args (some (args.indentLen + slen + winfo.wordNchars)) ps
  | some l, .word slen _ winfo :: ps =>
    l + (winfo.wordNchars + blanks args winfo l) + slen ≤ args.width ∧
      Within args (some (l + (winfo.wordNchars + blanks args winfo l) + slen)) ps

/-- No line is longer than `L`, with a word and its blanks. -/
structure Bounded (args : BreakArgs) (L : Nat) (winfo : WordInfo) : Prop where
  width : args.width ≤ L
  indent : args.indentLen + winfo.wordNchars ≤ L
  sum : L + winfo.wordNchars + winfo.beforeTab.getD 0 + winfo.afterTab + args.tabwidth + 2 < 9223372036854775808

theorem usize_eq {n : Nat} (h : n < 9223372036854775808) : usize n = some n := if_pos (by omega)

theorem computeSlen_le (uniform newline start punct : Bool) : computeSlen uniform newline start punct ≤ 2 := by
  unfold computeSlen
  split
  · split <;> omega
  · omega

variable {args}

theorem blanks_le (args : BreakArgs) (winfo : WordInfo) (posn : Nat) :
    blanks args winfo posn ≤ winfo.beforeTab.getD 0 + winfo.afterTab + args.tabwidth := by
  unfold blanks
  cases hpre : winfo.beforeTab with
  | none => simp only [Option.getD_none]; omega
  | some pre =>
    simp only [Option.getD_some, Nat.add_mul, Nat.one_mul]
    have := Nat.div_mul_le_self (pre + posn) args.tabwidth
    omega

theorem computeWidth_eq {L : Nat} {winfo : WordInfo} (h : Bounded args L winfo) {posn : Nat} (hposn : posn ≤ L)
    (fresh : Bool) : computeWidth args winfo posn fresh = some (if fresh then 0 else blanks args winfo posn) := by
  have hsum := h.sum
  unfold computeWidth blanks
  cases fresh with
  | true => rfl
  | false =>
    cases hpre : winfo.beforeTab with
    | none => rfl
    | some pre =>
      rw [hpre, Option.getD_some] at hsum
      have hle := Nat.div_mul_le_self (pre + posn) args.tabwidth
      have hdiv := Nat.div_le_self (pre + posn) args.tabwidth
      have hmod := Nat.div_add_mod' (pre + posn) args.tabwidth
      have hlt := Nat.mod_lt (pre + posn) args.tabwidth_pos
      have hstop : ((pre + posn) / args.tabwidth + 1) * args.tabwidth =
          (pre + posn) / args.tabwidth * args.tabwidth + args.tabwidth := by rw [Nat.add_mul, Nat.one_mul]
      simp only [Bool.false_eq_true, if_false]
      rw [usize_eq (by omega)]
      simp only [Option.bind_eq_bind, Option.bind_some]
      rw [usize_eq (by omega), Option.bind_some, usize_eq (by omega), Option.bind_some, usize_eq (by omega),
        Option.bind_some, sub, if_pos (by omega)]

/-! ## The greedy breaker -/

theorem breakSimple_spec {L : Nat} {words : List WordInfo} (h : ∀ w ∈ words, Bounded args L w) :
    ∀ (l : Nat) (prevPunct : Bool), l ≤ L → ∃ pieces, breakSimple args l prevPunct words = some pieces ∧
      pieces.filterMap Piece.winfo = words ∧ Within args (some l) pieces := by
  induction words with
  | nil => exact fun _ _ _ => ⟨[], rfl, rfl, trivial⟩
  | cons w words ih =>
    intro l prevPunct hl
    rw [List.forall_mem_cons] at h
    have hsum := h.1.sum
    have hblanks := blanks_le args w l
    have hslen := computeSlen_le args.uniform w.newLine w.sentenceStart prevPunct
    have hindent := h.1.indent
    rw [breakSimple, computeWidth_eq h.1 hl]
    simp only [Bool.false_eq_true, if_false, Option.bind_eq_bind, Option.bind_some]
    rw [usize_eq (by omega), Option.bind_some, usize_eq (by omega), Option.bind_some, usize_eq (by omega),
      Option.bind_some]
    split
    · obtain ⟨pieces, hpieces, hwords, hwithin⟩ :=
        ih h.2 (args.indentLen + w.wordNchars) w.endsPunct h.1.indent
      rw [usize_eq (by omega), Option.bind_some, hpieces, Option.bind_some]
      refine ⟨.newline :: .word 0 true w :: pieces, rfl, ?_, ?_⟩
      · simp only [List.filterMap_cons, Piece.winfo, hwords]
      · simpa [Within] using hwithin
    · rename_i hfits
      have hfits := Nat.le_of_not_lt hfits
      obtain ⟨pieces, hpieces, hwords, hwithin⟩ := ih h.2 _ w.endsPunct (Nat.le_trans hfits h.1.width)
      rw [hpieces, Option.bind_some]
      refine ⟨.word _ false w :: pieces, rfl, ?_, ⟨hfits, hwithin⟩⟩
      simp only [List.filterMap_cons, Piece.winfo, hwords]

/-! ## The second pass -/

theorem winfo_sliceIfFresh (fresh prevPunct : Bool) (winfo : WordInfo) :
    (sliceIfFresh args fresh prevPunct winfo).winfo = some winfo := by
  unfold sliceIfFresh
  split <;> rfl

theorem winfo_fresh (fresh : Bool) : (if fresh then [Piece.newline] else []).filterMap Piece.winfo = [] := by
  cases fresh <;> rfl

/-- The words up to a breakpoint are written, and the others are left. -/
theorem emitUntil_words (nextBreak : Nat) (breakBefore : Bool) :
    ∀ (iter : List (Nat × WordInfo)) (prevPunct fresh : Bool),
    (emitUntil args nextBreak breakBefore prevPunct fresh iter).1.filterMap Piece.winfo ++
      (emitUntil args nextBreak breakBefore prevPunct fresh iter).2.1.map Prod.snd = iter.map Prod.snd
  | [], _, _ => rfl
  | (index, winfo) :: iter, prevPunct, fresh => by
    rw [emitUntil]
    split
    · split
      · rfl
      · simp [winfo_sliceIfFresh]
    · simp only [List.filterMap_cons, winfo_sliceIfFresh, List.map_cons, List.cons_append]
      rw [emitUntil_words nextBreak breakBefore iter]

theorem emitRest_words : ∀ (iter : List (Nat × WordInfo)) (prevPunct fresh : Bool),
    (emitRest args prevPunct fresh iter).filterMap Piece.winfo = iter.map Prod.snd
  | [], _, _ => rfl
  | (index, winfo) :: iter, prevPunct, fresh => by
    rw [emitRest, List.filterMap_append, winfo_fresh, List.nil_append, List.filterMap_cons, winfo_sliceIfFresh]
    simp only [List.map_cons, emitRest_words iter]

/-- Every word is written once and in order, whatever the breakpoints are. -/
theorem emit_words : ∀ (breakpoints : List (Nat × Bool)) (iter : List (Nat × WordInfo)) (prevPunct fresh : Bool),
    (emit args breakpoints prevPunct fresh iter).filterMap Piece.winfo = iter.map Prod.snd
  | [], iter, prevPunct, fresh => emitRest_words iter prevPunct fresh
  | (nextBreak, breakBefore) :: breakpoints, iter, prevPunct, fresh => by
    rw [emit, List.filterMap_append, List.filterMap_append, winfo_fresh, List.nil_append, emit_words breakpoints]
    exact emitUntil_words nextBreak breakBefore iter prevPunct fresh

/-! ## The breaks

A break points to an earlier one, of an earlier word; what is changed in place is not among this. -/

/-- The pointer of a break and its word. -/
def LineBreak.link (lb : LineBreak Ratio) : Nat × Option Nat := (lb.prev, lb.linebreak)

/-- Breaks at words before the `j`-th one, each of which points to an earlier break, of an earlier word. -/
def Linked (j : Nat) (links : List (Nat × Option Nat)) : Prop :=
  ∀ i p k : Nat, links[i]? = some (p, some k) → k < j ∧ p < i ∧ ∀ q k' : Nat, links[p]? = some (q, some k') → k' < k

theorem linked_append {j : Nat} {links new : List (Nat × Option Nat)} (h : Linked j links)
    (hnew : ∀ l ∈ new, l.1 < links.length ∧ l.2 = some j) : Linked (j + 1) (links ++ new) := by
  intro i p k hi
  by_cases hlt : i < links.length
  · rw [List.getElem?_append_left hlt] at hi
    obtain ⟨hk, hp, hprev⟩ := h i p k hi
    refine ⟨by omega, hp, fun q k' hq => hprev q k' ?_⟩
    rwa [List.getElem?_append_left (by omega)] at hq
  · rw [List.getElem?_append_right (by omega)] at hi
    obtain ⟨hp, hk⟩ := hnew _ (List.mem_of_getElem? hi)
    obtain rfl := Option.some.inj hk
    refine ⟨Nat.lt_succ_self _, by simp only at hp; omega, fun q k' hq => ?_⟩
    rw [List.getElem?_append_left hp] at hq
    exact (h p q k' hq).1

/-- The breaks before the `j`-th word, and the active ones. -/
structure Breaks (L j : Nat) (linebreaks : List (LineBreak Ratio)) (active : List Nat) : Prop where
  nonempty : active ≠ []
  active : ∀ a ∈ active, a < linebreaks.length
  length : ∀ lb ∈ linebreaks, lb.length ≤ L
  linked : Linked j (linebreaks.map LineBreak.link)

section Optimal

variable {L : Nat}

theorem isize_sub {a b : Nat} (ha : a < 9223372036854775808) (hb : b < 9223372036854775808) :
    isize (asIsize a - asIsize b) = some ((a : Int) - b) := by
  rw [asIsize, if_pos ha, asIsize, if_pos hb, isize, if_pos (by omega)]

theorem computeDemerits_some (deltaLen : Int) (stretch wlen : Nat) (prevRat : Ratio) :
    ∃ r, computeDemerits rating deltaLen stretch wlen prevRat = some r := by
  unfold computeDemerits
  by_cases hle : stretch ≤ wlen
  · simp only [if_pos hle, Option.bind_eq_bind, Option.bind_some, Option.pure_def]
    exact ⟨_, rfl⟩
  · simp only [if_neg hle, sub, if_pos (show wlen ≤ stretch by omega), if_pos (show 1 ≤ stretch by omega),
      Option.bind_eq_bind, Option.bind_some, Option.map_some, Option.pure_def]
    exact ⟨_, rfl⟩

/-- A break at the current word that points to one of the first `n`. -/
structure IsNew (L n : Nat) (c : Current) (lb : LineBreak Ratio) : Prop where
  prev : lb.prev < n
  linebreak : lb.linebreak = some c.index
  length : lb.length ≤ L

theorem better_all {n : Nat} {c : Current} {best : Option (LineBreak Ratio)} {new : LineBreak Ratio}
    (hbest : ∀ lb ∈ best, IsNew L n c lb) (hnew : IsNew L n c new) : ∀ lb ∈ better best new, IsNew L n c lb := by
  unfold better
  cases best with
  | none => simpa using hnew
  | some old =>
    simp only
    split
    · simpa using hnew
    · exact hbest

variable {c : Current} (hw : Bounded args L c.w) (hslen : c.slen ≤ 2)

include hw

theorem considerBefore_some {n i : Nat} (hi : i < n) {active : LineBreak Ratio} (hactive : active.length ≤ L)
    {best : Option (LineBreak Ratio)} (hbest : ∀ lb ∈ best, IsNew L n c lb) :
    ∃ best', considerBefore rating args c i active best = some best' ∧ ∀ lb ∈ best', IsNew L n c lb := by
  have hsum := hw.sum
  have hwidth := hw.width
  have hindent := hw.indent
  have hgoal := args.goal_le
  unfold considerBefore
  split
  · obtain ⟨⟨demerits, ratio⟩, hr⟩ := computeDemerits_some rating ((args.goal : Int) - active.length)
      c.stretch c.w.wordNchars active.prevRat
    rw [isize_sub (by omega) (by omega)]
    simp only [Option.bind_eq_bind, Option.bind_some, hr]
    rw [usize_eq (by omega), Option.bind_some]
    exact ⟨_, rfl, better_all hbest ⟨hi, rfl, hindent⟩⟩
  · exact ⟨best, rfl, hbest⟩

theorem considerAfter_some {n i : Nat} (hi : i < n) (active : LineBreak Ratio) {tlen : Nat} (htlen : tlen ≤ args.width)
    {best : Option (LineBreak Ratio)} (hbest : ∀ lb ∈ best, IsNew L n c lb) :
    ∃ best', considerAfter rating args c i active tlen best = some best' ∧ ∀ lb ∈ best', IsNew L n c lb := by
  have hsum := hw.sum
  have hwidth := hw.width
  have hindent := hw.indent
  have hgoal := args.goal_le
  have hnew : ∀ demerits ratio, IsNew L n c
      (⟨i, some c.index, false, demerits, ratio, args.indentLen, true⟩ : LineBreak Ratio) :=
    fun _ _ => ⟨hi, rfl, by simp only; omega⟩
  unfold considerAfter
  split
  · cases c.isLastWord with
    | true => exact ⟨_, rfl, better_all hbest (hnew _ _)⟩
    | false =>
      obtain ⟨⟨demerits, ratio⟩, hr⟩ := computeDemerits_some rating ((args.goal : Int) - tlen)
        c.stretch c.w.wordNchars active.prevRat
      rw [isize_sub (by omega) (by omega)]
      simp only [Bool.false_eq_true, if_false, Option.bind_eq_bind, Option.bind_some, hr]
      exact ⟨_, rfl, better_all hbest (hnew _ _)⟩
  · exact ⟨best, rfl, hbest⟩

include hslen

theorem extended_some {active : LineBreak Ratio} (hactive : active.length ≤ L) :
    ∃ tlen, extended args c active = some tlen := by
  have hsum := hw.sum
  have hblanks := blanks_le args c.w active.length
  unfold extended
  rw [computeWidth_eq hw hactive]
  simp only [Option.bind_eq_bind, Option.bind_some]
  have hle : (if active.fresh then 0 else blanks args c.w active.length) ≤
      c.w.beforeTab.getD 0 + c.w.afterTab + args.tabwidth := by
    split
    · omega
    · exact hblanks
  rw [usize_eq (by omega), Option.bind_some, usize_eq (by omega), Option.bind_some, usize_eq (by omega)]
  exact ⟨_, rfl⟩

theorem restartActiveBreaks_some {n i : Nat} (hi : i < n) {active : LineBreak Ratio} (hactive : active.length ≤ L)
    (hmin : c.minlength < 9223372036854775808) :
    ∃ lb, restartActiveBreaks rating args active i c = some lb ∧ IsNew L n c lb := by
  have hsum := hw.sum
  have hwidth := hw.width
  have hindent := hw.indent
  have hblanks := blanks_le args c.w active.length
  have hside : ∃ side, restartSide args active c = some side ∧ side.2 ≤ L := by
    unfold restartSide
    cases hfresh : active.fresh with
    | true => exact ⟨_, rfl, by simp only; omega⟩
    | false =>
      simp only [Bool.false_eq_true, if_false]
      rw [computeWidth_eq hw hactive]
      simp only [Bool.false_eq_true, if_false, Option.bind_eq_bind, Option.bind_some]
      rw [usize_eq (by omega), Option.bind_some, isize_sub (by omega) (by omega), Option.bind_some,
        usize_eq (by omega), Option.bind_some, usize_eq (by omega), Option.bind_some,
        isize_sub (by omega) (by omega), Option.bind_some]
      split
      · rw [usize_eq (by omega), Option.map_some]
        exact ⟨_, rfl, hindent⟩
      · exact ⟨_, rfl, by simp only; omega⟩
  obtain ⟨side, hside, hle⟩ := hside
  unfold restartActiveBreaks
  rw [hside]
  exact ⟨_, rfl, ⟨hi, rfl, hle⟩⟩

omit hw hslen in
theorem map_link_set {linebreaks : List (LineBreak Ratio)} {i : Nat} {active new : LineBreak Ratio}
    (hi : linebreaks[i]? = some active) (hlink : new.link = active.link) :
    (linebreaks.set i new).map LineBreak.link = linebreaks.map LineBreak.link := by
  apply List.ext_getElem?
  intro k
  rw [List.getElem?_map, List.getElem?_map, List.getElem?_set]
  by_cases hik : i = k
  · subst hik
    obtain ⟨hlt, -⟩ := List.getElem?_eq_some_iff.1 hi
    rw [if_pos rfl, if_pos hlt, hi, Option.map_some, Option.map_some, hlink]
  · rw [if_neg hik]

/-- What the loop over the active breaks keeps. -/
structure Scanning (L : Nat) (c : Current) (links : List (Nat × Option Nat)) (s : Scan Ratio) : Prop where
  same : s.linebreaks.map LineBreak.link = links
  length : ∀ lb ∈ s.linebreaks, lb.length ≤ L
  active : ∀ a ∈ s.nextActiveBreaks, a < links.length
  ldIdx : s.ldIdx < links.length
  before : ∀ lb ∈ s.bestBreakBefore, IsNew L links.length c lb
  after : ∀ lb ∈ s.bestBreakAfter, IsNew L links.length c lb

/-- **One active break** is extended or dropped. -/
theorem scanActive_some {links : List (Nat × Option Nat)} {s : Scan Ratio} (hs : Scanning L c links s) {i : Nat}
    (hi : i < links.length) : ∃ s', scanActive rating args c s i = some s' ∧ Scanning L c links s' := by
  have hlen : s.linebreaks.length = links.length := by rw [← hs.same, List.length_map]
  obtain ⟨active, hactive⟩ : ∃ lb, s.linebreaks[i]? = some lb := ⟨_, List.getElem?_eq_getElem (hlen ▸ hi)⟩
  have hlength := hs.length active (List.mem_of_getElem? hactive)
  obtain ⟨before, hbefore, hallBefore⟩ := considerBefore_some rating hw hi hlength hs.before
  obtain ⟨tlen, htlen⟩ := extended_some hw hslen hlength
  have hld : ∀ p : Prop, ∀ _ : Decidable p, ∀ d : Int, ∀ d' : Int,
      (if p then (d, i) else (d', s.ldIdx)).2 < links.length := by
    intro p _ d d'
    split
    · exact hi
    · exact hs.ldIdx
  unfold scanActive
  simp only [hactive, hbefore, htlen, Option.bind_eq_bind, Option.bind_some]
  by_cases hfits : tlen ≤ args.width
  · obtain ⟨after, hafter, hallAfter⟩ := considerAfter_some rating hw hi active hfits hs.after
    rw [if_pos hfits, hafter]
    refine ⟨_, rfl, ⟨?_, ?_, ?_, hld _ _ _ _, hallBefore, hallAfter⟩⟩
    · refine (map_link_set hactive ?_).trans hs.same
      rfl
    · intro lb hlb
      rcases List.mem_or_eq_of_mem_set hlb with hlb | rfl
      · exact hs.length lb hlb
      · exact Nat.le_trans hfits hw.width
    · intro a ha
      rcases List.mem_append.1 ha with ha | ha
      · exact hs.active a ha
      · rwa [List.mem_singleton.1 ha]
  · rw [if_neg hfits]
    exact ⟨_, rfl, ⟨hs.same, hs.length, hs.active, hld _ _ _ _, hallBefore, hs.after⟩⟩

theorem scanActives_some {links : List (Nat × Option Nat)} : ∀ {active : List Nat} {s : Scan Ratio},
    (∀ i ∈ active, i < links.length) → Scanning L c links s →
      ∃ s', active.foldlM (scanActive rating args c) s = some s' ∧ Scanning L c links s'
  | [], s, _, hs => ⟨s, rfl, hs⟩
  | i :: active, s, hactive, hs => by
    rw [List.forall_mem_cons] at hactive
    obtain ⟨s₁, hs₁, hscan₁⟩ := scanActive_some rating hw hslen hs hactive.1
    obtain ⟨s₂, hs₂, hscan₂⟩ := scanActives_some hactive.2 hscan₁
    refine ⟨s₂, ?_, hscan₂⟩
    rw [List.foldlM_cons, hs₁]
    exact hs₂

/-- **One word**: its breaks are added, and some break is active. -/
theorem scanWord_some (hmin : c.minlength < 9223372036854775808) {linebreaks : List (LineBreak Ratio)}
    {active : List Nat}
    (h : Breaks L c.index linebreaks active) :
    ∃ r, scanWord rating args c linebreaks active = some r ∧ Breaks L (c.index + 1) r.1 r.2 := by
  have hlen : (linebreaks.map LineBreak.link).length = linebreaks.length := List.length_map _
  have hpos : 0 < linebreaks.length := by
    obtain ⟨a, ha⟩ := List.exists_mem_of_ne_nil active h.nonempty
    exact Nat.lt_of_le_of_lt (Nat.zero_le a) (h.active a ha)
  have hactive : ∀ i ∈ active, i < (linebreaks.map LineBreak.link).length := by
    rw [hlen]
    exact h.active
  have hstart : Scanning L c (linebreaks.map LineBreak.link)
      (⟨linebreaks, [], 9223372036854775807, 0, none, none⟩ : Scan Ratio) :=
    ⟨rfl, h.length, by simp, by rwa [hlen], by simp, by simp⟩
  obtain ⟨s, hs, hscan⟩ := scanActives_some rating hw hslen hactive hstart
  have hsame : s.linebreaks.length = linebreaks.length := by rw [← hlen, ← hscan.same, List.length_map]
  obtain ⟨new, hnew⟩ : ∃ l, l = s.bestBreakBefore.toList ++ s.bestBreakAfter.toList := ⟨_, rfl⟩
  have hallNew : ∀ lb ∈ new, IsNew L linebreaks.length c lb := by
    intro lb hlb
    rw [hnew, List.mem_append, Option.mem_toList, Option.mem_toList] at hlb
    rw [← hlen]
    exact hlb.elim (hscan.before lb) (hscan.after lb)
  -- Breaks at the word may be added behind the others.
  have hadd : ∀ added : List (LineBreak Ratio), (∀ lb ∈ added, IsNew L linebreaks.length c lb) →
      (∀ lb ∈ s.linebreaks ++ added, lb.length ≤ L) ∧
        Linked (c.index + 1) ((s.linebreaks ++ added).map LineBreak.link) := by
    intro added hadded
    refine ⟨fun lb hlb => ?_, ?_⟩
    · rcases List.mem_append.1 hlb with hlb | hlb
      · exact hscan.length lb hlb
      · exact (hadded lb hlb).length
    · rw [List.map_append, hscan.same]
      refine linked_append h.linked fun l hl => ?_
      obtain ⟨lb, hlb, rfl⟩ := List.mem_map.1 hl
      exact ⟨hlen ▸ (hadded lb hlb).prev, (hadded lb hlb).linebreak⟩
  unfold scanWord
  simp only [hs, Option.bind_eq_bind, Option.bind_some, ← hnew]
  split
  · rename_i hnone
    have hnil : new = [] := by
      rw [List.append_eq_nil_iff, List.map_eq_nil_iff, List.range_eq_nil] at hnone
      exact List.eq_nil_of_length_eq_zero hnone.2
    subst hnil
    rw [List.append_nil]
    obtain ⟨old, hold⟩ : ∃ lb, s.linebreaks[s.ldIdx]? = some lb :=
      ⟨_, List.getElem?_eq_getElem (by rw [hsame, ← hlen]; exact hscan.ldIdx)⟩
    obtain ⟨lb, hlb, hnewlb⟩ := restartActiveBreaks_some rating hw hslen (hlen ▸ hscan.ldIdx)
      (hscan.length old (List.mem_of_getElem? hold)) hmin
    simp only [hold, Option.bind_some, hlb, Option.pure_def]
    obtain ⟨hlength, hlinked⟩ := hadd [lb] (by simpa using hnewlb)
    exact ⟨_, rfl, ⟨by simp, by simp, hlength, hlinked⟩⟩
  · rename_i hsome
    obtain ⟨hlength, hlinked⟩ := hadd new hallNew
    refine ⟨_, rfl, ⟨hsome, fun a ha => ?_, hlength, hlinked⟩⟩
    rw [List.length_append]
    rcases List.mem_append.1 ha with ha | ha
    · have := hscan.active a ha
      omega
    · obtain ⟨k, hk, rfl⟩ := List.mem_map.1 ha
      have := List.mem_range.1 hk
      omega

omit hw hslen

/-- **All words.** -/
theorem scanWords_some (stretch : Nat) {minlength : Nat} (hmin : minlength < 9223372036854775808)
    {words : List WordInfo}
    (hwords : ∀ w ∈ words, Bounded args L w) : ∀ {index : Nat} (isSentenceStart : Bool)
      {linebreaks : List (LineBreak Ratio)} {active : List Nat}, Breaks L index linebreaks active →
        ∃ r, scanWords rating args stretch minlength index isSentenceStart words linebreaks active = some r ∧
          Breaks L (index + words.length) r.1 r.2 := by
  induction words with
  | nil => exact fun _ _ _ h => ⟨_, rfl, h⟩
  | cons w words ih =>
    intro index isSentenceStart linebreaks active h
    rw [List.forall_mem_cons] at hwords
    rw [scanWords]
    obtain ⟨c, hc, hindex, hcw, hslen, hcmin⟩ : ∃ c : Current, c =
        ⟨index, w, words.head?.isNone, isSentenceEnd w words, isNextWordSentenceFinal words,
          computeSlen args.uniform w.newLine isSentenceStart false, stretch, minlength⟩ ∧
        c.index = index ∧ c.w = w ∧ c.slen ≤ 2 ∧ c.minlength < 9223372036854775808 :=
      ⟨_, rfl, rfl, rfl, computeSlen_le _ _ _ _, hmin⟩
    obtain ⟨r, hr, hbreaks⟩ := scanWord_some rating (hcw ▸ hwords.1) hslen hcmin (hindex ▸ h)
    simp only [← hc, hr, Option.bind_eq_bind, Option.bind_some]
    obtain ⟨r', hr', hbreaks'⟩ := ih hwords.2 (isSentenceEnd w words) (hindex ▸ hbreaks)
    refine ⟨r', hr', ?_⟩
    rwa [List.length_cons, Nat.add_comm words.length, ← Nat.add_assoc]

/-! ## The best path -/

theorem minByKey_some (paths : List (LineBreak Ratio)) {active : List Nat} (h : active ≠ []) :
    ∃ a ∈ active, minByKey paths active = some a := by
  obtain ⟨a, active, rfl⟩ := List.exists_cons_of_ne_nil h
  have hfold : ∀ (l : List Nat) (b : Nat), ∃ m ∈ b :: l, l.foldl (fun best a =>
      match best with
      | none => some a
      | some b =>
        if (paths[a]?.map LineBreak.demerits).getD 0 < (paths[b]?.map LineBreak.demerits).getD 0 then some a
        else some b) (some b) = some m := by
    intro l
    induction l with
    | nil => exact fun b => ⟨b, by simp, rfl⟩
    | cons x l ih =>
      intro b
      rw [List.foldl_cons]
      simp only
      split
      · obtain ⟨m, hm, hfold⟩ := ih x
        exact ⟨m, List.mem_cons_of_mem b hm, hfold⟩
      · obtain ⟨m, hm, hfold⟩ := ih b
        refine ⟨m, ?_, hfold⟩
        rcases List.mem_cons.1 hm with rfl | hm
        · exact List.mem_cons_self
        · exact List.mem_cons_of_mem _ (List.mem_cons_of_mem _ hm)
  exact hfold active a

/-- **The pointers back** come to an end, at earlier and earlier words. -/
theorem chase_some {j : Nat} {paths : List (LineBreak Ratio)} (h : Linked j (paths.map LineBreak.link)) :
    ∀ (turns : Nat) {best : Nat} {lb : LineBreak Ratio}, best < turns → paths[best]? = some lb →
      ∃ l, chase paths turns best = some l ∧ l.Pairwise (fun a b => b.1 < a.1) ∧ (∀ x ∈ l, x.1 < j) ∧
        ∀ x ∈ l, ∃ k, lb.linebreak = some k ∧ x.1 ≤ k
  | 0, _, _, hlt, _ => absurd hlt (Nat.not_lt_zero _)
  | turns + 1, best, lb, hlt, hbest => by
    rw [chase, hbest, Option.bind_some]
    cases hword : lb.linebreak with
    | none => exact ⟨[], rfl, .nil, by simp, by simp⟩
    | some word =>
      have hlink : ∀ {i : Nat} {lb' : LineBreak Ratio}, paths[i]? = some lb' →
          (paths.map LineBreak.link)[i]? = some (lb'.prev, lb'.linebreak) := by
        intro i lb' hi
        rw [List.getElem?_map, hi]
        rfl
      obtain ⟨hlt_j, hprev, hearlier⟩ := h best lb.prev word (hword ▸ hlink hbest)
      obtain ⟨hbestlt, -⟩ := List.getElem?_eq_some_iff.1 hbest
      obtain ⟨next, hnext⟩ : ∃ lb', paths[lb.prev]? = some lb' :=
        ⟨_, List.getElem?_eq_getElem (Nat.lt_trans hprev hbestlt)⟩
      obtain ⟨l, hl, hsorted, hbelow, hhead⟩ := chase_some h turns (by omega) hnext
      have hless : ∀ x ∈ l, x.1 < word := by
        intro x hx
        obtain ⟨k, hk, hle⟩ := hhead x hx
        exact Nat.lt_of_le_of_lt hle (hearlier _ k (hk ▸ hlink hnext))
      simp only [hl, Option.map_some]
      refine ⟨_, rfl, List.pairwise_cons.2 ⟨hless, hsorted⟩, ?_, ?_⟩
      · rw [List.forall_mem_cons]
        exact ⟨hlt_j, hbelow⟩
      · rw [List.forall_mem_cons]
        exact ⟨⟨word, rfl, Nat.le_refl word⟩, fun x hx => ⟨word, rfl, Nat.le_of_lt (hless x hx)⟩⟩

/-- **The breakpoints** are found, and name words one behind the other. -/
theorem findKpBreakpoints_some {words : List WordInfo} (hinit : args.initLen ≤ L)
    (hwidth : args.width + 1 < 9223372036854775808) (hwords : ∀ w ∈ words, Bounded args L w) :
    ∃ breakpoints, findKpBreakpoints rating args words = some breakpoints ∧
      breakpoints.reverse.Pairwise (fun a b => a.1 < b.1) ∧ ∀ b ∈ breakpoints, b.1 < words.length := by
  have hgoal := args.goal_le
  obtain ⟨shortest, hshortest, hmin⟩ : ∃ n, minlength args (args.width - args.goal) = some n ∧
      n < 9223372036854775808 := by
    unfold minlength
    split
    · exact ⟨1, rfl, by omega⟩
    · rw [sub, if_pos (by omega)]
      exact ⟨_, rfl, by omega⟩
  have hstart : Breaks L 0 [(⟨0, none, false, 0, rating.nan, args.initLen, false⟩ : LineBreak Ratio)] [0] := by
    refine ⟨by simp, by simp, by simpa using hinit, ?_⟩
    intro i p k hi
    cases i with
    | zero => cases hi
    | succ i => cases hi
  obtain ⟨⟨linebreaks, active⟩, hscan, hbreaks⟩ :=
    scanWords_some rating (args.width - args.goal) hmin hwords false hstart
  rw [Nat.zero_add] at hbreaks
  obtain ⟨best, hbest, hmin⟩ := minByKey_some linebreaks hbreaks.nonempty
  have hlt := hbreaks.active best hbest
  obtain ⟨breakpoints, hchase, hsorted, hbelow, -⟩ := chase_some hbreaks.linked _ hlt (List.getElem?_eq_getElem hlt)
  refine ⟨breakpoints, ?_, List.pairwise_reverse.2 hsorted, hbelow⟩
  unfold findKpBreakpoints
  rw [sub, if_pos hgoal]
  simp only [Option.bind_eq_bind, Option.bind_some, hshortest, hscan, buildBestPath, hmin, hchase]

end Optimal

/-! ## The two breakers -/

/-- The longest line that one word alone may make, or else the width. -/
def longest (args : BreakArgs) (words : List WordInfo) : Nat :=
  words.foldl (fun m w => max m (args.indentLen + w.wordNchars)) (max args.width args.initLen)

/-- No sum of a longest line, a word, its blanks and a tab is out of range. -/
structure Fits (args : BreakArgs) (words : List WordInfo) : Prop where
  width : args.width + 1 < 9223372036854775808
  word : ∀ w ∈ words, longest args words + w.wordNchars + w.beforeTab.getD 0 + w.afterTab + args.tabwidth + 2 <
    9223372036854775808

theorem longest_ge (args : BreakArgs) (words : List WordInfo) :
    args.width ≤ longest args words ∧ args.initLen ≤ longest args words ∧
      ∀ w ∈ words, args.indentLen + w.wordNchars ≤ longest args words := by
  have hfold : ∀ (l : List WordInfo) (m : Nat),
      m ≤ l.foldl (fun m w => max m (args.indentLen + w.wordNchars)) m ∧
        ∀ w ∈ l, args.indentLen + w.wordNchars ≤ l.foldl (fun m w => max m (args.indentLen + w.wordNchars)) m := by
    intro l
    induction l with
    | nil => exact fun m => ⟨Nat.le_refl m, by simp⟩
    | cons w l ih =>
      intro m
      obtain ⟨hm, hl⟩ := ih (max m (args.indentLen + w.wordNchars))
      rw [List.foldl_cons, List.forall_mem_cons]
      exact ⟨Nat.le_trans (Nat.le_max_left _ _) hm, Nat.le_trans (Nat.le_max_right _ _) hm, hl⟩
  obtain ⟨hstart, hwords⟩ := hfold words (max args.width args.initLen)
  exact ⟨Nat.le_trans (Nat.le_max_left _ _) hstart, Nat.le_trans (Nat.le_max_right _ _) hstart, hwords⟩

theorem Fits.bounded {words : List WordInfo} (h : Fits args words) :
    ∀ w ∈ words, Bounded args (longest args words) w := by
  obtain ⟨hwidth, -, hwords⟩ := longest_ge args words
  exact fun w hw => ⟨hwidth, hwords w hw, h.word w hw⟩

/-- What a paragraph is to come to, whatever the ratings are: breakpoints that name its words one behind the other, and
two texts of all its words, in order; no line of the greedy one with two words or more is too wide. -/
def Meets (args : BreakArgs) (words : List WordInfo) : Prop :=
  ∀ (Ratio : Type) (rating : Rating Ratio), ∃ breakpoints optimal simple,
    findKpBreakpoints rating args words = some breakpoints ∧
    breakpoints.reverse.Pairwise (fun a b => a.1 < b.1) ∧ (∀ b ∈ breakpoints, b.1 < words.length) ∧
    breakKnuthPlass rating args words = some optimal ∧ optimal.filterMap Piece.winfo = words ∧
    breakSimple args args.initLen false words = some simple ∧ simple.filterMap Piece.winfo = words ∧
    Within args (some args.initLen) simple

end Peiosutils.Fmt
