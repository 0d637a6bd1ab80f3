import Mathlib.Logic.Relation
import Peiosutils.Csplit.Turns

/-!
# Runs of csplit

A run applies its patterns one by one (`Step`). It ends, without a panic, exactly if no application hangs, and a run that
succeeds without suppressing lines has written and skipped its input exactly if none changes the order of lines
(`csplit_iff`).
-/

set_option autoImplicit false

namespace Peiosutils.Csplit

open While (Stop Settles Hangs loopWith settles_pure settles_loopWith_done settles_loopWith_next hangs_loopWith_next)
open Relation (ReflTransGen)

variable {opts : CsplitOptions} {isMatch : Text → Text → Bool}

/-! ## Steps -/

/-- The patterns that are left, and the loop over the applications of the first of them. -/
abbrev Config := List Pattern × Repeat

/-- Before the first application of the first pattern. -/
def begin : List Pattern → SplitWriter → InputSplitter → Config
  | [], w, input => ([], ⟨0, 0, w, input⟩)
  | p :: ps, w, input => (p :: ps, Repeat.start p w input)

/-- One turn of the loop over the applications goes on, or leaves for the next pattern. -/
inductive Step (opts : CsplitOptions) (isMatch : Text → Text → Bool) : Config → Config → Prop
  | again {p : Pattern} {ps : List Pattern} {r r' : Repeat} (h : Settles (applyTurn opts isMatch p · r) (.inl r')) :
    Step opts isMatch (p :: ps, r) (p :: ps, r')
  | next {p : Pattern} {ps : List Pattern} {r : Repeat} {w : SplitWriter} {input : InputSplitter}
    (h : Settles (applyTurn opts isMatch p · r) (.inr (.next w input))) : Step opts isMatch (p :: ps, r) (begin ps w input)

/-- What the run on an input comes to. -/
def Visited (opts : CsplitOptions) (isMatch : Text → Text → Bool) (patterns : List Pattern) (input : Text) :
    Config → Prop :=
  ReflTransGen (Step opts isMatch) (begin patterns .new (.new (enumerated input)))

/-! ## The applications of one pattern -/

/-- Turns that go on. -/
def Again (opts : CsplitOptions) (isMatch : Text → Text → Bool) (p : Pattern) (r r' : Repeat) : Prop :=
  Settles (applyTurn opts isMatch p · r) (.inl r')

/-- How far the loop is from its end, at most; the lines have numbers below `lines`. -/
def togo (lines : Nat) (p : Pattern) (r : Repeat) : Nat :=
  match p.execute, p with
  | .times n, _ => n - r.cur
  | .always, .upToLine _ _ => lines + 1 - r.upToLine
  | .always, _ => r.input.iter.length

/-- The loop over the applications is where it can be. -/
structure Within (lines : Nat) (p : Pattern) (r : Repeat) : Prop where
  line : ∀ n ex, p = .upToLine n ex → 0 < n
  cur : ∀ n, p.execute = .times n → r.cur ≤ n
  mem : ∀ x ∈ r.input.left, x.1 < lines

theorem Within.turned {lines : Nat} {p : Pattern} {r r' : Repeat} {t : Text} (h : Within lines p r)
    (happlied : p.execute.max ≠ some r.cur) (hturned : Turned opts isMatch p r t (.inl r')) :
    Within lines p r' ∧ togo lines p r' < togo lines p r := by
  have hcur := hturned.cur r' rfl
  have hne : ∀ n, p.execute = .times n → r.cur < n := fun n hn => by
    have hle := h.cur n hn
    have hneq : n ≠ r.cur := fun heq => happlied (by rw [hn, heq]; rfl)
    omega
  refine ⟨⟨h.line, fun n hn => ?_, fun x hx => h.mem x (hturned.moves.mem x hx)⟩, ?_⟩
  · rw [hcur]
    exact hne n hn
  · cases hex : p.execute with
    | times n =>
      have := hne n hex
      simp only [togo, hex]
      omega
    | always =>
      cases p with
      | upToLine n ex =>
        obtain ⟨hline, y, hy, hle⟩ := hturned.line r' n ex rfl rfl
        have hpos := h.line n ex rfl
        have hlt := h.mem y hy
        simp only [togo, hex]
        omega
      | upToMatch regex offset ex =>
        simp only [togo, hex]
        exact hturned.always r' rfl hex nofun
      | skipToMatch regex offset ex =>
        simp only [togo, hex]
        exact hturned.always r' rfl hex nofun

theorem again_unique {p : Pattern} {r r' r'' : Repeat} (h : Again opts isMatch p r r') (h' : Again opts isMatch p r r'') :
    r' = r'' := Sum.inl.inj (Settles.unique h h')

/-- What comes behind the first turn. -/
theorem again_cases {p : Pattern} {r r' r'' : Repeat} (h : Again opts isMatch p r r')
    (h' : ReflTransGen (Again opts isMatch p) r r'') : r'' = r ∨ ReflTransGen (Again opts isMatch p) r' r'' := by
  rcases ReflTransGen.cases_head h' with rfl | ⟨mid, hmid, hrest⟩
  · exact Or.inl rfl
  · exact Or.inr (again_unique h hmid ▸ hrest)

/-- **The applications of one pattern**, of which none hangs, come to an end. -/
theorem settles_repeat {lines : Nat} {p : Pattern} {r : Repeat} {t : Text} (hready : r.writer.Ready t)
    (hwithin : Within lines p r) (hhang : ∀ r', ReflTransGen (Again opts isMatch p) r r' → ¬ HangsAt isMatch p r') :
    ∃ flow, Settles (loopWith (applyTurn opts isMatch p) · r) flow ∧
      Moves opts (∀ r', ReflTransGen (Again opts isMatch p) r r' → ¬ RotatesAt isMatch p r') t r.input
        (writerOf (.inr flow)).Ready (inputOf (.inr flow)) ∧
      (∀ r', ReflTransGen (Again opts isMatch p) r r' → r'.writer.text <+: (writerOf (.inr flow)).text) ∧
      ∃ r', ReflTransGen (Again opts isMatch p) r r' ∧ Settles (applyTurn opts isMatch p · r') (.inr flow) := by
  induction hn : togo lines p r using Nat.strong_induction_on generalizing r t with
  | _ n ih =>
    have hself : ∀ flow : Flow, (∀ r', ¬ Again opts isMatch p r r') → (∃ s, (writerOf (.inr flow)).Ready (t ++ s)) →
        ∀ r', ReflTransGen (Again opts isMatch p) r r' → r'.writer.text <+: (writerOf (.inr flow)).text := by
      intro flow hnone hs r' hr'
      obtain ⟨s, hs⟩ := hs
      rcases ReflTransGen.cases_head hr' with rfl | ⟨mid, hmid, -⟩
      · rw [hready.text, hs.text]
        exact List.prefix_append t s
      · exact absurd hmid (hnone mid)
    by_cases happlied : p.execute.max = some r.cur
    · have hturn : Settles (applyTurn opts isMatch p · r) (.inr (.next r.writer r.input)) := by
        simp only [applyTurn, happlied, if_true]
        exact settles_pure rfl
      refine ⟨_, settles_loopWith_done hturn, Moves.of_left_eq hready rfl, ?_, r, .refl, hturn⟩
      refine hself _ (fun r' hr' => ?_) ⟨[], by simpa [writerOf] using hready⟩
      cases Settles.unique hr' hturn
    · obtain ⟨x, hturn, hturned⟩ := @applyTurn_turned opts isMatch p r t hready happlied (hhang r .refl)
      cases x with
      | inr flow =>
        obtain ⟨hmem, written, hready', hlines⟩ := hturned.moves
        refine ⟨flow, settles_loopWith_done hturn, ?_, ?_, r, .refl, hturn⟩
        · exact hturned.moves.fair_imp fun h => h r .refl
        · refine hself flow (fun r' hr' => ?_) ⟨_, hready'⟩
          cases Settles.unique hr' hturn
      | inl r₁ =>
        obtain ⟨hwithin₁, hlt⟩ := hwithin.turned happlied hturned
        obtain ⟨hmem, written, hready₁, hlines⟩ := hturned.moves
        obtain ⟨flow, hloop, hmoves, htexts, r', hr', hend⟩ := ih _ (hn ▸ hlt) hready₁ hwithin₁
          (fun r' hr' => hhang r' (.head hturn hr')) rfl
        refine ⟨flow, settles_loopWith_next hturn hloop, ?_, fun r' hr' => ?_, r', .head hturn hr', hend⟩
        · refine Moves.trans (P := fun t₁ => t₁ = t ++ written.flatten)
            ⟨hmem, written, rfl, fun hsup h => hlines hsup (h r .refl)⟩ ?_
          rintro _ rfl
          exact hmoves.fair_imp fun h r' hr' => h r' (.head hturn hr')
        · rcases again_cases hturn hr' with rfl | hrest
          · obtain ⟨s, hs⟩ := htexts r₁ .refl
            rw [hready.text, ← hs, show r₁.writer.text = _ from hready₁.text, List.append_assoc]
            exact List.prefix_append _ _
          · exact htexts r' hrest

/-! ## All patterns -/

/-- Behind the applications of a pattern. -/
def afterPattern (opts : CsplitOptions) (isMatch : Text → Text → Bool) (ps : List Pattern) (fuel : Nat) :
    Flow → Except Stop Applied
  | .next w input => doCsplit opts isMatch fuel ps w input
  | .return e w input => .ok (e, w, input)

/-- `do_csplit` from the loop over the applications of its first pattern on. -/
def goOn (opts : CsplitOptions) (isMatch : Text → Text → Bool) (fuel : Nat) : Config → Except Stop Applied
  | ([], r) => .ok (none, r.writer, r.input)
  | (p :: ps, r) => loopWith (applyTurn opts isMatch p) fuel r >>= afterPattern opts isMatch ps fuel

theorem doCsplit_eq_goOn (fuel : Nat) (ps : List Pattern) (w : SplitWriter) (input : InputSplitter) :
    doCsplit opts isMatch fuel ps w input = goOn opts isMatch fuel (begin ps w input) := by
  cases ps with
  | nil => rfl
  | cons p ps =>
    rw [doCsplit, begin, goOn]
    congr 1

theorem start_writer (p : Pattern) (w : SplitWriter) (input : InputSplitter) : (Repeat.start p w input).writer = w := by
  cases p <;> rfl

theorem start_input (p : Pattern) (w : SplitWriter) (input : InputSplitter) : (Repeat.start p w input).input = input := by
  cases p <;> rfl

theorem begin_writer (ps : List Pattern) (w : SplitWriter) (input : InputSplitter) : (begin ps w input).2.writer = w := by
  cases ps with
  | nil => rfl
  | cons p ps => exact start_writer p w input

theorem begin_input (ps : List Pattern) (w : SplitWriter) (input : InputSplitter) : (begin ps w input).2.input = input := by
  cases ps with
  | nil => rfl
  | cons p ps => exact start_input p w input

theorem begin_eq (ps : List Pattern) (w : SplitWriter) (input : InputSplitter) :
    begin ps w input = (ps, (begin ps w input).2) := by
  cases ps <;> rfl

theorem again_step {p : Pattern} {ps : List Pattern} {r r' : Repeat} (h : ReflTransGen (Again opts isMatch p) r r') :
    ReflTransGen (Step opts isMatch) (p :: ps, r) (p :: ps, r') := by
  induction h with
  | refl => exact .refl
  | tail _ hstep ih => exact ih.tail (.again hstep)

/-- A run is still at its first pattern, or has left it. -/
theorem step_cases {p : Pattern} {ps : List Pattern} {r : Repeat} {c : Config}
    (h : ReflTransGen (Step opts isMatch) (p :: ps, r) c) :
    (∃ r', ReflTransGen (Again opts isMatch p) r r' ∧ c = (p :: ps, r')) ∨
      ∃ w input, Settles (loopWith (applyTurn opts isMatch p) · r) (.next w input) ∧
        ReflTransGen (Step opts isMatch) (begin ps w input) c := by
  generalize hc : (p :: ps, r) = c₀ at h
  induction h using ReflTransGen.head_induction_on generalizing r with
  | refl => exact Or.inl ⟨r, .refl, hc.symm⟩
  | head hstep hrest ih =>
    subst hc
    cases hstep with
    | again hturn =>
      rcases ih rfl with ⟨r', hr', heq⟩ | ⟨w, input, hloop, hrest'⟩
      · exact Or.inl ⟨r', .head hturn hr', heq⟩
      · exact Or.inr ⟨w, input, settles_loopWith_next hturn hloop, hrest'⟩
    | next hturn => exact Or.inr ⟨_, _, settles_loopWith_done hturn, hrest⟩

theorem step_nil {r : Repeat} {c : Config} (h : ReflTransGen (Step opts isMatch) ([], r) c) : c = ([], r) := by
  rcases ReflTransGen.cases_head h with heq | ⟨mid, hstep, -⟩
  · exact heq.symm
  · cases hstep

/-- A loop that leaves has visited the place where it leaves. -/
theorem loop_step {p : Pattern} {ps : List Pattern} {r : Repeat} {w : SplitWriter} {input : InputSplitter}
    (h : ∃ r', ReflTransGen (Again opts isMatch p) r r' ∧ Settles (applyTurn opts isMatch p · r') (.inr (.next w input))) :
    ReflTransGen (Step opts isMatch) (p :: ps, r) (begin ps w input) := by
  obtain ⟨r', hr', hturn⟩ := h
  exact (again_step hr').tail (.next hturn)

/-- The patterns that are left can be applied, and so can the first of them where the run is. -/
structure Fit (lines : Nat) (c : Config) : Prop where
  first : ∀ p ps, c.1 = p :: ps → Within lines p c.2
  line : ∀ n ex, .upToLine n ex ∈ c.1 → 0 < n
  mem : ∀ x ∈ c.2.input.left, x.1 < lines

theorem fit_begin {lines : Nat} {ps : List Pattern} {w : SplitWriter} {input : InputSplitter}
    (hline : ∀ n ex, .upToLine n ex ∈ ps → 0 < n) (hmem : ∀ x ∈ input.left, x.1 < lines) :
    Fit lines (begin ps w input) := by
  cases ps with
  | nil => exact ⟨nofun, nofun, hmem⟩
  | cons p ps =>
    have hmem' : ∀ x ∈ (Repeat.start p w input).input.left, x.1 < lines := by rwa [start_input]
    refine ⟨?_, hline, hmem'⟩
    rintro _ _ ⟨⟩
    refine ⟨fun n ex hp => hline n ex (hp ▸ List.mem_cons_self), fun n _ => ?_, hmem'⟩
    have hzero : (Repeat.start p w input).cur = 0 := by cases p <;> rfl
    exact hzero ▸ Nat.zero_le n

/-- **A run in which no application hangs** comes to its end, and keeps all lines if none changes their order. -/
theorem settles_goOn {lines : Nat} {c : Config} {t : Text} (hready : c.2.writer.Ready t) (hfit : Fit lines c)
    (hhang : ∀ p ps r, ReflTransGen (Step opts isMatch) c (p :: ps, r) → ¬ HangsAt isMatch p r) :
    ∃ e w input, Settles (goOn opts isMatch · c) (e, w, input) ∧
      Moves opts (∀ p ps r, ReflTransGen (Step opts isMatch) c (p :: ps, r) → ¬ RotatesAt isMatch p r) t c.2.input w.Ready
        input ∧
      ∀ c', ReflTransGen (Step opts isMatch) c c' → c'.2.writer.text <+: w.text := by
  obtain ⟨ps, r⟩ := c
  induction ps generalizing r t with
  | nil =>
    refine ⟨none, r.writer, r.input, settles_pure rfl, Moves.of_left_eq hready rfl, fun c' hc' => ?_⟩
    cases step_nil hc'
    exact List.prefix_rfl
  | cons p ps ih =>
    obtain ⟨flow, hloop, hmoves, htexts, r', hr', hend⟩ := settles_repeat hready (hfit.first p ps rfl)
      fun r' hr' => hhang p ps r' (again_step hr')
    have hfair : (∀ p' ps' r', ReflTransGen (Step opts isMatch) (p :: ps, r) (p' :: ps', r') → ¬ RotatesAt isMatch p' r') →
        ∀ r', ReflTransGen (Again opts isMatch p) r r' → ¬ RotatesAt isMatch p r' :=
      fun h r' hr' => h p ps r' (again_step hr')
    have hmoves' := hmoves.fair_imp hfair
    cases flow with
    | «return» e w input =>
      refine ⟨e, w, input, hloop.bind (settles_pure rfl), hmoves', fun c' hc' => ?_⟩
      rcases step_cases hc' with ⟨r', hr', rfl⟩ | ⟨w', input', hnext, -⟩
      · exact htexts r' hr'
      · cases Settles.unique hloop hnext
    | next w input =>
      obtain ⟨hmem, written, hready', hlines⟩ := hmoves'
      have hstep : ReflTransGen (Step opts isMatch) (p :: ps, r) (begin ps w input) := loop_step ⟨r', hr', hend⟩
      have hfit' : Fit lines (begin ps w input) :=
        fit_begin (fun n ex h => hfit.line n ex (List.mem_cons_of_mem p h)) fun x hx => hfit.mem x (hmem x hx)
      rw [begin_eq] at hfit' hstep
      obtain ⟨e, w', input', hrest, hmoves', htexts'⟩ := ih _ (by dsimp only; rw [begin_writer]; exact hready') hfit'
        fun p' ps' r' hr' => hhang p' ps' r' (hstep.trans hr')
      have hsettles : Settles (afterPattern opts isMatch ps · (.next w input)) (e, w', input') := by
        simp only [afterPattern, doCsplit_eq_goOn]
        rw [begin_eq]
        exact hrest
      refine ⟨e, w', input', hloop.bind hsettles, ?_, fun c' hc' => ?_⟩
      · refine Moves.trans (P := fun t₁ => t₁ = t ++ written.flatten) ⟨hmem, written, rfl, hlines⟩ ?_
        rintro _ rfl
        dsimp only at hmoves'
        rw [begin_input] at hmoves'
        exact hmoves'.fair_imp fun h p' ps' r' hr' => h p' ps' r' (hstep.trans hr')
      · rcases step_cases hc' with ⟨r', hr', rfl⟩ | ⟨w₁, input₁, hnext, hbehind⟩
        · have hfirst := htexts' _ .refl
          dsimp only at hfirst
          rw [begin_writer] at hfirst
          exact (htexts r' hr').trans hfirst
        · cases Settles.unique hloop hnext
          rw [begin_eq] at hbehind
          exact htexts' c' hbehind

/-! ## An application that hangs -/

theorem hangs_repeat {p : Pattern} {r r' : Repeat} (h : ReflTransGen (Again opts isMatch p) r r')
    (hhang : Hangs (loopWith (applyTurn opts isMatch p) · r')) : Hangs (loopWith (applyTurn opts isMatch p) · r) := by
  induction h using ReflTransGen.head_induction_on with
  | refl => exact hhang
  | head hturn _ ih => exact hangs_loopWith_next hturn ih

/-- A run that comes to an application that hangs never ends. -/
theorem hangs_goOn {p : Pattern} {ps ps' : List Pattern} {r r' : Repeat} {t : Text} (hready : r'.writer.Ready t)
    (h : ReflTransGen (Step opts isMatch) (ps, r) (p :: ps', r')) (hhang : HangsAt isMatch p r') :
    Hangs (goOn opts isMatch · (ps, r)) := by
  induction ps generalizing r with
  | nil => cases step_nil h
  | cons q qs ih =>
    rcases step_cases h with ⟨r'', hagain, heq⟩ | ⟨w, input, hloop, hbehind⟩
    · cases heq
      exact (hangs_repeat hagain (hangs_applyTurn hready hhang)).bind
    · rw [begin_eq] at hbehind
      refine hloop.bind_hangs ?_
      simp only [afterPattern, doCsplit_eq_goOn]
      rw [begin_eq]
      exact ih hbehind

end Peiosutils.Csplit
