import Peiosutils.Csplit.Runs

/-!
# What csplit writes, as a whole

A run ends, and without a panic, exactly if no application of a pattern hangs. One that succeeds, without suppressing lines,
has written and skipped its input exactly if no application changes the order of lines (`csplit_iff`).
-/

set_option autoImplicit false

namespace Peiosutils.Csplit

open While (Stop Settles Hangs loopWith settles_pure)
open Relation (ReflTransGen)
open Lines (pieces)

variable {opts : CsplitOptions} {isMatch : Text → Text → Bool}

/-! ## What a run has written so far -/

theorem ready_applyTurn {p : Pattern} {r : Repeat} {t : Text} {x : Repeat ⊕ Flow} (hready : r.writer.Ready t)
    (hturn : Settles (applyTurn opts isMatch p · r) x) : ∃ t', (writerOf x).Ready t' := by
  by_cases happlied : p.execute.max = some r.cur
  · have hnext : Settles (applyTurn opts isMatch p · r) (.inr (.next r.writer r.input)) := by
      simp only [applyTurn, happlied, if_true]
      exact settles_pure rfl
    rw [Settles.unique hturn hnext]
    exact ⟨t, hready⟩
  by_cases hhang : HangsAt isMatch p r
  · obtain ⟨regex, offset, y, rest, hlook, hwhy⟩ := hhang
    by_cases hmatch : isMatch regex (stripped y.2) = true
    · obtain ⟨-, hle⟩ := hwhy.resolve_left (by simp [hmatch])
      obtain ⟨w, size, hsettles, hready'⟩ := @applyTurn_of_rewound opts isMatch _ _ _ _ _ _ _ hready hlook hmatch hle
      rw [Settles.unique hturn hsettles]
      exact ⟨_, hready'⟩
    · obtain ⟨w, -, hloop⟩ := @applyTurn_of_looksBack opts isMatch _ _ _ _ _ _ _ hready hlook
      refine absurd ?_ hturn.not_hangs
      simp only [hloop]
      exact (@hangs_beforeMatch opts (r.input.setSizeOfBuffer offset) p.display (isMatch regex) offset w y rest
        hlook.rewind hlook.buffer (by simpa using hmatch)).bind
  · obtain ⟨x', hsettles, hturned⟩ := @applyTurn_turned opts isMatch p r t hready happlied hhang
    rw [Settles.unique hturn hsettles]
    obtain ⟨-, written, hready', -⟩ := hturned.moves
    exact ⟨_, hready'⟩

theorem visited_ready {patterns : List Pattern} {input : Text} {c : Config} (h : Visited opts isMatch patterns input c) :
    ∃ t, c.2.writer.Ready t := by
  induction h with
  | refl => exact ⟨[], by rw [begin_writer]; exact SplitWriter.ready_new⟩
  | tail _ hstep ih =>
    obtain ⟨t, hready⟩ := ih
    cases hstep with
    | again hturn => exact ready_applyTurn hready hturn
    | next hturn =>
      obtain ⟨t', hready'⟩ := ready_applyTurn hready hturn
      exact ⟨t', by rw [begin_writer]; exact hready'⟩

theorem visited_suffix {patterns : List Pattern} {input : Text} {c : Config} (h : Visited opts isMatch patterns input c) :
    c.1 <:+ patterns := by
  induction h with
  | refl =>
    have hfirst : (begin patterns .new (.new (enumerated input))).1 = patterns := congrArg Prod.fst (begin_eq ..)
    exact ⟨[], hfirst⟩
  | tail _ hstep ih =>
    cases hstep with
    | again _ => exact ih
    | next _ =>
      rw [begin_eq]
      exact (List.suffix_cons _ _).trans ih

/-! ## Lines in another order -/

/-- Lines that are written before one that comes before them are the same as that one. -/
theorem eq_of_prefix {ls : List Text} {x m : Text} (hls : ∀ l ∈ ls, ∃ l₀, 10 ∉ l₀ ∧ l = l₀ ++ [10])
    (hx : ∃ x₀, 10 ∉ x₀ ∧ x = x₀ ++ [10]) (h : ls.flatten <+: x ++ (ls.flatten ++ m)) : ∀ l ∈ ls, l = x := by
  induction ls generalizing x with
  | nil => simp
  | cons l ls ih =>
    obtain ⟨s, hs⟩ := h
    obtain ⟨l₀, hl₀, rfl⟩ := hls l List.mem_cons_self
    obtain ⟨x₀, hx₀, rfl⟩ := hx
    rw [List.flatten_cons, List.append_assoc] at hs
    obtain ⟨rfl, hrest⟩ := Lines.append_sep_inj hl₀ hx₀ hs
    refine List.forall_mem_cons.2 ⟨rfl, ih (fun l hl => hls l (List.mem_cons_of_mem _ hl)) ⟨l₀, hl₀, rfl⟩ ⟨s, ?_⟩⟩
    rw [hrest, List.append_assoc]

/-- The lines that are written and those that are left are the lines of the input. -/
def Keeps (input t : Text) (left : List Text) : Prop := ∃ done, t = done.flatten ∧ done ++ left = pieces 10 input

/-- Where the order of lines changes, what is written is not the start of the input any more. -/
theorem not_prefix_of_rotates {p : Pattern} {r : Repeat} {t input : Text} {x : Repeat ⊕ Flow} (hready : r.writer.Ready t)
    (hkeeps : Keeps input t r.input.rest) (hrotates : RotatesAt isMatch p r)
    (hturn : Settles (applyTurn opts isMatch p · r) x) :
    (∃ r', x = .inl r') ∧ ¬ (writerOf x).text <+: input := by
  obtain ⟨regex, offset, y, rest, hlook, hmatch, z, hz, hne⟩ := hrotates
  have hlt : offset < rest.length := by
    by_contra hle
    rw [Nat.sub_eq_zero_of_le (Nat.not_lt.1 hle)] at hz
    cases hz
  have hpos : 0 < offset := by
    have hlookBack := hlook.lookBack
    cases p with
    | upToLine n ex => cases hlookBack
    | upToMatch regex' offset' ex =>
      obtain ⟨hneg, heq⟩ := Option.ite_none_right_eq_some.1 hlookBack
      cases heq
      exact offsetUsize_pos hneg
    | skipToMatch regex' offset' ex =>
      obtain ⟨hneg, heq⟩ := Option.ite_none_right_eq_some.1 hlookBack
      cases heq
      exact offsetUsize_pos hneg
  obtain ⟨w, size, hsettles, hready'⟩ :=
    @applyTurn_of_rewound opts isMatch _ _ _ _ _ _ _ hready hlook hmatch (Nat.le_succ_of_le (Nat.le_of_lt hlt))
  rw [Settles.unique hturn hsettles]
  refine ⟨⟨_, rfl⟩, fun hstarts => ?_⟩
  obtain ⟨done, hdone, hpieces⟩ := hkeeps
  rw [writerOf, hready'.text, hdone] at hstarts
  -- the lines of the input from the first line of the buffer on
  have hsplit : rest = rest.take (rest.length - offset) ++ rest.drop (rest.length - offset) := (List.take_append_drop _ _).symm
  have hrest : pieces 10 input = (done ++ y.2 :: (rest.take (rest.length - offset)).map Prod.snd) ++
      ((rest.drop (rest.length - offset)).map Prod.snd ++ r.input.iter.map Prod.snd) := by
    rw [← hpieces, InputSplitter.rest, hlook.buffer, List.map_append, List.map_cons]
    conv_lhs => rw [hsplit]
    rw [List.map_append]
    simp only [List.append_assoc, List.cons_append]
  have hbehind : (rest.drop (rest.length - offset)).map Prod.snd ++ r.input.iter.map Prod.snd ≠ [] := by
    intro hnil
    have hlen := congrArg List.length (List.append_eq_nil_iff.1 hnil).1
    rw [List.length_map, List.length_drop, List.length_nil] at hlen
    omega
  have hended := Lines.terminated_of_pieces hrest hbehind
  have hinput : input = done.flatten ++ (y.2 ++ (((rest.take (rest.length - offset)).map Prod.snd).flatten ++
      ((rest.drop (rest.length - offset)).map Prod.snd ++ r.input.iter.map Prod.snd).flatten)) := by
    rw [← @Lines.flatten_pieces _ _ 10 input, hrest]
    simp only [List.flatten_append, List.flatten_cons, List.append_assoc]
  rw [hinput, List.prefix_append_right_inj] at hstarts
  have hsame := eq_of_prefix (fun l hl => hended l (List.mem_append_right _ (List.mem_cons_of_mem _ hl)))
    (hended y.2 (List.mem_append_right _ List.mem_cons_self)) hstarts
  exact hne (hsame z.2 (List.mem_map_of_mem hz))

theorem rest_new (input : Text) : (InputSplitter.new (enumerated input)).rest = pieces 10 input := by
  rw [InputSplitter.rest, InputSplitter.new, enumerated, List.nil_append, List.map_map]
  exact List.zipIdx_map_fst 0 (pieces 10 input)

/-- In a run in which no application hangs: all lines are there in their order, or what is written is not the start of the
input. -/
theorem visited_keeps {patterns : List Pattern} {input : Text} {c : Config} (hsup : opts.suppressMatched = false)
    (hhang : ∀ p ps r, Visited opts isMatch patterns input (p :: ps, r) → ¬ HangsAt isMatch p r)
    (h : Visited opts isMatch patterns input c) :
    ∃ t, c.2.writer.Ready t ∧ (Keeps input t c.2.input.rest ∨ ¬ t <+: input) := by
  induction h with
  | refl =>
    refine ⟨[], ?_, Or.inl ⟨[], rfl, ?_⟩⟩
    · rw [begin_writer]
      exact SplitWriter.ready_new
    · rw [begin_input, rest_new]
      rfl
  | tail hvisited hstep ih =>
    obtain ⟨t, hready, hor⟩ := ih
    cases hstep with
    | @next p ps r w input' hturn =>
      by_cases happlied : p.execute.max = some r.cur
      · have hnext : Settles (applyTurn opts isMatch p · r) (.inr (.next r.writer r.input)) := by
          simp only [applyTurn, happlied, if_true]
          exact settles_pure rfl
        cases Settles.unique hturn hnext
        rw [begin_writer, begin_input]
        exact ⟨t, hready, hor⟩
      · obtain ⟨x, hsettles, hturned⟩ := @applyTurn_turned opts isMatch p r t hready happlied (hhang p ps r hvisited)
        exact absurd (Settles.unique hsettles hturn) (hturned.not_next w input')
    | @again p ps r r' hturn =>
      by_cases happlied : p.execute.max = some r.cur
      · have hnext : Settles (applyTurn opts isMatch p · r) (.inr (.next r.writer r.input)) := by
          simp only [applyTurn, happlied, if_true]
          exact settles_pure rfl
        cases Settles.unique hturn hnext
      · obtain ⟨x, hsettles, hturned⟩ := @applyTurn_turned opts isMatch p r t hready happlied (hhang p ps r hvisited)
        cases Settles.unique hsettles hturn
        obtain ⟨-, lines, hready', hlines⟩ := hturned.moves
        refine ⟨_, hready', ?_⟩
        rcases hor with hkeeps | hnot
        · by_cases hrotates : RotatesAt isMatch p r
          · have hnot := (not_prefix_of_rotates hready hkeeps hrotates hturn).2
            rw [hready'.text] at hnot
            exact Or.inr hnot
          · obtain ⟨done, rfl, hpieces⟩ := hkeeps
            refine Or.inl ⟨done ++ lines, by rw [List.flatten_append], ?_⟩
            rw [List.append_assoc]
            exact (congrArg (done ++ ·) (hlines hsup hrotates)).trans hpieces
        · exact Or.inr fun hstarts => hnot ((List.prefix_append t _).trans hstarts)

/-! ## Every run -/

theorem copyRest_ready {w : SplitWriter} {t : Text} (hready : w.Ready t) (allUpToLine : Bool) (input : InputSplitter) :
    ∃ w', copyRest opts allUpToLine w input = .ok w' ∧ w'.Ready (t ++ input.rest.flatten) := by
  rw [copyRest]
  cases hrest : input.rest with
  | cons line lines =>
    obtain ⟨w₁, hw₁, hopen⟩ := SplitWriter.open_writeLines (SplitWriter.open_newWriter hready) (line :: lines)
    obtain ⟨w', hw', hready'⟩ := SplitWriter.ready_finishSplit hopen opts
    exact ⟨w', by simp only [hw₁, bind, Except.bind, hw'], hready'⟩
  | nil =>
    obtain ⟨w', hw', hready'⟩ := SplitWriter.ready_finishSplit (SplitWriter.open_newWriter hready) opts
    rw [List.flatten_nil, List.append_nil]
    dsimp only
    split
    · exact ⟨w', hw', hready'⟩
    · exact ⟨w, rfl, hready⟩

/-- Behind the patterns nothing fails. -/
theorem finishRun_ready {w : SplitWriter} {t : Text} (hready : w.Ready t) (allUpToLine : Bool) (e : Option CsplitError)
    (input : InputSplitter) :
    ∃ w', finishRun opts allUpToLine (e, w, input) = .ok (e, w') ∧ (e = none → w'.text = t ++ input.rest.flatten) ∧
      ∃ s, w'.text = t ++ s := by
  cases e with
  | none =>
    obtain ⟨w', hw', hready'⟩ := @copyRest_ready opts w t hready allUpToLine input
    have htext := SplitWriter.text_drop hready' opts
    exact ⟨w'.drop opts, by rw [finishRun, hw']; rfl, fun _ => htext, _, htext⟩
  | some e => exact ⟨w.drop opts, rfl, nofun, [], by rw [List.append_nil]; exact SplitWriter.text_drop hready opts⟩

/-- The numbers of the lines are bounded, and those of the patterns positive. -/
theorem fit_start {compiles : Text → Bool} {args : List Text} {patterns : List Pattern}
    (h : getPatterns compiles args = .ok patterns) (input : Text) :
    Fit (pieces 10 input).length (begin patterns .new (.new (enumerated input))) := by
  refine fit_begin (fun n ex hmem => ?_) fun x hx => ?_
  · obtain ⟨ps, hps, h⟩ := Fallible.bind_eq_ok.1 h
    obtain ⟨u, hvalid, heq⟩ := Fallible.bind_eq_ok.1 h
    cases heq
    refine ((validateFrom_eq_ok hvalid).1 n ?_).1
    exact List.mem_filterMap.2 ⟨_, hmem, rfl⟩
  · obtain ⟨y, hy, rfl⟩ := List.mem_map.1 hx
    have := (List.mem_zipIdx hy).2.1
    simpa using this

/-- **Every run of csplit.** It ends exactly if no application of a pattern hangs; if it succeeds, without suppressing lines,
the splits and what is skipped are the input exactly if no application changes the order of lines; and it never panics. -/
theorem csplit_iff (compiles : Text → Bool) (isMatch : Text → Text → Bool) (opts : CsplitOptions) (args : List Text)
    (patterns : List Pattern) (input : Text) (h : getPatterns compiles args = .ok patterns) :
    ((∃ result, Settles (csplit opts isMatch patterns input) result) ↔
      ∀ p ps r, Visited opts isMatch patterns input (p :: ps, r) → ¬ HangsAt isMatch p r) ∧
    (∀ w, Settles (csplit opts isMatch patterns input) (none, w) → opts.suppressMatched = false →
      (w.text = input ↔ ∀ p ps r, Visited opts isMatch patterns input (p :: ps, r) → ¬ RotatesAt isMatch p r)) ∧
    ∀ fuel, csplit opts isMatch patterns input fuel ≠ .error .panic := by
  have hrun : csplit opts isMatch patterns input = fun fuel =>
      goOn opts isMatch fuel (begin patterns .new (.new (enumerated input))) >>=
        finishRun opts (patterns.all isUpToLine) := by
    funext fuel
    rw [csplit, doCsplit_eq_goOn]
  -- a run hangs with an application of a pattern
  have hhangs : ∀ p ps r, Visited opts isMatch patterns input (p :: ps, r) → HangsAt isMatch p r →
      Hangs (csplit opts isMatch patterns input) := by
    intro p ps r hvisited hhang
    obtain ⟨t, hready⟩ := visited_ready hvisited
    rw [hrun]
    exact (hangs_goOn hready hvisited hhang).bind
  have hready : (begin patterns .new (.new (enumerated input))).2.writer.Ready [] := by
    rw [begin_writer]
    exact SplitWriter.ready_new
  have hsettles : (∀ p ps r, Visited opts isMatch patterns input (p :: ps, r) → ¬ HangsAt isMatch p r) →
      ∃ e w, Settles (csplit opts isMatch patterns input) (e, w) ∧
        (∀ c, Visited opts isMatch patterns input c → c.2.writer.text <+: w.text) ∧
        (e = none → opts.suppressMatched = false →
          (∀ p ps r, Visited opts isMatch patterns input (p :: ps, r) → ¬ RotatesAt isMatch p r) → w.text = input) := by
    intro hnone
    obtain ⟨e, w, input', hgo, hmoves, htexts⟩ := settles_goOn hready (fit_start h input) hnone
    obtain ⟨-, lines, hready', hlines⟩ := hmoves
    obtain ⟨w', hfinish, htext, s, hs⟩ := @finishRun_ready opts w _ hready' (patterns.all isUpToLine) e input'
    refine ⟨e, w', ?_, fun c hc => ?_, fun he hsup hrotates => ?_⟩
    · rw [hrun]
      exact hgo.bind (settles_pure hfinish)
    · rw [hs, ← show w.text = _ from hready'.text]
      exact (htexts c hc).trans (List.prefix_append _ _)
    · have hall := hlines hsup hrotates
      rw [begin_input, rest_new] at hall
      rw [htext he, List.nil_append, ← List.flatten_append, hall, Lines.flatten_pieces]
  refine ⟨⟨?_, ?_⟩, ?_, ?_⟩
  · rintro ⟨result, hresult⟩ p ps r hvisited hhang
    exact hresult.not_hangs (hhangs p ps r hvisited hhang)
  · intro hnone
    obtain ⟨e, w, hw, -⟩ := hsettles hnone
    exact ⟨_, hw⟩
  · intro w hw hsup
    have hnone : ∀ p ps r, Visited opts isMatch patterns input (p :: ps, r) → ¬ HangsAt isMatch p r :=
      fun p ps r hvisited hhang => hw.not_hangs (hhangs p ps r hvisited hhang)
    obtain ⟨e, w', hw', htexts, hwhole⟩ := hsettles hnone
    cases Settles.unique hw hw'
    refine ⟨fun htext p ps r hvisited hrotates => ?_, hwhole rfl hsup⟩
    obtain ⟨t, hready', hor⟩ := visited_keeps hsup hnone hvisited
    have hstarts : t <+: input := by
      have := htexts _ hvisited
      rwa [hready'.text, htext] at this
    obtain ⟨regex, offset, x, rest, hlook, -⟩ := id hrotates
    obtain ⟨y, hturn, -⟩ := @applyTurn_turned opts isMatch p r t hready' hlook.applied (hnone p ps r hvisited)
    obtain ⟨⟨r', rfl⟩, hnot⟩ := not_prefix_of_rotates hready' (hor.resolve_right (not_not_intro hstarts)) hrotates hturn
    have hlast := htexts _ (hvisited.tail (.again hturn))
    rw [htext] at hlast
    exact hnot hlast
  · intro fuel hpanic
    by_cases hnone : ∀ p ps r, Visited opts isMatch patterns input (p :: ps, r) → ¬ HangsAt isMatch p r
    · obtain ⟨e, w, hw, -⟩ := hsettles hnone
      rcases hw.2 fuel with hfuel | hok
      · cases hfuel.symm.trans hpanic
      · cases hok.symm.trans hpanic
    · simp only [not_forall, not_not] at hnone
      obtain ⟨p, ps, r, hvisited, hhang⟩ := hnone
      cases (hhangs p ps r hvisited hhang fuel).symm.trans hpanic

/-- A line that is its own regular expression. -/
def isSame (regex line : Text) : Bool := regex == line

/-- The lines `a` and `b`, up to a match of `b`. -/
theorem csplit_iff_match : ∃ result,
    Settles (csplit ⟨false, false⟩ isSame [.upToMatch [98] 0 (.times 1)] [97, 10, 98, 10]) result := by
  have hparsed : getPatterns (fun _ => true) [[47, 98, 47]] = .ok [.upToMatch [98] 0 (.times 1)] := by decide
  refine (csplit_iff (fun _ => true) isSame ⟨false, false⟩ [[47, 98, 47]] _ [97, 10, 98, 10] hparsed).1.2 ?_
  rintro p ps r hvisited ⟨regex, offset, x, rest, hlook, -⟩
  have hp := (visited_suffix hvisited).subset (List.mem_cons_self : p ∈ p :: ps)
  rw [List.mem_singleton.1 hp] at hlook
  cases hlook.lookBack

/-- Up to two lines before `c`, up to line 1, and up to one line before `a`, on the lines `a`, `b` and `c`: `b` is written
before `a`, to a split of its own. -/
theorem order_changes : getPatterns (fun _ => true) [[47, 99, 47, 45, 50], [49], [47, 97, 47, 45, 49]] =
      .ok [.upToMatch [99] (-2) (.times 1), .upToLine 1 (.times 1), .upToMatch [97] (-1) (.times 1)] ∧
    ¬ ∃ result, Settles (csplit ⟨false, false⟩ isSame
        [.upToMatch [99] (-2) (.times 1), .upToLine 1 (.times 1), .upToMatch [97] (-1) (.times 1)]
        [97, 10, 98, 10, 99, 10]) result ∧
      (result.1 = none → result.2.text = [97, 10, 98, 10, 99, 10]) := by
  have hrun : (csplit ⟨false, false⟩ isSame
      [.upToMatch [99] (-2) (.times 1), .upToLine 1 (.times 1), .upToMatch [97] (-1) (.times 1)]
      [97, 10, 98, 10, 99, 10] 20).map (fun result => (result.1, result.2.text)) =
        .ok (none, [98, 10, 97, 10, 99, 10]) := by decide +kernel
  refine ⟨by decide, ?_⟩
  rintro ⟨result, hsettles, htext⟩
  rcases hsettles.2 20 with hfuel | hok
  · rw [hfuel] at hrun
    cases hrun
  · rw [hok] at hrun
    obtain ⟨hnone, hwritten⟩ := Prod.mk.injEq .. ▸ Except.ok.inj hrun
    rw [htext hnone] at hwritten
    exact absurd hwritten (by decide)

end Peiosutils.Csplit
