import Peiosutils.Csplit.Applied

/-!
# One application of a pattern

An application hangs where the first line of the buffer that it is rewound to does not match a pattern that looks back, or
matches it for ever (`HangsAt`); it changes the order of lines where lines behind that one are too many for the buffer
(`RotatesAt`). One that does not hang does what it should and comes nearer to the end of the loop (`applyTurn_turned`), and
one that does never ends (`hangs_applyTurn`).
-/

set_option autoImplicit false

namespace Peiosutils.Csplit

open While (Stop Settles Hangs loopWith settles_pure)

/-! ## Where an application goes wrong -/

/-- The regular expression and the offset of a pattern that looks back. -/
def Pattern.lookBack : Pattern → Option (Text × Nat)
  | .upToLine _ _ => none
  | .upToMatch regex offset _ | .skipToMatch regex offset _ =>
    if offset < 0 then some (regex, offsetUsize offset) else none

/-- A pattern that looks back is applied where the input is rewound to a buffer with a line in it. -/
structure LooksBack (pattern : Pattern) (r : Repeat) (regex : Text) (offset : Nat) (x : Numbered) (rest : List Numbered) :
    Prop where
  applied : pattern.execute.max ≠ some r.cur
  lookBack : pattern.lookBack = some (regex, offset)
  rewind : r.input.rewind = true
  buffer : r.input.buffer = x :: rest

/-- The first line of the buffer does not match, or there is no end to the matches. -/
def HangsAt (isMatch : Text → Text → Bool) (pattern : Pattern) (r : Repeat) : Prop :=
  ∃ regex offset x rest, LooksBack pattern r regex offset x rest ∧
    (isMatch regex (stripped x.2) = false ∨ pattern.execute = .always ∧ offset ≤ rest.length + 1)

/-- The first line of the buffer matches, and another one that is too much for the buffer is written before it. -/
def RotatesAt (isMatch : Text → Text → Bool) (pattern : Pattern) (r : Repeat) : Prop :=
  ∃ regex offset x rest, LooksBack pattern r regex offset x rest ∧ isMatch regex (stripped x.2) = true ∧
    ∃ y ∈ rest.take (rest.length - offset), y.2 ≠ x.2

/-! ## One application -/

variable {opts : CsplitOptions} {isMatch : Text → Text → Bool}

theorem append_cons_eq {l : List Text} {a : Text} (h : ∀ b ∈ l, b = a) (m : List Text) : l ++ a :: m = a :: (l ++ m) := by
  rw [List.eq_replicate_of_mem h, ← List.cons_append, ← List.replicate_succ, List.replicate_succ', List.append_assoc]
  rfl

theorem offsetUsize_pos {offset : Int} (h : offset < 0) : 0 < offsetUsize offset := by
  rw [offsetUsize]
  split <;> omega

/-- The input is rewound to a buffer, and the offset is negative. -/
def Behind (offset : Int) (input : InputSplitter) (x : Numbered) (rest : List Numbered) : Prop :=
  offset < 0 ∧ input.rewind = true ∧ input.buffer = x :: rest

/-- To a match, where the first line of a buffer that is read again matches. -/
theorem settles_doToMatch {t : Text} {w : SplitWriter} {pattern : Text} {matches' : Text → Bool} (hopen : w.Open t)
    (offset : Int) (input : InputSplitter)
    (hfront : ∀ x rest, Behind offset input x rest → matches' (stripped x.2) = true) :
    ∃ e w' input', Settles (fun fuel => doToMatch opts fuel pattern matches' offset w input) (e, w', input') ∧
      Moves opts (∀ x rest, Behind offset input x rest →
        ∀ y ∈ rest.take (rest.length - offsetUsize offset), y.2 = x.2) t input w'.Ready input' ∧
      (e = none → input'.iter.length < input.iter.length ∨
        ∃ x rest, Behind offset input x rest ∧ offsetUsize offset ≤ rest.length + 1) := by
  by_cases hoffset : 0 ≤ offset
  · obtain ⟨e, w', input', hsettles, hmoves, hgoes⟩ := @settles_doToMatch_of_nonneg opts t pattern matches' w hopen offset
      hoffset input
    exact ⟨e, w', input', hsettles, hmoves.fair_imp fun _ => trivial, fun he => Or.inl (hgoes he).2⟩
  have hneg : offset < 0 := Int.not_le.1 hoffset
  simp only [doToMatch, hoffset, if_false]
  by_cases hforward : input.Forward
  · obtain ⟨e, w', input', hsettles, hmoves, hgoes⟩ := @settles_beforeMatch opts t
      (input.setSizeOfBuffer (offsetUsize offset)) pattern matches' (offsetUsize offset) w _ hopen rfl hforward rfl
      (offsetUsize_pos hneg)
    obtain ⟨hmem, written, hready, hlines⟩ := hmoves
    exact ⟨e, w', input', hsettles, ⟨hmem, written, hready, fun hsup _ => hlines hsup trivial⟩,
      fun he => Or.inl (hgoes he).2⟩
  · obtain ⟨hrewind, hne⟩ : input.rewind = true ∧ input.buffer ≠ [] := by
      rw [InputSplitter.Forward] at hforward
      simpa using hforward
    obtain ⟨x, rest, hbuffer⟩ := List.exists_cons_of_ne_nil hne
    have hbehind : Behind offset input x rest := ⟨hneg, hrewind, hbuffer⟩
    obtain ⟨w', size, hsettles, hready⟩ := @settles_beforeMatch_of_rewound opts t
      (input.setSizeOfBuffer (offsetUsize offset)) pattern matches' (offsetUsize offset) w x rest hopen hrewind hbuffer rfl
      (hfront x rest hbehind)
    refine ⟨_, _, _, hsettles, ⟨fun y hy => ?_, _, hready, fun _ hfair => ?_⟩, fun he => Or.inr ⟨x, rest, hbehind, ?_⟩⟩
    · rw [InputSplitter.left] at hy ⊢
      rw [hbuffer]
      rcases List.mem_append.1 hy with hy | hy
      · rcases List.mem_cons.1 hy with rfl | hy
        · exact List.mem_append_left _ List.mem_cons_self
        · exact List.mem_append_left _ (List.mem_cons_of_mem _ (List.mem_of_mem_drop hy))
      · exact List.mem_append_right _ hy
    · have heq : ∀ b ∈ (rest.take (rest.length - offsetUsize offset)).map Prod.snd, b = x.2 :=
        List.forall_mem_map.2 (hfair x rest hbehind)
      rw [InputSplitter.rest, InputSplitter.rest, hbuffer, List.cons_append, List.cons_append, List.map_cons,
        append_cons_eq heq, List.map_cons, ← List.map_append, ← List.append_assoc, List.take_append_drop]
      rfl
    · by_contra hlt
      rw [if_pos (Nat.lt_of_not_le hlt)] at he
      cases he

/-- The writer behind a turn. -/
def writerOf : Repeat ⊕ Flow → SplitWriter
  | .inl r => r.writer
  | .inr (.next w _) => w
  | .inr (.return _ w _) => w

def inputOf : Repeat ⊕ Flow → InputSplitter
  | .inl r => r.input
  | .inr (.next _ input) => input
  | .inr (.return _ _ input) => input

theorem afterLine_spec (pattern : Text) (n ith upToLine : Nat) (e : Option CsplitError) (w : SplitWriter)
    (input : InputSplitter) :
    (∃ e', afterLine pattern n ith upToLine (e, w, input) = .inr (.return e' w input)) ∧ e ≠ none ∨
      afterLine pattern n ith upToLine (e, w, input) = .inl ⟨ith, upToLine + n, w, input⟩ ∧ e = none := by
  cases e with
  | none => exact Or.inr ⟨rfl, rfl⟩
  | some e => cases e <;> exact Or.inl ⟨⟨_, rfl⟩, nofun⟩

theorem afterMatch_spec (pattern : Text) (max : Option Nat) (ith upToLine : Nat) (e : Option CsplitError) (w : SplitWriter)
    (input : InputSplitter) :
    (∃ e', afterMatch pattern max ith upToLine (e, w, input) = .inr (.return e' w input)) ∧ e ≠ none ∨
      afterMatch pattern max ith upToLine (e, w, input) = .inl ⟨ith, upToLine, w, input⟩ ∧ e = none := by
  cases e with
  | none => exact Or.inr ⟨rfl, rfl⟩
  | some e =>
    cases e with
    | matchNotFound p => cases max <;> exact Or.inl ⟨⟨_, rfl⟩, nofun⟩
    | _ => exact Or.inl ⟨⟨_, rfl⟩, nofun⟩

/-- What one application has done: if the loop over the applications goes on, it has come nearer to its end. -/
structure Turned (opts : CsplitOptions) (isMatch : Text → Text → Bool) (p : Pattern) (r : Repeat) (t : Text)
    (x : Repeat ⊕ Flow) : Prop where
  moves : Moves opts (¬ RotatesAt isMatch p r) t r.input (writerOf x).Ready (inputOf x)
  cur : ∀ r', x = .inl r' → r'.cur = r.cur + 1
  line : ∀ r' n ex, x = .inl r' → p = .upToLine n ex →
    r'.upToLine = r.upToLine + n ∧ ∃ y ∈ r.input.left, r.upToLine ≤ y.1 + 1
  always : ∀ r', x = .inl r' → p.execute = .always → (∀ n ex, p ≠ .upToLine n ex) →
    r'.input.iter.length < r.input.iter.length
  not_next : ∀ w input, x ≠ .inr (.next w input)

/-- An application of a pattern that goes to a match, in a section that is open. -/
theorem turned_match {p : Pattern} {r : Repeat} {t : Text} {regex : Text} {offset : Int} {ex : ExecutePattern}
    {w : SplitWriter} (hopen : w.Open t)
    (hp : p.lookBack = (if offset < 0 then some (regex, offsetUsize offset) else none) ∧ p.execute = ex ∧
      ∀ n ex, p ≠ .upToLine n ex)
    (happlied : p.execute.max ≠ some r.cur) (hhang : ¬ HangsAt isMatch p r) :
    ∃ x, Settles (fun fuel => do
        let applied ← doToMatch opts fuel p.display (isMatch regex) offset w r.input
        return afterMatch p.display ex.max (r.cur + 1) r.upToLine applied) x ∧ Turned opts isMatch p r t x := by
  obtain ⟨hlook, hex, hline⟩ := hp
  have hbehind : ∀ x rest, Behind offset r.input x rest → LooksBack p r regex (offsetUsize offset) x rest :=
    fun x rest h => ⟨happlied, by rw [hlook, if_pos h.1], h.2.1, h.2.2⟩
  obtain ⟨e, w', input', hsettles, ⟨hmem, written, hready, hlines⟩, hgoes⟩ := @settles_doToMatch opts t w p.display
    (isMatch regex) hopen offset r.input fun x rest h => by
      by_contra hno
      exact hhang ⟨regex, _, x, rest, hbehind x rest h, Or.inl (by simpa using hno)⟩
  have hfair : ¬ RotatesAt isMatch p r → ∀ x rest, Behind offset r.input x rest →
      ∀ y ∈ rest.take (rest.length - offsetUsize offset), y.2 = x.2 := by
    intro hno x rest h y hy
    by_contra hne
    refine hno ⟨regex, _, x, rest, hbehind x rest h, ?_, y, hy, hne⟩
    by_contra hmatch
    exact hhang ⟨regex, _, x, rest, hbehind x rest h, Or.inl (by simpa using hmatch)⟩
  refine ⟨_, hsettles.bind (settles_pure rfl), ?_⟩
  rcases afterMatch_spec p.display ex.max (r.cur + 1) r.upToLine e w' input' with ⟨⟨e', heq⟩, -⟩ | ⟨heq, he⟩
  · rw [heq]
    exact ⟨⟨hmem, written, hready, fun hsup h => hlines hsup (hfair h)⟩, nofun, nofun, nofun, nofun⟩
  · rw [heq]
    refine ⟨⟨hmem, written, hready, fun hsup h => hlines hsup (hfair h)⟩, ?_, ?_, ?_, nofun⟩
    · rintro _ ⟨⟩
      rfl
    · intro r' n ex' _ hp
      exact absurd hp (hline n ex')
    · rintro _ ⟨⟩ halways -
      rcases hgoes he with hlt | ⟨x, rest, h, hle⟩
      · exact hlt
      · exact absurd ⟨regex, _, x, rest, hbehind x rest h, Or.inr ⟨halways, hle⟩⟩ hhang

/-- One application that does not hang. -/
theorem applyTurn_turned {p : Pattern} {r : Repeat} {t : Text} (hready : r.writer.Ready t)
    (happlied : p.execute.max ≠ some r.cur) (hhang : ¬ HangsAt isMatch p r) :
    ∃ x, Settles (applyTurn opts isMatch p · r) x ∧ Turned opts isMatch p r t x := by
  simp only [applyTurn, happlied, if_false]
  cases p with
  | upToLine n ex =>
    obtain ⟨e, w', input', hsettles, ⟨hmem, written, hready', hlines⟩, hend⟩ := @settles_doToLine opts t
      (Pattern.upToLine n ex).display r.writer.newWriter (SplitWriter.open_newWriter hready) r.upToLine r.input
    refine ⟨_, hsettles.bind (settles_pure rfl), ?_⟩
    have hlook : ¬ RotatesAt isMatch (.upToLine n ex) r := by
      rintro ⟨_, _, _, _, hlook, -⟩
      cases hlook.lookBack
    rcases afterLine_spec (Pattern.upToLine n ex).display n (r.cur + 1) r.upToLine e w' input' with
      ⟨⟨e', heq⟩, -⟩ | ⟨heq, he⟩
    · rw [heq]
      exact ⟨⟨hmem, written, hready', fun hsup _ => hlines hsup trivial⟩, nofun, nofun, nofun, nofun⟩
    · rw [heq]
      refine ⟨⟨hmem, written, hready', fun hsup _ => hlines hsup trivial⟩, ?_, ?_, ?_, nofun⟩
      · rintro _ ⟨⟩
        rfl
      · rintro _ _ _ ⟨⟩ ⟨⟩
        exact ⟨rfl, hend he⟩
      · intro r' _ _ hline
        exact absurd rfl (hline n ex)
  | upToMatch regex offset ex =>
    exact turned_match (SplitWriter.open_newWriter hready) ⟨rfl, rfl, nofun⟩ happlied hhang
  | skipToMatch regex offset ex =>
    exact turned_match (SplitWriter.open_asDevNull hready) ⟨rfl, rfl, nofun⟩ happlied hhang

/-- The loop of an application that looks back. -/
theorem applyTurn_of_looksBack {p : Pattern} {r : Repeat} {t regex : Text} {offset : Nat} {x : Numbered}
    {rest : List Numbered} (hready : r.writer.Ready t) (h : LooksBack p r regex offset x rest) :
    ∃ w, w.Open t ∧ ∀ fuel, applyTurn opts isMatch p fuel r =
      While.loop (beforeMatchTurn opts p.display (isMatch regex) offset) fuel (w, r.input.setSizeOfBuffer offset) >>=
        fun applied => .ok (afterMatch p.display p.execute.max (r.cur + 1) r.upToLine applied) := by
  have hlook := h.lookBack
  cases p with
  | upToLine n ex => cases hlook
  | upToMatch regex' offset' ex =>
    rw [Pattern.lookBack, Option.ite_none_right_eq_some] at hlook
    obtain ⟨hneg, heq⟩ := hlook
    cases heq
    refine ⟨r.writer.newWriter, SplitWriter.open_newWriter hready, fun fuel => ?_⟩
    simp only [applyTurn, h.applied, if_false, applyOnce, doToMatch, Int.not_le.2 hneg]
    rfl
  | skipToMatch regex' offset' ex =>
    rw [Pattern.lookBack, Option.ite_none_right_eq_some] at hlook
    obtain ⟨hneg, heq⟩ := hlook
    cases heq
    refine ⟨r.writer.asDevNull, SplitWriter.open_asDevNull hready, fun fuel => ?_⟩
    simp only [applyTurn, h.applied, if_false, applyOnce, doToMatch, Int.not_le.2 hneg]
    rfl

/-- A match of the first line that is read again: it stays the first one, and what is too much is written. -/
theorem applyTurn_of_rewound {p : Pattern} {r : Repeat} {t regex : Text} {offset : Nat} {x : Numbered}
    {rest : List Numbered} (hready : r.writer.Ready t) (h : LooksBack p r regex offset x rest)
    (hmatch : isMatch regex (stripped x.2) = true) (hle : offset ≤ rest.length + 1) :
    ∃ w size, Settles (applyTurn opts isMatch p · r) (.inl ⟨r.cur + 1, r.upToLine, w,
        ⟨r.input.iter, x :: rest.drop (rest.length - offset), size, true⟩⟩) ∧
      w.Ready (t ++ ((rest.take (rest.length - offset)).map Prod.snd).flatten) := by
  obtain ⟨w₁, hopen, hturn⟩ := @applyTurn_of_looksBack opts isMatch _ _ _ _ _ _ _ hready h
  obtain ⟨w', size, hsettles, hready'⟩ := @settles_beforeMatch_of_rewound opts t (r.input.setSizeOfBuffer offset) p.display
    (isMatch regex) offset w₁ x rest hopen h.rewind h.buffer rfl hmatch
  rw [if_neg (Nat.not_lt.2 hle)] at hsettles
  refine ⟨w', size, ?_, hready'⟩
  simp only [hturn]
  exact hsettles.bind (settles_pure rfl)

/-- An application that hangs, or is repeated for ever. -/
theorem hangs_applyTurn {p : Pattern} {r : Repeat} {t : Text} (hready : r.writer.Ready t) (hhang : HangsAt isMatch p r) :
    Hangs (loopWith (applyTurn opts isMatch p) · r) := by
  obtain ⟨regex, offset, x, rest, hlook, hwhy⟩ := hhang
  by_cases hmatch : isMatch regex (stripped x.2) = true
  · obtain ⟨halways, hle⟩ := hwhy.resolve_left (by simp [hmatch])
    let Inv : Repeat → Prop := fun r => ∃ t rest, r.writer.Ready t ∧ LooksBack p r regex offset x rest ∧
      offset ≤ rest.length + 1
    refine While.hangs_loopWith Inv ?_ ⟨t, rest, hready, hlook, hle⟩
    rintro r ⟨t, rest, hready, hlook, hle⟩
    obtain ⟨w, size, hsettles, hready'⟩ := @applyTurn_of_rewound opts isMatch _ _ _ _ _ _ _ hready hlook hmatch hle
    refine ⟨_, hsettles, _, _, hready', ⟨?_, hlook.lookBack, rfl, rfl⟩, ?_⟩
    · rw [halways]
      nofun
    · rw [List.length_drop]
      omega
  · obtain ⟨w₁, -, hturn⟩ := @applyTurn_of_looksBack opts isMatch _ _ _ _ _ _ _ hready hlook
    refine While.hangs_loopWith_turn ?_
    simp only [hturn]
    exact (@hangs_beforeMatch opts (r.input.setSizeOfBuffer offset) p.display (isMatch regex) offset w₁ x rest hlook.rewind
      hlook.buffer (by simpa using hmatch)).bind

end Peiosutils.Csplit
