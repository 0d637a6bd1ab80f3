import Peiosutils.Join.Merge

/-!
# What join writes

Where both files are sorted, the merge passes through the relational join of their lines: what is written so far, with
the join of the lines that are left, is the join of all lines (`execTurn_spec`). So nothing is said about the order, and
the join is what is written in the end (`exec_joins`).
-/

set_option autoImplicit false

namespace Peiosutils.Join

open Keyed (OrdSet)
open While (Stop)

/-! ## The relational join -/

/-- Every line of the one file with every one of the other, under the key of the first. -/
def joinedLines (repr : OutputRepr) (key1 key2 : Nat) (lines1 lines2 : List Line) : Bytes :=
  lines1.flatMap fun line1 => lines2.flatMap fun line2 =>
    repr.writePair key1 key2 (lines1.head?.bind fun line => line.getField key1) line1 line2

/-- What is written of the lines of one key, as the settings want it. -/
def Settings.parts (settings : Settings) (repr : OutputRepr) : MergeJoin.Parts Line Line UInt8 where
  paired lines1 lines2 :=
    if settings.printJoined then joinedLines repr settings.key1 settings.key2 lines1 lines2 else []
  left line := if settings.printUnpaired1 then repr.writeLine .file1 settings.key1 line else []
  right line := if settings.printUnpaired2 then repr.writeLine .file2 settings.key2 line else []

/-- Where a line is in the order of its keys. -/
def Input.rankOf (input : Input) (key : Nat) (line : Line) : WithBot (List Nat) := input.rank (line.getField key)

def Settings.lines (settings : Settings) (strings : List Bytes) : List Line :=
  strings.map fun string => Line.new string settings.separator

def fieldCount (lines : List Line) : Nat := (lines.head?.map fun line => line.fieldRanges.length).getD 0

/-- For each key, in ascending order: every pair of lines that have it, one of each file, or the lines of the one file
that has it. -/
def relationalJoin (settings : Settings) (input : Input) (lines1 lines2 : List Line) : Bytes :=
  MergeJoin.join (settings.parts (settings.outputRepr (fieldCount lines1) (fieldCount lines2)))
    (input.rankOf settings.key1) (input.rankOf settings.key2) lines1 lines2

/-- The lines are sorted by the comparison of their keys. -/
def Input.Sorted (input : Input) (key : Nat) (lines : List Line) : Prop :=
  lines.Pairwise fun a b => input.compare (a.getField key) (b.getField key) ≠ .gt

/-! ## One file -/

section File

variable {input : Input} {s₀ s : State} {rest : List Line} {a : Line}

/-- The file where it has lines left, and nothing is said about it. -/
structure State.Reading (s₀ : State) (input : Input) (s : State) (rest : List Line) : Prop where
  key : s.key = s₀.key
  fileNum : s.fileNum = s₀.fileNum
  printUnpaired : s.printUnpaired = s₀.printUnpaired
  left : s.seq ++ s.lines.map (Line.new · input.separator) = rest
  unshown : s.shown = []
  unfailed : s.hasFailed = false

/-- Between turns there is at most one line. -/
def State.Settled (s : State) (rest : List Line) : Prop := s.seq = rest.head?.toList

variable (hlocale : input.ignoreCase = true ∨ input.useLocale = false)

include hlocale in
theorem sorted_iff {key : Nat} {lines : List Line} :
    input.Sorted key lines ↔ lines.Pairwise fun a b => input.rankOf key a ≤ input.rankOf key b := by
  unfold Input.Sorted
  simp only [compare_eq_order input hlocale, Lexical.order_ne_gt, Input.rankOf]

theorem State.getCurrentKey_cons {more : List Line} (hseq : s.seq = a :: more) :
    s.getCurrentKey = .ok (a.getField s.key) := by
  unfold State.getCurrentKey
  rw [hseq]

include hlocale in
/-- In a sorted file a line is read without a complaint. -/
theorem State.nextLine_sorted {more : List Line} (hseq : s.seq = a :: more)
    (hle : ∀ string ∈ s.lines, input.rankOf s.key a ≤ input.rankOf s.key (.new string input.separator)) :
    s.nextLine input = .ok (s.readLine input.separator) := by
  unfold State.nextLine State.readLine
  cases hlines : s.lines with
  | nil => rfl
  | cons string lines =>
    have hcompare : input.compare (a.getField s.key) ((Line.new string input.separator).getField s.key) ≠ .gt := by
      rw [compare_eq_order input hlocale, Lexical.order_ne_gt]
      exact hle string (hlines ▸ List.mem_cons_self)
    dsimp only
    split
    · rfl
    · have hkey : State.getCurrentKey ⟨s.key, s.fileNum, s.printUnpaired, lines, s.seq, s.lineNum + 1, s.hasFailed,
          s.hasUnpaired, s.shown⟩ = .ok (a.getField s.key) := State.getCurrentKey_cons hseq
      rw [hkey]
      simp only [bind, Except.bind, pure, Except.pure]
      rw [if_neg fun h => hcompare h.1]

include hlocale in
/-- The lines that are left begin with those in hand, and the next one takes its place behind them. -/
theorem State.Reading.nextLine (h : s₀.Reading input s rest) (hsorted : input.Sorted s₀.key rest) {more : List Line}
    (hseq : s.seq = a :: more) :
    s.nextLine input = .ok none ∧ s.seq = rest ∨
      ∃ line lines s', s.nextLine input = .ok (some (line, s')) ∧ rest = s.seq ++ line :: lines ∧ s'.seq = s.seq ∧
        s₀.Reading input s' (s.seq ++ lines) ∧ s'.lines.length < s.lines.length := by
  have hleft := h.left
  rw [sorted_iff hlocale, ← hleft, hseq, List.cons_append, List.pairwise_cons, ← h.key] at hsorted
  have hnext := State.nextLine_sorted hlocale hseq fun string hstring =>
    hsorted.1 _ (List.mem_append_right _ (List.mem_map.2 ⟨string, hstring, rfl⟩))
  rw [hnext]
  cases hlines : s.lines with
  | nil =>
    left
    rw [hlines, List.map_nil, List.append_nil] at hleft
    refine ⟨?_, hleft⟩
    unfold State.readLine
    rw [hlines]
  | cons string lines =>
    right
    refine ⟨.new string input.separator, lines.map (Line.new · input.separator),
      { s with lines := lines, lineNum := s.lineNum + 1 }, ?_, ?_, rfl, ?_, ?_⟩
    · unfold State.readLine
      rw [hlines]
    · rw [← hleft, hlines, List.map_cons]
    · exact ⟨h.key, h.fileNum, h.printUnpaired, rfl, h.unshown, h.unfailed⟩
    · rw [List.length_cons]
      exact Nat.lt_succ_self _

/-- What is in hand gives way to the line that is read. -/
theorem State.Reading.reset {lines : List Line} (h : s₀.Reading input s (s.seq ++ lines)) (next : Option Line) :
    s₀.Reading input (s.reset next) (next.toList ++ lines) :=
  ⟨h.key, h.fileNum, h.printUnpaired, congrArg (next.toList ++ ·) (List.append_cancel_left h.left), h.unshown,
    h.unfailed⟩

include hlocale in
theorem State.Reading.resetNextLine (h : s₀.Reading input s (a :: rest)) (hsorted : input.Sorted s₀.key (a :: rest))
    (hseq : s.seq = [a]) :
    ∃ s', s.resetNextLine input = .ok s' ∧ s₀.Reading input s' rest ∧ s'.Settled rest := by
  rcases h.nextLine hlocale hsorted hseq with ⟨hnext, hall⟩ | ⟨line, lines, s', hnext, hrest, hseq', hs', -⟩
  · obtain rfl : rest = [] := by
      rw [hseq] at hall
      exact (List.cons.inj hall).2.symm
    refine ⟨s.reset none, ?_, State.Reading.reset (by rwa [hseq]) none, rfl⟩
    unfold State.resetNextLine
    rw [hnext]
    rfl
  · obtain rfl : rest = line :: lines := by
      rw [hseq] at hrest
      exact (List.cons.inj hrest).2
    refine ⟨s'.reset (some line), ?_, State.Reading.reset (by rwa [hseq']) (some line), rfl⟩
    unfold State.resetNextLine
    rw [hnext]
    rfl

include hlocale in
/-- An unpaired line is written where that is wanted, and the next one takes its place. -/
theorem State.Reading.skipLine (h : s₀.Reading input s (a :: rest)) (hsorted : input.Sorted s₀.key (a :: rest))
    (hseq : s.seq = [a]) (repr : OutputRepr) :
    ∃ s', s.skipLine input repr =
        (if s₀.printUnpaired then repr.writeLine s₀.fileNum s₀.key a else [], .ok s') ∧
      s₀.Reading input s' rest ∧ s'.Settled rest := by
  obtain ⟨s', hs', hreading, hsettled⟩ := h.resetNextLine hlocale hsorted hseq
  refine ⟨s', ?_, hreading, hsettled⟩
  unfold State.skipLine State.writeFirstLine
  rw [hseq, hs', h.printUnpaired, h.fileNum, h.key]
  split <;> rfl

/-- A run of lines with the key of the first is in hand, the next line is behind it, and others may follow. -/
structure State.Extended (s₀ : State) (input : Input) (rest : List Line) (a : Line) (next : Option Line) (s : State)
    (lines : List Line) : Prop where
  left : rest = s.seq ++ (next.toList ++ lines)
  head : s.seq.head? = some a
  key : s.key = s₀.key
  run : ∀ x ∈ s.seq, input.rankOf s₀.key x = input.rankOf s₀.key a
  above : ∀ x ∈ next.toList ++ lines, input.rankOf s₀.key a < input.rankOf s₀.key x
  reading : s₀.Reading input (s.reset next) (next.toList ++ lines)
  settled : (s.reset next).Settled (next.toList ++ lines)

include hlocale in
/-- The run of lines with the key of the first, and the line behind it. -/
theorem State.Reading.extend (h : s₀.Reading input s rest) (hsorted : input.Sorted s₀.key rest) (hseq : s.seq = [a])
    {fuel : Nat} (hfuel : s.lines.length < fuel) :
    ∃ next s' lines, s.extend input fuel = .ok (.ok (next, s')) ∧ s₀.Extended input rest a next s' lines := by
  have hloop : ∃ r, s.extend input fuel = .ok r ∧ ∃ next s' lines, r = .ok (next, s') ∧
      s₀.Extended input rest a next s' lines := by
    refine While.loop_spec
      (fun n s => n = s.lines.length ∧ s₀.Reading input s rest ∧ s.seq.head? = some a ∧
        ∀ x ∈ s.seq, input.rankOf s₀.key x = input.rankOf s₀.key a) _ ?_
      ⟨rfl, h, by rw [hseq]; rfl, by simp [hseq]⟩ hfuel
    rintro n s ⟨rfl, h, hhead, hrun⟩
    obtain ⟨more, hseq⟩ : ∃ more, s.seq = a :: more := by
      cases hs : s.seq with
      | nil =>
        rw [hs] at hhead
        cases hhead
      | cons x more =>
        rw [hs] at hhead
        exact ⟨more, by rw [Option.some.inj hhead]⟩
    rcases h.nextLine hlocale hsorted hseq with ⟨hnext, hall⟩ | ⟨line, lines, s', hnext, hrest, hseq', hs', hlt⟩
    · refine .inl ⟨.ok (none, s), ?_, none, s, [], rfl, ?_, hhead, h.key, hrun, by simp, ?_, rfl⟩
      · simp only [State.extendTurn, hnext]
      · rw [hall]
        simp
      · exact State.Reading.reset (by rwa [List.append_nil, hall]) none
    · have hkey : s'.getCurrentKey = .ok (a.getField s'.key) := State.getCurrentKey_cons (hseq'.trans hseq)
      have hcompare : input.compare (a.getField s'.key) (line.getField s'.key) =
          Lexical.order (input.rankOf s₀.key a) (input.rankOf s₀.key line) := by
        rw [compare_eq_order input hlocale, hs'.key]
        rfl
      by_cases heq : input.compare (a.getField s'.key) (line.getField s'.key) = .eq
      · refine .inr ⟨_, { s' with seq := s'.seq ++ [line] }, ?_, hlt, rfl, ⟨hs'.key, hs'.fileNum, hs'.printUnpaired, ?_,
          hs'.unshown, hs'.unfailed⟩, ?_, ?_⟩
        · simp only [State.extendTurn, hnext, hkey, if_pos heq]
        · have hleft := hs'.left
          rw [hseq'] at hleft
          rw [hrest, hseq', List.append_assoc, List.append_cancel_left hleft]
          rfl
        · rw [hseq', hseq]
          rfl
        · intro x hx
          rcases List.mem_append.1 hx with hx | hx
          · exact hrun x (hseq' ▸ hx)
          · rw [List.mem_singleton.1 hx]
            rw [hcompare, Lexical.order_eq] at heq
            exact heq.symm
      · have hpair := (sorted_iff hlocale).1 hsorted
        rw [hrest, List.pairwise_append, List.pairwise_cons] at hpair
        obtain ⟨-, ⟨hline, -⟩, hle⟩ := hpair
        have hgt : input.rankOf s₀.key a < input.rankOf s₀.key line := by
          refine lt_of_le_of_ne (hle a (hseq ▸ List.mem_cons_self) line List.mem_cons_self) fun h => heq ?_
          rw [hcompare, Lexical.order_eq]
          exact h
        refine .inl ⟨.ok (some line, s'), ?_, some line, s', lines, rfl, by rw [hseq']; exact hrest,
          by rw [hseq', hhead], hs'.key, by rw [hseq']; exact hrun, ?_, State.Reading.reset (by rwa [hseq']) _, rfl⟩
        · simp only [State.extendTurn, hnext, hkey, if_neg heq]
        · intro x hx
          rcases List.mem_cons.1 hx with rfl | hx
          · exact hgt
          · exact hgt.trans_le (hline x hx)
  obtain ⟨r, hr, next, s', lines, rfl, hextended⟩ := hloop
  exact ⟨next, s', lines, hr, hextended⟩

/-- What is written of a line without a partner. -/
def State.unpaired (s : State) (repr : OutputRepr) (line : Line) : Bytes :=
  if s.printUnpaired then repr.writeLine s.fileNum s.key line else []

include hlocale in
theorem State.Reading.finalizeLoop {next : Option Line} {lines : List Line} {out : Bytes} {repr : OutputRepr}
    {fuel : Nat} (h : s₀.Reading input s (s.seq ++ lines)) (hnone : next = none → lines = [])
    (hsorted : input.Sorted s₀.key (next.toList ++ lines)) (hfuel : (next.toList ++ lines).length < fuel) :
    ∃ s', While.loop (fun st => .ok (State.finalizeTurn input repr st)) fuel (out, next, s) =
        .ok (out ++ (next.toList ++ lines).flatMap (s₀.unpaired repr), .ok s') ∧ s'.shown = [] ∧
          s'.hasFailed = false := by
  have hloop : ∃ r, While.loop (fun st => .ok (State.finalizeTurn input repr st)) fuel (out, next, s) = .ok r ∧
      ∃ s', r = (out ++ (next.toList ++ lines).flatMap (s₀.unpaired repr), .ok s') ∧ s'.shown = [] ∧
        s'.hasFailed = false := by
    refine While.loop_spec
      (fun n st => ∃ lines', s₀.Reading input st.2.2 (st.2.2.seq ++ lines') ∧ (st.2.1 = none → lines' = []) ∧
        input.Sorted s₀.key (st.2.1.toList ++ lines') ∧ n = (st.2.1.toList ++ lines').length ∧
        st.1 ++ (st.2.1.toList ++ lines').flatMap (s₀.unpaired repr) =
          out ++ (next.toList ++ lines).flatMap (s₀.unpaired repr)) _ ?_ ⟨lines, h, hnone, hsorted, rfl, rfl⟩ hfuel
    rintro n ⟨out', next', s⟩ ⟨lines', h, hnone, hsorted, rfl, htotal⟩
    cases next' with
    | none =>
      obtain rfl := hnone rfl
      refine .inl ⟨_, rfl, s, ?_, h.unshown, h.unfailed⟩
      rw [← htotal]
      exact congrArg (·, Except.ok s) (List.append_nil out').symm
    | some line =>
      have hout : out' ++ (if s.printUnpaired then repr.writeLine s.fileNum s.key line else []) =
          out' ++ s₀.unpaired repr line := by
        rw [h.printUnpaired, h.fileNum, h.key]
        rfl
      have hreset := h.reset (some line)
      right
      rcases hreset.nextLine hlocale hsorted rfl with ⟨hnext, hall⟩ | ⟨line', lines'', s', hnext, hrest, hseq', hs', -⟩
      · obtain rfl : lines' = [] := (List.cons.inj hall).2.symm
        refine ⟨0, (out' ++ s₀.unpaired repr line, none, s.reset (some line)), ?_, Nat.succ_pos _, [], hreset,
          fun _ => rfl, .nil, rfl, ?_⟩
        · simp only [State.finalizeTurn, hnext, hout]
        · rw [← htotal]
          simp
      · obtain rfl : lines' = line' :: lines'' := (List.cons.inj hrest).2
        refine ⟨(line' :: lines'').length, (out' ++ s₀.unpaired repr line, some line', s'), ?_, Nat.lt_succ_self _,
          lines'', ?_, fun hsome => absurd hsome (Option.some_ne_none _), (List.pairwise_cons.1 hsorted).2, rfl, ?_⟩
        · simp only [State.finalizeTurn, hnext, hout]
        · dsimp only
          rw [hseq']
          exact hs'
        · rw [← htotal]
          simp
  obtain ⟨r, hr, s', rfl, hs'⟩ := hloop
  exact ⟨s', hr, hs'⟩

include hlocale in
/-- All lines that are left are written, where they are wanted. -/
theorem State.Reading.finalize (h : s₀.Reading input s rest) (hsettled : s.Settled rest)
    (hsorted : input.Sorted s₀.key rest) (repr : OutputRepr) {fuel : Nat} (hfuel : rest.length < fuel) :
    ∃ s', s.finalize input repr fuel = .ok (rest.flatMap (s₀.unpaired repr), .ok s') ∧ s'.shown = [] ∧
      s'.hasFailed = false := by
  unfold State.finalize
  cases rest with
  | nil =>
    have hseq : s.seq = [] := hsettled
    rw [hseq]
    exact ⟨s, rfl, h.unshown, h.unfailed⟩
  | cons a rest =>
    have hseq : s.seq = [a] := hsettled
    have hout : (if s.printUnpaired then repr.writeLine s.fileNum s.key a else []) = s₀.unpaired repr a := by
      rw [h.printUnpaired, h.fileNum, h.key]
      rfl
    rcases h.nextLine hlocale hsorted hseq with ⟨hnext, hall⟩ | ⟨line, lines, s', hnext, hrest, hseq', hs', -⟩
    · obtain rfl : rest = [] := by
        rw [hseq] at hall
        exact (List.cons.inj hall).2.symm
      refine ⟨s, ?_, h.unshown, h.unfailed⟩
      rw [hseq]
      simp only [hnext, hout, List.flatMap_cons, List.flatMap_nil, List.append_nil]
    · obtain rfl : rest = line :: lines := by
        rw [hseq] at hrest
        exact (List.cons.inj hrest).2
      have hinv : s₀.Reading input s' (s'.seq ++ lines) := by rwa [hseq']
      obtain ⟨s'', hs'', hend⟩ := @State.Reading.finalizeLoop input s₀ s' hlocale (some line) lines
        (s₀.unpaired repr a) repr fuel hinv (fun hsome => absurd hsome (Option.some_ne_none _))
        (List.pairwise_cons.1 hsorted).2 (Nat.lt_of_succ_lt hfuel)
      refine ⟨s'', ?_, hend⟩
      rw [hseq]
      simp only [hnext, hout, hs'', List.flatMap_cons]
      rfl

end File

/-! ## Both files -/

section Run

variable {settings : Settings} {input : Input} {repr : OutputRepr}

/-- The files as the settings have them. -/
def Settings.File1 (settings : Settings) (s : State) : Prop :=
  s.fileNum = .file1 ∧ s.key = settings.key1 ∧ s.printUnpaired = settings.printUnpaired1

def Settings.File2 (settings : Settings) (s : State) : Prop :=
  s.fileNum = .file2 ∧ s.key = settings.key2 ∧ s.printUnpaired = settings.printUnpaired2

theorem Settings.File1.unpaired {s : State} (h : settings.File1 s) :
    s.unpaired repr = (settings.parts repr).left := by
  funext line
  unfold State.unpaired
  rw [h.1, h.2.1, h.2.2]
  rfl

theorem Settings.File2.unpaired {s : State} (h : settings.File2 s) :
    s.unpaired repr = (settings.parts repr).right := by
  funext line
  unfold State.unpaired
  rw [h.1, h.2.1, h.2.2]
  rfl

/-- The files between two turns: what is written, with the join of what is left, is the join of all lines. -/
structure Files.Merging (settings : Settings) (input : Input) (repr : OutputRepr) (s₁ s₂ : State)
    (keys : List (WithBot (List Nat))) (total : Bytes) (rest1 rest2 : List Line) (f : Files) : Prop where
  reading1 : s₁.Reading input f.state1 rest1
  reading2 : s₂.Reading input f.state2 rest2
  settled1 : f.state1.Settled rest1
  settled2 : f.state2.Settled rest2
  sorted1 : input.Sorted s₁.key rest1
  sorted2 : input.Sorted s₂.key rest2
  keys1 : ∀ line ∈ rest1, input.rankOf s₁.key line ∈ keys
  keys2 : ∀ line ∈ rest2, input.rankOf s₂.key line ∈ keys
  joined : f.written ++ MergeJoin.joinOver (settings.parts repr) (input.rankOf s₁.key) (input.rankOf s₂.key) keys
    rest1 rest2 = total

theorem State.Reading.seen {s₀ s : State} {rest : List Line} (h : s₀.Reading input s rest) :
    s₀.Reading input { s with hasUnpaired := true } rest :=
  ⟨h.key, h.fileNum, h.printUnpaired, h.left, h.unshown, h.unfailed⟩

theorem State.hasLine_eq {s : State} {rest : List Line} (h : s.Settled rest) : s.hasLine = !rest.isEmpty := by
  unfold State.hasLine
  rw [h]
  cases rest <;> rfl

theorem Input.Sorted.of_append {key : Nat} {before after : List Line} (h : input.Sorted key (before ++ after)) :
    input.Sorted key after :=
  (List.pairwise_append.1 h).2.1

theorem State.combine_eq {s other : State} {a : Line} (h : s.seq.head? = some a) (repr : OutputRepr) :
    s.combine other repr = .ok (joinedLines repr s.key other.key s.seq other.seq) := by
  cases hseq : s.seq with
  | nil =>
    rw [hseq] at h
    cases h
  | cons x more =>
    simp only [State.combine, State.getCurrentKey_cons hseq, joinedLines, hseq]
    rfl

theorem State.lines_length_le {s₀ s : State} {rest : List Line} (h : s₀.Reading input s rest) :
    s.lines.length ≤ rest.length := by
  rw [← h.left, List.length_append, List.length_map]
  exact Nat.le_add_left _ _

variable {s₁ s₂ : State} {keys : List (WithBot (List Nat))} {total : Bytes} {rest1 rest2 : List Line} {f : Files}
  (hlocale : input.ignoreCase = true ∨ input.useLocale = false)

include hlocale in
/-- A turn leaves where one file has no line left, and otherwise writes what comes next of the join. -/
theorem execTurn_spec (hs₁ : settings.File1 s₁)
    (hs₂ : settings.File2 s₂)
    (hkeys : keys.Pairwise (· < ·)) (h : f.Merging settings input repr s₁ s₂ keys total rest1 rest2) {fuel : Nat}
    (hfuel : rest1.length + rest2.length < fuel) :
    (execTurn settings input repr fuel f = .ok (.inr (f.written, .ok f)) ∧ (rest1 = [] ∨ rest2 = [])) ∨
      ∃ f' rest1' rest2', execTurn settings input repr fuel f = .ok (.inl f') ∧
        rest1'.length + rest2'.length < rest1.length + rest2.length ∧
        Files.Merging settings input repr s₁ s₂ keys total rest1' rest2' f' := by
  cases rest1 with
  | nil =>
    refine .inl ⟨?_, .inl rfl⟩
    simp [execTurn, State.hasLine_eq h.settled1]
  | cons a rest1 =>
  cases rest2 with
  | nil =>
    refine .inl ⟨?_, .inr rfl⟩
    simp [execTurn, State.hasLine_eq h.settled2]
  | cons b rest2 =>
  right
  have hseq1 : f.state1.seq = [a] := h.settled1
  have hseq2 : f.state2.seq = [b] := h.settled2
  have hkey1 := State.getCurrentKey_cons hseq1
  have hkey2 := State.getCurrentKey_cons hseq2
  have hcompare : input.compare (a.getField f.state1.key) (b.getField f.state2.key) =
      Lexical.order (input.rankOf s₁.key a) (input.rankOf s₂.key b) := by
    rw [compare_eq_order input hlocale, h.reading1.key, h.reading2.key]
    rfl
  have hsorted1 : input.Sorted s₁.key rest1 := (List.pairwise_cons.1 h.sorted1).2
  have hsorted2 : input.Sorted s₂.key rest2 := (List.pairwise_cons.1 h.sorted2).2
  have hle1 := List.pairwise_cons.1 ((sorted_iff hlocale).1 h.sorted1)
  have hle2 := List.pairwise_cons.1 ((sorted_iff hlocale).1 h.sorted2)
  have hlines : (f.state1.hasLine && f.state2.hasLine) = true := by
    rw [State.hasLine_eq h.settled1, State.hasLine_eq h.settled2]
    rfl
  unfold execTurn
  rw [if_pos hlines, hkey1, hkey2]
  dsimp only
  cases hc : input.compare (a.getField f.state1.key) (b.getField f.state2.key) with
  | lt =>
    rw [hcompare, Lexical.order_lt] at hc
    obtain ⟨s', hs', hreading, hsettled⟩ := h.reading1.skipLine hlocale h.sorted1 hseq1 repr
    rw [hs']
    refine ⟨_, rest1, b :: rest2, rfl, by simp, hreading.seen, h.reading2.seen, hsettled, h.settled2,
      hsorted1, h.sorted2, fun line hline => h.keys1 line (List.mem_cons_of_mem _ hline),
      h.keys2, ?_⟩
    rw [← h.joined, MergeJoin.joinOver_left hkeys (h.keys1 a List.mem_cons_self) hle1.1 ?_, ← hs₁.unpaired,
      List.append_assoc]
    · rfl
    · intro y hy
      rcases List.mem_cons.1 hy with rfl | hy
      · exact hc
      · exact hc.trans_le (hle2.1 y hy)
  | gt =>
    rw [hcompare, Lexical.order_gt] at hc
    obtain ⟨s', hs', hreading, hsettled⟩ := h.reading2.skipLine hlocale h.sorted2 hseq2 repr
    rw [hs']
    refine ⟨_, a :: rest1, rest2, rfl, by simp, h.reading1.seen, hreading.seen, h.settled1, hsettled, h.sorted1,
      hsorted2, h.keys1, fun line hline => h.keys2 line (List.mem_cons_of_mem _ hline), ?_⟩
    rw [← h.joined, MergeJoin.joinOver_right hkeys (h.keys2 b List.mem_cons_self) hle2.1 ?_, ← hs₂.unpaired,
      List.append_assoc]
    · rfl
    · intro y hy
      rcases List.mem_cons.1 hy with rfl | hy
      · exact hc
      · exact hc.trans_le (hle1.1 y hy)
  | eq =>
    rw [hcompare, Lexical.order_eq] at hc
    have hfuel1 := State.lines_length_le h.reading1
    have hfuel2 := State.lines_length_le h.reading2
    obtain ⟨next1, s1', lines1, hext1, hx1⟩ := h.reading1.extend hlocale h.sorted1 hseq1 (by omega : _ < fuel)
    obtain ⟨next2, s2', lines2, hext2, hx2⟩ := h.reading2.extend hlocale h.sorted2 hseq2 (by omega : _ < fuel)
    have hne1 : s1'.seq ≠ [] := fun hnil => by simpa [hnil] using hx1.head
    have hne2 : s2'.seq ≠ [] := fun hnil => by simpa [hnil] using hx2.head
    have hpos1 := List.length_pos_of_ne_nil hne1
    have hlength1 := congrArg List.length hx1.left
    have hlength2 := congrArg List.length hx2.left
    rw [List.length_append] at hlength1 hlength2
    have hout : (if settings.printJoined then s1'.combine s2' repr else .ok []) =
        .ok ((settings.parts repr).paired s1'.seq s2'.seq) := by
      rw [State.combine_eq hx1.head, hx1.key, hx2.key, hs₁.2.1, hs₂.2.1]
      unfold Settings.parts
      split <;> rfl
    refine ⟨⟨f.written ++ (settings.parts repr).paired s1'.seq s2'.seq, s1'.reset next1, s2'.reset next2⟩,
      next1.toList ++ lines1, next2.toList ++ lines2, ?_, by omega, hx1.reading, hx2.reading, hx1.settled, hx2.settled,
      ?_, ?_, ?_, ?_, ?_⟩
    · simp only [hext1, hext2, hout, bind, Except.bind, pure, Except.pure]
    · have := h.sorted1
      rw [hx1.left] at this
      exact this.of_append
    · have := h.sorted2
      rw [hx2.left] at this
      exact this.of_append
    · exact fun line hline => h.keys1 line (hx1.left ▸ List.mem_append_right _ hline)
    · exact fun line hline => h.keys2 line (hx2.left ▸ List.mem_append_right _ hline)
    · rw [← h.joined, hx1.left, hx2.left, MergeJoin.joinOver_paired hkeys (h.keys1 a List.mem_cons_self) hne1 hne2
        hx1.run (fun y hy => (hx2.run y hy).trans hc.symm) hx1.above fun y hy => hc ▸ hx2.above y hy, List.append_assoc]

include hlocale in
/-- What is left of one file, where the other has no line left, has no partners. -/
theorem Files.Merging.finish (hs₁ : settings.File1 s₁)
    (hs₂ : settings.File2 s₂)
    (hkeys : keys.Pairwise (· < ·)) (h : f.Merging settings input repr s₁ s₂ keys total rest1 rest2)
    (hend : rest1 = [] ∨ rest2 = []) {fuel : Nat} (hfuel : rest1.length + rest2.length < fuel) :
    f.finish input repr fuel = .ok ⟨total, [], .ok (), 0⟩ := by
  obtain ⟨s1', hs1', hshown1, hfailed1⟩ := h.reading1.finalize hlocale h.settled1 h.sorted1 repr (by omega : _ < fuel)
  obtain ⟨s2', hs2', hshown2, hfailed2⟩ := h.reading2.finalize hlocale h.settled2 h.sorted2 repr (by omega : _ < fuel)
  have hjoin : MergeJoin.joinOver (settings.parts repr) (input.rankOf s₁.key) (input.rankOf s₂.key) keys rest1 rest2 =
      rest1.flatMap (settings.parts repr).left ++ rest2.flatMap (settings.parts repr).right := by
    rcases hend with rfl | rfl
    · exact MergeJoin.joinOver_nil_left hkeys h.keys2 ((sorted_iff hlocale).1 h.sorted2)
    · rw [List.flatMap_nil, List.append_nil]
      exact MergeJoin.joinOver_nil_right hkeys h.keys1 ((sorted_iff hlocale).1 h.sorted1)
  rw [← h.joined, hjoin, ← List.append_assoc, ← hs₁.unpaired, ← hs₂.unpaired]
  simp only [Files.finish, hs1', hs2', hshown1, hshown2, hfailed1, hfailed2, bind, Except.bind, pure, Except.pure]
  rfl

include hlocale in
/-- From the start of the main loop to the end the join is written. -/
theorem Files.Merging.run (hs₁ : settings.File1 s₁)
    (hs₂ : settings.File2 s₂)
    (hkeys : keys.Pairwise (· < ·)) (h : f.Merging settings input repr s₁ s₂ keys total rest1 rest2) {fuel : Nat}
    (hfuel : rest1.length + rest2.length < fuel) : f.run settings input repr fuel = .ok ⟨total, [], .ok (), 0⟩ := by
  have hloop : ∃ r, While.loop (execTurn settings input repr fuel) fuel f = .ok r ∧ ∃ f' rest1' rest2',
      r = (f'.written, .ok f') ∧ Files.Merging settings input repr s₁ s₂ keys total rest1' rest2' f' ∧
      (rest1' = [] ∨ rest2' = []) ∧ rest1'.length + rest2'.length < fuel := by
    refine While.loop_spec
      (fun n f => ∃ rest1' rest2', n = rest1'.length + rest2'.length ∧ n < fuel ∧
        Files.Merging settings input repr s₁ s₂ keys total rest1' rest2' f) _ ?_ ⟨rest1, rest2, rfl, hfuel, h⟩ hfuel
    rintro n f ⟨rest1, rest2, rfl, hfuel, h⟩
    rcases execTurn_spec hlocale hs₁ hs₂ hkeys h hfuel with ⟨hturn, hend⟩ | ⟨f', rest1', rest2', hturn, hlt, h'⟩
    · exact .inl ⟨_, hturn, f, rest1, rest2, rfl, h, hend, hfuel⟩
    · exact .inr ⟨_, f', hturn, hlt, rest1', rest2', rfl, hlt.trans hfuel, h'⟩
  obtain ⟨r, hr, f', rest1', rest2', rfl, h', hend, hfuel'⟩ := hloop
  simp only [Files.run, hr, bind, Except.bind]
  exact h'.finish hlocale hs₁ hs₂ hkeys hend hfuel'

/-- Before the first turn the first line is read. -/
theorem State.init_spec (fileNum : FileNum) (key : Nat) (strings : List Bytes) (printUnpaired : Bool)
    (hsep : input.separator = settings.separator) :
    ∃ s, (State.new fileNum key strings printUnpaired).init settings.separator settings.autoformat =
        (if settings.autoformat then fieldCount (settings.lines strings) else 0, s) ∧
      (State.new fileNum key strings printUnpaired).Reading input s (settings.lines strings) ∧
      s.Settled (settings.lines strings) := by
  cases strings with
  | nil => exact ⟨State.new fileNum key [] printUnpaired, by simp [State.init, State.readLine, State.new, fieldCount,
      Settings.lines], ⟨rfl, rfl, rfl, rfl, rfl, rfl⟩, rfl⟩
  | cons string strings =>
    refine ⟨⟨key, fileNum, printUnpaired, strings, [.new string settings.separator], 1, false, false, []⟩, rfl,
      ⟨rfl, rfl, rfl, ?_, rfl, rfl⟩, rfl⟩
    rw [hsep]
    rfl

theorem Settings.outputRepr_count (settings : Settings) (count1 count2 : Nat) :
    settings.outputRepr (if settings.autoformat then count1 else 0) (if settings.autoformat then count2 else 0) =
      settings.outputRepr count1 count2 := by
  unfold Settings.outputRepr
  cases settings.autoformat <;> rfl

/-- **What join writes.** Sorted files are joined, without a word about their order. -/
theorem exec_joins (settings : Settings) (useLocale : Bool) (localeCmp : Bytes → Bytes → Ordering)
    (strings1 strings2 : List Bytes) (hheaders : settings.headers = false)
    (hlocale : settings.ignoreCase = true ∨ useLocale = false)
    (hsorted1 : (settings.input useLocale localeCmp).Sorted settings.key1 (settings.lines strings1))
    (hsorted2 : (settings.input useLocale localeCmp).Sorted settings.key2 (settings.lines strings2)) :
    While.Ends (exec settings (settings.input useLocale localeCmp) strings1 strings2) fun outcome =>
      outcome = ⟨relationalJoin settings (settings.input useLocale localeCmp) (settings.lines strings1)
        (settings.lines strings2), [], .ok (), 0⟩ := by
  refine ⟨(settings.lines strings1).length + (settings.lines strings2).length, fun fuel hfuel => ⟨_, ?_, rfl⟩⟩
  obtain ⟨s1, hs1, hreading1, hsettled1⟩ := State.init_spec .file1 settings.key1 strings1 settings.printUnpaired1
    (rfl : (settings.input useLocale localeCmp).separator = _)
  obtain ⟨s2, hs2, hreading2, hsettled2⟩ := State.init_spec .file2 settings.key2 strings2 settings.printUnpaired2
    (rfl : (settings.input useLocale localeCmp).separator = _)
  have hstart : Files.Merging settings (settings.input useLocale localeCmp)
      (settings.outputRepr (fieldCount (settings.lines strings1)) (fieldCount (settings.lines strings2)))
      (State.new .file1 settings.key1 strings1 settings.printUnpaired1)
      (State.new .file2 settings.key2 strings2 settings.printUnpaired2) _ (relationalJoin settings
        (settings.input useLocale localeCmp) (settings.lines strings1) (settings.lines strings2))
      (settings.lines strings1) (settings.lines strings2) ⟨[], s1, s2⟩ :=
    ⟨hreading1, hreading2, hsettled1, hsettled2, hsorted1, hsorted2,
      fun line hline => MergeJoin.mem_keysOf.2 (.inl ⟨line, hline, rfl⟩),
      fun line hline => MergeJoin.mem_keysOf.2 (.inr ⟨line, hline, rfl⟩), rfl⟩
  unfold exec
  simp only [hs1, hs2, hheaders, Settings.outputRepr_count, Bool.false_eq_true, if_false]
  exact hstart.run hlocale ⟨rfl, rfl, rfl⟩ ⟨rfl, rfl, rfl⟩ (OrdSet.ascending _) hfuel

/-- Lines of the second file that have no partner are wanted. -/
def settingsTwo : Settings := ⟨0, 0, false, true, true, false, 10, .whitespaces, false, [], [], .default, false⟩

/-- `a 1` and `b 2` joined with `a x` and `c y`. -/
theorem exec_joins_two :
    While.Ends (exec settingsTwo (settingsTwo.input false fun _ _ => .eq) [[97, 32, 49], [98, 32, 50]]
        [[97, 32, 120], [99, 32, 121]])
      fun outcome => outcome = ⟨[97, 32, 49, 32, 120, 10, 99, 32, 121, 10], [], .ok (), 0⟩ := by
  obtain ⟨enough, h⟩ := exec_joins settingsTwo false (fun _ _ => .eq) [[97, 32, 49], [98, 32, 50]]
    [[97, 32, 120], [99, 32, 121]] rfl (.inr rfl) (by unfold Input.Sorted; decide +kernel)
    (by unfold Input.Sorted; decide +kernel)
  refine ⟨enough, fun fuel hfuel => ?_⟩
  obtain ⟨outcome, hrun, rfl⟩ := h fuel hfuel
  exact ⟨_, hrun, by decide +kernel⟩

end Run

end Peiosutils.Join
