import Mathlib.Logic.Relation
import Peiosutils.Sort.Chunks

/-!
# The chunks hold the lines of the files

What is left of the input, as lines (`Loop.left`), is not changed by a turn of the loop, and a call takes its chunk off
the front of it (`read_left`), as long as no turn goes wrong in one of two ways (`Loop.Sound`): a full buffer that was
grown in search of lines is cut by an index that counts from the search offset, and an open line that was carried over
is not ended where its file turns out to have no more bytes. Then all chunks together are the lines of the files
(`readAll_lines`).
-/

set_option autoImplicit false

namespace Peiosutils.Sort

open Lines

/-! ## What is left -/

/-- The lines of the files to come. -/
def nextLines (separator : UInt8) (nextFiles : List (Except String Reader)) : List (List UInt8) :=
  nextFiles.flatMap fun
    | .ok next => lines separator next.content
    | .error _ => []

def Loop.left (separator : UInt8) (s : Loop) : List (List UInt8) :=
  lines separator (s.text ++ s.file.content) ++ nextLines separator s.nextFiles

def Input.left (separator : UInt8) (input : Input) : List (List UInt8) :=
  lines separator (input.carryOver ++ input.file.content) ++ nextLines separator input.nextFiles

/-- No read fails. -/
def Reader.Fine (r : Reader) : Prop := ∀ message, Pull.failed message ∉ r

/-- Every file opens, and no read fails. -/
def AllFine (file : Reader) (nextFiles : List (Except String Reader)) : Prop :=
  file.Fine ∧ ∀ next ∈ nextFiles, ∃ r : Reader, next = .ok r ∧ r.Fine

/-- What the turns of the loop rely on. -/
structure Loop.Sound (maxBufferSize : Option Nat) (separator : UInt8) (s : Loop) : Prop where
  /-- Where a full buffer is cut, there is a separator in front of the cut. -/
  cut : s.target = [] → s.mayGrow maxBufferSize = false → s.enough separator = true →
    ∀ lastLineEnd, (s.found separator).getLast? = some lastLineEnd → s.text[lastLineEnd]? = some separator
  /-- Where a file has no bytes for this call, no line is open, or no file to come has any. -/
  join : s.target ≠ [] → s.file = [] → s.lastFileEmpty = true →
    Terminated separator s.text ∨ ∀ next : Reader, .ok next ∈ s.nextFiles → next.content = []

theorem Reader.Fine.read {n : Nat} {r file : Reader} {got : Got} (h : r.Fine) (hread : r.read n = (got, file)) :
    file.Fine ∧ ∀ message, got ≠ .failed message := by
  unfold Reader.read at hread
  split at hread
  · cases hread
    exact ⟨h, by simp⟩
  · rename_i pull rest
    have hrest : Reader.Fine rest := fun message hm => h message (List.mem_cons_of_mem pull hm)
    split at hread
    · cases hread
      exact ⟨h, by simp⟩
    · split at hread
      · cases hread
        exact ⟨hrest, by simp⟩
      · exact absurd List.mem_cons_self (h _)
      · split at hread
        · cases hread
          exact ⟨hrest, by simp⟩
        · cases hread
          refine ⟨fun message hm => ?_, by simp⟩
          rcases List.mem_cons.1 hm with hm | hm
          · cases hm
          · exact hrest message hm

theorem nextLines_eq_nil {separator : UInt8} {nextFiles : List (Except String Reader)}
    (h : ∀ next : Reader, .ok next ∈ nextFiles → next.content = []) : nextLines separator nextFiles = [] := by
  rw [nextLines, List.flatMap_eq_nil_iff]
  intro next hn
  cases next with
  | ok next => exact lines_eq_nil.2 (h next hn)
  | error message => rfl

/-- The front of a text up to a separator is terminated. -/
theorem terminated_take {separator : UInt8} {text : List UInt8} {i : Nat} (h : text[i]? = some separator) :
    Terminated separator (text.take (i + 1)) := by
  refine Or.inr ?_
  rw [List.take_add_one, h]
  simp

theorem lines_take_drop {separator : UInt8} {text : List UInt8} {i : Nat} (h : text[i]? = some separator)
    (rest : List UInt8) : lines separator (text ++ rest) =
      lines separator (text.take (i + 1)) ++ lines separator (text.drop (i + 1) ++ rest) := by
  rw [← lines_append (terminated_take h), ← List.append_assoc, List.take_append_drop]

namespace Loop

variable {maxBufferSize : Option Nat} {separator : UInt8} {s s' : Loop}

/-- What the loop keeps. -/
structure Inv (s : Loop) : Prop where
  /-- What was read of the file is in the text. -/
  text : s.lastFileEmpty = false → s.text ≠ []
  fine : AllFine s.file s.nextFiles

/-- The end of a file leaves its lines. -/
theorem lines_endFile (separator : UInt8) (h : s.lastFileEmpty = false → s.text ≠ []) :
    lines separator (s.endFile separator).text = lines separator s.text ∧
      (s.lastFileEmpty = false → Terminated separator (s.endFile separator).text) ∧
      (s.lastFileEmpty = true → s.endFile separator = s) := by
  unfold endFile
  split
  · rename_i hend
    simp only [Bool.and_eq_true, Bool.not_eq_true', decide_eq_true_eq] at hend
    refine ⟨lines_terminate ?_, fun _ => Or.inr (by simp), fun he => by simp [he] at hend⟩
    rintro (hnil | hlast)
    · exact h hend.1 hnil
    · exact hend.2 hlast
  · rename_i hend
    refine ⟨rfl, fun he => Or.inr ?_, fun _ => rfl⟩
    simpa [he] using hend

/-- A turn of the loop leaves what is left. -/
theorem left_step (hinv : s.Inv) (hsound : s.Sound maxBufferSize separator)
    (h : s.step maxBufferSize separator = .inl s') : s'.left separator = s.left separator ∧ s'.Inv := by
  obtain ⟨htext, hfile, hnext⟩ := hinv
  unfold step at h
  split at h
  · cases h
  · rename_i file hread
    cases h
    exact ⟨by simp only [left, (read_interrupted hread).1], htext, (hfile.read hread).1, hnext⟩
  · rename_i file hread
    obtain ⟨hcont, _, _, hend⟩ := read_bytes hread
    split at h
    · -- the buffer is full, and is grown
      have hgrow : ∀ t : Loop, t.text = s.text → t.file = s.file → t.nextFiles = s.nextFiles →
          t.lastFileEmpty = s.lastFileEmpty → t.left separator = s.left separator ∧ t.Inv := by
        intro t ht hf hn hl
        refine ⟨by simp only [left, ht, hf, hn], ?_, ?_⟩
        · rwa [ht, hl]
        · rw [hf, hn]
          exact ⟨hfile, hnext⟩
      split at h
      · cases h
        exact hgrow _ rfl rfl rfl rfl
      · split at h
        · split at h
          · cases h
          · cases h
            exact hgrow _ rfl rfl rfl rfl
        · cases h
          exact hgrow _ rfl rfl rfl rfl
    · -- the file is at its end, and the next one follows
      rename_i htarget
      obtain ⟨hnil, _⟩ := hend rfl (List.length_pos_iff.2 htarget)
      obtain ⟨hlines, hterm, hsame⟩ := lines_endFile separator htext
      have hnf : (s.endFile separator).nextFiles = s.nextFiles := by
        unfold endFile
        split <;> rfl
      simp only [hnf] at h
      split at h
      · rename_i next nextFiles heq
        cases h
        have hnextFine : ∀ n ∈ nextFiles, ∃ r : Reader, n = .ok r ∧ r.Fine := fun n hn =>
          hnext n (heq ▸ List.mem_cons_of_mem _ hn)
        obtain ⟨r, hr, hrf⟩ := hnext (.ok next) (heq ▸ List.mem_cons_self)
        cases hr
        refine ⟨?_, by simp, hrf, hnextFine⟩
        have hleft : s.left separator =
            lines separator s.text ++ (lines separator next.content ++ nextLines separator nextFiles) := by
          simp [left, hnil, Reader.content, heq, nextLines]
        rw [hleft, ← hlines, left]
        simp only
        cases hl : s.lastFileEmpty with
        | false => rw [lines_append (hterm hl), List.append_assoc]
        | true =>
          rcases hsound.join htarget hnil hl with ht | hempty
          · rw [hsame hl, lines_append ht, List.append_assoc]
          · have hne : next.content = [] := hempty next (heq ▸ List.mem_cons_self)
            rw [hne, nextLines_eq_nil fun n hn => hempty n (heq ▸ List.mem_cons_of_mem _ hn)]
            simp
      · cases h
      · cases h
  · rename_i bs file hne hread
    obtain ⟨hcont, _, _, _⟩ := read_bytes hread
    cases h
    refine ⟨?_, fun _ => List.append_ne_nil_of_right_ne_nil _ hne, (hfile.read hread).1, hnext⟩
    simp only [left, ← hcont, List.append_assoc]

/-- A turn that ends the loop takes its lines off what is left. -/
theorem left_done {result : Except String Filled} (hinv : s.Inv) (hsound : s.Sound maxBufferSize separator)
    (h : s.step maxBufferSize separator = .inr result) : ∃ filled, result = .ok filled ∧
      s.left separator = lines separator (filled.buffer.take filled.read) ++
        (if filled.shouldContinue then
          Input.left separator ⟨filled.buffer.drop filled.read, filled.file, filled.nextFiles⟩ else []) ∧
      filled.read ≤ filled.buffer.length ∧
      (filled.shouldContinue = true → filled.read ≠ 0 ∧ AllFine filled.file filled.nextFiles) := by
  obtain ⟨htext, hfile, hnext⟩ := hinv
  unfold step at h
  split at h
  · rename_i message _ hread
    exact absurd rfl ((hfile.read hread).2 message)
  · cases h
  · rename_i file hread
    obtain ⟨hcont, _, _, hend⟩ := read_bytes hread
    split at h
    · rename_i htarget
      split at h
      · cases h
      · rename_i hgrow
        split at h
        · rename_i lastLineEnd hlast
          split at h
          · rename_i henough
            cases h
            have hsep := hsound.cut htarget (by simpa using hgrow) henough lastLineEnd hlast
            refine ⟨_, rfl, ?_, ?_, fun _ => ⟨Nat.succ_ne_zero _, (hfile.read hread).1, hnext⟩⟩
            · simp only [if_true, left, Input.left]
              rw [← hcont, List.nil_append, lines_take_drop hsep, List.append_assoc]
            · exact (List.getElem?_eq_some_iff.1 hsep).1
          · cases h
        · cases h
    · rename_i htarget
      obtain ⟨hnil, _⟩ := hend rfl (List.length_pos_iff.2 htarget)
      obtain ⟨hlines, _, _⟩ := lines_endFile separator htext
      have hnf : (s.endFile separator).nextFiles = s.nextFiles := by
        unfold endFile
        split <;> rfl
      simp only [hnf] at h
      split at h
      · cases h
      · rename_i message _ heq
        obtain ⟨r, hr, _⟩ := hnext (.error message) (heq ▸ List.mem_cons_self)
        cases hr
      · rename_i heq
        cases h
        refine ⟨_, rfl, ?_, by simp, by simp⟩
        simp [left, hnil, Reader.content, heq, nextLines, hlines]
  · cases h

/-- The states that the loop comes to. -/
def Reaches (maxBufferSize : Option Nat) (separator : UInt8) : Loop → Loop → Prop :=
  Relation.ReflTransGen fun s s' => s.step maxBufferSize separator = .inl s'

/-- The loop takes its lines off what is left. -/
theorem left_readToBuffer (s : Loop) (hinv : s.Inv)
    (hsound : ∀ s', Reaches maxBufferSize separator s s' → s'.Sound maxBufferSize separator) :
    ∃ filled, readToBuffer maxBufferSize separator s = .ok filled ∧
      s.left separator = lines separator (filled.buffer.take filled.read) ++
        (if filled.shouldContinue then
          Input.left separator ⟨filled.buffer.drop filled.read, filled.file, filled.nextFiles⟩ else []) ∧
      filled.read ≤ filled.buffer.length ∧
      (filled.shouldContinue = true → filled.read ≠ 0 ∧ AllFine filled.file filled.nextFiles) := by
  induction s using readToBuffer.induct maxBufferSize separator with
  | case1 s s' hstep ih =>
    obtain ⟨hleft, hinv'⟩ := left_step hinv (hsound s .refl) hstep
    obtain ⟨filled, hres, hfl, hrest⟩ := ih hinv' fun t ht => hsound t (.head hstep ht)
    exact ⟨filled, (readToBuffer_inl hstep).trans hres, hleft ▸ hfl, hrest⟩
  | case2 s result hstep =>
    obtain ⟨filled, rfl, hrest⟩ := left_done hinv (hsound s .refl) hstep
    exact ⟨filled, readToBuffer_inr hstep, hrest⟩

end Loop

/-! ## Calls -/

/-- The turns of one call are sound. -/
def Input.Sound (maxBufferSize : Option Nat) (separator : UInt8) (buffer : List UInt8) (input : Input) : Prop :=
  ∀ s, Loop.Reaches maxBufferSize separator (input.start buffer) s → s.Sound maxBufferSize separator

theorem parseLines_eq {separator : UInt8} {bytes : List UInt8} (h : bytes ≠ []) :
    parseLines separator bytes = lines separator bytes := splitOn_chomp h

/-- A call sends lines off the front of what is left. -/
theorem read_left {maxBufferSize : Option Nat} {separator : UInt8} {buffer : List UInt8} {input : Input}
    (hfine : AllFine input.file input.nextFiles) (hsound : input.Sound maxBufferSize separator buffer) :
    ∃ chunk shouldContinue input', read maxBufferSize separator buffer input = .ok (chunk, shouldContinue, input') ∧
      input.left separator = chunk.toList.flatten ++ (if shouldContinue then input'.left separator else []) ∧
      (∀ c ∈ chunk, c ≠ []) ∧
      (shouldContinue = true → (∃ c, chunk = some c) ∧ AllFine input'.file input'.nextFiles) := by
  obtain ⟨filled, hres, hleft, hle, hfine'⟩ := Loop.left_readToBuffer (input.start buffer) ⟨by simp [Input.start], hfine⟩
    hsound
  refine ⟨_, _, _, by rw [read, hres]; rfl, ?_, ?_, fun hc => ⟨⟨_, if_pos (hfine' hc).1⟩, (hfine' hc).2⟩⟩
  · change Loop.left separator (input.start buffer) = _
    rw [hleft]
    congr 1
    split
    · rename_i hread
      have hne : filled.buffer.take filled.read ≠ [] := by
        rw [Ne, List.take_eq_nil_iff, not_or]
        refine ⟨hread, ?_⟩
        rintro hnil
        rw [hnil] at hle
        exact hread (Nat.le_zero.1 hle)
      simp [parseLines_eq hne]
    · rename_i hread
      rw [not_not.1 hread]
      rfl
  · intro c hc
    split at hc
    · cases hc
      exact List.splitOn_ne_nil _ _
    · cases hc

/-- The calls that follow from the `n`-th on: `input'` is what is left at the `m`-th. -/
inductive Called (maxBufferSize : Option Nat) (separator : UInt8) (buffers : Nat → List UInt8) :
    Nat → Input → Nat → Input → Prop where
  | first (n : Nat) (input : Input) : Called maxBufferSize separator buffers n input n input
  | next {n m : Nat} {input input₁ input' : Input} {chunk : Option (List (List UInt8))}
      (h : read maxBufferSize separator (buffers n) input = .ok (chunk, true, input₁))
      (hs : Called maxBufferSize separator buffers (n + 1) input₁ m input') :
      Called maxBufferSize separator buffers n input m input'

/-- Sound calls send what is left, and come to an end: each sends a line at least. -/
theorem readAll_left {maxBufferSize : Option Nat} {separator : UInt8} {buffers : Nat → List UInt8} :
    ∀ (fuel n : Nat) (input : Input), AllFine input.file input.nextFiles →
      (∀ m input', Called maxBufferSize separator buffers n input m input' →
        input'.Sound maxBufferSize separator (buffers m)) →
      (input.left separator).length < fuel →
      ∃ chunks, readAll maxBufferSize separator buffers fuel n input = some (chunks, none) ∧
        chunks.flatten = input.left separator ∧ ∀ c ∈ chunks, c ≠ [] := by
  intro fuel
  induction fuel with
  | zero => exact fun _ _ _ _ h => absurd h (Nat.not_lt_zero _)
  | succ fuel ih =>
    intro n input hfine hsound hfuel
    obtain ⟨chunk, shouldContinue, input', hread, hleft, hne, hcont⟩ := read_left hfine (hsound n input (.first n input))
    cases shouldContinue with
    | false =>
      refine ⟨chunk.toList, ?_, by simpa using hleft.symm, fun c hc => hne c (by simpa using hc)⟩
      simp only [readAll, hread]
      rfl
    | true =>
      obtain ⟨⟨c, rfl⟩, hfine'⟩ := hcont rfl
      have hc : c ≠ [] := hne c rfl
      have hpos := List.length_pos_iff.2 hc
      have hlen := congrArg List.length hleft
      simp only [if_true, List.length_append, Option.toList_some, List.flatten_cons, List.flatten_nil,
        List.append_nil] at hlen
      obtain ⟨chunks, hall, hflat, hchunks⟩ := ih (n + 1) input' hfine'
        (fun m t ht => hsound m t (.next hread ht)) (by omega)
      refine ⟨c :: chunks, ?_, ?_, ?_⟩
      · simp only [readAll, hread, if_true, hall]
        rfl
      · rw [List.flatten_cons, hflat, hleft]
        simp
      · intro d hd
        rcases List.mem_cons.1 hd with rfl | hd
        · exact hc
        · exact hchunks d hd

/-- The input before the first call. -/
def Input.ofFiles (first : Reader) (rest : List Reader) : Input := ⟨[], first, rest.map .ok⟩

/-- Where the turns of all calls are sound, the chunks hold the lines of the files in order, and none is empty. -/
theorem readAll_lines (maxBufferSize : Option Nat) (separator : UInt8) (buffers : Nat → List UInt8) (first : Reader)
    (rest : List Reader) (hfine : ∀ r ∈ first :: rest, r.Fine)
    (hsound : ∀ m input, Called maxBufferSize separator buffers 0 (.ofFiles first rest) m input →
      input.Sound maxBufferSize separator (buffers m)) :
    ∃ bound, ∀ fuel, bound < fuel → ∃ chunks,
      readAll maxBufferSize separator buffers fuel 0 (.ofFiles first rest) = some (chunks, none) ∧
      chunks.flatten = (first :: rest).flatMap (fun r => lines separator r.content) ∧ ∀ c ∈ chunks, c ≠ [] := by
  have hleft : (Input.ofFiles first rest).left separator =
      (first :: rest).flatMap (fun r => lines separator r.content) := by
    simp [Input.left, Input.ofFiles, nextLines, List.flatMap_map]
  rw [← hleft]
  refine ⟨_, fun fuel hfuel => readAll_left fuel 0 _ ⟨hfine first List.mem_cons_self, ?_⟩ hsound hfuel⟩
  intro next hn
  obtain ⟨r, hr, rfl⟩ := List.mem_map.1 hn
  exact ⟨r, rfl, hfine r (List.mem_cons_of_mem first hr)⟩

/-- One line without an end, in a file of its own. -/
theorem readAll_lines_single : ∃ bound, ∀ fuel, bound < fuel → ∃ chunks,
    readAll none 10 (fun _ => [0, 0]) fuel 0 (.ofFiles [.data 97 []] []) = some (chunks, none) ∧
    chunks.flatten = [[97]] ∧ ∀ c ∈ chunks, c ≠ [] := by
  refine readAll_lines none 10 (fun _ => [0, 0]) [.data 97 []] [] (by simp [Reader.Fine]) ?_
  intro m input hcalled s hs
  cases hcalled with
  | first =>
    rcases Relation.ReflTransGen.cases_head hs with rfl | ⟨s₁, h₁, hs₁⟩
    · exact ⟨fun h => (by cases h), fun _ h => (by cases h)⟩
    · cases h₁
      rcases Relation.ReflTransGen.cases_head hs₁ with rfl | ⟨s₂, h₂, _⟩
      · exact ⟨fun h => (by cases h), fun _ _ h => (by cases h)⟩
      · cases h₂
  | next hread _ =>
    rw [show read none 10 [0, 0] (.ofFiles [.data 97 []] []) = .ok (some [[97]], false, ⟨[], [], []⟩) by
      decide +kernel] at hread
    cases hread

/-- Six bytes that fill a buffer of six, with an open line at their end, and another file. -/
theorem open_line_joined : ¬ ∀ (maxBufferSize : Option Nat) (separator : UInt8) (buffers : Nat → List UInt8)
    (first : Reader) (rest : List Reader), (∀ r ∈ first :: rest, r.Fine) → ∀ fuel chunks,
    readAll maxBufferSize separator buffers fuel 0 (.ofFiles first rest) = some (chunks, none) →
    chunks.flatten = (first :: rest).flatMap fun r => lines separator r.content := by
  intro h
  have := h none 10 (fun _ => [0, 0, 0, 0, 0, 0]) [.data 97 [10, 98, 10, 99, 100]] [[.data 101 [102, 10]]]
    (by simp [Reader.Fine]) 5 [[[97], [98]], [[99, 100, 101, 102]]] (by decide +kernel)
  revert this
  decide

end Peiosutils.Sort
