import Peiosutils.Sort.MergeSorted
import Peiosutils.Sort.ReadLines

/-!
# Reading a file that is merged

A file is read on its own, so of the two things that can go wrong in a turn of the loop only the cut of a buffer that was
grown in search of lines is left. Where no buffer is cut so (`CutsFromStart`), the chunks that are received hold the
lines of the file (`receive_lines`), and those of a temporary file are the lines that were written to it
(`receive_reopen`).
-/

set_option autoImplicit false

namespace Peiosutils.Sort

open Lines

/-! ## One file -/

namespace Loop

variable {maxBufferSize : Option Nat} {separator : UInt8} {s s' : Loop}

theorem nextFiles_endFile (separator : UInt8) (s : Loop) : (s.endFile separator).nextFiles = s.nextFiles := by
  unfold endFile
  split <;> rfl

/-- The last file stays the last one. -/
theorem nextFiles_step (hnil : s.nextFiles = []) (h : s.step maxBufferSize separator = .inl s') : s'.nextFiles = [] := by
  unfold step at h
  split at h
  · cases h
  · cases h
    exact hnil
  · split at h
    · split at h
      · cases h
        exact hnil
      · split at h
        · split at h
          · cases h
          · cases h
            exact hnil
        · cases h
          exact hnil
    · simp only [nextFiles_endFile, hnil] at h
      cases h
  · cases h
    exact hnil

theorem nextFiles_done (hnil : s.nextFiles = []) {filled : Filled}
    (h : s.step maxBufferSize separator = .inr (.ok filled)) : filled.nextFiles = [] := by
  unfold step at h
  split at h
  · cases h
  · cases h
  · split at h
    · split at h
      · cases h
      · split at h
        · split at h
          · cases h
            exact hnil
          · cases h
        · cases h
    · simp only [nextFiles_endFile, hnil] at h
      cases h
      rfl
  · cases h

theorem nextFiles_reaches (h : Reaches maxBufferSize separator s s') (hnil : s.nextFiles = []) : s'.nextFiles = [] := by
  induction h with
  | refl => exact hnil
  | tail _ hstep ih => exact nextFiles_step ih hstep

theorem nextFiles_readToBuffer (s : Loop) (hnil : s.nextFiles = []) {filled : Filled}
    (h : readToBuffer maxBufferSize separator s = .ok filled) : filled.nextFiles = [] := by
  induction s using readToBuffer.induct maxBufferSize separator with
  | case1 s s' hstep ih =>
    have hnil' := nextFiles_reaches (.tail .refl hstep) hnil
    exact ih hnil' (readToBuffer_inl hstep ▸ h)
  | case2 s result hstep =>
    rw [readToBuffer_inr hstep] at h
    subst h
    exact nextFiles_done hnil hstep

/-- A full buffer is cut by an index that counts from the start of the buffer. -/
def CutFromStart (separator : UInt8) (s : Loop) : Prop :=
  s.target = [] → s.found separator ≠ [] → s.enough separator = true → s.newlineSearchOffset = 0

theorem CutFromStart.sound (h : s.CutFromStart separator) (hnil : s.nextFiles = []) : s.Sound maxBufferSize separator where
  cut := by
    intro htarget _ henough lastLineEnd hlast
    have hmem := List.mem_of_getLast? hlast
    have hoffset := h htarget (List.ne_nil_of_mem hmem) henough
    simp only [found, hoffset, List.drop_zero, separators, List.mem_filter, decide_eq_true_eq] at hmem
    exact hmem.2
  join := by
    intro _ _ _
    refine Or.inr fun next hn => ?_
    rw [hnil] at hn
    cases hn

end Loop

/-- In no turn of a call of `read_to_buffer` on the file a buffer is cut that was grown in search of lines. -/
def CutsFromStart (separator : UInt8) (buffers : Nat → List UInt8) (file : Reader) : Prop :=
  ∀ m input, Called none separator buffers 0 ⟨[], file, []⟩ m input →
    ∀ s, Loop.Reaches none separator (input.start (buffers m)) s → s.CutFromStart separator

/-- A call, from what its loop gave. -/
theorem read_ok {maxBufferSize : Option Nat} {separator : UInt8} {buffer : List UInt8} {input input' : Input}
    {chunk : Option (List (List UInt8))} {shouldContinue : Bool}
    (h : read maxBufferSize separator buffer input = .ok (chunk, shouldContinue, input')) :
    ∃ filled, readToBuffer maxBufferSize separator (input.start buffer) = .ok filled ∧
      filled.shouldContinue = shouldContinue ∧
      input' = ⟨filled.buffer.drop filled.read, filled.file, filled.nextFiles⟩ := by
  rw [read] at h
  cases hfilled : readToBuffer maxBufferSize separator (input.start buffer) with
  | error message =>
    rw [hfilled] at h
    cases h
  | ok filled =>
    rw [hfilled] at h
    simp only [bind, Except.bind, pure, Except.pure, Except.ok.injEq, Prod.mk.injEq] at h
    exact ⟨filled, rfl, h.2.1, h.2.2.symm⟩

theorem nextFiles_called {maxBufferSize : Option Nat} {separator : UInt8} {buffers : Nat → List UInt8} {n m : Nat}
    {input input' : Input} (h : Called maxBufferSize separator buffers n input m input') (hnil : input.nextFiles = []) :
    input'.nextFiles = [] := by
  induction h with
  | first => exact hnil
  | next hread _ ih =>
    obtain ⟨filled, hfilled, _, rfl⟩ := read_ok hread
    exact ih (Loop.nextFiles_readToBuffer _ hnil hfilled)

/-! ## Short lines -/

/-- Every 4096 bytes in a row hold a separator. -/
def Dense (separator : UInt8) (text : List UInt8) : Prop :=
  ∀ pre w post : List UInt8, text = pre ++ w ++ post → w.length = 4096 → separator ∈ w

theorem Dense.of_append {separator : UInt8} {pre text : List UInt8} (h : Dense separator (pre ++ text)) :
    Dense separator text := fun pre' w post heq hw => h (pre ++ pre') w post (by simp [heq]) hw

/-- Lines of less than 4096 bytes. -/
theorem dense_of_lines {separator : UInt8} {text : List UInt8}
    (h : ∀ line ∈ lines separator text, line.length < 4096) : Dense separator text := by
  intro pre w post heq hw
  by_contra hsep
  have hne : w ≠ [] := fun hnil => by
    rw [hnil] at hw
    cases hw
  obtain ⟨line, hline, hlen⟩ := exists_line_of_append hsep post hne pre heq
  have := h line hline
  omega

/-- Two of them are in a full buffer. -/
theorem Dense.one_lt_separators {separator : UInt8} {text rest : List UInt8} (h : Dense separator (text ++ rest))
    (hlen : 8192 ≤ text.length) : 1 < (separators separator text).length := by
  have hfind : ∀ n, n + 4096 ≤ text.length → ∃ i ∈ separators separator text, n ≤ i ∧ i < n + 4096 := by
    intro n hn
    have hmem := h (text.take n) ((text.drop n).take 4096) ((text.drop n).drop 4096 ++ rest)
      (by rw [List.append_assoc, ← List.append_assoc (List.take 4096 _), List.take_append_drop, ← List.append_assoc,
        List.take_append_drop]) (by rw [List.length_take, List.length_drop]; omega)
    obtain ⟨j, hj⟩ := List.mem_iff_getElem?.1 hmem
    have hjlt : j < 4096 := by
      have := (List.getElem?_eq_some_iff.1 hj).1
      rw [List.length_take] at this
      omega
    rw [List.getElem?_take_of_lt hjlt, List.getElem?_drop] at hj
    refine ⟨n + j, ?_, by omega, by omega⟩
    simp only [separators, List.mem_filter, List.mem_range, decide_eq_true_eq]
    exact ⟨(List.getElem?_eq_some_iff.1 hj).1, hj⟩
  obtain ⟨i, hi, _, hi'⟩ := hfind 0 (by omega)
  obtain ⟨j, hj, hj', _⟩ := hfind 4096 (by omega)
  match hs : separators separator text, hi, hj with
  | [], hi, _ => cases hi
  | [k], hi, hj =>
    rw [List.mem_singleton] at hi hj
    omega
  | _ :: _ :: _, _, _ => simp

namespace Loop

variable {separator : UInt8} {s s' : Loop}

/-- What keeps the loop from looking for lines a second time. -/
structure Short (separator : UInt8) (s : Loop) : Prop where
  offset : s.newlineSearchOffset = 0
  dense : Dense separator (s.text ++ s.file.content)
  room : 8192 ≤ s.text.length + s.target.length
  last : s.nextFiles = []

theorem Short.enough (h : s.Short separator) (htarget : s.target = []) :
    s.enough separator = true ∧ s.found separator ≠ [] := by
  have hroom := h.room
  rw [htarget, List.length_nil, Nat.add_zero] at hroom
  have hlen := h.dense.one_lt_separators hroom
  unfold Loop.enough found
  rw [h.offset, List.drop_zero]
  refine ⟨by simp [hlen], fun hnil => ?_⟩
  rw [hnil] at hlen
  cases hlen

theorem Short.step (h : s.Short separator) (hstep : s.step none separator = .inl s') : s'.Short separator := by
  have hlast := nextFiles_step h.last hstep
  obtain ⟨hoffset, hdense, hroom, hnil⟩ := h
  unfold Loop.step at hstep
  split at hstep
  · cases hstep
  · rename_i file hread
    cases hstep
    exact ⟨hoffset, by rwa [(read_interrupted hread).1], hroom, hlast⟩
  · split at hstep
    · rename_i htarget
      obtain ⟨henough, hfound⟩ := Short.enough ⟨hoffset, hdense, hroom, hnil⟩ htarget
      simp only [mayGrow, Option.any_none, Bool.false_eq_true, if_false, henough, if_true] at hstep
      split at hstep
      · cases hstep
      · rename_i hnone
        exact absurd (List.getLast?_eq_none_iff.1 hnone) hfound
    · simp only [nextFiles_endFile, hnil] at hstep
      cases hstep
  · rename_i bs file _ hread
    obtain ⟨hcont, hle, _⟩ := read_bytes hread
    cases hstep
    refine ⟨hoffset, ?_, ?_, hlast⟩
    · rwa [List.append_assoc, hcont]
    · rw [List.length_append, List.length_drop]
      omega

theorem Short.reaches (h : s.Short separator) (hs : Reaches none separator s s') : s'.Short separator := by
  induction hs with
  | refl => exact h
  | tail _ hstep ih => exact ih.step hstep

/-- What is carried over is the end of what was read. -/
theorem Short.done (h : s.Short separator) {filled : Filled} (hstep : s.step none separator = .inr (.ok filled))
    (hcont : filled.shouldContinue = true) :
    Dense separator (filled.buffer.drop filled.read ++ filled.file.content) := by
  unfold Loop.step at hstep
  split at hstep
  · cases hstep
  · cases hstep
  · rename_i file hread
    split at hstep
    · simp only [mayGrow, Option.any_none, Bool.false_eq_true, if_false] at hstep
      split at hstep
      · split at hstep
        · rename_i lastLineEnd _ _
          cases hstep
          have hfile : file.content = s.file.content := (read_bytes hread).1
          have hdense := h.dense
          rw [← List.take_append_drop (lastLineEnd + 1) s.text, List.append_assoc, ← hfile] at hdense
          exact hdense.of_append
        · cases hstep
      · cases hstep
    · simp only [nextFiles_endFile, h.last] at hstep
      cases hstep
      cases hcont
  · cases hstep

theorem Short.readToBuffer (h : s.Short separator) {filled : Filled}
    (hres : Sort.readToBuffer none separator s = .ok filled) (hcont : filled.shouldContinue = true) :
    Dense separator (filled.buffer.drop filled.read ++ filled.file.content) ∧ filled.nextFiles = [] := by
  induction s using readToBuffer.induct none separator with
  | case1 s s' hstep ih => exact ih (h.step hstep) (readToBuffer_inl hstep ▸ hres)
  | case2 s result hstep =>
    rw [readToBuffer_inr hstep] at hres
    subst hres
    exact ⟨h.done hstep hcont, nextFiles_done h.last hstep⟩

end Loop

theorem start_short {separator : UInt8} {input : Input} {buffer : List UInt8} (hbuffer : 8192 ≤ buffer.length)
    (hdense : Dense separator (input.carryOver ++ input.file.content)) (hlast : input.nextFiles = []) :
    (input.start buffer).Short separator where
  offset := rfl
  dense := hdense
  room := by
    simp only [Input.start, List.length_drop]
    omega
  last := hlast

/-- In a buffer of 8192 bytes there are always two short lines. -/
theorem cutsFromStart_of_dense {separator : UInt8} {buffers : Nat → List UInt8} {file : Reader}
    (hbuffers : ∀ n, 8192 ≤ (buffers n).length) (hdense : Dense separator file.content) :
    CutsFromStart separator buffers file := by
  have hcalled : ∀ n m input input', Called none separator buffers n input m input' →
      Dense separator (input.carryOver ++ input.file.content) → input.nextFiles = [] →
      Dense separator (input'.carryOver ++ input'.file.content) ∧ input'.nextFiles = [] := by
    intro n m input input' h
    induction h with
    | first => exact fun hd hl => ⟨hd, hl⟩
    | @next n m input input₁ input' chunk hread _ ih =>
      intro hd hl
      obtain ⟨filled, hfilled, hcont, rfl⟩ := read_ok hread
      obtain ⟨hd', hl'⟩ := (start_short (hbuffers n) hd hl).readToBuffer hfilled hcont
      exact ih hd' hl'
  intro m input h s hs _ _ _
  obtain ⟨hd, hl⟩ := hcalled 0 m ⟨[], file, []⟩ input h (by simpa using hdense) rfl
  exact ((start_short (hbuffers m) hd hl).reaches hs).offset

section

variable {settings : GlobalSettings} (platform : Platform settings)

/-- The chunks of a file hold its lines. -/
theorem receive_lines (call i : Nat) {file : Reader} (hfine : file.Fine)
    (hcuts : CutsFromStart settings.separator (platform.buffers call i) file) :
    (receive platform call i file).flatMap Chunk.lines = lines settings.separator file.content := by
  have hleft : Input.left settings.separator ⟨[], file, []⟩ = lines settings.separator file.content := by
    simp [Input.left, nextLines]
  have hsound : ∀ m input, Called none settings.separator (platform.buffers call i) 0 ⟨[], file, []⟩ m input →
      input.Sound none settings.separator (platform.buffers call i m) := fun m input hcalled s hs =>
    (hcuts m input hcalled s hs).sound (Loop.nextFiles_reaches hs (nextFiles_called hcalled rfl))
  have hfuel : (Input.left settings.separator ⟨[], file, []⟩).length < file.content.length + 2 := by
    rw [hleft]
    exact Nat.lt_succ_of_le ((length_lines_le _).trans (Nat.le_succ _))
  obtain ⟨chunks, hall, hflat, hne⟩ := readAll_left _ 0 ⟨[], file, []⟩ ⟨hfine, by simp⟩ hsound hfuel
  rw [receive, hall, ← hleft, ← hflat]
  clear hall hflat
  induction chunks with
  | nil => rfl
  | cons c cs ih =>
    have hc : Chunk.ofLines c = some ⟨c, hne c List.mem_cons_self⟩ := dif_pos _
    simp only [List.filterMap_cons, hc, List.flatMap_cons, List.flatten_cons]
    rw [ih fun d hd => hne d (List.mem_cons_of_mem c hd)]

/-- A temporary file is read as the lines that were written. -/
theorem lines_reopen (call i : Nat) {ls : List Line} (hsep : ∀ line ∈ ls, settings.separator ∉ line) :
    lines settings.separator (platform.reopen call i (writeLines settings.separator ls)).content = ls := by
  rw [platform.reopen_content, writeLines, lines_flatMap hsep]

end

end Peiosutils.Sort
