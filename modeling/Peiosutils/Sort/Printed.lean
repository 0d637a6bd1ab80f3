import Peiosutils.Sort.ExtSort

/-!
# What sorting and merging print

`sorts_and_merges`: where files are read well, the external sort prints the stable sort of its lines and a merge of sorted
files the stable sort of theirs. A file whose first line does not fit into the buffer is not always read well
(`long_line_cut`).
-/

set_option autoImplicit false

namespace Peiosutils.Sort

open Stable Lines

variable {settings : GlobalSettings}

/-- The lines in order, and under `unique` the first of each class of equal lines only. -/
def sortedLines (settings : GlobalSettings) (lines : List Line) : List Line :=
  let sorted := lines.mergeSort fun a b => (settings.compareBy a b).isLE
  if settings.unique then sorted.eraseDupsBy fun a b => settings.compareBy a b == .eq else sorted

theorem sortedLines_written [Std.TransCmp settings.compareBy] (lines : List Line) :
    Written settings lines (sortedLines settings lines) := by
  unfold Written sortedLines
  split
  · exact uniqOf_eraseDupsBy lines
  · exact sortOf_mergeSort lines

/-! ## A platform -/

/-- A file that is read in one go. -/
def Reader.single : List UInt8 → Reader
  | [] => []
  | b :: bs => [.data b bs]

@[simp] theorem Reader.content_single (bytes : List UInt8) : (Reader.single bytes).content = bytes := by
  cases bytes <;> simp [Reader.single, Reader.content]

theorem Reader.fine_single (bytes : List UInt8) : (Reader.single bytes).Fine := by
  intro message
  cases bytes <;> simp [Reader.single]

theorem Reader.read_single (n : Nat) (bytes : List UInt8) :
    (Reader.single bytes).read n = (.bytes (bytes.take n), .single (bytes.drop n)) := by
  cases bytes with
  | nil => simp [Reader.single, Reader.read]
  | cons b bs =>
    cases n with
    | zero => simp [Reader.single, Reader.read]
    | succ n =>
      simp only [Reader.single, Reader.read, Nat.succ_ne_zero, if_false, Nat.add_sub_cancel]
      cases hdrop : bs.drop n with
      | nil => simp [hdrop, List.take_of_length_le (List.drop_eq_nil_iff.1 hdrop)]
      | cons c cs => simp [hdrop]

namespace Loop

variable {s : Loop} {bytes : List UInt8}

theorem step_read (hfile : s.file = .single bytes) (htarget : s.target ≠ []) (hlen : s.target.length ≤ bytes.length) :
    s.step none 10 = .inl { s with
      file := .single (bytes.drop s.target.length), text := s.text ++ bytes.take s.target.length, target := [],
      lastFileEmpty := false } := by
  have hcount : (bytes.take s.target.length).length = s.target.length := by
    rw [List.length_take, Nat.min_eq_left hlen]
  have hempty : s.target.drop (bytes.take s.target.length).length = [] := by
    rw [hcount, List.drop_length]
  have hne : bytes.take s.target.length ≠ [] := fun h => htarget (by
    rw [h] at hcount
    exact List.length_eq_zero_iff.1 hcount.symm)
  rw [step, hfile, Reader.read_single]
  generalize bytes.take s.target.length = bs at *
  cases bs with
  | nil => exact absurd rfl hne
  | cons b bs =>
    simp only
    rw [hempty]

theorem step_grow (hfile : s.file = .single bytes) (htarget : s.target = []) (hfound : s.found 10 = []) :
    s.step none 10 = .inl { s.grow with newlineSearchOffset := s.text.length } := by
  rw [step, hfile, Reader.read_single, htarget]
  simp [mayGrow, hfound]

theorem step_cut {i j : Nat} (hfile : s.file = .single bytes) (htarget : s.target = []) (hfound : s.found 10 = [i, j]) :
    s.step none 10 = .inr (.ok ⟨j + 1, true, s.text, .single bytes, s.nextFiles⟩) := by
  rw [step, hfile, Reader.read_single, htarget]
  simp [mayGrow, hfound, enough]

end Loop

/-- A heap without an order in its list, a stable sort, files that are read in one go, and always the same buffer. -/
def plainPlatform (settings : GlobalSettings) [Std.TransCmp settings.compareBy] (buffer : List UInt8) : Platform settings where
  heap := .unordered (fileComparator settings)
  parSortUnstableBy lines := lines.mergeSort fun a b => (settings.compareBy a b).isLE
  parSortUnstableBy_perm lines := List.mergeSort_perm lines _
  parSortUnstableBy_sorted lines := (sortOf_mergeSort lines).sorted
  fdSoftLimit _ := none
  currentOpenFdCount _ := none
  reopen _ _ bytes := .single bytes
  reopen_content _ _ bytes := Reader.content_single bytes
  reopen_fine _ _ bytes := Reader.fine_single bytes
  buffers _ _ _ := buffer

/-- Sorting and merging print the lines in order, where no file is cut wrongly when it is read. -/
theorem sorts_and_merges (settings : GlobalSettings) [Std.TransCmp settings.compareBy] (platform : Platform settings)
    (hsame : settings.stable = false → settings.unique = false → ∀ a b, settings.compareBy a b = .eq → a = b) :
    (∀ input : Sent, (∀ chunk ∈ input.all, ∀ line ∈ chunk.lines, settings.separator ∉ line) →
      RereadsFromStart platform input →
      extSort platform input = sortedLines settings (input.all.flatMap Chunk.lines)) ∧
    (∀ files : List Reader, (∀ file ∈ files, file.Fine ∧ Sorted settings.compareBy (linesOf settings file)) →
      ReadsFromStart platform 0 files →
      mergeWithFileLimit platform 0 files = sortedLines settings (files.flatMap (linesOf settings))) :=
  ⟨fun input hsep hreads => (extSort_written platform hsame input hsep hreads).unique (sortedLines_written _),
    fun files hfiles hreads =>
      (mergeWithFileLimit_written platform 0 files hfiles hreads).unique (sortedLines_written _)⟩

/-- By the bytes of the lines, merging two files at once. -/
def byBytes : GlobalSettings := ⟨compare, false, false, 2, false, 10⟩

instance : Std.TransCmp byBytes.compareBy := inferInstanceAs (Std.TransCmp compare)

instance : Std.LawfulEqCmp byBytes.compareBy := inferInstanceAs (Std.LawfulEqCmp compare)

/-- Three chunks, which are written to temporary files. -/
def threeChunks : Sent := ⟨[⟨[[98]], by simp⟩, ⟨[[97], [99]], by simp⟩], some ⟨[[97]], by simp⟩⟩

theorem sorts_three_chunks : extSort (plainPlatform byBytes (List.replicate 8192 0)) threeChunks =
    sortedLines byBytes [[98], [97], [99], [97]] := by
  have hsame : byBytes.stable = false → byBytes.unique = false → ∀ a b, byBytes.compareBy a b = .eq → a = b :=
    fun _ _ _ _ h => Std.LawfulEqCmp.eq_of_compare h
  have hlines : ∀ chunk ∈ threeChunks.all, ∀ line ∈ chunk.lines, byBytes.separator ∉ line ∧ line.length < 4096 := by
    simp [threeChunks, Sent.all, byBytes]
  exact (sorts_and_merges byBytes (plainPlatform byBytes (List.replicate 8192 0)) hsame).1 threeChunks
    (fun chunk hc line hl => (hlines chunk hc line hl).1)
    (rereadsFromStart_of_short _ (fun _ _ _ => Nat.le_of_eq List.length_replicate.symm) hsame threeChunks
      (fun chunk hc line hl => (hlines chunk hc line hl).1) fun chunk hc line hl => (hlines chunk hc line hl).2)

/-! ## A line that is cut -/

theorem separators_end (n : Nat) : separators 10 (List.replicate n 97 ++ [10, 10]) = [n, n + 1] := by
  have hlen : (List.replicate n (97 : UInt8) ++ [10, 10]).length = n + 1 + 1 := by simp
  have hfront : (List.range n).filter (fun i => (List.replicate n (97 : UInt8) ++ [10, 10])[i]? = some 10) = [] := by
    rw [List.filter_eq_nil_iff]
    intro i hi
    rw [List.mem_range] at hi
    rw [List.getElem?_append_left (by rwa [List.length_replicate]), List.getElem?_replicate, if_pos hi]
    decide
  rw [separators, hlen, List.range_succ, List.range_succ, List.filter_append, List.filter_append, hfront]
  simp

theorem separators_none (n : Nat) : separators 10 (List.replicate n 97) = [] := by
  rw [separators, List.filter_eq_nil_iff]
  intro i hi
  rw [List.length_replicate, List.mem_range] at hi
  rw [List.getElem?_replicate, if_pos hi]
  decide

theorem lines_end (n : Nat) : lines (10 : UInt8) (List.replicate n 97 ++ [10, 10]) = [List.replicate n 97, []] := by
  have hsep : ∀ line ∈ [List.replicate n (97 : UInt8), []], (10 : UInt8) ∉ line := by
    intro line hl h
    simp only [List.mem_cons, List.not_mem_nil, or_false] at hl
    rcases hl with rfl | rfl
    · have := List.eq_of_mem_replicate h
      revert this
      decide
    · cases h
  have := lines_flatMap hsep
  simpa using this

theorem lines_open {n : Nat} (hn : 0 < n) : lines (10 : UInt8) (List.replicate n 97) = [List.replicate n 97] := by
  have hne : (10 : UInt8) ∉ List.replicate n (97 : UInt8) := by
    intro h
    have := List.eq_of_mem_replicate h
    revert this
    decide
  rw [← lines_line hne, lines_terminate]
  rintro (h | h)
  · rw [List.replicate_eq_nil_iff] at h
    omega
  · exact hne (List.mem_of_getLast? h)

/-- A file of two lines: `n` bytes, and none. -/
def longLine (n : Nat) : List UInt8 := List.replicate n 97 ++ [10, 10]

theorem take_longLine {n k : Nat} (h : k ≤ n) : (longLine n).take k = List.replicate k 97 := by
  rw [longLine, List.take_append_of_le_length (by rwa [List.length_replicate]), List.take_replicate, Nat.min_eq_left h]

theorem drop_longLine {n k : Nat} (h : k ≤ n) : (longLine n).drop k = longLine (n - k) := by
  rw [longLine, List.drop_append_of_le_length (by rwa [List.length_replicate]), List.drop_replicate, longLine]

theorem length_longLine (n : Nat) : (longLine n).length = n + 2 := by
  rw [longLine, List.length_append, List.length_replicate]
  rfl

/-- A buffer that is grown in search of lines is cut by what was found behind its first part. -/
theorem readToBuffer_grown {text buffer : List UInt8} {i j : Nat} (hbuffer : buffer ≠ [])
    (hlen : text.length = buffer.length + allocChunkSize) (hnone : separators 10 (text.take buffer.length) = [])
    (htwo : separators 10 (text.drop buffer.length) = [i, j]) :
    readToBuffer none 10 (Input.start ⟨[], .single text, []⟩ buffer) = .ok ⟨j + 1, true, text, .single [], []⟩ := by
  have hpos : 0 < buffer.length := List.length_pos_iff.2 hbuffer
  have htake : (text.take buffer.length).length = buffer.length := by
    rw [List.length_take, hlen]
    omega
  have hdrop : (text.drop buffer.length).length = allocChunkSize := by
    rw [List.length_drop, hlen]
    omega
  have hzeros : (List.replicate allocChunkSize (0 : UInt8)).length = allocChunkSize := List.length_replicate
  -- the buffer is filled, grown, filled again and cut
  have hfill : Loop.step none 10 ⟨.single text, [], [], buffer, true, 0, false⟩ =
      .inl ⟨.single (text.drop buffer.length), [], text.take buffer.length, [], false, 0, false⟩ :=
    Loop.step_read rfl hbuffer (by rw [hlen]; exact Nat.le_add_right _ _)
  have hgrow : Loop.step none 10 ⟨.single (text.drop buffer.length), [], text.take buffer.length, [], false, 0, false⟩ =
      .inl ⟨.single (text.drop buffer.length), [], text.take buffer.length, List.replicate allocChunkSize 0, false,
        (text.take buffer.length).length, false⟩ :=
    Loop.step_grow rfl rfl hnone
  have hrefill := Loop.step_read (s := ⟨.single (text.drop buffer.length), [], text.take buffer.length,
    List.replicate allocChunkSize 0, false, (text.take buffer.length).length, false⟩) rfl Loop.zeros_ne_nil
    (by rw [hzeros, hdrop])
  rw [hzeros, List.drop_eq_nil_of_le (Nat.le_of_eq hdrop), List.take_of_length_le (Nat.le_of_eq hdrop),
    List.take_append_drop] at hrefill
  have hcut : Loop.step none 10 ⟨.single [], [], text, [], false, (text.take buffer.length).length, false⟩ =
      .inr (.ok ⟨j + 1, true, text, .single [], []⟩) :=
    Loop.step_cut rfl rfl (by rw [Loop.found, htake]; exact htwo)
  have hstart : Input.start ⟨[], .single text, []⟩ buffer = ⟨.single text, [], [], buffer, true, 0, false⟩ := rfl
  rw [hstart, readToBuffer_inl hfill, readToBuffer_inl hgrow, readToBuffer_inl hrefill, readToBuffer_inr hcut]

theorem read_eq {maxBufferSize : Option Nat} {separator : UInt8} {buffer : List UInt8} {input : Input} {filled : Filled}
    (h : readToBuffer maxBufferSize separator (input.start buffer) = .ok filled) (hread : filled.read ≠ 0) :
    read maxBufferSize separator buffer input = .ok (some (parseLines separator (filled.buffer.take filled.read)),
      filled.shouldContinue, ⟨filled.buffer.drop filled.read, filled.file, filled.nextFiles⟩) := by
  rw [read, h]
  simp only [bind, Except.bind, pure, Except.pure, if_pos hread]

theorem readAll_next {maxBufferSize : Option Nat} {separator : UInt8} {buffers : Nat → List UInt8} {fuel n : Nat}
    {input input' : Input} {chunk : List (List UInt8)}
    (h : read maxBufferSize separator (buffers n) input = .ok (some chunk, true, input')) :
    readAll maxBufferSize separator buffers (fuel + 1) n input =
      (readAll maxBufferSize separator buffers fuel (n + 1) input').map fun r => (chunk :: r.1, r.2) := by
  simp only [readAll, h]
  rfl

/-- Three calls read such a file: the first line comes in two, and the last call finds nothing. -/
theorem readAll_longLine {k : Nat} {buffer : List UInt8} (hlen : buffer.length = k + 2) (fuel : Nat) :
    readAll none 10 (fun _ => buffer) (fuel + 3) 0 ⟨[], .single (longLine (k + allocChunkSize)), []⟩ =
      some ([[List.replicate allocChunkSize 97], [List.replicate k 97, []]], none) := by
  have hbuffer : buffer ≠ [] := fun h => by
    rw [h] at hlen
    cases hlen
  obtain ⟨a, ha⟩ : ∃ a, allocChunkSize = a + 1 + 1 := ⟨65534, rfl⟩
  have hle : k + 2 ≤ k + allocChunkSize := by omega
  have hsub : k + allocChunkSize - (k + 2) = a := by omega
  have hgrown : readToBuffer none 10 (Input.start ⟨[], .single (longLine (k + allocChunkSize)), []⟩ buffer) =
      .ok ⟨a + 1 + 1, true, longLine (k + allocChunkSize), .single [], []⟩ := by
    refine readToBuffer_grown (i := a) hbuffer ?_ ?_ ?_
    · rw [length_longLine, hlen]
      omega
    · rw [hlen, take_longLine hle]
      exact separators_none _
    · rw [hlen, drop_longLine hle, hsub]
      exact separators_end _
  have hfirst := read_eq hgrown (Nat.succ_ne_zero _)
  simp only [← ha, take_longLine (Nat.le_add_left allocChunkSize k), drop_longLine (Nat.le_add_left allocChunkSize k),
    Nat.add_sub_cancel] at hfirst
  rw [parseLines_eq (fun h => by rw [List.replicate_eq_nil_iff] at h; omega), lines_open (by omega)] at hfirst
  have hfull : readToBuffer none 10 (Input.start ⟨longLine k, .single [], []⟩ buffer) =
      .ok ⟨k + 1 + 1, true, longLine k, .single [], []⟩ := by
    apply readToBuffer_inr
    refine Loop.step_cut (i := k) rfl ?_ (separators_end _)
    simp only [Input.start]
    rw [length_longLine, List.drop_eq_nil_of_le (Nat.le_of_eq hlen)]
  have hsecond := read_eq hfull (Nat.succ_ne_zero _)
  simp only [List.take_of_length_le (Nat.le_of_eq (length_longLine k)),
    List.drop_eq_nil_of_le (Nat.le_of_eq (length_longLine k))] at hsecond
  rw [parseLines_eq (by simp [longLine]), longLine, lines_end, ← longLine] at hsecond
  have hthird : readToBuffer none 10 (Input.start ⟨[], .single [], []⟩ buffer) = .ok ⟨0, false, buffer, [], []⟩ := by
    apply readToBuffer_inr
    rw [Loop.step]
    simp only [Input.start, Reader.single, Reader.read, List.length_nil, List.drop_zero, if_neg hbuffer]
    rfl
  have hlast : read none 10 buffer ⟨[], .single [], []⟩ = .ok (none, false, ⟨buffer, [], []⟩) := by
    rw [read, hthird]
    rfl
  rw [readAll_next hfirst, readAll_next hsecond, readAll]
  simp only [hlast]
  rfl

theorem flatMap_ofLines (x y z : Line) : ([[x], [y, z]].filterMap Chunk.ofLines).flatMap Chunk.lines = [x, y, z] := by
  simp [Chunk.ofLines]

/-- The chunks of a file whose first line does not fit into the buffer. -/
theorem receive_longLine (platform : Platform settings) (hsep : settings.separator = 10) {k : Nat}
    {buffer : List UInt8} (hbuffer : platform.buffers 0 0 = fun _ => buffer) (hlen : buffer.length = k + 2) :
    (receive platform 0 0 (.single (longLine (k + allocChunkSize)))).flatMap Chunk.lines =
      [List.replicate allocChunkSize 97, List.replicate k 97, []] := by
  rw [receive, hsep, Reader.content_single, length_longLine, hbuffer]
  rw [show k + allocChunkSize + 2 + 2 = k + 1 + allocChunkSize + 3 by omega, readAll_longLine hlen]
  exact flatMap_ofLines _ _ _

/-- No line comes before another, so every file is sorted. -/
def noOrder : GlobalSettings := ⟨fun _ _ => .eq, true, false, 2, false, 10⟩

instance : Std.TransCmp noOrder.compareBy := { eq_swap := rfl, isLE_trans := fun _ _ => rfl }

theorem sorted_noOrder (lines : List Line) : Sorted noOrder.compareBy lines := List.pairwise_of_forall fun _ _ => rfl

/-- Three lines are written of the two of the file. -/
theorem mergeWithFileLimit_longLine {k : Nat} {buffer : List UInt8} (hlen : buffer.length = k + 2) :
    mergeWithFileLimit (plainPlatform noOrder buffer) 0 [.single (longLine (k + allocChunkSize))] ≠
      sortedLines noOrder ([.single (longLine (k + allocChunkSize))].flatMap (linesOf noOrder)) := by
  intro heq
  have hwritten := writeAllTo_written (plainPlatform noOrder buffer) 0 0
    (fun _ => [List.replicate allocChunkSize 97, List.replicate k 97, []])
    (fun i file (hi : [Reader.single (longLine (k + allocChunkSize))][i]? = some file) => by
      rw [List.getElem?_singleton] at hi
      split at hi
      · rename_i h
        subst h
        cases hi
        exact receive_longLine _ rfl rfl hlen
      · cases hi) (fun _ _ => sorted_noOrder _)
  have hle : [Reader.single (longLine (k + allocChunkSize))].length ≤ batchSizeAt (plainPlatform noOrder buffer) 0 :=
    Nat.le_of_succ_le (two_le_effectiveMergeBatchSize _ _ _)
  rw [mergeWithFileLimit, if_pos hle] at heq
  rw [heq] at hwritten
  have hthree := congrArg List.length (hwritten.unique (sortedLines_written _))
  simp only [sortedLines, noOrder, Bool.false_eq_true, if_false, List.length_mergeSort] at hthree
  simp [linesOf, longLine, lines_end] at hthree

/-- A buffer of 8192 bytes, and a first line of 73726. -/
theorem long_line_cut : ¬ ∀ (settings : GlobalSettings) [Std.TransCmp settings.compareBy] (platform : Platform settings),
    (settings.stable = false → settings.unique = false → ∀ a b, settings.compareBy a b = .eq → a = b) →
    (∀ call i n, 8192 ≤ (platform.buffers call i n).length) →
    ∀ files : List Reader, (∀ file ∈ files, file.Fine ∧ Sorted settings.compareBy (linesOf settings file)) →
      mergeWithFileLimit platform 0 files = sortedLines settings (files.flatMap (linesOf settings)) := by
  intro h
  have hlen : (List.replicate 8192 (0 : UInt8)).length = 8190 + 2 := List.length_replicate
  refine mergeWithFileLimit_longLine hlen (h noOrder _ (fun hstable => by cases hstable) ?_ _ ?_)
  · exact fun _ _ _ => Nat.le_of_eq List.length_replicate.symm
  · intro file hf
    rw [List.mem_singleton.1 hf]
    exact ⟨Reader.fine_single _, sorted_noOrder _⟩

end Peiosutils.Sort
