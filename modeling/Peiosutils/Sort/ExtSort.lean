import Peiosutils.Sort.Reread

/-!
# The external sort (`ext_sort/threaded.rs`)

`extSort` sorts the chunks, and prints one, merges two, or writes all to temporary files and merges these. Where no
temporary file is cut wrongly when it is read (`RereadsFromStart`), all ways print the same, the stable sort of the lines
(`extSort_written`), and a merge of sorted files prints the stable merge (`mergeWithFileLimit_written`). Files with lines
of less than 4096 bytes are never cut wrongly (`readsFromStart_of_short`).
-/

set_option autoImplicit false

namespace Peiosutils.Sort

open Stable Lines

variable {settings : GlobalSettings}

/-! ## The code -/

/-- What the calls of `chunks::read` send: those that return `true`, and the last one. -/
structure Sent where
  chunks : List Chunk
  last : Option Chunk

def Sent.all (input : Sent) : List Chunk := input.chunks ++ input.last.toList

/-- `ReadResult`, with the lines of the chunks and of the temporary files. -/
inductive ReadResult where
  | emptyInput
  | sortedSingleChunk (chunk : List Line)
  | sortedTwoChunks (first second : List Line)
  | wroteChunksToFile (tmpFiles : List (List Line))

section

variable (platform : Platform settings)

/-- `sort_by`. -/
def sortBy (lines : List Line) : List Line :=
  if settings.stable || settings.unique then lines.mergeSort fun a b => (settings.compareBy a b).isLE
  else platform.parSortUnstableBy lines

/-- `read_write_loop`: the input is kept in memory when one of the first two calls is the last. -/
def readWriteLoop (input : Sent) : ReadResult :=
  match input.chunks, input.last with
  | [], none => .emptyInput
  | [], some chunk => .sortedSingleChunk (sortBy platform chunk.lines)
  | [chunk], none => .sortedSingleChunk (sortBy platform chunk.lines)
  | [first], some second => .sortedTwoChunks (sortBy platform first.lines) (sortBy platform second.lines)
  | _, _ => .wroteChunksToFile (input.all.map fun chunk => sortBy platform chunk.lines)

/-- `dedup_by` of the iterators: what is equal to the line kept last is dropped. -/
def dedupBy (settings : GlobalSettings) (lines : List Line) : List Line :=
  lines.destutter fun a b => settings.compareBy a b ≠ .eq

/-- The lines that `reader_writer` prints. -/
def extSort (input : Sent) : List Line :=
  match readWriteLoop platform input with
  | .wroteChunksToFile tmpFiles =>
    mergeWithFileLimit platform 0
      (tmpFiles.zipIdx.map fun (lines, i) => platform.reopen 0 i (writeLines settings.separator lines))
  | .sortedSingleChunk chunk => if settings.unique then dedupBy settings chunk else chunk
  | .sortedTwoChunks a b =>
    let merged := a.merge b fun lineA lineB => settings.compareBy lineA lineB != .gt
    if settings.unique then dedupBy settings merged else merged
  | .emptyInput => []

/-- The calls of `merge_with_file_limit` that follow, with their files. -/
inductive MergeCalled : Nat → List Reader → Nat → List Reader → Prop where
  | first (call : Nat) (files : List Reader) : MergeCalled call files call files
  | next {call call' : Nat} {files files' : List Reader} (h : batchSizeAt platform call < files.length)
      (hs : MergeCalled (call + 1) (temporaryFiles platform call (batchSizeAt platform call) files) call' files') :
      MergeCalled call files call' files'

/-- No buffer that was grown in search of lines is cut when a file is read, in this call or a later one. -/
def ReadsFromStart (call : Nat) (files : List Reader) : Prop :=
  ∀ call' files', MergeCalled platform call files call' files' → ∀ i file, files'[i]? = some file →
    CutsFromStart settings.separator (platform.buffers call' i) file

/-- The temporary files of an input that does not stay in memory are read so. -/
def RereadsFromStart (input : Sent) : Prop :=
  ∀ tmpFiles, readWriteLoop platform input = .wroteChunksToFile tmpFiles → ReadsFromStart platform 0
    (tmpFiles.zipIdx.map fun (lines, i) => platform.reopen 0 i (writeLines settings.separator lines))

end

/-! ## Merging with a file limit -/

section

variable (platform : Platform settings)

/-- The lines of a file. -/
abbrev linesOf (settings : GlobalSettings) (file : Reader) : List Line := lines settings.separator file.content

theorem sorted_of_written {xss yss : List (List Line)} (h : List.Forall₂ (Written settings) xss yss)
    {ys : List Line} (hys : ys ∈ yss) : Sorted settings.compareBy ys := by
  induction h with
  | nil => cases hys
  | cons hxy _ ih =>
    rcases List.mem_cons.1 hys with rfl | hys
    · exact hxy.sorted
    · exact ih hys

/-- Temporary files that hold sorted lines: what is read of them is what was written. -/
theorem temporary_lines (call : Nat) {yss : List (List Line)}
    (hsep : ∀ ys ∈ yss, ∀ line ∈ ys, settings.separator ∉ line) :
    (yss.zipIdx.map fun (lines, i) => platform.reopen call i (writeLines settings.separator lines)).flatMap
      (linesOf settings) = yss.flatten := by
  have hmap : ((yss.zipIdx.map fun (lines, i) => platform.reopen call i (writeLines settings.separator lines)).map
      (linesOf settings)) = yss := by
    apply List.ext_getElem?
    intro i
    rw [List.getElem?_map, List.getElem?_map, List.getElem?_zipIdx]
    cases hys : yss[i]? with
    | none => rfl
    | some ys => simp [linesOf, lines_reopen platform call _ (hsep ys (List.mem_of_getElem? hys))]
  rw [List.flatMap_def, hmap]

theorem temporary_sorted (call : Nat) {yss : List (List Line)}
    (hsep : ∀ ys ∈ yss, ∀ line ∈ ys, settings.separator ∉ line)
    (hsorted : ∀ ys ∈ yss, Sorted settings.compareBy ys) :
    ∀ file ∈ yss.zipIdx.map fun (lines, i) => platform.reopen call i (writeLines settings.separator lines),
      file.Fine ∧ Sorted settings.compareBy (linesOf settings file) := by
  intro file hf
  obtain ⟨⟨ys, i⟩, hmem, rfl⟩ := List.mem_map.1 hf
  have hys : ys ∈ yss := List.mem_of_getElem? (List.mem_zipIdx_iff_getElem?.1 hmem)
  refine ⟨platform.reopen_fine call i _, ?_⟩
  rw [linesOf, lines_reopen platform call i (hsep ys hys)]
  exact hsorted ys hys

/-- The chunks that are written to temporary files. -/
theorem written_of_sortOf {xss yss : List (List Line)} (h : List.Forall₂ (SortOf settings.compareBy) xss yss)
    {zs : List Line} (hz : Written settings yss.flatten zs) : Written settings xss.flatten zs := by
  rw [written_iff_sorted] at hz ⊢
  refine ⟨hz.1, fun k => ?_⟩
  have hmap : yss.map (classOf settings.compareBy k) = xss.map (classOf settings.compareBy k) := by
    clear hz
    induction h with
    | nil => rfl
    | cons hxy _ ih => rw [List.map_cons, List.map_cons, ih, hxy.classes]
  rw [hz.2, classOf_flatten, classOf_flatten, hmap]

variable [Std.TransCmp settings.compareBy]

/-- Files that are read well and sorted are merged into sorted temporary files, batch by batch. -/
theorem mergeBatches_written (call batchSize : Nat) (files : List Reader) : ∀ (first : Nat) (batch : List Reader),
    (∀ file ∈ batch ++ files, file.Fine ∧ Sorted settings.compareBy (linesOf settings file)) →
    (∀ i file, (batch ++ files)[i]? = some file →
      CutsFromStart settings.separator (platform.buffers call (first + i)) file) →
    ∃ xss, xss.flatten = (batch ++ files).flatMap (linesOf settings) ∧
      List.Forall₂ (Written settings) xss (mergeBatches platform call batchSize first batch files) := by
  have hbatch : ∀ (first : Nat) (batch : List Reader),
      (∀ file ∈ batch, file.Fine ∧ Sorted settings.compareBy (linesOf settings file)) →
      (∀ i file, batch[i]? = some file → CutsFromStart settings.separator (platform.buffers call (first + i)) file) →
      Written settings (batch.flatMap (linesOf settings)) (mergeWithoutLimit platform call first batch).writeAllTo := by
    intro first batch hfiles hcuts
    apply writeAllTo_written platform call first (linesOf settings)
    · intro i file hi
      exact receive_lines platform call (first + i) (hfiles file (List.mem_of_getElem? hi)).1 (hcuts i file hi)
    · exact fun file hf => (hfiles file hf).2
  induction files with
  | nil =>
    intro first batch hfiles hcuts
    rw [List.append_nil] at hfiles hcuts ⊢
    unfold mergeBatches
    split
    · rename_i hnil
      exact ⟨[], by simp [hnil], List.Forall₂.nil⟩
    · exact ⟨[batch.flatMap (linesOf settings)], by simp, .cons (hbatch first batch hfiles hcuts) .nil⟩
  | cons file files ih =>
    intro first batch hfiles hcuts
    have happ : batch ++ file :: files = (batch ++ [file]) ++ files := by simp
    rw [happ] at hfiles hcuts ⊢
    unfold mergeBatches
    dsimp only
    split
    · obtain ⟨xss, hflat, hforall⟩ := ih (first + (batch ++ [file]).length) []
        (fun f hf => hfiles f (List.mem_append_right _ hf)) (fun i f hi => by
          have := hcuts ((batch ++ [file]).length + i) f (by
            rw [List.getElem?_append_right (Nat.le_add_right _ _), Nat.add_sub_cancel_left]
            exact hi)
          rwa [← Nat.add_assoc] at this)
      refine ⟨(batch ++ [file]).flatMap (linesOf settings) :: xss, ?_, .cons (hbatch first _ ?_ ?_) hforall⟩
      · rw [List.flatten_cons, hflat, List.nil_append, ← List.flatMap_append]
      · exact fun f hf => hfiles f (List.mem_append_left _ hf)
      · intro i f hi
        have hlt := (List.getElem?_eq_some_iff.1 hi).1
        exact hcuts i f (by rwa [List.getElem?_append_left hlt])
    · exact ih first (batch ++ [file]) hfiles hcuts

theorem mem_lines_of_written {xss yss : List (List Line)} (h : List.Forall₂ (Written settings) xss yss) {line : Line}
    {ys : List Line} (hys : ys ∈ yss) (hl : line ∈ ys) : line ∈ xss.flatten := by
  induction h with
  | nil => cases hys
  | cons hxy _ ih =>
    rw [List.flatten_cons, List.mem_append]
    rcases List.mem_cons.1 hys with rfl | hys
    · exact Or.inl (hxy.mem hl)
    · exact Or.inr (ih hys)

/-- The temporary files of one round: sorted, and with no other lines than the files. -/
theorem temporaryFiles_written (call : Nat) (files : List Reader)
    (hfiles : ∀ file ∈ files, file.Fine ∧ Sorted settings.compareBy (linesOf settings file))
    (hcuts : ∀ i file, files[i]? = some file → CutsFromStart settings.separator (platform.buffers call i) file) :
    (∀ file ∈ temporaryFiles platform call (batchSizeAt platform call) files,
      file.Fine ∧ Sorted settings.compareBy (linesOf settings file)) ∧
    (∀ file ∈ temporaryFiles platform call (batchSizeAt platform call) files, ∀ line ∈ linesOf settings file,
      line ∈ files.flatMap (linesOf settings)) ∧
    ∀ zs, Written settings ((temporaryFiles platform call (batchSizeAt platform call) files).flatMap
      (linesOf settings)) zs → Written settings (files.flatMap (linesOf settings)) zs := by
  obtain ⟨xss, hflat, hforall⟩ := mergeBatches_written platform call (batchSizeAt platform call) files 0 []
    hfiles (fun i file hi => by
      rw [Nat.zero_add]
      exact hcuts i file hi)
  have hmem : ∀ ys ∈ mergeBatches platform call (batchSizeAt platform call) 0 [] files, ∀ line ∈ ys,
      line ∈ files.flatMap (linesOf settings) := by
    intro ys hys line hl
    have := mem_lines_of_written hforall hys hl
    rwa [hflat] at this
  have hsep : ∀ ys ∈ mergeBatches platform call (batchSizeAt platform call) 0 [] files, ∀ line ∈ ys,
      settings.separator ∉ line := by
    intro ys hys line hl
    obtain ⟨file, _, hl⟩ := List.mem_flatMap.1 (hmem ys hys line hl)
    exact not_mem_of_mem_lines hl
  refine ⟨temporary_sorted platform (call + 1) hsep fun ys hys => sorted_of_written hforall hys, ?_, ?_⟩
  · intro file hf line hl
    have hin : line ∈ (temporaryFiles platform call (batchSizeAt platform call) files).flatMap (linesOf settings) :=
      List.mem_flatMap.2 ⟨file, hf, hl⟩
    rw [temporaryFiles, temporary_lines platform (call + 1) hsep] at hin
    obtain ⟨ys, hys, hl⟩ := List.mem_flatten.1 hin
    exact hmem ys hys line hl
  · intro zs hz
    rw [temporaryFiles, temporary_lines platform (call + 1) hsep] at hz
    have := Written.flatten hforall hz
    rwa [hflat] at this

/-- Files that are read well and sorted are merged, in any number of rounds. -/
theorem mergeWithFileLimit_written (call : Nat) (files : List Reader)
    (hfiles : ∀ file ∈ files, file.Fine ∧ Sorted settings.compareBy (linesOf settings file))
    (hreads : ReadsFromStart platform call files) :
    Written settings (files.flatMap (linesOf settings)) (mergeWithFileLimit platform call files) := by
  induction call, files using mergeWithFileLimit.induct platform with
  | case1 call files hle =>
    rw [mergeWithFileLimit, if_pos hle]
    refine writeAllTo_written platform call 0 (linesOf settings) ?_ fun file hf => (hfiles file hf).2
    intro i file hi
    have hcuts := hreads call files (.first call files) i file hi
    rw [Nat.zero_add]
    exact receive_lines platform call i (hfiles file (List.mem_of_getElem? hi)).1 hcuts
  | case2 call files hle ih =>
    rw [mergeWithFileLimit, if_neg hle]
    obtain ⟨hsorted, _, hwritten⟩ := temporaryFiles_written platform call files hfiles (hreads call files (.first call files))
    exact hwritten _ (ih hsorted fun call' files' hcalled =>
      hreads call' files' (.next (Nat.lt_of_not_le hle) hcalled))

/-- Lines of less than 4096 bytes are always read well into buffers of 8192 bytes. -/
theorem readsFromStart_of_short (hbuffers : ∀ call i n, 8192 ≤ (platform.buffers call i n).length) (call : Nat)
    (files : List Reader) (hfiles : ∀ file ∈ files, file.Fine ∧ Sorted settings.compareBy (linesOf settings file))
    (hshort : ∀ file ∈ files, ∀ line ∈ linesOf settings file, line.length < 4096) :
    ReadsFromStart platform call files := by
  have hcuts : ∀ (call : Nat) (files : List Reader),
      (∀ file ∈ files, ∀ line ∈ linesOf settings file, line.length < 4096) → ∀ i file, files[i]? = some file →
      CutsFromStart settings.separator (platform.buffers call i) file := fun call files hshort i file hi =>
    cutsFromStart_of_dense (hbuffers call i) (dense_of_lines (hshort file (List.mem_of_getElem? hi)))
  intro call' files' hcalled
  induction hcalled with
  | first call files => exact hcuts call files hshort
  | @next call call' files files' _ _ ih =>
    obtain ⟨hsorted, hmem, _⟩ := temporaryFiles_written platform call files hfiles (hcuts call files hshort)
    apply ih hsorted
    intro file hf line hl
    obtain ⟨file', hf', hl'⟩ := List.mem_flatMap.1 (hmem file hf line hl)
    exact hshort file' hf' line hl'

/-! ## Sorting -/

/-- An unstable sort is stable where equal lines are the same. -/
theorem sortBy_sortOf (hsame : settings.stable = false → settings.unique = false →
    ∀ a b, settings.compareBy a b = .eq → a = b) (lines : List Line) :
    SortOf settings.compareBy lines (sortBy platform lines) := by
  unfold sortBy
  split
  · exact sortOf_mergeSort lines
  · rename_i h
    rw [Bool.or_eq_true, not_or, Bool.not_eq_true, Bool.not_eq_true] at h
    refine ⟨platform.parSortUnstableBy_sorted lines, fun k => ?_⟩
    have hrep : ∀ xs : List Line, classOf settings.compareBy k xs =
        List.replicate (classOf settings.compareBy k xs).length k := fun xs =>
      List.eq_replicate_iff.2 ⟨rfl, fun a ha => (hsame h.1 h.2 k a (mem_classOf.1 ha).2).symm⟩
    have hlen : (classOf settings.compareBy k (platform.parSortUnstableBy lines)).length =
        (classOf settings.compareBy k lines).length :=
      ((platform.parSortUnstableBy_perm lines).filter _).length_eq
    rw [hrep (platform.parSortUnstableBy lines), hrep lines, hlen]

/-- What is printed of sorted lines. -/
theorem printed_written {xs ys : List Line} (h : SortOf settings.compareBy xs ys) :
    Written settings xs (if settings.unique then dedupBy settings ys else ys) := by
  unfold Written
  split
  · rw [dedupBy, destutter_eq_dropRepeats]
    have huniq := uniqOf_dropRepeats h.sorted
    exact ⟨huniq.sorted, fun k => by rw [← h.classes]; exact huniq.classes k⟩
  · exact h

/-- The temporary files of sorted chunks. -/
theorem sorted_chunks (hsame : settings.stable = false → settings.unique = false →
    ∀ a b, settings.compareBy a b = .eq → a = b) {chunks : List Chunk}
    (hsep : ∀ chunk ∈ chunks, ∀ line ∈ chunk.lines, settings.separator ∉ line) :
    (∀ ys ∈ chunks.map fun chunk => sortBy platform chunk.lines, ∀ line ∈ ys, settings.separator ∉ line) ∧
    (∀ ys ∈ chunks.map fun chunk => sortBy platform chunk.lines, Sorted settings.compareBy ys) ∧
    List.Forall₂ (SortOf settings.compareBy) (chunks.map Chunk.lines)
      (chunks.map fun chunk => sortBy platform chunk.lines) := by
  have hsort := sortBy_sortOf platform hsame
  refine ⟨?_, ?_, ?_⟩
  · intro ys hys line hl
    obtain ⟨chunk, hc, rfl⟩ := List.mem_map.1 hys
    exact hsep chunk hc line ((mem_of_classes (hsort chunk.lines).classes).1 hl)
  · intro ys hys
    obtain ⟨chunk, _, rfl⟩ := List.mem_map.1 hys
    exact (hsort chunk.lines).sorted
  · rw [List.forall₂_map_left_iff, List.forall₂_map_right_iff, List.forall₂_same]
    exact fun chunk _ => hsort chunk.lines

/-- All ways through the external sort print the sorted lines. -/
theorem extSort_written (hsame : settings.stable = false → settings.unique = false →
    ∀ a b, settings.compareBy a b = .eq → a = b) (input : Sent)
    (hsep : ∀ chunk ∈ input.all, ∀ line ∈ chunk.lines, settings.separator ∉ line)
    (hreads : RereadsFromStart platform input) :
    Written settings (input.all.flatMap Chunk.lines) (extSort platform input) := by
  have hsort := sortBy_sortOf platform hsame
  obtain ⟨hsep', hsorted, hforall⟩ := sorted_chunks platform hsame hsep
  obtain ⟨chunks, last⟩ := input
  unfold RereadsFromStart at hreads
  unfold extSort
  match chunks, last with
  | [], none =>
    have hnil : SortOf settings.compareBy [] [] := .of_sorted List.Pairwise.nil
    simpa [readWriteLoop, Sent.all, dedupBy] using printed_written hnil
  | [], some chunk => simpa [readWriteLoop, Sent.all] using printed_written (hsort chunk.lines)
  | [chunk], none => simpa [readWriteLoop, Sent.all] using printed_written (hsort chunk.lines)
  | [first], some second =>
    have hmerge := sortOf_merge (hsort first.lines).sorted (hsort second.lines).sorted
    have hboth : SortOf settings.compareBy (first.lines ++ second.lines) _ := ⟨hmerge.sorted, fun k => by
      rw [hmerge.classes, classOf_append, classOf_append, (hsort first.lines).classes, (hsort second.lines).classes]⟩
    simpa [readWriteLoop, Sent.all] using printed_written hboth
  | first :: second :: chunks, last =>
    have hwritten := mergeWithFileLimit_written platform 0 _ (temporary_sorted platform 0 hsep' hsorted) (hreads _ rfl)
    rw [temporary_lines platform 0 hsep'] at hwritten
    exact written_of_sortOf hforall hwritten

/-- Temporary files with short lines are always read well. -/
theorem rereadsFromStart_of_short (hbuffers : ∀ call i n, 8192 ≤ (platform.buffers call i n).length)
    (hsame : settings.stable = false → settings.unique = false → ∀ a b, settings.compareBy a b = .eq → a = b)
    (input : Sent) (hsep : ∀ chunk ∈ input.all, ∀ line ∈ chunk.lines, settings.separator ∉ line)
    (hshort : ∀ chunk ∈ input.all, ∀ line ∈ chunk.lines, line.length < 4096) : RereadsFromStart platform input := by
  intro tmpFiles htmp
  have hall : tmpFiles = input.all.map fun chunk => sortBy platform chunk.lines := by
    unfold readWriteLoop at htmp
    split at htmp <;> cases htmp
    rfl
  obtain ⟨hsep', hsorted, _⟩ := sorted_chunks platform hsame hsep
  rw [← hall] at hsep' hsorted
  refine readsFromStart_of_short platform hbuffers 0 _ (temporary_sorted platform 0 hsep' hsorted) ?_
  intro file hf line hl
  have hin := List.mem_flatMap.2 ⟨file, hf, hl⟩
  rw [temporary_lines platform 0 hsep', hall] at hin
  obtain ⟨ys, hys, hl⟩ := List.mem_flatten.1 hin
  obtain ⟨chunk, hc, rfl⟩ := List.mem_map.1 hys
  exact hshort chunk hc line ((mem_of_classes (sortBy_sortOf platform hsame chunk.lines).classes).1 hl)

end

end Peiosutils.Sort
