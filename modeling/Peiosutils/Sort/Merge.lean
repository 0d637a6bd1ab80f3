import Peiosutils.Lib.Heap
import Peiosutils.Sort.Chunks

/-!
# Merging sorted files (`merge.rs`)

`mergeWithoutLimit` reads the files into chunks and puts them into a heap, by their current lines, and `writeAllTo`
takes the least line off the heap until none is left. `mergeWithFileLimit` merges at most as many files at once as the
batch size allows, into temporary files, and merges these.
-/

set_option autoImplicit false

namespace Peiosutils.Sort

abbrev Line := List UInt8

/-- The settings that sorting and merging look at; `compareBy` is `compare_by` under them. -/
structure GlobalSettings where
  compareBy : Line → Line → Ordering
  stable : Bool
  unique : Bool
  mergeBatchSize : Nat
  hasSalt : Bool
  separator : UInt8

/-- The lines of a chunk. No empty chunk is sent. -/
structure Chunk where
  lines : List Line
  nonempty : lines ≠ []

def Chunk.ofLines (lines : List Line) : Option Chunk := if h : lines ≠ [] then some ⟨lines, h⟩ else none

/-- The lines as they are written to a file. -/
def writeLines (separator : UInt8) (lines : List Line) : List UInt8 := lines.flatMap (· ++ [separator])

/-! ## The files on the heap -/

/-- A file with its current chunk, and the chunks that are still to be received. -/
structure MergeableFile where
  currentChunk : Chunk
  receiver : List Chunk
  lineIdx : Nat
  fileNumber : Nat
  inChunk : lineIdx < currentChunk.lines.length

namespace MergeableFile

def currentLine (file : MergeableFile) : Line := file.currentChunk.lines.get ⟨file.lineIdx, file.inChunk⟩

/-- The lines of the file that are not written yet. -/
def left (file : MergeableFile) : List Line :=
  file.currentChunk.lines.drop file.lineIdx ++ file.receiver.flatMap Chunk.lines

/-- A file whose first chunk is just received; one without a chunk is not merged. -/
def ofChunks (fileNumber : Nat) : List Chunk → Option MergeableFile
  | [] => none
  | chunk :: receiver => some ⟨chunk, receiver, 0, fileNumber, List.length_pos_iff.2 chunk.nonempty⟩

/-- The file at its next line, which may be the first one of the next chunk. -/
def advance (file : MergeableFile) : Option MergeableFile :=
  if h : file.lineIdx + 1 < file.currentChunk.lines.length then
    some { file with lineIdx := file.lineIdx + 1, inChunk := h }
  else ofChunks file.fileNumber file.receiver

theorem left_eq_cons (file : MergeableFile) :
    file.left = file.currentLine :: (file.advance.map left).getD [] := by
  unfold left currentLine advance
  rw [List.drop_eq_getElem_cons file.inChunk, List.cons_append]
  congr 1
  split
  · rfl
  · rename_i hlast
    rw [List.drop_eq_nil_of_le (Nat.le_of_not_lt hlast), List.nil_append]
    cases file.receiver <;> simp [ofChunks]

end MergeableFile

/-- By the current line, and then by the file number. The heap is a max heap, so the order is reversed. -/
def fileComparator (settings : GlobalSettings) (a b : MergeableFile) : Ordering :=
  let cmp := settings.compareBy a.currentLine b.currentLine
  (if cmp = .eq then compare a.fileNumber b.fileNumber else cmp).swap

/-- `FileMerger`, with the line that was looked at last. -/
structure FileMerger {settings : GlobalSettings} (H : MaxHeap MergeableFile (fileComparator settings)) where
  heap : H.Carrier
  prev : Option Line

namespace FileMerger

variable {settings : GlobalSettings} {H : MaxHeap MergeableFile (fileComparator settings)}

/-- How many lines are left to write. -/
def work (m : FileMerger H) : Nat := ((H.elems m.heap).map fun file => file.left.length).sum

/-- Takes the least line; what is written of it, and the merger afterwards. -/
def writeNext (m : FileMerger H) : List Line × FileMerger H :=
  match H.peek m.heap with
  | none => ([], m)
  | some file =>
    let repeated := settings.unique && m.prev.any fun prev => settings.compareBy prev file.currentLine == .eq
    let out := if repeated then [] else [file.currentLine]
    let heap :=
      match file.advance with
      | some file' => H.setTop m.heap file'
      | none => H.pop m.heap
    (out, ⟨heap, some file.currentLine⟩)

theorem work_writeNext {m : FileMerger H} (h : H.elems m.heap ≠ []) : m.writeNext.2.work < m.work := by
  cases hpeek : H.peek m.heap with
  | none => exact absurd ((H.peek_eq_none _).1 hpeek) h
  | some file =>
    have hm := ((H.elems_pop hpeek).map fun file => file.left.length).sum_nat
    have hleft := congrArg List.length file.left_eq_cons
    rw [List.map_cons, List.sum_cons] at hm
    simp only [work, writeNext, hpeek]
    cases hadv : file.advance with
    | none =>
      rw [hadv] at hleft
      simp only [Option.map_none, Option.getD_none, List.length_cons, List.length_nil] at hleft ⊢
      omega
    | some file' =>
      have hset := ((H.elems_setTop hpeek file').map fun file => file.left.length).sum_nat
      rw [hadv] at hleft
      simp only [Option.map_some, Option.getD_some, List.length_cons, List.map_cons, List.sum_cons] at hleft hset ⊢
      omega

/-- `write_next` until the heap is empty. -/
def writeAllTo (m : FileMerger H) : List Line :=
  match _h : H.peek m.heap with
  | none => []
  | some _ => m.writeNext.1 ++ m.writeNext.2.writeAllTo
termination_by m.work
decreasing_by exact work_writeNext fun hnil => by simp [(H.peek_eq_none _).2 hnil] at _h

end FileMerger

/-! ## Merging files -/

/-- What the platform and the libraries do. -/
structure Platform (settings : GlobalSettings) where
  heap : MaxHeap MergeableFile (fileComparator settings)
  /-- `par_sort_unstable_by` -/
  parSortUnstableBy : List Line → List Line
  parSortUnstableBy_perm : ∀ lines, (parSortUnstableBy lines).Perm lines
  parSortUnstableBy_sorted : ∀ lines, (parSortUnstableBy lines).Pairwise fun a b => (settings.compareBy a b).isLE
  /-- `fd_soft_limit` and `current_open_fd_count` at each call. -/
  fdSoftLimit : Nat → Option Nat
  currentOpenFdCount : Nat → Option Nat
  /-- The reads of the temporary files, by the call and the number of the file. -/
  reopen : Nat → Nat → List UInt8 → Reader
  reopen_content : ∀ call i bytes, (reopen call i bytes).content = bytes
  reopen_fine : ∀ call i bytes message, Pull.failed message ∉ reopen call i bytes
  /-- The buffers for each read, by the call, the number of the file and the number of the read. -/
  buffers : Nat → Nat → Nat → List UInt8

/-- `effective_merge_batch_size`. -/
def effectiveMergeBatchSize (settings : GlobalSettings) (fdSoftLimit currentOpenFdCount : Option Nat) : Nat :=
  let batchSize := max settings.mergeBatchSize 2
  match fdSoftLimit with
  | none => batchSize
  | some limit =>
    let openFds := currentOpenFdCount.getD 3
    let reserved := 1 + 2 + 1 + if settings.hasSalt then 1 else 0
    let availableInputs := limit - (openFds + reserved)
    if 2 ≤ availableInputs then min batchSize availableInputs else 2

theorem two_le_effectiveMergeBatchSize (settings : GlobalSettings) (fdSoftLimit currentOpenFdCount : Option Nat) :
    2 ≤ effectiveMergeBatchSize settings fdSoftLimit currentOpenFdCount := by
  unfold effectiveMergeBatchSize
  cases fdSoftLimit with
  | none => exact Nat.le_max_right _ _
  | some limit =>
    dsimp only
    generalize limit - _ = availableInputs
    split
    · rename_i h
      exact Nat.le_min.2 ⟨Nat.le_max_right _ _, h⟩
    · exact Nat.le_refl 2

section

variable {settings : GlobalSettings} (platform : Platform settings)

/-- The chunks that the reader thread sends for a file. -/
def receive (call i : Nat) (file : Reader) : List Chunk :=
  match readAll none settings.separator (platform.buffers call i) (file.content.length + 2) 0 ⟨[], file, []⟩ with
  | some (chunks, _) => chunks.filterMap Chunk.ofLines
  | none => []

/-- `merge_without_limit`; `first` is the number of the first file in the call. -/
def mergeWithoutLimit (call first : Nat) (files : List Reader) : FileMerger platform.heap where
  heap := platform.heap.fromVec
    (files.zipIdx.filterMap fun (file, i) => MergeableFile.ofChunks i (receive platform call (first + i) file))
  prev := none

/-- The batches, from the first file on, with the batch that is being filled: the lines of each temporary file. -/
def mergeBatches (call batchSize : Nat) : (first : Nat) → (batch files : List Reader) → List (List Line)
  | first, batch, [] => if batch = [] then [] else [(mergeWithoutLimit platform call first batch).writeAllTo]
  | first, batch, file :: files =>
    let batch := batch ++ [file]
    if batchSize ≤ batch.length then
      (mergeWithoutLimit platform call first batch).writeAllTo ::
        mergeBatches call batchSize (first + batch.length) [] files
    else mergeBatches call batchSize first batch files

theorem length_mergeBatches (call : Nat) {batchSize : Nat} (hb : 2 ≤ batchSize) (first : Nat)
    (batch files : List Reader) (h : batch.length < batchSize) :
    (mergeBatches platform call batchSize first batch files).length * batchSize <
      batch.length + files.length + batchSize := by
  induction files generalizing first batch with
  | nil =>
    unfold mergeBatches
    split
    · rw [List.length_nil]
      omega
    · rename_i hne
      have := List.length_pos_iff.2 hne
      rw [List.length_singleton]
      omega
  | cons file files ih =>
    unfold mergeBatches
    dsimp only
    split
    · rename_i hfull
      have hlen := ih (first + (batch ++ [file]).length) [] (by rw [List.length_nil]; omega)
      rw [List.length_append, List.length_singleton] at hfull hlen
      rw [List.length_append, List.length_singleton, List.length_cons, List.length_cons, Nat.succ_mul]
      rw [List.length_nil] at hlen
      omega
    · rename_i hfull
      rw [List.length_append, List.length_singleton] at hfull
      have hlen := ih first (batch ++ [file]) (by rw [List.length_append, List.length_singleton]; omega)
      rw [List.length_append, List.length_singleton] at hlen
      rw [List.length_cons]
      omega

/-- The temporary files of a call, as they are read by the next one. -/
def temporaryFiles (call batchSize : Nat) (files : List Reader) : List Reader :=
  (mergeBatches platform call batchSize 0 [] files).zipIdx.map fun (lines, i) =>
    platform.reopen (call + 1) i (writeLines settings.separator lines)

theorem length_temporaryFiles (call : Nat) {batchSize : Nat} (hb : 2 ≤ batchSize) {files : List Reader}
    (h : batchSize < files.length) : (temporaryFiles platform call batchSize files).length < files.length := by
  have hlen := length_mergeBatches platform call hb 0 [] files (by rw [List.length_nil]; omega)
  rw [List.length_nil, Nat.zero_add] at hlen
  rw [temporaryFiles, List.length_map, List.length_zipIdx]
  by_contra hge
  have hmul := Nat.mul_le_mul_right batchSize (Nat.le_of_not_lt hge)
  have htwo := Nat.mul_le_mul_left files.length hb
  omega

/-- The batch size at a call. -/
def batchSizeAt (call : Nat) : Nat :=
  effectiveMergeBatchSize settings (platform.fdSoftLimit call) (platform.currentOpenFdCount call)

/-- `merge_with_file_limit`: the lines that are written. -/
def mergeWithFileLimit (call : Nat) (files : List Reader) : List Line :=
  if files.length ≤ batchSizeAt platform call then (mergeWithoutLimit platform call 0 files).writeAllTo
  else mergeWithFileLimit (call + 1) (temporaryFiles platform call (batchSizeAt platform call) files)
termination_by files.length
decreasing_by
  rename_i h
  exact length_temporaryFiles platform call (two_le_effectiveMergeBatchSize _ _ _) (Nat.lt_of_not_le h)

end

end Peiosutils.Sort
