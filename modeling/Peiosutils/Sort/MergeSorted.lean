import Mathlib.Data.List.Nodup
import Peiosutils.Lib.Stable
import Peiosutils.Sort.Merge

/-!
# Merging keeps the order of the files

What is left of each file, by its number, says what is on the heap (`Holds`). The least line of the heap is not greater
than any line that is left, and greater than none of an earlier file, so with the lines that follow it makes the sorted
list of all of them (`sortOf_least`). So a merge writes the lines of its files sorted, equal ones in the order of the
files (`writeAllTo_written`), and so does a merge through temporary files (`Written.flatten`).
-/

set_option autoImplicit false

namespace Peiosutils.Sort

open Stable

variable {settings : GlobalSettings}

/-- What is written for the lines `xs`: sorted, and under `unique` the first of each class only. -/
def Written (settings : GlobalSettings) (xs ys : List Line) : Prop :=
  if settings.unique then UniqOf settings.compareBy xs ys else SortOf settings.compareBy xs ys

/-! ## The files on the heap -/

/-- `rests` is what is left of each file, and `files` are those that have lines left. -/
structure Holds (rests : List (List Line)) (files : List MergeableFile) : Prop where
  nodup : (files.map MergeableFile.fileNumber).Nodup
  left : ∀ file ∈ files, rests[file.fileNumber]? = some file.left
  all : ∀ i rest, rests[i]? = some rest → rest ≠ [] → ∃ file ∈ files, file.fileNumber = i

namespace Holds

theorem perm {rests : List (List Line)} {files files' : List MergeableFile} (h : Holds rests files)
    (hp : files.Perm files') : Holds rests files' where
  nodup := (hp.map _).nodup_iff.1 h.nodup
  left file hf := h.left file (hp.mem_iff.2 hf)
  all i rest hi hne := by
    obtain ⟨file, hf, hn⟩ := h.all i rest hi hne
    exact ⟨file, hp.mem_iff.1 hf, hn⟩

theorem fileNumber_advance {file file' : MergeableFile} (h : file.advance = some file') :
    file'.fileNumber = file.fileNumber := by
  unfold MergeableFile.advance at h
  split at h
  · cases h
    rfl
  · revert h
    cases file.receiver with
    | nil => simp [MergeableFile.ofChunks]
    | cons chunk receiver =>
      intro h
      cases h
      rfl

/-- A line is taken off a file. -/
theorem advance {rests : List (List Line)} {file : MergeableFile} {others : List MergeableFile}
    (h : Holds rests (file :: others)) :
    Holds (rests.set file.fileNumber ((file.advance.map MergeableFile.left).getD []))
      (file.advance.toList ++ others) := by
  have hlt : file.fileNumber < rests.length := (List.getElem?_eq_some_iff.1 (h.left file List.mem_cons_self)).1
  have hnd := List.nodup_cons.1 h.nodup
  have hother : ∀ g ∈ others, g.fileNumber ≠ file.fileNumber := fun g hg heq =>
    hnd.1 (heq ▸ List.mem_map_of_mem hg)
  refine ⟨?_, ?_, ?_⟩
  · cases hadv : file.advance with
    | none => exact hnd.2
    | some file' => exact (List.nodup_cons (l := others.map _)).2 ⟨fileNumber_advance hadv ▸ hnd.1, hnd.2⟩
  · intro g hg
    rcases List.mem_append.1 hg with hg | hg
    · have hadv : file.advance = some g := Option.mem_toList.1 hg
      rw [fileNumber_advance hadv, List.getElem?_set_self hlt, hadv]
      rfl
    · rw [List.getElem?_set_ne (hother g hg).symm]
      exact h.left g (List.mem_cons_of_mem _ hg)
  · intro i rest hi hne
    by_cases hif : i = file.fileNumber
    · subst hif
      rw [List.getElem?_set_self hlt] at hi
      cases hi
      cases hadv : file.advance with
      | none => simp [hadv] at hne
      | some file' => exact ⟨file', by simp, fileNumber_advance hadv⟩
    · rw [List.getElem?_set_ne (Ne.symm hif)] at hi
      obtain ⟨g, hg, hn⟩ := h.all i rest hi hne
      rcases List.mem_cons.1 hg with rfl | hg
      · exact absurd hn.symm hif
      · exact ⟨g, List.mem_append_right _ hg, hn⟩

/-- Files that are put on the heap with their first chunks, numbered in order. -/
theorem ofChunks {α : Type} (files : List α) (chunks : α → Nat → List Chunk) :
    Holds (files.zipIdx.map fun (file, i) => (chunks file i).flatMap Chunk.lines)
      (files.zipIdx.filterMap fun (file, i) => MergeableFile.ofChunks i (chunks file i)) := by
  have hnumber : ∀ {i : Nat} {cs : List Chunk} {g : MergeableFile}, MergeableFile.ofChunks i cs = some g →
      g.fileNumber = i ∧ g.left = cs.flatMap Chunk.lines := by
    intro i cs g hg
    cases cs with
    | nil => cases hg
    | cons c cs =>
      cases hg
      exact ⟨rfl, by simp [MergeableFile.left]⟩
  refine ⟨?_, ?_, ?_⟩
  · have hsub : ((files.zipIdx.filterMap fun (file, i) => MergeableFile.ofChunks i (chunks file i)).map
        MergeableFile.fileNumber).Sublist (files.zipIdx.map Prod.snd) := by
      generalize files.zipIdx = zs
      induction zs with
      | nil => exact List.Sublist.refl _
      | cons z zs ih =>
        obtain ⟨file, i⟩ := z
        rw [List.filterMap_cons]
        split
        · exact ih.cons _
        · rename_i g hg
          rw [List.map_cons, List.map_cons, (hnumber hg).1]
          exact ih.cons_cons _
    refine hsub.nodup ?_
    rw [List.zipIdx_map_snd]
    exact List.nodup_range'
  · intro g hg
    obtain ⟨⟨file, i⟩, hmem, hg⟩ := List.mem_filterMap.1 hg
    obtain ⟨rfl, hleft⟩ := hnumber hg
    rw [List.mem_zipIdx_iff_getElem?] at hmem
    rw [List.getElem?_map, List.getElem?_zipIdx, hmem, hleft]
    simp
  · intro i rest hi hne
    rw [List.getElem?_map, List.getElem?_zipIdx] at hi
    cases hfile : files[i]? with
    | none => simp [hfile] at hi
    | some file =>
      simp only [hfile, Option.map_some, Option.some.injEq, Nat.zero_add] at hi
      cases hcs : chunks file i with
      | nil => simp [← hi, hcs] at hne
      | cons c cs =>
        refine ⟨_, List.mem_filterMap.2 ⟨(file, i), ?_, congrArg (MergeableFile.ofChunks i) hcs⟩, rfl⟩
        rw [List.mem_zipIdx_iff_getElem?]
        exact hfile

end Holds

/-! ## The least line -/

theorem isLE_fileComparator [Std.TransCmp settings.compareBy] {a b : MergeableFile} :
    (fileComparator settings a b).isLE ↔ settings.compareBy b.currentLine a.currentLine = .lt ∨
      settings.compareBy b.currentLine a.currentLine = .eq ∧ b.fileNumber ≤ a.fileNumber := by
  rw [fileComparator, show settings.compareBy b.currentLine a.currentLine =
    (settings.compareBy a.currentLine b.currentLine).swap from Std.OrientedCmp.eq_swap]
  cases settings.compareBy a.currentLine b.currentLine with
  | lt => simp
  | gt => simp
  | eq => simp [Nat.isGE_compare]

instance [Std.TransCmp settings.compareBy] : Std.TransCmp (fileComparator settings) where
  eq_swap {a b} := by
    rw [fileComparator, fileComparator, show settings.compareBy b.currentLine a.currentLine =
      (settings.compareBy a.currentLine b.currentLine).swap from Std.OrientedCmp.eq_swap]
    cases settings.compareBy a.currentLine b.currentLine with
    | lt => rfl
    | gt => rfl
    | eq => exact congrArg Ordering.swap (Nat.compare_swap b.fileNumber a.fileNumber).symm
  isLE_trans {a b c} hab hbc := by
    rw [isLE_fileComparator] at *
    rcases hab with hab | ⟨hab, hn⟩ <;> rcases hbc with hbc | ⟨hbc, hn'⟩
    · exact Or.inl (Std.TransCmp.lt_trans hbc hab)
    · exact Or.inl (Std.TransCmp.lt_of_eq_of_lt hbc hab)
    · exact Or.inl (Std.TransCmp.lt_of_lt_of_eq hbc hab)
    · exact Or.inr ⟨Std.TransCmp.eq_trans hbc hab, Nat.le_trans hn' hn⟩

/-- The top of the heap is not greater than the other files, and comes before the equal ones among them. -/
theorem least_of_peek [Std.TransCmp settings.compareBy] {H : MaxHeap MergeableFile (fileComparator settings)}
    {heap : H.Carrier} {file : MergeableFile} (h : H.peek heap = some file) {g : MergeableFile}
    (hg : g ∈ H.elems heap) : (settings.compareBy file.currentLine g.currentLine).isLE ∧
      (g.fileNumber < file.fileNumber → settings.compareBy file.currentLine g.currentLine = .lt) := by
  rcases isLE_fileComparator.1 (H.peek_greatest h g hg) with hlt | ⟨heq, hle⟩
  · exact ⟨by rw [hlt]; rfl, fun _ => hlt⟩
  · exact ⟨by rw [heq]; rfl, fun h => absurd hle (Nat.not_le_of_lt h)⟩

/-- A line that is not greater than any other, and less than those of the lists before its own, comes first. -/
theorem sortOf_least [Std.TransCmp settings.compareBy] {x : Line} {t ys : List Line} {pre post : List (List Line)}
    (hle : ∀ y ∈ (pre ++ t :: post).flatten, (settings.compareBy x y).isLE)
    (hlt : ∀ y ∈ pre.flatten, settings.compareBy x y = .lt)
    (h : SortOf settings.compareBy (pre ++ t :: post).flatten ys) :
    SortOf settings.compareBy (pre ++ (x :: t) :: post).flatten (x :: ys) where
  sorted := by
    refine sorted_cons.2 ⟨fun y hy => hle y ?_, h.sorted⟩
    exact (mem_of_classes h.classes).1 hy
  classes k := by
    have hrest : classOf settings.compareBy k ys = classOf settings.compareBy k pre.flatten ++
        (classOf settings.compareBy k t ++ classOf settings.compareBy k post.flatten) := by
      rw [h.classes, List.flatten_append, List.flatten_cons, classOf_append, classOf_append]
    rw [classOf_cons, hrest, List.flatten_append, List.flatten_cons, classOf_append, classOf_append, classOf_cons]
    split
    · rename_i hk
      have hpre : classOf settings.compareBy k pre.flatten = [] := by
        rw [classOf_eq_nil]
        intro y hy
        rw [Std.TransCmp.congr_left hk, hlt y hy]
        decide
      rw [hpre]
      rfl
    · rfl

/-! ## Writing all lines -/

/-- The merger takes the lines that are left in sorted order, and writes those that are not repeated. -/
theorem writeAllTo_visits [Std.TransCmp settings.compareBy] {H : MaxHeap MergeableFile (fileComparator settings)}
    (m : FileMerger H) : ∀ rests : List (List Line), Holds rests (H.elems m.heap) →
      (∀ rest ∈ rests, Sorted settings.compareBy rest) →
      ∃ visited, SortOf settings.compareBy rests.flatten visited ∧
        m.writeAllTo = if settings.unique then dropRepeats settings.compareBy m.prev visited else visited := by
  induction m using FileMerger.writeAllTo.induct with
  | case1 m hpeek =>
    intro rests hholds _
    have hnil := (H.peek_eq_none _).1 hpeek
    have hflat : rests.flatten = [] := by
      rw [List.flatten_eq_nil_iff]
      intro rest hrest
      by_contra hne
      obtain ⟨i, hi⟩ := List.mem_iff_getElem?.1 hrest
      obtain ⟨file, hf, _⟩ := hholds.all i rest hi hne
      rw [hnil] at hf
      cases hf
    refine ⟨[], by rw [hflat]; exact .of_sorted List.Pairwise.nil, ?_⟩
    rw [FileMerger.writeAllTo]
    split
    · simp [dropRepeats]
    · rename_i hsome
      rw [hpeek] at hsome
      cases hsome
  | case2 m file hpeek ih =>
    intro rests hholds hsorted
    have hfile := hholds.left file (H.mem_of_peek hpeek)
    obtain ⟨hlt, hget⟩ := List.getElem?_eq_some_iff.1 hfile
    generalize ht : (file.advance.map MergeableFile.left).getD [] = t at *
    have hleft : file.left = file.currentLine :: t := ht ▸ file.left_eq_cons
    -- the lists before and after that of the file
    have hsplit : rests = rests.take file.fileNumber ++ (file.currentLine :: t) :: rests.drop (file.fileNumber + 1) := by
      rw [← hleft, ← hget, List.getElem_cons_drop, List.take_append_drop]
    have hset : rests.set file.fileNumber t =
        rests.take file.fileNumber ++ t :: rests.drop (file.fileNumber + 1) :=
      List.set_eq_take_append_cons_drop.trans (if_pos hlt)
    -- every line that is left stands behind the current line of its file
    have hfront : ∀ i rest, rests[i]? = some rest → ∀ y ∈ rest, (settings.compareBy file.currentLine y).isLE ∧
        (i < file.fileNumber → settings.compareBy file.currentLine y = .lt) := by
      intro i rest hi y hy
      obtain ⟨g, hg, rfl⟩ := hholds.all i rest hi (List.ne_nil_of_mem hy)
      have hrest : rest = g.left := by simpa [hholds.left g hg] using hi.symm
      have hgs : Sorted settings.compareBy rest := hsorted rest (List.mem_of_getElem? hi)
      rw [hrest, g.left_eq_cons] at hy hgs
      have hgy : (settings.compareBy g.currentLine y).isLE := by
        rcases List.mem_cons.1 hy with rfl | hy
        · simp [Std.ReflCmp.compare_self]
        · exact List.rel_of_pairwise_cons hgs hy
      obtain ⟨hle, hbefore⟩ := least_of_peek hpeek hg
      exact ⟨Std.TransCmp.isLE_trans hle hgy, fun h => Std.TransCmp.lt_of_lt_of_isLE (hbefore h) hgy⟩
    have hholds' : Holds (rests.set file.fileNumber t) (H.elems m.writeNext.2.heap) := by
      have hadv := ht ▸ (hholds.perm (H.elems_pop hpeek)).advance
      simp only [FileMerger.writeNext, hpeek]
      cases hnext : file.advance with
      | none => simpa [hnext] using hadv
      | some file' => exact (by simpa [hnext] using hadv : Holds _ (file' :: _)).perm (H.elems_setTop hpeek file').symm
    have hprev : m.writeNext.2.prev = some file.currentLine := by simp only [FileMerger.writeNext, hpeek]
    have htail : Sorted settings.compareBy t := by
      have := hsorted _ (List.mem_of_getElem? hfile)
      rw [hleft] at this
      exact this.of_cons
    obtain ⟨visited, hvisited, hout⟩ := ih (rests.set file.fileNumber t) hholds' (by
      intro rest hrest
      rcases List.mem_or_eq_of_mem_set hrest with hrest | rfl
      · exact hsorted rest hrest
      · exact htail)
    refine ⟨file.currentLine :: visited, ?_, ?_⟩
    · rw [hset] at hvisited
      rw [hsplit]
      apply sortOf_least _ _ hvisited
      · intro y hmem
        obtain ⟨rest, hrest, hy⟩ := List.mem_flatten.1 hmem
        rw [← hset] at hrest
        rcases List.mem_or_eq_of_mem_set hrest with hrest | rfl
        · obtain ⟨i, hi⟩ := List.mem_iff_getElem?.1 hrest
          exact (hfront i rest hi y hy).1
        · refine (hfront _ _ hfile y ?_).1
          rw [hleft]
          exact List.mem_cons_of_mem _ hy
      · intro y hy
        obtain ⟨rest, hrest, hy⟩ := List.mem_flatten.1 hy
        obtain ⟨i, hi, rfl⟩ := List.mem_take_iff_getElem.1 hrest
        exact (hfront i _ (List.getElem?_eq_getElem _) y hy).2 (by omega)
    · rw [FileMerger.writeAllTo]
      split
      · rename_i hnone
        rw [hpeek] at hnone
        cases hnone
      · rw [hout, hprev]
        simp only [FileMerger.writeNext, hpeek, dropRepeats]
        cases settings.unique with
        | false => rfl
        | true => cases m.prev.any fun prev => settings.compareBy prev file.currentLine == .eq <;> rfl

/-! ## Writing what is written -/

/-- What is written of a class. -/
def keep (settings : GlobalSettings) (xs : List Line) : List Line := if settings.unique then xs.take 1 else xs

theorem written_iff_sorted {xs ys : List Line} : Written settings xs ys ↔ Sorted settings.compareBy ys ∧
    ∀ k, classOf settings.compareBy k ys = keep settings (classOf settings.compareBy k xs) := by
  unfold Written keep
  split
  · exact ⟨fun h => ⟨h.sorted, h.classes⟩, fun h => ⟨h.1, h.2⟩⟩
  · exact ⟨fun h => ⟨h.sorted, h.classes⟩, fun h => ⟨h.1, h.2⟩⟩

theorem keep_sublist (xs : List Line) : (keep settings xs).Sublist xs := by
  unfold keep
  split
  · exact List.take_sublist 1 xs
  · exact List.Sublist.refl xs

/-- Keeping of each list first changes nothing. -/
theorem keep_flatten (xss : List (List Line)) :
    keep settings (xss.map (keep settings)).flatten = keep settings xss.flatten := by
  unfold keep
  cases settings.unique with
  | false => simp
  | true =>
    simp only [if_true]
    induction xss with
    | nil => rfl
    | cons xs xss ih =>
      cases xs with
      | nil => simpa using ih
      | cons x xs => simp

namespace Written

theorem sorted {xs ys : List Line} (h : Written settings xs ys) : Sorted settings.compareBy ys := (written_iff_sorted.1 h).1

variable [Std.TransCmp settings.compareBy]

theorem mem {xs ys : List Line} (h : Written settings xs ys) {y : Line} (hy : y ∈ ys) : y ∈ xs := by
  have hself : y ∈ classOf settings.compareBy y ys := mem_classOf.2 ⟨hy, Std.ReflCmp.compare_self⟩
  rw [(written_iff_sorted.1 h).2] at hself
  exact (mem_classOf.1 ((keep_sublist _).subset hself)).1

theorem unique {xs ys zs : List Line} (hy : Written settings xs ys) (hz : Written settings xs zs) : ys = zs :=
  eq_of_classes hy.sorted hz.sorted fun k => ((written_iff_sorted.1 hy).2 k).trans ((written_iff_sorted.1 hz).2 k).symm

omit [Std.TransCmp settings.compareBy] in
/-- Merging what was merged. -/
theorem flatten {xss yss : List (List Line)} (h : List.Forall₂ (Written settings) xss yss) {zs : List Line}
    (hz : Written settings yss.flatten zs) : Written settings xss.flatten zs := by
  rw [written_iff_sorted] at hz ⊢
  refine ⟨hz.1, fun k => ?_⟩
  have hmap : yss.map (classOf settings.compareBy k) =
      (xss.map (classOf settings.compareBy k)).map (keep settings) := by
    clear hz
    induction h with
    | nil => rfl
    | cons hxy _ ih => rw [List.map_cons, List.map_cons, List.map_cons, ih, (written_iff_sorted.1 hxy).2]
  rw [hz.2, classOf_flatten, classOf_flatten, hmap, keep_flatten]

end Written

/-- A merge of sorted files writes their lines. -/
theorem writeAllTo_written [Std.TransCmp settings.compareBy] (platform : Platform settings) (call first : Nat)
    {files : List Reader} (linesOf : Reader → List Line)
    (hlines : ∀ i file, files[i]? = some file → (receive platform call (first + i) file).flatMap Chunk.lines = linesOf file)
    (hsorted : ∀ file ∈ files, Sorted settings.compareBy (linesOf file)) :
    Written settings (files.flatMap linesOf) (mergeWithoutLimit platform call first files).writeAllTo := by
  have hrests : (files.zipIdx.map fun p => (receive platform call (first + p.2) p.1).flatMap Chunk.lines) =
      files.map linesOf := by
    apply List.ext_getElem?
    intro i
    rw [List.getElem?_map, List.getElem?_map, List.getElem?_zipIdx]
    cases hfile : files[i]? with
    | none => rfl
    | some file => simp [hlines i file hfile]
  have hholds := (Holds.ofChunks files fun file i => receive platform call (first + i) file).perm
    (platform.heap.elems_fromVec _).symm
  rw [hrests] at hholds
  obtain ⟨visited, hvisited, hout⟩ := writeAllTo_visits (mergeWithoutLimit platform call first files) _ hholds (by
    intro rest hrest
    obtain ⟨file, hf, rfl⟩ := List.mem_map.1 hrest
    exact hsorted file hf)
  rw [← List.flatMap_def] at hvisited
  rw [hout, Written]
  split
  · have huniq := uniqOf_dropRepeats hvisited.sorted
    exact ⟨huniq.sorted, fun k => by rw [← hvisited.classes]; exact huniq.classes k⟩
  · exact hvisited

end Peiosutils.Sort
