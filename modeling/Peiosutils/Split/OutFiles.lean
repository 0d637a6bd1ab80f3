import Mathlib.Data.List.Basic
import Peiosutils.Lib.While

/-!
# The output files of `split` (`ManageOutFiles`)

The files that are written side by side, each with a writer that is there or not. Where the system does not open one
more file, the writer of another one is closed, and that file is only appended to from then on. Whatever is opened and
closed, no file loses what it holds (`getWriter_spec`).
-/

set_option autoImplicit false

namespace Peiosutils.Split

open While (Stop)

/-! ## The files -/

/-- An output file, with what has been written to it. -/
structure OutFile where
  /-- `maybe_writer` is there. -/
  isOpen : Bool := false
  isNew : Bool := true
  content : List UInt8 := []
  deriving DecidableEq, Repr

/-- `instantiate_current_writer`: a new file is created, another one is opened to be appended to. -/
def OutFile.instantiate (file : OutFile) : OutFile :=
  { file with isOpen := true, content := if file.isNew then [] else file.content }

/-- The writer is flushed and closed. -/
def OutFile.close (file : OutFile) : OutFile := { file with isOpen := false, isNew := false }

/-- The output files, and how often a file was to be opened. -/
structure OutFiles where
  files : List OutFile := []
  attempts : Nat := 0
  deriving DecidableEq, Repr

/-- How many writers there are. -/
def opened (files : List OutFile) : Nat := files.countP OutFile.isOpen

-- whether an attempt to open a file succeeds, while so many writers are open
variable (canOpen : (attempt opened : Nat) → Bool)

/-- `init`, behind the files that have been initialized. -/
def initFrom (isWriterOptional : Bool) : (numFiles : Nat) → OutFiles → OutFiles
  | 0, out => out
  | numFiles + 1, out =>
    if isWriterOptional then initFrom isWriterOptional numFiles { out with files := out.files ++ [{}] }
    else
      -- a file that cannot be opened now is left to `get_writer`
      let file : OutFile := if canOpen out.attempts (opened out.files) then OutFile.instantiate {} else {}
      initFrom isWriterOptional numFiles ⟨out.files ++ [file], out.attempts + 1⟩

def init (numFiles : Nat) (isWriterOptional : Bool) : OutFiles := initFrom canOpen isWriterOptional numFiles {}

/-- Close the first writer that is not that of `idx`; `i` is the index of the first file. -/
def closeOther (idx : Nat) : (i : Nat) → List OutFile → Option (List OutFile)
  | _, [] => none
  | i, file :: files =>
    if i ≠ idx && file.isOpen then some (file.close :: files) else (closeOther idx (i + 1) files).map (file :: ·)

theorem opened_closeOther {idx i : Nat} {files files' : List OutFile} (h : closeOther idx i files = some files') :
    opened files' < opened files := by
  induction files generalizing i files' with
  | nil => cases h
  | cons file files ih =>
    unfold closeOther at h
    split at h
    · rename_i hopen
      obtain rfl := Option.some.inj h
      have hfile : file.isOpen = true := (Bool.and_eq_true_iff.1 hopen).2
      simp [opened, OutFile.close, hfile]
    · obtain ⟨files'', h'', rfl⟩ := Option.map_eq_some_iff.1 h
      have := ih h''
      simp only [opened, List.countP_cons] at this ⊢
      omega

def instantiateWriter (idx : Nat) (out : OutFiles) : Except Stop OutFiles :=
  match out.files[idx]? with
  | none => .error .panic
  | some file =>
    if canOpen out.attempts (opened out.files) then .ok ⟨out.files.set idx file.instantiate, out.attempts + 1⟩
    else
      match _h : closeOther idx 0 out.files with
      | none => .error .failed
      | some files => instantiateWriter idx ⟨files, out.attempts + 1⟩
termination_by opened out.files
decreasing_by exact opened_closeOther _h

def getWriter (idx : Nat) (out : OutFiles) : Except Stop OutFiles :=
  match out.files[idx]? with
  | none => .error .panic
  | some file => if file.isOpen then .ok out else instantiateWriter canOpen idx out

/-- `write_all` to the writer of a file that is open. -/
def OutFiles.write (out : OutFiles) (idx : Nat) (bytes : List UInt8) : OutFiles :=
  { out with files := out.files.modify idx fun file => { file with content := file.content ++ bytes } }

def OutFiles.contents (out : OutFiles) : List (List UInt8) := out.files.map OutFile.content

/-! ## Nothing is lost -/

/-- A file that is to be created holds nothing. -/
def Fresh (files : List OutFile) : Prop := ∀ file ∈ files, file.isOpen = false → file.isNew = true → file.content = []

theorem Fresh.cons {file : OutFile} {files : List OutFile} (hfile : file.isOpen = false → file.isNew = true →
    file.content = []) (h : Fresh files) : Fresh (file :: files) := by
  intro other hother
  rcases List.mem_cons.1 hother with rfl | hother
  · exact hfile
  · exact h other hother

/-- Closing a writer leaves what the files hold, and the file that is asked for. -/
theorem closeOther_spec {idx i : Nat} {files files' : List OutFile} (h : closeOther idx i files = some files')
    (hfresh : Fresh files) : files'.map OutFile.content = files.map OutFile.content ∧ Fresh files' ∧
      ∀ k, i + k = idx → files'[k]? = files[k]? := by
  induction files generalizing i files' with
  | nil => cases h
  | cons file files ih =>
    have hrest : Fresh files := fun other hother => hfresh other (List.mem_cons_of_mem file hother)
    unfold closeOther at h
    split at h
    · rename_i hopen
      obtain rfl := Option.some.inj h
      refine ⟨rfl, hrest.cons fun _ hnew => (by cases hnew), fun k hk => ?_⟩
      cases k with
      | zero =>
        simp only [Nat.add_zero] at hk
        simp [hk] at hopen
      | succ k => rfl
    · obtain ⟨files'', h'', rfl⟩ := Option.map_eq_some_iff.1 h
      obtain ⟨hcontent, hfresh'', hkept⟩ := ih h'' hrest
      refine ⟨by rw [List.map_cons, List.map_cons, hcontent], hfresh''.cons (hfresh file List.mem_cons_self), ?_⟩
      intro k hk
      cases k with
      | zero => rfl
      | succ k =>
        rw [List.getElem?_cons_succ, List.getElem?_cons_succ]
        exact hkept k (by omega)

/-- Where there is no writer to close, no writer is open. -/
theorem opened_of_closeOther {idx i : Nat} {files : List OutFile} (h : closeOther idx i files = none)
    (hidx : ∀ k file, i + k = idx → files[k]? = some file → file.isOpen = false) : opened files = 0 := by
  induction files generalizing i with
  | nil => rfl
  | cons file files ih =>
    unfold closeOther at h
    split at h
    · cases h
    · rename_i hopen
      have hrest := ih (Option.map_eq_none_iff.1 h) fun k other hk hother => hidx (k + 1) other (by omega) hother
      have hfile : file.isOpen = false := by
        by_cases hi : i = idx
        · exact hidx 0 file hi rfl
        · simpa [hi] using hopen
      simpa [opened, hfile] using hrest

/-- A file is opened in the end, if one can be opened while no other is. -/
theorem instantiateWriter_spec {canOpen : Nat → Nat → Bool} (hopen : ∀ attempt, canOpen attempt 0 = true) {idx : Nat}
    {out : OutFiles} {file : OutFile} (hfile : out.files[idx]? = some file) (hclosed : file.isOpen = false)
    (hfresh : Fresh out.files) :
    ∃ out', instantiateWriter canOpen idx out = .ok out' ∧ out'.contents = out.contents ∧ Fresh out'.files ∧
      ∃ file', out'.files[idx]? = some file' ∧ file'.isOpen = true := by
  fun_induction instantiateWriter canOpen idx out with
  | case1 out hnone =>
    rw [hnone] at hfile
    cases hfile
  | case2 out file' hfile' hcan =>
    obtain rfl : file = file' := Option.some.inj (hfile.symm.trans hfile')
    refine ⟨_, rfl, ?_, fun other hother => ?_, file.instantiate, ?_, rfl⟩
    · have hcontent : file.instantiate.content = file.content := by
        unfold OutFile.instantiate
        split
        · rename_i hnew
          exact (hfresh file (List.mem_of_getElem? hfile) hclosed hnew).symm
        · rfl
      show (out.files.set idx file.instantiate).map OutFile.content = out.files.map OutFile.content
      obtain ⟨hlt, hget⟩ := List.getElem?_eq_some_iff.1 hfile
      have hlt' : idx < (out.files.map OutFile.content).length := by rwa [List.length_map]
      have hmap : file.content = (out.files.map OutFile.content)[idx] := by rw [List.getElem_map, hget]
      rw [List.map_set, hcontent, hmap, List.set_getElem_self]
    · rcases List.mem_or_eq_of_mem_set hother with hother | rfl
      · exact hfresh other hother
      · exact fun h => (by cases h)
    · exact List.getElem?_set_self (List.getElem?_eq_some_iff.1 hfile).1
  | case3 out file' hfile' hcan hnone =>
    obtain rfl : file = file' := Option.some.inj (hfile.symm.trans hfile')
    have hzero : opened out.files = 0 := by
      refine opened_of_closeOther hnone fun k other hk hother => ?_
      rw [Nat.zero_add] at hk
      subst hk
      rw [← Option.some.inj (hfile.symm.trans hother)]
      exact hclosed
    rw [hzero, hopen] at hcan
    exact absurd rfl hcan
  | case4 out file' hfile' hcan files hclose ih =>
    obtain ⟨hcontent, hfresh', hkept⟩ := closeOther_spec hclose hfresh
    obtain ⟨out', hout', hcontent', hrest⟩ := ih ((hkept idx (Nat.zero_add idx)).trans hfile) hfresh'
    exact ⟨out', hout', hcontent'.trans hcontent, hrest⟩

/-- A writer is there for each of the files, and nothing that has been written is lost. -/
theorem getWriter_spec {canOpen : Nat → Nat → Bool} (hopen : ∀ attempt, canOpen attempt 0 = true) {idx : Nat}
    {out : OutFiles} (hidx : idx < out.files.length) (hfresh : Fresh out.files) :
    ∃ out', getWriter canOpen idx out = .ok out' ∧ out'.contents = out.contents ∧ Fresh out'.files ∧
      ∃ file', out'.files[idx]? = some file' ∧ file'.isOpen = true := by
  obtain ⟨file, hfile⟩ : ∃ file, out.files[idx]? = some file := ⟨_, List.getElem?_eq_getElem hidx⟩
  unfold getWriter
  rw [hfile]
  cases hclosed : file.isOpen with
  | true => exact ⟨out, by simp [hclosed], rfl, hfresh, file, hfile, hclosed⟩
  | false =>
    simp only [hclosed, Bool.false_eq_true, if_false]
    exact instantiateWriter_spec hopen hfile hclosed hfresh

/-- What a file that is asked for and written to holds then. -/
theorem getWriter_write {canOpen : Nat → Nat → Bool} (hopen : ∀ attempt, canOpen attempt 0 = true) {idx : Nat}
    {out : OutFiles} (hidx : idx < out.contents.length) (hfresh : Fresh out.files) (bytes : List UInt8) :
    ∃ out', getWriter canOpen idx out = .ok out' ∧ Fresh (out'.write idx bytes).files ∧
      (out'.write idx bytes).contents = out.contents.modify idx (· ++ bytes) := by
  obtain ⟨out', hout', hcontent, hfresh', file, hfile, hopened⟩ :=
    getWriter_spec hopen (by rwa [OutFiles.contents, List.length_map] at hidx) hfresh
  refine ⟨out', hout', fun other hother hclosed hnew => ?_, ?_⟩
  · obtain ⟨i, hi⟩ := List.mem_iff_getElem?.1 hother
    rw [OutFiles.write, List.getElem?_modify, Option.map_eq_map, Option.map_eq_some_iff] at hi
    obtain ⟨before, hbefore, rfl⟩ := hi
    by_cases hi : idx = i
    · subst hi
      rw [hfile] at hbefore
      rw [if_pos rfl, ← Option.some.inj hbefore] at hclosed
      exact absurd (hopened.symm.trans hclosed) (by simp)
    · rw [if_neg hi] at hclosed hnew ⊢
      exact hfresh' before (List.mem_of_getElem? hbefore) hclosed hnew
  · rw [← hcontent]
    refine List.ext_getElem? fun i => ?_
    simp only [OutFiles.contents, OutFiles.write, List.getElem?_map, List.getElem?_modify]
    cases out'.files[i]? with
    | none => rfl
    | some file =>
      simp only [Option.map_some]
      split <;> rfl

/-- At the start every file is there to be written, and holds nothing. -/
theorem init_spec (canOpen : Nat → Nat → Bool) (numFiles : Nat) (isWriterOptional : Bool) :
    Fresh (init canOpen numFiles isWriterOptional).files ∧
      (init canOpen numFiles isWriterOptional).contents = List.replicate numFiles [] := by
  have hrun : ∀ (n : Nat) (out : OutFiles), Fresh out.files →
      Fresh (initFrom canOpen isWriterOptional n out).files ∧
        (initFrom canOpen isWriterOptional n out).contents = out.contents ++ List.replicate n [] := by
    intro n
    induction n with
    | zero => exact fun out h => ⟨h, (List.append_nil _).symm⟩
    | succ n ih =>
      intro out h
      have happ : ∀ file : OutFile, file.content = [] → ∀ attempts,
          Fresh (out.files ++ [file]) ∧ OutFiles.contents ⟨out.files ++ [file], attempts⟩ = out.contents ++ [[]] := by
        intro file hfile attempts
        refine ⟨fun other hother => ?_, by rw [OutFiles.contents, List.map_append, List.map_singleton, hfile]; rfl⟩
        rcases List.mem_append.1 hother with hother | hother
        · exact h other hother
        · rw [List.mem_singleton.1 hother]
          exact fun _ _ => hfile
      have hstep : ∀ file : OutFile, file.content = [] → ∀ attempts,
          Fresh (initFrom canOpen isWriterOptional n ⟨out.files ++ [file], attempts⟩).files ∧
            (initFrom canOpen isWriterOptional n ⟨out.files ++ [file], attempts⟩).contents =
              out.contents ++ List.replicate (n + 1) [] := by
        intro file hfile attempts
        obtain ⟨hfresh, hcontent⟩ := happ file hfile attempts
        obtain ⟨hfresh', hcontent'⟩ := ih ⟨out.files ++ [file], attempts⟩ hfresh
        refine ⟨hfresh', ?_⟩
        rw [hcontent', hcontent, List.append_assoc, List.replicate_succ]
        rfl
      unfold initFrom
      split
      · exact hstep {} rfl out.attempts
      · exact hstep _ (by split <;> rfl) _
  obtain ⟨hfresh, hcontent⟩ := hrun numFiles {} (fun file hfile => (by cases hfile))
  exact ⟨hfresh, hcontent⟩

end Peiosutils.Split
