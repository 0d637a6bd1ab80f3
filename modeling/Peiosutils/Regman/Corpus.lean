import Peiosutils.Lib.Keyed
import Peiosutils.Regman.Fragment
import Mathlib.Data.List.Lex
import Mathlib.Data.Prod.Lex

/-!
# The corpus and its scan (`corpus.rs`, `scan.rs`)

A fragment is a file of the corpus directory whose extension is `regman`. A scan goes through the fragments in the
order of their paths, passes over those whose bytes hold neither the query nor a `<`, and sorts what it found by
provider and anchor.
-/

set_option autoImplicit false

namespace Peiosutils.Regman

open Utf8 Keyed

/-- The bytes of a path. -/
abbrev PathBuf := List UInt8

/-- `b'/'`. -/
def separator : UInt8 := 47

/-- `b'.'`. -/
def dot : UInt8 := 46

/-- `dir.join(name)`, for the name of a directory entry. -/
def join (dir : PathBuf) (name : List UInt8) : PathBuf :=
  if dir = [] ∨ dir.getLast? = some separator then dir ++ name else dir ++ separator :: name

structure IoError where
  /-- `e.kind() == ErrorKind::NotFound`. -/
  notFound : Bool
  message : String
  deriving DecidableEq, Repr

/-- An error that is returned (`Error::Io`), or a panic. -/
inductive Fault where
  | io (message : String)
  | panic
  deriving DecidableEq, Repr

/-- What the program sees of the file system. -/
structure Fs where
  /-- The names that `std::fs::read_dir` gives, in its order. -/
  readDir : PathBuf → Except IoError (List (List UInt8))
  /-- `std::fs::read_to_string`. -/
  readToString : PathBuf → Except IoError Str
  nodup : ∀ dir names, readDir dir = .ok names → names.Nodup
  plain : ∀ dir names, readDir dir = .ok names → ∀ name ∈ names, name ≠ [] ∧ separator ∉ name
  /-- A name that is not listed is not there. -/
  absent : ∀ dir names, readDir dir = .ok names → ∀ name, name ≠ [] → separator ∉ name → name ∉ names →
    ∃ e, readToString (join dir name) = .error e ∧ e.notFound = true
  /-- A `String` is no longer than `isize::MAX`. -/
  bounded : ∀ path text, readToString path = .ok text → (encode text).length < 2 ^ 63

/-- `?` on an `std::io::Result`. -/
def lift {α : Type} : Except IoError α → Except Fault α
  | .ok x => .ok x
  | .error e => .error (.io e.message)

/-! ## Names -/

/-- `Path::file_name`, for a path that does not end in a separator. -/
def fileName (path : PathBuf) : List UInt8 := path.rtakeWhile (· ≠ separator)

/-- A file name in front of and behind its last dot. -/
def splitAtDot (name : List UInt8) : Option (List UInt8) × Option (List UInt8) :=
  if name = [dot, dot] then (some name, none)
  else if dot ∉ name then (none, some name)
  else
    let after := name.rtakeWhile (· ≠ dot)
    let before := (name.rdropWhile (· ≠ dot)).dropLast
    if before = [] then (some name, none) else (some before, some after)

/-- `Path::extension`. -/
def extension (path : PathBuf) : Option (List UInt8) :=
  let (before, after) := splitAtDot (fileName path)
  before.bind fun _ => after

/-- `Path::file_stem`. -/
def fileStem (path : PathBuf) : Option (List UInt8) :=
  let (before, after) := splitAtDot (fileName path)
  before.or after

/-- `from_utf8_lossy`, as characters. -/
def toStringLossy (bytes : List UInt8) : Str := lossyChars bytes.length bytes

/-- `str::from_utf8`: the string whose bytes they are. -/
def fromUtf8 (bytes : List UInt8) : Option Str :=
  let s := toStringLossy bytes
  if encode s = bytes then some s else none

theorem toStringLossy_encode (s : Str) : toStringLossy (encode s) = s := lossyChars_encode s _ (le_refl _)

theorem fromUtf8_eq_some {bytes : List UInt8} {s : Str} : fromUtf8 bytes = some s ↔ bytes = encode s := by
  unfold fromUtf8
  constructor
  · intro h
    simp only [Option.ite_none_right_eq_some, Option.some.injEq] at h
    rw [← h.2, h.1]
  · rintro rfl
    simp [toStringLossy_encode]

@[simp] theorem fromUtf8_encode (s : Str) : fromUtf8 (encode s) = some s := fromUtf8_eq_some.2 rfl

/-- Provider name for a fragment path. -/
def providerOf (path : PathBuf) : Str := ((fileStem path).bind fromUtf8).getD ['?']

/-- `Some("regman")`, as bytes. -/
def regmanExtension : List UInt8 := encode "regman".toList

/-- The order of strings, and of paths in one directory: that of their bytes. -/
def byteKey (bytes : List UInt8) : List Nat := bytes.map UInt8.toNat

/-- Every `*.regman` fragment of the directory, sorted by path. -/
def fragments (fs : Fs) (dir : PathBuf) : Except Fault (List PathBuf) :=
  match fs.readDir dir with
  | .ok names => .ok (sortOn byteKey ((names.map (join dir)).filter (extension · = some regmanExtension)))
  | .error e => if e.notFound then .ok [] else .error (.io e.message)

/-! ## Scanning -/

/-- One matched record together with where it came from. -/
structure Hit where
  provider : Str
  file : PathBuf
  record : Record
  deriving DecidableEq, Repr

def isExact (anchor folded : Str) : Bool := matchesExact anchor folded

def isUnderKey (anchor foldedPath : Str) : Bool := matchesUnderKey anchor foldedPath

/-- What hits are sorted by: provider, then anchor. -/
def hitKey (h : Hit) : List Nat ×ₗ List Nat := toLex (byteKey (encode h.provider), byteKey (encode h.record.anchor))

def sortByProvider (hits : List Hit) : List Hit := sortOn hitKey hits

/-- The matching records of one file, unless its bytes rule them out. -/
def scanFile (fs : Fs) (file : PathBuf) (needle : List UInt8) (pred : Record → Bool) : Except Fault (List Hit) :=
  match fs.readToString file with
  | .error e => if e.notFound then .ok [] else .error (.io e.message)
  | .ok text =>
    let bytes := encode text
    if ¬ needle <:+: bytes ∧ opening ∉ bytes then .ok []
    else
      let provider := providerOf file
      .ok (((parse text).1.filter pred).map fun record => ⟨provider, file, record⟩)

/-- Exact match within a single fragment file. -/
def fileExact (fs : Fs) (foldedAnchor : Str) (file : PathBuf) : Except Fault (List Hit) :=
  scanFile fs file (encode foldedAnchor) fun r => isExact r.anchor foldedAnchor

/-- Key match within a single fragment file. -/
def fileKey (fs : Fs) (foldedPath : Str) (file : PathBuf) : Except Fault (List Hit) :=
  scanFile fs file (encode foldedPath) fun r => isUnderKey r.anchor foldedPath

/-- The hits of the files, one file after the other. -/
def scanFiles (scan : PathBuf → Except Fault (List Hit)) : List PathBuf → Except Fault (List Hit)
  | [] => .ok []
  | file :: files => do
    let hits ← scan file
    let rest ← scanFiles scan files
    return hits ++ rest

/-- Exact match across the whole corpus. -/
def corpusExact (fs : Fs) (dir : PathBuf) (foldedAnchor : Str) : Except Fault (List Hit) := do
  let hits ← scanFiles (fileExact fs foldedAnchor) (← fragments fs dir)
  return sortByProvider hits

/-- Key match across the whole corpus. -/
def corpusKey (fs : Fs) (dir : PathBuf) (foldedPath : Str) : Except Fault (List Hit) := do
  let hits ← scanFiles (fileKey fs foldedPath) (← fragments fs dir)
  return sortByProvider hits

/-! ## A directory of files -/

theorem join_injective (dir : PathBuf) : Function.Injective (join dir) := by
  intro a b h
  unfold join at h
  split at h
  · exact List.append_cancel_left h
  · exact (List.cons.inj (List.append_cancel_left h)).2

/-- Files that can stand in a directory. -/
def Files (files : List (List UInt8 × Str)) : Prop :=
  (files.map Prod.fst).Nodup ∧ ∀ f ∈ files, (f.1 ≠ [] ∧ separator ∉ f.1) ∧ (encode f.2).length < 2 ^ 63

instance (files : List (List UInt8 × Str)) : Decidable (Files files) := inferInstanceAs (Decidable (_ ∧ _))

def noFile : IoError := ⟨true, "No such file or directory"⟩

/-- The directory with these files, and nothing else. -/
def Fs.ofFiles (dir : PathBuf) (files : List (List UInt8 × Str)) (h : Files files) : Fs where
  readDir d := if d = dir then .ok (files.map Prod.fst) else .error noFile
  readToString path :=
    match files.find? fun f => join dir f.1 = path with
    | some f => .ok f.2
    | none => .error noFile
  nodup := by
    intro d names hd
    split at hd
    · cases hd
      exact h.1
    · cases hd
  plain := by
    intro d names hd name hn
    split at hd
    · cases hd
      obtain ⟨f, hf, rfl⟩ := List.mem_map.1 hn
      exact (h.2 f hf).1
    · cases hd
  absent := by
    intro d names hd name _ _ hn
    split at hd
    · rename_i hdir
      subst hdir
      cases hd
      have : files.find? (fun f => join d f.1 = join d name) = none := by
        rw [List.find?_eq_none]
        intro f hf hj
        exact hn (join_injective d (by simpa using hj) ▸ List.mem_map_of_mem hf)
      exact ⟨noFile, by rw [this], rfl⟩
    · cases hd
  bounded := by
    intro path text ht
    split at ht
    · rename_i f hf
      cases ht
      exact (h.2 f (List.mem_of_find?_eq_some hf)).2
    · cases ht

end Peiosutils.Regman
