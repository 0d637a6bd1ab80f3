import Peiosutils.Mkirf.Discover
import Peiosutils.Mkirf.Early
import Peiosutils.Mkirf.Resolve

/-!
# Building an initramfs (`walk.rs`, `build.rs`)

A source tree is walked into entries, the hooks are discovered and ordered, and the two sequence files are put among the
entries (`plan`); then the image is written (`run`). A `Source` is what the operating system shows of a tree: a listing
of each directory in which symlinks are symlinks, for the walk, and the metadata and hook directories that are found
when symlinks are followed. The compiled exclude patterns and the compressor are parameters.
-/

set_option autoImplicit false

namespace Peiosutils.Mkirf

open Keyed Utf8

/-! ## The source tree -/

/-- A file name: not empty, and without a slash. -/
abbrev Name := { name : List UInt8 // name ≠ [] ∧ (47 : UInt8) ∉ name }

/-- An object that is no directory, as `fs::symlink_metadata` shows it. -/
inductive Object where
  | lost (e : IoError)
  | symlink (target : Except IoError (List UInt8))
  | file (size mode : Nat)
  | device (block : Bool) (rdev : Nat)
  | fifo
  | socket

/-- What `fs::read_dir` gives of a directory, item for item. -/
inductive Tree where
  | done
  /-- Listing the directory fails here. -/
  | broken (e : IoError)
  | dir (name : Name) (children rest : Tree)
  | object (name : Name) (o : Object) (rest : Tree)

/-- `fs::metadata`. -/
structure Metadata where
  isDir : Bool
  isFile : Bool
  mode : Nat

structure Source where
  path : Path
  tree : Tree
  metadata : Path → Except IoError Metadata
  dirs : String → Option Listing
  /-- No file name has a slash. -/
  plain : ∀ dest items item, dirs dest = some (.ok items) → .ok item ∈ items → (47 : UInt8) ∉ item.name

/-! ## The walk -/

/-- `base.join(name)`, for a relative name. -/
def joinPath (base name : Path) : Path :=
  if base = [] ∨ base.getLast? = some 47 then base ++ name else base ++ 47 :: name

/-- The path of components, relative to the root of the walk. -/
def relPath (components : List Path) : Path := [47].intercalate components

/-- An error with the path on which it occurred. -/
def atPath (e : IoError) (path : Path) : IoError := ⟨e.kind, lossy path ++ ": " ++ e.message⟩

/-- Compiled patterns, each as the relative paths that it matches. -/
abbrev Excludes := List (Path → Bool)

def Excludes.excluded (excludes : Excludes) (rel : Path) : Bool := excludes.any fun p => p rel

def devMajor (dev : Nat) : Nat := ((dev >>> 8) &&& 0xfff) ||| ((dev >>> 32) &&& (2 ^ 64 - 1 - 0xfff))

def devMinor (dev : Nat) : Nat := (dev &&& 0xff) ||| ((dev >>> 12) &&& (2 ^ 64 - 1 - 0xff))

/-- The body of an object at `path`. -/
def Object.body (path : Path) : Object → Except IoError Body
  | .lost e => .error (atPath e path)
  | .symlink (.error e) => .error (atPath e path)
  | .symlink (.ok target) => .ok (.symlink target)
  | .file size mode => .ok (.file path size (mode &&& 0o111 ≠ 0))
  | .device block rdev => .ok (.device block (devMajor rdev) (devMinor rdev))
  | .fifo => .ok .fifo
  | .socket => .error ⟨.invalidInput, lossy path ++ ": unsupported file type (socket?)"⟩

/-- The entries of a directory `dir`, whose components below the root are `above`. -/
def collect (excludes : Excludes) (dir : Path) (above : List Path) : Tree → Except IoError (List Entry)
  | .done => .ok []
  | .broken e => .error (atPath e dir)
  | .dir name children rest => do
    let components := above ++ [name.1]
    if excludes.excluded (relPath components) then collect excludes dir above rest
    else
      let inside ← collect excludes (joinPath dir name.1) components children
      let behind ← collect excludes dir above rest
      return ⟨relPath components, .directory⟩ :: (inside ++ behind)
  | .object name o rest => do
    let components := above ++ [name.1]
    if excludes.excluded (relPath components) then collect excludes dir above rest
    else
      let body ← o.body (joinPath dir name.1)
      let behind ← collect excludes dir above rest
      return ⟨relPath components, body⟩ :: behind

/-- A name as the order of bytes sees it. -/
def byteKey (name : Path) : List Nat := name.map UInt8.toNat

def sortByName (entries : List Entry) : List Entry := sortOn (fun e => byteKey e.name) entries

/-- Every object beneath `root`, by archive path. -/
def walk (excludes : Excludes) (root : Path) (tree : Tree) : Except IoError (List Entry) := do
  let entries ← collect excludes root [] tree
  return sortByName entries

/-! ## The build -/

inductive Error where
  | layout (message : String)
  | hooks (message : String)
  | io (message : String)
  deriving DecidableEq, Repr

def ioResult {α : Type} : Except IoError α → Except Error α
  | .error e => .error (.io e.message)
  | .ok v => .ok v

def hooksResult {α : Type} : Except String α → Except Error α
  | .error e => .error (.hooks e)
  | .ok v => .ok v

/-- Where the sequence files are. -/
def SEQ_DIR : String := "system/prelude"

/-- `{SEQ_DIR}/hooks.seq.{version}`. -/
def seqName (version : String) : String := SEQ_DIR ++ "/hooks.seq." ++ version

/-- `b"++"`. -/
def EARLY_DIR : Path := utf8 "++"

def startsWithEarly (name : Path) : Bool := (utf8 "++/").isPrefixOf name

/-- A file that the build makes itself must not exist. -/
def rejectReserved (src : Source) : List String → Except Error Unit
  | [] => .ok ()
  | reserved :: rest =>
    match src.metadata (joinPath src.path (utf8 reserved)) with
    | .ok _ => .error (.layout (lossy src.path ++ ": contains a `" ++ reserved ++ "`; mkirf generates that file"))
    | .error _ => rejectReserved src rest

def validateLayout (src : Source) : Except Error Unit :=
  match src.metadata (joinPath src.path (utf8 "init")) with
  | .ok m =>
    if m.isFile then
      if m.mode &&& 0o111 = 0 then .error (.layout (lossy src.path ++ ": `init` is not executable"))
      else rejectReserved src ["hooks.seq", seqName "1", seqName "2"]
    else .error (.layout (lossy src.path ++ ": `init` is not a regular file"))
  | .error _ => .error (.layout (lossy src.path ++ ": no `init` — an initramfs needs a PID 1"))

/-- The hooks with their implicit edges, and the order of their paths. -/
def resolveHooks (src : Source) : Except Error (List Hook × List String) := do
  let (hooks, _) ← hooksResult (discoverAll (lossy src.path) src.dirs)
  if hooks = [] then return ([], [])
  else
    let hooks := applyImplicitOrdering hooks
    let resolved ← hooksResult (resolve hooks)
    return (hooks, resolved.order)

/-- The prefixes of a path, by components. -/
def prefixes (dir : String) : List Path := (((utf8 dir).splitOn 47).inits.tail).map relPath

/-- A directory entry for each ancestor that has none yet. -/
def addMissingAncestors (entries : List Entry) (dir : String) : List Entry :=
  (prefixes dir).foldl
    (fun entries name => if entries.any fun e => e.name = name then entries else entries ++ [⟨name, .directory⟩]) entries

/-- The items of a directory, or the first error of its listing. -/
def Tree.items : Tree → Except IoError (List (Name × (Tree ⊕ Object)))
  | .done => .ok []
  | .broken e => .error e
  | .dir name children rest => do
    let items ← rest.items
    return (name, .inl children) :: items
  | .object name o rest => do
    let items ← rest.items
    return (name, .inr o) :: items

/-- The object of a name. -/
def Tree.find (name : Path) : Tree → Option (Tree ⊕ Object)
  | .done => none
  | .broken _ => none
  | .dir n children rest => if n.1 = name then some (.inl children) else rest.find name
  | .object n o rest => if n.1 = name then some (.inr o) else rest.find name

/-- The entries of the segments, in order. -/
def walkSegments (plus : Path) : List (Name × (Tree ⊕ Object)) → Except Error (List Entry)
  | [] => .ok []
  | (name, .inr (.lost e)) :: _ => .error (.io (atPath e (joinPath plus name.1)).message)
  | (name, .inr _) :: _ => .error (.layout (lossy plus ++ ": every `++` entry must be a directory " ++
      "(one per early segment) — `" ++ lossy name.1 ++ "` is not. " ++
      "An early segment is a tree (e.g. microcode/kernel/x86/microcode/), not a file."))
  | (name, .inl children) :: segments => do
    let entries ← ioResult (walk [] (joinPath plus name.1) children)
    let behind ← walkSegments plus segments
    return entries ++ behind

/-- Equal directories become one; other equal names are an error. `prev` is the last entry kept. -/
def dedupSegmentDirs (prev : Option Entry) : List Entry → Except Error (List Entry)
  | [] => .ok []
  | e :: entries =>
    let keep := do
      let rest ← dedupSegmentDirs (some e) entries
      return e :: rest
    match prev with
    | some p =>
      if p.name = e.name then
        if p.body = .directory ∧ e.body = .directory then dedupSegmentDirs prev entries
        else .error (.layout ("++ segments both define `" ++ lossy e.name ++ "`"))
      else keep
    | none => keep

/-- The early segments of `src/++`. -/
def collectEarly (src : Source) : Except Error (List Entry) :=
  let plus := joinPath src.path EARLY_DIR
  match src.tree.find EARLY_DIR with
  | none => .ok []
  | some (.inr (.lost _)) => .ok []
  | some (.inr _) => .error (.layout (lossy plus ++ ": `++` must be a directory of early segments"))
  | some (.inl children) => do
    let items ← ioResult (children.items.mapError fun e => atPath e plus)
    let entries ← walkSegments plus (sortOn (fun item => byteKey item.1.1) items)
    dedupSegmentDirs none (sortByName entries)

/-- The entries of an image. -/
structure Plan where
  main : List Entry
  early : List Entry
  deriving DecidableEq, Repr

/-- `run`, up to the writing. -/
def plan (excludes : Excludes) (src : Source) : Except Error Plan := do
  match src.metadata src.path with
  | .error e => .error (.layout (lossy src.path ++ ": " ++ e.message))
  | .ok m =>
    if !m.isDir then .error (.layout (lossy src.path ++ ": not a directory"))
    else
      validateLayout src
      let entries ← ioResult (walk excludes src.path src.tree)
      let entries := entries.filter fun e => e.name ≠ EARLY_DIR && !startsWithEarly e.name
      let (hooks, order) ← resolveHooks src
      let entries := entries ++ [⟨utf8 (seqName "1"), .inlined (renderSeq order) false⟩,
        ⟨utf8 (seqName "2"), .inlined (renderSeqV2 hooks order) false⟩]
      let entries := sortByName (addMissingAncestors entries SEQ_DIR)
      let early ← collectEarly src
      return ⟨entries, early⟩

/-- The image: the early archive, where there is one, and the compressed main archive. -/
def writeImage (files : Files) (compress : List UInt8 → Except IoError (List UInt8)) (p : Plan) :
    Except Error (List UInt8) := do
  let early ← if p.early = [] then .ok [] else ioResult (writeEarlyArchive files p.early)
  let main ← ioResult (writeArchive files p.main)
  let packed ← ioResult (compress main)
  return early ++ packed

def run (files : Files) (compress : List UInt8 → Except IoError (List UInt8)) (excludes : Excludes) (src : Source) :
    Except Error (List UInt8) := do
  let p ← plan excludes src
  writeImage files compress p

end Peiosutils.Mkirf
