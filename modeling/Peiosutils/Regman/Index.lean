import Peiosutils.Lib.Bytes
import Peiosutils.Lib.Multimap
import Peiosutils.Regman.Corpus

/-!
# The flat-file index (`index.rs`)

`build` maps each anchor to the locations of its records and writes the map out: a header, sixteen bytes for each
anchor, twelve for each location, the file table, the numbers of the anchors that hold a `<`, and the anchors
themselves. `decode` checks such bytes and `Index` reads them; a read out of range is a panic. Offsets are unbounded
here where the source has 64-bit numbers: sums and products of the 32-bit fields stay below `2 ^ 64`.
-/

set_option autoImplicit false

namespace Peiosutils.Regman

open Utf8 Keyed ByteStore Multimap

/-! ## Building -/

/-- `b"REGMANIX"`. -/
def magic : List UInt8 := encode "REGMANIX".toList

def version : Nat := 2
def headerLen : Nat := 48
def descLen : Nat := 16
def locLen : Nat := 12
def wildLen : Nat := 4

/-- The order of anchors. -/
def anchorKey (anchor : Str) : List Nat := byteKey (encode anchor)

/-- Locations by anchor, in the order of the anchors: number of the file, and offset in it. -/
abbrev Entries := List (Str × List (Nat × Nat))

structure Building where
  entries : Entries
  files : List Str

/-- The number of a file in the table, where it is put if it is not there. -/
def fileIdx (files : List Str) (file : Str) : Nat × List Str :=
  match files.findIdx? (· = file) with
  | some i => (i, files)
  | none => (files.length, files ++ [file])

def addFile (fs : Fs) (b : Building) (file : PathBuf) : Except Fault Building := do
  let f := fileIdx b.files (toStringLossy file)
  let text ← lift (fs.readToString file)
  return { entries := (parse text).1.foldl (fun m r => push anchorKey r.anchor (f.1, r.fenceOffset) m) b.entries
           files := f.2 }

def addFiles (fs : Fs) : Building → List PathBuf → Except Fault Building
  | b, [] => .ok b
  | b, file :: files => do
    let b ← addFile fs b file
    addFiles fs b files

/-- What the loop over the entries writes into each section. -/
structure Sections where
  descriptors : List UInt8
  locations : List UInt8
  wildcards : List UInt8
  anchors : List UInt8

/-- The passes from entry `i` on: `anchLen` bytes of anchors and `locIdx` locations are written. -/
def sections (anchOff : Nat) : (i anchLen locIdx : Nat) → Entries → Sections
  | _, _, _, [] => ⟨[], [], [], []⟩
  | i, anchLen, locIdx, (anchor, locs) :: rest =>
    let later := sections anchOff (i + 1) (anchLen + (encode anchor).length) (locIdx + locs.length) rest
    { descriptors := leBytes 4 (anchOff + anchLen) ++ leBytes 4 (encode anchor).length ++ leBytes 4 locIdx ++
        leBytes 4 locs.length ++ later.descriptors
      locations := locs.flatMap (fun loc => leBytes 4 loc.1 ++ leBytes 8 loc.2) ++ later.locations
      wildcards := (if hasWildcard anchor then leBytes 4 i else []) ++ later.wildcards
      anchors := encode anchor ++ later.anchors }

def fileTable (files : List Str) : List UInt8 :=
  files.flatMap fun f => leBytes 4 (encode f).length ++ encode f

def serialize (entries : Entries) (files : List Str) : List UInt8 :=
  let entryCount := entries.length
  let locCount := (entries.map (·.2.length)).sum
  let wildCount := entries.countP (hasWildcard ·.1)
  let descOff := headerLen
  let locsOff := descOff + entryCount * descLen
  let filesOff := locsOff + locCount * locLen
  let filesLen := (files.map fun f => 4 + (encode f).length).sum
  let wildOff := filesOff + filesLen
  let anchOff := wildOff + wildCount * wildLen
  let s := sections anchOff 0 0 0 entries
  magic ++ leBytes 4 version ++ leBytes 4 entryCount ++ leBytes 4 descOff ++ leBytes 4 locsOff ++
    leBytes 4 filesOff ++ leBytes 4 anchOff ++ leBytes 4 files.length ++ leBytes 4 wildOff ++ leBytes 4 wildCount ++
    leBytes 4 0 ++ s.descriptors ++ s.locations ++ fileTable files ++ s.wildcards ++ s.anchors

/-- The bytes that `build` puts into the index file. -/
def build (fs : Fs) (dir : PathBuf) : Except Fault (List UInt8) := do
  let b ← addFiles fs ⟨[], []⟩ (← fragments fs dir)
  return serialize b.entries b.files

/-! ## Reading -/

/-- A resolved location of a documented record. -/
structure Location where
  file : PathBuf
  offset : Nat
  deriving DecidableEq, Repr

/-- `&b[start..stop]`. -/
def rdSlice (b : List UInt8) (start stop : Nat) : Except Fault (List UInt8) :=
  if stop > b.length ∨ start > stop then .error .panic else .ok (slice b start (stop - start))

def rdU32 (b : List UInt8) (pos : Nat) : Except Fault Nat :=
  if pos + 4 > b.length then .error .panic else .ok (leNat (slice b pos 4))

def rdU64 (b : List UInt8) (pos : Nat) : Except Fault Nat :=
  if pos + 8 > b.length then .error .panic else .ok (leNat (slice b pos 8))

/-- An immutable, validated snapshot of an index. -/
structure Index where
  bytes : List UInt8
  files : List PathBuf
  entries : Nat
  descOff : Nat
  locsOff : Nat
  wildOff : Nat
  wildN : Nat
  deriving DecidableEq, Repr

/-- A descriptor: where the anchor is, and which locations are its. -/
structure Desc where
  offset : Nat
  length : Nat
  location : Nat
  count : Nat
  deriving DecidableEq, Repr

namespace Index

def desc (index : Index) (i : Nat) : Except Fault Desc := do
  let base := index.descOff + i * descLen
  let offset ← rdU32 index.bytes base
  let length ← rdU32 index.bytes (base + 4)
  let location ← rdU32 index.bytes (base + 8)
  let count ← rdU32 index.bytes (base + 12)
  return ⟨offset, length, location, count⟩

def anchor (index : Index) (i : Nat) : Except Fault (List UInt8) := do
  let d ← index.desc i
  rdSlice index.bytes d.offset (d.offset + d.length)

/-- Descriptor index of the `k`th wildcard-bearing anchor. -/
def wild (index : Index) (k : Nat) : Except Fault Nat := rdU32 index.bytes (index.wildOff + k * wildLen)

/-- The `n` locations from number `first` on. -/
def locations (index : Index) : (n first : Nat) → Except Fault (List Location)
  | 0, _ => .ok []
  | n + 1, first => do
    let base := index.locsOff + first * locLen
    let fileIdx ← rdU32 index.bytes base
    let offset ← rdU64 index.bytes (base + 4)
    let rest ← locations index n (first + 1)
    match index.files[fileIdx]? with
    | some file => return ⟨file, offset⟩ :: rest
    | none => return rest

/-! ### Validation -/

/-- The loop over `n` descriptors from `i` on, with the anchor before and the number of wildcards so far: that number
at the end, unless a descriptor is refused. -/
def validateDescs (index : Index) (anchOff locationCount : Nat) :
    (n i : Nat) → (previous : Option (List UInt8)) → (wildcard : Nat) → Except Fault (Option Nat)
  | 0, _, _, wildcard => .ok (some wildcard)
  | n + 1, i, previous, wildcard => do
    let d ← index.desc i
    if d.offset < anchOff ∨ d.offset + d.length > index.bytes.length ∨ d.location + d.count > locationCount then
      return none
    else
      let anchor ← index.anchor i
      match fromUtf8 anchor with
      | none => return none
      | some text =>
        if previous.any fun value => byteKey anchor ≤ byteKey value then return none
        else if hasWildcard text then
          if wildcard ≥ index.wildN then return none
          else
            let w ← index.wild wildcard
            if w ≠ i then return none
            else validateDescs index anchOff locationCount n (i + 1) (some anchor) (wildcard + 1)
        else validateDescs index anchOff locationCount n (i + 1) (some anchor) wildcard

/-- The loop over `n` locations from `i` on. -/
def validateLocs (index : Index) : (n i : Nat) → Except Fault (Option Unit)
  | 0, _ => .ok (some ())
  | n + 1, i => do
    let fileIdx ← rdU32 index.bytes (index.locsOff + i * locLen)
    if fileIdx ≥ index.files.length then return none else validateLocs index n (i + 1)

/-- Validate every offset before the lookups can use it. -/
def validateRecords (index : Index) (anchOff locationCount : Nat) : Except Fault (Option Unit) := do
  match ← index.validateDescs anchOff locationCount index.entries 0 none 0 with
  | none => return none
  | some wildcard => if wildcard ≠ index.wildN then return none else index.validateLocs locationCount 0

end Index

/-- The numbers in the header of an index file. -/
structure IndexHeader where
  entries : Nat
  descOff : Nat
  locsOff : Nat
  filesOff : Nat
  anchOff : Nat
  fileCount : Nat
  wildOff : Nat
  wildN : Nat
  deriving DecidableEq, Repr

def readHeader (bytes : List UInt8) : Except Fault IndexHeader := do
  let entries ← rdU32 bytes 12
  let descOff ← rdU32 bytes 16
  let locsOff ← rdU32 bytes 20
  let filesOff ← rdU32 bytes 24
  let anchOff ← rdU32 bytes 28
  let fileCount ← rdU32 bytes 32
  let wildOff ← rdU32 bytes 36
  let wildN ← rdU32 bytes 40
  return { entries, descOff, locsOff, filesOff, anchOff, fileCount, wildOff, wildN }

/-- `decode` refuses a header. -/
def IndexHeader.Refused (h : IndexHeader) (len : Nat) : Prop :=
  h.descOff ≠ headerLen ∨ h.descOff + h.entries * descLen ≠ h.locsOff ∨ h.locsOff > h.filesOff ∨
    (h.filesOff - h.locsOff) % locLen ≠ 0 ∨ h.filesOff > h.wildOff ∨ h.wildOff + h.wildN * wildLen ≠ h.anchOff ∨
    h.anchOff > len ∨ h.fileCount > (h.wildOff - h.filesOff) / 4

instance (h : IndexHeader) (len : Nat) : Decidable (h.Refused len) := by
  unfold IndexHeader.Refused
  infer_instance

/-- `n` files of the table from `pos` on, and where they end. -/
def decodeFiles (bytes : List UInt8) (wildOff : Nat) : (n pos : Nat) → Except Fault (Option (List PathBuf × Nat))
  | 0, pos => .ok (some ([], pos))
  | n + 1, pos => do
    let lengthEnd := pos + 4
    if lengthEnd > wildOff then return none
    else
      let len ← rdU32 bytes pos
      let stop := lengthEnd + len
      if stop > wildOff then return none
      else
        let file ← rdSlice bytes lengthEnd stop
        match fromUtf8 file with
        | none => return none
        | some _ =>
          match ← decodeFiles bytes wildOff n stop with
          | none => return none
          | some (files, pos) => return some (file :: files, pos)

def decode (bytes : List UInt8) : Except Fault (Option Index) :=
  if bytes.length < headerLen ∨ bytes.take 8 ≠ magic then .ok none
  else do
    let v ← rdU32 bytes 8
    if v ≠ version then return none
    else
      let h ← readHeader bytes
      if h.Refused bytes.length then return none
      else
        match ← decodeFiles bytes h.wildOff h.fileCount h.filesOff with
        | none => return none
        | some (files, pos) =>
          if pos ≠ h.wildOff then return none
          else
            let index : Index :=
              { bytes, files, entries := h.entries, descOff := h.descOff, locsOff := h.locsOff,
                wildOff := h.wildOff, wildN := h.wildN }
            match ← index.validateRecords h.anchOff ((h.filesOff - h.locsOff) / locLen) with
            | none => return none
            | some () => return some index

/-! ## Lookups -/

namespace Index

/-- The passes of the binary search; each makes `hi - lo` smaller, so `hi - lo` passes are enough. -/
def lowerBoundFrom (index : Index) (target : List UInt8) : (passes lo hi : Nat) → Except Fault Nat
  | 0, lo, _ => .ok lo
  | passes + 1, lo, hi =>
    if lo < hi then do
      let mid := (lo + hi) / 2
      let a ← index.anchor mid
      if byteKey a < byteKey target then lowerBoundFrom index target passes (mid + 1) hi
      else lowerBoundFrom index target passes lo mid
    else .ok lo

/-- First descriptor index whose anchor is `>= target`. -/
def lowerBound (index : Index) (target : List UInt8) : Except Fault Nat :=
  index.lowerBoundFrom target index.entries 0 index.entries

/-- The loop over `n` wildcard anchors from number `k` on. -/
def pushWildcardMatches (index : Index) (pred : Str → Bool) : (n k : Nat) → List Nat → Except Fault (List Nat)
  | 0, _, idxs => .ok idxs
  | n + 1, k, idxs => do
    let i ← index.wild k
    if i ≥ index.entries ∨ i ∈ idxs then pushWildcardMatches index pred n (k + 1) idxs
    else
      let a ← index.anchor i
      if (fromUtf8 a).any pred then pushWildcardMatches index pred n (k + 1) (idxs ++ [i])
      else pushWildcardMatches index pred n (k + 1) idxs

def collect (index : Index) : List Nat → Except Fault (List Location)
  | [] => .ok []
  | i :: idxs => do
    let d ← index.desc i
    let locs ← index.locations d.count d.location
    let rest ← collect index idxs
    return locs ++ rest

/-- `i < self.entries && self.anchor(i) == target`. -/
def isAnchor (index : Index) (i : Nat) (target : List UInt8) : Except Fault Bool :=
  if i < index.entries then do
    let a ← index.anchor i
    return decide (a = target)
  else return false

/-- Locations for an exact anchor match, concrete and wildcard alike. -/
def lookupExact (index : Index) (foldedAnchor : Str) : Except Fault (List Location) := do
  let target := encode foldedAnchor
  let i ← index.lowerBound target
  let found ← index.isAnchor i target
  let idxs ← index.pushWildcardMatches (fun a => isExact a foldedAnchor) index.wildN 0 (if found then [i] else [])
  index.collect idxs

/-- The walk from `i` on over the anchors that begin with `path`, of which `n` at most remain. -/
def keyRange (index : Index) (foldedPath : Str) : (n i : Nat) → Except Fault (List Nat)
  | 0, _ => .ok []
  | n + 1, i => do
    let a ← index.anchor i
    if (encode foldedPath).isPrefixOf a then
      let rest ← keyRange index foldedPath n (i + 1)
      return if (fromUtf8 a).any fun a => isUnderKey a foldedPath then i :: rest else rest
    else return []

/-- Locations for a key query: the key and its directly-attached values. -/
def lookupKey (index : Index) (foldedPath : Str) : Except Fault (List Location) := do
  let i ← index.lowerBound (encode foldedPath)
  let range ← index.keyRange foldedPath (index.entries - i) i
  let idxs ← index.pushWildcardMatches (fun a => isUnderKey a foldedPath) index.wildN 0 range
  index.collect idxs

end Index

end Peiosutils.Regman
