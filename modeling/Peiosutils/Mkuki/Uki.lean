import Peiosutils.Lib.ByteStore
import Peiosutils.Lib.Hex
import Peiosutils.Lib.Utf8

/-!
# Building a unified kernel image (`mkuki.rs`)

A stub is parsed as a PE image (`parsePe`), room is made for the headers of the payload sections
(`ensureSectionHeaderRoom`), and the payloads are appended (`buildUki`). The fields of the headers are numbers below
`2 ^ 32`, checked where the source checks them; offsets are unbounded. A `Fault` is an error that is returned, or a
panic: an index, a slice or a splice out of range.
-/

set_option autoImplicit false

namespace Peiosutils.Mkuki

open ByteStore

inductive Fault where
  | error (message : String)
  | panic
  deriving DecidableEq, Repr

def peOffsetPtr : Nat := 0x3c
def coffHeaderSize : Nat := 20
def sectionHeaderSize : Nat := 40

/-- Initialized data that can be read. -/
def sectionCharacteristics : Nat := 0x00000040 ||| 0x40000000

structure PayloadSection where
  name : String
  data : List UInt8
  deriving DecidableEq, Repr

structure PeInfo where
  coffOff : Nat
  sectionTableOff : Nat
  sectionCount : Nat
  sectionAlignment : Nat
  fileAlignment : Nat
  sizeOfImageOff : Nat
  sizeOfHeadersOff : Nat
  sizeOfHeaders : Nat
  firstRawSectionOff : Nat
  nextVirtualAddress : Nat
  nextRawPointer : Nat
  deriving DecidableEq, Repr

structure ExistingSection where
  virtualAddress : Nat
  virtualSize : Nat
  rawPointer : Nat
  rawSize : Nat
  deriving DecidableEq, Repr

/-! ## Bytes and words -/

/-- An offset that an image must reach. -/
def require (image : List UInt8) (off len : Nat) (what : String) : Except Fault Unit :=
  if off + len > image.length then .error (.error ("truncated PE image while reading " ++ what)) else .ok ()

def readU16 (buf : List UInt8) (off : Nat) : Except Fault Nat :=
  if off + 2 > buf.length then .error (.error "truncated little-endian u16") else .ok (leNat (slice buf off 2))

def readU32 (buf : List UInt8) (off : Nat) : Except Fault Nat :=
  if off + 4 > buf.length then .error (.error "truncated little-endian u32") else .ok (leNat (slice buf off 4))

/-- `&buf[off..off + n]`. -/
def index (buf : List UInt8) (off n : Nat) : Except Fault (List UInt8) :=
  if off + n > buf.length then .error .panic else .ok (slice buf off n)

/-- `buf[off..off + p.len()].copy_from_slice(p)`. -/
def store (buf : List UInt8) (off : Nat) (p : List UInt8) : Except Fault (List UInt8) :=
  if off + p.length > buf.length then .error .panic else .ok (patch buf off p)

/-- Several stores, one after the other. -/
def storeAll (buf : List UInt8) : List (Nat × List UInt8) → Except Fault (List UInt8)
  | [] => .ok buf
  | (off, p) :: rest => do
    let buf' ← store buf off p
    storeAll buf' rest

def writeU16 (buf : List UInt8) (off value : Nat) : Except Fault (List UInt8) := store buf off (leBytes 2 value)

def writeU32 (buf : List UInt8) (off value : Nat) : Except Fault (List UInt8) := store buf off (leBytes 4 value)

/-- `u32::checked_add`, with the error that the caller gives. -/
def checkedAdd (a b : Nat) (message : String) : Except Fault Nat :=
  if a + b ≥ 2 ^ 32 then .error (.error message) else .ok (a + b)

/-- `u32::try_from`, with the error that the caller gives. -/
def tryU32 (n : Nat) (message : String) : Except Fault Nat :=
  if n ≥ 2 ^ 32 then .error (.error message) else .ok n

/-- `u32::try_from` where the error is passed on as it is. -/
def tryFromIntError : String := "out of range integral type conversion attempted"

def alignU32 (value align : Nat) : Except Fault Nat :=
  if align = 0 then .error (.error "invalid alignment")
  else if value + (align - 1) ≥ 2 ^ 32 then .error (.error "alignment overflow")
  else .ok ((value + (align - 1)) / align * align)

/-! ## Parsing the stub -/

def readSection (image : List UInt8) (off : Nat) : Except Fault ExistingSection := do
  let virtualSize ← readU32 image (off + 8)
  let virtualAddress ← readU32 image (off + 12)
  let rawSize ← readU32 image (off + 16)
  let rawPointer ← readU32 image (off + 20)
  return { virtualAddress, virtualSize, rawPointer, rawSize }

/-- The section headers from `off` on. -/
def readSections (image : List UInt8) (off : Nat) : Nat → Except Fault (List ExistingSection)
  | 0 => .ok []
  | count + 1 => do
    let s ← readSection image off
    let rest ← readSections image (off + sectionHeaderSize) count
    return s :: rest

/-- The virtual and the raw end of all sections, over those found so far. -/
def sectionEnds (va raw : Nat) : List ExistingSection → Except Fault (Nat × Nat)
  | [] => .ok (va, raw)
  | s :: rest => do
    let virtualEnd ← checkedAdd s.virtualAddress s.virtualSize "PE virtual address overflow"
    let rawEnd ← checkedAdd s.rawPointer s.rawSize "PE raw pointer overflow"
    sectionEnds (max va virtualEnd) (max raw rawEnd) rest

/-- The raw pointers that are set. -/
def rawPointers (sections : List ExistingSection) : List Nat :=
  (sections.map ExistingSection.rawPointer).filter (· ≠ 0)

/-- The magic number of a PE32 or a PE32+ image. -/
def checkMagic (magic : Nat) : Except Fault Unit :=
  if magic ≠ 0x010b ∧ magic ≠ 0x020b then
    .error (.error ("unsupported PE optional header magic 0x" ++ String.ofList (Hex.hexDigits 4 magic)))
  else .ok ()

def parsePe (image : List UInt8) : Except Fault PeInfo := do
  if image.length < peOffsetPtr + 4 then .error (.error "EFI stub is not an MZ executable")
  else
    let mz ← index image 0 2
    if mz ≠ Utf8.utf8 "MZ" then .error (.error "EFI stub is not an MZ executable")
    else
      let peOff ← readU32 image peOffsetPtr
      require image peOff 4 "PE signature"
      let signature ← index image peOff 4
      if signature ≠ [0x50, 0x45, 0, 0] then .error (.error "EFI stub is missing a PE signature")
      else
        let coffOff := peOff + 4
        require image coffOff coffHeaderSize "COFF header"
        let sectionCount ← readU16 image (coffOff + 2)
        let optionalSize ← readU16 image (coffOff + 16)
        let optionalOff := coffOff + coffHeaderSize
        require image optionalOff optionalSize "optional header"
        if optionalSize < 64 then .error (.error "PE optional header is too small")
        else
          let magic ← readU16 image optionalOff
          checkMagic magic
          let sectionTableOff := optionalOff + optionalSize
          require image sectionTableOff (sectionCount * sectionHeaderSize) "section table"
          let sectionAlignment ← readU32 image (optionalOff + 32)
          let fileAlignment ← readU32 image (optionalOff + 36)
          let sizeOfHeaders ← readU32 image (optionalOff + 60)
          if sectionAlignment = 0 ∨ fileAlignment = 0 then .error (.error "PE image has zero alignment")
          else
            let sections ← readSections image sectionTableOff sectionCount
            match (rawPointers sections).min? with
            | none => .error (.error "PE image has no raw sections")
            | some firstRawSectionOff =>
              let ends ← sectionEnds 0 0 sections
              return { coffOff, sectionTableOff, sectionCount, sectionAlignment, fileAlignment
                       sizeOfImageOff := optionalOff + 56
                       sizeOfHeadersOff := optionalOff + 60
                       sizeOfHeaders, firstRawSectionOff
                       nextVirtualAddress := ends.1
                       nextRawPointer := ends.2 }

/-! ## Room for section headers -/

/-- The raw pointer of the section header at `off`, moved behind the insertion. -/
def movePointer (first delta off : Nat) (image : List UInt8) : Except Fault (List UInt8) := do
  let rawPointer ← readU32 image (off + 20)
  if rawPointer ≠ 0 ∧ rawPointer ≥ first then
    let moved ← checkedAdd rawPointer delta "PE raw pointer overflow"
    writeU32 image (off + 20) moved
  else .ok image

/-- The section headers from `off` on. -/
def movePointers (first delta off : Nat) : Nat → List UInt8 → Except Fault (List UInt8)
  | 0, image => .ok image
  | count + 1, image => do
    let image' ← movePointer first delta off image
    movePointers first delta (off + sectionHeaderSize) count image'

/-- Where the section table ends with the new headers. -/
def requiredHeaderEnd (info : PeInfo) (newSectionCount : Nat) : Nat :=
  info.sectionTableOff + newSectionCount * sectionHeaderSize

def ensureSectionHeaderRoom (image : List UInt8) (info : PeInfo) (newSectionCount : Nat) :
    Except Fault (List UInt8 × PeInfo) := do
  let required := requiredHeaderEnd info newSectionCount
  if required ≤ info.firstRawSectionOff then return (image, info)
  else
    let end32 ← tryU32 required "PE headers are too large"
    let newFirstRaw ← alignU32 end32 info.fileAlignment
    if newFirstRaw < info.firstRawSectionOff then .error (.error "PE header expansion underflow")
    else
      let delta := newFirstRaw - info.firstRawSectionOff
      if info.firstRawSectionOff > image.length then .error .panic
      else
        let widened := insertZeros image info.firstRawSectionOff delta
        let delta32 ← tryU32 delta "PE header expansion is too large"
        let moved ← movePointers info.firstRawSectionOff delta32 info.sectionTableOff info.sectionCount widened
        let nextRawPointer ← checkedAdd info.nextRawPointer delta32 "PE raw pointer overflow"
        return (moved, { info with firstRawSectionOff := newFirstRaw, nextRawPointer })

/-! ## Appending the payloads -/

/-- The fields of a section header that are filled in, at their offsets. -/
def sectionFields (name : List UInt8) (virtualSize virtualAddress rawSize rawPointer : Nat) : List (Nat × List UInt8) :=
  [(0, name), (8, leBytes 4 virtualSize), (12, leBytes 4 virtualAddress), (16, leBytes 4 rawSize),
    (20, leBytes 4 rawPointer), (36, leBytes 4 sectionCharacteristics)]

/-- A section header, filled in over zeros. -/
def sectionHeader (name : List UInt8) (virtualSize virtualAddress rawSize rawPointer : Nat) : List UInt8 :=
  patchAll (zeros sectionHeaderSize) (sectionFields name virtualSize virtualAddress rawSize rawPointer)

/-- `dst` is the header at `off`: cleared, and then stored to field by field. -/
def writeSectionHeader (image : List UInt8) (off : Nat) (name : String)
    (virtualSize virtualAddress rawSize rawPointer : Nat) : Except Fault (List UInt8) :=
  if off + sectionHeaderSize > image.length then .error .panic
  else if (Utf8.utf8 name).length > 8 then
    .error (.error ("section name `" ++ name ++ "` is longer than 8 bytes"))
  else do
    let dst ← storeAll (zeros sectionHeaderSize)
      (sectionFields (Utf8.utf8 name) virtualSize virtualAddress rawSize rawPointer)
    store image off dst

/-- The loop over the payloads; `off` is where the next section header goes. -/
def addPayloads (info : PeInfo) (off nextVa nextRaw : Nat) (image : List UInt8) :
    List PayloadSection → Except Fault (List UInt8 × Nat)
  | [] => .ok (image, nextVa)
  | payload :: rest => do
    if payload.data = [] then .error (.error (payload.name ++ " payload is empty"))
    else
      let virtualSize ← tryU32 payload.data.length (payload.name ++ " payload is too large")
      let va ← alignU32 nextVa info.sectionAlignment
      let raw ← alignU32 nextRaw info.fileAlignment
      let rawSize ← alignU32 virtualSize info.fileAlignment
      let appended := resize (growTo image raw ++ payload.data) (raw + rawSize)
      let withHeader ← writeSectionHeader appended off payload.name virtualSize va rawSize raw
      let nextVa' ← checkedAdd va virtualSize "PE virtual address overflow"
      let nextRaw' ← checkedAdd raw rawSize "PE file too large"
      addPayloads info (off + sectionHeaderSize) nextVa' nextRaw' withHeader rest

/-- The fields of the headers that depend on the sections. -/
def finishHeaders (image : List UInt8) (info : PeInfo) (newSectionCount nextVa : Nat) : Except Fault (List UInt8) := do
  let counted ← writeU16 image (info.coffOff + 2) newSectionCount
  let end32 ← tryU32 (requiredHeaderEnd info newSectionCount) "PE headers are too large"
  let requiredSize ← alignU32 end32 info.fileAlignment
  let firstRaw ← tryU32 info.firstRawSectionOff tryFromIntError
  if requiredSize > firstRaw then .error (.error "new PE headers would overlap the first section")
  else
    let sized ← writeU32 counted info.sizeOfHeadersOff (max info.sizeOfHeaders requiredSize)
    let sizeOfImage ← alignU32 nextVa info.sectionAlignment
    writeU32 sized info.sizeOfImageOff sizeOfImage

/-- The number of sections with `added` more, in sixteen bits. -/
def countSections (sectionCount added : Nat) : Except Fault Nat :=
  if added ≥ 2 ^ 16 then .error (.error "too many sections to add")
  else if sectionCount + added ≥ 2 ^ 16 then .error (.error "too many sections in PE image")
  else .ok (sectionCount + added)

def buildUki (stub : List UInt8) (payloads : List PayloadSection) : Except Fault (List UInt8) := do
  let parsed ← parsePe stub
  let newSectionCount ← countSections parsed.sectionCount payloads.length
  let room ← ensureSectionHeaderRoom stub parsed newSectionCount
  let info := room.2
  let grown := growTo room.1 info.nextRawPointer
  let off := info.sectionTableOff + info.sectionCount * sectionHeaderSize
  let appended ← addPayloads info off info.nextVirtualAddress info.nextRawPointer grown payloads
  finishHeaders appended.1 info newSectionCount appended.2

end Peiosutils.Mkuki
