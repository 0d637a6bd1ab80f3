import Peiosutils.Lib.Bytes
import Peiosutils.Lib.Hex
import Peiosutils.Lib.Utf8

/-!
# The newc archive (`cpio.rs`)

`writeArchive` gives the bytes written, or the first error; what a failed run has written before it is no archive. The
files that entries name are read through a parameter `Files`. `parse` is the reader that the source's own tests use: it
follows the header fields and stops at the first entry named `TRAILER!!!`.
-/

set_option autoImplicit false

namespace Peiosutils.Mkirf

open ByteStore Hex

/-- The bytes of a path. -/
abbrev Path := List UInt8

inductive ErrorKind where
  | notFound
  | permissionDenied
  | invalidInput
  | other
  /-- Every other kind, by its error number. -/
  | os (code : Nat)
  deriving DecidableEq, Repr

structure IoError where
  kind : ErrorKind
  message : String
  deriving DecidableEq, Repr

/-- What opening a file gives, and then what copying it to its end gives. -/
abbrev Files := Path → Except IoError (Except IoError (List UInt8))

/-! ## Entries -/

inductive Body where
  | directory
  /-- A file that is read when the archive is written; `size` is what its header records. -/
  | file (source : Path) (size : Nat) (executable : Bool)
  /-- Content made by `mkirf`. -/
  | inlined (data : List UInt8) (executable : Bool)
  | symlink (target : List UInt8)
  | device (block : Bool) (major minor : Nat)
  | fifo
  deriving DecidableEq, Repr

structure Entry where
  /-- Path inside the archive. -/
  name : Path
  body : Body
  deriving DecidableEq, Repr

/-- `b"070701"`. -/
def magic : List UInt8 := asciiBytes "070701".toList

/-- `b"TRAILER!!!"`. -/
def trailerName : Path := asciiBytes "TRAILER!!!".toList

def sIfdir : Nat := 0o040000
def sIfreg : Nat := 0o100000
def sIflnk : Nat := 0o120000
def sIfchr : Nat := 0o020000
def sIfblk : Nat := 0o060000
def sIfifo : Nat := 0o010000

/-- The file type, and permissions that only depend on whether a file is executable. -/
def Body.mode : Body → Nat
  | .directory => sIfdir ||| 0o755
  | .symlink _ => sIflnk ||| 0o777
  | .fifo => sIfifo ||| 0o644
  | .device block _ _ => (if block then sIfblk else sIfchr) ||| 0o644
  | .file _ _ executable => sIfreg ||| if executable then 0o755 else 0o644
  | .inlined _ executable => sIfreg ||| if executable then 0o755 else 0o644

/-- File size and device numbers, as the header records them. -/
def Body.recorded : Body → Nat × Nat × Nat
  | .directory => (0, 0, 0)
  | .fifo => (0, 0, 0)
  | .device _ major minor => (0, major, minor)
  | .symlink target => (target.length, 0, 0)
  | .file _ size _ => (size, 0, 0)
  | .inlined data _ => (data.length, 0, 0)

/-! ## Writing -/

/-- An eight-digit header field. -/
def field (value : Nat) : Except IoError (List UInt8) :=
  if value > 0xFFFFFFFF then .error ⟨.other, s!"cpio field value {value} exceeds 32 bits"⟩
  else .ok (asciiBytes (hexDigits 8 value))

def fields : List Nat → Except IoError (List UInt8)
  | [] => .ok []
  | v :: vs => do
    let digits ← field v
    let rest ← fields vs
    return digits ++ rest

/-- The thirteen fields, in order: inode, mode, owner, group, links, time, size, two devices, name size, checksum. -/
def headerFields (mode filesize rdevmajor rdevminor namesize : Nat) : List Nat :=
  [0, mode, 0, 0, 1, 0, filesize, 0, 0, rdevmajor, rdevminor, namesize, 0]

def header (mode filesize rdevmajor rdevminor namesize : Nat) : Except IoError (List UInt8) := do
  let digits ← fields (headerFields mode filesize rdevmajor rdevminor namesize)
  return magic ++ digits

/-- NUL bytes needed to advance from `written` to the next 4-byte boundary. -/
def pad4 (written : Nat) : Nat := (4 - written % 4) % 4

def writePad (written : Nat) : List UInt8 := zeros (pad4 written)

def writeHeader (name : Path) (mode filesize rdevmajor rdevminor : Nat) : Except IoError (List UInt8) := do
  let namesize := name.length + 1
  let hdr ← header mode filesize rdevmajor rdevminor namesize
  return hdr ++ name ++ [0] ++ writePad (110 + namesize)

def changedError (source : Path) (size copied : Nat) : IoError :=
  ⟨.other, Utf8.lossy source ++ s!": file changed during archiving ({size} -> {copied} bytes)"⟩

/-- The bytes of a file, which must still be as many as when it was found. -/
def copyFile (files : Files) (source : Path) (size : Nat) : Except IoError (List UInt8) :=
  match files source with
  | .error e => .error ⟨e.kind, Utf8.lossy source ++ ": " ++ e.message⟩
  | .ok (.error e) => .error e
  | .ok (.ok content) => if content.length ≠ size then .error (changedError source size content.length) else .ok content

def writeBody (files : Files) : Body → Except IoError (List UInt8)
  | .symlink target => .ok (target ++ writePad target.length)
  | .file source size _ => do
    let content ← copyFile files source size
    return content ++ writePad size
  | .inlined data _ => .ok (data ++ writePad data.length)
  | .directory => .ok []
  | .device _ _ _ => .ok []
  | .fifo => .ok []

def writeEntry (files : Files) (entry : Entry) : Except IoError (List UInt8) := do
  let recorded := entry.body.recorded
  let hdr ← writeHeader entry.name entry.body.mode recorded.1 recorded.2.1 recorded.2.2
  let data ← writeBody files entry.body
  return hdr ++ data

/-- The entries, and the trailer behind them. -/
def writeArchive (files : Files) : List Entry → Except IoError (List UInt8)
  | [] => writeHeader trailerName 0 0 0 0
  | entry :: entries => do
    let first ← writeEntry files entry
    let rest ← writeArchive files entries
    return first ++ rest

/-! ## Reading -/

/-- One entry recovered from an archive. -/
structure Parsed where
  name : Path
  ino : Nat
  mode : Nat
  uid : Nat
  gid : Nat
  nlink : Nat
  mtime : Nat
  rdevmajor : Nat
  rdevminor : Nat
  data : List UInt8
  deriving DecidableEq, Repr

/-- `&buf[off..off + n]`, where it exists. -/
def range? (buf : List UInt8) (off n : Nat) : Option (List UInt8) :=
  if off + n ≤ buf.length then some (slice buf off n) else none

/-- `field(i)` of a header. -/
def readField (hdr : List UInt8) (i : Nat) : Option Nat := fromHex (slice hdr (6 + i * 8) 8)

/-- The entry at `pos`, and the position behind it. -/
def parseEntry (buf : List UInt8) (pos : Nat) : Option (Parsed × Nat) := do
  let hdr ← range? buf pos 110
  if hdr.take 6 ≠ magic then none
  else
    let ino ← readField hdr 0
    let mode ← readField hdr 1
    let uid ← readField hdr 2
    let gid ← readField hdr 3
    let nlink ← readField hdr 4
    let mtime ← readField hdr 5
    let filesize ← readField hdr 6
    let rdevmajor ← readField hdr 9
    let rdevminor ← readField hdr 10
    let namesize ← readField hdr 11
    if namesize = 0 then none
    else
      let name ← range? buf (pos + 110) (namesize - 1)
      let start := pos + 110 + namesize + pad4 (110 + namesize)
      let data ← range? buf start filesize
      return (⟨name, ino, mode, uid, gid, nlink, mtime, rdevmajor, rdevminor, data⟩, start + filesize + pad4 filesize)

/-- The entries from `pos` up to the first trailer, and the position behind that. -/
def parseFrom (buf : List UInt8) : Nat → Nat → Option (List Parsed × Nat)
  | 0, _ => none
  | fuel + 1, pos => do
    let (entry, next) ← parseEntry buf pos
    if entry.name = trailerName then return ([], next)
    let (entries, stop) ← parseFrom buf fuel next
    return (entry :: entries, stop)

/-- The whole archive. An entry takes a byte at least, so there are no more entries than bytes. -/
def parse (buf : List UInt8) : Option (List Parsed × Nat) := parseFrom buf (buf.length + 1) 0

end Peiosutils.Mkirf
