import Mathlib.Data.List.Sort
import Mathlib.Data.List.TakeWhile
import Peiosutils.Lib.Bytes
import Peiosutils.Lib.Choose
import Peiosutils.Lib.Utf16
import Peiosutils.Part.Basics
import Peiosutils.Part.Header

/-!
# A GPT partition entry

128 bytes: two GUIDs, an inclusive LBA range, an attribute word, and a name of up to 36 UTF-16LE code units.

An entry reads back from its bytes except for its name, which ends at its first NUL (`parse_toBytes`); every entry
that was read has a name that survives (`storable_of_parse`).
-/

set_option autoImplicit false

namespace Peiosutils.Part

open ByteStore

/-- Name capacity in UTF-16 code units. -/
def NAME_UNITS : Nat := 36

structure GptEntry where
  typeGuid : Guid := .ZERO
  uniqueGuid : Guid := .ZERO
  startingLba : UInt64 := 0
  /-- Inclusive: the last sector of the partition. -/
  endingLba : UInt64 := 0
  attributes : UInt64 := 0
  name : String := ""
  deriving DecidableEq

instance : Inhabited GptEntry := ⟨{}⟩

namespace GptEntry

def isUsed (e : GptEntry) : Bool := !e.typeGuid.isZero

/-- Length in sectors; zero for an unused entry. -/
def sectors (e : GptEntry) : UInt64 :=
  if e.isUsed && e.startingLba ≤ e.endingLba then e.endingLba - e.startingLba + 1 else 0

/-- Does the sector range of `e` intersect `[start, stop]`? -/
def overlaps (e : GptEntry) (start stop : UInt64) : Bool :=
  e.isUsed && e.startingLba ≤ stop && start ≤ e.endingLba

/-- The code units of the name. -/
def units (e : GptEntry) : List UInt16 := Utf16.encode e.name.toList

def toBytes (e : GptEntry) : List UInt8 :=
  let b := zeros 128
  let b := patch b 0 e.typeGuid.bytes
  let b := patch b 16 e.uniqueGuid.bytes
  let b := patch b 32 (u64le e.startingLba)
  let b := patch b 40 (u64le e.endingLba)
  let b := patch b 48 (u64le e.attributes)
  patch b 56 ((e.units.take NAME_UNITS).flatMap u16le)

/-- The code units of the name field, up to the first zero. -/
def parseUnits (b : List UInt8) : List UInt16 :=
  ((List.range NAME_UNITS).map fun i => ofLe16 (slice b (56 + i * 2) 2)).takeWhile (· ≠ 0)

/-- All code units of the name field. -/
def nameUnits (b : List UInt8) : List UInt16 := (List.range NAME_UNITS).map fun i => ofLe16 (slice b (56 + i * 2) 2)

theorem parseUnits_eq (b : List UInt8) : parseUnits b = (nameUnits b).takeWhile (· ≠ 0) := rfl

def parse (b : List UInt8) : Option GptEntry :=
  if b.length < 128 then none
  else do
    let typeGuid ← Guid.fromBytes (slice b 0 16)
    let uniqueGuid ← Guid.fromBytes (slice b 16 16)
    pure {
      typeGuid, uniqueGuid
      startingLba := ofLe64 (slice b 32 8)
      endingLba := ofLe64 (slice b 40 8)
      attributes := ofLe64 (slice b 48 8)
      name := String.ofList (Utf16.decodeLossy (parseUnits b)) }

/-- Reject a name that cannot be stored, rather than silently truncating it. -/
def validateName (name : String) : Except PartError Unit :=
  let units := (Utf16.encode name.toList).length
  if NAME_UNITS < units then
    .error (.usage s!"partition name is {units} UTF-16 code units; the limit is {NAME_UNITS}")
  else .ok ()

/-! ## Reading an entry back -/

/-- The entry with its name cut at the first NUL, which is all of a name that the bytes can hold. -/
def cutName (e : GptEntry) : GptEntry :=
  { e with name := String.ofList (e.name.toList.takeWhile (· ≠ '\x00')) }

/-- The name fits the name field. -/
def NameFits (e : GptEntry) : Prop := e.units.length ≤ NAME_UNITS

instance (e : GptEntry) : Decidable e.NameFits := inferInstanceAs (Decidable (_ ≤ _))

theorem validateName_ok {name : String} (h : validateName name = .ok ()) :
    (Utf16.encode name.toList).length ≤ NAME_UNITS := by
  by_contra hn
  simp [validateName, show NAME_UNITS < (Utf16.encode name.toList).length by omega] at h

theorem length_flatMap_u16le : ∀ us : List UInt16, (us.flatMap u16le).length = 2 * us.length
  | [] => rfl
  | u :: us => by simp [length_flatMap_u16le us]; omega

theorem length_nameField (e : GptEntry) : ((e.units.take NAME_UNITS).flatMap u16le).length ≤ 72 := by
  rw [length_flatMap_u16le, List.length_take]
  simp only [NAME_UNITS]
  omega

@[simp] theorem length_toBytes (e : GptEntry) : e.toBytes.length = 128 := by
  have := length_nameField e
  simp only [toBytes, length_patch, length_zeros, Guid.length_bytes, length_u64le]
  omega

/-- The `i`-th unit of a sequence of units in bytes. -/
theorem slice_flatMap_u16le : ∀ {us : List UInt16} {i : Nat} {u : UInt16}, us[i]? = some u →
    slice (us.flatMap u16le) (i * 2) 2 = u16le u
  | [], _, _, h => by simp at h
  | v :: us, 0, u, h => by
    simp only [List.getElem?_cons_zero, Option.some.injEq] at h
    subst h
    rw [List.flatMap_cons, slice_append_left (by simp), slice_zero, List.take_of_length_le (by simp)]
  | v :: us, i + 1, u, h => by
    simp only [List.getElem?_cons_succ] at h
    rw [List.flatMap_cons, slice_append_right (by simp), length_u16le,
      show (i + 1) * 2 - 2 = i * 2 by omega, slice_flatMap_u16le h]

/-- The bytes behind the name are still zero. -/
theorem slice_toBytes_pad {e : GptEntry} {i : Nat} (h : (e.units.take NAME_UNITS).length ≤ i) (hi : i < NAME_UNITS) :
    slice e.toBytes (56 + i * 2) 2 = u16le 0 := by
  have := length_nameField e
  have hl := length_flatMap_u16le (e.units.take NAME_UNITS)
  rw [NAME_UNITS] at hi
  simp only [toBytes]
  rw [slice_patch_after (by simp) (by omega)]
  simp (disch := simp <;> omega) only [slice_patch_after, slice_zeros]
  rfl

/-- A unit of the name. -/
theorem slice_toBytes_unit {e : GptEntry} {i : Nat} {u : UInt16} (h : (e.units.take NAME_UNITS)[i]? = some u) :
    slice e.toBytes (56 + i * 2) 2 = u16le u := by
  have hi := (List.getElem?_eq_some_iff.1 h).1
  have hl := length_flatMap_u16le (e.units.take NAME_UNITS)
  simp only [toBytes]
  rw [slice_patch_inside (by simp) (by omega) (by omega), show 56 + i * 2 - 56 = i * 2 by omega,
    slice_flatMap_u16le h]

/-- The name field of a stored entry: the units that fit, and zeros. -/
theorem nameUnits_toBytes (e : GptEntry) : nameUnits e.toBytes =
    e.units.take NAME_UNITS ++ List.replicate (NAME_UNITS - (e.units.take NAME_UNITS).length) 0 := by
  apply List.ext_getElem?
  intro i
  rw [nameUnits, List.getElem?_map]
  by_cases hi : i < NAME_UNITS
  · rw [List.getElem?_range hi, Option.map_some]
    by_cases hl : i < (e.units.take NAME_UNITS).length
    · rw [List.getElem?_append_left hl, List.getElem?_eq_getElem hl,
        slice_toBytes_unit (List.getElem?_eq_getElem hl), ofLe16_u16le]
    · rw [List.getElem?_append_right (by omega), List.getElem?_replicate, if_pos (by omega),
        slice_toBytes_pad (by omega) hi, ofLe16_u16le]
  · rw [List.getElem?_eq_none (by simpa using hi), List.getElem?_eq_none (by simp at *; omega)]
    rfl

/-- The name field read back: the units that fit, up to the first zero. -/
theorem parseUnits_toBytes (e : GptEntry) :
    parseUnits e.toBytes = (e.units.take NAME_UNITS).takeWhile (· ≠ 0) := by
  rw [parseUnits_eq, nameUnits_toBytes]
  by_cases hz : ∀ u ∈ e.units.take NAME_UNITS, decide (u ≠ 0) = true
  · rw [List.takeWhile_append_of_pos hz, List.takeWhile_eq_self_iff.2 hz]
    cases NAME_UNITS - (e.units.take NAME_UNITS).length with
    | zero => simp
    | succ n => simp [List.replicate_succ]
  · rw [List.takeWhile_append, if_neg]
    intro hlen
    apply hz
    intro u hu
    have := (List.takeWhile_prefix (fun u : UInt16 => decide (u ≠ 0)) (l := e.units.take NAME_UNITS)).eq_of_length hlen
    rw [← this] at hu
    exact List.mem_takeWhile_imp (p := fun u : UInt16 => decide (u ≠ 0)) hu

/-- The fields in front of the name lie in the bytes where reading looks for them. -/
theorem slice_toBytes_fields (e : GptEntry) :
    slice e.toBytes 0 16 = e.typeGuid.bytes ∧ slice e.toBytes 16 16 = e.uniqueGuid.bytes ∧
      slice e.toBytes 32 8 = u64le e.startingLba ∧ slice e.toBytes 40 8 = u64le e.endingLba ∧
      slice e.toBytes 48 8 = u64le e.attributes := by
  refine ⟨?_, ?_, ?_, ?_, ?_⟩ <;> simp (disch := simp) only [toBytes, slice_patch_before, slice_patch_self]

/-- An entry whose name fits reads back with its name cut at the first NUL. -/
theorem parse_toBytes {e : GptEntry} (h : e.NameFits) : parse e.toBytes = some e.cutName := by
  have hname : Utf16.decodeLossy (parseUnits e.toBytes) = e.name.toList.takeWhile (· ≠ '\x00') := by
    rw [parseUnits_toBytes, List.take_of_length_le h, units, Utf16.takeWhile_encode, Utf16.decodeLossy_encode]
  obtain ⟨h₀, h₁, h₂, h₃, h₄⟩ := slice_toBytes_fields e
  rw [parse, if_neg (by simp), h₀, h₁, h₂, h₃, h₄, hname]
  simp [cutName]

/-- Reading an entry looks at its first 128 bytes only. -/
theorem parse_of_slice {b : List UInt8} (b' : List UInt8) (hb : slice b 0 128 = b') (hl : b'.length = 128) : parse b = parse b' := by
  have hlen : 128 ≤ b.length := by
    have := congrArg List.length hb
    simp at this
    omega
  have hs : ∀ o n, o + n ≤ 128 → slice b o n = slice b' o n := fun o n h => by
    rw [← hb, slice_slice b h, Nat.zero_add]
  have hu : parseUnits b = parseUnits b' := by
    unfold parseUnits
    congr 1
    apply List.map_congr_left
    intro i hi
    rw [List.mem_range, NAME_UNITS] at hi
    rw [hs _ _ (by omega)]
  rw [parse, parse, if_neg (by omega), if_neg (by omega), hu, hs 0 16 (by omega), hs 16 16 (by omega),
    hs 32 8 (by omega), hs 40 8 (by omega), hs 48 8 (by omega)]

/-! ## Names that were read -/

/-- The name fits and is not cut: what every entry that was read satisfies. -/
structure Storable (e : GptEntry) : Prop where
  fits : e.NameFits
  uncut : e.cutName = e

theorem cutName_eq_self {e : GptEntry} (h : '\x00' ∉ e.name.toList) : e.cutName = e := by
  have : e.name.toList.takeWhile (· ≠ '\x00') = e.name.toList := by
    rw [List.takeWhile_eq_self_iff]
    intro c hc
    exact decide_eq_true fun he => h (he ▸ hc)
  rw [cutName, this, String.ofList_toList]

theorem storable_of_parse {b : List UInt8} {e : GptEntry} (h : parse b = some e) : e.Storable := by
  rw [parse] at h
  split at h
  · cases h
  · simp only [Option.bind_eq_bind, Option.pure_def, Option.bind_eq_some_iff, Option.some.injEq] at h
    obtain ⟨tg, -, ug, -, rfl⟩ := h
    constructor
    · have h₁ := Utf16.length_encode_decodeLossy (parseUnits b)
      have h₂ : (parseUnits b).length ≤ NAME_UNITS := by
        exact (List.takeWhile_sublist _).length_le.trans (by simp)
      simp only [NameFits, units, String.toList_ofList]
      omega
    · apply cutName_eq_self
      rw [String.toList_ofList]
      apply Utf16.nul_notMem_decodeLossy
      intro h0
      have := List.mem_takeWhile_imp h0
      simp at this

/-- The default entry is stored as it is. -/
theorem storable_default : (default : GptEntry).Storable := by
  constructor
  · simp [NameFits, units, default]
  · exact cutName_eq_self (by simp [default])

@[simp] theorem isUsed_default : (default : GptEntry).isUsed = false := by decide

end GptEntry

end Peiosutils.Part

/-!
# The protective MBR
-/

namespace Peiosutils.Part.Mbr

open ByteStore

/-- The OS type that marks a protective MBR partition record. -/
def PROTECTIVE_TYPE : UInt8 := 0xEE

/-- Build the protective MBR sector. -/
def protective (diskSectors : UInt64) (sectorSize : Nat) : List UInt8 :=
  let s := zeros sectorSize
  -- record 1: not bootable, CHS 0/0/2 .. 0xFFFFFF, from LBA 1
  let s := patch s 446 [0x00, 0x00, 0x02, 0x00, PROTECTIVE_TYPE, 0xFF, 0xFF, 0xFF]
  let s := patch s 454 (u32le 1)
  -- the size saturates where the disk has more sectors than 32 bits count
  let s := patch s 458 (u32le (UInt32.ofNat (min (diskSectors.toNat - 1) (2 ^ 32 - 1))))
  patch s 510 [0x55, 0xAA]

def hasSignature (sector : List UInt8) : Bool :=
  512 ≤ sector.length && slice sector 510 2 = [0x55, 0xAA]

/-- The OS type of record `i`. -/
def osType (sector : List UInt8) (i : Nat) : UInt8 := sector.getD (446 + i * 16 + 4) 0

/-- The boot signature plus a protective record. -/
def isProtective (sector : List UInt8) : Bool :=
  hasSignature sector && (List.range 4).any fun i => osType sector i = PROTECTIVE_TYPE

/-- The boot signature and a record that is neither empty nor protective. -/
def isRealMbr (sector : List UInt8) : Bool :=
  hasSignature sector && (List.range 4).any fun i => osType sector i ≠ 0 && osType sector i ≠ PROTECTIVE_TYPE

theorem length_protective {diskSectors : UInt64} {sectorSize : Nat} (h : 512 ≤ sectorSize) :
    (protective diskSectors sectorSize).length = sectorSize := by
  simp only [protective, length_patch, length_zeros, length_u32le, List.length_cons, List.length_nil]
  omega

end Peiosutils.Part.Mbr

/-!
# A GPT as a value: build it, change it, serialise it

The table in memory, as `gpt/mod.rs` computes with it. Sector numbers are 64-bit words whose `+`, `-` and `*` wrap,
as in the release build. A method that takes `&mut self` returns its result and the table afterwards; the random GUID
that `add` may draw is an argument.
-/

namespace Peiosutils.Part

open ByteStore Word64 ListChoice

/-- Partition alignment, in bytes. -/
def ALIGN_BYTES : UInt64 := 1024 * 1024

/-- A parsed or freshly built GPT. The array geometry and the usable range are carried, not recomputed. -/
structure Gpt where
  sectorSize : Nat
  diskSectors : UInt64
  diskGuid : Guid
  numEntries : UInt32
  entrySize : UInt32
  entryArrayLba : UInt64
  firstUsableLba : UInt64
  lastUsableLba : UInt64
  entries : List GptEntry
  deriving DecidableEq

/-- An inclusive run of unallocated sectors, with `start` already aligned. -/
structure FreeExtent where
  start : UInt64
  stop : UInt64
  deriving DecidableEq

def FreeExtent.sectors (f : FreeExtent) : UInt64 := saturatingSub f.stop f.start + 1

def alignUp (v align : UInt64) : UInt64 := divCeil v align * align

namespace Gpt

/-! ## Sizes -/

def arraySectorsFor (numEntries entrySize : UInt32) (sectorSize : Nat) : UInt64 :=
  divCeil (numEntries.toUInt64 * entrySize.toUInt64) (UInt64.ofNat sectorSize)

/-- Sectors of one copy of the default entry array. -/
def entryArraySectors (sectorSize : Nat) : UInt64 := arraySectorsFor NUM_ENTRIES ENTRY_SIZE sectorSize

/-- Sectors of one copy of this table's entry array. -/
def arraySectors (g : Gpt) : UInt64 := arraySectorsFor g.numEntries g.entrySize g.sectorSize

/-- Alignment in sectors, never zero. -/
def alignSectors (sectorSize : Nat) : UInt64 := max (ALIGN_BYTES / UInt64.ofNat sectorSize) 1

/-- The smallest disk that can hold a GPT with room for one aligned partition. -/
def minimumSectors (sectorSize : Nat) : UInt64 := 3 + 2 * entryArraySectors sectorSize + alignSectors sectorSize

def lastLba (g : Gpt) : UInt64 := g.diskSectors - 1

def backupEntriesLba (g : Gpt) : UInt64 := g.lastLba - g.arraySectors

/-! ## Building and reading a table -/

/-- A fresh, empty table. -/
def create (diskSectors : UInt64) (sectorSize : Nat) (random : Guid) : Except PartError Gpt :=
  if !plausibleSectorSize sectorSize then
    .error (.usage s!"implausible logical sector size {sectorSize}")
  else
    let min := minimumSectors sectorSize
    if diskSectors < min then
      .error (.usage s!"disk is {diskSectors} sectors; a GPT with usable space needs at least {min}")
    else
      let array := entryArraySectors sectorSize
      .ok {
        sectorSize, diskSectors
        diskGuid := random
        numEntries := NUM_ENTRIES
        entrySize := ENTRY_SIZE
        entryArrayLba := 2
        firstUsableLba := 2 + array
        lastUsableLba := diskSectors - 1 - array - 1
        entries := List.replicate NUM_ENTRIES.toNat default }

/-- The entries `i`, `i + 1`, … of an entry array, `n` of them. -/
def parseEntries (array : List UInt8) (entrySize : Nat) : Nat → Nat → Except PartError (List GptEntry)
  | _, 0 => .ok []
  | i, n + 1 =>
    match GptEntry.parse (slice array (i * entrySize) entrySize) with
    | none => .error (.damaged s!"entry {i + 1} is malformed")
    | some e =>
      match parseEntries array entrySize (i + 1) n with
      | .error err => .error err
      | .ok es => .ok (e :: es)

/-- The table that a header describes. -/
def ofHeader (h : GptHeader) (diskSectors : UInt64) (sectorSize : Nat) (entries : List GptEntry) : Gpt where
  sectorSize := sectorSize
  diskSectors := diskSectors
  diskGuid := h.diskGuid
  numEntries := h.numEntries
  entrySize := h.entrySize
  entryArrayLba := h.entryArrayLba
  firstUsableLba := h.firstUsableLba
  lastUsableLba := h.lastUsableLba
  entries := entries

/-- Rebuild a table from its primary header sector and its whole primary entry array. -/
def parse (crc32 : List UInt8 → UInt32) (diskSectors : UInt64) (sectorSize : Nat)
    (headerSector entryBytes : List UInt8) : Except PartError Gpt := do
  let h ← GptHeader.parse crc32 headerSector
  let _ ← h.primaryArraySectors diskSectors sectorSize
  let want := h.numEntries.toNat * h.entrySize.toNat
  if entryBytes.length < want then
    .error (.damaged "entry array is shorter than the header claims")
  else
    let array := entryBytes.take want
    let actual := crc32 array
    if actual ≠ h.entriesCrc32 then
      .error (.damaged s!"partition entry CRC mismatch (stored {hex32 h.entriesCrc32}, computed {hex32 actual})")
    else do
      let entries ← parseEntries array h.entrySize.toNat 0 h.numEntries.toNat
      .ok (ofHeader h diskSectors sectorSize entries)

/-! ## Serialising a table -/

/-- The entry array, zero-padded to its full size: each entry goes into the first 128 bytes of its stride. -/
def entryArray (g : Gpt) : List UInt8 :=
  let stride := g.entrySize.toNat
  patchAll (zeros (g.numEntries.toNat * stride))
    ((g.entries.take g.numEntries.toNat).zipIdx.map fun (e, i) => (i * stride, e.toBytes))

def headerFor (g : Gpt) (primary : Bool) (entriesCrc : UInt32) : GptHeader where
  myLba := if primary then 1 else g.lastLba
  alternateLba := if primary then g.lastLba else 1
  firstUsableLba := g.firstUsableLba
  lastUsableLba := g.lastUsableLba
  diskGuid := g.diskGuid
  entryArrayLba := if primary then g.entryArrayLba else g.backupEntriesLba
  numEntries := g.numEntries
  entrySize := g.entrySize
  entriesCrc32 := entriesCrc

/-- The entry array, padded to whole sectors. -/
def paddedArray (g : Gpt) : List UInt8 :=
  resize g.entryArray (g.arraySectors.toNat * g.sectorSize)

/-- The complete set of writes, in the order they must be issued: entries before the headers that vouch for them. -/
def writes (crc32 : List UInt8 → UInt32) (g : Gpt) : List (UInt64 × List UInt8) :=
  let crc := crc32 g.entryArray
  [ (0, Mbr.protective g.diskSectors g.sectorSize),
    (g.entryArrayLba, g.paddedArray),
    (g.backupEntriesLba, g.paddedArray),
    (1, (g.headerFor true crc).toSector crc32 g.sectorSize),
    (g.lastLba, (g.headerFor false crc).toSector crc32 g.sectorSize) ]

/-! ## Changing a table -/

/-- The ranges of the used entries, sorted. -/
def usedRanges (g : Gpt) : List (UInt64 × UInt64) :=
  ((g.entries.filter GptEntry.isUsed).map fun e => (e.startingLba, e.endingLba)).insertionSort
    fun x y => x.1 < y.1 ∨ x.1 = y.1 ∧ x.2 ≤ y.2

/-- Walk `cursor` over the used ranges: the extents in front of them, and the cursor behind them. -/
def carve (align : UInt64) : UInt64 → List (UInt64 × UInt64) → List FreeExtent × UInt64
  | cursor, [] => ([], cursor)
  | cursor, (s, e) :: used =>
    let out := if cursor < s then [⟨cursor, s - 1⟩] else []
    let rest := carve align (max cursor (alignUp (saturatingAdd e 1) align)) used
    (out ++ rest.1, rest.2)

/-- Unallocated runs, aligned and in ascending order. -/
def freeExtents (g : Gpt) : List FreeExtent :=
  let align := alignSectors g.sectorSize
  let (out, cursor) := carve align (alignUp g.firstUsableLba align) g.usedRanges
  let out := if cursor ≤ g.lastUsableLba then out ++ [⟨cursor, g.lastUsableLba⟩] else out
  -- an extent whose alignment consumed it entirely is not an extent
  out.filter fun f => f.start ≤ f.stop

/-- Where `add` puts a partition of `sectors`, or of the largest free run. -/
def chooseExtent (extents : List FreeExtent) : Option UInt64 → Except PartError FreeExtent
  | some n =>
    if n = 0 then .error (.usage "size must be non-zero")
    else
      match extents.find? fun f => n ≤ f.sectors with
      | some f => .ok ⟨f.start, f.start + n - 1⟩
      | none => .error (.noSpace n ((extents.map FreeExtent.sectors).foldl max 0))
  | none =>
    match lastMax (fun f => f.sectors.toNat) extents with
    | some f => .ok f
    | none => .error (.noSpace 0 0)

/-- The entry that `add` stores. -/
def newEntry (chosen : FreeExtent) (typeGuid uniqueGuid : Guid) (name : String) : GptEntry where
  typeGuid := typeGuid
  uniqueGuid := uniqueGuid
  startingLba := chosen.start
  endingLba := chosen.stop
  attributes := 0
  name := name

/-- Add a partition of `sectors` (or the largest free run when `none`); the 1-based index it landed in. -/
def add (sectors : Option UInt64) (typeGuid : Guid) (name : String) (unique : Option Guid) (random : Guid) (g : Gpt) :
    Except PartError Nat × Gpt :=
  match GptEntry.validateName name with
  | .error e => (.error e, g)
  | .ok () =>
    if typeGuid.isZero then (.error (.usage "a partition type GUID of all zeroes means 'unused'"), g)
    else
      match g.entries.findIdx? fun e => !e.isUsed with
      | none => (.error (.usage s!"all {NUM_ENTRIES} partition slots are in use"), g)
      | some slot =>
        match chooseExtent g.freeExtents sectors with
        | .error e => (.error e, g)
        | .ok chosen =>
          (.ok (slot + 1), { g with entries := g.entries.set slot (newEntry chosen typeGuid (unique.getD random) name) })

/-- Clear a partition by 1-based index. -/
def remove (index : Nat) (g : Gpt) : Except PartError Unit × Gpt :=
  if index = 0 ∨ g.entries.length ≤ index - 1 then (.error (.usage s!"no partition {index}"), g)
  else if !(g.entries.getD (index - 1) default).isUsed then
    (.error (.usage s!"partition {index} is not in use"), g)
  else (.ok (), { g with entries := g.entries.set (index - 1) default })

end Gpt

end Peiosutils.Part
