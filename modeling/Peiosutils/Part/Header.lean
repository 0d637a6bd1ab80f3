import Peiosutils.Lib.Bytes
import Peiosutils.Lib.Word
import Peiosutils.Part.Basics

/-!
# The GPT header

`toSector` writes a header, with its CRC over the 92 header bytes whose CRC field is zero; `parse` reads one and
checks signature, header size, CRC and entry size. `primaryArraySectors` checks where the header puts things on the
disk. The CRC comes from another library, so it is the parameter `crc32` of everything that takes a checksum.

The bytes that a header's CRC protects are `checkBytes`. `parse_eq_ok` says which sectors are accepted, and a written
header reads back (`parse_toSector`).
-/

set_option autoImplicit false

namespace Peiosutils.Part

open ByteStore Word64 Fallible

/-- The bytes of `EFI PART`. -/
def SIGNATURE : List UInt8 := [0x45, 0x46, 0x49, 0x20, 0x50, 0x41, 0x52, 0x54]

def REVISION : UInt32 := 0x00010000

def HEADER_SIZE : UInt32 := 92

def ENTRY_SIZE : UInt32 := 128

def NUM_ENTRIES : UInt32 := 128

/-- The logical sector sizes that `part` accepts. -/
def plausibleSectorSize (sectorSize : Nat) : Bool :=
  isPowerOfTwo sectorSize && 512 ≤ sectorSize && sectorSize ≤ 65536

structure GptHeader where
  myLba : UInt64
  alternateLba : UInt64
  firstUsableLba : UInt64
  lastUsableLba : UInt64
  diskGuid : Guid
  entryArrayLba : UInt64
  numEntries : UInt32
  entrySize : UInt32
  entriesCrc32 : UInt32
  deriving DecidableEq

namespace GptHeader

variable (crc32 : List UInt8 → UInt32)

/-- The fields of a header sector but for its CRC at 16, left zero while it is being computed, and the reserved
bytes at 20. -/
def layout (h : GptHeader) : List (Nat × List UInt8) :=
  [ (0, SIGNATURE),
    (8, u32le REVISION),
    (12, u32le HEADER_SIZE),
    (24, u64le h.myLba),
    (32, u64le h.alternateLba),
    (40, u64le h.firstUsableLba),
    (48, u64le h.lastUsableLba),
    (56, h.diskGuid.bytes),
    (72, u64le h.entryArrayLba),
    (80, u32le h.numEntries),
    (84, u32le h.entrySize),
    (88, u32le h.entriesCrc32) ]

/-- The header sector before its CRC is filled in. -/
def fillSector (h : GptHeader) (sectorSize : Nat) : List UInt8 := patchAll (zeros sectorSize) h.layout

/-- Serialise into a whole sector: 92 bytes of header, zero to the end. -/
def toSector (h : GptHeader) (sectorSize : Nat) : List UInt8 :=
  let s := h.fillSector sectorSize
  patch s 16 (u32le (crc32 (s.take HEADER_SIZE.toNat)))

/-- Check a primary header's disk-relative layout before reading its entry array. -/
def primaryArraySectors (h : GptHeader) (diskSectors : UInt64) (sectorSize : Nat) : Except PartError UInt64 :=
  if !plausibleSectorSize sectorSize then
    .error (.damaged s!"implausible logical sector size {sectorSize}")
  else
    let arrayBytes := h.numEntries.toUInt64 * h.entrySize.toUInt64
    let arraySectors := divCeil arrayBytes (UInt64.ofNat sectorSize)
    let arrayEnd := checkedAdd h.entryArrayLba arraySectors
    if arraySectors = 0 || arrayEnd.all (diskSectors < ·) then
      .error (.damaged s!"header describes a {h.numEntries}-entry array at LBA {h.entryArrayLba}, which does not fit on this disk")
    else if h.myLba ≠ 1 || diskSectors ≤ h.alternateLba then
      .error (.damaged "primary or backup header is outside its disk location")
    else if h.lastUsableLba < h.firstUsableLba || diskSectors ≤ h.lastUsableLba then
      .error (.damaged "usable range is reversed or extends beyond the disk")
    else if h.entryArrayLba < 2 || arrayEnd.all (h.firstUsableLba < ·) then
      .error (.damaged "primary entry array overlaps a header or the usable range")
    else if (checkedSub h.alternateLba arraySectors).all (· ≤ h.lastUsableLba) then
      .error (.damaged "backup metadata overlaps the usable range")
    else .ok arraySectors

/-- The fields of a header sector. -/
def fields (sector : List UInt8) : GptHeader where
  myLba := ofLe64 (slice sector 24 8)
  alternateLba := ofLe64 (slice sector 32 8)
  firstUsableLba := ofLe64 (slice sector 40 8)
  lastUsableLba := ofLe64 (slice sector 48 8)
  diskGuid := (Guid.fromBytes (slice sector 56 16)).getD .ZERO
  entryArrayLba := ofLe64 (slice sector 72 8)
  numEntries := ofLe32 (slice sector 80 4)
  entrySize := ofLe32 (slice sector 84 4)
  entriesCrc32 := ofLe32 (slice sector 88 4)

/-- The bytes that the header CRC covers: `header_size` of them, the CRC field zeroed. -/
def checkBytes (sector : List UInt8) : List UInt8 :=
  patch (sector.take (ofLe32 (slice sector 12 4)).toNat) 16 (zeros 4)

/-- Parse and validate a header sector. -/
def parse (sector : List UInt8) : Except PartError GptHeader :=
  if sector.length < HEADER_SIZE.toNat then .error (.damaged "header sector is too short")
  else if slice sector 0 8 ≠ SIGNATURE then .error .noGpt
  else
    let headerSize := ofLe32 (slice sector 12 4)
    if headerSize < HEADER_SIZE || UInt32.ofNat sector.length < headerSize then
      .error (.damaged s!"header size {headerSize} is out of range")
    else
      let stored := ofLe32 (slice sector 16 4)
      let actual := crc32 (checkBytes sector)
      if stored ≠ actual then
        .error (.damaged s!"header CRC mismatch (stored {hex32 stored}, computed {hex32 actual})")
      else
        let entrySize := ofLe32 (slice sector 84 4)
        if entrySize < ENTRY_SIZE || entrySize % 8 ≠ 0 then
          .error (.damaged s!"implausible partition entry size {entrySize}")
        else .ok (fields sector)

/-! ## Reading a header -/

/-- What `parse` checks of a sector. -/
structure Accepted (sector : List UInt8) : Prop where
  length : HEADER_SIZE.toNat ≤ sector.length
  signature : slice sector 0 8 = SIGNATURE
  sizeMin : ¬ ofLe32 (slice sector 12 4) < HEADER_SIZE
  sizeMax : ¬ UInt32.ofNat sector.length < ofLe32 (slice sector 12 4)
  crc : ofLe32 (slice sector 16 4) = crc32 (checkBytes sector)
  entrySize : ¬ ofLe32 (slice sector 84 4) < ENTRY_SIZE
  entryStride : ofLe32 (slice sector 84 4) % 8 = 0

theorem parse_eq_ok {sector : List UInt8} {h : GptHeader} :
    parse crc32 sector = .ok h ↔ Accepted crc32 sector ∧ fields sector = h := by
  simp only [parse, guard_eq_ok, Bool.or_eq_true, decide_eq_true_eq, not_or, not_not, not_lt, Except.ok.injEq]
  constructor
  · rintro ⟨h₁, h₂, ⟨h₃, h₄⟩, h₅, ⟨h₆, h₇⟩, h⟩
    exact ⟨⟨h₁, h₂, h₃, h₄, h₅, h₆, h₇⟩, h⟩
  · rintro ⟨⟨h₁, h₂, h₃, h₄, h₅, h₆, h₇⟩, h⟩
    exact ⟨h₁, h₂, ⟨h₃, h₄⟩, h₅, ⟨h₆, h₇⟩, h⟩

/-- A sector is refused as no GPT or as a damaged one. -/
theorem parse_error {sector : List UInt8} {e : PartError} (h : parse crc32 sector = .error e) : e.Reports := by
  simp only [parse, guard_eq_error, reduceCtorEq, and_false, or_false] at h
  rcases h with ⟨-, rfl⟩ | ⟨-, ⟨-, rfl⟩ | ⟨-, ⟨-, rfl⟩ | ⟨-, ⟨-, rfl⟩ | ⟨-, -, rfl⟩⟩⟩⟩
  · exact .damaged _
  · exact Or.inl rfl
  · exact .damaged _
  · exact .damaged _
  · exact .damaged _

/-- The fields of a header are read from its bytes 24 to 91. -/
theorem fields_congr {s s' : List UInt8} (h : ∀ o n, 24 ≤ o → o + n ≤ 92 → slice s o n = slice s' o n) :
    fields s = fields s' := by
  simp (disch := omega) only [fields, h]

/-- With the usual header size, the bytes under the CRC determine the fields. -/
theorem fields_of_checkBytes {s s' : List UInt8} (hl : 92 ≤ s.length) (hl' : 92 ≤ s'.length)
    (hs : ofLe32 (slice s 12 4) = HEADER_SIZE) (hs' : ofLe32 (slice s' 12 4) = HEADER_SIZE)
    (h : checkBytes s = checkBytes s') : fields s = fields s' := by
  have key : ∀ {t : List UInt8} {o n : Nat}, 92 ≤ t.length → ofLe32 (slice t 12 4) = HEADER_SIZE → 24 ≤ o →
      o + n ≤ 92 → slice (checkBytes t) o n = slice t o n := by
    intro t o n htl ht ho hn
    have h92 : HEADER_SIZE.toNat = 92 := rfl
    rw [checkBytes, ht, h92, slice_patch_after (by simp; omega) (by simp; omega), ← slice_zero, slice_slice t hn,
      Nat.zero_add]
  exact fields_congr fun o n ho hn => by rw [← key hl hs ho hn, ← key hl' hs' ho hn, h]

/-! ## Writing a header -/

theorem layout_within (h : GptHeader) {n : Nat} (hn : 92 ≤ n) : Within h.layout n := by
  have hsig : SIGNATURE.length = 8 := rfl
  simp only [Within, layout, List.mem_cons, List.not_mem_nil, or_false, forall_eq_or_imp, forall_eq, hsig,
    Guid.length_bytes, length_u32le, length_u64le]
  omega

theorem layout_apart (h : GptHeader) : h.layout.Pairwise Apart := by
  have hsig : SIGNATURE.length = 8 := rfl
  simp [layout, Apart, hsig]

section ToSector

variable (h : GptHeader) {sectorSize : Nat} (hs : 512 ≤ sectorSize)

include hs

theorem length_fillSector : (h.fillSector sectorSize).length = sectorSize := by
  rw [fillSector, length_patchAll, length_zeros]
  exact h.layout_within (by simp; omega)

/-- A field of the filled sector. -/
theorem slice_fillSector {o : Nat} {p : List UInt8} {n : Nat} (hm : (o, p) ∈ h.layout) (hn : n = p.length) :
    slice (h.fillSector sectorSize) o n = p :=
  slice_patchAll_self (h.layout_within (by simp; omega)) h.layout_apart hm hn

theorem length_toSector : (h.toSector crc32 sectorSize).length = sectorSize := by
  rw [toSector, length_patch_of_le] <;> simp only [length_fillSector h hs, length_u32le]
  omega

/-- Outside the CRC field the written sector is the filled one. -/
theorem slice_toSector {o n : Nat} (ho : o + n ≤ 16 ∨ 20 ≤ o) :
    slice (h.toSector crc32 sectorSize) o n = slice (h.fillSector sectorSize) o n := by
  have hl := length_fillSector h hs
  simp only [toSector]
  rcases ho with ho | ho
  · exact slice_patch_before (by omega) ho
  · exact slice_patch_after (by omega) (by simpa using ho)

/-- Every field of the written sector. -/
theorem field_toSector : ∀ q ∈ h.layout, slice (h.toSector crc32 sectorSize) q.1 q.2.length = q.2 := by
  intro q hq
  have ho : q.1 + q.2.length ≤ 16 ∨ 20 ≤ q.1 := by
    have hsig : SIGNATURE.length = 8 := rfl
    revert q
    simp [layout, hsig]
  rw [slice_toSector crc32 h hs ho, slice_fillSector h hs hq rfl]

theorem fields_toSector : fields (h.toSector crc32 sectorSize) = h := by
  have key := field_toSector crc32 h hs
  simp only [layout, List.forall_mem_cons, length_u32le, length_u64le, Guid.length_bytes] at key
  obtain ⟨-, -, -, h₁, h₂, h₃, h₄, h₅, h₆, h₇, h₈, h₉, -⟩ := key
  simp only [fields, h₁, h₂, h₃, h₄, h₅, h₆, h₇, h₈, h₉, ofLe64_u64le, ofLe32_u32le, Guid.fromBytes_bytes,
    Option.getD_some]

/-- The bytes under the CRC of a written sector are the filled ones. -/
theorem checkBytes_toSector : checkBytes (h.toSector crc32 sectorSize) = (h.fillSector sectorSize).take 92 := by
  have hl := length_fillSector h hs
  have key := field_toSector crc32 h hs
  simp only [layout, List.forall_mem_cons, length_u32le] at key
  obtain ⟨-, -, hsize, -⟩ := key
  have h92 : HEADER_SIZE.toNat = 92 := rfl
  have hz : slice (h.fillSector sectorSize) 16 4 = zeros 4 := by
    rw [fillSector, slice_patchAll_of_apart (h.layout_within (by simp; omega)) _, slice_zeros (by omega)]
    have hsig : SIGNATURE.length = 8 := rfl
    simp [layout, hsig]
  rw [checkBytes, hsize, ofLe32_u32le, h92]
  apply List.ext_getElem?
  intro i
  have hlen : (h.toSector crc32 sectorSize).length = sectorSize := length_toSector crc32 h hs
  rw [getElem?_patch (by simp; omega), length_zeros]
  split
  · rename_i hi
    rw [List.getElem?_take_of_lt (by omega), ← hz, getElem?_slice, if_pos (by omega),
      show 16 + (i - 16) = i by omega]
  · rename_i hi
    by_cases h92 : i < 92
    · rw [List.getElem?_take_of_lt h92, List.getElem?_take_of_lt h92, toSector, getElem?_patch (by omega), if_neg]
      simpa using hi
    · rw [List.getElem?_take_eq_none (by omega), List.getElem?_take_eq_none (by omega)]

/-- A written header is accepted. -/
theorem accepted_toSector (hlt : sectorSize < 2 ^ 32) (he : ENTRY_SIZE ≤ h.entrySize) (h8 : h.entrySize % 8 = 0) :
    Accepted crc32 (h.toSector crc32 sectorSize) := by
  have hl := length_toSector crc32 h hs
  have hf := length_fillSector h hs
  have key := field_toSector crc32 h hs
  simp only [layout, List.forall_mem_cons, length_u32le] at key
  obtain ⟨hsig, -, hsize, -, -, -, -, -, -, -, hes, -⟩ := key
  have h92 : HEADER_SIZE.toNat = 92 := rfl
  refine ⟨by omega, hsig, ?_, ?_, ?_, ?_, ?_⟩
  · rw [hsize, ofLe32_u32le]; decide
  · rw [hsize, ofLe32_u32le, UInt32.lt_iff_toNat_lt, hl, UInt32.toNat_ofNat_of_lt' hlt]; omega
  · rw [checkBytes_toSector crc32 h hs]
    simp only [toSector, h92]
    rw [slice_patch_self (by omega) (by simp), ofLe32_u32le]
  · rw [hes, ofLe32_u32le]; exact UInt32.not_lt.2 he
  · rw [hes, ofLe32_u32le]; exact h8

/-- A written header reads back. -/
theorem parse_toSector (hlt : sectorSize < 2 ^ 32) (he : ENTRY_SIZE ≤ h.entrySize) (h8 : h.entrySize % 8 = 0) :
    parse crc32 (h.toSector crc32 sectorSize) = .ok h :=
  (parse_eq_ok crc32).2 ⟨accepted_toSector crc32 h hs hlt he h8, fields_toSector crc32 h hs⟩

end ToSector

end GptHeader

end Peiosutils.Part
