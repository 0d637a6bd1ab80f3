import Mathlib.Data.Set.Function
import Peiosutils.Lib.ByteStore
import Peiosutils.Part.Layout
import Peiosutils.Part.Placement

/-!
# Disks: reading a table, committing its writes

A disk is its geometry and its bytes. `probe` decides what is on it; the table itself is read by `readTable`. `commit`
issues writes in order, and `cut` is the disk when that run ends early, after `j` whole writes and `k` bytes of the
next one.
-/

set_option autoImplicit false

namespace Peiosutils.Part

open ByteStore

structure Device where
  path : String
  sectorSize : Nat
  sectors : UInt64
  bytes : List UInt8
  /-- The disk has the sectors of its geometry; a file may have part of another one behind them. -/
  size : sectors.toNat * sectorSize ≤ bytes.length

/-- What was found on a disk. -/
inductive DiskState where
  | gpt (table : Gpt)
  /-- GPT structures are present but wrong. -/
  | damaged (message : String)
  | foreign (kind : String)
  | filesystem (fstype : String)
  | blank

/-- A patch does not shorten a store. -/
theorem le_length_patch {α : Type} {s p : List α} {off n : Nat} (h : n ≤ s.length) :
    n ≤ (patch s off p).length := by
  rw [length_patch]
  omega

namespace Device

/-! ## Sectors -/

def readSectors (d : Device) (lba count : UInt64) : Except PartError (List UInt8) :=
  let off := lba.toNat * d.sectorSize
  let len := count.toNat * d.sectorSize
  if off + len ≤ d.bytes.length then .ok (slice d.bytes off len)
  else .error (.io d.path "failed to fill whole buffer")

def writeAt (d : Device) (lba : UInt64) (data : List UInt8) : Device :=
  { d with
    bytes := patch d.bytes (lba.toNat * d.sectorSize) data
    size := le_length_patch d.size }

/-- Issue writes in order. -/
def commit (d : Device) : List (UInt64 × List UInt8) → Device
  | [] => d
  | (lba, data) :: ws => (d.writeAt lba data).commit ws

/-- Issue writes in order, but end after `j` of them and `k` bytes of the next. -/
def cut (d : Device) : List (UInt64 × List UInt8) → Nat → Nat → Device
  | [], _, _ => d
  | (lba, data) :: _, 0, k => d.writeAt lba (data.take k)
  | (lba, data) :: ws, j + 1, k => (d.writeAt lba data).cut ws j k

/-! ## What is on a disk -/

section Probe

variable (crc32 : List UInt8 → UInt32)

/-- Read the table of a disk: the header, the entry array that it describes, and both together. -/
def readTable (d : Device) : Except PartError Gpt := do
  let header ← d.readSectors 1 1
  let h ← GptHeader.parse crc32 header
  let sectors ← h.primaryArraySectors d.sectors d.sectorSize
  let entries ← d.readSectors h.entryArrayLba sectors
  Gpt.parse crc32 d.sectors d.sectorSize header entries

/-- Read a disk and decide what is on it. `blkid` is the answer of libblkid, if it has one: a partition table type and
a filesystem type. -/
def probe (blkid : Option (Option String × Option String)) (d : Device) : Except PartError DiskState := do
  let sector0 ← d.readSectors 0 1
  match d.readTable crc32 with
  | .ok g => .ok (.gpt g)
  | .error (.damaged message) => .ok (.damaged message)
  | .error .noGpt =>
    if Mbr.isProtective sector0 && !Mbr.isRealMbr sector0 then
      .ok (.damaged "a protective MBR is present but there is no valid GPT header")
    else if Mbr.isRealMbr sector0 then .ok (.foreign "dos")
    else
      match blkid with
      | some (pttype, fstype) =>
        match pttype.filter (· ≠ "gpt"), fstype with
        | some kind, _ => .ok (.foreign kind)
        | none, some fs => .ok (.filesystem fs)
        | none, none => .ok .blank
      | none => .ok .blank
  | .error e => .error e

end Probe

/-! ## Committed and cut runs as patches -/

/-- A write as a patch of the bytes. -/
def patchOf (sectorSize : Nat) (w : UInt64 × List UInt8) : Nat × List UInt8 := (w.1.toNat * sectorSize, w.2)

theorem commit_eq : ∀ (ws : List (UInt64 × List UInt8)) (d : Device),
    (d.commit ws).bytes = patchAll d.bytes (ws.map (patchOf d.sectorSize)) ∧
      (d.commit ws).sectors = d.sectors ∧ (d.commit ws).sectorSize = d.sectorSize
  | [], _ => ⟨rfl, rfl, rfl⟩
  | (lba, data) :: ws, d => commit_eq ws (d.writeAt lba data)

theorem cut_eq : ∀ (ws : List (UInt64 × List UInt8)) (j k : Nat) (d : Device),
    (d.cut ws j k).bytes = patchAll d.bytes (cutAll (ws.map (patchOf d.sectorSize)) j k) ∧
      (d.cut ws j k).sectors = d.sectors ∧ (d.cut ws j k).sectorSize = d.sectorSize
  | [], _, _, _ => ⟨rfl, rfl, rfl⟩
  | _ :: _, 0, _, _ => ⟨rfl, rfl, rfl⟩
  | (lba, data) :: ws, j + 1, k, d => cut_eq ws j k (d.writeAt lba data)

/-- A run that is cut behind its last write is the whole run. -/
theorem cut_length : ∀ (ws : List (UInt64 × List UInt8)) (k : Nat) (d : Device), d.cut ws ws.length k = d.commit ws
  | [], _, _ => rfl
  | (lba, data) :: ws, k, d => cut_length ws k (d.writeAt lba data)

/-- A run that is cut before its first byte leaves the disk as it was. -/
theorem cut_zero (ws : List (UInt64 × List UInt8)) (d : Device) : d.cut ws 0 0 = d := by
  cases ws with
  | nil => rfl
  | cons w ws => simp [cut, writeAt]

end Device

end Peiosutils.Part

/-!
# Committing a table on a machine that may die

A disk holds a healthy table, and the writes of a table that follows from it are cut at any byte. As long as no two
byte strings that are checksummed on the way share a checksum, the disk then reads as the old table, as the new one
with its names cut at their first NUL, or as damaged (`readTable_cut`). So it never reads as a third table exactly
when cutting the names changes nothing, or gives the old table back (`crash_safe_iff`).

The header sector is old, torn or new. Torn in its first 24 bytes it has the fields of the old one; torn behind them
its checksum is the new one, and so are its checked bytes if the header is accepted.
-/

namespace Peiosutils.Part

open ByteStore Word64 CallRun Fallible

namespace Device

/-! ## Reading a disk -/

section Read

variable {crc32 : List UInt8 → UInt32} {d : Device}

theorem readSectors_eq_ok {lba count : UInt64} {bytes : List UInt8} :
    d.readSectors lba count = .ok bytes ↔
      lba.toNat * d.sectorSize + count.toNat * d.sectorSize ≤ d.bytes.length ∧
        slice d.bytes (lba.toNat * d.sectorSize) (count.toNat * d.sectorSize) = bytes := by
  simp only [readSectors]
  split <;> simp_all

/-- Sectors of the disk can be read. -/
theorem readSectors_of_le (lba count : UInt64) (h : lba.toNat + count.toNat ≤ d.sectors.toNat) :
    d.readSectors lba count = .ok (slice d.bytes (lba.toNat * d.sectorSize) (count.toNat * d.sectorSize)) := by
  have h₁ := Nat.mul_le_mul_right d.sectorSize h
  have h₂ := d.size
  rw [Nat.add_mul] at h₁
  exact readSectors_eq_ok.2 ⟨by omega, rfl⟩

theorem readTable_eq_ok {g : Gpt} : d.readTable crc32 = .ok g ↔ ∃ header h entries,
    d.readSectors 1 1 = .ok header ∧ GptHeader.parse crc32 header = .ok h ∧ h.Placed d.sectors d.sectorSize ∧
      d.readSectors h.entryArrayLba (Gpt.arraySectorsFor h.numEntries h.entrySize d.sectorSize) = .ok entries ∧
      Gpt.parse crc32 d.sectors d.sectorSize header entries = .ok g := by
  simp only [readTable, bind_eq_ok, GptHeader.primaryArraySectors_eq_ok]
  constructor
  · rintro ⟨header, hr, h, hh, n, ⟨rfl, hp⟩, entries, he, hg⟩
    exact ⟨header, h, entries, hr, hh, hp, he, hg⟩
  · rintro ⟨header, h, entries, hr, hh, hp, he, hg⟩
    exact ⟨header, hr, h, hh, _, ⟨rfl, hp⟩, entries, he, hg⟩

/-- A disk of two sectors is always read without an input error. -/
theorem readTable_error {e : PartError} (hs : 2 ≤ d.sectors.toNat) (h : d.readTable crc32 = .error e) :
    e.Reports := by
  have h1 : (1 : UInt64).toNat = 1 := rfl
  have hheader := readSectors_of_le (d := d) 1 1 (by omega)
  simp only [readTable, bind_eq_error] at h
  rcases h with h | ⟨header, -, h | ⟨hd, -, h | ⟨n, hn, h | ⟨entries, -, h⟩⟩⟩⟩
  · rw [hheader] at h; cases h
  · exact GptHeader.parse_error crc32 h
  · exact GptHeader.primaryArraySectors_error h
  · obtain ⟨rfl, hp⟩ := GptHeader.primaryArraySectors_eq_ok.1 hn
    have := hp.arrayEnd
    have := hp.ordered
    have := hp.backup
    have := hp.alternate
    rw [readSectors_of_le _ _ (by omega)] at h
    cases h
  · exact Gpt.parse_error h

/-- The byte strings that are checksummed when the table of a disk is read. -/
def checksummed (crc32 : List UInt8 → UInt32) (d : Device) : List (List UInt8) :=
  match d.readSectors 1 1 with
  | .error _ => []
  | .ok header =>
    GptHeader.checkBytes header ::
      match GptHeader.parse crc32 header with
      | .error _ => []
      | .ok h =>
        match d.readSectors h.entryArrayLba (Gpt.arraySectorsFor h.numEntries h.entrySize d.sectorSize) with
        | .error _ => []
        | .ok entries => [entries.take (h.numEntries.toNat * h.entrySize.toNat)]

theorem header_mem_checksummed {header : List UInt8} (h : d.readSectors 1 1 = .ok header) :
    GptHeader.checkBytes header ∈ d.checksummed crc32 := by
  simp [checksummed, h]

theorem array_mem_checksummed {header entries : List UInt8} {hd : GptHeader} (h : d.readSectors 1 1 = .ok header)
    (hh : GptHeader.parse crc32 header = .ok hd)
    (he : d.readSectors hd.entryArrayLba (Gpt.arraySectorsFor hd.numEntries hd.entrySize d.sectorSize) = .ok entries) :
    entries.take (hd.numEntries.toNat * hd.entrySize.toNat) ∈ d.checksummed crc32 := by
  simp [checksummed, h, hh, he]

end Read

/-! ## Committing a table -/

section Commit

variable (crc32 : List UInt8 → UInt32) {d : Device} {g : Gpt}

/-- A table for a disk: it has the disk's geometry, and names that fit. -/
structure Holds (d : Device) (g : Gpt) : Prop where
  geometry : g.Geometry
  sectors : g.diskSectors = d.sectors
  sectorSize : g.sectorSize = d.sectorSize
  fits : ∀ e ∈ g.entries, e.NameFits

/-- A whole write as a patch ends where its sectors end. -/
theorem patchOf_end (hg : g.Geometry) {w : UInt64 × List UInt8} (h : g.sectorSize ∣ w.2.length) :
    (patchOf g.sectorSize w).1 + (patchOf g.sectorSize w).2.length = (g.writeSpan w).2 * g.sectorSize := by
  obtain ⟨n, hn⟩ := h
  have hspan : g.writeSpan (w.1, w.2) = _ := Gpt.writeSpan_of_length hg (n := n) (by rw [hn, Nat.mul_comm])
  rw [hspan, patchOf, hn, Nat.add_mul, Nat.mul_comm n]

theorem patches_within (h : d.Holds g) : Within ((g.writes crc32).map (patchOf d.sectorSize)) d.bytes.length := by
  have hp := h.geometry.writesPlaced crc32
  intro q hq
  obtain ⟨w, hw, rfl⟩ := List.mem_map.1 hq
  rw [← h.sectorSize, patchOf_end h.geometry (hp.whole w hw)]
  have h₁ := Nat.mul_le_mul_right g.sectorSize (hp.onDisk w hw)
  have h₂ := d.size
  rw [h.sectors] at h₁
  rw [h.sectorSize] at h₁ ⊢
  omega

theorem patches_apart (h : d.Holds g) :
    ((g.writes crc32).map (patchOf d.sectorSize)).Pairwise ByteStore.Apart := by
  have hp := h.geometry.writesPlaced crc32
  rw [List.pairwise_map, ← h.sectorSize]
  refine hp.disjoint.imp_of_mem fun {w w'} hw hw' hap => ?_
  rw [ByteStore.Apart, patchOf_end h.geometry (hp.whole w hw), patchOf_end h.geometry (hp.whole w' hw')]
  exact hap.imp (Nat.mul_le_mul_right _) (Nat.mul_le_mul_right _)

/-- What a cut run leaves where its `i`-th write goes. -/
theorem slice_cut (h : d.Holds g) (j k : Nat) {i : Nat} {lba : UInt64} {data : List UInt8}
    (hi : (g.writes crc32)[i]? = some (lba, data)) :
    slice (d.cut (g.writes crc32) j k).bytes (lba.toNat * d.sectorSize) data.length =
      torn data (slice d.bytes (lba.toNat * d.sectorSize) data.length) (written j k i data.length) := by
  rw [(cut_eq _ j k d).1]
  exact slice_cutAll (patches_within crc32 h) (patches_apart crc32 h) (by rw [List.getElem?_map, hi]; rfl)

/-- The header sector after a cut run. -/
theorem readSectors_header_cut (h : d.Holds g) (j k : Nat) :
    (d.cut (g.writes crc32) j k).readSectors 1 1 = .ok (torn
      ((g.headerFor true (crc32 g.entryArray)).toSector crc32 g.sectorSize)
      (slice d.bytes d.sectorSize d.sectorSize) (written j k 3 d.sectorSize)) := by
  have h1 : (1 : UInt64).toNat = 1 := rfl
  have hl := GptHeader.length_toSector crc32 (g.headerFor true (crc32 g.entryArray)) h.geometry.sectorSize_bounds.1
  have hs := slice_cut crc32 h j k (i := 3) rfl
  obtain ⟨-, hsec, hsize⟩ := cut_eq (g.writes crc32) j k d
  have hb := h.geometry.backup
  rw [h.sectors] at hb
  rw [readSectors_of_le _ _ (by rw [hsec]; omega), hsize]
  rw [hl, h.sectorSize, h1, Nat.one_mul] at hs
  rw [h1, Nat.one_mul, hs, h.sectorSize]

/-- The new entry array is there as soon as the new header is begun. -/
theorem readSectors_array_cut (h : d.Holds g) {j k : Nat} (hj : 3 ≤ j) :
    (d.cut (g.writes crc32) j k).readSectors g.entryArrayLba g.arraySectors = .ok g.paddedArray := by
  have hs := slice_cut crc32 h j k (i := 1) rfl
  obtain ⟨-, hsec, hsize⟩ := cut_eq (g.writes crc32) j k d
  have := h.geometry.arrayEnd
  have := h.geometry.ordered
  have hb := h.geometry.backup
  rw [h.sectors] at hb
  rw [readSectors_of_le _ _ (by rw [hsec]; omega), hsize]
  rw [Gpt.length_paddedArray, h.sectorSize, written, if_pos (by omega),
    torn_of_le (by rw [Gpt.length_paddedArray, h.sectorSize]) (by simp)] at hs
  rw [hs]

/-- The header sector and the entry array of a committed table. -/
theorem readSectors_commit (h : d.Holds g) :
    (d.commit (g.writes crc32)).readSectors 1 1 =
        .ok ((g.headerFor true (crc32 g.entryArray)).toSector crc32 g.sectorSize) ∧
      (d.commit (g.writes crc32)).readSectors g.entryArrayLba g.arraySectors = .ok g.paddedArray := by
  rw [← cut_length (g.writes crc32) 0 d, show (g.writes crc32).length = 5 from rfl]
  have hhead := readSectors_header_cut crc32 h 5 0
  have hl := GptHeader.length_toSector crc32 (g.headerFor true (crc32 g.entryArray)) h.geometry.sectorSize_bounds.1
  rw [written, if_pos (by omega), torn_of_le (by rw [hl, h.sectorSize]) (by simp)] at hhead
  exact ⟨hhead, readSectors_array_cut crc32 h (by omega)⟩

/-- A committed table reads back with its names cut. -/
theorem readTable_commit (h : d.Holds g) : (d.commit (g.writes crc32)).readTable crc32 = .ok g.cutNames := by
  obtain ⟨hhead, harr⟩ := readSectors_commit crc32 h
  obtain ⟨-, hsec, hsize⟩ := commit_eq (g.writes crc32) d
  refine readTable_eq_ok.2 ⟨_, _, g.paddedArray, hhead, Gpt.parse_headerFor h.geometry crc32 true _, ?_, ?_, ?_⟩
  · rw [hsec, hsize, ← h.sectors, ← h.sectorSize]
    exact Gpt.placed_headerFor h.geometry _
  · show (d.commit (g.writes crc32)).readSectors g.entryArrayLba
      (Gpt.arraySectorsFor g.numEntries g.entrySize (d.commit (g.writes crc32)).sectorSize) = .ok g.paddedArray
    rw [hsize, ← h.sectorSize]
    exact harr
  · rw [hsec, hsize, ← h.sectors, ← h.sectorSize]
    exact Gpt.parse_writes h.geometry crc32 h.fits

/-- The byte strings that are checksummed on the disks that cut runs leave. -/
def occurring (crc32 : List UInt8 → UInt32) (d : Device) (ws : List (UInt64 × List UInt8)) : Set (List UInt8) :=
  { s | ∃ j k, s ∈ (d.cut ws j k).checksummed crc32 }

/-- One header and two arrays that it vouches for, with no collision: the same table. -/
theorem parse_same_header {header header' entries entries' : List UInt8} {hd : GptHeader} {t t' : Gpt}
    {diskSectors : UInt64} {sectorSize : Nat} (hh : GptHeader.parse crc32 header = .ok hd)
    (hh' : GptHeader.parse crc32 header' = .ok hd)
    (hc : crc32 (entries.take (hd.numEntries.toNat * hd.entrySize.toNat)) =
        crc32 (entries'.take (hd.numEntries.toNat * hd.entrySize.toNat)) →
      entries.take (hd.numEntries.toNat * hd.entrySize.toNat) =
        entries'.take (hd.numEntries.toNat * hd.entrySize.toNat))
    (h : Gpt.parse crc32 diskSectors sectorSize header entries = .ok t)
    (h' : Gpt.parse crc32 diskSectors sectorSize header' entries' = .ok t') : t = t' := by
  obtain ⟨k, hk, -, -, hcrc, hes, ht⟩ := Gpt.parse_eq_ok.1 h
  obtain ⟨k', hk', -, -, hcrc', hes', ht'⟩ := Gpt.parse_eq_ok.1 h'
  cases hk.symm.trans hh
  cases hk'.symm.trans hh'
  rw [hc (hcrc.trans hcrc'.symm), hes'] at hes
  rw [← ht, ← ht', Except.ok.inj hes]

/-- A torn header is refused, or has the fields of the old header or of the new one. -/
theorem fields_torn (hd : GptHeader) {old : List UInt8} {sectorSize m : Nat} (hs : 512 ≤ sectorSize)
    (hlt : sectorSize < 2 ^ 32) (hold : old.length = sectorSize) (hm : m ≤ sectorSize)
    (he : ENTRY_SIZE ≤ hd.entrySize) (h8 : hd.entrySize % 8 = 0)
    (ha : GptHeader.Accepted crc32 (torn (hd.toSector crc32 sectorSize) old m))
    (hc : crc32 (GptHeader.checkBytes (torn (hd.toSector crc32 sectorSize) old m)) =
        crc32 (GptHeader.checkBytes (hd.toSector crc32 sectorSize)) →
      GptHeader.checkBytes (torn (hd.toSector crc32 sectorSize) old m) =
        GptHeader.checkBytes (hd.toSector crc32 sectorSize)) :
    (m ≤ 24 ∧ GptHeader.fields (torn (hd.toSector crc32 sectorSize) old m) = GptHeader.fields old) ∨
      (24 < m ∧ GptHeader.fields (torn (hd.toSector crc32 sectorSize) old m) = hd) := by
  have hl := GptHeader.length_toSector crc32 hd hs
  by_cases h24 : m ≤ 24
  · exact Or.inl ⟨h24, GptHeader.fields_congr fun o n ho _ => slice_torn_old (by omega) (by omega)⟩
  · right
    have hnew := GptHeader.accepted_toSector crc32 hd hs hlt he h8
    have hsize : ofLe32 (slice (hd.toSector crc32 sectorSize) 12 4) = HEADER_SIZE := by
      have key := GptHeader.field_toSector crc32 hd hs
      simp only [GptHeader.layout, List.forall_mem_cons, length_u32le] at key
      rw [key.2.2.1, ofLe32_u32le]
    have hfront : ∀ o n, o + n ≤ 24 → slice (torn (hd.toSector crc32 sectorSize) old m) o n =
        slice (hd.toSector crc32 sectorSize) o n := fun o n h => slice_torn_new (by omega) (by omega)
    -- the checksum in the torn header is the new one
    have hcrc := ha.crc
    rw [hfront 16 4 (by omega), hnew.crc] at hcrc
    refine ⟨by omega, ?_⟩
    rw [GptHeader.fields_of_checkBytes (by simp [torn]; omega) (by omega) (by rw [hfront 12 4 (by omega), hsize]) hsize
      (hc hcrc.symm), GptHeader.fields_toSector crc32 hd hs]

/-- Whatever is cut, the disk reads as the old table, as the new one with its names cut, or as no healthy table. -/
theorem readTable_cut {t t' : Gpt} (ht : d.readTable crc32 = .ok t) (h : d.Holds g)
    (hcrc : Set.InjOn crc32 (d.occurring crc32 (g.writes crc32))) {j k : Nat}
    (hr : (d.cut (g.writes crc32) j k).readTable crc32 = .ok t') : t' = t ∨ t' = g.cutNames := by
  obtain ⟨header, hd, entries, hh, hp, -, he, ht⟩ := readTable_eq_ok.1 ht
  obtain ⟨header', hd', entries', hh', hp', -, he', hr⟩ := readTable_eq_ok.1 hr
  obtain ⟨hs, hs'⟩ := h.geometry.sectorSize_bounds
  obtain ⟨-, hsec, hsize⟩ := cut_eq (g.writes crc32) j k d
  have h1 : (1 : UInt64).toNat = 1 := rfl
  -- the old header sector, and the one behind the cut
  have hold : slice d.bytes d.sectorSize d.sectorSize = header := by
    have := (readSectors_eq_ok.1 hh).2
    rwa [h1, Nat.one_mul] at this
  have hlold : header.length = g.sectorSize := by
    have := (readSectors_eq_ok.1 hh).1
    rw [h1, Nat.one_mul] at this
    rw [← hold, h.sectorSize, length_slice_of_le this]
  have htorn := hh'.symm.trans (readSectors_header_cut crc32 h j k)
  rw [hold, Except.ok.injEq, ← h.sectorSize] at htorn
  -- all checksummed strings occur
  have hocc : ∀ {j k : Nat} {s : List UInt8}, s ∈ (d.cut (g.writes crc32) j k).checksummed crc32 →
      s ∈ d.occurring crc32 (g.writes crc32) := fun hs => ⟨_, _, hs⟩
  have hdone : (d.cut (g.writes crc32) 5 0).readSectors 1 1 = _ :=
    (congrArg (readSectors · 1 1) (cut_length (g.writes crc32) 0 d)).trans (readSectors_commit crc32 h).1
  obtain ⟨ha', hf'⟩ := (GptHeader.parse_eq_ok crc32).1 hp'
  have hfields := fields_torn crc32 (g.headerFor true (crc32 g.entryArray)) hs
    (by omega) hlold (written_le j k 3 g.sectorSize) h.geometry.entrySize h.geometry.entryStride (htorn ▸ ha')
    fun hc => hcrc (hocc (htorn ▸ header_mem_checksummed hh')) (hocc (header_mem_checksummed hdone)) hc
  rw [← htorn, hf'] at hfields
  rcases hfields with ⟨-, hf⟩ | ⟨hm, hf⟩
  · -- the old header: the array is the old one, for all that the checksum sees
    left
    have hhd : hd' = hd := hf.trans ((GptHeader.parse_eq_ok crc32).1 hp).2
    subst hhd
    rw [hsize] at he'
    rw [hsec, hsize] at hr
    refine parse_same_header crc32 hp' hp (fun hc => hcrc ?_ ?_ hc) hr ht
    · exact hocc (array_mem_checksummed hh' hp' (by rw [hsize]; exact he'))
    · refine hocc (j := 0) (k := 0) ?_
      rw [cut_zero]
      exact array_mem_checksummed hh hp he
  · -- the new header, whose array is there already
    right
    have hj : 3 ≤ j := by
      by_contra hlt
      rw [written, if_neg (by omega), if_neg (by omega)] at hm
      omega
    subst hf
    have harr := readSectors_array_cut crc32 h (k := k) hj
    have hent : entries' = g.paddedArray := by
      have := he'.symm.trans (show _ = Except.ok g.paddedArray by rw [hsize, ← h.sectorSize]; exact harr)
      exact Except.ok.inj this
    have hnew := Gpt.parse_writes h.geometry crc32 h.fits
    rw [hsec, hsize, ← h.sectors, ← h.sectorSize, hent] at hr
    exact parse_same_header crc32 hp' (Gpt.parse_headerFor h.geometry crc32 true _) (fun _ => rfl) hr hnew

end Commit

/-! ## Tables that follow from a disk -/

/-- `g` is made from the table `t` of a disk by calls, or is new. -/
inductive FollowsFrom (d : Device) (t : Gpt) : Gpt → Prop
  | calls (calls : List Call) : FollowsFrom d t (run Call.eval calls t)
  | created {random : Guid} {g : Gpt} (h : Gpt.create d.sectors d.sectorSize random = .ok g) : FollowsFrom d t g

/-- What reading a disk gives: the old table, the new one, or a report that there is no healthy one. -/
def OldOrNew (t g : Gpt) (r : Except PartError Gpt) : Prop :=
  r = .ok t ∨ r = .ok g ∨ ∃ e, r = .error e ∧ e.Reports

section Follows

variable {crc32 : List UInt8 → UInt32} {blkid : Option (Option String × Option String)} {d : Device} {t g : Gpt}

theorem readTable_of_probe (h : d.probe crc32 blkid = .ok (.gpt t)) : d.readTable crc32 = .ok t := by
  obtain ⟨sector0, -, h⟩ := bind_eq_ok.1 h
  split at h
  · rename_i hr
    cases h
    exact hr
  · cases h
  · split at h
    · cases h
    · split at h
      · cases h
      · split at h
        · split at h <;> cases h
        · cases h
  · cases h

theorem probe_of_readTable (hs : 1 ≤ d.sectors.toNat) (h : d.readTable crc32 = .ok t) :
    d.probe crc32 blkid = .ok (.gpt t) := by
  have h0 : (0 : UInt64).toNat = 0 := rfl
  have h1 : (1 : UInt64).toNat = 1 := rfl
  exact bind_eq_ok.2 ⟨_, readSectors_of_le 0 1 (by omega), by rw [h]⟩

theorem holds_of_readTable (h : d.readTable crc32 = .ok t) : d.Holds t := by
  obtain ⟨header, hd, entries, -, -, -, -, ht⟩ := readTable_eq_ok.1 h
  obtain ⟨hs, hss, hst⟩ := Gpt.storable_of_parse ht
  exact ⟨Gpt.geometry_of_parse ht, hs, hss, fun e he => (hst e he).fits⟩

theorem FollowsFrom.holds (h : d.FollowsFrom t g) (ht : d.Holds t) : d.Holds g := by
  cases h with
  | calls calls =>
    obtain ⟨es, hes, hl, hf⟩ := Gpt.run_keeps calls ht.fits GptEntry.storable_default.fits
      fun _ _ e hv _ => GptEntry.validateName_ok hv
    rw [hes]
    exact ⟨ht.geometry.of_entries hl, ht.sectors, ht.sectorSize, hf⟩
  | created h =>
    obtain ⟨hs, hss, hst⟩ := Gpt.storable_of_create h
    exact ⟨Gpt.geometry_of_create h, hs, hss, fun e he => (hst e he).fits⟩

/-- A cut commit never leaves a third table exactly when the names of the new table survive, or when without what is
behind their NULs it is the old table. -/
theorem crash_safe_iff (ht : d.probe crc32 blkid = .ok (.gpt t)) (hg : d.FollowsFrom t g)
    (hcrc : Set.InjOn crc32 (d.occurring crc32 (g.writes crc32))) :
    (∀ j k, OldOrNew t g ((d.cut (g.writes crc32) j k).readTable crc32)) ↔ g.cutNames = g ∨ g.cutNames = t := by
  have ht' := readTable_of_probe ht
  have hh := hg.holds (holds_of_readTable ht')
  constructor
  · intro h
    have hdone := h 5 0
    rw [show d.cut (g.writes crc32) 5 0 = d.commit (g.writes crc32) from cut_length (g.writes crc32) 0 d,
      readTable_commit crc32 hh] at hdone
    rcases hdone with hd | hd | ⟨e, hd, -⟩
    · exact Or.inr (Except.ok.inj hd)
    · exact Or.inl (Except.ok.inj hd)
    · cases hd
  · intro h j k
    cases hr : (d.cut (g.writes crc32) j k).readTable crc32 with
    | error e =>
      have hb := hh.geometry.backup
      rw [hh.sectors] at hb
      exact Or.inr (Or.inr ⟨e, rfl, readTable_error (by rw [(cut_eq _ j k d).2.1]; omega) hr⟩)
    | ok t' =>
      rcases readTable_cut crc32 ht' hh hcrc hr with rfl | rfl
      · exact Or.inl rfl
      · rcases h with h | h
        · exact Or.inr (Or.inl (by rw [h]))
        · exact Or.inl (by rw [h])

end Follows

/-! ## What is checksummed when a table keeps its shape -/

section Occurring

variable {crc32 : List UInt8 → UInt32}

/-- The checked bytes of a torn header of two written ones are torn between theirs. -/
theorem checkBytes_torn (new old : GptHeader) {sectorSize m : Nat} (hs : 512 ≤ sectorSize) (hm : m ≤ sectorSize) :
    GptHeader.checkBytes (torn (new.toSector crc32 sectorSize) (old.toSector crc32 sectorSize) m) =
      torn ((new.fillSector sectorSize).take 92) ((old.fillSector sectorSize).take 92) (min m 92) := by
  have h92 : HEADER_SIZE.toNat = 92 := rfl
  have hl : ∀ h : GptHeader, (h.toSector crc32 sectorSize).length = sectorSize :=
    fun h => GptHeader.length_toSector crc32 h hs
  have hsize : ∀ h : GptHeader, slice (h.toSector crc32 sectorSize) 12 4 = u32le HEADER_SIZE := fun h => by
    have key := GptHeader.field_toSector crc32 h hs
    simp only [GptHeader.layout, List.forall_mem_cons, length_u32le] at key
    exact key.2.2.1
  have hcheck : ∀ h : GptHeader, patch ((h.toSector crc32 sectorSize).take 92) 16 (zeros 4) =
      (h.fillSector sectorSize).take 92 := fun h => by
    have := GptHeader.checkBytes_toSector crc32 h hs
    rwa [GptHeader.checkBytes, hsize, ofLe32_u32le, h92] at this
  have hmn := hl new
  rw [GptHeader.checkBytes, slice_torn_same (by omega) ((hsize new).trans (hsize old).symm), hsize, ofLe32_u32le, h92,
    take_torn (by omega) (by rw [hl, hl]), patch_torn (by simp [hl]; omega) (by simp [hl]) (by simp [hl]; omega),
    hcheck, hcheck]

section SameShape

variable {d : Device} {t g : Gpt} {es : List GptEntry} (ht : d.Holds t) (hg : g = { t with entries := es })
  (h : (d.commit (t.writes crc32)).Holds g)

include ht hg h

/-- The header sector while the writes of `g` are cut on a disk with `t`. -/
theorem header_cut_commit (j k : Nat) : ∃ m ≤ g.sectorSize,
    ((d.commit (t.writes crc32)).cut (g.writes crc32) j k).readSectors 1 1 = .ok (torn
      ((g.headerFor true (crc32 g.entryArray)).toSector crc32 g.sectorSize)
      ((t.headerFor true (crc32 t.entryArray)).toSector crc32 g.sectorSize) m) := by
  have h1 : (1 : UInt64).toNat = 1 := rfl
  have hts : t.sectorSize = g.sectorSize := by rw [hg]
  have hold := (readSectors_eq_ok.1 (readSectors_commit crc32 ht).1).2
  rw [h1, Nat.one_mul] at hold
  refine ⟨written j k 3 (d.commit (t.writes crc32)).sectorSize, ?_, ?_⟩
  · rw [h.sectorSize]; exact written_le _ _ _ _
  · rw [readSectors_header_cut crc32 h j k, hold, hts]

/-- The entry array while the writes of `g` are cut on a disk with `t`. -/
theorem array_cut_commit (j k : Nat) : ∃ m ≤ g.paddedArray.length,
    ((d.commit (t.writes crc32)).cut (g.writes crc32) j k).readSectors g.entryArrayLba g.arraySectors =
      .ok (torn g.paddedArray t.paddedArray m) := by
  obtain ⟨-, hsec, hsize⟩ := cut_eq (g.writes crc32) j k (d.commit (t.writes crc32))
  have hold := (readSectors_eq_ok.1 (readSectors_commit crc32 ht).2).2
  have hlba : t.entryArrayLba = g.entryArrayLba := by rw [hg]
  have harr : t.arraySectors = g.arraySectors := by rw [hg]; rfl
  have hcut := slice_cut crc32 h j k (i := 1) rfl
  have := h.geometry.arrayEnd
  have := h.geometry.ordered
  have hb := h.geometry.backup
  rw [h.sectors] at hb
  rw [hlba, harr] at hold
  rw [Gpt.length_paddedArray, h.sectorSize, hold] at hcut
  refine ⟨written j k 1 (g.arraySectors.toNat * (d.commit (t.writes crc32)).sectorSize), ?_, ?_⟩
  · rw [Gpt.length_paddedArray, h.sectorSize]; exact written_le _ _ _ _
  · rw [readSectors_of_le _ _ (by rw [hsec]; omega), hsize, hcut]

/-- The checksummed strings are torn between the checked bytes of the two headers or between the two entry arrays. -/
theorem occurring_subset {s : List UInt8} (hs : s ∈ (d.commit (t.writes crc32)).occurring crc32 (g.writes crc32)) :
    (∃ m ≤ 92, s = torn (((g.headerFor true (crc32 g.entryArray)).fillSector g.sectorSize).take 92)
      (((t.headerFor true (crc32 t.entryArray)).fillSector g.sectorSize).take 92) m) ∨
    ∃ m ≤ g.entryArray.length, s = torn g.entryArray t.entryArray m := by
  obtain ⟨j, k, hs⟩ := hs
  obtain ⟨hss, -⟩ := h.geometry.sectorSize_bounds
  obtain ⟨m, hm, hhead⟩ := header_cut_commit ht hg h j k
  obtain ⟨n, hn, harr⟩ := array_cut_commit ht hg h j k
  simp only [checksummed, hhead, List.mem_cons] at hs
  rcases hs with rfl | hs
  · exact Or.inl ⟨min m 92, by omega, checkBytes_torn _ _ hss hm⟩
  · right
    -- a torn header has the geometry that both headers have
    have hl := GptHeader.length_toSector crc32 (g.headerFor true (crc32 g.entryArray)) hss
    have hfield : ∀ q, q ∈ (g.headerFor true (crc32 g.entryArray)).layout →
        q ∈ (t.headerFor true (crc32 t.entryArray)).layout →
        slice (torn ((g.headerFor true (crc32 g.entryArray)).toSector crc32 g.sectorSize)
          ((t.headerFor true (crc32 t.entryArray)).toSector crc32 g.sectorSize) m) q.1 q.2.length = q.2 :=
      fun q h₁ h₂ => by
        have hq := GptHeader.field_toSector crc32 _ hss q h₂
        rw [slice_torn_same (by omega) ((GptHeader.field_toSector crc32 _ hss q h₁).trans hq.symm), hq]
    have hlba := hfield (72, u64le g.entryArrayLba) (by simp [GptHeader.layout, Gpt.headerFor])
      (by simp [GptHeader.layout, Gpt.headerFor, hg])
    have hnum := hfield (80, u32le g.numEntries) (by simp [GptHeader.layout, Gpt.headerFor])
      (by simp [GptHeader.layout, Gpt.headerFor, hg])
    have hsize := hfield (84, u32le g.entrySize) (by simp [GptHeader.layout, Gpt.headerFor])
      (by simp [GptHeader.layout, Gpt.headerFor, hg])
    simp only [length_u64le, length_u32le] at hlba hnum hsize
    split at hs
    · cases hs
    · rename_i hd hp
      obtain ⟨-, rfl⟩ := (GptHeader.parse_eq_ok crc32).1 hp
      have hread := harr
      rw [Gpt.arraySectors, h.sectorSize, ← (cut_eq (g.writes crc32) j k (d.commit (t.writes crc32))).2.2] at hread
      simp only [GptHeader.fields, hlba, hnum, hsize, ofLe64_u64le, ofLe32_u32le, hread, List.mem_singleton] at hs
      have hlg := Gpt.length_paddedArray g
      have hlt := Gpt.length_paddedArray t
      have hgt : t.arraySectors.toNat * t.sectorSize = g.arraySectors.toNat * g.sectorSize := by rw [hg]; rfl
      rw [take_torn hn (by omega), Gpt.take_paddedArray h.geometry,
        show g.numEntries.toNat * g.entrySize.toNat = t.numEntries.toNat * t.entrySize.toNat by rw [hg],
        Gpt.take_paddedArray ht.geometry] at hs
      exact ⟨_, by rw [Gpt.length_entryArray h.geometry, hg]; exact Nat.min_le_right _ _, hs⟩

end SameShape

end Occurring

/-! ## A small disk -/

/-- A table with one entry, unused. -/
def smallTable : Gpt where
  sectorSize := 512
  diskSectors := 8192
  diskGuid := .ZERO
  numEntries := 1
  entrySize := 128
  entryArrayLba := 2
  firstUsableLba := 3
  lastUsableLba := 8000
  entries := [default]

/-- A disk without anything on it. -/
def blankDisk : Device where
  path := "disk.img"
  sectorSize := 512
  sectors := 8192
  bytes := zeros (8192 * 512)
  size := (length_zeros _).symm.le

/-- A disk that holds that table and nothing else. -/
def smallDisk : Device := blankDisk.commit (smallTable.writes isoHdlc)

/-- Add a partition of one sector. -/
def smallCall (name : String) : Call := .add (some 1) ⟨1 :: List.replicate 15 0, by simp⟩ name none .ZERO

/-- The table after that call. -/
def namedTable (name : String) : Gpt :=
  { smallTable with
    entries := [Gpt.newEntry ⟨2048, 2048⟩ ⟨1 :: List.replicate 15 0, by simp⟩ .ZERO name] }

theorem geometry_smallTable : smallTable.Geometry := by constructor <;> decide

theorem holds_blankDisk : blankDisk.Holds smallTable :=
  ⟨geometry_smallTable, rfl, rfl, by decide⟩

theorem holds_smallDisk {name : String} (h : ∀ e ∈ (namedTable name).entries, e.NameFits) :
    smallDisk.Holds (namedTable name) :=
  ⟨geometry_smallTable.of_entries rfl, (commit_eq _ blankDisk).2.1.symm, (commit_eq _ blankDisk).2.2.symm, h⟩

theorem probe_smallDisk : smallDisk.probe isoHdlc none = .ok (.gpt smallTable) := by
  refine probe_of_readTable ?_ ((readTable_commit isoHdlc holds_blankDisk).trans (congrArg _ (by decide)))
  rw [smallDisk, (commit_eq _ blankDisk).2.1]
  decide

/-- The strings that are checksummed while a partition is added there. -/
def smallStrings : List (List UInt8) :=
  let checked (crc : UInt32) := ((smallTable.headerFor true crc).fillSector 512).take 92
  ([0, 89, 90, 91, 92].map (torn (checked 454819371) (checked 3265854109))) ++
    [0, 1, 34, 42].map (torn (namedTable "").entryArray smallTable.entryArray)

theorem torn_mem_smallStrings :
    (∀ m < 93, torn (((smallTable.headerFor true 454819371).fillSector 512).take 92)
      (((smallTable.headerFor true 3265854109).fillSector 512).take 92) m ∈ smallStrings) ∧
    ∀ m < 129, torn (namedTable "").entryArray smallTable.entryArray m ∈ smallStrings := by
  decide +kernel

/-- CRC-32 has no collision among them. -/
theorem nodup_smallStrings : (smallStrings.map isoHdlc).Nodup := by decide +kernel

theorem isoHdlc_smallArrays : isoHdlc smallTable.entryArray = 3265854109 ∧
    isoHdlc (namedTable "").entryArray = 454819371 := by decide +kernel

/-- A NUL and the empty name give the same bytes. -/
theorem entryArray_namedTable : (namedTable "\x00").entryArray = (namedTable "").entryArray := by decide +kernel

/-- So nothing collides while a partition with such a name is added. -/
theorem injOn_smallDisk {name : String} (hf : ∀ e ∈ (namedTable name).entries, e.NameFits)
    (ha : (namedTable name).entryArray = (namedTable "").entryArray) :
    Set.InjOn isoHdlc (smallDisk.occurring isoHdlc ((namedTable name).writes isoHdlc)) := by
  have hl : (namedTable "").entryArray.length = 128 := Gpt.length_entryArray (geometry_smallTable.of_entries rfl)
  have hmem : ∀ s ∈ smallDisk.occurring isoHdlc ((namedTable name).writes isoHdlc), s ∈ smallStrings := by
    intro s hs
    rcases occurring_subset (g := namedTable name) holds_blankDisk rfl (holds_smallDisk hf) hs with ⟨m, hm, rfl⟩ | ⟨m, hm, rfl⟩
    · rw [ha, isoHdlc_smallArrays.1, isoHdlc_smallArrays.2]
      exact torn_mem_smallStrings.1 m (by omega)
    · rw [ha] at hm ⊢
      exact torn_mem_smallStrings.2 m (by omega)
  intro s hs s' hs' h
  exact List.inj_on_of_nodup_map nodup_smallStrings (hmem s hs) (hmem s' hs') h

/-- With an empty name, every cut is safe there. -/
theorem crash_safe_iff_small :
    (∀ j k, OldOrNew smallTable (run Call.eval [smallCall ""] smallTable)
      ((smallDisk.cut ((run Call.eval [smallCall ""] smallTable).writes isoHdlc) j k).readTable isoHdlc)) ↔
    (run Call.eval [smallCall ""] smallTable).cutNames = run Call.eval [smallCall ""] smallTable ∨
      (run Call.eval [smallCall ""] smallTable).cutNames = smallTable :=
  crash_safe_iff probe_smallDisk (.calls _) (by
    rw [show run Call.eval [smallCall ""] smallTable = namedTable "" by decide +kernel]
    exact injOn_smallDisk (by decide) rfl)

/-- A name that is a NUL passes `add`. When all is written the disk holds the partition without a name, which is
neither the old table nor the new one, and nothing has collided. -/
theorem nul_name_third_table : smallDisk.probe isoHdlc none = .ok (.gpt smallTable) ∧
    run Call.eval [smallCall "\x00"] smallTable = namedTable "\x00" ∧
    Set.InjOn isoHdlc (smallDisk.occurring isoHdlc ((namedTable "\x00").writes isoHdlc)) ∧
    ¬ OldOrNew smallTable (namedTable "\x00")
      ((smallDisk.cut ((namedTable "\x00").writes isoHdlc) 5 0).readTable isoHdlc) := by
  have hf : ∀ e ∈ (namedTable "\x00").entries, e.NameFits := by decide
  refine ⟨probe_smallDisk, by decide +kernel, injOn_smallDisk hf entryArray_namedTable, ?_⟩
  rw [show smallDisk.cut ((namedTable "\x00").writes isoHdlc) 5 0 = smallDisk.commit ((namedTable "\x00").writes isoHdlc)
    from cut_length ((namedTable "\x00").writes isoHdlc) 0 smallDisk, readTable_commit isoHdlc (holds_smallDisk hf)]
  rintro (h | h | ⟨e, h, -⟩)
  · exact absurd (Except.ok.inj h) (by decide)
  · exact absurd (Except.ok.inj h) (by decide)
  · cases h

end Device

end Peiosutils.Part
