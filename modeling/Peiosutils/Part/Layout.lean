import Peiosutils.Part.Basics
import Peiosutils.Part.Gpt

/-!
# Where a table lies on its disk

`Gpt.parse` and `Gpt.create` only give tables whose parts have their own places (`Geometry`): the headers, the two
copies of the entry array and the usable range. From this, the writes of a table are disjoint, stay on the disk, and
leave the usable range alone, and no word that lays them out wraps (`writes_placed`).
-/

set_option autoImplicit false

namespace Peiosutils.Part

open ByteStore Word64 Fallible

/-! ## What the checks of a header say -/

/-- A primary header has its parts in place on a disk. -/
structure GptHeader.Placed (h : GptHeader) (diskSectors : UInt64) (sectorSize : Nat) : Prop where
  sector : plausibleSectorSize sectorSize = true
  arrayPos : 0 < (Gpt.arraySectorsFor h.numEntries h.entrySize sectorSize).toNat
  myLba : h.myLba = 1
  alternate : h.alternateLba.toNat < diskSectors.toNat
  ordered : h.firstUsableLba.toNat ≤ h.lastUsableLba.toNat
  arrayStart : 2 ≤ h.entryArrayLba.toNat
  arrayEnd : h.entryArrayLba.toNat + (Gpt.arraySectorsFor h.numEntries h.entrySize sectorSize).toNat ≤
    h.firstUsableLba.toNat
  backup : h.lastUsableLba.toNat + (Gpt.arraySectorsFor h.numEntries h.entrySize sectorSize).toNat <
    h.alternateLba.toNat

theorem GptHeader.primaryArraySectors_eq_ok {h : GptHeader} {diskSectors : UInt64} {sectorSize : Nat} {n : UInt64} :
    h.primaryArraySectors diskSectors sectorSize = .ok n ↔
      Gpt.arraySectorsFor h.numEntries h.entrySize sectorSize = n ∧ h.Placed diskSectors sectorSize := by
  have h2 : (2 : UInt64).toNat = 2 := rfl
  have hz : ∀ v : UInt64, v = 0 ↔ v.toNat = 0 := fun v => by rw [← UInt64.toNat_inj, UInt64.toNat_zero]
  have ha : divCeil (h.numEntries.toUInt64 * h.entrySize.toUInt64) (UInt64.ofNat sectorSize) =
    Gpt.arraySectorsFor h.numEntries h.entrySize sectorSize := rfl
  simp only [primaryArraySectors, ha, guard_eq_ok, Bool.not_eq_true, Bool.not_eq_false, Bool.not_eq_true', Bool.or_eq_true, decide_eq_true_eq,
    not_or, ne_eq, not_not, checkedAdd_all_lt, checkedSub_all_le, Except.ok.injEq]
  simp only [UInt64.le_iff_toNat_le, UInt64.lt_iff_toNat_lt, not_le, not_lt, hz, h2]
  constructor
  · rintro ⟨h₀, ⟨h₁, h₂⟩, ⟨h₃, h₄⟩, ⟨h₅, h₆⟩, ⟨h₇, h₈⟩, h₉, h⟩
    exact ⟨h, h₀, by omega, h₃, h₄, h₅, h₇, h₈, h₉⟩
  · rintro ⟨h, hp⟩
    have := hp.arrayPos
    have := hp.backup
    have := hp.alternate
    have := hp.arrayEnd
    have := hp.ordered
    exact ⟨hp.sector, ⟨by omega, by omega⟩, ⟨hp.myLba, by omega⟩, ⟨by omega, by omega⟩,
      ⟨hp.arrayStart, by omega⟩, by omega, h⟩

theorem GptHeader.primaryArraySectors_error {h : GptHeader} {diskSectors : UInt64} {sectorSize : Nat} {e : PartError}
    (he : h.primaryArraySectors diskSectors sectorSize = .error e) : e.Reports := by
  simp only [primaryArraySectors, guard_eq_error, reduceCtorEq, and_false, or_false] at he
  rcases he with ⟨-, rfl⟩ | ⟨-, ⟨-, rfl⟩ | ⟨-, ⟨-, rfl⟩ | ⟨-, ⟨-, rfl⟩ | ⟨-, ⟨-, rfl⟩ | ⟨-, -, rfl⟩⟩⟩⟩⟩ <;>
    exact .damaged _

namespace Gpt

/-! ## What reading a table says -/

theorem parseEntries_eq_ok {array : List UInt8} {size : Nat} : ∀ {i n : Nat} {es : List GptEntry},
    parseEntries array size i n = .ok es ↔
      (List.range' i n).map (fun j => GptEntry.parse (slice array (j * size) size)) = es.map some
  | i, 0, es => by cases es <;> simp [parseEntries]
  | i, n + 1, es => by
    rw [parseEntries, List.range'_succ, List.map_cons]
    cases GptEntry.parse (slice array (i * size) size) with
    | none => cases es <;> simp
    | some e =>
      cases h : parseEntries array size (i + 1) n with
      | error err =>
        simp only [reduceCtorEq, false_iff]
        intro hes
        cases es with
        | nil => simp at hes
        | cons e' es =>
          rw [List.map_cons, List.cons.injEq] at hes
          rw [parseEntries_eq_ok.2 hes.2] at h
          cases h
      | ok es' =>
        have ih := parseEntries_eq_ok.1 h
        rw [ih]
        cases es with
        | nil => simp
        | cons e' es => simp [(Option.some_injective _).list_map.eq_iff]

theorem parse_eq_ok {crc32 : List UInt8 → UInt32} {diskSectors : UInt64} {sectorSize : Nat}
    {headerSector entryBytes : List UInt8} {g : Gpt} :
    parse crc32 diskSectors sectorSize headerSector entryBytes = .ok g ↔
      ∃ h, GptHeader.parse crc32 headerSector = .ok h ∧ h.Placed diskSectors sectorSize ∧
        h.numEntries.toNat * h.entrySize.toNat ≤ entryBytes.length ∧
        crc32 (entryBytes.take (h.numEntries.toNat * h.entrySize.toNat)) = h.entriesCrc32 ∧
        parseEntries (entryBytes.take (h.numEntries.toNat * h.entrySize.toNat)) h.entrySize.toNat 0
          h.numEntries.toNat = .ok g.entries ∧
        ofHeader h diskSectors sectorSize g.entries = g := by
  simp only [parse, bind_eq_ok, guard_eq_ok, GptHeader.primaryArraySectors_eq_ok, ne_eq, not_not, not_lt,
    Except.ok.injEq]
  constructor
  · rintro ⟨h, hh, n, ⟨-, hp⟩, hl, hc, es, he, rfl⟩
    exact ⟨h, hh, hp, hl, hc, he, rfl⟩
  · rintro ⟨h, hh, hp, hl, hc, he, hg⟩
    exact ⟨h, hh, _, ⟨rfl, hp⟩, hl, hc, _, he, hg⟩

theorem parseEntries_error {array : List UInt8} {size : Nat} {e : PartError} : ∀ {i n : Nat},
    parseEntries array size i n = .error e → e.Reports
  | _, 0, h => by cases h
  | i, n + 1, h => by
    rw [parseEntries] at h
    split at h
    · cases h
      exact .damaged _
    · split at h
      · rename_i herr
        cases h
        exact parseEntries_error herr
      · cases h

/-- A table is refused as no GPT or as a damaged one. -/
theorem parse_error {crc32 : List UInt8 → UInt32} {diskSectors : UInt64} {sectorSize : Nat}
    {headerSector entryBytes : List UInt8} {e : PartError}
    (h : parse crc32 diskSectors sectorSize headerSector entryBytes = .error e) : e.Reports := by
  simp only [parse, bind_eq_error, guard_eq_error, reduceCtorEq, and_false, exists_false, or_false] at h
  rcases h with h | ⟨_, -, h | ⟨_, -, ⟨-, rfl⟩ | ⟨-, ⟨-, rfl⟩ | ⟨-, h⟩⟩⟩⟩
  · exact GptHeader.parse_error crc32 h
  · exact GptHeader.primaryArraySectors_error h
  · exact .damaged _
  · exact .damaged _
  · exact parseEntries_error h

/-- A table that was read is for the disk it was read from, and its names survive being stored. -/
theorem storable_of_parse {crc32 : List UInt8 → UInt32} {diskSectors : UInt64} {sectorSize : Nat}
    {headerSector entryBytes : List UInt8} {g : Gpt}
    (h : parse crc32 diskSectors sectorSize headerSector entryBytes = .ok g) :
    g.diskSectors = diskSectors ∧ g.sectorSize = sectorSize ∧ ∀ e ∈ g.entries, e.Storable := by
  obtain ⟨h, -, -, -, -, hes, hg⟩ := parse_eq_ok.1 h
  refine ⟨by rw [← hg]; rfl, by rw [← hg]; rfl, fun e he => ?_⟩
  have hmem : some e ∈ g.entries.map some := List.mem_map_of_mem he
  rw [← parseEntries_eq_ok.1 hes] at hmem
  obtain ⟨i, -, hi⟩ := List.mem_map.1 hmem
  exact GptEntry.storable_of_parse hi

/-- The same of a new table. -/
theorem storable_of_create {diskSectors : UInt64} {sectorSize : Nat} {random : Guid} {g : Gpt}
    (h : create diskSectors sectorSize random = .ok g) :
    g.diskSectors = diskSectors ∧ g.sectorSize = sectorSize ∧ ∀ e ∈ g.entries, e.Storable := by
  simp only [create, guard_eq_ok, Except.ok.injEq] at h
  obtain ⟨-, -, rfl⟩ := h
  refine ⟨rfl, rfl, fun e he => ?_⟩
  rw [List.eq_of_mem_replicate he]
  exact GptEntry.storable_default

/-! ## The geometry of a table -/

/-- The parts of a table have their own places on its disk. -/
structure Geometry (g : Gpt) : Prop where
  sector : plausibleSectorSize g.sectorSize = true
  arrayPos : 0 < g.arraySectors.toNat
  ordered : g.firstUsableLba.toNat ≤ g.lastUsableLba.toNat
  arrayStart : 2 ≤ g.entryArrayLba.toNat
  arrayEnd : g.entryArrayLba.toNat + g.arraySectors.toNat ≤ g.firstUsableLba.toNat
  backup : g.lastUsableLba.toNat + g.arraySectors.toNat + 1 < g.diskSectors.toNat
  entrySize : ENTRY_SIZE ≤ g.entrySize
  entryStride : g.entrySize % 8 = 0
  length : g.entries.length = g.numEntries.toNat

/-- A table comes from a disk, or is new. -/
inductive Arises (crc32 : List UInt8 → UInt32) (g : Gpt) : Prop where
  | parsed {headerSector entryBytes : List UInt8}
      (h : parse crc32 g.diskSectors g.sectorSize headerSector entryBytes = .ok g)
  | created {random : Guid} (h : create g.diskSectors g.sectorSize random = .ok g)

theorem plausible_iff {sectorSize : Nat} : plausibleSectorSize sectorSize = true ↔
    isPowerOfTwo sectorSize = true ∧ 512 ≤ sectorSize ∧ sectorSize ≤ 65536 := by
  simp [plausibleSectorSize, and_assoc]

/-- The size of an entry array in sectors; the product of its two 32-bit factors does not wrap. -/
theorem toNat_arraySectorsFor (numEntries entrySize : UInt32) {sectorSize : Nat}
    (hs : plausibleSectorSize sectorSize = true) :
    (numEntries.toUInt64 * entrySize.toUInt64).toNat = numEntries.toNat * entrySize.toNat ∧
      (arraySectorsFor numEntries entrySize sectorSize).toNat =
        (numEntries.toNat * entrySize.toNat + sectorSize - 1) / sectorSize := by
  obtain ⟨-, h₁, h₂⟩ := plausible_iff.1 hs
  have hlt : numEntries.toNat * entrySize.toNat < 2 ^ 64 :=
    Nat.mul_lt_mul'' (a := numEntries.toNat) (c := 2 ^ 32) (b := entrySize.toNat) (d := 2 ^ 32)
      numEntries.toNat_lt entrySize.toNat_lt
  have hmul : (numEntries.toUInt64 * entrySize.toUInt64).toNat = numEntries.toNat * entrySize.toNat := by
    rw [UInt64.toNat_mul, UInt32.toNat_toUInt64, UInt32.toNat_toUInt64, Nat.mod_eq_of_lt hlt]
  have hss : (UInt64.ofNat sectorSize).toNat = sectorSize := UInt64.toNat_ofNat_of_lt' (by simp [UInt64.size]; omega)
  refine ⟨hmul, ?_⟩
  rw [arraySectorsFor, toNat_divCeil (by omega), hmul, hss]

theorem geometry_of_parse {crc32 : List UInt8 → UInt32} {diskSectors : UInt64} {sectorSize : Nat}
    {headerSector entryBytes : List UInt8} {g : Gpt}
    (h : parse crc32 diskSectors sectorSize headerSector entryBytes = .ok g) : g.Geometry := by
  obtain ⟨h, hh, hp, -, -, he, hg⟩ := parse_eq_ok.1 h
  obtain ⟨ha, rfl⟩ := (GptHeader.parse_eq_ok crc32).1 hh
  have hlen := congrArg List.length (parseEntries_eq_ok.1 he)
  simp only [List.length_map, List.length_range'] at hlen
  rw [← hg]
  exact {
    sector := hp.sector
    arrayPos := hp.arrayPos
    ordered := hp.ordered
    arrayStart := hp.arrayStart
    arrayEnd := hp.arrayEnd
    backup := by
      have := hp.backup
      have := hp.alternate
      simp only [ofHeader, arraySectors]
      omega
    entrySize := UInt32.not_lt.1 ha.entrySize
    entryStride := ha.entryStride
    length := hlen.symm }

theorem geometry_of_create {diskSectors : UInt64} {sectorSize : Nat} {random : Guid} {g : Gpt}
    (h : create diskSectors sectorSize random = .ok g) : g.Geometry := by
  simp only [create, guard_eq_ok, Bool.not_eq_false, Bool.not_eq_true', Except.ok.injEq] at h
  obtain ⟨hs, hmin, rfl⟩ := h
  obtain ⟨-, h₁, h₂⟩ := plausible_iff.1 hs
  have harr : (entryArraySectors sectorSize).toNat = (16384 + sectorSize - 1) / sectorSize :=
    (toNat_arraySectorsFor _ _ hs).2
  have hpos : 0 < (entryArraySectors sectorSize).toNat := by
    rw [harr]; exact Nat.div_pos (by omega) (by omega)
  have hle : (entryArraySectors sectorSize).toNat ≤ 32 := by
    rw [harr, Nat.div_le_iff_le_mul (by omega)]; omega
  have hal : (alignSectors sectorSize).toNat < 2 ^ 21 ∧ 0 < (alignSectors sectorSize).toNat := by
    rw [alignSectors, toNat_max, UInt64.toNat_one, UInt64.toNat_div]
    have := Nat.div_le_self ALIGN_BYTES.toNat (UInt64.ofNat sectorSize).toNat
    have h20 : ALIGN_BYTES.toNat = 2 ^ 20 := rfl
    omega
  have hm : (minimumSectors sectorSize).toNat =
      3 + 2 * (entryArraySectors sectorSize).toNat + (alignSectors sectorSize).toNat := by
    have h3 : (3 : UInt64).toNat = 3 := rfl
    have h2 : (2 : UInt64).toNat = 2 := rfl
    rw [minimumSectors, UInt64.toNat_add, UInt64.toNat_add, UInt64.toNat_mul, h3, h2]
    omega
  rw [UInt64.not_lt, UInt64.le_iff_toNat_le, hm] at hmin
  have h1 : (1 : UInt64).toNat = 1 := rfl
  have hfirst : (2 + entryArraySectors sectorSize).toNat = 2 + (entryArraySectors sectorSize).toNat := by
    have h2 : (2 : UInt64).toNat = 2 := rfl
    rw [UInt64.toNat_add, h2]
    omega
  have hlast : (diskSectors - 1 - entryArraySectors sectorSize - 1).toNat =
      diskSectors.toNat - 1 - (entryArraySectors sectorSize).toNat - 1 := by
    have e₁ : (diskSectors - 1).toNat = diskSectors.toNat - 1 := by
      rw [UInt64.toNat_sub_of_le _ _ (UInt64.le_iff_toNat_le.2 (by omega)), h1]
    have e₂ : (diskSectors - 1 - entryArraySectors sectorSize).toNat =
        diskSectors.toNat - 1 - (entryArraySectors sectorSize).toNat := by
      rw [UInt64.toNat_sub_of_le _ _ (UInt64.le_iff_toNat_le.2 (by omega)), e₁]
    rw [UInt64.toNat_sub_of_le _ _ (UInt64.le_iff_toNat_le.2 (by omega)), e₂, h1]
  exact {
    sector := hs
    arrayPos := hpos
    ordered := by
      show (2 + entryArraySectors sectorSize).toNat ≤ (diskSectors - 1 - entryArraySectors sectorSize - 1).toNat
      omega
    arrayStart := Nat.le_refl 2
    arrayEnd := by
      show 2 + (entryArraySectors sectorSize).toNat ≤ (2 + entryArraySectors sectorSize).toNat
      omega
    backup := by
      show (diskSectors - 1 - entryArraySectors sectorSize - 1).toNat + (entryArraySectors sectorSize).toNat + 1 <
        diskSectors.toNat
      omega
    entrySize := UInt32.le_refl _
    entryStride := by show ENTRY_SIZE % 8 = 0; decide
    length := List.length_replicate }

theorem geometry_of_arises {crc32 : List UInt8 → UInt32} {g : Gpt} (h : Arises crc32 g) : g.Geometry := by
  rcases h with h | h
  · exact geometry_of_parse h
  · exact geometry_of_create h

/-! ## Where the writes go -/

/-- The words that lay out the writes have their exact values: no subtraction goes below zero, no product wraps, and
the padded array holds the whole entry array. -/
structure LayoutExact (g : Gpt) : Prop where
  lastLba : g.lastLba.toNat + 1 = g.diskSectors.toNat
  backupEntriesLba : g.backupEntriesLba.toNat + g.arraySectors.toNat = g.lastLba.toNat
  arrayBytes : (g.numEntries.toUInt64 * g.entrySize.toUInt64).toNat = g.numEntries.toNat * g.entrySize.toNat
  arraySectors : g.arraySectors.toNat = (g.numEntries.toNat * g.entrySize.toNat + g.sectorSize - 1) / g.sectorSize
  paddedLength : g.arraySectors.toNat * g.sectorSize < 2 ^ 64
  padded : g.numEntries.toNat * g.entrySize.toNat ≤ g.arraySectors.toNat * g.sectorSize

/-- The sectors of a write, as a half-open range. -/
def writeSpan (g : Gpt) (w : UInt64 × List UInt8) : Nat × Nat :=
  (w.1.toNat, w.1.toNat + (w.2.length + g.sectorSize - 1) / g.sectorSize)

/-- The writes are whole sectors, disjoint, on the disk, and outside the usable range. -/
structure WritesPlaced (g : Gpt) (ws : List (UInt64 × List UInt8)) : Prop where
  whole : ∀ w ∈ ws, g.sectorSize ∣ w.2.length
  disjoint : ws.Pairwise fun w w' => (g.writeSpan w).2 ≤ (g.writeSpan w').1 ∨ (g.writeSpan w').2 ≤ (g.writeSpan w).1
  onDisk : ∀ w ∈ ws, (g.writeSpan w).2 ≤ g.diskSectors.toNat
  outside : ∀ w ∈ ws, (g.writeSpan w).2 ≤ g.firstUsableLba.toNat ∨ g.lastUsableLba.toNat < (g.writeSpan w).1

theorem length_paddedArray (g : Gpt) : g.paddedArray.length = g.arraySectors.toNat * g.sectorSize := by
  rw [paddedArray, length_resize]

section Geometry

variable {g : Gpt} (h : g.Geometry)

include h

theorem Geometry.sectorSize_bounds : 512 ≤ g.sectorSize ∧ g.sectorSize ≤ 65536 := (plausible_iff.1 h.sector).2

theorem layoutExact : g.LayoutExact := by
  have h1 : (1 : UInt64).toNat = 1 := rfl
  have hback := h.backup
  obtain ⟨hs, hs'⟩ := h.sectorSize_bounds
  have hlast : g.lastLba.toNat + 1 = g.diskSectors.toNat := by
    rw [lastLba, UInt64.toNat_sub_of_le _ _ (UInt64.le_iff_toNat_le.2 (by omega)), h1]
    omega
  obtain ⟨hmul, harr⟩ := toNat_arraySectorsFor g.numEntries g.entrySize h.sector
  have hdm := Nat.div_add_mod (g.numEntries.toNat * g.entrySize.toNat + g.sectorSize - 1) g.sectorSize
  have hmod := Nat.mod_lt (g.numEntries.toNat * g.entrySize.toNat + g.sectorSize - 1) (show 0 < g.sectorSize by omega)
  rw [← harr, Nat.mul_comm] at hdm
  have hn := g.numEntries.toNat_lt
  have he := g.entrySize.toNat_lt
  have hbytes : g.numEntries.toNat * g.entrySize.toNat ≤ (2 ^ 32 - 1) * (2 ^ 32 - 1) :=
    Nat.mul_le_mul (by omega) (by omega)
  refine ⟨hlast, ?_, hmul, harr, ?_, ?_⟩
  · rw [backupEntriesLba, UInt64.toNat_sub_of_le _ _ (UInt64.le_iff_toNat_le.2 (by omega))]
    omega
  · rw [arraySectors]; omega
  · rw [arraySectors]; omega

theorem writeSpan_of_length {lba : UInt64} {bytes : List UInt8} {n : Nat} (hl : bytes.length = n * g.sectorSize) :
    g.writeSpan (lba, bytes) = (lba.toNat, lba.toNat + n) := by
  have := h.sectorSize_bounds.1
  rw [writeSpan, hl, Nat.add_sub_assoc (by omega), Nat.mul_comm, Nat.mul_add_div (by omega),
    Nat.div_eq_of_lt (by omega), Nat.add_zero]

/-- The sectors of the five writes, in their order. -/
theorem map_writeSpan (crc32 : List UInt8 → UInt32) :
    (∀ w ∈ g.writes crc32, g.sectorSize ∣ w.2.length) ∧
    (g.writes crc32).map g.writeSpan =
      [ (0, 1),
        (g.entryArrayLba.toNat, g.entryArrayLba.toNat + g.arraySectors.toNat),
        (g.backupEntriesLba.toNat, g.backupEntriesLba.toNat + g.arraySectors.toNat),
        (1, 2),
        (g.lastLba.toNat, g.lastLba.toNat + 1) ] := by
  have hs := h.sectorSize_bounds.1
  have hm : (Mbr.protective g.diskSectors g.sectorSize).length = 1 * g.sectorSize := by
    rw [Mbr.length_protective hs, Nat.one_mul]
  have ht : ∀ hd : GptHeader, (hd.toSector crc32 g.sectorSize).length = 1 * g.sectorSize := fun hd => by
    rw [GptHeader.length_toSector crc32 hd hs, Nat.one_mul]
  have ha := g.length_paddedArray
  constructor
  · simp [writes, hm, ht, ha]
  · simp only [writes, List.map_cons, List.map_nil, writeSpan_of_length h hm, writeSpan_of_length h (ht _),
      writeSpan_of_length h ha]
    rfl

/-- The writes of a table whose parts have their own places. -/
theorem Geometry.writesPlaced (crc32 : List UInt8 → UInt32) : WritesPlaced g (g.writes crc32) := by
  obtain ⟨hwhole, hspan⟩ := map_writeSpan h crc32
  have hx := layoutExact h
  have h₁ := hx.lastLba
  have h₂ := hx.backupEntriesLba
  have h₃ := h.arrayPos
  have h₄ := h.ordered
  have h₅ := h.arrayStart
  have h₆ := h.arrayEnd
  have h₇ := h.backup
  -- each of the three is a statement about the five spans
  have key : ∀ P : Nat × Nat → Prop, (∀ s ∈ (g.writes crc32).map g.writeSpan, P s) →
      ∀ w ∈ g.writes crc32, P (g.writeSpan w) := fun P hP w hw => hP _ (List.mem_map_of_mem hw)
  refine ⟨hwhole, ?_, key (fun s => s.2 ≤ g.diskSectors.toNat) ?_,
    key (fun s => s.2 ≤ g.firstUsableLba.toNat ∨ g.lastUsableLba.toNat < s.1) ?_⟩
  · rw [← List.pairwise_map (f := g.writeSpan) (R := fun s s' => s.2 ≤ s'.1 ∨ s'.2 ≤ s.1), hspan]
    simp only [List.pairwise_cons, List.forall_mem_cons, List.not_mem_nil, false_imp_iff, implies_true, and_true,
      List.Pairwise.nil]
    omega
  · rw [hspan]
    simp only [List.forall_mem_cons, List.not_mem_nil, false_imp_iff, implies_true, and_true]
    omega
  · rw [hspan]
    simp only [List.forall_mem_cons, List.not_mem_nil, false_imp_iff, implies_true, and_true]
    omega

end Geometry

/-- The writes of a parsed or a new table are in place, and the words that lay them out are exact. -/
theorem writes_placed {crc32 : List UInt8 → UInt32} {g : Gpt} (h : Arises crc32 g) :
    WritesPlaced g (g.writes crc32) ∧ LayoutExact g :=
  ⟨(geometry_of_arises h).writesPlaced crc32, layoutExact (geometry_of_arises h)⟩

/-- The new table of a disk of 4 MiB. -/
theorem writes_placed_new : ∃ g, create 8192 512 .ZERO = .ok g ∧ WritesPlaced g (g.writes isoHdlc) ∧ LayoutExact g :=
  ⟨_, rfl, writes_placed (.created (show create 8192 512 .ZERO = .ok _ from rfl))⟩

end Gpt

end Peiosutils.Part
