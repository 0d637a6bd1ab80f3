import Mathlib.Tactic.IntervalCases
import Peiosutils.Part.Basics
import Peiosutils.Part.Calls
import Peiosutils.Part.Layout

/-!
# A table reads back from its writes

The primary header and the entry array that `writes` produces parse to the table itself, but for names, which end at
their first NUL (`parse_writes`). So a new table changed by calls without NULs in their names reads back unchanged, and
its backup header is the primary one seen from the other end of the disk (`created_reads_back`).
-/

set_option autoImplicit false

namespace Peiosutils.Part

open ByteStore Word64 CallRun

namespace Gpt

/-- The table with its names cut at the first NUL: what the writes of a table can hold of it. -/
def cutNames (g : Gpt) : Gpt := { g with entries := g.entries.map GptEntry.cutName }

/-! ## The entry array -/

/-- The patches that write entries into their strides. -/
def cells (stride : Nat) (es : List GptEntry) : List (Nat × List UInt8) :=
  es.zipIdx.map fun (e, i) => (i * stride, e.toBytes)

theorem cells_within {stride n : Nat} {es : List GptEntry} (hs : 128 ≤ stride) (hn : es.length ≤ n) :
    Within (cells stride es) (n * stride) := by
  intro q hq
  obtain ⟨⟨e, i⟩, hm, rfl⟩ := List.mem_map.1 hq
  have hi : i < es.length := by
    have := (List.mem_zipIdx hm).2.1
    omega
  have := Nat.mul_le_mul_right stride (show i + 1 ≤ n by omega)
  rw [Nat.succ_mul] at this
  simp only [GptEntry.length_toBytes]
  omega

theorem cells_apart {stride : Nat} {es : List GptEntry} (hs : 128 ≤ stride) :
    (cells stride es).Pairwise ByteStore.Apart := by
  rw [List.pairwise_iff_getElem]
  intro i j hi hj hij
  have := Nat.mul_le_mul_right stride (show i + 1 ≤ j by omega)
  rw [Nat.succ_mul] at this
  left
  simp [cells]
  omega

/-- Two tables with the same entries have the same entry array. -/
theorem entryArray_eq (g : Gpt) : g.entryArray =
    patchAll (zeros (g.numEntries.toNat * g.entrySize.toNat))
      (cells g.entrySize.toNat (g.entries.take g.numEntries.toNat)) := rfl

section Geometry

variable {g : Gpt} (h : g.Geometry)

include h

theorem Geometry.stride_le : 128 ≤ g.entrySize.toNat := UInt32.le_iff_toNat_le.1 h.entrySize

theorem length_entryArray : g.entryArray.length = g.numEntries.toNat * g.entrySize.toNat := by
  rw [entryArray_eq, length_patchAll, length_zeros]
  exact (length_zeros _).symm ▸ cells_within h.stride_le (by simp)

/-- A stride of the array starts with the bytes of its entry. -/
theorem slice_entryArray {i : Nat} {e : GptEntry} (hi : g.entries[i]? = some e) :
    slice g.entryArray (i * g.entrySize.toNat) 128 = e.toBytes := by
  have hs := h.stride_le
  rw [entryArray_eq, List.take_of_length_le h.length.le]
  refine slice_patchAll_self ?_ (cells_apart hs) ?_ (by simp)
  · exact (length_zeros _).symm ▸ cells_within hs h.length.le
  · exact List.mem_map.2 ⟨(e, i), List.mem_zipIdx_iff_getElem?.2 hi, rfl⟩

/-- A stride of the array reads back as its entry. -/
theorem parse_stride {i : Nat} {e : GptEntry} (hi : g.entries[i]? = some e) (hf : e.NameFits) :
    GptEntry.parse (slice g.entryArray (i * g.entrySize.toNat) g.entrySize.toNat) = some e.cutName := by
  have hs := h.stride_le
  rw [GptEntry.parse_of_slice e.toBytes _ (by simp), GptEntry.parse_toBytes hf]
  rw [slice_slice _ (by omega), Nat.add_zero, slice_entryArray h hi]

theorem parseEntries_entryArray (hf : ∀ e ∈ g.entries, e.NameFits) :
    parseEntries g.entryArray g.entrySize.toNat 0 g.numEntries.toNat = .ok (g.entries.map GptEntry.cutName) := by
  rw [parseEntries_eq_ok]
  apply List.ext_getElem?
  intro i
  rw [List.getElem?_map, List.getElem?_map, List.getElem?_map]
  by_cases hi : i < g.numEntries.toNat
  · have hlt : i < g.entries.length := h.length.symm ▸ hi
    have he : g.entries[i]? = some g.entries[i] := List.getElem?_eq_getElem hlt
    rw [List.getElem?_range' hi, he, Option.map_some, Option.map_some, Option.map_some, Nat.zero_add, Nat.one_mul,
      parse_stride h he (hf _ (List.getElem_mem _))]
  · rw [List.getElem?_eq_none (by simpa using hi), List.getElem?_eq_none (by rw [h.length]; omega)]
    rfl

/-- The primary header of a table has its parts in place. -/
theorem placed_headerFor (crc : UInt32) : (g.headerFor true crc).Placed g.diskSectors g.sectorSize where
  sector := h.sector
  arrayPos := h.arrayPos
  myLba := rfl
  alternate := by
    have := (layoutExact h).lastLba
    show g.lastLba.toNat < _
    omega
  ordered := h.ordered
  arrayStart := h.arrayStart
  arrayEnd := h.arrayEnd
  backup := by
    have := (layoutExact h).lastLba
    have := h.backup
    show g.lastUsableLba.toNat + g.arraySectors.toNat < g.lastLba.toNat
    omega

theorem take_paddedArray : g.paddedArray.take (g.numEntries.toNat * g.entrySize.toNat) = g.entryArray := by
  have hl := length_entryArray h
  have := (layoutExact h).padded
  rw [paddedArray, resize_of_le (by omega), List.take_append_of_le_length (by omega), List.take_of_length_le (by omega)]

/-- Either header of a table reads back. -/
theorem parse_headerFor (crc32 : List UInt8 → UInt32) (primary : Bool) (crc : UInt32) :
    GptHeader.parse crc32 ((g.headerFor primary crc).toSector crc32 g.sectorSize) = .ok (g.headerFor primary crc) := by
  obtain ⟨hs, hs'⟩ := h.sectorSize_bounds
  exact GptHeader.parse_toSector crc32 _ hs (by omega) h.entrySize h.entryStride

/-- A table reads back from its header and its entry array, with its names cut at the first NUL. -/
theorem parse_writes (crc32 : List UInt8 → UInt32) (hf : ∀ e ∈ g.entries, e.NameFits) :
    parse crc32 g.diskSectors g.sectorSize ((g.headerFor true (crc32 g.entryArray)).toSector crc32 g.sectorSize)
      g.paddedArray = .ok g.cutNames := by
  have hl := (layoutExact h).padded
  refine parse_eq_ok.2 ⟨_, parse_headerFor h crc32 true _, placed_headerFor h _, ?_, ?_, ?_, rfl⟩
  · rw [length_paddedArray]; exact hl
  · show crc32 (g.paddedArray.take (g.numEntries.toNat * g.entrySize.toNat)) = crc32 g.entryArray
    rw [take_paddedArray h]
  · show parseEntries (g.paddedArray.take (g.numEntries.toNat * g.entrySize.toNat)) _ _ _ = _
    rw [take_paddedArray h]
    exact parseEntries_entryArray h hf

/-- Replacing the entries of a table keeps its geometry. -/
theorem Geometry.of_entries {es : List GptEntry} (hl : es.length = g.entries.length) :
    Geometry { g with entries := es } where
  sector := h.sector
  arrayPos := h.arrayPos
  ordered := h.ordered
  arrayStart := h.arrayStart
  arrayEnd := h.arrayEnd
  backup := h.backup
  entrySize := h.entrySize
  entryStride := h.entryStride
  length := hl.trans h.length

end Geometry

/-! ## New tables -/

theorem cutNames_eq_self {g : Gpt} (h : ∀ e ∈ g.entries, e.Storable) : g.cutNames = g := by
  have : g.entries.map GptEntry.cutName = g.entries := by
    conv_rhs => rw [← List.map_id g.entries]
    exact List.map_congr_left fun e he => (h e he).uncut
  rw [cutNames, this]

/-- A new table, changed by calls whose names have no NUL, reads back from its writes; its backup header has the two
header positions swapped and points at the backup array. -/
theorem created_reads_back {crc32 : List UInt8 → UInt32} {diskSectors : UInt64} {sectorSize : Nat} {random : Guid}
    {g₀ : Gpt} {calls : List Call} (hc : create diskSectors sectorSize random = .ok g₀)
    (hn : ∀ c ∈ calls, ∀ name, c.name = some name → '\x00' ∉ name.toList) :
    ∃ mbr array backupArray header backupHeader h,
      (run Call.eval calls g₀).writes crc32 = [mbr, array, backupArray, header, backupHeader] ∧
      parse crc32 diskSectors sectorSize header.2 array.2 = .ok (run Call.eval calls g₀) ∧
      GptHeader.parse crc32 header.2 = .ok h ∧
      GptHeader.parse crc32 backupHeader.2 = .ok
        { h with myLba := h.alternateLba, alternateLba := h.myLba, entryArrayLba := backupArray.1 } := by
  have hg := geometry_of_create hc
  obtain ⟨hd, hs, hdef⟩ := storable_of_create hc
  obtain ⟨es, hes, hl, hst⟩ := run_keeps calls hdef GptEntry.storable_default
    fun c hc e hv he => ⟨GptEntry.validateName_ok hv, GptEntry.cutName_eq_self (hn c hc _ he)⟩
  have hg' : Geometry (run Call.eval calls g₀) := hes ▸ hg.of_entries hl
  have hes' : (run Call.eval calls g₀).entries = es := by rw [hes]
  have hds : (run Call.eval calls g₀).diskSectors = diskSectors := by rw [hes]; exact hd
  have hss : (run Call.eval calls g₀).sectorSize = sectorSize := by rw [hes]; exact hs
  have hrt := parse_writes hg' crc32 (by rw [hes']; exact fun e he => (hst e he).fits)
  rw [cutNames_eq_self (hes' ▸ hst)] at hrt
  refine ⟨_, _, _, _, _, _, rfl, ?_, parse_headerFor hg' crc32 true _, parse_headerFor hg' crc32 false _⟩
  rw [← hds, ← hss]
  exact hrt

/-- Two partitions, the second cleared again. -/
def rootCalls : List Call :=
  [.add (some 1024) someType "root" none .ZERO, .add none someType "home" none .ZERO, .remove 2]

/-- The calls on a disk of 4 MiB. -/
theorem created_reads_back_root : ∃ g₀, create 8192 512 .ZERO = .ok g₀ ∧
    ∃ mbr array backupArray header backupHeader h,
      (run Call.eval rootCalls g₀).writes isoHdlc = [mbr, array, backupArray, header, backupHeader] ∧
      parse isoHdlc 8192 512 header.2 array.2 = .ok (run Call.eval rootCalls g₀) ∧
      GptHeader.parse isoHdlc header.2 = .ok h ∧
      GptHeader.parse isoHdlc backupHeader.2 = .ok
        { h with myLba := h.alternateLba, alternateLba := h.myLba, entryArrayLba := backupArray.1 } :=
  ⟨_, rfl, created_reads_back rfl (by decide)⟩

end Gpt

end Peiosutils.Part

/-!
# Where `add` places a partition in a table from disk

`parse` checks the geometry of a table and not its entries, so `free_extents` meets entries of any kind. `add_safe_iff`
says exactly when an `add` on such a table is safe: when the runs that `free_extents` takes for free really are
(`RunsFit`). It is not where a used entry lies behind the usable range, or where one ends so close to the 64-bit limit
that rounding its end up wraps (`outsideTable_unsafe`).
-/

namespace Peiosutils.Part

open ByteStore Word64 ListChoice

namespace Gpt

/-! ## The condition -/

/-- Runs of the requested size are free, as far as they are taken for free: some run of `n` sectors fits if any is a
candidate. The largest candidates, when no size is given, all fit. -/
def RunsFit (g : Gpt) : Option UInt64 → Prop
  | some n => ∀ a, g.Candidate a n.toNat → ∃ b, g.Fits b n.toNat
  | none => ∀ a n, g.Candidate a n → g.Fits a n ∨ ∃ b, g.Fits b (n + 1)

/-- A successful `add` stores an entry that runs forwards, inside the usable range, over no entry in use before. -/
def PlacesSafely (g : Gpt) (sectors : Option UInt64) (typeGuid : Guid) (name : String) (unique : Option Guid)
    (random : Guid) : Prop :=
  ∀ index g', add sectors typeGuid name unique random g = (.ok index, g') →
    ∃ e, g'.entries[index - 1]? = some e ∧ g.firstUsableLba ≤ e.startingLba ∧ e.startingLba ≤ e.endingLba ∧
      e.endingLba ≤ g.lastUsableLba ∧ ∀ x ∈ g.entries, x.overlaps e.startingLba e.endingLba = false

/-- The alignment of a plausible sector size is a power of two between 16 and 2048. -/
theorem align_spec {g : Gpt} (h : plausibleSectorSize g.sectorSize = true) :
    1 < g.align ∧ g.align ∣ 2 ^ 64 := by
  obtain ⟨hp, h₁, h₂⟩ := plausible_iff.1 h
  obtain ⟨k, hk⟩ := isPowerOfTwo_iff.1 hp
  rw [hk] at h₁ h₂
  have hk₁ : 9 ≤ k := (Nat.pow_le_pow_iff_right (by omega : 1 < 2)).1 (by omega : 2 ^ 9 ≤ 2 ^ k)
  have hk₂ : k ≤ 16 := (Nat.pow_le_pow_iff_right (by omega : 1 < 2)).1 (by omega : 2 ^ k ≤ 2 ^ 16)
  rw [align, hk]
  interval_cases k <;> decide

section Choice

variable {g : Gpt} {sectors : Option UInt64} {chosen : FreeExtent}

/-- No extent of a disk is so long that its size wraps. -/
theorem toNat_sectors_of_mem (hl : g.lastUsableLba.toNat + 1 < 2 ^ 64) {f : FreeExtent} (hf : f ∈ g.freeExtents) :
    f.sectors.toNat = f.stop.toNat + 1 - f.start.toNat := by
  have hle := start_le_stop hf
  have hstop : f.stop.toNat + 1 < 2 ^ 64 := by
    rcases (CursorSweep.open_of_mem_sweep g.marks_sorted (hole_mem hf)).2.bound with h | ⟨m, hm, h⟩
    · omega
    · obtain ⟨e, -, -, rfl⟩ := mem_marks.1 hm
      exact lt_of_le_of_lt h e.startingLba.toNat_lt
  rw [FreeExtent.toNat_sectors, Nat.mod_eq_of_lt (by omega)]
  omega

/-- When no extent is chosen, there is no candidate that could not fit. -/
theorem runsFit_of_error (hg : g.Rounds) (hl : g.lastUsableLba.toNat + 1 < 2 ^ 64) {err : PartError}
    (h : chooseExtent g.freeExtents sectors = .error err) : g.RunsFit sectors := by
  cases sectors with
  | some n =>
    intro a ha
    exfalso
    obtain ⟨f, hf, h₁, h₂⟩ := exists_mem_of_candidate hg ha
    have hn : n ≠ 0 := by
      rintro rfl
      have := ha.pos
      simp at this
    rw [chooseExtent, if_neg hn] at h
    cases hfind : g.freeExtents.find? (fun f => n ≤ f.sectors) with
    | some f => rw [hfind] at h; cases h
    | none =>
      have := List.find?_eq_none.1 hfind f hf
      rw [decide_eq_true_eq, UInt64.le_iff_toNat_le, toNat_sectors_of_mem hl hf] at this
      omega
  | none =>
    intro a n ha
    exfalso
    obtain ⟨f, hf, -, -⟩ := exists_mem_of_candidate hg ha
    rw [chooseExtent] at h
    cases hmax : lastMax (fun f => f.sectors.toNat) g.freeExtents with
    | some f => rw [hmax] at h; cases h
    | none => simp [lastMax_eq_none hmax] at hf

/-- The run of `n` sectors that first-fit chooses fits just when some run of `n` sectors does. -/
theorem find?_fits_iff (hg : g.Rounds) (hl : g.lastUsableLba.toNat + 1 < 2 ^ 64) {n : UInt64} {f : FreeExtent}
    (hn : 0 < n.toNat) (h : g.freeExtents.find? (fun f => n ≤ f.sectors) = some f) :
    g.Fits f.start.toNat n.toNat ↔ g.RunsFit (some n) := by
  have hf := List.mem_of_find?_eq_some h
  have hsize : n ≤ f.sectors := by simpa using List.find?_some h
  rw [UInt64.le_iff_toNat_le, toNat_sectors_of_mem hl hf] at hsize
  have hcand : g.Candidate f.start.toNat n.toNat := candidate_of_mem hg hf hn (by omega)
  constructor
  · exact fun hfit a _ => ⟨_, hfit⟩
  · intro hr
    by_contra hbad
    obtain ⟨b, hb⟩ := hr _ hcand
    -- the run that fits lies in an extent, which first-fit would have met before
    have hlt := hcand.lt_of_fits hbad hb
    obtain ⟨f', hf', h₁, h₂⟩ := exists_mem_of_candidate hg hb.candidate
    have hsize' : n ≤ f'.sectors := by
      rw [UInt64.le_iff_toNat_le, toNat_sectors_of_mem hl hf']
      omega
    rcases rel_find? g.freeExtents_sorted h hf' (decide_eq_true hsize') with rfl | hle
    · omega
    · omega

/-- The largest run fits just when no candidate that does not fit is as large as every run that does. -/
theorem lastMax_fits_iff (hg : g.Rounds) (hl : g.lastUsableLba.toNat + 1 < 2 ^ 64) {f : FreeExtent}
    (h : lastMax (fun f => f.sectors.toNat) g.freeExtents = some f) :
    g.Fits f.start.toNat (f.stop.toNat + 1 - f.start.toNat) ↔ g.RunsFit none := by
  have hf := lastMax_mem h
  have hle := start_le_stop hf
  have hsize := toNat_sectors_of_mem hl hf
  have hcand : g.Candidate f.start.toNat (f.stop.toNat + 1 - f.start.toNat) :=
    candidate_of_mem hg hf (by omega) (by omega)
  constructor
  · intro hfit a n ha
    by_contra hbad
    rw [not_or] at hbad
    obtain ⟨f', hf', h₁, h₂⟩ := exists_mem_of_candidate hg ha
    have hmax := le_lastMax h hf'
    simp only [toNat_sectors_of_mem hl hf', hsize] at hmax
    have hpos := ha.pos
    by_cases hlt : n < f.stop.toNat + 1 - f.start.toNat
    · exact hbad.2 ⟨_, hfit.shorten (by omega) (by omega)⟩
    · -- the candidate is as large as the chosen run, so it starts no later
      have hn : n = f.stop.toNat + 1 - f.start.toNat := by omega
      have hgt := ha.lt_of_fits hbad.1 (hn ▸ hfit)
      rcases rel_lastMax g.freeExtents_sorted h hf'
        (by simp only [toNat_sectors_of_mem hl hf', hsize]; omega) with rfl | hle'
      · omega
      · omega
  · intro hr
    refine (hr _ _ hcand).resolve_right fun ⟨b, hb⟩ => ?_
    obtain ⟨f', hf', h₁, h₂⟩ := exists_mem_of_candidate hg hb.candidate
    have hmax := le_lastMax h hf'
    simp only [toNat_sectors_of_mem hl hf', hsize] at hmax
    omega

/-- The chosen run fits exactly under the condition. -/
theorem chosen_fits_iff (hg : g.Rounds) (hl : g.lastUsableLba.toNat + 1 < 2 ^ 64)
    (h : chooseExtent g.freeExtents sectors = .ok chosen) :
    g.Fits chosen.start.toNat (chosen.stop.toNat + 1 - chosen.start.toNat) ↔ g.RunsFit sectors := by
  cases sectors with
  | some n =>
    obtain ⟨m, hm, hend, hcand⟩ := chooseExtent_candidate hg h
    have hnm := hm n rfl
    have hpos := hcand.pos
    have hn : n ≠ 0 := by rintro rfl; simp at hnm; omega
    rw [chooseExtent, if_neg hn] at h
    cases hfind : g.freeExtents.find? (fun f => n ≤ f.sectors) with
    | none => rw [hfind] at h; cases h
    | some f =>
      rw [hfind] at h
      rw [show chosen.stop.toNat + 1 - chosen.start.toNat = n.toNat by omega]
      cases h
      show g.Fits f.start.toNat n.toNat ↔ _
      exact find?_fits_iff hg hl (by omega) hfind
  | none =>
    rw [chooseExtent] at h
    cases hmax : lastMax (fun f => f.sectors.toNat) g.freeExtents with
    | none => rw [hmax] at h; cases h
    | some f =>
      rw [hmax] at h
      cases h
      exact lastMax_fits_iff hg hl hmax

/-- A run that starts aligned fits when its bounds are in the usable range and overlap nothing. -/
theorem fits_iff_of_aligned {start stop : UInt64} (ha : g.align ∣ start.toNat) (hle : start.toNat ≤ stop.toNat) :
    g.Fits start.toNat (stop.toNat + 1 - start.toNat) ↔ g.firstUsableLba ≤ start ∧ start ≤ stop ∧
      stop ≤ g.lastUsableLba ∧ ∀ x ∈ g.entries, x.overlaps start stop = false := by
  have hover : ∀ x : GptEntry, x.overlaps start stop = false ↔
      (x.isUsed → x.endingLba.toNat < start.toNat ∨
        start.toNat + (stop.toNat + 1 - start.toNat) ≤ x.startingLba.toNat) := fun x => by
    simp only [GptEntry.overlaps, Bool.and_eq_false_iff, decide_eq_false_iff_not, UInt64.le_iff_toNat_le]
    cases x.isUsed
    · simp
    · simp only [reduceCtorEq, false_or, forall_const]
      omega
  simp only [hover, UInt64.le_iff_toNat_le]
  constructor
  · intro h
    have := h.last
    exact ⟨h.first, hle, by omega, h.clear⟩
  · rintro ⟨h₁, -, h₂, h₃⟩
    exact ⟨by omega, ha, h₁, by omega, h₃⟩

end Choice

/-- On a table from disk, an `add` that gets as far as looking for space is safe exactly when the runs it takes for
free are. -/
theorem add_safe_iff {crc32 : List UInt8 → UInt32} {diskSectors : UInt64} {sectorSize : Nat}
    {headerSector entryBytes : List UInt8} {g : Gpt}
    (hp : parse crc32 diskSectors sectorSize headerSector entryBytes = .ok g) (sectors : Option UInt64)
    (typeGuid : Guid) (name : String) (unique : Option Guid) (random : Guid) :
    g.PlacesSafely sectors typeGuid name unique random ↔ (g.LooksForSpace typeGuid name → g.RunsFit sectors) := by
  have hgeo := geometry_of_parse hp
  have hg : g.Rounds := Or.inl (align_spec hgeo.sector)
  have hl : g.lastUsableLba.toNat + 1 < 2 ^ 64 := by
    have := hgeo.backup
    have := g.diskSectors.toNat_lt
    omega
  rcases add_cases g sectors typeGuid name unique random with
    ⟨err, h, herr⟩ | ⟨slot, chosen, hlook, hslot, hchosen, h⟩
  · rw [PlacesSafely, h]
    exact ⟨fun _ hlook => runsFit_of_error hg hl (herr hlook), fun _ index g' hok => by cases hok⟩
  · have hlt := (List.findIdx?_eq_some_iff_getElem.1 hslot).1
    obtain ⟨n, -, hend, hcand⟩ := chooseExtent_candidate hg hchosen
    have hpos := hcand.pos
    have hiff := chosen_fits_iff hg hl hchosen
    rw [fits_iff_of_aligned hcand.aligned (by omega)] at hiff
    rw [PlacesSafely, h]
    constructor
    · intro hs _
      obtain ⟨e, he, hrest⟩ := hs _ _ rfl
      simp only [Nat.add_sub_cancel, List.getElem?_set_self hlt, Option.some.injEq] at he
      subst he
      exact hiff.1 hrest
    · intro hr index g' hok
      cases hok
      exact ⟨newEntry chosen typeGuid (unique.getD random) name, by simp [hlt], hiff.2 (hr hlook)⟩

/-- A table with an entry behind its usable range. -/
def outsideTable : Gpt where
  sectorSize := 512
  diskSectors := 8192
  diskGuid := .ZERO
  numEntries := 2
  entrySize := 128
  entryArrayLba := 2
  firstUsableLba := 3
  lastUsableLba := 4095
  entries := [{ typeGuid := someType, startingLba := 5000, endingLba := 5001 }, default]

/-- Its header sector and its entry array. -/
def outsideBytes : List UInt8 × List UInt8 :=
  ((outsideTable.headerFor true (isoHdlc outsideTable.entryArray)).toSector isoHdlc 512, outsideTable.paddedArray)

theorem parse_outsideBytes : parse isoHdlc 8192 512 outsideBytes.1 outsideBytes.2 = .ok outsideTable := by
  have hg : outsideTable.Geometry := by constructor <;> decide
  exact parse_writes hg isoHdlc (by decide)

/-- The condition for two sizes on that table. -/
theorem add_safe_iff_outside :
    (outsideTable.PlacesSafely (some 8) someType "data" none .ZERO ↔
      (outsideTable.LooksForSpace someType "data" → outsideTable.RunsFit (some 8))) ∧
    (outsideTable.PlacesSafely none someType "data" none .ZERO ↔
      (outsideTable.LooksForSpace someType "data" → outsideTable.RunsFit none)) :=
  ⟨add_safe_iff parse_outsideBytes _ _ _ _ _, add_safe_iff parse_outsideBytes _ _ _ _ _⟩

/-- The largest free run there goes up to the entry, past the last usable sector. -/
theorem outsideTable_unsafe : parse isoHdlc 8192 512 outsideBytes.1 outsideBytes.2 = .ok outsideTable ∧
    ¬ outsideTable.PlacesSafely none someType "data" none .ZERO := by
  refine ⟨parse_outsideBytes, fun h => ?_⟩
  have hadd : add none someType "data" none .ZERO outsideTable = (.ok 2,
      { outsideTable with entries := outsideTable.entries.set 1 (newEntry ⟨2048, 4999⟩ someType .ZERO "data") }) := by
    decide +kernel
  obtain ⟨e, he, -, -, hlast, -⟩ := h _ _ hadd
  cases he
  exact absurd hlast (by decide)

end Gpt

end Peiosutils.Part
