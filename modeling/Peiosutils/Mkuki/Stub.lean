import Peiosutils.Lib.Fallible
import Peiosutils.Mkuki.Uki

/-!
# What a parsed stub is

The section table of an image stands where the headers say: `peOff`, `countAt` and `tableOff` follow them. A stub that
`parsePe` accepts has its headers and its table inside the image (`parsePe_spec`), but where the first section's data
starts, and whether the image reaches that far, is not checked.
-/

set_option autoImplicit false

namespace Peiosutils.Mkuki

open ByteStore Fallible

/-! ## The section table of an image -/

/-- `e_lfanew`. -/
def peOff (image : List UInt8) : Nat := leNat (slice image 0x3c 4)

/-- The number of sections. -/
def countAt (image : List UInt8) : Nat := leNat (slice image (peOff image + 6) 2)

/-- Where the section table starts, behind the optional header. -/
def tableOff (image : List UInt8) : Nat := peOff image + 24 + leNat (slice image (peOff image + 20) 2)

def rawHeader (image : List UInt8) (i : Nat) : List UInt8 := slice image (tableOff image + 40 * i) 40

/-- `PointerToRawData` of section `i`. -/
def rawPointer (image : List UInt8) (i : Nat) : Nat := leNat (slice image (tableOff image + 40 * i + 20) 4)

/-- The section header at `off`. -/
def sectionAt (image : List UInt8) (off : Nat) : ExistingSection where
  virtualAddress := leNat (slice image (off + 12) 4)
  virtualSize := leNat (slice image (off + 8) 4)
  rawPointer := leNat (slice image (off + 20) 4)
  rawSize := leNat (slice image (off + 16) 4)

/-- The least raw pointer that is set. -/
def firstRawOff (image : List UInt8) : Nat :=
  (((List.range (countAt image)).map (rawPointer image)).filter (· ≠ 0)).min?.getD 0

/-! Fields of the optional header of the image at `pe`. -/

def sectionAlignmentAt (pe : Nat) (image : List UInt8) : Nat := leNat (slice image (pe + 56) 4)

def fileAlignmentAt (pe : Nat) (image : List UInt8) : Nat := leNat (slice image (pe + 60) 4)

def sizeOfImageAt (pe : Nat) (image : List UInt8) : Nat := leNat (slice image (pe + 80) 4)

def sizeOfHeadersAt (pe : Nat) (image : List UInt8) : Nat := leNat (slice image (pe + 84) 4)

/-! ## Reading -/

variable {image : List UInt8} {off n v : Nat}

theorem require_eq_ok {what : String} {u : Unit} (h : require image off n what = .ok u) : off + n ≤ image.length := by
  unfold require at h
  have := (guard_eq_ok.1 h).1
  omega

theorem readU16_eq_ok (h : readU16 image off = .ok v) : off + 2 ≤ image.length ∧ v = leNat (slice image off 2) := by
  unfold readU16 at h
  obtain ⟨hle, h⟩ := guard_eq_ok.1 h
  cases h
  exact ⟨by omega, rfl⟩

theorem readU32_eq_ok (h : readU32 image off = .ok v) : off + 4 ≤ image.length ∧ v = leNat (slice image off 4) := by
  unfold readU32 at h
  obtain ⟨hle, h⟩ := guard_eq_ok.1 h
  cases h
  exact ⟨by omega, rfl⟩

theorem checkedAdd_eq_ok {a b : Nat} {message : String} (h : checkedAdd a b message = .ok v) :
    a + b < 2 ^ 32 ∧ v = a + b := by
  unfold checkedAdd at h
  obtain ⟨hlt, h⟩ := guard_eq_ok.1 h
  cases h
  exact ⟨by omega, rfl⟩

theorem tryU32_eq_ok {message : String} (h : tryU32 n message = .ok v) : n < 2 ^ 32 ∧ v = n := by
  unfold tryU32 at h
  obtain ⟨hlt, h⟩ := guard_eq_ok.1 h
  cases h
  exact ⟨by omega, rfl⟩

/-- The next multiple of `align`. -/
def alignUp (value align : Nat) : Nat := (value + (align - 1)) / align * align

theorem le_alignUp (value : Nat) {align : Nat} (h : 0 < align) : value ≤ alignUp value align := by
  have hmod := Nat.mod_lt (value + (align - 1)) h
  have hdiv := Nat.div_add_mod (value + (align - 1)) align
  unfold alignUp
  rw [Nat.mul_comm] at hdiv
  omega

theorem alignU32_eq_ok {value align : Nat} (h : alignU32 value align = .ok v) :
    0 < align ∧ v = alignUp value align ∧ v < 2 ^ 32 := by
  unfold alignU32 at h
  obtain ⟨hpos, h⟩ := guard_eq_ok.1 h
  obtain ⟨hlt, h⟩ := guard_eq_ok.1 h
  cases h
  have hle := Nat.div_mul_le_self (value + (align - 1)) align
  exact ⟨by omega, rfl, by omega⟩

/-! ## Sections -/

theorem readSection_eq_ok {s : ExistingSection} (h : readSection image off = .ok s) : s = sectionAt image off := by
  unfold readSection at h
  obtain ⟨virtualSize, hs, h⟩ := bind_eq_ok.1 h
  obtain ⟨virtualAddress, ha, h⟩ := bind_eq_ok.1 h
  obtain ⟨rawSize, hr, h⟩ := bind_eq_ok.1 h
  obtain ⟨pointer, hp, h⟩ := bind_eq_ok.1 h
  cases h
  rw [(readU32_eq_ok hs).2, (readU32_eq_ok ha).2, (readU32_eq_ok hr).2, (readU32_eq_ok hp).2]
  rfl

theorem readSections_eq_ok {count : Nat} {sections : List ExistingSection}
    (h : readSections image off count = .ok sections) :
    sections = (List.range count).map fun i => sectionAt image (off + 40 * i) := by
  induction count generalizing off sections with
  | zero =>
    cases h
    rfl
  | succ count ih =>
    unfold readSections at h
    obtain ⟨s, hs, h⟩ := bind_eq_ok.1 h
    obtain ⟨rest, hr, h⟩ := bind_eq_ok.1 h
    cases h
    rw [ih hr, readSection_eq_ok hs, List.range_succ_eq_map, List.map_cons, List.map_map]
    congr 1
    apply List.map_congr_left
    intro i _
    have hoff : off + sectionHeaderSize + 40 * i = off + 40 * (i + 1) := by
      unfold sectionHeaderSize
      omega
    rw [Function.comp_apply, hoff]

/-- The ends lie behind every section. -/
theorem sectionEnds_eq_ok {va raw : Nat} {sections : List ExistingSection} {ends : Nat × Nat}
    (h : sectionEnds va raw sections = .ok ends) :
    va ≤ ends.1 ∧ raw ≤ ends.2 ∧ (raw < 2 ^ 32 → ends.2 < 2 ^ 32) ∧
      ∀ s ∈ sections, s.virtualAddress + s.virtualSize ≤ ends.1 ∧ s.rawPointer + s.rawSize ≤ ends.2 := by
  induction sections generalizing va raw with
  | nil =>
    cases h
    exact ⟨Nat.le_refl _, Nat.le_refl _, id, fun s hs => by simp at hs⟩
  | cons s sections ih =>
    unfold sectionEnds at h
    obtain ⟨virtualEnd, hv, h⟩ := bind_eq_ok.1 h
    obtain ⟨rawEnd, hr, h⟩ := bind_eq_ok.1 h
    obtain ⟨-, rfl⟩ := checkedAdd_eq_ok hv
    obtain ⟨hlt, rfl⟩ := checkedAdd_eq_ok hr
    obtain ⟨hva, hle, hlt', hall⟩ := ih h
    refine ⟨by omega, by omega, fun hraw => hlt' (by omega), ?_⟩
    intro x hx
    rcases List.mem_cons.1 hx with rfl | hx
    · omega
    · exact hall x hx

/-! ## The parsed stub -/

/-- What is known of a stub that was parsed. -/
structure Stub (stub : List UInt8) (info : PeInfo) : Prop where
  coffOff : info.coffOff = peOff stub + 4
  sectionTableOff : info.sectionTableOff = tableOff stub
  sectionCount : info.sectionCount = countAt stub
  sizeOfImageOff : info.sizeOfImageOff = peOff stub + 80
  sizeOfHeadersOff : info.sizeOfHeadersOff = peOff stub + 84
  headers : peOff stub + 88 ≤ tableOff stub
  table : tableOff stub + 40 * countAt stub ≤ stub.length
  fileAlignment : 0 < info.fileAlignment
  /-- Some section starts at the first raw offset, and none that has data starts before it. -/
  first : ∃ i < countAt stub, rawPointer stub i = info.firstRawSectionOff
  firstPos : 0 < info.firstRawSectionOff
  least : ∀ i < countAt stub, rawPointer stub i ≠ 0 → info.firstRawSectionOff ≤ rawPointer stub i
  rawEnd : ∀ i < countAt stub, rawPointer stub i ≤ info.nextRawPointer
  rawEnd_lt : info.nextRawPointer < 2 ^ 32
  sectionAlignment : 0 < info.sectionAlignment
  /-- No section reaches behind the next virtual address. -/
  virtualEnd : ∀ i < countAt stub, (sectionAt stub (tableOff stub + 40 * i)).virtualAddress +
    (sectionAt stub (tableOff stub + 40 * i)).virtualSize ≤ info.nextVirtualAddress
  firstRaw : info.firstRawSectionOff = firstRawOff stub
  sectionAlignmentAt : info.sectionAlignment = sectionAlignmentAt (peOff stub) stub
  fileAlignmentAt : info.fileAlignment = fileAlignmentAt (peOff stub) stub
  sizeOfHeadersAt : info.sizeOfHeaders = sizeOfHeadersAt (peOff stub) stub

theorem parsePe_spec {stub : List UInt8} {info : PeInfo} (h : parsePe stub = .ok info) : Stub stub info := by
  unfold parsePe at h
  obtain ⟨-, h⟩ := guard_eq_ok.1 h
  obtain ⟨mz, -, h⟩ := bind_eq_ok.1 h
  obtain ⟨-, h⟩ := guard_eq_ok.1 h
  obtain ⟨pe, hpe, h⟩ := bind_eq_ok.1 h
  obtain ⟨-, -, h⟩ := bind_eq_ok.1 h
  obtain ⟨signature, -, h⟩ := bind_eq_ok.1 h
  obtain ⟨-, h⟩ := guard_eq_ok.1 h
  obtain ⟨-, -, h⟩ := bind_eq_ok.1 h
  obtain ⟨count, hcount, h⟩ := bind_eq_ok.1 h
  obtain ⟨optional, hoptional, h⟩ := bind_eq_ok.1 h
  obtain ⟨-, -, h⟩ := bind_eq_ok.1 h
  obtain ⟨hsize, h⟩ := guard_eq_ok.1 h
  obtain ⟨magic, -, h⟩ := bind_eq_ok.1 h
  obtain ⟨-, -, h⟩ := bind_eq_ok.1 h
  obtain ⟨_, htable, h⟩ := bind_eq_ok.1 h
  obtain ⟨sectionAlignment, hsa, h⟩ := bind_eq_ok.1 h
  obtain ⟨fileAlignment, hfileAlignment, h⟩ := bind_eq_ok.1 h
  obtain ⟨sizeOfHeaders, hsoh, h⟩ := bind_eq_ok.1 h
  obtain ⟨halign, h⟩ := guard_eq_ok.1 h
  obtain ⟨sections, hsections, h⟩ := bind_eq_ok.1 h
  split at h
  · cases h
  · rename_i first hfirst
    obtain ⟨ends, hends, h⟩ := bind_eq_ok.1 h
    cases h
    obtain ⟨-, rfl⟩ := readU32_eq_ok hpe
    obtain ⟨-, rfl⟩ := readU16_eq_ok hcount
    obtain ⟨-, rfl⟩ := readU16_eq_ok hoptional
    obtain ⟨-, rfl⟩ := readU32_eq_ok hsa
    obtain ⟨-, rfl⟩ := readU32_eq_ok hfileAlignment
    obtain ⟨-, rfl⟩ := readU32_eq_ok hsoh
    have hall := readSections_eq_ok hsections
    obtain ⟨-, -, hlt, hends⟩ := sectionEnds_eq_ok hends
    obtain ⟨hmem, hmin⟩ := List.min?_eq_some_iff.1 hfirst
    have hcnt : leNat (slice stub (leNat (slice stub peOffsetPtr 4) + 4 + 2) 2) = countAt stub := rfl
    have htab : leNat (slice stub peOffsetPtr 4) + 4 + coffHeaderSize +
        leNat (slice stub (leNat (slice stub peOffsetPtr 4) + 4 + 16) 2) = tableOff stub := by
      simp only [tableOff, peOff, peOffsetPtr, coffHeaderSize, Nat.add_assoc, Nat.reduceAdd]
    have hpe : leNat (slice stub peOffsetPtr 4) = peOff stub := rfl
    rw [hcnt, htab] at hall
    have hpointers : rawPointers sections = ((List.range (countAt stub)).map (rawPointer stub)).filter (· ≠ 0) := by
      rw [rawPointers, hall, List.map_map]
      rfl
    have hp : ∀ i < countAt stub, sectionAt stub (tableOff stub + 40 * i) ∈ sections := by
      intro i hi
      rw [hall]
      exact List.mem_map.2 ⟨i, List.mem_range.2 hi, rfl⟩
    have hfirstRaw : first = firstRawOff stub := by rw [firstRawOff, ← hpointers, hfirst, Option.getD_some]
    rw [hpointers, List.mem_filter, List.mem_map] at hmem
    obtain ⟨⟨i, hi, hfirst'⟩, hne⟩ := hmem
    exact
      { coffOff := rfl
        sectionTableOff := htab
        sectionCount := rfl
        sizeOfImageOff := rfl
        sizeOfHeadersOff := rfl
        headers := by
          have hopt : tableOff stub = peOff stub + 24 + leNat (slice stub (peOff stub + 4 + 16) 2) := rfl
          have hsize' : ¬ leNat (slice stub (peOff stub + 4 + 16) 2) < 64 := hsize
          omega
        table := by
          have := require_eq_ok htable
          rw [hcnt, htab] at this
          unfold sectionHeaderSize at this
          omega
        fileAlignment := Nat.pos_of_ne_zero fun e => halign (Or.inr e)
        first := ⟨i, List.mem_range.1 hi, hfirst'⟩
        firstPos := by
          have : first ≠ 0 := by simpa using hne
          exact Nat.pos_of_ne_zero this
        least := by
          intro j hj hne
          refine hmin _ ?_
          rw [hpointers]
          exact List.mem_filter.2 ⟨List.mem_map.2 ⟨j, List.mem_range.2 hj, rfl⟩, by simpa using hne⟩
        rawEnd := fun j hj => Nat.le_trans (Nat.le_add_right _ _) (hends _ (hp j hj)).2
        rawEnd_lt := hlt (by norm_num)
        sectionAlignment := Nat.pos_of_ne_zero fun e => halign (Or.inl e)
        virtualEnd := fun j hj => (hends _ (hp j hj)).1
        firstRaw := hfirstRaw
        sectionAlignmentAt := rfl
        fileAlignmentAt := rfl
        sizeOfHeadersAt := rfl }

end Peiosutils.Mkuki
