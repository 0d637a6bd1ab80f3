import Peiosutils.Mkuki.Image

/-!
# The layout of the output

The loop over the payloads keeps a virtual and a raw address behind everything that is laid out so far; each section
starts at one of them, aligned, and ends at the next (`addPayloads_ranges`). So the ranges of the added sections never
meet, and the image and header sizes cover what they should. One clause is lost where the section table of the stub
reaches into the first section: zeros spliced into the table can cut a raw pointer to a smaller one
(`buildUki_laidOut_iff`, `cutStub_overlaps`). All fields are read where the stub has its headers, which is where
`build_uki` writes them.
-/

set_option autoImplicit false

namespace Peiosutils.Mkuki

open ByteStore Fallible Utf8

/-! ## The specification -/

/-- Section `i` of the table at `table`. -/
def sectionIn (image : List UInt8) (table i : Nat) : ExistingSection := sectionAt image (table + 40 * i)

def ExistingSection.virtualEnd (s : ExistingSection) : Nat := s.virtualAddress + s.virtualSize

def ExistingSection.rawEnd (s : ExistingSection) : Nat := s.rawPointer + s.rawSize

/-- Two ranges have nothing in common. -/
def RangesApart (start stop start' stop' : Nat) : Prop := stop ≤ start' ∨ stop' ≤ start

/-- The headers end at or before the first raw data. -/
def HeadersFirst (image : List UInt8) (pe table count : Nat) : Prop :=
  ∀ i < count, (sectionIn image table i).rawPointer ≠ 0 →
    sizeOfHeadersAt pe image ≤ (sectionIn image table i).rawPointer

/-- The output is laid out as the loader needs it. -/
structure LaidOut (stub : List UInt8) (added : Nat) (out : List UInt8) : Prop where
  virtualAligned : ∀ i < added,
    sectionAlignmentAt (peOff stub) stub ∣ (sectionIn out (tableOff stub) (countAt stub + i)).virtualAddress
  above : ∀ i < added, ∀ j < countAt stub,
    (sectionIn stub (tableOff stub) j).virtualEnd ≤ (sectionIn out (tableOff stub) (countAt stub + i)).virtualAddress
  virtualApart : ∀ i < added, ∀ j < added, i ≠ j →
    let s := sectionIn out (tableOff stub) (countAt stub + i)
    let t := sectionIn out (tableOff stub) (countAt stub + j)
    RangesApart s.virtualAddress s.virtualEnd t.virtualAddress t.virtualEnd
  rawAligned : ∀ i < added,
    let s := sectionIn out (tableOff stub) (countAt stub + i)
    fileAlignmentAt (peOff stub) stub ∣ s.rawPointer ∧ fileAlignmentAt (peOff stub) stub ∣ s.rawSize
  rawApart : ∀ i < added, ∀ j < added, i ≠ j →
    let s := sectionIn out (tableOff stub) (countAt stub + i)
    let t := sectionIn out (tableOff stub) (countAt stub + j)
    RangesApart s.rawPointer s.rawEnd t.rawPointer t.rawEnd
  imageAligned : sectionAlignmentAt (peOff stub) stub ∣ sizeOfImageAt (peOff stub) out
  covers : ∀ i < countAt stub + added, (sectionIn out (tableOff stub) i).virtualEnd ≤ sizeOfImageAt (peOff stub) out
  table : tableOff stub + 40 * (countAt stub + added) ≤ sizeOfHeadersAt (peOff stub) out
  first : HeadersFirst stub (peOff stub) (tableOff stub) (countAt stub) →
    HeadersFirst out (peOff stub) (tableOff stub) (countAt stub + added)

/-- The part of a raw pointer that stands before the first raw data. -/
def cutPointer (stub : List UInt8) (i : Nat) : Nat :=
  leNat (slice (stub.take (firstRawOff stub)) (tableOff stub + 40 * i + 20) 4)

/-- The enlarged table ends before the first raw data, or making room cuts no raw pointer to one before that data. -/
def PointersWhole (stub : List UInt8) (added : Nat) : Prop :=
  tableOff stub + 40 * (countAt stub + added) ≤ firstRawOff stub ∨
    ∀ i < countAt stub, cutPointer stub i = 0 ∨ firstRawOff stub ≤ cutPointer stub i

/-! ## The loop over the payloads -/

theorem dvd_alignUp (value align : Nat) : align ∣ alignUp value align := Nat.dvd_mul_left _ _

theorem sectionAt_of_slice {image name : List UInt8} {off size va rawSize pointer : Nat} (hname : name.length ≤ 8)
    (hsize : size < 2 ^ 32) (hva : va < 2 ^ 32) (hraw : rawSize < 2 ^ 32) (hpointer : pointer < 2 ^ 32)
    (h : slice image off 40 = sectionHeader name size va rawSize pointer) :
    sectionAt image off = ⟨va, size, pointer, rawSize⟩ := by
  have hpart : ∀ o v, o + 4 ≤ 40 → v < 2 ^ 32 → (o, leBytes 4 v) ∈ sectionFields name size va rawSize pointer →
      leNat (slice image (off + o) 4) = v := by
    intro o v ho hv hm
    rw [← leNat_sectionHeader hname hv hm, ← h, slice_slice image ho]
  unfold sectionAt
  rw [hpart 12 va (by omega) hva (by simp [sectionFields]), hpart 8 size (by omega) hsize (by simp [sectionFields]),
    hpart 20 pointer (by omega) hpointer (by simp [sectionFields]),
    hpart 16 rawSize (by omega) hraw (by simp [sectionFields])]

/-- What is known of a section that is laid out behind `va` and `raw`, and before `stop`. -/
structure Ranged (info : PeInfo) (va raw stop : Nat) (s : ExistingSection) : Prop where
  virtualAligned : info.sectionAlignment ∣ s.virtualAddress
  rawAligned : info.fileAlignment ∣ s.rawPointer ∧ info.fileAlignment ∣ s.rawSize
  behind : va ≤ s.virtualAddress ∧ raw ≤ s.rawPointer
  before : s.virtualEnd ≤ stop

/-- The sections are laid out one behind the other. -/
theorem addPayloads_ranges {info : PeInfo} {off va raw : Nat} {image : List UInt8} {ps : List PayloadSection}
    {res : List UInt8 × Nat} (h : addPayloads info off va raw image ps = .ok res) (hoff : off + 40 * ps.length ≤ raw) :
    va ≤ res.2 ∧ (∀ i < ps.length, Ranged info va raw res.2 (sectionIn res.1 off i)) ∧
      ∀ i j, i < j → j < ps.length → (sectionIn res.1 off i).virtualEnd ≤ (sectionIn res.1 off j).virtualAddress ∧
        (sectionIn res.1 off i).rawEnd ≤ (sectionIn res.1 off j).rawPointer := by
  induction ps generalizing off va raw image with
  | nil =>
    cases h
    exact ⟨Nat.le_refl _, fun i hi => absurd hi (Nat.not_lt_zero i), fun i j _ hj => absurd hj (Nat.not_lt_zero j)⟩
  | cons p ps ih =>
    obtain ⟨va', raw', rawSize, hva', hraw', hrs, hsa, hfa, hsize, hname, hvlt, hrlt, hfit, h⟩ := addPayloads_cons h
    have hva : va ≤ va' := hva' ▸ le_alignUp _ hsa
    have hraw : raw ≤ raw' := hraw' ▸ le_alignUp _ hfa
    have hheader : (sectionHeader (utf8 p.name) p.data.length va' rawSize raw').length = 40 :=
      length_sectionHeader hname
    have hplaced : (placed image raw' rawSize p.data).length = raw' + rawSize := length_resize _ _
    rw [List.length_cons] at hoff ⊢
    -- the header of the first section is still there at the end
    have hfirst : sectionIn res.1 off 0 = ⟨va', p.data.length, raw', rawSize⟩ := by
      have hkeep := (addPayloads_spec h (by omega)).1 off 40
      rw [length_patch_of_le (by omega), hplaced] at hkeep
      refine sectionAt_of_slice hname hsize (by omega) (by omega) (by omega) ?_
      rw [Nat.mul_zero, Nat.add_zero, hkeep (by omega) (by omega) (Or.inl (by omega)),
        slice_patch_self (by omega) hheader.symm]
    have hnext : ∀ i, sectionIn res.1 (off + 40) i = sectionIn res.1 off (i + 1) := by
      intro i
      have hadd : off + 40 + 40 * i = off + 40 * (i + 1) := by omega
      rw [sectionIn, sectionIn, hadd]
    obtain ⟨hstop, hranged, hpair⟩ := ih h (by omega)
    simp only [hnext] at hranged hpair
    refine ⟨by omega, ?_, ?_⟩
    · intro i hi
      cases i with
      | zero =>
        rw [hfirst]
        exact ⟨hva' ▸ dvd_alignUp _ _, ⟨hraw' ▸ dvd_alignUp _ _, hrs ▸ dvd_alignUp _ _⟩, ⟨hva, hraw⟩, hstop⟩
      | succ i =>
        obtain ⟨hv, hr, hb, he⟩ := hranged i (by omega)
        exact ⟨hv, hr, ⟨by omega, by omega⟩, he⟩
    · intro i j hij hj
      obtain ⟨j, rfl⟩ : ∃ k, j = k + 1 := ⟨j - 1, by omega⟩
      cases i with
      | zero =>
        rw [hfirst]
        exact (hranged j (by omega)).behind
      | succ i => exact hpair i j (by omega) (by omega)

/-! ## Cutting a pointer -/

theorem leNat_append_zeros (xs : List UInt8) (n : Nat) : leNat (xs ++ zeros n) = leNat xs := by
  induction xs with
  | nil =>
    induction n with
    | zero => rfl
    | succ n ih =>
      show leNat (0 :: zeros n) = 0
      rw [leNat, show leNat (zeros n) = 0 from ih]
      rfl
  | cons x xs ih => rw [List.cons_append, leNat, leNat, ih]

/-- Zeros behind the bytes do not change a number in them. -/
theorem leNat_slice_append_zeros (s : List UInt8) (d o k : Nat) :
    leNat (slice (s ++ zeros d) o k) = leNat (slice s o k) := by
  have hz : ∀ m n, ((zeros d).drop m).take n = zeros (min n (d - m)) := by
    intro m n
    rw [zeros, List.drop_replicate, List.take_replicate, zeros]
  rw [slice, List.drop_append, List.take_append, hz, leNat_append_zeros]
  rfl

section Build

variable {stub out : List UInt8} {info : PeInfo} {payloads : List PayloadSection}

/-- Where room is made, the pointers of the widened stub are the cut ones. -/
theorem widened_pointer (hs : Stub stub info) (hb : Built stub info payloads out) {i : Nat} (hi : i < countAt stub)
    (hmove : firstRawOff stub < tableOff stub + 40 * (countAt stub + payloads.length)) :
    leNat (slice (widened stub info (countAt stub + payloads.length)) (tableOff stub + 40 * i + 20) 4) =
      cutPointer stub i := by
  have hroom := hb.room
  have hmoves := hb.moves
  rw [hs.firstRaw] at hroom hmoves
  have hle : firstRawOff stub ≤ stub.length := by
    refine hmoves.resolve_left fun h0 => ?_
    omega
  have hlen : (stub.take (firstRawOff stub)).length = firstRawOff stub := by simp; omega
  rw [widened, hs.firstRaw, insertZeros, slice_append_left (by simp only [List.length_append, length_zeros]; omega),
    leNat_slice_append_zeros, cutPointer]

/-- A section of the stub in the output: its pointer is moved, its virtual range has not grown. -/
theorem stubSection_out (hs : Stub stub info) (hb : Built stub info payloads out) {i : Nat} (hi : i < countAt stub) :
    (sectionIn out (tableOff stub) i).rawPointer =
        movedPointer info.firstRawSectionOff (headerExpansion info (countAt stub + payloads.length))
          (leNat (slice (widened stub info (countAt stub + payloads.length)) (tableOff stub + 40 * i + 20) 4)) ∧
      (sectionIn out (tableOff stub) i).virtualEnd ≤ (sectionIn stub (tableOff stub) i).virtualEnd := by
  have htab := hs.table
  have hlt := hb.rawEnd_lt
  have hend := hs.rawEnd i hi
  have hpointer := @widened_le stub out info payloads hb (tableOff stub + 40 * i + 20) (by omega) htab
  have hsize := @widened_le stub out info payloads hb (tableOff stub + 40 * i + 8) (by omega) htab
  have haddress := @widened_le stub out info payloads hb (tableOff stub + 40 * i + 12) (by omega) htab
  have hlen : (slice (widened stub info (countAt stub + payloads.length)) (tableOff stub + 40 * i) 40).length = 40 := by
    refine length_slice_of_le ?_
    rw [widened, length_insertZeros]
    omega
  have hfield : ∀ o, o + 4 ≤ 40 → slice out (tableOff stub + 40 * i + o) 4 =
      slice (moveHeader info.firstRawSectionOff (headerExpansion info (countAt stub + payloads.length))
        (slice (widened stub info (countAt stub + payloads.length)) (tableOff stub + 40 * i) 40)) o 4 := by
    intro o ho
    rw [← hb.headers i hi, slice_slice out ho]
  have hmoved : movedPointer info.firstRawSectionOff (headerExpansion info (countAt stub + payloads.length))
      (leNat (slice (widened stub info (countAt stub + payloads.length)) (tableOff stub + 40 * i + 20) 4)) < 2 ^ 32 := by
    unfold rawPointer at hend
    unfold movedPointer
    split <;> omega
  constructor
  · unfold sectionIn sectionAt
    dsimp only
    rw [hfield 20 (by omega), moveHeader, slice_patch_self (by omega) (by simp), slice_slice _ (by omega),
      leNat_leBytes_of_lt hmoved]
  · unfold ExistingSection.virtualEnd sectionIn sectionAt
    dsimp only
    rw [hfield 8 (by omega), hfield 12 (by omega), moveHeader, slice_patch_before (by omega) (by omega),
      slice_patch_before (by omega) (by omega), slice_slice _ (by omega), slice_slice _ (by omega)]
    omega

/-- What is known of an added section, and of the two sizes. -/
structure Added (stub : List UInt8) (info : PeInfo) (payloads : List PayloadSection) (out : List UInt8) : Prop where
  ranged : ∀ i < payloads.length, Ranged info info.nextVirtualAddress
    (info.nextRawPointer + headerExpansion info (countAt stub + payloads.length)) (sizeOfImageAt (peOff stub) out)
    (sectionIn out (tableOff stub) (countAt stub + i))
  apart : ∀ i j, i < j → j < payloads.length →
    (sectionIn out (tableOff stub) (countAt stub + i)).virtualEnd ≤
        (sectionIn out (tableOff stub) (countAt stub + j)).virtualAddress ∧
      (sectionIn out (tableOff stub) (countAt stub + i)).rawEnd ≤
        (sectionIn out (tableOff stub) (countAt stub + j)).rawPointer
  image : info.nextVirtualAddress ≤ sizeOfImageAt (peOff stub) out ∧
    info.sectionAlignment ∣ sizeOfImageAt (peOff stub) out
  headers : ∃ required, tableOff stub + 40 * (countAt stub + payloads.length) ≤ required ∧
    required ≤ info.firstRawSectionOff + headerExpansion info (countAt stub + payloads.length) ∧
    sizeOfHeadersAt (peOff stub) out = max info.sizeOfHeaders required

theorem buildUki_added (hp : parsePe stub = .ok info) (h : buildUki stub payloads = .ok out) :
    Added stub info payloads out := by
  have hs := parsePe_spec hp
  obtain ⟨-, hfits, -, -, moved, appended, info', -, hfa, hsa, happ, hlen, hrequired, hrlt, hilt, rfl⟩ :=
    buildUki_eq_ok hp h
  obtain ⟨i₀, hi₀, hfirst⟩ := hs.first
  have hfr : info.firstRawSectionOff ≤ info.nextRawPointer := hfirst ▸ hs.rawEnd i₀ hi₀
  have hhead := hs.headers
  obtain ⟨hva, hranged, hpair⟩ := addPayloads_ranges happ (by omega)
  have hsoh := hs.sizeOfHeadersAt
  have hsohlt : info.sizeOfHeaders < 2 ^ 32 := by
    have hlt := leNat_lt (slice stub (peOff stub + 84) 4)
    rw [length_slice_of_le (by have := hs.table; omega)] at hlt
    rw [hsoh]
    exact hlt
  have himage := fun count sizeOfHeaders => sizeOfImageAt_finished hlen count sizeOfHeaders
    (alignUp appended.2 info.sectionAlignment) hilt
  have hheaders := fun count sizeOfImage => sizeOfHeadersAt_finished hlen count (max info.sizeOfHeaders
    (alignUp (tableOff stub + 40 * (countAt stub + payloads.length)) info.fileAlignment)) sizeOfImage (by omega)
  have hle := le_alignUp appended.2 hs.sectionAlignment
  have hsec : ∀ count sizeOfHeaders sizeOfImage i,
      sectionIn (finished appended.1 (peOff stub) count sizeOfHeaders sizeOfImage) (tableOff stub) (countAt stub + i) =
        sectionIn appended.1 (tableOff stub + 40 * countAt stub) i := by
    intro count sizeOfHeaders sizeOfImage i
    have hadd : tableOff stub + 40 * (countAt stub + i) = tableOff stub + 40 * countAt stub + 40 * i := by omega
    rw [sectionIn, sectionIn, hadd]
    unfold sectionAt
    rw [slice_finished hlen _ _ _ _ (by omega), slice_finished hlen _ _ _ _ (by omega),
      slice_finished hlen _ _ _ _ (by omega), slice_finished hlen _ _ _ _ (by omega)]
  refine ⟨?_, ?_, ?_, ?_⟩
  · intro i hi
    obtain ⟨hv, hr, hb, he⟩ := hranged i hi
    rw [hsa] at hv
    rw [hfa] at hr
    rw [hsec, himage]
    exact ⟨hv, hr, hb, by omega⟩
  · intro i j hij hj
    rw [hsec, hsec]
    exact hpair i j hij hj
  · rw [himage]
    exact ⟨by omega, dvd_alignUp _ _⟩
  · exact ⟨_, le_alignUp _ hs.fileAlignment, hrequired, hheaders _ _⟩

/-! ## The whole output -/

/-- Where the headers of the output end before its data: the moved pointers of the stub decide it. -/
theorem headersFirst_out_iff (hs : Stub stub info) (hb : Built stub info payloads out)
    (ha : Added stub info payloads out) (hfirst : HeadersFirst stub (peOff stub) (tableOff stub) (countAt stub)) :
    HeadersFirst out (peOff stub) (tableOff stub) (countAt stub + payloads.length) ↔
      PointersWhole stub payloads.length := by
  obtain ⟨required, hrequired, hroom, hsize⟩ := ha.headers
  obtain ⟨i₀, hi₀, hfr⟩ := hs.first
  have hpos := hs.firstPos
  have hraw := hs.rawEnd i₀ hi₀
  have hbuilt := hb.room
  -- the headers of the stub end before its first raw data, so those of the output before where this is moved to
  have hsoh : sizeOfHeadersAt (peOff stub) out ≤
      info.firstRawSectionOff + headerExpansion info (countAt stub + payloads.length) := by
    have hstub := hfirst i₀ hi₀ (by
      show rawPointer stub i₀ ≠ 0
      omega)
    rw [← hs.sizeOfHeadersAt, show (sectionIn stub (tableOff stub) i₀).rawPointer = rawPointer stub i₀ from rfl] at hstub
    omega
  have hadded : ∀ i < payloads.length, sizeOfHeadersAt (peOff stub) out ≤
      (sectionIn out (tableOff stub) (countAt stub + i)).rawPointer := by
    intro i hi
    have := (ha.ranged i hi).behind.2
    omega
  by_cases hmove : tableOff stub + 40 * (countAt stub + payloads.length) ≤ firstRawOff stub
  · refine iff_of_true ?_ (Or.inl hmove)
    have hzero : headerExpansion info (countAt stub + payloads.length) = 0 := by
      rw [headerExpansion, if_pos]
      rw [requiredHeaderEnd, hs.sectionTableOff, hs.firstRaw, Nat.mul_comm]
      exact hmove
    intro i hi hne
    by_cases hstub : i < countAt stub
    · have hp := (stubSection_out hs hb hstub).1
      have hleast := hs.least i hstub
      rw [widened, hzero, insertZeros_zero] at hp
      have hsame : movedPointer info.firstRawSectionOff 0 (rawPointer stub i) = rawPointer stub i := by
        unfold movedPointer
        split <;> omega
      rw [show leNat (slice stub (tableOff stub + 40 * i + 20) 4) = rawPointer stub i from rfl, hsame] at hp
      omega
    · obtain ⟨k, rfl⟩ := Nat.exists_eq_add_of_le (Nat.le_of_not_lt hstub)
      exact hadded k (by omega)
  · have hcut : ∀ i < countAt stub, (sectionIn out (tableOff stub) i).rawPointer =
        movedPointer info.firstRawSectionOff (headerExpansion info (countAt stub + payloads.length))
          (cutPointer stub i) := by
      intro i hi
      rw [(stubSection_out hs hb hi).1, widened_pointer hs hb hi (by omega)]
    have hone : ∀ i < countAt stub, ((sectionIn out (tableOff stub) i).rawPointer ≠ 0 →
        sizeOfHeadersAt (peOff stub) out ≤ (sectionIn out (tableOff stub) i).rawPointer) ↔
          (cutPointer stub i = 0 ∨ firstRawOff stub ≤ cutPointer stub i) := by
      intro i hi
      have heq := hs.firstRaw
      rw [hcut i hi]
      unfold movedPointer
      split <;> omega
    constructor
    · intro h
      exact Or.inr fun i hi => (hone i hi).1 (h i (by omega))
    · intro h i hi
      by_cases hstub : i < countAt stub
      · exact (hone i hstub).2 (h.resolve_left hmove i hstub)
      · obtain ⟨k, rfl⟩ := Nat.exists_eq_add_of_le (Nat.le_of_not_lt hstub)
        exact fun _ => hadded k (by omega)

/-- The output is laid out exactly when making room for the headers leaves the raw pointers of the stub whole, or its own
headers did not end before its data. -/
theorem buildUki_laidOut_iff (h : buildUki stub payloads = .ok out) :
    LaidOut stub payloads.length out ↔
      (HeadersFirst stub (peOff stub) (tableOff stub) (countAt stub) → PointersWhole stub payloads.length) := by
  obtain ⟨info, hp, -⟩ := bind_eq_ok.1 h
  have hs := parsePe_spec hp
  have hb := buildUki_spec hp h
  have ha := buildUki_added hp h
  obtain ⟨required, hrequired, -, hsize⟩ := ha.headers
  constructor
  · exact fun hl hfirst => (headersFirst_out_iff hs hb ha hfirst).1 (hl.first hfirst)
  · intro hwhole
    exact
      { virtualAligned := fun i hi => hs.sectionAlignmentAt ▸ (ha.ranged i hi).virtualAligned
        above := fun i hi j hj => Nat.le_trans (hs.virtualEnd j hj) (ha.ranged i hi).behind.1
        virtualApart := by
          intro i hi j hj hne
          rcases Nat.lt_or_gt_of_ne hne with hlt | hlt
          · exact Or.inl (ha.apart i j hlt hj).1
          · exact Or.inr (ha.apart j i hlt hi).1
        rawAligned := fun i hi => hs.fileAlignmentAt ▸ (ha.ranged i hi).rawAligned
        rawApart := by
          intro i hi j hj hne
          rcases Nat.lt_or_gt_of_ne hne with hlt | hlt
          · exact Or.inl (ha.apart i j hlt hj).2
          · exact Or.inr (ha.apart j i hlt hi).2
        imageAligned := hs.sectionAlignmentAt ▸ ha.image.2
        covers := by
          intro i hi
          by_cases hstub : i < countAt stub
          · exact Nat.le_trans (stubSection_out hs hb hstub).2 (Nat.le_trans (hs.virtualEnd i hstub) ha.image.1)
          · obtain ⟨k, rfl⟩ := Nat.exists_eq_add_of_le (Nat.le_of_not_lt hstub)
            exact (ha.ranged k (by omega)).before
        table := by omega
        first := fun hfirst => (headersFirst_out_iff hs hb ha hfirst).2 (hwhole hfirst) }

end Build

theorem buildUki_laidOut_tiny : ∃ out, buildUki (tinyStub []) [tinyPayload] = .ok out ∧
    LaidOut (tinyStub []) 1 out := by
  have hb : buildUki (tinyStub []) [tinyPayload] =
      .ok ((buildUki (tinyStub []) [tinyPayload]).toOption.getD []) := by decide +kernel
  refine ⟨_, hb, (buildUki_laidOut_iff hb).2 fun _ => Or.inl ?_⟩
  decide +kernel

/-- A stub whose first raw data starts in the second section header, between the first and the second byte of its raw
pointer. -/
def cutStub : List UInt8 :=
  patchAll (zeros 272)
    [(0, utf8 "MZ"), (0x3c, leBytes 4 0x40), (0x40, utf8 "PE"), (0x46, leBytes 2 2), (0x54, leBytes 2 64),
      (0x58, leBytes 2 0x020b), (0x78, leBytes 4 16), (0x7c, leBytes 4 16), (0x98, utf8 ".text"),
      (0xac, leBytes 4 213), (0xc0, utf8 ".data"), (0xd4, leBytes 4 272)]

/-- Its second section comes to start at offset sixteen, in the headers. -/
theorem cutStub_overlaps : ∃ out, buildUki cutStub [tinyPayload] = .ok out ∧
    (sectionIn out 0x98 1).rawPointer = 16 ∧ sizeOfHeadersAt 0x40 out = 272 ∧ ¬ LaidOut cutStub 1 out := by
  have hb : buildUki cutStub [tinyPayload] = .ok ((buildUki cutStub [tinyPayload]).toOption.getD []) := by
    decide +kernel
  refine ⟨_, hb, by decide +kernel, by decide +kernel, fun hl => ?_⟩
  have hwhole := (buildUki_laidOut_iff hb).1 hl (by unfold HeadersFirst; decide +kernel)
  revert hwhole
  unfold PointersWhole
  decide +kernel

end Peiosutils.Mkuki
