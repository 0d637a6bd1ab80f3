import Peiosutils.Mkuki.Stub

/-!
# Room for the new section headers

Where the table with its new headers would reach into the first section, everything from there on moves back by
`headerExpansion` bytes, and the raw pointers move with it. `ensureRoom_spec` covers both cases: without an expansion
the image is the stub, as zero bytes are inserted and pointers move by zero.
-/

set_option autoImplicit false

namespace Peiosutils.Mkuki

open ByteStore Fallible

variable {image image' : List UInt8}

theorem store_eq_ok {off : Nat} {p : List UInt8} (h : store image off p = .ok image') :
    off + p.length ≤ image.length ∧ image' = patch image off p := by
  unfold store at h
  obtain ⟨hle, h⟩ := guard_eq_ok.1 h
  cases h
  exact ⟨by omega, rfl⟩

/-! ## Moving the pointers -/

/-- A raw pointer behind an insertion of `delta` bytes at `first`; a pointer of zero is none. -/
def movedPointer (first delta p : Nat) : Nat := if p ≠ 0 ∧ p ≥ first then p + delta else p

/-- A section header with its raw pointer moved. -/
def moveHeader (first delta : Nat) (h : List UInt8) : List UInt8 :=
  patch h 20 (leBytes 4 (movedPointer first delta (leNat (slice h 20 4))))

/-- One header: its pointer is written, moved or as it was. -/
theorem movePointer_eq_ok {first delta off : Nat} (h : movePointer first delta off image = .ok image') :
    off + 24 ≤ image.length ∧
      image' = patch image (off + 20) (leBytes 4 (movedPointer first delta (leNat (slice image (off + 20) 4)))) := by
  unfold movePointer at h
  obtain ⟨p, hp, h⟩ := bind_eq_ok.1 h
  obtain ⟨hle, rfl⟩ := readU32_eq_ok hp
  refine ⟨by omega, ?_⟩
  unfold movedPointer
  split at h
  · rename_i hmove
    obtain ⟨moved, hm, h⟩ := bind_eq_ok.1 h
    obtain ⟨-, rfl⟩ := checkedAdd_eq_ok hm
    rw [if_pos hmove]
    exact (store_eq_ok h).2
  · rename_i hstay
    cases h
    have hlen := length_slice_of_le hle
    have hsame := leBytes_leNat (slice image (off + 20) 4)
    rw [hlen] at hsame
    rw [if_neg hstay, hsame, patch_slice hle]

/-- All headers: each pointer is moved, and nothing else changes. -/
theorem movePointers_spec {first delta off count : Nat} (h : movePointers first delta off count image = .ok image') :
    image'.length = image.length ∧
      (∀ o k, (∀ i < count, o + k ≤ off + 40 * i + 20 ∨ off + 40 * i + 24 ≤ o) → slice image' o k = slice image o k) ∧
      ∀ i < count, slice image' (off + 40 * i + 20) 4 =
        leBytes 4 (movedPointer first delta (leNat (slice image (off + 40 * i + 20) 4))) := by
  induction count generalizing off image with
  | zero =>
    cases h
    exact ⟨rfl, fun _ _ _ => rfl, fun i hi => absurd hi (by omega)⟩
  | succ count ih =>
    unfold movePointers at h
    obtain ⟨next, hn, h⟩ := bind_eq_ok.1 h
    obtain ⟨hle, rfl⟩ := movePointer_eq_ok hn
    obtain ⟨hlen, hkeep, hmove⟩ := ih h
    unfold sectionHeaderSize at hkeep hmove
    rw [length_patch_of_le (by simp; omega)] at hlen
    refine ⟨hlen, ?_, ?_⟩
    · intro o k hd
      rw [hkeep o k fun i hi => by have := hd (i + 1) (by omega); omega]
      refine slice_patch_apart (by omega) ?_
      have := hd 0 (by omega)
      simp only [length_leBytes]
      omega
    · intro i hi
      cases i with
      | zero =>
        have hfirst := hkeep (off + 20) 4 fun i _ => by omega
        rw [slice_patch_self (by omega) (by simp)] at hfirst
        exact hfirst
      | succ i =>
        have hi' := hmove i (by omega)
        have hoff : off + 40 + 40 * i + 20 = off + 40 * (i + 1) + 20 := by omega
        rw [hoff, slice_patch_after (by omega) (by simp; omega)] at hi'
        exact hi'

/-- So a section header is the one it was, with its pointer moved. -/
theorem header_movePointers {first delta off count i : Nat}
    (h : movePointers first delta off count image = .ok image') (hi : i < count)
    (hle : off + 40 * count ≤ image.length) :
    slice image' (off + 40 * i) 40 = moveHeader first delta (slice image (off + 40 * i) 40) := by
  obtain ⟨-, hkeep, hmove⟩ := movePointers_spec h
  have hlen : (slice image (off + 40 * i) 40).length = 40 := length_slice_of_le (by omega)
  have hpre : slice image' (off + 40 * i) 20 = slice image (off + 40 * i) 20 := hkeep _ _ fun j _ => by omega
  have hpost : slice image' (off + 40 * i + 24) 16 = slice image (off + 40 * i + 24) 16 := hkeep _ _ fun j _ => by omega
  have hsplit : slice image' (off + 40 * i) 40 =
      slice image' (off + 40 * i) 20 ++ slice image' (off + 40 * i + 20) 4 ++ slice image' (off + 40 * i + 24) 16 := by
    have h24 := slice_add image' (off + 40 * i) 20 4
    have h40 := slice_add image' (off + 40 * i) 24 16
    rw [h40, h24]
  rw [hsplit, hpre, hpost, hmove i hi, moveHeader, slice_slice _ (by omega), patch,
    take_slice _ _ (show 20 ≤ 40 by omega), length_leBytes]
  congr 1
  unfold slice
  rw [List.drop_take, List.drop_drop]

/-! ## The room that is made -/

/-- How far the first section moves. -/
def headerExpansion (info : PeInfo) (newSectionCount : Nat) : Nat :=
  if requiredHeaderEnd info newSectionCount ≤ info.firstRawSectionOff then 0
  else alignUp (requiredHeaderEnd info newSectionCount) info.fileAlignment - info.firstRawSectionOff

theorem movePointer_zero {first off : Nat} (hle : off + 24 ≤ image.length) : movePointer first 0 off image = .ok image := by
  have hread : readU32 image (off + 20) = .ok (leNat (slice image (off + 20) 4)) := if_neg (by omega)
  have hlen : (slice image (off + 20) 4).length = 4 := length_slice_of_le (by omega)
  have hlt := leNat_lt (slice image (off + 20) 4)
  have hbytes := leBytes_leNat (slice image (off + 20) 4)
  rw [hlen] at hlt hbytes
  have hadd : checkedAdd (leNat (slice image (off + 20) 4)) 0 "PE raw pointer overflow" =
      .ok (leNat (slice image (off + 20) 4)) := if_neg (by omega)
  have hwrite : writeU32 image (off + 20) (leNat (slice image (off + 20) 4)) = .ok image := by
    rw [writeU32, hbytes, store, if_neg (by rw [hlen]; omega), patch_slice (by omega)]
  unfold movePointer
  rw [hread]
  dsimp only [bind, Except.bind]
  rw [hadd]
  dsimp only
  rw [hwrite, ite_self]

/-- Moving no pointer anywhere. -/
theorem movePointers_zero {first off count : Nat} (hle : off + 40 * count ≤ image.length) :
    movePointers first 0 off count image = .ok image := by
  induction count generalizing off with
  | zero => rfl
  | succ count ih =>
    unfold movePointers
    rw [movePointer_zero (by omega)]
    exact ih (by unfold sectionHeaderSize; omega)

/-- The image with room, whether or not anything had to move. -/
theorem ensureRoom_spec {stub : List UInt8} {info : PeInfo} {newCount : Nat} {room : List UInt8 × PeInfo}
    (hs : Stub stub info) (h : ensureSectionHeaderRoom stub info newCount = .ok room) :
    let delta := headerExpansion info newCount
    requiredHeaderEnd info newCount ≤ info.firstRawSectionOff + delta ∧
      (delta = 0 ∨ info.firstRawSectionOff ≤ stub.length) ∧
      info.nextRawPointer + delta < 2 ^ 32 ∧
      room.2 = { info with firstRawSectionOff := info.firstRawSectionOff + delta
                           nextRawPointer := info.nextRawPointer + delta } ∧
      movePointers info.firstRawSectionOff delta info.sectionTableOff info.sectionCount
        (insertZeros stub info.firstRawSectionOff delta) = .ok room.1 := by
  unfold ensureSectionHeaderRoom at h
  unfold headerExpansion
  dsimp only at h ⊢
  split at h
  · rename_i hroom
    cases h
    rw [if_pos hroom, insertZeros_zero]
    refine ⟨by omega, Or.inl rfl, hs.rawEnd_lt, rfl, movePointers_zero ?_⟩
    rw [hs.sectionTableOff, hs.sectionCount]
    exact hs.table
  · rename_i hroom
    obtain ⟨end32, hend, h⟩ := bind_eq_ok.1 h
    obtain ⟨-, rfl⟩ := tryU32_eq_ok hend
    obtain ⟨newFirst, hnew, h⟩ := bind_eq_ok.1 h
    obtain ⟨hfa, rfl, -⟩ := alignU32_eq_ok hnew
    obtain ⟨-, h⟩ := guard_eq_ok.1 h
    obtain ⟨hlen, h⟩ := guard_eq_ok.1 h
    obtain ⟨delta32, hdelta, h⟩ := bind_eq_ok.1 h
    obtain ⟨-, rfl⟩ := tryU32_eq_ok hdelta
    obtain ⟨moved, hmoved, h⟩ := bind_eq_ok.1 h
    obtain ⟨nextRaw, hnext, h⟩ := bind_eq_ok.1 h
    obtain ⟨hlt, rfl⟩ := checkedAdd_eq_ok hnext
    cases h
    have hle := le_alignUp (requiredHeaderEnd info newCount) hfa
    have hfirst : info.firstRawSectionOff +
        (alignUp (requiredHeaderEnd info newCount) info.fileAlignment - info.firstRawSectionOff) =
          alignUp (requiredHeaderEnd info newCount) info.fileAlignment := by omega
    rw [if_neg hroom, hfirst]
    exact ⟨hle, Or.inr (by omega), hlt, rfl, hmoved⟩

end Peiosutils.Mkuki

/-!
# Appending the payloads

A payload is put behind the image as it is at that time, while its header records an aligned offset. The two agree from
the second payload on, as the image was cut to end where the first one does; for the first, what the stub holds behind
the offset comes in between (`addPayloads_spec`).
-/

namespace Peiosutils.Mkuki

open ByteStore Fallible Utf8

variable {image image' : List UInt8} {info : PeInfo}

/-! ## A section header -/

section Header

variable {name : List UInt8} {virtualSize virtualAddress rawSize pointer : Nat}

theorem within_sectionFields (hname : name.length ≤ 8) :
    Within (sectionFields name virtualSize virtualAddress rawSize pointer) (zeros sectionHeaderSize).length := by
  intro q hq
  simp only [sectionFields, List.mem_cons, List.not_mem_nil, or_false] at hq
  rcases hq with rfl | rfl | rfl | rfl | rfl | rfl <;> (simp [sectionHeaderSize]; try omega)

theorem apart_sectionFields (hname : name.length ≤ 8) :
    (sectionFields name virtualSize virtualAddress rawSize pointer).Pairwise Apart := by
  simp [sectionFields, Apart]
  omega

theorem length_sectionHeader (hname : name.length ≤ 8) :
    (sectionHeader name virtualSize virtualAddress rawSize pointer).length = 40 := by
  rw [sectionHeader, length_patchAll (within_sectionFields hname)]
  rfl

/-- A field that is filled in is found at its offset. -/
theorem slice_sectionHeader (hname : name.length ≤ 8) {off : Nat} {p : List UInt8}
    (hp : (off, p) ∈ sectionFields name virtualSize virtualAddress rawSize pointer) :
    slice (sectionHeader name virtualSize virtualAddress rawSize pointer) off p.length = p :=
  slice_patchAll_self (within_sectionFields hname) (apart_sectionFields hname) hp rfl

theorem leNat_sectionHeader (hname : name.length ≤ 8) {off v : Nat} (hv : v < 2 ^ 32)
    (hp : (off, leBytes 4 v) ∈ sectionFields name virtualSize virtualAddress rawSize pointer) :
    leNat (slice (sectionHeader name virtualSize virtualAddress rawSize pointer) off 4) = v := by
  have h := slice_sectionHeader hname hp
  rw [length_leBytes] at h
  rw [h, leNat_leBytes_of_lt (by omega)]

/-- The name, filled up with zeros. -/
theorem sectionHeader_name (hname : name.length ≤ 8) :
    slice (sectionHeader name virtualSize virtualAddress rawSize pointer) 0 8 = resize name 8 := by
  have hsplit := slice_add (sectionHeader name virtualSize virtualAddress rawSize pointer) 0 name.length (8 - name.length)
  have hlen : name.length + (8 - name.length) = 8 := by omega
  rw [hlen, Nat.zero_add] at hsplit
  have hrest : slice (sectionHeader name virtualSize virtualAddress rawSize pointer) name.length (8 - name.length) =
      zeros (8 - name.length) := by
    rw [sectionHeader, slice_patchAll_of_apart (within_sectionFields hname), slice_zeros]
    · unfold sectionHeaderSize
      omega
    · intro q hq
      simp only [sectionFields, List.mem_cons, List.not_mem_nil, or_false] at hq
      rcases hq with rfl | rfl | rfl | rfl | rfl | rfl <;> simp <;> omega
  rw [hsplit, hrest, slice_sectionHeader hname (by simp [sectionFields]), resize_of_le hname]

end Header

/-! ## One payload -/

/-- The image with a payload behind it, cut or filled to where its raw data ends. -/
def placed (image : List UInt8) (raw rawSize : Nat) (data : List UInt8) : List UInt8 :=
  resize (growTo image raw ++ data) (raw + rawSize)

theorem slice_placed {raw rawSize o k : Nat} {data : List UInt8} (hi : o + k ≤ image.length) (hr : o + k ≤ raw) :
    slice (placed image raw rawSize data) o k = slice image o k := by
  rw [placed, slice_resize (by simp; omega) (by omega), slice_append_left (by simp; omega), slice_growTo hi]

/-- At the recorded offset stands what the image holds behind it, and then the payload. -/
theorem slice_placed_data {raw rawSize : Nat} {data : List UInt8} (h : data.length ≤ rawSize) :
    slice (placed image raw rawSize data) raw data.length = (image.drop raw ++ data).take data.length := by
  have hgrow : raw ≤ (growTo image raw).length := by simp
  rw [placed, slice_resize (by simp) (by omega), slice, List.drop_append_of_le_length hgrow,
    drop_growTo (Nat.le_refl _)]

/-- Stores within the bytes succeed. -/
theorem storeAll_eq : ∀ {s : List UInt8} {ps : List (Nat × List UInt8)}, Within ps s.length →
    storeAll s ps = .ok (patchAll s ps)
  | _, [], _ => rfl
  | s, (off, p) :: ps, h => by
    have hfit : off + p.length ≤ s.length := h _ List.mem_cons_self
    rw [storeAll, store, if_neg (by omega)]
    apply storeAll_eq
    rw [length_patch_of_le hfit]
    exact fun q hq => h q (List.mem_cons_of_mem _ hq)

theorem writeSectionHeader_eq {off virtualSize virtualAddress rawSize pointer : Nat} {name : String}
    (hle : off + 40 ≤ image.length) (hname : (utf8 name).length ≤ 8) :
    writeSectionHeader image off name virtualSize virtualAddress rawSize pointer =
      .ok (patch image off (sectionHeader (utf8 name) virtualSize virtualAddress rawSize pointer)) := by
  have hdst : storeAll (zeros sectionHeaderSize) (sectionFields (utf8 name) virtualSize virtualAddress rawSize pointer) =
      .ok (sectionHeader (utf8 name) virtualSize virtualAddress rawSize pointer) :=
    storeAll_eq (within_sectionFields hname)
  rw [writeSectionHeader, if_neg (by unfold sectionHeaderSize; omega), if_neg (by omega)]
  refine bind_eq_ok.2 ⟨_, hdst, ?_⟩
  rw [store, if_neg (by rw [length_sectionHeader hname]; omega)]

theorem writeSectionHeader_eq_ok {off virtualSize virtualAddress rawSize pointer : Nat} {name : String}
    (h : writeSectionHeader image off name virtualSize virtualAddress rawSize pointer = .ok image') :
    off + 40 ≤ image.length ∧ (utf8 name).length ≤ 8 ∧
      image' = patch image off (sectionHeader (utf8 name) virtualSize virtualAddress rawSize pointer) := by
  unfold writeSectionHeader at h
  obtain ⟨hle, h⟩ := guard_eq_ok.1 h
  obtain ⟨hname, h⟩ := guard_eq_ok.1 h
  obtain ⟨dst, hdst, h⟩ := bind_eq_ok.1 h
  rw [storeAll_eq (within_sectionFields (by omega))] at hdst
  cases hdst
  unfold sectionHeaderSize at hle
  exact ⟨by omega, by omega, (store_eq_ok h).2⟩

/-- One payload: where it goes, and what is left to do. -/
theorem addPayloads_cons {off va raw : Nat} {p : PayloadSection} {rest : List PayloadSection} {res : List UInt8 × Nat}
    (h : addPayloads info off va raw image (p :: rest) = .ok res) :
    ∃ va' raw' rawSize, va' = alignUp va info.sectionAlignment ∧ raw' = alignUp raw info.fileAlignment ∧
      rawSize = alignUp p.data.length info.fileAlignment ∧ 0 < info.sectionAlignment ∧ 0 < info.fileAlignment ∧
      p.data.length < 2 ^ 32 ∧ (utf8 p.name).length ≤ 8 ∧ va' + p.data.length < 2 ^ 32 ∧ raw' + rawSize < 2 ^ 32 ∧
      off + 40 ≤ raw' + rawSize ∧
      addPayloads info (off + 40) (va' + p.data.length) (raw' + rawSize)
        (patch (placed image raw' rawSize p.data) off
          (sectionHeader (utf8 p.name) p.data.length va' rawSize raw')) rest = .ok res := by
  unfold addPayloads at h
  obtain ⟨-, h⟩ := guard_eq_ok.1 h
  obtain ⟨size, hsize, h⟩ := bind_eq_ok.1 h
  obtain ⟨hlt, rfl⟩ := tryU32_eq_ok hsize
  obtain ⟨va', hva, h⟩ := bind_eq_ok.1 h
  obtain ⟨hsa, hva', -⟩ := alignU32_eq_ok hva
  obtain ⟨raw', hraw, h⟩ := bind_eq_ok.1 h
  obtain ⟨hfa, hraw', -⟩ := alignU32_eq_ok hraw
  obtain ⟨rawSize, hrs, h⟩ := bind_eq_ok.1 h
  obtain ⟨-, hrs', -⟩ := alignU32_eq_ok hrs
  obtain ⟨withHeader, hw, h⟩ := bind_eq_ok.1 h
  obtain ⟨hle, hname, rfl⟩ := writeSectionHeader_eq_ok hw
  obtain ⟨nextVa, hnv, h⟩ := bind_eq_ok.1 h
  obtain ⟨hvlt, rfl⟩ := checkedAdd_eq_ok hnv
  obtain ⟨nextRaw, hnr, h⟩ := bind_eq_ok.1 h
  obtain ⟨hrlt, rfl⟩ := checkedAdd_eq_ok hnr
  rw [length_resize] at hle
  exact ⟨va', raw', rawSize, hva', hraw', hrs', hsa, hfa, hlt, hname, hvlt, hrlt, hle, h⟩

/-! ## All payloads -/

/-- The image holds a header for `p` at `hoff`, with `pointer` in it. -/
def HasHeader (image : List UInt8) (hoff : Nat) (p : PayloadSection) (pointer : Nat) : Prop :=
  slice image hoff 8 = resize (utf8 p.name) 8 ∧ leNat (slice image (hoff + 8) 4) = p.data.length ∧
    leNat (slice image (hoff + 20) 4) = pointer

theorem hasHeader_of_slice {hoff va rawSize pointer : Nat} {p : PayloadSection} (hname : (utf8 p.name).length ≤ 8)
    (hsize : p.data.length < 2 ^ 32) (hpointer : pointer < 2 ^ 32)
    (h : slice image hoff 40 = sectionHeader (utf8 p.name) p.data.length va rawSize pointer) :
    HasHeader image hoff p pointer := by
  have hpart : ∀ o k, o + k ≤ 40 → slice image (hoff + o) k =
      slice (sectionHeader (utf8 p.name) p.data.length va rawSize pointer) o k := by
    intro o k hok
    rw [← h, slice_slice image hok]
  refine ⟨?_, ?_, ?_⟩
  · exact (hpart 0 8 (by omega)).trans (sectionHeader_name hname)
  · rw [hpart 8 4 (by omega), leNat_sectionHeader hname hsize (by simp [sectionFields])]
  · rw [hpart 20 4 (by omega), leNat_sectionHeader hname hpointer (by simp [sectionFields])]

/-- What stands before the payloads stays, outside the new headers. Each payload has its header; its data stands where
the header says, except that what the image held there comes before the first. -/
theorem addPayloads_spec {off va raw : Nat} {ps : List PayloadSection} {res : List UInt8 × Nat}
    (h : addPayloads info off va raw image ps = .ok res) (hoff : off + 40 * ps.length ≤ raw) :
    (∀ o k, o + k ≤ image.length → o + k ≤ raw → (o + k ≤ off ∨ off + 40 * ps.length ≤ o) →
        slice res.1 o k = slice image o k) ∧
      ∀ i p, ps[i]? = some p → ∃ pointer, raw ≤ pointer ∧ HasHeader res.1 (off + 40 * i) p pointer ∧
        (i = 0 → pointer = alignUp raw info.fileAlignment ∧
          slice res.1 pointer p.data.length = (image.drop pointer ++ p.data).take p.data.length) ∧
        (i ≠ 0 → slice res.1 pointer p.data.length = p.data) := by
  induction ps generalizing off va raw image with
  | nil =>
    cases h
    exact ⟨fun _ _ _ _ _ => rfl, fun i p hi => by simp at hi⟩
  | cons p ps ih =>
    obtain ⟨va', raw', rawSize, -, hraw', hrs, -, hfa, hsize, hname, -, hrlt, hfit, h⟩ := addPayloads_cons h
    have hraw : raw ≤ raw' := hraw' ▸ le_alignUp _ hfa
    have hle : p.data.length ≤ rawSize := hrs ▸ le_alignUp _ hfa
    have hraw_lt : raw' < 2 ^ 32 := by omega
    have hheader : (sectionHeader (utf8 p.name) p.data.length va' rawSize raw').length = 40 :=
      length_sectionHeader hname
    have hplaced : (placed image raw' rawSize p.data).length = raw' + rawSize := length_resize _ _
    rw [List.length_cons] at hoff ⊢
    obtain ⟨hkeep, hcarry⟩ := ih h (by omega)
    rw [length_patch_of_le (by omega), hplaced] at hkeep
    refine ⟨?_, ?_⟩
    · intro o k hi hr hd
      rw [hkeep o k (by omega) (by omega) (by omega), slice_patch_apart (by omega) (by omega),
        slice_placed hi (by omega)]
    · intro i q hi
      cases i with
      | zero =>
        cases hi
        refine ⟨raw', hraw, ?_, fun _ => ⟨hraw', ?_⟩, fun hne => absurd rfl hne⟩
        · have hslice : slice res.1 off 40 = sectionHeader (utf8 p.name) p.data.length va' rawSize raw' := by
            rw [hkeep off 40 (by omega) (by omega) (by omega), slice_patch_self (by omega) hheader.symm]
          exact hasHeader_of_slice hname hsize hraw_lt hslice
        · rw [hkeep raw' _ (by omega) (by omega) (by omega), slice_patch_apart (by omega) (by omega),
            slice_placed_data hle]
      | succ i =>
        obtain ⟨pointer, hp, hhas, hfirst, hother⟩ := hcarry i q hi
        have hoff' : off + 40 + 40 * i = off + 40 * (i + 1) := by omega
        rw [hoff'] at hhas
        refine ⟨pointer, by omega, hhas, fun h0 => absurd h0 (by omega), fun _ => ?_⟩
        by_cases h0 : i = 0
        · -- the image ends where the one before it does, so nothing comes in between
          obtain ⟨-, hdata⟩ := hfirst h0
          rw [hdata, List.drop_eq_nil_of_le (by rw [length_patch_of_le (by omega), hplaced]; exact hp), List.nil_append,
            List.take_length]
        · exact hother h0

/-! ## The other fields of the headers -/

/-- Only the section count and the two sizes are written: the headers, rounded up, end before the first section. -/
theorem finishHeaders_spec {newCount nextVa : Nat} (h : finishHeaders image info newCount nextVa = .ok image') :
    let required := alignUp (requiredHeaderEnd info newCount) info.fileAlignment
    image' = patch (patch (patch image (info.coffOff + 2) (leBytes 2 newCount))
        info.sizeOfHeadersOff (leBytes 4 (max info.sizeOfHeaders required)))
        info.sizeOfImageOff (leBytes 4 (alignUp nextVa info.sectionAlignment)) ∧
      required ≤ info.firstRawSectionOff ∧ required < 2 ^ 32 ∧ alignUp nextVa info.sectionAlignment < 2 ^ 32 ∧
      info.coffOff + 4 ≤ image.length ∧ info.sizeOfHeadersOff + 4 ≤ image.length ∧
      info.sizeOfImageOff + 4 ≤ image.length := by
  unfold finishHeaders at h
  obtain ⟨counted, hc, h⟩ := bind_eq_ok.1 h
  obtain ⟨hc', rfl⟩ := store_eq_ok hc
  obtain ⟨end32, hend, h⟩ := bind_eq_ok.1 h
  obtain ⟨-, rfl⟩ := tryU32_eq_ok hend
  obtain ⟨required, hr, h⟩ := bind_eq_ok.1 h
  obtain ⟨-, rfl, hlt⟩ := alignU32_eq_ok hr
  obtain ⟨first, hf, h⟩ := bind_eq_ok.1 h
  obtain ⟨-, rfl⟩ := tryU32_eq_ok hf
  obtain ⟨hle, h⟩ := guard_eq_ok.1 h
  obtain ⟨sized, hs, h⟩ := bind_eq_ok.1 h
  obtain ⟨hs', rfl⟩ := store_eq_ok hs
  obtain ⟨sizeOfImage, himage, h⟩ := bind_eq_ok.1 h
  obtain ⟨-, rfl, hlt'⟩ := alignU32_eq_ok himage
  obtain ⟨hi, rfl⟩ := store_eq_ok h
  simp only [length_leBytes] at hc' hs' hi
  rw [length_patch_of_le (by simp; omega)] at hs'
  rw [length_patch_of_le (by rw [length_patch_of_le (by simp; omega)]; simp; omega),
    length_patch_of_le (by simp; omega)] at hi
  exact ⟨rfl, by omega, hlt, hlt', hc', hs', hi⟩

end Peiosutils.Mkuki
