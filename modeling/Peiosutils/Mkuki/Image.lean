import Mathlib.Data.List.Forall2
import Peiosutils.Mkuki.Append

/-!
# What `build_uki` makes of a stub

The output should be the stub with a longer section table and the payloads behind it (`Extends`).
`buildUki_extends_iff` says exactly when it is: the new headers and what moves for them must not meet the section table
of the stub, and the stub must end before the place that the first payload's header records (`Accommodates`).
`overlaid_misplaced` is a stub that ends after it.
-/

set_option autoImplicit false

namespace Peiosutils.Mkuki

open ByteStore Fallible Utf8

/-! ## The specification -/

/-- A section header with its raw pointer moved by the header expansion; a pointer of zero is none. -/
def shiftHeader (delta : Nat) (h : List UInt8) : List UInt8 :=
  let p := leNat (slice h 20 4)
  patch h 20 (leBytes 4 (if p = 0 then 0 else p + delta))

/-- The output is the stub with the payload sections added. -/
structure Extends (stub : List UInt8) (delta : Nat) (payloads : List PayloadSection) (out : List UInt8) : Prop where
  /-- The section table is where it was. -/
  header : peOff out = peOff stub
  table : tableOff out = tableOff stub
  count : countAt out = countAt stub + payloads.length
  kept : ∀ i < countAt stub, rawHeader out i = shiftHeader delta (rawHeader stub i)
  /-- Each payload has a header, with its name and its size, and stands where that header says. -/
  added : ∀ i p, payloads[i]? = some p →
    let h := rawHeader out (countAt stub + i)
    slice h 0 8 = resize (utf8 p.name) 8 ∧ leNat (slice h 8 4) = p.data.length ∧
      slice out (leNat (slice h 20 4)) (leNat (slice h 8 4)) = p.data

/-- The raw offset of the first payload. -/
def firstPayloadOff (info : PeInfo) (newSectionCount : Nat) : Nat :=
  alignUp (info.nextRawPointer + headerExpansion info newSectionCount) info.fileAlignment

/-- The stub can take the payloads. -/
structure Accommodates (stub : List UInt8) (info : PeInfo) (payloads : List PayloadSection) : Prop where
  /-- The section table holds only zeros behind the start of the first section. -/
  table : ∀ j, info.firstRawSectionOff ≤ j → tableOff stub ≤ j → j < tableOff stub + 40 * countAt stub →
    stub[j]? = some 0
  /-- The section count is no part of `e_lfanew`. -/
  count : peOff (patch stub (peOff stub + 6) (leBytes 2 (countAt stub + payloads.length))) = peOff stub
  /-- What the stub holds behind the offset of the first payload continues as that payload does. -/
  first : ∀ p ps, payloads = p :: ps →
    let newCount := countAt stub + payloads.length
    p.data <+: stub.drop (firstPayloadOff info newCount - headerExpansion info newCount) ++ p.data

/-! ## What was built -/

theorem countSections_eq_ok {n added v : Nat} (h : countSections n added = .ok v) : v = n + added ∧ v < 2 ^ 16 := by
  unfold countSections at h
  obtain ⟨-, h⟩ := guard_eq_ok.1 h
  obtain ⟨hlt, h⟩ := guard_eq_ok.1 h
  cases h
  exact ⟨rfl, by omega⟩

/-- Slices that agree still do behind the same patch. -/
theorem slice_patch_congr {s t p : List UInt8} {off o n : Nat} (hs : off ≤ s.length) (ht : off ≤ t.length)
    (h : slice s o n = slice t o n) : slice (patch s off p) o n = slice (patch t off p) o n := by
  apply slice_congr
  intro i h₁ h₂
  rw [getElem?_patch hs, getElem?_patch ht, getElem?_of_slice_eq h h₁ h₂]

/-- The image with room for the headers: the stub with zeros inserted, its pointers moved. -/
def widened (stub : List UInt8) (info : PeInfo) (newSectionCount : Nat) : List UInt8 :=
  insertZeros stub info.firstRawSectionOff (headerExpansion info newSectionCount)

/-- The output by its parts. -/
structure Built (stub : List UInt8) (info : PeInfo) (payloads : List PayloadSection) (out : List UInt8) : Prop where
  lt : countAt stub + payloads.length < 2 ^ 16
  /-- The enlarged table ends before the first section. -/
  room : tableOff stub + 40 * (countAt stub + payloads.length) ≤
    info.firstRawSectionOff + headerExpansion info (countAt stub + payloads.length)
  moves : headerExpansion info (countAt stub + payloads.length) = 0 ∨ info.firstRawSectionOff ≤ stub.length
  rawEnd_lt : info.nextRawPointer + headerExpansion info (countAt stub + payloads.length) < 2 ^ 32
  headers : ∀ i < countAt stub, slice out (tableOff stub + 40 * i) 40 =
    moveHeader info.firstRawSectionOff (headerExpansion info (countAt stub + payloads.length))
      (slice (widened stub info (countAt stub + payloads.length)) (tableOff stub + 40 * i) 40)
  added : ∀ i p, payloads[i]? = some p → ∃ pointer, HasHeader out (tableOff stub + 40 * (countAt stub + i)) p pointer ∧
    (i = 0 → slice out pointer p.data.length =
      (stub.drop (firstPayloadOff info (countAt stub + payloads.length) -
        headerExpansion info (countAt stub + payloads.length)) ++ p.data).take p.data.length) ∧
    (i ≠ 0 → slice out pointer p.data.length = p.data)
  count : slice out (peOff stub + 6) 2 = leBytes 2 (countAt stub + payloads.length)
  /-- Where the table starts before the first section, the headers before it stay, but for the count. -/
  lfanew : tableOff stub ≤ info.firstRawSectionOff →
    slice out 0x3c 4 = slice (patch stub (peOff stub + 6) (leBytes 2 (countAt stub + payloads.length))) 0x3c 4
  optional : tableOff stub ≤ info.firstRawSectionOff →
    slice out (peOff stub + 20) 2 = slice stub (peOff stub + 20) 2

/-- The image with its section count and its two sizes written. -/
def finished (image : List UInt8) (pe count sizeOfHeaders sizeOfImage : Nat) : List UInt8 :=
  patch (patch (patch image (pe + 6) (leBytes 2 count)) (pe + 84) (leBytes 4 sizeOfHeaders)) (pe + 80)
    (leBytes 4 sizeOfImage)

section Finished

variable {image : List UInt8} {pe : Nat} (hlen : pe + 88 ≤ image.length) (count sizeOfHeaders sizeOfImage : Nat)
include hlen

/-- Behind the optional header, nothing changes. -/
theorem slice_finished {o : Nat} (k : Nat) (ho : pe + 88 ≤ o) :
    slice (finished image pe count sizeOfHeaders sizeOfImage) o k = slice image o k := by
  rw [finished, slice_patch_after (by simp; omega) (by simp; omega),
    slice_patch_after (by simp; omega) (by simp; omega), slice_patch_after (by omega) (by simp; omega)]

theorem sizeOfImageAt_finished (hi : sizeOfImage < 2 ^ 32) :
    sizeOfImageAt pe (finished image pe count sizeOfHeaders sizeOfImage) = sizeOfImage := by
  rw [finished, sizeOfImageAt, slice_patch_self (by simp; omega) (by simp), leNat_leBytes_of_lt hi]

theorem sizeOfHeadersAt_finished (hh : sizeOfHeaders < 2 ^ 32) :
    sizeOfHeadersAt pe (finished image pe count sizeOfHeaders sizeOfImage) = sizeOfHeaders := by
  rw [finished, sizeOfHeadersAt, slice_patch_after (by simp; omega) (by simp),
    slice_patch_self (by simp; omega) (by simp), leNat_leBytes_of_lt hh]

end Finished

section Build

variable {stub out : List UInt8} {info : PeInfo} {payloads : List PayloadSection}

/-- Before the first section nothing moves. -/
theorem slice_widened {newCount o k : Nat}
    (hm : headerExpansion info newCount = 0 ∨ info.firstRawSectionOff ≤ stub.length)
    (h : o + k ≤ info.firstRawSectionOff) : slice (widened stub info newCount) o k = slice stub o k := by
  unfold widened
  rcases hm with hm | hm
  · rw [hm, insertZeros_zero]
  · exact slice_congr fun i _ _ => getElem?_insertZeros_lt hm (by omega)

/-- Behind it everything moves by the expansion. -/
theorem drop_widened {newCount x : Nat}
    (hm : headerExpansion info newCount = 0 ∨ info.firstRawSectionOff ≤ stub.length)
    (h : info.firstRawSectionOff + headerExpansion info newCount ≤ x) :
    (widened stub info newCount).drop x = stub.drop (x - headerExpansion info newCount) := by
  unfold widened
  rcases hm with hm | hm
  · rw [hm, insertZeros_zero, Nat.sub_zero]
  · have hx : x = x - headerExpansion info newCount + headerExpansion info newCount := by omega
    conv_lhs => rw [hx]
    exact drop_insertZeros hm (by omega)

/-- The steps of a successful build. -/
theorem buildUki_eq_ok (hp : parsePe stub = .ok info) (h : buildUki stub payloads = .ok out) :
    let newCount := countAt stub + payloads.length
    let delta := headerExpansion info newCount
    newCount < 2 ^ 16 ∧ tableOff stub + 40 * newCount ≤ info.firstRawSectionOff + delta ∧
      (delta = 0 ∨ info.firstRawSectionOff ≤ stub.length) ∧ info.nextRawPointer + delta < 2 ^ 32 ∧
      ∃ moved appended info', movePointers info.firstRawSectionOff delta (tableOff stub) (countAt stub)
          (widened stub info newCount) = .ok moved ∧
        info'.fileAlignment = info.fileAlignment ∧ info'.sectionAlignment = info.sectionAlignment ∧
        addPayloads info' (tableOff stub + 40 * countAt stub) info.nextVirtualAddress (info.nextRawPointer + delta)
          (growTo moved (info.nextRawPointer + delta)) payloads = .ok appended ∧
        peOff stub + 88 ≤ appended.1.length ∧
        let required := alignUp (tableOff stub + 40 * newCount) info.fileAlignment
        let sizeOfImage := alignUp appended.2 info.sectionAlignment
        required ≤ info.firstRawSectionOff + delta ∧ required < 2 ^ 32 ∧ sizeOfImage < 2 ^ 32 ∧
        out = finished appended.1 (peOff stub) newCount (max info.sizeOfHeaders required) sizeOfImage := by
  have hs := parsePe_spec hp
  unfold buildUki at h
  rw [hp] at h
  obtain ⟨parsed, e, h⟩ := bind_eq_ok.1 h
  cases e
  obtain ⟨newCount, hc, h⟩ := bind_eq_ok.1 h
  rw [hs.sectionCount] at hc
  obtain ⟨rfl, hlt⟩ := countSections_eq_ok hc
  obtain ⟨room, hroom, h⟩ := bind_eq_ok.1 h
  obtain ⟨moved, info'⟩ := room
  obtain ⟨appended, happ, h⟩ := bind_eq_ok.1 h
  obtain ⟨hfits, hmoves, hraw, hinfo, hmoved⟩ := ensureRoom_spec hs hroom
  obtain ⟨hout, hrequired, hlt₁, hlt₂, hlen₁, hlen₂, hlen₃⟩ := finishHeaders_spec h
  dsimp only at hinfo happ hout hrequired hlt₁ hlt₂ hlen₁ hlen₂ hlen₃ hmoved
  have hcoff : info'.coffOff = peOff stub + 4 := by rw [hinfo]; exact hs.coffOff
  have hheaders : info'.sizeOfHeadersOff = peOff stub + 84 := by rw [hinfo]; exact hs.sizeOfHeadersOff
  have himage : info'.sizeOfImageOff = peOff stub + 80 := by rw [hinfo]; exact hs.sizeOfImageOff
  have hoff : info'.sectionTableOff + info'.sectionCount * sectionHeaderSize = tableOff stub + 40 * countAt stub := by
    rw [hinfo, ← hs.sectionTableOff, ← hs.sectionCount, Nat.mul_comm]
    rfl
  have hva : info'.nextVirtualAddress = info.nextVirtualAddress := by rw [hinfo]
  have hnext : info'.nextRawPointer = info.nextRawPointer + headerExpansion info (countAt stub + payloads.length) := by
    rw [hinfo]
  have hend : requiredHeaderEnd info (countAt stub + payloads.length) =
      tableOff stub + 40 * (countAt stub + payloads.length) := by
    rw [requiredHeaderEnd, hs.sectionTableOff, Nat.mul_comm]
    rfl
  have hend' : requiredHeaderEnd info' (countAt stub + payloads.length) =
      tableOff stub + 40 * (countAt stub + payloads.length) := by
    rw [← hend, hinfo]
    rfl
  have hfa : info'.fileAlignment = info.fileAlignment := by rw [hinfo]
  have hsa : info'.sectionAlignment = info.sectionAlignment := by rw [hinfo]
  have hsoh : info'.sizeOfHeaders = info.sizeOfHeaders := by rw [hinfo]
  have hfirst : info'.firstRawSectionOff =
      info.firstRawSectionOff + headerExpansion info (countAt stub + payloads.length) := by rw [hinfo]
  rw [hoff, hva, hnext] at happ
  rw [hend', hfa] at hrequired hlt₁ hout
  rw [hcoff, hheaders, himage, hsa, hsoh] at hout
  rw [hfirst] at hrequired
  rw [hsa] at hlt₂
  rw [hs.sectionTableOff, hs.sectionCount] at hmoved
  rw [hend] at hfits
  exact ⟨hlt, hfits, hmoves, hraw, moved, appended, info', hmoved, hfa, hsa, happ, by omega, hrequired, hlt₁, hlt₂, hout⟩

/-- Behind the section table, the image with room has what the widened stub has. -/
theorem drop_movePointers {image image' : List UInt8} {first delta off count x : Nat}
    (h : movePointers first delta off count image = .ok image') (hx : off + 40 * count ≤ x) :
    image'.drop x = image.drop x := by
  obtain ⟨hlen, hkeep, -⟩ := movePointers_spec h
  have hslice := hkeep x image.length fun i hi => Or.inr (by omega)
  unfold slice at hslice
  rwa [List.take_of_length_le (by simp; omega), List.take_of_length_le (by simp)] at hslice

theorem buildUki_spec (hp : parsePe stub = .ok info) (h : buildUki stub payloads = .ok out) :
    Built stub info payloads out := by
  have hs := parsePe_spec hp
  obtain ⟨hlt, hfits, hmoves, hraw, moved, appended, info', hmoved, hfa, -, happ, hlen, -, -, -, rfl⟩ :=
    buildUki_eq_ok hp h
  obtain ⟨i₀, hi₀, hfirst⟩ := hs.first
  have hfr : info.firstRawSectionOff ≤ info.nextRawPointer := hfirst ▸ hs.rawEnd i₀ hi₀
  have htab := hs.table
  have hhead := hs.headers
  obtain ⟨hmlen, hmkeep, -⟩ := movePointers_spec hmoved
  have hwlen : (widened stub info (countAt stub + payloads.length)).length =
      stub.length + headerExpansion info (countAt stub + payloads.length) := length_insertZeros _ _ _
  obtain ⟨hkeep, hadded⟩ := addPayloads_spec happ (by omega)
  rw [length_growTo] at hkeep
  have hbehind := fun o k (ho : peOff stub + 88 ≤ o) => slice_finished hlen (countAt stub + payloads.length)
    (max info.sizeOfHeaders (alignUp (tableOff stub + 40 * (countAt stub + payloads.length)) info.fileAlignment))
    (alignUp appended.2 info.sectionAlignment) k ho
  -- up to the end of the stub's section table, the loop changes nothing
  have hbefore : ∀ o k, o + k ≤ tableOff stub + 40 * countAt stub → slice appended.1 o k = slice moved o k := by
    intro o k hok
    rw [hkeep o k (by omega) (by omega) (Or.inl hok), slice_growTo (by omega)]
  refine ⟨hlt, hfits, hmoves, hraw, ?_, ?_, ?_, ?_, ?_⟩
  · intro i hi
    rw [hbehind _ _ (by omega), hbefore _ _ (by omega), header_movePointers hmoved hi (by omega)]
  · intro i p hi
    obtain ⟨pointer, hle, ⟨hname, hsize, hpointer⟩, hfirst, hother⟩ := hadded i p hi
    have hoff : tableOff stub + 40 * countAt stub + 40 * i = tableOff stub + 40 * (countAt stub + i) := by omega
    rw [hoff] at hname hsize hpointer
    refine ⟨pointer, ⟨?_, ?_, ?_⟩, fun h0 => ?_, fun h0 => ?_⟩
    · rw [hbehind _ _ (by omega), hname]
    · rw [hbehind _ _ (by omega), hsize]
    · rw [hbehind _ _ (by omega), hpointer]
    · obtain ⟨hptr, hdata⟩ := hfirst h0
      rw [hfa] at hptr
      have hptr' : pointer = firstPayloadOff info (countAt stub + payloads.length) := hptr
      rw [hbehind _ _ (by omega), hdata, drop_growTo hle, drop_movePointers hmoved (by omega),
        drop_widened hmoves (by omega), hptr']
    · rw [hbehind _ _ (by omega), hother h0]
  · rw [finished, slice_patch_before (by simp; omega) (by omega), slice_patch_before (by simp; omega) (by omega),
      slice_patch_self (by omega) (by simp)]
  · intro htf
    have hpre : slice appended.1 0x3c 4 = slice stub 0x3c 4 := by
      rw [hbefore _ _ (by omega), hmkeep _ _ fun i _ => by omega, slice_widened hmoves (by omega)]
    rw [finished, slice_patch_before (by simp; omega) (by omega), slice_patch_before (by simp; omega) (by omega)]
    exact slice_patch_congr (by omega) (by omega) hpre
  · intro htf
    rw [finished, slice_patch_before (by simp; omega) (by omega), slice_patch_before (by simp; omega) (by omega),
      slice_patch_after (by omega) (by simp), hbefore _ _ (by omega), hmkeep _ _ fun i _ => by omega,
      slice_widened hmoves (by omega)]

/-! ## The section table -/

/-- Moving a pointer behind the first section is moving it at all. -/
theorem moveHeader_eq_shiftHeader {first delta : Nat} {h : List UInt8}
    (hp : leNat (slice h 20 4) ≠ 0 → first ≤ leNat (slice h 20 4)) : moveHeader first delta h = shiftHeader delta h := by
  unfold moveHeader shiftHeader movedPointer
  dsimp only
  by_cases h0 : leNat (slice h 20 4) = 0
  · rw [if_neg (by omega), if_pos h0, h0]
  · rw [if_pos ⟨h0, hp h0⟩, if_neg h0]

/-- A header with some bytes lost, its pointer moved, is the whole header with its pointer moved only when none were. -/
theorem eq_of_moveHeader_eq {first delta : Nat} {w h : List UInt8} (hw : w.length = 40) (hh : h.length = 40)
    (hle : leNat (slice w 20 4) ≤ leNat (slice h 20 4)) (hlt : leNat (slice h 20 4) + delta < 2 ^ 32)
    (e : moveHeader first delta w = shiftHeader delta h) : w = h := by
  have hmoved : movedPointer first delta (leNat (slice w 20 4)) < 2 ^ 32 := by
    unfold movedPointer
    split <;> omega
  have hptr : movedPointer first delta (leNat (slice w 20 4)) =
      if leNat (slice h 20 4) = 0 then 0 else leNat (slice h 20 4) + delta := by
    have hs := congrArg (fun s => leNat (slice s 20 4)) e
    simp only [moveHeader, shiftHeader] at hs
    rwa [slice_patch_self (by omega) (by simp), slice_patch_self (by omega) (by simp), leNat_leBytes_of_lt hmoved,
      leNat_leBytes_of_lt (by split <;> omega)] at hs
  have hsame : leNat (slice w 20 4) = leNat (slice h 20 4) := by
    unfold movedPointer at hptr
    split at hptr <;> split at hptr <;> omega
  have hbytes : slice w 20 4 = slice h 20 4 :=
    leNat_inj (by rw [length_slice_of_le (by omega), length_slice_of_le (by omega)]) hsame
  apply List.ext_getElem?
  intro i
  by_cases hi : 20 ≤ i ∧ i < 24
  · exact getElem?_of_slice_eq hbytes hi.1 (by omega)
  · have he := congrArg (·[i]?) e
    simp only [moveHeader, shiftHeader] at he
    rwa [getElem?_patch (by omega), getElem?_patch (by omega), if_neg (by simp; omega), if_neg (by simp; omega)] at he

/-- A byte of the widened stub is the stub's, or zero. -/
theorem widened_le (hb : Built stub info payloads out) {o : Nat}
    (ho : o + 4 ≤ tableOff stub + 40 * countAt stub) (hl : tableOff stub + 40 * countAt stub ≤ stub.length) :
    leNat (slice (widened stub info (countAt stub + payloads.length)) o 4) ≤ leNat (slice stub o 4) := by
  have hfits := hb.room
  unfold widened
  rcases hb.moves with h0 | hlen
  · rw [h0, insertZeros_zero]
  · apply leNat_le_of_forall₂
    rw [List.forall₂_iff_get]
    have hl₁ : (slice (insertZeros stub info.firstRawSectionOff
        (headerExpansion info (countAt stub + payloads.length))) o 4).length = 4 :=
      length_slice_of_le (by simp; omega)
    have hl₂ : (slice stub o 4).length = 4 := length_slice_of_le (by omega)
    refine ⟨by rw [hl₁, hl₂], ?_⟩
    intro i h₁ h₂
    rw [List.get_eq_getElem, List.get_eq_getElem]
    have hi : i < 4 := by omega
    have e₁ := List.getElem?_eq_getElem h₁
    have e₂ := List.getElem?_eq_getElem h₂
    rw [getElem?_slice, if_pos hi] at e₁ e₂
    by_cases hlt : o + i < info.firstRawSectionOff
    · rw [getElem?_insertZeros_lt hlen hlt, e₂] at e₁
      rw [Option.some.inj e₁]
    · rw [getElem?_insertZeros_mid hlen (by omega) (by omega)] at e₁
      rw [← Option.some.inj e₁]
      exact Nat.zero_le _

/-- All section headers are kept exactly when the table holds only zeros behind the start of the first section. -/
theorem kept_iff (hs : Stub stub info) (hb : Built stub info payloads out) :
    (∀ i < countAt stub, slice out (tableOff stub + 40 * i) 40 =
        shiftHeader (headerExpansion info (countAt stub + payloads.length)) (rawHeader stub i)) ↔
      ∀ j, info.firstRawSectionOff ≤ j → tableOff stub ≤ j → j < tableOff stub + 40 * countAt stub →
        stub[j]? = some 0 := by
  have htab := hs.table
  have hfits := hb.room
  have hpointer : ∀ i, leNat (slice (rawHeader stub i) 20 4) = rawPointer stub i := by
    intro i
    rw [rawHeader, slice_slice _ (by omega), rawPointer]
  constructor
  · intro hk j hj₁ hj₂ hj₃
    obtain ⟨i, k, hk40, rfl⟩ : ∃ i k, k < 40 ∧ j = tableOff stub + 40 * i + k :=
      ⟨(j - tableOff stub) / 40, (j - tableOff stub) % 40, Nat.mod_lt _ (by omega), by
        have := Nat.div_add_mod (j - tableOff stub) 40
        omega⟩
    have hi : i < countAt stub := by omega
    have he := hb.headers i hi
    rw [hk i hi] at he
    have hsame : slice (widened stub info (countAt stub + payloads.length)) (tableOff stub + 40 * i) 40 =
        rawHeader stub i := by
      refine eq_of_moveHeader_eq ?_ ?_ ?_ ?_ he.symm
      · refine length_slice_of_le ?_
        rw [widened, length_insertZeros]
        omega
      · exact length_slice_of_le (by omega)
      · rw [hpointer, slice_slice _ (by omega)]
        exact widened_le hb (by omega) htab
      · rw [hpointer]
        have := hs.rawEnd i hi
        have := hb.rawEnd_lt
        omega
    have hcell := getElem?_of_slice_eq hsame (i := tableOff stub + 40 * i + k) (by omega) (by omega)
    rcases hb.moves with h0 | hlen
    · omega
    · rw [widened, getElem?_insertZeros_mid hlen hj₁ (by omega)] at hcell
      exact hcell.symm
  · intro hz i hi
    have hsame : slice (widened stub info (countAt stub + payloads.length)) (tableOff stub + 40 * i) 40 =
        rawHeader stub i := by
      apply slice_congr
      intro j hj₁ hj₂
      unfold widened
      rcases hb.moves with h0 | hlen
      · rw [h0, insertZeros_zero]
      · by_cases hlt : j < info.firstRawSectionOff
        · exact getElem?_insertZeros_lt hlen hlt
        · rw [getElem?_insertZeros_mid hlen (by omega) (by omega), hz j (by omega) (by omega) (by omega)]
    rw [hb.headers i hi, hsame]
    apply moveHeader_eq_shiftHeader
    rw [hpointer]
    exact hs.least i hi

/-- Then the table starts before the first section, as a pointer in it is set. -/
theorem tableOff_lt (hs : Stub stub info)
    (hz : ∀ j, info.firstRawSectionOff ≤ j → tableOff stub ≤ j → j < tableOff stub + 40 * countAt stub →
      stub[j]? = some 0) : tableOff stub < info.firstRawSectionOff := by
  by_contra hle
  obtain ⟨i, hi, hfirst⟩ := hs.first
  have hpos := hs.firstPos
  have hzero : slice stub (tableOff stub + 40 * i + 20) 4 = zeros 4 := by
    apply List.ext_getElem?
    intro k
    rw [getElem?_slice]
    split
    · rw [hz _ (by omega) (by omega) (by omega), zeros, List.getElem?_replicate_of_lt (by omega)]
    · rw [List.getElem?_eq_none (by simp; omega)]
  rw [rawPointer, hzero] at hfirst
  have : leNat (zeros 4) = 0 := rfl
  omega

/-! ## The whole output -/

/-- The headers of the output lead to the section table where the stub's did. -/
theorem located (hs : Stub stub info) (hb : Built stub info payloads out) (h : Accommodates stub info payloads) :
    peOff out = peOff stub ∧ tableOff out = tableOff stub ∧ countAt out = countAt stub + payloads.length := by
  have htf := tableOff_lt hs h.table
  have hpe : peOff out = peOff stub := by
    rw [peOff, hb.lfanew (by omega)]
    exact h.count
  refine ⟨hpe, ?_, ?_⟩
  · rw [tableOff, hpe, hb.optional (by omega), tableOff]
  · rw [countAt, hpe, hb.count, leNat_leBytes_of_lt hb.lt]

/-- The fields of a section header, by the header. -/
theorem hasHeader_iff {image : List UInt8} {i pointer : Nat} {p : PayloadSection} :
    HasHeader image (tableOff image + 40 * i) p pointer ↔
      slice (rawHeader image i) 0 8 = resize (utf8 p.name) 8 ∧ leNat (slice (rawHeader image i) 8 4) = p.data.length ∧
        leNat (slice (rawHeader image i) 20 4) = pointer := by
  unfold HasHeader rawHeader
  rw [slice_slice _ (by omega), slice_slice _ (by omega), slice_slice _ (by omega)]
  exact Iff.rfl

/-- The output is the stub with the payloads exactly when the stub accommodates them. -/
theorem buildUki_extends_iff (hp : parsePe stub = .ok info) (h : buildUki stub payloads = .ok out) :
    Extends stub (headerExpansion info (countAt stub + payloads.length)) payloads out ↔
      Accommodates stub info payloads := by
  have hs := parsePe_spec hp
  have hb := buildUki_spec hp h
  constructor
  · intro he
    have hz := (kept_iff hs hb).1 fun i hi => by
      rw [← he.table]
      exact he.kept i hi
    have htf := tableOff_lt hs hz
    refine ⟨hz, ?_, ?_⟩
    · rw [peOff, ← hb.lfanew (by omega)]
      exact he.header
    · rintro p ps rfl
      obtain ⟨pointer, hhas, hfirst, -⟩ := hb.added 0 p rfl
      rw [← he.table] at hhas
      obtain ⟨-, hsize, hptr⟩ := hasHeader_iff.1 hhas
      obtain ⟨-, -, hdata⟩ := he.added 0 p rfl
      rw [hptr, hsize, hfirst rfl] at hdata
      exact List.prefix_iff_eq_take.2 hdata.symm
  · intro ha
    obtain ⟨hpe, htable, hcount⟩ := located hs hb ha
    refine ⟨hpe, htable, hcount, ?_, ?_⟩
    · intro i hi
      rw [rawHeader, htable]
      exact (kept_iff hs hb).2 ha.table i hi
    · intro i p hi
      obtain ⟨pointer, hhas, hfirst, hother⟩ := hb.added i p hi
      rw [← htable] at hhas
      obtain ⟨hname, hsize, hptr⟩ := hasHeader_iff.1 hhas
      refine ⟨hname, hsize, ?_⟩
      rw [hptr, hsize]
      by_cases h0 : i = 0
      · subst h0
        obtain ⟨ps, rfl⟩ : ∃ ps, payloads = p :: ps := by
          cases payloads with
          | nil => cases hi
          | cons q ps =>
            cases hi
            exact ⟨ps, rfl⟩
        rw [hfirst rfl]
        exact (List.prefix_iff_eq_take.1 (ha.first p ps rfl)).symm
      · exact hother h0

end Build

/-! ## A small stub -/

/-- A stub with one section of sixteen bytes at its end, room for one more header, and `overlay` behind. -/
def tinyStub (overlay : List UInt8) : List UInt8 :=
  patchAll (zeros 256)
    [(0, utf8 "MZ"), (0x3c, leBytes 4 0x40), (0x40, utf8 "PE"), (0x46, leBytes 2 1), (0x54, leBytes 2 64),
      (0x58, leBytes 2 0x020b), (0x78, leBytes 4 16), (0x7c, leBytes 4 16), (0x98, utf8 ".text"),
      (0xa0, leBytes 4 16), (0xa4, leBytes 4 256), (0xa8, leBytes 4 16), (0xac, leBytes 4 240)] ++ overlay

def tinyInfo : PeInfo where
  coffOff := 0x44
  sectionTableOff := 0x98
  sectionCount := 1
  sectionAlignment := 16
  fileAlignment := 16
  sizeOfImageOff := 0x90
  sizeOfHeadersOff := 0x94
  sizeOfHeaders := 0
  firstRawSectionOff := 240
  nextVirtualAddress := 272
  nextRawPointer := 256

def tinyPayload : PayloadSection := ⟨".cmdline", [7, 0]⟩

theorem buildUki_extends_tiny :
    ∃ out, buildUki (tinyStub []) [tinyPayload] = .ok out ∧ Extends (tinyStub []) 0 [tinyPayload] out := by
  have hp : parsePe (tinyStub []) = .ok tinyInfo := by decide +kernel
  have hb : buildUki (tinyStub []) [tinyPayload] =
      .ok ((buildUki (tinyStub []) [tinyPayload]).toOption.getD []) := by decide +kernel
  have htable : tableOff (tinyStub []) = 152 ∧ countAt (tinyStub []) = 1 := by decide +kernel
  refine ⟨_, hb, (buildUki_extends_iff hp hb).2 ⟨?_, by decide +kernel, ?_⟩⟩
  · intro j h₁ _ h₃
    rw [htable.1, htable.2] at h₃
    have h₁' : 240 ≤ j := h₁
    omega
  · intro p ps e
    cases e
    decide +kernel

/-- One byte behind the last section: the payload's header leads to that byte. -/
theorem overlaid_misplaced :
    ∃ out, parsePe (tinyStub [1]) = .ok tinyInfo ∧ buildUki (tinyStub [1]) [tinyPayload] = .ok out ∧
      leNat (slice (rawHeader out 1) 20 4) = 256 ∧ slice out 256 3 = [1, 7, 0] ∧
      ¬ Extends (tinyStub [1]) 0 [tinyPayload] out := by
  refine ⟨(buildUki (tinyStub [1]) [tinyPayload]).toOption.getD [], by decide +kernel, by decide +kernel,
    by decide +kernel, by decide +kernel, fun h => ?_⟩
  have hdata := (h.added 0 tinyPayload rfl).2.2
  revert hdata
  decide +kernel

end Peiosutils.Mkuki
