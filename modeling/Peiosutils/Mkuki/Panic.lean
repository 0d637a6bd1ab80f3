import Peiosutils.Mkuki.Image

/-!
# Whether `build_uki` panics

Every offset that the headers give is checked against the image before it is used, but for one: where the headers need
more room, zeros are spliced in at the raw offset of the first section, which is as large as a header says. All other
accesses lie before the end of the section table, and the image reaches that far when they are made
(`buildUki_panic_iff`). `buildUki_short` is a stub that ends before its first section.
-/

set_option autoImplicit false

namespace Peiosutils.Mkuki

open ByteStore Fallible Utf8

variable {α β : Type}

/-- A value or an error, but no panic. -/
def NoPanic (r : Except Fault α) : Prop := r ≠ .error .panic

theorem noPanic_ok (v : α) : NoPanic (.ok v : Except Fault α) := nofun

theorem noPanic_error (m : String) : NoPanic (.error (.error m) : Except Fault α) := nofun

/-- In sequence. -/
theorem NoPanic.bind {x : Except Fault α} {f : α → Except Fault β} (hx : NoPanic x)
    (hf : ∀ a, x = .ok a → NoPanic (f a)) : NoPanic (x >>= f) := by
  intro h
  rcases bind_eq_error.1 h with h | ⟨a, ha, h⟩
  · exact hx h
  · exact hf a ha h

/-- Behind a check whose error is returned. -/
theorem NoPanic.guard {c : Prop} [Decidable c] {m : String} {x : Except Fault α} (hx : ¬ c → NoPanic x) :
    NoPanic (if c then .error (.error m) else x) := by
  split
  · exact noPanic_error m
  · rename_i hc
    exact hx hc

/-! ## Accesses -/

theorem noPanic_require (image : List UInt8) (off len : Nat) (what : String) : NoPanic (require image off len what) :=
  NoPanic.guard fun _ => noPanic_ok ()

theorem noPanic_readU16 (buf : List UInt8) (off : Nat) : NoPanic (readU16 buf off) := NoPanic.guard fun _ => noPanic_ok _

theorem noPanic_readU32 (buf : List UInt8) (off : Nat) : NoPanic (readU32 buf off) := NoPanic.guard fun _ => noPanic_ok _

theorem noPanic_checkedAdd (a b : Nat) (message : String) : NoPanic (checkedAdd a b message) :=
  NoPanic.guard fun _ => noPanic_ok _

theorem noPanic_tryU32 (n : Nat) (message : String) : NoPanic (tryU32 n message) := NoPanic.guard fun _ => noPanic_ok _

theorem noPanic_alignU32 (value align : Nat) : NoPanic (alignU32 value align) :=
  NoPanic.guard fun _ => NoPanic.guard fun _ => noPanic_ok _

theorem noPanic_index {buf : List UInt8} {off n : Nat} (h : off + n ≤ buf.length) : NoPanic (index buf off n) := by
  rw [index, if_neg (by omega)]
  exact noPanic_ok _

theorem noPanic_store {buf p : List UInt8} {off : Nat} (h : off + p.length ≤ buf.length) : NoPanic (store buf off p) := by
  rw [store, if_neg (by omega)]
  exact noPanic_ok _

theorem noPanic_writeSectionHeader {image : List UInt8} {off virtualSize virtualAddress rawSize pointer : Nat}
    {name : String} (h : off + 40 ≤ image.length) :
    NoPanic (writeSectionHeader image off name virtualSize virtualAddress rawSize pointer) := by
  by_cases hname : (utf8 name).length ≤ 8
  · rw [writeSectionHeader_eq h hname]
    exact noPanic_ok _
  · rw [writeSectionHeader, if_neg (by unfold sectionHeaderSize; omega), if_pos (by omega)]
    exact noPanic_error _

/-! ## Parsing -/

theorem noPanic_readSections (image : List UInt8) (off count : Nat) : NoPanic (readSections image off count) := by
  induction count generalizing off with
  | zero => exact noPanic_ok _
  | succ count ih =>
    unfold readSections
    apply NoPanic.bind
    · unfold readSection
      apply NoPanic.bind (noPanic_readU32 _ _)
      intro virtualSize _
      apply NoPanic.bind (noPanic_readU32 _ _)
      intro virtualAddress _
      apply NoPanic.bind (noPanic_readU32 _ _)
      intro rawSize _
      apply NoPanic.bind (noPanic_readU32 _ _)
      intro pointer _
      exact noPanic_ok _
    · intro s _
      apply NoPanic.bind (ih _)
      intro rest _
      exact noPanic_ok _

theorem noPanic_sectionEnds (va raw : Nat) (sections : List ExistingSection) : NoPanic (sectionEnds va raw sections) := by
  induction sections generalizing va raw with
  | nil => exact noPanic_ok _
  | cons s sections ih =>
    unfold sectionEnds
    apply NoPanic.bind (noPanic_checkedAdd _ _ _)
    intro virtualEnd _
    apply NoPanic.bind (noPanic_checkedAdd _ _ _)
    intro rawEnd _
    exact ih _ _

/-- Each slice is taken where a length was checked before. -/
theorem noPanic_parsePe (image : List UInt8) : NoPanic (parsePe image) := by
  unfold parsePe
  apply NoPanic.guard
  intro hlen
  apply NoPanic.bind (noPanic_index (by unfold peOffsetPtr at hlen; omega))
  intro mz _
  apply NoPanic.guard
  intro _
  apply NoPanic.bind (noPanic_readU32 _ _)
  intro pe _
  apply NoPanic.bind (noPanic_require _ _ _ _)
  intro _ hrequire
  apply NoPanic.bind (noPanic_index (require_eq_ok hrequire))
  intro signature _
  apply NoPanic.guard
  intro _
  apply NoPanic.bind (noPanic_require _ _ _ _)
  intro _ _
  apply NoPanic.bind (noPanic_readU16 _ _)
  intro sectionCount _
  apply NoPanic.bind (noPanic_readU16 _ _)
  intro optionalSize _
  apply NoPanic.bind (noPanic_require _ _ _ _)
  intro _ _
  apply NoPanic.guard
  intro _
  apply NoPanic.bind (noPanic_readU16 _ _)
  intro magic _
  apply NoPanic.bind (NoPanic.guard fun _ => noPanic_ok _)
  intro _ _
  apply NoPanic.bind (noPanic_require _ _ _ _)
  intro _ _
  apply NoPanic.bind (noPanic_readU32 _ _)
  intro sectionAlignment _
  apply NoPanic.bind (noPanic_readU32 _ _)
  intro fileAlignment _
  apply NoPanic.bind (noPanic_readU32 _ _)
  intro sizeOfHeaders _
  apply NoPanic.guard
  intro _
  apply NoPanic.bind (noPanic_readSections _ _ _)
  intro sections _
  split
  · exact noPanic_error _
  · apply NoPanic.bind (noPanic_sectionEnds _ _ _)
    intro ends _
    exact noPanic_ok _

/-! ## Room for section headers -/

/-- A pointer is written where it was read. -/
theorem noPanic_movePointer (first delta off : Nat) (image : List UInt8) :
    NoPanic (movePointer first delta off image) := by
  unfold movePointer
  apply NoPanic.bind (noPanic_readU32 _ _)
  intro p hp
  have hle := (readU32_eq_ok hp).1
  split
  · apply NoPanic.bind (noPanic_checkedAdd _ _ _)
    intro moved _
    exact noPanic_store (by simpa using hle)
  · exact noPanic_ok _

theorem noPanic_movePointers (first delta off count : Nat) (image : List UInt8) :
    NoPanic (movePointers first delta off count image) := by
  induction count generalizing off image with
  | zero => exact noPanic_ok _
  | succ count ih =>
    unfold movePointers
    apply NoPanic.bind (noPanic_movePointer _ _ _ _)
    intro image' _
    exact ih _ _

/-- Room is made unless the headers need it and the first section starts behind the end of the image; an end that cannot
be rounded up is an error before. -/
theorem noPanic_ensureRoom_iff {stub : List UInt8} {info : PeInfo} {newCount : Nat} (hfa : 0 < info.fileAlignment) :
    NoPanic (ensureSectionHeaderRoom stub info newCount) ↔
      ¬ (info.firstRawSectionOff < requiredHeaderEnd info newCount ∧ stub.length < info.firstRawSectionOff ∧
        requiredHeaderEnd info newCount + (info.fileAlignment - 1) < 2 ^ 32) := by
  unfold ensureSectionHeaderRoom
  dsimp only
  split
  · rename_i hroom
    exact iff_of_true (noPanic_ok _) fun h => by omega
  · rename_i hroom
    by_cases hend : requiredHeaderEnd info newCount + (info.fileAlignment - 1) < 2 ^ 32
    · have htry : tryU32 (requiredHeaderEnd info newCount) "PE headers are too large" =
          .ok (requiredHeaderEnd info newCount) := if_neg (by omega)
      have halign : alignU32 (requiredHeaderEnd info newCount) info.fileAlignment =
          .ok (alignUp (requiredHeaderEnd info newCount) info.fileAlignment) := by
        rw [alignU32, if_neg (by omega), if_neg (by omega)]
        rfl
      have hle := le_alignUp (requiredHeaderEnd info newCount) hfa
      rw [htry]
      dsimp only [bind, Except.bind]
      rw [halign]
      dsimp only
      rw [if_neg (by omega)]
      by_cases hlen : info.firstRawSectionOff > stub.length
      · rw [if_pos hlen]
        exact iff_of_false (fun h => h rfl) fun h => h ⟨by omega, hlen, hend⟩
      · rw [if_neg hlen]
        refine iff_of_true ?_ fun h => by omega
        apply NoPanic.bind (noPanic_tryU32 _ _)
        intro delta32 _
        apply NoPanic.bind (noPanic_movePointers _ _ _ _ _)
        intro moved _
        apply NoPanic.bind (noPanic_checkedAdd _ _ _)
        intro nextRaw _
        exact noPanic_ok _
    · refine iff_of_true ?_ fun h => hend h.2.2
      apply NoPanic.bind (noPanic_tryU32 _ _)
      intro end32 hend32
      apply NoPanic.bind (noPanic_alignU32 _ _)
      intro newFirst hnew
      obtain ⟨-, rfl⟩ := tryU32_eq_ok hend32
      unfold alignU32 at hnew
      obtain ⟨-, hnew⟩ := guard_eq_ok.1 hnew
      obtain ⟨hlt, -⟩ := guard_eq_ok.1 hnew
      omega

/-! ## The payloads -/

/-- Where the new headers end before the raw data, each lies in the image that its payload makes. -/
theorem noPanic_addPayloads {info : PeInfo} {ps : List PayloadSection} {off va raw : Nat} {image : List UInt8}
    (hoff : off + 40 * ps.length ≤ raw) (hfa : 0 < info.fileAlignment) :
    NoPanic (addPayloads info off va raw image ps) := by
  induction ps generalizing off va raw image with
  | nil => exact noPanic_ok _
  | cons p ps ih =>
    rw [List.length_cons] at hoff
    unfold addPayloads
    apply NoPanic.guard
    intro _
    apply NoPanic.bind (noPanic_tryU32 _ _)
    intro size _
    apply NoPanic.bind (noPanic_alignU32 _ _)
    intro va' _
    apply NoPanic.bind (noPanic_alignU32 _ _)
    intro raw' hraw
    obtain ⟨-, rfl, -⟩ := alignU32_eq_ok hraw
    have hle := le_alignUp raw hfa
    apply NoPanic.bind (noPanic_alignU32 _ _)
    intro rawSize _
    apply NoPanic.bind (noPanic_writeSectionHeader (by rw [length_resize]; omega))
    intro withHeader _
    apply NoPanic.bind (noPanic_checkedAdd _ _ _)
    intro nextVa _
    apply NoPanic.bind (noPanic_checkedAdd _ _ _)
    intro nextRaw hnext
    obtain ⟨-, rfl⟩ := checkedAdd_eq_ok hnext
    exact ih (by unfold sectionHeaderSize; omega)

/-- The image reaches as far as the raw data starts. -/
theorem le_length_addPayloads {info : PeInfo} {ps : List PayloadSection} {off va raw : Nat} {image : List UInt8}
    {res : List UInt8 × Nat} (h : addPayloads info off va raw image ps = .ok res) (hraw : raw ≤ image.length) :
    raw ≤ res.1.length := by
  induction ps generalizing off va raw image with
  | nil =>
    cases h
    exact hraw
  | cons p ps ih =>
    obtain ⟨va', raw', rawSize, -, hraw', -, -, hfa, -, hname, -, -, hfit, h⟩ := addPayloads_cons h
    have hle := le_alignUp raw hfa
    have hheader : (sectionHeader (utf8 p.name) p.data.length va' rawSize raw').length = 40 :=
      length_sectionHeader hname
    have hlen : (patch (placed image raw' rawSize p.data) off
        (sectionHeader (utf8 p.name) p.data.length va' rawSize raw')).length = raw' + rawSize := by
      rw [length_patch_of_le (by rw [hheader, placed, length_resize]; exact hfit), placed, length_resize]
    have := ih h (by omega)
    omega

theorem noPanic_finishHeaders {image : List UInt8} {info : PeInfo} {newCount nextVa : Nat}
    (hcount : info.coffOff + 4 ≤ image.length) (hheaders : info.sizeOfHeadersOff + 4 ≤ image.length)
    (himage : info.sizeOfImageOff + 4 ≤ image.length) : NoPanic (finishHeaders image info newCount nextVa) := by
  unfold finishHeaders
  apply NoPanic.bind (noPanic_store (by simpa using hcount))
  intro counted hc
  obtain ⟨hle, rfl⟩ := store_eq_ok hc
  apply NoPanic.bind (noPanic_tryU32 _ _)
  intro end32 _
  apply NoPanic.bind (noPanic_alignU32 _ _)
  intro requiredSize _
  apply NoPanic.bind (noPanic_tryU32 _ _)
  intro firstRaw _
  apply NoPanic.guard
  intro _
  apply NoPanic.bind (noPanic_store (by rw [length_patch_of_le hle]; simpa using hheaders))
  intro sized hs
  obtain ⟨hle', rfl⟩ := store_eq_ok hs
  apply NoPanic.bind (noPanic_alignU32 _ _)
  intro sizeOfImage _
  exact noPanic_store (by rw [length_patch_of_le hle', length_patch_of_le hle]; simpa using himage)

/-! ## The whole build -/

/-- The stub is accepted, but ends before its first section, and the new headers reach into that; their end can still be
rounded up. -/
structure SplicesBehind (stub : List UInt8) (added : Nat) : Prop where
  accepted : ∃ info, parsePe stub = .ok info
  count : countAt stub + added < 2 ^ 16
  short : stub.length < firstRawOff stub
  meets : firstRawOff stub < tableOff stub + 40 * (countAt stub + added)
  rounds : tableOff stub + 40 * (countAt stub + added) + (fileAlignmentAt (peOff stub) stub - 1) < 2 ^ 32

/-- Behind the room for the headers nothing panics. -/
theorem noPanic_withRoom {stub : List UInt8} {info : PeInfo} {payloads : List PayloadSection}
    {room : List UInt8 × PeInfo} (hs : Stub stub info)
    (h : ensureSectionHeaderRoom stub info (info.sectionCount + payloads.length) = .ok room) :
    NoPanic (addPayloads room.2 (room.2.sectionTableOff + room.2.sectionCount * sectionHeaderSize)
        room.2.nextVirtualAddress room.2.nextRawPointer (growTo room.1 room.2.nextRawPointer) payloads >>= fun appended =>
      finishHeaders appended.1 room.2 (info.sectionCount + payloads.length) appended.2) := by
  obtain ⟨hfits, -, -, hinfo, -⟩ := ensureRoom_spec hs h
  obtain ⟨i₀, hi₀, hfirst⟩ := hs.first
  have hfr : info.firstRawSectionOff ≤ info.nextRawPointer := hfirst ▸ hs.rawEnd i₀ hi₀
  have hhead := hs.headers
  have htable : tableOff stub ≤ info.sectionTableOff := hs.sectionTableOff.ge
  have hcoff := hs.coffOff
  have hheaders := hs.sizeOfHeadersOff
  have himage := hs.sizeOfImageOff
  have hend : requiredHeaderEnd info (info.sectionCount + payloads.length) =
      info.sectionTableOff + info.sectionCount * sectionHeaderSize + 40 * payloads.length := by
    unfold requiredHeaderEnd sectionHeaderSize
    omega
  apply NoPanic.bind
  · apply noPanic_addPayloads
    · rw [hinfo]
      dsimp only
      omega
    · rw [hinfo]
      exact hs.fileAlignment
  · intro appended happ
    have hlen := le_length_addPayloads happ (by simp)
    rw [hinfo] at hlen ⊢
    dsimp only at hlen
    apply noPanic_finishHeaders <;> dsimp only <;> omega

/-- `build_uki` returns a value or an error exactly when it does not splice behind the end of the stub. -/
theorem buildUki_panic_iff (stub : List UInt8) (payloads : List PayloadSection) :
    buildUki stub payloads ≠ .error .panic ↔ ¬ SplicesBehind stub payloads.length := by
  show NoPanic (buildUki stub payloads) ↔ _
  cases hp : parsePe stub with
  | error e =>
    refine iff_of_true ?_ fun h => ?_
    · apply NoPanic.bind (noPanic_parsePe stub)
      intro info h
      rw [hp] at h
      cases h
    · obtain ⟨info, h⟩ := h.accepted
      rw [hp] at h
      cases h
  | ok info =>
    have hs := parsePe_spec hp
    have hend : requiredHeaderEnd info (info.sectionCount + payloads.length) =
        tableOff stub + 40 * (countAt stub + payloads.length) := by
      rw [requiredHeaderEnd, hs.sectionTableOff, hs.sectionCount, Nat.mul_comm]
      rfl
    rw [buildUki, hp]
    by_cases hlt : info.sectionCount + payloads.length < 2 ^ 16
    · have hc : countSections info.sectionCount payloads.length = .ok (info.sectionCount + payloads.length) := by
        rw [countSections, if_neg (by omega), if_neg (by omega)]
      have hroom : NoPanic (ensureSectionHeaderRoom stub info (info.sectionCount + payloads.length)) ↔
          ¬ SplicesBehind stub payloads.length := by
        rw [noPanic_ensureRoom_iff hs.fileAlignment, hend, hs.firstRaw, hs.fileAlignmentAt]
        refine not_congr ⟨fun h => ⟨⟨info, hp⟩, ?_, h.2.1, h.1, h.2.2⟩, fun h => ⟨h.meets, h.short, h.rounds⟩⟩
        rw [← hs.sectionCount]
        exact hlt
      rw [← hroom]
      show NoPanic (countSections info.sectionCount payloads.length >>= _) ↔ _
      rw [hc]
      show NoPanic (ensureSectionHeaderRoom stub info (info.sectionCount + payloads.length) >>= _) ↔ _
      constructor
      · exact fun h hpanic => h (bind_eq_error.2 (Or.inl hpanic))
      · exact fun h => NoPanic.bind h fun room hr => noPanic_withRoom hs hr
    · refine iff_of_true (NoPanic.bind (noPanic_ok info) ?_) fun h => hlt ?_
      · rintro _ ⟨⟩
        apply NoPanic.bind (NoPanic.guard fun _ => NoPanic.guard fun _ => noPanic_ok _)
        intro newCount hc
        obtain ⟨rfl, h⟩ := countSections_eq_ok hc
        exact absurd h hlt
      · rw [hs.sectionCount]
        exact h.count

/-- A stub that ends behind its section table, one byte before the first section. -/
def shortStub : List UInt8 :=
  patchAll (zeros 192)
    [(0, utf8 "MZ"), (0x3c, leBytes 4 0x40), (0x40, utf8 "PE"), (0x46, leBytes 2 1), (0x54, leBytes 2 64),
      (0x58, leBytes 2 0x020b), (0x78, leBytes 4 16), (0x7c, leBytes 4 16), (0x98, utf8 ".text"),
      (0xa0, leBytes 4 16), (0xa4, leBytes 4 256), (0xa8, leBytes 4 16), (0xac, leBytes 4 193)]

theorem buildUki_short : buildUki shortStub [tinyPayload] = .error .panic := by decide +kernel

end Peiosutils.Mkuki
