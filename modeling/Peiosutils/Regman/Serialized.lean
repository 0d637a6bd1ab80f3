import Peiosutils.Regman.Index

/-!
# What is written is read back (`serialize`, `decode`)

The sections that `serialize` writes are arrays, and an index that finds them where its offsets say (`Stored`) reads as
the entries they were made from (`Stored.represents`). `decode` accepts what `serialize` writes, where its length fits
32 bits, and gives such an index (`decode_serialize`, `stored_written`).
-/

set_option autoImplicit false

namespace Peiosutils.Regman

open Utf8 Keyed ByteStore

/-! ## The sections -/

/-- The number of a wildcard anchor, for each of them. -/
def wildIndices : Nat → Entries → List Nat
  | _, [] => []
  | i, (anchor, _) :: rest => (if hasWildcard anchor then [i] else []) ++ wildIndices (i + 1) rest

/-- The descriptors of the entries behind `anchLen` bytes of anchors and `locIdx` locations. -/
def descs (anchOff : Nat) : (anchLen locIdx : Nat) → Entries → List Desc
  | _, _, [] => []
  | anchLen, locIdx, (anchor, locs) :: rest =>
    ⟨anchOff + anchLen, (encode anchor).length, locIdx, locs.length⟩ ::
      descs anchOff (anchLen + (encode anchor).length) (locIdx + locs.length) rest

def Desc.bytes (d : Desc) : List UInt8 :=
  leBytes 4 d.offset ++ leBytes 4 d.length ++ leBytes 4 d.location ++ leBytes 4 d.count

def locBytes (loc : Nat × Nat) : List UInt8 := leBytes 4 loc.1 ++ leBytes 8 loc.2

theorem sections_eq (anchOff : Nat) (entries : Entries) : ∀ i anchLen locIdx,
    sections anchOff i anchLen locIdx entries =
      { descriptors := (descs anchOff anchLen locIdx entries).flatMap Desc.bytes
        locations := (entries.flatMap Prod.snd).flatMap locBytes
        wildcards := (wildIndices i entries).flatMap (leBytes 4)
        anchors := entries.flatMap (encode ·.1) } := by
  induction entries with
  | nil => simp [sections, descs, wildIndices]
  | cons e rest ih =>
    intro i anchLen locIdx
    obtain ⟨anchor, locs⟩ := e
    simp only [sections, ih, descs, wildIndices, List.flatMap_cons, List.flatMap_append, Desc.bytes]
    congr 1
    · split <;> simp

theorem length_descs (anchOff : Nat) (entries : Entries) : ∀ anchLen locIdx,
    (descs anchOff anchLen locIdx entries).length = entries.length := by
  induction entries with
  | nil => simp [descs]
  | cons e rest ih => simp [descs, ih]

theorem length_wildIndices (entries : Entries) : ∀ i,
    (wildIndices i entries).length = entries.countP (hasWildcard ·.1) := by
  induction entries with
  | nil => simp [wildIndices]
  | cons e rest ih =>
    intro i
    obtain ⟨anchor, locs⟩ := e
    rw [wildIndices, List.length_append, ih, List.countP_cons]
    split <;> simp_all [Nat.add_comm]

/-- The descriptor of entry `i`. -/
theorem getElem_descs (anchOff : Nat) (entries : Entries) : ∀ anchLen locIdx i (h : i < entries.length),
    (descs anchOff anchLen locIdx entries)[i]? = some
      ⟨anchOff + (anchLen + ((entries.take i).flatMap (encode ·.1)).length), (encode entries[i].1).length,
        locIdx + ((entries.take i).flatMap Prod.snd).length, entries[i].2.length⟩ := by
  induction entries with
  | nil => simp
  | cons e rest ih =>
    intro anchLen locIdx i hi
    cases i with
    | zero => simp [descs]
    | succ i =>
      rw [descs, List.getElem?_cons_succ, ih _ _ i (by simpa using hi)]
      simp [Nat.add_assoc]

/-! ## What an index holds -/

/-- A location as the file table resolves it. -/
def resolve (files : List PathBuf) (loc : Nat × Nat) : Option Location := files[loc.1]?.map fun f => ⟨f, loc.2⟩

/-- The index reads as the entries, in their order, with the files of the table. -/
structure Represents (index : Index) (entries : Entries) (files : List PathBuf) : Prop where
  count : index.entries = entries.length
  anchor : ∀ i e, entries[i]? = some e → index.anchor i = .ok (encode e.1)
  located : ∀ i e, entries[i]? = some e →
    ∃ d, index.desc i = .ok d ∧ index.locations d.count d.location = .ok (e.2.filterMap (resolve files))
  wildN : index.wildN = (wildIndices 0 entries).length
  wild : ∀ k i, (wildIndices 0 entries)[k]? = some i → index.wild k = .ok i

/-- The sections of the entries stand where the index looks for them. -/
structure Stored (index : Index) (anchOff : Nat) (entries : Entries) (files : List PathBuf) : Prop where
  count : index.entries = entries.length
  table : index.files = files
  wildN : index.wildN = (wildIndices 0 entries).length
  descriptors : slice index.bytes index.descOff (entries.length * descLen) =
    (descs anchOff 0 0 entries).flatMap Desc.bytes
  descEnd : index.descOff + entries.length * descLen ≤ index.bytes.length
  locations : slice index.bytes index.locsOff ((entries.flatMap Prod.snd).length * locLen) =
    (entries.flatMap Prod.snd).flatMap locBytes
  locsEnd : index.locsOff + (entries.flatMap Prod.snd).length * locLen ≤ index.bytes.length
  wildcards : slice index.bytes index.wildOff ((wildIndices 0 entries).length * wildLen) =
    (wildIndices 0 entries).flatMap (leBytes 4)
  wildEnd : index.wildOff + (wildIndices 0 entries).length * wildLen ≤ index.bytes.length
  anchors : slice index.bytes anchOff (entries.flatMap (encode ·.1)).length = entries.flatMap (encode ·.1)
  anchEnd : anchOff + (entries.flatMap (encode ·.1)).length ≤ index.bytes.length
  small : index.bytes.length < 2 ^ 32
  inTable : ∀ e ∈ entries, ∀ loc ∈ e.2, loc.1 < files.length ∧ loc.1 < 2 ^ 32 ∧ loc.2 < 2 ^ 64

/-- A number read inside a slice that is known. -/
theorem rdU32_of_slice {b p : List UInt8} {off n k : Nat} (hs : slice b off n = p) (hlen : off + n ≤ b.length)
    (hk : k + 4 ≤ n) : rdU32 b (off + k) = .ok (leNat (slice p k 4)) := by
  rw [rdU32, if_neg (by omega), ← hs, slice_slice b hk]

theorem rdU64_of_slice {b p : List UInt8} {off n k : Nat} (hs : slice b off n = p) (hlen : off + n ≤ b.length)
    (hk : k + 8 ≤ n) : rdU64 b (off + k) = .ok (leNat (slice p k 8)) := by
  rw [rdU64, if_neg (by omega), ← hs, slice_slice b hk]

theorem rdSlice_ok {b : List UInt8} {start stop : Nat} (h : start ≤ stop) (hlen : stop ≤ b.length) :
    rdSlice b start stop = .ok (slice b start (stop - start)) := by
  rw [rdSlice, if_neg (by omega)]

theorem leNat_four {n : Nat} (h : n < 2 ^ 32) : leNat (leBytes 4 n) = n := leNat_leBytes_of_lt h

namespace Stored

variable {index : Index} {anchOff : Nat} {entries : Entries} {files : List PathBuf}

/-- The bytes of descriptor `i`. -/
theorem slice_desc (h : Stored index anchOff entries files) {i : Nat} {d : Desc}
    (hd : (descs anchOff 0 0 entries)[i]? = some d) :
    slice index.bytes (index.descOff + i * descLen) descLen = d.bytes ∧
      index.descOff + i * descLen + descLen ≤ index.bytes.length := by
  have hi : i < entries.length := by
    rw [← length_descs anchOff entries 0 0]
    exact (List.getElem?_eq_some_iff.1 hd).1
  have hmul : (i + 1) * descLen ≤ entries.length * descLen := Nat.mul_le_mul_right _ hi
  rw [Nat.succ_mul] at hmul
  have := h.descEnd
  refine ⟨?_, by omega⟩
  rw [← slice_slice index.bytes hmul, h.descriptors]
  exact slice_flatMap_width (fun d => by simp [Desc.bytes, descLen]) hd

/-- Descriptor `i` is read back. -/
theorem desc (h : Stored index anchOff entries files) {i : Nat} {d : Desc}
    (hd : (descs anchOff 0 0 entries)[i]? = some d) (hs : d.offset < 2 ^ 32 ∧ d.length < 2 ^ 32 ∧ d.location < 2 ^ 32 ∧
      d.count < 2 ^ 32) : index.desc i = .ok d := by
  obtain ⟨hb, hlen⟩ := h.slice_desc hd
  have h0 := rdU32_of_slice (k := 0) hb hlen (by simp [descLen])
  have h4 := rdU32_of_slice (k := 4) hb hlen (by simp [descLen])
  have h8 := rdU32_of_slice (k := 8) hb hlen (by simp [descLen])
  have h12 := rdU32_of_slice (k := 12) hb hlen (by simp [descLen])
  have e0 : slice d.bytes 0 4 = leBytes 4 d.offset := by simp [slice, Desc.bytes]
  have e4 : slice d.bytes 4 4 = leBytes 4 d.length := by simp [slice, Desc.bytes]
  have e8 : slice d.bytes 8 4 = leBytes 4 d.location := by simp [slice, Desc.bytes, List.take_append, List.drop_append]
  have e12 : slice d.bytes 12 4 = leBytes 4 d.count := by
    simp [slice, Desc.bytes, List.drop_append, List.drop_eq_nil_of_le]
  rw [e0, leNat_four hs.1, Nat.add_zero] at h0
  rw [e4, leNat_four hs.2.1] at h4
  rw [e8, leNat_four hs.2.2.1] at h8
  rw [e12, leNat_four hs.2.2.2] at h12
  simp only [Index.desc, h0, h4, h8, h12]
  rfl

/-- The descriptor of entry `i`. -/
def descOf (anchOff : Nat) (entries : Entries) (i : Nat) (e : Str × List (Nat × Nat)) : Desc :=
  ⟨anchOff + ((entries.take i).flatMap (encode ·.1)).length, (encode e.1).length,
    ((entries.take i).flatMap Prod.snd).length, e.2.length⟩

theorem desc_entry (h : Stored index anchOff entries files) {i : Nat} {e : Str × List (Nat × Nat)}
    (he : entries[i]? = some e) : index.desc i = .ok (descOf anchOff entries i e) := by
  obtain ⟨hi, rfl⟩ := List.getElem?_eq_some_iff.1 he
  have ha := congrArg List.length (flatMap_split (fun e : Str × List (Nat × Nat) => encode e.1) he)
  have hl := congrArg List.length (flatMap_split Prod.snd he)
  simp only [List.length_append] at ha hl
  have hae := h.anchEnd
  have hle := h.locsEnd
  have hsmall := h.small
  simp only [locLen] at hle
  apply h.desc
  · rw [getElem_descs anchOff entries 0 0 i hi]
    simp [descOf]
  · simp only [descOf]
    omega

/-- The anchor of entry `i`. -/
theorem anchor (h : Stored index anchOff entries files) {i : Nat} {e : Str × List (Nat × Nat)}
    (he : entries[i]? = some e) : index.anchor i = .ok (encode e.1) := by
  have hs := flatMap_split (fun e : Str × List (Nat × Nat) => encode e.1) he
  have ha := congrArg List.length hs
  simp only [List.length_append] at ha
  have hae := h.anchEnd
  have hd : index.anchor i = rdSlice index.bytes (anchOff + ((entries.take i).flatMap (encode ·.1)).length)
      (anchOff + ((entries.take i).flatMap (encode ·.1)).length + (encode e.1).length) := by
    rw [Index.anchor, h.desc_entry he]
    rfl
  rw [hd, rdSlice_ok (by omega) (by omega), Nat.add_sub_cancel_left, ← slice_slice index.bytes
    (n := (entries.flatMap (encode ·.1)).length) (by omega), h.anchors, hs,
    slice_append_right (le_refl _), Nat.sub_self, slice_append_left (by omega), slice_zero, List.take_length]

/-- Location number `j`. -/
theorem slice_location (h : Stored index anchOff entries files) {j : Nat} {loc : Nat × Nat}
    (hj : (entries.flatMap Prod.snd)[j]? = some loc) :
    slice index.bytes (index.locsOff + j * locLen) locLen = locBytes loc ∧
      index.locsOff + j * locLen + locLen ≤ index.bytes.length := by
  have hlt := (List.getElem?_eq_some_iff.1 hj).1
  have hmul : (j + 1) * locLen ≤ (entries.flatMap Prod.snd).length * locLen := Nat.mul_le_mul_right _ hlt
  rw [Nat.succ_mul] at hmul
  have := h.locsEnd
  refine ⟨?_, by omega⟩
  rw [← slice_slice index.bytes hmul, h.locations]
  exact slice_flatMap_width (fun loc => by simp [locBytes, locLen]) hj

theorem read_location (h : Stored index anchOff entries files) {j : Nat} {loc : Nat × Nat}
    (hj : (entries.flatMap Prod.snd)[j]? = some loc) :
    rdU32 index.bytes (index.locsOff + j * locLen) = .ok loc.1 ∧
      rdU64 index.bytes (index.locsOff + j * locLen + 4) = .ok loc.2 := by
  obtain ⟨e, he, hm⟩ := List.mem_flatMap.1 (List.mem_of_getElem? hj)
  obtain ⟨_, h1, h2⟩ := h.inTable e he loc hm
  obtain ⟨hs, hlen⟩ := h.slice_location hj
  have h0 := rdU32_of_slice (k := 0) hs hlen (by simp [locLen])
  have h4 := rdU64_of_slice (k := 4) hs hlen (by simp [locLen])
  have e0 : slice (locBytes loc) 0 4 = leBytes 4 loc.1 := by simp [slice, locBytes]
  have e4 : slice (locBytes loc) 4 8 = leBytes 8 loc.2 := by simp [slice, locBytes, List.take_of_length_le]
  rw [e0, leNat_four h1, Nat.add_zero] at h0
  rw [e4, leNat_leBytes_of_lt h2] at h4
  exact ⟨h0, h4⟩

/-- A run of locations. -/
theorem read_locations (h : Stored index anchOff entries files) {pre post : List (Nat × Nat)} : ∀ {locs first},
    entries.flatMap Prod.snd = pre ++ (locs ++ post) → first = pre.length →
    index.locations locs.length first = .ok (locs.filterMap (resolve files)) := by
  intro locs
  induction locs generalizing pre with
  | nil => intros; rfl
  | cons loc locs ih =>
    intro first hs hf
    have hj : (entries.flatMap Prod.snd)[first]? = some loc := by
      rw [hs, hf, List.getElem?_append_right (le_refl _)]
      simp
    obtain ⟨h0, h4⟩ := h.read_location hj
    have hs' : entries.flatMap Prod.snd = (pre ++ [loc]) ++ (locs ++ post) := by simp [hs]
    have hrest := ih hs' (show first + 1 = _ by simp [hf])
    rw [List.length_cons, Index.locations]
    simp only [h0, h4, hrest, Except.bind, bind, h.table, List.filterMap_cons, resolve]
    cases files[loc.1]? <;> rfl

theorem wild (h : Stored index anchOff entries files) {k i : Nat} (hk : (wildIndices 0 entries)[k]? = some i)
    (hi : i < 2 ^ 32) : index.wild k = .ok i := by
  have hlt := (List.getElem?_eq_some_iff.1 hk).1
  have hmul : (k + 1) * wildLen ≤ (wildIndices 0 entries).length * wildLen := Nat.mul_le_mul_right _ hlt
  rw [Nat.succ_mul] at hmul
  have hend := h.wildEnd
  have hs : slice index.bytes (index.wildOff + k * wildLen) wildLen = leBytes 4 i := by
    rw [← slice_slice index.bytes hmul, h.wildcards]
    exact slice_flatMap_width (fun i => by simp [wildLen]) hk
  have := rdU32_of_slice (k := 0) hs (by omega) (by simp [wildLen])
  rw [Nat.add_zero, slice_zero, List.take_of_length_le (by simp), leNat_four hi] at this
  exact this

end Stored

theorem mem_wildIndices {entries : Entries} {j : Nat} : ∀ {i : Nat}, j ∈ wildIndices i entries ↔
    ∃ k e, j = i + k ∧ entries[k]? = some e ∧ hasWildcard e.1 = true := by
  induction entries with
  | nil => simp [wildIndices]
  | cons e rest ih =>
    intro i
    rw [wildIndices, List.mem_append, ih]
    constructor
    · rintro (hj | ⟨k, e', rfl, he', hw⟩)
      · split at hj
        · rename_i hw
          exact ⟨0, e, by simpa using hj, rfl, hw⟩
        · cases hj
      · exact ⟨k + 1, e', by omega, by simpa using he', hw⟩
    · rintro ⟨k, e', rfl, he', hw⟩
      cases k with
      | zero =>
        obtain rfl : e = e' := by simpa using he'
        exact Or.inl (by simp [hw])
      | succ k => exact Or.inr ⟨k, e', by omega, by simpa using he', hw⟩

theorem Stored.represents {index : Index} {anchOff : Nat} {entries : Entries} {files : List PathBuf}
    (h : Stored index anchOff entries files) : Represents index entries files where
  count := h.count
  anchor _ _ he := h.anchor he
  located i e he := by
    refine ⟨_, h.desc_entry he, ?_⟩
    exact h.read_locations (flatMap_split Prod.snd he) rfl
  wildN := h.wildN
  wild k i hk := by
    obtain ⟨j, e, rfl, he, _⟩ := mem_wildIndices.1 (List.mem_of_getElem? hk)
    have hj := (List.getElem?_eq_some_iff.1 he).1
    have := h.descEnd
    have := h.small
    simp only [descLen] at *
    exact h.wild hk (by omega)


/-! ## The index that is written -/

section Written

variable (entries : Entries) (files : List Str)

def locsOff : Nat := headerLen + entries.length * descLen

def filesOff : Nat := locsOff entries + (entries.flatMap Prod.snd).length * locLen

def wildOff : Nat := filesOff entries + (fileTable files).length

def anchOff : Nat := wildOff entries files + (wildIndices 0 entries).length * wildLen

/-- The numbers of the header behind the magic. -/
def headerNums : List Nat :=
  [version, entries.length, headerLen, locsOff entries, filesOff entries, anchOff entries files, files.length,
    wildOff entries files, (wildIndices 0 entries).length, 0]

def writtenIndex : Index :=
  { bytes := serialize entries files, files := files.map encode, entries := entries.length, descOff := headerLen
    locsOff := locsOff entries, wildOff := wildOff entries files, wildN := (wildIndices 0 entries).length }

theorem length_fileTable : (fileTable files).length = (files.map fun f => 4 + (encode f).length).sum := by
  simp [fileTable, List.length_flatMap]

theorem four_mul_length_le : 4 * files.length ≤ (fileTable files).length := by
  induction files with
  | nil => simp
  | cons f fs ih =>
    simp only [fileTable, List.flatMap_cons, List.length_append, length_leBytes, List.length_cons] at ih ⊢
    omega

theorem serialize_eq : serialize entries files =
    magic ++ ((headerNums entries files).flatMap (leBytes 4) ++
      ((descs (anchOff entries files) 0 0 entries).flatMap Desc.bytes ++
        ((entries.flatMap Prod.snd).flatMap locBytes ++
          (fileTable files ++ ((wildIndices 0 entries).flatMap (leBytes 4) ++ entries.flatMap (encode ·.1)))))) := by
  have hl : (entries.map (·.2.length)).sum = (entries.flatMap Prod.snd).length := by simp [List.length_flatMap]
  simp only [serialize, sections_eq, headerNums, hl, ← length_fileTable, ← length_wildIndices entries 0, anchOff, wildOff,
    filesOff, locsOff, List.flatMap_cons, List.flatMap_nil, List.append_nil, List.append_assoc]

theorem length_headerBytes : ((headerNums entries files).flatMap (leBytes 4)).length = 40 :=
  length_flatMap_width (fun n => length_leBytes 4 n) _

theorem length_descBytes (anchOff : Nat) :
    ((descs anchOff 0 0 entries).flatMap Desc.bytes).length = entries.length * descLen := by
  rw [length_flatMap_width (w := descLen) fun d => by simp [Desc.bytes, descLen], length_descs]

theorem length_locBytes (locs : List (Nat × Nat)) : (locs.flatMap locBytes).length = locs.length * locLen :=
  length_flatMap_width (fun l => by simp [locBytes, locLen]) _

theorem length_wildBytes (idxs : List Nat) : (idxs.flatMap (leBytes 4)).length = idxs.length * wildLen :=
  length_flatMap_width (fun n => length_leBytes 4 n) _

theorem length_magic : magic.length = 8 := rfl

theorem length_serialize : (serialize entries files).length =
    anchOff entries files + (entries.flatMap (encode ·.1)).length := by
  rw [serialize_eq]
  simp only [List.length_append, length_magic, length_headerBytes entries files, length_descBytes, length_locBytes,
    length_wildBytes (wildIndices 0 entries), anchOff, wildOff, filesOff, locsOff, headerLen]
  omega

end Written

theorem stored_written {entries : Entries} {files : List Str} (hsmall : (serialize entries files).length < 2 ^ 32)
    (hin : ∀ e ∈ entries, ∀ loc ∈ e.2, loc.1 < files.length ∧ loc.2 < 2 ^ 64) :
    Stored (writtenIndex entries files) (anchOff entries files) entries (files.map encode) := by
  have he := serialize_eq entries files
  have hh := length_headerBytes entries files
  have hd := length_descBytes entries (anchOff entries files)
  have hl := length_locBytes (entries.flatMap Prod.snd)
  have hw := length_wildBytes (wildIndices 0 entries)
  have ht := four_mul_length_le files
  have hlen := length_serialize entries files
  simp only [anchOff, wildOff, filesOff, locsOff] at hlen
  generalize (headerNums entries files).flatMap (leBytes 4) = H at he hh
  generalize hD : (descs (anchOff entries files) 0 0 entries).flatMap Desc.bytes = D at he hd
  generalize hL : (entries.flatMap Prod.snd).flatMap locBytes = L at he hl
  generalize hW : (wildIndices 0 entries).flatMap (leBytes 4) = W at he hw
  generalize hA : entries.flatMap (encode ·.1) = A at he hlen
  generalize hF : fileTable files = F at he ht hlen
  have h1 : slice (serialize entries files) headerLen (entries.length * descLen) = D ∧
      headerLen + entries.length * descLen ≤ (serialize entries files).length :=
    slice_part (a := magic ++ H) (c := L ++ (F ++ (W ++ A))) (by rw [he]; simp only [List.append_assoc]) (by simp only [List.length_append, length_magic, hh, headerLen]) hd.symm
  have h2 : slice (serialize entries files) (locsOff entries) ((entries.flatMap Prod.snd).length * locLen) = L ∧
      locsOff entries + (entries.flatMap Prod.snd).length * locLen ≤ (serialize entries files).length :=
    slice_part (a := magic ++ H ++ D) (c := F ++ (W ++ A)) (by rw [he]; simp only [List.append_assoc])
      (by simp only [List.length_append, length_magic, hh, hd, headerLen, locsOff])
      hl.symm
  have h3 : slice (serialize entries files) (wildOff entries files) ((wildIndices 0 entries).length * wildLen) = W ∧
      wildOff entries files + (wildIndices 0 entries).length * wildLen ≤ (serialize entries files).length :=
    slice_part (a := magic ++ H ++ D ++ L ++ F) (c := A) (by rw [he]; simp only [List.append_assoc])
      (by simp only [List.length_append, length_magic, hh, hd, hl, hF, headerLen, locsOff, filesOff, wildOff]) hw.symm
  have h4 : slice (serialize entries files) (anchOff entries files) A.length = A ∧
      anchOff entries files + A.length ≤ (serialize entries files).length :=
    slice_part (a := magic ++ H ++ D ++ L ++ F ++ W) (c := [])
      (by rw [he]; simp only [List.append_assoc, List.append_nil])
      (by simp only [List.length_append, length_magic, hh, hd, hl, hF, hw, headerLen, locsOff, filesOff, wildOff, anchOff]) rfl
  exact
    { count := rfl
      table := rfl
      wildN := rfl
      descriptors := hD ▸ h1.1
      descEnd := h1.2
      locations := hL ▸ h2.1
      locsEnd := h2.2
      wildcards := hW ▸ h3.1
      wildEnd := h3.2
      anchors := hA ▸ h4.1
      anchEnd := hA ▸ h4.2
      small := hsmall
      inTable := fun e he loc hloc => by
        have ⟨h1, h2⟩ := hin e he loc hloc
        rw [List.length_map]
        exact ⟨h1, by omega, h2⟩ }

/-! ## Reading it back -/

/-- Number `k` of the header. -/
theorem read_headerNum {entries : Entries} {files : List Str} {k n : Nat} (hk : (headerNums entries files)[k]? = some n)
    (hn : n < 2 ^ 32) : rdU32 (serialize entries files) (8 + k * 4) = .ok n := by
  have hlt : k < 10 := (List.getElem?_eq_some_iff.1 hk).1
  have h : slice (serialize entries files) 8 40 = (headerNums entries files).flatMap (leBytes 4) ∧
      8 + 40 ≤ (serialize entries files).length :=
    slice_part (serialize_eq entries files) rfl
      (length_headerBytes entries files).symm
  rw [rdU32_of_slice h.1 h.2 (by omega), slice_flatMap_width (fun n => length_leBytes 4 n) hk, leNat_four hn]

/-- The file table is read back. -/
theorem decodeFiles_fileTable {bytes : List UInt8} {stop : Nat} (hstop : stop ≤ bytes.length) (hsmall : stop < 2 ^ 32)
    (files : List Str) : ∀ {pos}, slice bytes pos (fileTable files).length = fileTable files →
      pos + (fileTable files).length = stop →
      decodeFiles bytes stop files.length pos = .ok (some (files.map encode, stop)) := by
  induction files with
  | nil =>
    intro pos _ hp
    have : pos = stop := by simpa [fileTable] using hp
    rw [← this]
    rfl
  | cons f fs ih =>
    intro pos hs hp
    have ht : fileTable (f :: fs) = leBytes 4 (encode f).length ++ (encode f ++ fileTable fs) := by
      simp [fileTable]
    have hlen : (fileTable (f :: fs)).length = 4 + ((encode f).length + (fileTable fs).length) := by simp [ht]
    rw [hlen] at hs hp
    have hread : rdU32 bytes pos = .ok (encode f).length := by
      have := rdU32_of_slice (k := 0) hs (by omega) (by omega)
      rwa [ht, slice_append_left (by simp), slice_zero, List.take_of_length_le (by simp), leNat_four (by omega)] at this
    have hname : slice bytes (pos + 4) (encode f).length = encode f := by
      rw [← slice_slice bytes (show 4 + (encode f).length ≤ 4 + ((encode f).length + (fileTable fs).length) by omega), hs,
        ht, slice_append_right (by simp), length_leBytes, Nat.sub_self, slice_append_left (by omega), slice_zero,
        List.take_length]
    have hrest : slice bytes (pos + 4 + (encode f).length) (fileTable fs).length = fileTable fs := by
      rw [Nat.add_assoc, ← slice_slice bytes (show 4 + (encode f).length + (fileTable fs).length ≤
        4 + ((encode f).length + (fileTable fs).length) by omega), hs, ht, slice_append_right (by simp), length_leBytes,
        Nat.add_sub_cancel_left, slice_append_right (le_refl _), Nat.sub_self, slice_zero, List.take_length]
    have hsl : rdSlice bytes (pos + 4) (pos + 4 + (encode f).length) = .ok (encode f) := by
      rw [rdSlice_ok (by omega) (by omega), Nat.add_sub_cancel_left, hname]
    rw [List.length_cons, decodeFiles]
    simp only [hread, bind, Except.bind, hsl, fromUtf8_encode, ih hrest (by omega)]
    rw [if_neg (by omega), if_neg (by omega)]
    rfl

theorem wildIndices_append (es fs : Entries) : ∀ i,
    wildIndices i (es ++ fs) = wildIndices i es ++ wildIndices (i + es.length) fs := by
  induction es with
  | nil => simp [wildIndices]
  | cons e es ih =>
    intro i
    simp [wildIndices, ih, Nat.add_assoc, Nat.add_comm 1]

/-- The anchors ascend strictly. -/
def Sorted (entries : Entries) : Prop := entries.Pairwise fun a b => anchorKey a.1 < anchorKey b.1

namespace Stored

variable {index : Index} {anchOff : Nat} {entries : Entries} {files : List PathBuf}

/-- No descriptor is refused. -/
theorem validateDescs (h : Stored index anchOff entries files) (hsorted : Sorted entries) (rest : Entries) :
    ∀ pre, entries = pre ++ rest →
      index.validateDescs anchOff (entries.flatMap Prod.snd).length rest.length pre.length
        (pre.getLast?.map (encode ·.1)) (wildIndices 0 pre).length = .ok (some (wildIndices 0 entries).length) := by
  induction rest with
  | nil =>
    intro pre he
    rw [he, List.append_nil]
    rfl
  | cons e rest ih =>
    intro pre he
    have hi : entries[pre.length]? = some e := by
      rw [he, List.getElem?_append_right (le_refl _), Nat.sub_self]
      rfl
    have ha := congrArg List.length (flatMap_split (fun e : Str × List (Nat × Nat) => encode e.1) hi)
    have hl := congrArg List.length (flatMap_split Prod.snd hi)
    simp only [List.length_append] at ha hl
    have hae := h.anchEnd
    have hpre : wildIndices 0 (pre ++ [e]) =
        wildIndices 0 pre ++ if hasWildcard e.1 then [pre.length] else [] := by
      simp [wildIndices_append, wildIndices]
    have hnext := ih (pre ++ [e]) (by simp [he])
    rw [List.length_append, List.getLast?_append, hpre, List.length_append] at hnext
    have hbefore : (pre.getLast?.map (encode ·.1)).any (fun value => byteKey (encode e.1) ≤ byteKey value) = false := by
      rw [Option.any_map, Option.any_eq_false_iff_get]
      intro hs
      have hm : pre.getLast?.get hs ∈ pre := List.mem_of_getLast? (Option.some_get hs).symm
      have hlt : anchorKey (pre.getLast?.get hs).1 < anchorKey e.1 := by
        rw [Sorted, he] at hsorted
        exact (List.pairwise_append.1 hsorted).2.2 _ hm e List.mem_cons_self
      exact decide_eq_false (not_le.2 hlt)
    rw [List.length_cons, Index.validateDescs]
    simp only [h.desc_entry hi, h.anchor hi, bind, Except.bind, fromUtf8_encode, hbefore, descOf]
    rw [if_neg (by omega)]
    simp only [Bool.false_eq_true, if_false]
    by_cases hw : hasWildcard e.1 = true
    · have hk : (wildIndices 0 entries)[(wildIndices 0 pre).length]? = some pre.length := by
        simp [he, wildIndices_append, wildIndices, hw]
      have hlt := (List.getElem?_eq_some_iff.1 hk).1
      have hd := h.descEnd
      have hcount := (List.getElem?_eq_some_iff.1 hi).1
      have hsmall := h.small
      simp only [descLen] at hd
      rw [if_pos hw, if_neg (by rw [h.wildN]; omega), h.wild hk (by omega)]
      simp only [ne_eq, not_true, if_false]
      simpa [hw] using hnext
    · rw [if_neg hw]
      simpa [hw] using hnext

/-- Every location names a file of the table. -/
theorem validateLocs (h : Stored index anchOff entries files) : ∀ n i, i + n = (entries.flatMap Prod.snd).length →
    index.validateLocs n i = .ok (some ()) := by
  intro n
  induction n with
  | zero => intros; rfl
  | succ n ih =>
    intro i hi
    have hlt : i < (entries.flatMap Prod.snd).length := by omega
    have hloc := List.getElem?_eq_getElem hlt
    obtain ⟨e, he, hm⟩ := List.mem_flatMap.1 (List.mem_of_getElem? hloc)
    have hin := (h.inTable e he _ hm).1
    rw [Index.validateLocs, (h.read_location hloc).1]
    simp only [bind, Except.bind]
    rw [if_neg (by rw [h.table]; omega), ih (i + 1) (by omega)]

theorem validateRecords (h : Stored index anchOff entries files) (hsorted : Sorted entries) :
    index.validateRecords anchOff (entries.flatMap Prod.snd).length = .ok (some ()) := by
  have hd : index.validateDescs anchOff (entries.flatMap Prod.snd).length index.entries 0 none 0 =
      .ok (some (wildIndices 0 entries).length) := h.count ▸ h.validateDescs hsorted entries [] rfl
  rw [Index.validateRecords, hd]
  simp only [bind, Except.bind]
  rw [if_neg (by simp [h.wildN])]
  exact h.validateLocs _ 0 (by omega)

end Stored

/-- The header of the bytes that are written. -/
theorem readHeader_serialize {entries : Entries} {files : List Str} (hsmall : (serialize entries files).length < 2 ^ 32) :
    readHeader (serialize entries files) = .ok
      { entries := entries.length, descOff := headerLen, locsOff := locsOff entries, filesOff := filesOff entries
        anchOff := anchOff entries files, fileCount := files.length, wildOff := wildOff entries files
        wildN := (wildIndices 0 entries).length } := by
  have hlen := length_serialize entries files
  have ht := four_mul_length_le files
  have hb : ∀ n ∈ headerNums entries files, n < 2 ^ 32 := by
    simp only [headerNums, List.mem_cons, List.not_mem_nil, or_false, anchOff, wildOff, filesOff, locsOff, headerLen,
      descLen, locLen, wildLen, version] at hlen ⊢
    intro n hn
    omega
  have hread : ∀ k n, (headerNums entries files)[k]? = some n → rdU32 (serialize entries files) (8 + k * 4) = .ok n :=
    fun k n hk => read_headerNum hk (hb n (List.mem_of_getElem? hk))
  have h1 := hread 1 _ rfl
  have h2 := hread 2 _ rfl
  have h3 := hread 3 _ rfl
  have h4 := hread 4 _ rfl
  have h5 := hread 5 _ rfl
  have h6 := hread 6 _ rfl
  have h7 := hread 7 _ rfl
  have h8 := hread 8 _ rfl
  simp only [Nat.reduceMul, Nat.reduceAdd] at h1 h2 h3 h4 h5 h6 h7 h8
  simp only [readHeader, h1, h2, h3, h4, h5, h6, h7, h8]
  rfl

/-- What `serialize` writes is decoded to the index of its sections. -/
theorem decode_serialize {entries : Entries} {files : List Str} (hsorted : Sorted entries)
    (hsmall : (serialize entries files).length < 2 ^ 32)
    (hin : ∀ e ∈ entries, ∀ loc ∈ e.2, loc.1 < files.length ∧ loc.2 < 2 ^ 64) :
    decode (serialize entries files) = .ok (some (writtenIndex entries files)) := by
  have hstored := stored_written hsmall hin
  have hlen := length_serialize entries files
  have ht := four_mul_length_le files
  have hanch : anchOff entries files ≤ (serialize entries files).length := by omega
  simp only [anchOff, wildOff, filesOff, locsOff, headerLen, descLen, locLen, wildLen] at hlen
  have hmagic : (serialize entries files).take 8 = magic := by
    rw [serialize_eq]
    exact List.take_left' rfl
  have hversion : rdU32 (serialize entries files) 8 = .ok version := read_headerNum (k := 0) rfl (by decide)
  have hrefused : ¬ IndexHeader.Refused
      { entries := entries.length, descOff := headerLen, locsOff := locsOff entries, filesOff := filesOff entries
        anchOff := anchOff entries files, fileCount := files.length, wildOff := wildOff entries files
        wildN := (wildIndices 0 entries).length } (serialize entries files).length := by
    simp only [IndexHeader.Refused, anchOff, wildOff, filesOff, locsOff, headerLen, descLen, locLen, wildLen] at hanch ⊢
    omega
  have htable : slice (serialize entries files) (filesOff entries) (fileTable files).length = fileTable files ∧
      filesOff entries + (fileTable files).length ≤ (serialize entries files).length :=
    slice_part (a := magic ++ (headerNums entries files).flatMap (leBytes 4) ++
        (descs (anchOff entries files) 0 0 entries).flatMap Desc.bytes ++ (entries.flatMap Prod.snd).flatMap locBytes)
      (c := (wildIndices 0 entries).flatMap (leBytes 4) ++ entries.flatMap (encode ·.1)) (by rw [serialize_eq]; simp only [List.append_assoc])
      (by simp only [List.length_append, length_magic, length_headerBytes, length_descBytes, length_locBytes, filesOff,
        locsOff, headerLen]) rfl
  have hfiles : decodeFiles (serialize entries files) (wildOff entries files) files.length (filesOff entries) =
      .ok (some (files.map encode, wildOff entries files)) :=
    decodeFiles_fileTable htable.2 (lt_of_le_of_lt htable.2 hsmall) files htable.1 rfl
  have hcount : (filesOff entries - locsOff entries) / locLen = (entries.flatMap Prod.snd).length := by
    simp [filesOff, locLen]
  rw [decode, if_neg (by rw [hmagic]; simp [headerLen]; omega)]
  simp only [bind, Except.bind, hversion, readHeader_serialize hsmall, hfiles, hcount]
  rw [if_neg (by simp), if_neg hrefused]
  rw [if_neg (by simp)]
  have hvalid := hstored.validateRecords hsorted
  simp only [writtenIndex] at hvalid
  rw [hvalid]
  rfl

end Peiosutils.Regman
