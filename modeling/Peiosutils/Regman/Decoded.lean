import Peiosutils.Regman.Lookup

/-!
# Lookups in bytes that `decode` accepts (`index.rs`)

`decode` reads no byte string out of range, and what it accepts reads as strictly ascending entries
(`decode_represents`): every descriptor, location and wildcard number is inside the bytes, and every location names a
file of the table. So the lookups read nothing out of range either, and each location they return belongs to an anchor
that is the query or matches it (`lookups_sound`).
-/

set_option autoImplicit false

namespace Peiosutils.Regman

open Utf8 Keyed ByteStore

/-! ## Reads in range -/

theorem rdU32_ok {b : List UInt8} {pos : Nat} (h : pos + 4 ≤ b.length) : rdU32 b pos = .ok (leNat (slice b pos 4)) := by
  rw [rdU32, if_neg (by omega)]

theorem rdU64_ok {b : List UInt8} {pos : Nat} (h : pos + 8 ≤ b.length) : rdU64 b pos = .ok (leNat (slice b pos 8)) := by
  rw [rdU64, if_neg (by omega)]

/-- An element of an array is inside it. -/
theorem element_le {off i n width len : Nat} (h : i < n) (hend : off + n * width ≤ len) :
    off + i * width + width ≤ len := by
  have hmul : (i + 1) * width ≤ n * width := Nat.mul_le_mul_right _ h
  rw [Nat.succ_mul] at hmul
  omega

namespace Index

/-- The arrays of the index are inside its bytes. -/
structure Framed (index : Index) (locationCount : Nat) : Prop where
  intro ::
  descEnd : index.descOff + index.entries * descLen ≤ index.bytes.length
  locsEnd : index.locsOff + locationCount * locLen ≤ index.bytes.length
  wildEnd : index.wildOff + index.wildN * wildLen ≤ index.bytes.length

/-- The numbers of location `k`. -/
def locAt (index : Index) (k : Nat) : Nat × Nat :=
  (leNat (slice index.bytes (index.locsOff + k * locLen) 4),
    leNat (slice index.bytes (index.locsOff + k * locLen + 4) 8))

/-- A descriptor and its anchor, as an entry. -/
def entryOf (index : Index) (d : Desc × Str) : Str × List (Nat × Nat) :=
  (d.2, (List.range' d.1.location d.1.count).map index.locAt)

/-- Descriptor `i` is read, with its anchor, and its locations are among those of the index. -/
structure Describes (index : Index) (locationCount i : Nat) (d : Desc × Str) : Prop where
  intro ::
  desc : index.desc i = .ok d.1
  anchor : index.anchor i = .ok (encode d.2)
  locations : d.1.location + d.1.count ≤ locationCount

/-- What the loop over the descriptors has seen from `i` on, when it ends with `total` wildcards. -/
structure Accepted (index : Index) (locationCount i : Nat) (previous : Option (List UInt8)) (wildcard total : Nat)
    (ds : List (Desc × Str)) : Prop where
  intro ::
  described : ∀ j d, ds[j]? = some d → index.Describes locationCount (i + j) d
  above : ∀ value ∈ previous, ∀ d ∈ ds, byteKey value < anchorKey d.2
  sorted : Sorted (ds.map index.entryOf)
  count : total = wildcard + (wildIndices i (ds.map index.entryOf)).length
  wild : ∀ k x, (wildIndices i (ds.map index.entryOf))[k]? = some x → index.wild (wildcard + k) = .ok x

theorem Accepted.nil (index : Index) (locationCount i : Nat) (previous : Option (List UInt8)) (wildcard : Nat) :
    index.Accepted locationCount i previous wildcard wildcard [] where
  described := by simp
  above := by simp
  sorted := List.Pairwise.nil
  count := rfl
  wild := by simp [wildIndices]

/-- One more descriptor in front. -/
theorem Accepted.cons {index : Index} {locationCount i wildcard total : Nat} {previous : Option (List UInt8)}
    {d : Desc × Str} {ds : List (Desc × Str)} (hd : index.Describes locationCount i d)
    (habove : ∀ value ∈ previous, byteKey value < anchorKey d.2)
    (hwild : hasWildcard d.2 = true → index.wild wildcard = .ok i)
    (h : index.Accepted locationCount (i + 1) (some (encode d.2)) (wildcard + if hasWildcard d.2 then 1 else 0) total
      ds) :
    index.Accepted locationCount i previous wildcard total (d :: ds) := by
  have hlater : ∀ e ∈ ds, anchorKey d.2 < anchorKey e.2 := h.above _ rfl
  have hidx : wildIndices i ((d :: ds).map index.entryOf) =
      (if hasWildcard d.2 then [i] else []) ++ wildIndices (i + 1) (ds.map index.entryOf) := rfl
  refine ⟨?_, ?_, ?_, ?_, ?_⟩
  · intro j e hj
    cases j with
    | zero =>
      obtain rfl : d = e := by simpa using hj
      exact hd
    | succ j =>
      have := h.described j e (by simpa using hj)
      rwa [Nat.add_assoc, Nat.add_comm 1] at this
  · intro value hv e he
    rcases List.mem_cons.1 he with rfl | he
    · exact habove value hv
    · exact (habove value hv).trans (hlater e he)
  · refine List.pairwise_cons.2 ⟨fun e he => ?_, h.sorted⟩
    obtain ⟨d', hd', rfl⟩ := List.mem_map.1 he
    exact hlater d' hd'
  · rw [hidx, h.count, List.length_append]
    split <;> simp [Nat.add_assoc]
  · intro k x hx
    rw [hidx] at hx
    by_cases hw : hasWildcard d.2 = true
    · rw [if_pos hw] at hx
      cases k with
      | zero =>
        obtain rfl : i = x := by simpa using hx
        exact hwild hw
      | succ k =>
        have := h.wild k x (by simpa using hx)
        rwa [if_pos hw, Nat.add_assoc, Nat.add_comm 1] at this
    · rw [if_neg hw, List.nil_append] at hx
      have := h.wild k x hx
      rwa [if_neg hw, Nat.add_zero] at this

namespace Framed

variable {index : Index} {locationCount : Nat}

theorem desc_ok (h : index.Framed locationCount) {i : Nat} (hi : i < index.entries) : ∃ d, index.desc i = .ok d := by
  have hend := element_le hi h.descEnd
  simp only [descLen] at hend
  rw [Index.desc, rdU32_ok (by simp only [descLen]; omega), rdU32_ok (by simp only [descLen]; omega),
    rdU32_ok (by simp only [descLen]; omega), rdU32_ok (by simp only [descLen]; omega)]
  exact ⟨_, rfl⟩

theorem wild_ok (h : index.Framed locationCount) {k : Nat} (hk : k < index.wildN) : ∃ i, index.wild k = .ok i := by
  have hend := element_le hk h.wildEnd
  simp only [wildLen] at hend
  rw [Index.wild, rdU32_ok (by simp only [wildLen]; omega)]
  exact ⟨_, rfl⟩

theorem read_locAt (h : index.Framed locationCount) {k : Nat} (hk : k < locationCount) :
    rdU32 index.bytes (index.locsOff + k * locLen) = .ok (index.locAt k).1 ∧
      rdU64 index.bytes (index.locsOff + k * locLen + 4) = .ok (index.locAt k).2 := by
  have hend := element_le hk h.locsEnd
  simp only [locLen] at hend ⊢
  exact ⟨rdU32_ok (by omega), rdU64_ok (by omega)⟩

/-- A run of locations is read. -/
theorem locations_ok (h : index.Framed locationCount) (n : Nat) : ∀ first, first + n ≤ locationCount →
    index.locations n first = .ok (((List.range' first n).map index.locAt).filterMap (resolve index.files)) := by
  induction n with
  | zero => intros; rfl
  | succ n ih =>
    intro first hle
    obtain ⟨h0, h4⟩ := h.read_locAt (k := first) (by omega)
    rw [Index.locations, List.range'_succ]
    simp only [h0, h4, ih (first + 1) (by omega), Except.bind, bind, List.map_cons, List.filterMap_cons, resolve]
    cases index.files[(index.locAt first).1]? <;> rfl

/-! ## Validation -/

/-- An accepted descriptor has an anchor inside the bytes. -/
theorem anchor_ok {i : Nat} {d : Desc} (hd : index.desc i = .ok d) (hlen : d.offset + d.length ≤ index.bytes.length) :
    ∃ a, index.anchor i = .ok a := by
  rw [Index.anchor, hd]
  exact ⟨_, rdSlice_ok (by omega) hlen⟩

/-- The loop over the descriptors ends, and what it accepts is described entries that ascend. -/
theorem validateDescs_spec (h : index.Framed locationCount) (anchOff n : Nat) : ∀ i previous wildcard,
    i + n ≤ index.entries → ∃ r, index.validateDescs anchOff locationCount n i previous wildcard = .ok r ∧
      ∀ total, r = some total → ∃ ds, ds.length = n ∧ index.Accepted locationCount i previous wildcard total ds := by
  induction n with
  | zero =>
    intro i previous wildcard _
    refine ⟨some wildcard, rfl, fun total ht => ⟨[], rfl, ?_⟩⟩
    cases ht
    exact Accepted.nil index locationCount i previous wildcard
  | succ n ih =>
    intro i previous wildcard hle
    have hrefused : ∀ {p : List (Desc × Str) → Nat → Prop}, ∃ r : Option Nat,
        (Except.ok none : Except Fault (Option Nat)) = .ok r ∧ ∀ total, r = some total → ∃ ds, p ds total :=
      ⟨none, rfl, fun total ht => by cases ht⟩
    obtain ⟨d, hd⟩ := h.desc_ok (i := i) (by omega)
    rw [Index.validateDescs]
    simp only [hd, bind, Except.bind]
    by_cases hr : d.offset < anchOff ∨ d.offset + d.length > index.bytes.length ∨ d.location + d.count > locationCount
    · rw [if_pos hr]
      exact hrefused
    rw [if_neg hr]
    obtain ⟨a, ha⟩ := anchor_ok hd (by omega)
    simp only [ha]
    cases hu : fromUtf8 a with
    | none => exact hrefused
    | some text =>
      obtain rfl := fromUtf8_eq_some.1 hu
      have hdesc : index.Describes locationCount i (d, text) := ⟨hd, ha, by simp only; omega⟩
      dsimp only
      split
      · exact hrefused
      rename_i hprev
      have habove : ∀ value ∈ previous, byteKey value < anchorKey text := by
        rintro value rfl
        simpa [anchorKey] using hprev
      split
      · rename_i hw
        split
        · exact hrefused
        rename_i hlt
        obtain ⟨w, hwild⟩ := h.wild_ok (not_le.1 hlt)
        simp only [hwild]
        split
        · exact hrefused
        rename_i hwi
        obtain rfl : w = i := not_not.1 hwi
        obtain ⟨r, hr, hall⟩ := ih (w + 1) (some (encode text)) (wildcard + 1) (by omega)
        refine ⟨r, hr, fun total ht => ?_⟩
        obtain ⟨ds, hlen, hacc⟩ := hall total ht
        exact ⟨(d, text) :: ds, by simp [hlen], Accepted.cons hdesc habove (fun _ => hwild) (by simpa [hw] using hacc)⟩
      · rename_i hw
        obtain ⟨r, hr, hall⟩ := ih (i + 1) (some (encode text)) wildcard (by omega)
        refine ⟨r, hr, fun total ht => ?_⟩
        obtain ⟨ds, hlen, hacc⟩ := hall total ht
        exact ⟨(d, text) :: ds, by simp [hlen],
          Accepted.cons hdesc habove (fun h => absurd h hw) (by simpa [hw] using hacc)⟩

/-- The loop over the locations ends, and accepts them only if all name a file of the table. -/
theorem validateLocs_spec (h : index.Framed locationCount) (n : Nat) : ∀ i, i + n ≤ locationCount →
    ∃ r, index.validateLocs n i = .ok r ∧
      (r = some () → ∀ k, i ≤ k → k < i + n → (index.locAt k).1 < index.files.length) := by
  induction n with
  | zero => exact fun i _ => ⟨some (), rfl, fun _ k hk hlt => by omega⟩
  | succ n ih =>
    intro i hle
    rw [Index.validateLocs, (h.read_locAt (k := i) (by omega)).1]
    simp only [Except.bind, bind]
    split
    · exact ⟨none, rfl, fun he => by cases he⟩
    · rename_i hlt
      obtain ⟨r, hr, hall⟩ := ih (i + 1) (by omega)
      refine ⟨r, hr, fun he k hk hkn => ?_⟩
      rcases Nat.lt_or_eq_of_le hk with hk | rfl
      · exact hall he k hk (by omega)
      · exact not_le.1 hlt

/-- Validation ends, and an index that it accepts reads as ascending entries whose locations name files of the table. -/
theorem validateRecords_spec (h : index.Framed locationCount) (anchOff : Nat) :
    ∃ r, index.validateRecords anchOff locationCount = .ok r ∧ (r = some () → ∃ ds,
      index.Accepted locationCount 0 none 0 index.wildN ds ∧ ds.length = index.entries ∧
        ∀ k, k < locationCount → (index.locAt k).1 < index.files.length) := by
  obtain ⟨r, hr, hall⟩ := h.validateDescs_spec anchOff index.entries 0 none 0 (by omega)
  rw [Index.validateRecords, hr]
  simp only [bind, Except.bind]
  cases r with
  | none => exact ⟨none, rfl, fun he => by cases he⟩
  | some total =>
    obtain ⟨ds, hlen, hacc⟩ := hall total rfl
    dsimp only
    split
    · exact ⟨none, rfl, fun he => by cases he⟩
    · rename_i hw
      obtain ⟨r, hvalid, hlocs⟩ := h.validateLocs_spec locationCount 0 (by omega)
      obtain rfl : total = index.wildN := not_not.1 hw
      exact ⟨r, hvalid, fun he => ⟨ds, hacc, hlen, fun k hk => hlocs he k (by omega) (by omega)⟩⟩

/-- The accepted descriptors are what the index reads as. -/
theorem represents (h : index.Framed locationCount) {ds : List (Desc × Str)} (hlen : ds.length = index.entries)
    (hacc : index.Accepted locationCount 0 none 0 index.wildN ds) :
    Represents index (ds.map index.entryOf) index.files where
  count := by simp [hlen]
  anchor i e he := by
    rw [List.getElem?_map, Option.map_eq_some_iff] at he
    obtain ⟨d, hd, rfl⟩ := he
    have := (hacc.described i d hd).anchor
    rwa [Nat.zero_add] at this
  located i e he := by
    rw [List.getElem?_map, Option.map_eq_some_iff] at he
    obtain ⟨d, hd, rfl⟩ := he
    have hdesc := hacc.described i d hd
    have hread := hdesc.desc
    rw [Nat.zero_add] at hread
    exact ⟨d.1, hread, h.locations_ok d.1.count d.1.location hdesc.locations⟩
  wildN := by
    have := hacc.count
    rwa [Nat.zero_add] at this
  wild k i hk := by
    have := hacc.wild k i hk
    rwa [Nat.zero_add] at this

end Framed

end Index

/-! ## Decoding -/

theorem readHeader_ok {bytes : List UInt8} (h : headerLen ≤ bytes.length) : ∃ hd, readHeader bytes = .ok hd := by
  simp only [headerLen] at h
  have hnum : ∀ pos, pos + 4 ≤ 48 → rdU32 bytes pos = .ok (leNat (slice bytes pos 4)) := fun pos hp =>
    rdU32_ok (hp.trans h)
  simp only [readHeader, hnum 12 (by omega), hnum 16 (by omega), hnum 20 (by omega), hnum 24 (by omega),
    hnum 28 (by omega), hnum 32 (by omega), hnum 36 (by omega), hnum 40 (by omega), bind, Except.bind]
  exact ⟨_, rfl⟩

/-- The file table is read in front of `wildOff`. -/
theorem decodeFiles_ok {bytes : List UInt8} {wildOff : Nat} (h : wildOff ≤ bytes.length) (n : Nat) :
    ∀ pos, ∃ r, decodeFiles bytes wildOff n pos = .ok r := by
  induction n with
  | zero => exact fun pos => ⟨_, rfl⟩
  | succ n ih =>
    intro pos
    rw [decodeFiles]
    dsimp only
    split
    · exact ⟨_, rfl⟩
    rw [rdU32_ok (by omega)]
    simp only [bind, Except.bind]
    split
    · exact ⟨_, rfl⟩
    rw [rdSlice_ok (by omega) (by omega)]
    dsimp only
    split
    · exact ⟨_, rfl⟩
    obtain ⟨r, hr⟩ := ih (pos + 4 + leNat (slice bytes pos 4))
    rw [hr]
    cases r <;> exact ⟨_, rfl⟩

/-- The arrays of a header that is not refused are inside the bytes. -/
theorem framed_of_header {bytes : List UInt8} {h : IndexHeader} (hr : ¬ h.Refused bytes.length) (files : List PathBuf) :
    Index.Framed { bytes, files, entries := h.entries, descOff := h.descOff, locsOff := h.locsOff, wildOff := h.wildOff,
                   wildN := h.wildN } ((h.filesOff - h.locsOff) / locLen) := by
  simp only [IndexHeader.Refused, not_or, not_not, not_lt] at hr
  obtain ⟨_, hdesc, hlocs, hmod, hfiles, hwild, hanch, _⟩ := hr
  have hdiv := Nat.div_mul_cancel (Nat.dvd_of_mod_eq_zero hmod)
  exact ⟨by simp only; omega, by simp only; omega, by simp only; omega⟩

/-- What `decode` accepts: an index whose arrays are inside its bytes, and the descriptors it holds. -/
structure ValidIndex (bytes : List UInt8) (index : Index) (locationCount : Nat) (ds : List (Desc × Str)) : Prop where
  intro ::
  bytes : index.bytes = bytes
  framed : index.Framed locationCount
  length : ds.length = index.entries
  accepted : index.Accepted locationCount 0 none 0 index.wildN ds
  inTable : ∀ k, k < locationCount → (index.locAt k).1 < index.files.length

/-- `decode` reads nothing out of range, and accepts only what is validated. -/
theorem decode_spec (bytes : List UInt8) : ∃ r, decode bytes = .ok r ∧
    ∀ index, r = some index → ∃ locationCount ds, ValidIndex bytes index locationCount ds := by
  have hnone : ∃ r : Option Index, (Except.ok none : Except Fault (Option Index)) = .ok r ∧
      ∀ index, r = some index → ∃ locationCount ds, ValidIndex bytes index locationCount ds :=
    ⟨none, rfl, fun index h => by cases h⟩
  rw [decode]
  split
  · exact hnone
  rename_i hmagic
  have hlen : headerLen ≤ bytes.length := not_lt.1 (not_or.1 hmagic).1
  have h8 : 8 + 4 ≤ bytes.length := le_trans (by decide) hlen
  obtain ⟨hd, hread⟩ := readHeader_ok hlen
  simp only [rdU32_ok h8, hread, bind, Except.bind]
  split
  · exact hnone
  split
  · exact hnone
  rename_i hr
  have hwild : hd.wildOff ≤ bytes.length := by
    simp only [IndexHeader.Refused, not_or, not_not, not_lt] at hr
    omega
  obtain ⟨r, hfiles⟩ := decodeFiles_ok hwild hd.fileCount hd.filesOff
  rw [hfiles]
  cases r with
  | none => exact hnone
  | some found =>
    obtain ⟨files, pos⟩ := found
    dsimp only
    split
    · exact hnone
    have hframed := framed_of_header hr files
    obtain ⟨r, hvalid, hall⟩ := hframed.validateRecords_spec hd.anchOff
    rw [hvalid]
    cases r with
    | none => exact hnone
    | some u =>
      obtain ⟨ds, hacc, hds, htable⟩ := hall rfl
      refine ⟨_, rfl, fun index he => ?_⟩
      cases he
      exact ⟨_, ds, rfl, hframed, hds, hacc, htable⟩

/-! ## Lookups -/

/-- The location is stored under a descriptor of the index whose anchor this is, and its file is in the table. -/
structure Index.Holds (index : Index) (anchor : Str) (loc : Location) : Prop where
  intro ::
  stored : ∃ i d k n, i < index.entries ∧ index.desc i = .ok d ∧ index.anchor i = .ok (encode anchor) ∧
    d.location ≤ k ∧ k < d.location + d.count ∧ rdU32 index.bytes (index.locsOff + k * locLen) = .ok n ∧
    index.files[n]? = some loc.file ∧ rdU64 index.bytes (index.locsOff + k * locLen + 4) = .ok loc.offset

namespace ValidIndex

variable {bytes : List UInt8} {index : Index} {locationCount : Nat} {ds : List (Desc × Str)}

/-- A location of an entry is stored under its descriptor. -/
theorem holds (h : ValidIndex bytes index locationCount ds) {e : Str × List (Nat × Nat)}
    (he : e ∈ ds.map index.entryOf) {loc : Location} (hloc : loc ∈ e.2.filterMap (resolve index.files)) :
    index.Holds e.1 loc := by
  obtain ⟨d, hd, rfl⟩ := List.mem_map.1 he
  obtain ⟨i, hi⟩ := List.mem_iff_getElem?.1 hd
  obtain ⟨hdesc, hanchor, hcount⟩ := h.accepted.described i d hi
  rw [Nat.zero_add] at hdesc hanchor
  obtain ⟨pair, hpair, hres⟩ := List.mem_filterMap.1 hloc
  obtain ⟨k, hk, rfl⟩ := List.mem_map.1 hpair
  rw [List.mem_range'_1] at hk
  obtain ⟨h0, h4⟩ := h.framed.read_locAt (k := k) (by omega)
  obtain ⟨file, hfile, rfl⟩ := Option.map_eq_some_iff.1 hres
  have hlt : i < index.entries := h.length ▸ (List.getElem?_eq_some_iff.1 hi).1
  exact ⟨i, d.1, k, _, hlt, hdesc, hanchor, hk.1, hk.2, h0, hfile, h4⟩

/-- Each location that is collected is of an entry that the query selects. -/
theorem collected (h : ValidIndex bytes index locationCount ds) {p : Str → Prop} {idxs : List Nat}
    (hsel : Selects (ds.map index.entryOf) p idxs) : ∀ loc ∈ (entriesAt (ds.map index.entryOf) idxs).flatMap
      (fun e => e.2.filterMap (resolve index.files)), ∃ a, index.Holds a loc ∧ p a := by
  intro loc hloc
  obtain ⟨e, he, hloc⟩ := List.mem_flatMap.1 hloc
  obtain ⟨hmem, hp⟩ := hsel.mem_entriesAt.1 he
  exact ⟨e.1, h.holds hmem hloc, hp⟩

/-- Every location of a descriptor names a file of the table. -/
theorem file_lt (h : ValidIndex bytes index locationCount ds) {i k : Nat} {d : Desc} (hi : i < index.entries)
    (hd : index.desc i = .ok d) (hk : d.location ≤ k) (hlt : k < d.location + d.count) :
    ∃ n, rdU32 index.bytes (index.locsOff + k * locLen) = .ok n ∧ n < index.files.length := by
  have he := List.getElem?_eq_getElem (h.length ▸ hi : i < ds.length)
  obtain ⟨hdesc, _, hcount⟩ := h.accepted.described i _ he
  rw [Nat.zero_add, hd] at hdesc
  cases hdesc
  have hin : k < locationCount := by omega
  exact ⟨_, (h.framed.read_locAt hin).1, h.inTable k hin⟩

end ValidIndex

/-- `decode` reads nothing out of range. In an index that it gives, each location of a descriptor names a file of the
table, and the lookups read nothing out of range: each location that they return is stored under an anchor that is the
query or matches it. -/
theorem lookups_sound (bytes : List UInt8) : ∃ r, decode bytes = .ok r ∧ ∀ index, r = some index →
    (∀ i d k, i < index.entries → index.desc i = .ok d → d.location ≤ k → k < d.location + d.count →
      ∃ n, rdU32 index.bytes (index.locsOff + k * locLen) = .ok n ∧ n < index.files.length) ∧
    ∀ q : Str,
      (∃ found, index.lookupExact q = .ok found ∧
        ∀ loc ∈ found, ∃ a, index.Holds a loc ∧ (a = q ∨ matchesExact a q = true)) ∧
      ∃ found, index.lookupKey q = .ok found ∧ ∀ loc ∈ found, ∃ a, index.Holds a loc ∧ matchesUnderKey a q = true := by
  obtain ⟨r, hr, hall⟩ := decode_spec bytes
  refine ⟨r, hr, fun index he => ?_⟩
  obtain ⟨locationCount, ds, h⟩ := hall index he
  have hrep := h.framed.represents h.length h.accepted
  refine ⟨fun i d k hi hd hk hlt => h.file_lt hi hd hk hlt, fun q => ⟨?_, ?_⟩⟩
  · obtain ⟨idxs, hsel, hl⟩ := hrep.lookupExact_spec h.accepted.sorted q
    exact ⟨_, hl, h.collected hsel⟩
  · obtain ⟨idxs, hsel, hl⟩ := hrep.lookupKey_spec h.accepted.sorted q
    exact ⟨_, hl, h.collected hsel⟩

/-- A lookup returns the location of an anchor that is spelled like the query and does not match it. -/
theorem lookups_unmatched :
    ¬ ∀ bytes index, decode bytes = .ok (some index) → ∀ (q : Str) found, index.lookupExact q = .ok found →
      ∀ loc ∈ found, ∃ a, index.Holds a loc ∧ matchesExact a q = true := by
  intro h
  have hw : decode (serialize spacedEntries ["f".toList]) = .ok (some (writtenIndex spacedEntries ["f".toList])) := by
    decide +kernel
  have hone : (writtenIndex spacedEntries ["f".toList]).lookupExact "<a b>".toList = .ok [⟨encode "f".toList, 0⟩] := by
    decide +kernel
  obtain ⟨a, hholds, hmatch⟩ := h _ _ hw _ _ hone _ List.mem_cons_self
  obtain ⟨i, d, k, n, hi, _, hanchor, _⟩ := hholds.stored
  have hcount : (writtenIndex spacedEntries ["f".toList]).entries = 1 := rfl
  obtain rfl : i = 0 := by omega
  have hfirst : (writtenIndex spacedEntries ["f".toList]).anchor 0 = .ok (encode "<a b>".toList) := by decide +kernel
  rw [hfirst] at hanchor
  obtain rfl : "<a b>".toList = a := encode_injective (Except.ok.inj hanchor)
  exact absurd hmatch (by decide +kernel)

end Peiosutils.Regman
