import Peiosutils.Part.Placement

/-!
# What editing a table keeps of the other slots

A slot of a table from disk comes back byte for byte, after any calls that do not name it, exactly when its name field
is a text: UTF-16 without unpaired surrogates up to the first zero unit, and zeros behind it (`slot_kept_iff`).
-/

set_option autoImplicit false

namespace Peiosutils.Part

open ByteStore CallRun

namespace GptEntry

/-! ## One entry -/

/-- The name field of the entry is a text and the padding that reading it expects. -/
def NameIsText (b : List UInt8) : Prop :=
  Utf16.wellFormed (parseUnits b) = true ∧ ∀ u ∈ (nameUnits b).dropWhile (· ≠ 0), u = 0

instance (b : List UInt8) : Decidable (NameIsText b) := inferInstanceAs (Decidable (_ ∧ _))

/-- An entry that was read has the fields of its bytes. -/
theorem fields_of_parse {b : List UInt8} {e : GptEntry} (h : parse b = some e) : 128 ≤ b.length ∧
    e.typeGuid.bytes = slice b 0 16 ∧ e.uniqueGuid.bytes = slice b 16 16 ∧ u64le e.startingLba = slice b 32 8 ∧
      u64le e.endingLba = slice b 40 8 ∧ u64le e.attributes = slice b 48 8 ∧
      e.units = Utf16.encode (Utf16.decodeLossy (parseUnits b)) := by
  rw [parse] at h
  split at h
  · cases h
  · rename_i hl
    have hlen : ∀ off n, off + n ≤ 128 → (slice b off n).length = n := fun off n _ => length_slice_of_le (by omega)
    rw [Guid.fromBytes_eq_some (hlen 0 16 (by omega)), Guid.fromBytes_eq_some (hlen 16 16 (by omega))] at h
    simp only [Option.bind_eq_bind, Option.bind_some, Option.pure_def, Option.some.injEq] at h
    subst h
    refine ⟨by omega, rfl, rfl, u64le_ofLe64 (hlen 32 8 (by omega)), u64le_ofLe64 (hlen 40 8 (by omega)),
      u64le_ofLe64 (hlen 48 8 (by omega)), ?_⟩
    rw [units, String.toList_ofList]

/-- A unit of the name field. -/
theorem u16le_nameUnits {b : List UInt8} (hb : 128 ≤ b.length) {i : Nat} (hi : i < NAME_UNITS) :
    (nameUnits b)[i]?.map u16le = some (slice b (56 + i * 2) 2) := by
  have hl : (slice b (56 + i * 2) 2).length = 2 := length_slice_of_le (by rw [NAME_UNITS] at hi; omega)
  rw [nameUnits, List.getElem?_map, List.getElem?_range hi, Option.map_some, Option.map_some, u16le_ofLe16 hl]

/-- Entries with the same fields and the same name units are the same. -/
theorem slice_eq_of_fields {b b' : List UInt8} (hb : 128 ≤ b.length) (hb' : 128 ≤ b'.length)
    (h₀ : slice b 0 16 = slice b' 0 16) (h₁ : slice b 16 16 = slice b' 16 16) (h₂ : slice b 32 8 = slice b' 32 8)
    (h₃ : slice b 40 8 = slice b' 40 8) (h₄ : slice b 48 8 = slice b' 48 8) (hn : nameUnits b = nameUnits b') :
    slice b 0 128 = slice b' 0 128 := by
  apply slice_congr
  intro i _ hi
  rcases Nat.lt_or_ge i 56 with hlt | hge
  · -- the five fields in front of the name
    by_cases i₀ : i < 16
    · exact getElem?_of_slice_eq h₀ (by omega) (by omega)
    by_cases i₁ : i < 32
    · exact getElem?_of_slice_eq h₁ (by omega) (by omega)
    by_cases i₂ : i < 40
    · exact getElem?_of_slice_eq h₂ (by omega) (by omega)
    by_cases i₃ : i < 48
    · exact getElem?_of_slice_eq h₃ (by omega) (by omega)
    · exact getElem?_of_slice_eq h₄ (by omega) (by omega)
  · have hu : (i - 56) / 2 < NAME_UNITS := by rw [NAME_UNITS]; omega
    have hunit : slice b (56 + (i - 56) / 2 * 2) 2 = slice b' (56 + (i - 56) / 2 * 2) 2 := by
      rw [← Option.some.injEq, ← u16le_nameUnits hb hu, ← u16le_nameUnits hb' hu, hn]
    exact getElem?_of_slice_eq hunit (by omega) (by omega)

/-- The name units are in the bytes. -/
theorem nameUnits_congr {b b' : List UInt8} (h : slice b 0 128 = slice b' 0 128) : nameUnits b = nameUnits b' := by
  apply List.map_congr_left
  intro i hi
  rw [List.mem_range, NAME_UNITS] at hi
  have hs : slice b (56 + i * 2) 2 = slice b' (56 + i * 2) 2 :=
    slice_congr fun j hj hj' => getElem?_of_slice_eq h (by omega) (by omega)
  rw [hs]

/-- The units in front of zeros are those up to the first zero. -/
theorem takeWhile_append_zeros {us zs : List UInt16} (hus : (0 : UInt16) ∉ us) (hzs : ∀ z ∈ zs, z = 0) :
    (us ++ zs).takeWhile (· ≠ 0) = us := by
  have hne : ∀ u ∈ us, decide (u ≠ 0) = true := by
    intro u hu
    exact decide_eq_true fun h0 => hus (h0 ▸ hu)
  rw [List.takeWhile_append_of_pos hne]
  cases zs with
  | nil => simp
  | cons z zs => simp [hzs z (by simp)]

/-- An entry that was read is written back as its bytes exactly when its name field is a text. -/
theorem toBytes_of_parse {b : List UInt8} {e : GptEntry} (h : parse b = some e) :
    e.toBytes = slice b 0 128 ↔ NameIsText b := by
  obtain ⟨hb, h₀, h₁, h₂, h₃, h₄, hunits⟩ := fields_of_parse h
  obtain ⟨t₀, t₁, t₂, t₃, t₄⟩ := slice_toBytes_fields e
  have hself : slice e.toBytes 0 128 = e.toBytes := by rw [slice_zero, List.take_of_length_le (by simp)]
  -- only the name can differ
  have hbytes : e.toBytes = slice b 0 128 ↔ nameUnits e.toBytes = nameUnits b := by
    constructor
    · intro hes
      exact nameUnits_congr (hself.trans hes)
    · intro hn
      rw [← hself]
      exact slice_eq_of_fields (by simp) hb (t₀.trans h₀) (t₁.trans h₁) (t₂.trans h₂) (t₃.trans h₃) (t₄.trans h₄) hn
  have h0 : (0 : UInt16) ∉ parseUnits b := fun h0 => by simpa using List.mem_takeWhile_imp h0
  have hfits := (storable_of_parse h).fits
  have hdrop : nameUnits b = parseUnits b ++ (nameUnits b).dropWhile (· ≠ 0) := List.takeWhile_append_dropWhile.symm
  rw [hbytes, nameUnits_toBytes, List.take_of_length_le hfits]
  -- neither the text nor the units that were read have a zero, so the first zero splits both fields
  have hunits0 : (0 : UInt16) ∉ e.units := by
    rw [hunits]
    exact Utf16.zero_notMem_encode (Utf16.nul_notMem_decodeLossy h0)
  have hlen : (nameUnits b).length = NAME_UNITS := by simp [nameUnits]
  constructor
  · intro heq
    have htext : e.units = parseUnits b := by
      rw [← takeWhile_append_zeros hunits0 (fun z hz => (List.mem_replicate.1 hz).2), heq, parseUnits_eq]
    refine ⟨(Utf16.encode_decodeLossy_iff _).1 (hunits.symm.trans htext), ?_⟩
    rw [htext, hdrop] at heq
    rw [← List.append_cancel_left heq]
    exact fun u hu => (List.mem_replicate.1 hu).2
  · rintro ⟨hwf, hzero⟩
    have htext : e.units = parseUnits b := hunits.trans ((Utf16.encode_decodeLossy_iff _).2 hwf)
    have hrest : (nameUnits b).dropWhile (· ≠ 0) = List.replicate (NAME_UNITS - (parseUnits b).length) 0 := by
      refine List.eq_replicate_iff.2 ⟨?_, hzero⟩
      have := congrArg List.length hdrop
      rw [List.length_append, hlen] at this
      omega
    rw [hdrop, htext, hrest]

end GptEntry

/-! ## Any calls -/

/-- The slot that a call changes in a table. -/
def Call.slot (g : Gpt) (c : Call) : Option Nat :=
  match c, (c.eval g).1 with
  | .add _ _ _ _ _, .ok (some index) => some (index - 1)
  | .add _ _ _ _ _, _ => none
  | .remove index, _ => if index = 0 then none else some (index - 1)

/-- A call keeps the entry of every other slot. -/
theorem Call.eval_getElem? {g : Gpt} {c : Call} {i : Nat} (h : c.slot g ≠ some i) :
    (c.eval g).2.entries[i]? = g.entries[i]? := by
  cases c with
  | add sectors typeGuid name unique random =>
    rcases Gpt.add_cases g sectors typeGuid name unique random with ⟨err, ha, -⟩ | ⟨slot, chosen, -, -, -, ha⟩
    · simp [eval, ha]
    · simp only [Call.slot, eval, ha, Except.map, Nat.add_sub_cancel, ne_eq, Option.some.injEq] at h ⊢
      exact List.getElem?_set_ne h
  | remove index =>
    rcases Gpt.remove_cases g index with ⟨err, hr⟩ | ⟨e, hpos, -, -, hr⟩
    · simp [eval, hr]
    · rw [Call.slot, if_neg (by omega), ne_eq, Option.some.injEq] at h
      simp only [eval, hr]
      exact List.getElem?_set_ne h

namespace Gpt

/-- Calls that do not name a slot keep its entry and the shape of the table. -/
theorem run_getElem? {g₀ : Gpt} {i : Nat} {calls : List Call}
    (h : Along Call.eval (fun g c => Call.slot g c ≠ some i) calls g₀) :
    ∃ es, run Call.eval calls g₀ = { g₀ with entries := es } ∧ es.length = g₀.entries.length ∧
      es[i]? = g₀.entries[i]? := by
  refine run_invariant (fun g c => Call.slot g c ≠ some i) (fun g => ∃ es, g = { g₀ with entries := es } ∧
    es.length = g₀.entries.length ∧ es[i]? = g₀.entries[i]?) ?_ ⟨g₀.entries, rfl, rfl, rfl⟩ h
  rintro g c ⟨es, rfl, hl, hes⟩ hc
  obtain ⟨es', h', hl', -⟩ := c.eval_entries { g₀ with entries := es }
  refine ⟨es', h', hl'.trans hl, ?_⟩
  have hkeep := Call.eval_getElem? hc
  rw [h'] at hkeep
  exact hkeep.trans hes

/-- The entries of a table from disk are read from the strides of its array. -/
theorem getElem?_of_parse {crc32 : List UInt8 → UInt32} {diskSectors : UInt64} {sectorSize : Nat}
    {headerSector entryBytes : List UInt8} {g : Gpt}
    (h : parse crc32 diskSectors sectorSize headerSector entryBytes = .ok g) {i : Nat} (hi : i < g.numEntries.toNat) :
    ∃ e, g.entries[i]? = some e ∧
      GptEntry.parse (slice entryBytes (i * g.entrySize.toNat) g.entrySize.toNat) = some e := by
  obtain ⟨hd, -, -, -, -, hes, hg⟩ := parse_eq_ok.1 h
  have hn : hd.numEntries = g.numEntries := by rw [← hg]; rfl
  have hsz : hd.entrySize = g.entrySize := by rw [← hg]; rfl
  rw [hn, hsz] at hes
  have hlt : i < g.entries.length := (geometry_of_parse h).length.symm ▸ hi
  have hget := congrArg (·[i]?) (parseEntries_eq_ok.1 hes)
  simp only [List.getElem?_map, List.getElem?_range' hi, Option.map_some, Nat.zero_add, Nat.one_mul,
    List.getElem?_eq_getElem hlt] at hget
  refine ⟨g.entries[i], List.getElem?_eq_getElem hlt, ?_⟩
  rw [← Option.some.injEq, ← hget]
  have hmul := Nat.mul_le_mul_right g.entrySize.toNat (show i + 1 ≤ g.numEntries.toNat by omega)
  rw [Nat.succ_mul] at hmul
  congr 2
  apply slice_congr
  intro j _ hj
  rw [List.getElem?_take_of_lt (by omega)]

/-- Calls on a table from disk that do not name a slot write its 128 bytes back exactly when its name field is a
text. -/
theorem slot_kept_iff {crc32 : List UInt8 → UInt32} {diskSectors : UInt64} {sectorSize : Nat}
    {headerSector entryBytes : List UInt8} {g : Gpt}
    (h : parse crc32 diskSectors sectorSize headerSector entryBytes = .ok g) {i : Nat} (hi : i < g.numEntries.toNat)
    {calls : List Call} (hc : Along Call.eval (fun g c => Call.slot g c ≠ some i) calls g) :
    slice (run Call.eval calls g).entryArray (i * g.entrySize.toNat) 128 =
        slice entryBytes (i * g.entrySize.toNat) 128 ↔
      GptEntry.NameIsText (slice entryBytes (i * g.entrySize.toNat) g.entrySize.toNat) := by
  have hgeo := geometry_of_parse h
  obtain ⟨e, he, hparse⟩ := getElem?_of_parse h hi
  obtain ⟨es, hrun, hl, hes⟩ := run_getElem? hc
  have hgeo' : Geometry { g with entries := es } := hgeo.of_entries hl
  have hslice : slice (run Call.eval calls g).entryArray (i * g.entrySize.toNat) 128 = e.toBytes := by
    rw [hrun]
    exact slice_entryArray hgeo' (hes.trans he)
  have hstride := hgeo.stride_le
  rw [hslice, ← GptEntry.toBytes_of_parse hparse, slice_slice _ (by omega), Nat.add_zero]

/-- The first slot, after a second partition is added. -/
theorem slot_kept_iff_outside :
    slice (run Call.eval [.add (some 8) someType "data" none .ZERO] outsideTable).entryArray (0 * 128) 128 =
        slice outsideBytes.2 (0 * 128) 128 ↔ GptEntry.NameIsText (slice outsideBytes.2 (0 * 128) 128) :=
  slot_kept_iff parse_outsideBytes (i := 0) (by decide) ⟨by decide +kernel, trivial⟩

/-- A table with one partition, whose name was read with a replacement character. -/
def lossyTable : Gpt :=
  { outsideTable with entries := [{ typeGuid := someType, startingLba := 2048, endingLba := 4095,
                                    name := String.singleton Utf16.replacement }, default] }

/-- The array it was read from: the name is a high surrogate alone. -/
def lossyArray : List UInt8 := patch lossyTable.paddedArray 56 (u16le 0xD800)

/-- The header sector in front of it. -/
def lossyHeader : List UInt8 := (lossyTable.headerFor true (isoHdlc (lossyArray.take 256))).toSector isoHdlc 512

/-- The unmodified table does not write the surrogate back. -/
theorem lossyTable_rewritten : parse isoHdlc 8192 512 lossyHeader lossyArray = .ok lossyTable ∧
    slice (run Call.eval [] lossyTable).entryArray (0 * 128) 128 ≠ slice lossyArray (0 * 128) 128 := by
  have hg : lossyTable.Geometry := by constructor <;> decide
  refine ⟨parse_eq_ok.2 ⟨_, parse_headerFor hg isoHdlc true _, placed_headerFor hg _, by decide +kernel, rfl, ?_, rfl⟩, ?_⟩
  · decide +kernel
  · decide +kernel

end Gpt

end Peiosutils.Part
