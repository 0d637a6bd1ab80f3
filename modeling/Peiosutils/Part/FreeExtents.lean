import Peiosutils.Lib.Sweep
import Peiosutils.Part.Gpt

/-!
# The free runs of a table

`free_extents` over natural numbers: its extents, as half-open runs, are the holes of a cursor sweep over the used
ranges (`map_freeExtents`). `Fits` says when a run of sectors is free for a partition. `Candidate` says what
`free_extents` takes for free: the same, except that a rounding that leaves the 64-bit range is lost, and that a run
in front of a used entry need not end by the last usable sector.

Every extent is a candidate (`candidate_of_mem`), every candidate lies in an extent (`exists_mem_of_candidate`), and a
candidate that does not fit starts behind every run of its size that does (`Candidate.lt_of_fits`).
-/

set_option autoImplicit false

namespace Peiosutils.Part

open Word64 ListChoice CursorSweep

theorem toNat_alignUp {v a : UInt64} (ha : 0 < a.toNat) :
    (alignUp v a).toNat = roundUp v.toNat a.toNat % 2 ^ 64 := by
  rw [alignUp, UInt64.toNat_mul, toNat_divCeil ha, roundUp]

/-- The extent as a half-open run. -/
def FreeExtent.hole (f : FreeExtent) : Nat × Nat := (f.start.toNat, f.stop.toNat + 1)

theorem FreeExtent.toNat_sectors (f : FreeExtent) :
    f.sectors.toNat = (f.stop.toNat - f.start.toNat + 1) % 2 ^ 64 := by
  rw [sectors, UInt64.toNat_add, toNat_saturatingSub, UInt64.toNat_one]

namespace Gpt

/-! ## Alignment -/

/-- The alignment in sectors. -/
def align (g : Gpt) : Nat := (alignSectors g.sectorSize).toNat

theorem align_pos (g : Gpt) : 0 < g.align := by
  rw [align, alignSectors, toNat_max, UInt64.toNat_one]
  omega

/-- Rounding `v` up to the alignment leaves the 64-bit range. -/
def Wraps (g : Gpt) (v : Nat) : Prop := 2 ^ 64 ≤ roundUp v g.align

instance (g : Gpt) (v : Nat) : Decidable (g.Wraps v) := inferInstanceAs (Decidable (_ ≤ _))

/-- No rounding that `free_extents` makes leaves the 64-bit range. -/
structure NoWrap (g : Gpt) : Prop where
  first : ¬ g.Wraps g.firstUsableLba.toNat
  used : ∀ e ∈ g.entries, e.isUsed → ¬ g.Wraps (e.endingLba.toNat + 1)

instance (g : Gpt) : Decidable g.NoWrap :=
  decidable_of_iff (_ ∧ _) ⟨fun h => ⟨h.1, h.2⟩, fun h => ⟨h.first, h.used⟩⟩

/-- Roundings are exact, or wrap to zero. -/
def Rounds (g : Gpt) : Prop := (1 < g.align ∧ g.align ∣ 2 ^ 64) ∨ g.NoWrap

/-- A rounding that is exact or wraps to zero, as a bound on aligned numbers. The word saturates at the range's end. -/
theorem alignUp_spec {g : Gpt} {w : UInt64} {v : Nat} (hw : w.toNat = min v (2 ^ 64 - 1)) (hv : v ≤ 2 ^ 64)
    (hg : (1 < g.align ∧ g.align ∣ 2 ^ 64) ∨ ¬ g.Wraps v) :
    g.align ∣ (alignUp w (alignSectors g.sectorSize)).toNat ∧
      ∀ x, g.align ∣ x → ((alignUp w (alignSectors g.sectorSize)).toNat ≤ x ↔ g.Wraps v ∨ v ≤ x) := by
  have hpos := g.align_pos
  have hal : (alignUp w (alignSectors g.sectorSize)).toNat = roundUp w.toNat g.align % 2 ^ 64 := toNat_alignUp hpos
  by_cases hwr : g.Wraps v
  · obtain ⟨h1, hdvd⟩ := hg.resolve_right (not_not.2 hwr)
    have hle : roundUp w.toNat g.align ≤ 2 ^ 64 := roundUp_le_of_dvd hpos hdvd w.toNat_lt.le
    have hge : 2 ^ 64 ≤ roundUp w.toNat g.align := by
      rcases Nat.lt_or_ge v (2 ^ 64) with hlt | hge
      · rwa [Wraps, show v = w.toNat by omega] at hwr
      · -- the saturated word is no multiple, so its rounding is the whole range
        have hw' : w.toNat = 2 ^ 64 - 1 := by omega
        by_contra hlt
        have h64 := le_roundUp (v := w.toNat) hpos
        have heq : roundUp w.toNat g.align = 2 ^ 64 - 1 := by omega
        have hd : g.align ∣ 2 ^ 64 - 1 := heq ▸ dvd_roundUp w.toNat g.align
        have hd1 : g.align ∣ 2 ^ 64 - (2 ^ 64 - 1) := Nat.dvd_sub hdvd hd
        have := Nat.le_of_dvd (by omega) hd1
        omega
    rw [hal, Nat.le_antisymm hle hge, Nat.mod_self]
    exact ⟨Nat.dvd_zero _, fun x _ => by simp [hwr]⟩
  · have hlt : roundUp v g.align < 2 ^ 64 := not_le.1 hwr
    have hvr := le_roundUp (v := v) hpos
    rw [hal, show w.toNat = v by omega, Nat.mod_eq_of_lt hlt]
    refine ⟨dvd_roundUp _ _, fun x hx => ?_⟩
    rw [roundUp_le_iff hpos hx]
    simp [hwr]

/-! ## The sweep behind `free_extents` -/

/-- Where the cursor starts. -/
def cursor (g : Gpt) : Nat := (alignUp g.firstUsableLba (alignSectors g.sectorSize)).toNat

/-- A used range as a mark: its start, and where it moves the cursor. -/
def mark (align : UInt64) (r : UInt64 × UInt64) : Nat × Nat :=
  (r.1.toNat, (alignUp (saturatingAdd r.2 1) align).toNat)

def marks (g : Gpt) : List (Nat × Nat) := g.usedRanges.map (mark (alignSectors g.sectorSize))

theorem carve_eq (align : UInt64) : ∀ (c : UInt64) (used : List (UInt64 × UInt64)),
    (carve align c used).1.map FreeExtent.hole = holes c.toNat (used.map (mark align)) ∧
      (carve align c used).2.toNat = finish c.toNat (used.map (mark align))
  | c, [] => ⟨rfl, rfl⟩
  | c, (s, e) :: used => by
    obtain ⟨ih₁, ih₂⟩ := carve_eq align (max c (alignUp (saturatingAdd e 1) align)) used
    rw [toNat_max] at ih₁ ih₂
    refine ⟨?_, ih₂⟩
    simp only [carve, List.map_append, List.map_cons, mark, holes]
    congr 1
    simp only [UInt64.lt_iff_toNat_lt]
    split
    · rename_i h
      have h1 : (1 : UInt64) ≤ s := UInt64.le_iff_toNat_le.2 (by rw [UInt64.toNat_one]; omega)
      simp only [List.map_cons, List.map_nil, FreeExtent.hole, UInt64.toNat_sub_of_le _ _ h1, UInt64.toNat_one]
      rw [Nat.sub_add_cancel (by omega)]
    · rfl

/-- No extent of the walk is inverted. -/
theorem carve_le {align : UInt64} {f : FreeExtent} : ∀ {c : UInt64} {used : List (UInt64 × UInt64)},
    f ∈ (carve align c used).1 → f.start ≤ f.stop
  | _, [], h => by simp [carve] at h
  | c, (s, e) :: used, h => by
    simp only [carve, List.mem_append] at h
    rcases h with h | h
    · split at h
      · rename_i hc
        rw [List.mem_singleton] at h
        rw [UInt64.lt_iff_toNat_lt] at hc
        have h1 : (1 : UInt64) ≤ s := UInt64.le_iff_toNat_le.2 (by rw [UInt64.toNat_one]; omega)
        rw [h, UInt64.le_iff_toNat_le]
        simp only [UInt64.toNat_sub_of_le _ _ h1, UInt64.toNat_one]
        omega
      · simp at h
    · exact carve_le h

/-- The extents are the holes of the sweep, and none is filtered out. -/
theorem map_freeExtents (g : Gpt) :
    g.freeExtents.map FreeExtent.hole = sweep g.cursor g.marks (g.lastUsableLba.toNat + 1) := by
  obtain ⟨h₁, h₂⟩ := carve_eq (alignSectors g.sectorSize)
    (alignUp g.firstUsableLba (alignSectors g.sectorSize)) g.usedRanges
  simp only [freeExtents]
  rw [List.filter_eq_self.2]
  · simp only [UInt64.le_iff_toNat_le, h₂]
    split
    · rename_i h
      rw [List.map_append, h₁, sweep, marks, cursor, if_pos (by omega)]
      simp [FreeExtent.hole, h₂]
    · rename_i h
      rw [h₁, sweep, marks, cursor, if_neg (by omega), List.append_nil]
  · intro f hf
    apply decide_eq_true
    split at hf
    · rename_i h
      rcases List.mem_append.1 hf with hf | hf
      · exact carve_le hf
      · rw [List.mem_singleton] at hf
        rw [hf]; exact h
    · exact carve_le hf

theorem usedRanges_sorted (g : Gpt) : g.usedRanges.Pairwise fun x y => x.1 ≤ y.1 := by
  let r : UInt64 × UInt64 → UInt64 × UInt64 → Prop := fun x y => x.1 < y.1 ∨ x.1 = y.1 ∧ x.2 ≤ y.2
  have : Std.Total r := ⟨fun x y => by
    simp only [r, UInt64.lt_iff_toNat_lt, UInt64.le_iff_toNat_le, ← UInt64.toNat_inj]; omega⟩
  have : IsTrans _ r := ⟨fun x y z => by
    simp only [r, UInt64.lt_iff_toNat_lt, UInt64.le_iff_toNat_le, ← UInt64.toNat_inj]; omega⟩
  refine (List.pairwise_insertionSort r _).imp fun {x y} h => ?_
  rcases h with h | h
  · exact UInt64.le_of_lt h
  · exact UInt64.le_of_eq h.1

theorem marks_sorted (g : Gpt) : g.marks.Pairwise fun m m' => m.1 ≤ m'.1 := by
  rw [marks, List.pairwise_map]
  exact g.usedRanges_sorted.imp fun h => UInt64.le_iff_toNat_le.1 h

theorem mem_marks {g : Gpt} {m : Nat × Nat} : m ∈ g.marks ↔
    ∃ e ∈ g.entries, e.isUsed ∧ m = mark (alignSectors g.sectorSize) (e.startingLba, e.endingLba) := by
  simp only [marks, usedRanges, List.mem_map, List.mem_insertionSort, List.mem_filter]
  constructor
  · rintro ⟨r, ⟨e, ⟨he, hu⟩, rfl⟩, rfl⟩
    exact ⟨e, he, hu, rfl⟩
  · rintro ⟨e, he, hu, rfl⟩
    exact ⟨_, ⟨e, ⟨he, hu⟩, rfl⟩, rfl⟩

/-! ## Free runs, and what is taken for one -/

/-- `n` sectors from `a` are free for a partition. -/
structure Fits (g : Gpt) (a n : Nat) : Prop where
  pos : 0 < n
  aligned : g.align ∣ a
  first : g.firstUsableLba.toNat ≤ a
  last : a + n ≤ g.lastUsableLba.toNat + 1
  clear : ∀ e ∈ g.entries, e.isUsed → e.endingLba.toNat < a ∨ a + n ≤ e.startingLba.toNat

/-- `n` sectors from `a` are free as `free_extents` sees it. -/
structure Candidate (g : Gpt) (a n : Nat) : Prop where
  pos : 0 < n
  aligned : g.align ∣ a
  /-- The first usable sector bounds the run unless its rounding wraps. -/
  first : g.Wraps g.firstUsableLba.toNat ∨ g.firstUsableLba.toNat ≤ a
  /-- A used entry whose end wraps is seen from its start only. -/
  clear : ∀ e ∈ g.entries, e.isUsed →
    (g.Wraps (e.endingLba.toNat + 1) ∨ e.endingLba.toNat < a) ∨ a + n ≤ e.startingLba.toNat
  /-- In front of a used entry the last usable sector does not bound the run. -/
  bound : a + n ≤ g.lastUsableLba.toNat + 1 ∨ ∃ e ∈ g.entries, e.isUsed ∧ a + n ≤ e.startingLba.toNat

section Rounds

variable {g : Gpt} {a b n : Nat} {f : FreeExtent}

theorem cursor_spec (hg : g.Rounds) : g.align ∣ g.cursor ∧
    ∀ x, g.align ∣ x → (g.cursor ≤ x ↔ g.Wraps g.firstUsableLba.toNat ∨ g.firstUsableLba.toNat ≤ x) := by
  have := g.firstUsableLba.toNat_lt
  exact alignUp_spec (by omega) (by omega) (hg.imp_right NoWrap.first)

theorem mark_spec (hg : g.Rounds) {e : GptEntry} (he : e ∈ g.entries) (hu : e.isUsed) :
    g.align ∣ (mark (alignSectors g.sectorSize) (e.startingLba, e.endingLba)).2 ∧
      ∀ x, g.align ∣ x → ((mark (alignSectors g.sectorSize) (e.startingLba, e.endingLba)).2 ≤ x ↔
        g.Wraps (e.endingLba.toNat + 1) ∨ e.endingLba.toNat < x) := by
  have := e.endingLba.toNat_lt
  exact alignUp_spec (by rw [toNat_saturatingAdd, UInt64.toNat_one]) (by omega)
    (hg.imp_right fun h => h.used e he hu)

/-- A candidate is an aligned open run of the sweep. -/
theorem candidate_iff_open (hg : g.Rounds) : g.Candidate a n ↔
    0 < n ∧ g.align ∣ a ∧ Open g.cursor g.marks (g.lastUsableLba.toNat + 1) a (a + n) := by
  constructor
  · intro h
    refine ⟨h.pos, h.aligned, ((cursor_spec hg).2 a h.aligned).2 h.first, ?_, ?_⟩
    · intro m hm
      obtain ⟨e, he, hu, rfl⟩ := mem_marks.1 hm
      exact (h.clear e he hu).imp_left ((mark_spec hg he hu).2 a h.aligned).2
    · refine h.bound.imp_right fun ⟨e, he, hu, hb⟩ => ?_
      exact ⟨_, mem_marks.2 ⟨e, he, hu, rfl⟩, hb⟩
  · rintro ⟨hn, ha, ho⟩
    refine ⟨hn, ha, ((cursor_spec hg).2 a ha).1 ho.start, ?_, ?_⟩
    · intro e he hu
      exact (ho.clear _ (mem_marks.2 ⟨e, he, hu, rfl⟩)).imp_left ((mark_spec hg he hu).2 a ha).1
    · refine ho.bound.imp_right fun ⟨m, hm, hb⟩ => ?_
      obtain ⟨e, he, hu, rfl⟩ := mem_marks.1 hm
      exact ⟨e, he, hu, hb⟩

theorem hole_mem (hf : f ∈ g.freeExtents) :
    (f.start.toNat, f.stop.toNat + 1) ∈ sweep g.cursor g.marks (g.lastUsableLba.toNat + 1) := by
  rw [← map_freeExtents]
  exact List.mem_map.2 ⟨f, hf, rfl⟩

theorem start_le_stop (hf : f ∈ g.freeExtents) : f.start.toNat ≤ f.stop.toNat :=
  Nat.lt_succ_iff.1 (open_of_mem_sweep g.marks_sorted (hole_mem hf)).1

/-- An extent starts on a multiple of the alignment. -/
theorem dvd_start (hg : g.Rounds) (hf : f ∈ g.freeExtents) : g.align ∣ f.start.toNat := by
  rcases start_eq_of_mem_sweep (hole_mem hf) with h | ⟨m, hm, h⟩
  · rw [h]; exact (cursor_spec hg).1
  · obtain ⟨e, he, hu, rfl⟩ := mem_marks.1 hm
    rw [h]; exact (mark_spec hg he hu).1

/-- The first `n` sectors of an extent are a candidate. -/
theorem candidate_of_mem (hg : g.Rounds) (hf : f ∈ g.freeExtents) (hn : 0 < n)
    (hle : f.start.toNat + n ≤ f.stop.toNat + 1) : g.Candidate f.start.toNat n :=
  (candidate_iff_open hg).2
    ⟨hn, dvd_start hg hf, (open_of_mem_sweep g.marks_sorted (hole_mem hf)).2.shorten hle⟩

/-- A candidate lies in an extent. -/
theorem exists_mem_of_candidate (hg : g.Rounds) (h : g.Candidate a n) :
    ∃ f ∈ g.freeExtents, f.start.toNat ≤ a ∧ a + n ≤ f.stop.toNat + 1 := by
  obtain ⟨hn, -, ho⟩ := (candidate_iff_open hg).1 h
  obtain ⟨x, hx, h₁, h₂⟩ := mem_sweep_of_open (show a < a + n by omega) ho
  rw [← map_freeExtents, List.mem_map] at hx
  obtain ⟨f, hf, rfl⟩ := hx
  exact ⟨f, hf, h₁, h₂⟩

theorem freeExtents_sorted (g : Gpt) : g.freeExtents.Pairwise fun f f' => f.start.toNat ≤ f'.start.toNat := by
  have := sweep_sorted g.cursor g.marks (g.lastUsableLba.toNat + 1)
  rwa [← map_freeExtents, List.pairwise_map] at this

theorem Fits.candidate (h : g.Fits a n) : g.Candidate a n where
  pos := h.pos
  aligned := h.aligned
  first := Or.inr h.first
  clear e he hu := (h.clear e he hu).imp_left Or.inr
  bound := Or.inl h.last

theorem Fits.shorten {m : Nat} (h : g.Fits a n) (hm : 0 < m) (hmn : m ≤ n) : g.Fits a m where
  pos := hm
  aligned := h.aligned
  first := h.first
  last := by have := h.last; omega
  clear e he hu := (h.clear e he hu).imp_right fun h => by omega

/-- Nothing aligned lies behind a sector whose rounding wraps. -/
theorem not_le_of_wraps {v : Nat} (h : g.Wraps v) (ha : g.align ∣ a) (hlt : a < 2 ^ 64) : a < v := by
  by_contra hle
  have := (roundUp_le_iff g.align_pos ha).2 (not_lt.1 hle)
  rw [Wraps] at h
  omega

theorem Fits.add_le {a n : Nat} (h : g.Fits a n) : a + n ≤ 2 ^ 64 := by
  have := h.last
  have := g.lastUsableLba.toNat_lt
  omega

/-- A candidate that does not fit starts behind every run of its size that fits. -/
theorem Candidate.lt_of_fits (h : g.Candidate a n) (hbad : ¬ g.Fits a n) (hb : g.Fits b n) : b < a := by
  by_contra hle
  have hlt : b + n ≤ 2 ^ 64 := hb.add_le
  have hpos := h.pos
  apply hbad
  refine ⟨h.pos, h.aligned, ?_, ?_, ?_⟩
  · refine h.first.resolve_left fun hw => ?_
    have := not_le_of_wraps hw hb.aligned (by omega)
    have := hb.first
    omega
  · have := hb.last
    omega
  · intro e he hu
    rcases h.clear e he hu with (hw | hc) | hc
    · have := not_le_of_wraps hw hb.aligned (by omega)
      rcases hb.clear e he hu with hc | hc
      · omega
      · right; omega
    · exact Or.inl hc
    · exact Or.inr hc

/-- Without wrapping, and with no used entry behind the usable range, every candidate fits. -/
theorem Candidate.fits (h : g.Candidate a n) (hw : g.NoWrap)
    (hu : ∀ e ∈ g.entries, e.isUsed → e.startingLba.toNat ≤ g.lastUsableLba.toNat) : g.Fits a n where
  pos := h.pos
  aligned := h.aligned
  first := h.first.resolve_left hw.first
  last := by
    rcases h.bound with hb | ⟨e, he, hu', hb⟩
    · exact hb
    · have := hu e he hu'
      omega
  clear e he hu := (h.clear e he hu).imp_left fun h => h.resolve_left (hw.used e he hu)

end Rounds

end Gpt

end Peiosutils.Part
