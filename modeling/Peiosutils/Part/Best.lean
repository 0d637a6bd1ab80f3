import Peiosutils.Part.Placement

/-!
# Whether `add` finds the best place

`free_extents` loses no run that is free: `add` with a size takes the lowest free run, without a size the longest, and
reports the longest when none is large enough. All of it holds exactly when the runs that `free_extents` takes for free
are (`add_best_iff`), which they are unless a rounding leaves the 64-bit range or a used entry lies behind the usable
range.
-/

set_option autoImplicit false

namespace Peiosutils.Part

open Word64 ListChoice CallRun

/-- `n` is the largest length of a run in `P`, or zero if there is none. -/
structure Longest (P : Nat → Nat → Prop) (n : Nat) : Prop where
  reached : 0 < n → ∃ a, P a n
  bound : ∀ a m, P a m → m ≤ n

namespace Gpt

/-! ## What a request must get -/

/-- The lowest free run of the size asked for, or a longest free run. -/
def Best (g : Gpt) (sectors : Option UInt64) (a n : Nat) : Prop :=
  g.Fits a n ∧
    match sectors with
    | some s => s.toNat = n ∧ ∀ b, g.Fits b n → a ≤ b
    | none => ∀ b m, g.Fits b m → m ≤ n

/-- The result of an `add`: success exactly when a free run of the size exists, in the best place; and no space reported
with the length of the longest free run. -/
structure PlacesBest (g : Gpt) (sectors : Option UInt64) (r : Except PartError Nat × Gpt) : Prop where
  finds : (∃ index, r.1 = .ok index) ↔ ∃ a n, g.Fits a n ∧ ∀ s, sectors = some s → s.toNat = n
  best : ∀ index, r.1 = .ok index → ∃ e n, r.2.entries[index - 1]? = some e ∧
    e.endingLba.toNat + 1 = e.startingLba.toNat + n ∧ g.Best sectors e.startingLba.toNat n
  largest : ∀ wanted largest, r.1 = .error (.noSpace wanted largest) → Longest g.Fits largest.toNat

/-- The runs that `free_extents` takes for free are, as far as a request depends on them. For a size: a run of it is
free, or every run taken for free has its length free somewhere. Without a size: so are the longest of them. -/
def RunsReal (g : Gpt) : Option UInt64 → Prop
  | some n => (∃ a, g.Fits a n.toNat) ∨ ∀ a m, g.Candidate a m → ∃ b, g.Fits b m
  | none => g.RunsFit none

section Choice

variable {g : Gpt} (hg : g.Rounds) (hl : g.lastUsableLba.toNat + 1 < 2 ^ 64)

include hg hl

/-! ## Candidates and extents -/

/-- A candidate of `n` sectors lies in an extent that has them. -/
theorem le_sectors_of_candidate {a n : Nat} (h : g.Candidate a n) :
    ∃ f ∈ g.freeExtents, f.start.toNat ≤ a ∧ n ≤ f.sectors.toNat := by
  obtain ⟨f, hf, h₁, h₂⟩ := exists_mem_of_candidate hg h
  refine ⟨f, hf, h₁, ?_⟩
  rw [toNat_sectors_of_mem hl hf]
  omega

/-- A whole extent is a candidate. -/
theorem candidate_sectors {f : FreeExtent} (hf : f ∈ g.freeExtents) : g.Candidate f.start.toNat f.sectors.toNat := by
  have hle := start_le_stop hf
  have hsize := toNat_sectors_of_mem hl hf
  exact candidate_of_mem hg hf (by omega) (by omega)

/-- First-fit starts no later than any candidate of the size. -/
theorem find?_le_candidate {n : UInt64} {f : FreeExtent}
    (h : g.freeExtents.find? (fun f => n ≤ f.sectors) = some f) {b : Nat} (hb : g.Candidate b n.toNat) :
    f.start.toNat ≤ b := by
  obtain ⟨f', hf', hle, hsize⟩ := le_sectors_of_candidate hg hl hb
  rcases rel_find? g.freeExtents_sorted h hf' (decide_eq_true (UInt64.le_iff_toNat_le.2 hsize)) with rfl | hlt
  · exact hle
  · omega

/-- First-fit finds nothing just when there is no candidate of the size. -/
theorem not_candidate_of_find?_none {n : UInt64} (h : g.freeExtents.find? (fun f => n ≤ f.sectors) = none) (b : Nat) :
    ¬ g.Candidate b n.toNat := by
  intro hb
  obtain ⟨f, hf, -, hsize⟩ := le_sectors_of_candidate hg hl hb
  have hn := List.find?_eq_none.1 h f hf
  rw [decide_eq_true_eq, UInt64.le_iff_toNat_le] at hn
  omega

/-- What `add` reports as the largest is the longest candidate. -/
theorem longest_candidate : Longest g.Candidate ((g.freeExtents.map FreeExtent.sectors).foldl max 0).toNat := by
  rw [toNat_foldl_max, List.map_map, UInt64.toNat_zero]
  constructor
  · intro hpos
    rcases foldl_max_mem (g.freeExtents.map (UInt64.toNat ∘ FreeExtent.sectors)) 0 with h | h
    · omega
    · obtain ⟨f, hf, heq⟩ := List.mem_map.1 h
      rw [← heq]
      exact ⟨_, candidate_sectors hg hl hf⟩
  · intro a m ha
    obtain ⟨f, hf, -, hsize⟩ := le_sectors_of_candidate hg hl ha
    exact hsize.trans (le_foldl_max _ 0 (Or.inr (List.mem_map_of_mem hf)))

/-- The longest candidate is the longest free run just when every candidate's length is free somewhere. -/
theorem longest_fits_iff :
    Longest g.Fits ((g.freeExtents.map FreeExtent.sectors).foldl max 0).toNat ↔
      ∀ a m, g.Candidate a m → ∃ b, g.Fits b m := by
  have hlong := longest_candidate hg hl
  constructor
  · intro h a m ha
    have hpos := ha.pos
    have hle := hlong.bound a m ha
    obtain ⟨b, hb⟩ := h.reached (by omega)
    exact ⟨b, hb.shorten hpos hle⟩
  · intro h
    constructor
    · intro hpos
      obtain ⟨a, ha⟩ := hlong.reached hpos
      exact h a _ ha
    · exact fun a m ha => hlong.bound a m ha.candidate

/-! ## What is chosen -/

/-- A size is found at its best place just when it is free. -/
theorem find?_best_iff {n : UInt64} {f : FreeExtent} (hn : 0 < n.toNat)
    (h : g.freeExtents.find? (fun f => n ≤ f.sectors) = some f) :
    g.Best (some n) f.start.toNat n.toNat ↔ g.RunsReal (some n) := by
  have hf := List.mem_of_find?_eq_some h
  have hsize : n ≤ f.sectors := by simpa using List.find?_some h
  rw [UInt64.le_iff_toNat_le, toNat_sectors_of_mem hl hf] at hsize
  have hcand : g.Candidate f.start.toNat n.toNat := candidate_of_mem hg hf hn (by omega)
  constructor
  · exact fun hb => Or.inl ⟨_, hb.1⟩
  · intro hr
    have hex : ∃ a, g.Fits a n.toNat := hr.elim id fun hall => hall _ _ hcand
    refine ⟨(find?_fits_iff hg hl hn h).2 fun _ _ => hex, rfl, fun b hb => ?_⟩
    exact find?_le_candidate hg hl h hb.candidate

/-- Without a size the chosen run is a longest one just when it is free. -/
theorem lastMax_best_iff {f : FreeExtent} (h : lastMax (fun f => f.sectors.toNat) g.freeExtents = some f) :
    g.Best none f.start.toNat (f.stop.toNat + 1 - f.start.toNat) ↔ g.RunsReal none := by
  have hf := lastMax_mem h
  have hsize := toNat_sectors_of_mem hl hf
  rw [RunsReal, ← lastMax_fits_iff hg hl h]
  constructor
  · exact fun hb => hb.1
  · refine fun hfit => ⟨hfit, fun b m hb => ?_⟩
    obtain ⟨f', hf', -, hm⟩ := le_sectors_of_candidate hg hl hb.candidate
    have hmax := le_lastMax h hf'
    omega

/-- When nothing is chosen, no run of the size is free. -/
theorem not_fits_of_error {sectors : Option UInt64} {err : PartError}
    (h : chooseExtent g.freeExtents sectors = .error err) {a n : Nat} (hs : ∀ s, sectors = some s → s.toNat = n) :
    ¬ g.Fits a n := by
  intro hfit
  cases sectors with
  | some s =>
    rw [← hs s rfl] at hfit
    have hpos := hfit.pos
    rw [chooseExtent, if_neg (by rintro rfl; simp at hpos)] at h
    cases hfind : g.freeExtents.find? (fun f => s ≤ f.sectors) with
    | some f => rw [hfind] at h; cases h
    | none => exact not_candidate_of_find?_none hg hl hfind a hfit.candidate
  | none =>
    obtain ⟨f, hf, -⟩ := exists_mem_of_candidate hg hfit.candidate
    rw [chooseExtent] at h
    cases hmax : lastMax (fun f => f.sectors.toNat) g.freeExtents with
    | some f => rw [hmax] at h; cases h
    | none => simp [lastMax_eq_none hmax] at hf

/-- What is reported when nothing is chosen is right just under the condition. -/
theorem largest_iff {sectors : Option UInt64} (hn : ∀ n, sectors = some n → n ≠ 0) {err : PartError}
    (h : chooseExtent g.freeExtents sectors = .error err) :
    (∀ wanted largest, err = .noSpace wanted largest → Longest g.Fits largest.toNat) ↔ g.RunsReal sectors := by
  cases sectors with
  | some n =>
    have hnone : ¬ ∃ a, g.Fits a n.toNat := fun ⟨a, ha⟩ => not_fits_of_error hg hl h (by simp) ha
    rw [chooseExtent, if_neg (hn n rfl)] at h
    cases hfind : g.freeExtents.find? (fun f => n ≤ f.sectors) with
    | some f => rw [hfind] at h; cases h
    | none =>
      rw [hfind] at h
      cases h
      rw [RunsReal, or_iff_right hnone, ← longest_fits_iff hg hl]
      constructor
      · exact fun hall => hall _ _ rfl
      · intro hlong wanted largest heq
        cases heq
        exact hlong
  | none =>
    refine iff_of_true ?_ (runsFit_of_error hg hl h)
    have hnone : ∀ a n, ¬ g.Fits a n := fun a n => not_fits_of_error hg hl h (by simp)
    rw [chooseExtent] at h
    cases hmax : lastMax (fun f => f.sectors.toNat) g.freeExtents with
    | some f => rw [hmax] at h; cases h
    | none =>
      rw [hmax] at h
      cases h
      intro wanted largest heq
      cases heq
      exact ⟨fun hpos => absurd hpos (by simp), fun a m ha => absurd ha (hnone a m)⟩

/-- What is chosen is the best just under the condition. -/
theorem chosen_best_iff {sectors : Option UInt64} {chosen : FreeExtent}
    (h : chooseExtent g.freeExtents sectors = .ok chosen) :
    g.Best sectors chosen.start.toNat (chosen.stop.toNat + 1 - chosen.start.toNat) ↔ g.RunsReal sectors := by
  cases sectors with
  | some n =>
    obtain ⟨m, hm, hend, hcand⟩ := chooseExtent_candidate hg h
    have hnm := hm n rfl
    have hpos := hcand.pos
    rw [chooseExtent, if_neg (by rintro rfl; simp at hnm; omega)] at h
    cases hfind : g.freeExtents.find? (fun f => n ≤ f.sectors) with
    | none => rw [hfind] at h; cases h
    | some f =>
      rw [hfind] at h
      rw [show chosen.stop.toNat + 1 - chosen.start.toNat = n.toNat by omega]
      cases h
      show g.Best (some n) f.start.toNat n.toNat ↔ _
      exact find?_best_iff hg hl (by omega) hfind
  | none =>
    rw [chooseExtent] at h
    cases hmax : lastMax (fun f => f.sectors.toNat) g.freeExtents with
    | none => rw [hmax] at h; cases h
    | some f =>
      rw [hmax] at h
      cases h
      exact lastMax_best_iff hg hl hmax

end Choice

/-! ## Every request -/

/-- Calls keep the geometry of a table. -/
theorem geometry_of_run {g : Gpt} (hg : g.Geometry) (calls : List Call) : (run Call.eval calls g).Geometry := by
  obtain ⟨es, hes, hl, -⟩ := run_keeps (P := fun _ => True) calls (by simp) trivial (by simp)
  rw [hes]
  exact hg.of_entries hl

/-- An `add` that looks for space, after any calls on a table from disk or a new one, finds the best place exactly when
the runs taken for free are. -/
theorem add_best_iff {crc32 : List UInt8 → UInt32} {g₀ g : Gpt} {calls : List Call} (h : Arises crc32 g₀)
    (hg : run Call.eval calls g₀ = g) {typeGuid : Guid} {name : String} (hlook : g.LooksForSpace typeGuid name)
    {sectors : Option UInt64} (hn : ∀ n, sectors = some n → n ≠ 0) (unique : Option Guid) (random : Guid) :
    g.PlacesBest sectors (add sectors typeGuid name unique random g) ↔ g.RunsReal sectors := by
  have hgeo : g.Geometry := hg ▸ geometry_of_run (geometry_of_arises h) calls
  have hr : g.Rounds := Or.inl (align_spec hgeo.sector)
  have hl : g.lastUsableLba.toNat + 1 < 2 ^ 64 := by
    have := hgeo.backup
    have := g.diskSectors.toNat_lt
    omega
  rcases add_cases g sectors typeGuid name unique random with
    ⟨err, hadd, herr⟩ | ⟨slot, chosen, -, hslot, hchosen, hadd⟩
  · have hno := herr hlook
    rw [hadd, ← largest_iff hr hl hn hno]
    constructor
    · exact fun hp wanted largest heq => hp.largest wanted largest (congrArg Except.error heq)
    · intro hlong
      refine ⟨iff_of_false (by simp) ?_, by simp, fun wanted largest heq => hlong wanted largest (by simpa using heq)⟩
      rintro ⟨a, n, hfit, hs⟩
      exact not_fits_of_error hr hl hno hs hfit
  · have hlt := (List.findIdx?_eq_some_iff_getElem.1 hslot).1
    obtain ⟨n, hs, hend, hcand⟩ := chooseExtent_candidate hr hchosen
    have hlen : chosen.stop.toNat + 1 - chosen.start.toNat = n := by omega
    rw [hadd, ← chosen_best_iff hr hl hchosen, hlen]
    constructor
    · intro hp
      obtain ⟨e, m, he, hm, hbest⟩ := hp.best _ rfl
      simp only [Nat.add_sub_cancel, List.getElem?_set_self hlt, Option.some.injEq] at he
      subst he
      rwa [show n = m from Nat.add_left_cancel (hend.symm.trans hm)]
    · intro hbest
      refine ⟨iff_of_true ⟨_, rfl⟩ ⟨_, n, hbest.1, hs⟩, fun index hok => ?_, by simp⟩
      cases hok
      exact ⟨newEntry chosen typeGuid (unique.getD random) name, n, by simp [hlt], hend, hbest⟩

/-- A run of 2048 sectors in a new table. -/
theorem add_best_iff_huge :
    hugeTable.PlacesBest (some 2048) (add (some 2048) someType "a" none .ZERO hugeTable) ↔
      hugeTable.RunsReal (some 2048) := by
  have hnew : create 0xFFFFFFFFFFFFFFFF 512 .ZERO = .ok hugeTable := by decide +kernel
  have harises : Arises isoHdlc hugeTable := .created hnew
  have hrun : run Call.eval [] hugeTable = hugeTable := rfl
  exact add_best_iff harises hrun (by constructor <;> decide +kernel) (by simp) none .ZERO

/-- A full table: its largest run is taken, up to the last alignment unit. -/
def fullTable : Gpt := run Call.eval [.add none someType "a" none .ZERO] hugeTable

/-- In the full table `add` finds 2048 sectors, which are not free. -/
theorem fullTable_overlaps : create 0xFFFFFFFFFFFFFFFF 512 .ZERO = .ok hugeTable ∧ fullTable.Sound ∧
    fullTable.LooksForSpace someType "b" ∧
    ¬ fullTable.PlacesBest (some 2048) (add (some 2048) someType "b" none .ZERO fullTable) := by
  have hused : ∃ e ∈ fullTable.entries, e.isUsed ∧ e.startingLba = 2048 ∧ e.endingLba = 0xFFFFFFFFFFFFFFDD := by
    decide +kernel
  have hfirst : fullTable.firstUsableLba = 34 := by decide +kernel
  have hlast : fullTable.lastUsableLba = 0xFFFFFFFFFFFFFFDD := by decide +kernel
  have hadd : ∃ index, (add (some 2048) someType "b" none .ZERO fullTable).1 = .ok index :=
    ⟨2, by decide +kernel⟩
  refine ⟨by decide +kernel, by decide +kernel, by constructor <;> decide +kernel, fun hp => ?_⟩
  obtain ⟨a, n, hfit, hn⟩ := hp.finds.1 hadd
  obtain ⟨e, he, hu, hs, hend⟩ := hused
  have hn' := hn 2048 rfl
  have hclear := hfit.clear e he hu
  have hge := hfit.first
  have hle := hfit.last
  rw [hs, hend] at hclear
  rw [hfirst] at hge
  rw [hlast] at hle
  simp at hn' hclear hge hle
  omega

end Gpt

end Peiosutils.Part
