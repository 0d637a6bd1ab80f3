import Peiosutils.Lib.Runs
import Peiosutils.Part.FreeExtents

/-!
# Calls that change a table

What `add` and `remove` do (`add_cases`, `remove_cases`), and what any sequence of them preserves: while no rounding
wraps, the used entries stay inside the usable range and disjoint, and every call does what it is asked
(`calls_keep_sound`).
-/

set_option autoImplicit false

namespace Peiosutils.Part

open Word64 ListChoice CallRun

namespace Gpt

/-! ## What one call does -/

section Cases

variable {g : Gpt} {sectors : Option UInt64} {typeGuid : Guid} {name : String} {unique : Option Guid} {random : Guid}

/-- An `add` gets as far as looking for space. -/
structure LooksForSpace (g : Gpt) (typeGuid : Guid) (name : String) : Prop where
  name : GptEntry.validateName name = .ok ()
  type : typeGuid.isZero = false
  slot : ∃ e ∈ g.entries, e.isUsed = false

/-- `add` fails and changes nothing, at the latest for want of space, or sets the first unused slot to a new entry at
the chosen extent. -/
theorem add_cases (g : Gpt) (sectors : Option UInt64) (typeGuid : Guid) (name : String) (unique : Option Guid)
    (random : Guid) :
    (∃ err, add sectors typeGuid name unique random g = (.error err, g) ∧
      (g.LooksForSpace typeGuid name → chooseExtent g.freeExtents sectors = .error err)) ∨
    ∃ slot chosen, g.LooksForSpace typeGuid name ∧ g.entries.findIdx? (fun e => !e.isUsed) = some slot ∧
      chooseExtent g.freeExtents sectors = .ok chosen ∧
      add sectors typeGuid name unique random g = (.ok (slot + 1),
        { g with entries := g.entries.set slot (newEntry chosen typeGuid (unique.getD random) name) }) := by
  unfold add
  cases hn : GptEntry.validateName name with
  | error e => exact Or.inl ⟨e, rfl, fun h => by rw [h.name] at hn; cases hn⟩
  | ok u =>
    by_cases hz : typeGuid.isZero
    · exact Or.inl ⟨_, if_pos hz, fun h => by rw [h.type] at hz; cases hz⟩
    · simp only [if_neg hz]
      cases hs : g.entries.findIdx? (fun e => !e.isUsed) with
      | none =>
        refine Or.inl ⟨_, rfl, fun ⟨_, _, e, he, hu⟩ => ?_⟩
        simpa [hu] using List.findIdx?_eq_none_iff.1 hs e he
      | some slot =>
        cases hc : chooseExtent g.freeExtents sectors with
        | error e => exact Or.inl ⟨e, rfl, fun _ => rfl⟩
        | ok chosen =>
          refine Or.inr ⟨slot, chosen, ⟨hn, by simpa using hz, ?_⟩, rfl, rfl, rfl⟩
          obtain ⟨h, hu, -⟩ := List.findIdx?_eq_some_iff_getElem.1 hs
          exact ⟨_, List.getElem_mem h, by simpa using hu⟩

/-- `remove` fails and changes nothing, or clears a used slot. -/
theorem remove_cases (g : Gpt) (index : Nat) :
    (∃ err, remove index g = (.error err, g)) ∨
    ∃ e, 0 < index ∧ g.entries[index - 1]? = some e ∧ e.isUsed ∧
      remove index g = (.ok (), { g with entries := g.entries.set (index - 1) default }) := by
  unfold remove
  split
  · exact Or.inl ⟨_, rfl⟩
  · rename_i h
    rw [not_or, not_le] at h
    split
    · exact Or.inl ⟨_, rfl⟩
    · rename_i hu
      rw [List.getD_eq_getElem?_getD, List.getElem?_eq_getElem h.2] at hu
      exact Or.inr ⟨_, by omega, List.getElem?_eq_getElem h.2, by simpa using hu, rfl⟩

/-- The chosen run starts an extent, has the size that was asked for, and lies in the extent. -/
theorem chooseExtent_run {chosen : FreeExtent} (h : chooseExtent g.freeExtents sectors = .ok chosen) :
    ∃ n, 0 < n ∧ (∀ s, sectors = some s → s.toNat = n) ∧ chosen.stop.toNat + 1 = chosen.start.toNat + n ∧
      ∃ f ∈ g.freeExtents, f.start = chosen.start ∧ f.start.toNat + n ≤ f.stop.toNat + 1 := by
  cases sectors with
  | none =>
    simp only [chooseExtent] at h
    split at h
    · rename_i f hf
      cases h
      have hmem := lastMax_mem hf
      have := start_le_stop hmem
      exact ⟨chosen.stop.toNat + 1 - chosen.start.toNat, by omega, by simp, by omega, chosen, hmem, rfl, by omega⟩
    · cases h
  | some s =>
    simp only [chooseExtent] at h
    split at h
    · cases h
    · rename_i hs
      have hs0 : 0 < s.toNat := by
        rw [Nat.pos_iff_ne_zero]
        exact fun h0 => hs (UInt64.toNat_inj.1 (by rw [h0, UInt64.toNat_zero]))
      split at h
      · rename_i f hf
        cases h
        have hmem := List.mem_of_find?_eq_some hf
        have hle := start_le_stop hmem
        have hfs : s ≤ f.sectors := by simpa using List.find?_some hf
        rw [UInt64.le_iff_toNat_le, FreeExtent.toNat_sectors] at hfs
        have hmod := Nat.mod_le (f.stop.toNat - f.start.toNat + 1) (2 ^ 64)
        have hstop := f.stop.toNat_lt
        have hend : (f.start + s - 1).toNat + 1 = f.start.toNat + s.toNat := by
          rw [show f.start + s - 1 = f.start + (s - 1) by grind, UInt64.toNat_add,
            UInt64.toNat_sub_of_le _ _ (UInt64.le_iff_toNat_le.2 (by rw [UInt64.toNat_one]; omega)), UInt64.toNat_one]
          omega
        exact ⟨s.toNat, hs0, by simp, hend, f, hmem, rfl, by omega⟩
      · cases h

/-- The chosen run is a candidate of the size that was asked for. -/
theorem chooseExtent_candidate (hg : g.Rounds) {chosen : FreeExtent}
    (h : chooseExtent g.freeExtents sectors = .ok chosen) :
    ∃ n, (∀ s, sectors = some s → s.toNat = n) ∧ chosen.stop.toNat + 1 = chosen.start.toNat + n ∧
      g.Candidate chosen.start.toNat n := by
  obtain ⟨n, hn, hs, hend, f, hf, hst, hle⟩ := chooseExtent_run h
  exact ⟨n, hs, hend, hst ▸ candidate_of_mem hg hf hn hle⟩

end Cases

/-! ## Well-formed tables -/

/-- Two entries in use are disjoint. -/
def Apart (x y : GptEntry) : Prop :=
  x.isUsed → y.isUsed → x.endingLba < y.startingLba ∨ y.endingLba < x.startingLba

instance (x y : GptEntry) : Decidable (Apart x y) := inferInstanceAs (Decidable (_ → _ → _))

/-- The used entries run forwards, lie in the usable range, and are disjoint. -/
structure Sound (g : Gpt) : Prop where
  inside : ∀ e ∈ g.entries, e.isUsed →
    e.startingLba ≤ e.endingLba ∧ g.firstUsableLba ≤ e.startingLba ∧ e.endingLba ≤ g.lastUsableLba
  disjoint : g.entries.Pairwise Apart

instance (g : Gpt) : Decidable g.Sound :=
  decidable_of_iff (_ ∧ _) ⟨fun h => ⟨h.1, h.2⟩, fun h => ⟨h.inside, h.disjoint⟩⟩

theorem Apart.symm {x y : GptEntry} (h : Apart x y) : Apart y x := fun hy hx => (h hx hy).symm

theorem Apart.default (x : GptEntry) : Apart default x := fun h => by simp at h

theorem pairwise_set {e : GptEntry} : ∀ {es : List GptEntry} (i : Nat), es.Pairwise Apart → (∀ x ∈ es, Apart e x) →
    (es.set i e).Pairwise Apart
  | [], _, _, _ => List.Pairwise.nil
  | x :: es, 0, h, he => by
    rw [List.pairwise_cons] at h
    exact List.pairwise_cons.2 ⟨fun y hy => he y (by simp [hy]), h.2⟩
  | x :: es, i + 1, h, he => by
    rw [List.pairwise_cons] at h
    refine List.pairwise_cons.2 ⟨fun y hy => ?_, pairwise_set i h.2 fun y hy => he y (by simp [hy])⟩
    rcases List.mem_or_eq_of_mem_set hy with hy | rfl
    · exact h.1 y hy
    · exact (he x (by simp)).symm

/-- Setting a slot to an entry on a run that fits. -/
theorem Sound.set_of_fits {g : Gpt} (hg : g.Sound) {e : GptEntry} {n : Nat} (i : Nat)
    (hf : g.Fits e.startingLba.toNat n) (he : e.endingLba.toNat + 1 = e.startingLba.toNat + n) :
    Sound { g with entries := g.entries.set i e } where
  inside x hx hu := by
    rcases List.mem_or_eq_of_mem_set hx with hx | rfl
    · exact hg.inside x hx hu
    · have := hf.pos
      have := hf.last
      refine ⟨UInt64.le_iff_toNat_le.2 ?_, UInt64.le_iff_toNat_le.2 hf.first, UInt64.le_iff_toNat_le.2 ?_⟩
      · omega
      · show x.endingLba.toNat ≤ g.lastUsableLba.toNat
        omega
  disjoint := by
    refine pairwise_set i hg.disjoint fun x hx _ hu => ?_
    rw [UInt64.lt_iff_toNat_lt, UInt64.lt_iff_toNat_lt]
    have := hf.clear x hx hu
    omega

/-- Clearing a slot. -/
theorem Sound.clear {g : Gpt} (hg : g.Sound) (i : Nat) : Sound { g with entries := g.entries.set i default } where
  inside x hx hu := by
    rcases List.mem_or_eq_of_mem_set hx with hx | rfl
    · exact hg.inside x hx hu
    · simp at hu
  disjoint := pairwise_set i hg.disjoint fun x _ => Apart.default x

/-- In a well-formed table without wrapping, the chosen run fits. -/
theorem Sound.candidate_fits {g : Gpt} (hg : g.Sound) (hw : g.NoWrap) {a n : Nat} (h : g.Candidate a n) :
    g.Fits a n := by
  refine h.fits hw fun e he hu => ?_
  obtain ⟨h₁, -, h₂⟩ := hg.inside e he hu
  exact UInt64.le_iff_toNat_le.1 (UInt64.le_trans h₁ h₂)

end Gpt

/-! ## Sequences of calls -/

inductive Call where
  | add (sectors : Option UInt64) (typeGuid : Guid) (name : String) (unique : Option Guid) (random : Guid)
  | remove (index : Nat)

namespace Call

/-- The index an `add` returns, and the table after the call. -/
def eval : Call → Gpt → Except PartError (Option Nat) × Gpt
  | .add sectors typeGuid name unique random, g =>
    ((Gpt.add sectors typeGuid name unique random g).1.map some, (Gpt.add sectors typeGuid name unique random g).2)
  | .remove index, g => ((Gpt.remove index g).1.map fun _ => none, (Gpt.remove index g).2)

/-- The size an `add` asks for. -/
def sectors : Call → Option UInt64
  | .add sectors _ _ _ _ => sectors
  | .remove _ => none

/-- The name an `add` stores. -/
def name : Call → Option String
  | .add _ _ name _ _ => some name
  | .remove _ => none

/-- An `add` that looks for space finds no rounding that wraps. -/
def NoWrap (g : Gpt) : Call → Prop
  | .add _ typeGuid name _ _ => g.LooksForSpace typeGuid name → g.NoWrap
  | .remove _ => True

/-- What a call must do. An error changes nothing. A successful `add` fills one unused slot with an aligned partition
of the size asked for; a successful `remove` clears one slot. -/
def Meets (g : Gpt) (c : Call) : Prop :=
  match c.eval g with
  | (.error _, g') => g' = g
  | (.ok (some index), g') => ∃ old new, g.entries[index - 1]? = some old ∧ old.isUsed = false ∧
      g'.entries[index - 1]? = some new ∧ new.isUsed = true ∧ g.align ∣ new.startingLba.toNat ∧
      (∀ n, c.sectors = some n → new.sectors = n) ∧ ∀ i, i ≠ index - 1 → g'.entries[i]? = g.entries[i]?
  | (.ok none, g') => ∃ i, g'.entries = g.entries.set i default

/-- A new entry has the size that its bounds say. -/
theorem newEntry_sectors {chosen : FreeExtent} {typeGuid uniqueGuid : Guid} {name : String} {n : UInt64}
    (ht : typeGuid.isZero = false) (hn : 0 < n.toNat)
    (h : chosen.stop.toNat + 1 = chosen.start.toNat + n.toNat) :
    (Gpt.newEntry chosen typeGuid uniqueGuid name).sectors = n := by
  have hle : chosen.start ≤ chosen.stop := UInt64.le_iff_toNat_le.2 (by omega)
  have := n.toNat_lt
  apply UInt64.toNat_inj.1
  simp only [GptEntry.sectors, GptEntry.isUsed, Gpt.newEntry, ht, hle]
  simp only [Bool.not_false, decide_true, Bool.and_self, if_true, UInt64.toNat_add, UInt64.toNat_sub_of_le _ _ hle,
    UInt64.toNat_one]
  omega

/-- One call on a well-formed table: the table stays well-formed and the call does what it must. -/
theorem step_sound {g : Gpt} (hg : g.Sound) (c : Call) (hw : c.NoWrap g) : (c.eval g).2.Sound ∧ c.Meets g := by
  cases c with
  | add sectors typeGuid name unique random =>
    rcases Gpt.add_cases g sectors typeGuid name unique random with
      ⟨err, h, -⟩ | ⟨slot, chosen, hlook, hslot, hchosen, h⟩
    · simp only [Meets, eval, h]
      exact ⟨hg, rfl⟩
    · have hnw := hw hlook
      obtain ⟨n, hn, hend, hcand⟩ := Gpt.chooseExtent_candidate (Or.inr hnw) hchosen
      have hfits := hg.candidate_fits hnw hcand
      obtain ⟨hlt, hold, -⟩ := List.findIdx?_eq_some_iff_getElem.1 hslot
      simp only [Meets, eval, h]
      refine ⟨hg.set_of_fits slot hfits hend, ?_⟩
      refine ⟨g.entries[slot], Gpt.newEntry chosen typeGuid (unique.getD random) name,
        List.getElem?_eq_getElem hlt, by simpa using hold, ?_, ?_, hcand.aligned, ?_, ?_⟩
      · simp [hlt]
      · simp [GptEntry.isUsed, Gpt.newEntry, hlook.type]
      · intro m hm
        have hnm := hn m hm
        exact newEntry_sectors hlook.type (by have := hfits.pos; omega) (by omega)
      · intro i hi
        exact List.getElem?_set_ne (by omega)
  | remove index =>
    rcases Gpt.remove_cases g index with ⟨err, h⟩ | ⟨e, -, -, -, h⟩
    · simp only [Meets, eval, h]
      exact ⟨hg, rfl⟩
    · simp only [Meets, eval, h]
      exact ⟨hg.clear _, _, rfl⟩

/-- A call only replaces entries, by the unused entry or by one with the valid name it was given. -/
theorem eval_entries (c : Call) (g : Gpt) : ∃ es, (c.eval g).2 = { g with entries := es } ∧
    es.length = g.entries.length ∧
    ∀ e ∈ es, e ∈ g.entries ∨ e = default ∨ (GptEntry.validateName e.name = .ok () ∧ c.name = some e.name) := by
  cases c with
  | add sectors typeGuid name unique random =>
    rcases Gpt.add_cases g sectors typeGuid name unique random with
      ⟨err, h, -⟩ | ⟨slot, chosen, hlook, -, -, h⟩
    · exact ⟨g.entries, by simp [eval, h], rfl, fun e he => Or.inl he⟩
    · refine ⟨_, by simp only [eval, h]; rfl, List.length_set, fun e he => ?_⟩
      rcases List.mem_or_eq_of_mem_set he with he | rfl
      · exact Or.inl he
      · exact Or.inr (Or.inr ⟨hlook.name, rfl⟩)
  | remove index =>
    rcases Gpt.remove_cases g index with ⟨err, h⟩ | ⟨e, -, -, -, h⟩
    · exact ⟨g.entries, by simp [eval, h], rfl, fun e he => Or.inl he⟩
    · refine ⟨_, by simp only [eval, h]; rfl, List.length_set, fun e he => ?_⟩
      rcases List.mem_or_eq_of_mem_set he with he | rfl
      · exact Or.inl he
      · exact Or.inr (Or.inl rfl)

end Call

namespace Gpt

/-- `g` is `g₀` but for its entries, which all satisfy `P`. -/
def Keeps (P : GptEntry → Prop) (g₀ g : Gpt) : Prop :=
  ∃ es, g = { g₀ with entries := es } ∧ es.length = g₀.entries.length ∧ ∀ e ∈ es, P e

/-- Calls keep the shape of a table, and what holds of the unused entry and of the entries they make. -/
theorem run_keeps {P : GptEntry → Prop} {g₀ : Gpt} (calls : List Call) (h₀ : ∀ e ∈ g₀.entries, P e) (hd : P default)
    (hnew : ∀ c ∈ calls, ∀ e, GptEntry.validateName e.name = .ok () → c.name = some e.name → P e) :
    Keeps P g₀ (run Call.eval calls g₀) := by
  refine run_invariant _ (Keeps P g₀) ?_ ⟨g₀.entries, rfl, rfl, h₀⟩ (along_of_forall hnew g₀)
  rintro g c ⟨es, rfl, hl, hes⟩ hc
  obtain ⟨es', h', hl', hes'⟩ := c.eval_entries { g₀ with entries := es }
  refine ⟨es', h', hl'.trans hl, fun e he => ?_⟩
  rcases hes' e he with he | rfl | ⟨hv, hn⟩
  · exact hes e he
  · exact hd
  · exact hc e hv hn

/-- Roundings only wrap on disks whose usable range reaches into the last alignment unit of the 64-bit range. -/
theorem noWrap_of_last {g : Gpt} (hg : g.Sound) (hf : g.firstUsableLba ≤ g.lastUsableLba)
    (hl : g.lastUsableLba.toNat + g.align < 2 ^ 64) : g.NoWrap := by
  have hpos := g.align_pos
  constructor
  · have := roundUp_lt_add (v := g.firstUsableLba.toNat) hpos
    rw [UInt64.le_iff_toNat_le] at hf
    rw [Wraps]; omega
  · intro e he hu
    have := roundUp_lt_add (v := e.endingLba.toNat + 1) hpos
    have hle := UInt64.le_iff_toNat_le.1 (hg.inside e he hu).2.2
    rw [Wraps]; omega

/-- While no rounding wraps, a well-formed table stays well-formed and every call does what it must. -/
theorem calls_keep_sound {g : Gpt} {calls : List Call} (hg : g.Sound)
    (hw : Along Call.eval (fun g c => c.NoWrap g) calls g) :
    (run Call.eval calls g).Sound ∧ Along Call.eval (fun g c => g.Sound ∧ c.Meets g) calls g :=
  ⟨run_invariant (fun g c => c.NoWrap g) Sound (fun _ c hs h => (Call.step_sound hs c h).1) hg hw,
    along_of_invariant (fun g c => c.NoWrap g) Sound (fun _ c hs h => (Call.step_sound hs c h).1) _
      (fun _ c hs h => ⟨hs, (Call.step_sound hs c h).2⟩) hg hw⟩

/-- The type that the runs below give their partitions. -/
def someType : Guid := ⟨List.replicate 16 1, by simp⟩

/-- A table whose usable range ends in the last alignment unit. -/
def hugeTable : Gpt where
  sectorSize := 512
  diskSectors := 0xFFFFFFFFFFFFFFFF
  diskGuid := .ZERO
  numEntries := 128
  entrySize := 128
  entryArrayLba := 2
  firstUsableLba := 34
  lastUsableLba := 0xFFFFFFFFFFFFFFDD
  entries := List.replicate 128 default

/-- The largest run, and then 2048 sectors more. -/
def hugeCalls : List Call :=
  [.add none someType "a" none .ZERO, .add (some 2048) someType "b" none .ZERO]

/-- Two runs of a known size in it, which wrap nothing. -/
theorem calls_keep_sound_huge :
    (run Call.eval [.add (some 2048) someType "a" none .ZERO, .remove 1] hugeTable).Sound ∧
      Along Call.eval (fun g c => g.Sound ∧ c.Meets g) [.add (some 2048) someType "a" none .ZERO, .remove 1]
        hugeTable :=
  calls_keep_sound (by decide +kernel) ⟨fun _ => by decide +kernel, trivial, trivial⟩

/-- Where the rounding wraps, the second partition is put over the first. -/
theorem hugeCalls_overlap : create 0xFFFFFFFFFFFFFFFF 512 .ZERO = .ok hugeTable ∧ hugeTable.Sound ∧
    ¬ (run Call.eval hugeCalls hugeTable).Sound := by
  decide +kernel

end Gpt

end Peiosutils.Part
