import Peiosutils.Lib.Escaped
import Peiosutils.Stratafs.Model

/-!
# What is read from superblock options

Which options `parseStrataMount` accepts, and the strata it finds in them (`parseStrataMount_ok_iff`), in terms of the
pieces between separators that no backslash protects.
-/

set_option autoImplicit false

namespace Peiosutils.Stratafs

open Escaped (pieces piecesFrom Dangles danglesFrom protectedBy plain)

/-! ## Escaped lists -/

/-- A list is read: nothing is empty, and no escape is open. -/
def Splits (sep : UInt8) (s : Bytes) (ps : List Bytes) : Prop := ps = pieces 92 sep s ∧ [] ∉ ps ∧ ¬ Dangles 92 s

theorem splitFrom_ok_iff (sep : UInt8) (cur : Bytes) (escaped : Bool) (s : Bytes) (ps : List Bytes) :
    splitFrom sep cur escaped s = .ok ps ↔
      ps = piecesFrom 92 sep cur escaped s ∧ [] ∉ ps ∧ ¬ danglesFrom 92 escaped s = true := by
  induction s generalizing cur escaped ps with
  | nil =>
    rw [splitFrom, piecesFrom, danglesFrom]
    by_cases hescaped : escaped = true
    · simp [hescaped, invalid]
    · by_cases hcur : cur = []
      · rw [if_neg hescaped, if_pos hcur, hcur]
        refine iff_of_false (by simp [invalid]) ?_
        rintro ⟨rfl, hmem, -⟩
        exact hmem List.mem_cons_self
      · rw [if_neg hescaped, if_neg hcur, Except.ok.injEq]
        constructor
        · rintro rfl
          exact ⟨rfl, fun h => hcur (List.mem_singleton.1 h).symm, hescaped⟩
        · exact fun h => h.1.symm
  | cons b s ih =>
    rw [splitFrom, piecesFrom, danglesFrom]
    by_cases hescaped : escaped = true
    · rw [if_pos hescaped, if_pos hescaped, if_pos hescaped, ih]
    rw [if_neg hescaped, if_neg hescaped, if_neg hescaped]
    by_cases hslash : b = 92
    · rw [if_pos hslash, if_pos hslash, ih, decide_eq_true hslash]
    rw [if_neg hslash, if_neg hslash, decide_eq_false hslash]
    by_cases hsep : b = sep
    · rw [if_pos hsep, if_pos hsep]
      by_cases hcur : cur = []
      · rw [if_pos hcur, hcur]
        refine iff_of_false (by simp [invalid]) ?_
        rintro ⟨rfl, hmem, -⟩
        exact hmem List.mem_cons_self
      · rw [if_neg hcur, Fallible.bind_eq_ok]
        constructor
        · rintro ⟨rest, hrest, h⟩
          obtain ⟨rfl, hmem, hdangles⟩ := (ih [] false rest).1 hrest
          rw [pure, Applicative.toPure, Monad.toApplicative, Except.instMonad] at h
          obtain rfl := Except.ok.inj h
          refine ⟨rfl, fun h => ?_, hdangles⟩
          rcases List.mem_cons.1 h with h | h
          · exact hcur h.symm
          · exact hmem h
        · rintro ⟨rfl, hmem, hdangles⟩
          rw [List.mem_cons, not_or] at hmem
          exact ⟨_, (ih [] false _).2 ⟨rfl, hmem.2, hdangles⟩, rfl⟩
    · rw [if_neg hsep, if_neg hsep, ih]

theorem splitEscaped_ok_iff (s : Bytes) (sep : UInt8) (ps : List Bytes) :
    splitEscaped s sep = .ok ps ↔ Splits sep s ps := splitFrom_ok_iff sep [] false s ps

theorem Splits.ne_nil {sep : UInt8} {s : Bytes} {ps : List Bytes} (h : Splits sep s ps) : ps ≠ [] := by
  rw [h.1]
  exact Escaped.pieces_ne_nil s

/-! ## Paths -/

/-- The path without its escapes, each of which protects a byte that needs it. -/
def ReadsPath (s path : Bytes) : Prop :=
  path = plain 92 s ∧ (∀ b ∈ protectedBy 92 s, isProtected b = true) ∧ ¬ Dangles 92 s

theorem unescapeFrom_ok_iff (s path : Bytes) : unescapeFrom s = .ok path ↔ ReadsPath s path := by
  fun_induction unescapeFrom s generalizing path with
  | case1 =>
    rw [Except.ok.injEq, eq_comm]
    simp [ReadsPath, plain, protectedBy, Escaped.protectedFrom, Dangles, danglesFrom]
  | case2 => simp [ReadsPath, Dangles, danglesFrom, invalid]
  | case3 next rest hprotected ih =>
    rw [Fallible.bind_eq_ok]
    simp only [ih]
    simp [ReadsPath, plain, protectedBy, Escaped.protectedFrom, Dangles, danglesFrom, pure, Except.pure, hprotected]
    grind
  | case4 next rest hprotected =>
    simp [ReadsPath, protectedBy, Escaped.protectedFrom, hprotected]
  | case5 b bs hb ih =>
    rw [Fallible.bind_eq_ok]
    simp only [ih]
    have hplain : plain 92 (b :: bs) = b :: plain 92 bs := by
      rw [plain.eq_def]
      simp only [if_neg hb]
    simp [ReadsPath, hplain, protectedBy, Escaped.protectedFrom, Dangles, danglesFrom, pure, Except.pure, hb]
    grind

theorem unescapePath_ok_iff (s path : Bytes) : unescapePath s = .ok path ↔ ReadsPath s path ∧ path ≠ [] := by
  rw [unescapePath, Fallible.bind_eq_ok]
  constructor
  · rintro ⟨output, h, hout⟩
    split at hout
    · cases hout
    · rename_i hne
      obtain rfl := Except.ok.inj hout
      exact ⟨(unescapeFrom_ok_iff s _).1 h, hne⟩
  · rintro ⟨h, hne⟩
    exact ⟨path, (unescapeFrom_ok_iff s path).2 h, if_neg hne⟩

/-! ## Flags -/

def flagNames : List Bytes := [createFlag, roFlag, amFlag]

/-- The flag is set. -/
def Stratum.Has (stratum : Stratum) (flag : Bytes) : Prop :=
  (flag = createFlag ∧ stratum.create = true) ∨ (flag = roFlag ∧ stratum.readOnly = true) ∨
    (flag = amFlag ∧ stratum.allowMissing = true)

/-- With some flags set as well. -/
def Stratum.set (stratum : Stratum) (flags : List Bytes) : Stratum where
  path := stratum.path
  create := stratum.create || flags.contains createFlag
  readOnly := stratum.readOnly || flags.contains roFlag
  allowMissing := stratum.allowMissing || flags.contains amFlag

theorem flags_distinct : createFlag ≠ roFlag ∧ createFlag ≠ amFlag ∧ roFlag ≠ amFlag := by decide

/-- One flag: a known one, which was not set. -/
theorem applyFlag_ok_iff (stratum stratum' : Stratum) (flag : Bytes) :
    applyFlag stratum flag = .ok stratum' ↔ flag ∈ flagNames ∧ ¬ stratum.Has flag ∧ stratum' = stratum.set [flag] := by
  obtain ⟨hcr, hca, hra⟩ := flags_distinct
  obtain ⟨path, create, readOnly, allowMissing⟩ := stratum
  unfold applyFlag flagNames Stratum.Has Stratum.set
  generalize createFlag = c at hcr hca ⊢
  generalize roFlag = r at hcr hra ⊢
  generalize amFlag = a at hca hra ⊢
  rw [@eq_comm _ stratum']
  by_cases hc : flag = c
  · subst hc
    cases create <;> simp [hcr, hca, hcr.symm, hca.symm]
  by_cases hr : flag = r
  · subst hr
    cases readOnly <;> simp [hcr, hcr.symm, hra, hra.symm]
  by_cases ha : flag = a
  · subst ha
    cases allowMissing <;> simp [hca, hca.symm, hra, hra.symm]
  simp [hc, hr, ha]

theorem Stratum.has_set {stratum : Stratum} {flags : List Bytes} {flag : Bytes} (hflag : flag ∈ flagNames) :
    (stratum.set flags).Has flag ↔ stratum.Has flag ∨ flag ∈ flags := by
  obtain ⟨hcr, hca, hra⟩ := flags_distinct
  simp only [flagNames, List.mem_cons, List.not_mem_nil, or_false] at hflag
  unfold Stratum.Has Stratum.set
  rcases hflag with rfl | rfl | rfl
  · simp [hcr, hca]
  · simp [hcr.symm, hra]
  · simp [hca.symm, hra.symm]

theorem Stratum.set_set (stratum : Stratum) (flag : Bytes) (flags : List Bytes) :
    (stratum.set [flag]).set flags = stratum.set (flag :: flags) := by
  simp [Stratum.set, Bool.or_assoc]

/-- The flags of a stratum: known ones, each of them once. -/
theorem foldlM_applyFlag_ok_iff (flags : List Bytes) (stratum stratum' : Stratum) :
    flags.foldlM applyFlag stratum = .ok stratum' ↔
      (∀ f ∈ flags, f ∈ flagNames ∧ ¬ stratum.Has f) ∧ flags.Nodup ∧ stratum' = stratum.set flags := by
  induction flags generalizing stratum with
  | nil => simp [Stratum.set, pure, Except.pure, eq_comm]
  | cons flag flags ih =>
    rw [List.foldlM_cons, Fallible.bind_eq_ok, List.forall_mem_cons, List.nodup_cons]
    constructor
    · rintro ⟨next, hflag, h⟩
      obtain ⟨hknown, hnew, rfl⟩ := (applyFlag_ok_iff _ _ _).1 hflag
      obtain ⟨hflags, hnodup, rfl⟩ := (ih _).1 h
      have hrest : ∀ f ∈ flags, ¬ (stratum.Has f ∨ f ∈ [flag]) := fun f hf hhas =>
        (hflags f hf).2 ((Stratum.has_set (hflags f hf).1).2 hhas)
      refine ⟨⟨⟨hknown, hnew⟩, fun f hf => ⟨(hflags f hf).1, fun hhas => hrest f hf (.inl hhas)⟩⟩, ⟨?_, hnodup⟩, ?_⟩
      · exact fun hmem => hrest flag hmem (.inr List.mem_cons_self)
      · exact Stratum.set_set stratum flag flags
    · rintro ⟨⟨⟨hknown, hnew⟩, hflags⟩, ⟨hnot, hnodup⟩, rfl⟩
      refine ⟨_, (applyFlag_ok_iff _ _ _).2 ⟨hknown, hnew, rfl⟩, (ih _).2 ⟨fun f hf => ⟨(hflags f hf).1, ?_⟩, hnodup, ?_⟩⟩
      · rw [Stratum.has_set (hflags f hf).1, not_or, List.mem_singleton]
        exact ⟨(hflags f hf).2, fun heq => hnot (heq ▸ hf)⟩
      · exact (Stratum.set_set stratum flag flags).symm

/-! ## Strata -/

/-- The stratum of an element: an absolute path and flags. -/
def ReadsStratum (element : Bytes) (stratum : Stratum) : Prop :=
  ∃ path flags, Splits 43 element (path :: flags) ∧ ReadsPath path stratum.path ∧ stratum.path.head? = some 47 ∧
    (∀ f ∈ flags, f ∈ flagNames) ∧ flags.Nodup ∧
    stratum = (⟨stratum.path, false, false, false⟩ : Stratum).set flags

theorem parseStratum_ok_iff (element : Bytes) (stratum : Stratum) :
    parseStratum element = .ok stratum ↔ ReadsStratum element stratum := by
  have hbare : ∀ (path f : Bytes), ¬ (⟨path, false, false, false⟩ : Stratum).Has f := by simp [Stratum.Has]
  rw [parseStratum, Fallible.bind_eq_ok]
  constructor
  · rintro ⟨parts, hparts, h⟩
    have hsplit := (splitEscaped_ok_iff _ _ _).1 hparts
    cases parts with
    | nil => exact absurd rfl hsplit.ne_nil
    | cons p flags =>
      obtain ⟨path, hpath, h⟩ := Fallible.bind_eq_ok.1 h
      obtain ⟨hreads, -⟩ := (unescapePath_ok_iff _ _).1 hpath
      split at h
      · cases h
      · rename_i habsolute
        obtain ⟨hflags, hnodup, rfl⟩ := (foldlM_applyFlag_ok_iff _ _ _).1 h
        exact ⟨p, flags, hsplit, hreads, not_not.1 habsolute, fun f hf => (hflags f hf).1, hnodup, rfl⟩
  · rintro ⟨p, flags, hsplit, hreads, habsolute, hflags, hnodup, hstratum⟩
    refine ⟨p :: flags, (splitEscaped_ok_iff _ _ _).2 hsplit, Fallible.bind_eq_ok.2 ⟨stratum.path, ?_, ?_⟩⟩
    · refine (unescapePath_ok_iff _ _).2 ⟨hreads, fun hnil => ?_⟩
      rw [hnil] at habsolute
      cases habsolute
    · rw [if_neg (not_not.2 habsolute)]
      exact (foldlM_applyFlag_ok_iff _ _ _).2 ⟨fun f hf => ⟨hflags f hf, hbare _ f⟩, hnodup, hstratum⟩

/-! ## Options -/

/-- The options that name strata. -/
def strataOptions (options : List Bytes) : List Bytes := options.filter fun option => strataKey.isPrefixOf option

theorem strataOption_eq {option : Bytes} (h : strataKey.isPrefixOf option = true) :
    option = strataKey ++ option.drop 7 := by
  obtain ⟨rest, rfl⟩ := List.isPrefixOf_iff_prefix.1 h
  rw [show (7 : Nat) = strataKey.length from rfl, List.drop_left]

theorem strataValue_some_ok_iff (found value : Bytes) (options : List Bytes) :
    strataValue (some found) options = .ok value ↔ value = found ∧ strataOptions options = [] := by
  induction options with
  | nil => simp [strataValue, strataOptions, eq_comm]
  | cons option options ih =>
    rw [strataValue, strataOptions, List.filter_cons]
    split
    · exact iff_of_false (by simp [invalid]) (by simp)
    · exact ih

theorem strataValue_ok_iff (value : Bytes) (options : List Bytes) :
    strataValue none options = .ok value ↔ strataOptions options = [strataKey ++ value] := by
  induction options with
  | nil => simp [strataValue, strataOptions, invalid]
  | cons option options ih =>
    rw [strataValue, strataOptions, List.filter_cons]
    split
    · rename_i hkey
      rw [strataValue_some_ok_iff, ← strataOptions, List.cons.injEq]
      refine and_congr_left' ⟨?_, ?_⟩
      · rintro rfl
        exact strataOption_eq hkey
      · intro heq
        rw [heq, show (7 : Nat) = strataKey.length from rfl, List.drop_left]
    · exact ih

/-- The strata of the superblock options: those of the only option that names any. -/
def Reads (superOptions : Bytes) (strata : List Stratum) : Prop :=
  ∃ options value elements, Splits 44 superOptions options ∧ strataOptions options = [strataKey ++ value] ∧
    Splits 58 value elements ∧ List.Forall₂ ReadsStratum elements strata

theorem mapM_parseStratum_ok_iff (elements : List Bytes) (strata : List Stratum) :
    elements.mapM parseStratum = .ok strata ↔ List.Forall₂ ReadsStratum elements strata := by
  rw [Fallible.mapM_eq_ok]
  simp only [parseStratum_ok_iff]

/-- **Which options are accepted.** -/
theorem parseStrataMount_ok_iff (entry : MountEntry) (mount : StrataMount) :
    parseStrataMount entry = .ok mount ↔
      Reads entry.superOptions mount.strata ∧ mount.mountPoint = entry.mountPoint ∧
        mount.readOnly = hasOption entry.vfsOptions roFlag := by
  rw [parseStrataMount, Fallible.bind_eq_ok]
  constructor
  · rintro ⟨options, hoptions, h⟩
    obtain ⟨value, hvalue, h⟩ := Fallible.bind_eq_ok.1 h
    obtain ⟨elements, helements, h⟩ := Fallible.bind_eq_ok.1 h
    split at h
    · cases h
    · obtain ⟨strata, hstrata, h⟩ := Fallible.bind_eq_ok.1 h
      obtain rfl := Except.ok.inj h
      exact ⟨⟨options, value, elements, (splitEscaped_ok_iff _ _ _).1 hoptions, (strataValue_ok_iff _ _).1 hvalue,
        (splitEscaped_ok_iff _ _ _).1 helements, (mapM_parseStratum_ok_iff _ _).1 hstrata⟩, rfl, rfl⟩
  · rintro ⟨⟨options, value, elements, hoptions, hvalue, helements, hstrata⟩, hmount, hreadOnly⟩
    refine ⟨options, (splitEscaped_ok_iff _ _ _).2 hoptions, Fallible.bind_eq_ok.2
      ⟨value, (strataValue_ok_iff _ _).2 hvalue, Fallible.bind_eq_ok.2
        ⟨elements, (splitEscaped_ok_iff _ _ _).2 helements, ?_⟩⟩⟩
    rw [if_neg helements.ne_nil, (mapM_parseStratum_ok_iff _ _).2 hstrata, ← hmount, ← hreadOnly]
    rfl

end Peiosutils.Stratafs
