import Peiosutils.Regman.Serialized

/-!
# Lookups in an index

On an index that reads as strictly ascending entries, the binary search finds where a target belongs
(`lowerBound_spec`), and with the pass over the wildcard anchors a lookup selects each entry whose anchor matches, once
(`lookupKey_spec`). An exact lookup also selects an anchor that is the query, whether it matches or not
(`lookupExact_spec`). So every location of the entries that `serialize` writes is found, once (`lookups_serialize`).
-/

set_option autoImplicit false

namespace Peiosutils.Regman

open Utf8 Keyed ByteStore

theorem encode_injective : Function.Injective encode := by
  intro s t h
  rw [← toStringLossy_encode s, h, toStringLossy_encode]

theorem byteKey_injective : Function.Injective byteKey := List.map_injective_iff.2 fun _ _ => UInt8.toNat_inj.1

theorem anchorKey_injective : Function.Injective anchorKey := byteKey_injective.comp encode_injective

/-- A query selects these of the entries, each once. -/
structure Selects (entries : Entries) (p : Str → Prop) (idxs : List Nat) : Prop where
  nodup : idxs.Nodup
  mem : ∀ i, i ∈ idxs ↔ ∃ e, entries[i]? = some e ∧ p e.1

/-- The entries of the numbers. -/
def entriesAt (entries : Entries) (idxs : List Nat) : Entries := idxs.filterMap (entries[·]?)

namespace Represents

variable {index : Index} {entries : Entries} {files : List PathBuf}

/-- The search keeps smaller anchors in front of `lo` and the others from `hi` on. -/
theorem lowerBoundFrom_spec (h : Represents index entries files) (hsorted : Sorted entries) (target : List UInt8)
    (passes : Nat) : ∀ lo hi, lo ≤ hi → hi ≤ entries.length → hi - lo ≤ passes →
      (∀ j e, entries[j]? = some e → j < lo → byteKey (encode e.1) < byteKey target) →
      (∀ j e, entries[j]? = some e → hi ≤ j → byteKey target ≤ byteKey (encode e.1)) →
      ∃ i, index.lowerBoundFrom target passes lo hi = .ok i ∧ i ≤ entries.length ∧
        (∀ j e, entries[j]? = some e → j < i → byteKey (encode e.1) < byteKey target) ∧
        ∀ j e, entries[j]? = some e → i ≤ j → byteKey target ≤ byteKey (encode e.1) := by
  have hlt : ∀ {i j : Nat} {d e : Str × List (Nat × Nat)}, entries[i]? = some d → entries[j]? = some e → i < j →
      byteKey (encode d.1) < byteKey (encode e.1) := by
    intro i j d e hi hj hij
    obtain ⟨hi', rfl⟩ := List.getElem?_eq_some_iff.1 hi
    obtain ⟨hj', rfl⟩ := List.getElem?_eq_some_iff.1 hj
    exact List.pairwise_iff_getElem.1 hsorted i j hi' hj' hij
  induction passes with
  | zero =>
    intro lo hi hle hn hp hlo hhi
    obtain rfl : lo = hi := by omega
    exact ⟨lo, rfl, hn, hlo, hhi⟩
  | succ passes ih =>
    intro lo hi hle hn hp hlo hhi
    rw [Index.lowerBoundFrom]
    by_cases hlh : lo < hi
    · have hmid : (lo + hi) / 2 < entries.length := by omega
      have he := List.getElem?_eq_getElem hmid
      rw [if_pos hlh]
      simp only [h.anchor _ _ he, bind, Except.bind]
      split
      · rename_i hless
        refine ih _ _ (by omega) hn (by omega) ?_ hhi
        intro j e hj hjm
        rcases Nat.lt_or_eq_of_le (Nat.le_of_lt_succ hjm) with hjm | rfl
        · exact (hlt hj he hjm).trans hless
        · obtain rfl : e = entries[(lo + hi) / 2] := by simpa [he] using hj.symm
          exact hless
      · rename_i hless
        refine ih _ _ (by omega) (by omega) (by omega) hlo ?_
        intro j e hj hjm
        rcases Nat.lt_or_eq_of_le hjm with hjm | rfl
        · exact (not_lt.1 hless).trans (hlt he hj hjm).le
        · obtain rfl : e = entries[(lo + hi) / 2] := by simpa [he] using hj.symm
          exact not_lt.1 hless
    · rw [if_neg hlh]
      obtain rfl : lo = hi := by omega
      exact ⟨lo, rfl, hn, hlo, hhi⟩

/-- The binary search finds the first anchor that is not smaller. -/
theorem lowerBound_spec (h : Represents index entries files) (hsorted : Sorted entries) (target : List UInt8) :
    ∃ i, index.lowerBound target = .ok i ∧ i ≤ entries.length ∧
      (∀ j e, entries[j]? = some e → j < i → byteKey (encode e.1) < byteKey target) ∧
      ∀ j e, entries[j]? = some e → i ≤ j → byteKey target ≤ byteKey (encode e.1) := by
  have hn : ∀ j e, entries[j]? = some e → j < entries.length := fun j e hj => (List.getElem?_eq_some_iff.1 hj).1
  rw [Index.lowerBound, h.count]
  exact h.lowerBoundFrom_spec hsorted target _ 0 _ (by omega) (le_refl _) (by omega) (fun _ _ _ hj => by omega)
    fun j e hj hle => absurd (hn j e hj) (by omega)

/-- The pass over the wildcard anchors adds those that match and are not there. -/
theorem pushWildcardMatches_spec (h : Represents index entries files) (pred : Str → Bool) (n : Nat) :
    ∀ k idxs, k + n = (wildIndices 0 entries).length → idxs.Nodup →
      ∃ idxs', index.pushWildcardMatches pred n k idxs = .ok idxs' ∧ idxs'.Nodup ∧
        ∀ i, i ∈ idxs' ↔ i ∈ idxs ∨
          (i ∈ (wildIndices 0 entries).drop k ∧ ∃ e, entries[i]? = some e ∧ pred e.1 = true) := by
  induction n with
  | zero =>
    intro k idxs hk hnd
    refine ⟨idxs, rfl, hnd, fun i => ?_⟩
    rw [List.drop_of_length_le (by omega)]
    simp
  | succ n ih =>
    intro k idxs hk hnd
    have hlt : k < (wildIndices 0 entries).length := by omega
    have hw := List.getElem?_eq_getElem hlt
    generalize hi : (wildIndices 0 entries)[k] = i at hw
    obtain ⟨j, e, hj, he, _⟩ := mem_wildIndices.1 (List.mem_of_getElem? hw)
    obtain rfl : i = j := by omega
    have hdrop : (wildIndices 0 entries).drop k = i :: (wildIndices 0 entries).drop (k + 1) := by
      rw [← hi, List.getElem_cons_drop]
    have hin := (List.getElem?_eq_some_iff.1 he).1
    rw [Index.pushWildcardMatches, h.wild k i hw]
    simp only [bind, Except.bind]
    by_cases hmem : i ∈ idxs
    · rw [if_pos (Or.inr hmem)]
      obtain ⟨idxs', hr, hnd', hm⟩ := ih (k + 1) idxs (by omega) hnd
      refine ⟨idxs', hr, hnd', fun x => ?_⟩
      rw [hm, hdrop, List.mem_cons]
      constructor
      · rintro (hx | ⟨hx, hp⟩)
        · exact Or.inl hx
        · exact Or.inr ⟨Or.inr hx, hp⟩
      · rintro (hx | ⟨rfl | hx, hp⟩)
        · exact Or.inl hx
        · exact Or.inl hmem
        · exact Or.inr ⟨hx, hp⟩
    · rw [if_neg (not_or.2 ⟨by rw [h.count]; omega, hmem⟩), h.anchor i e he]
      simp only [fromUtf8_encode, Option.any_some]
      by_cases hp : pred e.1 = true
      · obtain ⟨idxs', hr, hnd', hm⟩ := ih (k + 1) (idxs ++ [i]) (by omega)
          (List.nodup_append.2 ⟨hnd, List.nodup_singleton i, fun a ha b hb e =>
            hmem (e.trans (List.mem_singleton.1 hb) ▸ ha)⟩)
        rw [if_pos hp]
        refine ⟨idxs', hr, hnd', fun x => ?_⟩
        rw [hm, hdrop, List.mem_cons, List.mem_append, List.mem_singleton]
        constructor
        · rintro ((hx | rfl) | ⟨hx, hp⟩)
          · exact Or.inl hx
          · exact Or.inr ⟨Or.inl rfl, e, he, hp⟩
          · exact Or.inr ⟨Or.inr hx, hp⟩
        · rintro (hx | ⟨rfl | hx, hp⟩)
          · exact Or.inl (Or.inl hx)
          · exact Or.inl (Or.inr rfl)
          · exact Or.inr ⟨hx, hp⟩
      · rw [if_neg hp]
        obtain ⟨idxs', hr, hnd', hm⟩ := ih (k + 1) idxs (by omega) hnd
        refine ⟨idxs', hr, hnd', fun x => ?_⟩
        rw [hm, hdrop, List.mem_cons]
        constructor
        · rintro (hx | ⟨hx, hp⟩)
          · exact Or.inl hx
          · exact Or.inr ⟨Or.inr hx, hp⟩
        · rintro (hx | ⟨rfl | hx, e', he', hp'⟩)
          · exact Or.inl hx
          · obtain rfl : e = e' := by simpa [he] using he'
            exact absurd hp' hp
          · exact Or.inr ⟨hx, e', he', hp'⟩

/-- The locations of the selected entries. -/
theorem collect_spec (h : Represents index entries files) {idxs : List Nat} (hin : ∀ i ∈ idxs, i < entries.length) :
    index.collect idxs = .ok ((entriesAt entries idxs).flatMap fun e => e.2.filterMap (resolve files)) := by
  induction idxs with
  | nil => rfl
  | cons i idxs ih =>
    have he := List.getElem?_eq_getElem (hin i List.mem_cons_self)
    obtain ⟨d, hd, hl⟩ := h.located i _ he
    have hrest := ih fun j hj => hin j (List.mem_cons_of_mem i hj)
    rw [Index.collect, hd]
    simp only [bind, Except.bind, hl, hrest, entriesAt, List.filterMap_cons, he, List.flatMap_cons]
    rfl

/-- What an exact lookup selects: anchors that match, and one that is the query. -/
theorem lookupExact_spec (h : Represents index entries files) (hsorted : Sorted entries) (q : Str) :
    ∃ idxs, Selects entries (fun a => a = q ∨ isExact a q = true) idxs ∧
      index.lookupExact q = .ok ((entriesAt entries idxs).flatMap fun e => e.2.filterMap (resolve files)) := by
  obtain ⟨i, hi, hle, hbefore, hafter⟩ := h.lowerBound_spec hsorted (encode q)
  -- the search finds an anchor that is the query, if there is one
  obtain ⟨found, hfound, hiff⟩ : ∃ found, index.isAnchor i (encode q) = .ok found ∧
      (found = true ↔ ∃ e, entries[i]? = some e ∧ e.1 = q) := by
    unfold Index.isAnchor
    by_cases hlt : i < entries.length
    · have he := List.getElem?_eq_getElem hlt
      rw [if_pos (h.count ▸ hlt), h.anchor i _ he]
      refine ⟨_, rfl, ?_⟩
      simp [he, encode_injective.eq_iff]
    · rw [if_neg (h.count ▸ hlt)]
      exact ⟨false, rfl, by simp [List.getElem?_eq_none (not_lt.1 hlt)]⟩
  have hat : ∀ j e, entries[j]? = some e → e.1 = q → j = i ∧ found = true := by
    rintro j e hj rfl
    have hji : i ≤ j := not_lt.1 fun hlt => lt_irrefl _ (hbefore j e hj hlt)
    have hjlt := (List.getElem?_eq_some_iff.1 hj).1
    have hi' := List.getElem?_eq_getElem (l := entries) (i := i) (by omega)
    have hij : ¬ i < j := by
      intro hlt
      obtain ⟨_, rfl⟩ := List.getElem?_eq_some_iff.1 hj
      exact lt_irrefl _ ((List.pairwise_iff_getElem.1 hsorted i j _ hjlt hlt).trans_le' (hafter i _ hi' (le_refl _)))
    obtain rfl : i = j := by omega
    exact ⟨rfl, hiff.2 ⟨e, hj, rfl⟩⟩
  obtain ⟨idxs, hpush, hnd, hmem⟩ := h.pushWildcardMatches_spec (fun a => isExact a q) index.wildN 0
    (if found then [i] else []) (by rw [h.wildN]; omega) (by split <;> simp)
  have hsel : Selects entries (fun a => a = q ∨ isExact a q = true) idxs := by
    refine ⟨hnd, fun j => ?_⟩
    rw [hmem, List.drop_zero]
    constructor
    · rintro (hj | ⟨_, e, he, hp⟩)
      · cases found with
        | false => cases hj
        | true =>
          obtain rfl : j = i := by simpa using hj
          obtain ⟨e, he, hq⟩ := hiff.1 rfl
          exact ⟨e, he, Or.inl hq⟩
      · exact ⟨e, he, Or.inr hp⟩
    · rintro ⟨e, he, hq | hp⟩
      · obtain ⟨rfl, hf⟩ := hat j e he hq
        exact Or.inl (by simp [hf])
      · by_cases hw : hasWildcard e.1 = true
        · exact Or.inr ⟨mem_wildIndices.2 ⟨j, e, by omega, he, hw⟩, e, he, hp⟩
        · have hq := (matchesExact_eq (by simpa using hw)).1 hp
          obtain ⟨rfl, hf⟩ := hat j e he hq
          exact Or.inl (by simp [hf])
  refine ⟨idxs, hsel, ?_⟩
  have hin : ∀ j ∈ idxs, j < entries.length := by
    intro j hj
    obtain ⟨e, he, _⟩ := (hsel.mem j).1 hj
    exact (List.getElem?_eq_some_iff.1 he).1
  simp only [Index.lookupExact, hi, bind, Except.bind, hfound, hpush]
  exact h.collect_spec hin

/-- The walk of a key lookup: from `i` on, as long as the anchors begin with the key. -/
theorem keyRange_spec (h : Represents index entries files) (q : Str) (n : Nat) : ∀ i, i + n = entries.length →
    ∃ idxs, index.keyRange q n i = .ok idxs ∧ idxs.Nodup ∧
      ∀ j, j ∈ idxs ↔ i ≤ j ∧ (∃ e, entries[j]? = some e ∧ isUnderKey e.1 q = true) ∧
        ∀ k e, entries[k]? = some e → i ≤ k → k ≤ j → encode q <+: encode e.1 := by
  induction n with
  | zero =>
    intro i hi
    refine ⟨[], rfl, List.nodup_nil, fun j => ?_⟩
    simp only [List.not_mem_nil, false_iff, not_and]
    rintro hij ⟨e, he, _⟩
    have := (List.getElem?_eq_some_iff.1 he).1
    omega
  | succ n ih =>
    intro i hi
    have he := List.getElem?_eq_getElem (l := entries) (i := i) (by omega)
    generalize entries[i] = e at he
    rw [Index.keyRange, h.anchor i e he]
    simp only [bind, Except.bind, fromUtf8_encode, Option.any_some]
    by_cases hp : encode q <+: encode e.1
    · obtain ⟨idxs, hr, hnd, hm⟩ := ih (i + 1) (by omega)
      rw [if_pos (List.isPrefixOf_iff_prefix.2 hp)]
      simp only [hr]
      have hsplit : ∀ j, i < j → (j ∈ idxs ↔ i ≤ j ∧ (∃ e, entries[j]? = some e ∧ isUnderKey e.1 q = true) ∧
          ∀ k e, entries[k]? = some e → i ≤ k → k ≤ j → encode q <+: encode e.1) := by
        intro j hij
        rw [hm]
        constructor
        · rintro ⟨_, hu, hall⟩
          refine ⟨by omega, hu, fun k e' hk hik hkj => ?_⟩
          rcases Nat.lt_or_eq_of_le hik with hik | rfl
          · exact hall k e' hk hik hkj
          · obtain rfl : e = e' := by simpa [he] using hk
            exact hp
        · rintro ⟨_, hu, hall⟩
          exact ⟨by omega, hu, fun k e' hk hik hkj => hall k e' hk (by omega) hkj⟩
      have hfirst : ∀ j, j ≤ i → j ∉ idxs := fun j hj hj' => absurd ((hm j).1 hj').1 (by omega)
      refine ⟨_, rfl, ?_, fun j => ?_⟩
      · split
        · exact List.nodup_cons.2 ⟨hfirst i (le_refl _), hnd⟩
        · exact hnd
      · rcases Nat.lt_trichotomy i j with hij | rfl | hij
        · rw [← hsplit j hij]
          split
          · simp [Nat.ne_of_gt hij]
          · rfl
        · have hright : (∀ k e, entries[k]? = some e → i ≤ k → k ≤ i → encode q <+: encode e.1) := by
            intro k e' hk hik hki
            obtain rfl : k = i := by omega
            obtain rfl : e = e' := by simpa [he] using hk
            exact hp
          split
          · rename_i hu
            exact ⟨fun _ => ⟨le_refl _, ⟨e, he, hu⟩, hright⟩, fun _ => List.mem_cons_self⟩
          · rename_i hu
            refine ⟨fun hj => absurd hj (hfirst i (le_refl _)), ?_⟩
            rintro ⟨_, ⟨e', he', hu'⟩, _⟩
            obtain rfl : e = e' := by simpa [he] using he'
            exact absurd hu' hu
        · have hno : ¬ i ≤ j := by omega
          split
          · simp [hno, Nat.ne_of_lt hij, hfirst j hij.le]
          · simp [hno, hfirst j hij.le]
    · rw [if_neg (by rwa [List.isPrefixOf_iff_prefix])]
      refine ⟨[], rfl, List.nodup_nil, fun j => ?_⟩
      simp only [List.not_mem_nil, false_iff, not_and]
      intro hij _ hall
      exact hp (hall i e he (le_refl _) hij)

/-- What a key lookup selects: the anchors that belong to the key. -/
theorem lookupKey_spec (h : Represents index entries files) (hsorted : Sorted entries) (q : Str) :
    ∃ idxs, Selects entries (fun a => isUnderKey a q = true) idxs ∧
      index.lookupKey q = .ok ((entriesAt entries idxs).flatMap fun e => e.2.filterMap (resolve files)) := by
  obtain ⟨i, hi, hle, hbefore, hafter⟩ := h.lowerBound_spec hsorted (encode q)
  obtain ⟨range, hrange, hrnd, hrmem⟩ := h.keyRange_spec q (entries.length - i) i (by omega)
  obtain ⟨idxs, hpush, hnd, hmem⟩ := h.pushWildcardMatches_spec (fun a => isUnderKey a q) index.wildN 0 range
    (by rw [h.wildN]; omega) hrnd
  -- the anchors that begin with the key are next to each other
  have hcontig : ∀ j e, entries[j]? = some e → encode q <+: encode e.1 →
      i ≤ j ∧ ∀ k e, entries[k]? = some e → i ≤ k → k ≤ j → encode q <+: encode e.1 := by
    rintro j e hj ⟨s, hs⟩
    have hkey : byteKey (encode e.1) = byteKey (encode q) ++ byteKey s := by rw [← hs, byteKey, List.map_append]; rfl
    have hij : i ≤ j := by
      refine not_lt.1 fun hlt => ?_
      have := hbefore j e hj hlt
      rw [hkey] at this
      exact absurd this (not_lt.2 (le_append _ _))
    refine ⟨hij, fun k e' hk hik hkj => ?_⟩
    have hupper : byteKey (encode e'.1) ≤ byteKey (encode q) ++ byteKey s := by
      rw [← hkey]
      rcases Nat.lt_or_eq_of_le hkj with hkj | rfl
      · obtain ⟨_, rfl⟩ := List.getElem?_eq_some_iff.1 hj
        obtain ⟨_, rfl⟩ := List.getElem?_eq_some_iff.1 hk
        exact (List.pairwise_iff_getElem.1 hsorted k j _ _ hkj).le
      · obtain rfl : e = e' := by simpa [hj] using hk
        exact le_refl _
    have hp : byteKey (encode q) <+: byteKey (encode e'.1) := prefix_of_between (hafter k e' hk hik) hupper
    exact (List.prefix_map_iff_of_injective fun _ _ => UInt8.toNat_inj.1).1 hp
  have hsel : Selects entries (fun a => isUnderKey a q = true) idxs := by
    refine ⟨hnd, fun j => ?_⟩
    rw [hmem, hrmem, List.drop_zero]
    constructor
    · rintro (⟨_, hu, _⟩ | ⟨_, hu⟩)
      · exact hu
      · exact hu
    · rintro ⟨e, he, hu⟩
      by_cases hw : hasWildcard e.1 = true
      · exact Or.inr ⟨mem_wildIndices.2 ⟨j, e, by omega, he, hw⟩, e, he, hu⟩
      · have ⟨hij, hall⟩ := hcontig j e he (matchesUnderKey_eq (by simpa using hw) hu)
        exact Or.inl ⟨hij, ⟨e, he, hu⟩, hall⟩
  refine ⟨idxs, hsel, ?_⟩
  have hin : ∀ j ∈ idxs, j < entries.length := by
    intro j hj
    obtain ⟨e, he, _⟩ := (hsel.mem j).1 hj
    exact (List.getElem?_eq_some_iff.1 he).1
  simp only [Index.lookupKey, hi, bind, Except.bind]
  rw [h.count, hrange]
  simp only [hpush]
  exact h.collect_spec hin

end Represents

/-! ## Lookups in what is written -/

theorem Sorted.nodup {entries : Entries} (h : Sorted entries) : entries.Nodup :=
  List.Pairwise.imp (fun hlt e => absurd (e ▸ hlt) (lt_irrefl _)) h

theorem Selects.mem_entriesAt {entries : Entries} {p : Str → Prop} {idxs : List Nat} (h : Selects entries p idxs)
    {e : Str × List (Nat × Nat)} : e ∈ entriesAt entries idxs ↔ e ∈ entries ∧ p e.1 := by
  rw [entriesAt, List.mem_filterMap]
  constructor
  · rintro ⟨i, hi, he⟩
    obtain ⟨e', he', hp⟩ := (h.mem i).1 hi
    obtain rfl : e' = e := by simpa [he'] using he
    exact ⟨List.mem_of_getElem? he, hp⟩
  · rintro ⟨he, hp⟩
    obtain ⟨i, hi⟩ := List.mem_iff_getElem?.1 he
    exact ⟨i, (h.mem i).2 ⟨e, hi, hp⟩, hi⟩

theorem Selects.nodup_entriesAt {entries : Entries} {p : Str → Prop} {idxs : List Nat} (h : Selects entries p idxs)
    (hsorted : Sorted entries) : (entriesAt entries idxs).Nodup := by
  refine List.Nodup.filterMap (fun i j e hi hj => ?_) h.nodup
  obtain ⟨hi', rfl⟩ := List.getElem?_eq_some_iff.1 hi
  obtain ⟨hj', he⟩ := List.getElem?_eq_some_iff.1 hj
  exact ((List.Nodup.getElem_inj_iff hsorted.nodup).1 he).symm

/-- A selection is the entries that satisfy the condition, in some order. -/
theorem Selects.perm {entries : Entries} {p : Str → Prop} [DecidablePred p] {idxs : List Nat}
    (h : Selects entries p idxs) (hsorted : Sorted entries) :
    (entriesAt entries idxs).Perm (entries.filter fun e => p e.1) := by
  refine (List.perm_ext_iff_of_nodup (h.nodup_entriesAt hsorted) (hsorted.nodup.filter _)).2 fun e => ?_
  rw [h.mem_entriesAt, List.mem_filter, decide_eq_true_iff]

/-- The location as the table of `files` resolves it. -/
def locationOf (files : List Str) (loc : Nat × Nat) : Location := ⟨encode (files.getD loc.1 []), loc.2⟩

theorem filterMap_resolve {files : List Str} {locs : List (Nat × Nat)} (h : ∀ loc ∈ locs, loc.1 < files.length) :
    locs.filterMap (resolve (files.map encode)) = locs.map (locationOf files) := by
  rw [← List.filterMap_eq_map (f := locationOf files)]
  refine List.filterMap_congr fun loc hloc => ?_
  simp [resolve, locationOf, List.getD_eq_getElem?_getD, List.getElem?_eq_getElem (h loc hloc)]

/-- `decode` accepts what `serialize` writes, and the lookups in it return every location of every anchor that matches
once; an exact lookup returns those of an anchor spelled like the query as well. -/
theorem lookups_serialize (entries : Entries) (files : List Str) (hsorted : Sorted entries)
    (hsmall : (serialize entries files).length < 2 ^ 32)
    (hin : ∀ e ∈ entries, ∀ loc ∈ e.2, loc.1 < files.length ∧ loc.2 < 2 ^ 64) :
    ∃ index, decode (serialize entries files) = .ok (some index) ∧ ∀ q : Str,
      (∃ found, found.Perm ((entries.filter fun e => e.1 = q ∨ matchesExact e.1 q).flatMap
          fun e => e.2.map (locationOf files)) ∧ index.lookupExact q = .ok found) ∧
      ∃ found, found.Perm ((entries.filter fun e => matchesUnderKey e.1 q).flatMap
          fun e => e.2.map (locationOf files)) ∧ index.lookupKey q = .ok found := by
  have hrep := (stored_written hsmall hin).represents
  have hmap : ∀ sel : Entries, (∀ e ∈ sel, e ∈ entries) →
      (sel.flatMap fun e => e.2.filterMap (resolve (files.map encode))) =
        sel.flatMap fun e => e.2.map (locationOf files) := by
    intro sel hsel
    refine List.flatMap_congr fun e he => filterMap_resolve fun loc hloc => (hin e (hsel e he) loc hloc).1
  refine ⟨_, decode_serialize hsorted hsmall hin, fun q => ⟨?_, ?_⟩⟩
  · obtain ⟨idxs, hsel, hl⟩ := hrep.lookupExact_spec hsorted q
    rw [hmap _ fun e he => (hsel.mem_entriesAt.1 he).1] at hl
    exact ⟨_, (hsel.perm hsorted).flatMap_right _, hl⟩
  · obtain ⟨idxs, hsel, hl⟩ := hrep.lookupKey_spec hsorted q
    rw [hmap _ fun e he => (hsel.mem_entriesAt.1 he).1] at hl
    refine ⟨_, ?_, hl⟩
    have := (hsel.perm hsorted).flatMap_right fun e => e.2.map (locationOf files)
    simp only [Bool.decide_eq_true] at this
    exact this

/-- An anchor in angle brackets with a space in it, at the start of the only file. -/
def spacedEntries : Entries := [("<a b>".toList, [(0, 0)])]

/-- A location may name no file of the table, and an anchor may be spelled like the query and not match it. -/
theorem lookups_not_exact :
    decode (serialize spacedEntries []) = .ok none ∧
    ¬ ∀ (entries : Entries) (files : List Str), Sorted entries → (serialize entries files).length < 2 ^ 32 →
      (∀ e ∈ entries, ∀ loc ∈ e.2, loc.1 < files.length ∧ loc.2 < 2 ^ 64) →
      ∃ index, decode (serialize entries files) = .ok (some index) ∧ ∀ q : Str,
        ∃ found, found.Perm ((entries.filter fun e => matchesExact e.1 q).flatMap
          fun e => e.2.map (locationOf files)) ∧ index.lookupExact q = .ok found := by
  refine ⟨by decide +kernel, fun h => ?_⟩
  obtain ⟨index, hd, hq⟩ := h spacedEntries ["f".toList] (by simp [Sorted, spacedEntries]) (by decide +kernel)
    (by decide +kernel)
  have hw : decode (serialize spacedEntries ["f".toList]) = .ok (some (writtenIndex spacedEntries ["f".toList])) := by
    decide +kernel
  rw [hw] at hd
  cases hd
  obtain ⟨found, hp, hl⟩ := hq "<a b>".toList
  have hno : (spacedEntries.filter fun e => matchesExact e.1 "<a b>".toList) = [] := by decide +kernel
  rw [hno, List.flatMap_nil, List.perm_nil] at hp
  have hone : (writtenIndex spacedEntries ["f".toList]).lookupExact "<a b>".toList = .ok [⟨encode "f".toList, 0⟩] := by
    decide +kernel
  rw [hone, hp] at hl
  cases hl

/-- A key, a value and a wildcard, in two files. -/
def smallEntries : Entries :=
  [("a".toList, [(1, 0), (0, 7)]), ("a b".toList, [(0, 30)]), ("a\\<x>".toList, [(1, 40)])]

theorem lookups_serialize_small :
    ∃ index, decode (serialize smallEntries ["f".toList, "g".toList]) = .ok (some index) ∧
      index.lookupKey "a".toList =
        .ok [⟨encode "g".toList, 0⟩, ⟨encode "f".toList, 7⟩, ⟨encode "f".toList, 30⟩] := by
  obtain ⟨index, hd, _⟩ := lookups_serialize smallEntries ["f".toList, "g".toList]
    (by simp only [Sorted, smallEntries]; decide +kernel) (by decide +kernel) (by decide +kernel)
  have hw : decode (serialize smallEntries ["f".toList, "g".toList]) =
      .ok (some (writtenIndex smallEntries ["f".toList, "g".toList])) := by decide +kernel
  rw [hw] at hd
  cases hd
  exact ⟨_, hw, by decide +kernel⟩

end Peiosutils.Regman
