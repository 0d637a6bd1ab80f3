import Mathlib.Data.Finset.Max
import Peiosutils.Regman.Located

/-!
# What the tiers find

`answer` is the list that a query gives for the records that were found: the most specific of them, sorted. A scan gives
the answer of all matching records (`resolve_none`); with an index it is the answer of those that the recorded locations
lead to, or of those in the named files, or of all (`resolve_some`). `resolve_agrees` says when the two are the same.
-/

set_option autoImplicit false

namespace Peiosutils.Regman

open Utf8 Keyed Fallible

/-! ## The most specific records -/

/-- No record of the same kind is more specific. -/
def Best (xs : List Located) (x : Located) : Prop :=
  ∀ y ∈ xs, y.2.kind = x.2.kind → specificity x.2.anchor ≤ specificity y.2.anchor

instance (xs : List Located) : DecidablePred (Best xs) := fun x =>
  inferInstanceAs (Decidable (∀ y ∈ xs, y.2.kind = x.2.kind → specificity x.2.anchor ≤ specificity y.2.anchor))

def answer (xs : List Located) : List Hit := sortOn hitKey ((xs.filter (Best xs)).map hitOf)

/-- What is kept of one kind has the least specificity of that kind. -/
theorem retainBest_eq (hits : List Hit) (kind : Kind) : retainBest hits kind = hits.filter fun h =>
    decide (h.record.kind = kind → ∀ g ∈ hits, g.record.kind = kind →
      specificity h.record.anchor ≤ specificity g.record.anchor) := by
  unfold retainBest
  simp only
  split
  · rename_i hnone
    rw [List.min?_eq_none_iff, List.map_eq_nil_iff, List.filter_eq_nil_iff] at hnone
    symm
    rw [List.filter_eq_self]
    intro h hh
    rw [decide_eq_true_iff]
    intro hk
    exact absurd (by simpa using hk) (hnone h hh)
  · rename_i best hbest
    obtain ⟨hmem, hle⟩ := List.min?_eq_some_iff.1 hbest
    obtain ⟨g, hg, hgbest⟩ := List.mem_map.1 hmem
    rw [List.mem_filter, decide_eq_true_iff] at hg
    refine List.filter_congr fun h hh => ?_
    rw [Bool.eq_iff_iff, Bool.or_eq_true, decide_eq_true_iff, decide_eq_true_iff, decide_eq_true_iff]
    constructor
    · rintro (hne | heq) hk
      · exact absurd hk hne
      · intro g' hg' hk'
        rw [heq]
        exact hle _ (List.mem_map.2 ⟨g', List.mem_filter.2 ⟨hg', by simpa using hk'⟩, rfl⟩)
    · intro hbst
      by_cases hk : h.record.kind = kind
      · refine Or.inr (le_antisymm ?_ ?_)
        · rw [← hgbest]
          exact hbst hk g hg.1 hg.2
        · exact hle _ (List.mem_map.2 ⟨h, List.mem_filter.2 ⟨hh, by simpa using hk⟩, rfl⟩)
      · exact Or.inl hk

/-- The two passes keep what is most specific among the hits of its kind. -/
theorem applySpecificity_eq (hits : List Hit) : applySpecificity hits = hits.filter fun h =>
    decide (∀ g ∈ hits, g.record.kind = h.record.kind →
      specificity h.record.anchor ≤ specificity g.record.anchor) := by
  rw [applySpecificity, List.foldl_cons, List.foldl_cons, List.foldl_nil, retainBest_eq, retainBest_eq,
    List.filter_filter]
  refine List.filter_congr fun h hh => ?_
  rw [Bool.eq_iff_iff, Bool.and_eq_true, decide_eq_true_iff, decide_eq_true_iff, decide_eq_true_iff]
  -- the first pass leaves the hits of the other kind alone
  have hleft : ∀ g, (g ∈ hits.filter fun h => decide (h.record.kind = Kind.key → ∀ g ∈ hits,
      g.record.kind = Kind.key → specificity h.record.anchor ≤ specificity g.record.anchor)) ∧
      g.record.kind = Kind.value ↔ g ∈ hits ∧ g.record.kind = Kind.value := by
    intro g
    rw [List.mem_filter, decide_eq_true_iff]
    refine ⟨fun ⟨hg, hk⟩ => ⟨hg.1, hk⟩, fun ⟨hg, hk⟩ => ⟨⟨hg, fun hk' => ?_⟩, hk⟩⟩
    rw [hk] at hk'
    cases hk'
  cases hkind : h.record.kind with
  | key => simp
  | value =>
    simp only [reduceCtorEq, false_imp_iff, true_imp_iff, and_true]
    exact ⟨fun hb g hg hk => hb g ((hleft g).2 ⟨hg, hk⟩).1 hk, fun hb g hg hk => hb g ((hleft g).1 ⟨hg, hk⟩).1 hk⟩

theorem applySpecificity_sorted (xs : List Located) :
    applySpecificity (sortOn hitKey (xs.map hitOf)) = answer xs := by
  rw [applySpecificity_eq, ← sortOn_filter, answer, List.filter_map]
  congr 2
  refine List.filter_congr fun x _ => ?_
  rw [Function.comp_apply, decide_eq_decide]
  constructor
  · exact fun h y hy => h (hitOf y) (mem_sortOn.2 (List.mem_map_of_mem hy))
  · intro h g hg
    obtain ⟨y, hy, rfl⟩ := List.mem_map.1 (mem_sortOn.1 hg)
    exact h y hy

/-- Of the records of a kind, one is most specific. -/
theorem exists_best {xs : List Located} {x : Located} (hx : x ∈ xs) :
    ∃ y ∈ xs, y.2.kind = x.2.kind ∧ Best xs y := by
  classical
  obtain ⟨y, hy, hle⟩ := ((xs.filter (·.2.kind = x.2.kind)).toFinset).exists_min_image
    (fun y => specificity y.2.anchor) ⟨x, by simpa using hx⟩
  simp only [List.mem_toFinset, List.mem_filter, decide_eq_true_eq] at hy hle
  exact ⟨y, hy.1, hy.2, fun z hz hk => hle z ⟨hz, hk.trans hy.2⟩⟩

/-- Some of the records, with all the most specific ones, have the same most specific ones. -/
theorem best_iff {xs ys : List Located} (hsub : ∀ x ∈ xs, x ∈ ys) (hcov : ∀ y ∈ ys, Best ys y → y ∈ xs) {x : Located}
    (hx : x ∈ xs) : Best xs x ↔ Best ys x := by
  refine ⟨fun h y hy hk => ?_, fun h y hy hk => h y (hsub y hy) hk⟩
  obtain ⟨z, hz, hzk, hbest⟩ := exists_best (hsub x hx)
  exact (h z (hcov z hz hbest) hzk).trans (hbest y hy (hk.trans hzk.symm))

/-- The place of a record in the corpus. -/
def placeKey (x : Located) : List Nat ×ₗ Nat := toLex (byteKey x.1, x.2.fenceOffset)

/-- Some of the records give the same answer as all just where the most specific ones are there, in their order in the
corpus as far as provider and anchor leave it open. -/
theorem answer_eq_iff {xs ys : List Located} (hsub : ∀ x ∈ xs, x ∈ ys)
    (hys : ys.Pairwise fun x y => placeKey x < placeKey y) :
    answer xs = answer ys ↔ (∀ y ∈ ys, Best ys y → y ∈ xs) ∧
      xs.Pairwise fun x y => Best ys x → Best ys y → hitKey (hitOf x) = hitKey (hitOf y) → placeKey x < placeKey y := by
  have hplace : (ys.filter (Best ys)).Pairwise fun x y => placeKey x < placeKey y := hys.filter _
  rw [answer, answer, sortOn_map_eq_iff hitOf_injective, sortOn_eq_iff_of_ascending hplace]
  have hmem : (∀ z, z ∈ xs.filter (Best xs) ↔ z ∈ ys.filter (Best ys)) ↔ ∀ y ∈ ys, Best ys y → y ∈ xs := by
    simp only [List.mem_filter, decide_eq_true_eq]
    constructor
    · exact fun h y hy hb => ((h y).2 ⟨hy, hb⟩).1
    · intro h z
      exact ⟨fun ⟨hz, hb⟩ => ⟨hsub z hz, (best_iff hsub h hz).1 hb⟩,
        fun ⟨hz, hb⟩ => ⟨h z hz hb, (best_iff hsub h (h z hz hb)).2 hb⟩⟩
  rw [hmem]
  refine and_congr_right fun hcov => ?_
  have hfilter : xs.filter (Best xs) = xs.filter (Best ys) :=
    List.filter_congr fun x hx => decide_eq_decide.2 (best_iff hsub hcov hx)
  rw [hfilter, List.pairwise_filter]
  simp only [decide_eq_true_eq, Function.comp_apply]

theorem pairwise_corpusRecords {fs : Fs} {dir : PathBuf} {frags : List PathBuf} (h : fragments fs dir = .ok frags) :
    (corpusRecords fs frags).Pairwise fun x y => placeKey x < placeKey y := by
  refine List.pairwise_flatMap.2 ⟨fun p _ => ?_, (pairwise_fragments h).imp fun {p q} hpq => ?_⟩
  · rw [List.pairwise_map]
    refine (pairwise_recordsAt fs p).imp ?_
    exact fun hlt => Prod.Lex.toLex_lt_toLex.2 (Or.inr ⟨rfl, hlt⟩)
  · intro x hx y hy
    obtain ⟨_, _, rfl⟩ := List.mem_map.1 hx
    obtain ⟨_, _, rfl⟩ := List.mem_map.1 hy
    exact Prod.Lex.toLex_lt_toLex.2 (Or.inl hpq)

/-! ## Recorded locations -/

/-- The record that a recorded location leads to, if it still answers the query. -/
def pointed (fs : Fs) (query : Query) (loc : Location) : Option Located :=
  ((recordsAt fs loc.file).find? fun r => r.fenceOffset = loc.offset && query.hits r.anchor).map (loc.file, ·)

theorem pointed_eq_some {fs : Fs} {query : Query} {loc : Location} {x : Located} : pointed fs query loc = some x ↔
    x.1 = loc.file ∧ x.2 ∈ recordsAt fs loc.file ∧ x.2.fenceOffset = loc.offset ∧ query.hits x.2.anchor = true := by
  unfold pointed
  rw [Option.map_eq_some_iff]
  constructor
  · rintro ⟨r, hr, rfl⟩
    have hp := List.find?_some hr
    rw [Bool.and_eq_true, decide_eq_true_iff] at hp
    exact ⟨rfl, List.mem_of_find?_eq_some hr, hp⟩
  · rintro ⟨hfile, hmem, hoff, hhit⟩
    obtain ⟨path, r⟩ := x
    obtain rfl : path = loc.file := hfile
    change r.fenceOffset = loc.offset at hoff
    change query.hits r.anchor = true at hhit
    refine ⟨r, ?_, rfl⟩
    cases hfind : (recordsAt fs loc.file).find? fun r => r.fenceOffset = loc.offset && query.hits r.anchor with
    | none =>
      rw [List.find?_eq_none] at hfind
      exact absurd (by simp [hoff, hhit]) (hfind r hmem)
    | some s =>
      have hp := List.find?_some hfind
      rw [Bool.and_eq_true, decide_eq_true_iff] at hp
      rw [eq_of_offset_eq (List.mem_of_find?_eq_some hfind) hmem (hp.1.trans hoff.symm)]

theorem hitAt_eq (fs : Fs) (query : Query) (loc : Location) :
    hitAt fs (query.hits ·.anchor) loc = (pointed fs query loc).map hitOf := by
  unfold hitAt pointed recordsAt
  cases fs.readToString loc.file with
  | error e => rfl
  | ok text => simp [hitOf, Function.comp_def]

/-- The records that the locations lead to. -/
def led (fs : Fs) (query : Query) (locs : List Location) : List Located := locs.filterMap (pointed fs query)

/-- Every location leads to a record that answers the query. -/
def Validated (fs : Fs) (query : Query) (locs : List Location) : Prop :=
  ∀ loc ∈ locs, ∃ x, pointed fs query loc = some x

instance (fs : Fs) (query : Query) (locs : List Location) : Decidable (Validated fs query locs) :=
  decidable_of_iff (∀ loc ∈ locs, (pointed fs query loc).isSome = true) <| by
    simp only [Validated, Option.isSome_iff_exists]

section

variable {fs : Fs} {dir : PathBuf} {frags : List PathBuf} {query : Query} {locs : List Location}

theorem locate_validated {fileScan : PathBuf → Except Fault (List Hit)} {corpusScan : Except Fault (List Hit)}
    (hne : locs ≠ []) (h : Validated fs query locs) :
    locate fs fileScan corpusScan (query.hits ·.anchor) locs = .ok (sortOn hitKey ((led fs query locs).map hitOf)) := by
  have hhits : (locs.map (hitAt fs (query.hits ·.anchor))).filterMap id = (led fs query locs).map hitOf := by
    simp [led, hitAt_eq, List.filterMap_map, List.map_filterMap]
  have hstale : (locs.map (hitAt fs (query.hits ·.anchor))).any Option.isNone = false := by
    rw [List.any_eq_false]
    intro hit hin
    obtain ⟨loc, hloc, rfl⟩ := List.mem_map.1 hin
    obtain ⟨x, hx⟩ := h loc hloc
    simp [hitAt_eq, hx]
  have hled : (led fs query locs).map hitOf ≠ [] := by
    obtain ⟨loc, locs', rfl⟩ := List.exists_cons_of_ne_nil hne
    obtain ⟨x, hx⟩ := h loc List.mem_cons_self
    simp [led, hx]
  unfold locate
  simp only [hhits, hstale]
  rw [if_neg hne, if_pos (by simpa using hled), sortHits]

theorem locate_stale {fileScan : PathBuf → Except Fault (List Hit)} {corpusScan : Except Fault (List Hit)}
    (h : ¬ Validated fs query locs) :
    locate fs fileScan corpusScan (query.hits ·.anchor) locs = rescan fileScan corpusScan locs := by
  have hne : locs ≠ [] := by
    rintro rfl
    exact h fun loc hloc => absurd hloc List.not_mem_nil
  have hstale : (locs.map (hitAt fs (query.hits ·.anchor))).any Option.isNone = true := by
    unfold Validated at h
    push Not at h
    obtain ⟨loc, hloc, hno⟩ := h
    refine List.any_eq_true.2 ⟨_, List.mem_map_of_mem hloc, ?_⟩
    rw [hitAt_eq, Option.eq_none_iff_forall_ne_some.2 hno]
    rfl
  unfold locate
  simp only [hstale]
  rw [if_neg hne, if_neg (by simp)]

/-! ## Resolving -/

theorem resolve_none (hf : fragments fs dir = .ok frags) (hr : Readable fs frags) :
    query.resolve fs dir none = .ok (answer (matching fs frags query)) := by
  have hscan : query.resolve fs dir none = (query.corpusScan fs dir).map applySpecificity := by
    cases query <;> rfl
  rw [hscan, corpusScan_eq query hf hr, Except.map, applySpecificity_sorted]

/-- Bytes that are no index count for nothing. -/
theorem resolve_refused {bytes : List UInt8} (h : decode bytes = .ok none) :
    query.resolve fs dir (some bytes) = query.resolve fs dir none := by
  cases query <;> simp only [Query.resolve, resolveExact, resolveKey, cascade, tiers, h] <;> rfl

theorem resolve_some {bytes : List UInt8} {index : Index} (hdec : decode bytes = .ok (some index))
    (hlook : query.lookup index = .ok locs) : query.resolve fs dir (some bytes) =
      (locate fs (query.fileScan fs) (query.corpusScan fs dir) (query.hits ·.anchor) locs).map applySpecificity := by
  cases query with
  | exact q =>
    simp only [Query.lookup] at hlook
    simp only [Query.resolve, resolveExact, cascade, tiers, hdec]
    simp only [bind, Except.bind, hlook]
    rfl
  | key q =>
    simp only [Query.lookup] at hlook
    simp only [Query.resolve, resolveKey, cascade, tiers, hdec]
    simp only [bind, Except.bind, hlook]
    rfl

end

end Peiosutils.Regman
