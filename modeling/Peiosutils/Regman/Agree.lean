import Peiosutils.Regman.Paths
import Peiosutils.Regman.Tiers

/-!
# When an index gives the answer of a scan

The recorded locations either lead into the corpus or out of it. In the corpus they give the answer of a scan just where
none of the named files holds a record that answers the query, so that the corpus is scanned, or where the tier that
stops has the most specific records in their order (`agree_of_placed`). Out of it only the former counts
(`agree_of_outside`).
-/

set_option autoImplicit false

namespace Peiosutils.Regman

open Utf8 Keyed Fallible

/-- Each file that the locations name is a fragment, or is not there. -/
def Placed (fs : Fs) (frags : List PathBuf) (locs : List Location) : Prop :=
  ∀ loc ∈ locs, loc.file ∈ frags ∨ ∃ e, fs.readToString loc.file = .error e ∧ e.notFound = true

/-- A file can be scanned and holds no record that answers the query. -/
def Answerless (fs : Fs) (query : Query) (path : PathBuf) : Prop :=
  (∀ e, fs.readToString path = .error e → e.notFound = true) ∧ ∀ r ∈ recordsAt fs path, query.hits r.anchor = false

/-- What the tier that stops has to find: all of the most specific records, those with one provider and anchor in the
order of the corpus. -/
def Covers (fs : Fs) (frags : List PathBuf) (query : Query) (locs : List Location) : Prop :=
  let all := matching fs frags query
  if Validated fs query locs then
    (∀ x ∈ all, Best all x → x ∈ led fs query locs) ∧ (led fs query locs).Pairwise fun x y =>
      Best all x → Best all y → hitKey (hitOf x) = hitKey (hitOf y) → placeKey x < placeKey y
  else ∀ x ∈ all, Best all x → x.1 ∈ locs.map Location.file

section

variable {fs : Fs} {dir : PathBuf} {frags : List PathBuf} {query : Query} {locs : List Location}

theorem mem_matching {x : Located} : x ∈ matching fs frags query ↔
    x.1 ∈ frags ∧ x.2 ∈ recordsAt fs x.1 ∧ query.hits x.2.anchor = true := by
  rw [matching, List.mem_filter, mem_corpusRecords, and_assoc]

theorem mem_led {x : Located} : x ∈ led fs query locs ↔ ∃ loc ∈ locs, pointed fs query loc = some x :=
  List.mem_filterMap

/-- The records found in a file. -/
def foundAt (fs : Fs) (query : Query) (path : PathBuf) : List Located :=
  ((recordsAt fs path).filter (query.hits ·.anchor)).map (path, ·)

theorem mem_foundAt {path : PathBuf} {x : Located} : x ∈ foundAt fs query path ↔
    x.1 = path ∧ x.2 ∈ recordsAt fs path ∧ query.hits x.2.anchor = true := by
  rw [foundAt, List.mem_map]
  constructor
  · rintro ⟨r, hr, rfl⟩
    exact ⟨rfl, List.mem_filter.1 hr⟩
  · rintro ⟨rfl, hr⟩
    exact ⟨x.2, List.mem_filter.2 hr, rfl⟩

theorem map_foundAt (path : PathBuf) : (foundAt fs query path).map hitOf = matchingAt fs query path := by
  rw [foundAt, matchingAt, List.map_map]
  rfl

theorem matching_eq : matching fs frags query = frags.flatMap (foundAt fs query) := by
  rw [matching, corpusRecords, List.filter_flatMap]
  congr 1
  funext path
  rw [List.filter_map]
  rfl

theorem mem_distinctFiles {path : PathBuf} : path ∈ distinctFiles locs ↔ path ∈ locs.map Location.file :=
  OrdSet.mem_ofList byteKey_injective

/-- The records found in the named files. -/
def foundNamed (fs : Fs) (query : Query) (locs : List Location) : List Located :=
  (distinctFiles locs).flatMap (foundAt fs query)

theorem mem_foundNamed {x : Located} : x ∈ foundNamed fs query locs ↔
    x.1 ∈ locs.map Location.file ∧ x.2 ∈ recordsAt fs x.1 ∧ query.hits x.2.anchor = true := by
  simp only [foundNamed, List.mem_flatMap, mem_distinctFiles, mem_foundAt]
  constructor
  · rintro ⟨p, hp, rfl, hr⟩
    exact ⟨hp, hr⟩
  · rintro ⟨hp, hr⟩
    exact ⟨x.1, hp, rfl, hr⟩

/-- Where each named file can be scanned, tier 2 finds their records; where there are none, the corpus is scanned. -/
theorem rescan_ok {corpusScan : Except Fault (List Hit)}
    (h : ∀ loc ∈ locs, ∀ e, fs.readToString loc.file = .error e → e.notFound = true) :
    rescan (query.fileScan fs) corpusScan locs = if foundNamed fs query locs = [] then corpusScan
      else .ok (sortOn hitKey ((foundNamed fs query locs).map hitOf)) := by
  have hscan : scanFiles (query.fileScan fs) (distinctFiles locs) = .ok ((foundNamed fs query locs).map hitOf) := by
    rw [foundNamed, List.map_flatMap]
    simp only [map_foundAt]
    refine scanFiles_ok fun p hp => ?_
    obtain ⟨loc, hloc, rfl⟩ := List.mem_map.1 (mem_distinctFiles.1 hp)
    cases hread : fs.readToString loc.file with
    | ok text => exact fileScan_ok query hread
    | error e => exact fileScan_notFound query hread (h loc hloc e hread)
  rw [rescan, hscan]
  by_cases hnil : foundNamed fs query locs = []
  · rw [if_pos hnil, hnil]
    rfl
  · rw [if_neg hnil]
    simp only [bind, Except.bind]
    rw [if_pos (by simpa using hnil)]
    rfl

/-- In the corpus, the records of the named files are those of the matching ones that are there. -/
theorem foundNamed_eq (hf : fragments fs dir = .ok frags) (hplaced : Placed fs frags locs) :
    foundNamed fs query locs = (matching fs frags query).filter (·.1 ∈ locs.map Location.file) := by
  have hnone : ∀ p ∈ distinctFiles locs, foundAt fs query p ≠ [] → p ∈ frags := by
    intro p hp hne
    obtain ⟨loc, hloc, rfl⟩ := List.mem_map.1 (mem_distinctFiles.1 hp)
    rcases hplaced loc hloc with h | ⟨e, he, _⟩
    · exact h
    · exact absurd (by simp [foundAt, recordsAt, he]) hne
  let here : PathBuf → List Located := fun p => if p ∈ locs.map Location.file then foundAt fs query p else []
  have h1 : foundNamed fs query locs = (distinctFiles locs).flatMap here := by
    refine List.flatMap_congr fun p hp => ?_
    rw [show here p = foundAt fs query p from if_pos (mem_distinctFiles.1 hp)]
  have h2 : (matching fs frags query).filter (·.1 ∈ locs.map Location.file) = frags.flatMap here := by
    rw [matching_eq, List.filter_flatMap]
    refine List.flatMap_congr fun p _ => ?_
    by_cases hp : p ∈ locs.map Location.file
    · rw [show here p = foundAt fs query p from if_pos hp, List.filter_eq_self]
      intro x hx
      rw [(mem_foundAt.1 hx).1]
      simpa using hp
    · rw [show here p = [] from if_neg hp, List.filter_eq_nil_iff]
      intro x hx
      rw [(mem_foundAt.1 hx).1]
      simpa using hp
  rw [h1, h2]
  refine flatMap_eq_of_ascending here (OrdSet.ascending _) (pairwise_fragments hf) (fun p hp hne => ?_) fun p _ hne => ?_
  · refine hnone p hp ?_
    rwa [show here p = foundAt fs query p from if_pos (mem_distinctFiles.1 hp)] at hne
  · by_contra hp
    exact hne (if_neg fun hin => hp (mem_distinctFiles.2 hin))

/-- An answer has a hit for each kind of record. -/
theorem mem_answer {xs : List Located} {h : Hit} : h ∈ answer xs ↔ ∃ x ∈ xs, Best xs x ∧ hitOf x = h := by
  simp only [answer, mem_sortOn, List.mem_map, List.mem_filter, decide_eq_true_eq, and_assoc]

/-- The answer for records of which one is in no fragment is not that of a scan. -/
theorem answer_ne_of_outside {xs : List Located} (hne : xs ≠ []) (hout : ∀ x ∈ xs, x.1 ∉ frags) :
    answer xs ≠ answer (matching fs frags query) := by
  obtain ⟨x, xs', rfl⟩ := List.exists_cons_of_ne_nil hne
  obtain ⟨y, hy, _, hbest⟩ := exists_best (List.mem_cons_self (a := x) (l := xs'))
  intro he
  have hm : hitOf y ∈ answer (matching fs frags query) := he ▸ mem_answer.2 ⟨y, hy, hbest, rfl⟩
  obtain ⟨z, hz, _, hzy⟩ := mem_answer.1 hm
  rw [hitOf_injective hzy] at hz
  exact hout y hy (mem_matching.1 hz).1

/-! ## Agreement -/

theorem resolve_validated {bytes : List UInt8} {index : Index} (hdec : decode bytes = .ok (some index))
    (hlook : query.lookup index = .ok locs) (hne : locs ≠ []) (h : Validated fs query locs) :
    query.resolve fs dir (some bytes) = .ok (answer (led fs query locs)) := by
  rw [resolve_some hdec hlook, locate_validated hne h, Except.map, applySpecificity_sorted]

theorem resolve_stale {bytes : List UInt8} {index : Index} (hdec : decode bytes = .ok (some index))
    (hlook : query.lookup index = .ok locs) (h : ¬ Validated fs query locs) (hf : fragments fs dir = .ok frags)
    (hr : Readable fs frags) (hscan : ∀ loc ∈ locs, ∀ e, fs.readToString loc.file = .error e → e.notFound = true) :
    query.resolve fs dir (some bytes) = .ok (answer
      (if foundNamed fs query locs = [] then matching fs frags query else foundNamed fs query locs)) := by
  rw [resolve_some hdec hlook, locate_stale h, rescan_ok hscan]
  split
  · rw [corpusScan_eq query hf hr, Except.map, applySpecificity_sorted]
  · rw [Except.map, applySpecificity_sorted]

theorem resolve_empty {bytes : List UInt8} {index : Index} (hdec : decode bytes = .ok (some index))
    (hlook : query.lookup index = .ok []) (hf : fragments fs dir = .ok frags) (hr : Readable fs frags) :
    query.resolve fs dir (some bytes) = .ok (answer (matching fs frags query)) := by
  rw [resolve_some hdec hlook, locate, if_pos rfl, corpusScan_eq query hf hr, Except.map, applySpecificity_sorted]

/-- A location that leads to a record is in a file that is not without an answer. -/
theorem not_answerless {loc : Location} {x : Located} (h : pointed fs query loc = some x) :
    ¬ Answerless fs query loc.file := by
  obtain ⟨_, hmem, _, hhit⟩ := pointed_eq_some.1 h
  intro ha
  exact absurd hhit (by simp [ha.2 x.2 hmem])

theorem foundNamed_eq_nil : foundNamed fs query locs = [] ↔
    ∀ loc ∈ locs, ∀ r ∈ recordsAt fs loc.file, query.hits r.anchor = false := by
  rw [List.eq_nil_iff_forall_not_mem]
  constructor
  · intro h loc hloc r hr
    by_contra hhit
    exact h (loc.file, r) (mem_foundNamed.2 ⟨List.mem_map_of_mem hloc, hr, by simpa using hhit⟩)
  · intro h x hx
    obtain ⟨hfile, hr, hhit⟩ := mem_foundNamed.1 hx
    obtain ⟨loc, hloc, he⟩ := List.mem_map.1 hfile
    exact absurd hhit (by simp [h loc hloc x.2 (he ▸ hr)])

/-- In the corpus: no answer in the named files, or all that counts where the cascade stops. -/
theorem agree_of_placed {bytes : List UInt8} {index : Index} (hdec : decode bytes = .ok (some index))
    (hlook : query.lookup index = .ok locs) (hf : fragments fs dir = .ok frags) (hr : Readable fs frags)
    (hplaced : Placed fs frags locs) : query.resolve fs dir (some bytes) = query.resolve fs dir none ↔
      (∀ loc ∈ locs, Answerless fs query loc.file) ∨ Covers fs frags query locs := by
  have hpair : (matching fs frags query).Pairwise fun x y => placeKey x < placeKey y :=
    (pairwise_corpusRecords hf).filter _
  have hscan : ∀ loc ∈ locs, ∀ e, fs.readToString loc.file = .error e → e.notFound = true := by
    intro loc hloc e he
    rcases hplaced loc hloc with hin | ⟨e', he', hn⟩
    · obtain ⟨text, ht⟩ := hr _ hin
      rw [ht] at he
      cases he
    · rw [he'] at he
      cases he
      exact hn
  rw [resolve_none hf hr]
  by_cases hne : locs = []
  · subst hne
    rw [resolve_empty hdec hlook hf hr]
    simp
  unfold Covers
  simp only
  by_cases hv : Validated fs query locs
  · have hans : ¬ ∀ loc ∈ locs, Answerless fs query loc.file := by
      obtain ⟨loc, locs', rfl⟩ := List.exists_cons_of_ne_nil hne
      obtain ⟨x, hx⟩ := hv loc List.mem_cons_self
      exact fun h => not_answerless hx (h loc List.mem_cons_self)
    have hsub : ∀ x ∈ led fs query locs, x ∈ matching fs frags query := by
      intro x hx
      obtain ⟨loc, hloc, hp⟩ := mem_led.1 hx
      obtain ⟨hfile, hmem, _, hhit⟩ := pointed_eq_some.1 hp
      refine mem_matching.2 ⟨?_, hfile ▸ hmem, hhit⟩
      rcases hplaced loc hloc with hin | ⟨e, he, _⟩
      · exact hfile ▸ hin
      · simp [recordsAt, he] at hmem
    rw [resolve_validated hdec hlook hne hv, Except.ok.injEq, answer_eq_iff hsub hpair, if_pos hv, or_iff_right hans]
  · rw [resolve_stale hdec hlook hv hf hr hscan, Except.ok.injEq, if_neg hv]
    by_cases hnil : foundNamed fs query locs = []
    · rw [if_pos hnil]
      exact iff_of_true rfl (Or.inl fun loc hloc => ⟨hscan loc hloc, foundNamed_eq_nil.1 hnil loc hloc⟩)
    · rw [if_neg hnil, or_iff_right fun h => hnil (foundNamed_eq_nil.2 fun loc hloc => (h loc hloc).2),
        foundNamed_eq hf hplaced, answer_eq_iff (fun x hx => List.mem_of_mem_filter hx) hpair]
      have hord : ((matching fs frags query).filter (·.1 ∈ locs.map Location.file)).Pairwise fun x y =>
          Best (matching fs frags query) x → Best (matching fs frags query) y → hitKey (hitOf x) = hitKey (hitOf y) →
            placeKey x < placeKey y := (hpair.filter _).imp fun hlt _ _ _ => hlt
      simp only [List.mem_filter, decide_eq_true_eq]
      exact ⟨fun h x hx hb => (h.1 x hx hb).2, fun h => ⟨fun x hx hb => ⟨hx, h x hx hb⟩, hord⟩⟩

theorem scanFiles_error {scan : PathBuf → Except Fault (List Hit)} {files : List PathBuf} {p : PathBuf} {e : Fault}
    (hp : p ∈ files) (h : scan p = .error e) : ∃ e', scanFiles scan files = .error e' := by
  induction files with
  | nil => cases hp
  | cons q files ih =>
    unfold scanFiles
    cases hq : scan q with
    | error e' => exact ⟨e', rfl⟩
    | ok hits =>
      have hp : p ∈ files := by
        rcases List.mem_cons.1 hp with rfl | hp
        · rw [h] at hq
          cases hq
        · exact hp
      obtain ⟨e', he'⟩ := ih hp
      exact ⟨e', by simp only [bind, Except.bind, he']⟩

theorem fileScan_error {path : PathBuf} {e : IoError} (h : fs.readToString path = .error e) (hn : e.notFound = false) :
    query.fileScan fs path = .error (.io e.message) := by
  have hscan : query.fileScan fs path = scanFile fs path (encode query.text) (query.hits ·.anchor) := by
    cases query <;> rfl
  rw [hscan, scanFile, h]
  simp [hn]

/-- Out of the corpus: no answer in the named files. -/
theorem agree_of_outside {bytes : List UInt8} {index : Index} (hdec : decode bytes = .ok (some index))
    (hlook : query.lookup index = .ok locs) (hf : fragments fs dir = .ok frags) (hr : Readable fs frags)
    (hout : ∀ loc ∈ locs, loc.file ∉ frags) : query.resolve fs dir (some bytes) = query.resolve fs dir none ↔
      ∀ loc ∈ locs, Answerless fs query loc.file := by
  rw [resolve_none hf hr]
  by_cases hne : locs = []
  · subst hne
    rw [resolve_empty hdec hlook hf hr]
    simp
  by_cases hv : Validated fs query locs
  · rw [resolve_validated hdec hlook hne hv, Except.ok.injEq]
    obtain ⟨loc, locs', rfl⟩ := List.exists_cons_of_ne_nil hne
    obtain ⟨x, hx⟩ := hv loc List.mem_cons_self
    refine iff_of_false (answer_ne_of_outside (List.ne_nil_of_mem (mem_led.2 ⟨loc, List.mem_cons_self, hx⟩)) ?_)
      fun h => not_answerless hx (h loc List.mem_cons_self)
    intro y hy
    obtain ⟨loc', hloc', hp⟩ := mem_led.1 hy
    exact (pointed_eq_some.1 hp).1 ▸ hout loc' hloc'
  by_cases hscan : ∀ loc ∈ locs, ∀ e, fs.readToString loc.file = .error e → e.notFound = true
  · rw [resolve_stale hdec hlook hv hf hr hscan, Except.ok.injEq]
    by_cases hnil : foundNamed fs query locs = []
    · rw [if_pos hnil]
      exact iff_of_true rfl fun loc hloc => ⟨hscan loc hloc, foundNamed_eq_nil.1 hnil loc hloc⟩
    · rw [if_neg hnil]
      refine iff_of_false (answer_ne_of_outside hnil fun x hx => ?_)
        fun h => hnil (foundNamed_eq_nil.2 fun loc hloc => (h loc hloc).2)
      obtain ⟨loc, hloc, he⟩ := List.mem_map.1 (mem_foundNamed.1 hx).1
      exact he ▸ hout loc hloc
  · rw [resolve_some hdec hlook, locate_stale hv]
    refine iff_of_false ?_ fun h => hscan fun loc hloc => (h loc hloc).1
    push Not at hscan
    obtain ⟨loc, hloc, e, he, hn⟩ := hscan
    obtain ⟨e', he'⟩ := scanFiles_error (mem_distinctFiles.2 (List.mem_map_of_mem hloc))
      (show query.fileScan fs loc.file = _ from fileScan_error he (by simpa using hn))
    rw [rescan, he']
    intro h
    cases h

end

end Peiosutils.Regman
