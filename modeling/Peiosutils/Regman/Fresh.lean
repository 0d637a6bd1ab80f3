import Mathlib.Data.List.Pairwise
import Peiosutils.Regman.Agree

/-!
# Queries with an index of the same corpus

With an index of the corpus as it is, a query gives what a scan gives, but for fragments whose path is not UTF-8: the
index records the lossy form of their path, which leads to no file or to another fragment (`resolve_fresh`).
-/

set_option autoImplicit false

namespace Peiosutils.Regman

open Utf8 Keyed Fallible

theorem rel_or_rel {α : Type} {R : α → α → Prop} {xs : List α} (h : xs.Pairwise R) {a b : α} (ha : a ∈ xs) (hb : b ∈ xs)
    (hne : a ≠ b) : R a b ∨ R b a := by
  have : Std.Symm fun a b => R a b ∨ R b a := ⟨fun _ _ => Or.symm⟩
  have hs : xs.Pairwise fun a b => R a b ∨ R b a := h.imp Or.inl
  exact hs.forall ha hb hne

section

variable {fs : Fs} {dir : PathBuf} {frags : List PathBuf} {query : Query}

/-- Gathered by anchor, the records with one provider and anchor are in their order in the corpus. -/
theorem pairwise_gathered (hf : fragments fs dir = .ok frags) {anchors : List Str} (hnd : anchors.Nodup) :
    (gathered (corpusRecords fs frags) anchors).Pairwise fun x y =>
      hitKey (hitOf x) = hitKey (hitOf y) → placeKey x < placeKey y := by
  refine List.pairwise_flatMap.2 ⟨fun a _ => ?_, hnd.imp fun {a b} hab => ?_⟩
  · refine ((pairwise_corpusRecords hf).filter _).imp ?_
    exact fun hlt _ => hlt
  · intro x hx y hy hk
    have hxa : x.2.anchor = a := by simpa using (List.mem_filter.1 hx).2
    have hyb : y.2.anchor = b := by simpa using (List.mem_filter.1 hy).2
    have := (Prod.mk.inj (toLex_inj.1 hk)).2
    exact absurd (hxa.symm.trans ((anchorKey_injective this).trans hyb)) hab

/-- The location of a record with a UTF-8 path leads to the record. -/
theorem pointed_locOf {x : Located} (hx : x ∈ matching fs frags query) (hp : Plain x.1) :
    pointed fs query (locOf x) = some x := by
  obtain ⟨_, hmem, hhit⟩ := mem_matching.1 hx
  have hfile : (locOf x).file = x.1 := hp
  exact pointed_eq_some.2 ⟨hfile.symm, hfile.symm ▸ hmem, rfl, hhit⟩

/-- What a recorded location leads to has a UTF-8 path, and is the record itself if that has one. -/
theorem of_pointed_locOf {x y : Located} (hx : x.2 ∈ recordsAt fs x.1) (h : pointed fs query (locOf x) = some y) :
    Plain y.1 ∧ (Plain x.1 → y = x) := by
  obtain ⟨hfile, hmem, hoff, _⟩ := pointed_eq_some.1 h
  have hfile : y.1 = recordedPath x.1 := hfile
  refine ⟨hfile ▸ plain_recordedPath x.1, fun hp => Prod.ext (hfile.trans hp) ?_⟩
  have hmem : y.2 ∈ recordsAt fs x.1 := (show (locOf x).file = x.1 from hp) ▸ hmem
  exact eq_of_offset_eq hmem hx hoff

/-- No two locations lead to one of the most specific records: those with a UTF-8 path have their own, and what another
one leads to is not among them. -/
theorem pairwise_led (hf : fragments fs dir = .ok frags) {anchors : List Str} (hnd : anchors.Nodup)
    (hanch : ∀ x ∈ corpusRecords fs frags, x.2.anchor ∈ anchors ↔ query.looksUp x.2.anchor)
    (hplaced : Placed fs frags ((gathered (corpusRecords fs frags) anchors).map locOf)) :
    (led fs query ((gathered (corpusRecords fs frags) anchors).map locOf)).Pairwise (fun x y =>
        Best (matching fs frags query) x → Best (matching fs frags query) y →
          hitKey (hitOf x) = hitKey (hitOf y) → placeKey x < placeKey y) ↔
      ∀ x ∈ corpusRecords fs frags, query.looksUp x.2.anchor → ¬ Plain x.1 →
        ∀ y, pointed fs query (locOf x) = some y → ¬ Best (matching fs frags query) y := by
  rw [led, List.filterMap_map, List.pairwise_filterMap]
  have hin : ∀ {x}, x ∈ gathered (corpusRecords fs frags) anchors ↔
      x ∈ corpusRecords fs frags ∧ query.looksUp x.2.anchor := by
    intro x
    rw [mem_gathered]
    exact and_congr_right (hanch x)
  constructor
  · -- the record that `x` leads to is led to from its own location as well
    intro h x hx hl hnp y hy hbest
    obtain ⟨hpy, _⟩ := of_pointed_locOf (mem_corpusRecords.1 hx).2 hy
    have hym : y ∈ matching fs frags query := by
      obtain ⟨hfile, hmem, _, hhit⟩ := pointed_eq_some.1 hy
      refine mem_matching.2 ⟨?_, hfile ▸ hmem, hhit⟩
      rcases hplaced _ (List.mem_map_of_mem (hin.2 ⟨hx, hl⟩)) with hm | ⟨e, he, _⟩
      · exact hfile ▸ hm
      · simp [recordsAt, he] at hmem
    have hyg : y ∈ gathered (corpusRecords fs frags) anchors :=
      hin.2 ⟨List.mem_of_mem_filter hym, Query.looksUp_of_hits (mem_matching.1 hym).2.2⟩
    have hne : x ≠ y := fun e => hnp (e ▸ hpy)
    have hself := pointed_locOf hym hpy
    rcases rel_or_rel h (hin.2 ⟨hx, hl⟩) hyg hne with hr | hr
    · exact lt_irrefl _ (hr y hy y hself hbest hbest rfl)
    · exact lt_irrefl _ (hr y hself y hy hbest hbest rfl)
  · intro h
    -- a record that counts is led to from its own location
    have hown : ∀ {x y}, x ∈ gathered (corpusRecords fs frags) anchors → pointed fs query (locOf x) = some y →
        Best (matching fs frags query) y → y = x := by
      intro x y hx hy hbest
      obtain ⟨hx, hl⟩ := hin.1 hx
      by_cases hp : Plain x.1
      · exact (of_pointed_locOf (mem_corpusRecords.1 hx).2 hy).2 hp
      · exact absurd hbest (h x hx hl hp y hy)
    refine (pairwise_gathered hf hnd).imp_of_mem fun {x x'} hx hx' hlt y hy y' hy' hbest hbest' => ?_
    rw [hown hx hy hbest, hown hx' hy' hbest']
    exact hlt

/-- The index of the corpus gives the answer of a scan just where no named file has an answer, or where the most
specific records have UTF-8 paths and no other location leads to one of them. -/
theorem resolve_fresh {bytes : List UInt8} (hbuild : build fs dir = .ok bytes) (hsmall : bytes.length < 2 ^ 32)
    (hfrags : fragments fs dir = .ok frags) (query : Query) :
    query.resolve fs dir (some bytes) = query.resolve fs dir none ↔
      (∀ x ∈ corpusRecords fs frags, query.looksUp x.2.anchor → Answerless fs query (recordedPath x.1)) ∨
      Plain dir ∧ (∀ x ∈ matching fs frags query, Best (matching fs frags query) x → Plain x.1) ∧
        ((∀ x ∈ corpusRecords fs frags, query.looksUp x.2.anchor → ∃ y, pointed fs query (locOf x) = some y) →
          ∀ x ∈ corpusRecords fs frags, query.looksUp x.2.anchor → ¬ Plain x.1 →
            ∀ y, pointed fs query (locOf x) = some y → ¬ Best (matching fs frags query) y) := by
  obtain ⟨frags₀, index, anchors, hf, hr, hdec, hnd, hanch, hlook⟩ := lookup_built hbuild hsmall query
  rw [hfrags] at hf
  cases hf
  have hin : ∀ {x}, x ∈ gathered (corpusRecords fs frags) anchors ↔
      x ∈ corpusRecords fs frags ∧ query.looksUp x.2.anchor := by
    intro x
    rw [mem_gathered]
    exact and_congr_right (hanch x)
  have hloc : ∀ {P : Location → Prop}, (∀ loc ∈ (gathered (corpusRecords fs frags) anchors).map locOf, P loc) ↔
      ∀ x ∈ corpusRecords fs frags, query.looksUp x.2.anchor → P (locOf x) := by
    intro P
    simp only [List.forall_mem_map, hin, and_imp]
  have hans : (∀ loc ∈ (gathered (corpusRecords fs frags) anchors).map locOf, Answerless fs query loc.file) ↔
      ∀ x ∈ corpusRecords fs frags, query.looksUp x.2.anchor → Answerless fs query (recordedPath x.1) := hloc
  by_cases hdir : Plain dir
  swap
  · rw [or_iff_left fun h => hdir h.1, ← hans]
    refine agree_of_outside hdec hlook hfrags hr fun loc hmem => ?_
    obtain ⟨x, _, rfl⟩ := List.mem_map.1 hmem
    exact recordedPath_outside hdir hfrags _
  have hplaced : Placed fs frags ((gathered (corpusRecords fs frags) anchors).map locOf) := by
    refine hloc.2 fun x hx _ => ?_
    have hp := (mem_corpusRecords.1 hx).1
    obtain ⟨names, hd⟩ := readDir_of_mem hfrags hp
    exact recordedPath_placed hdir hfrags hd hfrags hp
  rw [agree_of_placed hdec hlook hfrags hr hplaced, hans, and_iff_right hdir]
  refine or_congr_right ?_
  unfold Covers
  simp only
  have hown : ∀ {x}, x ∈ matching fs frags query → x ∈ gathered (corpusRecords fs frags) anchors := fun hx =>
    hin.2 ⟨List.mem_of_mem_filter hx, Query.looksUp_of_hits (mem_matching.1 hx).2.2⟩
  by_cases hv : Validated fs query ((gathered (corpusRecords fs frags) anchors).map locOf)
  · rw [if_pos hv, pairwise_led hfrags hnd hanch hplaced]
    refine and_congr (forall₃_congr fun x hx _ => ?_) ⟨fun h _ => h, fun h => h (hloc.1 hv)⟩
    constructor
    · intro hled
      obtain ⟨loc, hmem, hp⟩ := mem_led.1 hled
      obtain ⟨y, hy, rfl⟩ := List.mem_map.1 hmem
      exact (of_pointed_locOf (mem_corpusRecords.1 (hin.1 hy).1).2 hp).1
    · exact fun hp => mem_led.2 ⟨locOf x, List.mem_map_of_mem (hown hx), pointed_locOf hx hp⟩
  · have hv' : ¬ ∀ x ∈ corpusRecords fs frags, query.looksUp x.2.anchor → ∃ y, pointed fs query (locOf x) = some y :=
      fun h => hv (hloc.2 h)
    rw [if_neg hv, and_iff_left fun h => absurd h hv']
    refine forall₃_congr fun x hx _ => ?_
    constructor
    · intro hnamed
      obtain ⟨loc, hmem, he⟩ := List.mem_map.1 hnamed
      obtain ⟨y, _, rfl⟩ := List.mem_map.1 hmem
      exact he ▸ plain_recordedPath y.1
    · intro hp
      refine List.mem_map.2 ⟨locOf x, List.mem_map_of_mem (hown hx), hp⟩

end

/-! ## Directories -/

/-- The index of a directory. -/
def builtIndex (fs : Fs) (dir : PathBuf) : List UInt8 := (build fs dir).toOption.getD []

def manDir : PathBuf := encode "man".toList

/-- The text of a record with this anchor and body. -/
def recordText (anchor body : String) : Str :=
  ("--- " ++ anchor ++ "\ncanonical: " ++ anchor ++ "\n\n" ++ body ++ "\n").toList

/-- One record in two files, of which one has a name that is not UTF-8. -/
def lossyFs : Fs := Fs.ofFiles manDir
  [(encode "a.regman".toList, recordText "k" "x"), (255 :: encode ".regman".toList, recordText "k" "x")]
  (by decide +kernel)

/-- The record in the file whose name is not UTF-8 is missed. -/
theorem lossy_name_missed : ¬ ∀ (fs : Fs) (dir : PathBuf) (bytes : List UInt8), build fs dir = .ok bytes →
    ∀ query : Query, query.resolve fs dir (some bytes) = query.resolve fs dir none := by
  intro h
  have := h lossyFs manDir (builtIndex lossyFs manDir) (by decide +kernel) (.exact "k".toList)
  revert this
  decide +kernel

/-- Two files with UTF-8 names. -/
def plainFs : Fs := Fs.ofFiles manDir
  [(encode "b.regman".toList, recordText "k <v>" "y"), (encode "a.regman".toList, recordText "k" "x")] (by decide +kernel)

theorem resolve_fresh_plain : (Query.key "k".toList).resolve plainFs manDir (some (builtIndex plainFs manDir)) =
    (Query.key "k".toList).resolve plainFs manDir none := by
  have hplain : ∀ x ∈ corpusRecords plainFs [encode "man/a.regman".toList, encode "man/b.regman".toList],
      Plain x.1 := by decide +kernel
  have hf : fragments plainFs manDir = .ok [encode "man/a.regman".toList, encode "man/b.regman".toList] := by
    decide +kernel
  refine (resolve_fresh (by decide +kernel) (by decide +kernel) hf (.key "k".toList)).2
    (Or.inr ⟨by decide +kernel, ?_, ?_⟩)
  · exact fun x hx _ => hplain x (List.mem_of_mem_filter hx)
  · exact fun _ x hx _ hnp => absurd (hplain x hx) hnp

end Peiosutils.Regman

/-!
# Queries with an index of an earlier corpus

With the index of an earlier corpus in the directory, a query gives what a scan of the present corpus gives just where
no named file has an answer, or where the tier that stops has the most specific records in their order
(`resolve_later`). A record that moved into a file that the index does not name for it, while an answer is left in a
named one, is missed (`moved_record_missed`).
-/

namespace Peiosutils.Regman

open Utf8 Keyed Fallible

/-- The text of a record, wherever it stands. -/
def Record.text (r : Record) : Record := { r with fenceOffset := 0 }

/-- A later corpus in the directory: each of its records is one of the earlier records, in whatever file and order. -/
structure Later (fs fs' : Fs) (dir : PathBuf) (frags frags' : List PathBuf) : Prop where
  listed : ∃ names, fs'.readDir dir = .ok names
  fragments : fragments fs' dir = .ok frags'
  readable : Readable fs' frags'
  kept : ((corpusRecords fs' frags').map (·.2.text)).Subperm ((corpusRecords fs frags).map (·.2.text))

/-- What the index has for a query: the locations of the earlier records that are looked up. -/
def Indexed (fs : Fs) (frags : List PathBuf) (query : Query) (bytes : List UInt8) (index : Index)
    (locs : List Location) : Prop :=
  decode bytes = .ok (some index) ∧ query.lookup index = .ok locs ∧
    ∀ loc, loc ∈ locs ↔ ∃ x ∈ corpusRecords fs frags, query.looksUp x.2.anchor ∧ locOf x = loc

/-- A query with an earlier index and one without an index agree just where the tier that stops is right to. -/
theorem resolve_later {fs fs' : Fs} {dir : PathBuf} {frags frags' : List PathBuf} {bytes : List UInt8}
    (hbuild : build fs dir = .ok bytes) (hsmall : bytes.length < 2 ^ 32) (hfrags : fragments fs dir = .ok frags)
    (hlater : Later fs fs' dir frags frags') (query : Query) :
    ∃ index locs, Indexed fs frags query bytes index locs ∧
      (query.resolve fs' dir (some bytes) = query.resolve fs' dir none ↔
        (∀ loc ∈ locs, Answerless fs' query loc.file) ∨ Plain dir ∧ Covers fs' frags' query locs) := by
  obtain ⟨frags₀, index, anchors, hf, _, hdec, _, hanch, hlook⟩ := lookup_built hbuild hsmall query
  rw [hfrags] at hf
  cases hf
  obtain ⟨names, hnames⟩ := hlater.listed
  refine ⟨index, _, ⟨hdec, hlook, fun loc => ?_⟩, ?_⟩
  · rw [List.mem_map]
    constructor
    · rintro ⟨x, hx, rfl⟩
      obtain ⟨hx, ha⟩ := mem_gathered.1 hx
      exact ⟨x, hx, (hanch x hx).1 ha, rfl⟩
    · rintro ⟨x, hx, hl, rfl⟩
      exact ⟨x, mem_gathered.2 ⟨hx, (hanch x hx).2 hl⟩, rfl⟩
  · by_cases hdir : Plain dir
    · rw [and_iff_right hdir]
      refine agree_of_placed hdec hlook hlater.fragments hlater.readable fun loc hloc => ?_
      obtain ⟨x, hx, rfl⟩ := List.mem_map.1 hloc
      exact recordedPath_placed hdir hfrags hnames hlater.fragments (mem_corpusRecords.1 (mem_gathered.1 hx).1).1
    · rw [or_iff_left fun h => hdir h.1]
      refine agree_of_outside hdec hlook hlater.fragments hlater.readable fun loc hloc => ?_
      obtain ⟨x, _, rfl⟩ := List.mem_map.1 hloc
      exact recordedPath_outside hdir hlater.fragments _

/-! ## A renamed file -/

/-- A record of two providers. -/
def earlierFs : Fs := Fs.ofFiles manDir
  [(encode "a.regman".toList, recordText "k" "x"), (encode "b.regman".toList, recordText "k" "y")] (by decide +kernel)

/-- The same, with the second file renamed. -/
def renamedFs : Fs := Fs.ofFiles manDir
  [(encode "a.regman".toList, recordText "k" "x"), (encode "c.regman".toList, recordText "k" "y")] (by decide +kernel)

theorem later_renamed : Later earlierFs renamedFs manDir [encode "man/a.regman".toList, encode "man/b.regman".toList]
    [encode "man/a.regman".toList, encode "man/c.regman".toList] where
  listed := ⟨[encode "a.regman".toList, encode "c.regman".toList], by decide +kernel⟩
  fragments := by decide +kernel
  readable := by
    intro p hp
    simp only [List.mem_cons, List.not_mem_nil, or_false] at hp
    rcases hp with rfl | rfl
    · exact ⟨recordText "k" "x", by decide +kernel⟩
    · exact ⟨recordText "k" "y", by decide +kernel⟩
  kept := List.Perm.subperm (by decide +kernel)

/-- The record of the renamed file is missed, while the other one is found where it was. -/
theorem moved_record_missed : ¬ ∀ (fs fs' : Fs) (dir : PathBuf) (frags frags' : List PathBuf) (bytes : List UInt8),
    build fs dir = .ok bytes → fragments fs dir = .ok frags → Later fs fs' dir frags frags' →
    ∀ query : Query, query.resolve fs' dir (some bytes) = query.resolve fs' dir none := by
  intro h
  have := h earlierFs renamedFs manDir _ _ (builtIndex earlierFs manDir) (by decide +kernel) (by decide +kernel)
    later_renamed (.exact "k".toList)
  revert this
  decide +kernel

theorem resolve_later_renamed : ∃ index locs,
    Indexed earlierFs [encode "man/a.regman".toList, encode "man/b.regman".toList] (.key "k".toList)
      (builtIndex earlierFs manDir) index locs ∧
    ((Query.key "k".toList).resolve renamedFs manDir (some (builtIndex earlierFs manDir)) =
        (Query.key "k".toList).resolve renamedFs manDir none ↔
      (∀ loc ∈ locs, Answerless renamedFs (.key "k".toList) loc.file) ∨
      Plain manDir ∧ Covers renamedFs [encode "man/a.regman".toList, encode "man/c.regman".toList]
        (.key "k".toList) locs) :=
  resolve_later (by decide +kernel) (by decide +kernel) (by decide +kernel) later_renamed (.key "k".toList)

end Peiosutils.Regman
