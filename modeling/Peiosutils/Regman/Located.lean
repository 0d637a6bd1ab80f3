import Peiosutils.Lib.Fallible
import Peiosutils.Regman.Index
import Peiosutils.Regman.Lookup

/-!
# Resolving a query (`query.rs`)

With an index a query tries the recorded locations, then the files that they name, and then the whole corpus; without
one it scans the corpus. Either way only the most specific records of each kind are kept (`applySpecificity`).
-/

set_option autoImplicit false

namespace Peiosutils.Regman

open Utf8 Keyed

/-- One class for each component of the anchor: literal, a wildcard, a wildcard that spans. -/
def specificity (anchor : Str) : List Nat :=
  (anchor.splitOn '\\').map fun component =>
    if !hasWildcard component then 0 else if spansComponents component then 2 else 1

/-- The hits of one kind that are not the most specific go. -/
def retainBest (hits : List Hit) (kind : Kind) : List Hit :=
  let best := ((hits.filter (·.record.kind = kind)).map fun h => specificity h.record.anchor).min?
  match best with
  | none => hits
  | some best => hits.filter fun h => h.record.kind ≠ kind || specificity h.record.anchor = best

/-- Keep only the most specific records that matched. -/
def applySpecificity (hits : List Hit) : List Hit := [Kind.key, Kind.value].foldl retainBest hits

/-- The record at a recorded location, if it still matches. -/
def hitAt (fs : Fs) (pred : Record → Bool) (loc : Location) : Option Hit :=
  match fs.readToString loc.file with
  | .error _ => none
  | .ok text =>
    ((parse text).1.find? fun r => r.fenceOffset = loc.offset && pred r).map fun record =>
      ⟨providerOf loc.file, loc.file, record⟩

/-- The files of the locations, in the order of their paths. -/
def distinctFiles (locs : List Location) : List PathBuf :=
  (OrdSet.ofList (locs.map Location.file) : OrdSet byteKey).toList

def sortHits (hits : List Hit) : List Hit := sortOn hitKey hits

/-- Tier 2, and tier 3 where it finds nothing. -/
def rescan (fileScan : PathBuf → Except Fault (List Hit)) (corpusScan : Except Fault (List Hit))
    (locs : List Location) : Except Fault (List Hit) := do
  let hits ← scanFiles fileScan (distinctFiles locs)
  if hits ≠ [] then return sortHits hits else corpusScan

/-- The answer for the locations that the index gives. -/
def locate (fs : Fs) (fileScan : PathBuf → Except Fault (List Hit)) (corpusScan : Except Fault (List Hit))
    (pred : Record → Bool) (locs : List Location) : Except Fault (List Hit) :=
  if locs = [] then corpusScan
  else
    let found := locs.map (hitAt fs pred)
    let hits := found.filterMap id
    let stale := found.any Option.isNone
    if !stale && hits ≠ [] then .ok (sortHits hits) else rescan fileScan corpusScan locs

/-- The tiers; `indexFile` is what the index file holds, if it can be read. -/
def tiers (fs : Fs) (indexFile : Option (List UInt8)) (lookup : Index → Except Fault (List Location))
    (fileScan : PathBuf → Except Fault (List Hit)) (corpusScan : Except Fault (List Hit)) (pred : Record → Bool) :
    Except Fault (List Hit) :=
  match indexFile with
  | none => corpusScan
  | some bytes => do
    match ← decode bytes with
    | none => corpusScan
    | some index =>
      let locs ← lookup index
      locate fs fileScan corpusScan pred locs

def cascade (fs : Fs) (indexFile : Option (List UInt8)) (lookup : Index → Except Fault (List Location))
    (fileScan : PathBuf → Except Fault (List Hit)) (corpusScan : Except Fault (List Hit)) (pred : Record → Bool) :
    Except Fault (List Hit) := do
  let hits ← tiers fs indexFile lookup fileScan corpusScan pred
  return applySpecificity hits

/-- Resolve an exact `(path, value)` query. -/
def resolveExact (fs : Fs) (dir : PathBuf) (indexFile : Option (List UInt8)) (foldedAnchor : Str) :
    Except Fault (List Hit) :=
  cascade fs indexFile (·.lookupExact foldedAnchor) (fileExact fs foldedAnchor) (corpusExact fs dir foldedAnchor)
    fun r => isExact r.anchor foldedAnchor

/-- Resolve a key query: the key and its directly-attached values. -/
def resolveKey (fs : Fs) (dir : PathBuf) (indexFile : Option (List UInt8)) (foldedPath : Str) :
    Except Fault (List Hit) :=
  cascade fs indexFile (·.lookupKey foldedPath) (fileKey fs foldedPath) (corpusKey fs dir foldedPath)
    fun r => isUnderKey r.anchor foldedPath

end Peiosutils.Regman

/-!
# The records of a corpus and where they are

`corpusRecords` lists the records of the fragments, file after file. A scan of the corpus gives the matching ones of
them (`corpusScan_eq`): no file that holds one is passed over. The index that `build` writes has, under each anchor, the
locations of its records with the lossy form of their path (`lookup_built`).
-/

namespace Peiosutils.Regman

open Utf8 Keyed ByteStore Multimap Fallible

/-! ## Queries of both kinds -/

inductive Query where
  | exact (folded : Str)
  | key (folded : Str)
  deriving DecidableEq, Repr

namespace Query

def text : Query → Str
  | exact q => q
  | key q => q

/-- Does a record with this anchor answer the query? -/
def hits : Query → Str → Bool
  | exact q => fun anchor => isExact anchor q
  | key q => fun anchor => isUnderKey anchor q

/-- Does the index give the locations of this anchor for the query? -/
def looksUp : Query → Str → Prop
  | exact q => fun anchor => anchor = q ∨ isExact anchor q = true
  | key q => fun anchor => isUnderKey anchor q = true

def lookup : Query → Index → Except Fault (List Location)
  | exact q => (·.lookupExact q)
  | key q => (·.lookupKey q)

def fileScan (fs : Fs) : Query → PathBuf → Except Fault (List Hit)
  | exact q => fileExact fs q
  | key q => fileKey fs q

def corpusScan (fs : Fs) (dir : PathBuf) : Query → Except Fault (List Hit)
  | exact q => corpusExact fs dir q
  | key q => corpusKey fs dir q

def resolve (fs : Fs) (dir : PathBuf) (indexFile : Option (List UInt8)) : Query → Except Fault (List Hit)
  | exact q => resolveExact fs dir indexFile q
  | key q => resolveKey fs dir indexFile q

theorem looksUp_of_hits {query : Query} {anchor : Str} (h : query.hits anchor = true) : query.looksUp anchor := by
  cases query with
  | exact q => exact Or.inr h
  | key q => exact h

end Query

/-! ## Records -/

/-- The records of a file; none, where it cannot be read. -/
def recordsAt (fs : Fs) (path : PathBuf) : List Record :=
  match fs.readToString path with
  | .ok text => (parse text).1
  | .error _ => []

abbrev Located := PathBuf × Record

def corpusRecords (fs : Fs) (frags : List PathBuf) : List Located :=
  frags.flatMap fun path => (recordsAt fs path).map (path, ·)

def hitOf (x : Located) : Hit := ⟨providerOf x.1, x.1, x.2⟩

theorem hitOf_injective : Function.Injective hitOf := by
  rintro ⟨p, r⟩ ⟨p', r'⟩ h
  have h := Hit.mk.inj h
  exact Prod.ext h.2.1 h.2.2

theorem mem_corpusRecords {fs : Fs} {frags : List PathBuf} {x : Located} :
    x ∈ corpusRecords fs frags ↔ x.1 ∈ frags ∧ x.2 ∈ recordsAt fs x.1 := by
  simp only [corpusRecords, List.mem_flatMap, List.mem_map]
  constructor
  · rintro ⟨p, hp, r, hr, rfl⟩
    exact ⟨hp, hr⟩
  · rintro ⟨hp, hr⟩
    exact ⟨x.1, hp, x.2, hr, rfl⟩

theorem pairwise_recordsAt (fs : Fs) (path : PathBuf) :
    (recordsAt fs path).Pairwise fun r s => r.fenceOffset < s.fenceOffset := by
  unfold recordsAt
  split
  · exact pairwise_parse _
  · exact List.Pairwise.nil

/-- Two records at one offset of a file are one. -/
theorem eq_of_offset_eq {fs : Fs} {path : PathBuf} {r s : Record} (hr : r ∈ recordsAt fs path)
    (hs : s ∈ recordsAt fs path) (h : r.fenceOffset = s.fenceOffset) : r = s := by
  have hnd : ((recordsAt fs path).map Record.fenceOffset).Nodup :=
    List.pairwise_map.2 ((pairwise_recordsAt fs path).imp fun hlt => ne_of_lt hlt)
  exact List.inj_on_of_nodup_map hnd hr hs h

theorem pairwise_fragments {fs : Fs} {dir : PathBuf} {frags : List PathBuf} (h : fragments fs dir = .ok frags) :
    frags.Pairwise fun a b => byteKey a < byteKey b := by
  unfold fragments at h
  split at h
  · rename_i names hn
    cases h
    refine pairwise_lt_sortOn (List.Nodup.map byteKey_injective (List.Nodup.filter _ ?_))
    exact List.Nodup.map (join_injective dir) (fs.nodup dir names hn)
  · split at h
    · cases h
      exact List.Pairwise.nil
    · cases h

/-! ## Scanning -/

/-- The bytes of a file that a scan looks for are there, where a record answers the query. -/
theorem not_passed_over {query : Query} {text : Str} {r : Record} (hr : r ∈ (parse text).1)
    (h : query.hits r.anchor = true) : encode query.text <:+: encode text ∨ opening ∈ encode text := by
  have hin := encode_anchor_infix hr
  by_cases hw : hasWildcard r.anchor = true
  · have : opening ∈ encode r.anchor := by simpa [hasWildcard] using hw
    exact Or.inr (hin.subset this)
  · have hw : hasWildcard r.anchor = false := by simpa using hw
    cases query with
    | exact q =>
      have := (matchesExact_eq hw).1 h
      exact Or.inl (this ▸ hin)
    | key q => exact Or.inl ((matchesUnderKey_eq hw h).isInfix.trans hin)

/-- The matching records of one file. -/
def matchingAt (fs : Fs) (query : Query) (path : PathBuf) : List Hit :=
  ((recordsAt fs path).filter (query.hits ·.anchor)).map fun r => hitOf (path, r)

theorem fileScan_ok {fs : Fs} {path : PathBuf} {text : Str} (query : Query) (h : fs.readToString path = .ok text) :
    query.fileScan fs path = .ok (matchingAt fs query path) := by
  have hscan : query.fileScan fs path = scanFile fs path (encode query.text) (query.hits ·.anchor) := by
    cases query <;> rfl
  have hat : recordsAt fs path = (parse text).1 := by
    rw [recordsAt, h]
  rw [hscan, scanFile, h, matchingAt, hat]
  simp only
  split
  · rename_i hno
    have : (parse text).1.filter (query.hits ·.anchor) = [] := by
      rw [List.filter_eq_nil_iff]
      intro r hr hm
      rcases not_passed_over hr hm with hi | ho
      · exact hno.1 hi
      · exact hno.2 ho
    rw [this, List.map_nil]
  · rfl

theorem fileScan_notFound {fs : Fs} {path : PathBuf} {e : IoError} (query : Query)
    (h : fs.readToString path = .error e) (hn : e.notFound = true) :
    query.fileScan fs path = .ok (matchingAt fs query path) := by
  have hscan : query.fileScan fs path = scanFile fs path (encode query.text) (query.hits ·.anchor) := by
    cases query <;> rfl
  rw [hscan, scanFile, h, matchingAt, recordsAt, h]
  simp [hn]

theorem scanFiles_ok {scan : PathBuf → Except Fault (List Hit)} {f : PathBuf → List Hit} {files : List PathBuf}
    (h : ∀ p ∈ files, scan p = .ok (f p)) : scanFiles scan files = .ok (files.flatMap f) := by
  induction files with
  | nil => rfl
  | cons p files ih =>
    rw [scanFiles, h p List.mem_cons_self, ih fun q hq => h q (List.mem_cons_of_mem p hq)]
    rfl

/-- Every fragment can be read. -/
def Readable (fs : Fs) (frags : List PathBuf) : Prop := ∀ p ∈ frags, ∃ text, fs.readToString p = .ok text

/-- The records that answer a query. -/
def matching (fs : Fs) (frags : List PathBuf) (query : Query) : List Located :=
  (corpusRecords fs frags).filter (query.hits ·.2.anchor)

theorem flatMap_matchingAt (fs : Fs) (frags : List PathBuf) (query : Query) :
    frags.flatMap (matchingAt fs query) = (matching fs frags query).map hitOf := by
  simp only [matching, corpusRecords, List.filter_flatMap, List.map_flatMap, List.filter_map, List.map_map]
  rfl

/-- A scan of the corpus gives the matching records, sorted. -/
theorem corpusScan_eq {fs : Fs} {dir : PathBuf} {frags : List PathBuf} (query : Query)
    (h : fragments fs dir = .ok frags) (hr : Readable fs frags) :
    query.corpusScan fs dir = .ok (sortOn hitKey ((matching fs frags query).map hitOf)) := by
  have hs : scanFiles (query.fileScan fs) frags = .ok ((matching fs frags query).map hitOf) := by
    rw [← flatMap_matchingAt]
    refine scanFiles_ok fun p hp => ?_
    obtain ⟨text, ht⟩ := hr p hp
    exact fileScan_ok query ht
  cases query with
  | exact q =>
    simp only [Query.corpusScan, corpusExact, h]
    change (scanFiles (fileExact fs q) frags >>= _) = _
    rw [show scanFiles (fileExact fs q) frags = _ from hs]
    rfl
  | key q =>
    simp only [Query.corpusScan, corpusKey, h]
    change (scanFiles (fileKey fs q) frags >>= _) = _
    rw [show scanFiles (fileKey fs q) frags = _ from hs]
    rfl

/-! ## What is built -/

/-- Items of the map, and the records they stand for: anchor, number of the lossy path in the table, and offset. -/
def Stands (files : List Str) (item : Str × (Nat × Nat)) (x : Located) : Prop :=
  item.1 = x.2.anchor ∧ files[item.2.1]? = some (toStringLossy x.1) ∧ item.2.2 = x.2.fenceOffset

/-- The map and the table stand for the records so far. -/
def Building.For (b : Building) (xs : List Located) : Prop :=
  ∃ items, b.entries = group anchorKey items ∧ List.Forall₂ (Stands b.files) items xs

theorem fileIdx_spec (files : List Str) (file : Str) :
    (fileIdx files file).2[(fileIdx files file).1]? = some file ∧ files <+: (fileIdx files file).2 := by
  unfold fileIdx
  split
  · rename_i i hi
    obtain ⟨hlt, he⟩ := List.findIdx?_eq_some_iff_getElem.1 hi
    exact ⟨by simpa [List.getElem?_eq_getElem hlt] using he.1, List.prefix_refl _⟩
  · simp

theorem Stands.mono {files files' : List Str} (h : files <+: files') {item : Str × (Nat × Nat)} {x : Located}
    (hs : Stands files item x) : Stands files' item x := by
  obtain ⟨t, rfl⟩ := h
  obtain ⟨h1, h2, h3⟩ := hs
  exact ⟨h1, by rw [List.getElem?_append_left (List.getElem?_eq_some_iff.1 h2).1, h2], h3⟩

theorem addFile_spec {fs : Fs} {b b' : Building} {path : PathBuf} {xs : List Located}
    (h : addFile fs b path = .ok b') (hb : b.For xs) :
    b'.For (xs ++ (recordsAt fs path).map (path, ·)) ∧ ∃ text, fs.readToString path = .ok text := by
  obtain ⟨items, he, hs⟩ := hb
  unfold addFile at h
  obtain ⟨text, ht, h⟩ := bind_eq_ok.1 h
  have ht : fs.readToString path = .ok text := by
    unfold lift at ht
    split at ht
    · cases ht
      assumption
    · cases ht
  cases h
  have hat : recordsAt fs path = (parse text).1 := by rw [recordsAt, ht]
  obtain ⟨hget, hpre⟩ := fileIdx_spec b.files (toStringLossy path)
  generalize fileIdx b.files (toStringLossy path) = f at hget hpre
  refine ⟨⟨items ++ (recordsAt fs path).map fun r => (r.anchor, (f.1, r.fenceOffset)), ?_, ?_⟩, text, ht⟩
  · simp only [group, he, List.foldl_append, List.foldl_map, hat]
  · refine List.rel_append (hs.imp fun _ _ => Stands.mono hpre) ?_
    rw [List.forall₂_map_left_iff, List.forall₂_map_right_iff, List.forall₂_same]
    exact fun r _ => ⟨rfl, hget, rfl⟩

theorem addFiles_spec {fs : Fs} {files : List PathBuf} : ∀ {b b' : Building} {xs : List Located},
    addFiles fs b files = .ok b' → b.For xs → b'.For (xs ++ corpusRecords fs files) ∧ Readable fs files := by
  induction files with
  | nil =>
    intro b b' xs h hb
    cases h
    exact ⟨by simpa [corpusRecords] using hb, fun p hp => absurd hp List.not_mem_nil⟩
  | cons p files ih =>
    intro b b' xs h hb
    obtain ⟨b₁, h₁, h₂⟩ := bind_eq_ok.1 h
    obtain ⟨hb₁, hp⟩ := addFile_spec h₁ hb
    obtain ⟨hb', hr⟩ := ih h₂ hb₁
    refine ⟨by simpa [corpusRecords] using hb', fun q hq => ?_⟩
    rcases List.mem_cons.1 hq with rfl | hq
    · exact hp
    · exact hr q hq

/-- The path that the index records for a file. -/
def recordedPath (path : PathBuf) : PathBuf := encode (toStringLossy path)

def locOf (x : Located) : Location := ⟨recordedPath x.1, x.2.fenceOffset⟩

/-- Under an anchor are the locations of its records. -/
theorem resolve_valuesOf {files : List Str} {items : List (Str × (Nat × Nat))} {xs : List Located}
    (h : List.Forall₂ (Stands files) items xs) (a : Str) :
    (valuesOf items a).filterMap (resolve (files.map encode)) = (xs.filter (·.2.anchor = a)).map locOf := by
  induction h with
  | nil => rfl
  | @cons item x items xs hx _ ih =>
    obtain ⟨h1, h2, h3⟩ := hx
    unfold valuesOf at ih ⊢
    rw [List.filter_cons, List.filter_cons, h1]
    split
    · have hr : resolve (files.map encode) item.2 = some (locOf x) := by
        simp [resolve, h2, h3, locOf, recordedPath]
      rw [List.map_cons, List.filterMap_cons_some hr, ih, List.map_cons]
    · exact ih

/-- The text of a record that can be read is shorter than `2 ^ 63`, and so is its offset. -/
theorem fenceOffset_lt {fs : Fs} {path : PathBuf} {r : Record} (h : r ∈ recordsAt fs path) :
    r.fenceOffset < 2 ^ 64 := by
  unfold recordsAt at h
  split at h
  · rename_i text ht
    have h1 := fenceOffset_le h
    have h2 := fs.bounded path text ht
    omega
  · cases h

/-- The records that an index gives the locations of: for each of the anchors, its records. -/
def gathered (xs : List Located) (anchors : List Str) : List Located :=
  anchors.flatMap fun a => xs.filter (·.2.anchor = a)

theorem mem_gathered {xs : List Located} {anchors : List Str} {x : Located} :
    x ∈ gathered xs anchors ↔ x ∈ xs ∧ x.2.anchor ∈ anchors := by
  simp only [gathered, List.mem_flatMap, List.mem_filter, decide_eq_true_eq]
  constructor
  · rintro ⟨a, ha, hx, rfl⟩
    exact ⟨hx, ha⟩
  · rintro ⟨hx, ha⟩
    exact ⟨_, ha, hx, rfl⟩

/-- An index that `build` writes is accepted, where it is shorter than `2 ^ 32`, and for a query it gives the locations
of the records that are looked up, one anchor after the other. -/
theorem lookup_built {fs : Fs} {dir : PathBuf} {bytes : List UInt8} (h : build fs dir = .ok bytes)
    (hsmall : bytes.length < 2 ^ 32) (query : Query) :
    ∃ frags index anchors, fragments fs dir = .ok frags ∧ Readable fs frags ∧ decode bytes = .ok (some index) ∧
      anchors.Nodup ∧ (∀ x ∈ corpusRecords fs frags, x.2.anchor ∈ anchors ↔ query.looksUp x.2.anchor) ∧
      query.lookup index = .ok ((gathered (corpusRecords fs frags) anchors).map locOf) := by
  obtain ⟨frags, hf, h⟩ := bind_eq_ok.1 h
  obtain ⟨b, hb, h⟩ := bind_eq_ok.1 h
  cases h
  obtain ⟨⟨items, he, hstands⟩, hread⟩ := addFiles_spec hb ⟨[], rfl, List.Forall₂.nil⟩
  rw [List.nil_append] at hstands
  have hsorted : Sorted b.entries := he ▸ ascending_group items
  have hmem : ∀ a vs, (a, vs) ∈ b.entries ↔ a ∈ items.map Prod.fst ∧ vs = valuesOf items a := by
    intro a vs
    rw [he]
    exact mem_group anchorKey_injective
  have hin : ∀ e ∈ b.entries, ∀ loc ∈ e.2, loc.1 < b.files.length ∧ loc.2 < 2 ^ 64 := by
    rintro ⟨a, vs⟩ hav loc hloc
    rw [((hmem a vs).1 hav).2] at hloc
    obtain ⟨item, hitem, rfl⟩ := List.mem_map.1 hloc
    obtain ⟨x, hx, _, h2, h3⟩ := Fallible.exists_of_mem hstands (List.mem_of_mem_filter hitem)
    exact ⟨(List.getElem?_eq_some_iff.1 h2).1, h3 ▸ fenceOffset_lt (mem_corpusRecords.1 hx).2⟩
  have hrep := (stored_written hsmall hin).represents
  obtain ⟨idxs, hsel, hl⟩ : ∃ idxs, Selects b.entries query.looksUp idxs ∧ query.lookup (writtenIndex b.entries b.files) =
      .ok ((entriesAt b.entries idxs).flatMap fun e => e.2.filterMap (resolve (b.files.map encode))) := by
    cases query with
    | exact q => exact hrep.lookupExact_spec hsorted q
    | key q => exact hrep.lookupKey_spec hsorted q
  refine ⟨frags, _, (entriesAt b.entries idxs).map Prod.fst, hf, hread, decode_serialize hsorted hsmall hin, ?_, ?_, ?_⟩
  · refine List.Nodup.map_on (fun e he' e' he'' h => ?_) (hsel.nodup_entriesAt hsorted)
    obtain ⟨a, vs⟩ := e
    obtain ⟨a', vs'⟩ := e'
    obtain rfl : a = a' := h
    rw [((hmem a vs).1 (hsel.mem_entriesAt.1 he').1).2, ((hmem a vs').1 (hsel.mem_entriesAt.1 he'').1).2]
  · intro x hx
    rw [List.mem_map]
    constructor
    · rintro ⟨e, he, ha⟩
      exact ha ▸ (hsel.mem_entriesAt.1 he).2
    · intro hlook
      have hkey : x.2.anchor ∈ items.map Prod.fst := by
        obtain ⟨item, hitem, h1, _⟩ := Fallible.exists_of_mem hstands.flip hx
        exact List.mem_map.2 ⟨item, hitem, h1⟩
      exact ⟨(x.2.anchor, _), hsel.mem_entriesAt.2 ⟨(hmem _ _).2 ⟨hkey, rfl⟩, hlook⟩, rfl⟩
  · rw [hl, gathered, List.map_flatMap, List.flatMap_map]
    congr 1
    refine List.flatMap_congr fun e he => ?_
    obtain ⟨a, vs⟩ := e
    rw [((hmem a vs).1 (hsel.mem_entriesAt.1 he).1).2]
    exact resolve_valuesOf hstands a

end Peiosutils.Regman
