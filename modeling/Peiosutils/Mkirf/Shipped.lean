import Peiosutils.Mkirf.Build
import Peiosutils.Mkirf.Sequence

/-!
# The hooks that are listed, and the entries of the image

Hooks are found by reading the hook directories; the entries come from the walk, which leaves out what is excluded and
does not follow symlinks. `plan_lists_entries_iff` says when every path of the sequence files names an entry of the main
archive: every hook must be reached by the walk, and its name must have no newline. `excludedHook_listed` is an image
whose only hook is left out.
-/

set_option autoImplicit false

namespace Peiosutils.Mkirf

open Keyed Utf8 Fallible
open Regman (Str)

/-! ## What the sequence files list -/

/-- The paths of the `hook` lines of `hooks.seq.2`. -/
def hookLines (bytes : List UInt8) : List Str :=
  (seqLines bytes).filterMap fun line => if "hook ".toList.isPrefixOf line then some (line.drop 5) else none

/-- The hook paths that an entry lists, if it is one of the generated files. -/
def Entry.lists (e : Entry) : List Str :=
  match e.body with
  | .inlined data _ =>
    if e.name = utf8 (seqName "1") then readSeq data
    else if e.name = utf8 (seqName "2") then hookLines data
    else []
  | _ => []

/-- The path is that of an entry. -/
def NamesEntry (entries : List Entry) (path : Str) : Prop := ∃ e ∈ entries, encode path = 47 :: e.name

/-- Every listed path names an entry of the main archive. -/
def ListsEntries (p : Plan) : Prop := ∀ e ∈ p.main, ∀ path ∈ e.lists, NamesEntry p.main path

/-! ## What the walk reaches -/

/-- The tree has an object at these components. -/
def Tree.Has : Tree → List Path → Prop
  | .done, _ => False
  | .broken _, _ => False
  | .dir _ _ _, [] => False
  | .dir name children rest, n :: below =>
    (n = name.1 ∧ (below = [] ∨ children.Has below)) ∨ rest.Has (n :: below)
  | .object _ _ _, [] => False
  | .object name _ rest, n :: below => (n = name.1 ∧ below = []) ∨ rest.Has (n :: below)

/-- Neither the path of these components, beneath those `above`, nor an ancestor of it is excluded. -/
def Excludes.Keeps (excludes : Excludes) : List Path → List Path → Prop
  | _, [] => True
  | above, n :: below =>
    excludes.excluded (relPath (above ++ [n])) = false ∧ excludes.Keeps (above ++ [n]) below

/-- The components of a hook's path. -/
def hookComponents (dest name : String) : List Path := (utf8 (dest ++ "/" ++ name)).splitOn 47

/-- The hook is where the walk reaches it, and has a name that stays on its line. -/
structure Shipped (excludes : Excludes) (tree : Tree) (dest name : String) : Prop where
  oneLine : '\n' ∉ name.toList
  present : tree.Has (hookComponents dest name)
  kept : excludes.Keeps [] (hookComponents dest name)

/-! ## The walk -/

theorem Tree.Has.ne_nil {t : Tree} {components : List Path} (h : t.Has components) : components ≠ [] := by
  rintro rfl
  cases t <;> exact h

/-- Components have no slash. -/
theorem Tree.Has.plain : ∀ {t : Tree} {components : List Path}, t.Has components →
    ∀ c ∈ components, (47 : UInt8) ∉ c
  | .dir name children rest, n :: below, h => by
    rcases h with ⟨rfl, hbelow⟩ | h
    · rw [List.forall_mem_cons]
      refine ⟨name.2.2, ?_⟩
      rcases hbelow with rfl | hbelow
      · simp
      · exact hbelow.plain
    · exact h.plain
  | .object name o rest, n :: below, h => by
    rcases h with ⟨rfl, rfl⟩ | h
    · rw [List.forall_mem_singleton]
      exact name.2.2
    · exact h.plain

/-- The path of components gives them back. -/
theorem splitOn_relPath {components : List Path} (hne : components ≠ []) (h : ∀ c ∈ components, (47 : UInt8) ∉ c) :
    (relPath components).splitOn 47 = components := List.splitOn_intercalate 47 h hne

/-- The walk comes to `name`: there is an object whose path this is, and it is not left out. -/
def Reaches (excludes : Excludes) (above : List Path) (t : Tree) (name : Path) : Prop :=
  ∃ components, name = relPath (above ++ components) ∧ t.Has components ∧ excludes.Keeps above components

theorem Tree.has_dir {name : Name} {children rest : Tree} {components : List Path} :
    (Tree.dir name children rest).Has components ↔
      (∃ below, components = name.1 :: below ∧ (below = [] ∨ children.Has below)) ∨ rest.Has components := by
  cases components with
  | nil =>
    refine ⟨fun h => h.elim, ?_⟩
    rintro (⟨_, hc, -⟩ | h)
    · cases hc
    · exact absurd rfl h.ne_nil
  | cons c below => simp [Tree.Has, and_comm]

theorem Tree.has_object {name : Name} {o : Object} {rest : Tree} {components : List Path} :
    (Tree.object name o rest).Has components ↔
      (∃ below, components = name.1 :: below ∧ below = []) ∨ rest.Has components := by
  cases components with
  | nil =>
    refine ⟨fun h => h.elim, ?_⟩
    rintro (⟨_, hc, -⟩ | h)
    · cases hc
    · exact absurd rfl h.ne_nil
  | cons c below => simp [Tree.Has]

section Reaches

variable {excludes : Excludes} {above : List Path} {name : Path} {t rest : Tree} {under : List Path → Prop} {n : Path}
  (ht : ∀ components, t.Has components ↔ (∃ below, components = name :: below ∧ under below) ∨ rest.Has components)

include ht

/-- What is excluded is as if it were not there. -/
theorem reaches_skip (h : excludes.excluded (relPath (above ++ [name])) = true) :
    Reaches excludes above t n ↔ Reaches excludes above rest n := by
  constructor
  · rintro ⟨components, hn, hhas, hkeep⟩
    rcases (ht components).1 hhas with ⟨below, rfl, -⟩ | hhas
    · rw [hkeep.1] at h
      cases h
    · exact ⟨components, hn, hhas, hkeep⟩
  · rintro ⟨components, hn, hhas, hkeep⟩
    exact ⟨components, hn, (ht components).2 (Or.inr hhas), hkeep⟩

theorem reaches_keep (h : excludes.excluded (relPath (above ++ [name])) = false) :
    Reaches excludes above t n ↔
      (∃ below, n = relPath (above ++ [name] ++ below) ∧ under below ∧ excludes.Keeps (above ++ [name]) below) ∨
        Reaches excludes above rest n := by
  constructor
  · rintro ⟨components, hn, hhas, hkeep⟩
    rcases (ht components).1 hhas with ⟨below, rfl, hunder⟩ | hhas
    · exact Or.inl ⟨below, by rw [hn, List.append_assoc, List.singleton_append], hunder, hkeep.2⟩
    · exact Or.inr ⟨components, hn, hhas, hkeep⟩
  · rintro (⟨below, hn, hunder, hkeep⟩ | ⟨components, hn, hhas, hkeep⟩)
    · refine ⟨name :: below, ?_, (ht _).2 (Or.inl ⟨below, rfl, hunder⟩), h, hkeep⟩
      rw [hn, List.append_assoc, List.singleton_append]
    · exact ⟨components, hn, (ht components).2 (Or.inr hhas), hkeep⟩

end Reaches

/-- A body that the walk makes is not one of the build's own. -/
theorem Object.body_not_inlined {path : Path} {o : Object} {body : Body} (h : o.body path = .ok body) :
    ∀ data executable, body ≠ .inlined data executable := by
  rintro data executable rfl
  unfold Object.body at h
  split at h <;> cases h

/-- The entries of the walk are what it reaches, and none is one of the build's own. -/
theorem collect_spec {excludes : Excludes} : ∀ {t : Tree} {dir : Path} {above : List Path} {es : List Entry},
    collect excludes dir above t = .ok es →
      (∀ n, (∃ e ∈ es, e.name = n) ↔ Reaches excludes above t n) ∧
        ∀ e ∈ es, ∀ data executable, e.body ≠ .inlined data executable
  | .done, _, _, _, h => by
    cases h
    refine ⟨fun n => ⟨?_, ?_⟩, by simp⟩
    · rintro ⟨e, he, -⟩
      cases he
    · rintro ⟨_, -, hhas, -⟩
      exact hhas.elim
  | .dir name children rest, dir, above, es, h => by
    rw [collect] at h
    split at h
    · rename_i hex
      obtain ⟨hnames, hbodies⟩ := collect_spec h
      exact ⟨fun n => (hnames n).trans (reaches_skip (fun _ => Tree.has_dir) hex).symm, hbodies⟩
    · rename_i hex
      obtain ⟨inside, hinside, h⟩ := bind_eq_ok.1 h
      obtain ⟨behind, hbehind, h⟩ := bind_eq_ok.1 h
      cases h
      obtain ⟨hnames, hbodies⟩ := collect_spec hinside
      obtain ⟨hnames', hbodies'⟩ := collect_spec hbehind
      constructor
      · intro n
        rw [reaches_keep (fun _ => Tree.has_dir) (Bool.not_eq_true _ ▸ hex), ← hnames']
        have hinner : (∃ below, n = relPath (above ++ [name.1] ++ below) ∧ (below = [] ∨ children.Has below) ∧
            excludes.Keeps (above ++ [name.1]) below) ↔ relPath (above ++ [name.1]) = n ∨ ∃ e ∈ inside, e.name = n := by
          rw [hnames, Reaches]
          constructor
          · rintro ⟨below, hn, rfl | hhas, hkeep⟩
            · exact Or.inl (by rw [hn, List.append_nil])
            · exact Or.inr ⟨below, hn, hhas, hkeep⟩
          · rintro (hn | ⟨below, hn, hhas, hkeep⟩)
            · exact ⟨[], by rw [← hn, List.append_nil], Or.inl rfl, trivial⟩
            · exact ⟨below, hn, Or.inr hhas, hkeep⟩
        have hsplit : (∃ e ∈ inside ++ behind, e.name = n) ↔
            (∃ e ∈ inside, e.name = n) ∨ ∃ e ∈ behind, e.name = n := by
          simp only [List.mem_append, or_and_right, exists_or]
        rw [hinner, List.exists_mem_cons_iff, hsplit, or_assoc]
      · refine List.forall_mem_cons.2 ⟨?_, List.forall_mem_append.2 ⟨hbodies, hbodies'⟩⟩
        intro data executable hb
        cases hb
  | .object name o rest, dir, above, es, h => by
    rw [collect] at h
    split at h
    · rename_i hex
      obtain ⟨hnames, hbodies⟩ := collect_spec h
      exact ⟨fun n => (hnames n).trans (reaches_skip (fun _ => Tree.has_object) hex).symm, hbodies⟩
    · rename_i hex
      obtain ⟨body, hbody, h⟩ := bind_eq_ok.1 h
      obtain ⟨behind, hbehind, h⟩ := bind_eq_ok.1 h
      cases h
      obtain ⟨hnames, hbodies⟩ := collect_spec hbehind
      constructor
      · intro n
        rw [reaches_keep (fun _ => Tree.has_object) (Bool.not_eq_true _ ▸ hex), ← hnames, List.exists_mem_cons_iff]
        refine or_congr_left ⟨?_, ?_⟩
        · rintro rfl
          exact ⟨[], by rw [List.append_nil], rfl, trivial⟩
        · rintro ⟨below, hn, rfl, -⟩
          rw [hn, List.append_nil]
      · rw [List.forall_mem_cons]
        exact ⟨Object.body_not_inlined hbody, hbodies⟩

/-! ## The entries of a plan -/

/-- What is added for the ancestors are directories of their names, and what was there stays. -/
theorem mem_addMissingAncestors {entries : List Entry} {dir : String} :
    (∀ e ∈ entries, e ∈ addMissingAncestors entries dir) ∧
      ∀ e ∈ addMissingAncestors entries dir, e ∈ entries ∨ (e.body = .directory ∧ e.name ∈ prefixes dir) := by
  unfold addMissingAncestors
  induction prefixes dir generalizing entries with
  | nil => exact ⟨fun _ he => he, fun _ he => Or.inl he⟩
  | cons name names ih =>
    rw [List.foldl_cons]
    obtain ⟨hkeep, horigin⟩ := @ih (if entries.any fun e => e.name = name then entries else entries ++ [⟨name, .directory⟩])
    refine ⟨fun e he => hkeep e ?_, fun e he => ?_⟩
    · split
      · exact he
      · exact List.mem_append_left _ he
    · rcases horigin e he with he | ⟨hbody, hname⟩
      · split at he
        · exact Or.inl he
        · rcases List.mem_append.1 he with he | he
          · exact Or.inl he
          · rw [List.mem_singleton] at he
            subst he
            exact Or.inr ⟨rfl, List.mem_cons_self⟩
      · exact Or.inr ⟨hbody, List.mem_cons_of_mem _ hname⟩

/-- The two files that the build makes itself. -/
def sequenceEntries (hooks : List Hook) (order : List String) : List Entry :=
  [⟨utf8 (seqName "1"), .inlined (renderSeq order) false⟩, ⟨utf8 (seqName "2"), .inlined (renderSeqV2 hooks order) false⟩]

/-- The main archive of a plan: the two sequence files, what the walk reaches outside `++`, and ancestors. -/
structure Planned (excludes : Excludes) (src : Source) (p : Plan) (hooks : List Hook) (order : List String) : Prop where
  resolved : resolveHooks src = .ok (hooks, order)
  sequences : ∀ e ∈ sequenceEntries hooks order, e ∈ p.main
  walked : ∀ n, Reaches excludes [] src.tree n → n.head? ≠ some 43 → ∃ e ∈ p.main, e.name = n
  origin : ∀ e ∈ p.main, e ∈ sequenceEntries hooks order ∨
    ((Reaches excludes [] src.tree e.name ∨ e.name ∈ prefixes SEQ_DIR) ∧
      ∀ data executable, e.body ≠ .inlined data executable)

theorem ioResult_eq_ok {α : Type} {r : Except IoError α} {v : α} : ioResult r = .ok v ↔ r = .ok v := by
  cases r <;> simp [ioResult]

theorem hooksResult_eq_ok {α : Type} {r : Except String α} {v : α} : hooksResult r = .ok v ↔ r = .ok v := by
  cases r <;> simp [hooksResult]

/-- A name that does not begin with `+` is not of the early tree. -/
theorem notEarly {name : Path} (h : name.head? ≠ some 43) :
    (decide (name ≠ EARLY_DIR) && !startsWithEarly name) = true := by
  have hdir : EARLY_DIR.head? = some 43 := by decide
  have hne : name ≠ EARLY_DIR := fun he => h (he ▸ hdir)
  have hpre : startsWithEarly name = false := by
    cases name with
    | nil => decide
    | cons b name =>
      have hb : b ≠ 43 := fun he => h (he ▸ rfl)
      have hutf : utf8 "++/" = [43, 43, 47] := by decide
      rw [startsWithEarly, hutf, List.isPrefixOf, beq_eq_false_iff_ne.2 (Ne.symm hb)]
      rfl
  rw [hpre, decide_eq_true hne]
  rfl

theorem planned_of_ok {excludes : Excludes} {src : Source} {p : Plan} (h : plan excludes src = .ok p) :
    ∃ hooks order, Planned excludes src p hooks order := by
  unfold plan at h
  split at h
  · cases h
  · split at h
    · cases h
    · obtain ⟨-, -, h⟩ := bind_eq_ok.1 h
      obtain ⟨entries, hwalk, h⟩ := bind_eq_ok.1 h
      obtain ⟨⟨hooks, order⟩, hhooks, h⟩ := bind_eq_ok.1 h
      obtain ⟨early, -, h⟩ := bind_eq_ok.1 h
      cases h
      obtain ⟨collected, hcollect, hsort⟩ := bind_eq_ok.1 (ioResult_eq_ok.1 hwalk)
      cases hsort
      obtain ⟨hnames, hbodies⟩ := collect_spec hcollect
      obtain ⟨hkeep, horigin⟩ := @mem_addMissingAncestors
        (((sortByName collected).filter fun e => e.name ≠ EARLY_DIR && !startsWithEarly e.name) ++
          sequenceEntries hooks order) SEQ_DIR
      refine ⟨hooks, order, hhooks, fun e he => ?_, fun n hn hhead => ?_, fun e he => ?_⟩
      · exact mem_sortOn.2 (hkeep e (List.mem_append_right _ he))
      · obtain ⟨e, he, rfl⟩ := (hnames n).2 hn
        have hmain : e ∈ (sortByName collected).filter fun e => e.name ≠ EARLY_DIR && !startsWithEarly e.name :=
          List.mem_filter.2 ⟨mem_sortOn.2 he, notEarly hhead⟩
        exact ⟨e, mem_sortOn.2 (hkeep e (List.mem_append_left _ hmain)), rfl⟩
      · rcases horigin e (mem_sortOn.1 he) with he | ⟨hbody, hname⟩
        · rcases List.mem_append.1 he with he | he
          · have hcol := mem_sortOn.1 (List.mem_filter.1 he).1
            exact Or.inr ⟨Or.inl ((hnames e.name).1 ⟨e, hcol, rfl⟩), hbodies e hcol⟩
          · exact Or.inl he
        · refine Or.inr ⟨Or.inr hname, fun data executable hb => ?_⟩
          rw [hbody] at hb
          cases hb

/-! ## What is listed -/

/-- The paths of `hooks.seq.1`, a path with newlines in parts. -/
theorem readSeq_renderSeq (order : List String) :
    readSeq (renderSeq order) = order.flatMap fun path => path.toList.splitOn '\n' := by
  have hmarker : seqVersionLine.splitOn '\n' = [seqVersionLine] := by decide
  rw [readSeq, renderSeq, seqLines, lossyList, lossyChars_encode _ _ (Nat.le_refl _)]
  rw [unlines, Lines.lines_flatMap_splitOn, List.flatMap_cons, hmarker, List.singleton_append, List.tail_cons,
    List.flatMap_map]

/-- The paths of `hooks.seq.2` are those of the order, where none has a newline. -/
theorem mem_hookLines {hooks : List Hook} (hl : Listable hooks) {order : List String}
    (horder : ∀ path ∈ order, ∃ x ∈ hooks, x.path = path) (hn : ∀ path ∈ order, '\n' ∉ path.toList) :
    ∀ path ∈ hookLines (renderSeqV2 hooks order), ∃ q ∈ order, path = q.toList := by
  have hlines : ∀ line ∈ seqV2VersionLine :: order.flatMap (stanzaLines hooks), '\n' ∉ line := by
    rw [List.forall_mem_cons]
    refine ⟨by decide, fun line hline => ?_⟩
    obtain ⟨path, hp, hline⟩ := List.mem_flatMap.1 hline
    obtain ⟨x, hx, rfl⟩ := horder path hp
    exact newline_notMem_stanzaLines hl hx (hn _ hp) line hline
  intro path hpath
  rw [hookLines, renderSeqV2, seqLines_encode hlines] at hpath
  obtain ⟨line, hline, hsome⟩ := List.mem_filterMap.1 hpath
  rw [Option.ite_none_right_eq_some] at hsome
  obtain ⟨hpre, hdrop⟩ := hsome
  rcases List.mem_cons.1 hline with rfl | hline
  · exact absurd hpre (by decide)
  · obtain ⟨q, hq, hline⟩ := List.mem_flatMap.1 hline
    obtain ⟨x, hx, rfl⟩ := horder q hq
    rw [stanzaLines, hl.byPath_eq hx] at hline
    rcases List.mem_cons.1 hline with rfl | hline
    · exact ⟨x.path, hq, by cases hdrop; rfl⟩
    · obtain ⟨key, -, rfl⟩ := List.mem_map.1 hline
      rw [not_hookLine_keyLine] at hpre
      cases hpre

theorem lists_sequenceEntries {data : List UInt8} {executable : Bool} :
    Entry.lists ⟨utf8 (seqName "1"), .inlined data executable⟩ = readSeq data ∧
      Entry.lists ⟨utf8 (seqName "2"), .inlined data executable⟩ = hookLines data := by
  have hne : utf8 (seqName "2") ≠ utf8 (seqName "1") := by decide
  constructor
  · simp only [Entry.lists, if_true]
  · simp only [Entry.lists, if_neg hne, if_true]

/-- Only the two sequence files list hooks. -/
theorem Planned.listsEntries_iff {excludes : Excludes} {src : Source} {p : Plan} {hooks : List Hook}
    {order : List String} (h : Planned excludes src p hooks order) :
    ListsEntries p ↔ (∀ path ∈ readSeq (renderSeq order), NamesEntry p.main path) ∧
      ∀ path ∈ hookLines (renderSeqV2 hooks order), NamesEntry p.main path := by
  constructor
  · intro hall
    constructor
    · intro path hpath
      refine hall _ (h.sequences _ List.mem_cons_self) path ?_
      rwa [lists_sequenceEntries.1]
    · intro path hpath
      refine hall _ (h.sequences _ (List.mem_cons_of_mem _ List.mem_cons_self)) path ?_
      rwa [lists_sequenceEntries.2]
  · rintro ⟨h₁, h₂⟩ e he path hpath
    rcases h.origin e he with hseq | ⟨-, hbody⟩
    · simp only [sequenceEntries, List.mem_cons, List.not_mem_nil, or_false] at hseq
      rcases hseq with rfl | rfl
      · rw [lists_sequenceEntries.1] at hpath
        exact h₁ path hpath
      · rw [lists_sequenceEntries.2] at hpath
        exact h₂ path hpath
    · unfold Entry.lists at hpath
      split at hpath
      · rename_i data executable hb
        exact absurd hb (hbody data executable)
      · cases hpath

/-! ## The hooks of the plan -/

theorem Wins.dest_mem {dirs : String → Option Listing} {dests : List String} {dest name : String}
    (h : Wins dirs dests dest name) : dest ∈ dests := by
  obtain ⟨before, behind, rfl, -⟩ := h
  simp

/-- The name of a hook has no slash. -/
theorem Wins.slash_notMem {src : Source} {dest name : String} (h : Wins src.dirs HOOK_DIRS dest name) :
    '/' ∉ name.toList := by
  obtain ⟨-, -, -, ⟨n, ⟨items, item, hdir, hitem, rfl, -⟩, rfl⟩, -⟩ := h
  intro hmem
  rw [lossy, String.toList_ofList] at hmem
  exact src.plain dest items item hdir hitem (mem_of_mem_lossyList (c := '/') (by decide) (by decide) hmem)

/-- The order of the build is that of the hooks that are found. -/
theorem resolveHooks_spec {src : Source} {hooks : List Hook} {order : List String}
    (h : resolveHooks src = .ok (hooks, order)) :
    Listable hooks ∧ (∀ path ∈ order, ∃ x ∈ hooks, x.path = path) ∧
      ∀ path, path ∈ order ↔ ∃ dest name, Wins src.dirs HOOK_DIRS dest name ∧ path = hookPath dest name := by
  unfold resolveHooks at h
  obtain ⟨⟨found, warnings⟩, hfound, h⟩ := bind_eq_ok.1 h
  rw [hooksResult_eq_ok] at hfound
  have hl := listable_discoverAll hfound
  have hwins := mem_discoverAll hfound
  dsimp only at h
  split at h
  · rename_i hempty
    subst hempty
    cases h
    refine ⟨hl, by simp, fun path => ⟨fun hp => (by cases hp), ?_⟩⟩
    rintro ⟨dest, name, hw, -⟩
    obtain ⟨x, hx, -⟩ := (hwins dest name).2 hw
    cases hx
  · obtain ⟨r, hr, h⟩ := bind_eq_ok.1 h
    cases h
    rw [hooksResult_eq_ok] at hr
    obtain ⟨l, hperm, horder⟩ := resolve_order_perm hl.implicit.names hr
    have hmem : ∀ path, path ∈ r.order ↔ ∃ x ∈ applyImplicitOrdering found, x.path = path := by
      intro path
      rw [← horder, List.mem_map]
      simp only [hperm.mem_iff]
    refine ⟨hl.implicit, fun path hp => (hmem path).1 hp, fun path => (hmem path).trans ⟨?_, ?_⟩⟩
    · rintro ⟨x, hx, rfl⟩
      obtain ⟨y, hy, rfl⟩ := List.mem_map.1 hx
      obtain ⟨dest, -, hpath⟩ := hl.path y hy
      exact ⟨dest, y.name, (hwins dest y.name).1 ⟨y, hy, rfl, hpath⟩, by rw [implicitlyOrdered_path, hpath]⟩
    · rintro ⟨dest, name, hw, rfl⟩
      obtain ⟨y, hy, -, hpath⟩ := (hwins dest name).2 hw
      exact ⟨y.implicitlyOrdered, List.mem_map_of_mem hy, by rw [implicitlyOrdered_path, hpath]⟩

/-! ## Listed and shipped -/

/-- The components are those of the path inside the image. -/
theorem encode_hookPath (dest name : String) :
    encode (hookPath dest name).toList = 47 :: relPath (hookComponents dest name) := by
  have hslash : encode ("/" : String).toList = [47] := by decide
  rw [hookComponents, relPath, List.intercalate_splitOn, utf8_eq_encode, hookPath, String.toList_append,
    String.toList_append, String.toList_append, encode_append, encode_append, encode_append, hslash,
    String.toList_append, String.toList_append, encode_append, encode_append, hslash]
  simp

/-- The paths of hooks are none of the early tree, and none that the build makes. -/
theorem hookComponents_fresh {dest : String} (hd : dest ∈ HOOK_DIRS) (name : String) :
    (relPath (hookComponents dest name)).head? ≠ some 43 ∧
      relPath (hookComponents dest name) ∉ prefixes SEQ_DIR ∧
      ∀ version, relPath (hookComponents dest name) ≠ utf8 (seqName version) := by
  have hrel : relPath (hookComponents dest name) = utf8 dest ++ utf8 ("/" ++ name) := by
    rw [hookComponents, relPath, List.intercalate_splitOn]
    simp only [utf8_eq_encode, String.toList_append, encode_append, List.append_assoc]
  have hhead : (relPath (hookComponents dest name)).head? ∈ [some 108, some 117, some (104 : UInt8)] := by
    have hdirs : ∀ d ∈ HOOK_DIRS, (utf8 d).head?.isSome ∧ (utf8 d).head? ∈ [some 108, some 117, some 104] := by decide
    obtain ⟨hsome, hmem⟩ := hdirs dest hd
    rwa [hrel, List.head?_append, Option.or_of_isSome hsome]
  refine ⟨?_, ?_, fun version heq => ?_⟩
  · intro h
    rw [h] at hhead
    revert hhead
    decide
  · intro hmem
    have hpre : ∀ n ∈ prefixes SEQ_DIR, n.head? = some 115 := by decide
    rw [hpre _ hmem] at hhead
    revert hhead
    decide
  · have hseq : (utf8 (seqName version)).head? = some 115 := by
      rw [utf8_eq_encode, seqName, String.toList_append, String.toList_append, encode_append, encode_append,
        List.append_assoc, List.head?_append]
      have : (encode SEQ_DIR.toList).head? = some 115 := by decide
      rw [this]
      rfl
    rw [heq, hseq] at hhead
    revert hhead
    decide

/-- The path of a hook names an entry just when the walk reaches the hook. -/
theorem Planned.namesEntry_hookPath {excludes : Excludes} {src : Source} {p : Plan} {hooks : List Hook}
    {order : List String} (h : Planned excludes src p hooks order) {dest : String} (hd : dest ∈ HOOK_DIRS)
    (name : String) : NamesEntry p.main (hookPath dest name).toList ↔
      src.tree.Has (hookComponents dest name) ∧ excludes.Keeps [] (hookComponents dest name) := by
  obtain ⟨hplus, hanc, hseq⟩ := hookComponents_fresh hd name
  constructor
  · rintro ⟨e, he, hn⟩
    rw [encode_hookPath, List.cons.injEq] at hn
    have hname := hn.2
    rcases h.origin e he with hs | ⟨hreach | hprefix, -⟩
    · simp only [sequenceEntries, List.mem_cons, List.not_mem_nil, or_false] at hs
      rcases hs with rfl | rfl
      · exact absurd hname (hseq "1")
      · exact absurd hname (hseq "2")
    · obtain ⟨components, hrel, hhas, hkeep⟩ := hreach
      rw [List.nil_append] at hrel
      have hcomp : hookComponents dest name = components := by
        have hsplit := congrArg (List.splitOn 47) (hname.trans hrel)
        rw [splitOn_relPath hhas.ne_nil hhas.plain] at hsplit
        rwa [relPath, hookComponents, List.intercalate_splitOn] at hsplit
      rw [hcomp]
      exact ⟨hhas, hkeep⟩
    · exact absurd (hname ▸ hprefix) hanc
  · rintro ⟨hhas, hkeep⟩
    obtain ⟨e, he, hname⟩ := h.walked _ ⟨_, rfl, hhas, hkeep⟩ hplus
    exact ⟨e, he, by rw [encode_hookPath, hname, List.nil_append]⟩

theorem newline_notMem_hookPath {dest name : String} (hd : dest ∈ HOOK_DIRS) (hn : '\n' ∉ name.toList) :
    '\n' ∉ (hookPath dest name).toList := by
  have hdirs : ∀ d ∈ HOOK_DIRS, '\n' ∉ ("/" ++ d ++ "/").toList := by decide
  rw [hookPath, String.toList_append, List.mem_append, not_or]
  exact ⟨hdirs dest hd, hn⟩

/-- A path of more than one line has a line that names nothing. -/
theorem exists_piece_of_newline (entries : List Entry) {dest name : String} (hslash : '/' ∉ name.toList)
    (hn : '\n' ∈ name.toList) : ∃ piece ∈ (hookPath dest name).toList.splitOn '\n', ¬ NamesEntry entries piece := by
  obtain ⟨front, behind, hname⟩ := List.append_of_mem hn
  obtain ⟨piece, hpiece⟩ := List.exists_mem_of_ne_nil _ (List.splitOn_ne_nil '\n' behind)
  have hsplit : (hookPath dest name).toList.splitOn '\n' =
      (("/" ++ dest ++ "/").toList ++ front).splitOn '\n' ++ behind.splitOn '\n' := by
    rw [hookPath, String.toList_append, hname, ← List.append_assoc]
    exact List.splitOn_append_cons_self _ _
  refine ⟨piece, hsplit ▸ List.mem_append_right _ hpiece, ?_⟩
  -- what is behind a newline is of the name, and the path of an entry begins with a slash
  rintro ⟨e, -, hpath⟩
  have hmem : '/' ∈ piece := mem_of_mem_encode (c := '/') (by decide) (hpath ▸ List.mem_cons_self)
  have hparts : '/' ∈ behind ↔ ∃ p ∈ behind.splitOn '\n', '/' ∈ p := Lines.mem_iff_mem_splitOn (by decide) behind
  refine hslash ?_
  rw [hname]
  exact List.mem_append_right _ (List.mem_cons_of_mem _ (hparts.2 ⟨piece, hpiece, hmem⟩))

/-- Every listed path names an entry exactly when the walk reaches every hook that is found, under the name that is
listed, and no name has a newline. -/
theorem plan_lists_entries_iff {excludes : Excludes} {src : Source} {p : Plan} (h : plan excludes src = .ok p) :
    ListsEntries p ↔ ∀ dest name, Wins src.dirs HOOK_DIRS dest name → Shipped excludes src.tree dest name := by
  obtain ⟨hooks, order, hp⟩ := planned_of_ok h
  obtain ⟨hl, hpaths, horder⟩ := resolveHooks_spec hp.resolved
  rw [hp.listsEntries_iff, readSeq_renderSeq]
  constructor
  · rintro ⟨h₁, -⟩ dest name hw
    have hlisted : ∀ piece ∈ (hookPath dest name).toList.splitOn '\n', NamesEntry p.main piece := fun piece hpiece =>
      h₁ piece (List.mem_flatMap.2 ⟨_, (horder _).2 ⟨dest, name, hw, rfl⟩, hpiece⟩)
    have hn : '\n' ∉ name.toList := by
      intro hn
      obtain ⟨piece, hpiece, hno⟩ := exists_piece_of_newline p.main hw.slash_notMem hn
      exact hno (hlisted piece hpiece)
    have hline := hlisted (hookPath dest name).toList (by
      rw [List.splitOn_eq_singleton (newline_notMem_hookPath hw.dest_mem hn)]
      exact List.mem_singleton_self _)
    obtain ⟨hhas, hkeep⟩ := (hp.namesEntry_hookPath hw.dest_mem name).1 hline
    exact ⟨hn, hhas, hkeep⟩
  · intro hall
    have hn : ∀ path ∈ order, '\n' ∉ path.toList := by
      intro path hpath
      obtain ⟨dest, name, hw, rfl⟩ := (horder path).1 hpath
      exact newline_notMem_hookPath hw.dest_mem (hall dest name hw).oneLine
    have hnames : ∀ path ∈ order, NamesEntry p.main path.toList := by
      intro path hpath
      obtain ⟨dest, name, hw, rfl⟩ := (horder path).1 hpath
      have hs := hall dest name hw
      exact (hp.namesEntry_hookPath hw.dest_mem name).2 ⟨hs.present, hs.kept⟩
    constructor
    · intro piece hpiece
      obtain ⟨path, hpath, hpiece⟩ := List.mem_flatMap.1 hpiece
      rw [List.splitOn_eq_singleton (hn path hpath), List.mem_singleton] at hpiece
      exact hpiece ▸ hnames path hpath
    · intro path hpath
      obtain ⟨q, hq, rfl⟩ := mem_hookLines hl hpaths hn path hpath
      exact hnames q hq

/-- A file name. -/
def named (name : String) (h : utf8 name ≠ [] ∧ (47 : UInt8) ∉ utf8 name) : Name := ⟨utf8 name, h⟩

/-- A tree with a hook and an `init`. -/
def hookTree : Tree :=
  .dir (named "usr" (by decide))
    (.dir (named "libexec" (by decide))
      (.dir (named "prelude" (by decide))
        (.dir (named "hooks.d" (by decide)) (.object (named "mount.sh" (by decide)) (.file 0 0o755) .done) .done) .done)
      .done)
    (.object (named "init" (by decide)) (.file 0 0o755) .done)

def hookSource : Source where
  path := utf8 "/src"
  tree := hookTree
  metadata path :=
    if path = utf8 "/src" then .ok ⟨true, false, 0o755⟩
    else if path = utf8 "/src/init" then .ok ⟨false, true, 0o755⟩
    else .error ⟨.notFound, "No such file or directory (os error 2)"⟩
  dirs := oneHook "mount.sh"
  plain := by
    intro dest items item hdir hitem
    unfold oneHook at hdir
    split at hdir
    · cases hdir
      rw [List.mem_singleton] at hitem
      cases hitem
      decide
    · cases hdir

/-- The plan, with the walked hook or without. -/
def hookPlan (shipped : Bool) : Plan where
  main :=
    [⟨utf8 "init", .file (utf8 "/src/init") 0 true⟩, ⟨utf8 "system", .directory⟩, ⟨utf8 "system/prelude", .directory⟩,
      ⟨utf8 (seqName "1"), .inlined (utf8 "hookseq 1\n/usr/libexec/prelude/hooks.d/mount.sh\n") false⟩,
      ⟨utf8 (seqName "2"), .inlined (utf8 "hookseq 2\nhook /usr/libexec/prelude/hooks.d/mount.sh\n") false⟩,
      ⟨utf8 "usr", .directory⟩, ⟨utf8 "usr/libexec", .directory⟩, ⟨utf8 "usr/libexec/prelude", .directory⟩,
      ⟨utf8 "usr/libexec/prelude/hooks.d", .directory⟩] ++
    if shipped then
      [⟨utf8 "usr/libexec/prelude/hooks.d/mount.sh", .file (utf8 "/src/usr/libexec/prelude/hooks.d/mount.sh") 0 true⟩]
    else []
  early := []

/-- An exclude pattern that matches the hook. -/
def hookExcluded : Excludes := [fun rel => rel = utf8 "usr/libexec/prelude/hooks.d/mount.sh"]

theorem plan_hookSource : plan [] hookSource = .ok (hookPlan true) ∧
    plan hookExcluded hookSource = .ok (hookPlan false) := by
  decide +kernel

theorem wins_oneHook {dest name : String} (h : Wins (oneHook "mount.sh") HOOK_DIRS dest name) :
    dest = "usr/libexec/prelude/hooks.d" ∧ name = "mount.sh" := by
  obtain ⟨-, -, -, ⟨n, ⟨items, item, hdir, hitem, rfl, -⟩, rfl⟩, -⟩ := h
  unfold oneHook at hdir
  split at hdir
  · rename_i hd
    cases hdir
    rw [List.mem_singleton] at hitem
    cases hitem
    exact ⟨hd, by decide +kernel⟩
  · cases hdir

/-- A hook that nothing excludes. -/
theorem plan_lists_entries_small : plan [] hookSource = .ok (hookPlan true) ∧ ListsEntries (hookPlan true) := by
  refine ⟨plan_hookSource.1, (plan_lists_entries_iff plan_hookSource.1).2 fun dest name hw => ?_⟩
  obtain ⟨rfl, rfl⟩ := wins_oneHook hw
  have hcomponents : hookComponents "usr/libexec/prelude/hooks.d" "mount.sh" =
      [utf8 "usr", utf8 "libexec", utf8 "prelude", utf8 "hooks.d", utf8 "mount.sh"] := by decide +kernel
  refine ⟨by decide, ?_, ?_⟩
  · rw [hcomponents]
    exact Or.inl ⟨rfl, Or.inr (Or.inl ⟨rfl, Or.inr (Or.inl ⟨rfl, Or.inr (Or.inl ⟨rfl, Or.inr
      (Or.inl ⟨rfl, rfl⟩)⟩)⟩)⟩)⟩
  · rw [hcomponents]
    exact ⟨rfl, rfl, rfl, rfl, rfl, trivial⟩

/-- The hook is excluded: the image is built, and lists a path that it does not have. -/
theorem excludedHook_listed :
    plan hookExcluded hookSource = .ok (hookPlan false) ∧
      (run (fun _ => .ok (.ok [])) (fun main => .ok main) hookExcluded hookSource).isOk = true ∧
      ¬ ListsEntries (hookPlan false) := by
  refine ⟨plan_hookSource.2, by decide +kernel, fun h => ?_⟩
  obtain ⟨e, he, hpath⟩ := h ⟨utf8 (seqName "1"),
    .inlined (utf8 "hookseq 1\n/usr/libexec/prelude/hooks.d/mount.sh\n") false⟩ (by decide +kernel)
    "/usr/libexec/prelude/hooks.d/mount.sh".toList (by decide +kernel)
  revert e
  decide +kernel

end Peiosutils.Mkirf
