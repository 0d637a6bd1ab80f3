import Mathlib.Data.Char
import Mathlib.Data.List.Lex
import Peiosutils.Lib.Multimap
import Peiosutils.Lib.Unfold
import Peiosutils.Lib.While

/-!
# The tree of block devices (`device.rs`)

`build_tree` makes a tree below each root from the links of the records. The chain of the names above a device is all that
stops it.
-/

set_option autoImplicit false

namespace Peiosutils.Lsblk

open While (Stop)

abbrev Str := List Char

structure Facts where
  name : Str
  parentKname : Option Str

/-- A flat record, before the tree is assembled. -/
structure Record where
  dev : Facts
  isPartition : Bool
  holders : List Str
  slaves : List Str

/-- The records by name. -/
structure Records where
  entries : List (Str × Record)
  sorted : entries.Pairwise fun a b => a.1 < b.1
  named : ∀ e ∈ entries, e.2.dev.name = e.1

/-- A device with its depth and its subtree. -/
inductive Device where
  | mk (dev : Facts) (depth : Nat) (children : List Device)

namespace Device

def name : Device → Str
  | mk dev _ _ => dev.name

def children : Device → List Device
  | mk _ _ children => children

end Device

namespace Records

def get? (records : Records) (kname : Str) : Option Record := records.entries.lookup kname

def containsKey (records : Records) (kname : Str) : Bool := (records.get? kname).isSome

end Records

/-- Disks with the names of their partitions. -/
def partitionsOf (records : Records) : List (Str × List Str) :=
  Multimap.group id (records.entries.filterMap fun e => e.2.dev.parentKname.map fun parent => (parent, e.1))

def isParentDisk (name : Str) (partitions : List (Str × List Str)) : Bool :=
  match partitions.lookup name with
  | some v => !v.isEmpty
  | none => false

section Assemble

variable (records : Records) (inverse : Bool)

def childNames (kname : Str) (rec : Record) : List Str :=
  if inverse then rec.slaves ++ rec.dev.parentKname.toList
  else ((partitionsOf records).lookup kname).getD [] ++ rec.holders

/-- The children that have a record, made one after the other by `assemble`. -/
def assembleAll (assemble : Str → List Str → Except Stop (Device × List Str)) :
    List Str → List Str → Except Stop (List Device × List Str)
  | [], chain => .ok ([], chain)
  | child :: names, chain =>
    if records.containsKey child then do
      let (d, chain) ← assemble child chain
      let (ds, chain) ← assembleAll assemble names chain
      return (d :: ds, chain)
    else assembleAll assemble names chain

/-- The subtree at a name, and the chain as it is left. -/
def assemble : (fuel : Nat) → (kname : Str) → (depth : Nat) → (chain : List Str) → Except Stop (Device × List Str)
  | 0, _, _, _ => .error .fuel
  | fuel + 1, kname, depth, chain =>
    match records.get? kname with
    | none => .error .panic
    | some rec =>
      if kname ∈ chain then .ok (.mk rec.dev depth [], chain)
      else do
        let (children, chain) ← assembleAll records (fun child chain => assemble fuel child (depth + 1) chain)
          (childNames records inverse kname rec) (chain ++ [kname])
        return (.mk rec.dev depth children, chain.dropLast)

/-- Forward, whole devices on their own; inverse, devices with nothing on them. -/
def isRoot (e : Str × Record) : Bool :=
  if inverse then e.2.holders.isEmpty && !isParentDisk e.2.dev.name (partitionsOf records)
  else !e.2.isPartition && e.2.slaves.isEmpty

def roots : List Str := (records.entries.filter (isRoot records inverse)).map Prod.fst

def assembleRoots (fuel : Nat) : List Str → Except Stop (List Device)
  | [] => .ok []
  | root :: names => do
    let (d, _) ← assemble records inverse fuel root 0 []
    let ds ← assembleRoots fuel names
    return d :: ds

def buildTree (fuel : Nat) : Except Stop (List Device) :=
  assembleRoots records inverse fuel (roots records inverse)

end Assemble

/-! ## Links -/

/-- Whether a name is linked to another one: by a partition or a holder, or backwards by a slave or its parent. -/
def Link (records : Records) (inverse : Bool) (p c : Str) : Prop :=
  ∃ rp rc, records.get? p = some rp ∧ records.get? c = some rc ∧
    if inverse then c ∈ rp.slaves ∨ rp.dev.parentKname = some c else rc.dev.parentKname = some p ∨ c ∈ rp.holders

/-- The names that a device is linked to, in the order of its children. -/
def linked (records : Records) (inverse : Bool) (p : Str) : List Str :=
  match records.get? p with
  | none => []
  | some rec => (childNames records inverse p rec).filter records.containsKey

end Peiosutils.Lsblk

/-!
# What a device tree shows

Every call of `assemble` leaves the chain as it was, and needs no more fuel than there are records that are not on it.
What it makes unfolds the graph of the links (`assemble_unfolds`), so `build_tree` ends, and shows exactly what is
linked to its roots, along paths that do not turn (`buildTree_ends`).
-/

namespace Peiosutils.Lsblk

open While (Stop Ends)
open Unfolding (Unfolds Path Appears)

variable {records : Records} {inverse : Bool}

/-! ## Records -/

theorem mem_of_get? {kname : Str} {rec : Record} (h : records.get? kname = some rec) :
    (kname, rec) ∈ records.entries := by
  obtain ⟨before, after, hentries, -⟩ := List.lookup_eq_some_iff.1 h
  rw [hentries]
  exact List.mem_append_right _ List.mem_cons_self

theorem get?_of_mem {e : Str × Record} (he : e ∈ records.entries) : records.get? e.1 = some e.2 := by
  obtain ⟨before, after, hentries⟩ := List.append_of_mem he
  refine List.lookup_eq_some_iff.2 ⟨before, after, hentries, fun e' he' => ?_⟩
  have hsorted := records.sorted
  rw [hentries, List.pairwise_append] at hsorted
  have hlt : e'.1 < e.1 := hsorted.2.2 e' he' e List.mem_cons_self
  simpa using (ne_of_lt hlt).symm

theorem name_of_get? {kname : Str} {rec : Record} (h : records.get? kname = some rec) : rec.dev.name = kname :=
  records.named _ (mem_of_get? h)

theorem containsKey_iff {kname : Str} : records.containsKey kname = true ↔ ∃ rec, records.get? kname = some rec :=
  Option.isSome_iff_exists

/-! ## Links -/

/-- The partitions of a disk. -/
theorem mem_partitions {p c : Str} :
    c ∈ ((partitionsOf records).lookup p).getD [] ↔
      ∃ rec, records.get? c = some rec ∧ rec.dev.parentKname = some p := by
  rw [partitionsOf, Multimap.lookup_group Function.injective_id, Multimap.valuesOf]
  simp only [List.mem_map, List.mem_filter, List.mem_filterMap, Option.map_eq_some_iff, decide_eq_true_eq]
  constructor
  · rintro ⟨kv, ⟨⟨e, he, parent, hparent, rfl⟩, rfl⟩, rfl⟩
    exact ⟨e.2, get?_of_mem he, hparent⟩
  · rintro ⟨rec, hrec, hparent⟩
    exact ⟨(p, c), ⟨⟨(c, rec), mem_of_get? hrec, p, hparent, rfl⟩, rfl⟩, rfl⟩

theorem mem_linked {p c : Str} : c ∈ linked records inverse p ↔ Link records inverse p c := by
  unfold linked Link
  cases hp : records.get? p with
  | none => simp
  | some rp =>
    simp only [List.mem_filter, containsKey_iff, childNames]
    cases inverse with
    | true =>
      simp only [if_true, List.mem_append, Option.mem_toList]
      constructor
      · rintro ⟨hchild, rc, hrc⟩
        exact ⟨rp, rc, rfl, hrc, hchild⟩
      · rintro ⟨rp', rc, hp', hrc, hlink⟩
        cases hp'
        exact ⟨hlink, rc, hrc⟩
    | false =>
      simp only [Bool.false_eq_true, if_false, List.mem_append, mem_partitions]
      constructor
      · rintro ⟨⟨rc, hrc, hparent⟩ | hholder, rc', hrc'⟩
        · exact ⟨rp, rc, rfl, hrc, .inl hparent⟩
        · exact ⟨rp, rc', rfl, hrc', .inr hholder⟩
      · rintro ⟨rp', rc, hp', hrc, hparent | hholder⟩
        · exact ⟨.inl ⟨rc, hrc, hparent⟩, rc, hrc⟩
        · cases hp'
          exact ⟨.inr hholder, rc, hrc⟩

/-! ## Calls -/

/-- The names of records that are not on a chain. -/
def unvisited (records : Records) (chain : List Str) : List Str :=
  (records.entries.map Prod.fst).filter fun kname => kname ∉ chain

theorem length_unvisited_lt {kname : Str} {chain : List Str} {rec : Record} (h : records.get? kname = some rec)
    (hout : kname ∉ chain) : (unvisited records (chain ++ [kname])).length < (unvisited records chain).length := by
  have hmem : kname ∈ unvisited records chain :=
    List.mem_filter.2 ⟨List.mem_map_of_mem (mem_of_get? h), decide_eq_true hout⟩
  have hfilter : unvisited records (chain ++ [kname]) = (unvisited records chain).filter fun k => k ≠ kname := by
    rw [unvisited, unvisited, List.filter_filter]
    refine List.filter_congr fun k _ => ?_
    simp [not_or, and_comm]
  rw [hfilter]
  exact List.length_filter_lt_length_iff_exists.2 ⟨kname, hmem, by simp⟩

/-- A chain as a set. -/
def onChain (chain : List Str) : Set Str := fun kname => kname ∈ chain

/-- What a call makes: a device of that name that unfolds the links, with the chain as it was. -/
def Makes (records : Records) (inverse : Bool) (chain : List Str) (kname : Str)
    (run : Except Stop (Device × List Str)) : Prop :=
  ∃ d, run = .ok (d, chain) ∧ d.name = kname ∧
    Unfolds Device.name Device.children (linked records inverse) (onChain chain) d

theorem assembleAll_makes (assemble : Str → List Str → Except Stop (Device × List Str)) (chain : List Str)
    (h : ∀ child rec, records.get? child = some rec → Makes records inverse chain child (assemble child chain))
    (names : List Str) :
    ∃ ds, assembleAll records assemble names chain = .ok (ds, chain) ∧
      ds.map Device.name = names.filter records.containsKey ∧
      ∀ d ∈ ds, Unfolds Device.name Device.children (linked records inverse) (onChain chain) d := by
  induction names with
  | nil => exact ⟨[], rfl, rfl, fun d hd => by cases hd⟩
  | cons child names ih =>
    obtain ⟨ds, hds, hnames, hunfolds⟩ := ih
    rw [assembleAll]
    by_cases hchild : records.containsKey child = true
    · obtain ⟨rec, hrec⟩ := containsKey_iff.1 hchild
      obtain ⟨d, hd, hname, hunfold⟩ := h child rec hrec
      refine ⟨d :: ds, ?_, ?_, List.forall_mem_cons.2 ⟨hunfold, hunfolds⟩⟩
      · rw [if_pos hchild, hd]
        show (assembleAll records assemble names chain >>= _) = _
        rw [hds]
        rfl
      · rw [List.map_cons, List.filter_cons_of_pos hchild, hname, hnames]
    · refine ⟨ds, by rw [if_neg hchild, hds], ?_, hunfolds⟩
      rw [List.filter_cons_of_neg hchild, hnames]

/-- A call for a record makes its device. -/
theorem assemble_makes {fuel : Nat} {kname : Str} {rec : Record} {chain : List Str}
    (inverse : Bool) (h : records.get? kname = some rec) (hfuel : (unvisited records chain).length < fuel)
    (depth : Nat) : Makes records inverse chain kname (assemble records inverse fuel kname depth chain) := by
  induction fuel generalizing kname rec chain depth with
  | zero => exact absurd hfuel (Nat.not_lt_zero _)
  | succ fuel ih =>
    have hname := name_of_get? h
    rw [assemble, h]
    by_cases hmem : kname ∈ chain
    · refine ⟨.mk rec.dev depth [], if_pos hmem, hname, .stop ?_ rfl⟩
      show rec.dev.name ∈ chain
      rw [hname]
      exact hmem
    · have hlt := length_unvisited_lt h hmem
      obtain ⟨ds, hds, hnames, hunfolds⟩ := assembleAll_makes
        (fun child chain => assemble records inverse fuel child (depth + 1) chain) (chain ++ [kname])
        (fun child rec' hrec' => ih hrec' (by omega) (depth + 1)) (childNames records inverse kname rec)
      refine ⟨.mk rec.dev depth ds, ?_, hname, .step ?_ ?_ fun d hd => ?_⟩
      · refine (if_neg hmem).trans ?_
        simp only [hds, bind, Except.bind, pure, Except.pure, List.dropLast_concat]
      · show rec.dev.name ∉ chain
        rw [hname]
        exact hmem
      · show ds.map Device.name = linked records inverse rec.dev.name
        rw [hnames, hname, linked, h]
      · have hchain : onChain (chain ++ [kname]) = insert rec.dev.name (onChain chain) := by
          ext k
          show k ∈ chain ++ [kname] ↔ k = rec.dev.name ∨ k ∈ chain
          rw [List.mem_append, List.mem_singleton, hname, or_comm]
        exact hchain ▸ hunfolds d hd

/-! ## Roots -/

theorem exists_of_mem_roots {root : Str} (h : root ∈ roots records inverse) :
    ∃ rec, records.get? root = some rec := by
  obtain ⟨e, he, rfl⟩ := List.mem_map.1 h
  exact ⟨e.2, get?_of_mem (List.mem_filter.1 he).1⟩

theorem assembleRoots_eq {fuel : Nat} (inverse : Bool) (hfuel : records.entries.length < fuel) {names : List Str}
    (h : ∀ root ∈ names, ∃ rec, records.get? root = some rec) :
    ∃ ds, assembleRoots records inverse fuel names = .ok ds ∧ ds.map Device.name = names ∧
      ∀ d ∈ ds, Unfolds Device.name Device.children (linked records inverse) ∅ d := by
  induction names with
  | nil => exact ⟨[], rfl, rfl, fun d hd => by cases hd⟩
  | cons root names ih =>
    rw [List.forall_mem_cons] at h
    obtain ⟨rec, hrec⟩ := h.1
    obtain ⟨ds, hds, hnames, hunfolds⟩ := ih h.2
    have hlen : (unvisited records []).length ≤ records.entries.length := by
      rw [unvisited]
      exact (List.length_filter_le _ _).trans (Nat.le_of_eq (List.length_map _))
    obtain ⟨d, hd, hname, hunfold⟩ := assemble_makes inverse hrec (hlen.trans_lt hfuel) 0
    refine ⟨d :: ds, ?_, by rw [List.map_cons, hname, hnames], List.forall_mem_cons.2 ⟨?_, hunfolds⟩⟩
    · rw [assembleRoots, hd]
      show (assembleRoots records inverse fuel names >>= _) = _
      rw [hds]
      rfl
    · have hempty : onChain [] = ∅ := Set.eq_empty_of_forall_notMem fun k hk => by cases hk
      exact hempty ▸ hunfold

/-- The trees end, follow the links without a turn, and show what is linked to a root. -/
theorem buildTree_ends (records : Records) (inverse : Bool) :
    Ends (buildTree records inverse) fun ds =>
      ds.map Device.name = roots records inverse ∧
      (∀ t ∈ ds, ∀ names d, Path Device.name Device.children t names d →
        (∀ c ∈ d.children, Link records inverse d.name c.name) ∧ names.dropLast.Nodup ∧
          (¬ names.Nodup → d.children = [])) ∧
      ∀ kname, (∃ t ∈ ds, Appears Device.name Device.children t kname) ↔
        ∃ root ∈ roots records inverse, Relation.ReflTransGen (Link records inverse) root kname := by
  refine ⟨records.entries.length, fun fuel hfuel => ?_⟩
  obtain ⟨ds, hds, hnames, hunfolds⟩ := assembleRoots_eq inverse hfuel fun root => exists_of_mem_roots
  have hlink : (fun p c => c ∈ linked records inverse p) = Link records inverse := by
    funext p c
    exact propext mem_linked
  refine ⟨ds, hds, hnames, fun t ht names d hpath => ?_, fun kname => ?_⟩
  · obtain ⟨hnodup, -, hlast⟩ := (hunfolds t ht).nodup hpath
    exact ⟨fun c hc => mem_linked.1 ((hunfolds t ht).link hpath hc), hnodup, fun hdup => hlast (.inr hdup)⟩
  · rw [← hlink, ← hnames]
    constructor
    · rintro ⟨t, ht, happears⟩
      exact ⟨t.name, List.mem_map_of_mem ht, ((hunfolds t ht).appears_iff kname).1 happears⟩
    · rintro ⟨root, hroot, hreach⟩
      obtain ⟨t, ht, rfl⟩ := List.mem_map.1 hroot
      exact ⟨t, ht, ((hunfolds t ht).appears_iff kname).2 hreach⟩

end Peiosutils.Lsblk
