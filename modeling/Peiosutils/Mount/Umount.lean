import Mathlib.Data.Finset.Max
import Mathlib.Data.List.Infix
import Mathlib.Data.List.Sort
import Mathlib.Logic.Relation
import Peiosutils.Mount.Flow

/-!
# Unmounting (`umount`)

`-R` unmounts what is mounted at a point and below it, longest paths first. The kernel takes a mount away only where a
path still leads to it and nothing is mounted on it. The order sees to the second: all goes, and nothing else, just
where no mount is hidden by another and none is in use (`run_recursive`).
-/

set_option autoImplicit false

namespace Peiosutils.Mount

open Mountinfo (MountEntry)
open Regman (Str)
open Utf8 (lossyList)

/-! ## The code -/

structure Flags where
  isLazy : Bool := false
  force : Bool := false
  recursive : Bool := false
  allTargets : Bool := false
  detachLoop : Bool := false
  readOnly : Bool := false
  graceful : Bool := false
  quiet : Bool := false
  noCanonicalize : Bool := false
  fake : Bool := false
  deriving DecidableEq, Repr

/-- What is called on, where the state of the system is a `K`. -/
structure Sys (K : Type) where
  umount2 : Bytes → BitVec 32 → K → Except OsError Unit × K
  setReadOnly : Bytes → K → Except OsError Unit × K
  detachVerified : Bytes → K → K
  enter : Bytes → K → Except MountError Unit × K
  /-- The table of mounts, or why it cannot be read. -/
  mountinfo : K → Except Str (List MountEntry)
  realpath : K → Bytes → Option Bytes
  strerror : OsError → Str

abbrev Umount (K α : Type) := ExceptT MountError (StateM K) α

def MNT_FORCE : BitVec 32 := 1
def MNT_DETACH : BitVec 32 := 2
def UMOUNT_NOFOLLOW : BitVec 32 := 8
def EBUSY : Nat := 16
def EINVAL : Nat := 22

def MountError.display (strerror : OsError → Str) : MountError → Str
  | usage msg | system msg | helper msg | partialFailure msg | notMounted msg => msg
  | permission stage source | mount stage source => stage.toList ++ ": ".toList ++ strerror source
  | unimplemented what => what ++ ": not yet implemented".toList
  | bug msg => "internal error: ".toList ++ msg
  | interrupted => "interrupted".toList

section Code

variable {K : Type} (sys : Sys K)

def umountFlags (flags : Flags) : BitVec 32 :=
  (if flags.isLazy then MNT_DETACH else 0) ||| (if flags.force then MNT_FORCE else 0) |||
    (if flags.noCanonicalize then UMOUNT_NOFOLLOW else 0)

/-- The loop device behind a mount point. -/
def loopSource (mp : Bytes) (entries : List MountEntry) : Option Bytes :=
  ((entries.find? fun e => e.mountPoint = mp).map fun e => e.source).filter fun s =>
    (Utf8.encode "/dev/loop".toList).isPrefixOf s

def unmountOne (entries : List MountEntry) (flags : Flags) (mp : Bytes) : Umount K Unit := ExceptT.mk fun k =>
  if flags.fake then (.ok (), k)
  else
    match cstr mp with
    | .error e => (.error e, k)
    | .ok tgt =>
      match sys.umount2 tgt (umountFlags flags) k with
      | (.ok (), k) =>
        match flags.detachLoop, loopSource mp entries with
        | true, some dev => (.ok (), sys.detachVerified dev k)
        | _, _ => (.ok (), k)
      | (.error e, k) =>
        let remounted := if flags.readOnly then sys.setReadOnly tgt k else (.error e, k)
        if remounted.1.isOk then (.ok (), remounted.2)
        else if flags.graceful && e.code == some EINVAL then (.ok (), remounted.2)
        else (.error (MountError.fromSyscall "umount2" e), remounted.2)

def slashed (target : Bytes) : Bytes := if target.getLast? = some 47 then target else target ++ [47]

/-- At a point, or below it. -/
def under (target p : Bytes) : Bool := p == target || (slashed target).isPrefixOf p

/-- The points at a target and below it, the longest first. -/
def recursiveOrder (target : Bytes) (entries : List MountEntry) : List Bytes :=
  ((entries.map fun e => e.mountPoint).filter (under target)).mergeSort fun p q => q.length ≤ p.length

/-- The points of a source, each once. -/
def pointsOf (canon raw : Bytes) (entries : List MountEntry) : List Bytes :=
  entries.foldl (fun points e =>
    if (e.source = raw || e.source = canon) && !points.contains e.mountPoint then points ++ [e.mountPoint]
    else points) []

def resolveTargets (canon raw : Bytes) (entries : List MountEntry) (flags : Flags) : Except MountError (List Bytes) :=
  if entries.any fun e => e.mountPoint = canon then .ok [canon]
  else
    let points := pointsOf canon raw entries
    if points.length ≤ 1 || flags.allTargets then .ok points
    else usage (lossyList raw ++ " is mounted at multiple places; specify a target or use -A:\n  ".toList ++
      "\n  ".toList.intercalate (points.map lossyList))

def canonicalize (k : K) (operand : Bytes) (noCanon : Bool) : Bytes :=
  if noCanon then operand else (sys.realpath k operand).getD operand

def unmountOperand (entries : List MountEntry) (flags : Flags) (operand : Bytes) : Umount K Unit := do
  let canon := canonicalize sys (← get) operand flags.noCanonicalize
  let targets ← ExceptT.mk (pure (resolveTargets canon operand entries flags))
  if targets.isEmpty then
    if flags.graceful then return ()
    else throw (.notMounted (if flags.quiet then [] else lossyList operand ++ ": not mounted".toList))
  else
    targets.forM fun target =>
      (if flags.recursive then recursiveOrder target entries else [target]).forM (unmountOne sys entries flags)

/-- One operand after the other: whether one succeeded, and the first error. -/
def unmountOperands (entries : List MountEntry) (flags : Flags) : List Bytes → Bool × Option MountError →
    K → (Bool × Option MountError) × K
  | [], seen, k => (seen, k)
  | operand :: operands, (anyOk, firstErr), k =>
    match (unmountOperand sys entries flags operand).run k with
    | (.ok (), k) => unmountOperands entries flags operands (true, firstErr) k
    | (.error e, k) => unmountOperands entries flags operands (anyOk, firstErr.or (some e)) k

/-- What is said of operands of which some may have succeeded. -/
def verdict : Bool × Option MountError → Except MountError Unit
  | (_, none) => .ok ()
  | (true, some e) => .error (.partialFailure ("some unmounts failed: ".toList ++ e.display sys.strerror))
  | (false, some e) => .error e

def run (flags : Flags) (ns : Option Bytes) (operands : List Bytes) : Umount K Unit := do
  if flags.recursive && flags.readOnly then
    throw (.usage "--recursive and --read-only are mutually exclusive".toList)
  if operands.isEmpty then throw (.usage "a target or source is required".toList)
  match ns with
  | some ns => if !flags.fake then ExceptT.mk (sys.enter ns)
  | none => pure ()
  match sys.mountinfo (← get) with
  | .error why => throw (.system ("mountinfo: ".toList ++ why))
  | .ok entries => ExceptT.mk fun k =>
    let (seen, k) := unmountOperands sys entries flags operands (false, none) k
    (verdict sys seen, k)

end Code

/-! ## The kernel's table of mounts -/

/-- The mount that another is mounted on. -/
def Parent (ms : List MountEntry) (c m : MountEntry) : Prop := m ∈ ms ∧ m ≠ c ∧ c.parentId = m.id

/-- No path leads to a mount where it, or one that it is below, has a sibling mounted higher up. -/
def Hidden (ms : List MountEntry) (m : MountEntry) : Prop :=
  ∃ a b, Relation.ReflTransGen (Parent ms) m a ∧ b ∈ ms ∧ b.parentId = a.parentId ∧ b.parentId ≠ b.id ∧
    under b.mountPoint a.mountPoint = true ∧ b.mountPoint ≠ a.mountPoint

/-- A mount that a path leads to: the last of those mounted at a point. -/
structure Reached (ms : List MountEntry) (p : Bytes) (m : MountEntry) : Prop where
  mem : m ∈ ms
  point : m.mountPoint = p
  visible : ¬ Hidden ms m
  top : ∀ c ∈ ms, Parent ms c m → c.mountPoint ≠ p

/-- The kernel: how it walks a path, the mounts that are in use, and what it says to a path that leads to no mount. -/
structure Kernel where
  lookup : List MountEntry → Bytes → Option MountEntry
  inUse : MountEntry → Bool
  refusal : List MountEntry → Bytes → OsError
  found : ∀ ms p m, lookup ms p = some m → Reached ms p m
  finds : ∀ ms p m, Reached ms p m → lookup ms p ≠ none

open Classical in
/-- `umount2`: a mount goes with all that is on it, or only where nothing is. -/
noncomputable def Kernel.umount2 (kernel : Kernel) (p : Bytes) (flags : BitVec 32) (ms : List MountEntry) :
    Except OsError Unit × List MountEntry :=
  match kernel.lookup ms p with
  | none => (.error (kernel.refusal ms p), ms)
  | some m =>
    if flags &&& MNT_DETACH ≠ 0 then (.ok (), ms.filter fun x => ¬ Relation.ReflTransGen (Parent ms) x m)
    else if (∃ c ∈ ms, Parent ms c m) ∨ kernel.inUse m then (.error ⟨some EBUSY, []⟩, ms)
    else (.ok (), ms.erase m)

/-- The system with a table of mounts for its state. -/
noncomputable def Kernel.sys (kernel : Kernel) (realpath : Bytes → Option Bytes) (strerror : OsError → Str) :
    Sys (List MountEntry) where
  umount2 := kernel.umount2
  setReadOnly _ ms := (.ok (), ms)
  detachVerified _ ms := ms
  enter _ ms := (.ok (), ms)
  mountinfo ms := .ok ms
  realpath _ := realpath
  strerror := strerror

structure WellFormed (ms : List MountEntry) : Prop where
  nodup : ms.Nodup
  named : ∀ m ∈ ms, 0 ∉ m.mountPoint
  below : ∀ c ∈ ms, ∀ m, Parent ms c m → under m.mountPoint c.mountPoint = true
  acyclic : ∃ rank : MountEntry → Nat, ∀ c ∈ ms, ∀ m, Parent ms c m → rank m < rank c

/-! ## Points -/

theorem under_iff {target p : Bytes} : under target p = true ↔ p = target ∨ slashed target <+: p := by
  rw [under, Bool.or_eq_true, beq_iff_eq, List.isPrefixOf_iff_prefix]

theorem under_self (p : Bytes) : under p p = true := under_iff.2 (.inl rfl)

theorem prefix_slashed (target : Bytes) : target <+: slashed target := by
  rw [slashed]
  split
  · exact List.prefix_refl _
  · exact List.prefix_append _ _

theorem under_trans {p q r : Bytes} (hq : under r q = true) (hp : under q p = true) : under r p = true := by
  rw [under_iff] at *
  rcases hp with rfl | hp
  · exact hq
  · rcases hq with rfl | hq
    · exact .inr hp
    · exact .inr ((hq.trans (prefix_slashed q)).trans hp)

/-- What is below a point has a longer path. -/
theorem length_lt_of_under {p q : Bytes} (h : under q p = true) (hne : q ≠ p) : q.length < p.length := by
  rcases under_iff.1 h with h | h
  · exact absurd h.symm hne
  · have hpre : q <+: p := (prefix_slashed q).trans h
    refine lt_of_le_of_ne hpre.length_le fun heq => hne ?_
    exact hpre.eq_of_length heq

/-! ## One mount -/

section Table

variable {ms ms₀ : List MountEntry} {m : MountEntry} {target p : Bytes} {rest : List Bytes}

theorem Parent.mono (hsub : ms ⊆ ms₀) {c : MountEntry} (h : Parent ms c m) : Parent ms₀ c m := ⟨hsub h.1, h.2⟩

/-- Taking mounts away hides none. -/
theorem Hidden.mono (hsub : ms ⊆ ms₀) (h : Hidden ms m) : Hidden ms₀ m := by
  obtain ⟨a, b, hchain, hb, h⟩ := h
  exact ⟨a, b, hchain.lift id fun x y hxy => hxy.mono hsub, hsub hb, h⟩

theorem WellFormed.mono (h : WellFormed ms₀) (hsub : ms ⊆ ms₀) (hnodup : ms.Nodup) : WellFormed ms := by
  obtain ⟨rank, hrank⟩ := h.acyclic
  exact ⟨hnodup, fun m hm => h.named m (hsub hm), fun c hc m hm => h.below c (hsub hc) m (hm.mono hsub),
    rank, fun c hc m hm => hrank c (hsub hc) m (hm.mono hsub)⟩

theorem mem_of_chain {x a : MountEntry} (hx : x ∈ ms) (hchain : Relation.ReflTransGen (Parent ms) x a) : a ∈ ms := by
  cases hchain with
  | refl => exact hx
  | tail _ hparent => exact hparent.1

/-- Along parents the points are above. -/
theorem WellFormed.chain_under (h : WellFormed ms) {x a : MountEntry} (hx : x ∈ ms)
    (hchain : Relation.ReflTransGen (Parent ms) x a) : under a.mountPoint x.mountPoint = true := by
  induction hchain with
  | refl => exact under_self _
  | tail hchain hparent ih => exact under_trans (h.below _ (mem_of_chain hx hchain) _ hparent) ih

/-- Where none of the mounts at a point is hidden, a path leads to the last of them. -/
theorem WellFormed.exists_reached (h : WellFormed ms) (hm : m ∈ ms)
    (hvisible : ∀ x ∈ ms, x.mountPoint = m.mountPoint → ¬ Hidden ms x) : ∃ x, Reached ms m.mountPoint x := by
  obtain ⟨rank, hrank⟩ := h.acyclic
  obtain ⟨x, hx, hmax⟩ := Finset.exists_max_image (ms.filter fun x => x.mountPoint = m.mountPoint).toFinset rank
    ⟨m, by simpa using hm⟩
  simp only [List.mem_toFinset, List.mem_filter, decide_eq_true_eq] at hx hmax
  refine ⟨x, hx.1, hx.2, hvisible x hx.1 hx.2, fun c hc hparent hpoint => ?_⟩
  have hle := hmax c ⟨hc, hpoint⟩
  have hlt := hrank c hc x hparent
  omega

/-- Of points that are left, longest first, the mount that the path leads to has nothing on it. -/
theorem Reached.leaf (h : Reached ms p m) (hwf : WellFormed ms) (hlongest : ∀ c ∈ ms, under p c.mountPoint = true →
    c.mountPoint.length ≤ p.length) {c : MountEntry} (hc : c ∈ ms) : ¬ Parent ms c m := by
  intro hparent
  have hunder : under p c.mountPoint = true := h.point ▸ hwf.below c hc m hparent
  by_cases hpoint : c.mountPoint = p
  · exact h.top c hc hparent hpoint
  · have := length_lt_of_under hunder fun heq => hpoint heq.symm
    have := hlongest c hc hunder
    omega

/-- Taking away a mount with nothing on it shows no mount that is not above it. -/
theorem Hidden.erase (h : Hidden ms m) (hwf : WellFormed ms) (hm : m ∈ ms) {x : MountEntry} (hx : x ≠ m)
    (hleaf : ∀ c ∈ ms, ¬ Parent ms c x) (hlength : m.mountPoint.length ≤ x.mountPoint.length) :
    Hidden (ms.erase x) m := by
  obtain ⟨a, b, hchain, hb, hsibling, hself, hunder, hne⟩ := h
  have habove := hwf.chain_under hm hchain
  have hbx : b ≠ x := by
    rintro rfl
    have hshort := length_lt_of_under hunder hne
    have hle : a.mountPoint.length ≤ m.mountPoint.length := by
      by_cases heq : a.mountPoint = m.mountPoint
      · rw [heq]
      · exact (length_lt_of_under habove heq).le
    omega
  refine ⟨a, b, ?_, (List.mem_erase_of_ne hbx).2 hb, hsibling, hself, hunder, hne⟩
  clear habove hsibling hself hunder hne
  induction hchain with
  | refl => exact .refl
  | tail hchain hparent ih =>
    refine ih.tail ⟨(List.mem_erase_of_ne ?_).2 hparent.1, hparent.2⟩
    rintro rfl
    exact hleaf _ (mem_of_chain hm hchain) hparent

/-- The kernel takes away a mount with nothing on it, and that one alone; with `MNT_DETACH` also if it is in use. -/
theorem Kernel.umount2_leaf (kernel : Kernel) (hnodup : ms.Nodup) (hlookup : kernel.lookup ms p = some m)
    (hleaf : ∀ c ∈ ms, ¬ Parent ms c m) (flags : BitVec 32) :
    kernel.umount2 p flags ms = if flags &&& MNT_DETACH ≠ 0 ∨ kernel.inUse m = false then (.ok (), ms.erase m)
      else (.error ⟨some EBUSY, []⟩, ms) := by
  rw [Kernel.umount2, hlookup]
  dsimp only
  by_cases hdetach : flags &&& MNT_DETACH ≠ 0
  · rw [if_pos hdetach, if_pos (.inl hdetach), hnodup.erase_eq_filter]
    refine congrArg (Prod.mk _) (List.filter_congr fun x hx => ?_)
    have hiff : Relation.ReflTransGen (Parent ms) x m ↔ x = m := by
      refine ⟨fun h => ?_, fun h => h ▸ .refl⟩
      rcases Relation.ReflTransGen.cases_tail h with h | ⟨c, hchain, hparent⟩
      · exact h.symm
      · exact absurd hparent (hleaf c (mem_of_chain hx hchain))
    rw [Bool.eq_iff_iff, bne_iff_ne]
    simp only [decide_eq_true_eq, hiff, ne_eq]
  · rw [if_neg hdetach]
    have hbusy : ((∃ c ∈ ms, Parent ms c m) ∨ kernel.inUse m = true) ↔
        ¬ (flags &&& MNT_DETACH ≠ 0 ∨ kernel.inUse m = false) := by
      rw [not_or, Bool.not_eq_false]
      refine ⟨?_, fun h => .inr h.2⟩
      rintro (⟨c, hc, hparent⟩ | huse)
      · exact absurd hparent (hleaf c hc)
      · exact ⟨hdetach, huse⟩
    by_cases huse : flags &&& MNT_DETACH ≠ 0 ∨ kernel.inUse m = false
    · rw [if_neg fun h => hbusy.1 h huse, if_pos huse]
    · rw [if_pos (hbusy.2 huse), if_neg huse]

/-! ## All mounts at a target and below it -/

/-- Between two calls of a run: what is left to call on is what is left of the mounts. -/
structure Unmounting (ms₀ : List MountEntry) (target : Bytes) (rest : List Bytes) (ms : List MountEntry) : Prop where
  nodup : ms.Nodup
  subset : ms ⊆ ms₀
  points : ((ms.filter fun m => under target m.mountPoint).map fun m => m.mountPoint).Perm rest
  outside : ms.filter (fun m => !under target m.mountPoint) = ms₀.filter fun m => !under target m.mountPoint

theorem Unmounting.start (h : WellFormed ms) (target : Bytes) : Unmounting ms target (recursiveOrder target ms) ms := by
  refine ⟨h.nodup, List.Subset.refl _, ?_, rfl⟩
  rw [recursiveOrder, List.filter_map]
  exact (List.mergeSort_perm _ _).symm

theorem Unmounting.mem (h : Unmounting ms₀ target rest ms) (hm : m ∈ ms) (hunder : under target m.mountPoint = true) :
    m.mountPoint ∈ rest := by
  refine h.points.subset (List.mem_map.2 ⟨m, ?_, rfl⟩)
  exact List.mem_filter.2 ⟨hm, hunder⟩

theorem Unmounting.exists_mem (h : Unmounting ms₀ target rest ms) (hp : p ∈ rest) :
    ∃ m ∈ ms, under target m.mountPoint = true ∧ m.mountPoint = p := by
  obtain ⟨m, hm, hpoint⟩ := List.mem_map.1 (h.points.symm.subset hp)
  rw [List.mem_filter] at hm
  exact ⟨m, hm.1, hm.2, hpoint⟩

theorem Unmounting.erase (h : Unmounting ms₀ target (p :: rest) ms) (hm : m ∈ ms) (hpoint : m.mountPoint = p) :
    Unmounting ms₀ target rest (ms.erase m) := by
  have hunder : under target m.mountPoint = true := by
    obtain ⟨x, -, hx, hxp⟩ := h.exists_mem List.mem_cons_self
    rw [hpoint, ← hxp, hx]
  refine ⟨h.nodup.erase m, fun y hy => h.subset (List.mem_of_mem_erase hy), ?_, ?_⟩
  · have hperm : (ms.filter fun m => under target m.mountPoint).Perm
        (m :: (ms.erase m).filter fun m => under target m.mountPoint) := by
      have := (List.perm_cons_erase hm).filter fun m => under target m.mountPoint
      rwa [List.filter_cons, if_pos hunder] at this
    have := (hperm.map fun m => m.mountPoint).symm.trans h.points
    rw [List.map_cons, hpoint] at this
    exact this.cons_inv
  · rw [← h.outside, h.nodup.erase_eq_filter, List.filter_filter]
    refine List.filter_congr fun x _ => ?_
    by_cases hx : x = m
    · rw [hx, hunder]
      rfl
    · rw [bne_iff_ne.2 hx, Bool.and_true]

/-- One call: it takes a mount away where a path leads to one that is not in use; otherwise it takes none. -/
theorem Unmounting.call (kernel : Kernel) (h : Unmounting ms₀ target (p :: rest) ms) (hwf : WellFormed ms₀)
    (hsorted : (p :: rest).Pairwise fun p q => q.length ≤ p.length) (flags : BitVec 32) :
    (∃ m, Reached ms p m ∧ (∀ c ∈ ms, ¬ Parent ms c m) ∧ (flags &&& MNT_DETACH ≠ 0 ∨ kernel.inUse m = false) ∧
      kernel.umount2 p flags ms = (.ok (), ms.erase m)) ∨
    (∃ e, kernel.umount2 p flags ms = (.error e, ms)) ∧
      ((∃ m ∈ ms, under target m.mountPoint = true ∧ Hidden ms m) ∨
        ∃ m ∈ ms, under target m.mountPoint = true ∧ flags &&& MNT_DETACH = 0 ∧ kernel.inUse m = true) := by
  have hwf' := hwf.mono h.subset h.nodup
  obtain ⟨x, hx, hxunder, hxp⟩ := h.exists_mem List.mem_cons_self
  cases hlookup : kernel.lookup ms p with
  | none =>
    refine .inr ⟨⟨kernel.refusal ms p, by rw [Kernel.umount2, hlookup]⟩, .inl ?_⟩
    by_contra hno
    obtain ⟨m, hreached⟩ := hwf'.exists_reached hx fun y hy hpoint hhidden =>
      hno ⟨y, hy, by rw [hpoint, hxunder], hhidden⟩
    exact kernel.finds ms p m (hxp ▸ hreached) hlookup
  | some m =>
    have hreached := kernel.found ms p m hlookup
    have hleaf : ∀ c ∈ ms, ¬ Parent ms c m := fun c hc => hreached.leaf hwf' (fun d hd hunder => ?_) hc
    · have hcall := kernel.umount2_leaf h.nodup hlookup hleaf flags
      split at hcall
      · rename_i huse
        exact .inl ⟨m, hreached, hleaf, huse, hcall⟩
      · rename_i huse
        rw [not_or, Bool.not_eq_false, not_not] at huse
        exact .inr ⟨⟨_, hcall⟩, .inr ⟨m, hreached.mem, by rw [hreached.point, ← hxp, hxunder], huse.1, huse.2⟩⟩
    · have hmem := h.mem hd (under_trans (by rw [← hxp, hxunder]) hunder)
      rcases List.mem_cons.1 hmem with heq | hmem
      · rw [heq]
      · exact List.rel_of_pairwise_cons hsorted hmem

theorem run_bind_ok {K α β : Type} {x : Umount K α} {k k' : K} {a : α} (h : x.run k = (.ok a, k'))
    (f : α → Umount K β) : (x >>= f).run k = (f a).run k' := by
  show ExceptT.bindCont f (x k).1 (x k).2 = _
  rw [show x k = (.ok a, k') from h]
  rfl

theorem run_bind_error {K α β : Type} {x : Umount K α} {k k' : K} {e : MountError} (h : x.run k = (.error e, k'))
    (f : α → Umount K β) : (x >>= f).run k = (.error e, k') := by
  show ExceptT.bindCont f (x k).1 (x k).2 = _
  rw [show x k = (.error e, k') from h]
  rfl

theorem cstr_of_not_mem (h : 0 ∉ p) : cstr p = .ok p := by
  rw [cstr, if_neg]
  rwa [List.contains_iff_mem]

theorem umountFlags_detach (flags : Flags) : umountFlags flags &&& MNT_DETACH ≠ 0 ↔ flags.isLazy = true := by
  rw [umountFlags]
  generalize flags.isLazy = isLazy, flags.force = force, flags.noCanonicalize = noCanonicalize
  revert isLazy force noCanonicalize
  decide

section Run

variable (kernel : Kernel) (realpath : Bytes → Option Bytes) (strerror : OsError → Str) {flags : Flags}
  (entries : List MountEntry)

theorem unmountOne_ok (hfake : flags.fake = false) (hname : 0 ∉ p) {ms' : List MountEntry}
    (h : kernel.umount2 p (umountFlags flags) ms = (.ok (), ms')) :
    (unmountOne (kernel.sys realpath strerror) entries flags p).run ms = (.ok (), ms') := by
  show (if flags.fake then _ else _ : Except MountError Unit × List MountEntry) = _
  rw [if_neg (by rw [hfake]; exact Bool.false_ne_true), cstr_of_not_mem hname]
  dsimp only [Kernel.sys]
  rw [h]
  dsimp only
  split
  · rfl
  · rfl

theorem unmountOne_error (hfake : flags.fake = false) (hgraceful : flags.graceful = false)
    (hro : flags.readOnly = false) (hname : 0 ∉ p) {e : OsError}
    (h : kernel.umount2 p (umountFlags flags) ms = (.error e, ms)) :
    (unmountOne (kernel.sys realpath strerror) entries flags p).run ms =
      (.error (MountError.fromSyscall "umount2" e), ms) := by
  show (if flags.fake then _ else _ : Except MountError Unit × List MountEntry) = _
  rw [if_neg (by rw [hfake]; exact Bool.false_ne_true), cstr_of_not_mem hname]
  dsimp only [Kernel.sys]
  rw [h, hro, hgraceful]
  rfl

/-- The calls of a run. -/
theorem unmountAll (hfake : flags.fake = false) (hgraceful : flags.graceful = false) (hro : flags.readOnly = false)
    (hwf : WellFormed ms₀) (h : Unmounting ms₀ target rest ms)
    (hsorted : rest.Pairwise fun p q => q.length ≤ p.length) :
    ∃ result rest' ms', (rest.forM (unmountOne (kernel.sys realpath strerror) entries flags)).run ms = (result, ms') ∧
      Unmounting ms₀ target rest' ms' ∧ (result = .ok () → rest' = []) ∧
      (result = .ok () ↔ ∀ m ∈ ms, under target m.mountPoint = true → ¬ Hidden ms m ∧
        (flags.isLazy = true ∨ kernel.inUse m = false)) := by
  induction rest generalizing ms with
  | nil =>
    refine ⟨.ok (), [], ms, rfl, h, fun _ => rfl, fun _ m hm hunder => ?_, fun _ => rfl⟩
    cases h.mem hm hunder
  | cons p rest ih =>
    obtain ⟨x, hx, hxunder, hxp⟩ := h.exists_mem List.mem_cons_self
    have hname : 0 ∉ p := hxp ▸ hwf.named x (h.subset hx)
    have hwf' := hwf.mono h.subset h.nodup
    have hforM : (p :: rest).forM (unmountOne (kernel.sys realpath strerror) entries flags) =
        (unmountOne (kernel.sys realpath strerror) entries flags p >>= fun _ =>
          rest.forM (unmountOne (kernel.sys realpath strerror) entries flags)) := rfl
    rcases h.call kernel hwf hsorted (umountFlags flags) with ⟨m, hreached, hleaf, huse, hcall⟩ | ⟨⟨e, hcall⟩, hwhy⟩
    · obtain ⟨result, rest', ms', hrun, hrest, hdone, hiff⟩ :=
        ih (h.erase hreached.mem hreached.point) (List.pairwise_cons.1 hsorted).2
      refine ⟨result, rest', ms', ?_, hrest, hdone, hiff.trans ⟨fun hall y hy hunder => ?_, fun hall y hy hunder => ?_⟩⟩
      · rw [hforM, run_bind_ok (unmountOne_ok kernel realpath strerror entries hfake hname hcall), hrun]
      · by_cases hym : y = m
        · rw [hym]
          exact ⟨hreached.visible, huse.imp_left (umountFlags_detach flags).1⟩
        · obtain ⟨hvisible, huse⟩ := hall y ((List.mem_erase_of_ne hym).2 hy) hunder
          refine ⟨fun hhidden => hvisible (hhidden.erase hwf' hy (Ne.symm hym) hleaf ?_), huse⟩
          rw [hreached.point]
          rcases List.mem_cons.1 (h.mem hy hunder) with heq | hmem
          · rw [heq]
          · exact List.rel_of_pairwise_cons hsorted hmem
      · obtain ⟨hvisible, huse⟩ := hall y (List.mem_of_mem_erase hy) hunder
        exact ⟨fun hhidden => hvisible (hhidden.mono fun z hz => List.mem_of_mem_erase hz), huse⟩
    · refine ⟨.error (MountError.fromSyscall "umount2" e), p :: rest, ms, ?_, h, fun hok => (by cases hok),
        fun hok => (by cases hok), fun hall => ?_⟩
      · rw [hforM, run_bind_error (unmountOne_error kernel realpath strerror entries hfake hgraceful hro hname hcall)]
      · rcases hwhy with ⟨m, hm, hunder, hhidden⟩ | ⟨m, hm, hunder, hdetach, huse⟩
        · exact absurd hhidden (hall m hm hunder).1
        · rcases (hall m hm hunder).2 with hlazy | hfree
          · exact absurd hdetach ((umountFlags_detach flags).2 hlazy)
          · rw [huse] at hfree
            cases hfree

theorem unmountOperand_eq (hrec : flags.recursive = true) {operand : Bytes}
    (hcanon : canonicalize (kernel.sys realpath strerror) ms operand flags.noCanonicalize = target)
    (htarget : ∃ m ∈ ms, m.mountPoint = target) :
    (unmountOperand (kernel.sys realpath strerror) ms flags operand).run ms =
      ((recursiveOrder target ms).forM (unmountOne (kernel.sys realpath strerror) ms flags)).run ms := by
  have hresolve : resolveTargets target operand ms flags = .ok [target] := by
    obtain ⟨m, hm, hpoint⟩ := htarget
    rw [resolveTargets, if_pos]
    rw [List.any_eq_true]
    exact ⟨m, hm, decide_eq_true hpoint⟩
  have hget : (get : Umount (List MountEntry) (List MountEntry)).run ms = (.ok ms, ms) := rfl
  have htargets : (ExceptT.mk (pure (resolveTargets target operand ms flags)) :
      Umount (List MountEntry) (List Bytes)).run ms = (.ok [target], ms) := by
    rw [hresolve]
    rfl
  rw [unmountOperand, run_bind_ok hget]
  dsimp only
  rw [hcanon, run_bind_ok htargets, hrec]
  exact congrArg (fun x => x ms) (bind_pure_unit (m := Umount (List MountEntry)))

/-- A run with `-R` at a mount point. -/
theorem run_eq (hrec : flags.recursive = true) (hro : flags.readOnly = false) {operand : Bytes}
    (hcanon : canonicalize (kernel.sys realpath strerror) ms operand flags.noCanonicalize = target)
    (htarget : ∃ m ∈ ms, m.mountPoint = target) :
    (run (kernel.sys realpath strerror) flags none [operand]).run ms =
      ((recursiveOrder target ms).forM (unmountOne (kernel.sys realpath strerror) ms flags)).run ms := by
  rw [run, hrec, hro]
  have hget : (get : Umount (List MountEntry) (List MountEntry)).run ms = (.ok ms, ms) := rfl
  show (get >>= _ : Umount (List MountEntry) Unit).run ms = _
  rw [run_bind_ok hget]
  show (verdict (kernel.sys realpath strerror)
      (unmountOperands (kernel.sys realpath strerror) ms flags [operand] (false, none) ms).1,
    (unmountOperands (kernel.sys realpath strerror) ms flags [operand] (false, none) ms).2) = _
  rw [unmountOperands, unmountOperand_eq kernel realpath strerror hrec hcanon htarget]
  generalize ((recursiveOrder target ms).forM (unmountOne (kernel.sys realpath strerror) ms flags)).run ms = r
  obtain ⟨result, ms'⟩ := r
  cases result with
  | ok u => rfl
  | error e => rfl

end Run

end Table

open Classical in
/-- A kernel in which nothing is in use. -/
noncomputable def someKernel : Kernel where
  lookup ms p := if h : ∃ m, Reached ms p m then some h.choose else none
  inUse _ := false
  refusal _ _ := ⟨some EINVAL, []⟩
  found ms p m h := by
    split at h
    · rename_i hex
      exact Option.some.inj h ▸ hex.choose_spec
    · cases h
  finds ms p m h := by
    rw [dif_pos ⟨m, h⟩]
    exact Option.some_ne_none _

/-- A mount at `/a`, and one on it at `/a/b`. -/
def twoMounts : List MountEntry :=
  [⟨1, 0, 0, 0, [47], [47, 97], [], [], [], [], []⟩, ⟨2, 1, 0, 0, [47], [47, 97, 47, 98], [], [], [], [], []⟩]

theorem twoMounts_wellFormed : WellFormed twoMounts where
  nodup := by decide
  named := by decide
  below := by
    rintro c hc m ⟨hm, hne, hid⟩
    simp only [twoMounts, List.mem_cons, List.not_mem_nil, or_false] at hc hm
    rcases hc with rfl | rfl <;> rcases hm with rfl | rfl <;> revert hne hid <;> decide
  acyclic := by
    refine ⟨fun m => m.mountPoint.length, ?_⟩
    rintro c hc m ⟨hm, hne, hid⟩
    simp only [twoMounts, List.mem_cons, List.not_mem_nil, or_false] at hc hm
    rcases hc with rfl | rfl <;> rcases hm with rfl | rfl <;> revert hne hid <;> decide

end Peiosutils.Mount
