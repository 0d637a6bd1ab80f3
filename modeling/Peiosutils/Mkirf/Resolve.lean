import Mathlib.Data.List.GetD
import Peiosutils.Mkirf.Hooks

/-!
# What `resolve` computes

`Before hooks` is the relation on hooks that the four keys declare. `resolve` succeeds exactly on the hooks that are
`Resolvable`, and the order it gives is the only one that is `Ordered`; neither depends on the order in which the hooks
were discovered (`resolve_spec`).
-/

set_option autoImplicit false

namespace Peiosutils.Mkirf

open Keyed Utf8 GreedyOrder

/-! ## The specification -/

/-- `p` supplies a capability that the other hook `c` requires or is after. -/
def Before (hooks : List Hook) (p c : Hook) : Prop :=
  p ∈ hooks ∧ c ∈ hooks ∧ p ≠ c ∧ ∃ cap ∈ p.supplies, cap ∈ c.consumes

structure Resolvable (hooks : List Hook) : Prop where
  /-- No capability is both provided and contributed. -/
  separate : ∀ h ∈ hooks, ∀ h' ∈ hooks, ∀ cap ∈ h.provides, cap ∉ h'.contributes
  /-- Something supplies every requirement. -/
  supplied : ∀ h ∈ hooks, ∀ req ∈ h.requires, ∃ s ∈ hooks, req ∈ s.supplies
  acyclic : Acyclic (Before hooks)

/-- A hook with ordering keys that could come next. -/
def CanRun (hooks placed : List Hook) (h : Hook) : Prop :=
  h ∈ hooks ∧ h.isConstrained ∧ h ∉ placed ∧ ∀ p, Before hooks p h → p ∈ placed

/-- The order of execution. -/
structure Ordered (hooks l : List Hook) : Prop where
  perm : l.Perm hooks
  supplierFirst : ∀ p c, Before hooks p c → Precedes l p c
  constrainedFirst : l.Pairwise fun a b => b.isConstrained → a.isConstrained
  unconstrainedSorted : l.Pairwise fun a b => ¬ a.isConstrained → ¬ b.isConstrained → a.nameBytes < b.nameBytes
  /-- The name that is next is the least of those that could be. -/
  leastName : ∀ pre v post, l = pre ++ v :: post → v.isConstrained → ∀ w, CanRun hooks pre w →
    v.nameBytes ≤ w.nameBytes

/-! ## The edges -/

theorem mem_suppliersOf {cs : List Hook} {cap : String} {p : Nat} :
    p ∈ suppliersOf cs cap ↔ ∃ h, cs[p]? = some h ∧ cap ∈ h.supplies := by
  simp only [suppliersOf, List.mem_flatMap, Prod.exists, List.mem_zipIdx_iff_getElem?, List.mem_map, List.mem_filter,
    beq_iff_eq]
  constructor
  · rintro ⟨h, i, hi, cap', ⟨hcap, rfl⟩, rfl⟩
    exact ⟨h, hi, hcap⟩
  · rintro ⟨h, hp, hcap⟩
    exact ⟨h, p, hp, cap, ⟨hcap, rfl⟩, rfl⟩

theorem joins_edgeSet {cs : List Hook} {p c : Nat} :
    Joins (edgeSet cs).toList p c ↔
      p ≠ c ∧ ∃ hp hc, cs[p]? = some hp ∧ cs[c]? = some hc ∧ ∃ cap ∈ hp.supplies, cap ∈ hc.consumes := by
  have hmem : Joins (edgeSet cs).toList p c ↔ (p, c) ∈ foundEdges cs := OrdSet.mem_ofList toLex.injective
  rw [hmem]
  simp only [foundEdges, List.mem_flatMap, Prod.exists, List.mem_zipIdx_iff_getElem?, List.mem_map, List.mem_filter,
    decide_eq_true_eq, mem_suppliersOf]
  constructor
  · rintro ⟨hc, i, hi, cap, hcap, q, ⟨⟨hp, hq, hsup⟩, hne⟩, e⟩
    obtain ⟨rfl, rfl⟩ := Prod.mk.inj e
    exact ⟨hne, hp, hc, hq, hi, cap, hsup, hcap⟩
  · rintro ⟨hne, hp, hc, hp', hc', cap, hsup, hcap⟩
    exact ⟨hc, c, hc', cap, hcap, p, ⟨⟨hp, hp', hsup⟩, hne⟩, rfl⟩

theorem edgeList_edgeSet (cs : List Hook) : EdgeList cs.length (edgeSet cs).toList where
  nodup := (edgeSet cs).nodup
  bound := by
    rintro ⟨p, c⟩ he
    obtain ⟨-, hp, hc, hp', hc', -⟩ := joins_edgeSet.1 he
    exact ⟨(List.getElem?_eq_some_iff.1 hp').1, (List.getElem?_eq_some_iff.1 hc').1⟩
  loopless := by
    rintro ⟨p, c⟩ he
    exact (joins_edgeSet.1 he).1

/-! ## `kahn_sort` on hooks -/

/-- The indices that the loop places. -/
def kahnOrder (cs : List Hook) : List Nat :=
  (kahnLoop (edgeSet cs).toList cs.length (kahnInit cs.length (edgeSet cs).toList)).order

/-- The hooks that the loop places. -/
def placedHooks (cs : List Hook) : List Hook := (kahnOrder cs).map fun i => cs.getD i default

section Kahn

variable {hooks cs : List Hook}

theorem kahnOrder_spec (cs : List Hook) :
    Greedy (List.range cs.length) (Joins (edgeSet cs).toList) (· ≤ ·) (kahnOrder cs) ∧
      (∀ i, ¬ Ready (List.range cs.length) (Joins (edgeSet cs).toList) (kahnOrder cs) i) ∧
      ((kahnOrder cs).length = cs.length ↔ ∀ i ∈ List.range cs.length, i ∈ kahnOrder cs) := by
  have he := edgeList_edgeSet cs
  have h := kahnLoop_spec he cs.length (kahnInit_spec he) (by simp [kahnInit])
  exact ⟨h.1.greedy, h.2, h.1.complete_iff⟩

theorem map_range_getD (cs : List Hook) : (List.range cs.length).map (fun i => cs.getD i default) = cs := by
  apply List.ext_getElem (by simp)
  intro i h₁ h₂
  simp [h₂]

theorem getD_injOn (hnd : cs.Nodup) :
    ∀ i ∈ List.range cs.length, ∀ j ∈ List.range cs.length, cs.getD i default = cs.getD j default → i = j := by
  intro i hi j hj h
  rw [List.mem_range] at hi hj
  rw [List.getD_eq_getElem _ _ hi, List.getD_eq_getElem _ _ hj] at h
  exact (hnd.getElem_inj_iff).1 h

/-- The edges between indices are `Before` between the hooks there. -/
theorem before_getD (hnd : cs.Nodup) (hsub : ∀ h ∈ cs, h ∈ hooks) :
    ∀ i ∈ List.range cs.length, ∀ j ∈ List.range cs.length,
      (Before hooks (cs.getD i default) (cs.getD j default) ↔ Joins (edgeSet cs).toList i j) := by
  intro i hi j hj
  have hne : cs.getD i default ≠ cs.getD j default ↔ i ≠ j :=
    not_congr ⟨getD_injOn hnd i hi j hj, fun e => e ▸ rfl⟩
  rw [List.mem_range] at hi hj
  rw [Before, joins_edgeSet, hne, List.getD_eq_getElem _ _ hi, List.getD_eq_getElem _ _ hj,
    List.getElem?_eq_getElem hi, List.getElem?_eq_getElem hj]
  simp [hsub]

/-- The loop places hooks by the least name, until none is ready. -/
theorem placedHooks_spec (hs : cs.Pairwise fun a b => a.nameBytes < b.nameBytes) (hsub : ∀ h ∈ cs, h ∈ hooks) :
    Greedy cs (Before hooks) (fun a b => a.nameBytes ≤ b.nameBytes) (placedHooks cs) ∧
      (∀ h, ¬ Ready cs (Before hooks) (placedHooks cs) h) ∧
      ((kahnOrder cs).length = cs.length ↔ ∀ h ∈ cs, h ∈ placedHooks cs) := by
  obtain ⟨hg, hstuck, hlen⟩ := kahnOrder_spec cs
  have hnd : cs.Nodup := hs.imp fun h e => absurd (congrArg Hook.nameBytes e) (ne_of_lt h)
  have hinj := getD_injOn hnd
  have hE := before_getD hnd hsub
  have hmono : ∀ i ∈ List.range cs.length, ∀ j ∈ List.range cs.length, i ≤ j →
      (cs.getD i default).nameBytes ≤ (cs.getD j default).nameBytes := by
    intro i hi j hj hij
    rw [List.mem_range] at hi hj
    rw [List.getD_eq_getElem _ _ hi, List.getD_eq_getElem _ _ hj]
    rcases Nat.eq_or_lt_of_le hij with rfl | hlt
    · exact le_refl _
    · exact (List.pairwise_iff_getElem.1 hs i j hi hj hlt).le
  have hmap := map_range_getD cs
  have hp : ∀ i ∈ kahnOrder cs, i ∈ List.range cs.length := fun i hi => hg.legal.mem_nodes hi
  have hgreedy : Greedy ((List.range cs.length).map fun i => cs.getD i default) (Before hooks)
      (fun a b => a.nameBytes ≤ b.nameBytes) (placedHooks cs) := hg.map hinj hE hmono
  have hready : ∀ i ∈ List.range cs.length, Ready cs (Before hooks) (placedHooks cs) (cs.getD i default) →
      Ready (List.range cs.length) (Joins (edgeSet cs).toList) (kahnOrder cs) i := by
    intro i hi hr
    have := Ready.map_iff hinj hE hp hi
    rw [hmap] at this
    exact this.1 hr
  rw [hmap] at hgreedy
  refine ⟨hgreedy, ?_, hlen.trans ⟨fun h => ?_, fun h => ?_⟩⟩
  · intro h hr
    have hm : h ∈ (List.range cs.length).map fun i => cs.getD i default := hmap.symm ▸ hr.1
    obtain ⟨i, hi, rfl⟩ := List.mem_map.1 hm
    exact hstuck i (hready i hi hr)
  · intro x hx
    rw [← hmap] at hx
    obtain ⟨i, hi, rfl⟩ := List.mem_map.1 hx
    exact List.mem_map_of_mem (h i hi)
  · intro i hi
    have hm : cs.getD i default ∈ cs := by
      rw [List.getD_eq_getElem _ _ (List.mem_range.1 hi)]
      exact List.getElem_mem _
    obtain ⟨j, hj, e⟩ := List.mem_map.1 (h _ hm)
    exact hinj j (hp j hj) i hi e ▸ hj

end Kahn

/-! ## Success -/

section Resolve

variable {hooks : List Hook}

theorem mem_provided {cap : String} : cap ∈ provided hooks ↔ ∃ h ∈ hooks, cap ∈ h.provides := by
  rw [provided, OrdSet.mem_ofList asBytes_injective, List.mem_flatMap]

theorem mem_contributed {cap : String} : cap ∈ contributed hooks ↔ ∃ h ∈ hooks, cap ∈ h.contributes := by
  rw [contributed, OrdSet.mem_ofList asBytes_injective, List.mem_flatMap]

theorem mem_constrainedOf {h : Hook} : h ∈ constrainedOf hooks ↔ h ∈ hooks ∧ h.isConstrained := by
  rw [constrainedOf, List.mem_filter, mem_sortOn]

theorem mem_unconstrainedOf {h : Hook} : h ∈ unconstrainedOf hooks ↔ h ∈ hooks ∧ ¬ h.isConstrained := by
  rw [unconstrainedOf, List.mem_filter, mem_sortOn, Bool.not_eq_true', Bool.not_eq_true]

theorem isConstrained_iff {h : Hook} : h.isConstrained ↔ h.supplies ≠ [] ∨ h.consumes ≠ [] := by
  simp [Hook.isConstrained, List.isSome_head?]

theorem isConstrained_of_supplies {h : Hook} {cap : String} (hc : cap ∈ h.supplies) : h.isConstrained :=
  isConstrained_iff.2 (Or.inl (List.ne_nil_of_mem hc))

theorem isConstrained_of_consumes {h : Hook} {cap : String} (hc : cap ∈ h.consumes) : h.isConstrained :=
  isConstrained_iff.2 (Or.inr (List.ne_nil_of_mem hc))

theorem Before.constrained {p c : Hook} (h : Before hooks p c) : p.isConstrained ∧ c.isConstrained := by
  obtain ⟨-, -, -, cap, hp, hc⟩ := h
  exact ⟨isConstrained_of_supplies hp, isConstrained_of_consumes hc⟩

/-- `Before` relates constrained hooks only. -/
theorem edge_constrainedOf : Edge (constrainedOf hooks) (Before hooks) = Before hooks := by
  funext p c
  apply propext
  simp only [Edge, mem_constrainedOf]
  exact ⟨fun h => h.2.2, fun h => ⟨⟨h.1, h.constrained.1⟩, ⟨h.2.1, h.constrained.2⟩, h⟩⟩

theorem ready_constrainedOf {placed : List Hook} {h : Hook} :
    Ready (constrainedOf hooks) (Before hooks) placed h ↔ CanRun hooks placed h := by
  unfold Ready CanRun
  rw [mem_constrainedOf, and_assoc]
  refine and_congr_right fun _ => and_congr_right fun _ => and_congr_right fun _ => ⟨fun hp p hb => ?_, ?_⟩
  · exact hp p (mem_constrainedOf.2 ⟨hb.1, hb.constrained.1⟩) hb
  · exact fun hp p _ hb => hp p hb

theorem mixedCapability_eq_none :
    mixedCapability hooks = none ↔ ∀ h ∈ hooks, ∀ h' ∈ hooks, ∀ cap ∈ h.provides, cap ∉ h'.contributes := by
  simp only [mixedCapability, List.find?_eq_none, decide_eq_true_eq, OrdSet.mem_toList, mem_provided, mem_contributed]
  constructor
  · exact fun hm h hh h' hh' cap hc hc' => hm cap ⟨h, hh, hc⟩ ⟨h', hh', hc'⟩
  · rintro hm cap ⟨h, hh, hc⟩ ⟨h', hh', hc'⟩
    exact hm h hh h' hh' cap hc hc'

theorem unsuppliedRequirement_eq_none :
    unsuppliedRequirement hooks (constrainedOf hooks) = none ↔
      ∀ h ∈ hooks, ∀ req ∈ h.requires, ∃ s ∈ hooks, req ∈ s.supplies := by
  have hsup : ∀ req, (∃ s ∈ hooks, req ∈ s.supplies) ↔ req ∈ provided hooks ∨ req ∈ contributed hooks := by
    intro req
    rw [mem_provided, mem_contributed]
    simp only [Hook.supplies, List.mem_append, and_or_left, exists_or]
  simp only [unsuppliedRequirement, List.findSome?_eq_none_iff, Option.map_eq_none_iff, List.find?_eq_none,
    decide_eq_true_eq, mem_constrainedOf, hsup]
  constructor
  · intro hu h hh req hr
    have hcon : h.isConstrained := isConstrained_of_consumes (List.mem_append_left _ hr)
    by_contra hne
    exact hu h ⟨hh, hcon⟩ req hr (not_or.1 hne)
  · intro hu h hh req hr hne
    exact not_or.2 hne (hu h hh.1 req hr)

theorem filterMap_kahnOrder (cs : List Hook) :
    ((kahnOrder cs).filterMap fun i => cs[i]?.map Hook.path) = (placedHooks cs).map Hook.path := by
  have hlt : ∀ i ∈ kahnOrder cs, i < cs.length :=
    fun i hi => List.mem_range.1 ((kahnOrder_spec cs).1.legal.mem_nodes hi)
  rw [placedHooks, List.map_map, ← List.filterMap_eq_map]
  refine List.filterMap_congr fun i hi => ?_
  rw [List.getElem?_eq_getElem (hlt i hi), Function.comp_apply, Function.comp_apply,
    List.getD_eq_getElem _ _ (hlt i hi)]
  rfl

/-- The hooks in the order of a successful `resolve`. -/
def executionOrder (hooks : List Hook) : List Hook := placedHooks (constrainedOf hooks) ++ unconstrainedOf hooks

theorem resolve_eq_ok {r : Resolved} (h : resolve hooks = .ok r) :
    mixedCapability hooks = none ∧ unsuppliedRequirement hooks (constrainedOf hooks) = none ∧
      (kahnOrder (constrainedOf hooks)).length = (constrainedOf hooks).length ∧
      r.order = (executionOrder hooks).map Hook.path := by
  unfold resolve at h
  dsimp only at h
  split at h
  · cases h
  · rename_i hm
    split at h
    · cases h
    · rename_i hu
      split at h
      · cases h
      · rename_i order hk
        unfold kahnSort at hk
        dsimp only at hk
        split at hk
        · cases hk
        · rename_i hlen
          cases hk
          cases h
          refine ⟨hm, hu, not_not.1 hlen, ?_⟩
          rw [executionOrder, List.map_append, ← filterMap_kahnOrder]
          rfl

theorem resolve_ok_of (hm : mixedCapability hooks = none)
    (hu : unsuppliedRequirement hooks (constrainedOf hooks) = none)
    (hlen : (kahnOrder (constrainedOf hooks)).length = (constrainedOf hooks).length) : ∃ r, resolve hooks = .ok r := by
  have hk : kahnSort (constrainedOf hooks) = .ok (kahnOrder (constrainedOf hooks)) := if_neg (not_not.2 hlen)
  unfold resolve
  dsimp only
  rw [hm, hu, hk]
  exact ⟨_, rfl⟩

variable (hnames : (hooks.map Hook.name).Nodup)
include hnames

theorem pairwise_sorted : (sortOn Hook.nameBytes hooks).Pairwise fun a b => a.nameBytes < b.nameBytes := by
  refine pairwise_lt_sortOn ?_
  have hmap : hooks.map Hook.nameBytes = (hooks.map Hook.name).map asBytes := by
    rw [List.map_map]
    rfl
  rw [hmap]
  exact hnames.map asBytes_injective

theorem pairwise_constrainedOf : (constrainedOf hooks).Pairwise fun a b => a.nameBytes < b.nameBytes :=
  (pairwise_sorted hnames).filter _

theorem placed_constrainedOf :
    Greedy (constrainedOf hooks) (Before hooks) (fun a b => a.nameBytes ≤ b.nameBytes)
        (placedHooks (constrainedOf hooks)) ∧
      (∀ h, ¬ CanRun hooks (placedHooks (constrainedOf hooks)) h) ∧
      ((kahnOrder (constrainedOf hooks)).length = (constrainedOf hooks).length ↔
        ∀ h ∈ constrainedOf hooks, h ∈ placedHooks (constrainedOf hooks)) := by
  obtain ⟨hg, hs, hlen⟩ := placedHooks_spec (pairwise_constrainedOf hnames) fun h hh => (mem_constrainedOf.1 hh).1
  exact ⟨hg, fun h hc => hs h (ready_constrainedOf.2 hc), hlen⟩

theorem length_kahnOrder_iff :
    (kahnOrder (constrainedOf hooks)).length = (constrainedOf hooks).length ↔ Acyclic (Before hooks) := by
  obtain ⟨hg, hs, hlen⟩ := placed_constrainedOf hnames
  rw [hlen, complete_iff_acyclic hg.legal fun h hr => hs h (ready_constrainedOf.1 hr), edge_constrainedOf]

theorem resolve_ok_iff : (∃ r, resolve hooks = .ok r) ↔ Resolvable hooks := by
  constructor
  · rintro ⟨r, hr⟩
    obtain ⟨hm, hu, hlen, -⟩ := resolve_eq_ok hr
    exact ⟨mixedCapability_eq_none.1 hm, unsuppliedRequirement_eq_none.1 hu, (length_kahnOrder_iff hnames).1 hlen⟩
  · intro h
    exact resolve_ok_of (mixedCapability_eq_none.2 h.separate) (unsuppliedRequirement_eq_none.2 h.supplied)
      ((length_kahnOrder_iff hnames).2 h.acyclic)

/-! ## The order -/

theorem executionOrder_perm (hac : Acyclic (Before hooks)) : (executionOrder hooks).Perm hooks := by
  obtain ⟨hg, -, hlen⟩ := placed_constrainedOf hnames
  have hall := hlen.1 ((length_kahnOrder_iff hnames).2 hac)
  have hnd : (constrainedOf hooks).Nodup :=
    (pairwise_constrainedOf hnames).imp fun h e => absurd (congrArg Hook.nameBytes e) (ne_of_lt h)
  have hplaced : (placedHooks (constrainedOf hooks)).Perm (constrainedOf hooks) :=
    (List.perm_ext_iff_of_nodup hg.legal.nodup hnd).2 fun h => ⟨hg.legal.mem_nodes, hall h⟩
  have hfilter : (constrainedOf hooks ++ unconstrainedOf hooks).Perm (sortOn Hook.nameBytes hooks) :=
    List.filter_append_perm Hook.isConstrained _
  exact ((hplaced.append_right _).trans hfilter).trans (perm_sortOn _ _)

theorem ordered_executionOrder (hac : Acyclic (Before hooks)) : Ordered hooks (executionOrder hooks) := by
  obtain ⟨hg, -, hlen⟩ := placed_constrainedOf hnames
  have hall := hlen.1 ((length_kahnOrder_iff hnames).2 hac)
  have hplaced : ∀ h ∈ placedHooks (constrainedOf hooks), h.isConstrained := fun h hh =>
    (mem_constrainedOf.1 (hg.legal.mem_nodes hh)).2
  have hrest : ∀ h ∈ unconstrainedOf hooks, ¬ h.isConstrained := fun h hh => (mem_unconstrainedOf.1 hh).2
  refine ⟨executionOrder_perm hnames hac, ?_, ?_, ?_, ?_⟩
  · intro p c hb
    have he : Edge (constrainedOf hooks) (Before hooks) p c := by rwa [edge_constrainedOf]
    obtain ⟨pre, post, e, hp⟩ := hg.legal.precedes he (hall c he.2.1)
    exact ⟨pre, post ++ unconstrainedOf hooks, by simp [executionOrder, e], hp⟩
  · refine List.pairwise_append.2 ⟨?_, ?_, ?_⟩
    · exact List.pairwise_of_forall_mem_list fun a ha b _ _ => hplaced a ha
    · exact List.pairwise_of_forall_mem_list fun a _ b hb hc => absurd hc (hrest b hb)
    · exact fun a ha b _ _ => hplaced a ha
  · refine List.pairwise_append.2 ⟨?_, ?_, ?_⟩
    · exact List.pairwise_of_forall_mem_list fun a ha b _ hc => absurd (hplaced a ha) hc
    · exact ((pairwise_sorted hnames).filter _).imp fun h _ _ => h
    · exact fun a ha b _ hc => absurd (hplaced a ha) hc
  · intro pre v post e hv w hw
    -- a constrained hook stands in the part that the loop placed
    obtain ⟨t, ht⟩ : ∃ t, placedHooks (constrainedOf hooks) = pre ++ v :: t := by
      rcases List.append_eq_append_iff.1 e with ⟨as, rfl, h⟩ | ⟨bs, h, h'⟩
      · exact absurd hv (hrest v (h ▸ by simp))
      · rcases List.cons_eq_append_iff.1 h' with ⟨rfl, h''⟩ | ⟨bs', rfl, -⟩
        · exact absurd hv (hrest v (h'' ▸ by simp))
        · exact ⟨bs', h⟩
    exact (hg pre v t ht).2 w (ready_constrainedOf.2 hw)

omit hnames in
/-- The constrained hooks come first in an order. -/
theorem Ordered.split {l : List Hook} (h : Ordered hooks l) :
    l = l.filter Hook.isConstrained ++ l.filter fun x => !x.isConstrained := by
  have hp := h.constrainedFirst
  clear h
  induction l with
  | nil => rfl
  | cons x l ih =>
    have ⟨hx, hl⟩ := List.pairwise_cons.1 hp
    by_cases hc : x.isConstrained
    · simpa [hc] using ih hl
    · have hnone : l.filter Hook.isConstrained = [] := List.filter_eq_nil_iff.2 fun y hy hyc => hc (hx y hy hyc)
      have hih := ih hl
      rw [hnone, List.nil_append] at hih
      simpa [hc, hnone] using hih

/-- The constrained hooks of an order were each the least that could run. -/
theorem Ordered.greedy {l : List Hook} (h : Ordered hooks l) :
    Greedy (constrainedOf hooks) (Before hooks) (fun a b => a.nameBytes ≤ b.nameBytes)
      (l.filter Hook.isConstrained) := by
  have hnd : l.Nodup := h.perm.nodup_iff.2 hnames.of_map
  intro pre v post e
  have hv : v ∈ l.filter Hook.isConstrained := e ▸ by simp
  have hl : l = pre ++ v :: (post ++ l.filter fun x => !x.isConstrained) := by
    conv_lhs => rw [h.split, e]
    simp
  refine ⟨ready_constrainedOf.2 ⟨h.perm.mem_iff.1 (List.mem_filter.1 hv).1, (List.mem_filter.1 hv).2, ?_, ?_⟩, ?_⟩
  · intro hm
    exact (List.nodup_append.1 (hl ▸ hnd)).2.2 v hm v List.mem_cons_self rfl
  · intro p hb
    obtain ⟨pre', post', e', hp⟩ := h.supplierFirst p v hb
    exact split_unique hnd e' hl ▸ hp
  · intro w hw
    exact h.leastName pre v _ hl (List.mem_filter.1 hv).2 w (ready_constrainedOf.1 hw)

/-- There is at most one order. -/
theorem Ordered.unique {l l' : List Hook} (h : Ordered hooks l) (h' : Ordered hooks l') : l = l' := by
  have hinj : ∀ a ∈ hooks, ∀ b ∈ hooks, a.nameBytes = b.nameBytes → a = b := fun a ha b hb e =>
    List.inj_on_of_nodup_map hnames ha hb (asBytes_injective e)
  have hstuck : ∀ l, Ordered hooks l → ∀ v, ¬ Ready (constrainedOf hooks) (Before hooks)
      (l.filter Hook.isConstrained) v := by
    intro l h v hv
    have hm := mem_constrainedOf.1 hv.1
    exact hv.2.1 (List.mem_filter.2 ⟨h.perm.mem_iff.2 hm.1, hm.2⟩)
  have hcon : l.filter Hook.isConstrained = l'.filter Hook.isConstrained := by
    refine (h.greedy hnames).unique ?_ (h'.greedy hnames) (hstuck l h) (hstuck l' h')
    intro a b ha hb hab hba
    exact hinj a (mem_constrainedOf.1 ha).1 b (mem_constrainedOf.1 hb).1 (le_antisymm hab hba)
  have hrest : (l.filter fun x => !x.isConstrained) = l'.filter fun x => !x.isConstrained := by
    have hsorted : ∀ l, Ordered hooks l →
        (l.filter fun x => !x.isConstrained).Pairwise fun a b => a.nameBytes < b.nameBytes := by
      intro l h
      refine (h.unconstrainedSorted.filter _).imp_of_mem fun ha hb hab => hab ?_ ?_
      · simpa using (List.mem_filter.1 ha).2
      · simpa using (List.mem_filter.1 hb).2
    refine List.Perm.eq_of_pairwise ?_ (hsorted l h) (hsorted l' h') ((h.perm.trans h'.perm.symm).filter _)
    exact fun _ _ _ _ hab hba => absurd hab hba.asymm
  rw [h.split, h'.split, hcon, hrest]

/-! ## Independence of the input order -/

theorem sortOn_names {hooks' : List Hook} (hp : hooks'.Perm hooks) :
    sortOn Hook.nameBytes hooks' = sortOn Hook.nameBytes hooks :=
  sortOn_eq_sortOn hp fun _ ha _ hb e =>
    List.inj_on_of_nodup_map hnames (hp.mem_iff.1 ha) (hp.mem_iff.1 hb) (asBytes_injective e)

omit hnames in
theorem namedHooks_perm {hooks' : List Hook} (hp : hooks'.Perm hooks) : namedHooks hooks' = namedHooks hooks := by
  funext pred
  unfold namedHooks
  rw [sortOn_eq_sortOn ((hp.filter pred).map Hook.name) fun _ _ _ _ e => asBytes_injective e]

/-- `resolve` gives the same order, or the same message, for every order of discovery. -/
theorem resolve_perm {hooks' : List Hook} (hp : hooks'.Perm hooks) : resolve hooks' = resolve hooks := by
  have hprov : provided hooks' = provided hooks := OrdSet.ext_mem fun cap => by simp only [mem_provided, hp.mem_iff]
  have hcont : contributed hooks' = contributed hooks :=
    OrdSet.ext_mem fun cap => by simp only [mem_contributed, hp.mem_iff]
  have hmixed : mixedCapability hooks' = mixedCapability hooks := by
    rw [mixedCapability, hprov, hcont]
    rfl
  have herror : mixedError hooks' = mixedError hooks := by
    unfold mixedError
    rw [namedHooks_perm hp]
  have hcon : constrainedOf hooks' = constrainedOf hooks := by rw [constrainedOf, sortOn_names hnames hp, constrainedOf]
  have huncon : unconstrainedOf hooks' = unconstrainedOf hooks := by
    rw [unconstrainedOf, sortOn_names hnames hp, unconstrainedOf]
  have hunsup : unsuppliedRequirement hooks' = unsuppliedRequirement hooks := by
    funext cs
    rw [unsuppliedRequirement, hprov, hcont]
    rfl
  unfold resolve
  rw [hmixed, herror, hcon, huncon, hunsup]

end Resolve

/-- `resolve` orders exactly the resolvable hooks, in the one order there is, whatever order they come in. -/
theorem resolve_spec {hooks : List Hook} (hnames : (hooks.map Hook.name).Nodup) :
    ((∃ r, resolve hooks = .ok r) ↔ Resolvable hooks) ∧
      (∀ r, resolve hooks = .ok r →
        ∃ l, Ordered hooks l ∧ (∀ l', Ordered hooks l' → l' = l) ∧ r.order = l.map Hook.path) ∧
      ∀ hooks', hooks'.Perm hooks → resolve hooks' = resolve hooks := by
  refine ⟨resolve_ok_iff hnames, ?_, fun hooks' hp => resolve_perm hnames hp⟩
  intro r hr
  have hord := ordered_executionOrder hnames ((resolve_ok_iff hnames).1 ⟨r, hr⟩).acyclic
  exact ⟨executionOrder hooks, hord, fun l' h' => h'.unique hnames hord, (resolve_eq_ok hr).2.2.2⟩

/-- A supplier found after its consumer, and a hook without keys. -/
def threeHooks : List Hook :=
  [⟨"a", "/hooks/a", [], [], ["x"], [], true⟩, ⟨"b", "/hooks/b", ["x"], [], [], [], true⟩,
    ⟨"c", "/hooks/c", [], [], [], [], false⟩]

theorem resolve_spec_small : (threeHooks.map Hook.name).Nodup ∧ Resolvable threeHooks := by
  have hok : ∃ r, resolve threeHooks = .ok r :=
    resolve_ok_of (by decide +kernel) (by decide +kernel) (by decide +kernel)
  exact ⟨by decide, (resolve_spec (by decide)).1.1 hok⟩

end Peiosutils.Mkirf

/-!
# The implicit edges after `initramfs-ready`

`apply_implicit_ordering` orders every hook with keys after the suppliers of `initramfs-ready`, except the suppliers
themselves. A supplier may wait for a hook that is not one, and the implicit edge then closes a cycle
(`lateSupplier_fails`). `implicit_ordering_iff` says exactly when it does not.
-/

namespace Peiosutils.Mkirf

open Keyed Utf8 GreedyOrder

/-- The hook is part of `initramfs-ready`. -/
def Hook.SuppliesReady (h : Hook) : Prop := initramfsReady ∈ h.supplies

/-- The hooks resolve with their implicit edges, and every other hook with keys runs after the suppliers. -/
def ImplicitlyOrders (hooks : List Hook) : Prop :=
  ∃ r l, resolve (applyImplicitOrdering hooks) = .ok r ∧ l.Perm hooks ∧ r.order = l.map Hook.path ∧
    ∀ s ∈ hooks, ∀ h ∈ hooks, s.SuppliesReady → h.isConstrained → ¬ h.SuppliesReady → Precedes l s h

/-- The suppliers of `initramfs-ready` wait for one another only. -/
def ReadyWaitsWithin (hooks : List Hook) : Prop :=
  ∀ s ∈ hooks, s.SuppliesReady → ∀ h ∈ hooks, ∀ cap ∈ s.consumes, cap ∈ h.supplies → h.SuppliesReady

/-! ## The hook with its edge -/

theorem any_beq_ready {caps : List String} : caps.any (· == initramfsReady) = true ↔ initramfsReady ∈ caps := by simp

section Hook

variable (h : Hook)

/-- Only `after` changes, and only by `initramfs-ready` at its end. -/
theorem implicitlyOrdered_eq :
    h.implicitlyOrdered = h ∨ (h.isConstrained ∧ ¬ h.SuppliesReady ∧
      h.implicitlyOrdered = { h with after := h.after ++ [initramfsReady] }) := by
  unfold Hook.implicitlyOrdered
  split
  · exact Or.inl rfl
  · rename_i hc
    split
    · exact Or.inl rfl
    · refine Or.inr ⟨?_, ?_, rfl⟩
      · by_contra hn
        simp [hn] at hc
      · intro hs
        exact hc (Bool.or_eq_true_iff.2 (Or.inr (any_beq_ready.2 hs)))

@[simp] theorem implicitlyOrdered_name : h.implicitlyOrdered.name = h.name := by
  rcases implicitlyOrdered_eq h with e | ⟨-, -, e⟩ <;> rw [e]

@[simp] theorem implicitlyOrdered_path : h.implicitlyOrdered.path = h.path := by
  rcases implicitlyOrdered_eq h with e | ⟨-, -, e⟩ <;> rw [e]

@[simp] theorem implicitlyOrdered_provides : h.implicitlyOrdered.provides = h.provides := by
  rcases implicitlyOrdered_eq h with e | ⟨-, -, e⟩ <;> rw [e]

@[simp] theorem implicitlyOrdered_contributes : h.implicitlyOrdered.contributes = h.contributes := by
  rcases implicitlyOrdered_eq h with e | ⟨-, -, e⟩ <;> rw [e]

@[simp] theorem implicitlyOrdered_requires : h.implicitlyOrdered.requires = h.requires := by
  rcases implicitlyOrdered_eq h with e | ⟨-, -, e⟩ <;> rw [e]

@[simp] theorem implicitlyOrdered_supplies : h.implicitlyOrdered.supplies = h.supplies := by simp [Hook.supplies]

/-- What a hook waits on with its edge: what it waited on, and `initramfs-ready` when it has keys and is no part of it. -/
theorem mem_implicitlyOrdered_consumes {cap : String} :
    cap ∈ h.implicitlyOrdered.consumes ↔
      cap ∈ h.consumes ∨ (cap = initramfsReady ∧ h.isConstrained ∧ ¬ h.SuppliesReady) := by
  constructor
  · intro hc
    rcases implicitlyOrdered_eq h with e | ⟨hcon, hs, e⟩
    · exact Or.inl (e ▸ hc)
    · rw [e, Hook.consumes, List.mem_append, List.mem_append, List.mem_singleton] at hc
      rcases hc with hc | hc | hc
      · exact Or.inl (List.mem_append_left _ hc)
      · exact Or.inl (List.mem_append_right _ hc)
      · exact Or.inr ⟨hc, hcon, hs⟩
  · rintro (hc | ⟨rfl, hcon, hs⟩)
    · rcases implicitlyOrdered_eq h with e | ⟨-, -, e⟩
      · rwa [e]
      · rw [e, Hook.consumes, ← List.append_assoc]
        exact List.mem_append_left _ hc
    · have hguard : ¬ (!h.isConstrained || h.supplies.any (· == initramfsReady)) = true := by
        rw [Bool.or_eq_true, any_beq_ready]
        simp only [hcon, Bool.not_true, Bool.false_eq_true, false_or]
        exact hs
      unfold Hook.implicitlyOrdered
      rw [if_neg hguard]
      split
      · rename_i hw
        exact any_beq_ready.1 hw
      · simp [Hook.consumes]

end Hook

/-! ## The edges -/

section Edges

variable {hooks : List Hook}

theorem map_name_applyImplicitOrdering : (applyImplicitOrdering hooks).map Hook.name = hooks.map Hook.name := by
  simp [applyImplicitOrdering]

variable (hnames : (hooks.map Hook.name).Nodup)
include hnames

theorem implicitlyOrdered_injOn :
    ∀ p ∈ hooks, ∀ c ∈ hooks, p.implicitlyOrdered = c.implicitlyOrdered → p = c := by
  intro p hp c hc e
  refine List.inj_on_of_nodup_map hnames hp hc ?_
  simpa using congrArg Hook.name e

/-- The edges between hooks are those there were, and from the suppliers to every other hook with keys. -/
theorem before_applyImplicitOrdering {p c : Hook} (hp : p ∈ hooks) (hc : c ∈ hooks) :
    Before (applyImplicitOrdering hooks) p.implicitlyOrdered c.implicitlyOrdered ↔
      Before hooks p c ∨ (p.SuppliesReady ∧ c.isConstrained ∧ ¬ c.SuppliesReady) := by
  have hmem : ∀ h ∈ hooks, h.implicitlyOrdered ∈ applyImplicitOrdering hooks := fun h hh => List.mem_map_of_mem hh
  have hne : p.implicitlyOrdered = c.implicitlyOrdered ↔ p = c :=
    ⟨implicitlyOrdered_injOn hnames p hp c hc, fun e => e ▸ rfl⟩
  simp only [Before, hmem p hp, hmem c hc, hp, hc, true_and, ne_eq, hne, implicitlyOrdered_supplies,
    mem_implicitlyOrdered_consumes]
  constructor
  · rintro ⟨hpc, cap, hs, hcap | ⟨rfl, hcon, hns⟩⟩
    · exact Or.inl ⟨hpc, cap, hs, hcap⟩
    · exact Or.inr ⟨hs, hcon, hns⟩
  · rintro (⟨hpc, cap, hs, hcap⟩ | ⟨hs, hcon, hns⟩)
    · exact ⟨hpc, cap, hs, Or.inl hcap⟩
    · exact ⟨fun e => hns (e ▸ hs), initramfsReady, hs, Or.inr ⟨rfl, hcon, hns⟩⟩

/-- The implicit edges close a cycle exactly when a supplier waits for a hook that is none. -/
theorem acyclic_applyImplicitOrdering (hac : Acyclic (Before hooks)) :
    Acyclic (Before (applyImplicitOrdering hooks)) ↔ ReadyWaitsWithin hooks := by
  constructor
  · intro h s hs hready x hx cap hcap hsup
    by_contra hns
    have hne : x ≠ s := fun e => hns (e ▸ hready)
    have hxs := (before_applyImplicitOrdering hnames hx hs).2 (Or.inl ⟨hx, hs, hne, cap, hsup, hcap⟩)
    have hsx := (before_applyImplicitOrdering hnames hs hx).2
      (Or.inr ⟨hready, isConstrained_of_supplies hsup, hns⟩)
    exact h _ ((Relation.TransGen.single hxs).tail hsx)
  · intro h
    refine acyclic_of_map (implicitlyOrdered_injOn hnames) ?_ ?_
    · rintro p' c' ⟨hp, hc, -⟩
      obtain ⟨p, hp', rfl⟩ := List.mem_map.1 hp
      obtain ⟨c, hc', rfl⟩ := List.mem_map.1 hc
      exact ⟨p, hp', c, hc', rfl, rfl⟩
    · refine hac.add_layer (S := Hook.SuppliesReady) ?_ ?_
      · rintro p c ⟨hp, hc, -, cap, hs, hcap⟩ hready
        exact h c hc hready p hp cap hcap hs
      · rintro p c ⟨hp, hc, hb⟩
        rcases (before_applyImplicitOrdering hnames hp hc).1 hb with hb | ⟨hs, -, hns⟩
        · exact Or.inl hb
        · exact Or.inr ⟨hs, hns⟩

end Edges

/-! ## When the implicit edges hold -/

/-- Requirements and supplies stay, so only a cycle can make `resolve` fail after it succeeded before. -/
theorem resolvable_applyImplicitOrdering {hooks : List Hook} (hnames : (hooks.map Hook.name).Nodup)
    (h : Resolvable hooks) : Resolvable (applyImplicitOrdering hooks) ↔ ReadyWaitsWithin hooks := by
  refine ⟨fun h' => (acyclic_applyImplicitOrdering hnames h.acyclic).1 h'.acyclic, fun hw => ⟨?_, ?_, ?_⟩⟩
  · simpa [applyImplicitOrdering] using h.separate
  · simpa [applyImplicitOrdering] using h.supplied
  · exact (acyclic_applyImplicitOrdering hnames h.acyclic).2 hw

/-- The implicit edges keep a resolvable list resolvable, and order it, exactly when no supplier of `initramfs-ready`
waits for a hook that is none. -/
theorem implicit_ordering_iff {hooks : List Hook} (hnames : (hooks.map Hook.name).Nodup)
    (hok : ∃ r, resolve hooks = .ok r) : ImplicitlyOrders hooks ↔ ReadyWaitsWithin hooks := by
  have hres := (resolve_ok_iff hnames).1 hok
  have hnames' : ((applyImplicitOrdering hooks).map Hook.name).Nodup := by rwa [map_name_applyImplicitOrdering]
  constructor
  · rintro ⟨r, -, hr, -⟩
    exact (resolvable_applyImplicitOrdering hnames hres).1 ((resolve_ok_iff hnames').1 ⟨r, hr⟩)
  · intro hw
    have hres' := (resolvable_applyImplicitOrdering hnames hres).2 hw
    obtain ⟨r, hr⟩ := (resolve_ok_iff hnames').2 hres'
    have hord := ordered_executionOrder hnames' hres'.acyclic
    -- the order of the changed hooks is that of the hooks themselves
    obtain ⟨l, hl, hperm⟩ : Relation.Comp (fun l' l => l' = l.map Hook.implicitlyOrdered) List.Perm
        (executionOrder (applyImplicitOrdering hooks)) hooks := by
      rw [List.eq_map_comp_perm]
      exact hord.perm
    refine ⟨r, l, hr, hperm, ?_, ?_⟩
    · rw [(resolve_eq_ok hr).2.2.2, hl, List.map_map]
      exact List.map_congr_left fun h _ => implicitlyOrdered_path h
    · intro s hs h hh hready hcon hns
      have hb := (before_applyImplicitOrdering hnames hs hh).2 (Or.inr ⟨hready, hcon, hns⟩)
      have hp := hord.supplierFirst _ _ hb
      rw [hl] at hp
      have hinj : ∀ a ∈ l, ∀ b ∈ l, a.implicitlyOrdered = b.implicitlyOrdered → a = b := fun a ha b hb =>
        implicitlyOrdered_injOn hnames a (hperm.mem_iff.1 ha) b (hperm.mem_iff.1 hb)
      exact hp.of_map hinj (hperm.mem_iff.2 hs) (hperm.mem_iff.2 hh)

/-- A supplier that waits for nothing, and a hook with keys that is none. -/
def earlySupplier : List Hook :=
  [⟨"a", "/hooks/a", [], ["initramfs-ready"], [], [], true⟩, ⟨"b", "/hooks/b", ["x"], [], [], [], true⟩]

theorem implicit_ordering_iff_small : (earlySupplier.map Hook.name).Nodup ∧ ImplicitlyOrders earlySupplier := by
  have hok : ∃ r, resolve earlySupplier = .ok r :=
    resolve_ok_of (by decide +kernel) (by decide +kernel) (by decide +kernel)
  refine ⟨by decide, (implicit_ordering_iff (by decide) hok).2 ?_⟩
  intro s hs hready h hh cap hcap
  simp only [earlySupplier, List.mem_cons, List.not_mem_nil, or_false] at hs
  rcases hs with rfl | rfl <;> simp [Hook.consumes] at hcap

/-- A supplier of `initramfs-ready` that requires what another hook provides. -/
def lateSupplier : List Hook :=
  [⟨"a", "/hooks/a", ["x"], [], [], [], true⟩, ⟨"b", "/hooks/b", [], ["initramfs-ready"], ["x"], [], true⟩]

/-- The two hooks resolve on their own, and not with the implicit edge. -/
theorem lateSupplier_fails :
    (lateSupplier.map Hook.name).Nodup ∧ resolve lateSupplier = .ok ⟨["/hooks/a", "/hooks/b"], []⟩ ∧
      resolve (applyImplicitOrdering lateSupplier) = .error "hook dependency cycle involving: a, b" := by
  decide +kernel

end Peiosutils.Mkirf
