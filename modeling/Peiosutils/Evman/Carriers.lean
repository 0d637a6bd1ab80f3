import Peiosutils.Evman.Catalogue

/-!
# The events that carry a field (`resolve`, `carried`, `carriers`)

`resolve` says what a path names: a defined field, a variant of one, or a standard attribute of a map. The lint asks
`carried` for the names on an event's lines and in the groups it includes; the manual asks `carriers` for the events of
a field. `carriers` looks into a group for the field itself only, so it misses an event that carries nothing but a
variant in a group; for every other event the two agree (`carriers_iff_carried_iff`).
-/

set_option autoImplicit false

namespace Peiosutils.Evman

open Peiosutils.Regman (Str PathBuf byteKey)
open Keyed (sortOn mem_sortOn)

/-! ## What a path names -/

/-- What a path names. -/
inductive Resolution where
  /-- A defined field. -/
  | field (field : Entry)
  /-- A defined field with a qualifier appended. -/
  | variant (field : Entry) (qualifier : Str)
  /-- A standard attribute of a map. -/
  | attr (thing attr : Str)
  deriving DecidableEq, Repr

/-- `str::strip_suffix`. -/
def stripSuffix (suffix s : Str) : Option Str :=
  if suffix.isSuffixOf s then some (s.take (s.length - suffix.length)) else none

/-- `str::rsplit_once`. -/
def rsplitOnce (sep : Char) : Str → Option (Str × Str)
  | [] => none
  | c :: s =>
    match rsplitOnce sep s with
    | some (before, after) => some (c :: before, after)
    | none => if c = sep then some ([], s) else none

namespace Catalogue

/-- The defined field that a path is a variant of by the qualifier. -/
def variantBy (cat : Catalogue) (path qualifier : Str) : Option Resolution :=
  ((stripSuffix qualifier path).bind cat.field).map fun field => .variant field qualifier

/-- Is the path defined? A field, a field with a qualifier appended, or a standard attribute of a map. -/
def resolve (cat : Catalogue) (path : Str) : Option Resolution :=
  match cat.field path with
  | some field => some (.field field)
  | none =>
    match qualifiers.findSome? (cat.variantBy path) with
    | some variant => some variant
    | none =>
      let (thing, attr) := (rsplitOnce '.' path).getD ([], path)
      if standardAttributes.contains attr && cat.isMap thing then some (.attr thing attr) else none

/-- A name that `resolve` reports as a variant of the field. -/
def IsVariantOf (cat : Catalogue) (name field : Str) : Prop :=
  ∃ e qualifier, cat.resolve name = some (.variant e qualifier) ∧ e.name = field

/-! ## What an event carries -/

/-- The names a line carries. -/
def carriedBy (cat : Catalogue) (line : FieldLine) : List Str :=
  match line.kind with
  | .include =>
    match cat.group line.name with
    | some g => g.record.includes.map Prod.fst
    | none => []
  | .field => [line.name]

/-- Every name a line of the event carries: its fields, and the members of the groups it includes. -/
def carried (cat : Catalogue) (event : Record) : List Str := event.lines.flatMap cat.carriedBy

/-- An event type that carries a field, and how. -/
structure Carrier where
  event : Entry
  presence : Str
  /-- The group it arrives through, if it is not listed directly. -/
  via : Option Str
  /-- The variant the event carries, if not the field itself. -/
  variant : Option Str
  deriving DecidableEq, Repr

/-- How a line of an event carries the field, if it does. -/
def carrierOn (cat : Catalogue) (field : Str) (event : Entry) (line : FieldLine) : Option Carrier :=
  match line.kind with
  | .field =>
    if line.name = field then some ⟨event, line.presence, none, none⟩
    else
      let isVariant := qualifiers.any fun q => stripSuffix q line.name = some field
      if isVariant && (cat.field line.name).isNone then some ⟨event, line.presence, none, some line.name⟩ else none
  | .include =>
    match cat.group line.name with
    | none => none
    | some g =>
      -- a member that is a variant of the field is not asked for here
      if g.record.includes.any fun (n, _) => n = field then some ⟨event, line.presence, some line.name, none⟩ else none

/-- The event types that carry the field, sorted by event type. -/
def carriers (cat : Catalogue) (field : Str) : List Carrier :=
  sortOn (fun c => byteKey (Utf8.encode c.event.name))
    (cat.definedEvents.flatMap fun event => event.record.lines.filterMap (cat.carrierOn field event))

/-! ## Variants -/

/-- No qualifier ends in another. -/
theorem eq_of_qualifier_suffix : ∀ q ∈ qualifiers, ∀ q' ∈ qualifiers, q <:+ q' → q = q' := by decide

theorem suffix_of_stripSuffix {q name base : Str} (h : stripSuffix q name = some base) : q <:+ name := by
  unfold stripSuffix at h
  split at h
  · rename_i hsuffix
    exact List.isSuffixOf_iff_suffix.1 hsuffix
  · cases h

/-- A name ends in one qualifier at most. -/
theorem qualifier_unique {q q' name base base' : Str} (hq : q ∈ qualifiers) (hq' : q' ∈ qualifiers)
    (h : stripSuffix q name = some base) (h' : stripSuffix q' name = some base') : q = q' := by
  rcases List.suffix_or_suffix_of_suffix (suffix_of_stripSuffix h) (suffix_of_stripSuffix h') with hs | hs
  · exact eq_of_qualifier_suffix q hq q' hq' hs
  · exact (eq_of_qualifier_suffix q' hq' q hq hs).symm

/-- A path is reported as a variant by the one qualifier it ends in, when it is no field itself. -/
theorem resolve_variant_iff {cat : Catalogue} {name q : Str} {e : Entry} :
    cat.resolve name = some (.variant e q) ↔
      cat.field name = none ∧ q ∈ qualifiers ∧ ∃ base, stripSuffix q name = some base ∧ cat.field base = some e := by
  have hby : ∀ q r, cat.variantBy name q = some r ↔
      ∃ base e, stripSuffix q name = some base ∧ cat.field base = some e ∧ r = .variant e q := by
    intro q r
    simp only [variantBy, Option.map_eq_some_iff, Option.bind_eq_some_iff]
    constructor
    · rintro ⟨e, ⟨base, hbase, he⟩, rfl⟩
      exact ⟨base, e, hbase, he, rfl⟩
    · rintro ⟨base, e, hbase, he, rfl⟩
      exact ⟨e, ⟨base, hbase, he⟩, rfl⟩
  unfold resolve
  cases hfield : cat.field name with
  | some field => simp
  | none =>
    cases hfind : qualifiers.findSome? (cat.variantBy name) with
    | none =>
      constructor
      · intro h
        simp only at h
        split at h <;> cases h
      · rintro ⟨-, hq, base, hbase, he⟩
        have := List.findSome?_eq_none_iff.1 hfind q hq
        rw [(hby q _).2 ⟨base, e, hbase, he, rfl⟩] at this
        cases this
    | some variant =>
      obtain ⟨q', hq', hv⟩ := List.exists_of_findSome?_eq_some hfind
      obtain ⟨base', e', hbase', he', rfl⟩ := (hby q' variant).1 hv
      simp only [Option.some.injEq, Resolution.variant.injEq, true_and]
      constructor
      · rintro ⟨rfl, rfl⟩
        exact ⟨hq', base', hbase', he'⟩
      · rintro ⟨hq, base, hbase, he⟩
        obtain rfl := qualifier_unique hq hq' hbase hbase'
        obtain rfl := Option.some.inj (hbase.symm.trans hbase')
        exact ⟨Option.some.inj (he'.symm.trans he), rfl⟩

variable {cat : Catalogue} {f : Str}

/-- For a defined field, the test of `carriers` on a field line is whether `resolve` reports a variant of it. -/
theorem isVariantOf_iff (hcat : cat.Sound) (hf : (cat.field f).isSome) (name : Str) :
    cat.IsVariantOf name f ↔ cat.field name = none ∧ ∃ q ∈ qualifiers, stripSuffix q name = some f := by
  constructor
  · rintro ⟨e, q, h, rfl⟩
    obtain ⟨hnone, hq, base, hbase, he⟩ := resolve_variant_iff.1 h
    exact ⟨hnone, q, hq, (hcat.get he).2 ▸ hbase⟩
  · rintro ⟨hnone, q, hq, hbase⟩
    obtain ⟨e, he⟩ := Option.isSome_iff_exists.1 hf
    exact ⟨e, q, resolve_variant_iff.2 ⟨hnone, hq, f, hbase, he⟩, (hcat.get he).2⟩

/-! ## The two traversals -/

/-- What a line must be for `carriers` to take it. -/
def Listed (cat : Catalogue) (f : Str) (line : FieldLine) : Prop :=
  match line.kind with
  | .field => line.name = f ∨ cat.IsVariantOf line.name f
  | .include => ∃ g, cat.group line.name = some g ∧ f ∈ g.record.includes.map Prod.fst

theorem carrierOn_iff (hcat : cat.Sound) (hf : (cat.field f).isSome) (event : Entry) (line : FieldLine) :
    (∃ c, cat.carrierOn f event line = some c) ↔ cat.Listed f line := by
  unfold carrierOn Listed
  cases line.kind with
  | field =>
    simp only [isVariantOf_iff hcat hf]
    by_cases hname : line.name = f
    · simp [hname]
    · simp [hname, and_comm]
  | «include» =>
    cases cat.group line.name with
    | none => simp
    | some g => simp [List.mem_map]

theorem event_of_carrierOn {event : Entry} {line : FieldLine} {c : Carrier}
    (h : cat.carrierOn f event line = some c) : c.event = event := by
  unfold carrierOn at h
  split at h
  · split at h
    · exact (Option.some.inj h) ▸ rfl
    · simp only at h
      split at h
      · exact (Option.some.inj h) ▸ rfl
      · cases h
  · split at h
    · cases h
    · split at h
      · exact (Option.some.inj h) ▸ rfl
      · cases h

/-- An event type is among the carriers when one of its lines is taken. -/
theorem carriers_iff (hcat : cat.Sound) (hf : (cat.field f).isSome) {e : Entry} (he : e ∈ cat.definedEvents) :
    (∃ c ∈ cat.carriers f, c.event = e) ↔ ∃ line ∈ e.record.lines, cat.Listed f line := by
  simp only [carriers, mem_sortOn, List.mem_flatMap, List.mem_filterMap]
  constructor
  · rintro ⟨c, ⟨event, -, line, hline, hc⟩, rfl⟩
    obtain rfl := event_of_carrierOn hc
    exact ⟨line, hline, (carrierOn_iff hcat hf _ line).1 ⟨c, hc⟩⟩
  · rintro ⟨line, hline, hlisted⟩
    obtain ⟨c, hc⟩ := (carrierOn_iff hcat hf e line).2 hlisted
    exact ⟨c, ⟨e, he, line, hline, hc⟩, event_of_carrierOn hc⟩

/-- What the event carries holds the field or a variant of it. -/
def CarriesFieldOrVariant (cat : Catalogue) (e : Entry) (f : Str) : Prop :=
  f ∈ cat.carried e.record ∨ ∃ name ∈ cat.carried e.record, cat.IsVariantOf name f

/-- A group that the line includes has a variant of the field among its members. -/
def IncludesVariant (cat : Catalogue) (f : Str) (line : FieldLine) : Prop :=
  line.kind = .include ∧ ∃ g, cat.group line.name = some g ∧ ∃ name ∈ g.record.includes.map Prod.fst,
    cat.IsVariantOf name f

/-- The event carries the field as a variant in a group, and in no other way. -/
def OnlyAsGroupVariant (cat : Catalogue) (e : Entry) (f : Str) : Prop :=
  (∃ line ∈ e.record.lines, cat.IncludesVariant f line) ∧ ∀ line ∈ e.record.lines, ¬ cat.Listed f line

/-- A line carries the field or a variant of it when it is taken or includes a variant. -/
theorem carriedBy_iff (line : FieldLine) :
    (f ∈ cat.carriedBy line ∨ ∃ name ∈ cat.carriedBy line, cat.IsVariantOf name f) ↔
      cat.Listed f line ∨ cat.IncludesVariant f line := by
  unfold carriedBy Listed IncludesVariant
  cases line.kind with
  | field => simp [eq_comm]
  | «include» =>
    cases cat.group line.name with
    | none => simp
    | some g => simp

theorem carriesFieldOrVariant_iff (e : Entry) :
    cat.CarriesFieldOrVariant e f ↔
      ∃ line ∈ e.record.lines, cat.Listed f line ∨ cat.IncludesVariant f line := by
  simp only [← carriedBy_iff, CarriesFieldOrVariant, carried, List.mem_flatMap]
  constructor
  · rintro (⟨line, hline, h⟩ | ⟨name, ⟨line, hline, hname⟩, h⟩)
    · exact ⟨line, hline, .inl h⟩
    · exact ⟨line, hline, .inr ⟨name, hname, h⟩⟩
  · rintro ⟨line, hline, h | ⟨name, hname, h⟩⟩
    · exact .inl ⟨line, hline, h⟩
    · exact .inr ⟨name, ⟨line, hline, hname⟩, h⟩

/-- The manual and the lint agree on an event type and a defined field, unless the event carries the field only as a
variant in a group. -/
theorem carriers_iff_carried_iff (parsed : List (PathBuf × List Record)) (f : Str)
    (hf : ((fromParsed parsed).field f).isSome) (e : Entry) (he : e ∈ (fromParsed parsed).definedEvents) :
    ((∃ c ∈ (fromParsed parsed).carriers f, c.event = e) ↔ (fromParsed parsed).CarriesFieldOrVariant e f) ↔
      ¬ (fromParsed parsed).OnlyAsGroupVariant e f := by
  rw [carriers_iff (sound_fromParsed parsed) hf he, carriesFieldOrVariant_iff]
  constructor
  · rintro h ⟨⟨line, hline, hvariant⟩, hnone⟩
    obtain ⟨line', hline', hlisted⟩ := h.2 ⟨line, hline, .inr hvariant⟩
    exact hnone line' hline' hlisted
  · intro h
    constructor
    · rintro ⟨line, hline, hlisted⟩
      exact ⟨line, hline, .inl hlisted⟩
    · rintro ⟨line, hline, hlisted | hvariant⟩
      · exact ⟨line, hline, hlisted⟩
      · by_contra hnone
        exact h ⟨⟨line, hline, hvariant⟩, fun line' hline' hlisted => hnone ⟨line', hline', hlisted⟩⟩

/-! ## A variant in a group -/

/-- A field, a group that has a variant of it, and an event that includes the group. -/
def groupVariant : List (PathBuf × List Record) :=
  [(Utf8.encode "/x/kacs.evman".toList, [
    ⟨.field, "policy.generation".toList, [], []⟩,
    ⟨.group, "policy".toList, [("policy.generation-previous".toList, 6)], []⟩,
    ⟨.event, "kacs.policy.loaded".toList, [], [⟨.include, "policy".toList, []⟩]⟩])]

/-- The event of `groupVariant`. -/
def policyLoaded : Entry :=
  ⟨"kacs".toList, Utf8.encode "/x/kacs.evman".toList,
    ⟨.event, "kacs.policy.loaded".toList, [], [⟨.include, "policy".toList, []⟩]⟩⟩

theorem carriers_iff_carried_iff_groupVariant :
    ((∃ c ∈ (fromParsed groupVariant).carriers "policy.generation".toList, c.event = policyLoaded) ↔
      (fromParsed groupVariant).CarriesFieldOrVariant policyLoaded "policy.generation".toList) ↔
      ¬ (fromParsed groupVariant).OnlyAsGroupVariant policyLoaded "policy.generation".toList :=
  carriers_iff_carried_iff groupVariant _ (by decide +kernel) _ (by decide +kernel)

/-- The manual lists no event for the field, though the event carries a variant of it. -/
theorem carriers_misses_groupVariant :
    (fromParsed groupVariant).carriers "policy.generation".toList = [] ∧
      policyLoaded ∈ (fromParsed groupVariant).definedEvents ∧
      ((fromParsed groupVariant).field "policy.generation".toList).isSome ∧
      (fromParsed groupVariant).CarriesFieldOrVariant policyLoaded "policy.generation".toList := by
  refine ⟨by decide +kernel, by decide +kernel, by decide +kernel, .inr ⟨"policy.generation-previous".toList, ?_, ?_⟩⟩
  · decide +kernel
  · exact ⟨⟨"kacs".toList, Utf8.encode "/x/kacs.evman".toList, ⟨.field, "policy.generation".toList, [], []⟩⟩,
      "-previous".toList, by decide +kernel, rfl⟩

end Catalogue

end Peiosutils.Evman
