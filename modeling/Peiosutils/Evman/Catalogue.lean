import Peiosutils.Regman.Corpus

/-!
# The catalogue of events (`catalogue.rs`)

The records of every fragment are gathered in reading order, and each kind has a table from a name to its first
definition. However records are gathered, every number of a table names an entry of the table's kind, and an entry that
is found by a name has that name (`sound_fromParsed`).
-/

set_option autoImplicit false

namespace Peiosutils.Evman

open Peiosutils.Regman (Str PathBuf fileStem fromUtf8)

/-! ## Records -/

inductive Kind where
  | field
  | group
  | event
  deriving DecidableEq, Repr

/-- Whether an event's line names a field or a group. -/
inductive LineKind where
  | field
  | include
  deriving DecidableEq, Repr

/-- A `field:` or `include:` line of an event record. -/
structure FieldLine where
  kind : LineKind
  name : Str
  presence : Str
  deriving DecidableEq, Repr

/-- A field, group or event record. -/
structure Record where
  kind : Kind
  name : Str
  /-- A group's `include:` lines: field path and line number. -/
  includes : List (Str × Nat)
  /-- An event's `field:` and `include:` lines. -/
  lines : List FieldLine
  deriving DecidableEq, Repr

/-- One record and the fragment it came from. -/
structure Entry where
  fragment : Str
  file : PathBuf
  record : Record
  deriving DecidableEq, Repr

def Entry.name (e : Entry) : Str := e.record.name

/-- The qualifiers that any defined field takes. -/
def qualifiers : List Str :=
  ["-previous".toList, "-requested".toList, "-expected".toList, "-effective".toList, "-limit".toList, "-count".toList]

/-- The attributes that any defined thing takes. -/
def standardAttributes : List Str :=
  ["count".toList, "limit".toList, "length".toList, "size".toList, "depth".toList, "capacity".toList, "fill".toList,
    "duration".toList, "timeout".toList, "attempts".toList, "offset".toList, "index".toList, "sequence".toList,
    "generation".toList, "digest".toList, "name".toList, "path".toList, "id".toList, "guid".toList, "sid".toList,
    "type".toList, "state".toList]

/-! ## Gathering -/

structure Catalogue where
  entries : List Entry := []
  /-- First definitions of each kind, in reading order. -/
  fields : List Nat := []
  groups : List Nat := []
  events : List Nat := []
  byName : List ((Kind × Str) × Nat) := []
  /-- A later definition, and the one it repeats. -/
  duplicates : List (Nat × Nat) := []
  /-- Every proper prefix of a defined field: the maps. -/
  maps : List Str := []
  deriving DecidableEq, Repr

/-- Fragment name for a fragment path. -/
def fragmentOf (path : PathBuf) : Str := ((fileStem path).bind fromUtf8).getD ['?']

namespace Catalogue

/-- A first definition enters the table of its kind. -/
def define (cat : Catalogue) (kind : Kind) (name : Str) (ix : Nat) : Catalogue :=
  let cat := { cat with byName := ((kind, name), ix) :: cat.byName }
  match kind with
  | .field => { cat with fields := cat.fields ++ [ix] }
  | .group => { cat with groups := cat.groups ++ [ix] }
  | .event => { cat with events := cat.events ++ [ix] }

def addRecord (file : PathBuf) (cat : Catalogue) (record : Record) : Catalogue :=
  let ix := cat.entries.length
  let cat :=
    match cat.byName.lookup (record.kind, record.name) with
    | some first => { cat with duplicates := cat.duplicates ++ [(ix, first)] }
    | none => cat.define record.kind record.name ix
  { cat with entries := cat.entries ++ [⟨fragmentOf file, file, record⟩] }

def addFile (cat : Catalogue) (parsed : PathBuf × List Record) : Catalogue :=
  parsed.2.foldl (addRecord parsed.1) cat

/-- The prefixes that the parts of a name make, behind what `pre` holds. -/
def prefixesFrom : (pre : Str) → (parts : List Str) → List Str
  | _, [] => []
  | pre, part :: parts =>
    let pre := (if pre = [] then [] else pre ++ ['.']) ++ part
    pre :: prefixesFrom pre parts

/-- The proper prefixes of a dotted name. -/
def prefixes (name : Str) : List Str := prefixesFrom [] (name.splitOn '.').dropLast

/-- The entries of the numbers. -/
def entriesAt (cat : Catalogue) (ixs : List Nat) : List Entry := ixs.filterMap (cat.entries[·]?)

/-- Gather parsed records: each file with its records, in reading order. -/
def fromParsed (parsed : List (PathBuf × List Record)) : Catalogue :=
  let cat := parsed.foldl addFile {}
  { cat with maps := (cat.entriesAt cat.fields).flatMap fun e => prefixes e.name }

/-! ## Looking up -/

def definedFields (cat : Catalogue) : List Entry := cat.entriesAt cat.fields

def definedEvents (cat : Catalogue) : List Entry := cat.entriesAt cat.events

def get (cat : Catalogue) (kind : Kind) (name : Str) : Option Entry :=
  (cat.byName.lookup (kind, name)).bind (cat.entries[·]?)

def field (cat : Catalogue) (name : Str) : Option Entry := cat.get .field name

def group (cat : Catalogue) (name : Str) : Option Entry := cat.get .group name

def isMap (cat : Catalogue) (path : Str) : Bool := cat.maps.contains path

/-! ## Every number names its entry -/

/-- The tables hold numbers of entries of their kind and name. -/
structure Sound (cat : Catalogue) : Prop where
  byName : ∀ key ix, cat.byName.lookup key = some ix →
    ∃ e, cat.entries[ix]? = some e ∧ (e.record.kind, e.record.name) = key
  fields : ∀ ix ∈ cat.fields, ∃ e, cat.entries[ix]? = some e ∧ e.record.kind = .field
  groups : ∀ ix ∈ cat.groups, ∃ e, cat.entries[ix]? = some e ∧ e.record.kind = .group
  events : ∀ ix ∈ cat.events, ∃ e, cat.entries[ix]? = some e ∧ e.record.kind = .event

theorem sound_empty : Sound {} where
  byName := by simp
  fields := by simp
  groups := by simp
  events := by simp

/-- An entry behind the others leaves the tables as they are. -/
theorem Sound.append {cat : Catalogue} (h : cat.Sound) (e : Entry) :
    Sound { cat with entries := cat.entries ++ [e] } where
  byName key ix hix := by
    obtain ⟨e', he', hk⟩ := h.byName key ix hix
    exact ⟨e', List.getElem?_append_left (List.getElem?_eq_some_iff.1 he').1 ▸ he', hk⟩
  fields ix hix := by
    obtain ⟨e', he', hk⟩ := h.fields ix hix
    exact ⟨e', List.getElem?_append_left (List.getElem?_eq_some_iff.1 he').1 ▸ he', hk⟩
  groups ix hix := by
    obtain ⟨e', he', hk⟩ := h.groups ix hix
    exact ⟨e', List.getElem?_append_left (List.getElem?_eq_some_iff.1 he').1 ▸ he', hk⟩
  events ix hix := by
    obtain ⟨e', he', hk⟩ := h.events ix hix
    exact ⟨e', List.getElem?_append_left (List.getElem?_eq_some_iff.1 he').1 ▸ he', hk⟩

/-- A definition of an entry that is there. -/
theorem Sound.define {cat : Catalogue} (h : cat.Sound) {e : Entry} {ix : Nat} (he : cat.entries[ix]? = some e)
    {kind : Kind} (hkind : e.record.kind = kind) : (cat.define kind e.record.name ix).Sound := by
  have hname : ∀ key i, List.lookup key (((kind, e.record.name), ix) :: cat.byName) = some i →
      ∃ e', cat.entries[i]? = some e' ∧ (e'.record.kind, e'.record.name) = key := by
    intro key i hi
    rw [List.lookup_cons] at hi
    split at hi
    · rename_i hkey
      cases hi
      exact ⟨e, he, hkind ▸ (beq_iff_eq.1 hkey).symm⟩
    · exact h.byName key i hi
  -- the table of the entry's kind takes the number
  have htable : ∀ {ixs : List Nat}, (∀ i ∈ ixs, ∃ e', cat.entries[i]? = some e' ∧ e'.record.kind = kind) →
      ∀ i ∈ ixs ++ [ix], ∃ e', cat.entries[i]? = some e' ∧ e'.record.kind = kind := by
    intro ixs hixs i hi
    rcases List.mem_append.1 hi with hi | hi
    · exact hixs i hi
    · exact ⟨e, List.mem_singleton.1 hi ▸ he, hkind⟩
  cases kind with
  | field => exact ⟨hname, htable h.fields, h.groups, h.events⟩
  | group => exact ⟨hname, h.fields, htable h.groups, h.events⟩
  | event => exact ⟨hname, h.fields, h.groups, htable h.events⟩

/-- A record is added behind the others, and is defined there or a duplicate. -/
theorem Sound.addRecord {cat : Catalogue} (h : cat.Sound) (file : PathBuf) (record : Record) :
    (cat.addRecord file record).Sound := by
  have happend := h.append ⟨fragmentOf file, file, record⟩
  unfold Catalogue.addRecord
  cases hl : cat.byName.lookup (record.kind, record.name) with
  | some first => exact ⟨happend.byName, happend.fields, happend.groups, happend.events⟩
  | none =>
    have hlast : (cat.entries ++ [(⟨fragmentOf file, file, record⟩ : Entry)])[cat.entries.length]? =
        some ⟨fragmentOf file, file, record⟩ := by simp
    have hdefine := happend.define hlast rfl
    unfold Catalogue.define at hdefine ⊢
    cases hk : record.kind with
    | field => simpa only [hk] using hdefine
    | group => simpa only [hk] using hdefine
    | event => simpa only [hk] using hdefine

theorem Sound.addFile {cat : Catalogue} (h : cat.Sound) (parsed : PathBuf × List Record) :
    (cat.addFile parsed).Sound := by
  obtain ⟨file, records⟩ := parsed
  unfold Catalogue.addFile
  induction records generalizing cat with
  | nil => exact h
  | cons record records ih => exact ih (h.addRecord file record)

/-- However records are gathered, the tables hold numbers of their entries. -/
theorem sound_fromParsed (parsed : List (PathBuf × List Record)) : (fromParsed parsed).Sound := by
  have hrun : ∀ cat : Catalogue, cat.Sound → (parsed.foldl Catalogue.addFile cat).Sound := by
    induction parsed with
    | nil => exact fun cat h => h
    | cons file parsed ih => exact fun cat h => ih _ (h.addFile file)
  obtain ⟨hname, hfields, hgroups, hevents⟩ := hrun {} sound_empty
  exact ⟨hname, hfields, hgroups, hevents⟩

/-- What is found by a name has it. -/
theorem Sound.get {cat : Catalogue} (h : cat.Sound) {kind : Kind} {name : Str} {e : Entry}
    (he : cat.get kind name = some e) : e.record.kind = kind ∧ e.name = name := by
  obtain ⟨ix, hix, he⟩ := Option.bind_eq_some_iff.1 he
  obtain ⟨e', he', hkey⟩ := h.byName _ _ hix
  obtain rfl : e = e' := Option.some.inj (he.symm.trans he')
  exact Prod.mk.inj hkey

end Catalogue

end Peiosutils.Evman
