import Mathlib.Data.List.GetD
import Mathlib.Data.List.Nodup
import Peiosutils.Stratafs.Model
import Peiosutils.Stratafs.Reading

/-!
# Strata, written and read

Strata are written as one superblock option among others, with their paths escaped, and the options as a field of the table
of mounts, with bytes in octal. Reading the table gives the strata back, and malformed options are rejected
(`strata_round_trip`).
-/

set_option autoImplicit false

namespace Peiosutils.Stratafs

open Escaped (pieces Closed Dangles protectedBy plain escapeBy)
open Mount.Mountinfo (fieldList fieldsOf render renderLine separator WellFormed)

/-! ## Writing -/

inductive Flag where
  | create
  | ro
  | am
  deriving DecidableEq, Repr

def Flag.name : Flag → Bytes
  | .create => createFlag
  | .ro => roFlag
  | .am => amFlag

/-- An absolute path, and flags in any order. -/
structure Row where
  path : Bytes
  flags : List Flag
  absolute : path.head? = some 47
  once : flags.Nodup

def Row.stratum (row : Row) : Stratum where
  path := row.path
  create := row.flags.contains .create
  readOnly := row.flags.contains .ro
  allowMissing := row.flags.contains .am

def Row.element (row : Row) : Bytes := [43].intercalate (escapeBy 92 isProtected row.path :: row.flags.map Flag.name)

/-- An option without commas or backslashes that does not name strata. -/
def Other (option : Bytes) : Prop := option ≠ [] ∧ 92 ∉ option ∧ 44 ∉ option ∧ strataKey.isPrefixOf option = false

/-- One option with strata among others. -/
structure Options where
  before : List Bytes
  rows : List Row
  after : List Bytes
  nonempty : rows ≠ []
  others : ∀ option ∈ before ++ after, Other option

def Options.value (o : Options) : Bytes := [58].intercalate (o.rows.map Row.element)

def Options.list (o : Options) : List Bytes := o.before ++ [strataKey ++ o.value] ++ o.after

def Options.text (o : Options) : Bytes := [44].intercalate o.list

/-! ## Reading what was written -/

theorem Flag.name_mem (f : Flag) : f.name ∈ flagNames := by cases f <;> simp [Flag.name, flagNames]

theorem Flag.name_injective : Function.Injective Flag.name := by
  intro f g h
  cases f <;> cases g <;> first | rfl | exact absurd h (by decide)

theorem Flag.name_plain (f : Flag) : f.name ≠ [] ∧ ∀ b ∈ f.name, isProtected b = false := by
  cases f <;> simp [Flag.name, createFlag, roFlag, amFlag, isProtected]

/-- Nothing in a flag needs an escape. -/
theorem Flag.closed_name {sep : UInt8} (hsep : isProtected sep = true) (f : Flag) : Closed 92 sep f.name :=
  Escaped.closed_of_plain fun b hb => by
    have hplain := f.name_plain.2 b hb
    constructor
    · rintro rfl
      cases hplain
    · rintro rfl
      rw [hplain] at hsep
      cases hsep

variable {sep : UInt8}

theorem Row.closed_parts (row : Row) (hsep : isProtected sep = true) :
    ∀ t ∈ escapeBy 92 isProtected row.path :: row.flags.map Flag.name, Closed 92 sep t :=
  List.forall_mem_cons.2 ⟨Escaped.closed_escapeBy rfl hsep _, List.forall_mem_map.2 fun f _ => f.closed_name hsep⟩

theorem Row.closed_element (row : Row) (hsep : isProtected sep = true) (hplus : 43 ≠ sep) : Closed 92 sep row.element :=
  Escaped.closed_intercalate (by decide) hplus (row.closed_parts hsep)

theorem Row.path_ne_nil (row : Row) : row.path ≠ [] := by
  intro h
  have habsolute := row.absolute
  rw [h] at habsolute
  cases habsolute

theorem Row.splits_element (row : Row) :
    Splits 43 row.element (escapeBy 92 isProtected row.path :: row.flags.map Flag.name) := by
  refine ⟨?_, ?_, ?_⟩
  · exact (Escaped.pieces_intercalate (by decide) (row.closed_parts rfl) (List.cons_ne_nil _ _)).symm
  · intro h
    rcases List.mem_cons.1 h with h | h
    · exact row.path_ne_nil (Escaped.escapeBy_eq_nil.1 h.symm)
    · obtain ⟨f, -, hf⟩ := List.mem_map.1 h
      exact f.name_plain.1 hf
  · exact Escaped.not_dangles_of_closed (@Row.closed_element 58 row rfl (by decide))

theorem Row.readsStratum (row : Row) : ReadsStratum row.element row.stratum := by
  refine ⟨_, _, row.splits_element, ⟨?_, ?_, ?_⟩, row.absolute, ?_, ?_, ?_⟩
  · exact (Escaped.plain_escapeBy rfl row.path).symm
  · intro b hb
    rw [Escaped.protectedBy_escapeBy rfl] at hb
    exact (List.mem_filter.1 hb).2
  · exact Escaped.not_dangles_of_closed (@Escaped.closed_escapeBy _ _ 92 58 isProtected rfl rfl row.path)
  · exact List.forall_mem_map.2 fun f _ => f.name_mem
  · exact List.Nodup.map Flag.name_injective row.once
  · have hcontains : ∀ f : Flag, (row.flags.map Flag.name).contains f.name = row.flags.contains f := by
      intro f
      rw [Bool.eq_iff_iff, List.contains_iff_mem, List.contains_iff_mem, List.mem_map_of_injective Flag.name_injective]
    have hcreate : (row.flags.map Flag.name).contains createFlag = row.flags.contains .create := hcontains .create
    have hro : (row.flags.map Flag.name).contains roFlag = row.flags.contains .ro := hcontains .ro
    have ham : (row.flags.map Flag.name).contains amFlag = row.flags.contains .am := hcontains .am
    simp only [Row.stratum, Stratum.set, Bool.false_or, hcreate, hro, ham]

theorem Row.element_ne_nil (row : Row) : row.element ≠ [] := by
  intro h
  have hparts := row.splits_element.1
  rw [h] at hparts
  exact row.path_ne_nil (Escaped.escapeBy_eq_nil.1 (List.cons.inj hparts).1)

theorem Options.closed_value (o : Options) : Closed 92 44 o.value :=
  Escaped.closed_intercalate (by decide) (by decide)
    (List.forall_mem_map.2 fun row _ => row.closed_element rfl (by decide))

theorem Options.splits_value (o : Options) : Splits 58 o.value (o.rows.map Row.element) := by
  have hclosed : ∀ t ∈ o.rows.map Row.element, Closed 92 58 t :=
    List.forall_mem_map.2 fun row _ => row.closed_element rfl (by decide)
  refine ⟨(Escaped.pieces_intercalate (by decide) hclosed (by simpa using o.nonempty)).symm, ?_, ?_⟩
  · intro h
    obtain ⟨row, -, hrow⟩ := List.mem_map.1 h
    exact row.element_ne_nil hrow
  · exact Escaped.not_dangles_of_closed o.closed_value

theorem Options.closed_list (o : Options) : ∀ t ∈ o.list, Closed 92 44 t := by
  intro t ht
  have hother : ∀ t, Other t → Closed 92 44 t := fun t ht =>
    Escaped.closed_of_plain fun b hb => ⟨fun h => ht.2.1 (h ▸ hb), fun h => ht.2.2.1 (h ▸ hb)⟩
  rw [Options.list, List.mem_append, List.mem_append, List.mem_singleton] at ht
  rcases ht with (ht | rfl) | ht
  · exact hother t (o.others t (List.mem_append_left _ ht))
  · exact Closed.append (Escaped.closed_of_plain (by simp [strataKey])) o.closed_value
  · exact hother t (o.others t (List.mem_append_right _ ht))

theorem Options.splits_text (o : Options) : Splits 44 o.text o.list := by
  refine ⟨(Escaped.pieces_intercalate (by decide) o.closed_list (by simp [Options.list])).symm, ?_, ?_⟩
  · intro h
    rw [Options.list, List.mem_append, List.mem_append, List.mem_singleton] at h
    rcases h with (h | h) | h
    · exact (o.others _ (List.mem_append_left _ h)).1 rfl
    · exact absurd h.symm (by simp [strataKey])
    · exact (o.others _ (List.mem_append_right _ h)).1 rfl
  · exact Escaped.not_dangles_intercalate (by decide) fun t ht => Escaped.not_dangles_of_closed (o.closed_list t ht)

theorem Options.strataOptions_list (o : Options) : strataOptions o.list = [strataKey ++ o.value] := by
  have hother : ∀ options, (∀ option ∈ options, Other option) → strataOptions options = [] := fun options h =>
    List.filter_eq_nil_iff.2 fun option hoption => by rw [(h option hoption).2.2.2]; exact Bool.false_ne_true
  rw [strataOptions, Options.list, List.filter_append, List.filter_append]
  have hbefore := hother o.before fun option h => o.others option (List.mem_append_left _ h)
  have hafter := hother o.after fun option h => o.others option (List.mem_append_right _ h)
  rw [strataOptions] at hbefore hafter
  rw [hbefore, hafter, List.nil_append, List.append_nil,
    List.filter_cons_of_pos (List.isPrefixOf_iff_prefix.2 (List.prefix_append _ _)), List.filter_nil]

/-- The options give the strata back. -/
theorem Options.reads (o : Options) : Reads o.text (o.rows.map Row.stratum) := by
  refine ⟨o.list, o.value, o.rows.map Row.element, o.splits_text, o.strataOptions_list, o.splits_value, ?_⟩
  rw [List.forall₂_map_left_iff, List.forall₂_map_right_iff, List.forall₂_same]
  exact fun row _ => row.readsStratum

/-! ## The table -/

/-- A line of the table, and the options of its superblock where these name strata. -/
inductive Shows : Mount.Mountinfo.MountEntry → Option Options → Prop
  | strata {e : Mount.Mountinfo.MountEntry} {o : Options} (hfs : e.fstype = stratafs)
    (htext : Octal.Writes (fun b => b.toNat < 208) o.text e.superOpts) : Shows e (some o)
  | other {e : Mount.Mountinfo.MountEntry} (hfs : e.fstype ≠ stratafs) (hnarrow : Narrow e.superOpts) : Shows e none

/-- The line is well formed, and no path is a lone `-`. -/
structure Line (p : Mount.Mountinfo.MountEntry × Option Options) : Prop where
  wellFormed : WellFormed p.1
  root : p.1.root ≠ [45]
  mountPoint : p.1.mountPoint ≠ [45]
  shows : Shows p.1 p.2

/-- What is to be found at a mount point. -/
def shown (e : Mount.Mountinfo.MountEntry) (o : Options) : StrataMount where
  mountPoint := e.mountPoint
  readOnly := hasOption e.vfsOpts roFlag
  strata := o.rows.map Row.stratum

theorem writes_unmangle {s f : Bytes} (h : Octal.Writes (fun b => b.toNat < 208) s f) : unmangle f = .ok s := by
  have hvalue : ∀ b : UInt8, b.toNat < 208 →
      escapeValue (Octal.digits b).1 (Octal.digits b).2.1 (Octal.digits b).2.2 = some b := by
    intro b hb
    obtain ⟨h₀, h₁, h₂⟩ := Octal.isOctal_digits b
    rw [escapeValue_eq h₀ h₁ h₂ (by rw [Octal.number_digits]; exact hb), Octal.number_digits, UInt8.ofNat_toNat]
  rw [unmangle, h.decode hvalue]

theorem unmangle_mangle (s : Bytes) : unmangle (Mount.Mountinfo.mangle s) = .ok s :=
  writes_unmangle (Octal.writes_mangle rfl (fun _ hb => Mount.Mountinfo.isMangled_bounds hb) s)

theorem Shows.unmangle {e : Mount.Mountinfo.MountEntry} {o : Option Options} (h : Shows e o) :
    ∃ superOptions, Stratafs.unmangle e.superOpts = .ok superOptions ∧ ∀ o', o = some o' → superOptions = o'.text := by
  cases h with
  | strata hfs htext => exact ⟨_, writes_unmangle htext, fun _ h => by rw [Option.some.inj h]⟩
  | other hfs hnarrow =>
    obtain ⟨out, hout⟩ := (unmangle_ok_iff _).2 hnarrow
    exact ⟨out, hout, fun _ h => by cases h⟩

/-- What is read of a line. -/
theorem parseLines_renderLine {e : Mount.Mountinfo.MountEntry} (h : WellFormed e) (hroot : e.root ≠ [45])
    (hmount : e.mountPoint ≠ [45]) {superOptions : Bytes} (hsuper : unmangle e.superOpts = .ok superOptions) {lineNo : Nat}
    {rest : List Bytes} {entries : List MountEntry} (hrest : parseLines (lineNo + 1) rest = .ok entries) :
    parseLines lineNo (renderLine e :: rest) = .ok (⟨e.mountPoint, e.fstype, e.vfsOpts, superOptions⟩ :: entries) := by
  have hsep := Mount.Mountinfo.separator_fieldList h hroot hmount
  have hlength : (fieldList e).length = 6 + e.optional.length + 4 := by
    simp [fieldList]
    omega
  have hfour : (fieldList e).getD 4 [] = Mount.Mountinfo.mangle e.mountPoint := by simp [fieldList]
  have hfive : (fieldList e).getD 5 [] = e.vfsOpts := by simp [fieldList]
  have hbehind : ∀ k, (fieldList e).getD (6 + e.optional.length + k) [] =
      [[45], e.fstype, Mount.Mountinfo.mangle e.source, e.superOpts].getD k [] := by
    intro k
    rw [fieldList, List.getD_append_right _ _ _ _ (by simp; omega)]
    congr 1
    simp
    omega
  rw [parseLines, if_neg (Mount.Mountinfo.renderLine_ne_nil h)]
  simp only [Mount.Mountinfo.fieldsOf_renderLine h, hsep]
  rw [if_neg (by omega), hfour, hfive, hbehind 1, hbehind 3, unmangle_mangle]
  simp only [List.getD_cons_succ, List.getD_cons_zero, hsuper, hrest]
  rfl

/-- A table, line by line. -/
theorem parseLines_render {table : List (Mount.Mountinfo.MountEntry × Option Options)} (h : ∀ p ∈ table, Line p)
    (lineNo : Nat) :
    ∃ entries, parseLines lineNo ((render (table.map Prod.fst)).splitOn 10) = .ok entries ∧
      strataMounts entries = .ok (table.filterMap fun p => p.2.map (shown p.1)) := by
  induction table generalizing lineNo with
  | nil => exact ⟨[], rfl, rfl⟩
  | cons p table ih =>
    obtain ⟨e, o⟩ := p
    obtain ⟨hwell, hroot, hmount, hshows⟩ := h (e, o) List.mem_cons_self
    obtain ⟨entries, hparse, hmounts⟩ := ih (fun q hq => h q (List.mem_cons_of_mem _ hq)) (lineNo + 1)
    obtain ⟨superOptions, hsuper, htext⟩ := hshows.unmangle
    refine ⟨⟨e.mountPoint, e.fstype, e.vfsOpts, superOptions⟩ :: entries, ?_, ?_⟩
    · rw [List.map_cons, render, List.flatMap_cons, ← render, List.append_assoc, List.singleton_append,
        List.splitOn_append_cons_self_of_not_mem (Mount.Mountinfo.newline_not_mem_renderLine hwell)]
      exact parseLines_renderLine hwell hroot hmount hsuper hparse
    · rw [strataMounts, List.filter_cons, List.filterMap_cons]
      cases hshows with
      | @strata o hfs _ =>
        have hread : parseStrataMount ⟨e.mountPoint, e.fstype, e.vfsOpts, superOptions⟩ = .ok (shown e o) := by
          rw [parseStrataMount_ok_iff, htext o rfl]
          exact ⟨o.reads, rfl, rfl⟩
        rw [if_pos (decide_eq_true hfs), List.mapM_cons, hread, ← strataMounts, hmounts]
        rfl
      | other hfs _ =>
        rw [if_neg (by simpa using hfs), ← strataMounts, hmounts]
        rfl

/-! ## Options that are rejected -/

/-- An element with an empty part, an unknown flag, a flag that is repeated, or a path that is not absolute. -/
inductive MalformedElement (element : Bytes) : Prop
  | empty (h : [] ∈ pieces 92 43 element)
  | unknownFlag {path flag : Bytes} {flags : List Bytes} (hparts : pieces 92 43 element = path :: flags)
    (hflag : flag ∈ flags) (h : flag ∉ flagNames)
  | repeatedFlag {path : Bytes} {flags : List Bytes} (hparts : pieces 92 43 element = path :: flags) (h : ¬ flags.Nodup)
  | relative {path : Bytes} {flags : List Bytes} (hparts : pieces 92 43 element = path :: flags)
    (h : (plain 92 path).head? ≠ some 47)

/-- Options that name strata twice, with an empty piece, an open escape, a malformed element, or an escape of a byte in the
strata that needs none. -/
inductive Malformed (superOptions : Bytes) : Prop
  | twice (h : 2 ≤ (strataOptions (pieces 92 44 superOptions)).length)
  | empty (h : [] ∈ pieces 92 44 superOptions)
  | dangling (h : Dangles 92 superOptions)
  | emptyElement {value : Bytes} (hvalue : strataKey ++ value ∈ pieces 92 44 superOptions) (h : [] ∈ pieces 92 58 value)
  | element {value element : Bytes} (hvalue : strataKey ++ value ∈ pieces 92 44 superOptions)
    (helement : element ∈ pieces 92 58 value) (h : MalformedElement element)
  | unknownEscape {value : Bytes} {b : UInt8} (hvalue : strataKey ++ value ∈ pieces 92 44 superOptions)
    (hescape : b ∈ protectedBy 92 value) (h : isProtected b = false)

theorem not_readsStratum_of_malformed {element : Bytes} (h : MalformedElement element) (stratum : Stratum) :
    ¬ ReadsStratum element stratum := by
  rintro ⟨path, flags, ⟨hparts, hne, -⟩, hpath, habsolute, hknown, hnodup, -⟩
  cases h with
  | empty h => exact hne (hparts ▸ h)
  | unknownFlag hparts' hflag h =>
    obtain ⟨rfl, rfl⟩ := List.cons.inj (hparts.trans hparts')
    exact h (hknown _ hflag)
  | repeatedFlag hparts' h =>
    obtain ⟨rfl, rfl⟩ := List.cons.inj (hparts.trans hparts')
    exact h hnodup
  | relative hparts' h =>
    obtain ⟨rfl, rfl⟩ := List.cons.inj (hparts.trans hparts')
    exact h (hpath.1 ▸ habsolute)

/-- Escapes in a stratum protect only what needs it. -/
theorem ReadsStratum.isProtected {element : Bytes} {stratum : Stratum} (h : ReadsStratum element stratum) {b : UInt8}
    (hb : b ∈ protectedBy 92 element) : isProtected b = true := by
  obtain ⟨path, flags, ⟨hparts, -, -⟩, hpath, -, hknown, -, -⟩ := h
  obtain ⟨part, hpart, hb⟩ := @Escaped.exists_mem_pieces _ _ 92 43 _ _ hb
  rw [← hparts] at hpart
  rcases List.mem_cons.1 hpart with rfl | hflag
  · exact hpath.2.1 b hb
  · -- a flag has no escapes
    have hnone : ∀ f ∈ flagNames, 92 ∉ f := by decide
    rw [Escaped.protectedBy_eq_nil (hnone part (hknown part hflag))] at hb
    cases hb

theorem not_reads_of_malformed {superOptions : Bytes} (h : Malformed superOptions) (strata : List Stratum) :
    ¬ Reads superOptions strata := by
  rintro ⟨options, value, elements, ⟨rfl, hne, hdangles⟩, hstrata, ⟨rfl, hne', -⟩, hall⟩
  -- the only option that names strata is the one that is read
  have hvalue : ∀ value', strataKey ++ value' ∈ pieces 92 44 superOptions → value' = value := by
    intro value' hmem
    have hmem' : strataKey ++ value' ∈ strataOptions (pieces 92 44 superOptions) :=
      List.mem_filter.2 ⟨hmem, List.isPrefixOf_iff_prefix.2 (List.prefix_append _ _)⟩
    rw [hstrata, List.mem_singleton] at hmem'
    exact List.append_cancel_left hmem'
  cases h with
  | twice h =>
    rw [hstrata] at h
    exact absurd h (by simp)
  | empty h => exact hne h
  | dangling h => exact hdangles h
  | emptyElement hmem h => exact hne' (hvalue _ hmem ▸ h)
  | element hmem helement h =>
    obtain rfl := hvalue _ hmem
    obtain ⟨stratum, -, hreads⟩ := Fallible.exists_of_mem hall helement
    exact not_readsStratum_of_malformed h stratum hreads
  | unknownEscape hmem hescape h =>
    obtain rfl := hvalue _ hmem
    obtain ⟨element, helement, hb⟩ := @Escaped.exists_mem_pieces _ _ 92 58 _ _ hescape
    obtain ⟨stratum, -, hreads⟩ := Fallible.exists_of_mem hall helement
    rw [hreads.isProtected hb] at h
    cases h

/-- **Strata, written and read.** -/
theorem strata_round_trip :
    (∀ table : List (Mount.Mountinfo.MountEntry × Option Options), (∀ p ∈ table, Line p) →
      ∃ entries, parseMountinfo (render (table.map Prod.fst)) = .ok entries ∧
        strataMounts entries = .ok (table.filterMap fun p => p.2.map (shown p.1))) ∧
    ∀ entries : List MountEntry, ∀ entry ∈ entries, entry.fstype = stratafs → Malformed entry.superOptions →
      ∃ e, strataMounts entries = .error e := by
  refine ⟨fun table h => parseLines_render h 0, fun entries entry hentry hfs hmalformed => ?_⟩
  cases hmounts : strataMounts entries with
  | error e => exact ⟨e, rfl⟩
  | ok mounts =>
    have hall := (Fallible.mapM_eq_ok _ _).1 hmounts
    have hmem : entry ∈ entries.filter fun entry => entry.fstype = stratafs :=
      List.mem_filter.2 ⟨hentry, decide_eq_true hfs⟩
    obtain ⟨mount, -, hmount⟩ := Fallible.exists_of_mem hall hmem
    exact absurd ((parseStrataMount_ok_iff _ _).1 hmount).1 (not_reads_of_malformed hmalformed _)

/-- `/a:b` with two flags, behind another option. -/
def colonOptions : Options where
  before := [[120]]
  rows := [⟨[47, 97, 58, 98], [.ro, .create], rfl, by decide⟩]
  after := []
  nonempty := by decide
  others := by
    intro option h
    rw [List.append_nil, List.mem_singleton] at h
    rw [h]
    exact ⟨by decide, by decide, by decide, rfl⟩

def colonEntry : Mount.Mountinfo.MountEntry where
  id := 1
  parentId := 2
  major := 0
  minor := 5
  root := [47]
  mountPoint := [47, 109]
  vfsOpts := [114, 111]
  optional := []
  fstype := stratafs
  source := [110]
  superOpts := Mount.Mountinfo.mangle colonOptions.text

theorem line_colon : ∀ p ∈ [(colonEntry, some colonOptions)], Line p := by
  intro p hp
  rw [List.mem_singleton.1 hp]
  exact
    { wellFormed :=
        { root := by decide
          mountPoint := by decide
          source := by decide
          vfsOpts := ⟨⟨by decide, by decide, by decide⟩, by decide⟩
          optional := by simp [colonEntry]
          fstype := ⟨by decide, by decide, by decide⟩
          superOpts := ⟨by decide +kernel, by decide +kernel, by decide +kernel⟩ }
      root := by decide
      mountPoint := by decide
      shows := .strata rfl (Octal.writes_mangle rfl (fun _ hb => Mount.Mountinfo.isMangled_bounds hb) _) }

theorem strata_round_trip_colon :
    ∃ entries, parseMountinfo (render [colonEntry]) = .ok entries ∧
      strataMounts entries = .ok [⟨[47, 109], true, [⟨[47, 97, 58, 98], true, true, false⟩]⟩] :=
  strata_round_trip.1 [(colonEntry, some colonOptions)] line_colon

/-- `f=\x,strata=/a`: an escape in an option that does not name strata. -/
def escapedOther : MountEntry where
  mountPoint := [47]
  fstype := stratafs
  vfsOptions := []
  superOptions := [102, 61, 92, 120, 44] ++ strataKey ++ [47, 97]

/-- Escapes in other options are not looked at. -/
theorem other_escape_accepted :
    ¬ ∀ (entry : MountEntry) (b : UInt8), entry.fstype = stratafs → b ∈ protectedBy 92 entry.superOptions →
      isProtected b = false → ∃ e, strataMounts [entry] = .error e := by
  intro h
  obtain ⟨e, he⟩ := h escapedOther 120 rfl (by decide) rfl
  have hmounts : (strataMounts [escapedOther]).toOption.isSome = true := by decide +kernel
  rw [he] at hmounts
  cases hmounts

end Peiosutils.Stratafs
