import Peiosutils.Lib.Fallible
import Peiosutils.Lib.Octal
import Peiosutils.Mount.Mountinfo
import Peiosutils.Regman.Fragment

/-!
# Mounts of strata (`stratafs/src/model.rs`)

The table of mounts is read as `mount` reads it, but a malformed line is an error. The strata of a mount stand in one of
its superblock options, as paths with flags: elements are separated by colons and flags by plus signs, and a backslash
protects these, commas and itself in a path.
-/

set_option autoImplicit false

namespace Peiosutils.Stratafs

open Octal (mulByte addByte subByte)
open Mount.Mountinfo (fieldsOf separator)
open Regman (Str)

abbrev Bytes := List UInt8

/-! ## The table of mounts -/

structure MountEntry where
  mountPoint : Bytes
  fstype : Bytes
  vfsOptions : Bytes
  superOptions : Bytes
  deriving DecidableEq

/-- The errors of this part of the program: `Error::InvalidMountTable`. -/
structure Error where
  message : Str
  deriving DecidableEq, Repr

/-- An error, or a panic because of an arithmetic overflow. -/
inductive Fault where
  | error (e : Error)
  | overflow
  deriving DecidableEq, Repr

/-- `(digits[0] - b'0') * 64 + (digits[1] - b'0') * 8 + digits[2] - b'0'`, where the third digit is added before `b'0'` is
subtracted. -/
def escapeValue (d₀ d₁ d₂ : UInt8) : Option UInt8 := do
  let a ← subByte d₀.toNat 48
  let a ← mulByte a 64
  let b ← subByte d₁.toNat 48
  let b ← mulByte b 8
  let ab ← addByte a b
  let c ← addByte ab d₂.toNat
  let v ← subByte c 48
  return UInt8.ofNat v

def unmangle (value : Bytes) : Except Fault Bytes :=
  match Octal.decode escapeValue value with
  | some out => .ok out
  | none => .error .overflow

def invalidLine {α : Type} (lineNo : Nat) (what : String) : Except Fault α :=
  .error (.error ⟨"line ".toList ++ Nat.toDigits 10 (lineNo + 1) ++ what.toList⟩)

/-- The entries of the lines from number `lineNo` on. -/
def parseLines (lineNo : Nat) : List Bytes → Except Fault (List MountEntry)
  | [] => .ok []
  | line :: lines =>
    if line = [] then parseLines (lineNo + 1) lines
    else
      let fields := fieldsOf line
      match separator fields with
      | none => invalidLine lineNo " has no separator"
      | some sep =>
        if sep < 6 ∨ fields.length < sep + 4 then invalidLine lineNo " is incomplete"
        else do
          let mountPoint ← unmangle (fields.getD 4 [])
          let superOptions ← unmangle (fields.getD (sep + 3) [])
          let entry : MountEntry :=
            { mountPoint, fstype := fields.getD (sep + 1) [], vfsOptions := fields.getD 5 [], superOptions }
          let rest ← parseLines (lineNo + 1) lines
          return entry :: rest

def parseMountinfo (bytes : Bytes) : Except Fault (List MountEntry) := parseLines 0 (bytes.splitOn 10)

/-! ## Strata -/

structure Stratum where
  path : Bytes
  create : Bool
  readOnly : Bool
  allowMissing : Bool
  deriving DecidableEq, Repr

structure StrataMount where
  mountPoint : Bytes
  readOnly : Bool
  strata : List Stratum
  deriving DecidableEq, Repr

def invalid {α : Type} (message : String) : Except Error α := .error ⟨message.toList⟩

/-- The elements of what is left, behind `cur`. -/
def splitFrom (sep : UInt8) (cur : Bytes) (escaped : Bool) : Bytes → Except Error (List Bytes)
  | [] =>
    if escaped then invalid "dangling escape"
    else if cur = [] then invalid "empty trailing element"
    else .ok [cur]
  | b :: bs =>
    if escaped then splitFrom sep (cur ++ [b]) false bs
    else if b = 92 then splitFrom sep (cur ++ [b]) true bs
    else if b = sep then
      if cur = [] then invalid "empty escaped-list element"
      else do
        let rest ← splitFrom sep [] false bs
        return cur :: rest
    else splitFrom sep (cur ++ [b]) false bs

def splitEscaped (value : Bytes) (sep : UInt8) : Except Error (List Bytes) := splitFrom sep [] false value

/-- A backslash, a colon, a plus sign and a comma. -/
def isProtected (b : UInt8) : Bool := b == 58 || b == 43 || b == 44 || b == 92

def unescapeFrom : Bytes → Except Error Bytes
  | [] => .ok []
  | b :: bs =>
    if b = 92 then
      match bs with
      | [] => invalid "dangling path escape"
      | next :: rest =>
        if isProtected next then do
          let out ← unescapeFrom rest
          return next :: out
        else .error ⟨"invalid path escape \\".toList ++ [Char.ofNat next.toNat]⟩
    else do
      let out ← unescapeFrom bs
      return b :: out

def unescapePath (path : Bytes) : Except Error Bytes := do
  let output ← unescapeFrom path
  if output = [] then invalid "empty stratum path" else return output

/-- A byte as it is displayed: escapes for a backslash and for what cannot be printed. -/
def displayByte (b : UInt8) : Str :=
  if b = 92 then "\\\\".toList
  else if 32 ≤ b ∧ b ≤ 126 then [Char.ofNat b.toNat]
  else if b = 10 then "\\n".toList
  else if b = 13 then "\\r".toList
  else if b = 9 then "\\t".toList
  else "\\x".toList ++ Hex.hexDigits 2 b.toNat

def displayBytes (bytes : Bytes) : Str := bytes.flatMap displayByte

def createFlag : Bytes := [99, 114, 101, 97, 116, 101]

def roFlag : Bytes := [114, 111]

def amFlag : Bytes := [97, 109]

/-- A flag is set, once. -/
def applyFlag (stratum : Stratum) (flag : Bytes) : Except Error Stratum :=
  let duplicate : Except Error Stratum := .error ⟨"duplicate flag ".toList ++ displayBytes flag⟩
  if flag = createFlag then
    if stratum.create then duplicate else .ok { stratum with create := true }
  else if flag = roFlag then
    if stratum.readOnly then duplicate else .ok { stratum with readOnly := true }
  else if flag = amFlag then
    if stratum.allowMissing then duplicate else .ok { stratum with allowMissing := true }
  else .error ⟨"unknown flag ".toList ++ displayBytes flag⟩

/-- The stratum of an element. -/
def parseStratum (element : Bytes) : Except Error Stratum := do
  match ← splitEscaped element 43 with
  | [] => invalid "empty stratum"
  | path :: flags => do
    let path ← unescapePath path
    if path.head? ≠ some 47 then invalid "relative stratum path"
    else flags.foldlM applyFlag ⟨path, false, false, false⟩

/-- `strata=`. -/
def strataKey : Bytes := [115, 116, 114, 97, 116, 97, 61]

/-- The value of the option, when there is one and only one. -/
def strataValue (found : Option Bytes) : List Bytes → Except Error Bytes
  | [] =>
    match found with
    | some value => .ok value
    | none => invalid "missing strata= option"
  | option :: options =>
    if strataKey.isPrefixOf option then
      match found with
      | some _ => invalid "duplicate strata= option"
      | none => strataValue (some (option.drop 7)) options
    else strataValue found options

/-- `wanted` is among the options. -/
def hasOption (options wanted : Bytes) : Bool := (options.splitOn 44).contains wanted

def parseStrataMount (entry : MountEntry) : Except Error StrataMount := do
  let options ← splitEscaped entry.superOptions 44
  let value ← strataValue none options
  let elements ← splitEscaped value 58
  if elements = [] then invalid "empty strata= option"
  else do
    let strata ← elements.mapM parseStratum
    return { mountPoint := entry.mountPoint, readOnly := hasOption entry.vfsOptions roFlag, strata }

/-- The bytes of `stratafs`. -/
def stratafs : Bytes := [115, 116, 114, 97, 116, 97, 102, 115]

def strataMounts (entries : List MountEntry) : Except Error (List StrataMount) :=
  (entries.filter fun entry => entry.fstype = stratafs).mapM parseStrataMount

end Peiosutils.Stratafs

/-!
# Tables that both readers take

`parse_mountinfo` overflows at escapes from `\320` on, since it adds the last digit before it subtracts `b'0'`, but only in
lines up to the first one that is malformed (`parseMountinfo_returns_iff`). What both readers of the table do without a
panic, and which tables `mount` reads back, is `tables_read_iff`.
-/

namespace Peiosutils.Stratafs

open Octal (mulByte addByte subByte escapeNumbers)
open Mount.Mountinfo (fieldsOf linesOf separator LineFits WellFormed)

/-! ## Escapes -/

theorem escapeValue_isSome_iff {d₀ d₁ d₂ : UInt8} (h₀ : Octal.isOctal d₀ = true) (h₁ : Octal.isOctal d₁ = true)
    (h₂ : Octal.isOctal d₂ = true) : (escapeValue d₀ d₁ d₂).isSome = true ↔ Octal.number d₀ d₁ d₂ < 208 := by
  obtain ⟨hlow₀, hhigh₀⟩ := Octal.isOctal_bounds h₀
  obtain ⟨hlow₁, hhigh₁⟩ := Octal.isOctal_bounds h₁
  obtain ⟨hlow₂, hhigh₂⟩ := Octal.isOctal_bounds h₂
  simp only [escapeValue, subByte, if_pos hlow₀, if_pos hlow₁, mulByte, addByte, Octal.number]
  by_cases hbig : (d₀.toNat - 48) * 64 ≤ 255
  · have hsmall : (d₁.toNat - 48) * 8 ≤ 255 := by omega
    have hsum : (d₀.toNat - 48) * 64 + (d₁.toNat - 48) * 8 ≤ 255 := by omega
    by_cases hall : (d₀.toNat - 48) * 64 + (d₁.toNat - 48) * 8 + d₂.toNat ≤ 255
    · have hlast : 48 ≤ (d₀.toNat - 48) * 64 + (d₁.toNat - 48) * 8 + d₂.toNat := by omega
      simp [if_pos hbig, if_pos hsmall, if_pos hsum, if_pos hall, if_pos hlast]
      omega
    · simp [if_pos hbig, if_pos hsmall, if_pos hsum, if_neg hall]
      omega
  · simp [if_neg hbig]
    omega

theorem escapeValue_eq {d₀ d₁ d₂ : UInt8} (h₀ : Octal.isOctal d₀ = true) (h₁ : Octal.isOctal d₁ = true)
    (h₂ : Octal.isOctal d₂ = true) (h : Octal.number d₀ d₁ d₂ < 208) :
    escapeValue d₀ d₁ d₂ = some (UInt8.ofNat (Octal.number d₀ d₁ d₂)) := by
  obtain ⟨hlow₀, hhigh₀⟩ := Octal.isOctal_bounds h₀
  obtain ⟨hlow₁, hhigh₁⟩ := Octal.isOctal_bounds h₁
  obtain ⟨hlow₂, hhigh₂⟩ := Octal.isOctal_bounds h₂
  unfold Octal.number at h ⊢
  simp only [escapeValue, subByte, if_pos hlow₀, if_pos hlow₁, mulByte, addByte, Option.bind_eq_bind, Option.bind_some,
    if_pos (show (d₀.toNat - 48) * 64 ≤ 255 by omega), if_pos (show (d₁.toNat - 48) * 8 ≤ 255 by omega),
    if_pos (show (d₀.toNat - 48) * 64 + (d₁.toNat - 48) * 8 ≤ 255 by omega),
    if_pos (show (d₀.toNat - 48) * 64 + (d₁.toNat - 48) * 8 + d₂.toNat ≤ 255 by omega),
    if_pos (show 48 ≤ (d₀.toNat - 48) * 64 + (d₁.toNat - 48) * 8 + d₂.toNat by omega)]
  rw [Nat.add_sub_assoc hlow₂]
  rfl

/-- Every escape is below `\320`. -/
def Narrow (s : Bytes) : Prop := ∀ n ∈ escapeNumbers s, n < 208

theorem unmangle_ok_iff (s : Bytes) : (∃ out, unmangle s = .ok out) ↔ Narrow s := by
  rw [Narrow, ← @Octal.decode_isSome_iff_numbers escapeValue _ fun _ _ _ => escapeValue_isSome_iff, unmangle]
  cases Octal.decode escapeValue s <;> simp

/-! ## Lines -/

/-- The line is passed over or has an entry: the first lone `-` is behind the first six fields, and three fields follow. -/
def Complete (line : Bytes) : Prop :=
  line = [] ∨ ∃ sep, separator (fieldsOf line) = some sep ∧ 6 ≤ sep ∧ sep + 4 ≤ (fieldsOf line).length

/-- What a line that is complete must be like: the escapes of the mount point and of the superblock options are in bounds. -/
def LineNarrow (line : Bytes) : Prop :=
  line ≠ [] → ∀ sep, separator (fieldsOf line) = some sep → 6 ≤ sep → sep + 4 ≤ (fieldsOf line).length →
    Narrow ((fieldsOf line).getD 4 []) ∧ Narrow ((fieldsOf line).getD (sep + 3) [])

/-- Each line up to the first one that is not complete. -/
def TableNarrow (lines : List Bytes) : Prop :=
  ∀ before line after, lines = before ++ line :: after → (∀ l ∈ before, Complete l) → LineNarrow line

theorem tableNarrow_cons {line : Bytes} {lines : List Bytes} :
    TableNarrow (line :: lines) ↔ LineNarrow line ∧ (Complete line → TableNarrow lines) := by
  constructor
  · intro h
    refine ⟨h [] line lines rfl (by simp), fun hline before l after heq hbefore => ?_⟩
    exact h (line :: before) l after (by rw [heq, List.cons_append]) (List.forall_mem_cons.2 ⟨hline, hbefore⟩)
  · rintro ⟨hline, hrest⟩ before l after heq hbefore
    cases before with
    | nil =>
      rw [List.nil_append, List.cons.injEq] at heq
      exact heq.1 ▸ hline
    | cons b before =>
      rw [List.cons_append, List.cons.injEq] at heq
      obtain ⟨rfl, heq⟩ := heq
      obtain ⟨hb, hbefore⟩ := List.forall_mem_cons.1 hbefore
      exact hrest hb before l after heq hbefore

theorem unmangle_ne {s : Bytes} (h : ¬ Narrow s) : unmangle s = .error .overflow := by
  rw [← unmangle_ok_iff] at h
  unfold unmangle at h ⊢
  cases hdecode : Octal.decode escapeValue s with
  | none => rfl
  | some out => exact absurd ⟨out, by rw [hdecode]⟩ h

/-- The line goes first: it is passed over, it stops the reading, or its two escaped fields are read. -/
theorem parseLines_returns_iff (lineNo : Nat) (lines : List Bytes) :
    parseLines lineNo lines ≠ .error .overflow ↔ TableNarrow lines := by
  induction lines generalizing lineNo with
  | nil =>
    refine iff_of_true (by simp [parseLines]) ?_
    intro before line after h
    simp at h
  | cons line lines ih =>
    rw [tableNarrow_cons, parseLines]
    by_cases hempty : line = []
    · rw [if_pos hempty, ih]
      exact ⟨fun h => ⟨fun hne => absurd hempty hne, fun _ => h⟩, fun h => h.2 (.inl hempty)⟩
    rw [if_neg hempty]
    simp only
    cases hsep : separator (fieldsOf line) with
    | none =>
      refine iff_of_true (by simp [invalidLine]) ⟨fun _ sep h => ?_, ?_⟩
      · rw [hsep] at h
        cases h
      · rintro (h | ⟨sep, h, -⟩)
        · exact absurd h hempty
        · rw [hsep] at h
          cases h
    | some sep =>
      simp only
      split
      · rename_i hshort
        refine iff_of_true (by simp [invalidLine]) ⟨fun _ sep' h hsix hlen => ?_, ?_⟩
        · rw [hsep, Option.some.injEq] at h
          omega
        · rintro (h | ⟨sep', h, hsix, hlen⟩)
          · exact absurd h hempty
          · rw [hsep, Option.some.injEq] at h
            omega
      · rename_i hlong
        have hsix : 6 ≤ sep := by omega
        have hlen : sep + 4 ≤ (fieldsOf line).length := by omega
        have hline : LineNarrow line ↔
            Narrow ((fieldsOf line).getD 4 []) ∧ Narrow ((fieldsOf line).getD (sep + 3) []) := by
          refine ⟨fun h => h hempty sep hsep hsix hlen, fun h _ sep' hs _ _ => ?_⟩
          rw [hsep, Option.some.injEq] at hs
          exact hs ▸ h
        rw [hline, ← ih (lineNo + 1)]
        by_cases hmount : Narrow ((fieldsOf line).getD 4 [])
        · obtain ⟨mountPoint, hm⟩ := (unmangle_ok_iff _).2 hmount
          by_cases hsuper : Narrow ((fieldsOf line).getD (sep + 3) [])
          · obtain ⟨superOptions, hs⟩ := (unmangle_ok_iff _).2 hsuper
            have hcomplete : Complete line := .inr ⟨sep, hsep, hsix, hlen⟩
            simp only [hm, hs, hmount, hsuper, true_and, hcomplete, true_imp_iff]
            cases parseLines (lineNo + 1) lines <;> simp [bind, Except.bind, pure, Except.pure]
          · simp only [hm, unmangle_ne hsuper, hsuper, and_false, false_and, iff_false, not_not]
            rfl
        · simp only [unmangle_ne hmount, hmount, false_and, iff_false, not_not]
          rfl

theorem parseMountinfo_returns_iff (data : Bytes) :
    parseMountinfo data ≠ .error .overflow ↔ TableNarrow (data.splitOn 10) := parseLines_returns_iff 0 _

/-! ## Both readers -/

/-- **Reading a table.** Both readers return when the escapes and the lone `-`s that they meet are in bounds, and a rendered
table is read back when no root or mount point is a lone `-`. -/
theorem tables_read_iff (data : Bytes) (entries : List Mount.Mountinfo.MountEntry) (h : ∀ e ∈ entries, WellFormed e) :
    ((∃ es, Mount.Mountinfo.parse data = .ok es) ∧ parseMountinfo data ≠ .error .overflow ↔
      (∀ line ∈ linesOf data, LineFits (fieldsOf line)) ∧ TableNarrow (data.splitOn 10)) ∧
    (Mount.Mountinfo.parse (Mount.Mountinfo.render entries) = .ok entries ↔
      ∀ e ∈ entries, e.root ≠ [45] ∧ e.mountPoint ≠ [45]) := by
  rw [Mount.Mountinfo.parse_returns_iff, parseMountinfo_returns_iff]
  exact ⟨Iff.rfl, Mount.Mountinfo.parse_render_iff entries h⟩

/-- `1 2 8:1 / /\400 rw - ext4 /dev/sda rw`. -/
def wideLine : Bytes :=
  [49, 32, 50, 32, 56, 58, 49, 32, 47, 32, 47, 92, 52, 48, 48, 32, 114, 119, 32, 45, 32, 101, 120, 116, 52, 32, 47, 100,
    101, 118, 47, 115, 100, 97, 32, 114, 119]

/-- The root, mounted at `/a b`. -/
def spaceEntry : Mount.Mountinfo.MountEntry where
  id := 1
  parentId := 2
  major := 8
  minor := 1
  root := [47]
  mountPoint := [47, 97, 32, 98]
  vfsOpts := [114, 119]
  optional := []
  fstype := [101, 120, 116, 52]
  source := [47]
  superOpts := [114, 119]

theorem wellFormed_spaceEntry : ∀ e ∈ [spaceEntry], WellFormed e := by
  intro e he
  rw [List.mem_singleton.1 he]
  exact
    { root := by decide
      mountPoint := by decide
      source := by decide
      vfsOpts := ⟨⟨by decide, by decide, by decide⟩, by decide⟩
      optional := by simp [spaceEntry]
      fstype := ⟨by decide, by decide, by decide⟩
      superOpts := ⟨by decide, by decide, by decide⟩ }

theorem tables_read_iff_space :
    (∀ e ∈ [spaceEntry], WellFormed e) ∧ Mount.Mountinfo.parse (Mount.Mountinfo.render [spaceEntry]) = .ok [spaceEntry] :=
  ⟨wellFormed_spaceEntry, (tables_read_iff [] [spaceEntry] wellFormed_spaceEntry).2.2 fun e he => by
    rw [List.mem_singleton.1 he]
    exact ⟨by decide, by decide⟩⟩

/-- Neither reader gets past the escape `\400`. -/
theorem wide_escape_overflows :
    ¬ ∀ data : Bytes, (∃ es, Mount.Mountinfo.parse data = .ok es) ∧ parseMountinfo data ≠ .error .overflow := by
  intro h
  have hread : Mount.Mountinfo.parse wideLine = .error .overflow := by decide +kernel
  obtain ⟨es, hes⟩ := (h wideLine).1
  rw [hread] at hes
  cases hes

end Peiosutils.Stratafs
