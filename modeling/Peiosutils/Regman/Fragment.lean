import Mathlib.Algebra.GroupWithZero.Nat
import Mathlib.Data.List.DropRight
import Mathlib.Data.List.Infix
import Peiosutils.Lib.Utf8

/-!
# Wildcards in an anchor (`pattern.rs`)

An anchor is matched against a query byte by byte. A part `<…>` of the anchor stands for one byte or more that are
neither a space nor, unless it ends in `...`, a backslash. Without a `<` the match is equality (`matchesExact_eq`), or
the query with an attached value (`matchesUnderKey_eq`).
-/

set_option autoImplicit false

namespace Peiosutils.Regman

open Utf8

/-- The characters of a string; the source's lengths and offsets are those of `encode`. -/
abbrev Str := List Char

/-- `b'<'`. -/
def opening : UInt8 := 60

/-- `b'>'`. -/
def closing : UInt8 := 62

/-- `b' '`. -/
def space : UInt8 := 32

/-- `b'\\'`. -/
def backslash : UInt8 := 92

/-- `b"..."`. -/
def ellipsis : List UInt8 := [46, 46, 46]

/-- Could this anchor contain a wildcard? -/
def hasWildcard (anchor : Str) : Bool := (encode anchor).contains opening

/-- A leading wildcard: its length, and whether it may cross separators. -/
def wildcard (anchor : List UInt8) : Option (Nat × Bool) :=
  if anchor.head? ≠ some opening then none
  else
    match anchor.findIdx? (· = closing) with
    | none => none
    | some close => some (close + 1, decide (ellipsis <:+ (anchor.take close).drop 1))

theorem wildcard_pos {anchor : List UInt8} {width : Nat} {spans : Bool} (h : wildcard anchor = some (width, spans)) :
    0 < width := by
  unfold wildcard at h
  split at h
  · cases h
  · split at h
    · cases h
    · cases h
      omega

/-- The tail of the row behind a wildcard: each prefix that extends one matched before, or just now. -/
def spread (spans : Bool) : (prev : Bool) → (query : List UInt8) → (reachable : List Bool) → List Bool
  | prev, byte :: query, r :: reachable =>
    let allowed := byte ≠ space && (spans || byte ≠ backslash)
    let next := allowed && (r || prev)
    next :: spread spans next query reachable
  | _, _, _ => []

/-- The row behind one literal byte. -/
def advance (literal : UInt8) (query : List UInt8) (reachable : List Bool) : List Bool :=
  List.zipWith (fun byte r => r && literal = byte) query reachable

/-- The passes of `walk`'s loop: `anchor` is what remains of the pattern, and `reachable` says which prefixes of the
query match what is behind. -/
def walkFrom (query : List UInt8) (tailOk : List UInt8 → Bool) (anchor : List UInt8) (reachable : List Bool) : Bool :=
  if reachable.getD query.length false && tailOk anchor then true
  else
    match anchor with
    | [] => false
    | literal :: rest =>
      match _hw : wildcard (literal :: rest) with
      | some (width, spans) =>
        let next := false :: spread spans false query reachable
        if next.any id then walkFrom query tailOk ((literal :: rest).drop width) next else false
      | none =>
        let next := false :: advance literal query reachable
        if next.any id then walkFrom query tailOk rest next else false
termination_by anchor.length
decreasing_by
  · have := wildcard_pos _hw
    simp only [List.length_drop, List.length_cons]
    omega
  · simp

/-- Match a pattern without backtracking. -/
def walk (anchor query : List UInt8) (tailOk : List UInt8 → Bool) : Bool :=
  walkFrom query tailOk anchor (true :: List.replicate query.length false)

/-- Does `anchor` denote the exact `(path, value)` named by `query`? -/
def matchesExact (anchor query : Str) : Bool :=
  if !hasWildcard anchor then anchor = query
  else walk (encode anchor) (encode query) fun rest => rest.isEmpty

/-- Does `anchor` belong to the key `query`: the key itself, or a value attached to it? -/
def matchesUnderKey (anchor query : Str) : Bool :=
  if !hasWildcard anchor then
    anchor = query ||
      ((encode query).length < (encode anchor).length && (encode query).isPrefixOf (encode anchor) &&
        (encode anchor)[(encode query).length]? = some space)
  else walk (encode anchor) (encode query) fun rest => rest.isEmpty || rest.head? = some space

/-- Does a wildcard of these bytes span separators? -/
def spansFrom : List UInt8 → Bool
  | [] => false
  | b :: a =>
    if b ≠ opening then spansFrom a
    else
      match (b :: a).findIdx? (· = closing) with
      | none => false
      | some close =>
        if ellipsis <:+ ((b :: a).take close).drop 1 then true else spansFrom ((b :: a).drop (close + 1))
termination_by a => a.length

/-- Does this anchor carry a `<…...>` that spans separators? -/
def spansComponents (anchor : Str) : Bool := spansFrom (encode anchor)

/-! ## Anchors without a wildcard -/

theorem matchesExact_eq {anchor query : Str} (h : hasWildcard anchor = false) :
    matchesExact anchor query = true ↔ anchor = query := by
  simp [matchesExact, h]

/-- An anchor under a key begins with the key. -/
theorem matchesUnderKey_eq {anchor query : Str} (h : hasWildcard anchor = false)
    (hm : matchesUnderKey anchor query = true) : encode query <+: encode anchor := by
  simp only [matchesUnderKey, h, Bool.not_false, if_true, Bool.or_eq_true, Bool.and_eq_true, decide_eq_true_eq] at hm
  rcases hm with rfl | ⟨⟨_, hp⟩, _⟩
  · exact List.prefix_refl _
  · exact List.isPrefixOf_iff_prefix.1 hp

end Peiosutils.Regman

/-!
# Parsing a fragment (`fragment.rs`)

A text is cut into its lines, a line `--- anchor` opens a record, and a record reaches to the next such line. What the
index relies on: the offsets of the records ascend (`pairwise_parse`), and the text holds the bytes of every anchor
(`encode_anchor_infix`).
-/

namespace Peiosutils.Regman

open Utf8

/-! ## Strings -/

/-- `char::is_whitespace`. -/
def isWhitespace (c : Char) : Bool :=
  let n := c.toNat
  n = 32 || (9 ≤ n && n ≤ 13) || n = 0x85 || n = 0xA0 || n = 0x1680 || (0x2000 ≤ n && n ≤ 0x200A) || n = 0x2028 ||
    n = 0x2029 || n = 0x202F || n = 0x205F || n = 0x3000

/-- `str::trim`. -/
def trim (s : Str) : Str := (s.dropWhile isWhitespace).rdropWhile isWhitespace

theorem trim_eq_self {s : Str} (h : ∀ c ∈ s, isWhitespace c = false) : trim s = s := by
  have hd : s.dropWhile isWhitespace = s := by
    rw [List.dropWhile_eq_self_iff]
    intro hl
    simp [h _ (List.getElem_mem hl)]
  rw [trim, hd, List.rdropWhile_eq_self_iff]
  intro hne
  simp [h _ (List.getLast_mem hne)]

/-- `s.trim_matches('\n')`. -/
def trimNewlines (s : Str) : Str := (s.dropWhile (· = '\n')).rdropWhile (· = '\n')

/-- `s.split_once(c)`. -/
def splitOnce (c : Char) (s : Str) : Option (Str × Str) :=
  if c ∈ s then some (s.takeWhile (· ≠ c), (s.dropWhile (· ≠ c)).drop 1) else none

/-- The lines of `s.split_inclusive('\n')`. -/
def splitInclusive : Str → List Str
  | [] => []
  | c :: s =>
    if c = '\n' then [c] :: splitInclusive s
    else
      match splitInclusive s with
      | [] => [[c]]
      | line :: rest => (c :: line) :: rest

/-- `s.strip_suffix(c).unwrap_or(s)`. -/
def stripSuffix (c : Char) (s : Str) : Str := if s.getLast? = some c then s.dropLast else s

/-- `s.lines()`: a carriage return goes only with the newline behind it. -/
def lines (s : Str) : List Str :=
  (splitInclusive s).map fun line =>
    if line.getLast? = some '\n' then stripSuffix '\r' (stripSuffix '\n' line) else line

/-- What is left of `s` behind its first `n` bytes. -/
def dropBytes : Nat → Str → Str
  | _, [] => []
  | n, c :: s => if n = 0 then c :: s else dropBytes (n - c.utf8Size) s

/-- The first `n` bytes of `s`. -/
def takeBytes : Nat → Str → Str
  | _, [] => []
  | n, c :: s => if n = 0 then [] else c :: takeBytes (n - c.utf8Size) s

/-- `&s[start..stop]`, where both are boundaries of characters. -/
def sliceStr (s : Str) (start stop : Nat) : Str := takeBytes (stop - start) (dropBytes start s)

/-! ## Records -/

inductive Kind where
  | key
  | value
  deriving DecidableEq, Repr

/-- A documented registry key or value. -/
structure Record where
  /-- Byte offset of the record's fence line within its source file. -/
  fenceOffset : Nat
  anchor : Str
  canonical : Str
  type : Option Str
  default : Option Str
  valid : Option Str
  applies : Option Str
  deprecated : Option Str
  body : Str
  deriving DecidableEq, Repr

/-- A record is a value doc if it carries any value-only field. -/
def Record.kind (r : Record) : Kind :=
  if r.type.isSome || r.default.isSome || r.valid.isSome || r.applies.isSome then .value else .key

structure ParseIssue where
  /-- 1-based line number of the fence that opened the record. -/
  line : Nat
  message : String
  deriving DecidableEq, Repr

structure Fence where
  offset : Nat
  lineNo : Nat
  anchor : Str
  deriving DecidableEq, Repr

structure Header where
  canonical : Option Str := none
  type : Option Str := none
  default : Option Str := none
  valid : Option Str := none
  applies : Option Str := none
  deprecated : Option Str := none
  deriving DecidableEq, Repr

/-- `b"--- "`, as characters. -/
def fenceMark : Str := ['-', '-', '-', ' ']

/-- If `line` is a fence, its anchor: the trimmed text behind `--- `. -/
def fenceAnchor (line : Str) : Option Str :=
  if fenceMark.isPrefixOf line then
    let anchor := trim (line.drop fenceMark.length)
    if anchor = [] then none else some anchor
  else none

/-- Header lines before the first blank line, and the body behind it. -/
def splitHeaderBody : List Str → Str × Str
  | [] => ([], [])
  | line :: rest =>
    if stripSuffix '\r' (stripSuffix '\n' line) = [] then ([], rest.flatten)
    else
      let r := splitHeaderBody rest
      (line ++ r.1, r.2)

/-- What one header line sets. -/
def Header.addLine (h : Header) (line : Str) : Header :=
  match splitOnce ':' (trim line) with
  | none => h
  | some (key, value) =>
    let value := trim value
    let key := (trim key).map Char.toLower
    if key = "canonical".toList then { h with canonical := some value }
    else if key = "type".toList then { h with type := some value }
    else if key = "default".toList then { h with default := some value }
    else if key = "valid".toList then { h with valid := some value }
    else if key = "applies".toList then { h with applies := some value }
    else if key = "deprecated".toList then { h with deprecated := some value }
    else h

def parseHeader (text : Str) : Header := (lines text).foldl Header.addLine {}

/-- The fences among the lines from line number `lineNo` and byte `offset` on. -/
def fencesFrom : (offset lineNo : Nat) → List Str → List Fence
  | _, _, [] => []
  | offset, lineNo, line :: rest =>
    let later := fencesFrom (offset + (encode line).length + 1) (lineNo + 1) rest
    match fenceAnchor line with
    | some anchor => ⟨offset, lineNo, anchor⟩ :: later
    | none => later

def fences (text : Str) : List Fence := fencesFrom 0 1 (text.splitOn '\n')

/-- The record of a fence whose block ends at `recordEnd`. -/
def parseRecord (text : Str) (fence : Fence) (recordEnd : Nat) : Except ParseIssue Record :=
  let block := sliceStr text fence.offset recordEnd
  let afterFence := ((splitOnce '\n' block).map Prod.snd).getD []
  let (headerText, body) := splitHeaderBody (splitInclusive afterFence)
  let header := parseHeader headerText
  match header.canonical with
  | none => .error ⟨fence.lineNo, "record has no `canonical:` field"⟩
  | some canonical =>
    .ok
      { fenceOffset := fence.offset
        anchor := fence.anchor
        canonical
        type := header.type
        default := header.default
        valid := header.valid
        applies := header.applies
        deprecated := header.deprecated
        body := trimNewlines body }

def parseFences (text : Str) : List Fence → List Record × List ParseIssue
  | [] => ([], [])
  | fence :: rest =>
    let recordEnd :=
      match rest with
      | next :: _ => next.offset
      | [] => (encode text).length
    let later := parseFences text rest
    match parseRecord text fence recordEnd with
    | .ok record => (record :: later.1, later.2)
    | .error issue => (later.1, issue :: later.2)

/-- Parse a fragment's text into records. -/
def parse (text : Str) : List Record × List ParseIssue := parseFences text (fences text)

/-! ## Offsets and anchors -/

theorem fencesFrom_offset {lines : List Str} : ∀ {offset lineNo : Nat}, ∀ f ∈ fencesFrom offset lineNo lines,
    offset ≤ f.offset := by
  induction lines with
  | nil => simp [fencesFrom]
  | cons line rest ih =>
    intro offset lineNo f hf
    have hlater : ∀ f ∈ fencesFrom (offset + (encode line).length + 1) (lineNo + 1) rest, offset ≤ f.offset :=
      fun f hf => le_trans (by omega) (ih f hf)
    unfold fencesFrom at hf
    split at hf
    · rcases List.mem_cons.1 hf with rfl | hf
      · exact le_refl _
      · exact hlater f hf
    · exact hlater f hf

theorem pairwise_fencesFrom {lines : List Str} : ∀ {offset lineNo : Nat},
    (fencesFrom offset lineNo lines).Pairwise fun f g => f.offset < g.offset := by
  induction lines with
  | nil => simp [fencesFrom]
  | cons line rest ih =>
    intro offset lineNo
    unfold fencesFrom
    split
    · exact List.pairwise_cons.2 ⟨fun f hf => lt_of_lt_of_le (by simp only; omega) (fencesFrom_offset f hf), ih⟩
    · exact ih

/-- Every record comes from its fence. -/
theorem map_parseFences (text : Str) (fs : List Fence) :
    ((parseFences text fs).1.map fun r => (r.fenceOffset, r.anchor)).Sublist
      (fs.map fun f => (f.offset, f.anchor)) := by
  induction fs with
  | nil => exact List.Sublist.refl _
  | cons fence rest ih =>
    unfold parseFences
    simp only
    split
    · rename_i record hr
      have : (record.fenceOffset, record.anchor) = (fence.offset, fence.anchor) := by
        simp only [parseRecord] at hr
        split at hr
        · cases hr
        · cases hr
          rfl
      rw [List.map_cons, List.map_cons, this]
      exact ih.cons_cons _
    · exact ih.cons _

/-- The offsets of the records ascend. -/
theorem pairwise_parse (text : Str) : (parse text).1.Pairwise fun r s => r.fenceOffset < s.fenceOffset := by
  have h : ((fences text).map fun f => (f.offset, f.anchor)).Pairwise fun a b => a.1 < b.1 :=
    List.pairwise_map.2 pairwise_fencesFrom
  have hs := h.sublist (map_parseFences text (fences text))
  rw [List.pairwise_map] at hs
  exact hs

/-- The lines of a text are parts of it, and the first is where it begins. -/
theorem splitOn_parts (c : Char) (text : Str) :
    ∃ first rest, text.splitOn c = first :: rest ∧ first <+: text ∧ ∀ line ∈ rest, line <:+: text := by
  induction text with
  | nil => exact ⟨[], [], List.splitOn_nil c, List.prefix_refl _, by simp⟩
  | cons x xs ih =>
    obtain ⟨first, rest, he, hf, hr⟩ := ih
    have hc : (x :: xs).splitOn c = if x == c then [] :: xs.splitOn c else (xs.splitOn c).modifyHead (x :: ·) :=
      List.splitOnP_cons_eq_if_modifyHead x xs
    rw [hc, he]
    split
    · refine ⟨[], _, rfl, List.nil_prefix, ?_⟩
      intro line hl
      rcases List.mem_cons.1 hl with rfl | hl
      · exact List.infix_cons hf.isInfix
      · exact List.infix_cons (hr line hl)
    · exact ⟨x :: first, rest, rfl, (List.prefix_cons_inj x).2 hf, fun line hl => List.infix_cons (hr line hl)⟩

theorem sum_splitOn (c : Char) (hc : c.utf8Size = 1) (text : Str) :
    ((text.splitOn c).map fun line => (encode line).length + 1).sum = (encode text).length + 1 := by
  induction text with
  | nil => rfl
  | cons x xs ih =>
    have he : (x :: xs).splitOn c = if x == c then [] :: xs.splitOn c else (xs.splitOn c).modifyHead (x :: ·) :=
      List.splitOnP_cons_eq_if_modifyHead x xs
    rw [he]
    split
    · rename_i hx
      obtain rfl : x = c := by simpa using hx
      rw [List.map_cons, List.sum_cons, ih, encode_cons, List.length_append, String.length_utf8EncodeChar, hc]
      simp only [encode_nil, List.length_nil]
      omega
    · obtain ⟨first, rest, hs, _, _⟩ := splitOn_parts c xs
      rw [hs] at ih ⊢
      simp only [List.modifyHead_cons, List.map_cons, List.sum_cons, encode_cons, List.length_append] at ih ⊢
      omega

theorem fencesFrom_lt {lines : List Str} : ∀ {offset lineNo : Nat}, ∀ f ∈ fencesFrom offset lineNo lines,
    f.offset < offset + (lines.map fun line => (encode line).length + 1).sum := by
  induction lines with
  | nil => simp [fencesFrom]
  | cons line rest ih =>
    intro offset lineNo f hf
    have hlater : ∀ f ∈ fencesFrom (offset + (encode line).length + 1) (lineNo + 1) rest,
        f.offset < offset + ((line :: rest).map fun line => (encode line).length + 1).sum := by
      intro f hf
      have := ih f hf
      rw [List.map_cons, List.sum_cons]
      omega
    unfold fencesFrom at hf
    split at hf
    · rcases List.mem_cons.1 hf with rfl | hf
      · simp only [List.map_cons, List.sum_cons]
        omega
      · exact hlater f hf
    · exact hlater f hf

/-- A record begins inside its text. -/
theorem fenceOffset_le {text : Str} {r : Record} (h : r ∈ (parse text).1) : r.fenceOffset ≤ (encode text).length := by
  have hm := (map_parseFences text (fences text)).subset (List.mem_map.2 ⟨r, h, rfl⟩)
  obtain ⟨f, hf, he⟩ := List.mem_map.1 hm
  have hlt := fencesFrom_lt f hf
  rw [sum_splitOn _ rfl] at hlt
  rw [← (Prod.mk.inj he).1]
  omega

theorem infix_trim (s : Str) : trim s <:+: s :=
  (List.rdropWhile_prefix _ _).isInfix.trans (List.dropWhile_suffix _).isInfix

theorem infix_fenceAnchor {line anchor : Str} (h : fenceAnchor line = some anchor) : anchor <:+: line := by
  unfold fenceAnchor at h
  split at h
  · simp only at h
    split at h
    · cases h
    · cases h
      exact (infix_trim _).trans (List.drop_suffix _ _).isInfix
  · cases h

theorem mem_fencesFrom {lines : List Str} : ∀ {offset lineNo : Nat}, ∀ f ∈ fencesFrom offset lineNo lines,
    ∃ line ∈ lines, fenceAnchor line = some f.anchor := by
  induction lines with
  | nil => simp [fencesFrom]
  | cons line rest ih =>
    intro offset lineNo f hf
    unfold fencesFrom at hf
    split at hf
    · rename_i anchor ha
      rcases List.mem_cons.1 hf with rfl | hf
      · exact ⟨line, List.mem_cons_self, ha⟩
      · obtain ⟨l, hl, h⟩ := ih f hf
        exact ⟨l, List.mem_cons_of_mem _ hl, h⟩
    · obtain ⟨l, hl, h⟩ := ih f hf
      exact ⟨l, List.mem_cons_of_mem _ hl, h⟩

theorem infix_of_mem_splitOn {c : Char} {text line : Str} (h : line ∈ text.splitOn c) : line <:+: text := by
  obtain ⟨first, rest, he, hf, hr⟩ := splitOn_parts c text
  rw [he] at h
  rcases List.mem_cons.1 h with rfl | h
  · exact hf.isInfix
  · exact hr line h

theorem encode_infix {s t : Str} (h : s <:+: t) : encode s <:+: encode t := by
  obtain ⟨a, b, rfl⟩ := h
  exact ⟨encode a, encode b, by simp⟩

/-- The text holds the bytes of every anchor. -/
theorem encode_anchor_infix {text : Str} {r : Record} (h : r ∈ (parse text).1) :
    encode r.anchor <:+: encode text := by
  have hm := (map_parseFences text (fences text)).subset (List.mem_map.2 ⟨r, h, rfl⟩)
  obtain ⟨f, hf, he⟩ := List.mem_map.1 hm
  obtain ⟨line, hl, ha⟩ := mem_fencesFrom f hf
  rw [← (Prod.mk.inj he).2]
  exact encode_infix ((infix_fenceAnchor ha).trans (infix_of_mem_splitOn hl))

end Peiosutils.Regman
