import Peiosutils.Mkirf.Hooks
import Peiosutils.Lib.Lines
import Peiosutils.Regman.Fragment

/-!
# Finding the hooks of a tree, and writing their sequence (`hooks.rs`)

A hook is a regular file in one of the hook directories; its ordering keys stand in a fenced comment block, in a small
part of TOML. What the directories hold, symlinks followed, is a parameter. `renderSeq` and `renderSeqV2` are the two
generated sequence files.
-/

set_option autoImplicit false

namespace Peiosutils.Mkirf

open Keyed Utf8
open Regman (Str trim isWhitespace splitOnce)

/-! ## The metadata block -/

/-- The four ordering keys. -/
inductive Key where
  | provides
  | contributes
  | requires
  | after
  deriving DecidableEq, Repr

def Key.text : Key → Str
  | .provides => "provides".toList
  | .contributes => "contributes".toList
  | .requires => "requires".toList
  | .after => "after".toList

/-- The keys in the order in which they are written. -/
def Key.all : List Key := [.provides, .contributes, .requires, .after]

def Key.ofText (s : Str) : Option Key := Key.all.find? fun key => key.text = s

/-- The metadata extracted from a single hook script. -/
structure ParsedBlock where
  provides : List String := []
  contributes : List String := []
  requires : List String := []
  after : List String := []
  hasBlock : Bool := false
  deriving DecidableEq, Repr

/-- `s.trim_end()`. -/
def trimEnd (s : Str) : Str := s.rdropWhile isWhitespace

/-- What stands between `a` in front of `s` and `b` behind it. -/
def between (a b : Char) (s : Str) : Option Str :=
  match s with
  | [] => none
  | c :: r => if c = a ∧ r.getLast? = some b then some r.dropLast else none

def isAsciiAlphanumeric (c : Char) : Bool :=
  ('a' ≤ c && c ≤ 'z') || ('A' ≤ c && c ≤ 'Z') || ('0' ≤ c && c ≤ '9')

/-- A letter or digit, then any of letters, digits, `.`, `_`, `-`. -/
def isCapabilityToken (s : Str) : Bool :=
  match s with
  | [] => false
  | c :: s => isAsciiAlphanumeric c && s.all fun c => isAsciiAlphanumeric c || c = '.' || c = '_' || c = '-'

/-- One element of an array. -/
def parseElement (elem : Str) : Except String String :=
  let shown := String.ofList elem
  if elem = [] then .error "empty array element (doubled comma?)"
  else
    match between '"' '"' elem with
    | none => .error s!"array element `{shown}` is not a double-quoted string"
    | some value =>
      let name := String.ofList value
      if isCapabilityToken value then .ok name
      else .error (s!"capability name `{name}` is not a bare token " ++
        "(letters or digits, then any of letters, digits, `.`, `_`, `-`)")

def parseElements : List Str → Except String (List String)
  | [] => .ok []
  | elem :: elems => do
    let value ← parseElement elem
    let out ← parseElements elems
    return value :: out

/-- A TOML inline array of double-quoted strings. -/
def parseStringArray (s : Str) : Except String (List String) :=
  let shown := String.ofList s
  match between '[' ']' s with
  | none => .error s!"expected an array `[...]`, found `{shown}`"
  | some inner =>
    let inner := trim inner
    if inner = [] then .ok []
    else
      let elems := (inner.splitOn ',').map trim
      -- a single trailing comma is permitted, as in TOML
      parseElements (if elems.getLast? = some [] then elems.dropLast else elems)

/-- What has been assigned so far. -/
abbrev Slots := Key → Option (List String)

/-- One line of the block. -/
def parseAssignment (slots : Slots) (lineno : Nat) (raw : Str) : Except String Slots :=
  let line := trim raw
  if line = [] ∨ line.head? = some '#' then .ok slots
  else
    match splitOnce '=' line with
    | none => .error s!"line {lineno}: expected `key = [...]`"
    | some (key, value) =>
      let shown := String.ofList (trim key)
      match Key.ofText (trim key) with
      | none => .error (s!"line {lineno}: unknown key `{shown}` " ++
          "(expected `provides`, `contributes`, `requires` or `after`)")
      | some key =>
        if (slots key).isSome then .error s!"line {lineno}: duplicate key `{shown}`"
        else
          match parseStringArray (trim value) with
          | .error e => .error s!"line {lineno}: {e}"
          | .ok caps => .ok (Function.update slots key (some caps))

def parseAssignments (slots : Slots) : List (Nat × Str) → Except String Slots
  | [] => .ok slots
  | (lineno, raw) :: content => do
    let slots ← parseAssignment slots lineno raw
    parseAssignments slots content

def parseTomlSubset (content : List (Nat × Str)) : Except String ParsedBlock := do
  let slots ← parseAssignments (fun _ => none) content
  return {
    provides := (slots .provides).getD []
    contributes := (slots .contributes).getD []
    requires := (slots .requires).getD []
    after := (slots .after).getD [] }

/-- `# /// hook`. -/
def blockOpen : Str := "# /// hook".toList

/-- `# ///`. -/
def blockClose : Str := "# ///".toList

/-- The content of the block from line `lineno` on, up to its closing line. -/
def blockContent : Nat → List Str → Except String (List (Nat × Str))
  | _, [] => .error "`# /// hook` block is never closed with `# ///`"
  | lineno, line :: lines =>
    if trimEnd line = blockClose then .ok []
    else do
      let body ←
        match line with
        | '#' :: ' ' :: rest => .ok rest
        | _ =>
          if trimEnd line = ['#'] then .ok []
          else .error s!"line {lineno}: content inside the metadata block must be `# `-prefixed"
      let content ← blockContent (lineno + 1) lines
      return (lineno, body) :: content

/-- A hook's ordering metadata, from its script text. -/
def parseBlock (text : Str) : Except String ParsedBlock :=
  let lines := Regman.lines text
  match lines.findIdx? fun l => trimEnd l = blockOpen with
  | none => .ok {}
  | some start =>
    if (lines.drop (start + 1)).any fun l => trimEnd l = blockOpen then
      .error "more than one `# /// hook` metadata block"
    else do
      let content ← blockContent (start + 2) (lines.drop (start + 1))
      let parsed ← parseTomlSubset content
      return { parsed with hasBlock := true }

/-! ## Discovery -/

/-- Where hooks are looked for, highest precedence first. -/
def HOOK_DIRS : List String := ["lcl/libexec/prelude/hooks.d", "usr/libexec/prelude/hooks.d", "hooks"]

def LEGACY_HOOK_DIR : String := "hooks"

/-- One item of a hook directory: its name, and what is found there when symlinks are followed. -/
structure DirItem where
  name : List UInt8
  /-- `fs::metadata(&path)`, and whether it is a regular file. -/
  isFile : Except String Bool
  /-- `fs::read_to_string(&path)`. -/
  text : Except String Str

/-- `fs::read_dir`, whose items can fail one by one. -/
abbrev Listing := Except String (List (Except String DirItem))

/-- An item as a hook of the directory that is `dest` inside the image. -/
def discoverItem (hooksDir dest : String) (item : DirItem) : Except String (Option Hook) :=
  let name := lossy item.name
  match item.isFile with
  | .error e => .error s!"{hooksDir}/{name}: {e}"
  | .ok false => .ok none
  | .ok true =>
    match item.text with
    | .error e => .error s!"hook `{name}`: {e}"
    | .ok text =>
      match parseBlock text with
      | .error e => .error s!"hook `{name}`: {e}"
      | .ok parsed =>
        .ok (some {
          name
          path := "/" ++ dest ++ "/" ++ name
          provides := parsed.provides
          contributes := parsed.contributes
          requires := parsed.requires
          after := parsed.after
          hasBlock := parsed.hasBlock })

def discoverItems (hooksDir dest : String) : List (Except String DirItem) → Except String (List Hook)
  | [] => .ok []
  | .error e :: _ => .error s!"{hooksDir}: {e}"
  | .ok item :: items => do
    let hook ← discoverItem hooksDir dest item
    let hooks ← discoverItems hooksDir dest items
    return hook.toList ++ hooks

/-- The hooks of one directory, by name. -/
def discoverIn (hooksDir dest : String) (listing : Listing) : Except String (List Hook) :=
  match listing with
  | .error e => .error s!"{hooksDir}: {e}"
  | .ok items => do
    let hooks ← discoverItems hooksDir dest items
    return sortOn Hook.nameBytes hooks

/-- Hooks and advisories. -/
abbrev Found := List Hook × List String

def shadowedWarning (hook winner : Hook) : String :=
  "hook `" ++ hook.name ++ "` at " ++ hook.path ++ " is shadowed by " ++ winner.path

def legacyWarning (hook : Hook) : String :=
  "hook `" ++ hook.name ++ "` is in the legacy /" ++ LEGACY_HOOK_DIR ++ " directory; " ++
    "move it to /usr/libexec/prelude/hooks.d (packaged) or /lcl/libexec/prelude/hooks.d (local)"

/-- A hook is left out when one of its name was found before it. -/
def addHook (dest : String) (found : Found) (hook : Hook) : Found :=
  match found.1.find? fun h => h.name = hook.name with
  | some winner => (found.1, found.2 ++ [shadowedWarning hook winner])
  | none => (found.1 ++ [hook], found.2 ++ if dest = LEGACY_HOOK_DIR then [legacyWarning hook] else [])

/-- The directories from the first on; `dirs dest` is the listing of a directory, if it is one. -/
def discoverDirs (root : String) (dirs : String → Option Listing) : Found → List String → Except String Found
  | found, [] => .ok found
  | found, dest :: dests =>
    match dirs dest with
    | none => discoverDirs root dirs found dests
    | some listing => do
      let hooks ← discoverIn (root ++ "/" ++ dest) dest listing
      discoverDirs root dirs (hooks.foldl (addHook dest) found) dests

/-- The hooks of every directory, by name. -/
def discoverAll (root : String) (dirs : String → Option Listing) : Except String Found := do
  let found ← discoverDirs root dirs ([], []) HOOK_DIRS
  return (sortOn Hook.nameBytes found.1, found.2)

/-! ## The sequence files -/

def seqVersionLine : Str := "hookseq 1".toList

def seqV2VersionLine : Str := "hookseq 2".toList

/-- Lines, each ended by a newline. -/
def unlines (lines : List Str) : Str := lines.flatMap fun line => line ++ ['\n']

/-- The marker, then one hook path per line. -/
def renderSeq (order : List String) : List UInt8 := encode (unlines (seqVersionLine :: order.map String.toList))

/-- What a hook lists under a key. -/
def Hook.caps (h : Hook) : Key → List String
  | .provides => h.provides
  | .contributes => h.contributes
  | .requires => h.requires
  | .after => h.after

/-- A key and what is listed under it, each behind a space. -/
def keyLine (key : Key) (caps : List String) : Str := key.text ++ caps.flatMap fun cap => ' ' :: cap.toList

/-- The declaration lines of a hook: keys with nothing to say are left out. -/
def keyLines (h : Hook) : List Str :=
  (Key.all.filter fun key => h.caps key ≠ []).map fun key => keyLine key (h.caps key)

/-- `by_path`, in which a later hook replaces an earlier one of the same path. -/
def byPath (hooks : List Hook) (path : String) : Option Hook := hooks.reverse.find? fun h => h.path = path

/-- `hook ` and a path. -/
def hookLine (path : String) : Str := "hook ".toList ++ path.toList

/-- The stanza of one path of the order. -/
def stanzaLines (hooks : List Hook) (path : String) : List Str :=
  hookLine path :: ((byPath hooks path).map keyLines).getD []

/-- The marker, then one stanza per hook in resolved order. -/
def renderSeqV2 (hooks : List Hook) (order : List String) : List UInt8 :=
  encode (unlines (seqV2VersionLine :: order.flatMap (stanzaLines hooks)))

end Peiosutils.Mkirf
