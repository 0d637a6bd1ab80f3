import Peiosutils.Lib.Nested

/-!
# A cursor over a payload

The reader of payloads is not part of the repository. It can look at the type of the next value and read it: a scalar
whole, of an array or a map only the header. What is relied on is `Lawful`.
-/

set_option autoImplicit false

namespace Peiosutils.Revstrm

open Nested (Values)

/-- The types of values. -/
inductive Ty where
  | nil
  | bool
  | int
  | float
  | str
  | bin
  | ext
  | array
  | map
  deriving DecidableEq, Repr

inductive ReadOp where
  | nil
  | bool
  | uint
  | int
  | float
  | str
  | bin
  | ext
  | array
  | map
  deriving DecidableEq, Repr

namespace ReadOp

/-- The type of the values that can be read. -/
def type : ReadOp → Ty
  | nil => .nil
  | bool => .bool
  | uint => .int
  | int => .int
  | float => .float
  | str => .str
  | bin => .bin
  | ext => .ext
  | array => .array
  | map => .map

/-- What is read; a float by its bits, and of an array or a map how many elements or pairs it has. -/
abbrev Result : ReadOp → Type
  | nil => Unit
  | bool => Bool
  | uint => UInt64
  | int => Int64
  | float => UInt64
  | str => String
  | bin => List UInt8
  | ext => Int × List UInt8
  | array => Nat
  | map => Nat

/-- How many values follow a header. -/
def following : (op : ReadOp) → op.Result → Nat
  | array, n => n
  | map, n => n + n
  | _, _ => 0

end ReadOp

structure Reader (σ ε : Type) where
  peek : σ → Option Ty
  read : (op : ReadOp) → σ → Except ε op.Result × σ
  remaining : σ → Nat

namespace Reader

variable {σ ε : Type} (R : Reader σ ε)

/-- What can be read next: an item with its own values behind it. -/
inductive Item (s : σ) : Nat → σ → Prop
  | mk {op : ReadOp} {v : op.Result} {t : σ} (h : R.read op s = (.ok v, t)) : Item s (op.following v) t

/-- One value whole. -/
def Whole (s t : σ) : Prop := Values R.Item 1 s t

/-- What is relied on. -/
structure Lawful : Prop where
  /-- A value is of the type it is read as. -/
  typed {op : ReadOp} {v : op.Result} {s t : σ} : R.read op s = (.ok v, t) → R.peek s = some op.type
  /-- Every way to read a value takes that value only. -/
  same {op op' : ReadOp} {v : op.Result} {v' : op'.Result} {s t t' : σ} :
    R.read op s = (.ok v, t) → R.read op' s = (.ok v', t') → t = t'
  /-- A failure leaves the cursor in place, unless there is no value to be read. -/
  inPlace {op : ReadOp} {e : ε} {s t : σ} : R.read op s = (.error e, t) →
    t = s ∨ ∀ (op' : ReadOp) (v : op'.Result) (u : σ), R.read op' s ≠ (.ok v, u) ∧ R.read op' t ≠ (.ok v, u)
  shorter {op : ReadOp} {v : op.Result} {s t : σ} : R.read op s = (.ok v, t) → R.remaining t < R.remaining s

variable {R} {s t u : σ} {k k' n : Nat}

theorem eq_of_type_eq {op op' : ReadOp} (h : op'.type = op.type) (hint : op.type ≠ .int) : op' = op := by
  cases op <;> cases op' <;> first | rfl | exact absurd rfl hint | cases h

theorem following_int {op : ReadOp} (h : op.type = .int) (v : op.Result) : op.following v = 0 := by
  cases op <;> first | rfl | cases h

/-- An item is read in one way only. -/
theorem Lawful.item_unique (hR : R.Lawful) (h : R.Item s k t) (h' : R.Item s k' u) : k = k' ∧ t = u := by
  obtain @⟨op, v, t, hread⟩ := h
  obtain @⟨op', v', u, hread'⟩ := h'
  have htype : op'.type = op.type := Option.some.inj ((hR.typed hread').symm.trans (hR.typed hread))
  refine ⟨?_, hR.same hread hread'⟩
  by_cases hint : op.type = .int
  · rw [following_int hint, following_int (htype.trans hint)]
  · obtain rfl := eq_of_type_eq htype hint
    cases hread.symm.trans hread'
    rfl

theorem Lawful.item_shorter (hR : R.Lawful) (h : R.Item s k t) : R.remaining t < R.remaining s := by
  obtain ⟨hread⟩ := h
  exact hR.shorter hread

theorem Lawful.values_unique (hR : R.Lawful) (h : Values R.Item n s t) (h' : Values R.Item n s u) : t = u :=
  Values.unique (fun s k _ t _ (hitem : R.Item s k t) hitem' => hR.item_unique hitem hitem') h h'

theorem Lawful.remaining_le (hR : R.Lawful) (h : Values R.Item n s t) : R.remaining t ≤ R.remaining s := by
  have hle := h.measure_le (f := R.remaining) fun _ _ _ hitem => hR.item_shorter hitem
  omega

end Reader

/-! ## A reader of tokens -/

inductive Token where
  | nil
  | bool (b : Bool)
  | int (i : Int)
  | float (bits : UInt64)
  | str (s : String)
  | bin (b : List UInt8)
  | ext (ty : Int) (data : List UInt8)
  | array (n : Nat)
  | map (n : Nat)

namespace Token

def type : Token → Ty
  | nil => .nil
  | bool _ => .bool
  | int _ => .int
  | float _ => .float
  | str _ => .str
  | bin _ => .bin
  | ext _ _ => .ext
  | array _ => .array
  | map _ => .map

/-- A token as what is to be read; an integer only if it fits. -/
def as : Token → (op : ReadOp) → Option op.Result
  | nil, .nil => some ()
  | bool b, .bool => some b
  | int i, .uint => if 0 ≤ i ∧ i < 18446744073709551616 then some (UInt64.ofNat i.toNat) else none
  | int i, .int => if -9223372036854775808 ≤ i ∧ i < 9223372036854775808 then some (Int64.ofInt i) else none
  | float bits, .float => some bits
  | str s, .str => some s
  | bin b, .bin => some b
  | ext ty data, .ext => some (ty, data)
  | array n, .array => some n
  | map n, .map => some n
  | _, _ => none

theorem type_of_as {token : Token} {op : ReadOp} {v : op.Result} (h : token.as op = some v) : token.type = op.type := by
  cases token <;> cases op <;> first | rfl | cases h

end Token

variable {σ : Type}

namespace Reader

/-- The reader of what is decoded; what cannot be read is left. -/
def ofDecode (decode : σ → Option (Token × σ)) (remaining : σ → Nat) : Reader σ Unit where
  peek s := (decode s).map fun r => r.1.type
  read op s :=
    match (decode s).bind fun r => (r.1.as op).map fun v => (v, r.2) with
    | some (v, t) => (.ok v, t)
    | none => (.error (), s)
  remaining := remaining

theorem read_ofDecode {decode : σ → Option (Token × σ)} {remaining : σ → Nat} {op : ReadOp} {v : op.Result} {s t : σ}
    (h : (ofDecode decode remaining).read op s = (.ok v, t)) :
    ∃ token, decode s = some (token, t) ∧ token.as op = some v := by
  simp only [ofDecode] at h
  split at h
  next heq =>
    cases h
    obtain ⟨⟨token, t⟩, hdecode, hmap⟩ := Option.bind_eq_some_iff.1 heq
    obtain ⟨v, hv, hpair⟩ := Option.map_eq_some_iff.1 hmap
    cases hpair
    exact ⟨token, hdecode, hv⟩
  next => cases h

/-- Decoding tokens is lawful. -/
theorem lawful_ofDecode {decode : σ → Option (Token × σ)} {remaining : σ → Nat}
    (h : ∀ s token t, decode s = some (token, t) → remaining t < remaining s) : (ofDecode decode remaining).Lawful where
  typed := by
    intro op v s t hread
    obtain ⟨token, hdecode, hv⟩ := read_ofDecode hread
    exact (congrArg (Option.map _) hdecode).trans (congrArg some (Token.type_of_as hv))
  same := by
    intro op op' v v' s t t' hread hread'
    obtain ⟨token, hdecode, -⟩ := read_ofDecode hread
    obtain ⟨token', hdecode', -⟩ := read_ofDecode hread'
    cases hdecode.symm.trans hdecode'
    rfl
  inPlace := by
    intro op e s t hread
    simp only [ofDecode] at hread
    split at hread
    · cases hread
    · cases hread
      exact .inl rfl
  shorter := by
    intro op v s t hread
    obtain ⟨token, hdecode, -⟩ := read_ofDecode hread
    exact h s token t hdecode

end Reader

end Peiosutils.Revstrm

/-!
# Rendering payloads (`revstrm.rs`)

Two renderers go over the same values, one onto one line and one onto many. Both format a value by the type that the
catalogue declares for its path, or by the end of its key. Fuel bounds how deep values are nested; without it there is
no result. The formatters of the catalogue's types are parameters.
-/

namespace Peiosutils.Revstrm

/-! ## Steps of the cursor -/

/-- A step may fail; the cursor moves nevertheless. -/
def Run (σ ε α : Type) : Type := σ → Option (Except ε α × σ)

variable {σ ε α β : Type}

namespace Run

def andThen (f : Run σ ε α) (g : α → Run σ ε β) : Run σ ε β := fun s =>
  match f s with
  | none => none
  | some (.error e, t) => some (.error e, t)
  | some (.ok a, t) => g a t

instance : Monad (Run σ ε) where
  pure a := fun s => some (.ok a, s)
  bind := andThen

/-- `f` once for each of `n` elements. -/
def times (f : Run σ ε α) : Nat → Run σ ε (List α)
  | 0 => pure []
  | n + 1 => do
    let a ← f
    let as ← times f n
    return a :: as

/-- The value that the first step returns, or else the second step. -/
def orElse (f : Run σ ε (Option α)) (g : Run σ ε α) : Run σ ε α := do
  match ← f with
  | some a => return a
  | none => g

/-- The value that the first step returns, or else what the second one may return. -/
def or (f g : Run σ ε (Option α)) : Run σ ε (Option α) := do
  match ← f with
  | some a => return some a
  | none => g

end Run

open Run

namespace Reader

variable (R : Reader σ ε)

def peekRun : Run σ ε (Option Ty) := fun s => some (.ok (R.peek s), s)

def readRun (op : ReadOp) : Run σ ε op.Result := fun s => some (R.read op s)

/-- An integer as unsigned, or else as signed. -/
def integer (onUint : UInt64 → α) (onInt : Int64 → α) : Run σ ε α := fun s =>
  match R.read .uint s with
  | (.ok u, t) => some (.ok (onUint u), t)
  | (.error _, t) =>
    match R.read .int t with
    | (.ok i, t) => some (.ok (onInt i), t)
    | (.error e, t) => some (.error e, t)

end Reader

/-! ## Texts -/

abbrev Bytes := List UInt8

/-- The formatters for types of the catalogue, and those of floats and of quoted strings. -/
structure Formats where
  float : UInt64 → String
  debug : String → String
  sidToString : Bytes → Option String
  formatGuid : Bytes → Option String
  formatTime : UInt64 → String
  formatDuration : UInt64 → String
  formatBytes : UInt64 → String
  formatFlags : Option String → UInt64 → String
  formatEnum : Option String → UInt64 → String
  formatIntegrity : UInt64 → String
  formatErrno : Int64 → String

def hex (n : Nat) : String := String.ofList (Nat.toDigits 16 n)

/-- With zeros in front. -/
def hexPadded (width n : Nat) : String :=
  String.ofList (List.replicate (width - (Nat.toDigits 16 n).length) '0') ++ hex n

def hexPreview (bytes : Bytes) : String :=
  "0x" ++ String.join ((bytes.take 32).map fun b => hexPadded 2 b.toNat) ++ if 32 < bytes.length then "…" else ""

def bracketed (parts : List String) : String := "[" ++ ", ".intercalate parts ++ "]"

/-- The access-mask bits, low to high. -/
def accessFlags : List (UInt32 × String) :=
  [(0x00000001, "FILE_READ_DATA"), (0x00000002, "FILE_WRITE_DATA"), (0x00000004, "FILE_APPEND_DATA"),
    (0x00000008, "FILE_READ_EA"), (0x00000010, "FILE_WRITE_EA"), (0x00000020, "FILE_EXECUTE"),
    (0x00000040, "FILE_DELETE_CHILD"), (0x00000080, "FILE_READ_ATTRIBUTES"), (0x00000100, "FILE_WRITE_ATTRIBUTES"),
    (0x00010000, "DELETE"), (0x00020000, "READ_CONTROL"), (0x00040000, "WRITE_DAC"), (0x00080000, "WRITE_OWNER"),
    (0x00100000, "SYNCHRONIZE"), (0x01000000, "ACCESS_SYSTEM_SECURITY"), (0x02000000, "MAXIMUM_ALLOWED"),
    (0x10000000, "GENERIC_ALL"), (0x20000000, "GENERIC_EXECUTE"), (0x40000000, "GENERIC_WRITE"),
    (0x80000000, "GENERIC_READ")]

/-- Only of a file the object-specific bits have names. -/
def decodeAccessMaskFor (mask : UInt32) (kind : Option String) : String :=
  if mask = 0 then "0 (none)"
  else
    let file := kind = none ∨ kind = some "file"
    let (parts, remaining) := accessFlags.foldl (fun (parts, remaining) (bit, name) =>
      if ¬ file ∧ bit ≤ 0xffff then (parts, remaining)
      else if remaining &&& bit ≠ 0 then (parts ++ [name], remaining &&& ~~~bit)
      else (parts, remaining)) ([], mask)
    let s := "|".intercalate parts
    if remaining ≠ 0 then s ++ (if s = "" then "" else "|") ++ "0x" ++ hexPadded 8 remaining.toNat else s

def decodeAccessMask (mask : UInt32) : String := decodeAccessMaskFor mask none

/-- A mask, or a number that is too large for one. -/
def maskText (kind : Option String) (u : UInt64) : String :=
  if u.toNat < 4294967296 then decodeAccessMaskFor u.toUInt32 kind else toString u.toNat

def joinPath (parent key : String) : String := if parent = "" then key else parent ++ "." ++ key

def asciiLower (s : String) : String := s.map Char.toLower

/-! ## Values with a declared type -/

/-- What the catalogue declares for a path. -/
structure Spec where
  ty : String
  values : Option String

structure Ctx where
  schema : String → Option Spec
  kind : Option String

/-- No catalogue. -/
def Ctx.none : Ctx := ⟨fun _ => Option.none, Option.none⟩

def isTyped (base : String) : Bool :=
  ["bin.sid", "bin.guid", "uint.time", "uint.duration", "uint.bytes", "uint.mask", "uint.access-mask", "uint.flags",
    "uint.enum", "uint.luid", "uint.integrity", "int.errno"].contains base

section Render

variable (R : Reader σ ε) (F : Formats)

def uintText (ctx : Ctx) (base : String) (values : Option String) (u : UInt64) : String :=
  if base = "uint.time" then F.formatTime u
  else if base = "uint.duration" then F.formatDuration u
  else if base = "uint.bytes" then F.formatBytes u
  else if base = "uint.mask" ∨ base = "uint.access-mask" then maskText ctx.kind u
  else if base = "uint.flags" then F.formatFlags values u
  else if base = "uint.enum" then F.formatEnum values u
  else if base = "uint.luid" then "0x" ++ hex u.toNat
  else if base = "uint.integrity" then F.formatIntegrity u
  else toString u.toNat

def intText (base : String) (i : Int64) : String :=
  if base = "int.errno" then F.formatErrno i else toString i.toInt

def renderScalar (ctx : Ctx) (base : String) (values : Option String) : Run σ ε (Option String) :=
  if isTyped base then do
    let ty ← R.peekRun
    if base = "bin.sid" ∧ ty = some .bin then
      let b ← R.readRun .bin
      return some ((F.sidToString b).getD (hexPreview b))
    else if base = "bin.guid" ∧ ty = some .bin then
      let b ← R.readRun .bin
      return some ((F.formatGuid b).getD (hexPreview b))
    else if ty = some .int then
      R.integer (fun u => some (uintText F ctx base values u)) fun i => some (intText F base i)
    else return none
  else pure none

/-- `strip_suffix`. -/
def stripArray (ty : String) : Option String :=
  if ty.toList.drop (ty.length - 2) = ['[', ']'] then some (String.ofList (ty.toList.take (ty.length - 2))) else none

section Plain

variable (compactIn : Ctx → String → Run σ ε String)

def renderBySpec (ctx : Ctx) (path : String) (spec : Spec) : Run σ ε (Option String) :=
  match stripArray spec.ty with
  | some base => do
    let ty ← R.peekRun
    if isTyped base ∧ ty = some .array then
      let n ← R.readRun .array
      let parts ← (renderScalar R F ctx base spec.values |>.orElse (compactIn ctx path)).times n
      return some (bracketed parts)
    else return none
  | none => renderScalar R F ctx spec.ty spec.values

/-- An element of a list of SIDs. -/
def sidElement : Run σ ε String := do
  let ty ← R.peekRun
  if ty = some .bin then
    let b ← R.readRun .bin
    return (F.sidToString b).getD (hexPreview b)
  else compactIn .none ""

def renderSidField (key : String) : Run σ ε (Option String) := do
  let key := asciiLower key
  let ty ← R.peekRun
  if key.endsWith "sids" then
    if ty = some .array then
      let n ← R.readRun .array
      let parts ← (sidElement R F compactIn).times n
      return some (bracketed parts)
    else return none
  else if key.endsWith "sid" ∧ ty = some .bin then
    let b ← R.readRun .bin
    return some ((F.sidToString b).getD (hexPreview b))
  else return none

def renderAccessField (key : String) : Run σ ε (Option String) := do
  let ty ← R.peekRun
  if (asciiLower key).endsWith "access" ∧ ty = some .int then
    R.integer (fun u => some (maskText none u)) fun i => some (toString i.toInt)
  else return none

def renderSpecialValue (key : String) : Run σ ε (Option String) :=
  (renderSidField R F compactIn key).or (renderAccessField R key)

def renderTyped (ctx : Ctx) (path key : String) : Run σ ε (Option String) :=
  match ctx.schema path with
  | some spec => renderBySpec R F compactIn ctx path spec
  | none => renderSpecialValue R F compactIn key

/-! ## One line -/

def compactPair (ctx : Ctx) (path : String) : Run σ ε String := do
  let ty ← R.peekRun
  if ty = some .str then
    let key ← R.readRun .str
    let child := joinPath path key
    let value ← (renderTyped R F compactIn ctx child key).orElse (compactIn ctx child)
    return F.debug key ++ ": " ++ value
  else
    let key ← compactIn ctx path
    let value ← compactIn ctx path
    return key ++ ": " ++ value

end Plain

def compactIn : (fuel : Nat) → Ctx → String → Run σ ε String
  | 0, _, _ => fun _ => none
  | fuel + 1, ctx, path => do
    match ← R.peekRun with
    | none => do
      -- There is no value, so that this fails.
      let _ ← R.readRun .nil
      return ""
    | some .nil => do
      let _ ← R.readRun .nil
      return "nil"
    | some .bool => do
      let b ← R.readRun .bool
      return if b then "true" else "false"
    | some .int => R.integer (fun u => toString u.toNat) fun i => toString i.toInt
    | some .float => do
      let x ← R.readRun .float
      return F.float x
    | some .str => do
      let s ← R.readRun .str
      return F.debug s
    | some .bin => do
      let b ← R.readRun .bin
      return hexPreview b
    | some .ext => do
      let e ← R.readRun .ext
      return "ext(" ++ toString e.1 ++ ", " ++ toString e.2.length ++ " byte(s))"
    | some .array => do
      let n ← R.readRun .array
      let parts ← (compactIn fuel ctx path).times n
      return bracketed parts
    | some .map => do
      let n ← R.readRun .map
      let parts ← (compactPair R F (compactIn fuel) ctx path).times n
      return "\x7b" ++ ", ".intercalate parts ++ "\x7d"

/-! ## Many lines -/

/-- A fragment for the line of a key, or a block of lines below it. -/
inductive Pretty where
  | inline (s : String)
  | block (s : String)

def spaces (n : Nat) : String := String.ofList (List.replicate n ' ')

/-- The rows of a map, with the values behind a column of keys. -/
def mapBlock (indent : Nat) (rows : List (String × Pretty)) : String :=
  let width := rows.foldl (fun width row => max width row.1.utf8ByteSize) 0
  String.join <| rows.map fun row =>
    match row.2 with
    | .inline s => spaces indent ++ row.1 ++ spaces (width - row.1.length) ++ "  " ++ s ++ "\n"
    | .block b => spaces indent ++ row.1 ++ ":\n" ++ b

/-- The elements of an array, on one line if none is a block. -/
def arrayPretty (indent : Nat) (elems : List Pretty) : Pretty :=
  if elems.any fun p => match p with | .inline _ => false | .block _ => true then
    .block <| String.join <| elems.zipIdx.map fun elem =>
      match elem.1 with
      | .inline s => spaces indent ++ "[" ++ toString elem.2 ++ "]  " ++ s ++ "\n"
      | .block b => spaces indent ++ "[" ++ toString elem.2 ++ "]:\n" ++ b
  else
    .inline <| bracketed <| elems.map fun p =>
      match p with
      | .inline s => s
      | .block _ => ""

def keyLabel (compactIn : Ctx → String → Run σ ε String) : Run σ ε String := do
  let ty ← R.peekRun
  if ty = some .str then R.readRun .str else compactIn .none ""

/-- A value with a declared type stands on the line of its key. -/
def Run.inlined (f : Run σ ε (Option String)) : Run σ ε (Option Pretty) := do
  let rendered ← f
  return rendered.map .inline

/-- A key and its value. -/
def renderRow (compactIn : Ctx → String → Run σ ε String) (renderValue : String → Run σ ε Pretty) (ctx : Ctx)
    (path : String) : Run σ ε (String × Pretty) := do
  let key ← keyLabel R compactIn
  let child := joinPath path key
  let value ← ((renderTyped R F compactIn ctx child key).inlined).orElse (renderValue child)
  return (key, value)

def renderValue : (fuel indent : Nat) → Ctx → String → Run σ ε Pretty
  | 0, _, _, _ => fun _ => none
  | fuel + 1, indent, ctx, path => do
    match ← R.peekRun with
    | some .map => do
      let n ← R.readRun .map
      let rows ← (renderRow R F (compactIn R F fuel) (renderValue fuel (indent + 2) ctx) ctx path).times n
      return if n = 0 then .inline "\x7b\x7d" else .block (mapBlock indent rows)
    | some .array => do
      let n ← R.readRun .array
      let elems ← (renderValue fuel (indent + 2) ctx path).times n
      return if n = 0 then .inline "[]" else arrayPretty indent elems
    | _ => do
      let s ← compactIn R F (fuel + 1) ctx path
      return .inline s

end Render

end Peiosutils.Revstrm
