import Mathlib.Data.Nat.Log
import Peiosutils.Lib.Hex
import Peiosutils.Regman.Fragment

/-!
# Values in a registry document (`registry-docs`)

A value is written with its name, the keyword of its type, and its data as JSON of that type, or its bytes in hex where
JSON cannot hold them. What the registry crate knows of types and their data is a parameter (`Registry`).
-/

set_option autoImplicit false

namespace Peiosutils.RegDocs

open Utf8 Hex
open Regman (isWhitespace)

abbrev Str := List Char

/-! ## The registry crate -/

/-- The numbers of the value types. -/
structure ValueTypes where
  none : UInt32
  sz : UInt32
  expandSz : UInt32
  binary : UInt32
  dword : UInt32
  dwordBigEndian : UInt32
  link : UInt32
  multiSz : UInt32
  qword : UInt32
  tombstone : UInt32
  distinct : [none, sz, expandSz, binary, dword, dwordBigEndian, link, multiSz, qword, tombstone].Nodup

inductive Data where
  | sz (s : Str)
  | expandSz (s : Str)
  | link (s : Str)
  | dword (n : UInt32)
  | dwordBigEndian (n : UInt32)
  | qword (n : UInt64)
  | multiSz (list : List Str)
  | binary (bytes : List UInt8)
  | none
  | raw (ty : UInt32) (bytes : List UInt8)
  deriving DecidableEq, Repr

/-- The type that data is of. -/
def Data.type (types : ValueTypes) : Data → UInt32
  | sz _ => types.sz
  | expandSz _ => types.expandSz
  | link _ => types.link
  | dword _ => types.dword
  | dwordBigEndian _ => types.dwordBigEndian
  | qword _ => types.qword
  | multiSz _ => types.multiSz
  | binary _ => types.binary
  | none => types.none
  | raw ty _ => ty

def Data.IsRaw : Data → Prop
  | raw _ _ => True
  | _ => False

/-- `Data::decode` and `Data::encode`. -/
structure Registry where
  types : ValueTypes
  decode : UInt32 → List UInt8 → Data
  encode : Data → List UInt8

/-- What the crate documents: data is of the type that it is read as, what is not left raw is exact, and `REG_NONE` has
no data. -/
structure Registry.Lawful (r : Registry) : Prop where
  typed : ∀ ty bytes, (r.decode ty bytes).type r.types = ty
  exact : ∀ ty bytes, ¬ (r.decode ty bytes).IsRaw → r.encode (r.decode ty bytes) = bytes
  empty : r.encode .none = []

/-! ## JSON -/

/-- `serde_json::Value`, with whole numbers only. -/
inductive Json where
  | null
  | bool (b : Bool)
  | number (n : Int)
  | string (s : Str)
  | array (items : List Json)
  | object (members : List (Str × Json))

def Json.asStr : Json → Option Str
  | string s => some s
  | _ => none

def Json.asU64 : Json → Option UInt64
  | number (.ofNat n) => if n < 2 ^ 64 then some (UInt64.ofNat n) else none
  | _ => none

def Json.asArray : Json → Option (List Json)
  | array items => some items
  | _ => none

/-- `Error::Invalid`. -/
structure Invalid where
  why : String
  deriving DecidableEq, Repr

/-! ## Hex -/

/-- Lowercase hex with no separators. -/
def hex (bytes : List UInt8) : Str := bytes.flatMap fun b => hexDigits 2 b.toNat

/-- The bytes of pairs of digits. -/
def pairs : List UInt8 → List UInt8
  | a :: b :: digits => UInt8.ofNat ((fromHex [a, b]).getD 0) :: pairs digits
  | _ => []

/-- Bytes from hex, any of `:`, `-` and whitespace between them ignored. -/
def unhex (text : Str) : Except Invalid (List UInt8) :=
  let digits := Utf8.encode (text.filter fun c => !isWhitespace c && !(c = ':' || c = '-'))
  if digits.length % 2 ≠ 0 ∨ digits.any (fun d => (digitValue d).isNone) then .error ⟨"hex: bad or odd-length hex"⟩
  else .ok (pairs digits)

/-! ## Values -/

/-- A type's keyword in a document. -/
def keyword (types : ValueTypes) (ty : UInt32) : Str :=
  if ty = types.none then "none".toList
  else if ty = types.sz then "sz".toList
  else if ty = types.expandSz then "expand".toList
  else if ty = types.binary then "binary".toList
  else if ty = types.dword then "dword".toList
  else if ty = types.dwordBigEndian then "dword-be".toList
  else if ty = types.link then "link".toList
  else if ty = types.multiSz then "multi".toList
  else if ty = types.qword then "qword".toList
  else if ty = types.tombstone then "tombstone".toList
  else "0x".toList ++ hexDigits (Nat.log 16 ty.toNat + 1) ty.toNat

/-- `u32::from_str_radix(digits, 16)`. -/
def u32FromHex (digits : Str) : Option UInt32 :=
  (fromHex (Utf8.encode digits)).bind fun n => if n < 2 ^ 32 then some (UInt32.ofNat n) else none

/-- The type a keyword names. -/
def typeOf (types : ValueTypes) (keyword : Str) : Option UInt32 :=
  if keyword = "none".toList then some types.none
  else if keyword = "sz".toList then some types.sz
  else if keyword = "expand".toList then some types.expandSz
  else if keyword = "binary".toList then some types.binary
  else if keyword = "dword".toList then some types.dword
  else if keyword = "dword-be".toList then some types.dwordBigEndian
  else if keyword = "link".toList then some types.link
  else if keyword = "multi".toList then some types.multiSz
  else if keyword = "qword".toList then some types.qword
  else if keyword = "tombstone".toList then some types.tombstone
  else
    match keyword with
    | '0' :: 'x' :: digits => u32FromHex digits
    | _ => none

/-- `bytes` of type `ty` as JSON of its type. -/
def dataJson (r : Registry) (ty : UInt32) (bytes : List UInt8) : Option Json :=
  match r.decode ty bytes with
  | .sz s | .expandSz s | .link s => some (.string s)
  | .dword n | .dwordBigEndian n => some (.number n.toNat)
  | .qword n => some (.number n.toNat)
  | .multiSz list => some (.array (list.map .string))
  | .binary bytes => some (.string (hex bytes))
  | .none => some .null
  | .raw _ _ => none

/-- `Err(Error::Invalid(..))`, with the keyword in front. -/
def invalid {α : Type} (keyword : Str) (why : String) : Except Invalid α := .error ⟨String.ofList keyword ++ why⟩

def jsonString (keyword : Str) (data : Json) : Except Invalid Str :=
  match data.asStr with
  | some s => .ok s
  | none => invalid keyword ": expected a JSON string"

def jsonNumber (keyword : Str) (data : Json) : Except Invalid UInt64 :=
  match data.asU64 with
  | some n => .ok n
  | none => invalid keyword ": expected a non-negative integer"

def jsonSmall (keyword : Str) (data : Json) : Except Invalid UInt32 := do
  let n ← jsonNumber keyword data
  if n.toNat < 2 ^ 32 then return UInt32.ofNat n.toNat else invalid keyword ": value does not fit u32"

/-- The strings of a list. -/
def jsonStrings : List Json → Except Invalid (List Str)
  | [] => .ok []
  | item :: items =>
    match item.asStr with
    | none => .error ⟨"multi: expected strings"⟩
    | some s => do
      let rest ← jsonStrings items
      return s :: rest

/-- The bytes JSON `data` stands for, as type `ty`. -/
def fromJson (r : Registry) (ty : UInt32) (keyword : Str) (data : Json) : Except Invalid (List UInt8) :=
  if ty = r.types.sz then do return r.encode (.sz (← jsonString keyword data))
  else if ty = r.types.expandSz then do return r.encode (.expandSz (← jsonString keyword data))
  else if ty = r.types.link then do return r.encode (.link (← jsonString keyword data))
  else if ty = r.types.dword then do return r.encode (.dword (← jsonSmall keyword data))
  else if ty = r.types.dwordBigEndian then do return r.encode (.dwordBigEndian (← jsonSmall keyword data))
  else if ty = r.types.qword then do return r.encode (.qword (← jsonNumber keyword data))
  else if ty = r.types.multiSz then
    match data.asArray with
    | none => .error ⟨"multi: expected a JSON array"⟩
    | some list => do return r.encode (.multiSz (← jsonStrings list))
  else if ty = r.types.binary then do
    let text ← jsonString keyword data
    return r.encode (.binary (← unhex text))
  else if ty = r.types.none ∨ ty = r.types.tombstone then .ok []
  else invalid keyword ": give its bytes as hex"

structure ValueEntry where
  /-- `@` for the key's default value. -/
  name : Str
  ty : Str
  data : Json
  hex : Option Str

/-- The entry for the value `name` holding `bytes` as `ty`. -/
def ValueEntry.of (r : Registry) (name : List UInt8) (ty : UInt32) (bytes : List UInt8) : ValueEntry :=
  let name := if name = [] then ['@'] else lossyList name
  match dataJson r ty bytes with
  | some data => { name, ty := keyword r.types ty, data, hex := none }
  | none => { name, ty := keyword r.types ty, data := .null, hex := some (RegDocs.hex bytes) }

/-- The value's name as bytes, and its type and bytes. -/
def ValueEntry.bytes (r : Registry) (entry : ValueEntry) : Except Invalid (List UInt8 × UInt32 × List UInt8) :=
  let name := if entry.name = ['@'] then [] else Utf8.encode entry.name
  match typeOf r.types entry.ty with
  | none => .error ⟨"unknown value type: " ++ String.ofList entry.ty⟩
  | some ty =>
    match entry.hex with
    | some hex => do
      let bytes ← unhex hex
      return (name, ty, bytes)
    | none => do
      let bytes ← fromJson r ty entry.ty entry.data
      return (name, ty, bytes)

end Peiosutils.RegDocs
