import Peiosutils.Lib.Hex
import Peiosutils.Lib.Utf8Chunks

/-!
# Quoting names (`quoting_style`)

The C style and the escaping shell style of `escape_name_inner`. A name is pushed to a quoter character by character,
and in parts where it is not of the encoding.
-/

set_option autoImplicit false

namespace Peiosutils.Quoting

open Hex (asciiBytes)
open Utf8 (Chunk chunks encode)

inductive Quotes where
  | none
  | single
  | double
  deriving DecidableEq, Repr

inductive UEncoding where
  | ascii
  | utf8
  deriving DecidableEq, Repr

/-! ## Escaped characters (`escaped_char.rs`) -/

def specialShellChars : List Char := "`$&*()|[;\\'\"<>?! ".toList

inductive EscapeOctalState where
  | done
  | firstBackslash
  | firstValue
  | lastBackslash
  | lastValue
  deriving DecidableEq, Repr

/-- Two bytes at most, each as a backslash and three octal digits. -/
structure EscapeOctal where
  c : UInt8 × UInt8
  state : EscapeOctalState
  idx : Nat
  deriving DecidableEq, Repr

/-- The three bits from `3 * idx` on. -/
def byteToOctalDigit (byte : UInt8) (idx : Nat) : Nat := byte.toNat / 8 ^ idx % 8

namespace EscapeOctal

/-- The next character, and the iterator behind it. -/
def next (e : EscapeOctal) : Option (Char × EscapeOctal) :=
  match e.state with
  | .done => none
  | .firstBackslash => some ('\\', { e with state := .firstValue })
  | .lastBackslash => some ('\\', { e with state := .lastValue })
  | .firstValue =>
    some (Nat.digitChar (byteToOctalDigit e.c.1 e.idx),
      if e.idx = 0 then { e with state := .lastBackslash, idx := 2 } else { e with idx := e.idx - 1 })
  | .lastValue =>
    some (Nat.digitChar (byteToOctalDigit e.c.2 e.idx),
      if e.idx = 0 then { e with state := .done } else { e with idx := e.idx - 1 })

def fromByte (b : UInt8) : EscapeOctal := ⟨(0, b), .lastBackslash, 2⟩

/-- For characters of two bytes at most. -/
def fromChar (c : Char) : EscapeOctal :=
  match String.utf8EncodeChar c with
  | [b₀, b₁] => ⟨(b₀, b₁), .firstBackslash, 2⟩
  | _ => fromByte (UInt8.ofNat c.toNat)

end EscapeOctal

inductive EscapeState where
  | done
  | char (c : Char)
  | backslash (c : Char)
  | forceQuote (c : Char)
  | octal (e : EscapeOctal)
  deriving DecidableEq, Repr

/-- `char::is_control`. -/
def isControl (c : Char) : Bool := c.toNat < 32 || (127 ≤ c.toNat && c.toNat < 160)

namespace EscapeState

/-- The next character, and the state behind it. -/
def next : EscapeState → Option (Char × EscapeState)
  | .backslash c => some ('\\', .char c)
  | .char c => some (c, .done)
  | .forceQuote c => some (c, .done)
  | .done => none
  | .octal e => e.next.map fun r => (r.1, .octal r.2)

/-- The characters that are still to come, `fuel` at most. -/
def collectFrom : (fuel : Nat) → EscapeState → List Char
  | 0, _ => []
  | fuel + 1, s =>
    match s.next with
    | none => []
    | some (c, s) => c :: collectFrom fuel s

/-- None has more than the eight of two bytes. -/
def collect (s : EscapeState) : List Char := collectFrom 8 s

/-- The characters of the mnemonic escapes. -/
def mnemonic : Char → Option Char
  | '\x07' => some 'a'
  | '\x08' => some 'b'
  | '\t' => some 't'
  | '\n' => some 'n'
  | '\x0B' => some 'v'
  | '\x0C' => some 'f'
  | '\r' => some 'r'
  | _ => none

/-- `EscapedChar::new_c`. -/
def newC (c : Char) (quotes : Quotes) (dirname : Bool) : EscapeState :=
  match mnemonic c with
  | some l => .backslash l
  | none =>
    if c = '\\' then .backslash '\\'
    else if c = '\'' then (if quotes = .single then .backslash '\'' else .char '\'')
    else if c = '"' then (if quotes = .double then .backslash '"' else .char '"')
    else if c = ' ' ∧ !dirname then (if quotes = .none then .backslash ' ' else .char ' ')
    else if c = ':' ∧ dirname then .backslash ':'
    else if isControl c then .octal (.fromChar c)
    else .char c

/-- `EscapedChar::new_shell`. -/
def newShell (c : Char) (escape : Bool) (quotes : Quotes) : EscapeState :=
  if !escape && isControl c then .char c
  else
    match mnemonic c with
    | some l => .backslash l
    | none =>
      if c = '\'' then (if quotes = .single then .backslash '\'' else .char '\'')
      else if isControl c then .octal (.fromChar c)
      else if c ∈ specialShellChars then .forceQuote c
      else .char c

/-- `EscapedChar::new_octal`. -/
def newOctal (b : UInt8) : EscapeState := .octal (.fromByte b)

def hideControl : EscapeState → EscapeState
  | .char c => if isControl c then .char '?' else .char c
  | s => s

end EscapeState

open EscapeState (newC newShell newOctal)

/-- A push of either kind. -/
def pushName {Q : Type} (pushChar : Q → Char → Q) (pushInvalid : Q → List UInt8 → Q) (quoter : Q)
    (name : List Chunk) : Q :=
  name.foldl (fun quoter chunk => chunk.elim (pushChar quoter) (pushInvalid quoter)) quoter

/-- What `escape_name_inner` pushes. -/
def pushes (encoding : UEncoding) (name : List UInt8) : List Chunk :=
  match encoding with
  | .ascii => name.map fun b => if b.toNat < 128 then .inl (Char.ofNat b.toNat) else .inr [b]
  | .utf8 => chunks name

/-! ## The C style (`c_quoter.rs`) -/

/-- The quote at both ends. -/
def Quotes.byte : Quotes → List UInt8
  | .none => []
  | .single => [39]
  | .double => [34]

structure CQuoter where
  quotes : Quotes
  dirname : Bool
  buffer : List UInt8
  deriving DecidableEq, Repr

namespace CQuoter

def new (quotes : Quotes) (dirname : Bool) : CQuoter := ⟨quotes, dirname, quotes.byte⟩

def pushChar (q : CQuoter) (input : Char) : CQuoter :=
  { q with buffer := q.buffer ++ encode (newC input q.quotes q.dirname).hideControl.collect }

def pushInvalid (q : CQuoter) (input : List UInt8) : CQuoter :=
  input.foldl (fun q b => { q with buffer := q.buffer ++ encode (newOctal b).hideControl.collect }) q

def finalize (q : CQuoter) : List UInt8 := q.buffer ++ q.quotes.byte

end CQuoter

/-! ## The escaping shell style (`shell_quoter.rs`) -/

/-- Special at the start of a name. -/
def specialShellCharsStart : List UInt8 := asciiBytes "~#".toList

/-- A colon counts for a directory name only. -/
def shellEscapedCharSet (isDirname : Bool) : List UInt8 :=
  (asciiBytes ":\"`$\\^\n\t\r=".toList).drop (if isDirname then 0 else 1)

def initialQuoting (input : List UInt8) (dirname alwaysQuote checkControlChars : Bool) : Quotes × Bool :=
  let hasSpecialChars := input.any fun c =>
    c ∈ shellEscapedCharSet dirname || (checkControlChars && (c.toNat < 32 || c.toNat = 127))
  if hasSpecialChars then (.single, true)
  else if 39 ∈ input then (.double, true)
  else if alwaysQuote || input.isEmpty then (.single, true)
  else (.single, false)

def bytesStartWith (bytes pattern : List UInt8) : Bool := bytes.head?.any (· ∈ pattern)

def finalizeShellQuoter (buffer reference : List UInt8) (mustQuote : Bool) (quotes : Quotes) : List UInt8 :=
  let containsQuoteChars := mustQuote || bytesStartWith reference specialShellCharsStart
  if (mustQuote || containsQuoteChars) && quotes != .none then
    let quote : UInt8 := if quotes = .single then 39 else 34
    [quote] ++ buffer ++ [quote]
  else buffer

structure EscapedShellQuoter where
  reference : List UInt8
  quotes : Quotes
  mustQuote : Bool
  inDollar : Bool
  buffer : List UInt8
  deriving DecidableEq, Repr

namespace EscapedShellQuoter

def new (reference : List UInt8) (alwaysQuote dirname : Bool) : EscapedShellQuoter :=
  let (quotes, mustQuote) := initialQuoting reference dirname alwaysQuote true
  ⟨reference, quotes, mustQuote, false, []⟩

def extend (q : EscapedShellQuoter) (bytes : List UInt8) : EscapedShellQuoter := { q with buffer := q.buffer ++ bytes }

/-- Closes the quotes and opens `$'`. -/
def enterDollar (q : EscapedShellQuoter) : EscapedShellQuoter :=
  if q.inDollar then q else { q.extend (asciiBytes "'$'".toList) with inDollar := true }

/-- Closes `$'` and opens quotes. -/
def exitDollar (q : EscapedShellQuoter) : EscapedShellQuoter :=
  if q.inDollar then { q.extend (asciiBytes "''".toList) with inDollar := false } else q

def pushChar (q : EscapedShellQuoter) (input : Char) : EscapedShellQuoter :=
  let escaped := newShell input true q.quotes
  match escaped with
  | .char x => q.exitDollar.extend (encode [x])
  | .forceQuote x => { q.exitDollar with mustQuote := true }.extend (encode [x])
  | .backslash '\'' => { q with mustQuote := true, inDollar := false }.extend (asciiBytes "'\\''".toList)
  | _ => { q.enterDollar with mustQuote := true }.extend (encode escaped.collect)

def pushInvalid (q : EscapedShellQuoter) (input : List UInt8) : EscapedShellQuoter :=
  if input.isEmpty then q
  else { q.enterDollar with mustQuote := true }.extend (encode (input.flatMap fun b => (newOctal b).collect))

def finalize (q : EscapedShellQuoter) : List UInt8 := finalizeShellQuoter q.buffer q.reference q.mustQuote q.quotes

end EscapedShellQuoter

/-! ## Names (`mod.rs`) -/

/-- The two styles that escape everything that cannot be shown. -/
inductive QuotingStyle where
  | shellEscape (alwaysQuote : Bool)
  | c (quotes : Quotes)
  deriving DecidableEq, Repr

def escapeNameInner (name : List UInt8) (style : QuotingStyle) (dirname : Bool) (encoding : UEncoding) : List UInt8 :=
  match style with
  | .c quotes =>
    (pushName CQuoter.pushChar CQuoter.pushInvalid (.new quotes dirname) (pushes encoding name)).finalize
  | .shellEscape alwaysQuote =>
    (pushName EscapedShellQuoter.pushChar EscapedShellQuoter.pushInvalid (.new name alwaysQuote dirname)
      (pushes encoding name)).finalize

end Peiosutils.Quoting
