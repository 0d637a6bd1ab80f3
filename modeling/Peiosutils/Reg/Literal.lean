import Peiosutils.Lib.Fallible
import Peiosutils.Lib.Numeral
import Peiosutils.RegDocs.Exact

/-!
# Value literals (`reg/src/literal.rs`)

A token such as `dword:42` or `multi:a,b` stands for a registry value's type and bytes; a token without the keyword of a
type is inferred. `toToken` writes a value as the token of its type.

Every value whose bytes decode as its type is read back from its token, but for the list of one empty string, whose token
is that of the empty list (`parse_toToken_iff`).
-/

set_option autoImplicit false

namespace Peiosutils.Reg

open RegDocs (Str Data ValueTypes Registry hex)
open Regman (trim splitOnce)

/-! ## Reading -/

/-- The texts of `Error::InvalidSpec`. -/
inductive InvalidSpec where
  /-- `none: takes no data` -/
  | takesNoData
  /-- `unsupported value type` -/
  | unsupported
  /-- `..: does not fit in a DWORD (u32)` -/
  | doesNotFit (s : Str)
  /-- `..: not an integer` -/
  | notAnInteger (s : Str)
  /-- `hex: needs an even number of digits` -/
  | oddDigits
  /-- `hex: digits must be ASCII hexadecimal characters` -/
  | notAscii
  /-- `hex: invalid byte ..` -/
  | invalidByte (digits : List UInt8)
  deriving DecidableEq, Repr

/-- The type a keyword names. -/
def keyword (types : ValueTypes) (s : Str) : Option UInt32 :=
  if s = "sz".toList then some types.sz
  else if s = "expand".toList then some types.expandSz
  else if s = "dword".toList then some types.dword
  else if s = "dword-be".toList then some types.dwordBigEndian
  else if s = "qword".toList then some types.qword
  else if s = "multi".toList then some types.multiSz
  else if s = "hex".toList ∨ s = "bin".toList then some types.binary
  else if s = "link".toList then some types.link
  else if s = "none".toList then some types.none
  else none

/-- The bytes of `n`, least significant first. -/
def leBytes (w n : Nat) : List UInt8 := ByteStore.leBytes w n

/-- `strip_prefix("0x").or_else(|| strip_prefix("0X"))`. -/
def stripHex : Str → Option Str
  | c :: d :: s => if c = '0' ∧ (d = 'x' ∨ d = 'X') then some s else none
  | _ => none

/-- `from_str_radix(digits, 16)` for a type whose largest number is `most`. -/
def fromStrRadix16 (most : Nat) (digits : Str) : Option Nat := (Hex.fromHex (Utf8.encode digits)).filter (· ≤ most)

def u32Max : Nat := 2 ^ 32 - 1

def u64Max : Nat := 2 ^ 64 - 1

def parseInt (s : Str) : Except InvalidSpec Nat :=
  let s := trim s
  let parsed := match stripHex s with
    | some h => fromStrRadix16 u64Max h
    | none => Numeral.parseUnsigned u64Max (Utf8.encode s)
  match parsed with
  | some v => .ok v
  | none => .error (.notAnInteger s)

def parseU32 (s : Str) : Except InvalidSpec Nat := do
  let v ← parseInt s
  if v ≤ u32Max then return v else .error (.doesNotFit s)

def parseU64 (s : Str) : Except InvalidSpec Nat := parseInt s

/-- The numbers of pairs of digits. -/
def hexPairs : List UInt8 → Except InvalidSpec (List UInt8)
  | a :: b :: digits =>
    match Hex.fromHex [a, b] with
    | none => .error (.invalidByte [a, b])
    | some n => do
      let rest ← hexPairs digits
      return UInt8.ofNat n :: rest
  | _ => .ok []

def parseHex (s : Str) : Except InvalidSpec (List UInt8) :=
  let cleaned := s.filter fun c => !(c = ':' || c = '-' || c = ' ' || c = '\t' || c = '\n')
  if (Utf8.encode cleaned).length % 2 ≠ 0 then .error .oddDigits
  else if cleaned.any fun c => 128 ≤ c.toNat then .error .notAscii
  else hexPairs (Utf8.encode cleaned)

/-- The strings between commas, where `\,` is a comma and `\\` a backslash; `cur` is what the first has so far. -/
def splitFrom (cur : Str) : Str → List Str
  | [] => [cur]
  | c :: cs =>
    if c = '\\' then
      match cs with
      | [] => [cur ++ ['\\']]
      | other :: rest =>
        if other = ',' then splitFrom (cur ++ [',']) rest
        else if other = '\\' then splitFrom (cur ++ ['\\']) rest
        else splitFrom (cur ++ ['\\', other]) rest
    else if c = ',' then cur :: splitFrom [] cs
    else splitFrom (cur ++ [c]) cs

def splitEscapedCommas (s : Str) : List Str := splitFrom [] s

section

variable (r : Registry)

def szBytes (s : Str) : List UInt8 := r.encode (.sz s)

def multiBytes (s : Str) : List UInt8 := r.encode (.multiSz (if s = [] then [] else splitEscapedCommas s))

/-- The data after the keyword of type `ty`. -/
def typedBytes (ty : UInt32) (rest : Str) : Except InvalidSpec (List UInt8) :=
  if ty = r.types.sz then .ok (szBytes r rest)
  else if ty = r.types.expandSz then .ok (r.encode (.expandSz rest))
  else if ty = r.types.link then .ok (r.encode (.link rest))
  else if ty = r.types.dword then do return leBytes 4 (← parseU32 rest)
  else if ty = r.types.dwordBigEndian then do return (leBytes 4 (← parseU32 rest)).reverse
  else if ty = r.types.qword then do return leBytes 8 (← parseU64 rest)
  else if ty = r.types.multiSz then .ok (multiBytes r rest)
  else if ty = r.types.binary then parseHex rest
  else if ty = r.types.none then if rest ≠ [] then .error .takesNoData else .ok []
  else .error .unsupported

def parseTyped (ty : UInt32) (rest : Str) : Except InvalidSpec (UInt32 × List UInt8) := do
  let bytes ← typedBytes r ty rest
  return (ty, bytes)

/-- A number in decimal or hexadecimal digits, by its size, or a string. -/
def infer (token : Str) : UInt32 × List UInt8 :=
  let number (u32 u64 : Option Nat) : UInt32 × List UInt8 :=
    match u32, u64 with
    | some v, _ => (r.types.dword, leBytes 4 v)
    | none, some v => (r.types.qword, leBytes 8 v)
    | none, none => (r.types.sz, szBytes r token)
  match stripHex token with
  | some digits =>
    if digits ≠ [] ∧ (Utf8.encode digits).all (fun b => (Hex.digitValue b).isSome) then
      number (fromStrRadix16 u32Max digits) (fromStrRadix16 u64Max digits)
    else (r.types.sz, szBytes r token)
  | none =>
    if token ≠ [] ∧ (Utf8.encode token).all Ascii.isDigit then
      number (Numeral.parseUnsigned u32Max (Utf8.encode token)) (Numeral.parseUnsigned u64Max (Utf8.encode token))
    else (r.types.sz, szBytes r token)

/-- A token's type and bytes. -/
def parse (token : Str) : Except InvalidSpec (UInt32 × List UInt8) :=
  match splitOnce ':' token with
  | some (first, rest) =>
    match keyword r.types first with
    | some ty => parseTyped r ty rest
    | none => .ok (infer r token)
  | none => .ok (infer r token)

/-! ## Writing -/

/-- `s.replace(c, ..)`, with a backslash in front. -/
def escapeChar (c : Char) (s : Str) : Str := s.flatMap fun d => if d = c then ['\\', c] else [d]

def escape (s : Str) : Str := escapeChar ',' (escapeChar '\\' s)

/-- A value as a token. -/
def toToken (ty : UInt32) (bytes : List UInt8) : Str :=
  match r.decode ty bytes with
  | .sz s => "sz:".toList ++ s
  | .expandSz s => "expand:".toList ++ s
  | .link s => "link:".toList ++ s
  | .dword v => "dword:".toList ++ Nat.toDigits 10 v.toNat
  | .dwordBigEndian v => "dword-be:".toList ++ Nat.toDigits 10 v.toNat
  | .qword v => "qword:".toList ++ Nat.toDigits 10 v.toNat
  | .multiSz list => "multi:".toList ++ [','].intercalate (list.map escape)
  | .binary bytes => "hex:".toList ++ hex bytes
  | .none => "none:".toList
  | .raw ty bytes =>
    if ty = r.types.tombstone then "<tombstone>".toList
    else "0x".toList ++ Nat.toDigits 16 ty.toNat ++ ':' :: hex bytes

end

/-! ## Strings of a list -/

theorem splitFrom_plain {c : Char} (hslash : c ≠ '\\') (hcomma : c ≠ ',') (cur cs : Str) :
    splitFrom cur (c :: cs) = splitFrom (cur ++ [c]) cs := by
  cases cs <;> simp [splitFrom, hslash, hcomma]

theorem splitFrom_comma (cur cs : Str) : splitFrom cur (',' :: cs) = cur :: splitFrom [] cs := by
  cases cs <;> simp [splitFrom]

/-- A backslash stands in front of a comma or a backslash. -/
theorem splitFrom_escaped {c : Char} (h : c = ',' ∨ c = '\\') (cur cs : Str) :
    splitFrom cur ('\\' :: c :: cs) = splitFrom (cur ++ [c]) cs := by
  rcases h with rfl | rfl
  · simp [splitFrom]
  · simp [splitFrom]

theorem escape_cons (c : Char) (s : Str) :
    escape (c :: s) = (if c = '\\' ∨ c = ',' then ['\\', c] else [c]) ++ escape s := by
  by_cases hslash : c = '\\'
  · subst hslash
    rfl
  · by_cases hcomma : c = ','
    · subst hcomma
      rfl
    · simp [escape, escapeChar, hslash, hcomma]

/-- An escaped string is read as itself, and reading goes on behind it. -/
theorem splitFrom_escape (s rest cur : Str) : splitFrom cur (escape s ++ rest) = splitFrom (cur ++ s) rest := by
  induction s generalizing cur with
  | nil => simp [escape, escapeChar]
  | cons c s ih =>
    rw [escape_cons]
    split
    · rename_i hc
      have hread := splitFrom_escaped hc.symm cur (escape s ++ rest)
      simpa [ih] using hread
    · rename_i hc
      have hread := splitFrom_plain (fun h => hc (.inl h)) (fun h => hc (.inr h)) cur (escape s ++ rest)
      simpa [ih] using hread

/-- **The strings of a list that is joined.** -/
theorem splitFrom_join (list : List Str) (h : list ≠ []) :
    splitEscapedCommas ([','].intercalate (list.map escape)) = list := by
  induction list with
  | nil => exact absurd rfl h
  | cons s list ih =>
    cases list with
    | nil =>
      have hlast := splitFrom_escape s [] []
      simpa [splitEscapedCommas, List.intercalate, splitFrom] using hlast
    | cons t list =>
      have hsplit := splitFrom_escape s (',' :: [','].intercalate ((t :: list).map escape)) []
      have hjoin : [','].intercalate ((s :: t :: list).map escape) =
          escape s ++ ',' :: [','].intercalate ((t :: list).map escape) := by
        simp [List.intercalate]
      rw [splitEscapedCommas, hjoin, hsplit, splitFrom_comma, List.nil_append]
      exact congrArg (s :: ·) (ih (List.cons_ne_nil t list))

theorem escape_eq_nil {s : Str} : escape s = [] ↔ s = [] := by
  cases s with
  | nil => simp [escape, escapeChar]
  | cons c s =>
    rw [escape_cons]
    split <;> simp

/-- The token of a list is empty for two lists. -/
theorem join_eq_nil {list : List Str} : [','].intercalate (list.map escape) = [] ↔ list = [] ∨ list = [[]] := by
  cases list with
  | nil => simp [List.intercalate]
  | cons s list =>
    cases list with
    | nil => simp [List.intercalate, escape_eq_nil]
    | cons t list => simp [List.intercalate]

/-! ## Numbers and hex -/

theorem encode_toDigits (n : Nat) : Utf8.encode (Nat.toDigits 10 n) = Numeral.decimal n := by
  refine Utf8.encode_ascii fun c hc => ?_
  have hdigit := Nat.isDigit_of_mem_toDigits (by omega) (by omega) hc
  simp only [Char.isDigit, Bool.and_eq_true, decide_eq_true_eq, UInt32.le_iff_toNat_le] at hdigit
  have hle : c.toNat ≤ 57 := hdigit.2
  omega

/-- A displayed number has neither white space around it nor a letter in it. -/
theorem trim_toDigits (n : Nat) : trim (Nat.toDigits 10 n) = Nat.toDigits 10 n ∧ stripHex (Nat.toDigits 10 n) = none := by
  have hplain : ∀ c ∈ Nat.toDigits 10 n, Regman.isWhitespace c = false ∧ c ≠ 'x' ∧ c ≠ 'X' := by
    intro c hc
    have hdigit := Nat.isDigit_of_mem_toDigits (by omega) (by omega) hc
    simp only [Char.isDigit, Bool.and_eq_true, decide_eq_true_eq, UInt32.le_iff_toNat_le] at hdigit
    have hlow : 48 ≤ c.toNat := hdigit.1
    have hhigh : c.toNat ≤ 57 := hdigit.2
    refine ⟨?_, ?_, ?_⟩
    · simp only [Regman.isWhitespace, Bool.or_eq_false_iff, Bool.and_eq_false_iff, decide_eq_false_iff_not]
      omega
    · rintro rfl
      exact absurd hhigh (by decide)
    · rintro rfl
      exact absurd hhigh (by decide)
  constructor
  · rw [trim, List.dropWhile_eq_self_iff.2, List.rdropWhile_eq_self_iff.2]
    · intro hne
      rw [(hplain _ (List.getLast_mem hne)).1]
      exact Bool.false_ne_true
    · intro hne
      rw [(hplain _ (List.getElem_mem hne)).1]
      exact Bool.false_ne_true
  · cases hds : Nat.toDigits 10 n with
    | nil => rfl
    | cons c cs =>
      cases cs with
      | nil => rfl
      | cons d ds =>
        have hd := hplain d (by rw [hds]; simp)
        rw [stripHex, if_neg]
        rintro ⟨-, hx | hx⟩
        · exact hd.2.1 hx
        · exact hd.2.2 hx

theorem parseInt_toDigits {n : Nat} (h : n ≤ u64Max) : parseInt (Nat.toDigits 10 n) = .ok n := by
  obtain ⟨htrim, hstrip⟩ := trim_toDigits n
  simp only [parseInt, htrim, hstrip, encode_toDigits, Numeral.parseUnsigned_decimal h]

theorem parseU32_toDigits (v : UInt32) : parseU32 (Nat.toDigits 10 v.toNat) = .ok v.toNat := by
  have hv := v.toNat_lt
  have hmax : v.toNat ≤ u32Max := Nat.le_sub_one_of_lt hv
  rw [parseU32, parseInt_toDigits (hmax.trans (by decide))]
  exact if_pos hmax

theorem parseU64_toDigits (v : UInt64) : parseU64 (Nat.toDigits 10 v.toNat) = .ok v.toNat :=
  parseInt_toDigits (Nat.le_sub_one_of_lt v.toNat_lt)

/-- Hex of any bytes is read back. -/
theorem parseHex_hex (bytes : List UInt8) : parseHex (hex bytes) = .ok bytes := by
  have hfilter : (hex bytes).filter (fun c => !(c = ':' || c = '-' || c = ' ' || c = '\t' || c = '\n')) = hex bytes := by
    rw [List.filter_eq_self]
    intro c hc
    obtain ⟨d, hd, rfl⟩ := RegDocs.mem_hex hc
    interval_cases d <;> decide
  have hascii : (hex bytes).any (fun c => 128 ≤ c.toNat) = false := by
    rw [List.any_eq_false]
    intro c hc
    obtain ⟨d, hd, rfl⟩ := RegDocs.mem_hex hc
    interval_cases d <;> decide
  suffices h : (Utf8.encode (hex bytes)).length % 2 = 0 ∧ hexPairs (Utf8.encode (hex bytes)) = .ok bytes by
    simp only [parseHex, hfilter, hascii, h]
    simp
  clear hfilter hascii
  induction bytes with
  | nil => exact ⟨rfl, rfl⟩
  | cons b bytes ih =>
    obtain ⟨hlen, hpairs⟩ := ih
    obtain ⟨x, y, hxy, -, -⟩ := RegDocs.asciiBytes_two b
    have hread : Hex.fromHex [x, y] = some b.toNat := by
      rw [← hxy]
      exact Hex.fromHex_hexDigits (by decide) b.toNat_lt
    rw [RegDocs.hex_cons, Utf8.encode_append, RegDocs.encode_hexDigits, hxy]
    refine ⟨?_, ?_⟩
    · simp only [List.cons_append, List.nil_append, List.length_cons]
      omega
    · simp only [List.cons_append, List.nil_append, hexPairs, hread, hpairs, UInt8.ofNat_toNat]
      rfl

/-! ## Values -/

/-- What the token format relies on beyond `Registry.Lawful`: numbers are little-endian (or big-endian, as the type says),
binary data is its own bytes, and an empty string in a list is not the empty list. -/
structure Plain (r : Registry) : Prop where
  dword : ∀ n, r.encode (.dword n) = leBytes 4 n.toNat
  dwordBigEndian : ∀ n, r.encode (.dwordBigEndian n) = (leBytes 4 n.toNat).reverse
  qword : ∀ n, r.encode (.qword n) = leBytes 8 n.toNat
  binary : ∀ bytes, r.encode (.binary bytes) = bytes
  multiSz : r.encode (.multiSz [[]]) ≠ r.encode (.multiSz [])

theorem splitOnce_append {first : Str} (h : ':' ∉ first) (rest : Str) :
    splitOnce ':' (first ++ ':' :: rest) = some (first, rest) := by
  have hne : ∀ c ∈ first, (c ≠ ':') = true := fun c hc => by simpa using fun heq : c = ':' => h (heq ▸ hc)
  rw [splitOnce, if_pos (by simp), List.takeWhile_append_of_pos (by simpa using hne),
    List.dropWhile_append_of_pos (by simpa using hne)]
  simp

variable {r : Registry}

theorem parse_keyword {first : Str} (h : ':' ∉ first) {ty : UInt32} (hkey : keyword r.types first = some ty) (rest : Str) :
    parse r (first ++ ':' :: rest) = parseTyped r ty rest := by
  simp only [parse, splitOnce_append h, hkey]

/-- The data behind the keyword of its own type. -/
theorem typedBytes_eq (types : ValueTypes) (rest : Str) (hr : r.types = types) :
    typedBytes r types.sz rest = .ok (r.encode (.sz rest)) ∧
    typedBytes r types.expandSz rest = .ok (r.encode (.expandSz rest)) ∧
    typedBytes r types.link rest = .ok (r.encode (.link rest)) ∧
    typedBytes r types.dword rest = (parseU32 rest).map (leBytes 4) ∧
    typedBytes r types.dwordBigEndian rest = (parseU32 rest).map (fun n => (leBytes 4 n).reverse) ∧
    typedBytes r types.qword rest = (parseU64 rest).map (leBytes 8) ∧
    typedBytes r types.multiSz rest = .ok (multiBytes r rest) ∧
    typedBytes r types.binary rest = parseHex rest ∧
    typedBytes r types.none [] = .ok [] := by
  have hdistinct := types.distinct
  simp only [List.nodup_cons, List.mem_cons, not_or, List.not_mem_nil, not_false_eq_true, and_true,
    List.nodup_nil] at hdistinct
  subst hr
  simp only [typedBytes, szBytes]
  refine ⟨?_, ?_, ?_, ?_, ?_, ?_, ?_, ?_, ?_⟩ <;> simp_all [eq_comm] <;> rfl

theorem parseTyped_ok {ty : UInt32} {rest : Str} {bytes : List UInt8} (h : typedBytes r ty rest = .ok bytes) :
    parseTyped r ty rest = .ok (ty, bytes) := by
  rw [parseTyped, h]
  rfl

/-- The strings of a list are lost where the only one is empty. -/
theorem multiBytes_join (list : List Str) :
    multiBytes r ([','].intercalate (list.map escape)) = r.encode (.multiSz (if list = [[]] then [] else list)) := by
  unfold multiBytes
  by_cases hnil : list = []
  · subst hnil
    rfl
  · by_cases hone : list = [[]]
    · subst hone
      rfl
    · rw [if_neg (join_eq_nil.not.2 (not_or.2 ⟨hnil, hone⟩)), if_neg hone, splitFrom_join list hnil]

/-- **Which values are read back from their tokens.** -/
theorem parse_toToken_iff (h : r.Lawful) (hplain : Plain r) (ty : UInt32) (bytes : List UInt8)
    (hraw : ¬ (r.decode ty bytes).IsRaw) :
    parse r (toToken r ty bytes) = .ok (ty, bytes) ↔ r.decode ty bytes ≠ .multiSz [[]] := by
  have hty := h.typed ty bytes
  have hexact := h.exact ty bytes hraw
  -- the token is the keyword of the type, and text from which the data is read
  have hread : ∀ (first : String) {rest : Str} {bytes' : List UInt8}, ':' ∉ first.toList →
      keyword r.types first.toList = some ty → typedBytes r ty rest = .ok bytes' →
      parse r (first.toList ++ ':' :: rest) = .ok (ty, bytes') :=
    fun first _ _ hfirst hkey hbytes => (parse_keyword hfirst hkey _).trans (parseTyped_ok hbytes)
  unfold toToken
  cases hd : r.decode ty bytes with
  | sz s =>
    rw [hd] at hty hexact
    subst hty
    obtain ⟨hbytes, -⟩ := typedBytes_eq r.types s rfl
    rw [hexact] at hbytes
    exact iff_of_true (hread "sz" (by decide) rfl hbytes) (by simp)
  | expandSz s =>
    rw [hd] at hty hexact
    subst hty
    obtain ⟨-, hbytes, -⟩ := typedBytes_eq r.types s rfl
    rw [hexact] at hbytes
    exact iff_of_true (hread "expand" (by decide) rfl hbytes) (by simp)
  | link s =>
    rw [hd] at hty hexact
    subst hty
    obtain ⟨-, -, hbytes, -⟩ := typedBytes_eq r.types s rfl
    rw [hexact] at hbytes
    exact iff_of_true (hread "link" (by decide) rfl hbytes) (by simp)
  | dword v =>
    rw [hd] at hty hexact
    subst hty
    obtain ⟨-, -, -, hbytes, -⟩ := typedBytes_eq r.types (Nat.toDigits 10 v.toNat) rfl
    rw [parseU32_toDigits, Except.map, ← hplain.dword, hexact] at hbytes
    exact iff_of_true (hread "dword" (by decide) rfl hbytes) (by simp)
  | dwordBigEndian v =>
    rw [hd] at hty hexact
    subst hty
    obtain ⟨-, -, -, -, hbytes, -⟩ := typedBytes_eq r.types (Nat.toDigits 10 v.toNat) rfl
    rw [parseU32_toDigits, Except.map, ← hplain.dwordBigEndian, hexact] at hbytes
    exact iff_of_true (hread "dword-be" (by decide) rfl hbytes) (by simp)
  | qword v =>
    rw [hd] at hty hexact
    subst hty
    obtain ⟨-, -, -, -, -, hbytes, -⟩ := typedBytes_eq r.types (Nat.toDigits 10 v.toNat) rfl
    rw [parseU64_toDigits, Except.map, ← hplain.qword, hexact] at hbytes
    exact iff_of_true (hread "qword" (by decide) rfl hbytes) (by simp)
  | multiSz list =>
    rw [hd] at hty hexact
    subst hty
    obtain ⟨-, -, -, -, -, -, hbytes, -⟩ := typedBytes_eq r.types ([','].intercalate (list.map escape)) rfl
    rw [multiBytes_join] at hbytes
    have hparse := hread "multi" (by decide) rfl hbytes
    show parse r ("multi".toList ++ ':' :: [','].intercalate (list.map escape)) = .ok (r.types.multiSz, bytes) ↔ _
    rw [hparse]
    by_cases hone : list = [[]]
    · subst hone
      refine iff_of_false (fun heq => ?_) fun hne => hne rfl
      have hsame := (Prod.mk.inj (Except.ok.inj heq)).2
      rw [if_pos rfl, ← hexact] at hsame
      exact hplain.multiSz hsame.symm
    · refine iff_of_true ?_ (by simpa using hone)
      rw [if_neg hone, hexact]
      rfl
  | binary data =>
    rw [hd] at hty hexact
    rw [hplain.binary] at hexact
    subst hty hexact
    obtain ⟨-, -, -, -, -, -, -, hbytes, -⟩ := typedBytes_eq r.types (hex data) rfl
    rw [parseHex_hex] at hbytes
    exact iff_of_true (hread "hex" (by decide) rfl hbytes) (by simp)
  | none =>
    rw [hd] at hty hexact
    subst hty
    rw [h.empty] at hexact
    subst hexact
    obtain ⟨-, -, -, -, -, -, -, -, hnone⟩ := typedBytes_eq r.types [] rfl
    exact iff_of_true (hread "none" (by decide) rfl hnone) (by simp)
  | raw ty' bytes' =>
    rw [hd] at hraw
    exact absurd trivial hraw

theorem someRegistry_plain : Plain RegDocs.someRegistry where
  dword _ := rfl
  dwordBigEndian _ := rfl
  qword _ := rfl
  binary _ := rfl
  multiSz := by decide

theorem not_isRaw_of_eq {data : Data} {list : List Str} (h : data = .multiSz list) : ¬ data.IsRaw := by
  subst h
  exact id

/-- A list of `a,b` and the empty string. -/
theorem parse_toToken_iff_list : parse RegDocs.someRegistry (toToken RegDocs.someRegistry 7 [97, 44, 98, 0, 0, 0]) =
    .ok (7, [97, 44, 98, 0, 0, 0]) := by
  have hlist : RegDocs.someRegistry.decode 7 [97, 44, 98, 0, 0, 0] = .multiSz [['a', ',', 'b'], []] := by decide +kernel
  refine (parse_toToken_iff RegDocs.someRegistry_lawful someRegistry_plain _ _ (not_isRaw_of_eq hlist)).2 ?_
  rw [hlist]
  decide

/-- The list of one empty string comes back as the empty list. -/
theorem toToken_empty_string_lost : ¬ ∀ (r : Registry), r.Lawful → Plain r → ∀ (ty : UInt32) (bytes : List UInt8),
    ¬ (r.decode ty bytes).IsRaw → parse r (toToken r ty bytes) = .ok (ty, bytes) := by
  intro h
  have hlist : RegDocs.someRegistry.decode 7 [0, 0] = .multiSz [[]] := by decide +kernel
  have hread := h _ RegDocs.someRegistry_lawful someRegistry_plain 7 [0, 0] (not_isRaw_of_eq hlist)
  revert hread
  decide +kernel

end Peiosutils.Reg
