import Peiosutils.Lib.Lines
import Peiosutils.Lib.Numeral
import Peiosutils.Lib.Utf8

/-!
# Lines of checksums (`checksum/mod.rs`, `compute.rs`, `validate.rs`)

A line names a file and gives its digest, tagged with the algorithm or not; a name with a backslash, a newline or a
carriage return is escaped, and the line begins with a backslash then. What is computed of a file is one line; a file of
such lines is read line by line, where the format of the first untagged line is kept for the others. The codecs of the
digests are parameters (`Codecs`).
-/

set_option autoImplicit false

namespace Peiosutils.Checksum

abbrev Bytes := List UInt8

def ascii (s : String) : Bytes := Hex.asciiBytes s.toList

/-- The codecs of digests: hexadecimal, and base64, which is read forgivingly. -/
structure Codecs where
  hexEncode : Bytes → Bytes
  hexDecode : Bytes → Option Bytes
  base64Encode : Bytes → Bytes
  forgivingDecode : Bytes → Option Bytes

/-! ## Algorithms -/

inductive AlgoKind where
  | sysv | bsd | crc | crc32b | md5 | sm3 | sha1 | sha2 | sha3 | blake2b
  | sha224 | sha256 | sha384 | sha512
  | shake128 | shake256 | blake3
  deriving DecidableEq, Repr

def AlgoKind.isLegacy : AlgoKind → Bool
  | sysv | bsd | crc | crc32b => true
  | _ => false

/-- The values of `--algorithm`. -/
def algorithms : List (Bytes × AlgoKind) :=
  [(ascii "sysv", .sysv), (ascii "bsd", .bsd), (ascii "crc", .crc), (ascii "crc32b", .crc32b), (ascii "md5", .md5),
    (ascii "sha1", .sha1), (ascii "sha2", .sha2), (ascii "sha3", .sha3), (ascii "blake2b", .blake2b),
    (ascii "sm3", .sm3), (ascii "sha224", .sha224), (ascii "sha256", .sha256), (ascii "sha384", .sha384),
    (ascii "sha512", .sha512), (ascii "blake3", .blake3), (ascii "shake128", .shake128), (ascii "shake256", .shake256)]

def AlgoKind.fromCksum (algo : Bytes) : Option AlgoKind := algorithms.lookup algo

/-- A length in bits. -/
structure HashLength where
  bitLen : Nat
  deriving DecidableEq, Repr

def HashLength.fromBytes (n : Nat) : HashLength := ⟨n * 8⟩

def HashLength.asBytes (length : HashLength) : Nat := (length.bitLen + 7) / 8

/-- The length of an untagged digest, where it is known from the algorithm alone. -/
def AlgoKind.expectedDigestBitLen : AlgoKind → Option HashLength
  | md5 => some ⟨128⟩
  | sm3 => some ⟨256⟩
  | sha1 => some ⟨160⟩
  | sha224 => some ⟨224⟩
  | sha256 => some ⟨256⟩
  | sha384 => some ⟨384⟩
  | sha512 => some ⟨512⟩
  | _ => none

inductive ShaLength where
  | len224 | len256 | len384 | len512
  deriving DecidableEq, Repr

def ShaLength.asUsize : ShaLength → Nat
  | len224 => 224
  | len256 => 256
  | len384 => 384
  | len512 => 512

def ShaLength.tryFrom (value : Nat) : Option ShaLength :=
  if value = 224 then some len224
  else if value = 256 then some len256
  else if value = 384 then some len384
  else if value = 512 then some len512
  else none

/-- An algorithm with the length of its digests. -/
inductive SizedAlgoKind where
  | sysv | bsd | crc | crc32b | md5 | sm3 | sha1
  | sha2 (length : ShaLength)
  | sha3 (length : ShaLength)
  | blake2b (length : HashLength)
  | blake3 (length : HashLength)
  | shake128 (length : Option HashLength)
  | shake256 (length : Option HashLength)
  deriving DecidableEq, Repr

/-- None is an error. -/
def SizedAlgoKind.fromUnsized : AlgoKind → Option HashLength → Option SizedAlgoKind
  | .sysv, none => some sysv
  | .bsd, none => some bsd
  | .crc, none => some crc
  | .crc32b, none => some crc32b
  | .md5, none => some md5
  | .sm3, none => some sm3
  | .sha1, none => some sha1
  | .sha224, none => some (sha2 .len224)
  | .sha256, none => some (sha2 .len256)
  | .sha384, none => some (sha2 .len384)
  | .sha512, none => some (sha2 .len512)
  | .blake2b, l => some (blake2b (l.getD ⟨512⟩))
  | .blake3, l => some (blake3 (l.getD ⟨256⟩))
  | .shake128, l => some (shake128 l)
  | .shake256, l => some (shake256 l)
  | .sha2, some l => (ShaLength.tryFrom l.bitLen).map sha2
  | .sha3, some l => (ShaLength.tryFrom l.bitLen).map sha3
  | _, _ => none

/-- The tag of a line; none is a panic. -/
def SizedAlgoKind.toTag : SizedAlgoKind → Option Bytes
  | md5 => some (ascii "MD5")
  | sm3 => some (ascii "SM3")
  | sha1 => some (ascii "SHA1")
  | sha2 len => some (ascii "SHA" ++ Numeral.decimal len.asUsize)
  | sha3 len => some (ascii "SHA3-" ++ Numeral.decimal len.asUsize)
  | blake2b len =>
    if len.bitLen = 512 then some (ascii "BLAKE2b") else some (ascii "BLAKE2b-" ++ Numeral.decimal len.bitLen)
  | blake3 len => some (ascii "BLAKE3-" ++ Numeral.decimal len.bitLen)
  | shake128 len => some (ascii "SHAKE128-" ++ Numeral.decimal ((len.map HashLength.bitLen).getD 256))
  | shake256 len => some (ascii "SHAKE256-" ++ Numeral.decimal ((len.map HashLength.bitLen).getD 512))
  | _ => none

/-- What computes a digest. -/
inductive Digest where
  | sysV | bsd | crc | crc32b | md5 | sm3 | sha1
  | sha2 (length : ShaLength)
  | sha3 (length : ShaLength)
  | blake2b (outputBytes : Nat)
  | blake3 (outputBytes : Nat)
  | shake128 (outputBits : Nat)
  | shake256 (outputBits : Nat)
  deriving DecidableEq, Repr

def SizedAlgoKind.createDigest : SizedAlgoKind → Digest
  | sysv => .sysV
  | bsd => .bsd
  | crc => .crc
  | crc32b => .crc32b
  | md5 => .md5
  | sm3 => .sm3
  | sha1 => .sha1
  | sha2 len => .sha2 len
  | sha3 len => .sha3 len
  | blake2b len => .blake2b len.asBytes
  | blake3 len => .blake3 len.asBytes
  | shake128 len => .shake128 ((len.map HashLength.bitLen).getD 256)
  | shake256 len => .shake256 ((len.map HashLength.bitLen).getD 512)

def Digest.outputBits : Digest → Nat
  | sysV => 512
  | bsd => 128
  | crc => 256
  | crc32b => 32
  | md5 => 128
  | sm3 => 256
  | sha1 => 160
  | sha2 len | sha3 len => len.asUsize
  | blake2b n | blake3 n => n * 8
  | shake128 n | shake256 n => n

def Digest.outputBytes (d : Digest) : Nat := (d.outputBits + 7) / 8

/-! ## Lengths from the command line

None is an error. -/

def usizeMax : Nat := 18446744073709551615

def parseBlakeLength (algo : AlgoKind) (n : Nat) : Option HashLength :=
  if n = 0 then some (if algo = .blake2b then ⟨512⟩ else ⟨256⟩)
  else if algo = .blake2b ∧ 512 < n then none
  else if n % 8 ≠ 0 then none
  else some ⟨n⟩

def maybeSanitizeLength (algo : AlgoKind) (inputLength : Option Bytes) : Option (Option HashLength) :=
  match inputLength with
  | none => some none
  | some len =>
    match algo with
    | .sha2 | .sha3 =>
      (Numeral.parseUnsigned usizeMax len).bind fun n => if n ∈ [224, 256, 384, 512] then some (some ⟨n⟩) else none
    | .shake128 | .shake256 =>
      (Numeral.parseUnsigned usizeMax len).map fun n => if n = 0 then none else some ⟨n⟩
    | .blake2b | .blake3 => (Numeral.parseUnsigned usizeMax len).bind fun n => (parseBlakeLength algo n).map some
    | _ => if Numeral.parseUnsigned 4294967295 len = some 0 then some none else none

/-- An algorithm that is no legacy one, with a length that the command line takes. -/
def Accepted (kind : AlgoKind) (length : Option HashLength) (algo : SizedAlgoKind) : Prop :=
  kind.isLegacy = false ∧ (∃ inputLength, maybeSanitizeLength kind inputLength = some length) ∧
    SizedAlgoKind.fromUnsized kind length = some algo

/-! ## Names -/

/-- `str::replace` of a byte, for all three at once: none of them is in what another one is replaced with, but for the
backslash, which comes first. -/
def escapeByte (b : UInt8) : Bytes :=
  if b = 92 then [92, 92] else if b = 10 then [92, 110] else if b = 13 then [92, 114] else [b]

/-- `OsStr::to_string_lossy`. -/
def lossyName (filename : Bytes) : Bytes := Utf8.encode (Utf8.lossyList filename)

def escapeFilename (filename : Bytes) : Bytes × Bytes :=
  let escaped := (lossyName filename).flatMap escapeByte
  (escaped, if escaped = lossyName filename then [] else [92])

def unescapeFilename : Bytes → Bytes
  | [] => []
  | 92 :: [] => []
  | 92 :: 92 :: s => 92 :: unescapeFilename s
  | 92 :: 110 :: s => 10 :: unescapeFilename s
  | 92 :: 114 :: s => 13 :: unescapeFilename s
  | 92 :: x :: s => 92 :: x :: unescapeFilename s
  | b :: s => b :: unescapeFilename s

/-! ## Writing -/

inductive DigestFormat where
  | hexadecimal | base64
  deriving DecidableEq, Repr

inductive ReadingMode where
  | binary | text
  deriving DecidableEq, Repr

def ReadingMode.asChar : ReadingMode → UInt8
  | binary => 42
  | text => 32

/-- The formats of algorithms that are no legacy ones, apart from the raw one, which writes no line. -/
inductive OutputFormat where
  | tagged (format : DigestFormat)
  | untagged (format : DigestFormat) (mode : ReadingMode)
  deriving DecidableEq, Repr

def OutputFormat.digestFormat : OutputFormat → DigestFormat
  | tagged format | untagged format _ => format

inductive LineEnding where
  | newline | nul
  deriving DecidableEq, Repr

def LineEnding.byte : LineEnding → UInt8
  | newline => 10
  | nul => 0

structure ChecksumComputeOptions where
  algoKind : SizedAlgoKind
  outputFormat : OutputFormat
  lineEnding : LineEnding

variable (c : Codecs)

def encodeSum (sum : Bytes) : DigestFormat → Bytes
  | .hexadecimal => c.hexEncode sum
  | .base64 => c.base64Encode sum

/-- The name as it is written, and what the line begins with. -/
def writtenName (options : ChecksumComputeOptions) (filename : Bytes) : Bytes × Bytes :=
  if options.lineEnding = .nul then (lossyName filename, []) else escapeFilename filename

def writeTaggedChecksum (options : ChecksumComputeOptions) (filename sum : Bytes) : Option Bytes :=
  let (escapedFilename, start) := writtenName options filename
  options.algoKind.toTag.map fun tag => start ++ tag ++ [32, 40] ++ escapedFilename ++ ascii ") = " ++ sum

def writeUntaggedChecksum (options : ChecksumComputeOptions) (filename sum : Bytes) (mode : ReadingMode) : Bytes :=
  let (escapedFilename, start) := writtenName options filename
  start ++ sum ++ [32, mode.asChar] ++ escapedFilename

/-- A file and its digest. -/
structure Entry where
  filename : Bytes
  digest : Bytes
  deriving DecidableEq, Repr

/-- The line of a file, without its end. -/
def writtenLine (options : ChecksumComputeOptions) (e : Entry) : Option Bytes :=
  match options.outputFormat with
  | .tagged format => writeTaggedChecksum options e.filename (encodeSum c e.digest format)
  | .untagged format mode => some (writeUntaggedChecksum options e.filename (encodeSum c e.digest format) mode)

/-- What is written for all files. -/
def performChecksumComputation (options : ChecksumComputeOptions) (files : List Entry) : Option Bytes :=
  (files.mapM (writtenLine c options)).map fun lines => lines.flatMap fun line => line ++ [options.lineEnding.byte]

/-! ## Reading a line -/

inductive LineFormat where
  | algoBased | singleSpace | untagged
  deriving DecidableEq, Repr

structure LineInfo where
  algoName : Option Bytes
  algoBitLen : Option Nat
  checksum : Bytes
  filename : Bytes
  format : LineFormat
  deriving DecidableEq, Repr

/-- Whether base64 was seen; none is a character that is wrong. -/
def scanFormat : Bool → Bytes → Option Bool
  | isBase64, [] => some isBase64
  | isBase64, b :: rest =>
    if Ascii.isAlphanumeric b then scanFormat isBase64 rest
    else if b = 43 ∨ b = 47 then scanFormat true rest
    else if b = 61 ∧ (rest = [] ∨ rest = [61] ∨ rest = [61, 61]) then some true
    else none

def validateChecksumFormat (checksum : Bytes) : Option Bytes :=
  if checksum = [] then none
  else
    (scanFormat false checksum).bind fun isBase64 =>
      if isBase64 ∧ checksum.length % 4 ≠ 0 then none else some checksum

/-- What is in front of the last occurrence of the pattern, and what is behind it. -/
def rsplitOnce (s pattern : Bytes) : Option (Bytes × Bytes) :=
  ((List.range (s.length + 1 - pattern.length)).reverse.find? fun i => (s.drop i).take pattern.length == pattern).map
    fun i => (s.take i, s.drop (i + pattern.length))

def isValidAlgo (algo : Bytes) : Bool := algo == ascii "BLAKE2b" || algo.all fun b => Ascii.isUpper b || Ascii.isDigit b

def parseAlgoBased (line : Bytes) : Option LineInfo := do
  let trimmed := line.dropWhile Ascii.isWhitespace
  let rest := if trimmed.head? = some 92 then trimmed.drop 1 else trimmed
  let parIdx ← rest.findIdx? (· == 40)
  if parIdx = 0 then none
  else do
    -- openssl puts no space before the parenthesis, nor before the equals sign
    let posix := rest[parIdx - 1]? == some 32
    let algoSubstring := if posix then rest.take (parIdx - 1) else rest.take parIdx
    let algo := algoSubstring.takeWhile (· ≠ 45)
    let algoBits := Numeral.parseUnsigned usizeMax (algoSubstring.drop (algo.length + 1))
    if isValidAlgo algo then do
      let (filename, checksum) ← rsplitOnce (rest.drop (parIdx + 1)) (if posix then ascii ") = " else ascii ")= ")
      let checksum ← validateChecksumFormat checksum
      return ⟨some algo, algoBits, checksum, filename, .algoBased⟩
    else none

def parseUntagged (line : Bytes) : Option LineInfo := do
  let spaceIdx ← line.findIdx? (· == 32)
  let checksum ← validateChecksumFormat (line.take spaceIdx)
  let rest := line.drop spaceIdx
  if rest.take 2 = [32, 32] ∨ rest.take 2 = [32, 42] then return ⟨none, none, checksum, rest.drop 2, .untagged⟩
  else none

def parseSingleSpace (line : Bytes) : Option LineInfo := do
  let spaceIdx ← line.findIdx? (· == 32)
  let checksum := line.take spaceIdx
  if checksum.all (fun b => (Hex.digitValue b).isSome) ∧ checksum ≠ [] then
    return ⟨none, none, checksum, line.drop (spaceIdx + 1), .singleSpace⟩
  else none

/-- A line, with the format that is kept before and after it; the algorithm's own format is never kept. -/
def LineInfo.parse (line : Bytes) (cachedLineFormat : Option LineFormat) : Option LineInfo × Option LineFormat :=
  match parseAlgoBased line with
  | some info => (some info, cachedLineFormat)
  | none =>
    match cachedLineFormat with
    | some .untagged => (parseUntagged line, cachedLineFormat)
    | some .singleSpace => (parseSingleSpace line, cachedLineFormat)
    | some .algoBased => (none, cachedLineFormat)
    | none =>
      match parseUntagged line with
      | some info => (some info, some .untagged)
      | none =>
        match parseSingleSpace line with
        | some info => (some info, some .singleSpace)
        | none => (none, none)

/-- The digest of a checksum's text. -/
def getRawExpectedDigest (checksum : Bytes) (lenHint : Option HashLength) : Option Bytes :=
  let checksHint (len : Nat) : Bool := lenHint.all fun hint => hint.asBytes == len
  let base64 : Option Bytes :=
    if checksum.length % 4 = 0 then (c.forgivingDecode checksum).filter fun raw => checksHint raw.length else none
  if checksum.length % 2 ≠ 0 then none
  else if checksHint (checksum.length / 2) then
    match c.hexDecode checksum with
    | some raw => some raw
    | none => base64
  else base64

/-! ## Checking a line -/

inductive LineCheckError where
  | uError | improperlyFormatted | skipped
  deriving DecidableEq, Repr

/-- What is computed of which file, and what it is compared with. -/
structure Check where
  digest : Digest
  expectedChecksum : Bytes
  filename : Bytes
  deriving DecidableEq, Repr

def computeAndCheckDigestFromFile (filename expectedChecksum : Bytes) (algo : SizedAlgoKind) : Check :=
  ⟨algo.createDigest, expectedChecksum, unescapeFilename filename⟩

def identifyAlgoNameAndLength (info : LineInfo) (algoNameInput : Option AlgoKind) :
    Except LineCheckError (AlgoKind × Option HashLength) :=
  match AlgoKind.fromCksum ((info.algoName.getD []).map Ascii.toLower) with
  | none => .error .improperlyFormatted
  | some lineAlgo =>
    let agrees : Bool :=
      match algoNameInput with
      | none => true
      | some input =>
        input == lineAlgo || (input == .sha2 && [.sha224, .sha256, .sha384, .sha512].contains lineAlgo)
    if agrees then
      match info.algoBitLen, lineAlgo with
      | some bitlen, .blake2b | some bitlen, .blake3 =>
        match parseBlakeLength lineAlgo bitlen with
        | some len => .ok (lineAlgo, some len)
        | none => .error .improperlyFormatted
      | some bitlen, .sha2 | some bitlen, .sha3 =>
        if bitlen ∈ [224, 256, 384, 512] then .ok (lineAlgo, some ⟨bitlen⟩) else .error .improperlyFormatted
      | some bitlen, .shake128 | some bitlen, .shake256 => .ok (lineAlgo, some ⟨bitlen⟩)
      | some _, _ => .error .improperlyFormatted
      | none, .blake2b => .ok (.blake2b, some ⟨512⟩)
      | none, .blake3 => .ok (.blake3, some ⟨256⟩)
      | none, _ => .ok (lineAlgo, none)
    else .error .improperlyFormatted

/-- The length of a tagged digest, where it is known. -/
def algoBasedHint (algoKind : AlgoKind) (algoLen : Option HashLength) : Option HashLength :=
  match algoKind with
  | .blake2b | .blake3 => algoLen
  | .shake128 => some (algoLen.getD ⟨256⟩)
  | .shake256 => some (algoLen.getD ⟨512⟩)
  | _ => none

def processAlgoBasedLine (info : LineInfo) (cliAlgoKind : Option AlgoKind) : Except LineCheckError Check :=
  match identifyAlgoNameAndLength info cliAlgoKind with
  | .error e => .error e
  | .ok (algoKind, algoLen) =>
    match getRawExpectedDigest c info.checksum (algoBasedHint algoKind algoLen) with
    | none => .error .improperlyFormatted
    | some expectedChecksum =>
      match SizedAlgoKind.fromUnsized algoKind algoLen with
      | none => .error .improperlyFormatted
      | some algo => .ok (computeAndCheckDigestFromFile info.filename expectedChecksum algo)

/-- The length for an untagged digest, some of which are found out by its own length. -/
def untaggedLength (cliAlgoKind : AlgoKind) (cliAlgoLength : Option HashLength) (bytes : Nat) :
    Option (Option HashLength) :=
  match cliAlgoKind with
  | .blake2b | .blake3 => some (some (.fromBytes bytes))
  | .sha2 | .sha3 => (ShaLength.tryFrom (bytes * 8)).map fun len => some ⟨len.asUsize⟩
  | _ => some cliAlgoLength

def processNonAlgoBasedLine (lineNumber : Nat) (info : LineInfo) (cliAlgoKind : AlgoKind)
    (cliAlgoLength : Option HashLength) : Except LineCheckError Check :=
  let filename :=
    if info.filename.head? = some 42 ∧ lineNumber = 0 ∧ info.format = .singleSpace then info.filename.drop 1
    else info.filename
  match getRawExpectedDigest c info.checksum cliAlgoKind.expectedDigestBitLen with
  | none => .error .improperlyFormatted
  | some expectedChecksum =>
    match untaggedLength cliAlgoKind cliAlgoLength expectedChecksum.length with
    | none => .error .improperlyFormatted
    | some algoLen =>
      match SizedAlgoKind.fromUnsized cliAlgoKind algoLen with
      | none => .error .uError
      | some algo => .ok (computeAndCheckDigestFromFile filename expectedChecksum algo)

def processChecksumLine (line : Bytes) (i : Nat) (cliAlgoName : Option AlgoKind) (cliAlgoLength : Option HashLength)
    (cachedLineFormat : Option LineFormat) : Except LineCheckError Check × Option LineFormat :=
  if line = [] ∨ line.head? = some 35 then (.error .skipped, cachedLineFormat)
  else
    match LineInfo.parse line cachedLineFormat with
    | (none, cached) => (.error .improperlyFormatted, cached)
    | (some info, cached) =>
      (match info.format, cliAlgoName with
        | .algoBased, _ => processAlgoBasedLine c info cliAlgoName
        | _, some cliAlgo => processNonAlgoBasedLine c i info cliAlgo cliAlgoLength
        | _, none => .error .improperlyFormatted, cached)

/-! ## Checking a file -/

/-- A line without its end. -/
def trimLine (line : Bytes) : Bytes :=
  if line.getLast? = some 10 then
    if line.dropLast.getLast? = some 13 then line.dropLast.dropLast else line.dropLast
  else line

def readByteLines (text : Bytes) : List Bytes := (Lines.pieces 10 text).map trimLine

/-- The outcomes of the lines, up to an error that ends the run. -/
def processLines (cliAlgoKind : Option AlgoKind) (cliAlgoLength : Option HashLength) :
    Nat → Option LineFormat → List Bytes → List (Except LineCheckError Check)
  | _, _, [] => []
  | i, cached, line :: lines =>
    match processChecksumLine c line i cliAlgoKind cliAlgoLength cached with
    | (.error .uError, _) => [.error .uError]
    | (r, cached) => r :: processLines cliAlgoKind cliAlgoLength (i + 1) cached lines

def processChecksumFile (text : Bytes) (cliAlgoKind : Option AlgoKind) (cliAlgoLength : Option HashLength) :
    List (Except LineCheckError Check) :=
  processLines c cliAlgoKind cliAlgoLength 0 none (readByteLines text)

end Peiosutils.Checksum
