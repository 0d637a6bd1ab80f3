import Peiosutils.Lib.Fallible
import Peiosutils.Tr.Parser

/-!
# Translating, deleting and squeezing (`operation.rs`, `simd.rs`, `tr.rs`)

The two sets are expanded to lists of bytes, from which tables of all bytes are made. The input comes in reads; what is
written is one list. Sets that do not fit into memory and errors of the system are left out.
-/

set_option autoImplicit false

namespace Peiosutils.Tr

/-! ## Expanding the sets -/

/-- All bytes from `l` to `r`. -/
def span (l r : Nat) : Bytes := (List.range (r + 1 - l)).map fun i => UInt8.ofNat (l + i)

def allBytes : Bytes := span 0 255

def Class.flatten : Class → Bytes
  | .alnum => span 48 57 ++ span 65 90 ++ span 97 122
  | .alpha => span 65 90 ++ span 97 122
  | .blank => [0x9, 0x20]
  | .control => span 0 31 ++ [127]
  | .digit => span 48 57
  | .graph => span 48 57 ++ span 65 90 ++ span 97 122 ++ span 33 47 ++ span 58 64 ++ span 91 96 ++ span 123 126
  | .lower => span 97 122
  | .print =>
    span 48 57 ++ span 65 90 ++ span 97 122 ++ span 33 47 ++ span 58 64 ++ span 91 96 ++ span 123 126 ++ [32]
  | .punct => span 33 47 ++ span 58 64 ++ span 91 96 ++ span 123 126
  | .space => [0x9, 0xA, 0xB, 0xC, 0xD, 0x20]
  | .upper => span 65 90
  | .xdigit => span 48 57 ++ span 65 70 ++ span 97 102

namespace Sequence

/-- A star is replaced before a set is flattened (`isCharStar_compensated`). -/
def flatten : Sequence → Bytes
  | char c => [c]
  | charRange l r => span l.toNat r.toNat
  | charStar _ => []
  | charRepeat c n => List.replicate n c
  | .class c => c.flatten

def isCharStar : Sequence → Bool
  | charStar _ => true
  | _ => false

def isClass : Sequence → Bool
  | .class _ => true
  | _ => false

/-- An upper or lower case class. -/
def isCaseClass : Sequence → Bool
  | .class .upper => true
  | .class .lower => true
  | _ => false

def expand (set : List Sequence) : Bytes := set.flatMap flatten

def complementIf (complementFlag : Bool) (set : Bytes) : Bytes :=
  if complementFlag then allBytes.filter (· ∉ set) else set

/-- Replaces the star. -/
def compensate (starCompensateLen : Nat) : Sequence → Option Sequence
  | charStar c => if c = 0 then none else some (charRepeat c starCompensateLen)
  | s => some s

/-- For every class of the second set there is one at the same position of the first, in bytes. -/
def classesMatch (set1 set2 : List Sequence) : Bool :=
  set2.zipIdx.all fun item2 => !item2.1.isClass ||
    set1.zipIdx.any fun item1 =>
      item1.1.isClass && (expand (set1.take item1.2)).length == (expand (set2.take item2.2)).length

def uniques (set : Bytes) : Bytes := allBytes.filter (· ∈ set)

def check (c : Bool) (e : BadSequence) : Except BadSequence Unit := if c then .error e else .ok ()

/-- What is done about a second set that is shorter than the first. -/
def truncateSet1 (set1 set2 : List Sequence) (set1Solved : Bytes) (complementFlag truncateSet1Flag : Bool) :
    Except BadSequence Bytes :=
  let set2Solved := expand set2
  if set2Solved.length < set1Solved.length then
    if truncateSet1Flag then
      if complementFlag && set1.any isClass then
        let truncatedSet1 := (expand set1).take set2Solved.length
        let set1Solved := complementIf true truncatedSet1
        if 1 < (uniques set2Solved).length || set2Solved.length < set1Solved.length then
          .error .complementMoreThanOneUniqueInSet2
        else .ok set1Solved
      else .ok (set1Solved.take set2Solved.length)
    else if set2.getLast?.any isCaseClass then .error .set1LongerSet2EndsInClass
    else .ok set1Solved
  else .ok set1Solved

def solveSetCharacters (set1Str set2Str : Bytes) (complementFlag truncateSet1Flag translating : Bool) :
    Except BadSequence (Bytes × Bytes) := do
  let set1 ← fromStr set1Str
  check ((set1.filter isCharStar).length != 0) .charRepeatInSet1
  let set2 ← fromStr set2Str
  check (1 < (set2.filter isCharStar).length) .multipleCharRepeatInSet2
  check (translating && set2.any fun s => s.isClass && !s.isCaseClass) .classExceptLowerUpperInSet2
  let set1Solved := complementIf complementFlag (expand set1)
  let set2Len := (expand (set2.filter (!isCharStar ·))).length
  let set2 := set2.filterMap (compensate (set1Solved.length - set2Len))
  check (!classesMatch set1 set2) .classInSet2NotMatchedBySet1
  let set2Solved := expand set2
  check (set1.any isClass && translating && complementFlag &&
    (1 < (uniques set2Solved).length || set1Solved.length < set2Solved.length)) .complementMoreThanOneUniqueInSet2
  let set1Solved ← truncateSet1 set1 set2 set1Solved complementFlag truncateSet1Flag
  return (set1Solved, set2Solved)

end Sequence

/-! ## Operations -/

/-- `[bool; 256]`. -/
def setToBitmap (set : Bytes) (b : UInt8) : Bool := set.foldl (fun bitmap byte => Function.update bitmap byte true)
  (fun _ => false) b

/-- The only place of a table that meets the check, if there is one only. -/
def findSingleChange {α : Type} (table : UInt8 → α) (check : UInt8 → α → Bool) : Option (UInt8 × α) :=
  match ((allBytes.filter fun b => check b (table b)).map fun b => (b, table b)).take 2 with
  | [change] => some change
  | _ => none

def processSingleCharReplace (input : Bytes) (sourceChar targetChar : UInt8) : Bytes :=
  let count := input.count sourceChar
  if count = 0 then input
  else if count = input.length then List.replicate input.length targetChar
  else input.map fun b => if b = sourceChar then targetChar else b

def processSingleDelete (input : Bytes) (deleteChar : UInt8) : Bytes :=
  let count := input.count deleteChar
  if count = 0 then input
  else if count < input.length then input.filter (· ≠ deleteChar)
  else []

structure DeleteOperation where
  deleteTable : UInt8 → Bool

namespace DeleteOperation

def new (set : Bytes) : DeleteOperation := ⟨setToBitmap set⟩

def translate (op : DeleteOperation) (current : UInt8) : Option UInt8 :=
  if op.deleteTable current then none else some current

def processChunk (op : DeleteOperation) (input : Bytes) : Bytes :=
  match findSingleChange op.deleteTable fun _ shouldDelete => shouldDelete with
  | some (deleteChar, _) => processSingleDelete input deleteChar
  | none => input.filter fun b => !op.deleteTable b

end DeleteOperation

structure TranslateOperation where
  translationTable : UInt8 → UInt8

namespace TranslateOperation

/-- The last byte of the second set goes on as long as it is wanted; a later translation of a byte wins. -/
def new (set1 set2 : Bytes) : Except BadSequence TranslateOperation :=
  match set2.getLast? with
  | some fallback =>
    .ok ⟨(set1.zip (set2 ++ List.replicate set1.length fallback)).foldl
      (fun table pair => Function.update table pair.1 pair.2) id⟩
  | none => if set1 = [] then .ok ⟨id⟩ else .error .emptySet2WhenNotTruncatingSet1

def translate (op : TranslateOperation) (current : UInt8) : Option UInt8 := some (op.translationTable current)

def processChunk (op : TranslateOperation) (input : Bytes) : Bytes :=
  match findSingleChange op.translationTable fun i val => val != i with
  | some (source, target) => processSingleCharReplace input source target
  | none => input.map op.translationTable

end TranslateOperation

structure SqueezeOperation where
  squeezeTable : UInt8 → Bool
  previous : Option UInt8

namespace SqueezeOperation

def new (set1 : Bytes) : SqueezeOperation := ⟨setToBitmap set1, none⟩

def translate (op : SqueezeOperation) (current : UInt8) : Option UInt8 × SqueezeOperation :=
  (if op.squeezeTable current ∧ op.previous = some current then none else some current,
    { op with previous := some current })

end SqueezeOperation

/-- A first stage without a state of its own, and a squeezing second one. -/
structure Chained where
  stageA : UInt8 → Option UInt8
  stageB : SqueezeOperation

def Chained.translate (op : Chained) (current : UInt8) : Option UInt8 × Chained :=
  match op.stageA current with
  | none => (none, op)
  | some c => ((op.stageB.translate c).1, { op with stageB := (op.stageB.translate c).2 })

/-! ## The input -/

inductive Read where
  | bytes (b : Bytes)
  | interrupted
  deriving DecidableEq, Repr

/-- Chunks are processed until one is empty. -/
def processInput (processChunk : Bytes → Bytes) : List Read → Bytes
  | [] => []
  | .interrupted :: reads => processInput processChunk reads
  | .bytes b :: reads => if b = [] then [] else processChunk b ++ processInput processChunk reads

/-- Translates a buffer. -/
def translateBuffer {σ : Type} (translate : σ → UInt8 → Option UInt8 × σ) (translator : σ) : Bytes → Bytes × σ
  | [] => ([], translator)
  | b :: bs =>
    let (first, translator) := translate translator b
    let (rest, translator) := translateBuffer translate translator bs
    (first.toList ++ rest, translator)

def translateInput {σ : Type} (translate : σ → UInt8 → Option UInt8 × σ) (translator : σ) : List Read → Bytes
  | [] => []
  | .interrupted :: reads => translateInput translate translator reads
  | .bytes b :: reads =>
    if b = [] then []
    else
      let (out, translator) := translateBuffer translate translator b
      out ++ translateInput translate translator reads

structure Flags where
  deleteFlag : Bool
  complementFlag : Bool
  squeezeFlag : Bool
  truncateSet1Flag : Bool

/-- `uumain` behind the checks of its operands. -/
def uumain (flags : Flags) (set1 : Bytes) (set2 : Option Bytes) (reads : List Read) : Except BadSequence Bytes := do
  let translating := !flags.deleteFlag && set2.isSome
  let (s1, s2) ← Sequence.solveSetCharacters set1 (set2.getD []) flags.complementFlag
    (flags.truncateSet1Flag && translating) translating
  if flags.deleteFlag then
    if flags.squeezeFlag then
      .ok (translateInput Chained.translate ⟨(DeleteOperation.new s1).translate, .new s2⟩ reads)
    else .ok (processInput (DeleteOperation.new s1).processChunk reads)
  else if flags.squeezeFlag then
    if set2.isNone then .ok (translateInput SqueezeOperation.translate (.new s1) reads)
    else do
      let op ← TranslateOperation.new s1 s2
      .ok (translateInput Chained.translate ⟨op.translate, .new s2⟩ reads)
  else do
    let op ← TranslateOperation.new s1 s2
    .ok (processInput op.processChunk reads)

end Peiosutils.Tr
