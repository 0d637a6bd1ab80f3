import Mathlib.Data.List.Basic
import Peiosutils.Lib.Fallible
import Peiosutils.Lib.Hex

/-!
# Errors of `part`

The variants of `PartError`; their texts are the ones the source formats. `hex32` is the `{:#010x}` of a CRC.
-/

set_option autoImplicit false

namespace Peiosutils.Part

inductive PartError where
  /-- Bad invocation, or a request that cannot be satisfied as asked. -/
  | usage (message : String)
  /-- The device could not be read or written. -/
  | io (path : String) (source : String)
  | noGpt
  /-- A GPT is present but structurally wrong. -/
  | damaged (message : String)
  | foreign (message : String)
  | noSpace (wanted largest : UInt64)
  | refused (message : String)
  deriving DecidableEq, Repr

/-- The two verdicts on a disk: no GPT, or a damaged one. -/
def PartError.Reports (e : PartError) : Prop := e = .noGpt ∨ ∃ message, e = .damaged message

theorem PartError.Reports.damaged (message : String) : (PartError.damaged message).Reports := Or.inr ⟨message, rfl⟩

def hex32 (v : UInt32) : String := "0x" ++ String.ofList (Hex.hexDigits 8 v.toNat)

end Peiosutils.Part

/-!
# GUIDs, in their on-disk byte order
-/

namespace Peiosutils.Part

/-- A 128-bit GUID: sixteen bytes. -/
structure Guid where
  bytes : List UInt8
  length_bytes : bytes.length = 16
  deriving DecidableEq

attribute [simp] Guid.length_bytes

namespace Guid

/-- The all-zero GUID, which GPT uses to mean "this entry is unused". -/
def ZERO : Guid := ⟨List.replicate 16 0, by simp⟩

def isZero (g : Guid) : Bool := g.bytes = List.replicate 16 0

def fromBytes (b : List UInt8) : Option Guid :=
  if h : 16 ≤ b.length then some ⟨b.take 16, by simp [h]⟩ else none

@[ext] theorem ext {g g' : Guid} (h : g.bytes = g'.bytes) : g = g' := by
  cases g; cases g'; cases h; rfl

@[simp] theorem isZero_ZERO : ZERO.isZero = true := by decide

/-- The sixteen bytes of a GUID read back as the GUID. -/
@[simp] theorem fromBytes_bytes (g : Guid) : fromBytes g.bytes = some g := by
  rw [fromBytes, dif_pos (by simp)]
  exact congrArg some (ext (List.take_of_length_le (by simp)))

theorem fromBytes_eq_some {b : List UInt8} (h : b.length = 16) : fromBytes b = some ⟨b, h⟩ := by
  rw [fromBytes, dif_pos (by omega)]
  exact congrArg some (ext (List.take_of_length_le (by omega)))

instance : Inhabited Guid := ⟨ZERO⟩

end Guid

end Peiosutils.Part

/-!
# CRC-32/ISO-HDLC

The checksum that GPT specifies for its header and its entry array, half a byte at a time. The table model takes the
checksum as a parameter; this is the function it stands for.
-/

namespace Peiosutils.Part

/-- Shift one bit out of the register. -/
def crcBit (c : UInt32) : UInt32 := if c &&& 1 = 1 then (c >>> 1) ^^^ 0xEDB88320 else c >>> 1

/-- What shifting out each half byte adds to the register. -/
def crcTable : List UInt32 := (List.range 16).map fun i => Nat.repeat crcBit 4 (UInt32.ofNat i)

/-- Shift half a byte out of the register. -/
def crcHalf (c : UInt32) : UInt32 := crcTable.getD (c &&& 15).toNat 0 ^^^ (c >>> 4)

def crcByte (c : UInt32) (b : UInt8) : UInt32 := crcHalf (crcHalf (c ^^^ b.toUInt32))

def isoHdlc (data : List UInt8) : UInt32 := data.foldl crcByte 0xFFFFFFFF ^^^ 0xFFFFFFFF

/-- The check value of the algorithm, over the digits 1 to 9. -/
example : isoHdlc [0x31, 0x32, 0x33, 0x34, 0x35, 0x36, 0x37, 0x38, 0x39] = 0xCBF43926 := by decide +kernel

end Peiosutils.Part
