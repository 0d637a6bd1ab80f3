import Peiosutils.Lib.Octal
import Peiosutils.Uucore.Quoting

/-!
# Names in the C style are read back (`c_quoter.rs`)

What is pushed holds all bytes of the name (`flatMap_pushes`). Each push writes a text that is read as its bytes
(`reads_newC`, `reads_newOctal`), so the name is read back from between its quotes (`readC_escapeNameInner`).
-/

set_option autoImplicit false

namespace Peiosutils.Quoting

open CEscape (Reads read octalEscape reads_literal reads_literals reads_letter reads_protected reads_octalEscape)
open Utf8 (Chunk chunks chunkBytes encode)
open EscapeState (newC newOctal collect mnemonic)

/-! ## Octal escapes -/

theorem encodeChar_digitChar {d : Nat} (h : d < 8) :
    String.utf8EncodeChar (Nat.digitChar d) = [UInt8.ofNat (48 + d)] := by
  interval_cases d <;> decide

theorem encode_digits (b : UInt8) : encode ['\\', Nat.digitChar (byteToOctalDigit b 2),
    Nat.digitChar (byteToOctalDigit b 1), Nat.digitChar (byteToOctalDigit b 0)] = octalEscape b := by
  have hlt : ∀ i, byteToOctalDigit b i < 8 := fun i => Nat.mod_lt _ (by decide)
  have hb := b.toNat_lt
  have hhigh : byteToOctalDigit b 2 = b.toNat / 64 := by
    unfold byteToOctalDigit
    omega
  rw [Utf8.encode_cons, Utf8.encode_cons, Utf8.encode_cons, Utf8.encode_cons, Utf8.encode_nil,
    encodeChar_digitChar (hlt 2), encodeChar_digitChar (hlt 1), encodeChar_digitChar (hlt 0), hhigh,
    show String.utf8EncodeChar '\\' = [92] by decide]
  simp only [byteToOctalDigit, Nat.pow_one, Nat.pow_zero, Nat.div_one]
  rfl

theorem encode_newOctal (b : UInt8) : encode (newOctal b).collect = octalEscape b := encode_digits b

/-- Both bytes of a character of two. -/
theorem encodeChar_two_bytes {c : Char} (hlo : 128 ≤ c.toNat) (hhi : c.toNat < 2048) :
    ∃ b₀ b₁, String.utf8EncodeChar c = [b₀, b₁] := by
  have hlo' : ¬ c.val.toNat ≤ 127 := Nat.not_le.2 hlo
  have hhi' : c.val.toNat ≤ 2047 := Nat.le_of_lt_succ hhi
  unfold String.utf8EncodeChar
  simp only [if_neg hlo', if_pos hhi']
  exact ⟨_, _, rfl⟩

/-- A control character is written as its one or two bytes. -/
theorem encode_fromChar {c : Char} (h : isControl c = true) :
    encode (EscapeState.octal (.fromChar c)).collect = (String.utf8EncodeChar c).flatMap octalEscape := by
  by_cases hascii : c.toNat < 128
  · have hbytes := Utf8.encodeChar_ascii hascii
    have hchar : EscapeOctal.fromChar c = .fromByte (UInt8.ofNat c.toNat) := by
      simp only [EscapeOctal.fromChar, hbytes]
    rw [hchar, hbytes, List.flatMap_singleton]
    exact encode_newOctal _
  · have hcontrol : c.toNat < 160 := by
      simp only [isControl, Bool.or_eq_true, Bool.and_eq_true, decide_eq_true_eq] at h
      omega
    obtain ⟨b₀, b₁, hbytes⟩ := encodeChar_two_bytes (Nat.not_lt.1 hascii) (by omega)
    have hchar : EscapeOctal.fromChar c = ⟨(b₀, b₁), .firstBackslash, 2⟩ := by
      simp only [EscapeOctal.fromChar, hbytes]
    rw [hchar, hbytes, List.flatMap_cons, List.flatMap_singleton, ← encode_digits, ← encode_digits,
      ← Utf8.encode_append]
    rfl

/-! ## What is pushed -/

/-- All bytes of the name. -/
theorem flatMap_pushes (encoding : UEncoding) (name : List UInt8) :
    (pushes encoding name).flatMap chunkBytes = name := by
  cases encoding with
  | utf8 => exact Utf8.flatMap_chunks name
  | ascii =>
    rw [pushes, List.flatMap_map]
    conv_rhs => rw [← List.flatMap_singleton' name]
    refine List.flatMap_congr fun b _ => ?_
    split
    · rename_i h
      exact Utf8.encodeChar_one h
    · rfl

/-! ## Characters of the C style -/

/-- The letter that is read as a character. -/
theorem letterByte_of_mnemonic {c l : Char} (h : mnemonic c = some l) :
    encode ['\\', l] = [92, UInt8.ofNat l.toNat] ∧ String.utf8EncodeChar c = [UInt8.ofNat c.toNat] ∧
      CEscape.letterByte (UInt8.ofNat l.toNat) = some (UInt8.ofNat c.toNat) := by
  unfold mnemonic at h
  split at h <;> cases h <;> decide

theorem collect_backslash (c : Char) : (EscapeState.backslash c).collect = ['\\', c] := rfl

/-- The quote at the end. -/
def closing (quotes : Quotes) : Option UInt8 := quotes.byte.head?

/-- A character that stays as it is: it isn't the backslash, nor the quote at the end. -/
theorem reads_char {c : Char} {quotes : Quotes} (hslash : c ≠ '\\') (hsingle : quotes = .single → c ≠ '\'')
    (hdouble : quotes = .double → c ≠ '"') :
    Reads (closing quotes) (encode [c]) (String.utf8EncodeChar c) := by
  rw [Utf8.encode_cons, Utf8.encode_nil, List.append_nil]
  refine reads_literals fun b hb => ?_
  have hmem : ∀ {d : Char}, d.toNat < 128 → UInt8.ofNat d.toNat = b → c = d := by
    rintro d hd rfl
    have := @Utf8.mem_of_mem_encode d hd [c] (List.mem_append_left _ hb)
    exact (List.mem_singleton.1 this).symm
  refine ⟨fun e => hslash (@hmem '\\' (by decide) e.symm), fun e => ?_⟩
  cases quotes with
  | none => cases e
  | single => exact hsingle rfl (@hmem '\'' (by decide) (Option.some.inj e).symm)
  | double => exact hdouble rfl (@hmem '"' (by decide) (Option.some.inj e).symm)

/-- A character behind a backslash. -/
theorem reads_backslash {c : Char} (h : c ∈ ['\\', '\'', '"', ' ', ':']) {close : Option UInt8} :
    Reads close (encode (EscapeState.backslash c).collect) (String.utf8EncodeChar c) := by
  have hbytes : encode ['\\', c] = [92, UInt8.ofNat c.toNat] ∧ String.utf8EncodeChar c = [UInt8.ofNat c.toNat] ∧
      UInt8.ofNat c.toNat ∈ CEscape.literals := by
    simp only [List.mem_cons, List.not_mem_nil, or_false] at h
    rcases h with rfl | rfl | rfl | rfl | rfl <;> decide
  obtain ⟨hout, hchar, hliteral⟩ := hbytes
  rw [collect_backslash, hout, hchar]
  exact reads_protected hliteral

theorem hideControl_backslash (c : Char) : (EscapeState.backslash c).hideControl = .backslash c := rfl

theorem hideControl_octal (e : EscapeOctal) : (EscapeState.octal e).hideControl = .octal e := rfl

theorem hideControl_char {c : Char} (h : isControl c = false) : (EscapeState.char c).hideControl = .char c := by
  rw [EscapeState.hideControl, h]
  rfl

/-- What a character is written as is read as its bytes. -/
theorem reads_newC (c : Char) (quotes : Quotes) (dirname : Bool) :
    Reads (closing quotes) (encode (newC c quotes dirname).hideControl.collect) (String.utf8EncodeChar c) := by
  unfold newC
  split
  · rename_i l hl
    obtain ⟨hout, hchar, hletter⟩ := letterByte_of_mnemonic hl
    rw [hideControl_backslash, collect_backslash, hout, hchar]
    exact reads_letter hletter
  split
  · rename_i hc
    subst hc
    exact reads_backslash (by decide)
  rename_i hslash
  split
  · rename_i hc
    subst hc
    split
    · exact reads_backslash (by decide)
    · rename_i hquotes
      exact reads_char hslash (fun h => absurd h hquotes) fun _ => by decide
  rename_i hsingle
  split
  · rename_i hc
    subst hc
    split
    · exact reads_backslash (by decide)
    · rename_i hquotes
      exact reads_char hslash (fun _ => hsingle) fun h => absurd h hquotes
  rename_i hdouble
  split
  · rename_i hc
    obtain ⟨rfl, -⟩ := hc
    split
    · exact reads_backslash (by decide)
    · exact reads_char hslash (fun _ => hsingle) fun _ => hdouble
  split
  · rename_i hc
    obtain ⟨rfl, -⟩ := hc
    exact reads_backslash (by decide)
  split
  · rename_i hcontrol
    rw [hideControl_octal, encode_fromChar hcontrol]
    have := Reads.flatMap fun b (_ : b ∈ String.utf8EncodeChar c) => @reads_octalEscape (closing quotes) b
    rwa [List.flatMap_singleton'] at this
  · rename_i hcontrol
    rw [hideControl_char (Bool.eq_false_iff.2 hcontrol)]
    exact reads_char hslash (fun _ => hsingle) fun _ => hdouble

/-! ## Names -/

/-- What a chunk is written as. -/
def outC (quotes : Quotes) (dirname : Bool) : Chunk → List UInt8
  | .inl c => encode (newC c quotes dirname).hideControl.collect
  | .inr bytes => bytes.flatMap octalEscape

theorem reads_outC (quotes : Quotes) (dirname : Bool) (chunk : Chunk) :
    Reads (closing quotes) (outC quotes dirname chunk) (chunkBytes chunk) := by
  cases chunk with
  | inl c => exact reads_newC c quotes dirname
  | inr bytes =>
    have := Reads.flatMap fun b (_ : b ∈ bytes) => @reads_octalEscape (closing quotes) b
    rw [List.flatMap_singleton'] at this
    exact this

theorem pushInvalid_eq (q : CQuoter) (bytes : List UInt8) :
    q.pushInvalid bytes = { q with buffer := q.buffer ++ outC q.quotes q.dirname (.inr bytes) } := by
  rw [CQuoter.pushInvalid, outC]
  induction bytes generalizing q with
  | nil => simp
  | cons b bytes ih =>
    rw [List.foldl_cons, ih, List.flatMap_cons, newOctal, hideControl_octal, ← List.append_assoc]
    exact congrArg (fun out => { q with buffer := q.buffer ++ out ++ bytes.flatMap octalEscape }) (encode_newOctal b)

theorem pushName_c (q : CQuoter) (name : List Chunk) : pushName CQuoter.pushChar CQuoter.pushInvalid q name =
    { q with buffer := q.buffer ++ name.flatMap (outC q.quotes q.dirname) } := by
  unfold pushName
  induction name generalizing q with
  | nil => simp
  | cons chunk name ih =>
    have hpush : chunk.elim q.pushChar q.pushInvalid =
        { q with buffer := q.buffer ++ outC q.quotes q.dirname chunk } := by
      cases chunk with
      | inl c => rfl
      | inr bytes => exact pushInvalid_eq q bytes
    rw [List.foldl_cons, hpush, ih, List.flatMap_cons]
    simp

/-- Reads what is between the quotes. -/
def readC (quotes : Quotes) (out : List UInt8) : Option (List UInt8) :=
  if out.take quotes.byte.length = quotes.byte then read (closing quotes) (out.drop quotes.byte.length) else none

/-- **The C style loses nothing.** Without the quote in front, what is written is read as the name, up to the quote that
is the last byte. -/
theorem readC_escapeNameInner (name : List UInt8) (quotes : Quotes) (dirname : Bool) (encoding : UEncoding) :
    readC quotes (escapeNameInner name (.c quotes) dirname encoding) = some name := by
  have hreads := Reads.flatMap fun chunk (_ : chunk ∈ pushes encoding name) => reads_outC quotes dirname chunk
  have hend : read (closing quotes) quotes.byte = some [] := by
    cases quotes with
    | none => rfl
    | single => exact CEscape.read_close (by decide)
    | double => exact CEscape.read_close (by decide)
  simp only [escapeNameInner, pushName_c, CQuoter.finalize, CQuoter.new, readC, List.append_assoc, List.take_left,
    if_true, List.drop_left]
  rw [hreads, hend, flatMap_pushes, Option.map_some, List.append_nil]

end Peiosutils.Quoting
