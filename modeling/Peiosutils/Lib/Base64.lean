import Mathlib.Tactic.IntervalCases
import Peiosutils.Lib.Hex
import Peiosutils.Lib.Numeral

/-!
# Bytes as text

`Base16.encode` writes two digits for each byte, and `Base64.encode` four letters for each three bytes, padded at the end.
Both are read back (`Base16.decode_encode`, `Base64.decode_encode`). A text is read as digits if its length is even and all
of it are digits (`Base16.isSome_decode`).
-/

set_option autoImplicit false

namespace Base16

open Hex

/-- Two digits for each byte, in lower case. -/
def encode (x : List UInt8) : List UInt8 := x.flatMap fun b => asciiBytes (hexDigits 2 b.toNat)

/-- Digits in either case, two for each byte. -/
def decode : List UInt8 → Option (List UInt8)
  | [] => some []
  | [_] => none
  | a :: b :: s => do
    let high ← digitValue a
    let low ← digitValue b
    let x ← decode s
    return UInt8.ofNat (16 * high + low) :: x

theorem encode_cons (b : UInt8) (x : List UInt8) :
    encode (b :: x) = UInt8.ofNat (Nat.digitChar (b.toNat / 16)).toNat ::
      UInt8.ofNat (Nat.digitChar (b.toNat % 16)).toNat :: encode x := by
  have hlt := b.toNat_lt
  rw [encode, List.flatMap_cons]
  simp only [hexDigits, asciiBytes, List.nil_append, List.map_cons, List.map_nil, List.cons_append]
  rw [Nat.mod_eq_of_lt (by omega : b.toNat / 16 < 16)]
  rfl

theorem length_encode (x : List UInt8) : (encode x).length = 2 * x.length := by
  induction x with
  | nil => rfl
  | cons b x ih =>
    rw [encode_cons, List.length_cons, List.length_cons, List.length_cons, ih]
    omega

theorem decode_encode (x : List UInt8) : decode (encode x) = some x := by
  induction x with
  | nil => rfl
  | cons b x ih =>
    have hlt := b.toNat_lt
    have hsum : 16 * (b.toNat / 16) + b.toNat % 16 = b.toNat := Nat.div_add_mod _ _
    rw [encode_cons, decode, digitValue_digitChar (by omega : b.toNat / 16 < 16),
      digitValue_digitChar (Nat.mod_lt _ (by omega)), ih]
    simp only [Option.bind_eq_bind, Option.bind_some, Option.pure_def, hsum, UInt8.ofNat_toNat]

theorem isSome_of_mem_encode {x : List UInt8} : ∀ b ∈ encode x, (digitValue b).isSome := by
  induction x with
  | nil => simp [encode]
  | cons b x ih =>
    have hlt := b.toNat_lt
    rw [encode_cons, List.forall_mem_cons, List.forall_mem_cons, digitValue_digitChar (by omega),
      digitValue_digitChar (Nat.mod_lt _ (by omega))]
    exact ⟨rfl, rfl, ih⟩

theorem isSome_decode : ∀ s : List UInt8, (decode s).isSome ↔ s.length % 2 = 0 ∧ ∀ b ∈ s, (digitValue b).isSome
  | [] => by simp [decode]
  | [a] => by simp [decode]
  | a :: b :: s => by
    have ih := isSome_decode s
    have hlen : (a :: b :: s).length % 2 = s.length % 2 := by simp only [List.length_cons]; omega
    rw [decode, hlen, List.forall_mem_cons, List.forall_mem_cons]
    cases ha : digitValue a with
    | none => simp
    | some high =>
      cases hb : digitValue b with
      | none => simp
      | some low =>
        cases hs : decode s with
        | none => rw [hs] at ih; simpa using ih
        | some x => rw [hs] at ih; simpa using ih

theorem length_of_decode : ∀ {s x : List UInt8}, decode s = some x → s.length = 2 * x.length
  | [], _, h => by cases h; rfl
  | [_], _, h => by cases h
  | a :: b :: s, x, h => by
    simp only [decode, Option.bind_eq_bind, Option.bind_eq_some_iff, Option.pure_def, Option.some.injEq] at h
    obtain ⟨_, -, _, -, y, hy, rfl⟩ := h
    have ih := length_of_decode hy
    simp only [List.length_cons, ih]
    omega

end Base16

namespace Base64

/-- The letter of six bits. -/
def letter (v : Nat) : UInt8 :=
  if v < 26 then UInt8.ofNat (65 + v)
  else if v < 52 then UInt8.ofNat (71 + v)
  else if v < 62 then UInt8.ofNat (v - 4)
  else if v = 62 then 43
  else 47

/-- The six bits of a letter. -/
def value (b : UInt8) : Option Nat :=
  if 65 ≤ b ∧ b ≤ 90 then some (b.toNat - 65)
  else if 97 ≤ b ∧ b ≤ 122 then some (b.toNat - 71)
  else if 48 ≤ b ∧ b ≤ 57 then some (b.toNat + 4)
  else if b = 43 then some 62
  else if b = 47 then some 63
  else none

/-- Four letters for each three bytes; fewer than three at the end are padded. -/
def encode : List UInt8 → List UInt8
  | [] => []
  | [a] => [letter (a.toNat / 4), letter (a.toNat % 4 * 16), 61, 61]
  | [a, b] => [letter (a.toNat / 4), letter (a.toNat % 4 * 16 + b.toNat / 16), letter (b.toNat % 16 * 4), 61]
  | a :: b :: c :: x =>
    letter (a.toNat / 4) :: letter (a.toNat % 4 * 16 + b.toNat / 16) ::
      letter (b.toNat % 16 * 4 + c.toNat / 64) :: letter (c.toNat % 64) :: encode x

/-- Letters without padding; bits that make no byte are passed over. -/
def decodeLetters : List UInt8 → Option (List UInt8)
  | [] => some []
  | [_] => none
  | [a, b] => do
    let a ← value a
    let b ← value b
    return [UInt8.ofNat (4 * a + b / 16)]
  | [a, b, c] => do
    let a ← value a
    let b ← value b
    let c ← value c
    return [UInt8.ofNat (4 * a + b / 16), UInt8.ofNat (b % 16 * 16 + c / 4)]
  | a :: b :: c :: d :: s => do
    let a ← value a
    let b ← value b
    let c ← value c
    let d ← value d
    let x ← decodeLetters s
    return UInt8.ofNat (4 * a + b / 16) :: UInt8.ofNat (b % 16 * 16 + c / 4) :: UInt8.ofNat (c % 4 * 64 + d) :: x

/-- Without one or two bytes of padding at the end. -/
def dropPadding (s : List UInt8) : List UInt8 :=
  match s.reverse with
  | 61 :: 61 :: t => t.reverse
  | 61 :: t => t.reverse
  | _ => s

/-- Without the padding of a whole number of groups. -/
def unpadded (s : List UInt8) : List UInt8 := if s.length % 4 = 0 then dropPadding s else s

/-- White space and missing padding are forgiven. -/
def decode (s : List UInt8) : Option (List UInt8) := decodeLetters (unpadded (s.filter (!Ascii.isWhitespace ·)))

theorem value_letter : ∀ v < 64, value (letter v) = some v := by decide

theorem letter_spec : ∀ v < 64, (Ascii.isAlphanumeric (letter v) ∨ letter v = 43 ∨ letter v = 47) ∧
    Ascii.isWhitespace (letter v) = false ∧ letter v ≠ 61 := by decide

theorem length_encode : ∀ x : List UInt8, (encode x).length = 4 * ((x.length + 2) / 3)
  | [] => rfl
  | [_] => by simp only [encode, List.length_cons, List.length_nil]
  | [_, _] => by simp only [encode, List.length_cons, List.length_nil]
  | a :: b :: c :: x => by
    have ih := length_encode x
    simp only [encode, List.length_cons, ih]
    omega

theorem ofNat_eq {a : UInt8} {n : Nat} (h : n % 256 = a.toNat) : UInt8.ofNat n = a := by
  apply UInt8.toNat_inj.1
  rw [UInt8.toNat_ofNat', h]

/-- Letters that are read back, and the padding. -/
theorem encode_text : ∀ x : List UInt8, ∃ body,
    encode x = body ++ List.replicate ((3 - x.length % 3) % 3) 61 ∧ (∀ b ∈ body, ∃ v < 64, b = letter v) ∧
      decodeLetters body = some x
  | [] => ⟨[], rfl, by simp, rfl⟩
  | [a] => by
    have ha := a.toNat_lt
    have h₁ : a.toNat / 4 < 64 := by omega
    have h₂ : a.toNat % 4 * 16 < 64 := by omega
    refine ⟨[letter (a.toNat / 4), letter (a.toNat % 4 * 16)], rfl, ?_, ?_⟩
    · simp only [List.forall_mem_cons]
      exact ⟨⟨_, h₁, rfl⟩, ⟨_, h₂, rfl⟩, by simp⟩
    · simp only [decodeLetters, value_letter _ h₁, value_letter _ h₂, Option.bind_eq_bind, Option.bind_some,
        Option.pure_def]
      rw [ofNat_eq (a := a) (by omega)]
  | [a, b] => by
    have ha := a.toNat_lt
    have hb := b.toNat_lt
    have h₁ : a.toNat / 4 < 64 := by omega
    have h₂ : a.toNat % 4 * 16 + b.toNat / 16 < 64 := by omega
    have h₃ : b.toNat % 16 * 4 < 64 := by omega
    refine ⟨[letter (a.toNat / 4), letter (a.toNat % 4 * 16 + b.toNat / 16), letter (b.toNat % 16 * 4)], rfl, ?_, ?_⟩
    · simp only [List.forall_mem_cons]
      exact ⟨⟨_, h₁, rfl⟩, ⟨_, h₂, rfl⟩, ⟨_, h₃, rfl⟩, by simp⟩
    · simp only [decodeLetters, value_letter _ h₁, value_letter _ h₂, value_letter _ h₃, Option.bind_eq_bind,
        Option.bind_some, Option.pure_def]
      rw [ofNat_eq (a := a) (by omega), ofNat_eq (a := b) (by omega)]
  | a :: b :: c :: x => by
    have ha := a.toNat_lt
    have hb := b.toNat_lt
    have hc := c.toNat_lt
    have h₁ : a.toNat / 4 < 64 := by omega
    have h₂ : a.toNat % 4 * 16 + b.toNat / 16 < 64 := by omega
    have h₃ : b.toNat % 16 * 4 + c.toNat / 64 < 64 := by omega
    have h₄ : c.toNat % 64 < 64 := by omega
    obtain ⟨body, htext, hbody, hread⟩ := encode_text x
    refine ⟨letter (a.toNat / 4) :: letter (a.toNat % 4 * 16 + b.toNat / 16) ::
      letter (b.toNat % 16 * 4 + c.toNat / 64) :: letter (c.toNat % 64) :: body, ?_, ?_, ?_⟩
    · rw [encode, htext, List.length_cons, List.length_cons, List.length_cons,
        show (x.length + 1 + 1 + 1) % 3 = x.length % 3 by omega]
      rfl
    · simp only [List.forall_mem_cons]
      exact ⟨⟨_, h₁, rfl⟩, ⟨_, h₂, rfl⟩, ⟨_, h₃, rfl⟩, ⟨_, h₄, rfl⟩, hbody⟩
    · simp only [decodeLetters, value_letter _ h₁, value_letter _ h₂, value_letter _ h₃, value_letter _ h₄, hread,
        Option.bind_eq_bind, Option.bind_some, Option.pure_def]
      rw [ofNat_eq (a := a) (by omega), ofNat_eq (a := b) (by omega), ofNat_eq (a := c) (by omega)]

/-- Padding is taken off, and a letter is none. -/
theorem dropPadding_append {body : List UInt8} (hbody : ∀ b ∈ body, b ≠ 61) {pad : Nat} (hpad : pad ≤ 2) :
    dropPadding (body ++ List.replicate pad 61) = body := by
  have hrev : ∀ b ∈ body.reverse, b ≠ 61 := fun b hb => hbody b (List.mem_reverse.1 hb)
  have heq : body = body.reverse.reverse := body.reverse_reverse.symm
  rw [dropPadding, List.reverse_append, List.reverse_replicate]
  rw [heq]
  generalize body.reverse = t at hrev
  rw [List.reverse_reverse]
  have hpads : pad = 0 ∨ pad = 1 ∨ pad = 2 := by omega
  cases t with
  | nil => rcases hpads with rfl | rfl | rfl <;> rfl
  | cons b t =>
    have hb : b ≠ 61 := hrev b List.mem_cons_self
    rcases hpads with rfl | rfl | rfl
    · simp [hb]
    · simp [hb]
    · simp

theorem decode_encode (x : List UInt8) : decode (encode x) = some x := by
  obtain ⟨body, htext, hbody, hread⟩ := encode_text x
  have hplain : ∀ b ∈ encode x, Ascii.isWhitespace b = false := by
    rw [htext, List.forall_mem_append]
    refine ⟨fun b hb => ?_, fun b hb => by rw [List.eq_of_mem_replicate hb]; rfl⟩
    obtain ⟨v, hv, rfl⟩ := hbody b hb
    exact (letter_spec v hv).2.1
  have hpadded : ∀ b ∈ body, b ≠ 61 := by
    intro b hb
    obtain ⟨v, hv, rfl⟩ := hbody b hb
    exact (letter_spec v hv).2.2
  rw [decode, List.filter_eq_self.2 (fun b hb => by rw [hplain b hb]; rfl), unpadded,
    if_pos (by rw [length_encode, Nat.mul_mod_right]), htext, dropPadding_append hpadded (by omega), hread]

end Base64
