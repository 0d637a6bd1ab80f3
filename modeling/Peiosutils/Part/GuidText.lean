import Peiosutils.Lib.Bytes
import Peiosutils.Lib.Hex
import Peiosutils.Lib.Lines
import Peiosutils.Lib.Utf8
import Peiosutils.Part.Basics
import Peiosutils.Regman.Fragment

/-!
# The text of a GUID

Five groups of digits, of which the first three are stored little-endian and the last two as written. Every GUID reads
back from its text. `parse` accepts the canonical texts and also those in which `from_str_radix` skips a plus sign: in
front of one of the first three groups, or of a pair of digits in the last two (`parse_isSome`). So it is exact just on
the texts without such a sign (`parse_exact_iff`).
-/

set_option autoImplicit false

namespace Peiosutils.Part

open ByteStore Hex
open Regman (Str trim isWhitespace trim_eq_self)

namespace Guid

/-- One pair of braces around the text, if there is one, is left out. -/
def unbrace (s : Str) : Str :=
  match s with
  | '\x7b' :: r => if r.getLast? = some '\x7d' then r.dropLast else s
  | _ => s

/-- The bytes of pairs of digits. -/
def hexPairs : List UInt8 → Option (List UInt8)
  | a :: b :: s => do
    let x ← fromHex [a, b]
    let out ← hexPairs s
    pure (UInt8.ofNat x :: out)
  | _ => some []

/-- `n` bytes from their digits, as written. -/
def hexInto (s : List UInt8) (n : Nat) : Option (List UInt8) := if s.length ≠ n * 2 then none else hexPairs s

/-- The canonical textual form, with or without surrounding braces. -/
def parse (s : Str) : Option Guid :=
  match ((unbrace (trim s)).splitOn '-').map Utf8.encode with
  | [f₀, f₁, f₂, f₃, f₄] =>
    if f₀.length ≠ 8 ∨ f₁.length ≠ 4 ∨ f₂.length ≠ 4 ∨ f₃.length ≠ 4 ∨ f₄.length ≠ 12 then none
    else do
      let d₁ ← fromHex f₀
      let d₂ ← fromHex f₁
      let d₃ ← fromHex f₂
      -- groups 4 and 5 are stored big-endian, i.e. exactly as written
      let b₄ ← hexInto f₃ 2
      let b₅ ← hexInto f₄ 6
      fromBytes (u32le (UInt32.ofNat d₁) ++ u16le (UInt16.ofNat d₂) ++ u16le (UInt16.ofNat d₃) ++ b₄ ++ b₅)
  | _ => none

/-- `w` digits in upper case. -/
def upperHex (w n : Nat) : Str := (hexDigits w n).map Char.toUpper

def display (g : Guid) : Str :=
  let b := g.bytes
  upperHex 8 (ofLe32 (slice b 0 4)).toNat ++ '-' :: upperHex 4 (ofLe16 (slice b 4 2)).toNat ++
    '-' :: upperHex 4 (ofLe16 (slice b 6 2)).toNat ++ '-' :: (slice b 8 2).flatMap (fun x => upperHex 2 x.toNat) ++
    '-' :: (slice b 10 6).flatMap fun x => upperHex 2 x.toNat

/-! ## What a text should be -/

/-- Five groups of 8, 4, 4, 4 and 12 hexadecimal digits, with hyphens between them. -/
def Canonical (t : Str) : Prop :=
  (t.splitOn '-').map List.length = [8, 4, 4, 4, 12] ∧ ∀ f ∈ t.splitOn '-', ∀ c ∈ f, isHexDigit c = true

instance (t : Str) : Decidable (Canonical t) := inferInstanceAs (Decidable (_ ∧ _))

/-- Where a group may have a plus sign: in front of one of the first three, or of a pair of the last two. -/
def SignPlace (j i : Nat) : Prop := if j < 3 then i = 0 else i % 2 = 0

instance (j i : Nat) : Decidable (SignPlace j i) := inferInstanceAs (Decidable (if j < 3 then _ else _))

/-- A canonical text, but that digits may be replaced by plus signs in those places. -/
def Signable (t : Str) : Prop :=
  (t.splitOn '-').map List.length = [8, 4, 4, 4, 12] ∧
    ∀ j f, (t.splitOn '-')[j]? = some f → ∀ i c, f[i]? = some c → isHexDigit c = true ∨ c = '+' ∧ SignPlace j i

/-! ## Reading digits and signs -/

/-- What a number of at least two bytes may have: digits, and a sign in front. -/
theorem isSome_fromHex {bs : List UInt8} (hbs : 2 ≤ bs.length) : (fromHex bs).isSome ↔
    ∀ (i : Nat) (b : UInt8), bs[i]? = some b → (digitValue b).isSome = true ∨ b = 43 ∧ i = 0 := by
  match bs, hbs with
  | a :: a' :: bs, _ =>
    have hrest : (readDigits 0 (a' :: bs)).isSome ↔
        ∀ (i : Nat) (b : UInt8), (a' :: bs)[i]? = some b → (digitValue b).isSome = true := by
      rw [isSome_readDigits]
      constructor
      · exact fun h i b hi => h b (List.mem_of_getElem? hi)
      · intro h b hb
        obtain ⟨i, hi⟩ := List.getElem?_of_mem hb
        exact h i b hi
    by_cases ha : a = 43
    · rw [fromHex, if_pos ha, if_neg (by simp), hrest]
      constructor
      · rintro h (_ | i) b hi
        · cases hi
          exact Or.inr ⟨ha, rfl⟩
        · exact Or.inl (h i b hi)
      · intro h i b hi
        exact (h (i + 1) b hi).resolve_right (by simp)
    · rw [fromHex, if_neg ha, isSome_readDigits, List.forall_mem_cons, ← isSome_readDigits 0, hrest]
      constructor
      · rintro ⟨h₀, h⟩ (_ | i) b hi
        · cases hi
          exact Or.inl h₀
        · exact Or.inl (h i b hi)
      · intro h
        refine ⟨(h 0 a rfl).resolve_right (by simp [ha]), fun i b hi => ?_⟩
        exact (h (i + 1) b hi).resolve_right (by simp)

/-- What pairs may have: digits, and signs in front of each. -/
theorem isSome_hexPairs : ∀ {bs : List UInt8}, bs.length % 2 = 0 → ((hexPairs bs).isSome ↔
    ∀ i b, bs[i]? = some b → (digitValue b).isSome = true ∨ b = 43 ∧ i % 2 = 0)
  | [], _ => by simp [hexPairs]
  | [_], h => by simp at h
  | a :: a' :: bs, h => by
    have heven : bs.length % 2 = 0 := by simp at h; omega
    have ih := isSome_hexPairs heven
    have hpair : (hexPairs (a :: a' :: bs)).isSome ↔ (fromHex [a, a']).isSome ∧ (hexPairs bs).isSome := by
      rw [hexPairs]
      cases fromHex [a, a'] with
      | none => simp
      | some x => cases hexPairs bs <;> simp
    rw [hpair, isSome_fromHex (by simp), ih]
    constructor
    · rintro ⟨h₂, h⟩ (_ | _ | i) b hi
      · exact h₂ 0 b hi
      · exact (h₂ 1 b hi).imp_right fun h => absurd h.2 (by decide)
      · exact (h i b hi).imp_right fun h => ⟨h.1, by omega⟩
    · intro h
      constructor
      · rintro (_ | _ | i) b hi
        · exact (h 0 b hi).imp_right fun h => ⟨h.1, rfl⟩
        · exact (h 1 b hi).imp_right fun h => absurd h.2 (by decide)
        · cases hi
      · exact fun i b hi => (h (i + 2) b hi).imp_right fun h => ⟨h.1, by omega⟩

theorem digitValue_lt {b : UInt8} (h : (digitValue b).isSome = true) : b.toNat < 128 := by
  by_contra hge
  rw [digitValue, if_neg (by omega), if_neg (by omega), if_neg (by omega)] at h
  cases h

/-- Digits and signs in bytes are digits and signs in characters, of which there are as many. -/
theorem signed_encode {p : Nat → Prop} {f : Str} :
    (∀ i b, (Utf8.encode f)[i]? = some b → (digitValue b).isSome = true ∨ b = 43 ∧ p i) ↔
      ∀ i c, f[i]? = some c → isHexDigit c = true ∨ c = '+' ∧ p i := by
  have hstep : ∀ {c : Char}, c.toNat < 128 → ((digitValue (UInt8.ofNat c.toNat)).isSome = isHexDigit c ∧
      (UInt8.ofNat c.toNat = 43 ↔ c = '+')) := by
    intro c hc
    refine ⟨by simpa [Char.ofNat_toNat] using (digitValue_ascii _ hc).1, fun h => ?_, by rintro rfl; rfl⟩
    have h43 := congrArg UInt8.toNat h
    rw [UInt8.toNat_ofNat', Nat.mod_eq_of_lt (by omega)] at h43
    exact Char.toNat_inj.1 h43
  constructor
  · intro h i c hi
    have hascii : ∀ c ∈ f, c.toNat < 128 := by
      refine Utf8.ascii_of_encode fun b hb => ?_
      obtain ⟨i, hi⟩ := List.getElem?_of_mem hb
      rcases h i b hi with hd | ⟨rfl, -⟩
      · exact digitValue_lt hd
      · decide
    obtain ⟨hd, hp⟩ := hstep (hascii c (List.mem_of_getElem? hi))
    have := h i (UInt8.ofNat c.toNat) (by rw [Utf8.encode_ascii hascii, List.getElem?_map, hi, Option.map_some])
    rwa [hd, hp] at this
  · intro h i b hi
    have hascii : ∀ c ∈ f, c.toNat < 128 := by
      intro c hc
      obtain ⟨i, hi⟩ := List.getElem?_of_mem hc
      rcases h i c hi with hd | ⟨rfl, -⟩
      · exact isHexDigit_lt hd
      · decide
    rw [Utf8.encode_ascii hascii, List.getElem?_map, Option.map_eq_some_iff] at hi
    obtain ⟨c, hc, rfl⟩ := hi
    obtain ⟨hd, hp⟩ := hstep (hascii c (List.mem_of_getElem? hc))
    rw [hd, hp]
    exact h i c hc

/-- Such a group has as many bytes as characters. -/
theorem length_encode_of_signed {p : Nat → Prop} {f : Str}
    (h : ∀ i c, f[i]? = some c → isHexDigit c = true ∨ c = '+' ∧ p i) : (Utf8.encode f).length = f.length := by
  have hascii : ∀ c ∈ f, c.toNat < 128 := by
    intro c hc
    obtain ⟨i, hi⟩ := List.getElem?_of_mem hc
    rcases h i c hi with hd | ⟨rfl, -⟩
    · exact isHexDigit_lt hd
    · decide
  rw [Utf8.encode_ascii hascii, List.length_map]

/-! ## What is accepted -/

/-- One group of `w` characters, digits with signs in their places. -/
def SignedGroup (j w : Nat) (f : Str) : Prop :=
  f.length = w ∧ ∀ i c, f[i]? = some c → isHexDigit c = true ∨ c = '+' ∧ SignPlace j i

/-- A number is read from a group just when it is one. -/
theorem number_isSome {j w : Nat} (hj : j < 3) (hw : 2 ≤ w) (f : Str) :
    (Utf8.encode f).length = w ∧ (fromHex (Utf8.encode f)).isSome ↔ SignedGroup j w f := by
  have hplace : ∀ i, SignPlace j i ↔ i = 0 := fun i => by rw [SignPlace, if_pos hj]
  simp only [SignedGroup, hplace]
  constructor
  · rintro ⟨hl, hs⟩
    rw [isSome_fromHex (by omega), signed_encode] at hs
    exact ⟨by rw [← length_encode_of_signed hs, hl], hs⟩
  · rintro ⟨hl, hs⟩
    have hlen := length_encode_of_signed hs
    rw [isSome_fromHex (by omega), signed_encode]
    exact ⟨hlen.trans hl, hs⟩

/-- Bytes are read from a group just when it is one. -/
theorem bytes_isSome {j n : Nat} (hj : 3 ≤ j) (f : Str) :
    (Utf8.encode f).length = n * 2 ∧ (hexInto (Utf8.encode f) n).isSome ↔ SignedGroup j (n * 2) f := by
  have hplace : ∀ i, SignPlace j i ↔ i % 2 = 0 := fun i => by rw [SignPlace, if_neg (by omega)]
  simp only [SignedGroup, hplace]
  constructor
  · rintro ⟨hl, hs⟩
    rw [hexInto, if_neg (by simpa using hl), isSome_hexPairs (by omega), signed_encode] at hs
    exact ⟨by rw [← length_encode_of_signed hs, hl], hs⟩
  · rintro ⟨hl, hs⟩
    have hlen := (length_encode_of_signed hs).trans hl
    rw [hexInto, if_neg (by simpa using hlen), isSome_hexPairs (by omega), signed_encode]
    exact ⟨hlen, hs⟩

theorem length_hexPairs : ∀ {bs out : List UInt8}, hexPairs bs = some out → out.length = bs.length / 2
  | [], _, h => by cases h; rfl
  | [_], _, h => by cases h; simp
  | a :: a' :: bs, out, h => by
    rw [hexPairs] at h
    simp only [Option.bind_eq_bind, Option.pure_def, Option.bind_eq_some_iff, Option.some.injEq] at h
    obtain ⟨x, -, out', h', rfl⟩ := h
    rw [List.length_cons, length_hexPairs h', List.length_cons, List.length_cons]
    omega

theorem length_hexInto {bs out : List UInt8} {n : Nat} (h : hexInto bs n = some out) : out.length = n := by
  rw [hexInto] at h
  split at h
  · cases h
  · rename_i hl
    have := length_hexPairs h
    omega

/-- Five groups, each with digits and signs in their places. -/
def FiveGroups (fs : List Str) : Prop :=
  ∃ f₀ f₁ f₂ f₃ f₄, fs = [f₀, f₁, f₂, f₃, f₄] ∧ SignedGroup 0 8 f₀ ∧ SignedGroup 1 4 f₁ ∧ SignedGroup 2 4 f₂ ∧
    SignedGroup 3 (2 * 2) f₃ ∧ SignedGroup 4 (6 * 2) f₄

theorem map_eq_five {α β : Type} {f : α → β} {xs : List α} {y₀ y₁ y₂ y₃ y₄ : β} :
    xs.map f = [y₀, y₁, y₂, y₃, y₄] ↔ ∃ x₀ x₁ x₂ x₃ x₄, xs = [x₀, x₁, x₂, x₃, x₄] ∧
      f x₀ = y₀ ∧ f x₁ = y₁ ∧ f x₂ = y₂ ∧ f x₃ = y₃ ∧ f x₄ = y₄ := by
  constructor
  · intro h
    simp only [List.map_eq_cons_iff, List.map_eq_nil_iff] at h
    obtain ⟨x₀, _, rfl, h₀, x₁, _, rfl, h₁, x₂, _, rfl, h₂, x₃, _, rfl, h₃, x₄, _, rfl, h₄, rfl⟩ := h
    exact ⟨x₀, x₁, x₂, x₃, x₄, rfl, h₀, h₁, h₂, h₃, h₄⟩
  · rintro ⟨x₀, x₁, x₂, x₃, x₄, rfl, rfl, rfl, rfl, rfl, rfl⟩
    rfl

theorem signable_iff {t : Str} : Signable t ↔ FiveGroups (t.splitOn '-') := by
  rw [Signable]
  generalize t.splitOn '-' = fs
  constructor
  · rintro ⟨hlen, h⟩
    obtain ⟨f₀, f₁, f₂, f₃, f₄, rfl, h₀, h₁, h₂, h₃, h₄⟩ := map_eq_five.1 hlen
    exact ⟨f₀, f₁, f₂, f₃, f₄, rfl, ⟨h₀, h 0 _ rfl⟩, ⟨h₁, h 1 _ rfl⟩, ⟨h₂, h 2 _ rfl⟩, ⟨h₃, h 3 _ rfl⟩, ⟨h₄, h 4 _ rfl⟩⟩
  · rintro ⟨f₀, f₁, f₂, f₃, f₄, rfl, h₀, h₁, h₂, h₃, h₄⟩
    refine ⟨by simp [h₀.1, h₁.1, h₂.1, h₃.1, h₄.1], ?_⟩
    rintro (_ | _ | _ | _ | _ | j) f hf
    · cases hf; exact h₀.2
    · cases hf; exact h₁.2
    · cases hf; exact h₂.2
    · cases hf; exact h₃.2
    · cases hf; exact h₄.2
    · cases hf

/-- The bytes that five groups are read as. -/
theorem parse_eq_some {s : Str} {g : Guid} : parse s = some g ↔
    ∃ f₀ f₁ f₂ f₃ f₄ d₁ d₂ d₃ b₄ b₅, (unbrace (trim s)).splitOn '-' = [f₀, f₁, f₂, f₃, f₄] ∧
      ((Utf8.encode f₀).length = 8 ∧ fromHex (Utf8.encode f₀) = some d₁) ∧
      ((Utf8.encode f₁).length = 4 ∧ fromHex (Utf8.encode f₁) = some d₂) ∧
      ((Utf8.encode f₂).length = 4 ∧ fromHex (Utf8.encode f₂) = some d₃) ∧
      ((Utf8.encode f₃).length = 2 * 2 ∧ hexInto (Utf8.encode f₃) 2 = some b₄) ∧
      ((Utf8.encode f₄).length = 6 * 2 ∧ hexInto (Utf8.encode f₄) 6 = some b₅) ∧
      g.bytes = u32le (UInt32.ofNat d₁) ++ u16le (UInt16.ofNat d₂) ++ u16le (UInt16.ofNat d₃) ++ b₄ ++ b₅ := by
  rw [parse]
  generalize (unbrace (trim s)).splitOn '-' = fs
  constructor
  · intro h
    split at h
    · rename_i F₀ F₁ F₂ F₃ F₄ hfs
      obtain ⟨f₀, f₁, f₂, f₃, f₄, rfl, rfl, rfl, rfl, rfl, rfl⟩ := map_eq_five.1 hfs
      split at h
      · cases h
      · rename_i hlen
        simp only [not_or, not_not] at hlen
        obtain ⟨l₀, l₁, l₂, l₃, l₄⟩ := hlen
        simp only [Option.bind_eq_bind, Option.bind_eq_some_iff] at h
        obtain ⟨d₁, h₁, d₂, h₂, d₃, h₃, b₄, h₄, b₅, h₅, h⟩ := h
        have e₄ := length_hexInto h₄
        have e₅ := length_hexInto h₅
        rw [fromBytes_eq_some (by simp [e₄, e₅])] at h
        cases h
        exact ⟨f₀, f₁, f₂, f₃, f₄, d₁, d₂, d₃, b₄, b₅, rfl, ⟨l₀, h₁⟩, ⟨l₁, h₂⟩, ⟨l₂, h₃⟩, ⟨l₃, h₄⟩, ⟨l₄, h₅⟩, rfl⟩
    · cases h
  · rintro ⟨f₀, f₁, f₂, f₃, f₄, d₁, d₂, d₃, b₄, b₅, rfl, ⟨l₀, h₁⟩, ⟨l₁, h₂⟩, ⟨l₂, h₃⟩, ⟨l₃, h₄⟩, ⟨l₄, h₅⟩, hg⟩
    simp only [List.map_cons, List.map_nil]
    rw [if_neg (by simp [l₀, l₁, l₂, l₃, l₄]), h₁, h₂, h₃, h₄, h₅]
    show fromBytes _ = _
    rw [← hg, fromBytes_bytes]

/-- A text is read just when it is canonical but for signs in their places. -/
theorem parse_isSome (s : Str) : (parse s).isSome ↔ Signable (unbrace (trim s)) := by
  rw [signable_iff]
  constructor
  · intro h
    obtain ⟨g, hg⟩ := Option.isSome_iff_exists.1 h
    obtain ⟨f₀, f₁, f₂, f₃, f₄, d₁, d₂, d₃, b₄, b₅, hfs, ⟨l₀, h₁⟩, ⟨l₁, h₂⟩, ⟨l₂, h₃⟩, ⟨l₃, h₄⟩, ⟨l₄, h₅⟩, -⟩ :=
      parse_eq_some.1 hg
    exact ⟨f₀, f₁, f₂, f₃, f₄, hfs, (number_isSome (by omega) (by omega) f₀).1 ⟨l₀, by rw [h₁]; rfl⟩,
      (number_isSome (by omega) (by omega) f₁).1 ⟨l₁, by rw [h₂]; rfl⟩,
      (number_isSome (by omega) (by omega) f₂).1 ⟨l₂, by rw [h₃]; rfl⟩,
      (bytes_isSome (by omega) f₃).1 ⟨l₃, by rw [h₄]; rfl⟩, (bytes_isSome (by omega) f₄).1 ⟨l₄, by rw [h₅]; rfl⟩⟩
  · rintro ⟨f₀, f₁, f₂, f₃, f₄, hfs, s₀, s₁, s₂, s₃, s₄⟩
    obtain ⟨l₀, h₁⟩ := (number_isSome (by omega) (by omega) f₀).2 s₀
    obtain ⟨l₁, h₂⟩ := (number_isSome (by omega) (by omega) f₁).2 s₁
    obtain ⟨l₂, h₃⟩ := (number_isSome (by omega) (by omega) f₂).2 s₂
    obtain ⟨l₃, h₄⟩ := (bytes_isSome (by omega) f₃).2 s₃
    obtain ⟨l₄, h₅⟩ := (bytes_isSome (by omega) f₄).2 s₄
    obtain ⟨d₁, h₁⟩ := Option.isSome_iff_exists.1 h₁
    obtain ⟨d₂, h₂⟩ := Option.isSome_iff_exists.1 h₂
    obtain ⟨d₃, h₃⟩ := Option.isSome_iff_exists.1 h₃
    obtain ⟨b₄, h₄⟩ := Option.isSome_iff_exists.1 h₄
    obtain ⟨b₅, h₅⟩ := Option.isSome_iff_exists.1 h₅
    have e₄ := length_hexInto h₄
    have e₅ := length_hexInto h₅
    rw [Option.isSome_iff_exists]
    exact ⟨⟨u32le (UInt32.ofNat d₁) ++ u16le (UInt16.ofNat d₂) ++ u16le (UInt16.ofNat d₃) ++ b₄ ++ b₅,
      by simp [e₄, e₅]⟩, parse_eq_some.2 ⟨f₀, f₁, f₂, f₃, f₄, d₁, d₂, d₃, b₄, b₅, hfs, ⟨l₀, h₁⟩, ⟨l₁, h₂⟩, ⟨l₂, h₃⟩,
        ⟨l₃, h₄⟩, ⟨l₄, h₅⟩, rfl⟩⟩

/-! ## The digits of what is accepted -/

/-- A group of digits only. -/
theorem encode_digits {f : Str} (h : ∀ c ∈ f, isHexDigit c = true) :
    Utf8.encode f = asciiBytes f ∧ (∀ c ∈ f, c.toNat < 128) ∧ ∀ b ∈ asciiBytes f, (digitValue b).isSome := by
  have hascii : ∀ c ∈ f, c.toNat < 128 := fun c hc => isHexDigit_lt (h c hc)
  refine ⟨Utf8.encode_ascii hascii, hascii, fun b hb => ?_⟩
  obtain ⟨c, hc, rfl⟩ := List.mem_map.1 hb
  rw [(digitValue_ascii _ (hascii c hc)).1, Char.ofNat_toNat]
  exact h c hc

/-- A number written again has the digits that were read, in upper case. -/
theorem upperHex_of_fromHex {f : Str} {d : Nat} (hne : f ≠ []) (h : ∀ c ∈ f, isHexDigit c = true)
    (hd : fromHex (Utf8.encode f) = some d) : d < 16 ^ f.length ∧ upperHex f.length d = f.map Char.toUpper := by
  obtain ⟨he, hascii, hdigits⟩ := encode_digits h
  rw [he, fromHex_eq (by simpa [asciiBytes] using hne) hdigits] at hd
  exact hexDigits_of_readDigits hascii hd

/-- So have bytes. -/
theorem upperHex_of_hexPairs : ∀ {f : Str} {out : List UInt8}, f.length % 2 = 0 → (∀ c ∈ f, isHexDigit c = true) →
    hexPairs (asciiBytes f) = some out → out.flatMap (fun x => upperHex 2 x.toNat) = f.map Char.toUpper
  | [], _, _, _, h => by cases h; rfl
  | [_], _, hl, _, _ => by simp at hl
  | a :: a' :: f, out, hl, hf, h => by
    rw [List.forall_mem_cons, List.forall_mem_cons] at hf
    obtain ⟨ha, ha', hf⟩ := hf
    have hpair : ∀ c ∈ [a, a'], isHexDigit c = true := by simp [ha, ha']
    simp only [asciiBytes, List.map_cons, hexPairs, Option.bind_eq_bind, Option.pure_def, Option.bind_eq_some_iff,
      Option.some.injEq] at h
    obtain ⟨x, hx, out', hout, rfl⟩ := h
    rw [show [UInt8.ofNat a.toNat, UInt8.ofNat a'.toNat] = Utf8.encode [a, a'] from (encode_digits hpair).1.symm] at hx
    obtain ⟨hlt, hup⟩ := upperHex_of_fromHex (by simp) hpair hx
    have hx' : (UInt8.ofNat x).toNat = x := by
      rw [UInt8.toNat_ofNat', Nat.mod_eq_of_lt (by simpa using hlt)]
    rw [List.flatMap_cons, hx', upperHex_of_hexPairs (by simp at hl; omega) hf hout]
    rw [show upperHex 2 x = [a, a'].map Char.toUpper from hup]
    rfl

/-- The text of a GUID from the parts of its bytes. -/
theorem display_of_bytes {g : Guid} {d₁ d₂ d₃ : Nat} {b₄ b₅ : List UInt8} (h₁ : d₁ < 16 ^ 8) (h₂ : d₂ < 16 ^ 4)
    (h₃ : d₃ < 16 ^ 4) (h₄ : b₄.length = 2) (h₅ : b₅.length = 6)
    (hg : g.bytes = u32le (UInt32.ofNat d₁) ++ u16le (UInt16.ofNat d₂) ++ u16le (UInt16.ofNat d₃) ++ b₄ ++ b₅) :
    display g = upperHex 8 d₁ ++ '-' :: upperHex 4 d₂ ++ '-' :: upperHex 4 d₃ ++
      '-' :: b₄.flatMap (fun x => upperHex 2 x.toNat) ++ '-' :: b₅.flatMap (fun x => upperHex 2 x.toNat) := by
  have s₀ : slice g.bytes 0 4 = u32le (UInt32.ofNat d₁) := by
    refine (slice_part (a := []) (c := u16le (UInt16.ofNat d₂) ++ u16le (UInt16.ofNat d₃) ++ b₄ ++ b₅) ?_ rfl ?_).1
    · rw [hg]; simp
    · simp
  have s₁ : slice g.bytes 4 2 = u16le (UInt16.ofNat d₂) := by
    refine (slice_part (a := u32le (UInt32.ofNat d₁)) (c := u16le (UInt16.ofNat d₃) ++ b₄ ++ b₅) ?_ ?_ ?_).1
    · rw [hg]; simp
    · simp
    · simp
  have s₂ : slice g.bytes 6 2 = u16le (UInt16.ofNat d₃) := by
    refine (slice_part (a := u32le (UInt32.ofNat d₁) ++ u16le (UInt16.ofNat d₂)) (c := b₄ ++ b₅) ?_ ?_ ?_).1
    · rw [hg]; simp
    · simp
    · simp
  have s₃ : slice g.bytes 8 2 = b₄ := by
    refine (slice_part (a := u32le (UInt32.ofNat d₁) ++ u16le (UInt16.ofNat d₂) ++ u16le (UInt16.ofNat d₃)) (c := b₅)
      ?_ ?_ h₄.symm).1
    · rw [hg]; simp
    · simp
  have s₄ : slice g.bytes 10 6 = b₅ := by
    refine (slice_part (a := u32le (UInt32.ofNat d₁) ++ u16le (UInt16.ofNat d₂) ++ u16le (UInt16.ofNat d₃) ++ b₄)
      (c := []) ?_ ?_ h₅.symm).1
    · rw [hg]; simp
    · simp [h₄]
  have n₁ : (UInt32.ofNat d₁).toNat = d₁ := by rw [UInt32.toNat_ofNat', Nat.mod_eq_of_lt (by omega)]
  have n₂ : (UInt16.ofNat d₂).toNat = d₂ := by rw [UInt16.toNat_ofNat', Nat.mod_eq_of_lt (by omega)]
  have n₃ : (UInt16.ofNat d₃).toNat = d₃ := by rw [UInt16.toNat_ofNat', Nat.mod_eq_of_lt (by omega)]
  simp only [display, s₀, s₁, s₂, s₃, s₄, ofLe32_u32le, ofLe16_u16le, n₁, n₂, n₃]

/-- A text that is read and has no sign is written again in upper case. -/
theorem display_of_parse {s : Str} {g : Guid} (hc : Canonical (unbrace (trim s))) (h : parse s = some g) :
    display g = (unbrace (trim s)).map Char.toUpper := by
  obtain ⟨f₀, f₁, f₂, f₃, f₄, d₁, d₂, d₃, b₄, b₅, hfs, ⟨-, h₁⟩, ⟨-, h₂⟩, ⟨-, h₃⟩, ⟨l₃, h₄⟩, ⟨l₄, h₅⟩, hg⟩ :=
    parse_eq_some.1 h
  obtain ⟨hlen, hhex⟩ := hc
  rw [hfs] at hlen hhex
  simp only [List.map_cons, List.map_nil, List.cons.injEq, and_true] at hlen
  obtain ⟨w₀, w₁, w₂, w₃, w₄⟩ := hlen
  have hex₃ := hhex f₃ (by simp)
  have hex₄ := hhex f₄ (by simp)
  have e₄ := length_hexInto h₄
  have e₅ := length_hexInto h₅
  obtain ⟨v₁, u₁⟩ := upperHex_of_fromHex (by rintro rfl; simp at w₀) (hhex f₀ (by simp)) h₁
  obtain ⟨v₂, u₂⟩ := upperHex_of_fromHex (by rintro rfl; simp at w₁) (hhex f₁ (by simp)) h₂
  obtain ⟨v₃, u₃⟩ := upperHex_of_fromHex (by rintro rfl; simp at w₂) (hhex f₂ (by simp)) h₃
  rw [hexInto, if_neg (by simpa using l₃), (encode_digits hex₃).1] at h₄
  rw [hexInto, if_neg (by simpa using l₄), (encode_digits hex₄).1] at h₅
  have u₄ := upperHex_of_hexPairs (by omega) hex₃ h₄
  have u₅ := upperHex_of_hexPairs (by omega) hex₄ h₅
  rw [w₀] at v₁ u₁
  rw [w₁] at v₂ u₂
  rw [w₂] at v₃ u₃
  have ht : ['-'].intercalate ((unbrace (trim s)).splitOn '-') = unbrace (trim s) := List.intercalate_splitOn '-'
  rw [hfs] at ht
  rw [display_of_bytes v₁ v₂ v₃ e₄ e₅ hg, u₁, u₂, u₃, u₄, u₅, ← ht]
  simp [List.intercalate]

/-! ## Reading the text of a GUID -/

/-- An upper-case digit is one byte, no separator, brace or white space. -/
theorem upperDigit_plain : ∀ k < 16, isWhitespace (Nat.digitChar k).toUpper = false ∧
    (Nat.digitChar k).toUpper ≠ '-' ∧ (Nat.digitChar k).toUpper ≠ '\x7b' ∧ (Nat.digitChar k).toUpper.toNat < 128 := by
  decide

theorem mem_upperHex {w n : Nat} {c : Char} (h : c ∈ upperHex w n) :
    isWhitespace c = false ∧ c ≠ '-' ∧ c ≠ '\x7b' ∧ c.toNat < 128 := by
  obtain ⟨d, hd, rfl⟩ := List.mem_map.1 h
  obtain ⟨k, hk, rfl⟩ := hexDigit_mem hd
  exact upperDigit_plain k hk

theorem encode_upperHex (w n : Nat) : Utf8.encode (upperHex w n) = asciiBytes (upperHex w n) :=
  Utf8.encode_ascii fun _ hc => (mem_upperHex hc).2.2.2

/-- A number is read back from its digits. -/
theorem fromHex_upperHex {w n : Nat} (hw : 0 < w) (hn : n < 16 ^ w) :
    (Utf8.encode (upperHex w n)).length = w ∧ fromHex (Utf8.encode (upperHex w n)) = some n := by
  have hread : readDigits 0 (asciiBytes (upperHex w n)) = some n := by
    have h := readDigits_map (fun d hd => digitValue_toUpper hd) w n
    rwa [Nat.mod_eq_of_lt hn] at h
  have hlen : (asciiBytes (upperHex w n)).length = w := by simp [upperHex]
  have hdigits : ∀ b ∈ asciiBytes (upperHex w n), (digitValue b).isSome := by
    rw [← isSome_readDigits 0, hread]
    rfl
  rw [encode_upperHex]
  refine ⟨hlen, ?_⟩
  rw [fromHex_eq (List.ne_nil_of_length_pos (by omega)) hdigits, hread]

/-- Bytes are read back from their digits. -/
theorem hexPairs_upperHex : ∀ bs : List UInt8,
    (Utf8.encode (bs.flatMap fun x => upperHex 2 x.toNat)).length = bs.length * 2 ∧
      hexPairs (Utf8.encode (bs.flatMap fun x => upperHex 2 x.toNat)) = some bs
  | [] => ⟨rfl, rfl⟩
  | b :: bs => by
    obtain ⟨ih₁, ih₂⟩ := hexPairs_upperHex bs
    have hb : b.toNat < 16 ^ 2 := b.toNat_lt
    obtain ⟨hl, hread⟩ := fromHex_upperHex (by omega) hb
    rw [List.flatMap_cons, Utf8.encode_append]
    match hp : Utf8.encode (upperHex 2 b.toNat), hl with
    | [x, y], _ =>
      rw [hp] at hread
      refine ⟨by simp [ih₁]; omega, ?_⟩
      simp [hexPairs, hread, ih₂]

theorem unbrace_eq_self {s : Str} (h : '\x7b' ∉ s) : unbrace s = s := by
  unfold unbrace
  split
  · exact absurd List.mem_cons_self h
  · rfl

/-- Every GUID reads back from its text. -/
theorem parse_display (g : Guid) : parse (display g) = some g := by
  have hlen := g.length_bytes
  have hparts : g.bytes = slice g.bytes 0 4 ++ slice g.bytes 4 2 ++ slice g.bytes 6 2 ++ slice g.bytes 8 2 ++
      slice g.bytes 10 6 := by
    rw [← slice_add g.bytes 0 4 2, ← slice_add g.bytes 0 6 2, ← slice_add g.bytes 0 8 2, ← slice_add g.bytes 0 10 6,
      slice_zero, List.take_of_length_le (by omega)]
  have l₄ : (slice g.bytes 8 2).length = 2 := length_slice_of_le (by omega)
  have l₅ : (slice g.bytes 10 6).length = 6 := length_slice_of_le (by omega)
  have hplain : ∀ c ∈ display g, isWhitespace c = false ∧ c ≠ '\x7b' := by
    intro c hc
    simp only [display, List.mem_append, List.mem_cons, List.mem_flatMap] at hc
    rcases hc with (((hc | rfl | hc) | rfl | hc) | rfl | ⟨x, -, hc⟩) | rfl | ⟨x, -, hc⟩
    all_goals first
      | exact ⟨(mem_upperHex hc).1, (mem_upperHex hc).2.2.1⟩
      | decide
  have hbody : unbrace (trim (display g)) = display g := by
    rw [trim_eq_self fun c hc => (hplain c hc).1]
    exact unbrace_eq_self fun hc => (hplain _ hc).2 rfl
  have hjoin : display g = ['-'].intercalate [upperHex 8 (ofLe32 (slice g.bytes 0 4)).toNat,
      upperHex 4 (ofLe16 (slice g.bytes 4 2)).toNat, upperHex 4 (ofLe16 (slice g.bytes 6 2)).toNat,
      (slice g.bytes 8 2).flatMap (fun x => upperHex 2 x.toNat),
      (slice g.bytes 10 6).flatMap fun x => upperHex 2 x.toNat] := by
    simp [display, List.intercalate]
  have hsplit : (display g).splitOn '-' = [upperHex 8 (ofLe32 (slice g.bytes 0 4)).toNat,
      upperHex 4 (ofLe16 (slice g.bytes 4 2)).toNat, upperHex 4 (ofLe16 (slice g.bytes 6 2)).toNat,
      (slice g.bytes 8 2).flatMap (fun x => upperHex 2 x.toNat),
      (slice g.bytes 10 6).flatMap fun x => upperHex 2 x.toNat] := by
    rw [hjoin, List.splitOn_intercalate '-' ?_ (by simp)]
    · intro f hf hc
      simp only [List.mem_cons, List.not_mem_nil, or_false] at hf
      rcases hf with rfl | rfl | rfl | rfl | rfl
      · exact (mem_upperHex hc).2.1 rfl
      · exact (mem_upperHex hc).2.1 rfl
      · exact (mem_upperHex hc).2.1 rfl
      · obtain ⟨x, -, hx⟩ := List.mem_flatMap.1 hc
        exact (mem_upperHex hx).2.1 rfl
      · obtain ⟨x, -, hx⟩ := List.mem_flatMap.1 hc
        exact (mem_upperHex hx).2.1 rfl
  have hpairs : ∀ {bs : List UInt8} {n : Nat}, bs.length = n →
      (Utf8.encode (bs.flatMap fun x => upperHex 2 x.toNat)).length = n * 2 ∧
        hexInto (Utf8.encode (bs.flatMap fun x => upperHex 2 x.toNat)) n = some bs := by
    rintro bs n rfl
    obtain ⟨hl, hp⟩ := hexPairs_upperHex bs
    exact ⟨hl, by rw [hexInto, if_neg (by simpa using hl), hp]⟩
  refine parse_eq_some.2 ⟨_, _, _, _, _, _, _, _, _, _, hbody.symm ▸ hsplit,
    fromHex_upperHex (by omega) (UInt32.toNat_lt _), fromHex_upperHex (by omega) (UInt16.toNat_lt _),
    fromHex_upperHex (by omega) (UInt16.toNat_lt _), hpairs l₄, hpairs l₅, ?_⟩
  rw [UInt32.ofNat_toNat, UInt16.ofNat_toNat, UInt16.ofNat_toNat, u32le_ofLe32 (length_slice_of_le (by omega)),
    u16le_ofLe16 (length_slice_of_le (by omega)), u16le_ofLe16 (length_slice_of_le (by omega)), ← hparts]

/-! ## Exactness -/

/-- `parse` accepts the text just when it is canonical, and what it reads has the digits of the text. -/
def ParsesExactly (s : Str) : Prop :=
  ((parse s).isSome ↔ Canonical (unbrace (trim s))) ∧
    ∀ g, parse s = some g → display g = (unbrace (trim s)).map Char.toUpper

/-- The canonical texts are those without a sign. -/
theorem canonical_iff {t : Str} : Canonical t ↔ Signable t ∧ '+' ∉ t := by
  have hplus := Lines.mem_iff_mem_splitOn (show '+' ≠ '-' by decide) t
  constructor
  · rintro ⟨hlen, hhex⟩
    refine ⟨⟨hlen, fun j f hf i c hc => Or.inl (hhex f (List.mem_of_getElem? hf) c (List.mem_of_getElem? hc))⟩, ?_⟩
    rw [hplus]
    rintro ⟨f, hf, hc⟩
    exact absurd (hhex f hf _ hc) (by decide)
  · rintro ⟨⟨hlen, h⟩, hno⟩
    refine ⟨hlen, fun f hf c hc => ?_⟩
    obtain ⟨j, hj⟩ := List.getElem?_of_mem hf
    obtain ⟨i, hi⟩ := List.getElem?_of_mem hc
    refine (h j f hj i c hi).resolve_right ?_
    rintro ⟨rfl, -⟩
    exact hno (hplus.2 ⟨f, hf, hc⟩)

/-- Every GUID reads back from its text; and reading is exact just on the texts that are not canonical but for signs. -/
theorem parse_exact_iff (s : Str) : (∀ g, parse (display g) = some g) ∧
    (ParsesExactly s ↔ ¬ (Signable (unbrace (trim s)) ∧ '+' ∈ unbrace (trim s))) := by
  refine ⟨parse_display, ?_⟩
  constructor
  · rintro ⟨hiff, -⟩ ⟨hs, hplus⟩
    rw [parse_isSome, canonical_iff] at hiff
    exact (hiff.1 hs).2 hplus
  · intro h
    have hiff : (parse s).isSome ↔ Canonical (unbrace (trim s)) := by
      rw [parse_isSome, canonical_iff]
      exact ⟨fun hs => ⟨hs, fun hplus => h ⟨hs, hplus⟩⟩, And.left⟩
    refine ⟨hiff, fun g hg => display_of_parse (hiff.1 ?_) hg⟩
    rw [hg]
    rfl

/-- A sign in front of seven digits. -/
theorem parse_signed : ¬ ParsesExactly "+0000000-0000-0000-0000-000000000000".toList := by
  rintro ⟨hiff, -⟩
  have hplus : '+' ∈ unbrace (trim "+0000000-0000-0000-0000-000000000000".toList) := by decide +kernel
  exact (canonical_iff.1 (hiff.1 (by decide +kernel))).2 hplus

end Guid

end Peiosutils.Part
