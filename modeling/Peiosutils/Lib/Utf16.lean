import Mathlib.Data.List.Basic
import Mathlib.Tactic.Ring

/-!
# UTF-16

`encode` writes characters as UTF-16 code units; `decodeLossy` reads units back, an unpaired surrogate as the
replacement character.

- Decoding inverts encoding (`decodeLossy_encode`).
- Decoding never needs more units than it read (`length_encode_decodeLossy`) and invents no NUL
  (`nul_notMem_decodeLossy`).
- A text cut at its first NUL is encoded as the units up to the first zero (`takeWhile_encode`).
- Encoding inverts decoding where no surrogate is unpaired (`encode_decodeLossy_iff`).
-/

set_option autoImplicit false

namespace Utf16

/-! ## Code units -/

/-- The first unit of a surrogate pair. -/
def isHigh (u : UInt16) : Bool := 0xD800 ≤ u.toNat && u.toNat ≤ 0xDBFF

/-- The second unit of a surrogate pair. -/
def isLow (u : UInt16) : Bool := 0xDC00 ≤ u.toNat && u.toNat ≤ 0xDFFF

/-- U+FFFD, what stands for an unpaired surrogate. -/
def replacement : Char := Char.ofNat 0xFFFD

/-- The character of a unit that is not in a pair. -/
def single (u : UInt16) : Char := if isHigh u || isLow u then replacement else Char.ofNat u.toNat

/-- The character of a surrogate pair. -/
def pair (u v : UInt16) : Char := Char.ofNat (0x10000 + (u.toNat - 0xD800) * 0x400 + (v.toNat - 0xDC00))

def encodeChar (c : Char) : List UInt16 :=
  if c.toNat < 0x10000 then [UInt16.ofNat c.toNat]
  else [UInt16.ofNat (0xD800 + (c.toNat - 0x10000) / 0x400), UInt16.ofNat (0xDC00 + (c.toNat - 0x10000) % 0x400)]

def encode (cs : List Char) : List UInt16 := cs.flatMap encodeChar

def decodeLossy : List UInt16 → List Char
  | [] => []
  | [u] => [single u]
  | u :: v :: us =>
    if isHigh u && isLow v then pair u v :: decodeLossy us else single u :: decodeLossy (v :: us)

@[simp] theorem encode_nil : encode [] = [] := rfl

@[simp] theorem encode_cons (c : Char) (cs : List Char) : encode (c :: cs) = encodeChar c ++ encode cs := rfl

/-! ## Decoding inverts encoding -/

theorem toNat_char_lt (c : Char) : c.toNat < 0xD800 ∨ 0xDFFF < c.toNat ∧ c.toNat < 0x110000 := c.valid

/-- A character below U+10000 is one unit, which is no surrogate. -/
theorem encodeChar_small {c : Char} (h : c.toNat < 0x10000) :
    ∃ u : UInt16, encodeChar c = [u] ∧ u.toNat = c.toNat ∧ single u = c ∧ isHigh u = false := by
  have hv := toNat_char_lt c
  have hu : (UInt16.ofNat c.toNat).toNat = c.toNat := by rw [UInt16.toNat_ofNat', Nat.mod_eq_of_lt h]
  have hh : isHigh (UInt16.ofNat c.toNat) = false := by simp [isHigh, hu]; omega
  have hl : isLow (UInt16.ofNat c.toNat) = false := by simp [isLow, hu]; omega
  exact ⟨_, by simp [encodeChar, h], hu, by simp [single, hh, hl, hu], hh⟩

/-- Any other character is a surrogate pair. -/
theorem encodeChar_large {c : Char} (h : ¬c.toNat < 0x10000) :
    ∃ u v : UInt16, encodeChar c = [u, v] ∧ isHigh u = true ∧ isLow v = true ∧ pair u v = c := by
  have hv := toNat_char_lt c
  have hu : (UInt16.ofNat (0xD800 + (c.toNat - 0x10000) / 0x400)).toNat = 0xD800 + (c.toNat - 0x10000) / 0x400 := by
    rw [UInt16.toNat_ofNat', Nat.mod_eq_of_lt (by omega)]
  have hw : (UInt16.ofNat (0xDC00 + (c.toNat - 0x10000) % 0x400)).toNat = 0xDC00 + (c.toNat - 0x10000) % 0x400 := by
    rw [UInt16.toNat_ofNat', Nat.mod_eq_of_lt (by omega)]
  refine ⟨_, _, by rw [encodeChar, if_neg h], by simp [isHigh]; omega, by simp [isLow]; omega, ?_⟩
  rw [pair, hu, hw, show 0x10000 + (0xD800 + (c.toNat - 0x10000) / 0x400 - 0xD800) * 0x400 +
    (0xDC00 + (c.toNat - 0x10000) % 0x400 - 0xDC00) = c.toNat by omega, Char.ofNat_toNat]

theorem decodeLossy_encode : ∀ cs : List Char, decodeLossy (encode cs) = cs
  | [] => rfl
  | c :: cs => by
    have ih := decodeLossy_encode cs
    rw [encode_cons]
    by_cases hc : c.toNat < 0x10000
    · obtain ⟨u, he, -, hs, hh⟩ := encodeChar_small hc
      rw [he, List.singleton_append]
      cases hr : encode cs with
      | nil =>
        rw [hr] at ih
        simp [decodeLossy, hs, ← ih]
      | cons v us =>
        rw [decodeLossy, hh, Bool.false_and, if_neg (by simp), hs, ← hr, ih]
    · obtain ⟨u, v, he, hu, hv, hp⟩ := encodeChar_large hc
      rw [he]
      simp [decodeLossy, hu, hv, hp, ih]

/-! ## What decoding can produce -/

theorem toNat_ofNat_of_lt {n : Nat} (h : n < 0xD800 ∨ 0xDFFF < n ∧ n < 0x110000) : (Char.ofNat n).toNat = n := by
  rw [Char.ofNat, dif_pos h]
  rfl

theorem toNat_single (u : UInt16) : (single u).toNat < 0x10000 := by
  have hu := u.toNat_lt
  unfold single
  split
  · decide
  · rename_i h
    simp only [isHigh, isLow, Bool.or_eq_true, Bool.and_eq_true, decide_eq_true_eq] at h
    rw [toNat_ofNat_of_lt (by omega)]
    omega

/-- Units read back take no more units. -/
theorem length_encode_decodeLossy : ∀ us : List UInt16, (encode (decodeLossy us)).length ≤ us.length
  | [] => by simp [decodeLossy]
  | [u] => by
    obtain ⟨w, he, -⟩ := encodeChar_small (toNat_single u)
    simp [decodeLossy, he]
  | u :: v :: us => by
    have ih₁ := length_encode_decodeLossy us
    have ih₂ := length_encode_decodeLossy (v :: us)
    rw [decodeLossy]
    split
    · have hp : (encodeChar (pair u v)).length ≤ 2 := by unfold encodeChar; split <;> simp
      simp only [encode_cons, List.length_append, List.length_cons]
      omega
    · obtain ⟨w, he, -⟩ := encodeChar_small (toNat_single u)
      simp only [encode_cons, he, List.length_append, List.length_cons, List.length_nil] at ih₂ ⊢
      omega

theorem single_eq_nul {u : UInt16} (h : single u = '\x00') : u = 0 := by
  unfold single at h
  split at h
  · exact absurd h (by decide)
  · rename_i hs
    have hu := u.toNat_lt
    simp only [isHigh, isLow, Bool.or_eq_true, Bool.and_eq_true, decide_eq_true_eq] at hs
    have := congrArg Char.toNat h
    rw [toNat_ofNat_of_lt (by omega)] at this
    exact UInt16.toNat_inj.1 this

theorem pair_ne_nul {u v : UInt16} (hu : isHigh u = true) (hv : isLow v = true) : pair u v ≠ '\x00' := by
  intro h
  simp only [isHigh, isLow, Bool.and_eq_true, decide_eq_true_eq] at hu hv
  have := congrArg Char.toNat h
  rw [pair, toNat_ofNat_of_lt (by omega)] at this
  have h0 : Char.toNat '\x00' = 0 := rfl
  omega

/-- Units without a zero give a text without NUL. -/
theorem nul_notMem_decodeLossy : ∀ {us : List UInt16}, 0 ∉ us → '\x00' ∉ decodeLossy us
  | [], _ => by simp [decodeLossy]
  | [u], h => by
    simp only [decodeLossy, List.mem_singleton] at h ⊢
    exact fun he => h (single_eq_nul he.symm).symm
  | u :: v :: us, h => by
    simp only [List.mem_cons, not_or] at h
    rw [decodeLossy]
    split
    · rename_i hp
      simp only [Bool.and_eq_true] at hp
      simp only [List.mem_cons, not_or]
      exact ⟨(pair_ne_nul hp.1 hp.2).symm, nul_notMem_decodeLossy h.2.2⟩
    · simp only [List.mem_cons, not_or]
      refine ⟨fun he => h.1 (single_eq_nul he.symm).symm, nul_notMem_decodeLossy ?_⟩
      simp only [List.mem_cons, not_or]
      exact h.2

/-! ## Texts cut at a NUL -/

/-- A character has a zero unit only if it is NUL. -/
theorem zero_mem_encodeChar {c : Char} : 0 ∈ encodeChar c ↔ c = '\x00' := by
  constructor
  · intro h
    by_cases hc : c.toNat < 0x10000
    · obtain ⟨u, he, hu, -⟩ := encodeChar_small hc
      rw [he, List.mem_singleton] at h
      subst h
      exact Char.toNat_inj.1 hu.symm
    · obtain ⟨u, v, he, hu, hv, -⟩ := encodeChar_large hc
      rw [he] at h
      simp only [List.mem_cons, List.not_mem_nil, or_false] at h
      rcases h with rfl | rfl
      · simp [isHigh] at hu
      · simp [isLow] at hv
  · rintro rfl
    decide

theorem takeWhile_encode : ∀ cs : List Char,
    (encode cs).takeWhile (· ≠ 0) = encode (cs.takeWhile (· ≠ '\x00'))
  | [] => rfl
  | c :: cs => by
    rw [encode_cons]
    by_cases hc : c = '\x00'
    · subst hc
      simp [encodeChar]
    · have h0 : ∀ u ∈ encodeChar c, decide (u ≠ 0) = true := by
        intro u hu
        refine decide_eq_true fun he => hc (zero_mem_encodeChar.1 (he ▸ hu))
      rw [List.takeWhile_append_of_pos h0, List.takeWhile_cons_of_pos (by simpa using hc), encode_cons,
        takeWhile_encode cs]

theorem zero_notMem_encode {cs : List Char} (h : '\x00' ∉ cs) : 0 ∉ encode cs := by
  intro hmem
  obtain ⟨c, hc, h0⟩ := List.mem_flatMap.1 hmem
  exact h (zero_mem_encodeChar.1 h0 ▸ hc)

/-! ## Units that are read without loss -/

def isSurrogate (u : UInt16) : Bool := isHigh u || isLow u

/-- Every surrogate is in a pair. -/
def wellFormed : List UInt16 → Bool
  | [] => true
  | [u] => !isSurrogate u
  | u :: v :: us => if isHigh u && isLow v then wellFormed us else !isSurrogate u && wellFormed (v :: us)

/-- A unit read alone comes back unless it is a surrogate. -/
theorem encodeChar_single (u : UInt16) : ∃ w, encodeChar (single u) = [w] ∧ (w = u ↔ isSurrogate u = false) := by
  have hu := u.toNat_lt
  unfold single
  by_cases hs : isSurrogate u = true
  · rw [if_pos (by simpa [isSurrogate] using hs)]
    refine ⟨0xFFFD, by decide, ?_⟩
    rw [hs]
    simp only [Bool.true_eq_false, iff_false]
    rintro rfl
    exact absurd hs (by decide)
  · have hns : isSurrogate u = false := by simpa using hs
    rw [if_neg (by simpa [isSurrogate] using hs)]
    simp only [isSurrogate, isHigh, isLow, Bool.or_eq_true, Bool.and_eq_true, decide_eq_true_eq] at hs
    have htoNat : (Char.ofNat u.toNat).toNat = u.toNat := toNat_ofNat_of_lt (by omega)
    refine ⟨u, ?_, iff_of_true rfl hns⟩
    rw [encodeChar, htoNat, if_pos (by omega), UInt16.ofNat_toNat]

theorem encodeChar_pair {u v : UInt16} (hu : isHigh u = true) (hv : isLow v = true) : encodeChar (pair u v) = [u, v] := by
  simp only [isHigh, isLow, Bool.and_eq_true, decide_eq_true_eq] at hu hv
  have htoNat : (pair u v).toNat = 0x10000 + (u.toNat - 0xD800) * 0x400 + (v.toNat - 0xDC00) :=
    toNat_ofNat_of_lt (by omega)
  have hhigh : 0xD800 + ((pair u v).toNat - 0x10000) / 0x400 = u.toNat := by omega
  have hlow : 0xDC00 + ((pair u v).toNat - 0x10000) % 0x400 = v.toNat := by omega
  rw [encodeChar, if_neg (by omega), hhigh, hlow, UInt16.ofNat_toNat, UInt16.ofNat_toNat]

/-- Units come back from their text exactly when no surrogate is unpaired. -/
theorem encode_decodeLossy_iff : ∀ us : List UInt16, encode (decodeLossy us) = us ↔ wellFormed us = true
  | [] => by simp [decodeLossy, wellFormed]
  | [u] => by
    obtain ⟨w, hw, hiff⟩ := encodeChar_single u
    simp [decodeLossy, wellFormed, hw, hiff]
  | u :: v :: us => by
    rw [decodeLossy, wellFormed]
    split
    · rename_i hp
      simp only [Bool.and_eq_true] at hp
      rw [encode_cons, encodeChar_pair hp.1 hp.2, ← encode_decodeLossy_iff us]
      simp
    · obtain ⟨w, hw, hiff⟩ := encodeChar_single u
      have ih := encode_decodeLossy_iff (v :: us)
      rw [encode_cons, hw, List.singleton_append, List.cons.injEq, hiff, ih]
      simp

end Utf16
