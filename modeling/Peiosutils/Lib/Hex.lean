import Mathlib.Data.List.Induction
import Mathlib.Tactic.IntervalCases

/-!
# Hexadecimal digits

`hexDigits w n` are the `w` lowest digits of `n`; `fromHex` reads digits in either case, after an optional plus sign.
Reading what was written gives the number back (`fromHex_hexDigits`), and
writing what was read gives the digits back in upper case (`hexDigits_of_readDigits`).
-/

set_option autoImplicit false

namespace Hex

/-- The `w` lowest hexadecimal digits of `n`, most significant first. -/
def hexDigits : Nat → Nat → List Char
  | 0, _ => []
  | w + 1, n => hexDigits w (n / 16) ++ [Nat.digitChar (n % 16)]

/-- The bytes of characters below 128. -/
def asciiBytes (cs : List Char) : List UInt8 := cs.map fun c => UInt8.ofNat c.toNat

def digitValue (b : UInt8) : Option Nat :=
  let c := b.toNat
  if 48 ≤ c ∧ c ≤ 57 then some (c - 48)
  else if 97 ≤ c ∧ c ≤ 102 then some (c - 87)
  else if 65 ≤ c ∧ c ≤ 70 then some (c - 55)
  else none

/-- The digits read on after `acc`. -/
def readDigits (acc : Nat) : List UInt8 → Option Nat
  | [] => some acc
  | b :: bs =>
    match digitValue b with
    | none => none
    | some d => readDigits (16 * acc + d) bs

/-- `from_str_radix(_, 16)` on numbers that fit. -/
def fromHex : List UInt8 → Option Nat
  | [] => none
  | b :: bs => if b = 43 then if bs = [] then none else readDigits 0 bs else readDigits 0 (b :: bs)

@[simp] theorem length_hexDigits (w n : Nat) : (hexDigits w n).length = w := by
  induction w generalizing n with
  | zero => rfl
  | succ w ih => simp [hexDigits, ih]

@[simp] theorem length_asciiBytes (cs : List Char) : (asciiBytes cs).length = cs.length := List.length_map _

theorem asciiBytes_append (cs ds : List Char) : asciiBytes (cs ++ ds) = asciiBytes cs ++ asciiBytes ds :=
  List.map_append

theorem hexDigit_mem {w n : Nat} {c : Char} (h : c ∈ hexDigits w n) : ∃ d < 16, c = Nat.digitChar d := by
  induction w generalizing n with
  | zero => simp [hexDigits] at h
  | succ w ih =>
    rw [hexDigits, List.mem_append, List.mem_singleton] at h
    rcases h with h | rfl
    · exact ih h
    · exact ⟨n % 16, Nat.mod_lt _ (by omega), rfl⟩

theorem readDigits_append (acc : Nat) (xs ys : List UInt8) :
    readDigits acc (xs ++ ys) = (readDigits acc xs).bind fun n => readDigits n ys := by
  induction xs generalizing acc with
  | nil => rfl
  | cons x xs ih =>
    rw [List.cons_append, readDigits, readDigits]
    cases digitValue x with
    | none => rfl
    | some d => exact ih _

theorem digitValue_digitChar {d : Nat} (h : d < 16) : digitValue (UInt8.ofNat (Nat.digitChar d).toNat) = some d := by
  interval_cases d <;> decide

/-- Digits in any case are read back. -/
theorem readDigits_map {φ : Char → Char}
    (hφ : ∀ d < 16, digitValue (UInt8.ofNat (φ (Nat.digitChar d)).toNat) = some d) (w n : Nat) :
    readDigits 0 (asciiBytes ((hexDigits w n).map φ)) = some (n % 16 ^ w) := by
  induction w generalizing n with
  | zero => simp [hexDigits, asciiBytes, readDigits, Nat.mod_one]
  | succ w ih =>
    have hd := hφ (n % 16) (Nat.mod_lt _ (by omega))
    rw [hexDigits, List.map_append, asciiBytes_append, readDigits_append, ih, Option.bind_some]
    simp only [asciiBytes, List.map_cons, List.map_nil, readDigits, hd]
    rw [Nat.pow_succ', Nat.mod_mul, Nat.add_comm]

theorem readDigits_hexDigits (w n : Nat) : readDigits 0 (asciiBytes (hexDigits w n)) = some (n % 16 ^ w) := by
  have h := @readDigits_map id (fun d hd => digitValue_digitChar hd) w n
  rwa [List.map_id] at h

/-- A digit is not a plus sign. -/
theorem ne_plus_of_mem {w n : Nat} {b : UInt8} (h : b ∈ asciiBytes (hexDigits w n)) : b ≠ 43 := by
  induction w generalizing n with
  | zero => simp [hexDigits, asciiBytes] at h
  | succ w ih =>
    rw [hexDigits, asciiBytes_append, List.mem_append] at h
    rcases h with h | h
    · exact ih h
    · have hd := digitValue_digitChar (Nat.mod_lt n (by omega : 0 < 16))
      simp only [asciiBytes, List.map_cons, List.map_nil, List.mem_singleton] at h
      rintro rfl
      rw [← h] at hd
      cases hd

/-- A number that fits in its digits is read back. -/
theorem fromHex_hexDigits {w n : Nat} (hw : 0 < w) (hn : n < 16 ^ w) : fromHex (asciiBytes (hexDigits w n)) = some n := by
  have hread := readDigits_hexDigits w n
  have hplus := fun b (hb : b ∈ asciiBytes (hexDigits w n)) => ne_plus_of_mem hb
  have hlen : (asciiBytes (hexDigits w n)).length = w := by simp
  rw [Nat.mod_eq_of_lt hn] at hread
  cases hbs : asciiBytes (hexDigits w n) with
  | nil =>
    rw [hbs] at hlen
    simp at hlen
    omega
  | cons b bs =>
    rw [hbs] at hread hplus
    rw [fromHex, if_neg (hplus b List.mem_cons_self), hread]

/-! ## Digits in either case -/

/-- A hexadecimal digit in either case. -/
def isHexDigit (c : Char) : Bool := ('0' ≤ c && c ≤ '9') || ('a' ≤ c && c ≤ 'f') || ('A' ≤ c && c ≤ 'F')

/-- The digit of a byte: its value, and the character in upper case. -/
theorem digitValue_ascii : ∀ n < 128, (digitValue (UInt8.ofNat n)).isSome = isHexDigit (Char.ofNat n) ∧
    ∀ d ∈ digitValue (UInt8.ofNat n), d < 16 ∧ (Nat.digitChar d).toUpper = (Char.ofNat n).toUpper := by
  decide

theorem isHexDigit_lt {c : Char} (h : isHexDigit c = true) : c.toNat < 128 := by
  simp only [isHexDigit, Bool.or_eq_true, Bool.and_eq_true, decide_eq_true_eq] at h
  rcases h with (⟨-, h⟩ | ⟨-, h⟩) | ⟨-, h⟩
  · exact Nat.lt_of_le_of_lt (show c.toNat ≤ ('9' : Char).toNat from h) (by decide)
  · exact Nat.lt_of_le_of_lt (show c.toNat ≤ ('f' : Char).toNat from h) (by decide)
  · exact Nat.lt_of_le_of_lt (show c.toNat ≤ ('F' : Char).toNat from h) (by decide)

theorem isSome_readDigits (acc : Nat) (bs : List UInt8) :
    (readDigits acc bs).isSome ↔ ∀ b ∈ bs, (digitValue b).isSome := by
  induction bs generalizing acc with
  | nil => simp [readDigits]
  | cons b bs ih =>
    rw [readDigits, List.forall_mem_cons]
    cases digitValue b with
    | none => simp
    | some d => simp [ih]

/-- Without a sign a number is its digits. -/
theorem fromHex_eq {bs : List UInt8} (hne : bs ≠ []) (h : ∀ b ∈ bs, (digitValue b).isSome) :
    fromHex bs = readDigits 0 bs := by
  cases bs with
  | nil => exact absurd rfl hne
  | cons b bs =>
    have hb : b ≠ 43 := by
      rintro rfl
      exact absurd (h 43 List.mem_cons_self) (by decide)
    rw [fromHex, if_neg hb]

theorem digitValue_toUpper {d : Nat} (h : d < 16) :
    digitValue (UInt8.ofNat (Nat.digitChar d).toUpper.toNat) = some d := by
  interval_cases d <;> decide

/-- What is read has the digits that were read. -/
theorem hexDigits_of_readDigits {cs : List Char} {n : Nat} (hcs : ∀ c ∈ cs, c.toNat < 128)
    (h : readDigits 0 (asciiBytes cs) = some n) :
    n < 16 ^ cs.length ∧ (hexDigits cs.length n).map Char.toUpper = cs.map Char.toUpper := by
  induction cs using List.reverseRecOn generalizing n with
  | nil =>
    cases h
    exact ⟨by decide, rfl⟩
  | append_singleton cs c ih =>
    rw [asciiBytes_append, readDigits_append, Option.bind_eq_some_iff] at h
    obtain ⟨m, hm, h⟩ := h
    obtain ⟨hlt, hdigits⟩ := ih (fun c hc => hcs c (List.mem_append_left _ hc)) hm
    have hc : c.toNat < 128 := hcs c (by simp)
    simp only [asciiBytes, List.map_cons, List.map_nil, readDigits] at h
    cases hd : digitValue (UInt8.ofNat c.toNat) with
    | none => rw [hd] at h; cases h
    | some d =>
      obtain ⟨hd16, hup⟩ := (digitValue_ascii _ hc).2 d hd
      rw [hd] at h
      simp only [Option.some.injEq] at h
      subst h
      rw [Char.ofNat_toNat] at hup
      rw [List.length_append, List.length_singleton, hexDigits, List.map_append, List.map_append,
        show (16 * m + d) / 16 = m by omega, show (16 * m + d) % 16 = d by omega, hdigits]
      refine ⟨?_, by simp [hup]⟩
      rw [Nat.pow_succ']
      omega

end Hex
