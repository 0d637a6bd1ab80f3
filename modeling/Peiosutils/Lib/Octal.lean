import Mathlib.Data.List.Basic
import Mathlib.Tactic.IntervalCases

/-!
# Octal escapes

A byte may be written as a backslash and three octal digits. `decode value` reads such escapes by a function that computes
the byte of three digits, and that may fail; everything else stands for itself. Decoding succeeds when every escape that it
meets is computed (`decode_isSome_iff`). `mangle special` writes some bytes as escapes, the backslash among them, and is
read back (`decode_mangle`).
-/

set_option autoImplicit false

namespace Octal

abbrev Bytes := List UInt8

def isOctal (b : UInt8) : Bool := 48 ≤ b && b ≤ 55

/-- The number that three octal digits stand for. -/
def number (d₀ d₁ d₂ : UInt8) : Nat := (d₀.toNat - 48) * 64 + (d₁.toNat - 48) * 8 + (d₂.toNat - 48)

/-! ## Checked arithmetic of bytes -/

def mulByte (a b : Nat) : Option Nat := if a * b ≤ 255 then some (a * b) else none

def addByte (a b : Nat) : Option Nat := if a + b ≤ 255 then some (a + b) else none

def subByte (a b : Nat) : Option Nat := if b ≤ a then some (a - b) else none

theorem isOctal_bounds {d : UInt8} (h : isOctal d = true) : 48 ≤ d.toNat ∧ d.toNat ≤ 55 := by
  simp only [isOctal, Bool.and_eq_true, decide_eq_true_eq, UInt8.le_iff_toNat_le] at h
  exact h

/-! ## Reading -/

/-- The bytes that are written, where an escape is a backslash in front of three octal digits. -/
def decode (value : UInt8 → UInt8 → UInt8 → Option UInt8) : Bytes → Option Bytes
  | [] => some []
  | b :: bs =>
    if b = 92 then
      match bs with
      | d₀ :: d₁ :: d₂ :: rest =>
        if isOctal d₀ && isOctal d₁ && isOctal d₂ then do
          let v ← value d₀ d₁ d₂
          let out ← decode value rest
          return v :: out
        else do
          let out ← decode value (d₀ :: d₁ :: d₂ :: rest)
          return b :: out
      | short => do
        let out ← decode value short
        return b :: out
    else do
      let out ← decode value bs
      return b :: out

/-- The digits of the escapes that are read. -/
def escapes : Bytes → List (UInt8 × UInt8 × UInt8)
  | [] => []
  | b :: bs =>
    if b = 92 then
      match bs with
      | d₀ :: d₁ :: d₂ :: rest =>
        if isOctal d₀ && isOctal d₁ && isOctal d₂ then (d₀, d₁, d₂) :: escapes rest
        else escapes (d₀ :: d₁ :: d₂ :: rest)
      | short => escapes short
    else escapes bs

/-- The numbers of the escapes that are read. -/
def escapeNumbers (s : Bytes) : List Nat := (escapes s).map fun d => number d.1 d.2.1 d.2.2

section

variable {value : UInt8 → UInt8 → UInt8 → Option UInt8}

theorem isOctal_of_mem {s : Bytes} {d : UInt8 × UInt8 × UInt8} (h : d ∈ escapes s) :
    isOctal d.1 = true ∧ isOctal d.2.1 = true ∧ isOctal d.2.2 = true := by
  fun_induction escapes s with
  | case1 => cases h
  | case2 d₀ d₁ d₂ rest hoctal ih =>
    rcases List.mem_cons.1 h with rfl | h
    · simpa [and_assoc] using hoctal
    · exact ih h
  | case3 d₀ d₁ d₂ rest hoctal ih => exact ih h
  | case4 short hshort ih => exact ih h
  | case5 b bs hb ih => exact ih h

/-- **Every escape is computed.** -/
theorem decode_isSome_iff (s : Bytes) :
    (decode value s).isSome = true ↔ ∀ d ∈ escapes s, (value d.1 d.2.1 d.2.2).isSome = true := by
  fun_induction escapes s with
  | case1 => simp [decode]
  | case2 d₀ d₁ d₂ rest hoctal ih =>
    rw [decode, if_pos rfl, if_pos hoctal, List.forall_mem_cons, ← ih]
    cases value d₀ d₁ d₂ <;> cases decode value rest <;> simp
  | case3 d₀ d₁ d₂ rest hoctal ih =>
    rw [decode, if_pos rfl, if_neg hoctal, ← ih]
    cases decode value (d₀ :: d₁ :: d₂ :: rest) <;> simp
  | case4 short hshort ih =>
    rw [← ih, decode, if_pos rfl]
    · cases decode value short <;> simp
    · exact hshort
  | case5 b bs hb ih =>
    rw [decode.eq_def]
    simp only [if_neg hb, ← ih]
    cases decode value bs <;> simp

/-- In terms of the numbers of the escapes. -/
theorem decode_isSome_iff_numbers {ok : Nat → Prop}
    (h : ∀ d₀ d₁ d₂, isOctal d₀ = true → isOctal d₁ = true → isOctal d₂ = true →
      ((value d₀ d₁ d₂).isSome = true ↔ ok (number d₀ d₁ d₂))) (s : Bytes) :
    (decode value s).isSome = true ↔ ∀ n ∈ escapeNumbers s, ok n := by
  rw [decode_isSome_iff, escapeNumbers, List.forall_mem_map]
  refine forall₂_congr fun d hd => ?_
  obtain ⟨h₀, h₁, h₂⟩ := isOctal_of_mem hd
  exact h d.1 d.2.1 d.2.2 h₀ h₁ h₂

/-! ## Escapes of single bytes -/

/-- The three digits of a byte. -/
def digits (b : UInt8) : UInt8 × UInt8 × UInt8 :=
  (UInt8.ofNat (48 + b.toNat / 64), UInt8.ofNat (48 + b.toNat / 8 % 8), UInt8.ofNat (48 + b.toNat % 8))

/-- A byte as it is written, where `special` bytes are escaped. -/
def mangleByte (special : UInt8 → Bool) (b : UInt8) : Bytes :=
  if special b then [92, (digits b).1, (digits b).2.1, (digits b).2.2] else [b]

def mangle (special : UInt8 → Bool) (s : Bytes) : Bytes := s.flatMap (mangleByte special)

theorem isOctal_digit {k : Nat} (h : k < 8) : isOctal (UInt8.ofNat (48 + k)) = true := by
  interval_cases k <;> rfl

theorem isOctal_digits (b : UInt8) :
    isOctal (digits b).1 = true ∧ isOctal (digits b).2.1 = true ∧ isOctal (digits b).2.2 = true := by
  have hb := b.toNat_lt
  exact ⟨isOctal_digit (by omega), isOctal_digit (Nat.mod_lt _ (by omega)), isOctal_digit (Nat.mod_lt _ (by omega))⟩

theorem toNat_digit {k : Nat} (h : k < 8) : (UInt8.ofNat (48 + k)).toNat - 48 = k := by
  interval_cases k <;> rfl

theorem number_digits (b : UInt8) : number (digits b).1 (digits b).2.1 (digits b).2.2 = b.toNat := by
  have hb := b.toNat_lt
  have h₀ : b.toNat / 64 < 8 := by omega
  have h₁ := Nat.mod_lt (b.toNat / 8) (by omega : 0 < 8)
  have h₂ := Nat.mod_lt b.toNat (by omega : 0 < 8)
  rw [number, digits, toNat_digit h₀, toNat_digit h₁, toNat_digit h₂]
  omega

/-- A byte that is neither escaped nor part of an escape. -/
theorem not_mem_mangle {special : UInt8 → Bool} {c : UInt8} (hc : special c = true) (hslash : c ≠ 92)
    (hdigit : isOctal c = false) (s : Bytes) : c ∉ mangle special s := by
  intro h
  obtain ⟨b, -, hb⟩ := List.mem_flatMap.1 h
  unfold mangleByte at hb
  split at hb
  · obtain ⟨h₀, h₁, h₂⟩ := isOctal_digits b
    simp only [List.mem_cons, List.not_mem_nil, or_false] at hb
    rcases hb with rfl | rfl | rfl | rfl
    · exact hslash rfl
    · rw [h₀] at hdigit
      cases hdigit
    · rw [h₁] at hdigit
      cases hdigit
    · rw [h₂] at hdigit
      cases hdigit
  · rename_i hplain
    rw [List.mem_singleton.1 hb] at hc
    exact hplain hc

theorem mangle_eq_nil {special : UInt8 → Bool} {s : Bytes} : mangle special s = [] ↔ s = [] := by
  cases s with
  | nil => simp [mangle]
  | cons b s =>
    simp only [mangle, List.flatMap_cons, List.append_eq_nil_iff, reduceCtorEq, iff_false, not_and]
    intro h
    unfold mangleByte at h
    split at h <;> cases h

/-- `f` writes `s`, where any byte that is `ok` may be escaped and a backslash has to be. -/
inductive Writes (ok : UInt8 → Prop) : Bytes → Bytes → Prop
  | nil : Writes ok [] []
  | plain {b : UInt8} {s f : Bytes} (hb : b ≠ 92) (h : Writes ok s f) : Writes ok (b :: s) (b :: f)
  | escaped {b : UInt8} {s f : Bytes} (hb : ok b) (h : Writes ok s f) :
    Writes ok (b :: s) (92 :: (digits b).1 :: (digits b).2.1 :: (digits b).2.2 :: f)

/-- **Whichever bytes are escaped, what was written is read.** -/
theorem Writes.decode {ok : UInt8 → Prop} (hvalue : ∀ b, ok b → value (digits b).1 (digits b).2.1 (digits b).2.2 = some b)
    {s f : Bytes} (h : Writes ok s f) : decode value f = some s := by
  induction h with
  | nil => rfl
  | plain hb _ ih =>
    rw [Octal.decode.eq_def]
    simp only [if_neg hb, ih]
    rfl
  | escaped hb _ ih =>
    rename_i b s f _
    obtain ⟨h₀, h₁, h₂⟩ := isOctal_digits b
    rw [Octal.decode, if_pos rfl, if_pos (by rw [h₀, h₁, h₂]; rfl), hvalue b hb, ih]
    rfl

theorem writes_mangle {ok : UInt8 → Prop} {special : UInt8 → Bool} (hslash : special 92 = true)
    (hok : ∀ b, special b = true → ok b) (s : Bytes) : Writes ok s (mangle special s) := by
  induction s with
  | nil => exact .nil
  | cons b s ih =>
    rw [mangle, List.flatMap_cons, ← mangle, mangleByte]
    split
    · rename_i hb
      exact .escaped (hok b hb) ih
    · rename_i hb
      exact .plain (fun h => hb (h ▸ hslash)) ih

theorem decode_mangle {special : UInt8 → Bool} (hslash : special 92 = true)
    (hvalue : ∀ b, special b = true → value (digits b).1 (digits b).2.1 (digits b).2.2 = some b) (s : Bytes) :
    decode value (mangle special s) = some s :=
  (writes_mangle hslash (fun _ hb => hb) s).decode hvalue

end

end Octal

/-!
# C escapes

`read close` reads a backslash in front of a letter, of a byte of `literals` or of three octal digits, and everything
else as itself, up to the quote `close` at the very end, or to the end if there is no quote. Escapes are composed by
`Reads`: what a text is read as, whatever follows it.
-/

namespace CEscape

open Octal (isOctal number digits)

/-- The bytes that the letters stand for. -/
def letterByte (b : UInt8) : Option UInt8 :=
  if b = 97 then some 7
  else if b = 98 then some 8
  else if b = 116 then some 9
  else if b = 110 then some 10
  else if b = 118 then some 11
  else if b = 102 then some 12
  else if b = 114 then some 13
  else none

/-- Quotes, the space, the colon and the backslash. -/
def literals : List UInt8 := [34, 39, 32, 58, 92]

/-- The byte of three octal digits. -/
def octalByte (d e f : UInt8) : Option UInt8 :=
  if isOctal d && isOctal e && isOctal f && number d e f < 256 then some (UInt8.ofNat (number d e f)) else none

def read (close : Option UInt8) : List UInt8 → Option (List UInt8)
  | [] => if close = none then some [] else none
  | b :: bs =>
    if b = 92 then
      match bs with
      | [] => none
      | c :: cs =>
        match letterByte c with
        | some v => (read close cs).map (v :: ·)
        | none =>
          if c ∈ literals then (read close cs).map (c :: ·)
          else
            match cs with
            | d :: e :: rest => (octalByte c d e).bind fun v => (read close rest).map (v :: ·)
            | _ => none
    else if some b = close then (if bs = [] then some [] else none)
    else (read close bs).map (b :: ·)

/-- What comes first is read as `bytes`. -/
def Reads (close : Option UInt8) (out bytes : List UInt8) : Prop :=
  ∀ rest, read close (out ++ rest) = (read close rest).map (bytes ++ ·)

/-- A byte as an octal escape. -/
def octalEscape (b : UInt8) : List UInt8 := [92, (digits b).1, (digits b).2.1, (digits b).2.2]

variable {close : Option UInt8}

theorem Reads.nil : Reads close [] [] := fun rest => by
  cases h : read close rest <;> simp [h]

theorem Reads.append {out out' bytes bytes' : List UInt8} (h : Reads close out bytes) (h' : Reads close out' bytes') :
    Reads close (out ++ out') (bytes ++ bytes') := by
  intro rest
  rw [List.append_assoc, h, h', Option.map_map]
  congr 1
  funext tail
  exact (List.append_assoc ..).symm

theorem Reads.flatMap {α : Type} {out bytes : α → List UInt8} {as : List α}
    (h : ∀ a ∈ as, Reads close (out a) (bytes a)) : Reads close (as.flatMap out) (as.flatMap bytes) := by
  induction as with
  | nil => exact .nil
  | cons a as ih =>
    rw [List.flatMap_cons, List.flatMap_cons]
    exact (h a List.mem_cons_self).append (ih fun a ha => h a (List.mem_cons_of_mem _ ha))

theorem reads_literal {b : UInt8} (hslash : b ≠ 92) (hclose : some b ≠ close) : Reads close [b] [b] := by
  intro rest
  rw [List.cons_append, List.nil_append, read.eq_def]
  simp only [if_neg hslash, if_neg hclose]
  rfl

theorem reads_literals {bs : List UInt8} (h : ∀ b ∈ bs, b ≠ 92 ∧ some b ≠ close) : Reads close bs bs := by
  have := Reads.flatMap fun b hb => reads_literal (h b hb).1 (h b hb).2
  rwa [List.flatMap_singleton'] at this

theorem reads_letter {l v : UInt8} (h : letterByte l = some v) : Reads close [92, l] [v] := by
  intro rest
  rw [List.cons_append, List.cons_append, List.nil_append, read.eq_def]
  simp only [if_true, h]
  rfl

theorem reads_protected {c : UInt8} (h : c ∈ literals) : Reads close [92, c] [c] := by
  intro rest
  have hletter : letterByte c = none := by
    simp only [literals, List.mem_cons, List.not_mem_nil, or_false] at h
    rcases h with rfl | rfl | rfl | rfl | rfl <;> rfl
  rw [List.cons_append, List.cons_append, List.nil_append, read.eq_def]
  simp only [if_true, hletter, h]
  rfl

/-- Digits are no letters. -/
theorem isOctal_not_letter {d : UInt8} (h : isOctal d = true) : letterByte d = none ∧ d ∉ literals := by
  obtain ⟨hlo, hhi⟩ := Octal.isOctal_bounds h
  have hd : d = UInt8.ofNat d.toNat := UInt8.ofNat_toNat.symm
  generalize d.toNat = n at hlo hhi hd
  subst hd
  interval_cases n <;> decide

theorem reads_octalEscape (b : UInt8) : Reads close (octalEscape b) [b] := by
  intro rest
  obtain ⟨h₀, h₁, h₂⟩ := Octal.isOctal_digits b
  obtain ⟨hletter, hliteral⟩ := isOctal_not_letter h₀
  have hbyte : octalByte (digits b).1 (digits b).2.1 (digits b).2.2 = some b := by
    rw [octalByte, h₀, h₁, h₂, Octal.number_digits, UInt8.ofNat_toNat]
    simp [b.toNat_lt]
  rw [octalEscape, List.cons_append, List.cons_append, List.cons_append, List.cons_append, List.nil_append, read.eq_def]
  simp only [if_true, hletter, hliteral, if_false, hbyte, Option.bind_some]
  rfl

/-- The quote at the end. -/
theorem read_close {q : UInt8} (h : q ≠ 92) : read (some q) [q] = some [] := by
  rw [read.eq_def]
  simp only [if_neg h, if_true]

end CEscape
