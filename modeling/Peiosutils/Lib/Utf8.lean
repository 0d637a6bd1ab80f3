import Mathlib.Data.List.Basic
import Mathlib.Tactic.Basic

/-!
# Strings as their UTF-8 bytes

`asBytes` is the byte view by which strings are compared; it determines the string (`asBytes_injective`). `lossy` is
the way back for bytes that may be no UTF-8: each maximal part that cannot be decoded becomes one U+FFFD.
`lossyChars` inverts `encode` (`lossyChars_encode`), and an ASCII byte is a seam: what is around it is decoded on its own
(`lossyList_append`).
-/

set_option autoImplicit false

namespace Utf8

/-- The bytes of a string. -/
def utf8 (s : String) : List UInt8 := s.toByteArray.data.toList

def asBytes (s : String) : List Nat := (utf8 s).map UInt8.toNat

theorem asBytes_injective : Function.Injective asBytes := by
  intro s t h
  have hl : utf8 s = utf8 t :=
    List.map_injective_iff.2 (fun _ _ => UInt8.toNat_inj.1) h
  exact String.toByteArray_inj.1 (ByteArray.ext (Array.toList_inj.1 hl))

/-! ## Lossy decoding -/

def isContinuation (b : UInt8) : Bool := 128 ≤ b.toNat && b.toNat < 192

/-- The second byte that may follow `b` in a character of three or four bytes. -/
def secondFits (b c : UInt8) : Bool :=
  match b.toNat with
  | 0xE0 => 0xA0 ≤ c.toNat && c.toNat ≤ 0xBF
  | 0xED => 0x80 ≤ c.toNat && c.toNat ≤ 0x9F
  | 0xF0 => 0x90 ≤ c.toNat && c.toNat ≤ 0xBF
  | 0xF4 => 0x80 ≤ c.toNat && c.toNat ≤ 0x8F
  | _ => isContinuation c

/-- The first character of `b :: bs` with the number of its bytes; or none, with the bytes to pass over. -/
def decodeOne (b : UInt8) (bs : List UInt8) : Option Char × Nat :=
  let n := b.toNat
  if n < 0x80 then (some (Char.ofNat n), 1)
  else if 0xC2 ≤ n ∧ n ≤ 0xDF then
    match bs with
    | c :: _ => if isContinuation c then (some (Char.ofNat ((n % 32) * 64 + c.toNat % 64)), 2) else (none, 1)
    | [] => (none, 1)
  else if 0xE0 ≤ n ∧ n ≤ 0xEF then
    match bs with
    | c :: d :: _ =>
      if !secondFits b c then (none, 1)
      else if !isContinuation d then (none, 2)
      else (some (Char.ofNat ((n % 16) * 4096 + (c.toNat % 64) * 64 + d.toNat % 64)), 3)
    | [c] => if secondFits b c then (none, 2) else (none, 1)
    | [] => (none, 1)
  else if 0xF0 ≤ n ∧ n ≤ 0xF4 then
    match bs with
    | c :: d :: e :: _ =>
      if !secondFits b c then (none, 1)
      else if !isContinuation d then (none, 2)
      else if !isContinuation e then (none, 3)
      else (some (Char.ofNat ((n % 8) * 262144 + (c.toNat % 64) * 4096 + (d.toNat % 64) * 64 + e.toNat % 64)), 4)
    | [c, d] => if !secondFits b c then (none, 1) else if isContinuation d then (none, 3) else (none, 2)
    | [c] => if secondFits b c then (none, 2) else (none, 1)
    | [] => (none, 1)
  else (none, 1)

/-- Every call takes a byte at least, so as many calls as bytes are enough. -/
def lossyChars : Nat → List UInt8 → List Char
  | 0, _ => []
  | _ + 1, [] => []
  | fuel + 1, b :: bs =>
    let r := decodeOne b bs
    r.1.getD '\uFFFD' :: lossyChars fuel ((b :: bs).drop r.2)

/-- `String::from_utf8_lossy`. -/
def lossy (bs : List UInt8) : String := String.ofList (lossyChars bs.length bs)

/-! ## Characters and their bytes -/

/-- The bytes of the characters of a string. -/
def encode (cs : List Char) : List UInt8 := cs.flatMap String.utf8EncodeChar

@[simp] theorem encode_nil : encode [] = [] := rfl

@[simp] theorem encode_cons (c : Char) (cs : List Char) : encode (c :: cs) = String.utf8EncodeChar c ++ encode cs := rfl

@[simp] theorem encode_append (as bs : List Char) : encode (as ++ bs) = encode as ++ encode bs := by simp [encode]

theorem toList_utf8Encode (cs : List Char) : cs.utf8Encode.data.toList = encode cs := by
  induction cs with
  | nil => rfl
  | cons c cs ih => rw [List.utf8Encode_cons, ByteArray.data_append, Array.toList_append, ih, List.utf8Encode_singleton,
      List.data_toByteArray, encode_cons]

/-- The bytes of a string are those of its characters. -/
theorem utf8_eq_encode (s : String) : utf8 s = encode s.toList := by
  rw [← toList_utf8Encode, utf8, ← String.toByteArray_ofList, String.ofList_toList]

theorem char_ofNat_eq {c : Char} {n : Nat} (h : n = c.val.toNat) : Char.ofNat n = c := by
  subst h
  exact Char.ofNat_toNat c

/-- A character is read back from its own bytes, whatever follows them. -/
theorem decodeOne_encodeChar (c : Char) (rest : List UInt8) :
    ∃ b bs, String.utf8EncodeChar c = b :: bs ∧ decodeOne b (bs ++ rest) = (some c, bs.length + 1) := by
  have hv : c.val.toNat < 0xD800 ∨ (0xDFFF < c.val.toNat ∧ c.val.toNat < 0x110000) := c.valid
  unfold String.utf8EncodeChar
  simp only
  generalize hn : c.val.toNat = n at hv
  split
  · refine ⟨_, _, rfl, ?_⟩
    have : (UInt8.ofNat n).toNat = n := by rw [UInt8.toNat_ofNat']; omega
    simp only [decodeOne, this, List.length_nil]
    rw [if_pos (by omega), char_ofNat_eq hn.symm]
  split
  · refine ⟨_, _, rfl, ?_⟩
    have h0 : (UInt8.ofNat (n / 64 % 32 + 192)).toNat = n / 64 + 192 := by rw [UInt8.toNat_ofNat']; omega
    have h1 : (UInt8.ofNat (n % 64 + 128)).toNat = n % 64 + 128 := by rw [UInt8.toNat_ofNat']; omega
    simp only [decodeOne, h0, h1, isContinuation, List.cons_append, List.nil_append]
    rw [if_neg (by omega), if_pos (by omega), if_pos (by simp; omega), char_ofNat_eq (c := c) (by omega)]
    rfl
  split
  · refine ⟨_, _, rfl, ?_⟩
    have h0 : (UInt8.ofNat (n / 4096 % 16 + 224)).toNat = n / 4096 + 224 := by rw [UInt8.toNat_ofNat']; omega
    have h1 : (UInt8.ofNat (n / 64 % 64 + 128)).toNat = n / 64 % 64 + 128 := by rw [UInt8.toNat_ofNat']; omega
    have h2 : (UInt8.ofNat (n % 64 + 128)).toNat = n % 64 + 128 := by rw [UInt8.toNat_ofNat']; omega
    have hs : secondFits (UInt8.ofNat (n / 4096 % 16 + 224)) (UInt8.ofNat (n / 64 % 64 + 128)) = true := by
      unfold secondFits
      rw [h0, h1, isContinuation, h1]
      split <;> first | omega | (simp; omega)
    simp only [decodeOne, h0, h1, h2, hs, isContinuation, List.cons_append, List.nil_append]
    rw [if_neg (by omega), if_neg (by omega), if_pos (by omega), if_neg (by simp), if_neg (by simp; omega),
      char_ofNat_eq (c := c) (by omega)]
    rfl
  · refine ⟨_, _, rfl, ?_⟩
    have h0 : (UInt8.ofNat (n / 262144 % 8 + 240)).toNat = n / 262144 + 240 := by rw [UInt8.toNat_ofNat']; omega
    have h1 : (UInt8.ofNat (n / 4096 % 64 + 128)).toNat = n / 4096 % 64 + 128 := by rw [UInt8.toNat_ofNat']; omega
    have h2 : (UInt8.ofNat (n / 64 % 64 + 128)).toNat = n / 64 % 64 + 128 := by rw [UInt8.toNat_ofNat']; omega
    have h3 : (UInt8.ofNat (n % 64 + 128)).toNat = n % 64 + 128 := by rw [UInt8.toNat_ofNat']; omega
    have hs : secondFits (UInt8.ofNat (n / 262144 % 8 + 240)) (UInt8.ofNat (n / 4096 % 64 + 128)) = true := by
      unfold secondFits
      rw [h0, h1, isContinuation, h1]
      split <;> first | omega | (simp; omega)
    simp only [decodeOne, h0, h1, h2, h3, hs, isContinuation, List.cons_append, List.nil_append]
    rw [if_neg (by omega), if_neg (by omega), if_neg (by omega), if_pos (by omega), if_neg (by simp),
      if_neg (by simp; omega), if_neg (by simp; omega), char_ofNat_eq (c := c) (by omega)]
    rfl

/-- Decoding gives back the characters that were encoded. -/
theorem lossyChars_encode (cs : List Char) : ∀ n, (encode cs).length ≤ n → lossyChars n (encode cs) = cs := by
  induction cs with
  | nil => intro n _; cases n <;> rfl
  | cons c cs ih =>
    intro n hn
    obtain ⟨b, bs, hb, hd⟩ := decodeOne_encodeChar c (encode cs)
    rw [encode_cons, hb] at hn ⊢
    cases n with
    | zero => simp at hn
    | succ n =>
      simp only [List.cons_append, List.length_cons, List.length_append] at hn
      have := ih n (by omega)
      simp only [List.cons_append, lossyChars, hd, List.drop_succ_cons, List.drop_left, Option.getD_some, this]

/-! ## Lossy decoding, part by part -/

theorem secondFits_ascii {b c : UInt8} (h : c.toNat < 128) : secondFits b c = false := by
  unfold secondFits isContinuation
  split <;> simp <;> omega

theorem isContinuation_ascii {c : UInt8} (h : c.toNat < 128) : isContinuation c = false := by
  unfold isContinuation
  simp only [Bool.and_eq_false_imp, decide_eq_true_eq, decide_eq_false_iff_not]
  omega

/-- A character takes one byte at least, and none that is not there. -/
theorem decodeOne_count (b : UInt8) (bs : List UInt8) :
    1 ≤ (decodeOne b bs).2 ∧ (decodeOne b bs).2 ≤ bs.length + 1 := by
  unfold decodeOne
  simp only
  split
  · simp
  · split
    · cases bs with
      | nil => simp
      | cons c bs => simp only; split <;> simp
    · split
      · rcases bs with _ | ⟨c, _ | ⟨d, bs⟩⟩
        · simp
        · simp only; split <;> simp
        · simp only; split
          · simp
          · split <;> simp
      · split
        · rcases bs with _ | ⟨c, _ | ⟨d, _ | ⟨e, bs⟩⟩⟩
          · simp
          · simp only; split <;> simp
          · simp only; split
            · simp
            · split <;> simp
          · simp only; split
            · simp
            · split
              · simp
              · split <;> simp
        · simp

/-- What is decoded first does not reach into an ASCII byte behind. -/
theorem decodeOne_append (b : UInt8) (as : List UInt8) {c : UInt8} (hc : c.toNat < 128) (rest : List UInt8) :
    decodeOne b (as ++ c :: rest) = decodeOne b as := by
  have hk := isContinuation_ascii hc
  have hs := secondFits_ascii (b := b) hc
  unfold decodeOne
  simp only
  split
  · rfl
  · split
    · rcases as with _ | ⟨d, as⟩
      · simp [hk]
      · rfl
    · split
      · rcases as with _ | ⟨d, _ | ⟨e, as⟩⟩
        · cases rest <;> simp [hs]
        · simp only [List.cons_append, List.nil_append, hk]
          cases secondFits b d <;> simp
        · rfl
      · split
        · rcases as with _ | ⟨d, _ | ⟨e, _ | ⟨f, as⟩⟩⟩
          · rcases rest with _ | ⟨_, _ | _⟩ <;> simp [hs]
          · rcases rest with _ | ⟨_, _⟩ <;> cases h : secondFits b d <;> simp [hk, h]
          · cases h : secondFits b d <;> cases h' : isContinuation e <;> simp [hk, h, h']
          · rfl
        · rfl

/-- More calls than bytes change nothing. -/
theorem lossyChars_of_le {n : Nat} : ∀ {bs : List UInt8}, bs.length ≤ n → lossyChars n bs = lossyChars bs.length bs := by
  induction n using Nat.strongRecOn with
  | ind n ih =>
    intro bs hn
    cases bs with
    | nil => cases n <;> rfl
    | cons b bs =>
      have hcount := decodeOne_count b bs
      have hlen : ((b :: bs).drop (decodeOne b bs).2).length ≤ bs.length := by
        rw [List.length_drop, List.length_cons]
        omega
      cases n with
      | zero => simp at hn
      | succ n =>
        rw [List.length_cons] at hn
        rw [lossyChars, List.length_cons, lossyChars]
        rw [ih n (by omega) (Nat.le_trans hlen (by omega)), ih bs.length (by omega) hlen]

/-- `lossy`, as characters. -/
def lossyList (bs : List UInt8) : List Char := lossyChars bs.length bs

theorem lossyList_cons (b : UInt8) (bs : List UInt8) :
    lossyList (b :: bs) = (decodeOne b bs).1.getD '\uFFFD' :: lossyList ((b :: bs).drop (decodeOne b bs).2) := by
  have hcount := decodeOne_count b bs
  rw [lossyList, List.length_cons, lossyChars]
  rw [lossyChars_of_le (by rw [List.length_drop, List.length_cons]; omega)]
  rfl

/-- An ASCII byte stands for itself, and what is around it is decoded on its own. -/
theorem lossyList_append (as : List UInt8) {c : UInt8} (hc : c.toNat < 128) (rest : List UInt8) :
    lossyList (as ++ c :: rest) = lossyList as ++ Char.ofNat c.toNat :: lossyList rest := by
  induction hn : as.length using Nat.strongRecOn generalizing as with
  | ind n ih =>
    cases as with
    | nil =>
      rw [List.nil_append, lossyList_cons]
      have : decodeOne c rest = (some (Char.ofNat c.toNat), 1) := by
        unfold decodeOne
        simp only
        rw [if_pos (by omega)]
      rw [this]
      rfl
    | cons b as =>
      have hcount := decodeOne_count b as
      rw [List.cons_append, lossyList_cons, decodeOne_append b as hc, lossyList_cons, List.cons_append, ← List.cons_append,
        List.drop_append_of_le_length (by rw [List.length_cons]; omega)]
      subst hn
      rw [ih _ (by rw [List.length_drop, List.length_cons]; omega) _ rfl]

/-- Only the byte of an ASCII character is decoded to that character. -/
theorem decodeOne_ascii {b : UInt8} {bs : List UInt8} {c : Char} (hc : c.toNat < 128) (hne : c.toNat ≠ 0)
    (h : (decodeOne b bs).1 = some c) : b.toNat = c.toNat := by
  have hof : ∀ n, Char.ofNat n = c → n = c.toNat := by
    intro n hn
    by_cases hv : n.isValidChar
    · rw [← hn, Char.ofNat, dif_pos hv]
      rfl
    · rw [Char.ofNat, dif_neg hv] at hn
      exact absurd (congrArg Char.toNat hn).symm hne
  unfold decodeOne at h
  simp only at h
  split at h
  · exact hof _ (Option.some.inj h)
  · split at h
    · rcases bs with _ | ⟨d, bs⟩
      · cases h
      · simp only at h
        split at h
        · have := hof _ (Option.some.inj h)
          omega
        · cases h
    · split at h
      · rcases bs with _ | ⟨d, _ | ⟨e, bs⟩⟩
        · cases h
        · simp only at h
          split at h <;> cases h
        · simp only at h
          split at h
          · cases h
          · split at h
            · cases h
            · rename_i hs _
              have := hof _ (Option.some.inj h)
              by_cases hb : b.toNat = 0xE0
              · unfold secondFits at hs
                rw [hb] at hs
                simp at hs
                omega
              · omega
      · split at h
        · rcases bs with _ | ⟨d, _ | ⟨e, _ | ⟨f, bs⟩⟩⟩
          · cases h
          · simp only at h
            split at h <;> cases h
          · simp only at h
            split at h
            · cases h
            · split at h <;> cases h
          · simp only at h
            split at h
            · cases h
            · split at h
              · cases h
              · split at h
                · cases h
                · rename_i hs _ _
                  have := hof _ (Option.some.inj h)
                  by_cases hb : b.toNat = 0xF0
                  · unfold secondFits at hs
                    rw [hb] at hs
                    simp at hs
                    omega
                  · omega
        · cases h

/-- An ASCII character that is decoded stands for its byte. -/
theorem mem_of_mem_lossyList {c : Char} (hc : c.toNat < 128) (hne : c.toNat ≠ 0) {bs : List UInt8}
    (h : c ∈ lossyList bs) : UInt8.ofNat c.toNat ∈ bs := by
  induction hn : bs.length using Nat.strongRecOn generalizing bs with
  | ind n ih =>
    cases bs with
    | nil => cases h
    | cons b bs =>
      have hcount := decodeOne_count b bs
      rw [lossyList_cons] at h
      rcases List.mem_cons.1 h with he | h
      · cases hd : (decodeOne b bs).1 with
        | none =>
          rw [hd] at he
          subst he
          exact absurd hc (by decide)
        | some d =>
          rw [hd] at he
          obtain rfl : c = d := he
          rw [← decodeOne_ascii hc hne hd, UInt8.ofNat_toNat]
          exact List.mem_cons_self
      · subst hn
        exact List.mem_of_mem_drop (ih _ (by rw [List.length_drop, List.length_cons]; omega) h rfl)

/-- The byte of an ASCII character is in no other character. -/
theorem mem_of_mem_encode {c : Char} (hc : c.toNat < 128) {cs : List Char} (h : UInt8.ofNat c.toNat ∈ encode cs) :
    c ∈ cs := by
  obtain ⟨d, hd, hm⟩ := List.mem_flatMap.1 h
  have hv : d.val.toNat < 0xD800 ∨ (0xDFFF < d.val.toNat ∧ d.val.toNat < 0x110000) := d.valid
  have hof : ∀ n, n < 256 → UInt8.ofNat c.toNat = UInt8.ofNat n → c.toNat = n := by
    intro n hn he
    have := congrArg UInt8.toNat he
    rwa [UInt8.toNat_ofNat', UInt8.toNat_ofNat', Nat.mod_eq_of_lt (by omega), Nat.mod_eq_of_lt hn] at this
  unfold String.utf8EncodeChar at hm
  simp only at hm
  split at hm
  · rename_i hle
    have := hof _ (by omega) (List.mem_singleton.1 hm)
    have : c = d := by
      apply Char.ext
      apply UInt32.toNat_inj.1
      exact this
    exact this ▸ hd
  · split at hm
    · simp only [List.mem_cons, List.not_mem_nil, or_false] at hm
      rcases hm with hm | hm
      · have := hof _ (by omega) hm; omega
      · have := hof _ (by omega) hm; omega
    · split at hm
      · simp only [List.mem_cons, List.not_mem_nil, or_false] at hm
        rcases hm with hm | hm | hm
        · have := hof _ (by omega) hm; omega
        · have := hof _ (by omega) hm; omega
        · have := hof _ (by omega) hm; omega
      · simp only [List.mem_cons, List.not_mem_nil, or_false] at hm
        rcases hm with hm | hm | hm | hm
        · have := hof _ (by omega) hm; omega
        · have := hof _ (by omega) hm; omega
        · have := hof _ (by omega) hm; omega
        · have := hof _ (by omega) hm; omega

/-- ASCII characters are their own bytes. -/
theorem encode_ascii {cs : List Char} (h : ∀ c ∈ cs, c.toNat < 128) :
    encode cs = cs.map fun c => UInt8.ofNat c.toNat := by
  induction cs with
  | nil => rfl
  | cons c cs ih =>
    have hc : c.val.toNat ≤ 127 := Nat.le_of_lt_succ (h c List.mem_cons_self)
    rw [encode_cons, ih fun c' hc' => h c' (List.mem_cons_of_mem c hc'), List.map_cons]
    unfold String.utf8EncodeChar
    simp only [if_pos hc]
    rfl

/-- Bytes below 128 come from ASCII characters. -/
theorem ascii_of_encode {cs : List Char} (h : ∀ b ∈ encode cs, b.toNat < 128) : ∀ c ∈ cs, c.toNat < 128 := by
  intro c hc
  have hv : c.val.toNat < 0xD800 ∨ (0xDFFF < c.val.toNat ∧ c.val.toNat < 0x110000) := c.valid
  have hbytes : ∀ b ∈ String.utf8EncodeChar c, b.toNat < 128 := fun b hb => h b (List.mem_flatMap.2 ⟨c, hc, hb⟩)
  by_contra hge
  have hge' : ¬ c.val.toNat ≤ 127 := fun hle => hge (Nat.lt_succ_of_le hle)
  unfold String.utf8EncodeChar at hbytes
  simp only [if_neg hge'] at hbytes
  split at hbytes
  · have := hbytes _ (List.mem_cons_self)
    rw [UInt8.toNat_ofNat'] at this
    omega
  · split at hbytes
    · have := hbytes _ (List.mem_cons_self)
      rw [UInt8.toNat_ofNat'] at this
      omega
    · have := hbytes _ (List.mem_cons_self)
      rw [UInt8.toNat_ofNat'] at this
      omega

end Utf8
