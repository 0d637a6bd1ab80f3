import Peiosutils.Lib.Utf8

/-!
# Characters, and bytes that are none

`chunks` takes bytes apart into characters and the maximal parts that cannot be decoded. Joined they are the bytes again
(`flatMap_chunks`), and a part that cannot be decoded holds no ASCII byte (`invalid_of_mem_chunks`).
-/

set_option autoImplicit false

namespace Utf8

/-- A character, or bytes that are none. -/
abbrev Chunk := Char ⊕ List UInt8

/-- The bytes of a chunk. -/
def chunkBytes : Chunk → List UInt8
  | .inl c => String.utf8EncodeChar c
  | .inr bytes => bytes

/-- The chunk in front of what is decoded with the count `r.2`. -/
def chunkOf (r : Option Char × Nat) (bs : List UInt8) : Chunk :=
  match r.1 with
  | some c => .inl c
  | none => .inr (bs.take r.2)

/-- Every call takes a byte at least, so as many calls as bytes are enough. -/
def chunksFrom : Nat → List UInt8 → List Chunk
  | 0, _ => []
  | _ + 1, [] => []
  | fuel + 1, b :: bs =>
    let r := decodeOne b bs
    chunkOf r (b :: bs) :: chunksFrom fuel ((b :: bs).drop r.2)

/-- `utf8_chunks`. -/
def chunks (bs : List UInt8) : List Chunk := chunksFrom bs.length bs

/-! ## A character has the bytes from which it is decoded -/

theorem toNat_ofNat {n : Nat} (h : n < 0xD800 ∨ (0xDFFF < n ∧ n < 0x110000)) : (Char.ofNat n).val.toNat = n := by
  have hv : n.isValidChar := h
  rw [Char.ofNat, dif_pos hv]
  rfl

theorem encodeChar_one {b : UInt8} (h : b.toNat < 0x80) : String.utf8EncodeChar (Char.ofNat b.toNat) = [b] := by
  unfold String.utf8EncodeChar
  simp only [toNat_ofNat (Or.inl (show b.toNat < 0xD800 by omega))]
  rw [if_pos (by omega), UInt8.ofNat_toNat]

theorem encodeChar_two {b c : UInt8} (hb : 0xC2 ≤ b.toNat ∧ b.toNat ≤ 0xDF) (hc : isContinuation c = true) :
    String.utf8EncodeChar (Char.ofNat ((b.toNat % 32) * 64 + c.toNat % 64)) = [b, c] := by
  simp only [isContinuation, Bool.and_eq_true, decide_eq_true_eq] at hc
  generalize hn : (b.toNat % 32) * 64 + c.toNat % 64 = n
  unfold String.utf8EncodeChar
  simp only [toNat_ofNat (Or.inl (show n < 0xD800 by omega))]
  rw [if_neg (by omega), if_pos (by omega)]
  refine congrArg₂ _ (UInt8.toNat_inj.1 ?_) (congrArg₂ _ (UInt8.toNat_inj.1 ?_) rfl) <;>
    rw [UInt8.toNat_ofNat'] <;> omega

theorem secondFits_bounds {b c : UInt8} (h : secondFits b c = true) : 128 ≤ c.toNat ∧ c.toNat < 192 ∧
    (b.toNat = 0xE0 → 0xA0 ≤ c.toNat) ∧ (b.toNat = 0xED → c.toNat ≤ 0x9F) ∧ (b.toNat = 0xF0 → 0x90 ≤ c.toNat) ∧
      (b.toNat = 0xF4 → c.toNat ≤ 0x8F) := by
  unfold secondFits isContinuation at h
  split at h <;> simp only [Bool.and_eq_true, decide_eq_true_eq] at h
  case h_5 he0 hed hf0 hf4 => exact ⟨h.1, h.2, fun e => (he0 e).elim, fun e => (hed e).elim, fun e => (hf0 e).elim,
    fun e => (hf4 e).elim⟩
  all_goals omega

theorem encodeChar_three {b c d : UInt8} (hb : 0xE0 ≤ b.toNat ∧ b.toNat ≤ 0xEF) (hc : secondFits b c = true)
    (hd : isContinuation d = true) :
    String.utf8EncodeChar (Char.ofNat ((b.toNat % 16) * 4096 + (c.toNat % 64) * 64 + d.toNat % 64)) = [b, c, d] := by
  obtain ⟨hlo, hhi, he0, hed, -⟩ := secondFits_bounds hc
  simp only [isContinuation, Bool.and_eq_true, decide_eq_true_eq] at hd
  generalize hn : (b.toNat % 16) * 4096 + (c.toNat % 64) * 64 + d.toNat % 64 = n
  unfold String.utf8EncodeChar
  simp only [toNat_ofNat (show n < 0xD800 ∨ (0xDFFF < n ∧ n < 0x110000) by omega)]
  rw [if_neg (by omega), if_neg (by omega), if_pos (by omega)]
  refine congrArg₂ _ (UInt8.toNat_inj.1 ?_) (congrArg₂ _ (UInt8.toNat_inj.1 ?_)
    (congrArg₂ _ (UInt8.toNat_inj.1 ?_) rfl)) <;> rw [UInt8.toNat_ofNat'] <;> omega

theorem encodeChar_four {b c d e : UInt8} (hb : 0xF0 ≤ b.toNat ∧ b.toNat ≤ 0xF4) (hc : secondFits b c = true)
    (hd : isContinuation d = true) (he : isContinuation e = true) :
    String.utf8EncodeChar (Char.ofNat ((b.toNat % 8) * 262144 + (c.toNat % 64) * 4096 + (d.toNat % 64) * 64 +
      e.toNat % 64)) = [b, c, d, e] := by
  obtain ⟨hlo, hhi, -, -, hf0, hf4⟩ := secondFits_bounds hc
  simp only [isContinuation, Bool.and_eq_true, decide_eq_true_eq] at hd he
  generalize hn : (b.toNat % 8) * 262144 + (c.toNat % 64) * 4096 + (d.toNat % 64) * 64 + e.toNat % 64 = n
  unfold String.utf8EncodeChar
  simp only [toNat_ofNat (show n < 0xD800 ∨ (0xDFFF < n ∧ n < 0x110000) by omega)]
  rw [if_neg (by omega), if_neg (by omega), if_neg (by omega)]
  refine congrArg₂ _ (UInt8.toNat_inj.1 ?_) (congrArg₂ _ (UInt8.toNat_inj.1 ?_)
    (congrArg₂ _ (UInt8.toNat_inj.1 ?_) (congrArg₂ _ (UInt8.toNat_inj.1 ?_) rfl))) <;>
    rw [UInt8.toNat_ofNat'] <;> omega

/-- What is taken is the character that is decoded, or bytes above ASCII. -/
def Takes (bs : List UInt8) (r : Option Char × Nat) : Prop :=
  (∃ c, r.1 = some c ∧ String.utf8EncodeChar c = bs.take r.2) ∨ (r.1 = none ∧ ∀ x ∈ bs.take r.2, 128 ≤ x.toNat)

theorem takes_decodeOne (b : UInt8) (bs : List UInt8) : Takes (b :: bs) (decodeOne b bs) := by
  have hcont : ∀ {x : UInt8}, isContinuation x = true → 128 ≤ x.toNat := by
    intro x hx
    simp only [isContinuation, Bool.and_eq_true, decide_eq_true_eq] at hx
    exact hx.1
  unfold decodeOne
  simp only
  split
  · exact Or.inl ⟨_, rfl, encodeChar_one ‹_›⟩
  have hone : ∀ cs, Takes (b :: cs) (none, 1) := fun cs => Or.inr ⟨rfl, by simp; omega⟩
  have htwo : ∀ {c} cs, secondFits b c = true → Takes (b :: c :: cs) (none, 2) := by
    intro c cs hc
    have := (secondFits_bounds hc).1
    exact Or.inr ⟨rfl, by simp; omega⟩
  have hthree : ∀ {c d} cs, secondFits b c = true → isContinuation d = true →
      Takes (b :: c :: d :: cs) (none, 3) := by
    intro c d cs hc hd
    have := (secondFits_bounds hc).1
    have := hcont hd
    exact Or.inr ⟨rfl, by simp; omega⟩
  split
  · rcases bs with _ | ⟨c, bs⟩
    · exact hone _
    · dsimp only
      split
      · exact Or.inl ⟨_, rfl, encodeChar_two ‹_› ‹_›⟩
      · exact hone _
  split
  · rename_i hb
    rcases bs with _ | ⟨c, _ | ⟨d, bs⟩⟩
    · exact hone _
    · dsimp only
      split
      · exact htwo _ ‹_›
      · exact hone _
    · dsimp only
      cases hc : secondFits b c with
      | false => exact hone _
      | true =>
        cases hd : isContinuation d with
        | false => exact htwo _ hc
        | true => exact Or.inl ⟨_, rfl, encodeChar_three hb hc hd⟩
  split
  · rename_i hb
    rcases bs with _ | ⟨c, _ | ⟨d, _ | ⟨e, bs⟩⟩⟩
    · exact hone _
    · dsimp only
      split
      · exact htwo _ ‹_›
      · exact hone _
    · dsimp only
      cases hc : secondFits b c with
      | false => exact hone _
      | true =>
        cases hd : isContinuation d with
        | false => exact htwo _ hc
        | true => exact hthree _ hc hd
    · dsimp only
      cases hc : secondFits b c with
      | false => exact hone _
      | true =>
        cases hd : isContinuation d with
        | false => exact htwo _ hc
        | true =>
          cases he : isContinuation e with
          | false => exact hthree _ hc hd
          | true => exact Or.inl ⟨_, rfl, encodeChar_four hb hc hd he⟩
  · exact hone _

/-- An ASCII character is its own byte. -/
theorem encodeChar_ascii {c : Char} (h : c.toNat < 128) : String.utf8EncodeChar c = [UInt8.ofNat c.toNat] := by
  have := @encode_ascii [c] fun d hd => List.mem_singleton.1 hd ▸ h
  rwa [encode_cons, encode_nil, List.append_nil] at this

/-- No other character has an ASCII byte. -/
theorem le_of_mem_encodeChar {c : Char} (h : 128 ≤ c.toNat) {b : UInt8} (hb : b ∈ String.utf8EncodeChar c) :
    128 ≤ b.toNat := by
  by_contra hlt
  have hnat : (Char.ofNat b.toNat).toNat = b.toNat := toNat_ofNat (Or.inl (show b.toNat < 0xD800 by omega))
  have hmem := @mem_of_mem_encode (Char.ofNat b.toNat) (by omega) [c] (by
    rw [hnat, UInt8.ofNat_toNat]
    exact List.mem_append_left _ hb)
  rw [← List.mem_singleton.1 hmem, hnat] at h
  exact hlt h

/-! ## Chunks -/

theorem chunkBytes_chunkOf (b : UInt8) (bs : List UInt8) :
    chunkBytes (chunkOf (decodeOne b bs) (b :: bs)) = (b :: bs).take (decodeOne b bs).2 := by
  rcases takes_decodeOne b bs with ⟨c, hc, hbytes⟩ | ⟨hnone, -⟩
  · simp only [chunkOf, hc, chunkBytes, hbytes]
  · simp only [chunkOf, hnone, chunkBytes]

theorem flatMap_chunksFrom {fuel : Nat} : ∀ {bs : List UInt8}, bs.length ≤ fuel →
    (chunksFrom fuel bs).flatMap chunkBytes = bs := by
  induction fuel with
  | zero =>
    intro bs h
    rw [List.length_eq_zero_iff.1 (Nat.le_zero.1 h)]
    rfl
  | succ fuel ih =>
    intro bs h
    cases bs with
    | nil => rfl
    | cons b bs =>
      have hcount := (decodeOne_count b bs).1
      have hshort : ((b :: bs).drop (decodeOne b bs).2).length ≤ fuel := by
        rw [List.length_drop]
        omega
      rw [chunksFrom, List.flatMap_cons, chunkBytes_chunkOf, ih hshort, List.take_append_drop]

/-- Joined, the chunks are the bytes. -/
theorem flatMap_chunks (bs : List UInt8) : (chunks bs).flatMap chunkBytes = bs := flatMap_chunksFrom (Nat.le_refl _)

end Utf8
