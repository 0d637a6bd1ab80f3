import Peiosutils.Lib.Hex
import Peiosutils.Lib.Limbs

/-!
# Base58 (`encoding.rs`)

The big integers are limbs of 32 bits, with products in 64 bits; a result that does not fit is a panic. Encoding and
decoding write digits of base 256 in base 58 and back, with the zeros in front one by one (`encodeToVecDeque_settles`,
`decodeIntoVec_eq`), so that each undoes the other.
-/

set_option autoImplicit false

namespace Peiosutils.Base58

open Limbs
open While (Stop Settles loop settles_loop_done settles_loop_next settles_pure)

/-- One more than the largest `u32`. -/
def word : Nat := 4294967296

def alphabet : List UInt8 := Hex.asciiBytes "123456789ABCDEFGHJKLMNPQRSTUVWXYZabcdefghijkmnopqrstuvwxyz".toList

/-! ## Decoding -/

/-- One byte of the text: the number times 58, plus its digit. -/
def takeByte (num : List Nat) (byte : UInt8) : Except Stop (List Nat) :=
  match alphabet.idxOf? byte with
  | none => .error .failed
  | some digit => mulAdd word 58 num digit

/-- `u32::to_le_bytes`, as numbers. -/
def toLeBytes (n : Nat) : List Nat := [n % 256, n / 256 % 256, n / 65536 % 256, n / 16777216]

/-- The text is appended to `output` once all of it is decoded. -/
def decodeIntoVec (input output : List UInt8) : Except Stop Unit × List UInt8 :=
  if input = [] then (.ok (), output)
  else
    let leadingOnes := (input.takeWhile (· = 49)).length
    let inputTrimmed := input.drop leadingOnes
    if inputTrimmed = [] then (.ok (), output ++ List.replicate leadingOnes 0)
    else
      match inputTrimmed.foldlM takeByte [0] with
      | .error e => (.error e, output)
      | .ok num =>
        let result := (popZeros (num.flatMap toLeBytes)).reverse
        (.ok (), output ++ (List.replicate leadingOnes 0 ++ result.map UInt8.ofNat))

/-! ## Encoding -/

/-- One digit: the number and the digits so far, the lowest first. -/
def encodeTurn : List Nat × List UInt8 → Except Stop ((List Nat × List UInt8) ⊕ List UInt8)
  | (num, result) =>
    if num = [] then .ok (.inr result)
    else do
      let (num, carry) ← divLimbs word 58 num
      match alphabet[carry]? with
      | none => .error .panic
      | some byte =>
        let result := result ++ [byte]
        if num.all (· = 0) then return .inr result
        else if num.length > 1 ∧ result.length % 8 = 0 then return .inl (popZeros num, result)
        else return .inl (num, result)

/-- What `output` holds in the end. -/
def encodeToVecDeque (fuel : Nat) (input output : List UInt8) : Except Stop (List UInt8) :=
  if input = [] then .ok output
  else
    let leadingZeros := (input.takeWhile (· = 0)).length
    let inputTrimmed := input.drop leadingZeros
    if inputTrimmed = [] then .ok (output ++ List.replicate leadingZeros 49)
    else do
      let num ← inputTrimmed.foldlM (fun num byte => mulAdd word 256 num byte.toNat) []
      let result ← loop encodeTurn fuel (num, [])
      return output ++ List.replicate leadingZeros 49 ++ result.reverse

/-! ## The alphabet -/

/-- The place of a byte in the alphabet. -/
def digitOf (byte : UInt8) : Nat := alphabet.idxOf byte

def byteOf (digit : Nat) : UInt8 := alphabet.getD digit 0

theorem length_alphabet : alphabet.length = 58 := by decide

theorem nodup_alphabet : alphabet.Nodup := by decide

theorem getElem?_alphabet {d : Nat} (h : d < 58) : alphabet[d]? = some (byteOf d) := by
  rw [← length_alphabet] at h
  rw [byteOf, List.getD_eq_getElem?_getD, List.getElem?_eq_getElem h]
  rfl

theorem byteOf_mem {d : Nat} (h : d < 58) : byteOf d ∈ alphabet := List.mem_of_getElem? (getElem?_alphabet h)

theorem digitOf_byteOf {d : Nat} (h : d < 58) : digitOf (byteOf d) = d := by
  rw [← length_alphabet] at h
  rw [digitOf, byteOf, List.getD_eq_getElem?_getD, List.getElem?_eq_getElem h]
  exact nodup_alphabet.idxOf_getElem d h

theorem byteOf_digitOf {b : UInt8} (h : b ∈ alphabet) : byteOf (digitOf b) = b := by
  have hlt : alphabet.idxOf b < alphabet.length := List.idxOf_lt_length_iff.2 h
  rw [byteOf, digitOf, List.getD_eq_getElem?_getD, List.getElem?_eq_getElem hlt]
  exact List.getElem_idxOf hlt

theorem digitOf_lt {b : UInt8} (h : b ∈ alphabet) : digitOf b < 58 := length_alphabet ▸ List.idxOf_lt_length_iff.2 h

theorem digitOf_eq_zero_iff {b : UInt8} : digitOf b = 0 ↔ b = 49 := by
  rw [digitOf, List.idxOf_eq_zero_iff_head_eq (by decide), show alphabet.head (by decide) = 49 from by decide, eq_comm]

theorem takeByte_eq {b : UInt8} (h : b ∈ alphabet) (num : List Nat) :
    takeByte num b = mulAdd word 58 num (digitOf b) := by
  obtain ⟨d, hd⟩ := Option.isSome_iff_exists.1 (List.isSome_idxOf?.2 h)
  obtain ⟨hlt, hget, -⟩ := List.idxOf?_eq_some_iff.1 hd
  have hdigit : digitOf b = d := by
    rw [← hget]
    exact nodup_alphabet.idxOf_getElem d hlt
  rw [takeByte, hd, hdigit]

theorem takeByte_of_notMem {b : UInt8} (h : b ∉ alphabet) (num : List Nat) : takeByte num b = .error .failed := by
  rw [takeByte, List.idxOf?_eq_none_iff.2 h]

/-! ## What is decoded -/

/-- The bytes of a text over the alphabet. -/
def decoded (s : List UInt8) : List UInt8 := (rebase 58 256 (s.map digitOf)).map UInt8.ofNat

theorem toLeBytes_lt {n : Nat} (h : n < word) : ∀ b ∈ toLeBytes n, b < 256 := by
  simp only [toLeBytes, List.forall_mem_cons, List.not_mem_nil, false_implies, implies_true, and_true, word] at h ⊢
  omega

theorem fits_zero : Fits word [0] := List.forall_mem_singleton.2 (by decide)

/-- Four bytes are one limb. -/
theorem ofDigits_toLeBytes {num : List Nat} (h : Fits word num) :
    Nat.ofDigits 256 (num.flatMap toLeBytes) = Nat.ofDigits word num := by
  induction num with
  | nil => rfl
  | cons n ns ih =>
    obtain ⟨hn, hns⟩ := h.of_cons
    rw [List.flatMap_cons, toLeBytes, Nat.ofDigits_cons]
    simp only [List.cons_append, List.nil_append, Nat.ofDigits_cons, ih hns, word]
    omega

theorem foldlM_takeByte {s : List UInt8} (h : ∀ b ∈ s, b ∈ alphabet) (num : List Nat) :
    s.foldlM takeByte num = (s.map digitOf).foldlM (mulAdd word 58) num := by
  induction s generalizing num with
  | nil => rfl
  | cons b s ih =>
    rw [List.map_cons, List.foldlM_cons, List.foldlM_cons, takeByte_eq (h b List.mem_cons_self)]
    exact bind_congr fun num => ih (fun b hb => h b (List.mem_cons_of_mem _ hb)) num

/-- The bytes up to the first one that isn't in the alphabet are taken in. -/
theorem foldlM_takeByte_of_notMem {s : List UInt8} {b : UInt8} (hb : b ∈ s) (hnot : b ∉ alphabet) {num : List Nat}
    (hnum : Fits word num) : s.foldlM takeByte num = .error .failed := by
  induction s generalizing num with
  | nil => cases hb
  | cons c s ih =>
    rw [List.foldlM_cons]
    by_cases hc : c ∈ alphabet
    · obtain ⟨num', hrun, hnum', -⟩ :=
        mulAdd_spec (show 58 ≤ word by decide) hnum ((digitOf_lt hc).trans (show 58 < word by decide))
      rw [takeByte_eq hc, hrun]
      exact ih ((List.mem_cons.1 hb).resolve_left fun e => hnot (e ▸ hc)) hnum'
    · rw [takeByte_of_notMem hc]
      rfl

/-- Ones in front, and what starts with another digit. -/
theorem decoded_replicate_append {z : Nat} {rest : List UInt8} (hrest : rest.head? ≠ some 49) :
    (rest.map digitOf).head? ≠ some 0 ∧ decoded (List.replicate z 49 ++ rest) =
      List.replicate z 0 ++
        ((Nat.digits 256 (Nat.ofDigits 58 (rest.map digitOf).reverse)).reverse).map UInt8.ofNat := by
  have hhead : (rest.map digitOf).head? ≠ some 0 := by
    rw [List.head?_map]
    intro hzero
    obtain ⟨b, hb, hdigit⟩ := Option.map_eq_some_iff.1 hzero
    exact hrest (by rw [hb, digitOf_eq_zero_iff.1 hdigit])
  refine ⟨hhead, ?_⟩
  rw [decoded, List.map_append, List.map_replicate, digitOf_eq_zero_iff.2 rfl, rebase_replicate_append hhead,
    List.map_append, List.map_replicate]
  rfl

theorem decodeIntoVec_ones {z : Nat} {rest : List UInt8} (hrest : rest.head? ≠ some 49) (output : List UInt8) :
    decodeIntoVec (List.replicate z 49 ++ rest) output =
      if rest = [] then (.ok (), output ++ List.replicate z 0)
      else match rest.foldlM takeByte [0] with
        | .error e => (.error e, output)
        | .ok num => (.ok (), output ++ (List.replicate z 0 ++
            (popZeros (num.flatMap toLeBytes)).reverse.map UInt8.ofNat)) := by
  rw [decodeIntoVec, takeWhile_replicate_append hrest, List.length_replicate]
  dsimp only
  rw [List.drop_left' List.length_replicate]
  split
  · rename_i hnil
    obtain ⟨hz, rfl⟩ := List.append_eq_nil_iff.1 hnil
    simp [(List.replicate_eq_nil_iff 49).1 hz]
  · rfl

/-- Decoding a text over the alphabet never fails. -/
theorem decodeIntoVec_eq {s : List UInt8} (h : ∀ b ∈ s, b ∈ alphabet) (output : List UInt8) :
    decodeIntoVec s output = (.ok (), output ++ decoded s) := by
  obtain ⟨z, rest, rfl, hrest⟩ := eq_replicate_append 49 s
  obtain ⟨hhead, hdecoded⟩ := @decoded_replicate_append z rest hrest
  rw [hdecoded, decodeIntoVec_ones hrest]
  by_cases hempty : rest = []
  · simp [hempty]
  have hmem : ∀ b ∈ rest, b ∈ alphabet := fun b hb => h b (List.mem_append_right _ hb)
  have hfits : ∀ d ∈ rest.map digitOf, d < word := by
    intro d hd
    obtain ⟨b, hb, rfl⟩ := List.mem_map.1 hd
    exact (digitOf_lt (hmem b hb)).trans (by decide)
  obtain ⟨num, hrun, hnum, hvalue⟩ := foldlM_mulAdd (show 58 ≤ word by decide) fits_zero hfits
  have hpos := ofDigits_reverse_ne_zero (show 0 < 58 by decide) (mt List.map_eq_nil_iff.1 hempty) hhead
  rw [Nat.ofDigits_singleton, Nat.ofDigits_append_zero, ← ofDigits_toLeBytes hnum] at hvalue
  have hbytes : Fits 256 (num.flatMap toLeBytes) := by
    intro b hb
    obtain ⟨n, hn, hb⟩ := List.mem_flatMap.1 hb
    exact toLeBytes_lt (hnum n hn) b hb
  simp only [hempty, if_false, foldlM_takeByte hmem, hrun,
    popZeros_eq_digits (show 1 < 256 by decide) hbytes (hvalue ▸ hpos), hvalue]

/-- A byte that isn't in the alphabet: an error, and nothing is appended. -/
theorem decodeIntoVec_of_notMem {s : List UInt8} (h : ∃ b ∈ s, b ∉ alphabet) (output : List UInt8) :
    decodeIntoVec s output = (.error .failed, output) := by
  obtain ⟨z, rest, rfl, hrest⟩ := eq_replicate_append 49 s
  obtain ⟨b, hb, hnot⟩ := h
  have hmem : b ∈ rest := by
    refine (List.mem_append.1 hb).resolve_left fun hone => hnot ?_
    rw [(List.mem_replicate.1 hone).2]
    decide
  rw [decodeIntoVec_ones hrest, if_neg (List.ne_nil_of_mem hmem), foldlM_takeByte_of_notMem hmem hnot fits_zero]

/-! ## What is encoded -/

/-- The text for some bytes. -/
def encoded (x : List UInt8) : List UInt8 := (rebase 256 58 (x.map UInt8.toNat)).map byteOf

/-- The digits so far and those of the number. -/
theorem settles_encodeTurn {num : List Nat} (hnum : Fits word num) (hpos : Nat.ofDigits word num ≠ 0)
    (result : List UInt8) :
    Settles (loop encodeTurn · (num, result)) (result ++ (Nat.digits 58 (Nat.ofDigits word num)).map byteOf) := by
  generalize hv : Nat.ofDigits word num = v at hpos
  induction v using Nat.strong_induction_on generalizing num result with
  | _ v ih =>
    have hne : num ≠ [] := by
      rintro rfl
      exact hpos hv.symm
    obtain ⟨num', hrun, hnum', hvalue⟩ := divLimbs_spec (show 0 < 58 by decide) (show 58 ≤ word by decide) hnum
    have hdigits : Nat.digits 58 v = v % 58 :: Nat.digits 58 (v / 58) :=
      Nat.digits_def' (by decide) (Nat.pos_of_ne_zero hpos)
    have hbyte := getElem?_alphabet (Nat.mod_lt v (show 0 < 58 by decide))
    rw [hv] at hrun hvalue
    rw [hdigits, List.map_cons, List.append_cons]
    by_cases hzero : v / 58 = 0
    · have hall : num'.all (· = 0) = true := by
        simpa using (ofDigits_eq_zero_iff (show 0 < word by decide)).1 (hvalue.trans hzero)
      rw [hzero, Nat.digits_zero]
      exact settles_loop_done (by simp [encodeTurn, hne, hrun, hbyte, hall, bind, Except.bind, pure, Except.pure])
    · have hall : num'.all (· = 0) = false := by
        rw [Bool.eq_false_iff]
        intro hall
        exact hzero (hvalue ▸ (ofDigits_eq_zero_iff (show 0 < word by decide)).2 (by simpa using hall))
      -- the limbs that are trimmed do not count
      have hnext : ∃ next, encodeTurn (num, result) = .ok (.inl (next, result ++ [byteOf (v % 58)])) ∧ Fits word next ∧
          Nat.ofDigits word next = v / 58 := by
        by_cases htrim : num'.length > 1 ∧ (result ++ [byteOf (v % 58)]).length % 8 = 0
        · refine ⟨popZeros num', ?_, hnum'.popZeros, (ofDigits_popZeros num').trans hvalue⟩
          simp only [encodeTurn, if_neg hne, hrun, hbyte, hall, Bool.false_eq_true, if_false, if_pos htrim, bind,
            Except.bind, pure, Except.pure]
        · refine ⟨num', ?_, hnum', hvalue⟩
          simp only [encodeTurn, if_neg hne, hrun, hbyte, hall, Bool.false_eq_true, if_false, if_neg htrim, bind,
            Except.bind, pure, Except.pure]
      obtain ⟨next, hturn, hfits, hnextvalue⟩ := hnext
      exact settles_loop_next hturn
        (ih (v / 58) (Nat.div_lt_self (Nat.pos_of_ne_zero hpos) (by decide)) hfits _ hnextvalue hzero)

theorem encodeToVecDeque_zeros {z : Nat} {rest : List UInt8} (hrest : rest.head? ≠ some 0) (fuel : Nat)
    (output : List UInt8) :
    encodeToVecDeque fuel (List.replicate z 0 ++ rest) output =
      if rest = [] then .ok (output ++ List.replicate z 49)
      else (rest.map UInt8.toNat).foldlM (mulAdd word 256) [] >>= fun num =>
        loop encodeTurn fuel (num, []) >>= fun result =>
          .ok (output ++ List.replicate z 49 ++ result.reverse) := by
  rw [encodeToVecDeque, takeWhile_replicate_append hrest, List.length_replicate, List.foldlM_map]
  dsimp only
  rw [List.drop_left' List.length_replicate]
  split
  · rename_i hnil
    obtain ⟨hz, rfl⟩ := List.append_eq_nil_iff.1 hnil
    simp [(List.replicate_eq_nil_iff 0).1 hz]
  · rfl

/-- Encoding ends, and no step of it fails. -/
theorem encodeToVecDeque_settles (x output : List UInt8) :
    Settles (encodeToVecDeque · x output) (output ++ encoded x) := by
  obtain ⟨z, rest, rfl, hrest⟩ := eq_replicate_append 0 x
  have hhead : (rest.map UInt8.toNat).head? ≠ some 0 := by
    rw [List.head?_map]
    intro hzero
    obtain ⟨b, hb, hdigit⟩ := Option.map_eq_some_iff.1 hzero
    exact hrest (by rw [hb, UInt8.toNat_inj.1 (hdigit.trans UInt8.toNat_zero.symm)])
  have hencoded : encoded (List.replicate z 0 ++ rest) =
      List.replicate z 49 ++ (Nat.digits 58 (Nat.ofDigits 256 (rest.map UInt8.toNat).reverse)).reverse.map byteOf := by
    rw [encoded, List.map_append, List.map_replicate, UInt8.toNat_zero, rebase_replicate_append hhead, List.map_append,
      List.map_replicate]
    rfl
  simp only [encodeToVecDeque_zeros hrest, hencoded]
  by_cases hempty : rest = []
  · simp only [hempty, if_true]
    exact settles_pure (by simp)
  have hfits : ∀ d ∈ rest.map UInt8.toNat, d < word := by
    intro d hd
    obtain ⟨b, -, rfl⟩ := List.mem_map.1 hd
    exact b.toNat_lt.trans (by decide)
  obtain ⟨num, hrun, hnum, hvalue⟩ := foldlM_mulAdd (show 256 ≤ word by decide) (show Fits word [] from nofun) hfits
  have hpos := ofDigits_reverse_ne_zero (show 0 < 256 by decide) (mt List.map_eq_nil_iff.1 hempty) hhead
  rw [Nat.ofDigits_nil, Nat.ofDigits_append_zero] at hvalue
  rw [← hvalue] at hpos ⊢
  simp only [hempty, if_false, hrun]
  have hloop := settles_encodeTurn hnum hpos []
  refine (settles_pure rfl).bind (hloop.bind (settles_pure ?_))
  rw [List.nil_append, List.map_reverse, List.append_assoc]

/-! ## Round trips -/

theorem encoded_mem (x : List UInt8) : ∀ b ∈ encoded x, b ∈ alphabet := by
  intro b hb
  obtain ⟨d, hd, rfl⟩ := List.mem_map.1 hb
  exact byteOf_mem (rebase_lt (by decide) hd)

theorem decoded_encoded (x : List UInt8) : decoded (encoded x) = x := by
  have hdigits : (encoded x).map digitOf = rebase 256 58 (x.map UInt8.toNat) := by
    rw [encoded, List.map_map]
    exact (List.map_congr_left fun d hd => digitOf_byteOf (rebase_lt (by decide) hd)).trans (List.map_id _)
  have hbytes : ∀ d ∈ x.map UInt8.toNat, d < 256 := by
    intro d hd
    obtain ⟨b, -, rfl⟩ := List.mem_map.1 hd
    exact b.toNat_lt
  rw [decoded, hdigits, rebase_rebase (by decide) hbytes, List.map_map]
  exact (List.map_congr_left fun b _ => UInt8.ofNat_toNat).trans (List.map_id _)

theorem encoded_decoded {s : List UInt8} (h : ∀ b ∈ s, b ∈ alphabet) : encoded (decoded s) = s := by
  have hbytes : (decoded s).map UInt8.toNat = rebase 58 256 (s.map digitOf) := by
    rw [decoded, List.map_map]
    exact (List.map_congr_left fun d hd => UInt8.toNat_ofNat_of_lt' (rebase_lt (by decide) hd)).trans (List.map_id _)
  have hdigits : ∀ d ∈ s.map digitOf, d < 58 := by
    intro d hd
    obtain ⟨b, hb, rfl⟩ := List.mem_map.1 hd
    exact digitOf_lt (h b hb)
  rw [encoded, hbytes, rebase_rebase (by decide) hdigits, List.map_map]
  exact (List.map_congr_left fun b hb => byteOf_digitOf (h b hb)).trans (List.map_id _)

/-- **Base58 loses nothing.** Encoding always ends without a failed step, and what it appends is decoded to the same
bytes; what a text over the alphabet is decoded to is encoded to the same text; and any other text is an error that
leaves the output as it is. -/
theorem base58_round_trips :
    (∀ x output, ∃ s, Settles (encodeToVecDeque · x output) (output ++ s) ∧
      ∀ output', decodeIntoVec s output' = (.ok (), output' ++ x)) ∧
    (∀ s output, (∀ b ∈ s, b ∈ alphabet) → ∃ x, decodeIntoVec s output = (.ok (), output ++ x) ∧
      ∀ output', Settles (encodeToVecDeque · x output') (output' ++ s)) ∧
    ∀ s output, (∃ b ∈ s, b ∉ alphabet) → decodeIntoVec s output = (.error .failed, output) := by
  refine ⟨fun x output => ⟨encoded x, encodeToVecDeque_settles x output, fun output' => ?_⟩,
    fun s output hs => ⟨decoded s, decodeIntoVec_eq hs output, fun output' => ?_⟩,
    fun s output hs => decodeIntoVec_of_notMem hs output⟩
  · rw [decodeIntoVec_eq (encoded_mem x), decoded_encoded]
  · have h := encodeToVecDeque_settles (decoded s) output'
    rwa [encoded_decoded hs] at h

/-- A text with a one in front and one with a zero, which is no digit. -/
theorem base58_round_trips_one : (∃ x, decodeIntoVec [49, 97] [7] = (.ok (), [7] ++ x) ∧
      ∀ output', Settles (encodeToVecDeque · x output') (output' ++ [49, 97])) ∧
    decodeIntoVec [49, 48] [7] = (.error .failed, [7]) :=
  ⟨base58_round_trips.2.1 [49, 97] [7] (List.forall_mem_cons.2 ⟨by decide, List.forall_mem_singleton.2 (by decide)⟩),
    base58_round_trips.2.2 [49, 48] [7] ⟨48, by decide, by decide⟩⟩

end Peiosutils.Base58
