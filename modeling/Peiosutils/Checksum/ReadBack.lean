import Mathlib.Data.List.TakeWhile
import Peiosutils.Checksum.Lines
import Peiosutils.Lib.Base64

/-!
# Reading back what was written (`compute.rs`, `validate.rs`)

A file of lines that one run writes is read back line by line as the same algorithm, digests and names exactly if each
name is UTF-8, no untagged name is escaped, and no digest in base64 whose length is not known happens to be made of
hexadecimal digits (`checksums_read_back_iff`). An untagged line is never taken for a tagged one, whatever the name.
-/

set_option autoImplicit false

namespace Peiosutils.Checksum

variable {c : Codecs}

/-- What is known of the codecs. -/
structure Codecs.Lawful (c : Codecs) : Prop where
  hexDecode_encode : ∀ x, c.hexDecode (c.hexEncode x) = some x
  hexEncode_digits : ∀ x, ∀ b ∈ c.hexEncode x, (Hex.digitValue b).isSome
  hexEncode_length : ∀ x, (c.hexEncode x).length = 2 * x.length
  hexDecode_isSome : ∀ s, (c.hexDecode s).isSome ↔ s.length % 2 = 0 ∧ ∀ b ∈ s, (Hex.digitValue b).isSome
  hexDecode_length : ∀ s x, c.hexDecode s = some x → s.length = 2 * x.length
  base64_text : ∀ x, ∃ body, c.base64Encode x = body ++ List.replicate ((3 - x.length % 3) % 3) 61 ∧
    ∀ b ∈ body, Ascii.isAlphanumeric b ∨ b = 43 ∨ b = 47
  base64_length : ∀ x, (c.base64Encode x).length = 4 * ((x.length + 2) / 3)
  forgivingDecode_encode : ∀ x, c.forgivingDecode (c.base64Encode x) = some x

/-! ## Texts of digests -/

/-- A byte of a digest's text. -/
def sumByte (b : UInt8) : Bool := Ascii.isAlphanumeric b || b == 43 || b == 47 || b == 61

theorem isAlphanumeric_of_digit {b : UInt8} (h : (Hex.digitValue b).isSome) : Ascii.isAlphanumeric b = true := by
  simp only [Hex.digitValue] at h
  simp only [Ascii.isAlphanumeric, Ascii.isAlphabetic, Ascii.isUpper, Ascii.isLower, Ascii.isDigit, Bool.or_eq_true,
    Bool.and_eq_true, decide_eq_true_eq, UInt8.le_iff_toNat_le]
  split at h
  · simp; omega
  · split at h
    · simp; omega
    · split at h
      · simp; omega
      · cases h

/-- A digest's text: it passes the check of its format. -/
structure SumText (s : Bytes) : Prop where
  ne_nil : s ≠ []
  valid : validateChecksumFormat s = some s
  plain : ∀ b ∈ s, sumByte b = true

theorem SumText.ne {s : Bytes} (h : SumText s) {b v : UInt8} (hb : b ∈ s) (hv : sumByte v = false) : b ≠ v := by
  rintro rfl
  rw [h.plain b hb] at hv
  cases hv

theorem scanFormat_alphanumeric {s : Bytes} (h : ∀ b ∈ s, Ascii.isAlphanumeric b = true) (isBase64 : Bool) :
    scanFormat isBase64 s = some isBase64 := by
  induction s with
  | nil => rfl
  | cons b s ih =>
    rw [scanFormat, if_pos (h b List.mem_cons_self)]
    exact ih fun b hb => h b (List.mem_cons_of_mem _ hb)

theorem scanFormat_padded {body : Bytes} (h : ∀ b ∈ body, Ascii.isAlphanumeric b ∨ b = 43 ∨ b = 47) {pad : Nat}
    (hpad : pad ≤ 2) (isBase64 : Bool) : (scanFormat isBase64 (body ++ List.replicate pad 61)).isSome := by
  induction body generalizing isBase64 with
  | nil =>
    have hpads : pad = 0 ∨ pad = 1 ∨ pad = 2 := by omega
    rcases hpads with rfl | rfl | rfl <;> rfl
  | cons b body ih =>
    obtain ⟨hb, hbody⟩ := List.forall_mem_cons.1 h
    rw [List.cons_append, scanFormat]
    split
    · exact ih hbody _
    · rename_i halnum
      rw [if_pos (hb.resolve_left halnum)]
      exact ih hbody _

theorem sumText (hc : c.Lawful) {x : Bytes} (hx : x ≠ []) (format : DigestFormat) : SumText (encodeSum c x format) := by
  have hpos := List.length_pos_of_ne_nil hx
  cases format with
  | hexadecimal =>
    have halnum : ∀ b ∈ c.hexEncode x, Ascii.isAlphanumeric b = true :=
      fun b hb => isAlphanumeric_of_digit (hc.hexEncode_digits x b hb)
    have hne : c.hexEncode x ≠ [] := by
      rw [← List.length_pos_iff, hc.hexEncode_length]
      omega
    refine ⟨hne, ?_, fun b hb => by rw [sumByte, halnum b hb]; rfl⟩
    rw [encodeSum, validateChecksumFormat, if_neg hne, scanFormat_alphanumeric halnum]
    rfl
  | base64 =>
    obtain ⟨body, htext, hbody⟩ := hc.base64_text x
    have hlen := hc.base64_length x
    have hne : c.base64Encode x ≠ [] := by
      rw [← List.length_pos_iff, hlen]
      omega
    refine ⟨hne, ?_, ?_⟩
    · obtain ⟨isBase64, hscan⟩ := Option.isSome_iff_exists.1
        (scanFormat_padded hbody (Nat.le_of_lt_succ (Nat.mod_lt _ (by omega : 0 < 3))) false)
      rw [encodeSum, validateChecksumFormat, if_neg hne, htext, hscan, ← htext, Option.bind_some, if_neg (by omega)]
    · rw [encodeSum, htext, List.forall_mem_append]
      refine ⟨fun b hb => ?_, fun b hb => by rw [List.eq_of_mem_replicate hb]; rfl⟩
      rcases hbody b hb with h | rfl | rfl
      · rw [sumByte, h]
        rfl
      · rfl
      · rfl

/-! ## Digests -/

/-- A digest in base64 that looks like hexadecimal. -/
def LooksHex (c : Codecs) (x : Bytes) : Prop := ∀ b ∈ c.base64Encode x, (Hex.digitValue b).isSome

theorem getRaw_hex (hc : c.Lawful) (x : Bytes) {hint : Option HashLength}
    (hhint : ∀ h ∈ hint, h.asBytes = x.length) : getRawExpectedDigest c (c.hexEncode x) hint = some x := by
  have hcheck : (hint.all fun h => h.asBytes == x.length) = true := by
    cases hint with
    | none => rfl
    | some h => simp [hhint h rfl]
  simp only [getRawExpectedDigest, hc.hexEncode_length, Nat.mul_mod_right, ne_eq, not_true_eq_false, if_false,
    Nat.mul_div_cancel_left _ (by omega : 0 < 2), hcheck, if_true, hc.hexDecode_encode]

/-- Without padding there are three bytes for four letters. -/
theorem LooksHex.length (hc : c.Lawful) {x : Bytes} (h : LooksHex c x) : x.length % 3 = 0 := by
  obtain ⟨body, htext, -⟩ := hc.base64_text x
  by_contra hmod
  have hmem : (61 : UInt8) ∈ c.base64Encode x := by
    rw [htext, List.mem_append]
    exact .inr (List.mem_replicate.2 ⟨by omega, rfl⟩)
  exact absurd (h 61 hmem) (by decide)

theorem hexDecode_base64 (hc : c.Lawful) (x : Bytes) : (c.hexDecode (c.base64Encode x)).isSome ↔ LooksHex c x := by
  rw [hc.hexDecode_isSome, hc.base64_length]
  exact ⟨fun h => h.2, fun h => ⟨by omega, h⟩⟩

theorem getRaw_base64_hint (hc : c.Lawful) {x : Bytes} (hx : x ≠ []) {hint : HashLength}
    (hhint : hint.asBytes = x.length) : getRawExpectedDigest c (c.base64Encode x) (some hint) = some x := by
  have hpos := List.length_pos_of_ne_nil hx
  have hlen := hc.base64_length x
  have hcheck : (hint.asBytes == x.length) = true := by simp [hhint]
  have hbase64 : ((c.forgivingDecode (c.base64Encode x)).filter fun raw => hint.asBytes == raw.length) = some x := by
    rw [hc.forgivingDecode_encode, Option.filter_some, if_pos hcheck]
  simp only [getRawExpectedDigest, Option.all_some, if_pos (by omega : (c.base64Encode x).length % 4 = 0), hbase64]
  rw [if_neg (by omega)]
  split
  · rename_i heq
    -- as many digits as the hint says would leave no room for padding, and would be too few
    have hnone : c.hexDecode (c.base64Encode x) = none := by
      rw [← Option.not_isSome_iff_eq_none, hexDecode_base64 hc]
      intro hlooks
      have hmod := hlooks.length hc
      simp only [beq_iff_eq] at heq
      omega
    rw [hnone]
  · rfl

theorem getRaw_base64 (hc : c.Lawful) {x : Bytes} (hx : x ≠ []) :
    getRawExpectedDigest c (c.base64Encode x) none = some x ↔ ¬ LooksHex c x := by
  have hpos := List.length_pos_of_ne_nil hx
  have hlen := hc.base64_length x
  simp only [getRawExpectedDigest, Option.all_none, if_true, if_pos (by omega : (c.base64Encode x).length % 4 = 0),
    hc.forgivingDecode_encode, Option.filter_some]
  rw [if_neg (by omega), ← hexDecode_base64 hc]
  cases hraw : c.hexDecode (c.base64Encode x) with
  | none => simp
  | some raw =>
    have hhalf := hc.hexDecode_length _ _ hraw
    have hmod := LooksHex.length hc ((hexDecode_base64 hc x).1 (by rw [hraw]; rfl))
    simp only [Option.some.injEq, Option.isSome_some, not_true_eq_false, iff_false]
    rintro rfl
    omega

/-! ## Names -/

theorem escapeByte_plain {b : UInt8} (h : b ≠ 92 ∧ b ≠ 10 ∧ b ≠ 13) : escapeByte b = [b] := by
  rw [escapeByte, if_neg h.1, if_neg h.2.1, if_neg h.2.2]

theorem unescapeFilename_cons {b : UInt8} (h : b ≠ 92) (s : Bytes) :
    unescapeFilename (b :: s) = b :: unescapeFilename s := by
  rw [unescapeFilename]
  all_goals
    intros
    simp_all

theorem unescape_escape (name : Bytes) : unescapeFilename (name.flatMap escapeByte) = name := by
  induction name with
  | nil => rfl
  | cons b name ih =>
    rw [List.flatMap_cons]
    by_cases h₁ : b = 92
    · subst h₁
      rw [show escapeByte 92 = [92, 92] from rfl, List.cons_append, List.singleton_append, unescapeFilename, ih]
    by_cases h₂ : b = 10
    · subst h₂
      rw [show escapeByte 10 = [92, 110] from rfl, List.cons_append, List.singleton_append, unescapeFilename, ih]
    by_cases h₃ : b = 13
    · subst h₃
      rw [show escapeByte 13 = [92, 114] from rfl, List.cons_append, List.singleton_append, unescapeFilename, ih]
    · rw [escapeByte_plain ⟨h₁, h₂, h₃⟩, List.singleton_append, unescapeFilename_cons h₁, ih]

/-- A name without a byte that is escaped. -/
def Plain (name : Bytes) : Prop := ∀ b ∈ name, b ≠ 92 ∧ b ≠ 10 ∧ b ≠ 13

instance (name : Bytes) : Decidable (Plain name) := inferInstanceAs (Decidable (∀ b ∈ name, _))

theorem escaped_of_plain {name : Bytes} (h : Plain name) : name.flatMap escapeByte = name := by
  induction name with
  | nil => rfl
  | cons b name ih =>
    obtain ⟨hb, hname⟩ := List.forall_mem_cons.1 h
    rw [List.flatMap_cons, escapeByte_plain hb, ih hname]
    rfl

theorem length_escapeByte (b : UInt8) : 1 ≤ (escapeByte b).length ∧
    ((escapeByte b).length = 1 → b ≠ 92 ∧ b ≠ 10 ∧ b ≠ 13) := by
  unfold escapeByte
  split
  · simp
  · split
    · simp
    · split
      · simp
      · simp_all

/-- A name that is escaped gets longer. -/
theorem length_escaped (name : Bytes) : name.length ≤ (name.flatMap escapeByte).length ∧
    ((name.flatMap escapeByte).length ≤ name.length → Plain name) := by
  induction name with
  | nil => exact ⟨Nat.le_refl _, fun _ b hb => by cases hb⟩
  | cons b name ih =>
    obtain ⟨hone, hplain⟩ := length_escapeByte b
    rw [List.flatMap_cons, List.length_append, List.length_cons]
    refine ⟨by omega, fun hle => ?_⟩
    exact List.forall_mem_cons.2 ⟨hplain (by omega), ih.2 (by omega)⟩

theorem escaped_eq_iff (name : Bytes) : name.flatMap escapeByte = name ↔ Plain name :=
  ⟨fun h => (length_escaped name).2 (by rw [h]), escaped_of_plain⟩

theorem mem_escaped {name : Bytes} {b : UInt8} (h : b ∈ name.flatMap escapeByte) : b ≠ 10 ∧ b ≠ 13 := by
  obtain ⟨a, -, hb⟩ := List.mem_flatMap.1 h
  unfold escapeByte at hb
  split at hb
  · simp only [List.mem_cons, List.not_mem_nil, or_false] at hb
    rcases hb with rfl | rfl <;> decide
  · split at hb
    · simp only [List.mem_cons, List.not_mem_nil, or_false] at hb
      rcases hb with rfl | rfl <;> decide
    · split at hb
      · simp only [List.mem_cons, List.not_mem_nil, or_false] at hb
        rcases hb with rfl | rfl <;> decide
      · rw [List.mem_singleton] at hb
        subst hb
        exact ⟨‹_›, ‹_›⟩

/-- A name is UTF-8. -/
def IsUtf8 (name : Bytes) : Prop := ∃ text, name = Utf8.encode text

theorem lossyName_eq_iff (name : Bytes) : lossyName name = name ↔ IsUtf8 name := by
  constructor
  · exact fun h => ⟨_, h.symm⟩
  · rintro ⟨text, rfl⟩
    rw [lossyName, Utf8.lossyList, Utf8.lossyChars_encode _ _ (Nat.le_refl _)]

/-! ## Tags -/

/-- The algorithms with their lengths. -/
inductive Sized : AlgoKind → Option HashLength → SizedAlgoKind → Prop where
  | md5 : Sized .md5 none .md5
  | sm3 : Sized .sm3 none .sm3
  | sha1 : Sized .sha1 none .sha1
  | sha224 : Sized .sha224 none (.sha2 .len224)
  | sha256 : Sized .sha256 none (.sha2 .len256)
  | sha384 : Sized .sha384 none (.sha2 .len384)
  | sha512 : Sized .sha512 none (.sha2 .len512)
  | sha2 (l : ShaLength) : Sized .sha2 (some ⟨l.asUsize⟩) (.sha2 l)
  | sha3 (l : ShaLength) : Sized .sha3 (some ⟨l.asUsize⟩) (.sha3 l)
  | blake2b (length : Option HashLength) {n : Nat} (hlength : length.getD ⟨512⟩ = ⟨n⟩) (hpos : 0 < n) (hn : n ≤ 512)
      (hmod : n % 8 = 0) : Sized .blake2b length (.blake2b ⟨n⟩)
  | blake3 (length : Option HashLength) {n : Nat} (hlength : length.getD ⟨256⟩ = ⟨n⟩) (hpos : 0 < n)
      (hn : n ≤ usizeMax) (hmod : n % 8 = 0) : Sized .blake3 length (.blake3 ⟨n⟩)
  | shake128 (length : Option HashLength) (h : ∀ l ∈ length, 0 < l.bitLen ∧ l.bitLen ≤ usizeMax) :
      Sized .shake128 length (.shake128 length)
  | shake256 (length : Option HashLength) (h : ∀ l ∈ length, 0 < l.bitLen ∧ l.bitLen ≤ usizeMax) :
      Sized .shake256 length (.shake256 length)

theorem tryFrom_eq {n : Nat} {l : ShaLength} (h : ShaLength.tryFrom n = some l) : n = l.asUsize := by
  unfold ShaLength.tryFrom at h
  split at h
  · cases h; assumption
  · split at h
    · cases h; assumption
    · split at h
      · cases h; assumption
      · split at h
        · cases h; assumption
        · cases h

theorem tryFrom_asUsize (l : ShaLength) : ShaLength.tryFrom l.asUsize = some l := by cases l <;> rfl

/-- The lengths of the BLAKE algorithms. -/
theorem parseBlakeLength_spec {algo : AlgoKind} {n : Nat} {l : HashLength} (hn : n ≤ usizeMax)
    (h : parseBlakeLength algo n = some l) :
    0 < l.bitLen ∧ l.bitLen ≤ usizeMax ∧ l.bitLen % 8 = 0 ∧ (algo = .blake2b → l.bitLen ≤ 512) := by
  unfold parseBlakeLength at h
  split at h
  · cases h
    split <;> simp_all [usizeMax]
  · split at h
    · cases h
    · split at h
      · cases h
      · cases h
        rename_i hzero hbig hmod
        exact ⟨Nat.pos_of_ne_zero hzero, hn, not_not.1 hmod, fun halgo => by
          by_contra hlt
          exact hbig ⟨halgo, Nat.lt_of_not_le hlt⟩⟩

theorem sanitizeBlake {algo : AlgoKind} {inputLength : Bytes} {length : Option HashLength}
    (h : ((Numeral.parseUnsigned usizeMax inputLength).bind fun n => (parseBlakeLength algo n).map some) =
      some length) :
    ∃ l, length = some l ∧ 0 < l.bitLen ∧ l.bitLen ≤ usizeMax ∧ l.bitLen % 8 = 0 ∧
      (algo = .blake2b → l.bitLen ≤ 512) := by
  obtain ⟨n, hparse, hmap⟩ := Option.bind_eq_some_iff.1 h
  obtain ⟨l, hl, rfl⟩ := Option.map_eq_some_iff.1 hmap
  exact ⟨l, rfl, parseBlakeLength_spec (Numeral.parseUnsigned_le hparse) hl⟩

theorem sanitizeShake {inputLength : Bytes} {length : Option HashLength}
    (h : ((Numeral.parseUnsigned usizeMax inputLength).map fun n =>
      if n = 0 then none else some (⟨n⟩ : HashLength)) = some length) :
    ∀ l ∈ length, 0 < l.bitLen ∧ l.bitLen ≤ usizeMax := by
  obtain ⟨n, hparse, rfl⟩ := Option.map_eq_some_iff.1 h
  intro l hl
  split at hl
  · cases hl
  · cases hl
    exact ⟨by simp only; omega, Numeral.parseUnsigned_le hparse⟩

theorem Accepted.sized {kind : AlgoKind} {length : Option HashLength} {algo : SizedAlgoKind}
    (h : Accepted kind length algo) : Sized kind length algo := by
  obtain ⟨hlegacy, ⟨inputLength, hlength⟩, halgo⟩ := h
  cases kind with
  | sysv | bsd | crc | crc32b => cases hlegacy
  | md5 | sm3 | sha1 | sha224 | sha256 | sha384 | sha512 =>
    cases length with
    | none => cases halgo; constructor
    | some l => cases halgo
  | sha2 | sha3 =>
    cases length with
    | none => cases halgo
    | some l =>
      obtain ⟨sha, hsha, rfl⟩ := Option.map_eq_some_iff.1 halgo
      obtain ⟨n⟩ := l
      obtain rfl := tryFrom_eq hsha
      constructor
  | blake2b =>
    cases halgo
    cases inputLength with
    | none => cases hlength; exact .blake2b none rfl (by decide) (by decide) (by decide)
    | some inputLength =>
      obtain ⟨l, rfl, hpos, -, hmod, hle⟩ := sanitizeBlake hlength
      exact .blake2b (some l) rfl hpos (hle rfl) hmod
  | blake3 =>
    cases halgo
    cases inputLength with
    | none => cases hlength; exact .blake3 none rfl (by decide) (by decide) (by decide)
    | some inputLength =>
      obtain ⟨l, rfl, hpos, hle, hmod, -⟩ := sanitizeBlake hlength
      exact .blake3 (some l) rfl hpos hle hmod
  | shake128 =>
    cases halgo
    cases inputLength with
    | none => cases hlength; exact .shake128 none (by simp)
    | some inputLength => exact .shake128 length (sanitizeShake hlength)
  | shake256 =>
    cases halgo
    cases inputLength with
    | none => cases hlength; exact .shake256 none (by simp)
    | some inputLength => exact .shake256 length (sanitizeShake hlength)

/-- A tag: a name, and a number of bits behind a dash. -/
def tagText (name : Bytes) (bits : Option Nat) : Bytes := name ++ bits.elim [] fun n => 45 :: Numeral.decimal n

/-- What a tag is read as, and what it was written for. -/
structure Tagged (kind : AlgoKind) (algo : SizedAlgoKind) (name : Bytes) (bits : Option Nat) (line : AlgoKind)
    (len : Option HashLength) : Prop where
  text : algo.toTag = some (tagText name bits)
  valid : isValidAlgo name = true
  plain : name ≠ [] ∧ ∀ b ∈ name, Ascii.isAlphanumeric b = true
  fits : ∀ n ∈ bits, n ≤ usizeMax
  identified : ∀ sum filename, identifyAlgoNameAndLength ⟨some name, bits, sum, filename, .algoBased⟩ (some kind) =
    .ok (line, len)
  same : (SizedAlgoKind.fromUnsized line len).map SizedAlgoKind.createDigest = some algo.createDigest
  hint : (algoBasedHint line len).map HashLength.asBytes =
    if [.blake2b, .blake3, .shake128, .shake256].contains kind then some algo.createDigest.outputBytes else none

theorem fromCksum_names :
    [ascii "MD5", ascii "SM3", ascii "SHA1", ascii "SHA224", ascii "SHA256", ascii "SHA384", ascii "SHA512",
        ascii "SHA3", ascii "BLAKE2b", ascii "BLAKE3", ascii "SHAKE128", ascii "SHAKE256"].map
      (fun name => (AlgoKind.fromCksum (name.map Ascii.toLower), isValidAlgo name, name.isEmpty,
        name.all Ascii.isAlphanumeric)) =
    [.md5, .sm3, .sha1, .sha224, .sha256, .sha384, .sha512, .sha3, .blake2b, .blake3, .shake128, .shake256].map
      fun kind => (some kind, true, false, true) := by decide

/-- A name of the list above. -/
structure Names (name : Bytes) (kind : AlgoKind) : Prop where
  fromCksum : AlgoKind.fromCksum (name.map Ascii.toLower) = some kind
  valid : isValidAlgo name = true
  plain : name ≠ [] ∧ ∀ b ∈ name, Ascii.isAlphanumeric b = true

theorem names_of {name : Bytes} {kind : AlgoKind}
    (h : (AlgoKind.fromCksum (name.map Ascii.toLower), isValidAlgo name, name.isEmpty,
      name.all Ascii.isAlphanumeric) = (some kind, true, false, true)) : Names name kind := by
  simp only [Prod.mk.injEq] at h
  obtain ⟨hfrom, hvalid, hne, hall⟩ := h
  refine ⟨hfrom, hvalid, ?_, by simpa using hall⟩
  rintro rfl
  cases hne

def shaName : ShaLength → Bytes × AlgoKind
  | .len224 => (ascii "SHA224", .sha224)
  | .len256 => (ascii "SHA256", .sha256)
  | .len384 => (ascii "SHA384", .sha384)
  | .len512 => (ascii "SHA512", .sha512)

theorem sha2_tag (l : ShaLength) : ascii "SHA" ++ Numeral.decimal l.asUsize = (shaName l).1 := by
  cases l <;> decide

theorem asBytes_mul (n : Nat) : ((n + 7) / 8 * 8 + 7) / 8 = (n + 7) / 8 := by omega

/-- A fixed algorithm has no bits in its tag. -/
theorem Tagged.of_plain {kind line : AlgoKind} {algo : SizedAlgoKind} {name : Bytes} (hn : Names name line)
    (htext : algo.toTag = some name)
    (hagrees : (kind == line || (kind == .sha2 && [.sha224, .sha256, .sha384, .sha512].contains line)) = true)
    (hsame : (SizedAlgoKind.fromUnsized line none).map SizedAlgoKind.createDigest = some algo.createDigest)
    (hkind : [.blake2b, .blake3, .shake128, .shake256].contains kind = false)
    (hline : [.blake2b, .blake3, .shake128, .shake256].contains line = false) :
    Tagged kind algo name none line none where
  text := by rw [htext, tagText, Option.elim_none, List.append_nil]
  valid := hn.valid
  plain := hn.plain
  fits := by simp
  identified := by
    intro sum filename
    simp only [identifyAlgoNameAndLength, Option.getD_some, hn.fromCksum, hagrees, if_true]
    cases line <;> first | rfl | cases hline
  same := hsame
  hint := by
    rw [hkind]
    cases line <;> first | rfl | cases hline

/-- The number of bits behind the dash is the length. -/
theorem Tagged.of_bits {kind : AlgoKind} {algo : SizedAlgoKind} {name : Bytes} {n : Nat} (hn : Names name kind)
    (htext : algo.toTag = some (name ++ [45] ++ Numeral.decimal n)) (hfits : n ≤ usizeMax)
    (hread : ∀ sum filename, AlgoKind.fromCksum (name.map Ascii.toLower) = some kind →
      identifyAlgoNameAndLength ⟨some name, some n, sum, filename, .algoBased⟩ (some kind) = .ok (kind, some ⟨n⟩))
    (hsame : (SizedAlgoKind.fromUnsized kind (some ⟨n⟩)).map SizedAlgoKind.createDigest = some algo.createDigest)
    (hhint : (algoBasedHint kind (some ⟨n⟩)).map HashLength.asBytes =
      if [.blake2b, .blake3, .shake128, .shake256].contains kind then some algo.createDigest.outputBytes else none) :
    Tagged kind algo name (some n) kind (some ⟨n⟩) where
  text := by
    rw [htext, List.append_assoc]
    rfl
  valid := hn.valid
  plain := hn.plain
  fits := by
    intro m hm
    cases hm
    exact hfits
  identified sum filename := hread sum filename hn.fromCksum
  same := hsame
  hint := hhint

theorem bits_le {length : Option HashLength} (h : ∀ l ∈ length, 0 < l.bitLen ∧ l.bitLen ≤ usizeMax) {d : Nat}
    (hd : d ≤ usizeMax) : (length.map HashLength.bitLen).getD d ≤ usizeMax := by
  cases length with
  | none => exact hd
  | some l => exact (h l rfl).2

theorem Sized.tagged {kind : AlgoKind} {length : Option HashLength} {algo : SizedAlgoKind}
    (h : Sized kind length algo) : ∃ name bits line len, Tagged kind algo name bits line len := by
  have hnames := fromCksum_names
  simp only [List.map_cons, List.map_nil, List.cons.injEq] at hnames
  obtain ⟨hmd5, hsm3, hsha1, hsha224, hsha256, hsha384, hsha512, hsha3, hblake2b, hblake3, hshake128, hshake256, -⟩ :=
    hnames
  have hsha : ∀ l, Names (shaName l).1 (shaName l).2 := by
    intro l
    cases l
    · exact names_of hsha224
    · exact names_of hsha256
    · exact names_of hsha384
    · exact names_of hsha512
  have hsha2 : ∀ (kind : AlgoKind) (l : ShaLength),
      (kind == (shaName l).2 || (kind == .sha2 && [.sha224, .sha256, .sha384, .sha512].contains (shaName l).2)) = true →
      [.blake2b, .blake3, .shake128, .shake256].contains kind = false →
      Tagged kind (.sha2 l) (shaName l).1 none (shaName l).2 none :=
    fun kind l hagrees hkind => .of_plain (hsha l) (by rw [SizedAlgoKind.toTag, sha2_tag]) hagrees
      (by cases l <;> rfl) hkind (by cases l <;> rfl)
  cases h with
  | md5 => exact ⟨_, _, _, _, .of_plain (names_of hmd5) rfl rfl rfl rfl rfl⟩
  | sm3 => exact ⟨_, _, _, _, .of_plain (names_of hsm3) rfl rfl rfl rfl rfl⟩
  | sha1 => exact ⟨_, _, _, _, .of_plain (names_of hsha1) rfl rfl rfl rfl rfl⟩
  | sha224 => exact ⟨_, _, _, _, hsha2 .sha224 .len224 rfl rfl⟩
  | sha256 => exact ⟨_, _, _, _, hsha2 .sha256 .len256 rfl rfl⟩
  | sha384 => exact ⟨_, _, _, _, hsha2 .sha384 .len384 rfl rfl⟩
  | sha512 => exact ⟨_, _, _, _, hsha2 .sha512 .len512 rfl rfl⟩
  | sha2 l => exact ⟨_, _, _, _, hsha2 .sha2 l (by cases l <;> rfl) rfl⟩
  | sha3 l =>
    have htag : ascii "SHA3-" = ascii "SHA3" ++ [45] := by decide
    refine ⟨_, _, _, _, .of_bits (names_of hsha3) (by rw [SizedAlgoKind.toTag, htag]) (by cases l <;> decide)
      (fun _ _ h => ?_) ?_ rfl⟩
    · simp only [identifyAlgoNameAndLength, Option.getD_some, h]
      cases l <;> rfl
    · rw [SizedAlgoKind.fromUnsized, tryFrom_asUsize]
      rfl
  | @blake2b length n hlength hpos hle hmod =>
    have hn := names_of hblake2b
    by_cases h512 : n = 512
    · subst h512
      refine ⟨ascii "BLAKE2b", none, .blake2b, some ⟨512⟩, ?_, hn.valid, hn.plain, by simp, ?_, rfl, rfl⟩
      · rw [tagText, Option.elim_none, List.append_nil]
        rfl
      · intro sum filename
        simp only [identifyAlgoNameAndLength, Option.getD_some, hn.fromCksum]
        rfl
    · have hparse : parseBlakeLength .blake2b n = some ⟨n⟩ := by
        rw [parseBlakeLength, if_neg (by omega), if_neg (by rintro ⟨-, h⟩; omega), if_neg (by simp [hmod])]
      have htag : ascii "BLAKE2b-" = ascii "BLAKE2b" ++ [45] := by decide
      refine ⟨_, _, _, _, .of_bits hn (by rw [SizedAlgoKind.toTag, if_neg h512, htag])
        (Nat.le_trans hle (by decide)) (fun _ _ h => ?_) rfl (congrArg some (asBytes_mul n).symm)⟩
      simp only [identifyAlgoNameAndLength, Option.getD_some, h, hparse]
      rfl
  | @blake3 length n hlength hpos hle hmod =>
    have hparse : parseBlakeLength .blake3 n = some ⟨n⟩ := by
      rw [parseBlakeLength, if_neg (by omega), if_neg (by rintro ⟨h, -⟩; cases h), if_neg (by simp [hmod])]
    have htag : ascii "BLAKE3-" = ascii "BLAKE3" ++ [45] := by decide
    refine ⟨_, _, _, _, .of_bits (names_of hblake3) (by rw [SizedAlgoKind.toTag, htag]) hle (fun _ _ h => ?_) rfl
      (congrArg some (asBytes_mul n).symm)⟩
    simp only [identifyAlgoNameAndLength, Option.getD_some, h, hparse]
    rfl
  | shake128 length hbits =>
    have htag : ascii "SHAKE128-" = ascii "SHAKE128" ++ [45] := by decide
    refine ⟨_, _, _, _, .of_bits (names_of hshake128) (by rw [SizedAlgoKind.toTag, htag])
      (bits_le hbits (by decide)) (fun _ _ h => ?_) rfl rfl⟩
    simp only [identifyAlgoNameAndLength, Option.getD_some, h]
    rfl
  | shake256 length hbits =>
    have htag : ascii "SHAKE256-" = ascii "SHAKE256" ++ [45] := by decide
    refine ⟨_, _, _, _, .of_bits (names_of hshake256) (by rw [SizedAlgoKind.toTag, htag])
      (bits_le hbits (by decide)) (fun _ _ h => ?_) rfl rfl⟩
    simp only [identifyAlgoNameAndLength, Option.getD_some, h]
    rfl

/-! ## Tagged lines -/

theorem findIdx?_prefix {p : UInt8 → Bool} {xs : Bytes} (hxs : ∀ x ∈ xs, p x = false) {y : UInt8} (hy : p y = true)
    (ys : Bytes) : (xs ++ y :: ys).findIdx? p = some xs.length := by
  rw [List.findIdx?_append, List.findIdx?_eq_none_iff.2 hxs, List.findIdx?_cons, if_pos hy]
  simp

/-- The last occurrence of the pattern, when its first byte is not in it again nor behind it. -/
theorem rsplitOnce_last {v : UInt8} {t : Bytes} (s u : Bytes) (hv : v ∉ t ++ u) :
    rsplitOnce (s ++ (v :: t ++ u)) (v :: t) = some (s, u) := by
  have hlen : (s ++ (v :: t ++ u)).length + 1 - (v :: t).length = s.length + 1 + u.length := by
    simp only [List.length_append, List.length_cons]
    omega
  have hbehind : ∀ i, s.length < i → ((s ++ (v :: t ++ u)).drop i).take (v :: t).length ≠ v :: t := by
    intro i hi heq
    obtain ⟨j, rfl⟩ := Nat.exists_eq_add_of_lt hi
    rw [show s.length + j + 1 = s.length + (j + 1) by omega, List.drop_length_add_append, List.cons_append,
      List.drop_succ_cons] at heq
    have hmem : v ∈ ((t ++ u).drop j).take (v :: t).length := by
      rw [heq]
      exact List.mem_cons_self
    exact hv (List.mem_of_mem_drop (List.mem_of_mem_take hmem))
  have hnone : ((List.range u.length).map (s.length + 1 + ·)).reverse.find?
      (fun i => ((s ++ (v :: t ++ u)).drop i).take (v :: t).length == v :: t) = none := by
    refine List.find?_eq_none.2 fun i hi => ?_
    obtain ⟨k, -, rfl⟩ := List.mem_map.1 (List.mem_reverse.1 hi)
    rw [beq_iff_eq]
    exact hbehind _ (by omega)
  rw [rsplitOnce, hlen, List.range_add, List.reverse_append, List.find?_append, hnone, Option.none_or,
    List.range_succ, List.reverse_append, List.reverse_singleton, List.singleton_append, List.find?_cons_of_pos]
  · rw [Option.map_some, List.take_left, ← List.append_assoc, ← List.length_append, List.drop_left]
  · rw [List.drop_left, List.take_left, beq_self_eq_true]

/-- A line begins with a backslash or not. -/
theorem rest_of_start {start : Bytes} (hstart : start = [] ∨ start = [92]) {b : UInt8} {t : Bytes}
    (hspace : Ascii.isWhitespace b = false) (hb : b ≠ 92) :
    (let trimmed := (start ++ b :: t).dropWhile Ascii.isWhitespace
      if trimmed.head? = some 92 then trimmed.drop 1 else trimmed) = b :: t := by
  rcases hstart with rfl | rfl
  · rw [List.nil_append, List.dropWhile_cons_of_neg (by simp [hspace])]
    exact if_neg (by simp [hb])
  · rfl

theorem isAlphanumeric_plain {b : UInt8} (h : Ascii.isAlphanumeric b = true) :
    Ascii.isWhitespace b = false ∧ b ≠ 92 ∧ b ≠ 45 := by
  have hne : ∀ v : UInt8, Ascii.isAlphanumeric v = false → b ≠ v := by
    rintro v hv rfl
    rw [h] at hv
    cases hv
  have h₁ := hne 32 rfl
  have h₂ := hne 9 rfl
  have h₃ := hne 10 rfl
  have h₄ := hne 12 rfl
  have h₅ := hne 13 rfl
  exact ⟨by simp [Ascii.isWhitespace, h₁, h₂, h₃, h₄, h₅], hne 92 rfl, hne 45 rfl⟩

theorem not_mem_tagText {name : Bytes} (hname : ∀ b ∈ name, Ascii.isAlphanumeric b = true) (bits : Option Nat)
    {v : UInt8} (hv : Ascii.isAlphanumeric v = false) (hdash : v ≠ 45) : v ∉ tagText name bits := by
  have halnum : ∀ b, Ascii.isAlphanumeric b = true → v ≠ b := by
    rintro b hb rfl
    rw [hb] at hv
    cases hv
  rw [tagText, List.mem_append, not_or]
  refine ⟨fun hmem => halnum v (hname v hmem) rfl, ?_⟩
  cases bits with
  | none => exact List.not_mem_nil
  | some n =>
    refine List.not_mem_cons_of_ne_of_not_mem hdash fun hmem => halnum v ?_ rfl
    rw [Ascii.isAlphanumeric, Numeral.isDigit_of_mem_decimal hmem, Bool.or_true]

/-- The name and the number of a tag. -/
theorem tagText_parts {name : Bytes} (hname : ∀ b ∈ name, Ascii.isAlphanumeric b = true) {bits : Option Nat}
    (hbits : ∀ n ∈ bits, n ≤ usizeMax) :
    (tagText name bits).takeWhile (· ≠ 45) = name ∧
      Numeral.parseUnsigned usizeMax ((tagText name bits).drop (name.length + 1)) = bits := by
  have hpos : ∀ b ∈ name, (decide (b ≠ 45)) = true :=
    fun b hb => decide_eq_true (isAlphanumeric_plain (hname b hb)).2.2
  cases bits with
  | none =>
    rw [tagText, Option.elim_none, List.append_nil, List.drop_of_length_le (by omega)]
    exact ⟨List.takeWhile_eq_self_iff.2 hpos, rfl⟩
  | some n =>
    rw [tagText, Option.elim_some, List.takeWhile_append_of_pos hpos, List.drop_length_add_append, List.drop_succ_cons,
      List.drop_zero]
    exact ⟨by simp, Numeral.parseUnsigned_decimal (hbits n rfl)⟩

theorem parseAlgoBased_tagged {start name : Bytes} {bits : Option Nat} (hstart : start = [] ∨ start = [92])
    (hvalid : isValidAlgo name = true) (hne : name ≠ []) (hname : ∀ b ∈ name, Ascii.isAlphanumeric b = true)
    (hbits : ∀ n ∈ bits, n ≤ usizeMax) (escaped : Bytes) {sum : Bytes} (hsum : SumText sum) :
    parseAlgoBased (start ++ tagText name bits ++ [32, 40] ++ escaped ++ ascii ") = " ++ sum) =
      some ⟨some name, bits, sum, escaped, .algoBased⟩ := by
  obtain ⟨b, bs, hcons⟩ := List.exists_cons_of_ne_nil hne
  obtain ⟨hspace, hb, -⟩ := isAlphanumeric_plain (hname b (hcons ▸ List.mem_cons_self))
  obtain ⟨halgo, hparse⟩ := tagText_parts hname hbits
  have hpar : ∀ x ∈ tagText name bits ++ [32], (x == 40) = false := by
    intro x hx
    rcases List.mem_append.1 hx with hx | hx
    · exact beq_false_of_ne fun h =>
        not_mem_tagText hname bits (by decide : Ascii.isAlphanumeric 40 = false) (by decide) (h ▸ hx)
    · simp only [List.mem_singleton] at hx
      subst hx
      rfl
  have hsplit : rsplitOnce (escaped ++ ascii ") = " ++ sum) (ascii ") = ") = some (escaped, sum) := by
    rw [List.append_assoc, show ascii ") = " = 41 :: [32, 61, 32] by decide]
    refine rsplitOnce_last escaped sum ?_
    rw [List.mem_append, not_or]
    exact ⟨by decide, fun hmem => hsum.ne hmem (by decide) rfl⟩
  have hline : start ++ tagText name bits ++ [32, 40] ++ escaped ++ ascii ") = " ++ sum =
      start ++ (tagText name bits ++ [32] ++ 40 :: (escaped ++ ascii ") = " ++ sum)) := by simp
  have hhead : ∃ t, tagText name bits ++ [32] ++ 40 :: (escaped ++ ascii ") = " ++ sum) = b :: t := by
    rw [tagText, hcons]
    exact ⟨_, rfl⟩
  obtain ⟨t, ht⟩ := hhead
  have hrest := rest_of_start hstart (t := t) hspace hb
  rw [← ht] at hrest
  simp only [parseAlgoBased, hline, hrest, findIdx?_prefix hpar (by rfl : ((40 : UInt8) == 40) = true),
    Option.bind_eq_bind, Option.bind_some]
  have hlen : (tagText name bits ++ [32]).length = (tagText name bits).length + 1 := by simp
  have hposix : ((tagText name bits ++ [32] ++ 40 :: (escaped ++ ascii ") = " ++ sum))[
      (tagText name bits ++ [32]).length - 1]? == some 32) = true := by
    rw [hlen, Nat.add_sub_cancel, List.append_assoc, List.getElem?_append_right (Nat.le_refl _), Nat.sub_self]
    rfl
  have htake : (tagText name bits ++ [32] ++ 40 :: (escaped ++ ascii ") = " ++ sum)).take
      ((tagText name bits ++ [32]).length - 1) = tagText name bits := by
    rw [hlen, Nat.add_sub_cancel, List.append_assoc, List.take_left]
  have hdrop : (tagText name bits ++ [32] ++ 40 :: (escaped ++ ascii ") = " ++ sum)).drop
      ((tagText name bits ++ [32]).length + 1) = escaped ++ ascii ") = " ++ sum := by
    rw [List.drop_length_add_append]
    rfl
  rw [if_neg (by rw [hlen]; omega)]
  simp only [hposix, if_true, htake, halgo, hparse, hvalid, hdrop, hsplit, Option.bind_some, hsum.valid]
  rfl

/-! ## Untagged lines -/

/-- What is in front of a parenthesis in an untagged line has a space before any dash. -/
theorem not_valid_of_space {sum : Bytes} (hsum : SumText sum) (rest : Bytes) :
    isValidAlgo ((sum ++ 32 :: rest).takeWhile (· ≠ 45)) = false := by
  have hmem : (32 : UInt8) ∈ (sum ++ 32 :: rest).takeWhile (· ≠ 45) := by
    rw [List.takeWhile_append_of_pos fun b hb => decide_eq_true (hsum.ne hb (by decide)), List.mem_append]
    exact .inr (by simp)
  rw [isValidAlgo, Bool.or_eq_false_iff, beq_eq_false_iff_ne, List.all_eq_false]
  refine ⟨fun heq => ?_, 32, hmem, by decide⟩
  rw [heq] at hmem
  exact absurd hmem (by decide)

/-- An untagged line is not taken for a tagged one, whatever the name. -/
theorem parseAlgoBased_untagged {start sum : Bytes} (hstart : start = [] ∨ start = [92]) (hsum : SumText sum)
    (mode : ReadingMode) (name : Bytes) : parseAlgoBased (start ++ sum ++ [32, mode.asChar] ++ name) = none := by
  obtain ⟨b, bs, hcons⟩ := List.exists_cons_of_ne_nil hsum.ne_nil
  have hb : b ∈ sum := hcons ▸ List.mem_cons_self
  have hline : start ++ sum ++ [32, mode.asChar] ++ name = start ++ (sum ++ 32 :: mode.asChar :: name) := by simp
  have hspace : Ascii.isWhitespace b = false := by
    have h₁ := hsum.ne hb (v := 32) rfl
    have h₂ := hsum.ne hb (v := 9) rfl
    have h₃ := hsum.ne hb (v := 10) rfl
    have h₄ := hsum.ne hb (v := 12) rfl
    have h₅ := hsum.ne hb (v := 13) rfl
    simp [Ascii.isWhitespace, h₁, h₂, h₃, h₄, h₅]
  have hrest := rest_of_start hstart (t := bs ++ 32 :: mode.asChar :: name) hspace (hsum.ne hb rfl)
  rw [← List.cons_append, ← hcons] at hrest
  simp only [parseAlgoBased, hline, hrest]
  cases hidx : (sum ++ 32 :: mode.asChar :: name).findIdx? (· == 40) with
  | none => rfl
  | some parIdx =>
    obtain ⟨hlt, hpar, -⟩ := List.findIdx?_eq_some_iff_getElem.1 hidx
    have hfar : sum.length + 2 ≤ parIdx := by
      by_contra hnear
      have hmem : (40 : UInt8) ∈ (sum ++ [32, mode.asChar]) := by
        rw [← beq_iff_eq.1 hpar]
        have hle : parIdx < (sum ++ [32, mode.asChar]).length := by
          rw [List.length_append]
          simp only [List.length_cons, List.length_nil]
          omega
        have hget : (sum ++ 32 :: mode.asChar :: name)[parIdx] = (sum ++ [32, mode.asChar])[parIdx] := by
          have hsplit : sum ++ 32 :: mode.asChar :: name = (sum ++ [32, mode.asChar]) ++ name := by simp
          simp only [hsplit]
          exact List.getElem_append_left hle
        rw [hget]
        exact List.getElem_mem hle
      rcases List.mem_append.1 hmem with h | h
      · exact hsum.ne h (by decide) rfl
      · cases mode <;> exact absurd h (by decide)
    have htake : ∀ n, sum.length + 1 ≤ n → ∃ t, (sum ++ 32 :: mode.asChar :: name).take n = sum ++ 32 :: t := by
      intro n hn
      obtain ⟨k, rfl⟩ := Nat.exists_eq_add_of_le hn
      refine ⟨(mode.asChar :: name).take k, ?_⟩
      rw [show sum.length + 1 + k = sum.length + (k + 1) by omega, List.take_length_add_append, List.take_succ_cons]
    have hinvalid : ∀ n, sum.length + 1 ≤ n →
        isValidAlgo (((sum ++ 32 :: mode.asChar :: name).take n).takeWhile (· ≠ 45)) = false := by
      intro n hn
      obtain ⟨t, ht⟩ := htake n hn
      rw [ht]
      exact not_valid_of_space hsum t
    simp only [Option.bind_eq_bind, Option.bind_some]
    rw [if_neg (by omega)]
    split
    · rw [if_neg (by rw [hinvalid (parIdx - 1) (by omega)]; exact Bool.false_ne_true)]
    · rw [if_neg (by rw [hinvalid parIdx (by omega)]; exact Bool.false_ne_true)]

theorem findIdx?_space {sum : Bytes} (hsum : SumText sum) (rest : Bytes) :
    (sum ++ 32 :: rest).findIdx? (· == 32) = some sum.length :=
  findIdx?_prefix (fun b hb => by simpa using hsum.ne hb (v := 32) rfl) rfl rest

theorem parseUntagged_plain {sum : Bytes} (hsum : SumText sum) (mode : ReadingMode) (name : Bytes) :
    parseUntagged (sum ++ [32, mode.asChar] ++ name) = some ⟨none, none, sum, name, .untagged⟩ := by
  rw [List.append_assoc, List.cons_append, parseUntagged, findIdx?_space hsum]
  simp only [Option.bind_eq_bind, Option.bind_some, List.take_left, List.drop_left, hsum.valid]
  rw [if_pos (by cases mode <;> simp [ReadingMode.asChar])]
  rfl

/-- A backslash in front of the digest is not understood. -/
theorem parse_escaped {sum : Bytes} (hsum : SumText sum) (rest : Bytes) :
    parseUntagged ([92] ++ sum ++ 32 :: rest) = none ∧ parseSingleSpace ([92] ++ sum ++ 32 :: rest) = none := by
  have hidx : ([92] ++ sum ++ 32 :: rest).findIdx? (· == 32) = some ([92] ++ sum).length := by
    refine findIdx?_prefix (fun b hb => ?_) rfl rest
    rcases List.mem_append.1 hb with h | h
    · rw [List.mem_singleton.1 h]
      rfl
    · simpa using hsum.ne h (v := 32) rfl
  constructor
  · rw [parseUntagged, hidx]
    simp only [Option.bind_eq_bind, Option.bind_some, List.take_left]
    rfl
  · rw [parseSingleSpace, hidx]
    simp only [Option.bind_eq_bind, Option.bind_some, List.take_left]
    rfl

/-! ## Lines -/

/-- What a line is to be read back as. -/
def expected (algo : SizedAlgoKind) (e : Entry) : Except LineCheckError Check :=
  .ok ⟨algo.createDigest, e.digest, e.filename⟩

/-- Whether the length of a digest is known before it is decoded. -/
def lengthKnown (kind : AlgoKind) : OutputFormat → Bool
  | .tagged _ => [.blake2b, .blake3, .shake128, .shake256].contains kind
  | .untagged _ _ => kind.expectedDigestBitLen.isSome

/-- A file whose line is read back. -/
structure Fits (c : Codecs) (kind : AlgoKind) (format : OutputFormat) (e : Entry) : Prop where
  utf8 : IsUtf8 e.filename
  plain : ∀ digestFormat mode, format = .untagged digestFormat mode → Plain e.filename
  digest : format.digestFormat = .base64 → lengthKnown kind format = false → ¬ LooksHex c e.digest

/-- The digest is read back, by what is known of its length. -/
theorem getRaw_iff (hc : c.Lawful) {x : Bytes} (hx : x ≠ []) (format : DigestFormat) {hint : Option HashLength}
    {known : Bool} (hhint : hint.map HashLength.asBytes = if known then some x.length else none) :
    getRawExpectedDigest c (encodeSum c x format) hint = some x ↔
      (format = .base64 → known = false → ¬ LooksHex c x) := by
  cases format with
  | hexadecimal =>
    refine iff_of_true (getRaw_hex hc x fun h hh => ?_) (fun h => by cases h)
    rw [Option.mem_def.1 hh] at hhint
    cases known <;> simp_all
  | base64 =>
    cases hint with
    | none =>
      have hknown : known = false := by cases known <;> simp_all
      rw [encodeSum, getRaw_base64 hc hx, hknown]
      simp
    | some h =>
      cases known with
      | false => cases hhint
      | true =>
        exact iff_of_true (getRaw_base64_hint hc hx (Option.some.inj hhint)) (fun _ h => by cases h)

/-- The line begins with a tag or a digest: it is neither empty nor a comment. -/
theorem not_skipped {start text rest : Bytes} (hstart : start = [] ∨ start = [92]) (hne : text ≠ [])
    (htext : ∀ b ∈ text, b ≠ 35) : ¬ (start ++ text ++ rest = [] ∨ (start ++ text ++ rest).head? = some 35) := by
  obtain ⟨b, bs, rfl⟩ := List.exists_cons_of_ne_nil hne
  have hb := htext b List.mem_cons_self
  rcases hstart with rfl | rfl <;> simp [hb]

theorem writtenName_newline (algo : SizedAlgoKind) (format : OutputFormat) (filename : Bytes) :
    writtenName ⟨algo, format, .newline⟩ filename =
      ((lossyName filename).flatMap escapeByte, if Plain (lossyName filename) then [] else [92]) := by
  rw [writtenName, if_neg (by simp), escapeFilename]
  simp only [escaped_eq_iff]

theorem Sized.pos {kind : AlgoKind} {length : Option HashLength} {algo : SizedAlgoKind}
    (h : Sized kind length algo) : 0 < algo.createDigest.outputBytes := by
  cases h with
  | sha2 l | sha3 l => cases l <;> decide
  | blake2b _ _ hpos hle hmod =>
    simp only [SizedAlgoKind.createDigest, Digest.outputBytes, Digest.outputBits, HashLength.asBytes]
    omega
  | blake3 _ _ hpos hle hmod =>
    simp only [SizedAlgoKind.createDigest, Digest.outputBytes, Digest.outputBits, HashLength.asBytes]
    omega
  | shake128 _ hbits | shake256 _ hbits =>
    cases length with
    | none => decide
    | some l =>
      have := (hbits l rfl).1
      simp only [SizedAlgoKind.createDigest, Digest.outputBytes, Digest.outputBits, Option.map_some, Option.getD_some]
      omega
  | _ => decide

/-- What the length of an untagged digest says. -/
theorem Sized.untagged {kind : AlgoKind} {length : Option HashLength} {algo : SizedAlgoKind}
    (h : Sized kind length algo) :
    ((untaggedLength kind length algo.createDigest.outputBytes).bind (SizedAlgoKind.fromUnsized kind)).map
      SizedAlgoKind.createDigest = some algo.createDigest := by
  cases h with
  | sha2 l | sha3 l => cases l <;> rfl
  | @blake2b _ n _ hpos hle hmod =>
    simp only [untaggedLength, Option.bind_some, SizedAlgoKind.fromUnsized, Option.getD_some, Option.map_some,
      SizedAlgoKind.createDigest, Digest.outputBytes, Digest.outputBits, HashLength.asBytes, HashLength.fromBytes,
      Option.some.injEq, Digest.blake2b.injEq]
    omega
  | @blake3 _ n _ hpos hle hmod =>
    simp only [untaggedLength, Option.bind_some, SizedAlgoKind.fromUnsized, Option.getD_some, Option.map_some,
      SizedAlgoKind.createDigest, Digest.outputBytes, Digest.outputBits, HashLength.asBytes, HashLength.fromBytes,
      Option.some.injEq, Digest.blake3.injEq]
    omega
  | _ => rfl

theorem Sized.hint {kind : AlgoKind} {length : Option HashLength} {algo : SizedAlgoKind} (h : Sized kind length algo) :
    kind.expectedDigestBitLen.map HashLength.asBytes =
      if kind.expectedDigestBitLen.isSome then some algo.createDigest.outputBytes else none := by
  cases h <;> rfl

/-- A written line: it is one line, and how it is read. -/
structure Written (c : Codecs) (kind : AlgoKind) (length : Option HashLength) (algo : SizedAlgoKind)
    (format : OutputFormat) (e : Entry) (line : Bytes) : Prop where
  text : writtenLine c ⟨algo, format, .newline⟩ e = some line
  one : 10 ∉ line
  last : line.getLast? ≠ some 13
  read : ∀ (i : Nat) (cached : Option LineFormat), (cached = none ∨ cached = some .untagged) → ∃ r cached',
    processChecksumLine c line i (some kind) length cached = (r, cached') ∧
      (cached' = none ∨ cached' = some .untagged) ∧ (r = expected algo e ↔ Fits c kind format e)

theorem fits_iff {kind : AlgoKind} {format : OutputFormat} {e : Entry}
    (hplain : ∀ digestFormat mode, format = .untagged digestFormat mode → Plain (lossyName e.filename)) :
    Fits c kind format e ↔ lossyName e.filename = e.filename ∧
      (format.digestFormat = .base64 → lengthKnown kind format = false → ¬ LooksHex c e.digest) := by
  rw [lossyName_eq_iff]
  refine ⟨fun h => ⟨h.utf8, h.digest⟩, fun h => ⟨h.1, fun digestFormat mode heq => ?_, h.2⟩⟩
  rw [← (lossyName_eq_iff _).2 h.1]
  exact hplain digestFormat mode heq

theorem getLast?_append_ne {s t : Bytes} (ht : t ≠ []) {v : UInt8} (hv : ∀ b ∈ t, b ≠ v) :
    (s ++ t).getLast? ≠ some v := by
  rw [List.getLast?_append_of_ne_nil _ ht]
  exact fun h => hv v (List.mem_of_getLast? h) rfl

theorem tagged_line (hc : c.Lawful) {kind : AlgoKind} {length : Option HashLength} {algo : SizedAlgoKind}
    (h : Sized kind length algo) (format : DigestFormat) {e : Entry}
    (hdigest : e.digest.length = algo.createDigest.outputBytes) :
    ∃ line, Written c kind length algo (.tagged format) e line := by
  have hne : e.digest ≠ [] := List.ne_nil_of_length_pos (hdigest ▸ h.pos)
  have hsum := sumText hc hne format
  obtain ⟨name, bits, lineKind, len, htag⟩ := h.tagged
  obtain ⟨hname, halnum⟩ := htag.plain
  obtain ⟨algo', hfrom, hcreate⟩ := Option.map_eq_some_iff.1 htag.same
  have hraw := getRaw_iff hc hne format (hdigest ▸ htag.hint)
  set sum := encodeSum c e.digest format
  set escaped := (lossyName e.filename).flatMap escapeByte
  set start : Bytes := if Plain (lossyName e.filename) then [] else [92]
  have hstart : start = [] ∨ start = [92] := by
    simp only [start]
    split <;> simp
  refine ⟨start ++ tagText name bits ++ [32, 40] ++ escaped ++ ascii ") = " ++ sum, ?_, ?_, ?_, ?_⟩
  · simp only [writtenLine, writeTaggedChecksum, writtenName_newline, htag.text, Option.map_some]
    rfl
  · simp only [List.mem_append, not_or]
    refine ⟨⟨⟨⟨⟨?_, ?_⟩, by decide⟩, fun hm => (mem_escaped hm).1 rfl⟩, by decide⟩, fun hm => hsum.ne hm rfl rfl⟩
    · rcases hstart with h | h <;> rw [h] <;> decide
    · exact not_mem_tagText halnum bits rfl (by decide)
  · exact getLast?_append_ne hsum.ne_nil fun b hb => hsum.ne hb rfl
  · intro i cached hcached
    have hskip := @not_skipped start (tagText name bits) ([32, 40] ++ escaped ++ ascii ") = " ++ sum) hstart
      (List.append_ne_nil_of_left_ne_nil hname _) fun b hb h =>
        not_mem_tagText halnum bits (by decide : Ascii.isAlphanumeric 35 = false) (by decide) (h ▸ hb)
    simp only [← List.append_assoc] at hskip
    have hparse := parseAlgoBased_tagged hstart htag.valid hname halnum htag.fits escaped hsum
    simp only [processChecksumLine, if_neg hskip, LineInfo.parse, hparse]
    refine ⟨_, _, rfl, hcached, ?_⟩
    have hunescape : unescapeFilename escaped = lossyName e.filename := unescape_escape _
    simp only [processAlgoBasedLine, htag.identified]
    rw [fits_iff fun _ _ h => by cases h]
    change _ ↔ _ ∧ (format = .base64 → ([.blake2b, .blake3, .shake128, .shake256].contains kind) = false → _)
    rw [← hraw]
    cases hget : getRawExpectedDigest c sum (algoBasedHint lineKind len) with
    | none => simp [expected]
    | some raw =>
      simp only [hfrom, expected, computeAndCheckDigestFromFile, hcreate, hunescape, Except.ok.injEq, Check.mk.injEq,
        Option.some.injEq, true_and]
      exact And.comm

theorem untagged_line (hc : c.Lawful) {kind : AlgoKind} {length : Option HashLength} {algo : SizedAlgoKind}
    (h : Sized kind length algo) (format : DigestFormat) (mode : ReadingMode) {e : Entry}
    (hdigest : e.digest.length = algo.createDigest.outputBytes) :
    ∃ line, Written c kind length algo (.untagged format mode) e line := by
  have hne : e.digest ≠ [] := List.ne_nil_of_length_pos (hdigest ▸ h.pos)
  have hsum := sumText hc hne format
  have hraw := getRaw_iff hc hne format (hdigest ▸ h.hint)
  have hlen := h.untagged
  rw [← hdigest] at hlen
  set sum := encodeSum c e.digest format
  set escaped := (lossyName e.filename).flatMap escapeByte
  set start : Bytes := if Plain (lossyName e.filename) then [] else [92]
  have hstart : start = [] ∨ start = [92] := by
    simp only [start]
    split <;> simp
  have htail : ∀ b ∈ [32, mode.asChar] ++ escaped, b ≠ 10 ∧ b ≠ 13 := by
    intro b hb
    rcases List.mem_append.1 hb with hb | hb
    · simp only [List.mem_cons, List.not_mem_nil, or_false] at hb
      rcases hb with rfl | rfl
      · decide
      · cases mode <;> decide
    · exact mem_escaped hb
  refine ⟨start ++ sum ++ [32, mode.asChar] ++ escaped, ?_, ?_, ?_, ?_⟩
  · simp only [writtenLine, writeUntaggedChecksum, writtenName_newline]
    rfl
  · rw [List.append_assoc, List.mem_append, List.mem_append, not_or, not_or]
    refine ⟨⟨?_, fun hm => hsum.ne hm rfl rfl⟩, fun hm => (htail 10 hm).1 rfl⟩
    rcases hstart with h | h <;> rw [h] <;> decide
  · rw [List.append_assoc]
    exact getLast?_append_ne (by simp) fun b hb => (htail b hb).2
  · intro i cached hcached
    have hskip : ¬ (start ++ sum ++ [32, mode.asChar] ++ escaped = [] ∨
        (start ++ sum ++ [32, mode.asChar] ++ escaped).head? = some 35) := by
      rw [List.append_assoc]
      exact not_skipped hstart hsum.ne_nil fun b hb => hsum.ne hb rfl
    have hparse := parseAlgoBased_untagged hstart hsum mode escaped
    by_cases hplain : Plain (lossyName e.filename)
    · have hnil : start = [] := if_pos hplain
      rw [hnil, List.nil_append] at hskip hparse ⊢
      have huntagged := parseUntagged_plain hsum mode escaped
      have hcheck : ∀ cached', (cached' = none ∨ cached' = some .untagged) →
          LineInfo.parse (sum ++ [32, mode.asChar] ++ escaped) cached' =
            (some ⟨none, none, sum, escaped, .untagged⟩, some .untagged) := by
        rintro cached' (rfl | rfl) <;> simp only [LineInfo.parse, hparse, huntagged]
      simp only [processChecksumLine, if_neg hskip, hcheck cached hcached]
      refine ⟨_, _, rfl, .inr rfl, ?_⟩
      have hunescape : unescapeFilename escaped = lossyName e.filename := unescape_escape _
      rw [fits_iff fun _ _ _ => hplain]
      change _ ↔ _ ∧ (format = .base64 → kind.expectedDigestBitLen.isSome = false → _)
      rw [← hraw]
      simp only [processNonAlgoBasedLine]
      cases hget : getRawExpectedDigest c sum kind.expectedDigestBitLen with
      | none => simp [expected]
      | some raw =>
        simp only [expected, Option.some.injEq]
        constructor
        · intro hok
          cases hl : untaggedLength kind length raw.length with
          | none => rw [hl] at hok; cases hok
          | some len =>
            rw [hl] at hok
            cases hf : SizedAlgoKind.fromUnsized kind len with
            | none => simp only [hf] at hok; cases hok
            | some algo' =>
              simp only [hf, computeAndCheckDigestFromFile, Except.ok.injEq, Check.mk.injEq] at hok
              exact ⟨by rw [← hunescape]; simpa using hok.2.2, hok.2.1⟩
        · rintro ⟨hname, rfl⟩
          obtain ⟨algo', hbind, hcreate⟩ := Option.map_eq_some_iff.1 hlen
          obtain ⟨len, hl, hf⟩ := Option.bind_eq_some_iff.1 hbind
          simp only [hl, hf, computeAndCheckDigestFromFile, hcreate, Except.ok.injEq, Check.mk.injEq, true_and]
          simpa [hname] using hunescape
    · have hcons : start = [92] := if_neg hplain
      have hnone := parse_escaped hsum (mode.asChar :: escaped)
      have hline : [92] ++ sum ++ [32, mode.asChar] ++ escaped = [92] ++ sum ++ 32 :: mode.asChar :: escaped := by simp
      rw [hcons] at hskip hparse ⊢
      rw [hline] at hskip hparse ⊢
      have hunfit : ¬ Fits c kind (.untagged format mode) e := by
        intro hfits
        have hp := hfits.plain format mode rfl
        rw [← (lossyName_eq_iff _).2 hfits.utf8] at hp
        exact hplain hp
      have hresult : LineInfo.parse ([92] ++ sum ++ 32 :: mode.asChar :: escaped) cached = (none, cached) := by
        rcases hcached with rfl | rfl <;> simp only [LineInfo.parse, hparse, hnone.1, hnone.2]
      simp only [processChecksumLine, if_neg hskip, hresult]
      exact ⟨_, _, rfl, hcached, iff_of_false (by simp [expected]) hunfit⟩

theorem written_line (hc : c.Lawful) {kind : AlgoKind} {length : Option HashLength} {algo : SizedAlgoKind}
    (h : Sized kind length algo) (format : OutputFormat) {e : Entry}
    (hdigest : e.digest.length = algo.createDigest.outputBytes) : ∃ line, Written c kind length algo format e line := by
  cases format with
  | tagged format => exact tagged_line hc h format hdigest
  | untagged format mode => exact untagged_line hc h format mode hdigest

/-! ## Files -/

theorem trimLine_line {line : Bytes} (hlast : line.getLast? ≠ some 13) : trimLine (line ++ [10]) = line := by
  rw [trimLine, if_pos (by simp), List.dropLast_concat, if_neg hlast]

theorem readByteLines_lines {lines : List Bytes} (h : ∀ line ∈ lines, 10 ∉ line ∧ line.getLast? ≠ some 13) :
    readByteLines (lines.flatMap fun line => line ++ [10]) = lines := by
  induction lines with
  | nil => rfl
  | cons line lines ih =>
    obtain ⟨⟨hone, hlast⟩, hlines⟩ := List.forall_mem_cons.1 h
    have hterm : Lines.Terminated (10 : UInt8) (line ++ [10]) := .inr (by simp)
    rw [List.flatMap_cons, readByteLines, Lines.pieces_append hterm, Lines.pieces_line hone, List.map_append,
      List.map_singleton, trimLine_line hlast, List.singleton_append]
    exact congrArg (line :: ·) (ih hlines)

section Files

variable {kind : AlgoKind} {length : Option HashLength} {algo : SizedAlgoKind} {format : OutputFormat}
  {line : Entry → Bytes}

theorem mapM_text {files : List Entry} (h : ∀ e ∈ files, Written c kind length algo format e (line e)) :
    files.mapM (writtenLine c ⟨algo, format, .newline⟩) = some (files.map line) := by
  induction files with
  | nil => rfl
  | cons e files ih =>
    obtain ⟨he, hfiles⟩ := List.forall_mem_cons.1 h
    rw [List.mapM_cons, he.text, ih hfiles]
    rfl

/-- The lines that follow, from any line on. -/
theorem processLines_iff {files : List Entry} (h : ∀ e ∈ files, Written c kind length algo format e (line e)) :
    ∀ (i : Nat) (cached : Option LineFormat), (cached = none ∨ cached = some .untagged) →
      (processLines c (some kind) length i cached (files.map line) = files.map (expected algo) ↔
        ∀ e ∈ files, Fits c kind format e) := by
  induction files with
  | nil => simp [processLines]
  | cons e files ih =>
    intro i cached hcached
    obtain ⟨he, hfiles⟩ := List.forall_mem_cons.1 h
    obtain ⟨r, cached', hread, hcached', hr⟩ := he.read i cached hcached
    rw [List.map_cons, List.map_cons, processLines, hread, List.forall_mem_cons, ← hr,
      ← ih hfiles (i + 1) cached' hcached']
    split
    · rename_i heq
      obtain rfl : r = .error .uError := congrArg Prod.fst heq
      simp [expected]
    · rename_i heq
      obtain ⟨rfl, rfl⟩ := Prod.mk.inj heq
      rw [List.cons.injEq]

end Files

/-- What one run writes for some files is read back, with the algorithm and the length of the run. -/
def ReadBack (c : Codecs) (kind : AlgoKind) (length : Option HashLength) (algo : SizedAlgoKind) (format : OutputFormat)
    (files : List Entry) : Prop :=
  ∃ text, performChecksumComputation c ⟨algo, format, .newline⟩ files = some text ∧
    processChecksumFile c text (some kind) length = files.map (expected algo)

/-- **What is written is read back** exactly if every file fits. -/
theorem checksums_read_back_iff (c : Codecs) (hc : c.Lawful) (kind : AlgoKind) (length : Option HashLength)
    (algo : SizedAlgoKind) (haccepted : Accepted kind length algo) (format : OutputFormat) (files : List Entry)
    (hdigest : ∀ e ∈ files, e.digest.length = algo.createDigest.outputBytes) :
    ReadBack c kind length algo format files ↔ ∀ e ∈ files, Fits c kind format e := by
  choose! line hline using fun e (he : e ∈ files) => written_line hc haccepted.sized format (hdigest e he)
  have hone : ∀ text ∈ files.map line, 10 ∉ text ∧ text.getLast? ≠ some 13 := by
    intro text htext
    obtain ⟨e, he, rfl⟩ := List.mem_map.1 htext
    exact ⟨(hline e he).one, (hline e he).last⟩
  have hread := readByteLines_lines hone
  rw [ReadBack, performChecksumComputation, mapM_text hline, Option.map_some]
  simp only [Option.some.injEq, exists_eq_left', processChecksumFile, LineEnding.byte, hread]
  exact processLines_iff hline 0 none (.inl rfl)

/-- Hexadecimal in lower case, and base64 with padding. -/
def standard : Codecs := ⟨Base16.encode, Base16.decode, Base64.encode, Base64.decode⟩

theorem standard_lawful : standard.Lawful where
  hexDecode_encode := Base16.decode_encode
  hexEncode_digits _ := Base16.isSome_of_mem_encode
  hexEncode_length := Base16.length_encode
  hexDecode_isSome := Base16.isSome_decode
  hexDecode_length _ _ := Base16.length_of_decode
  base64_text x := by
    obtain ⟨body, htext, hbody, -⟩ := Base64.encode_text x
    refine ⟨body, htext, fun b hb => ?_⟩
    obtain ⟨v, hv, rfl⟩ := hbody b hb
    exact (Base64.letter_spec v hv).1
  base64_length := Base64.length_encode
  forgivingDecode_encode := Base64.decode_encode

/-- The MD5 digest of the file `a b`, which is empty. -/
def emptyDigest : Bytes :=
  [0xd4, 0x1d, 0x8c, 0xd9, 0x8f, 0x00, 0xb2, 0x04, 0xe9, 0x80, 0x09, 0x98, 0xec, 0xf8, 0x42, 0x7e]

theorem checksums_read_back_iff_md5 :
    ReadBack standard .md5 none .md5 (.untagged .hexadecimal .text) [⟨[97, 32, 98], emptyDigest⟩] ↔
      ∀ e ∈ [(⟨[97, 32, 98], emptyDigest⟩ : Entry)], Fits standard .md5 (.untagged .hexadecimal .text) e :=
  checksums_read_back_iff standard standard_lawful .md5 none .md5 ⟨rfl, ⟨none, rfl⟩, rfl⟩ _ _ (by simp; decide)

end Peiosutils.Checksum
