import Peiosutils.Lib.ShellWords
import Peiosutils.Uucore.CQuoted

/-!
# Names in the escaping shell style are read back (`shell_quoter.rs`)

Between single quotes every push leaves the reader of shell words behind the bytes of the name (`pushName_single`), and
without quotes the name is what is written. Between double quotes the dollar quotes are not read as such
(`pushName_double`). So a name is read back as the one word that it is, unless it is put between double quotes and has
something to escape (`readWords_escapeNameInner_iff`).
-/

set_option autoImplicit false

namespace Peiosutils.Quoting

open CEscape (octalEscape)
open ShellWords
open Utf8 (Chunk chunks chunkBytes encode)
open EscapeState (newShell newOctal collect mnemonic)

/-! ## One character -/

instance (b : UInt8) : Decidable (PlainBare b) := inferInstanceAs (Decidable (_ ∧ _))

instance (b : UInt8) : Decidable (PlainDouble b) := inferInstanceAs (Decidable (_ ∧ _))

/-- The kinds of characters. -/
inductive Kind (quotes : Quotes) (c : Char) : EscapeState → Prop where
  | mnemonic (l : Char) (h : mnemonic c = some l) : Kind quotes c (.backslash l)
  | quote (h : c = '\'') (hquotes : quotes = .single) : Kind quotes c (.backslash '\'')
  | control (h : isControl c = true) : Kind quotes c (.octal (.fromChar c))
  | special (h : c ∈ specialShellChars) (hquote : c ≠ '\'') (hcontrol : isControl c = false) :
      Kind quotes c (.forceQuote c)
  | plain (hquote : c = '\'' → quotes ≠ .single) (hcontrol : isControl c = false)
      (hspecial : c ≠ '\'' → c ∉ specialShellChars) : Kind quotes c (.char c)

theorem kind_newShell (quotes : Quotes) (c : Char) : Kind quotes c (newShell c true quotes) := by
  unfold newShell
  rw [if_neg (by simp)]
  split
  · rename_i l hl
    exact .mnemonic l hl
  split
  · rename_i hc
    subst hc
    split
    · exact .quote rfl ‹_›
    · rename_i hquotes
      exact .plain (fun _ => hquotes) (by decide) fun h => absurd rfl h
  rename_i hquote
  split
  · exact .control ‹_›
  rename_i hcontrol
  split
  · exact .special ‹_› hquote (Bool.eq_false_iff.2 hcontrol)
  · rename_i hspecial
    exact .plain (fun h => absurd h hquote) (Bool.eq_false_iff.2 hcontrol) fun _ => hspecial

/-- A mnemonic is that of a control character. -/
theorem isControl_of_mnemonic {c l : Char} (h : mnemonic c = some l) : isControl c = true := by
  unfold mnemonic at h
  split at h <;> first | rfl | cases h

/-! ## Escapes -/

/-- A text that dollar quotes read as some bytes, and double quotes as itself. -/
structure Escape (out bytes : List UInt8) : Prop where
  dollar : ∀ w ws, Takes ⟨.dollar, w, ws⟩ out ⟨.dollar, w ++ bytes, ws⟩
  double : ∀ w ws, Takes ⟨.double, w, ws⟩ out ⟨.double, w ++ out, ws⟩
  longer : bytes.length < out.length

theorem Escape.append {out out' bytes bytes' : List UInt8} (h : Escape out bytes) (h' : Escape out' bytes') :
    Escape (out ++ out') (bytes ++ bytes') := by
  refine ⟨fun w ws => ?_, fun w ws => ?_, ?_⟩
  · rw [← List.append_assoc]
    exact (h.dollar w ws).append (h'.dollar _ ws)
  · rw [← List.append_assoc]
    exact (h.double w ws).append (h'.double _ ws)
  · rw [List.length_append, List.length_append]
    exact Nat.add_lt_add h.longer h'.longer

theorem escape_octal (b : UInt8) : Escape (octalEscape b) [b] :=
  ⟨fun _ _ => takes_octalEscape b, fun _ _ => takes_double_octal b, Nat.lt_of_sub_eq_succ rfl⟩

theorem escape_octals {bytes : List UInt8} (h : bytes ≠ []) : Escape (bytes.flatMap octalEscape) bytes := by
  induction bytes with
  | nil => exact absurd rfl h
  | cons b bytes ih =>
    cases bytes with
    | nil => simpa using escape_octal b
    | cons c bytes => exact (escape_octal b).append (ih (List.cons_ne_nil c bytes))

theorem escape_mnemonic {c l : Char} (h : mnemonic c = some l) :
    Escape (encode (EscapeState.backslash l).collect) (String.utf8EncodeChar c) := by
  obtain ⟨hout, hchar, hletter⟩ := letterByte_of_mnemonic h
  rw [collect_backslash, hout, hchar]
  refine ⟨fun _ _ => takes_letter hletter, fun w ws => ?_, Nat.lt_succ_self 1⟩
  rw [show w ++ [92, UInt8.ofNat l.toNat] = w ++ [92] ++ [UInt8.ofNat l.toNat] by simp]
  unfold mnemonic at h
  split at h <;> cases h <;> rfl

/-! ## One push -/

/-- Something that is escaped. -/
def Hidden : Chunk → Prop
  | .inl c => isControl c = true
  | .inr bytes => bytes ≠ []

/-- What a push does. -/
inductive Pushed (q : EscapedShellQuoter) (chunk : Chunk) : EscapedShellQuoter → Prop where
  | nothing (hempty : chunkBytes chunk = []) (hshown : ¬ Hidden chunk) : Pushed q chunk q
  | shown (mustQuote : Bool) (hshown : ¬ Hidden chunk) (hquote : q.quotes = .single → 39 ∉ chunkBytes chunk)
      (hmust : mustQuote = true ∨
        mustQuote = q.mustQuote ∧ (q.quotes = .single → ∀ b ∈ chunkBytes chunk, PlainBare b)) :
      Pushed q chunk ({ q.exitDollar with mustQuote := mustQuote }.extend (chunkBytes chunk))
  | quote (hbytes : chunkBytes chunk = [39]) (hquotes : q.quotes = .single) :
      Pushed q chunk ({ q with mustQuote := true, inDollar := false }.extend [39, 92, 39, 39])
  | hidden (out : List UInt8) (hhidden : Hidden chunk) (hescape : Escape out (chunkBytes chunk)) :
      Pushed q chunk ({ q.enterDollar with mustQuote := true }.extend out)

theorem plainBare_high {b : UInt8} (h : 128 ≤ b.toNat) : PlainBare b := by
  have hne : ∀ k : UInt8, k.toNat < 128 → b ≠ k := by
    rintro k hk rfl
    exact absurd h (Nat.not_le.2 hk)
  refine ⟨?_, hne 39 (by decide), hne 34 (by decide), hne 92 (by decide), hne 36 (by decide), ?_⟩
  · simp [isBlank, hne 32 (by decide), hne 9 (by decide)]
  · rw [isSpecial, decide_eq_false_iff_not]
    intro hmem
    have hlow : ∀ k ∈ ([38, 42, 40, 41, 124, 91, 59, 60, 62, 63, 33, 96, 10] : List UInt8), k.toNat < 128 := by
      simp only [List.forall_mem_cons, List.not_mem_nil, false_implies, implies_true, and_true]
      decide
    exact hne b (hlow b hmem) rfl

/-- ASCII characters that are neither quoted nor escaped. -/
theorem plainBare_ascii : ∀ n < 128, Char.ofNat n ≠ '\'' → isControl (Char.ofNat n) = false →
    Char.ofNat n ∉ specialShellChars → PlainBare (UInt8.ofNat n) := by decide +kernel

/-- What is neither quoted nor escaped isn't special. -/
theorem plainBare_of_plain {c : Char} (hquote : c ≠ '\'') (hcontrol : isControl c = false)
    (hspecial : c ∉ specialShellChars) : ∀ b ∈ String.utf8EncodeChar c, PlainBare b := by
  by_cases hascii : c.toNat < 128
  · have h := plainBare_ascii c.toNat hascii
    rw [Char.ofNat_toNat] at h
    rw [Utf8.encodeChar_ascii hascii]
    exact List.forall_mem_singleton.2 (h hquote hcontrol hspecial)
  · exact fun b hb => plainBare_high (Utf8.le_of_mem_encodeChar (Nat.not_lt.1 hascii) hb)

theorem quote_notMem {c : Char} (h : c ≠ '\'') : 39 ∉ String.utf8EncodeChar c := by
  intro hmem
  have := @Utf8.mem_of_mem_encode '\'' (by decide) [c] (List.mem_append_left _ hmem)
  exact h (List.mem_singleton.1 this).symm

theorem encodeChar_ne_nil (c : Char) : String.utf8EncodeChar c ≠ [] := by
  obtain ⟨b, bs, h, -⟩ := Utf8.decodeOne_encodeChar c []
  rw [h]
  exact List.cons_ne_nil b bs

theorem pushed_pushChar (q : EscapedShellQuoter) (c : Char) : Pushed q (.inl c) (q.pushChar c) := by
  have hbytes : encode [c] = chunkBytes (.inl c) := by simp [chunkBytes]
  unfold EscapedShellQuoter.pushChar
  have hkind := kind_newShell q.quotes c
  generalize newShell c true q.quotes = escaped at hkind
  cases hkind with
  | mnemonic l h =>
    have hescape := escape_mnemonic h
    have hhidden := isControl_of_mnemonic h
    unfold mnemonic at h
    split at h <;> cases h <;> exact .hidden _ hhidden hescape
  | quote h hquotes =>
    subst h
    exact .quote (by decide) hquotes
  | control h => exact .hidden _ h (encode_fromChar h ▸ escape_octals (encodeChar_ne_nil c))
  | special h hquote hcontrol =>
    dsimp only
    rw [hbytes]
    exact .shown true (Bool.eq_false_iff.1 hcontrol) (fun _ => quote_notMem hquote) (Or.inl rfl)
  | plain hquote hcontrol hspecial =>
    have hne : q.quotes = .single → c ≠ '\'' := fun hsingle h => hquote h hsingle
    dsimp only
    rw [hbytes, show q.exitDollar = { q.exitDollar with mustQuote := q.mustQuote } by
      unfold EscapedShellQuoter.exitDollar
      split <;> rfl]
    exact .shown q.mustQuote (Bool.eq_false_iff.1 hcontrol) (fun hsingle => quote_notMem (hne hsingle))
      (Or.inr ⟨rfl, fun hsingle => plainBare_of_plain (hne hsingle) hcontrol (hspecial (hne hsingle))⟩)

theorem pushed_pushInvalid (q : EscapedShellQuoter) (bytes : List UInt8) :
    Pushed q (.inr bytes) (q.pushInvalid bytes) := by
  unfold EscapedShellQuoter.pushInvalid
  cases bytes with
  | nil => exact .nothing rfl fun h => h rfl
  | cons b bytes =>
    have hout : encode ((b :: bytes).flatMap fun b => (newOctal b).collect) = (b :: bytes).flatMap octalEscape := by
      rw [encode, List.flatMap_assoc]
      exact List.flatMap_congr fun b _ => encode_newOctal b
    rw [List.isEmpty_cons, if_neg (by decide), hout]
    exact .hidden _ (List.cons_ne_nil b bytes) (escape_octals (List.cons_ne_nil b bytes))

/-- One push, in each of its cases. -/
theorem pushed (q : EscapedShellQuoter) (chunk : Chunk) : Pushed q chunk (chunk.elim q.pushChar q.pushInvalid) := by
  cases chunk with
  | inl c => exact pushed_pushChar q c
  | inr bytes => exact pushed_pushInvalid q bytes

theorem Pushed.reference {q q' : EscapedShellQuoter} {chunk : Chunk} (h : Pushed q chunk q') :
    q'.reference = q.reference := by
  cases h with
  | nothing => rfl
  | shown =>
    simp only [EscapedShellQuoter.extend, EscapedShellQuoter.exitDollar]
    split <;> rfl
  | quote => rfl
  | hidden =>
    simp only [EscapedShellQuoter.extend, EscapedShellQuoter.enterDollar]
    split <;> rfl

theorem pushName_reference (q : EscapedShellQuoter) (name : List Chunk) :
    (pushName EscapedShellQuoter.pushChar EscapedShellQuoter.pushInvalid q name).reference = q.reference := by
  unfold pushName
  induction name generalizing q with
  | nil => rfl
  | cons chunk name ih => exact (ih _).trans (pushed q chunk).reference

/-! ## Between single quotes, or without quotes -/

/-- Behind the bytes `w`, and without quotes as long as none have to be put. -/
structure SingleQuoted (q : EscapedShellQuoter) (w : List UInt8) : Prop where
  quotes : q.quotes = .single
  takes : Takes start ([39] ++ q.buffer) ⟨if q.inDollar then .dollar else .single, w, []⟩
  bare : q.mustQuote = false → q.inDollar = false ∧ q.buffer = w ∧ ∀ b ∈ w, PlainBare b

variable {q q' : EscapedShellQuoter} {chunk : Chunk} {w : List UInt8}

/-- Dollar quotes are left before something that is shown. -/
theorem SingleQuoted.exitDollar (h : SingleQuoted q w) :
    Takes start ([39] ++ q.exitDollar.buffer) ⟨.single, w, []⟩ ∧ q.exitDollar.inDollar = false := by
  have htakes := h.takes
  unfold EscapedShellQuoter.exitDollar
  cases hdollar : q.inDollar with
  | true =>
    rw [hdollar] at htakes
    refine ⟨?_, rfl⟩
    rw [if_pos rfl]
    exact (List.append_assoc [39] q.buffer [39, 39]) ▸ htakes.append takes_exit_dollar
  | false =>
    rw [hdollar] at htakes
    exact ⟨htakes, hdollar⟩

theorem SingleQuoted.enterDollar (h : SingleQuoted q w) :
    Takes start ([39] ++ q.enterDollar.buffer) ⟨.dollar, w, []⟩ ∧ q.enterDollar.inDollar = true := by
  have htakes := h.takes
  unfold EscapedShellQuoter.enterDollar
  cases hdollar : q.inDollar with
  | true =>
    rw [hdollar] at htakes
    exact ⟨htakes, hdollar⟩
  | false =>
    rw [hdollar] at htakes
    refine ⟨?_, rfl⟩
    rw [if_neg (by decide)]
    exact (List.append_assoc [39] q.buffer [39, 36, 39]) ▸ htakes.append takes_enter_dollar

theorem exitDollar_quotes (q : EscapedShellQuoter) : q.exitDollar.quotes = q.quotes := by
  unfold EscapedShellQuoter.exitDollar
  split <;> rfl

theorem enterDollar_quotes (q : EscapedShellQuoter) : q.enterDollar.quotes = q.quotes := by
  unfold EscapedShellQuoter.enterDollar
  split <;> rfl

/-- Each push keeps the reader behind the bytes that are pushed. -/
theorem SingleQuoted.step (h : SingleQuoted q w) (hpush : Pushed q chunk q') :
    SingleQuoted q' (w ++ chunkBytes chunk) ∧ (q'.mustQuote = false → q.mustQuote = false) := by
  cases hpush with
  | nothing hempty =>
    rw [hempty, List.append_nil]
    exact ⟨h, id⟩
  | shown mustQuote hshown hquote hmust =>
    obtain ⟨htakes, hdollar⟩ := h.exitDollar
    refine ⟨⟨(exitDollar_quotes q).trans h.quotes, ?_, fun hnot => ?_⟩, fun hnot => ?_⟩
    · have hrun := htakes.append (takes_single (hquote h.quotes))
      rw [List.append_assoc] at hrun
      simpa only [EscapedShellQuoter.extend, hdollar, Bool.false_eq_true, if_false] using hrun
    · obtain ⟨hsame, hplain⟩ := hmust.resolve_left fun e => by
        rw [EscapedShellQuoter.extend] at hnot
        exact absurd (e.symm.trans hnot) (by decide)
      obtain ⟨hout, hbuffer, hbare⟩ := h.bare (hsame.symm.trans hnot)
      refine ⟨hdollar, ?_, List.forall_mem_append.2 ⟨hbare, hplain h.quotes⟩⟩
      simp only [EscapedShellQuoter.extend, EscapedShellQuoter.exitDollar, hout, Bool.false_eq_true, if_false, hbuffer]
    · rcases hmust with rfl | ⟨rfl, -⟩
      · cases hnot
      · exact hnot
  | quote hbytes hquotes =>
    refine ⟨⟨h.quotes, ?_, nofun⟩, nofun⟩
    have hrun := h.takes.append (takes_escaped_quote q.inDollar)
    rw [List.append_assoc] at hrun
    rw [hbytes]
    exact hrun
  | hidden out hhidden hescape =>
    obtain ⟨htakes, hdollar⟩ := h.enterDollar
    refine ⟨⟨(enterDollar_quotes q).trans h.quotes, ?_, nofun⟩, nofun⟩
    have hrun := htakes.append (hescape.dollar w [])
    rw [List.append_assoc] at hrun
    simpa only [EscapedShellQuoter.extend, hdollar, if_true] using hrun

theorem SingleQuoted.run {name : List Chunk} (h : SingleQuoted q w) :
    SingleQuoted (pushName EscapedShellQuoter.pushChar EscapedShellQuoter.pushInvalid q name)
      (w ++ name.flatMap chunkBytes) ∧
    ((pushName EscapedShellQuoter.pushChar EscapedShellQuoter.pushInvalid q name).mustQuote = false →
      q.mustQuote = false) := by
  unfold pushName
  induction name generalizing q w with
  | nil => simpa using h
  | cons chunk name ih =>
    obtain ⟨hstep, hmust⟩ := h.step (pushed q chunk)
    obtain ⟨hrun, hrest⟩ := ih hstep
    rw [List.append_assoc] at hrun
    exact ⟨hrun, fun hnot => hmust (hrest hnot)⟩

/-! ## Between double quotes -/

/-- What is written is read as itself; it is the bytes `w` as long as nothing is hidden, and longer as soon as something
is. -/
structure DoubleQuoted (q : EscapedShellQuoter) (w : List UInt8) (hidden : Prop) : Prop where
  quotes : q.quotes = .double
  must : q.mustQuote = true
  takes : Takes start ([34] ++ q.buffer) ⟨.double, q.buffer, []⟩
  shown : ¬ hidden → q.inDollar = false ∧ q.buffer = w
  longer : w.length ≤ q.buffer.length ∧ (hidden → w.length < q.buffer.length)

/-- Text that double quotes read as itself. -/
def Literal (out : List UInt8) : Prop := ∀ w ws, Takes ⟨.double, w, ws⟩ out ⟨.double, w ++ out, ws⟩

theorem Literal.append {out out' : List UInt8} (h : Literal out) (h' : Literal out') : Literal (out ++ out') := by
  intro w ws
  rw [← List.append_assoc]
  exact (h w ws).append (h' _ ws)

theorem literal_plain {out : List UInt8} (h : ∀ b ∈ out, PlainDouble b) : Literal out := fun _ _ => takes_double h

theorem exitDollar_literal (q : EscapedShellQuoter) : ∃ out, q.exitDollar.buffer = q.buffer ++ out ∧ Literal out ∧
    (q.inDollar = false → out = []) ∧ q.exitDollar.inDollar = false := by
  unfold EscapedShellQuoter.exitDollar
  cases hdollar : q.inDollar with
  | true =>
    refine ⟨[39, 39], rfl, literal_plain ?_, nofun, rfl⟩
    exact List.forall_mem_cons.2 ⟨by decide, List.forall_mem_singleton.2 (by decide)⟩
  | false => exact ⟨[], by simp, literal_plain nofun, fun _ => rfl, hdollar⟩

theorem enterDollar_literal (q : EscapedShellQuoter) : ∃ out, q.enterDollar.buffer = q.buffer ++ out ∧ Literal out := by
  unfold EscapedShellQuoter.enterDollar
  cases hdollar : q.inDollar with
  | true => exact ⟨[], by simp, literal_plain nofun⟩
  | false => exact ⟨[39, 36, 39], rfl, fun _ _ => takes_double_dollar⟩

theorem DoubleQuoted.step {hidden : Prop} (h : DoubleQuoted q w hidden) (hpush : Pushed q chunk q')
    (hplain : ∀ b ∈ chunkBytes chunk, PlainDouble b) :
    DoubleQuoted q' (w ++ chunkBytes chunk) (hidden ∨ Hidden chunk) := by
  have hout : ∀ {out : List UInt8}, Literal out →
      Takes start ([34] ++ (q.buffer ++ out)) ⟨.double, q.buffer ++ out, []⟩ := by
    intro out hliteral
    rw [← List.append_assoc]
    exact h.takes.append (hliteral _ _)
  have hne : q.quotes ≠ .single := by
    rw [h.quotes]
    decide
  obtain ⟨hle, hlt⟩ := h.longer
  cases hpush with
  | nothing hempty hshown =>
    rw [hempty, List.append_nil]
    exact ⟨h.quotes, h.must, h.takes, fun hnot => h.shown fun hh => hnot (Or.inl hh), hle,
      fun hh => hlt (hh.resolve_right hshown)⟩
  | shown mustQuote hshown hquote hmust =>
    obtain ⟨out, hbuffer, hliteral, hout', hdollar⟩ := exitDollar_literal q
    have hresult : ({ q.exitDollar with mustQuote := mustQuote }.extend (chunkBytes chunk)).buffer =
        q.buffer ++ (out ++ chunkBytes chunk) := by
      rw [← List.append_assoc, ← hbuffer]
      rfl
    refine ⟨(exitDollar_quotes q).trans h.quotes, ?_, ?_, fun hnot => ⟨hdollar, ?_⟩, ?_⟩
    · rcases hmust with rfl | ⟨rfl, -⟩
      · rfl
      · exact h.must
    · rw [hresult]
      exact hout (hliteral.append (literal_plain hplain))
    · obtain ⟨hin, hw⟩ := h.shown fun hh => hnot (Or.inl hh)
      rw [hresult, hout' hin, hw]
      rfl
    · rw [hresult]
      simp only [List.length_append]
      refine ⟨by omega, fun hh => ?_⟩
      have := hlt (hh.resolve_right hshown)
      omega
  | quote hbytes hquotes => exact absurd hquotes hne
  | hidden out hhidden hescape =>
    obtain ⟨pre, hbuffer, hliteral⟩ := enterDollar_literal q
    have hresult : ({ q.enterDollar with mustQuote := true }.extend out).buffer = q.buffer ++ (pre ++ out) := by
      rw [← List.append_assoc, ← hbuffer]
      rfl
    have hlonger := hescape.longer
    refine ⟨(enterDollar_quotes q).trans h.quotes, rfl, ?_, fun hnot => absurd (Or.inr hhidden) hnot, ?_⟩
    · rw [hresult]
      exact hout (hliteral.append hescape.double)
    · rw [hresult]
      simp only [List.length_append]
      exact ⟨by omega, fun _ => by omega⟩

theorem DoubleQuoted.run {hidden : Prop} {name : List Chunk} (h : DoubleQuoted q w hidden)
    (hplain : ∀ b ∈ name.flatMap chunkBytes, PlainDouble b) :
    DoubleQuoted (pushName EscapedShellQuoter.pushChar EscapedShellQuoter.pushInvalid q name)
      (w ++ name.flatMap chunkBytes) (hidden ∨ ∃ chunk ∈ name, Hidden chunk) := by
  unfold pushName
  induction name generalizing q w hidden with
  | nil => simpa using h
  | cons chunk name ih =>
    rw [List.flatMap_cons] at hplain ⊢
    obtain ⟨hchunk, hname⟩ := List.forall_mem_append.1 hplain
    have hrun := ih (h.step (pushed q chunk) hchunk) hname
    rw [List.append_assoc] at hrun
    simpa only [List.foldl_cons, List.mem_cons, exists_eq_or_imp, or_assoc] using hrun

/-! ## Names -/

/-- A byte for which single quotes are put. -/
def ForcesSingle (dirname : Bool) (b : UInt8) : Prop :=
  b ∈ shellEscapedCharSet dirname ∨ b.toNat < 32 ∨ b.toNat = 127

/-- The quotes that are put first. -/
theorem initialQuoting_cases (name : List UInt8) (dirname alwaysQuote : Bool) :
    ((initialQuoting name dirname alwaysQuote true).1 = .single ∧
      ((initialQuoting name dirname alwaysQuote true).2 = false → name ≠ []) ∧
      ((∃ b ∈ name, ForcesSingle dirname b) ∨ 39 ∉ name)) ∨
    (initialQuoting name dirname alwaysQuote true = (.double, true) ∧
      (∀ b ∈ name, ¬ ForcesSingle dirname b) ∧ 39 ∈ name) := by
  have hany : (name.any fun c => c ∈ shellEscapedCharSet dirname || (true && (c.toNat < 32 || c.toNat = 127))) = true ↔
      ∃ b ∈ name, ForcesSingle dirname b := by
    simp [ForcesSingle]
  unfold initialQuoting
  dsimp only
  split
  · rename_i h
    exact Or.inl ⟨rfl, nofun, Or.inl (hany.1 h)⟩
  rename_i hforces
  split
  · rename_i hquote
    refine Or.inr ⟨rfl, fun b hb hf => hforces (hany.2 ⟨b, hb, hf⟩), hquote⟩
  rename_i hquote
  split
  · exact Or.inl ⟨rfl, nofun, Or.inr hquote⟩
  · rename_i hempty
    refine Or.inl ⟨rfl, fun _ hnil => hempty ?_, Or.inr hquote⟩
    rw [hnil]
    simp

/-- A byte that forces nothing stays as it is between double quotes. -/
theorem plainDouble_of_not_forces {dirname : Bool} {b : UInt8} (h : ¬ ForcesSingle dirname b) : PlainDouble b := by
  have hset : ∀ k ∈ ([34, 92, 36, 96] : List UInt8), k ∈ shellEscapedCharSet dirname := by
    simp only [List.forall_mem_cons, List.not_mem_nil, false_implies, implies_true, and_true]
    cases dirname <;> decide
  refine ⟨?_, ?_, ?_, ?_⟩ <;> rintro rfl <;> exact h (Or.inl (hset _ (by decide)))

/-- What is put in single quotes, or in none, is read back. -/
theorem readWords_of_single {name : List UInt8} {alwaysQuote dirname : Bool} (encoding : UEncoding)
    (hsingle : (initialQuoting name dirname alwaysQuote true).1 = .single)
    (hempty : (initialQuoting name dirname alwaysQuote true).2 = false → name ≠ []) :
    readWords (escapeNameInner name (.shellEscape alwaysQuote) dirname encoding) = some [name] := by
  have hnew : SingleQuoted (.new name alwaysQuote dirname) [] :=
    ⟨hsingle, takes_open_single, fun _ => ⟨rfl, rfl, nofun⟩⟩
  obtain ⟨hrun, hmust⟩ := @SingleQuoted.run _ _ (pushes encoding name) hnew
  have hreference := pushName_reference (.new name alwaysQuote dirname) (pushes encoding name)
  rw [flatMap_pushes, List.nil_append] at hrun
  rw [escapeNameInner]
  generalize pushName EscapedShellQuoter.pushChar EscapedShellQuoter.pushInvalid _ (pushes encoding name) = q at *
  rw [EscapedShellQuoter.finalize, finalizeShellQuoter, hrun.quotes]
  dsimp only
  split
  · exact readWords_single hrun.takes
  · rename_i hnot
    rw [Bool.and_eq_true, not_and_or, Bool.or_eq_true, not_or, Bool.not_eq_true, Bool.not_eq_true] at hnot
    obtain ⟨hunquoted, hstart⟩ := hnot.resolve_right fun h => h rfl
    obtain ⟨-, hbuffer, hbare⟩ := hrun.bare hunquoted
    rw [hunquoted, Bool.false_or, hreference] at hstart
    rw [hbuffer]
    obtain ⟨b, out, hname⟩ := List.exists_cons_of_ne_nil (hempty (hmust hunquoted))
    have hfirst : b ∉ specialShellCharsStart := by
      change bytesStartWith name specialShellCharsStart = false at hstart
      rw [hname] at hstart
      simpa [bytesStartWith] using hstart
    rw [hname] at hbare ⊢
    exact readWords_bare hbare (fun h => hfirst (by rw [h]; decide)) fun h => hfirst (by rw [h]; decide)

/-- What is put in double quotes is read back if nothing is hidden. -/
theorem readWords_of_double {name : List UInt8} {alwaysQuote dirname : Bool} (encoding : UEncoding)
    (hdouble : initialQuoting name dirname alwaysQuote true = (.double, true))
    (hplain : ∀ b ∈ name, ¬ ForcesSingle dirname b) :
    readWords (escapeNameInner name (.shellEscape alwaysQuote) dirname encoding) = some [name] ↔
      ∀ chunk ∈ pushes encoding name, ¬ Hidden chunk := by
  have hnew : DoubleQuoted (.new name alwaysQuote dirname) [] False := by
    refine ⟨?_, ?_, takes_open_double, fun _ => ⟨rfl, rfl⟩, Nat.le_refl _, False.elim⟩ <;>
      rw [EscapedShellQuoter.new, hdouble]
  have hrun := @DoubleQuoted.run _ _ _ (pushes encoding name) hnew (by
    rw [flatMap_pushes]
    exact fun b hb => plainDouble_of_not_forces (hplain b hb))
  rw [flatMap_pushes, List.nil_append, false_or] at hrun
  rw [escapeNameInner]
  generalize pushName EscapedShellQuoter.pushChar EscapedShellQuoter.pushInvalid _ (pushes encoding name) = q at *
  rw [EscapedShellQuoter.finalize, finalizeShellQuoter, hrun.quotes, hrun.must]
  have hread := readWords_double hrun.takes
  constructor
  · intro hname chunk hchunk hhidden
    have hlt := hrun.longer.2 ⟨chunk, hchunk, hhidden⟩
    have hbuffer := Option.some.inj (hread.symm.trans hname)
    rw [(List.cons.inj hbuffer).1] at hlt
    exact Nat.lt_irrefl _ hlt
  · intro hshown
    have hbuffer := (hrun.shown (by
      rintro ⟨chunk, hchunk, hhidden⟩
      exact hshown chunk hchunk hhidden)).2
    rw [hbuffer] at hread ⊢
    exact hread

/-- Where a name is read back: single quotes are put, or none are needed, or nothing is escaped. -/
def Readable (dirname : Bool) (encoding : UEncoding) (name : List UInt8) : Prop :=
  (∃ b ∈ name, ForcesSingle dirname b) ∨ 39 ∉ name ∨ ∀ chunk ∈ pushes encoding name, ¬ Hidden chunk

/-- **Reading a name back.** What is written is one shell word, and that word is the name, exactly if the name has a
byte for which single quotes are put, or no single quote, or nothing to escape; and names of which this holds are
written alike only if they are the same. -/
theorem readWords_escapeNameInner_iff (name : List UInt8) (alwaysQuote dirname : Bool) (encoding : UEncoding) :
    (readWords (escapeNameInner name (.shellEscape alwaysQuote) dirname encoding) = some [name] ↔
      Readable dirname encoding name) ∧
    ∀ name', Readable dirname encoding name → Readable dirname encoding name' →
      escapeNameInner name (.shellEscape alwaysQuote) dirname encoding =
        escapeNameInner name' (.shellEscape alwaysQuote) dirname encoding → name = name' := by
  have hiff : ∀ name, readWords (escapeNameInner name (.shellEscape alwaysQuote) dirname encoding) = some [name] ↔
      Readable dirname encoding name := by
    intro name
    rcases initialQuoting_cases name dirname alwaysQuote with ⟨hsingle, hempty, hcases⟩ | ⟨hdouble, hplain, hquote⟩
    · exact iff_of_true (readWords_of_single encoding hsingle hempty) (hcases.imp_right Or.inl)
    · rw [readWords_of_double encoding hdouble hplain, Readable, or_iff_right fun ⟨b, hb, hf⟩ => hplain b hb hf,
        or_iff_right (not_not.2 hquote)]
  refine ⟨hiff name, fun name' h h' hout => ?_⟩
  have hread := (hiff name).2 h
  rw [hout, (hiff name').2 h'] at hread
  simpa using hread.symm

/-- A name with a space and a byte that is no UTF-8, and another name. -/
theorem readWords_escapeNameInner_iff_space :
    readWords (escapeNameInner [97, 32, 255] (.shellEscape false) false .utf8) = some [[97, 32, 255]] ∧
      escapeNameInner [97, 32, 255] (.shellEscape false) false .utf8 ≠
        escapeNameInner [97, 32] (.shellEscape false) false .utf8 := by
  have hread := readWords_escapeNameInner_iff [97, 32, 255] false false .utf8
  refine ⟨hread.1.2 (Or.inr (Or.inl (by decide))), fun h => absurd (hread.2 [97, 32] ?_ ?_ h) (by decide)⟩
  · exact Or.inr (Or.inl (by decide))
  · exact Or.inr (Or.inl (by decide))

/-- A single quote and a byte that is no UTF-8 come out as the word `a'b'$'\\377'`. -/
theorem hidden_between_double : readWords (escapeNameInner [97, 39, 98, 255] (.shellEscape false) false .utf8) ≠
    some [[97, 39, 98, 255]] := by decide +kernel

end Peiosutils.Quoting
