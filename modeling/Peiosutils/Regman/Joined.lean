import Peiosutils.Regman.Fragment

/-!
# Fragments that are joined (`fragment.rs`)

A record is parsed the same wherever it stands in a file: behind a text that ends in a newline, the records of a text
that begins with a fence are its own, moved by the bytes in front of it, and each stands where its fence does
(`parse_append`).
-/

set_option autoImplicit false

namespace Peiosutils.Regman

open Utf8

/-! ## Where a fence stands -/

/-- A line of the text begins at this byte, and is the fence of the anchor. -/
structure FenceAt (text : Str) (offset : Nat) (anchor : Str) : Prop where
  intro ::
  /-- What is in front of the line, the line, and what is behind it. -/
  placed : ∃ pre line post, text = pre ++ line ++ post ∧ (encode pre).length = offset ∧
    (pre = [] ∨ pre.getLast? = some '\n') ∧ '\n' ∉ line ∧ (post = [] ∨ post.head? = some '\n') ∧
    fenceMark <+: line ∧ trim (line.drop fenceMark.length) = anchor

/-- The first line of the text is a fence. -/
def BeginsWithFence (text : Str) : Prop := (fenceAnchor (text.takeWhile (· ≠ '\n'))).isSome = true

theorem fenceAnchor_eq_some {line anchor : Str} (h : fenceAnchor line = some anchor) :
    fenceMark <+: line ∧ trim (line.drop fenceMark.length) = anchor := by
  unfold fenceAnchor at h
  split at h
  · rename_i hmark
    dsimp only at h
    split at h
    · cases h
    · cases h
      exact ⟨List.isPrefixOf_iff_prefix.1 hmark, rfl⟩
  · cases h

/-- The bytes of lines, each with a newline. -/
def lineBytes (lines : List Str) : Nat := (lines.map fun line => (encode line).length + 1).sum

theorem length_encode_flatMap (lines : List Str) :
    (encode (lines.flatMap (· ++ ['\n']))).length = lineBytes lines := by
  induction lines with
  | nil => rfl
  | cons line lines ih =>
    have hnl : (encode ['\n']).length = 1 := by decide
    rw [List.flatMap_cons, encode_append, encode_append, List.length_append, List.length_append, ih, hnl]
    simp [lineBytes]

theorem intercalate_append_cons (before after : List Str) (line : Str) :
    ['\n'].intercalate (before ++ line :: after) =
      before.flatMap (· ++ ['\n']) ++ ['\n'].intercalate (line :: after) := by
  induction before with
  | nil => rfl
  | cons first before ih =>
    have hne : before ++ line :: after ≠ [] := by simp
    rw [List.cons_append, List.intercalate_cons_of_ne_nil hne, ih]
    simp

theorem fencesFrom_append (xs ys : List Str) : ∀ offset lineNo, fencesFrom offset lineNo (xs ++ ys) =
    fencesFrom offset lineNo xs ++ fencesFrom (offset + lineBytes xs) (lineNo + xs.length) ys := by
  induction xs with
  | nil => simp [fencesFrom, lineBytes]
  | cons line xs ih =>
    intro offset lineNo
    have hoff : offset + (encode line).length + 1 + lineBytes xs = offset + lineBytes (line :: xs) := by
      simp only [lineBytes, List.map_cons, List.sum_cons]
      omega
    have hno : lineNo + 1 + xs.length = lineNo + (line :: xs).length := by
      rw [List.length_cons]
      omega
    rw [List.cons_append, fencesFrom, fencesFrom, ih, hoff, hno]
    split <;> rfl

/-- A fence among the lines is one of them, behind the bytes of those before it. -/
theorem mem_fencesFrom_split {lines : List Str} : ∀ {offset lineNo : Nat}, ∀ f ∈ fencesFrom offset lineNo lines,
    ∃ before line after, lines = before ++ line :: after ∧ f.offset = offset + lineBytes before ∧
      fenceAnchor line = some f.anchor := by
  induction lines with
  | nil => simp [fencesFrom]
  | cons line rest ih =>
    intro offset lineNo f hf
    have hlater : ∀ f ∈ fencesFrom (offset + (encode line).length + 1) (lineNo + 1) rest,
        ∃ before l after, line :: rest = before ++ l :: after ∧ f.offset = offset + lineBytes before ∧
          fenceAnchor l = some f.anchor := by
      intro f hf
      obtain ⟨before, l, after, rfl, hoff, ha⟩ := ih f hf
      refine ⟨line :: before, l, after, rfl, ?_, ha⟩
      rw [hoff, lineBytes, lineBytes, List.map_cons, List.sum_cons]
      omega
    unfold fencesFrom at hf
    split at hf
    · rename_i anchor ha
      rcases List.mem_cons.1 hf with rfl | hf
      · exact ⟨[], line, rest, rfl, rfl, ha⟩
      · exact hlater f hf
    · exact hlater f hf

theorem not_mem_of_mem_splitOn {c : Char} {text : Str} : ∀ line ∈ text.splitOn c, c ∉ line := by
  induction text with
  | nil => simp [List.splitOn_nil]
  | cons x xs ih =>
    intro line hl
    obtain ⟨first, rest, he, _, _⟩ := splitOn_parts c xs
    rw [List.splitOn_cons_eq_if_modifyHead, he] at hl
    rw [he] at ih
    split at hl
    · rcases List.mem_cons.1 hl with rfl | hl
      · exact List.not_mem_nil
      · exact ih line hl
    · rename_i hx
      rcases List.mem_cons.1 hl with rfl | hl
      · have hne : x ≠ c := by simpa using hx
        exact List.not_mem_cons_of_ne_of_not_mem hne.symm (ih first List.mem_cons_self)
      · exact ih line (List.mem_cons_of_mem _ hl)

theorem getLast?_flatMap (lines : List Str) :
    lines.flatMap (· ++ ['\n']) = [] ∨ (lines.flatMap (· ++ ['\n'])).getLast? = some '\n' := by
  induction lines using List.reverseRecOn with
  | nil => exact .inl rfl
  | append_singleton lines line _ =>
    rw [List.flatMap_append, List.flatMap_singleton, ← List.append_assoc, List.getLast?_append]
    exact .inr rfl

theorem intercalate_head (line : Str) (after : List Str) :
    ∃ post, ['\n'].intercalate (line :: after) = line ++ post ∧ (post = [] ∨ post.head? = some '\n') := by
  cases after with
  | nil => exact ⟨[], by simp, .inl rfl⟩
  | cons next after =>
    refine ⟨['\n'] ++ ['\n'].intercalate (next :: after), ?_, .inr rfl⟩
    rw [List.intercalate_cons_of_ne_nil (List.cons_ne_nil _ _), List.append_assoc]

/-- A fence of the text splits it at its offset. -/
theorem fenceAt_of_mem {text : Str} {f : Fence} (hf : f ∈ fences text) : FenceAt text f.offset f.anchor := by
  obtain ⟨before, line, after, hlines, hoff, ha⟩ := mem_fencesFrom_split f hf
  obtain ⟨hmark, htrim⟩ := fenceAnchor_eq_some ha
  obtain ⟨post, hpost, hhead⟩ := intercalate_head line after
  have htext : text = before.flatMap (· ++ ['\n']) ++ (line ++ post) := by
    rw [← hpost, ← intercalate_append_cons, ← hlines, List.intercalate_splitOn]
  have hmem : line ∈ text.splitOn '\n' := by
    rw [hlines]
    exact List.mem_append_right _ List.mem_cons_self
  have hline : '\n' ∉ line := not_mem_of_mem_splitOn line hmem
  refine ⟨before.flatMap (· ++ ['\n']), line, post, ?_, ?_, getLast?_flatMap before, hline, hhead, hmark, htrim⟩
  · rw [htext, List.append_assoc]
  · rw [length_encode_flatMap, hoff, Nat.zero_add]

/-! ## Cutting a joined text -/

@[simp] theorem dropBytes_nil (n : Nat) : dropBytes n [] = [] := by
  unfold dropBytes
  rfl

@[simp] theorem dropBytes_zero (s : Str) : dropBytes 0 s = s := by
  cases s <;> simp [dropBytes]

theorem length_encode_cons (c : Char) (s : Str) : (encode (c :: s)).length = c.utf8Size + (encode s).length := by
  rw [encode_cons, List.length_append, String.length_utf8EncodeChar]

theorem dropBytes_add (a b : Str) (n : Nat) : dropBytes ((encode a).length + n) (a ++ b) = dropBytes n b := by
  induction a with
  | nil => simp
  | cons c a ih =>
    have hpos := c.utf8Size_pos
    have hne : (encode (c :: a)).length + n ≠ 0 := by
      rw [length_encode_cons]
      omega
    have hsub : (encode (c :: a)).length + n - c.utf8Size = (encode a).length + n := by
      rw [length_encode_cons]
      omega
    rw [List.cons_append, dropBytes, if_neg hne, hsub, ih]

/-- The first bytes are those of the first part, where they end in it. -/
theorem takeBytes_append {a : Str} (b : Str) {n : Nat} (h : n ≤ (encode a).length) :
    takeBytes n (a ++ b) = takeBytes n a := by
  induction a generalizing n with
  | nil =>
    obtain rfl : n = 0 := Nat.le_zero.1 h
    cases b <;> simp [takeBytes]
  | cons c a ih =>
    have hsub : n - c.utf8Size ≤ (encode a).length := by
      rw [length_encode_cons] at h
      omega
    rw [List.cons_append, takeBytes, takeBytes, ih hsub]

/-- A slice that begins at a character of the first part and ends in that part. -/
theorem sliceStr_append (pre rest b : Str) {stop : Nat} (h : stop ≤ (encode (pre ++ rest)).length) :
    sliceStr (pre ++ rest ++ b) (encode pre).length stop = sliceStr (pre ++ rest) (encode pre).length stop := by
  have hdrop : ∀ s, dropBytes (encode pre).length (pre ++ s) = s := fun s => by
    simpa using dropBytes_add pre s 0
  rw [encode_append, List.length_append] at h
  rw [sliceStr, sliceStr, List.append_assoc, hdrop, hdrop, takeBytes_append b (by omega)]

/-- A slice behind the first part. -/
theorem sliceStr_shift (a b : Str) (start stop : Nat) :
    sliceStr (a ++ b) ((encode a).length + start) ((encode a).length + stop) = sliceStr b start stop := by
  rw [sliceStr, sliceStr, dropBytes_add, Nat.add_sub_add_left]

/-! ## Fences of a joined text -/

/-- The fence, moved by bytes and lines. -/
def Fence.shift (bytes lineCount : Nat) (f : Fence) : Fence :=
  { f with offset := bytes + f.offset, lineNo := lineCount + f.lineNo }

/-- The record, moved by bytes. -/
def Record.shift (bytes : Nat) (r : Record) : Record := { r with fenceOffset := bytes + r.fenceOffset }

theorem fencesFrom_shift (bytes lineCount : Nat) (ls : List Str) : ∀ offset lineNo,
    fencesFrom (bytes + offset) (lineCount + lineNo) ls =
      (fencesFrom offset lineNo ls).map (Fence.shift bytes lineCount) := by
  induction ls with
  | nil => simp [fencesFrom]
  | cons line ls ih =>
    intro offset lineNo
    have hoff : bytes + offset + (encode line).length + 1 = bytes + (offset + (encode line).length + 1) := by omega
    rw [fencesFrom, fencesFrom, hoff, Nat.add_assoc lineCount, ih]
    split <;> rfl

theorem splitOn_head (text : Str) : ∃ rest, text.splitOn '\n' = text.takeWhile (· ≠ '\n') :: rest := by
  induction text with
  | nil => exact ⟨[], rfl⟩
  | cons x xs ih =>
    obtain ⟨rest, he⟩ := ih
    rw [List.splitOn_cons_eq_if_modifyHead, he, List.takeWhile_cons]
    by_cases hx : x = '\n'
    · exact ⟨xs.takeWhile (· ≠ '\n') :: rest, by simp [hx]⟩
    · exact ⟨rest, by simp [hx]⟩

/-- The fences of the first part, and then those of the second. -/
theorem fences_append {a : Str} (b : Str) (ha : a = [] ∨ a.getLast? = some '\n') :
    ∃ lineCount, fences (a ++ b) = fences a ++ (fences b).map (Fence.shift (encode a).length lineCount) := by
  rcases ha with rfl | ha
  · refine ⟨0, ?_⟩
    have hid : Fence.shift (encode []).length 0 = id := by
      funext f
      simp [Fence.shift]
    rw [hid, List.map_id]
    rfl
  obtain ⟨first, rfl⟩ := List.getLast?_eq_some_iff.1 ha
  refine ⟨(first.splitOn '\n').length, ?_⟩
  have hbytes : 0 + lineBytes (first.splitOn '\n') = (encode (first ++ ['\n'])).length := by
    rw [lineBytes, sum_splitOn '\n' rfl, encode_append, List.length_append, Nat.zero_add]
    rfl
  have hcut : ∀ s, fences (first ++ ['\n'] ++ s) = fencesFrom 0 1 (first.splitOn '\n') ++
      (fences s).map (Fence.shift (encode (first ++ ['\n'])).length (first.splitOn '\n').length) := by
    intro s
    rw [List.append_assoc, List.singleton_append, fences, List.splitOn_append_cons_self, fencesFrom_append, hbytes,
      Nat.add_comm 1, fences, ← fencesFrom_shift, Nat.add_zero (encode _).length]
  have hself := hcut []
  rw [List.append_nil] at hself
  rw [hcut b, hself]
  simp [fences, fencesFrom, fenceAnchor, fenceMark]

/-- A text that begins with a fence has it at its first byte. -/
theorem fences_of_begins {b : Str} (hb : BeginsWithFence b) : ∃ f fs, fences b = f :: fs ∧ f.offset = 0 := by
  obtain ⟨rest, he⟩ := splitOn_head b
  obtain ⟨anchor, ha⟩ := Option.isSome_iff_exists.1 hb
  rw [fences, he, fencesFrom, ha]
  exact ⟨_, _, rfl, rfl⟩

/-! ## Records of a joined text -/

/-- Where the block ends that comes before these fences. -/
def blockEnd (text : Str) (fs : List Fence) : Nat := (fs.head?.map Fence.offset).getD (encode text).length

theorem parseFences_cons (text : Str) (f : Fence) (fs : List Fence) : (parseFences text (f :: fs)).1 =
    (parseRecord text f (blockEnd text fs)).toOption.toList ++ (parseFences text fs).1 := by
  cases fs with
  | nil =>
    unfold parseFences
    dsimp only [blockEnd, List.head?_nil, Option.map_none, Option.getD_none]
    cases parseRecord text f (encode text).length <;> rfl
  | cons next fs =>
    unfold parseFences
    dsimp only [blockEnd, List.head?_cons, Option.map_some, Option.getD_some]
    cases parseRecord text f next.offset <;> rfl

/-- The record depends on its block and its anchor. -/
theorem parseRecord_congr {text text' : Str} {f f' : Fence} {stop stop' : Nat}
    (hslice : sliceStr text f.offset stop = sliceStr text' f'.offset stop') (ha : f.anchor = f'.anchor) :
    (parseRecord text f stop).toOption =
      (parseRecord text' f' stop').toOption.map fun r => { r with fenceOffset := f.offset } := by
  rw [parseRecord, parseRecord, hslice, ha]
  dsimp only
  split <;> rfl

theorem fenceOffset_of_parseRecord {text : Str} {f : Fence} {stop : Nat} {r : Record}
    (h : parseRecord text f stop = .ok r) : r.fenceOffset = f.offset := by
  simp only [parseRecord] at h
  split at h
  · cases h
  · cases h
    rfl

/-- The records behind the joint are those of the second text, moved. -/
theorem parseFences_shift (a b : Str) (lineCount : Nat) (fs : List Fence) :
    (parseFences (a ++ b) (fs.map (Fence.shift (encode a).length lineCount))).1 =
      (parseFences b fs).1.map (Record.shift (encode a).length) := by
  induction fs with
  | nil => rfl
  | cons f fs ih =>
    have hend : blockEnd (a ++ b) (fs.map (Fence.shift (encode a).length lineCount)) =
        (encode a).length + blockEnd b fs := by
      cases fs with
      | nil => simp [blockEnd]
      | cons g fs => rfl
    have hslice := sliceStr_shift a b f.offset (blockEnd b fs)
    have hrecord :
        (parseRecord (a ++ b) (f.shift (encode a).length lineCount) ((encode a).length + blockEnd b fs)).toOption =
          (parseRecord b f (blockEnd b fs)).toOption.map fun r =>
            { r with fenceOffset := (encode a).length + f.offset } :=
      parseRecord_congr hslice rfl
    rw [List.map_cons, parseFences_cons, parseFences_cons, hend, hrecord, ih, List.map_append]
    congr 1
    cases hr : parseRecord b f (blockEnd b fs) with
    | error issue => rfl
    | ok r =>
      have hoff := fenceOffset_of_parseRecord hr
      simp [Except.toOption, Record.shift, hoff]

/-- The records in front of the joint are those of the first text: its last block ends where the second text begins. -/
theorem parseFences_front {a b : Str} {gs : List Fence} (hjoint : blockEnd (a ++ b) gs = (encode a).length)
    (fs : List Fence) (hfs : ∀ f ∈ fs, f ∈ fences a) :
    (parseFences (a ++ b) (fs ++ gs)).1 = (parseFences a fs).1 ++ (parseFences (a ++ b) gs).1 := by
  induction fs with
  | nil => rfl
  | cons f fs ih =>
    have hend : blockEnd (a ++ b) (fs ++ gs) = blockEnd a fs := by
      cases fs with
      | nil => exact hjoint
      | cons g fs => rfl
    have hle : blockEnd a fs ≤ (encode a).length := by
      cases fs with
      | nil => exact le_refl _
      | cons g fs =>
        obtain ⟨pre, line, post, rfl, hoff, _⟩ := (fenceAt_of_mem (hfs g (by simp))).placed
        simp only [blockEnd, List.head?_cons, Option.map_some, Option.getD_some, ← hoff, encode_append,
          List.length_append]
        omega
    have hrecord : (parseRecord (a ++ b) f (blockEnd a fs)).toOption = (parseRecord a f (blockEnd a fs)).toOption := by
      obtain ⟨pre, line, post, rfl, hoff, _⟩ := (fenceAt_of_mem (hfs f List.mem_cons_self)).placed
      rw [List.append_assoc] at hle
      have hslice := sliceStr_append pre (line ++ post) b hle
      rw [← List.append_assoc, hoff] at hslice
      rw [parseRecord, parseRecord, hslice]
    rw [List.cons_append, parseFences_cons, parseFences_cons, hend, hrecord,
      ih fun g hg => hfs g (List.mem_cons_of_mem _ hg), List.append_assoc]

/-- A record of the text is at its fence. -/
theorem fenceAt_of_record {text : Str} {r : Record} (h : r ∈ (parse text).1) :
    FenceAt text r.fenceOffset r.anchor := by
  have hm := (map_parseFences text (fences text)).subset (List.mem_map.2 ⟨r, h, rfl⟩)
  obtain ⟨f, hf, he⟩ := List.mem_map.1 hm
  obtain ⟨hoff, ha⟩ := Prod.mk.inj he
  rw [← hoff, ← ha]
  exact fenceAt_of_mem hf

/-- The records of a joined text are those of its parts, the later ones moved by the bytes of the first part; and every
record of a text is at the fence of its anchor. -/
theorem parse_append {a b : Str} (ha : a = [] ∨ a.getLast? = some '\n') (hb : b = [] ∨ BeginsWithFence b) :
    (parse (a ++ b)).1 = (parse a).1 ++ (parse b).1.map (Record.shift (encode a).length) ∧
      ∀ text, ∀ r ∈ (parse text).1, FenceAt text r.fenceOffset r.anchor := by
  refine ⟨?_, fun text r hr => fenceAt_of_record hr⟩
  obtain ⟨lineCount, hcut⟩ := fences_append b ha
  have hjoint : blockEnd (a ++ b) ((fences b).map (Fence.shift (encode a).length lineCount)) = (encode a).length := by
    rcases hb with rfl | hb
    · simp [blockEnd, fences, fencesFrom, fenceAnchor, fenceMark]
    · obtain ⟨f, fs, he, hoff⟩ := fences_of_begins hb
      simp [blockEnd, he, Fence.shift, hoff]
  rw [parse, hcut, parseFences_front hjoint (fences a) fun f hf => hf, parseFences_shift]
  rfl

/-- Two records with different line ends, joined. -/
theorem parse_append_mixed :
    (parse ("--- é\r\ncanonical: x\r\n".toList ++ "--- b\ncanonical: y\n\nz".toList)).1.map Record.fenceOffset =
        [0, 22] ∧
      ∀ text, ∀ r ∈ (parse text).1, FenceAt text r.fenceOffset r.anchor := by
  have h := parse_append (a := "--- é\r\ncanonical: x\r\n".toList) (b := "--- b\ncanonical: y\n\nz".toList)
    (.inr (by decide)) (.inr (by unfold BeginsWithFence; decide +kernel))
  refine ⟨?_, h.2⟩
  rw [h.1]
  decide +kernel

end Peiosutils.Regman
