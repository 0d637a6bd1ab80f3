import Mathlib.Algebra.GroupWithZero.Nat
import Peiosutils.Tail.Scan

/-!
# The chunks that are kept

For the last lines the chunks that are kept hold them, in whatever pieces the input is read (`fill_lines`). For the last
bytes only one chunk is dropped for each one that is added, so this holds when no more chunks become superfluous than
are read after them (`fill_bytes_iff`).
-/

set_option autoImplicit false

namespace Peiosutils.Tail

open Lines

/-! ## Lines -/

theorem drop_bytesOffset (delimiter : UInt8) (chunk : List UInt8) (k : Nat) :
    chunk.drop (LinesChunk.calculateBytesOffsetFrom delimiter chunk k) = skip delimiter k chunk := by
  induction chunk generalizing k with
  | nil => simp
  | cons x chunk ih =>
    cases k with
    | zero => simp [LinesChunk.calculateBytesOffsetFrom]
    | succ k =>
      rw [LinesChunk.calculateBytesOffsetFrom, List.drop_succ_cons, ih, skip]
      split <;> rfl

theorem bytesChunk_fromChunk (chunk : List UInt8) (offset : Nat) :
    BytesChunk.fromChunk chunk offset = chunk.drop offset := by
  unfold BytesChunk.fromChunk
  split
  · rename_i h
    exact (List.drop_eq_nil_of_le h).symm
  · rfl

/-- What a buffer holds of the lines that are read: all, or more than are needed. -/
structure HeldLines (delimiter : UInt8) (num : Nat) (read : List UInt8) (buffer : LinesChunkBuffer) : Prop where
  counted : ∀ c ∈ buffer.chunks, c.lines = c.chunk.count delimiter ∧ c.chunk ≠ []
  lines : buffer.lines = (buffer.chunks.flatMap (·.chunk)).count delimiter
  held : ∃ dropped, read = dropped ++ buffer.chunks.flatMap (·.chunk) ∧ (dropped = [] ∨ num < buffer.lines)

theorem HeldLines.push {delimiter : UInt8} {num : Nat} {read chunk : List UInt8} {buffer : LinesChunkBuffer}
    (h : HeldLines delimiter num read buffer) (hne : chunk ≠ []) :
    HeldLines delimiter num (read ++ chunk) (buffer.push delimiter num chunk) := by
  obtain ⟨hcounted, hlines, dropped, hread, henough⟩ := h
  have hcounted' : ∀ c ∈ buffer.chunks ++ [LinesChunk.ofRead delimiter chunk],
      c.lines = c.chunk.count delimiter ∧ c.chunk ≠ [] := by
    intro c hc
    rcases List.mem_append.1 hc with hc | hc
    · exact hcounted c hc
    · obtain rfl := List.mem_singleton.1 hc
      exact ⟨length_memchrIter chunk, hne⟩
  have hlines' : buffer.lines + (LinesChunk.ofRead delimiter chunk).lines =
      ((buffer.chunks ++ [LinesChunk.ofRead delimiter chunk]).flatMap (·.chunk)).count delimiter := by
    rw [List.flatMap_append, List.count_append, ← hlines, LinesChunk.ofRead, length_memchrIter]
    simp
  have hread' : read ++ chunk =
      dropped ++ (buffer.chunks ++ [LinesChunk.ofRead delimiter chunk]).flatMap (·.chunk) := by
    rw [hread, List.flatMap_append]
    simp [LinesChunk.ofRead]
  unfold LinesChunkBuffer.push
  simp only
  generalize hall : buffer.chunks ++ [LinesChunk.ofRead delimiter chunk] = all at hcounted' hlines' hread' ⊢
  cases all with
  | nil => simp at hall
  | cons first others =>
    simp only [List.flatMap_cons, List.count_append] at hlines' hread'
    have hfirst := hcounted' first List.mem_cons_self
    simp only
    split
    · rename_i hmore
      refine ⟨fun c hc => hcounted' c (List.mem_cons_of_mem first hc), ?_, dropped ++ first.chunk, ?_, Or.inr hmore⟩
      · simp only
        omega
      · rw [hread', List.append_assoc]
    · refine ⟨hcounted', ?_, dropped, hread', ?_⟩
      · simpa using hlines'
      · apply henough.imp_right
        intro hlt
        simp only
        omega

theorem heldLines_foldl {delimiter : UInt8} {num : Nat} (reads : List (List UInt8)) :
    ∀ (read : List UInt8) (buffer : LinesChunkBuffer), HeldLines delimiter num read buffer → (∀ p ∈ reads, p ≠ []) →
      HeldLines delimiter num (read ++ reads.flatten) (reads.foldl (LinesChunkBuffer.push delimiter num) buffer) := by
  induction reads with
  | nil =>
    intro read buffer h _
    simpa using h
  | cons p reads ih =>
    intro read buffer h hne
    have hnext := ih (read ++ p) _ (h.push (hne p List.mem_cons_self)) fun q hq => hne q (List.mem_cons_of_mem p hq)
    rwa [List.append_assoc] at hnext

/-- All chunks count their lines, the last one with the open line at its end. -/
def Counts (delimiter : UInt8) : List LinesChunk → Prop
  | [] => True
  | [c] => c.lines = (pieces delimiter c.chunk).length ∧ c.chunk ≠ []
  | c :: d :: rest => c.lines = c.chunk.count delimiter ∧ Counts delimiter (d :: rest)

def linesOf (chunks : List LinesChunk) : Nat := (chunks.map (·.lines)).sum

theorem Counts.flatMap_ne_nil {delimiter : UInt8} (chunks : List LinesChunk) (h : Counts delimiter chunks)
    (hne : chunks ≠ []) : chunks.flatMap (·.chunk) ≠ [] := by
  induction chunks with
  | nil => exact absurd rfl hne
  | cons c rest ih =>
    rw [List.flatMap_cons]
    cases rest with
    | nil => simpa using h.2
    | cons d rest => exact fun hnil => ih h.2 (by simp) (List.append_eq_nil_iff.1 hnil).2

theorem Counts.linesOf_eq {delimiter : UInt8} (chunks : List LinesChunk) (h : Counts delimiter chunks) :
    linesOf chunks = (pieces delimiter (chunks.flatMap (·.chunk))).length := by
  induction chunks with
  | nil => rfl
  | cons c rest ih =>
    cases rest with
    | nil =>
      rw [List.flatMap_cons, List.flatMap_nil, List.append_nil, ← h.1]
      simp [linesOf]
    | cons d rest =>
      rw [List.flatMap_cons, length_pieces_append c.chunk (h.2.flatMap_ne_nil (d :: rest) (by simp)), ← ih h.2, ← h.1]
      rfl

/-- Counting the open line. -/
theorem countOpen_counts {delimiter : UInt8} {buffer : LinesChunkBuffer}
    (hcounted : ∀ c ∈ buffer.chunks, c.lines = c.chunk.count delimiter ∧ c.chunk ≠ [])
    (hlines : buffer.lines = linesOf buffer.chunks) (hne : buffer.chunks ≠ []) :
    Counts delimiter (buffer.countOpen delimiter).chunks ∧
      (buffer.countOpen delimiter).lines = linesOf (buffer.countOpen delimiter).chunks ∧
      (buffer.countOpen delimiter).chunks.flatMap (·.chunk) = buffer.chunks.flatMap (·.chunk) := by
  obtain ⟨init, last, hall⟩ : ∃ init last, buffer.chunks = init ++ [last] :=
    ⟨_, _, (List.dropLast_append_getLast hne).symm⟩
  have hcounts : ∀ (init : List LinesChunk) (c : LinesChunk), (∀ c ∈ init, c.lines = c.chunk.count delimiter) →
      c.lines = (pieces delimiter c.chunk).length → c.chunk ≠ [] → Counts delimiter (init ++ [c]) := by
    intro init c hinit hc hcne
    induction init with
    | nil => exact ⟨hc, hcne⟩
    | cons d init ih =>
      have hrest := ih fun e he => hinit e (List.mem_cons_of_mem d he)
      cases init with
      | nil => exact ⟨hinit d List.mem_cons_self, hrest⟩
      | cons e init => exact ⟨hinit d List.mem_cons_self, hrest⟩
  have hlast := hcounted last (by rw [hall]; simp)
  have hinit : ∀ c ∈ init, c.lines = c.chunk.count delimiter := fun c hc =>
    (hcounted c (by rw [hall]; exact List.mem_append_left _ hc)).1
  unfold LinesChunkBuffer.countOpen
  rw [hall, List.getLast?_concat]
  simp only
  split
  · rename_i hterm
    refine ⟨?_, hlines, by rw [hall]⟩
    rw [hall]
    refine hcounts init last hinit ?_ hlast.2
    rw [hlast.1, length_pieces, if_pos (show Terminated delimiter last.chunk from Or.inr hterm), Nat.add_zero]
  · rename_i hopen
    rw [List.dropLast_concat]
    refine ⟨hcounts init _ hinit ?_ hlast.2, ?_, by simp⟩
    · rw [length_pieces, if_neg (show ¬ Terminated delimiter last.chunk by simp [Terminated, hlast.2, hopen]), hlast.1]
    · rw [hlines, hall]
      simp [linesOf, Nat.add_assoc]

/-- Dropping the chunks that are not needed. -/
theorem skipChunks_eq {delimiter : UInt8} {num : Nat} (chunks : List LinesChunk) (h : Counts delimiter chunks)
    (hne : chunks ≠ []) :
    ∃ skipped c others, chunks = skipped ++ c :: others ∧ Counts delimiter (c :: others) ∧
      LinesChunkBuffer.skipChunks num (linesOf chunks) chunks = some (linesOf (c :: others), c, others) ∧
      linesOf others ≤ num ∧ (skipped = [] ∨ num < linesOf (c :: others)) := by
  induction chunks with
  | nil => exact absurd rfl hne
  | cons c rest ih =>
    have hsum : linesOf (c :: rest) - c.lines = linesOf rest := by simp [linesOf]
    rw [LinesChunkBuffer.skipChunks, hsum]
    split
    · rename_i hmore
      cases rest with
      | nil => simp [linesOf] at hmore
      | cons d rest =>
        obtain ⟨skipped, e, others, hall, hcounts, hrun, hle, hskip⟩ := ih h.2 (by simp)
        refine ⟨c :: skipped, e, others, by rw [hall]; rfl, hcounts, hrun, hle, Or.inr ?_⟩
        rcases hskip with rfl | hskip
        · rw [List.nil_append] at hall
          rwa [← hall]
        · exact hskip
    · rename_i hless
      exact ⟨[], c, rest, rfl, h, rfl, Nat.le_of_not_lt hless, Or.inl rfl⟩

/-- The last lines are written, however the input is read. -/
theorem fill_lines {content : List UInt8} (reads : Reads content) (delimiter : UInt8) (num : Nat) :
    (LinesChunkBuffer.fill delimiter num reads.pieces).map (·.write) = some (lastLines delimiter num content) := by
  have hempty : HeldLines delimiter num [] LinesChunkBuffer.new :=
    ⟨fun c hc => (by cases hc), rfl, [], rfl, Or.inl rfl⟩
  have hheld := heldLines_foldl reads.pieces [] _ hempty reads.nonempty
  rw [List.nil_append, reads.flatten_eq] at hheld
  unfold LinesChunkBuffer.fill
  generalize reads.pieces.foldl (LinesChunkBuffer.push delimiter num) LinesChunkBuffer.new = buffer at hheld
  obtain ⟨hcounted, hlines, dropped, hread, henough⟩ := hheld
  simp only
  by_cases hnil : buffer.chunks = []
  · rw [if_pos hnil]
    rw [hnil] at hread hlines
    have hdropped : dropped = [] := henough.resolve_right (by rw [hlines]; simp)
    rw [hread, hdropped]
    simp [LinesChunkBuffer.write, hnil, lastLines, pieces]
  · rw [if_neg hnil]
    have hsum : buffer.lines = linesOf buffer.chunks := by
      rw [hlines, List.count_flatMap, linesOf]
      exact congrArg List.sum (List.map_congr_left fun c hc => (hcounted c hc).1.symm)
    obtain ⟨hcounts, hopen, hsame⟩ := countOpen_counts hcounted hsum hnil
    have hle : buffer.lines ≤ linesOf (buffer.countOpen delimiter).chunks := by
      rw [hcounts.linesOf_eq, hsame, length_pieces, hlines]
      omega
    have hne : (buffer.countOpen delimiter).chunks ≠ [] := by
      intro h
      rw [h] at hsame
      have hflat := hcounts.linesOf_eq
      obtain ⟨c, rest, hc⟩ := List.exists_cons_of_ne_nil hnil
      rw [hc, List.flatMap_nil, List.flatMap_cons] at hsame
      exact (hcounted c (hc ▸ List.mem_cons_self)).2 (List.append_eq_nil_iff.1 hsame.symm).1
    obtain ⟨skipped, c, others, hall, hcounts', hrun, hfew, hskip⟩ := @skipChunks_eq delimiter num _ hcounts hne
    rw [hopen, hrun, Option.map_some, Option.map_some]
    have hrest : linesOf (c :: others) = c.lines + linesOf others := by simp [linesOf]
    have hlast : lastLines delimiter num content = lastLines delimiter num ((c :: others).flatMap (·.chunk)) := by
      have hsplit : content = (dropped ++ skipped.flatMap (·.chunk)) ++ (c :: others).flatMap (·.chunk) := by
        rw [hread, ← hsame, hall, List.flatMap_append, List.append_assoc]
      rw [hsplit]
      by_cases hall' : dropped = [] ∧ skipped = []
      · rw [hall'.1, hall'.2]
        rfl
      · apply lastLines_append
        rw [← hcounts'.linesOf_eq]
        rcases hskip with rfl | hskip
        · have hmore := henough.resolve_left fun h => hall' ⟨h, rfl⟩
          rw [List.nil_append] at hall
          rw [hall] at hle
          omega
        · exact hskip
    rw [hlast, lastLines_eq, ← hcounts'.linesOf_eq, LinesChunkBuffer.write, List.flatMap_cons, List.flatMap_cons]
    simp only [LinesChunk.fromChunk]
    rw [if_neg (show ¬ linesOf (c :: others) - num > c.lines by omega), bytesChunk_fromChunk, drop_bytesOffset]
    congr 1
    cases others with
    | nil => rw [List.flatMap_nil, List.append_nil, List.append_nil]
    | cons d others =>
      rw [skip_append_of_le]
      rw [← hcounts'.1]
      omega

/-! ## Bytes -/

/-- How many reads in front are superfluous: those behind which more than `num` bytes are read. -/
def superfluous (num : Nat) : List (List UInt8) → Nat
  | [] => 0
  | _ :: rest => if num < rest.flatten.length then superfluous num rest + 1 else 0

/-- After any number of reads, no more of them become superfluous than are still to be read. -/
def Droppable (num : Nat) (reads : List (List UInt8)) : Prop :=
  ∀ k ≤ reads.length, superfluous num reads ≤ superfluous num (reads.take k) + (reads.length - k)

instance (num : Nat) (reads : List (List UInt8)) : Decidable (Droppable num reads) :=
  decidable_of_iff (∀ k < reads.length + 1,
    superfluous num reads ≤ superfluous num (reads.take k) + (reads.length - k))
    ⟨fun h k hk => h k (Nat.lt_succ_of_le hk), fun h k hk => h k (Nat.le_of_lt_succ hk)⟩

theorem length_flatten_drop_le (reads : List (List UInt8)) (i : Nat) :
    (reads.drop i).flatten.length ≤ reads.flatten.length := by
  have h := congrArg (fun l => (List.flatten l).length) (List.take_append_drop i reads)
  simp only [List.flatten_append, List.length_append] at h
  omega

theorem lt_superfluous_iff (num : Nat) (reads : List (List UInt8)) :
    ∀ i, i < superfluous num reads ↔ num < (reads.drop (i + 1)).flatten.length := by
  induction reads with
  | nil => simp [superfluous]
  | cons r rest ih =>
    intro i
    rw [superfluous, List.drop_succ_cons]
    split
    · rename_i h
      cases i with
      | zero => simpa using h
      | succ i => rw [← ih i, Nat.add_lt_add_iff_right]
    · rename_i h
      have := length_flatten_drop_le rest i
      omega

theorem superfluous_le_append (num : Nat) (reads : List (List UInt8)) (r : List UInt8) :
    superfluous num reads ≤ superfluous num (reads ++ [r]) := by
  by_contra hlt
  rw [Nat.not_le] at hlt
  have hle := (lt_superfluous_iff num reads _).1 hlt
  have hnot := mt (lt_superfluous_iff num (reads ++ [r]) _).2 (Nat.lt_irrefl _)
  rw [List.drop_append, List.flatten_append, List.length_append] at hnot
  omega

theorem superfluous_lt_length (num : Nat) {reads : List (List UInt8)} (h : reads ≠ []) :
    superfluous num reads < reads.length := by
  by_contra hle
  have hpos := List.length_pos_iff.2 h
  have := (lt_superfluous_iff num reads (reads.length - 1)).1 (by omega)
  rw [List.drop_of_length_le (by omega)] at this
  simp at this

/-- What is held of the reads: as few of them were dropped as were superfluous, or as there were turns to drop them. -/
structure HeldBytes (num : Nat) (read : List (List UInt8)) (buffer : BytesChunkBuffer) (dropped : Nat) : Prop where
  chunks : buffer.chunks = read.drop dropped
  bytes : buffer.bytes = buffer.chunks.flatten.length
  enough : dropped = 0 ∨ num < buffer.bytes
  le : ∀ k ≤ read.length, dropped ≤ superfluous num (read.take k) + (read.length - k)
  eq : ∃ k ≤ read.length, dropped = superfluous num (read.take k) + (read.length - k)

theorem HeldBytes.push {num dropped : Nat} {read : List (List UInt8)} {chunk : List UInt8} {buffer : BytesChunkBuffer}
    (h : HeldBytes num read buffer dropped) :
    HeldBytes num (read ++ [chunk]) (buffer.push num chunk)
      (if dropped < superfluous num (read ++ [chunk]) then dropped + 1 else dropped) := by
  obtain ⟨hchunks, hbytes, henough, hle, k, hk, heq⟩ := h
  have hsuper : dropped ≤ superfluous num read := by simpa using hle read.length (Nat.le_refl _)
  have hmono := superfluous_le_append num read chunk
  have hlength : (read ++ [chunk]).length = read.length + 1 := by simp
  have hlt : dropped < (read ++ [chunk]).length := by
    rw [hlength]
    by_cases hread : read = []
    · subst hread
      simp [superfluous] at hsuper
      omega
    · have := superfluous_lt_length num hread
      omega
  have hall : buffer.chunks ++ [chunk] = (read ++ [chunk]).drop dropped := by
    rw [hchunks, List.drop_append_of_le_length (by omega)]
  have htake : ∀ j ≤ read.length, (read ++ [chunk]).take j = read.take j := fun j hj =>
    List.take_append_of_le_length hj
  have hbound : ∀ j ≤ read.length + 1, dropped + 1 ≤ superfluous num ((read ++ [chunk]).take j) +
      (read.length + 1 - j) ∨ j = read.length + 1 := by
    intro j hj
    by_cases hlast : j = read.length + 1
    · exact Or.inr hlast
    · left
      have := hle j (by omega)
      rw [htake j (by omega)]
      omega
  have hfull : (read ++ [chunk]).take (read.length + 1) = read ++ [chunk] := List.take_of_length_le (by omega)
  unfold BytesChunkBuffer.push
  simp only
  rw [hall, List.drop_eq_getElem_cons hlt]
  generalize hfirst : (read ++ [chunk])[dropped] = first
  have hdrop := List.drop_eq_getElem_cons hlt
  rw [hfirst] at hdrop
  have hsum : buffer.bytes + chunk.length = first.length + ((read ++ [chunk]).drop (dropped + 1)).flatten.length := by
    have := congrArg (fun l => (List.flatten l).length) (hall.trans hdrop)
    simp only [List.flatten_append, List.flatten_cons, List.length_append, List.flatten_nil, List.length_nil] at this
    omega
  simp only
  rw [hsum, Nat.add_sub_cancel_left]
  have hiff := lt_superfluous_iff num (read ++ [chunk]) dropped
  by_cases hmore : num < ((read ++ [chunk]).drop (dropped + 1)).flatten.length
  · rw [if_pos hmore, if_pos (hiff.2 hmore)]
    refine ⟨rfl, rfl, Or.inr hmore, ?_, k, by omega, ?_⟩
    · intro j hj
      rw [hlength] at hj ⊢
      rcases hbound j hj with hj | rfl
      · exact hj
      · rw [hfull]
        have := hiff.2 hmore
        omega
    · rw [hlength, htake k hk]
      omega
  · have hnot : ¬ dropped < superfluous num (read ++ [chunk]) := fun h => hmore (hiff.1 h)
    rw [if_neg hmore, if_neg hnot]
    refine ⟨hdrop.symm, ?_, ?_, ?_, read.length + 1, by omega, ?_⟩
    · simp
    · apply henough.imp_right
      intro hlt
      simp only
      omega
    · intro j hj
      rw [hlength] at hj ⊢
      rcases hbound j hj with hj | rfl
      · omega
      · rw [hfull]
        omega
    · rw [hfull, hlength]
      omega

theorem heldBytes_foldl {num : Nat} (reads : List (List UInt8)) : ∀ (read : List (List UInt8)) (buffer : BytesChunkBuffer)
    (dropped : Nat), HeldBytes num read buffer dropped →
      ∃ dropped', HeldBytes num (read ++ reads) (reads.foldl (BytesChunkBuffer.push num) buffer) dropped' := by
  induction reads with
  | nil =>
    intro read buffer dropped h
    exact ⟨dropped, by simpa using h⟩
  | cons p reads ih =>
    intro read buffer dropped h
    have hnext := ih (read ++ [p]) _ _ h.push
    rwa [List.append_assoc] at hnext

/-- The last bytes are written when the superfluous reads can be dropped one by one. -/
theorem fill_bytes_iff {content : List UInt8} (reads : Reads content) (num : Nat) :
    (BytesChunkBuffer.fill num reads.pieces).write = content.drop (content.length - num) ↔
      Droppable num reads.pieces := by
  have hempty : HeldBytes num [] BytesChunkBuffer.new 0 := ⟨rfl, rfl, Or.inl rfl, by simp, 0, Nat.le_refl _, rfl⟩
  obtain ⟨dropped, hheld⟩ := heldBytes_foldl reads.pieces [] _ _ hempty
  rw [List.nil_append] at hheld
  unfold BytesChunkBuffer.fill
  generalize reads.pieces.foldl (BytesChunkBuffer.push num) BytesChunkBuffer.new = buffer at hheld
  obtain ⟨hchunks, hbytes, henough, hle, k, hk, heq⟩ := hheld
  have hsuper : dropped ≤ superfluous num reads.pieces := by simpa using hle _ (Nat.le_refl _)
  have hdroppable : Droppable num reads.pieces ↔ ¬ dropped < superfluous num reads.pieces := by
    constructor
    · intro h
      have := h k hk
      omega
    · intro h j hj
      have := hle j hj
      omega
  have hcontent : content = (reads.pieces.take dropped).flatten ++ buffer.chunks.flatten := by
    rw [hchunks, ← List.flatten_append, List.take_append_drop, reads.flatten_eq]
  rw [hdroppable, lt_superfluous_iff]
  simp only
  cases hall : buffer.chunks with
  | nil =>
    rw [hall] at hbytes hcontent hchunks
    have hzero : dropped = 0 := henough.resolve_right (by rw [hbytes]; simp)
    subst hzero
    rw [List.drop_zero] at hchunks
    rw [← hchunks]
    have hnil : content = [] := by simpa using hcontent
    simp [BytesChunkBuffer.write, hall, hnil]
  | cons first others =>
    rw [hall] at hchunks hbytes hcontent
    have hothers : reads.pieces.drop (dropped + 1) = others := by
      rw [← List.drop_drop, ← hchunks, List.drop_succ_cons, List.drop_zero]
    rw [hothers]
    simp only [BytesChunkBuffer.write, bytesChunk_fromChunk, List.flatten_cons]
    rw [List.flatten_cons, List.length_append] at hbytes
    have hlength := congrArg List.length hcontent
    rw [List.flatten_cons, List.length_append, List.length_append] at hlength
    constructor
    · intro hwrite hmore
      have := congrArg List.length hwrite
      rw [List.length_append, List.length_drop, List.length_drop] at this
      omega
    · intro hfew
      rcases henough with rfl | henough
      · have hsame : content = first ++ others.flatten := by simpa using hcontent
        rw [hbytes, hsame, List.length_append, List.drop_append_of_le_length (by omega)]
      · have hdrop : content.length - num = (reads.pieces.take dropped).flatten.length + (buffer.bytes - num) := by
          omega
        have hbehind : content.drop ((reads.pieces.take dropped).flatten.length + (buffer.bytes - num)) =
            (first :: others).flatten.drop (buffer.bytes - num) :=
          (congrArg (List.drop _) hcontent).trans (List.drop_length_add_append ..)
        rw [hdrop, hbehind, List.flatten_cons, List.drop_append_of_le_length (by omega)]

/-! ## From one line or byte on -/

theorem skipLines_eq (delimiter : UInt8) (reads : List (List UInt8)) (k : Nat) :
    skipLines delimiter reads k = skip delimiter k reads.flatten := by
  induction reads generalizing k with
  | nil => simp [skipLines]
  | cons chunk rest ih =>
    rw [skipLines, List.flatten_cons, length_memchrIter]
    split
    · rename_i h
      rw [ih, show k = chunk.count delimiter + (k - chunk.count delimiter) by omega, skip_append (by omega),
        Nat.add_sub_cancel_left]
    · rw [drop_bytesOffset, skip_append_of_le (by omega)]

theorem skipBytes_eq (reads : List (List UInt8)) (k : Nat) : skipBytes reads k = reads.flatten.drop k := by
  induction reads generalizing k with
  | nil => simp [skipBytes]
  | cons chunk rest ih =>
    rw [skipBytes, List.flatten_cons]
    split
    · rename_i h
      rw [ih, show k = chunk.length + (k - chunk.length) by omega, List.drop_length_add_append, Nat.add_sub_cancel_left]
    · split
      · rename_i h
        rw [← h, List.drop_left]
      · rw [List.drop_append_of_le_length (by omega)]

end Peiosutils.Tail
