import Mathlib.Data.List.Basic
import Peiosutils.Lib.Lines
import Peiosutils.Split.ByByte
import Peiosutils.Split.LineBytes
import Peiosutils.Split.Sink

/-!
# `split -l` (`LineChunkWriter`)

`writeLines` writes a buffer line by line and counts the lines of a chunk. It goes on behind a line whether all of it
was taken or not, and counts it: what was not taken is lost, and the end of the buffer is written once more in its
place. The files are right in every run in which the writes that end a line take all of it (`splitLines_spec`).
-/

set_option autoImplicit false

namespace Peiosutils.Split

open While (Stop)
open Lines Writing

/-! ## The code -/

section Code

variable (env : Env) (sep : UInt8) (chunkSize : ChunkSize)

/-- A line is written, and counted whether it is taken or not. -/
def ChunkWriter.writeLine (w : ChunkWriter) (bytes : List UInt8) : ChunkWriter :=
  ⟨w.sink.write env bytes, w.remaining - 1⟩

/-- The bytes behind the last separator are written, and no line is counted. -/
def ChunkWriter.writeRest (w : ChunkWriter) (bytes : List UInt8) : ChunkWriter := ⟨w.sink.write env bytes, w.remaining⟩

/-- The loop of `LineChunkWriter::write` over the separators, and what is behind the last one. -/
def writePieces (total : Nat) : List (List UInt8) → ChunkWriter → Except Stop (Nat × ChunkWriter)
  | [], w => .ok (total, w)
  | p :: ps, w =>
    match w.rotate env chunkSize with
    | .error e => .error e
    | .ok w =>
      if p.getLast? = some sep then writePieces (total + w.sink.taken env p) ps (w.writeLine env p)
      else .ok (total + w.sink.taken env p, w.writeRest env p)

def writeLines (buf : List UInt8) (w : ChunkWriter) : Except Stop (Nat × ChunkWriter) :=
  writePieces env sep chunkSize 0 (pieces sep buf) w

/-- `io::copy` from the reader in buffers to the writer. -/
def splitLines (bufs : List (List UInt8)) : Except Stop ChunkWriter :=
  match ChunkWriter.new env chunkSize with
  | .error e => .error e
  | .ok w => copy (writeLines env sep chunkSize) bufs w

end Code

/-! ## The chunks -/

section Chunks

variable {env : Env} {sep : UInt8} {chunkSize : ChunkSize}

/-- The writes that end a line have taken all of it. -/
def WholeLines (sep : UInt8) (writes : List Written) : Prop :=
  ∀ write ∈ writes, write.bytes.getLast? = some sep → write.taken = write.bytes.length

theorem wholeLines_concat {writes : List Written} {write : Written} (h : WholeLines sep (writes ++ [write])) :
    WholeLines sep writes ∧ (write.bytes.getLast? = some sep → write.taken = write.bytes.length) :=
  ⟨fun other hmem => h other (List.mem_append_left _ hmem), h write (by simp)⟩

/-- Full files, and one that is being filled: together they are what has been written. -/
structure LinesFilled (sep : UInt8) (chunkSize : ChunkSize) (done : List UInt8) (w : ChunkWriter) : Prop where
  files : ∃ full last, w.sink.files = full ++ [last] ∧
    (∀ file ∈ full, Terminated sep file ∧ file.count sep = chunkSize.val) ∧
    last.count sep + w.remaining = chunkSize.val ∧ (w.remaining = 0 → Terminated sep last) ∧ full.flatten ++ last = done

theorem LinesFilled.rotate {done : List UInt8} {w w' : ChunkWriter} (h : LinesFilled sep chunkSize done w)
    (hw : w.rotate env chunkSize = .ok w') : LinesFilled sep chunkSize done w' := by
  obtain ⟨full, last, hfiles, hfull, hlast, hterm, hdone⟩ := h.files
  have hrem := ChunkWriter.rotate_remaining chunkSize hw
  have hpos := ChunkWriter.rotate_pos chunkSize hw
  obtain ⟨hfiles', -⟩ := ChunkWriter.rotate_files hw
  by_cases hzero : w.remaining = 0
  · rw [if_pos hzero] at hrem hfiles'
    rw [hzero, Nat.add_zero] at hlast
    refine ⟨full ++ [last], [], by rw [hfiles', hfiles], fun file hmem => ?_, by rw [hrem]; exact Nat.zero_add _,
      fun _ => Or.inl rfl, by simpa using hdone⟩
    rcases List.mem_append.1 hmem with hmem | hmem
    · exact hfull file hmem
    · rw [List.mem_singleton.1 hmem]
      exact ⟨hterm hzero, hlast⟩
  · rw [if_neg hzero] at hrem hfiles'
    exact ⟨full, last, hfiles'.trans hfiles, hfull, by rw [hrem, hlast], fun h0 => by omega, hdone⟩

/-- A line that is taken as a whole. -/
theorem LinesFilled.writeLine {done p : List UInt8} {w : ChunkWriter} (h : LinesFilled sep chunkSize done w)
    (hpos : 0 < w.remaining) (hlast : p.getLast? = some sep) (hcount : p.count sep = 1)
    (htaken : w.sink.taken env p = p.length) : LinesFilled sep chunkSize (done ++ p) (w.writeLine env p) := by
  obtain ⟨full, last, hfiles, hfull, hrem, -, hdone⟩ := h.files
  refine ⟨full, last ++ p, ?_, hfull, ?_, fun _ => Or.inr ?_, by rw [← List.append_assoc, hdone]⟩
  · show appendLast _ _ = _
    rw [hfiles, htaken, List.take_length, appendLast_concat]
  · show _ + (w.remaining - 1) = _
    rw [List.count_append, hcount]
    omega
  · rw [List.getLast?_append, hlast, Option.some_or]

/-- Bytes without a separator, as far as they are taken. -/
theorem LinesFilled.writeRest {done p : List UInt8} {w : ChunkWriter} (h : LinesFilled sep chunkSize done w)
    (hpos : 0 < w.remaining) (hsep : sep ∉ p) :
    LinesFilled sep chunkSize (done ++ p.take (w.sink.taken env p)) (w.writeRest env p) := by
  obtain ⟨full, last, hfiles, hfull, hrem, -, hdone⟩ := h.files
  refine ⟨full, last ++ p.take (w.sink.taken env p), ?_, hfull, ?_, fun hzero => ?_,
    by rw [← List.append_assoc, hdone]⟩
  · show appendLast _ _ = _
    rw [hfiles, appendLast_concat]
  · have hnone : (p.take (w.sink.taken env p)).count sep = 0 :=
      List.count_eq_zero_of_not_mem fun hmem => hsep (List.mem_of_mem_take hmem)
    rw [List.count_append, hnone, Nat.add_zero]
    exact hrem
  · exact absurd hzero (Nat.ne_of_gt hpos)

/-- A piece has one separator, at its end, or none. -/
theorem count_piece {buf p : List UInt8} (h : p ∈ pieces sep buf) :
    if p.getLast? = some sep then p.count sep = 1 else sep ∉ p := by
  have hline : sep ∉ chomp sep p := not_mem_of_mem_lines (List.mem_map_of_mem h)
  unfold chomp at hline
  split
  · rename_i hlast
    rw [if_pos hlast] at hline
    rw [← List.dropLast_append_getLast? _ hlast, List.count_append, List.count_eq_zero_of_not_mem hline]
    simp
  · rename_i hlast
    rwa [if_neg hlast] at hline

/-- Where the lines are taken as wholes, what a write says to be written is written. -/
theorem writePieces_spec {n : Nat} (ps : List (List UInt8)) :
    ∀ {total : Nat} {buf : List UInt8} {w w' : ChunkWriter}, pieces sep buf = ps →
      writePieces env sep chunkSize total ps w = .ok (n, w') →
      ∃ taken, n = total + taken ∧ taken ≤ buf.length ∧ (buf ≠ [] → 0 < taken) ∧
        (WholeLines sep w'.sink.writes → WholeLines sep w.sink.writes ∧
          ∀ done, LinesFilled sep chunkSize done w → LinesFilled sep chunkSize (done ++ buf.take taken) w') := by
  induction ps with
  | nil =>
    intro total buf w w' hpieces hw
    obtain ⟨rfl, rfl⟩ := Prod.mk.inj (Except.ok.inj hw)
    rw [pieces_eq_nil] at hpieces
    subst hpieces
    exact ⟨0, rfl, Nat.le_refl 0, absurd rfl, fun hwhole => ⟨hwhole, fun done h => by simpa using h⟩⟩
  | cons p ps ih =>
    intro total buf w w' hpieces hw
    obtain ⟨hbuf, hps, hend⟩ := pieces_eq_cons hpieces
    have hmem : p ∈ pieces sep buf := hpieces ▸ List.mem_cons_self
    have hne := ne_nil_of_mem_pieces hmem
    have hcount := count_piece hmem
    unfold writePieces at hw
    cases hrotate : w.rotate env chunkSize with
    | error e =>
      rw [hrotate] at hw
      cases hw
    | ok w₁ =>
      simp only [hrotate] at hw
      have hpos := ChunkWriter.rotate_pos chunkSize hrotate
      have hwrites := (ChunkWriter.rotate_files hrotate).2
      have htaken : 0 < w₁.sink.taken env p := w₁.sink.taken_pos hne
      have hle : w₁.sink.taken env p ≤ p.length := w₁.sink.taken_le p
      by_cases hlast : p.getLast? = some sep
      · rw [if_pos hlast] at hw hcount
        obtain ⟨taken, rfl, htaken', -, hrest⟩ := ih hps hw
        have hlen : buf.length = p.length + ps.flatten.length := by rw [hbuf, List.length_append]
        refine ⟨w₁.sink.taken env p + taken, by omega, by omega, fun _ => by omega, fun hwhole => ?_⟩
        obtain ⟨hwhole', hfilled⟩ := hrest hwhole
        obtain ⟨hbefore, hall⟩ := wholeLines_concat hwhole'
        refine ⟨hwrites ▸ hbefore, fun done h => ?_⟩
        have hwhole₁ : w₁.sink.taken env p = p.length := hall hlast
        have htake : buf.take (w₁.sink.taken env p + taken) = p ++ ps.flatten.take taken := by
          rw [hwhole₁, hbuf, List.take_length_add_append]
        rw [htake, ← List.append_assoc]
        exact hfilled _ ((h.rotate hrotate).writeLine hpos hlast hcount hwhole₁)
      · rw [if_neg hlast] at hw hcount
        obtain rfl := hend.resolve_left hlast
        rw [List.flatten_nil, List.append_nil] at hbuf
        subst hbuf
        obtain ⟨rfl, rfl⟩ := Prod.mk.inj (Except.ok.inj hw)
        refine ⟨_, rfl, hle, fun _ => htaken, fun hwhole => ⟨hwrites ▸ (wholeLines_concat hwhole).1, fun done h => ?_⟩⟩
        exact (h.rotate hrotate).writeRest hpos hcount

theorem writePieces_ends (hcreate : ∀ index, env.canCreate index = true) (total : Nat) (ps : List (List UInt8))
    (w : ChunkWriter) : ∃ r, writePieces env sep chunkSize total ps w = .ok r := by
  induction ps generalizing total w with
  | nil => exact ⟨_, rfl⟩
  | cons p ps ih =>
    obtain ⟨w', hw'⟩ := w.rotate_ends hcreate chunkSize
    unfold writePieces
    simp only [hw']
    split
    · exact ih _ _
    · exact ⟨_, rfl⟩

/-- What `split -l` is to write: the input in files of so many lines, the last of which may have fewer. -/
def LineFiles (sep : UInt8) (chunkSize : ChunkSize) (data : List UInt8) (files : List (List UInt8)) : Prop :=
  files.flatten = data ∧ (∀ file ∈ files, (lines sep file).length ≤ chunkSize.val) ∧
    ∀ file ∈ files.dropLast, Terminated sep file ∧ (lines sep file).length = chunkSize.val

theorem LinesFilled.lineFiles {done : List UInt8} {w : ChunkWriter} (h : LinesFilled sep chunkSize done w) :
    LineFiles sep chunkSize done w.sink.files := by
  obtain ⟨full, last, hfiles, hfull, hrem, hterm, hdone⟩ := h.files
  have hlines : ∀ file ∈ full, Terminated sep file ∧ (lines sep file).length = chunkSize.val := by
    intro file hmem
    obtain ⟨hfile, hcount⟩ := hfull file hmem
    exact ⟨hfile, by rw [length_lines, if_pos hfile, hcount, Nat.add_zero]⟩
  rw [hfiles]
  refine ⟨by simpa using hdone, fun file hmem => ?_, by rwa [List.dropLast_concat]⟩
  rcases List.mem_append.1 hmem with hmem | hmem
  · exact Nat.le_of_eq (hlines file hmem).2
  · rw [List.mem_singleton.1 hmem, length_lines]
    split
    · omega
    · rename_i hopen
      have : w.remaining ≠ 0 := fun hzero => hopen (hterm hzero)
      omega

/-- The invariant of a run: the files are filled if the lines have been taken as wholes. -/
def LinesSoFar (sep : UInt8) (chunkSize : ChunkSize) (done : List UInt8) (w : ChunkWriter) : Prop :=
  WholeLines sep w.sink.writes → LinesFilled sep chunkSize done w

theorem writeLines_keeps : Keeps (writeLines env sep chunkSize) (LinesSoFar sep chunkSize) := by
  intro buf done n w w' hbuf h hw
  obtain ⟨taken, rfl, hle, hpos, hfilled⟩ := writePieces_spec _ rfl hw
  rw [Nat.zero_add]
  refine ⟨hpos hbuf, hle, fun hwhole => ?_⟩
  obtain ⟨hbefore, hstep⟩ := hfilled hwhole
  exact hstep done (h hbefore)

theorem new_linesFilled {w : ChunkWriter} (h : ChunkWriter.new env chunkSize = .ok w) :
    LinesFilled sep chunkSize [] w := by
  have hrem := ChunkWriter.rotate_remaining chunkSize h
  obtain ⟨hfiles, -⟩ := ChunkWriter.rotate_files h
  exact ⟨[], [], hfiles, fun _ hmem => (by cases hmem), by rw [hrem]; exact Nat.zero_add _, fun _ => Or.inl rfl, rfl⟩

/-- The files of `split -l` in a run that takes lines as wholes, in whatever buffers the input comes. -/
theorem splitLines_spec {bufs : List (List UInt8)} {w : ChunkWriter} (h : splitLines env sep chunkSize bufs = .ok w)
    (hwhole : WholeLines sep w.sink.writes) : LineFiles sep chunkSize bufs.flatten w.sink.files := by
  unfold splitLines at h
  cases hnew : ChunkWriter.new env chunkSize with
  | error e =>
    rw [hnew] at h
    cases h
  | ok w₀ =>
    rw [hnew] at h
    have hfilled := copy_spec writeLines_keeps (fun _ => new_linesFilled hnew) h hwhole
    rw [List.nil_append] at hfilled
    exact hfilled.lineFiles

theorem splitLines_ends (hcreate : ∀ index, env.canCreate index = true) (bufs : List (List UInt8)) :
    ∃ w, splitLines env sep chunkSize bufs = .ok w := by
  obtain ⟨w₀, hnew⟩ := ChunkWriter.rotate_ends hcreate chunkSize ⟨{}, 0⟩
  have hkeeps : Keeps (writeLines env sep chunkSize) (LinesSoFar sep chunkSize) := writeLines_keeps
  obtain ⟨w, hw⟩ := copy_ends hkeeps
    (fun buf _ w _ _ => writePieces_ends hcreate 0 (pieces sep buf) w) bufs (fun _ => new_linesFilled hnew)
  exact ⟨w, by rw [splitLines, ChunkWriter.new, hnew]; exact hw⟩

end Chunks

/-! ## A line that is taken in part -/

/-- The first write takes all but one byte, and the others take all. -/
def shortEnv : Env where
  canCreate _ := true
  takes call bytes := if call = 0 ∧ 1 < bytes.length then bytes.length - 1 else bytes.length
  takes_pos call bytes h := by
    have := List.length_pos_iff.2 h
    split <;> omega
  takes_le call bytes := by split <;> omega

/-- `-l 2` -/
def twoLines : ChunkSize := ⟨2, Nat.succ_pos 1⟩

@[simp] theorem twoLines_val : twoLines.val = 2 := rfl

/-- A line whose separator is left to a second write counts as two lines, and its file gets no other one. -/
theorem splitLines_short {line : List UInt8} (hne : line ≠ []) (hsep : 10 ∉ line) :
    ∃ w, splitLines shortEnv 10 twoLines [line ++ [10], [98, 10, 99, 10]] = .ok w ∧
      w.sink.files = [line ++ [10], [98, 10, 99, 10]] := by
  have hlen := List.length_pos_iff.2 hne
  have hfirst : writeLines shortEnv 10 twoLines (line ++ [10]) ⟨⟨[[]], []⟩, 2⟩ =
      .ok (line.length, ⟨⟨[line], [⟨line ++ [10], line.length⟩]⟩, 1⟩) := by
    simp [writeLines, pieces_line hsep, writePieces, ChunkWriter.rotate, ChunkWriter.writeLine, Sink.write, Sink.taken,
      shortEnv, hlen, appendLast]
  have hsecond : writeLines shortEnv 10 twoLines [10] ⟨⟨[line], [⟨line ++ [10], line.length⟩]⟩, 1⟩ =
      .ok (1, ⟨⟨[line ++ [10]], [⟨line ++ [10], line.length⟩, ⟨[10], 1⟩]⟩, 0⟩) := by
    simp [writeLines, pieces, writePieces, ChunkWriter.rotate, ChunkWriter.writeLine, Sink.write, Sink.taken, shortEnv,
      appendLast]
  have hthird : writeLines shortEnv 10 twoLines [98, 10, 99, 10]
      ⟨⟨[line ++ [10]], [⟨line ++ [10], line.length⟩, ⟨[10], 1⟩]⟩, 0⟩ =
      .ok (4, ⟨⟨[line ++ [10], [98, 10, 99, 10]],
        [⟨line ++ [10], line.length⟩, ⟨[10], 1⟩, ⟨[98, 10], 2⟩, ⟨[99, 10], 2⟩]⟩, 0⟩) := by
    simp [writeLines, pieces, writePieces, ChunkWriter.rotate, ChunkWriter.writeLine, Sink.create, Sink.write,
      Sink.taken, shortEnv, appendLast]
  have hline : writeAll (writeLines shortEnv 10 twoLines) (line ++ [10]) ⟨⟨[[]], []⟩, 2⟩ =
      .ok ⟨⟨[line ++ [10]], [⟨line ++ [10], line.length⟩, ⟨[10], 1⟩]⟩, 0⟩ := by
    rw [writeAll_of_write hfirst (by simp) hlen (by simp), List.drop_left, writeAll_of_write hsecond (by simp) (by simp)
      (by simp), List.drop_one, List.tail_cons, writeAll_nil]
  refine ⟨⟨⟨[line ++ [10], [98, 10, 99, 10]],
    [⟨line ++ [10], line.length⟩, ⟨[10], 1⟩, ⟨[98, 10], 2⟩, ⟨[99, 10], 2⟩]⟩, 0⟩, ?_, rfl⟩
  show copy _ _ (⟨⟨[[]], []⟩, 2⟩ : ChunkWriter) = _
  simp only [copy, hline]
  rw [writeAll_of_write hthird (by simp) (by simp) (by simp)]
  simp

/-- A buffer of one line of 8192 bytes, of which the first write takes 8191. -/
theorem splitLines_not_full : ∃ w,
    splitLines shortEnv 10 twoLines [List.replicate 8191 97 ++ [10], [98, 10, 99, 10]] = .ok w ∧
      ¬ LineFiles 10 twoLines [List.replicate 8191 97 ++ [10], [98, 10, 99, 10]].flatten w.sink.files := by
  have hsep : (10 : UInt8) ∉ List.replicate 8191 97 := fun hmem => absurd (List.mem_replicate.1 hmem).2 (by decide)
  obtain ⟨w, hw, hfiles⟩ := splitLines_short (mt (List.replicate_eq_nil_iff 97).1 (by decide)) hsep
  refine ⟨w, hw, fun hline => ?_⟩
  have hfull := (hline.2.2 (List.replicate 8191 97 ++ [10]) (by rw [hfiles]; exact List.mem_cons_self)).2
  rw [lines_line hsep] at hfull
  cases hfull

end Peiosutils.Split

/-!
# What `split` writes is the input

`split_partition`: the files of `-b`, `-C` and `-n N` are the input cut as it is to be cut, in whatever buffers the
input comes and whatever part of a buffer a write takes, and `-n K/N` prints the `K`-th file of `-n N`. The files of
`-l` are in every run in which a write that ends a line takes all of it; a line taken in part counts twice
(`splitLines_not_full`).
-/

namespace Peiosutils.Split

open While (Stop)
open Shares

/-- The files of `split`, and what `-n K/N` prints. -/
theorem split_partition {canOpen : (attempt opened : Nat) → Bool} (hopen : ∀ attempt, canOpen attempt 0 = true)
    (env : Env) (sep : UInt8) (chunkSize : ChunkSize) (bufs : List (List UInt8)) (elide : Bool) (N : Nat) (hN : 0 < N) :
    -- `-b`
    (∀ w, splitBytes env chunkSize bufs = .ok w → ByteFiles chunkSize bufs.flatten w.sink.files) ∧
    -- `-l`
    (∀ w, splitLines env sep chunkSize bufs = .ok w → WholeLines sep w.sink.writes →
      LineFiles sep chunkSize bufs.flatten w.sink.files) ∧
    -- `-C`
    (∀ w, lineBytes env sep chunkSize bufs.flatten = .ok w →
      LineByteFiles sep chunkSize bufs.flatten w.sink.files) ∧
    -- `-n N` and `-n K/N`
    (∃ s, nChunksByByte canOpen env none elide N bufs.flatten = .ok s ∧ s.outFiles.contents.flatten = bufs.flatten ∧
      ∀ k, 1 ≤ k → k ≤ N → ∃ s', nChunksByByte canOpen env (some k) elide N bufs.flatten = .ok s' ∧
        s'.stdout = s.outFiles.contents.getD (k - 1) []) ∧
    -- as far as the files can be created, all are written
    ((∀ index, env.canCreate index = true) → (∃ w, splitBytes env chunkSize bufs = .ok w) ∧
      (∃ w, splitLines env sep chunkSize bufs = .ok w) ∧ ∃ w, lineBytes env sep chunkSize bufs.flatten = .ok w) := by
  refine ⟨fun w h => splitBytes_spec h, fun w h hwhole => splitLines_spec h hwhole, fun w h => lineBytes_spec h, ?_,
    fun hcreate => ⟨splitBytes_ends hcreate bufs, splitLines_ends hcreate bufs, lineBytes_ends hcreate _⟩⟩
  obtain ⟨s, hs, hcontents⟩ := nChunksByByte_files hopen env elide bufs.flatten N
  refine ⟨s, hs, ?_, fun k hk hkN => ?_⟩
  · rw [hcontents]
    exact flatten_chunks elide bufs.flatten hN
  · obtain ⟨s', hs', hstdout⟩ := nChunksByByte_kth canOpen env elide bufs.flatten hk hkN
    refine ⟨s', hs', ?_⟩
    rw [hstdout, hcontents]
    exact share_eq_file elide bufs.flatten hk hkN

/-- Three bytes in two buffers, in files of two bytes and into two chunks. -/
theorem split_partition_two : (∀ attempt : Nat, (fun _ _ => true : Nat → Nat → Bool) attempt 0 = true) ∧ 0 < 2 ∧
    ∀ w, splitBytes shortEnv twoLines [[97, 10], [98]] = .ok w →
      ByteFiles twoLines [97, 10, 98] w.sink.files :=
  ⟨fun _ => rfl, Nat.succ_pos 1,
    (@split_partition (fun _ _ => true) (fun _ => rfl) shortEnv 10 twoLines [[97, 10], [98]] false 2
      (Nat.succ_pos 1)).1⟩

end Peiosutils.Split
