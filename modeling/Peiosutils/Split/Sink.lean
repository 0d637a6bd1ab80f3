import Mathlib.Data.List.Basic
import Peiosutils.Lib.WriteAll

/-!
# The files that `split` writes one after the other

A new file is created when the one at hand is full; what is written is appended to the last file. What the system does
is a parameter (`Env`): whether there is one more name and the file can be created, and how much of a buffer a write
takes. Each write is recorded, with how much of it was taken.
-/

set_option autoImplicit false

namespace Peiosutils.Split

open While (Stop)
open Writing

/-- What the system does. A write takes something, and not more than it is given. -/
structure Env where
  canCreate : (index : Nat) → Bool
  takes : (call : Nat) → (bytes : List UInt8) → Nat
  takes_pos : ∀ call bytes, bytes ≠ [] → 0 < takes call bytes
  takes_le : ∀ call bytes, takes call bytes ≤ bytes.length

/-- A size as the command line is read: zero is refused. -/
abbrev ChunkSize := { size : Nat // 0 < size }

/-- A write and how much of it was taken. -/
structure Written where
  bytes : List UInt8
  taken : Nat
  deriving DecidableEq, Repr

/-- The files in the order in which they were created, and what was written to them. -/
structure Sink where
  files : List (List UInt8) := []
  writes : List Written := []
  deriving DecidableEq, Repr

/-- Append to the last file; without a file the bytes go to the writer that is overwritten later. -/
def appendLast (bytes : List UInt8) : List (List UInt8) → List (List UInt8)
  | [] => []
  | [file] => [file ++ bytes]
  | file :: files => file :: appendLast bytes files

@[simp] theorem appendLast_concat (bytes file : List UInt8) (files : List (List UInt8)) :
    appendLast bytes (files ++ [file]) = files ++ [file ++ bytes] := by
  induction files with
  | nil => rfl
  | cons f files ih =>
    obtain ⟨g, rest, hrest⟩ : ∃ g rest, files ++ [file] = g :: rest :=
      List.exists_cons_of_ne_nil (by simp)
    rw [List.cons_append, List.cons_append, hrest, appendLast, ← hrest, ih]
    simp

theorem appendLast_append (a b : List UInt8) (files : List (List UInt8)) :
    appendLast b (appendLast a files) = appendLast (a ++ b) files := by
  rcases List.eq_nil_or_concat files with rfl | ⟨fs, f, rfl⟩
  · rfl
  · rw [List.concat_eq_append, appendLast_concat, appendLast_concat, appendLast_concat, List.append_assoc]

@[simp] theorem appendLast_nil (files : List (List UInt8)) : appendLast [] files = files := by
  rcases List.eq_nil_or_concat files with rfl | ⟨fs, f, rfl⟩
  · rfl
  · rw [List.concat_eq_append, appendLast_concat, List.append_nil]

variable (env : Env)

def Sink.create (s : Sink) : Except Stop Sink :=
  if env.canCreate s.files.length then .ok { s with files := s.files ++ [[]] } else .error .failed

/-- How much of the bytes `custom_write` says to be written. -/
def Sink.taken (s : Sink) (bytes : List UInt8) : Nat := env.takes s.writes.length bytes

/-- What `custom_write` leaves. -/
def Sink.write (s : Sink) (bytes : List UInt8) : Sink where
  files := appendLast (bytes.take (s.taken env bytes)) s.files
  writes := s.writes ++ [⟨bytes, s.taken env bytes⟩]

/-- `custom_write_all` -/
def Sink.writeAll (s : Sink) (bytes : List UInt8) : Except Stop Sink :=
  Writing.writeAll (fun bytes (s : Sink) => .ok (s.taken env bytes, s.write env bytes)) bytes s

variable {env}

theorem Sink.taken_pos (s : Sink) {bytes : List UInt8} (h : bytes ≠ []) : 0 < s.taken env bytes := env.takes_pos _ _ h

theorem Sink.taken_le (s : Sink) (bytes : List UInt8) : s.taken env bytes ≤ bytes.length := env.takes_le _ _

theorem Sink.create_ok {s s' : Sink} (h : s.create env = .ok s') : s' = { s with files := s.files ++ [[]] } := by
  unfold create at h
  split at h
  · exact (Except.ok.inj h).symm
  · cases h

/-- All is appended, however it is taken. -/
theorem Sink.writeAll_ok (s : Sink) (bytes : List UInt8) :
    ∃ s', s.writeAll env bytes = .ok s' ∧ s'.files = appendLast bytes s.files := by
  have hkeeps : Keeps (fun bytes (s : Sink) => .ok (s.taken env bytes, s.write env bytes))
      fun done s' => s'.files = appendLast done s.files := by
    intro buf done taken s₁ s₂ hbuf hinv hw
    obtain ⟨rfl, rfl⟩ := Prod.mk.inj (Except.ok.inj hw)
    refine ⟨s₁.taken_pos hbuf, s₁.taken_le buf, ?_⟩
    rw [Sink.write, hinv, appendLast_append]
  obtain ⟨s', hs'⟩ := writeAll_ends hkeeps (fun _ _ s _ _ => ⟨_, rfl⟩) bytes (appendLast_nil s.files).symm
  exact ⟨s', hs', writeAll_spec hkeeps (appendLast_nil s.files).symm hs'⟩

theorem Sink.writeAll_files {s s' : Sink} {bytes : List UInt8} (h : s.writeAll env bytes = .ok s') :
    s'.files = appendLast bytes s.files := by
  obtain ⟨s'', hs'', hfiles⟩ := s.writeAll_ok bytes
  obtain rfl : s'' = s' := Except.ok.inj (hs''.symm.trans h)
  exact hfiles

end Peiosutils.Split

/-!
# `split -b` (`ByteChunkWriter`)

`writeBytes` cuts a buffer at the ends of the chunks, and writes the parts as far as they are taken. However the input
comes in buffers and however much is taken, the files are the input cut into pieces of one size (`splitBytes_spec`).
-/

namespace Peiosutils.Split

open While (Stop)
open Writing

/-! ## The code -/

/-- A writer of chunks: the files, and how much there is room for in the last one. -/
structure ChunkWriter where
  sink : Sink
  remaining : Nat
  deriving DecidableEq, Repr

section Code

variable (env : Env) (chunkSize : ChunkSize)

/-- A new chunk is started where the current one is full. -/
def ChunkWriter.rotate (w : ChunkWriter) : Except Stop ChunkWriter :=
  if w.remaining = 0 then
    match w.sink.create env with
    | .error e => .error e
    | .ok sink => .ok ⟨sink, chunkSize⟩
  else .ok w

/-- The first file is created before there is anything to write. -/
def ChunkWriter.new : Except Stop ChunkWriter := ChunkWriter.rotate env chunkSize ⟨{}, 0⟩

/-- Write the bytes as far as they are taken, and count them. -/
def ChunkWriter.writeCounted (w : ChunkWriter) (bytes : List UInt8) : ChunkWriter :=
  ⟨w.sink.write env bytes, w.remaining - w.sink.taken env bytes⟩

variable {env} in
theorem ChunkWriter.rotate_remaining {w w' : ChunkWriter} (h : w.rotate env chunkSize = .ok w') :
    w'.remaining = if w.remaining = 0 then chunkSize.val else w.remaining := by
  unfold rotate at h
  split at h
  · rename_i hzero
    split at h
    · cases h
    · rw [← Except.ok.inj h, if_pos hzero]
  · rename_i hzero
    rw [← Except.ok.inj h, if_neg hzero]

variable {env} in
/-- There is room behind a rotation. -/
theorem ChunkWriter.rotate_pos {w w' : ChunkWriter} (h : w.rotate env chunkSize = .ok w') : 0 < w'.remaining := by
  rw [rotate_remaining chunkSize h]
  split
  · exact chunkSize.2
  · exact Nat.pos_of_ne_zero ‹_›

/-- The loop of `ByteChunkWriter::write`. -/
def writeBytes (carryover : Nat) (buf : List UInt8) (w : ChunkWriter) : Except Stop (Nat × ChunkWriter) :=
  if _hbuf : buf = [] then .ok (carryover, w)
  else
    match _hw : w.rotate env chunkSize with
    | .error e => .error e
    | .ok w =>
      if buf.length < w.remaining then .ok (carryover + w.sink.taken env buf, w.writeCounted env buf)
      else
        let i := w.remaining
        let written := w.sink.taken env (buf.take i)
        let w := w.writeCounted env (buf.take i)
        if written < i then .ok (carryover + written, w)
        else writeBytes (carryover + written) (buf.drop i) w
termination_by buf.length
decreasing_by
  have hrem := ChunkWriter.rotate_pos chunkSize _hw
  rw [List.length_drop]
  omega

/-- `io::copy` from the reader in buffers to the writer. -/
def splitBytes (bufs : List (List UInt8)) : Except Stop ChunkWriter :=
  match ChunkWriter.new env chunkSize with
  | .error e => .error e
  | .ok w => copy (writeBytes env chunkSize 0) bufs w

end Code

/-! ## The chunks -/

variable {env : Env} {chunkSize : ChunkSize}

theorem ChunkWriter.rotate_files {w w' : ChunkWriter} (h : w.rotate env chunkSize = .ok w') :
    w'.sink.files = (if w.remaining = 0 then w.sink.files ++ [[]] else w.sink.files) ∧
      w'.sink.writes = w.sink.writes := by
  unfold rotate at h
  split at h
  · rename_i hzero
    split at h
    · cases h
    · rename_i sink hsink
      rw [← Except.ok.inj h, if_pos hzero, Sink.create_ok hsink]
      exact ⟨rfl, rfl⟩
  · rename_i hzero
    rw [← Except.ok.inj h, if_neg hzero]
    exact ⟨rfl, rfl⟩

theorem ChunkWriter.rotate_ends (hcreate : ∀ index, env.canCreate index = true) (chunkSize : ChunkSize)
    (w : ChunkWriter) : ∃ w', w.rotate env chunkSize = .ok w' := by
  unfold rotate
  split
  · rw [Sink.create, if_pos (hcreate _)]
    exact ⟨_, rfl⟩
  · exact ⟨w, rfl⟩

/-- Full files, and one that is being filled: together they are what has been written. -/
structure Filled (chunkSize : ChunkSize) (done : List UInt8) (w : ChunkWriter) : Prop where
  files : ∃ full last, w.sink.files = full ++ [last] ∧ (∀ file ∈ full, file.length = chunkSize.val) ∧
    last.length + w.remaining = chunkSize.val ∧ full.flatten ++ last = done

theorem Filled.rotate {done : List UInt8} {w w' : ChunkWriter} (h : Filled chunkSize done w)
    (hw : w.rotate env chunkSize = .ok w') : Filled chunkSize done w' := by
  obtain ⟨full, last, hfiles, hfull, hlast, hdone⟩ := h.files
  have hrem := ChunkWriter.rotate_remaining chunkSize hw
  obtain ⟨hfiles', -⟩ := ChunkWriter.rotate_files hw
  by_cases hzero : w.remaining = 0
  · rw [if_pos hzero] at hrem hfiles'
    rw [hzero, Nat.add_zero] at hlast
    refine ⟨full ++ [last], [], by rw [hfiles', hfiles], fun file hmem => ?_, by rw [hrem]; exact Nat.zero_add _, ?_⟩
    · rcases List.mem_append.1 hmem with hmem | hmem
      · exact hfull file hmem
      · rw [List.mem_singleton.1 hmem, hlast]
    · simpa using hdone
  · rw [if_neg hzero] at hrem hfiles'
    exact ⟨full, last, hfiles'.trans hfiles, hfull, by rw [hrem, hlast], hdone⟩

theorem Filled.write {done : List UInt8} {w : ChunkWriter} (h : Filled chunkSize done w) {bytes : List UInt8}
    (hle : bytes.length ≤ w.remaining) :
    Filled chunkSize (done ++ bytes.take (w.sink.taken env bytes)) (w.writeCounted env bytes) := by
  obtain ⟨full, last, hfiles, hfull, hlast, hdone⟩ := h.files
  have htaken : w.sink.taken env bytes ≤ bytes.length := w.sink.taken_le bytes
  refine ⟨full, last ++ bytes.take (w.sink.taken env bytes), ?_, hfull, ?_, ?_⟩
  · show appendLast _ _ = _
    rw [hfiles, appendLast_concat]
  · rw [List.length_append, List.length_take, ChunkWriter.writeCounted]
    show _ + (w.remaining - w.sink.taken env bytes) = _
    omega
  · rw [← List.append_assoc, hdone]

/-- What a write says to be written is written, in files that are filled. -/
theorem writeBytes_spec {carryover n : Nat} {buf done : List UInt8} {w w' : ChunkWriter} (h : Filled chunkSize done w)
    (hw : writeBytes env chunkSize carryover buf w = .ok (n, w')) :
    ∃ taken, n = carryover + taken ∧ taken ≤ buf.length ∧ (buf ≠ [] → 0 < taken) ∧
      Filled chunkSize (done ++ buf.take taken) w' := by
  fun_induction writeBytes env chunkSize carryover buf w generalizing done with
  | case1 carryover w =>
    obtain ⟨rfl, rfl⟩ := Prod.mk.inj (Except.ok.inj hw)
    exact ⟨0, rfl, Nat.le_refl 0, absurd rfl, by simpa using h⟩
  | case2 carryover buf w hbuf e he => cases hw
  | case3 carryover buf w hbuf w₁ hrotate hlt =>
    obtain ⟨rfl, rfl⟩ := Prod.mk.inj (Except.ok.inj hw)
    exact ⟨_, rfl, w₁.sink.taken_le buf, fun _ => w₁.sink.taken_pos hbuf, (h.rotate hrotate).write (Nat.le_of_lt hlt)⟩
  | case4 carryover buf w hbuf w₁ hrotate hge =>
    rename_i i written w₂ hlt
    have hpos : 0 < i := ChunkWriter.rotate_pos chunkSize hrotate
    have hlen : (buf.take i).length = i := by rw [List.length_take]; omega
    have hne : buf.take i ≠ [] := List.length_pos_iff.1 (by omega)
    have hfilled : Filled chunkSize (done ++ (buf.take i).take written) w₂ :=
      (h.rotate hrotate).write (Nat.le_of_eq hlen)
    obtain ⟨rfl, rfl⟩ := Prod.mk.inj (Except.ok.inj hw)
    rw [List.take_take, Nat.min_eq_left (Nat.le_of_lt hlt)] at hfilled
    exact ⟨written, rfl, by omega, fun _ => w₁.sink.taken_pos hne, hfilled⟩
  | case5 carryover buf w hbuf w₁ hrotate hge =>
    rename_i i written w₂ hnlt ih
    have hpos : 0 < i := ChunkWriter.rotate_pos chunkSize hrotate
    have hlen : (buf.take i).length = i := by rw [List.length_take]; omega
    have hle : written ≤ (buf.take i).length := w₁.sink.taken_le _
    have hwritten : written = i := by omega
    have hfilled : Filled chunkSize (done ++ (buf.take i).take written) w₂ :=
      (h.rotate hrotate).write (Nat.le_of_eq hlen)
    rw [List.take_take, hwritten, Nat.min_self] at hfilled
    obtain ⟨taken, hn, htaken, -, hrest⟩ := ih hfilled hw
    rw [List.length_drop] at htaken
    refine ⟨i + taken, by omega, by omega, fun _ => by omega, ?_⟩
    rwa [List.append_assoc, ← List.take_add] at hrest

theorem writeBytes_ends (hcreate : ∀ index, env.canCreate index = true) (carryover : Nat) (buf : List UInt8)
    (w : ChunkWriter) : ∃ r, writeBytes env chunkSize carryover buf w = .ok r := by
  fun_induction writeBytes env chunkSize carryover buf w with
  | case1 carryover w => exact ⟨_, rfl⟩
  | case2 carryover buf w hbuf e he =>
    obtain ⟨w', hw'⟩ := w.rotate_ends hcreate chunkSize
    rw [hw'] at he
    cases he
  | case3 => exact ⟨_, rfl⟩
  | case4 => exact ⟨_, rfl⟩
  | case5 _ _ _ _ _ _ _ _ _ _ _ ih => exact ih

/-- What `split -b` is to write: the input in files of one size, the last of which may be smaller. -/
def ByteFiles (chunkSize : ChunkSize) (data : List UInt8) (files : List (List UInt8)) : Prop :=
  files.flatten = data ∧ (∀ file ∈ files, file.length ≤ chunkSize.val) ∧
    ∀ file ∈ files.dropLast, file.length = chunkSize.val

theorem Filled.byteFiles {done : List UInt8} {w : ChunkWriter} (h : Filled chunkSize done w) :
    ByteFiles chunkSize done w.sink.files := by
  obtain ⟨full, last, hfiles, hfull, hlast, hdone⟩ := h.files
  rw [hfiles]
  refine ⟨by simpa using hdone, fun file hmem => ?_, ?_⟩
  · rcases List.mem_append.1 hmem with hmem | hmem
    · exact Nat.le_of_eq (hfull file hmem)
    · rw [List.mem_singleton.1 hmem]
      omega
  · rwa [List.dropLast_concat]

theorem new_filled {w : ChunkWriter} (h : ChunkWriter.new env chunkSize = .ok w) : Filled chunkSize [] w := by
  have hrem := ChunkWriter.rotate_remaining chunkSize h
  obtain ⟨hfiles, -⟩ := ChunkWriter.rotate_files h
  exact ⟨[], [], hfiles, fun _ hmem => (by cases hmem), by rw [hrem]; exact Nat.zero_add _, rfl⟩

theorem writeBytes_keeps : Keeps (writeBytes env chunkSize 0) (Filled chunkSize) := by
  intro buf done n w w' hbuf h hw
  obtain ⟨taken, rfl, hle, hpos, hfilled⟩ := writeBytes_spec h hw
  rw [Nat.zero_add]
  exact ⟨hpos hbuf, hle, hfilled⟩

/-- The files of `split -b`, in whatever buffers the input comes and whatever a write takes. -/
theorem splitBytes_spec {bufs : List (List UInt8)} {w : ChunkWriter} (h : splitBytes env chunkSize bufs = .ok w) :
    ByteFiles chunkSize bufs.flatten w.sink.files := by
  unfold splitBytes at h
  cases hnew : ChunkWriter.new env chunkSize with
  | error e =>
    rw [hnew] at h
    cases h
  | ok w₀ =>
    rw [hnew] at h
    have hfilled := copy_spec writeBytes_keeps (new_filled hnew) h
    rw [List.nil_append] at hfilled
    exact hfilled.byteFiles

theorem splitBytes_ends (hcreate : ∀ index, env.canCreate index = true) (bufs : List (List UInt8)) :
    ∃ w, splitBytes env chunkSize bufs = .ok w := by
  obtain ⟨w₀, hnew⟩ := ChunkWriter.rotate_ends hcreate chunkSize ⟨{}, 0⟩
  obtain ⟨w, hw⟩ := copy_ends writeBytes_keeps (fun buf _ w _ _ => writeBytes_ends hcreate 0 buf w) bufs
    (new_filled hnew)
  exact ⟨w, by rw [splitBytes, ChunkWriter.new, hnew]; exact hw⟩

end Peiosutils.Split
