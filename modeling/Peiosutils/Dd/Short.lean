import Peiosutils.Dd.Written

/-!
# Short writes (`Output::write_block`, `Output::write_blocks`)

A destination may take a part of what it is offered, or be interrupted. Blocks are written on after a short write where full
blocks are asked for, and left at it otherwise (`writeBlocks_spec`). A destination that takes each write whole is the
`Output` of the copy (`writeBlocks_whole`).
-/

set_option autoImplicit false

namespace Peiosutils.Dd

open Chop

variable {s : Settings}

/-! ## The destination -/

/-- What a write does: it takes up to `n + 1` bytes, is interrupted, or fails. -/
inductive Outcome where
  | accepts (n : Nat)
  | interrupted
  | failed (errno : Int)

/-- A destination: what the writes to come do, and the bytes that were taken. -/
structure Dest where
  outcomes : List Outcome
  taken : List UInt8

/-- The loop of `write_block` behind `base` bytes of the chunk. None where the destination does not answer any more. -/
def writeBlock (fullblock : Bool) (chunk : List UInt8) (base : Nat) (taken : List UInt8) :
    List Outcome → Option (Except Int Nat × Dest)
  | [] => none
  | .accepts n :: outcomes =>
    let wlen := min (n + 1) (chunk.length - base)
    let taken := taken ++ (chunk.drop base).take wlen
    if base + wlen ≥ chunk.length ∨ ¬ fullblock then some (.ok (base + wlen), ⟨outcomes, taken⟩)
    else writeBlock fullblock chunk (base + wlen) taken outcomes
  | .interrupted :: outcomes => writeBlock fullblock chunk base taken outcomes
  | .failed e :: outcomes => some (.error e, ⟨outcomes, taken⟩)

/-- The loop of `write_blocks` over the chunks. -/
def writeChunks (s : Settings) : List (List UInt8) → WriteStat → Dest → Option (Except Int WriteStat × Dest)
  | [], stat, d => some (.ok stat, d)
  | chunk :: chunks, stat, d =>
    match writeBlock s.fullblock chunk 0 d.taken d.outcomes with
    | none => none
    | some (.error e, d) => some (.error e, d)
    | some (.ok wlen, d) =>
      writeChunks s chunks (stat.add (if wlen < s.obs then ⟨0, 1, wlen⟩ else ⟨1, 0, wlen⟩)) d

/-- `Output::write_blocks`. -/
def Dest.writeBlocks (d : Dest) (s : Settings) (buf : List UInt8) : Option (Except Int WriteStat × Dest) :=
  writeChunks s (chop s.obs buf) ⟨0, 0, 0⟩ d

/-! ## Blocks -/

/-- An answer that is no interruption. -/
def Outcome.settles : Outcome → Bool
  | .interrupted => false
  | _ => true

/-- What the writes take that take anything. -/
def accepted (outcomes : List Outcome) : List Nat :=
  outcomes.filterMap fun
    | .accepts n => some n
    | _ => none

/-- What was taken of a block when its writing ends well: all of it, or what its first write took. -/
theorem writeBlock_ok {fullblock : Bool} {chunk : List UInt8} {outcomes : List Outcome} {base : Nat} {taken : List UInt8}
    {wlen : Nat} {d : Dest} (hbase : base < chunk.length)
    (h : writeBlock fullblock chunk base taken outcomes = some (.ok wlen, d)) :
    d.taken = taken ++ (chunk.drop base).take (wlen - base) ∧ base < wlen ∧ wlen ≤ chunk.length ∧
      (fullblock = true → wlen = chunk.length) ∧
      ∃ n rest, accepted outcomes = n :: rest ∧
        (fullblock = false → wlen = base + min (n + 1) (chunk.length - base) ∧ accepted d.outcomes = rest) := by
  induction outcomes generalizing base taken with
  | nil => cases h
  | cons outcome outcomes ih =>
    cases outcome with
    | accepts n =>
      rw [writeBlock] at h
      split at h
      · rename_i hdone
        cases h
        have hpos : 0 < min (n + 1) (chunk.length - base) := by omega
        refine ⟨by rw [Nat.add_sub_cancel_left], by omega, by omega, fun hfull => ?_, n, accepted outcomes, rfl,
          fun _ => ⟨rfl, rfl⟩⟩
        rcases hdone with hdone | hdone
        · omega
        · exact absurd hfull hdone
      · rename_i hmore
        rw [not_or, not_not] at hmore
        obtain ⟨htaken, hlt, hle, hfull, -⟩ := ih (by omega) h
        refine ⟨?_, by omega, hle, hfull, n, accepted outcomes, rfl, fun hnot => ?_⟩
        · -- the parts that were taken are next to each other
          rw [htaken, List.append_assoc, ← List.drop_drop, ← List.take_add]
          congr 2
          omega
        · rw [hnot] at hmore
          exact absurd hmore.2 Bool.false_ne_true
    | interrupted =>
      obtain ⟨htaken, hlt, hle, hfull, n, rest, haccepted, hfirst⟩ := ih hbase h
      exact ⟨htaken, hlt, hle, hfull, n, rest, haccepted, hfirst⟩
    | failed e => cases h

/-- A block is done with when there are as many answers as bytes. -/
theorem writeBlock_isSome (fullblock : Bool) (chunk : List UInt8) {outcomes : List Outcome} {base : Nat}
    (taken : List UInt8) (hbase : base < chunk.length) (h : chunk.length - base ≤ outcomes.countP Outcome.settles) :
    ∃ r d, writeBlock fullblock chunk base taken outcomes = some (r, d) ∧
      outcomes.countP Outcome.settles - (chunk.length - base) ≤ d.outcomes.countP Outcome.settles := by
  induction outcomes generalizing base taken with
  | nil =>
    rw [List.countP_nil] at h
    omega
  | cons outcome outcomes ih =>
    cases outcome with
    | accepts n =>
      rw [List.countP_cons_of_pos (by rfl)] at h ⊢
      rw [writeBlock]
      split
      · exact ⟨_, _, rfl, by simp only; omega⟩
      · rename_i hmore
        rw [not_or] at hmore
        obtain ⟨r, d, hrun, hleft⟩ := @ih (base + min (n + 1) (chunk.length - base))
          (taken ++ (chunk.drop base).take (min (n + 1) (chunk.length - base))) (by omega) (by omega)
        exact ⟨r, d, hrun, by omega⟩
    | interrupted =>
      rw [List.countP_cons_of_neg (by decide)] at h ⊢
      exact ih taken hbase h
    | failed e =>
      rw [List.countP_cons_of_pos (by rfl)] at h ⊢
      exact ⟨_, _, rfl, by simp only; omega⟩

/-! ## Buffers -/

/-- What the first write of each chunk takes. -/
def firsts (chunks : List (List UInt8)) (outcomes : List Outcome) : List (List UInt8) :=
  List.zipWith (fun chunk n => chunk.take (n + 1)) chunks (accepted outcomes)

/-- What was handed over when all chunks were written. -/
theorem writeChunks_ok {chunks : List (List UInt8)} (hpos : ∀ chunk ∈ chunks, 0 < chunk.length) {stat stat' : WriteStat}
    {d d' : Dest} (h : writeChunks s chunks stat d = some (.ok stat', d')) :
    (s.fullblock = true → d'.taken = d.taken ++ chunks.flatten ∧
      stat'.bytesTotal = stat.bytesTotal + chunks.flatten.length) ∧
    (s.fullblock = false → chunks.length ≤ (accepted d.outcomes).length ∧
      d'.taken = d.taken ++ (firsts chunks d.outcomes).flatten ∧
      stat'.bytesTotal = stat.bytesTotal + (firsts chunks d.outcomes).flatten.length) := by
  induction chunks generalizing stat d with
  | nil =>
    cases h
    simp [firsts]
  | cons chunk chunks ih =>
    rw [writeChunks] at h
    cases hblock : writeBlock s.fullblock chunk 0 d.taken d.outcomes with
    | none => simp [hblock] at h
    | some p =>
      obtain ⟨r, d₁⟩ := p
      cases r with
      | error e => simp [hblock] at h
      | ok wlen =>
        simp only [hblock] at h
        have hchunk := hpos chunk List.mem_cons_self
        obtain ⟨htaken, -, hle, hfull, n, rest, haccepted, hfirst⟩ := writeBlock_ok hchunk hblock
        obtain ⟨hall, hparts⟩ := ih (fun c hc => hpos c (List.mem_cons_of_mem chunk hc)) h
        have hstat : (stat.add (if wlen < s.obs then ⟨0, 1, wlen⟩ else ⟨1, 0, wlen⟩)).bytesTotal =
            stat.bytesTotal + wlen := by
          split <;> rfl
        rw [List.drop_zero, Nat.sub_zero] at htaken
        rw [hstat] at hall hparts
        constructor
        · intro hs
          obtain ⟨htaken', hbytes⟩ := hall hs
          rw [htaken', htaken, hfull hs, List.take_length, List.flatten_cons, List.append_assoc, hbytes, hfull hs,
            List.length_append, Nat.add_assoc]
          exact ⟨rfl, rfl⟩
        · intro hs
          obtain ⟨hlength, htaken', hbytes⟩ := hparts hs
          obtain ⟨hwlen, hrest⟩ := hfirst hs
          rw [hrest] at hlength
          have hpart : chunk.take wlen = chunk.take (n + 1) := by
            rw [hwlen, Nat.zero_add, Nat.sub_zero, ← List.take_take, List.take_length]
          have hfirsts : firsts (chunk :: chunks) d.outcomes = chunk.take (n + 1) :: firsts chunks d₁.outcomes := by
            rw [firsts, haccepted, List.zipWith_cons_cons, firsts, hrest]
          refine ⟨?_, ?_, ?_⟩
          · rw [haccepted, List.length_cons, List.length_cons]
            omega
          · rw [htaken', htaken, hpart, hfirsts, List.flatten_cons, List.append_assoc]
          · rw [hbytes, hfirsts, List.flatten_cons, List.length_append, ← hpart, List.length_take_of_le hle,
              Nat.add_assoc]

theorem writeChunks_isSome {chunks : List (List UInt8)} (hpos : ∀ chunk ∈ chunks, 0 < chunk.length) (stat : WriteStat)
    {d : Dest} (h : chunks.flatten.length ≤ d.outcomes.countP Outcome.settles) :
    ∃ r, writeChunks s chunks stat d = some r := by
  induction chunks generalizing stat d with
  | nil => exact ⟨_, rfl⟩
  | cons chunk chunks ih =>
    rw [List.flatten_cons, List.length_append] at h
    have hchunk := hpos chunk List.mem_cons_self
    obtain ⟨r, d₁, hblock, hleft⟩ := writeBlock_isSome s.fullblock chunk d.taken hchunk
      (show chunk.length - 0 ≤ d.outcomes.countP Outcome.settles by omega)
    rw [writeChunks]
    simp only [hblock]
    cases r with
    | error e => exact ⟨_, rfl⟩
    | ok wlen => exact ih (fun c hc => hpos c (List.mem_cons_of_mem chunk hc)) _ (by omega)

/-- **Short writes.** The writing ends when the destination gives as many answers as there are bytes. Where it ends without
an error, all bytes were handed over and counted if full blocks are asked for, and else what the first write of each block
took. -/
theorem writeBlocks_spec (s : Settings) (buf : List UInt8) (d : Dest) :
    (buf.length ≤ d.outcomes.countP Outcome.settles → ∃ r, d.writeBlocks s buf = some r) ∧
    ∀ stat d', d.writeBlocks s buf = some (.ok stat, d') →
      (s.fullblock = true → d'.taken = d.taken ++ buf ∧ stat.bytesTotal = buf.length) ∧
      (s.fullblock = false → (chop s.obs buf).length ≤ (accepted d.outcomes).length ∧
        d'.taken = d.taken ++ (firsts (chop s.obs buf) d.outcomes).flatten ∧
        stat.bytesTotal = (firsts (chop s.obs buf) d.outcomes).flatten.length) := by
  have hpos : ∀ chunk ∈ chop s.obs buf, 0 < chunk.length := fun _ h => (length_of_mem_chop s.obs_pos h).1
  have hflatten := flatten_chop s.obs_pos buf
  constructor
  · intro h
    rw [← hflatten] at h
    exact writeChunks_isSome hpos _ h
  · intro stat d' h
    have hok := writeChunks_ok hpos h
    rwa [hflatten, Nat.zero_add, Nat.zero_add] at hok

/-- Two bytes in two writes, with an interruption between them. -/
theorem writeBlocks_spec_interrupted :
    let s : Settings := ⟨2, 2, false, true, none, by decide, by decide, by decide, by decide⟩
    let d : Dest := ⟨[.accepts 0, .interrupted, .accepts 0], []⟩
    d.writeBlocks s [1, 2] = some (.ok ⟨1, 0, 2⟩, ⟨[], [1, 2]⟩) ∧ [1, 2] = d.taken ++ [1, 2] :=
  ⟨rfl, (((writeBlocks_spec ⟨2, 2, false, true, none, by decide, by decide, by decide, by decide⟩ [1, 2]
    ⟨[.accepts 0, .interrupted, .accepts 0], []⟩).2 ⟨1, 0, 2⟩ ⟨[], [1, 2]⟩ rfl).1 rfl).1⟩

/-- Two bytes, a block of two, and a first write that takes one: one byte is not handed over, without an error. -/
theorem short_write_ends_block :
    ¬ ∀ (s : Settings) (buf : List UInt8) (d : Dest) (stat : WriteStat) (d' : Dest),
      d.writeBlocks s buf = some (.ok stat, d') → d'.taken = d.taken ++ buf ∧ stat.bytesTotal = buf.length := by
  intro h
  have hwrite := h ⟨2, 2, false, false, none, by decide, by decide, by decide, by decide⟩ [1, 2] ⟨[.accepts 0], []⟩
    ⟨0, 1, 1⟩ ⟨[], [1]⟩ rfl
  exact absurd hwrite.2 (by decide)

/-! ## Writes that take everything -/

theorem writeBlock_whole (fullblock : Bool) {chunk : List UInt8} {n : Nat} (hn : chunk.length ≤ n + 1)
    (outcomes : List Outcome) (taken : List UInt8) :
    writeBlock fullblock chunk 0 taken (.accepts n :: outcomes) = some (.ok chunk.length, ⟨outcomes, taken ++ chunk⟩) := by
  rw [writeBlock, Nat.zero_add, Nat.sub_zero, Nat.min_eq_right hn, if_pos (.inl (Nat.le_refl _)), List.drop_zero,
    List.take_length]

theorem writeChunks_whole {n : Nat} (hn : s.obs ≤ n + 1) {chunks : List (List UInt8)}
    (hle : ∀ chunk ∈ chunks, chunk.length ≤ s.obs) (stat : WriteStat) (taken : List UInt8) :
    writeChunks s chunks stat ⟨List.replicate chunks.length (.accepts n), taken⟩ =
      some (.ok (stat.add ⟨chunks.countP (¬ ·.length < s.obs), chunks.countP (·.length < s.obs),
        (chunks.map List.length).sum⟩), ⟨[], taken ++ chunks.flatten⟩) := by
  induction chunks generalizing stat taken with
  | nil => simp [writeChunks, WriteStat.add]
  | cons chunk chunks ih =>
    have hchunk := hle chunk List.mem_cons_self
    rw [List.length_cons, List.replicate_succ, writeChunks, writeBlock_whole s.fullblock (Nat.le_trans hchunk hn)]
    simp only
    rw [ih (fun c hc => hle c (List.mem_cons_of_mem chunk hc)), List.flatten_cons, List.append_assoc]
    by_cases hlt : chunk.length < s.obs
    · simp [hlt, WriteStat.add, Nat.add_assoc, Nat.add_comm 1]
    · simp [hlt, WriteStat.add, List.countP_cons, Nat.add_assoc, Nat.add_comm 1]

/-- Such a destination gets what the `Output` of the copy gets, with the same counts. -/
theorem writeBlocks_whole (o : Output) (buf : List UInt8) {n : Nat} (hn : s.obs ≤ n + 1) :
    (Dest.mk (List.replicate (chop s.obs buf).length (.accepts n)) o.writes.flatten).writeBlocks s buf =
      some (.ok (o.writeBlocks s buf).1, ⟨[], (o.writeBlocks s buf).2.writes.flatten⟩) := by
  rw [Dest.writeBlocks, writeChunks_whole hn fun _ h => (length_of_mem_chop s.obs_pos h).2, Output.writeBlocks,
    List.flatten_append]
  simp [WriteStat.add]

end Peiosutils.Dd
