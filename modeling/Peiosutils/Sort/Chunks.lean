import Mathlib.Algebra.GroupWithZero.Nat
import Mathlib.Algebra.Order.Group.Nat
import Peiosutils.Lib.Lines

/-!
# Reading the input in chunks (`chunks.rs`)

`readToBuffer` fills a buffer from the files, one read after the other, until it is full and holds two lines or the
input ends. `read` sends the lines of what was filled and carries the rest over to the next call, and `readAll` calls it
until there is no more.
-/

set_option autoImplicit false

namespace Peiosutils.Sort

open Lines

def allocChunkSize : Nat := 64 * 1024

/-! ## Readers -/

/-- What one read of a file gives, if there is room for it. -/
inductive Pull where
  | data (b : UInt8) (bs : List UInt8)
  | interrupted
  | failed (message : String)
  deriving DecidableEq, Repr

/-- A file as its reads give it. -/
abbrev Reader := List Pull

/-- The result of `file.read`. -/
inductive Got where
  | bytes (bs : List UInt8)
  | interrupted
  | failed (message : String)
  deriving DecidableEq, Repr

/-- `file.read(target)`, for a target of `n` bytes. -/
def Reader.read (n : Nat) : Reader → Got × Reader
  | [] => (.bytes [], [])
  | pull :: rest =>
    if n = 0 then (.bytes [], pull :: rest)
    else
      match pull with
      | .interrupted => (.interrupted, rest)
      | .failed message => (.failed message, rest)
      | .data b bs =>
        match bs.drop (n - 1) with
        | [] => (.bytes (b :: bs), rest)
        | b' :: bs' => (.bytes (b :: bs.take (n - 1)), .data b' bs' :: rest)

/-- The bytes of a file. -/
def Reader.content (r : Reader) : List UInt8 :=
  r.flatMap fun
    | .data b bs => b :: bs
    | _ => []

/-- How many reads and bytes there are to come. -/
def Reader.size (r : Reader) : Nat :=
  (r.map fun
    | .data _ bs => bs.length + 1
    | _ => 1).sum

/-! ## Filling the buffer -/

/-- The state of the loop of `read_to_buffer`. The buffer is `text ++ target`, with `target` still to be read into. -/
structure Loop where
  file : Reader
  nextFiles : List (Except String Reader)
  text : List UInt8
  target : List UInt8
  lastFileEmpty : Bool
  newlineSearchOffset : Nat
  foundNewline : Bool

/-- The bytes that can now be taken as lines, whether to call again, and the buffer and files at the end. -/
structure Filled where
  read : Nat
  shouldContinue : Bool
  buffer : List UInt8
  file : Reader
  nextFiles : List (Except String Reader)

/-- `memchr_iter(separator, segment)`. -/
def separators (separator : UInt8) (segment : List UInt8) : List Nat :=
  (List.range segment.length).filter fun i => segment[i]? = some separator

namespace Loop

/-- A full buffer may still be grown up to the maximum. -/
def mayGrow (maxBufferSize : Option Nat) (s : Loop) : Bool := maxBufferSize.any (s.text.length < ·)

def grow (s : Loop) : Loop := { s with target := List.replicate allocChunkSize 0 }

/-- The separators that are looked at when the buffer is full; their indices count from the search offset. -/
def found (separator : UInt8) (s : Loop) : List Nat := separators separator (s.text.drop s.newlineSearchOffset)

/-- Enough lines are in a full buffer. -/
def enough (separator : UInt8) (s : Loop) : Bool := s.foundNewline || 1 < (s.found separator).length

/-- A file that did not end with a separator gets one. -/
def endFile (separator : UInt8) (s : Loop) : Loop :=
  if !s.lastFileEmpty && s.text.getLast? ≠ some separator then
    { s with text := s.text ++ [separator], target := s.target.drop 1 }
  else s

/-- One turn of the loop. -/
def step (maxBufferSize : Option Nat) (separator : UInt8) (s : Loop) : Loop ⊕ Except String Filled :=
  match s.file.read s.target.length with
  | (.failed message, _) => .inr (.error message)
  | (.interrupted, file) => .inl { s with file }
  | (.bytes [], file) =>
    if s.target = [] then
      if s.mayGrow maxBufferSize then .inl s.grow
      else
        match (s.found separator).getLast? with
        | some lastLineEnd =>
          if s.enough separator then .inr (.ok ⟨lastLineEnd + 1, true, s.text, file, s.nextFiles⟩)
          else .inl { s.grow with newlineSearchOffset := s.text.length, foundNewline := true }
        | none => .inl { s.grow with newlineSearchOffset := s.text.length }
    else
      let s := s.endFile separator
      match s.nextFiles with
      | .ok next :: nextFiles => .inl { s with file := next, nextFiles, lastFileEmpty := true }
      | .error message :: _ => .inr (.error message)
      | [] => .inr (.ok ⟨s.text.length, false, s.text ++ s.target, file, []⟩)
  | (.bytes bs, file) =>
    .inl { s with file, text := s.text ++ bs, target := s.target.drop bs.length, lastFileEmpty := false }

def nextSize : List (Except String Reader) → Nat
  | [] => 0
  | .ok next :: nextFiles => next.size + 1 + nextSize nextFiles
  | .error _ :: nextFiles => nextSize nextFiles

/-- What gets smaller with each turn. -/
def work (s : Loop) : Nat := 2 * (s.file.size + nextSize s.nextFiles) + if s.target = [] then 1 else 0

theorem read_bytes {n : Nat} {r file : Reader} {bs : List UInt8} (h : r.read n = (.bytes bs, file)) :
    bs ++ file.content = r.content ∧ bs.length ≤ n ∧ file.size + bs.length ≤ r.size ∧
      (bs = [] → 0 < n → r = [] ∧ file = []) := by
  unfold Reader.read at h
  split at h
  · cases h
    simp
  · rename_i pull rest
    split at h
    · cases h
      simp_all
    · rename_i hn
      split at h
      · cases h
      · cases h
      · rename_i b cs
        split at h
        · rename_i hdrop
          cases h
          rw [List.drop_eq_nil_iff] at hdrop
          refine ⟨by simp [Reader.content], ?_, ?_, by simp⟩
          · rw [List.length_cons]
            omega
          · simp only [Reader.size, List.map_cons, List.sum_cons, List.length_cons]
            omega
        · rename_i b' cs' hdrop
          cases h
          have hcs := List.take_append_drop (n - 1) cs
          have hlen := congrArg List.length hcs
          rw [hdrop] at hcs hlen
          rw [List.length_append, List.length_cons] at hlen
          refine ⟨?_, ?_, ?_, by simp⟩
          · have hcat : List.take (n - 1) cs ++ b' :: (cs' ++ Reader.content rest) = cs ++ Reader.content rest := by
              conv_rhs => rw [← hcs]
              simp
            exact congrArg (b :: ·) hcat
          · rw [List.length_cons, List.length_take]
            omega
          · simp only [Reader.size, List.map_cons, List.sum_cons, List.length_cons]
            omega

theorem read_interrupted {n : Nat} {r file : Reader} (h : r.read n = (.interrupted, file)) :
    file.content = r.content ∧ file.size < r.size := by
  unfold Reader.read at h
  split at h
  · cases h
  · split at h
    · cases h
    · split at h
      · cases h
        exact ⟨rfl, by simp [Reader.size]⟩
      · cases h
      · split at h <;> cases h

theorem zeros_ne_nil : List.replicate allocChunkSize (0 : UInt8) ≠ [] := by
  intro h
  have := congrArg List.length h
  rw [List.length_replicate] at this
  exact absurd this (by decide)

/-- Each turn leaves less to do. -/
theorem work_step {maxBufferSize : Option Nat} {separator : UInt8} {s s' : Loop}
    (h : s.step maxBufferSize separator = .inl s') : s'.work < s.work := by
  unfold step at h
  split at h
  · cases h
  · rename_i file hread
    cases h
    have := (read_interrupted hread).2
    simp only [work]
    omega
  · rename_i file hread
    obtain ⟨_, _, hsize, _⟩ := read_bytes hread
    split at h
    · rename_i htarget
      have hgrow : ∀ t : Loop, t.target = List.replicate allocChunkSize 0 → t.file = s.file → t.nextFiles = s.nextFiles →
          t.work < s.work := by
        intro t ht hf hn
        simp only [work, ht, hf, hn, if_neg zeros_ne_nil, if_pos htarget]
        omega
      split at h
      · cases h
        exact hgrow _ rfl rfl rfl
      · split at h
        · split at h
          · cases h
          · cases h
            exact hgrow _ rfl rfl rfl
        · cases h
          exact hgrow _ rfl rfl rfl
    · rename_i htarget
      have hnext : (s.endFile separator).nextFiles = s.nextFiles := by
        unfold endFile
        split <;> rfl
      simp only [hnext] at h
      split at h
      · rename_i next nextFiles hnf
        cases h
        simp only [work, hnf, nextSize, htarget]
        split <;> split <;> omega
      · cases h
      · cases h
  · rename_i bs file hne hread
    obtain ⟨_, _, hsize, _⟩ := read_bytes hread
    have hpos : 0 < bs.length := List.length_pos_iff.2 hne
    cases h
    simp only [work]
    split <;> split <;> omega

end Loop

/-- The loop. -/
def readToBuffer (maxBufferSize : Option Nat) (separator : UInt8) (s : Loop) : Except String Filled :=
  match _h : s.step maxBufferSize separator with
  | .inl s' => readToBuffer maxBufferSize separator s'
  | .inr filled => filled
termination_by s.work
decreasing_by exact Loop.work_step _h

theorem readToBuffer_inl {maxBufferSize : Option Nat} {separator : UInt8} {s s' : Loop}
    (h : s.step maxBufferSize separator = .inl s') :
    readToBuffer maxBufferSize separator s = readToBuffer maxBufferSize separator s' := by
  rw [readToBuffer]
  split
  · rename_i h'
    rw [h] at h'
    cases h'
    rfl
  · rename_i h'
    rw [h] at h'
    cases h'

theorem readToBuffer_inr {maxBufferSize : Option Nat} {separator : UInt8} {s : Loop} {filled : Except String Filled}
    (h : s.step maxBufferSize separator = .inr filled) : readToBuffer maxBufferSize separator s = filled := by
  rw [readToBuffer]
  split
  · rename_i h'
    rw [h] at h'
    cases h'
  · rename_i h'
    rw [h] at h'
    cases h'
    rfl

/-! ## Chunks -/

/-- The lines of the bytes of a chunk. -/
def parseLines (separator : UInt8) (read : List UInt8) : List (List UInt8) :=
  (chomp separator read).splitOn separator

/-- What is left to read between two calls. -/
structure Input where
  carryOver : List UInt8
  file : Reader
  nextFiles : List (Except String Reader)
  deriving DecidableEq

/-- The loop at the start of a call, with the carried bytes in front of the buffer. -/
def Input.start (input : Input) (buffer : List UInt8) : Loop where
  file := input.file
  nextFiles := input.nextFiles
  text := input.carryOver
  target := buffer.drop input.carryOver.length
  lastFileEmpty := true
  newlineSearchOffset := 0
  foundNewline := false

/-- One call: the chunk that is sent, if there is one, and whether to call again. -/
def read (maxBufferSize : Option Nat) (separator : UInt8) (buffer : List UInt8) (input : Input) :
    Except String (Option (List (List UInt8)) × Bool × Input) := do
  let filled ← readToBuffer maxBufferSize separator (input.start buffer)
  let chunk := if filled.read ≠ 0 then some (parseLines separator (filled.buffer.take filled.read)) else none
  return (chunk, filled.shouldContinue, ⟨filled.buffer.drop filled.read, filled.file, filled.nextFiles⟩)

/-- Calls until there is no more, the `n`-th with the `n`-th buffer: what was sent, and the error, if there was one. -/
def readAll (maxBufferSize : Option Nat) (separator : UInt8) (buffers : Nat → List UInt8) :
    (fuel n : Nat) → Input → Option (List (List (List UInt8)) × Option String)
  | 0, _, _ => none
  | fuel + 1, n, input =>
    match read maxBufferSize separator (buffers n) input with
    | .error message => some ([], some message)
    | .ok (chunk, shouldContinue, input) =>
      if shouldContinue then
        (readAll maxBufferSize separator buffers fuel (n + 1) input).map fun r => (chunk.toList ++ r.1, r.2)
      else some (chunk.toList, none)

end Peiosutils.Sort
