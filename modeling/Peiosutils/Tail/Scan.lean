import Mathlib.Algebra.Group.Int.Defs
import Mathlib.Algebra.GroupWithZero.Nat
import Mathlib.Data.List.Induction
import Peiosutils.Lib.LastLines

/-!
# Printing the end of a file (`tail.rs`, `chunks.rs`)

`boundedTail` seeks to where the output starts and prints the rest of the file. For the last lines it reads the file
backwards in blocks, for the lines from one on it reads it forwards.
-/

set_option autoImplicit false

namespace Peiosutils.Tail

/-! ## Settings -/

inductive Signum where
  | negative (count : UInt64)
  | positive (count : UInt64)
  | plusZero
  | minusZero
  deriving DecidableEq, Repr

inductive FilterMode where
  | bytes (signum : Signum)
  /-- Lines that end with the delimiter. -/
  | lines (signum : Signum) (delimiter : UInt8)
  deriving DecidableEq, Repr

/-! ## The file -/

/-- An open file, where offsets up to `maxOffset` can be seeked to. -/
structure File where
  content : List UInt8
  maxOffset : Nat
  position : Nat

inductive SeekFrom where
  | fromStart (offset : UInt64)
  | fromEnd (offset : Int64)
  | fromCurrent (offset : Int64)

namespace File

def rest (f : File) : List UInt8 := f.content.drop f.position

/-- The offset is given to the system as a signed number; none is an error. -/
def seek (f : File) (to' : SeekFrom) : Option File :=
  let target : Int :=
    match to' with
    | .fromStart offset => offset.toInt64.toInt
    | .fromEnd offset => f.content.length + offset.toInt
    | .fromCurrent offset => f.position + offset.toInt
  if 0 ≤ target ∧ target ≤ f.maxOffset then some { f with position := target.toNat } else none

/-- Reads as many bytes; none is an error. -/
def readExact (f : File) (size : Nat) : Option (List UInt8 × File) :=
  if f.position + size ≤ f.content.length then
    some (f.rest.take size, { f with position := f.position + size })
  else none

end File

/-! ## Reading backwards -/

def blockSizeMax : Nat := 2 ^ 16

/-- A number as `f64`: the nearest one of 53 bits, to even. -/
def roundF64 (n : Nat) : Nat :=
  if n < 2 ^ 53 then n
  else
    let unit := 2 ^ (n.log2 - 52)
    let twice := 2 * (n % unit)
    if twice > unit ∨ twice = unit ∧ (n / unit) % 2 = 1 then (n / unit + 1) * unit else n / unit * unit

/-- `ReverseChunks`, without the file. -/
structure ReverseChunks where
  size : Nat
  maxBlocksToRead : Nat
  blockIdx : Nat

namespace ReverseChunks

/-- The file is left at its end. -/
def new (f : File) : Option (ReverseChunks × File) :=
  (f.seek (.fromEnd 0)).map fun end' =>
    let size := end'.position - f.position
    -- the division by a power of two is exact
    (⟨size, (roundF64 size + (blockSizeMax - 1)) / blockSizeMax, 0⟩, end')

def blockSize (chunks : ReverseChunks) : Nat :=
  if chunks.blockIdx = chunks.maxBlocksToRead - 1 then chunks.size % blockSizeMax else blockSizeMax

/-- The block in front of the position, which is left at its start; none is a panic. -/
def readBlock (chunks : ReverseChunks) (f : File) : Option (List UInt8 × ReverseChunks × File) := do
  let back : SeekFrom := .fromCurrent (-(Int64.ofNat chunks.blockSize))
  let f ← f.seek back
  let (buf, f) ← f.readExact chunks.blockSize
  let f ← f.seek back
  some (buf, { chunks with blockIdx := chunks.blockIdx + 1 }, f)

end ReverseChunks

/-- The positions of a byte, from `i` on. -/
def memchrFrom (b : UInt8) : List UInt8 → Nat → List Nat
  | [], _ => []
  | x :: xs, i => if x = b then i :: memchrFrom b xs (i + 1) else memchrFrom b xs (i + 1)

def memchrIter (b : UInt8) (slice : List UInt8) : List Nat := memchrFrom b slice 0

/-- Counts delimiters: the position of the one that makes the count large enough, or the count. -/
def countUntil (numDelimiters : Nat) : List Nat → Nat → Nat ⊕ Nat
  | [], counter => .inr counter
  | i :: rest, counter => if counter + 1 ≥ numDelimiters then .inl i else countUntil numDelimiters rest (counter + 1)

/-- The loop of `backwards_thru_file` over the blocks that are left; none is a panic. -/
def backwardsFrom (numDelimiters : Nat) (delimiter : UInt8) : Nat → ReverseChunks → File → Nat → Bool → Option File
  | 0, _, f, _, _ => some f
  | left + 1, chunks, f, counter, firstSlice =>
    match chunks.readBlock f with
    | none => none
    | some (slice, chunks, f) =>
      let found := (memchrIter delimiter slice).reverse
      -- a delimiter at the end of the file is ignored
      let found := if firstSlice && slice.getLast? == some delimiter then found.tail else found
      match countUntil numDelimiters found counter with
      | .inl i => f.seek (.fromCurrent (Int64.ofNat (i + 1)))
      | .inr counter => backwardsFrom numDelimiters delimiter left chunks f counter false

def backwardsThruFile (f : File) (numDelimiters : Nat) (delimiter : UInt8) : Option File :=
  if numDelimiters = 0 then f.seek (.fromEnd 0)
  else
    (ReverseChunks.new f).bind fun (chunks, f) =>
      backwardsFrom numDelimiters delimiter chunks.maxBlocksToRead chunks f 0 true

/-! ## Reading forwards -/

/-- A text as it is read: in pieces, none of them empty. -/
structure Reads (content : List UInt8) where
  pieces : List (List UInt8)
  nonempty : ∀ p ∈ pieces, p ≠ []
  flatten_eq : pieces.flatten = content

/-- The loop of `forwards_thru_file` over what is still to be read. -/
def forwardsFrom (numDelimiters : Nat) (delimiter : UInt8) : List (List UInt8) → Nat → Nat → Nat
  | [], total, _ => total
  | buf :: rest, total, count =>
    match countUntil numDelimiters (memchrIter delimiter buf) count with
    | .inl offset => total + offset + 1
    | .inr count => forwardsFrom numDelimiters delimiter rest (total + buf.length) count

def forwardsThruFile (reads : List (List UInt8)) (numDelimiters : Nat) (delimiter : UInt8) : Nat :=
  if numDelimiters = 0 then 0 else forwardsFrom numDelimiters delimiter reads 0 0

/-! ## The output -/

/-- What is printed of the file from its position on. -/
def printTargetSection (f : File) (limit : Option UInt64) : List UInt8 :=
  match limit with
  | some limit => f.rest.take limit.toNat
  | none => f.rest

/-- The output for a file that is at its start and is read in pieces; none is a panic. -/
def boundedTail (content : List UInt8) (maxOffset : Nat) (reads : Reads content) : FilterMode → Option (List UInt8)
  | .lines (.negative count) delimiter =>
    (backwardsThruFile ⟨content, maxOffset, 0⟩ count.toNat delimiter).map (printTargetSection · none)
  | .lines (.positive count) delimiter =>
    let f : File := ⟨content, maxOffset, 0⟩
    if count > 1 then
      let i := forwardsThruFile reads.pieces (count - 1).toNat delimiter
      (f.seek (.fromStart (UInt64.ofNat i))).map (printTargetSection · none)
    else some (printTargetSection f none)
  | .lines .minusZero _ => (File.seek ⟨content, maxOffset, 0⟩ (.fromEnd 0)).map (printTargetSection · none)
  | .lines .plusZero _ => some (printTargetSection ⟨content, maxOffset, 0⟩ none)
  | .bytes (.negative count) =>
    let f : File := ⟨content, maxOffset, 0⟩
    match f.seek (.fromEnd (-count.toInt64)) with
    | some f => some (printTargetSection f (some count))
    | none => (f.seek (.fromStart 0)).map (printTargetSection · (some count))
  | .bytes (.positive count) =>
    let f : File := ⟨content, maxOffset, 0⟩
    if count > 1 then (f.seek (.fromStart (count - 1))).map (printTargetSection · none)
    else some (printTargetSection f none)
  | .bytes .minusZero => (File.seek ⟨content, maxOffset, 0⟩ (.fromEnd 0)).map (printTargetSection · none)
  | .bytes .plusZero => some (printTargetSection ⟨content, maxOffset, 0⟩ none)

end Peiosutils.Tail

/-!
# Printing the end of what is piped (`tail.rs`, `chunks.rs`)

`unboundedTail` reads its input once, in chunks. For the last bytes or lines it keeps the chunks that may be needed, and
drops the first of them when those behind it are enough.
-/

namespace Peiosutils.Tail

/-! ## The last bytes -/

/-- `BytesChunk::from_chunk`, for the bytes that the chunk holds. -/
def BytesChunk.fromChunk (chunk : List UInt8) (offset : Nat) : List UInt8 :=
  if offset ≥ chunk.length then [] else chunk.drop offset

structure BytesChunkBuffer where
  bytes : Nat
  chunks : List (List UInt8)

namespace BytesChunkBuffer

def new : BytesChunkBuffer := ⟨0, []⟩

/-- One turn of the loop of `fill`: a chunk is added, and the first one is dropped where the others are enough. -/
def push (numPrint : Nat) (buffer : BytesChunkBuffer) (chunk : List UInt8) : BytesChunkBuffer :=
  let bytes := buffer.bytes + chunk.length
  match buffer.chunks ++ [chunk] with
  | [] => buffer
  | first :: others =>
    if bytes - first.length > numPrint then ⟨bytes - first.length, others⟩ else ⟨bytes, first :: others⟩

def fill (numPrint : Nat) (reads : List (List UInt8)) : BytesChunkBuffer :=
  let buffer := reads.foldl (push numPrint) new
  match buffer.chunks with
  | [] => buffer
  | chunk :: others => { buffer with chunks := BytesChunk.fromChunk chunk (buffer.bytes - numPrint) :: others }

def write (buffer : BytesChunkBuffer) : List UInt8 := buffer.chunks.flatten

end BytesChunkBuffer

/-! ## The last lines -/

structure LinesChunk where
  chunk : List UInt8
  lines : Nat

namespace LinesChunk

def ofRead (delimiter : UInt8) (read : List UInt8) : LinesChunk := ⟨read, (memchrIter delimiter read).length⟩

/-- The bytes up to the given number of delimiters. -/
def calculateBytesOffsetFrom (delimiter : UInt8) : List UInt8 → Nat → Nat
  | [], _ => 0
  | _ :: _, 0 => 0
  | byte :: rest, linesOffset + 1 =>
    calculateBytesOffsetFrom delimiter rest (if byte = delimiter then linesOffset else linesOffset + 1) + 1

def fromChunk (delimiter : UInt8) (chunk : LinesChunk) (offset : Nat) : LinesChunk :=
  if offset > chunk.lines then ⟨[], 0⟩
  else
    ⟨BytesChunk.fromChunk chunk.chunk (calculateBytesOffsetFrom delimiter chunk.chunk offset), chunk.lines - offset⟩

end LinesChunk

structure LinesChunkBuffer where
  lines : Nat
  chunks : List LinesChunk

namespace LinesChunkBuffer

def new : LinesChunkBuffer := ⟨0, []⟩

/-- One turn of the loop of `fill`. -/
def push (delimiter : UInt8) (numPrint : Nat) (buffer : LinesChunkBuffer) (read : List UInt8) : LinesChunkBuffer :=
  let chunk := LinesChunk.ofRead delimiter read
  let lines := buffer.lines + chunk.lines
  match buffer.chunks ++ [chunk] with
  | [] => buffer
  | first :: others =>
    if lines - first.lines > numPrint then ⟨lines - first.lines, others⟩ else ⟨lines, first :: others⟩

/-- An open line at the end is counted. -/
def countOpen (delimiter : UInt8) (buffer : LinesChunkBuffer) : LinesChunkBuffer :=
  match buffer.chunks.getLast? with
  | none => buffer
  | some last =>
    if last.chunk.getLast? = some delimiter then buffer
    else ⟨buffer.lines + 1, buffer.chunks.dropLast ++ [{ last with lines := last.lines + 1 }]⟩

/-- Chunks are dropped as long as there are enough lines behind them; none is a panic. -/
def skipChunks (numPrint : Nat) : Nat → List LinesChunk → Option (Nat × LinesChunk × List LinesChunk)
  | _, [] => none
  | lines, chunk :: others =>
    if lines - chunk.lines > numPrint then skipChunks numPrint (lines - chunk.lines) others
    else some (lines, chunk, others)

def fill (delimiter : UInt8) (numPrint : Nat) (reads : List (List UInt8)) : Option LinesChunkBuffer :=
  let buffer := reads.foldl (push delimiter numPrint) new
  if buffer.chunks = [] then some buffer
  else
    let buffer := buffer.countOpen delimiter
    (skipChunks numPrint buffer.lines buffer.chunks).map fun (lines, chunk, others) =>
      ⟨lines, LinesChunk.fromChunk delimiter chunk (lines - numPrint) :: others⟩

def write (buffer : LinesChunkBuffer) : List UInt8 := buffer.chunks.flatMap (·.chunk)

end LinesChunkBuffer

/-! ## From one line or byte on -/

/-- Lines are skipped chunk by chunk, and the rest is copied. -/
def skipLines (delimiter : UInt8) : List (List UInt8) → Nat → List UInt8
  | [], _ => []
  | chunk :: rest, numSkip =>
    let lines := (memchrIter delimiter chunk).length
    if lines < numSkip then skipLines delimiter rest (numSkip - lines)
    else chunk.drop (LinesChunk.calculateBytesOffsetFrom delimiter chunk numSkip) ++ rest.flatten

/-- Bytes are skipped chunk by chunk, and the rest is copied. -/
def skipBytes : List (List UInt8) → Nat → List UInt8
  | [], _ => []
  | chunk :: rest, numSkip =>
    if chunk.length < numSkip then skipBytes rest (numSkip - chunk.length)
    else if chunk.length = numSkip then rest.flatten
    else chunk.drop numSkip ++ rest.flatten

/-! ## The output -/

/-- The output for an input that is read in pieces; none is a panic. -/
def unboundedTail {content : List UInt8} (reads : Reads content) : FilterMode → Option (List UInt8)
  | .lines (.negative count) sep => (LinesChunkBuffer.fill sep count.toNat reads.pieces).map (·.write)
  | .lines .plusZero _ => some reads.pieces.flatten
  | .lines (.positive count) sep =>
    some (if count = 1 then reads.pieces.flatten else skipLines sep reads.pieces (count - 1).toNat)
  | .bytes (.negative count) => some (BytesChunkBuffer.fill count.toNat reads.pieces).write
  | .lines .minusZero sep => (LinesChunkBuffer.fill sep 0 reads.pieces).map (·.write)
  | .bytes .plusZero => some reads.pieces.flatten
  | .bytes (.positive count) =>
    some (if count = 1 then reads.pieces.flatten else skipBytes reads.pieces (count - 1).toNat)
  | .bytes .minusZero => some []

end Peiosutils.Tail

/-!
# Seeking, and counting delimiters

What `seek` does for the offsets that `tail` asks for, and what `countUntil` finds among the positions of a delimiter,
from the front (`countUntil_memchr`) and from the back (`countUntil_memrchr`).
-/

namespace Peiosutils.Tail

open Lines

/-! ## Seeking -/

theorem toInt64_eq (n : UInt64) : n.toInt64 = Int64.ofNat n.toNat := by
  rw [← UInt64.toInt64_ofNat', UInt64.ofNat_toNat]

theorem toNat_neg {n : UInt64} (h : 0 < n.toNat) : (-n).toNat = 2 ^ 64 - n.toNat := by
  rw [UInt64.toNat_neg]
  exact Nat.mod_eq_of_lt (Nat.sub_lt (by decide) h)

/-- The numbers from `2 ^ 63` on are negative for the system. -/
theorem toInt_toInt64 (n : UInt64) :
    n.toInt64.toInt = if n.toNat < 2 ^ 63 then (n.toNat : Int) else (n.toNat : Int) - 2 ^ 64 := by
  split
  · rename_i h
    rw [toInt64_eq, Int64.toInt_ofNat_of_lt h]
  · rename_i h
    have hn := n.toNat_lt
    have hneg : n = -(-n) := by rw [UInt64.neg_neg]
    rw [hneg, UInt64.toInt64_neg, toInt64_eq (-n), toNat_neg (by omega), Int64.toInt_neg_ofNat_of_le (by omega)]
    have hsame : (-(-n)).toNat = n.toNat := by rw [UInt64.neg_neg]
    rw [hsame]
    omega

theorem toInt_neg_toInt64 (n : UInt64) :
    (-n.toInt64).toInt = if n.toNat ≤ 2 ^ 63 then -(n.toNat : Int) else 2 ^ 64 - (n.toNat : Int) := by
  split
  · rename_i h
    rw [toInt64_eq, Int64.toInt_neg_ofNat_of_le h]
  · rename_i h
    have hn := n.toNat_lt
    rw [← UInt64.toInt64_neg, toInt64_eq, toNat_neg (by omega), Int64.toInt_ofNat_of_lt (by omega)]
    omega

namespace File

variable {f : File}

theorem seek_fromStart (hmax : f.maxOffset < 2 ^ 63) (n : UInt64) :
    f.seek (.fromStart n) = if n.toNat ≤ f.maxOffset then some { f with position := n.toNat } else none := by
  have hn := n.toNat_lt
  unfold seek
  simp only [toInt_toInt64]
  by_cases h : n.toNat ≤ f.maxOffset
  · rw [if_pos h, if_pos (show n.toNat < 2 ^ 63 by omega), if_pos (by omega), Int.toNat_natCast]
  · rw [if_neg h, if_neg]
    split <;> omega

theorem seek_end (hlen : f.content.length ≤ f.maxOffset) :
    f.seek (.fromEnd 0) = some { f with position := f.content.length } := by
  unfold seek
  simp only [Int64.toInt_zero, Int.add_zero]
  rw [if_pos (by omega), Int.toNat_natCast]

/-- A count above `2 ^ 63` leads behind the end. -/
theorem seek_last (hlen : f.content.length ≤ f.maxOffset) (hmax : f.maxOffset < 2 ^ 63) (n : UInt64) :
    f.seek (.fromEnd (-n.toInt64)) =
      if n.toNat ≤ 2 ^ 63 then
        if n.toNat ≤ f.content.length then some { f with position := f.content.length - n.toNat } else none
      else if f.content.length + (2 ^ 64 - n.toNat) ≤ f.maxOffset then
        some { f with position := f.content.length + (2 ^ 64 - n.toNat) }
      else none := by
  have hn := n.toNat_lt
  unfold seek
  simp only [toInt_neg_toInt64]
  by_cases h63 : n.toNat ≤ 2 ^ 63
  · simp only [if_pos h63]
    by_cases h : n.toNat ≤ f.content.length
    · rw [if_pos h, if_pos (by omega)]
      congr 2
      omega
    · rw [if_neg h, if_neg (by omega)]
  · simp only [if_neg h63]
    by_cases h : f.content.length + (2 ^ 64 - n.toNat) ≤ f.maxOffset
    · rw [if_pos h, if_pos (by omega)]
      congr 2
      omega
    · rw [if_neg h, if_neg (by omega)]

theorem seek_back {k : Nat} (hk : k ≤ 2 ^ 63) (hpos : k ≤ f.position) (hmax : f.position ≤ f.maxOffset) :
    f.seek (.fromCurrent (-(Int64.ofNat k))) = some { f with position := f.position - k } := by
  unfold seek
  simp only [Int64.toInt_neg_ofNat_of_le hk]
  rw [if_pos (by omega)]
  congr 2
  omega

theorem seek_forward {k : Nat} (hk : k < 2 ^ 63) (hmax : f.position + k ≤ f.maxOffset) :
    f.seek (.fromCurrent (Int64.ofNat k)) = some { f with position := f.position + k } := by
  unfold seek
  simp only [Int64.toInt_ofNat_of_lt hk]
  rw [if_pos (by omega)]
  congr 2

end File

/-! ## Counting delimiters -/

variable {b : UInt8}

theorem length_memchrFrom (l : List UInt8) (i : Nat) : (memchrFrom b l i).length = l.count b := by
  induction l generalizing i with
  | nil => rfl
  | cons x l ih =>
    rw [memchrFrom, List.count_cons]
    split
    · rename_i h
      rw [List.length_cons, ih, if_pos (beq_iff_eq.2 h)]
    · rename_i h
      rw [ih, if_neg (by simpa using h), Nat.add_zero]

theorem length_memchrIter (l : List UInt8) : (memchrIter b l).length = l.count b := length_memchrFrom l 0

theorem memchrFrom_append_singleton (l : List UInt8) (x : UInt8) (i : Nat) :
    memchrFrom b (l ++ [x]) i = memchrFrom b l i ++ if x = b then [i + l.length] else [] := by
  induction l generalizing i with
  | nil =>
    rw [List.nil_append, memchrFrom, memchrFrom, memchrFrom]
    split <;> rfl
  | cons y l ih =>
    rw [List.cons_append, memchrFrom, memchrFrom, ih, List.length_cons, Nat.add_right_comm i 1, Nat.add_assoc i]
    split <;> rfl

/-- From the front the count is reached at the delimiter behind which the rest is left. -/
theorem countUntil_memchr (l : List UInt8) : ∀ i counter num : Nat, counter < num →
    (counter + l.count b < num ∧ countUntil num (memchrFrom b l i) counter = .inr (counter + l.count b)) ∨
    ∃ j, j < l.length ∧ num ≤ counter + l.count b ∧ countUntil num (memchrFrom b l i) counter = .inl (i + j) ∧
      l.drop (j + 1) = skip b (num - counter) l := by
  induction l with
  | nil =>
    intro i counter num h
    exact Or.inl ⟨h, rfl⟩
  | cons x l ih =>
    intro i counter num h
    obtain ⟨k, rfl⟩ : ∃ k, num = counter + (k + 1) := ⟨num - counter - 1, by omega⟩
    rw [memchrFrom, List.count_cons, Nat.add_sub_cancel_left, skip, List.length_cons]
    by_cases hx : x = b
    · rw [if_pos hx, if_pos hx, if_pos (beq_iff_eq.2 hx), countUntil]
      by_cases hk : k = 0
      · subst hk
        refine Or.inr ⟨0, by omega, by omega, ?_, by simp⟩
        rw [if_pos (by omega), Nat.add_zero]
      · rw [if_neg (by omega)]
        obtain ⟨hlt, hrun⟩ | ⟨j, hj, hle, hrun, hskip⟩ := ih (i + 1) (counter + 1) (counter + (k + 1)) (by omega)
        · refine Or.inl ⟨by omega, ?_⟩
          rw [hrun]
          congr 1
          omega
        · refine Or.inr ⟨j + 1, by omega, by omega, ?_, ?_⟩
          · rw [hrun]
            congr 1
            omega
          · rw [List.drop_succ_cons, hskip]
            congr 1
            omega
    · rw [if_neg hx, if_neg hx, if_neg (by simpa using hx), Nat.add_zero]
      obtain ⟨hlt, hrun⟩ | ⟨j, hj, hle, hrun, hskip⟩ := ih (i + 1) counter (counter + (k + 1)) (by omega)
      · exact Or.inl ⟨hlt, hrun⟩
      · refine Or.inr ⟨j + 1, by omega, hle, ?_, ?_⟩
        · rw [hrun]
          congr 1
          omega
        · rw [List.drop_succ_cons, hskip, Nat.add_sub_cancel_left]

/-- From the back the count is reached at a delimiter behind which all the others are counted. -/
theorem countUntil_memrchr (l : List UInt8) : ∀ counter num : Nat, counter < num →
    (counter + l.count b < num ∧ countUntil num (memchrIter b l).reverse counter = .inr (counter + l.count b)) ∨
    ∃ j, l[j]? = some b ∧ countUntil num (memchrIter b l).reverse counter = .inl j ∧
      counter + (l.drop (j + 1)).count b + 1 = num := by
  induction l using List.reverseRecOn with
  | nil =>
    intro counter num h
    exact Or.inl ⟨h, rfl⟩
  | append_singleton l x ih =>
    intro counter num h
    unfold memchrIter at ih ⊢
    rw [memchrFrom_append_singleton, List.reverse_append, List.count_append, Nat.zero_add]
    have hold : ∀ j, l[j]? = some b → (l ++ [x])[j]? = some b ∧ j + 1 ≤ l.length := by
      intro j hj
      obtain ⟨hlt, -⟩ := List.getElem?_eq_some_iff.1 hj
      exact ⟨by rw [List.getElem?_append_left hlt, hj], hlt⟩
    by_cases hx : x = b
    · subst hx
      rw [if_pos rfl, List.reverse_singleton, List.singleton_append, countUntil, List.count_singleton_self]
      by_cases hnum : counter + 1 ≥ num
      · refine Or.inr ⟨l.length, by simp, by rw [if_pos hnum], ?_⟩
        rw [List.drop_of_length_le (by simp), List.count_nil]
        omega
      · rw [if_neg hnum]
        obtain ⟨hlt, hrun⟩ | ⟨j, hj, hrun, hcount⟩ := ih (counter + 1) num (by omega)
        · refine Or.inl ⟨by omega, ?_⟩
          rw [hrun]
          congr 1
          omega
        · refine Or.inr ⟨j, (hold j hj).1, hrun, ?_⟩
          rw [List.drop_append_of_le_length (hold j hj).2, List.count_append, List.count_singleton_self]
          omega
    · have hcount : [x].count b = 0 := List.count_eq_zero.2 (by simpa using Ne.symm hx)
      rw [if_neg hx, List.reverse_nil, List.nil_append, hcount, Nat.add_zero]
      obtain h | ⟨j, hj, hrun, hj'⟩ := ih counter num h
      · exact Or.inl h
      · refine Or.inr ⟨j, (hold j hj).1, hrun, ?_⟩
        rw [List.drop_append_of_le_length (hold j hj).2, List.count_append, hcount]
        exact hj'

end Peiosutils.Tail
