import Mathlib.Algebra.GroupWithZero.Nat
import Mathlib.Data.List.Basic
import Peiosutils.Lib.While

/-!
# All but the last of an input (`take.rs`)

`copyAllButNBytes` and `copyAllButNLines` read buffers ahead (`fillBuffers`), until what is behind the front buffer is
enough to hold back, and then write from the front. An empty buffer that is used again is filled from its start, as a new
one is; a read that is not interrupted gives what comes of it. The input is the list of what the reads give.
-/

set_option autoImplicit false

namespace Peiosutils.Head

open While (Stop)

abbrev Bytes := List UInt8

def usizeMax : Nat := 2 ^ 64 - 1

def bufSize : Nat := 65536

def add (a b : Nat) : Except Stop Nat := if a + b ≤ usizeMax then .ok (a + b) else .error .panic

def sub (a b : Nat) : Except Stop Nat := if b ≤ a then .ok (a - b) else .error .panic

/-! ## Buffers -/

structure TakeAllBuffer where
  buffer : Bytes
  startIndex : Nat
  deriving DecidableEq, Repr

namespace TakeAllBuffer

/-- A buffer that a read has filled. -/
def filled (read : Bytes) : TakeAllBuffer := ⟨read, 0⟩

def remainingBuffer (b : TakeAllBuffer) : Bytes := b.buffer.drop b.startIndex

def remainingBytes (b : TakeAllBuffer) : Nat := b.remainingBuffer.length

/-- What is written, and the buffer behind it. -/
def writeBytesExact (b : TakeAllBuffer) (bytes : Nat) : Except Stop (Bytes × TakeAllBuffer) :=
  if b.remainingBytes < bytes then .error .panic
  else if b.buffer.length < b.startIndex + bytes then .error .panic
  else .ok (b.remainingBuffer.take bytes, { b with startIndex := b.startIndex + bytes })

def writeAll (b : TakeAllBuffer) : Except Stop (Bytes × TakeAllBuffer) := b.writeBytesExact b.remainingBytes

def writeBytesLimit (b : TakeAllBuffer) (maxBytes : Nat) : Except Stop (Bytes × TakeAllBuffer) :=
  b.writeBytesExact (min b.remainingBytes maxBytes)

def isEmpty (b : TakeAllBuffer) : Except Stop Bool :=
  if b.buffer.length < b.startIndex then .error .panic else .ok (b.startIndex == b.buffer.length)

end TakeAllBuffer

structure TakeAllLinesBuffer where
  inner : TakeAllBuffer
  terminatedLines : Nat
  partialLine : Bool
  deriving DecidableEq, Repr

namespace TakeAllLinesBuffer

def filled (separator : UInt8) (read : Bytes) : TakeAllLinesBuffer where
  inner := .filled read
  terminatedLines := read.count separator
  partialLine := match read.getLast? with
    | some c => c != separator
    | none => false

/-- How long the text is up to its `k`-th separator, with it. -/
def lengthOfLines (separator : UInt8) : (k : Nat) → Bytes → Option Nat
  | 0, _ => some 0
  | _ + 1, [] => none
  | k + 1, b :: bs => (lengthOfLines separator (if b = separator then k else k + 1) bs).map (· + 1)

/-- What is written, how many lines it ends, and the buffer behind it. -/
def writeLines (b : TakeAllLinesBuffer) (maxLines : Nat) (separator : UInt8) :
    Except Stop (Bytes × Nat × TakeAllLinesBuffer) :=
  if maxLines = 0 then .error .panic
  else if b.terminatedLines < maxLines then do
    let (out, inner) ← b.inner.writeAll
    return (out, b.terminatedLines, { b with inner := inner, terminatedLines := 0 })
  else
    match lengthOfLines separator maxLines b.inner.remainingBuffer with
    | none => .error .panic
    | some bytesToWrite => do
      let (out, inner) ← b.inner.writeBytesExact bytesToWrite
      let terminatedLines ← sub b.terminatedLines maxLines
      return (out, maxLines, { b with inner := inner, terminatedLines := terminatedLines })

def isEmpty (b : TakeAllLinesBuffer) : Except Stop Bool := b.inner.isEmpty

end TakeAllLinesBuffer

/-! ## Reading ahead -/

/-- The inner loops: buffers are filled until `enough` says that the front one can be written, or the input ends. What
is buffered is counted by `size`. -/
def fillBuffers {β : Type} (filled : Bytes → β) (size : β → Nat) (enough : Nat → β → Except Stop Bool) :
    (unread : List Bytes) → (buffers : List β) → (buffered : Nat) → Except Stop (List β × Nat × List Bytes)
  | [], buffers, buffered => do
    match buffers with
    | [] => return (buffers, buffered, [])
    | front :: _ =>
      let _ ← enough buffered front
      return (buffers, buffered, [])
  | read :: unread, buffers, buffered => do
    let full ←
      match buffers with
      | [] => .ok false
      | front :: _ => enough buffered front
    if full then return (buffers, buffered, read :: unread)
    else
      let buffered ← add buffered (size (filled read))
      fillBuffers filled size enough unread (buffers ++ [filled read]) buffered

/-! ## All but the last bytes -/

structure BytesCopy where
  buffers : List TakeAllBuffer
  bufferedBytes : Nat
  totalBytesCopied : Nat
  unread : List Bytes
  written : Bytes

/-- There are `n` bytes behind the front buffer. -/
def enoughBytes (n bufferedBytes : Nat) (front : TakeAllBuffer) : Except Stop Bool := do
  let needed ← add n front.remainingBytes
  return needed ≤ bufferedBytes

/-- One turn of the outer loop. -/
def copyBytesTurn (n : Nat) (s : BytesCopy) : Except Stop (BytesCopy ⊕ (Bytes × Nat)) := do
  let (buffers, bufferedBytes, unread) ←
    fillBuffers .filled TakeAllBuffer.remainingBytes (enoughBytes n) s.unread s.buffers s.bufferedBytes
  if bufferedBytes ≤ n then return .inr (s.written, s.totalBytesCopied)
  else
    match buffers with
    | [] => .error .panic
    | front :: rest =>
      let (out, front) ← front.writeBytesLimit (bufferedBytes - n)
      let bufferedBytes ← sub bufferedBytes out.length
      let totalBytesCopied ← add s.totalBytesCopied out.length
      let empty ← front.isEmpty
      return .inl ⟨if empty then rest else front :: rest, bufferedBytes, totalBytesCopied, unread, s.written ++ out⟩

/-- What is written, and how many bytes that is. -/
def copyAllButNBytes (n : Nat) (reads : List Bytes) (fuel : Nat) : Except Stop (Bytes × Nat) :=
  While.loop (copyBytesTurn n) fuel ⟨[], 0, 0, reads, []⟩

/-! ## All but the last lines -/

structure LinesCopy where
  buffers : List TakeAllLinesBuffer
  bufferedTerminatedLines : Nat
  totalBytesCopied : Nat
  unread : List Bytes
  written : Bytes

/-- There are more than `n` separators behind the front buffer. -/
def enoughLines (n bufferedTerminatedLines : Nat) (front : TakeAllLinesBuffer) : Except Stop Bool := do
  let needed ← add n front.terminatedLines
  return needed < bufferedTerminatedLines

/-- Whether the last buffer ends within a line; there must be one. -/
def backPartialLine (buffers : List TakeAllLinesBuffer) : Except Stop Bool :=
  match buffers.getLast? with
  | some back => .ok back.partialLine
  | none => .error .panic

/-- No more lines are buffered than are to be held back. -/
def allHeldBack (n : Nat) (buffers : List TakeAllLinesBuffer) (buffered : Nat) : Except Stop Bool :=
  if buffered < n then .ok true
  else if buffered = n then (!·) <$> backPartialLine buffers
  else .ok false

/-- How many lines are buffered beyond those that are to be held back. -/
def linesToWrite (n : Nat) (buffers : List TakeAllLinesBuffer) (buffered : Nat) : Except Stop Nat := do
  let excess ← sub buffered n
  let partialLine ← backPartialLine buffers
  if partialLine then add excess 1 else .ok excess

/-- One turn of the outer loop. -/
def copyLinesTurn (n : Nat) (separator : UInt8) (s : LinesCopy) : Except Stop (LinesCopy ⊕ (Bytes × Nat)) := do
  let (buffers, buffered, unread) ← fillBuffers (.filled separator) TakeAllLinesBuffer.terminatedLines (enoughLines n)
    s.unread s.buffers s.bufferedTerminatedLines
  let done ← allHeldBack n buffers buffered
  if done then return .inr (s.written, s.totalBytesCopied)
  else
    let maxLines ← linesToWrite n buffers buffered
    match buffers with
    | [] => .error .panic
    | front :: rest =>
      let (out, lines, front) ← front.writeLines maxLines separator
      let buffered ← sub buffered lines
      let totalBytesCopied ← add s.totalBytesCopied out.length
      let empty ← front.isEmpty
      return .inl ⟨if empty then rest else front :: rest, buffered, totalBytesCopied, unread, s.written ++ out⟩

/-- What is written, and how many bytes that is. -/
def copyAllButNLines (n : Nat) (separator : UInt8) (reads : List Bytes) (fuel : Nat) : Except Stop (Bytes × Nat) :=
  if n = 0 then .error .panic else While.loop (copyLinesTurn n separator) fuel ⟨[], 0, 0, reads, []⟩

/-! ## The first lines -/

structure TakeLines where
  limit : Nat
  separator : UInt8
  deriving DecidableEq, Repr

namespace TakeLines

/-- How much is taken of what is read, and how many lines are left to take. -/
def scan (separator : UInt8) : (limit : Nat) → Bytes → Nat × Nat
  | limit, [] => (0, limit)
  | limit, b :: bs =>
    if b = separator then
      if limit - 1 = 0 then (1, 0)
      else ((scan separator (limit - 1) bs).1 + 1, (scan separator (limit - 1) bs).2)
    else ((scan separator limit bs).1 + 1, (scan separator limit bs).2)

/-- A call of `read`, where the reader gives `read` for the buffer. -/
def read (t : TakeLines) (read : Bytes) : Bytes × TakeLines :=
  if t.limit = 0 then ([], t)
  else (read.take (scan t.separator t.limit read).1, { t with limit := (scan t.separator t.limit read).2 })

/-- What all calls of `read` give together. -/
def readAll : TakeLines → List Bytes → Bytes
  | _, [] => []
  | t, read :: reads => (t.read read).1 ++ readAll (t.read read).2 reads

end TakeLines

end Peiosutils.Head

/-!
# Reading ahead

`fillBuffers` panics where its count of what is buffered overflows, or where the sum overflows that it compares the count
with. Otherwise it reads on until `bound` is behind the front buffer, or the input ends (`fillBuffers_spec`).
-/

namespace Peiosutils.Head

open While (Stop)

/-- The count does not overflow while buffers are read behind the front one, until there is enough behind it. -/
def Room (bound front : Nat) : (behind : Nat) → List Nat → Prop
  | _, [] => True
  | behind, size :: sizes =>
    behind < bound → front + behind + size ≤ usizeMax ∧ Room bound front (behind + size) sizes

variable {bound front behind : Nat}

theorem room_of_le (h : bound ≤ behind) (sizes : List Nat) : Room bound front behind sizes := by
  cases sizes with
  | nil => trivial
  | cons size sizes => exact fun hlt => absurd h (Nat.not_le.2 hlt)

/-- The sizes one by one. -/
theorem room_iff {sizes : List Nat} : Room bound front behind sizes ↔ ∀ mid size rest, sizes = mid ++ size :: rest →
    behind + mid.sum < bound → front + behind + mid.sum + size ≤ usizeMax := by
  induction sizes generalizing behind with
  | nil => exact ⟨fun _ mid size rest h => by simp at h, fun _ => trivial⟩
  | cons size sizes ih =>
    rw [Room]
    constructor
    · intro h mid size' rest heq hlt
      obtain ⟨hfits, hroom⟩ := h (by omega)
      cases mid with
      | nil =>
        obtain ⟨rfl, rfl⟩ := List.cons.inj heq
        exact hfits
      | cons m mid =>
        obtain ⟨rfl, rfl⟩ := List.cons.inj heq
        rw [List.sum_cons] at hlt ⊢
        have := ih.1 hroom mid size' rest rfl (by omega)
        omega
    · intro h hlt
      refine ⟨h [] size sizes rfl hlt, ih.2 fun mid size' rest heq hmid => ?_⟩
      have := h (size :: mid) size' rest (by rw [heq]; rfl) (by rw [List.sum_cons]; omega)
      rw [List.sum_cons] at this
      omega

/-- What is buffered already has found room. -/
theorem room_append {sizes : List Nat} (h : front + behind + sizes.sum ≤ usizeMax) (more : List Nat) :
    Room bound front behind (sizes ++ more) ↔ Room bound front (behind + sizes.sum) more := by
  induction sizes generalizing behind with
  | nil => simp
  | cons size sizes ih =>
    rw [List.sum_cons] at h ⊢
    rw [List.cons_append, Room, ih (by omega), ← Nat.add_assoc behind size]
    constructor
    · intro hroom
      by_cases hlt : behind < bound
      · exact (hroom hlt).2
      · exact room_of_le (by omega) _
    · intro hroom _
      exact ⟨by omega, hroom⟩

section Fill

variable {β : Type} {filled : Bytes → β} {size : β → Nat} {enough : Nat → β → Except Stop Bool} {n : Nat}

/-- When there is enough behind the front buffer, for a number `n` to hold back. -/
def Tests (size : β → Nat) (n bound : Nat) (enough : Nat → β → Except Stop Bool) : Prop :=
  ∀ buffered front, enough buffered front =
    if n + size front ≤ usizeMax then .ok (decide (bound + size front ≤ buffered)) else .error .panic

/-- The buffers that are filled, where the counts do not overflow. -/
theorem fillBuffers_spec (henough : Tests size n bound enough) (unread : List Bytes) (front : β) (rest : List β)
    (hfit : size front + (rest.map size).sum ≤ usizeMax) :
    (n + size front ≤ usizeMax ∧ Room bound (size front) (rest.map size).sum (unread.map fun read => size (filled read)) ∧
      ∃ taken left buffered, unread = taken ++ left ∧
        fillBuffers filled size enough unread (front :: rest) (size front + (rest.map size).sum) =
          .ok (front :: (rest ++ taken.map filled), buffered, left) ∧
        buffered = size front + ((rest ++ taken.map filled).map size).sum ∧ buffered ≤ usizeMax ∧
        (bound + size front ≤ buffered ∨ left = [])) ∨
      ¬ (n + size front ≤ usizeMax ∧
          Room bound (size front) (rest.map size).sum (unread.map fun read => size (filled read))) ∧
        fillBuffers filled size enough unread (front :: rest) (size front + (rest.map size).sum) = .error .panic := by
  by_cases hn : n + size front ≤ usizeMax
  swap
  · refine .inr ⟨fun h => hn h.1, ?_⟩
    cases unread <;> (rw [fillBuffers]; simp only [henough _ front, if_neg hn]; rfl)
  induction unread generalizing rest with
  | nil =>
    refine .inl ⟨hn, trivial, [], [], _, rfl, ?_, ?_, hfit, .inr rfl⟩
    · rw [fillBuffers]
      simp only [henough _ front, if_pos hn, List.map_nil, List.append_nil]
      rfl
    · rw [List.map_nil, List.append_nil]
  | cons read unread ih =>
    rw [fillBuffers]
    simp only [henough _ front, if_pos hn, bind, Except.bind]
    by_cases hfull : bound + size front ≤ size front + (rest.map size).sum
    · rw [decide_eq_true hfull]
      refine .inl ⟨hn, room_of_le (by omega) _, [], read :: unread, _, rfl, ?_, ?_, hfit, .inl hfull⟩
      · rw [List.map_nil, List.append_nil]
        rfl
      · rw [List.map_nil, List.append_nil]
    · rw [decide_eq_false hfull, List.map_cons, Room]
      simp only [Bool.false_eq_true, if_false]
      have hlt : (rest.map size).sum < bound := by omega
      by_cases hadd : size front + (rest.map size).sum + size (filled read) ≤ usizeMax
      · have hsum : ((rest ++ [filled read]).map size).sum = (rest.map size).sum + size (filled read) := by simp
        have hih := ih (rest ++ [filled read]) (by rw [hsum]; omega)
        rw [hsum] at hih
        rw [add, if_pos hadd]
        simp only [List.cons_append]
        rcases hih with ⟨-, hroom, taken, left, buffered, rfl, hfill, hbuffered, hmax, hend⟩ | ⟨hroom, hfill⟩
        · refine .inl ⟨hn, fun _ => ⟨hadd, hroom⟩, read :: taken, left, buffered, rfl, ?_, ?_, hmax, hend⟩
          · rw [Nat.add_assoc, hfill, List.append_assoc]
            rfl
          · rw [hbuffered, List.append_assoc]
            rfl
        · refine .inr ⟨fun h => hroom ⟨hn, (h.2 hlt).2⟩, ?_⟩
          rw [Nat.add_assoc, hfill]
      · rw [add, if_neg hadd]
        exact .inr ⟨fun h => hadd (h.2 hlt).1, rfl⟩

/-- The same from the text that is left: what is in the buffers and what is not read yet. -/
theorem fillBuffers_left (henough : Tests size n bound enough) {text : β → Bytes} {measure : Bytes → Nat}
    (hfilled : ∀ read, text (filled read) = read ∧ size (filled read) = measure read) {buffers : List β}
    {unread : List Bytes} {c : Bytes} {cs : List Bytes} (hleft : buffers.map text ++ unread = c :: cs)
    (hsize : ∀ b ∈ buffers, size b = measure (text b)) (hfit : (buffers.map size).sum ≤ usizeMax)
    (hunread : ∀ read ∈ unread, measure read ≤ usizeMax) :
    ((n + measure c ≤ usizeMax ∧ Room bound (measure c) 0 (cs.map measure)) ∧
      ∃ front rest buffered left taken,
        fillBuffers filled size enough unread buffers (buffers.map size).sum = .ok (front :: rest, buffered, left) ∧
        front :: rest = buffers ++ taken.map filled ∧ unread = taken ++ left ∧ text front = c ∧
        rest.map text ++ left = cs ∧ buffered = ((front :: rest).map size).sum ∧ buffered ≤ usizeMax ∧
        (bound + measure c ≤ buffered ∨ left = [])) ∨
      ¬ (n + measure c ≤ usizeMax ∧ Room bound (measure c) 0 (cs.map measure)) ∧
        fillBuffers filled size enough unread buffers (buffers.map size).sum = .error .panic := by
  have hmap : ∀ reads : List Bytes, (reads.map filled).map text = reads := fun reads => by
    rw [List.map_map]
    exact (List.map_congr_left fun read _ => (hfilled read).1).trans (List.map_id reads)
  have hsizes : ∀ reads : List Bytes, (reads.map fun read => size (filled read)) = reads.map measure := fun reads =>
    List.map_congr_left fun read _ => (hfilled read).2
  cases buffers with
  | nil =>
    obtain rfl : unread = c :: cs := hleft
    have hc : measure c ≤ usizeMax := hunread c List.mem_cons_self
    have hstart : fillBuffers filled size enough (c :: cs) [] 0 =
        fillBuffers filled size enough cs [filled c] (size (filled c)) := by
      rw [fillBuffers]
      simp only [bind, Except.bind, Bool.false_eq_true, if_false, add, Nat.zero_add, List.nil_append]
      rw [if_pos (by rwa [(hfilled c).2])]
    have hspec := @fillBuffers_spec bound β filled size enough n henough cs (filled c) [] (by simpa [(hfilled c).2] using hc)
    rw [(hfilled c).2, hsizes] at hspec
    simp only [List.map_nil, List.sum_nil, Nat.add_zero] at hspec
    rw [List.map_nil, List.sum_nil, hstart, (hfilled c).2]
    rcases hspec with ⟨hn, hroom, taken, left, buffered, rfl, hfill, hbuffered, hmax, hend⟩ | ⟨hnot, hfill⟩
    · refine .inl ⟨⟨hn, hroom⟩, filled c, taken.map filled, buffered, left, c :: taken, hfill, rfl, rfl, (hfilled c).1,
        by rw [hmap], ?_, hmax, hend⟩
      rw [hbuffered, List.map_cons, List.sum_cons, (hfilled c).2]
      rfl
    · exact .inr ⟨hnot, hfill⟩
  | cons front rest =>
    rw [List.map_cons, List.cons_append] at hleft
    obtain ⟨rfl, rfl⟩ := List.cons.inj hleft
    have hfront := hsize front List.mem_cons_self
    have hrest : rest.map size = (rest.map text).map measure := by
      rw [List.map_map]
      exact List.map_congr_left fun b hb => hsize b (List.mem_cons_of_mem _ hb)
    rw [List.map_cons, List.sum_cons] at hfit ⊢
    have hspec := @fillBuffers_spec bound β filled size enough n henough unread front rest hfit
    have hroom : Room bound (measure (text front)) 0 ((rest.map text ++ unread).map measure) ↔
        Room bound (size front) (rest.map size).sum (unread.map fun read => size (filled read)) := by
      rw [List.map_append, hsizes, ← hrest, ← hfront, room_append (by omega), Nat.zero_add]
    rw [hroom, ← hfront]
    rcases hspec with ⟨hn, hroom', taken, left, buffered, rfl, hfill, hbuffered, hmax, hend⟩ | ⟨hnot, hfill⟩
    · refine .inl ⟨⟨hn, hroom'⟩, front, rest ++ taken.map filled, buffered, left, taken, hfill, rfl, rfl, rfl, ?_,
        hbuffered, hmax, hend⟩
      rw [List.map_append, hmap, List.append_assoc]
    · exact .inr ⟨hnot, hfill⟩

end Fill

/-- The counts do not overflow: at the first read as the front buffer, and at a later one where the loop comes to it. -/
def Fits (n bound : Nat) (measure : Bytes → Nat) (reached : Bytes → List Bytes → Prop) : List Bytes → Prop
  | [] => True
  | front :: after =>
    (n + measure front ≤ usizeMax ∧ Room bound (measure front) 0 (after.map measure)) ∧
      (reached front after → Fits n bound measure reached after)

/-- A smaller front buffer has room as well. -/
theorem Room.mono {front' : Nat} (h : front' ≤ front) {sizes : List Nat} (hroom : Room bound front behind sizes) :
    Room bound front' behind sizes := by
  rw [room_iff] at hroom ⊢
  intro mid size rest heq hlt
  have := hroom mid size rest heq hlt
  omega

/-- What the reads of an input give: it is not empty, and fits a buffer. -/
def IsReads (reads : List Bytes) : Prop := ∀ read ∈ reads, read ≠ [] ∧ read.length ≤ bufSize

instance (reads : List Bytes) : Decidable (IsReads reads) := inferInstanceAs (Decidable (∀ _ ∈ _, _))

end Peiosutils.Head
