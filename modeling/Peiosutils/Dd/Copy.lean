import Mathlib.Algebra.GroupWithZero.Nat
import Mathlib.Data.List.DropRight
import Mathlib.Tactic.Common
import Peiosutils.Lib.Cuts
import Peiosutils.Lib.Lines

/-!
# Copying in blocks (`dd.rs`, `bufferedoutput.rs`)

`ddCopy` reads blocks of `ibs` bytes into a buffer and writes it in blocks of `obs` bytes, until nothing is left to read.
-/

set_option autoImplicit false

namespace Peiosutils.Dd

open Chop

/-- The settings, without a count and without conversions but `sync`. -/
structure Settings where
  ibs : Nat
  obs : Nat
  buffered : Bool
  fullblock : Bool
  /-- The byte that short reads are padded with. -/
  sync : Option UInt8
  ibs_pos : 0 < ibs
  obs_pos : 0 < obs
  ibs_lt : ibs < 2 ^ 64
  obs_lt : obs < 2 ^ 64

/-! ## The source -/

/-- What is left to read. The read number `k` gives at most `grants k + 1` bytes. -/
structure Source where
  rest : List UInt8
  grants : Nat → Nat
  made : Nat

namespace Source

def read (src : Source) (len : Nat) : List UInt8 × Source :=
  let n := min len (src.grants src.made + 1)
  (src.rest.take n, { src with rest := src.rest.drop n, made := src.made + 1 })

/-- Reads on until there are as many bytes, or no more. -/
def readOn : Nat → Source → Nat → List UInt8 × Source
  | 0, src, _ => ([], src)
  | turns + 1, src, left =>
    let (got, src) := src.read left
    if got.isEmpty then ([], src)
    else if got.length ≥ left then (got, src)
    else
      let (more, src) := readOn turns src (left - got.length)
      (got ++ more, src)

end Source

/-- `Input::read`. -/
def inputRead (s : Settings) (src : Source) (len : Nat) : List UInt8 × Source :=
  if s.fullblock then src.readOn len len else src.read len

/-! ## Filling the buffer -/

structure ReadStat where
  readsComplete : Nat
  readsPartial : Nat
  bytesTotal : Nat

def ReadStat.isEmpty (stat : ReadStat) : Bool := stat.readsComplete == 0 && stat.readsPartial == 0

def ReadStat.add (a b : ReadStat) : ReadStat :=
  ⟨a.readsComplete + b.readsComplete, a.readsPartial + b.readsPartial, a.bytesTotal + b.bytesTotal⟩

def bufInitByte : UInt8 := 0xDD

/-- `Vec::resize`. -/
def resize (buf : List UInt8) (size : Nat) (value : UInt8) : List UInt8 :=
  buf.take size ++ List.replicate (size - buf.length) value

/-- The loop of `fill_consecutive` over the chunks of the buffer. -/
def fillChunks (s : Settings) : List (List UInt8) → Source → ReadStat → List (List UInt8) × ReadStat × Source
  | [], src, stat => ([], stat, src)
  | chunk :: chunks, src, stat =>
    let (got, src) := inputRead s src chunk.length
    if got.isEmpty then (chunk :: chunks, stat, src)
    else
      let stat := stat.add (if got.length = s.ibs then ⟨1, 0, got.length⟩ else ⟨0, 1, got.length⟩)
      let (chunks, stat, src) := fillChunks s chunks src stat
      ((got ++ chunk.drop got.length) :: chunks, stat, src)

def fillConsecutive (s : Settings) (src : Source) (buf : List UInt8) : List UInt8 × ReadStat × Source :=
  let (chunks, stat, src) := fillChunks s (chop s.ibs buf) src ⟨0, 0, 0⟩
  (chunks.flatten.take stat.bytesTotal, stat, src)

/-- The loop of `fill_blocks`; the blocks from where it stops on are cut off. -/
def padBlocks (s : Settings) (pad : UInt8) : List (List UInt8) → Source → ReadStat →
    List (List UInt8) × ReadStat × Source
  | [], src, stat => ([], stat, src)
  | block :: blocks, src, stat =>
    let (got, src) := inputRead s src block.length
    if got.isEmpty then ([], stat, src)
    else
      let stat := stat.add (if got.length < block.length then ⟨0, 1, got.length⟩ else ⟨1, 0, got.length⟩)
      let (blocks, stat, src) := padBlocks s pad blocks src stat
      ((got ++ List.replicate (block.length - got.length) pad) :: blocks, stat, src)

def fillBlocks (s : Settings) (src : Source) (buf : List UInt8) (pad : UInt8) : List UInt8 × ReadStat × Source :=
  let (blocks, stat, src) := padBlocks s pad (chop s.ibs buf) src ⟨0, 0, 0⟩
  (blocks.flatten, stat, src)

def readHelper (s : Settings) (src : Source) (buf : List UInt8) (bsize : Nat) : List UInt8 × ReadStat × Source :=
  let buf := resize buf bsize bufInitByte
  match s.sync with
  | some ch => fillBlocks s src buf ch
  | none => fillConsecutive s src buf

/-! ## Writing -/

structure WriteStat where
  writesComplete : Nat
  writesPartial : Nat
  bytesTotal : Nat

def WriteStat.add (a b : WriteStat) : WriteStat :=
  ⟨a.writesComplete + b.writesComplete, a.writesPartial + b.writesPartial, a.bytesTotal + b.bytesTotal⟩

/-- The destination, as the writes that it was given; it takes each of them whole. -/
structure Output where
  writes : List (List UInt8)

def Output.writeBlocks (o : Output) (s : Settings) (buf : List UInt8) : WriteStat × Output :=
  let chunks := chop s.obs buf
  (⟨chunks.countP (¬ ·.length < s.obs), chunks.countP (·.length < s.obs), (chunks.map List.length).sum⟩,
    ⟨o.writes ++ chunks⟩)

/-- `BufferedOutput`: the bytes of a block that is not complete are kept. -/
structure BufferedOutput where
  inner : Output
  buf : List UInt8

namespace BufferedOutput

def writeBlocks (o : BufferedOutput) (s : Settings) (buf : List UInt8) : WriteStat × BufferedOutput :=
  let rem := (o.buf.length + buf.length) % s.obs
  let i := buf.length - rem
  let (wstat, inner) := o.inner.writeBlocks s (o.buf ++ buf.take i)
  (wstat, ⟨inner, buf.drop i⟩)

def flush (o : BufferedOutput) (s : Settings) : WriteStat × BufferedOutput :=
  let (wstat, inner) := o.inner.writeBlocks s o.buf
  (wstat, ⟨inner, o.buf.drop wstat.bytesTotal⟩)

end BufferedOutput

inductive BlockWriter where
  | buffered (o : BufferedOutput)
  | unbuffered (o : Output)

namespace BlockWriter

def writeBlocks (s : Settings) (buf : List UInt8) : BlockWriter → WriteStat × BlockWriter
  | buffered o => (o.writeBlocks s buf).map id buffered
  | unbuffered o => (o.writeBlocks s buf).map id unbuffered

def flush (s : Settings) : BlockWriter → WriteStat × BlockWriter
  | buffered o => (o.flush s).map id buffered
  | unbuffered o => (⟨0, 0, 0⟩, unbuffered o)

def writes : BlockWriter → List (List UInt8)
  | buffered o => o.inner.writes
  | unbuffered o => o.writes

end BlockWriter

/-! ## The copy -/

/-- The least common multiple, in 64 bits. -/
def calcBsize (ibs obs : Nat) : Nat := ibs / Nat.gcd ibs obs * obs % 2 ^ 64

/-- The main loop; none when the turns do not suffice. -/
def copyFrom (s : Settings) (bsize : Nat) : Nat → Source → List UInt8 → BlockWriter → ReadStat → WriteStat →
    Option (BlockWriter × ReadStat × WriteStat)
  | 0, _, _, _, _, _ => none
  | turns + 1, src, buf, o, rstat, wstat =>
    let (buf, rstatUpdate, src) := readHelper s src buf bsize
    if rstatUpdate.isEmpty then some (o, rstat, wstat)
    else
      let (wstatUpdate, o) := o.writeBlocks s buf
      copyFrom s bsize turns src buf o (rstat.add rstatUpdate) (wstat.add wstatUpdate)

/-- The output and the statistics; none when there is no memory for the buffers, of at most `maxAlloc` bytes each. -/
def ddCopy (maxAlloc : Nat) (s : Settings) (src : Source) : Option (BlockWriter × ReadStat × WriteStat) :=
  let bsize := calcBsize s.ibs s.obs
  if s.buffered ∧ maxAlloc < s.obs then none
  else if maxAlloc < bsize then none
  else
    let o := if s.buffered then .buffered ⟨⟨[]⟩, []⟩ else .unbuffered ⟨[]⟩
    -- every turn but the last one reads at least one byte
    (copyFrom s bsize (src.rest.length + 1) src [] o ⟨0, 0, 0⟩ ⟨0, 0, 0⟩).map fun (o, rstat, wstat) =>
      let (wstatUpdate, o) := o.flush s
      (o, rstat, wstat.add wstatUpdate)

/-- The bytes that the destination is given. -/
def written (maxAlloc : Nat) (s : Settings) (src : Source) : List UInt8 :=
  match ddCopy maxAlloc s src with
  | some (o, _) => o.writes.flatten
  | none => []

end Peiosutils.Dd

/-!
# Blocking and unblocking (`blocks.rs`)

`block` makes a record of `cbs` bytes of each line of a buffer, `unblock` a line of each record. A buffer that ends with a
line gives a record for each line (`block_of_terminated`), and one that does not gives a record too much or trims less
(`block_exact`); whole records give their lines (`unblock_flatten`), and a buffer with a part of one gives a line too much
(`count_unblock`).
-/

namespace Peiosutils.Dd

open Chop Lines

def newline : UInt8 := 10

def space : UInt8 := 32

/-! ## Conversions -/

abbrev ConversionTable := UInt8 → UInt8

/-- A conversion block size; zero is refused by the command line. -/
abbrev Cbs := { n : Nat // 0 < n }

inductive ConversionMode where
  | convertOnly (ct : ConversionTable)
  | convertThenBlock (ct : ConversionTable) (cbs : Cbs) (sync : Bool)
  | blockThenConvert (ct : ConversionTable) (cbs : Cbs) (sync : Bool)
  | unblockThenConvert (ct : ConversionTable) (cbs : Cbs)
  | convertThenUnblock (ct : ConversionTable) (cbs : Cbs)
  | blockOnly (cbs : Cbs) (sync : Bool)
  | unblockOnly (cbs : Cbs)

/-- The records of a buffer, and how many of them are truncated. -/
def block (buf : List UInt8) (cbs : Nat) (sync : Bool) (readsPartial : Nat) : List (List UInt8) × Nat :=
  let splits := buf.splitOn newline
  let blocks := splits.map fun split => resize split cbs space
  -- the record behind the last newline is left out when it is blank, unless `sync` keeps it
  let pop := (!sync || readsPartial == 0) && blocks.getLast?.any fun last => last.all (· == space)
  (if pop then blocks.dropLast else blocks, splits.countP fun split => cbs < split.length)

def unblock (buf : List UInt8) (cbs : Nat) : List UInt8 :=
  (chop cbs buf).flatMap fun block => block.rdropWhile (· == space) ++ [newline]

/-- `conv_block_unblock_helper`, with the records that were truncated. -/
def convBlockUnblockHelper (buf : List UInt8) (mode : ConversionMode) (readsPartial : Nat) : List UInt8 × Nat :=
  match mode with
  | .convertOnly ct => (buf.map ct, 0)
  | .blockThenConvert ct cbs sync =>
    let (blocks, truncated) := block buf cbs sync readsPartial
    (blocks.flatMap (·.map ct), truncated)
  | .convertThenBlock ct cbs sync =>
    let (blocks, truncated) := block (buf.map ct) cbs sync readsPartial
    (blocks.flatten, truncated)
  | .blockOnly cbs sync =>
    let (blocks, truncated) := block buf cbs sync readsPartial
    (blocks.flatten, truncated)
  | .unblockThenConvert ct cbs => ((unblock buf cbs).map ct, 0)
  | .convertThenUnblock ct cbs => (unblock (buf.map ct) cbs, 0)
  | .unblockOnly cbs => (unblock buf cbs, 0)

/-! ## Records -/

/-- The record of a line. -/
def record (cbs : Nat) (line : List UInt8) : List UInt8 := resize line cbs space

/-- A record without its padding. -/
def trimmed (r : List UInt8) : List UInt8 := r.rdropWhile (· == space)

theorem length_record (cbs : Nat) (line : List UInt8) : (record cbs line).length = cbs := by
  rw [record, resize, List.length_append, List.length_take, List.length_replicate]
  omega

theorem trimmed_append_replicate (l : List UInt8) (n : Nat) : trimmed (l ++ List.replicate n space) = trimmed l := by
  induction n with
  | zero => rw [List.replicate_zero, List.append_nil]
  | succ n ih =>
    rw [List.replicate_succ', ← List.append_assoc, trimmed, List.rdropWhile_concat_pos _ _ _ (by rfl)]
    exact ih

theorem length_trimmed_le (l : List UInt8) : (trimmed l).length ≤ l.length :=
  (List.rdropWhile_prefix _ l).length_le

theorem length_trimmed_record_le (cbs : Nat) (line : List UInt8) : (trimmed (record cbs line)).length ≤ line.length := by
  rw [record, resize, trimmed_append_replicate]
  exact Nat.le_trans (length_trimmed_le _) (List.length_take_le' _ _)

/-- A line that fits and does not end in a space is what is left of its record. -/
theorem trimmed_record {cbs : Nat} {line : List UInt8} (hle : line.length ≤ cbs) (hlast : line.getLast? ≠ some space) :
    trimmed (record cbs line) = line := by
  rw [record, resize, trimmed_append_replicate, List.take_of_length_le hle, trimmed]
  rcases List.eq_nil_or_concat line with rfl | ⟨l, b, rfl⟩
  · rfl
  · rw [List.concat_eq_append] at hlast ⊢
    have hb : ¬ b = space := fun hb => hlast (by rw [hb]; simp)
    rw [List.rdropWhile_concat_neg _ _ _ (by simpa using hb)]

/-! ## Blocking a buffer -/

/-- Without `sync` the reads do not matter. -/
theorem block_eq (buf : List UInt8) (cbs readsPartial : Nat) : (block buf cbs false readsPartial).1 =
    let blocks := (buf.splitOn newline).map (record cbs)
    if blocks.getLast?.any fun last => last.all (· == space) then blocks.dropLast else blocks := by
  simp only [block, Bool.not_false, Bool.true_or, Bool.true_and]
  rfl

theorem all_record_nil (cbs : Nat) : (record cbs []).all (· == space) = true := by
  simp [record, resize]

/-- A buffer that ends with a line gives the records of its lines. -/
theorem block_of_terminated {buf : List UInt8} (h : Terminated newline buf) (cbs readsPartial : Nat) :
    (block buf cbs false readsPartial).1 = (lines newline buf).map (record cbs) := by
  rw [block_eq, splitOn_eq_lines, if_pos h, List.map_append, List.map_singleton]
  simp only [List.getLast?_append, List.getLast?_singleton, Option.some_or, Option.any_some, all_record_nil, if_true,
    List.dropLast_concat]

/-- The bytes of records that are no padding. -/
def content (records : List (List UInt8)) : Nat := (records.map fun r => (trimmed r).length).sum

theorem content_append (a b : List (List UInt8)) : content (a ++ b) = content a + content b := by
  rw [content, List.map_append, List.sum_append]
  rfl

theorem content_record_le (cbs : Nat) (ls : List (List UInt8)) :
    content (ls.map (record cbs)) ≤ (ls.map List.length).sum := by
  induction ls with
  | nil => exact Nat.le_refl 0
  | cons l ls ih =>
    have := length_trimmed_record_le cbs l
    rw [List.map_cons, List.map_cons, List.sum_cons, content, List.map_cons, List.sum_cons]
    rw [content] at ih
    omega

/-- A buffer gives no fewer records than it has newlines, and no more content than its lines have; it ends with a line where
both are exact. -/
theorem block_exact (buf : List UInt8) (cbs readsPartial : Nat) :
    let records := (block buf cbs false readsPartial).1
    buf.count newline ≤ records.length ∧ content records + buf.count newline ≤ buf.length ∧
      (records.length = buf.count newline → content records + buf.count newline = buf.length → Terminated newline buf) := by
  intro records
  have hsum := @sum_length_lines _ _ newline buf
  have hlength := @length_lines _ _ newline buf
  by_cases hterm : Terminated newline buf
  · have hcontent := content_record_le cbs (lines newline buf)
    rw [if_pos hterm] at hlength
    have heq : records = (lines newline buf).map (record cbs) := block_of_terminated hterm cbs readsPartial
    rw [heq, List.length_map]
    exact ⟨by omega, by omega, fun _ _ => hterm⟩
  · rw [if_neg hterm] at hlength
    have heq : records = _ := block_eq buf cbs readsPartial
    rw [splitOn_eq_lines, if_neg hterm, List.append_nil] at heq
    obtain ⟨whole, tail, hlines, htail⟩ := exists_open_line hterm
    have hpos := List.length_pos_iff.2 htail
    have hcontent := content_record_le cbs whole
    have hlast := content_record_le cbs [tail]
    rw [hlines, List.map_append, List.sum_append, List.map_singleton, List.sum_singleton] at hsum
    rw [hlines, List.length_append, List.length_singleton] at hlength
    rw [List.map_singleton, List.map_singleton, List.sum_singleton] at hlast
    simp only [hlines, List.map_append, List.map_singleton, List.getLast?_append, List.getLast?_singleton, Option.some_or,
      Option.any_some, List.dropLast_concat] at heq
    rw [heq]
    split
    · -- the blank piece at the end is lost
      rw [List.length_map]
      exact ⟨by omega, by omega, fun _ h => by omega⟩
    · rw [List.length_append, List.length_map, List.length_singleton, content_append]
      exact ⟨by omega, by omega, fun h => by omega⟩

/-! ## Unblocking a buffer -/

/-- Whole records give their lines. -/
theorem unblock_flatten {cbs : Nat} (hcbs : 0 < cbs) {records : List (List UInt8)} (h : ∀ r ∈ records, r.length = cbs) :
    unblock records.flatten cbs = records.flatMap fun r => trimmed r ++ [newline] := by
  rw [unblock, chop_flatten hcbs h]
  rfl

/-- Behind whole records it begins anew. -/
theorem unblock_append {cbs : Nat} (hcbs : 0 < cbs) {buf : List UInt8} (h : cbs ∣ buf.length) (more : List UInt8) :
    unblock (buf ++ more) cbs = unblock buf cbs ++ unblock more cbs := by
  rw [unblock, chop_append hcbs h, List.flatMap_append]
  rfl

/-- A line for each record, and one for a part of a record. -/
theorem count_unblock {cbs : Nat} {buf : List UInt8} (h : newline ∉ buf) (hcbs : 0 < cbs) :
    (unblock buf cbs).count newline = (chop cbs buf).length := by
  have hmem : ∀ r ∈ chop cbs buf, newline ∉ r := fun r hr hn => h (by
    rw [← flatten_chop hcbs buf]
    exact List.mem_flatten.2 ⟨r, hr, hn⟩)
  rw [unblock]
  generalize chop cbs buf = rs at hmem
  induction rs with
  | nil => rfl
  | cons r rs ih =>
    have hr : newline ∉ trimmed r :=
      fun hn => hmem r List.mem_cons_self ((List.rdropWhile_prefix _ r).subset hn)
    rw [List.flatMap_cons, List.count_append, List.count_append, ih fun q hq => hmem q (List.mem_cons_of_mem r hq)]
    rw [trimmed] at hr
    rw [List.count_eq_zero_of_not_mem hr, List.count_singleton_self, List.length_cons]
    omega

end Peiosutils.Dd

/-!
# The turns of a copy

A turn of the main loop reads into the pieces of the buffer (`readsFor`). Without padding it writes what was read exactly
when the short reads leave no gaps (`take_store`), and the writers only cut what they are given anew
(`writeBlocks_bytes`). The run writes what its turns read (`copyFrom_bytes`).
-/

namespace Peiosutils.Dd

open Chop

variable {s : Settings}

/-! ## Reading -/

/-- A read gives the next bytes, at most as many as asked for, and none only at the end. -/
def ReadsNext (src : Source) (len : Nat) (r : List UInt8 × Source) : Prop :=
  src.rest = r.1 ++ r.2.rest ∧ r.1.length ≤ len ∧ (r.1 = [] → src.rest = [])

theorem read_next (src : Source) {len : Nat} (h : 0 < len) : ReadsNext src len (src.read len) := by
  have hmin : min len (src.grants src.made + 1) ≠ 0 := by omega
  refine ⟨(List.take_append_drop _ _).symm, ?_, ?_⟩
  · exact Nat.le_trans (List.length_take_le ..) (Nat.min_le_left ..)
  · intro hnil
    rcases List.take_eq_nil_iff.1 hnil with h | h
    · exact absurd h hmin
    · exact h

theorem readOn_next (turns : Nat) : ∀ (src : Source) (left : Nat), 0 < left → left ≤ turns →
    ReadsNext src left (src.readOn turns left) := by
  induction turns with
  | zero => omega
  | succ turns ih =>
    intro src left hpos hle
    obtain ⟨hrest, hlen, hnil⟩ := read_next src hpos
    rw [Source.readOn]
    generalize src.read left = r at hrest hlen hnil
    obtain ⟨got, src'⟩ := r
    simp only at hrest hlen hnil ⊢
    split
    · rename_i hgot
      have hgot := List.isEmpty_iff.1 hgot
      rw [hgot] at hrest
      exact ⟨hrest, Nat.zero_le left, fun _ => hnil hgot⟩
    · rename_i hgot
      have hne : got ≠ [] := mt List.isEmpty_iff.2 hgot
      split
      · exact ⟨hrest, hlen, hnil⟩
      · have := List.length_pos_iff.2 hne
        obtain ⟨hrest', hlen', -⟩ := ih src' (left - got.length) (by omega) (by omega)
        refine ⟨?_, ?_, fun h => absurd (List.append_eq_nil_iff.1 h).1 hne⟩
        · rw [hrest, hrest', List.append_assoc]
        · simp only [List.length_append]
          omega

theorem inputRead_next (src : Source) {len : Nat} (h : 0 < len) : ReadsNext src len (inputRead s src len) := by
  unfold inputRead
  split
  · exact readOn_next len src len h (Nat.le_refl len)
  · exact read_next src h

/-- The reads into pieces of the given lengths, up to one without bytes. -/
def readsFor (s : Settings) : List Nat → Source → List (List UInt8) × Source
  | [], src => ([], src)
  | len :: lens, src =>
    let (got, src) := inputRead s src len
    if got.isEmpty then ([], src)
    else
      let (gots, src) := readsFor s lens src
      (got :: gots, src)

/-- Reads that are not empty and fit in their pieces. -/
def Fit : List Nat → List (List UInt8) → Prop
  | _, [] => True
  | [], _ :: _ => False
  | len :: lens, got :: gots => 0 < got.length ∧ got.length ≤ len ∧ Fit lens gots

/-- The reads are the next bytes, and fewer than there are pieces only at the end. -/
theorem readsFor_spec (lens : List Nat) (hpos : ∀ len ∈ lens, 0 < len) : ∀ src : Source,
    src.rest = (readsFor s lens src).1.flatten ++ (readsFor s lens src).2.rest ∧ Fit lens (readsFor s lens src).1 ∧
      ((readsFor s lens src).1.length < lens.length → (readsFor s lens src).2.rest = []) := by
  induction lens with
  | nil =>
    intro src
    exact ⟨rfl, trivial, fun h => absurd h (Nat.lt_irrefl 0)⟩
  | cons len lens ih =>
    intro src
    have hlen := hpos len List.mem_cons_self
    obtain ⟨hrest, hle, hnil⟩ := @inputRead_next s src len hlen
    rw [readsFor]
    generalize inputRead s src len = r at hrest hle hnil
    obtain ⟨got, src'⟩ := r
    simp only at hrest hle hnil ⊢
    split
    · rename_i hgot
      have hgot := List.isEmpty_iff.1 hgot
      rw [hgot] at hrest
      have hend := hnil hgot
      rw [hrest] at hend
      exact ⟨hrest, trivial, fun _ => hend⟩
    · rename_i hgot
      have hne : got ≠ [] := mt List.isEmpty_iff.2 hgot
      obtain ⟨hrest', hfit, hend⟩ := ih (fun l hl => hpos l (List.mem_cons_of_mem len hl)) src'
      refine ⟨?_, ⟨List.length_pos_iff.2 hne, hle, hfit⟩, fun hlt => hend (Nat.lt_of_succ_lt_succ hlt)⟩
      simp only [List.flatten_cons]
      rw [hrest, hrest', List.append_assoc]

/-! ## The buffer of a turn -/

/-- The pieces with the reads at their starts. -/
def store : List (List UInt8) → List (List UInt8) → List (List UInt8)
  | chunk :: chunks, got :: gots => (got ++ chunk.drop got.length) :: store chunks gots
  | chunks, _ => chunks

/-- What is behind the first short read, once the later reads are stored, starts with the bytes of these. So it is when
no read but the last one is short. -/
def Gapless : List (List UInt8) → List (List UInt8) → Prop
  | chunk :: chunks, got :: gots =>
    if got.length = chunk.length then Gapless chunks gots
    else (chunk.drop got.length ++ (store chunks gots).flatten).take gots.flatten.length = gots.flatten
  | _, _ => True

/-- All reads but the last one fill their pieces. -/
def LastShort : List (List UInt8) → List (List UInt8) → Prop
  | chunk :: chunks, got :: gots => (gots ≠ [] → got.length = chunk.length) ∧ LastShort chunks gots
  | _, _ => True

theorem LastShort.gapless (chunks : List (List UInt8)) : ∀ gots, LastShort chunks gots → Gapless chunks gots := by
  induction chunks with
  | nil =>
    intro gots _
    trivial
  | cons chunk chunks ih =>
    intro gots h
    cases gots with
    | nil => trivial
    | cons got gots =>
      rw [Gapless]
      split
      · exact ih gots h.2
      · rename_i hshort
        have hnil : gots = [] := by
          by_contra hne
          exact hshort (h.1 hne)
        rw [hnil]
        rfl

/-- The buffer starts with what was read exactly when there is no gap. -/
theorem take_store (chunks : List (List UInt8)) : ∀ gots, Fit (chunks.map List.length) gots →
    ((store chunks gots).flatten.take gots.flatten.length = gots.flatten ↔ Gapless chunks gots) := by
  induction chunks with
  | nil =>
    intro gots hfit
    cases gots with
    | nil => simp [Gapless]
    | cons got gots => exact absurd hfit id
  | cons chunk chunks ih =>
    intro gots hfit
    cases gots with
    | nil => simp [Gapless]
    | cons got gots =>
      obtain ⟨-, hle, hfit⟩ := hfit
      rw [store, List.flatten_cons, List.flatten_cons, List.length_append, List.append_assoc,
        List.take_length_add_append, List.append_cancel_left_eq, Gapless]
      split
      · rename_i hfull
        rw [List.drop_of_length_le (Nat.le_of_eq hfull.symm), List.nil_append]
        exact ih gots hfit
      · exact Iff.rfl

theorem length_store (chunks : List (List UInt8)) : ∀ gots, Fit (chunks.map List.length) gots →
    gots.flatten.length ≤ (store chunks gots).flatten.length := by
  induction chunks with
  | nil =>
    intro gots hfit
    cases gots with
    | nil => exact Nat.le_refl 0
    | cons got gots => exact absurd hfit id
  | cons chunk chunks ih =>
    intro gots hfit
    cases gots with
    | nil => exact Nat.zero_le _
    | cons got gots =>
      have := ih gots hfit.2.2
      rw [store, List.flatten_cons, List.flatten_cons, List.length_append, List.length_append, List.length_append]
      omega

/-- The pieces with the reads at their starts, padded. -/
def padded (pad : UInt8) (lens : List Nat) (gots : List (List UInt8)) : List (List UInt8) :=
  List.zipWith (fun len got => got ++ List.replicate (len - got.length) pad) lens gots

/-- The counts of a turn. -/
def Counts (stat stat' : ReadStat) (gots : List (List UInt8)) : Prop :=
  stat'.bytesTotal = stat.bytesTotal + gots.flatten.length ∧
    stat'.readsComplete + stat'.readsPartial = stat.readsComplete + stat.readsPartial + gots.length

theorem Counts.cons {stat stat' : ReadStat} {a b : Nat} {got : List UInt8} {gots : List (List UInt8)} (h : a + b = 1)
    (hcounts : Counts (stat.add ⟨a, b, got.length⟩) stat' gots) : Counts stat stat' (got :: gots) := by
  obtain ⟨hbytes, hreads⟩ := hcounts
  simp only [ReadStat.add] at hbytes hreads
  refine ⟨?_, ?_⟩
  · rw [List.flatten_cons, List.length_append]
    omega
  · rw [List.length_cons]
    omega

theorem Counts.isEmpty {stat : ReadStat} {gots : List (List UInt8)} (h : Counts ⟨0, 0, 0⟩ stat gots) :
    stat.isEmpty = gots.isEmpty := by
  obtain ⟨-, hreads⟩ := h
  simp only [Nat.zero_add] at hreads
  cases gots with
  | nil =>
    rw [List.length_nil] at hreads
    simp [ReadStat.isEmpty, show stat.readsComplete = 0 by omega, show stat.readsPartial = 0 by omega]
  | cons got gots =>
    rw [List.length_cons] at hreads
    simp only [ReadStat.isEmpty, List.isEmpty_cons, Bool.and_eq_false_iff, beq_eq_false_iff_ne]
    omega

theorem fillChunks_eq (chunks : List (List UInt8)) : ∀ (src : Source) (stat : ReadStat), ∃ stat',
    fillChunks s chunks src stat = (store chunks (readsFor s (chunks.map List.length) src).1, stat',
      (readsFor s (chunks.map List.length) src).2) ∧
      Counts stat stat' (readsFor s (chunks.map List.length) src).1 := by
  induction chunks with
  | nil =>
    intro src stat
    exact ⟨stat, rfl, rfl, rfl⟩
  | cons chunk chunks ih =>
    intro src stat
    rw [fillChunks, List.map_cons, readsFor]
    generalize inputRead s src chunk.length = r
    obtain ⟨got, src'⟩ := r
    simp only
    split
    · exact ⟨stat, rfl, rfl, rfl⟩
    · obtain ⟨stat', heq, hcounts⟩ := ih src'
        (stat.add (if got.length = s.ibs then ⟨1, 0, got.length⟩ else ⟨0, 1, got.length⟩))
      rw [heq]
      refine ⟨stat', rfl, ?_⟩
      split at hcounts
      · exact hcounts.cons rfl
      · exact hcounts.cons rfl

theorem padBlocks_eq (pad : UInt8) (blocks : List (List UInt8)) : ∀ (src : Source) (stat : ReadStat), ∃ stat',
    padBlocks s pad blocks src stat =
      (padded pad (blocks.map List.length) (readsFor s (blocks.map List.length) src).1, stat',
        (readsFor s (blocks.map List.length) src).2) ∧
      Counts stat stat' (readsFor s (blocks.map List.length) src).1 := by
  induction blocks with
  | nil =>
    intro src stat
    exact ⟨stat, rfl, rfl, rfl⟩
  | cons block blocks ih =>
    intro src stat
    rw [padBlocks, List.map_cons, readsFor]
    generalize inputRead s src block.length = r
    obtain ⟨got, src'⟩ := r
    simp only
    split
    · exact ⟨stat, rfl, rfl, rfl⟩
    · obtain ⟨stat', heq, hcounts⟩ := ih src'
        (stat.add (if got.length < block.length then ⟨0, 1, got.length⟩ else ⟨1, 0, got.length⟩))
      rw [heq]
      refine ⟨stat', rfl, ?_⟩
      split at hcounts
      · exact hcounts.cons rfl
      · exact hcounts.cons rfl

end Peiosutils.Dd
