import Mathlib.Algebra.Order.Group.Nat
import Peiosutils.Tail.Scan

/-!
# Reading backwards

A run of `backwardsFrom` over the blocks ends behind the delimiter that the last lines start with, or where the blocks
end (`backwardsFrom_eq`). They end at the start of the file, but a whole block behind it when its length is rounded to a
multiple of the block size (`firstScanned`), so that exactly then lines are lost (`backwardsThruFile_iff`).
-/

set_option autoImplicit false

namespace Peiosutils.Tail

open Lines

/-! ## The number of blocks -/

/-- The length as `f64` is the last multiple of the block size: the first block of the file is not read. -/
def RoundsToBlocks (size : Nat) : Prop := size ≠ 0 ∧ roundF64 size = size / blockSizeMax * blockSizeMax

instance (size : Nat) : Decidable (RoundsToBlocks size) := inferInstanceAs (Decidable (_ ∧ _))

/-- Where the blocks start that are read. -/
def firstScanned (size : Nat) : Nat := if RoundsToBlocks size then blockSizeMax else 0

theorem log2_lt_of_lt {n : Nat} (hn : n ≠ 0) (h : n < 2 ^ 63) : n.log2 ≤ 62 := by
  have := (Nat.log2_lt hn).2 h
  omega

/-- Rounding does not leave the block. -/
theorem roundF64_bounds {n : Nat} (h : n < 2 ^ 63) :
    n / blockSizeMax * blockSizeMax ≤ roundF64 n ∧ roundF64 n ≤ (n / blockSizeMax + 1) * blockSizeMax := by
  have hlow : n / blockSizeMax * blockSizeMax ≤ n := Nat.div_mul_le_self n blockSizeMax
  have hhigh : n < (n / blockSizeMax + 1) * blockSizeMax := by
    rw [Nat.add_mul, Nat.one_mul]
    exact Nat.lt_div_mul_add (by decide)
  unfold roundF64
  split
  · exact ⟨hlow, Nat.le_of_lt hhigh⟩
  · rename_i hbig
    have hlog := log2_lt_of_lt (by omega) h
    obtain ⟨c, hc⟩ : 2 ^ (n.log2 - 52) ∣ blockSizeMax := Nat.pow_dvd_pow 2 (by omega)
    simp only
    generalize 2 ^ (n.log2 - 52) = u at hc ⊢
    have hu : 0 < u := by
      apply Nat.pos_of_ne_zero
      rintro rfl
      rw [Nat.zero_mul] at hc
      cases hc
    have hmul : ∀ q, q * blockSizeMax = q * c * u := fun q => by rw [hc, Nat.mul_comm u c, Nat.mul_assoc]
    rw [hmul] at hlow hhigh ⊢
    rw [hmul]
    have hlow' : n / blockSizeMax * c ≤ n / u := (Nat.le_div_iff_mul_le hu).2 hlow
    have hhigh' : n / u + 1 ≤ (n / blockSizeMax + 1) * c := (Nat.div_lt_iff_lt_mul hu).2 hhigh
    split
    · exact ⟨Nat.mul_le_mul_right u (by omega), Nat.mul_le_mul_right u hhigh'⟩
    · exact ⟨Nat.mul_le_mul_right u hlow', Nat.mul_le_mul_right u (by omega)⟩

def maxBlocks (size : Nat) : Nat := (roundF64 size + (blockSizeMax - 1)) / blockSizeMax

/-- The blocks reach from the first scanned byte to the end. -/
theorem maxBlocks_eq {size : Nat} (h : size < 2 ^ 63) (hne : size ≠ 0) :
    0 < maxBlocks size ∧
      (maxBlocks size - 1) * blockSizeMax + size % blockSizeMax = size - firstScanned size ∧
      firstScanned size ≤ size := by
  obtain ⟨hlow, hhigh⟩ := roundF64_bounds h
  have hsize : blockSizeMax = 65536 := rfl
  have hsmall : size < 65536 → roundF64 size = size := fun hlt => if_pos (by omega)
  unfold firstScanned maxBlocks
  rw [hsize] at hlow hhigh
  by_cases hround : RoundsToBlocks size
  · have heq := hround.2
    rw [if_pos hround]
    rw [hsize] at heq ⊢
    omega
  · have hround' : roundF64 size ≠ size / 65536 * 65536 := fun h => hround ⟨hne, h⟩
    rw [if_neg hround, hsize]
    omega

/-! ## One block -/

theorem readBlock_eq {chunks : ReverseChunks} {f : File} (hsize : chunks.blockSize ≤ f.position)
    (hpos : f.position ≤ f.content.length) (hlen : f.content.length ≤ f.maxOffset) (hmax : f.maxOffset < 2 ^ 63) :
    chunks.readBlock f =
      some ((f.content.drop (f.position - chunks.blockSize)).take chunks.blockSize,
        { chunks with blockIdx := chunks.blockIdx + 1 }, { f with position := f.position - chunks.blockSize }) := by
  have hback := @File.seek_back f chunks.blockSize (by omega) hsize (by omega)
  have hagain := @File.seek_back { f with position := f.position - chunks.blockSize + chunks.blockSize }
    chunks.blockSize (by omega) (by simp) (by simp only; omega)
  rw [Nat.add_sub_cancel] at hagain
  unfold ReverseChunks.readBlock
  simp only [hback, File.readExact, File.rest, Option.bind_eq_bind, Option.bind_some]
  rw [if_pos (by omega)]
  simp only [Option.bind_some, hagain]

/-- What is read: nothing yet, or the lines that are counted and one more. -/
def Counted (delimiter : UInt8) (rest : List UInt8) (counter : Nat) (firstSlice : Bool) : Prop :=
  if firstSlice then rest = [] ∧ counter = 0 else rest ≠ [] ∧ (pieces delimiter rest).length = counter + 1

/-- The delimiters of a block that are counted. -/
theorem found_eq (delimiter : UInt8) (slice : List UInt8) (firstSlice : Bool) :
    (if firstSlice && slice.getLast? == some delimiter then (memchrIter delimiter slice).reverse.tail
      else (memchrIter delimiter slice).reverse) =
      (memchrIter delimiter (if firstSlice then chomp delimiter slice else slice)).reverse := by
  cases firstSlice with
  | false => rfl
  | true =>
    simp only [Bool.true_and, if_true, beq_iff_eq]
    obtain ⟨heq, hlast⟩ | ⟨heq, hlast⟩ := @chomp_cases _ _ delimiter slice
    · rw [if_neg hlast, heq]
    · rw [if_pos hlast]
      generalize chomp delimiter slice = part at heq
      rw [← heq]
      unfold memchrIter
      rw [memchrFrom_append_singleton, if_pos rfl, List.reverse_append]
      rfl

theorem length_pieces_scanned {delimiter : UInt8} {rest : List UInt8} {counter : Nat} {firstSlice : Bool}
    (h : Counted delimiter rest counter firstSlice) {part : List UInt8} (hne : part ++ rest ≠ []) :
    (pieces delimiter (part ++ rest)).length =
      counter + (if firstSlice then chomp delimiter part else part).count delimiter + 1 := by
  cases firstSlice with
  | true =>
    obtain ⟨rfl, rfl⟩ := h
    rw [List.append_nil] at hne ⊢
    rw [length_pieces_chomp hne]
    simp
  | false =>
    obtain ⟨hrest, hcount⟩ := h
    rw [length_pieces_append part hrest, hcount]
    simp only [Bool.false_eq_true, if_false]
    omega

/-- A block counts its lines, or holds the delimiter in front of the last lines. -/
theorem countUntil_slice {delimiter : UInt8} {rest : List UInt8} {counter num : Nat} {firstSlice : Bool}
    (h : Counted delimiter rest counter firstSlice) (hlt : counter < num) (slice : List UInt8) :
    (∃ c, countUntil num
        (memchrIter delimiter (if firstSlice then chomp delimiter slice else slice)).reverse counter = .inr c ∧
      c < num ∧ (slice ++ rest ≠ [] → Counted delimiter (slice ++ rest) c false)) ∨
    ∃ j, countUntil num
        (memchrIter delimiter (if firstSlice then chomp delimiter slice else slice)).reverse counter = .inl j ∧
      slice[j]? = some delimiter ∧ (pieces delimiter (slice.drop (j + 1) ++ rest)).length = num := by
  obtain ⟨hcount, hrun⟩ | ⟨j, hj, hrun, hcount⟩ := @countUntil_memrchr delimiter
    (if firstSlice then chomp delimiter slice else slice) counter num hlt
  · exact Or.inl ⟨_, hrun, hcount, fun hne => ⟨hne, length_pieces_scanned h hne⟩⟩
  · refine Or.inr ⟨j, hrun, ?_, ?_⟩
    · split at hj
      · obtain ⟨hlt, -⟩ := List.getElem?_eq_some_iff.1 hj
        obtain ⟨heq, -⟩ | ⟨heq, -⟩ := @chomp_cases _ _ delimiter slice
        · rwa [heq] at hj
        · rw [← heq, List.getElem?_append_left hlt, hj]
      · exact hj
    · have hpart : (if firstSlice then chomp delimiter slice else slice).drop (j + 1) =
          (if firstSlice then chomp delimiter (slice.drop (j + 1)) else slice.drop (j + 1)) ∧
          slice.drop (j + 1) ++ rest ≠ [] := by
        cases firstSlice with
        | true =>
          obtain ⟨hdrop, hne⟩ := chomp_drop hj
          exact ⟨hdrop, fun hnil => hne (List.append_eq_nil_iff.1 hnil).1⟩
        | false => exact ⟨rfl, fun hnil => h.1 (List.append_eq_nil_iff.1 hnil).2⟩
      rw [length_pieces_scanned h hpart.2, ← hpart.1]
      exact hcount

/-! ## All blocks -/

/-- Where the run stops: at the last lines, or where the blocks end, without more lines than are asked for. -/
def Stops (delimiter : UInt8) (num : Nat) (content : List UInt8) (position : Nat) : Prop :=
  firstScanned content.length ≤ position ∧ position ≤ content.length ∧
    (content.drop position = lastLines delimiter num content ∨
      position = firstScanned content.length ∧ (pieces delimiter (content.drop position)).length ≤ num)

theorem blockSize_le {size idx left position : Nat} (hsize : size < 2 ^ 63) (hne : size ≠ 0)
    (hleft : left + 1 + idx = maxBlocks size) (hpos : position + idx * blockSizeMax = size) :
    ∃ start, start + (ReverseChunks.mk size (maxBlocks size) idx).blockSize = position ∧
      firstScanned size ≤ start ∧ (left = 0 → start = firstScanned size) ∧
      (left ≠ 0 → start + (idx + 1) * blockSizeMax = size ∧ start < size) := by
  obtain ⟨-, hsum, hle⟩ := maxBlocks_eq hsize hne
  unfold ReverseChunks.blockSize
  simp only
  rw [← hleft] at hsum ⊢
  by_cases hlast : left = 0
  · subst hlast
    rw [show 0 + 1 + idx - 1 = idx by omega] at hsum ⊢
    rw [if_pos rfl]
    refine ⟨firstScanned size, by omega, le_refl _, fun _ => rfl, fun h => absurd rfl h⟩
  · have hmul : (idx + 1) * blockSizeMax ≤ (left + 1 + idx - 1) * blockSizeMax :=
      Nat.mul_le_mul_right _ (by omega)
    have hpos' : 0 < blockSizeMax := by decide
    rw [Nat.add_mul, Nat.one_mul] at hmul
    rw [if_neg (by omega), Nat.add_mul, Nat.one_mul]
    exact ⟨position - blockSizeMax, by omega, by omega, fun h => absurd h hlast, fun _ => ⟨by omega, by omega⟩⟩

/-- Behind a delimiter with the right number of lines behind it are the last lines. -/
theorem drop_eq_lastLines {delimiter : UInt8} {content : List UInt8} {position : Nat} (h : position < content.length)
    (hget : content[position]? = some delimiter) :
    content.drop (position + 1) =
      lastLines delimiter (pieces delimiter (content.drop (position + 1))).length content := by
  have hterm : Terminated delimiter (content.take (position + 1)) := by
    refine Or.inr ?_
    rw [List.getLast?_eq_getElem?, List.length_take_of_le h, Nat.succ_sub_one, List.getElem?_take,
      if_pos (Nat.lt_succ_self position), hget]
  have happ := lastLines_of_terminated hterm (content.drop (position + 1))
  rw [List.take_append_drop] at happ
  exact happ.symm

section

variable {delimiter : UInt8} {num maxOffset : Nat} {content : List UInt8}

/-- One block: the run stops behind a delimiter in it, or goes on in front of it. -/
theorem backwardsFrom_succ (left : Nat) (hlen : content.length ≤ maxOffset) (hmax : maxOffset < 2 ^ 63)
    {idx position start counter : Nat} {firstSlice : Bool} {chunks : ReverseChunks} (hstart : start + chunks.blockSize = position)
    (hidx : chunks.blockIdx = idx) (hpos : position ≤ content.length) (hfirst : firstScanned content.length ≤ start)
    (hlt : counter < num) (hcount : Counted delimiter (content.drop position) counter firstSlice) :
    (∃ position', Stops delimiter num content position' ∧
      backwardsFrom num delimiter (left + 1) chunks ⟨content, maxOffset, position⟩ counter firstSlice =
        some ⟨content, maxOffset, position'⟩) ∨
    ∃ c, c < num ∧ (content.drop start ≠ [] → Counted delimiter (content.drop start) c false) ∧
      backwardsFrom num delimiter (left + 1) chunks ⟨content, maxOffset, position⟩ counter firstSlice =
        backwardsFrom num delimiter left { chunks with blockIdx := idx + 1 } ⟨content, maxOffset, start⟩ c false := by
  have hread := @readBlock_eq chunks ⟨content, maxOffset, position⟩ (by simp only; omega) hpos hlen hmax
  simp only [show position - chunks.blockSize = start by omega, hidx] at hread
  have hslice : (content.drop start).take chunks.blockSize ++ content.drop position = content.drop start := by
    rw [← hstart, ← List.drop_drop, List.take_append_drop]
  rw [backwardsFrom, hread]
  simp only [found_eq]
  obtain ⟨c, hrun, hc, hcounted⟩ | ⟨j, hrun, hget, hlines⟩ :=
    countUntil_slice hcount hlt ((content.drop start).take chunks.blockSize)
  · rw [hrun]
    rw [hslice] at hcounted
    exact Or.inr ⟨c, hc, hcounted, rfl⟩
  · rw [hrun]
    obtain ⟨hj, -⟩ := List.getElem?_eq_some_iff.1 hget
    rw [List.length_take] at hj
    have hj' : j < chunks.blockSize := Nat.lt_of_lt_of_le hj (Nat.min_le_left _ _)
    rw [List.getElem?_take, if_pos hj', List.getElem?_drop] at hget
    have hrest : ((content.drop start).take chunks.blockSize).drop (j + 1) ++ content.drop position =
        content.drop (start + j + 1) := by
      rw [← List.drop_append_of_le_length (by rw [List.length_take]; exact hj), hslice, List.drop_drop]
      rfl
    rw [hrest] at hlines
    refine Or.inl ⟨start + j + 1, ⟨by omega, by omega, Or.inl ?_⟩, ?_⟩
    · rw [drop_eq_lastLines (by omega) hget, hlines]
    · exact File.seek_forward (by omega) (by simp only; omega)

/-- The run over the blocks that are left. -/
theorem backwardsFrom_eq (hne : content ≠ []) (hlen : content.length ≤ maxOffset) (hmax : maxOffset < 2 ^ 63) (left : Nat) :
    ∀ idx position counter firstSlice, left + 1 + idx = maxBlocks content.length →
      position + idx * blockSizeMax = content.length → counter < num →
      Counted delimiter (content.drop position) counter firstSlice →
      ∃ position', Stops delimiter num content position' ∧
        backwardsFrom num delimiter (left + 1) ⟨content.length, maxBlocks content.length, idx⟩
          ⟨content, maxOffset, position⟩ counter firstSlice = some ⟨content, maxOffset, position'⟩ := by
  have hsize : content.length < 2 ^ 63 := by omega
  have hlength : content.length ≠ 0 := fun h => hne (List.length_eq_zero_iff.1 h)
  induction left with
  | zero =>
    intro idx position counter firstSlice hleft hpos hlt hcount
    obtain ⟨start, hstart, hfirst, hlast, -⟩ := blockSize_le hsize hlength hleft hpos
    obtain hstop | ⟨c, hc, hcounted, hrun⟩ :=
      backwardsFrom_succ 0 hlen hmax hstart rfl (by omega) hfirst hlt hcount
    · exact hstop
    · rw [hrun]
      refine ⟨start, ⟨hfirst, by omega, Or.inr ⟨hlast rfl, ?_⟩⟩, rfl⟩
      by_cases hnil : content.drop start = []
      · rw [hnil]
        exact Nat.zero_le num
      · have := (hcounted hnil).2
        omega
  | succ left ih =>
    intro idx position counter firstSlice hleft hpos hlt hcount
    obtain ⟨start, hstart, hfirst, -, hmore⟩ := blockSize_le hsize hlength hleft hpos
    obtain ⟨hnext, hshort⟩ := hmore (Nat.succ_ne_zero left)
    obtain hstop | ⟨c, hc, hcounted, hrun⟩ :=
      backwardsFrom_succ (left + 1) hlen hmax hstart rfl (by omega) hfirst hlt hcount
    · exact hstop
    · rw [hrun]
      have hnil : content.drop start ≠ [] := fun h => by
        have := List.drop_eq_nil_iff.1 h
        omega
      exact ih (idx + 1) start c false (by omega) hnext hc (hcounted hnil)

/-- The run stops at the last lines when they start where the blocks do, or later. -/
theorem Stops.iff {position : Nat} (h : Stops delimiter num content position) :
    content.drop position = lastLines delimiter num content ↔
      firstScanned content.length ≤ content.length - (lastLines delimiter num content).length := by
  obtain ⟨hfirst, hpos, hstop⟩ := h
  have hforward : content.drop position = lastLines delimiter num content →
      firstScanned content.length ≤ content.length - (lastLines delimiter num content).length := by
    intro heq
    rw [← heq, List.length_drop]
    omega
  refine ⟨hforward, fun hle => ?_⟩
  obtain heq | ⟨rfl, hlines⟩ := hstop
  · exact heq
  · obtain ⟨s, hs⟩ := exists_lastLines_append (content.take (firstScanned content.length)) hlines
    rw [List.take_append_drop] at hs
    have hlength := congrArg List.length hs
    rw [List.length_append, List.length_drop] at hlength
    have hbound := @length_lastLines_le _ _ delimiter num content
    have hnil : s = [] := List.eq_nil_of_length_eq_zero (by omega)
    rw [hs, hnil, List.nil_append]

theorem ReverseChunks.new_eq (hlen : content.length ≤ maxOffset) :
    ReverseChunks.new ⟨content, maxOffset, 0⟩ =
      some (⟨content.length, maxBlocks content.length, 0⟩, ⟨content, maxOffset, content.length⟩) := by
  rw [ReverseChunks.new, @File.seek_end ⟨content, maxOffset, 0⟩ hlen]
  simp only [Option.map_some, Nat.sub_zero, maxBlocks]

theorem firstScanned_zero : firstScanned 0 = 0 := if_neg fun h => h.1 rfl

theorem maxBlocks_zero : maxBlocks 0 = 0 := by
  rw [maxBlocks, show roundF64 0 = 0 from if_pos (by decide)]
  decide

/-- The file is left where the output starts, or behind that when lines start in the block that is not read. -/
theorem backwardsThruFile_iff (hlen : content.length ≤ maxOffset) (hmax : maxOffset < 2 ^ 63) :
    ∃ position, backwardsThruFile ⟨content, maxOffset, 0⟩ num delimiter = some ⟨content, maxOffset, position⟩ ∧
      (content.drop position = lastLines delimiter num content ↔
        firstScanned content.length ≤ content.length - (lastLines delimiter num content).length) := by
  have hfirst : firstScanned content.length ≤ content.length := by
    by_cases hzero : content.length = 0
    · rw [hzero, firstScanned_zero]
    · exact (maxBlocks_eq (by omega) hzero).2.2
  unfold backwardsThruFile
  by_cases hnum : num = 0
  · subst hnum
    rw [if_pos rfl, @File.seek_end ⟨content, maxOffset, 0⟩ hlen, lastLines_zero]
    refine ⟨content.length, rfl, ?_⟩
    simpa using hfirst
  · rw [if_neg hnum, ReverseChunks.new_eq hlen, Option.bind_some]
    simp only
    by_cases hne : content = []
    · subst hne
      rw [List.length_nil, maxBlocks_zero, firstScanned_zero]
      exact ⟨0, rfl, by simp [lastLines, pieces]⟩
    · have hlength : content.length ≠ 0 := fun h => hne (List.length_eq_zero_iff.1 h)
      obtain ⟨hpos, -, -⟩ := maxBlocks_eq (by omega) hlength
      obtain ⟨left, hleft⟩ : ∃ left, maxBlocks content.length = left + 1 := ⟨maxBlocks content.length - 1, by omega⟩
      obtain ⟨position, hstops, hrun⟩ := @backwardsFrom_eq delimiter num maxOffset content hne hlen hmax left 0
        content.length 0 true (by omega) (by omega) (Nat.pos_of_ne_zero hnum) ⟨by simp, rfl⟩
      rw [← hleft] at hrun
      exact ⟨position, hrun, hstops.iff⟩

end

/-! ## Reading forwards -/

theorem forwardsFrom_eq {delimiter : UInt8} {num : Nat} (rest : List (List UInt8)) : ∀ total count : Nat, count < num →
    total ≤ forwardsFrom num delimiter rest total count ∧
      forwardsFrom num delimiter rest total count ≤ total + rest.flatten.length ∧
      rest.flatten.drop (forwardsFrom num delimiter rest total count - total) =
        skip delimiter (num - count) rest.flatten := by
  induction rest with
  | nil =>
    intro total count _
    simp [forwardsFrom]
  | cons buf rest ih =>
    intro total count hlt
    rw [forwardsFrom, memchrIter, List.flatten_cons, List.length_append]
    obtain ⟨hcount, hrun⟩ | ⟨j, hj, hle, hrun, hskip⟩ := @countUntil_memchr delimiter buf 0 count num hlt
    · rw [hrun]
      simp only
      obtain ⟨hlow, hhigh, hdrop⟩ := ih (total + buf.length) (count + buf.count delimiter) hcount
      refine ⟨by omega, by omega, ?_⟩
      have hsub : num - count = buf.count delimiter + (num - (count + buf.count delimiter)) := by omega
      rw [hsub, skip_append (by omega), ← hdrop]
      rw [show forwardsFrom num delimiter rest (total + buf.length) (count + buf.count delimiter) - total =
        buf.length + (forwardsFrom num delimiter rest (total + buf.length) (count + buf.count delimiter) -
          (total + buf.length)) by omega, List.drop_length_add_append]
    · rw [hrun]
      simp only [Nat.zero_add]
      refine ⟨by omega, by omega, ?_⟩
      rw [skip_append_of_le (by omega), ← hskip, show total + j + 1 - total = j + 1 by omega,
        List.drop_append_of_le_length hj]

/-- Forwards the place is found behind which the lines are left. -/
theorem forwardsThruFile_eq {content : List UInt8} (reads : Reads content) (num : Nat) (delimiter : UInt8) :
    forwardsThruFile reads.pieces num delimiter ≤ content.length ∧
      content.drop (forwardsThruFile reads.pieces num delimiter) = skip delimiter num content := by
  unfold forwardsThruFile
  split
  · rename_i h
    subst h
    simp
  · rename_i h
    obtain ⟨-, hhigh, hdrop⟩ := @forwardsFrom_eq delimiter num reads.pieces 0 0 (Nat.pos_of_ne_zero h)
    rw [reads.flatten_eq] at hhigh hdrop
    exact ⟨by omega, hdrop⟩

end Peiosutils.Tail
