import Peiosutils.Tail.Backwards
import Peiosutils.Tail.Ring

/-!
# File and pipe print the same

`expected` says what the end of a text is, and `asDefined_iff` when both ways print it: the file when no line starts in
the block that is not read and the system can seek as far as the count (`boundedTail_iff`), the pipe when its chunks can
be dropped one by one and no count of zero is lowered by one (`unboundedTail_iff`).
-/

set_option autoImplicit false

namespace Peiosutils.Tail

open Lines

/-! ## What is asked for -/

/-- The bytes that a mode selects. -/
def expected (content : List UInt8) : FilterMode → List UInt8
  | .lines (.negative count) delimiter => lastLines delimiter count.toNat content
  | .lines (.positive count) delimiter => linesFrom delimiter count.toNat content
  | .bytes (.negative count) => content.drop (content.length - count.toNat)
  | .bytes (.positive count) => content.drop (count.toNat - 1)
  | .lines .plusZero _ => content
  | .bytes .plusZero => content
  | .lines .minusZero _ => []
  | .bytes .minusZero => []

/-- The file and the pipe print what is asked for. -/
def AsDefined {content : List UInt8} (maxOffset : Nat) (reads piped : Reads content) (mode : FilterMode) : Prop :=
  boundedTail content maxOffset reads mode = some (expected content mode) ∧
    unboundedTail piped mode = some (expected content mode)

/-- When the file prints it. -/
def BoundedFits (content : List UInt8) (maxOffset : Nat) : FilterMode → Prop
  | .lines (.negative count) delimiter =>
    firstScanned content.length ≤ content.length - (lastLines delimiter count.toNat content).length
  | .bytes (.negative count) =>
    count.toNat ≤ 2 ^ 63 ∨ content = [] ∨ maxOffset < content.length + (2 ^ 64 - count.toNat)
  | .bytes (.positive count) => count.toNat - 1 ≤ maxOffset
  | _ => True

/-- When the pipe prints it. -/
def UnboundedFits {content : List UInt8} (piped : Reads content) : FilterMode → Prop
  | .bytes (.negative count) => Droppable count.toNat piped.pieces
  | .bytes (.positive count) => count = 0 → content = []
  | .lines (.positive count) _ => count = 0 → content = []
  | _ => True

/-! ## The file -/

section

variable {content : List UInt8} {maxOffset : Nat}

theorem one_lt_iff (count : UInt64) : count > 1 ↔ 1 < count.toNat := UInt64.lt_iff_toNat_lt

theorem toNat_sub_one {count : UInt64} (h : 0 < count.toNat) : (count - 1).toNat = count.toNat - 1 :=
  UInt64.toNat_sub_of_le count 1 (UInt64.le_iff_toNat_le.2 h)

theorem lastBytes_file (hlen : content.length ≤ maxOffset) (hmax : maxOffset < 2 ^ 63) (reads : Reads content)
    (count : UInt64) :
    boundedTail content maxOffset reads (.bytes (.negative count)) = some (content.drop (content.length - count.toNat)) ↔
      count.toNat ≤ 2 ^ 63 ∨ content = [] ∨ maxOffset < content.length + (2 ^ 64 - count.toNat) := by
  have hcount := count.toNat_lt
  have hstart : File.seek ⟨content, maxOffset, 0⟩ (.fromStart 0) = some ⟨content, maxOffset, 0⟩ := by
    rw [File.seek_fromStart hmax]
    exact if_pos (Nat.zero_le _)
  have hwhole : content.length ≤ count.toNat → content.take count.toNat = content.drop (content.length - count.toNat) := by
    intro hle
    rw [List.take_of_length_le hle, Nat.sub_eq_zero_of_le hle, List.drop_zero]
  simp only [boundedTail]
  rw [@File.seek_last ⟨content, maxOffset, 0⟩ hlen hmax count]
  by_cases h63 : count.toNat ≤ 2 ^ 63
  · rw [if_pos h63]
    simp only [h63, true_or, iff_true]
    by_cases hle : count.toNat ≤ content.length
    · rw [if_pos hle]
      simp only [printTargetSection, File.rest]
      rw [List.take_of_length_le]
      rw [List.length_drop]
      omega
    · rw [if_neg hle]
      simp only [hstart, Option.map_some, printTargetSection, File.rest, List.drop_zero]
      rw [hwhole (by omega)]
  · rw [if_neg h63]
    have hle : content.length ≤ count.toNat := by omega
    have hsame := hwhole hle
    rw [Nat.sub_eq_zero_of_le hle, List.drop_zero] at hsame ⊢
    by_cases hfits : content.length + (2 ^ 64 - count.toNat) ≤ maxOffset
    · rw [if_pos hfits]
      simp only [printTargetSection, File.rest]
      rw [List.drop_of_length_le (by omega), List.take_nil]
      constructor
      · intro h
        exact Or.inr (Or.inl (Option.some.inj h).symm)
      · rintro (h | h | h)
        · exact absurd h h63
        · rw [h]
        · exact absurd hfits (Nat.not_le_of_lt h)
    · rw [if_neg hfits]
      simp only [hstart, Option.map_some, printTargetSection, File.rest, List.drop_zero, hsame, true_iff]
      exact Or.inr (Or.inr (Nat.lt_of_not_le hfits))

theorem bytesFrom_file (hmax : maxOffset < 2 ^ 63) (reads : Reads content) (count : UInt64) :
    boundedTail content maxOffset reads (.bytes (.positive count)) = some (content.drop (count.toNat - 1)) ↔
      count.toNat - 1 ≤ maxOffset := by
  simp only [boundedTail]
  by_cases hone : 1 < count.toNat
  · rw [if_pos ((one_lt_iff count).2 hone), File.seek_fromStart hmax, toNat_sub_one (by omega)]
    by_cases hle : count.toNat - 1 ≤ maxOffset
    · rw [if_pos hle]
      simp [hle, printTargetSection, File.rest]
    · rw [if_neg hle]
      simp [hle]
  · rw [if_neg (mt (one_lt_iff count).1 hone), Nat.sub_eq_zero_of_le (Nat.le_of_not_lt hone)]
    simp [printTargetSection, File.rest]

theorem linesFrom_file (hlen : content.length ≤ maxOffset) (hmax : maxOffset < 2 ^ 63) (reads : Reads content)
    (count : UInt64) (delimiter : UInt8) :
    boundedTail content maxOffset reads (.lines (.positive count) delimiter) =
      some (linesFrom delimiter count.toNat content) := by
  simp only [boundedTail]
  rw [linesFrom_eq]
  by_cases hone : 1 < count.toNat
  · obtain ⟨hle, hdrop⟩ := forwardsThruFile_eq reads (count - 1).toNat delimiter
    rw [if_pos ((one_lt_iff count).2 hone), File.seek_fromStart hmax]
    generalize forwardsThruFile reads.pieces (count - 1).toNat delimiter = i at hle hdrop
    have hsmall : (UInt64.ofNat i).toNat = i := UInt64.toNat_ofNat_of_lt' (Nat.lt_of_le_of_lt hle (by
      rw [UInt64.size]
      omega))
    rw [hsmall, if_pos (show i ≤ maxOffset from Nat.le_trans hle hlen)]
    simp only [Option.map_some, printTargetSection, File.rest]
    rw [hdrop, toNat_sub_one (by omega)]
  · rw [if_neg (mt (one_lt_iff count).1 hone), Nat.sub_eq_zero_of_le (Nat.le_of_not_lt hone), skip_zero]
    rfl

/-- When the file prints what is asked for. -/
theorem boundedTail_iff (hlen : content.length ≤ maxOffset) (hmax : maxOffset < 2 ^ 63) (reads : Reads content)
    (mode : FilterMode) :
    boundedTail content maxOffset reads mode = some (expected content mode) ↔ BoundedFits content maxOffset mode := by
  have hend : (File.seek ⟨content, maxOffset, 0⟩ (.fromEnd 0)).map (printTargetSection · none) = some [] := by
    rw [@File.seek_end ⟨content, maxOffset, 0⟩ hlen]
    simp [printTargetSection, File.rest]
  cases mode with
  | lines signum delimiter =>
    cases signum with
    | negative count =>
      obtain ⟨position, hrun, hiff⟩ :=
        @backwardsThruFile_iff delimiter count.toNat maxOffset content hlen hmax
      rw [boundedTail, hrun, Option.map_some, Option.some.injEq]
      exact hiff
    | positive count => exact iff_of_true (linesFrom_file hlen hmax reads count delimiter) trivial
    | plusZero => exact iff_of_true rfl trivial
    | minusZero => exact iff_of_true hend trivial
  | bytes signum =>
    cases signum with
    | negative count => exact lastBytes_file hlen hmax reads count
    | positive count => exact bytesFrom_file hmax reads count
    | plusZero => exact iff_of_true rfl trivial
    | minusZero => exact iff_of_true hend trivial

/-! ## The pipe -/

theorem drop_eq_nil_iff_of_pos {l : List UInt8} (h : l.drop (2 ^ 64 - 1) = l) : l = [] := by
  have := congrArg List.length h
  rw [List.length_drop] at this
  apply List.eq_nil_of_length_eq_zero
  omega

theorem skip_lt {delimiter : UInt8} {k : Nat} (hk : 0 < k) {l : List UInt8} (h : skip delimiter k l = l) : l = [] := by
  cases l with
  | nil => rfl
  | cons x xs =>
    obtain ⟨j, rfl⟩ : ∃ j, k = j + 1 := ⟨k - 1, by omega⟩
    have hlength := congrArg List.length h
    rw [skip] at hlength
    have hle : ∀ k, (skip delimiter k xs).length < (x :: xs).length := fun k =>
      Nat.lt_succ_of_le (length_skip_le k xs)
    split at hlength
    · exact absurd hlength (Nat.ne_of_lt (hle j))
    · exact absurd hlength (Nat.ne_of_lt (hle (j + 1)))

/-- A count of zero is lowered to the largest one. -/
theorem toNat_zero_sub_one : ((0 : UInt64) - 1).toNat = 2 ^ 64 - 1 := by decide

theorem from_pipe {drop : Nat → List UInt8} (hzero : drop 0 = content)
    (hlast : drop (2 ^ 64 - 1) = content → content = []) (hnil : content = [] → drop (2 ^ 64 - 1) = content)
    (count : UInt64) :
    (if count = 1 then content else drop (count - 1).toNat) = drop (count.toNat - 1) ↔ (count = 0 → content = []) := by
  by_cases hone : count = 1
  · subst hone
    rw [if_pos rfl]
    exact iff_of_true hzero.symm fun h => absurd h (by decide)
  · rw [if_neg hone]
    by_cases hcount : count = 0
    · subst hcount
      rw [toNat_zero_sub_one, show (0 : UInt64).toNat - 1 = 0 from rfl, hzero]
      exact ⟨fun h _ => hlast h, fun h => hnil (h rfl)⟩
    · have hpos : 0 < count.toNat := Nat.pos_of_ne_zero fun h => hcount (UInt64.toNat_inj.1 h)
      rw [toNat_sub_one hpos]
      exact iff_of_true rfl fun h => absurd h hcount

/-- When the pipe prints what is asked for. -/
theorem unboundedTail_iff (piped : Reads content) (mode : FilterMode) :
    unboundedTail piped mode = some (expected content mode) ↔ UnboundedFits piped mode := by
  have hflat := piped.flatten_eq
  match mode with
  | .lines (.negative count) delimiter => exact iff_of_true (fill_lines piped delimiter count.toNat) trivial
  | .lines (.positive count) delimiter =>
    simp only [unboundedTail, expected, UnboundedFits, Option.some.injEq]
    rw [linesFrom_eq, skipLines_eq, hflat]
    apply @from_pipe content (fun k => skip delimiter k content) (skip_zero content) (skip_lt (by decide))
    rintro rfl
    exact skip_nil _
  | .bytes (.negative count) =>
    simp only [unboundedTail, expected, UnboundedFits, Option.some.injEq]
    exact fill_bytes_iff piped count.toNat
  | .bytes (.positive count) =>
    simp only [unboundedTail, expected, UnboundedFits, Option.some.injEq]
    rw [skipBytes_eq, hflat]
    apply @from_pipe content (fun k => content.drop k) List.drop_zero drop_eq_nil_iff_of_pos
    rintro rfl
    exact List.drop_nil
  | .lines .plusZero _ => exact iff_of_true (congrArg some hflat) trivial
  | .bytes .plusZero => exact iff_of_true (congrArg some hflat) trivial
  | .lines .minusZero delimiter =>
    have hnone := fill_lines piped delimiter 0
    rw [lastLines_zero] at hnone
    exact iff_of_true hnone trivial
  | .bytes .minusZero => exact iff_of_true rfl trivial

end

/-! ## Both -/

/-- The file and the pipe print the end of a text, in whatever pieces they are read, exactly when no line is asked for
that starts in a block that is not read, the system can seek as far as the count, the superfluous chunks of the pipe can
be dropped one by one, and the count is not zero. -/
theorem asDefined_iff {content : List UInt8} {maxOffset : Nat} (hlen : content.length ≤ maxOffset)
    (hmax : maxOffset < 2 ^ 63) (reads piped : Reads content) (mode : FilterMode) :
    AsDefined maxOffset reads piped mode ↔ BoundedFits content maxOffset mode ∧ UnboundedFits piped mode :=
  and_congr (boundedTail_iff hlen hmax reads mode) (unboundedTail_iff piped mode)

/-- A text that is read at once. -/
def Reads.whole (content : List UInt8) : Reads content where
  pieces := if content = [] then [] else [content]
  nonempty := by
    intro p hp
    split at hp
    · cases hp
    · rename_i h
      rwa [List.mem_singleton.1 hp]
  flatten_eq := by
    split
    · rename_i h
      exact h.symm
    · exact List.append_nil content

/-- The last of two lines. -/
theorem asDefined_two_lines :
    [97, 10, 98].length ≤ 100 ∧ 100 < 2 ^ 63 ∧
      AsDefined 100 (Reads.whole [97, 10, 98]) (Reads.whole [97, 10, 98]) (.lines (.negative 1) 10) := by
  have hlen : ([97, 10, 98] : List UInt8).length ≤ 100 := by decide
  have hmax : 100 < 2 ^ 63 := by decide
  have hfits : BoundedFits [97, 10, 98] 100 (.lines (.negative 1) 10) :=
    (by decide : firstScanned 3 ≤ 3 - (lastLines 10 1 ([97, 10, 98] : List UInt8)).length)
  exact ⟨hlen, hmax, (asDefined_iff hlen hmax (Reads.whole _) (Reads.whole _) _).2 ⟨hfits, trivial⟩⟩

/-- A file of one block. -/
def oneBlock : List UInt8 := List.replicate 65536 97

theorem length_oneBlock : oneBlock.length = 65536 := List.length_replicate

theorem lastLines_oneBlock : lastLines 10 1 oneBlock = oneBlock := by
  apply lastLines_of_le
  have hcount : oneBlock.count 10 = 0 := List.count_eq_zero.2 fun h => by
    have := List.eq_of_mem_replicate h
    cases this
  rw [length_pieces, hcount]
  split <;> decide

/-- The last line of a file of one block is not printed, and of a pipe that is read in three pieces the last read is
printed for the last byte. -/
theorem lastLine_lost :
    boundedTail oneBlock 9223372036854775807 (Reads.whole oneBlock) (.lines (.negative 1) 10) ≠
        some (expected oneBlock (.lines (.negative 1) 10)) ∧
      unboundedTail (@Reads.mk [97, 98, 99, 100, 101] [[97], [98], [99, 100, 101]] (by decide) (by decide))
        (.bytes (.negative 1)) = some [99, 100, 101] ∧
      expected [97, 98, 99, 100, 101] (.bytes (.negative 1)) = [101] := by
  refine ⟨?_, by decide, by decide⟩
  have hlen : oneBlock.length ≤ 9223372036854775807 := by
    rw [length_oneBlock]
    decide
  apply mt (boundedTail_iff hlen (by decide) _ _).1
  have hfirst : firstScanned 65536 = 65536 := by decide
  intro hfits
  simp only [BoundedFits, length_oneBlock, UInt64.reduceToNat, lastLines_oneBlock, hfirst] at hfits
  omega

end Peiosutils.Tail
