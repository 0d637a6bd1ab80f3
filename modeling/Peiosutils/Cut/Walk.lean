import Peiosutils.Lib.Cuts
import Peiosutils.Lib.Lines
import Peiosutils.Uucore.Ranges

/-!
# Cutting fields (`cut.rs`, `searcher.rs`, `matcher.rs`)

Both routines go through the ranges and through the delimiters of a record: the one writes an output delimiter of its own
between the fields, the other writes the delimiters that stand between them. A panic is `none`. A delimiter that is the
record terminator is not for these routines.
-/

set_option autoImplicit false

namespace Peiosutils.Cut

open Ranges (Range sub add)

abbrev Bytes := List UInt8

/-! ## Delimiters -/

/-- Where the needle, which is not empty, is found: its first byte, and then the others behind it. -/
def exactMatch (needle : Bytes) : (pos : Nat) → Bytes → Option (Nat × Nat)
  | _, [] => none
  | pos, b :: bs =>
    if needle.head? = some b ∧ (needle.length = 1 ∨ needle.tail.isPrefixOf bs = true) then
      some (pos, pos + needle.length)
    else exactMatch needle (pos + 1) bs

def exactMatcher (needle : Bytes) : Matcher UInt8 := exactMatch needle 0

def isBlank (b : UInt8) : Bool := b == 32 || b == 9

/-- A run of blanks. -/
def whitespaceMatcher : Matcher UInt8 := fun haystack =>
  let rest := haystack.dropWhile (!isBlank ·)
  if rest = [] then none
  else some (haystack.length - rest.length, haystack.length - (rest.dropWhile isBlank).length)

/-- `Searcher::next`, until there is no more. -/
def search (m : Matcher UInt8) (haystack : Bytes) : (fuel : Nat) → (position : Nat) → List (Nat × Nat)
  | 0, _ => []
  | fuel + 1, position =>
    match m (haystack.drop position) with
    | none => []
    | some (first, last) => (first + position, last + position) :: search m haystack fuel (position + last)

/-- All delimiters of a record. -/
def delims (m : Matcher UInt8) (line : Bytes) : List (Nat × Nat) := search m line line.length 0

/-! ## The fields of a record -/

def slice (line : Bytes) (low high : Nat) : Option Bytes :=
  if low ≤ high ∧ high ≤ line.length then some ((line.take high).drop low) else none

/-- Where the loops over a record are. -/
structure Cutting where
  fieldsPos : Nat
  lowIdx : Nat
  delims : List (Nat × Nat)
  printDelim : Bool
  deriving DecidableEq, Repr

/-- Past `n` delimiters, to the end of the last of them, or to its start where it is kept; none if they run out. -/
def jump (st : Cutting) (n : Nat) (keep : Bool) : Option Cutting :=
  if 0 < n then
    match st.delims.drop (n - 1) with
    | [] => none
    | (first, last) :: delims => some { st with lowIdx := if keep then first else last, delims := delims }
  else some st

/-- The last byte of the line; there must be one. -/
def endsWith (line : Bytes) (b : UInt8) : Option Bool := line.getLast?.map (· == b)

section Record

variable (line : Bytes) (newline : UInt8)

/-- The fields of one range with the explicit delimiter; there is no state when the record is written to its end. -/
def explicitFields (outDelim : Bytes) (high : Nat) : (count : Nat) → Cutting → (out : Bytes) →
    Option (Bytes × Option Cutting)
  | 0, st, out => some (out, some st)
  | count + 1, st, out =>
    let out := if st.printDelim then out ++ outDelim else out
    match st.delims with
    | (first, last) :: delims => do
      let segment ← slice line st.lowIdx first
      let fieldsPos ← add high 1
      explicitFields outDelim high count ⟨fieldsPos, last, delims, true⟩ (out ++ segment)
    | [] => do
      let segment ← slice line st.lowIdx line.length
      let ended ← endsWith line newline
      return (out ++ segment, if ended then none else some { st with printDelim := true })

def explicitRanges (outDelim : Bytes) : List Range → Cutting → (out : Bytes) → Option Bytes
  | [], _, out => some (out ++ [newline])
  | range :: ranges, st, out => do
    let gap ← sub range.low st.fieldsPos
    match jump st gap false with
    | none => return out ++ [newline]
    | some st =>
      let count ← sub range.high range.low
      match ← explicitFields line newline outDelim range.high (count + 1) st out with
      | (out, none) => return out
      | (out, some st) => explicitRanges outDelim ranges st out

def implicitRanges : List Range → Cutting → (out : Bytes) → Option Bytes
  | [], _, out => some (out ++ [newline])
  | range :: ranges, st, out => do
    let gap ← sub range.low st.fieldsPos
    match jump st gap st.printDelim with
    | none => return out ++ [newline]
    | some st =>
      let count ← sub range.high range.low
      match st.delims.drop count with
      | (first, _) :: delims => do
        let segment ← slice line st.lowIdx first
        let fieldsPos ← add range.high 1
        implicitRanges ranges ⟨fieldsPos, first, delims, true⟩ (out ++ segment)
      | [] => do
        let segment ← slice line st.lowIdx line.length
        let ended ← endsWith line newline
        return out ++ segment ++ if ended then [] else [newline]

/-- A record without a delimiter is written as a whole, or not at all; `ranges` writes one that has some. -/
def cutRecord (m : Matcher UInt8) (onlyDelimited : Bool) (ranges : Cutting → Option Bytes) : Option Bytes :=
  if delims m line = [] then
    some (if onlyDelimited then [] else line ++ if line.getLast? = some newline then [] else [newline])
  else ranges ⟨1, 0, delims m line, false⟩

end Record

/-- The output delimiter is given. -/
def cutFieldsExplicitOutDelim (m : Matcher UInt8) (ranges : List Range) (onlyDelimited : Bool) (newline : UInt8)
    (outDelim input : Bytes) : Option Bytes := do
  let records ← (Lines.pieces newline input).mapM fun line =>
    cutRecord line newline m onlyDelimited fun st => explicitRanges line newline outDelim ranges st []
  return records.flatten

/-- The output delimiter is the one of the input. -/
def cutFieldsImplicitOutDelim (m : Matcher UInt8) (ranges : List Range) (onlyDelimited : Bool) (newline : UInt8)
    (input : Bytes) : Option Bytes := do
  let records ← (Lines.pieces newline input).mapM fun line =>
    cutRecord line newline m onlyDelimited fun st => implicitRanges line newline ranges st []
  return records.flatten

end Peiosutils.Cut

/-!
# Walking through the delimiters of a record

`At` says what is left of a record at an index: some fields with their delimiters, and a last one. From there both routines
write the fields the ranges choose (`implicitRanges_at`, `explicitRanges_at`); the routine with the explicit delimiter writes
the last field of an open record once more where a range that it ends is followed by a range that starts right behind it
(`AgainAt`).
-/

namespace Peiosutils.Cut

open Ranges (Range sub add usizeMax)
open Stretch (Ascending)
open Cuts (joined)

/-! ## Places in a record -/

/-- Where the delimiters of some fields are, of which the first starts at `pos`. -/
def spans : (pos : Nat) → List (Bytes × Bytes) → List (Nat × Nat)
  | _, [] => []
  | pos, (field, delim) :: ps =>
    (pos + field.length, pos + field.length + delim.length) :: spans (pos + field.length + delim.length) ps

@[simp] theorem length_spans (pos : Nat) (ps : List (Bytes × Bytes)) : (spans pos ps).length = ps.length := by
  induction ps generalizing pos with
  | nil => rfl
  | cons p ps ih => rw [spans, List.length_cons, List.length_cons, ih]

theorem spans_append (pos : Nat) (qs ps : List (Bytes × Bytes)) :
    spans pos (qs ++ ps) = spans pos qs ++ spans (pos + (joined qs).length) ps := by
  induction qs generalizing pos with
  | nil => rfl
  | cons q qs ih =>
    have hpos : pos + q.1.length + q.2.length + (joined qs).length = pos + (joined (q :: qs)).length := by
      rw [joined, joined, List.flatMap_cons, List.length_append, List.length_append]
      omega
    rw [List.cons_append, spans, ih, hpos, spans, List.cons_append]

/-- The delimiters are those of the cut. -/
theorem search_eq {m : Matcher UInt8} (hm : Cuts.Sound m) (line : Bytes) (fuel position : Nat)
    (h : (line.drop position).length ≤ fuel) :
    search m line fuel position = spans position (Cuts.of m (line.drop position)).pairs := by
  induction fuel generalizing position with
  | zero =>
    have hnil : line.drop position = [] := List.eq_nil_of_length_eq_zero (Nat.le_zero.1 h)
    rw [hnil]
    rfl
  | succ fuel ih =>
    rw [search]
    cases hmatch : m (line.drop position) with
    | none =>
      rw [Cuts.of_none hmatch]
      rfl
    | some span =>
      obtain ⟨first, last⟩ := span
      obtain ⟨hlt, hle⟩ := hm _ first last hmatch
      have hdrop : (line.drop position).drop last = line.drop (position + last) := List.drop_drop
      have hlen : (line.drop (position + last)).length = (line.drop position).length - last := by
        rw [← hdrop, List.length_drop]
      have htake : ((line.drop position).take first).length = first := by
        rw [List.length_take]
        omega
      have hdelim : (((line.drop position).take last).drop first).length = last - first := by
        rw [List.length_drop, List.length_take]
        omega
      rw [Cuts.of_some hm hmatch, spans, htake, hdelim, hdrop]
      have hpos : position + first + (last - first) = position + last := by omega
      dsimp only
      rw [ih _ (by omega), hpos, Nat.add_comm first, Nat.add_comm last]

/-- What is left of a record: `pre`, some fields with their delimiters, and the last one. -/
structure At (line : Bytes) (lowIdx : Nat) (delims : List (Nat × Nat)) (pre : Bytes) (ps : List (Bytes × Bytes))
    (rest : Bytes) : Prop where
  le : lowIdx ≤ line.length
  text : line.drop lowIdx = pre ++ (joined ps ++ rest)
  delims_eq : delims = spans (lowIdx + pre.length) ps

variable {line pre rest : Bytes} {lowIdx : Nat} {ds : List (Nat × Nat)} {ps : List (Bytes × Bytes)}

theorem slice_eq {front back : Bytes} (hle : lowIdx ≤ line.length) (h : line.drop lowIdx = front ++ back) :
    slice line lowIdx (lowIdx + front.length) = some front ∧ line.drop (lowIdx + front.length) = back ∧
      lowIdx + front.length ≤ line.length := by
  have hlen : line.length - lowIdx = front.length + back.length := by
    rw [← List.length_drop, h, List.length_append]
  refine ⟨?_, ?_, by omega⟩
  · rw [slice, if_pos ⟨Nat.le_add_right _ _, by omega⟩, List.drop_take, h, Nat.add_sub_cancel_left, List.take_left]
  · rw [← List.drop_drop, h, List.drop_left]

/-- The last field, up to the end. -/
theorem At.slice_last (h : At line lowIdx ds pre ps rest) :
    slice line lowIdx line.length = some (pre ++ (joined ps ++ rest)) := by
  rw [slice, if_pos ⟨h.le, Nat.le_refl _⟩, List.take_length, h.text]

/-- A delimiter, the text before it, and what is left at its start and behind it. -/
theorem At.cut (qs : List (Bytes × Bytes)) {ps' : List (Bytes × Bytes)} {field delim : Bytes}
    (h : At line lowIdx ds pre (qs ++ (field, delim) :: ps') rest) :
    ∃ first last ds', ds.drop qs.length = (first, last) :: ds' ∧
      slice line lowIdx first = some (pre ++ (joined qs ++ field)) ∧
      At line first ds' delim ps' rest ∧ At line last ds' [] ps' rest := by
  have htext : line.drop lowIdx = (pre ++ (joined qs ++ field)) ++ (delim ++ (joined ps' ++ rest)) := by
    rw [h.text, joined, List.flatMap_append, List.flatMap_cons]
    simp only [joined, List.append_assoc]
  obtain ⟨hslice, hdrop, hle⟩ := slice_eq h.le htext
  have hlen : (pre ++ (joined qs ++ field)).length = pre.length + (joined qs).length + field.length := by
    simp only [List.length_append, Nat.add_assoc]
  rw [hlen, ← Nat.add_assoc, ← Nat.add_assoc] at hslice hdrop hle
  obtain ⟨-, hdrop', hle'⟩ := slice_eq hle hdrop
  refine ⟨_, _, _, ?_, hslice, ⟨hle, hdrop, rfl⟩, hle', hdrop', rfl⟩
  rw [h.delims_eq, spans_append]
  have := length_spans (lowIdx + pre.length) qs
  rw [← this, List.drop_left]
  rfl

/-- No delimiter so far behind. -/
theorem At.drop_eq_nil (h : At line lowIdx ds pre ps rest) {n : Nat} : ds.drop n = [] ↔ ps.length ≤ n := by
  rw [List.drop_eq_nil_iff, h.delims_eq, length_spans]

/-! ## The chosen fields -/

/-- The fields in the ranges, of which the first is the one at `pos`. -/
def chosen : (pos : Nat) → List Range → List Bytes → List Bytes
  | _, [], _ => []
  | pos, range :: ranges, fields =>
    (fields.drop (range.low - pos)).take (range.high - range.low + 1) ++
      chosen (range.high + 1) ranges (fields.drop (range.high + 1 - pos))

/-- Nothing is chosen of no fields. -/
@[simp] theorem chosen_nil (pos : Nat) (ranges : List Range) : chosen pos ranges [] = [] := by
  induction ranges generalizing pos with
  | nil => rfl
  | cons range ranges ih => rw [chosen, List.drop_nil, List.take_nil, List.drop_nil, ih, List.append_nil]

/-- The fields, a delimiter between them, and one before them if there are fields before them. -/
def prints (delim : Bytes) : (before : Bool) → List Bytes → Bytes
  | _, [] => []
  | before, field :: fields => (if before then delim else []) ++ field ++ prints delim true fields

@[simp] theorem prints_append (delim : Bytes) (before : Bool) (fs gs : List Bytes) :
    prints delim before (fs ++ gs) = prints delim before fs ++ prints delim (before || !fs.isEmpty) gs := by
  induction fs generalizing before with
  | nil => simp [prints]
  | cons f fs ih => simp [prints, ih]

theorem prints_false (delim : Bytes) (fs : List Bytes) : prints delim false fs = delim.intercalate fs := by
  cases fs with
  | nil => rfl
  | cons f fs =>
    have htrue : ∀ fs : List Bytes, prints delim true fs = fs.flatMap (delim ++ ·) := by
      intro fs
      induction fs with
      | nil => rfl
      | cons f fs ih => rw [prints, ih, List.flatMap_cons, if_pos rfl]
    rw [prints, htrue, if_neg Bool.false_ne_true, List.nil_append]
    induction fs generalizing f with
    | nil => simp [List.intercalate]
    | cons g gs ih =>
      rw [List.flatMap_cons, List.append_assoc, ih g]
      simp [List.intercalate]

/-- Where all delimiters are the one that is written, the text is the fields with it. -/
theorem prints_eq_joined {delim : Bytes} {qs : List (Bytes × Bytes)} (h : ∀ q ∈ qs, q.2 = delim) (before : Bool)
    (field : Bytes) :
    prints delim before (qs.map Prod.fst ++ [field]) = (if before then delim else []) ++ (joined qs ++ field) := by
  induction qs generalizing before with
  | nil => simp [prints, joined]
  | cons q qs ih =>
    rw [List.map_cons, List.cons_append, prints, ih (fun q' hq' => h q' (List.mem_cons_of_mem q hq')) true, if_pos rfl,
      joined, joined, List.flatMap_cons, h q List.mem_cons_self]
    simp only [List.append_assoc]

/-- The ranges after one that holds the last field, and a field before it, start right behind it. -/
def AgainAt (last : Nat) : List Range → Prop
  | r :: s :: ranges => (r.low < last ∧ last ≤ r.high ∧ s.low = r.high + 1) ∨ AgainAt last (s :: ranges)
  | _ => False

instance decidableAgainAt (last : Nat) : (ranges : List Range) → Decidable (AgainAt last ranges)
  | [] => .isFalse id
  | [_] => .isFalse id
  | _ :: s :: ranges =>
    have := decidableAgainAt last (s :: ranges)
    inferInstanceAs (Decidable (_ ∨ _))

theorem not_againAt {b last : Nat} {ranges : List Range} (h : Ascending b ranges) (hle : last ≤ b + 1) :
    ¬ AgainAt last ranges := by
  induction ranges generalizing b with
  | nil => exact id
  | cons r ranges ih =>
    obtain ⟨hb, hr, hrs⟩ := h
    cases ranges with
    | nil => exact id
    | cons s ranges =>
      rintro (hagain | hagain)
      · omega
      · exact ih hrs (by omega) hagain

/-- Behind a range that ends before the last field. -/
theorem againAt_cons {r : Range} {ranges : List Range} {last : Nat} (h : r.high < last) :
    AgainAt last (r :: ranges) ↔ AgainAt last ranges := by
  cases ranges with
  | nil => exact Iff.rfl
  | cons s ranges =>
    rw [AgainAt]
    constructor
    · rintro (hagain | hagain)
      · omega
      · exact hagain
    · exact Or.inr

/-- At a range that holds the last field. -/
theorem againAt_cons_of_le {r : Range} {ranges : List Range} {last : Nat} (hrs : Ascending r.high ranges)
    (h : last ≤ r.high) :
    AgainAt last (r :: ranges) ↔ r.low < last ∧ ranges.head?.map Stretch.low = some (r.high + 1) := by
  cases ranges with
  | nil => simp [AgainAt]
  | cons s ranges =>
    rw [AgainAt]
    simp only [List.head?_cons, Option.map_some, Option.some.injEq]
    constructor
    · rintro (⟨hlow, -, hs⟩ | hagain)
      · exact ⟨hlow, hs⟩
      · exact absurd hagain (not_againAt hrs (by omega))
    · exact fun ⟨hlow, hs⟩ => Or.inl ⟨hlow, h, hs⟩

/-! ## The routine with the explicit delimiter -/

section Loops

variable {newline : UInt8} {outDelim last : Bytes}

theorem sub_eq {a b : Nat} (h : b ≤ a) : sub a b = some (a - b) := if_pos h

theorem add_one_eq {a : Nat} (h : a ≤ usizeMax - 1) : add a 1 = some (a + 1) := by
  have : 1 ≤ usizeMax := by decide
  exact if_pos (by omega)

/-- Fields that all have a delimiter behind them. -/
theorem explicitFields_of_le (outDelim : Bytes) {high count : Nat} (hhigh : high ≤ usizeMax - 1) (st : Cutting) (out : Bytes)
    (hat : At line st.lowIdx st.delims [] ps rest) (hcount : count ≤ ps.length) :
    ∃ idx delims, At line idx delims [] (ps.drop count) rest ∧
      explicitFields line newline outDelim high count st out =
        some (out ++ prints outDelim st.printDelim ((ps.take count).map Prod.fst),
          some ⟨if count = 0 then st.fieldsPos else high + 1, idx, delims, st.printDelim || decide (0 < count)⟩) := by
  induction count generalizing st ps out with
  | zero => exact ⟨st.lowIdx, st.delims, hat, by simp [explicitFields, prints]⟩
  | succ count ih =>
    cases ps with
    | nil => cases hcount
    | cons p ps =>
      obtain ⟨field, delim⟩ := p
      obtain ⟨first, stop, ds', hds, hslice, -, hat'⟩ := hat.cut []
      rw [List.length_nil, List.drop_zero] at hds
      rw [List.nil_append, joined, List.flatMap_nil, List.nil_append] at hslice
      obtain ⟨idx, delims, hat'', hrun⟩ := ih ⟨high + 1, stop, ds', true⟩
        ((if st.printDelim then out ++ outDelim else out) ++ field) hat' (Nat.le_of_succ_le_succ hcount)
      refine ⟨idx, delims, hat'', ?_⟩
      rw [explicitFields, hds]
      simp only [hslice, add_one_eq hhigh, Option.bind_eq_bind, Option.bind_some, hrun]
      cases st.printDelim <;> simp [prints]

/-- All fields up to the last one. -/
theorem explicitFields_of_lt (outDelim : Bytes) {high count : Nat} (hhigh : high ≤ usizeMax - 1) {ended : Bool}
    (hend : endsWith line newline = some ended) (st : Cutting) (out : Bytes)
    (hat : At line st.lowIdx st.delims [] ps rest) (hcount : ps.length < count) :
    ∃ idx, At line idx [] [] [] rest ∧
      explicitFields line newline outDelim high count st out =
        some (out ++ prints outDelim st.printDelim (ps.map Prod.fst ++ [rest]),
          if ended then none else some ⟨if ps = [] then st.fieldsPos else high + 1, idx, [], true⟩) := by
  induction count generalizing st ps out with
  | zero => cases hcount
  | succ count ih =>
    cases ps with
    | nil =>
      have hds : st.delims = [] := hat.delims_eq
      have hslice := hat.slice_last
      rw [List.nil_append, joined, List.flatMap_nil, List.nil_append] at hslice
      refine ⟨st.lowIdx, hds ▸ hat, ?_⟩
      rw [explicitFields, hds]
      simp only [hslice, hend, Option.bind_eq_bind, Option.bind_some]
      cases st.printDelim <;> simp [prints]
    | cons p ps =>
      obtain ⟨field, delim⟩ := p
      obtain ⟨first, stop, ds', hds, hslice, -, hat'⟩ := hat.cut []
      rw [List.length_nil, List.drop_zero] at hds
      rw [List.nil_append, joined, List.flatMap_nil, List.nil_append] at hslice
      obtain ⟨idx, hat'', hrun⟩ := ih ⟨high + 1, stop, ds', true⟩
        ((if st.printDelim then out ++ outDelim else out) ++ field) hat' (Nat.lt_of_succ_lt_succ hcount)
      refine ⟨idx, hat'', ?_⟩
      rw [explicitFields, hds]
      simp only [hslice, add_one_eq hhigh, Option.bind_eq_bind, Option.bind_some, hrun]
      cases st.printDelim <;> simp [prints]

/-- Where there is no delimiter left, the last field is written again if the next range starts where the field position is. -/
theorem explicitRanges_done (hend : endsWith line newline = some false) {fieldsPos b : Nat} {ranges : List Range}
    (hasc : Ascending b ranges) (hb : fieldsPos ≤ b + 1) (hhigh : ∀ r ∈ ranges, r.high ≤ usizeMax - 1)
    (hat : At line lowIdx [] [] [] last) (out : Bytes) :
    explicitRanges line newline outDelim ranges ⟨fieldsPos, lowIdx, [], true⟩ out =
      some (out ++ (if ranges.head?.map Stretch.low = some fieldsPos then outDelim ++ last else []) ++ [newline]) := by
  induction ranges generalizing b out with
  | nil => simp [explicitRanges]
  | cons r ranges ih =>
    obtain ⟨hlow, hr, hrs⟩ := hasc
    rw [explicitRanges, sub_eq (by omega : fieldsPos ≤ r.low)]
    simp only [Option.bind_eq_bind, Option.bind_some, List.head?_cons, Option.map_some, Option.some.injEq]
    by_cases heq : r.low = fieldsPos
    · have hjump : jump ⟨fieldsPos, lowIdx, [], true⟩ (r.low - fieldsPos) false = some ⟨fieldsPos, lowIdx, [], true⟩ := by
        rw [jump, if_neg (by omega)]
      have hfields : explicitFields line newline outDelim r.high (r.high - r.low + 1) ⟨fieldsPos, lowIdx, [], true⟩ out =
          some (out ++ (outDelim ++ last), some ⟨fieldsPos, lowIdx, [], true⟩) := by
        have hslice := hat.slice_last
        rw [List.nil_append, joined, List.flatMap_nil, List.nil_append] at hslice
        simp [explicitFields, hslice, hend]
      have hnext : ranges.head?.map Stretch.low ≠ some fieldsPos := by
        cases ranges with
        | nil => simp
        | cons s ranges =>
          obtain ⟨hs, -⟩ := hrs
          simp only [List.head?_cons, Option.map_some, ne_eq, Option.some.injEq]
          omega
      rw [hjump, if_pos heq]
      simp only [sub_eq hr, Option.bind_some, hfields]
      rw [ih hrs (by omega) (fun s hs => hhigh s (List.mem_cons_of_mem r hs)), if_neg hnext, List.append_nil]
    · have hjump : jump ⟨fieldsPos, lowIdx, [], true⟩ (r.low - fieldsPos) false = none := by
        rw [jump, if_pos (by omega), List.drop_nil]
      rw [hjump, if_neg heq, List.append_nil]
      rfl

/-! ## Both routines -/

/-- Past some delimiters: to the end of the last one, or to its start where it is kept. -/
theorem jump_of_le {delim : Bytes} {st : Cutting} {gap : Nat} {keep : Bool}
    (hat : At line st.lowIdx st.delims (if keep then delim else []) ps rest)
    (hdelim : keep = true → ∀ p ∈ ps, p.2 = delim) (hgap : gap ≤ ps.length) :
    ∃ idx delims, At line idx delims (if keep then delim else []) (ps.drop gap) rest ∧
      jump st gap keep = some { st with lowIdx := idx, delims := delims } := by
  cases gap with
  | zero => exact ⟨st.lowIdx, st.delims, hat, rfl⟩
  | succ n =>
    have hsplit : ps = ps.take n ++ (ps[n].1, ps[n].2) :: ps.drop (n + 1) := by
      rw [← List.drop_eq_getElem_cons, List.take_append_drop]
    have hlen : (ps.take n).length = n := List.length_take_of_le (Nat.le_of_succ_le hgap)
    rw [hsplit] at hat
    obtain ⟨first, stop, ds', hds, -, hfirst, hstop⟩ := hat.cut (ps.take n)
    rw [hlen] at hds
    rw [jump, if_pos (Nat.succ_pos n), Nat.add_sub_cancel, hds]
    cases keep with
    | true =>
      rw [hdelim rfl _ (List.getElem_mem hgap)] at hfirst
      exact ⟨first, ds', hfirst, rfl⟩
    | false => exact ⟨stop, ds', hstop, rfl⟩

/-- There are not so many delimiters. -/
theorem jump_of_lt {st : Cutting} {gap : Nat} {keep : Bool} (hat : At line st.lowIdx st.delims pre ps rest)
    (hgap : ps.length < gap) : jump st gap keep = none := by
  rw [jump, if_pos (by omega), hat.drop_eq_nil.2 (by omega)]

/-- The last field with the terminator behind it. -/
theorem prints_concat (delim : Bytes) (before : Bool) (fields : List Bytes) (field tail : Bytes) :
    prints delim before (fields ++ [field ++ tail]) = prints delim before (fields ++ [field]) ++ tail := by
  simp [prints]

section Chosen

variable {r : Range} {ranges : List Range} {b : Nat} {before : Bool}

/-- The range is behind the last field. -/
theorem chosen_of_lt (hlow : b < r.low) (hr : r.low ≤ r.high) (hlt : ps.length < r.low - (b + 1)) :
    chosen (b + 1) (r :: ranges) (ps.map Prod.fst ++ [last]) = [] := by
  have hdrop : ∀ n, r.low - (b + 1) ≤ n → (ps.map Prod.fst ++ [last]).drop n = [] := fun n hn =>
    List.drop_eq_nil_of_le (by simp; omega)
  rw [chosen, hdrop _ (Nat.le_refl _), hdrop _ (by omega), chosen_nil, List.take_nil]
  rfl

/-- The fields of the range have delimiters behind them. -/
theorem chosen_of_le (hlow : b < r.low) (hr : r.low ≤ r.high) (hle : r.high - b ≤ ps.length) :
    chosen (b + 1) (r :: ranges) (ps.map Prod.fst ++ [last]) =
      ((ps.drop (r.low - (b + 1))).take (r.high - r.low + 1)).map Prod.fst ++
        chosen (r.high + 1) ranges ((ps.drop (r.high - b)).map Prod.fst ++ [last]) := by
  have hdrop : ∀ n, n ≤ ps.length → (ps.map Prod.fst ++ [last]).drop n = (ps.drop n).map Prod.fst ++ [last] := by
    intro n hn
    rw [List.drop_append_of_le_length (by simpa using hn), List.map_drop]
  rw [chosen, hdrop _ (by omega), show r.high + 1 - (b + 1) = r.high - b by omega, hdrop _ hle,
    List.take_append_of_le_length (by simp; omega), List.map_take]

/-- The range holds the last field. -/
theorem chosen_of_mem (hlow : b < r.low) (hle : r.low - (b + 1) ≤ ps.length) (hlt : ps.length < r.high - b) :
    chosen (b + 1) (r :: ranges) (ps.map Prod.fst ++ [last]) =
      (ps.drop (r.low - (b + 1))).map Prod.fst ++ [last] := by
  have hdrop : (ps.map Prod.fst ++ [last]).drop (r.low - (b + 1)) =
      (ps.drop (r.low - (b + 1))).map Prod.fst ++ [last] := by
    rw [List.drop_append_of_le_length (by simpa using hle), List.map_drop]
  have hnil : (ps.map Prod.fst ++ [last]).drop (r.high + 1 - (b + 1)) = [] := List.drop_eq_nil_of_le (by simp; omega)
  rw [chosen, hdrop, hnil, chosen_nil, List.append_nil, List.take_of_length_le (by simp; omega)]

/-- The field behind the last range that was written. -/
theorem prints_chosen (delim : Bytes) (hlow : b < r.low) (hr : r.low ≤ r.high) (hle : r.high - b ≤ ps.length) :
    prints delim before (chosen (b + 1) (r :: ranges) (ps.map Prod.fst ++ [last])) =
      prints delim before (((ps.drop (r.low - (b + 1))).take (r.high - r.low + 1)).map Prod.fst) ++
        prints delim true (chosen (r.high + 1) ranges ((ps.drop (r.high - b)).map Prod.fst ++ [last])) := by
  have hne : (((ps.drop (r.low - (b + 1))).take (r.high - r.low + 1)).map Prod.fst).isEmpty = false := by
    rw [List.isEmpty_eq_false_iff_exists_mem]
    refine List.exists_mem_of_length_pos ?_
    simp only [List.length_map, List.length_take, List.length_drop]
    omega
  rw [chosen_of_le hlow hr hle, prints_append, hne, Bool.not_false, Bool.or_true]

end Chosen

/-- The range behind one that holds the last field starts at the field position: this has moved if there was another field
before the last one. -/
theorem head_low_iff {r : Range} {ranges : List Range} {b last : Nat} (hrs : Ascending r.high ranges)
    (hr : r.low ≤ r.high) (hlow : b < r.low) :
    ranges.head?.map Stretch.low = some (if r.low < last then r.high + 1 else b + 1) ↔
      r.low < last ∧ ranges.head?.map Stretch.low = some (r.high + 1) := by
  cases ranges with
  | nil => simp
  | cons s ranges =>
    obtain ⟨hs, -⟩ := hrs
    simp only [List.head?_cons, Option.map_some, Option.some.injEq]
    split <;> omega

/-- **The routine with the explicit delimiter, from a place in a record**: the chosen fields, and the last field again. -/
theorem explicitRanges_at {ended : Bool} (hend : endsWith line newline = some ended) {ranges : List Range} {b : Nat}
    (hasc : Ascending b ranges) (hhigh : ∀ r ∈ ranges, r.high ≤ usizeMax - 1) {st : Cutting} (hpos : st.fieldsPos = b + 1)
    (hat : At line st.lowIdx st.delims [] ps (last ++ if ended then [newline] else [])) (out : Bytes) :
    explicitRanges line newline outDelim ranges st out =
      some (out ++ prints outDelim st.printDelim (chosen (b + 1) ranges (ps.map Prod.fst ++ [last])) ++
        (if ended = false ∧ AgainAt (b + 1 + ps.length) ranges then outDelim ++ last else []) ++ [newline]) := by
  induction ranges generalizing b st ps out with
  | nil => simp [explicitRanges, chosen, prints, AgainAt]
  | cons r ranges ih =>
    obtain ⟨hlow, hr, hrs⟩ := hasc
    have hhigh' : ∀ s ∈ ranges, s.high ≤ usizeMax - 1 := fun s hs => hhigh s (List.mem_cons_of_mem r hs)
    rw [explicitRanges, hpos, sub_eq (by omega : b + 1 ≤ r.low)]
    simp only [Option.bind_eq_bind, Option.bind_some]
    by_cases hgap : ps.length < r.low - (b + 1)
    · have hagain : ¬ AgainAt (b + 1 + ps.length) (r :: ranges) :=
        @not_againAt (r.low - 1) _ _ ⟨by omega, hr, hrs⟩ (by omega)
      rw [jump_of_lt hat hgap, chosen_of_lt hlow hr hgap, if_neg (fun h => hagain h.2)]
      simp [prints]
    · obtain ⟨idx, ds', hat', hjump⟩ := @jump_of_le _ _ ps [] st _ false hat nofun (Nat.le_of_not_lt hgap)
      have hlen : (ps.drop (r.low - (b + 1))).length = ps.length - (r.low - (b + 1)) := List.length_drop
      rw [hjump]
      simp only [sub_eq hr, Option.bind_some]
      by_cases hle : r.high - b ≤ ps.length
      · obtain ⟨idx', ds'', hat'', hrun⟩ := explicitFields_of_le outDelim (hhigh r List.mem_cons_self)
          { st with lowIdx := idx, delims := ds' } out hat' (by omega : r.high - r.low + 1 ≤ _)
        have hdrop : (ps.drop (r.low - (b + 1))).drop (r.high - r.low + 1) = ps.drop (r.high - b) := by
          rw [List.drop_drop]
          congr 1
          omega
        rw [hdrop] at hat''
        have hnum : r.high + 1 + (ps.drop (r.high - b)).length = b + 1 + ps.length := by
          rw [List.length_drop]
          omega
        have hagain := @againAt_cons r ranges (b + 1 + ps.length) (by omega)
        rw [hrun]
        simp only [Option.bind_some]
        rw [ih hrs hhigh' rfl hat'', prints_chosen outDelim hlow hr hle, hnum]
        simp only [hagain, Nat.succ_pos, decide_true, Bool.or_true, List.append_assoc]
      · obtain ⟨idx', hat'', hrun⟩ := explicitFields_of_lt outDelim (hhigh r List.mem_cons_self) hend
          { st with lowIdx := idx, delims := ds' } out hat' (by omega : _ < r.high - r.low + 1)
        rw [hrun, chosen_of_mem hlow (Nat.le_of_not_lt hgap) (Nat.lt_of_not_le hle), prints_concat]
        cases ended with
        | true => simp
        | false =>
          have hfinal : At line idx' [] [] [] last := by simpa using hat''
          have hnil : ps.drop (r.low - (b + 1)) = [] ↔ ¬ r.low < b + 1 + ps.length := by
            rw [List.drop_eq_nil_iff]
            omega
          have hnext := @head_low_iff _ _ _ (b + 1 + ps.length) hrs hr hlow
          have hagain := againAt_cons_of_le hrs (by omega : b + 1 + ps.length ≤ r.high)
          simp only [Bool.false_eq_true, if_false, Option.bind_some, List.append_nil, true_and, hpos, hnil, ite_not]
          rw [explicitRanges_done hend hrs (by split <;> omega) hhigh' hfinal]
          simp only [hnext, hagain]

/-- **The routine with the delimiters of the input, from a place in a record**: the chosen fields. -/
theorem implicitRanges_at {delim : Bytes} {ended : Bool} (hend : endsWith line newline = some ended)
    {ranges : List Range} {b : Nat} (hasc : Ascending b ranges) (hhigh : ∀ r ∈ ranges, r.high ≤ usizeMax - 1)
    {st : Cutting} (hpos : st.fieldsPos = b + 1) (hdelim : ∀ p ∈ ps, p.2 = delim)
    (hat : At line st.lowIdx st.delims (if st.printDelim then delim else []) ps
      (last ++ if ended then [newline] else [])) (out : Bytes) :
    implicitRanges line newline ranges st out =
      some (out ++ prints delim st.printDelim (chosen (b + 1) ranges (ps.map Prod.fst ++ [last])) ++ [newline]) := by
  induction ranges generalizing b st ps out with
  | nil => simp [implicitRanges, chosen, prints]
  | cons r ranges ih =>
    obtain ⟨hlow, hr, hrs⟩ := hasc
    have hhigh' : ∀ s ∈ ranges, s.high ≤ usizeMax - 1 := fun s hs => hhigh s (List.mem_cons_of_mem r hs)
    rw [implicitRanges, hpos, sub_eq (by omega : b + 1 ≤ r.low)]
    simp only [Option.bind_eq_bind, Option.bind_some]
    by_cases hgap : ps.length < r.low - (b + 1)
    · rw [jump_of_lt hat hgap, chosen_of_lt hlow hr hgap]
      simp [prints]
    · obtain ⟨idx, ds', hat', hjump⟩ := jump_of_le hat (fun _ => hdelim) (Nat.le_of_not_lt hgap)
      have hlen : (ps.drop (r.low - (b + 1))).length = ps.length - (r.low - (b + 1)) := List.length_drop
      have hdelim' : ∀ p ∈ ps.drop (r.low - (b + 1)), p.2 = delim := fun p hp => hdelim p (List.mem_of_mem_drop hp)
      rw [hjump]
      simp only [sub_eq hr, Option.bind_some]
      by_cases hle : r.high - b ≤ ps.length
      · rw [prints_chosen delim hlow hr hle]
        have hdrop : (ps.drop (r.low - (b + 1))).drop (r.high - r.low + 1) = ps.drop (r.high - b) := by
          rw [List.drop_drop]
          congr 1
          omega
        generalize ps.drop (r.low - (b + 1)) = qs at hat' hlen hdelim' hdrop
        have hcount : r.high - r.low < qs.length := by omega
        have hsplit : qs = qs.take (r.high - r.low) ++ (qs[r.high - r.low].1, qs[r.high - r.low].2) ::
            ps.drop (r.high - b) := by
          rw [← hdrop, ← List.drop_eq_getElem_cons, List.take_append_drop]
        have htake : (qs.take (r.high - r.low)).length = r.high - r.low := List.length_take_of_le (Nat.le_of_lt hcount)
        have hfirst : (qs.take (r.high - r.low + 1)).map Prod.fst =
            (qs.take (r.high - r.low)).map Prod.fst ++ [qs[r.high - r.low].1] := by
          rw [List.take_succ_eq_append_getElem hcount, List.map_append]
          rfl
        have htaken : ∀ p ∈ qs.take (r.high - r.low), p.2 = delim := fun p hp => hdelim' p (List.mem_of_mem_take hp)
        have hprints := prints_eq_joined htaken st.printDelim qs[r.high - r.low].1
        rw [hsplit] at hat'
        obtain ⟨first, stop, ds'', hds, hslice, hnext, -⟩ := hat'.cut (qs.take (r.high - r.low))
        rw [htake] at hds
        rw [hdelim' _ (List.getElem_mem hcount)] at hnext
        rw [hds]
        simp only [hslice, add_one_eq (hhigh r List.mem_cons_self), Option.bind_some]
        rw [ih hrs hhigh' rfl (fun p hp => hdelim p (List.mem_of_mem_drop hp)) hnext, hfirst, hprints]
        simp only [List.append_assoc]
      · have hds : ds'.drop (r.high - r.low) = [] := hat'.drop_eq_nil.2 (by omega)
        have hprints := prints_eq_joined hdelim' st.printDelim last
        rw [hds, chosen_of_mem hlow (Nat.le_of_not_lt hgap) (Nat.lt_of_not_le hle), hprints]
        simp only [hat'.slice_last, hend, Option.bind_some]
        cases ended <;> simp

end Loops

end Peiosutils.Cut
