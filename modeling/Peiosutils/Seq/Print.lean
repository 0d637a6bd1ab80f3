import Peiosutils.Lib.Bytes
import Peiosutils.Seq.FastInc

/-!
# The two ways to print a sequence (`seq.rs`)

`fast_print_seq` adds digits in a buffer, and the loop of `print_seq` formats each number. For natural numbers both
print the numbers with zeros in front up to a width (`rendering`). The buffer is wrong from the second number on where the
first step drops a carry, and in no other case (`fast_print_seq_iff`).
-/

set_option autoImplicit false

namespace Peiosutils.Seq

open Padded ByteStore

/-! ## The fast path -/

/-- The loop of `fast_print_seq`: what it writes, and the buffer and its start at the end. -/
def fastLoop (numEnd : Nat) (incStr : List UInt8) :
    (n : Nat) → (buf : List UInt8) → (start : Nat) → Option (List UInt8 × List UInt8 × Nat)
  | 0, buf, start => some ([], buf, start)
  | n + 1, buf, start =>
    if start > buf.length then none
    else do
      let (next, nextStart) ← fastInc buf start numEnd incStr
      let (out, last) ← fastLoop numEnd incStr n next nextStart
      return (buf.drop start ++ out, last)

/-- What `fast_print_seq` writes; no value is a panic. -/
def fastPrintSeq (first increment last : Nat) (separator terminator : List UInt8) (padding : Nat) :
    Option (List UInt8) :=
  if last < first then some []
  else if increment = 0 then none
  else
    let loopCnt := if (last - first) / increment < 2 ^ 64 then (last - first) / increment else 2 ^ 64 - 1
    let firstStr := decimal first
    let size := max (decimal last).length padding + separator.length
    let buf := List.replicate size 48
    let numEnd := buf.length - separator.length
    if firstStr.length > numEnd ∨ padding > numEnd then none
    else do
      let start := numEnd - firstStr.length
      let buf := patch (patch buf start firstStr) numEnd separator
      let start := min start (numEnd - padding)
      let (out, buf, start) ← fastLoop numEnd (decimal increment) loopCnt buf start
      if start > numEnd then none else return out ++ (buf.take numEnd).drop start ++ terminator

/-! ## The slow path -/

inductive PrintError where
  /-- `formatting width too large`. -/
  | tooWide
  /-- The formatting machinery takes widths of 16 bits. -/
  | panic
  deriving DecidableEq, Repr

def maxFormatWidth : Nat := 1000000

/-- `NumberAlignment::RightZero` of `write_output`, where there is no sign. -/
def writeOutput (s : List UInt8) (width : Nat) : Except PrintError (List UInt8) :=
  if width = 0 then .ok s
  else if width > maxFormatWidth then .error .tooWide
  else
    let isHex := s.length ≥ 2 ∧ (s.take 2 = [48, 120] ∨ s.take 2 = [48, 88])
    let pre := if isHex then s.take 2 else []
    let rest := if isHex then s.drop 2 else s
    let remainingWidth := width - pre.length
    if remainingWidth > 65535 then .error .panic
    else .ok (pre ++ List.replicate (remainingWidth - rest.length) 48 ++ rest)

/-- The loop of `print_seq` from `value` on. -/
def printLoop (increment last : Nat) (hpos : 0 < increment) (separator : List UInt8) (padding value : Nat)
    (isFirstIteration : Bool) : Except PrintError (List UInt8) :=
  if value > last then .ok []
  else do
    let number ← writeOutput (decimal value) padding
    let rest ← printLoop increment last hpos separator padding (value + increment) false
    return (if isFirstIteration then [] else separator) ++ number ++ rest
termination_by last + 1 - value
decreasing_by omega

/-- What the arbitrary-precision path of `print_seq` writes. -/
def printSeq (first increment last : Nat) (hpos : 0 < increment) (separator terminator : List UInt8) (padding : Nat) :
    Except PrintError (List UInt8) := do
  let out ← printLoop increment last hpos separator padding first true
  return out ++ if first > last then [] else terminator

/-! ## What is printed -/

/-- The numbers from `first` on, up to `last`. -/
def numbers (first increment last : Nat) : List Nat := List.range' first ((last - first) / increment + 1) increment

/-- The numbers with zeros in front, the separator between them, and the terminator. -/
def rendering (first increment last : Nat) (separator terminator : List UInt8) (padding : Nat) : List UInt8 :=
  separator.intercalate ((numbers first increment last).map (zeroPadded padding)) ++ terminator

/-- The numbers, each with the separator behind it. -/
def separated (separator : List UInt8) (padding : Nat) (ns : List Nat) : List UInt8 :=
  ns.flatMap fun n => zeroPadded padding n ++ separator

theorem intercalate_concat (separator x : List UInt8) (xs : List (List UInt8)) :
    separator.intercalate (xs ++ [x]) = xs.flatMap (· ++ separator) ++ x := by
  induction xs with
  | nil => simp
  | cons y xs ih =>
    have hne : xs ++ [x] ≠ [] := by simp
    rw [List.cons_append, List.intercalate_cons_of_ne_nil hne, ih]
    simp

/-- The last number has no separator. -/
theorem rendering_eq (first increment last : Nat) (separator terminator : List UInt8) (padding : Nat) :
    rendering first increment last separator terminator padding =
      separated separator padding (List.range' first ((last - first) / increment) increment) ++
        zeroPadded padding (first + increment * ((last - first) / increment)) ++ terminator := by
  rw [rendering, numbers, List.range'_concat, List.map_append, List.map_singleton, intercalate_concat,
    List.flatMap_map]
  rfl

/-! ## The slow path prints it -/

/-- Digits do not look like a hexadecimal number. -/
theorem decimal_not_hex (n : Nat) :
    ¬ ((decimal n).length ≥ 2 ∧ ((decimal n).take 2 = [48, 120] ∨ (decimal n).take 2 = [48, 88])) := by
  have hdigit : ∀ d < 10, byteOf d ≠ 120 ∧ byteOf d ≠ 88 := by decide
  have hno : ∀ b : UInt8, b = 120 ∨ b = 88 → (decimal n).take 2 ≠ [48, b] := by
    intro b hb h
    have hmem : b ∈ (decimal n).take 2 := by
      rw [h]
      exact List.mem_cons_of_mem _ List.mem_cons_self
    obtain ⟨d, hd, rfl⟩ := mem_padded (decimal_eq n ▸ List.mem_of_mem_take hmem)
    rcases hb with hb | hb
    · exact (hdigit d hd).1 hb
    · exact (hdigit d hd).2 hb
  rintro ⟨_, h | h⟩
  · exact hno 120 (.inl rfl) h
  · exact hno 88 (.inr rfl) h

theorem writeOutput_decimal (n : Nat) {width : Nat} (h : width ≤ 65535) :
    writeOutput (decimal n) width = .ok (zeroPadded width n) := by
  unfold writeOutput
  by_cases hzero : width = 0
  · subst hzero
    simp [zeroPadded]
  have hmax : ¬ width > maxFormatWidth := by
    simp only [maxFormatWidth]
    omega
  rw [if_neg hzero, if_neg hmax]
  simp only [decimal_not_hex n, if_false, List.length_nil, Nat.sub_zero, List.nil_append]
  rw [if_neg (by omega)]
  rfl

theorem writeOutput_wide (n : Nat) {width : Nat} (h : 65535 < width) :
    ∃ e, writeOutput (decimal n) width = .error e := by
  unfold writeOutput
  rw [if_neg (by omega)]
  split
  · exact ⟨_, rfl⟩
  · simp only [decimal_not_hex n, if_false, List.length_nil, Nat.sub_zero]
    rw [if_pos h]
    exact ⟨_, rfl⟩

/-- The passes of the loop print one number each. -/
theorem printLoop_eq {increment last : Nat} (hpos : 0 < increment) (separator : List UInt8) {padding : Nat}
    (h : padding ≤ 65535) (n : Nat) : ∀ value isFirst, value ≤ last → (last - value) / increment = n →
      printLoop increment last hpos separator padding value isFirst = .ok ((if isFirst then [] else separator) ++
        separator.intercalate ((List.range' value (n + 1) increment).map (zeroPadded padding))) := by
  induction n with
  | zero =>
    intro value isFirst hle hn
    have hlt : last - value < increment := (Nat.div_eq_zero_iff_lt hpos).1 hn
    have hend : printLoop increment last hpos separator padding (value + increment) false = .ok [] := by
      rw [printLoop, if_pos (by omega)]
    rw [printLoop, if_neg (by omega), writeOutput_decimal value h, hend]
    simp [bind, Except.bind, pure, Except.pure]
  | succ n ih =>
    intro value isFirst hle hn
    have hge : increment ≤ last - value := by
      by_contra hlt
      rw [Nat.div_eq_of_lt (not_le.1 hlt)] at hn
      cases hn
    have hn' : (last - (value + increment)) / increment = n := by
      have := Nat.sub_add_cancel hge
      rw [← this, Nat.add_div_right _ hpos] at hn
      rw [← Nat.sub_sub]
      omega
    have hne : (List.range' (value + increment) (n + 1) increment).map (zeroPadded padding) ≠ [] := by simp
    have hcut : (List.range' value (n + 1 + 1) increment).map (zeroPadded padding) = zeroPadded padding value ::
        (List.range' (value + increment) (n + 1) increment).map (zeroPadded padding) := rfl
    rw [printLoop, if_neg (by omega), writeOutput_decimal value h, ih (value + increment) false (by omega) hn',
      hcut, List.intercalate_cons_of_ne_nil hne]
    simp [bind, Except.bind, pure, Except.pure]

/-- The slow path prints the numbers, where their width can be formatted. -/
theorem printSeq_eq {first increment last : Nat} (hle : first ≤ last) (hpos : 0 < increment)
    (separator terminator : List UInt8) {padding : Nat} (h : padding ≤ 65535) :
    printSeq first increment last hpos separator terminator padding =
      .ok (rendering first increment last separator terminator padding) := by
  rw [printSeq, printLoop_eq hpos separator h _ first true hle rfl]
  simp [bind, Except.bind, pure, Except.pure, rendering, numbers, not_lt.2 hle]

theorem printSeq_wide {first increment last : Nat} (hle : first ≤ last) (hpos : 0 < increment)
    (separator terminator : List UInt8) {padding : Nat} (h : 65535 < padding) :
    ∃ e, printSeq first increment last hpos separator terminator padding = .error e := by
  obtain ⟨e, he⟩ := writeOutput_wide first h
  rw [printSeq, printLoop, if_neg (by omega), he]
  exact ⟨e, rfl⟩

/-! ## The fast path prints it -/

/-- What is shown is the number with zeros in front, and then the separator. -/
theorem Holds.shown {buf separator : List UInt8} {start w v : Nat} (h : Holds buf start w v separator) :
    buf.drop start = padded w v ++ separator ∧ start ≤ buf.length := by
  obtain ⟨_, head, rfl, rfl⟩ := h
  refine ⟨?_, ?_⟩
  · rw [List.append_assoc, List.drop_left]
  · rw [List.append_assoc, List.length_append]
    omega

/-- A pass of the loop whose step drops no carry. -/
theorem fastLoop_spec {numEnd increment padding : Nat} {separator : List UInt8} (n : Nat) : ∀ v buf start,
    Holds buf start (max padding (numDigits v)) v separator → start + max padding (numDigits v) = numEnd →
    max padding (numDigits (v + increment * n)) ≤ numEnd →
    (0 < n → ¬ Dropped (max padding (numDigits v)) v increment) →
    ∃ buf' start', fastLoop numEnd (decimal increment) n buf start =
        some (separated separator padding (List.range' v n increment), buf', start') ∧
      Holds buf' start' (max padding (numDigits (v + increment * n))) (v + increment * n) separator ∧
      start' + max padding (numDigits (v + increment * n)) = numEnd := by
  induction n with
  | zero => exact fun v buf start h hend _ _ => ⟨buf, start, rfl, h, hend⟩
  | succ n ih =>
    intro v buf start h hend hfits hdrop
    have hlast : v + increment + increment * n = v + increment * (n + 1) := by
      rw [Nat.mul_succ]
      omega
    have hmono : numDigits (v + increment) ≤ numDigits (v + increment * (n + 1)) := numDigits_mono (by omega)
    have hmono' : numDigits v ≤ numDigits (v + increment) := numDigits_mono (by omega)
    have hinc : numDigits increment ≤ numDigits (v + increment) := numDigits_mono (by omega)
    obtain ⟨next, nextStart, hnext, hholds, hnextEnd⟩ := fastInc_spec h (hdrop (Nat.succ_pos n)) (by omega)
    have hwidth : max (max padding (numDigits v)) (numDigits (v + increment)) =
        max padding (numDigits (v + increment)) := by
      omega
    rw [hwidth, hend] at hnextEnd
    rw [hwidth] at hholds
    obtain ⟨buf', start', hrest, hholds', hend'⟩ := ih (v + increment) next nextStart hholds hnextEnd
      (by rw [hlast]; exact hfits) fun _ hd => absurd hd.1 (by omega)
    rw [hlast] at hholds' hend'
    refine ⟨buf', start', ?_, hholds', hend'⟩
    obtain ⟨hshown, hle⟩ := h.shown
    rw [hend] at hnext
    rw [fastLoop, if_neg (by omega), hnext]
    simp only [Option.bind_eq_bind, Option.bind_some, hrest, hshown, List.range'_succ, separated, List.flatMap_cons,
      zeroPadded_eq]
    rfl

/-- In each run the loop ends inside the buffer, and what it writes and shows is no longer than the numbers; it is
shorter where something shorter is shown at the start. -/
theorem fastLoop_le {numEnd increment padding : Nat} {separator : List UInt8} (n : Nat) : ∀ v buf start w d,
    Holds buf start w d separator → start + w = numEnd → d ≤ v → w ≤ max padding (numDigits v) →
    max padding (numDigits (v + increment * n)) ≤ numEnd →
    ∃ out buf' start' w' d', fastLoop numEnd (decimal increment) n buf start = some (out, buf', start') ∧
      Holds buf' start' w' d' separator ∧ start' + w' = numEnd ∧
      out.length + w' + (max padding (numDigits v) - w) ≤
        (separated separator padding (List.range' v n increment)).length +
          max padding (numDigits (v + increment * n)) := by
  induction n with
  | zero =>
    intro v buf start w d h hend hd hw hfits
    refine ⟨[], buf, start, w, d, rfl, h, hend, ?_⟩
    simp [separated]
    omega
  | succ n ih =>
    intro v buf start w d h hend hd hw hfits
    have hlast : v + increment + increment * n = v + increment * (n + 1) := by
      rw [Nat.mul_succ]
      omega
    have hmono : numDigits (v + increment) ≤ numDigits (v + increment * (n + 1)) := numDigits_mono (by omega)
    have hmono' : numDigits v ≤ numDigits (v + increment) := numDigits_mono (by omega)
    have hsum : numDigits (d + increment) ≤ numDigits (v + increment) := numDigits_mono (by omega)
    obtain ⟨next, nextStart, w₁, d₁, hnext, hholds, hnextEnd, hd₁, hw₁⟩ := fastInc_le (i := increment) h (by omega)
    obtain ⟨out, buf', start', w', d', hrest, hholds', hend', hlen⟩ := ih (v + increment) next nextStart w₁ d₁ hholds
      (by omega) (by omega) (by omega) (by rw [hlast]; exact hfits)
    obtain ⟨hshown, hle⟩ := h.shown
    refine ⟨buf.drop start ++ out, buf', start', w', d', ?_, hholds', hend', ?_⟩
    · rw [hend] at hnext
      rw [fastLoop, if_neg (by omega), hnext]
      simp only [Option.bind_eq_bind, Option.bind_some, hrest]
      rfl
    · have hfirst : (separated separator padding (List.range' v (n + 1) increment)).length =
          max padding (numDigits v) + separator.length +
            (separated separator padding (List.range' (v + increment) n increment)).length := by
        rw [List.range'_succ, separated, List.flatMap_cons, List.length_append, List.length_append, zeroPadded_eq,
          length_padded]
        rfl
      rw [hlast] at hlen
      rw [hshown, hfirst, List.length_append, List.length_append, length_padded]
      omega

/-! ## Both paths -/

/-- The first number, as it is put into a buffer of zeros. -/
theorem holds_first {first size padding : Nat} (hfirst : numDigits first ≤ size) (hpadding : padding ≤ size)
    (separator : List UInt8) :
    Holds (patch (patch (List.replicate (size + separator.length) 48) (size - (decimal first).length) (decimal first))
      size separator) (size - max padding (numDigits first)) (max padding (numDigits first)) first separator := by
  have hlen : (decimal first).length = numDigits first := rfl
  have hend : size - numDigits first + numDigits first = size := Nat.sub_add_cancel hfirst
  have hnum : patch (List.replicate (size + separator.length) 48) (size - (decimal first).length) (decimal first) =
      List.replicate (size - numDigits first) 48 ++ decimal first ++ List.replicate separator.length 48 := by
    rw [patch, hlen, hend, List.take_replicate, List.drop_replicate, Nat.add_sub_cancel_left, min_eq_left (by omega)]
  have hbuf : patch (patch (List.replicate (size + separator.length) 48) (size - (decimal first).length) (decimal first))
      size separator = List.replicate (size - numDigits first) 48 ++ decimal first ++ separator := by
    have hcut : (List.replicate (size - numDigits first) 48 ++ decimal first).length = size := by
      rw [List.length_append, List.length_replicate, hlen, hend]
    rw [hnum, patch, List.take_left' hcut, List.drop_of_length_le, List.append_nil]
    rw [List.length_append, hcut, List.length_replicate]
  have hzeros : List.replicate (size - numDigits first) (48 : UInt8) =
      List.replicate (size - max padding (numDigits first)) 48 ++
        List.replicate (max padding (numDigits first) - numDigits first) 48 := by
    rw [List.replicate_append_replicate]
    congr 1
    omega
  have hshown := zeroPadded_eq (max padding (numDigits first)) first
  rw [max_assoc, max_self, zeroPadded] at hshown
  refine ⟨lt_of_lt_of_le (lt_pow_numDigits first) (Nat.pow_le_pow_right (by decide) (le_max_right _ _)), ?_⟩
  refine ⟨List.replicate (size - max padding (numDigits first)) 48, ?_, List.length_replicate⟩
  rw [hbuf, hzeros, ← hshown]
  simp only [List.append_assoc]

/-- What is shown in front of the separator. -/
theorem Holds.number {buf separator : List UInt8} {start w v : Nat} (h : Holds buf start w v separator) :
    (buf.take (start + w)).drop start = padded w v := by
  obtain ⟨_, head, rfl, rfl⟩ := h
  have hlen : (head ++ padded w v).length = head.length + w := by simp
  rw [List.take_left' hlen, List.drop_left]

section Paths

variable {first increment last : Nat} (separator terminator : List UInt8) (padding : Nat)

/-- The fast path is its loop, on a buffer that holds the first number, and the number that is shown at the end. -/
theorem fastPrintSeq_eq (hle : first ≤ last) (hpos : 0 < increment) (hcnt : (last - first) / increment < 2 ^ 64) :
    ∃ buf, Holds buf (max (numDigits last) padding - max padding (numDigits first)) (max padding (numDigits first)) first
        separator ∧
      ∀ out buf' start' w' v', fastLoop (max (numDigits last) padding) (decimal increment) ((last - first) / increment) buf
          (max (numDigits last) padding - max padding (numDigits first)) = some (out, buf', start') →
        Holds buf' start' w' v' separator → start' + w' = max (numDigits last) padding →
        fastPrintSeq first increment last separator terminator padding = some (out ++ padded w' v' ++ terminator) := by
  have hmono : numDigits first ≤ numDigits last := numDigits_mono hle
  have hlast : (decimal last).length = numDigits last := rfl
  have hfirst : (decimal first).length = numDigits first := rfl
  have hfits : numDigits first ≤ max (numDigits last) padding := by omega
  refine ⟨_, holds_first hfits (le_max_right _ _) separator, ?_⟩
  intro out buf' start' w' v' hloop hholds hend
  have hstart : min (max (numDigits last) padding - numDigits first) (max (numDigits last) padding - padding) =
      max (numDigits last) padding - max padding (numDigits first) := by omega
  have hnumber := hholds.number
  rw [hend] at hnumber
  rw [fastPrintSeq, if_neg (by omega), if_neg (by omega)]
  simp only [if_pos hcnt, List.length_replicate, hlast, Nat.add_sub_cancel]
  rw [if_neg (by omega)]
  rw [hfirst] at hloop ⊢
  simp only [hstart, hloop, Option.bind_eq_bind, Option.bind_some, hnumber]
  rw [if_neg (by omega)]
  rfl

/-- The last number that is printed. -/
theorem last_number_le (hle : first ≤ last) : first + increment * ((last - first) / increment) ≤ last := by
  have := Nat.mul_div_le (last - first) increment
  omega

/-- The fast path prints the numbers unless the first step drops a carry. -/
theorem fastPrintSeq_right (hle : first ≤ last) (hpos : 0 < increment) (hcnt : (last - first) / increment < 2 ^ 64)
    (hdrop : ¬ (first + increment ≤ last ∧ Dropped (max padding (numDigits first)) first increment)) :
    fastPrintSeq first increment last separator terminator padding =
      some (rendering first increment last separator terminator padding) := by
  have hmono : numDigits first ≤ numDigits last := numDigits_mono hle
  have hmono' : numDigits (first + increment * ((last - first) / increment)) ≤ numDigits last :=
    numDigits_mono (last_number_le hle)
  have hfirst : 0 < (last - first) / increment → ¬ Dropped (max padding (numDigits first)) first increment := by
    intro hn hd
    have := (Nat.div_pos_iff.1 hn).2
    exact hdrop ⟨by omega, hd⟩
  have hend : max (numDigits last) padding - max padding (numDigits first) + max padding (numDigits first) =
      max (numDigits last) padding := by omega
  obtain ⟨buf, hholds, hfast⟩ := fastPrintSeq_eq separator terminator padding hle hpos hcnt
  obtain ⟨buf', start', hloop, hholds', hend'⟩ := fastLoop_spec ((last - first) / increment) first buf _ hholds hend
    (by omega) hfirst
  rw [hfast _ _ _ _ _ hloop hholds' hend', rendering_eq, zeroPadded_eq]

/-- The fast path never leaves its buffer. -/
theorem fastPrintSeq_isSome (hle : first ≤ last) (hpos : 0 < increment) (hcnt : (last - first) / increment < 2 ^ 64) :
    ∃ out, fastPrintSeq first increment last separator terminator padding = some out := by
  have hmono : numDigits first ≤ numDigits last := numDigits_mono hle
  have hmono' : numDigits (first + increment * ((last - first) / increment)) ≤ numDigits last :=
    numDigits_mono (last_number_le hle)
  have hend : max (numDigits last) padding - max padding (numDigits first) + max padding (numDigits first) =
      max (numDigits last) padding := by omega
  have hfits : max padding (numDigits (first + increment * ((last - first) / increment))) ≤
      max (numDigits last) padding := by omega
  obtain ⟨buf, hholds, hfast⟩ := fastPrintSeq_eq separator terminator padding hle hpos hcnt
  obtain ⟨out, buf', start', w', d', hloop, hholds', hend', _⟩ := fastLoop_le ((last - first) / increment) first buf _ _ _
    hholds hend (le_refl _) (le_refl _) hfits
  exact ⟨_, hfast _ _ _ _ _ hloop hholds' hend'⟩

/-- Where the first step drops a carry, less is written than the numbers need. -/
theorem fastPrintSeq_wrong (hle : first ≤ last) (hpos : 0 < increment) (hcnt : (last - first) / increment < 2 ^ 64)
    (hnext : first + increment ≤ last) (hdrop : Dropped (max padding (numDigits first)) first increment) :
    fastPrintSeq first increment last separator terminator padding ≠
      some (rendering first increment last separator terminator padding) := by
  have hmono : numDigits first ≤ numDigits last := numDigits_mono hle
  have hmono' : numDigits (first + increment * ((last - first) / increment)) ≤ numDigits last :=
    numDigits_mono (last_number_le hle)
  have hend : max (numDigits last) padding - max padding (numDigits first) + max padding (numDigits first) =
      max (numDigits last) padding := by omega
  have hsecond : numDigits (first + increment) ≤ numDigits last := numDigits_mono hnext
  obtain ⟨n, hn⟩ : ∃ n, (last - first) / increment = n + 1 :=
    Nat.exists_eq_succ_of_ne_zero (Nat.div_pos (by omega) hpos).ne'
  have hlast : first + increment + increment * n = first + increment * (n + 1) := by
    rw [Nat.mul_succ]
    omega
  obtain ⟨buf, hholds, hfast⟩ := fastPrintSeq_eq separator terminator padding hle hpos hcnt
  obtain ⟨next, nextStart, d, hinc, hholds₁, hend₁, hd, hshort⟩ := fastInc_wrong hholds hdrop (by omega)
  rw [hend] at hinc hend₁
  rw [hn] at hfast hmono'
  have hfits : max padding (numDigits (first + increment + increment * n)) ≤ max (numDigits last) padding := by
    rw [hlast]
    omega
  obtain ⟨out, buf', start', w', d', hloop, hholds', hend', hlen⟩ := fastLoop_le n (first + increment) next nextStart _ d
    hholds₁ hend₁ hd (by omega) hfits
  obtain ⟨hshown, hstart⟩ := hholds.shown
  have hrun : fastLoop (max (numDigits last) padding) (decimal increment) (n + 1) buf
      (max (numDigits last) padding - max padding (numDigits first)) =
        some (padded (max padding (numDigits first)) first ++ separator ++ out, buf', start') := by
    rw [fastLoop, if_neg (by omega), hinc]
    simp only [Option.bind_eq_bind, Option.bind_some, hloop, hshown]
    rfl
  rw [hfast _ _ _ _ _ hrun hholds' hend', rendering_eq, hn, List.range'_succ, separated, List.flatMap_cons,
    zeroPadded_eq, zeroPadded_eq]
  intro heq
  have hsame := congrArg List.length (Option.some.inj heq)
  rw [hlast] at hlen
  simp only [List.length_append, length_padded, separated] at hsame hlen
  omega

end Paths

/-- `fast_print_seq` writes the numbers, and so does the slow path, where it writes anything. -/
structure Prints (first increment last : Nat) (hpos : 0 < increment) (separator terminator : List UInt8)
    (padding : Nat) : Prop where
  intro ::
  fast : fastPrintSeq first increment last separator terminator padding =
    some (rendering first increment last separator terminator padding)
  slow : ∀ out, printSeq first increment last hpos separator terminator padding = .ok out →
    out = rendering first increment last separator terminator padding
  formatted : padding ≤ 65535 → printSeq first increment last hpos separator terminator padding =
    .ok (rendering first increment last separator terminator padding)

/-- The fast path never leaves its buffer. It prints the numbers, as the slow path does, unless there is a second
number, the increment has more digits than the first number is shown with, and the sum has more than the increment. -/
theorem fast_print_seq_iff {first increment last : Nat} (hle : first ≤ last) (hpos : 0 < increment)
    (hcnt : (last - first) / increment < 2 ^ 64) (separator terminator : List UInt8) (padding : Nat) :
    (∃ out, fastPrintSeq first increment last separator terminator padding = some out) ∧
      (Prints first increment last hpos separator terminator padding ↔
        ¬ (first + increment ≤ last ∧ max padding (numDigits first) < numDigits increment ∧
          10 ^ numDigits increment ≤ first + increment)) := by
  refine ⟨fastPrintSeq_isSome separator terminator padding hle hpos hcnt, ?_, fun hdrop => ⟨?_, ?_, ?_⟩⟩
  · exact fun h ⟨hnext, hdrop⟩ => fastPrintSeq_wrong separator terminator padding hle hpos hcnt hnext hdrop h.fast
  · exact fastPrintSeq_right separator terminator padding hle hpos hcnt hdrop
  · intro out hout
    by_cases h : padding ≤ 65535
    · rw [printSeq_eq hle hpos separator terminator h] at hout
      exact (Except.ok.inj hout).symm
    · obtain ⟨e, he⟩ := printSeq_wide hle hpos separator terminator (not_le.1 h)
      rw [he] at hout
      cases hout
  · exact printSeq_eq hle hpos separator terminator

/-- `seq 1 2 9`. -/
theorem fast_print_seq_odd :
    Prints 1 2 9 (by decide) [10] [10] 0 ↔
      ¬ (1 + 2 ≤ 9 ∧ max 0 (numDigits 1) < numDigits 2 ∧ 10 ^ numDigits 2 ≤ 1 + 2) :=
  (fast_print_seq_iff (by decide) (by decide) (by decide) [10] [10] 0).2

/-- `seq 7 995 2000` prints 7, 12 and 107. -/
theorem fast_print_seq_drops : fastPrintSeq 7 995 2000 [10] [10] 0 = some [55, 10, 49, 50, 10, 49, 48, 55, 10] ∧
    ¬ Prints 7 995 2000 (by decide) [10] [10] 0 := by
  have hfast : fastPrintSeq 7 995 2000 [10] [10] 0 = some [55, 10, 49, 50, 10, 49, 48, 55, 10] := by decide +kernel
  have hnumbers : rendering 7 995 2000 [10] [10] 0 = [55, 10, 49, 48, 48, 50, 10, 49, 57, 57, 55, 10] := by
    decide +kernel
  refine ⟨hfast, fun h => ?_⟩
  have := h.fast
  rw [hfast, hnumbers] at this
  cases this

end Peiosutils.Seq
