import Mathlib.Data.List.GetD
import Peiosutils.Tr.Operation

/-!
# What `tr` makes of its input

A table in which a later translation wins translates a byte by its last position in the first set (`new_table`). The
fast path for a single change makes no difference (`processChunk_eq`), and neither do the reads (`processInput_map`,
`translateInput_squeezed`).
-/

set_option autoImplicit false

namespace Peiosutils.Tr

/-! ## The translation of a byte -/

/-- The last position of a byte. -/
def lastPosition : Bytes → UInt8 → Option Nat
  | [], _ => none
  | c :: rest, b =>
    match lastPosition rest b with
    | some i => some (i + 1)
    | none => if c = b then some 0 else none

/-- The byte at a position; behind the end, the last one. -/
def element (set : Bytes) (i : Nat) : Option UInt8 := set[i]?.or set.getLast?

/-- What a byte becomes. -/
def become (s1 s2 : Bytes) (b : UInt8) : UInt8 := ((lastPosition s1 b).bind (element s2)).getD b

variable {set s1 s2 : Bytes} {b : UInt8}

theorem lastPosition_cons_some {i : Nat} (h : lastPosition set b = some i) (c : UInt8) :
    lastPosition (c :: set) b = some (i + 1) := by
  rw [lastPosition, h]

theorem lastPosition_cons_none (h : lastPosition set b = none) (c : UInt8) :
    lastPosition (c :: set) b = if c = b then some 0 else none := by
  rw [lastPosition, h]

theorem lastPosition_eq_none : lastPosition set b = none ↔ b ∉ set := by
  induction set with
  | nil => simp [lastPosition]
  | cons c set ih =>
    cases h : lastPosition set b with
    | some i =>
      have hmem : b ∈ set := by simpa [h] using ih
      rw [lastPosition_cons_some h]
      simp [hmem]
    | none =>
      rw [lastPosition_cons_none h, List.mem_cons, not_or, ← ih, h]
      simp [eq_comm]

theorem lastPosition_eq_some {i : Nat} :
    lastPosition set b = some i ↔ set[i]? = some b ∧ ∀ j, i < j → set[j]? ≠ some b := by
  induction set generalizing i with
  | nil => simp [lastPosition]
  | cons c set ih =>
    cases h : lastPosition set b with
    | some k =>
      obtain ⟨hk, hlast⟩ := ih.1 h
      rw [lastPosition_cons_some h, Option.some_inj]
      constructor
      · rintro rfl
        refine ⟨hk, fun j hj => ?_⟩
        cases j with
        | zero => exact absurd hj (Nat.not_lt_zero _)
        | succ j => exact hlast j (Nat.lt_of_succ_lt_succ hj)
      · rintro ⟨hi, hlast'⟩
        cases i with
        | zero => exact absurd hk (hlast' (k + 1) (Nat.succ_pos k))
        | succ i =>
          rcases Nat.lt_trichotomy k i with hlt | heq | hgt
          · exact absurd hi (hlast i hlt)
          · rw [heq]
          · exact absurd hk (hlast' (k + 1) (Nat.succ_lt_succ hgt))
    | none =>
      have hmem := lastPosition_eq_none.1 h
      have hnot : ∀ j, set[j]? ≠ some b := fun j hj => hmem (List.mem_of_getElem? hj)
      rw [lastPosition_cons_none h]
      constructor
      · intro hi
        rw [Option.ite_none_right_eq_some] at hi
        obtain ⟨rfl, hzero⟩ := hi
        cases hzero
        refine ⟨rfl, fun j hj => ?_⟩
        cases j with
        | zero => exact absurd hj (Nat.not_lt_zero _)
        | succ j => exact hnot j
      · rintro ⟨hi, -⟩
        cases i with
        | zero =>
          rw [if_pos (Option.some.inj hi)]
        | succ i => exact absurd hi (hnot i)

theorem lt_of_lastPosition {i : Nat} (h : lastPosition set b = some i) : i < set.length :=
  (List.getElem?_eq_some_iff.1 (lastPosition_eq_some.1 h).1).1

theorem become_of_not_mem (h : b ∉ s1) : become s1 s2 b = b := by
  rw [become, lastPosition_eq_none.2 h]
  rfl

theorem element_isSome (h : set ≠ []) (i : Nat) : ∃ c ∈ set, element set i = some c := by
  rw [element]
  cases hi : set[i]? with
  | some c => exact ⟨c, List.mem_of_getElem? hi, rfl⟩
  | none => exact ⟨set.getLast h, List.getLast_mem h, List.getLast?_eq_some_getLast h⟩

theorem become_mem (h : b ∈ s1) (hne : s2 ≠ []) : become s1 s2 b ∈ s2 := by
  obtain ⟨i, hi⟩ := Option.ne_none_iff_exists'.1 (mt lastPosition_eq_none.1 (not_not.2 h))
  obtain ⟨c, hc, helement⟩ := element_isSome hne i
  rw [become, hi, Option.bind_some, helement]
  exact hc

/-! ## Tables -/

theorem mem_allBytes (b : UInt8) : b ∈ allBytes := by
  refine List.mem_map.2 ⟨b.toNat, List.mem_range.2 b.toNat_lt, ?_⟩
  rw [Nat.zero_add]
  exact UInt8.ofNat_toNat

theorem foldl_bitmap (bitmap : UInt8 → Bool) :
    set.foldl (fun bitmap byte => Function.update bitmap byte true) bitmap b = (decide (b ∈ set) || bitmap b) := by
  induction set generalizing bitmap with
  | nil => simp
  | cons c set ih =>
    rw [List.foldl_cons, ih]
    by_cases hbc : b = c
    · subst hbc
      simp
    · simp [hbc]

theorem setToBitmap_eq (set : Bytes) (b : UInt8) : setToBitmap set b = decide (b ∈ set) := by
  rw [setToBitmap, foldl_bitmap, Bool.or_false]

/-- The last pair of a byte wins. -/
theorem foldl_update (pairs : List (UInt8 × UInt8)) (table : UInt8 → UInt8) (b : UInt8) :
    pairs.foldl (fun table pair => Function.update table pair.1 pair.2) table b =
      ((lastPosition (pairs.map Prod.fst) b).bind fun i => pairs[i]?.map Prod.snd).getD (table b) := by
  induction pairs generalizing table with
  | nil => rfl
  | cons pair pairs ih =>
    rw [List.foldl_cons, ih, List.map_cons]
    cases h : lastPosition (pairs.map Prod.fst) b with
    | some i =>
      have hi : i < pairs.length := by simpa using lt_of_lastPosition h
      rw [lastPosition_cons_some h]
      simp [hi]
    | none =>
      rw [lastPosition_cons_none h]
      by_cases hpair : pair.1 = b
      · subst hpair
        simp
      · rw [if_neg hpair]
        exact Function.update_of_ne (Ne.symm hpair) _ _

/-- The padded second set has an element for every position of the first. -/
theorem getElem?_padded {fallback : UInt8} (hlast : s2.getLast? = some fallback) {n i : Nat} (hi : i < n) :
    (s2 ++ List.replicate n fallback)[i]? = element s2 i := by
  rw [element, hlast]
  by_cases h : i < s2.length
  · rw [List.getElem?_append_left h, List.getElem?_eq_getElem h]
    rfl
  · have hle := Nat.le_of_not_lt h
    rw [List.getElem?_append_right hle, List.getElem?_eq_none hle, List.getElem?_replicate, if_pos (by omega)]
    rfl

theorem new_nil (s1 : Bytes) : TranslateOperation.new s1 [] =
    if s1 = [] then .ok ⟨id⟩ else .error .emptySet2WhenNotTruncatingSet1 := rfl

theorem ne_nil_of_new {op : TranslateOperation} (h : TranslateOperation.new s1 s2 = .ok op) (hne : s1 ≠ []) :
    s2 ≠ [] := by
  rintro rfl
  rw [new_nil, if_neg hne] at h
  cases h

theorem new_table {op : TranslateOperation} (h : TranslateOperation.new s1 s2 = .ok op) (b : UInt8) :
    op.translationTable b = become s1 s2 b := by
  cases hlast : s2.getLast? with
  | none =>
    cases List.getLast?_eq_none_iff.1 hlast
    by_cases hs1 : s1 = []
    · subst hs1
      cases h
      rfl
    · rw [new_nil, if_neg hs1] at h
      cases h
  | some fallback =>
    rw [TranslateOperation.new, hlast] at h
    cases h
    have hlen : s1.length ≤ (s2 ++ List.replicate s1.length fallback).length := by
      rw [List.length_append, List.length_replicate]
      exact Nat.le_add_left _ _
    show List.foldl _ id _ b = _
    rw [foldl_update, List.map_fst_zip hlen, become]
    cases hpos : lastPosition s1 b with
    | none => rfl
    | some i =>
      have hi := lt_of_lastPosition hpos
      have hzip : (s1.zip (s2 ++ List.replicate s1.length fallback))[i]?.map Prod.snd = element s2 i := by
        rw [← getElem?_padded hlast hi, List.zip_eq_zipWith, List.getElem?_zipWith, List.getElem?_eq_getElem hi]
        cases (s2 ++ List.replicate s1.length fallback)[i]? <;> rfl
      rw [Option.bind_some, Option.bind_some, hzip]
      rfl

/-! ## The fast path -/

section SingleChange

variable {α : Type} {table : UInt8 → α} {check : UInt8 → α → Bool}

/-- A single change is the only one. -/
theorem findSingleChange_eq_some {x : UInt8 × α} (h : findSingleChange table check = some x) :
    x.2 = table x.1 ∧ ∀ b, check b (table b) = true ↔ b = x.1 := by
  rw [findSingleChange] at h
  split at h
  next change hchange =>
    cases h
    obtain ⟨found, hfound⟩ : ∃ found, allBytes.filter (fun b => check b (table b)) = found := ⟨_, rfl⟩
    rw [hfound] at hchange
    have hmem : ∀ b, check b (table b) = true ↔ b ∈ found := fun b => by
      rw [← hfound, List.mem_filter]
      exact ⟨fun h => ⟨mem_allBytes b, h⟩, And.right⟩
    rcases found with - | ⟨b, - | ⟨b', found⟩⟩
    · cases hchange
    · cases hchange
      refine ⟨rfl, fun b' => (hmem b').trans List.mem_singleton⟩
    · cases hchange
  next => cases h

end SingleChange

theorem count_eq_length_iff {input : Bytes} : input.count b = input.length ↔ ∀ c ∈ input, c = b := by
  rw [List.count_eq_length]
  exact forall₂_congr fun c _ => eq_comm

theorem processSingleCharReplace_eq (input : Bytes) (source target : UInt8) :
    processSingleCharReplace input source target = input.map fun b => if b = source then target else b := by
  rw [processSingleCharReplace]
  split_ifs with hzero hall
  · have hnot : ∀ b ∈ input, (if b = source then target else b) = b := by
      intro b hb
      rw [if_neg]
      rintro rfl
      exact List.count_eq_zero.1 hzero hb
    exact ((List.map_congr_left (g := id) hnot).trans (List.map_id input)).symm
  · refine (List.eq_replicate_iff.2 ⟨List.length_map _, ?_⟩).symm
    intro c hc
    obtain ⟨b, hb, rfl⟩ := List.mem_map.1 hc
    exact if_pos (count_eq_length_iff.1 hall b hb)
  · rfl

/-- With and without the fast path, every byte of a chunk is translated. -/
theorem TranslateOperation.processChunk_eq (op : TranslateOperation) (input : Bytes) :
    op.processChunk input = input.map op.translationTable := by
  rw [processChunk]
  split
  next source target hchange =>
    obtain ⟨htarget, honly⟩ := findSingleChange_eq_some hchange
    rw [processSingleCharReplace_eq]
    refine List.map_congr_left fun b _ => ?_
    by_cases hb : b = source
    · rw [if_pos hb, hb]
      exact htarget
    · rw [if_neg hb]
      by_contra hne
      exact hb ((honly b).1 (by simpa [bne_iff_ne] using Ne.symm hne))
  next => rfl

/-- With and without the fast path, the bytes of the set are dropped. -/
theorem DeleteOperation.processChunk_eq (set input : Bytes) :
    (DeleteOperation.new set).processChunk input = input.filter (· ∉ set) := by
  have htable : ∀ b, (!(DeleteOperation.new set).deleteTable b) = decide (b ∉ set) := fun b => by
    show (!setToBitmap set b) = _
    rw [setToBitmap_eq, decide_not]
  rw [processChunk]
  split
  next deleteChar value hchange =>
    obtain ⟨-, honly⟩ := findSingleChange_eq_some hchange
    have hset : ∀ b, decide (b ∉ set) = decide (b ≠ deleteChar) := fun b => by
      rw [← htable, Bool.eq_iff_iff, decide_eq_true_eq, Bool.not_eq_true', ← Bool.not_eq_true]
      exact not_congr (honly b)
    rw [processSingleDelete]
    simp only [hset]
    split_ifs with hzero hlt
    · refine (List.filter_eq_self.2 fun b hb => decide_eq_true ?_).symm
      rintro rfl
      exact List.count_eq_zero.1 hzero hb
    · rfl
    · have hall := count_eq_length_iff.1 (Nat.le_antisymm List.count_le_length (Nat.le_of_not_lt hlt))
      refine (List.filter_eq_nil_iff.2 fun b hb => ?_).symm
      simp [hall b hb]
  next => exact List.filter_congr fun b _ => htable b

/-! ## Reads -/

/-- The bytes of the reads, up to an empty one. -/
def taken : List Read → Bytes
  | [] => []
  | .interrupted :: reads => taken reads
  | .bytes b :: reads => if b = [] then [] else b ++ taken reads

theorem processInput_map {processChunk : Bytes → Bytes} {f : UInt8 → UInt8} (h : ∀ b, processChunk b = b.map f)
    (reads : List Read) : processInput processChunk reads = (taken reads).map f := by
  induction reads with
  | nil => rfl
  | cons read reads ih =>
    cases read with
    | interrupted => exact ih
    | bytes b =>
      rw [processInput, taken]
      split
      · rfl
      · rw [h, ih, List.map_append]

/-- Drops every byte of the set that repeats the one before. -/
def dropRepeats (set : Bytes) : (previous : Option UInt8) → Bytes → Bytes
  | _, [] => []
  | previous, b :: bs => (if b ∈ set ∧ previous = some b then [] else [b]) ++ dropRepeats set (some b) bs

theorem dropRepeats_append (set : Bytes) (previous : Option UInt8) (xs ys : Bytes) :
    dropRepeats set previous (xs ++ ys) =
      dropRepeats set previous xs ++ dropRepeats set (xs.getLast?.or previous) ys := by
  induction xs generalizing previous with
  | nil => rfl
  | cons x xs ih =>
    rw [List.cons_append, dropRepeats, dropRepeats, ih, List.append_assoc, List.getLast?_cons]
    cases xs.getLast? <;> rfl

theorem dropRepeats_congr {set set' out : Bytes} (h : ∀ b ∈ out, b ∈ set ↔ b ∈ set') (previous : Option UInt8) :
    dropRepeats set previous out = dropRepeats set' previous out := by
  induction out generalizing previous with
  | nil => rfl
  | cons b out ih =>
    obtain ⟨hb, hout⟩ := List.forall_mem_cons.1 h
    rw [dropRepeats, dropRepeats, ih hout]
    simp only [hb]

/-- The squeezing stage behind a translation, between two bytes. -/
def squeezing (f : UInt8 → UInt8) (set : Bytes) (previous : Option UInt8) : Chained :=
  ⟨fun b => some (f b), ⟨setToBitmap set, previous⟩⟩

theorem translate_squeezing (f : UInt8 → UInt8) (set : Bytes) (previous : Option UInt8) (b : UInt8) :
    (squeezing f set previous).translate b =
      (if f b ∈ set ∧ previous = some (f b) then none else some (f b), squeezing f set (some (f b))) := by
  simp only [squeezing, Chained.translate, SqueezeOperation.translate, setToBitmap_eq, decide_eq_true_eq]

theorem translateBuffer_squeezing (f : UInt8 → UInt8) (set : Bytes) (previous : Option UInt8) (bs : Bytes) :
    translateBuffer Chained.translate (squeezing f set previous) bs =
      (dropRepeats set previous (bs.map f), squeezing f set ((bs.map f).getLast?.or previous)) := by
  induction bs generalizing previous with
  | nil => rfl
  | cons b bs ih =>
    rw [translateBuffer, translate_squeezing]
    dsimp only
    rw [ih, List.map_cons, dropRepeats, List.getLast?_cons]
    dsimp only
    congr 2
    · split <;> rfl
    · cases (bs.map f).getLast? <;> rfl

theorem translateInput_squeezed (f : UInt8 → UInt8) (set : Bytes) (reads : List Read) (previous : Option UInt8) :
    translateInput Chained.translate (squeezing f set previous) reads =
      dropRepeats set previous ((taken reads).map f) := by
  induction reads generalizing previous with
  | nil => rfl
  | cons read reads ih =>
    cases read with
    | interrupted => exact ih previous
    | bytes b =>
      rw [translateInput, taken]
      split
      · rfl
      · rw [translateBuffer_squeezing]
        dsimp only
        rw [ih, List.map_append, dropRepeats_append]

end Peiosutils.Tr
