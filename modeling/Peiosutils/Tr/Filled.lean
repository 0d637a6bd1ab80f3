import Peiosutils.Tr.Translated

/-!
# What `tr` means by a star

The star of the second set stands for as many bytes as bring it up to the length of the first. The star of the byte NUL
is dropped instead, so that `tr` does what its sets say exactly if no byte of the first set sees the difference
(`uumain_meets_iff`).
-/

set_option autoImplicit false

namespace Peiosutils.Tr

open Sequence

/-! ## The second set -/

/-- How many bytes the second set is shorter than `n`, without its star. -/
def missing (n : Nat) (seq2 : List Sequence) : Nat := n - (expand (seq2.filter (!isCharStar ·))).length

/-- A sequence with `k` bytes for a star. -/
def fillItem (k : Nat) : Sequence → Bytes
  | .charStar c => List.replicate k c
  | s => s.flatten

/-- The second set, brought up to the length `n` by its star. -/
def filled (n : Nat) (seq2 : List Sequence) : Bytes := seq2.flatMap (fillItem (missing n seq2))

/-- The second set as it is used. -/
def compensated (n : Nat) (seq2 : List Sequence) : Bytes := expand (seq2.filterMap (compensate (missing n seq2)))

variable {k n : Nat} {seq1 seq2 : List Sequence}

theorem expand_append (set set' : List Sequence) : expand (set ++ set') = expand set ++ expand set' :=
  List.flatMap_append

theorem expand_compensate_cons {s : Sequence} (h : s ≠ .charStar 0) (set : List Sequence) :
    expand ((s :: set).filterMap (compensate k)) = fillItem k s ++ expand (set.filterMap (compensate k)) := by
  cases s with
  | charStar c =>
    have hc : c ≠ 0 := fun hc => h (congrArg _ hc)
    have hsome : compensate k (.charStar c) = some (.charRepeat c k) := if_neg hc
    rw [List.filterMap_cons_some hsome]
    rfl
  | _ => rfl

theorem expand_compensate_nul (set : List Sequence) :
    expand ((.charStar 0 :: set).filterMap (compensate k)) = expand (set.filterMap (compensate k)) := rfl

/-- Only the star of NUL makes a difference. -/
theorem expand_compensate (h : .charStar 0 ∉ seq2) :
    expand (seq2.filterMap (compensate k)) = seq2.flatMap (fillItem k) := by
  induction seq2 with
  | nil => rfl
  | cons s set ih =>
    rw [List.mem_cons, not_or] at h
    rw [expand_compensate_cons (Ne.symm h.1), ih h.2]
    rfl

theorem flatMap_fillItem (h : ∀ s ∈ seq2, s.isCharStar = false) : seq2.flatMap (fillItem k) = expand seq2 := by
  refine List.flatMap_congr fun s hs => ?_
  cases s with
  | charStar c => exact absurd (h _ hs) Bool.true_eq_false_eq_False
  | _ => rfl

/-- A star is between sequences without one. -/
theorem not_star_around {before behind : List Sequence} {c : UInt8}
    (hone : ((before ++ .charStar c :: behind).filter isCharStar).length ≤ 1) :
    (∀ s ∈ before, s.isCharStar = false) ∧ ∀ s ∈ behind, s.isCharStar = false := by
  have hstar : (Sequence.charStar c :: behind).filter isCharStar = .charStar c :: behind.filter isCharStar := rfl
  rw [List.filter_append, hstar, List.length_append, List.length_cons] at hone
  have hnone : ∀ set : List Sequence, (set.filter isCharStar).length = 0 → ∀ s ∈ set, s.isCharStar = false := by
    intro set hset s hs
    exact Bool.eq_false_iff.2 (List.filter_eq_nil_iff.1 (List.length_eq_zero_iff.1 hset) s hs)
  exact ⟨hnone before (by omega), hnone behind (by omega)⟩

theorem filter_not_star {set : List Sequence} (h : ∀ s ∈ set, s.isCharStar = false) :
    set.filter (!isCharStar ·) = set :=
  List.filter_eq_self.2 fun s hs => by rw [h s hs]; rfl

section Split

variable {before behind : List Sequence}

theorem missing_split (hbefore : ∀ s ∈ before, s.isCharStar = false) (hbehind : ∀ s ∈ behind, s.isCharStar = false)
    (n : Nat) :
    missing n (before ++ .charStar 0 :: behind) = n - ((expand before).length + (expand behind).length) := by
  have hstar : (Sequence.charStar 0 :: behind).filter (!isCharStar ·) = behind.filter (!isCharStar ·) := rfl
  rw [missing, List.filter_append, hstar, filter_not_star hbefore, filter_not_star hbehind, expand_append,
    List.length_append]

theorem filled_split (hbefore : ∀ s ∈ before, s.isCharStar = false) (hbehind : ∀ s ∈ behind, s.isCharStar = false)
    (n : Nat) : filled n (before ++ .charStar 0 :: behind) =
    expand before ++ (List.replicate (missing n (before ++ .charStar 0 :: behind)) 0 ++ expand behind) := by
  rw [filled, List.flatMap_append, List.flatMap_cons, flatMap_fillItem hbefore, flatMap_fillItem hbehind]
  rfl

theorem compensated_split (hbefore : ∀ s ∈ before, s.isCharStar = false)
    (hbehind : ∀ s ∈ behind, s.isCharStar = false) (n : Nat) :
    compensated n (before ++ .charStar 0 :: behind) = expand before ++ expand behind := by
  have hno : ∀ set : List Sequence, (∀ s ∈ set, s.isCharStar = false) → .charStar 0 ∉ set :=
    fun set hset hmem => absurd (hset _ hmem) (by decide)
  rw [compensated, List.filterMap_append, expand_append, expand_compensate_nul, expand_compensate (hno _ hbefore),
    expand_compensate (hno _ hbehind), flatMap_fillItem hbefore, flatMap_fillItem hbehind]

end Split

/-! ## What a byte sees of the star -/

/-- The star of NUL is where no byte sees it: where the last position of a byte of the first set is not before the star,
there is the same without the bytes for it, NUL in their place or what comes behind them. -/
def FillUnseen (s1 : Bytes) (seq2 : List Sequence) : Prop :=
  ∀ before behind, seq2 = before ++ .charStar 0 :: behind → missing s1.length seq2 ≠ 0 →
    ∀ b i, lastPosition s1 b = some i → (expand before).length ≤ i →
      element (expand before ++ expand behind) i =
        if i < (expand before).length + missing s1.length seq2 then some 0
        else (expand behind)[i - ((expand before).length + missing s1.length seq2)]?

/-- NUL is squeezed where the star makes it an element of the second set. -/
def NulSqueezed (s1 : Bytes) (seq2 : List Sequence) : Prop :=
  .charStar 0 ∈ seq2 → missing s1.length seq2 ≠ 0 → 0 ∈ s1 ∨ 0 ∈ expand seq2

theorem element_append_left {as bs : Bytes} {i : Nat} (h : i < as.length) : element (as ++ bs) i = as[i]? := by
  rw [element, List.getElem?_append_left h, List.getElem?_eq_getElem h]
  rfl

theorem element_filled {as bs : Bytes} {i : Nat} (hle : as.length ≤ i) (hlt : i < as.length + k + bs.length) :
    element (as ++ (List.replicate k 0 ++ bs)) i =
      if i < as.length + k then some 0 else bs[i - (as.length + k)]? := by
  have hi : i < (as ++ (List.replicate k 0 ++ bs)).length := by
    rw [List.length_append, List.length_append, List.length_replicate]
    omega
  have hget : element (as ++ (List.replicate k 0 ++ bs)) i = (as ++ (List.replicate k 0 ++ bs))[i]? := by
    rw [element, List.getElem?_eq_getElem hi]
    rfl
  rw [hget, List.getElem?_append_right hle, List.getElem?_append, List.length_replicate, List.getElem?_replicate]
  split_ifs <;> first | rfl | omega | (congr 1; omega)

theorem become_eq_iff {s1 s2 s2' : Bytes} {b : UInt8} {i : Nat} (hpos : lastPosition s1 b = some i) (hne : s2 ≠ [])
    (hne' : s2' ≠ []) : become s1 s2 b = become s1 s2' b ↔ element s2 i = element s2' i := by
  obtain ⟨c, -, hc⟩ := element_isSome hne i
  obtain ⟨c', -, hc'⟩ := element_isSome hne' i
  rw [become, become, hpos, Option.bind_some, Option.bind_some, hc, hc', Option.some_inj]
  rfl

/-- Behind the beginning of the star, the two sets have the same element if the star is not seen there. -/
theorem element_split {before behind : List Sequence} {n i : Nat}
    (hone : ((before ++ .charStar 0 :: behind).filter isCharStar).length ≤ 1)
    (hi : i < n) (hle : (expand before).length ≤ i) :
    element (filled n (before ++ .charStar 0 :: behind)) i =
      if i < (expand before).length + missing n (before ++ .charStar 0 :: behind) then some 0
      else (expand behind)[i - ((expand before).length + missing n (before ++ .charStar 0 :: behind))]? := by
  obtain ⟨hbefore, hbehind⟩ := not_star_around hone
  have hmissing := missing_split hbefore hbehind n
  rw [filled_split hbefore hbehind]
  exact element_filled hle (by omega)

theorem filled_ne_nil (hstar : .charStar 0 ∈ seq2) (hk : missing n seq2 ≠ 0) : filled n seq2 ≠ [] := by
  intro hnil
  have hitem := List.flatMap_eq_nil_iff.1 hnil _ hstar
  exact hk ((List.replicate_eq_nil_iff _).1 hitem)

/-- Without bytes that are missing, the star makes no difference. -/
theorem compensated_eq_filled (h : .charStar 0 ∉ seq2 ∨ missing n seq2 = 0)
    (hone : (seq2.filter isCharStar).length ≤ 1) : compensated n seq2 = filled n seq2 := by
  by_cases hstar : .charStar 0 ∈ seq2
  · have hk := h.resolve_left (not_not.2 hstar)
    obtain ⟨before, behind, rfl⟩ := List.append_of_mem hstar
    obtain ⟨hbefore, hbehind⟩ := not_star_around hone
    rw [compensated_split hbefore hbehind, filled_split hbefore hbehind, hk]
    rfl
  · exact expand_compensate hstar

/-- Every byte becomes what the sets say exactly if no byte sees the star. -/
theorem become_eq_iff_fillUnseen {s1 : Bytes} (hone : (seq2.filter isCharStar).length ≤ 1)
    (hne : s1 ≠ [] → compensated s1.length seq2 ≠ []) :
    (∀ b, become s1 (compensated s1.length seq2) b = become s1 (filled s1.length seq2) b) ↔ FillUnseen s1 seq2 := by
  have hs1 : ∀ {b i}, lastPosition s1 b = some i → s1 ≠ [] := by
    rintro b i hpos rfl
    cases hpos
  constructor
  · rintro h before behind rfl hk b i hpos hle
    obtain ⟨hbefore, hbehind⟩ := not_star_around hone
    have hstar : .charStar 0 ∈ before ++ .charStar 0 :: behind := List.mem_append_right _ List.mem_cons_self
    rw [← element_split hone (lt_of_lastPosition hpos) hle, ← compensated_split hbefore hbehind s1.length]
    exact (become_eq_iff hpos (hne (hs1 hpos)) (filled_ne_nil hstar hk)).1 (h b)
  · intro h b
    by_cases hcase : .charStar 0 ∉ seq2 ∨ missing s1.length seq2 = 0
    · rw [compensated_eq_filled hcase hone]
    · obtain ⟨hstar, hk⟩ := not_or.1 hcase
      rw [not_not] at hstar
      cases hpos : lastPosition s1 b with
      | none =>
        have hmem := lastPosition_eq_none.1 hpos
        rw [become_of_not_mem hmem, become_of_not_mem hmem]
      | some i =>
        refine (become_eq_iff hpos (hne (hs1 hpos)) (filled_ne_nil hstar hk)).2 ?_
        obtain ⟨before, behind, rfl⟩ := List.append_of_mem hstar
        obtain ⟨hbefore, hbehind⟩ := not_star_around hone
        by_cases hle : (expand before).length ≤ i
        · rw [element_split hone (lt_of_lastPosition hpos) hle, compensated_split hbefore hbehind]
          exact h before behind rfl hk b i hpos hle
        · rw [compensated_split hbefore hbehind, filled_split hbefore hbehind,
            element_append_left (Nat.lt_of_not_le hle), element_append_left (Nat.lt_of_not_le hle)]

/-! ## Squeezing -/

theorem mem_filled (hone : (seq2.filter isCharStar).length ≤ 1) {b : UInt8} (hb : b ≠ 0) :
    b ∈ compensated n seq2 ↔ b ∈ filled n seq2 := by
  by_cases hstar : .charStar 0 ∈ seq2
  · obtain ⟨before, behind, rfl⟩ := List.append_of_mem hstar
    obtain ⟨hbefore, hbehind⟩ := not_star_around hone
    rw [compensated_split hbefore hbehind, filled_split hbefore hbehind]
    simp [List.mem_replicate, hb]
  · rw [compensated_eq_filled (.inl hstar) hone]

theorem expand_of_star (hstar : .charStar 0 ∈ seq2) (hone : (seq2.filter isCharStar).length ≤ 1) :
    compensated n seq2 = expand seq2 := by
  obtain ⟨before, behind, rfl⟩ := List.append_of_mem hstar
  obtain ⟨hbefore, hbehind⟩ := not_star_around hone
  rw [compensated_split hbefore hbehind, expand_append]
  rfl

/-- If the bytes become the same, NUL is what may be squeezed in another way. -/
theorem squeezed_iff {s1 : Bytes} (hone : (seq2.filter isCharStar).length ≤ 1)
    (hne : s1 ≠ [] → compensated s1.length seq2 ≠ [])
    (hsame : ∀ b, become s1 (compensated s1.length seq2) b = become s1 (filled s1.length seq2) b) :
    (∀ input : Bytes, dropRepeats (compensated s1.length seq2) none (input.map (become s1 (filled s1.length seq2))) =
      dropRepeats (filled s1.length seq2) none (input.map (become s1 (filled s1.length seq2)))) ↔
      NulSqueezed s1 seq2 := by
  constructor
  · intro h hstar hk
    by_contra hno
    obtain ⟨hs1, hset⟩ := not_or.1 hno
    have hnul : (0 : UInt8) ∈ filled s1.length seq2 :=
      List.mem_flatMap.2 ⟨_, hstar, List.mem_replicate.2 ⟨hk, rfl⟩⟩
    have hbecome : become s1 (filled s1.length seq2) 0 = 0 := become_of_not_mem hs1
    have hout := h [0, 0]
    rw [expand_of_star hstar hone] at hout
    simp [hbecome, dropRepeats, hset, hnul] at hout
  · intro h input
    refine dropRepeats_congr (fun b hb => ?_) none
    by_cases hzero : b = 0
    · subst hzero
      by_cases hcase : .charStar 0 ∉ seq2 ∨ missing s1.length seq2 = 0
      · rw [compensated_eq_filled hcase hone]
      · obtain ⟨hstar, hk⟩ := not_or.1 hcase
        rw [not_not] at hstar
        have hnul : (0 : UInt8) ∈ filled s1.length seq2 :=
          List.mem_flatMap.2 ⟨_, hstar, List.mem_replicate.2 ⟨hk, rfl⟩⟩
        refine iff_of_true ?_ hnul
        rcases h hstar hk with hs1 | hset
        · obtain ⟨c, -, hc⟩ := List.mem_map.1 hb
          have hcs1 : c ∈ s1 := by
            by_contra hcs1
            rw [become_of_not_mem hcs1] at hc
            exact hcs1 (hc ▸ hs1)
          rw [← hc, ← hsame c]
          exact become_mem hcs1 (hne (List.ne_nil_of_mem hcs1))
        · rw [expand_of_star hstar hone]
          exact hset
    · exact mem_filled hone hzero

/-! ## The program -/

def plain : Flags := ⟨false, false, false, false⟩

def squeezingToo : Flags := ⟨false, false, true, false⟩

/-- Sets that are accepted for translating, with their sequences. -/
structure Accepted (set1 set2 : Bytes) (seq1 seq2 : List Sequence) : Prop where
  first : fromStr set1 = .ok seq1
  second : fromStr set2 = .ok seq2
  accepted : ∃ out, uumain plain set1 (some set2) [] = .ok out

theorem of_check {c : Bool} {e : BadSequence} {u : Unit} (h : check c e = .ok u) : c = false := by
  cases c with
  | false => rfl
  | true => cases h

theorem truncateSet1_eq_ok {set1 set2 : List Sequence} {solved r : Bytes}
    (h : truncateSet1 set1 set2 solved false false = .ok r) : r = solved := by
  simp only [truncateSet1, Bool.false_eq_true, if_false] at h
  split_ifs at h <;> cases h <;> rfl

/-- Sets that are accepted are expanded as they are, up to the star. -/
theorem solveSetCharacters_eq_ok {set1 set2 : Bytes} {r : Bytes × Bytes} (h1 : fromStr set1 = .ok seq1)
    (h2 : fromStr set2 = .ok seq2) (h : solveSetCharacters set1 set2 false false true = .ok r) :
    (seq2.filter isCharStar).length ≤ 1 ∧ r = (expand seq1, compensated (expand seq1).length seq2) := by
  obtain ⟨seq1', hseq1, h⟩ := Fallible.bind_eq_ok.1 h
  cases hseq1.symm.trans h1
  obtain ⟨_, -, h⟩ := Fallible.bind_eq_ok.1 h
  obtain ⟨seq2', hseq2, h⟩ := Fallible.bind_eq_ok.1 h
  cases hseq2.symm.trans h2
  obtain ⟨_, hone, h⟩ := Fallible.bind_eq_ok.1 h
  obtain ⟨_, -, h⟩ := Fallible.bind_eq_ok.1 h
  obtain ⟨_, -, h⟩ := Fallible.bind_eq_ok.1 h
  obtain ⟨_, -, h⟩ := Fallible.bind_eq_ok.1 h
  obtain ⟨solved, hsolved, h⟩ := Fallible.bind_eq_ok.1 h
  cases truncateSet1_eq_ok hsolved
  cases h
  exact ⟨Nat.le_of_not_lt (of_decide_eq_false (of_check hone)), rfl⟩

/-- What the program does with sets that it accepts. -/
theorem Accepted.runs {set1 set2 : Bytes} (h : Accepted set1 set2 seq1 seq2) :
    (seq2.filter isCharStar).length ≤ 1 ∧ (expand seq1 ≠ [] → compensated (expand seq1).length seq2 ≠ []) ∧
      ∀ reads, uumain plain set1 (some set2) reads =
          .ok ((taken reads).map (become (expand seq1) (compensated (expand seq1).length seq2))) ∧
        uumain squeezingToo set1 (some set2) reads =
          .ok (dropRepeats (compensated (expand seq1).length seq2) none
            ((taken reads).map (become (expand seq1) (compensated (expand seq1).length seq2)))) := by
  obtain ⟨out, hout⟩ := h.accepted
  obtain ⟨r, hr, hout⟩ := Fallible.bind_eq_ok.1 hout
  obtain ⟨op, hop, -⟩ := Fallible.bind_eq_ok.1 hout
  obtain ⟨hone, rfl⟩ := solveSetCharacters_eq_ok h.first h.second hr
  have htable : op.translationTable = become (expand seq1) (compensated (expand seq1).length seq2) :=
    funext (new_table hop)
  refine ⟨hone, ne_nil_of_new hop, fun reads => ⟨?_, ?_⟩⟩
  · refine Fallible.bind_eq_ok.2 ⟨_, hr, Fallible.bind_eq_ok.2 ⟨op, hop, ?_⟩⟩
    rw [processInput_map op.processChunk_eq, htable]
  · refine Fallible.bind_eq_ok.2 ⟨_, hr, Fallible.bind_eq_ok.2 ⟨op, hop, ?_⟩⟩
    rw [← htable]
    exact congrArg Except.ok (translateInput_squeezed op.translationTable _ reads none)

/-- Every byte of the first set becomes the one at its last position there, whatever the reads. -/
def Translates (set1 set2 : Bytes) (seq1 seq2 : List Sequence) : Prop :=
  ∀ reads, uumain plain set1 (some set2) reads =
    .ok ((taken reads).map (become (expand seq1) (filled (expand seq1).length seq2)))

/-- Behind that, bytes of the second set that repeat the one before are dropped. -/
def Squeezes (set1 set2 : Bytes) (seq1 seq2 : List Sequence) : Prop :=
  ∀ reads, uumain squeezingToo set1 (some set2) reads =
    .ok (dropRepeats (filled (expand seq1).length seq2) none
      ((taken reads).map (become (expand seq1) (filled (expand seq1).length seq2))))

theorem taken_bytes (input : Bytes) : taken [.bytes input] = input := by
  cases input <;> simp [taken]

/-- A single byte is never squeezed. -/
theorem dropRepeats_singleton (set : Bytes) (b : UInt8) : dropRepeats set none [b] = [b] := by
  simp [dropRepeats]

/-- Sets that are accepted translate as they say exactly if no byte sees a star of NUL, and squeeze as they say exactly
if, besides, NUL is in one of the sets without the star. -/
theorem uumain_meets_iff {set1 set2 : Bytes} (h : Accepted set1 set2 seq1 seq2) :
    (Translates set1 set2 seq1 seq2 ↔ FillUnseen (expand seq1) seq2) ∧
      (Squeezes set1 set2 seq1 seq2 ↔ FillUnseen (expand seq1) seq2 ∧ NulSqueezed (expand seq1) seq2) := by
  obtain ⟨hone, hne, hruns⟩ := h.runs
  have hsame := become_eq_iff_fillUnseen hone hne
  refine ⟨Iff.trans ⟨fun hmeets b => ?_, fun hbecome reads => ?_⟩ hsame, fun hmeets => ?_, fun hcondition reads => ?_⟩
  · have hout := Except.ok.inj ((hruns [.bytes [b]]).1.symm.trans (hmeets [.bytes [b]]))
    rw [taken_bytes] at hout
    exact (List.cons.inj hout).1
  · rw [(hruns reads).1, funext hbecome]
  · have hbecome : ∀ b, become (expand seq1) (compensated (expand seq1).length seq2) b =
        become (expand seq1) (filled (expand seq1).length seq2) b := fun b => by
      have hout := Except.ok.inj ((hruns [.bytes [b]]).2.symm.trans (hmeets [.bytes [b]]))
      rw [taken_bytes, List.map_singleton, List.map_singleton, dropRepeats_singleton, dropRepeats_singleton] at hout
      exact (List.cons.inj hout).1
    refine ⟨hsame.1 hbecome, (squeezed_iff hone hne hbecome).1 fun input => ?_⟩
    have hout := Except.ok.inj ((hruns [.bytes input]).2.symm.trans (hmeets [.bytes input]))
    rwa [taken_bytes, funext hbecome] at hout
  · have hbecome := hsame.2 hcondition.1
    rw [(hruns reads).2, funext hbecome, (squeezed_iff hone hne hbecome).2 hcondition.2]

theorem accepted_nul : Accepted (bytes "ab") (bytes "x[\\000*]") [.char 97, .char 98] [.char 120, .charStar 0] :=
  ⟨rfl, rfl, [], rfl⟩

theorem uumain_meets_iff_nul :
    (Translates (bytes "ab") (bytes "x[\\000*]") [.char 97, .char 98] [.char 120, .charStar 0] ↔
        FillUnseen (expand [.char 97, .char 98]) [.char 120, .charStar 0]) ∧
      (Squeezes (bytes "ab") (bytes "x[\\000*]") [.char 97, .char 98] [.char 120, .charStar 0] ↔
        FillUnseen (expand [.char 97, .char 98]) [.char 120, .charStar 0] ∧
          NulSqueezed (expand [.char 97, .char 98]) [.char 120, .charStar 0]) :=
  uumain_meets_iff accepted_nul

/-- With the star of NUL behind `x`, `b` becomes `x`. -/
theorem nul_dropped : ¬ ∀ (set1 set2 : Bytes) (seq1 seq2 : List Sequence), Accepted set1 set2 seq1 seq2 →
    Translates set1 set2 seq1 seq2 ∧ Squeezes set1 set2 seq1 seq2 := by
  intro h
  have hrun := (h _ _ _ _ accepted_nul).1 [.bytes [98]]
  have hout : uumain plain (bytes "ab") (some (bytes "x[\\000*]")) [.bytes [98]] = .ok [120] := by rfl
  rw [hout] at hrun
  exact absurd (Except.ok.inj hrun) (by decide)

end Peiosutils.Tr
