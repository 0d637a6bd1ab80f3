import Peiosutils.Cut.Walk

/-!
# What field mode writes (`cut.rs`)

For each record: the chosen fields with the output delimiter between them, and the terminator; or the record as it is, where
it has no delimiter (`expected`). Both routines do this for every list of ranges, and the one with the delimiters of the input
as the other one with the same delimiter, but for the last field of an open record: the routine with the explicit delimiter
writes it twice where a range that ends at it or behind it is followed by a range that starts right behind that one
(`writes_iff`).
-/

set_option autoImplicit false

namespace Peiosutils.Cut

open Ranges (Range contain usizeMax Produced)
open Stretch (Ascending)
open Lines (openLine)

/-! ## The delimiters -/

/-- `Delimiter`. -/
inductive Delimiter where
  | whitespace
  | slice (delim : Bytes)
  deriving DecidableEq, Repr

def Delimiter.matcher : Delimiter → Matcher UInt8
  | .whitespace => whitespaceMatcher
  | .slice delim => exactMatcher delim

/-- `ExactMatcher::new` wants a byte, and a delimiter with the terminator in it has a routine of its own: it is one
character. The terminator is a newline or zero, and no blank. -/
def Delimiter.Valid (newline : UInt8) : Delimiter → Prop
  | .whitespace => isBlank newline = false
  | .slice delim => delim ≠ [] ∧ newline ∉ delim

theorem exactMatch_bounds {needle : Bytes} {pos : Nat} {c : Bytes} {first last : Nat}
    (h : exactMatch needle pos c = some (first, last)) :
    pos ≤ first ∧ first < last ∧ last ≤ pos + c.length := by
  induction c generalizing pos with
  | nil => cases h
  | cons b bs ih =>
    rw [exactMatch] at h
    split at h
    · rename_i hmatch
      obtain ⟨hhead, htail⟩ := hmatch
      cases h
      obtain ⟨n, ns, rfl⟩ : ∃ n ns, needle = n :: ns := by
        cases needle with
        | nil => cases hhead
        | cons n ns => exact ⟨n, ns, rfl⟩
      have hlen : ns.length ≤ bs.length := by
        rcases htail with hone | hstarts
        · rw [List.length_cons] at hone
          omega
        · exact (List.isPrefixOf_iff_prefix.1 hstarts).length_le
      simp only [List.length_cons]
      omega
    · have := ih h
      rw [List.length_cons]
      omega

/-- A byte at the end that is not in the needle is not matched. -/
theorem exactMatch_concat {needle : Bytes} {x : UInt8} (hx : x ∉ needle) (pos : Nat) (c : Bytes) :
    exactMatch needle pos (c ++ [x]) = exactMatch needle pos c := by
  induction c generalizing pos with
  | nil =>
    have hhead : needle.head? ≠ some x := fun h => hx (List.mem_of_mem_head? h)
    simp [exactMatch, hhead]
  | cons b bs ih =>
    have hiff : needle.tail.isPrefixOf (bs ++ [x]) = true ↔ needle.tail.isPrefixOf bs = true := by
      rw [List.isPrefixOf_iff_prefix, List.isPrefixOf_iff_prefix, List.prefix_concat_iff]
      constructor
      · rintro (heq | hpre)
        · exact absurd (List.mem_of_mem_tail (heq ▸ List.mem_append_right bs List.mem_cons_self)) hx
        · exact hpre
      · exact Or.inr
    rw [List.cons_append, exactMatch, exactMatch, ih]
    simp only [hiff]

theorem whitespaceMatcher_concat {x : UInt8} (hx : isBlank x = false) (c : Bytes) :
    whitespaceMatcher (c ++ [x]) = whitespaceMatcher c := by
  unfold whitespaceMatcher
  rw [List.dropWhile_append]
  cases hrest : c.dropWhile (!isBlank ·) with
  | nil => simp [hx]
  | cons b bs =>
    have hdrop : ((b :: bs ++ [x]).dropWhile isBlank).length = ((b :: bs).dropWhile isBlank).length + 1 := by
      rw [List.dropWhile_append]
      split
      · rename_i hnil
        rw [List.isEmpty_iff] at hnil
        simp [hnil, hx]
      · rw [List.length_append, List.length_singleton]
    have hle : ((b :: bs).dropWhile isBlank).length ≤ c.length := by
      have h₁ := (List.dropWhile_sublist isBlank (l := b :: bs)).length_le
      have h₂ := (List.dropWhile_sublist (!isBlank ·) (l := c)).length_le
      rw [hrest] at h₂
      omega
    dsimp only
    rw [if_neg (by simp), if_neg (by simp), hdrop]
    simp

theorem Delimiter.sound (d : Delimiter) : Cuts.Sound d.matcher := by
  intro c first last h
  cases d with
  | slice delim =>
    have := exactMatch_bounds h
    omega
  | whitespace =>
    unfold Delimiter.matcher whitespaceMatcher at h
    dsimp only at h
    split at h
    · cases h
    · rename_i hne
      cases h
      obtain ⟨b, bs, hbs⟩ := List.exists_cons_of_ne_nil hne
      have hb : isBlank b = true := by
        have := List.head?_dropWhile_not (!isBlank ·) c
        simpa [hbs] using this
      have hlen : (bs.dropWhile isBlank).length ≤ bs.length := (List.dropWhile_sublist _).length_le
      have hle := (List.dropWhile_sublist (!isBlank ·) (l := c)).length_le
      rw [hbs, List.dropWhile_cons_of_pos hb]
      rw [hbs, List.length_cons] at hle
      simp only [List.length_cons]
      omega

theorem Delimiter.blind {d : Delimiter} {newline : UInt8} (h : d.Valid newline) : Cuts.Blind d.matcher newline := by
  intro c
  cases d with
  | slice delim => exact exactMatch_concat h.2 0 c
  | whitespace => exact whitespaceMatcher_concat h c

/-! ## What is expected -/

/-- The fields with the numbers the ranges contain, which are counted from `first`. -/
def selectedFrom (first : Nat) (ranges : List Range) (fields : List Bytes) : List Bytes :=
  ((fields.zipIdx first).filter fun f => contain ranges f.2).map Prod.fst

/-- The fields of a record. -/
def recordFields (m : Matcher UInt8) (record : Bytes) : List Bytes := (Cuts.of m record).fields

def expectedRecord (m : Matcher UInt8) (ranges : List Range) (onlyDelimited : Bool) (newline : UInt8)
    (outDelim record : Bytes) : Bytes :=
  if (recordFields m record).length = 1 then if onlyDelimited then [] else record ++ [newline]
  else outDelim.intercalate (selectedFrom 1 ranges (recordFields m record)) ++ [newline]

def expected (m : Matcher UInt8) (ranges : List Range) (onlyDelimited : Bool) (newline : UInt8)
    (outDelim input : Bytes) : Bytes :=
  (Lines.lines newline input).flatMap (expectedRecord m ranges onlyDelimited newline outDelim)

theorem selectedFrom_append (first : Nat) (ranges : List Range) (fs gs : List Bytes) :
    selectedFrom first ranges (fs ++ gs) = selectedFrom first ranges fs ++ selectedFrom (first + fs.length) ranges gs := by
  rw [selectedFrom, List.zipIdx_append, List.filter_append, List.map_append]
  rfl

/-- Which fields are chosen depends on their numbers. -/
theorem selectedFrom_congr {first : Nat} {ranges ranges' : List Range} {fields : List Bytes}
    (h : ∀ n, first ≤ n → n < first + fields.length → contain ranges n = contain ranges' n) :
    selectedFrom first ranges fields = selectedFrom first ranges' fields := by
  rw [selectedFrom, selectedFrom, List.filter_congr]
  intro f hf
  have := List.mem_zipIdx hf
  exact h f.2 this.1 this.2.1

theorem selectedFrom_nil (first : Nat) (fields : List Bytes) : selectedFrom first [] fields = [] := by
  have hnone : (fields.zipIdx first).filter (fun f => contain [] f.2) = [] :=
    List.filter_eq_nil_iff.2 fun f _ => Bool.false_ne_true
  rw [selectedFrom, hnone]
  rfl

/-- All fields are in the range. -/
theorem selectedFrom_all {first : Nat} {r : Range} {fields : List Bytes} (hlow : r.low ≤ first)
    (hhigh : first + fields.length ≤ r.high + 1) (ranges : List Range) :
    selectedFrom first (r :: ranges) fields = fields := by
  rw [selectedFrom, List.filter_eq_self.2, List.zipIdx_map_fst]
  intro f hf
  have := List.mem_zipIdx hf
  rw [contain, if_pos (by simp; omega)]

/-- The fields the walk chooses are those the ranges contain. -/
theorem chosen_eq_selected {b : Nat} {ranges : List Range} (h : Ascending b ranges) (fields : List Bytes) :
    chosen (b + 1) ranges fields = selectedFrom (b + 1) ranges fields := by
  induction ranges generalizing b fields with
  | nil => rw [selectedFrom_nil, chosen]
  | cons r ranges ih =>
    obtain ⟨hb, hr, hrs⟩ := h
    have hbehind : ∀ n, r.high < n → contain (r :: ranges) n = contain ranges n := fun n hn => by
      rw [contain, if_neg (by simp; omega)]
    have hbefore : ∀ n, n < r.low → contain (r :: ranges) n = contain [] n := fun n hn => by
      have hnot : ¬ contain (r :: ranges) n = true := by
        rw [Ranges.contain_iff]
        intro hmem
        have hasc : Ascending (r.low - 1) (r :: ranges) := ⟨by omega, hr, hrs⟩
        have := hasc.lt_of_mem hmem
        omega
      rw [Bool.not_eq_true] at hnot
      rw [hnot, contain]
    -- the fields before the range, those in it, and those behind it
    have hsplit : fields = fields.take (r.low - (b + 1)) ++ ((fields.drop (r.low - (b + 1))).take (r.high - r.low + 1) ++
        fields.drop (r.high + 1 - (b + 1))) := by
      have hdrop : fields.drop (r.high + 1 - (b + 1)) = (fields.drop (r.low - (b + 1))).drop (r.high - r.low + 1) := by
        rw [List.drop_drop]
        congr 1
        omega
      rw [hdrop, List.take_append_drop, List.take_append_drop]
    have hfirst : (fields.take (r.low - (b + 1))).length = min (r.low - (b + 1)) fields.length := List.length_take
    have hmiddle : ((fields.drop (r.low - (b + 1))).take (r.high - r.low + 1)).length =
        min (r.high - r.low + 1) (fields.length - (r.low - (b + 1))) := by
      rw [List.length_take, List.length_drop]
    have hlast : (fields.drop (r.high + 1 - (b + 1))).length = fields.length - (r.high + 1 - (b + 1)) := List.length_drop
    rw [chosen, ih hrs]
    conv_rhs => rw [hsplit]
    rw [selectedFrom_append, selectedFrom_append,
      selectedFrom_congr (fun n _ hn => hbefore n (by omega)), selectedFrom_nil, List.nil_append]
    congr 1
    · by_cases hnil : fields.length ≤ r.low - (b + 1)
      · rw [List.drop_eq_nil_of_le hnil]
        rfl
      · rw [selectedFrom_all (by omega) (by omega)]
    · by_cases hnil : fields.length ≤ r.high + 1 - (b + 1)
      · rw [List.drop_eq_nil_of_le hnil]
        rfl
      · have hstart : b + 1 + (fields.take (r.low - (b + 1))).length +
            ((fields.drop (r.low - (b + 1))).take (r.high - r.low + 1)).length = r.high + 1 := by omega
        rw [hstart]
        exact (selectedFrom_congr fun n hn _ => hbehind n hn).symm

/-! ## Records -/

section Record

variable {m : Matcher UInt8} {ranges : List Range} {newline : UInt8} {record : Bytes}

theorem recordFields_eq (m : Matcher UInt8) (record : Bytes) :
    recordFields m record = (Cuts.of m record).pairs.map Prod.fst ++ [(Cuts.of m record).last] := rfl

theorem length_recordFields (m : Matcher UInt8) (record : Bytes) :
    (recordFields m record).length = 1 + (Cuts.of m record).pairs.length := by
  rw [recordFields_eq, List.length_append, List.length_map, List.length_singleton, Nat.add_comm]

/-- The terminator of a record, if it has one. -/
def tailOf (ended : Bool) (newline : UInt8) : Bytes := if ended then [newline] else []

/-- A record with its terminator, before the ranges are gone through. -/
theorem at_start (hm : Cuts.Sound m) (hblind : Cuts.Blind m newline) (ended : Bool) (record : Bytes) :
    At (record ++ tailOf ended newline) 0 (delims m (record ++ tailOf ended newline)) [] (Cuts.of m record).pairs
      ((Cuts.of m record).last ++ tailOf ended newline) := by
  have hcut : Cuts.of m (record ++ tailOf ended newline) =
      ⟨(Cuts.of m record).pairs, (Cuts.of m record).last ++ tailOf ended newline⟩ := by
    cases ended with
    | true => exact Cuts.of_concat hm hblind record
    | false => simp [tailOf]
  refine ⟨Nat.zero_le _, ?_, ?_⟩
  · have htext := Cuts.text_of hm (record ++ tailOf ended newline)
    rw [hcut] at htext
    exact htext.symm
  · rw [delims, search_eq hm _ _ _ (by rw [List.drop_zero]), List.drop_zero, hcut]
    rfl

/-- Records without a delimiter are treated alike. -/
theorem cutRecord_eq (hm : Cuts.Sound m) (hblind : Cuts.Blind m newline) (hnewline : newline ∉ record)
    (onlyDelimited ended : Bool) (outDelim : Bytes) (ranges : List Range) (walk : Cutting → Option Bytes) :
    cutRecord (record ++ tailOf ended newline) newline m onlyDelimited walk =
      if (recordFields m record).length = 1 then some (expectedRecord m ranges onlyDelimited newline outDelim record)
      else walk ⟨1, 0, delims m (record ++ tailOf ended newline), false⟩ := by
  have hdelims := (at_start hm hblind ended record).delims_eq
  have hnil : delims m (record ++ tailOf ended newline) = [] ↔ (recordFields m record).length = 1 := by
    rw [hdelims, length_recordFields, ← List.length_eq_zero_iff, length_spans]
    omega
  rw [cutRecord]
  by_cases hone : (recordFields m record).length = 1
  · have hline : (record ++ tailOf ended newline ++
        if (record ++ tailOf ended newline).getLast? = some newline then [] else [newline]) = record ++ [newline] := by
      cases ended with
      | true => simp [tailOf]
      | false =>
        have hlast : record.getLast? ≠ some newline := fun h => hnewline (List.mem_of_getLast? h)
        simp [tailOf, hlast]
    rw [if_pos (hnil.2 hone), if_pos hone, expectedRecord, if_pos hone, hline]
  · rw [if_neg (mt hnil.1 hone), if_neg hone]

theorem endsWith_tailOf {ended : Bool} (hnewline : newline ∉ record) (hne : ended = false → record ≠ []) :
    endsWith (record ++ tailOf ended newline) newline = some ended := by
  cases ended with
  | true => simp [endsWith, tailOf]
  | false =>
    have hx : record.getLast (hne rfl) ≠ newline := fun h => hnewline (h ▸ List.getLast_mem (hne rfl))
    have hlast : record.getLast? = some (record.getLast (hne rfl)) := List.getLast?_eq_some_getLast (hne rfl)
    simp [endsWith, tailOf, hlast, hx]

/-- The last field of a record, where it is written again. -/
def again (ranges : List Range) (outDelim : Bytes) (fields : List Bytes) : Bytes :=
  if AgainAt fields.length ranges then outDelim ++ fields.getLastD [] else []

theorem getLastD_recordFields (m : Matcher UInt8) (record : Bytes) :
    (recordFields m record).getLastD [] = (Cuts.of m record).last := by
  rw [recordFields_eq, List.getLastD_concat]

variable (hm : Cuts.Sound m) (hblind : Cuts.Blind m newline) (hasc : Ascending 0 ranges)
  (hhigh : ∀ r ∈ ranges, r.high ≤ usizeMax - 1)
include hm hblind hasc hhigh

/-- A record with the explicit delimiter: as expected, but for the last field of an open one. -/
theorem explicitRecord_eq (record : Bytes) (ended : Bool) (hnewline : newline ∉ record) (hne : ended = false → record ≠ [])
    (onlyDelimited : Bool) (outDelim : Bytes) :
    ∃ front back, expectedRecord m ranges onlyDelimited newline outDelim record = front ++ back ∧
      cutRecord (record ++ tailOf ended newline) newline m onlyDelimited (fun st =>
        explicitRanges (record ++ tailOf ended newline) newline outDelim ranges st []) =
      some (front ++ (if ended then [] else again ranges outDelim (recordFields m record)) ++ back) := by
  rw [cutRecord_eq hm hblind hnewline onlyDelimited ended outDelim ranges]
  by_cases hone : (recordFields m record).length = 1
  · have hagain : again ranges outDelim (recordFields m record) = [] :=
      if_neg (hone ▸ not_againAt hasc (Nat.le_refl _))
    refine ⟨[], expectedRecord m ranges onlyDelimited newline outDelim record, rfl, ?_⟩
    rw [if_pos hone, hagain, ite_self, List.nil_append, List.nil_append]
  · have hat := at_start hm hblind ended record
    refine ⟨outDelim.intercalate (selectedFrom 1 ranges (recordFields m record)), [newline], if_neg hone, ?_⟩
    have hrun := @explicitRanges_at _ _ newline outDelim _ ended (endsWith_tailOf hnewline hne) ranges 0 hasc hhigh
      ⟨1, 0, delims m (record ++ tailOf ended newline), false⟩ rfl hat []
    rw [← recordFields_eq, chosen_eq_selected hasc, prints_false, Nat.zero_add, ← length_recordFields] at hrun
    rw [if_neg hone, hrun, again, getLastD_recordFields]
    cases ended <;> simp

/-- A record with its own delimiters. -/
theorem implicitRecord_eq (record : Bytes) (ended : Bool) (hnewline : newline ∉ record) (hne : ended = false → record ≠ [])
    (onlyDelimited : Bool) {delim : Bytes} (hdelim : ∀ p ∈ (Cuts.of m record).pairs, p.2 = delim) :
    cutRecord (record ++ tailOf ended newline) newline m onlyDelimited (fun st =>
        implicitRanges (record ++ tailOf ended newline) newline ranges st []) =
      some (expectedRecord m ranges onlyDelimited newline delim record) := by
  rw [cutRecord_eq hm hblind hnewline onlyDelimited ended delim ranges]
  by_cases hone : (recordFields m record).length = 1
  · rw [if_pos hone]
  · have hat := at_start hm hblind ended record
    have hrun := @implicitRanges_at _ _ newline _ delim ended (endsWith_tailOf hnewline hne) ranges 0 hasc hhigh
      ⟨1, 0, delims m (record ++ tailOf ended newline), false⟩ rfl hdelim hat []
    rw [← recordFields_eq, chosen_eq_selected hasc, prints_false] at hrun
    rw [if_neg hone, hrun, expectedRecord, if_neg hone]
    rfl

end Record

/-! ## Inputs -/

/-- Delimiters of an exact search are the needle. -/
theorem exactMatch_eq {needle : Bytes} {pos : Nat} {c : Bytes} {first last : Nat}
    (h : exactMatch needle pos c = some (first, last)) : (c.take (last - pos)).drop (first - pos) = needle := by
  induction c generalizing pos with
  | nil => cases h
  | cons b bs ih =>
    rw [exactMatch] at h
    split at h
    · rename_i hmatch
      obtain ⟨hhead, htail⟩ := hmatch
      cases h
      cases needle with
      | nil => cases hhead
      | cons n ns =>
        simp only [List.head?_cons, Option.some.injEq] at hhead
        have htake : bs.take ns.length = ns := by
          rcases htail with hone | hstarts
          · rw [List.length_cons] at hone
            rw [List.eq_nil_of_length_eq_zero (by omega : ns.length = 0)]
            rfl
          · exact (List.prefix_iff_eq_take.1 (List.isPrefixOf_iff_prefix.1 hstarts)).symm
        rw [Nat.add_sub_cancel_left, Nat.sub_self, List.drop_zero, List.length_cons, List.take_succ_cons, htake, hhead]
    · have hbounds := exactMatch_bounds h
      have hfirst : first - pos = first - (pos + 1) + 1 := by omega
      have hlast : last - pos = last - (pos + 1) + 1 := by omega
      rw [hfirst, hlast, List.take_succ_cons, List.drop_succ_cons]
      exact ih h

theorem pairs_delim (needle record : Bytes) : ∀ p ∈ (Cuts.of (exactMatcher needle) record).pairs, p.2 = needle := by
  have hm : Cuts.Sound (exactMatcher needle) := Delimiter.sound (.slice needle)
  induction record using Cuts.match_induction hm with
  | hnone c hmatch =>
    rw [Cuts.of_none hmatch]
    simp
  | hsome c first last hmatch ih =>
    rw [Cuts.of_some hm hmatch]
    exact List.forall_mem_cons.2 ⟨exactMatch_eq hmatch, ih⟩

theorem pieces_tails (newline : UInt8) (input : Bytes) : ∃ whole : List Bytes,
    Lines.lines newline input = whole ++ (openLine newline input).toList ∧
    Lines.pieces newline input = whole.map (· ++ tailOf true newline) ++
      (openLine newline input).toList.map (· ++ tailOf false newline) := by
  obtain ⟨whole, hlines, hpieces⟩ := @Lines.pieces_eq_lines _ _ newline input
  exact ⟨whole, hlines, by simpa [tailOf] using hpieces⟩

theorem mapM_eq_some {f : Bytes → Option Bytes} {g : Bytes → Bytes} {records : List Bytes}
    (h : ∀ record ∈ records, f record = some (g record)) : records.mapM f = some (records.map g) := by
  induction records with
  | nil => rfl
  | cons record records ih =>
    obtain ⟨hrecord, hrecords⟩ := List.forall_mem_cons.1 h
    rw [List.mapM_cons, hrecord, ih hrecords]
    rfl

/-- A routine that writes its records one by one, and something more for the open one. -/
theorem records_eq {f : Bytes → Option Bytes} {g more : Bytes → Bytes} {newline : UInt8} {input : Bytes}
    (hended : ∀ record, newline ∉ record → f (record ++ tailOf true newline) = some (g record))
    (hopen : ∀ record, newline ∉ record → record ≠ [] →
      ∃ front back, g record = front ++ back ∧ f (record ++ tailOf false newline) = some (front ++ more record ++ back)) :
    ∃ front back, (Lines.lines newline input).flatMap g = front ++ back ∧
      ((Lines.pieces newline input).mapM f >>= fun records => pure records.flatten) =
        some (front ++ ((openLine newline input).map more).getD [] ++ back) := by
  obtain ⟨whole, hlines, hpieces⟩ := pieces_tails newline input
  have hnewline : ∀ record ∈ Lines.lines newline input, newline ∉ record := fun record => Lines.not_mem_of_mem_lines
  rw [hlines] at hnewline
  have hwhole : whole.mapM (f ∘ (· ++ tailOf true newline)) = some (whole.map g) :=
    mapM_eq_some fun record hrecord => hended record (hnewline record (List.mem_append_left _ hrecord))
  rw [hpieces, List.mapM_append, List.mapM_map, List.mapM_map, hlines, hwhole]
  cases hline : openLine newline input with
  | none => exact ⟨whole.flatMap g, [], by simp, by simp [List.flatMap]⟩
  | some record =>
    have hrecord : newline ∉ record := hnewline record (List.mem_append_right _ (by rw [hline]; exact List.mem_cons_self))
    obtain ⟨front, back, hg, hf⟩ := hopen record hrecord (Lines.ne_nil_of_openLine hline)
    exact ⟨whole.flatMap g ++ front, back, by simp [hg], by simp [hf, List.flatMap]⟩

/-- What is written twice at the end of an input. -/
def repeated (m : Matcher UInt8) (ranges : List Range) (newline : UInt8) (outDelim input : Bytes) : Bytes :=
  ((openLine newline input).map fun record => again ranges outDelim (recordFields m record)).getD []

section Input

variable {delimiter : Delimiter} {ranges : List Range} {newline : UInt8}

theorem explicit_eq (hdelimiter : delimiter.Valid newline) (hranges : Produced ranges) (onlyDelimited : Bool)
    (outDelim input : Bytes) :
    ∃ front back, expected delimiter.matcher ranges onlyDelimited newline outDelim input = front ++ back ∧
      cutFieldsExplicitOutDelim delimiter.matcher ranges onlyDelimited newline outDelim input =
        some (front ++ repeated delimiter.matcher ranges newline outDelim input ++ back) := by
  obtain ⟨hasc, hhigh⟩ := hranges.ascending
  have hrecord := explicitRecord_eq delimiter.sound (Delimiter.blind hdelimiter) hasc hhigh
  refine records_eq (fun record hnewline => ?_) fun record hnewline hne => ?_
  · obtain ⟨front, back, hexpected, hrun⟩ := hrecord record true hnewline nofun onlyDelimited outDelim
    rw [hrun, hexpected, if_pos rfl, List.append_nil]
  · exact hrecord record false hnewline (fun _ => hne) onlyDelimited outDelim

theorem implicit_eq {needle : Bytes} (hdelimiter : (Delimiter.slice needle).Valid newline) (hranges : Produced ranges)
    (onlyDelimited : Bool) (input : Bytes) :
    cutFieldsImplicitOutDelim (exactMatcher needle) ranges onlyDelimited newline input =
      some (expected (exactMatcher needle) ranges onlyDelimited newline needle input) := by
  obtain ⟨hasc, hhigh⟩ := hranges.ascending
  have hrecord := implicitRecord_eq (Delimiter.sound (.slice needle)) (Delimiter.blind hdelimiter) hasc hhigh
  obtain ⟨front, back, hexpected, hrun⟩ := @records_eq
    (fun line => cutRecord line newline (exactMatcher needle) onlyDelimited fun st => implicitRanges line newline ranges st [])
    (expectedRecord (exactMatcher needle) ranges onlyDelimited newline needle) (fun _ => []) newline input
    (fun record hnewline => hrecord record true hnewline nofun onlyDelimited (pairs_delim needle record))
    (fun record hnewline hne => ⟨_, [], (List.append_nil _).symm, by
      rw [List.append_nil, List.append_nil]
      exact hrecord record false hnewline (fun _ => hne) onlyDelimited (pairs_delim needle record)⟩)
  have hnone : ((openLine newline input).map fun _ => ([] : Bytes)).getD [] = [] := by
    cases openLine newline input <;> rfl
  rw [hnone, List.append_nil, ← hexpected] at hrun
  exact hrun

/-- What field mode is to write: the chosen fields of every record, with either routine. -/
structure Writes (delimiter : Delimiter) (ranges : List Range) (onlyDelimited : Bool) (newline : UInt8)
    (outDelim input : Bytes) : Prop where
  explicit : cutFieldsExplicitOutDelim delimiter.matcher ranges onlyDelimited newline outDelim input =
    some (expected delimiter.matcher ranges onlyDelimited newline outDelim input)
  implicit : ∀ needle, delimiter = .slice needle →
    cutFieldsImplicitOutDelim delimiter.matcher ranges onlyDelimited newline input =
      some (expected delimiter.matcher ranges onlyDelimited newline needle input)
  same : ∀ needle, delimiter = .slice needle →
    cutFieldsImplicitOutDelim delimiter.matcher ranges onlyDelimited newline input =
      cutFieldsExplicitOutDelim delimiter.matcher ranges onlyDelimited newline needle input

/-- The last field of the open record is in a range that has other fields of the record in it, and the next range starts
right behind. -/
def Repeats (delimiter : Delimiter) (ranges : List Range) (newline : UInt8) (outDelim input : Bytes) : Prop :=
  ∃ record, openLine newline input = some record ∧
    AgainAt (recordFields delimiter.matcher record).length ranges ∧
    (delimiter = .whitespace → outDelim ++ (recordFields delimiter.matcher record).getLastD [] ≠ [])

theorem repeated_eq_nil (m : Matcher UInt8) (ranges : List Range) (newline : UInt8) (outDelim input : Bytes) :
    repeated m ranges newline outDelim input = [] ↔ ∀ record, openLine newline input = some record →
      AgainAt (recordFields m record).length ranges → outDelim ++ (recordFields m record).getLastD [] = [] := by
  rw [repeated]
  cases openLine newline input with
  | none => simp
  | some record =>
    simp only [Option.map_some, Option.getD_some, again, Option.some.injEq, forall_eq']
    split
    · rename_i hagain
      exact ⟨fun h _ => h, fun h => h hagain⟩
    · rename_i hagain
      exact ⟨fun _ h => absurd h hagain, fun _ => rfl⟩

theorem append_middle {front middle back : Bytes} : front ++ middle ++ back = front ++ back ↔ middle = [] := by
  rw [List.append_assoc, List.append_cancel_left_eq]
  simp

/-- **Field mode writes the chosen fields, and with either routine the same**, exactly if the last field of an open record is
not repeated. -/
theorem writes_iff (delimiter : Delimiter) (ranges : List Range) (onlyDelimited : Bool) (newline : UInt8)
    (outDelim input : Bytes) (hdelimiter : delimiter.Valid newline) (hranges : Produced ranges) :
    Writes delimiter ranges onlyDelimited newline outDelim input ↔ ¬ Repeats delimiter ranges newline outDelim input := by
  obtain ⟨front, back, hexpected, hrun⟩ := explicit_eq hdelimiter hranges onlyDelimited outDelim input
  have hexplicit : cutFieldsExplicitOutDelim delimiter.matcher ranges onlyDelimited newline outDelim input =
      some (expected delimiter.matcher ranges onlyDelimited newline outDelim input) ↔
      repeated delimiter.matcher ranges newline outDelim input = [] := by
    rw [hrun, hexpected, Option.some.injEq, append_middle]
  cases delimiter with
  | whitespace =>
    have hrepeats : ¬ Repeats .whitespace ranges newline outDelim input ↔
        repeated (Delimiter.matcher .whitespace) ranges newline outDelim input = [] := by
      rw [repeated_eq_nil]
      simp [Repeats]
    rw [hrepeats, ← hexplicit]
    exact ⟨fun h => h.explicit, fun h => ⟨h, nofun, nofun⟩⟩
  | slice needle =>
    obtain ⟨front', back', hexpected', hrun'⟩ := explicit_eq hdelimiter hranges onlyDelimited needle input
    have himplicit := implicit_eq hdelimiter hranges onlyDelimited input
    have hsame : cutFieldsImplicitOutDelim (exactMatcher needle) ranges onlyDelimited newline input =
        cutFieldsExplicitOutDelim (exactMatcher needle) ranges onlyDelimited newline needle input ↔
        repeated (exactMatcher needle) ranges newline needle input = [] := by
      rw [himplicit, show cutFieldsExplicitOutDelim (exactMatcher needle) _ _ _ _ _ = _ from hrun',
        show expected (exactMatcher needle) _ _ _ _ _ = _ from hexpected', Option.some.injEq, eq_comm, append_middle]
      rfl
    have hrepeats : ¬ Repeats (.slice needle) ranges newline outDelim input ↔
        ∀ record, openLine newline input = some record → ¬ AgainAt (recordFields (exactMatcher needle) record).length ranges := by
      simp [Repeats, Delimiter.matcher]
    rw [hrepeats]
    constructor
    · intro h record hopen hagain
      have hnil := (repeated_eq_nil _ _ _ _ _).1 (hsame.1 (h.same needle rfl)) record hopen hagain
      exact hdelimiter.1 (List.append_eq_nil_iff.1 hnil).1
    · intro h
      have hnil : ∀ outDelim, repeated (exactMatcher needle) ranges newline outDelim input = [] := fun outDelim =>
        (repeated_eq_nil _ _ _ _ _).2 fun record hopen hagain => absurd hagain (h record hopen)
      refine ⟨hexplicit.2 (hnil outDelim), ?_, ?_⟩
      · rintro _ ⟨⟩
        exact himplicit
      · rintro _ ⟨⟩
        exact hsame.2 (hnil needle)

/-- The fields `1-2` of `a:b`, with a comma. -/
theorem writes_iff_two : Writes (.slice [58]) [⟨1, 2⟩] false 10 [44] [97, 58, 98] := by
  have hread : (Ranges.items [49, 45, 50]).mapM Ranges.fromItem = .ok [⟨1, 2⟩] := by rfl
  have hlist : Ranges.fromList [49, 45, 50] = .ok [⟨1, 2⟩] := by
    rw [Ranges.fromList, hread]
    exact congrArg Except.ok (Ranges.merge_eq _)
  have hdelimiter : (Delimiter.slice [58]).Valid 10 := ⟨by decide, by decide⟩
  refine (writes_iff (.slice [58]) [⟨1, 2⟩] false 10 [44] [97, 58, 98] hdelimiter ⟨_, _, hlist, Or.inl rfl⟩).2 ?_
  rintro ⟨record, -, hagain, -⟩
  exact hagain

/-- The fields `1-2,3` of `a:b` without a newline: `a:b:b` is written. -/
theorem field_written_twice : Produced [⟨1, 2⟩, ⟨3, 3⟩] ∧ (Delimiter.slice [58]).Valid 10 ∧
    cutFieldsExplicitOutDelim (exactMatcher [58]) [⟨1, 2⟩, ⟨3, 3⟩] false 10 [58] [97, 58, 98] =
      some [97, 58, 98, 58, 98, 10] ∧
    ¬ Writes (.slice [58]) [⟨1, 2⟩, ⟨3, 3⟩] false 10 [58] [97, 58, 98] := by
  have hrun : cutFieldsExplicitOutDelim (exactMatcher [58]) [⟨1, 2⟩, ⟨3, 3⟩] false 10 [58] [97, 58, 98] =
      some [97, 58, 98, 58, 98, 10] := by decide +kernel
  have hlist : Ranges.fromList [49, 45, 50, 44, 51] = .ok [⟨1, 2⟩, ⟨3, 3⟩] := by
    have hread : (Ranges.items [49, 45, 50, 44, 51]).mapM Ranges.fromItem = .ok [⟨1, 2⟩, ⟨3, 3⟩] := by rfl
    have hmerge : Ranges.merge [⟨1, 2⟩, ⟨3, 3⟩] = [⟨1, 2⟩, ⟨3, 3⟩] := by
      rw [Ranges.merge_eq]
      decide +kernel
    rw [Ranges.fromList, hread]
    exact congrArg Except.ok hmerge
  refine ⟨⟨_, _, hlist, Or.inl rfl⟩, ⟨by decide, by decide⟩, hrun, fun h => ?_⟩
  have hexpected : expected (exactMatcher [58]) [⟨1, 2⟩, ⟨3, 3⟩] false 10 [58] [97, 58, 98] = [97, 58, 98, 10] := by
    decide +kernel
  have hexplicit := hrun.symm.trans (h.explicit.trans (congrArg some hexpected))
  exact absurd hexplicit (by decide)

end Input

end Peiosutils.Cut
