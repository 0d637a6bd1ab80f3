import Peiosutils.Dd.Copy
import Peiosutils.Dd.Written

/-!
# Copies with a conversion (`read_helper`, `dd_copy`)

A conversion is applied to each buffer on its own. Where the turns leave no gap, blocking and unblocking give a text back
exactly when each turn of the first copy ends with a line, and each turn of the second with a record (`restored_iff`).
-/

set_option autoImplicit false

namespace Peiosutils.Dd

open Chop Lines

variable {s : Settings}

/-! ## The copy -/

/-- `read_helper` with a conversion. -/
def readConverted (s : Settings) (mode : Option ConversionMode) (src : Source) (buf : List UInt8) (bsize : Nat) :
    List UInt8 × ReadStat × Source :=
  let (buf, rstat, src) := readHelper s src buf bsize
  if rstat.isEmpty then (buf, rstat, src)
  else
    match mode with
    | some mode => ((convBlockUnblockHelper buf mode rstat.readsPartial).1, rstat, src)
    | none => (buf, rstat, src)

/-- The main loop; none when the turns do not suffice. -/
def convertFrom (s : Settings) (mode : Option ConversionMode) (bsize : Nat) :
    Nat → Source → List UInt8 → BlockWriter → ReadStat → WriteStat → Option (BlockWriter × ReadStat × WriteStat)
  | 0, _, _, _, _, _ => none
  | turns + 1, src, buf, o, rstat, wstat =>
    let (buf, rstatUpdate, src) := readConverted s mode src buf bsize
    if rstatUpdate.isEmpty then some (o, rstat, wstat)
    else
      let (wstatUpdate, o) := o.writeBlocks s buf
      convertFrom s mode bsize turns src buf o (rstat.add rstatUpdate) (wstat.add wstatUpdate)

/-- `dd_copy` with a conversion; none when there is no memory for the buffers. -/
def ddConvert (maxAlloc : Nat) (s : Settings) (mode : Option ConversionMode) (src : Source) :
    Option (BlockWriter × ReadStat × WriteStat) :=
  let bsize := calcBsize s.ibs s.obs
  if s.buffered ∧ maxAlloc < s.obs then none
  else if maxAlloc < bsize then none
  else
    let o := if s.buffered then .buffered ⟨⟨[]⟩, []⟩ else .unbuffered ⟨[]⟩
    (convertFrom s mode bsize (src.rest.length + 1) src [] o ⟨0, 0, 0⟩ ⟨0, 0, 0⟩).map fun (o, rstat, wstat) =>
      let (wstatUpdate, o) := o.flush s
      (o, rstat, wstat.add wstatUpdate)

/-- The bytes that the destination is given. -/
def converted (maxAlloc : Nat) (s : Settings) (mode : ConversionMode) (src : Source) : List UInt8 :=
  match ddConvert maxAlloc s (some mode) src with
  | some (o, _) => o.writes.flatten
  | none => []

/-- Without a conversion it is the plain copy. -/
theorem convertFrom_none (bsize turns : Nat) : ∀ (src : Source) (buf : List UInt8) (o : BlockWriter) (rstat : ReadStat)
    (wstat : WriteStat), convertFrom s none bsize turns src buf o rstat wstat = copyFrom s bsize turns src buf o rstat wstat := by
  induction turns with
  | zero => exact fun _ _ _ _ _ => rfl
  | succ turns ih =>
    intro src buf o rstat wstat
    rw [convertFrom, copyFrom, readConverted]
    generalize readHelper s src buf bsize = r
    obtain ⟨buf', stat, src'⟩ := r
    simp only
    split
    · simp only
    · exact ih _ _ _ _ _

theorem ddConvert_none (maxAlloc : Nat) (s : Settings) (src : Source) :
    ddConvert maxAlloc s none src = ddCopy maxAlloc s src := by
  unfold ddConvert ddCopy
  simp only [convertFrom_none]

/-! ## The buffers -/

/-- A mode that does to each buffer the same, whatever was read before. -/
def Uniform (mode : ConversionMode) (conv : List UInt8 → List UInt8) : Prop :=
  ∀ buf readsPartial, (convBlockUnblockHelper buf mode readsPartial).1 = conv buf

/-- The buffers of all turns, before they are converted. -/
def runBuffers (s : Settings) (conv : List UInt8 → List UInt8) (bsize : Nat) : Nat → Source → List UInt8 → List (List UInt8)
  | 0, _, _ => []
  | turns + 1, src, buf =>
    if (turnReads s bsize src).1.isEmpty then []
    else
      let buf := turnBytes s bsize src buf
      buf :: runBuffers s conv bsize turns (turnReads s bsize src).2 (conv buf)

/-- What is read in each turn. -/
def runTurns (s : Settings) (bsize : Nat) : Nat → Source → List (List UInt8)
  | 0, _ => []
  | turns + 1, src =>
    let (gots, src) := turnReads s bsize src
    if gots.isEmpty then [] else gots.flatten :: runTurns s bsize turns src

/-- No turn leaves a gap. -/
def NoGaps (s : Settings) (conv : List UInt8 → List UInt8) (bsize : Nat) : Nat → Source → List UInt8 → Prop
  | 0, _, _ => True
  | turns + 1, src, buf =>
    (turnReads s bsize src).1 = [] ∨
      Gapless (chunksOf s bsize buf) (turnReads s bsize src).1 ∧
        NoGaps s conv bsize turns (turnReads s bsize src).2 (conv (turnBytes s bsize src buf))

/-- The turns write their converted buffers and come to an end. -/
theorem convertFrom_bytes {mode : ConversionMode} {conv : List UInt8 → List UInt8} (hmode : Uniform mode conv)
    (bsize turns : Nat) : ∀ (src : Source) (buf : List UInt8) (o : BlockWriter) (rstat : ReadStat) (wstat : WriteStat),
    src.rest.length < turns → ∃ o' rstat' wstat',
      convertFrom s (some mode) bsize turns src buf o rstat wstat = some (o', rstat', wstat') ∧
        o'.bytes = o.bytes ++ (runBuffers s conv bsize turns src buf).flatMap conv := by
  induction turns with
  | zero => omega
  | succ turns ih =>
    intro src buf o rstat wstat hlt
    obtain ⟨stat, heq, hcounts⟩ := @readHelper_eq s src buf bsize
    rw [convertFrom, readConverted, heq, runBuffers]
    simp only
    rw [hcounts.isEmpty]
    by_cases hgots : (turnReads s bsize src).1 = []
    · have hempty := List.isEmpty_iff.2 hgots
      rw [if_pos hempty, if_pos hempty]
      simp only [hcounts.isEmpty, hempty, if_true]
      exact ⟨o, rstat, wstat, rfl, (List.append_nil _).symm⟩
    · have hempty : (turnReads s bsize src).1.isEmpty = false := by
        rw [List.isEmpty_eq_false_iff]
        exact hgots
      have := @rest_lt s bsize src hgots
      simp only [hempty, Bool.false_eq_true, if_false, hmode _ _, hcounts.isEmpty]
      obtain ⟨o', rstat', wstat', hrun, hbytes⟩ := ih (turnReads s bsize src).2 (conv (turnBytes s bsize src buf))
        (o.writeBlocks s (conv (turnBytes s bsize src buf))).2 (rstat.add stat)
        (wstat.add (o.writeBlocks s (conv (turnBytes s bsize src buf))).1) (by omega)
      refine ⟨o', rstat', wstat', hrun, ?_⟩
      rw [hbytes, BlockWriter.writeBlocks_bytes, List.flatMap_cons, List.append_assoc]

/-- Without gaps the buffers hold what is read. -/
theorem runBuffers_eq (hsync : s.sync = none) {conv : List UInt8 → List UInt8} (bsize turns : Nat) :
    ∀ (src : Source) (buf : List UInt8), NoGaps s conv bsize turns src buf →
      runBuffers s conv bsize turns src buf = runTurns s bsize turns src := by
  induction turns with
  | zero => exact fun _ _ _ => rfl
  | succ turns ih =>
    intro src buf hgaps
    rw [runBuffers, runTurns]
    simp only
    by_cases hgots : (turnReads s bsize src).1 = []
    · rw [if_pos (List.isEmpty_iff.2 hgots), if_pos (List.isEmpty_iff.2 hgots)]
    · rw [if_neg (mt List.isEmpty_iff.1 hgots), if_neg (mt List.isEmpty_iff.1 hgots)]
      obtain ⟨hgapless, hrest⟩ := hgaps.resolve_left hgots
      obtain ⟨-, hfit, -⟩ := @turnReads_spec s bsize src
      rw [← length_chunksOf bsize buf] at hfit
      have hbytes : turnBytes s bsize src buf = (turnReads s bsize src).1.flatten := by
        unfold turnBytes
        rw [hsync]
        exact (take_store _ _ hfit).2 hgapless
      rw [ih _ _ hrest, hbytes]

/-- The turns read the whole input. -/
theorem flatten_runTurns {bsize : Nat} (hsize : 0 < bsize) (turns : Nat) : ∀ src : Source, src.rest.length < turns →
    (runTurns s bsize turns src).flatten = src.rest := by
  induction turns with
  | zero => omega
  | succ turns ih =>
    intro src hlt
    rw [runTurns]
    simp only
    by_cases hgots : (turnReads s bsize src).1 = []
    · rw [if_pos (List.isEmpty_iff.2 hgots), rest_of_isEmpty hsize hgots]
      rfl
    · rw [if_neg (mt List.isEmpty_iff.1 hgots)]
      have := @rest_lt s bsize src hgots
      obtain ⟨hrest, -, -⟩ := @turnReads_spec s bsize src
      rw [List.flatten_cons, ih _ (by omega), ← hrest]

/-! ## The bytes of a copy -/

/-- What is read in each turn of the copy. -/
def allTurns (s : Settings) (src : Source) : List (List UInt8) :=
  runTurns s (calcBsize s.ibs s.obs) (src.rest.length + 1) src

/-- No turn of the copy leaves a gap. -/
def Solid (s : Settings) (conv : List UInt8 → List UInt8) (src : Source) : Prop :=
  NoGaps s conv (calcBsize s.ibs s.obs) (src.rest.length + 1) src []

theorem flatten_allTurns (s : Settings) (src : Source) : (allTurns s src).flatten = src.rest :=
  flatten_runTurns (calcBsize_pos s) _ src (Nat.lt_succ_self _)

theorem converted_eq (maxAlloc : Nat) {mode : ConversionMode} {conv : List UInt8 → List UInt8} (hmode : Uniform mode conv)
    (hsync : s.sync = none) {src : Source} (hsolid : Solid s conv src) :
    (Allocates maxAlloc s → converted maxAlloc s mode src = (allTurns s src).flatMap conv) ∧
      (¬ Allocates maxAlloc s → converted maxAlloc s mode src = []) := by
  unfold converted ddConvert Allocates
  simp only
  by_cases hobs : s.buffered ∧ maxAlloc < s.obs
  · rw [if_pos hobs]
    exact ⟨fun h => absurd (h.1 hobs.1) (Nat.not_le_of_lt hobs.2), fun _ => rfl⟩
  · rw [if_neg hobs]
    by_cases hbsize : maxAlloc < calcBsize s.ibs s.obs
    · rw [if_pos hbsize]
      exact ⟨fun h => absurd h.2 (Nat.not_le_of_lt hbsize), fun _ => rfl⟩
    · rw [if_neg hbsize]
      refine ⟨fun _ => ?_, fun h => absurd ⟨fun hb => ?_, Nat.le_of_not_lt hbsize⟩ h⟩
      · generalize ho : (if s.buffered then BlockWriter.buffered ⟨⟨[]⟩, []⟩ else .unbuffered ⟨[]⟩) = o
        have hnil : o.bytes = [] := by
          rw [← ho]
          split <;> rfl
        obtain ⟨o', rstat, wstat, hrun, hbytes⟩ := convertFrom_bytes hmode (calcBsize s.ibs s.obs) (src.rest.length + 1) src
          [] o ⟨0, 0, 0⟩ ⟨0, 0, 0⟩ (Nat.lt_succ_self _)
        rw [hrun]
        simp only [Option.map_some]
        rw [BlockWriter.flush_writes, hbytes, hnil, List.nil_append, runBuffers_eq hsync _ _ _ _ hsolid]
        rfl
      · exact Nat.le_of_not_lt fun h => hobs ⟨hb, h⟩

/-! ## Blocking and unblocking -/

theorem uniform_block (cbs : Cbs) : Uniform (.blockOnly cbs false) fun buf => (block buf cbs false 0).1.flatten := by
  intro buf readsPartial
  show (block buf cbs false readsPartial).1.flatten = (block buf cbs false 0).1.flatten
  rw [block_eq, block_eq]

theorem uniform_unblock (cbs : Cbs) : Uniform (.unblockOnly cbs) fun buf => unblock buf cbs := fun _ _ => rfl

/-- A text whose lines fit their records and are not trimmed. -/
structure Blockable (cbs : Nat) (text : List UInt8) : Prop where
  terminated : Terminated newline text
  ne_nil : ∀ line ∈ lines newline text, line ≠ []
  fits : ∀ line ∈ lines newline text, line.length ≤ cbs
  clean : ∀ line ∈ lines newline text, line.getLast? ≠ some space

/-- One record for each line. -/
def recordsOf (cbs : Nat) (text : List UInt8) : List (List UInt8) := (lines newline text).map (record cbs)

section Text

variable {cbs : Nat} {text : List UInt8}

theorem length_of_mem_block {buf r : List UInt8} {readsPartial : Nat} (h : r ∈ (block buf cbs false readsPartial).1) :
    r.length = cbs := by
  rw [block_eq] at h
  have hmem : r ∈ (buf.splitOn newline).map (record cbs) := by
    simp only at h
    split at h
    · exact List.dropLast_subset _ h
    · exact h
  obtain ⟨split, -, rfl⟩ := List.mem_map.1 hmem
  exact length_record cbs split

theorem length_of_mem_recordsOf {r : List UInt8} (h : r ∈ recordsOf cbs text) : r.length = cbs := by
  obtain ⟨line, -, rfl⟩ := List.mem_map.1 h
  exact length_record cbs line

theorem newline_notMem_recordsOf : newline ∉ (recordsOf cbs text).flatten := by
  intro h
  obtain ⟨r, hr, hmem⟩ := List.mem_flatten.1 h
  obtain ⟨line, hline, rfl⟩ := List.mem_map.1 hr
  rw [record, resize] at hmem
  rcases List.mem_append.1 hmem with hmem | hmem
  · exact not_mem_of_mem_lines hline (List.mem_of_mem_take hmem)
  · exact absurd (List.eq_of_mem_replicate hmem) (by decide)

theorem Blockable.length_recordsOf (h : Blockable cbs text) : (recordsOf cbs text).length = text.count newline := by
  rw [recordsOf, List.length_map, length_lines, if_pos h.terminated, Nat.add_zero]

theorem Blockable.content_recordsOf (h : Blockable cbs text) : content (recordsOf cbs text) + text.count newline = text.length := by
  rw [← @sum_length_lines _ _ newline text, content, recordsOf, List.map_map]
  congr 2
  exact List.map_congr_left fun line hline =>
    congrArg List.length (trimmed_record (h.fits line hline) (h.clean line hline))

/-- The records give the text back. -/
theorem Blockable.unblock_recordsOf (h : Blockable cbs text) (hcbs : 0 < cbs) :
    unblock (recordsOf cbs text).flatten cbs = text := by
  rw [unblock_flatten hcbs fun r hr => length_of_mem_recordsOf hr, recordsOf, List.flatMap_map]
  have hlines : (lines newline text).flatMap (fun line => trimmed (record cbs line) ++ [newline]) =
      (lines newline text).flatMap (· ++ [newline]) :=
    List.flatMap_congr fun line hline => by rw [trimmed_record (h.fits line hline) (h.clean line hline)]
  rw [hlines, flatMap_lines h.terminated]

/-- Buffers that end with lines give the records of all lines. -/
theorem flatMap_block_of_terminated {turns : List (List UInt8)} (h : ∀ t ∈ turns, Terminated newline t) :
    turns.flatMap (fun t => (block t cbs false 0).1) = recordsOf cbs turns.flatten := by
  induction turns with
  | nil => rfl
  | cons t turns ih =>
    have ht := h t List.mem_cons_self
    rw [List.flatMap_cons, ih fun u hu => h u (List.mem_cons_of_mem t hu), block_of_terminated ht, List.flatten_cons,
      recordsOf, recordsOf, lines_append ht, List.map_append]

/-- No fewer records than newlines, and no more content than the lines have; where both are exact the buffers end with
lines. -/
theorem flatMap_block_exact (turns : List (List UInt8)) :
    let records := turns.flatMap fun t => (block t cbs false 0).1
    turns.flatten.count newline ≤ records.length ∧
      content records + turns.flatten.count newline ≤ turns.flatten.length ∧
      (records.length = turns.flatten.count newline →
        content records + turns.flatten.count newline = turns.flatten.length → ∀ t ∈ turns, Terminated newline t) := by
  induction turns with
  | nil => exact ⟨Nat.le_refl 0, Nat.le_refl 0, fun _ _ t ht => by cases ht⟩
  | cons t turns ih =>
    obtain ⟨hcount, hcontent, hexact⟩ := block_exact t cbs 0
    obtain ⟨hcounts, hcontents, hexacts⟩ := ih
    simp only [List.flatMap_cons, List.flatten_cons, List.count_append, List.length_append, content_append]
    refine ⟨by omega, by omega, fun hlength hall u hu => ?_⟩
    rcases List.mem_cons.1 hu with rfl | hu
    · exact hexact (by omega) (by omega)
    · exact hexacts (by omega) (by omega) u hu

/-- **Which cuts of a text are blocked line by line.** -/
theorem Blockable.block_iff (h : Blockable cbs text) (hcbs : 0 < cbs) {turns : List (List UInt8)}
    (hturns : turns.flatten = text) :
    turns.flatMap (fun t => (block t cbs false 0).1.flatten) = (recordsOf cbs text).flatten ↔
      ∀ t ∈ turns, Terminated newline t := by
  have hflat : turns.flatMap (fun t => (block t cbs false 0).1.flatten) =
      (turns.flatMap fun t => (block t cbs false 0).1).flatten := by
    rw [List.flatMap_def, List.flatMap_def, List.flatten_flatten, List.map_map]
    rfl
  rw [hflat]
  constructor
  · intro heq
    have hlength : ∀ r ∈ turns.flatMap fun t => (block t cbs false 0).1, r.length = cbs := by
      intro r hr
      obtain ⟨t, -, hr⟩ := List.mem_flatMap.1 hr
      exact length_of_mem_block hr
    have hrecords := congrArg (chop cbs) heq
    rw [chop_flatten hcbs hlength, chop_flatten hcbs fun r hr => length_of_mem_recordsOf hr] at hrecords
    obtain ⟨-, -, hexact⟩ := @flatMap_block_exact cbs turns
    rw [hrecords, hturns] at hexact
    exact hexact h.length_recordsOf h.content_recordsOf
  · intro hterm
    rw [flatMap_block_of_terminated hterm, hturns]

/-- As many pieces as records, where all buffers hold whole ones. -/
theorem sum_length_chop (hcbs : 0 < cbs) (turns : List (List UInt8)) :
    turns.flatten.length ≤ cbs * (turns.map fun t => (chop cbs t).length).sum ∧
      (cbs * (turns.map fun t => (chop cbs t).length).sum = turns.flatten.length → ∀ t ∈ turns, cbs ∣ t.length) := by
  induction turns with
  | nil => exact ⟨Nat.zero_le _, fun _ t ht => by cases ht⟩
  | cons t turns ih =>
    obtain ⟨hle, hwhole⟩ := length_chop hcbs t
    rw [List.map_cons, List.sum_cons, List.flatten_cons, List.length_append, Nat.mul_add]
    refine ⟨by omega, fun heq u hu => ?_⟩
    rcases List.mem_cons.1 hu with rfl | hu
    · exact hwhole.1 (by omega)
    · exact ih.2 (by omega) u hu

theorem count_flatMap_unblock (hcbs : 0 < cbs) {turns : List (List UInt8)} (h : newline ∉ turns.flatten) :
    (turns.flatMap fun t => unblock t cbs).count newline = (turns.map fun t => (chop cbs t).length).sum := by
  induction turns with
  | nil => rfl
  | cons t turns ih =>
    rw [List.flatten_cons, List.mem_append, not_or] at h
    rw [List.flatMap_cons, List.count_append, count_unblock h.1 hcbs, ih h.2, List.map_cons, List.sum_cons]

theorem flatMap_unblock_of_dvd (hcbs : 0 < cbs) {turns : List (List UInt8)} (h : ∀ t ∈ turns, cbs ∣ t.length) :
    turns.flatMap (fun t => unblock t cbs) = unblock turns.flatten cbs := by
  induction turns with
  | nil => rfl
  | cons t turns ih =>
    rw [List.flatMap_cons, List.flatten_cons, unblock_append hcbs (h t List.mem_cons_self),
      ih fun u hu => h u (List.mem_cons_of_mem t hu)]

/-- **Which cuts of its records give a text back.** -/
theorem Blockable.unblock_iff (h : Blockable cbs text) (hcbs : 0 < cbs) {turns : List (List UInt8)}
    (hturns : turns.flatten = (recordsOf cbs text).flatten) :
    turns.flatMap (fun t => unblock t cbs) = text ↔ ∀ t ∈ turns, cbs ∣ t.length := by
  constructor
  · intro heq
    have hcount := congrArg (List.count newline) heq
    rw [count_flatMap_unblock hcbs (by rw [hturns]; exact newline_notMem_recordsOf), ← h.length_recordsOf] at hcount
    refine (sum_length_chop hcbs turns).2 ?_
    have hlength := (length_chop hcbs (recordsOf cbs text).flatten).2.2 (dvd_length_flatten fun r hr => length_of_mem_recordsOf hr)
    rw [chop_flatten hcbs fun r hr => length_of_mem_recordsOf hr] at hlength
    rw [hcount, hturns, hlength]
  · intro hdvd
    rw [flatMap_unblock_of_dvd hcbs hdvd, hturns, h.unblock_recordsOf hcbs]

end Text

/-! ## Two copies -/

/-- A text is blocked, and what comes of it is unblocked. -/
structure TwoCopies (maxAlloc : Nat) (cbs : Cbs) (s₁ s₂ : Settings) (src₁ src₂ : Source) : Prop where
  plain₁ : s₁.sync = none
  plain₂ : s₂.sync = none
  text : Blockable cbs src₁.rest
  reads : src₂.rest = converted maxAlloc s₁ (.blockOnly cbs false) src₁

/-- Each line has its record, and the text is given back. -/
def Restored (maxAlloc : Nat) (cbs : Cbs) (s₁ s₂ : Settings) (src₁ src₂ : Source) : Prop :=
  converted maxAlloc s₁ (.blockOnly cbs false) src₁ = (recordsOf cbs src₁.rest).flatten ∧
    converted maxAlloc s₂ (.unblockOnly cbs) src₂ = src₁.rest

/-- Each turn of the first copy ends with a line, and each turn of the second with a record. -/
def Aligned (maxAlloc : Nat) (cbs : Cbs) (s₁ s₂ : Settings) (src₁ src₂ : Source) : Prop :=
  src₁.rest = [] ∨ Allocates maxAlloc s₁ ∧ Allocates maxAlloc s₂ ∧ (∀ t ∈ allTurns s₁ src₁, Terminated newline t) ∧
    ∀ t ∈ allTurns s₂ src₂, cbs.1 ∣ t.length

theorem allTurns_of_rest_nil {src : Source} (h : src.rest = []) : allTurns s src = [] := by
  have hgots : (turnReads s (calcBsize s.ibs s.obs) src).1 = [] := by
    obtain ⟨hrest, hfit, -⟩ := @turnReads_spec s (calcBsize s.ibs s.obs) src
    by_contra hne
    have := hfit.flatten_pos hne
    have := congrArg List.length hrest
    rw [h, List.length_append, List.length_nil] at this
    omega
  rw [allTurns, runTurns]
  simp only [hgots, List.isEmpty_nil, if_true]

/-- Nothing comes of nothing. -/
theorem converted_of_rest_nil (maxAlloc : Nat) {mode : ConversionMode} {conv : List UInt8 → List UInt8}
    (hmode : Uniform mode conv) (hsync : s.sync = none) {src : Source} (hsolid : Solid s conv src) (h : src.rest = []) :
    converted maxAlloc s mode src = [] := by
  obtain ⟨hmemory, hnone⟩ := converted_eq maxAlloc hmode hsync hsolid
  by_cases halloc : Allocates maxAlloc s
  · rw [hmemory halloc, allTurns_of_rest_nil h]
    rfl
  · exact hnone halloc

/-- **When blocking and unblocking give a text back**, for copies whose turns leave no gap. -/
theorem restored_iff (maxAlloc : Nat) (cbs : Cbs) (s₁ s₂ : Settings) (src₁ src₂ : Source)
    (h : TwoCopies maxAlloc cbs s₁ s₂ src₁ src₂)
    (hsolid₁ : Solid s₁ (fun buf => (block buf cbs false 0).1.flatten) src₁)
    (hsolid₂ : Solid s₂ (fun buf => unblock buf cbs) src₂) :
    Restored maxAlloc cbs s₁ s₂ src₁ src₂ ↔ Aligned maxAlloc cbs s₁ s₂ src₁ src₂ := by
  obtain ⟨hmemory₁, hnone₁⟩ := converted_eq maxAlloc (uniform_block cbs) h.plain₁ hsolid₁
  obtain ⟨hmemory₂, hnone₂⟩ := converted_eq maxAlloc (uniform_unblock cbs) h.plain₂ hsolid₂
  have hblock := h.text.block_iff cbs.2 (flatten_allTurns s₁ src₁)
  unfold Restored Aligned
  by_cases hnil : src₁.rest = []
  · have hfirst := converted_of_rest_nil maxAlloc (uniform_block cbs) h.plain₁ hsolid₁ hnil
    have hsecond := converted_of_rest_nil maxAlloc (uniform_unblock cbs) h.plain₂ hsolid₂ (h.reads.trans hfirst)
    rw [hfirst, hsecond, hnil]
    exact iff_of_true ⟨rfl, rfl⟩ (Or.inl rfl)
  · have hlines : (recordsOf cbs src₁.rest).flatten ≠ [] := fun hflat => hnil (by
      rw [← h.text.unblock_recordsOf cbs.2, hflat]
      rfl)
    rw [or_iff_right hnil]
    constructor
    · rintro ⟨hfirst, hsecond⟩
      have halloc₁ : Allocates maxAlloc s₁ := by
        by_contra hno
        exact hlines (hfirst.symm.trans (hnone₁ hno))
      have halloc₂ : Allocates maxAlloc s₂ := by
        by_contra hno
        exact hnil (hsecond.symm.trans (hnone₂ hno))
      have hturns : (allTurns s₂ src₂).flatten = (recordsOf cbs src₁.rest).flatten := by
        rw [flatten_allTurns, h.reads, hfirst]
      refine ⟨halloc₁, halloc₂, hblock.1 ?_, (h.text.unblock_iff cbs.2 hturns).1 ?_⟩
      · rw [← hmemory₁ halloc₁, hfirst]
      · rw [← hmemory₂ halloc₂, hsecond]
    · rintro ⟨halloc₁, halloc₂, hterm, hdvd⟩
      have hfirst := (hmemory₁ halloc₁).trans (hblock.2 hterm)
      have hturns : (allTurns s₂ src₂).flatten = (recordsOf cbs src₁.rest).flatten := by
        rw [flatten_allTurns, h.reads, hfirst]
      exact ⟨hfirst, (hmemory₂ halloc₂).trans ((h.text.unblock_iff cbs.2 hturns).2 hdvd)⟩

/-- With full blocks no turn leaves a gap. -/
theorem solid_fullblock (hfull : s.fullblock = true) (conv : List UInt8 → List UInt8) (src : Source) : Solid s conv src := by
  have hall : ∀ turns bsize (src : Source) buf, NoGaps s conv bsize turns src buf := by
    intro turns bsize
    induction turns with
    | zero => exact fun _ _ => trivial
    | succ turns ih =>
      intro src buf
      refine Or.inr ⟨LastShort.gapless _ _ ?_, ih _ _⟩
      rw [turnReads, ← length_chunksOf _ buf]
      exact lastShort_fullblock hfull _ (fun _ h => (length_of_mem_chop s.ibs_pos h).1) src
  exact hall _ _ src []

/-- `ab` and a newline, in records of four bytes, in one turn each. -/
theorem restored_iff_turn :
    let s₁ : Settings := ⟨3, 3, false, true, none, by decide, by decide, by decide, by decide⟩
    let s₂ : Settings := ⟨4, 4, false, true, none, by decide, by decide, by decide, by decide⟩
    let src₁ : Source := ⟨[97, 98, 10], fun _ => 9, 0⟩
    let src₂ : Source := ⟨[97, 98, 32, 32], fun _ => 9, 0⟩
    Restored 100 ⟨4, by decide⟩ s₁ s₂ src₁ src₂ ↔ Aligned 100 ⟨4, by decide⟩ s₁ s₂ src₁ src₂ :=
  restored_iff 100 ⟨4, by decide⟩ _ _ _ _
    ⟨rfl, rfl, ⟨by decide, by decide, by decide, by decide⟩, by decide⟩ (solid_fullblock rfl _ _) (solid_fullblock rfl _ _)

/-- `ab` and a newline, read byte by byte: there are three records for the one line. -/
theorem blocked_thrice :
    ¬ ∀ (maxAlloc : Nat) (cbs : Cbs) (s₁ s₂ : Settings) (src₁ src₂ : Source),
      TwoCopies maxAlloc cbs s₁ s₂ src₁ src₂ → Restored maxAlloc cbs s₁ s₂ src₁ src₂ := by
  intro hall
  have hrestored := hall 100 ⟨4, by decide⟩ ⟨1, 1, false, false, none, by decide, by decide, by decide, by decide⟩
    ⟨4, 4, false, false, none, by decide, by decide, by decide, by decide⟩ ⟨[97, 98, 10], fun _ => 9, 0⟩
    ⟨[97, 32, 32, 32, 98, 32, 32, 32, 32, 32, 32, 32], fun _ => 9, 0⟩
    ⟨rfl, rfl, ⟨by decide, by decide, by decide, by decide⟩, by decide⟩
  exact absurd hrestored.1 (by decide)

end Peiosutils.Dd
