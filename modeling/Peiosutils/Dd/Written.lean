import Mathlib.Data.List.Induction
import Mathlib.Data.Nat.GCD.Basic
import Mathlib.Data.Nat.Prime.Basic
import Peiosutils.Dd.Copy

/-!
# What a copy writes

Without padding the input is written exactly when no turn leaves a gap, and with padding the padded reads exactly when
the buffer holds whole blocks, or no more are read (`written_iff`).
-/

set_option autoImplicit false

namespace Peiosutils.Dd

open Chop

variable {s : Settings}

/-! ## The buffer -/

theorem length_resize (buf : List UInt8) (size : Nat) (value : UInt8) : (resize buf size value).length = size := by
  rw [resize, List.length_append, List.length_take, List.length_replicate]
  omega

/-- The lengths of the pieces of a buffer. -/
def lens (s : Settings) (bsize : Nat) : List Nat := (chop s.ibs (List.replicate bsize bufInitByte)).map List.length

/-- The pieces of the buffer in a turn. -/
def chunksOf (s : Settings) (bsize : Nat) (buf : List UInt8) : List (List UInt8) :=
  chop s.ibs (resize buf bsize bufInitByte)

/-- The reads of a turn. -/
def turnReads (s : Settings) (bsize : Nat) (src : Source) : List (List UInt8) × Source :=
  readsFor s (lens s bsize) src

theorem length_chunksOf (bsize : Nat) (buf : List UInt8) : (chunksOf s bsize buf).map List.length = lens s bsize := by
  apply map_length_chop s.ibs_pos
  rw [length_resize, List.length_replicate]

theorem mem_lens {bsize len : Nat} (h : len ∈ lens s bsize) : 0 < len ∧ len ≤ s.ibs := by
  obtain ⟨chunk, hchunk, rfl⟩ := List.mem_map.1 h
  exact length_of_mem_chop s.ibs_pos hchunk

theorem lens_ne_nil {bsize : Nat} (h : 0 < bsize) : lens s bsize ≠ [] := by
  have hne : List.replicate bsize bufInitByte ≠ [] := by
    apply List.length_pos_iff.1
    rwa [List.length_replicate]
  rw [lens, chop_of_ne_nil s.ibs_pos hne]
  exact List.cons_ne_nil _ _

/-- Blocks, and a shorter piece where the buffer does not hold whole blocks. -/
theorem lens_eq (bsize : Nat) : ∃ rest, lens s bsize = List.replicate (bsize / s.ibs) s.ibs ++ rest ∧
    (if s.ibs ∣ bsize then rest = [] else ∃ len, rest = [len] ∧ len < s.ibs) := by
  obtain ⟨whole, rest, hall, hcount, hwhole, hrest⟩ := chop_eq s.ibs_pos (List.replicate bsize bufInitByte)
  rw [List.length_replicate] at hcount hrest
  refine ⟨rest.map List.length, ?_, ?_⟩
  · rw [lens, hall, List.map_append, List.append_cancel_right_eq, ← hcount]
    apply List.eq_replicate_iff.2
    refine ⟨List.length_map .., fun len hlen => ?_⟩
    obtain ⟨chunk, hchunk, rfl⟩ := List.mem_map.1 hlen
    exact hwhole chunk hchunk
  · split at hrest
    · rename_i hdvd
      rw [if_pos hdvd, hrest]
      rfl
    · rename_i hdvd
      obtain ⟨p, rfl, hp⟩ := hrest
      rw [if_neg hdvd]
      exact ⟨p.length, rfl, by rw [hp]; exact Nat.mod_lt _ s.ibs_pos⟩

/-- The bytes of a turn. -/
def turnBytes (s : Settings) (bsize : Nat) (src : Source) (buf : List UInt8) : List UInt8 :=
  let gots := (turnReads s bsize src).1
  match s.sync with
  | some pad => (padded pad (lens s bsize) gots).flatten
  | none => (store (chunksOf s bsize buf) gots).flatten.take gots.flatten.length

/-- A turn reads into the buffer. -/
theorem readHelper_eq (src : Source) (buf : List UInt8) (bsize : Nat) :
    ∃ stat, readHelper s src buf bsize = (turnBytes s bsize src buf, stat, (turnReads s bsize src).2) ∧
      Counts ⟨0, 0, 0⟩ stat (turnReads s bsize src).1 := by
  unfold readHelper turnBytes turnReads
  cases hsync : s.sync with
  | none =>
    obtain ⟨stat, heq, hcounts⟩ := @fillChunks_eq s (chunksOf s bsize buf) src ⟨0, 0, 0⟩
    rw [length_chunksOf] at heq hcounts
    refine ⟨stat, ?_, hcounts⟩
    simp only [fillConsecutive]
    rw [chunksOf] at heq
    rw [heq]
    simp only [hcounts.1, Nat.zero_add]
    rfl
  | some pad =>
    obtain ⟨stat, heq, hcounts⟩ := @padBlocks_eq s pad (chunksOf s bsize buf) src ⟨0, 0, 0⟩
    rw [length_chunksOf] at heq hcounts
    refine ⟨stat, ?_, hcounts⟩
    simp only [fillBlocks]
    rw [chunksOf] at heq
    rw [heq]

theorem turnReads_spec (bsize : Nat) (src : Source) :
    src.rest = (turnReads s bsize src).1.flatten ++ (turnReads s bsize src).2.rest ∧
      Fit (lens s bsize) (turnReads s bsize src).1 ∧
      ((turnReads s bsize src).1.length < (lens s bsize).length → (turnReads s bsize src).2.rest = []) :=
  readsFor_spec (lens s bsize) (fun _ h => (mem_lens h).1) src

/-- A turn without reads is the last one. -/
theorem rest_of_isEmpty {bsize : Nat} (hsize : 0 < bsize) {src : Source} (h : (turnReads s bsize src).1 = []) :
    src.rest = [] := by
  obtain ⟨hrest, -, hend⟩ := @turnReads_spec s bsize src
  rw [h] at hrest hend
  rw [hrest, hend (List.length_pos_iff.2 (lens_ne_nil hsize))]
  rfl

theorem Fit.flatten_pos {lens : List Nat} {gots : List (List UInt8)} (h : Fit lens gots) (hne : gots ≠ []) :
    0 < gots.flatten.length := by
  obtain ⟨got, gots, rfl⟩ := List.exists_cons_of_ne_nil hne
  cases lens with
  | nil => exact absurd h id
  | cons len lens =>
    have := h.1
    rw [List.flatten_cons, List.length_append]
    omega

/-- A turn that reads leaves less to read. -/
theorem rest_lt {bsize : Nat} {src : Source} (h : (turnReads s bsize src).1 ≠ []) :
    (turnReads s bsize src).2.rest.length < src.rest.length := by
  obtain ⟨hrest, hfit, -⟩ := @turnReads_spec s bsize src
  have := hfit.flatten_pos h
  rw [hrest, List.length_append]
  omega

/-! ## The writers -/

namespace BlockWriter

/-- What was written, and what is kept. -/
def bytes : BlockWriter → List UInt8
  | buffered o => o.inner.writes.flatten ++ o.buf
  | unbuffered o => o.writes.flatten

theorem writeBlocks_bytes (buf : List UInt8) (o : BlockWriter) : (o.writeBlocks s buf).2.bytes = o.bytes ++ buf := by
  cases o with
  | buffered o =>
    simp only [writeBlocks, Prod.map, BufferedOutput.writeBlocks, Output.writeBlocks, bytes]
    rw [List.flatten_append, flatten_chop s.obs_pos, List.append_assoc, List.append_assoc, List.take_append_drop,
      List.append_assoc]
  | unbuffered o =>
    simp only [writeBlocks, Prod.map, Output.writeBlocks, bytes]
    rw [List.flatten_append, flatten_chop s.obs_pos]

theorem flush_writes (o : BlockWriter) : (o.flush s).2.writes.flatten = o.bytes := by
  cases o with
  | buffered o =>
    simp only [flush, Prod.map, BufferedOutput.flush, Output.writeBlocks, bytes, writes]
    rw [List.flatten_append, flatten_chop s.obs_pos]
  | unbuffered o => rfl

end BlockWriter

/-! ## The run -/

/-- The bytes of all turns. -/
def runBytes (s : Settings) (bsize : Nat) : Nat → Source → List UInt8 → List UInt8
  | 0, _, _ => []
  | turns + 1, src, buf =>
    if (turnReads s bsize src).1.isEmpty then []
    else
      let buf := turnBytes s bsize src buf
      buf ++ runBytes s bsize turns (turnReads s bsize src).2 buf

/-- The reads of all turns. -/
def runReads (s : Settings) (bsize : Nat) : Nat → Source → List (List UInt8)
  | 0, _ => []
  | turns + 1, src =>
    let (gots, src) := turnReads s bsize src
    if gots.isEmpty then [] else gots ++ runReads s bsize turns src

/-- No turn leaves a gap. -/
def EveryTurn (s : Settings) (bsize : Nat) : Nat → Source → List UInt8 → Prop
  | 0, _, _ => True
  | turns + 1, src, buf =>
    (turnReads s bsize src).1 = [] ∨
      Gapless (chunksOf s bsize buf) (turnReads s bsize src).1 ∧
        EveryTurn s bsize turns (turnReads s bsize src).2 (turnBytes s bsize src buf)

/-- The turns write their bytes and come to an end. -/
theorem copyFrom_bytes (bsize turns : Nat) : ∀ (src : Source) (buf : List UInt8) (o : BlockWriter) (rstat : ReadStat)
    (wstat : WriteStat), src.rest.length < turns → ∃ o' rstat' wstat',
      copyFrom s bsize turns src buf o rstat wstat = some (o', rstat', wstat') ∧
        o'.bytes = o.bytes ++ runBytes s bsize turns src buf := by
  induction turns with
  | zero => omega
  | succ turns ih =>
    intro src buf o rstat wstat hlt
    obtain ⟨stat, heq, hcounts⟩ := @readHelper_eq s src buf bsize
    rw [copyFrom, heq, runBytes]
    simp only
    rw [hcounts.isEmpty]
    by_cases hgots : (turnReads s bsize src).1 = []
    · rw [if_pos (List.isEmpty_iff.2 hgots), if_pos (List.isEmpty_iff.2 hgots)]
      exact ⟨o, rstat, wstat, rfl, (List.append_nil _).symm⟩
    · rw [if_neg (mt List.isEmpty_iff.1 hgots), if_neg (mt List.isEmpty_iff.1 hgots)]
      have := @rest_lt s bsize src hgots
      obtain ⟨o', rstat', wstat', hrun, hbytes⟩ := ih (turnReads s bsize src).2 (turnBytes s bsize src buf)
        (o.writeBlocks s (turnBytes s bsize src buf)).2 (rstat.add stat)
        (wstat.add (o.writeBlocks s (turnBytes s bsize src buf)).1) (by omega)
      refine ⟨o', rstat', wstat', hrun, ?_⟩
      rw [hbytes, BlockWriter.writeBlocks_bytes, List.append_assoc]

/-- Without padding. -/
theorem runBytes_iff (hsync : s.sync = none) {bsize : Nat} (hsize : 0 < bsize) (turns : Nat) : ∀ (src : Source)
    (buf : List UInt8), src.rest.length < turns → (runBytes s bsize turns src buf).length = src.rest.length ∧
      (runBytes s bsize turns src buf = src.rest ↔ EveryTurn s bsize turns src buf) := by
  induction turns with
  | zero => omega
  | succ turns ih =>
    intro src buf hlt
    rw [runBytes, EveryTurn]
    by_cases hgots : (turnReads s bsize src).1 = []
    · rw [if_pos (List.isEmpty_iff.2 hgots), rest_of_isEmpty hsize hgots]
      exact ⟨rfl, iff_of_true rfl (Or.inl hgots)⟩
    · rw [if_neg (mt List.isEmpty_iff.1 hgots)]
      obtain ⟨hrest, hfit, -⟩ := @turnReads_spec s bsize src
      have := @rest_lt s bsize src hgots
      obtain ⟨hlength, hiff⟩ := ih (turnReads s bsize src).2 (turnBytes s bsize src buf) (by omega)
      rw [← length_chunksOf bsize buf] at hfit
      have hbytes : turnBytes s bsize src buf =
          (store (chunksOf s bsize buf) (turnReads s bsize src).1).flatten.take
            (turnReads s bsize src).1.flatten.length := by
        unfold turnBytes
        rw [hsync]
      have hturn : (turnBytes s bsize src buf).length = (turnReads s bsize src).1.flatten.length := by
        rw [hbytes, List.length_take_of_le (length_store _ _ hfit)]
      refine ⟨?_, ?_⟩
      · simp only [List.length_append]
        rw [hturn, hlength, hrest, List.length_append]
      · simp only [hgots, false_or]
        rw [← hiff, ← take_store _ _ hfit, ← hbytes]
        conv_lhs => rw [hrest]
        constructor
        · intro h
          exact List.append_inj h hturn
        · rintro ⟨h, h'⟩
          rw [h', h]

/-! ## With padding -/

/-- A read, padded to a block. -/
def padTo (ibs : Nat) (pad : UInt8) (got : List UInt8) : List UInt8 := got ++ List.replicate (ibs - got.length) pad

theorem length_padTo {ibs : Nat} {pad : UInt8} {got : List UInt8} (h : got.length ≤ ibs) :
    (padTo ibs pad got).length = ibs := by
  rw [padTo, List.length_append, List.length_replicate]
  omega

theorem padded_replicate (pad : UInt8) (ibs : Nat) (rest : List Nat) (gots : List (List UInt8)) :
    ∀ n, gots.length ≤ n → padded pad (List.replicate n ibs ++ rest) gots = gots.map (padTo ibs pad) := by
  induction gots with
  | nil =>
    intro n _
    exact List.zipWith_nil_right
  | cons got gots ih =>
    intro n hn
    obtain ⟨n, rfl⟩ : ∃ k, n = k + 1 := ⟨n - 1, by rw [List.length_cons] at hn; omega⟩
    rw [List.length_cons] at hn
    rw [List.replicate_succ, List.cons_append, padded, List.zipWith_cons_cons, List.map_cons]
    exact congrArg _ (ih n (by omega))

theorem Fit.length_le {lens : List Nat} : ∀ {gots : List (List UInt8)}, Fit lens gots →
    gots.length ≤ lens.length := by
  induction lens with
  | nil =>
    intro gots h
    cases gots with
    | nil => exact Nat.le_refl 0
    | cons got gots => exact absurd h id
  | cons len lens ih =>
    intro gots h
    cases gots with
    | nil => exact Nat.zero_le _
    | cons got gots => exact Nat.succ_le_succ (ih h.2.2)

/-- The padded reads are no longer than blocks, and shorter where a read is in a short piece. -/
theorem length_padded {pad : UInt8} {ibs : Nat} {lens : List Nat} (hle : ∀ len ∈ lens, len ≤ ibs) :
    ∀ {gots : List (List UInt8)}, Fit lens gots →
      (padded pad lens gots).flatten.length ≤ (gots.flatMap (padTo ibs pad)).length ∧
        (gots.length = lens.length → (∃ len ∈ lens, len < ibs) →
          (padded pad lens gots).flatten.length < (gots.flatMap (padTo ibs pad)).length) := by
  induction lens with
  | nil =>
    intro gots h
    cases gots with
    | nil => simp [padded]
    | cons got gots => exact absurd h id
  | cons len lens ih =>
    intro gots h
    cases gots with
    | nil => simp [padded]
    | cons got gots =>
      obtain ⟨-, hgot, hfit⟩ := h
      have hlen := hle len List.mem_cons_self
      obtain ⟨hrest, hshort⟩ := ih (fun l hl => hle l (List.mem_cons_of_mem len hl)) hfit
      rw [padded, List.zipWith_cons_cons, List.flatten_cons, List.length_append, List.length_append,
        List.length_replicate, List.flatMap_cons, List.length_append, length_padTo (Nat.le_trans hgot hlen)]
      rw [padded] at hrest hshort
      refine ⟨by omega, ?_⟩
      rintro hcount ⟨l, hl, hlt⟩
      rcases List.mem_cons.1 hl with rfl | hl
      · omega
      · have := hshort (Nat.succ.inj hcount) ⟨l, hl, hlt⟩
        omega

/-- Behind the end nothing is read. -/
theorem runReads_of_rest_nil {bsize turns : Nat} {src : Source} (h : src.rest = []) : runReads s bsize turns src = [] := by
  cases turns with
  | zero => rfl
  | succ turns =>
    obtain ⟨hrest, hfit, -⟩ := @turnReads_spec s bsize src
    have hgots : (turnReads s bsize src).1 = [] := by
      by_contra hne
      have := hfit.flatten_pos hne
      have := congrArg List.length hrest
      rw [h, List.length_append, List.length_nil] at this
      omega
    rw [runReads]
    simp only [hgots, List.isEmpty_nil, if_true]

theorem runReads_succ {bsize turns : Nat} {src : Source} (hgots : (turnReads s bsize src).1 ≠ []) :
    runReads s bsize (turns + 1) src =
      (turnReads s bsize src).1 ++ runReads s bsize turns (turnReads s bsize src).2 := by
  rw [runReads]
  simp only
  rw [if_neg (mt List.isEmpty_iff.1 hgots)]

/-- The run writes no more than blocks. -/
theorem length_runBytes_le {pad : UInt8} (hsync : s.sync = some pad) (bsize turns : Nat) : ∀ (src : Source)
    (buf : List UInt8), (runBytes s bsize turns src buf).length ≤
      ((runReads s bsize turns src).flatMap (padTo s.ibs pad)).length := by
  induction turns with
  | zero => exact fun _ _ => Nat.le_refl 0
  | succ turns ih =>
    intro src buf
    rw [runBytes]
    by_cases hgots : (turnReads s bsize src).1 = []
    · rw [if_pos (List.isEmpty_iff.2 hgots)]
      exact Nat.zero_le _
    · rw [if_neg (mt List.isEmpty_iff.1 hgots), runReads_succ hgots, List.flatMap_append]
      simp only [List.length_append, turnBytes, hsync]
      have hturn := (@length_padded pad s.ibs (lens s bsize) (fun _ h => (mem_lens h).2) _
        (@turnReads_spec s bsize src).2.1).1
      exact Nat.add_le_add hturn (ih _ _)

/-- With padding. -/
theorem runBytes_padded_iff {pad : UInt8} (hsync : s.sync = some pad) (bsize turns : Nat) : ∀ (src : Source)
    (buf : List UInt8), runBytes s bsize turns src buf = (runReads s bsize turns src).flatMap (padTo s.ibs pad) ↔
      s.ibs ∣ bsize ∨ (runReads s bsize turns src).length ≤ bsize / s.ibs := by
  obtain ⟨rest, hlens, hshort⟩ := @lens_eq s bsize
  induction turns with
  | zero =>
    intro src buf
    exact iff_of_true rfl (Or.inr (Nat.zero_le _))
  | succ turns ih =>
    intro src buf
    by_cases hgots : (turnReads s bsize src).1 = []
    · rw [runBytes, runReads, if_pos (List.isEmpty_iff.2 hgots)]
      simp [hgots]
    · rw [runBytes, if_neg (mt List.isEmpty_iff.1 hgots), runReads_succ hgots]
      simp only
      obtain ⟨-, hfit, hend⟩ := @turnReads_spec s bsize src
      have hbytes : turnBytes s bsize src buf = (padded pad (lens s bsize) (turnReads s bsize src).1).flatten := by
        unfold turnBytes
        rw [hsync]
      rw [hbytes, List.flatMap_append, List.length_append]
      by_cases hfew : (turnReads s bsize src).1.length ≤ bsize / s.ibs
      · -- the reads are in whole blocks
        have hpad := padded_replicate pad s.ibs rest _ _ hfew
        rw [← hlens] at hpad
        rw [hpad, List.flatMap_def, List.append_cancel_left_eq]
        split at hshort
        · rename_i hdvd
          exact iff_of_true ((ih _ _).2 (Or.inl hdvd)) (Or.inl hdvd)
        · rename_i hdvd
          obtain ⟨len, rfl, -⟩ := hshort
          have hnil := hend (by
            rw [hlens, List.length_append, List.length_replicate, List.length_singleton]
            omega)
          have hnone := @runReads_of_rest_nil s bsize turns _ hnil
          refine iff_of_true ((ih _ _).2 (Or.inr ?_)) (Or.inr ?_)
          · rw [hnone]
            exact Nat.zero_le _
          · rw [hnone]
            exact hfew
      · -- one of them is in the short piece
        have hle := hfit.length_le
        rw [hlens, List.length_append, List.length_replicate] at hle
        split at hshort
        · rw [hshort, List.length_nil] at hle
          omega
        · rename_i hdvd
          obtain ⟨len, rfl, hlt⟩ := hshort
          rw [List.length_singleton] at hle
          have hless := (@length_padded pad s.ibs (lens s bsize) (fun _ h => (mem_lens h).2) _ hfit).2
            (by rw [hlens, List.length_append, List.length_replicate, List.length_singleton]; omega)
            ⟨len, by rw [hlens]; simp, hlt⟩
          have hmore := @length_runBytes_le s pad hsync bsize turns (turnReads s bsize src).2
            (padded pad (lens s bsize) (turnReads s bsize src).1).flatten
          refine iff_of_false ?_ ?_
          · intro h
            have := congrArg List.length h
            rw [List.length_append, List.length_append] at this
            omega
          · rintro (h | h)
            · exact hdvd h
            · omega

/-! ## The copy -/

theorem div_gcd_mul (s : Settings) : s.ibs / Nat.gcd s.ibs s.obs * s.obs = s.ibs * (s.obs / Nat.gcd s.ibs s.obs) := by
  rw [Nat.div_mul_right_comm (Nat.gcd_dvd_left ..), Nat.mul_div_assoc _ (Nat.gcd_dvd_right ..)]

/-- The buffer is not empty, also where its size leaves the 64 bits. -/
theorem calcBsize_pos (s : Settings) : 0 < calcBsize s.ibs s.obs := by
  have hg : 0 < Nat.gcd s.ibs s.obs := Nat.gcd_pos_of_pos_left _ s.ibs_pos
  have hcoprime : Nat.Coprime (s.ibs / Nat.gcd s.ibs s.obs) (s.obs / Nat.gcd s.ibs s.obs) :=
    Nat.coprime_div_gcd_div_gcd hg
  apply Nat.pos_of_ne_zero
  intro hzero
  have hdvd : 2 ^ 64 ∣ s.ibs / Nat.gcd s.ibs s.obs * s.obs := Nat.dvd_of_mod_eq_zero hzero
  have hpow : ∀ k, ¬ 2 ∣ k → Nat.Coprime (2 ^ 64) k := fun k hk =>
    Nat.Coprime.pow_left 64 ((Nat.Prime.coprime_iff_not_dvd Nat.prime_two).2 hk)
  by_cases heven : 2 ∣ s.ibs / Nat.gcd s.ibs s.obs
  · have hodd : ¬ 2 ∣ s.obs / Nat.gcd s.ibs s.obs := fun h => by
      have := Nat.dvd_gcd heven h
      rw [hcoprime] at this
      exact absurd this (by decide)
    rw [div_gcd_mul] at hdvd
    exact Nat.not_le_of_lt s.ibs_lt (Nat.le_of_dvd s.ibs_pos ((hpow _ hodd).dvd_of_dvd_mul_right hdvd))
  · exact Nat.not_le_of_lt s.obs_lt (Nat.le_of_dvd s.obs_pos ((hpow _ heven).dvd_of_dvd_mul_left hdvd))

/-- There is memory for the buffers. -/
def Allocates (maxAlloc : Nat) (s : Settings) : Prop :=
  (s.buffered → s.obs ≤ maxAlloc) ∧ calcBsize s.ibs s.obs ≤ maxAlloc

/-- The bytes of all turns of the copy. -/
def allBytes (s : Settings) (src : Source) : List UInt8 :=
  runBytes s (calcBsize s.ibs s.obs) (src.rest.length + 1) src []

/-- The reads of the copy. -/
def allReads (s : Settings) (src : Source) : List (List UInt8) :=
  runReads s (calcBsize s.ibs s.obs) (src.rest.length + 1) src

theorem written_eq (maxAlloc : Nat) (s : Settings) (src : Source) :
    (Allocates maxAlloc s → written maxAlloc s src = allBytes s src) ∧
      (¬ Allocates maxAlloc s → written maxAlloc s src = []) := by
  unfold written ddCopy Allocates
  simp only
  by_cases hobs : s.buffered ∧ maxAlloc < s.obs
  · rw [if_pos hobs]
    exact ⟨fun h => absurd (h.1 hobs.1) (Nat.not_le_of_lt hobs.2), fun _ => rfl⟩
  · rw [if_neg hobs]
    by_cases hbsize : maxAlloc < calcBsize s.ibs s.obs
    · rw [if_pos hbsize]
      exact ⟨fun h => absurd h.2 (Nat.not_le_of_lt hbsize), fun _ => rfl⟩
    · rw [if_neg hbsize]
      refine ⟨fun _ => ?_, fun h => absurd ⟨fun hb => ?_, Nat.le_of_not_lt hbsize⟩ h⟩
      · generalize ho : (if s.buffered then BlockWriter.buffered ⟨⟨[]⟩, []⟩ else .unbuffered ⟨[]⟩) = o
        have hnil : o.bytes = [] := by
          rw [← ho]
          split <;> rfl
        obtain ⟨o', rstat, wstat, hrun, hbytes⟩ := @copyFrom_bytes s (calcBsize s.ibs s.obs) (src.rest.length + 1) src []
          o ⟨0, 0, 0⟩ ⟨0, 0, 0⟩ (Nat.lt_succ_self _)
        rw [hrun]
        simp only [Option.map_some]
        rw [BlockWriter.flush_writes, hbytes, hnil, List.nil_append]
        rfl
      · exact Nat.le_of_not_lt fun h => hobs ⟨hb, h⟩

/-- What the destination should be given: the input, or its reads padded to blocks. -/
def expected (s : Settings) (src : Source) : List UInt8 :=
  match s.sync with
  | none => src.rest
  | some pad => (allReads s src).flatMap (padTo s.ibs pad)

/-- No turn leaves a gap, or with padding: the buffer holds whole blocks or the whole blocks suffice. -/
def WholeTurns (s : Settings) (src : Source) : Prop :=
  match s.sync with
  | none => EveryTurn s (calcBsize s.ibs s.obs) (src.rest.length + 1) src []
  | some _ => s.ibs ∣ calcBsize s.ibs s.obs ∨ (allReads s src).length ≤ calcBsize s.ibs s.obs / s.ibs

theorem allBytes_iff (s : Settings) (src : Source) : allBytes s src = expected s src ↔ WholeTurns s src := by
  unfold allBytes expected WholeTurns
  cases hsync : s.sync with
  | none => exact (runBytes_iff hsync (calcBsize_pos s) _ src [] (Nat.lt_succ_self _)).2
  | some pad => exact runBytes_padded_iff hsync _ _ src []

theorem expected_eq_nil (s : Settings) (src : Source) : expected s src = [] ↔ src.rest = [] := by
  unfold expected
  cases hsync : s.sync with
  | none => exact Iff.rfl
  | some pad =>
    simp only
    constructor
    · intro h
      by_contra hne
      have hgots : (turnReads s (calcBsize s.ibs s.obs) src).1 ≠ [] :=
        fun hnil => hne (rest_of_isEmpty (calcBsize_pos s) hnil)
      rw [allReads, runReads_succ hgots, List.flatMap_append] at h
      obtain ⟨got, gots, hcons⟩ := List.exists_cons_of_ne_nil hgots
      rw [hcons, List.flatMap_cons] at h
      have hpad := (List.append_eq_nil_iff.1 (List.append_eq_nil_iff.1 h).1).1
      obtain ⟨-, hfit, -⟩ := @turnReads_spec s (calcBsize s.ibs s.obs) src
      rw [hcons] at hfit
      have := s.ibs_pos
      have hlength := congrArg List.length hpad
      rw [padTo, List.length_append, List.length_replicate, List.length_nil] at hlength
      omega
    · intro h
      rw [allReads, runReads_of_rest_nil h]
      rfl

theorem everyTurn_of_gapless {bsize : Nat}
    (h : ∀ src buf, Gapless (chunksOf s bsize buf) (turnReads s bsize src).1) (turns : Nat) :
    ∀ src buf, EveryTurn s bsize turns src buf := by
  induction turns with
  | zero => exact fun _ _ => trivial
  | succ turns ih => exact fun src buf => Or.inr ⟨h src buf, ih _ _⟩

/-- A read that goes on is short only at the end. -/
theorem readOn_full (turns : Nat) : ∀ (src : Source) (left : Nat), 0 < left → left ≤ turns →
    (src.readOn turns left).1.length = left ∨ (src.readOn turns left).2.rest = [] := by
  induction turns with
  | zero => omega
  | succ turns ih =>
    intro src left hpos hle
    obtain ⟨hrest, hlen, hnil⟩ := read_next src hpos
    rw [Source.readOn]
    generalize src.read left = r at hrest hlen hnil
    obtain ⟨got, src'⟩ := r
    simp only at hrest hlen hnil ⊢
    split
    · rename_i hgot
      have hgot := List.isEmpty_iff.1 hgot
      have hend := hnil hgot
      rw [hrest, hgot] at hend
      exact Or.inr hend
    · rename_i hgot
      have := List.length_pos_iff.2 (mt List.isEmpty_iff.2 hgot)
      split
      · exact Or.inl (by simp only; omega)
      · apply (ih src' (left - got.length) (by omega) (by omega)).imp_left
        intro hmore
        rw [List.length_append, hmore]
        omega

theorem lastShort_fullblock (hfull : s.fullblock = true) (chunks : List (List UInt8))
    (hpos : ∀ chunk ∈ chunks, 0 < chunk.length) : ∀ src : Source,
    LastShort chunks (readsFor s (chunks.map List.length) src).1 := by
  induction chunks with
  | nil => exact fun _ => trivial
  | cons chunk chunks ih =>
    intro src
    have hchunk := hpos chunk List.mem_cons_self
    have hread := readOn_full chunk.length src chunk.length hchunk (Nat.le_refl _)
    rw [List.map_cons, readsFor, inputRead, if_pos hfull]
    generalize src.readOn chunk.length chunk.length = r at hread
    obtain ⟨got, src'⟩ := r
    simp only at hread ⊢
    split
    · trivial
    · have hpos' : ∀ c ∈ chunks, 0 < c.length := fun c hc => hpos c (List.mem_cons_of_mem chunk hc)
      refine ⟨fun hne => hread.resolve_right fun hend => hne ?_, ih hpos' src'⟩
      obtain ⟨hrest, hfit, -⟩ := @readsFor_spec s (chunks.map List.length)
        (fun len hlen => by
          obtain ⟨c, hc, rfl⟩ := List.mem_map.1 hlen
          exact hpos' c hc) src'
      by_contra hgots
      have := hfit.flatten_pos hgots
      have := congrArg List.length hrest
      rw [hend, List.length_append, List.length_nil] at this
      omega

/-- With full blocks the input is always copied. -/
theorem wholeTurns_fullblock (hsync : s.sync = none) (hfull : s.fullblock = true) (src : Source) : WholeTurns s src := by
  unfold WholeTurns
  rw [hsync]
  apply everyTurn_of_gapless
  intro src buf
  apply LastShort.gapless
  rw [turnReads, ← length_chunksOf _ buf]
  exact lastShort_fullblock hfull _ (fun _ h => (length_of_mem_chop s.ibs_pos h).1) src

end Peiosutils.Dd

/-!
# Buffered output (`bufferedoutput.rs`)

A partial block is kept until it is complete, but only where the next buffer completes it: a buffer that is too short for
that has the partial block written as it is. So whole blocks are written exactly when each buffer completes the partial
block before it (`regular_iff`).
-/

namespace Peiosutils.Dd

open Chop

variable {s : Settings}

namespace BufferedOutput

def new : BufferedOutput := ⟨⟨[]⟩, []⟩

/-- `write_blocks` for one buffer after the other. -/
def feed (s : Settings) (o : BufferedOutput) (bufs : List (List UInt8)) : BufferedOutput :=
  bufs.foldl (fun o buf => (o.writeBlocks s buf).2) o

theorem feed_concat (o : BufferedOutput) (bufs : List (List UInt8)) (buf : List UInt8) :
    feed s o (bufs ++ [buf]) = ((feed s o bufs).writeBlocks s buf).2 := by
  rw [feed, List.foldl_append]
  rfl

/-! ## One buffer -/

/-- What a buffer does when it completes a block: whole blocks are written. -/
theorem writeBlocks_of_le (o : BufferedOutput) (buf : List UInt8) (ho : o.buf.length < s.obs)
    (h : s.obs ≤ o.buf.length + buf.length) :
    ∃ whole, (o.writeBlocks s buf).2.inner.writes = o.inner.writes ++ whole ∧ (∀ w ∈ whole, w.length = s.obs) ∧
      (o.writeBlocks s buf).2.buf.length = (o.buf.length + buf.length) % s.obs := by
  have hrem : (o.buf.length + buf.length) % s.obs ≤ buf.length := by
    have hmod := Nat.mod_eq_sub_mod h
    have hle := Nat.mod_le (o.buf.length + buf.length - s.obs) s.obs
    omega
  refine ⟨_, rfl, fun w hw => length_eq_of_dvd s.obs_pos ?_ hw, ?_⟩
  · rw [List.length_append, List.length_take, Nat.min_eq_left (Nat.sub_le _ _), ← Nat.add_sub_assoc hrem]
    exact Nat.dvd_sub_mod _
  · show (buf.drop _).length = _
    rw [List.length_drop]
    omega

/-- What it does otherwise: the partial block is written, and the buffer is kept. -/
theorem writeBlocks_of_lt (o : BufferedOutput) (buf : List UInt8) (h : o.buf.length + buf.length < s.obs) :
    (o.writeBlocks s buf).2.inner.writes = o.inner.writes ++ (if o.buf = [] then [] else [o.buf]) ∧
      (o.writeBlocks s buf).2.buf = buf := by
  have hzero : buf.length - (o.buf.length + buf.length) % s.obs = 0 := by
    rw [Nat.mod_eq_of_lt h]
    omega
  refine ⟨?_, ?_⟩
  · show o.inner.writes ++ chop s.obs (o.buf ++ buf.take (buf.length - _)) = _
    rw [hzero, List.take_zero, List.append_nil]
    split
    · rename_i hnil
      rw [hnil, chop_nil]
    · rename_i hne
      rw [chop_of_le s.obs_pos hne (by omega)]
  · show buf.drop (buf.length - _) = buf
    rw [hzero, List.drop_zero]

theorem length_writeBlocks_lt (o : BufferedOutput) (buf : List UInt8) (ho : o.buf.length < s.obs) :
    (o.writeBlocks s buf).2.buf.length < s.obs := by
  by_cases h : s.obs ≤ o.buf.length + buf.length
  · obtain ⟨-, -, -, hlength⟩ := writeBlocks_of_le o buf ho h
    rw [hlength]
    exact Nat.mod_lt _ s.obs_pos
  · rw [(writeBlocks_of_lt o buf (Nat.lt_of_not_le h)).2]
    omega

/-! ## All buffers -/

theorem length_feed_lt (bufs : List (List UInt8)) : (feed s new bufs).buf.length < s.obs := by
  induction bufs using List.reverseRecOn with
  | nil => exact s.obs_pos
  | append_singleton bufs buf ih =>
    rw [feed_concat]
    exact length_writeBlocks_lt _ buf ih

/-- What is written and kept is what was given. -/
theorem feed_bytes (bufs : List (List UInt8)) : (BlockWriter.buffered (feed s new bufs)).bytes = bufs.flatten := by
  induction bufs using List.reverseRecOn with
  | nil => rfl
  | append_singleton bufs buf ih =>
    rw [feed_concat, List.flatten_append, ← ih, List.flatten_singleton]
    exact @BlockWriter.writeBlocks_bytes s buf (.buffered (feed s new bufs))

/-- Each buffer completes the partial block that the buffers before it leave, if they leave one. -/
def Completes (obs : Nat) (lens : List Nat) : Prop :=
  ∀ before len after, lens = before ++ len :: after → before.sum % obs = 0 ∨ obs ≤ before.sum % obs + len

theorem completes_concat {obs : Nat} {lens : List Nat} {len : Nat} :
    Completes obs (lens ++ [len]) ↔ Completes obs lens ∧ (lens.sum % obs = 0 ∨ obs ≤ lens.sum % obs + len) := by
  constructor
  · intro h
    refine ⟨fun before l after heq => ?_, h lens len [] rfl⟩
    exact h before l (after ++ [len]) (by rw [heq, List.append_assoc, List.cons_append])
  · rintro ⟨h, hlast⟩ before l after heq
    rcases List.eq_nil_or_concat after with rfl | ⟨after, l', rfl⟩
    · obtain ⟨rfl, hl⟩ := List.append_inj' heq rfl
      rw [← (List.cons.inj hl).1]
      exact hlast
    · rw [List.concat_eq_append, ← List.cons_append, ← List.append_assoc] at heq
      exact h before l after (List.append_inj' heq rfl).1

/-- While the buffers complete their blocks, whole blocks are written and what is left over is kept. -/
theorem feed_whole_iff (bufs : List (List UInt8)) :
    ((∀ w ∈ (feed s new bufs).inner.writes, w.length = s.obs) ↔ Completes s.obs (bufs.map List.length)) ∧
      (Completes s.obs (bufs.map List.length) →
        (feed s new bufs).buf.length = (bufs.map List.length).sum % s.obs) := by
  induction bufs using List.reverseRecOn with
  | nil =>
    refine ⟨iff_of_true (by simp [feed, new]) fun before len after h => ?_, fun _ => (Nat.zero_mod _).symm⟩
    simp at h
  | append_singleton bufs buf ih =>
    obtain ⟨hwhole, hkept⟩ := ih
    have ho := @length_feed_lt s bufs
    rw [feed_concat, List.map_append, List.map_singleton, completes_concat, List.sum_append, List.sum_singleton]
    generalize feed s new bufs = o at hwhole hkept ho
    generalize hlens : bufs.map List.length = lens at hwhole hkept
    by_cases h : s.obs ≤ o.buf.length + buf.length
    · obtain ⟨whole, hwrites, hsize, hlength⟩ := writeBlocks_of_le o buf ho h
      rw [hwrites, hlength, List.forall_mem_append, hwhole]
      refine ⟨⟨fun hall => ⟨hall.1, .inr ?_⟩, fun hall => ⟨hall.1, hsize⟩⟩, fun hall => ?_⟩
      · rwa [← hkept hall.1]
      · rw [hkept hall.1, Nat.mod_add_mod]
    · obtain ⟨hwrites, hbuf⟩ := writeBlocks_of_lt o buf (Nat.lt_of_not_le h)
      rw [hwrites, hbuf, List.forall_mem_append, hwhole]
      by_cases hnil : o.buf = []
      · rw [if_pos hnil]
        rw [hnil, List.length_nil] at hkept h
        refine ⟨⟨fun hall => ⟨hall.1, .inl (hkept hall.1).symm⟩, fun hall => ⟨hall.1, by simp⟩⟩, fun hall => ?_⟩
        rw [Nat.add_mod, ← hkept hall.1, Nat.zero_add, Nat.mod_mod, Nat.mod_eq_of_lt (by omega)]
      · rw [if_neg hnil]
        have hpos := List.length_pos_iff.2 hnil
        have hnot : ¬ (Completes s.obs lens ∧ (lens.sum % s.obs = 0 ∨ s.obs ≤ lens.sum % s.obs + buf.length)) := by
          rintro ⟨hall, hlast⟩
          rw [← hkept hall] at hlast
          omega
        refine ⟨iff_of_false (fun hall => ?_) hnot, fun hall => absurd hall hnot⟩
        have := hall.2 o.buf (List.mem_singleton_self _)
        omega

/-! ## With a flush -/

/-- The blocks of the output: whole ones, but for one at the flush, with all bytes in order. -/
structure Regular (s : Settings) (bufs : List (List UInt8)) : Prop where
  short : ∀ n, (feed s new (bufs.take n)).buf.length < s.obs
  whole : ∀ w ∈ (feed s new bufs).inner.writes, w.length = s.obs
  last : ∃ rest, ((feed s new bufs).flush s).2.inner.writes = (feed s new bufs).inner.writes ++ rest ∧
    rest.length ≤ 1 ∧ ∀ w ∈ rest, w.length < s.obs
  bytes : ((feed s new bufs).flush s).2.inner.writes.flatten = bufs.flatten

/-- The flush writes what is kept, as one block. -/
theorem flush_last (o : BufferedOutput) (ho : o.buf.length < s.obs) : ∃ rest,
    (o.flush s).2.inner.writes = o.inner.writes ++ rest ∧ rest.length ≤ 1 ∧ ∀ w ∈ rest, w.length < s.obs := by
  refine ⟨chop s.obs o.buf, rfl, ?_⟩
  by_cases hnil : o.buf = []
  · rw [hnil, chop_nil]
    exact ⟨Nat.zero_le 1, by simp⟩
  · rw [chop_of_le s.obs_pos hnil (Nat.le_of_lt ho)]
    exact ⟨Nat.le_refl 1, by simpa using ho⟩

/-- **Which sequences of buffers are written in whole blocks.** -/
theorem regular_iff (s : Settings) (bufs : List (List UInt8)) :
    Regular s bufs ↔ Completes s.obs (bufs.map List.length) := by
  rw [← (@feed_whole_iff s bufs).1]
  refine ⟨Regular.whole, fun h => ⟨fun n => length_feed_lt _, h, flush_last _ (length_feed_lt bufs), ?_⟩⟩
  rw [← @feed_bytes s bufs]
  exact @BlockWriter.flush_writes s (.buffered (feed s new bufs))

/-- Two bytes in buffers of one, with blocks of three: the first is written as a block of its own. -/
theorem short_block_written :
    ¬ ∀ (s : Settings) (bufs : List (List UInt8)), Regular s bufs := by
  intro h
  have hregular := h ⟨1, 3, true, false, none, by decide, by decide, by decide, by decide⟩ [[1], [2]]
  exact absurd (hregular.whole [1] (by decide)) (by decide)

end BufferedOutput

end Peiosutils.Dd
