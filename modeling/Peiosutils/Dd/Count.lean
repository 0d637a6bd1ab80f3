import Peiosutils.Dd.Written

/-!
# Copies with a count (`calc_loop_bsize`, `below_count_limit`)

With `count=N` the main loop asks before each turn whether the limit is reached, by what has been read, and computes the
size of the turn by what is left of the count: for blocks by the reads, for bytes by what has been written.

What was read and what was written drift apart with padding and with buffered output. A count of bytes is met exactly when
the size that is computed does no harm at any turn of the run, and a count of blocks when it fits 64 bits in bytes
(`count_met_iff`).
-/

set_option autoImplicit false

namespace Peiosutils.Dd

open Chop

/-! ## The loop -/

inductive Num where
  | blocks (n : UInt64)
  | bytes (n : UInt64)

def Num.isZero : Num → Bool
  | .blocks n => n == 0
  | .bytes n => n == 0

def ReadStat.reads (stat : ReadStat) : Nat := stat.readsComplete + stat.readsPartial

/-- None where a subtraction or a multiplication leaves its type. -/
def calcLoopBsize (count : Option Num) (rstat : ReadStat) (wstat : WriteStat) (ibs idealBsize : Nat) : Option Nat :=
  match count with
  | some (.blocks rmax) =>
    if rmax.toNat < rstat.reads then none
    else
      let rremain := rmax.toNat - rstat.reads
      if 2 ^ 64 ≤ rremain * ibs then none else some (min idealBsize (rremain * ibs))
  | some (.bytes bmax) =>
    if bmax.toNat < wstat.bytesTotal then none else some (min idealBsize (bmax.toNat - wstat.bytesTotal))
  | none => some idealBsize

def belowCountLimit (count : Option Num) (rstat : ReadStat) : Bool :=
  match count with
  | some (.blocks n) => rstat.reads < n.toNat
  | some (.bytes n) => rstat.bytesTotal < n.toNat
  | none => true

/-- The variables of the main loop. -/
structure LoopState where
  src : Source
  buf : List UInt8
  o : BlockWriter
  rstat : ReadStat
  wstat : WriteStat

inductive Turn where
  | stop
  | overflow
  | next (st : LoopState)

/-- A turn with a buffer of `bsize` bytes. -/
def LoopState.readWrite (s : Settings) (bsize : Nat) (st : LoopState) : Turn :=
  let (buf, rstatUpdate, src) := readHelper s st.src st.buf bsize
  if rstatUpdate.isEmpty then .stop
  else
    let (wstatUpdate, o) := st.o.writeBlocks s buf
    .next ⟨src, buf, o, st.rstat.add rstatUpdate, st.wstat.add wstatUpdate⟩

def LoopState.turn (s : Settings) (count : Option Num) (bsize : Nat) (st : LoopState) : Turn :=
  if belowCountLimit count st.rstat then
    match calcLoopBsize count st.rstat st.wstat s.ibs bsize with
    | none => .overflow
    | some loopBsize => st.readWrite s loopBsize
  else .stop

/-- How a copy ends. -/
inductive Ended where
  | copied (st : LoopState)
  | noMemory
  | overflow

/-- The main loop; none when the turns do not suffice. -/
def copyLoop (s : Settings) (count : Option Num) (bsize : Nat) : Nat → LoopState → Option Ended
  | 0, _ => none
  | turns + 1, st =>
    match st.turn s count bsize with
    | .stop => some (.copied st)
    | .overflow => some .overflow
    | .next st => copyLoop s count bsize turns st

def LoopState.flush (s : Settings) (st : LoopState) : LoopState :=
  let (wstatUpdate, o) := st.o.flush s
  { st with o, wstat := st.wstat.add wstatUpdate }

def LoopState.start (s : Settings) (src : Source) : LoopState :=
  ⟨src, [], if s.buffered then .buffered ⟨⟨[]⟩, []⟩ else .unbuffered ⟨[]⟩, ⟨0, 0, 0⟩, ⟨0, 0, 0⟩⟩

/-- `dd_copy` with a count; a count of zero needs no buffers. -/
def ddCount (maxAlloc : Nat) (s : Settings) (count : Num) (src : Source) : Option Ended :=
  let bsize := calcBsize s.ibs s.obs
  if count.isZero then some (.copied ⟨src, [], .unbuffered ⟨[]⟩, ⟨0, 0, 0⟩, ⟨0, 0, 0⟩⟩)
  else if s.buffered ∧ maxAlloc < s.obs then some .noMemory
  else if maxAlloc < bsize then some .noMemory
  else
    match copyLoop s (some count) bsize (src.rest.length + 1) (.start s src) with
    | some (.copied st) => some (.copied (st.flush s))
    | other => other

variable {s : Settings}

/-! ## Without a count -/

/-- The end of a copy without a count. -/
def Ended.result : Ended → Option (BlockWriter × ReadStat × WriteStat)
  | .copied st => some (st.o, st.rstat, st.wstat)
  | _ => none

/-- Without a count it is the loop of the whole copy. -/
theorem copyLoop_none (bsize turns : Nat) : ∀ st : LoopState,
    (copyLoop s none bsize turns st).bind Ended.result =
      copyFrom s bsize turns st.src st.buf st.o st.rstat st.wstat := by
  induction turns with
  | zero => exact fun _ => rfl
  | succ turns ih =>
    intro st
    rw [copyLoop, copyFrom, LoopState.turn]
    simp only [belowCountLimit, calcLoopBsize, if_true, LoopState.readWrite]
    generalize readHelper s st.src st.buf bsize = r
    obtain ⟨buf, stat, src⟩ := r
    simp only
    by_cases hempty : stat.isEmpty = true
    · rw [if_pos hempty, if_pos hempty]
      rfl
    · rw [if_neg hempty, if_neg hempty]
      exact ih _

/-! ## Turns -/

/-- What a turn does: it stops where nothing is read, and else goes on with what is left. -/
theorem readWrite_cases (bsize : Nat) (st : LoopState) :
    ((turnReads s bsize st.src).1 = [] ∧ st.readWrite s bsize = .stop) ∨
      ((turnReads s bsize st.src).1 ≠ [] ∧ ∃ st', st.readWrite s bsize = .next st' ∧
        st'.src = (turnReads s bsize st.src).2 ∧
        st'.rstat.bytesTotal = st.rstat.bytesTotal + (turnReads s bsize st.src).1.flatten.length ∧
        st'.rstat.reads = st.rstat.reads + (turnReads s bsize st.src).1.length) := by
  obtain ⟨stat, heq, hcounts⟩ := @readHelper_eq s st.src st.buf bsize
  rw [LoopState.readWrite, heq]
  simp only
  rw [hcounts.isEmpty]
  by_cases hgots : (turnReads s bsize st.src).1 = []
  · exact .inl ⟨hgots, by rw [hgots]; rfl⟩
  · refine .inr ⟨hgots, _, if_neg (mt List.isEmpty_iff.1 hgots), rfl, ?_, ?_⟩
    · obtain ⟨hbytes, -⟩ := hcounts
      simp only [ReadStat.add, hbytes, Nat.zero_add]
    · obtain ⟨-, hreads⟩ := hcounts
      simp only [Nat.zero_add] at hreads
      simp only [ReadStat.reads, ReadStat.add]
      omega

theorem Fit.of_mem {lens : List Nat} {gots : List (List UInt8)} (h : Fit lens gots) :
    ∀ got ∈ gots, 0 < got.length ∧ ∃ len ∈ lens, got.length ≤ len := by
  induction lens generalizing gots with
  | nil =>
    cases gots with
    | nil => exact fun _ hgot => absurd hgot List.not_mem_nil
    | cons got gots => exact absurd h id
  | cons len lens ih =>
    cases gots with
    | nil => exact fun _ hgot => absurd hgot List.not_mem_nil
    | cons got gots =>
      obtain ⟨hpos, hle, hfit⟩ := h
      refine List.forall_mem_cons.2 ⟨⟨hpos, len, List.mem_cons_self, hle⟩, fun g hg => ?_⟩
      obtain ⟨hg, l, hl, hgl⟩ := ih hfit g hg
      exact ⟨hg, l, List.mem_cons_of_mem len hl, hgl⟩

/-- Each read of a turn fits in a block. -/
theorem length_of_mem_turnReads {bsize : Nat} {src : Source} {got : List UInt8}
    (h : got ∈ (turnReads s bsize src).1) : 0 < got.length ∧ got.length ≤ s.ibs := by
  obtain ⟨hpos, len, hlen, hle⟩ := (@turnReads_spec s bsize src).2.1.of_mem got h
  exact ⟨hpos, Nat.le_trans hle (mem_lens hlen).2⟩

theorem length_lens_le {bsize n : Nat} (h : bsize ≤ n * s.ibs) : (lens s bsize).length ≤ n := by
  obtain ⟨rest, hlens, hrest⟩ := @lens_eq s bsize
  have hpos := s.ibs_pos
  have hdiv : bsize / s.ibs ≤ n := Nat.div_le_of_le_mul (by rwa [Nat.mul_comm])
  rw [hlens, List.length_append, List.length_replicate]
  split at hrest
  · rw [hrest]
    exact hdiv
  · rename_i hdvd
    obtain ⟨len, rfl, -⟩ := hrest
    refine Nat.lt_of_le_of_ne hdiv fun heq => hdvd ?_
    have hmul := Nat.div_mul_le_self bsize s.ibs
    rw [heq] at hmul
    exact ⟨n, by rw [Nat.mul_comm]; omega⟩

/-- A turn without a buffer reads nothing. -/
theorem turnReads_zero (src : Source) : turnReads s 0 src = ([], src) := rfl

/-! ## A count of blocks -/

/-- The run with a count of blocks, as long as what is left of it fits. -/
theorem copyLoop_blocks {n : UInt64} {bsize : Nat} (hsize : 0 < bsize) (hfits : n.toNat * s.ibs < 2 ^ 64) (turns : Nat) :
    ∀ st : LoopState, st.src.rest.length < turns → st.rstat.reads ≤ n.toNat →
      ∃ st', copyLoop s (some (.blocks n)) bsize turns st = some (.copied st') ∧
        ∃ gots : List (List UInt8), st.src.rest = gots.flatten ++ st'.src.rest ∧
          (∀ got ∈ gots, 0 < got.length ∧ got.length ≤ s.ibs) ∧
          st'.rstat.reads = st.rstat.reads + gots.length ∧ st'.rstat.reads ≤ n.toNat ∧
          (st'.rstat.reads < n.toNat → st'.src.rest = []) := by
  induction turns with
  | zero => exact fun _ h => absurd h (Nat.not_lt_zero _)
  | succ turns ih =>
    intro st hturns hle
    rw [copyLoop, LoopState.turn, belowCountLimit]
    by_cases hbelow : st.rstat.reads < n.toNat
    · -- a turn for what is left of the count
      have hremain : (n.toNat - st.rstat.reads) * s.ibs < 2 ^ 64 :=
        Nat.lt_of_le_of_lt (Nat.mul_le_mul_right _ (Nat.sub_le _ _)) hfits
      have hloop : calcLoopBsize (some (.blocks n)) st.rstat st.wstat s.ibs bsize =
          some (min bsize ((n.toNat - st.rstat.reads) * s.ibs)) := by
        rw [calcLoopBsize]
        simp only
        rw [if_neg (Nat.not_lt_of_le hle), if_neg (Nat.not_le_of_lt hremain)]
      have hpos : 0 < min bsize ((n.toNat - st.rstat.reads) * s.ibs) :=
        Nat.lt_min.2 ⟨hsize, Nat.mul_pos (by omega) s.ibs_pos⟩
      have hlens := @length_lens_le s _ _ (Nat.min_le_right bsize ((n.toNat - st.rstat.reads) * s.ibs))
      simp only [hbelow, decide_true, if_true, hloop]
      generalize min bsize ((n.toNat - st.rstat.reads) * s.ibs) = loopBsize at hpos hlens
      obtain ⟨hrest, hfit, -⟩ := @turnReads_spec s loopBsize st.src
      have hcount := Nat.le_trans hfit.length_le hlens
      rcases @readWrite_cases s loopBsize st with ⟨hgots, hturn⟩ | ⟨hgots, st₁, hturn, hsrc, -, hreads⟩
      · rw [hturn]
        refine ⟨st, rfl, [], rfl, fun _ h => absurd h List.not_mem_nil, rfl, hle, fun _ => ?_⟩
        exact rest_of_isEmpty hpos hgots
      · rw [hturn]
        have hlt := @rest_lt s loopBsize st.src hgots
        obtain ⟨st', hrun, gots, hgone, hall, hsum, hmost, hend⟩ := ih st₁ (by rw [hsrc]; omega) (by omega)
        refine ⟨st', hrun, (turnReads s loopBsize st.src).1 ++ gots, ?_, ?_, ?_, hmost, hend⟩
        · rw [List.flatten_append, List.append_assoc, ← hgone, hsrc]
          exact hrest
        · exact List.forall_mem_append.2 ⟨fun got h => length_of_mem_turnReads h, hall⟩
        · rw [hsum, hreads, List.length_append, Nat.add_assoc]
    · -- the limit is reached
      simp only [hbelow, decide_false, Bool.false_eq_true, if_false]
      exact ⟨st, rfl, [], rfl, fun _ h => absurd h List.not_mem_nil, rfl, hle, fun h => absurd h hbelow⟩

/-! ## A count of bytes -/

/-- The states of a run. -/
inductive Reached (s : Settings) (count : Option Num) (bsize : Nat) : LoopState → LoopState → Prop
  | refl (st : LoopState) : Reached s count bsize st st
  | next {st st' st'' : LoopState} (h : st.turn s count bsize = .next st') (hrun : Reached s count bsize st' st'') :
    Reached s count bsize st st''

/-- The size of a turn, computed from what was written, does no harm: no more was written than the count, as much only at
the end of the input, and the reads do not go beyond what the count leaves of the input. -/
def Harmless (s : Settings) (n bsize : Nat) (st : LoopState) : Prop :=
  st.wstat.bytesTotal ≤ n ∧ (st.wstat.bytesTotal = n → st.src.rest = []) ∧
    (turnReads s (min bsize (n - st.wstat.bytesTotal)) st.src).1.flatten.length ≤ n - st.rstat.bytesTotal

/-- No size does harm in the run. -/
def HarmlessRun (s : Settings) (n : UInt64) (bsize : Nat) (st : LoopState) : Prop :=
  ∀ st', Reached s (some (.bytes n)) bsize st st' → st'.rstat.bytesTotal < n.toNat → Harmless s n.toNat bsize st'

theorem harmlessRun_next {n : UInt64} {bsize : Nat} {st st' : LoopState}
    (h : st.turn s (some (.bytes n)) bsize = .next st') :
    HarmlessRun s n bsize st ↔
      (st.rstat.bytesTotal < n.toNat → Harmless s n.toNat bsize st) ∧ HarmlessRun s n bsize st' := by
  constructor
  · exact fun hall => ⟨hall st (.refl st), fun st'' hrun => hall st'' (.next h hrun)⟩
  · rintro ⟨hst, hall⟩ st'' hrun
    cases hrun with
    | refl => exact hst
    | next h' hrun =>
      rw [h, Turn.next.injEq] at h'
      exact hall st'' (h' ▸ hrun)

theorem harmlessRun_of_turn {n : UInt64} {bsize : Nat} {st : LoopState}
    (h : ∀ st', st.turn s (some (.bytes n)) bsize ≠ .next st') :
    HarmlessRun s n bsize st ↔ (st.rstat.bytesTotal < n.toNat → Harmless s n.toNat bsize st) := by
  constructor
  · exact fun hall => hall st (.refl st)
  · intro hst st'' hrun
    cases hrun with
    | refl => exact hst
    | next h' hrun => exact absurd h' (h _)

/-- What is left to read at the end of a copy. -/
def Ended.rest (src : Source) : Ended → List UInt8
  | .copied st => st.src.rest
  | _ => src.rest

/-- The copy ends, without an overflow, and leaves `rest`. -/
def Leaves (src : Source) (ended : Option Ended) (rest : List UInt8) : Prop :=
  ∃ e, ended = some e ∧ e ≠ .overflow ∧ e.rest src = rest

theorem copyLoop_of_limit {count : Option Num} {bsize turns : Nat} (hturns : 0 < turns) {st : LoopState}
    (h : belowCountLimit count st.rstat = false) : copyLoop s count bsize turns st = some (.copied st) := by
  obtain ⟨turns, rfl⟩ : ∃ k, turns = k + 1 := ⟨turns - 1, by omega⟩
  rw [copyLoop, LoopState.turn, h]
  rfl

/-- Where what is left of the count is left, there is nothing to read. -/
theorem rest_eq_drop_iff {rest : List UInt8} {k : Nat} (h : 0 < k) : rest = rest.drop k ↔ rest = [] := by
  constructor
  · intro heq
    have hlength := congrArg List.length heq
    rw [List.length_drop] at hlength
    exact List.eq_nil_of_length_eq_zero (by omega)
  · rintro rfl
    exact List.drop_nil.symm

/-- The run with a count of bytes: it takes what is left of the count exactly when no size does harm. -/
theorem copyLoop_bytes_iff {n : UInt64} {bsize : Nat} (hsize : 0 < bsize) (src : Source) (turns : Nat) :
    ∀ st : LoopState, st.src.rest.length < turns → st.rstat.bytesTotal ≤ n.toNat →
      (Leaves src (copyLoop s (some (.bytes n)) bsize turns st) (st.src.rest.drop (n.toNat - st.rstat.bytesTotal)) ↔
        HarmlessRun s n bsize st) := by
  induction turns with
  | zero => exact fun _ h => absurd h (Nat.not_lt_zero _)
  | succ turns ih =>
    intro st hturns hle
    rw [copyLoop]
    by_cases hbelow : st.rstat.bytesTotal < n.toNat
    · by_cases hover : n.toNat < st.wstat.bytesTotal
      · -- more was written than the count
        have hturn : st.turn s (some (.bytes n)) bsize = .overflow := by
          simp only [LoopState.turn, belowCountLimit, hbelow, decide_true, if_true, calcLoopBsize, if_pos hover]
        rw [hturn, harmlessRun_of_turn (by simp [hturn])]
        refine iff_of_false ?_ fun h => Nat.not_le_of_lt hover (h hbelow).1
        rintro ⟨e, heq, hne, -⟩
        exact hne (Option.some.inj heq).symm
      have hwritten := Nat.le_of_not_lt hover
      have hturn : st.turn s (some (.bytes n)) bsize = st.readWrite s (min bsize (n.toNat - st.wstat.bytesTotal)) := by
        simp only [LoopState.turn, belowCountLimit, hbelow, decide_true, if_true, calcLoopBsize, if_neg hover]
      have hharmless : Harmless s n.toNat bsize st ↔ (st.wstat.bytesTotal = n.toNat → st.src.rest = []) ∧
          (turnReads s (min bsize (n.toNat - st.wstat.bytesTotal)) st.src).1.flatten.length ≤
            n.toNat - st.rstat.bytesTotal := and_iff_right hwritten
      have hloop : st.wstat.bytesTotal ≠ n.toNat → 0 < min bsize (n.toNat - st.wstat.bytesTotal) := fun hne =>
        Nat.lt_min.2 ⟨hsize, by omega⟩
      have hzero : st.wstat.bytesTotal = n.toNat → min bsize (n.toNat - st.wstat.bytesTotal) = 0 := fun heq => by
        rw [heq, Nat.sub_self, Nat.min_zero]
      generalize min bsize (n.toNat - st.wstat.bytesTotal) = loopBsize at hturn hharmless hloop hzero
      rcases @readWrite_cases s loopBsize st with ⟨hgots, hread⟩ | ⟨hgots, st₁, hread, hsrc, hbytes, -⟩
      · -- nothing is read: because there is nothing, or because the size is zero
        rw [hturn, hread, harmlessRun_of_turn (by simp [hturn, hread]), hharmless, hgots]
        have hleaves : Leaves src (some (.copied st)) (st.src.rest.drop (n.toNat - st.rstat.bytesTotal)) ↔
            st.src.rest = [] := by
          rw [← rest_eq_drop_iff (show 0 < n.toNat - st.rstat.bytesTotal by omega)]
          exact ⟨fun ⟨e, heq, _, h⟩ => by rwa [← Option.some.inj heq] at h, fun h => ⟨_, rfl, by simp, h⟩⟩
        rw [hleaves]
        refine ⟨fun h _ => ⟨fun _ => h, Nat.zero_le _⟩, fun h => ?_⟩
        by_cases heq : st.wstat.bytesTotal = n.toNat
        · exact (h hbelow).1 heq
        · exact rest_of_isEmpty (hloop heq) hgots
      · rw [hturn, hread, harmlessRun_next (hturn.trans hread), hharmless]
        simp only
        obtain ⟨hrest, -, -⟩ := @turnReads_spec s loopBsize st.src
        have hlt := @rest_lt s loopBsize st.src hgots
        have hlength := congrArg List.length hrest
        rw [List.length_append] at hlength
        by_cases hgot : (turnReads s loopBsize st.src).1.flatten.length ≤ n.toNat - st.rstat.bytesTotal
        · -- the rest of the run takes the rest of the count
          have hdrop : st₁.src.rest.drop (n.toNat - st₁.rstat.bytesTotal) =
              st.src.rest.drop (n.toNat - st.rstat.bytesTotal) := by
            rw [hsrc, hbytes]
            conv_rhs => rw [hrest, List.drop_append, List.drop_of_length_le hgot, List.nil_append]
            rw [Nat.sub_add_eq]
          rw [← hdrop, ih st₁ (by rw [hsrc]; omega) (by omega)]
          refine (and_iff_right fun _ => ⟨fun heq => ?_, hgot⟩).symm
          rw [hzero heq, turnReads_zero] at hgots
          exact absurd rfl hgots
        · -- the limit is passed
          have hlimit : belowCountLimit (some (.bytes n)) st₁.rstat = false := by
            simp only [belowCountLimit, decide_eq_false_iff_not]
            omega
          rw [copyLoop_of_limit (by omega) hlimit]
          refine iff_of_false ?_ fun h => hgot (h.1 hbelow).2
          rintro ⟨e, heq, -, h⟩
          rw [← Option.some.inj heq, Ended.rest, hsrc] at h
          have hleft := congrArg List.length h
          rw [List.length_drop] at hleft
          omega
    · -- the limit is reached
      have hturn : st.turn s (some (.bytes n)) bsize = .stop := by
        simp only [LoopState.turn, belowCountLimit, hbelow, decide_false, Bool.false_eq_true, if_false]
      rw [hturn, harmlessRun_of_turn (by simp [hturn])]
      refine iff_of_true ⟨_, rfl, by simp, ?_⟩ fun h => absurd h hbelow
      rw [show n.toNat - st.rstat.bytesTotal = 0 by omega]
      rfl

/-! ## The copy -/

/-- The reads of a copy. -/
def Ended.reads : Ended → Nat
  | .copied st => st.rstat.reads
  | _ => 0

/-- The count is met. A count of bytes takes that many from the start of the input, or all of it; a count of blocks makes
that many reads of at most a block, or those up to the end of the input. -/
def MetAt (s : Settings) (src : Source) (e : Ended) : Num → Prop
  | .bytes n => e.rest src = src.rest.drop n.toNat
  | .blocks n =>
    ∃ gots : List (List UInt8), src.rest = gots.flatten ++ e.rest src ∧
      (∀ got ∈ gots, 0 < got.length ∧ got.length ≤ s.ibs) ∧ e.reads = gots.length ∧ e.reads ≤ n.toNat ∧
      (e.reads < n.toNat → e.rest src = [])

/-- The copy ends, without an overflow, and meets its count. -/
def Met (s : Settings) (count : Num) (src : Source) (ended : Option Ended) : Prop :=
  ∃ e, ended = some e ∧ e ≠ .overflow ∧ MetAt s src e count

/-- A count of blocks fits 64 bits in bytes, and no size does harm in the run with a count of bytes. -/
def LimitFits (s : Settings) (src : Source) : Num → Prop
  | .bytes n => HarmlessRun s n (calcBsize s.ibs s.obs) (.start s src)
  | .blocks n => n.toNat * s.ibs < 2 ^ 64

/-- The count is zero, or there is memory for the buffers and the limit fits. Without memory the input is empty. -/
def CountFits (maxAlloc : Nat) (s : Settings) (count : Num) (src : Source) : Prop :=
  count.isZero = true ∨ (¬ Allocates maxAlloc s ∧ src.rest = []) ∨ (Allocates maxAlloc s ∧ LimitFits s src count)

theorem ddCount_of_not_allocates {maxAlloc : Nat} {count : Num} {src : Source} (hcount : count.isZero = false)
    (h : ¬ Allocates maxAlloc s) : ddCount maxAlloc s count src = some .noMemory := by
  rw [ddCount]
  simp only [hcount, Bool.false_eq_true, if_false]
  by_cases hobs : s.buffered ∧ maxAlloc < s.obs
  · rw [if_pos hobs]
  · rw [if_neg hobs, if_pos]
    by_contra hbsize
    exact h ⟨fun hb => Nat.le_of_not_lt fun hlt => hobs ⟨hb, hlt⟩, Nat.le_of_not_lt hbsize⟩

/-- The flush at the end changes nothing that was read. -/
theorem met_ddCount {maxAlloc : Nat} {count : Num} {src : Source} (hcount : count.isZero = false)
    (h : Allocates maxAlloc s) :
    Met s count src (ddCount maxAlloc s count src) ↔
      Met s count src (copyLoop s (some count) (calcBsize s.ibs s.obs) (src.rest.length + 1) (.start s src)) := by
  rw [ddCount]
  simp only [hcount, Bool.false_eq_true, if_false]
  rw [if_neg fun hobs => Nat.not_le_of_lt hobs.2 (h.1 hobs.1), if_neg (Nat.not_lt_of_le h.2)]
  generalize copyLoop s (some count) (calcBsize s.ibs s.obs) (src.rest.length + 1) (.start s src) = ended
  cases ended with
  | none => exact Iff.rfl
  | some e =>
    cases e with
    | copied st =>
      have hat : MetAt s src (.copied (st.flush s)) count ↔ MetAt s src (.copied st) count := by
        cases count <;> exact Iff.rfl
      constructor
      · rintro ⟨e, heq, -, hmet⟩
        obtain rfl := Option.some.inj heq
        exact ⟨_, rfl, by simp, hat.1 hmet⟩
      · rintro ⟨e, heq, -, hmet⟩
        obtain rfl := Option.some.inj heq
        exact ⟨_, rfl, by simp, hat.2 hmet⟩
    | noMemory => exact Iff.rfl
    | overflow => exact Iff.rfl

/-- Nothing is read: the count is zero or there is no input. -/
theorem met_of_none {count : Num} {src : Source} {e : Ended} (he : e ≠ .overflow) (hrest : e.rest src = src.rest)
    (hreads : e.reads = 0) : Met s count src (some e) ↔ count.isZero = true ∨ src.rest = [] := by
  have hmet : Met s count src (some e) ↔ MetAt s src e count :=
    ⟨fun ⟨_, heq, _, h⟩ => Option.some.inj heq ▸ h, fun h => ⟨e, rfl, he, h⟩⟩
  rw [hmet]
  cases count with
  | bytes n =>
    rw [MetAt, hrest, Num.isZero, beq_iff_eq, ← UInt64.toNat_inj]
    by_cases hn : n.toNat = 0
    · exact iff_of_true (by rw [hn]; rfl) (.inl hn)
    · rw [rest_eq_drop_iff (Nat.pos_of_ne_zero hn)]
      exact (or_iff_right hn).symm
  | blocks n =>
    rw [MetAt, hrest, hreads, Num.isZero, beq_iff_eq, ← UInt64.toNat_inj]
    constructor
    · rintro ⟨gots, -, -, -, -, hend⟩
      by_cases hn : n.toNat = 0
      · exact .inl hn
      · exact .inr (hend (Nat.pos_of_ne_zero hn))
    · refine fun h => ⟨[], rfl, fun _ h => absurd h List.not_mem_nil, rfl, Nat.zero_le _, fun hn => ?_⟩
      exact h.resolve_left (Nat.ne_of_gt hn)

theorem met_bytes_iff {n : UInt64} {src : Source} {bsize : Nat} (hsize : 0 < bsize) :
    Met s (.bytes n) src (copyLoop s (some (.bytes n)) bsize (src.rest.length + 1) (.start s src)) ↔
      HarmlessRun s n bsize (.start s src) :=
  copyLoop_bytes_iff hsize src (src.rest.length + 1) (.start s src) (Nat.lt_succ_self _) (Nat.zero_le _)

theorem met_blocks_iff {n : UInt64} {src : Source} {bsize : Nat} (hsize : 0 < bsize) :
    Met s (.blocks n) src (copyLoop s (some (.blocks n)) bsize (src.rest.length + 1) (.start s src)) ↔
      n.toNat * s.ibs < 2 ^ 64 := by
  by_cases hfit : n.toNat * s.ibs < 2 ^ 64
  · obtain ⟨st', hrun, gots, hrest, hall, hreads, hmost, hend⟩ :=
      copyLoop_blocks hsize hfit (src.rest.length + 1) (.start s src) (Nat.lt_succ_self _) (Nat.zero_le _)
    rw [show (LoopState.start s src).rstat.reads = 0 from rfl, Nat.zero_add] at hreads
    exact iff_of_true ⟨_, hrun, by simp, gots, hrest, hall, hreads, hmost, hend⟩ hfit
  · -- the first turn overflows
    have hpos : 0 < n.toNat := Nat.pos_of_ne_zero fun h => by
      rw [h, Nat.zero_mul] at hfit
      exact hfit (Nat.two_pow_pos 64)
    have hreads : (LoopState.start s src).rstat.reads = 0 := rfl
    have hturn : (LoopState.start s src).turn s (some (.blocks n)) bsize = .overflow := by
      have hloop : calcLoopBsize (some (.blocks n)) (LoopState.start s src).rstat (LoopState.start s src).wstat s.ibs
          bsize = none := by
        rw [calcLoopBsize]
        simp only [hreads, Nat.sub_zero]
        rw [if_neg (Nat.not_lt_zero _), if_pos (Nat.le_of_not_lt hfit)]
      rw [LoopState.turn, hloop, belowCountLimit]
      simp only [hreads, hpos, decide_true, if_true]
    rw [copyLoop, hturn]
    refine iff_of_false ?_ hfit
    rintro ⟨e, heq, hne, -⟩
    exact hne (Option.some.inj heq).symm

end Peiosutils.Dd
