import Mathlib.Data.List.Basic
import Peiosutils.Lib.Blocks
import Peiosutils.Split.OutFiles
import Peiosutils.Split.Sink

/-!
# `split -n N` (`n_chunks_by_byte`)

The input is cut into `N` ranges of bytes, the first ones of which are one byte longer. The files are these ranges, and
`K/N` prints the `K`-th of them (`nChunksByByte_files`, `nChunksByByte_kth`).
-/

set_option autoImplicit false

namespace Peiosutils.Split

open While (Stop)
open Shares Writing

/-! ## The code -/

/-- What has been written, and how many writes that took. -/
structure ByteState where
  outFiles : OutFiles := {}
  stdout : List UInt8 := []
  calls : Nat := 0
  deriving DecidableEq, Repr

section Code

variable (canOpen : (attempt opened : Nat) → Bool) (env : Env) (kthChunk : Option Nat)

/-- `write` to the writer of a file -/
def ByteState.writeFile (idx : Nat) (bytes : List UInt8) (s : ByteState) : Except Stop (Nat × ByteState) :=
  let taken := env.takes s.calls bytes
  .ok (taken, { s with outFiles := s.outFiles.write idx (bytes.take taken), calls := s.calls + 1 })

/-- `write` to the standard output -/
def ByteState.writeStdout (bytes : List UInt8) (s : ByteState) : Except Stop (Nat × ByteState) :=
  let taken := env.takes s.calls bytes
  .ok (taken, { s with stdout := s.stdout ++ bytes.take taken, calls := s.calls + 1 })

/-- The loop over the chunks from `i` on, of which `left` are left; `rest` is what has not been read. -/
def byteLoop (numChunks chunkSizeBase chunkSizeReminder : Nat) :
    (i left numBytes : Nat) → (rest : List UInt8) → ByteState → Except Stop ByteState
  | _, 0, _, _, s => .ok s
  | i, left + 1, numBytes, rest, s =>
    let chunkSize := chunkSizeBase + if chunkSizeReminder > i - 1 then 1 else 0
    if 0 < numBytes then
      -- the last chunk gets all remaining bytes
      let limit := if i = numChunks then numBytes else chunkSize
      let buf := rest.take limit
      let go (s : ByteState) :=
        byteLoop numChunks chunkSizeBase chunkSizeReminder (i + 1) left (numBytes - buf.length) (rest.drop limit) s
      match kthChunk with
      | some kth => if i = kth then writeAll (ByteState.writeStdout env) buf s else go s
      | none =>
        match getWriter canOpen (i - 1) s.outFiles with
        | .error e => .error e
        | .ok outFiles =>
          match writeAll (ByteState.writeFile env (i - 1)) buf { s with outFiles } with
          | .error e => .error e
          | .ok s => go s
    else .ok s

/-- How many chunks there are: empty ones are not written where they are to be elided. -/
def chunksOf (elideEmptyFiles : Bool) (numBytes numChunks : Nat) : Nat :=
  if kthChunk.isNone && elideEmptyFiles && decide (numChunks > numBytes) then numBytes else numChunks

def nChunksByByte (elideEmptyFiles : Bool) (numChunks : Nat) (data : List UInt8) : Except Stop ByteState :=
  let numBytes := data.length
  if kthChunk.isSome && numBytes = 0 then .ok {}
  else
    let numChunks := chunksOf kthChunk elideEmptyFiles numBytes numChunks
    if numChunks = 0 then .ok {}
    else
      byteLoop canOpen env kthChunk numChunks (numBytes / numChunks) (numBytes % numChunks) 1 numChunks numBytes data
        { outFiles := if kthChunk.isNone then init canOpen numChunks false else {} }

end Code

/-! ## Writes -/

variable {canOpen : (attempt opened : Nat) → Bool} {env : Env}

theorem OutFiles.write_write (out : OutFiles) (idx : Nat) (a b : List UInt8) :
    (out.write idx a).write idx b = out.write idx (a ++ b) := by
  simp only [OutFiles.write, List.modify_modify_eq, Function.comp_def, List.append_assoc]

@[simp] theorem OutFiles.write_nil (out : OutFiles) (idx : Nat) : out.write idx [] = out := by
  have hid : (fun file : OutFile => { file with content := file.content ++ [] }) = id := by
    funext file
    simp
  rw [OutFiles.write, hid, List.modify_id]

/-- All is written to the file, however it is taken. -/
theorem writeFile_all (env : Env) (idx : Nat) (bytes : List UInt8) (s : ByteState) :
    ∃ calls, writeAll (ByteState.writeFile env idx) bytes s =
      .ok { s with outFiles := s.outFiles.write idx bytes, calls } := by
  let Inv (done : List UInt8) (s' : ByteState) : Prop :=
    ∃ calls, s' = { s with outFiles := s.outFiles.write idx done, calls }
  have hkeeps : Keeps (ByteState.writeFile env idx) Inv := by
    rintro buf done taken s₁ s₂ hbuf ⟨calls, rfl⟩ hw
    obtain ⟨rfl, rfl⟩ := Prod.mk.inj (Except.ok.inj hw)
    exact ⟨env.takes_pos _ _ hbuf, env.takes_le _ _, calls + 1, by simp only [OutFiles.write_write]⟩
  have hstart : Inv [] s := ⟨s.calls, by simp⟩
  obtain ⟨s', hs'⟩ := writeAll_ends hkeeps (fun _ _ _ _ _ => ⟨_, rfl⟩) bytes hstart
  obtain ⟨calls, hcalls⟩ := writeAll_spec hkeeps hstart hs'
  exact ⟨calls, hs'.trans (congrArg Except.ok hcalls)⟩

/-- All is printed, however it is taken. -/
theorem writeStdout_all (bytes : List UInt8) (s : ByteState) :
    ∃ s', writeAll (ByteState.writeStdout env) bytes s = .ok s' ∧ s'.stdout = s.stdout ++ bytes := by
  have hkeeps : Keeps (ByteState.writeStdout env) fun done s' => s'.stdout = s.stdout ++ done := by
    intro buf done taken s₁ s₂ hbuf hinv hw
    obtain ⟨rfl, rfl⟩ := Prod.mk.inj (Except.ok.inj hw)
    refine ⟨env.takes_pos _ _ hbuf, env.takes_le _ _, ?_⟩
    show s₁.stdout ++ _ = _
    rw [hinv, List.append_assoc]
  obtain ⟨s', hs'⟩ := writeAll_ends hkeeps (fun _ _ _ _ _ => ⟨_, rfl⟩) bytes (List.append_nil s.stdout).symm
  exact ⟨s', hs', writeAll_spec hkeeps (List.append_nil s.stdout).symm hs'⟩

/-! ## The chunks -/

/-- What is read for a chunk: its share, also for the last one. -/
theorem limit_eq {data : List UInt8} {M i : Nat} (hi : 1 ≤ i) (hM : i ≤ M) :
    (if i = M then data.length - bound data.length M (i - 1)
      else data.length / M + if data.length % M > i - 1 then 1 else 0) =
      bound data.length M i - bound data.length M (i - 1) := by
  split
  · rename_i h
    subst h
    rw [bound_self hi]
  · have hsucc := bound_succ data.length M (i - 1)
    rw [Nat.sub_add_cancel hi] at hsucc
    rw [hsucc, Nat.add_sub_cancel_left]

theorem read_share (data : List UInt8) {M i : Nat} (hi : 1 ≤ i) (hM : i ≤ M) :
    (data.drop (bound data.length M (i - 1))).take (bound data.length M i - bound data.length M (i - 1)) =
      share data M (i - 1) ∧
    data.length - bound data.length M (i - 1) - (share data M (i - 1)).length =
      data.length - bound data.length M i ∧
    (data.drop (bound data.length M (i - 1))).drop (bound data.length M i - bound data.length M (i - 1)) =
      data.drop (bound data.length M i) := by
  have hle : bound data.length M (i - 1) ≤ bound data.length M i := bound_mono (Nat.sub_le i 1)
  have htop : bound data.length M i ≤ bound data.length M M := bound_mono hM
  rw [bound_self (by omega)] at htop
  have hshare : (data.drop (bound data.length M (i - 1))).take (bound data.length M i - bound data.length M (i - 1)) =
      share data M (i - 1) := by rw [share, Nat.sub_add_cancel hi]
  refine ⟨hshare, ?_, by rw [List.drop_drop, Nat.add_sub_cancel' hle]⟩
  rw [← hshare, List.length_take, List.length_drop]
  omega

/-- The chunks from `i` on get their shares. -/
theorem byteLoop_files (hopen : ∀ attempt, canOpen attempt 0 = true) (env : Env) (data : List UInt8) {M : Nat}
    (left : Nat) :
    ∀ (i : Nat) (s : ByteState), 1 ≤ i → i + left = M + 1 → s.outFiles.contents.length = M → Fresh s.outFiles.files →
      ∃ s', byteLoop canOpen env none M (data.length / M) (data.length % M) i left
          (data.length - bound data.length M (i - 1)) (data.drop (bound data.length M (i - 1))) s = .ok s' ∧
        s'.outFiles.contents = s.outFiles.contents.mapIdx fun j content =>
          if i ≤ j + 1 then content ++ share data M j else content := by
  induction left with
  | zero =>
    intro i s hi hleft hlen hfresh
    refine ⟨s, rfl, List.ext_getElem (by simp) fun j hj hj' => ?_⟩
    rw [List.getElem_mapIdx, if_neg (by omega)]
  | succ left ih =>
    intro i s hi hleft hlen hfresh
    obtain ⟨hread, hnum, hrest⟩ := read_share data hi (by omega : i ≤ M)
    unfold byteLoop
    simp only [limit_eq hi (by omega : i ≤ M), hread, hnum, hrest]
    split
    · obtain ⟨out, hout, hfresh', hcontents⟩ := getWriter_write hopen (by omega : i - 1 < s.outFiles.contents.length)
        hfresh (share data M (i - 1))
      obtain ⟨calls, hwrite⟩ := writeFile_all env (i - 1) (share data M (i - 1)) { s with outFiles := out }
      simp only [hout, hwrite]
      obtain ⟨s', hs', hcontents'⟩ := ih (i + 1)
        { s with outFiles := out.write (i - 1) (share data M (i - 1)), calls } (by omega) (by omega)
        (by rw [hcontents, List.length_modify]; exact hlen) hfresh'
      refine ⟨s', hs', ?_⟩
      rw [hcontents']
      show (out.write (i - 1) (share data M (i - 1))).contents.mapIdx _ = _
      rw [hcontents]
      refine List.ext_getElem (by simp) fun j hj hj' => ?_
      rw [List.getElem_mapIdx, List.getElem_mapIdx, List.getElem_modify]
      rcases Nat.lt_trichotomy i (j + 1) with hlt | heq | hgt
      · rw [if_pos (by omega), if_neg (by omega), if_pos (by omega)]
      · subst heq
        rw [if_neg (by omega), if_pos (Nat.add_sub_cancel j 1), if_pos (Nat.le_refl _)]
        rfl
      · rw [if_neg (by omega), if_neg (by omega), if_neg (by omega)]
    · -- nothing is left, and the shares that come are empty
      rename_i hdone
      refine ⟨s, rfl, List.ext_getElem (by simp) fun j hj hj' => ?_⟩
      rw [List.getElem_mapIdx]
      split
      · have hmono : bound data.length M (i - 1) ≤ bound data.length M j := bound_mono (by omega)
        rw [share_eq_nil (by omega), List.append_nil]
      · rfl

/-- The share of the chunk number `k` is printed. -/
theorem byteLoop_kth (canOpen : (attempt opened : Nat) → Bool) (env : Env) (data : List UInt8) {M k : Nat}
    (hk : k ≤ M) (left : Nat) :
    ∀ (i : Nat) (s : ByteState), 1 ≤ i → i ≤ k → i + left = M + 1 →
      ∃ s', byteLoop canOpen env (some k) M (data.length / M) (data.length % M) i left
          (data.length - bound data.length M (i - 1)) (data.drop (bound data.length M (i - 1))) s = .ok s' ∧
        s'.stdout = s.stdout ++ share data M (k - 1) := by
  induction left with
  | zero =>
    intro i s hi hik hleft
    omega
  | succ left ih =>
    intro i s hi hik hleft
    obtain ⟨hread, hnum, hrest⟩ := read_share data hi (by omega : i ≤ M)
    unfold byteLoop
    simp only [limit_eq hi (by omega : i ≤ M), hread, hnum, hrest]
    split
    · by_cases heq : i = k
      · subst heq
        rw [if_pos rfl]
        exact writeStdout_all _ s
      · rw [if_neg heq]
        exact ih (i + 1) s (by omega) (by omega) (by omega)
    · have hmono : bound data.length M (i - 1) ≤ bound data.length M (k - 1) := bound_mono (by omega)
      refine ⟨s, rfl, ?_⟩
      rw [share_eq_nil (by omega), List.append_nil]

/-- The files of `split -n N`. -/
theorem nChunksByByte_files (hopen : ∀ attempt, canOpen attempt 0 = true) (env : Env) (elide : Bool)
    (data : List UInt8) (N : Nat) :
    ∃ s, nChunksByByte canOpen env none elide N data = .ok s ∧
      s.outFiles.contents = (List.range (chunksOf none elide data.length N)).map
        (share data (chunksOf none elide data.length N)) := by
  unfold nChunksByByte
  simp only [Option.isSome_none, Bool.false_and, Bool.false_eq_true, if_false]
  generalize chunksOf none elide data.length N = M
  split
  · rename_i hzero
    exact ⟨{}, rfl, by rw [hzero]; rfl⟩
  · obtain ⟨hfresh, hcontents⟩ := init_spec canOpen M false
    obtain ⟨s, hs, hshares⟩ := byteLoop_files hopen env data M 1 { outFiles := init canOpen M false }
      (Nat.le_refl 1) (Nat.add_comm 1 M) (by rw [hcontents, List.length_replicate]) hfresh
    rw [Nat.sub_self, bound_zero, Nat.sub_zero, List.drop_zero] at hs
    refine ⟨s, hs, ?_⟩
    simp only [hshares, hcontents]
    refine List.ext_getElem (by simp) fun j hj hj' => ?_
    simp

/-- The files of `split -n N` are the input, however many of them are elided. -/
theorem flatten_chunks (elide : Bool) (data : List UInt8) {N : Nat} (hN : 0 < N) :
    ((List.range (chunksOf none elide data.length N)).map (share data (chunksOf none elide data.length N))).flatten =
      data := by
  rcases Nat.eq_zero_or_pos (chunksOf none elide data.length N) with hzero | hpos
  · have hdata : data.length = 0 := by
      unfold chunksOf at hzero
      split at hzero <;> omega
    rw [hzero, List.length_eq_zero_iff.1 hdata]
    rfl
  · exact flatten_shares data hpos

/-- The share of the chunk number `k` of `N` is the file number `k`, also where empty ones are elided. -/
theorem share_eq_file (elide : Bool) (data : List UInt8) {N k : Nat} (hk : 1 ≤ k) (hkN : k ≤ N) :
    share data N (k - 1) = ((List.range (chunksOf none elide data.length N)).map
      (share data (chunksOf none elide data.length N))).getD (k - 1) [] := by
  unfold chunksOf
  split
  · rename_i helided
    have hlt : data.length < N := of_decide_eq_true (Bool.and_eq_true_iff.1 helided).2
    by_cases hin : k - 1 < data.length
    · simp [hin, share_of_lt hlt hin]
    · rw [share_eq_nil (by rw [bound_of_lt hlt]; omega)]
      simp [hin]
  · have hin : k - 1 < N := by omega
    simp [hin]

/-- What `split -n K/N` prints. -/
theorem nChunksByByte_kth (canOpen : (attempt opened : Nat) → Bool) (env : Env) (elide : Bool) (data : List UInt8)
    {N k : Nat} (hk : 1 ≤ k) (hkN : k ≤ N) :
    ∃ s, nChunksByByte canOpen env (some k) elide N data = .ok s ∧ s.stdout = share data N (k - 1) := by
  unfold nChunksByByte
  by_cases hdata : data = []
  · subst hdata
    exact ⟨{}, rfl, (share_eq_nil (Nat.zero_le _)).symm⟩
  · have hpos : data.length ≠ 0 := mt List.length_eq_zero_iff.1 hdata
    have hN : N ≠ 0 := by omega
    simp only [chunksOf, hpos, hN, Option.isNone_some, Bool.false_and, Bool.false_eq_true, if_false, decide_false,
      Bool.and_false]
    obtain ⟨s, hs, hstdout⟩ := byteLoop_kth canOpen env data hkN N 1 {} (Nat.le_refl 1) hk (Nat.add_comm 1 N)
    rw [Nat.sub_self, bound_zero, Nat.sub_zero, List.drop_zero] at hs
    exact ⟨s, hs, hstdout⟩

end Peiosutils.Split
