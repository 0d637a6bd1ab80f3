import Mathlib.Data.List.Basic
import Peiosutils.Lib.Blocks
import Peiosutils.Lib.Lines
import Peiosutils.Split.OutFiles

/-!
# `split -n l/N` (`n_chunks_by_line`)

The input is taken line by line, and a line goes to the chunk at hand; behind the line a loop advances to the chunk
whose range of bytes is not filled yet. The counters are natural numbers here. In the code the loop that does not end
makes `skipped`, an `i32`, overflow after 2^31 turns, and `chunk_number` after 2^64.
-/

set_option autoImplicit false

namespace Peiosutils.Split

open Lines Shares
open While (Stop loop)

/-! ## The code -/

structure Settings where
  separator : UInt8 := 10
  elideEmptyFiles : Bool := false
  deriving DecidableEq, Repr

/-- The chunk at hand, `num_bytes_should_be_written` and `skipped`. -/
structure Target where
  chunkNumber : Nat
  shouldBeWritten : Nat
  skipped : Int := -1
  deriving DecidableEq, Repr

/-- The state between the lines. -/
structure State where
  chunkNumber : Nat
  shouldBeWritten : Nat
  written : Nat := 0
  outFiles : OutFiles := {}
  stdout : List UInt8 := []
  deriving DecidableEq, Repr

section Code

variable (canOpen : (attempt opened : Nat) → Bool) (settings : Settings) (numBytes numChunks : Nat)
  (kthChunk : Option Nat)

/-- One turn of the loop that advances to the next chunk. -/
def advanceTurn (written : Nat) (t : Target) : Except Stop (Target ⊕ Target) :=
  if t.shouldBeWritten ≤ written then
    .ok (.inl {
      chunkNumber := t.chunkNumber + 1
      shouldBeWritten :=
        t.shouldBeWritten + (numBytes / numChunks + if numBytes % numChunks > t.chunkNumber then 1 else 0)
      skipped := t.skipped + 1 })
  else .ok (.inr t)

def advance (fuel written : Nat) (t : Target) : Except Stop Target :=
  loop (advanceTurn numBytes numChunks written) fuel t

/-- The line with its separator, which the last line may not have. -/
def restored (written : Nat) (line : List UInt8) : List UInt8 :=
  if written + line.length < numBytes then line ++ [settings.separator] else line

def emit (bytes : List UInt8) (s : State) : Except Stop State :=
  match kthChunk with
  | some kth => .ok (if s.chunkNumber = kth then { s with stdout := s.stdout ++ bytes } else s)
  | none =>
    match getWriter canOpen (s.chunkNumber - 1) s.outFiles with
    | .error e => .error e
    | .ok outFiles => .ok { s with outFiles := outFiles.write (s.chunkNumber - 1) bytes }

/-- The chunk number after skipped chunks, rolled back where the names of the files are to be in sequence. -/
def rolledBack (t : Target) : Nat :=
  if settings.elideEmptyFiles && decide (0 < t.skipped) && kthChunk.isNone then t.chunkNumber - t.skipped.toNat
  else t.chunkNumber

def nextLine (fuel : Nat) (line : List UInt8) (s : State) : Except Stop State :=
  let bytes := restored settings numBytes s.written line
  match emit canOpen kthChunk bytes s with
  | .error e => .error e
  | .ok s =>
    let written := s.written + bytes.length
    match advance numBytes numChunks fuel written
        { chunkNumber := s.chunkNumber, shouldBeWritten := s.shouldBeWritten } with
    | .error e => .error e
    | .ok t =>
      .ok { s with
        chunkNumber := rolledBack settings kthChunk t
        shouldBeWritten := t.shouldBeWritten
        written }

def linesLoop (fuel : Nat) : List (List UInt8) → State → Except Stop State
  | [], s => .ok s
  | line :: lines, s =>
    match nextLine canOpen settings numBytes numChunks kthChunk fuel line s with
    | .error e => .error e
    | .ok s => if kthChunk.any (s.chunkNumber > ·) then .ok s else linesLoop fuel lines s

/-- Without a file and before the first line. -/
def start : State :=
  { chunkNumber := 1, shouldBeWritten := numBytes / numChunks + if numBytes % numChunks > 0 then 1 else 0 }

def nChunksByLine (fuel : Nat) (data : List UInt8) : Except Stop State :=
  let numBytes := data.length
  if numBytes = 0 && (kthChunk.isSome || settings.elideEmptyFiles) then .ok (start numBytes numChunks)
  else
    linesLoop canOpen settings numBytes numChunks kthChunk fuel (lines settings.separator data)
      { start numBytes numChunks with
        outFiles := if kthChunk.isNone then init canOpen numChunks settings.elideEmptyFiles else {} }

end Code

/-! ## The loop behind a line -/

variable {canOpen : (attempt opened : Nat) → Bool} {settings : Settings} {n N : Nat} {kth : Option Nat} {fuel : Nat}

/-- The loop ends at the first chunk that is not filled. -/
theorem advance_ok {c w d : Nat} {q : Int} {t : Target} (h : advance n N fuel w ⟨c, bound n N c + d, q⟩ = .ok t) :
    ∃ m, c ≤ m ∧ (∀ j, c ≤ j → j < m → bound n N j + d ≤ w) ∧ w < bound n N m + d ∧
      t = ⟨m, bound n N m + d, q + (m - c : Nat)⟩ := by
  unfold advance at h
  induction fuel generalizing c q with
  | zero => cases h
  | succ fuel ih =>
    unfold loop advanceTurn at h
    by_cases hc : bound n N c + d ≤ w
    · have hnext : bound n N c + d + (n / N + if n % N > c then 1 else 0) = bound n N (c + 1) + d := by
        rw [bound_succ]
        omega
      simp only [if_pos hc, hnext] at h
      obtain ⟨m, hm, hpassed, hbelow, rfl⟩ := ih h
      refine ⟨m, by omega, fun j hj hjm => ?_, hbelow, by congr 1; omega⟩
      rcases Nat.eq_or_lt_of_le hj with rfl | hj
      · exact hc
      · exact hpassed j hj hjm
    · simp only [if_neg hc] at h
      exact ⟨c, Nat.le_refl c, fun j hj hjm => absurd hjm (by omega), by omega, by
        rw [Nat.sub_self]
        simpa using (Except.ok.inj h).symm⟩

/-- The loop ends where there is a chunk that is not filled. -/
theorem advance_ends {c w d m : Nat} {q : Int} (hm : c ≤ m) (hw : w < bound n N m + d) (hfuel : m - c < fuel) :
    ∃ t, advance n N fuel w ⟨c, bound n N c + d, q⟩ = .ok t := by
  have hturn : ∀ (left : Nat) (t : Target),
      (t.chunkNumber + left = m ∧ t.shouldBeWritten = bound n N t.chunkNumber + d) →
      (∃ r, advanceTurn n N w t = .ok (.inr r) ∧ True) ∨
      ∃ left' t', advanceTurn n N w t = .ok (.inl t') ∧ left' < left ∧
        (t'.chunkNumber + left' = m ∧ t'.shouldBeWritten = bound n N t'.chunkNumber + d) := by
    rintro left t ⟨hleft, ht⟩
    unfold advanceTurn
    by_cases hle : t.shouldBeWritten ≤ w
    · right
      have hlt : t.chunkNumber < m := by
        refine Nat.lt_of_not_le fun hge => ?_
        have hmono : bound n N m ≤ bound n N t.chunkNumber := bound_mono hge
        omega
      refine ⟨left - 1, _, by rw [if_pos hle], by omega, (by show t.chunkNumber + 1 + _ = m; omega), ?_⟩
      show t.shouldBeWritten + _ = _
      rw [ht, bound_succ]
      omega
    · exact Or.inl ⟨t, by rw [if_neg hle], trivial⟩
  obtain ⟨t, ht, -⟩ := While.loop_spec _ (fun _ => True) hturn (s := ⟨c, bound n N c + d, q⟩)
    ⟨Nat.add_sub_cancel' hm, rfl⟩ hfuel
  exact ⟨t, ht⟩

/-! ## One line -/

/-- The target is that of the chunk, `d` bytes ahead of it after chunks that were rolled back, and not reached. -/
structure OnTarget (n N d : Nat) (s : State) : Prop where
  one_le : 1 ≤ s.chunkNumber
  target : s.shouldBeWritten = bound n N s.chunkNumber + d
  below : s.written < s.shouldBeWritten

/-- What the line `p` does: `s₁` is the state when it is written, and the loop leads to the chunk `m`. -/
structure Moved (settings : Settings) (n N : Nat) (kth : Option Nat) (p : List UInt8) (d m : Nat) (s s₁ s' : State) :
    Prop where
  le : s.chunkNumber ≤ m
  passed : ∀ j, s.chunkNumber ≤ j → j < m → bound n N j + d ≤ s.written + p.length
  below : s.written + p.length < bound n N m + d
  target : s'.shouldBeWritten = bound n N m + d
  number : s'.chunkNumber =
    if settings.elideEmptyFiles && kth.isNone && decide (s.chunkNumber + 1 < m) then s.chunkNumber + 1 else m
  written : s'.written = s.written + p.length
  outFiles : s'.outFiles = s₁.outFiles
  stdout : s'.stdout = s₁.stdout

/-- A line that has been read is written as it is in the input. -/
theorem restored_chomp {w : Nat} {rest p : List UInt8} {ps : List (List UInt8)}
    (hpieces : pieces settings.separator rest = p :: ps) (hlen : w + rest.length = n) :
    restored settings n w (chomp settings.separator p) = p := by
  obtain ⟨hrest, -, hlast⟩ := pieces_eq_cons hpieces
  have hrest' : rest.length = p.length + ps.flatten.length := by rw [← List.length_append, ← hrest]
  unfold restored chomp
  by_cases hp : p.getLast? = some settings.separator
  · have hcut : p.dropLast ++ [settings.separator] = p := List.dropLast_append_getLast? _ hp
    have hlt : p.dropLast.length + 1 = p.length := by simpa using congrArg List.length hcut
    rw [if_pos hp, if_pos (by omega), hcut]
  · obtain rfl : ps = [] := hlast.resolve_left hp
    rw [List.flatten_nil, List.length_nil] at hrest'
    rw [if_neg hp, if_neg (by omega)]

theorem emit_frame {bytes : List UInt8} {s s₁ : State} (h : emit canOpen kth bytes s = .ok s₁) :
    s₁.chunkNumber = s.chunkNumber ∧ s₁.shouldBeWritten = s.shouldBeWritten ∧ s₁.written = s.written := by
  unfold emit at h
  cases kth with
  | some k =>
    rw [← Except.ok.inj h]
    split <;> exact ⟨rfl, rfl, rfl⟩
  | none =>
    cases hget : getWriter canOpen (s.chunkNumber - 1) s.outFiles with
    | error e => simp [hget] at h
    | ok out =>
      simp only [hget, Except.ok.injEq] at h
      rw [← h]
      exact ⟨rfl, rfl, rfl⟩

theorem rolledBack_eq (c m : Nat) (w : Nat) : rolledBack settings kth ⟨m, w, -1 + (m - c : Nat)⟩ =
    if settings.elideEmptyFiles && kth.isNone && decide (c + 1 < m) then c + 1 else m := by
  have hskip : (0 : Int) < -1 + (m - c : Nat) ↔ c + 1 < m := by omega
  unfold rolledBack
  simp only [hskip, Bool.and_right_comm _ (decide _) _]
  split
  · rename_i h
    have hlt : c + 1 < m := of_decide_eq_true (Bool.and_eq_true_iff.1 h).2
    omega
  · rfl

theorem nextLine_ok {d : Nat} {rest p : List UInt8} {ps : List (List UInt8)} {s s' : State}
    (hpieces : pieces settings.separator rest = p :: ps) (hlen : s.written + rest.length = n) (hs : OnTarget n N d s)
    (h : nextLine canOpen settings n N kth fuel (chomp settings.separator p) s = .ok s') :
    ∃ s₁ m, emit canOpen kth p s = .ok s₁ ∧ Moved settings n N kth p d m s s₁ s' := by
  unfold nextLine at h
  simp only [restored_chomp hpieces hlen] at h
  cases hemit : emit canOpen kth p s with
  | error e => simp [hemit] at h
  | ok s₁ =>
    obtain ⟨hnumber, htarget, hwritten⟩ := emit_frame hemit
    simp only [hemit, hnumber, htarget, hwritten, hs.target] at h
    cases hadv : advance n N fuel (s.written + p.length) ⟨s.chunkNumber, bound n N s.chunkNumber + d, -1⟩ with
    | error e => simp [hadv] at h
    | ok t =>
      obtain ⟨m, hm, hpassed, hbelow, rfl⟩ := advance_ok hadv
      simp only [hadv, Except.ok.injEq] at h
      subst h
      exact ⟨s₁, m, rfl, hm, hpassed, hbelow, rfl, rolledBack_eq .., rfl, rfl, rfl⟩

/-- A line is done with where it is written and a chunk is left that is not filled. -/
theorem nextLine_ends {d m : Nat} {rest p : List UInt8} {ps : List (List UInt8)} {s s₁ : State}
    (hpieces : pieces settings.separator rest = p :: ps) (hlen : s.written + rest.length = n) (hs : OnTarget n N d s)
    (hemit : emit canOpen kth p s = .ok s₁) (hm : s.chunkNumber ≤ m) (hroom : s.written + p.length < bound n N m + d)
    (hfuel : m - s.chunkNumber < fuel) :
    ∃ s' m', nextLine canOpen settings n N kth fuel (chomp settings.separator p) s = .ok s' ∧
      Moved settings n N kth p d m' s s₁ s' := by
  obtain ⟨t, ht⟩ := advance_ends (q := -1) hm hroom hfuel
  obtain ⟨hnumber, htarget, hwritten⟩ := emit_frame hemit
  have hnext : ∃ s', nextLine canOpen settings n N kth fuel (chomp settings.separator p) s = .ok s' := by
    unfold nextLine
    simp only [restored_chomp hpieces hlen, hemit, hnumber, htarget, hwritten, hs.target, ht]
    exact ⟨_, rfl⟩
  obtain ⟨s', hs'⟩ := hnext
  obtain ⟨s₂, m', hemit', hmoved⟩ := nextLine_ok hpieces hlen hs hs'
  obtain rfl : s₁ = s₂ := Except.ok.inj (hemit.symm.trans hemit')
  exact ⟨s', m', hs', hmoved⟩

/-- Behind a line the loop over the lines is left or goes on. -/
theorem linesLoop_cons {line : List UInt8} {s s' : State}
    (h : nextLine canOpen settings n N kth fuel line s = .ok s') (lines : List (List UInt8)) :
    linesLoop canOpen settings n N kth fuel (line :: lines) s =
      if kth.any (s'.chunkNumber > ·) then .ok s' else linesLoop canOpen settings n N kth fuel lines s' := by
  simp only [linesLoop, h]

end Peiosutils.Split
