import Peiosutils.Head.AllButBytes
import Peiosutils.Lib.LastLines

/-!
# All but the last lines, and the first lines

What is written is the text without its last `n` lines, exactly when no count overflows (`copyAllButNLines_iff`). The
first lines are taken whatever the reads are (`readAll_eq`).
-/

set_option autoImplicit false

namespace Peiosutils.Head

open Lines
open While (Stop)

namespace TakeAllLinesBuffer

variable {sep : UInt8} {b : TakeAllLinesBuffer}

/-- The counts of a buffer are those of what remains of it. -/
structure Valid (sep : UInt8) (b : TakeAllLinesBuffer) : Prop where
  inner : b.inner.Valid
  terminatedLines : b.terminatedLines = b.inner.remainingBuffer.count sep
  partialLine : b.inner.remainingBuffer ≠ [] → b.partialLine = !decide (Terminated sep b.inner.remainingBuffer)

theorem filled_valid (sep : UInt8) (read : Bytes) : (filled sep read).Valid sep := by
  refine ⟨TakeAllBuffer.filled_valid read, rfl, fun hne => ?_⟩
  have hread : (filled sep read).inner.remainingBuffer = read := rfl
  rw [hread] at hne ⊢
  have hlast := List.getLast?_eq_some_getLast hne
  simp only [filled, Terminated, hlast, Option.some.injEq, hne, false_or]
  rw [Bool.eq_iff_iff]
  simp

theorem lengthOfLines_eq {k : Nat} {c : Bytes} (h : k ≤ c.count sep) :
    lengthOfLines sep k c = some (firstLines sep k c).length := by
  induction c generalizing k with
  | nil =>
    obtain rfl := Nat.le_zero.1 h
    rfl
  | cons x xs ih =>
    cases k with
    | zero => rfl
    | succ k =>
      rw [lengthOfLines, firstLines]
      by_cases hx : x = sep
      · rw [if_pos hx, if_pos hx, ih, List.length_cons]
        · rfl
        · rw [hx, List.count_cons_self] at h
          omega
      · rw [if_neg hx, if_neg hx, ih, List.length_cons]
        · rfl
        · rwa [List.count_cons_of_ne hx] at h

/-- A buffer is written up to its `k`-th separator, or as a whole. -/
theorem writeLines_ok (hb : b.Valid sep) {k : Nat} (hk : 0 < k) :
    ∃ lines b', b.writeLines k sep = .ok (firstLines sep k b.inner.remainingBuffer, lines, b') ∧
      b'.inner.remainingBuffer = skip sep k b.inner.remainingBuffer ∧ b'.Valid sep ∧
      lines + b'.terminatedLines = b.terminatedLines := by
  generalize hc : b.inner.remainingBuffer = c at *
  have hinner := hb.inner
  have hcount := hb.terminatedLines
  have hopen := hb.partialLine
  rw [hc] at hcount hopen
  have hlen : (firstLines sep k c).length ≤ b.inner.remainingBytes := by
    rw [TakeAllBuffer.remainingBytes, hc, ← take_length_firstLines, List.length_take]
    exact Nat.min_le_right _ _
  obtain ⟨hwrite, hvalid, hremaining⟩ := TakeAllBuffer.writeBytesExact_ok hinner hlen
  rw [hc, drop_length_firstLines] at hremaining
  rw [hc, take_length_firstLines] at hwrite
  by_cases hlt : b.terminatedLines < k
  · have hwhole : firstLines sep k c = c := firstLines_of_count_lt (hcount ▸ hlt)
    have hskip : skip sep k c = [] := skip_of_count_lt (hcount ▸ hlt)
    have hbytes : (firstLines sep k c).length = b.inner.remainingBytes := by
      rw [hwhole, TakeAllBuffer.remainingBytes, hc]
    refine ⟨b.terminatedLines, ⟨{ b.inner with startIndex := b.inner.startIndex + (firstLines sep k c).length }, 0,
      b.partialLine⟩, ?_, hremaining, ⟨hvalid, ?_, ?_⟩, Nat.add_zero _⟩
    · rw [writeLines, if_neg (Nat.ne_of_gt hk), if_pos hlt, TakeAllBuffer.writeAll, ← hbytes, hwrite]
      rfl
    · rw [hremaining, hskip]
      rfl
    · intro hne
      exact absurd (hremaining.trans hskip) hne
  · have hle : k ≤ c.count sep := by omega
    have hsplit := congrArg (List.count sep) (@firstLines_append_skip _ _ sep k c)
    rw [List.count_append, count_firstLines hle] at hsplit
    refine ⟨k, { b with inner := _, terminatedLines := b.terminatedLines - k }, ?_, hremaining, ⟨hvalid, ?_, ?_⟩, ?_⟩
    · rw [writeLines, if_neg (Nat.ne_of_gt hk), if_neg hlt, hc, lengthOfLines_eq hle]
      simp only [hwrite, sub, bind, Except.bind]
      rw [if_pos (by omega)]
      rfl
    · rw [hremaining]
      dsimp only
      omega
    · intro hne
      rw [hremaining] at hne ⊢
      have hcne : c ≠ [] := fun hnil => hne (by rw [hnil, skip_nil])
      have hterminated : Terminated sep c ↔ Terminated sep (skip sep k c) := by
        conv_lhs => rw [← @firstLines_append_skip _ _ sep k c]
        rw [terminated_append hne]
      dsimp only
      rw [hopen hcne]
      simp only [hterminated]
    · dsimp only
      omega

end TakeAllLinesBuffer

variable {n : Nat} {sep : UInt8} {s : LinesCopy} {c : Bytes} {cs : List Bytes}

/-- The state between two turns, where the text is left to be written or held back. -/
structure LinesCopy.Holds (sep : UInt8) (s : LinesCopy) (cs : List Bytes) : Prop where
  left : (s.buffers.map fun b => b.inner.remainingBuffer) ++ s.unread = cs
  buffered : s.bufferedTerminatedLines = (s.buffers.map TakeAllLinesBuffer.terminatedLines).sum
  fits : s.bufferedTerminatedLines ≤ usizeMax
  total : s.totalBytesCopied ≤ usizeMax
  valid : ∀ b ∈ s.buffers, b.Valid sep
  nonempty : ∀ c ∈ cs, c ≠ []
  reads : ∀ read ∈ s.unread, read.length ≤ bufSize

theorem tests_enoughLines (n : Nat) : Tests TakeAllLinesBuffer.terminatedLines n (n + 1) (enoughLines n) := by
  intro buffered front
  unfold enoughLines add
  split
  · simp only [bind, Except.bind, pure, Except.pure, Except.ok.injEq, decide_eq_decide]
    omega
  · rfl

/-- The number of lines that are left. -/
def lineCount (sep : UInt8) (cs : List Bytes) : Nat := (pieces sep cs.flatten).length

/-- When the loop comes to the read behind a front buffer: there are more than `n` lines left, or `n` and the front
buffer ends with a line. -/
def ReachedLines (sep : UInt8) (n : Nat) (front : Bytes) (after : List Bytes) : Prop :=
  n < lineCount sep after ∨ n = lineCount sep after ∧ front.getLast? = some sep

/-- Where the last buffer is read, its flag is that of the text. -/
theorem backPartialLine_eq {buffers : List TakeAllLinesBuffer} (hne : buffers ≠ []) (hvalid : ∀ b ∈ buffers, b.Valid sep)
    (htext : ∀ b ∈ buffers, b.inner.remainingBuffer ≠ []) : backPartialLine buffers =
      .ok (!decide (Terminated sep (buffers.map fun b => b.inner.remainingBuffer).flatten)) := by
  obtain ⟨before, back, rfl⟩ : ∃ before back, buffers = before ++ [back] :=
    ⟨_, _, (List.dropLast_append_getLast hne).symm⟩
  have hmem : back ∈ before ++ [back] := List.mem_append_right _ List.mem_cons_self
  have hterminated : Terminated sep ((before ++ [back]).map fun b => b.inner.remainingBuffer).flatten ↔
      Terminated sep back.inner.remainingBuffer := by
    rw [List.map_append, List.flatten_append, List.map_singleton, List.flatten_singleton, terminated_append (htext _ hmem)]
  rw [backPartialLine, List.getLast?_concat]
  dsimp only
  rw [(hvalid _ hmem).partialLine (htext _ hmem)]
  simp only [hterminated]

/-- Where nothing overflows, a turn leaves where at most `n` lines are left, and otherwise writes from the front. -/
theorem copyLinesTurn_spec (hn : 0 < n) (h : s.Holds sep (c :: cs)) :
    ((n + c.count sep ≤ usizeMax ∧ Room (n + 1) (c.count sep) 0 (cs.map (List.count sep))) ∧
      (lineCount sep (c :: cs) ≤ n ∧ copyLinesTurn n sep s = .ok (.inr (s.written, s.totalBytesCopied)) ∨
        n < lineCount sep (c :: cs) ∧ ∃ k, k = lineCount sep (c :: cs) - n ∧
          (usizeMax < s.totalBytesCopied + (firstLines sep k c).length ∧ copyLinesTurn n sep s = .error .panic ∨
            ∃ s', copyLinesTurn n sep s = .ok (.inl s') ∧ s'.written = s.written ++ firstLines sep k c ∧
              s'.totalBytesCopied = s.totalBytesCopied + (firstLines sep k c).length ∧
              s'.Holds sep (if skip sep k c = [] then cs else skip sep k c :: cs)))) ∨
      ¬ (n + c.count sep ≤ usizeMax ∧ Room (n + 1) (c.count sep) 0 (cs.map (List.count sep))) ∧
        copyLinesTurn n sep s = .error .panic := by
  have hcountLe : ∀ read : Bytes, read.count sep ≤ read.length := fun read => List.count_le_length
  have hfill := @fillBuffers_left (n + 1) TakeAllLinesBuffer (.filled sep) TakeAllLinesBuffer.terminatedLines
    (enoughLines n) n (tests_enoughLines n) (fun b => b.inner.remainingBuffer) (List.count sep) (fun _ => ⟨rfl, rfl⟩) _ _ c
    cs h.left (fun b hb => (h.valid b hb).terminatedLines) (h.buffered ▸ h.fits) fun read hread =>
      Nat.le_trans (hcountLe read) (Nat.le_trans (h.reads read hread) bufSize_le)
  rw [← h.buffered] at hfill
  rcases hfill with ⟨hroom, front, rest, buffered, left, taken, hfill, hbuffers, hunread, hfront, hcs, hbuffered, hmax,
    hend⟩ | ⟨hroom, hfill⟩
  swap
  · refine .inr ⟨hroom, ?_⟩
    simp only [copyLinesTurn, hfill, bind, Except.bind]
  refine .inl ⟨hroom, ?_⟩
  have hvalid : ∀ b ∈ front :: rest, b.Valid sep := by
    intro b hb
    rw [hbuffers] at hb
    rcases List.mem_append.1 hb with hb | hb
    · exact h.valid b hb
    · obtain ⟨read, -, rfl⟩ := List.mem_map.1 hb
      exact TakeAllLinesBuffer.filled_valid sep read
  have htexts : c :: cs = ((front :: rest).map fun b => b.inner.remainingBuffer) ++ left := by
    rw [List.map_cons, hfront, List.cons_append, hcs]
  have hnonempty : ∀ b ∈ front :: rest, b.inner.remainingBuffer ≠ [] := fun b hb =>
    h.nonempty _ (htexts ▸ List.mem_append_left _ (List.mem_map_of_mem hb))
  have hback := backPartialLine_eq (List.cons_ne_nil front rest) hvalid hnonempty
  have hsum : ((front :: rest).map TakeAllLinesBuffer.terminatedLines).sum =
      ((front :: rest).map fun b => b.inner.remainingBuffer).flatten.count sep := by
    rw [List.count_flatten, List.map_map]
    exact congrArg List.sum (List.map_congr_left fun b hb => (hvalid b hb).terminatedLines)
  generalize htext : ((front :: rest).map fun b => b.inner.remainingBuffer) = texts at *
  rw [← hbuffered] at hsum
  have hlines : lineCount sep texts = buffered + if Terminated sep texts.flatten then 0 else 1 := by
    rw [lineCount, length_pieces, ← hsum]
  have hall : left = [] → lineCount sep (c :: cs) = lineCount sep texts := by
    rintro rfl
    rw [htexts, List.append_nil]
  have hge : buffered ≤ lineCount sep (c :: cs) := by
    rw [lineCount, length_pieces, htexts, List.flatten_append, List.count_append, ← hsum]
    omega
  have hdone : allHeldBack n (front :: rest) buffered = .ok (decide (lineCount sep texts ≤ n)) := by
    rw [allHeldBack, hback]
    by_cases hlt : buffered < n
    · rw [if_pos hlt, decide_eq_true]
      split at hlines <;> omega
    · rw [if_neg hlt]
      by_cases heq : buffered = n
      · rw [if_pos heq, hlines]
        by_cases hT : Terminated sep texts.flatten
        · simp [hT, heq]
        · simp [hT, heq]
      · rw [if_neg heq, decide_eq_false]
        omega
  by_cases hle : lineCount sep texts ≤ n
  · have hcount := hall (hend.resolve_left (by split at hlines <;> omega))
    refine .inl ⟨by omega, ?_⟩
    simp only [copyLinesTurn, hfill, bind, Except.bind, hdone, decide_eq_true hle]
    rfl
  have htoWrite : linesToWrite n (front :: rest) buffered = .ok (lineCount sep texts - n) := by
    have hexcess : sub buffered n = .ok (buffered - n) := by
      rw [sub, if_pos (by split at hlines <;> omega)]
    simp only [linesToWrite, hexcess, hback, bind, Except.bind]
    by_cases hT : Terminated sep texts.flatten
    · simp only [hlines, hT, decide_true, Bool.not_true, Bool.false_eq_true, if_false, if_true, Nat.add_zero]
    · simp only [hlines, hT, decide_false, Bool.not_false, if_true, if_false, add]
      rw [if_pos (by omega)]
      rw [hlines, if_neg hT] at hle
      exact congrArg Except.ok (by omega)
  obtain ⟨k, hk⟩ : ∃ k, k = lineCount sep (c :: cs) - n := ⟨_, rfl⟩
  refine .inr ⟨?_, k, hk, ?_⟩
  · rcases hend with hend | hend
    · omega
    · rw [hall hend]
      omega
  have hsame : firstLines sep (lineCount sep texts - n) c = firstLines sep k c ∧
      skip sep (lineCount sep texts - n) c = skip sep k c := by
    rcases hend with hend | hend
    · have h₁ : c.count sep < lineCount sep texts - n := by split at hlines <;> omega
      have h₂ : c.count sep < k := by omega
      rw [firstLines_of_count_lt h₁, firstLines_of_count_lt h₂, skip_of_count_lt h₁, skip_of_count_lt h₂]
      exact ⟨rfl, rfl⟩
    · rw [hk, hall hend]
      exact ⟨rfl, rfl⟩
  obtain ⟨lines, front', hwrite, hremaining, hvalid', hterminated⟩ :=
    TakeAllLinesBuffer.writeLines_ok (hvalid front List.mem_cons_self) (Nat.sub_pos_of_lt (Nat.lt_of_not_le hle))
  rw [hfront, hsame.1] at hwrite
  rw [hfront, hsame.2] at hremaining
  have hfrontLe : buffered = front.terminatedLines + (rest.map TakeAllLinesBuffer.terminatedLines).sum := by
    rw [hbuffered, List.map_cons, List.sum_cons]
  have hsub : sub buffered lines = .ok (buffered - lines) := by rw [sub, if_pos (by omega)]
  have hempty : front'.isEmpty = .ok (skip sep k c).isEmpty := by
    rw [TakeAllLinesBuffer.isEmpty, TakeAllBuffer.isEmpty_ok hvalid'.inner, hremaining]
  by_cases htotal : s.totalBytesCopied + (firstLines sep k c).length ≤ usizeMax
  swap
  · refine .inl ⟨by omega, ?_⟩
    have hadd : add s.totalBytesCopied (firstLines sep k c).length = .error .panic := by rw [add, if_neg htotal]
    simp only [copyLinesTurn, hfill, bind, Except.bind, hdone, decide_eq_false hle, Bool.false_eq_true, if_false, htoWrite,
      hwrite, hsub, hadd]
  refine .inr ⟨⟨if (skip sep k c).isEmpty then rest else front' :: rest, buffered - lines,
    s.totalBytesCopied + (firstLines sep k c).length, left, s.written ++ firstLines sep k c⟩, ?_, rfl, rfl, ?_⟩
  · have hadd : add s.totalBytesCopied (firstLines sep k c).length =
        .ok (s.totalBytesCopied + (firstLines sep k c).length) := by rw [add, if_pos htotal]
    simp only [copyLinesTurn, hfill, bind, Except.bind, hdone, decide_eq_false hle, Bool.false_eq_true, if_false, htoWrite,
      hwrite, hsub, hadd, hempty]
    rfl
  have hreads : ∀ read ∈ left, read.length ≤ bufSize := fun read hread =>
    h.reads read (hunread ▸ List.mem_append_right _ hread)
  have hne : ∀ d ∈ cs, d ≠ [] := fun d hd => h.nonempty d (List.mem_cons_of_mem _ hd)
  have hfront' := hvalid'.terminatedLines
  rw [hremaining] at hfront'
  by_cases hskip : skip sep k c = []
  · rw [hskip, List.count_nil] at hfront'
    rw [hskip, if_pos rfl]
    refine ⟨hcs, ?_, by dsimp only; omega, htotal, fun b hb => hvalid b (List.mem_cons_of_mem _ hb), hne, hreads⟩
    dsimp only
    rw [List.isEmpty_nil, if_pos rfl]
    omega
  · rw [List.isEmpty_eq_false_iff.2 hskip, if_neg hskip]
    refine ⟨?_, ?_, by dsimp only; omega, htotal, ?_, ?_, hreads⟩
    · dsimp only
      rw [if_neg Bool.false_ne_true, List.map_cons, hremaining, List.cons_append, hcs]
    · dsimp only
      rw [if_neg Bool.false_ne_true, List.map_cons, List.sum_cons]
      omega
    · intro b hb
      rw [if_neg Bool.false_ne_true] at hb
      rcases List.mem_cons.1 hb with rfl | hb
      · exact hvalid'
      · exact hvalid b (List.mem_cons_of_mem _ hb)
    · intro d hd
      rcases List.mem_cons.1 hd with rfl | hd
      · exact hskip
      · exact hne d hd

theorem lineCount_cons (c : Bytes) {cs : List Bytes} (h : cs.flatten ≠ []) :
    lineCount sep (c :: cs) = c.count sep + lineCount sep cs := by
  rw [lineCount, List.flatten_cons, length_pieces_append c h, lineCount]

theorem lineCount_cons_nil (c : Bytes) {cs : List Bytes} (h : cs.flatten = []) :
    lineCount sep (c :: cs) = (pieces sep c).length ∧ lineCount sep cs = 0 := by
  rw [lineCount, lineCount, List.flatten_cons, h, List.append_nil]
  exact ⟨rfl, rfl⟩

/-- The loop comes to the next read when the front buffer is among the lines that are written. -/
theorem reachedLines_iff (hn : 0 < n) (hc : c ≠ []) :
    ReachedLines sep n c cs ↔ (pieces sep c).length + n ≤ lineCount sep (c :: cs) := by
  unfold ReachedLines
  have hterminated : Terminated sep c ↔ c.getLast? = some sep := by simp [Terminated, hc]
  have hpieces := @pieces_length_pos _ _ sep _ hc
  by_cases h : cs.flatten = []
  · obtain ⟨h₁, h₂⟩ := @lineCount_cons_nil sep c _ h
    omega
  · rw [lineCount_cons c h, length_pieces, ← hterminated]
    by_cases hT : Terminated sep c
    · simp only [hT, if_true, and_true]
      omega
    · simp only [hT, if_false, and_false, or_false]
      omega

/-- A turn without a text leaves. -/
theorem copyLinesTurn_nil (hn : 0 < n) (h : s.Holds sep []) :
    copyLinesTurn n sep s = .ok (.inr (s.written, s.totalBytesCopied)) := by
  obtain ⟨hbuffers, hunread⟩ := List.append_eq_nil_iff.1 h.left
  have hbuffered := h.buffered
  rw [List.map_eq_nil_iff.1 hbuffers] at hbuffered
  have hzero : s.bufferedTerminatedLines = 0 := hbuffered
  simp only [copyLinesTurn, hunread, List.map_eq_nil_iff.1 hbuffers, hzero, fillBuffers, allHeldBack, bind, Except.bind,
    pure, Except.pure, if_pos hn, if_true]

/-- Where exactly the lines that are held back are left, a turn leaves. -/
theorem copyLinesTurn_held (hn : 0 < n) (h : s.Holds sep (c :: cs)) (hcount : lineCount sep (c :: cs) = n)
    (hroom : n + c.count sep ≤ usizeMax ∧ Room (n + 1) (c.count sep) 0 (cs.map (List.count sep))) :
    copyLinesTurn n sep s = .ok (.inr (s.written, s.totalBytesCopied)) := by
  rcases copyLinesTurn_spec hn h with ⟨-, ⟨-, hturn⟩ | ⟨hlt, -⟩⟩ | ⟨hnot, -⟩
  · exact hturn
  · exact absurd hcount (Nat.ne_of_gt hlt)
  · exact absurd hroom hnot

theorem butLastLines_flatten (n : Nat) (cs : List Bytes) :
    butLastLines sep n cs.flatten = firstLines sep (lineCount sep cs - n) cs.flatten :=
  butLastLines_eq n cs.flatten

/-- From any state, the text without its last `n` lines is written exactly when the counts do not overflow. -/
theorem copyLines_iff (hn : 0 < n) (h : s.Holds sep cs) :
    While.Ends (fun fuel => While.loop (copyLinesTurn n sep) fuel s) (fun r => r =
        (s.written ++ butLastLines sep n cs.flatten, s.totalBytesCopied + (butLastLines sep n cs.flatten).length)) ↔
      Fits n (n + 1) (List.count sep) (ReachedLines sep n) cs ∧
        s.totalBytesCopied + (butLastLines sep n cs.flatten).length ≤ usizeMax := by
  induction cs generalizing s with
  | nil =>
    rw [While.ends_loop_done (copyLinesTurn_nil hn h)]
    have htotal := h.total
    simp [Fits, htotal, butLastLines, pieces]
  | cons c cs ih =>
    have hc : c ≠ [] := h.nonempty c List.mem_cons_self
    have hpieces := @pieces_length_pos _ _ sep _ hc
    rcases copyLinesTurn_spec hn h with ⟨hroom, ⟨hle, hturn⟩ | ⟨hlt, k, hk, hstep⟩⟩ | ⟨hnot, hturn⟩
    · have hnothing : butLastLines sep n (c :: cs).flatten = [] := by
        rw [butLastLines_flatten, Nat.sub_eq_zero_of_le hle, firstLines_zero]
      rw [While.ends_loop_done hturn, hnothing, List.append_nil, List.length_nil, Nat.add_zero]
      refine ⟨fun _ => ⟨⟨hroom, fun hreached => ?_⟩, h.total⟩, fun _ => rfl⟩
      rw [reachedLines_iff hn hc] at hreached
      omega
    · have hall : butLastLines sep n (c :: cs).flatten =
          firstLines sep k c ++ firstLines sep (k - c.count sep) cs.flatten := by
        rw [butLastLines_flatten, ← hk, List.flatten_cons, firstLines_append]
      rw [hall, List.length_append]
      rcases hstep with ⟨hover, hturn⟩ | ⟨s', hturn, hwritten, htotal, hs'⟩
      · refine iff_of_false (While.not_ends_loop hturn) fun hfits => ?_
        have := hfits.2
        omega
      rw [While.ends_loop_next hturn]
      by_cases hskip : skip sep k c = []
      · rw [if_pos hskip] at hs'
        have hlength := skip_eq_nil_iff.1 hskip
        have hreached : ReachedLines sep n c cs := (reachedLines_iff hn hc).2 (by omega)
        have hrest : firstLines sep (k - c.count sep) cs.flatten = butLastLines sep n cs.flatten := by
          rw [butLastLines_flatten]
          by_cases hcs : cs.flatten = []
          · rw [hcs, firstLines_nil, firstLines_nil]
          · rw [hk, lineCount_cons c hcs, show c.count sep + lineCount sep cs - n - c.count sep =
              lineCount sep cs - n by omega]
        have hih := ih hs'
        rw [hwritten, htotal] at hih
        rw [hrest, ← List.append_assoc, ← Nat.add_assoc, hih, Fits]
        exact ⟨fun hfits => ⟨⟨hroom, fun _ => hfits.1⟩, hfits.2⟩, fun hfits => ⟨hfits.1.2 hreached, hfits.2⟩⟩
      · rw [if_neg hskip] at hs'
        have hlength := mt skip_eq_nil_iff.2 hskip
        have hcount : k ≤ c.count sep := by
          rw [length_pieces] at hlength
          split at hlength <;> omega
        have hheld : lineCount sep (skip sep k c :: cs) = n := by
          rw [lineCount, List.flatten_cons, ← skip_append_of_le hcount, pieces_skip, List.length_drop,
            ← List.flatten_cons]
          change lineCount sep (c :: cs) - k = n
          omega
        have hsplit := congrArg (List.count sep) (@firstLines_append_skip _ _ sep k c)
        rw [List.count_append] at hsplit
        have hroom' : n + (skip sep k c).count sep ≤ usizeMax ∧
            Room (n + 1) ((skip sep k c).count sep) 0 (cs.map (List.count sep)) :=
          ⟨by omega, hroom.2.mono (by omega)⟩
        have htotal' := hs'.total
        rw [htotal] at htotal'
        rw [While.ends_loop_done (copyLinesTurn_held hn hs' hheld hroom'), hwritten, htotal, Nat.sub_eq_zero_of_le hcount,
          firstLines_zero, List.append_nil, List.length_nil, Nat.add_zero]
        refine iff_of_true rfl ⟨⟨hroom, fun hreached => ?_⟩, htotal'⟩
        rw [reachedLines_iff hn hc] at hreached
        omega
    · exact iff_of_false (While.not_ends_loop hturn) fun hfits => hnot hfits.1.1

/-- **When `copy_all_but_n_lines` is right.** -/
theorem copyAllButNLines_iff (hn : 0 < n) (sep : UInt8) {reads : List Bytes} (hreads : IsReads reads) :
    While.Ends (copyAllButNLines n sep reads) (fun r =>
        r = (butLastLines sep n reads.flatten, (butLastLines sep n reads.flatten).length)) ↔
      Fits n (n + 1) (List.count sep) (ReachedLines sep n) reads ∧
        (butLastLines sep n reads.flatten).length ≤ usizeMax := by
  have hstart : LinesCopy.Holds sep ⟨[], 0, 0, reads, []⟩ reads :=
    ⟨rfl, rfl, Nat.zero_le _, Nat.zero_le _, by simp, fun c hc => (hreads c hc).1, fun c hc => (hreads c hc).2⟩
  have hiff := copyLines_iff hn hstart
  have hrun : copyAllButNLines n sep reads =
      fun fuel => While.loop (copyLinesTurn n sep) fuel ⟨[], 0, 0, reads, []⟩ := by
    funext fuel
    rw [copyAllButNLines, if_neg (Nat.ne_of_gt hn)]
  simp only [List.nil_append, Nat.zero_add] at hiff
  rw [hrun, hiff]

/-! ## The first lines -/

theorem TakeLines.scan_eq {limit : Nat} (h : 0 < limit) (c : Bytes) :
    c.take (scan sep limit c).1 = firstLines sep limit c ∧ (scan sep limit c).2 = limit - c.count sep := by
  induction c generalizing limit with
  | nil => exact ⟨by rw [firstLines_nil]; rfl, rfl⟩
  | cons b bs ih =>
    obtain ⟨l, rfl⟩ : ∃ l, limit = l + 1 := ⟨limit - 1, by omega⟩
    rw [scan, firstLines]
    by_cases hb : b = sep
    · rw [if_pos hb, if_pos hb, hb, List.count_cons_self, Nat.add_sub_cancel]
      by_cases hl : l = 0
      · subst hl
        rw [if_pos rfl, firstLines_zero]
        exact ⟨rfl, by omega⟩
      · obtain ⟨htake, hlimit⟩ := ih (Nat.pos_of_ne_zero hl)
        rw [if_neg hl]
        exact ⟨congrArg (sep :: ·) htake, by omega⟩
    · obtain ⟨htake, hlimit⟩ := ih h
      rw [if_neg hb, if_neg hb, List.count_cons_of_ne hb]
      exact ⟨congrArg (b :: ·) htake, hlimit⟩

/-- **What `take_lines` gives**, whatever the reads are. -/
theorem TakeLines.readAll_eq (limit : Nat) (sep : UInt8) (reads : List Bytes) :
    readAll ⟨limit, sep⟩ reads = firstLines sep limit reads.flatten := by
  induction reads generalizing limit with
  | nil => rw [List.flatten_nil, firstLines_nil, readAll]
  | cons read reads ih =>
    rw [readAll, TakeLines.read, List.flatten_cons, firstLines_append]
    dsimp only
    by_cases hlimit : limit = 0
    · subst hlimit
      rw [if_pos rfl, ih, firstLines_zero, firstLines_zero, Nat.zero_sub, firstLines_zero]
    · obtain ⟨htake, hleft⟩ := scan_eq (Nat.pos_of_ne_zero hlimit) read
      rw [if_neg hlimit, ih, htake, hleft]

/-! ## All of them -/

/-- The counts of bytes do not overflow. -/
def BytesFit (n : Nat) (reads : List Bytes) : Prop :=
  Fits n n List.length (ReachedBytes n) reads ∧ reads.flatten.length - n ≤ usizeMax

/-- The counts of lines, and of the bytes that are written, do not overflow. -/
def LinesFit (n : Nat) (sep : UInt8) (reads : List Bytes) : Prop :=
  Fits n (n + 1) (List.count sep) (ReachedLines sep n) reads ∧ (butLastLines sep n reads.flatten).length ≤ usizeMax

/-- **When head takes what it should**: all but the last bytes and all but the last lines when the counts do not overflow,
and the first lines always. -/
theorem takes_iff (n : Nat) (sep : UInt8) {reads : List Bytes} (hreads : IsReads reads) :
    (While.Ends (copyAllButNBytes n reads) (fun r =>
        r = (reads.flatten.take (reads.flatten.length - n), reads.flatten.length - n)) ↔ BytesFit n reads) ∧
      (0 < n → (While.Ends (copyAllButNLines n sep reads) (fun r =>
        r = (butLastLines sep n reads.flatten, (butLastLines sep n reads.flatten).length)) ↔ LinesFit n sep reads)) ∧
      ∀ limit, TakeLines.readAll ⟨limit, sep⟩ reads = ((pieces sep reads.flatten).take limit).flatten :=
  ⟨copyAllButNBytes_iff n hreads, fun hn => copyAllButNLines_iff hn sep hreads, fun limit => by
    rw [TakeLines.readAll_eq, firstLines_eq]⟩

/-- Two reads, where the last line is held back. -/
theorem takes_iff_two :
    (While.Ends (copyAllButNBytes 2 [[97, 10], [98]]) (fun r => r = ([97], 1)) ↔ BytesFit 2 [[97, 10], [98]]) ∧
      (0 < 1 → (While.Ends (copyAllButNLines 1 10 [[97, 10], [98]]) (fun r => r = ([97, 10], 2)) ↔
        LinesFit 1 10 [[97, 10], [98]])) ∧
      ∀ limit, TakeLines.readAll ⟨limit, 10⟩ [[97, 10], [98]] = ([[97, 10], [98]].take limit).flatten :=
  have hreads : IsReads [[97, 10], [98]] := by decide
  ⟨(takes_iff 2 10 hreads).1, (takes_iff 1 10 hreads).2⟩

/-- One byte, where the largest number of bytes is to be held back: the look-ahead sum overflows. -/
theorem hold_back_overflows : ¬ ∀ n reads, n ≤ usizeMax → IsReads reads → While.Ends (copyAllButNBytes n reads)
    fun r => r = (reads.flatten.take (reads.flatten.length - n), reads.flatten.length - n) := fun h =>
  While.not_ends_loop (e := .panic) (by rfl) (h usizeMax [[97]] (Nat.le_refl _) (by decide))

end Peiosutils.Head
