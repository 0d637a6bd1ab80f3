import Peiosutils.Head.Take

/-!
# All but the last bytes

What is written is the text without its last `n` bytes, exactly when no count overflows (`copyAllButNBytes_iff`).
-/

set_option autoImplicit false

namespace Peiosutils.Head

open While (Stop)

namespace TakeAllBuffer

variable {b : TakeAllBuffer}

/-- The buffer is written up to its start index. -/
def Valid (b : TakeAllBuffer) : Prop := b.startIndex ≤ b.buffer.length

theorem remainingBytes_eq (b : TakeAllBuffer) : b.remainingBytes = b.buffer.length - b.startIndex :=
  List.length_drop

/-- What is in the buffer can be written. -/
theorem writeBytesExact_ok (hb : b.Valid) {bytes : Nat} (h : bytes ≤ b.remainingBytes) :
    b.writeBytesExact bytes = .ok (b.remainingBuffer.take bytes, { b with startIndex := b.startIndex + bytes }) ∧
      Valid { b with startIndex := b.startIndex + bytes } ∧
      remainingBuffer { b with startIndex := b.startIndex + bytes } = b.remainingBuffer.drop bytes := by
  have hle : b.startIndex + bytes ≤ b.buffer.length := by
    rw [remainingBytes_eq] at h
    unfold Valid at hb
    omega
  refine ⟨?_, hle, ?_⟩
  · rw [writeBytesExact, if_neg (Nat.not_lt.2 h), if_neg (Nat.not_lt.2 hle)]
  · simp only [remainingBuffer, List.drop_drop]

theorem isEmpty_ok (hb : b.Valid) : b.isEmpty = .ok b.remainingBuffer.isEmpty := by
  have hempty : (b.startIndex == b.buffer.length) = b.remainingBuffer.isEmpty := by
    unfold Valid at hb
    rw [Bool.eq_iff_iff, beq_iff_eq, List.isEmpty_iff, remainingBuffer, List.drop_eq_nil_iff]
    omega
  rw [isEmpty, if_neg (Nat.not_lt.2 hb), hempty]

theorem filled_valid (read : Bytes) : (filled read).Valid := Nat.zero_le _

end TakeAllBuffer

variable {n : Nat} {s : BytesCopy} {c : Bytes} {cs : List Bytes}

/-- The state between two turns, where the text is left to be written or held back. -/
structure BytesCopy.Holds (s : BytesCopy) (cs : List Bytes) : Prop where
  left : s.buffers.map TakeAllBuffer.remainingBuffer ++ s.unread = cs
  buffered : s.bufferedBytes = (s.buffers.map TakeAllBuffer.remainingBytes).sum
  fits : s.bufferedBytes ≤ usizeMax
  total : s.totalBytesCopied ≤ usizeMax
  valid : ∀ b ∈ s.buffers, b.Valid
  nonempty : ∀ c ∈ cs, c ≠ []
  reads : ∀ read ∈ s.unread, read.length ≤ bufSize

theorem tests_enoughBytes (n : Nat) : Tests TakeAllBuffer.remainingBytes n n (enoughBytes n) := by
  intro buffered front
  unfold enoughBytes add
  split <;> rfl

theorem bufSize_le : bufSize ≤ usizeMax := by decide

/-- When the loop comes to the read behind a front buffer: at least `n` bytes are left. -/
def ReachedBytes (n : Nat) (_ : Bytes) (after : List Bytes) : Prop := n ≤ after.flatten.length

/-- Where nothing overflows, a turn leaves where at most `n` bytes are left, and otherwise writes from the front. -/
theorem copyBytesTurn_spec (h : s.Holds (c :: cs)) :
    ((n + c.length ≤ usizeMax ∧ Room n c.length 0 (cs.map List.length)) ∧
      ((c :: cs).flatten.length ≤ n ∧ copyBytesTurn n s = .ok (.inr (s.written, s.totalBytesCopied)) ∨
        n < (c :: cs).flatten.length ∧ ∃ k, k = min c.length ((c :: cs).flatten.length - n) ∧
          (usizeMax < s.totalBytesCopied + k ∧ copyBytesTurn n s = .error .panic ∨
            ∃ s', copyBytesTurn n s = .ok (.inl s') ∧ s'.written = s.written ++ c.take k ∧
              s'.totalBytesCopied = s.totalBytesCopied + k ∧
              s'.Holds (if c.drop k = [] then cs else c.drop k :: cs)))) ∨
      ¬ (n + c.length ≤ usizeMax ∧ Room n c.length 0 (cs.map List.length)) ∧ copyBytesTurn n s = .error .panic := by
  have hfill := @fillBuffers_left n TakeAllBuffer .filled TakeAllBuffer.remainingBytes (enoughBytes n) n
    (tests_enoughBytes n) TakeAllBuffer.remainingBuffer List.length (fun _ => ⟨rfl, rfl⟩) _ _ c cs h.left
    (fun _ _ => rfl) (h.buffered ▸ h.fits) fun read hread => Nat.le_trans (h.reads read hread) bufSize_le
  rw [← h.buffered] at hfill
  rcases hfill with ⟨hroom, front, rest, buffered, left, taken, hfill, hbuffers, hunread, hfront, hcs, hbuffered, hmax,
    hend⟩ | ⟨hroom, hfill⟩
  swap
  · refine .inr ⟨hroom, ?_⟩
    simp only [copyBytesTurn, hfill, bind, Except.bind]
  refine .inl ⟨hroom, ?_⟩
  have hpos : 0 < c.length := List.length_pos_of_ne_nil (h.nonempty c List.mem_cons_self)
  have hvalid : ∀ b ∈ front :: rest, b.Valid := by
    intro b hb
    rw [hbuffers] at hb
    rcases List.mem_append.1 hb with hb | hb
    · exact h.valid b hb
    · obtain ⟨read, -, rfl⟩ := List.mem_map.1 hb
      exact TakeAllBuffer.filled_valid read
  have hlength : (c :: cs).flatten.length = buffered + left.flatten.length := by
    have hrest : (rest.map TakeAllBuffer.remainingBuffer).flatten.length =
        (rest.map TakeAllBuffer.remainingBytes).sum := by
      rw [List.length_flatten, List.map_map]
      rfl
    rw [hbuffered, ← hcs, ← hfront, List.flatten_cons, List.length_append, List.flatten_append, List.length_append, hrest,
      List.map_cons, List.sum_cons, Nat.add_assoc]
    rfl
  have hleft : left = [] → (c :: cs).flatten.length = buffered := by
    rintro rfl
    simpa using hlength
  have hfrontBytes : front.remainingBytes = c.length := congrArg List.length hfront
  have hbytes : c.length ≤ buffered := by
    rw [hbuffered, List.map_cons, List.sum_cons, hfrontBytes]
    exact Nat.le_add_right _ _
  by_cases hle : buffered ≤ n
  · have hall := hleft (hend.resolve_left (by omega))
    refine .inl ⟨by omega, ?_⟩
    simp only [copyBytesTurn, hfill, bind, Except.bind, if_pos hle]
    rfl
  obtain ⟨k, hk⟩ : ∃ k, k = min c.length (buffered - n) := ⟨_, rfl⟩
  refine .inr ⟨by omega, k, ?_, ?_⟩
  · rcases hend with hend | hend
    · omega
    · rw [hleft hend, hk]
  obtain ⟨hwrite, hvalid', hremaining⟩ := TakeAllBuffer.writeBytesExact_ok (hvalid front List.mem_cons_self)
    (show k ≤ front.remainingBytes by omega)
  rw [hfront] at hremaining
  have hlimit : front.writeBytesLimit (buffered - n) = front.writeBytesExact k := by
    rw [TakeAllBuffer.writeBytesLimit, hfrontBytes, hk]
  have hout : (c.take k).length = k := by
    rw [List.length_take]
    omega
  have hempty := TakeAllBuffer.isEmpty_ok hvalid'
  rw [hremaining] at hempty
  by_cases htotal : s.totalBytesCopied + k ≤ usizeMax
  swap
  · refine .inl ⟨by omega, ?_⟩
    simp only [copyBytesTurn, hfill, bind, Except.bind, if_neg hle, hlimit, hwrite, hfront, hout, sub, add]
    rw [if_pos (by omega), if_neg htotal]
  refine .inr ⟨⟨if (c.drop k).isEmpty then rest else { front with startIndex := front.startIndex + k } :: rest,
    buffered - k, s.totalBytesCopied + k, left, s.written ++ c.take k⟩, ?_, rfl, rfl, ?_⟩
  · simp only [copyBytesTurn, hfill, bind, Except.bind, if_neg hle, hlimit, hwrite, hfront, hout, sub, add]
    rw [if_pos (by omega), if_pos htotal]
    simp only [hempty]
    rfl
  have hreads : ∀ read ∈ left, read.length ≤ bufSize := fun read hread =>
    h.reads read (hunread ▸ List.mem_append_right _ hread)
  have hnonempty : ∀ d ∈ cs, d ≠ [] := fun d hd => h.nonempty d (List.mem_cons_of_mem _ hd)
  have hsum : buffered = c.length + (rest.map TakeAllBuffer.remainingBytes).sum := by
    rw [hbuffered, List.map_cons, List.sum_cons, hfrontBytes]
  by_cases hdrop : c.drop k = []
  · have hkc : k = c.length := by
      rw [List.drop_eq_nil_iff] at hdrop
      omega
    rw [hdrop, if_pos rfl]
    refine ⟨hcs, ?_, by dsimp only; omega, htotal, fun b hb => hvalid b (List.mem_cons_of_mem _ hb), hnonempty, hreads⟩
    dsimp only
    rw [List.isEmpty_nil, if_pos rfl, hkc]
    omega
  · rw [List.isEmpty_eq_false_iff.2 hdrop, if_neg hdrop]
    refine ⟨?_, ?_, by dsimp only; omega, htotal, ?_, ?_, hreads⟩
    · dsimp only
      rw [if_neg Bool.false_ne_true, List.map_cons, hremaining, List.cons_append, hcs]
    · have hbytes' : TakeAllBuffer.remainingBytes { front with startIndex := front.startIndex + k } = c.length - k := by
        rw [TakeAllBuffer.remainingBytes, hremaining, List.length_drop]
      dsimp only
      rw [if_neg Bool.false_ne_true, List.map_cons, List.sum_cons, hbytes']
      omega
    · intro b hb
      rw [if_neg Bool.false_ne_true] at hb
      rcases List.mem_cons.1 hb with rfl | hb
      · exact hvalid'
      · exact hvalid b (List.mem_cons_of_mem _ hb)
    · intro d hd
      rcases List.mem_cons.1 hd with rfl | hd
      · exact hdrop
      · exact hnonempty d hd

/-- A turn without a text leaves. -/
theorem copyBytesTurn_nil (h : s.Holds []) : copyBytesTurn n s = .ok (.inr (s.written, s.totalBytesCopied)) := by
  obtain ⟨hbuffers, hunread⟩ := List.append_eq_nil_iff.1 h.left
  have hbuffered := h.buffered
  rw [List.map_eq_nil_iff.1 hbuffers] at hbuffered
  have hzero : s.bufferedBytes = 0 := hbuffered
  simp only [copyBytesTurn, hunread, List.map_eq_nil_iff.1 hbuffers, hzero, fillBuffers, bind, Except.bind, pure,
    Except.pure, if_pos (Nat.zero_le n)]

/-- Where exactly the text that is held back is left, a turn leaves. -/
theorem copyBytesTurn_held (h : s.Holds (c :: cs)) (hlength : (c :: cs).flatten.length = n)
    (hroom : n + c.length ≤ usizeMax ∧ Room n c.length 0 (cs.map List.length)) :
    copyBytesTurn n s = .ok (.inr (s.written, s.totalBytesCopied)) := by
  rcases copyBytesTurn_spec h with ⟨-, ⟨-, hturn⟩ | ⟨hlt, -⟩⟩ | ⟨hnot, -⟩
  · exact hturn
  · exact absurd hlength (Nat.ne_of_gt hlt)
  · exact absurd hroom hnot

/-- From any state, the text without its last `n` bytes is written exactly when the counts do not overflow. -/
theorem copyBytes_iff (h : s.Holds cs) :
    While.Ends (fun fuel => While.loop (copyBytesTurn n) fuel s) (fun r => r =
        (s.written ++ cs.flatten.take (cs.flatten.length - n), s.totalBytesCopied + (cs.flatten.length - n))) ↔
      Fits n n List.length (ReachedBytes n) cs ∧ s.totalBytesCopied + (cs.flatten.length - n) ≤ usizeMax := by
  induction cs generalizing s with
  | nil =>
    rw [While.ends_loop_done (copyBytesTurn_nil h)]
    have htotal := h.total
    simp [Fits, htotal]
  | cons c cs ih =>
    have hpos : 0 < c.length := List.length_pos_of_ne_nil (h.nonempty c List.mem_cons_self)
    have hsplit : (c :: cs).flatten.length = c.length + cs.flatten.length := by
      rw [List.flatten_cons, List.length_append]
    rcases copyBytesTurn_spec h with ⟨hroom, ⟨hle, hturn⟩ | ⟨hlt, k, hk, hstep⟩⟩ | ⟨hnot, hturn⟩
    · rw [While.ends_loop_done hturn, Nat.sub_eq_zero_of_le hle, List.take_zero, List.append_nil, Nat.add_zero]
      refine ⟨fun _ => ⟨⟨hroom, fun hreached => ?_⟩, h.total⟩, fun _ => rfl⟩
      unfold ReachedBytes at hreached
      omega
    · rcases hstep with ⟨hover, hturn⟩ | ⟨s', hturn, hwritten, htotal, hs'⟩
      · refine iff_of_false (While.not_ends_loop hturn) fun hfits => ?_
        have := hfits.2
        omega
      · rw [While.ends_loop_next hturn]
        by_cases hdrop : c.drop k = []
        · have hkc : k = c.length := by
            rw [List.drop_eq_nil_iff] at hdrop
            omega
          rw [if_pos hdrop] at hs'
          have hreached : ReachedBytes n c cs := by
            unfold ReachedBytes
            omega
          have hih := ih hs'
          rw [hwritten, htotal, hkc, List.take_length] at hih
          have htake : (c :: cs).flatten.take ((c :: cs).flatten.length - n) =
              c ++ cs.flatten.take (cs.flatten.length - n) := by
            unfold ReachedBytes at hreached
            rw [hsplit, Nat.add_sub_assoc hreached, List.flatten_cons, List.take_length_add_append]
          have hsum : s.totalBytesCopied + ((c :: cs).flatten.length - n) =
              s.totalBytesCopied + c.length + (cs.flatten.length - n) := by
            unfold ReachedBytes at hreached
            omega
          rw [htake, hsum, ← List.append_assoc, hih, Fits]
          exact ⟨fun hfits => ⟨⟨hroom, fun _ => hfits.1⟩, hfits.2⟩, fun hfits => ⟨hfits.1.2 hreached, hfits.2⟩⟩
        · rw [if_neg hdrop] at hs'
          have hkc : k < c.length := Nat.lt_of_not_le fun hle => hdrop (List.drop_eq_nil_iff.2 hle)
          have hheld : (c.drop k :: cs).flatten.length = n := by
            rw [List.flatten_cons, List.length_append, List.length_drop]
            omega
          have hroom' : n + (c.drop k).length ≤ usizeMax ∧ Room n (c.drop k).length 0 (cs.map List.length) := by
            rw [List.length_drop]
            exact ⟨by omega, hroom.2.mono (Nat.sub_le _ _)⟩
          rw [While.ends_loop_done (copyBytesTurn_held hs' hheld hroom'), hwritten, htotal, Prod.mk.injEq]
          have htotal' := hs'.total
          rw [htotal] at htotal'
          refine iff_of_true ⟨?_, by omega⟩ ⟨⟨hroom, fun hreached => ?_⟩, by omega⟩
          · rw [show (c :: cs).flatten.length - n = k by omega, List.flatten_cons,
              List.take_append_of_le_length (Nat.le_of_lt hkc)]
          · unfold ReachedBytes at hreached
            omega
    · exact iff_of_false (While.not_ends_loop hturn) fun hfits => hnot hfits.1.1

/-- **When `copy_all_but_n_bytes` is right.** -/
theorem copyAllButNBytes_iff (n : Nat) {reads : List Bytes} (hreads : IsReads reads) :
    While.Ends (copyAllButNBytes n reads) (fun r =>
        r = (reads.flatten.take (reads.flatten.length - n), reads.flatten.length - n)) ↔
      Fits n n List.length (ReachedBytes n) reads ∧ reads.flatten.length - n ≤ usizeMax := by
  have hstart : BytesCopy.Holds ⟨[], 0, 0, reads, []⟩ reads :=
    ⟨rfl, rfl, Nat.zero_le _, Nat.zero_le _, by simp, fun c hc => (hreads c hc).1, fun c hc => (hreads c hc).2⟩
  have hiff := @copyBytes_iff n _ _ hstart
  simp only [List.nil_append, Nat.zero_add] at hiff
  exact hiff

end Peiosutils.Head
