import Mathlib.Data.List.Basic
import Peiosutils.Lib.Lines
import Peiosutils.Split.Sink

/-!
# `split -C` (`line_bytes`)

The files hold whole lines as far as they have room for them; a line that has room in no file is cut. The files are the
input, none is greater than the size, and each line that is not greater than the size is in one file (`lineBytes_spec`).
-/

set_option autoImplicit false

namespace Peiosutils.Split

open While (Stop)
open Lines Writing

/-! ## The code -/

section Code

variable (env : Env) (sep : UInt8) (chunkSize : ChunkSize)

/-- The loop of `line_bytes` over what is left of a line. -/
def lineLoop (line : List UInt8) (w : ChunkWriter) : Except Stop ChunkWriter :=
  match _hw : w.rotate env chunkSize with
  | .error e => .error e
  | .ok w₁ =>
    -- a last line that is not terminated counts as if it were
    if _hopen : line.length = w₁.remaining ∧ w₁.remaining < chunkSize.val ∧ line.getLast? ≠ some sep then
      lineLoop line { w₁ with remaining := 0 }
    else if _hfits : line.length ≤ w₁.remaining then
      match w₁.sink.writeAll env line with
      | .error e => .error e
      | .ok sink => .ok ⟨sink, w₁.remaining - line.length⟩
    else if _hcut : chunkSize.val < line.length ∧ w₁.remaining = chunkSize.val then
      match w₁.sink.writeAll env (line.take chunkSize) with
      | .error e => .error e
      | .ok sink => lineLoop (line.drop chunkSize) ⟨sink, 0⟩
    else lineLoop line { w₁ with remaining := 0 }
termination_by (line.length, w.remaining)
decreasing_by
  · have hrem := ChunkWriter.rotate_remaining chunkSize _hw
    refine Prod.Lex.right _ (Nat.pos_of_ne_zero fun hzero => ?_)
    rw [if_pos hzero] at hrem
    omega
  · refine Prod.Lex.left _ _ ?_
    have := chunkSize.2
    rw [List.length_drop]
    omega
  · have hrem := ChunkWriter.rotate_remaining chunkSize _hw
    refine Prod.Lex.right _ (Nat.pos_of_ne_zero fun hzero => ?_)
    rw [if_pos hzero] at hrem
    omega

def linesWithSepLoop : List (List UInt8) → ChunkWriter → Except Stop ChunkWriter
  | [], w => .ok w
  | line :: lines, w =>
    match lineLoop env sep chunkSize line w with
    | .error e => .error e
    | .ok w => linesWithSepLoop lines w

/-- No file is created before there is a line. -/
def lineBytes (data : List UInt8) : Except Stop ChunkWriter :=
  linesWithSepLoop env sep chunkSize (pieces sep data) ⟨{}, 0⟩

end Code

/-! ## Where a line is -/

/-- The bytes are within one of the files, behind all of `start`. -/
def Placed (start bytes : List UInt8) (files : List (List UInt8)) : Prop :=
  ∃ before pre post after, files = before ++ (pre ++ bytes ++ post) :: after ∧ before.flatten ++ pre = start

/-- What new files and more bytes leave as it is. -/
def Stable (P : List (List UInt8) → Prop) : Prop :=
  (∀ files, P files → P (files ++ [[]])) ∧ ∀ files bytes, P files → P (appendLast bytes files)

theorem placed_stable (start bytes : List UInt8) : Stable (Placed start bytes) := by
  constructor
  · rintro files ⟨before, pre, post, after, rfl, hstart⟩
    exact ⟨before, pre, post, after ++ [[]], by simp, hstart⟩
  · rintro files more ⟨before, pre, post, after, rfl, hstart⟩
    rcases List.eq_nil_or_concat after with rfl | ⟨rest, last, rfl⟩
    · exact ⟨before, pre, post ++ more, [], by simp, hstart⟩
    · refine ⟨before, pre, post, rest ++ [last ++ more], ?_, hstart⟩
      rw [List.concat_eq_append, ← List.cons_append, ← List.append_assoc, appendLast_concat]
      simp

variable {env : Env} {sep : UInt8} {chunkSize : ChunkSize}

theorem Stable.rotate {P : List (List UInt8) → Prop} (hP : Stable P) {w w' : ChunkWriter} (h : P w.sink.files)
    (hw : w.rotate env chunkSize = .ok w') : P w'.sink.files := by
  rw [(ChunkWriter.rotate_files hw).1]
  split
  · exact hP.1 _ h
  · exact h

/-! ## The files -/

/-- The files are what has been written, each within the size, and the last one with room for what remains. -/
structure LinesFit (chunkSize : ChunkSize) (done : List UInt8) (w : ChunkWriter) : Prop where
  flatten : w.sink.files.flatten = done
  size : ∀ file ∈ w.sink.files, file.length ≤ chunkSize.val
  room : 0 < w.remaining → ∃ before last, w.sink.files = before ++ [last] ∧ last.length + w.remaining ≤ chunkSize.val

theorem LinesFit.rotate {done : List UInt8} {w w' : ChunkWriter} (h : LinesFit chunkSize done w)
    (hw : w.rotate env chunkSize = .ok w') : LinesFit chunkSize done w' := by
  have hrem := ChunkWriter.rotate_remaining chunkSize hw
  obtain ⟨hfiles, -⟩ := ChunkWriter.rotate_files hw
  by_cases hzero : w.remaining = 0
  · rw [if_pos hzero] at hrem hfiles
    refine ⟨by rw [hfiles, List.flatten_concat, List.append_nil, h.flatten], fun file hmem => ?_, fun _ =>
      ⟨w.sink.files, [], hfiles, by rw [hrem]; exact Nat.le_of_eq (Nat.zero_add _)⟩⟩
    rw [hfiles] at hmem
    rcases List.mem_append.1 hmem with hmem | hmem
    · exact h.size file hmem
    · rw [List.mem_singleton.1 hmem]
      exact Nat.zero_le _
  · rw [if_neg hzero] at hrem hfiles
    refine ⟨by rw [hfiles, h.flatten], by rw [hfiles]; exact h.size, fun _ => ?_⟩
    rw [hfiles, hrem]
    exact h.room (Nat.pos_of_ne_zero hzero)

theorem LinesFit.leave {done : List UInt8} {w : ChunkWriter} (h : LinesFit chunkSize done w) :
    LinesFit chunkSize done { w with remaining := 0 } :=
  ⟨h.flatten, h.size, fun hpos => absurd hpos (Nat.lt_irrefl 0)⟩

/-- Bytes that there is room for are written behind all that has been written. -/
theorem LinesFit.write {done bytes : List UInt8} {w : ChunkWriter} (h : LinesFit chunkSize done w)
    (hpos : 0 < w.remaining) (hle : bytes.length ≤ w.remaining) {sink : Sink}
    (hsink : sink.files = appendLast bytes w.sink.files) :
    LinesFit chunkSize (done ++ bytes) ⟨sink, w.remaining - bytes.length⟩ ∧ Placed done bytes sink.files := by
  obtain ⟨before, last, hfiles, hroom⟩ := h.room hpos
  have hflat := h.flatten
  rw [hfiles, List.flatten_concat] at hflat
  rw [hfiles, appendLast_concat] at hsink
  refine ⟨⟨?_, fun file hmem => ?_, fun _ => ⟨before, last ++ bytes, hsink, ?_⟩⟩, before, last, [], [], ?_, hflat⟩
  · rw [hsink, List.flatten_concat, ← List.append_assoc, hflat]
  · rw [hsink] at hmem
    rcases List.mem_append.1 hmem with hmem | hmem
    · exact h.size file (hfiles ▸ List.mem_append_left _ hmem)
    · rw [List.mem_singleton.1 hmem, List.length_append]
      omega
  · show _ + (w.remaining - bytes.length) ≤ _
    rw [List.length_append]
    omega
  · rw [hsink, List.append_nil]

/-- A line is written, in one file if it is not greater than the size, and what is stable stays. -/
theorem lineLoop_spec {line done : List UInt8} {w w' : ChunkWriter} (h : LinesFit chunkSize done w)
    (hw : lineLoop env sep chunkSize line w = .ok w') :
    LinesFit chunkSize (done ++ line) w' ∧ (line.length ≤ chunkSize.val → Placed done line w'.sink.files) ∧
      ∀ P, Stable P → P w.sink.files → P w'.sink.files := by
  fun_induction lineLoop env sep chunkSize line w generalizing done with
  | case1 => cases hw
  | case2 line w w₁ hrotate hopen ih =>
    obtain ⟨hfit, hplaced, hstable⟩ := ih (h.rotate hrotate).leave hw
    exact ⟨hfit, hplaced, fun P hP hbefore => hstable P hP (show P w₁.sink.files from hP.rotate hbefore hrotate)⟩
  | case3 => cases hw
  | case4 line w w₁ hrotate hopen hfits sink hsink =>
    have hpos := ChunkWriter.rotate_pos chunkSize hrotate
    have hfiles := Sink.writeAll_files hsink
    obtain ⟨hfit, hplaced⟩ := (h.rotate hrotate).write hpos hfits hfiles
    obtain rfl := Except.ok.inj hw
    refine ⟨hfit, fun _ => hplaced, fun P hP hbefore => ?_⟩
    show P sink.files
    rw [hfiles]
    exact hP.2 _ _ (hP.rotate hbefore hrotate)
  | case5 => cases hw
  | case6 line w w₁ hrotate hopen hfits hcut sink hsink ih =>
    have hpos := ChunkWriter.rotate_pos chunkSize hrotate
    have hlen : (line.take chunkSize).length = w₁.remaining := by rw [List.length_take]; omega
    have hfiles := Sink.writeAll_files hsink
    obtain ⟨hfit, -⟩ := (h.rotate hrotate).write hpos (Nat.le_of_eq hlen) hfiles
    rw [hlen, Nat.sub_self] at hfit
    obtain ⟨hfit', -, hstable⟩ := ih hfit hw
    rw [List.append_assoc, List.take_append_drop] at hfit'
    refine ⟨hfit', fun hle => by omega, fun P hP hbefore => hstable P hP ?_⟩
    show P sink.files
    rw [hfiles]
    exact hP.2 _ _ (hP.rotate hbefore hrotate)
  | case7 line w w₁ hrotate hopen hfits hcut ih =>
    obtain ⟨hfit, hplaced, hstable⟩ := ih (h.rotate hrotate).leave hw
    exact ⟨hfit, hplaced, fun P hP hbefore => hstable P hP (show P w₁.sink.files from hP.rotate hbefore hrotate)⟩

theorem lineLoop_ends (hcreate : ∀ index, env.canCreate index = true) (line : List UInt8) (w : ChunkWriter) :
    ∃ w', lineLoop env sep chunkSize line w = .ok w' := by
  fun_induction lineLoop env sep chunkSize line w with
  | case1 line w e he =>
    obtain ⟨w', hw'⟩ := w.rotate_ends hcreate chunkSize
    rw [hw'] at he
    cases he
  | case2 _ _ _ _ _ ih => exact ih
  | case3 line w w₁ _ _ _ e he =>
    obtain ⟨sink, hsink, -⟩ := w₁.sink.writeAll_ok line
    rw [hsink] at he
    cases he
  | case4 => exact ⟨_, rfl⟩
  | case5 line w w₁ _ _ _ _ e he =>
    obtain ⟨sink, hsink, -⟩ := w₁.sink.writeAll_ok (line.take chunkSize)
    rw [hsink] at he
    cases he
  | case6 _ _ _ _ _ _ _ _ _ ih => exact ih
  | case7 _ _ _ _ _ _ _ ih => exact ih

theorem linesWithSepLoop_spec (lines : List (List UInt8)) : ∀ {done : List UInt8} {w w' : ChunkWriter},
    LinesFit chunkSize done w → linesWithSepLoop env sep chunkSize lines w = .ok w' →
      LinesFit chunkSize (done ++ lines.flatten) w' ∧
      (∀ before line after, lines = before ++ line :: after → line.length ≤ chunkSize.val →
        Placed (done ++ before.flatten) line w'.sink.files) ∧
      ∀ P, Stable P → P w.sink.files → P w'.sink.files := by
  induction lines with
  | nil =>
    intro done w w' h hw
    obtain rfl := Except.ok.inj hw
    exact ⟨by simpa using h, fun before line after heq => by simp at heq, fun P _ hbefore => hbefore⟩
  | cons line lines ih =>
    intro done w w' h hw
    unfold linesWithSepLoop at hw
    cases hline : lineLoop env sep chunkSize line w with
    | error e =>
      rw [hline] at hw
      cases hw
    | ok w₁ =>
      rw [hline] at hw
      obtain ⟨hfit, hplaced, hstable⟩ := lineLoop_spec h hline
      obtain ⟨hfit', hplaced', hstable'⟩ := ih hfit hw
      refine ⟨by rwa [List.flatten_cons, ← List.append_assoc], fun before other after heq hle => ?_,
        fun P hP hbefore => hstable' P hP (hstable P hP hbefore)⟩
      cases before with
      | nil =>
        obtain ⟨rfl, rfl⟩ := List.cons_eq_cons.1 heq
        rw [List.flatten_nil, List.append_nil]
        exact hstable' _ (placed_stable done line) (hplaced hle)
      | cons first before =>
        obtain ⟨rfl, hrest⟩ := List.cons_eq_cons.1 heq
        rw [List.flatten_cons, ← List.append_assoc]
        exact hplaced' before other after hrest hle

/-- What `split -C` is to write: the input in files within the size, with each line in one of them that is within the
size. -/
def LineByteFiles (sep : UInt8) (chunkSize : ChunkSize) (data : List UInt8) (files : List (List UInt8)) : Prop :=
  files.flatten = data ∧ (∀ file ∈ files, file.length ≤ chunkSize.val) ∧
    ∀ before line after, pieces sep data = before ++ line :: after → line.length ≤ chunkSize.val →
      Placed before.flatten line files

/-- The files of `split -C`, whatever a write takes. -/
theorem lineBytes_spec {data : List UInt8} {w : ChunkWriter} (h : lineBytes env sep chunkSize data = .ok w) :
    LineByteFiles sep chunkSize data w.sink.files := by
  have hstart : LinesFit chunkSize [] (⟨{}, 0⟩ : ChunkWriter) :=
    ⟨rfl, fun file hmem => (by cases hmem), fun hpos => absurd hpos (Nat.lt_irrefl 0)⟩
  obtain ⟨hfit, hplaced, -⟩ := linesWithSepLoop_spec _ hstart h
  rw [List.nil_append, flatten_pieces] at hfit
  exact ⟨hfit.flatten, hfit.size, hplaced⟩

theorem lineBytes_ends (hcreate : ∀ index, env.canCreate index = true) (data : List UInt8) :
    ∃ w, lineBytes env sep chunkSize data = .ok w := by
  have hloop : ∀ (lines : List (List UInt8)) (w : ChunkWriter),
      ∃ w', linesWithSepLoop env sep chunkSize lines w = .ok w' := by
    intro lines
    induction lines with
    | nil => exact fun w => ⟨w, rfl⟩
    | cons line lines ih =>
      intro w
      obtain ⟨w₁, hw₁⟩ : ∃ w₁, lineLoop env sep chunkSize line w = .ok w₁ := lineLoop_ends hcreate line w
      obtain ⟨w', hw'⟩ := ih w₁
      exact ⟨w', by simp only [linesWithSepLoop, hw₁, hw']⟩
  exact hloop _ _

end Peiosutils.Split
