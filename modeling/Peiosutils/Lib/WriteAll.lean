import Mathlib.Data.List.Basic
import Peiosutils.Lib.While

/-!
# Writing all of a buffer

A `write` takes a part of a buffer and says how much; `writeAll` gives it what is left until nothing is, and `copy` does
so with one buffer after the other. A write that takes a part that is not empty, and keeps an invariant of all that has
been taken, makes `writeAll` and `copy` keep it for all that is given (`writeAll_spec`, `copy_spec`), and they end
(`writeAll_ends`, `copy_ends`).
-/

set_option autoImplicit false

namespace Writing

open While (Stop)

variable {α σ : Type}

/-- Write the buffer in as many parts as it takes. -/
def writeAll (write : List α → σ → Except Stop (Nat × σ)) (buf : List α) (s : σ) : Except Stop σ :=
  if _hbuf : buf = [] then .ok s
  else
    match write buf s with
    | .error e => .error e
    | .ok (taken, s) =>
      if _hzero : taken = 0 then .error .failed
      else if buf.length < taken then .error .panic
      else writeAll write (buf.drop taken) s
termination_by buf.length
decreasing_by
  have := List.length_pos_iff.2 _hbuf
  rw [List.length_drop]
  omega

/-- Write one buffer after the other. -/
def copy (write : List α → σ → Except Stop (Nat × σ)) : List (List α) → σ → Except Stop σ
  | [], s => .ok s
  | buf :: bufs, s =>
    match writeAll write buf s with
    | .error e => .error e
    | .ok s => copy write bufs s

/-- A write takes a part of the buffer, and keeps the invariant of all that has been taken. -/
def Keeps (write : List α → σ → Except Stop (Nat × σ)) (Inv : List α → σ → Prop) : Prop :=
  ∀ buf done taken s s', buf ≠ [] → Inv done s → write buf s = .ok (taken, s') →
    0 < taken ∧ taken ≤ buf.length ∧ Inv (done ++ buf.take taken) s'

variable {write : List α → σ → Except Stop (Nat × σ)} {Inv : List α → σ → Prop}

@[simp] theorem writeAll_nil (s : σ) : writeAll write [] s = .ok s := by
  rw [writeAll, dif_pos rfl]

theorem writeAll_of_write {buf : List α} {taken : Nat} {s s' : σ} (h : write buf s = .ok (taken, s'))
    (hbuf : buf ≠ []) (hpos : 0 < taken) (hle : taken ≤ buf.length) :
    writeAll write buf s = writeAll write (buf.drop taken) s' := by
  rw [writeAll, dif_neg hbuf]
  simp only [h]
  rw [dif_neg (by omega), if_neg (by omega)]

/-- What holds of all that has been taken holds of the whole buffer in the end. -/
theorem writeAll_spec (hwrite : Keeps write Inv) {buf done : List α} {s s' : σ} (h : Inv done s)
    (hrun : writeAll write buf s = .ok s') : Inv (done ++ buf) s' := by
  induction hn : buf.length using Nat.strongRecOn generalizing buf done s with
  | _ n ih =>
    subst hn
    by_cases hbuf : buf = []
    · subst hbuf
      rw [writeAll_nil] at hrun
      rwa [List.append_nil, ← Except.ok.inj hrun]
    · have hlen := List.length_pos_iff.2 hbuf
      cases hw : write buf s with
      | error e =>
        rw [writeAll, dif_neg hbuf, hw] at hrun
        cases hrun
      | ok r =>
        obtain ⟨taken, s₁⟩ := r
        obtain ⟨hpos, hle, hinv⟩ := hwrite buf done taken s s₁ hbuf h hw
        rw [writeAll_of_write hw hbuf hpos hle] at hrun
        have hrest := ih _ (by rw [List.length_drop]; omega) hinv hrun rfl
        rwa [List.append_assoc, List.take_append_drop] at hrest

/-- Where no write fails, the whole buffer is written. -/
theorem writeAll_ends (hwrite : Keeps write Inv)
    (hok : ∀ buf done s, buf ≠ [] → Inv done s → ∃ r, write buf s = .ok r) (buf : List α) {done : List α} {s : σ}
    (h : Inv done s) : ∃ s', writeAll write buf s = .ok s' := by
  induction hn : buf.length using Nat.strongRecOn generalizing buf done s with
  | _ n ih =>
    subst hn
    by_cases hbuf : buf = []
    · exact ⟨s, by rw [hbuf, writeAll_nil]⟩
    · have hlen := List.length_pos_iff.2 hbuf
      obtain ⟨⟨taken, s₁⟩, hw⟩ := hok buf done s hbuf h
      obtain ⟨hpos, hle, hinv⟩ := hwrite buf done taken s s₁ hbuf h hw
      rw [writeAll_of_write hw hbuf hpos hle]
      exact ih _ (by rw [List.length_drop]; omega) _ hinv rfl

theorem copy_spec (hwrite : Keeps write Inv) {bufs : List (List α)} {done : List α} {s s' : σ} (h : Inv done s)
    (hrun : copy write bufs s = .ok s') : Inv (done ++ bufs.flatten) s' := by
  induction bufs generalizing done s with
  | nil => rwa [List.flatten_nil, List.append_nil, ← Except.ok.inj hrun]
  | cons buf bufs ih =>
    unfold copy at hrun
    cases hbuf : writeAll write buf s with
    | error e =>
      rw [hbuf] at hrun
      cases hrun
    | ok s₁ =>
      rw [hbuf] at hrun
      rw [List.flatten_cons, ← List.append_assoc]
      exact ih (writeAll_spec hwrite h hbuf) hrun

theorem copy_ends (hwrite : Keeps write Inv) (hok : ∀ buf done s, buf ≠ [] → Inv done s → ∃ r, write buf s = .ok r)
    (bufs : List (List α)) {done : List α} {s : σ} (h : Inv done s) : ∃ s', copy write bufs s = .ok s' := by
  induction bufs generalizing done s with
  | nil => exact ⟨s, rfl⟩
  | cons buf bufs ih =>
    obtain ⟨s₁, hbuf⟩ := writeAll_ends hwrite hok buf h
    obtain ⟨s', hs'⟩ := ih (writeAll_spec hwrite h hbuf)
    exact ⟨s', by simp only [copy, hbuf, hs']⟩

end Writing
