import Mathlib.Data.List.TakeWhile

/-!
# Scanners

A scanner of texts with a value reads a text at the front of its input. It reads the longest one (`Scanner.longest`) if
what it reads is a text (`sound`), if it reads a whole text with its value (`complete`), and if it reads no less than a
text at the front (`greedy`).
-/

set_option autoImplicit false

namespace Scanning

variable {α β : Type}

structure Scanner (Text : List α → β → Prop) (scan : List α → Option (β × List α)) : Prop where
  sound : ∀ input v rest, scan input = some (v, rest) → ∃ pre, input = pre ++ rest ∧ Text pre v
  complete : ∀ pre v, Text pre v → scan pre = some (v, [])
  greedy : ∀ pre v rest, Text pre v → ∃ v' rest', scan (pre ++ rest) = some (v', rest') ∧ rest'.length ≤ rest.length

/-- The longest text at the front. -/
structure Longest (Text : List α → β → Prop) (input pre rest : List α) (v : β) : Prop where
  whole : input = pre ++ rest
  text : Text pre v
  longest : ∀ pre' rest' v', input = pre' ++ rest' → Text pre' v' → pre'.length ≤ pre.length

variable {Text : List α → β → Prop} {scan : List α → Option (β × List α)} {input pre rest : List α} {v : β}

theorem Scanner.longest (h : Scanner Text scan) (hlongest : Longest Text input pre rest v) :
    scan input = some (v, rest) := by
  obtain ⟨v', rest', hscan, hle⟩ := h.greedy pre v rest hlongest.text
  rw [← hlongest.whole] at hscan
  obtain ⟨pre', hwhole, htext⟩ := h.sound input v' rest' hscan
  have hlen : pre'.length + rest'.length = pre.length + rest.length := by
    rw [← List.length_append, ← List.length_append, ← hwhole, hlongest.whole]
  have hpre := hlongest.longest pre' rest' v' hwhole htext
  obtain ⟨rfl, rfl⟩ := List.append_inj (hwhole.symm.trans hlongest.whole) (by omega)
  have hv := (h.complete pre' v' htext).symm.trans (h.complete pre' v hlongest.text)
  cases hv
  exact hscan

/-- What is read is the longest text. -/
theorem Scanner.exists_longest (h : Scanner Text scan) (hscan : scan input = some (v, rest)) :
    ∃ pre, Longest Text input pre rest v := by
  obtain ⟨pre, hwhole, htext⟩ := h.sound input v rest hscan
  refine ⟨pre, hwhole, htext, fun pre' rest' v' hwhole' htext' => ?_⟩
  obtain ⟨v'', rest'', hscan', hle⟩ := h.greedy pre' v' rest' htext'
  rw [← hwhole', hscan] at hscan'
  cases hscan'
  have hlen : pre'.length + rest'.length = pre.length + rest.length := by
    rw [← List.length_append, ← List.length_append, ← hwhole, hwhole']
  omega

theorem Scanner.none_iff (h : Scanner Text scan) :
    scan input = none ↔ ∀ pre rest v, input = pre ++ rest → ¬ Text pre v := by
  constructor
  · rintro hnone pre rest v rfl htext
    obtain ⟨v', rest', hscan, -⟩ := h.greedy pre v rest htext
    rw [hnone] at hscan
    cases hscan
  · intro hno
    cases hscan : scan input with
    | none => rfl
    | some r =>
      obtain ⟨pre, hwhole, htext⟩ := h.sound input r.1 r.2 hscan
      exact absurd htext (hno pre r.2 r.1 hwhole)

/-! ## Digits at the front -/

variable {f : α → Bool}

theorem length_dropWhile_le (f : α → Bool) (l : List α) : (l.dropWhile f).length ≤ l.length :=
  (List.dropWhile_sublist f).length_le

end Scanning
