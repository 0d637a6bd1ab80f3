import Mathlib.Order.MinMax
import Mathlib.Data.List.Basic

/-!
# Sweeping a cursor over marks

A mark `(s, v)` closes the hole that is open at `s` and moves the cursor up to `v`. `holes c ms` are the holes
`[x, y)` that a cursor starting at `c` leaves between the marks `ms`, and `sweep c ms last` has one more hole from the
final cursor to `last`.

`Open c ms last a b` says, without the cursor, when `[a, b)` is free: every mark is behind it or ahead of it, and it
is bounded by `last` or by a mark. For marks in the order of their first components the holes are exactly the maximal
open runs: every hole is open (`open_of_mem_sweep`), every open run lies in a hole (`mem_sweep_of_open`), and the
holes come in the order of their starts (`sweep_sorted`).
-/

set_option autoImplicit false

namespace CursorSweep

variable {α : Type} [LinearOrder α]

/-! ## Holes -/

/-- The holes between the marks. -/
def holes : α → List (α × α) → List (α × α)
  | _, [] => []
  | c, (s, v) :: ms => (if c < s then [(c, s)] else []) ++ holes (max c v) ms

/-- The cursor after all marks. -/
def finish : α → List (α × α) → α
  | c, [] => c
  | c, (_, v) :: ms => finish (max c v) ms

/-- The holes between the marks, and the one up to `last`. -/
def sweep (c : α) (ms : List (α × α)) (last : α) : List (α × α) :=
  holes c ms ++ if finish c ms < last then [(finish c ms, last)] else []

/-- A free run: behind or ahead of every mark, and bounded by `last` or by a mark. -/
structure Open (c : α) (ms : List (α × α)) (last a b : α) : Prop where
  start : c ≤ a
  clear : ∀ m ∈ ms, m.2 ≤ a ∨ b ≤ m.1
  bound : b ≤ last ∨ ∃ m ∈ ms, b ≤ m.1

theorem finish_le_iff {a : α} : ∀ {c : α} {ms : List (α × α)}, finish c ms ≤ a ↔ c ≤ a ∧ ∀ m ∈ ms, m.2 ≤ a
  | c, [] => by simp [finish]
  | c, (s, v) :: ms => by
    rw [finish, finish_le_iff]
    simp [and_assoc]

theorem finish_eq (c : α) : ∀ ms : List (α × α), finish c ms = c ∨ ∃ m ∈ ms, finish c ms = m.2
  | [] => Or.inl rfl
  | (s, v) :: ms => by
    rw [finish]
    rcases finish_eq (max c v) ms with h | ⟨m, hm, h⟩
    · rcases max_choice c v with h' | h'
      · exact Or.inl (h.trans h')
      · exact Or.inr ⟨(s, v), by simp, h.trans h'⟩
    · exact Or.inr ⟨m, by simp [hm], h⟩

/-- A hole starts at the first cursor or at the cursor some mark set. -/
theorem start_eq_of_mem_holes {x y : α} : ∀ {c : α} {ms : List (α × α)}, (x, y) ∈ holes c ms →
    x = c ∨ ∃ m ∈ ms, x = m.2
  | _, [], h => by simp [holes] at h
  | c, (s, v) :: ms, h => by
    rw [holes, List.mem_append] at h
    rcases h with h | h
    · split at h
      · simp only [List.mem_singleton, Prod.mk.injEq] at h
        exact Or.inl h.1
      · simp at h
    · rcases start_eq_of_mem_holes h with h | ⟨m, hm, h⟩
      · rcases max_choice c v with h' | h'
        · exact Or.inl (h.trans h')
        · exact Or.inr ⟨(s, v), by simp, h.trans h'⟩
      · exact Or.inr ⟨m, by simp [hm], h⟩

/-- What a hole is: nonempty, past the first cursor, clear of every mark, and closed by a mark. -/
theorem of_mem_holes {x y : α} : ∀ {c : α} {ms : List (α × α)}, ms.Pairwise (fun m m' => m.1 ≤ m'.1) →
    (x, y) ∈ holes c ms → x < y ∧ c ≤ x ∧ (∀ m ∈ ms, m.2 ≤ x ∨ y ≤ m.1) ∧ ∃ m ∈ ms, y = m.1
  | _, [], _, h => by simp [holes] at h
  | c, (s, v) :: ms, hs, h => by
    rw [List.pairwise_cons] at hs
    rw [holes, List.mem_append] at h
    rcases h with h | h
    · split at h
      · rename_i hcs
        simp only [List.mem_singleton, Prod.mk.injEq] at h
        obtain ⟨rfl, rfl⟩ := h
        refine ⟨hcs, le_refl _, ?_, (y, v), by simp, rfl⟩
        intro m hm
        rcases List.mem_cons.1 hm with rfl | hm
        · exact Or.inr (le_refl _)
        · exact Or.inr (hs.1 m hm)
      · simp at h
    · obtain ⟨hxy, hc, hclear, m, hm, hy⟩ := of_mem_holes hs.2 h
      refine ⟨hxy, (le_max_left _ _).trans hc, ?_, m, by simp [hm], hy⟩
      intro m' hm'
      rcases List.mem_cons.1 hm' with rfl | hm'
      · exact Or.inl ((le_max_right _ _).trans hc)
      · exact hclear m' hm'

/-- A clear run below some mark lies in a hole. -/
theorem mem_holes_of_clear {a b : α} (hab : a < b) : ∀ {c : α} {ms : List (α × α)}, c ≤ a →
    (∀ m ∈ ms, m.2 ≤ a ∨ b ≤ m.1) → (∃ m ∈ ms, b ≤ m.1) → ∃ h ∈ holes c ms, h.1 ≤ a ∧ b ≤ h.2
  | _, [], _, _, hb => by simp at hb
  | c, (s, v) :: ms, hc, hclear, hb => by
    by_cases hs : b ≤ s
    · -- the run ends before this mark, so the hole that the mark closes holds it
      have hcs : c < s := lt_of_le_of_lt hc (lt_of_lt_of_le hab hs)
      exact ⟨(c, s), by simp [holes, hcs], hc, hs⟩
    · have hv : v ≤ a := (hclear (s, v) (by simp)).resolve_right hs
      obtain ⟨m, hm, hbm⟩ := hb
      have hm : m ∈ ms := by
        rcases List.mem_cons.1 hm with rfl | hm
        · exact absurd hbm hs
        · exact hm
      obtain ⟨h, hh, ha, hb'⟩ := mem_holes_of_clear hab (max_le hc hv)
        (fun m hm => hclear m (by simp [hm])) ⟨m, hm, hbm⟩
      exact ⟨h, by simp [holes, hh], ha, hb'⟩

theorem le_start_of_mem_holes {h : α × α} : ∀ {c : α} {ms : List (α × α)}, h ∈ holes c ms →
    c ≤ h.1 ∧ h.1 ≤ finish c ms
  | _, [], hh => by simp [holes] at hh
  | c, (s, v) :: ms, hh => by
    rw [holes, List.mem_append] at hh
    rcases hh with hh | hh
    · split at hh
      · simp only [List.mem_singleton] at hh
        subst hh
        exact ⟨le_refl _, (finish_le_iff.1 (le_refl (finish c ((s, v) :: ms)))).1⟩
      · simp at hh
    · obtain ⟨h₁, h₂⟩ := le_start_of_mem_holes hh
      exact ⟨(le_max_left _ _).trans h₁, h₂⟩

theorem holes_sorted : ∀ (c : α) (ms : List (α × α)), (holes c ms).Pairwise (fun h h' => h.1 ≤ h'.1)
  | _, [] => List.Pairwise.nil
  | c, (s, v) :: ms => by
    rw [holes, List.pairwise_append]
    refine ⟨by split <;> simp, holes_sorted _ ms, ?_⟩
    intro h hh h' hh'
    have := (le_start_of_mem_holes hh').1
    split at hh
    · simp only [List.mem_singleton] at hh
      subst hh
      exact (le_max_left _ _).trans this
    · simp at hh

/-! ## The sweep -/

section Sweep

variable {c last x y a b : α} {ms : List (α × α)}

/-- A hole of the sweep starts at the first cursor or at the cursor some mark set. -/
theorem start_eq_of_mem_sweep (h : (x, y) ∈ sweep c ms last) : x = c ∨ ∃ m ∈ ms, x = m.2 := by
  rw [sweep, List.mem_append] at h
  rcases h with h | h
  · exact start_eq_of_mem_holes h
  · split at h
    · simp only [List.mem_singleton, Prod.mk.injEq] at h
      rw [h.1]; exact finish_eq c ms
    · simp at h

/-- Every hole is an open run. -/
theorem open_of_mem_sweep (hs : ms.Pairwise (fun m m' => m.1 ≤ m'.1)) (h : (x, y) ∈ sweep c ms last) :
    x < y ∧ Open c ms last x y := by
  rw [sweep, List.mem_append] at h
  rcases h with h | h
  · obtain ⟨hxy, hc, hclear, m, hm, hy⟩ := of_mem_holes hs h
    exact ⟨hxy, hc, hclear, Or.inr ⟨m, hm, hy.le⟩⟩
  · split at h
    · rename_i hlt
      simp only [List.mem_singleton, Prod.mk.injEq] at h
      obtain ⟨rfl, rfl⟩ := h
      have := finish_le_iff.1 (le_refl (finish c ms))
      exact ⟨hlt, this.1, fun m hm => Or.inl (this.2 m hm), Or.inl (le_refl _)⟩
    · simp at h

/-- Every nonempty open run lies in a hole. -/
theorem mem_sweep_of_open (hab : a < b) (h : Open c ms last a b) : ∃ h ∈ sweep c ms last, h.1 ≤ a ∧ b ≤ h.2 := by
  by_cases hm : ∃ m ∈ ms, b ≤ m.1
  · obtain ⟨h, hh, ha, hb⟩ := mem_holes_of_clear hab h.start h.clear hm
    exact ⟨h, by simp [sweep, hh], ha, hb⟩
  · have hf : finish c ms ≤ a := finish_le_iff.2
      ⟨h.start, fun m hm' => (h.clear m hm').resolve_right fun hb => hm ⟨m, hm', hb⟩⟩
    have hb : b ≤ last := h.bound.resolve_right hm
    have hlt : finish c ms < last := lt_of_le_of_lt hf (lt_of_lt_of_le hab hb)
    exact ⟨(finish c ms, last), by simp [sweep, hlt], hf, hb⟩

/-- The holes come in the order of their starts. -/
theorem sweep_sorted (c : α) (ms : List (α × α)) (last : α) :
    (sweep c ms last).Pairwise (fun h h' => h.1 ≤ h'.1) := by
  rw [sweep, List.pairwise_append]
  refine ⟨holes_sorted c ms, by split <;> simp, ?_⟩
  intro h hh h' hh'
  split at hh'
  · simp only [List.mem_singleton] at hh'
    subst hh'
    exact (le_start_of_mem_holes hh).2
  · simp at hh'

end Sweep

/-- An open run stays open when it is shortened from the right. -/
theorem Open.shorten {c last a b b' : α} {ms : List (α × α)} (h : Open c ms last a b) (hb : b' ≤ b) :
    Open c ms last a b' where
  start := h.start
  clear m hm := (h.clear m hm).imp_right hb.trans
  bound := h.bound.imp hb.trans fun ⟨m, hm, hbm⟩ => ⟨m, hm, hb.trans hbm⟩

end CursorSweep
