import Mathlib.Data.List.Basic
import Mathlib.Data.Set.Basic

/-!
# Lists of closed intervals of numbers

A list of intervals stands for the set of numbers in one of them (`cover`). In `Ascending b rs` every interval has a number
in it, and each one is beyond the one before and the first beyond `b`.

`mergeFrom r rs` joins the intervals that overlap, where `r` and `rs` ascend by their lower ends; the set stays the same
(`cover_mergeFrom`). `gaps b top rs` are the intervals between, which cover what is left of the numbers from `b` to `top`
(`mem_cover_gaps`), and the gaps between the gaps cover the set itself (`cover_gaps_gaps`).
-/

set_option autoImplicit false

/-- The numbers from `low` to `high`, both included. -/
structure Stretch where
  low : Nat
  high : Nat
  deriving DecidableEq, Repr

namespace Stretch

/-- The numbers in one of the intervals. -/
def cover (rs : List Stretch) : Set Nat := {n | ∃ r ∈ rs, r.low ≤ n ∧ n ≤ r.high}

theorem mem_cover {rs : List Stretch} {n : Nat} : n ∈ cover rs ↔ ∃ r ∈ rs, r.low ≤ n ∧ n ≤ r.high := Iff.rfl

@[simp] theorem not_mem_cover_nil (n : Nat) : n ∉ cover [] := by simp [mem_cover]

@[simp] theorem mem_cover_cons {r : Stretch} {rs : List Stretch} {n : Nat} :
    n ∈ cover (r :: rs) ↔ (r.low ≤ n ∧ n ≤ r.high) ∨ n ∈ cover rs := by
  simp [mem_cover]

/-- The cover does not depend on the order. -/
theorem cover_perm {rs ss : List Stretch} (h : rs.Perm ss) : cover rs = cover ss := by
  ext n
  simp only [mem_cover, h.mem_iff]

/-! ## Ascending intervals -/

/-- Intervals with a number in each, one beyond the other and all beyond `b`. -/
def Ascending : Nat → List Stretch → Prop
  | _, [] => True
  | b, r :: rs => b < r.low ∧ r.low ≤ r.high ∧ Ascending r.high rs

theorem Ascending.lt_of_mem {b n : Nat} {rs : List Stretch} (h : Ascending b rs) (hn : n ∈ cover rs) : b < n := by
  induction rs generalizing b with
  | nil => exact absurd hn (not_mem_cover_nil n)
  | cons r rs ih =>
    obtain ⟨hb, hr, hrs⟩ := h
    rcases mem_cover_cons.1 hn with hn | hn
    · omega
    · have := ih hrs hn
      omega

theorem Ascending.bounds {b : Nat} {rs : List Stretch} (h : Ascending b rs) :
    ∀ r ∈ rs, b < r.low ∧ r.low ≤ r.high := by
  induction rs generalizing b with
  | nil => simp
  | cons r rs ih =>
    obtain ⟨hb, hr, hrs⟩ := h
    intro s hs
    rcases List.mem_cons.1 hs with rfl | hs
    · exact ⟨hb, hr⟩
    · have := ih hrs s hs
      omega

/-- Any two of them are apart. -/
theorem Ascending.pairwise {b : Nat} {rs : List Stretch} (h : Ascending b rs) :
    rs.Pairwise fun r s => r.high < s.low := by
  induction rs generalizing b with
  | nil => exact List.Pairwise.nil
  | cons r rs ih =>
    obtain ⟨-, -, hrs⟩ := h
    exact List.Pairwise.cons (fun s hs => (hrs.bounds s hs).1) (ih hrs)

/-! ## Joining intervals -/

/-- The intervals that overlap with the one before are joined with it. -/
def mergeFrom (r : Stretch) : List Stretch → List Stretch
  | [] => [r]
  | s :: rs =>
    if s.low ≤ r.high then mergeFrom { r with high := max r.high s.high } rs else r :: mergeFrom s rs

def merge : List Stretch → List Stretch
  | [] => []
  | r :: rs => mergeFrom r rs

theorem ascending_mergeFrom {b : Nat} {r : Stretch} {rs : List Stretch} (hb : b < r.low) (hr : r.low ≤ r.high)
    (hlow : (r :: rs).Pairwise fun r s => r.low ≤ s.low) (hne : ∀ s ∈ rs, s.low ≤ s.high) :
    Ascending b (mergeFrom r rs) := by
  induction rs generalizing b r with
  | nil => exact ⟨hb, hr, trivial⟩
  | cons s rs ih =>
    obtain ⟨hfirst, hrest⟩ := List.pairwise_cons.1 hlow
    have hs := hne s List.mem_cons_self
    have hne' : ∀ t ∈ rs, t.low ≤ t.high := fun t ht => hne t (List.mem_cons_of_mem s ht)
    rw [mergeFrom]
    split
    · refine ih hb (hr.trans (Nat.le_max_left _ _)) ?_ hne'
      exact List.Pairwise.cons (fun t ht => hfirst t (List.mem_cons_of_mem s ht)) (List.pairwise_cons.1 hrest).2
    · rename_i hgap
      exact ⟨hb, hr, ih (Nat.lt_of_not_le hgap) hs hrest hne'⟩

/-- Joining does not change the set. -/
theorem cover_mergeFrom {r : Stretch} {rs : List Stretch} (hr : r.low ≤ r.high)
    (hlow : (r :: rs).Pairwise fun r s => r.low ≤ s.low) (hne : ∀ s ∈ rs, s.low ≤ s.high) :
    cover (mergeFrom r rs) = cover (r :: rs) := by
  induction rs generalizing r with
  | nil => rfl
  | cons s rs ih =>
    obtain ⟨hfirst, hrest⟩ := List.pairwise_cons.1 hlow
    have hs := hne s List.mem_cons_self
    have hle := hfirst s List.mem_cons_self
    have hne' : ∀ t ∈ rs, t.low ≤ t.high := fun t ht => hne t (List.mem_cons_of_mem s ht)
    rw [mergeFrom]
    split
    · rename_i hover
      have hlow' : (Stretch.mk r.low (max r.high s.high) :: rs).Pairwise fun r s => r.low ≤ s.low :=
        List.Pairwise.cons (fun t ht => hfirst t (List.mem_cons_of_mem s ht)) (List.pairwise_cons.1 hrest).2
      have hr' : r.low ≤ max r.high s.high := hr.trans (Nat.le_max_left _ _)
      rw [@ih ⟨r.low, max r.high s.high⟩ hr' hlow' hne']
      ext n
      simp only [mem_cover_cons]
      -- two intervals that overlap cover what the joined one does
      have hjoin : r.low ≤ n ∧ n ≤ max r.high s.high ↔ (r.low ≤ n ∧ n ≤ r.high) ∨ (s.low ≤ n ∧ n ≤ s.high) := by
        omega
      rw [hjoin, or_assoc]
    · ext n
      rw [mem_cover_cons, ih hs hrest hne', mem_cover_cons (r := r)]

/-- The lower ends ascend, and so do the intervals once they are joined. -/
theorem ascending_merge {b : Nat} {rs : List Stretch} (hlow : rs.Pairwise fun r s => r.low ≤ s.low)
    (hne : ∀ r ∈ rs, b < r.low ∧ r.low ≤ r.high) : Ascending b (merge rs) := by
  cases rs with
  | nil => trivial
  | cons r rs =>
    obtain ⟨hb, hr⟩ := hne r List.mem_cons_self
    exact ascending_mergeFrom hb hr hlow fun s hs => (hne s (List.mem_cons_of_mem r hs)).2

theorem cover_merge {rs : List Stretch} (hlow : rs.Pairwise fun r s => r.low ≤ s.low)
    (hne : ∀ r ∈ rs, r.low ≤ r.high) : cover (merge rs) = cover rs := by
  cases rs with
  | nil => rfl
  | cons r rs =>
    exact cover_mergeFrom (hne r List.mem_cons_self) hlow fun s hs => hne s (List.mem_cons_of_mem r hs)

/-! ## Between the intervals -/

/-- The intervals between those of `rs`, of the numbers beyond `b` and up to `top`. -/
def gaps (top : Nat) : Nat → List Stretch → List Stretch
  | b, [] => if b < top then [⟨b + 1, top⟩] else []
  | b, r :: rs => if b + 1 < r.low then ⟨b + 1, r.low - 1⟩ :: gaps top r.high rs else gaps top r.high rs

theorem Ascending.mono {a b : Nat} {rs : List Stretch} (h : Ascending b rs) (hab : a ≤ b) : Ascending a rs := by
  cases rs with
  | nil => trivial
  | cons r rs => exact ⟨Nat.lt_of_le_of_lt hab h.1, h.2⟩

theorem ascending_gaps {top b : Nat} {rs : List Stretch} (h : Ascending b rs) : Ascending b (gaps top b rs) := by
  induction rs generalizing b with
  | nil =>
    rw [gaps]
    split
    · exact ⟨Nat.lt_succ_self b, by assumption, trivial⟩
    · trivial
  | cons r rs ih =>
    obtain ⟨hb, hr, hrs⟩ := h
    have hgaps := ih hrs
    rw [gaps]
    split
    · refine ⟨Nat.lt_succ_self b, by show b + 1 ≤ r.low - 1; omega, hgaps.mono ?_⟩
      show r.low - 1 ≤ r.high
      omega
    · exact hgaps.mono (by omega)

/-- The gaps hold the numbers that the intervals do not. -/
theorem mem_cover_gaps {top b n : Nat} {rs : List Stretch} (h : Ascending b rs) (htop : ∀ r ∈ rs, r.high ≤ top) :
    n ∈ cover (gaps top b rs) ↔ b < n ∧ n ≤ top ∧ n ∉ cover rs := by
  induction rs generalizing b with
  | nil =>
    rw [gaps]
    split
    · rw [mem_cover_cons, or_iff_left (not_mem_cover_nil n), Nat.succ_le_iff]
      exact ⟨fun hn => ⟨hn.1, hn.2, not_mem_cover_nil n⟩, fun hn => ⟨hn.1, hn.2.1⟩⟩
    · have hnot := not_mem_cover_nil n
      refine iff_of_false hnot ?_
      omega
  | cons r rs ih =>
    obtain ⟨hb, hr, hrs⟩ := h
    have hhigh := htop r List.mem_cons_self
    have hih := ih hrs fun s hs => htop s (List.mem_cons_of_mem r hs)
    -- a number of a later interval is beyond this one
    have hbeyond : n ∈ cover rs → r.high < n := hrs.lt_of_mem
    rw [gaps]
    split
    · simp only [mem_cover_cons, hih]
      by_cases hn : n ∈ cover rs
      · have := hbeyond hn
        simp only [hn, or_true, not_true_eq_false, and_false, or_false, iff_false]
        omega
      · simp only [hn, or_false, not_false_eq_true, and_true]
        omega
    · simp only [hih, mem_cover_cons]
      by_cases hn : n ∈ cover rs
      · simp [hn]
      · simp only [hn, or_false, not_false_eq_true, and_true]
        omega

theorem high_le_of_mem_gaps {top b : Nat} {rs : List Stretch} (htop : ∀ r ∈ rs, r.high ≤ top)
    (h : Ascending b rs) : ∀ g ∈ gaps top b rs, g.high ≤ top := by
  intro g hg
  have hbounds := (@ascending_gaps top _ _ h).bounds g hg
  have hin : g.high ∈ cover (gaps top b rs) := ⟨g, hg, hbounds.2, Nat.le_refl _⟩
  exact ((mem_cover_gaps h htop).1 hin).2.1

/-- **The gaps between the gaps cover the set.** -/
theorem cover_gaps_gaps {top b : Nat} {rs : List Stretch} (h : Ascending b rs) (htop : ∀ r ∈ rs, r.high ≤ top) :
    cover (gaps top b (gaps top b rs)) = cover rs := by
  ext n
  rw [mem_cover_gaps (ascending_gaps h) (high_le_of_mem_gaps htop h), mem_cover_gaps h htop]
  constructor
  · rintro ⟨hb, hn, hnot⟩
    exact Classical.not_not.1 fun hmem => hnot ⟨hb, hn, hmem⟩
  · intro hmem
    obtain ⟨r, hr, -, hhigh⟩ := mem_cover.1 hmem
    exact ⟨h.lt_of_mem hmem, hhigh.trans (htop r hr), fun hnot => hnot.2.2 hmem⟩

end Stretch
