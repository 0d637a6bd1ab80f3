import Mathlib.Data.List.Basic

/-!
# Texts in pieces

A matcher finds a match in a text; `cut` goes on behind each match, and leaves the parts of the text between the matches,
each with the match behind it, and the part behind the last one. Together they are the text again (`text_cut`). A matcher
that does not see an element at the end of the text leaves that element in the last part (`cut_concat`).
-/

set_option autoImplicit false

/-- Where the first match in a text starts, and where it ends. -/
abbrev Matcher (α : Type) := List α → Option (Nat × Nat)

/-- The parts of a text with the matches behind them, and the last part. -/
structure Cuts (α : Type) where
  pairs : List (List α × List α)
  last : List α
  deriving DecidableEq, Repr

namespace Cuts

variable {α : Type} {m : Matcher α}

/-- The text of some parts, with the matches behind them. -/
def joined (pairs : List (List α × List α)) : List α := pairs.flatMap fun p => p.1 ++ p.2

def text (c : Cuts α) : List α := joined c.pairs ++ c.last

/-- The parts between the matches. -/
def fields (c : Cuts α) : List (List α) := c.pairs.map Prod.fst ++ [c.last]

def ofFuel (m : Matcher α) : (fuel : Nat) → List α → Cuts α
  | 0, c => ⟨[], c⟩
  | fuel + 1, c =>
    match m c with
    | none => ⟨[], c⟩
    | some (first, last) =>
      ⟨(c.take first, (c.take last).drop first) :: (ofFuel m fuel (c.drop last)).pairs, (ofFuel m fuel (c.drop last)).last⟩

/-- The text cut at all matches: each is an element or longer, so that there are no more of them than elements. -/
def of (m : Matcher α) (c : List α) : Cuts α := ofFuel m c.length c

/-- Matches are not empty, and lie within the text. -/
def Sound (m : Matcher α) : Prop := ∀ c first last, m c = some (first, last) → first < last ∧ last ≤ c.length

/-- The matcher does not see `x` at the end of a text. -/
def Blind (m : Matcher α) (x : α) : Prop := ∀ c, m (c ++ [x]) = m c

theorem ofFuel_of_le (hm : Sound m) {fuel fuel' : Nat} {c : List α} (h : c.length ≤ fuel) (h' : c.length ≤ fuel') :
    ofFuel m fuel c = ofFuel m fuel' c := by
  have hnil : ∀ c : List α, c.length ≤ 0 → m c = none := by
    intro c hc
    cases hmc : m c with
    | none => rfl
    | some span =>
      have := hm c span.1 span.2 hmc
      omega
  induction fuel generalizing fuel' c with
  | zero =>
    cases fuel' with
    | zero => rfl
    | succ fuel' => rw [ofFuel, ofFuel, hnil c h]
  | succ fuel ih =>
    cases fuel' with
    | zero => rw [ofFuel, ofFuel, hnil c h']
    | succ fuel' =>
      rw [ofFuel, ofFuel]
      cases hmc : m c with
      | none => rfl
      | some span =>
        obtain ⟨first, last⟩ := span
        obtain ⟨hlt, hle⟩ := hm c first last hmc
        have hdrop : (c.drop last).length = c.length - last := List.length_drop
        have hrest : ofFuel m fuel (c.drop last) = ofFuel m fuel' (c.drop last) := ih (by omega) (by omega)
        dsimp only
        rw [hrest]

theorem of_none {c : List α} (h : m c = none) : of m c = ⟨[], c⟩ := by
  unfold of
  cases hc : c.length with
  | zero => rfl
  | succ k => rw [ofFuel, h]

/-- Behind the first match the text is cut in the same way. -/
theorem of_some (hm : Sound m) {c : List α} {first last : Nat} (h : m c = some (first, last)) :
    of m c = ⟨(c.take first, (c.take last).drop first) :: (of m (c.drop last)).pairs, (of m (c.drop last)).last⟩ := by
  obtain ⟨hlt, hle⟩ := hm c first last h
  obtain ⟨k, hk⟩ : ∃ k, c.length = k + 1 := ⟨c.length - 1, by omega⟩
  have hdrop : (c.drop last).length = c.length - last := List.length_drop
  rw [of, hk, ofFuel, h]
  dsimp only
  rw [ofFuel_of_le hm (by omega) (Nat.le_refl (c.drop last).length)]
  rfl

/-- A text has no match, or what holds of the text behind its first match passes on to it. -/
theorem match_induction (hm : Sound m) {P : List α → Prop} (hnone : ∀ c, m c = none → P c)
    (hsome : ∀ c first last, m c = some (first, last) → P (c.drop last) → P c) (c : List α) : P c := by
  have hall : ∀ n (c : List α), c.length ≤ n → P c := by
    intro n
    induction n with
    | zero =>
      intro c hc
      cases hmc : m c with
      | none => exact hnone c hmc
      | some span =>
        have := hm c span.1 span.2 hmc
        omega
    | succ n ih =>
      intro c hc
      cases hmc : m c with
      | none => exact hnone c hmc
      | some span =>
        have := hm c span.1 span.2 hmc
        exact hsome c span.1 span.2 hmc (ih _ (by rw [List.length_drop]; omega))
  exact hall c.length c (Nat.le_refl _)

/-- The first part, the match behind it, and what is behind that. -/
theorem take_match {c : List α} {first last : Nat} (hle : first ≤ last) :
    c = c.take first ++ (c.take last).drop first ++ c.drop last := by
  have htake : c.take first = (c.take last).take first := by
    rw [List.take_take, Nat.min_eq_left hle]
  rw [htake, List.take_append_drop, List.take_append_drop]

/-- Nothing of the text is lost. -/
theorem text_of (hm : Sound m) (c : List α) : (of m c).text = c := by
  induction c using match_induction hm with
  | hnone c hmc =>
    rw [of_none hmc]
    rfl
  | hsome c first last hmc ih =>
    rw [of_some hm hmc]
    rw [text, joined] at ih ⊢
    rw [List.flatMap_cons, List.append_assoc, ih]
    exact (take_match (Nat.le_of_lt (hm c first last hmc).1)).symm

/-- An element at the end that the matcher does not see is in the last part. -/
theorem of_concat (hm : Sound m) {x : α} (hx : Blind m x) (c : List α) :
    of m (c ++ [x]) = ⟨(of m c).pairs, (of m c).last ++ [x]⟩ := by
  induction c using match_induction hm with
  | hnone c hmc => rw [of_none hmc, of_none ((hx c).trans hmc)]
  | hsome c first last hmc ih =>
    obtain ⟨hlt, hle⟩ := hm c first last hmc
    have htake : ∀ k, k ≤ last → (c ++ [x]).take k = c.take k := fun k hk =>
      List.take_append_of_le_length (Nat.le_trans hk hle)
    rw [of_some hm hmc, of_some hm ((hx c).trans hmc), htake first (Nat.le_of_lt hlt), htake last (Nat.le_refl _),
      List.drop_append_of_le_length hle, ih]

end Cuts

/-!
# A list in pieces of one length

`chop n` cuts a list in pieces of length `n`, but for a last one with what is left (`chop_eq`).
-/

namespace Chop

variable {α : Type}

def chopFrom (n : Nat) : Nat → List α → List (List α)
  | 0, _ => []
  | turns + 1, l => if l.isEmpty then [] else l.take n :: chopFrom n turns (l.drop n)

/-- The pieces of length `n`; the last one has what is left. -/
def chop (n : Nat) (l : List α) : List (List α) := chopFrom n l.length l

variable {n : Nat}

@[simp] theorem chop_nil : chop n ([] : List α) = [] := rfl

theorem chopFrom_nil (turns : Nat) : chopFrom n turns ([] : List α) = [] := by
  cases turns <;> rfl

/-- More turns than are needed change nothing. -/
theorem chopFrom_congr (hn : 0 < n) (turns : Nat) : ∀ (more : Nat) (l : List α), l.length ≤ turns → l.length ≤ more →
    chopFrom n turns l = chopFrom n more l := by
  induction turns with
  | zero =>
    intro more l hl _
    obtain rfl := List.eq_nil_of_length_eq_zero (Nat.le_zero.1 hl)
    rw [chopFrom_nil, chopFrom_nil]
  | succ turns ih =>
    intro more l hl hmore
    cases l with
    | nil => rw [chopFrom_nil, chopFrom_nil]
    | cons x xs =>
      rw [List.length_cons] at hl hmore
      obtain ⟨more, rfl⟩ : ∃ k, more = k + 1 := ⟨more - 1, by omega⟩
      have hdrop : ((x :: xs).drop n).length ≤ xs.length := by
        rw [List.length_drop, List.length_cons]
        omega
      rw [chopFrom, chopFrom, ih more _ (by omega) (by omega)]

theorem chop_of_ne_nil (hn : 0 < n) {l : List α} (h : l ≠ []) : chop n l = l.take n :: chop n (l.drop n) := by
  obtain ⟨x, xs, rfl⟩ := List.exists_cons_of_ne_nil h
  have hdrop : ((x :: xs).drop n).length ≤ xs.length := by
    rw [List.length_drop, List.length_cons]
    omega
  unfold chop
  rw [List.length_cons, chopFrom, chopFrom_congr hn xs.length _ _ hdrop (Nat.le_refl _)]
  rfl

/-- What holds of a list when it holds behind the first `n` items holds of all lists. -/
theorem drop_induction (hn : 0 < n) {P : List α → Prop} (nil : P []) (step : ∀ l, l ≠ [] → P (l.drop n) → P l)
    (l : List α) : P l := by
  induction hl : l.length using Nat.strongRecOn generalizing l with
  | _ k ih =>
    by_cases h : l = []
    · rwa [h]
    · have hpos := List.length_pos_iff.2 h
      exact step l h (ih (l.drop n).length (by rw [List.length_drop]; omega) _ rfl)

theorem flatten_chop (hn : 0 < n) (l : List α) : (chop n l).flatten = l := by
  induction l using drop_induction hn with
  | nil => rfl
  | step l h ih => rw [chop_of_ne_nil hn h, List.flatten_cons, ih, List.take_append_drop]

/-- Whole pieces, and what is left. -/
theorem chop_eq (hn : 0 < n) (l : List α) : ∃ whole rest, chop n l = whole ++ rest ∧ whole.length = l.length / n ∧
    (∀ p ∈ whole, p.length = n) ∧ (if n ∣ l.length then rest = [] else ∃ p, rest = [p] ∧ p.length = l.length % n) := by
  induction l using drop_induction hn with
  | nil => exact ⟨[], [], rfl, by simp, by simp, by simp⟩
  | step l h ih =>
    have hpos := List.length_pos_iff.2 h
    by_cases hlt : l.length < n
    · refine ⟨[], [l], ?_, (Nat.div_eq_of_lt hlt).symm, by simp, ?_⟩
      · rw [chop_of_ne_nil hn h, List.take_of_length_le (Nat.le_of_lt hlt), List.drop_of_length_le (Nat.le_of_lt hlt)]
        rfl
      · rw [if_neg fun hdvd => Nat.not_le_of_lt hlt (Nat.le_of_dvd hpos hdvd)]
        exact ⟨l, rfl, (Nat.mod_eq_of_lt hlt).symm⟩
    · have hle : n ≤ l.length := Nat.le_of_not_lt hlt
      obtain ⟨whole, rest, hall, hwhole, hpieces, hrest⟩ := ih
      rw [List.length_drop] at hwhole hrest
      refine ⟨l.take n :: whole, rest, ?_, ?_, ?_, ?_⟩
      · rw [chop_of_ne_nil hn h, hall]
        rfl
      · rw [List.length_cons, hwhole, Nat.div_eq_sub_div hn hle]
      · intro p hp
        rcases List.mem_cons.1 hp with rfl | hp
        · exact List.length_take_of_le hle
        · exact hpieces p hp
      · rw [Nat.mod_eq_sub_mod hle]
        have hdvd : n ∣ l.length ↔ n ∣ l.length - n :=
          ⟨fun h => Nat.dvd_sub h (Nat.dvd_refl n), fun h => (Nat.sub_add_cancel hle) ▸ Nat.dvd_add h (Nat.dvd_refl n)⟩
        rw [if_congr hdvd rfl rfl]
        exact hrest

/-- A piece is not empty and not too long. -/
theorem length_of_mem_chop (hn : 0 < n) {l p : List α} (h : p ∈ chop n l) : 0 < p.length ∧ p.length ≤ n := by
  obtain ⟨whole, rest, hall, -, hwhole, hrest⟩ := chop_eq hn l
  rw [hall] at h
  rcases List.mem_append.1 h with h | h
  · rw [hwhole p h]
    exact ⟨hn, Nat.le_refl n⟩
  · split at hrest
    · rw [hrest] at h
      cases h
    · rename_i hdvd
      obtain ⟨q, rfl, hq⟩ := hrest
      rw [List.mem_singleton.1 h, hq]
      exact ⟨Nat.pos_of_ne_zero fun h => hdvd (Nat.dvd_of_mod_eq_zero h), Nat.le_of_lt (Nat.mod_lt _ hn)⟩

/-- All pieces are whole where the length is a multiple. -/
theorem length_eq_of_dvd (hn : 0 < n) {l p : List α} (hdvd : n ∣ l.length) (h : p ∈ chop n l) : p.length = n := by
  obtain ⟨whole, rest, hall, -, hwhole, hrest⟩ := chop_eq hn l
  rw [if_pos hdvd] at hrest
  rw [hall, hrest, List.append_nil] at h
  exact hwhole p h

/-- A list that is not longer than a piece is one piece. -/
theorem chop_of_le (hn : 0 < n) {l : List α} (h : l ≠ []) (hle : l.length ≤ n) : chop n l = [l] := by
  rw [chop_of_ne_nil hn h, List.take_of_length_le hle, List.drop_of_length_le hle, chop_nil]

/-- The lengths of the pieces depend on the length alone. -/
theorem map_length_chop (hn : 0 < n) {β : Type} (l : List α) (l' : List β) (h : l.length = l'.length) :
    (chop n l).map List.length = (chop n l').map List.length := by
  induction l using drop_induction hn generalizing l' with
  | nil =>
    rw [List.eq_nil_of_length_eq_zero h.symm]
    rfl
  | step l hnil ih =>
    have hnil' : l' ≠ [] := List.length_pos_iff.1 (h ▸ List.length_pos_iff.2 hnil)
    rw [chop_of_ne_nil hn hnil, chop_of_ne_nil hn hnil', List.map_cons, List.map_cons, List.length_take,
      List.length_take, h]
    congr 1
    apply ih
    rw [List.length_drop, List.length_drop, h]

/-- Pieces of the length are cut again as they are. -/
theorem chop_flatten (hn : 0 < n) {ps : List (List α)} (h : ∀ p ∈ ps, p.length = n) : chop n ps.flatten = ps := by
  induction ps with
  | nil => rfl
  | cons p ps ih =>
    have hp := h p List.mem_cons_self
    have hne : p ++ ps.flatten ≠ [] := fun hnil => by
      rw [(List.append_eq_nil_iff.1 hnil).1, List.length_nil] at hp
      omega
    rw [List.flatten_cons, chop_of_ne_nil hn hne, List.take_left' hp, List.drop_left' hp,
      ih fun q hq => h q (List.mem_cons_of_mem p hq)]

theorem dvd_length_flatten {ps : List (List α)} (h : ∀ p ∈ ps, p.length = n) : n ∣ ps.flatten.length := by
  induction ps with
  | nil => exact Nat.dvd_zero n
  | cons p ps ih =>
    rw [List.flatten_cons, List.length_append, h p List.mem_cons_self]
    exact Nat.dvd_add (Nat.dvd_refl n) (ih fun q hq => h q (List.mem_cons_of_mem p hq))

/-- Behind whole pieces it is cut anew. -/
theorem chop_append (hn : 0 < n) {l : List α} (h : n ∣ l.length) (r : List α) : chop n (l ++ r) = chop n l ++ chop n r := by
  induction l using drop_induction hn with
  | nil => rfl
  | step l hne ih =>
    have hle : n ≤ l.length := Nat.le_of_dvd (List.length_pos_iff.2 hne) h
    have hne' : l ++ r ≠ [] := fun hnil => hne (List.append_eq_nil_iff.1 hnil).1
    rw [chop_of_ne_nil hn hne', chop_of_ne_nil hn hne, List.take_append_of_le_length hle, List.drop_append_of_le_length hle,
      List.cons_append, ih (by rw [List.length_drop]; exact Nat.dvd_sub h (Nat.dvd_refl n))]

/-- As many pieces as fit, but for a last one that is not whole. -/
theorem length_chop (hn : 0 < n) (l : List α) :
    l.length ≤ n * (chop n l).length ∧ (n * (chop n l).length = l.length ↔ n ∣ l.length) := by
  obtain ⟨whole, rest, hall, hwhole, -, hrest⟩ := chop_eq hn l
  have hdiv := Nat.div_add_mod l.length n
  rw [hall, List.length_append, hwhole, Nat.mul_add]
  split at hrest
  · rename_i hdvd
    rw [Nat.mod_eq_zero_of_dvd hdvd] at hdiv
    rw [hrest, List.length_nil, Nat.mul_zero]
    exact ⟨by omega, iff_of_true (by omega) hdvd⟩
  · rename_i hdvd
    obtain ⟨p, rfl, -⟩ := hrest
    have hmod := Nat.mod_lt l.length hn
    rw [List.length_singleton, Nat.mul_one]
    exact ⟨by omega, iff_of_false (by omega) hdvd⟩

end Chop
