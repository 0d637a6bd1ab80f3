import Peiosutils.Lib.Lines

/-!
# The first and the last lines of a text, and the lines from one on

The last lines, and the lines from one on, are what is left behind a number of separators (`skip_eq`): a text in front
moves this number by its separators (`skip_append`), and does not change the last lines once there are more than enough
of them (`lastLines_append`). The first lines are what is in front of it (`firstLines_append_skip`).
-/

set_option autoImplicit false

namespace Lines

variable {α : Type} [DecidableEq α]

/-- What is left behind the first `k` separators. -/
def skip (sep : α) : Nat → List α → List α
  | 0, c => c
  | _ + 1, [] => []
  | k + 1, x :: xs => if x = sep then skip sep k xs else skip sep (k + 1) xs

/-- The last `n` lines, with their separators; an open line at the end is one of them. -/
def lastLines (sep : α) (n : Nat) (c : List α) : List α :=
  ((pieces sep c).drop ((pieces sep c).length - n)).flatten

/-- The lines from the `n`-th on; the first one is number 1. -/
def linesFrom (sep : α) (n : Nat) (c : List α) : List α := ((pieces sep c).drop (n - 1)).flatten

variable {sep : α}

@[simp] theorem skip_zero (c : List α) : skip sep 0 c = c := by
  cases c <;> rfl

@[simp] theorem skip_nil (k : Nat) : skip sep k [] = [] := by
  cases k <;> rfl

theorem skip_eq (k : Nat) (c : List α) : skip sep k c = ((pieces sep c).drop k).flatten := by
  induction c generalizing k with
  | nil => simp [pieces]
  | cons x xs ih =>
    cases k with
    | zero => rw [skip_zero, List.drop_zero, flatten_pieces]
    | succ k =>
      rw [skip, pieces]
      split
      · rw [List.drop_succ_cons, ih]
      · cases hp : pieces sep xs with
        | nil =>
          rw [pieces_eq_nil.1 hp, skip_nil]
          simp
        | cons p ps => rw [ih, hp, List.drop_succ_cons, List.drop_succ_cons]

/-- Its lines are those behind the first `k`. -/
theorem pieces_skip (k : Nat) (c : List α) : pieces sep (skip sep k c) = (pieces sep c).drop k := by
  induction c generalizing k with
  | nil => simp [pieces]
  | cons x xs ih =>
    cases k with
    | zero => rw [skip_zero, List.drop_zero]
    | succ k =>
      rw [skip, pieces]
      split
      · rw [List.drop_succ_cons, ih]
      · cases hp : pieces sep xs with
        | nil =>
          rw [pieces_eq_nil.1 hp, skip_nil]
          simp [pieces]
        | cons p ps => rw [ih, hp, List.drop_succ_cons, List.drop_succ_cons]

theorem skip_eq_nil_iff {k : Nat} {c : List α} : skip sep k c = [] ↔ (pieces sep c).length ≤ k := by
  rw [← pieces_eq_nil, pieces_skip, List.drop_eq_nil_iff]

theorem skip_append_of_le {k : Nat} {c : List α} (hk : k ≤ c.count sep) (d : List α) :
    skip sep k (c ++ d) = skip sep k c ++ d := by
  induction c generalizing k with
  | nil =>
    obtain rfl := Nat.le_zero.1 hk
    simp
  | cons x xs ih =>
    cases k with
    | zero => simp
    | succ k =>
      rw [List.cons_append, skip, skip]
      rw [List.count_cons] at hk
      split
      · rename_i hx
        apply ih
        simp only [hx, beq_self_eq_true, if_true] at hk
        omega
      · rename_i hx
        apply ih
        simpa [hx] using hk

theorem skip_append {k : Nat} (hk : 0 < k) (c d : List α) : skip sep (c.count sep + k) (c ++ d) = skip sep k d := by
  induction c with
  | nil => rw [List.count_nil, Nat.zero_add, List.nil_append]
  | cons x xs ih =>
    rw [List.cons_append, List.count_cons]
    by_cases hx : x = sep
    · rw [if_pos (beq_iff_eq.2 hx), show xs.count sep + 1 + k = xs.count sep + k + 1 by omega, skip, if_pos hx, ih]
    · obtain ⟨j, rfl⟩ : ∃ j, k = j + 1 := ⟨k - 1, by omega⟩
      rw [if_neg (by simpa using hx), Nat.add_zero, ← Nat.add_assoc, skip, if_neg hx, Nat.add_assoc, ih]

omit [DecidableEq α] in
theorem terminated_append {c d : List α} (hd : d ≠ []) : Terminated sep (c ++ d) ↔ Terminated sep d := by
  unfold Terminated
  rw [List.append_eq_nil_iff, List.getLast?_append_of_ne_nil c hd]
  simp [hd]

/-- The lines are counted by their separators, but for an open one. -/
theorem length_pieces (c : List α) : (pieces sep c).length = c.count sep + if Terminated sep c then 0 else 1 := by
  induction c with
  | nil => simp [pieces, Terminated]
  | cons x xs ih =>
    rw [pieces, List.count_cons]
    by_cases hxs : xs = []
    · subst hxs
      by_cases hx : x = sep <;> simp [hx, pieces, Terminated]
    · have hterm : Terminated sep (x :: xs) ↔ Terminated sep xs := @terminated_append α sep [x] xs hxs
      simp only [hterm]
      split
      · rename_i hx
        rw [List.length_cons, ih, if_pos (beq_iff_eq.2 hx)]
        omega
      · rename_i hx
        cases hp : pieces sep xs with
        | nil => exact absurd (pieces_eq_nil.1 hp) hxs
        | cons p ps =>
          have hbeq : (x == sep) = false := by simpa using hx
          rw [hp, List.length_cons] at ih
          rw [List.length_cons, ih, hbeq, if_neg Bool.false_ne_true, Nat.add_zero]

/-- A text in front adds its separators to the number of lines. -/
theorem length_pieces_append (c : List α) {d : List α} (hd : d ≠ []) :
    (pieces sep (c ++ d)).length = c.count sep + (pieces sep d).length := by
  rw [length_pieces, length_pieces, List.count_append]
  simp only [terminated_append hd]
  omega

/-- A terminated text is cut in front of its last separator. -/
theorem chomp_cases (c : List α) :
    (chomp sep c = c ∧ c.getLast? ≠ some sep) ∨ chomp sep c ++ [sep] = c ∧ c.getLast? = some sep := by
  unfold chomp
  split
  · rename_i hlast
    have hne : c ≠ [] := by
      rintro rfl
      cases hlast
    refine Or.inr ⟨?_, hlast⟩
    rw [List.getLast?_eq_some_getLast hne] at hlast
    rw [← Option.some.inj hlast]
    exact List.dropLast_append_getLast hne
  · rename_i hlast
    exact Or.inl ⟨rfl, hlast⟩

/-- Behind a separator that does not end the text. -/
theorem chomp_drop {c : List α} {j : Nat} (h : (chomp sep c)[j]? = some sep) :
    (chomp sep c).drop (j + 1) = chomp sep (c.drop (j + 1)) ∧ c.drop (j + 1) ≠ [] := by
  obtain ⟨hlt, hget⟩ := List.getElem?_eq_some_iff.1 h
  obtain ⟨heq, hlast⟩ | ⟨heq, -⟩ := @chomp_cases α _ sep c
  · rw [heq] at h hlt ⊢
    have hne : c.drop (j + 1) ≠ [] := by
      intro hnil
      apply hlast
      rw [List.getLast?_eq_getElem?, ← h]
      have := List.drop_eq_nil_iff.1 hnil
      congr 1
      omega
    refine ⟨?_, hne⟩
    rw [chomp, if_neg]
    rwa [List.getLast?_drop, if_neg fun hle => hne (List.drop_eq_nil_of_le hle)]
  · have hdrop : c.drop (j + 1) = (chomp sep c).drop (j + 1) ++ [sep] := by
      rw [← heq, List.drop_append_of_le_length hlt, heq]
    refine ⟨?_, fun hnil => ?_⟩
    · rw [hdrop]
      generalize (chomp sep c).drop (j + 1) = d
      simp [chomp]
    · rw [hdrop] at hnil
      simp at hnil

/-- The lines are one more than the separators in front of the last byte. -/
theorem length_pieces_chomp {c : List α} (h : c ≠ []) : (pieces sep c).length = (chomp sep c).count sep + 1 := by
  rw [length_pieces]
  obtain ⟨heq, hlast⟩ | ⟨heq, hlast⟩ := @chomp_cases α _ sep c
  · rw [heq, if_neg (by simp [Terminated, h, hlast])]
  · have hterm : Terminated sep c := Or.inr hlast
    have hcount := congrArg (List.count sep) heq
    rw [List.count_append, List.count_singleton_self] at hcount
    rw [if_pos hterm, ← hcount, Nat.add_zero]

theorem pieces_length_pos {c : List α} (h : c ≠ []) : 0 < (pieces sep c).length :=
  List.length_pos_iff.2 fun hp => h (pieces_eq_nil.1 hp)

theorem lastLines_eq (n : Nat) (c : List α) : lastLines sep n c = skip sep ((pieces sep c).length - n) c :=
  (skip_eq _ c).symm

theorem linesFrom_eq (n : Nat) (c : List α) : linesFrom sep n c = skip sep (n - 1) c := (skip_eq _ c).symm

theorem lastLines_zero (c : List α) : lastLines sep 0 c = [] := by simp [lastLines]

theorem length_skip_le (k : Nat) (c : List α) : (skip sep k c).length ≤ c.length := by
  induction c generalizing k with
  | nil => simp
  | cons x xs ih =>
    cases k with
    | zero => simp
    | succ k =>
      rw [skip, List.length_cons]
      split
      · exact Nat.le_succ_of_le (ih k)
      · exact Nat.le_succ_of_le (ih (k + 1))

theorem length_lastLines_le (n : Nat) (c : List α) : (lastLines sep n c).length ≤ c.length := by
  rw [lastLines_eq]
  exact length_skip_le _ c

/-- All lines, where there are no more of them. -/
theorem lastLines_of_le {n : Nat} {c : List α} (h : (pieces sep c).length ≤ n) : lastLines sep n c = c := by
  rw [lastLines_eq, Nat.sub_eq_zero_of_le h, skip_zero]

/-- The last lines do not depend on what is in front of more than enough lines. -/
theorem lastLines_append {n : Nat} (c : List α) {d : List α} (h : n < (pieces sep d).length) :
    lastLines sep n (c ++ d) = lastLines sep n d := by
  have hd : d ≠ [] := by
    rintro rfl
    cases h
  rw [lastLines_eq, lastLines_eq, length_pieces_append c hd, Nat.add_sub_assoc (Nat.le_of_lt h)]
  exact skip_append (Nat.sub_pos_of_lt h) c d

/-- What is behind a separator are the last lines. -/
theorem lastLines_of_terminated {c : List α} (hc : Terminated sep c) (d : List α) :
    lastLines sep (pieces sep d).length (c ++ d) = d := by
  rw [lastLines, pieces_append hc, List.length_append, Nat.add_sub_cancel, List.drop_left, flatten_pieces]

/-- Where there are not too many lines at the end, they are among the last lines. -/
theorem exists_lastLines_append {n : Nat} (c : List α) {d : List α} (h : (pieces sep d).length ≤ n) :
    ∃ s, lastLines sep n (c ++ d) = s ++ d := by
  by_cases hd : d = []
  · subst hd
    exact ⟨_, (List.append_nil _).symm⟩
  · rw [lastLines_eq, length_pieces_append c hd]
    exact ⟨_, skip_append_of_le (by omega) d⟩

/-- Behind all separators there is at most an open line, and behind more nothing. -/
theorem skip_of_count_lt {k : Nat} {c : List α} (h : c.count sep < k) : skip sep k c = [] := by
  have := @skip_append α _ sep _ (Nat.sub_pos_of_lt h) c []
  rwa [List.append_nil, skip_nil, Nat.add_sub_cancel' (Nat.le_of_lt h)] at this

/-! ## The first lines -/

/-- The text up to its `k`-th separator. -/
def firstLines (sep : α) : Nat → List α → List α
  | 0, _ => []
  | _ + 1, [] => []
  | k + 1, x :: xs => x :: if x = sep then firstLines sep k xs else firstLines sep (k + 1) xs

@[simp] theorem firstLines_zero (c : List α) : firstLines sep 0 c = [] := by
  cases c <;> rfl

@[simp] theorem firstLines_nil (k : Nat) : firstLines sep k [] = [] := by
  cases k <;> rfl

theorem firstLines_append_skip (k : Nat) (c : List α) : firstLines sep k c ++ skip sep k c = c := by
  induction c generalizing k with
  | nil => simp
  | cons x xs ih =>
    cases k with
    | zero => simp
    | succ k =>
      rw [firstLines, skip]
      split
      · rw [List.cons_append, ih]
      · rw [List.cons_append, ih]

theorem take_length_firstLines (k : Nat) (c : List α) : c.take (firstLines sep k c).length = firstLines sep k c :=
  calc c.take (firstLines sep k c).length
    _ = (firstLines sep k c ++ skip sep k c).take (firstLines sep k c).length := by rw [firstLines_append_skip]
    _ = firstLines sep k c := List.take_left

theorem drop_length_firstLines (k : Nat) (c : List α) : c.drop (firstLines sep k c).length = skip sep k c :=
  calc c.drop (firstLines sep k c).length
    _ = (firstLines sep k c ++ skip sep k c).drop (firstLines sep k c).length := by rw [firstLines_append_skip]
    _ = skip sep k c := List.drop_left

/-- It is the first `k` lines. -/
theorem firstLines_eq (k : Nat) (c : List α) : firstLines sep k c = ((pieces sep c).take k).flatten := by
  refine (List.append_left_inj (skip sep k c)).1 ?_
  rw [firstLines_append_skip, skip_eq, ← List.flatten_append, List.take_append_drop, flatten_pieces]

/-- A text in front whose separators are not enough is there as a whole. -/
theorem firstLines_append_of_lt {k : Nat} {c : List α} (h : c.count sep < k) (d : List α) :
    firstLines sep k (c ++ d) = c ++ firstLines sep (k - c.count sep) d := by
  refine (List.append_left_inj (skip sep k (c ++ d))).1 ?_
  obtain ⟨j, rfl⟩ := Nat.exists_eq_add_of_lt h
  rw [firstLines_append_skip, Nat.add_assoc, skip_append (Nat.succ_pos j), Nat.add_sub_cancel_left, List.append_assoc,
    firstLines_append_skip]

theorem firstLines_append_of_le {k : Nat} {c : List α} (h : k ≤ c.count sep) (d : List α) :
    firstLines sep k (c ++ d) = firstLines sep k c := by
  refine (List.append_left_inj (skip sep k (c ++ d))).1 ?_
  rw [firstLines_append_skip, skip_append_of_le h, ← List.append_assoc, firstLines_append_skip]

theorem count_firstLines {k : Nat} {c : List α} (h : k ≤ c.count sep) : (firstLines sep k c).count sep = k := by
  induction c generalizing k with
  | nil =>
    obtain rfl := Nat.le_zero.1 h
    rfl
  | cons x xs ih =>
    cases k with
    | zero => simp
    | succ k =>
      rw [firstLines]
      by_cases hx : x = sep
      · rw [if_pos hx, hx, List.count_cons_self, ih]
        rw [hx, List.count_cons_self] at h
        omega
      · rw [if_neg hx, List.count_cons_of_ne hx, ih]
        rwa [List.count_cons_of_ne hx] at h

theorem firstLines_of_count_lt {k : Nat} {c : List α} (h : c.count sep < k) : firstLines sep k c = c := by
  have hall := @firstLines_append_skip _ _ sep k c
  rwa [skip_of_count_lt h, List.append_nil] at hall

theorem firstLines_append (k : Nat) (c d : List α) :
    firstLines sep k (c ++ d) = firstLines sep k c ++ firstLines sep (k - c.count sep) d := by
  by_cases h : c.count sep < k
  · rw [firstLines_append_of_lt h, firstLines_of_count_lt h]
  · rw [firstLines_append_of_le (Nat.le_of_not_lt h), Nat.sub_eq_zero_of_le (Nat.le_of_not_lt h), firstLines_zero,
      List.append_nil]

/-- All but the last `n` lines. -/
def butLastLines (sep : α) (n : Nat) (c : List α) : List α :=
  ((pieces sep c).take ((pieces sep c).length - n)).flatten

theorem butLastLines_eq (n : Nat) (c : List α) :
    butLastLines sep n c = firstLines sep ((pieces sep c).length - n) c :=
  (firstLines_eq _ c).symm

end Lines
