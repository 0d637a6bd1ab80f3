import Mathlib.Data.List.Basic

/-!
# Texts with gaps

A text is given by marks, which are its items and some numbers of blanks. Two texts are equal exactly when they have the
same items with the same gaps between them (`text_eq_iff`), in however many pieces the blanks of a gap come.
-/

set_option autoImplicit false

namespace Gaps

variable {α : Type}

inductive Mark (α : Type) where
  | blanks (n : Nat)
  | item (x : α)

section Text

variable (blank : α)

def text : List (Mark α) → List α
  | [] => []
  | .blanks n :: ms => List.replicate n blank ++ text ms
  | .item x :: ms => x :: text ms

theorem text_append (ms ns : List (Mark α)) : text blank (ms ++ ns) = text blank ms ++ text blank ns := by
  induction ms with
  | nil => rfl
  | cons m ms ih => cases m <;> simp [text, ih]

end Text

def items : List (Mark α) → List α
  | [] => []
  | .blanks _ :: ms => items ms
  | .item x :: ms => x :: items ms

/-- The blanks before each item and before the end, where `n` stand already. -/
def gaps (n : Nat) : List (Mark α) → List Nat
  | [] => [n]
  | .blanks m :: ms => gaps (n + m) ms
  | .item _ :: ms => n :: gaps 0 ms

theorem items_append (ms ns : List (Mark α)) : items (ms ++ ns) = items ms ++ items ns := by
  induction ms with
  | nil => rfl
  | cons m ms ih => cases m <;> simp [items, ih]

/-! ## A text has one list of items and gaps -/

/-- The text of the items with the gaps before them. -/
def weave (blank : α) : List Nat → List α → List α
  | [], xs => xs
  | n :: _, [] => List.replicate n blank
  | n :: ns, x :: xs => List.replicate n blank ++ x :: weave blank ns xs

theorem replicate_text (blank : α) (ms : List (Mark α)) : ∀ n,
    List.replicate n blank ++ text blank ms = weave blank (gaps n ms) (items ms) := by
  induction ms with
  | nil => intro n; simp [text, gaps, items, weave]
  | cons m ms ih =>
    intro n
    cases m with
    | blanks m => rw [text, gaps, items, ← ih, List.replicate_add, List.append_assoc]
    | item x =>
      rw [text, gaps, items, weave, ← ih 0]
      rfl

variable [DecidableEq α] (blank : α)

/-- The gaps of a text. -/
def gapsOf (n : Nat) : List α → List Nat
  | [] => [n]
  | x :: xs => if x = blank then gapsOf (n + 1) xs else n :: gapsOf 0 xs

theorem gapsOf_replicate (m : Nat) (xs : List α) : ∀ n,
    gapsOf blank n (List.replicate m blank ++ xs) = gapsOf blank (n + m) xs := by
  induction m with
  | zero => intro n; rfl
  | succ m ih =>
    intro n
    rw [List.replicate_succ, List.cons_append, gapsOf, if_pos rfl, ih, Nat.add_assoc, Nat.add_comm 1]

variable {blank}

theorem gapsOf_text {ms : List (Mark α)} (h : blank ∉ items ms) : ∀ n, gapsOf blank n (text blank ms) = gaps n ms := by
  induction ms with
  | nil => intro n; rfl
  | cons m ms ih =>
    intro n
    cases m with
    | blanks m => rw [text, gapsOf_replicate, gaps, ih h]
    | item x =>
      rw [items, List.mem_cons, not_or] at h
      rw [text, gapsOf, if_neg (Ne.symm h.1), gaps, ih h.2]

theorem filter_text {ms : List (Mark α)} (h : blank ∉ items ms) : (text blank ms).filter (· ≠ blank) = items ms := by
  induction ms with
  | nil => rfl
  | cons m ms ih =>
    cases m with
    | blanks m =>
      rw [text, List.filter_append, ih h, items, List.filter_eq_nil_iff.2 (by simp), List.nil_append]
    | item x =>
      rw [items, List.mem_cons, not_or] at h
      rw [text, List.filter_cons_of_pos (by simpa using Ne.symm h.1), ih h.2, items]

/-- **Texts are equal** exactly when their items and their gaps are. -/
theorem text_eq_iff {ms ns : List (Mark α)} (hms : blank ∉ items ms) (hns : blank ∉ items ns) :
    text blank ms = text blank ns ↔ items ms = items ns ∧ gaps 0 ms = gaps 0 ns := by
  constructor
  · intro h
    refine ⟨?_, ?_⟩
    · rw [← filter_text hms, h, filter_text hns]
    · rw [← gapsOf_text hms, h, gapsOf_text hns]
  · rintro ⟨hitems, hgaps⟩
    calc text blank ms = weave blank (gaps 0 ms) (items ms) := replicate_text blank ms 0
      _ = weave blank (gaps 0 ns) (items ns) := by rw [hitems, hgaps]
      _ = text blank ns := (replicate_text blank ns 0).symm

end Gaps
