import Mathlib.Data.List.Basic

/-!
# Tables of blocks

A table with one block of a fixed length for each item, read by index arithmetic.
-/

set_option autoImplicit false

namespace Blocks

variable {α β : Type}

/-- The `k`-th entry of the block of the `i`-th item. -/
theorem getElem?_flatMap {f : α → List β} {n : Nat} (hn : ∀ a, (f a).length = n) (as : List α) (i k : Nat)
    (hk : k < n) : (as.flatMap f)[i * n + k]? = as[i]?.bind fun a => (f a)[k]? := by
  induction as generalizing i with
  | nil => rfl
  | cons a as ih =>
    rw [List.flatMap_cons]
    cases i with
    | zero =>
      rw [Nat.zero_mul, Nat.zero_add, List.getElem?_append_left (by rw [hn]; exact hk)]
      rfl
    | succ i =>
      have hidx : (i + 1) * n + k = (f a).length + (i * n + k) := by
        rw [hn, Nat.succ_mul]
        omega
      rw [hidx, List.getElem?_append_right (Nat.le_add_right _ _), Nat.add_sub_cancel_left, ih]
      rfl

/-- The blocks of items that have one entry each where `p` holds, and none elsewhere. -/
theorem length_flatMap_of_countP {f : α → List β} {p : α → Bool} (as : List α)
    (h : ∀ a ∈ as, (f a).length = if p a then 1 else 0) : (as.flatMap f).length = as.countP p := by
  induction as with
  | nil => rfl
  | cons a as ih =>
    rw [List.flatMap_cons, List.length_append, h a List.mem_cons_self,
      ih fun b hb => h b (List.mem_cons_of_mem a hb), List.countP_cons, Nat.add_comm]

/-- The entry of one column: the columns before it are counted by `p`. -/
theorem getElem?_column {γ : Type} {f : γ → α → List β} {p : γ → Bool}
    (hlen : ∀ c a, (f c a).length = if p c then 1 else 0) (before after : List γ) {c : γ} (hc : p c = true)
    {as : List α} {i : Nat} {a : α} (ha : as[i]? = some a) :
    (as.flatMap fun a => (before ++ c :: after).flatMap (f · a))[i * (before ++ c :: after).countP p +
      before.countP p]? = (f c a)[0]? := by
  have hblock : ∀ a, ((before ++ c :: after).flatMap (f · a)).length = (before ++ c :: after).countP p := fun a =>
    length_flatMap_of_countP _ fun d _ => hlen d a
  have hlt : before.countP p < (before ++ c :: after).countP p := by
    rw [List.countP_append, List.countP_cons, if_pos hc]
    omega
  rw [getElem?_flatMap hblock as i _ hlt, ha, Option.bind_some, List.flatMap_append, List.flatMap_cons,
    ← length_flatMap_of_countP before fun d _ => hlen d a, List.getElem?_append_right (Nat.le_refl _), Nat.sub_self,
    List.getElem?_append_left]
  rw [hlen, if_pos hc]
  exact Nat.one_pos

end Blocks

/-!
# A number in shares

`total` is cut into `n` shares, of which the first `total % n` are one greater than the others; `bound total n c` is
where the first `c` shares end. The `n` shares make up the whole (`bound_self`), and each number below it is in one
share (`share_unique`). So a list is the concatenation of its shares (`flatten_shares`).
-/

namespace Shares

variable {total n c d w : Nat}

/-- Where the first `c` shares end. -/
def bound (total n c : Nat) : Nat := c * (total / n) + min c (total % n)

@[simp] theorem bound_zero (total n : Nat) : bound total n 0 = 0 := by
  rw [bound, Nat.zero_mul, Nat.zero_min]

theorem bound_succ (total n c : Nat) :
    bound total n (c + 1) = bound total n c + (total / n + if total % n > c then 1 else 0) := by
  rw [bound, bound, Nat.succ_mul]
  split <;> omega

theorem bound_mono (h : c ≤ d) : bound total n c ≤ bound total n d :=
  Nat.add_le_add (Nat.mul_le_mul_right _ h) (by omega)

/-- The shares make up the whole. -/
theorem bound_self (hn : 0 < n) : bound total n n = total := by
  rw [bound, Nat.min_eq_right (Nat.le_of_lt (Nat.mod_lt total hn)), Nat.div_add_mod]

/-- A number is in one share only. -/
theorem share_unique (hc : bound total n c ≤ w) (hc' : w < bound total n (c + 1)) (hd : bound total n d ≤ w)
    (hd' : w < bound total n (d + 1)) : c = d := by
  rcases Nat.lt_trichotomy c d with h | h | h
  · have hle : bound total n (c + 1) ≤ bound total n d := bound_mono h
    omega
  · exact h
  · have hle : bound total n (d + 1) ≤ bound total n c := bound_mono h
    omega

/-- Where a share is not empty, each share makes the sum greater. -/
theorem bound_lt_succ (h : 0 < total / n) : bound total n c < bound total n (c + 1) := by
  rw [bound_succ]
  omega

/-- Where there are more shares than units, a share has one unit or none. -/
theorem bound_of_lt (h : total < n) : bound total n c = min c total := by
  rw [bound, Nat.div_eq_of_lt h, Nat.mod_eq_of_lt h, Nat.mul_zero, Nat.zero_add]

/-! ## A list in shares -/

section List

variable {α : Type}

/-- The part of the list that is in the share. -/
def share (l : List α) (n c : Nat) : List α :=
  (l.drop (bound l.length n c)).take (bound l.length n (c + 1) - bound l.length n c)

theorem share_eq_nil {l : List α} (h : l.length ≤ bound l.length n c) : share l n c = [] := by
  rw [share, List.drop_eq_nil_of_le h, List.take_nil]

/-- The shares of a list make up the list. -/
theorem flatten_shares (l : List α) (hn : 0 < n) : ((List.range n).map (share l n)).flatten = l := by
  have hfirst : ∀ c, ((List.range c).map (share l n)).flatten = l.take (bound l.length n c) := by
    intro c
    induction c with
    | zero => simp
    | succ c ih =>
      have hle : bound l.length n c ≤ bound l.length n (c + 1) := bound_mono (Nat.le_succ c)
      rw [List.range_succ, List.map_append, List.flatten_append, ih, ← Nat.add_sub_cancel' hle, List.take_add]
      simp [share]
  rw [hfirst, bound_self hn, List.take_length]

/-- With more shares than elements, each element is a share. -/
theorem share_of_lt {l : List α} (h : l.length < n) (hc : c < l.length) : share l n c = share l l.length c := by
  have hself : ∀ d, bound l.length l.length d = d := by
    intro d
    rw [bound, Nat.div_self (by omega), Nat.mod_self, Nat.mul_one, Nat.min_zero, Nat.add_zero]
  rw [share, share, bound_of_lt h, bound_of_lt h, hself, hself, Nat.min_eq_left (Nat.le_of_lt hc),
    Nat.min_eq_left hc]

end List

end Shares
