import Mathlib.Data.List.Basic
import Mathlib.Tactic.Ring

/-!
# Slices, patches and little-endian numbers

A store of bytes is a list. `slice s off n` reads `n` cells from `off`; `patch s off p` writes `p` over the cells
from `off`. What a patch leaves in a slice is decided by where the slice lies:

- disjoint from the patch (`slice_patch_before`, `slice_patch_after`), the old cells;
- inside the patch (`slice_patch_inside`), cells of the patch.

`leBytes w n` is `n` as `w` bytes, least significant first, and `leNat` reads it back (`leNat_leBytes`,
`leBytes_leNat`).
-/

set_option autoImplicit false

namespace ByteStore

variable {α : Type}

/-! ## Slices -/

/-- The `n` cells from `off`. -/
def slice (s : List α) (off n : Nat) : List α := (s.drop off).take n

@[simp] theorem length_slice (s : List α) (off n : Nat) : (slice s off n).length = min n (s.length - off) := by
  simp [slice]

theorem length_slice_of_le {s : List α} {off n : Nat} (h : off + n ≤ s.length) : (slice s off n).length = n := by
  simp; omega

theorem slice_zero (s : List α) (n : Nat) : slice s 0 n = s.take n := by simp [slice]

theorem getElem?_slice (s : List α) (off n i : Nat) :
    (slice s off n)[i]? = if i < n then s[off + i]? else none := by
  simp [slice, List.getElem?_take]

/-- A slice of a slice. -/
theorem slice_slice (s : List α) {off n off' n' : Nat} (h : off' + n' ≤ n) :
    slice (slice s off n) off' n' = slice s (off + off') n' := by
  apply List.ext_getElem?
  intro i
  simp only [getElem?_slice, Nat.add_assoc]
  split
  · rw [if_pos (by omega)]
  · rfl

/-- Two slices in a row. -/
theorem slice_add (s : List α) (off m n : Nat) : slice s off (m + n) = slice s off m ++ slice s (off + m) n := by
  rw [slice, slice, slice, List.take_add, List.drop_drop]

theorem take_slice (s : List α) (off : Nat) {n k : Nat} (h : k ≤ n) : (slice s off n).take k = slice s off k := by
  simp [slice, List.take_take, Nat.min_eq_left h]

/-- Cells of the left part. -/
theorem slice_append_left {s t : List α} {off n : Nat} (h : off + n ≤ s.length) :
    slice (s ++ t) off n = slice s off n := by
  apply List.ext_getElem?
  intro i
  simp only [getElem?_slice]
  split
  · rw [List.getElem?_append_left (by omega)]
  · rfl

/-- Cells of the right part. -/
theorem slice_append_right {s t : List α} {off n : Nat} (h : s.length ≤ off) :
    slice (s ++ t) off n = slice t (off - s.length) n := by
  apply List.ext_getElem?
  intro i
  simp only [getElem?_slice]
  split
  · rw [List.getElem?_append_right (by omega)]
    congr 1; omega
  · rfl

/-- Two stores with the same cells in a range have the same slice there. -/
theorem slice_congr {s t : List α} {off n : Nat} (h : ∀ i, off ≤ i → i < off + n → s[i]? = t[i]?) :
    slice s off n = slice t off n := by
  apply List.ext_getElem?
  intro i
  simp only [getElem?_slice]
  split
  · exact h _ (by omega) (by omega)
  · rfl

/-- Two stores with the same slice have the same cells in its range. -/
theorem getElem?_of_slice_eq {s t : List α} {off n i : Nat} (h : slice s off n = slice t off n) (h₁ : off ≤ i)
    (h₂ : i < off + n) : s[i]? = t[i]? := by
  have := congrArg (·[i - off]?) h
  simpa [getElem?_slice, show i - off < n by omega, show off + (i - off) = i by omega] using this

/-! ## Patches -/

/-- Write `p` over the cells from `off`. -/
def patch (s : List α) (off : Nat) (p : List α) : List α := s.take off ++ p ++ s.drop (off + p.length)

@[simp] theorem length_patch (s : List α) (off : Nat) (p : List α) :
    (patch s off p).length = min off s.length + p.length + (s.length - (off + p.length)) := by
  simp [patch, Nat.add_assoc]

theorem length_patch_of_le {s : List α} {off : Nat} {p : List α} (h : off + p.length ≤ s.length) :
    (patch s off p).length = s.length := by
  rw [length_patch]; omega

@[simp] theorem patch_nil (s : List α) (off : Nat) : patch s off [] = s := by simp [patch]

theorem getElem?_patch {s : List α} {off : Nat} {p : List α} (h : off ≤ s.length) (i : Nat) :
    (patch s off p)[i]? = if off ≤ i ∧ i < off + p.length then p[i - off]? else s[i]? := by
  unfold patch
  have hl : (s.take off).length = off := by simp; omega
  by_cases h₁ : i < off
  · rw [List.append_assoc, List.getElem?_append_left (by omega), List.getElem?_take_of_lt h₁, if_neg (by omega)]
  · rw [List.append_assoc, List.getElem?_append_right (by omega), hl]
    by_cases h₂ : i < off + p.length
    · rw [List.getElem?_append_left (by omega), if_pos (by omega)]
    · rw [List.getElem?_append_right (by omega), List.getElem?_drop, if_neg (by omega)]
      congr 1; omega

/-- A slice before the patch. -/
theorem slice_patch_before {s : List α} {off : Nat} {p : List α} {o n : Nat} (h : off ≤ s.length)
    (hd : o + n ≤ off) : slice (patch s off p) o n = slice s o n :=
  slice_congr fun i _ _ => by rw [getElem?_patch h, if_neg (by omega)]

/-- A slice after the patch. -/
theorem slice_patch_after {s : List α} {off : Nat} {p : List α} {o n : Nat} (h : off ≤ s.length)
    (hd : off + p.length ≤ o) : slice (patch s off p) o n = slice s o n :=
  slice_congr fun i _ _ => by rw [getElem?_patch h, if_neg (by omega)]

/-- A slice inside the patch. -/
theorem slice_patch_inside {s : List α} {off : Nat} {p : List α} {o n : Nat} (h : off ≤ s.length)
    (h₁ : off ≤ o) (h₂ : o + n ≤ off + p.length) : slice (patch s off p) o n = slice p (o - off) n := by
  apply List.ext_getElem?
  intro i
  simp only [getElem?_slice, getElem?_patch h]
  split
  · rw [if_pos (by omega)]; congr 1; omega
  · rfl

/-- The slice at the patch is the patch. -/
theorem slice_patch_self {s : List α} {off : Nat} {p : List α} {n : Nat} (h : off ≤ s.length) (hn : n = p.length) :
    slice (patch s off p) off n = p := by
  subst hn
  rw [slice_patch_inside h (Nat.le_refl _) (Nat.le_refl _)]
  simp [slice]

/-- A patch whose range holds a whole slice, cut after `k` cells: the first `k` cells are new, the others old. -/
theorem slice_patch_take {s : List α} {off : Nat} {p : List α} (k : Nat) (h : off + p.length ≤ s.length) :
    slice (patch s off (p.take k)) off p.length = p.take k ++ (slice s off p.length).drop k := by
  apply List.ext_getElem?
  intro i
  rw [getElem?_slice, getElem?_patch (by omega)]
  by_cases hi : i < p.length
  · rw [if_pos hi]
    by_cases hk : i < k
    · rw [if_pos (by simp; omega), List.getElem?_append_left (by simp; omega)]
      congr 1; omega
    · rw [if_neg (by simp; omega), List.getElem?_append_right (by simp; omega), List.getElem?_drop, getElem?_slice,
        if_pos (by simp; omega)]
      congr 1; simp; omega
  · rw [if_neg hi, List.getElem?_eq_none]
    simp; omega

/-! ## Several patches -/

/-- Write each `(off, p)` in turn. -/
def patchAll : List α → List (Nat × List α) → List α
  | s, [] => s
  | s, (off, p) :: ps => patchAll (patch s off p) ps

/-- The patches lie in the first `n` cells. -/
def Within (ps : List (Nat × List α)) (n : Nat) : Prop := ∀ q ∈ ps, q.1 + q.2.length ≤ n

/-- Two patches have no cell in common. -/
def Apart (q q' : Nat × List α) : Prop := q.1 + q.2.length ≤ q'.1 ∨ q'.1 + q'.2.length ≤ q.1

theorem length_patchAll : ∀ {s : List α} {ps : List (Nat × List α)}, Within ps s.length →
    (patchAll s ps).length = s.length
  | _, [], _ => rfl
  | s, (off, p) :: ps, h => by
    have hl := length_patch_of_le (h (off, p) (by simp))
    rw [patchAll, length_patchAll (fun q hq => by rw [hl]; exact h q (by simp [hq])), hl]

/-- A slice that no patch touches. -/
theorem slice_patchAll_of_apart {o n : Nat} : ∀ {s : List α} {ps : List (Nat × List α)}, Within ps s.length →
    (∀ q ∈ ps, o + n ≤ q.1 ∨ q.1 + q.2.length ≤ o) → slice (patchAll s ps) o n = slice s o n
  | _, [], _, _ => rfl
  | s, (off, p) :: ps, h, hd => by
    have h₀ := h (off, p) (by simp)
    have hl := length_patch_of_le h₀
    rw [patchAll, slice_patchAll_of_apart (fun q hq => by rw [hl]; exact h q (by simp [hq]))
      fun q hq => hd q (by simp [hq])]
    rcases hd (off, p) (by simp) with h₁ | h₁
    · exact slice_patch_before (by omega) h₁
    · exact slice_patch_after (by omega) h₁

/-- The slice at one of several disjoint patches is that patch. -/
theorem slice_patchAll_self {o n : Nat} {p : List α} : ∀ {s : List α} {ps : List (Nat × List α)},
    Within ps s.length → ps.Pairwise Apart → (o, p) ∈ ps → n = p.length → slice (patchAll s ps) o n = p
  | _, [], _, _, hm, _ => by simp at hm
  | s, (off, q) :: ps, h, hd, hm, hn => by
    rw [List.pairwise_cons] at hd
    have h₀ := h (off, q) (by simp)
    have hl := length_patch_of_le h₀
    have hw : Within ps (patch s off q).length := fun q hq => by rw [hl]; exact h q (by simp [hq])
    rw [patchAll]
    rcases List.mem_cons.1 hm with hm | hm
    · cases hm
      rw [slice_patchAll_of_apart hw fun q hq => hn ▸ hd.1 q hq]
      exact slice_patch_self (by omega) hn
    · exact slice_patchAll_self hw hd.2 hm hn

/-- A fresh buffer. -/
def zeros (n : Nat) : List UInt8 := List.replicate n 0

@[simp] theorem length_zeros (n : Nat) : (zeros n).length = n := List.length_replicate

theorem slice_zeros {n off k : Nat} (h : off + k ≤ n) : slice (zeros n) off k = zeros k := by
  rw [slice, zeros, List.drop_replicate, List.take_replicate, Nat.min_eq_left (by omega), zeros]

/-- Cut to `n` bytes, or fill up to `n` with zeros. -/
def resize (s : List UInt8) (n : Nat) : List UInt8 := s.take n ++ zeros (n - s.length)

@[simp] theorem length_resize (s : List UInt8) (n : Nat) : (resize s n).length = n := by
  simp [resize]; omega

theorem resize_of_le {s : List UInt8} {n : Nat} (h : s.length ≤ n) : resize s n = s ++ zeros (n - s.length) := by
  rw [resize, List.take_of_length_le h]

/-! ## Little-endian numbers -/

/-- `n` as `w` bytes, least significant first; bits above `8 * w` are dropped. -/
def leBytes : Nat → Nat → List UInt8
  | 0, _ => []
  | w + 1, n => UInt8.ofNat n :: leBytes w (n / 256)

/-- The number with the given bytes, least significant first. -/
def leNat : List UInt8 → Nat
  | [] => 0
  | b :: bs => b.toNat + 256 * leNat bs

@[simp] theorem length_leBytes : ∀ w n, (leBytes w n).length = w
  | 0, _ => rfl
  | w + 1, n => by simp [leBytes, length_leBytes w]

theorem leNat_leBytes : ∀ w n, leNat (leBytes w n) = n % 256 ^ w
  | 0, n => by simp [leBytes, leNat, Nat.mod_one]
  | w + 1, n => by
    rw [leBytes, leNat, leNat_leBytes w, Nat.pow_succ', Nat.mod_mul]
    simp

theorem leNat_leBytes_of_lt {w n : Nat} (h : n < 256 ^ w) : leNat (leBytes w n) = n := by
  rw [leNat_leBytes, Nat.mod_eq_of_lt h]

theorem leNat_lt : ∀ bs : List UInt8, leNat bs < 256 ^ bs.length
  | [] => by simp [leNat]
  | b :: bs => by
    have ih := leNat_lt bs
    have hb := b.toNat_lt
    rw [leNat, List.length_cons, Nat.pow_succ']
    omega

theorem leBytes_leNat : ∀ bs : List UInt8, leBytes bs.length (leNat bs) = bs
  | [] => rfl
  | b :: bs => by
    have hb := b.toNat_lt
    rw [List.length_cons, leNat, leBytes, Nat.add_mul_div_left _ _ (by omega), Nat.div_eq_of_lt (by omega),
      Nat.zero_add, leBytes_leNat bs]
    congr 1
    apply UInt8.toNat_inj.1
    rw [UInt8.toNat_ofNat']
    omega

/-! ## Fixed-width reads and writes -/

def u16le (v : UInt16) : List UInt8 := leBytes 2 v.toNat

def u32le (v : UInt32) : List UInt8 := leBytes 4 v.toNat

def u64le (v : UInt64) : List UInt8 := leBytes 8 v.toNat

@[simp] theorem length_u16le (v : UInt16) : (u16le v).length = 2 := length_leBytes _ _

@[simp] theorem length_u32le (v : UInt32) : (u32le v).length = 4 := length_leBytes _ _

@[simp] theorem length_u64le (v : UInt64) : (u64le v).length = 8 := length_leBytes _ _

def ofLe16 (bs : List UInt8) : UInt16 := UInt16.ofNat (leNat bs)

def ofLe32 (bs : List UInt8) : UInt32 := UInt32.ofNat (leNat bs)

def ofLe64 (bs : List UInt8) : UInt64 := UInt64.ofNat (leNat bs)

@[simp] theorem ofLe16_u16le (v : UInt16) : ofLe16 (u16le v) = v := by
  have := v.toNat_lt
  rw [ofLe16, u16le, leNat_leBytes_of_lt (by omega)]
  simp

@[simp] theorem ofLe32_u32le (v : UInt32) : ofLe32 (u32le v) = v := by
  have := v.toNat_lt
  rw [ofLe32, u32le, leNat_leBytes_of_lt (by omega)]
  simp

@[simp] theorem ofLe64_u64le (v : UInt64) : ofLe64 (u64le v) = v := by
  have := v.toNat_lt
  rw [ofLe64, u64le, leNat_leBytes_of_lt (by omega)]
  simp

theorem u16le_ofLe16 {bs : List UInt8} (h : bs.length = 2) : u16le (ofLe16 bs) = bs := by
  have hlt := leNat_lt bs
  rw [h] at hlt
  rw [u16le, ofLe16, UInt16.toNat_ofNat', Nat.mod_eq_of_lt (by omega), ← h, leBytes_leNat]

theorem u32le_ofLe32 {bs : List UInt8} (h : bs.length = 4) : u32le (ofLe32 bs) = bs := by
  have hlt := leNat_lt bs
  rw [h] at hlt
  rw [u32le, ofLe32, UInt32.toNat_ofNat', Nat.mod_eq_of_lt (by omega), ← h, leBytes_leNat]

theorem u64le_ofLe64 {bs : List UInt8} (h : bs.length = 8) : u64le (ofLe64 bs) = bs := by
  have hlt := leNat_lt bs
  rw [h] at hlt
  rw [u64le, ofLe64, UInt64.toNat_ofNat', Nat.mod_eq_of_lt (by omega), ← h, leBytes_leNat]

/-! ## Arrays of cells of one width -/

theorem length_flatMap_width {β : Type} {f : α → List β} {w : Nat} (hf : ∀ x, (f x).length = w) (xs : List α) :
    (xs.flatMap f).length = xs.length * w := by
  induction xs with
  | nil => simp
  | cons x xs ih => rw [List.flatMap_cons, List.length_append, hf, ih, List.length_cons]; ring

/-- Cell `i` of an array. -/
theorem slice_flatMap_width {β : Type} {f : α → List β} {w : Nat} (hf : ∀ x, (f x).length = w) {xs : List α} {i : Nat}
    {x : α} (h : xs[i]? = some x) : slice (xs.flatMap f) (i * w) w = f x := by
  induction xs generalizing i with
  | nil => simp at h
  | cons y ys ih =>
    cases i with
    | zero =>
      obtain rfl : y = x := by simpa using h
      rw [List.flatMap_cons, Nat.zero_mul, slice_append_left (by rw [hf]; omega), slice_zero, ← hf y, List.take_length]
    | succ i =>
      rw [List.flatMap_cons, slice_append_right (by rw [hf, Nat.succ_mul]; omega), hf, Nat.succ_mul,
        Nat.add_sub_cancel]
      exact ih (by simpa using h)

/-- The part of a concatenation that one element gives. -/
theorem flatMap_split {β : Type} (f : α → List β) {xs : List α} {i : Nat} {x : α} (h : xs[i]? = some x) :
    xs.flatMap f = (xs.take i).flatMap f ++ (f x ++ (xs.drop (i + 1)).flatMap f) := by
  obtain ⟨hi, rfl⟩ := List.getElem?_eq_some_iff.1 h
  rw [← List.flatMap_cons, List.getElem_cons_drop, ← List.flatMap_append, List.take_append_drop]

/-- A part of a concatenation, found behind what precedes it. -/
theorem slice_part {out a b c : List α} {off n : Nat} (h : out = a ++ (b ++ c)) (ho : off = a.length)
    (hn : n = b.length) : slice out off n = b ∧ off + n ≤ out.length := by
  subst h ho hn
  refine ⟨?_, by simp⟩
  rw [slice_append_right (le_refl _), Nat.sub_self, slice_append_left (by omega), slice_zero, List.take_length]

end ByteStore
