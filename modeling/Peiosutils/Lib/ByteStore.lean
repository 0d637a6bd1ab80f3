import Peiosutils.Lib.Bytes

/-!
# Growing a store, and inserting into it

`growTo` fills a store up to a length, `insertZeros` moves the cells from an offset on behind zeros. The lemmas say
which slices stay, and where the others are found.
-/

set_option autoImplicit false

namespace ByteStore

variable {α : Type}

/-- Writing a slice where it stands changes nothing. -/
theorem patch_slice {s : List α} {off n : Nat} (h : off + n ≤ s.length) : patch s off (slice s off n) = s := by
  have hlen := length_slice_of_le h
  apply List.ext_getElem?
  intro i
  rw [getElem?_patch (by omega), hlen]
  split
  · rw [getElem?_slice, if_pos (by omega)]
    congr 1
    omega
  · rfl

/-- A slice that a patch does not touch. -/
theorem slice_patch_apart {s p : List α} {off o n : Nat} (h : off ≤ s.length) (hd : o + n ≤ off ∨ off + p.length ≤ o) :
    slice (patch s off p) o n = slice s o n := by
  rcases hd with hd | hd
  · exact slice_patch_before h hd
  · exact slice_patch_after h hd

/-- Cutting or filling behind a slice leaves it. -/
theorem slice_resize {s : List UInt8} {n off k : Nat} (hs : off + k ≤ s.length) (hn : off + k ≤ n) :
    slice (resize s n) off k = slice s off k := by
  apply slice_congr
  intro i _ hi
  rw [resize, List.getElem?_append_left (by simp; omega), List.getElem?_take_of_lt (by omega)]

/-! ## Growing -/

/-- Fill up to `n` cells, where there are fewer. -/
def growTo (s : List UInt8) (n : Nat) : List UInt8 := if s.length < n then resize s n else s

@[simp] theorem length_growTo (s : List UInt8) (n : Nat) : (growTo s n).length = max s.length n := by
  unfold growTo
  split <;> simp <;> omega

theorem slice_growTo {s : List UInt8} {n off k : Nat} (h : off + k ≤ s.length) :
    slice (growTo s n) off k = slice s off k := by
  unfold growTo
  split
  · exact slice_resize h (by omega)
  · rfl

/-- Nothing but zeros below `n` is added. -/
theorem drop_growTo {s : List UInt8} {n k : Nat} (h : n ≤ k) : (growTo s n).drop k = s.drop k := by
  unfold growTo
  split
  · rw [List.drop_eq_nil_of_le (by simp; omega), List.drop_eq_nil_of_le (by omega)]
  · rfl

/-! ## Inserting -/

/-- The cells from `off` on, behind `d` zeros. -/
def insertZeros (s : List UInt8) (off d : Nat) : List UInt8 := s.take off ++ zeros d ++ s.drop off

@[simp] theorem length_insertZeros (s : List UInt8) (off d : Nat) : (insertZeros s off d).length = s.length + d := by
  simp [insertZeros]
  omega

@[simp] theorem insertZeros_zero (s : List UInt8) (off : Nat) : insertZeros s off 0 = s := by
  simp [insertZeros, zeros]

/-- A cell before the zeros. -/
theorem getElem?_insertZeros_lt {s : List UInt8} {off d i : Nat} (hoff : off ≤ s.length) (hi : i < off) :
    (insertZeros s off d)[i]? = s[i]? := by
  rw [insertZeros, List.append_assoc, List.getElem?_append_left (by simp; omega), List.getElem?_take_of_lt hi]

/-- A cell among the zeros. -/
theorem getElem?_insertZeros_mid {s : List UInt8} {off d i : Nat} (hoff : off ≤ s.length) (h₁ : off ≤ i)
    (h₂ : i < off + d) : (insertZeros s off d)[i]? = some 0 := by
  have hlen : (s.take off).length = off := by simp; omega
  rw [insertZeros, List.append_assoc, List.getElem?_append_right (by omega), hlen,
    List.getElem?_append_left (by simp; omega), zeros, List.getElem?_replicate_of_lt (by omega)]

/-- The cells behind the zeros. -/
theorem drop_insertZeros {s : List UInt8} {off d x : Nat} (hoff : off ≤ s.length) (hx : off ≤ x) :
    (insertZeros s off d).drop (x + d) = s.drop x := by
  have hlen : (s.take off ++ zeros d).length = off + d := by simp; omega
  have hsub : x + d - (off + d) = x - off := by omega
  rw [insertZeros, List.drop_append, hlen, List.drop_eq_nil_of_le (by omega), List.nil_append, hsub, List.drop_drop]
  congr 1
  omega

/-! ## Comparing numbers by their bytes -/

theorem leNat_le_of_forall₂ {xs ys : List UInt8} (h : List.Forall₂ (fun x y => x.toNat ≤ y.toNat) xs ys) :
    leNat xs ≤ leNat ys := by
  induction h with
  | nil => exact Nat.le_refl _
  | cons hxy _ ih =>
    unfold leNat
    omega

/-- Numbers of as many bytes are equal only when the bytes are. -/
theorem leNat_inj {xs ys : List UInt8} (hlen : xs.length = ys.length) (h : leNat xs = leNat ys) : xs = ys := by
  rw [← leBytes_leNat xs, ← leBytes_leNat ys, hlen, h]

end ByteStore

/-!
# Runs of patches that are cut

`cutAll ps j k` is the run of the patches `ps` cut after `j` whole patches and the first `k` cells of the next one.
`torn new old m` has its first `m` cells from `new` and the others from `old`. Where one of several disjoint patches
goes, a cut run leaves a torn range (`slice_cutAll`): all old before the cut, all new behind it.
-/

namespace ByteStore

variable {α : Type}

/-! ## Torn ranges -/

/-- The first `m` cells of `new`, then the cells of `old`. -/
def torn (new old : List α) (m : Nat) : List α := new.take m ++ old.drop m

@[simp] theorem torn_zero (new old : List α) : torn new old 0 = old := by simp [torn]

theorem torn_of_le {new old : List α} {m : Nat} (hn : new.length ≤ m) (ho : old.length ≤ m) :
    torn new old m = new := by
  rw [torn, List.take_of_length_le hn, List.drop_of_length_le ho, List.append_nil]

theorem getElem?_torn {new old : List α} {m : Nat} (h : m ≤ new.length) (i : Nat) :
    (torn new old m)[i]? = if i < m then new[i]? else old[i]? := by
  have hl : (new.take m).length = m := by simp; omega
  rw [torn]
  split
  · rename_i hi
    rw [List.getElem?_append_left (by omega), List.getElem?_take_of_lt hi]
  · rw [List.getElem?_append_right (by omega), List.getElem?_drop, hl]
    congr 1; omega

/-- Behind the tear. -/
theorem slice_torn_old {new old : List α} {m o n : Nat} (h : m ≤ new.length) (ho : m ≤ o) :
    slice (torn new old m) o n = slice old o n :=
  slice_congr fun i _ _ => by rw [getElem?_torn h, if_neg (by omega)]

/-- In front of the tear. -/
theorem slice_torn_new {new old : List α} {m o n : Nat} (h : m ≤ new.length) (ho : o + n ≤ m) :
    slice (torn new old m) o n = slice new o n :=
  slice_congr fun i _ _ => by rw [getElem?_torn h, if_pos (by omega)]

/-- A range in which both sides agree is not torn. -/
theorem slice_torn_same {new old : List α} {m o n : Nat} (h : m ≤ new.length) (hs : slice new o n = slice old o n) :
    slice (torn new old m) o n = slice old o n :=
  slice_congr fun i h₁ h₂ => by
    rw [getElem?_torn h]
    split
    · exact getElem?_of_slice_eq hs h₁ h₂
    · rfl

theorem take_torn {new old : List α} {m n : Nat} (h : m ≤ new.length) (hl : old.length = new.length) :
    (torn new old m).take n = torn (new.take n) (old.take n) (min m n) := by
  apply List.ext_getElem?
  intro i
  rw [List.getElem?_take, getElem?_torn h, getElem?_torn (by simp; omega), List.getElem?_take, List.getElem?_take]
  by_cases hi : i < n
  · by_cases him : i < m
    · rw [if_pos hi, if_pos him, if_pos (by omega), if_pos hi]
    · rw [if_pos hi, if_neg him, if_neg (by omega), if_pos hi]
  · rw [if_neg hi, if_neg (by omega), if_neg hi]

theorem patch_torn {new old p : List α} {m o : Nat} (h : m ≤ new.length) (hl : old.length = new.length)
    (ho : o + p.length ≤ new.length) : patch (torn new old m) o p = torn (patch new o p) (patch old o p) m := by
  have ht : (torn new old m).length = new.length := by simp [torn]; omega
  apply List.ext_getElem?
  intro i
  rw [getElem?_patch (by omega), getElem?_torn h, getElem?_torn (by rw [length_patch_of_le ho]; exact h),
    getElem?_patch (by omega), getElem?_patch (by omega)]
  split
  · split <;> rfl
  · rfl

/-! ## Cut runs -/

/-- The patches of a run that is cut after `j` whole ones and `k` cells of the next. -/
def cutAll : List (Nat × List α) → Nat → Nat → List (Nat × List α)
  | [], _, _ => []
  | (off, p) :: _, 0, k => [(off, p.take k)]
  | q :: ps, j + 1, k => q :: cutAll ps j k

/-- How many cells of the `i`-th patch, of `n` cells, a cut run has written. -/
def written (j k i n : Nat) : Nat := if i < j then n else if i = j then min k n else 0

theorem written_le (j k i n : Nat) : written j k i n ≤ n := by
  unfold written
  split
  · exact Nat.le_refl n
  · split <;> omega

theorem mem_cutAll {q : Nat × List α} : ∀ {ps : List (Nat × List α)} {j k : Nat}, q ∈ cutAll ps j k →
    ∃ q' ∈ ps, q.1 = q'.1 ∧ q.2.length ≤ q'.2.length
  | [], _, _, h => by simp [cutAll] at h
  | (off, p) :: ps, 0, k, h => by
    rw [cutAll, List.mem_singleton] at h
    subst h
    exact ⟨(off, p), by simp, rfl, by simp⟩
  | q' :: ps, j + 1, k, h => by
    rw [cutAll, List.mem_cons] at h
    rcases h with rfl | h
    · exact ⟨q, by simp, rfl, Nat.le_refl _⟩
    · obtain ⟨q'', hm, h⟩ := mem_cutAll h
      exact ⟨q'', by simp [hm], h⟩

theorem within_cutAll {ps : List (Nat × List α)} {n j k : Nat} (h : Within ps n) : Within (cutAll ps j k) n := by
  intro q hq
  obtain ⟨q', hm, h₁, h₂⟩ := mem_cutAll hq
  have := h q' hm
  omega

/-- Where the `i`-th of several disjoint patches goes, a cut run leaves a torn range. -/
theorem slice_cutAll {o : Nat} {p : List α} : ∀ {s : List α} {ps : List (Nat × List α)} {i j k : Nat},
    Within ps s.length → ps.Pairwise Apart → ps[i]? = some (o, p) →
    slice (patchAll s (cutAll ps j k)) o p.length = torn p (slice s o p.length) (written j k i p.length)
  | _, [], _, _, _, _, _, hi => by simp at hi
  | s, (off, q) :: ps, 0, 0, k, hw, hd, hi => by
    simp only [List.getElem?_cons_zero, Option.some.injEq, Prod.mk.injEq] at hi
    obtain ⟨rfl, rfl⟩ := hi
    have h₀ : off + q.length ≤ s.length := hw (off, q) (by simp)
    rw [cutAll, patchAll, patchAll, slice_patch_take k h₀, written, if_neg (by omega), if_pos rfl,
      torn]
    by_cases hk : k ≤ q.length
    · rw [Nat.min_eq_left hk]
    · have hs : (slice s off q.length).length ≤ q.length := by simp
      rw [Nat.min_eq_right (by omega), List.take_of_length_le (by omega), List.take_length,
        List.drop_of_length_le (by omega), List.drop_of_length_le hs]
  | s, (off, q) :: ps, i + 1, 0, k, hw, hd, hi => by
    simp only [List.getElem?_cons_succ] at hi
    have hm := List.mem_of_getElem? hi
    have h₀ := hw (off, q) (by simp)
    have hap := (List.pairwise_cons.1 hd).1 _ hm
    simp only [Apart] at hap
    have hq : (q.take k).length ≤ q.length := by simp
    rw [written, if_neg (by omega), if_neg (by omega), torn_zero, cutAll, patchAll, patchAll]
    rcases hap with hap | hap
    · exact slice_patch_after (by omega) (by omega)
    · exact slice_patch_before (by omega) hap
  | s, (off, q) :: ps, 0, j + 1, k, hw, hd, hi => by
    simp only [List.getElem?_cons_zero, Option.some.injEq, Prod.mk.injEq] at hi
    obtain ⟨rfl, rfl⟩ := hi
    have h₀ := hw (off, q) (by simp)
    have hl := length_patch_of_le h₀
    rw [written, if_pos (by omega), torn_of_le (Nat.le_refl _) (by simp), cutAll, patchAll,
      slice_patchAll_of_apart (s := patch s off q) (hl ▸ within_cutAll fun r hr => hw r (by simp [hr])) _,
      slice_patch_self (by omega) rfl]
    intro r hr
    obtain ⟨r', hm, h₁, h₂⟩ := mem_cutAll hr
    have hap := (List.pairwise_cons.1 hd).1 _ hm
    simp only [Apart] at hap
    omega
  | s, (off, q) :: ps, i + 1, j + 1, k, hw, hd, hi => by
    simp only [List.getElem?_cons_succ] at hi
    have hm := List.mem_of_getElem? hi
    have h₀ := hw (off, q) (by simp)
    have hl := length_patch_of_le h₀
    have hap := (List.pairwise_cons.1 hd).1 _ hm
    simp only [Apart] at hap
    have hslice : slice (patch s off q) o p.length = slice s o p.length := by
      rcases hap with hap | hap
      · exact slice_patch_after (by omega) hap
      · exact slice_patch_before (by omega) hap
    rw [cutAll, patchAll, slice_cutAll (hl ▸ fun r hr => hw r (by simp [hr])) (List.pairwise_cons.1 hd).2 hi, hslice]
    simp [written]

end ByteStore
