import Mathlib.Data.List.Induction

/-!
# Bits to set and bits to clear

A change of flags is a pair of masks, where a bit that is set is not cleared, and the other way round. Over a list of
changes the last one that names a bit decides about it (`stands_foldl`), and no bit is both set and cleared
(`disjoint_foldl`).
-/

set_option autoImplicit false

structure Masks (w : Nat) where
  set : BitVec w
  clear : BitVec w

namespace Masks

variable {w : Nat}

/-- The bits of `bit` are to be set, or to be cleared. -/
def put (m : Masks w) (bit : BitVec w) (on : Bool) : Masks w :=
  if on then ⟨m.set ||| bit, m.clear &&& ~~~bit⟩ else ⟨m.set &&& ~~~bit, m.clear ||| bit⟩

/-- The changes in their order. -/
def puts (m : Masks w) (changes : List (BitVec w × Bool)) : Masks w := changes.foldl (fun m e => m.put e.1 e.2) m

/-- What is asked of the bits of `bit`: that they are set, that they are cleared, or nothing. -/
def Stands (m : Masks w) (bit : BitVec w) : Option Bool → Prop
  | some true => m.set &&& bit = bit ∧ m.clear &&& bit = 0#w
  | some false => m.set &&& bit = 0#w ∧ m.clear &&& bit = bit
  | none => m.set &&& bit = 0#w ∧ m.clear &&& bit = 0#w

/-- What the last change of `bit` says. -/
def lastFor (bit : BitVec w) (changes : List (BitVec w × Bool)) : Option Bool :=
  (changes.filterMap fun e => if e.1 = bit then some e.2 else none).getLast?

/-! ## One change -/

theorem and_eq_zero {a b : BitVec w} : a &&& b = 0#w ↔ ∀ i (hi : i < w), a[i] = true → b[i] = false := by
  constructor
  · intro h i hi ha
    have hbit : (a &&& b)[i] = false := by rw [h, BitVec.getElem_zero]
    rwa [BitVec.getElem_and, ha, Bool.true_and] at hbit
  · intro h
    ext i hi
    rw [BitVec.getElem_and, BitVec.getElem_zero]
    cases ha : a[i] with
    | false => rfl
    | true => rw [h i hi ha, Bool.true_and]

theorem set_put (m : Masks w) (bit : BitVec w) (on : Bool) {i : Nat} (hi : i < w) :
    (m.put bit on).set[i] = if bit[i] then on else m.set[i] := by
  cases on <;> cases h : bit[i] <;> simp [put, h]

theorem clear_put (m : Masks w) (bit : BitVec w) (on : Bool) {i : Nat} (hi : i < w) :
    (m.put bit on).clear[i] = if bit[i] then !on else m.clear[i] := by
  cases on <;> cases h : bit[i] <;> simp [put, h]

theorem stands_put (m : Masks w) (bit : BitVec w) (on : Bool) : Stands (m.put bit on) bit (some on) := by
  cases on with
  | true =>
    refine ⟨?_, and_eq_zero.2 fun i hi hclear => ?_⟩
    · ext i hi
      rw [BitVec.getElem_and, set_put]
      cases bit[i] <;> simp
    · rw [clear_put] at hclear
      cases hbit : bit[i] <;> simp_all
  | false =>
    refine ⟨and_eq_zero.2 fun i hi hset => ?_, ?_⟩
    · rw [set_put] at hset
      cases hbit : bit[i] <;> simp_all
    · ext i hi
      rw [BitVec.getElem_and, clear_put]
      cases bit[i] <;> simp

/-- The bits of another mask are not touched. -/
theorem put_and {bit other : BitVec w} (h : other &&& bit = 0#w) (m : Masks w) (on : Bool) :
    (m.put other on).set &&& bit = m.set &&& bit ∧ (m.put other on).clear &&& bit = m.clear &&& bit := by
  have hapart := and_eq_zero.1 h
  refine ⟨?_, ?_⟩
  · ext i hi
    rw [BitVec.getElem_and, BitVec.getElem_and, set_put]
    split
    · rename_i hother
      rw [hapart i hi hother, Bool.and_false, Bool.and_false]
    · rfl
  · ext i hi
    rw [BitVec.getElem_and, BitVec.getElem_and, clear_put]
    split
    · rename_i hother
      rw [hapart i hi hother, Bool.and_false, Bool.and_false]
    · rfl

theorem Stands.congr {m m' : Masks w} {bit : BitVec w} (hset : m.set &&& bit = m'.set &&& bit)
    (hclear : m.clear &&& bit = m'.clear &&& bit) {was : Option Bool} (hm : Stands m bit was) : Stands m' bit was := by
  cases was with
  | none => exact ⟨hset.symm.trans hm.1, hclear.symm.trans hm.2⟩
  | some on =>
    cases on with
    | true => exact ⟨hset.symm.trans hm.1, hclear.symm.trans hm.2⟩
    | false => exact ⟨hset.symm.trans hm.1, hclear.symm.trans hm.2⟩

theorem stands_put_other {bit other : BitVec w} (h : other &&& bit = 0#w) (m : Masks w) (on : Bool) {was : Option Bool}
    (hm : Stands m bit was) : Stands (m.put other on) bit was :=
  hm.congr (put_and h m on).1.symm (put_and h m on).2.symm

theorem disjoint_put {m : Masks w} (h : m.set &&& m.clear = 0#w) (bit : BitVec w) (on : Bool) :
    (m.put bit on).set &&& (m.put bit on).clear = 0#w := by
  have hapart := and_eq_zero.1 h
  refine and_eq_zero.2 fun i hi hset => ?_
  rw [set_put] at hset
  rw [clear_put]
  split
  · rename_i hbit
    rw [if_pos hbit] at hset
    rw [hset, Bool.not_true]
  · rename_i hbit
    rw [if_neg hbit] at hset
    exact hapart i hi hset

/-! ## All changes -/

@[simp] theorem puts_nil (m : Masks w) : puts m [] = m := rfl

theorem puts_concat (m : Masks w) (changes : List (BitVec w × Bool)) (e : BitVec w × Bool) :
    puts m (changes ++ [e]) = (puts m changes).put e.1 e.2 := by
  simp [puts]

theorem puts_append (m : Masks w) (xs ys : List (BitVec w × Bool)) : puts m (xs ++ ys) = puts (puts m xs) ys := by
  simp [puts]

theorem lastFor_concat (bit : BitVec w) (changes : List (BitVec w × Bool)) (e : BitVec w × Bool) :
    lastFor bit (changes ++ [e]) = if e.1 = bit then some e.2 else lastFor bit changes := by
  rw [lastFor, List.filterMap_append]
  split
  · rename_i h
    simp [h]
  · rename_i h
    simp [h, lastFor]

/-- **The last change of a bit stands**, where the masks of the changes are that bit or apart from it. -/
theorem stands_foldl {bit : BitVec w} {changes : List (BitVec w × Bool)}
    (h : ∀ e ∈ changes, e.1 = bit ∨ e.1 &&& bit = 0#w) : Stands (puts ⟨0, 0⟩ changes) bit (lastFor bit changes) := by
  induction changes using List.reverseRecOn with
  | nil => exact ⟨BitVec.zero_and, BitVec.zero_and⟩
  | append_singleton changes e ih =>
    have hih := ih fun e' he' => h e' (List.mem_append_left _ he')
    rw [puts_concat, lastFor_concat]
    split
    · rename_i heq
      rw [heq]
      exact stands_put _ bit e.2
    · rename_i hne
      have hapart := (h e (List.mem_append_right _ List.mem_cons_self)).resolve_left hne
      exact stands_put_other hapart _ e.2 hih

theorem disjoint_foldl (changes : List (BitVec w × Bool)) :
    (puts ⟨0, 0⟩ changes).set &&& (puts ⟨0, 0⟩ changes).clear = 0#w := by
  induction changes using List.reverseRecOn with
  | nil => exact BitVec.zero_and
  | append_singleton changes e ih =>
    rw [puts_concat]
    exact disjoint_put ih e.1 e.2

/-! ## A field of several bits -/

/-- The bits of a field are cleared, but for those of its new value. -/
def replace (m : Masks w) (field value : BitVec w) : Masks w := ⟨(m.set &&& ~~~field) ||| value, m.clear ||| field⟩

variable {m : Masks w} {field value : BitVec w}

theorem replace_field (h : value &&& field = value) :
    (m.replace field value).set &&& field = value ∧ (m.replace field value).clear &&& field = field := by
  have hbits : ∀ i (hi : i < w), (value[i] && field[i]) = value[i] := fun i hi => by rw [← BitVec.getElem_and, h]
  refine ⟨?_, ?_⟩
  · ext i hi
    have := hbits i hi
    simp only [replace, BitVec.getElem_and, BitVec.getElem_or, BitVec.getElem_not]
    cases hf : field[i] <;> simp_all
  · ext i hi
    simp only [replace, BitVec.getElem_and, BitVec.getElem_or]
    cases field[i] <;> simp

/-- Bits outside the field are not touched. -/
theorem replace_and {bit : BitVec w} (hbit : field &&& bit = 0#w) (h : value &&& field = value) :
    (m.replace field value).set &&& bit = m.set &&& bit ∧ (m.replace field value).clear &&& bit = m.clear &&& bit := by
  have hbits : ∀ i (hi : i < w), (value[i] && field[i]) = value[i] := fun i hi => by rw [← BitVec.getElem_and, h]
  have hapart := and_eq_zero.1 hbit
  refine ⟨?_, ?_⟩
  · ext i hi
    have hvalue := hbits i hi
    simp only [replace, BitVec.getElem_and, BitVec.getElem_or, BitVec.getElem_not]
    cases hf : field[i] with
    | false => rw [← hvalue, hf, Bool.and_false, Bool.or_false, Bool.not_false, Bool.and_true]
    | true => rw [hapart i hi hf, Bool.and_false, Bool.and_false]
  · ext i hi
    simp only [replace, BitVec.getElem_and, BitVec.getElem_or]
    cases hf : field[i] with
    | false => rw [Bool.or_false]
    | true => rw [hapart i hi hf, Bool.and_false, Bool.and_false]

theorem disjoint_replace (hm : m.set &&& m.clear = 0#w) (h : value &&& field = value) :
    ((m.replace field value).set &&& (m.replace field value).clear) &&& ~~~field = 0#w := by
  have hbits : ∀ i (hi : i < w), (value[i] && field[i]) = value[i] := fun i hi => by rw [← BitVec.getElem_and, h]
  have hapart := and_eq_zero.1 hm
  refine and_eq_zero.2 fun i hi hboth => ?_
  have hvalue := hbits i hi
  rw [BitVec.getElem_not]
  simp only [replace, BitVec.getElem_and, BitVec.getElem_or, BitVec.getElem_not] at hboth
  cases hf : field[i] with
  | true => rfl
  | false =>
    rw [hf, Bool.and_false] at hvalue
    rw [hf, ← hvalue, Bool.not_false, Bool.and_true, Bool.or_false, Bool.or_false, Bool.and_eq_true] at hboth
    rw [hapart i hi hboth.1] at hboth
    exact absurd hboth.2 Bool.false_ne_true

end Masks
