import Std.Data.HashMap.Lemmas
import Peiosutils.Lib.Lines
import Peiosutils.Shuf.Source

/-!
# Shuffling (`nonrepeating_iterator.rs`, `shuf.rs`)

`shuffle` goes through a list from left to right and swaps each place with one behind it. A range is shuffled without
the list, either backwards in a vector or with a table of the places that were swapped, and may go over from the table
to the vector before any draw: the numbers, the error and what is left of the source are the same
(`takeItems_new`, `shuffle_eq_drain`). From a file of random bytes each order of different items comes as often as any
other (`shuffle_even`).
-/

set_option autoImplicit false

namespace Peiosutils.Shuf

open Draws

variable {α σ ε : Type}

/-! ## The code -/

/-- `swap` of slices, which panics for places outside of the slice. -/
def swap (vals : List α) (i j : Nat) : List α :=
  match vals[i]?, vals[j]? with
  | some a, some b => (vals.set i b).set j a
  | _, _ => vals

/-- The loop of `shuffle`. -/
def shuffleFrom (draw : Source σ ε) : (turns : Nat) → List α → (idx : Nat) → σ → Except ε (List α × σ)
  | 0, vals, _, s => .ok (vals, s)
  | turns + 1, vals, idx, s =>
    match draw (vals.length - idx - 1) s with
    | .error e => .error e
    | .ok (other, s') => shuffleFrom draw turns (swap vals idx (other + idx)) (idx + 1) s'

def shuffle (draw : Source σ ε) (vals : List α) (amount : Nat) (s : σ) : Except ε (List α × σ) :=
  let amount := min amount vals.length
  match shuffleFrom draw amount vals 0 s with
  | .error e => .error e
  | .ok (vals', s') => .ok (vals'.take amount, s')

/-- `RangeInclusive<u64>`. -/
structure Range where
  start : Nat
  last : Nat
deriving DecidableEq, Repr

def Range.isEmpty (r : Range) : Bool := decide (r.last < r.start)

def Range.toList (r : Range) : List Nat := List.range' r.start (r.last + 1 - r.start)

def chooseFromRange (draw : Source σ ε) (r : Range) (s : σ) : Except ε (Nat × σ) :=
  match draw (r.last - r.start) s with
  | .error e => .error e
  | .ok (offset, s') => .ok (r.start + offset, s')

inductive Values
  | full (items : List Nat)
  | sparse (range : Range) (items : Std.HashMap Nat Nat)

/-- Whether memory can be had for the items (`reserves`) is the allocator's answer. -/
def Values.new (range : Range) (reserves : Bool) : Values :=
  if range.toList.length < 16777216 ∧ reserves = true then .full range.toList.reverse else .sparse range ∅

def lookup (items : Std.HashMap Nat Nat) (idx : Nat) : Nat := items[idx]?.getD idx

def hashmapToVec (range : Range) (items : Std.HashMap Nat Nat) : List Nat := range.toList.reverse.map (lookup items)

def Values.produce (draw : Source σ ε) : Values → σ → Except ε (Nat × Values × σ)
  | .full items, s =>
    let thisIdx := items.length - 1
    match chooseFromRange draw ⟨0, items.length - 1⟩ s with
    | .error e => .error e
    | .ok (otherIdx, s') =>
      let items := swap items thisIdx (items.length - otherIdx - 1)
      -- the vector is not empty here
      .ok (items.getLast?.getD 0, .full items.dropLast, s')
  | .sparse range items, s =>
    let thisIdx := range.start
    let thisVal := lookup items thisIdx
    let items := items.erase thisIdx
    match chooseFromRange draw range s with
    | .error e => .error e
    | .ok (otherIdx, s') =>
      let range' := ⟨wrap (range.start + 1), range.last⟩
      if thisIdx = otherIdx then .ok (thisVal, .sparse range' items, s')
      else .ok (lookup items otherIdx, .sparse range' (items.insert otherIdx thisVal), s')

/-- The vector takes over from a table that has reached its capacity. -/
def Values.settle (capacity : Nat) : Values → Values
  | .full items => .full items
  | .sparse range items => if capacity ≤ items.size then .full (hashmapToVec range items) else .sparse range items

def Values.isEmpty : Values → Bool
  | .full items => items.isEmpty
  | .sparse range _ => range.isEmpty

def Values.next (draw : Source σ ε) (capacity : Nat) (values : Values) (s : σ) : Option (Except ε (Nat × Values × σ)) :=
  if values.isEmpty then none else some ((values.settle capacity).produce draw s)

/-- What `take(amount)` hands out, up to an error; the table's capacity before each draw is the allocator's choice. -/
def takeItems (draw : Source σ ε) (capacity : Nat → Nat) : (amount : Nat) → Values → σ → List Nat × Except ε σ
  | 0, _, s => ([], .ok s)
  | amount + 1, values, s =>
    match values.next draw (capacity amount) s with
    | none => ([], .ok s)
    | some (.error e) => ([], .error e)
    | some (.ok (val, values', s')) =>
      let rest := takeItems draw capacity amount values' s'
      (val :: rest.1, rest.2)

/-! ## Swapping -/

theorem swap_eq {vals : List α} {i j : Nat} (hi : i < vals.length) (hj : j < vals.length) :
    swap vals i j = (vals.set i vals[j]).set j vals[i] := by
  rw [swap, List.getElem?_eq_getElem hi, List.getElem?_eq_getElem hj]

@[simp] theorem length_swap (vals : List α) (i j : Nat) : (swap vals i j).length = vals.length := by
  rw [swap]
  split <;> simp

theorem getElem?_swap {vals : List α} {i j : Nat} (hi : i < vals.length) (hj : j < vals.length) (k : Nat) :
    (swap vals i j)[k]? = if k = j then vals[i]? else if k = i then vals[j]? else vals[k]? := by
  rw [swap_eq hi hj, List.getElem?_set, List.length_set]
  by_cases hkj : k = j
  · subst hkj
    rw [if_pos rfl, if_pos hj, if_pos rfl, List.getElem?_eq_getElem hi]
  · rw [if_neg (Ne.symm hkj), if_neg hkj, List.getElem?_set]
    by_cases hki : k = i
    · subst hki
      rw [if_pos rfl, if_pos hi, if_pos rfl, List.getElem?_eq_getElem hj]
    · rw [if_neg (Ne.symm hki), if_neg hki]

theorem swap_cons {x : α} {xs : List α} {i : Nat} (hi : i ≤ xs.length) :
    swap (x :: xs) 0 i = (pick x xs i).1 :: (pick x xs i).2 := by
  cases i with
  | zero => rfl
  | succ i => rw [swap_eq (Nat.succ_pos _) (Nat.succ_lt_succ hi), pick_succ hi]; rfl

theorem swap_append (pre : List α) {l : List α} {i j : Nat} (hi : i < l.length) (hj : j < l.length) :
    swap (pre ++ l) (pre.length + i) (pre.length + j) = pre ++ swap l i j := by
  refine List.ext_getElem? fun k => ?_
  rw [getElem?_swap (by simpa using hi) (by simpa using hj)]
  simp only [List.getElem?_append, Nat.add_sub_cancel_left, getElem?_swap hi hj]
  grind

/-- Flipping both places is as good as flipping the list. -/
theorem swap_reverse {l : List α} {i j : Nat} (hi : i < l.length) (hj : j < l.length) :
    swap l.reverse (l.length - 1 - i) (l.length - 1 - j) = (swap l i j).reverse := by
  have hflip : ∀ k < l.length, l.reverse[l.length - 1 - k]? = l[k]? := fun k hk => by
    rw [List.getElem?_reverse (by omega), show l.length - 1 - (l.length - 1 - k) = k by omega]
  refine List.ext_getElem? fun k => ?_
  rw [getElem?_swap (by rw [List.length_reverse]; omega) (by rw [List.length_reverse]; omega), hflip i hi, hflip j hj]
  by_cases hk : k < l.length
  · rw [List.getElem?_reverse hk, List.getElem?_reverse (by rwa [length_swap]), length_swap, getElem?_swap hi hj]
    grind
  · rw [List.getElem?_eq_none (l := l.reverse) (by rw [List.length_reverse]; omega),
      List.getElem?_eq_none (l := (swap l i j).reverse) (by rw [List.length_reverse, length_swap]; omega)]
    grind

/-! ## The shuffle of a list -/

variable {draw : Source σ ε} {I : σ → Prop}

/-- The part behind the index is drawn from; the part before it has been drawn. -/
theorem shuffleFrom_eq (hdraw : Bounded draw I) {turns : Nat} {l : List α} (hturns : turns ≤ l.length)
    (pre : List α) {s : σ} (hs : I s) :
    (∀ e, (drain draw turns l s).2 = .error e → shuffleFrom draw turns (pre ++ l) pre.length s = .error e) ∧
    ∀ s', (drain draw turns l s).2 = .ok s' → ∃ left,
      shuffleFrom draw turns (pre ++ l) pre.length s = .ok (pre ++ ((drain draw turns l s).1 ++ left), s') := by
  induction turns generalizing pre l s with
  | zero =>
    refine ⟨fun e he => (by cases he), fun s' hs' => ⟨l, ?_⟩⟩
    cases hs'
    rfl
  | succ turns ih =>
    cases l with
    | nil => cases hturns
    | cons x xs =>
      have hlen : (pre ++ x :: xs).length - pre.length - 1 = xs.length := by
        rw [List.length_append, List.length_cons]
        omega
      rw [drain, shuffleFrom, hlen]
      cases hanswer : draw xs.length s with
      | error e =>
        refine ⟨fun e' he => ?_, fun s' hs' => (by cases hs')⟩
        cases he
        rfl
      | ok answer =>
        obtain ⟨i, t⟩ := answer
        have hi : i ≤ xs.length := hdraw.le hs hanswer
        have hswap : swap (pre ++ x :: xs) pre.length (i + pre.length) =
            pre ++ [(pick x xs i).1] ++ (pick x xs i).2 := by
          have h := swap_append pre (l := x :: xs) (i := 0) (j := i) (Nat.succ_pos _) (Nat.lt_succ_of_le hi)
          rw [Nat.add_zero, swap_cons hi] at h
          rw [Nat.add_comm i, h, List.append_assoc, List.singleton_append]
        have hpre : pre.length + 1 = (pre ++ [(pick x xs i).1]).length := by rw [List.length_append]; rfl
        dsimp only
        rw [hswap, hpre]
        obtain ⟨herror, hok⟩ := ih (l := (pick x xs i).2) (by rw [length_pick]; exact Nat.le_of_succ_le_succ hturns)
          (pre ++ [(pick x xs i).1]) (hdraw.keeps hs hanswer)
        refine ⟨herror, fun s' hs' => ?_⟩
        obtain ⟨left, hleft⟩ := hok s' hs'
        refine ⟨left, hleft.trans ?_⟩
        rw [List.append_assoc, List.singleton_append, List.cons_append]

/-- Drawing more than there is changes nothing. -/
theorem drain_min (n : Nat) (l : List α) (s : σ) : drain draw (min n l.length) l s = drain draw n l s := by
  induction n generalizing l s with
  | zero => rw [Nat.zero_min]
  | succ n ih =>
    cases l with
    | nil => rfl
    | cons x xs =>
      rw [List.length_cons, Nat.succ_min_succ, drain, drain]
      cases draw xs.length s with
      | error e => rfl
      | ok answer =>
        have h := ih (pick x xs answer.1).2 answer.2
        rw [length_pick] at h
        dsimp only
        rw [h]

/-- A shuffle draws from the list, and hands out all of it or only the error. -/
theorem shuffle_eq_drain (hdraw : Bounded draw I) (vals : List α) (amount : Nat) {s : σ} (hs : I s) :
    shuffle draw vals amount s = (drain draw amount vals s).2.map fun s' => ((drain draw amount vals s).1, s') := by
  obtain ⟨herror, hok⟩ := shuffleFrom_eq hdraw (Nat.min_le_right amount vals.length) [] hs
  rw [drain_min, List.nil_append, List.length_nil] at herror hok
  rw [shuffle]
  cases hend : (drain draw amount vals s).2 with
  | error e => rw [herror e hend]; rfl
  | ok s' =>
    obtain ⟨left, hleft⟩ := hok s' hend
    rw [hleft]
    dsimp only
    rw [← length_drain hend, List.nil_append, List.take_left]
    rfl

/-! ## The shuffle of a range -/

/-- What is still to be drawn from, in the order in which a shuffled list has it. -/
def Values.view : Values → List Nat
  | .full items => items.reverse
  | .sparse range items => range.toList.map (lookup items)

/-- The start of the range does not run over in some number of draws. -/
def Values.Room (turns : Nat) : Values → Prop
  | .full _ => True
  | .sparse range _ => range.start + turns < 2 ^ 64

theorem view_new (range : Range) (reserves : Bool) : (Values.new range reserves).view = range.toList := by
  rw [Values.new]
  split
  · exact List.reverse_reverse _
  · rw [Values.view]
    refine (List.map_congr_left fun i _ => ?_).trans (List.map_id _)
    rw [lookup, Std.HashMap.getElem?_empty]
    rfl

theorem room_new {range : Range} (reserves : Bool) {turns : Nat} (h : range.start + turns < 2 ^ 64) :
    (Values.new range reserves).Room turns := by
  rw [Values.new]
  split
  · trivial
  · exact h

theorem view_settle (capacity : Nat) (values : Values) : (values.settle capacity).view = values.view := by
  cases values with
  | full items => rfl
  | sparse range items =>
    rw [Values.settle]
    split
    · rw [Values.view, Values.view, hashmapToVec, List.map_reverse, List.reverse_reverse]
    · rfl

theorem room_settle {turns : Nat} (capacity : Nat) {values : Values} (h : values.Room turns) :
    (values.settle capacity).Room turns := by
  cases values with
  | full items => exact h
  | sparse range items =>
    rw [Values.settle]
    split
    · trivial
    · exact h

theorem isEmpty_iff {values : Values} : values.isEmpty = true ↔ values.view = [] := by
  cases values with
  | full items => rw [Values.isEmpty, Values.view, List.reverse_eq_nil_iff, List.isEmpty_iff]
  | sparse range items =>
    rw [Values.isEmpty, Range.isEmpty, decide_eq_true_eq, Values.view, List.map_eq_nil_iff, Range.toList,
      List.range'_eq_nil_iff]
    omega

/-- A range that is not empty, its first number taken off. -/
theorem toList_cons {range : Range} (h : range.start ≤ range.last) :
    range.toList = range.start :: Range.toList ⟨range.start + 1, range.last⟩ := by
  rw [Range.toList, Range.toList, show range.last + 1 - range.start = range.last - range.start + 1 by omega,
    List.range'_succ, Nat.add_sub_add_right]

theorem length_toList (range : Range) : range.toList.length = range.last + 1 - range.start := List.length_range'

theorem getElem_toList {range : Range} {i : Nat} (h : i < range.toList.length) : range.toList[i] = range.start + i := by
  simp only [Range.toList, List.getElem_range', Nat.one_mul]

theorem lookup_insert (items : Std.HashMap Nat Nat) (k v i : Nat) :
    lookup (items.insert k v) i = if i = k then v else lookup items i := by
  rw [lookup, Std.HashMap.getElem?_insert]
  by_cases h : i = k
  · subst h
    simp
  · rw [if_neg h, if_neg (by simpa using Ne.symm h)]
    rfl

theorem lookup_erase (items : Std.HashMap Nat Nat) {k i : Nat} (h : i ≠ k) :
    lookup (items.erase k) i = lookup items i := by
  rw [lookup, Std.HashMap.getElem?_erase, if_neg (by simpa using Ne.symm h)]
  rfl

/-- One draw of the iterator is one draw from its view. -/
theorem produce_spec (hdraw : Bounded draw I) {values : Values} {x : Nat} {xs : List Nat} {turns : Nat}
    (hview : values.view = x :: xs) (hroom : values.Room (turns + 1)) {s : σ} (hs : I s) :
    (∀ e, draw xs.length s = .error e → values.produce draw s = .error e) ∧
    ∀ i s', draw xs.length s = .ok (i, s') → ∃ values' : Values,
      values.produce draw s = .ok ((pick x xs i).1, values', s') ∧ values'.view = (pick x xs i).2 ∧
        values'.Room turns := by
  cases values with
  | full items =>
    have hitems : items = (x :: xs).reverse := List.reverse_eq_iff.1 hview
    have hlen : items.length = xs.length + 1 := by rw [hitems, List.length_reverse, List.length_cons]
    rw [Values.produce, chooseFromRange]
    dsimp only
    rw [hlen, Nat.add_sub_cancel, Nat.sub_zero]
    refine ⟨fun e he => by rw [he], fun i s' hi => ?_⟩
    have hle : i ≤ xs.length := hdraw.le hs hi
    have hswap : swap items xs.length (xs.length + 1 - (0 + i) - 1) = ((pick x xs i).1 :: (pick x xs i).2).reverse := by
      have h := swap_reverse (l := x :: xs) (i := 0) (j := i) (Nat.succ_pos _) (Nat.lt_succ_of_le hle)
      rw [List.length_cons, swap_cons hle] at h
      rw [hitems, ← h]
      congr 1
      omega
    rw [hi]
    dsimp only
    rw [hswap, List.reverse_cons]
    exact ⟨.full (pick x xs i).2.reverse, by rw [List.getLast?_concat, List.dropLast_concat]; rfl,
      List.reverse_reverse _, trivial⟩
  | sparse range items =>
    have hle : range.start ≤ range.last := by
      by_contra hlt
      rw [Values.view, Range.toList, show range.last + 1 - range.start = 0 by omega] at hview
      cases hview
    rw [Values.view, toList_cons hle, List.map_cons, List.cons.injEq] at hview
    obtain ⟨rfl, hxs⟩ := hview
    have hlen : xs.length = range.last - range.start := by
      rw [← hxs, List.length_map, length_toList]
      dsimp only
      omega
    have hstart : wrap (range.start + 1) = range.start + 1 := wrap_of_lt (by rw [Values.Room] at hroom; omega)
    rw [Values.produce, chooseFromRange, ← hlen]
    dsimp only
    refine ⟨fun e he => by rw [he], fun i s' hi => ?_⟩
    rw [hi]
    dsimp only
    rw [hstart]
    have hroom' : range.start + 1 + turns < 2 ^ 64 := by rw [Values.Room] at hroom; omega
    have hne : ∀ k ∈ Range.toList ⟨range.start + 1, range.last⟩, k ≠ range.start := fun k hk => by
      have h := (List.mem_range'_1.1 hk).1
      dsimp only at h
      omega
    have herase : (Range.toList ⟨range.start + 1, range.last⟩).map (lookup (items.erase range.start)) = xs :=
      (List.map_congr_left fun k hk => lookup_erase items (hne k hk)).trans hxs
    cases i with
    | zero =>
      rw [if_pos (Nat.add_zero _).symm]
      exact ⟨_, rfl, herase, hroom'⟩
    | succ i =>
      have hi' : i < xs.length := hdraw.le hs hi
      have hget : ∀ k (hk : k < xs.length), xs[k] = lookup (items.erase range.start) (range.start + 1 + k) := by
        intro k hk
        rw [lookup_erase items (by omega)]
        simp only [← hxs, List.getElem_map, getElem_toList]
      rw [if_neg (by omega), pick_succ hi']
      refine ⟨_, congrArg Except.ok (Prod.ext ?_ rfl), ?_, hroom'⟩
      · rw [hget i hi', show range.start + (i + 1) = range.start + 1 + i by omega]
      · rw [Values.view]
        refine List.ext_getElem (by rw [List.length_set, ← hxs, List.length_map, List.length_map]) fun k hk hk' => ?_
        rw [List.length_set] at hk'
        rw [List.getElem_map, getElem_toList, lookup_insert, List.getElem_set, hget k hk']
        dsimp only
        by_cases hki : k = i
        · subst hki
          rw [if_pos (by omega), if_pos rfl]
        · rw [if_neg (by omega), if_neg (Ne.symm hki)]

/-- The iterator draws from its view, wherever the vector takes over. -/
theorem takeItems_eq (hdraw : Bounded draw I) (capacity : Nat → Nat) {amount : Nat} {values : Values}
    (hroom : values.Room (min amount values.view.length)) {s : σ} (hs : I s) :
    takeItems draw capacity amount values s = drain draw amount values.view s := by
  induction amount generalizing values s with
  | zero => rfl
  | succ amount ih =>
    rw [takeItems, Values.next]
    cases hview : values.view with
    | nil => rw [if_pos (isEmpty_iff.2 hview)]; rfl
    | cons x xs =>
      rw [if_neg (by rw [isEmpty_iff, hview]; exact List.cons_ne_nil _ _), drain]
      rw [hview, List.length_cons, Nat.succ_min_succ] at hroom
      obtain ⟨herror, hok⟩ := produce_spec hdraw ((view_settle (capacity amount) values).trans hview)
        (room_settle (capacity amount) hroom) hs
      cases hanswer : draw xs.length s with
      | error e => rw [herror e hanswer]
      | ok answer =>
        obtain ⟨i, s'⟩ := answer
        obtain ⟨values', hproduce, hview', hroom'⟩ := hok i s' hanswer
        rw [hproduce]
        dsimp only
        rw [ih (by rwa [hview', length_pick]) (hdraw.keeps hs hanswer), hview']

/-- `shuf -i`: the numbers, the error and what is left of the source are those of a shuffle of the range's list. -/
theorem takeItems_new (hdraw : Bounded draw I) (capacity : Nat → Nat) (reserves : Bool) {range : Range} {amount : Nat}
    (hroom : range.start + min amount (range.last + 1 - range.start) < 2 ^ 64) {s : σ} (hs : I s) :
    shuffle draw range.toList amount s = (takeItems draw capacity amount (Values.new range reserves) s).2.map
      fun s' => ((takeItems draw capacity amount (Values.new range reserves) s).1, s') := by
  have hroom' : (Values.new range reserves).Room (min amount (Values.new range reserves).view.length) := by
    rw [view_new, length_toList]
    exact room_new reserves hroom
  rw [takeItems_eq hdraw capacity hroom' hs, view_new, shuffle_eq_drain hdraw _ _ hs]

theorem takeItems_new_adapter :
    shuffle generateAtMost (Range.toList ⟨3, 7⟩) 2 (RandomSourceAdapter.new [200, 7] false) =
    (takeItems generateAtMost (fun _ => 0) 2 (Values.new ⟨3, 7⟩ false) (RandomSourceAdapter.new [200, 7] false)).2.map
      fun s' => ((takeItems generateAtMost (fun _ => 0) 2 (Values.new ⟨3, 7⟩ false)
        (RandomSourceAdapter.new [200, 7] false)).1, s') :=
  takeItems_new generateAtMost_bounded (fun _ => 0) false (by decide) ⟨Nat.two_pow_pos 64, Nat.two_pow_pos 64⟩

/-! ## Every order -/

/-- Of the files of random bytes of a length, as many shuffle different items into one order as into any other. -/
theorem shuffle_even {vals : List α} (hnodup : vals.Nodup) (hlen : vals.length ≤ 2 ^ 56) {amount : Nat}
    {out out' left left' : List α} (hout : (out ++ left).Perm vals) (hout' : (out' ++ left').Perm vals)
    (hcount : out.length = min amount vals.length) (hcount' : out'.length = min amount vals.length)
    (fails : Bool) (n : Nat) :
    {bytes : List UInt8 | bytes.length = n ∧
      ∃ a, shuffle generateAtMost vals amount (RandomSourceAdapter.new bytes fails) = .ok (out, a)}.ncard =
    {bytes : List UInt8 | bytes.length = n ∧
      ∃ a, shuffle generateAtMost vals amount (RandomSourceAdapter.new bytes fails) = .ok (out', a)}.ncard := by
  have hmost : ∀ m ∈ bounds amount vals.length, m ≤ 2 ^ 56 := fun m hm => by
    have := lt_of_mem_bounds hm
    omega
  -- each order comes from one sequence of numbers
  have hcode : ∀ {o l : List α}, (o ++ l).Perm vals → o.length = min amount vals.length → ∃ is,
      Within is (bounds amount vals.length) ∧ ∀ bytes : List UInt8,
        (∃ a, shuffle generateAtMost vals amount (RandomSourceAdapter.new bytes fails) = .ok (o, a)) ↔
          yields (bounds amount vals.length) is fails 0 0 bytes = true := by
    intro o l ho hocount
    obtain ⟨is, hwithin, harrange, hunique⟩ := existsUnique_arrange hnodup ⟨l, ho⟩ hocount
    refine ⟨is, hwithin, fun bytes => ?_⟩
    have hfits : (RandomSourceAdapter.new bytes fails).Fits := ⟨Nat.two_pow_pos 64, Nat.two_pow_pos 64⟩
    rw [shuffle_eq_drain generateAtMost_bounded _ _ hfits]
    have hiff : ∀ a, (drain generateAtMost amount vals (RandomSourceAdapter.new bytes fails)).2.map
        (fun s' => ((drain generateAtMost amount vals (RandomSourceAdapter.new bytes fails)).1, s')) = .ok (o, a) ↔
        drain generateAtMost amount vals (RandomSourceAdapter.new bytes fails) = (o, .ok a) := by
      intro a
      rcases drain generateAtMost amount vals (RandomSourceAdapter.new bytes fails) with ⟨items, e | s'⟩
      · simp [Except.map]
      · simp [Except.map]
    simp only [hiff, drain_eq_ok]
    rw [yields]
    constructor
    · rintro ⟨a, js, hanswers, hjs⟩
      have hwithin' := generateAtMost_bounded.within hfits hanswers
      rw [RandomSourceAdapter.new] at hanswers
      rw [hanswers, hunique js hwithin' hjs]
      exact beq_self_eq_true _
    · intro h
      cases hanswers : answers generateAtMost (bounds amount vals.length) ⟨bytes, fails, 0, 0⟩ with
      | error e => rw [hanswers] at h; cases h
      | ok q =>
        rw [hanswers] at h
        exact ⟨q.2, q.1, hanswers, by rw [eq_of_beq h, harrange]⟩
  obtain ⟨is, hwithin, hiff⟩ := hcode hout hcount
  obtain ⟨is', hwithin', hiff'⟩ := hcode hout' hcount'
  simp only [hiff, hiff']
  exact answers_even hmost hwithin hwithin' fails n

theorem shuffle_even_two_of_three :
    {bytes : List UInt8 | bytes.length = 4 ∧ ∃ a,
      shuffle generateAtMost ['a', 'b', 'c'] 2 (RandomSourceAdapter.new bytes false) = .ok (['c', 'a'], a)}.ncard =
    {bytes : List UInt8 | bytes.length = 4 ∧ ∃ a,
      shuffle generateAtMost ['a', 'b', 'c'] 2 (RandomSourceAdapter.new bytes false) = .ok (['a', 'b'], a)}.ncard :=
  shuffle_even (by decide) (by decide) (show (['c', 'a'] ++ ['b']).Perm ['a', 'b', 'c'] by decide)
    (show (['a', 'b'] ++ ['c']).Perm ['a', 'b', 'c'] by decide) rfl rfl false 4

end Peiosutils.Shuf
