import Mathlib.Data.Int.Order.Basic
import Peiosutils.Lib.Lexical
import Peiosutils.Lib.Numeral

/-!
# Lines and keys of join (`join.rs`)

A line is kept with the ranges of its fields, which are what its separator cuts it into and lie within the line
(`fieldRanges_inside`). `Input.compare` compares two fields that may be missing; other than in a locale it is the
comparison of their ranks (`compare_eq_order`).
-/

set_option autoImplicit false

namespace Peiosutils.Join

abbrev Bytes := List UInt8

/-! ## Fields -/

inductive SepSetting where
  /-- Any single-byte separator. -/
  | byte (b : UInt8)
  /-- A single character more than one byte long. -/
  | char (c : Bytes)
  /-- No separators. -/
  | line
  | whitespaces
  deriving DecidableEq, Repr

/-- Where a byte is, as `memchr_iter` finds it. -/
def positions (p : UInt8 → Bool) : (at_ : Nat) → Bytes → List Nat
  | _, [] => []
  | i, b :: bs => if p b then i :: positions p (i + 1) bs else positions p (i + 1) bs

/-- Where a needle is, one behind the end of the other, as `memmem` finds it; `skip` bytes belong to the last one. -/
def occurrences (needle : Bytes) : (at_ skip : Nat) → Bytes → List Nat
  | _, _, [] => []
  | i, skip + 1, _ :: bs => occurrences needle (i + 1) skip bs
  | i, 0, b :: bs =>
    if needle.isPrefixOf (b :: bs) then i :: occurrences needle (i + 1) (needle.length - 1) bs
    else occurrences needle (i + 1) 0 bs

/-- The fields between separators of one width. -/
def rangesBetween (width : Nat) : (lastEnd : Nat) → List Nat → (len : Nat) → List (Nat × Nat)
  | lastEnd, [], len => [(lastEnd, len)]
  | lastEnd, i :: is, len => (lastEnd, i) :: rangesBetween width (i + width) is len

/-- Leading whitespace is dropped, and what is next to each other is one separator. -/
def rangesOfWords : (lastEnd : Nat) → List Nat → (len : Nat) → List (Nat × Nat)
  | lastEnd, [], len => [(lastEnd, len)]
  | lastEnd, i :: is, len =>
    if lastEnd < i then (lastEnd, i) :: rangesOfWords (i + 1) is len else rangesOfWords (i + 1) is len

/-- The bytes that part fields by default. -/
def isBlank (b : UInt8) : Bool := b == 32 || b == 9 || b == 10

namespace SepSetting

def fieldRanges (sep : SepSetting) (haystack : Bytes) : List (Nat × Nat) :=
  match sep with
  | .byte b => rangesBetween 1 0 (positions (· == b) 0 haystack) haystack.length
  | .char c => rangesBetween c.length 0 (occurrences c 0 0 haystack) haystack.length
  | .line => [(0, haystack.length)]
  | .whitespaces => rangesOfWords 0 (positions isBlank 0 haystack) haystack.length

/-- The separator as it appears when in the output. -/
def outputSeparator : SepSetting → Bytes
  | .byte b => [b]
  | .char c => c
  | .line => []
  | .whitespaces => [32]

end SepSetting

structure Line where
  fieldRanges : List (Nat × Nat)
  string : Bytes
  deriving DecidableEq, Repr

namespace Line

def new (string : Bytes) (sep : SepSetting) : Line := ⟨sep.fieldRanges string, string⟩

/-- The field at an index; its range is within the line. -/
def getField (line : Line) (index : Nat) : Option Bytes :=
  line.fieldRanges[index]?.map fun r => (line.string.take r.2).drop r.1

end Line

/-! ## Comparing fields -/

/-- The numbers that bytes compare by. -/
def numbers (bytes : Bytes) : List Nat := bytes.map UInt8.toNat

/-- Fields without regard to the case of ASCII letters: the first bytes that differ, or else the lengths. -/
def compareIgnoreCase (a b : Bytes) : Ordering :=
  match (a.zip b).find? fun (s, o) => Ascii.toLower s ≠ Ascii.toLower o with
  | some (s, o) => Lexical.order (Ascii.toLower s).toNat (Ascii.toLower o).toNat
  | none => Lexical.order a.length b.length

inductive CheckOrder where
  | default
  | disabled
  | enabled
  deriving DecidableEq, Repr

/-- Input processing parameters, with the comparison of a locale. -/
structure Input where
  separator : SepSetting
  ignoreCase : Bool
  checkOrder : CheckOrder
  useLocale : Bool
  localeCmp : Bytes → Bytes → Ordering

namespace Input

def compare (input : Input) (field1 field2 : Option Bytes) : Ordering :=
  match field1, field2 with
  | some field1, some field2 =>
    if input.ignoreCase then compareIgnoreCase field1 field2
    else if input.useLocale then input.localeCmp field1 field2
    else Lexical.order (numbers field1) (numbers field2)
  | some _, none => .gt
  | none, some _ => .lt
  | none, none => .eq

/-- Where fields are in the order; a missing one is first. -/
def rank (input : Input) (field : Option Bytes) : WithBot (List Nat) :=
  field.map fun bytes => numbers (if input.ignoreCase then bytes.map Ascii.toLower else bytes)

end Input

theorem compareIgnoreCase_cons (a b : UInt8) (as bs : Bytes) :
    compareIgnoreCase (a :: as) (b :: bs) =
      if Ascii.toLower a = Ascii.toLower b then compareIgnoreCase as bs
      else Lexical.order (Ascii.toLower a).toNat (Ascii.toLower b).toNat := by
  unfold compareIgnoreCase
  rw [List.zip_cons_cons, List.find?_cons]
  by_cases h : Ascii.toLower a = Ascii.toLower b
  · have hlen : Lexical.order (a :: as).length (b :: bs).length = Lexical.order as.length bs.length := by
      unfold Lexical.order
      simp only [List.length_cons, Nat.compare_eq_ite_lt, Nat.succ_lt_succ_iff]
    simp only [h, ne_eq, not_true_eq_false, decide_false, ite_true, hlen]
  · simp only [h, ne_eq, not_false_eq_true, decide_true, ite_false]

theorem order_nil_cons {α : Type} [LinearOrder α] (a : α) (as : List α) : Lexical.order [] (a :: as) = .lt :=
  Lexical.order_lt.2 (List.nil_lt_cons a as)

theorem order_cons_nil {α : Type} [LinearOrder α] (a : α) (as : List α) : Lexical.order (a :: as) [] = .gt :=
  Lexical.order_gt.2 (List.nil_lt_cons a as)

/-- It is the order of the fields in lower case. -/
theorem compareIgnoreCase_eq (as bs : Bytes) :
    compareIgnoreCase as bs = Lexical.order (numbers (as.map Ascii.toLower)) (numbers (bs.map Ascii.toLower)) := by
  unfold numbers
  induction as generalizing bs with
  | nil =>
    cases bs with
    | nil => rfl
    | cons b bs =>
      rw [List.map_nil, List.map_nil, List.map_cons, List.map_cons, order_nil_cons]
      rfl
  | cons a as ih =>
    cases bs with
    | nil =>
      rw [List.map_nil, List.map_nil, List.map_cons, List.map_cons, order_cons_nil]
      rfl
    | cons b bs =>
      rw [compareIgnoreCase_cons, List.map_cons, List.map_cons, List.map_cons, List.map_cons, Lexical.order_cons]
      split
      · rename_i h
        rw [Lexical.then_of_eq (Lexical.order_eq.2 (congrArg UInt8.toNat h)), ih]
      · rename_i h
        rw [Lexical.then_of_ne (mt Lexical.order_eq.1 fun heq => h (UInt8.toNat_inj.1 heq))]

theorem order_withBot {α : Type} [LinearOrder α] (a b : α) :
    Lexical.order (a : WithBot α) (b : WithBot α) = Lexical.order a b := by
  rcases lt_trichotomy a b with h | rfl | h
  · rw [Lexical.order_lt.2 h, Lexical.order_lt.2 (WithBot.coe_lt_coe.2 h)]
  · rw [Lexical.order_eq.2 rfl, Lexical.order_eq.2 rfl]
  · rw [Lexical.order_gt.2 h, Lexical.order_gt.2 (WithBot.coe_lt_coe.2 h)]

/-- Other than in a locale, fields are compared by their ranks. -/
theorem compare_eq_order (input : Input) (h : input.ignoreCase = true ∨ input.useLocale = false)
    (field1 field2 : Option Bytes) :
    input.compare field1 field2 = Lexical.order (input.rank field1) (input.rank field2) := by
  cases field1 with
  | none =>
    cases field2 with
    | none => exact (Lexical.order_eq.2 rfl).symm
    | some f => exact (Lexical.order_lt.2 (WithBot.bot_lt_coe _)).symm
  | some e =>
    cases field2 with
    | none => exact (Lexical.order_gt.2 (WithBot.bot_lt_coe _)).symm
    | some f =>
      have hrank : Lexical.order (input.rank (some e)) (input.rank (some f)) =
          Lexical.order (numbers (if input.ignoreCase then e.map Ascii.toLower else e))
            (numbers (if input.ignoreCase then f.map Ascii.toLower else f)) := order_withBot _ _
      rw [hrank]
      unfold Input.compare
      cases hcase : input.ignoreCase with
      | true => exact compareIgnoreCase_eq e f
      | false =>
        have hlocale := h.resolve_left (by rw [hcase]; decide)
        rw [hlocale]
        rfl

end Peiosutils.Join
