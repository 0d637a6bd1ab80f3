import Peiosutils.Lib.Radix
import Peiosutils.Regman.Fragment

/-!
# File permissions as text (`perms.rs`)

`parse` reads a mask from a number, a list of names, a name or a run of letters, and `render` writes one as a list of
names with what is left as a number.
-/

set_option autoImplicit false

namespace Peiosutils.Sd

open Regman (isWhitespace trim)

abbrev Str := List Char

abbrev Mask := BitVec 32

/-! ## Rights -/

def fileAll : Mask := 0x001F01FF#32

def fileRead : Mask := 0x00120089#32

def fileWrite : Mask := 0x00120116#32

def fileExecute : Mask := 0x001200A0#32

def delete : Mask := 0x00010000#32

def writeDac : Mask := 0x00040000#32

def writeOwner : Mask := 0x00080000#32

def readControl : Mask := 0x00020000#32

def synchronize : Mask := 0x00100000#32

def modify : Mask := fileRead ||| fileWrite ||| fileExecute ||| delete

def fileReadData : Mask := 0x0001#32

def fileWriteData : Mask := 0x0002#32

def fileAppendData : Mask := 0x0004#32

def fileReadEa : Mask := 0x0008#32

def fileWriteEa : Mask := 0x0010#32

def fileExecuteBit : Mask := 0x0020#32

def fileDeleteChild : Mask := 0x0040#32

def fileReadAttributes : Mask := 0x0080#32

def fileWriteAttributes : Mask := 0x0100#32

def letter (c : Char) : Option Mask :=
  if c = 'r' ∨ c = 'R' then some fileRead
  else if c = 'w' ∨ c = 'W' then some fileWrite
  else if c = 'x' ∨ c = 'X' then some fileExecute
  else if c = 'd' ∨ c = 'D' then some delete
  else if c = 'm' ∨ c = 'M' then some modify
  else if c = 'f' ∨ c = 'F' then some fileAll
  else if c = 'c' ∨ c = 'C' then some writeDac
  else if c = 'o' ∨ c = 'O' then some writeOwner
  else none

/-- The long words. -/
def words : List (Str × Mask) :=
  [("read".toList, fileRead), ("write".toList, fileWrite), ("execute".toList, fileExecute), ("delete".toList, delete),
    ("modify".toList, modify), ("full".toList, fileAll), ("all".toList, fileAll), ("change-perms".toList, writeDac),
    ("write-dac".toList, writeDac), ("take-owner".toList, writeOwner), ("write-owner".toList, writeOwner),
    ("read-control".toList, readControl), ("synchronize".toList, synchronize), ("sync".toList, synchronize),
    ("read-data".toList, fileReadData), ("write-data".toList, fileWriteData), ("append".toList, fileAppendData),
    ("append-data".toList, fileAppendData), ("read-ea".toList, fileReadEa), ("write-ea".toList, fileWriteEa),
    ("traverse".toList, fileExecuteBit), ("execute-bit".toList, fileExecuteBit),
    ("delete-child".toList, fileDeleteChild), ("read-attrs".toList, fileReadAttributes),
    ("read-attributes".toList, fileReadAttributes), ("write-attrs".toList, fileWriteAttributes),
    ("write-attributes".toList, fileWriteAttributes)]

def word (w : Str) : Option Mask := words.lookup w

/-! ## Parsing -/

inductive Error where
  | usage (message : Str)
  deriving DecidableEq, Repr

/-- `strip_prefix("0x").or_else(|| strip_prefix("0X"))` -/
def stripHex : Str → Option Str
  | c :: d :: s => if c = '0' ∧ (d = 'x' ∨ d = 'X') then some s else none
  | _ => none

def parseOne (tok : Str) : Except Error Mask :=
  match word tok with
  | some m => .ok m
  | none =>
    match tok with
    | [c] =>
      match letter c with
      | some m => .ok m
      | none => .error (.usage ("unknown perm `".toList ++ tok ++ "`".toList))
    | _ => .error (.usage ("unknown perm `".toList ++ tok ++ "`".toList))

/-- Tokens between commas. -/
def parsePieces (mask : Mask) : List Str → Except Error Mask
  | [] => .ok mask
  | piece :: pieces => do
    let m ← parseOne (trim piece)
    parsePieces (mask ||| m) pieces

/-- A run of letters of the text `t`. -/
def parseLetters (t : Str) (mask : Mask) : Str → Except Error Mask
  | [] => .ok mask
  | c :: cs =>
    match letter c with
    | some m => parseLetters t (mask ||| m) cs
    | none => .error (.usage ("unknown perm `".toList ++ c :: "` in `".toList ++ t ++ "`".toList))

def parse (s : Str) : Except Error Mask :=
  let t := trim s
  if t.isEmpty then .error (.usage "empty perms".toList)
  else
    match stripHex t with
    | some hex =>
      match Radix.fromStrRadix 4294967296 16 hex with
      | .ok n => .ok (BitVec.ofNat 32 n)
      | .error _ => .error (.usage ("bad hex perms `".toList ++ t ++ "`".toList))
    | none =>
      if ',' ∈ t then parsePieces 0#32 (t.splitOn ',')
      else
        match word t with
        | some m => .ok m
        | none => parseLetters t 0#32 t

/-! ## Rendering -/

/-- Rights that are named together. -/
def composites : List (Str × Mask) :=
  [("f".toList, fileAll), ("m".toList, modify), ("r".toList, fileRead), ("w".toList, fileWrite),
    ("x".toList, fileExecute)]

/-- Rights that are named one by one. -/
def singles : List (Str × Mask) :=
  [("d".toList, delete), ("c".toList, writeDac), ("o".toList, writeOwner), ("rc".toList, readControl),
    ("sync".toList, synchronize)]

/-- The rights that are not named yet, and the names. -/
structure Rendering where
  bits : Mask
  out : List Str

def pushComposite (r : Rendering) (e : Str × Mask) : Rendering :=
  if r.bits &&& e.2 = e.2 then ⟨r.bits &&& ~~~e.2, r.out ++ [e.1]⟩ else r

def pushSingle (r : Rendering) (e : Str × Mask) : Rendering :=
  if r.bits &&& e.2 ≠ 0#32 then ⟨r.bits &&& ~~~e.2, r.out ++ [e.1]⟩ else r

def render (mask : Mask) : Str :=
  let r := singles.foldl pushSingle (composites.foldl pushComposite ⟨mask, []⟩)
  let s := [','].intercalate r.out
  let s :=
    if r.bits ≠ 0#32 then (if s.isEmpty then s else s ++ [',']) ++ ("0x".toList ++ Nat.toDigits 16 r.bits.toNat) else s
  if s.isEmpty then "(none)".toList else s

end Peiosutils.Sd

/-!
# The tokens of a mask

A mask is rendered as at most one composite, the single rights that it leaves and a number (`rendering_eq`), which
together are the mask (`union_tokens`).
-/

namespace Peiosutils.Sd

variable {m : Mask} {es : List (Str × Mask)}

/-! ## Rights that are taken out -/

theorem or_and_not {w : Mask} (h : m &&& w = w) : w ||| m &&& ~~~w = m := by
  ext i hi
  have hbit := congrArg (·[i]) h
  simp only [BitVec.getElem_and, BitVec.getElem_or, BitVec.getElem_not] at hbit ⊢
  revert hbit
  cases m[i] <;> cases w[i] <;> decide

/-- All rights of a list of tokens. -/
def union (es : List (Str × Mask)) : Mask := es.foldr (fun e mask => e.2 ||| mask) 0#32

theorem union_append (es es' : List (Str × Mask)) : union (es ++ es') = union es ||| union es' := by
  induction es with
  | nil => exact (BitVec.zero_or).symm
  | cons e es ih =>
    show e.2 ||| union (es ++ es') = e.2 ||| union es ||| union es'
    rw [ih, BitVec.or_assoc]

theorem union_and_of_mem {e : Str × Mask} (he : e ∈ es) : union es &&& e.2 = e.2 := by
  induction es with
  | nil => cases he
  | cons e' es ih =>
    show (e'.2 ||| union es) &&& e.2 = e.2
    ext i hi
    simp only [BitVec.getElem_and, BitVec.getElem_or]
    rcases List.mem_cons.1 he with rfl | he
    · cases e.2[i] <;> simp
    · have hbit := congrArg (·[i]) (ih he)
      simp only [BitVec.getElem_and] at hbit
      revert hbit
      cases (union es)[i] <;> cases e.2[i] <;> simp

/-- A composite is taken out only as long as there is `readControl`, which is in all of them. -/
theorem foldl_pushComposite_lost (h : ∀ e ∈ es, e.2.getLsbD 17 = true) (r : Rendering)
    (hlost : r.bits.getLsbD 17 = false) : es.foldl pushComposite r = r := by
  induction es with
  | nil => rfl
  | cons e es ih =>
    rw [List.forall_mem_cons] at h
    have hne : ¬ r.bits &&& e.2 = e.2 := by
      intro heq
      have hbit := congrArg (·.getLsbD 17) heq
      simp only [BitVec.getLsbD_and, hlost, h.1, Bool.and_true] at hbit
      cases hbit
    rw [List.foldl_cons, pushComposite, if_neg hne, ih h.2]

def firstWhole (es : List (Str × Mask)) (m : Mask) : Option (Str × Mask) := es.find? fun e => m &&& e.2 = e.2

theorem firstWhole_spec {e : Str × Mask} (h : firstWhole es m = some e) : m &&& e.2 = e.2 :=
  of_decide_eq_true (List.find?_some (p := fun e : Str × Mask => decide (m &&& e.2 = e.2)) h)

/-- What the composite leaves. -/
def behind (m : Mask) : Option (Str × Mask) → Mask
  | none => m
  | some e => m &&& ~~~e.2

theorem foldl_pushComposite (h : ∀ e ∈ es, e.2.getLsbD 17 = true) (m : Mask) :
    es.foldl pushComposite ⟨m, []⟩ = ⟨behind m (firstWhole es m), (firstWhole es m).toList.map Prod.fst⟩ := by
  induction es with
  | nil => rfl
  | cons e es ih =>
    rw [List.forall_mem_cons] at h
    rw [List.foldl_cons, pushComposite]
    by_cases he : m &&& e.2 = e.2
    · have hfirst : firstWhole (e :: es) m = some e := by
        rw [firstWhole, List.find?_cons, decide_eq_true he]
      have hlost : (m &&& ~~~e.2).getLsbD 17 = false := by
        simp only [BitVec.getLsbD_and, BitVec.getLsbD_not, h.1, Bool.not_true, Bool.and_false]
      rw [if_pos he, hfirst, foldl_pushComposite_lost h.2 ⟨m &&& ~~~e.2, [] ++ [e.1]⟩ hlost]
      rfl
    · have hfirst : firstWhole (e :: es) m = firstWhole es m := by
        rw [firstWhole, List.find?_cons, decide_eq_false he]
        rfl
      rw [if_neg he, hfirst, ih h.2]

theorem and_not_zero (m : Mask) : m &&& ~~~0#32 = m := by
  ext i hi
  simp only [BitVec.getElem_and, BitVec.getElem_not, BitVec.getElem_zero, Bool.not_false, Bool.and_true]

theorem and_not_self_of_and_eq_zero {w : Mask} (h : m &&& w = 0#32) : m &&& ~~~w = m := by
  ext i hi
  have hbit := congrArg (·[i]) h
  simp only [BitVec.getElem_and, BitVec.getElem_not, BitVec.getElem_zero] at hbit ⊢
  revert hbit
  cases m[i] <;> cases w[i] <;> decide

theorem and_not_and_of_disjoint {w d : Mask} (h : d &&& w = 0#32) : m &&& ~~~w &&& d = m &&& d := by
  ext i hi
  have hbit := congrArg (·[i]) h
  simp only [BitVec.getElem_and, BitVec.getElem_not, BitVec.getElem_zero] at hbit ⊢
  revert hbit
  cases w[i] <;> cases d[i] <;> simp

theorem and_not_or (m c d : Mask) : m &&& ~~~c &&& ~~~d = m &&& ~~~(c ||| d) := by
  ext i hi
  simp only [BitVec.getElem_and, BitVec.getElem_not, BitVec.getElem_or, Bool.not_or, Bool.and_assoc]

/-- The tokens that have a right of the mask. -/
def present (es : List (Str × Mask)) (m : Mask) : List (Str × Mask) := es.filter fun e => m &&& e.2 ≠ 0#32

/-- Single rights are taken out one by one. -/
theorem foldl_pushSingle (h : es.Pairwise fun e e' => e'.2 &&& e.2 = 0#32) (r : Rendering) :
    es.foldl pushSingle r = ⟨r.bits &&& ~~~union es, r.out ++ (present es r.bits).map Prod.fst⟩ := by
  induction es generalizing r with
  | nil =>
    show r = ⟨r.bits &&& ~~~0#32, r.out ++ []⟩
    rw [and_not_zero, List.append_nil]
  | cons e es ih =>
    rw [List.pairwise_cons] at h
    have hkeep : present es (r.bits &&& ~~~e.2) = present es r.bits := by
      refine List.filter_congr fun e' he' => ?_
      rw [and_not_and_of_disjoint (h.1 e' he')]
    have hunion : union (e :: es) = e.2 ||| union es := rfl
    rw [List.foldl_cons, ih h.2, pushSingle, hunion, ← and_not_or]
    by_cases he : r.bits &&& e.2 ≠ 0#32
    · rw [if_pos he]
      have hpresent : present (e :: es) r.bits = e :: present es r.bits := by
        rw [present, List.filter_cons, decide_eq_true he, if_pos rfl]
        rfl
      rw [hpresent, hkeep, List.map_cons, List.append_assoc]
      rfl
    · have hpresent : present (e :: es) r.bits = present es r.bits := by
        rw [present, List.filter_cons, decide_eq_false he, if_neg Bool.false_ne_true]
        rfl
      rw [if_neg he, hpresent, and_not_self_of_and_eq_zero (Classical.not_not.1 he)]

/-- Single rights that are there make up the rights that are there. -/
theorem union_present (h : ∀ e ∈ es, ∃ i, e.2 = BitVec.twoPow 32 i) (m : Mask) :
    union (present es m) = m &&& union es := by
  induction es with
  | nil => exact (BitVec.and_zero).symm
  | cons e es ih =>
    rw [List.forall_mem_cons] at h
    obtain ⟨i, hi⟩ := h.1
    have hunion : m &&& union (e :: es) = m &&& e.2 ||| m &&& union es := by
      ext j hj
      simp only [union, List.foldr_cons, BitVec.getElem_and, BitVec.getElem_or, Bool.and_or_distrib_left]
    rw [hunion, ← ih h.2]
    by_cases he : m &&& e.2 ≠ 0#32
    · have hwhole : m &&& e.2 = e.2 := by
        rw [hi, BitVec.and_twoPow] at he ⊢
        split at he
        next hbit => rw [if_pos hbit]
        next => exact absurd rfl he
      rw [present, List.filter_cons, decide_eq_true he, if_pos rfl, hwhole]
      rfl
    · rw [Classical.not_not.1 he, BitVec.zero_or, present, List.filter_cons, decide_eq_false he,
        if_neg Bool.false_ne_true]
      rfl

/-! ## The tokens of a mask -/

/-- The rights that no composite names. -/
def rest (m : Mask) : Mask := behind m (firstWhole composites m)

def tokens (m : Mask) : List (Str × Mask) := (firstWhole composites m).toList ++ present singles (rest m)

/-- The rights without a name. -/
def remainder (m : Mask) : Mask := rest m &&& ~~~union singles

def number (m : Mask) : Str := "0x".toList ++ Nat.toDigits 16 (remainder m).toNat

/-- The names, and the number that is left. -/
def parts (m : Mask) : List Str := (tokens m).map Prod.fst ++ if remainder m = 0#32 then [] else [number m]

theorem readControl_mem_composites : ∀ e ∈ composites, e.2.getLsbD 17 = true := by
  simp only [composites, List.forall_mem_cons]
  decide

theorem pairwise_singles : singles.Pairwise fun e e' => e'.2 &&& e.2 = 0#32 := by
  simp only [singles, List.pairwise_cons, List.forall_mem_cons]
  decide

theorem twoPow_singles : ∀ e ∈ singles, ∃ i, e.2 = BitVec.twoPow 32 i := by
  simp only [singles, List.forall_mem_cons]
  exact ⟨⟨16, by decide⟩, ⟨18, by decide⟩, ⟨19, by decide⟩, ⟨17, by decide⟩, ⟨20, by decide⟩, fun e he => by cases he⟩

theorem rendering_eq (m : Mask) :
    singles.foldl pushSingle (composites.foldl pushComposite ⟨m, []⟩) =
      ⟨remainder m, (tokens m).map Prod.fst⟩ := by
  rw [foldl_pushComposite readControl_mem_composites, foldl_pushSingle pairwise_singles, tokens, List.map_append]
  rfl

/-- The rights of the tokens and of the number make up the mask. -/
theorem union_tokens (m : Mask) : union (tokens m) ||| remainder m = m := by
  have hrest : rest m &&& union singles ||| rest m &&& ~~~union singles = rest m := by
    ext i hi
    simp only [BitVec.getElem_or, BitVec.getElem_and, BitVec.getElem_not]
    cases (rest m)[i] <;> cases (union singles)[i] <;> rfl
  rw [tokens, union_append, union_present twoPow_singles, BitVec.or_assoc, remainder, hrest, rest]
  cases hfirst : firstWhole composites m with
  | none => exact BitVec.zero_or
  | some e =>
    have hwhole := firstWhole_spec hfirst
    have hunion : union [e] = e.2 := BitVec.or_zero
    rw [Option.toList_some, hunion]
    exact or_and_not hwhole

end Peiosutils.Sd

/-!
# Reading back what was rendered

A list with a number in it, or with the name `rc`, is not read. A mask is read back from what is rendered of it if it
needs no such list (`parse_render_mask_iff`).
-/

namespace Peiosutils.Sd

open Regman (isWhitespace trim trim_eq_self)

variable {m : Mask} {es : List (Str × Mask)}

/-! ## Lists of tokens -/

/-- A piece of a list: it is not empty, and keeps its ends and the list's. -/
def Plain (p : Str) : Prop := p ≠ [] ∧ ∀ c ∈ p, c ≠ ',' ∧ isWhitespace c = false

theorem intercalate_snoc (sep : Str) {ps : List Str} (h : ps ≠ []) (p : Str) :
    sep.intercalate (ps ++ [p]) = sep.intercalate ps ++ sep ++ p := by
  induction ps with
  | nil => exact absurd rfl h
  | cons q ps ih =>
    cases ps with
    | nil => simp [List.intercalate]
    | cons q' ps =>
      have hrest := ih (List.cons_ne_nil q' ps)
      simp only [List.cons_append, List.intercalate_cons_cons] at hrest ⊢
      rw [hrest]
      simp only [List.append_assoc]

theorem mem_intercalate {sep : Str} {ps : List Str} {c : Char} (hc : c ∈ sep.intercalate ps) :
    c ∈ sep ∨ ∃ p ∈ ps, c ∈ p := by
  induction ps with
  | nil => cases hc
  | cons q ps ih =>
    cases ps with
    | nil =>
      rw [List.intercalate_singleton] at hc
      exact .inr ⟨q, List.mem_cons_self, hc⟩
    | cons q' ps =>
      rw [List.intercalate_cons_cons, List.mem_append, List.mem_append] at hc
      rcases hc with (hc | hc) | hc
      · exact .inr ⟨q, List.mem_cons_self, hc⟩
      · exact .inl hc
      · rcases ih hc with hsep | ⟨p, hp, hcp⟩
        · exact .inl hsep
        · exact .inr ⟨p, List.mem_cons_of_mem q hp, hcp⟩

/-- A list of pieces is read piece by piece. -/
theorem parse_list {p q : Str} {ps : List Str} (h : ∀ p' ∈ p :: q :: ps, Plain p') (hhex : p.head? ≠ some '0') :
    parse ([','].intercalate (p :: q :: ps)) = parsePieces 0#32 (p :: q :: ps) := by
  have hwhite : ∀ c ∈ [','].intercalate (p :: q :: ps), isWhitespace c = false := by
    intro c hc
    rcases mem_intercalate hc with hsep | ⟨p', hp', hcp⟩
    · rw [List.mem_singleton.1 hsep]
      rfl
    · exact ((h p' hp').2 c hcp).2
  have hsplit : ([','].intercalate (p :: q :: ps)).splitOn ',' = p :: q :: ps :=
    List.splitOn_intercalate ',' (fun p' hp' hcomma => ((h p' hp').2 ',' hcomma).1 rfl) (List.cons_ne_nil _ _)
  have hcomma : ',' ∈ [','].intercalate (p :: q :: ps) := by
    rw [List.intercalate_cons_cons]
    simp
  obtain ⟨c, p', rfl⟩ := List.exists_cons_of_ne_nil (h p List.mem_cons_self).1
  have hhead : [','].intercalate ((c :: p') :: q :: ps) = c :: (p' ++ [','] ++ [','].intercalate (q :: ps)) := by
    rw [List.intercalate_cons_cons]
    rfl
  have hnohex : stripHex ([','].intercalate ((c :: p') :: q :: ps)) = none := by
    rw [hhead]
    have hc : c ≠ '0' := fun hc => hhex (congrArg some hc)
    cases p' ++ [','] ++ [','].intercalate (q :: ps) with
    | nil => rfl
    | cons d s => exact if_neg fun hand => hc hand.1
  have hne : ([','].intercalate ((c :: p') :: q :: ps)).isEmpty = false := by
    rw [hhead]
    rfl
  simp only [parse, trim_eq_self hwhite, hne, hnohex, if_pos hcomma, hsplit, if_neg Bool.false_ne_true]

theorem parsePieces_tokens (h : ∀ e ∈ es, parseOne (trim e.1) = .ok e.2) (acc : Mask) :
    parsePieces acc (es.map Prod.fst) = .ok (acc ||| union es) := by
  induction es generalizing acc with
  | nil => exact congrArg Except.ok (BitVec.or_zero).symm
  | cons e es ih =>
    rw [List.forall_mem_cons] at h
    rw [List.map_cons, parsePieces, h.1]
    show parsePieces (acc ||| e.2) (es.map Prod.fst) = _
    rw [ih h.2, BitVec.or_assoc]
    rfl

/-- One piece that is not read is enough. -/
theorem parsePieces_error {ps : List Str} {p : Str} (hp : p ∈ ps) {e : Error} (h : parseOne (trim p) = .error e)
    (acc : Mask) : ∃ e, parsePieces acc ps = .error e := by
  induction ps generalizing acc with
  | nil => cases hp
  | cons q ps ih =>
    rw [parsePieces]
    cases hq : parseOne (trim q) with
    | error e' => exact ⟨e', rfl⟩
    | ok m =>
      rcases List.mem_cons.1 hp with rfl | hp
      · rw [h] at hq
        cases hq
      · exact ih hp (acc ||| m)

/-! ## Names and numbers -/

/-- The token that no list knows. -/
def rc : Str := "rc".toList

theorem plain_name {p : Str}
    (h : (!p.isEmpty && p.all (fun c => c != ',' && !isWhitespace c) && p.head? != some '0') = true) :
    Plain p ∧ p.head? ≠ some '0' := by
  simp only [Bool.and_eq_true, List.all_eq_true, bne_iff_ne, Bool.not_eq_true', List.isEmpty_eq_false_iff] at h
  exact ⟨⟨h.1.1, h.1.2⟩, h.2⟩

theorem plain_names : ∀ e ∈ composites ++ singles, Plain e.1 ∧ e.1.head? ≠ some '0' := by
  simp only [composites, singles, List.cons_append, List.nil_append, List.forall_mem_cons]
  exact ⟨plain_name rfl, plain_name rfl, plain_name rfl, plain_name rfl, plain_name rfl, plain_name rfl,
    plain_name rfl, plain_name rfl, plain_name rfl, plain_name rfl, fun e he => by cases he⟩

theorem parse_names : ∀ e ∈ composites ++ singles, e.1 ≠ rc →
    parseOne (trim e.1) = .ok e.2 ∧ parse e.1 = .ok e.2 := by
  simp only [composites, singles, List.cons_append, List.nil_append, List.forall_mem_cons]
  refine ⟨fun _ => ⟨rfl, rfl⟩, fun _ => ⟨rfl, rfl⟩, fun _ => ⟨rfl, rfl⟩, fun _ => ⟨rfl, rfl⟩, fun _ => ⟨rfl, rfl⟩,
    fun _ => ⟨rfl, rfl⟩, fun _ => ⟨rfl, rfl⟩, fun _ => ⟨rfl, rfl⟩, fun h => absurd rfl h, fun _ => ⟨rfl, rfl⟩,
    fun e he => by cases he⟩

theorem parseOne_rc : ∃ e, parseOne (trim rc) = .error e := ⟨_, rfl⟩

/-- By itself it is read as two letters. -/
theorem parse_rc : parse rc = .ok (fileRead ||| writeDac) := rfl

theorem hexDigit_plain {n : Nat} {c : Char} (hc : c ∈ Nat.toDigits 16 n) : c ≠ ',' ∧ isWhitespace c = false := by
  obtain ⟨d, hd⟩ := Option.isSome_iff_exists.1
    (Radix.digit_of_value (Radix.value_toDigits (by decide) (Nat.le_refl 16) n) hc)
  simp only [Radix.digit, Option.ite_none_right_eq_some] at hd
  have hletter : 48 ≤ c.toNat ∧ c.toNat ≤ 122 := by
    split_ifs at hd <;> omega
  constructor
  · rintro rfl
    exact absurd hletter.1 (by decide)
  · simp only [isWhitespace, Bool.or_eq_false_iff, Bool.and_eq_false_iff, decide_eq_false_iff_not]
    omega

theorem plain_number (m : Mask) : Plain (number m) := by
  refine ⟨List.cons_ne_nil _ _, fun c hc => ?_⟩
  have hcons : number m = '0' :: 'x' :: Nat.toDigits 16 (remainder m).toNat := rfl
  rw [hcons] at hc
  rcases List.mem_cons.1 hc with rfl | hc
  · exact ⟨by decide, rfl⟩
  · rcases List.mem_cons.1 hc with rfl | hc
    · exact ⟨by decide, rfl⟩
    · exact hexDigit_plain hc

/-- A number is not a piece of a list. -/
theorem parseOne_number (m : Mask) : ∃ e, parseOne (trim (number m)) = .error e := by
  rw [trim_eq_self fun c hc => ((plain_number m).2 c hc).2]
  exact ⟨_, rfl⟩

theorem parse_number (m : Mask) : parse (number m) = .ok (remainder m) := by
  have htrim : trim (number m) = number m := trim_eq_self fun c hc => ((plain_number m).2 c hc).2
  have hhex : stripHex (number m) = some (Nat.toDigits 16 (remainder m).toNat) := rfl
  have hread : Radix.fromStrRadix 4294967296 16 (Nat.toDigits 16 (remainder m).toNat) = .ok (remainder m).toNat := by
    rw [Radix.fromStrRadix_digits (by decide) (by decide) (List.length_pos_iff.1 Nat.length_toDigits_pos)
      (Radix.value_toDigits (by decide) (Nat.le_refl 16) _)]
    exact if_pos (remainder m).isLt
  have hne : (number m).isEmpty = false := rfl
  simp only [parse, htrim, hne, hhex, hread, if_neg Bool.false_ne_true, BitVec.ofNat_toNat, BitVec.setWidth_eq]

/-! ## What is rendered -/

theorem mem_tokens {e : Str × Mask} (he : e ∈ tokens m) : e ∈ composites ++ singles := by
  rcases List.mem_append.1 he with he | he
  · exact List.mem_append_left _ (List.mem_of_find?_eq_some (Option.mem_toList.1 he))
  · exact List.mem_append_right _ (List.mem_filter.1 he).1

theorem plain_parts (m : Mask) : ∀ p ∈ parts m, Plain p := by
  refine List.forall_mem_append.2 ⟨fun p hp => ?_, fun p hp => ?_⟩
  · obtain ⟨e, he, rfl⟩ := List.mem_map.1 hp
    exact (plain_names e (mem_tokens he)).1
  · split at hp
    next => cases hp
    next =>
      rw [List.mem_singleton.1 hp]
      exact plain_number m

theorem intercalate_ne_nil {sep p : Str} {ps : List Str} (hp : p ≠ []) : sep.intercalate (p :: ps) ≠ [] := by
  cases ps with
  | nil =>
    rw [List.intercalate_singleton]
    exact hp
  | cons q ps =>
    rw [List.intercalate_cons_cons]
    exact fun h => hp (List.append_eq_nil_iff.1 (List.append_eq_nil_iff.1 h).1).1

/-- Without a token the number is the whole mask. -/
theorem remainder_of_tokens_nil (h : tokens m = []) : remainder m = m := by
  have hunion := union_tokens m
  rw [h] at hunion
  exact (BitVec.zero_or).symm.trans hunion

theorem render_eq (hm : m ≠ 0#32) : render m = [','].intercalate (parts m) := by
  have hnames : tokens m ≠ [] → (tokens m).map Prod.fst ≠ [] := fun h hnil => h (List.map_eq_nil_iff.1 hnil)
  have hjoined : tokens m ≠ [] → ([','].intercalate ((tokens m).map Prod.fst)).isEmpty = false := by
    intro h
    cases htokens : tokens m with
    | nil => exact absurd htokens h
    | cons e es =>
      have hplain := (plain_names e (mem_tokens (htokens ▸ List.mem_cons_self))).1
      exact List.isEmpty_eq_false_iff.2 (intercalate_ne_nil hplain.1)
  rw [render, rendering_eq, parts]
  dsimp only
  by_cases hrest : remainder m = 0#32
  · have htokens : tokens m ≠ [] := fun h => hm ((remainder_of_tokens_nil h).symm.trans hrest)
    rw [if_neg (not_not.2 hrest), if_pos hrest, List.append_nil, hjoined htokens, if_neg Bool.false_ne_true]
  · rw [if_pos hrest, if_neg hrest]
    by_cases htokens : tokens m = []
    · rw [htokens, List.map_nil, List.nil_append, List.intercalate_singleton, List.intercalate_nil]
      exact if_neg Bool.false_ne_true
    · rw [hjoined htokens, if_neg Bool.false_ne_true, intercalate_snoc _ (hnames htokens), if_neg, number]
      simp

/-- Tokens that a list knows, by themselves or in a list. -/
theorem parse_known {e : Str × Mask} (hmem : ∀ e' ∈ e :: es, e' ∈ composites ++ singles)
    (hknown : ∀ e' ∈ e :: es, e'.1 ≠ rc) : parse ([','].intercalate ((e :: es).map Prod.fst)) = .ok (union (e :: es)) := by
  have hnames := fun e' he' => parse_names e' (hmem e' he') (hknown e' he')
  cases es with
  | nil =>
    have hunion : union [e] = e.2 := BitVec.or_zero
    rw [hunion, List.map_singleton, List.intercalate_singleton]
    exact (hnames e List.mem_cons_self).2
  | cons e' es =>
    have hplain : ∀ p ∈ (e :: e' :: es).map Prod.fst, Plain p := by
      intro p hp
      obtain ⟨e'', he'', rfl⟩ := List.mem_map.1 hp
      exact (plain_names e'' (hmem e'' he'')).1
    have hlist := parse_list hplain (plain_names e (hmem e List.mem_cons_self)).2
    have hpieces := parsePieces_tokens (fun e'' he'' => (hnames e'' he'').1) 0#32
    rw [BitVec.zero_or] at hpieces
    exact hlist.trans hpieces

/-- A list with a piece that is not read. -/
theorem parse_unknown {e : Str × Mask} {p : Str} {ps : List Str} (he : e ∈ composites ++ singles) (hps : ps ≠ [])
    (hplain : ∀ p' ∈ e.1 :: ps, Plain p') (hp : p ∈ e.1 :: ps) (hbad : ∃ e, parseOne (trim p) = .error e)
    (mask : Mask) : parse ([','].intercalate (e.1 :: ps)) ≠ .ok mask := by
  obtain ⟨q, ps, rfl⟩ := List.exists_cons_of_ne_nil hps
  obtain ⟨error, herror⟩ := hbad
  obtain ⟨error', hpieces⟩ := parsePieces_error hp herror 0#32
  rw [parse_list hplain (plain_names e he).2, hpieces]
  exact fun h => by cases h

theorem eq_of_rc {e : Str × Mask} (he : e ∈ composites ++ singles) (hrc : e.1 = rc) : e = (rc, readControl) := by
  simp only [composites, singles, List.cons_append, List.nil_append, List.mem_cons, List.not_mem_nil, or_false] at he
  rcases he with rfl | rfl | rfl | rfl | rfl | rfl | rfl | rfl | rfl | rfl
  case inr.inr.inr.inr.inr.inr.inr.inr.inl => rfl
  all_goals exact absurd hrc (by decide)

/-- What is rendered is read back without tokens, or with nothing but tokens that a list knows. -/
theorem parse_render_tokens (hm : m ≠ 0#32) :
    parse (render m) = .ok m ↔ tokens m = [] ∨ remainder m = 0#32 ∧ ∀ e ∈ tokens m, e.1 ≠ rc := by
  rw [render_eq hm]
  cases htokens : tokens m with
  | nil =>
    have hrest := remainder_of_tokens_nil htokens
    have hparts : parts m = [number m] := by
      rw [parts, htokens, hrest, if_neg hm]
      rfl
    rw [hparts, List.intercalate_singleton, parse_number, hrest]
    exact ⟨fun _ => .inl rfl, fun _ => rfl⟩
  | cons e es =>
    have hmem : ∀ e' ∈ e :: es, e' ∈ composites ++ singles := fun e' he' => mem_tokens (htokens ▸ he')
    have he := hmem e List.mem_cons_self
    have hplain := plain_parts m
    have hsum := union_tokens m
    rw [htokens] at hsum
    rw [or_iff_right (List.cons_ne_nil e es)]
    by_cases hrest : remainder m = 0#32
    · have hparts : parts m = (e :: es).map Prod.fst := by rw [parts, htokens, if_pos hrest, List.append_nil]
      rw [hrest, BitVec.or_zero] at hsum
      rw [hparts] at hplain ⊢
      constructor
      · refine fun hparse => ⟨hrest, fun e' he' hrc => ?_⟩
        by_cases hes : es = []
        · -- `rc` by itself is read as two letters.
          subst hes
          obtain rfl := List.mem_singleton.1 he'
          rw [eq_of_rc he hrc] at hsum hparse
          have hother : parse rc = .ok m := hparse
          rw [parse_rc, ← hsum] at hother
          exact absurd (Except.ok.inj hother) (by decide)
        · refine parse_unknown he ?_ hplain (List.mem_map_of_mem he') ?_ m hparse
          · exact fun hnil => hes (List.map_eq_nil_iff.1 hnil)
          · rw [hrc]
            exact parseOne_rc
      · exact fun hand => (parse_known hmem hand.2).trans (congrArg Except.ok hsum)
    · have hparts : parts m = e.1 :: (es.map Prod.fst ++ [number m]) := by
        rw [parts, htokens, if_neg hrest]
        rfl
      rw [hparts] at hplain ⊢
      refine iff_of_false (parse_unknown he ?_ hplain (p := number m) ?_ (parseOne_number m) m) fun hand => hrest hand.1
      · exact fun hnil => List.cons_ne_nil _ _ (List.append_eq_nil_iff.1 hnil).2
      · exact List.mem_cons_of_mem _ (List.mem_append_right _ List.mem_cons_self)

/-! ## Masks that are read back -/

/-- Rights that can stand behind a composite. -/
def apart : Mask := delete ||| writeDac ||| writeOwner

/-- A number only, single rights without `readControl`, or a composite that only single rights are added to. -/
def Readable (m : Mask) : Prop :=
  m &&& (apart ||| readControl ||| synchronize) = 0#32 ∨ m &&& ~~~(apart ||| synchronize) = 0#32 ∨
    ∃ e ∈ composites, m &&& e.2 = e.2 ∧ m &&& ~~~(e.2 ||| apart) = 0#32

instance (m : Mask) : Decidable (Readable m) := inferInstanceAs (Decidable (_ ∨ _ ∨ _))

theorem union_singles : union singles = apart ||| readControl ||| synchronize := by decide

/-- A right of a mask that is there as a whole. -/
theorem bit_of_and_eq {c : Mask} (h : m &&& c = c) {i : Nat} (hi : c.getLsbD i = true) : m.getLsbD i = true := by
  rw [← h, BitVec.getLsbD_and, Bool.and_eq_true] at hi
  exact hi.1

theorem bit_of_and_eq_zero {c : Mask} (h : m &&& c = 0#32) {i : Nat} (hi : c.getLsbD i = true) :
    m.getLsbD i = false := by
  have hbit := congrArg (·.getLsbD i) h
  simpa only [BitVec.getLsbD_and, hi, Bool.and_true, BitVec.getLsbD_zero] using hbit

/-- Without `readControl` there is no composite. -/
theorem firstWhole_of_lost (h : m.getLsbD 17 = false) : firstWhole composites m = none := by
  refine List.find?_eq_none.2 fun e he hwhole => ?_
  have hbit := bit_of_and_eq (of_decide_eq_true hwhole) (readControl_mem_composites e he)
  exact Bool.false_ne_true (h.symm.trans hbit)

theorem rest_of_none (h : firstWhole composites m = none) : rest m = m := by rw [rest, h]; rfl

theorem tokens_eq_nil_iff : tokens m = [] ↔ m &&& union singles = 0#32 := by
  constructor
  · intro h
    have hrest := remainder_of_tokens_nil h
    rw [← hrest, remainder, BitVec.and_assoc]
    ext i hi
    simp only [BitVec.getElem_and, BitVec.getElem_not, BitVec.getElem_zero]
    cases (union singles)[i] <;> simp
  · intro h
    have hnone := firstWhole_of_lost (bit_of_and_eq_zero h (by decide))
    rw [tokens, rest_of_none hnone, hnone]
    refine List.filter_eq_nil_iff.2 fun e he hpresent => of_decide_eq_true hpresent ?_
    rw [← union_and_of_mem he, ← BitVec.and_assoc, h, BitVec.zero_and]

/-- The composite that is taken is the one that leaves no more than single rights. -/
theorem firstWhole_of_apart {e : Str × Mask} (he : e ∈ composites) (hwhole : m &&& e.2 = e.2)
    (hapart : m &&& ~~~(e.2 ||| apart) = 0#32) : firstWhole composites m = some e := by
  have hearlier : composites.Pairwise fun e' e => e'.2 &&& ~~~(e.2 ||| apart) ≠ 0#32 := by
    simp only [composites, List.pairwise_cons, List.forall_mem_cons]
    decide
  have hnot : ∀ e' : Str × Mask, m &&& e'.2 = e'.2 → e'.2 &&& ~~~(e.2 ||| apart) = 0#32 := by
    intro e' he'
    rw [← he', BitVec.and_comm m, BitVec.and_assoc, hapart, BitVec.and_zero]
  generalize composites = es at he hearlier
  induction es with
  | nil => cases he
  | cons e' es ih =>
    rw [List.pairwise_cons] at hearlier
    rw [firstWhole, List.find?_cons]
    rcases List.mem_cons.1 he with rfl | he
    · rw [decide_eq_true hwhole]
    · have hfalse : ¬ m &&& e'.2 = e'.2 := fun heq => hearlier.1 e he (hnot e' heq)
      rw [decide_eq_false hfalse]
      exact ih he hearlier.2

/-- Behind a composite only the rights that are apart are left. -/
theorem remainder_of_some {e : Str × Mask} (he : e ∈ composites) (h : firstWhole composites m = some e) :
    remainder m = m &&& ~~~(e.2 ||| apart) := by
  have hrest : rest m = m &&& ~~~e.2 := by rw [rest, h]; rfl
  have hcommon : ∀ e ∈ composites, e.2 ||| (apart ||| readControl ||| synchronize) = e.2 ||| apart := by
    simp only [composites, List.forall_mem_cons]
    decide
  rw [remainder, hrest, union_singles, and_not_or, hcommon e he]

theorem and_readControl (m : Mask) : m &&& readControl = if m.getLsbD 17 then readControl else 0#32 :=
  BitVec.and_twoPow m 17

theorem rest_of_some {e : Str × Mask} (h : firstWhole composites m = some e) : (rest m).getLsbD 17 = false := by
  have hbit := readControl_mem_composites e (List.mem_of_find?_eq_some h)
  rw [rest, h]
  show (m &&& ~~~e.2).getLsbD 17 = false
  simp only [BitVec.getLsbD_and, BitVec.getLsbD_not, hbit, Bool.not_true, Bool.and_false]

/-- There is a token that no list knows for `readControl` without a composite. -/
theorem rc_mem_tokens_iff :
    (∃ e ∈ tokens m, e.1 = rc) ↔ firstWhole composites m = none ∧ m.getLsbD 17 = true := by
  constructor
  · rintro ⟨e, he, hrc⟩
    obtain rfl := eq_of_rc (mem_tokens he) hrc
    rcases List.mem_append.1 he with he | he
    · have hmem := List.mem_of_find?_eq_some (Option.mem_toList.1 he)
      simp only [composites, List.mem_cons, Prod.mk.injEq, List.not_mem_nil, or_false] at hmem
      exact absurd hmem (by decide)
    · have hpresent : rest m &&& readControl ≠ 0#32 := of_decide_eq_true (List.mem_filter.1 he).2
      rw [and_readControl] at hpresent
      have hbit : (rest m).getLsbD 17 = true := by
        by_contra hfalse
        exact hpresent (if_neg hfalse)
      cases hfirst : firstWhole composites m with
      | none => exact ⟨rfl, rest_of_none hfirst ▸ hbit⟩
      | some e => exact absurd ((rest_of_some hfirst).symm.trans hbit) Bool.false_ne_true
  · rintro ⟨hnone, hbit⟩
    refine ⟨(rc, readControl), List.mem_append_right _ (List.mem_filter.2 ⟨?_, decide_eq_true ?_⟩), rfl⟩
    · simp [singles, rc]
    · rw [rest_of_none hnone, and_readControl, if_pos hbit]
      decide

theorem readable_of_tokens (h : remainder m = 0#32) (hrc : ∀ e ∈ tokens m, e.1 ≠ rc) : Readable m := by
  cases hfirst : firstWhole composites m with
  | some e =>
    have he := List.mem_of_find?_eq_some hfirst
    exact .inr (.inr ⟨e, he, firstWhole_spec hfirst, (remainder_of_some he hfirst).symm.trans h⟩)
  | none =>
    have hlost : m &&& readControl = 0#32 := by
      rw [and_readControl]
      refine if_neg fun hbit => ?_
      obtain ⟨e, he, heq⟩ := rc_mem_tokens_iff.2 ⟨hfirst, hbit⟩
      exact hrc e he heq
    rw [remainder, rest_of_none hfirst, union_singles] at h
    refine .inr (.inl ?_)
    ext i hi
    have hbit := congrArg (·[i]) h
    have hbit' := congrArg (·[i]) hlost
    simp only [BitVec.getElem_and, BitVec.getElem_not, BitVec.getElem_or, BitVec.getElem_zero] at hbit hbit' ⊢
    revert hbit hbit'
    cases m[i] <;> cases apart[i] <;> cases readControl[i] <;> cases synchronize[i] <;> decide

theorem readable_iff (m : Mask) : Readable m ↔ tokens m = [] ∨ remainder m = 0#32 ∧ ∀ e ∈ tokens m, e.1 ≠ rc := by
  constructor
  · rintro (hnumber | hsingles | ⟨e, he, hwhole, hapart⟩)
    · exact .inl (tokens_eq_nil_iff.2 (by rw [union_singles, hnumber]))
    · have hlost : m.getLsbD 17 = false := by
        have hbit := congrArg (·.getLsbD 17) hsingles
        simpa only [BitVec.getLsbD_and, BitVec.getLsbD_zero, Bool.and_true,
          show (~~~(apart ||| synchronize)).getLsbD 17 = true by decide] using hbit
      have hnone := firstWhole_of_lost hlost
      refine .inr ⟨?_, fun e he hrc => ?_⟩
      · rw [remainder, rest_of_none hnone, union_singles]
        ext i hi
        have hbit := congrArg (·[i]) hsingles
        simp only [BitVec.getElem_and, BitVec.getElem_not, BitVec.getElem_or, BitVec.getElem_zero] at hbit ⊢
        revert hbit
        cases m[i] <;> cases apart[i] <;> cases readControl[i] <;> cases synchronize[i] <;> decide
      · exact Bool.false_ne_true (hlost.symm.trans (rc_mem_tokens_iff.1 ⟨e, he, hrc⟩).2)
    · have hfirst := firstWhole_of_apart he hwhole hapart
      refine .inr ⟨(remainder_of_some he hfirst).trans hapart, fun e' he' hrc => ?_⟩
      have hnone := (rc_mem_tokens_iff.1 ⟨e', he', hrc⟩).1
      rw [hfirst] at hnone
      cases hnone
  · rintro (hnil | ⟨hrest, hrc⟩)
    · exact .inl (by rw [← union_singles]; exact tokens_eq_nil_iff.1 hnil)
    · exact readable_of_tokens hrest hrc

/-- A mask is read back from its text if it is readable, and only then. -/
theorem parse_render_mask_iff (m : Mask) (hm : m ≠ 0#32) : parse (render m) = .ok m ↔ Readable m :=
  (parse_render_tokens hm).trans (readable_iff m).symm

theorem parse_render_read : parse (render fileRead) = .ok fileRead ↔ Readable fileRead :=
  parse_render_mask_iff fileRead (by decide)

/-- To read and to write are `r,0x116`, which is no list of permissions. -/
theorem parse_render_read_write : ¬ ∀ m : Mask, m ≠ 0#32 → parse (render m) = .ok m := by
  intro h
  have hparse := h (fileRead ||| fileWrite) (by decide)
  revert hparse
  decide +kernel

end Peiosutils.Sd
