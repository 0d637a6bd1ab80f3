import Mathlib.Data.List.Chain
import Peiosutils.Sort.Reread
import Peiosutils.Sort.Shortcuts

/-!
# Checking the order (`sort -c`)

A thread reads the file in chunks, and each line is compared with the one before it, across the ends of chunks with
the tables of both. The verdict is that of the lines alone (`checkChunks_eq`): wherever the chunks end, the first line
that is out of order is reported, with its number. Where no grown buffer is cut the lines are those of the file
(`check_spec`).
-/

set_option autoImplicit false

namespace Peiosutils.Sort.Key

open Ascii Lines

section

variable {F G : Type} (env : Externals F G) (settings : GlobalSettings)

/-! ## The code -/

/-- The lines of a chunk, with the tables for their keys. -/
structure Parsed (F G : Type) where
  lines : List Line
  data : LineData F G

/-- `SortError::Disorder`: the line, and its number. -/
structure Disorder where
  lineNumber : Nat
  line : List UInt8
  deriving DecidableEq, Repr

/-- Greater than what the order of a line and the next may be. -/
def tooGreat (cmp : Ordering) : Bool := if settings.unique then cmp != .lt else cmp == .gt

variable [LinearOrder F]

/-- The lines of a chunk behind its first, from the number of that on: the number of the last. None is a panic. -/
def checkWindows (data : LineData F G) : Line → List Line → Nat → Option (Except Disorder Nat)
  | _, [], lineIdx => some (.ok lineIdx)
  | a, b :: rest, lineIdx => do
    let cmp ← compareBy env settings data data a b
    if tooGreat settings cmp then some (.error ⟨lineIdx + 1, b.line⟩) else checkWindows data b rest (lineIdx + 1)

/-- The last line of the chunk before and the first of this one. -/
def checkSeam (prev : Option (Parsed F G)) (chunk : Parsed F G) (lineIdx : Nat) : Option (Except Disorder Unit) :=
  match prev with
  | none => some (.ok ())
  | some prev => do
    let prevLast ← prev.lines.getLast?
    let newFirst ← chunk.lines.head?
    let cmp ← compareBy env settings prev.data chunk.data prevLast newFirst
    if tooGreat settings cmp then some (.error ⟨lineIdx, newFirst.line⟩) else some (.ok ())

def checkChunks : Option (Parsed F G) → List (Parsed F G) → Nat → Option (Except Disorder Unit)
  | _, [], _ => some (.ok ())
  | prev, chunk :: chunks, lineIdx => do
    match ← checkSeam env settings prev chunk (lineIdx + 1) with
    | .error e => some (.error e)
    | .ok () =>
      match chunk.lines with
      | [] => checkChunks (some chunk) chunks (lineIdx + 1)
      | first :: rest =>
        match ← checkWindows env settings chunk.data first rest (lineIdx + 1) with
        | .error e => some (.error e)
        | .ok lineIdx => checkChunks (some chunk) chunks lineIdx

/-- `sort -c`. When a read fails, no more chunks come, and that is all. -/
def check (separator : UInt8) (buffers : Nat → List UInt8) (fuel : Nat) (file : Reader) :
    Option (Except Disorder Unit) := do
  let (chunks, _) ← readAll none separator buffers fuel 0 ⟨[], file, []⟩
  let chunks ← chunks.mapM fun lines => (parseLines env settings lines).map fun (lines, data) => Parsed.mk lines data
  checkChunks env settings none chunks 0

/-! ## Two lines -/

/-- The order of two lines, whatever chunks they are in. -/
def lineOrder (a b : List UInt8) : Ordering :=
  let folded := asciiCaseInsensitiveCmp a b
  if settings.canUseFastLexicographic then reverseIf settings.reverse (compare a b)
  else if settings.canUseFastAsciiInsensitive ∧ (folded ≠ .eq ∨ a = b) then reverseIf settings.reverse folded
  else
    match compareFloats settings (tables env settings [a]) (tables env settings [b]) ⟨a, 0⟩ ⟨b, 0⟩ with
    | some ord => ord
    | none =>
      match firstDifferent env settings a b with
      | some s => reverseIf s.settings.reverse (s.compare env settings a b)
      | none => lastResort settings a b

variable {as bs : List (List UInt8)} {i j : Nat} {a b : List UInt8}

theorem compareBy_tables (ha : as[i]? = some a) (hb : bs[j]? = some b) :
    compareBy env settings (tables env settings as) (tables env settings bs) ⟨a, i⟩ ⟨b, j⟩ =
      some (lineOrder env settings a b) := by
  have hfloats : compareFloats settings (tables env settings as) (tables env settings bs) ⟨a, i⟩ ⟨b, j⟩ =
      compareFloats settings (tables env settings [a]) (tables env settings [b]) ⟨a, 0⟩ ⟨b, 0⟩ := by
    rw [compareFloats_eq env settings ha hb, compareFloats_eq env settings rfl rfl]
  have hkeys := compareSelectors_eq env settings [] settings.selectors rfl ha hb
  simp only [List.countP_nil] at hkeys
  unfold compareBy lineOrder
  rw [hfloats, hkeys]
  by_cases hlex : settings.canUseFastLexicographic = true
  · exact (if_pos hlex).trans (congrArg some (if_pos hlex).symm)
  · refine (if_neg hlex).trans (Eq.trans ?_ (congrArg some (if_neg hlex).symm))
    by_cases hfold : settings.canUseFastAsciiInsensitive ∧ (asciiCaseInsensitiveCmp a b ≠ .eq ∨ a = b)
    · exact (if_pos hfold).trans (congrArg some (if_pos hfold).symm)
    · refine (if_neg hfold).trans (Eq.trans ?_ (congrArg some (if_neg hfold).symm))
      cases compareFloats settings (tables env settings [a]) (tables env settings [b]) ⟨a, 0⟩ ⟨b, 0⟩ with
      | some ord => rfl
      | none =>
        dsimp only [firstDifferent]
        cases settings.selectors.find? fun s => s.compare env settings a b ≠ .eq with
        | none => rfl
        | some s => rfl

/-! ## All lines -/

/-- The first line behind one whose number is `n` that is out of order. -/
def firstFrom : List UInt8 → List (List UInt8) → Nat → Except Disorder Unit
  | _, [], _ => .ok ()
  | a, b :: rest, n =>
    if tooGreat settings (lineOrder env settings a b) then .error ⟨n + 1, b⟩ else firstFrom b rest (n + 1)

def firstDisorder : List (List UInt8) → Except Disorder Unit
  | [] => .ok ()
  | a :: rest => firstFrom env settings a rest 1

theorem firstFrom_append (a : List UInt8) (xs ys : List (List UInt8)) (n : Nat) :
    firstFrom env settings a (xs ++ ys) n = (firstFrom env settings a xs n >>= fun _ =>
      firstFrom env settings ((a :: xs).getLast (List.cons_ne_nil a xs)) ys (n + xs.length)) := by
  induction xs generalizing a n with
  | nil => rfl
  | cons x xs ih =>
    rw [List.cons_append, firstFrom, firstFrom]
    split
    · rfl
    · rw [ih, List.getLast_cons_cons, List.length_cons, Nat.add_right_comm, Nat.add_assoc]

/-- A chunk of lines. -/
def parsed (lines : List (List UInt8)) : Parsed F G :=
  ⟨lines.zipIdx.map fun p => ⟨p.1, p.2⟩, tables env settings lines⟩

theorem checkWindows_eq (before rest : List (List UInt8)) (a : List UInt8) (n : Nat) :
    checkWindows env settings (tables env settings (before ++ a :: rest)) ⟨a, before.length⟩
      ((rest.zipIdx (before.length + 1)).map fun p => ⟨p.1, p.2⟩) n =
      some ((firstFrom env settings a rest n).map fun _ => n + rest.length) := by
  induction rest generalizing before a n with
  | nil => rfl
  | cons b rest ih =>
    have ha : (before ++ a :: b :: rest)[before.length]? = some a := by simp
    have hb : (before ++ a :: b :: rest)[before.length + 1]? = some b := by simp
    rw [List.zipIdx_cons, List.map_cons, checkWindows, compareBy_tables env settings ha hb]
    simp only [Option.bind_eq_bind, Option.bind_some, firstFrom]
    split
    · rfl
    · have hsplit : before ++ a :: b :: rest = (before ++ [a]) ++ b :: rest := by simp
      have hlen : before.length + 1 = (before ++ [a]).length := by simp
      rw [hsplit, hlen, ih, List.length_cons, Nat.add_right_comm, Nat.add_assoc]

theorem checkSeam_eq (prev cs : List (List UInt8)) (p c : List UInt8) (n : Nat) :
    checkSeam env settings (some (parsed env settings (prev ++ [p]))) (parsed env settings (c :: cs)) n =
      some (if tooGreat settings (lineOrder env settings p c) then .error ⟨n, c⟩ else .ok ()) := by
  have hp : (prev ++ [p])[prev.length]? = some p := by simp
  have hlast : (parsed env settings (prev ++ [p])).lines.getLast? = some ⟨p, prev.length⟩ := by
    simp [parsed, List.zipIdx_append]
  have hfirst : (parsed env settings (c :: cs)).lines.head? = some ⟨c, 0⟩ := rfl
  have horder : compareBy env settings (parsed env settings (prev ++ [p])).data (parsed env settings (c :: cs)).data
      ⟨p, prev.length⟩ ⟨c, 0⟩ = some (lineOrder env settings p c) := compareBy_tables env settings hp rfl
  simp only [checkSeam, hlast, hfirst, horder, Option.bind_eq_bind, Option.bind_some]
  split <;> rfl

/-- A chunk behind its first line, and those behind it. -/
theorem checkChunks_step (chunk : List (List UInt8)) (c : List UInt8) (chunks : List (Parsed F G))
    (prev : Option (Parsed F G)) (n : Nat)
    (hseam : checkSeam env settings prev (parsed env settings (c :: chunk)) (n + 1) = some (.ok ())) :
    checkChunks env settings prev (parsed env settings (c :: chunk) :: chunks) n =
      match firstFrom env settings c chunk (n + 1) with
      | .error e => some (.error e)
      | .ok _ => checkChunks env settings (some (parsed env settings (c :: chunk))) chunks (n + 1 + chunk.length) := by
  have hwindows : checkWindows env settings (parsed env settings (c :: chunk)).data ⟨c, 0⟩
      ((chunk.zipIdx 1).map fun p => ⟨p.1, p.2⟩) (n + 1) =
      some ((firstFrom env settings c chunk (n + 1)).map fun _ => n + 1 + chunk.length) :=
    checkWindows_eq env settings [] chunk c (n + 1)
  have hlines : (parsed env settings (c :: chunk)).lines = ⟨c, 0⟩ :: (chunk.zipIdx 1).map fun p => ⟨p.1, p.2⟩ := rfl
  rw [checkChunks, hseam]
  simp only [Option.bind_eq_bind, Option.bind_some, hlines, hwindows]
  cases firstFrom env settings c chunk (n + 1) with
  | error e => rfl
  | ok u => rfl

/-- Behind a chunk the check goes on as if all lines were in one. -/
theorem checkChunks_some (prev : List (List UInt8)) (p : List UInt8) (chunks : List (List (List UInt8)))
    (hne : ∀ c ∈ chunks, c ≠ []) (n : Nat) :
    checkChunks env settings (some (parsed env settings (prev ++ [p]))) (chunks.map (parsed env settings)) n =
      some (firstFrom env settings p chunks.flatten n) := by
  induction chunks generalizing prev p n with
  | nil => rfl
  | cons chunk chunks ih =>
    obtain ⟨c, cs, rfl⟩ := List.exists_cons_of_ne_nil (hne chunk List.mem_cons_self)
    have hseam := checkSeam_eq env settings prev cs p c (n + 1)
    rw [List.map_cons, List.flatten_cons, List.cons_append, firstFrom]
    by_cases hgreat : tooGreat settings (lineOrder env settings p c) = true
    · rw [if_pos hgreat] at hseam ⊢
      rw [checkChunks, hseam]
      rfl
    · rw [if_neg hgreat] at hseam ⊢
      rw [checkChunks_step env settings cs c _ _ n hseam, firstFrom_append]
      have hrest := ih (c :: cs).dropLast ((c :: cs).getLast (List.cons_ne_nil c cs))
        (fun d hd => hne d (List.mem_cons_of_mem _ hd)) (n + 1 + cs.length)
      rw [List.dropLast_append_getLast] at hrest
      cases firstFrom env settings c cs (n + 1) with
      | error e => rfl
      | ok u => exact hrest

/-- The verdict does not depend on where the chunks end. -/
theorem checkChunks_eq (chunks : List (List (List UInt8))) (hne : ∀ c ∈ chunks, c ≠ []) :
    checkChunks env settings none (chunks.map (parsed env settings)) 0 =
      some (firstDisorder env settings chunks.flatten) := by
  cases chunks with
  | nil => rfl
  | cons chunk chunks =>
    obtain ⟨c, cs, rfl⟩ := List.exists_cons_of_ne_nil (hne chunk List.mem_cons_self)
    rw [List.map_cons, List.flatten_cons, List.cons_append, firstDisorder,
      checkChunks_step env settings cs c _ none 0 rfl, firstFrom_append]
    have hrest := checkChunks_some env settings (c :: cs).dropLast ((c :: cs).getLast (List.cons_ne_nil c cs)) chunks
      (fun d hd => hne d (List.mem_cons_of_mem _ hd)) (0 + 1 + cs.length)
    rw [List.dropLast_append_getLast] at hrest
    cases firstFrom env settings c cs (0 + 1) with
    | error e => rfl
    | ok u => exact hrest

theorem firstFrom_ok_iff (a : List UInt8) (rest : List (List UInt8)) (n : Nat) :
    firstFrom env settings a rest n = .ok () ↔
      (a :: rest).IsChain fun x y => tooGreat settings (lineOrder env settings x y) = false := by
  induction rest generalizing a n with
  | nil => simp [firstFrom]
  | cons b rest ih =>
    rw [firstFrom, List.isChain_cons_cons, ← ih b (n + 1)]
    split
    · rename_i h
      simp [h]
    · rename_i h
      simp [h]

/-- The lines up to a number are in order, and the next is not. -/
def BreaksAt (lines : List (List UInt8)) (i : Nat) (line : List UInt8) : Prop :=
  (∃ a, lines[i]? = some a ∧ lines[i + 1]? = some line ∧ tooGreat settings (lineOrder env settings a line) = true) ∧
    ∀ j < i, ∀ a b, lines[j]? = some a → lines[j + 1]? = some b → tooGreat settings (lineOrder env settings a b) = false

theorem firstFrom_error_iff (a line : List UInt8) (rest : List (List UInt8)) (n m : Nat) :
    firstFrom env settings a rest n = .error ⟨m, line⟩ ↔
      ∃ i, BreaksAt env settings (a :: rest) i line ∧ m = n + i + 1 := by
  induction rest generalizing a n with
  | nil =>
    refine ⟨fun h => (by cases h), ?_⟩
    rintro ⟨i, ⟨⟨_, -, hline, -⟩, -⟩, -⟩
    rw [List.getElem?_cons_succ, List.getElem?_nil] at hline
    cases hline
  | cons b rest ih =>
    rw [firstFrom]
    split
    · rename_i hgreat
      rw [Except.error.injEq, Disorder.mk.injEq]
      constructor
      · rintro ⟨rfl, rfl⟩
        exact ⟨0, ⟨⟨a, rfl, rfl, hgreat⟩, fun j hj => absurd hj (Nat.not_lt_zero j)⟩, rfl⟩
      · rintro ⟨i, ⟨⟨x, -, hline, -⟩, hbefore⟩, rfl⟩
        cases i with
        | zero => exact ⟨rfl, Option.some.inj hline⟩
        | succ i =>
          rw [hbefore 0 (Nat.succ_pos i) a b rfl rfl] at hgreat
          cases hgreat
    · rename_i hgreat
      rw [ih]
      constructor
      · rintro ⟨i, ⟨hat, hbefore⟩, rfl⟩
        refine ⟨i + 1, ⟨hat, fun j hj x y hx hy => ?_⟩, by omega⟩
        cases j with
        | zero =>
          cases hx
          cases hy
          exact Bool.eq_false_iff.2 hgreat
        | succ j => exact hbefore j (Nat.lt_of_succ_lt_succ hj) x y hx hy
      · rintro ⟨i, ⟨hat, hbefore⟩, rfl⟩
        cases i with
        | zero =>
          obtain ⟨x, hx, hline, hbad⟩ := hat
          cases hx
          cases hline
          exact absurd hbad hgreat
        | succ i => exact ⟨i, ⟨hat, fun j hj x y hx hy => hbefore (j + 1) (Nat.succ_lt_succ hj) x y hx hy⟩, by omega⟩

theorem firstDisorder_ok_iff (lines : List (List UInt8)) : firstDisorder env settings lines = .ok () ↔
    lines.IsChain fun a b => tooGreat settings (lineOrder env settings a b) = false := by
  cases lines with
  | nil => exact ⟨fun _ => List.isChain_nil, fun _ => rfl⟩
  | cons a rest => exact firstFrom_ok_iff env settings a rest 1

theorem firstDisorder_error_iff (lines : List (List UInt8)) (n : Nat) (line : List UInt8) :
    firstDisorder env settings lines = .error ⟨n, line⟩ ↔ ∃ i, BreaksAt env settings lines i line ∧ n = i + 2 := by
  cases lines with
  | nil =>
    refine ⟨fun h => (by cases h), ?_⟩
    rintro ⟨i, ⟨⟨_, hx, -⟩, -⟩, -⟩
    cases hx
  | cons a rest =>
    rw [firstDisorder, firstFrom_error_iff]
    exact exists_congr fun i => and_congr_right fun _ => by rw [Nat.add_comm 1 i]

/-! ## A file -/

omit [LinearOrder F] in
theorem mapM_parsed (chunks : List (List (List UInt8))) :
    (chunks.mapM fun lines => (parseLines env settings lines).map fun (lines, data) => Parsed.mk lines data) =
      some (chunks.map (parsed env settings)) := by
  induction chunks with
  | nil => rfl
  | cons chunk chunks ih =>
    rw [List.mapM_cons, parseLines_eq, ih]
    rfl

/-- What was sent is judged. That a read failed behind it is not told. -/
theorem check_eq {separator : UInt8} {buffers : Nat → List UInt8} {fuel : Nat} {file : Reader}
    {chunks : List (List (List UInt8))} {failed : Option String}
    (hall : readAll none separator buffers fuel 0 ⟨[], file, []⟩ = some (chunks, failed)) (hne : ∀ c ∈ chunks, c ≠ []) :
    check env settings separator buffers fuel file = some (firstDisorder env settings chunks.flatten) := by
  rw [check, hall]
  simp only [Option.bind_eq_bind, Option.bind_some, mapM_parsed, checkChunks_eq env settings chunks hne]

/-- Where no grown buffer is cut, the check never panics, succeeds just where each line of the file may stand behind the
one before it, and else reports the first that may not, with its number, however the file is read. -/
theorem check_spec {separator : UInt8} {buffers : Nat → List UInt8} {file : Reader} (hfine : file.Fine)
    (hcuts : CutsFromStart separator buffers file) : ∃ bound, ∀ fuel, bound < fuel → ∃ verdict,
      check env settings separator buffers fuel file = some verdict ∧
      (verdict = .ok () ↔ (lines separator file.content).IsChain fun a b =>
        tooGreat settings (lineOrder env settings a b) = false) ∧
      ∀ n line, verdict = .error ⟨n, line⟩ ↔
        ∃ i, BreaksAt env settings (lines separator file.content) i line ∧ n = i + 2 := by
  have hsound : ∀ m input, Called none separator buffers 0 ⟨[], file, []⟩ m input →
      input.Sound none separator (buffers m) := fun m input hcalled s hs =>
    (hcuts m input hcalled s hs).sound (Loop.nextFiles_reaches hs (nextFiles_called hcalled rfl))
  refine ⟨(Input.left separator ⟨[], file, []⟩).length, fun fuel hfuel =>
    ⟨firstDisorder env settings (lines separator file.content), ?_, firstDisorder_ok_iff env settings _,
      firstDisorder_error_iff env settings _⟩⟩
  obtain ⟨chunks, hall, hflat, hne⟩ := readAll_left fuel 0 ⟨[], file, []⟩ ⟨hfine, by simp⟩ hsound hfuel
  have hleft : Input.left separator ⟨[], file, []⟩ = lines separator file.content := by
    simp [Input.left, nextLines]
  rw [check_eq env settings hall hne, hflat, hleft]

end

/-- The lines `9` and `10`, in a buffer of 8192 bytes. -/
theorem check_spec_two : ∃ bound, ∀ fuel, bound < fuel → ∃ verdict,
    check exact .default 10 (fun _ => List.replicate 8192 0) fuel [.data 57 [10, 49, 48]] = some verdict ∧
    (verdict = .ok () ↔ (lines 10 (Reader.content [.data 57 [10, 49, 48]])).IsChain fun a b =>
      tooGreat .default (lineOrder exact .default a b) = false) ∧
    ∀ n line, verdict = .error ⟨n, line⟩ ↔
      ∃ i, BreaksAt exact .default (lines 10 (Reader.content [.data 57 [10, 49, 48]])) i line ∧ n = i + 2 :=
  check_spec exact .default (by simp [Reader.Fine])
    (cutsFromStart_of_dense (fun _ => by rw [List.length_replicate]) (dense_of_lines (by decide)))

end Peiosutils.Sort.Key
