import Mathlib.Algebra.GroupWithZero.Nat
import Peiosutils.Lib.Fallible
import Peiosutils.Lib.Lines
import Peiosutils.Lib.Numeral
import Peiosutils.Lib.Octal

/-!
# The table of mounts (`mount/src/mountinfo.rs`)

A line of the table has six fields, optional fields, a lone `-`, and three fields more; bytes of paths are escaped. Lines
that are malformed are passed over.

`parse` panics where an escape of a path is above `\377`, or where the first lone `-` is one of the first six fields
(`parse_returns_iff`); entries that are written the way the kernel does are read back, when neither their root nor their
mount point is a lone `-` (`parse_render_iff`).
-/

set_option autoImplicit false

namespace Peiosutils.Mount.Mountinfo

open Octal (mulByte addByte subByte escapeNumbers)

/-! ## Reading -/

structure MountEntry where
  id : Int32
  parentId : Int32
  major : UInt32
  minor : UInt32
  root : List UInt8
  mountPoint : List UInt8
  vfsOpts : List UInt8
  optional : List (List UInt8)
  fstype : List UInt8
  source : List UInt8
  superOpts : List UInt8
  deriving DecidableEq

/-- An arithmetic overflow, or a slice whose start is behind its end. -/
inductive Panic where
  | overflow
  | slice
  deriving DecidableEq, Repr

/-- `(d[0] - b'0') * 64 + (d[1] - b'0') * 8 + (d[2] - b'0')`. -/
def escapeValue (d₀ d₁ d₂ : UInt8) : Option UInt8 := do
  let a ← subByte d₀.toNat 48
  let a ← mulByte a 64
  let b ← subByte d₁.toNat 48
  let b ← mulByte b 8
  let ab ← addByte a b
  let c ← subByte d₂.toNat 48
  let v ← addByte ab c
  return UInt8.ofNat v

def unmangle (s : List UInt8) : Except Panic (List UInt8) :=
  match Octal.decode escapeValue s with
  | some out => .ok out
  | none => .error .overflow

/-- A number of type `i32`; bytes that are no UTF-8 are no digits. -/
def asciiInt (b : List UInt8) : Option Int32 := (Numeral.parseSigned 2147483647 b).map Int32.ofInt

/-- A number of type `u32`. -/
def asciiUint (b : List UInt8) : Option UInt32 := (Numeral.parseUnsigned 4294967295 b).map UInt32.ofNat

/-- `major:minor`. -/
def device (mm : List UInt8) : Option (UInt32 × UInt32) :=
  if mm.contains 58 then do
    let major ← asciiUint (mm.takeWhile (· ≠ 58))
    let minor ← asciiUint ((mm.dropWhile (· ≠ 58)).drop 1)
    return (major, minor)
  else none

/-- The fields of a line. -/
def fieldsOf (line : List UInt8) : List (List UInt8) := (line.splitOn 32).filter (· ≠ [])

/-- Where the first lone `-` is. -/
def separator (fields : List (List UInt8)) : Option Nat := fields.findIdx? (· = [45])

/-- `fields[start..stop]`. -/
def slice (fields : List (List UInt8)) (start stop : Nat) : Except Panic (List (List UInt8)) :=
  if start ≤ stop then .ok ((fields.drop start).take (stop - start)) else .error .slice

/-- The entry of a line, none where the line is malformed. -/
def parseLine (line : List UInt8) : Except Panic (Option MountEntry) :=
  let fields := fieldsOf line
  if fields.length < 10 then .ok none
  else
    match asciiInt (fields.getD 0 []), asciiInt (fields.getD 1 []), device (fields.getD 2 []) with
    | some id, some parentId, some (major, minor) => do
      let root ← unmangle (fields.getD 3 [])
      let mountPoint ← unmangle (fields.getD 4 [])
      let vfsOpts := fields.getD 5 []
      match separator fields with
      | none => return none
      | some sep => do
        let optional ← slice fields 6 sep
        let post := fields.drop (sep + 1)
        if post.length < 3 then return none
        else do
          let source ← unmangle (post.getD 1 [])
          return some { id, parentId, major, minor, root, mountPoint, vfsOpts, optional,
                        fstype := post.getD 0 [], source, superOpts := post.getD 2 [] }
    | _, _, _ => .ok none

/-- The lines that are not empty. -/
def linesOf (data : List UInt8) : List (List UInt8) := (data.splitOn 10).filter (· ≠ [])

def parse (data : List UInt8) : Except Panic (List MountEntry) := do
  let entries ← (linesOf data).mapM parseLine
  return entries.filterMap id

/-! ## Which tables are read -/

theorem escapeValue_isSome_iff {d₀ d₁ d₂ : UInt8} (h₀ : Octal.isOctal d₀ = true) (h₁ : Octal.isOctal d₁ = true)
    (h₂ : Octal.isOctal d₂ = true) : (escapeValue d₀ d₁ d₂).isSome = true ↔ Octal.number d₀ d₁ d₂ < 256 := by
  obtain ⟨hlow₀, hhigh₀⟩ := Octal.isOctal_bounds h₀
  obtain ⟨hlow₁, hhigh₁⟩ := Octal.isOctal_bounds h₁
  obtain ⟨hlow₂, hhigh₂⟩ := Octal.isOctal_bounds h₂
  simp only [escapeValue, subByte, if_pos hlow₀, if_pos hlow₁, if_pos hlow₂, mulByte, addByte, Octal.number]
  by_cases hbig : (d₀.toNat - 48) * 64 ≤ 255
  · have hsmall : (d₁.toNat - 48) * 8 ≤ 255 := by omega
    have hsum : (d₀.toNat - 48) * 64 + (d₁.toNat - 48) * 8 ≤ 255 := by omega
    have hall : (d₀.toNat - 48) * 64 + (d₁.toNat - 48) * 8 + (d₂.toNat - 48) ≤ 255 := by omega
    simp [if_pos hbig, if_pos hsmall, if_pos hsum, if_pos hall]
    omega
  · simp [if_neg hbig]
    omega

theorem escapeValue_eq {d₀ d₁ d₂ : UInt8} (h₀ : Octal.isOctal d₀ = true) (h₁ : Octal.isOctal d₁ = true)
    (h₂ : Octal.isOctal d₂ = true) (h : Octal.number d₀ d₁ d₂ < 256) :
    escapeValue d₀ d₁ d₂ = some (UInt8.ofNat (Octal.number d₀ d₁ d₂)) := by
  obtain ⟨hlow₀, hhigh₀⟩ := Octal.isOctal_bounds h₀
  obtain ⟨hlow₁, hhigh₁⟩ := Octal.isOctal_bounds h₁
  obtain ⟨hlow₂, hhigh₂⟩ := Octal.isOctal_bounds h₂
  unfold Octal.number at h ⊢
  simp only [escapeValue, subByte, if_pos hlow₀, if_pos hlow₁, if_pos hlow₂, mulByte, addByte, Option.bind_eq_bind,
    Option.bind_some, if_pos (show (d₀.toNat - 48) * 64 ≤ 255 by omega), if_pos (show (d₁.toNat - 48) * 8 ≤ 255 by omega),
    if_pos (show (d₀.toNat - 48) * 64 + (d₁.toNat - 48) * 8 ≤ 255 by omega),
    if_pos (show (d₀.toNat - 48) * 64 + (d₁.toNat - 48) * 8 + (d₂.toNat - 48) ≤ 255 by omega)]
  rfl

/-- No escape is above `\377`. -/
def Decodes (s : List UInt8) : Prop := ∀ n ∈ escapeNumbers s, n < 256

theorem unmangle_ok_iff (s : List UInt8) : (∃ out, unmangle s = .ok out) ↔ Decodes s := by
  rw [Decodes, ← @Octal.decode_isSome_iff_numbers escapeValue _ fun _ _ _ => escapeValue_isSome_iff, unmangle]
  cases Octal.decode escapeValue s <;> simp

/-- What the fields of a line must be like where they are looked at: the escapes of the paths fit a byte, and the first
lone `-` is behind the first six fields. -/
def LineFits (fields : List (List UInt8)) : Prop :=
  10 ≤ fields.length → (asciiInt (fields.getD 0 [])).isSome → (asciiInt (fields.getD 1 [])).isSome →
    (device (fields.getD 2 [])).isSome →
    Decodes (fields.getD 3 []) ∧ Decodes (fields.getD 4 []) ∧
      ∀ sep, separator fields = some sep →
        6 ≤ sep ∧ (sep + 3 < fields.length → Decodes (fields.getD (sep + 2) []))

theorem parseLine_ok_iff (line : List UInt8) : (∃ e, parseLine line = .ok e) ↔ LineFits (fieldsOf line) := by
  unfold parseLine LineFits
  generalize fieldsOf line = fields
  simp only
  split
  · rename_i hlen
    exact iff_of_true ⟨none, rfl⟩ fun h => absurd h (Nat.not_le_of_lt hlen)
  rename_i hlen
  have hlen' : 10 ≤ fields.length := Nat.le_of_not_lt hlen
  split
  · rename_i id parentId major minor hid hparent hdevice
    simp only [hlen', hid, hparent, hdevice, Option.isSome_some, true_imp_iff]
    rw [Fallible.exists_bind_eq_ok, ← unmangle_ok_iff, ← unmangle_ok_iff]
    constructor
    · rintro ⟨root, hroot, h⟩
      obtain ⟨mountPoint, hmount, h⟩ := Fallible.exists_bind_eq_ok.1 h
      refine ⟨⟨root, hroot⟩, ⟨mountPoint, hmount⟩, fun sep hsep => ?_⟩
      simp only [hsep] at h
      obtain ⟨optional, hslice, h⟩ := Fallible.exists_bind_eq_ok.1 h
      have hsix : 6 ≤ sep := by
        unfold slice at hslice
        split at hslice
        · assumption
        · cases hslice
      refine ⟨hsix, fun hpost => ?_⟩
      rw [if_neg (by rw [List.length_drop]; omega)] at h
      obtain ⟨source, hsource, -⟩ := Fallible.exists_bind_eq_ok.1 h
      rw [List.getD_eq_getElem?_getD, List.getElem?_drop, ← List.getD_eq_getElem?_getD] at hsource
      exact (unmangle_ok_iff _).1 ⟨source, hsource⟩
    · rintro ⟨⟨root, hroot⟩, ⟨mountPoint, hmount⟩, hsep⟩
      refine ⟨root, hroot, Fallible.exists_bind_eq_ok.2 ⟨mountPoint, hmount, ?_⟩⟩
      cases hs : separator fields with
      | none => exact ⟨none, rfl⟩
      | some sep =>
        obtain ⟨hsix, hpost⟩ := hsep sep hs
        refine Fallible.exists_bind_eq_ok.2 ⟨_, if_pos hsix, ?_⟩
        split
        · exact ⟨none, rfl⟩
        · rename_i hshort
          rw [List.length_drop] at hshort
          obtain ⟨source, hsource⟩ := (unmangle_ok_iff _).2 (hpost (by omega))
          refine Fallible.exists_bind_eq_ok.2 ⟨source, ?_, _, rfl⟩
          rw [List.getD_eq_getElem?_getD, List.getElem?_drop, ← List.getD_eq_getElem?_getD]
          exact hsource
  · rename_i hnone
    refine iff_of_true ⟨none, rfl⟩ fun _ hid hparent hdevice => ?_
    obtain ⟨id, hid⟩ := Option.isSome_iff_exists.1 hid
    obtain ⟨parentId, hparent⟩ := Option.isSome_iff_exists.1 hparent
    obtain ⟨d, hdevice⟩ := Option.isSome_iff_exists.1 hdevice
    exact (hnone id parentId d.1 d.2 hid hparent hdevice).elim

/-- **Which tables are read without a panic.** -/
theorem parse_returns_iff (data : List UInt8) :
    (∃ entries, parse data = .ok entries) ↔ ∀ line ∈ linesOf data, LineFits (fieldsOf line) := by
  have hlines := (Fallible.exists_mapM_eq_ok (linesOf data)).trans (forall₂_congr fun line _ => parseLine_ok_iff line)
  rw [← hlines, parse, Fallible.exists_bind_eq_ok]
  constructor
  · rintro ⟨entries, h, -⟩
    exact ⟨entries, h⟩
  · rintro ⟨entries, h⟩
    exact ⟨entries, h, _, rfl⟩

end Peiosutils.Mount.Mountinfo

/-!
# A rendered table of mounts

The kernel writes an entry as a line of fields, where space, tab, newline and backslash are escaped in paths. A table that
is written so is read back, when neither the root nor the mount point of an entry is a lone `-` (`parse_render_iff`).
-/

namespace Peiosutils.Mount.Mountinfo

/-! ## Writing -/

/-- Space, tab, newline and backslash. -/
def isMangled (b : UInt8) : Bool := b == 32 || b == 9 || b == 10 || b == 92

def mangle (s : List UInt8) : List UInt8 := Octal.mangle isMangled s

/-- The fields of an entry's line. -/
def fieldList (e : MountEntry) : List (List UInt8) :=
  [Numeral.signed e.id.toInt, Numeral.signed e.parentId.toInt,
    Numeral.decimal e.major.toNat ++ 58 :: Numeral.decimal e.minor.toNat, mangle e.root, mangle e.mountPoint, e.vfsOpts] ++
    e.optional ++ [[45], e.fstype, mangle e.source, e.superOpts]

def renderLine (e : MountEntry) : List UInt8 := [32].intercalate (fieldList e)

def render (entries : List MountEntry) : List UInt8 := entries.flatMap fun e => renderLine e ++ [10]

/-- A field as it stands in a line. -/
def Plain (f : List UInt8) : Prop := f ≠ [] ∧ 32 ∉ f ∧ 10 ∉ f

/-- Fields that are not empty; those that are not escaped have neither space nor newline, and a lone `-` is neither the
options nor an optional field. -/
structure WellFormed (e : MountEntry) : Prop where
  root : e.root ≠ []
  mountPoint : e.mountPoint ≠ []
  source : e.source ≠ []
  vfsOpts : Plain e.vfsOpts ∧ e.vfsOpts ≠ [45]
  optional : ∀ f ∈ e.optional, Plain f ∧ f ≠ [45]
  fstype : Plain e.fstype
  superOpts : Plain e.superOpts

/-! ## Fields -/

theorem isMangled_bounds {b : UInt8} (h : isMangled b = true) : b.toNat < 208 := by
  simp only [isMangled, Bool.or_eq_true, beq_iff_eq] at h
  rcases h with ((rfl | rfl) | rfl) | rfl <;> decide

theorem unmangle_mangle (s : List UInt8) : unmangle (mangle s) = .ok s := by
  have hvalue : ∀ b, isMangled b = true →
      escapeValue (Octal.digits b).1 (Octal.digits b).2.1 (Octal.digits b).2.2 = some b := by
    intro b hb
    obtain ⟨h₀, h₁, h₂⟩ := Octal.isOctal_digits b
    rw [escapeValue_eq h₀ h₁ h₂ (by rw [Octal.number_digits]; exact b.toNat_lt), Octal.number_digits, UInt8.ofNat_toNat]
  rw [unmangle, mangle, Octal.decode_mangle rfl hvalue]

theorem plain_mangle {s : List UInt8} (h : s ≠ []) : Plain (mangle s) :=
  ⟨Octal.mangle_eq_nil.not.2 h, Octal.not_mem_mangle rfl (by decide) rfl s, Octal.not_mem_mangle rfl (by decide) rfl s⟩

theorem mangle_eq_dash {s : List UInt8} (h : mangle s = [45]) : s = [45] := by
  have hs := unmangle_mangle s
  rw [h] at hs
  exact (Except.ok.inj hs).symm

/-- A number has neither white space nor a colon in it. -/
theorem decimal_plain (n : Nat) : Plain (Numeral.decimal n) ∧ 58 ∉ Numeral.decimal n ∧ 45 ∉ Numeral.decimal n := by
  have hdigit : ∀ b : UInt8, Ascii.isDigit b = false → b ∉ Numeral.decimal n := fun b hb hmem => by
    rw [Numeral.isDigit_of_mem_decimal hmem] at hb
    cases hb
  exact ⟨⟨Numeral.decimal_ne_nil n, hdigit 32 rfl, hdigit 10 rfl⟩, hdigit 58 rfl, hdigit 45 rfl⟩

theorem signed_plain (n : Int) : Plain (Numeral.signed n) ∧ Numeral.signed n ≠ [45] := by
  cases n with
  | ofNat n =>
    obtain ⟨hplain, -, hdash⟩ := decimal_plain n
    refine ⟨hplain, fun h => hdash ?_⟩
    rw [show Numeral.decimal n = [45] from h]
    exact List.mem_cons_self
  | negSucc n =>
    obtain ⟨⟨hne, hspace, hline⟩, -, -⟩ := decimal_plain (n + 1)
    refine ⟨⟨List.cons_ne_nil _ _, ?_, ?_⟩, ?_⟩
    · rw [Numeral.signed, List.mem_cons, not_or]
      exact ⟨by decide, hspace⟩
    · rw [Numeral.signed, List.mem_cons, not_or]
      exact ⟨by decide, hline⟩
    · rw [Numeral.signed]
      exact fun h => hne (List.cons.inj h).2

theorem device_plain (major minor : Nat) : Plain (Numeral.decimal major ++ 58 :: Numeral.decimal minor) ∧
    Numeral.decimal major ++ 58 :: Numeral.decimal minor ≠ [45] := by
  obtain ⟨⟨hne, hspace, hline⟩, -, hdash⟩ := decimal_plain major
  obtain ⟨⟨-, hspace', hline'⟩, -, -⟩ := decimal_plain minor
  refine ⟨⟨by simp, ?_, ?_⟩, ?_⟩
  · rw [List.mem_append, List.mem_cons, not_or, not_or]
    exact ⟨hspace, by decide, hspace'⟩
  · rw [List.mem_append, List.mem_cons, not_or, not_or]
    exact ⟨hline, by decide, hline'⟩
  · intro h
    have hmem : (58 : UInt8) ∈ [45] := h ▸ List.mem_append_right _ List.mem_cons_self
    revert hmem
    decide

theorem asciiInt_signed (n : Int32) : asciiInt (Numeral.signed n.toInt) = some n := by
  have hlow := n.le_toInt
  have hhigh := n.toInt_lt
  rw [asciiInt, Numeral.parseSigned_signed (by omega) (by omega), Option.map_some, Int32.ofInt_toInt]

theorem asciiUint_decimal (n : UInt32) : asciiUint (Numeral.decimal n.toNat) = some n := by
  have hn := n.toNat_lt
  rw [asciiUint, Numeral.parseUnsigned_decimal (by omega), Option.map_some, UInt32.ofNat_toNat]

theorem device_decimal (major minor : UInt32) :
    device (Numeral.decimal major.toNat ++ 58 :: Numeral.decimal minor.toNat) = some (major, minor) := by
  have hne : ∀ b ∈ Numeral.decimal major.toNat, decide (b ≠ 58) = true := fun b hb =>
    decide_eq_true fun h => (decimal_plain major.toNat).2.1 (h ▸ hb)
  rw [device, if_pos (by simp), List.takeWhile_append_of_pos hne, List.dropWhile_append_of_pos hne]
  simp [asciiUint_decimal]

/-! ## Lines -/

variable {e : MountEntry}

theorem plain_fieldList (h : WellFormed e) : ∀ f ∈ fieldList e, Plain f := by
  intro f hf
  simp only [fieldList, List.mem_append, List.mem_cons, List.not_mem_nil, or_false] at hf
  rcases hf with ((rfl | rfl | rfl | rfl | rfl | rfl) | hf) | (rfl | rfl | rfl | rfl)
  · exact (signed_plain _).1
  · exact (signed_plain _).1
  · exact (device_plain _ _).1
  · exact plain_mangle h.root
  · exact plain_mangle h.mountPoint
  · exact h.vfsOpts.1
  · exact (h.optional f hf).1
  · exact ⟨by decide, by decide, by decide⟩
  · exact h.fstype
  · exact plain_mangle h.source
  · exact h.superOpts

/-- The fields are those that were written. -/
theorem fieldsOf_renderLine (h : WellFormed e) : fieldsOf (renderLine e) = fieldList e := by
  have hplain := plain_fieldList h
  rw [fieldsOf, renderLine, List.splitOn_intercalate 32 (fun f hf => (hplain f hf).2.1) (by simp [fieldList]),
    List.filter_eq_self]
  exact fun f hf => decide_eq_true (hplain f hf).1

/-- The lone `-` is found behind the optional fields, when no path is one. -/
theorem separator_fieldList (h : WellFormed e) (hroot : e.root ≠ [45]) (hmount : e.mountPoint ≠ [45]) :
    separator (fieldList e) = some (6 + e.optional.length) := by
  have hfirst : ∀ f ∈ [Numeral.signed e.id.toInt, Numeral.signed e.parentId.toInt,
      Numeral.decimal e.major.toNat ++ 58 :: Numeral.decimal e.minor.toNat, mangle e.root, mangle e.mountPoint,
      e.vfsOpts] ++ e.optional, f ≠ [45] := by
    intro f hf
    simp only [List.mem_append, List.mem_cons, List.not_mem_nil, or_false] at hf
    rcases hf with (rfl | rfl | rfl | rfl | rfl | rfl) | hf
    · exact (signed_plain _).2
    · exact (signed_plain _).2
    · exact (device_plain _ _).2
    · exact fun heq => hroot (mangle_eq_dash heq)
    · exact fun heq => hmount (mangle_eq_dash heq)
    · exact h.vfsOpts.2
    · exact (h.optional f hf).2
  rw [separator, fieldList, List.findIdx?_append,
    List.findIdx?_eq_none_iff.2 fun f hf => decide_eq_false (hfirst f hf), Option.none_or, List.findIdx?_cons]
  simp
  omega

theorem parseLine_renderLine (h : WellFormed e) (hroot : e.root ≠ [45]) (hmount : e.mountPoint ≠ [45]) :
    parseLine (renderLine e) = .ok (some e) := by
  have hsep := separator_fieldList h hroot hmount
  have hlen : (fieldList e).length = 10 + e.optional.length := by
    simp [fieldList]
    omega
  have hslice : slice (fieldList e) 6 (6 + e.optional.length) = .ok e.optional := by
    rw [slice, if_pos (Nat.le_add_right _ _), Nat.add_sub_cancel_left, fieldList, List.append_assoc,
      List.drop_left' (by rfl), List.take_left]
  have hpost : (fieldList e).drop (6 + e.optional.length + 1) = [e.fstype, mangle e.source, e.superOpts] := by
    rw [fieldList, List.drop_append, List.drop_eq_nil_of_le (by simp; omega), List.nil_append]
    simp [show 6 + e.optional.length + 1 - (e.optional.length + 6) = 1 by omega]
  rw [parseLine, fieldsOf_renderLine h]
  simp only [hsep, hslice, hpost]
  rw [if_neg (by omega)]
  simp [fieldList, asciiInt_signed, device_decimal, unmangle_mangle]
  rfl

theorem newline_not_mem_renderLine (h : WellFormed e) : 10 ∉ renderLine e := by
  intro hmem
  rw [renderLine, Lines.mem_intercalate (by decide)] at hmem
  obtain ⟨f, hf, hmem⟩ := hmem
  exact (plain_fieldList h f hf).2.2 hmem

theorem renderLine_ne_nil (h : WellFormed e) : renderLine e ≠ [] := by
  intro hnil
  have hfields := fieldsOf_renderLine h
  rw [hnil] at hfields
  exact absurd hfields (by simp [fieldsOf, fieldList])

/-! ## Tables -/

/-- The lines are those that were written. -/
theorem linesOf_render {entries : List MountEntry} (h : ∀ e ∈ entries, WellFormed e) :
    linesOf (render entries) = entries.map renderLine := by
  induction entries with
  | nil => rfl
  | cons e entries ih =>
    have he := h e List.mem_cons_self
    have hnewline := newline_not_mem_renderLine he
    have hne := renderLine_ne_nil he
    have hrest := ih fun e' he' => h e' (List.mem_cons_of_mem e he')
    rw [render, List.flatMap_cons, ← render, List.append_assoc, List.singleton_append, linesOf,
      List.splitOn_append_cons_self_of_not_mem hnewline, List.filter_cons_of_pos (by simpa using hne), ← linesOf, hrest]
    rfl

theorem separator_le {fields : List (List UInt8)} {i : Nat} (hi : i < fields.length) (h : fields[i] = [45]) :
    ∃ sep ≤ i, separator fields = some sep := by
  have hmem : [45] ∈ fields := h ▸ List.getElem_mem hi
  obtain ⟨sep, hsep⟩ : ∃ sep, separator fields = some sep := by
    cases hs : separator fields with
    | some sep => exact ⟨sep, rfl⟩
    | none => exact absurd (List.findIdx?_eq_none_iff.1 hs _ hmem) (by decide)
  refine ⟨sep, ?_, hsep⟩
  obtain ⟨hlt, -, hbefore⟩ := List.findIdx?_eq_some_iff_getElem.1 hsep
  by_contra hgt
  exact hbefore i (Nat.lt_of_not_le hgt) (decide_eq_true h)

/-- **Which tables are read back.** -/
theorem parse_render_iff (entries : List MountEntry) (h : ∀ e ∈ entries, WellFormed e) :
    parse (render entries) = .ok entries ↔ ∀ e ∈ entries, e.root ≠ [45] ∧ e.mountPoint ≠ [45] := by
  constructor
  · intro hparse e he
    have hfits := (parse_returns_iff _).1 ⟨entries, hparse⟩ (renderLine e) (by
      rw [linesOf_render h]
      exact List.mem_map_of_mem he)
    rw [fieldsOf_renderLine (h e he)] at hfits
    have hlen : (fieldList e).length = 10 + e.optional.length := by
      simp [fieldList]
      omega
    obtain ⟨-, -, hsep⟩ := hfits (by omega) (by simp [fieldList, asciiInt_signed]) (by simp [fieldList, asciiInt_signed])
      (by simp [fieldList, device_decimal])
    -- a path that is a lone `-` is one of the first six fields
    have hbehind : ∀ i, i < 6 → ∀ hi : i < (fieldList e).length, (fieldList e)[i] ≠ [45] := by
      intro i hsix hi heq
      obtain ⟨sep, hle, hs⟩ := separator_le hi heq
      have := (hsep sep hs).1
      omega
    refine ⟨fun hroot => hbehind 3 (by omega) (by omega) ?_, fun hmount => hbehind 4 (by omega) (by omega) ?_⟩
    · simp [fieldList, hroot]
      rfl
    · simp [fieldList, hmount]
      rfl
  · intro hpaths
    have hmap : ∀ es : List MountEntry, (∀ e ∈ es, WellFormed e ∧ e.root ≠ [45] ∧ e.mountPoint ≠ [45]) →
        (es.map renderLine).mapM parseLine = .ok (es.map some) := by
      intro es hes
      induction es with
      | nil => rfl
      | cons e es ih =>
        obtain ⟨he, hroot, hmount⟩ := hes e List.mem_cons_self
        rw [List.map_cons, List.mapM_cons, parseLine_renderLine he hroot hmount,
          ih fun e' he' => hes e' (List.mem_cons_of_mem e he')]
        rfl
    rw [parse, linesOf_render h, hmap entries fun e he => ⟨h e he, hpaths e he⟩]
    show Except.ok ((entries.map some).filterMap id) = _
    simp

end Peiosutils.Mount.Mountinfo
