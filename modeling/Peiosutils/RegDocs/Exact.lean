import Mathlib.Data.List.Nodup
import Peiosutils.Lib.Bytes
import Peiosutils.RegDocs.Document

/-!
# Values survive a document

The type and the bytes of a value come back exactly (`bytes_of`), and so does a name that is UTF-8 and not `@`
(`survives_iff`): a name `@` is taken for that of the default value, and a name that is not UTF-8 is written as its
lossy form.
-/

set_option autoImplicit false

namespace Peiosutils.RegDocs

open Utf8 Hex

/-! ## Hex -/

/-- A digit is one byte, no separator and no white space. -/
theorem digitChar_plain {d : Nat} (h : d < 16) :
    String.utf8EncodeChar (Nat.digitChar d) = [UInt8.ofNat (Nat.digitChar d).toNat] ∧
      (!Regman.isWhitespace (Nat.digitChar d) && !(Nat.digitChar d = ':' || Nat.digitChar d = '-')) = true := by
  interval_cases d <;> decide

theorem encode_hexDigits (w n : Nat) : Utf8.encode (hexDigits w n) = asciiBytes (hexDigits w n) := by
  have h : ∀ cs : List Char, (∀ c ∈ cs, ∃ d < 16, c = Nat.digitChar d) → Utf8.encode cs = asciiBytes cs := by
    intro cs
    induction cs with
    | nil => exact fun _ => rfl
    | cons c cs ih =>
      intro h
      obtain ⟨d, hd, hc⟩ := h c List.mem_cons_self
      rw [encode_cons, ih fun c' hc' => h c' (List.mem_cons_of_mem c hc'), hc, (digitChar_plain hd).1]
      rfl
  exact h _ fun c hc => hexDigit_mem hc

theorem hex_cons (b : UInt8) (bytes : List UInt8) : hex (b :: bytes) = hexDigits 2 b.toNat ++ hex bytes := rfl

theorem mem_hex {c : Char} {bytes : List UInt8} (h : c ∈ hex bytes) : ∃ d < 16, c = Nat.digitChar d := by
  obtain ⟨b, _, hc⟩ := List.mem_flatMap.1 h
  exact hexDigit_mem hc

theorem asciiBytes_two (b : UInt8) : ∃ x y, asciiBytes (hexDigits 2 b.toNat) = [x, y] ∧
    (digitValue x).isNone = false ∧ (digitValue y).isNone = false := by
  refine ⟨_, _, rfl, ?_, ?_⟩
  · rw [digitValue_digitChar (Nat.mod_lt _ (by omega))]
    rfl
  · rw [digitValue_digitChar (Nat.mod_lt _ (by omega))]
    rfl

theorem unhex_hex (bytes : List UInt8) : unhex (hex bytes) = .ok bytes := by
  have hfilter : (hex bytes).filter (fun c => !Regman.isWhitespace c && !(c = ':' || c = '-')) = hex bytes := by
    rw [List.filter_eq_self]
    intro c hc
    obtain ⟨d, hd, rfl⟩ := mem_hex hc
    exact (digitChar_plain hd).2
  suffices h : (Utf8.encode (hex bytes)).length % 2 = 0 ∧
      (Utf8.encode (hex bytes)).any (fun d => (digitValue d).isNone) = false ∧ pairs (Utf8.encode (hex bytes)) = bytes by
    simp only [unhex, hfilter, h]
    simp
  clear hfilter
  induction bytes with
  | nil => exact ⟨rfl, rfl, rfl⟩
  | cons b bytes ih =>
    obtain ⟨h1, h2, h3⟩ := ih
    obtain ⟨x, y, hxy, hx, hy⟩ := asciiBytes_two b
    have hread : fromHex [x, y] = some b.toNat := by
      rw [← hxy]
      exact fromHex_hexDigits (by decide) b.toNat_lt
    rw [hex_cons, encode_append, encode_hexDigits, hxy]
    refine ⟨?_, ?_, ?_⟩
    · simp only [List.cons_append, List.nil_append, List.length_cons]
      omega
    · simp [hx, hy, h2]
    · simp [pairs, hread, h3]

/-! ## Keywords -/

theorem typeOf_keyword (types : ValueTypes) (ty : UInt32) : typeOf types (keyword types ty) = some ty := by
  unfold keyword
  split
  · rename_i h; subst h; rfl
  split
  · rename_i h; subst h; rfl
  split
  · rename_i h; subst h; rfl
  split
  · rename_i h; subst h; rfl
  split
  · rename_i h; subst h; rfl
  split
  · rename_i h; subst h; rfl
  split
  · rename_i h; subst h; rfl
  split
  · rename_i h; subst h; rfl
  split
  · rename_i h; subst h; rfl
  split
  · rename_i h; subst h; rfl
  have hread : u32FromHex (hexDigits (Nat.log 16 ty.toNat + 1) ty.toNat) = some ty := by
    rw [u32FromHex, encode_hexDigits,
      fromHex_hexDigits (Nat.succ_pos _) (Nat.lt_pow_succ_log_self (by decide) _), Option.bind_some,
      if_pos ty.toNat_lt, UInt32.ofNat_toNat]
  rw [← hread]
  rfl

/-! ## Data -/

theorem jsonNumber_of_lt (keyword : Str) {n : Nat} (h : n < 2 ^ 64) :
    jsonNumber keyword (.number n) = .ok (UInt64.ofNat n) := by
  have : Json.asU64 (.number n) = some (UInt64.ofNat n) := if_pos h
  rw [jsonNumber, this]

theorem jsonSmall_toNat (keyword : Str) (n : UInt32) : jsonSmall keyword (.number n.toNat) = .ok n := by
  have hlt := n.toNat_lt
  have hnat : (UInt64.ofNat n.toNat).toNat = n.toNat := by
    simp only [UInt64.toNat_ofNat']
    omega
  rw [jsonSmall, jsonNumber_of_lt keyword (by omega)]
  simp only [bind, Except.bind, hnat]
  rw [if_pos hlt, UInt32.ofNat_toNat]
  rfl

theorem jsonStrings_map (list : List Str) : jsonStrings (list.map .string) = .ok list := by
  induction list with
  | nil => rfl
  | cons s list ih =>
    rw [List.map_cons, jsonStrings]
    simp only [Json.asStr, ih]
    rfl

/-- JSON of a type stands for the bytes it was made from. -/
theorem fromJson_dataJson {r : Registry} (h : r.Lawful) {ty : UInt32} {bytes : List UInt8} {data : Json}
    (hdata : dataJson r ty bytes = some data) (keyword : Str) : fromJson r ty keyword data = .ok bytes := by
  have htyped := h.typed ty bytes
  have hexact := h.exact ty bytes
  have hd := r.types.distinct
  have hd' := List.nodup_reverse.2 hd
  simp only [List.reverse_cons, List.reverse_nil, List.nil_append, List.cons_append, List.nodup_cons, List.mem_cons,
    List.not_mem_nil, or_false, not_or] at hd hd'
  unfold dataJson at hdata
  cases hdec : r.decode ty bytes with
  | sz s =>
    rw [hdec] at htyped hexact hdata
    cases hdata
    rw [← hexact id, ← htyped]
    simp [fromJson, Data.type, jsonString, Json.asStr, pure, bind, Except.pure, Except.bind]
  | expandSz s =>
    rw [hdec] at htyped hexact hdata
    cases hdata
    rw [← hexact id, ← htyped]
    simp [fromJson, Data.type, jsonString, Json.asStr, pure, bind, Except.pure, Except.bind, hd']
  | link s =>
    rw [hdec] at htyped hexact hdata
    cases hdata
    rw [← hexact id, ← htyped]
    simp [fromJson, Data.type, jsonString, Json.asStr, pure, bind, Except.pure, Except.bind, hd']
  | dword n =>
    rw [hdec] at htyped hexact hdata
    cases hdata
    rw [← hexact id, ← htyped]
    simp [fromJson, Data.type, jsonSmall_toNat, pure, bind, Except.pure, Except.bind, hd, hd']
  | dwordBigEndian n =>
    rw [hdec] at htyped hexact hdata
    cases hdata
    rw [← hexact id, ← htyped]
    simp [fromJson, Data.type, jsonSmall_toNat, pure, bind, Except.pure, Except.bind, hd, hd']
  | qword n =>
    rw [hdec] at htyped hexact hdata
    cases hdata
    rw [← hexact id, ← htyped]
    simp [fromJson, Data.type, jsonNumber_of_lt _ n.toNat_lt, pure, bind, Except.pure, Except.bind, hd']
  | multiSz list =>
    rw [hdec] at htyped hexact hdata
    cases hdata
    rw [← hexact id, ← htyped]
    simp [fromJson, Data.type, Json.asArray, jsonStrings_map, pure, bind, Except.pure, Except.bind, hd, hd']
  | binary bytes =>
    rw [hdec] at htyped hexact hdata
    cases hdata
    rw [← hexact id, ← htyped]
    simp [fromJson, Data.type, jsonString, Json.asStr, unhex_hex, pure, bind, Except.pure, Except.bind, hd, hd']
  | none =>
    rw [hdec] at htyped hexact hdata
    cases hdata
    rw [← hexact id, ← htyped, h.empty]
    simp [fromJson, Data.type, hd]
  | raw ty' bytes' =>
    rw [hdec] at hdata
    cases hdata

/-! ## Entries -/

/-- What the name of a value is read back as. -/
def readBack (name : List UInt8) : List UInt8 :=
  let s := if name = [] then ['@'] else lossyList name
  if s = ['@'] then [] else Utf8.encode s

/-- Every entry is read back with its type and bytes. -/
theorem bytes_of {r : Registry} (h : r.Lawful) (name : List UInt8) (ty : UInt32) (bytes : List UInt8) :
    (ValueEntry.of r name ty bytes).bytes r = .ok (readBack name, ty, bytes) := by
  unfold ValueEntry.of
  cases hdata : dataJson r ty bytes with
  | some data =>
    simp only [ValueEntry.bytes, typeOf_keyword, fromJson_dataJson h hdata]
    rfl
  | none =>
    simp only [ValueEntry.bytes, typeOf_keyword, unhex_hex]
    rfl

theorem lossyList_encode (s : Str) : lossyList (Utf8.encode s) = s := lossyChars_encode s _ (le_refl _)

theorem readBack_eq_iff (name : List UInt8) :
    readBack name = name ↔ (∃ s : Str, Utf8.encode s = name) ∧ name ≠ Utf8.encode ['@'] := by
  unfold readBack
  by_cases hnil : name = []
  · subst hnil
    exact iff_of_true rfl ⟨⟨[], rfl⟩, by decide⟩
  · simp only [if_neg hnil]
    by_cases hat : lossyList name = ['@']
    · rw [if_pos hat]
      refine iff_of_false (Ne.symm hnil) ?_
      rintro ⟨⟨s, rfl⟩, hne⟩
      rw [lossyList_encode] at hat
      exact hne (hat ▸ rfl)
    · rw [if_neg hat]
      constructor
      · intro he
        refine ⟨⟨_, he⟩, ?_⟩
        rintro rfl
        exact hat (lossyList_encode _)
      · rintro ⟨⟨s, rfl⟩, _⟩
        rw [lossyList_encode]

/-- A value comes back as it was just where its name is UTF-8 and not `@`. -/
theorem survives_iff {r : Registry} (h : r.Lawful) (name : List UInt8) (ty : UInt32) (bytes : List UInt8) :
    (ValueEntry.of r name ty bytes).bytes r = .ok (name, ty, bytes) ↔
      (∃ s : Str, Utf8.encode s = name) ∧ name ≠ Utf8.encode ['@'] := by
  rw [bytes_of h, ← readBack_eq_iff]
  simp

/-! ## A registry -/

def someTypes : ValueTypes := ⟨0, 1, 2, 3, 4, 5, 6, 7, 11, 0xFFFFFFFF, by decide⟩

/-- Strings end in a NUL, link targets do not, lists end in one more. -/
def encodeData : Data → List UInt8
  | .sz s | .expandSz s => Utf8.encode s ++ [0]
  | .link s => Utf8.encode s
  | .dword n => ByteStore.leBytes 4 n.toNat
  | .dwordBigEndian n => (ByteStore.leBytes 4 n.toNat).reverse
  | .qword n => ByteStore.leBytes 8 n.toNat
  | .multiSz list => list.flatMap (fun s => Utf8.encode s ++ [0]) ++ [0]
  | .binary bytes => bytes
  | .none => []
  | .raw _ bytes => bytes

def readData (ty : UInt32) (bytes : List UInt8) : Data :=
  if ty = someTypes.none then .none
  else if ty = someTypes.sz then .sz (lossyList bytes.dropLast)
  else if ty = someTypes.expandSz then .expandSz (lossyList bytes.dropLast)
  else if ty = someTypes.binary then .binary bytes
  else if ty = someTypes.dword then .dword (UInt32.ofNat (ByteStore.leNat bytes))
  else if ty = someTypes.dwordBigEndian then .dwordBigEndian (UInt32.ofNat (ByteStore.leNat bytes.reverse))
  else if ty = someTypes.link then .link (lossyList bytes)
  else if ty = someTypes.multiSz then .multiSz ((bytes.splitOn 0).dropLast.dropLast.map lossyList)
  else if ty = someTypes.qword then .qword (UInt64.ofNat (ByteStore.leNat bytes))
  else .raw ty bytes

/-- What is not exact as its type is left raw. -/
def someRegistry : Registry where
  types := someTypes
  decode ty bytes :=
    let data := readData ty bytes
    if encodeData data = bytes ∧ data.type someTypes = ty then data else .raw ty bytes
  encode := encodeData

theorem someRegistry_lawful : someRegistry.Lawful where
  typed ty bytes := by
    simp only [someRegistry]
    split
    · rename_i h
      exact h.2
    · rfl
  exact ty bytes hraw := by
    simp only [someRegistry] at hraw ⊢
    split
    · rename_i h
      exact h.1
    · rename_i h
      rw [if_neg h] at hraw
      exact absurd trivial hraw
  empty := rfl

theorem survives_dark : (ValueEntry.of someRegistry (Utf8.encode ['V']) 1 (Utf8.encode "dark".toList ++ [0])).bytes
    someRegistry = .ok (Utf8.encode ['V'], 1, Utf8.encode "dark".toList ++ [0]) :=
  (survives_iff someRegistry_lawful _ _ _).2 ⟨⟨['V'], rfl⟩, by decide⟩

/-- A value whose name is `@` comes back as the default value. -/
theorem named_at_lost : ¬ ∀ (r : Registry), r.Lawful → ∀ (name : List UInt8) (ty : UInt32) (bytes : List UInt8),
    ty ≠ r.types.tombstone → (ValueEntry.of r name ty bytes).bytes r = .ok (name, ty, bytes) := by
  intro h
  have := h someRegistry someRegistry_lawful (Utf8.encode ['@']) 3 [] (by decide)
  revert this
  decide +kernel

end Peiosutils.RegDocs
