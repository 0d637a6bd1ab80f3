import Mathlib.Algebra.GroupWithZero.Nat
import Mathlib.Data.List.DropRight
import Peiosutils.Lib.Fallible
import Peiosutils.Lib.Numeral
import Peiosutils.Regman.Corpus

/-!
# The `-o` option language (`mount/src/options.rs`)

A list of options is split into tokens at commas, where double quotes protect a comma, and a token at its first `=`. Each
token goes to one of the categories: attributes of the mount, flags of the superblock, userspace options, the policy,
`X-mount.` options, and, where no category claims it, parameters of the file system.
-/

set_option autoImplicit false

namespace Peiosutils.Mount

open Regman (Str trim fromUtf8)
open Utf8 (lossyList encode)

/-! ## Errors -/

/-- An error of the system: its number, where it has one, and the kernel's explanation. -/
structure OsError where
  code : Option Nat
  detail : Str := []
  deriving DecidableEq, Repr

inductive MountError where
  | usage (msg : Str)
  | permission (stage : String) (source : OsError)
  | unimplemented (what : Str)
  | mount (stage : String) (source : OsError)
  | system (msg : Str)
  | helper (msg : Str)
  | bug (msg : Str)
  | interrupted
  | partialFailure (msg : Str)
  | notMounted (msg : Str)
  deriving DecidableEq, Repr

def MountError.exitCode : MountError → Nat
  | usage _ | permission _ _ | unimplemented _ => 1
  | system _ => 2
  | bug _ => 4
  | interrupted => 8
  | mount _ _ | notMounted _ => 32
  | partialFailure _ => 64
  | helper _ => 126

def EPERM : Nat := 1

def EACCES : Nat := 13

def EROFS : Nat := 30

/-- A denied syscall is a matter of permissions, any other failure one of the mount. -/
def MountError.fromSyscall (stage : String) (source : OsError) : MountError :=
  if source.code = some EPERM ∨ source.code = some EACCES then .permission stage source else .mount stage source

def usage {α : Type} (msg : Str) : Except MountError α := .error (.usage msg)

/-! ## Tokens -/

abbrev Bytes := List UInt8

/-- A key, and a value where it has one. -/
abbrev Token := Bytes × Option Bytes

/-- Without the white space around it. -/
def trimBytes (b : Bytes) : Bytes := (b.dropWhile Ascii.isWhitespace).rdropWhile Ascii.isWhitespace

/-- The token of a piece between commas, if there is one. -/
def pushToken (tok : Bytes) : List Token :=
  let tok := trimBytes tok
  if tok = [] then []
  else if tok.contains 61 then [(tok.takeWhile (· ≠ 61), some ((tok.dropWhile (· ≠ 61)).drop 1))]
  else [(tok, none)]

/-- What is left of a list, behind `cur`. -/
def tokenizeFrom (cur : Bytes) (inQuotes : Bool) : Bytes → List Token
  | [] => pushToken cur
  | b :: bs =>
    -- the quotes themselves are dropped
    if b = 34 then tokenizeFrom cur (!inQuotes) bs
    else if b = 44 ∧ inQuotes = false then pushToken cur ++ tokenizeFrom [] inQuotes bs
    else tokenizeFrom (cur ++ [b]) inQuotes bs

def tokenize (spec : Bytes) : List Token := tokenizeFrom [] false spec

/-! ## Parsed options -/

abbrev Mask := BitVec 64

def MOUNT_ATTR_RDONLY : Mask := 0x1
def MOUNT_ATTR_NOSUID : Mask := 0x2
def MOUNT_ATTR_NODEV : Mask := 0x4
def MOUNT_ATTR_NOEXEC : Mask := 0x8
def MOUNT_ATTR_ATIME : Mask := 0x70
def MOUNT_ATTR_RELATIME : Mask := 0x0
def MOUNT_ATTR_NOATIME : Mask := 0x10
def MOUNT_ATTR_STRICTATIME : Mask := 0x20
def MOUNT_ATTR_NODIRATIME : Mask := 0x80
def MOUNT_ATTR_NOSYMFOLLOW : Mask := 0x200000

inductive SbFlag where
  | synchronous
  | dirsync
  | lazytime
  | iversion
  | silent
  deriving DecidableEq, Repr

inductive PropKind where
  | shared
  | slave
  | priv
  | unbindable
  deriving DecidableEq, Repr

structure PropChange where
  kind : PropKind
  recursive : Bool
  deriving DecidableEq, Repr

inductive PolicyKind where
  | denyMissing
  | synthEphemeral
  | synthPersist
  deriving DecidableEq, Repr

inductive LoopRequest where
  | auto
  | device (dev : Bytes)
  deriving DecidableEq, Repr

inductive RoScope where
  | vfs
  | fs
  | recursive
  deriving DecidableEq, Repr

structure ParsedOptions where
  attrSet : Mask := 0
  attrClr : Mask := 0
  recursiveAttr : Bool := false
  sbRdonly : Option Bool := none
  sbFlags : List (SbFlag × Bool) := []
  fsParams : List Token := []
  metaBind : Bool := false
  metaRbind : Bool := false
  metaMove : Bool := false
  metaRemount : Bool := false
  loopRequest : Option LoopRequest := none
  offset : Option Nat := none
  sizelimit : Option Nat := none
  propagation : List PropChange := []
  policy : Option PolicyKind := none
  mkdir : Option Nat := none
  subdir : Option Bytes := none
  noloop : Bool := false
  autoFstypes : Option Bytes := none
  nocanonSource : Bool := false
  nocanonTarget : Bool := false
  notes : List Str := []
  explicitRw : Bool := false
  explicitRo : Bool := false
  atimeMode : Option Mask := none
  deriving DecidableEq, Repr

/-! ## Values -/

def parsePolicy (v : Bytes) : Except MountError PolicyKind :=
  if v = encode "deny-missing".toList then .ok .denyMissing
  else if v = encode "synth-ephemeral".toList then .ok .synthEphemeral
  else if v = encode "synth-persist".toList then .ok .synthPersist
  else if v = encode "unmanaged".toList then usage "policy=unmanaged is not user-settable".toList
  else usage ("unknown mount policy: ".toList ++ lossyList v ++
    " (expected deny-missing|synth-ephemeral|synth-persist)".toList)

/-- The units of a size. -/
def units : List (Str × Nat) :=
  [("KiB".toList, 2 ^ 10), ("MiB".toList, 2 ^ 20), ("GiB".toList, 2 ^ 30), ("TiB".toList, 2 ^ 40), ("KB".toList, 1000),
    ("MB".toList, 1000000), ("GB".toList, 1000000000), ("TB".toList, 1000000000000), ("K".toList, 2 ^ 10),
    ("M".toList, 2 ^ 20), ("G".toList, 2 ^ 30), ("T".toList, 2 ^ 40)]

/-- A number in front of the first unit that it ends in. -/
def splitSuffix (s : Str) : Str × Nat :=
  match units.find? fun unit => unit.1.isSuffixOf s with
  | some (suffix, mult) => (trim (s.take (s.length - suffix.length)), mult)
  | none => (s, 1)

def parseU64 (name : Str) (value : Option Bytes) : Except MountError Nat :=
  match value with
  | none => usage (name ++ "= requires a value".toList)
  | some v =>
    match fromUtf8 v with
    | none => usage (name ++ ": not a number".toList)
    | some s =>
      let s := trim s
      let (num, mult) := splitSuffix s
      match Numeral.parseUnsigned (2 ^ 64 - 1) (encode num) with
      | none => usage (name ++ ": not a number: ".toList ++ s)
      | some base =>
        if base * mult < 2 ^ 64 then .ok (base * mult) else usage (name ++ ": value overflow: ".toList ++ s)

/-- `s.trim_start_matches("0o")`. -/
def trimOctal : Str → Str
  | '0' :: 'o' :: s => trimOctal s
  | s => s

def parseMode (value : Option Bytes) : Except MountError Nat :=
  match value with
  | none => .ok 0o755
  | some v =>
    match fromUtf8 v with
    | none => usage "mkdir mode: not a number".toList
    | some s =>
      match Numeral.parseOctal (2 ^ 32 - 1) (encode (trim (trimOctal s))) with
      | none => usage ("mkdir mode: invalid octal: ".toList ++ s)
      | some mode => .ok mode

/-! ## Categories -/

/-- A bit that is set is not cleared, and the other way round. -/
def setOrClr (o : ParsedOptions) (bit : Mask) (set : Bool) : ParsedOptions :=
  if set then { o with attrSet := o.attrSet ||| bit, attrClr := o.attrClr &&& ~~~bit }
  else { o with attrClr := o.attrClr ||| bit, attrSet := o.attrSet &&& ~~~bit }

def roScope (value : Option Bytes) : Except MountError RoScope :=
  match value with
  | none => .ok .vfs
  | some v =>
    if v = encode "vfs".toList then .ok .vfs
    else if v = encode "fs".toList then .ok .fs
    else if v = encode "recursive".toList then .ok .recursive
    else usage ("invalid read-only scope: ".toList ++ lossyList v)

def applyRoRw (o : ParsedOptions) (ro : Bool) (value : Option Bytes) : Except MountError ParsedOptions := do
  match ← roScope value with
  | .fs => return { o with sbRdonly := some ro }
  | .recursive => return setOrClr { o with recursiveAttr := true } MOUNT_ATTR_RDONLY ro
  | .vfs => return setOrClr o MOUNT_ATTR_RDONLY ro

/-- The names of the simple attributes, with the bit and whether it is set. -/
def attrNames : List (Str × Mask × Bool) :=
  [("nosuid".toList, MOUNT_ATTR_NOSUID, true), ("suid".toList, MOUNT_ATTR_NOSUID, false),
    ("nodev".toList, MOUNT_ATTR_NODEV, true), ("dev".toList, MOUNT_ATTR_NODEV, false),
    ("noexec".toList, MOUNT_ATTR_NOEXEC, true), ("exec".toList, MOUNT_ATTR_NOEXEC, false),
    ("nodiratime".toList, MOUNT_ATTR_NODIRATIME, true), ("diratime".toList, MOUNT_ATTR_NODIRATIME, false),
    ("nosymfollow".toList, MOUNT_ATTR_NOSYMFOLLOW, true)]

/-- The names of the modes of access times. -/
def atimeNames : List (Str × Mask) :=
  [("noatime".toList, MOUNT_ATTR_NOATIME), ("atime".toList, MOUNT_ATTR_RELATIME), ("relatime".toList, MOUNT_ATTR_RELATIME),
    ("norelatime".toList, MOUNT_ATTR_STRICTATIME), ("strictatime".toList, MOUNT_ATTR_STRICTATIME),
    ("nostrictatime".toList, MOUNT_ATTR_RELATIME)]

def tryAttr (o : ParsedOptions) (name : Str) : Option ParsedOptions :=
  match attrNames.lookup name with
  | some (bit, set) => some (setOrClr o bit set)
  | none =>
    match atimeNames.lookup name with
    | some mode => some { o with atimeMode := some mode }
    | none => none

def sbNames : List (Str × SbFlag × Bool) :=
  [("sync".toList, .synchronous, true), ("async".toList, .synchronous, false), ("dirsync".toList, .dirsync, true),
    ("lazytime".toList, .lazytime, true), ("nolazytime".toList, .lazytime, false), ("iversion".toList, .iversion, true),
    ("noiversion".toList, .iversion, false), ("silent".toList, .silent, true), ("loud".toList, .silent, false)]

def trySbFlag (o : ParsedOptions) (name : Str) : Option ParsedOptions :=
  match sbNames.lookup name with
  | some flag => some { o with sbFlags := o.sbFlags ++ [flag] }
  | none =>
    if name = "mand".toList ∨ name = "nomand".toList then
      some { o with notes := o.notes ++
        ["option '".toList ++ name ++ "' is obsolete (removed from the kernel) — ignored".toList] }
    else none

def propNames : List (Str × PropChange) :=
  [("shared".toList, ⟨.shared, false⟩), ("slave".toList, ⟨.slave, false⟩), ("private".toList, ⟨.priv, false⟩),
    ("unbindable".toList, ⟨.unbindable, false⟩), ("rshared".toList, ⟨.shared, true⟩), ("rslave".toList, ⟨.slave, true⟩),
    ("rprivate".toList, ⟨.priv, true⟩), ("runbindable".toList, ⟨.unbindable, true⟩)]

/-- None where the name is none of this category. -/
def tryUserspace (o : ParsedOptions) (name : Str) (value : Option Bytes) : Except MountError (Option ParsedOptions) :=
  if name = "bind".toList then .ok (some { o with metaBind := true })
  else if name = "rbind".toList then .ok (some { o with metaRbind := true })
  else if name = "move".toList then .ok (some { o with metaMove := true })
  else if name = "remount".toList then .ok (some { o with metaRemount := true })
  else if name = "loop".toList then
    let request := match value with
      | some dev => LoopRequest.device dev
      | none => .auto
    .ok (some { o with loopRequest := some request })
  else if name = "offset".toList then do
    let n ← parseU64 name value
    return some { o with offset := some n }
  else if name = "sizelimit".toList then do
    let n ← parseU64 name value
    return some { o with sizelimit := some n }
  else
    match propNames.lookup name with
    | some change => .ok (some { o with propagation := o.propagation ++ [change] })
    | none => .ok none

/-- The options behind `X-mount.`. -/
def applyXmount (o : ParsedOptions) (rest : Str) (value : Option Bytes) : Except MountError ParsedOptions :=
  if rest = "mkdir".toList then do
    let mode ← parseMode value
    return { o with mkdir := some mode }
  else if rest = "subdir".toList then
    match value with
    | some dir => .ok { o with subdir := some dir }
    | none => usage "X-mount.subdir requires a directory".toList
  else if rest = "noloop".toList then .ok { o with noloop := true }
  else if rest = "auto-fstypes".toList then
    match value with
    | some list => .ok { o with autoFstypes := some list }
    | none => usage "X-mount.auto-fstypes requires a list".toList
  else if rest = "nocanonicalize".toList then
    match value with
    | none => .ok { o with nocanonSource := true, nocanonTarget := true }
    | some v =>
      if v = encode "source".toList then .ok { o with nocanonSource := true }
      else if v = encode "target".toList then .ok { o with nocanonTarget := true }
      else usage ("X-mount.nocanonicalize: expected 'source' or 'target', got ".toList ++ lossyList v)
  else if rest = "idmap".toList then
    usage
      "X-mount.idmap is not supported on peios — add a SID/ACE to the security descriptor instead".toList
  else if rest = "owner".toList ∨ rest = "group".toList ∨ rest = "mode".toList then
    usage ("X-mount.".toList ++ rest ++
      " is not supported on peios — ownership is SID/SD-based, not POSIX uid/gid/mode".toList)
  else usage ("unknown X-mount option: X-mount.".toList ++ rest)

/-- The key as text, with bytes that are no UTF-8 replaced. -/
def nameOf (token : Token) : Str := lossyList token.1

/-- A token other than `defaults`. -/
def applyToken (o : ParsedOptions) (token : Token) : Except MountError ParsedOptions :=
  let name := nameOf token
  if name = "ro".toList ∨ name = "rw".toList then applyRoRw o (name = "ro".toList) token.2
  else
    match tryAttr o name with
    | some o => .ok o
    | none =>
      match trySbFlag o name with
      | some o => .ok o
      | none => do
        match ← tryUserspace o name token.2 with
        | some o => return o
        | none =>
          if name = "policy".toList then
            match token.2 with
            | none => usage "policy= requires a value".toList
            | some v => do
              let policy ← parsePolicy v
              return { o with policy := some policy }
          else if "X-mount.".toList.isPrefixOf name then applyXmount o (name.drop 8) token.2
          else return { o with fsParams := o.fsParams ++ [token] }

/-- What `defaults` stands for. -/
def defaults : List Token := ["rw", "suid", "dev", "exec", "async"].map fun s : String => (encode s.toList, none)

def applyOne (o : ParsedOptions) (token : Token) : Except MountError ParsedOptions :=
  if nameOf token = "defaults".toList then defaults.foldlM applyToken o else applyToken o token

/-- The mode of access times replaces what the masks have of them. -/
def finishAtime (o : ParsedOptions) : ParsedOptions :=
  match o.atimeMode with
  | some mode =>
    { o with attrClr := o.attrClr ||| MOUNT_ATTR_ATIME, attrSet := (o.attrSet &&& ~~~MOUNT_ATTR_ATIME) ||| mode }
  | none => o

/-- `ParsedOptions::parse`. -/
def parse (spec : Bytes) : Except MountError ParsedOptions := do
  let tokens := tokenize spec
  let o : ParsedOptions := {
    explicitRw := tokens.any fun t => t.1 = encode "rw".toList
    explicitRo := tokens.any fun t => t.1 = encode "ro".toList }
  let o ← tokens.foldlM applyOne o
  return finishAtime o

/-- `fsmount_attr_flags`: the lower half of the attributes that are set. -/
def ParsedOptions.fsmountAttrFlags (o : ParsedOptions) : BitVec 32 := o.attrSet.setWidth 32

def ParsedOptions.touchesSuperblock (o : ParsedOptions) : Bool :=
  !o.sbFlags.isEmpty || o.sbRdonly.isSome || !o.fsParams.isEmpty

end Peiosutils.Mount

/-!
# Quoted values in a list of options

Pairs of a key and a quoted value are joined with commas and split again. Quotes protect the commas of a value, but the
token is trimmed when they are gone already, so that the white space at the end of a value is lost
(`tokenize_render`) and exactly the lists without such values are read back (`tokenize_render_iff`).
-/

namespace Peiosutils.Mount

/-- Not empty, and without `=`, `,`, quotes and white space. -/
def PlainKey (key : Bytes) : Prop :=
  key ≠ [] ∧ ∀ b ∈ key, b ≠ 61 ∧ b ≠ 44 ∧ b ≠ 34 ∧ Ascii.isWhitespace b = false

/-- `key="value"`. -/
def quoted (kv : Bytes × Bytes) : Bytes := kv.1 ++ 61 :: 34 :: (kv.2 ++ [34])

def render (pairs : List (Bytes × Bytes)) : Bytes := [44].intercalate (pairs.map quoted)

/-- Without the white space at the end. -/
def trimRight (value : Bytes) : Bytes := value.rdropWhile Ascii.isWhitespace

theorem trimRight_eq_self_iff {value : Bytes} :
    trimRight value = value ↔ ∀ b, value.getLast? = some b → Ascii.isWhitespace b = false := by
  rw [trimRight, List.rdropWhile_eq_self_iff]
  constructor
  · intro h b hb
    have hne : value ≠ [] := by
      rintro rfl
      cases hb
    rw [List.getLast?_eq_some_getLast hne] at hb
    cases hb
    exact Bool.eq_false_iff.2 (h hne)
  · intro h hne
    rw [h _ (List.getLast?_eq_some_getLast hne)]
    exact Bool.false_ne_true

/-! ## One piece -/

theorem rdropWhile_append_cons {α : Type} {p : α → Bool} {a : α} (ha : p a = false) (xs ys : List α) :
    (xs ++ a :: ys).rdropWhile p = xs ++ a :: ys.rdropWhile p := by
  induction ys using List.reverseRecOn with
  | nil => rw [List.rdropWhile_nil, List.rdropWhile_concat_neg _ _ _ (by simp [ha])]
  | append_singleton ys y ih =>
    rw [show xs ++ a :: (ys ++ [y]) = (xs ++ a :: ys) ++ [y] by simp, List.rdropWhile_concat, List.rdropWhile_concat, ih]
    split
    · rfl
    · simp

/-- The token of a key and a value. -/
theorem pushToken_pair {key : Bytes} (hkey : PlainKey key) (value : Bytes) :
    pushToken (key ++ 61 :: value) = [(key, some (trimRight value))] := by
  obtain ⟨hne, hplain⟩ := hkey
  obtain ⟨k, ks, rfl⟩ := List.exists_cons_of_ne_nil hne
  have hnoeq : ∀ b ∈ k :: ks, decide (b ≠ 61) = true := fun b hb => decide_eq_true (hplain b hb).1
  have htrim : trimBytes (k :: ks ++ 61 :: value) = k :: ks ++ 61 :: trimRight value := by
    rw [trimBytes, List.cons_append, List.dropWhile_cons_of_neg (by rw [(hplain k List.mem_cons_self).2.2.2]; decide),
      ← List.cons_append, rdropWhile_append_cons (by decide), trimRight]
  rw [pushToken]
  simp only [htrim]
  rw [if_neg (by simp), if_pos (by simp), List.takeWhile_append_of_pos hnoeq, List.dropWhile_append_of_pos hnoeq]
  simp

/-! ## The list -/

/-- Bytes that stand for themselves. -/
theorem tokenizeFrom_append {inQuotes : Bool} {bs : Bytes} (h : ∀ b ∈ bs, b ≠ 34 ∧ (b = 44 → inQuotes = true))
    (cur rest : Bytes) : tokenizeFrom cur inQuotes (bs ++ rest) = tokenizeFrom (cur ++ bs) inQuotes rest := by
  induction bs generalizing cur with
  | nil => simp
  | cons b bs ih =>
    obtain ⟨hquote, hcomma⟩ := h b List.mem_cons_self
    have hstay : ¬ (b = 44 ∧ inQuotes = false) := fun hb => by simp [hcomma hb.1] at hb
    rw [List.cons_append, tokenizeFrom, if_neg hquote, if_neg hstay, ih fun c hc => h c (List.mem_cons_of_mem b hc)]
    simp

theorem tokenizeFrom_quoted {kv : Bytes × Bytes} (hkey : PlainKey kv.1) (hvalue : 34 ∉ kv.2) (rest : Bytes) :
    tokenizeFrom [] false (quoted kv ++ rest) = tokenizeFrom (kv.1 ++ 61 :: kv.2) false rest := by
  have hfirst : ∀ b ∈ kv.1 ++ [61], b ≠ 34 ∧ (b = 44 → false = true) := by
    intro b hb
    rcases List.mem_append.1 hb with hb | hb
    · exact ⟨(hkey.2 b hb).2.2.1, fun h => absurd h (hkey.2 b hb).2.1⟩
    · rw [List.mem_singleton.1 hb]
      decide
  have hsecond : ∀ b ∈ kv.2, b ≠ 34 ∧ (b = 44 → true = true) := fun b hb => ⟨fun h => hvalue (h ▸ hb), fun _ => rfl⟩
  have hshape : quoted kv ++ rest = (kv.1 ++ [61]) ++ 34 :: (kv.2 ++ 34 :: rest) := by simp [quoted]
  rw [hshape, tokenizeFrom_append hfirst, tokenizeFrom, if_pos rfl, Bool.not_false, tokenizeFrom_append hsecond,
    tokenizeFrom, if_pos rfl]
  simp

/-- **Every pair comes back, without the white space at the end of its value.** -/
theorem tokenize_render (pairs : List (Bytes × Bytes)) (hkeys : ∀ kv ∈ pairs, PlainKey kv.1)
    (hvalues : ∀ kv ∈ pairs, 34 ∉ kv.2) :
    tokenize (render pairs) = pairs.map fun kv => (kv.1, some (trimRight kv.2)) := by
  induction pairs with
  | nil => rfl
  | cons kv pairs ih =>
    have hkey := hkeys kv List.mem_cons_self
    have hvalue := hvalues kv List.mem_cons_self
    have hrest := ih (fun kv' h => hkeys kv' (List.mem_cons_of_mem kv h)) fun kv' h => hvalues kv' (List.mem_cons_of_mem kv h)
    cases pairs with
    | nil =>
      have hone := tokenizeFrom_quoted hkey hvalue []
      rw [List.append_nil] at hone
      rw [tokenize, render, List.map_singleton, List.intercalate_singleton, hone, tokenizeFrom, pushToken_pair hkey]
      rfl
    | cons kv' pairs =>
      have hjoin : render (kv :: kv' :: pairs) = quoted kv ++ 44 :: render (kv' :: pairs) := by
        simp [render, List.intercalate]
      rw [tokenize, hjoin, tokenizeFrom_quoted hkey hvalue, tokenizeFrom, if_neg (by decide), if_pos (by decide),
        pushToken_pair hkey, ← tokenize, hrest]
      rfl

/-- **Which lists of pairs are read back.** -/
theorem tokenize_render_iff (pairs : List (Bytes × Bytes)) (hkeys : ∀ kv ∈ pairs, PlainKey kv.1)
    (hvalues : ∀ kv ∈ pairs, 34 ∉ kv.2) :
    tokenize (render pairs) = pairs.map (fun kv => (kv.1, some kv.2)) ↔
      ∀ kv ∈ pairs, ∀ b, kv.2.getLast? = some b → Ascii.isWhitespace b = false := by
  rw [tokenize_render pairs hkeys hvalues, List.map_inj_left]
  refine forall₂_congr fun kv _ => ?_
  rw [← trimRight_eq_self_iff]
  simp

theorem plainKey_l : PlainKey [108] := by
  simp [PlainKey, Ascii.isWhitespace]

/-- `l="/a,b"`. -/
theorem tokenize_render_iff_comma : tokenize (render [([108], [47, 97, 44, 98])]) = [([108], some [47, 97, 44, 98])] := by
  refine (tokenize_render_iff [([108], [47, 97, 44, 98])] ?_ ?_).2 ?_
  · intro kv hkv
    rw [List.mem_singleton.1 hkv]
    exact plainKey_l
  · simp
  · simp [Ascii.isWhitespace]

/-- The space at the end of a path. -/
theorem tokenize_loses_space : ¬ ∀ pairs : List (Bytes × Bytes), (∀ kv ∈ pairs, PlainKey kv.1) → (∀ kv ∈ pairs, 34 ∉ kv.2) →
    tokenize (render pairs) = pairs.map fun kv => (kv.1, some kv.2) := by
  intro h
  have hread := h [([108], [47, 97, 32])] (fun kv hkv => by rw [List.mem_singleton.1 hkv]; exact plainKey_l) (by simp)
  revert hread
  decide +kernel

end Peiosutils.Mount
