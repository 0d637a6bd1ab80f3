import Peiosutils.Lib.Masks
import Peiosutils.Mount.Options

/-!
# What a list of options asks for

Of the tokens of a list, with `defaults` replaced by what it stands for, the last one that names an attribute decides about
it, the last one that names a mode of access times decides about the mode, and those that no category claims are the
parameters of the file system, in their order (`parse_spec`).
-/

set_option autoImplicit false

namespace Peiosutils.Mount

open Regman (Str)
open Utf8 (encode)

/-! ## What a token names -/

/-- The tokens, with those that `defaults` stands for. -/
def expand (ts : List Token) : List Token := ts.flatMap fun t => if nameOf t = "defaults".toList then defaults else [t]

/-- The attribute a token names, and whether it is set; `ro` and `rw` of the superblock name none. -/
def attrOf (t : Token) : Option (Mask × Bool) :=
  if nameOf t = "ro".toList ∨ nameOf t = "rw".toList then
    if t.2 = some (encode "fs".toList) then none else some (MOUNT_ATTR_RDONLY, nameOf t = "ro".toList)
  else attrNames.lookup (nameOf t)

/-- The mode of access times a token names. -/
def atimeOf (t : Token) : Option Mask := atimeNames.lookup (nameOf t)

def attrWords : List Str := attrNames.map Prod.fst ++ atimeNames.map Prod.fst

def sbWords : List Str := sbNames.map Prod.fst ++ ["mand".toList, "nomand".toList]

def userspaceWords : List Str :=
  ["bind".toList, "rbind".toList, "move".toList, "remount".toList, "loop".toList, "offset".toList, "sizelimit".toList] ++
    propNames.map Prod.fst

/-- A category claims the name. -/
def Claimed (t : Token) : Bool :=
  nameOf t = "ro".toList || nameOf t = "rw".toList || attrWords.contains (nameOf t) || sbWords.contains (nameOf t) ||
    userspaceWords.contains (nameOf t) || nameOf t = "policy".toList || "X-mount.".toList.isPrefixOf (nameOf t)

/-! ## One token -/

/-- What the claims are about: the masks, the mode of access times and the parameters. -/
structure Core where
  masks : Masks 64
  atime : Option Mask
  params : List Token

def coreOf (o : ParsedOptions) : Core := ⟨⟨o.attrSet, o.attrClr⟩, o.atimeMode, o.fsParams⟩

def Core.step (c : Core) (t : Token) : Core where
  masks := c.masks.puts (attrOf t).toList
  atime := (atimeOf t).or c.atime
  params := c.params ++ if Claimed t then [] else [t]

theorem mem_of_lookup {α β : Type} [BEq α] [LawfulBEq α] {a : α} {b : β} :
    ∀ {l : List (α × β)}, l.lookup a = some b → a ∈ l.map Prod.fst
  | [], h => by cases h
  | (a', b') :: l, h => by
    rw [List.lookup_cons] at h
    split at h
    · rename_i heq
      rw [eq_of_beq heq]
      exact List.mem_cons_self
    · exact List.mem_cons_of_mem _ (mem_of_lookup h)

theorem not_mem_of_lookup {α β : Type} [BEq α] [LawfulBEq α] {a : α} :
    ∀ {l : List (α × β)}, l.lookup a = none → a ∉ l.map Prod.fst
  | [], _ => List.not_mem_nil
  | (a', b') :: l, h => by
    rw [List.lookup_cons] at h
    split at h
    · cases h
    · rename_i hne
      rw [List.map_cons, List.mem_cons, not_or]
      exact ⟨fun heq => by simp [heq] at hne, not_mem_of_lookup h⟩

theorem coreOf_setOrClr (o : ParsedOptions) (bit : Mask) (set : Bool) :
    coreOf (setOrClr o bit set) = { coreOf o with masks := (coreOf o).masks.put bit set } := by
  cases set <;> rfl

/-- Another category than the attributes does not touch the masks. -/
theorem coreOf_trySbFlag {o o' : ParsedOptions} {name : Str} (h : trySbFlag o name = some o') :
    coreOf o' = coreOf o ∧ name ∈ sbWords := by
  unfold trySbFlag at h
  split at h
  · rename_i hlookup
    cases h
    exact ⟨rfl, List.mem_append_left _ (mem_of_lookup hlookup)⟩
  · split at h
    · rename_i hname
      cases h
      refine ⟨rfl, List.mem_append_right _ ?_⟩
      simpa using hname
    · cases h

theorem not_mem_sbWords {o : ParsedOptions} {name : Str} (h : trySbFlag o name = none) : name ∉ sbWords := by
  unfold trySbFlag at h
  split at h
  · cases h
  · rename_i hlookup
    split at h
    · cases h
    · rename_i hname
      rw [sbWords, List.mem_append, not_or]
      exact ⟨not_mem_of_lookup hlookup, by simpa using hname⟩

theorem tryUserspace_ok {o : ParsedOptions} {name : Str} {value : Option Bytes} {r : Option ParsedOptions}
    (h : tryUserspace o name value = .ok r) :
    (∃ o', r = some o' ∧ coreOf o' = coreOf o ∧ name ∈ userspaceWords) ∨ (r = none ∧ name ∉ userspaceWords) := by
  have hword : ∀ {word : Str}, name = word → word ∈ userspaceWords → name ∈ userspaceWords := fun h hw => h ▸ hw
  unfold tryUserspace at h
  split at h
  · rename_i hname
    cases h
    exact .inl ⟨_, rfl, rfl, hword hname (by decide)⟩
  split at h
  · rename_i hname
    cases h
    exact .inl ⟨_, rfl, rfl, hword hname (by decide)⟩
  split at h
  · rename_i hname
    cases h
    exact .inl ⟨_, rfl, rfl, hword hname (by decide)⟩
  split at h
  · rename_i hname
    cases h
    exact .inl ⟨_, rfl, rfl, hword hname (by decide)⟩
  split at h
  · rename_i hname
    cases h
    exact .inl ⟨_, rfl, rfl, hword hname (by decide)⟩
  split at h
  · rename_i hname
    obtain ⟨n, -, h⟩ := Fallible.bind_eq_ok.1 h
    cases h
    exact .inl ⟨_, rfl, rfl, hword hname (by decide)⟩
  split at h
  · rename_i hname
    obtain ⟨n, -, h⟩ := Fallible.bind_eq_ok.1 h
    cases h
    exact .inl ⟨_, rfl, rfl, hword hname (by decide)⟩
  split at h
  · rename_i hlookup
    cases h
    exact .inl ⟨_, rfl, rfl, List.mem_append_right _ (mem_of_lookup hlookup)⟩
  · rename_i hlookup
    cases h
    refine .inr ⟨rfl, ?_⟩
    rw [userspaceWords, List.mem_append, not_or]
    exact ⟨by simp_all, not_mem_of_lookup hlookup⟩

theorem coreOf_applyXmount {o o' : ParsedOptions} {rest : Str} {value : Option Bytes}
    (h : applyXmount o rest value = .ok o') : coreOf o' = coreOf o := by
  unfold applyXmount usage at h
  split at h
  · obtain ⟨mode, -, h⟩ := Fallible.bind_eq_ok.1 h
    cases h
    rfl
  split at h
  · cases value <;> cases h
    rfl
  split at h
  · cases h
    rfl
  split at h
  · cases value <;> cases h
    rfl
  split at h
  · cases value with
    | none =>
      cases h
      rfl
    | some v =>
      simp only at h
      split at h
      · cases h
        rfl
      · split at h
        · cases h
          rfl
        · cases h
  split at h
  · cases h
  split at h
  · cases h
  · cases h

/-! ## Which category a name is of -/

theorem atime_of_attr {name : Str} (h : name ∈ attrNames.map Prod.fst) : atimeNames.lookup name = none := by
  revert name
  decide

theorem atime_ro : atimeNames.lookup "ro".toList = none ∧ atimeNames.lookup "rw".toList = none := by decide

/-- The core after a token that is claimed, by what it names. -/
theorem step_of_claimed {c : Core} {t : Token} (h : Claimed t = true) :
    c.step t = { c with masks := c.masks.puts (attrOf t).toList, atime := (atimeOf t).or c.atime } := by
  simp [Core.step, h]

theorem applyRoRw_core {o o' : ParsedOptions} {t : Token} (hname : nameOf t = "ro".toList ∨ nameOf t = "rw".toList)
    (h : applyRoRw o (nameOf t = "ro".toList) t.2 = .ok o') : coreOf o' = (coreOf o).step t := by
  have hclaimed : Claimed t = true := by
    rcases hname with h | h <;> simp [Claimed, h]
  have hatime : atimeOf t = none := by
    rcases hname with h | h
    · rw [atimeOf, h]
      exact atime_ro.1
    · rw [atimeOf, h]
      exact atime_ro.2
  rw [step_of_claimed hclaimed, hatime, attrOf, if_pos hname]
  obtain ⟨scope, hscope, h⟩ := Fallible.bind_eq_ok.1 h
  have hfs : t.2 = some (encode "fs".toList) ↔ scope = .fs := by
    revert hscope
    unfold roScope usage
    cases t.2 with
    | none =>
      intro heq
      cases heq
      decide
    | some v =>
      simp only
      intro heq
      split at heq
      · rename_i hv
        cases heq
        rw [hv]
        decide
      · split at heq
        · rename_i hv
          cases heq
          simp [hv]
        · split at heq
          · rename_i hv
            cases heq
            rw [hv]
            decide
          · cases heq
  cases scope with
  | fs =>
    cases h
    rw [if_pos (hfs.2 rfl)]
    rfl
  | recursive =>
    cases h
    rw [if_neg fun hv => nomatch hfs.1 hv]
    exact coreOf_setOrClr _ _ _
  | vfs =>
    cases h
    rw [if_neg fun hv => nomatch hfs.1 hv]
    exact coreOf_setOrClr _ _ _

/-- **What one token does.** -/
theorem applyToken_core {o o' : ParsedOptions} {t : Token} (h : applyToken o t = .ok o') :
    coreOf o' = (coreOf o).step t := by
  unfold applyToken at h
  simp only at h
  split at h
  · rename_i hname
    exact applyRoRw_core hname h
  rename_i hro
  have hattrOf : attrOf t = attrNames.lookup (nameOf t) := if_neg hro
  split at h
  · rename_i o₁ hattr
    cases h
    unfold tryAttr at hattr
    split at hattr
    · rename_i bit set hlookup
      cases hattr
      have hword := mem_of_lookup hlookup
      have hclaimed : Claimed t = true := by
        have : nameOf t ∈ attrWords := List.mem_append_left _ hword
        simp [Claimed, this]
      rw [step_of_claimed hclaimed, hattrOf, show attrNames.lookup (nameOf t) = some (bit, set) from hlookup, atimeOf,
        atime_of_attr hword, coreOf_setOrClr]
      rfl
    · rename_i hnone
      split at hattr
      · rename_i mode hlookup
        cases hattr
        have hclaimed : Claimed t = true := by
          have : nameOf t ∈ attrWords := List.mem_append_right _ (mem_of_lookup hlookup)
          simp [Claimed, this]
        rw [step_of_claimed hclaimed, hattrOf, show attrNames.lookup (nameOf t) = none from hnone, atimeOf,
          show atimeNames.lookup (nameOf t) = some mode from hlookup]
        rfl
      · cases hattr
  rename_i hattr
  have hnone : attrNames.lookup (nameOf t) = none ∧ atimeNames.lookup (nameOf t) = none := by
    unfold tryAttr at hattr
    split at hattr
    · cases hattr
    · rename_i hnone
      split at hattr
      · cases hattr
      · rename_i hnone'
        exact ⟨hnone, hnone'⟩
  -- from here on the token names neither an attribute nor a mode
  have hstep : (coreOf o).step t = { coreOf o with params := (coreOf o).params ++ if Claimed t then [] else [t] } := by
    simp only [Core.step, hattrOf, atimeOf, hnone, Option.toList_none, Masks.puts_nil, Option.none_or]
  have hkeep : Claimed t = true → (coreOf o).step t = coreOf o := fun hc => by simp [hstep, hc]
  split at h
  · rename_i o₁ hsb
    cases h
    obtain ⟨hcore, hword⟩ := coreOf_trySbFlag hsb
    rw [hcore, hkeep]
    have : nameOf t ∈ sbWords := hword
    simp [Claimed, this]
  rename_i hsb
  obtain ⟨r, huser, h⟩ := Fallible.bind_eq_ok.1 h
  rcases tryUserspace_ok huser with ⟨o₁, rfl, hcore, hword⟩ | ⟨rfl, hword⟩
  · cases h
    rw [hcore, hkeep]
    have : nameOf t ∈ userspaceWords := hword
    simp [Claimed, this]
  simp only at h
  split at h
  · rename_i hpolicy
    have hclaimed : Claimed t = true := by
      have : nameOf t = "policy".toList := hpolicy
      simp [Claimed, this]
    rw [hkeep hclaimed]
    split at h
    · cases h
    · obtain ⟨policy, -, h⟩ := Fallible.bind_eq_ok.1 h
      cases h
      rfl
  rename_i hpolicy
  split at h
  · rename_i hx
    rw [coreOf_applyXmount h, hkeep]
    rw [Claimed, hx, Bool.or_true]
  · rename_i hx
    cases h
    have hunclaimed : Claimed t = false := by
      have hsb' : sbWords.contains (nameOf t) = false := by
        simpa using not_mem_sbWords hsb
      have hattr' : attrWords.contains (nameOf t) = false := by
        have : nameOf t ∉ attrWords := by
          rw [attrWords, List.mem_append, not_or]
          exact ⟨not_mem_of_lookup hnone.1, not_mem_of_lookup hnone.2⟩
        simpa using this
      have huser' : userspaceWords.contains (nameOf t) = false := by
        simpa using hword
      have hro' : nameOf t ≠ "ro".toList ∧ nameOf t ≠ "rw".toList := not_or.1 hro
      have hpolicy' : nameOf t ≠ "policy".toList := hpolicy
      have hx' : "X-mount.".toList.isPrefixOf (nameOf t) = false := Bool.eq_false_iff.2 hx
      simp only [Claimed, hsb', hattr', huser', hro'.1, hro'.2, hpolicy', hx', decide_false, Bool.or_false]
    rw [hstep, hunclaimed]
    rfl

/-! ## All tokens -/

/-- What a list of tokens does. -/
def Core.steps (c : Core) (ts : List Token) : Core where
  masks := c.masks.puts (ts.filterMap attrOf)
  atime := (ts.filterMap atimeOf).getLast?.or c.atime
  params := c.params ++ ts.filter (!Claimed ·)

theorem steps_cons (c : Core) (t : Token) (ts : List Token) : c.steps (t :: ts) = (c.step t).steps ts := by
  have hmasks : c.masks.puts ((t :: ts).filterMap attrOf) = (c.masks.puts (attrOf t).toList).puts (ts.filterMap attrOf) := by
    rw [← Masks.puts_append, List.filterMap_cons]
    cases attrOf t <;> rfl
  have hatime : ((t :: ts).filterMap atimeOf).getLast?.or c.atime =
      (ts.filterMap atimeOf).getLast?.or ((atimeOf t).or c.atime) := by
    rw [List.filterMap_cons]
    cases atimeOf t with
    | none => simp
    | some mode => cases h : (ts.filterMap atimeOf).getLast? <;> simp [List.getLast?_cons, h]
  have hparams : c.params ++ (t :: ts).filter (!Claimed ·) =
      (c.params ++ if Claimed t then [] else [t]) ++ ts.filter (!Claimed ·) := by
    rw [List.filter_cons]
    cases Claimed t <;> simp
  simp only [Core.steps, Core.step, hmasks, hatime, hparams]

theorem foldlM_applyToken {ts : List Token} {o o' : ParsedOptions} (h : ts.foldlM applyToken o = .ok o') :
    coreOf o' = (coreOf o).steps ts := by
  induction ts generalizing o with
  | nil =>
    cases h
    simp [Core.steps]
  | cons t ts ih =>
    rw [List.foldlM_cons] at h
    obtain ⟨o₁, h₁, h⟩ := Fallible.bind_eq_ok.1 h
    rw [ih h, applyToken_core h₁, steps_cons]

/-- `defaults` is replaced. -/
theorem foldlM_applyOne (ts : List Token) (o : ParsedOptions) : ts.foldlM applyOne o = (expand ts).foldlM applyToken o := by
  induction ts generalizing o with
  | nil => rfl
  | cons t ts ih =>
    rw [List.foldlM_cons, expand, List.flatMap_cons, List.foldlM_append, ← expand, applyOne]
    split
    · exact bind_congr ih
    · rw [List.foldlM_cons]
      simp only [List.foldlM_nil, bind_pure]
      exact bind_congr ih

/-! ## The list -/

/-- What the masks have of the mode of access times. -/
def AtimeStands (o : ParsedOptions) : Option Mask → Prop
  | some mode => o.attrClr &&& MOUNT_ATTR_ATIME = MOUNT_ATTR_ATIME ∧ o.attrSet &&& MOUNT_ATTR_ATIME = mode
  | none => o.attrClr &&& MOUNT_ATTR_ATIME = 0#64 ∧ o.attrSet &&& MOUNT_ATTR_ATIME = 0#64

/-- The single attributes. -/
def attrBits : List Mask :=
  [MOUNT_ATTR_RDONLY, MOUNT_ATTR_NOSUID, MOUNT_ATTR_NODEV, MOUNT_ATTR_NOEXEC, MOUNT_ATTR_NODIRATIME,
    MOUNT_ATTR_NOSYMFOLLOW]

theorem attrOf_mem {t : Token} {e : Mask × Bool} (h : attrOf t = some e) : e.1 ∈ attrBits := by
  unfold attrOf at h
  split at h
  · split at h
    · cases h
    · cases h
      exact List.mem_cons_self
  · have hmem : e ∈ attrNames.map Prod.snd := by
      revert h
      generalize nameOf t = name
      intro h
      obtain ⟨l₁, l₂, hl, -⟩ := List.lookup_eq_some_iff.1 h
      rw [hl]
      simp
    have hall : ((attrNames.map Prod.snd).all fun e => attrBits.contains e.1) = true := by decide +kernel
    simpa using List.all_eq_true.1 hall e hmem

theorem atimeOf_and {t : Token} {mode : Mask} (h : atimeOf t = some mode) : mode &&& MOUNT_ATTR_ATIME = mode := by
  have hmem : mode ∈ atimeNames.map Prod.snd := by
    obtain ⟨l₁, l₂, hl, -⟩ := List.lookup_eq_some_iff.1 h
    rw [hl]
    simp
  have hall : ((atimeNames.map Prod.snd).all fun mode => mode &&& MOUNT_ATTR_ATIME == mode) = true := by decide +kernel
  exact eq_of_beq (List.all_eq_true.1 hall mode hmem)

theorem atime_apart {bit : Mask} (h : bit ∈ attrBits) :
    MOUNT_ATTR_ATIME &&& bit = 0#64 ∧ bit &&& MOUNT_ATTR_ATIME = 0#64 := by
  have hall : (attrBits.all fun bit => MOUNT_ATTR_ATIME &&& bit == 0#64 && bit &&& MOUNT_ATTR_ATIME == 0#64) = true := by
    decide +kernel
  simpa using List.all_eq_true.1 hall bit h

theorem attrBits_apart {a b : Mask} (ha : a ∈ attrBits) (hb : b ∈ attrBits) : a = b ∨ a &&& b = 0#64 := by
  have hall : (attrBits.all fun a => attrBits.all fun b => a == b || a &&& b == 0#64) = true := by decide +kernel
  simpa using List.all_eq_true.1 (List.all_eq_true.1 hall a ha) b hb

/-- **What every accepted list asks for.** An attribute is set or cleared as the last token says that names it, and neither
where none does; the masks have the mode of the last token of access times, and nothing of it where there is none; outside
that field no bit is both set and cleared; and the tokens that no category claims are the parameters. -/
theorem parse_spec (spec : Bytes) (o : ParsedOptions) (h : parse spec = .ok o) :
    (∀ bit ∈ attrBits, Masks.Stands ⟨o.attrSet, o.attrClr⟩ bit
      (Masks.lastFor bit ((expand (tokenize spec)).filterMap attrOf))) ∧
    AtimeStands o ((expand (tokenize spec)).filterMap atimeOf).getLast? ∧
    (o.attrSet &&& o.attrClr) &&& ~~~MOUNT_ATTR_ATIME = 0#64 ∧
    o.fsParams = (expand (tokenize spec)).filter (!Claimed ·) := by
  obtain ⟨o₁, h₁, heq⟩ := Fallible.bind_eq_ok.1 h
  cases heq
  rw [foldlM_applyOne] at h₁
  have hcore := foldlM_applyToken h₁
  generalize expand (tokenize spec) = ts at hcore
  have hmasks : (⟨o₁.attrSet, o₁.attrClr⟩ : Masks 64) = Masks.puts ⟨0, 0⟩ (ts.filterMap attrOf) := congrArg Core.masks hcore
  have hatime : o₁.atimeMode = (ts.filterMap atimeOf).getLast? := by
    have := congrArg Core.atime hcore
    simpa [coreOf, Core.steps] using this
  have hparams : o₁.fsParams = ts.filter (!Claimed ·) := by
    have := congrArg Core.params hcore
    simpa [coreOf, Core.steps] using this
  have hmem : ∀ e ∈ ts.filterMap attrOf, e.1 ∈ attrBits := fun e he => by
    obtain ⟨t, -, ht⟩ := List.mem_filterMap.1 he
    exact attrOf_mem ht
  have hbits : ∀ bit ∈ attrBits, Masks.Stands ⟨o₁.attrSet, o₁.attrClr⟩ bit (Masks.lastFor bit (ts.filterMap attrOf)) := by
    intro bit hbit
    rw [hmasks]
    exact Masks.stands_foldl fun e he => attrBits_apart (hmem e he) hbit
  have hdisjoint : o₁.attrSet &&& o₁.attrClr = 0#64 := by
    have := Masks.disjoint_foldl (ts.filterMap attrOf)
    rwa [← hmasks] at this
  unfold finishAtime
  rw [← hatime]
  cases hmode : o₁.atimeMode with
  | none =>
    -- no attribute has a bit of the field
    have hnone := @Masks.stands_foldl 64 MOUNT_ATTR_ATIME (ts.filterMap attrOf)
      fun e he => .inr (atime_apart (hmem e he)).2
    have hlast : Masks.lastFor MOUNT_ATTR_ATIME (ts.filterMap attrOf) = none := by
      rw [Masks.lastFor, List.getLast?_eq_none_iff, List.filterMap_eq_nil_iff]
      intro e he
      refine if_neg fun heq => ?_
      have := hmem e he
      rw [heq] at this
      revert this
      decide +kernel
    rw [hlast, ← hmasks] at hnone
    refine ⟨hbits, ⟨hnone.2, hnone.1⟩, ?_, hparams⟩
    show (o₁.attrSet &&& o₁.attrClr) &&& ~~~MOUNT_ATTR_ATIME = 0#64
    rw [hdisjoint, BitVec.zero_and]
  | some mode =>
    have hfield : mode &&& MOUNT_ATTR_ATIME = mode := by
      have hlast : (ts.filterMap atimeOf).getLast? = some mode := hatime.symm.trans hmode
      obtain ⟨t, -, ht⟩ := List.mem_filterMap.1 (List.mem_of_getLast? hlast)
      exact atimeOf_and ht
    obtain ⟨hset, hclear⟩ := @Masks.replace_field 64 ⟨o₁.attrSet, o₁.attrClr⟩ _ _ hfield
    have hapart := @Masks.disjoint_replace 64 ⟨o₁.attrSet, o₁.attrClr⟩ _ _ hdisjoint hfield
    refine ⟨fun bit hbit => ?_, ⟨hclear, hset⟩, hapart, hparams⟩
    obtain ⟨hset', hclear'⟩ := @Masks.replace_and 64 ⟨o₁.attrSet, o₁.attrClr⟩ _ _ _ (atime_apart hbit).1 hfield
    exact Masks.Stands.congr hset'.symm hclear'.symm (hbits bit hbit)

/-- `defaults,ro,x`. -/
theorem parse_spec_defaults : ∃ o, parse (encode "defaults,ro,x".toList) = .ok o ∧ o.attrSet &&& MOUNT_ATTR_RDONLY =
    MOUNT_ATTR_RDONLY ∧ o.fsParams = [([120], none)] := by
  have hok : (parse (encode "defaults,ro,x".toList)).toOption.isSome = true := by decide +kernel
  obtain ⟨o, ho⟩ : ∃ o, parse (encode "defaults,ro,x".toList) = .ok o := by
    revert hok
    cases parse (encode "defaults,ro,x".toList) with
    | error e => exact fun hok => absurd hok Bool.false_ne_true
    | ok o => exact fun _ => ⟨o, rfl⟩
  obtain ⟨hbits, -, -, hparams⟩ := parse_spec _ o ho
  have hlast : Masks.lastFor MOUNT_ATTR_RDONLY
      ((expand (tokenize (encode "defaults,ro,x".toList))).filterMap attrOf) = some true := by decide +kernel
  have hstands := hbits MOUNT_ATTR_RDONLY List.mem_cons_self
  rw [hlast] at hstands
  refine ⟨o, ho, hstands.1, hparams.trans ?_⟩
  decide +kernel

end Peiosutils.Mount
