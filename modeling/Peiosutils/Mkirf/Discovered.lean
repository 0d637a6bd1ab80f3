import Peiosutils.Mkirf.Discover
import Peiosutils.Mkirf.Resolve

/-!
# What discovery finds

The hooks that `discover_all` returns have distinct names, a path made of their directory and their name, and bare
tokens as capabilities (`listable_discoverAll`); they are the regular files of the hook directories, each unless a
directory of higher precedence has one of its name (`mem_discoverAll`).
-/

set_option autoImplicit false

namespace Peiosutils.Mkirf

open Keyed Utf8
open Regman (Str)

/-! ## Capabilities are tokens -/

/-- The capability is a bare token. -/
def Token (cap : String) : Prop := isCapabilityToken cap.toList = true

theorem parseElement_token {elem : Str} {cap : String} (h : parseElement elem = .ok cap) : Token cap := by
  unfold parseElement at h
  split at h
  · cases h
  · split at h
    · cases h
    · split at h
      · rename_i ht
        cases h
        rwa [Token, String.toList_ofList]
      · cases h

theorem parseElements_token : ∀ {elems : List Str} {caps : List String}, parseElements elems = .ok caps →
    ∀ cap ∈ caps, Token cap
  | [], _, h => by cases h; simp
  | elem :: elems, caps, h => by
    rw [parseElements] at h
    cases he : parseElement elem with
    | error e => rw [he] at h; cases h
    | ok value =>
      rw [he] at h
      cases hes : parseElements elems with
      | error e => rw [hes] at h; cases h
      | ok out =>
        rw [hes] at h
        cases h
        exact List.forall_mem_cons.2 ⟨parseElement_token he, parseElements_token hes⟩

theorem parseStringArray_token {s : Str} {caps : List String} (h : parseStringArray s = .ok caps) :
    ∀ cap ∈ caps, Token cap := by
  unfold parseStringArray at h
  dsimp only at h
  split at h
  · cases h
  · split at h
    · cases h; simp
    · exact parseElements_token h

/-- Every key that was assigned has tokens. -/
def Slots.Tokens (slots : Slots) : Prop := ∀ key caps, slots key = some caps → ∀ cap ∈ caps, Token cap

theorem parseAssignment_tokens {slots slots' : Slots} {lineno : Nat} {raw : Str} (hs : slots.Tokens)
    (h : parseAssignment slots lineno raw = .ok slots') : slots'.Tokens := by
  unfold parseAssignment at h
  dsimp only at h
  split at h
  · cases h
    exact hs
  · split at h
    · cases h
    · split at h
      · cases h
      · rename_i key' hkey
        split at h
        · cases h
        · split at h
          · cases h
          · rename_i caps hcaps
            cases h
            intro key caps' hk
            by_cases hkk : key = key'
            · subst hkk
              rw [Function.update_self, Option.some.injEq] at hk
              exact hk ▸ parseStringArray_token hcaps
            · rw [Function.update_of_ne hkk] at hk
              exact hs key caps' hk

theorem parseAssignments_tokens : ∀ {content : List (Nat × Str)} {slots slots' : Slots}, slots.Tokens →
    parseAssignments slots content = .ok slots' → slots'.Tokens
  | [], _, _, hs, h => by cases h; exact hs
  | (lineno, raw) :: content, slots, slots', hs, h => by
    rw [parseAssignments] at h
    cases ha : parseAssignment slots lineno raw with
    | error e => rw [ha] at h; cases h
    | ok mid =>
      rw [ha] at h
      exact parseAssignments_tokens (parseAssignment_tokens hs ha) h

/-- The lists of a block hold tokens. -/
theorem parseBlock_tokens {text : Str} {parsed : ParsedBlock} (h : parseBlock text = .ok parsed) :
    ∀ cap ∈ parsed.provides ++ parsed.contributes ++ parsed.requires ++ parsed.after, Token cap := by
  unfold parseBlock at h
  dsimp only at h
  split at h
  · cases h; simp
  · split at h
    · cases h
    · rename_i start _ _
      cases hc : blockContent (start + 2) ((Regman.lines text).drop (start + 1)) with
      | error e => rw [hc] at h; cases h
      | ok content =>
        rw [hc] at h
        cases hs : parseAssignments (fun _ => none) content with
        | error e => simp [parseTomlSubset, hs, bind, Except.bind] at h
        | ok slots =>
          have htok : slots.Tokens := parseAssignments_tokens (fun _ _ hn => by cases hn) hs
          have hget : ∀ key, ∀ cap ∈ (slots key).getD [], Token cap := by
            intro key cap hcap
            cases hk : slots key with
            | none => rw [hk] at hcap; simp at hcap
            | some caps =>
              rw [hk] at hcap
              exact htok key caps hk cap hcap
          simp only [parseTomlSubset, hs, bind, Except.bind, pure, Except.pure, Except.ok.injEq] at h
          subst h
          intro cap hcap
          simp only [List.mem_append] at hcap
          rcases hcap with ((hcap | hcap) | hcap) | hcap
          · exact hget _ cap hcap
          · exact hget _ cap hcap
          · exact hget _ cap hcap
          · exact hget _ cap hcap

/-! ## One directory -/

/-- Where a hook lives inside the image. -/
def hookPath (dest name : String) : String := "/" ++ dest ++ "/" ++ name

/-- A regular file of a hook directory. -/
def IsHookFile (dirs : String → Option Listing) (dest : String) (name : List UInt8) : Prop :=
  ∃ items item, dirs dest = some (.ok items) ∧ .ok item ∈ items ∧ item.name = name ∧ item.isFile = .ok true

theorem discoverItem_eq_some {hooksDir dest : String} {item : DirItem} {h : Hook}
    (hok : discoverItem hooksDir dest item = .ok (some h)) :
    item.isFile = .ok true ∧ h.name = lossy item.name ∧ h.path = hookPath dest h.name ∧
      ∀ key, ∀ cap ∈ h.caps key, Token cap := by
  unfold discoverItem at hok
  dsimp only at hok
  split at hok
  · cases hok
  · cases hok
  · rename_i hfile
    split at hok
    · cases hok
    · split at hok
      · cases hok
      · rename_i parsed hparsed
        cases hok
        refine ⟨hfile, rfl, rfl, fun key cap hcap => parseBlock_tokens hparsed cap ?_⟩
        simp only [List.mem_append]
        cases key with
        | provides => exact Or.inl (Or.inl (Or.inl hcap))
        | contributes => exact Or.inl (Or.inl (Or.inr hcap))
        | requires => exact Or.inl (Or.inr hcap)
        | after => exact Or.inr hcap

theorem discoverItem_eq_none {hooksDir dest : String} {item : DirItem}
    (hok : discoverItem hooksDir dest item = .ok none) : item.isFile = .ok false := by
  unfold discoverItem at hok
  dsimp only at hok
  split at hok
  · cases hok
  · assumption
  · split at hok
    · cases hok
    · split at hok <;> cases hok

/-- The items of a directory as hooks: each hook is one of the files, and each file is one of the hooks. -/
theorem mem_discoverItems {hooksDir dest : String} : ∀ {items : List (Except String DirItem)} {hooks : List Hook},
    discoverItems hooksDir dest items = .ok hooks →
      (∀ h ∈ hooks, ∃ item, .ok item ∈ items ∧ discoverItem hooksDir dest item = .ok (some h)) ∧
      ∀ item, .ok item ∈ items → item.isFile = .ok true → ∃ h ∈ hooks, h.name = lossy item.name
  | [], _, h => by
    cases h
    simp
  | .error e :: _, _, h => by cases h
  | .ok item :: items, hooks, h => by
    rw [discoverItems] at h
    cases hi : discoverItem hooksDir dest item with
    | error e => rw [hi] at h; cases h
    | ok hook =>
      rw [hi] at h
      cases hr : discoverItems hooksDir dest items with
      | error e => rw [hr] at h; cases h
      | ok rest =>
        rw [hr] at h
        cases h
        obtain ⟨ih₁, ih₂⟩ := mem_discoverItems hr
        constructor
        · intro h hh
          rcases List.mem_append.1 hh with hh | hh
          · rw [Option.mem_toList] at hh
            exact ⟨item, List.mem_cons_self, by rw [hi, hh]⟩
          · obtain ⟨item', hm, hd⟩ := ih₁ h hh
            exact ⟨item', List.mem_cons_of_mem _ hm, hd⟩
        · intro item' hm hfile
          rcases List.mem_cons.1 hm with heq | hm
          · cases heq
            cases hook with
            | none =>
              rw [discoverItem_eq_none hi] at hfile
              cases hfile
            | some h => exact ⟨h, by simp, (discoverItem_eq_some hi).2.1⟩
          · obtain ⟨h, hh, hn⟩ := ih₂ item' hm hfile
            exact ⟨h, List.mem_append_right _ hh, hn⟩

/-- The hooks of one directory are its regular files. -/
theorem discoverIn_spec {dirs : String → Option Listing} {hooksDir dest : String} {listing : Listing}
    {hooks : List Hook} (hdir : dirs dest = some listing) (h : discoverIn hooksDir dest listing = .ok hooks) :
    (∀ h ∈ hooks, h.path = hookPath dest h.name ∧ ∀ key, ∀ cap ∈ h.caps key, Token cap) ∧
      ∀ name, (∃ h ∈ hooks, h.name = name) ↔ ∃ n, IsHookFile dirs dest n ∧ lossy n = name := by
  unfold discoverIn at h
  split at h
  · cases h
  · rename_i items
    cases hi : discoverItems hooksDir dest items with
    | error e => rw [hi] at h; cases h
    | ok found =>
      rw [hi] at h
      cases h
      obtain ⟨h₁, h₂⟩ := mem_discoverItems hi
      simp only [mem_sortOn]
      refine ⟨fun h hh => ?_, fun name => ?_⟩
      · obtain ⟨item, -, hd⟩ := h₁ h hh
        exact (discoverItem_eq_some hd).2.2
      · constructor
        · rintro ⟨h, hh, rfl⟩
          obtain ⟨item, hm, hd⟩ := h₁ h hh
          obtain ⟨hfile, hn, -⟩ := discoverItem_eq_some hd
          exact ⟨item.name, ⟨items, item, hdir, hm, rfl, hfile⟩, hn.symm⟩
        · rintro ⟨_, ⟨items', item, hdir', hm, rfl, hfile⟩, rfl⟩
          rw [hdir] at hdir'
          cases hdir'
          exact h₂ item hm hfile

/-! ## Every directory -/

theorem addHook_fst (dest : String) (found : Found) (hook : Hook) :
    (addHook dest found hook).1 = if ∃ h ∈ found.1, h.name = hook.name then found.1 else found.1 ++ [hook] := by
  unfold addHook
  cases hf : found.1.find? (fun h => h.name = hook.name) with
  | some winner =>
    have hm := List.mem_of_find?_eq_some hf
    have hn := List.find?_some hf
    exact (if_pos ⟨winner, hm, by simpa using hn⟩).symm
  | none =>
    have hn := List.find?_eq_none.1 hf
    refine (if_neg ?_).symm
    rintro ⟨h, hh, he⟩
    exact hn h hh (by simpa using he)

/-- What adding the hooks of a directory keeps. -/
theorem foldl_addHook {P : Hook → Prop} {dest : String} : ∀ {hooks : List Hook} {found : Found},
    (found.1.map Hook.name).Nodup → (∀ h ∈ found.1, P h) → (∀ h ∈ hooks, P h) →
      ((hooks.foldl (addHook dest) found).1.map Hook.name).Nodup ∧ ∀ h ∈ (hooks.foldl (addHook dest) found).1, P h
  | [], _, hnd, hp, _ => ⟨hnd, hp⟩
  | hook :: hooks, found, hnd, hp, hps => by
    rw [List.foldl_cons]
    rw [List.forall_mem_cons] at hps
    apply foldl_addHook
    · rw [addHook_fst]
      split
      · exact hnd
      · rename_i hne
        rw [List.map_append, List.map_singleton, List.nodup_append]
        refine ⟨hnd, by simp, ?_⟩
        rintro a ha b hb rfl
        obtain ⟨h, hh, rfl⟩ := List.mem_map.1 ha
        rw [List.mem_singleton] at hb
        exact hne ⟨h, hh, hb⟩
    · rw [addHook_fst]
      split
      · exact hp
      · intro h hh
        rcases List.mem_append.1 hh with hh | hh
        · exact hp h hh
        · rw [List.mem_singleton] at hh
          exact hh ▸ hps.1
    · exact hps.2

/-- A hook is found with the directory unless its name was found before. -/
theorem exists_foldl_addHook {dest : String} {place : String → String} {name path : String} :
    ∀ {hooks : List Hook} {found : Found}, (∀ h ∈ hooks, h.path = place h.name) →
      ((∃ h ∈ (hooks.foldl (addHook dest) found).1, h.name = name ∧ h.path = path) ↔
        (∃ h ∈ found.1, h.name = name ∧ h.path = path) ∨
          ((∃ h ∈ hooks, h.name = name ∧ h.path = path) ∧ ∀ h ∈ found.1, h.name ≠ name))
  | [], found, _ => by simp
  | hook :: hooks, found, hp => by
    rw [List.forall_mem_cons] at hp
    rw [List.foldl_cons, exists_foldl_addHook hp.2, addHook_fst]
    split
    · rename_i hex
      obtain ⟨h', hh', he'⟩ := hex
      constructor
      · rintro (h | ⟨⟨h, hh, hn⟩, hno⟩)
        · exact Or.inl h
        · exact Or.inr ⟨⟨h, List.mem_cons_of_mem _ hh, hn⟩, hno⟩
      · rintro (h | ⟨⟨h, hh, hn⟩, hno⟩)
        · exact Or.inl h
        · rcases List.mem_cons.1 hh with rfl | hh
          · exact absurd (he'.trans hn.1) (hno h' hh')
          · exact Or.inr ⟨⟨h, hh, hn⟩, hno⟩
    · rename_i hne
      constructor
      · rintro (⟨h, hh, hn⟩ | ⟨⟨h, hh, hn⟩, hno⟩)
        · rcases List.mem_append.1 hh with hh | hh
          · exact Or.inl ⟨h, hh, hn⟩
          · rw [List.mem_singleton] at hh
            subst hh
            exact Or.inr ⟨⟨h, List.mem_cons_self, hn⟩, fun h' hh' he => hne ⟨h', hh', he.trans hn.1.symm⟩⟩
        · exact Or.inr ⟨⟨h, List.mem_cons_of_mem _ hh, hn⟩, fun h' hh' => hno h' (List.mem_append_left _ hh')⟩
      · rintro (⟨h, hh, hn⟩ | ⟨⟨h, hh, hn⟩, hno⟩)
        · exact Or.inl ⟨h, List.mem_append_left _ hh, hn⟩
        · by_cases hhook : hook.name = name
          · -- both are of the directory, so their paths are those of their names
            refine Or.inl ⟨hook, by simp, hhook, ?_⟩
            rcases List.mem_cons.1 hh with rfl | hh
            · exact hn.2
            · rw [hp.1, hhook, ← hn.2, hp.2 h hh, hn.1]
          · rcases List.mem_cons.1 hh with rfl | hh
            · exact absurd hn.1 hhook
            · refine Or.inr ⟨⟨h, hh, hn⟩, fun h' hh' => ?_⟩
              rcases List.mem_append.1 hh' with hh' | hh'
              · exact hno h' hh'
              · rw [List.mem_singleton] at hh'
                exact hh' ▸ hhook

/-- The directory has a regular file of the name, and no directory before it has one. -/
def Wins (dirs : String → Option Listing) (dests : List String) (dest name : String) : Prop :=
  ∃ before behind, dests = before ++ dest :: behind ∧ (∃ n, IsHookFile dirs dest n ∧ lossy n = name) ∧
    ∀ d ∈ before, ∀ n, IsHookFile dirs d n → lossy n ≠ name

theorem wins_append {dirs : String → Option Listing} {done : List String} {dest d name : String} (hd : dest ∉ done) :
    Wins dirs (done ++ [dest]) d name ↔ Wins dirs done d name ∨
      (d = dest ∧ (∃ n, IsHookFile dirs dest n ∧ lossy n = name) ∧
        ∀ d' ∈ done, ∀ n, IsHookFile dirs d' n → lossy n ≠ name) := by
  constructor
  · rintro ⟨before, behind, he, hw, hno⟩
    rcases List.eq_nil_or_concat behind with rfl | ⟨mid, last, rfl⟩
    · obtain ⟨rfl, rfl⟩ := List.append_singleton_inj.1 he
      exact Or.inr ⟨rfl, hw, hno⟩
    · rw [List.concat_eq_append, ← List.cons_append, ← List.append_assoc] at he
      obtain ⟨rfl, -⟩ := List.append_singleton_inj.1 he
      exact Or.inl ⟨before, mid, rfl, hw, hno⟩
  · rintro (⟨before, behind, rfl, hw, hno⟩ | ⟨rfl, hw, hno⟩)
    · exact ⟨before, behind ++ [dest], by simp, hw, hno⟩
    · exact ⟨done, [], rfl, hw, hno⟩

/-- What discovery has found when the directories `done` are read. -/
structure FoundIn (dirs : String → Option Listing) (done : List String) (hooks : List Hook) : Prop where
  names : (hooks.map Hook.name).Nodup
  made : ∀ h ∈ hooks, (∃ dest ∈ done, h.path = hookPath dest h.name) ∧ ∀ key, ∀ cap ∈ h.caps key, Token cap
  wins : ∀ dest name, (∃ h ∈ hooks, h.name = name ∧ h.path = hookPath dest name) ↔ Wins dirs done dest name
  seen : ∀ name, (∃ h ∈ hooks, h.name = name) ↔ ∃ d ∈ done, ∃ n, IsHookFile dirs d n ∧ lossy n = name

theorem hookPath_inj {dest dest' name : String} (h : hookPath dest name = hookPath dest' name) : dest = dest' := by
  have hl := congrArg String.toList h
  simp only [hookPath, String.toList_append] at hl
  rw [List.append_left_inj, List.append_left_inj, List.append_right_inj] at hl
  exact String.toList_injective hl

section Step

variable {dirs : String → Option Listing} {done : List String} {dest : String} (hnew : dest ∉ done)

include hnew

/-- A directory that is none adds nothing. -/
theorem FoundIn.skip {hooks : List Hook} (h : FoundIn dirs done hooks) (hdir : dirs dest = none) :
    FoundIn dirs (done ++ [dest]) hooks := by
  have hno : ∀ n, ¬ IsHookFile dirs dest n := by
    rintro n ⟨items, item, hi, -⟩
    rw [hdir] at hi
    cases hi
  refine ⟨h.names, fun x hx => ?_, fun d name => ?_, fun name => ?_⟩
  · obtain ⟨⟨d, hd, hp⟩, htok⟩ := h.made x hx
    exact ⟨⟨d, List.mem_append_left _ hd, hp⟩, htok⟩
  · rw [wins_append hnew, h.wins]
    simp [hno]
  · rw [h.seen]
    simp [hno, or_and_right, exists_or]

/-- The hooks of a directory. -/
theorem FoundIn.step {found : Found} {hooksDir : String} {listing : Listing} {hooks : List Hook}
    (h : FoundIn dirs done found.1) (hdir : dirs dest = some listing)
    (hok : discoverIn hooksDir dest listing = .ok hooks) :
    FoundIn dirs (done ++ [dest]) (hooks.foldl (addHook dest) found).1 := by
  obtain ⟨hmade, hseen⟩ := discoverIn_spec hdir hok
  have hplace : ∀ h ∈ hooks, h.path = hookPath dest h.name := fun h hh => (hmade h hh).1
  have hkept := @foldl_addHook
    (fun x => (∃ d ∈ done ++ [dest], x.path = hookPath d x.name) ∧ ∀ key, ∀ cap ∈ x.caps key, Token cap)
    dest hooks found h.names
    (fun x hx => ⟨(h.made x hx).1.imp fun d hd => ⟨List.mem_append_left _ hd.1, hd.2⟩, (h.made x hx).2⟩)
    (fun x hx => ⟨⟨dest, by simp, (hmade x hx).1⟩, (hmade x hx).2⟩)
  refine ⟨hkept.1, hkept.2, fun d name => ?_, fun name => ?_⟩
  · rw [exists_foldl_addHook hplace, h.wins, wins_append hnew]
    refine or_congr_right ?_
    have hfresh : (∀ x ∈ found.1, x.name ≠ name) ↔ ∀ d' ∈ done, ∀ n, IsHookFile dirs d' n → lossy n ≠ name := by
      have := not_congr (h.seen name)
      push Not at this
      exact this
    rw [hfresh, ← hseen, ← and_assoc]
    refine and_congr_left fun _ => ?_
    constructor
    · rintro ⟨x, hx, rfl, hp⟩
      exact ⟨(hookPath_inj ((hplace x hx).symm.trans hp)).symm, x, hx, rfl⟩
    · rintro ⟨rfl, x, hx, rfl⟩
      exact ⟨x, hx, rfl, hplace x hx⟩
  · have hsplit : (∃ x ∈ (hooks.foldl (addHook dest) found).1, x.name = name) ↔
        (∃ x ∈ found.1, x.name = name) ∨ ∃ x ∈ hooks, x.name = name := by
      constructor
      · rintro ⟨x, hx, hn⟩
        rcases (exists_foldl_addHook hplace).1 ⟨x, hx, hn, rfl⟩ with ⟨y, hy, hyn, -⟩ | ⟨⟨y, hy, hyn, -⟩, -⟩
        · exact Or.inl ⟨y, hy, hyn⟩
        · exact Or.inr ⟨y, hy, hyn⟩
      · intro hex
        by_cases hf : ∃ x ∈ found.1, x.name = name
        · obtain ⟨x, hx, hn⟩ := hf
          obtain ⟨y, hy, hyn, -⟩ := (exists_foldl_addHook hplace).2 (Or.inl ⟨x, hx, hn, rfl⟩)
          exact ⟨y, hy, hyn⟩
        · obtain ⟨x, hx, hn⟩ := hex.resolve_left hf
          obtain ⟨y, hy, hyn, -⟩ := (exists_foldl_addHook hplace).2
            (Or.inr ⟨⟨x, hx, hn, rfl⟩, fun z hz he => hf ⟨z, hz, he⟩⟩)
          exact ⟨y, hy, hyn⟩
    rw [hsplit, h.seen, hseen]
    simp [or_and_right, exists_or]

end Step

theorem discoverDirs_spec {root : String} {dirs : String → Option Listing} : ∀ {dests done : List String}
    {found out : Found}, (done ++ dests).Nodup → FoundIn dirs done found.1 →
      discoverDirs root dirs found dests = .ok out → FoundIn dirs (done ++ dests) out.1
  | [], done, found, out, _, h, hok => by
    cases hok
    rwa [List.append_nil]
  | dest :: dests, done, found, out, hnd, h, hok => by
    have hnew : dest ∉ done := fun hm => (List.nodup_append.1 hnd).2.2 dest hm dest List.mem_cons_self rfl
    have hnd' : ((done ++ [dest]) ++ dests).Nodup := by simpa using hnd
    rw [show done ++ dest :: dests = (done ++ [dest]) ++ dests by simp]
    rw [discoverDirs] at hok
    cases hdir : dirs dest with
    | none =>
      rw [hdir] at hok
      exact discoverDirs_spec hnd' (h.skip hnew hdir) hok
    | some listing =>
      rw [hdir] at hok
      dsimp only at hok
      cases hd : discoverIn (root ++ "/" ++ dest) dest listing with
      | error e => rw [hd] at hok; cases hok
      | ok hooks =>
        rw [hd] at hok
        exact discoverDirs_spec hnd' (h.step hnew hdir hd) hok

/-! ## The hooks of a tree -/

/-- Hooks as discovery returns them: distinct names, a path of directory and name, and bare tokens. -/
structure Listable (hooks : List Hook) : Prop where
  names : (hooks.map Hook.name).Nodup
  path : ∀ h ∈ hooks, ∃ dest ∈ HOOK_DIRS, h.path = hookPath dest h.name
  tokens : ∀ h ∈ hooks, ∀ key, ∀ cap ∈ h.caps key, Token cap

variable {root : String} {dirs : String → Option Listing} {hooks : List Hook} {warnings : List String}

theorem foundIn_discoverAll (h : discoverAll root dirs = .ok (hooks, warnings)) :
    ∃ found, hooks.Perm found ∧ FoundIn dirs HOOK_DIRS found := by
  unfold discoverAll at h
  cases hd : discoverDirs root dirs ([], []) HOOK_DIRS with
  | error e => rw [hd] at h; cases h
  | ok found =>
    rw [hd] at h
    cases h
    have hempty : FoundIn dirs [] ([] : List Hook) := by
      refine ⟨by simp, by simp, fun dest name => ?_, by simp⟩
      constructor
      · rintro ⟨h, hh, -⟩
        cases hh
      · rintro ⟨before, behind, he, -⟩
        simp at he
    have hall : FoundIn dirs ([] ++ HOOK_DIRS) found.1 := discoverDirs_spec (by decide) hempty hd
    exact ⟨found.1, perm_sortOn _ _, hall⟩

theorem listable_discoverAll (h : discoverAll root dirs = .ok (hooks, warnings)) : Listable hooks := by
  obtain ⟨found, hperm, hf⟩ := foundIn_discoverAll h
  exact ⟨(hperm.map _).nodup_iff.2 hf.names, fun x hx => (hf.made x (hperm.mem_iff.1 hx)).1,
    fun x hx => (hf.made x (hperm.mem_iff.1 hx)).2⟩

/-- The paths of the hooks that are found. -/
theorem mem_discoverAll (h : discoverAll root dirs = .ok (hooks, warnings)) (dest name : String) :
    (∃ x ∈ hooks, x.name = name ∧ x.path = hookPath dest name) ↔ Wins dirs HOOK_DIRS dest name := by
  obtain ⟨found, hperm, hf⟩ := foundIn_discoverAll h
  rw [← hf.wins]
  simp only [hperm.mem_iff]

/-- The implicit edges add a token. -/
theorem Listable.implicit (h : Listable hooks) : Listable (applyImplicitOrdering hooks) where
  names := by
    rw [map_name_applyImplicitOrdering]
    exact h.names
  path x hx := by
    obtain ⟨y, hy, rfl⟩ := List.mem_map.1 hx
    rw [implicitlyOrdered_path, implicitlyOrdered_name]
    exact h.path y hy
  tokens x hx key cap hcap := by
    obtain ⟨y, hy, rfl⟩ := List.mem_map.1 hx
    have htok := h.tokens y hy key cap
    rcases implicitlyOrdered_eq y with he | ⟨-, -, he⟩
    · rw [he] at hcap
      exact htok hcap
    · rw [he] at hcap
      cases key with
      | provides => exact htok hcap
      | contributes => exact htok hcap
      | requires => exact htok hcap
      | after =>
        rcases List.mem_append.1 hcap with hcap | hcap
        · exact htok hcap
        · rw [List.mem_singleton] at hcap
          subst hcap
          unfold Token
          decide

end Peiosutils.Mkirf
