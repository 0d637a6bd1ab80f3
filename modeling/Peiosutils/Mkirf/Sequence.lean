import Peiosutils.Mkirf.Discovered

/-!
# Reading a sequence file back

`readSeqV2` follows the documented grammar of `hooks.seq.2`: the marker line, then a `hook` line for each stanza, and
under it lines of a key and its capabilities. Capabilities are checked where they enter, file names are not: the hooks
come back from their sequence exactly when no file name has a newline (`sequence_reads_back_iff`).
-/

set_option autoImplicit false

namespace Peiosutils.Mkirf

open Keyed Utf8
open Regman (Str)

/-! ## The reader -/

/-- A hook as its stanza describes it. -/
structure Stanza where
  path : Str
  caps : Key → List Str

/-- The words of a line behind the first. -/
def argumentsOf (line : Str) : List Str := (line.splitOn ' ').tail

/-- A `hook` line opens a stanza; a key line adds to the last one. -/
def readLine (stanzas : List Stanza) (line : Str) : Option (List Stanza) :=
  if "hook ".toList.isPrefixOf line then some (stanzas ++ [⟨line.drop 5, fun _ => []⟩])
  else
    match stanzas.getLast?, Key.ofText (line.takeWhile (· ≠ ' ')) with
    | some last, some key =>
      some (stanzas.dropLast ++
        [{ last with caps := Function.update last.caps key (last.caps key ++ argumentsOf line) }])
    | _, _ => none

/-- The lines of a sequence file. -/
def seqLines (bytes : List UInt8) : List Str := Lines.lines '\n' (lossyList bytes)

def readSeqV2 (bytes : List UInt8) : Option (List Stanza) :=
  match seqLines bytes with
  | [] => none
  | marker :: lines => if marker = seqV2VersionLine then lines.foldlM readLine [] else none

/-- The paths of `hooks.seq.1`: its lines behind the marker. -/
def readSeq (bytes : List UInt8) : List Str := (seqLines bytes).tail

def Hook.stanza (h : Hook) : Stanza where
  path := h.path.toList
  caps key := (h.caps key).map String.toList

/-- The sequence files of an order give it back: the hooks in that order with their lists, and the same paths. -/
def ReadsBack (hooks : List Hook) (order : List String) : Prop :=
  ∃ l : List Hook, l.Perm hooks ∧ l.map Hook.path = order ∧
    readSeqV2 (renderSeqV2 hooks order) = some (l.map Hook.stanza) ∧
    readSeq (renderSeq order) = (l.map Hook.stanza).map Stanza.path

/-! ## Lines -/

/-- Lines that were written come back when none of them has a newline. -/
theorem seqLines_encode {lines : List Str} (h : ∀ line ∈ lines, '\n' ∉ line) :
    seqLines (encode (unlines lines)) = lines := by
  rw [seqLines, lossyList, lossyChars_encode _ _ (Nat.le_refl _)]
  exact Lines.lines_flatMap h

/-- A token has neither a space nor a newline. -/
theorem plain_of_token {cap : String} (h : Token cap) : ' ' ∉ cap.toList ∧ '\n' ∉ cap.toList := by
  have hmem : ∀ c ∈ cap.toList, (isAsciiAlphanumeric c || c = '.' || c = '_' || c = '-') = true := by
    intro c hc
    unfold Token isCapabilityToken at h
    split at h
    · cases h
    · rename_i a s heq
      rw [heq] at hc
      rw [Bool.and_eq_true, List.all_eq_true] at h
      rcases List.mem_cons.1 hc with rfl | hc
      · simp [h.1]
      · exact h.2 c hc
  exact ⟨fun hc => absurd (hmem _ hc) (by decide), fun hc => absurd (hmem _ hc) (by decide)⟩

/-- A key line as words with spaces between them. -/
theorem keyLine_eq (key : Key) (caps : List String) :
    keyLine key caps = [' '].intercalate (key.text :: caps.map String.toList) := by
  have hjoin : ∀ (w : Str) (ws : List Str), [' '].intercalate (w :: ws) = w ++ ws.flatMap fun v => ' ' :: v := by
    intro w ws
    induction ws generalizing w with
    | nil => simp [List.intercalate]
    | cons v ws ih =>
      rw [List.flatMap_cons, List.cons_append, ← ih v]
      simp [List.intercalate]
  rw [keyLine, hjoin, List.flatMap_map]

theorem key_plain : ∀ key : Key, ' ' ∉ key.text ∧ '\n' ∉ key.text ∧ Key.ofText key.text = some key := by
  intro key
  cases key <;> decide

section KeyLine

variable {key : Key} {caps : List String} (hcaps : ∀ cap ∈ caps, Token cap)

include hcaps

theorem newline_notMem_keyLine : '\n' ∉ keyLine key caps := by
  intro h
  rcases List.mem_append.1 h with h | h
  · exact (key_plain key).2.1 h
  · obtain ⟨cap, hc, h⟩ := List.mem_flatMap.1 h
    rcases List.mem_cons.1 h with h | h
    · exact absurd h (by decide)
    · exact (plain_of_token (hcaps cap hc)).2 h

/-- The capabilities of a key line. -/
theorem argumentsOf_keyLine : argumentsOf (keyLine key caps) = caps.map String.toList := by
  rw [argumentsOf, keyLine_eq, List.splitOn_intercalate ' ' ?_ (by simp), List.tail_cons]
  intro w hw
  rcases List.mem_cons.1 hw with rfl | hw
  · exact (key_plain key).1
  · obtain ⟨cap, hc, rfl⟩ := List.mem_map.1 hw
    exact (plain_of_token (hcaps cap hc)).1

omit hcaps in
theorem takeWhile_keyLine : (keyLine key caps).takeWhile (· ≠ ' ') = key.text := by
  have hkey : ∀ c ∈ key.text, decide (c ≠ ' ') = true := by
    intro c hc
    exact decide_eq_true fun he => (key_plain key).1 (he ▸ hc)
  rw [keyLine, List.takeWhile_append_of_pos hkey]
  cases caps with
  | nil => simp
  | cons cap caps => simp

omit hcaps in
theorem not_hookLine_keyLine : "hook ".toList.isPrefixOf (keyLine key caps) = false := by
  cases key <;> rfl

/-- A key line adds its capabilities to the last stanza. -/
theorem readLine_keyLine (stanzas : List Stanza) (s : Stanza) : readLine (stanzas ++ [s]) (keyLine key caps) =
    some (stanzas ++ [{ s with caps := Function.update s.caps key (s.caps key ++ caps.map String.toList) }]) := by
  rw [readLine, not_hookLine_keyLine, if_neg (by simp), takeWhile_keyLine, (key_plain key).2.2,
    argumentsOf_keyLine hcaps]
  simp

end KeyLine

/-! ## Stanzas -/

/-- Key lines, in any order without repetition, add what a hook lists under these keys. -/
theorem foldlM_keyLines {h : Hook} (htok : ∀ key, ∀ cap ∈ h.caps key, Token cap) (stanzas : List Stanza) :
    ∀ (keys : List Key) (s : Stanza), keys.Nodup →
      ((keys.filter fun key => h.caps key ≠ []).map fun key => keyLine key (h.caps key)).foldlM readLine
          (stanzas ++ [s]) =
        some (stanzas ++ [⟨s.path, fun key => s.caps key ++ if key ∈ keys then h.stanza.caps key else []⟩])
  | [], s, _ => by simp
  | key :: keys, s, hnd => by
    rw [List.nodup_cons] at hnd
    by_cases hempty : h.caps key = []
    · rw [List.filter_cons_of_neg (by simp [hempty]), foldlM_keyLines htok stanzas keys s hnd.2]
      congr 4
      funext k
      by_cases hk : k = key
      · subst hk
        simp [hnd.1, Hook.stanza, hempty]
      · simp [hk]
    · rw [List.filter_cons_of_pos (by simp [hempty]), List.map_cons, List.foldlM_cons,
        readLine_keyLine (htok key)]
      show List.foldlM readLine _ _ = _
      rw [foldlM_keyLines htok stanzas keys _ hnd.2]
      congr 4
      funext k
      by_cases hk : k = key
      · subst hk
        simp [hnd.1, Hook.stanza]
      · simp [hk]

/-- The lines of a hook's stanza. -/
theorem foldlM_stanzaLines {hooks : List Hook} (hl : Listable hooks) {h : Hook} (hm : h ∈ hooks)
    (hpath : byPath hooks h.path = some h) (stanzas : List Stanza) :
    (stanzaLines hooks h.path).foldlM readLine stanzas = some (stanzas ++ [h.stanza]) := by
  have hhook : readLine stanzas (hookLine h.path) = some (stanzas ++ [⟨h.path.toList, fun _ => []⟩]) := by
    have hpre : "hook ".toList.isPrefixOf (hookLine h.path) = true := rfl
    rw [readLine, if_pos hpre]
    rfl
  rw [stanzaLines, hpath, List.foldlM_cons, hhook]
  show List.foldlM readLine _ (keyLines h) = _
  rw [keyLines, foldlM_keyLines (hl.tokens h hm) stanzas Key.all _ (by decide)]
  congr 4
  funext key
  cases key <;> simp [Key.all, Hook.stanza]

/-- The path of a hook gives its directory and its name. -/
theorem hookPath_eq_iff {dest dest' name name' : String} (hd : dest ∈ HOOK_DIRS) (hd' : dest' ∈ HOOK_DIRS) :
    hookPath dest name = hookPath dest' name' ↔ dest = dest' ∧ name = name' := by
  refine ⟨fun h => ?_, by rintro ⟨rfl, rfl⟩; rfl⟩
  have hl := congrArg String.toList h
  simp only [HOOK_DIRS, List.mem_cons, List.not_mem_nil, or_false] at hd hd'
  -- the first letters tell two directories apart
  rcases hd with rfl | rfl | rfl <;> rcases hd' with rfl | rfl | rfl <;>
    simp [hookPath, String.toList_append] at hl <;> exact ⟨rfl, String.toList_injective hl⟩

theorem Listable.eq_of_path {hooks : List Hook} (hl : Listable hooks) {h h' : Hook} (hm : h ∈ hooks) (hm' : h' ∈ hooks)
    (hp : h.path = h'.path) : h = h' := by
  obtain ⟨dest, hd, hpath⟩ := hl.path h hm
  obtain ⟨dest', hd', hpath'⟩ := hl.path h' hm'
  rw [hpath, hpath', hookPath_eq_iff hd hd'] at hp
  exact List.inj_on_of_nodup_map hl.names hm hm' hp.2

/-- Every hook is found by its path. -/
theorem Listable.byPath_eq {hooks : List Hook} (hl : Listable hooks) {h : Hook} (hm : h ∈ hooks) :
    byPath hooks h.path = some h := by
  rw [byPath]
  cases hf : hooks.reverse.find? (fun x => x.path = h.path) with
  | none =>
    have := List.find?_eq_none.1 hf h (List.mem_reverse.2 hm)
    simp at this
  | some x =>
    have hx := List.mem_reverse.1 (List.mem_of_find?_eq_some hf)
    have hp : x.path = h.path := by simpa using List.find?_some hf
    rw [hl.eq_of_path hx hm hp]

/-- The stanzas of hooks, one after the other. -/
theorem foldlM_stanzas {hooks : List Hook} (hl : Listable hooks) : ∀ {l : List Hook}, (∀ h ∈ l, h ∈ hooks) →
    ∀ stanzas, ((l.map Hook.path).flatMap (stanzaLines hooks)).foldlM readLine stanzas =
      some (stanzas ++ l.map Hook.stanza)
  | [], _, stanzas => by simp
  | h :: l, hm, stanzas => by
    rw [List.forall_mem_cons] at hm
    rw [List.map_cons, List.flatMap_cons, List.foldlM_append,
      foldlM_stanzaLines hl hm.1 (hl.byPath_eq hm.1)]
    show List.foldlM readLine _ _ = _
    rw [foldlM_stanzas hl hm.2, List.append_assoc]
    rfl

/-- What a stanza writes has no newline when the path has none. -/
theorem newline_notMem_stanzaLines {hooks : List Hook} (hl : Listable hooks) {h : Hook} (hm : h ∈ hooks)
    (hn : '\n' ∉ h.path.toList) : ∀ line ∈ stanzaLines hooks h.path, '\n' ∉ line := by
  intro line hline
  rw [stanzaLines, hl.byPath_eq hm] at hline
  rcases List.mem_cons.1 hline with rfl | hline
  · intro hc
    rcases List.mem_append.1 hc with hc | hc
    · exact absurd hc (by decide)
    · exact hn hc
  · obtain ⟨key, -, rfl⟩ := List.mem_map.1 hline
    exact newline_notMem_keyLine (hl.tokens h hm key)

/-! ## What is read has no newline in a path -/

theorem readLine_path {stanzas stanzas' : List Stanza} {line : Str} (hline : '\n' ∉ line)
    (hs : ∀ s ∈ stanzas, '\n' ∉ s.path) (h : readLine stanzas line = some stanzas') :
    ∀ s ∈ stanzas', '\n' ∉ s.path := by
  unfold readLine at h
  split at h
  · cases h
    intro s hm
    rcases List.mem_append.1 hm with hm | hm
    · exact hs s hm
    · rw [List.mem_singleton] at hm
      subst hm
      exact fun hc => hline (List.mem_of_mem_drop hc)
  · split at h
    · rename_i last key hlast _
      cases h
      intro s hm
      rcases List.mem_append.1 hm with hm | hm
      · exact hs s (List.mem_of_mem_dropLast hm)
      · rw [List.mem_singleton] at hm
        subst hm
        exact hs last (List.mem_of_getLast? hlast)
    · cases h

theorem foldlM_readLine_path : ∀ {lines : List Str} {stanzas stanzas' : List Stanza}, (∀ line ∈ lines, '\n' ∉ line) →
    (∀ s ∈ stanzas, '\n' ∉ s.path) → lines.foldlM readLine stanzas = some stanzas' → ∀ s ∈ stanzas', '\n' ∉ s.path
  | [], _, _, _, hs, h => by cases h; exact hs
  | line :: lines, stanzas, stanzas', hlines, hs, h => by
    rw [List.forall_mem_cons] at hlines
    rw [List.foldlM_cons] at h
    cases hr : readLine stanzas line with
    | none => rw [hr] at h; cases h
    | some mid =>
      rw [hr] at h
      exact foldlM_readLine_path hlines.2 (readLine_path hlines.1 hs hr) h

theorem readSeqV2_path {bytes : List UInt8} {stanzas : List Stanza} (h : readSeqV2 bytes = some stanzas) :
    ∀ s ∈ stanzas, '\n' ∉ s.path := by
  have hlines : ∀ line ∈ seqLines bytes, '\n' ∉ line := fun line hm => Lines.not_mem_of_mem_lines hm
  unfold readSeqV2 at h
  split at h
  · cases h
  · rename_i marker lines heq
    rw [heq] at hlines
    split at h
    · exact foldlM_readLine_path (fun line hm => hlines line (List.mem_cons_of_mem _ hm)) (by simp) h
    · cases h

/-! ## Reading back -/

/-- The order of a successful `resolve` is that of the hooks, rearranged. -/
theorem resolve_order_perm {hooks : List Hook} (hnames : (hooks.map Hook.name).Nodup) {r : Resolved}
    (h : resolve hooks = .ok r) : ∃ l : List Hook, l.Perm hooks ∧ l.map Hook.path = r.order :=
  ⟨executionOrder hooks, executionOrder_perm hnames ((resolve_ok_iff hnames).1 ⟨r, h⟩).acyclic,
    (resolve_eq_ok h).2.2.2.symm⟩

/-- A path has a newline just when the name has one. -/
theorem newline_mem_path {hooks : List Hook} (hl : Listable hooks) {h : Hook} (hm : h ∈ hooks) :
    '\n' ∈ h.path.toList ↔ '\n' ∈ h.name.toList := by
  obtain ⟨dest, hd, hp⟩ := hl.path h hm
  simp only [HOOK_DIRS, List.mem_cons, List.not_mem_nil, or_false] at hd
  rw [hp]
  rcases hd with rfl | rfl | rfl <;> simp [hookPath, String.toList_append]

theorem Listable.readsBack_iff {hooks : List Hook} (hl : Listable hooks) {r : Resolved} (hr : resolve hooks = .ok r) :
    ReadsBack hooks r.order ↔ ∀ h ∈ hooks, '\n' ∉ h.name.toList := by
  constructor
  · rintro ⟨l, hperm, -, hread, -⟩ h hm
    rw [← newline_mem_path hl hm]
    exact readSeqV2_path hread h.stanza (List.mem_map_of_mem (hperm.mem_iff.2 hm))
  · intro hn
    obtain ⟨l, hperm, horder⟩ := resolve_order_perm hl.names hr
    have hsub : ∀ h ∈ l, h ∈ hooks := fun h hm => hperm.mem_iff.1 hm
    have hpath : ∀ h ∈ l, '\n' ∉ h.path.toList := fun h hm => by
      rw [newline_mem_path hl (hsub h hm)]
      exact hn h (hsub h hm)
    refine ⟨l, hperm, horder, ?_, ?_⟩
    · have hlines : ∀ line ∈ seqV2VersionLine :: r.order.flatMap (stanzaLines hooks), '\n' ∉ line := by
        rw [List.forall_mem_cons, ← horder]
        refine ⟨by decide, fun line hline => ?_⟩
        obtain ⟨path, hp, hline⟩ := List.mem_flatMap.1 hline
        obtain ⟨h, hm, rfl⟩ := List.mem_map.1 hp
        exact newline_notMem_stanzaLines hl (hsub h hm) (hpath h hm) line hline
      rw [readSeqV2, renderSeqV2, seqLines_encode hlines]
      dsimp only
      rw [if_pos rfl, ← horder, foldlM_stanzas hl hsub, List.nil_append]
    · have hlines : ∀ line ∈ seqVersionLine :: r.order.map String.toList, '\n' ∉ line := by
        rw [List.forall_mem_cons, ← horder]
        refine ⟨by decide, fun line hline => ?_⟩
        simp only [List.mem_map] at hline
        obtain ⟨_, ⟨h, hm, rfl⟩, rfl⟩ := hline
        exact hpath h hm
      rw [readSeq, renderSeq, seqLines_encode hlines, List.tail_cons, ← horder, List.map_map, List.map_map]
      rfl

/-- The hooks of a tree, with their implicit edges or without, come back from their sequence files exactly when none of
their file names has a newline. -/
theorem sequence_reads_back_iff {root : String} {dirs : String → Option Listing} {found hooks : List Hook}
    {warnings : List String} (hd : discoverAll root dirs = .ok (found, warnings))
    (hh : hooks = found ∨ hooks = applyImplicitOrdering found) {r : Resolved} (hr : resolve hooks = .ok r) :
    ReadsBack hooks r.order ↔ ∀ h ∈ found, '\n' ∉ h.name.toList := by
  have hl := listable_discoverAll hd
  rcases hh with rfl | rfl
  · exact hl.readsBack_iff hr
  · rw [hl.implicit.readsBack_iff hr, Mkirf.applyImplicitOrdering, List.forall_mem_map]
    simp only [implicitlyOrdered_name]

/-- A tree with one hook, a file of the given name. -/
def oneHook (name : String) : String → Option Listing := fun dest =>
  if dest = "usr/libexec/prelude/hooks.d" then some (.ok [.ok ⟨utf8 name, .ok true, .ok []⟩]) else none

def oneHookFound (name : String) : List Hook := [⟨name, hookPath "usr/libexec/prelude/hooks.d" name, [], [], [], [], false⟩]

theorem discoverAll_oneHook : discoverAll "/src" (oneHook "mount.sh") = .ok (oneHookFound "mount.sh", []) ∧
    discoverAll "/src" (oneHook "a\nb") = .ok (oneHookFound "a\nb", []) := by
  decide +kernel

theorem resolve_oneHook : (∃ r, resolve (oneHookFound "mount.sh") = .ok r) ∧
    ∃ r, resolve (oneHookFound "a\nb") = .ok r := by
  constructor
  · exact resolve_ok_of (by decide +kernel) (by decide +kernel) (by decide +kernel)
  · exact resolve_ok_of (by decide +kernel) (by decide +kernel) (by decide +kernel)

/-- A hook whose name has no newline. -/
theorem sequence_reads_back_mount : ∃ r, resolve (oneHookFound "mount.sh") = .ok r ∧
    (ReadsBack (oneHookFound "mount.sh") r.order ↔ ∀ h ∈ oneHookFound "mount.sh", '\n' ∉ h.name.toList) := by
  obtain ⟨r, hr⟩ := resolve_oneHook.1
  exact ⟨r, hr, sequence_reads_back_iff discoverAll_oneHook.1 (Or.inl rfl) hr⟩

/-- A hook whose name has one. -/
theorem newlineHook_lost : ∃ found warnings r, discoverAll "/src" (oneHook "a\nb") = .ok (found, warnings) ∧
    resolve found = .ok r ∧ ¬ ReadsBack found r.order := by
  obtain ⟨r, hr⟩ := resolve_oneHook.2
  refine ⟨_, _, r, discoverAll_oneHook.2, hr, fun h => ?_⟩
  have hn := ((listable_discoverAll discoverAll_oneHook.2).readsBack_iff hr).1 h
  exact hn _ List.mem_cons_self (by decide)

end Peiosutils.Mkirf
