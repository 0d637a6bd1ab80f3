import Mathlib.Data.List.Forall2
import Peiosutils.Lib.Fallible
import Peiosutils.Lib.Runs
import Peiosutils.RegDocs.Exact

/-!
# Export and apply (`registry-docs`)

`apply` checks a document before it calls the registry at all, and makes its calls in one transaction: the registry's
answers decide how far it comes, and the transaction is committed just where all of them are good (`apply_spec`). What
`export` reads of a key and those below it, `apply` asks to be written in the same order, parents first, and each value
as it was, if the values have names that a document can hold (`apply_export`).
-/

set_option autoImplicit false

namespace Peiosutils.RegDocs

open Utf8 Hex

/-! ## Documents -/

structure KeyEntry where
  path : Str
  values : List ValueEntry
  descriptor : Option Str

abbrev Document := List KeyEntry

/-- `SecInfo`: the parts of a descriptor. -/
structure SecInfo where
  owner : Bool
  group : Bool
  dacl : Bool
  sacl : Bool
  deriving DecidableEq, Repr

def SecInfo.isEmpty (parts : SecInfo) : Bool := !parts.owner && !parts.group && !parts.dacl && !parts.sacl

/-- `KeyAccess`: the rights that a handle is opened with. -/
structure KeyAccess where
  write : Bool
  setValue : Bool
  writeOwner : Bool
  writeDac : Bool
  accessSystemSecurity : Bool
  deriving DecidableEq, Repr

/-- The reading of SDDL: the descriptor, with the parts that it gives; or why it is none. -/
abbrev Sddl (SD : Type) := Str → Except String (SecInfo × SD)

section Code

variable {SD ε : Type}

def descriptorParts (parse : Sddl SD) (sddl : Str) : Except Invalid (SecInfo × SD) :=
  match parse sddl with
  | .error why => .error ⟨"descriptor " ++ String.ofList sddl ++ ": " ++ why⟩
  | .ok (parts, sd) =>
    if parts.isEmpty then
      .error ⟨"descriptor " ++ String.ofList sddl ++ ": it gives no owner, group, DACL or SACL"⟩
    else .ok (parts, sd)

/-- The rights that `apply` asks for. -/
def accessFor (descriptor : Option (SecInfo × SD)) : KeyAccess where
  write := true
  setValue := true
  writeOwner := descriptor.any fun d => d.1.owner || d.1.group
  writeDac := descriptor.any fun d => d.1.dacl
  accessSystemSecurity := descriptor.any fun d => d.1.sacl

/-- An entry with its values and its descriptor read. -/
structure Checked (SD : Type) where
  path : Str
  values : List (List UInt8 × UInt32 × List UInt8)
  descriptor : Option (SecInfo × SD)

def checkEntry (r : Registry) (parse : Sddl SD) (entry : KeyEntry) : Except Invalid (Checked SD) := do
  let values ← entry.values.mapM (ValueEntry.bytes r)
  match entry.descriptor with
  | none => return ⟨entry.path, values, none⟩
  | some sddl => do
    let d ← descriptorParts parse sddl
    return ⟨entry.path, values, some d⟩

/-- A call of the registry. A key handle goes by the path that it was created for. -/
inductive Call (SD : Type) where
  | begin
  | create (path : Str) (access : KeyAccess) (layer : Option Str)
  | setValue (path : Str) (name : List UInt8) (ty : UInt32) (bytes : List UInt8) (layer : Option Str)
  | setSecurity (path : Str) (parts : SecInfo) (sd : SD)
  | commit

inductive Error (ε : Type) where
  | registry (op : String) (path : Str) (source : ε)
  | invalid (why : String)

abbrev Apply (SD ε α : Type) := Calls.Prog (Call SD) Unit ε (Error ε) α

variable (answers : Calls.Answers (Call SD) Unit ε) (layer : Option Str)

def backslashed (path : Str) : Str := path.map fun c => if c = '/' then '\\' else c

def setValues (path : Str) (values : List (List UInt8 × UInt32 × List UInt8)) : Apply SD ε Unit :=
  values.forM fun v => Calls.attempt answers (.registry "set a value of" path)
    (.setValue (backslashed path) v.1 v.2.1 v.2.2 layer)

def setDescriptor (path : Str) : Option (SecInfo × SD) → Apply SD ε Unit
  | none => pure ()
  | some (parts, sd) => Calls.attempt answers (.registry "set the descriptor of" path)
    (.setSecurity (backslashed path) parts sd)

def applyEntry (entry : Checked SD) : Apply SD ε Unit := do
  Calls.attempt answers (.registry "create key" entry.path)
    (.create (backslashed entry.path) (accessFor entry.descriptor) layer)
  setValues answers layer entry.path entry.values
  setDescriptor answers entry.path entry.descriptor

/-- The transaction. -/
def transact (entries : List (Checked SD)) : Apply SD ε Unit := do
  Calls.attempt answers (.registry "begin a transaction for" []) .begin
  entries.forM (applyEntry answers layer)
  Calls.attempt answers (.registry "commit the transaction for" []) .commit

def apply (r : Registry) (parse : Sddl SD) (doc : Document) : Apply SD ε Nat :=
  match doc.mapM (checkEntry r parse) with
  | .error e => throw (.invalid e.why)
  | .ok entries => do
    transact answers layer entries
    return doc.length

/-! ## The calls of a document -/

def entryCalls (entry : Checked SD) : List (Call SD) :=
  .create (backslashed entry.path) (accessFor entry.descriptor) layer ::
    (entry.values.map fun v => .setValue (backslashed entry.path) v.1 v.2.1 v.2.2 layer) ++
    entry.descriptor.toList.map fun d => .setSecurity (backslashed entry.path) d.1 d.2

/-- The transaction in full. -/
def plan (entries : List (Checked SD)) : List (Call SD) :=
  .begin :: (entries.flatMap (entryCalls layer) ++ [.commit])

end Code

section Atomic

open Calls

variable {SD ε : Type} (answers : Answers (Call SD) Unit ε) (layer : Option Str)

theorem performs_applyEntry (entry : Checked SD) :
    Performs (fun _ => true) (applyEntry answers layer entry) (entryCalls layer entry) := by
  have hvalues : Performs (fun _ => true) (setValues answers layer entry.path entry.values)
      (entry.values.map fun v => Call.setValue (backslashed entry.path) v.1 v.2.1 v.2.2 layer) :=
    performs_forM fun v _ => performs_attempt rfl
  have hdescriptor : Performs (fun _ => true) (setDescriptor answers entry.path entry.descriptor)
      (entry.descriptor.toList.map fun d => Call.setSecurity (backslashed entry.path) d.1 d.2) := by
    cases entry.descriptor with
    | none => exact performs_pure ()
    | some d => exact performs_attempt rfl
  have h := (performs_attempt rfl : Performs (fun _ => true) (attempt answers (.registry "create key" entry.path)
    (.create (backslashed entry.path) (accessFor entry.descriptor) layer)) _).bind fun _ =>
      hvalues.bind fun _ => hdescriptor
  exact h

theorem performs_entries (entries : List (Checked SD)) :
    Performs (fun _ => true) (entries.forM (applyEntry answers layer)) (entries.flatMap (entryCalls layer)) := by
  induction entries with
  | nil => exact performs_pure ()
  | cons entry entries ih =>
    rw [List.flatMap_cons]
    exact (performs_applyEntry answers layer entry).bind fun _ => ih

theorem performs_transact (entries : List (Checked SD)) :
    Performs (fun _ => true) (transact answers layer entries) (plan layer entries) := by
  have hbegin : Performs (fun _ => true)
      (attempt answers (Error.registry "begin a transaction for" []) .begin) [.begin] := performs_attempt rfl
  have hcommit : Performs (fun _ => true)
      (attempt answers (Error.registry "commit the transaction for" []) .commit) [.commit] := performs_attempt rfl
  exact hbegin.bind fun _ => (performs_entries answers layer entries).bind fun _ => hcommit

/-- The commit is the last call, and the only one of its kind. -/
theorem commit_not_mem (entries : List (Checked SD)) :
    Call.commit ∉ Call.begin :: entries.flatMap (entryCalls layer) := by
  intro h
  rcases List.mem_cons.1 h with h | h
  · cases h
  · obtain ⟨entry, -, h⟩ := List.mem_flatMap.1 h
    simp [entryCalls] at h

/-- A program that performs the transaction commits it just where it succeeds. -/
theorem committed_iff {α : Type} {entries : List (Checked SD)} {made : Record (Call SD) Unit ε}
    {result : Except (Error ε) α} (h : Performed (fun _ => true) (plan layer entries) made result) :
    made.map Prod.fst <+: plan layer entries ∧ (∀ m ∈ made.dropLast, m.2.isOk = true) ∧
      (result.isOk = true ↔ (Call.commit, Except.ok ()) ∈ made) ∧
      (result.isOk = true → made.map Prod.fst = plan layer entries ∧ ∀ m ∈ made, m.2.isOk = true) := by
  have hkind : ofKind (fun _ => true) made = made := List.filter_true made
  cases h with
  | all hcalls hok =>
    rw [hkind] at hcalls hok
    refine ⟨hcalls ▸ List.prefix_refl _, fun m hm => hok m (List.dropLast_subset _ hm), ⟨fun _ => ?_, fun _ => rfl⟩,
      fun _ => ⟨hcalls, hok⟩⟩
    have hmem : Call.commit ∈ made.map Prod.fst := by
      rw [hcalls, plan]
      exact List.mem_cons_of_mem _ (List.mem_append_right _ (List.mem_singleton_self _))
    obtain ⟨⟨c, answer⟩, hm, rfl⟩ := List.mem_map.1 hmem
    cases answer with
    | ok u => exact hm
    | error e => exact absurd (hok _ hm) Bool.false_ne_true
  | @failed e done last rest hmade hcalls hok hfailed =>
    rw [hkind] at hmade
    subst hmade
    refine ⟨⟨rest, hcalls⟩, by rwa [List.dropLast_concat], ⟨fun h => (by cases h), fun hmem => ?_⟩,
      fun h => (by cases h)⟩
    rcases List.mem_append.1 hmem with hmem | hmem
    · have hplan : (done.map Prod.fst) ++ (last.1 :: rest) =
          (Call.begin :: entries.flatMap (entryCalls layer)) ++ [.commit] := by
        rw [← List.singleton_append, ← List.append_assoc, ← List.map_singleton (f := Prod.fst) (a := last),
          ← List.map_append, hcalls]
        rfl
      obtain ⟨front, hfront⟩ : ∃ front,
          done.map Prod.fst ++ front = Call.begin :: entries.flatMap (entryCalls layer) := by
        refine List.prefix_of_prefix_length_le ⟨_, hplan⟩ (List.prefix_append _ _) ?_
        have := congrArg List.length hplan
        simp only [List.length_append, List.length_cons, List.length_nil] at this ⊢
        omega
      refine absurd ?_ (commit_not_mem layer entries)
      rw [← hfront]
      exact List.mem_append_left _ (List.mem_map_of_mem hmem)
    · rw [← List.mem_singleton.1 hmem] at hfailed
      cases hfailed

/-- Nothing is called for a document that does not pass. Otherwise the calls are those of the transaction up to the
first that fails, and the commit is made just where all of them are good. -/
theorem apply_spec (r : Registry) (parse : Sddl SD) (doc : Document) :
    (∀ e, doc.mapM (checkEntry r parse) = .error e →
      runFrom (apply answers layer r parse doc) [] = (.error (.invalid e.why), [])) ∧
    ∀ entries, doc.mapM (checkEntry r parse) = .ok entries →
      (runFrom (apply answers layer r parse doc) []).2.map Prod.fst <+: plan layer entries ∧
      (∀ m ∈ (runFrom (apply answers layer r parse doc) []).2.dropLast, m.2.isOk = true) ∧
      ((runFrom (apply answers layer r parse doc) []).1.isOk = true ↔
        (Call.commit, Except.ok ()) ∈ (runFrom (apply answers layer r parse doc) []).2) ∧
      ((runFrom (apply answers layer r parse doc) []).1.isOk = true →
        (runFrom (apply answers layer r parse doc) []).1 = .ok doc.length ∧
        (runFrom (apply answers layer r parse doc) []).2.map Prod.fst = plan layer entries) := by
  refine ⟨fun e he => by rw [apply, he]; rfl, fun entries hentries => ?_⟩
  have hrun : apply answers layer r parse doc = do
      transact answers layer entries
      return doc.length := by
    rw [apply, hentries]
  obtain ⟨new, hnew, hperformed⟩ := performs_transact answers layer entries []
  rw [List.nil_append] at hnew
  rw [hrun]
  generalize hresult : runFrom (transact answers layer entries) [] = result at hnew hperformed
  obtain ⟨res, made⟩ := result
  dsimp only at hnew hperformed
  subst hnew
  obtain ⟨hbegun, hstops, hcommit, hall⟩ := committed_iff layer hperformed
  cases res with
  | ok u =>
    rw [runFrom_bind_ok hresult]
    exact ⟨hbegun, hstops, hcommit, fun h => ⟨rfl, (hall h).1⟩⟩
  | error e =>
    rw [runFrom_bind_error hresult]
    exact ⟨hbegun, hstops, hcommit, fun h => (by cases h)⟩

end Atomic

/-! ## Export -/

/-- A value as the registry gives it. -/
structure Record where
  name : List UInt8
  ty : UInt32
  data : List UInt8
  deriving DecidableEq, Repr

/-- What a key says when it is opened: its values, and the names of its subkeys. -/
abbrev Reads (ε : Type) := Str → Except ε (Except ε (List Record) × Except ε (List (List UInt8)))

def childPath (path : Str) (name : List UInt8) : Str := path ++ '\\' :: lossyList name

section Export

variable {ε : Type} (r : Registry)

/-- The entry of a key; the tombstones of hidden values are left out. -/
def keyEntry (path : Str) (values : List Record) : KeyEntry :=
  ⟨path, (values.filter fun v => v.ty ≠ r.types.tombstone).map fun v => ValueEntry.of r v.name v.ty v.data, none⟩

/-- One key after the other. None is a key too deep for the fuel. -/
def collectAll (collect : Str → Option (Except (Error ε) Document)) : List Str → Option (Except (Error ε) Document)
  | [] => some (.ok [])
  | path :: paths =>
    match collect path with
    | some (.ok doc) =>
      match collectAll collect paths with
      | some (.ok docs) => some (.ok (doc ++ docs))
      | other => other
    | other => other

def collect (reads : Reads ε) : (fuel : Nat) → Str → Option (Except (Error ε) Document)
  | 0, _ => none
  | fuel + 1, path =>
    match reads path with
    | .error e => some (.error (.registry "open key" path e))
    | .ok (values, subkeys) =>
      -- values that may not be read are left out
      let entry := keyEntry r path (values.toOption.getD [])
      match subkeys with
      | .error e => some (.error (.registry "list subkeys of" path e))
      | .ok names =>
        match collectAll (collect reads fuel) (names.map (childPath path)) with
        | some (.ok docs) => some (.ok (entry :: docs))
        | other => other

end Export

mutual

/-- A key with all that is below it. -/
inductive Tree where
  | node (values : List Record) (children : Forest)

inductive Forest where
  | nil
  | cons (name : List UInt8) (t : Tree) (rest : Forest)

end

def Forest.names : Forest → List (List UInt8)
  | nil => []
  | cons name _ rest => name :: rest.names

mutual

/-- The keys of a tree with their values, parents first. -/
def Tree.keys (path : Str) : Tree → List (Str × List Record)
  | .node values children => (path, values) :: children.keys path

def Forest.keys (path : Str) : Forest → List (Str × List Record)
  | .nil => []
  | .cons name t rest => t.keys (childPath path name) ++ rest.keys path

end

mutual

def Tree.depth : Tree → Nat
  | .node _ children => children.depth + 1

def Forest.depth : Forest → Nat
  | .nil => 0
  | .cons _ t rest => max t.depth rest.depth

end

mutual

/-- The registry has a tree at a path. -/
def Tree.Holds {ε : Type} (reads : Reads ε) (path : Str) : Tree → Prop
  | .node values children => reads path = .ok (.ok values, .ok children.names) ∧ children.Holds reads path

def Forest.Holds {ε : Type} (reads : Reads ε) (path : Str) : Forest → Prop
  | .nil => True
  | .cons name t rest => t.Holds reads (childPath path name) ∧ rest.Holds reads path

end

section Mirror

variable {SD ε : Type} (r : Registry) (layer : Option Str)

mutual

/-- All of a tree is exported. -/
theorem collect_tree {reads : Reads ε} : ∀ {path : Str} (t : Tree), t.Holds reads path → ∀ {fuel : Nat},
    t.depth ≤ fuel → collect r reads fuel path = some (.ok ((t.keys path).map fun k => keyEntry r k.1 k.2))
  | path, .node values children, h, fuel, hfuel => by
    rw [Tree.Holds] at h
    rw [Tree.depth] at hfuel
    cases fuel with
    | zero => omega
    | succ fuel =>
      rw [collect, h.1]
      dsimp only
      rw [collect_forest children h.2 (by omega), Tree.keys]
      rfl

theorem collect_forest {reads : Reads ε} : ∀ {path : Str} (f : Forest), f.Holds reads path → ∀ {fuel : Nat},
    f.depth ≤ fuel → collectAll (collect r reads fuel) (f.names.map (childPath path)) =
      some (.ok ((f.keys path).map fun k => keyEntry r k.1 k.2))
  | path, .nil, _, fuel, _ => rfl
  | path, .cons name t rest, h, fuel, hfuel => by
    rw [Forest.Holds] at h
    rw [Forest.depth] at hfuel
    rw [Forest.names, List.map_cons, collectAll, collect_tree t h.1 (by omega)]
    dsimp only
    rw [collect_forest rest h.2 (by omega), Forest.keys, List.map_append]

end

/-- What a key and its values are asked to be. -/
def mirrorCalls (k : Str × List Record) : List (Call SD) :=
  .create k.1 ⟨true, true, false, false, false⟩ layer ::
    (k.2.filter fun v => v.ty ≠ r.types.tombstone).map fun v => .setValue k.1 v.name v.ty v.data layer

/-- The transaction that makes the same keys with the same values. -/
def mirror (keys : List (Str × List Record)) : List (Call SD) :=
  .begin :: (keys.flatMap (mirrorCalls r layer) ++ [.commit])

/-- A key that a document can hold: no slash in its path, and its values' names are UTF-8 and not `@`. -/
def Portable (k : Str × List Record) : Prop :=
  '/' ∉ k.1 ∧ ∀ v ∈ k.2, v.ty ≠ r.types.tombstone → (∃ s : Str, Utf8.encode s = v.name) ∧ v.name ≠ Utf8.encode ['@']

theorem backslashed_eq_iff (path : Str) : backslashed path = path ↔ '/' ∉ path := by
  induction path with
  | nil => simp [backslashed]
  | cons c path ih =>
    rw [backslashed, List.map_cons, ← backslashed, List.cons.injEq, ih, List.mem_cons, not_or]
    refine and_congr_left fun _ => ?_
    by_cases hc : c = '/'
    · subst hc
      decide
    · rw [if_neg hc]
      exact ⟨fun _ => Ne.symm hc, fun _ => rfl⟩

theorem flatMap_eq_iff {α β : Type} {f g : α → List β} (hlen : ∀ x, (f x).length = (g x).length) (xs : List α) :
    xs.flatMap f = xs.flatMap g ↔ ∀ x ∈ xs, f x = g x := by
  induction xs with
  | nil => simp
  | cons x xs ih =>
    rw [List.flatMap_cons, List.flatMap_cons, List.forall_mem_cons, ← ih]
    exact ⟨fun h => List.append_inj h (hlen x), fun h => by rw [h.1, h.2]⟩

/-- An exported key passes, and its values are read back. -/
theorem checkEntry_keyEntry (hr : r.Lawful) (parse : Sddl SD) (k : Str × List Record) :
    checkEntry r parse (keyEntry r k.1 k.2) =
      .ok ⟨k.1, (k.2.filter fun v => v.ty ≠ r.types.tombstone).map fun v => (readBack v.name, v.ty, v.data), none⟩ := by
  have hvalues : ((k.2.filter fun v => v.ty ≠ r.types.tombstone).map fun v => ValueEntry.of r v.name v.ty v.data).mapM
      (ValueEntry.bytes r) =
      .ok ((k.2.filter fun v => v.ty ≠ r.types.tombstone).map fun v => (readBack v.name, v.ty, v.data)) := by
    rw [Fallible.mapM_eq_ok, List.forall₂_map_left_iff, List.forall₂_map_right_iff, List.forall₂_same]
    exact fun v _ => bytes_of hr v.name v.ty v.data
  rw [checkEntry, keyEntry]
  dsimp only
  rw [hvalues]
  rfl

theorem mirrorCalls_eq_iff (k : Str × List Record) :
    entryCalls layer (⟨k.1, (k.2.filter fun v => v.ty ≠ r.types.tombstone).map fun v =>
      (readBack v.name, v.ty, v.data), none⟩ : Checked SD) = mirrorCalls r layer k ↔ Portable r k := by
  have hvalue : ∀ v : Record, v ∈ k.2.filter (fun v => v.ty ≠ r.types.tombstone) ↔ v ∈ k.2 ∧ v.ty ≠ r.types.tombstone :=
    fun v => by rw [List.mem_filter, decide_eq_true_iff]
  simp only [entryCalls, mirrorCalls, Option.toList_none, List.map_nil, List.append_nil, List.map_map, List.cons.injEq,
    Call.create.injEq, backslashed_eq_iff, and_true, List.map_inj_left, hvalue, Function.comp_apply,
    Call.setValue.injEq, accessFor, Option.any_none, Portable, readBack_eq_iff]
  constructor
  · rintro ⟨hpath, hall⟩
    exact ⟨hpath, fun v hv hty => (hall v ⟨hv, hty⟩).2⟩
  · rintro ⟨hpath, hall⟩
    exact ⟨hpath, fun v hv => ⟨hpath, hall v hv.1 hv.2⟩⟩

/-- What is exported can always be applied, and what `apply` asks for is the same keys, parents first, with the same
values, just where a document can hold them all. -/
theorem apply_export (hr : r.Lawful) (parse : Sddl SD) {reads : Reads ε} {path : Str} {t : Tree}
    (h : t.Holds reads path) {fuel : Nat} (hfuel : t.depth ≤ fuel) : ∃ doc entries,
      collect r reads fuel path = some (.ok doc) ∧ doc.mapM (checkEntry r parse) = .ok entries ∧
      (plan layer entries = mirror r layer (t.keys path) ↔ ∀ k ∈ t.keys path, Portable r k) := by
  refine ⟨_, (t.keys path).map fun k => ⟨k.1, (k.2.filter fun v => v.ty ≠ r.types.tombstone).map fun v =>
    (readBack v.name, v.ty, v.data), none⟩, collect_tree r t h hfuel, ?_, ?_⟩
  · rw [Fallible.mapM_eq_ok, List.forall₂_map_left_iff, List.forall₂_map_right_iff, List.forall₂_same]
    exact fun k _ => checkEntry_keyEntry r hr parse k
  · rw [plan, mirror, List.cons.injEq, List.append_left_inj, List.flatMap_map, flatMap_eq_iff]
    · simp only [true_and, mirrorCalls_eq_iff]
    · intro k
      simp [entryCalls, mirrorCalls]

end Mirror

/-- A key with two values and a subkey without any. -/
def someTree : Tree :=
  .node [⟨Utf8.encode ['V'], 1, [104, 0]⟩, ⟨[], 3, [1, 2]⟩] (.cons (Utf8.encode ['S']) (.node [] .nil) .nil)

/-- A registry that has it below `M`. -/
def someReads : Reads Unit := fun path =>
  if path = ['M'] then .ok (.ok [⟨Utf8.encode ['V'], 1, [104, 0]⟩, ⟨[], 3, [1, 2]⟩], .ok [Utf8.encode ['S']])
  else if path = ['M', '\\', 'S'] then .ok (.ok [], .ok [])
  else .error ()

theorem apply_export_some : ∃ doc entries, collect someRegistry someReads 2 ['M'] = some (.ok doc) ∧
    doc.mapM (checkEntry someRegistry fun _ => (.error "" : Except String (SecInfo × Unit))) = .ok entries ∧
    (plan none entries = mirror someRegistry none (someTree.keys ['M']) ↔
      ∀ k ∈ someTree.keys ['M'], Portable someRegistry k) :=
  apply_export someRegistry none someRegistry_lawful _
    (show someTree.Holds someReads ['M'] from ⟨rfl, ⟨rfl, trivial⟩, trivial⟩) (by decide)

end Peiosutils.RegDocs
