import Peiosutils.Regman.Corpus
import Peiosutils.Upgrade.Seeds

/-!
# Draining the queue (`reg apply --dir`)

`runDir` applies one queued file after the other, and unlinks each behind its commit. Files that fail stay, and do not
stop the others (`runDir_good`). Between the commit and the unlinking it may be interrupted, so a document may be
applied again; but through any interruptions of staging and draining, in whatever order, none is lost
(`turns_never_lose`). An upgrade that succeeds has applied all that was queued, whatever was left of earlier attempts
(`seeds_ok`).
-/

set_option autoImplicit false

namespace Peiosutils.Upgrade

open Interruption RegDocs
open Regman (fromUtf8 isWhitespace)

/-! ## The code -/

inductive Failure (ε : Type) where
  | usage (text : String)
  | syscall (op : String) (errno : Int) (file : List UInt8)
  | invalidSpec (text : String)
  | docs (e : RegDocs.Error ε)

/-- What `reg apply` is run with, and how the system answers it: the calls of a transaction depend on what the registry
has taken before it, and unlinking gives an error or none. -/
structure Reg (SD ε : Type) where
  registry : Registry
  sddl : Sddl SD
  json : Str → Except String Document
  layer : Option Str
  onceDelete : Bool
  answers : List Document → Calls.Answers (Call SD) Unit ε
  unlink : System → List UInt8 → Option Int

/-- What is between the separators of a key path. -/
def components (path : Str) : List Str := (path.splitOnP fun c => c = '/' || c = '\\').filter (· ≠ [])

section Code

variable {SD ε : Type} (reg : Reg SD ε)

def keyPathParse (path : Str) : Except (Failure ε) (List Str) :=
  if components path = [] then .error (.invalidSpec ("empty key path: " ++ String.ofList path))
  else .ok (components path)

/-- The document in a batch file. -/
def readDocument (file bytes : List UInt8) : Except (Failure ε) Document := do
  match fromUtf8 bytes with
  | none => throw (.syscall "read batch file" 5 file)
  | some text =>
    let trimmed := text.dropWhile isWhitespace
    if trimmed.head? = some '\x7b' || trimmed.head? = some '[' then
      match reg.json text with
      | .error e => throw (.invalidSpec ("batch JSON: " ++ e))
      | .ok doc => do
        doc.forM fun entry => discard (keyPathParse entry.path)
        return doc
    else throw (.usage ("text-format apply is not implemented yet (pending the §6.1 escaping " ++
      "grammar); supply a JSON batch, or use `reg export --json` to produce one"))

/-- The transaction of a document, behind others. -/
def transaction (before : List Document) (doc : Document) : Except (RegDocs.Error ε) Nat :=
  (Calls.runFrom (RegDocs.apply (reg.answers before) reg.layer reg.registry reg.sddl doc) []).1

/-- Behind the commit of a document. -/
def System.committed (s : System) (doc : Document) : System := { s with applied := s.applied ++ [doc] }

def System.unlinked (s : System) (file : List UInt8) : System := { s with queue := s.queue.erase file }

def applyDoc (doc : Document) : Steps System (Failure ε) Nat := do
  let result ← look fun s => transaction reg s.applied doc
  match result with
  | .error e => fail (.docs e)
  | .ok keys => do
    effect fun s => s.committed doc
    return keys

def removeFile (file : List UInt8) : Steps System (Failure ε) Unit := do
  let result ← look fun s => reg.unlink s file
  match result with
  | some errno => fail (.syscall "delete applied batch file" errno file)
  | none => effect fun s => s.unlinked file

def applyFile (file : List UInt8) : Steps System (Failure ε) Nat := do
  let bytes ← look fun s => s.queue[file]?
  match bytes with
  | none => fail (.syscall "read batch file" 2 file)
  | some bytes =>
    match readDocument reg file bytes with
    | .error e => fail e
    | .ok doc => do
      let applied ← applyDoc reg doc
      if reg.onceDelete then removeFile reg file
      return applied

structure Counts where
  appliedFiles : Nat
  appliedKeys : Nat
  failed : Nat
  deriving DecidableEq, Repr

def Counts.add (c : Counts) : Except (Failure ε) Nat → Counts
  | .ok keys => { c with appliedFiles := c.appliedFiles + 1, appliedKeys := c.appliedKeys + keys }
  | .error _ => { c with failed := c.failed + 1 }

def sweep : List (List UInt8) → Counts → Steps System (Failure ε) Counts
  | [], c => pure c
  | file :: files, c => do
    let result ← attempt (applyFile reg file)
    sweep files (c.add result)

/-- `reg apply --dir`. -/
def runDir : Steps System (Failure ε) Counts := do
  let files ← look fun s => s.queue.keys
  let counts ← sweep reg files ⟨0, 0, 0⟩
  if counts.failed > 0 then fail (.usage (toString counts.failed ++ " batch file(s) failed to apply"))
  else return counts

/-- Why an upgrade does not come to its end: a seed cannot be staged, or `reg` fails. -/
inductive Unfinished where
  | seeds (e : Error)
  | apply
  deriving DecidableEq, Repr

/-- The second half of an upgrade: the queue is drained at once, or by the next boot. -/
def seeds (onReboot : Bool) (masters : Str → Option (List UInt8)) (names : List Str) :
    Steps System Unfinished Unit := do
  let staged ← attempt (stageSeeds masters names)
  match staged with
  | .error e => fail (.seeds e)
  | .ok staged =>
    if onReboot || staged.isEmpty then pure ()
    else do
      let status ← attempt (runDir { reg with onceDelete := true })
      match status with
      | .error _ => fail .apply
      | .ok _ => pure ()

end Code

/-! ## One file -/

section One

variable {SD ε : Type} {reg : Reg SD ε} {s t : System}

/-- What can come of a file. -/
inductive Outcome (reg : Reg SD ε) (file : List UInt8) (s : System) : List System × Except (Failure ε) Nat → Prop
  | failed {e} (h : ∀ bytes doc keys, s.queue[file]? = some bytes → readDocument reg file bytes = .ok doc →
      transaction reg s.applied doc ≠ .ok keys) : Outcome reg file s ([], .error e)
  | stuck {bytes doc keys errno e} (hfile : s.queue[file]? = some bytes) (hdoc : readDocument reg file bytes = .ok doc)
      (hkeys : transaction reg s.applied doc = .ok keys) (honce : reg.onceDelete = true)
      (hunlink : reg.unlink (s.committed doc) file = some errno) : Outcome reg file s ([s.committed doc], .error e)
  | left {bytes doc keys} (hfile : s.queue[file]? = some bytes) (hdoc : readDocument reg file bytes = .ok doc)
      (hkeys : transaction reg s.applied doc = .ok keys) (honce : reg.onceDelete = false) :
      Outcome reg file s ([s.committed doc], .ok keys)
  | drained {bytes doc keys} (hfile : s.queue[file]? = some bytes) (hdoc : readDocument reg file bytes = .ok doc)
      (hkeys : transaction reg s.applied doc = .ok keys) (honce : reg.onceDelete = true)
      (hunlink : reg.unlink (s.committed doc) file = none) :
      Outcome reg file s ([s.committed doc, (s.committed doc).unlinked file], .ok keys)

theorem applyDoc_run (doc : Document) : (applyDoc reg doc).run s =
    match transaction reg s.applied doc with
    | .error e => ([], .error (.docs e))
    | .ok keys => ([s.committed doc], .ok keys) := by
  rw [applyDoc, run_look_bind]
  cases transaction reg s.applied doc with
  | error e => rfl
  | ok keys => rfl

theorem removeFile_run (file : List UInt8) : (removeFile reg file).run s =
    match reg.unlink s file with
    | some errno => ([], .error (.syscall "delete applied batch file" errno file))
    | none => ([s.unlinked file], .ok ()) := by
  rw [removeFile, run_look_bind]
  cases reg.unlink s file with
  | some errno => rfl
  | none => rfl

theorem applyFile_outcome (file : List UInt8) : Outcome reg file s ((applyFile reg file).run s) := by
  rw [applyFile, run_look_bind]
  cases hfile : s.queue[file]? with
  | none => exact .failed fun bytes doc keys h => (by rw [hfile] at h; cases h)
  | some bytes =>
    dsimp only
    cases hdoc : readDocument reg file bytes with
    | error e =>
      refine .failed fun bytes' doc keys h hdoc' => ?_
      rw [hfile] at h
      cases h
      rw [hdoc] at hdoc'
      cases hdoc'
    | ok doc =>
      dsimp only
      rw [run_bind, Steps.last, Steps.result, applyDoc_run]
      cases hkeys : transaction reg s.applied doc with
      | error e =>
        refine .failed fun bytes' doc' keys h hdoc' hkeys' => ?_
        rw [hfile] at h
        cases h
        rw [hdoc] at hdoc'
        cases hdoc'
        rw [hkeys] at hkeys'
        cases hkeys'
      | ok keys =>
        dsimp only [Steps.next, List.getLast?_singleton, Option.getD_some]
        cases honce : reg.onceDelete with
        | false => exact .left hfile hdoc hkeys honce
        | true =>
          rw [if_pos rfl, run_bind, Steps.last, Steps.result, removeFile_run]
          cases hunlink : reg.unlink (s.committed doc) file with
          | some errno => exact .stuck hfile hdoc hkeys honce hunlink
          | none => exact .drained hfile hdoc hkeys honce hunlink

end One

/-! ## Interruptions -/

section Kept

variable {SD ε : Type} {reg : Reg SD ε}

/-- A file is as it was, or its document has been taken since. -/
def Kept (reg : Reg SD ε) (file : List UInt8) (s t : System) : Prop := ∃ new, t.applied = s.applied ++ new ∧
  (t.queue[file]? = s.queue[file]? ∨ ∃ bytes doc, s.queue[file]? = some bytes ∧ t.queue[file]? = none ∧
    readDocument reg file bytes = .ok doc ∧ doc ∈ new)

theorem Kept.committed {file : List UInt8} {s₀ s : System} (h : Kept reg file s₀ s) (doc : Document) :
    Kept reg file s₀ (s.committed doc) := by
  obtain ⟨new, happlied, h⟩ := h
  refine ⟨new ++ [doc], ?_, h.imp_right ?_⟩
  · show s.applied ++ [doc] = _
    rw [happlied, List.append_assoc]
  · rintro ⟨bytes, doc', hfile, hgone, hdoc', hmem⟩
    exact ⟨bytes, doc', hfile, hgone, hdoc', List.mem_append_left _ hmem⟩

theorem unlinked_getElem? (s : System) (file file' : List UInt8) :
    (s.unlinked file).queue[file']? = if file' = file then none else s.queue[file']? := by
  show (s.queue.erase file)[file']? = _
  rw [Std.ExtTreeMap.getElem?_erase]
  refine if_congr ?_ rfl rfl
  rw [Std.LawfulEqCmp.compare_eq_iff_eq]
  exact eq_comm

/-- What is unlinked has just been committed. -/
theorem Kept.drained {file other : List UInt8} {s₀ s : System} (h : Kept reg file s₀ s) {bytes : List UInt8}
    {doc : Document} (hother : s.queue[other]? = some bytes) (hdoc : readDocument reg other bytes = .ok doc) :
    Kept reg file s₀ ((s.committed doc).unlinked other) := by
  have hcommitted := h.committed doc
  obtain ⟨new, happlied, h⟩ := h
  obtain ⟨new', happlied', h'⟩ := hcommitted
  refine ⟨new', happlied', ?_⟩
  rw [unlinked_getElem?]
  by_cases heq : file = other
  · subst heq
    rw [if_pos rfl]
    have hnew : doc ∈ new' := by
      have happ : s₀.applied ++ (new ++ [doc]) = s₀.applied ++ new' := by
        rw [← happlied', ← List.append_assoc, ← happlied]
        rfl
      rw [← List.append_cancel_left happ]
      exact List.mem_append_right _ (List.mem_singleton_self doc)
    rcases h with h | ⟨bytes', doc', -, hgone, -⟩
    · exact .inr ⟨bytes, doc, h ▸ hother, rfl, hdoc, hnew⟩
    · rw [hgone] at hother
      cases hother
  · rw [if_neg heq]
    exact h'

theorem keeps_applyFile (file other : List UInt8) : Keeps (Kept reg file) (applyFile reg other) := by
  intro s₀ s t h ht
  rcases ht with rfl | ht
  · exact h
  · generalize hrun : (applyFile reg other).run s = r at ht
    have houtcome : Outcome reg other s ((applyFile reg other).run s) := applyFile_outcome other
    rw [hrun] at houtcome
    cases houtcome with
    | failed => cases ht
    | stuck => exact List.mem_singleton.1 ht ▸ h.committed _
    | left => exact List.mem_singleton.1 ht ▸ h.committed _
    | drained hfile hdoc =>
      rcases List.mem_pair.1 ht with rfl | rfl
      · exact h.committed _
      · exact h.drained hfile hdoc

theorem keeps_sweep {R : System → System → Prop} (h : ∀ file, Keeps R (applyFile reg file))
    (files : List (List UInt8)) : ∀ c, Keeps R (sweep reg files c) := by
  induction files with
  | nil => exact fun c => keeps_pure c
  | cons file files ih => exact fun c => (h file).attempt.bind fun result => ih _

theorem keeps_runDir {R : System → System → Prop} (h : ∀ file, Keeps R (applyFile reg file)) :
    Keeps R (runDir reg) := by
  refine (keeps_look _).bind fun files => (keeps_sweep h files _).bind fun counts => ?_
  split
  · exact keeps_fail _
  · exact keeps_pure _

/-- Staging leaves what it does not name. -/
theorem keeps_stage {masters : Str → Option (List UInt8)} {names : List Str} {file : List UInt8}
    (hfile : ∀ name ∈ names, file ≠ seedFile name) : Keeps (Kept reg file) (stageSeeds masters names) := by
  intro s₀ s t ⟨new, happlied, h⟩ ht
  have hattempted : Attempted (staged masters names) s t :=
    keeps_stageSeeds s s t ⟨fun _ _ => rfl, .inl rfl, rfl⟩ ht
  refine ⟨new, hattempted.applied.trans happlied, ?_⟩
  rwa [hattempted.queue file fun name hname => hfile name (List.takeWhile_subset _ hname)]

theorem keeps_seeds {onReboot : Bool} {masters : Str → Option (List UInt8)} {names : List Str} {file : List UInt8}
    (hfile : ∀ name ∈ names, file ≠ seedFile name) : Keeps (Kept reg file) (seeds reg onReboot masters names) := by
  refine (keeps_stage hfile).attempt.bind fun staged => ?_
  split
  · exact keeps_fail _
  · split
    · exact keeps_pure _
    · have hrun : Keeps (Kept { reg with onceDelete := true } file) (runDir { reg with onceDelete := true }) :=
        keeps_runDir fun other => keeps_applyFile file other
      have hkeeps : Keeps (Kept reg file) (runDir { reg with onceDelete := true }) := hrun
      refine hkeeps.attempt.bind fun status => ?_
      split
      · exact keeps_fail _
      · exact keeps_pure _

/-- What happens to a system: the queue is drained, or an upgrade is attempted whose seeds are not in some file. Both
may be interrupted. -/
inductive Turn (reg : Reg SD ε) (file : List UInt8) (s t : System) : Prop
  | drain (h : Interrupted (runDir reg) s t)
  | upgrade {onReboot : Bool} {masters : Str → Option (List UInt8)} {names : List Str}
      (hfile : ∀ name ∈ names, file ≠ seedFile name) (h : Interrupted (seeds reg onReboot masters names) s t)

/-- However turns are interrupted, what is queued stays in the queue until the registry has taken it. -/
theorem turns_never_lose {file : List UInt8} {s t : System} (h : Relation.ReflTransGen (Turn reg file) s t)
    {bytes : List UInt8} (hfile : s.queue[file]? = some bytes) : ∃ new, t.applied = s.applied ++ new ∧
      (t.queue[file]? = some bytes ∨
        t.queue[file]? = none ∧ ∃ doc, readDocument reg file bytes = .ok doc ∧ doc ∈ new) := by
  have hkept : Kept reg file s t := by
    induction h with
    | refl => exact ⟨[], (List.append_nil _).symm, .inl rfl⟩
    | tail _ hturn ih =>
      cases hturn with
      | drain h => exact keeps_runDir (fun other => keeps_applyFile file other) _ _ _ ih h
      | upgrade hfile h => exact keeps_seeds hfile _ _ _ ih h
  obtain ⟨new, happlied, h | ⟨bytes', doc, hfile', hgone, hdoc, hmem⟩⟩ := hkept
  · exact ⟨new, happlied, .inl (h.trans hfile)⟩
  · rw [hfile] at hfile'
    cases hfile'
    exact ⟨new, happlied, .inr ⟨hgone, doc, hdoc, hmem⟩⟩

def someFile : List UInt8 := [97]

def someBytes : List UInt8 := [123, 125]

def someDocument : Document := [⟨['M'], [], none⟩]

/-- A registry that takes the same document from each file. -/
def someReg : Reg Unit Unit where
  registry := someRegistry
  sddl := fun _ => .error ""
  json := fun _ => .ok someDocument
  layer := none
  onceDelete := true
  answers := fun _ _ _ => .ok ()
  unlink := fun _ _ => none

/-- A system that has a script, and one queued file. -/
def someSystem : System := ⟨(∅ : Queue).insert someFile someBytes, some ⟨[], true⟩, []⟩

theorem someSystem_queue : someSystem.queue[someFile]? = some someBytes := Std.ExtTreeMap.getElem?_insert_self

theorem turns_never_lose_some : ∃ new, ((runDir someReg).last someSystem).applied = someSystem.applied ++ new ∧
    (((runDir someReg).last someSystem).queue[someFile]? = some someBytes ∨
      ((runDir someReg).last someSystem).queue[someFile]? = none ∧
        ∃ doc, readDocument someReg someFile someBytes = .ok doc ∧ doc ∈ new) :=
  turns_never_lose (.single (.drain interrupted_last)) someSystem_queue

end Kept

/-! ## A sweep that is not interrupted -/

section Complete

variable {SD ε : Type} {reg : Reg SD ε} {s : System}

theorem sweep_cons (file : List UInt8) (files : List (List UInt8)) (c : Counts) :
    (sweep reg (file :: files) c).last s =
      (sweep reg files (c.add ((applyFile reg file).result s))).last ((applyFile reg file).last s) ∧
    (sweep reg (file :: files) c).result s =
      (sweep reg files (c.add ((applyFile reg file).result s))).result ((applyFile reg file).last s) :=
  bind_attempt _ _ _

/-- A sweep comes to its end, and counts each file. -/
theorem sweep_counts (files : List (List UInt8)) (c : Counts) : ∃ c', (sweep reg files c).result s = .ok c' ∧
    c'.appliedFiles + c'.failed = c.appliedFiles + c.failed + files.length ∧ c.failed ≤ c'.failed := by
  induction files generalizing s c with
  | nil => exact ⟨c, rfl, rfl, le_refl _⟩
  | cons file files ih =>
    obtain ⟨c', hc', hsum, hle⟩ := ih (s := (applyFile reg file).last s) (c.add ((applyFile reg file).result s))
    refine ⟨c', (sweep_cons file files c).2.trans hc', ?_⟩
    rw [List.length_cons]
    cases hresult : (applyFile reg file).result s with
    | error e =>
      rw [hresult] at hsum hle
      simp only [Counts.add] at hsum hle
      omega
    | ok keys =>
      rw [hresult] at hsum hle
      simp only [Counts.add] at hsum hle
      omega

/-- What a file does to the others, and to itself if it comes to its end. -/
theorem applyFile_last (file : List UInt8) : ((applyFile reg file).last s).script = s.script ∧
    (∀ other, other ≠ file → ((applyFile reg file).last s).queue[other]? = s.queue[other]?) ∧
    (s.queue[file]? = none → ((applyFile reg file).last s).queue[file]? = none) ∧
    (reg.onceDelete = true → ∀ keys, (applyFile reg file).result s = .ok keys → ∃ bytes doc,
      s.queue[file]? = some bytes ∧ readDocument reg file bytes = .ok doc ∧
        (applyFile reg file).last s = (s.committed doc).unlinked file) := by
  have houtcome : Outcome reg file s ((applyFile reg file).run s) := applyFile_outcome file
  rw [Steps.last, Steps.result]
  generalize (applyFile reg file).run s = r at houtcome
  cases houtcome with
  | failed => exact ⟨rfl, fun _ _ => rfl, id, fun _ keys h => (by cases h)⟩
  | stuck => exact ⟨rfl, fun _ _ => rfl, id, fun _ keys h => (by cases h)⟩
  | left _ _ _ honce =>
    refine ⟨rfl, fun _ _ => rfl, id, fun h => ?_⟩
    rw [honce] at h
    cases h
  | drained hfile hdoc =>
    refine ⟨rfl, fun other hother => ?_, fun _ => ?_, fun _ keys _ => ⟨_, _, hfile, hdoc, rfl⟩⟩
    · exact (unlinked_getElem? _ file other).trans (if_neg hother)
    · exact (unlinked_getElem? _ file file).trans (if_pos rfl)

/-- A sweep in which nothing fails has applied each file in its turn, and has left none of them. -/
theorem sweep_ok (honce : reg.onceDelete = true) {files : List (List UInt8)} (hnodup : files.Nodup) {c c' : Counts}
    (hresult : (sweep reg files c).result s = .ok c') (hfailed : c'.failed = 0) :
    ((sweep reg files c).last s).script = s.script ∧
    (∀ file ∈ files, ((sweep reg files c).last s).queue[file]? = none) ∧
    (∀ file ∉ files, ((sweep reg files c).last s).queue[file]? = s.queue[file]?) ∧
    ∃ docs, List.Forall₂ (fun file doc => ∃ bytes, s.queue[file]? = some bytes ∧ readDocument reg file bytes = .ok doc)
      files docs ∧ ((sweep reg files c).last s).applied = s.applied ++ docs := by
  induction files generalizing s c with
  | nil => exact ⟨rfl, fun _ h => absurd h List.not_mem_nil, fun _ _ => rfl, [], .nil, (List.append_nil _).symm⟩
  | cons file files ih =>
    obtain ⟨hlast, hresult'⟩ := @sweep_cons _ _ reg s file files c
    rw [hresult'] at hresult
    obtain ⟨hscript, hothers, -, hok⟩ := @applyFile_last _ _ reg s file
    rw [List.nodup_cons] at hnodup
    obtain ⟨hscript', hdrained, hleft, docs, hdocs, happlied⟩ := ih hnodup.2 hresult
    obtain ⟨c'', hc'', -, hle⟩ := @sweep_counts _ _ reg ((applyFile reg file).last s) files
      (c.add ((applyFile reg file).result s))
    rw [hresult] at hc''
    cases hc''
    cases hfile : (applyFile reg file).result s with
    | error e =>
      rw [hfile] at hle
      simp only [Counts.add] at hle
      omega
    | ok keys =>
      obtain ⟨bytes, doc, hbytes, hdoc, hgone⟩ := hok honce keys hfile
      have hnone : ((applyFile reg file).last s).queue[file]? = none := by
        rw [hgone, unlinked_getElem?, if_pos rfl]
      rw [hlast]
      refine ⟨hscript'.trans hscript, List.forall_mem_cons.2 ⟨?_, hdrained⟩, fun other hother => ?_, doc :: docs,
        .cons ⟨bytes, hbytes, hdoc⟩ ?_, ?_⟩
      · rw [hleft file hnodup.1, hnone]
      · rw [List.mem_cons, not_or] at hother
        rw [hleft other hother.2, hothers other hother.1]
      · refine hdocs.imp fun other doc' ⟨bytes', hbytes', hdoc'⟩ => ⟨bytes', ?_, hdoc'⟩
        rw [← hothers other ?_, hbytes']
        rintro rfl
        rw [hnone] at hbytes'
        cases hbytes'
      · rw [happlied, hgone]
        show s.applied ++ [doc] ++ docs = _
        rw [List.append_assoc]
        rfl

theorem Kept.refl (file : List UInt8) (s : System) : Kept reg file s s := ⟨[], (List.append_nil _).symm, .inl rfl⟩

/-- What a sweep does to a file comes of that file alone: those before it leave it, and those behind it leave nothing of
it that was unlinked. -/
theorem sweep_good {file : List UInt8} {bytes : List UInt8} {doc : Document} (honce : reg.onceDelete = true)
    (hdoc : readDocument reg file bytes = .ok doc) (htaken : ∀ before, ∃ keys, transaction reg before doc = .ok keys)
    (hunlink : ∀ s, reg.unlink s file = none) {files : List (List UInt8)} (hmem : file ∈ files)
    (hfile : s.queue[file]? = some bytes) (c : Counts) :
    ((sweep reg files c).last s).queue[file]? = none ∧
      ∃ before after, ((sweep reg files c).last s).applied = s.applied ++ before ++ doc :: after := by
  induction files generalizing s c with
  | nil => cases hmem
  | cons other files ih =>
    rw [(sweep_cons other files c).1]
    by_cases heq : file = other
    · subst heq
      have hlast : (applyFile reg file).last s = (s.committed doc).unlinked file := by
        have houtcome : Outcome reg file s ((applyFile reg file).run s) := applyFile_outcome file
        rw [Steps.last]
        generalize (applyFile reg file).run s = r at houtcome
        cases houtcome with
        | failed h =>
          obtain ⟨keys, hkeys⟩ := htaken s.applied
          exact absurd hkeys (h bytes doc keys hfile hdoc)
        | stuck _ _ _ _ h =>
          rw [hunlink] at h
          cases h
        | left _ _ _ h =>
          rw [honce] at h
          cases h
        | drained hfile' hdoc' =>
          rw [hfile] at hfile'
          cases hfile'
          rw [hdoc] at hdoc'
          cases hdoc'
          rfl
      rw [hlast]
      obtain ⟨after, happlied, hqueue⟩ := keeps_sweep (fun other => keeps_applyFile file other) files
        (c.add ((applyFile reg file).result s)) _ _ _ (Kept.refl file ((s.committed doc).unlinked file))
        interrupted_last
      have hnone : ((s.committed doc).unlinked file).queue[file]? = none := by
        rw [unlinked_getElem?, if_pos rfl]
      refine ⟨?_, [], after, ?_⟩
      · rcases hqueue with hqueue | ⟨_, _, hqueue, -⟩
        · rw [hqueue, hnone]
        · rw [hnone] at hqueue
          cases hqueue
      · rw [happlied, List.append_nil, List.append_cons]
        rfl
    · obtain ⟨-, hothers, -⟩ := @applyFile_last _ _ reg s other
      obtain ⟨new, happlied, -⟩ := @keeps_applyFile _ _ reg file other s s _ (Kept.refl file s) interrupted_last
      obtain ⟨hgone, before, after, hrest⟩ := ih (List.mem_of_ne_of_mem heq hmem) ((hothers file heq).trans hfile)
        (c.add ((applyFile reg other).result s))
      refine ⟨hgone, new ++ before, after, ?_⟩
      rw [hrest, happlied]
      simp only [List.append_assoc]

theorem runDir_last (s : System) : (runDir reg).last s = (sweep reg s.queue.keys ⟨0, 0, 0⟩).last s ∧
    ∀ c, (runDir reg).result s = .ok c → (sweep reg s.queue.keys ⟨0, 0, 0⟩).result s = .ok c ∧ c.failed = 0 := by
  obtain ⟨c', hc', -⟩ := @sweep_counts _ _ reg s s.queue.keys ⟨0, 0, 0⟩
  have hrun := run_look_bind (s := s) (fun s => s.queue.keys) fun files => do
    let counts ← sweep reg files ⟨0, 0, 0⟩
    if counts.failed > 0 then fail (.usage (toString counts.failed ++ " batch file(s) failed to apply"))
    else return counts
  have hbind := bind_ok (f := fun counts => if counts.failed > 0 then
    fail (.usage (toString counts.failed ++ " batch file(s) failed to apply")) else return counts) hc'
  rw [Steps.last, Steps.result, runDir, hrun, ← Steps.last, ← Steps.result, hbind.1, hbind.2]
  split
  · exact ⟨rfl, fun c h => (by cases h)⟩
  · rename_i hfailed
    refine ⟨rfl, fun c h => ?_⟩
    cases h
    exact ⟨hc', Nat.eq_zero_of_not_pos hfailed⟩

/-- Of seeds that can all be staged none is left out. -/
theorem staged_eq {masters : Str → Option (List UInt8)} {names : List Str}
    (hok : names.forM (checkSeed masters) = .ok ()) :
    staged masters names = names ∧ ∀ name ∈ names, ∃ bytes, masters name = some bytes := by
  induction names with
  | nil => exact ⟨rfl, fun _ h => (by cases h)⟩
  | cons name names ih =>
    obtain ⟨u, hcheck, hrest⟩ := Fallible.bind_eq_ok.1
      (show (checkSeed masters name >>= fun _ => names.forM (checkSeed masters)) = .ok () from hok)
    obtain ⟨hstaged, hmasters⟩ := ih hrest
    refine ⟨?_, List.forall_mem_cons.2 ⟨?_, hmasters⟩⟩
    · rw [staged, List.takeWhile_cons, hcheck]
      show name :: staged masters names = _
      rw [hstaged]
    · rw [checkSeed] at hcheck
      split at hcheck
      · cases hmaster : masters name with
        | none =>
          rw [hmaster] at hcheck
          cases hcheck
        | some bytes => exact ⟨bytes, rfl⟩
      · cases hcheck

theorem seedFile_inj {name name' : Str} : seedFile name = seedFile name' ↔ name = name' := by
  refine ⟨fun h => ?_, congrArg seedFile⟩
  have hsome : fromUtf8 (seedFile name) = some (name' ++ ".reg".toList) := Regman.fromUtf8_eq_some.2 h
  rw [seedFile, Regman.fromUtf8_eq_some.2 rfl] at hsome
  exact List.append_cancel_right (Option.some.inj hsome)

theorem overlay_other {masters : Str → Option (List UInt8)} {names : List Str} {queue : Queue} {file : List UInt8}
    (hfile : ∀ name ∈ names, file ≠ seedFile name) : (overlay masters names queue)[file]? = queue[file]? := by
  induction names generalizing queue with
  | nil => rfl
  | cons name names ih =>
    rw [List.forall_mem_cons] at hfile
    refine (ih hfile.2).trans ?_
    rw [Std.ExtTreeMap.getElem?_insert, if_neg]
    rw [Std.LawfulEqCmp.compare_eq_iff_eq]
    exact fun h => hfile.1 h.symm

theorem overlay_named {masters : Str → Option (List UInt8)} {names : List Str} {queue : Queue} {name : Str}
    (hname : name ∈ names) : (overlay masters names queue)[seedFile name]? = some ((masters name).getD []) := by
  induction names generalizing queue with
  | nil => cases hname
  | cons other names ih =>
    by_cases hmem : name ∈ names
    · exact ih hmem
    · have hother : other = name := by
        rcases List.mem_cons.1 hname with h | h
        · exact h.symm
        · exact absurd h hmem
      subst hother
      have hothers : ∀ name ∈ names, seedFile other ≠ seedFile name := by
        intro name hname h
        rw [seedFile_inj] at h
        exact hmem (h ▸ hname)
      refine (overlay_other hothers).trans ?_
      rw [Std.ExtTreeMap.getElem?_insert, if_pos]
      exact Std.LawfulEqCmp.compare_eq_iff_eq.2 rfl

/-- The part of an upgrade that succeeds: staging, and then a sweep without a failure. -/
theorem seeds_run {masters : Str → Option (List UInt8)} {names : List Str} (hnames : names ≠ [])
    (hok : (seeds reg false masters names).result s = .ok ()) : ∃ c, names.forM (checkSeed masters) = .ok () ∧
      (runDir { reg with onceDelete := true }).result ((stageSeeds masters names).last s) = .ok c ∧
      (seeds reg false masters names).last s =
        (runDir { reg with onceDelete := true }).last ((stageSeeds masters names).last s) := by
  have hresult := (@stageSeeds_run masters names s).1
  rw [seeds, (bind_attempt _ _ _).2] at hok
  rw [seeds, (bind_attempt _ _ _).1]
  cases hcheck : names.forM (checkSeed masters) with
  | error e =>
    rw [hresult, hcheck] at hok
    cases hok
  | ok u =>
    have hdrain : (false || names.isEmpty) = false := by
      rw [Bool.false_or, List.isEmpty_eq_false_iff]
      exact hnames
    rw [hcheck] at hresult
    rw [hresult] at hok ⊢
    dsimp only [Except.map] at hok ⊢
    rw [hdrain, if_neg Bool.false_ne_true, (bind_attempt _ _ _).2] at hok
    rw [hdrain, if_neg Bool.false_ne_true, (bind_attempt _ _ _).1]
    cases hrun : (runDir { reg with onceDelete := true }).result ((stageSeeds masters names).last s) with
    | error e =>
      rw [hrun] at hok
      cases hok
    | ok c => exact ⟨c, rfl, rfl, rfl⟩

/-- An upgrade that succeeds has applied all that is queued, each file once and in the order of the names, and leaves
none. The seeds of the release are among them as they were shipped, whatever earlier attempts had left. -/
theorem seeds_ok {masters : Str → Option (List UInt8)} {names : List Str} (hnames : names ≠ [])
    (hok : (seeds reg false masters names).result s = .ok ()) :
    ((seeds reg false masters names).last s).queue = ∅ ∧
    ((seeds reg false masters names).last s).script = some (s.script.getD ⟨drain, true⟩) ∧
    ∃ docs, List.Forall₂ (fun file doc => ∃ bytes, (overlay masters names s.queue)[file]? = some bytes ∧
        readDocument reg file bytes = .ok doc) (overlay masters names s.queue).keys docs ∧
      ((seeds reg false masters names).last s).applied = s.applied ++ docs ∧
      ∀ name ∈ names, ∃ bytes doc, masters name = some bytes ∧ readDocument reg (seedFile name) bytes = .ok doc ∧
        doc ∈ docs := by
  obtain ⟨c, hcheck, hrun, hlast⟩ := seeds_run hnames hok
  obtain ⟨hstaged, hmasters⟩ := staged_eq hcheck
  obtain ⟨hsweep, hzero⟩ := (runDir_last _).2 c hrun
  rw [hlast, (runDir_last _).1]
  obtain ⟨hscript, hdrained, hleft, docs, hdocs, happlied⟩ := sweep_ok rfl Std.ExtTreeMap.nodup_keys hsweep hzero
  have hstage := (@stageSeeds_run masters names s).2
  rw [hcheck, hstaged] at hstage
  rw [hstage] at hscript hdocs happlied hdrained hleft ⊢
  refine ⟨Std.ExtTreeMap.ext_getElem? fun file => ?_, hscript, docs, hdocs, happlied, fun name hname => ?_⟩
  · rw [Std.ExtTreeMap.getElem?_empty]
    by_cases hfile : file ∈ (overlay masters names s.queue).keys
    · exact hdrained file hfile
    · rw [hleft file hfile]
      rw [Std.ExtTreeMap.mem_keys, Std.ExtTreeMap.mem_iff_isSome_getElem?] at hfile
      exact Option.not_isSome_iff_eq_none.1 hfile
  · obtain ⟨bytes, hbytes⟩ := hmasters name hname
    have hstaged : (overlay masters names s.queue)[seedFile name]? = some bytes := by
      rw [overlay_named hname, hbytes]
      rfl
    have hkey : seedFile name ∈ (overlay masters names s.queue).keys := by
      rw [Std.ExtTreeMap.mem_keys, Std.ExtTreeMap.mem_iff_isSome_getElem?, hstaged]
      rfl
    obtain ⟨doc, hmem, bytes', hbytes', hdoc⟩ := Fallible.exists_of_mem hdocs hkey
    rw [hstaged] at hbytes'
    cases hbytes'
    exact ⟨bytes, doc, hbytes, hdoc, hmem⟩

theorem seeds_ok_some :
    ((seeds someReg false (fun _ => some someBytes) [['a']]).last someSystem).queue = ∅ ∧
    ((seeds someReg false (fun _ => some someBytes) [['a']]).last someSystem).script =
      some (someSystem.script.getD ⟨drain, true⟩) ∧
    ∃ docs, List.Forall₂ (fun file doc => ∃ bytes,
        (overlay (fun _ => some someBytes) [['a']] someSystem.queue)[file]? = some bytes ∧
          readDocument someReg file bytes = .ok doc)
        (overlay (fun _ => some someBytes) [['a']] someSystem.queue).keys docs ∧
      ((seeds someReg false (fun _ => some someBytes) [['a']]).last someSystem).applied = someSystem.applied ++ docs ∧
      ∀ name ∈ [['a']], ∃ bytes doc, some someBytes = some bytes ∧
        readDocument someReg (seedFile name) bytes = .ok doc ∧ doc ∈ docs :=
  seeds_ok (by decide) (by rfl)

end Complete

end Peiosutils.Upgrade
