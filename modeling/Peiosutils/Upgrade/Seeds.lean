import Mathlib.Data.List.Infix
import Std.Data.ExtTreeMap
import Peiosutils.Lib.Interrupted
import Peiosutils.RegDocs.Batch

/-!
# Staging the seeds of a release (`upgrade-peios`)

`stageSeeds` copies each seed that a release names into the queue of `reg apply`, and places the script that drains the
queue at boot. It may be interrupted behind every byte. Running it again writes each seed anew, but a script that is
there stays as it is: an interrupted upgrade is completed just where no attempt was cut off between making the script
and making it executable (`stage_again`).
-/

set_option autoImplicit false

namespace Peiosutils.Upgrade

open Interruption RegDocs

/-! ## The code -/

/-- The files of `autoapply.d` by name, in the order of the names; a directory that is not there has none. -/
abbrev Queue := Std.ExtTreeMap (List UInt8) (List UInt8)

/-- `10-apply-seeds.sh`. -/
structure Script where
  text : List UInt8
  executable : Bool
  deriving DecidableEq, Repr

/-- What of a system the seeds have to do with; the documents that the registry has taken come in their order. -/
structure System where
  queue : Queue
  script : Option Script
  applied : List Document

inductive Error where
  | invalidSeed (name : Str)
  | missing (name : Str)
  deriving DecidableEq, Repr

@[irreducible]
def drain : List UInt8 := Utf8.utf8 ("#!/bin/sh
# Placed by peiso / upgrade-peios. Apply the queued registry seeds, draining
# each after it applies (--once-delete). Run every boot by peinit; a no-op
# once the queues are empty.
#
# Two directories, in this order: autoapply.d is what this system applies
# wherever it is running, autoapply.live.d is what only a boot medium applies.
# An installed machine has no second directory, and `reg apply --dir` on one
# that is not there applies nothing and succeeds -- so this is the same script
# on both, which is what lets peiso and upgrade-peios write the same one.
set -e
/bin/reg apply --dir /lcl/policy/autoapply.d --once-delete
exec /bin/reg apply --dir /lcl/policy/autoapply.live.d --once-delete
")

def seedFile (name : Str) : List UInt8 := Utf8.encode (name ++ ".reg".toList)

/-- What a file has in it while it is written. -/
def prefixes (bytes : List UInt8) : List (List UInt8) := (List.range (bytes.length + 1)).map fun n => bytes.take n

/-- `fs::write`: the file is emptied, and grows. A write that fails leaves what an interruption leaves. -/
def writeSeed (file bytes : List UInt8) : Steps System Error Unit :=
  (prefixes bytes).forM fun p => effect fun s => { s with queue := s.queue.insert file p }

def validName (name : Str) : Bool := !(name.isEmpty || name.contains '/' || name.head? == some '.')

/-- One seed; the masters are the files that packages ship. -/
def stageSeed (masters : Str → Option (List UInt8)) (name : Str) : Steps System Error Unit :=
  if validName name then
    match masters name with
    | some bytes => writeSeed (seedFile name) bytes
    | none => fail (.missing name)
  else fail (.invalidSeed name)

/-- The script with a text, where there is none. -/
def placeText (text : List UInt8) : Steps System Error Unit := do
  let there ← look fun s => s.script.isSome
  if there then pure ()
  else do
    (prefixes text).forM fun p => effect fun s => { s with script := some ⟨p, false⟩ }
    effect fun s => { s with script := some ⟨text, true⟩ }

def placeScript : Steps System Error Unit := placeText drain

def stageSeeds (masters : Str → Option (List UInt8)) (names : List Str) : Steps System Error (List Str) := do
  names.forM (stageSeed masters)
  placeScript
  return names

/-! ## A run that is not interrupted -/

theorem prefixes_eq (bytes : List UInt8) :
    prefixes bytes = ((List.range bytes.length).map fun n => bytes.take n) ++ [bytes] := by
  rw [prefixes, List.range_succ, List.map_append, List.map_singleton, List.take_length]

theorem forM_effect (f : List UInt8 → System → System) (ps : List (List UInt8)) (s : System) :
    (ps.forM fun p => (effect (f p) : Steps System Error Unit)).result s = .ok () ∧
      (ps.forM fun p => (effect (f p) : Steps System Error Unit)).last s = ps.foldl (fun s p => f p s) s := by
  induction ps generalizing s with
  | nil => exact ⟨rfl, rfl⟩
  | cons p ps ih =>
    have h := bind_ok (p := (effect (f p) : Steps System Error Unit)) (s := s) (a := ())
      (f := fun _ => ps.forM fun p => effect (f p)) rfl
    exact ⟨h.2.trans (ih _).1, h.1.trans (ih _).2⟩

/-- Of a file that is written again and again only the last text is left. -/
theorem foldl_insert (file last : List UInt8) (ps : List (List UInt8)) (s : System) :
    (ps ++ [last]).foldl (fun s p => { s with queue := s.queue.insert file p }) s =
      { s with queue := s.queue.insert file last } := by
  induction ps generalizing s with
  | nil => rfl
  | cons p ps ih =>
    rw [List.cons_append, List.foldl_cons, ih]
    have h : (s.queue.insert file p).insert file last = s.queue.insert file last := by
      refine Std.ExtTreeMap.ext_getElem? fun k => ?_
      rw [Std.ExtTreeMap.getElem?_insert, Std.ExtTreeMap.getElem?_insert, Std.ExtTreeMap.getElem?_insert]
      split <;> rfl
    rw [h]

theorem foldl_script (last : Script) (ps : List (List UInt8)) (s : System) :
    { ps.foldl (fun s p => { s with script := some ⟨p, false⟩ }) s with script := some last } =
      ({ s with script := some last } : System) := by
  induction ps generalizing s with
  | nil => rfl
  | cons p ps ih => rw [List.foldl_cons, ih]

theorem writeSeed_run (file bytes : List UInt8) (s : System) : (writeSeed file bytes).result s = .ok () ∧
    (writeSeed file bytes).last s = { s with queue := s.queue.insert file bytes } := by
  have h := forM_effect (fun p s => { s with queue := s.queue.insert file p }) (prefixes bytes) s
  exact ⟨h.1, h.2.trans (by rw [prefixes_eq, foldl_insert])⟩

/-- Whether a seed can be staged has nothing to do with the state. -/
def checkSeed (masters : Str → Option (List UInt8)) (name : Str) : Except Error Unit :=
  if validName name then
    match masters name with
    | some _ => .ok ()
    | none => .error (.missing name)
  else .error (.invalidSeed name)

/-- The seeds up to the first that cannot be staged. -/
def staged (masters : Str → Option (List UInt8)) (names : List Str) : List Str :=
  names.takeWhile fun name => (checkSeed masters name).isOk

/-- The queue with seeds in it. -/
def overlay (masters : Str → Option (List UInt8)) (names : List Str) (queue : Queue) : Queue :=
  names.foldl (fun q name => q.insert (seedFile name) ((masters name).getD [])) queue

variable {masters : Str → Option (List UInt8)} {names : List Str}

theorem stageSeed_run (name : Str) (s : System) : (stageSeed masters name).result s = checkSeed masters name ∧
    (stageSeed masters name).last s = { s with queue := overlay masters (staged masters [name]) s.queue } := by
  rw [stageSeed, staged, List.takeWhile_cons, List.takeWhile_nil, checkSeed]
  split
  · cases hmaster : masters name with
    | none => exact ⟨rfl, rfl⟩
    | some bytes =>
      obtain ⟨hresult, hlast⟩ := writeSeed_run (seedFile name) bytes s
      refine ⟨hresult, hlast.trans ?_⟩
      have hstaged : (if (Except.ok () : Except Error Unit).isOk then [name] else []) = [name] := rfl
      rw [hstaged, overlay, List.foldl_cons, List.foldl_nil, hmaster]
      rfl
  · exact ⟨rfl, rfl⟩

theorem forM_stageSeed (s : System) :
    (names.forM (stageSeed masters)).result s = names.forM (checkSeed masters) ∧
      (names.forM (stageSeed masters)).last s = { s with queue := overlay masters (staged masters names) s.queue } := by
  induction names generalizing s with
  | nil => exact ⟨rfl, rfl⟩
  | cons name names ih =>
    obtain ⟨hresult, hlast⟩ := @stageSeed_run masters name s
    have hforM : (name :: names).forM (checkSeed masters) =
        (checkSeed masters name >>= fun _ => names.forM (checkSeed masters)) := rfl
    rw [hforM, staged, List.takeWhile_cons]
    rw [staged, List.takeWhile_cons, List.takeWhile_nil] at hlast
    cases hcheck : checkSeed masters name with
    | error e =>
      rw [hcheck] at hresult hlast
      have h := bind_error (f := fun _ => names.forM (stageSeed masters)) hresult
      exact ⟨h.2, h.1.trans hlast⟩
    | ok u =>
      rw [hcheck] at hresult hlast
      have h := bind_ok (f := fun _ => names.forM (stageSeed masters)) hresult
      obtain ⟨hrest, hlast'⟩ := ih ((stageSeed masters name).last s)
      refine ⟨h.2.trans hrest, h.1.trans (hlast'.trans ?_)⟩
      rw [hlast]
      rfl

theorem placeText_run (text : List UInt8) (s : System) : (placeText text).result s = .ok () ∧
    (placeText text).last s = { s with script := some (s.script.getD ⟨text, true⟩) } := by
  obtain ⟨queue, script, applied⟩ := s
  cases script with
  | some script => exact ⟨rfl, rfl⟩
  | none =>
    have hforM := forM_effect (fun p s => { s with script := some ⟨p, false⟩ }) (prefixes text) ⟨queue, none, applied⟩
    have h := bind_ok (f := fun _ => (effect fun s => { s with script := some ⟨text, true⟩ } : Steps System Error Unit))
      hforM.1
    refine ⟨h.2, h.1.trans ?_⟩
    rw [hforM.2]
    exact foldl_script ⟨text, true⟩ (prefixes text) ⟨queue, none, applied⟩

/-- Whether staging succeeds does not depend on the state; if it does, there is a script. -/
theorem stageSeeds_run (s : System) :
    (stageSeeds masters names).result s = (names.forM (checkSeed masters)).map (fun _ => names) ∧
    (stageSeeds masters names).last s = { s with
      queue := overlay masters (staged masters names) s.queue
      script := if (names.forM (checkSeed masters)).isOk then some (s.script.getD ⟨drain, true⟩) else s.script } := by
  obtain ⟨hresult, hlast⟩ := @forM_stageSeed masters names s
  cases hcheck : names.forM (checkSeed masters) with
  | error e =>
    rw [hcheck] at hresult
    have h := bind_error (f := fun _ => do placeScript; return names) hresult
    exact ⟨h.2, h.1.trans hlast⟩
  | ok u =>
    rw [hcheck] at hresult
    have h := bind_ok (f := fun _ => do placeScript; return names) hresult
    have hplace := placeText_run drain ((names.forM (stageSeed masters)).last s)
    have h' := bind_ok (f := fun _ => (return names : Steps System Error (List Str))) hplace.1
    refine ⟨h.2.trans h'.2, h.1.trans (h'.1.trans ?_)⟩
    show (placeText drain).last _ = _
    rw [hplace.2, hlast]
    rfl

/-! ## A run that is interrupted -/

/-- Where the attempts to stage some seeds can have left a system. -/
structure Attempted (names : List Str) (s t : System) : Prop where
  queue : ∀ file, (∀ name ∈ names, file ≠ seedFile name) → t.queue[file]? = s.queue[file]?
  script : t.script = s.script ∨
    s.script = none ∧ ((∃ p, t.script = some ⟨p, false⟩) ∨ t.script = some ⟨drain, true⟩)
  applied : t.applied = s.applied

theorem keeps_stageSeed {name : Str} (hname : (checkSeed masters name).isOk → name ∈ names) :
    Keeps (Attempted names) (stageSeed masters name) := by
  rw [stageSeed]
  rw [checkSeed] at hname
  split
  · rename_i hvalid
    rw [if_pos hvalid] at hname
    cases hmaster : masters name with
    | none => exact keeps_fail _
    | some bytes =>
      rw [hmaster] at hname
      refine keeps_forM fun p _ => keeps_effect fun s₀ s h => ⟨fun file hfile => ?_, h.script, h.applied⟩
      show (s.queue.insert (seedFile name) p)[file]? = _
      rw [Std.ExtTreeMap.getElem?_insert, if_neg, h.queue file hfile]
      rw [Std.LawfulEqCmp.compare_eq_iff_eq]
      exact fun heq => hfile name (hname rfl) heq.symm
  · exact keeps_fail _

/-- Only the seeds that can be staged are touched. -/
theorem keeps_forM_stageSeed : Keeps (Attempted (staged masters names)) (names.forM (stageSeed masters)) := by
  suffices h : ∀ before, Keeps (Attempted (before ++ staged masters names)) (names.forM (stageSeed masters)) from h []
  induction names with
  | nil => exact fun _ => keeps_pure _
  | cons name names ih =>
    intro before s₀ s t h ht
    rw [staged, List.takeWhile_cons] at h ⊢
    have hname : (checkSeed masters name).isOk → name ∈ before ++
        (if (checkSeed masters name).isOk then name :: staged masters names else []) := by
      intro hok
      rw [if_pos hok]
      exact List.mem_append_right _ List.mem_cons_self
    rcases interrupted_bind.1 ht with ht | ⟨u, hresult, ht⟩
    · exact keeps_stageSeed hname s₀ s t h ht
    · have hok : (checkSeed masters name).isOk = true := by
        rw [← (stageSeed_run name s).1, hresult]
        rfl
      have h' := keeps_stageSeed hname s₀ s _ h interrupted_last
      rw [if_pos hok, List.append_cons] at h' ⊢
      exact ih (before ++ [name]) s₀ _ t h' ht

/-- The script grows only where there was none, and is executable just when it is whole. -/
theorem interrupted_placeText {text : List UInt8} {s t : System} (h : Interrupted (placeText text) s t) :
    t = s ∨ s.script = none ∧ ∃ x, t = { s with script := some x } ∧ (x.executable = false ∨ x = ⟨text, true⟩) := by
  rcases interrupted_bind.1 h with h | ⟨there, hthere, h⟩
  · exact .inl (h.resolve_right List.not_mem_nil)
  · have hlook : (look fun s => s.script.isSome : Steps System Error Bool).result s = .ok s.script.isSome := rfl
    obtain rfl := Except.ok.inj (hlook.symm.trans hthere)
    cases hscript : s.script with
    | some x =>
      rw [hscript] at h
      exact .inl (h.resolve_right List.not_mem_nil)
    | none =>
      rw [hscript] at h
      -- while it is written, it is not executable
      have hkeeps : Keeps (fun s t => t = s ∨ ∃ x : Script, t = { s with script := some x } ∧ x.executable = false)
          ((prefixes text).forM fun p =>
            (effect fun s => { s with script := some ⟨p, false⟩ } : Steps System Error Unit)) := by
        refine keeps_forM fun p _ => keeps_effect fun s₀ s h => .inr ⟨⟨p, false⟩, ?_, rfl⟩
        rcases h with rfl | ⟨x, rfl, -⟩
        · rfl
        · rfl
      have hlook : (look fun s => s.script.isSome : Steps System Error Bool).last s = s := rfl
      rw [hlook] at h
      rcases interrupted_bind.1 h with h | ⟨u, -, h⟩
      · exact (hkeeps s s t (.inl rfl) h).imp_right fun ⟨x, ht, hx⟩ => ⟨rfl, x, ht, .inl hx⟩
      · have hwritten := hkeeps s s _ (.inl rfl) interrupted_last
        rcases h with rfl | h
        · exact hwritten.imp_right fun ⟨x, ht, hx⟩ => ⟨rfl, x, ht, .inl hx⟩
        · refine .inr ⟨rfl, ⟨text, true⟩, ?_, .inr rfl⟩
          rw [List.mem_singleton.1 h]
          rcases hwritten with hwritten | ⟨x, hwritten, -⟩
          · rw [hwritten]
          · rw [hwritten]

theorem keeps_placeScript : Keeps (Attempted names) placeScript := by
  intro s₀ s t h ht
  rcases interrupted_placeText ht with rfl | ⟨hscript, x, rfl, hx⟩
  · exact h
  · refine ⟨h.queue, .inr ⟨?_, ?_⟩, h.applied⟩
    · rcases h.script with h | ⟨h, -⟩
      · rw [← h, hscript]
      · exact h
    · obtain ⟨text, executable⟩ := x
      rcases hx with hx | hx
      · exact .inl ⟨text, by rw [← hx]⟩
      · exact .inr (by rw [hx])

theorem keeps_stageSeeds : Keeps (Attempted (staged masters names)) (stageSeeds masters names) :=
  keeps_forM_stageSeed.bind fun _ => keeps_placeScript.bind fun _ => keeps_pure _

/-- What is not overwritten is all that the queue keeps. -/
theorem overlay_congr {names : List Str} {q q' : Queue}
    (h : ∀ file, (∀ name ∈ names, file ≠ seedFile name) → q[file]? = q'[file]?) :
    overlay masters names q = overlay masters names q' := by
  induction names generalizing q q' with
  | nil => exact Std.ExtTreeMap.ext_getElem? fun file => h file fun _ hname => (by cases hname)
  | cons name names ih =>
    refine ih fun file hfile => ?_
    rw [Std.ExtTreeMap.getElem?_insert, Std.ExtTreeMap.getElem?_insert]
    split
    · rfl
    · rename_i hne
      rw [Std.LawfulEqCmp.compare_eq_iff_eq] at hne
      exact h file (List.forall_mem_cons.2 ⟨fun heq => hne heq.symm, hfile⟩)

/-- Where a seed cannot be staged, the script is not come to. -/
theorem attempts_of_error {e : Error} (he : names.forM (checkSeed masters) = .error e) {s t : System}
    (h : Relation.ReflTransGen (Interrupted (stageSeeds masters names)) s t) :
    Relation.ReflTransGen (Interrupted (names.forM (stageSeed masters))) s t := by
  refine h.lift id fun s t h => ?_
  rcases interrupted_bind.1 h with h | ⟨u, hresult, -⟩
  · exact h
  · rw [(forM_stageSeed s).1, he] at hresult
    cases hresult

theorem keeps_script : Keeps (fun s t : System => t.script = s.script) (names.forM (stageSeed masters)) := by
  refine keeps_forM fun name _ => ?_
  rw [stageSeed]
  split
  · split
    · exact keeps_forM fun p _ => keeps_effect fun s₀ s h => h
    · exact keeps_fail _
  · exact keeps_fail _

/-- Attempts that are cut off leave nothing that the next one does not set right, except for a script that is not
executable where there was none. -/
theorem stage_again {s t : System} (h : Relation.ReflTransGen (Interrupted (stageSeeds masters names)) s t) :
    (stageSeeds masters names).result t = (stageSeeds masters names).result s ∧
      ((stageSeeds masters names).last t = (stageSeeds masters names).last s ↔
        ¬ (s.script = none ∧ ∃ p, t.script = some ⟨p, false⟩)) := by
  have hattempted : Attempted (staged masters names) s t :=
    keeps_stageSeeds.attempts ⟨fun _ _ => rfl, .inl rfl, rfl⟩ h
  refine ⟨(stageSeeds_run t).1.trans (stageSeeds_run s).1.symm, ?_⟩
  rw [(stageSeeds_run t).2, (stageSeeds_run s).2, overlay_congr hattempted.queue, hattempted.applied]
  simp only [System.mk.injEq, true_and, and_true]
  cases hcheck : names.forM (checkSeed masters) with
  | error e =>
    have hscript : t.script = s.script := keeps_script.attempts rfl (attempts_of_error hcheck h)
    refine ⟨fun _ ⟨hnone, p, hp⟩ => ?_, fun _ => hscript⟩
    rw [hscript, hnone] at hp
    cases hp
  | ok u =>
    show some (t.script.getD _) = some (s.script.getD _) ↔ _
    rcases hattempted.script with hscript | ⟨hnone, ⟨p, hp⟩ | hwhole⟩
    · refine ⟨fun _ ⟨hnone, p, hp⟩ => ?_, fun _ => by rw [hscript]⟩
      rw [hscript, hnone] at hp
      cases hp
    · rw [hnone, hp]
      refine ⟨fun heq => ?_, fun hno => absurd ⟨rfl, p, rfl⟩ hno⟩
      simp at heq
    · rw [hnone, hwhole]
      refine ⟨fun _ ⟨_, p, hp⟩ => ?_, fun _ => rfl⟩
      simp at hp

/-- A system without seeds and without a script, and a release that names a seed. -/
def fresh : System := ⟨∅, none, []⟩

theorem stage_again_fresh :
    (stageSeeds (fun _ => some [123]) [['a']]).result ((stageSeeds (fun _ => some [123]) [['a']]).last fresh) =
      (stageSeeds (fun _ => some [123]) [['a']]).result fresh ∧
    ((stageSeeds (fun _ => some [123]) [['a']]).last ((stageSeeds (fun _ => some [123]) [['a']]).last fresh) =
      (stageSeeds (fun _ => some [123]) [['a']]).last fresh ↔
      ¬ (fresh.script = none ∧
        ∃ p, ((stageSeeds (fun _ => some [123]) [['a']]).last fresh).script = some ⟨p, false⟩)) :=
  stage_again (.single interrupted_last)

end Peiosutils.Upgrade
