import Peiosutils.Lib.Bytes
import Peiosutils.Lib.Runs

/-!
# The feature lifecycle (`cmd.rs`, `registry.rs`, `feature.rs`)

A verb is planned from the recorded state, and each step of the plan writes its pending state, runs its script and
writes its settled state. What may go wrong at each of these is a parameter (`Fates`): a write may be refused, a script
may be missing, fail or be cut short, and the process may die in between.
-/

set_option autoImplicit false

namespace Peiosutils.Feat

open ByteStore

/-! ## States -/

inductive State where
  | notInstalled
  | installing
  | uninstalling
  | installed
  | enabling
  | disabling
  | enabled
  deriving DecidableEq, Repr

namespace State

def asDword : State → Nat
  | notInstalled => 0
  | installing => 1
  | uninstalling => 4
  | installed => 5
  | enabling => 6
  | disabling => 9
  | enabled => 10

/-- Unknown values read as `notInstalled`. -/
def fromDword : Nat → State
  | 1 => installing
  | 4 => uninstalling
  | 5 => installed
  | 6 => enabling
  | 9 => disabling
  | 10 => enabled
  | _ => notInstalled

@[simp] theorem fromDword_asDword (s : State) : fromDword s.asDword = s := by cases s <;> rfl

theorem asDword_lt (s : State) : s.asDword < 256 ^ 4 := by cases s <;> decide

end State

inductive Phase where
  | install
  | enable
  | disable
  | uninstall
  deriving DecidableEq, Repr

def Phase.asStr : Phase → String
  | install => "install"
  | enable => "enable"
  | disable => "disable"
  | uninstall => "uninstall"

inductive Error where
  | notFound (name : String)
  | denied (op : String) (errno : Int)
  | state (message : String)
  | script (feature phase : String) (code : Option Int)
  | io (op : String)
  | registry (op : String) (errno : Int)
  deriving DecidableEq, Repr

/-! ## Planning -/

inductive Verb where
  | install
  | enable
  | disable
  | add
  | remove
  deriving DecidableEq, Repr

/-- One transition: the state written before its script, the script, the state written after, and what is said once it
is done. -/
structure Step where
  pending : State
  phase : Phase
  settled : State
  said : String
  deriving DecidableEq, Repr

namespace Step

/-- `INSTALL`. -/
def install : Step := ⟨.installing, .install, .installed, "installed"⟩

/-- `ENABLE`. -/
def enable : Step := ⟨.enabling, .enable, .enabled, "enabled"⟩

/-- `DISABLE`. -/
def disable : Step := ⟨.disabling, .disable, .installed, "disabled"⟩

/-- `UNINSTALL`. -/
def uninstall : Step := ⟨.uninstalling, .uninstall, .notInstalled, "uninstalled"⟩

end Step

/-- Run a step, or say why a part of the change needs nothing doing. -/
inductive Action where
  | run (step : Step)
  | say (line : String)
  deriving DecidableEq, Repr

/-- The actions of a change, and the state they leave the feature in. -/
abbrev Plan := List Action × State

/-- `run(&steps)`. -/
def runSteps (state : State) (steps : List Step) : Plan :=
  (steps.map .run, (steps.getLast?.map Step.settled).getD state)

/-- `say(line)`. -/
def sayLine (state : State) (line : String) : Plan := ([.say line], state)

def planInstall (name : String) (state : State) : Except Error Plan :=
  match state with
  | .installed | .enabling | .disabling | .enabled => .ok (sayLine state (name ++ " already installed"))
  | .notInstalled | .installing | .uninstalling => .ok (runSteps state [.install])

def planEnable (name : String) (state : State) : Except Error Plan :=
  match state with
  | .notInstalled | .installing | .uninstalling => .error (.state ("feature " ++ name ++
      " is not installed (run \x60feat install " ++ name ++ "\x60 or \x60feat add " ++ name ++ "\x60)"))
  | .enabled => .ok (sayLine state (name ++ " already enabled"))
  | .installed | .enabling | .disabling => .ok (runSteps state [.enable])

/-- Plan `verb` for a feature in `state`. -/
def plan (name : String) (verb : Verb) (state : State) : Except Error Plan :=
  match verb with
  | .install => planInstall name state
  | .enable => planEnable name state
  | .disable =>
    match state with
    | .enabled | .enabling | .disabling => .ok (runSteps state [.disable])
    | _ => .ok (sayLine state (name ++ " is not enabled"))
  | .add => do
    let (actions, installed) ← planInstall name state
    let (enable, enabled) ← planEnable name installed
    return (actions ++ enable, enabled)
  | .remove =>
    match state with
    | .notInstalled => .ok (sayLine state (name ++ " is not installed"))
    | .enabled | .enabling | .disabling => .ok (runSteps state [.disable, .uninstall])
    | .installed | .installing | .uninstalling => .ok (runSteps state [.uninstall])

/-! ## Running -/

inductive Event where
  | wrote (state : State)
  | started (phase : Phase)
  | completed (phase : Phase)
  | said (line : String)
  deriving DecidableEq, Repr

/-- The data of the feature's `State` value, if there is one, and what happened so far. -/
structure Machine where
  value : Option (List UInt8)
  history : List Event

/-- A feature that the registry does not know. -/
def Machine.unrecorded : Machine := ⟨none, []⟩

def Machine.log (m : Machine) (e : Event) : Machine := { m with history := m.history ++ [e] }

/-- Why a change goes no further. -/
inductive Stop where
  | err (e : Error)
  | died
  deriving DecidableEq, Repr

inductive WriteFate where
  | written
  | refused (e : Error)
  | died

/-- `interrupted`: the process dies while the script runs. `died`: it dies before. -/
inductive ScriptFate where
  | missing
  | notStarted (e : Error)
  | succeeded
  | failed (code : Option Int)
  | interrupted
  | died

/-- What becomes of one step. -/
structure Fates where
  pending : WriteFate
  script : ScriptFate
  settled : WriteFate

/-- A read of the state: no value, and one of fewer than four bytes, are `0`. A value that is there can be queried. -/
def readState (m : Machine) : State :=
  match m.value with
  | none => .notInstalled
  | some data => .fromDword (if 4 ≤ data.length then leNat (data.take 4) else 0)

def writeState (state : State) (fate : WriteFate) (m : Machine) : Option Stop × Machine :=
  match fate with
  | .written => (none, { value := some (leBytes 4 state.asDword), history := m.history ++ [.wrote state] })
  | .refused e => (some (.err e), m)
  | .died => (some .died, m)

/-- Run the script of a phase. A missing one counts as done. -/
def runPhase (name : String) (phase : Phase) (fate : ScriptFate) (m : Machine) : Option Stop × Machine :=
  match fate with
  | .missing => (none, m.log (.completed phase))
  | .notStarted e => (some (.err e), m)
  | .succeeded => (none, (m.log (.started phase)).log (.completed phase))
  | .failed code => (some (.err (.script name phase.asStr code)), m.log (.started phase))
  | .interrupted => (some .died, m.log (.started phase))
  | .died => (some .died, m)

def transition (name : String) (step : Step) (fates : Fates) (m : Machine) : Option Stop × Machine :=
  match writeState step.pending fates.pending m with
  | (some stop, m) => (some stop, m)
  | (none, m) =>
    match runPhase name step.phase fates.script m with
    | (some stop, m) => (some stop, m)
    | (none, m) => writeState step.settled fates.settled m

/-- The loop over the actions; `step` counts the transitions so far. -/
def perform (name : String) (fates : Nat → Fates) : Nat → List Action → Machine → Option Stop × Machine
  | _, [], m => (none, m)
  | step, .say line :: actions, m => perform name fates step actions (m.log (.said line))
  | step, .run s :: actions, m =>
    match transition name s (fates step) m with
    | (some stop, m) => (some stop, m)
    | (none, m) => perform name fates (step + 1) actions (m.log (.said (s.said ++ " " ++ name)))

/-- One use of a verb, and what it meets. -/
structure Call where
  verb : Verb
  /-- The feature's directory is there. -/
  defined : Bool
  /-- The error of reading the state, if there is one. -/
  unread : Option Error
  fates : Nat → Fates

/-- `change(name, verb)`. -/
def change (name : String) (call : Call) (m : Machine) : Option Stop × Machine :=
  if !call.defined then (some (.err (.notFound name)), m)
  else
    match call.unread with
    | some e => (some (.err e), m)
    | none =>
      match plan name call.verb (readState m) with
      | .error e => (some (.err e), m)
      | .ok (actions, _) => perform name call.fates 0 actions m

/-- Verbs one after another on one feature. -/
def lifecycle (name : String) (calls : List Call) : Machine := CallRun.run (change name) calls .unrecorded

end Peiosutils.Feat
