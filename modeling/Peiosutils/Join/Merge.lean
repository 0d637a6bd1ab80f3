import Peiosutils.Join.Lines
import Peiosutils.Lib.MergeJoin
import Peiosutils.Lib.While

/-!
# Joining two files (`join.rs`)

`exec` merges two files: each `State` keeps one line, or a run of lines with the same key, and reads on. A line that
is out of order is shown, or ends the run, as the settings have it.
-/

set_option autoImplicit false

namespace Peiosutils.Join

open While (Stop)

/-! ## What is written -/

inductive FileNum where
  | file1
  | file2
  deriving DecidableEq, Repr

inductive Spec where
  | key
  | field (fileNum : FileNum) (index : Nat)
  deriving DecidableEq, Repr

structure Settings where
  key1 : Nat
  key2 : Nat
  printUnpaired1 : Bool
  printUnpaired2 : Bool
  printJoined : Bool
  ignoreCase : Bool
  lineEnding : UInt8
  separator : SepSetting
  autoformat : Bool
  format : List Spec
  empty : Bytes
  checkOrder : CheckOrder
  headers : Bool
  deriving DecidableEq, Repr

/-- Output representation. -/
structure OutputRepr where
  lineEnding : UInt8
  separator : SepSetting
  format : List Spec
  empty : Bytes

namespace OutputRepr

variable (repr : OutputRepr)

def usesFormat : Bool := repr.format ≠ []

/-- The field, or the empty filler. -/
def writeField (field : Option Bytes) : Bytes := field.getD repr.empty

/-- Each field except the one at the index. -/
def writeFields (line : Line) (index : Nat) : Bytes :=
  (List.range line.fieldRanges.length).flatMap fun i =>
    if i ≠ index then repr.separator.outputSeparator ++ (line.getField i).getD [] else []

/-- Each field of the format, or the empty filler. -/
def writeFormat (f : Spec → Option Bytes) : Bytes :=
  repr.separator.outputSeparator.intercalate (repr.format.map fun spec => (f spec).getD repr.empty)

/-- A line of one file. -/
def writeLine (fileNum : FileNum) (key : Nat) (line : Line) : Bytes :=
  (if repr.usesFormat then
    repr.writeFormat fun spec =>
      match spec with
      | .key => line.getField key
      | .field num i => if num = fileNum then line.getField i else none
  else repr.writeField (line.getField key) ++ repr.writeFields line key) ++ [repr.lineEnding]

/-- A line of the one file with one of the other, under their common key. -/
def writePair (key1 key2 : Nat) (key : Option Bytes) (line1 line2 : Line) : Bytes :=
  (if repr.usesFormat then
    repr.writeFormat fun spec =>
      match spec with
      | .key => key
      | .field .file1 i => line1.getField i
      | .field .file2 i => line2.getField i
  else repr.writeField key ++ repr.writeFields line1 key1 ++ repr.writeFields line2 key2) ++ [repr.lineEnding]

end OutputRepr

/-! ## A file -/

/-- A line that is out of order. -/
structure Disorder where
  fileNum : FileNum
  lineNum : Nat
  content : Bytes
  deriving DecidableEq, Repr

inductive Failure where
  | unorderedInput (d : Disorder)
  | panic
  deriving DecidableEq, Repr

structure State where
  key : Nat
  fileNum : FileNum
  printUnpaired : Bool
  /-- What is not read yet. -/
  lines : List Bytes
  seq : List Line
  lineNum : Nat
  hasFailed : Bool
  hasUnpaired : Bool
  /-- What has been shown about the order of the file. -/
  shown : List Disorder

namespace State

def new (fileNum : FileNum) (key : Nat) (lines : List Bytes) (printUnpaired : Bool) : State :=
  ⟨key, fileNum, printUnpaired, lines, [], 0, false, false, []⟩

/-- The next line without the order check. -/
def readLine (s : State) (sep : SepSetting) : Option (Line × State) :=
  match s.lines with
  | [] => none
  | line :: lines => some (.new line sep, { s with lines := lines, lineNum := s.lineNum + 1 })

/-- The key of the lines in `seq`, which must not be empty. -/
def getCurrentKey (s : State) : Except Failure (Option Bytes) :=
  match s.seq with
  | [] => .error .panic
  | line :: _ => .ok (line.getField s.key)

/-- The next line with the order check. -/
def nextLine (s : State) (input : Input) : Except Failure (Option (Line × State)) :=
  match s.readLine input.separator with
  | none => .ok none
  | some (line, s) =>
    if input.checkOrder = .disabled then .ok (some (line, s))
    else do
      let key ← s.getCurrentKey
      let d : Disorder := ⟨s.fileNum, s.lineNum, line.string⟩
      if input.compare key (line.getField s.key) = .gt ∧
          (input.checkOrder = .enabled ∨ s.hasUnpaired = true ∧ s.hasFailed = false) then
        if input.checkOrder = .enabled then .error (.unorderedInput d)
        else return some (line, { s with hasFailed := true, shown := s.shown ++ [d] })
      else return some (line, s)

def reset (s : State) (nextLine : Option Line) : State := { s with seq := nextLine.toList }

def hasLine (s : State) : Bool := s.seq ≠ []

/-- The next line becomes the only one of `seq`. -/
def resetNextLine (s : State) (input : Input) : Except Failure State := do
  match ← s.nextLine input with
  | none => return s.reset none
  | some (line, s) => return s.reset (some line)

def resetReadLine (s : State) (sep : SepSetting) : State :=
  match s.readLine sep with
  | none => s.reset none
  | some (line, s) => s.reset (some line)

def writeFirstLine (s : State) (repr : OutputRepr) : Except Failure Bytes :=
  match s.seq with
  | [] => .error .panic
  | line :: _ => .ok (repr.writeLine s.fileNum s.key line)

/-- Skips the current unpaired line: what is written, and the state behind it. -/
def skipLine (s : State) (input : Input) (repr : OutputRepr) : Bytes × Except Failure State :=
  if s.printUnpaired then
    match s.writeFirstLine repr with
    | .error e => ([], .error e)
    | .ok out => (out, s.resetNextLine input)
  else ([], s.resetNextLine input)

/-- One turn of reading on until the key changes. -/
def extendTurn (input : Input) (s : State) : State ⊕ Except Failure (Option Line × State) :=
  match s.nextLine input with
  | .error e => .inr (.error e)
  | .ok none => .inr (.ok (none, s))
  | .ok (some (line, s)) =>
    match s.getCurrentKey with
    | .error e => .inr (.error e)
    | .ok key =>
      if input.compare key (line.getField s.key) = .eq then .inl { s with seq := s.seq ++ [line] }
      else .inr (.ok (some line, s))

/-- Reads on until the key changes; the first line whose key differs. -/
def extend (s : State) (input : Input) (fuel : Nat) : Except Stop (Except Failure (Option Line × State)) :=
  While.loop (fun s => .ok (s.extendTurn input)) fuel s

/-- Two runs of lines with the same key. -/
def combine (s other : State) (repr : OutputRepr) : Except Failure Bytes := do
  let key ← s.getCurrentKey
  return s.seq.flatMap fun line1 => other.seq.flatMap fun line2 => repr.writePair s.key other.key key line1 line2

/-- Reads the first line; the number of its fields, for an automatic format. -/
def init (s : State) (sep : SepSetting) (autoformat : Bool) : Nat × State :=
  match s.readLine sep with
  | none => (0, s)
  | some (line, s) => (if autoformat then line.fieldRanges.length else 0, { s with seq := s.seq ++ [line] })

/-- One turn of writing the rest of a file, where the next line is read already. -/
def finalizeTurn (input : Input) (repr : OutputRepr) (st : Bytes × Option Line × State) :
    (Bytes × Option Line × State) ⊕ (Bytes × Except Failure State) :=
  match st with
  | (out, none, s) => .inr (out, .ok s)
  | (out, some line, s) =>
    let out := out ++ if s.printUnpaired then repr.writeLine s.fileNum s.key line else []
    match (s.reset (some line)).nextLine input with
    | .error e => .inr (out, .error e)
    | .ok none => .inl (out, none, s.reset (some line))
    | .ok (some (line, s)) => .inl (out, some line, s)

/-- What is left of a file has no partner. -/
def finalize (s : State) (input : Input) (repr : OutputRepr) (fuel : Nat) :
    Except Stop (Bytes × Except Failure State) :=
  match s.seq with
  | [] => .ok ([], .ok s)
  | line :: _ =>
    let out := if s.printUnpaired then repr.writeLine s.fileNum s.key line else []
    match s.nextLine input with
    | .error e => .ok (out, .error e)
    | .ok none => .ok (out, .ok s)
    | .ok (some (line, s)) => While.loop (fun st => .ok (finalizeTurn input repr st)) fuel (out, some line, s)

def writeHeaders (s other : State) (repr : OutputRepr) : Except Failure Bytes :=
  if s.hasLine then if other.hasLine then s.combine other repr else s.writeFirstLine repr
  else if other.hasLine then other.writeFirstLine repr
  else .ok []

end State

/-! ## Both files -/

/-- The files, and what is written so far. -/
structure Files where
  written : Bytes
  state1 : State
  state2 : State

/-- One turn of the main loop. -/
def execTurn (settings : Settings) (input : Input) (repr : OutputRepr) (fuel : Nat) (f : Files) :
    Except Stop (Files ⊕ (Bytes × Except Failure Files)) :=
  if f.state1.hasLine && f.state2.hasLine then
    match f.state1.getCurrentKey, f.state2.getCurrentKey with
    | .ok key1, .ok key2 =>
      match input.compare key1 key2 with
      | .lt =>
        match f.state1.skipLine input repr with
        | (out, .error e) => .ok (.inr (f.written ++ out, .error e))
        | (out, .ok state1) =>
          .ok (.inl ⟨f.written ++ out, { state1 with hasUnpaired := true }, { f.state2 with hasUnpaired := true }⟩)
      | .gt =>
        match f.state2.skipLine input repr with
        | (out, .error e) => .ok (.inr (f.written ++ out, .error e))
        | (out, .ok state2) =>
          .ok (.inl ⟨f.written ++ out, { f.state1 with hasUnpaired := true }, { state2 with hasUnpaired := true }⟩)
      | .eq => do
        match ← f.state1.extend input fuel with
        | .error e => return .inr (f.written, .error e)
        | .ok (nextLine1, state1) =>
          match ← f.state2.extend input fuel with
          | .error e => return .inr (f.written, .error e)
          | .ok (nextLine2, state2) =>
            match if settings.printJoined then state1.combine state2 repr else .ok [] with
            | .error e => return .inr (f.written, .error e)
            | .ok out => return .inl ⟨f.written ++ out, state1.reset nextLine1, state2.reset nextLine2⟩
    | _, _ => .ok (.inr (f.written, .error .panic))
  else .ok (.inr (f.written, .ok f))

/-- What a run leaves behind: its output, what it says about the order, how it ends. -/
structure Outcome where
  written : Bytes
  shown : List Disorder
  result : Except Failure Unit
  exitCode : Nat
  deriving DecidableEq, Repr

/-- The fields of a first line other than its key. -/
def autoFields (fileNum : FileNum) (key count : Nat) : List Spec :=
  ((List.range count).filter (· ≠ key)).map (Spec.field fileNum)

/-- How the output is written, where `count1` and `count2` are the numbers of fields of the first lines. -/
def Settings.outputRepr (settings : Settings) (count1 count2 : Nat) : OutputRepr where
  lineEnding := settings.lineEnding
  separator := settings.separator
  format :=
    if settings.autoformat then
      .key :: autoFields .file1 settings.key1 count1 ++ autoFields .file2 settings.key2 count2
    else settings.format
  empty := settings.empty

def Settings.input (settings : Settings) (useLocale : Bool) (localeCmp : Bytes → Bytes → Ordering) : Input :=
  ⟨settings.separator, settings.ignoreCase, settings.checkOrder, useLocale, localeCmp⟩

/-- Where the run gives up. -/
def Files.abort (f : Files) (written : Bytes) (e : Failure) : Outcome :=
  ⟨written, f.state1.shown ++ f.state2.shown, .error e, 1⟩

/-- What is left of the files is written, and what has failed is said. -/
def Files.finish (f : Files) (input : Input) (repr : OutputRepr) (fuel : Nat) : Except Stop Outcome := do
  match ← f.state1.finalize input repr fuel with
  | (out1, .error e) => return f.abort (f.written ++ out1) e
  | (out1, .ok state1) =>
    match ← f.state2.finalize input repr fuel with
    | (out2, .error e) => return Files.abort ⟨f.written, state1, f.state2⟩ (f.written ++ out1 ++ out2) e
    | (out2, .ok state2) =>
      return ⟨f.written ++ out1 ++ out2, state1.shown ++ state2.shown, .ok (),
        if state1.hasFailed || state2.hasFailed then 1 else 0⟩

/-- The main loop, and what is left behind it. -/
def Files.run (f : Files) (settings : Settings) (input : Input) (repr : OutputRepr) (fuel : Nat) :
    Except Stop Outcome := do
  match ← While.loop (execTurn settings input repr fuel) fuel f with
  | (written, .error e) => return f.abort written e
  | (_, .ok f) => f.finish input repr fuel

def exec (settings : Settings) (input : Input) (lines1 lines2 : List Bytes) (fuel : Nat) : Except Stop Outcome :=
  let (count1, state1) :=
    (State.new .file1 settings.key1 lines1 settings.printUnpaired1).init settings.separator settings.autoformat
  let (count2, state2) :=
    (State.new .file2 settings.key2 lines2 settings.printUnpaired2).init settings.separator settings.autoformat
  let repr := settings.outputRepr count1 count2
  if settings.headers then
    match state1.writeHeaders state2 repr with
    | .error e => .ok (Files.abort ⟨[], state1, state2⟩ [] e)
    | .ok out =>
      Files.run ⟨out, state1.resetReadLine settings.separator, state2.resetReadLine settings.separator⟩ settings input
        repr fuel
  else Files.run ⟨[], state1, state2⟩ settings input repr fuel

end Peiosutils.Join
