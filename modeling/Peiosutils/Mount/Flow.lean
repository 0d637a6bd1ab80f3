import Peiosutils.Lib.Runs
import Peiosutils.Mount.Mountinfo
import Peiosutils.Mount.Request

/-!
# Executing a request (`mount/src/flow.rs`)

Each verb is a sequence of calls of the mount interface; changes of propagation follow the verb's own calls. What lies
outside, the kernel's answers among it, is the environment.
-/

set_option autoImplicit false

namespace Peiosutils.Mount

open Regman (Str)
open Utf8 (encode lossyList)

/-! ## The environment -/

/-- What a path is relative to: `AT_FDCWD`, or an open descriptor. -/
inductive Dir where
  | cwd
  | fd (n : Nat)
  deriving DecidableEq, Repr

/-- `mount_attr`. -/
structure MountAttr where
  attrSet : Mask
  attrClr : Mask
  propagation : Mask
  deriving DecidableEq, Repr

inductive Call where
  | createDirAll (path : Bytes)
  | loopClearFd (device : Bytes)
  | fsopen (fstype : Bytes)
  | fsconfigSetString (fd : Nat) (key value : Bytes)
  | fsconfigSetFlag (fd : Nat) (key : Bytes)
  | fsconfigCmd (fd : Nat) (cmd : Nat)
  | fsmount (fd : Nat) (attr : BitVec 32)
  | openTree (dir : Dir) (path : Bytes) (flags : BitVec 32)
  | moveMountAttach (fd : Nat) (target : Bytes) (flags : BitVec 32)
  | moveMountPath (source target : Bytes) (flags : BitVec 32)
  | mountSetattr (dir : Dir) (path : Bytes) (flags : BitVec 32) (attr : MountAttr)
  | fspick (dir : Dir) (path : Bytes)
  | openNamespace (path : Bytes)
  | setns (path : Bytes)
  | dup (fd : Nat)
  | mountSetPolicy (fd : Nat) (kind : PolicyKind) (template : Option Bytes)
  deriving DecidableEq, Repr

/-- A call of the mount interface or of the namespaces. -/
def Call.isMount : Call → Bool
  | .createDirAll _ | .loopClearFd _ => false
  | _ => true

/-- A loop device; one that was set up for the mount is given back when the mount fails. -/
structure LoopGuard where
  device : Bytes
  armed : Bool

abbrev Made := Calls.Record Call Nat OsError

structure Env where
  answers : Calls.Answers Call Nat OsError
  sddl : Str → Except Str Bool
  /-- The path without links, by the calls before, where it exists. -/
  realpath : Made → Bytes → Option Bytes
  resolveSource : Bytes → Except MountError Bytes
  probeType : Bytes → Option Bytes → Except MountError Bytes
  maybeSetup : Bool → Bytes → ParsedOptions → Except MountError (Option LoopGuard)
  /-- The table of mounts, where it is read. -/
  mountinfo : Made → Option (List Mountinfo.MountEntry)
  /-- The kernel's messages for a descriptor. -/
  fsLog : Made → Nat → List Str

abbrev Flow (α : Type) := Calls.Prog Call Nat OsError MountError α

variable (env : Env)

/-- A call of a stage. -/
def Env.call (stage : String) (c : Call) : Flow Nat := Calls.attempt env.answers (MountError.fromSyscall stage) c

/-- A call whose failure does not matter. -/
def Env.tryCall (c : Call) : Flow Unit := ExceptT.mk fun made => (.ok (), made ++ [(c, env.answers made c)])

/-- What has been called. -/
def made : Flow Made := ExceptT.mk fun made => (.ok made, made)

def liftExcept {α : Type} (x : Except MountError α) : Flow α := ExceptT.mk fun made => (x, made)

/-! ## Helpers -/

def AT_RECURSIVE : BitVec 32 := 0x8000
def AT_EMPTY_PATH : BitVec 32 := 0x1000
def OPEN_TREE_CLONE : BitVec 32 := 0x1
def OPEN_TREE_CLOEXEC : BitVec 32 := 0x80000
def MOVE_MOUNT_BENEATH : BitVec 32 := 0x200
def CMD_CREATE : Nat := 6
def CMD_RECONFIGURE : Nat := 7
def CMD_CREATE_EXCL : Nat := 8
def EOPNOTSUPP : Nat := 95

/-- Propagation types, as `mount_attr` has them. -/
def PropKind.bits : PropKind → Mask
  | .shared => 0x100000
  | .slave => 0x80000
  | .priv => 0x40000
  | .unbindable => 0x20000

def cstr (s : Bytes) : Except MountError Bytes :=
  if s.contains 0 then usage "argument contains a NUL byte".toList else .ok s

/-- The messages of the kernel's log that are errors, joined. -/
def logDetail (msgs : List Str) : Option Str :=
  match msgs.filterMap fun m => if "e ".toList.isPrefixOf m then some (m.drop 2) else none with
  | [] => none
  | errors => some ("; ".toList.intercalate errors)

/-- A call of a stage, whose error is explained by the kernel's log. -/
def Env.loggedCall (stage : String) (fd : Nat) (c : Call) : Flow Nat := ExceptT.mk fun made =>
  match env.answers made c with
  | .ok r => (.ok r, made ++ [(c, .ok r)])
  | .error e =>
    let made := made ++ [(c, .error e)]
    let source :=
      match logDetail (env.fsLog made fd), e.code with
      | some detail, some _ => { e with detail }
      | _, _ => e
    (.error (.fromSyscall stage source), made)

def Env.setString (fd : Nat) (key value : Bytes) : Flow Unit := do
  let k ← liftExcept (cstr key)
  let v ← liftExcept (cstr value)
  let _ ← env.loggedCall "fsconfig" fd (.fsconfigSetString fd k v)
  return ()

def Env.setFlag (fd : Nat) (key : Bytes) : Flow Unit := do
  let k ← liftExcept (cstr key)
  let _ ← env.loggedCall "fsconfig" fd (.fsconfigSetFlag fd k)
  return ()

/-- A path that is absolute and without links, unless that is not wanted or the path does not exist. -/
def Env.canonicalize (path : Bytes) (noCanon : Bool) (mkdir : Option Nat) : Flow Bytes := do
  if mkdir.isSome then env.tryCall (.createDirAll path)
  if noCanon then return path
  else do
    let made ← made
    return (env.realpath made path).getD path

/-- The file of a namespace: of a process, by its path, or by its name. -/
def resolveNamespace (ns : Bytes) : Bytes :=
  if ns ≠ [] ∧ ns.all Ascii.isDigit then encode "/proc/".toList ++ ns ++ encode "/ns/mnt".toList
  else if ns.head? = some 47 then ns
  else encode "/run/mnt/namespaces/".toList ++ ns

/-- `namespace::enter`. -/
def Env.enter (ns : Bytes) : Flow Unit := do
  let path := resolveNamespace ns
  let _ ← env.call "open namespace" (.openNamespace path)
  let _ ← env.call "setns" (.setns path)
  return ()

def Env.enterNs (req : MountRequest) : Flow Unit :=
  match req.ns with
  | some ns => if req.fake then pure () else env.enter ns
  | none => pure ()

def SbFlag.key : SbFlag → Bool → Bytes
  | .synchronous, true => encode "sync".toList
  | .synchronous, false => encode "async".toList
  | .dirsync, _ => encode "dirsync".toList
  | .lazytime, true => encode "lazytime".toList
  | .lazytime, false => encode "nolazytime".toList
  | .iversion, true => encode "iversion".toList
  | .iversion, false => encode "noiversion".toList
  | .silent, true => encode "silent".toList
  | .silent, false => encode "loud".toList

/-- The flags of the superblock, in order. -/
def Env.setSbFlags (fd : Nat) (o : ParsedOptions) : Flow Unit :=
  o.sbFlags.forM fun flag => env.setFlag fd (flag.1.key flag.2)

/-- The parameters of the file system, in order. -/
def Env.setFsParams (fd : Nat) (o : ParsedOptions) : Flow Unit :=
  o.fsParams.forM fun param =>
    match param.2 with
    | some v => env.setString fd param.1 v
    | none => env.setFlag fd param.1

/-- The mount at the target has a root other than `/`. -/
def Env.sharesSuperblock (target : Bytes) : Flow Bool := do
  let made ← made
  match env.mountinfo made with
  | some entries =>
    match entries.reverse.find? fun e => e.mountPoint = target with
    | some e => return e.root ≠ [47]
    | none => return false
  | none => return false

/-! ## Policies -/

/-- The errors of a policy that is refused. -/
def translate (e : OsError) : MountError :=
  let source : OsError := ⟨some (e.code.getD 0), []⟩
  if e.code = some EOPNOTSUPP then
    .mount "set_mount_policy" ⟨none, "filesystem type does not support mount policies (it is unmanaged)".toList⟩
  else if e.code = some EPERM then .permission "set_mount_policy (requires SeTcbPrivilege)" source
  else .fromSyscall "set_mount_policy" source

def Env.applySetBeforeAttach (detached : Nat) (policy : Option PolicyKind) (template : Option Bytes) : Flow Unit :=
  match policy with
  | none => pure ()
  | some kind => do
    liftExcept (parseTemplate env.sddl template)
    let fd ← env.call "dup" (.dup detached)
    let _ ← Calls.attempt env.answers translate (.mountSetPolicy fd kind template)
    return ()

/-! ## New mounts -/

/-- The detached mount: `fsopen`, its configuration, and `fsmount`. -/
def Env.buildNewFsmount (req : MountRequest) (device fstype : Bytes) (forceRo : Bool) : Flow Nat := do
  let o := req.options
  let fst ← liftExcept (cstr fstype)
  let fd ← env.call "fsopen" (.fsopen fst)
  if device ≠ encode "none".toList then env.setString fd (encode "source".toList) device
  env.setSbFlags fd o
  if o.sbRdonly = some true ∨ forceRo then env.setFlag fd (encode "ro".toList)
  env.setFsParams fd o
  let _ ← env.loggedCall "fsconfig(create)" fd (.fsconfigCmd fd (if req.exclusive then CMD_CREATE_EXCL else CMD_CREATE))
  let attr := if forceRo then o.fsmountAttrFlags ||| MOUNT_ATTR_RDONLY.setWidth 32 else o.fsmountAttrFlags
  env.call "fsmount" (.fsmount fd attr)

/-- The policy is set before the mount is attached, and the namespace is entered between them. -/
def Env.attachNewMount (req : MountRequest) (detached : Nat) (target : Bytes) : Flow Unit := do
  env.applySetBeforeAttach detached req.options.policy req.synthSddl
  env.enterNs req
  let tgt ← liftExcept (cstr target)
  match req.options.subdir with
  | some subdir => do
    let rel ← liftExcept (cstr (if subdir.head? = some 47 then subdir.drop 1 else subdir))
    let clone ← env.call "open_tree(subdir)" (.openTree (.fd detached) rel (OPEN_TREE_CLONE ||| OPEN_TREE_CLOEXEC))
    let _ ← env.call "move_mount" (.moveMountAttach clone tgt 0)
    return ()
  | none => do
    let _ ← env.call "move_mount" (.moveMountAttach detached tgt 0)
    return ()

/-- A mount that fails because the device is write-protected is tried read-only. -/
def shouldRetryRo (o : ParsedOptions) (e : MountError) : Bool :=
  if o.explicitRw ∨ o.sbRdonly = some true then false
  else
    match e with
    | .mount _ source | .permission _ source => source.code = some EROFS ∨ source.code = some EACCES
    | _ => false

def Env.attemptNew (req : MountRequest) (device fstype target : Bytes) (forceRo : Bool) : Flow Unit := do
  let detached ← env.buildNewFsmount req device fstype forceRo
  env.attachNewMount req detached target

/-- The loop device is given back where the mount fails. -/
def Env.withGuard (guard : Option LoopGuard) (mount : Flow Unit) : Flow Unit :=
  tryCatch mount fun e => do
    match guard with
    | some g => if g.armed then env.tryCall (.loopClearFd g.device)
    | none => pure ()
    throw e

def rejectSwap (fstype : Bytes) : Except MountError Unit :=
  if fstype = encode "swap".toList then usage "'swap' is not a mountable filesystem — use swapon/swapoff".toList else .ok ()

def Env.newFstype (req : MountRequest) (resolved : Bytes) : Except MountError Bytes :=
  match req.fstype with
  | some t => .ok t
  | none =>
    if resolved = encode "none".toList ∨ resolved.head? ≠ some 47 then
      usage ("a filesystem type is required (-t) for the source '".toList ++ lossyList resolved ++
        "' (it cannot be probed)".toList)
    else env.probeType resolved req.options.autoFstypes

def Env.execNew (req : MountRequest) (target : Bytes) : Flow Unit := do
  let o := req.options
  match req.source with
  | none => liftExcept (usage "a source is required for a new mount".toList)
  | some rawSource => do
    let resolved ← liftExcept (env.resolveSource rawSource)
    let fstype ← liftExcept (env.newFstype req resolved)
    liftExcept (rejectSwap fstype)
    let guard ← liftExcept (env.maybeSetup req.fake resolved o)
    let device :=
      match guard with
      | some g => g.device
      | none => resolved
    if req.fake then return ()
    else
      env.withGuard guard (tryCatch (env.attemptNew req device fstype target false) fun e =>
        if shouldRetryRo o e then env.attemptNew req device fstype target true else throw e)

/-! ## The other verbs -/

def Env.execBind (req : MountRequest) (target : Bytes) (recursive : Bool) : Flow Unit := do
  let o := req.options
  if o.touchesSuperblock then
    liftExcept (usage ("superblock options (fs params / sync / ro=fs / …) are not valid on a bind; " ++
      "only per-mount VFS attrs are").toList)
  match req.source with
  | none => liftExcept (usage "a source is required for a bind".toList)
  | some source => do
    let source ← env.canonicalize source req.noCanonicalizeSource none
    if req.fake then return ()
    else do
      let src ← liftExcept (cstr source)
      let flags := OPEN_TREE_CLONE ||| OPEN_TREE_CLOEXEC ||| (if recursive then AT_RECURSIVE else 0)
      let clone ← env.call "open_tree" (.openTree .cwd src flags)
      if o.attrSet ≠ 0 ∨ o.attrClr ≠ 0 then
        let saFlags := AT_EMPTY_PATH ||| (if o.recursiveAttr then AT_RECURSIVE else 0)
        let _ ← env.call "mount_setattr" (.mountSetattr (.fd clone) [] saFlags ⟨o.attrSet, o.attrClr, 0⟩)
      env.enterNs req
      let tgt ← liftExcept (cstr target)
      let _ ← env.call "move_mount" (.moveMountAttach clone tgt 0)
      return ()

def Env.execMove (req : MountRequest) (target : Bytes) (flags : BitVec 32) : Flow Unit := do
  match req.source with
  | none => liftExcept (usage "a source mount is required for move".toList)
  | some source => do
    let source ← env.canonicalize source req.noCanonicalizeSource none
    if req.fake then return ()
    else do
      env.enterNs req
      let src ← liftExcept (cstr source)
      let tgt ← liftExcept (cstr target)
      let _ ← env.call "move_mount" (.moveMountPath src tgt flags)
      return ()

/-- The attributes of the mount, and what is configured for its superblock. -/
def Env.execRemount (req : MountRequest) (target : Bytes) : Flow Unit := do
  let o := req.options
  env.enterNs req
  let shares ← env.sharesSuperblock target
  if o.touchesSuperblock ∧ shares then
    liftExcept (usage ("superblock-level options are not valid when remounting a bind or subvolume " ++
      "(a shared superblock) — they would affect every mount of that filesystem; " ++
      "only per-mount VFS attributes (ro/nosuid/… or =recursive) are allowed here").toList)
  if req.fake then return ()
  else do
    if o.attrSet ≠ 0 ∨ o.attrClr ≠ 0 then
      let tgt ← liftExcept (cstr target)
      let flags := if o.recursiveAttr then AT_RECURSIVE else 0
      let _ ← env.call "mount_setattr" (.mountSetattr .cwd tgt flags ⟨o.attrSet, o.attrClr, 0⟩)
    if o.touchesSuperblock then
      let tgt ← liftExcept (cstr target)
      let fd ← env.call "fspick" (.fspick .cwd tgt)
      env.setSbFlags fd o
      match o.sbRdonly with
      | some ro => env.setFlag fd (if ro then encode "ro".toList else encode "rw".toList)
      | none => pure ()
      env.setFsParams fd o
      let _ ← env.loggedCall "fsconfig(reconfigure)" fd (.fsconfigCmd fd CMD_RECONFIGURE)

/-! ## Requests -/

/-- The call for a change of propagation. -/
def PropChange.call (target : Bytes) (change : PropChange) : Call :=
  .mountSetattr .cwd target (if change.recursive then AT_RECURSIVE else 0) ⟨0, 0, change.kind.bits⟩

def Env.applyPropagation (req : MountRequest) (target : Bytes) : Flow Unit :=
  req.propagation.forM fun change =>
    if req.fake then pure ()
    else do
      let tgt ← liftExcept (cstr target)
      let _ ← env.call "mount_setattr(propagation)" (change.call tgt)
      return ()

/-- `flow::execute`. -/
def Env.execute (req : MountRequest) : Flow Unit := do
  let target ← env.canonicalize req.target req.noCanonicalizeTarget req.mkdir
  match req.verb with
  | .new => env.execNew req target
  | .bind recursive => env.execBind req target recursive
  | .move => env.execMove req target 0
  | .beneath => env.execMove req target MOVE_MOUNT_BENEATH
  | .remount => env.execRemount req target
  env.applyPropagation req target

end Peiosutils.Mount

/-!
# Changes of propagation on their own (`mount/src/flow.rs`)

A request that changes propagation and has no structural verb takes a lone target, as operands are resolved and as the
command line documents it. What it asks for are the calls of `standaloneCalls`, which the namespace and `applyPropagation`
would make (`enter_applyPropagation_performs`). But `execute` takes the request for a new mount, which demands a source:
it fails before any of them (`execute_standalone`, `not_appliesOnly`).
-/

namespace Peiosutils.Mount

open Utf8 (encode)
open Calls (runFrom Performs Performed ofKind)

variable {env : Env} {args : Args} {req : MountRequest} {target : Bytes}

/-- The calls that enter the namespace, where one is asked for. -/
def nsCalls (req : MountRequest) : List Call :=
  match req.ns with
  | some ns => [.openNamespace (resolveNamespace ns), .setns (resolveNamespace ns)]
  | none => []

/-- What a change of propagation on its own asks for. -/
def standaloneCalls (req : MountRequest) (target : Bytes) : List Call :=
  nsCalls req ++ req.propagation.map fun change => change.call target

/-- A request of the command line that changes propagation of a lone target, without a structural verb and without
`--fake`. -/
structure Standalone (env : Env) (args : Args) (req : MountRequest) : Prop where
  built : build env.sddl args = .ok (.mount req)
  changes : req.propagation ≠ []
  plain : req.verb = .new
  lone : req.source = none
  real : req.fake = false

/-- Just the changes are applied to the target, behind the namespace, and only a call that fails lets the request fail. -/
def AppliesOnly (env : Env) (req : MountRequest) : Prop :=
  ∀ made, ∃ target new, (runFrom (env.canonicalize req.target req.noCanonicalizeTarget req.mkdir) made).1 = .ok target ∧
    (runFrom (env.execute req) made).2 = made ++ new ∧
    Performed Call.isMount (standaloneCalls req target) new (runFrom (env.execute req) made).1

/-! ## What is asked for -/

/-! ## What is done -/

theorem canonicalize_performs (env : Env) (path : Bytes) (noCanon : Bool) (mkdir : Option Nat) (made : Made) :
    ∃ path' new, runFrom (env.canonicalize path noCanon mkdir) made = (.ok path', made ++ new) ∧
      ofKind Call.isMount new = [] := by
  cases hmkdir : mkdir.isSome <;> cases noCanon
  · exact ⟨_, [], by rw [List.append_nil, Env.canonicalize, hmkdir]; rfl, rfl⟩
  · exact ⟨_, [], by rw [List.append_nil, Env.canonicalize, hmkdir]; rfl, rfl⟩
  · exact ⟨_, [(.createDirAll path, _)], by rw [Env.canonicalize, hmkdir]; rfl, rfl⟩
  · exact ⟨_, [(.createDirAll path, _)], by rw [Env.canonicalize, hmkdir]; rfl, rfl⟩

/-- A new mount without a source is refused, before any call of the mount interface. -/
theorem execute_standalone (env : Env) (hplain : req.verb = .new) (hlone : req.source = none) (made : Made) :
    ∃ new, runFrom (env.execute req) made =
        (.error (.usage "a source is required for a new mount".toList), made ++ new) ∧ ofKind Call.isMount new = [] := by
  obtain ⟨path, new, hrun, hnew⟩ := canonicalize_performs env req.target req.noCanonicalizeTarget req.mkdir made
  refine ⟨new, ?_, hnew⟩
  rw [Env.execute, Calls.runFrom_bind_ok hrun, hplain]
  refine Calls.runFrom_bind_error ?_ _
  simp only [Env.execNew, hlone]
  rfl

theorem not_appliesOnly_of_lone (hplain : req.verb = .new) (hlone : req.source = none) : ¬ AppliesOnly env req := by
  intro happlies
  obtain ⟨new, hrun, hnew⟩ := execute_standalone env hplain hlone []
  obtain ⟨target, new', -, hmade, hperformed⟩ := happlies []
  rw [hrun] at hmade hperformed
  have hsame : new = new' := hmade
  subst hsame
  -- a failure would need a call that failed
  cases hperformed with
  | failed hlast => simp [hnew] at hlast

/-- **A change of propagation on its own is never applied.** -/
theorem not_appliesOnly (env : Env) (args : Args) (req : MountRequest) (h : Standalone env args req) :
    ¬ AppliesOnly env req := not_appliesOnly_of_lone h.plain h.lone

/-- `mount --make-private /mnt`. -/
def makePrivateArgs : Args := { makePrivate := true, operands := [encode "/mnt".toList] }

def makePrivateRequest : MountRequest := request makePrivateArgs {} .new ⟨none, encode "/mnt".toList⟩

/-- An environment in which every call succeeds. -/
def willing : Env where
  answers := fun _ _ => .ok 3
  sddl := fun _ => .ok true
  realpath := fun _ path => some path
  resolveSource := .ok
  probeType := fun _ _ => .ok (encode "ext4".toList)
  maybeSetup := fun _ _ _ => .ok none
  mountinfo := fun _ => some []
  fsLog := fun _ _ => []

theorem makePrivate_standalone : Standalone willing makePrivateArgs makePrivateRequest where
  built := build_lone rfl rfl (by decide) rfl rfl rfl rfl
  changes := by decide
  plain := rfl
  lone := rfl
  real := rfl

theorem not_appliesOnly_makePrivate : ¬ AppliesOnly willing makePrivateRequest :=
  not_appliesOnly willing makePrivateArgs makePrivateRequest makePrivate_standalone

/-- `--make-private` is refused for the lack of a source, where every call would have succeeded. -/
theorem standalone_refused :
    ¬ ∀ (env : Env) (args : Args) (req : MountRequest), Standalone env args req → AppliesOnly env req := by
  intro hall
  exact not_appliesOnly_of_lone rfl rfl (hall willing makePrivateArgs makePrivateRequest makePrivate_standalone)

end Peiosutils.Mount
