import Peiosutils.Mount.Options

/-!
# Requests (`mount/src/request.rs`, `verb.rs`)

The command line is turned into a request: the options of every `-o` are joined and parsed, the flags and meta options
decide the verb, and source and target come from the operands and their flags. A request without a structural verb that
changes propagation takes a lone target (`build_lone`).
-/

set_option autoImplicit false

namespace Peiosutils.Mount

open Regman (Str fromUtf8)
open Utf8 (encode)

/-! ## Verbs -/

inductive Verb where
  | new
  | bind (recursive : Bool)
  | move
  | beneath
  | remount
  deriving DecidableEq, Repr

structure VerbFlags where
  bind : Bool := false
  rbind : Bool := false
  move : Bool := false
  beneath : Bool := false

/-- The structural verb of the flags and the meta options; at most one, but for `bind` with `rbind`. -/
def resolveVerb (flags : VerbFlags) (o : ParsedOptions) : Except MountError Verb :=
  let chosen : List Verb :=
    (if flags.bind || o.metaBind then [.bind false] else []) ++ (if flags.rbind || o.metaRbind then [.bind true] else []) ++
      (if flags.move || o.metaMove then [.move] else []) ++ (if flags.beneath then [.beneath] else []) ++
      (if o.metaRemount then [.remount] else [])
  match chosen with
  | [] => .ok .new
  | [.bind _, .bind _] => .ok (.bind true)
  | [one] => .ok one
  | _ => usage "the bind/rbind, move, beneath and remount verbs are mutually exclusive".toList

def verbTakesLoneTarget (verb : Verb) : Bool := verb = .remount

/-! ## Operands -/

structure Operands where
  source : Option Bytes
  target : Bytes
  deriving DecidableEq

def missingTarget : MountError := .usage "a target is required".toList

def resolveOperands (verb : Verb) (positionals : List Bytes) (srcFlag tgtFlag : Option Bytes) (propagationOnly : Bool) :
    Except MountError Operands :=
  let loneTarget := verbTakesLoneTarget verb || propagationOnly
  match srcFlag, tgtFlag with
  | some s, some t => .ok ⟨some s, t⟩
  | some s, none =>
    match positionals.head? with
    | some t => .ok ⟨some s, t⟩
    | none => .error missingTarget
  | none, some t => .ok ⟨positionals.head?, t⟩
  | none, none =>
    match positionals with
    | [] => .error missingTarget
    | [target] =>
      if loneTarget then .ok ⟨none, target⟩
      else
        usage ("a single operand cannot be resolved without /etc/fstab; " ++
          "supply both SOURCE and TARGET, or use --source/--target").toList
    | [source, target] => .ok ⟨some source, target⟩
    | _ => usage "too many operands".toList

/-! ## Command lines -/

/-- The arguments, as they are matched. -/
structure Args where
  types : Option Bytes := none
  options : List Bytes := []
  readOnly : Bool := false
  readWrite : Bool := false
  verbose : Nat := 0
  fake : Bool := false
  operands : List Bytes := []
  source : Option Bytes := none
  target : Option Bytes := none
  targetPrefix : Option Bytes := none
  bind : Bool := false
  rbind : Bool := false
  move : Bool := false
  beneath : Bool := false
  makeShared : Bool := false
  makeSlave : Bool := false
  makePrivate : Bool := false
  makeUnbindable : Bool := false
  makeRshared : Bool := false
  makeRslave : Bool := false
  makeRprivate : Bool := false
  makeRunbindable : Bool := false
  exclusive : Bool := false
  mkdir : Option Str := none
  noCanonicalize : Bool := false
  showLabels : Bool := false
  onlyonce : Bool := false
  ns : Option Bytes := none
  internalOnly : Bool := false
  synthSddl : Option Bytes := none
  label : Option Bytes := none
  uuid : Option Bytes := none

structure ListRequest where
  typeFilter : Option Bytes
  showLabels : Bool

structure MountRequest where
  verb : Verb
  source : Option Bytes
  target : Bytes
  fstype : Option Bytes
  options : ParsedOptions
  propagation : List PropChange
  noCanonicalizeSource : Bool
  noCanonicalizeTarget : Bool
  mkdir : Option Nat
  exclusive : Bool
  onlyonce : Bool
  internalOnly : Bool
  ns : Option Bytes
  synthSddl : Option Bytes
  targetPrefix : Option Bytes
  fake : Bool
  verbose : Nat

inductive Action where
  | list (req : ListRequest)
  | mount (req : MountRequest)

def pushOpt (buf opt : Bytes) : Bytes := if buf = [] then opt else buf ++ 44 :: opt

/-- The options of the command line, joined with commas. -/
def Args.rawOpts (args : Args) : Bytes :=
  let raw := args.options.foldl pushOpt []
  let raw := if args.readOnly then pushOpt raw (encode "ro".toList) else raw
  if args.readWrite then pushOpt raw (encode "rw".toList) else raw

def Args.verbFlags (args : Args) : VerbFlags := ⟨args.bind, args.rbind, args.move, args.beneath⟩

def collectPropagation (args : Args) (options : ParsedOptions) : List PropChange :=
  let flags : List (Bool × PropChange) :=
    [(args.makeShared, ⟨.shared, false⟩), (args.makeSlave, ⟨.slave, false⟩), (args.makePrivate, ⟨.priv, false⟩),
      (args.makeUnbindable, ⟨.unbindable, false⟩), (args.makeRshared, ⟨.shared, true⟩), (args.makeRslave, ⟨.slave, true⟩),
      (args.makeRprivate, ⟨.priv, true⟩), (args.makeRunbindable, ⟨.unbindable, true⟩)]
  options.propagation ++ (flags.filter Prod.fst).map Prod.snd

def mkdirMode (args : Args) : Option Nat :=
  args.mkdir.map fun s => (Numeral.parseOctal (2 ^ 32 - 1) (encode (trimOctal s))).getD 0o755

def tagSource (args : Args) : Option Bytes :=
  match args.label, args.uuid with
  | some label, _ => some (encode "LABEL=".toList ++ label)
  | none, some uuid => some (encode "UUID=".toList ++ uuid)
  | none, none => none

/-- The two paths with one `/` between them. -/
def joinPath (path rest : Bytes) : Bytes :=
  let out := if path.getLast? = some 47 then path else path ++ [47]
  out ++ (if rest.head? = some 47 then rest.drop 1 else rest)

def Args.fstype (args : Args) : Option Bytes := args.types.filter fun t => t ≠ encode "auto".toList

/-! ## Validity -/

/-- The template of a security descriptor. `sddl` parses the text, with an error or whether there is an owner. -/
def parseTemplate (sddl : Str → Except Str Bool) (template : Option Bytes) : Except MountError Unit :=
  match template with
  | none => .ok ()
  | some bytes =>
    match fromUtf8 bytes with
    | none => usage "--synth-sddl must be valid SDDL text".toList
    | some text =>
      match sddl text with
      | .error e => usage ("invalid --synth-sddl: ".toList ++ e)
      | .ok hasOwner =>
        if hasOwner then .ok () else usage "--synth-sddl must include an owner (e.g. O:SY)".toList

def validate (sddl : Str → Except Str Bool) (req : MountRequest) : Except MountError Unit :=
  if req.options.policy.isSome ∧ req.verb ≠ .new then
    usage "policy= is only valid on a new mount (not with bind/move/beneath/remount)".toList
  else if req.synthSddl.isSome ∧ ¬ (req.options.policy = some .synthEphemeral ∨ req.options.policy = some .synthPersist) then
    usage "--synth-sddl requires -o policy=synth-ephemeral or synth-persist".toList
  else parseTemplate sddl req.synthSddl

/-! ## Requests -/

/-- The request, before it is validated. -/
def request (args : Args) (options : ParsedOptions) (verb : Verb) (operands : Operands) : MountRequest where
  verb := verb
  source := operands.source
  target :=
    match args.targetPrefix with
    | some path => joinPath path operands.target
    | none => operands.target
  fstype := args.fstype
  options := options
  propagation := collectPropagation args options
  noCanonicalizeSource := args.noCanonicalize || options.nocanonSource
  noCanonicalizeTarget := args.noCanonicalize || options.nocanonTarget
  mkdir := (mkdirMode args).or options.mkdir
  exclusive := args.exclusive
  onlyonce := args.onlyonce
  internalOnly := args.internalOnly
  ns := args.ns
  synthSddl := args.synthSddl
  targetPrefix := args.targetPrefix
  fake := args.fake
  verbose := args.verbose

/-- `request::build`. -/
def build (sddl : Str → Except Str Bool) (args : Args) : Except MountError Action := do
  let options ← parse args.rawOpts
  let verb ← resolveVerb args.verbFlags options
  let propagation := collectPropagation args options
  let srcFlag := (tagSource args).or args.source
  if args.operands = [] ∧ srcFlag = none ∧ args.target = none ∧ verb = .new ∧ propagation = [] then
    return .list ⟨args.fstype, args.showLabels⟩
  else do
    let propagationOnly := !propagation.isEmpty && verb = .new
    let operands ← resolveOperands verb args.operands srcFlag args.target propagationOnly
    let req := request args options verb operands
    validate sddl req
    return .mount req

/-! ## A lone target -/

/-- A lone operand is the target of a change of propagation, and there is no source. -/
theorem resolveOperands_lone (target : Bytes) : resolveOperands .new [target] none none true = .ok ⟨none, target⟩ := rfl

/-- A lone operand with a change of propagation, without a structural verb, is accepted. -/
theorem build_lone {sddl : Str → Except Str Bool} {args : Args} {options : ParsedOptions} {target : Bytes}
    (hoptions : parse args.rawOpts = .ok options) (hverb : resolveVerb args.verbFlags options = .ok .new)
    (hprop : collectPropagation args options ≠ []) (hoperands : args.operands = [target])
    (hsource : (tagSource args).or args.source = none) (htarget : args.target = none)
    (hvalid : validate sddl (request args options .new ⟨none, target⟩) = .ok ()) :
    build sddl args = .ok (.mount (request args options .new ⟨none, target⟩)) := by
  have hempty : (collectPropagation args options).isEmpty = false := by
    rwa [List.isEmpty_eq_false_iff]
  rw [build, hoptions]
  simp only [bind, Except.bind, hverb, hoperands, hsource, htarget, hempty]
  rw [if_neg (by simp)]
  simp only [Bool.not_false, Bool.true_and, decide_true, resolveOperands_lone, hvalid]
  rfl

end Peiosutils.Mount
