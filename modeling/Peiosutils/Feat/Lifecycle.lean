import Peiosutils.Feat.Cmd
import Peiosutils.Lib.Runs

/-!
# What the recorded state says of the scripts

Whatever fails and wherever the process dies, a settled state is recorded only when its script is done, nothing is
uninstalled that was enabled and not disabled since, and nothing is enabled that was not installed since it was last
uninstalled; and `remove` and `add` come to their end from every state (`lifecycle_sound`). The facts that carry this
are those of `Facts`, of the recorded state and the history, which each event keeps.
-/

set_option autoImplicit false

namespace Peiosutils.Feat

open ByteStore History CallRun

/-! ## Plans -/

/-- The states in which a plan runs a step. -/
def Step.starts (step : Step) : List State :=
  match step.phase with
  | .install => [.notInstalled, .installing, .uninstalling]
  | .enable => [.installed, .enabling, .disabling]
  | .disable => [.enabled, .enabling, .disabling]
  | .uninstall => [.installed, .installing, .uninstalling]

/-- The four steps. -/
def Step.all : List Step := [.install, .enable, .disable, .uninstall]

/-- The actions fit the state that they find, each step the one before it. -/
def Fits : State → List Action → Prop
  | _, [] => True
  | state, .say _ :: actions => Fits state actions
  | state, .run step :: actions => step ∈ Step.all ∧ state ∈ step.starts ∧ Fits step.settled actions

/-- The state that the actions leave, if all goes well. -/
def leaves : State → List Action → State
  | state, [] => state
  | state, .say _ :: actions => leaves state actions
  | _, .run step :: actions => leaves step.settled actions

/-- A plan fits the state it is made for, and says where it leaves the feature. -/
theorem plan_fits {name : String} {verb : Verb} {state final : State} {actions : List Action}
    (h : plan name verb state = .ok (actions, final)) : Fits state actions ∧ leaves state actions = final := by
  cases verb <;> cases state <;> cases h <;>
    simp [Fits, leaves, Step.starts, Step.all, Step.install, Step.enable, Step.disable, Step.uninstall]

/-- A removal is planned from every state, and so is an addition. -/
theorem plan_remove (name : String) (state : State) : ∃ actions, plan name .remove state = .ok (actions, .notInstalled) := by
  cases state <;> exact ⟨_, rfl⟩

theorem plan_add (name : String) (state : State) : ∃ actions, plan name .add state = .ok (actions, .enabled) := by
  cases state <;> exact ⟨_, rfl⟩

/-! ## Facts -/

/-- The last two writes were the states of the step, and its script was done between them. -/
def SettledBy (step : Step) (h : List Event) : Prop :=
  ∃ pre mid post, h = pre ++ .wrote step.pending :: mid ++ .wrote step.settled :: post ∧
    .completed step.phase ∈ mid ∧ (∀ s, .wrote s ∉ mid) ∧ ∀ s, .wrote s ∉ post

/-- Nothing but lines was ever written. -/
def Quiet (h : List Event) : Prop := ∀ e ∈ h, ∃ line, e = .said line

/-- If `enable.sh` was ever started, `disable.sh` is done since. -/
def Off (h : List Event) : Prop := .started .enable ∈ h → After (.completed .disable) (.started .enable) h

/-- `install.sh` is done since `uninstall.sh` was last started. -/
def On (h : List Event) : Prop := After (.completed .install) (.started .uninstall) h

structure Facts (state : State) (h : List Event) : Prop where
  settled : state ∈ [State.notInstalled, .installed, .enabled] →
    Quiet h ∧ state = .notInstalled ∨ ∃ step ∈ Step.all, step.settled = state ∧ SettledBy step h
  off : state ∈ [State.notInstalled, .installing, .uninstalling, .installed] → Off h
  on : state ∈ [State.installed, .enabling, .disabling, .enabled] → On h
  uninstalls : Guarded (.started .uninstall) Off h
  enables : Guarded (.started .enable) On h

theorem Off.snoc {h : List Event} {e : Event} (hoff : Off h) (hne : e ≠ .started .enable) : Off (h ++ [e]) := by
  intro hmem
  rw [List.mem_append, List.mem_singleton] at hmem
  rcases hmem with hmem | rfl
  · exact (hoff hmem).snoc hne
  · exact absurd rfl hne

theorem On.snoc {h : List Event} {e : Event} (hon : On h) (hne : e ≠ .started .uninstall) : On (h ++ [e]) :=
  After.snoc hon hne

theorem SettledBy.snoc {step : Step} {h : List Event} {e : Event} (hs : SettledBy step h) (hne : ∀ s, e ≠ .wrote s) :
    SettledBy step (h ++ [e]) := by
  obtain ⟨pre, mid, post, rfl, hdone, hmid, hpost⟩ := hs
  refine ⟨pre, mid, post ++ [e], by simp, hdone, hmid, fun s => ?_⟩
  simpa [hpost s] using (hne s).symm

namespace Facts

variable {state : State} {h : List Event} {step : Step}

theorem start : Facts .notInstalled [] where
  settled _ := Or.inl ⟨fun e he => absurd he List.not_mem_nil, rfl⟩
  off _ he := absurd he List.not_mem_nil
  on hs := by simp at hs
  uninstalls := guarded_nil
  enables := guarded_nil

theorem said (hf : Facts state h) (line : String) : Facts state (h ++ [.said line]) where
  settled hs := by
    rcases hf.settled hs with ⟨hq, hn⟩ | ⟨step, hall, he, hset⟩
    · refine Or.inl ⟨fun e he => ?_, hn⟩
      rcases List.mem_append.1 he with he | he
      · exact hq e he
      · exact ⟨line, List.mem_singleton.1 he⟩
    · exact Or.inr ⟨step, hall, he, hset.snoc (by simp)⟩
  off hs := (hf.off hs).snoc (by simp)
  on hs := (hf.on hs).snoc (by simp)
  uninstalls := guarded_snoc.2 ⟨hf.uninstalls, by simp⟩
  enables := guarded_snoc.2 ⟨hf.enables, by simp⟩

/-- The pending state of a step that fits. -/
theorem pending (hf : Facts state h) (hall : step ∈ Step.all) (hs : state ∈ step.starts) :
    Facts step.pending (h ++ [.wrote step.pending]) where
  settled hp := by
    simp only [Step.all, List.mem_cons, List.not_mem_nil, or_false] at hall
    rcases hall with rfl | rfl | rfl | rfl <;> simp [Step.install, Step.enable, Step.disable, Step.uninstall] at hp
  off hp := by
    refine (hf.off ?_).snoc (by simp)
    simp only [Step.all, List.mem_cons, List.not_mem_nil, or_false] at hall
    rcases hall with rfl | rfl | rfl | rfl <;> revert hp hs <;> cases state <;> decide
  on hp := by
    refine (hf.on ?_).snoc (by simp)
    simp only [Step.all, List.mem_cons, List.not_mem_nil, or_false] at hall
    rcases hall with rfl | rfl | rfl | rfl <;> revert hp hs <;> cases state <;> decide
  uninstalls := guarded_snoc.2 ⟨hf.uninstalls, by simp⟩
  enables := guarded_snoc.2 ⟨hf.enables, by simp⟩

/-- The start of a step's script, once its pending state is written. -/
theorem started (hf : Facts step.pending h) (hall : step ∈ Step.all) :
    Facts step.pending (h ++ [.started step.phase]) := by
  simp only [Step.all, List.mem_cons, List.not_mem_nil, or_false] at hall
  rcases hall with rfl | rfl | rfl | rfl
  · exact ⟨by simp [Step.install], fun hp => (hf.off hp).snoc (by simp [Step.install]), by simp [Step.install],
      guarded_snoc.2 ⟨hf.uninstalls, by simp [Step.install]⟩, guarded_snoc.2 ⟨hf.enables, by simp [Step.install]⟩⟩
  · exact ⟨by simp [Step.enable], by simp [Step.enable], fun hp => (hf.on hp).snoc (by simp [Step.enable]),
      guarded_snoc.2 ⟨hf.uninstalls, by simp [Step.enable]⟩, guarded_snoc.2 ⟨hf.enables, fun _ => hf.on (by decide)⟩⟩
  · exact ⟨by simp [Step.disable], by simp [Step.disable], fun hp => (hf.on hp).snoc (by simp [Step.disable]),
      guarded_snoc.2 ⟨hf.uninstalls, by simp [Step.disable]⟩, guarded_snoc.2 ⟨hf.enables, by simp [Step.disable]⟩⟩
  · exact ⟨by simp [Step.uninstall], fun hp => (hf.off hp).snoc (by simp [Step.uninstall]), by simp [Step.uninstall],
      guarded_snoc.2 ⟨hf.uninstalls, fun _ => hf.off (by decide)⟩, guarded_snoc.2 ⟨hf.enables, by simp [Step.uninstall]⟩⟩

theorem completed (hf : Facts step.pending h) (hall : step ∈ Step.all) (phase : Phase) :
    Facts step.pending (h ++ [.completed phase]) where
  settled hp := by
    simp only [Step.all, List.mem_cons, List.not_mem_nil, or_false] at hall
    rcases hall with rfl | rfl | rfl | rfl <;> simp [Step.install, Step.enable, Step.disable, Step.uninstall] at hp
  off hp := (hf.off hp).snoc (by simp)
  on hp := (hf.on hp).snoc (by simp)
  uninstalls := guarded_snoc.2 ⟨hf.uninstalls, by simp⟩
  enables := guarded_snoc.2 ⟨hf.enables, by simp⟩

/-- The settled state of a step, once its script is done. -/
theorem settle {mid : List Event} (hall : step ∈ Step.all)
    (hf : Facts step.pending (h ++ .wrote step.pending :: mid ++ [.completed step.phase]))
    (hmid : ∀ s, .wrote s ∉ mid) :
    Facts step.settled (h ++ .wrote step.pending :: mid ++ [.completed step.phase] ++ [.wrote step.settled]) where
  settled _ := Or.inr ⟨step, hall, rfl, h, mid ++ [.completed step.phase], [], by simp, by simp, by simpa using hmid,
    by simp⟩
  off hp := by
    refine Off.snoc ?_ (by simp)
    simp only [Step.all, List.mem_cons, List.not_mem_nil, or_false] at hall
    rcases hall with rfl | rfl | rfl | rfl
    · exact hf.off (by decide)
    · exact absurd hp (by decide)
    · exact fun _ => after_done
    · exact hf.off (by decide)
  on hp := by
    refine On.snoc ?_ (by simp)
    simp only [Step.all, List.mem_cons, List.not_mem_nil, or_false] at hall
    rcases hall with rfl | rfl | rfl | rfl
    · exact after_done
    · exact hf.on (by decide)
    · exact hf.on (by decide)
    · exact absurd hp (by decide)
  uninstalls := guarded_snoc.2 ⟨hf.uninstalls, by simp⟩
  enables := guarded_snoc.2 ⟨hf.enables, by simp⟩

end Facts

/-! ## Runs -/

/-- The facts of a machine. -/
def Machine.Sound (m : Machine) : Prop := Facts (readState m) m.history

theorem readState_write (state : State) (h : List Event) : readState ⟨some (leBytes 4 state.asDword), h⟩ = state := by
  simp only [readState]
  rw [if_pos (by simp), List.take_of_length_le (by simp), leNat_leBytes_of_lt state.asDword_lt,
    State.fromDword_asDword]

@[simp] theorem readState_log (m : Machine) (e : Event) : readState (m.log e) = readState m := rfl

/-- A step that fits keeps the facts, wherever it stops, and ends in its settled state. -/
theorem transition_sound (name : String) {step : Step} (fates : Fates) {m : Machine} (hm : m.Sound)
    (hall : step ∈ Step.all) (hs : readState m ∈ step.starts) :
    (transition name step fates m).2.Sound ∧
      ((transition name step fates m).1 = none → readState (transition name step fates m).2 = step.settled) := by
  obtain ⟨pending, script, settled⟩ := fates
  cases pending with
  | refused e => exact ⟨hm, fun h => by cases h⟩
  | died => exact ⟨hm, fun h => by cases h⟩
  | written =>
    have h₁ : Facts step.pending (m.history ++ [.wrote step.pending]) := hm.pending hall hs
    have h₂ := h₁.started hall
    have hr := readState_write step.pending
    have hsound : ∀ {h}, Facts step.pending h → Machine.Sound ⟨some (leBytes 4 step.pending.asDword), h⟩ := by
      intro h hf
      rwa [Machine.Sound, hr]
    -- the write of the settled state, once the script is done
    have hlast : ∀ h mid, h = m.history ++ .wrote step.pending :: mid ++ [.completed step.phase] →
        (∀ s, .wrote s ∉ mid) → Facts step.pending h →
        let r := writeState step.settled settled ⟨some (leBytes 4 step.pending.asDword), h⟩
        r.2.Sound ∧ (r.1 = none → readState r.2 = step.settled) := by
      rintro h mid rfl hmid hf
      cases settled with
      | refused e => exact ⟨hsound hf, fun h => by cases h⟩
      | died => exact ⟨hsound hf, fun h => by cases h⟩
      | written =>
        refine ⟨?_, fun _ => readState_write _ _⟩
        simp only [Machine.Sound, writeState, readState_write]
        exact Facts.settle hall hf hmid
    cases script with
    | notStarted e => exact ⟨hsound h₁, fun h => by cases h⟩
    | died => exact ⟨hsound h₁, fun h => by cases h⟩
    | failed code => exact ⟨hsound h₂, fun h => by cases h⟩
    | interrupted => exact ⟨hsound h₂, fun h => by cases h⟩
    | missing => exact hlast _ [] rfl (by simp) (h₁.completed hall step.phase)
    | succeeded => exact hlast _ [.started step.phase] (by simp [Machine.log]) (by simp) (h₂.completed hall step.phase)

theorem perform_sound (name : String) (fates : Nat → Fates) : ∀ (actions : List Action) (n : Nat) {m : Machine},
    m.Sound → Fits (readState m) actions → (perform name fates n actions m).2.Sound
  | [], _, _, hm, _ => hm
  | .say line :: actions, n, _, hm, hfit => perform_sound name fates actions n (hm.said line) hfit
  | .run step :: actions, n, m, hm, ⟨hall, hs, hfit⟩ => by
    obtain ⟨hsound, hstate⟩ := transition_sound name (fates n) hm hall hs
    unfold perform
    split
    · rename_i stop m' heq
      rwa [heq] at hsound
    · rename_i m' heq
      rw [heq] at hsound hstate
      refine perform_sound name fates actions (n + 1) (hsound.said _) ?_
      rw [readState_log, hstate rfl]
      exact hfit

theorem change_sound (name : String) (call : Call) {m : Machine} (hm : m.Sound) : (change name call m).2.Sound := by
  unfold change
  split
  · exact hm
  · split
    · exact hm
    · split
      · exact hm
      · rename_i actions _ hplan
        exact perform_sound name call.fates actions 0 hm (plan_fits hplan).1

theorem lifecycle_keeps (name : String) (calls : List Call) : (lifecycle name calls).Sound :=
  run_invariant (fun _ _ => True) Machine.Sound (fun _ call hm _ => change_sound name call hm) Facts.start
    (along_of_forall (fun _ _ => trivial) _)

/-! ## Smooth calls -/

/-- Every write is made, and every script succeeds or is missing. -/
def Fates.Smooth (f : Fates) : Prop :=
  f.pending = .written ∧ (f.script = .missing ∨ f.script = .succeeded) ∧ f.settled = .written

/-- A call on a feature that is there, with all scripts succeeding. -/
def Call.Smooth (call : Call) : Prop := call.defined = true ∧ call.unread = none ∧ ∀ n, (call.fates n).Smooth

theorem transition_smooth (name : String) (step : Step) {fates : Fates} (h : fates.Smooth) (m : Machine) :
    ∃ m', transition name step fates m = (none, m') ∧ readState m' = step.settled := by
  obtain ⟨pending, script, settled⟩ := fates
  obtain ⟨rfl, hscript, rfl⟩ := h
  rcases hscript with rfl | rfl <;> exact ⟨_, rfl, readState_write _ _⟩

theorem perform_smooth (name : String) {fates : Nat → Fates} (h : ∀ n, (fates n).Smooth) :
    ∀ (actions : List Action) (n : Nat) (m : Machine), ∃ m', perform name fates n actions m = (none, m') ∧
      readState m' = leaves (readState m) actions
  | [], _, m => ⟨m, rfl, rfl⟩
  | .say line :: actions, n, m => perform_smooth name h actions n (m.log (.said line))
  | .run step :: actions, n, m => by
    obtain ⟨m₁, h₁, hs₁⟩ := transition_smooth name step (h n) m
    obtain ⟨m', h', hs'⟩ := perform_smooth name h actions (n + 1) (m₁.log (.said (step.said ++ " " ++ name)))
    refine ⟨m', ?_, ?_⟩
    · rw [perform, h₁]
      exact h'
    · rw [hs', readState_log, hs₁]
      rfl

/-- A smooth call leaves the feature where its plan says. -/
theorem change_smooth (name : String) {call : Call} (h : call.Smooth) {m : Machine} {actions : List Action}
    {final : State} (hplan : plan name call.verb (readState m) = .ok (actions, final)) :
    ∃ m', change name call m = (none, m') ∧ readState m' = final := by
  obtain ⟨hdef, hread, hfates⟩ := h
  obtain ⟨m', hm', hs⟩ := perform_smooth name hfates actions 0 m
  refine ⟨m', ?_, hs.trans (plan_fits hplan).2⟩
  unfold change
  rw [hdef, hread]
  simp only [hplan]
  exact hm'

/-- Over any sequence of verbs, with any failures: a settled state is recorded only when its script is done, no script
is started before the ones that have to be done, and removal and addition can always be completed. -/
theorem lifecycle_sound (name : String) (calls : List Call) :
    let m := lifecycle name calls
    (readState m ∈ [State.notInstalled, .installed, .enabled] →
      Quiet m.history ∧ readState m = .notInstalled ∨
        ∃ step ∈ Step.all, step.settled = readState m ∧ SettledBy step m.history) ∧
    (∀ pre post, m.history = pre ++ .started .uninstall :: post →
      .started .enable ∈ pre → After (.completed .disable) (.started .enable) pre) ∧
    (∀ pre post, m.history = pre ++ .started .enable :: post →
      After (.completed .install) (.started .uninstall) pre) ∧
    (∀ call : Call, call.Smooth → call.verb = .remove →
      ∃ m', change name call m = (none, m') ∧ readState m' = .notInstalled) ∧
    ∀ call : Call, call.Smooth → call.verb = .add → ∃ m', change name call m = (none, m') ∧ readState m' = .enabled := by
  have hm := lifecycle_keeps name calls
  refine ⟨hm.settled, hm.uninstalls, hm.enables, fun call hc hv => ?_, fun call hc hv => ?_⟩
  · obtain ⟨actions, hplan⟩ := plan_remove name (readState (lifecycle name calls))
    exact change_smooth name hc (hv ▸ hplan)
  · obtain ⟨actions, hplan⟩ := plan_add name (readState (lifecycle name calls))
    exact change_smooth name hc (hv ▸ hplan)

end Peiosutils.Feat
