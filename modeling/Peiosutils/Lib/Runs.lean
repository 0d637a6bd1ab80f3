import Mathlib.Data.List.Basic

/-!
# Runs of calls

A call `c` in a state `s` has a result and a next state, `eval c s`. `run` makes calls in order, and `Along P` says
that each of them meets `P` in the state in which it is made. What one call preserves, a run preserves
(`run_invariant`), and then every call of the run is made in a good state (`along_of_invariant`).
-/

set_option autoImplicit false

namespace CallRun

variable {C S R : Type} (eval : C → S → R × S)

/-- The state after the calls. -/
def run : List C → S → S
  | [], s => s
  | c :: cs, s => run cs (eval c s).2

/-- Every call meets `P` in the state in which it is made. -/
def Along (P : S → C → Prop) : List C → S → Prop
  | [], _ => True
  | c :: cs, s => P s c ∧ Along P cs (eval c s).2

theorem along_of_forall {eval : C → S → R × S} {Q : C → Prop} : ∀ {cs : List C}, (∀ c ∈ cs, Q c) → ∀ s,
    Along eval (fun _ c => Q c) cs s
  | [], _, _ => trivial
  | c :: _, h, s => ⟨h c (by simp), along_of_forall (fun c' hc' => h c' (by simp [hc'])) _⟩

section Invariant

variable {eval} (P : S → C → Prop) (Inv : S → Prop) (hstep : ∀ s c, Inv s → P s c → Inv (eval c s).2)

include hstep

/-- What one call preserves, a run preserves. -/
theorem run_invariant {cs : List C} {s : S} (hs : Inv s) (h : Along eval P cs s) : Inv (run eval cs s) := by
  induction cs generalizing s with
  | nil => exact hs
  | cons c cs ih => exact ih (hstep s c hs h.1) h.2

/-- What follows in good states holds of every call of a run that starts in one. -/
theorem along_of_invariant (Q : S → C → Prop) (himp : ∀ s c, Inv s → P s c → Q s c) {cs : List C} {s : S}
    (hs : Inv s) (h : Along eval P cs s) : Along eval Q cs s := by
  induction cs generalizing s with
  | nil => trivial
  | cons c cs ih => exact ⟨himp s c hs h.1, ih (hstep s c hs h.1) h.2⟩

end Invariant

end CallRun

/-!
# Programs that make calls

A program asks its environment one call after the other, and each call is recorded with its answer. The environment may
answer by all the calls that were made before. `Performs cs` says that a program makes the calls `cs` in order, up to the
first one that fails, and that it fails exactly there; the calls of a list that are attempted one by one are performed
(`performs_each`), and so is one list of calls behind another (`Performs.append`).
-/

namespace Calls

variable {C R E ε : Type}

/-- The calls that were made, with their answers. -/
abbrev Record (C R ε : Type) := List (C × Except ε R)

/-- A program: what it gives, and the record behind the one that it starts from. -/
abbrev Prog (C R ε E α : Type) := ExceptT E (StateM (Record C R ε)) α

/-- The answer of a call, by the calls before it. -/
abbrev Answers (C R ε : Type) := Record C R ε → C → Except ε R

variable {α β : Type}

/-- The result, and the record. -/
def runFrom (p : Prog C R ε E α) (made : Record C R ε) : Except E α × Record C R ε := p.run made

/-- Make a call, and go on with its answer or fail with its error. -/
def attempt (answers : Answers C R ε) (toError : ε → E) (c : C) : Prog C R ε E R := ExceptT.mk fun made =>
  match answers made c with
  | .ok r => (.ok r, made ++ [(c, .ok r)])
  | .error e => (.error (toError e), made ++ [(c, .error e)])

@[simp] theorem runFrom_pure (a : α) (made : Record C R ε) :
    runFrom (pure a : Prog C R ε E α) made = (.ok a, made) := rfl

@[simp] theorem runFrom_throw (e : E) (made : Record C R ε) :
    runFrom (throw e : Prog C R ε E α) made = (.error e, made) := rfl

theorem runFrom_bind_ok {p : Prog C R ε E α} {made made' : Record C R ε} {a : α} (h : runFrom p made = (.ok a, made'))
    (f : α → Prog C R ε E β) : runFrom (p >>= f) made = runFrom (f a) made' := by
  show ExceptT.bindCont f (p made).1 (p made).2 = _
  rw [show p made = (.ok a, made') from h]
  rfl

theorem runFrom_bind_error {p : Prog C R ε E α} {made made' : Record C R ε} {e : E}
    (h : runFrom p made = (.error e, made')) (f : α → Prog C R ε E β) :
    runFrom (p >>= f) made = (.error e, made') := by
  show ExceptT.bindCont f (p made).1 (p made).2 = _
  rw [show p made = (.error e, made') from h]
  rfl

theorem runFrom_attempt_ok {answers : Answers C R ε} {toError : ε → E} {c : C} {made : Record C R ε} {r : R}
    (h : answers made c = .ok r) : runFrom (attempt answers toError c) made = (.ok r, made ++ [(c, .ok r)]) := by
  show (attempt answers toError c) made = _
  unfold attempt
  simp only [ExceptT.mk, h]

theorem runFrom_attempt_error {answers : Answers C R ε} {toError : ε → E} {c : C} {made : Record C R ε} {e : ε}
    (h : answers made c = .error e) :
    runFrom (attempt answers toError c) made = (.error (toError e), made ++ [(c, .error e)]) := by
  show (attempt answers toError c) made = _
  unfold attempt
  simp only [ExceptT.mk, h]

/-! ## Calls that are performed -/

/-- The calls of a kind, with their answers. -/
def ofKind (relevant : C → Bool) (made : Record C R ε) : Record C R ε := made.filter fun m => relevant m.1

/-- Of the calls of a kind all that are asked for were made, in order, and all were answered; or those up to the first that
failed, and with it the program. -/
inductive Performed (relevant : C → Bool) (cs : List C) (made : Record C R ε) : Except E α → Prop
  | all {a : α} (hcalls : (ofKind relevant made).map Prod.fst = cs) (hok : ∀ m ∈ ofKind relevant made, m.2.isOk = true) :
    Performed relevant cs made (.ok a)
  | failed {e : E} {done : Record C R ε} {last : C × Except ε R} {rest : List C}
    (hmade : ofKind relevant made = done ++ [last]) (hcalls : (done ++ [last]).map Prod.fst ++ rest = cs)
    (hok : ∀ m ∈ done, m.2.isOk = true) (hfailed : last.2.isOk = false) : Performed relevant cs made (.error e)

/-- Whatever was called before, the calls are performed. -/
def Performs (relevant : C → Bool) (p : Prog C R ε E α) (cs : List C) : Prop :=
  ∀ made, ∃ new, (runFrom p made).2 = made ++ new ∧ Performed relevant cs new (runFrom p made).1

variable {relevant : C → Bool} {answers : Answers C R ε} {toError : ε → E}

theorem performs_pure (a : α) : Performs relevant (pure a : Prog C R ε E α) [] :=
  fun made => ⟨[], by simp, .all rfl (by simp [ofKind])⟩

theorem performs_attempt {c : C} (h : relevant c = true) : Performs relevant (attempt answers toError c) [c] := by
  intro made
  cases hanswer : answers made c with
  | ok r =>
    rw [runFrom_attempt_ok hanswer]
    exact ⟨_, rfl, .all (by simp [ofKind, h]) (by simp [ofKind, h, Except.isOk, Except.toBool])⟩
  | error e =>
    rw [runFrom_attempt_error hanswer]
    have hmade : ofKind relevant [(c, Except.error e)] = ([] : Record C R ε) ++ [(c, .error e)] := by simp [ofKind, h]
    exact ⟨_, rfl, .failed hmade (List.append_nil _) (by simp) rfl⟩

/-- **One program behind another.** -/
theorem Performs.bind {p : Prog C R ε E α} {q : α → Prog C R ε E β} {cs ds : List C} (hp : Performs relevant p cs)
    (hq : ∀ a, Performs relevant (q a) ds) : Performs relevant (p >>= q) (cs ++ ds) := by
  intro made
  obtain ⟨new, hmade, hperformed⟩ := hp made
  generalize hrun : runFrom p made = r at hmade hperformed
  obtain ⟨res, made'⟩ := r
  simp only at hmade hperformed
  subst hmade
  cases hperformed with
  | @all a hcalls hok =>
    rw [runFrom_bind_ok hrun]
    obtain ⟨new', hmade', hperformed'⟩ := hq a (made ++ new)
    refine ⟨new ++ new', by rw [hmade', List.append_assoc], ?_⟩
    generalize (runFrom (q a) (made ++ new)).1 = res' at hperformed'
    have hkind : ofKind relevant (new ++ new') = ofKind relevant new ++ ofKind relevant new' := List.filter_append ..
    cases hperformed' with
    | all hcalls' hok' =>
      refine .all ?_ ?_
      · rw [hkind, List.map_append, hcalls, hcalls']
      · rw [hkind]
        exact List.forall_mem_append.2 ⟨hok, hok'⟩
    | @failed _ done last rest hmade' hcalls' hok' hfailed =>
      have hall : ofKind relevant (new ++ new') = (ofKind relevant new ++ done) ++ [last] := by
        rw [hkind, hmade', List.append_assoc]
      have hall' : (ofKind relevant new ++ done ++ [last]).map Prod.fst ++ rest = cs ++ ds := by
        rw [List.append_assoc, List.map_append, hcalls, List.append_assoc, hcalls']
      exact .failed hall hall' (List.forall_mem_append.2 ⟨hok, hok'⟩) hfailed
  | @failed e done last rest hmade hcalls hok hfailed =>
    rw [runFrom_bind_error hrun]
    have hall : (done ++ [last]).map Prod.fst ++ (rest ++ ds) = cs ++ ds := by rw [← List.append_assoc, hcalls]
    exact ⟨new, rfl, .failed hmade hall hok hfailed⟩

/-- A call for each item. -/
theorem performs_forM {f : β → Prog C R ε E Unit} {c : β → C} {xs : List β} (h : ∀ x ∈ xs, Performs relevant (f x) [c x]) :
    Performs relevant (xs.forM f) (xs.map c) := by
  induction xs with
  | nil => exact performs_pure ()
  | cons x xs ih =>
    rw [List.map_cons, ← List.singleton_append]
    exact (h x List.mem_cons_self).bind fun _ => ih fun y hy => h y (List.mem_cons_of_mem x hy)

end Calls

/-!
# Histories

A history is the list of what happened, first to last. `After done since h` says that `done` happened after the last
`since`, and `Guarded e P h` that `P` held of the past each time that `e` happened. Both are read off one event at a time
(`After.snoc`, `guarded_snoc`).
-/

namespace History

variable {α : Type} {done since e : α} {P : List α → Prop} {h : List α}

/-- `done` happened, and `since` has not happened since. -/
def After (done since : α) (h : List α) : Prop := ∃ pre post, h = pre ++ done :: post ∧ since ∉ post

theorem after_done : After done since (h ++ [done]) := ⟨h, [], rfl, List.not_mem_nil⟩

theorem After.snoc (ha : After done since h) (hne : e ≠ since) : After done since (h ++ [e]) := by
  obtain ⟨pre, post, rfl, hno⟩ := ha
  refine ⟨pre, post ++ [e], by simp, ?_⟩
  simpa [hno] using hne.symm

/-- Each time `e` happened, `P` held of what had happened. -/
def Guarded (e : α) (P : List α → Prop) (h : List α) : Prop := ∀ pre post, h = pre ++ e :: post → P pre

theorem guarded_nil : Guarded e P [] := fun pre post h => by simp at h

theorem guarded_snoc {x : α} : Guarded e P (h ++ [x]) ↔ Guarded e P h ∧ (x = e → P h) := by
  constructor
  · intro hg
    refine ⟨fun pre post he => hg pre (post ++ [x]) (by simp [he]), ?_⟩
    rintro rfl
    exact hg h [] rfl
  · rintro ⟨hg, hx⟩ pre post he
    rcases List.eq_nil_or_concat post with rfl | ⟨post, y, rfl⟩
    · obtain ⟨rfl, hxe⟩ := List.append_inj' he rfl
      exact hx (by simpa using hxe)
    · have he : h ++ [x] = (pre ++ e :: post) ++ [y] := by simpa using he
      exact hg pre post (List.append_inj' he rfl).1

end History
