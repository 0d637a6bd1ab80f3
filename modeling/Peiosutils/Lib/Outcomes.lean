import Mathlib.Tactic.Basic

/-!
# Computations with a state that end

A computation with a state and errors that may not end, and what holds when it ends without an error (`Ends`). The rules
follow the computation: `ends_pure`, `ends_throw`, `ends_bind`, and `ends_ok` and `ends_error` for a single step.
-/

set_option autoImplicit false

namespace Ending

variable {σ ε α β : Type}

/-- The computation ends, in an error or with a result and a state that meet `Q`. -/
def Ends (m : StateT σ (ExceptT ε Option) α) (s : σ) (Q : α → σ → Prop) : Prop :=
  match (m.run s).run with
  | none => False
  | some (.error _) => True
  | some (.ok (a, s')) => Q a s'

theorem ends_pure {a : α} {s : σ} {Q : α → σ → Prop} (h : Q a s) : Ends (pure a : StateT σ (ExceptT ε Option) α) s Q := h

theorem ends_throw (e : ε) {s : σ} {Q : α → σ → Prop} : Ends (throw e : StateT σ (ExceptT ε Option) α) s Q := trivial

/-- A step that is known. -/
theorem ends_ok {m : StateT σ (ExceptT ε Option) α} {s s' : σ} {a : α} {Q : α → σ → Prop} (h : m s = pure (a, s'))
    (hq : Q a s') : Ends m s Q := by
  unfold Ends
  rw [StateT.run, h]
  exact hq

theorem ends_error {m : StateT σ (ExceptT ε Option) α} {s : σ} {e : ε} {Q : α → σ → Prop} (h : m s = throw e) :
    Ends m s Q := by
  unfold Ends
  rw [StateT.run, h]
  trivial

theorem ends_bind {m : StateT σ (ExceptT ε Option) α} {f : α → StateT σ (ExceptT ε Option) β} {s : σ}
    {Q : β → σ → Prop} (h : Ends m s fun a s' => Ends (f a) s' Q) : Ends (m >>= f) s Q := by
  unfold Ends at h ⊢
  have hbind : ((m >>= f).run s).run = ((m.run s).run).bind fun r =>
      match r with
      | .error e => some (.error e)
      | .ok (a, s') => ((f a).run s').run := by
    simp only [StateT.run_bind, ExceptT.run_bind]
    cases (m.run s).run with
    | none => rfl
    | some r => cases r <;> rfl
  rw [hbind]
  cases hm : (m.run s).run with
  | none =>
    rw [hm] at h
    exact h
  | some r =>
    rw [hm] at h
    cases r with
    | error e => trivial
    | ok r => exact h

theorem Ends.mono {m : StateT σ (ExceptT ε Option) α} {s : σ} {Q R : α → σ → Prop} (h : Ends m s Q)
    (himp : ∀ a s', Q a s' → R a s') : Ends m s R := by
  unfold Ends at h ⊢
  cases hm : (m.run s).run with
  | none =>
    rw [hm] at h
    exact h
  | some r =>
    rw [hm] at h
    cases r with
    | error e => trivial
    | ok r => exact himp _ _ h

/-- A computation that meets something and then goes on. -/
theorem Ends.andThen {m : StateT σ (ExceptT ε Option) α} {f : α → StateT σ (ExceptT ε Option) β} {s : σ}
    {P : α → σ → Prop} {Q : β → σ → Prop} (h : Ends m s P) (hnext : ∀ a s', P a s' → Ends (f a) s' Q) :
    Ends (m >>= f) s Q := ends_bind (h.mono hnext)

end Ending

/-!
# What computations with a state come to

Of a computation with a state and errors that may not end: what holds of every result (`Yields`), that it does not fail
and what holds of its result (`Succeeds`), and that it does the same as another one on another state (`Follows`). The
rules follow the computation.
-/

namespace Outcomes

variable {σ τ ε δ α β : Type}

/-- What a computation comes to from a state. -/
def outcome (m : StateT σ (ExceptT ε Option) α) (s : σ) : Option (Except ε (α × σ)) := (m.run s).run

/-- The rest of a computation, from what its beginning came to. -/
def resume (f : α → StateT σ (ExceptT ε Option) β) : Except ε (α × σ) → Option (Except ε (β × σ))
  | .error e => some (.error e)
  | .ok r => outcome (f r.1) r.2

theorem outcome_bind (m : StateT σ (ExceptT ε Option) α) (f : α → StateT σ (ExceptT ε Option) β) (s : σ) :
    outcome (m >>= f) s = (outcome m s).bind (resume f) := by
  simp only [outcome, StateT.run_bind, ExceptT.run_bind]
  cases (m.run s).run with
  | none => rfl
  | some r => cases r <;> rfl

theorem outcome_bind_ok {m : StateT σ (ExceptT ε Option) α} {f : α → StateT σ (ExceptT ε Option) β} {s s' : σ} {a : α}
    (h : outcome m s = some (.ok (a, s'))) : outcome (m >>= f) s = outcome (f a) s' := by
  rw [outcome_bind, h]
  rfl

theorem outcome_bind_error {m : StateT σ (ExceptT ε Option) α} {f : α → StateT σ (ExceptT ε Option) β} {s : σ} {e : ε}
    (h : outcome m s = some (.error e)) : outcome (m >>= f) s = some (.error e) := by
  rw [outcome_bind, h]
  rfl

theorem outcome_bind_none {m : StateT σ (ExceptT ε Option) α} {f : α → StateT σ (ExceptT ε Option) β} {s : σ}
    (h : outcome m s = none) : outcome (m >>= f) s = none := by
  rw [outcome_bind, h]
  rfl

/-! ## Results -/

/-- Every result meets `Q`. -/
def Yields (m : StateT σ (ExceptT ε Option) α) (s : σ) (Q : α → σ → Prop) : Prop :=
  ∀ a s', outcome m s = some (.ok (a, s')) → Q a s'

theorem yields_pure {a : α} {s : σ} {Q : α → σ → Prop} (h : Q a s) :
    Yields (pure a : StateT σ (ExceptT ε Option) α) s Q := by
  intro a' s' heq
  cases heq
  exact h

theorem yields_ok {m : StateT σ (ExceptT ε Option) α} {s s' : σ} {a : α} {Q : α → σ → Prop}
    (h : outcome m s = some (.ok (a, s'))) (hq : Q a s') : Yields m s Q := by
  intro a' s'' heq
  cases h.symm.trans heq
  exact hq

theorem yields_error {m : StateT σ (ExceptT ε Option) α} {s : σ} {e : ε} {Q : α → σ → Prop}
    (h : outcome m s = some (.error e)) : Yields m s Q := by
  intro a s' heq
  cases h.symm.trans heq

theorem yields_none {m : StateT σ (ExceptT ε Option) α} {s : σ} {Q : α → σ → Prop} (h : outcome m s = none) :
    Yields m s Q := by
  intro a s' heq
  cases h.symm.trans heq

theorem Yields.andThen {m : StateT σ (ExceptT ε Option) α} {f : α → StateT σ (ExceptT ε Option) β} {s : σ}
    {P : α → σ → Prop} {Q : β → σ → Prop} (h : Yields m s P) (hf : ∀ a s', P a s' → Yields (f a) s' Q) :
    Yields (m >>= f) s Q := by
  intro b s'' heq
  cases hm : outcome m s with
  | none =>
    rw [outcome_bind_none hm] at heq
    cases heq
  | some r =>
    cases r with
    | error e =>
      rw [outcome_bind_error hm] at heq
      cases heq
    | ok r =>
      rw [outcome_bind_ok hm] at heq
      exact hf r.1 r.2 (h r.1 r.2 hm) b s'' heq

/-! ## Successes -/

/-- There is no error, and a result meets `Q`. -/
def Succeeds (m : StateT σ (ExceptT ε Option) α) (s : σ) (Q : α → σ → Prop) : Prop :=
  outcome m s = none ∨ ∃ a s', outcome m s = some (.ok (a, s')) ∧ Q a s'

theorem succeeds_ok {m : StateT σ (ExceptT ε Option) α} {s s' : σ} {a : α} {Q : α → σ → Prop}
    (h : outcome m s = some (.ok (a, s'))) (hq : Q a s') : Succeeds m s Q := Or.inr ⟨a, s', h, hq⟩

theorem succeeds_pure {a : α} {s : σ} {Q : α → σ → Prop} (h : Q a s) :
    Succeeds (pure a : StateT σ (ExceptT ε Option) α) s Q := succeeds_ok rfl h

theorem Succeeds.andThen {m : StateT σ (ExceptT ε Option) α} {f : α → StateT σ (ExceptT ε Option) β} {s : σ}
    {P : α → σ → Prop} {Q : β → σ → Prop} (h : Succeeds m s P) (hf : ∀ a s', P a s' → Succeeds (f a) s' Q) :
    Succeeds (m >>= f) s Q := by
  rcases h with h | ⟨a, s', h, hp⟩
  · exact Or.inl (outcome_bind_none h)
  · rw [Succeeds, outcome_bind_ok h]
    exact hf a s' hp

/-! ## Simulation -/

/-- On related states the first computation does what the second one does. -/
def Follows (R : σ → τ → Prop) (g : δ → ε) (m : StateT σ (ExceptT ε Option) α) (m' : StateT τ (ExceptT δ Option) α) :
    Prop :=
  ∀ s t, R s t → match outcome m' t with
    | none => outcome m s = none
    | some (.error e) => outcome m s = some (.error (g e))
    | some (.ok (a, t')) => ∃ s', outcome m s = some (.ok (a, s')) ∧ R s' t'

variable {R : σ → τ → Prop} {g : δ → ε}

theorem follows_pure (a : α) : Follows R g (pure a) (pure a) := fun s _ h => ⟨s, rfl, h⟩

theorem Follows.andThen {m : StateT σ (ExceptT ε Option) α} {m' : StateT τ (ExceptT δ Option) α}
    {f : α → StateT σ (ExceptT ε Option) β} {f' : α → StateT τ (ExceptT δ Option) β} (h : Follows R g m m')
    (hf : ∀ a, Follows R g (f a) (f' a)) : Follows R g (m >>= f) (m' >>= f') := by
  intro s t hst
  have hm := h s t hst
  cases hm' : outcome m' t with
  | none =>
    rw [hm'] at hm
    rw [outcome_bind_none hm']
    exact outcome_bind_none hm
  | some r =>
    rw [hm'] at hm
    cases r with
    | error e =>
      rw [outcome_bind_error hm']
      exact outcome_bind_error hm
    | ok r =>
      obtain ⟨s', hs', hr⟩ := hm
      rw [outcome_bind_ok hm', outcome_bind_ok hs']
      exact hf r.1 s' r.2 hr

theorem follows_ite {c : Prop} [Decidable c] {m n : StateT σ (ExceptT ε Option) α}
    {m' n' : StateT τ (ExceptT δ Option) α} (h : c → Follows R g m m') (h' : ¬ c → Follows R g n n') :
    Follows R g (if c then m else n) (if c then m' else n') := by
  by_cases hc : c
  · rw [if_pos hc, if_pos hc]
    exact h hc
  · rw [if_neg hc, if_neg hc]
    exact h' hc

end Outcomes
