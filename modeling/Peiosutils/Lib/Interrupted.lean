import Mathlib.Data.List.Infix
import Mathlib.Logic.Relation

/-!
# Programs that may be interrupted

A program passes through states, one after each effect, and may be interrupted in any of them (`Interrupted`). Behind an
interruption only the state is left. What each effect preserves holds wherever a program is interrupted, and behind any
number of attempts (`Keeps.attempts`); a run that comes to its end is one of them (`interrupted_last`).
-/

set_option autoImplicit false

namespace Interruption

variable {S E E' α β : Type}

/-- The states behind the effects, and the result. -/
structure Steps (S E α : Type) where
  run : S → List S × Except E α

/-- Where a program is when it ends. -/
def Steps.last (p : Steps S E α) (s : S) : S := (p.run s).1.getLast?.getD s

def Steps.result (p : Steps S E α) (s : S) : Except E α := (p.run s).2

/-- What is done with a result; an error ends the program. -/
def Steps.next (f : α → Steps S E β) (s : S) : Except E α → List S × Except E β
  | .error e => ([], .error e)
  | .ok a => (f a).run s

instance : Monad (Steps S E) where
  pure a := ⟨fun _ => ([], .ok a)⟩
  bind p f := ⟨fun s =>
    let rest := Steps.next f (p.last s) (p.result s)
    ((p.run s).1 ++ rest.1, rest.2)⟩

def fail (e : E) : Steps S E α := ⟨fun _ => ([], .error e)⟩

/-- The state as it is. -/
def look (f : S → α) : Steps S E α := ⟨fun s => ([], .ok (f s))⟩

/-- One effect. -/
def effect (f : S → S) : Steps S E Unit := ⟨fun s => ([f s], .ok ())⟩

/-- A program whose error is only noted. -/
def attempt (p : Steps S E α) : Steps S E' (Except E α) := ⟨fun s => ((p.run s).1, .ok (p.run s).2)⟩

/-- A program may be interrupted before its first effect, and behind each. -/
def Interrupted (p : Steps S E α) (s t : S) : Prop := t = s ∨ t ∈ (p.run s).1

variable {p : Steps S E α} {s t : S}

theorem run_bind (f : α → Steps S E β) : (p >>= f).run s =
    ((p.run s).1 ++ (Steps.next f (p.last s) (p.result s)).1, (Steps.next f (p.last s) (p.result s)).2) := rfl

@[simp] theorem run_pure (a : α) : (pure a : Steps S E α).run s = ([], .ok a) := rfl

@[simp] theorem run_fail (e : E) : (fail e : Steps S E α).run s = ([], .error e) := rfl

@[simp] theorem run_fail_bind (e : E) (f : α → Steps S E β) :
    ((fail e : Steps S E α) >>= f).run s = ([], .error e) := rfl

@[simp] theorem run_look_bind (g : S → α) (f : α → Steps S E β) : (look g >>= f).run s = (f (g s)).run s := by
  rw [run_bind]
  exact Prod.ext (List.nil_append _) rfl

@[simp] theorem run_effect_bind (g : S → S) (f : Unit → Steps S E β) : ((effect g : Steps S E Unit) >>= f).run s =
    (g s :: ((f ()).run (g s)).1, ((f ()).run (g s)).2) := rfl

theorem interrupted_last : Interrupted p s (p.last s) := by
  rw [Interrupted, Steps.last]
  cases h : (p.run s).1.getLast? with
  | none => exact .inl rfl
  | some t => exact .inr (List.mem_of_getLast? h)

theorem bind_ok {f : α → Steps S E β} {a : α} (h : p.result s = .ok a) :
    (p >>= f).last s = (f a).last (p.last s) ∧ (p >>= f).result s = (f a).result (p.last s) := by
  refine ⟨?_, by rw [Steps.result, run_bind, h]; rfl⟩
  rw [Steps.last, run_bind, h, Steps.next, List.getLast?_append]
  show _ = ((f a).run (p.last s)).1.getLast?.getD (p.last s)
  cases ((f a).run (p.last s)).1.getLast? with
  | none => rfl
  | some t => rfl

theorem bind_error {f : α → Steps S E β} {e : E} (h : p.result s = .error e) :
    (p >>= f).last s = p.last s ∧ (p >>= f).result s = .error e := by
  refine ⟨?_, by rw [Steps.result, run_bind, h]; rfl⟩
  rw [Steps.last, run_bind, h, Steps.next, List.append_nil]
  rfl

theorem bind_attempt (p : Steps S E α) (f : Except E α → Steps S E' β) (s : S) :
    (attempt p >>= f).last s = (f (p.result s)).last (p.last s) ∧
      (attempt p >>= f).result s = (f (p.result s)).result (p.last s) :=
  bind_ok (p := (attempt p : Steps S E' (Except E α))) rfl

/-- A sequence is interrupted in its first part, or in the second behind the end of the first. -/
theorem interrupted_bind {f : α → Steps S E β} : Interrupted (p >>= f) s t ↔
    Interrupted p s t ∨ ∃ a, p.result s = .ok a ∧ Interrupted (f a) (p.last s) t := by
  rw [Interrupted, run_bind]
  cases h : p.result s with
  | error e => simp [Steps.next, Interrupted]
  | ok a =>
    have hlast : Interrupted p s (p.last s) := interrupted_last
    simp only [Interrupted, Steps.next, List.mem_append, Except.ok.injEq, exists_eq_left'] at hlast ⊢
    constructor
    · rintro (h | h | h)
      · exact .inl (.inl h)
      · exact .inl (.inr h)
      · exact .inr (.inr h)
    · rintro ((h | h) | h | h)
      · exact .inl h
      · exact .inr (.inl h)
      · rw [h]
        exact hlast.imp_right .inl
      · exact .inr (.inr h)

/-! ## What programs keep -/

/-- From a state that is related to an earlier one, all states are. -/
def Keeps (R : S → S → Prop) (p : Steps S E α) : Prop := ∀ s₀ s t, R s₀ s → Interrupted p s t → R s₀ t

variable {R : S → S → Prop}

theorem keeps_pure (a : α) : Keeps R (pure a : Steps S E α) := by
  rintro s₀ s t h (rfl | ht)
  · exact h
  · cases ht

theorem keeps_fail (e : E) : Keeps R (fail e : Steps S E α) := by
  rintro s₀ s t h (rfl | ht)
  · exact h
  · cases ht

theorem keeps_look (f : S → α) : Keeps R (look f : Steps S E α) := by
  rintro s₀ s t h (rfl | ht)
  · exact h
  · cases ht

theorem keeps_effect {f : S → S} (hf : ∀ s₀ s, R s₀ s → R s₀ (f s)) : Keeps R (effect f : Steps S E Unit) := by
  rintro s₀ s t h (rfl | ht)
  · exact h
  · rw [List.mem_singleton.1 ht]
    exact hf s₀ s h

theorem Keeps.bind {f : α → Steps S E β} (hp : Keeps R p) (hf : ∀ a, Keeps R (f a)) : Keeps R (p >>= f) := by
  intro s₀ s t h ht
  rcases interrupted_bind.1 ht with ht | ⟨a, -, ht⟩
  · exact hp s₀ s t h ht
  · exact hf a s₀ _ t (hp s₀ s _ h interrupted_last) ht

theorem Keeps.attempt (hp : Keeps R p) : Keeps R (attempt p : Steps S E' (Except E α)) :=
  fun s₀ s t h ht => hp s₀ s t h ht

theorem keeps_forM {f : β → Steps S E PUnit} {xs : List β} (hf : ∀ x ∈ xs, Keeps R (f x)) : Keeps R (xs.forM f) := by
  induction xs with
  | nil => exact keeps_pure _
  | cons x xs ih =>
    exact (hf x List.mem_cons_self).bind fun _ => ih fun y hy => hf y (List.mem_cons_of_mem x hy)

/-- However often a program is attempted. -/
theorem Keeps.attempts {s₀ : S} (hp : Keeps R p) (h : R s₀ s) (ht : Relation.ReflTransGen (Interrupted p) s t) :
    R s₀ t := by
  induction ht with
  | refl => exact h
  | tail _ ht ih => exact hp _ _ _ ih ht

end Interruption
