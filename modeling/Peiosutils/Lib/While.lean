import Mathlib.Tactic.Basic

/-!
# Loops

`loop turn` takes turns from a state until one of them leaves with a result, or panics. `fuel` bounds the number of
turns; a loop that runs out of it has not ended (`Stop.fuel`). A loop that keeps an invariant with fewer turns to go
after each turn ends (`loop_spec`), more fuel changes nothing about a loop that has ended (`loop_mono`), and a loop that
can always take another turn never ends (`loop_never`).

`loopWith` is the loop whose turns need fuel themselves. A run `Settles` with its result, or `Hangs`, and each follows for a
loop from its turns.
-/

set_option autoImplicit false

namespace While

variable {σ ρ : Type}

/-- Why there is no result. -/
inductive Stop where
  | panic
  /-- The program gives up with an error. -/
  | failed
  | fuel
  deriving DecidableEq, Repr

/-- The loop: a turn goes on with a state or leaves with a result. -/
def loop (turn : σ → Except Stop (σ ⊕ ρ)) : (fuel : Nat) → σ → Except Stop ρ
  | 0, _ => .error .fuel
  | fuel + 1, s =>
    match turn s with
    | .error e => .error e
    | .ok (.inl s) => loop turn fuel s
    | .ok (.inr r) => .ok r

variable {turn : σ → Except Stop (σ ⊕ ρ)}

/-- With enough fuel the run ends with a result as it should be. -/
def Ends (run : (fuel : Nat) → Except Stop ρ) (Post : ρ → Prop) : Prop :=
  ∃ enough, ∀ fuel, enough < fuel → ∃ r, run fuel = .ok r ∧ Post r

/-- A loop ends, and its result is right, when every turn from a good state leaves with a right result or goes on to a
good state with fewer turns to go. -/
theorem loop_spec (Inv : Nat → σ → Prop) (Post : ρ → Prop)
    (hturn : ∀ n s, Inv n s → (∃ r, turn s = .ok (.inr r) ∧ Post r) ∨
      ∃ n' s', turn s = .ok (.inl s') ∧ n' < n ∧ Inv n' s')
    {fuel n : Nat} {s : σ} (hs : Inv n s) (hfuel : n < fuel) : ∃ r, loop turn fuel s = .ok r ∧ Post r := by
  induction fuel generalizing n s with
  | zero => exact absurd hfuel (Nat.not_lt_zero _)
  | succ fuel ih =>
    rcases hturn n s hs with ⟨r, hr, hpost⟩ | ⟨n', s', hs', hlt, hinv⟩
    · exact ⟨r, by simp only [loop, hr], hpost⟩
    · obtain ⟨r, hr, hpost⟩ := ih hinv (by omega)
      exact ⟨r, by simp only [loop, hs', hr], hpost⟩

/-! ## One turn after the other -/

/-- A loop ends as it does behind its first turn. -/
theorem ends_loop_next {Post : ρ → Prop} {s s' : σ} (h : turn s = .ok (.inl s')) :
    Ends (fun fuel => loop turn fuel s) Post ↔ Ends (fun fuel => loop turn fuel s') Post := by
  have hloop : ∀ fuel, loop turn (fuel + 1) s = loop turn fuel s' := fun fuel => by simp only [loop, h]
  constructor
  · rintro ⟨enough, hends⟩
    refine ⟨enough, fun fuel hfuel => ?_⟩
    simpa only [hloop] using hends (fuel + 1) (Nat.lt_succ_of_lt hfuel)
  · rintro ⟨enough, hends⟩
    refine ⟨enough + 1, fun fuel hfuel => ?_⟩
    obtain ⟨fuel, rfl⟩ := Nat.exists_eq_add_of_lt (Nat.zero_lt_of_lt hfuel)
    simp only [Nat.zero_add] at hfuel ⊢
    rw [hloop]
    exact hends fuel (Nat.lt_of_succ_lt_succ hfuel)

theorem ends_loop_done {Post : ρ → Prop} {s : σ} {r : ρ} (h : turn s = .ok (.inr r)) :
    Ends (fun fuel => loop turn fuel s) Post ↔ Post r := by
  have hloop : ∀ fuel, loop turn (fuel + 1) s = .ok r := fun fuel => by simp only [loop, h]
  constructor
  · rintro ⟨enough, hends⟩
    obtain ⟨r', hr', hpost⟩ := hends (enough + 1) (Nat.lt_succ_self _)
    exact Except.ok.inj ((hloop enough).symm.trans hr') ▸ hpost
  · intro hpost
    refine ⟨0, fun fuel hfuel => ⟨r, ?_, hpost⟩⟩
    obtain ⟨fuel, rfl⟩ := Nat.exists_eq_add_of_lt hfuel
    rw [Nat.zero_add]
    exact hloop fuel

theorem not_ends_loop {Post : ρ → Prop} {s : σ} {e : Stop} (h : turn s = .error e) :
    ¬ Ends (fun fuel => loop turn fuel s) Post := by
  rintro ⟨enough, hends⟩
  obtain ⟨r, hr, -⟩ := hends (enough + 1) (Nat.lt_succ_self _)
  simp only [loop, h] at hr
  cases hr

/-- More fuel, in the loop and in its turns, changes nothing about a loop that has ended. -/
theorem loop_mono {turn' : σ → Except Stop (σ ⊕ ρ)} (hturn : ∀ s t, turn s = .ok t → turn' s = .ok t)
    {fuel fuel' : Nat} (hfuel : fuel ≤ fuel') {s : σ} {r : ρ} (h : loop turn fuel s = .ok r) :
    loop turn' fuel' s = .ok r := by
  induction fuel generalizing fuel' s with
  | zero => cases h
  | succ fuel ih =>
    obtain ⟨fuel', rfl⟩ := Nat.exists_eq_add_of_lt hfuel
    unfold loop at h ⊢
    cases ht : turn s with
    | error e =>
      rw [ht] at h
      cases h
    | ok t =>
      rw [ht] at h
      rw [hturn s t ht]
      cases t with
      | inl s' => exact ih (by omega) h
      | inr r' => exact h

/-- A loop that can take another turn from every good state never ends. -/
theorem loop_never (Inv : σ → Prop) (hturn : ∀ s, Inv s → ∃ s', turn s = .ok (.inl s') ∧ Inv s') {s : σ} (hs : Inv s)
    (fuel : Nat) : loop turn fuel s = .error .fuel := by
  induction fuel generalizing s with
  | zero => rfl
  | succ fuel ih =>
    obtain ⟨s', hs', hinv⟩ := hturn s hs
    simp only [loop, hs', ih hinv]

/-! ## Turns that need fuel themselves -/

/-- With enough fuel the run has the result, and with too little of it it has none. -/
def Settles (run : (fuel : Nat) → Except Stop ρ) (r : ρ) : Prop :=
  (∃ enough, ∀ fuel, enough ≤ fuel → run fuel = .ok r) ∧ ∀ fuel, run fuel = .error .fuel ∨ run fuel = .ok r

/-- No fuel is enough. -/
def Hangs (run : (fuel : Nat) → Except Stop ρ) : Prop := ∀ fuel, run fuel = .error .fuel

theorem Settles.unique {run : Nat → Except Stop ρ} {r r' : ρ} (h : Settles run r) (h' : Settles run r') : r = r' := by
  obtain ⟨⟨enough, hr⟩, -⟩ := h
  obtain ⟨⟨enough', hr'⟩, -⟩ := h'
  exact Except.ok.inj ((hr _ (Nat.le_max_left _ _)).symm.trans (hr' _ (Nat.le_max_right enough enough')))

theorem Settles.not_hangs {run : Nat → Except Stop ρ} {r : ρ} (h : Settles run r) : ¬ Hangs run := by
  obtain ⟨⟨enough, hr⟩, -⟩ := h
  intro hangs
  cases (hr enough (Nat.le_refl _)).symm.trans (hangs enough)

/-- What needs no fuel. -/
theorem settles_pure {run : Except Stop ρ} {r : ρ} (h : run = .ok r) : Settles (fun _ => run) r :=
  ⟨⟨0, fun _ _ => h⟩, fun _ => Or.inr h⟩

section Bind

variable {τ : Type} {run : Nat → Except Stop ρ} {f : Nat → ρ → Except Stop τ} {r : ρ}

theorem Settles.bind {t : τ} (h : Settles run r) (h' : Settles (f · r) t) : Settles (fun fuel => run fuel >>= f fuel) t := by
  obtain ⟨⟨enough, hr⟩, hall⟩ := h
  obtain ⟨⟨enough', hr'⟩, hall'⟩ := h'
  refine ⟨⟨max enough enough', fun fuel hfuel => ?_⟩, fun fuel => ?_⟩
  · dsimp only
    rw [hr fuel (by omega)]
    exact hr' fuel (by omega)
  · dsimp only
    rcases hall fuel with hfuel | hok
    · exact Or.inl (by rw [hfuel]; rfl)
    · rw [hok]
      exact hall' fuel

theorem Hangs.bind (h : Hangs run) : Hangs (fun fuel => run fuel >>= f fuel) := fun fuel => by
  dsimp only
  rw [h fuel]
  rfl

theorem Settles.bind_hangs (h : Settles run r) (h' : Hangs (f · r)) : Hangs (fun fuel => run fuel >>= f fuel) := by
  intro fuel
  dsimp only
  rcases h.2 fuel with hfuel | hok
  · rw [hfuel]
    rfl
  · rw [hok]
    exact h' fuel

end Bind

/-- The loop whose turns get the fuel that is left. -/
def loopWith (turn : (fuel : Nat) → σ → Except Stop (σ ⊕ ρ)) : (fuel : Nat) → σ → Except Stop ρ
  | 0, _ => .error .fuel
  | fuel + 1, s =>
    match turn fuel s with
    | .error e => .error e
    | .ok (.inl s) => loopWith turn fuel s
    | .ok (.inr r) => .ok r

section Turns

variable {turns : Nat → σ → Except Stop (σ ⊕ ρ)} {s s' : σ} {r : ρ}

/-- Behind a turn. -/
def follow (turns : Nat → σ → Except Stop (σ ⊕ ρ)) (fuel : Nat) : σ ⊕ ρ → Except Stop ρ
  | .inl s => loopWith turns fuel s
  | .inr r => .ok r

theorem loopWith_succ (turns : Nat → σ → Except Stop (σ ⊕ ρ)) (fuel : Nat) (s : σ) :
    loopWith turns (fuel + 1) s = turns fuel s >>= follow turns fuel := by
  rw [loopWith]
  cases turns fuel s with
  | error e => rfl
  | ok next => cases next <;> rfl

/-- A run that needs one more. -/
theorem settles_succ {run : Nat → Except Stop ρ} (hzero : run 0 = .error .fuel) (h : Settles (fun fuel => run (fuel + 1)) r) :
    Settles run r := by
  obtain ⟨⟨enough, hr⟩, hall⟩ := h
  refine ⟨⟨enough + 1, fun fuel hfuel => ?_⟩, fun fuel => ?_⟩
  · obtain ⟨fuel, rfl⟩ : ∃ n, fuel = n + 1 := ⟨fuel - 1, by omega⟩
    exact hr fuel (by omega)
  · cases fuel with
    | zero => exact Or.inl hzero
    | succ fuel => exact hall fuel

theorem hangs_succ {run : Nat → Except Stop ρ} (hzero : run 0 = .error .fuel) (h : Hangs (fun fuel => run (fuel + 1))) :
    Hangs run := fun fuel => by
  cases fuel with
  | zero => exact hzero
  | succ fuel => exact h fuel

theorem settles_loop_done {turn : σ → Except Stop (σ ⊕ ρ)} (h : turn s = .ok (.inr r)) : Settles (loop turn · s) r := by
  refine settles_succ rfl ?_
  simp only [loop, h]
  exact settles_pure rfl

theorem settles_loop_next {turn : σ → Except Stop (σ ⊕ ρ)} (h : turn s = .ok (.inl s')) (h' : Settles (loop turn · s') r) :
    Settles (loop turn · s) r := by
  refine settles_succ rfl ?_
  simp only [loop, h]
  exact h'

theorem settles_loopWith_done (h : Settles (turns · s) (.inr r)) : Settles (loopWith turns · s) r := by
  refine settles_succ rfl ?_
  simp only [loopWith_succ]
  exact h.bind (settles_pure rfl)

theorem settles_loopWith_next (h : Settles (turns · s) (.inl s')) (h' : Settles (loopWith turns · s') r) :
    Settles (loopWith turns · s) r := by
  refine settles_succ rfl ?_
  simp only [loopWith_succ]
  exact h.bind h'

theorem hangs_loopWith_turn (h : Hangs (turns · s)) : Hangs (loopWith turns · s) := by
  refine hangs_succ rfl ?_
  simp only [loopWith_succ]
  exact h.bind

theorem hangs_loopWith_next (h : Settles (turns · s) (.inl s')) (h' : Hangs (loopWith turns · s')) :
    Hangs (loopWith turns · s) := by
  refine hangs_succ rfl ?_
  simp only [loopWith_succ]
  exact h.bind_hangs h'

/-- A loop that goes on from every good state to a good one. -/
theorem hangs_loopWith (Inv : σ → Prop) (hturn : ∀ s, Inv s → ∃ s', Settles (turns · s) (.inl s') ∧ Inv s') {s : σ}
    (hs : Inv s) : Hangs (loopWith turns · s) := by
  intro fuel
  induction fuel generalizing s with
  | zero => rfl
  | succ fuel ih =>
    obtain ⟨s', hnext, hinv⟩ := hturn s hs
    have hor := hnext.2 fuel
    dsimp only at hor ⊢
    rw [loopWith_succ]
    rcases hor with hfuel | hok
    · rw [hfuel]
      rfl
    · rw [hok]
      exact ih hinv

end Turns

end While
