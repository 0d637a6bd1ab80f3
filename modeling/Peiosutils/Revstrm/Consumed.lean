import Peiosutils.Revstrm.Render

/-!
# What the renderers consume

Each renderer of a value reads one value whole, or fails where there is none. A renderer of values with a declared type
may leave the cursor where it is instead. So both renderings of a payload end at the same place, and fail on the same
payloads (`renderers_consume`).
-/

set_option autoImplicit false

namespace Peiosutils.Revstrm

open Nested (Values)
open Run

variable {σ ε α β : Type} {R : Reader σ ε}

/-! ## Reading values -/

/-- `k` values were read, or they are not there. -/
inductive Outcome (R : Reader σ ε) (k : Nat) (s : σ) : Option (Except ε α × σ) → Prop
  | ok {a : α} {t : σ} (h : Values R.Item k s t) : Outcome R k s (some (.ok a, t))
  | error {e : ε} {t : σ} (h : ∀ u, ¬ Values R.Item k s u) : Outcome R k s (some (.error e, t))

def Reads (R : Reader σ ε) (f : Run σ ε α) (k : Nat) (s : σ) : Prop := Outcome R k s (f s)

/-- The cursor is where it was, or one value was read, or there is none. -/
inductive OutcomeOption (R : Reader σ ε) (s : σ) : Option (Except ε (Option α) × σ) → Prop
  | none : OutcomeOption R s (some (.ok none, s))
  | some {a : α} {t : σ} (h : R.Whole s t) : OutcomeOption R s (some (.ok (some a), t))
  | error {e : ε} {t : σ} (h : ∀ u, ¬ R.Whole s u) : OutcomeOption R s (some (.error e, t))

def MayRead (R : Reader σ ε) (f : Run σ ε (Option α)) (s : σ) : Prop := OutcomeOption R s (f s)

variable {f : Run σ ε α} {g : α → Run σ ε β} {k m n : Nat} {s t : σ}

theorem bind_of_ok {a : α} (h : f s = some (.ok a, t)) : (f >>= g) s = g a t := by
  show andThen f g s = _
  rw [andThen, h]

theorem bind_of_error {e : ε} (h : f s = some (.error e, t)) : (f >>= g) s = some (.error e, t) := by
  show andThen f g s = _
  rw [andThen, h]

theorem reads_pure (a : α) : Reads R (pure a : Run σ ε α) 0 s := .ok (.done s)

theorem Reads.values {a : α} (h : Reads R f k s) (hok : f s = some (.ok a, t)) : Values R.Item k s t := by
  rw [Reads, hok] at h
  cases h with
  | ok h => exact h

/-- Values behind values. -/
theorem Reads.bind (hR : R.Lawful) (hf : Reads R f m s) (hg : ∀ a t, f s = some (.ok a, t) → Reads R (g a) n t) :
    Reads R (f >>= g) (m + n) s := by
  rw [Reads] at hf ⊢
  cases hrun : f s with
  | none =>
    rw [hrun] at hf
    cases hf
  | some r =>
    obtain ⟨r, t⟩ := r
    rw [hrun] at hf
    cases hf with
    | error hno =>
      rw [bind_of_error hrun]
      refine .error fun u hvalues => ?_
      obtain ⟨t', hleft, -⟩ := Nested.values_add.1 hvalues
      exact hno t' hleft
    | ok hleft =>
      rw [bind_of_ok hrun]
      have hright := hg _ t hrun
      rw [Reads] at hright
      cases hresult : g _ t with
      | none =>
        rw [hresult] at hright
        cases hright
      | some r =>
        rw [hresult] at hright
        cases hright with
        | ok hright => exact .ok (hleft.append hright)
        | error hno =>
          refine .error fun u hvalues => ?_
          obtain ⟨t', hleft', hright'⟩ := Nested.values_add.1 hvalues
          cases hR.values_unique hleft hleft'
          exact hno u hright'

theorem Reads.map (hR : R.Lawful) (hf : Reads R f k s) (h : α → β) :
    Reads R (f >>= fun a => pure (h a) : Run σ ε β) k s := hf.bind hR fun _ _ _ => reads_pure _

/-- A loop reads the values of all its turns. -/
theorem Reads.times (hR : R.Lawful) (hf : ∀ t, R.remaining t ≤ R.remaining s → Reads R f k t) (n : Nat) :
    Reads R (Run.times f n) (n * k) s := by
  induction n generalizing s with
  | zero =>
    rw [Nat.zero_mul]
    exact reads_pure _
  | succ n ih =>
    rw [Nat.succ_mul, Nat.add_comm (n * k) k]
    have hfirst := hf s (Nat.le_refl _)
    refine hfirst.bind hR fun a t hok => ?_
    have hle := hR.remaining_le (hfirst.values hok)
    exact (ih fun u hu => hf u (Nat.le_trans hu hle)).map hR _

/-! ## Single reads -/

theorem no_values (h : ∀ (op : ReadOp) (v : op.Result) (u : σ), R.read op s ≠ (.ok v, u)) (u : σ) :
    ¬ Values R.Item 1 s u := by
  intro hvalues
  obtain ⟨k, t, ⟨hread⟩, -⟩ := Nested.values_one.1 hvalues
  exact h _ _ _ hread

/-- Where the type of the next value is known, it is read in its way, and what follows it belongs to it. -/
theorem reads_header (hR : R.Lawful) (op : ReadOp) {g : op.Result → Run σ ε β} (hpeek : R.peek s = some op.type)
    (hint : op.type ≠ .int) (hg : ∀ v t, R.read op s = (.ok v, t) → Reads R (g v) (op.following v) t) :
    Reads R (R.readRun op >>= g) 1 s := by
  have hop : ∀ (op' : ReadOp) (v : op'.Result) (u : σ), R.read op' s = (.ok v, u) → op' = op := fun op' v u hread =>
    Reader.eq_of_type_eq (Option.some.inj ((hR.typed hread).symm.trans hpeek)) hint
  cases hread : R.read op s with | mk r t
  cases r with
  | error e =>
    rw [Reads, bind_of_error (show R.readRun op s = some (.error e, t) from congrArg some hread)]
    refine .error (no_values fun op' v u hread' => ?_)
    obtain rfl := hop op' v u hread'
    cases hread.symm.trans hread'
  | ok v =>
    rw [Reads, bind_of_ok (show R.readRun op s = some (.ok v, t) from congrArg some hread)]
    have hbehind := hg v t hread
    rw [Reads] at hbehind
    cases hresult : g v t with
    | none =>
      rw [hresult] at hbehind
      cases hbehind
    | some r =>
      rw [hresult] at hbehind
      cases hbehind with
      | ok hvalues => exact .ok (Nested.values_one.2 ⟨_, t, .mk hread, hvalues⟩)
      | error hno =>
        refine .error fun u hvalues => ?_
        obtain ⟨k, t', ⟨hread'⟩, hrest⟩ := Nested.values_one.1 hvalues
        obtain rfl := hop _ _ _ hread'
        cases hread.symm.trans hread'
        exact hno u hrest

theorem reads_peekRun {g : Option Ty → Run σ ε β} (h : Reads R (g (R.peek s)) k s) : Reads R (R.peekRun >>= g) k s := h

theorem reads_readRun (hR : R.Lawful) (op : ReadOp) (hpeek : R.peek s = some op.type) (hint : op.type ≠ .int)
    (hscalar : ∀ v, op.following v = 0) : Reads R (R.readRun op) 1 s := by
  have hreads := reads_header hR op (g := pure) hpeek hint fun v t _ => hscalar v ▸ reads_pure v
  have hrun : (R.readRun op >>= pure) s = R.readRun op s := by
    show andThen (R.readRun op) pure s = _
    rw [andThen]
    cases hread : R.readRun op s with
    | none => rfl
    | some r =>
      obtain ⟨r, t⟩ := r
      cases r <;> rfl
  rwa [Reads, hrun] at hreads

/-- A scalar. -/
theorem reads_scalar (hR : R.Lawful) (op : ReadOp) {h : op.Result → β} (hpeek : R.peek s = some op.type)
    (hint : op.type ≠ .int) (hscalar : ∀ v, op.following v = 0) :
    Reads R (R.readRun op >>= fun v => pure (h v) : Run σ ε β) 1 s :=
  reads_header hR op hpeek hint fun v _ _ => hscalar v ▸ reads_pure _

/-- An integer, unsigned or signed. -/
theorem reads_integer (hR : R.Lawful) (hpeek : R.peek s = some .int) (onUint : UInt64 → α) (onInt : Int64 → α) :
    Reads R (R.integer onUint onInt) 1 s := by
  have hop : ∀ (op : ReadOp) (v : op.Result) (u : σ), R.read op s = (.ok v, u) → op = .uint ∨ op = .int := by
    intro op v u hread
    have htype := Option.some.inj ((hR.typed hread).symm.trans hpeek)
    cases op <;> first | exact .inl rfl | exact .inr rfl | cases htype
  rw [Reads, Reader.integer]
  cases huint : R.read .uint s with | mk r t
  cases r with
  | ok u => exact .ok (Nested.values_one.2 ⟨_, t, .mk huint, .done t⟩)
  | error e =>
    rcases hR.inPlace huint with rfl | hbroken
    · dsimp only
      cases hint : R.read .int t with | mk r t'
      cases r with
      | ok i => exact .ok (Nested.values_one.2 ⟨_, t', .mk hint, .done t'⟩)
      | error e =>
        refine .error (no_values fun op v u hread => ?_)
        rcases hop op v u hread with rfl | rfl
        · cases huint.symm.trans hread
        · cases hint.symm.trans hread
    · dsimp only
      cases hint : R.read .int t with | mk r t'
      cases r with
      | ok i => exact absurd hint (hbroken _ _ _).2
      | error e => exact .error (no_values fun op v u => (hbroken op v u).1)

/-- Where there is no type, nothing can be read. -/
theorem reads_none (hR : R.Lawful) {op : ReadOp} {g : op.Result → Run σ ε β} (hpeek : R.peek s = none) :
    Reads R (R.readRun op >>= g) 1 s := by
  have hno : ∀ (op' : ReadOp) (v : op'.Result) (u : σ), R.read op' s ≠ (.ok v, u) := fun op' v u hread => by
    cases hpeek.symm.trans (hR.typed hread)
  cases hread : R.read op s with | mk r t
  cases r with
  | ok v => exact absurd hread (hno op v t)
  | error e =>
    rw [Reads, bind_of_error (show R.readRun op s = some (.error e, t) from congrArg some hread)]
    exact .error (no_values hno)

/-! ## Reads that may be declined -/

/-- The result, if there is one, is never declined. -/
def Always (f : Run σ ε (Option α)) : Prop := ∀ s a t, f s = some (.ok a, t) → a.isSome = true

theorem always_pure (a : α) : Always (pure (some a) : Run σ ε (Option α)) := by
  intro s r t h
  cases h
  rfl

theorem always_bind {g : α → Run σ ε (Option β)} (h : ∀ a, Always (g a)) : Always (f >>= g) := by
  intro s r t hrun
  cases hf : f s with
  | none =>
    have hnone : (f >>= g) s = none := by
      show andThen f g s = none
      rw [andThen, hf]
    cases hnone.symm.trans hrun
  | some x =>
    obtain ⟨x, u⟩ := x
    cases x with
    | error e => cases (bind_of_error (g := g) hf).symm.trans hrun
    | ok a => exact h a u r t ((bind_of_ok hf).symm.trans hrun)

theorem always_integer (onUint : UInt64 → α) (onInt : Int64 → α) :
    Always (R.integer (fun u => some (onUint u)) fun i => some (onInt i)) := by
  intro s r t h
  rw [Reader.integer] at h
  split at h
  · cases h
    rfl
  · split at h
    · cases h
      rfl
    · cases h

theorem mayRead_none : MayRead R (pure none : Run σ ε (Option α)) s := .none

theorem mayRead_of_reads {f : Run σ ε (Option α)} (h : Reads R f 1 s) (hsome : Always f) : MayRead R f s := by
  rw [Reads] at h
  rw [MayRead]
  cases hrun : f s with
  | none =>
    rw [hrun] at h
    cases h
  | some r =>
    rw [hrun] at h
    cases h with
    | @ok a t hvalues =>
      cases a with
      | none => cases hsome _ _ _ hrun
      | some a => exact .some hvalues
    | error hno => exact .error hno

/-- What is declined is read in the other way. -/
theorem MayRead.orElse {f : Run σ ε (Option α)} {g : Run σ ε α} (hf : MayRead R f s) (hg : Reads R g 1 s) :
    Reads R (f.orElse g) 1 s := by
  rw [MayRead] at hf
  show Outcome R 1 s ((f >>= _) s)
  cases hrun : f s with
  | none =>
    rw [hrun] at hf
    cases hf
  | some r =>
    rw [hrun] at hf
    cases hf with
    | none =>
      rw [bind_of_ok hrun]
      exact hg
    | some hwhole =>
      rw [bind_of_ok hrun]
      exact .ok hwhole
    | error hno =>
      rw [bind_of_error hrun]
      exact .error hno

/-- What is declined may be read in another way. -/
theorem MayRead.or {f g : Run σ ε (Option α)} (hf : MayRead R f s) (hg : MayRead R g s) : MayRead R (f.or g) s := by
  rw [MayRead] at hf
  show OutcomeOption R s ((f >>= _) s)
  cases hrun : f s with
  | none =>
    rw [hrun] at hf
    cases hf
  | some r =>
    rw [hrun] at hf
    cases hf with
    | none =>
      rw [bind_of_ok hrun]
      exact hg
    | some hwhole =>
      rw [bind_of_ok hrun]
      exact .some hwhole
    | error hno =>
      rw [bind_of_error hrun]
      exact .error hno

/-! ## Values with a declared type -/

variable {F : Formats} {ctx : Ctx} {path key base : String} {values : Option String} {spec : Spec}
  {compact : Ctx → String → Run σ ε String} {b : Nat}

/-- The plain renderer reads a value whole, where less than `b` bytes are left. -/
def Plain (R : Reader σ ε) (compact : Ctx → String → Run σ ε String) (b : Nat) : Prop :=
  ∀ ctx path s, R.remaining s < b → Reads R (compact ctx path) 1 s

theorem mayRead_scalar (hR : R.Lawful) (op : ReadOp) {h : op.Result → α} (hpeek : R.peek s = some op.type)
    (hint : op.type ≠ .int) (hscalar : ∀ v, op.following v = 0) :
    MayRead R (R.readRun op >>= fun v => pure (some (h v)) : Run σ ε (Option α)) s :=
  mayRead_of_reads (reads_scalar hR op hpeek hint hscalar) (always_bind fun _ => always_pure _)

/-- The elements of an array, each read whole. -/
theorem mayRead_elements (hR : R.Lawful) (hpeek : R.peek s = some .array) {f : Run σ ε String}
    (hf : ∀ t, R.remaining t < R.remaining s → Reads R f 1 t) :
    MayRead R (do
      let n ← R.readRun .array
      let parts ← f.times n
      return some (bracketed parts)) s := by
  refine mayRead_of_reads (reads_header hR .array hpeek (by decide) fun (n : Nat) t hread => ?_)
    (always_bind fun _ => always_bind fun _ => always_pure _)
  have htimes := Reads.times hR (fun u hu => hf u (Nat.lt_of_le_of_lt hu (hR.shorter hread))) n
  rw [Nat.mul_one] at htimes
  exact htimes.map hR _

theorem mayRead_renderScalar (hR : R.Lawful) (s : σ) : MayRead R (renderScalar R F ctx base values) s := by
  rw [renderScalar]
  by_cases htyped : isTyped base = true
  · rw [if_pos htyped]
    show MayRead R (ite _ _ _) s
    split_ifs with hsid hguid hint
    · exact mayRead_scalar hR .bin hsid.2 (by decide) fun _ => rfl
    · exact mayRead_scalar hR .bin hguid.2 (by decide) fun _ => rfl
    · exact mayRead_of_reads (reads_integer hR hint _ _) (always_integer _ _)
    · exact mayRead_none
  · rw [if_neg htyped]
    exact mayRead_none

theorem mayRead_renderBySpec (hR : R.Lawful) (hcompact : Plain R compact b) (hs : R.remaining s ≤ b) :
    MayRead R (renderBySpec R F compact ctx path spec) s := by
  rw [renderBySpec]
  split
  next base _ =>
    show MayRead R (ite _ _ _) s
    split_ifs with harray
    · refine mayRead_elements hR harray.2 fun t ht => (mayRead_renderScalar hR t).orElse ?_
      exact hcompact ctx path t (Nat.lt_of_lt_of_le ht hs)
    · exact mayRead_none
  next => exact mayRead_renderScalar hR s

theorem reads_sidElement (hR : R.Lawful) (hcompact : Plain R compact b) (hs : R.remaining s < b) :
    Reads R (sidElement R F compact) 1 s := by
  show Reads R (ite _ _ _) 1 s
  split_ifs with hbin
  · exact reads_scalar hR .bin hbin (by decide) fun _ => rfl
  · exact hcompact .none "" s hs

theorem mayRead_renderSidField (hR : R.Lawful) (hcompact : Plain R compact b) (hs : R.remaining s ≤ b) :
    MayRead R (renderSidField R F compact key) s := by
  show MayRead R (ite _ _ _) s
  split_ifs with hsids harray hsid
  · exact mayRead_elements hR harray fun t ht => reads_sidElement hR hcompact (Nat.lt_of_lt_of_le ht hs)
  · exact mayRead_none
  · exact mayRead_scalar hR .bin hsid.2 (by decide) fun _ => rfl
  · exact mayRead_none

theorem mayRead_renderAccessField (hR : R.Lawful) (s : σ) : MayRead R (renderAccessField R key) s := by
  show MayRead R (ite _ _ _) s
  split_ifs with haccess
  · exact mayRead_of_reads (reads_integer hR haccess.2 _ _) (always_integer _ _)
  · exact mayRead_none

theorem mayRead_renderSpecialValue (hR : R.Lawful) (hcompact : Plain R compact b) (hs : R.remaining s ≤ b) :
    MayRead R (renderSpecialValue R F compact key) s :=
  (mayRead_renderSidField hR hcompact hs).or (mayRead_renderAccessField hR s)

theorem mayRead_renderTyped (hR : R.Lawful) (hcompact : Plain R compact b) (hs : R.remaining s ≤ b) :
    MayRead R (renderTyped R F compact ctx path key) s := by
  rw [renderTyped]
  split
  · exact mayRead_renderBySpec hR hcompact hs
  · exact mayRead_renderSpecialValue hR hcompact hs

/-! ## One line -/

/-- The value of a key is behind it. -/
theorem reads_compactPair (hR : R.Lawful) (hcompact : Plain R compact b) (hs : R.remaining s < b) :
    Reads R (compactPair R F compact ctx path) 2 s := by
  show Reads R (ite _ _ _) (1 + 1) s
  split_ifs with hstr
  · have hkey : Reads R (R.readRun .str) 1 s := reads_readRun hR .str hstr (by decide) fun _ => rfl
    refine hkey.bind hR fun key t hok => ?_
    have ht : R.remaining t < b := Nat.lt_of_le_of_lt (hR.remaining_le (hkey.values hok)) hs
    exact ((mayRead_renderTyped hR hcompact (Nat.le_of_lt ht)).orElse (hcompact _ _ t ht)).map hR _
  · have hkey := hcompact ctx path s hs
    refine hkey.bind hR fun key t hok => ?_
    have ht : R.remaining t < b := Nat.lt_of_le_of_lt (hR.remaining_le (hkey.values hok)) hs
    exact (hcompact ctx path t ht).map hR _

/-- With enough fuel a value is read whole. -/
theorem plain_compactIn (hR : R.Lawful) (F : Formats) (fuel : Nat) : Plain R (compactIn R F fuel) fuel := by
  induction fuel with
  | zero => exact fun _ _ _ hs => absurd hs (Nat.not_lt_zero _)
  | succ fuel ih =>
    intro ctx path s hs
    rw [compactIn]
    refine reads_peekRun ?_
    cases hpeek : R.peek s with
    | none => exact reads_none hR hpeek
    | some ty =>
      have hbehind : ∀ {t}, R.remaining t < R.remaining s → R.remaining t < fuel := fun ht => by omega
      cases ty with
      | nil => exact reads_scalar hR .nil hpeek (by decide) fun _ => rfl
      | bool => exact reads_scalar hR .bool hpeek (by decide) fun _ => rfl
      | int => exact reads_integer hR hpeek _ _
      | float => exact reads_scalar hR .float hpeek (by decide) fun _ => rfl
      | str => exact reads_scalar hR .str hpeek (by decide) fun _ => rfl
      | bin => exact reads_scalar hR .bin hpeek (by decide) fun _ => rfl
      | ext => exact reads_scalar hR .ext hpeek (by decide) fun _ => rfl
      | array =>
        refine reads_header hR .array hpeek (by decide) fun n t hread => ?_
        have htimes := Reads.times hR (f := compactIn R F fuel ctx path) (k := 1) (fun u hu =>
          ih ctx path u (hbehind (Nat.lt_of_le_of_lt hu (hR.shorter hread)))) n
        rw [Nat.mul_one] at htimes
        exact htimes.map hR _
      | map =>
        refine reads_header hR .map hpeek (by decide) fun n t hread => ?_
        have htimes := Reads.times hR (f := compactPair R F (compactIn R F fuel) ctx path) (k := 2) (fun u hu =>
          reads_compactPair hR ih (hbehind (Nat.lt_of_le_of_lt hu (hR.shorter hread)))) n
        rw [Nat.mul_two] at htimes
        exact htimes.map hR _

/-! ## Many lines -/

theorem MayRead.inlined {f : Run σ ε (Option String)} (hf : MayRead R f s) : MayRead R f.inlined s := by
  rw [MayRead] at hf
  show OutcomeOption R s ((f >>= _) s)
  cases hrun : f s with
  | none =>
    rw [hrun] at hf
    cases hf
  | some r =>
    rw [hrun] at hf
    cases hf with
    | none =>
      rw [bind_of_ok hrun]
      exact .none
    | some hwhole =>
      rw [bind_of_ok hrun]
      exact .some hwhole
    | error hno =>
      rw [bind_of_error hrun]
      exact .error hno

theorem reads_keyLabel (hR : R.Lawful) (hcompact : Plain R compact b) (hs : R.remaining s < b) :
    Reads R (keyLabel R compact) 1 s := by
  show Reads R (ite _ _ _) 1 s
  split_ifs with hstr
  · exact reads_readRun hR .str hstr (by decide) fun _ => rfl
  · exact hcompact .none "" s hs

theorem reads_renderRow (hR : R.Lawful) (hcompact : Plain R compact b) {value : String → Run σ ε Pretty}
    (hvalue : ∀ path t, R.remaining t < b → Reads R (value path) 1 t) (hs : R.remaining s < b) :
    Reads R (renderRow R F compact value ctx path) 2 s := by
  show Reads R (keyLabel R compact >>= _) (1 + 1) s
  have hkey := reads_keyLabel hR hcompact hs
  refine hkey.bind hR fun key t hok => ?_
  have ht : R.remaining t < b := Nat.lt_of_le_of_lt (hR.remaining_le (hkey.values hok)) hs
  have htyped : MayRead R (renderTyped R F compact ctx (joinPath path key) key) t :=
    mayRead_renderTyped hR hcompact (Nat.le_of_lt ht)
  exact (htyped.inlined.orElse (hvalue _ t ht)).map hR _

/-- With enough fuel a value is read whole. -/
theorem reads_renderValue (hR : R.Lawful) (F : Formats) (fuel : Nat) :
    ∀ indent ctx path s, R.remaining s < fuel → Reads R (renderValue R F fuel indent ctx path) 1 s := by
  induction fuel with
  | zero => exact fun _ _ _ _ hs => absurd hs (Nat.not_lt_zero _)
  | succ fuel ih =>
    intro indent ctx path s hs
    have hbehind : ∀ {t}, R.remaining t < R.remaining s → R.remaining t < fuel := fun ht => by omega
    have hplain : Reads R (compactIn R F (fuel + 1) ctx path >>= fun s => pure (Pretty.inline s)) 1 s :=
      (plain_compactIn hR F (fuel + 1) ctx path s hs).map hR _
    rw [renderValue]
    refine reads_peekRun ?_
    split
    next hpeek =>
      refine reads_header hR .map hpeek (by decide) fun n t hread => ?_
      have htimes := Reads.times hR (k := 2)
        (f := renderRow R F (compactIn R F fuel) (renderValue R F fuel (indent + 2) ctx) ctx path) (fun u hu =>
          reads_renderRow hR (plain_compactIn hR F fuel) (fun path u hu => ih _ ctx path u hu)
            (hbehind (Nat.lt_of_le_of_lt hu (hR.shorter hread)))) n
      rw [Nat.mul_two] at htimes
      exact htimes.map hR _
    next hpeek =>
      refine reads_header hR .array hpeek (by decide) fun n t hread => ?_
      have htimes := Reads.times hR (k := 1) (f := renderValue R F fuel (indent + 2) ctx path) (fun u hu =>
        ih _ ctx path u (hbehind (Nat.lt_of_le_of_lt hu (hR.shorter hread)))) n
      rw [Nat.mul_one] at htimes
      exact htimes.map hR _
    next => exact hplain

/-! ## Both renderings -/

/-- Both end behind one value, or both fail. -/
inductive SameEnd (R : Reader σ ε) (s : σ) : Option (Except ε α × σ) → Option (Except ε β × σ) → Prop
  | ok {a : α} {b : β} {t : σ} (h : R.Whole s t) : SameEnd R s (some (.ok a, t)) (some (.ok b, t))
  | error {e e' : ε} {t t' : σ} (h : ∀ u, ¬ R.Whole s u) : SameEnd R s (some (.error e, t)) (some (.error e', t'))

theorem sameEnd_of_reads (hR : R.Lawful) {f : Run σ ε α} {g : Run σ ε β} (hf : Reads R f 1 s) (hg : Reads R g 1 s) :
    SameEnd R s (f s) (g s) := by
  rw [Reads] at hf hg
  cases hf' : f s with
  | none =>
    rw [hf'] at hf
    cases hf
  | some r =>
    rw [hf'] at hf
    cases hg' : g s with
    | none =>
      rw [hg'] at hg
      cases hg
    | some r' =>
      rw [hg'] at hg
      cases hf with
      | ok hvalues =>
        cases hg with
        | ok hvalues' =>
          obtain rfl := hR.values_unique hvalues hvalues'
          exact .ok hvalues
        | error hno => exact absurd hvalues (hno _)
      | error hno =>
        cases hg with
        | ok hvalues => exact absurd hvalues (hno _)
        | error => exact .error hno

/-- A renderer of values with a declared type leaves the cursor where it is or reads one value whole, and the renderings
on one line and on many end behind the same value, or fail where there is none. -/
theorem renderers_consume (hR : R.Lawful) (F : Formats) (ctx : Ctx) {fuel : Nat} {s : σ}
    (hfuel : R.remaining s < fuel) :
    (∀ path key, MayRead R (renderTyped R F (compactIn R F fuel) ctx path key) s) ∧
      (∀ path spec, MayRead R (renderBySpec R F (compactIn R F fuel) ctx path spec) s) ∧
      (∀ base values, MayRead R (renderScalar R F ctx base values) s) ∧
      (∀ key, MayRead R (renderSpecialValue R F (compactIn R F fuel) key) s) ∧
      ∀ path indent, SameEnd R s (compactIn R F fuel ctx path s) (renderValue R F fuel indent ctx path s) := by
  have hplain := plain_compactIn hR F fuel
  have hle := Nat.le_of_lt hfuel
  exact ⟨fun _ _ => mayRead_renderTyped hR hplain hle, fun _ _ => mayRead_renderBySpec hR hplain hle,
    fun _ _ => mayRead_renderScalar hR s, fun _ => mayRead_renderSpecialValue hR hplain hle, fun path indent =>
      sameEnd_of_reads hR (hplain ctx path s hfuel) (reads_renderValue hR F fuel indent ctx path s hfuel)⟩

/-- The short forms of payloads. -/
def decodeShort : Bytes → Option (Token × Bytes)
  | [] => none
  | b :: rest =>
    if b < 0x80 then some (.int b.toNat, rest)
    else if b < 0x90 then some (.map (b.toNat - 0x80), rest)
    else if b < 0xa0 then some (.array (b.toNat - 0x90), rest)
    else if b < 0xc0 then
      let text := rest.take (b.toNat - 0xa0)
      if text.length = b.toNat - 0xa0 ∧ text.all (· < 0x80) then
        some (.str (String.ofList (text.map fun c => Char.ofNat c.toNat)), rest.drop text.length)
      else none
    else if b = 0xc0 then some (.nil, rest)
    else if b = 0xc2 then some (.bool false, rest)
    else if b = 0xc3 then some (.bool true, rest)
    else if 0xe0 ≤ b then some (.int (b.toNat - 256), rest)
    else none

theorem decodeShort_shorter (s : Bytes) (token : Token) (t : Bytes) (h : decodeShort s = some (token, t)) :
    t.length < s.length := by
  cases s with
  | nil => cases h
  | cons b rest =>
    have hsuffix : t <:+ rest := by
      simp only [decodeShort] at h
      split_ifs at h <;> cases h <;> first | exact List.drop_suffix _ _ | exact List.suffix_refl _
    exact Nat.lt_succ_of_le hsuffix.length_le

/-- Numbers, as they are. -/
def plainFormats : Formats where
  float bits := toString bits.toNat
  debug s := "\"" ++ s ++ "\""
  sidToString _ := none
  formatGuid _ := none
  formatTime u := toString u.toNat
  formatDuration u := toString u.toNat
  formatBytes u := toString u.toNat
  formatFlags _ u := toString u.toNat
  formatEnum _ u := toString u.toNat
  formatIntegrity u := toString u.toNat
  formatErrno i := toString i.toInt

/-- A map with a list of numbers for `sids`, and a byte behind it. -/
theorem renderers_consume_map :
    let R := Reader.ofDecode decodeShort List.length
    let s : Bytes := [0x81, 0xa4, 115, 105, 100, 115, 0x92, 1, 0xff, 0]
    (∀ path key, MayRead R (renderTyped R plainFormats (compactIn R plainFormats 11) .none path key) s) ∧
      (∀ path spec, MayRead R (renderBySpec R plainFormats (compactIn R plainFormats 11) .none path spec) s) ∧
      (∀ base values, MayRead R (renderScalar R plainFormats .none base values) s) ∧
      (∀ key, MayRead R (renderSpecialValue R plainFormats (compactIn R plainFormats 11) key) s) ∧
      ∀ path indent, SameEnd R s (compactIn R plainFormats 11 .none path s)
        (renderValue R plainFormats 11 indent .none path s) :=
  renderers_consume (Reader.lawful_ofDecode decodeShort_shorter) plainFormats .none (by decide)

end Peiosutils.Revstrm
