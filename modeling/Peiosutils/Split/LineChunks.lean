import Mathlib.Data.List.Basic
import Peiosutils.Split.ByLine

/-!
# The chunks of `split -n l/N`

The input is cut into `N` ranges of bytes, and a line belongs to the range that its first byte is in (`chunkLines`).
`nChunksByLine_iff`: when the files that are written hold these lines, when they are the input, and when `l/K/N` prints
the lines of the `K`-th range. With fewer bytes than chunks the target stays at the number of bytes behind the last
line, and the loop never ends (`linesLoop_never`), unless empty chunks are elided and a skipped chunk has put the target
ahead or the loop over the lines is left earlier.
-/

set_option autoImplicit false

namespace Peiosutils.Split

open Lines Shares
open While (Stop Ends)

/-! ## The chunks -/

/-- The lines whose first byte is one of `lo..hi`; the first line starts at `w`. -/
def startedIn (lo hi : Nat) : (w : Nat) → List (List UInt8) → List UInt8
  | _, [] => []
  | w, p :: ps => (if lo ≤ w ∧ w < hi then p else []) ++ startedIn lo hi (w + p.length) ps

/-- What belongs to the chunk number `i + 1` of `N`. -/
def chunkLines (sep : UInt8) (data : List UInt8) (N i : Nat) : List UInt8 :=
  startedIn (bound data.length N i) (bound data.length N (i + 1)) 0 (pieces sep data)

theorem startedIn_eq_nil {lo hi w : Nat} (h : hi ≤ w) (ps : List (List UInt8)) : startedIn lo hi w ps = [] := by
  induction ps generalizing w with
  | nil => rfl
  | cons p ps ih => rw [startedIn, if_neg (by omega), ih (by omega), List.nil_append]

variable {canOpen : (attempt opened : Nat) → Bool} {settings : Settings} {n N : Nat} {kth : Option Nat} {fuel : Nat}

/-! ## The target and the lines -/

/-- The first byte of the line that comes is in the range of the chunk at hand. -/
structure InShare (n N : Nat) (s : State) : Prop extends OnTarget n N 0 s where
  above : bound n N (s.chunkNumber - 1) ≤ s.written

theorem InShare.lt {s : State} (h : InShare n N s) : s.written < bound n N s.chunkNumber := by
  rw [← Nat.add_zero (bound n N s.chunkNumber), ← h.target]
  exact h.below

/-- While bytes are left the chunk at hand is one of the `N`. -/
theorem InShare.number_le (hN : 0 < N) {s : State} (h : InShare n N s) (hw : s.written < n) : s.chunkNumber ≤ N := by
  refine Nat.le_of_not_lt fun hlt => ?_
  have hle : bound n N N ≤ bound n N (s.chunkNumber - 1) := bound_mono (by omega)
  have := h.above
  rw [bound_self hN] at hle
  omega

theorem Moved.number_eq {p : List UInt8} {d m : Nat} {s s₁ s' : State} (h : Moved settings n N kth p d m s s₁ s')
    (hroll : settings.elideEmptyFiles = false ∨ kth.isSome = true ∨ m ≤ s.chunkNumber + 1) : s'.chunkNumber = m := by
  rw [h.number, if_neg]
  simp only [Bool.and_eq_true, decide_eq_true_eq]
  rintro ⟨⟨helide, hkth⟩, hm⟩
  rcases hroll with hroll | hroll | hroll
  · rw [hroll] at helide
    cases helide
  · cases kth <;> simp at hkth hroll
  · omega

/-- Where nothing is rolled back, the next line is in the range of its chunk. -/
theorem Moved.inShare {p : List UInt8} {m : Nat} {s s₁ s' : State} (h : Moved settings n N kth p 0 m s s₁ s')
    (hs : InShare n N s) (hnumber : s'.chunkNumber = m) : InShare n N s' := by
  have hm := h.le
  have hone := hs.one_le
  refine ⟨⟨by omega, by rw [h.target, hnumber], by rw [h.written, h.target]; exact h.below⟩, ?_⟩
  rw [hnumber, h.written]
  by_cases hc : s.chunkNumber = m
  · have habove := hs.above
    rw [hc] at habove
    omega
  · exact h.passed (m - 1) (by omega) (by omega)

/-- A chunk that is not filled: one more than there are, or the last one where bytes are left or the target is ahead. -/
theorem exists_room (hN : 0 < N) {w d : Nat} (hw : w ≤ n) (h : N ≤ n ∨ w < n ∨ 0 < d) :
    ∃ m, N ≤ m ∧ m ≤ N + 1 ∧ w < bound n N m + d := by
  have hself : bound n N N = n := bound_self hN
  rcases h with hle | h
  · have hlt : bound n N N < bound n N (N + 1) := bound_lt_succ (Nat.div_pos hle hN)
    exact ⟨N + 1, Nat.le_succ N, Nat.le_refl _, by omega⟩
  · exact ⟨N, Nat.le_refl N, Nat.le_succ N, by omega⟩

/-- Where a line ends, and where there is another one behind it. -/
theorem written_le {rest p : List UInt8} {ps : List (List UInt8)} {sep : UInt8} {w : Nat}
    (hpieces : pieces sep rest = p :: ps) (hlen : w + rest.length = n) :
    w < w + p.length ∧ w + p.length + ps.flatten.length = n ∧ (ps ≠ [] → w + p.length < n) := by
  obtain ⟨hrest, hps, -⟩ := pieces_eq_cons hpieces
  have hlen' : rest.length = p.length + ps.flatten.length := by rw [← List.length_append, ← hrest]
  have hp : 0 < p.length := List.length_pos_iff.2 (ne_nil_of_mem_pieces (hpieces ▸ List.mem_cons_self))
  refine ⟨by omega, by omega, fun hne => ?_⟩
  have hflat : 0 < ps.flatten.length := by
    refine List.length_pos_iff.2 fun hnil => hne ?_
    rw [← hps, hnil]
    rfl
  omega

/-! ## Runs into files -/

/-- The files as the runs need them: `N` files, from which nothing is lost. -/
structure Files (N : Nat) (out : OutFiles) : Prop where
  length : out.contents.length = N
  fresh : Fresh out.files

/-- A line is appended to the file of the chunk at hand. -/
theorem emit_none (hopen : ∀ attempt, canOpen attempt 0 = true) {s : State} (hone : 1 ≤ s.chunkNumber)
    (hle : s.chunkNumber ≤ N) (hfiles : Files N s.outFiles) (bytes : List UInt8) :
    ∃ s₁, emit canOpen none bytes s = .ok s₁ ∧ Files N s₁.outFiles ∧
      s₁.outFiles.contents = s.outFiles.contents.modify (s.chunkNumber - 1) (· ++ bytes) := by
  have hidx : s.chunkNumber - 1 < s.outFiles.contents.length := by
    rw [hfiles.length]
    omega
  obtain ⟨out, hout, hfresh, hcontents⟩ := getWriter_write hopen hidx hfiles.fresh bytes
  have hemit : emit canOpen none bytes s = .ok { s with outFiles := out.write (s.chunkNumber - 1) bytes } := by
    simp only [emit, hout]
  refine ⟨_, hemit, ⟨?_, hfresh⟩, hcontents⟩
  show (out.write (s.chunkNumber - 1) bytes).contents.length = N
  rw [hcontents, List.length_modify, hfiles.length]

/-- Without elision every file gets the lines of its range. -/
theorem linesLoop_shares (hopen : ∀ attempt, canOpen attempt 0 = true) (helide : settings.elideEmptyFiles = false)
    (hN : 0 < N) (hle : N ≤ n) (hfuel : N + 1 < fuel) (ps : List (List UInt8)) :
    ∀ (rest : List UInt8) (s : State), pieces settings.separator rest = ps → s.written + rest.length = n →
      InShare n N s → Files N s.outFiles →
      ∃ s', linesLoop canOpen settings n N none fuel (ps.map (chomp settings.separator)) s = .ok s' ∧
        s'.outFiles.contents = s.outFiles.contents.mapIdx fun i content =>
          content ++ startedIn (bound n N i) (bound n N (i + 1)) s.written ps := by
  induction ps with
  | nil =>
    intro rest s _ _ _ _
    refine ⟨s, rfl, List.ext_getElem? fun i => ?_⟩
    simp [startedIn]
  | cons p ps ih =>
    intro rest s hpieces hlen hs hfiles
    obtain ⟨hp, hwritten, -⟩ := written_le hpieces hlen
    have hnumber := hs.number_le hN (by omega)
    obtain ⟨s₁, hemit, hfiles₁, hcontents⟩ := emit_none hopen hs.one_le hnumber hfiles p
    obtain ⟨m, hm, hm', hroom⟩ := exists_room (d := 0) hN (w := s.written + p.length) (by omega) (Or.inl hle)
    obtain ⟨s₂, m', hnext, hmoved⟩ :=
      nextLine_ends hpieces hlen hs.toOnTarget hemit (by omega) hroom (by omega : m - s.chunkNumber < fuel)
    have hs₂ := hmoved.inShare hs (hmoved.number_eq (Or.inl helide))
    obtain ⟨s', hs', hcontents'⟩ := ih ps.flatten s₂ (pieces_eq_cons hpieces).2.1 (by rw [hmoved.written]; omega) hs₂
      (hmoved.outFiles ▸ hfiles₁)
    refine ⟨s', (linesLoop_cons hnext _).trans hs', ?_⟩
    rw [hcontents', hmoved.outFiles, hcontents, hmoved.written]
    refine List.ext_getElem? fun i => ?_
    simp only [List.getElem?_mapIdx, List.getElem?_modify, startedIn]
    cases hi : s.outFiles.contents[i]? with
    | none => rfl
    | some content =>
      simp only [Option.map_eq_map, Option.map_some, Option.some.injEq]
      by_cases hshare : s.chunkNumber - 1 = i
      · have hsucc : i + 1 = s.chunkNumber := by have := hs.one_le; omega
        rw [if_pos hshare, if_pos ⟨hshare ▸ hs.above, hsucc ▸ hs.lt⟩, List.append_assoc]
      · have hother : ¬ (bound n N i ≤ s.written ∧ s.written < bound n N (i + 1)) := by
          rintro ⟨hlow, hhigh⟩
          have hsucc : s.chunkNumber - 1 + 1 = s.chunkNumber := by have := hs.one_le; omega
          exact hshare (share_unique hs.above (hsucc ▸ hs.lt) hlow hhigh)
        rw [if_neg hshare, if_neg hother, List.nil_append]

/-- What is appended behind the last thing written is appended to the whole. -/
theorem flatten_modify {l : List (List UInt8)} {idx : Nat} (hidx : idx < l.length)
    (hlater : ∀ i content, idx < i → l[i]? = some content → content = []) (bytes : List UInt8) :
    (l.modify idx (· ++ bytes)).flatten = l.flatten ++ bytes := by
  induction l generalizing idx with
  | nil => cases hidx
  | cons x l ih =>
    cases idx with
    | zero =>
      have hrest : l.flatten = [] := by
        rw [List.flatten_eq_nil_iff]
        intro content hmem
        obtain ⟨i, hi⟩ := List.mem_iff_getElem?.1 hmem
        exact hlater (i + 1) content (Nat.succ_pos i) hi
      simp [hrest]
    | succ idx =>
      have hlater' : ∀ i content, idx < i → l[i]? = some content → content = [] := fun i content hi =>
        hlater (i + 1) content (Nat.succ_lt_succ hi)
      rw [List.modify_succ_cons, List.flatten_cons, List.flatten_cons, ih (Nat.lt_of_succ_lt_succ hidx) hlater',
        List.append_assoc]

/-- Why the loop behind the last line ends: each chunk has a byte, the target is ahead, or a line will put it ahead. -/
def Ahead (settings : Settings) (n N d : Nat) (s : State) (ps : List (List UInt8)) : Prop :=
  N ≤ n ∨ 0 < d ∨ settings.elideEmptyFiles = true ∧ InShare n N s ∧
    ∃ line ∈ (ps.map (chomp settings.separator)).dropLast, line ≠ []

/-- The target stays ahead, also behind chunks that are rolled back. -/
theorem Moved.ahead {rest p : List UInt8} {ps : List (List UInt8)} {d m : Nat} {s s₁ s' : State}
    (h : Moved settings n N none p d m s s₁ s') (hs : OnTarget n N d s)
    (hpieces : pieces settings.separator rest = p :: ps) (hlen : s.written + rest.length = n)
    (hahead : Ahead settings n N d s (p :: ps)) :
    ∃ d', OnTarget n N d' s' ∧ Ahead settings n N d' s' ps := by
  have hm := h.le
  have hone := hs.one_le
  -- rolled back or not, the number is not greater than that of the target
  have hle : s'.chunkNumber ≤ m := by
    rw [h.number]
    split
    · rename_i hroll
      exact Nat.le_of_lt (of_decide_eq_true (Bool.and_eq_true_iff.1 hroll).2)
    · exact Nat.le_refl m
  have hge : 1 ≤ s'.chunkNumber := by
    rw [h.number]
    split <;> omega
  have hmono : bound n N s'.chunkNumber ≤ bound n N m := bound_mono hle
  refine ⟨bound n N m - bound n N s'.chunkNumber + d, ⟨hge, by rw [h.target]; omega, by
    rw [h.written, h.target]; exact h.below⟩, ?_⟩
  rcases hahead with hN' | hd | ⟨helide, hshare, line, hline, hne⟩
  · exact Or.inl hN'
  · exact Or.inr (Or.inl (by omega))
  · by_cases hN' : N ≤ n
    · exact Or.inl hN'
    obtain ⟨hp, -, hmore⟩ := written_le hpieces hlen
    have hps : ps ≠ [] := by
      rintro rfl
      simp at hline
    have hd : d = 0 := by
      have := hs.target
      have := hshare.target
      omega
    subst hd
    -- a range is one byte or none
    have hunit : ∀ c, bound n N c = min c n := fun c => bound_of_lt (by omega)
    have habove := hshare.above
    have hlt := hshare.lt
    have hbelow := h.below
    have hwithin := hmore hps
    rw [hunit] at habove hlt hbelow
    by_cases hroll : s.chunkNumber + 1 < m
    · have hnumber : s'.chunkNumber = s.chunkNumber + 1 := by
        rw [h.number, helide]
        simp [hroll]
      have hpassed := h.passed (m - 1) (by omega) (by omega)
      refine Or.inr (Or.inl ?_)
      rw [hunit] at hpassed
      rw [hnumber, hunit, hunit]
      omega
    · have hnumber := h.number_eq (Or.inr (Or.inr (by omega)))
      refine Or.inr (Or.inr ⟨helide, h.inShare hshare hnumber, line, ?_, hne⟩)
      obtain ⟨q, qs, rfl⟩ := List.exists_cons_of_ne_nil hps
      rw [List.map_cons, List.map_cons, List.dropLast_cons_cons, ← List.map_cons] at hline
      refine (List.mem_cons.1 hline).resolve_left ?_
      -- the line is its separator only
      rintro rfl
      have hlast : p.getLast? = some settings.separator :=
        (pieces_eq_cons hpieces).2.2.resolve_right (List.cons_ne_nil q qs)
      have hcut : p.dropLast ++ [settings.separator] = p := List.dropLast_append_getLast? _ hlast
      have hlong : p.dropLast.length + 1 = p.length := by simpa using congrArg List.length hcut
      have hpos : 0 < p.dropLast.length := by
        refine List.length_pos_iff.2 fun hnil => hne ?_
        rw [chomp, if_pos hlast, hnil]
      omega

/-- The files are the input, with elision and without. -/
theorem linesLoop_flatten (hopen : ∀ attempt, canOpen attempt 0 = true) (hN : 0 < N) (hfuel : N + 1 < fuel)
    (ps : List (List UInt8)) :
    ∀ (rest : List UInt8) (s : State) (d : Nat), pieces settings.separator rest = ps → s.written + rest.length = n →
      OnTarget n N d s → (s.written < n → s.chunkNumber ≤ N) → Files N s.outFiles →
      (∀ i content, s.chunkNumber ≤ i → s.outFiles.contents[i]? = some content → content = []) →
      Ahead settings n N d s ps →
      ∃ s', linesLoop canOpen settings n N none fuel (ps.map (chomp settings.separator)) s = .ok s' ∧
        s'.outFiles.contents.flatten = s.outFiles.contents.flatten ++ rest := by
  induction ps with
  | nil =>
    intro rest s d hpieces _ _ _ _ _ _
    obtain rfl := pieces_eq_nil.1 hpieces
    exact ⟨s, rfl, (List.append_nil _).symm⟩
  | cons p ps ih =>
    intro rest s d hpieces hlen hs hnumber hfiles hlater hahead
    obtain ⟨hp, hwritten, hmore⟩ := written_le hpieces hlen
    have hnumber := hnumber (by omega)
    have hone := hs.one_le
    obtain ⟨s₁, hemit, hfiles₁, hcontents⟩ := emit_none hopen hone hnumber hfiles p
    have hroom' : N ≤ n ∨ s.written + p.length < n ∨ 0 < d := by
      refine hahead.imp_right fun hahead => hahead.symm.imp_left fun hline => hmore ?_
      rintro rfl
      simp at hline
    obtain ⟨m, hm, hm', hroom⟩ := exists_room hN (by omega) hroom'
    obtain ⟨s₂, m', hnext, hmoved⟩ :=
      nextLine_ends hpieces hlen hs hemit (by omega) hroom (by omega : m - s.chunkNumber < fuel)
    obtain ⟨d', hs₂, hahead₂⟩ := hmoved.ahead hs hpieces hlen hahead
    have hlow : s.chunkNumber ≤ s₂.chunkNumber ∧ s₂.chunkNumber ≤ m' := by
      have := hmoved.le
      rw [hmoved.number]
      split
      · rename_i hroll
        have hlt : s.chunkNumber + 1 < m' := of_decide_eq_true (Bool.and_eq_true_iff.1 hroll).2
        omega
      · omega
    have hnumber₂ : s₂.written < n → s₂.chunkNumber ≤ N := by
      intro hlt
      rw [hmoved.written] at hlt
      refine Nat.le_of_not_lt fun hgt => ?_
      have hpassed := hmoved.passed N hnumber (by omega)
      rw [bound_self hN] at hpassed
      omega
    have hlater₂ : ∀ i content, s₂.chunkNumber ≤ i → s₂.outFiles.contents[i]? = some content → content = [] := by
      intro i content hi hget
      rw [hmoved.outFiles, hcontents, List.getElem?_modify, Option.map_eq_map, Option.map_eq_some_iff] at hget
      obtain ⟨before, hbefore, rfl⟩ := hget
      rw [if_neg (by omega)]
      exact hlater i before (by omega) hbefore
    obtain ⟨s', hs', hflat⟩ := ih ps.flatten s₂ d' (pieces_eq_cons hpieces).2.1 (by rw [hmoved.written]; omega) hs₂
      hnumber₂ (hmoved.outFiles ▸ hfiles₁) hlater₂ hahead₂
    refine ⟨s', (linesLoop_cons hnext _).trans hs', ?_⟩
    rw [hflat, hmoved.outFiles, hcontents, flatten_modify (by rw [hfiles.length]; omega)
      (fun i content hi => hlater i content (by omega)), List.append_assoc, ← (pieces_eq_cons hpieces).1]

/-! ## Runs to the standard output -/

/-- The lines of the `k`-th range are printed, if each chunk has a byte or the loop is left before the last line. -/
theorem linesLoop_kth (canOpen : (attempt opened : Nat) → Bool) {k : Nat} (hk : 1 ≤ k) (hN : 0 < N)
    (hfuel : N + 1 < fuel) (ps : List (List UInt8)) :
    ∀ (rest : List UInt8) (s : State), pieces settings.separator rest = ps → s.written + rest.length = n →
      InShare n N s → s.chunkNumber ≤ k → (N ≤ n ∨ bound n N k ≤ s.written + ps.dropLast.flatten.length) →
      ∃ s', linesLoop canOpen settings n N (some k) fuel (ps.map (chomp settings.separator)) s = .ok s' ∧
        s'.stdout = s.stdout ++ startedIn (bound n N (k - 1)) (bound n N k) s.written ps := by
  induction ps with
  | nil => exact fun rest s _ _ _ _ _ => ⟨s, rfl, (List.append_nil _).symm⟩
  | cons p ps ih =>
    intro rest s hpieces hlen hs hck hcond
    obtain ⟨hp, hwritten, hmore⟩ := written_le hpieces hlen
    have hnumber := hs.number_le hN (by omega)
    have hlast : N ≤ n ∨ s.written + p.length < n ∨ 0 < 0 := by
      refine hcond.imp_right fun hcond => Or.inl (hmore ?_)
      -- the range of the last line cannot lie behind the chunk
      rintro rfl
      have hmono : bound n N s.chunkNumber ≤ bound n N k := bound_mono hck
      have hlt := hs.lt
      rw [List.dropLast_singleton, List.flatten_nil, List.length_nil] at hcond
      omega
    obtain ⟨m, hm, hm', hroom⟩ := exists_room hN (by omega) hlast
    have hemit : emit canOpen (some k) p s = .ok _ := rfl
    obtain ⟨s₂, m', hnext, hmoved⟩ :=
      nextLine_ends hpieces hlen hs.toOnTarget hemit (by omega) hroom (by omega : m - s.chunkNumber < fuel)
    have hs₂ := hmoved.inShare hs (hmoved.number_eq (Or.inr (Or.inl rfl)))
    have hprinted : s₂.stdout =
        s.stdout ++ if bound n N (k - 1) ≤ s.written ∧ s.written < bound n N k then p else [] := by
      rw [hmoved.stdout]
      by_cases hshare : s.chunkNumber = k
      · rw [if_pos hshare, if_pos ⟨hshare ▸ hs.above, hshare ▸ hs.lt⟩]
      · have hother : ¬ (bound n N (k - 1) ≤ s.written ∧ s.written < bound n N k) := by
          rintro ⟨hlow, -⟩
          have hmono : bound n N s.chunkNumber ≤ bound n N (k - 1) := bound_mono (by omega)
          have hlt := hs.lt
          omega
        rw [if_neg hshare, if_neg hother, List.append_nil]
    by_cases hdone : k < s₂.chunkNumber
    · have hend : bound n N k ≤ s.written + p.length := by
        rw [← hmoved.written]
        exact Nat.le_trans (bound_mono (by omega)) hs₂.above
      refine ⟨s₂, (linesLoop_cons hnext _).trans (if_pos (decide_eq_true hdone)), ?_⟩
      rw [hprinted, startedIn, startedIn_eq_nil hend, List.append_nil]
    · have hcond₂ : N ≤ n ∨ bound n N k ≤ s₂.written + ps.dropLast.flatten.length := by
        refine hcond.imp_right fun hcond => ?_
        cases ps with
        | nil =>
          have hmono : bound n N s.chunkNumber ≤ bound n N k := bound_mono hck
          have hlt := hs.lt
          rw [List.dropLast_singleton, List.flatten_nil, List.length_nil] at hcond
          omega
        | cons q ps =>
          rw [List.dropLast_cons_cons, List.flatten_cons, List.length_append] at hcond
          rw [hmoved.written]
          omega
      obtain ⟨s', hs', hstdout⟩ := ih ps.flatten s₂ (pieces_eq_cons hpieces).2.1 (by rw [hmoved.written]; omega) hs₂
        (by omega) hcond₂
      refine ⟨s', (linesLoop_cons hnext _).trans ((if_neg (mt of_decide_eq_true hdone)).trans hs'), ?_⟩
      rw [hstdout, hprinted, hmoved.written, startedIn, List.append_assoc]

/-! ## Runs that never end -/

/-- With fewer bytes than chunks the loop behind the last line does not end. -/
theorem linesLoop_never (hn : n < N) (ps : List (List UInt8)) :
    ∀ (rest : List UInt8) (s s' : State), pieces settings.separator rest = ps → s.written + rest.length = n →
      InShare n N s → ps ≠ [] →
      (settings.elideEmptyFiles = false ∨ kth.isSome = true ∨
        ∀ line ∈ (ps.map (chomp settings.separator)).dropLast, line = []) →
      (∀ k, kth = some k → s.written + ps.dropLast.flatten.length < bound n N k) →
      linesLoop canOpen settings n N kth fuel (ps.map (chomp settings.separator)) s ≠ .ok s' := by
  induction ps with
  | nil => exact fun _ _ _ _ _ _ hne => absurd rfl hne
  | cons p ps ih =>
    intro rest s s' hpieces hlen hs _ hroll hkth hrun
    obtain ⟨hp, hwritten, hmore⟩ := written_le hpieces hlen
    have hunit : ∀ c, bound n N c = min c n := fun c => bound_of_lt hn
    cases hnext : nextLine canOpen settings n N kth fuel (chomp settings.separator p) s with
    | error e => simp [linesLoop, hnext] at hrun
    | ok s₂ =>
      obtain ⟨s₁, m, -, hmoved⟩ := nextLine_ok hpieces hlen hs.toOnTarget hnext
      have hbelow := hmoved.below
      rw [hunit] at hbelow
      have hps : ps ≠ [] := by
        rintro rfl
        rw [List.flatten_nil, List.length_nil] at hwritten
        omega
      obtain ⟨q, qs, rfl⟩ := List.exists_cons_of_ne_nil hps
      have hnumber : s₂.chunkNumber = m := by
        refine hmoved.number_eq (hroll.imp_right fun hroll => hroll.imp_right fun hempty => ?_)
        -- the line is its separator only, and the next chunk has the byte behind it
        have hlast : p.getLast? = some settings.separator := (pieces_eq_cons hpieces).2.2.resolve_right hps
        have hnil : chomp settings.separator p = [] := hempty _ (by simp)
        rw [chomp, if_pos hlast, ← List.length_eq_zero_iff, List.length_dropLast] at hnil
        have habove := hs.above
        have hlt := hs.lt
        refine Nat.le_of_not_lt fun hm => ?_
        have hpassed := hmoved.passed (s.chunkNumber + 1) (Nat.le_succ _) hm
        rw [hunit] at habove hlt hpassed
        omega
      have hs₂ := hmoved.inShare hs hnumber
      have hgo : kth.any (s₂.chunkNumber > ·) = false := by
        cases kth with
        | none => rfl
        | some k =>
          have hk := hkth k rfl
          rw [List.dropLast_cons_cons, List.flatten_cons, List.length_append] at hk
          rw [Option.any_some, decide_eq_false_iff_not]
          intro hgt
          have hmono : bound n N k ≤ bound n N (s₂.chunkNumber - 1) := bound_mono (by omega)
          have habove := hs₂.above
          rw [hmoved.written] at habove
          omega
      rw [List.map_cons, linesLoop_cons hnext, hgo, if_neg Bool.false_ne_true] at hrun
      refine ih (q :: qs).flatten s₂ s' (pieces_eq_cons hpieces).2.1 (by rw [hmoved.written]; omega) hs₂ hps ?_ ?_ hrun
      · refine hroll.imp_right fun hroll => hroll.imp_right fun hempty line hline => hempty line ?_
        rw [List.map_cons, List.map_cons, List.dropLast_cons_cons, ← List.map_cons]
        exact List.mem_cons_of_mem _ hline
      · intro k hk
        have hbefore := hkth k hk
        rw [List.dropLast_cons_cons, List.flatten_cons, List.length_append] at hbefore
        rw [hmoved.written]
        omega

/-! ## `split -n l/N` and `split -n l/K/N` -/

/-- Where the last line starts. -/
def lastStart (sep : UInt8) (data : List UInt8) : Nat := (pieces sep data).dropLast.flatten.length

theorem start_inShare (hn : 0 < n) (out : OutFiles) : InShare n N { start n N with outFiles := out } := by
  have htarget : bound n N 1 = n / N + if n % N > 0 then 1 else 0 := by rw [bound_succ, bound_zero, Nat.zero_add]
  refine ⟨⟨Nat.le_refl 1, htarget.symm, ?_⟩, Nat.le_of_eq (bound_zero n N)⟩
  show 0 < n / N + if n % N > 0 then 1 else 0
  have hmod := Nat.div_add_mod n N
  rcases Nat.eq_zero_or_pos (n / N) with hzero | hpos
  · rw [hzero, Nat.mul_zero, Nat.zero_add] at hmod
    rw [if_pos (by omega)]
    omega
  · omega

theorem init_files (canOpen : (attempt opened : Nat) → Bool) (N : Nat) (optional : Bool) :
    Files N (init canOpen N optional) ∧ (init canOpen N optional).contents = List.replicate N [] := by
  obtain ⟨hfresh, hcontents⟩ := init_spec canOpen N optional
  exact ⟨⟨by rw [hcontents, List.length_replicate], hfresh⟩, hcontents⟩

section Claims

variable {sep : UInt8} {data : List UInt8}

/-- What the run is where there is something to split. -/
theorem nChunksByLine_of_ne_nil (hdata : data ≠ []) : nChunksByLine canOpen settings N kth fuel data =
    linesLoop canOpen settings data.length N kth fuel (lines settings.separator data)
      { start data.length N with
        outFiles := if kth.isNone then init canOpen N settings.elideEmptyFiles else {} } := by
  rw [nChunksByLine, if_neg (by simp [hdata])]

theorem nChunksByLine_never (hdata : data ≠ []) (hN : data.length < N)
    (hroll : settings.elideEmptyFiles = false ∨ kth.isSome = true ∨
      ∀ line ∈ (lines settings.separator data).dropLast, line = [])
    (hkth : ∀ k, kth = some k → lastStart settings.separator data < bound data.length N k) (Post : State → Prop) :
    ¬ Ends (nChunksByLine canOpen settings N kth · data) Post := by
  rintro ⟨enough, hrun⟩
  obtain ⟨s, hs, -⟩ := hrun (enough + 1) (Nat.lt_succ_self enough)
  simp only [nChunksByLine_of_ne_nil hdata] at hs
  refine linesLoop_never hN _ data _ s rfl (Nat.zero_add _) (start_inShare (List.length_pos_iff.2 hdata) _)
    (mt pieces_eq_nil.1 hdata) hroll (fun k hk => ?_) hs
  rw [show State.written _ = 0 from rfl, Nat.zero_add]
  exact hkth k hk

theorem lastStart_lt (hdata : data ≠ []) : lastStart sep data < data.length := by
  have hne : pieces sep data ≠ [] := mt pieces_eq_nil.1 hdata
  have hlast : 0 < ((pieces sep data).getLast hne).length :=
    List.length_pos_iff.2 (ne_nil_of_mem_pieces (List.getLast_mem hne))
  have hsum : ((pieces sep data).dropLast ++ [(pieces sep data).getLast hne]).flatten.length = data.length := by
    rw [List.dropLast_append_getLast, flatten_pieces]
  rw [List.flatten_append, List.length_append] at hsum
  simp only [List.flatten_cons, List.flatten_nil, List.append_nil] at hsum
  unfold lastStart
  omega

theorem files_of_nil (N : Nat) : List.replicate N [] = (List.range N).map (chunkLines sep [] N) := by
  refine (List.eq_replicate_iff.2 ⟨by rw [List.length_map, List.length_range], fun content hmem => ?_⟩).symm
  obtain ⟨i, -, rfl⟩ := List.mem_map.1 hmem
  rfl

theorem mapIdx_replicate (N : Nat) (f : Nat → List UInt8) :
    (List.replicate N []).mapIdx (fun i content => content ++ f i) = (List.range N).map f := by
  refine List.ext_getElem (by simp) fun i hi hi' => ?_
  simp

/-- The files of `l/N` without elision. -/
theorem nChunksByLine_shares (hopen : ∀ attempt, canOpen attempt 0 = true) (hN : 0 < N)
    (helide : settings.elideEmptyFiles = false) (h : data = [] ∨ N ≤ data.length) :
    Ends (nChunksByLine canOpen settings N none · data) fun s =>
      s.outFiles.contents = (List.range N).map (chunkLines settings.separator data N) ∧
        s.outFiles.contents.flatten = data := by
  obtain ⟨hfiles, hcontents⟩ := init_files canOpen N settings.elideEmptyFiles
  refine ⟨N + 1, fun fuel hfuel => ?_⟩
  by_cases hdata : data = []
  · subst hdata
    refine ⟨{ start 0 N with outFiles := init canOpen N settings.elideEmptyFiles }, ?_, ?_, ?_⟩
    · simp [nChunksByLine, helide, linesLoop]
    · rw [hcontents, files_of_nil]
    · simp [hcontents]
  · have hpos : 0 < data.length := List.length_pos_iff.2 hdata
    have hle : N ≤ data.length := h.resolve_left hdata
    have hs := start_inShare (N := N) hpos (init canOpen N settings.elideEmptyFiles)
    have hlater : ∀ i content, 1 ≤ i → (init canOpen N settings.elideEmptyFiles).contents[i]? = some content →
        content = [] := by
      intro i content _ hget
      rw [hcontents] at hget
      exact (List.mem_replicate.1 (List.mem_of_getElem? hget)).2
    obtain ⟨s, hrun, hshares⟩ := linesLoop_shares hopen helide hN hle hfuel _ data _ rfl (Nat.zero_add _) hs hfiles
    obtain ⟨s', hrun', hflat⟩ := linesLoop_flatten hopen hN hfuel _ data _ 0 rfl (Nat.zero_add _) hs.toOnTarget
      (hs.number_le hN) hfiles hlater (Or.inl hle)
    obtain rfl : s = s' := Except.ok.inj (hrun.symm.trans hrun')
    refine ⟨s, (nChunksByLine_of_ne_nil hdata).trans hrun, ?_, ?_⟩
    · simp only [hshares, hcontents]
      exact mapIdx_replicate N _
    · simp [hflat, hcontents]

/-- The files of `l/N` with elision. -/
theorem nChunksByLine_elided (hopen : ∀ attempt, canOpen attempt 0 = true) (hN : 0 < N)
    (helide : settings.elideEmptyFiles = true)
    (h : data = [] ∨ N ≤ data.length ∨ ∃ line ∈ (lines settings.separator data).dropLast, line ≠ []) :
    Ends (nChunksByLine canOpen settings N none · data) fun s => s.outFiles.contents.flatten = data := by
  obtain ⟨hfiles, hcontents⟩ := init_files canOpen N settings.elideEmptyFiles
  refine ⟨N + 1, fun fuel hfuel => ?_⟩
  by_cases hdata : data = []
  · subst hdata
    exact ⟨start 0 N, by simp [nChunksByLine, helide], rfl⟩
  · have hpos : 0 < data.length := List.length_pos_iff.2 hdata
    have hs := start_inShare (N := N) hpos (init canOpen N settings.elideEmptyFiles)
    have hlater : ∀ i content, 1 ≤ i → (init canOpen N settings.elideEmptyFiles).contents[i]? = some content →
        content = [] := by
      intro i content _ hget
      rw [hcontents] at hget
      exact (List.mem_replicate.1 (List.mem_of_getElem? hget)).2
    have hahead : Ahead settings data.length N 0 { start data.length N with
        outFiles := init canOpen N settings.elideEmptyFiles } (pieces settings.separator data) :=
      (h.resolve_left hdata).imp_right fun hline => Or.inr ⟨helide, hs, hline⟩
    obtain ⟨s, hrun, hflat⟩ := linesLoop_flatten hopen hN hfuel _ data _ 0 rfl (Nat.zero_add _) hs.toOnTarget
      (hs.number_le hN) hfiles hlater hahead
    exact ⟨s, (nChunksByLine_of_ne_nil hdata).trans hrun, by simp [hflat, hcontents]⟩

/-- What `l/K/N` prints. -/
theorem nChunksByLine_kth (hN : 0 < N) {k : Nat} (hk : 1 ≤ k)
    (h : data = [] ∨ N ≤ data.length ∨ k ≤ lastStart settings.separator data) :
    Ends (nChunksByLine canOpen settings N (some k) · data) fun s =>
      s.stdout = chunkLines settings.separator data N (k - 1) := by
  refine ⟨N + 1, fun fuel hfuel => ?_⟩
  by_cases hdata : data = []
  · subst hdata
    exact ⟨start 0 N, rfl, rfl⟩
  · have hpos : 0 < data.length := List.length_pos_iff.2 hdata
    have hs := start_inShare (N := N) hpos {}
    have hcond : N ≤ data.length ∨
        bound data.length N k ≤ 0 + (pieces settings.separator data).dropLast.flatten.length := by
      rcases h.resolve_left hdata with hle | hlast
      · exact Or.inl hle
      · refine (Nat.lt_or_ge data.length N).symm.imp_right fun hlt => ?_
        rw [bound_of_lt hlt, Nat.zero_add]
        exact Nat.le_trans (Nat.min_le_left k data.length) hlast
    obtain ⟨s, hrun, hstdout⟩ := linesLoop_kth canOpen hk hN hfuel _ data _ rfl (Nat.zero_add _) hs hk hcond
    refine ⟨s, (nChunksByLine_of_ne_nil hdata).trans hrun, hstdout.trans ?_⟩
    rw [chunkLines, Nat.sub_add_cancel hk]
    exact List.nil_append _

/-- When `split -n l/N` ends with the files that it is to write, and `split -n l/K/N` prints what it is to print. -/
theorem nChunksByLine_iff (hopen : ∀ attempt, canOpen attempt 0 = true) (sep : UInt8) (data : List UInt8) (hN : 0 < N) :
    (Ends (nChunksByLine canOpen { separator := sep } N none · data) (fun s =>
        s.outFiles.contents = (List.range N).map (chunkLines sep data N) ∧ s.outFiles.contents.flatten = data) ↔
      data = [] ∨ N ≤ data.length) ∧
    (Ends (nChunksByLine canOpen { separator := sep, elideEmptyFiles := true } N none · data) (fun s =>
        s.outFiles.contents.flatten = data) ↔
      data = [] ∨ N ≤ data.length ∨ ∃ line ∈ (lines sep data).dropLast, line ≠ []) ∧
    ∀ (elide : Bool) (k : Nat), 1 ≤ k → k ≤ N →
      (Ends (nChunksByLine canOpen { separator := sep, elideEmptyFiles := elide } N (some k) · data) (fun s =>
          s.stdout = chunkLines sep data N (k - 1)) ↔
        data = [] ∨ N ≤ data.length ∨ k ≤ lastStart sep data) := by
  refine ⟨⟨fun hends => ?_, fun h => nChunksByLine_shares hopen hN rfl h⟩,
    ⟨fun hends => ?_, fun h => nChunksByLine_elided hopen hN rfl h⟩,
    fun elide k hk hkN => ⟨fun hends => ?_, fun h => nChunksByLine_kth hN hk h⟩⟩
  · by_contra hnot
    rw [not_or, Nat.not_le] at hnot
    exact nChunksByLine_never hnot.1 hnot.2 (Or.inl rfl) (fun k hk => by cases hk) _ hends
  · by_contra hnot
    rw [not_or, not_or, Nat.not_le] at hnot
    refine nChunksByLine_never hnot.1 hnot.2.1 (Or.inr (Or.inr fun line hline => ?_)) (fun k hk => by cases hk) _ hends
    exact by_contra fun hne => hnot.2.2 ⟨line, hline, hne⟩
  · by_contra hnot
    rw [not_or, not_or, Nat.not_le, Nat.not_le] at hnot
    refine nChunksByLine_never hnot.1 hnot.2.1 (Or.inr (Or.inl rfl)) (fun k' hk' => ?_) _ hends
    obtain rfl := Option.some.inj hk'
    rw [bound_of_lt hnot.2.1]
    exact Nat.lt_min.2 ⟨hnot.2.2, lastStart_lt hnot.1⟩

/-- Three chunks of a line of two bytes. -/
theorem nChunksByLine_iff_letter :
    (∀ attempt : Nat, (fun _ _ => true : Nat → Nat → Bool) attempt 0 = true) ∧ 0 < 3 ∧
      (Ends (nChunksByLine (fun _ _ => true) { separator := 10 } 3 none · [97, 10]) (fun s =>
        s.outFiles.contents = (List.range 3).map (chunkLines 10 [97, 10] 3) ∧ s.outFiles.contents.flatten = [97, 10]) ↔
      ([97, 10] : List UInt8) = [] ∨ 3 ≤ [97, 10].length) :=
  ⟨fun _ => rfl, Nat.succ_pos 2, (nChunksByLine_iff (fun _ => rfl) 10 [97, 10] (Nat.succ_pos 2)).1⟩

/-- A line of two bytes is never split into three chunks. -/
theorem nChunksByLine_stuck :
    ¬ Ends (nChunksByLine (fun _ _ => true) { separator := 10 } 3 none · [97, 10]) fun _ => True :=
  nChunksByLine_never (by decide) (by decide) (Or.inl rfl) (fun _ hk => by cases hk) _

end Claims

end Peiosutils.Split
