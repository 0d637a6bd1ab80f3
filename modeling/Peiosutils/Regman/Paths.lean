import Peiosutils.Regman.Located

/-!
# The paths that an index records

An index holds the lossy form of a path (`recordedPath`). It is the path itself just where the path is UTF-8. In a
directory whose own path is UTF-8 the recorded path of a fragment is a path in that directory again, so that it is a
fragment or is not there (`recordedPath_placed`).
-/

set_option autoImplicit false

namespace Peiosutils.Regman

open Utf8 Keyed

/-- A path whose lossy form is the path: it is UTF-8. -/
def Plain (path : PathBuf) : Prop := recordedPath path = path

instance (path : PathBuf) : Decidable (Plain path) := inferInstanceAs (Decidable (recordedPath path = path))

theorem plain_recordedPath (path : PathBuf) : Plain (recordedPath path) := by
  rw [Plain, recordedPath, recordedPath, toStringLossy_encode]

/-- An ASCII byte in a path is recorded as it is. -/
theorem recordedPath_append (as : List UInt8) {c : UInt8} (hc : c.toNat < 128) (bs : List UInt8) :
    recordedPath (as ++ c :: bs) = recordedPath as ++ c :: recordedPath bs := by
  have h : toStringLossy (as ++ c :: bs) = toStringLossy as ++ Char.ofNat c.toNat :: toStringLossy bs :=
    lossyList_append as hc bs
  have he : String.utf8EncodeChar (Char.ofNat c.toNat) = [c] := by
    have hv : c.toNat.isValidChar := Or.inl (by omega)
    have hval : (Char.ofNat c.toNat).val.toNat = c.toNat := by
      rw [Char.ofNat, dif_pos hv]
      rfl
    unfold String.utf8EncodeChar
    simp only [hval]
    rw [if_pos (by omega), UInt8.ofNat_toNat]
  rw [recordedPath, h, encode_append, encode_cons, he]
  rfl

theorem not_mem_recordedPath {c : Char} (hc : c.toNat < 128) (hne : c.toNat ≠ 0) {bs : List UInt8}
    (h : UInt8.ofNat c.toNat ∉ bs) : UInt8.ofNat c.toNat ∉ recordedPath bs :=
  fun hm => h (mem_of_mem_lossyList hc hne (mem_of_mem_encode hc hm))

theorem recordedPath_ne_nil {bs : List UInt8} (h : bs ≠ []) : recordedPath bs ≠ [] := by
  cases bs with
  | nil => exact absurd rfl h
  | cons b bs =>
    intro he
    have : toStringLossy (b :: bs) = [] := by
      have := congrArg toStringLossy he
      rwa [recordedPath, toStringLossy_encode] at this
    rw [show toStringLossy (b :: bs) = lossyList (b :: bs) from rfl, lossyList_cons] at this
    cases this

/-- In a directory whose path is UTF-8, the recorded path has the recorded name. -/
theorem recordedPath_join {dir : PathBuf} (h : Plain dir) (name : List UInt8) :
    recordedPath (join dir name) = join dir (recordedPath name) := by
  unfold join
  split
  · rename_i hd
    rcases hd with rfl | hd
    · rfl
    · obtain ⟨d, rfl⟩ : ∃ d, dir = d ++ [separator] := ⟨dir.dropLast, (List.dropLast_append_getLast? _ hd).symm⟩
      have hp : recordedPath (d ++ [separator]) = recordedPath d ++ [separator] :=
        recordedPath_append d (by decide) []
      rw [Plain, hp, List.append_cancel_right_eq] at h
      rw [List.append_assoc, List.singleton_append, recordedPath_append d (by decide), h, List.append_assoc,
        List.singleton_append]
  · rw [recordedPath_append dir (by decide), h]

/-! ## Fragments -/

/-- The last of the parts that `c` separates. -/
theorem rtakeWhile_append {a b : List UInt8} {c : UInt8} (h : c ∉ b) :
    (a ++ c :: b).rtakeWhile (· ≠ c) = b ∧ (a ++ c :: b).rdropWhile (· ≠ c) = a ++ [c] := by
  have hb : ∀ x ∈ b.reverse, decide (x ≠ c) = true := by
    intro x hx
    rw [decide_eq_true_iff]
    rintro rfl
    exact h (List.mem_reverse.1 hx)
  have hr : (a ++ c :: b).reverse = b.reverse ++ c :: a.reverse := by simp
  constructor
  · rw [List.rtakeWhile, hr, List.takeWhile_append_of_pos hb, List.takeWhile_cons_of_neg (by simp), List.append_nil,
      List.reverse_reverse]
  · rw [List.rdropWhile, hr, List.dropWhile_append_of_pos hb, List.dropWhile_cons_of_neg (by simp), List.reverse_cons,
      List.reverse_reverse]

theorem fileName_join {dir : PathBuf} {name : List UInt8} (h : separator ∉ name) : fileName (join dir name) = name := by
  unfold join fileName
  split
  · rename_i hd
    rcases hd with rfl | hd
    · rw [List.nil_append, List.rtakeWhile_eq_self_iff]
      intro x hx
      rw [decide_eq_true_iff]
      rintro rfl
      exact h hx
    · rw [← List.dropLast_append_getLast? _ hd, List.append_assoc, List.singleton_append]
      exact (rtakeWhile_append h).1
  · exact (rtakeWhile_append h).1

theorem dot_notMem_regmanExtension : dot ∉ regmanExtension := by decide +kernel

/-- The names of fragments. -/
theorem extension_eq_regman {path : PathBuf} : extension path = some regmanExtension ↔
    ∃ stem, stem ≠ [] ∧ fileName path = stem ++ dot :: regmanExtension := by
  unfold extension splitAtDot
  generalize fileName path = name
  constructor
  · intro h
    by_cases hdots : name = [dot, dot]
    · rw [if_pos hdots] at h
      cases h
    rw [if_neg hdots] at h
    by_cases hdot : dot ∈ name
    swap
    · rw [if_pos hdot] at h
      cases h
    rw [if_neg (not_not.2 hdot)] at h
    by_cases hbefore : (name.rdropWhile (· ≠ dot)).dropLast = []
    · simp only [hbefore, if_true] at h
      cases h
    simp only [hbefore, if_false] at h
    have hafter : name.rtakeWhile (· ≠ dot) = regmanExtension := Option.some.inj h
    have hne : name.rdropWhile (· ≠ dot) ≠ [] := by
      rw [Ne, List.rdropWhile_eq_nil_iff]
      intro hall
      simpa using hall dot hdot
    have hlast : (name.rdropWhile (· ≠ dot)).getLast hne = dot := by
      simpa using List.rdropWhile_last_not _ _ hne
    have hcat := List.dropLast_append_getLast hne
    rw [hlast] at hcat
    refine ⟨(name.rdropWhile (· ≠ dot)).dropLast, hbefore, ?_⟩
    rw [← List.singleton_append, ← List.append_assoc, hcat, ← hafter]
    exact (List.rdropWhile_append_rtakeWhile ..).symm
  · rintro ⟨stem, hstem, rfl⟩
    have hlen : regmanExtension.length = 6 := by decide +kernel
    obtain ⟨h1, h2⟩ := rtakeWhile_append (a := stem) dot_notMem_regmanExtension
    rw [if_neg, if_neg]
    · rw [h1, h2, List.dropLast_concat]
      simp [hstem]
    · simp
    · intro he
      have := congrArg List.length he
      simp [hlen] at this

theorem recordedPath_regmanExtension : recordedPath regmanExtension = regmanExtension := by decide +kernel

theorem mem_fragments {fs : Fs} {dir : PathBuf} {frags names : List (List UInt8)} (hd : fs.readDir dir = .ok names)
    (h : fragments fs dir = .ok frags) {path : PathBuf} :
    path ∈ frags ↔ ∃ name ∈ names, path = join dir name ∧ extension path = some regmanExtension := by
  rw [fragments, hd] at h
  cases h
  simp only [mem_sortOn, List.mem_filter, List.mem_map, decide_eq_true_eq]
  constructor
  · rintro ⟨⟨name, hn, rfl⟩, he⟩
    exact ⟨name, hn, rfl, he⟩
  · rintro ⟨name, hn, rfl, he⟩
    exact ⟨⟨name, hn, rfl⟩, he⟩

/-- The fragments that there are come from a listing. -/
theorem readDir_of_mem {fs : Fs} {dir : PathBuf} {frags : List PathBuf} (h : fragments fs dir = .ok frags)
    {path : PathBuf} (hp : path ∈ frags) : ∃ names, fs.readDir dir = .ok names := by
  cases hd : fs.readDir dir with
  | ok names => exact ⟨names, rfl⟩
  | error e =>
    rw [fragments, hd] at h
    simp only at h
    split at h
    · cases h
      cases hp
    · cases h

/-- A path in a listed directory whose name is that of a fragment is a fragment, or is not there. -/
theorem join_placed {fs : Fs} {dir : PathBuf} {frags names : List (List UInt8)} (hd : fs.readDir dir = .ok names)
    (h : fragments fs dir = .ok frags) {name : List UInt8} (hsep : separator ∉ name)
    (hext : extension (join dir name) = some regmanExtension) :
    join dir name ∈ frags ∨ ∃ e, fs.readToString (join dir name) = .error e ∧ e.notFound = true := by
  by_cases hin : name ∈ names
  · exact Or.inl ((mem_fragments hd h).2 ⟨name, hin, rfl, hext⟩)
  · refine Or.inr (fs.absent dir names hd name ?_ hsep hin)
    rintro rfl
    obtain ⟨stem, _, he⟩ := extension_eq_regman.1 hext
    rw [fileName_join hsep] at he
    simp at he

/-- The name that is recorded for a fragment is that of a fragment. -/
theorem recordedPath_fragment {fs : Fs} {dir : PathBuf} {frags : List PathBuf} (h : fragments fs dir = .ok frags)
    {path : PathBuf} (hp : path ∈ frags) : ∃ name, path = join dir name ∧ separator ∉ name ∧
      separator ∉ recordedPath name ∧ extension (join dir (recordedPath name)) = some regmanExtension := by
  obtain ⟨names, hd⟩ := readDir_of_mem h hp
  obtain ⟨name, hn, rfl, he⟩ := (mem_fragments hd h).1 hp
  obtain ⟨_, hsep⟩ := fs.plain dir names hd name hn
  have hsep' : separator ∉ recordedPath name := not_mem_recordedPath (c := '/') (by decide) (by decide) hsep
  refine ⟨name, rfl, hsep, hsep', ?_⟩
  obtain ⟨stem, hstem, hname⟩ := extension_eq_regman.1 he
  rw [fileName_join hsep] at hname
  refine extension_eq_regman.2 ⟨recordedPath stem, recordedPath_ne_nil hstem, ?_⟩
  rw [fileName_join hsep', hname, recordedPath_append stem (by decide), recordedPath_regmanExtension]

/-- In a directory whose path is UTF-8, what an index records for a fragment is a fragment of what the directory has
now, or is not there. -/
theorem recordedPath_placed {fs fs' : Fs} {dir : PathBuf} {frags frags' names : List (List UInt8)} (hdir : Plain dir)
    (h : fragments fs dir = .ok frags) (hd : fs'.readDir dir = .ok names) (h' : fragments fs' dir = .ok frags')
    {path : PathBuf} (hp : path ∈ frags) :
    recordedPath path ∈ frags' ∨ ∃ e, fs'.readToString (recordedPath path) = .error e ∧ e.notFound = true := by
  obtain ⟨name, rfl, _, hsep', hext⟩ := recordedPath_fragment h hp
  rw [recordedPath_join hdir]
  exact join_placed hd h' hsep' hext

/-- A path that is UTF-8 is in a directory whose path is. -/
theorem plain_dir {dir : PathBuf} {name : List UInt8} (hsep : separator ∉ name) (h : Plain (join dir name)) :
    Plain dir := by
  have hsep' : separator ∉ recordedPath name := not_mem_recordedPath (c := '/') (by decide) (by decide) hsep
  unfold join at h
  split at h
  · rename_i hd
    rcases hd with rfl | hd
    · rfl
    · obtain ⟨d, rfl⟩ : ∃ d, dir = d ++ [separator] := ⟨dir.dropLast, (List.dropLast_append_getLast? _ hd).symm⟩
      rw [Plain, List.append_assoc, List.singleton_append, recordedPath_append d (by decide)] at h
      have hcut := (rtakeWhile_append (a := recordedPath d) hsep').2
      rw [h, (rtakeWhile_append (a := d) hsep).2] at hcut
      rw [Plain, show recordedPath (d ++ [separator]) = recordedPath d ++ [separator] from
        recordedPath_append d (by decide) []]
      exact hcut.symm
  · rw [Plain, recordedPath_append dir (by decide)] at h
    have hcut := (rtakeWhile_append (a := recordedPath dir) hsep').2
    rw [h, (rtakeWhile_append (a := dir) hsep).2] at hcut
    exact (List.append_cancel_right hcut).symm

/-- In another directory, what an index records for a fragment is no fragment. -/
theorem recordedPath_outside {fs : Fs} {dir : PathBuf} {frags : List PathBuf} (hdir : ¬ Plain dir)
    (h : fragments fs dir = .ok frags) (path : PathBuf) : recordedPath path ∉ frags := by
  intro hp
  obtain ⟨name, hname, hsep, _⟩ := recordedPath_fragment h hp
  exact hdir (plain_dir hsep (hname ▸ plain_recordedPath path))

end Peiosutils.Regman
