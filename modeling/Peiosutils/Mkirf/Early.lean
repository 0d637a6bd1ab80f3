import Peiosutils.Mkirf.Archive

/-!
# The early archive (`cpio.rs`)

The part of an image in front of the compressed one is an archive too, in which the data of regular files starts at
multiples of sixteen: the name in front of it is widened with NUL bytes. The width depends on the offset of the entry,
the padding behind the name does not, so what carries the alignment through a run is that every entry starts at a
multiple of four. `early_archive_walk` says what a walk by the header fields then visits; `nulName_cut` is an entry
whose name is not read back.
-/

set_option autoImplicit false

namespace Peiosutils.Mkirf

open ByteStore Fallible Hex

/-! ## Writing -/

/-- Payloads of regular files are aligned to it. -/
def EARLY_ALIGN : Nat := 16

/-- An offset, which is a `u64`. -/
def offset (n : Nat) : Nat := n % 2 ^ 64

/-- Header, name and padding, and the offset behind them. With `align16` the name is widened, so that this is a
multiple of sixteen. -/
def writeAlignedHeader (name : Path) (mode filesize rdevmajor rdevminor off : Nat) (align16 : Bool) :
    Except IoError (List UInt8 × Nat) := do
  let namesizeMin := name.length + 1
  let base := offset (off + 110 + namesizeMin)
  let namesize := if align16 then namesizeMin + (EARLY_ALIGN - base % EARLY_ALIGN) % EARLY_ALIGN else namesizeMin
  let hdr ← header mode filesize rdevmajor rdevminor namesize
  let nulCount := namesize - name.length
  let consumed := 110 + namesize
  return (hdr ++ name ++ zeros nulCount ++ writePad consumed, offset (off + consumed + pad4 consumed))

/-- `matches!(self, File | Inline)`. -/
def Body.isRegular : Body → Bool
  | .file _ _ _ => true
  | .inlined _ _ => true
  | _ => false

/-- What follows the header at `off`, and the offset behind it. -/
def writeEarlyBody (files : Files) (off : Nat) : Body → Except IoError (List UInt8 × Nat)
  | .symlink target => .ok (target ++ writePad target.length, offset (off + target.length + pad4 target.length))
  | .file source size _ => do
    let content ← copyFile files source size
    return (content ++ writePad size, offset (off + size + pad4 size))
  | .inlined data _ => .ok (data ++ writePad data.length, offset (off + data.length + pad4 data.length))
  | .directory => .ok ([], off)
  | .device _ _ _ => .ok ([], off)
  | .fifo => .ok ([], off)

def writeEarlyEntry (files : Files) (entry : Entry) (off : Nat) : Except IoError (List UInt8 × Nat) := do
  let recorded := entry.body.recorded
  let (hdr, off) ← writeAlignedHeader entry.name entry.body.mode recorded.1 recorded.2.1 recorded.2.2 off
    entry.body.isRegular
  let (data, off) ← writeEarlyBody files off entry.body
  return (hdr ++ data, off)

/-- The entries from `off` on, and one trailer for all of them. -/
def writeEarlyEntries (files : Files) : Nat → List Entry → Except IoError (List UInt8)
  | _, [] => writeHeader trailerName 0 0 0 0
  | off, entry :: entries => do
    let (first, off) ← writeEarlyEntry files entry off
    let rest ← writeEarlyEntries files off entries
    return first ++ rest

def writeEarlyArchive (files : Files) (entries : List Entry) : Except IoError (List UInt8) :=
  writeEarlyEntries files 0 entries

/-! ## Walking -/

/-- What a header says, and what stands where it says so. -/
structure Visited where
  /-- Where the header starts. -/
  start : Nat
  mode : Nat
  filesize : Nat
  rdevmajor : Nat
  rdevminor : Nat
  /-- As many bytes as the header says, the NUL bytes included. -/
  name : List UInt8
  dataStart : Nat
  data : List UInt8
  deriving DecidableEq, Repr

/-- The recorded name up to its first NUL. -/
def Visited.path (v : Visited) : Path := v.name.takeWhile (· ≠ 0)

/-- The entry at `pos`, and the position behind it. -/
def visit (buf : List UInt8) (pos : Nat) : Option (Visited × Nat) := do
  let hdr ← range? buf pos 110
  if hdr.take 6 ≠ magic then none
  else
    let mode ← readField hdr 1
    let filesize ← readField hdr 6
    let rdevmajor ← readField hdr 9
    let rdevminor ← readField hdr 10
    let namesize ← readField hdr 11
    let name ← range? buf (pos + 110) namesize
    let dataStart := pos + 110 + namesize + pad4 (110 + namesize)
    let data ← range? buf dataStart filesize
    return (⟨pos, mode, filesize, rdevmajor, rdevminor, name, dataStart, data⟩, dataStart + filesize + pad4 filesize)

/-- The entries from `pos` to the end of the bytes. -/
def walkArchiveFrom (buf : List UInt8) : Nat → Nat → Option (List Visited)
  | 0, _ => none
  | fuel + 1, pos =>
    if pos = buf.length then some []
    else do
      let (v, next) ← visit buf pos
      let vs ← walkArchiveFrom buf fuel next
      return v :: vs

/-- The whole of the bytes; an entry takes one at least. -/
def walkArchive (buf : List UInt8) : Option (List Visited) := walkArchiveFrom buf (buf.length + 1) 0

/-- The entry is visited where it should be, with what it holds. -/
structure Visited.Shows (files : Files) (v : Visited) (e : Entry) : Prop where
  start : 4 ∣ v.start
  mode : v.mode = e.body.mode
  recorded : (v.filesize, v.rdevmajor, v.rdevminor) = e.body.recorded
  /-- The name, and NUL bytes behind it. -/
  name : ∃ n, v.name = e.name ++ zeros (n + 1)
  path : v.path = e.name.takeWhile (· ≠ 0)
  payload : e.body.isRegular → 16 ∣ v.dataStart
  data : v.data = e.body.content files

/-- The trailer is visited. -/
structure Visited.IsTrailer (v : Visited) : Prop where
  start : 4 ∣ v.start
  name : v.name = trailerName ++ [0]
  size : v.filesize = 0

/-! ## One entry -/

theorem offset_mod (n : Nat) : offset n % 16 = n % 16 := by
  unfold offset
  omega

theorem visit_recordedFrame {recorded data hdr : List UInt8} {mode rdevmajor rdevminor : Nat} (pre post : List UInt8)
    (h : header mode data.length rdevmajor rdevminor recorded.length = .ok hdr) :
    visit (pre ++ (recordedFrame hdr recorded data ++ post)) pre.length =
      some (⟨pre.length, mode, data.length, rdevmajor, rdevminor, recorded,
        pre.length + 110 + recorded.length + pad4 (110 + recorded.length), data⟩,
        (pre ++ recordedFrame hdr recorded data).length) := by
  obtain ⟨hlen, hmagic, hget⟩ := header_spec h
  rw [length_recordedFrame hlen]
  unfold visit
  rw [range?_header hlen]
  dsimp only [Option.bind_eq_bind, Option.bind_some]
  rw [if_neg (not_not.2 hmagic), hget 1 mode rfl, hget 6 data.length rfl, hget 9 rdevmajor rfl, hget 10 rdevminor rfl,
    hget 11 recorded.length rfl]
  dsimp only [Option.bind_some]
  rw [range?_recorded hlen]
  dsimp only [Option.bind_some]
  rw [range?_data hlen]
  rfl

/-- A header records the name with NUL bytes behind it; the offset behind the padding is right up to multiples of
sixteen, and itself one for the data of a regular file. -/
theorem writeAlignedHeader_eq_ok {name : Path} {mode filesize rdevmajor rdevminor off off' : Nat} {align16 : Bool}
    {out : List UInt8} (h : writeAlignedHeader name mode filesize rdevmajor rdevminor off align16 = .ok (out, off'))
    (hoff : off % 4 = 0) :
    ∃ k hdr recorded, recorded = name ++ zeros (k + 1) ∧
      header mode filesize rdevmajor rdevminor recorded.length = .ok hdr ∧
      out = hdr ++ recorded ++ writePad (110 + recorded.length) ∧ off' % 16 = (off + out.length) % 16 ∧
      (align16 → off' % 16 = 0) := by
  unfold writeAlignedHeader at h
  obtain ⟨hdr, hd, h⟩ := bind_eq_ok.1 h
  generalize hn : (if align16 = true then name.length + 1 + (EARLY_ALIGN -
    offset (off + 110 + (name.length + 1)) % EARLY_ALIGN) % EARLY_ALIGN else name.length + 1) = namesize at hd h
  have hbase := offset_mod (off + 110 + (name.length + 1))
  have hle : name.length + 1 ≤ namesize := by
    rw [← hn]
    split <;> omega
  have hz : namesize - name.length = namesize - name.length - 1 + 1 := by omega
  have hrec : (name ++ zeros (namesize - name.length - 1 + 1)).length = namesize := by
    rw [← hz, List.length_append, length_zeros]
    omega
  cases h
  refine ⟨namesize - name.length - 1, hdr, _, rfl, by rw [hrec]; exact hd, ?_, ?_, ?_⟩
  · rw [hrec, ← hz, List.append_assoc hdr]
  · rw [offset_mod, ← Nat.add_assoc]
    simp only [List.length_append, (header_spec hd).1, length_zeros, writePad]
    congr 1
    omega
  · intro ha
    rw [offset_mod]
    simp only [ha, if_true, EARLY_ALIGN] at hn
    have hfit : (off + (110 + namesize)) % 16 = 0 := by omega
    unfold pad4
    omega

theorem writeEarlyBody_eq_ok {files : Files} {off off' : Nat} {body : Body} {out : List UInt8}
    (h : writeEarlyBody files off body = .ok (out, off')) :
    writeBody files body = .ok out ∧ off' % 16 = (off + out.length) % 16 := by
  cases body with
  | file source size executable =>
    obtain ⟨content, hc, h⟩ := bind_eq_ok.1 h
    cases h
    refine ⟨by rw [writeBody, hc]; rfl, ?_⟩
    rw [offset_mod, List.length_append, writePad, length_zeros, (copyFile_eq_ok hc).2, Nat.add_assoc]
  | symlink target =>
    cases h
    exact ⟨rfl, by rw [offset_mod, List.length_append, writePad, length_zeros, Nat.add_assoc]⟩
  | inlined data executable =>
    cases h
    exact ⟨rfl, by rw [offset_mod, List.length_append, writePad, length_zeros, Nat.add_assoc]⟩
  | directory =>
    cases h
    exact ⟨rfl, rfl⟩
  | device block major minor =>
    cases h
    exact ⟨rfl, rfl⟩
  | fifo =>
    cases h
    exact ⟨rfl, rfl⟩

/-- An entry at an offset that is a multiple of four, and right up to multiples of sixteen. -/
theorem writeEarlyEntry_eq_ok {files : Files} {e : Entry} {off off' : Nat} {out : List UInt8}
    (h : writeEarlyEntry files e off = .ok (out, off')) (hoff : off % 4 = 0) :
    ∃ k hdr recorded, recorded = e.name ++ zeros (k + 1) ∧
      header e.body.mode (e.body.content files).length e.body.recorded.2.1 e.body.recorded.2.2 recorded.length =
        .ok hdr ∧ out = recordedFrame hdr recorded (e.body.content files) ∧
      e.body.recorded.1 = (e.body.content files).length ∧ off' % 16 = (off + out.length) % 16 ∧
      (e.body.isRegular → (off + 110 + recorded.length + pad4 (110 + recorded.length)) % 16 = 0) := by
  unfold writeEarlyEntry at h
  obtain ⟨⟨first, mid⟩, hh, h⟩ := bind_eq_ok.1 h
  obtain ⟨⟨data, last⟩, hb, h⟩ := bind_eq_ok.1 h
  cases h
  obtain ⟨hbody, hlast⟩ := writeEarlyBody_eq_ok hb
  obtain ⟨hsize, rfl⟩ := writeBody_eq_ok hbody
  obtain ⟨k, hdr, recorded, hrec, hd, rfl, hmid, halign⟩ := writeAlignedHeader_eq_ok hh hoff
  rw [hsize] at hd
  refine ⟨k, hdr, recorded, hrec, hd, rfl, hsize, ?_, fun hr => ?_⟩
  · rw [hlast]
    simp only [List.length_append] at hmid ⊢
    omega
  · have hzero := halign hr
    rw [hmid] at hzero
    simp only [List.length_append, (header_spec hd).1, writePad, length_zeros] at hzero
    omega

/-! ## The archive -/

/-- Behind the NUL-free part of a name, its NUL bytes change nothing. -/
theorem takeWhile_append_zeros (name : Path) (k : Nat) :
    (name ++ zeros (k + 1)).takeWhile (· ≠ 0) = name.takeWhile (· ≠ 0) := by
  induction name with
  | nil => simp [zeros, List.replicate_succ]
  | cons b name ih => simp only [List.cons_append, List.takeWhile_cons, ih]

theorem length_recordedFrame_mod {hdr : List UInt8} (hlen : hdr.length = 110) (recorded data pre : List UInt8)
    (hpre : pre.length % 4 = 0) : (pre ++ recordedFrame hdr recorded data).length % 4 = 0 := by
  rw [length_recordedFrame hlen]
  unfold pad4
  omega

/-- An entry is visited, and what follows it starts at a multiple of four; the offset that the writer keeps need only
be right up to multiples of sixteen. -/
theorem visit_entry {files : Files} {e : Entry} {off off' : Nat} {first : List UInt8} (pre rest : List UInt8)
    (h : writeEarlyEntry files e off = .ok (first, off')) (hpre : pre.length % 4 = 0)
    (hoff : off % 16 = pre.length % 16) :
    (∃ v, visit (pre ++ (first ++ rest)) pre.length = some (v, (pre ++ first).length) ∧ v.Shows files e) ∧
      0 < first.length ∧ (pre ++ first).length % 4 = 0 ∧ off' % 16 = (pre ++ first).length % 16 := by
  obtain ⟨k, hdr, recorded, hrec, hd, rfl, hsize, hmid, halign⟩ := writeEarlyEntry_eq_ok h (by omega)
  have hlen := length_recordedFrame (header_spec hd).1 recorded (e.body.content files) pre
  rw [List.length_append] at hlen
  refine ⟨⟨_, visit_recordedFrame pre rest hd, ?_⟩, by omega,
    length_recordedFrame_mod (header_spec hd).1 _ _ _ hpre, by rw [List.length_append]; omega⟩
  exact
    { start := Nat.dvd_of_mod_eq_zero hpre
      mode := rfl
      recorded := by rw [← hsize]
      name := ⟨k, hrec⟩
      path := by rw [Visited.path, hrec, takeWhile_append_zeros]
      payload := fun hreg => by
        have hzero := halign hreg
        dsimp only
        omega
      data := rfl }

/-- The trailer is visited, and the archive ends behind it. -/
theorem visit_trailer {out : List UInt8} (pre : List UInt8) (h : writeHeader trailerName 0 0 0 0 = .ok out)
    (hpre : pre.length % 4 = 0) :
    (∃ v, visit (pre ++ out) pre.length = some (v, (pre ++ out).length) ∧ v.IsTrailer) ∧ 0 < out.length := by
  obtain ⟨hdr, hd, rfl⟩ := trailer_eq_ok h
  have hn : (trailerName ++ [0]).length = trailerName.length + 1 := by simp
  rw [← hn] at hd
  have hv := visit_recordedFrame pre [] (show header 0 ([] : List UInt8).length 0 0 _ = _ from hd)
  rw [List.append_nil] at hv
  rw [frame_eq]
  refine ⟨⟨_, hv, Nat.dvd_of_mod_eq_zero hpre, rfl, rfl⟩, ?_⟩
  rw [← frame_eq]
  exact length_frame_pos _ _ _

/-- What a walk visits, behind whatever stands before the entries. -/
theorem walkArchiveFrom_writeEarlyEntries {files : Files} {entries : List Entry} {off : Nat} {out : List UInt8} {fuel : Nat}
    (pre : List UInt8) (h : writeEarlyEntries files off entries = .ok out) (hpre : pre.length % 4 = 0)
    (hoff : off % 16 = pre.length % 16) (hfuel : out.length ≤ fuel) :
    ∃ visited trailer, walkArchiveFrom (pre ++ out) (fuel + 1) pre.length = some (visited ++ [trailer]) ∧
      List.Forall₂ (Visited.Shows files) visited entries ∧ trailer.IsTrailer := by
  induction entries generalizing off out pre fuel with
  | nil =>
    obtain ⟨⟨v, hv, htrailer⟩, hpos⟩ := visit_trailer pre h hpre
    obtain ⟨fuel, rfl⟩ := Nat.exists_eq_add_of_lt (show 0 < fuel by omega)
    refine ⟨[], v, ?_, .nil, htrailer⟩
    unfold walkArchiveFrom
    rw [if_neg (by rw [List.length_append]; omega), hv]
    dsimp only [Option.bind_eq_bind, Option.bind_some]
    rw [walkArchiveFrom, if_pos rfl]
    rfl
  | cons e entries ih =>
    unfold writeEarlyEntries at h
    obtain ⟨⟨first, mid⟩, hf, h⟩ := bind_eq_ok.1 h
    obtain ⟨rest, hr, h⟩ := bind_eq_ok.1 h
    cases h
    obtain ⟨⟨v, hv, hshows⟩, hpos, hmod, hmid⟩ := visit_entry pre rest hf hpre hoff
    rw [List.length_append] at hfuel
    obtain ⟨fuel, rfl⟩ := Nat.exists_eq_add_of_lt (show 0 < fuel by omega)
    obtain ⟨visited, trailer, hwalk, hall, htrailer⟩ := ih _ hr hmod hmid (show rest.length ≤ fuel by omega)
    rw [List.append_assoc] at hwalk
    refine ⟨v :: visited, trailer, ?_, .cons hshows hall, htrailer⟩
    unfold walkArchiveFrom
    rw [if_neg (by simp only [List.length_append]; omega), hv, Nat.zero_add]
    dsimp only [Option.bind_eq_bind, Option.bind_some]
    rw [hwalk]
    rfl

/-- A walk by the header fields visits the entries in order, each where it should be and with what it holds, then one
trailer, and ends at the end of the archive. -/
theorem early_archive_walk {files : Files} {entries : List Entry} {out : List UInt8}
    (h : writeEarlyArchive files entries = .ok out) :
    ∃ visited trailer, walkArchive out = some (visited ++ [trailer]) ∧
      List.Forall₂ (Visited.Shows files) visited entries ∧ trailer.IsTrailer :=
  walkArchiveFrom_writeEarlyEntries [] h rfl rfl (Nat.le_refl _)

/-- A directory, and a file in it whose name is widened. -/
def smallEarly : List Entry :=
  [⟨asciiBytes "kernel".toList, .directory⟩, ⟨asciiBytes "kernel/a".toList, .inlined [17] false⟩]

theorem early_archive_walk_small : ∃ out visited trailer, writeEarlyArchive oneByteFiles smallEarly = .ok out ∧
    walkArchive out = some (visited ++ [trailer]) ∧ List.Forall₂ (Visited.Shows oneByteFiles) visited smallEarly ∧
    trailer.IsTrailer := by
  have h : writeEarlyArchive oneByteFiles smallEarly =
      .ok ((writeEarlyArchive oneByteFiles smallEarly).toOption.getD []) := by
    decide +kernel
  obtain ⟨visited, trailer, hwalk⟩ := early_archive_walk h
  exact ⟨_, visited, trailer, h, hwalk⟩

/-- The name of an entry with a NUL inside is recorded up to the NUL. -/
theorem nulName_cut : ∃ out v trailer, writeEarlyArchive oneByteFiles [⟨[97, 0, 98], .directory⟩] = .ok out ∧
    walkArchive out = some [v, trailer] ∧ v.path = [97] ∧ v.path ≠ [97, 0, 98] := by
  let out := (writeEarlyArchive oneByteFiles [⟨[97, 0, 98], .directory⟩]).toOption.getD []
  let visited := (walkArchive out).getD []
  have h : writeEarlyArchive oneByteFiles [⟨[97, 0, 98], .directory⟩] = .ok out ∧ walkArchive out = some visited ∧
      visited.length = 2 ∧ visited.head?.map Visited.path = some [97] := by
    decide +kernel
  obtain ⟨hw, hwalk, hlen, hpath⟩ := h
  obtain ⟨v, trailer, hv⟩ := List.length_eq_two.1 hlen
  rw [hv] at hwalk hpath
  have hp : v.path = [97] := Option.some.inj hpath
  exact ⟨out, v, trailer, hw, hwalk, hp, by rw [hp]; decide⟩

end Peiosutils.Mkirf
