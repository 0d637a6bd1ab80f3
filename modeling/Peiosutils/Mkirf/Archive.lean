import Mathlib.Data.List.TakeWhile
import Peiosutils.Lib.Fallible
import Peiosutils.Mkirf.Cpio

/-!
# Reading back an archive

An entry is written as a header, its name and its data, each padded to four bytes; `parseEntry` takes exactly that
(`parseEntry_frame`). So the reader finds the entries that were written, up to the first whose name is `TRAILER!!!`:
`archive_reads_back_iff` says that it finds all of them exactly when no entry has that name, and `namedTrailer_lost` is
an archive whose second entry is never read.
-/

set_option autoImplicit false

namespace Peiosutils.Mkirf

open ByteStore Fallible Hex

/-! ## What is to be read -/

/-- The bytes an entry holds; none for a file that cannot be read. -/
def Body.content (files : Files) : Body → List UInt8
  | .symlink target => target
  | .file source _ _ =>
    match files source with
    | .ok (.ok content) => content
    | _ => []
  | .inlined data _ => data
  | .directory => []
  | .device _ _ _ => []
  | .fifo => []

/-- The entry as a reader should find it. -/
def Entry.parsed (files : Files) (e : Entry) : Parsed where
  name := e.name
  ino := 0
  mode := e.body.mode
  uid := 0
  gid := 0
  nlink := 1
  mtime := 0
  rdevmajor := e.body.recorded.2.1
  rdevminor := e.body.recorded.2.2
  data := e.body.content files

/-! ## The header -/

theorem field_eq_ok {value : Nat} {bs : List UInt8} (h : field value = .ok bs) :
    value < 16 ^ 8 ∧ bs = asciiBytes (hexDigits 8 value) := by
  unfold field at h
  split at h
  · cases h
  · cases h
    exact ⟨by omega, rfl⟩

/-- Field `i` stands at `8 * i`, and reads as its value. -/
theorem fields_spec {vs : List Nat} {bs : List UInt8} (h : fields vs = .ok bs) :
    bs.length = 8 * vs.length ∧ ∀ i v, vs[i]? = some v → fromHex (slice bs (8 * i) 8) = some v := by
  induction vs generalizing bs with
  | nil =>
    cases h
    exact ⟨rfl, fun i v hi => by simp at hi⟩
  | cons w vs ih =>
    unfold fields at h
    obtain ⟨digits, hf, h⟩ := bind_eq_ok.1 h
    obtain ⟨rest, hr, h⟩ := bind_eq_ok.1 h
    cases h
    obtain ⟨hw, rfl⟩ := field_eq_ok hf
    obtain ⟨hlen, hget⟩ := ih hr
    refine ⟨by simp [hlen, Nat.mul_add, Nat.add_comm], ?_⟩
    intro i v hi
    cases i with
    | zero =>
      cases hi
      rw [Nat.mul_zero, slice_append_left (by simp), slice_zero, List.take_of_length_le (by simp)]
      exact fromHex_hexDigits (by omega) hw
    | succ i =>
      rw [slice_append_right (by simp), length_asciiBytes, length_hexDigits]
      exact hget i v hi

/-- A written header is `110` bytes that read back as the fields. -/
theorem header_spec {mode filesize rdevmajor rdevminor namesize : Nat} {hdr : List UInt8}
    (h : header mode filesize rdevmajor rdevminor namesize = .ok hdr) :
    hdr.length = 110 ∧ hdr.take 6 = magic ∧
      ∀ i v, (headerFields mode filesize rdevmajor rdevminor namesize)[i]? = some v → readField hdr i = some v := by
  unfold header at h
  obtain ⟨digits, hf, h⟩ := bind_eq_ok.1 h
  cases h
  obtain ⟨hlen, hget⟩ := fields_spec hf
  have hmagic : magic.length = 6 := rfl
  refine ⟨by simp [hlen, hmagic, headerFields], List.take_left' hmagic, ?_⟩
  intro i v hi
  have hoff : 6 + i * 8 - 6 = 8 * i := by omega
  rw [readField, slice_append_right (by rw [hmagic]; omega), hmagic, hoff]
  exact hget i v hi

/-! ## One entry -/

theorem range?_mid {pre mid post : List UInt8} {off n : Nat} (hoff : off = pre.length) (hn : n = mid.length) :
    range? (pre ++ (mid ++ post)) off n = some mid := by
  have hle : off + n ≤ (pre ++ (mid ++ post)).length := by
    simp only [List.length_append]
    omega
  rw [range?, if_pos hle, hoff, slice_append_right (Nat.le_refl _), Nat.sub_self, slice_zero, hn, List.take_left]

/-- Fewer bytes of a range. -/
theorem range?_prefix {buf a b : List UInt8} {off : Nat} (h : range? buf off (a ++ b).length = some (a ++ b)) :
    range? buf off a.length = some a := by
  have hn : a.length ≤ (a ++ b).length := by simp
  unfold range? at h ⊢
  split at h
  · rename_i hle
    have hs : slice buf off (a ++ b).length = a ++ b := Option.some.inj h
    rw [if_pos (by omega), ← take_slice buf off hn, hs, List.take_left]
  · cases h

/-- The bytes of an entry: header, recorded name, padding, data, padding. -/
def recordedFrame (hdr recorded data : List UInt8) : List UInt8 :=
  hdr ++ recorded ++ writePad (110 + recorded.length) ++ (data ++ writePad data.length)

section RecordedFrame

variable {hdr : List UInt8} (hlen : hdr.length = 110) (recorded data pre post : List UInt8)
include hlen

theorem length_recordedFrame : (pre ++ recordedFrame hdr recorded data).length =
    pre.length + 110 + recorded.length + pad4 (110 + recorded.length) + data.length + pad4 data.length := by
  simp only [recordedFrame, List.length_append, hlen, writePad, length_zeros]
  omega

theorem range?_header : range? (pre ++ (recordedFrame hdr recorded data ++ post)) pre.length 110 = some hdr := by
  have hsplit : recordedFrame hdr recorded data ++ post =
      hdr ++ (recorded ++ writePad (110 + recorded.length) ++ (data ++ writePad data.length) ++ post) := by
    simp [recordedFrame]
  rw [hsplit]
  exact range?_mid rfl hlen.symm

theorem range?_recorded : range? (pre ++ (recordedFrame hdr recorded data ++ post)) (pre.length + 110) recorded.length =
    some recorded := by
  have hsplit : pre ++ (recordedFrame hdr recorded data ++ post) =
      (pre ++ hdr) ++ (recorded ++ (writePad (110 + recorded.length) ++ (data ++ writePad data.length) ++ post)) := by
    simp [recordedFrame]
  rw [hsplit]
  exact range?_mid (by simp [hlen]) rfl

theorem range?_data : range? (pre ++ (recordedFrame hdr recorded data ++ post))
    (pre.length + 110 + recorded.length + pad4 (110 + recorded.length)) data.length = some data := by
  have hsplit : pre ++ (recordedFrame hdr recorded data ++ post) =
      (pre ++ hdr ++ recorded ++ writePad (110 + recorded.length)) ++ (data ++ (writePad data.length ++ post)) := by
    simp [recordedFrame]
  rw [hsplit]
  exact range?_mid (by simp [hlen, writePad]; omega) rfl

end RecordedFrame

/-- An entry whose name is recorded with one NUL. -/
def frame (hdr : List UInt8) (name : Path) (data : List UInt8) : List UInt8 :=
  hdr ++ name ++ [0] ++ writePad (110 + (name.length + 1)) ++ (data ++ writePad data.length)

theorem frame_eq (hdr : List UInt8) (name : Path) (data : List UInt8) :
    frame hdr name data = recordedFrame hdr (name ++ [0]) data := by
  simp [frame, recordedFrame]

theorem parseEntry_frame {name : Path} {mode rdevmajor rdevminor : Nat} {hdr : List UInt8} (data pre post : List UInt8)
    (h : header mode data.length rdevmajor rdevminor (name.length + 1) = .ok hdr) :
    parseEntry (pre ++ (frame hdr name data ++ post)) pre.length =
      some (⟨name, 0, mode, 0, 0, 1, 0, rdevmajor, rdevminor, data⟩, (pre ++ frame hdr name data).length) := by
  obtain ⟨hlen, hmagic, hget⟩ := header_spec h
  have hn : (name ++ [0]).length = name.length + 1 := by simp
  have hname := range?_prefix (range?_recorded hlen (name ++ [0]) data pre post)
  have hdata := range?_data hlen (name ++ [0]) data pre post
  rw [hn] at hdata
  rw [frame_eq, length_recordedFrame hlen, hn]
  unfold parseEntry
  rw [range?_header hlen]
  dsimp only [Option.bind_eq_bind, Option.bind_some]
  rw [if_neg (not_not.2 hmagic), hget 0 0 rfl, hget 1 mode rfl, hget 2 0 rfl, hget 3 0 rfl, hget 4 1 rfl, hget 5 0 rfl,
    hget 6 data.length rfl, hget 9 rdevmajor rfl, hget 10 rdevminor rfl, hget 11 (name.length + 1) rfl]
  dsimp only [Option.bind_some]
  rw [if_neg (Nat.succ_ne_zero _), Nat.add_sub_cancel, hname]
  dsimp only [Option.bind_some]
  rw [hdata]
  rfl

theorem copyFile_eq_ok {files : Files} {source : Path} {size : Nat} {content : List UInt8}
    (h : copyFile files source size = .ok content) : files source = .ok (.ok content) ∧ content.length = size := by
  unfold copyFile at h
  split at h
  · cases h
  · cases h
  · rename_i c hc
    obtain ⟨hlen, h⟩ := guard_eq_ok.1 h
    cases h
    exact ⟨hc, not_not.1 hlen⟩

/-- No padding follows no data. -/
theorem no_padding : ([] : List UInt8) = [] ++ writePad 0 := rfl

/-- Data that is written is the content, of the recorded size. -/
theorem writeBody_eq_ok {files : Files} {body : Body} {out : List UInt8} (h : writeBody files body = .ok out) :
    body.recorded.1 = (body.content files).length ∧
      out = body.content files ++ writePad (body.content files).length := by
  cases body with
  | file source size executable =>
    obtain ⟨content, hc, h⟩ := bind_eq_ok.1 h
    cases h
    obtain ⟨hfile, hlen⟩ := copyFile_eq_ok hc
    simp [Body.content, Body.recorded, hfile, hlen]
  | symlink target =>
    cases h
    exact ⟨rfl, rfl⟩
  | inlined data executable =>
    cases h
    exact ⟨rfl, rfl⟩
  | directory =>
    cases h
    exact ⟨rfl, no_padding⟩
  | device block major minor =>
    cases h
    exact ⟨rfl, no_padding⟩
  | fifo =>
    cases h
    exact ⟨rfl, no_padding⟩

theorem writeEntry_eq_ok {files : Files} {e : Entry} {out : List UInt8} (h : writeEntry files e = .ok out) :
    ∃ hdr, header e.body.mode (e.body.content files).length e.body.recorded.2.1 e.body.recorded.2.2
      (e.name.length + 1) = .ok hdr ∧ out = frame hdr e.name (e.body.content files) := by
  unfold writeEntry at h
  obtain ⟨hn, hh, h⟩ := bind_eq_ok.1 h
  obtain ⟨data, hb, h⟩ := bind_eq_ok.1 h
  cases h
  obtain ⟨hsize, rfl⟩ := writeBody_eq_ok hb
  unfold writeHeader at hh
  obtain ⟨hdr, hd, hh⟩ := bind_eq_ok.1 hh
  cases hh
  rw [hsize] at hd
  exact ⟨hdr, hd, rfl⟩

/-! ## The archive -/

/-- The trailer is an entry without data. -/
theorem trailer_eq_ok {out : List UInt8} (h : writeHeader trailerName 0 0 0 0 = .ok out) :
    ∃ hdr, header 0 0 0 0 (trailerName.length + 1) = .ok hdr ∧ out = frame hdr trailerName [] := by
  unfold writeHeader at h
  obtain ⟨hdr, hd, h⟩ := bind_eq_ok.1 h
  cases h
  exact ⟨hdr, hd, by simp [frame, writePad, pad4, zeros]⟩

theorem length_frame_pos (hdr : List UInt8) (name : Path) (data : List UInt8) : 0 < (frame hdr name data).length := by
  simp [frame]

/-- What the reader finds of an archive, behind whatever stands before it: the entries before the first one named like
the trailer. -/
theorem parseFrom_writeArchive {files : Files} {entries : List Entry} {out : List UInt8} (pre : List UInt8) (fuel : Nat)
    (h : writeArchive files entries = .ok out) (hfuel : out.length ≤ fuel) :
    ∃ stop, parseFrom (pre ++ out) (fuel + 1) pre.length =
        some ((entries.takeWhile fun e => e.name ≠ trailerName).map (Entry.parsed files), stop) ∧
      ((∀ e ∈ entries, e.name ≠ trailerName) → stop = (pre ++ out).length) := by
  induction entries generalizing out pre fuel with
  | nil =>
    obtain ⟨hdr, hd, rfl⟩ := trailer_eq_ok h
    have hp := parseEntry_frame [] pre [] hd
    rw [List.append_nil] at hp
    refine ⟨(pre ++ frame hdr trailerName []).length, ?_, fun _ => rfl⟩
    unfold parseFrom
    rw [hp]
    rfl
  | cons e entries ih =>
    unfold writeArchive at h
    obtain ⟨first, hf, h⟩ := bind_eq_ok.1 h
    obtain ⟨rest, hr, h⟩ := bind_eq_ok.1 h
    cases h
    obtain ⟨hdr, hd, rfl⟩ := writeEntry_eq_ok hf
    have hpos := length_frame_pos hdr e.name (e.body.content files)
    rw [List.length_append] at hfuel
    obtain ⟨fuel, rfl⟩ := Nat.exists_eq_add_of_lt (show 0 < fuel by omega)
    have hp := parseEntry_frame (e.body.content files) pre rest hd
    unfold parseFrom
    rw [hp]
    dsimp only [Option.bind_eq_bind, Option.bind_some]
    by_cases hname : e.name = trailerName
    · refine ⟨(pre ++ frame hdr e.name (e.body.content files)).length, ?_, fun hall => ?_⟩
      · simp [hname]
      · exact absurd hname (hall e List.mem_cons_self)
    · obtain ⟨stop, hrest, hstop⟩ := ih (pre ++ frame hdr e.name (e.body.content files)) fuel hr (by omega)
      rw [List.append_assoc] at hrest hstop
      refine ⟨stop, ?_, fun hall => hstop fun x hx => hall x (List.mem_cons_of_mem e hx)⟩
      rw [if_neg hname, Nat.zero_add, hrest]
      simp [hname, Entry.parsed]

/-- The reader finds every entry and ends behind the archive exactly when no entry is named like the trailer. -/
theorem archive_reads_back_iff {files : Files} {entries : List Entry} {out : List UInt8}
    (h : writeArchive files entries = .ok out) :
    parse out = some (entries.map (Entry.parsed files), out.length) ↔ ∀ e ∈ entries, e.name ≠ trailerName := by
  obtain ⟨stop, hparse, hstop⟩ := parseFrom_writeArchive [] out.length h (Nat.le_refl _)
  rw [parse, show parseFrom out (out.length + 1) 0 = _ from hparse]
  constructor
  · intro he
    have hlen := congrArg List.length (congrArg Prod.fst (Option.some.inj he))
    rw [List.length_map, List.length_map] at hlen
    have htake := (List.takeWhile_prefix _).eq_of_length hlen
    intro e hm
    simpa using List.takeWhile_eq_self_iff.1 htake e hm
  · intro hall
    have htake : entries.takeWhile (fun e => decide (e.name ≠ trailerName)) = entries :=
      List.takeWhile_eq_self_iff.2 fun e he => by simpa using hall e he
    rw [htake, hstop hall]
    rfl

/-- A disk on which every file holds one byte. -/
def oneByteFiles : Files := fun _ => .ok (.ok [7])

/-- A directory with a link and a file in it. -/
def smallTree : List Entry :=
  [⟨asciiBytes "a".toList, .directory⟩, ⟨asciiBytes "a/b".toList, .symlink (asciiBytes "../c".toList)⟩,
    ⟨asciiBytes "a/c".toList, .file (asciiBytes "/src/a/c".toList) 1 true⟩]

theorem archive_reads_back_small :
    ∃ out, writeArchive oneByteFiles smallTree = .ok out ∧
      parse out = some (smallTree.map (Entry.parsed oneByteFiles), out.length) := by
  have h : writeArchive oneByteFiles smallTree = .ok ((writeArchive oneByteFiles smallTree).toOption.getD []) := by
    decide +kernel
  exact ⟨_, h, (archive_reads_back_iff h).2 (by decide +kernel)⟩

/-- A file named like the trailer, and one behind it. -/
def namedTrailer : List Entry :=
  [⟨trailerName, .file (asciiBytes "/src/TRAILER!!!".toList) 1 false⟩,
    ⟨asciiBytes "init".toList, .file (asciiBytes "/src/init".toList) 1 true⟩]

/-- The reader stops behind the file named like the trailer, and finds none of the two. -/
theorem namedTrailer_lost :
    ∃ out, writeArchive oneByteFiles namedTrailer = .ok out ∧ out.length = 372 ∧ parse out = some ([], 128) ∧
      parse out ≠ some (namedTrailer.map (Entry.parsed oneByteFiles), out.length) := by
  refine ⟨(writeArchive oneByteFiles namedTrailer).toOption.getD [], ?_⟩
  decide +kernel

end Peiosutils.Mkirf
