import Libretro.Library.Numeral
import Mathlib.Data.List.DropRight

/-! Files looked up in the directories of a CD image. -/

namespace Libretro.Cdfs

open List Numeral Option

structure CdfsTrack where
  stream : List UInt8
  streamSectorSize : UInt32
  streamSectorHeaderSize : UInt32
  firstSectorOffset : UInt32

def cdfsReadTrackSector (track : CdfsTrack) (sector : Nat) : Option (List UInt8) :=
  let offset := sector * track.streamSectorSize.toNat + track.streamSectorHeaderSize.toNat +
    track.firstSectorOffset.toNat
  let read := (track.stream.drop offset).take 2048
  if offset ≤ 2 ^ 63 - 1 ∧ read.length = 2048 then some read else none

/-- A little-endian number of so many bytes, or nothing where it is not all inside the buffer. -/
def littleEndian (buffer : List UInt8) (place : Nat) : Nat → Option Nat
  | 0 => some 0
  | n + 1 => buffer[place]?.bind fun low => (littleEndian buffer (place + 1) n).map (low.toNat + 256 * ·)

def backslash : UInt8 := 0x5C

/-- Whether the record at `tmp` has the name, up to letter case and a version. -/
def named (buffer path : List UInt8) (tmp : Nat) : Option Bool :=
  buffer[tmp + 33 + path.length]?.map fun behind => (behind = 0x3B ∨ behind = 0) ∧
    ((buffer.drop (tmp + 33)).take path.length).map lower = path.map lower

/-- The loop over the records: the sector and the size that are found, if any; nothing where it
reads behind the buffer or is not at its end after as many turns. -/
def processRecords (buffer path : List UInt8) : Nat → Nat → Option (Option (Nat × Nat))
  | 0, _ => none
  | turns + 1, tmp =>
    if tmp < 2048 ∧ tmp + 33 + path.length < 2048 then
      buffer[tmp]?.bind fun length =>
        if length = 0 ∨ length.toNat < 33 + path.length + 1 then some none
        else
          (named buffer path tmp).bind fun found =>
            if found then
              (littleEndian buffer (tmp + 10) 4).bind fun size =>
                (littleEndian buffer (tmp + 2) 3).map fun sector => some (sector, size)
            else processRecords buffer path turns (tmp + length.toNat)
    else some none

/-- The contents of the directory in a sector are processed. -/
def processDirectory (track : CdfsTrack) (size sector : Nat) (path : List UInt8) : Option (Int × Nat) :=
  match cdfsReadTrackSector track sector with
  | none => some (-1, size)
  | some buffer => (processRecords buffer path 2048 0).map fun found =>
    match found with
    | some (sector, size) => (sector, size)
    | none => (-1, size)

/-- A path up to its last backslash. -/
def directoryOf (path : List UInt8) : List UInt8 := (path.rdropWhile (· ≠ backslash)).dropLast

theorem directoryOf_append {path : List UInt8} (slash : backslash ∈ path) :
    ∃ tail, path = directoryOf path ++ backslash :: tail := by
  have some_ : path.rdropWhile (· ≠ backslash) ≠ [] := fun none => by
    simpa using rdropWhile_eq_nil_iff.1 none backslash slash
  have last := rdropWhile_last_not (· ≠ backslash) path some_
  obtain ⟨tail, whole⟩ := rdropWhile_prefix (· ≠ backslash) path
  have parts := dropLast_append_getLast some_
  rw [decide_eq_true_eq, not_not] at last
  rw [last] at parts
  exact ⟨tail, by rw [directoryOf, ← singleton_append, ← List.append_assoc, parts, whole]⟩

/-- The sector of a file, or a negative number, and the size afterwards; nothing where it reads
behind its buffer. Memory for the buffer is always granted. -/
def cdfsFindFile (track : CdfsTrack) (size : Nat) (path : List UInt8) : Option (Int × Nat) :=
  if _slash : backslash ∈ path then
    let directory := directoryOf path
    if 2048 ≤ directory.length then some (-1, size)
    else (cdfsFindFile track size directory).bind fun (sector, size) =>
      if sector < 0 then some (sector, size)
      else processDirectory track size sector.toNat (path.drop (directory.length + 1))
  else
    match cdfsReadTrackSector track 16 with
    | none => some (-1, size)
    | some buffer => (littleEndian buffer (156 + 2) 3).bind fun sector =>
      processDirectory track size sector path
termination_by path.length
decreasing_by
  obtain ⟨tail, whole⟩ := directoryOf_append _slash
  have length := congrArg List.length whole
  rw [length_append, length_cons] at length
  omega

def nameOf (record : List UInt8) : List UInt8 := (record.drop 33).take (record.getD 32 0).toNat

/-- A record is as long as its first byte and its name say. -/
abbrev Laid (record : List UInt8) : Prop :=
  let n := (record.getD 32 0).toNat
  0 < n ∧ record.length = 33 + n + (n + 1) % 2 ∧ (record.getD 0 0).toNat = record.length

/-- The records of a directory that fits a sector: itself and the one above it come first. -/
structure Directory (sector : List UInt8) (records : List (List UInt8)) : Prop where
  laid : ∀ record ∈ records, Laid record
  dots : ∃ others, records.map nameOf = [0] :: [1] :: others
  ordered : (records.map nameOf).Pairwise (· ≤ ·)
  bytes : sector = records.flatten ++ .replicate (2048 - records.flatten.length) 0

abbrev isDirectory (record : List UInt8) : Prop := (record.getD 25 0) &&& 2 ≠ 0

/-- The records of each directory of an image, by its sector, for which three bytes are enough on
a CD. -/
structure Image (track : CdfsTrack) where
  root : Nat
  directories : Nat → Option (List (List UInt8))
  volume : ∃ sector, cdfsReadTrackSector track 16 = some sector ∧ littleEndian sector 158 3 = some root
  rooted : (directories root).isSome
  laid : ∀ place, ∀ records ∈ directories place, ∃ sector, cdfsReadTrackSector track place = some sector ∧
    Directory sector records
  closed : ∀ place, ∀ records ∈ directories place, ∀ record ∈ records, isDirectory record →
    ((littleEndian record 2 3).bind directories).isSome

/-- Directory names and a file name. -/
structure Path where
  names : List (List UInt8)
  some_ : names ≠ []
  proper : ∀ name ∈ names, name ≠ [] ∧ backslash ∉ name ∧ 0 ∉ name

/-- A record has a name: the letter case aside, and before a version. -/
abbrev Named (name record : List UInt8) : Prop :=
  ((nameOf record).take name.length).map lower = name.map lower ∧
    ((nameOf record).drop name.length).head? ∈ [none, some 0x3B]

/-- The record of what the names lead to. -/
def recordOf (directories : Nat → Option (List (List UInt8))) : Nat → List (List UInt8) → Option (List UInt8)
  | _, [] => none
  | place, [name] => (directories place).bind (·.find? fun record => Named name record)
  | place, name :: names => do
    let record ← (← directories place).find? fun record => Named name record ∧ isDirectory record
    recordOf directories (← littleEndian record 2 3) names

/-- The lookup gives the extent and the size of the file, or -1 if there is none; no lookup reads
behind its buffer. -/
def Right {track : CdfsTrack} (image : Image track) (path : Path) : Prop :=
  (∀ size bytes, (cdfsFindFile track size bytes).isSome) ∧ ∀ size, ∃ result after,
      cdfsFindFile track size ([backslash].intercalate path.names) = some (result, after) ∧
        match recordOf image.directories image.root path.names with
        | some record => (littleEndian record 2 3).map Int.ofNat = some result ∧
            littleEndian record 10 4 = some after
        | none => result = -1

variable {track : CdfsTrack} {buffer path : List UInt8} {size : Nat}

theorem littleEndian_isSome {place n : Nat} (inside : place + n ≤ buffer.length) :
    (littleEndian buffer place n).isSome := by
  induction n generalizing place with
  | zero => rfl
  | succ n ih =>
    rw [littleEndian, getElem?_eq_getElem (by omega), bind_some, isSome_map]
    exact ih (by omega)

/-- Every record is longer than a turn, so the loop ends, and what it reads is inside the sector. -/
theorem processRecords_isSome {turns tmp : Nat} (whole : buffer.length = 2048)
    (enough : 2048 ≤ tmp + turns + 1) : (processRecords buffer path (turns + 1) tmp).isSome := by
  induction turns generalizing tmp with
  | zero =>
    rw [processRecords, if_neg (by omega)]
    rfl
  | succ turns ih =>
    rw [processRecords]
    split
    · rename_i inside
      rw [getElem?_eq_getElem (by omega), bind_some]
      split
      · rfl
      · rename_i long
        rw [named, getElem?_eq_getElem (by omega), map_some, bind_some]
        split
        · have size : (littleEndian buffer (tmp + 10) 4).isSome := littleEndian_isSome (by omega)
          rw [← some_get size, bind_some, isSome_map]
          exact littleEndian_isSome (by omega)
        · exact ih (by omega)
    · rfl

theorem length_read {sector : Nat} (read : cdfsReadTrackSector track sector = some buffer) :
    buffer.length = 2048 := by
  unfold cdfsReadTrackSector at read
  dsimp only at read
  split at read
  · rename_i whole
    exact some.inj read ▸ whole.2
  · cases read

theorem processDirectory_isSome (sector : Nat) : (processDirectory track size sector path).isSome := by
  rw [processDirectory]
  split
  · rfl
  · rename_i read
    rw [isSome_map]
    exact processRecords_isSome (length_read read) (by decide)

theorem cdfsFindFile_isSome (size : Nat) (path : List UInt8) : (cdfsFindFile track size path).isSome := by
  -- By induction on the path, which is shorter for a directory.
  fun_induction cdfsFindFile track size path with
  | case1 => rfl
  | case2 _ _ _ _ ih =>
    rw [← some_get ih, bind_some]
    dsimp only
    split
    · rfl
    · exact processDirectory_isSome _
  | case3 => rfl
  | case4 _ _ buffer read =>
    have sector : (littleEndian buffer (156 + 2) 3).isSome :=
      littleEndian_isSome (by rw [length_read read]; decide)
    rw [← some_get sector, bind_some]
    exact processDirectory_isSome _

/-- The first record of a directory is as short as a record can be. -/
theorem Directory.front {records : List (List UInt8)} (directory : Directory buffer records) :
    buffer[0]? = some 34 := by
  obtain ⟨others, dots⟩ := directory.dots
  obtain ⟨first, rest, rfl, name, -⟩ := map_eq_cons_iff.1 dots
  obtain ⟨some_, length, own⟩ := directory.laid first mem_cons_self
  have one := congrArg List.length name
  rw [nameOf, length_take, length_drop, length_singleton] at one
  have least : first.length = 34 := by omega
  rw [directory.bytes, flatten_cons, List.append_assoc, getElem?_append_left (by omega)]
  rw [getD_eq_getElem?_getD, getElem?_eq_getElem (by omega), getD_some] at own
  rw [getElem?_eq_getElem (by omega)]
  exact congrArg some (UInt8.toNat_inj.1 (own.trans least))

/-- A directory is left at its first record, which is too short for any name but an empty one. -/
theorem processDirectory_missing (image : Image track) (some_ : path ≠ []) :
    processDirectory track size image.root path = some (-1, size) := by
  obtain ⟨records, rooted⟩ := isSome_iff_exists.1 image.rooted
  obtain ⟨buffer, read, directory⟩ := image.laid image.root records rooted
  rw [processDirectory, read]
  dsimp only
  rw [processRecords]
  by_cases inside : 0 < 2048 ∧ 0 + 33 + path.length < 2048
  · have short : (34 : UInt8) = 0 ∨ (34 : UInt8).toNat < 33 + path.length + 1 :=
      .inr (Nat.succ_lt_succ (Nat.lt_add_of_pos_right (length_pos_iff.2 some_)))
    rw [if_pos inside, directory.front, bind_some, if_pos short]
    rfl
  · rw [if_neg inside]
    rfl

/-- No file is found in an image. -/
theorem cdfsFindFile_missing (image : Image track) (some_ : path.head? ≠ none)
    (front : path.head? ≠ some backslash) : cdfsFindFile track size path = some (-1, size) := by
  -- By induction on the path; the lookup of the outermost directory fails.
  induction length : path.length using Nat.strongRecOn generalizing path with
  | ind n ih =>
    subst length
    rw [cdfsFindFile]
    split
    · rename_i slash
      obtain ⟨tail, whole⟩ := directoryOf_append slash
      dsimp only
      split
      · rfl
      · generalize directoryOf path = directory at whole
        subst whole
        cases directory with
        | nil => exact absurd rfl front
        | cons byte rest =>
          rw [@ih _ (by rw [length_append, length_cons, length_cons]; omega) (byte :: rest) some_ front rfl]
          rfl
    · obtain ⟨sector, read, root⟩ := image.volume
      rw [read]
      dsimp only
      rw [root, bind_some]
      exact processDirectory_missing image (mt head?_eq_none_iff.2 some_)

theorem head_names (path : Path) : ∃ byte, byte ≠ backslash ∧
    ([backslash].intercalate path.names).head? = some byte := by
  obtain ⟨names, some_, proper⟩ := path
  cases names with
  | nil => exact absurd rfl some_
  | cons name names =>
    obtain ⟨given, whole, -⟩ := proper name mem_cons_self
    cases name with
    | nil => exact absurd rfl given
    | cons byte name =>
      refine ⟨byte, fun same => whole (same ▸ mem_cons_self), ?_⟩
      cases names <;> rfl

/-- The lookup is right just where there is no such file. -/
theorem right_iff (image : Image track) (path : Path) :
    Right image path ↔ recordOf image.directories image.root path.names = none := by
  obtain ⟨byte, other, head⟩ := head_names path
  have missing (size : Nat) : cdfsFindFile track size ([backslash].intercalate path.names) = some (-1, size) :=
    cdfsFindFile_missing image (by simp [head]) (by simpa [head] using other)
  constructor
  · rintro ⟨-, looks⟩
    obtain ⟨result, after, ran, found_⟩ := looks 0
    rw [missing] at ran
    cases ran
    cases found : recordOf image.directories image.root path.names with
    | none => rfl
    | some record =>
      rw [found] at found_
      obtain ⟨extent, -, negative⟩ := map_eq_some_iff.1 found_.1
      cases negative
  · intro none
    exact ⟨cdfsFindFile_isSome, fun size => ⟨_, _, missing size, by rw [none]⟩⟩

/-- A directory with a file of the name A. -/
def listing : List (List UInt8) :=
  [[34, 0, 17] ++ .replicate 22 0 ++ [2] ++ .replicate 6 0 ++ [1, 0],
    [34, 0, 17] ++ .replicate 22 0 ++ [2] ++ .replicate 6 0 ++ [1, 1],
    [36, 0, 18] ++ .replicate 29 0 ++ [3, 0x41, 0x3B, 0x31]]

def volume : List UInt8 := .replicate 158 0 ++ [17, 0, 0] ++ .replicate 1887 0

def listed : CdfsTrack where
  stream := .replicate 32768 0 ++ volume ++ (listing.flatten ++ .replicate 1944 0)
  streamSectorSize := 2048
  streamSectorHeaderSize := 0
  firstSectorOffset := 0

theorem read_listed {sector : Nat} {front rest : List UInt8} (small : sector ≤ 17)
    (parts : listed.stream = front ++ rest) (before : front.length = sector * 2048) (whole : 2048 ≤ rest.length) :
    cdfsReadTrackSector listed sector = some (rest.take 2048) := by
  have offset : sector * (2048 : UInt32).toNat + (0 : UInt32).toNat + (0 : UInt32).toNat =
    sector * 2048 := by simp
  rw [cdfsReadTrackSector, parts]
  simp only [listed, offset, drop_left' before]
  exact if_pos ⟨by omega, length_take_of_le whole⟩

def listedImage : Image listed where
  root := 17
  directories place := if place = 17 then some listing else none
  volume := ⟨_, read_listed (by decide) (List.append_assoc ..) length_replicate (by decide +kernel), by decide +kernel⟩
  rooted := rfl
  laid := by
    intro place records laid
    split at laid
    · rename_i root
      subst root
      obtain rfl := some.inj laid
      refine ⟨_, read_listed (Nat.le_refl _) rfl ?_ (by decide +kernel), ?_⟩
      · rw [length_append, length_replicate]
        decide +kernel
      · exact ⟨by decide +kernel, ⟨_, rfl⟩, by decide +kernel, take_of_length_le (by decide +kernel)⟩
    · cases laid
  closed := by
    intro place records laid
    split at laid
    · obtain rfl := some.inj laid
      decide +kernel
    · cases laid

/-- The file is there and is not found. -/
theorem file_missed : ¬Right listedImage ⟨[[0x41]], by decide, by decide⟩ := by
  rintro ⟨-, looks⟩
  obtain ⟨result, after, ran, found⟩ := looks 0
  rw [cdfsFindFile_missing listedImage (by decide) (by decide)] at ran
  cases ran
  have there : recordOf listedImage.directories 17 [[0x41]] = listing[2]? := by decide +kernel
  rw [show listedImage.root = 17 from rfl, there] at found
  exact absurd found.1 (by decide +kernel)

end Libretro.Cdfs
