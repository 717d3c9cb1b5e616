import Libretro.Encodings.Inflate
import Libretro.Library.CString
import Libretro.Library.StateExcept

/-! The reader of zip archives of rzip_archive.c, which serves what lies inside an archive in memory. -/

namespace Libretro.ZipArchive

open CString Inflate

/-- What keeps a result from being made: a read outside the bytes it was meant for, the inflater not coming
back in its passes, or one of the RZIP_ERROR codes. -/
inductive Stop where
  | fault
  | running
  | data
  | param
  | unsupported
  | crc
  | io
deriving DecidableEq

/-- An archive's bytes: in memory, or behind a callback of positioned reads, with their length. -/
inductive Source where
  | memory (data : List UInt8)
  | callback (length : Nat) (read : Nat → Nat → List UInt8)

/-- The length of the archive. -/
def Source.len : Source → Nat
  | .memory data => data.length
  | .callback length _ => length

/-- rzip_bytes: none outside the archive or where the callback reads less. -/
def rzipBytes (a : Source) (off n : Nat) : Option (List UInt8) :=
  if a.len < off ∨ a.len - off < n then none
  else
    match a with
    | .memory data => some (slice data off n)
    | .callback _ read => if (read off n).length ≠ n then none else some (read off n)

/-- A byte of a range that was read, at a place that has to be in it. -/
def at' (range : List UInt8) (place : Nat) : Except Stop Nat :=
  match range[place]? with
  | some byte => .ok byte.toNat
  | none => .error .fault

/-- rd16. -/
def rd16 (range : List UInt8) (place : Nat) : Except Stop Nat := do
  return (← at' range place) + (← at' range (place + 1)) * 2 ^ 8

/-- rd32. -/
def rd32 (range : List UInt8) (place : Nat) : Except Stop Nat := do
  return (← rd16 range place) + (← rd16 range (place + 2)) * 2 ^ 16

/-- rd64. -/
def rd64 (range : List UInt8) (place : Nat) : Except Stop Nat := do
  return (← rd32 range place) + (← rd32 range (place + 4)) * 2 ^ 32

def sigLocal : Nat := 0x04034b50
def sigCentral : Nat := 0x02014b50
def sigEocd : Nat := 0x06054b50
def sigEocd64 : Nat := 0x06064b50
def sigEocd64Loc : Nat := 0x07064b50
def eocdLen : Nat := 22
def eocdMaxTail : Nat := eocdLen + 0xffff
def centralLen : Nat := 46
def localLen : Nat := 30
def extraZip64 : Nat := 0x0001
def readChunk : Nat := 64 * 1024
def rzipMethodStored : Nat := 0
def rzipMethodDeflate : Nat := 8

/-- Where the central directory is, and how many records it has. -/
structure Directory where
  off : Nat
  size : Nat
  count : Nat

/-- What the zip64 end record says of the directory. -/
def rzipZip64Record (record : List UInt8) : Except Stop Directory := do
  if (← rd32 record 0) ≠ sigEocd64 then .error .data
  else
    let count ← rd64 record 32
    let size ← rd64 record 40
    let off ← rd64 record 48
    return { off, size, count }

/-- The zip64 records, which the end record at a place defers to. -/
def rzipZip64Directory (a : Source) (eocdOff : Nat) : Except Stop Directory :=
  match rzipBytes a (eocdOff - 20) 20 with
  | none => .error .data
  | some loc => do
    if (← rd32 loc 0) ≠ sigEocd64Loc then .error .data
    else
      let off ← rd64 loc 8
      match rzipBytes a off 56 with
      | none => .error .data
      | some record => rzipZip64Record record

/-- The loop of rzip_find_directory, from so many places of the tail downwards. -/
def rzipFindIn (a : Source) (tail : List UInt8) (tailOff : Nat) : Nat → Except Stop Directory
  | 0 => .error .data
  | i + 1 => do
    if (← rd32 tail i) ≠ sigEocd then rzipFindIn a tail tailOff i
    else if tail.length - eocdLen - i < (← rd16 tail (i + 20)) then rzipFindIn a tail tailOff i
    else
      let eocdOff := tailOff + i
      let count ← rd16 tail (i + 10)
      let size ← rd32 tail (i + 12)
      let off ← rd32 tail (i + 16)
      if (count = 0xffff ∨ size = 0xffffffff ∨ off = 0xffffffff) ∧ 20 ≤ eocdOff then
        rzipZip64Directory a eocdOff
      else return { off, size, count }

/-- rzip_find_directory. -/
def rzipFindDirectory (a : Source) : Except Stop Directory :=
  if a.len < eocdLen then .error .data
  else
    let tailLen := min a.len eocdMaxTail
    let tailOff := a.len - tailLen
    match rzipBytes a tailOff tailLen with
    | none => .error .io
    | some tail => rzipFindIn a tail tailOff (tailLen - eocdLen + 1)

/-- The three fields that a zip64 extra field may replace. -/
structure Fields where
  size : Nat
  csize : Nat
  place : Nat

/-- What the zip64 extra field carries, of so many bytes from a place on: the fields that are saturated. -/
def rzipZip64Fields (cd : List UInt8) (q flen : Nat) (fields : Fields) : Except Stop Fields := do
  let stop := q + flen
  let (fields, q) ← (if fields.size = 0xffffffff ∧ 8 ≤ stop - q then do
      return ({ fields with size := ← rd64 cd q }, q + 8)
    else .ok (fields, q) : Except Stop (Fields × Nat))
  let (fields, q) ← (if fields.csize = 0xffffffff ∧ 8 ≤ stop - q then do
      return ({ fields with csize := ← rd64 cd q }, q + 8)
    else .ok (fields, q) : Except Stop (Fields × Nat))
  if fields.place = 0xffffffff ∧ 8 ≤ stop - q then return { fields with place := ← rd64 cd q }
  else return fields

/-- rzip_parse_zip64: the extra fields are so many bytes from a place of the directory on. -/
def rzipParseZip64 (cd : List UInt8) (extra extraLen : Nat) (fields : Fields) : Except Stop Fields :=
  if 4 ≤ extraLen then do
    let flen ← rd16 cd (extra + 2)
    if extraLen - 4 < flen then return fields
    else if (← rd16 cd extra) = extraZip64 then rzipZip64Fields cd (extra + 4) flen fields
    else rzipParseZip64 cd (extra + 4 + flen) (extraLen - (4 + flen)) fields
  else .ok fields
termination_by extraLen

/-- rzip_entry_t; the name is without the zero behind it. -/
structure Entry where
  name : List UInt8
  size : Nat
  csize : Nat
  dataOff : Nat
  crc : Nat
  method : Nat
  isDir : Bool

/-- rzip_locate: where a member's bytes are. -/
def rzipLocate (a : Source) (place : Nat) : Except Stop Nat :=
  match rzipBytes a place localLen with
  | none => .ok a.len
  | some hdr => do
    if (← rd32 hdr 0) = sigLocal then
      return (place + localLen + (← rd16 hdr 26) + (← rd16 hdr 28)) % 2 ^ 64
    else return a.len

/-- How long the parts of a record are that vary: name, extra fields and comment. -/
structure Parts where
  name : Nat
  extra : Nat
  comment : Nat

/-- The parts of the record at a place, where there is a whole one. -/
def rzipRecord (cd : List UInt8) (p : Nat) : Except Stop (Option Parts) :=
  if cd.length < p + centralLen then .ok none
  else do
    if (← rd32 cd p) ≠ sigCentral then return none
    else
      let parts := { name := ← rd16 cd (p + 28), extra := ← rd16 cd (p + 30), comment := ← rd16 cd (p + 32) }
      if cd.length < p + centralLen + (parts.name + parts.extra + parts.comment) then return none
      else return some parts

/-- The first walk over the directory: how many of at most so many records fit. -/
def rzipCount (cd : List UInt8) : Nat → Nat → Except Stop Nat
  | 0, _ => .ok 0
  | count + 1, p => do
    match ← rzipRecord cd p with
    | none => return 0
    | some parts =>
      return (← rzipCount cd count (p + (centralLen + (parts.name + parts.extra + parts.comment)))) + 1

/-- The entry of the record at a place, and the place behind the record. -/
def rzipEntry (a : Source) (cd : List UInt8) (p : Nat) : Except Stop (Entry × Nat) := do
  let nameLen ← rd16 cd (p + 28)
  let extraLen ← rd16 cd (p + 30)
  let fields : Fields :=
    { size := ← rd32 cd (p + 24), csize := ← rd32 cd (p + 20), place := ← rd32 cd (p + 42) }
  let name ← (if cd.length < p + centralLen + nameLen then .error .fault
    else .ok (slice cd (p + centralLen) nameLen) : Except Stop (List UInt8))
  let fields ← rzipParseZip64 cd (p + centralLen + nameLen) extraLen fields
  let crc ← rd32 cd (p + 16)
  let method ← rd16 cd (p + 10)
  let isDir := name.getLast? = some 0x2F ∨ name.getLast? = some 0x5C
  let dataOff ← (if isDir then .ok a.len else rzipLocate a fields.place : Except Stop Nat)
  return ({ name, size := fields.size, csize := fields.csize, dataOff, crc, method, isDir },
    p + (centralLen + nameLen + extraLen + (← rd16 cd (p + 32))))

/-- The second walk, over the records that were counted. -/
def rzipEntries (a : Source) (cd : List UInt8) : Nat → Nat → Except Stop (List Entry)
  | 0, _ => .ok []
  | n + 1, p => do
    let (entry, p) ← rzipEntry a cd p
    return entry :: (← rzipEntries a cd n p)

/-- struct rzip_archive. -/
structure Archive where
  source : Source
  entries : List Entry

/-- rzip_archive_open, where a size_t holds values up to a largest. -/
def rzipArchiveOpen (sizeMax : Nat) (a : Source) : Except Stop Archive := do
  let directory ← rzipFindDirectory a
  if sizeMax - 1 < directory.size ∨ 0x7fffffff < directory.count then throw .data
  else
    match rzipBytes a directory.off directory.size with
    | none => throw .io
    | some cd =>
      let n ← rzipCount cd directory.count 0
      return { source := a, entries := ← rzipEntries a cd n 0 }

/-- rzip_entry_in_range. -/
def rzipEntryInRange (a : Source) (e : Entry) : Bool := e.dataOff ≤ a.len ∧ e.csize ≤ a.len - e.dataOff

/-- rzip_archive_entry_view: where the bytes begin in the archive in memory, and how many they are. -/
def rzipArchiveEntryView (sizeMax : Nat) (a : Archive) (index : Nat) : Option (Nat × Nat) :=
  match a.source, a.entries[index]? with
  | .memory _, some e =>
    if e.isDir ∨ e.method ≠ rzipMethodStored ∨ sizeMax < e.size ∨ !rzipEntryInRange a.source e then none
    else some (e.dataOff, e.size)
  | _, _ => none

/-- A piece of the compressed bytes: all in place, or a chunk through the callback. -/
def rzipPiece (a : Source) (inOff inLeft : Nat) : Except Stop (List UInt8) :=
  match a with
  | .memory data => if data.length < inOff + inLeft then .error .fault else .ok (slice data inOff inLeft)
  | .callback _ read =>
    let take := min inLeft readChunk
    if take = 0 then .ok []
    else if (read inOff take).length ≠ take then .error .io
    else .ok (read inOff take)

/-- How much of the compressed bytes a piece takes. -/
def rzipTake (a : Source) (inLeft : Nat) : Nat :=
  match a with
  | .memory _ => inLeft
  | .callback .. => min inLeft readChunk

/-- The loop of rzip_inflate: a piece is dropped behind the call that it was given to. Each call makes so many
passes at most. -/
def rzipInflateLoop (passes : Nat) (a : Source) (size : Nat) (inf : Inflate.State) (inOff inLeft outPos : Nat) :
    Except Stop (List UInt8) := do
  let piece ← rzipPiece a inOff inLeft
  match rinflateProcess passes (rinflateSetIn inf piece) with
  | none => throw .running
  | some (status, inf, _, wrote) =>
    let outPos := outPos + wrote
    match status with
    | .error => throw .data
    | .done => if outPos = size then return inf.out else throw .data
    | _ =>
      if _more : inLeft - rzipTake a inLeft = 0 then throw .data
      else
        rzipInflateLoop passes a size inf (inOff + rzipTake a inLeft) (inLeft - rzipTake a inLeft) outPos
termination_by inLeft
decreasing_by
  have positive : 0 < rzipTake a inLeft := by
    unfold rzipTake
    split
    · omega
    · rw [readChunk]
      omega
  omega

/-- rzip_inflate: what the inflater has stored. -/
def rzipInflate (passes : Nat) (a : Source) (e : Entry) : Except Stop (List UInt8) :=
  rzipInflateLoop passes a e.size (rinflateSetOut (rinflateNew (-15)) e.size) e.dataOff
    e.csize 0

/-- Bytes copied to the front of a buffer; behind its end nothing is kept. -/
def copied (dst bytes : List UInt8) : List UInt8 := (bytes ++ dst.drop bytes.length).take dst.length

/-- The bytes of a stored member. -/
def rzipStored (a : Source) (e : Entry) : Except Stop (List UInt8) :=
  match a with
  | .memory data =>
    if data.length < e.dataOff + e.size then .error .fault else .ok (slice data e.dataOff e.size)
  | .callback _ read =>
    if e.size = 0 then .ok []
    else if (read e.dataOff e.size).length ≠ e.size then .error .io
    else .ok (read e.dataOff e.size)

/-- rzip_archive_extract_into: the buffer afterwards, and the length of the member. -/
def rzipArchiveExtractInto (sizeMax passes : Nat) (a : Archive) (index : Nat) (dst : List UInt8) :
    Except Stop (List UInt8 × Nat) :=
  match a.entries[index]? with
  | none => .error .param
  | some e =>
    if e.isDir then .error .param
    else if e.method ≠ rzipMethodStored ∧ e.method ≠ rzipMethodDeflate then .error .unsupported
    else if sizeMax < e.size ∨ !rzipEntryInRange a.source e then .error .data
    else if e.method = rzipMethodStored ∧ e.csize ≠ e.size then .error .data
    else if dst.length < e.size then .error .param
    else do
      let bytes ← (if e.method = rzipMethodStored then rzipStored a.source e
        else rzipInflate passes a.source e : Except Stop (List UInt8))
      let dst := copied dst bytes
      if (encodingCrc32 0 (dst.take e.size)).toNat ≠ e.crc then throw .crc
      else return (dst, e.size)

/-- rzip_archive_extract: the member in a buffer of its own. -/
def rzipArchiveExtract (sizeMax passes : Nat) (a : Archive) (index : Nat) : Except Stop (List UInt8) :=
  match a.entries[index]? with
  | none => .error .param
  | some e =>
    if e.isDir then .error .param
    else if sizeMax < e.size then .error .data
    else do
      let (out, len) ← rzipArchiveExtractInto sizeMax passes a index (List.replicate (max e.size 1) 0)
      return out.take len

open List StateExcept

section Reads

variable {range : List UInt8} {place : Nat} {goal : Nat → Prop}

theorem at'_avoids (inside : place < range.length) : Avoids .fault (at' range place) fun _ => True := by
  rw [at', getElem?_eq_getElem inside]
  trivial

theorem rd16_avoids (inside : place + 2 ≤ range.length) : Avoids .fault (rd16 range place) fun _ => True :=
  (at'_avoids (by omega)).bind fun _ _ => (at'_avoids (by omega)).bind fun _ _ => trivial

theorem rd32_avoids (inside : place + 4 ≤ range.length) : Avoids .fault (rd32 range place) fun _ => True :=
  (rd16_avoids (by omega)).bind fun _ _ => (rd16_avoids (by omega)).bind fun _ _ => trivial

theorem rd64_avoids (inside : place + 8 ≤ range.length) : Avoids .fault (rd64 range place) fun _ => True :=
  (rd32_avoids (by omega)).bind fun _ _ => (rd32_avoids (by omega)).bind fun _ _ => trivial

theorem length_rzipBytes {a : Source} {off n : Nat} {bytes : List UInt8}
    (read : rzipBytes a off n = some bytes) : bytes.length = n := by
  unfold rzipBytes at read
  split at read
  · cases read
  · rename_i inside
    cases a with
    | memory data =>
      cases read
      have whole : off + n ≤ data.length := by
        rw [Source.len] at inside
        omega
      rw [slice, length_take, length_drop]
      omega
    | callback length read' =>
      dsimp only at read
      split at read
      · cases read
      · rename_i full
        cases read
        exact not_not.1 full

end Reads

theorem rzipZip64Record_avoids {record : List UInt8} (size : record.length = 56) :
    Avoids .fault (rzipZip64Record record) fun _ => True := by
  rw [rzipZip64Record]
  refine (rd32_avoids (by omega)).bind fun _ _ => ?_
  refine Avoids.ite (fun _ => nofun) fun _ => ?_
  refine (rd64_avoids (by omega)).bind fun _ _ => ?_
  refine (rd64_avoids (by omega)).bind fun _ _ => ?_
  exact (rd64_avoids (by omega)).bind fun _ _ => trivial

theorem rzipZip64Directory_avoids (a : Source) (eocdOff : Nat) :
    Avoids .fault (rzipZip64Directory a eocdOff) fun _ => True := by
  unfold rzipZip64Directory
  split
  · rintro ⟨⟩
  · rename_i loc found
    have size := length_rzipBytes found
    refine (rd32_avoids (by omega)).bind fun sig _ => ?_
    refine Avoids.ite (fun _ => by rintro ⟨⟩) fun _ => ?_
    refine (rd64_avoids (by omega)).bind fun off _ => ?_
    split
    · rintro ⟨⟩
    · rename_i record found
      exact rzipZip64Record_avoids (length_rzipBytes found)

theorem rzipFindIn_avoids (a : Source) (tail : List UInt8) (tailOff : Nat) (i : Nat)
    (inside : i = 0 ∨ i + 21 ≤ tail.length) : Avoids .fault (rzipFindIn a tail tailOff i) fun _ => True := by
  -- The induction follows the loop; every record it looks at is whole.
  induction i with
  | zero => exact nofun
  | succ i ih =>
    have below := ih (by omega)
    refine (rd32_avoids (by omega)).bind fun _ _ => Avoids.ite (fun _ => below) fun _ => ?_
    refine (rd16_avoids (by omega)).bind fun _ _ => Avoids.ite (fun _ => below) fun _ => ?_
    refine (rd16_avoids (by omega)).bind fun _ _ => (rd32_avoids (by omega)).bind fun _ _ =>
      (rd32_avoids (by omega)).bind fun _ _ => ?_
    exact Avoids.ite (fun _ => rzipZip64Directory_avoids a _) fun _ => trivial

theorem rzipFindDirectory_avoids (a : Source) : Avoids .fault (rzipFindDirectory a) fun _ => True := by
  refine Avoids.ite (fun _ => by rintro ⟨⟩) fun long => ?_
  dsimp only
  split
  · rintro ⟨⟩
  · rename_i tail found
    have size := length_rzipBytes found
    have eocd : eocdLen = 22 := rfl
    have most : eocdMaxTail = 22 + 0xffff := rfl
    exact rzipFindIn_avoids a tail _ _ (by omega)

section Records

variable {cd : List UInt8}

theorem rzipZip64Fields_avoids {q flen : Nat} (inside : q + flen ≤ cd.length) (fields : Fields) :
    Avoids .fault (rzipZip64Fields cd q flen fields) fun _ => True := by
  rw [rzipZip64Fields]
  refine Avoids.via (fun next => next.2 ≤ q + 8 ∨ next.2 ≤ q + flen)
    (Avoids.ite (fun more => ?_) fun _ => .inr (Nat.le_add_right ..)) fun next _ => ?_
  · exact (rd64_avoids (by omega)).bind fun _ _ => .inl (Nat.le_refl _)
  · refine Avoids.via (fun _ => True) (Avoids.ite (fun more => ?_) fun _ => trivial) fun next _ => ?_
    · exact (rd64_avoids (by omega)).bind fun _ _ => trivial
    · exact Avoids.ite (fun more => (rd64_avoids (by omega)).bind fun _ _ => trivial) fun _ => trivial

theorem rzipParseZip64_avoids {extra extraLen : Nat} (inside : extra + extraLen ≤ cd.length)
    (fields : Fields) : Avoids .fault (rzipParseZip64 cd extra extraLen fields) fun _ => True := by
  -- The induction is on the bytes of extra fields that are left.
  induction extraLen using Nat.strongRecOn generalizing extra with
  | ind extraLen ih =>
    rw [rzipParseZip64]
    refine Avoids.ite (fun some => ?_) fun _ => trivial
    refine (rd16_avoids (by omega)).bind fun flen _ => Avoids.ite (fun _ => trivial) fun fits => ?_
    refine (rd16_avoids (by omega)).bind fun id _ => Avoids.ite (fun _ => ?_) fun _ => ?_
    · exact rzipZip64Fields_avoids (by omega) fields
    · exact ih _ (by omega) (by omega)

/-- Where a record begins that lies in the directory with all its parts. -/
def Whole (cd : List UInt8) (p : Nat) (parts : Parts) : Prop :=
  rd16 cd (p + 28) = .ok parts.name ∧ rd16 cd (p + 30) = .ok parts.extra ∧
    rd16 cd (p + 32) = .ok parts.comment ∧
    p + centralLen + (parts.name + parts.extra + parts.comment) ≤ cd.length

theorem rzipRecord_avoids (p : Nat) :
    Avoids .fault (rzipRecord cd p) fun record => ∀ parts, record = some parts → Whole cd p parts := by
  have central : centralLen = 46 := rfl
  refine Avoids.ite (fun _ => nofun) fun long => ?_
  refine (rd32_avoids (by omega)).bind fun _ _ => Avoids.ite (fun _ => nofun) fun _ => ?_
  have inside : ∀ {place}, place + 2 ≤ p + 46 → Avoids .fault (rd16 cd place) fun _ => True :=
    fun within => rd16_avoids (by omega)
  have nameRead := inside (show p + 28 + 2 ≤ _ by omega)
  have extraRead := inside (show p + 30 + 2 ≤ _ by omega)
  have commentRead := inside (show p + 32 + 2 ≤ _ by omega)
  cases nameIs : rd16 cd (p + 28) with
  | error stop => rwa [nameIs] at nameRead
  | ok name =>
    cases extraIs : rd16 cd (p + 30) with
    | error stop => rwa [extraIs] at extraRead
    | ok extra =>
      cases commentIs : rd16 cd (p + 32) with
      | error stop => rwa [commentIs] at commentRead
      | ok comment =>
        refine Avoids.ite (fun _ => nofun) fun fits => ?_
        intro parts same
        cases same
        exact ⟨nameIs, extraIs, commentIs, Nat.not_lt.1 fits⟩

/-- So many whole records stand one behind the other from a place on. -/
def Records (cd : List UInt8) : Nat → Nat → Prop
  | 0, _ => True
  | n + 1, p => ∃ parts, Whole cd p parts ∧
      Records cd n (p + (centralLen + (parts.name + parts.extra + parts.comment)))

theorem rzipCount_avoids (count p : Nat) : Avoids .fault (rzipCount cd count p) fun n => Records cd n p := by
  -- The induction follows the first walk.
  induction count generalizing p with
  | zero => exact trivial
  | succ count ih =>
    refine (rzipRecord_avoids p).bind fun record whole => ?_
    cases record with
    | none => exact trivial
    | some parts => exact (ih _).bind fun n rest => ⟨parts, whole parts rfl, rest⟩

theorem rzipLocate_avoids (a : Source) (place : Nat) : Avoids .fault (rzipLocate a place) fun _ => True := by
  rw [rzipLocate]
  split
  · exact trivial
  · rename_i hdr found
    have size := length_rzipBytes found
    have header : localLen = 30 := rfl
    refine (rd32_avoids (by omega)).bind fun _ _ => Avoids.ite (fun _ => ?_) fun _ => trivial
    exact (rd16_avoids (by omega)).bind fun _ _ => (rd16_avoids (by omega)).bind fun _ _ => trivial

theorem rzipEntry_avoids (a : Source) {p : Nat} {parts : Parts} (whole : Whole cd p parts) :
    Avoids .fault (rzipEntry a cd p) fun result =>
      result.2 = p + (centralLen + (parts.name + parts.extra + parts.comment)) := by
  have central : centralLen = 46 := rfl
  obtain ⟨name, extra, comment, inside⟩ := whole
  rw [rzipEntry, name, extra, comment]
  refine (rd32_avoids (by omega)).bind fun size _ => (rd32_avoids (by omega)).bind fun csize _ =>
    (rd32_avoids (by omega)).bind fun place _ => ?_
  refine Avoids.via (fun _ => True) (Avoids.ite (fun out => by omega) fun _ => trivial)
    fun nameBytes _ => ?_
  refine (rzipParseZip64_avoids (by omega) _).bind fun fields _ => (rd32_avoids (by omega)).bind fun crc _ =>
    (rd16_avoids (by omega)).bind fun method _ => ?_
  refine Avoids.via (fun _ => True)
    (Avoids.ite (fun _ => trivial) fun _ => rzipLocate_avoids a _) fun dataOff _ => ?_
  show p + (centralLen + parts.name + parts.extra + parts.comment) = _
  omega

theorem rzipEntries_avoids (a : Source) (n p : Nat) (records : Records cd n p) :
    Avoids .fault (rzipEntries a cd n p) fun _ => True := by
  -- The induction follows the second walk.
  induction n generalizing p with
  | zero => exact trivial
  | succ n ih =>
    obtain ⟨parts, whole, rest⟩ := records
    refine (rzipEntry_avoids a whole).bind fun result behind => ?_
    rw [← behind] at rest
    exact (ih _ rest).bind fun _ _ => trivial

end Records

theorem rzipArchiveOpen_avoids (sizeMax : Nat) (a : Source) :
    Avoids .fault (rzipArchiveOpen sizeMax a) fun archive => archive.source = a := by
  refine (rzipFindDirectory_avoids a).bind fun directory _ => Avoids.ite (fun _ => nofun) fun _ => ?_
  split
  · rintro ⟨⟩
  · exact (rzipCount_avoids _ _).bind fun n records =>
      (rzipEntries_avoids a n 0 records).bind fun _ _ => rfl

section Members

variable {sizeMax passes : Nat} {data dst : List UInt8} {e : Entry}

theorem rzipEntryInRange_iff :
    rzipEntryInRange (.memory data) e = true ↔ e.dataOff ≤ data.length ∧ e.csize ≤ data.length - e.dataOff :=
  decide_eq_true_iff

/-- A stored member that the archive hands out in place: it is in range by its compressed size. -/
def Viewable (sizeMax : Nat) (data : List UInt8) (e : Entry) : Prop :=
  e.isDir = false ∧ e.method = rzipMethodStored ∧ e.size ≤ sizeMax ∧ rzipEntryInRange (.memory data) e = true

theorem rzipArchiveEntryView_eq_some {entries : List Entry} {index off n : Nat} :
    rzipArchiveEntryView sizeMax ⟨.memory data, entries⟩ index = some (off, n) ↔
      ∃ e, entries[index]? = some e ∧ Viewable sizeMax data e ∧ off = e.dataOff ∧ n = e.size := by
  unfold rzipArchiveEntryView
  cases listed : entries[index]? with
  | none => simp
  | some e =>
    by_cases refused : e.isDir ∨ e.method ≠ rzipMethodStored ∨ sizeMax < e.size ∨
        !rzipEntryInRange (.memory data) e
    · have hidden : ¬ Viewable sizeMax data e := by
        rintro ⟨file, stored, small, inside⟩
        simp [file, stored, inside, Nat.not_lt.2 small] at refused
      simp only [if_pos refused]
      simp [hidden]
    · have shown : Viewable sizeMax data e := by
        obtain ⟨file, stored, small, inside⟩ := by simpa only [not_or] using refused
        exact ⟨by simpa using file, not_not.1 stored, Nat.not_lt.1 small, by simpa using inside⟩
      simp only [if_neg refused]
      simp [shown, eq_comm]

/-- A call of the inflater on some input ends its stream with so many bytes. -/
def Inflates (passes : Nat) (input : List UInt8) (size : Nat) (bytes : List UInt8) : Prop :=
  ∃ inf read, rinflateProcess passes
    (rinflateSetIn (rinflateSetOut (rinflateNew (-15)) size) input) =
      some (.done, inf, read, size) ∧ bytes = inf.out

theorem rzipInflate_avoids (inside : e.dataOff + e.csize ≤ data.length) :
    Avoids .fault (rzipInflate passes (.memory data) e)
      (Inflates passes (slice data e.dataOff e.csize) e.size) := by
  have piece : rzipPiece (.memory data) e.dataOff e.csize = .ok (slice data e.dataOff e.csize) :=
    if_neg (Nat.not_lt.2 inside)
  rw [rzipInflate, rzipInflateLoop, piece]
  refine Avoids.via (· = slice data e.dataOff e.csize) rfl fun piece is => ?_
  subst is
  split
  · rintro ⟨⟩
  · rename_i status inf read wrote ran
    dsimp only
    split
    · rintro ⟨⟩
    · refine Avoids.ite (fun whole => ?_) fun _ => by rintro ⟨⟩
      rw [Nat.zero_add] at whole
      exact ⟨inf, read, whole ▸ ran, rfl⟩
    · rw [dif_pos (show e.csize - rzipTake (.memory data) e.csize = 0 from Nat.sub_self _)]
      rintro ⟨⟩

/-- What a successful extraction of a member from an archive in memory leaves in the buffer. -/
structure Extracted (passes : Nat) (data : List UInt8) (e : Entry) (dst after : List UInt8) (n : Nat) :
    Prop where
  size : n = e.size
  length : (after.take n).length = n
  crc : (encodingCrc32 0 (after.take n)).toNat = e.crc
  inside : e.dataOff + e.csize ≤ data.length
  bytes : e.method = rzipMethodStored ∧ n = e.csize ∧ after.take n = slice data e.dataOff e.csize ∨
    e.method = rzipMethodDeflate ∧ ∃ bytes, Inflates passes (slice data e.dataOff e.csize) n bytes ∧
      after = copied dst bytes

theorem length_copied (dst bytes : List UInt8) : (copied dst bytes).length = dst.length := by
  rw [copied, length_take, length_append, length_drop]
  omega

theorem take_copied {bytes : List UInt8} (fits : bytes.length ≤ dst.length) :
    (copied dst bytes).take bytes.length = bytes := by
  rw [copied, take_take, Nat.min_eq_left fits, take_left]

theorem rzipArchiveExtractInto_avoids (entries : List Entry) (index : Nat) :
    Avoids .fault (rzipArchiveExtractInto sizeMax passes ⟨.memory data, entries⟩ index dst) fun result =>
      ∃ e, entries[index]? = some e ∧ Extracted passes data e dst result.1 result.2 := by
  unfold rzipArchiveExtractInto
  cases listed : entries[index]? with
  | none => exact nofun
  | some e =>
    refine Avoids.ite (fun _ => nofun) fun _ => Avoids.ite (fun _ => nofun) fun known => ?_
    refine Avoids.ite (fun _ => nofun) fun bounded => Avoids.ite (fun _ => nofun) fun sizes => ?_
    refine Avoids.ite (fun _ => nofun) fun room => ?_
    have inRange : rzipEntryInRange (.memory data) e = true := by simpa using (not_or.1 bounded).2
    have range := rzipEntryInRange_iff.1 inRange
    have inside : e.dataOff + e.csize ≤ data.length := by omega
    refine Avoids.via (fun bytes =>
      e.method = rzipMethodStored ∧ e.size = e.csize ∧ bytes = slice data e.dataOff e.csize ∨
        e.method = rzipMethodDeflate ∧ Inflates passes (slice data e.dataOff e.csize) e.size bytes)
      (Avoids.ite (fun stored => ?_) fun other => ?_) fun bytes served => ?_
    · -- The sizes of a stored member agree here.
      have same : e.size = e.csize := by
        by_contra differ
        exact sizes ⟨stored, fun equal => differ equal.symm⟩
      refine Avoids.ite (fun out => absurd out (by omega)) fun _ => .inl ⟨stored, same, ?_⟩
      rw [same]
    · have deflated : e.method = rzipMethodDeflate := by
        by_contra neither
        exact known ⟨other, neither⟩
      exact (rzipInflate_avoids inside).weaken fun bytes inflates => .inr ⟨deflated, inflates⟩
    · refine Avoids.ite (fun _ => nofun) fun crc => ⟨e, rfl, rfl, ?_, not_not.1 crc, inside, ?_⟩
      · rw [length_take, length_copied]
        omega
      · refine served.imp (fun ⟨stored, same, is⟩ => ⟨stored, same, ?_⟩) fun ⟨deflated, inflates⟩ =>
          ⟨deflated, bytes, inflates, rfl⟩
        have length : bytes.length = e.size := by
          rw [is, slice, length_take, length_drop]
          omega
        rw [← length, take_copied (by omega), is]

/-- Bytes opened as an archive in memory are served from inside them only: the directory's walk stays in the
ranges it has checked, views end in the archive, and an extraction reads a member's bytes in the archive and
yields as many bytes as its size says, with its checksum. -/
structure Served (sizeMax : Nat) (data : List UInt8) : Prop where
  walk : rzipArchiveOpen sizeMax (.memory data) ≠ .error .fault
  view : ∀ a, rzipArchiveOpen sizeMax (.memory data) = .ok a → ∀ index off n,
    rzipArchiveEntryView sizeMax a index = some (off, n) → off + n ≤ data.length
  reads : ∀ a, rzipArchiveOpen sizeMax (.memory data) = .ok a → ∀ passes index dst,
    rzipArchiveExtractInto sizeMax passes a index dst ≠ .error .fault
  extract : ∀ a, rzipArchiveOpen sizeMax (.memory data) = .ok a → ∀ passes index dst after n,
    rzipArchiveExtractInto sizeMax passes a index dst = .ok (after, n) →
      ∃ e, a.entries[index]? = some e ∧ Extracted passes data e dst after n

/-- Serving goes wrong by a viewable member that declares more bytes than there are behind its place. -/
theorem served_iff (sizeMax : Nat) (data : List UInt8) :
    Served sizeMax data ↔ ∀ a, rzipArchiveOpen sizeMax (.memory data) = .ok a →
      ∀ e ∈ a.entries, Viewable sizeMax data e → e.size ≤ data.length - e.dataOff := by
  have opens := rzipArchiveOpen_avoids sizeMax (.memory data)
  constructor
  · intro served a opened e listed viewable
    have source := opens.ok opened
    obtain ⟨_, entries⟩ := a
    cases source
    obtain ⟨index, at_⟩ := mem_iff_getElem?.1 listed
    have inside := served.view _ opened index _ _
      (rzipArchiveEntryView_eq_some.2 ⟨e, at_, viewable, rfl, rfl⟩)
    omega
  · intro sizes
    refine ⟨opens.ne, ?_, ?_, ?_⟩
    · intro a opened index off n shown
      have source := opens.ok opened
      obtain ⟨_, entries⟩ := a
      cases source
      obtain ⟨e, at_, viewable, rfl, rfl⟩ := rzipArchiveEntryView_eq_some.1 shown
      have range := rzipEntryInRange_iff.1 viewable.2.2.2
      have bounded := sizes _ opened e (mem_of_getElem? at_) viewable
      omega
    · intro a opened passes index dst
      have source := opens.ok opened
      obtain ⟨_, entries⟩ := a
      cases source
      exact (rzipArchiveExtractInto_avoids entries index).ne
    · intro a opened passes index dst after n result
      have source := opens.ok opened
      obtain ⟨_, entries⟩ := a
      cases source
      exact (rzipArchiveExtractInto_avoids entries index).ok result

end Members

/-- An archive with a member that is stored as no bytes and declares 200. -/
def declaring : List UInt8 :=
  [0x50, 0x4B, 1, 2, 20, 0, 20, 0, 0, 0, 0, 0, 0, 0, 0, 0, 0, 0, 0, 0, 0, 0, 0, 0, 200, 0, 0, 0, 0, 0, 0, 0,
    0, 0, 0, 0, 0, 0, 0, 0, 0, 0, 46, 0, 0, 0,
    0x50, 0x4B, 3, 4, 20, 0, 0, 0, 0, 0, 0, 0, 0, 0, 0, 0, 0, 0, 0, 0, 0, 0, 0, 0, 0, 0, 0, 0, 0, 0,
    0x50, 0x4B, 5, 6, 0, 0, 0, 0, 1, 0, 1, 0, 46, 0, 0, 0, 0, 0, 0, 0, 0, 0]

/-- The view of the member ends behind the archive. -/
theorem declaring_beyond : ¬ Served (2 ^ 64 - 1) declaring := by
  intro served
  have shown : (rzipArchiveOpen (2 ^ 64 - 1) (.memory declaring)).map
      (rzipArchiveEntryView (2 ^ 64 - 1) · 0) = .ok (some (76, 200)) := by decide +kernel
  cases opened : rzipArchiveOpen (2 ^ 64 - 1) (.memory declaring) with
  | error stop =>
    rw [opened] at shown
    cases shown
  | ok a =>
    rw [opened] at shown
    have inside := served.view a opened 0 76 200 (Except.ok.inj shown)
    exact absurd inside (by decide)

end Libretro.ZipArchive
