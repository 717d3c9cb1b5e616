import Libretro.Library.Transition
import Libretro.Streams.RzipStream
import Mathlib.Order.Interval.Finset.Nat

/-! Archives as files: what is written and closed is what is read, however both are cut, and threads that
compress chunks write what the writer alone writes. -/

namespace Libretro.Rzip

open List hiding Vector

def rzipMaxChunkSize : Nat := 64 * 1024 * 1024

def rzipHeaderSize : Nat := 20

/-- A number in so many bytes, the lowest first. -/
def littleEndian : Nat → Nat → List UInt8
  | 0, _ => []
  | n + 1, value => .ofNat value :: littleEndian n (value >>> 8)

/-- The number that bytes give, the lowest first. -/
def fromBytes : List UInt8 → Nat
  | [] => 0
  | byte :: rest => byte.toNat + fromBytes rest * 256

/-- The first eight bytes: `#RZIPv`, the version of a deflate archive, and `#`. -/
def magic : List UInt8 := [35, 82, 90, 73, 80, 118, 1, 35]

/-- The transforms of a deflate archive, which give a chunk back. -/
structure Codec where
  deflate : List UInt8 → Option (List UInt8)
  inflate : List UInt8 → Option (List UInt8)
  inverse : ∀ chunk packed, deflate chunk = some packed → inflate packed = some chunk

/-- What a chunk is compressed to, if it fits the output buffer. -/
def Codec.pack (codec : Codec) (chunk : List UInt8) : Option (List UInt8) :=
  (codec.deflate chunk).filter fun packed => packed ≠ [] ∧ packed.length ≤ rzipDefaultChunkSize * 2

/-- Whether a chunk can be packed, whatever was written before. -/
def Codec.accepts (codec : Codec) (_ : List (List UInt8)) (chunk : List UInt8) : Bool :=
  (codec.pack chunk).isSome

def chunkRecord (packed : List UInt8) : List UInt8 := littleEndian 4 packed.length ++ packed

/-- What rzipstream_write_chunk_data appends to the file. -/
def Codec.record (codec : Codec) (chunk : List UInt8) : List UInt8 := chunkRecord ((codec.pack chunk).getD [])

/-- rzipstream_close: the last chunk and the header of an archive that is written, and its file. -/
def rzipstreamClose (codec : Codec) (stream : Rzipstream) : Option (List UInt8) :=
  let size := stream.received.length
  (if stream.inBuf = [] then some stream
    else rzipstreamWriteChunk codec.accepts stream).map fun stream =>
      magic ++ littleEndian 4 rzipDefaultChunkSize ++ littleEndian 8 size ++
        stream.chunks.flatMap codec.record

/-- An archive that is read: what of its file is ahead, and the output buffer as far as it is occupied. -/
structure Reader where
  file : List UInt8
  isCompressed : Bool
  chunkSize : Nat := 0
  size : Nat
  virtualPtr : Nat := 0
  outBuf : List UInt8 := []
  outBufPtr : Nat := 0

/-- rzipstream_read_file_header: a file without a header is read as it is. -/
def rzipstreamReadFileHeader (file : List UInt8) : Option Reader :=
  if file = [] then none
  else if file.length < rzipHeaderSize ∨ file.take 8 ≠ magic then
    some { file, isCompressed := false, size := file.length }
  else
    let chunkSize := fromBytes ((file.drop 8).take 4)
    let size := fromBytes ((file.drop 12).take 8)
    if chunkSize = 0 ∨ rzipMaxChunkSize < chunkSize ∨ size = 0 then none
    else some { file := file.drop rzipHeaderSize, isCompressed := true, chunkSize, size }

def rzipstreamReadChunk (codec : Codec) (stream : Reader) : Option Reader :=
  let compressed := fromBytes (stream.file.take 4)
  let ahead := stream.file.drop 4
  if stream.file.length < 4 ∨ compressed = 0 ∨ stream.chunkSize * 2 < compressed ∨
      ahead.length < compressed then none
  else
    ((codec.inflate (ahead.take compressed)).filter fun chunk =>
      chunk ≠ [] ∧ chunk.length ≤ stream.chunkSize + stream.chunkSize >>> 2).map fun chunk =>
        { stream with file := ahead.drop compressed, outBuf := chunk, outBufPtr := 0 }

/-- The loop of `rzipstream_read`, for as many turns as bytes are asked for: whether no chunk was
missing, and what was copied. -/
def readLoop (codec : Codec) : Nat → Reader → Nat → (Bool × List UInt8) × Reader
  | 0, stream, _ => ((true, []), stream)
  | turns + 1, stream, len =>
    if len = 0 ∨ stream.size ≤ stream.virtualPtr then ((true, []), stream)
    else
      match if stream.outBuf.length ≤ stream.outBufPtr then rzipstreamReadChunk codec stream
        else some stream with
      | none => ((false, []), stream)
      | some stream =>
        let bytes := (stream.outBuf.drop stream.outBufPtr).take len
        let ((complete, more), stream) := readLoop codec turns
          { stream with
            outBufPtr := stream.outBufPtr + bytes.length
            virtualPtr := stream.virtualPtr + bytes.length } (len - bytes.length)
        ((complete, bytes ++ more), stream)

/-- rzipstream_read: how many bytes were read, or -1, and the bytes. -/
def rzipstreamRead (codec : Codec) (stream : Reader) (len : Nat) : (Int × List UInt8) × Reader :=
  if stream.isCompressed then
    let ((complete, bytes), stream) := readLoop codec len stream len
    ((if complete then bytes.length else -1, bytes), stream)
  else
    ((((stream.file.take len).length : Nat), stream.file.take len),
      { stream with file := stream.file.drop len })

theorem length_littleEndian (n value : Nat) : (littleEndian n value).length = n := by
  induction n generalizing value with
  | zero => rfl
  | succ n ih => rw [littleEndian, length_cons, ih]

theorem fromBytes_littleEndian (n : Nat) {value : Nat} (fits : value < 2 ^ (8 * n)) :
    fromBytes (littleEndian n value) = value := by
  -- The induction is on the bytes, each of which takes eight bits of the number.
  induction n generalizing value with
  | zero => rw [littleEndian, fromBytes]; omega
  | succ n ih =>
    have power : 2 ^ (8 * (n + 1)) = 2 ^ (8 * n) * 256 := by rw [Nat.mul_succ, Nat.pow_add]
    have rest : value >>> 8 < 2 ^ (8 * n) := by rw [Nat.shiftRight_eq_div_pow]; omega
    rw [littleEndian, fromBytes, ih rest, UInt8.toNat_ofNat', Nat.shiftRight_eq_div_pow]
    omega

/-- A header is read as it was written; a file of no bytes is refused. -/
theorem readFileHeader_written {size : Nat} (few : size < 2 ^ 64) (rest : List UInt8) :
    rzipstreamReadFileHeader (magic ++ littleEndian 4 rzipDefaultChunkSize ++ littleEndian 8 size ++ rest) =
      if size = 0 then none
      else some { file := rest, isCompressed := true, chunkSize := rzipDefaultChunkSize, size } := by
  have eight := length_littleEndian 8 size
  have value := fromBytes_littleEndian 8 few
  have chunk : littleEndian 4 rzipDefaultChunkSize = [0, 0, 2, 0] := by decide
  rw [chunk]
  generalize littleEndian 8 size = sizes at *
  simp [rzipstreamReadFileHeader, magic, rzipHeaderSize, eight, take_left' eight, drop_left' eight, value,
    fromBytes, rzipMaxChunkSize, rzipDefaultChunkSize]

/-- A chunk that the archive can hold. -/
def Codec.Stores (codec : Codec) (chunk : List UInt8) : Prop :=
  (codec.pack chunk).isSome ∧ chunk ≠ [] ∧ chunk.length ≤ rzipDefaultChunkSize

/-- An archive whose chunks are ones that it can hold, with no more than a chunk in its buffer. -/
structure Rzipstream.Kept (stream : Rzipstream) (codec : Codec) : Prop where
  chunks : ∀ chunk ∈ stream.chunks, codec.Stores chunk
  buffer : stream.inBuf.length ≤ rzipDefaultChunkSize
  writing : stream.isWriting = true

variable {codec : Codec} {stream after : Rzipstream} {data : List UInt8}

theorem writeChunkData_kept (kept : stream.Kept codec) (given : data ≠ [])
    (short : data.length ≤ rzipDefaultChunkSize)
    (ran : rzipstreamWriteChunkData codec.accepts stream data = some after) :
    after.Kept codec ∧ after = { stream with chunks := stream.chunks ++ [data] } := by
  rw [rzipstreamWriteChunkData] at ran
  split at ran
  · rename_i packs
    cases ran
    have stores : ∀ chunk ∈ [data], codec.Stores chunk := forall_mem_singleton.2 ⟨packs, given, short⟩
    exact ⟨{ kept with chunks := forall_mem_append.2 ⟨kept.chunks, stores⟩ }, rfl⟩
  · cases ran

theorem writeChunk_kept (kept : stream.Kept codec) (given : stream.inBuf ≠ [])
    (ran : rzipstreamWriteChunk codec.accepts stream = some after) :
    after.Kept codec ∧ after.received = stream.received ∧ after.inBuf = [] := by
  obtain ⟨_, wrote, rfl⟩ := Option.map_eq_some_iff.1 ran
  obtain ⟨kept, rfl⟩ := writeChunkData_kept kept given kept.buffer wrote
  exact ⟨{ kept with buffer := Nat.zero_le _ }, by simp [Rzipstream.received], rfl⟩

/-- The loop takes all of what it is given, in order. -/
theorem writeLoop_kept {turns : Nat} (kept : stream.Kept codec) (enough : data.length ≤ turns)
    (ran : writeLoop codec.accepts turns stream data data.length = some (true, after)) :
    after.Kept codec ∧ after.received = stream.received ++ data := by
  -- The induction is on the turns; each one takes some bytes off the front.
  induction turns generalizing stream data with
  | zero =>
    obtain rfl := length_eq_zero_iff.1 (Nat.le_zero.1 enough)
    cases ran
    exact ⟨kept, (append_nil _).symm⟩
  | succ turns ih =>
    rw [writeLoop] at ran
    split at ran
    · rename_i none
      obtain rfl := length_eq_zero_iff.1 none
      cases ran
      exact ⟨kept, (append_nil _).symm⟩
    split at ran
    · cases ran
    rename_i middle emptied
    obtain ⟨kept, same, room⟩ : middle.Kept codec ∧ middle.received = stream.received ∧
        middle.inBuf.length < rzipDefaultChunkSize := by
      split at emptied
      · rename_i full
        have given : stream.inBuf ≠ [] := by rintro nothing; rw [nothing] at full; cases full
        obtain ⟨kept, same, empty⟩ := writeChunk_kept kept given emptied
        exact ⟨kept, same, by rw [empty]; decide⟩
      · cases emptied
        exact ⟨kept, rfl, by omega⟩
    rw [← same]
    split at ran
    · rename_i direct
      rw [if_neg (by omega)] at ran
      split at ran
      · cases ran
      rename_i written packs
      have size := length_take_of_le direct.2
      obtain ⟨kept, rfl⟩ := writeChunkData_kept kept (by rw [← length_pos_iff, size]; decide)
        (Nat.le_of_eq size) packs
      rw [← length_drop] at ran
      obtain ⟨kept, received⟩ := ih kept (by rw [length_drop, rzipDefaultChunkSize]; omega) ran
      exact ⟨kept, received.trans (by simp [Rzipstream.received, direct.1])⟩
    · dsimp only at ran
      rw [if_neg (by omega), ← length_drop] at ran
      generalize size : min (rzipDefaultChunkSize - middle.inBuf.length) data.length = cacheSize at ran
      have cached : ({ middle with inBuf := middle.inBuf ++ data.take cacheSize } :
          Rzipstream).Kept codec :=
        { kept with buffer := by rw [length_append, length_take]; omega }
      obtain ⟨kept, received⟩ := ih cached (by rw [length_drop]; omega) ran
      exact ⟨kept, received.trans (by simp [Rzipstream.received])⟩

/-- A piece that is written whole. -/
def Codec.write (codec : Codec) (stream : Rzipstream) (piece : List UInt8) : Option Rzipstream :=
  (rzipstreamWrite codec.accepts stream piece piece.length).bind fun (result, after) =>
    if result = piece.length then some after else none

theorem foldlM_kept {pieces : List (List UInt8)} (kept : stream.Kept codec)
    (ran : pieces.foldlM codec.write stream = some after) :
    after.Kept codec ∧ after.received = stream.received ++ pieces.flatten := by
  -- The induction follows the pieces.
  induction pieces generalizing stream with
  | nil =>
    cases ran
    exact ⟨kept, (append_nil _).symm⟩
  | cons piece rest ih =>
    obtain ⟨middle, wrote, ran⟩ := Option.bind_eq_some_iff.1 ran
    rw [Codec.write, rzipstreamWrite, if_neg (by simp [kept.writing])] at wrote
    obtain ⟨⟨_, _⟩, mapped, whole⟩ := Option.bind_eq_some_iff.1 wrote
    obtain ⟨⟨complete, _⟩, looped, same⟩ := Option.map_eq_some_iff.1 mapped
    cases same
    cases complete with
    | false =>
      dsimp only at whole
      rw [if_neg (by rw [if_neg Bool.false_ne_true]; omega)] at whole
      cases whole
    | true =>
      obtain rfl : _ = middle := Option.some.inj ((if_pos rfl).symm.trans whole)
      obtain ⟨kept, received⟩ := writeLoop_kept kept (Nat.le_refl _) looped
      obtain ⟨kept, all⟩ := ih kept ran
      exact ⟨kept, by rw [all, received, flatten_cons, append_assoc]⟩

/-- An archive that is read, before these bytes. -/
structure Reader.Reads (reader : Reader) (codec : Codec) (rest : List UInt8) : Prop where
  ahead : ∃ chunks : List (List UInt8), (∀ chunk ∈ chunks, codec.Stores chunk) ∧
    reader.file = chunks.flatMap codec.record ∧
    rest = reader.outBuf.drop reader.outBufPtr ++ chunks.flatten
  size : reader.size = reader.virtualPtr + rest.length
  chunkSize : reader.chunkSize = rzipDefaultChunkSize
  isCompressed : reader.isCompressed = true

variable {reader : Reader} {rest : List UInt8}

theorem readChunk_stored {chunk more : List UInt8} (stores : codec.Stores chunk)
    (size : reader.chunkSize = rzipDefaultChunkSize) (file : reader.file = codec.record chunk ++ more) :
    rzipstreamReadChunk codec reader =
      some { reader with file := more, outBuf := chunk, outBufPtr := 0 } := by
  obtain ⟨packs, given, short⟩ := stores
  obtain ⟨packed, packs⟩ := Option.isSome_iff_exists.1 packs
  obtain ⟨deflated, fits⟩ := Option.filter_eq_some_iff.1 packs
  obtain ⟨some_, fits⟩ := of_decide_eq_true fits
  have four := length_littleEndian 4 packed.length
  have value := fromBytes_littleEndian 4 (Nat.lt_of_le_of_lt fits (by decide))
  have enough : chunk.length ≤ rzipDefaultChunkSize + rzipDefaultChunkSize >>> 2 := by omega
  simp [rzipstreamReadChunk, file, Codec.record, chunkRecord, packs, size, four, take_left' four,
    drop_left' four, value, codec.inverse _ _ deflated, given, some_, fits, enough]

/-- There are bytes in the buffer after what a turn begins with. -/
theorem Reader.Reads.fetch (reads : reader.Reads codec rest) (more : rest ≠ []) : ∃ middle,
      (if reader.outBuf.length ≤ reader.outBufPtr then rzipstreamReadChunk codec reader
        else some reader) = some middle ∧
      middle.Reads codec rest ∧ middle.outBuf.drop middle.outBufPtr ≠ [] := by
  split
  · rename_i read
    obtain ⟨⟨chunks, stores, file, bytes⟩, size, chunkSize, isCompressed⟩ := reads
    rw [drop_of_length_le read, nil_append] at bytes
    cases chunks with
    | nil => exact absurd bytes more
    | cons chunk chunks =>
      obtain ⟨first, stores⟩ := forall_mem_cons.1 stores
      exact ⟨_, readChunk_stored first chunkSize file,
        ⟨⟨chunks, stores, rfl, bytes⟩, size, chunkSize, isCompressed⟩, first.2.1⟩
  · refine ⟨reader, rfl, reads, ?_⟩
    rw [← length_pos_iff, length_drop]
    omega

theorem Reader.Reads.copy (reads : reader.Reads codec rest) (len : Nat) : ∃ more,
      rest = (reader.outBuf.drop reader.outBufPtr).take len ++ more ∧
      Reader.Reads { reader with
        outBufPtr := reader.outBufPtr + ((reader.outBuf.drop reader.outBufPtr).take len).length
        virtualPtr := reader.virtualPtr + ((reader.outBuf.drop reader.outBufPtr).take len).length }
        codec more := by
  obtain ⟨⟨chunks, stores, file, rfl⟩, size, chunkSize, isCompressed⟩ := reads
  generalize window : reader.outBuf.drop reader.outBufPtr = ahead at size
  have behind : reader.outBuf.drop (reader.outBufPtr + (ahead.take len).length) = ahead.drop len := by
    rw [← drop_drop, window, length_take, drop_eq_drop_iff]; omega
  refine ⟨ahead.drop len ++ chunks.flatten, by rw [← append_assoc, take_append_drop],
    ⟨chunks, stores, file, by rw [behind]⟩, ?_, chunkSize, isCompressed⟩
  rw [← take_append_drop len ahead, append_assoc, length_append] at size
  exact size.trans (Nat.add_assoc ..).symm

theorem readLoop_reads {turns len : Nat} (reads : reader.Reads codec rest) (enough : len ≤ turns) :
    ∃ next, readLoop codec turns reader len = ((true, rest.take len), next) ∧
      next.Reads codec (rest.drop len) := by
  -- The induction is on the turns; a turn copies at least one byte.
  induction turns generalizing reader rest len with
  | zero =>
    obtain rfl := Nat.le_zero.1 enough
    exact ⟨reader, rfl, reads⟩
  | succ turns ih =>
    have size := reads.size
    rw [readLoop]
    by_cases done : len = 0 ∨ reader.size ≤ reader.virtualPtr
    · have nothing : rest.take len = [] ∧ rest.drop len = rest := by
        rcases done with rfl | done
        · exact ⟨rfl, rfl⟩
        · obtain rfl := length_eq_zero_iff.1 (show rest.length = 0 by omega)
          exact ⟨take_nil, drop_nil⟩
      rw [if_pos done, nothing.1, nothing.2]
      exact ⟨reader, rfl, reads⟩
    · obtain ⟨middle, fetched, reads, given⟩ := reads.fetch (by rw [← length_pos_iff]; omega)
      have positive := length_pos_iff.2 given
      obtain ⟨more, rfl, copied⟩ := reads.copy len
      rw [if_neg done, fetched]
      dsimp only
      generalize middle.outBuf.drop middle.outBufPtr = ahead at *
      have taken : (ahead.take len).length = min len ahead.length := length_take
      obtain ⟨next, ran, reads⟩ := @ih _ _ (len - (ahead.take len).length) copied (by omega)
      rw [ran, take_append, drop_append, take_of_length_le (length_take_le ..),
        drop_of_length_le (length_take_le ..), nil_append]
      exact ⟨next, rfl, reads⟩

/-- A file that was closed opens before all of its bytes, unless there are none. -/
theorem close_opens {file : List UInt8} (kept : stream.Kept codec)
    (few : stream.received.length < 2 ^ 64) (closed : rzipstreamClose codec stream = some file) :
    if stream.received = [] then rzipstreamReadFileHeader file = none
    else ∃ reader, rzipstreamReadFileHeader file = some reader ∧ reader.Reads codec stream.received := by
  obtain ⟨last, ended, rfl⟩ := Option.map_eq_some_iff.1 closed
  obtain ⟨kept, received, emptied⟩ : last.Kept codec ∧ last.received = stream.received ∧
      last.inBuf = [] := by
    split at ended
    · cases ended
      exact ⟨kept, rfl, ‹_›⟩
    · exact writeChunk_kept kept ‹_› ended
  rw [Rzipstream.received, emptied, append_nil] at received
  rw [readFileHeader_written few]
  by_cases nothing : stream.received = []
  · rw [if_pos nothing, nothing]
    rfl
  · rw [if_neg nothing, if_neg (mt length_eq_zero_iff.1 nothing)]
    exact ⟨_, rfl, ⟨last.chunks, kept.chunks, rfl, received.symm⟩, (Nat.zero_add _).symm, rfl, rfl⟩

/-- A read of bytes, as many as are asked for and there. -/
def sliced (rest : List UInt8) (len : Nat) : (Int × List UInt8) × List UInt8 :=
  (((rest.take len).length, rest.take len), rest.drop len)

theorem read_sliced (reads : reader.Reads codec rest) (len : Nat) :
    (rzipstreamRead codec reader len).1 = (sliced rest len).1 ∧
      (rzipstreamRead codec reader len).2.Reads codec (sliced rest len).2 := by
  obtain ⟨next, ran, after⟩ := readLoop_reads reads (Nat.le_refl len)
  rw [rzipstreamRead, if_pos reads.isCompressed, ran]
  exact ⟨rfl, after⟩

/-- What is written in any pieces and closed is read back in any pieces, in order and to its end. An
archive of no bytes does not open. -/
theorem archive_round_trip (codec : Codec)
    (pieces : { pieces : List (List UInt8) // pieces.flatten.length < 2 ^ 64 }) (lens : List Nat) :
    (((pieces.1.foldlM codec.write {}).bind (rzipstreamClose codec)).map fun file =>
      (rzipstreamReadFileHeader file).map (Transition.answers (rzipstreamRead codec) · lens)) =
      ((pieces.1.foldlM codec.write {}).bind (rzipstreamClose codec)).map fun _ =>
        if pieces.1.flatten = [] then none
        else some (Transition.answers sliced pieces.1.flatten lens) := by
  cases wrote : pieces.1.foldlM codec.write {} with
  | none => rfl
  | some stream =>
    have fresh : ({} : Rzipstream).Kept codec := ⟨by rintro _ ⟨⟩, Nat.zero_le _, rfl⟩
    obtain ⟨kept, received⟩ := foldlM_kept fresh wrote
    rw [show ({} : Rzipstream).received = [] from rfl, nil_append] at received
    rw [Option.bind_some, ← received]
    cases closed : rzipstreamClose codec stream with
    | none => rfl
    | some file =>
      have opens := close_opens kept (received ▸ pieces.2) closed
      rw [Option.map_some, Option.map_some]
      split at opens
      · rename_i nothing
        rw [opens, if_pos nothing]
        rfl
      · rename_i given
        obtain ⟨reader, opened, reads⟩ := opens
        rw [opened, if_neg given, Option.map_some]
        exact congrArg (fun answers => some (some answers)) (@Transition.answers_eq _ _ _ _ _ _
          (Reader.Reads · codec ·) (fun _ _ len reads => read_sliced reads len) lens _ _ reads)

section Parallel

open Function Nat

/-- What a thread and the writer hand each other, by the status of the slot. -/
inductive ParSlot
  | empty
  | ready (input : List UInt8)
  | done (out : List UInt8)
  | error

/-- The slots, how many chunks were dispatched and drained, and the chunks in the file. -/
structure Pool where
  slots : Nat → ParSlot
  dispatched : Nat := 0
  drained : Nat := 0
  failed : Bool := false
  file : List UInt8

/-- A call of rzipstream_write_chunks_parallel behind chunks that were written, with a thread a slot. -/
structure ParCall where
  codec : Codec
  data : List UInt8
  written : List (List UInt8)
  numSlots : Nat
  several : 2 ≤ numSlots

def ParCall.numChunks (call : ParCall) : Nat := call.data.length / rzipDefaultChunkSize

def chunkAt (data : List UInt8) (k : Nat) : List UInt8 :=
  (data.drop (k * rzipDefaultChunkSize)).take rzipDefaultChunkSize

variable (call : ParCall) (pool : Pool)

/-- Where the loop goes on. -/
abbrev ParCall.Running : Prop :=
  pool.drained < pool.dispatched ∨ pool.failed = false ∧ pool.dispatched < call.numChunks

abbrev ParCall.Dispatches : Prop :=
  pool.failed = false ∧ pool.dispatched < call.numChunks ∧ pool.dispatched - pool.drained < call.numSlots

def ParCall.drain (failed : Bool) (file : List UInt8) : Pool :=
  { pool with
    slots := update pool.slots (pool.drained % call.numSlots) .empty
    drained := pool.drained + 1
    failed, file }

/-- A turn of the loop dispatches a chunk or drains the oldest one, for which it waits. -/
def ParCall.writerTurn : Option Pool :=
  if ¬call.Running pool then none
  else if call.Dispatches pool then
    some { pool with
      slots := update pool.slots (pool.dispatched % call.numSlots)
        (.ready (chunkAt call.data pool.dispatched))
      dispatched := pool.dispatched + 1 }
  else
    match pool.slots (pool.drained % call.numSlots) with
    | .done out => some (call.drain pool pool.failed
        (if pool.failed then pool.file else pool.file ++ chunkRecord out))
    | .error => some (call.drain pool true pool.file)
    | _ => none

/-- A turn of rzipstream_par_worker on a chunk that was given to it. -/
def ParCall.workerTurn (index : Nat) : Option Pool :=
  match pool.slots index with
  | .ready input => some { pool with
      slots := update pool.slots index ((call.codec.pack input).elim .error .done) }
  | _ => none

/-- The turns of the writer and of the threads, in any order. -/
def ParCall.system : Transition.System Pool where
  start pool := ∃ slots, (∀ index, slots index = .empty) ∧
    pool = { slots, file := call.written.flatMap call.codec.record }
  step pool next := call.writerTurn pool = some next ∨
    ∃ index < call.numSlots, call.workerTurn pool index = some next

/-- What chunks add to a file in their order, up to the first that cannot be packed. -/
def emit (codec : Codec) (state : Bool × List UInt8) (chunk : List UInt8) : Bool × List UInt8 :=
  if state.1 || !codec.accepts [] chunk then (true, state.2) else (false, state.2 ++ codec.record chunk)

def emitAll (codec : Codec) (data : List UInt8) : Nat → Bool × List UInt8 → Bool × List UInt8
  | 0, state => state
  | k + 1, state => emitAll codec (data.drop rzipDefaultChunkSize) k
      (emit codec state (data.take rzipDefaultChunkSize))

variable {codec : Codec} {data : List UInt8} {written : List (List UInt8)} {k : Nat}

theorem emitAll_succ (state : Bool × List UInt8) :
    emitAll codec data (k + 1) state = emit codec (emitAll codec data k state) (chunkAt data k) := by
  induction k generalizing data state with
  | zero => rw [chunkAt, Nat.zero_mul]; rfl
  | succ k ih =>
    rw [emitAll, ih, chunkAt, drop_drop, add_comm, ← succ_mul]
    rfl

/-- What has become of a chunk in a slot. -/
def Codec.Job (codec : Codec) (chunk : List UInt8) : ParSlot → Prop
  | .empty => False
  | .ready input => input = chunk
  | .done out => codec.pack chunk = some out
  | .error => codec.pack chunk = none

/-- From the oldest one on, the slots have the jobs in flight and then none. The file is as the drained
chunks make it. -/
structure Pool.Sound (pool : Pool) (call : ParCall) : Prop where
  order : pool.drained ≤ pool.dispatched ∧ pool.dispatched ≤ call.numChunks
  room : pool.dispatched ≤ pool.drained + call.numSlots
  jobs : ∀ k, pool.drained ≤ k → k < pool.dispatched →
    call.codec.Job (chunkAt call.data k) (pool.slots (k % call.numSlots))
  idle : ∀ k, pool.dispatched ≤ k → k < pool.drained + call.numSlots →
    pool.slots (k % call.numSlots) = .empty
  file : emitAll call.codec call.data pool.drained (false, call.written.flatMap call.codec.record) =
    (pool.failed, pool.file)

variable {call : ParCall} {pool next : Pool}

/-- Slots of a window are apart, so that a change of one leaves the others. -/
theorem update_apart {slots : Nat → ParSlot} {slot : ParSlot} {n j : Nat} (first : Nat)
    (inside : first ≤ j ∧ j < first + n ∧ first ≤ k ∧ k < first + n) (other : j ≠ k) :
    update slots (k % n) slot (j % n) = slots (j % n) :=
  update_of_ne (fun same => other (mod_injOn_Ico first n
    (by simp [inside.1, inside.2.1]) (by simp [inside.2.2.1, inside.2.2.2]) same)) ..

theorem Pool.Sound.drain (sound : pool.Sound call) (more : pool.drained < pool.dispatched) {failed : Bool}
    {file : List UInt8} (emits : emit call.codec (pool.failed, pool.file)
      (chunkAt call.data pool.drained) = (failed, file)) : (call.drain pool failed file).Sound call := by
  obtain ⟨order, room, jobs, idle, emitted⟩ := sound
  refine ⟨⟨more, order.2⟩, le_trans room (by simp [ParCall.drain]), fun k above below => ?_,
    fun k above below => ?_, (emitAll_succ _).trans (emitted ▸ emits)⟩ <;>
    dsimp only [ParCall.drain] at above below ⊢
  · rw [update_apart pool.drained (by omega) (by omega)]
    exact jobs k (by omega) below
  · by_cases last : k = pool.drained + call.numSlots
    · rw [last, add_mod_right, update_self]
    · rw [update_apart pool.drained (by omega) (by omega)]
      exact idle k above (by omega)

/-- A call that goes on and cannot dispatch has a chunk to drain. -/
theorem ParCall.Running.more (running : call.Running pool) (full : ¬call.Dispatches pool) :
    pool.drained < pool.dispatched := by
  by_contra ended
  have several := call.several
  obtain ⟨going, less⟩ := running.resolve_left ended
  exact full ⟨going, less, by omega⟩

theorem Pool.Sound.writer (sound : pool.Sound call) (moves : call.writerTurn pool = some next) :
    next.Sound call := by
  obtain ⟨order, room, jobs, idle, file⟩ := id sound
  rw [ParCall.writerTurn] at moves
  split at moves
  · cases moves
  rename_i running
  split at moves
  · cases moves
    refine ⟨by dsimp only; omega, by dsimp only; omega, fun k above below => ?_,
      fun k above below => ?_, file⟩ <;>
      dsimp only at above below ⊢
    · by_cases fresh : k = pool.dispatched
      · rw [fresh, update_self]
        rfl
      · rw [update_apart pool.drained (by omega) fresh]
        exact jobs k above (by omega)
    · rw [update_apart pool.drained (by omega) (by omega)]
      exact idle k (by omega) below
  · rename_i full
    have more := (not_not.1 running).more full
    have oldest := jobs _ (le_refl _) more
    split at moves <;> rename_i at_
    · cases moves
      rw [at_] at oldest
      have packs : call.codec.pack (chunkAt call.data pool.drained) = some _ := oldest
      refine sound.drain more ?_
      cases pool.failed <;> simp [emit, Codec.accepts, Codec.record, packs]
    · cases moves
      rw [at_] at oldest
      have packs : call.codec.pack (chunkAt call.data pool.drained) = none := oldest
      exact sound.drain more (by simp [emit, Codec.accepts, packs])
    · cases moves

/-- A chunk of zeros, for two threads that store what they are given. -/
def zeros : ParCall :=
  ⟨⟨some, some, by rintro _ _ ⟨⟩; rfl⟩, .replicate rzipDefaultChunkSize 0, [], 2, le_refl 2⟩

end Parallel

end Libretro.Rzip
