import Mathlib.Data.List.Basic
import Mathlib.Data.Vector.Defs

/-! Text that is printed into a compressed archive, through a buffer of fixed size. -/

namespace Libretro.Rzip

open List hiding Vector

/-- The size of the buffer that text is formatted in. -/
def bufferSize : Nat := 8 * 1024

def rzipDefaultChunkSize : Nat := 131072

/-- An archive that is written: its chunks, and the input buffer up to `in_buf_ptr`. -/
structure Rzipstream where
  chunks : List (List UInt8) := []
  inBuf : List UInt8 := []
  isWriting : Bool := true

/-- What the archive was given so far. -/
def Rzipstream.received (stream : Rzipstream) : List UInt8 := stream.chunks.flatten ++ stream.inBuf

-- Whether a chunk can be compressed and written behind others.
variable (accepts : List (List UInt8) → List UInt8 → Bool)

def rzipstreamWriteChunkData (stream : Rzipstream) (data : List UInt8) : Option Rzipstream :=
  if accepts stream.chunks data then some { stream with chunks := stream.chunks ++ [data] } else none

/-- What is cached becomes the next chunk. -/
def rzipstreamWriteChunk (stream : Rzipstream) : Option Rzipstream :=
  (rzipstreamWriteChunkData accepts stream stream.inBuf).map ({ · with inBuf := [] })

/-- The loop of `rzipstream_write` over the memory behind `data_ptr`, for as many turns as there are
bytes; nothing where it reads behind the memory. -/
def writeLoop : Nat → Rzipstream → List UInt8 → Nat → Option (Bool × Rzipstream)
  | 0, stream, _, _ => some (true, stream)
  | turns + 1, stream, data, len =>
    if len = 0 then some (true, stream)
    else
      match if rzipDefaultChunkSize ≤ stream.inBuf.length then rzipstreamWriteChunk accepts stream
        else some stream with
      | none => some (false, stream)
      | some stream =>
        if stream.inBuf = [] ∧ rzipDefaultChunkSize ≤ len then
          -- A whole chunk is compressed from the caller's memory.
          if data.length < rzipDefaultChunkSize then none
          else
            match rzipstreamWriteChunkData accepts stream (data.take rzipDefaultChunkSize) with
            | none => some (false, stream)
            | some stream => writeLoop turns stream
                (data.drop rzipDefaultChunkSize) (len - rzipDefaultChunkSize)
        else
          let cacheSize := min (rzipDefaultChunkSize - stream.inBuf.length) len
          if data.length < cacheSize then none
          else
            writeLoop turns { stream with inBuf := stream.inBuf ++ data.take cacheSize }
              (data.drop cacheSize) (len - cacheSize)

def rzipstreamWrite (stream : Rzipstream) (data : List UInt8) (len : Nat) : Option (Int × Rzipstream) :=
  if stream.isWriting = false then some (-1, stream)
  else (writeLoop accepts len stream data len).map fun (complete, stream) =>
    (if complete then (len : Int) else -1, stream)

/-- What vsnprintf leaves of a buffer. -/
def formattedInto (buffer : Vector UInt8 bufferSize) (text : List UInt8) : List UInt8 :=
  text.take (bufferSize - 1) ++ 0 :: buffer.toList.drop ((text.take (bufferSize - 1)).length + 1)

/-- The text that the arguments give is printed, or nothing if they cannot be formatted. -/
def rzipstreamVprintf (buffer : Vector UInt8 bufferSize) (stream : Rzipstream) :
    Option (List UInt8) → Option (Int × Rzipstream)
  | none => some (-1, stream)
  | some text =>
    if text = [] then some (0, stream)
    else rzipstreamWrite accepts stream (formattedInto buffer text) text.length

/-- No byte is read behind the buffer, and the archive is given all of the text or, on an error, none. -/
def Printed (buffer : Vector UInt8 bufferSize) (stream : Rzipstream) (formatted : Option (List UInt8)) :
    Prop :=
  ∃ result after, rzipstreamVprintf accepts buffer stream formatted = some (result, after) ∧
    ((∃ text, formatted = some text ∧ result = text.length ∧
        after.received = stream.received ++ text) ∨ result = -1 ∧ after.received = stream.received)

/-- Whether the buffer has a text as it is: it is shorter, or as long and ends in a zero. -/
def Whole (text : List UInt8) : Prop := text.length < bufferSize ∨ text = text.take (bufferSize - 1) ++ [0]

/-- The archive can be given a text: a full input buffer is not emptied or the text is whole, and
what the text completes of a buffer that is not full can be written. -/
def Takes (stream : Rzipstream) (text : List UInt8) : Prop :=
  if rzipDefaultChunkSize ≤ stream.inBuf.length then
    accepts stream.chunks stream.inBuf = true → Whole text
  else
    let room := rzipDefaultChunkSize - stream.inBuf.length
    Whole text ∧ (room < text.length → accepts stream.chunks (stream.inBuf ++ text.take room) = true)

variable {accepts : List (List UInt8) → List UInt8 → Bool} {stream after : Rzipstream}
  {buffer : Vector UInt8 bufferSize} {data text : List UInt8} {turns len : Nat}

/-- A turn on a buffer that is not full caches what fits it, if the memory is shorter than a chunk. -/
theorem writeLoop_turn (given : 0 < len) (room : stream.inBuf.length < rzipDefaultChunkSize)
    (small : data.length < rzipDefaultChunkSize) :
    writeLoop accepts (turns + 1) stream data len =
      let cacheSize := min (rzipDefaultChunkSize - stream.inBuf.length) len
      if data.length < cacheSize then none
      else writeLoop accepts turns { stream with inBuf := stream.inBuf ++ data.take cacheSize }
        (data.drop cacheSize) (len - cacheSize) := by
  rw [writeLoop, if_neg (Nat.ne_of_gt given), if_neg (Nat.not_le.mpr room)]
  dsimp only
  split
  · rename_i whole
    rw [whole.1, length_nil, if_pos (by omega)]
  · rfl

/-- A full input buffer becomes a chunk before anything else, or nothing is taken. -/
theorem writeLoop_full (given : 0 < len) (full : rzipDefaultChunkSize ≤ stream.inBuf.length) :
    writeLoop accepts (turns + 1) stream data len =
      if accepts stream.chunks stream.inBuf then writeLoop accepts (turns + 1)
        { stream with chunks := stream.chunks ++ [stream.inBuf], inBuf := [] } data len
      else some (false, stream) := by
  rw [writeLoop, writeLoop, if_neg (Nat.ne_of_gt given), if_neg (Nat.ne_of_gt given), if_pos full,
    if_neg (nofun : ¬rzipDefaultChunkSize ≤ [].length), rzipstreamWriteChunk, rzipstreamWriteChunkData]
  by_cases accepted : accepts stream.chunks stream.inBuf = true
  · rw [if_pos accepted, if_pos accepted]
    rfl
  · rw [if_neg accepted, if_neg accepted]
    rfl

theorem writeLoop_none : writeLoop accepts turns stream data 0 = some (true, stream) := by
  cases turns <;> rfl

/-- What becomes of bytes in a memory shorter than a chunk: they complete one chunk at most. -/
theorem writeLoop_short {room : Nat} (size : stream.inBuf.length + room = rzipDefaultChunkSize)
    (some_ : 0 < room) (small : data.length < rzipDefaultChunkSize) (enough : len ≤ turns) :
    writeLoop accepts turns stream data len = if data.length < min room len then none
      else if len ≤ room then some (true, { stream with inBuf := stream.inBuf ++ data.take len })
      else if accepts stream.chunks (stream.inBuf ++ data.take room) then
        if data.length < len then none
        else some (true, { stream with
          chunks := stream.chunks ++ [stream.inBuf ++ data.take room]
          inBuf := (data.take len).drop room })
      else some (false, { stream with inBuf := stream.inBuf ++ data.take room }) := by
  have room_ : rzipDefaultChunkSize - stream.inBuf.length = room := by omega
  rcases Nat.eq_zero_or_pos len with rfl | given
  · simp [writeLoop_none]
  obtain ⟨turns, rfl⟩ : ∃ less, turns = less + 1 := ⟨turns - 1, by omega⟩
  rw [writeLoop_turn given (by omega) small, room_]
  dsimp only
  split
  · rfl
  rename_i inside
  by_cases fits : len ≤ room
  · rw [if_pos fits, Nat.min_eq_right fits, Nat.sub_self, writeLoop_none]
  · rw [if_neg fits, Nat.min_eq_left (Nat.le_of_not_le fits)]
    rw [Nat.min_eq_left (Nat.le_of_not_le fits)] at inside
    obtain ⟨turns, rfl⟩ : ∃ less, turns = less + 1 := ⟨turns - 1, by omega⟩
    -- The next turn finds the buffer full.
    rw [writeLoop_full (by omega) (by
      rw [length_append, length_take, Nat.min_eq_left (Nat.le_of_not_lt inside)]
      exact Nat.le_of_eq size.symm)]
    split
    · have empty : ([] : List UInt8).length < rzipDefaultChunkSize := by decide
      have less : (data.drop room).length < rzipDefaultChunkSize := by rw [length_drop]; omega
      rw [writeLoop_turn (by omega) empty less]
      dsimp only
      rw [length_nil, Nat.sub_zero, length_drop, nil_append, drop_take]
      by_cases past : data.length < len
      · rw [if_pos past, if_pos (by omega)]
      · rw [if_neg past, if_neg (by omega), Nat.min_eq_right (by omega), Nat.sub_self, writeLoop_none]
    · rfl

theorem length_formattedInto (buffer : Vector UInt8 bufferSize) (text : List UInt8) :
    (formattedInto buffer text).length = bufferSize := by
  have size : (0 : Nat) < bufferSize := by decide
  rw [formattedInto, length_append, length_cons, length_drop, length_take, Vector.length_toList]
  omega

theorem whole_iff (buffer : Vector UInt8 bufferSize) :
    Whole text ↔ text.length ≤ bufferSize ∧ (formattedInto buffer text).take text.length = text := by
  have size : (0 : Nat) < bufferSize := by decide
  rw [Whole, formattedInto]
  by_cases short : text.length < bufferSize
  · simp [short, Nat.le_of_lt, take_of_length_le (show text.length ≤ bufferSize - 1 by omega)]
  · have length : (text.take (bufferSize - 1)).length + 1 = bufferSize := by
      rw [length_take]
      omega
    rw [length, drop_of_length_le (Nat.le_of_eq (Vector.length_toList ..))]
    constructor
    · rintro (less | whole)
      · exact absurd less short
      · have long : text.length = bufferSize := by rw [whole]; simpa using length
        exact ⟨Nat.le_of_eq long, by rw [← whole, take_length]⟩
    · rintro ⟨most, same⟩
      rw [take_of_length_le (by rw [length_append, length_singleton]; omega)] at same
      exact .inr same.symm

/-- The loop ends with all of the text or with none of it. -/
def LoopPrints (accepts : List (List UInt8) → List UInt8 → Bool) (stream : Rzipstream)
    (data text : List UInt8) : Prop :=
  ∃ complete after, writeLoop accepts text.length stream data text.length = some (complete, after) ∧
    after.received = if complete then stream.received ++ text else stream.received

theorem loop_ended {complete : Bool} (bytes : List UInt8)
    (received : after.received = stream.received ++ bytes) :
    (∃ complete' after', some (complete, after) = some (complete', after') ∧
      after'.received = if complete' then stream.received ++ text else stream.received) ↔
        bytes = if complete then text else [] := by
  cases complete <;> simp [received]

theorem loopPrints_iff {room : Nat} (size : stream.inBuf.length + room = rzipDefaultChunkSize)
    (some_ : 0 < room) :
    LoopPrints accepts stream (formattedInto buffer text) text ↔ Whole text ∧
      (room < text.length → accepts stream.chunks (stream.inBuf ++ text.take room) = true) := by
  have bytes := length_formattedInto buffer text
  rw [LoopPrints, writeLoop_short size some_ (by rw [bytes]; decide) (Nat.le_refl _), whole_iff buffer]
  generalize formattedInto buffer text = data at bytes
  rw [← bytes]
  by_cases outside : data.length < min room text.length
  · rw [if_pos outside]
    constructor
    · rintro ⟨_, _, ⟨⟩, _⟩
    · rintro ⟨⟨inside, -⟩, -⟩
      omega
  rw [if_neg outside]
  by_cases fits : text.length ≤ room
  · rw [if_pos fits, loop_ended (data.take text.length) (by simp [Rzipstream.received])]
    exact ⟨fun same => ⟨⟨by omega, same⟩, fun less => absurd fits (Nat.not_le.mpr less)⟩,
      fun whole => whole.1.2⟩
  have front : data.take text.length = text → text.take room = data.take room := by
    intro same
    have same := congrArg (List.take room) same
    rwa [take_take, Nat.min_eq_left (by omega), eq_comm] at same
  rw [if_neg fits]
  by_cases accepted : accepts stream.chunks (stream.inBuf ++ data.take room) = true
  · rw [if_pos accepted]
    by_cases past : data.length < text.length
    · rw [if_pos past]
      constructor
      · rintro ⟨_, _, ⟨⟩, _⟩
      · rintro ⟨⟨inside, -⟩, -⟩
        omega
    · have parts : data.take room ++ (data.take text.length).drop room = data.take text.length := by
        rw [← take_append_drop room (data.take text.length), take_take,
          Nat.min_eq_left (by omega), drop_left' (by rw [length_take]; omega)]
      rw [if_neg past, loop_ended (data.take text.length) (by simp [Rzipstream.received, parts])]
      exact ⟨fun same => ⟨⟨by omega, same⟩, fun _ => front same ▸ accepted⟩, fun whole => whole.1.2⟩
  · rw [if_neg accepted, loop_ended (data.take room) (by simp [Rzipstream.received])]
    constructor
    · intro nothing
      have length := congrArg List.length nothing
      rw [if_neg nofun, length_take, length_nil] at length
      omega
    · rintro ⟨⟨-, same⟩, all⟩
      exact absurd (front same ▸ all (by omega)) accepted

/-- A full buffer is emptied first. -/
theorem loopPrints_takes (given : text ≠ []) :
    LoopPrints accepts stream (formattedInto buffer text) text ↔ Takes accepts stream text := by
  rw [Takes]
  split
  · rename_i full
    have length := Nat.sub_add_cancel (length_pos_iff.mpr given)
    rw [LoopPrints, ← length, writeLoop_full (length ▸ Nat.succ_pos _) full, length]
    by_cases accepted : accepts stream.chunks stream.inBuf = true
    · have emptied := @loopPrints_iff accepts
        { stream with chunks := stream.chunks ++ [stream.inBuf], inBuf := [] } buffer text
          rzipDefaultChunkSize (Nat.zero_add _) (by decide)
      have same : ({ stream with chunks := stream.chunks ++ [stream.inBuf], inBuf := [] } :
        Rzipstream).received = stream.received := by simp [Rzipstream.received]
      rw [LoopPrints, same] at emptied
      rw [if_pos accepted, emptied]
      refine ⟨fun whole _ => whole.1, fun whole => ⟨whole accepted, fun less => ?_⟩⟩
      have most := ((whole_iff buffer).1 (whole accepted)).1
      exact absurd (Nat.lt_of_lt_of_le less most) (by decide)
    · rw [if_neg accepted, loop_ended [] (append_nil _).symm]
      exact ⟨fun _ accepted' => absurd accepted' accepted, fun _ => rfl⟩
  · exact loopPrints_iff (by omega) (by omega)

/-- A text on an archive that is written goes through the loop. -/
theorem printed_takes (given : text ≠ []) (writing : stream.isWriting = true) :
    Printed accepts buffer stream (some text) ↔ Takes accepts stream text := by
  have open_ : ¬stream.isWriting = false := by simp [writing]
  rw [Printed, rzipstreamVprintf, if_neg given, rzipstreamWrite, if_neg open_,
    ← @loopPrints_takes accepts stream buffer text given, LoopPrints]
  constructor
  · rintro ⟨_, after, ran, right⟩
    obtain ⟨⟨complete, _⟩, loop, same⟩ := Option.map_eq_some_iff.1 ran
    obtain ⟨rfl, rfl⟩ := Prod.mk.inj same
    refine ⟨complete, _, loop, ?_⟩
    cases complete <;> simp_all
  · rintro ⟨complete, after, ran, received⟩
    rw [ran]
    refine ⟨_, _, rfl, ?_⟩
    cases complete with
    | false => exact .inr ⟨rfl, received⟩
    | true => exact .inl ⟨text, rfl, rfl, received⟩

/-- What is printed is the text or nothing just if there is no text or the archive takes it. -/
theorem printed_iff (buffer : Vector UInt8 bufferSize) (stream : Rzipstream)
    (formatted : Option (List UInt8)) :
    Printed accepts buffer stream formatted ↔
      stream.isWriting = false ∨ ∀ text ∈ formatted, text = [] ∨ Takes accepts stream text := by
  cases formatted with
  | none => exact ⟨fun _ => .inr (by rintro _ ⟨⟩), fun _ => ⟨-1, stream, rfl, .inr ⟨rfl, rfl⟩⟩⟩
  | some text =>
    simp only [Option.mem_some_iff, forall_eq']
    by_cases empty : text = []
    · rw [Printed, rzipstreamVprintf, if_pos empty]
      exact ⟨fun _ => .inr (.inl empty), fun _ => ⟨_, _, rfl, .inl ⟨_, rfl, by simp [empty]⟩⟩⟩
    rw [or_iff_right empty]
    by_cases reading : stream.isWriting = false
    · rw [Printed, rzipstreamVprintf, if_neg empty, rzipstreamWrite, if_pos reading]
      exact ⟨fun _ => .inl reading, fun _ => ⟨_, _, rfl, .inr ⟨rfl, rfl⟩⟩⟩
    · rw [or_iff_right reading, printed_takes empty (by simpa using reading)]

/-- A text that is one byte longer than the buffer. -/
theorem text_truncated : ¬Printed (fun _ _ => true) (.replicate bufferSize 0) {}
    (some (.replicate 8193 0x61)) := by
  rw [printed_takes (by decide +kernel) rfl, Takes, if_neg (by decide)]
  rintro ⟨short | same, -⟩
  · rw [length_replicate] at short
    exact absurd short (by decide)
  · have length := congrArg List.length same
    rw [length_append, length_take, length_replicate, length_singleton] at length
    exact absurd length (by decide)

end Libretro.Rzip
