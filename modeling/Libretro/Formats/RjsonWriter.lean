import Libretro.Formats.RjsonDocuments

/-! The writer, what of a string it emits, and its buffer over a callback that may fall short. -/

namespace Libretro.Rjson

open JsonText List

/-- A writer over a callback that takes whatever it is given. -/
structure Writer where
  buf : List UInt8
  bufCap : Nat := 1024
  -- What the callback has been given so far.
  output : List UInt8 := []
  skipWhitespace : Bool := false
deriving DecidableEq

/-- The buffer is handed to the callback. -/
def writerFlush (writer : Writer) : Writer := { writer with output := writer.output ++ writer.buf, buf := [] }

/-- Whether a byte compares greater than a blank, plain characters having a sign. -/
def aboveBlank (c : UInt8) : Bool := 0x20 < c ∧ c < 0x80

/-- Bytes are appended, but for a single blank where blanks are to be skipped. -/
def writerRaw (writer : Writer) (bytes : List UInt8) : Writer :=
  let writer := if writer.buf.length + bytes.length > writer.bufCap then writerFlush writer else writer
  match bytes with
  | [c] =>
    if aboveBlank c ∨ ¬ writer.skipWhitespace then { writer with buf := writer.buf ++ [c] }
    else writer
  | _ =>
    let add := min (writer.bufCap - writer.buf.length) bytes.length
    let writer := { writer with buf := writer.buf ++ bytes.take add }
    if bytes.length = add then writer
    else
      let writer := writerFlush writer
      let rest := bytes.drop add
      if writer.buf.length + rest.length ≤ writer.bufCap then
        { writer with buf := writer.buf ++ rest }
      else { writer with output := writer.output ++ rest }

/-- A hexadecimal digit. -/
def digitChar (digit : Nat) : UInt8 := if digit < 10 then .ofNat (0x30 + digit) else .ofNat (0x57 + digit)

/-- The escape of a character. -/
def escapeText (c : UInt8) : List UInt8 :=
  if c = 0x08 then [0x5C, 0x62]
  else if c = 0x09 then [0x5C, 0x74]
  else if c = 0x0A then [0x5C, 0x6E]
  else if c = 0x0C then [0x5C, 0x66]
  else if c = 0x0D then [0x5C, 0x72]
  else if c = 0x22 then [0x5C, 0x22]
  else if c = 0x5C then [0x5C, 0x5C]
  else if c = 0x2F then [0x5C, 0x2F]
  else
    [0x5C, 0x75, 0x30, 0x30, digitChar (c.toNat / 16), digitChar (c.toNat % 16)]

/-- An escape is written. -/
def writerAddEscaped (writer : Writer) (c : UInt8) : Writer := writerRaw writer (escapeText c)

/-- Whether a character is written as it is; a slash is not, right behind a less-than sign. -/
def standsRaw (previous : Option UInt8) (c : UInt8) : Bool :=
  0x20 ≤ c ∧ c ≠ 0x22 ∧ c ≠ 0x5C ∧ (c ≠ 0x2F ∨ previous ≠ some 0x3C)

/-- A run is written, if there is one. -/
def writerRun (writer : Writer) (raw : List UInt8) : Writer :=
  if raw ≠ [] then writerRaw writer raw else writer

/-- The characters of a string, behind a run that is still to be written. -/
def writerLoop (writer : Writer) (previous : Option UInt8) (raw : List UInt8) : List UInt8 → Writer
  | [] => writerRun writer raw
  | c :: rest =>
    if standsRaw previous c then writerLoop writer (some c) (raw ++ [c]) rest
    else writerLoop (writerAddEscaped (writerRun writer raw) c) (some c) [] rest

/-- A string of known length is written. -/
def writerAddStringLen (writer : Writer) (value : List UInt8) : Writer :=
  writerRaw (writerLoop (writerRaw writer [0x22]) none [] value) [0x22]

/-- A string up to its first zero is written, or an empty one for a null pointer. -/
def writerAddString (writer : Writer) : Option (List UInt8) → Writer
  | none => writerRaw (writerRaw writer [0x22]) [0x22]
  | some memory => writerRaw (writerLoop (writerRaw writer [0x22]) none [] (memory.takeWhile (· ≠ 0))) [0x22]

variable {writer : Writer} {bytes raw value : List UInt8}

/-- All that was written. -/
def Writer.emitted (writer : Writer) : List UInt8 := writer.output ++ writer.buf

/-- What is left of bytes that are written at once. -/
def kept (skipWhitespace : Bool) : List UInt8 → List UInt8
  | [c] => if aboveBlank c ∨ ¬ skipWhitespace then [c] else []
  | bytes => bytes

theorem writerFlush_emitted (writer : Writer) : (writerFlush writer).emitted = writer.emitted := by
  unfold writerFlush Writer.emitted
  rw [append_nil]

theorem writerRaw_emitted (writer : Writer) (bytes : List UInt8) :
    (writerRaw writer bytes).emitted = writer.emitted ++ kept writer.skipWhitespace bytes ∧
      (writerRaw writer bytes).skipWhitespace = writer.skipWhitespace := by
  have flushed : ∀ full : Prop, ∀ [Decidable full],
      (if full then writerFlush writer else writer).emitted = writer.emitted ∧
        (if full then writerFlush writer else writer).skipWhitespace = writer.skipWhitespace := by
    intro full _
    split
    · exact ⟨writerFlush_emitted writer, rfl⟩
    · exact ⟨rfl, rfl⟩
  obtain ⟨same, sameOption⟩ := flushed (writer.buf.length + bytes.length > writer.bufCap)
  unfold writerRaw
  generalize (if writer.buf.length + bytes.length > writer.bufCap then writerFlush writer
    else writer) = roomy at same sameOption ⊢
  rw [← same, ← sameOption]
  dsimp only
  split
  · -- A single byte.
    rename_i c
    have single : kept roomy.skipWhitespace [c] =
        if aboveBlank c ∨ ¬ roomy.skipWhitespace then [c] else [] := rfl
    rw [single]
    split
    · exact ⟨(append_assoc _ _ _).symm, rfl⟩
    · exact ⟨(append_nil _).symm, rfl⟩
  · rename_i several
    have all : kept roomy.skipWhitespace bytes = bytes := by
      unfold kept
      split
      · exact absurd rfl (several _)
      · rfl
    rw [all]
    generalize min (roomy.bufCap - roomy.buf.length) bytes.length = add
    split
    · rename_i fits
      unfold Writer.emitted
      rw [← fits, take_length, append_assoc]
      exact ⟨rfl, rfl⟩
    · have parts := take_append_drop add bytes
      split
      · unfold Writer.emitted writerFlush
        dsimp only
        rw [nil_append, append_assoc, append_assoc, parts, append_assoc]
        exact ⟨rfl, rfl⟩
      · unfold Writer.emitted writerFlush
        dsimp only
        rw [append_nil, append_assoc, append_assoc, parts, append_assoc]
        exact ⟨rfl, rfl⟩

/-- A run of bytes that say themselves, or an escape of a character. -/
inductive Chunk where
  | run (bytes : List UInt8)
  | escape (c : UInt8)
deriving DecidableEq

/-- What is written for a chunk. -/
def Chunk.text : Chunk → List UInt8
  | .run bytes => bytes
  | .escape c => escapeText c

/-- What a chunk says. -/
def Chunk.meaning : Chunk → List UInt8
  | .run bytes => bytes
  | .escape c => [c]

/-- A run, if there is one. -/
def runChunk (raw : List UInt8) : List Chunk := if raw ≠ [] then [.run raw] else []

/-- The longest runs of a string and the escapes between them. -/
def chunks (previous : Option UInt8) (raw : List UInt8) : List UInt8 → List Chunk
  | [] => runChunk raw
  | c :: rest =>
    if standsRaw previous c then chunks (some c) (raw ++ [c]) rest
    else runChunk raw ++ .escape c :: chunks (some c) [] rest

/-- What is emitted for chunks. -/
def emittedText (skipWhitespace : Bool) (parts : List Chunk) : List UInt8 :=
  parts.flatMap fun chunk => kept skipWhitespace chunk.text

theorem writerRun_emitted (writer : Writer) (raw : List UInt8) : (writerRun writer raw).emitted =
        writer.emitted ++ emittedText writer.skipWhitespace (runChunk raw) ∧
      (writerRun writer raw).skipWhitespace = writer.skipWhitespace := by
  unfold writerRun runChunk emittedText
  split
  · have written := writerRaw_emitted writer raw
    rwa [flatMap_singleton]
  · exact ⟨(append_nil _).symm, rfl⟩

theorem writerLoop_emitted (writer : Writer) (previous : Option UInt8) (raw value : List UInt8) :
    (writerLoop writer previous raw value).emitted =
        writer.emitted ++ emittedText writer.skipWhitespace (chunks previous raw value) ∧
      (writerLoop writer previous raw value).skipWhitespace = writer.skipWhitespace := by
  induction value generalizing writer previous raw with
  | nil => exact writerRun_emitted writer raw
  | cons c rest ih =>
    unfold writerLoop chunks
    split
    · exact ih writer (some c) (raw ++ [c])
    · -- The run before the escape is written first.
      obtain ⟨run, sameRun⟩ := writerRun_emitted writer raw
      obtain ⟨escape, sameEscape⟩ := writerRaw_emitted (writerRun writer raw) (escapeText c)
      obtain ⟨later, sameLater⟩ := ih (writerAddEscaped (writerRun writer raw) c) (some c) []
      unfold writerAddEscaped at later sameLater ⊢
      rw [later, sameLater, escape, sameEscape, run, sameRun]
      unfold emittedText
      rw [flatMap_append, flatMap_cons, append_assoc, append_assoc]
      exact ⟨rfl, rfl⟩

theorem writerAddStringLen_emitted (writer : Writer) (value : List UInt8) :
    (writerAddStringLen writer value).emitted = writer.emitted ++
        0x22 :: (emittedText writer.skipWhitespace (chunks none [] value) ++ [0x22]) := by
  have quote : ∀ skipWhitespace, kept skipWhitespace [0x22] = [0x22] := by
    intro skipWhitespace
    cases skipWhitespace <;> rfl
  obtain ⟨opening, sameOpening⟩ := writerRaw_emitted writer [0x22]
  obtain ⟨inside, sameInside⟩ := writerLoop_emitted (writerRaw writer [0x22]) none [] value
  obtain ⟨closing, -⟩ := writerRaw_emitted (writerLoop (writerRaw writer [0x22]) none [] value) [0x22]
  unfold writerAddStringLen
  rw [closing, inside, opening, sameOpening, quote, quote]
  simp

theorem writerAddString_eq (writer : Writer) (memory : List UInt8) : writerAddString writer (some memory) =
      writerAddStringLen writer (memory.takeWhile (· ≠ 0)) := rfl

/-- A writer and the blocks that the callback was handed. -/
structure CallbackWriter where
  buf : List UInt8 := []
  bufCap : Nat := 1024
  errorText : Option String := none
  skipWhitespace : Bool := false
  blocks : List (List UInt8) := []

-- Whether the callback takes the whole of the block that it is handed in its n-th call.
variable (accepts : Nat → Bool)

/-- A block is handed to the callback. -/
def callbackIo (writer : CallbackWriter) (block : List UInt8) : CallbackWriter :=
  let handed := { writer with blocks := writer.blocks ++ [block] }
  if accepts writer.blocks.length then handed else { handed with errorText := some "output error" }

def rjsonwriterFlush (writer : CallbackWriter) : CallbackWriter :=
  let emptied := { writer with buf := [] }
  if writer.buf ≠ [] ∧ writer.errorText = none then callbackIo accepts emptied writer.buf else emptied

/-- Bytes are put behind the others. -/
def CallbackWriter.add (writer : CallbackWriter) (bytes : List UInt8) : CallbackWriter :=
  { writer with buf := writer.buf ++ bytes }

/-- What did not fit the buffer is put into it, or handed on directly if it does not fit again. -/
def writeRest (writer : CallbackWriter) (rest : List UInt8) : CallbackWriter :=
  if writer.buf.length + rest.length ≤ writer.bufCap then writer.add rest else callbackIo accepts writer rest

/-- What is written once the buffer has been flushed if it had to be. -/
def rawBehind (writer : CallbackWriter) : List UInt8 → CallbackWriter
  | [c] => if aboveBlank c ∨ ¬writer.skipWhitespace then writer.add [c] else writer
  | bytes =>
    let add := min (writer.bufCap - writer.buf.length) bytes.length
    let writer := writer.add (bytes.take add)
    if bytes.length = add then writer
    else writeRest accepts (rjsonwriterFlush accepts writer) (bytes.drop add)

def rjsonwriterRaw (writer : CallbackWriter) (bytes : List UInt8) : CallbackWriter :=
  rawBehind accepts (if writer.bufCap < writer.buf.length + bytes.length then
    rjsonwriterFlush accepts writer else writer) bytes

def rjsonMaxSize : Nat := 256 * 1024 * 1024

/-- An error is noted unless there is one. -/
def CallbackWriter.fail (writer : CallbackWriter) (text : String) : CallbackWriter :=
  { writer with errorText := writer.errorText.or (some text) }

-- Whether memory of a size is granted.
variable (grants : Nat → Bool)

/-- The text that the arguments give is written, or nothing if they cannot be formatted. -/
def rjsonwriterRawf (writer : CallbackWriter) (formatted : Option (List UInt8)) : CallbackWriter :=
  let writer := if writer.bufCap ≤ writer.buf.length + 16 then rjsonwriterFlush accepts writer else writer
  let available := writer.bufCap - writer.buf.length
  match formatted with
  | none | some [] => writer
  | some text =>
    if text.length < available then writer.add text
    else
      let writer := rjsonwriterFlush accepts writer
      let newcap := writer.buf.length + text.length + 1
      if rjsonMaxSize < newcap then writer.fail "output buffer too large"
      else if writer.bufCap < newcap then
        if grants newcap then { writer with bufCap := newcap }.add text
        else writer.fail "out of memory"
      else writer.add text

/-- A call that writes. -/
inductive Write where
  | raw (bytes : List UInt8)
  | rawf (formatted : Option (List UInt8))
  | flush

/-- What the call writes. -/
def Write.fragment : Write → List UInt8
  | .raw bytes => bytes
  | .rawf formatted => formatted.getD []
  | .flush => []

def Write.step (writer : CallbackWriter) : Write → CallbackWriter
  | .raw bytes => rjsonwriterRaw accepts writer bytes
  | .rawf formatted => rjsonwriterRawf accepts grants writer formatted
  | .flush => rjsonwriterFlush accepts writer

/-- A fragment that is longer than two buffers comes while there is no error, and what is flushed before
its rest is handed on directly is taken; memory is granted for a text that does not fit. -/
def Write.Meets (writer : CallbackWriter) : Write → Prop
  | .raw bytes => 2 * writer.bufCap < bytes.length → writer.errorText = none ∧
      ∀ n < writer.blocks.length + if writer.buf = [] then 1 else 2, accepts n = true
  | .rawf formatted => ∀ text ∈ formatted, text.length < rjsonMaxSize ∧ grants (text.length + 1) = true
  | .flush => True

/-- Every call of a run meets its condition. -/
def MeetAll (writer : CallbackWriter) : List Write → Prop
  | [] => True
  | write :: writes => write.Meets accepts grants writer ∧
      MeetAll (write.step accepts grants writer) writes

/-- Only the last block may not have been taken, and then there is an error; else the blocks and the
buffer are what was written. -/
structure Sound (given : List UInt8) (writer : CallbackWriter) : Prop where
  plain : writer.skipWhitespace = false
  front : ∀ n, n + 1 < writer.blocks.length → accepts n = true
  works : writer.errorText = none ↔ ∀ n < writer.blocks.length, accepts n = true
  whole : writer.errorText = none → writer.blocks.flatten ++ writer.buf = given

variable {accepts : Nat → Bool} {grants : Nat → Bool} {writer : CallbackWriter} {given bytes : List UInt8}

theorem Sound.add (sound : Sound accepts given writer) (bytes : List UInt8) :
    Sound accepts (given ++ bytes) (writer.add bytes) :=
  ⟨sound.plain, sound.front, sound.works, fun works => by
    rw [← sound.whole works, append_assoc, CallbackWriter.add]⟩

theorem Sound.io (sound : Sound accepts given writer) (works : writer.errorText = none)
    (empty : writer.buf = []) (block : List UInt8) :
    Sound accepts (given ++ block) (callbackIo accepts writer block) := by
  have taken := sound.works.1 works
  have length : (writer.blocks ++ [block]).length = writer.blocks.length + 1 := length_append
  rw [callbackIo]
  cases last : accepts writer.blocks.length with
  | true =>
    refine ⟨sound.plain, fun n below => taken n (by simp at below; omega), ⟨fun _ n below => ?_, fun _ => works⟩,
      fun _ => by simp [← sound.whole works, empty]⟩
    rcases Nat.lt_succ_iff_lt_or_eq.1 (length ▸ below) with below | rfl
    · exact taken n below
    · exact last
  | false =>
    refine ⟨sound.plain, fun n below => taken n (by simp at below; omega), ⟨nofun, fun all => ?_⟩, nofun⟩
    rw [all _ (by rw [if_neg nofun, length]; exact Nat.lt_succ_self _)] at last
    cases last

/-- A flush leaves the buffer empty. -/
theorem Sound.flush (sound : Sound accepts given writer) :
    Sound accepts given (rjsonwriterFlush accepts writer) := by
  have emptied : writer.errorText = none → Sound accepts writer.blocks.flatten { writer with buf := [] } :=
    fun _ => ⟨sound.plain, sound.front, sound.works, fun _ => append_nil _⟩
  rw [rjsonwriterFlush]
  split
  · rename_i full
    rw [← sound.whole full.2]
    exact (emptied full.2).io full.2 rfl _
  · rename_i nothing
    refine ⟨sound.plain, sound.front, sound.works, fun works => ?_⟩
    rw [← sound.whole works, of_not_not fun full => nothing ⟨full, works⟩]

theorem flush_buf (accepts : Nat → Bool) (writer : CallbackWriter) : (rjsonwriterFlush accepts writer).buf = [] ∧
    (rjsonwriterFlush accepts writer).bufCap = writer.bufCap := by
  rw [rjsonwriterFlush, callbackIo]
  split
  · split <;> exact ⟨rfl, rfl⟩
  · exact ⟨rfl, rfl⟩

/-- What a flush hands on, if it is taken. -/
theorem flush_taken (works : writer.errorText = none)
    (taken : writer.buf ≠ [] → accepts writer.blocks.length = true) :
    (rjsonwriterFlush accepts writer).errorText = none ∧ (rjsonwriterFlush accepts writer).blocks.length =
      writer.blocks.length + if writer.buf = [] then 0 else 1 := by
  rw [rjsonwriterFlush]
  by_cases empty : writer.buf = []
  · rw [if_neg (fun full => full.1 empty), if_pos empty]
    exact ⟨works, rfl⟩
  · rw [if_pos ⟨empty, works⟩, if_neg empty, callbackIo, if_pos (taken empty)]
    exact ⟨works, length_append⟩

/-- A fragment is behind what was written; if it is longer than two buffers, the buffer that it fills
is to be taken. -/
theorem Sound.rawBehind (sound : Sound accepts given writer)
    (room : writer.buf.length + bytes.length ≤ writer.bufCap ∨ writer.buf = [])
    (long : 2 * writer.bufCap < bytes.length →
      writer.errorText = none ∧ accepts writer.blocks.length = true) :
    Sound accepts (given ++ bytes) (rawBehind accepts writer bytes) := by
  unfold Rjson.rawBehind
  split
  · rw [if_pos (.inr (by simp [sound.plain]))]
    exact sound.add _
  · dsimp only
    generalize adds : min (writer.bufCap - writer.buf.length) bytes.length = add
    split
    · rename_i all
      rw [← all, take_length]
      exact sound.add bytes
    · have parts : given ++ bytes = given ++ bytes.take add ++ bytes.drop add := by
        rw [append_assoc, take_append_drop]
      have flushed := (sound.add (bytes.take add)).flush
      obtain ⟨empty, cap⟩ := flush_buf accepts (writer.add (bytes.take add))
      rw [parts, writeRest]
      split
      · exact flushed.add _
      · rename_i past
        rw [empty, cap, length_drop, length_nil] at past
        have far : 2 * writer.bufCap < bytes.length := by
          change ¬0 + _ ≤ writer.bufCap at past
          rcases room with fits | none_
          · omega
          · rw [none_, length_nil] at adds
            omega
        exact flushed.io
          (@flush_taken accepts (writer.add (bytes.take add)) (long far).1 fun _ => (long far).2).1 empty _

theorem Write.raw_sound (meets : (Write.raw bytes).Meets accepts grants writer)
    (sound : Sound accepts given writer) :
    Sound accepts (given ++ bytes) (rjsonwriterRaw accepts writer bytes) := by
  obtain ⟨empty, cap⟩ := flush_buf accepts writer
  rw [rjsonwriterRaw]
  split
  · refine sound.flush.rawBehind (.inr empty) fun far => ?_
    rw [cap] at far
    obtain ⟨works, taken⟩ := meets far
    obtain ⟨still, length⟩ := flush_taken works fun full => taken _ (by rw [if_neg full]; omega)
    exact ⟨still, taken _ (by rw [length]; split <;> omega)⟩
  · exact sound.rawBehind (.inl (by omega)) fun far => by omega

theorem Write.rawf_sound {formatted : Option (List UInt8)}
    (meets : (Write.rawf formatted).Meets accepts grants writer) (sound : Sound accepts given writer) :
    Sound accepts (given ++ formatted.getD []) (rjsonwriterRawf accepts grants writer formatted) := by
  have roomy : Sound accepts given
      (if writer.bufCap ≤ writer.buf.length + 16 then rjsonwriterFlush accepts writer else writer) := by
    split
    · exact sound.flush
    · exact sound
  unfold rjsonwriterRawf
  generalize (if writer.bufCap ≤ writer.buf.length + 16 then rjsonwriterFlush accepts writer
    else writer) = writer at roomy
  dsimp only
  split
  · simpa using roomy
  · simpa using roomy
  · rename_i text _
    obtain ⟨few, granted⟩ := meets text rfl
    split
    · exact roomy.add text
    · have flushed := roomy.flush
      have needed : (rjsonwriterFlush accepts writer).buf.length + text.length + 1 = text.length + 1 := by
        rw [(flush_buf accepts writer).1, length_nil, Nat.zero_add]
      rw [needed, if_neg (by omega), granted, if_pos rfl]
      split
      · have larger : Sound accepts given { rjsonwriterFlush accepts writer with bufCap := text.length + 1 } :=
          ⟨flushed.plain, flushed.front, flushed.works, flushed.whole⟩
        exact larger.add text
      · exact flushed.add text

theorem run_sound {writes : List Write} (meets : MeetAll accepts grants writer writes)
    (sound : Sound accepts given writer) : Sound accepts (given ++ writes.flatMap Write.fragment)
      (writes.foldl (Write.step accepts grants) writer) := by
  -- By induction on the calls, each of which puts its fragment behind the others.
  induction writes generalizing writer given with
  | nil => simpa using sound
  | cons write writes ih =>
    rw [flatMap_cons, ← append_assoc]
    refine ih meets.2 ?_
    cases write with
    | raw bytes => exact Write.raw_sound meets.1 sound
    | rawf formatted => exact Write.rawf_sound meets.1 sound
    | flush =>
      rw [Write.fragment, append_nil]
      exact sound.flush

/-- Up to a flush the callback was handed what was written, in order, if it took it all; behind a block
that it did not take it is handed nothing, and the writer stays in error. -/
theorem run_buffered (accepts grants : Nat → Bool) (bufCap : Nat) (writes : List Write)
    (meets : MeetAll accepts grants { bufCap := bufCap } writes) :
    let writer := rjsonwriterFlush accepts (writes.foldl (Write.step accepts grants) { bufCap := bufCap })
    ((∀ n < writer.blocks.length, accepts n = true) →
        writer.errorText = none ∧ writer.blocks.flatten = writes.flatMap Write.fragment) ∧
      ∀ n < writer.blocks.length, accepts n = false →
        n + 1 = writer.blocks.length ∧ writer.errorText ≠ none := by
  intro writer
  have opened : Sound accepts [] { bufCap := bufCap } :=
    ⟨rfl, nofun, ⟨fun _ => nofun, fun _ => rfl⟩, fun _ => rfl⟩
  have sound := (run_sound meets opened).flush
  refine ⟨fun taken => ⟨sound.works.2 taken, ?_⟩, fun n below refused => ⟨?_, fun works => ?_⟩⟩
  · have whole := sound.whole (sound.works.2 taken)
    rwa [(flush_buf _ _).1, append_nil, nil_append] at whole
  · refine Nat.le_antisymm below (Nat.le_of_not_lt fun more => ?_)
    rw [sound.front n more] at refused
    cases refused
  · rw [sound.works.1 works n below] at refused
    cases refused

theorem run_buffered_two : (rjsonwriterFlush (fun _ => true) ([.raw [0x61], .rawf (some [0x62])].foldl
      (Write.step (fun _ => true) fun _ => true) { bufCap := 1024 })).blocks.flatten = [0x61, 0x62] :=
  ((run_buffered (fun _ => true) (fun _ => true) 1024 [.raw [0x61], .rawf (some [0x62])]
    ⟨fun _ => ⟨rfl, fun _ _ => rfl⟩, by rintro _ ⟨⟩; decide, trivial⟩).1 fun _ _ => rfl).2

/-- A callback takes nothing, and is handed the rest of a long fragment all the same. -/
theorem handed_behind_error :
    ¬∀ n < (rjsonwriterRaw (fun _ => false) {} (.replicate 3000 0x61)).blocks.length,
      n + 1 = (rjsonwriterRaw (fun _ => false) {} (.replicate 3000 0x61)).blocks.length := by
  decide +kernel

end Libretro.Rjson
