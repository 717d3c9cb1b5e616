import Libretro.Library.BoundedStream
import Libretro.Library.WordCursor
import Mathlib.Tactic.Ring

/-! The single-producer single-consumer byte ring: its storage and growth, and where its bytes lie. -/

namespace Libretro.Spsc

variable {w : Nat}

/--
The ring as `retro_spsc_t` lays it out, over a `size_t` of `w` bits.

The padding between the fields carries no data and is left out.
-/
structure Queue (w : Nat) where
  /-- The physical cells, addressed from the start of the buffer. -/
  buffer : Nat → UInt8
  /-- The most bytes the ring holds. -/
  capacity : BitVec w
  /-- The buffer's size less one. -/
  mask : BitVec w
  /-- The buffer's size when its pages are mapped a second time behind it, else zero. -/
  mirror : BitVec w
  head : BitVec w
  cachedTail : BitVec w
  tail : BitVec w
  cachedHead : BitVec w

/-- The number of physical cells. -/
def Queue.size (queue : Queue w) : Nat := queue.mask.toNat + 1

/-- The physical cell behind an address: the second mapping shows the same pages again. -/
def Queue.cell (queue : Queue w) (address : Nat) : Nat :=
  if queue.mirror = 0#w then address else address % queue.mirror.toNat

/-- The byte an address shows. -/
def Queue.load (queue : Queue w) (address : Nat) : UInt8 := queue.buffer (queue.cell address)

/-- One byte stored through an address. -/
def Queue.store (queue : Queue w) (address : Nat) (byte : UInt8) : Queue w :=
  { queue with
    buffer := fun cell => if cell = queue.cell address then byte else queue.buffer cell }

/-- Bytes contiguous at `index`: to the buffer's end, or past it into the mirror. -/
def spscContig (queue : Queue w) (index : BitVec w) : BitVec w :=
  if queue.mirror ≠ 0#w then BitVec.allOnes w else queue.mask + 1#w - index

/--
The address of one byte of a copy that is split at the buffer's end.

The first `first` bytes lie from `index` on and the others at the start of the buffer.
-/
def splitAddress (index first : BitVec w) (byte : Nat) : Nat :=
  if byte < first.toNat then index.toNat + byte else byte - first.toNat

/-- The doubling loop of `spsc_round_up_pow2`, with the word's width bounding its turns. -/
def roundUpLoop (value : BitVec w) : Nat → BitVec w → BitVec w
  | 0, reached => reached
  | turns + 1, reached => if reached < value then roundUpLoop value turns (reached <<< 1) else reached

/-- The next power of two at or above `value`, and zero for zero. -/
def spscRoundUpPow2 (value : BitVec w) : BitVec w :=
  if value = 0#w then 0#w
  else if value &&& (value - 1#w) = 0#w then value
  else roundUpLoop value w 1#w

/-- What the platform answers when a ring is set up. -/
structure Platform (w : Nat) where
  /-- The contents of the block `malloc` returns, or nothing when it fails. -/
  heap : Option (Nat → UInt8)
  /-- The mapping granule, or nothing where buffers cannot be mapped twice. -/
  granule : Option (BitVec w)
  /-- The contents of a doubly mapped buffer, or nothing when the mapping fails. -/
  mapped : Option (Nat → UInt8)

/-- An empty ring over the given storage. -/
def emptyQueue (buffer : Nat → UInt8) (capacity mask mirror : BitVec w) : Queue w where
  buffer
  capacity
  mask
  mirror
  head := 0#w
  cachedTail := 0#w
  tail := 0#w
  cachedHead := 0#w

/-- `retro_spsc_init`: a plain ring of at least `minCapacity` bytes. -/
def retroSpscInit (platform : Platform w) (minCapacity : BitVec w) : Option (Queue w) :=
  if minCapacity = 0#w ∨ BitVec.allOnes w / 2#w < minCapacity then none
  else
    let cap := spscRoundUpPow2 minCapacity
    if cap = 0#w ∨ BitVec.allOnes w / 2#w < cap then none
    else platform.heap.map fun buffer => emptyQueue buffer cap (cap - 1#w) 0#w

/-- `retro_spsc_init_mirrored`: a doubly mapped ring where possible, else a plain one. -/
def retroSpscInitMirrored (platform : Platform w) (minCapacity : BitVec w) : Option (Queue w) :=
  match platform.granule with
  | none => retroSpscInit platform minCapacity
  | some granule =>
    if minCapacity = 0#w ∨ BitVec.allOnes w / 2#w < minCapacity then none
    else
      let cap := spscRoundUpPow2 minCapacity
      let size := if granule < cap then cap else granule
      if cap ≠ 0#w ∧ granule &&& (granule - 1#w) = 0#w ∧ size ≤ BitVec.allOnes w / 4#w then
        match platform.mapped with
        | some buffer => some (emptyQueue buffer cap (size - 1#w) size)
        | none => retroSpscInit platform minCapacity
      else retroSpscInit platform minCapacity

/-- The longest run from `pos` that no physical end cuts, in the old buffer or the new. -/
def growRun (queue grown : Queue w) (head pos : BitVec w) : BitVec w :=
  let start := pos &&& queue.mask
  let dest := pos &&& grown.mask
  let run := head - pos
  let run := if queue.mirror = 0#w ∧ queue.mask + 1#w - start < run
    then queue.mask + 1#w - start else run
  if grown.mirror = 0#w ∧ grown.mask + 1#w - dest < run then grown.mask + 1#w - dest else run

/-- One `memcpy` of growth, byte after byte. -/
def copyRun (queue : Queue w) (start dest : Nat) : Nat → Queue w → Queue w
  | 0, grown => grown
  | count + 1, grown =>
    (copyRun queue start dest count grown).store (dest + count) (queue.load (start + count))

/-- The copying loop of `retro_spsc_grow`; each turn moves at least one byte. -/
def growLoop (queue : Queue w) (head : BitVec w) : Nat → BitVec w → Queue w → Queue w
  | 0, _, grown => grown
  | turns + 1, pos, grown =>
    if pos = head then grown
    else
      let run := growRun queue grown head pos
      growLoop queue head turns (pos + run)
        (copyRun queue (pos &&& queue.mask).toNat (pos &&& grown.mask).toNat run.toNat grown)

/-- The ring after growth: the new storage, the old cursors, and both private copies refreshed. -/
def Queue.adopt (queue storage : Queue w) : Queue w :=
  { queue with
    buffer := storage.buffer
    capacity := storage.capacity
    mask := storage.mask
    mirror := storage.mirror
    cachedTail := queue.tail
    cachedHead := queue.head }

/-- `retro_spsc_grow`: a larger buffer of the same kind with the unread bytes carried over. -/
def retroSpscGrow (platform : Platform w) (queue : Queue w) (minCapacity : BitVec w) : Option (Queue w) :=
  if minCapacity ≤ queue.capacity then some queue
  else
    (if queue.mirror ≠ 0#w then retroSpscInitMirrored platform minCapacity
      else retroSpscInit platform minCapacity).map fun fresh =>
      -- The loop ends within one turn for each unread byte.
      queue.adopt (growLoop queue queue.head (queue.head - queue.tail).toNat queue.tail fresh)

/-- A call that asks for room: the source bytes it was given and how much it wants. -/
inductive WriteCall (w : Nat)
  | write (data : List UInt8) (bytes : BitVec w)
  | writeFrames (data : List UInt8) (frames frameBytes : BitVec w)
  | writeBegin

/-- Whether the call gets as far as loading its cursor; zero frames return at once. -/
def WriteCall.Enters : WriteCall w → Prop
  | .write _ _ => True
  | .writeFrames _ frames frameBytes => frames ≠ 0#w ∧ frameBytes ≠ 0#w
  | .writeBegin => True

instance (call : WriteCall w) : Decidable call.Enters :=
  match call with
  | .write _ _ => inferInstanceAs (Decidable True)
  | .writeFrames _ frames frameBytes => inferInstanceAs (Decidable (frames ≠ 0#w ∧ frameBytes ≠ 0#w))
  | .writeBegin => inferInstanceAs (Decidable True)

/-- The room the private copy of the tail promises. -/
def Queue.room (queue : Queue w) (head : BitVec w) : BitVec w := queue.capacity - (head - queue.cachedTail)

/-- Whether the private copy of the tail is what limits the call, so that it is re-read. -/
def WriteCall.Short (call : WriteCall w) (queue : Queue w) (head : BitVec w) : Prop :=
  match call with
  | .write _ bytes => queue.room head < bytes
  | .writeFrames _ frames frameBytes => queue.room head / frameBytes < frames
  | .writeBegin => queue.room head < spscContig queue (head &&& queue.mask) ∧ queue.room head < queue.capacity

instance (call : WriteCall w) (queue : Queue w) (head : BitVec w) : Decidable (call.Short queue head) :=
  match call with
  | .write _ bytes => inferInstanceAs (Decidable (queue.room head < bytes))
  | .writeFrames _ frames frameBytes => inferInstanceAs (Decidable (queue.room head / frameBytes < frames))
  | .writeBegin => inferInstanceAs (Decidable (_ ∧ _))

/-- The bytes the call may write, computed from the private copy of the tail. -/
def WriteCall.granted (call : WriteCall w) (queue : Queue w) (head : BitVec w) : BitVec w :=
  match call with
  | .write _ bytes => if queue.room head < bytes then queue.room head else bytes
  | .writeFrames _ frames frameBytes =>
    (if queue.room head / frameBytes < frames then queue.room head / frameBytes else frames) * frameBytes
  | .writeBegin =>
    let span := spscContig queue (head &&& queue.mask)
    if queue.room head < span then queue.room head else span

/-- The caller's data covers the bytes that are accepted. -/
def WriteCall.Covers (call : WriteCall w) (bytes : BitVec w) : Prop :=
  match call with
  | .write data _ => bytes.toNat ≤ data.length
  | .writeFrames data _ _ => bytes.toNat ≤ data.length
  | .writeBegin => True

instance (call : WriteCall w) (bytes : BitVec w) : Decidable (call.Covers bytes) :=
  match call with
  | .write data _ => inferInstanceAs (Decidable (bytes.toNat ≤ data.length))
  | .writeFrames data _ _ => inferInstanceAs (Decidable (bytes.toNat ≤ data.length))
  | .writeBegin => inferInstanceAs (Decidable True)

/-- Where the producer stands. -/
inductive Producer (w : Nat)
  /-- Outside every operation. -/
  | idle
  /-- Its own cursor is loaded and the room is about to be decided. -/
  | loaded (call : WriteCall w) (head : BitVec w)
  /-- In the copy, with `done` bytes in the ring and the head not yet stored. -/
  | copying (data : List UInt8) (bytes head first : BitVec w) (done : Nat)
  /-- Between `write_begin` and `write_end`, free to fill the span. -/
  | span (index : Nat) (length : BitVec w)
  /-- In `write_end`, with its own cursor loaded. -/
  | ending (index : Nat) (bytes head : BitVec w)

/-- The length of the first part of a copy that may be split at the buffer's end. -/
def firstPart (queue : Queue w) (cursor bytes : BitVec w) : BitVec w :=
  if bytes < spscContig queue (cursor &&& queue.mask) then bytes
  else spscContig queue (cursor &&& queue.mask)

/-- Starting the copy, or returning at once when there is nothing to copy. -/
def Producer.beginCopy (queue : Queue w) (data : List UInt8) (bytes head : BitVec w) : Producer w :=
  if bytes = 0#w then .idle else .copying data bytes head (firstPart queue head bytes) 0

/-- Where the producer goes once the room is decided. -/
def WriteCall.enter (call : WriteCall w) (queue : Queue w) (head : BitVec w) : Producer w :=
  match call with
  | .write data _ => .beginCopy queue data (call.granted queue head) head
  | .writeFrames data _ _ => .beginCopy queue data (call.granted queue head) head
  | .writeBegin => .span (head &&& queue.mask).toNat (call.granted queue head)

/-- A call that asks for data. -/
inductive ReadCall (w : Nat)
  | read (bytes : BitVec w)
  | peek (bytes : BitVec w)
  | skip (bytes : BitVec w)
  | readBegin

/-- The data the private copy of the head promises. -/
def Queue.present (queue : Queue w) (tail : BitVec w) : BitVec w := queue.cachedHead - tail

/-- What the call asks for: its byte count, or every contiguous byte. -/
def ReadCall.wanted (call : ReadCall w) (queue : Queue w) (tail : BitVec w) : BitVec w :=
  match call with
  | .read bytes => bytes
  | .peek bytes => bytes
  | .skip bytes => bytes
  | .readBegin => spscContig queue (tail &&& queue.mask)

/-- Whether the private copy of the head is what limits the call, so that it is re-read. -/
def ReadCall.Short (call : ReadCall w) (queue : Queue w) (tail : BitVec w) : Prop :=
  match call with
  | .readBegin => queue.present tail < call.wanted queue tail ∧
      queue.present tail < queue.capacity
  | _ => queue.present tail < call.wanted queue tail

/-- The bytes the call may take, computed from the private copy of the head. -/
def ReadCall.granted (call : ReadCall w) (queue : Queue w) (tail : BitVec w) : BitVec w :=
  if queue.present tail < call.wanted queue tail then queue.present tail
  else call.wanted queue tail

/-- Where the consumer stands. -/
inductive Consumer (w : Nat)
  /-- Outside every operation. -/
  | idle
  /-- Its own cursor is loaded and the data is about to be decided. -/
  | loaded (call : ReadCall w) (tail : BitVec w)
  /-- In the copy of a read, or of a peek when `keep` is set, with `out` copied so far. -/
  | copying (keep : Bool) (bytes tail first : BitVec w) (out : List UInt8)
  /-- In a skip, about to store the tail. -/
  | skipping (bytes tail : BitVec w)
  /-- Between `read_begin` and `read_end`, free to look at the span. -/
  | span (index : Nat) (length : BitVec w)
  /-- In `read_end`, with its own cursor loaded. -/
  | ending (index : Nat) (bytes tail : BitVec w)

/-- Where the consumer goes once the data is decided. -/
def ReadCall.enter (call : ReadCall w) (queue : Queue w) (tail : BitVec w) : Consumer w :=
  let bytes := call.granted queue tail
  match call with
  | .read _ => if bytes = 0#w then .idle
      else .copying false bytes tail (firstPart queue tail bytes) []
  | .peek _ => if bytes = 0#w then .idle
      else .copying true bytes tail (firstPart queue tail bytes) []
  | .skip _ => if bytes = 0#w then .idle else .skipping bytes tail
  | .readBegin => .span (tail &&& queue.mask).toNat bytes

/-- The ring, both sides, and what has been published and delivered so far. -/
structure Config (w : Nat) where
  queue : Queue w
  producer : Producer w
  consumer : Consumer w
  published : List UInt8
  delivered : List UInt8

/-- The bytes a span shows, read through its pointer. -/
def Queue.spanBytes (queue : Queue w) (index count : Nat) : List UInt8 :=
  (List.range count).map fun byte => queue.load (index + byte)

/-- The bytes the slots from a cursor on hold. -/
def Queue.slotBytes (queue : Queue w) (cursor : BitVec w) (count : Nat) : List UInt8 :=
  (List.range count).map fun byte => queue.buffer ((cursor.toNat + byte) % queue.size)

/-- One atomic step of either side, or a growth while both are outside every operation. -/
inductive Step : Config w → Config w → Prop
  | writeLoad (config : Config w) (call : WriteCall w) (idle : config.producer = .idle)
      (enters : call.Enters) :
      Step config { config with producer := .loaded call config.queue.head }
  | writeCached (config : Config w) (call : WriteCall w) (head : BitVec w)
      (loaded : config.producer = .loaded call head) (enough : ¬ call.Short config.queue head)
      (covers : call.Covers (call.granted config.queue head)) :
      Step config { config with producer := call.enter config.queue head }
  | writeRefresh (config : Config w) (call : WriteCall w) (head : BitVec w) (refreshed : Queue w)
      (loaded : config.producer = .loaded call head) (short : call.Short config.queue head)
      (reads : refreshed = { config.queue with cachedTail := config.queue.tail })
      (covers : call.Covers (call.granted refreshed head)) :
      Step config { config with queue := refreshed, producer := call.enter refreshed head }
  | writeByte (config : Config w) (data : List UInt8) (bytes head first : BitVec w) (done : Nat)
      (copying : config.producer = .copying data bytes head first done)
      (inside : done < bytes.toNat) (byte : UInt8) (source : data[done]? = some byte) :
      Step config { config with
        queue := config.queue.store (splitAddress (head &&& config.queue.mask) first done) byte
        producer := .copying data bytes head first (done + 1) }
  | writeStore (config : Config w) (data : List UInt8) (bytes head first : BitVec w)
      (copying : config.producer = .copying data bytes head first bytes.toNat) :
      Step config { config with
        queue := { config.queue with head := head + bytes }
        producer := .idle
        published := config.published ++ data.take bytes.toNat }
  | spanFill (config : Config w) (index : Nat) (length : BitVec w)
      (span : config.producer = .span index length) (offset : Nat)
      (inside : offset < length.toNat) (byte : UInt8) :
      Step config { config with queue := config.queue.store (index + offset) byte }
  | writeEndNone (config : Config w) (index : Nat) (length : BitVec w)
      (span : config.producer = .span index length) :
      Step config { config with producer := .idle }
  | writeEndLoad (config : Config w) (index : Nat) (length : BitVec w)
      (span : config.producer = .span index length) (bytes : BitVec w) (some_ : bytes ≠ 0#w)
      (within : bytes ≤ length) :
      Step config { config with producer := .ending index bytes config.queue.head }
  | writeEndStore (config : Config w) (index : Nat) (bytes head : BitVec w)
      (ending : config.producer = .ending index bytes head) :
      Step config { config with
        queue := { config.queue with head := head + bytes }
        producer := .idle
        published := config.published ++ config.queue.spanBytes index bytes.toNat }
  | readLoad (config : Config w) (call : ReadCall w) (idle : config.consumer = .idle) :
      Step config { config with consumer := .loaded call config.queue.tail }
  | readCached (config : Config w) (call : ReadCall w) (tail : BitVec w)
      (loaded : config.consumer = .loaded call tail) (enough : ¬ call.Short config.queue tail) :
      Step config { config with consumer := call.enter config.queue tail }
  | readRefresh (config : Config w) (call : ReadCall w) (tail : BitVec w) (refreshed : Queue w)
      (loaded : config.consumer = .loaded call tail) (short : call.Short config.queue tail)
      (reads : refreshed = { config.queue with cachedHead := config.queue.head }) :
      Step config { config with queue := refreshed, consumer := call.enter refreshed tail }
  | readByte (config : Config w) (keep : Bool) (bytes tail first : BitVec w) (out : List UInt8)
      (copying : config.consumer = .copying keep bytes tail first out)
      (inside : out.length < bytes.toNat) (byte : UInt8)
      (shown : config.queue.load (splitAddress (tail &&& config.queue.mask) first out.length) = byte) :
      Step config { config with consumer := .copying keep bytes tail first (out ++ [byte]) }
  | readStore (config : Config w) (bytes tail first : BitVec w) (out : List UInt8)
      (copying : config.consumer = .copying false bytes tail first out)
      (whole : out.length = bytes.toNat) :
      Step config { config with
        queue := { config.queue with tail := tail + bytes }
        consumer := .idle
        delivered := config.delivered ++ out }
  | peekReturn (config : Config w) (bytes tail first : BitVec w) (out : List UInt8)
      (copying : config.consumer = .copying true bytes tail first out)
      (whole : out.length = bytes.toNat) :
      Step config { config with consumer := .idle }
  | skipStore (config : Config w) (bytes tail : BitVec w)
      (skipping : config.consumer = .skipping bytes tail) :
      Step config { config with
        queue := { config.queue with tail := tail + bytes }
        consumer := .idle
        delivered := config.delivered ++ config.queue.slotBytes tail bytes.toNat }
  | readEndNone (config : Config w) (index : Nat) (length : BitVec w)
      (span : config.consumer = .span index length) :
      Step config { config with consumer := .idle }
  | readEndLoad (config : Config w) (index : Nat) (length : BitVec w)
      (span : config.consumer = .span index length) (bytes : BitVec w) (some_ : bytes ≠ 0#w)
      (within : bytes ≤ length) :
      Step config { config with consumer := .ending index bytes config.queue.tail }
  | readEndStore (config : Config w) (index : Nat) (bytes tail : BitVec w)
      (ending : config.consumer = .ending index bytes tail) :
      Step config { config with
        queue := { config.queue with tail := tail + bytes }
        consumer := .idle
        delivered := config.delivered ++ config.queue.spanBytes index bytes.toNat }
  | grow (config : Config w) (platform : Platform w) (minCapacity : BitVec w) (grown : Queue w)
      (producerIdle : config.producer = .idle) (consumerIdle : config.consumer = .idle)
      (grew : retroSpscGrow platform config.queue minCapacity = some grown) :
      Step config { config with queue := grown }

open Nat Option WordCursor
open BitVec hiding not_or shiftLeft_eq

variable {w : Nat}

/-- The storage a set-up ring keeps for its whole life. -/
structure Queue.Formed (queue : Queue w) : Prop where
  capacityPow : queue.capacity.toNat.isPowerOfTwo
  sizePow : queue.size.isPowerOfTwo
  fits : queue.capacity.toNat ≤ queue.size
  storage : queue.mirror = 0#w ∧ queue.size = queue.capacity.toNat ∨ queue.mirror.toNat = queue.size

theorem Queue.size_pos (queue : Queue w) : 0 < queue.size := succ_pos _

variable {queue : Queue w}

variable (formed : queue.Formed)
include formed

theorem Queue.Formed.size_lt : queue.size < 2 ^ w := by
  rcases formed.storage with ⟨_, plain⟩ | mirrored
  · exact plain ▸ queue.capacity.isLt
  · exact mirrored ▸ queue.mirror.isLt

theorem Queue.Formed.and_mask (cursor : BitVec w) :
    (cursor &&& queue.mask).toNat = cursor.toNat % queue.size := by
  obtain ⟨log, power⟩ := formed.sizePow
  exact and_mask_toNat power cursor

theorem Queue.Formed.slot_ofNat (position : Nat) :
    (BitVec.ofNat w position).toNat % queue.size = position % queue.size := by
  obtain ⟨log, power⟩ := formed.sizePow
  have below : log < w := (Nat.pow_lt_pow_iff_right (by decide)).mp (power ▸ formed.size_lt)
  rw [power]
  exact ofNat_mod_pow (le_of_lt below) position

theorem contig_plain (plain : queue.mirror = 0#w) (cursor : BitVec w) :
    (spscContig queue (cursor &&& queue.mask)).toNat = queue.size - cursor.toNat % queue.size := by
  -- The buffer's size is itself a word, so neither the sum nor the difference wraps.
  have inside : cursor.toNat % queue.size < queue.size := mod_lt _ queue.size_pos
  have below := formed.size_lt
  have positive := queue.size_pos
  have end_ : (queue.mask + 1#w).toNat = queue.size := by
    have one : 1 < 2 ^ w := lt_of_le_of_lt positive below
    rw [toNat_add, BitVec.toNat_ofNat, mod_eq_of_lt one]
    exact mod_eq_of_lt below
  rw [spscContig, if_neg (by simpa using plain), toNat_sub_of_le, end_, formed.and_mask]
  rw [BitVec.le_def, end_, formed.and_mask]
  exact le_of_lt inside

omit formed

theorem contig_mirrored (mirrored : queue.mirror ≠ 0#w) (index : BitVec w) :
    (spscContig queue index).toNat = 2 ^ w - 1 := by
  rw [spscContig, if_pos mirrored, toNat_allOnes]

include formed

theorem cell_span (cursor : BitVec w) {byte : Nat}
    (inside : byte < (spscContig queue (cursor &&& queue.mask)).toNat) :
    queue.cell ((cursor &&& queue.mask).toNat + byte) = (cursor.toNat + byte) % queue.size := by
  rw [formed.and_mask, ← slot_add]
  by_cases plain : queue.mirror = 0#w
  · -- A plain span stays below the physical end, where addresses are cells.
    rw [contig_plain formed plain] at inside
    rw [Queue.cell, if_pos plain]
    exact (mod_eq_of_lt (by omega)).symm
  · -- The mirror folds an address past the end back into the buffer.
    have mirrored : queue.mirror.toNat = queue.size := formed.storage.resolve_left fun both => plain both.1
    rw [Queue.cell, if_neg plain, mirrored]

/-- Both parts of a split transfer lie in consecutive slots. -/
theorem cell_splitAddress (cursor bytes : BitVec w)
    (room : bytes.toNat ≤ queue.capacity.toNat) {byte : Nat} (inside : byte < bytes.toNat) :
    queue.cell (splitAddress (cursor &&& queue.mask)
      (if bytes < spscContig queue (cursor &&& queue.mask) then bytes
        else spscContig queue (cursor &&& queue.mask)) byte) =
      (cursor.toNat + byte) % queue.size := by
  generalize contigEq : spscContig queue (cursor &&& queue.mask) = contig
  by_cases early : byte < contig.toNat
  · -- The byte belongs to the first part.
    have first : byte < (if bytes < contig then bytes else contig).toNat := by
      split <;> assumption
    rw [splitAddress, if_pos first]
    exact cell_span formed cursor (contigEq ▸ early)
  · -- Only a plain ring has a second part, and it starts at the buffer's first cell.
    have short : ¬ bytes < contig := by rw [lt_def]; omega
    have plain : queue.mirror = 0#w := by
      by_contra mirrored
      have whole := contig_mirrored mirrored (cursor &&& queue.mask)
      have := bytes.isLt
      rw [contigEq] at whole
      omega
    have ends := contig_plain formed plain cursor
    have fits := formed.fits
    have slot : cursor.toNat % queue.size < queue.size := mod_lt _ queue.size_pos
    rw [contigEq] at ends
    rw [if_neg short, splitAddress, if_neg early, Queue.cell, if_pos plain, ← slot_add,
      mod_eq_sub_mod (by omega)]
    have wrapped := mod_eq_of_lt (show cursor.toNat % queue.size + byte - queue.size < queue.size by omega)
    omega

omit formed

theorem roundUpLoop_spec {value : BitVec w} (low : value.toNat ≤ 2 ^ (w - 1)) :
    ∀ turns (reached : BitVec w) (log : Nat), reached.toNat = 2 ^ log → w ≤ log + turns + 1 →
      (roundUpLoop value turns reached).toNat.isPowerOfTwo ∧ value ≤ roundUpLoop value turns reached := by
  intro turns
  induction turns with
  | zero =>
    -- With no turns left the power has already passed every admissible value.
    intro reached log power enough
    refine ⟨⟨log, power⟩, ?_⟩
    rw [roundUpLoop, BitVec.le_def, power]
    exact le_trans low (Nat.pow_le_pow_right (by decide) (by omega))
  | succ turns ih =>
    intro reached log power enough
    rw [roundUpLoop]
    by_cases smaller : reached < value
    · -- The value is still larger, so doubling stays within the word.
      have below : log < w - 1 := by
        rw [lt_def, power] at smaller
        exact (Nat.pow_lt_pow_iff_right (by decide)).mp (lt_of_lt_of_le smaller low)
      rw [if_pos smaller]
      refine ih _ (log + 1) ?_ (by omega)
      rw [toNat_shiftLeft, power, shiftLeft_eq, ← pow_succ, mod_eq_of_lt]
      exact Nat.pow_lt_pow_right (by decide) (by omega)
    · rw [if_neg smaller]
      exact ⟨⟨log, power⟩, BitVec.not_lt.mp smaller⟩

theorem spscRoundUpPow2_spec {value : BitVec w} (nonzero : value ≠ 0#w) (low : value.toNat ≤ 2 ^ (w - 1)) :
    (spscRoundUpPow2 value).toNat.isPowerOfTwo ∧ value ≤ spscRoundUpPow2 value := by
  have wide : 0 < w := by
    rcases Nat.eq_zero_or_pos w with rfl | wide
    · exact absurd (eq_of_zero_length rfl) nonzero
    · exact wide
  have one : (1#w).toNat = 1 := by rw [BitVec.toNat_ofNat, mod_eq_of_lt (Nat.one_lt_two_pow (by omega))]
  rw [spscRoundUpPow2, if_neg nonzero]
  split
  · -- A value that shares no bit with its predecessor is a power of two already.
    rename_i disjoint
    exact ⟨isPowerOfTwo_of_and_pred nonzero disjoint, BitVec.le_refl _⟩
  · exact roundUpLoop_spec low w 1#w 0 (by simpa using one) (by omega)

theorem halfMax_le : (allOnes w / 2#w).toNat ≤ 2 ^ (w - 1) := by
  rw [toNat_udiv, toNat_allOnes, BitVec.toNat_ofNat]
  rcases lt_or_ge 1 w with wide | narrow
  · -- Two is a proper divisor of the range here.
    have double : 2 ^ w = 2 * 2 ^ (w - 1) := by rw [← pow_succ']; congr 1; omega
    have positive := Nat.two_pow_pos (w - 1)
    have two : 2 % 2 ^ w = 2 := mod_eq_of_lt (by
      have : 2 ^ 1 < 2 ^ w := Nat.pow_lt_pow_right (by decide) wide
      simpa using this)
    rw [two]
    omega
  · -- In a narrower word the literal two is zero, and so is the quotient.
    have two : 2 % 2 ^ w = 0 := by rcases le_one_iff_eq_zero_or_eq_one.mp narrow with rfl | rfl <;> rfl
    rw [two, Nat.div_zero]
    exact zero_le _

/-- A fresh ring holds nothing, and neither side has seen the other move. -/
structure Queue.Fresh (queue : Queue w) : Prop where
  formed : queue.Formed
  head : queue.head = 0#w
  cachedTail : queue.cachedTail = 0#w
  tail : queue.tail = 0#w
  cachedHead : queue.cachedHead = 0#w

/-- An empty ring over power-of-two storage is fresh. -/
theorem emptyQueue_fresh {buffer : Nat → UInt8} {capacity size mirror : BitVec w}
    (capacityPow : capacity.toNat.isPowerOfTwo) (sizePow : size.toNat.isPowerOfTwo)
    (fits : capacity ≤ size) (storage : mirror = 0#w ∧ size = capacity ∨ mirror = size) :
    (emptyQueue buffer capacity (size - 1#w) mirror).Fresh := by
  -- The mask is the size less one, so the cells it addresses are exactly the buffer's.
  obtain ⟨log, power⟩ := sizePow
  have positive : 0 < size.toNat := power ▸ Nat.two_pow_pos log
  have cells : (size - 1#w).toNat + 1 = size.toNat := by
    have one : (1#w).toNat ≤ 1 := by rw [BitVec.toNat_ofNat]; exact mod_le _ _
    have exact_ : (1#w).toNat = 1 := by
      rw [BitVec.toNat_ofNat]
      exact mod_eq_of_lt (lt_of_le_of_lt positive size.isLt)
    rw [toNat_sub_of_le (by rw [BitVec.le_def]; omega), exact_]
    omega
  refine ⟨⟨capacityPow, ⟨log, cells.trans power⟩, ?_, ?_⟩, rfl, rfl, rfl, rfl⟩
  · simpa only [Queue.size, emptyQueue, cells] using BitVec.le_def.mp fits
  · rcases storage with ⟨plain, same⟩ | mirrored
    · exact .inl ⟨plain, cells.trans (congrArg BitVec.toNat same)⟩
    · exact .inr ((congrArg BitVec.toNat mirrored).trans cells.symm)

variable {platform : Platform w} {minCapacity : BitVec w}

theorem retroSpscInit_fresh (made : retroSpscInit platform minCapacity = some queue) :
    queue.Fresh ∧ minCapacity ≤ queue.capacity := by
  simp only [retroSpscInit] at made
  split at made
  · exact absurd made (by simp)
  · rename_i admitted
    simp only [not_or, BitVec.not_lt] at admitted
    obtain ⟨nonzero, low⟩ := admitted
    split at made
    · exact absurd made (by simp)
    · obtain ⟨buffer, _, rfl⟩ := map_eq_some_iff.mp made
      obtain ⟨power, enough⟩ := spscRoundUpPow2_spec nonzero (le_trans (BitVec.le_def.mp low) halfMax_le)
      exact ⟨emptyQueue_fresh power power (BitVec.le_refl _) (.inl ⟨rfl, rfl⟩), enough⟩

theorem retroSpscInitMirrored_fresh (made : retroSpscInitMirrored platform minCapacity = some queue) :
    queue.Fresh ∧ minCapacity ≤ queue.capacity := by
  simp only [retroSpscInitMirrored] at made
  split at made
  · exact retroSpscInit_fresh made
  · rename_i granule _
    split at made
    · exact absurd made (by simp)
    · rename_i admitted
      simp only [not_or, BitVec.not_lt] at admitted
      obtain ⟨nonzero, low⟩ := admitted
      obtain ⟨power, enough⟩ := spscRoundUpPow2_spec nonzero (le_trans (BitVec.le_def.mp low) halfMax_le)
      generalize sizeEq : (if granule < spscRoundUpPow2 minCapacity
        then spscRoundUpPow2 minCapacity else granule) = size at made
      split at made
      · rename_i usable
        obtain ⟨capNonzero, granulePow, _⟩ := usable
        split at made
        · -- The buffer is the larger of two powers of two.
          have larger : spscRoundUpPow2 minCapacity ≤ size := by
            rw [← sizeEq]
            split
            · exact BitVec.le_refl _
            · exact BitVec.not_lt.mp ‹_›
          have sizeNonzero : size ≠ 0#w := by
            rintro rfl
            exact capNonzero (le_zero_iff.mp larger)
          have sizePow : size.toNat.isPowerOfTwo := by
            by_cases smaller : granule < spscRoundUpPow2 minCapacity
            · rw [← sizeEq, if_pos smaller]
              exact power
            · rw [if_neg smaller] at sizeEq
              exact sizeEq ▸ isPowerOfTwo_of_and_pred (sizeEq ▸ sizeNonzero) granulePow
          simp only [some.injEq] at made
          subst queue
          exact ⟨emptyQueue_fresh power sizePow larger (.inr rfl), enough⟩
        · exact retroSpscInit_fresh made
      · exact retroSpscInit_fresh made

theorem store_hit (queue : Queue w) (address : Nat) (byte : UInt8) :
    (queue.store address byte).buffer (queue.cell address) = byte := if_pos rfl

theorem store_miss {address cell : Nat} {byte : UInt8} (other : cell ≠ queue.cell address) :
    (queue.store address byte).buffer cell = queue.buffer cell := if_neg other

/-- Two rings agree on everything except the contents of the buffer. -/
structure Queue.SameShape (left right : Queue w) : Prop where
  capacity : left.capacity = right.capacity
  mask : left.mask = right.mask
  mirror : left.mirror = right.mirror

theorem Queue.SameShape.cell {left right : Queue w} (same : left.SameShape right) :
    left.cell = right.cell := by
  funext address
  simp only [Queue.cell, same.mirror]

theorem Queue.SameShape.size {left right : Queue w} (same : left.SameShape right) :
    left.size = right.size := by
  rw [Queue.size, Queue.size, same.mask]

theorem Queue.Formed.reshape {left right : Queue w} (formed : right.Formed)
    (same : left.SameShape right) : left.Formed where
  capacityPow := same.capacity ▸ formed.capacityPow
  sizePow := same.size ▸ formed.sizePow
  fits := same.capacity ▸ same.size ▸ formed.fits
  storage := by rw [same.mirror, same.capacity, same.size]; exact formed.storage

theorem copyRun_shape (queue : Queue w) (start dest count : Nat) (grown : Queue w) :
    (copyRun queue start dest count grown).SameShape grown := by
  induction count with
  | zero => exact ⟨rfl, rfl, rfl⟩
  | succ count ih => exact ⟨ih.capacity, ih.mask, ih.mirror⟩

variable {grown : Queue w} {start : Nat}

theorem copyRun_miss {dest count cell : Nat} (other : ∀ byte < count, cell ≠ grown.cell (dest + byte)) :
    (copyRun queue start dest count grown).buffer cell = grown.buffer cell := by
  induction count with
  | zero => rfl
  | succ count ih =>
    have shape := copyRun_shape queue start dest count grown
    rw [copyRun, store_miss (by rw [shape.cell]; exact other count (lt_succ_self count))]
    exact ih fun byte below => other byte (lt_succ_of_lt below)

theorem copyRun_hit {dest count : Nat} (apart : ∀ left right, left < right → right < count →
      grown.cell (dest + left) ≠ grown.cell (dest + right)) {byte : Nat} (inside : byte < count) :
    (copyRun queue start dest count grown).buffer (grown.cell (dest + byte)) = queue.load (start + byte) := by
  induction count with
  | zero => omega
  | succ count ih =>
    have shape := copyRun_shape queue start dest count grown
    rw [copyRun]
    rcases lt_or_eq_of_le (le_of_lt_succ inside) with below | rfl
    · rw [store_miss (by rw [shape.cell]; exact apart byte count below (lt_succ_self count))]
      exact ih (fun left right ordered bound => apart left right ordered (by omega)) below
    · rw [← shape.cell, store_hit]

theorem clip_eq (queue : Queue w) (index run : BitVec w) :
    (if queue.mirror = 0#w ∧ queue.mask + 1#w - index < run
      then queue.mask + 1#w - index else run) =
      if spscContig queue index < run then spscContig queue index else run := by
  unfold spscContig
  by_cases plain : queue.mirror = 0#w
  · simp [plain]
  · have whole : ¬ allOnes w < run := by
      rw [lt_def, toNat_allOnes]
      have := run.isLt
      omega
    simp [plain, whole]

include formed

theorem contig_pos (cursor : BitVec w) : 0 < (spscContig queue (cursor &&& queue.mask)).toNat := by
  have inside : cursor.toNat % queue.size < queue.size := mod_lt _ queue.size_pos
  by_cases plain : queue.mirror = 0#w
  · rw [contig_plain formed plain]
    omega
  · have mirrored : queue.mirror.toNat ≠ 0 := fun zero => plain (eq_of_toNat_eq (by simpa using zero))
    have := queue.mirror.isLt
    rw [contig_mirrored plain]
    omega

theorem growRun_spec (grownFormed : grown.Formed) {head pos : BitVec w} (behind : pos ≠ head) :
    0 < (growRun queue grown head pos).toNat ∧ (growRun queue grown head pos).toNat ≤ (head - pos).toNat ∧
      (growRun queue grown head pos).toNat ≤ (spscContig queue (pos &&& queue.mask)).toNat ∧
      (growRun queue grown head pos).toNat ≤ (spscContig grown (pos &&& grown.mask)).toNat := by
  have sourcePos := contig_pos formed pos
  have destPos := contig_pos grownFormed pos
  have distance : 0 < (head - pos).toNat := by
    rcases Nat.eq_zero_or_pos (head - pos).toNat with zero | positive
    · exact absurd (eq_of_toNat_eq (by simpa using zero) : head - pos = 0#w)
        (fun same => behind (sub_eq_zero.mp same).symm)
    · exact positive
  simp only [growRun, clip_eq]
  -- Each clip takes the smaller of two positive lengths.
  generalize spscContig queue (pos &&& queue.mask) = source at *
  generalize spscContig grown (pos &&& grown.mask) = dest at *
  generalize head - pos = run at *
  simp only [lt_def]
  split <;> split <;> omega

omit formed

/-- The new buffer shows the old one's bytes at the positions from `start` up to `stop`. -/
def CarriedOver (queue grown : Queue w) (start stop : Nat) : Prop :=
  ∀ position, start ≤ position → position < stop →
    grown.buffer (position % grown.size) = queue.buffer (position % queue.size)

include formed

theorem copyRun_carried (grownFormed : grown.Formed) {stop : Nat} (ordered : start ≤ stop) {run : BitVec w}
    (carried : CarriedOver queue grown start stop) (lap : stop + run.toNat - start ≤ grown.size)
    (source : run.toNat ≤ (spscContig queue (BitVec.ofNat w stop &&& queue.mask)).toNat)
    (dest : run.toNat ≤ (spscContig grown (BitVec.ofNat w stop &&& grown.mask)).toNat) :
    CarriedOver queue (copyRun queue (BitVec.ofNat w stop &&& queue.mask).toNat
        (BitVec.ofNat w stop &&& grown.mask).toNat run.toNat grown) start (stop + run.toNat) := by
  -- Both ends of the copy address the slots of the same consecutive positions.
  have destSlot : ∀ byte < run.toNat, grown.cell ((BitVec.ofNat w stop &&& grown.mask).toNat + byte) =
        (stop + byte) % grown.size := by
    intro byte inside
    rw [cell_span grownFormed _ (by omega), ← slot_add, grownFormed.slot_ofNat, slot_add]
  have sourceSlot : ∀ byte < run.toNat, queue.cell ((BitVec.ofNat w stop &&& queue.mask).toNat + byte) =
        (stop + byte) % queue.size := by
    intro byte inside
    rw [cell_span formed _ (by omega), ← slot_add, formed.slot_ofNat, slot_add]
  have shape := copyRun_shape queue (BitVec.ofNat w stop &&& queue.mask).toNat
    (BitVec.ofNat w stop &&& grown.mask).toNat run.toNat grown
  intro position after before
  rw [shape.size]
  rcases lt_or_ge position stop with old | new
  · -- A position carried before lies within one lap of the run, so the run misses its slot.
    rw [copyRun_miss, carried position after old]
    intro byte inside
    rw [destSlot byte inside]
    exact slot_ne (by omega) (by omega)
  · obtain ⟨byte, rfl⟩ := Nat.exists_eq_add_of_le new
    have inside : byte < run.toNat := by omega
    rw [← destSlot byte inside, copyRun_hit _ inside, Queue.load, sourceSlot byte inside]
    intro left right ordered bound
    rw [destSlot left (by omega), destSlot right bound]
    exact slot_ne (by omega) (by omega)

theorem growLoop_carried {head : Nat} (span : head - start < 2 ^ w) :
    ∀ turns position (grown : Queue w), grown.Formed → start ≤ position → position ≤ head →
      head - start ≤ grown.size → head - position ≤ turns →
      CarriedOver queue grown start position →
      (growLoop queue (BitVec.ofNat w head) turns (BitVec.ofNat w position) grown).SameShape grown ∧
        CarriedOver queue
          (growLoop queue (BitVec.ofNat w head) turns (BitVec.ofNat w position) grown) start head := by
  intro turns
  induction turns with
  | zero =>
    intro position grown _ _ before _ enough carried
    have arrived : position = head := by omega
    exact ⟨⟨rfl, rfl, rfl⟩, arrived ▸ carried⟩
  | succ turns ih =>
    intro position grown grownFormed after before lap enough carried
    rw [growLoop]
    have distance := @distance_toNat w _ _ before (by omega)
    by_cases arrived : BitVec.ofNat w position = BitVec.ofNat w head
    · -- Equal cursors less than a word apart are equal positions.
      have same : position = head := by
        rw [arrived] at distance
        simp only [BitVec.sub_self, BitVec.toNat_ofNat, zero_mod] at distance
        omega
      rw [if_pos arrived]
      exact ⟨⟨rfl, rfl, rfl⟩, same ▸ carried⟩
    · rw [if_neg arrived]
      obtain ⟨positive, within, source, dest⟩ := growRun_spec formed grownFormed arrived
      rw [distance] at within
      generalize growRun queue grown (BitVec.ofNat w head) (BitVec.ofNat w position) = run at *
      have shape := copyRun_shape queue (BitVec.ofNat w position &&& queue.mask).toNat
        (BitVec.ofNat w position &&& grown.mask).toNat run.toNat grown
      have extended := copyRun_carried formed grownFormed after carried (by omega) source dest
      obtain ⟨laterShape, whole⟩ := ih (position + run.toNat) _ (grownFormed.reshape shape)
        (by omega) (by omega) (by rw [shape.size]; exact lap) (by omega) extended
      simp only [advance_eq]
      exact ⟨⟨laterShape.capacity.trans shape.capacity, laterShape.mask.trans shape.mask,
        laterShape.mirror.trans shape.mirror⟩, whole⟩

/-- A successful growth keeps the cursors, the well-formed storage and every unread byte. -/
theorem retroSpscGrow_spec {head : Nat}
    (headIs : queue.head = BitVec.ofNat w head) (tailIs : queue.tail = BitVec.ofNat w start)
    (ordered : start ≤ head) (held : head - start ≤ queue.capacity.toNat)
    (grew : retroSpscGrow platform queue minCapacity = some grown) :
    grown.Formed ∧ queue.capacity ≤ grown.capacity ∧ grown.head = queue.head ∧ grown.tail = queue.tail ∧
      (grown = queue ∨ grown.cachedTail = queue.tail ∧ grown.cachedHead = queue.head) ∧
      CarriedOver queue grown start head := by
  have span : head - start < 2 ^ w := lt_of_le_of_lt held queue.capacity.isLt
  rw [retroSpscGrow] at grew
  split at grew
  · -- The ring is large enough already.
    simp only [some.injEq] at grew
    subst grown
    exact ⟨formed, BitVec.le_refl _, rfl, rfl, .inl rfl, fun _ _ _ => rfl⟩
  · rename_i larger
    obtain ⟨fresh, made, rfl⟩ := map_eq_some_iff.mp grew
    obtain ⟨freshQueue, enough⟩ : fresh.Fresh ∧ minCapacity ≤ fresh.capacity := by
      split at made
      · exact retroSpscInitMirrored_fresh made
      · exact retroSpscInit_fresh made
    have wider : queue.capacity ≤ fresh.capacity :=
      BitVec.le_trans (BitVec.le_of_lt (BitVec.not_le.mp larger)) enough
    have lap : head - start ≤ fresh.size :=
      le_trans held (le_trans (BitVec.le_def.mp wider) freshQueue.formed.fits)
    have turns : (queue.head - queue.tail).toNat = head - start := by
      rw [headIs, tailIs, distance_toNat ordered span]
    rw [turns, headIs, tailIs]
    obtain ⟨shape, carried⟩ := growLoop_carried formed span (head - start) start fresh
      freshQueue.formed (le_refl _) ordered lap (le_refl _) (fun _ _ _ => by omega)
    generalize growLoop queue (BitVec.ofNat w head) (head - start) (BitVec.ofNat w start) fresh =
      storage at shape carried ⊢
    have adopted : (queue.adopt storage).SameShape fresh := ⟨shape.capacity, shape.mask, shape.mirror⟩
    exact ⟨freshQueue.formed.reshape adopted, adopted.capacity ▸ wider, headIs, tailIs, .inr ⟨tailIs, headIs⟩,
      carried⟩

end Libretro.Spsc
