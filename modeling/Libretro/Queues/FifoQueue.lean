import Libretro.Library.Ring
import Libretro.Library.Transition
import Mathlib.Algebra.GroupWithZero.Nat

/-! The byte queue: a ring one byte larger than what it can hold. -/

namespace Libretro.FifoQueue

open List Option Nat

open Ring (put slice)

/-- The queue's buffer and its places in it. -/
structure FifoBuffer where
  buffer : List UInt8
  size : Nat
  first : Nat
  end_ : Nat
deriving DecidableEq

/-- Adding sizes of so many bits, which wraps. -/
def plus (bits a b : Nat) : Nat := (a + b) % 2 ^ bits

/-- Subtracting sizes of so many bits, which wraps. -/
def minus (bits a b : Nat) : Nat := (a + (2 ^ bits - b)) % 2 ^ bits

/-- An allocator of zeroed memory. An object takes at most half of what an address can name. -/
structure Allocator (bits : Nat) where
  calloc : Nat → Option (List UInt8)
  zeroed : ∀ size buffer, calloc size = some buffer → buffer = List.replicate size 0
  half : ∀ size buffer, calloc size = some buffer → 2 * size ≤ 2 ^ bits

/-- A new queue for so many bytes, unless the ring's size wraps or there is no memory. -/
def fifoNew {bits : Nat} (allocator : Allocator bits) (len : BitVec bits) : Option FifoBuffer :=
  if len.toNat = 2 ^ bits - 1 then none
  else
    (allocator.calloc (plus bits len.toNat 1)).map fun buffer =>
      { buffer, size := plus bits len.toNat 1, first := 0, end_ := 0 }

/-- Copying into a buffer, `none` outside of it. -/
def copyIn (buffer : List UInt8) (place : Nat) (bytes : List UInt8) : Option (List UInt8) :=
  if place + bytes.length ≤ buffer.length then some (put buffer place bytes) else none

/-- Copying out of a buffer, `none` outside of it. -/
def copyOut (buffer : List UInt8) (place len : Nat) : Option (List UInt8) :=
  if place + len ≤ buffer.length then some (slice buffer place len) else none

/-- A place moved on, around the end of the ring. -/
def advance (bits size place len : Nat) : Nat :=
  let moved := plus bits place len
  if size ≤ moved then minus bits moved size else moved

/-- Writing some bytes, `none` when a copy leaves the ring. -/
def fifoWrite (bits : Nat) (queue : FifoBuffer) (inBuf : List UInt8) : Option FifoBuffer :=
  let len := inBuf.length
  let tail := minus bits queue.size queue.end_
  let firstWrite := if tail < len then tail else len
  let restWrite := if tail < len then minus bits len tail else 0
  (copyIn queue.buffer queue.end_ (inBuf.take firstWrite)).bind fun buffer =>
    (if 0 < restWrite then copyIn buffer 0 (slice inBuf firstWrite restWrite)
      else some buffer).map fun buffer =>
        { queue with buffer, end_ := advance bits queue.size queue.end_ len }

/-- Reading so many bytes, `none` when a copy leaves the ring. -/
def fifoRead (bits : Nat) (queue : FifoBuffer) (len : Nat) : Option (List UInt8 × FifoBuffer) :=
  let tail := minus bits queue.size queue.first
  let firstRead := if tail < len then tail else len
  let restRead := if tail < len then minus bits len tail else 0
  (copyOut queue.buffer queue.first firstRead).bind fun head =>
    (if 0 < restRead then copyOut queue.buffer 0 restRead else some []).map fun rest =>
      (head ++ rest, { queue with first := advance bits queue.size queue.first len })

/-- How many bytes there are to read. -/
def fifoReadAvail (bits : Nat) (queue : FifoBuffer) : Nat :=
  if queue.end_ < queue.first then minus bits (plus bits queue.end_ queue.size) queue.first
  else minus bits queue.end_ queue.first

/-- How many bytes there is room for. -/
def fifoWriteAvail (bits : Nat) (queue : FifoBuffer) : Nat :=
  minus bits (minus bits queue.size 1) (fifoReadAvail bits queue)

/-- Writing as much as there is room for, and how much that is. -/
def fifoWriteChecked (bits : Nat) (queue : FifoBuffer) (inBuf : List UInt8) : Option (Nat × FifoBuffer) :=
  let avail := fifoWriteAvail bits queue
  let len := if avail < inBuf.length then avail else inBuf.length
  if len = 0 then some (0, queue)
  else (fifoWrite bits queue (inBuf.take len)).map fun queue => (len, queue)

/-- Reading as much as there is, and how much that is. -/
def fifoReadChecked (bits : Nat) (queue : FifoBuffer) (len : Nat) : Option (List UInt8 × FifoBuffer) :=
  let avail := fifoReadAvail bits queue
  let len := if avail < len then avail else len
  if len = 0 then some ([], queue) else fifoRead bits queue len

/-- A call of a client: bytes to write, or how many to read. -/
inductive Call
  | write (inBuf : List UInt8)
  | read (len : Nat)
deriving DecidableEq

/-- What one call leaves, with the bytes it has read. -/
def FifoBuffer.step (bits : Nat) (queue : FifoBuffer) : Call → Option (List UInt8 × FifoBuffer)
  | .write inBuf => (fifoWrite bits queue inBuf).map fun queue => ([], queue)
  | .read len => fifoRead bits queue len

/-- The calls one after another, with what each of them has read. -/
def FifoBuffer.run (bits : Nat) (queue : FifoBuffer) : List Call → Option (List (List UInt8) × FifoBuffer)
  | [] => some ([], queue)
  | call :: rest =>
    (queue.step bits call).bind fun (bytes, next) =>
      (next.run bits rest).map fun (later, final) => (bytes :: later, final)

/-- A call's length is at most what is available. -/
def Call.Respects (bits : Nat) (queue : FifoBuffer) : Call → Prop
  | .write inBuf => inBuf.length ≤ fifoWriteAvail bits queue
  | .read len => len ≤ fifoReadAvail bits queue

instance (bits : Nat) (queue : FifoBuffer) (call : Call) : Decidable (call.Respects bits queue) := by
  cases call <;> unfold Call.Respects <;> infer_instance

/-- Every call of a run respects what is available when it is made. -/
def RunRespects (bits : Nat) (queue : FifoBuffer) : List Call → Prop
  | [] => True
  | call :: rest => call.Respects bits queue ∧
      ∀ bytes next, queue.step bits call = some (bytes, next) → RunRespects bits next rest

/-- The bytes a call writes. -/
def Call.written : Call → List UInt8
  | .write inBuf => inBuf
  | .read _ => []

/-- How many bytes a call asks for. -/
def Call.asked : Call → Nat
  | .write _ => 0
  | .read len => len

/-- The queue is a ring of its size that holds these bytes. -/
structure FifoBuffer.Holds (queue : FifoBuffer) (bits : Nat) (contents : List UInt8) : Prop where
  ring : Ring.Holds queue.buffer queue.first queue.end_ contents
  size : queue.size = queue.buffer.length
  half : 2 * queue.size ≤ 2 ^ bits

variable {bits : Nat} {queue next : FifoBuffer} {contents : List UInt8}

theorem plus_eq {a b : Nat} (room : a + b < 2 ^ bits) : plus bits a b = a + b := mod_eq_of_lt room

theorem minus_eq {a b : Nat} (order : b ≤ a) (room : a < 2 ^ bits) : minus bits a b = a - b := by
  have turned : a + (2 ^ bits - b) = a - b + 2 ^ bits := by omega
  rw [minus, turned, add_mod_right, mod_eq_of_lt (by omega)]

theorem advance_eq {size place len : Nat} (half : 2 * size ≤ 2 ^ bits) (inside : place < size)
    (short : len < size) :
    advance bits size place len = if size ≤ place + len then place + len - size else place + len := by
  rw [advance, plus_eq (by omega)]
  split
  · exact minus_eq (by omega) (by omega)
  · rfl

variable (holds : queue.Holds bits contents)
include holds

theorem FifoBuffer.Holds.readAvail : fifoReadAvail bits queue = contents.length := by
  have first := holds.ring.first_lt
  have last := holds.ring.last_lt
  have half := holds.half
  have size := holds.size
  rw [holds.ring.length_eq, fifoReadAvail]
  by_cases around : queue.end_ < queue.first
  · rw [if_pos around, if_pos around, plus_eq (by omega), minus_eq (by omega) (by omega), size]
  · rw [if_neg around, if_neg around, minus_eq (by omega) (by omega)]

theorem FifoBuffer.Holds.writeAvail : fifoWriteAvail bits queue = queue.size - 1 - contents.length := by
  have short := holds.ring.length_lt
  have half := holds.half
  have size := holds.size
  rw [fifoWriteAvail, holds.readAvail, minus_eq (a := queue.size) (by omega) (by omega),
    minus_eq (by omega) (by omega)]

theorem FifoBuffer.Holds.fifoWrite_straight
    {inBuf : List UInt8} (fits : inBuf.length ≤ queue.size - queue.end_) :
    fifoWrite bits queue inBuf =
      some { queue with
        buffer := put queue.buffer queue.end_ inBuf
        end_ := advance bits queue.size queue.end_ inBuf.length } := by
  -- The place behind the contents is in front of the ring's end.
  have last := holds.ring.last_lt
  have half := holds.half
  have size := holds.size
  have tail : minus bits queue.size queue.end_ = queue.size - queue.end_ := minus_eq (by omega) (by omega)
  have copied : copyIn queue.buffer queue.end_ inBuf = some (put queue.buffer queue.end_ inBuf) :=
    if_pos (by omega)
  simp only [fifoWrite, tail]
  rw [if_neg (Nat.not_lt_of_le fits), if_neg (Nat.not_lt_of_le fits), take_length, copied]
  rfl

theorem FifoBuffer.Holds.fifoWrite_wrapped
    {head tail : List UInt8} (short : head.length + tail.length < queue.size)
    (reaches : queue.end_ + head.length = queue.size) (more : tail ≠ []) :
    fifoWrite bits queue (head ++ tail) =
      some { queue with
        buffer := put (put queue.buffer queue.end_ head) 0 tail
        end_ := advance bits queue.size queue.end_ (head ++ tail).length } := by
  -- The first piece is as long as the rest of the ring.
  have last := holds.ring.last_lt
  have half := holds.half
  have size := holds.size
  have positive := length_pos_iff.2 more
  have first : minus bits queue.size queue.end_ = head.length := by
    rw [minus_eq (by omega) (by omega)]
    omega
  have rest : minus bits (head ++ tail).length head.length = tail.length := by
    rw [length_append, minus_eq (by omega) (by omega)]
    omega
  have crosses : head.length < (head ++ tail).length := by
    rw [length_append]
    omega
  have copied : copyIn queue.buffer queue.end_ head = some (put queue.buffer queue.end_ head) :=
    if_pos (by omega)
  have kept : (put queue.buffer queue.end_ head).length = queue.buffer.length := Ring.length_put (by omega)
  have again : copyIn (put queue.buffer queue.end_ head) 0 tail =
      some (put (put queue.buffer queue.end_ head) 0 tail) := if_pos (by omega)
  have behind : slice (head ++ tail) head.length tail.length = tail := by rw [slice, drop_left, take_length]
  simp only [fifoWrite, first]
  rw [if_pos crosses, if_pos crosses, rest, take_left, copied, bind_some, if_pos positive, behind, again]
  rfl

theorem FifoBuffer.Holds.write (inBuf : List UInt8) (room : inBuf.length ≤ fifoWriteAvail bits queue) :
    ∃ next, fifoWrite bits queue inBuf = some next ∧ next.Holds bits (contents ++ inBuf) ∧
      next.size = queue.size := by
  have last := holds.ring.last_lt
  have short := holds.ring.length_lt
  have half := holds.half
  have size := holds.size
  rw [holds.writeAvail] at room
  have moved := advance_eq half (size ▸ last) (show inBuf.length < queue.size by omega)
  by_cases crosses : queue.size - queue.end_ < inBuf.length
  · -- The bytes go around the end of the ring.
    obtain ⟨head, tail, rfl, reaches⟩ : ∃ head tail, inBuf = head ++ tail ∧
        queue.end_ + head.length = queue.size := by
      refine ⟨_, _, (take_append_drop (queue.size - queue.end_) inBuf).symm, ?_⟩
      rw [length_take_of_le (by omega)]
      omega
    rw [length_append] at room crosses
    have more : tail ≠ [] := by
      rw [← length_pos_iff]
      omega
    refine ⟨_, holds.fifoWrite_wrapped (by omega) reaches more, ⟨?_, ?_, half⟩, rfl⟩
    · have after := holds.ring.put_wrap head tail (by omega) (by omega)
      have place : advance bits queue.size queue.end_ (head ++ tail).length = tail.length := by
        rw [moved, length_append]
        split <;> omega
      dsimp only
      rw [place]
      exact after
    · have kept : (put queue.buffer queue.end_ head).length = queue.buffer.length :=
        Ring.length_put (by omega)
      exact size.trans (by rw [Ring.length_put (by omega), kept])
  · refine ⟨_, holds.fifoWrite_straight (by omega), ⟨?_, ?_, half⟩, rfl⟩
    · by_cases reaches : queue.size ≤ queue.end_ + inBuf.length
      · -- The bytes end where the ring does, and the next ones begin at its front.
        have after := holds.ring.put_wrap inBuf [] (by rw [length_nil]; omega) (by omega)
        have nothing : ∀ buffer : List UInt8, put buffer 0 [] = buffer := fun _ => rfl
        have place : advance bits queue.size queue.end_ inBuf.length = 0 := by
          rw [moved, if_pos reaches]
          omega
        rw [nothing, append_nil] at after
        dsimp only
        rw [place]
        exact after
      · dsimp only
        rw [moved, if_neg reaches]
        exact holds.ring.put (by omega) (by omega)
    · exact size.trans (Ring.length_put (by omega)).symm

theorem FifoBuffer.Holds.fifoRead_straight {len : Nat} (fits : len ≤ queue.size - queue.first) :
    fifoRead bits queue len = some (slice queue.buffer queue.first len,
        { queue with first := advance bits queue.size queue.first len }) := by
  -- The first place is in front of the ring's end.
  have first := holds.ring.first_lt
  have half := holds.half
  have size := holds.size
  have tail : minus bits queue.size queue.first = queue.size - queue.first := minus_eq (by omega) (by omega)
  have copied : copyOut queue.buffer queue.first len = some (slice queue.buffer queue.first len) :=
    if_pos (by omega)
  simp only [fifoRead, tail]
  rw [if_neg (Nat.not_lt_of_le fits), if_neg (Nat.not_lt_of_le fits), copied]
  simp

theorem FifoBuffer.Holds.fifoRead_wrapped {head tail : Nat}
    (short : head + tail < queue.size) (reaches : queue.first + head = queue.size) (more : 0 < tail) :
    fifoRead bits queue (head + tail) =
      some (slice queue.buffer queue.first head ++ slice queue.buffer 0 tail,
        { queue with first := advance bits queue.size queue.first (head + tail) }) := by
  -- The first piece is as long as the rest of the ring.
  have first := holds.ring.first_lt
  have half := holds.half
  have size := holds.size
  have begun : minus bits queue.size queue.first = head := by
    rw [minus_eq (by omega) (by omega)]
    omega
  have rest : minus bits (head + tail) head = tail := by
    rw [minus_eq (by omega) (by omega)]
    omega
  have copied : copyOut queue.buffer queue.first head = some (slice queue.buffer queue.first head) :=
    if_pos (by omega)
  have again : copyOut queue.buffer 0 tail = some (slice queue.buffer 0 tail) := if_pos (by omega)
  have crosses : head < head + tail := by omega
  simp only [fifoRead, begun]
  rw [if_pos crosses, if_pos crosses, rest, copied, bind_some, if_pos more, again]
  rfl

theorem FifoBuffer.Holds.read (len : Nat) (there : len ≤ fifoReadAvail bits queue) :
    ∃ next, fifoRead bits queue len = some (contents.take len, next) ∧
      next.Holds bits (contents.drop len) ∧ next.size = queue.size := by
  have first := holds.ring.first_lt
  have short := holds.ring.length_lt
  have half := holds.half
  have size := holds.size
  rw [holds.readAvail] at there
  have moved := advance_eq half (size ▸ first) (show len < queue.size by omega)
  by_cases crosses : queue.size - queue.first < len
  · -- The bytes go around the end of the ring.
    obtain ⟨head, tail, rfl, reaches⟩ : ∃ head tail, len = head + tail ∧
        queue.first + head = queue.size := ⟨_, _, (Nat.add_sub_of_le (Nat.le_of_lt crosses)).symm, by omega⟩
    obtain ⟨bytes, after⟩ := holds.ring.slice_wrap head tail there (by omega)
    have place : advance bits queue.size queue.first (head + tail) = tail := by
      rw [moved]
      split <;> omega
    refine ⟨{ queue with first := tail }, ?_, ⟨after, size, half⟩, rfl⟩
    rw [holds.fifoRead_wrapped (by omega) reaches (by omega), bytes, place]
  · by_cases reaches : queue.size ≤ queue.first + len
    · -- The bytes end where the ring does, and the next ones begin at its front.
      obtain ⟨bytes, after⟩ := holds.ring.slice_wrap len 0 there (by omega)
      have place : advance bits queue.size queue.first len = 0 := by
        rw [moved, if_pos reaches]
        omega
      have nothing : slice queue.buffer 0 0 = [] := rfl
      rw [nothing, append_nil] at bytes
      refine ⟨{ queue with first := 0 }, ?_, ⟨after, size, half⟩, rfl⟩
      rw [holds.fifoRead_straight (by omega), bytes, place, add_zero]
    · obtain ⟨bytes, after⟩ := holds.ring.slice there (by omega)
      refine ⟨{ queue with first := queue.first + len }, ?_, ⟨after, size, half⟩, rfl⟩
      rw [holds.fifoRead_straight (by omega), bytes, moved, if_neg reaches]

theorem FifoBuffer.Holds.writeChecked (inBuf : List UInt8) : ∃ next, fifoWriteChecked bits queue inBuf =
        some (min (fifoWriteAvail bits queue) inBuf.length, next) ∧
      next.Holds bits (contents ++ inBuf.take (fifoWriteAvail bits queue)) ∧ next.size = queue.size := by
  have clamped : (if fifoWriteAvail bits queue < inBuf.length then fifoWriteAvail bits queue
      else inBuf.length) = min (fifoWriteAvail bits queue) inBuf.length := by
    split <;> omega
  simp only [fifoWriteChecked, clamped]
  by_cases nothing : min (fifoWriteAvail bits queue) inBuf.length = 0
  · -- A full ring or an empty input leaves the queue as it is.
    rw [if_pos nothing, nothing]
    have none_taken : inBuf.take (fifoWriteAvail bits queue) = [] := by
      rw [← length_eq_zero_iff, length_take, nothing]
    exact ⟨queue, rfl, by rwa [none_taken, append_nil], rfl⟩
  · rw [if_neg nothing, take_eq_take_min (i := fifoWriteAvail bits queue)]
    obtain ⟨next, ran, after, size⟩ := holds.write
      (inBuf.take (min (fifoWriteAvail bits queue) inBuf.length)) (by
        rw [length_take]
        omega)
    exact ⟨next, by rw [ran, map_some], after, size⟩

theorem FifoBuffer.Holds.readChecked (len : Nat) :
    ∃ next, fifoReadChecked bits queue len = some (contents.take len, next) ∧
      next.Holds bits (contents.drop len) ∧ next.size = queue.size := by
  have clamped : (if fifoReadAvail bits queue < len then fifoReadAvail bits queue else len) =
      min contents.length len := by
    rw [holds.readAvail]
    split <;> omega
  simp only [fifoReadChecked, clamped]
  by_cases nothing : min contents.length len = 0
  · -- An empty ring or a read of nothing leaves the queue as it is.
    rw [if_pos nothing]
    rcases min_eq_zero_iff.1 nothing with empty | rfl
    · obtain rfl := length_eq_zero_iff.1 empty
      exact ⟨queue, by rw [take_nil], by rwa [drop_nil], rfl⟩
    · exact ⟨queue, rfl, holds, rfl⟩
  · rw [if_neg nothing]
    obtain ⟨next, ran, after, size⟩ := holds.read (min contents.length len) (by
      rw [holds.readAvail]
      exact Nat.min_le_left _ _)
    refine ⟨next, ?_, ?_, size⟩
    · rw [ran, Nat.min_comm, ← take_eq_take_min]
    · rwa [Nat.min_comm, ← drop_eq_drop_min] at after

omit holds

theorem fifoNew_holds {allocator : Allocator bits} {len : BitVec bits}
    (made : fifoNew allocator len = some queue) :
    queue.Holds bits [] ∧ queue.size = len.toNat + 1 := by
  -- The ring's size does not wrap, and its memory is not more than an object can take.
  have inside := len.isLt
  rw [fifoNew] at made
  split at made
  · cases made
  · rename_i short
    obtain ⟨buffer, granted, rfl⟩ := map_eq_some_iff.1 made
    have size : plus bits len.toNat 1 = len.toNat + 1 := plus_eq (by omega)
    rw [size] at granted
    have zeroed := allocator.zeroed _ _ granted
    have half := allocator.half _ _ granted
    dsimp only
    rw [size]
    refine ⟨⟨Ring.holds_nil ?_, ?_, half⟩, rfl⟩
    · rw [zeroed, replicate_succ]
      exact cons_ne_nil _ _
    · rw [zeroed, length_replicate]

include holds

theorem FifoBuffer.Holds.step {call : Call} (respects : call.Respects bits queue) :
    ∃ bytes next after, queue.step bits call = some (bytes, next) ∧ next.Holds bits after ∧
      next.size = queue.size ∧ contents ++ call.written = bytes ++ after ∧
      bytes.length = call.asked := by
  cases call with
  | write inBuf =>
    obtain ⟨next, ran, after, size⟩ := holds.write _ respects
    refine ⟨[], next, contents ++ inBuf, ?_, after, size, rfl, rfl⟩
    rw [FifoBuffer.step, ran, map_some]
  | read len =>
    obtain ⟨next, ran, after, size⟩ := holds.read _ respects
    refine ⟨contents.take len, next, contents.drop len, ran, after, size, ?_, ?_⟩
    · rw [Call.written, append_nil, take_append_drop]
    · have there : len ≤ fifoReadAvail bits queue := respects
      rw [holds.readAvail] at there
      exact length_take_of_le there

theorem FifoBuffer.Holds.run {calls : List Call} (respects : RunRespects bits queue calls) :
    ∃ reads final after, queue.run bits calls = some (reads, final) ∧ final.Holds bits after ∧
      final.size = queue.size ∧
      contents ++ calls.flatMap Call.written = reads.flatten ++ after ∧
      reads.map length = calls.map Call.asked := by
  -- The induction follows the calls, from any contents.
  induction calls generalizing queue contents with
  | nil => exact ⟨[], queue, contents, rfl, holds, rfl, append_nil _, rfl⟩
  | cons call rest ih =>
    obtain ⟨bytes, next, middle, stepped, holdsNext, size, moved, asked⟩ := holds.step respects.1
    obtain ⟨reads, final, after, ran, holdsFinal, sizeFinal, written, lengths⟩ :=
      ih holdsNext (respects.2 bytes next stepped)
    refine ⟨bytes :: reads, final, after, ?_, holdsFinal, sizeFinal.trans size, ?_, ?_⟩
    · simp only [FifoBuffer.run, stepped, ran, bind_some, map_some]
    · rw [flatMap_cons, ← append_assoc, moved, append_assoc, written,
        flatten_cons, append_assoc]
    · rw [map_cons, map_cons, asked, lengths]

omit holds

/-- In every run of writes and reads that respect what is available, the bytes that are read are the
bytes that are written, in order, up to those that the queue still holds. Its places are in its
ring, and what can be read and what can be written make up its capacity. -/
theorem run_fifo {allocator : Allocator bits} {len : BitVec bits}
    (made : fifoNew allocator len = some queue) {calls : List Call}
    (respects : RunRespects bits queue calls) :
    ∃ reads final contents, queue.run bits calls = some (reads, final) ∧
      calls.flatMap Call.written = reads.flatten ++ contents ∧
      reads.map List.length = calls.map Call.asked ∧
      fifoReadAvail bits final = contents.length ∧
      fifoReadAvail bits final + fifoWriteAvail bits final = len.toNat ∧
      final.buffer.length = len.toNat + 1 ∧
      final.first < final.buffer.length ∧ final.end_ < final.buffer.length := by
  obtain ⟨empty, size⟩ := fifoNew_holds made
  obtain ⟨reads, final, contents, ran, holds, same, written, lengths⟩ := empty.run respects
  have short := holds.ring.length_lt
  have ring := holds.size
  refine ⟨reads, final, contents, ran, written, lengths, holds.readAvail, ?_, by omega,
    holds.ring.first_lt, holds.ring.last_lt⟩
  rw [holds.writeAvail, holds.readAvail]
  omega

/-- An allocator that grants whatever is not too large. -/
def generous (bits : Nat) : Allocator bits where
  calloc size := if 2 * size ≤ 2 ^ bits then some (List.replicate size 0) else none
  zeroed := by
    intro size buffer granted
    split at granted
    · exact (Option.some.inj granted).symm
    · cases granted
  half := by
    intro size buffer granted
    split at granted
    · assumption
    · cases granted

/-- A queue of three bytes that is filled, read and filled again around the end of its ring. -/
theorem run_fifo_around : ∃ final, FifoBuffer.run 64 ⟨[0, 0, 0, 0], 4, 0, 0⟩
      [.write [1, 2, 3], .read 2, .write [4, 5], .read 3] = some ([[], [1, 2], [], [3, 4, 5]], final) ∧
    fifoReadAvail 64 final + fifoWriteAvail 64 final = 3 := by
  have made : fifoNew (generous 64) 3#64 = some ⟨[0, 0, 0, 0], 4, 0, 0⟩ := by decide
  have respects : RunRespects 64 ⟨[0, 0, 0, 0], 4, 0, 0⟩
      [.write [1, 2, 3], .read 2, .write [4, 5], .read 3] := by
    -- Each call finds the bytes or the room it needs.
    refine ⟨by decide, ?_⟩
    rintro _ _ ⟨⟩
    refine ⟨by decide, ?_⟩
    rintro _ _ ⟨⟩
    refine ⟨by decide, ?_⟩
    rintro _ _ ⟨⟩
    refine ⟨by decide, ?_⟩
    rintro _ _ ⟨⟩
    trivial
  obtain ⟨reads, final, contents, ran, -, -, -, total, -⟩ := run_fifo made respects
  have answers : reads = [[], [1, 2], [], [3, 4, 5]] := by
    have first := congrArg (Option.map Prod.fst) ran
    exact (some.inj (first.symm.trans (by decide)))
  exact ⟨final, answers ▸ ran, total⟩

/-- A call that moves no more than is available. -/
inductive CheckedCall
  | write (inBuf : List UInt8)
  | read (len : Nat)
  | clear

/-- Forgetting what is there. -/
def fifoClear (queue : FifoBuffer) : FifoBuffer := { queue with first := 0, end_ := 0 }

/-- What a call answers, how much moved and the bytes, and the queue behind it. -/
def FifoBuffer.checked (bits : Nat) (queue : FifoBuffer) (call : CheckedCall) :
    Option (Nat × List UInt8) × FifoBuffer :=
  let moved := match call with
    | .write inBuf => (fifoWriteChecked bits queue inBuf).map fun (len, next) => ((len, []), next)
    | .read len => (fifoReadChecked bits queue len).map fun (bytes, next) => ((bytes.length, bytes), next)
    | .clear => some ((0, []), fifoClear queue)
  match moved with
  | some (answer, next) => (some answer, next)
  | none => (none, queue)

/-- The same calls on a list of at most so many bytes. -/
def bounded (capacity : Nat) (contents : List UInt8) :
    CheckedCall → Option (Nat × List UInt8) × List UInt8
  | .write inBuf =>
    let taken := inBuf.take (capacity - contents.length)
    (some (taken.length, []), contents ++ taken)
  | .read len => (some ((contents.take len).length, contents.take len), contents.drop len)
  | .clear => (some (0, []), [])

/-- In every run of checked calls, with any lengths, a new queue answers as a list of at most so many
bytes does, and never copies outside of its ring. -/
theorem checked_fifo {allocator : Allocator bits} {len : BitVec bits}
    (made : fifoNew allocator len = some queue) (calls : List CheckedCall) :
    Transition.answers (FifoBuffer.checked bits) queue calls =
      Transition.answers (bounded len.toNat) [] calls := by
  refine @Transition.answers_eq _ _ _ _ _ _ (fun queue contents =>
    queue.Holds bits contents ∧ queue.size = len.toNat + 1) ?_ calls _ _ (fifoNew_holds made)
  -- Each call keeps the contents and the size.
  rintro queue contents call ⟨holds, size⟩
  cases call with
  | write inBuf =>
    obtain ⟨next, ran, after, same⟩ := holds.writeChecked inBuf
    have room : fifoWriteAvail bits queue = len.toNat - contents.length := by
      rw [holds.writeAvail, size, Nat.add_sub_cancel]
    rw [room] at ran after
    simp only [FifoBuffer.checked, ran, map_some, bounded, length_take]
    exact ⟨trivial, after, same.trans size⟩
  | read count =>
    obtain ⟨next, ran, after, same⟩ := holds.readChecked count
    simp only [FifoBuffer.checked, ran, map_some, bounded]
    exact ⟨trivial, after, same.trans size⟩
  | clear =>
    have inside := length_pos_iff.1 (Nat.zero_lt_of_lt holds.ring.first_lt)
    exact ⟨rfl, ⟨Ring.holds_nil inside, holds.size, holds.half⟩, size⟩

/-- More is asked for than there is room and than there is. -/
theorem checked_fifo_clamped : Transition.answers (FifoBuffer.checked 64) ⟨[0, 0, 0], 3, 0, 0⟩
      [.write [1, 2, 3], .read 1, .write [4], .read 5] =
    [some (2, []), some (1, [1]), some (1, []), some (2, [2, 4])] := by
  have made : fifoNew (generous 64) 2#64 = some ⟨[0, 0, 0], 3, 0, 0⟩ := by decide
  exact (checked_fifo made _).trans (by decide)

end Libretro.FifoQueue
