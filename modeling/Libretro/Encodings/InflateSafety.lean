import Libretro.Encodings.InflateRoom
import Libretro.Library.Transition

/-! No byte is stored past the output buffer, as long as the fast loop's reserve is not spent. -/

namespace Libretro.Inflate

open Nat

variable {size start : Nat} {c : Call} {l : Locals}

variable (slow : SlowSound size start c)
include slow

omit slow

include slow

omit slow

/-- A call in the fast loop. -/
structure FastSound (size start : Nat) (c : Call) (l : Locals) : Prop where
  sound : Sound c.s
  locals : LocalsSound c.s.out l
  size : c.s.outSize = size
  start : c.outStart = start

variable (fast : FastSound size start c l)
include fast

theorem FastSound.writeBack : Sound (c.writeBack l).s :=
  { fast.sound with bits := fast.locals.bits, inside := fast.locals.inside }

theorem FastSound.leave : (leaveFast l c).Keeps size start := ⟨fast.writeBack, trivial, fast.size, fast.start⟩

theorem FastSound.failing : (failFast l c).Keeps size start := by
  apply fail_keeps
  · exact { fast.sound with inside := fast.locals.inside }
  · exact fast.size
  · exact fast.start

theorem FastSound.withBits {bits : Bits}
    (few : bits.bitcnt ≤ 64) : FastSound size start c { l with bits := bits } :=
  ⟨fast.sound, { fast.locals with bits := few }, fast.size, fast.start⟩

theorem FastSound.shift (n : Nat) : FastSound size start c { l with bits := l.bits.shift n } :=
  fast.withBits ((sub_le _ _).trans fast.locals.bits)

omit fast

include fast

omit fast

include fast

omit fast

include slow

omit slow

/-- A decoder between calls, with what the last call wrote and its room, or in one. -/
inductive Session where
  | idle (s : State) (wrote room : Nat)
  | busy (call : Call) (room : Nat)

/-- What a caller does with the decoder, and the passes of its calls. -/
inductive Session.Step : Session → Session → Prop
  | setIn (s : State) (wrote room : Nat) (bytes : List UInt8) :
      Step (.idle s wrote room) (.idle (rinflateSetIn s bytes) wrote room)
  | setOut (s : State) (wrote room size : Nat) :
      Step (.idle s wrote room) (.idle (rinflateSetOut s size) wrote room)
  | extendOut (s : State) (wrote room size : Nat) :
      Step (.idle s wrote room) (.idle (rinflateExtendOut s size) wrote room)
  | setDictionary (s : State) (wrote room : Nat) (dict : List UInt8) :
      Step (.idle s wrote room) (.idle (rinflateSetDictionary s dict) wrote room)
  | setStopAtBlock (s : State) (wrote room : Nat) (stop : Bool) :
      Step (.idle s wrote room) (.idle (rinflateSetStopAtBlock s stop) wrote room)
  | setStartBit (s : State) (wrote room bits : Nat) :
      Step (.idle s wrote room) (.idle (rinflateSetStartBit s bits) wrote room)
  | reset (s : State) (wrote room : Nat) (windowBits : Int) :
      Step (.idle s wrote room) (.idle (rinflateReset s windowBits) wrote room)
  | process (s : State) (wrote room : Nat) :
      Step (.idle s wrote room) (.busy (rinflateEnter s) (s.outSize - s.outPos))
  | pass {call next : Call} (room : Nat) (moves : call.step = .on next) :
      Step (.busy call room) (.busy next room)
  | back {call : Call} (room : Nat) {status : Status} {s : State} {read wrote : Nat}
      (returns : call.step = .back status s read wrote) :
      Step (.busy call room) (.idle s wrote room)

/-- What every session whose reserve is not spent keeps. -/
def Session.Sound : Session → Prop
  | .idle s wrote room => Inflate.Sound s ∧ wrote ≤ room
  | .busy call room => ∃ size start, CallSound size start call ∧ room = size - start

end Libretro.Inflate
