import Libretro.Encodings.InflateCopies

/-! What every pass keeps: the stores stay in the output buffer while the reserve is there. -/

namespace Libretro.Inflate

open Nat

/--
What the stores rest on: few buffered bits, tables of entries, an output inside its buffer, and
distances that lead back.
-/
structure SoundParts (bitcnt skipBits outPos : Nat) (out : List UInt8) (outSize : Nat)
    (lencode distcode : Nat → Nat) (copyActive : Bool) (copyDist ldStep ldDistsym : Nat) :
    Prop where
  bits : bitcnt ≤ 64
  skip : skipBits ≤ 7
  inside : outPos ≤ out.length
  room : out.length ≤ outSize
  lencode : ∀ j, LenEntry (lencode j)
  distcode : ∀ j, DistEntry (distcode j)
  back : copyActive = true → 0 < copyDist
  distsym : ldStep = 3 → ldDistsym < 30

/-- A decoder whose stores have stayed in its buffer. -/
abbrev Sound (s : State) : Prop :=
  SoundParts s.bits.bitcnt s.skipBits s.outPos s.out s.outSize s.lencode.pfast s.distcode.pfast
    s.copyActive s.copyDist s.ldStep s.ldDistsym

/-- The locals of the fast loop point into the output. -/
structure LocalsSound (out : List UInt8) (l : Locals) : Prop where
  bits : l.bits.bitcnt ≤ 64
  inside : l.outPos ≤ out.length
  pre : ∀ e, l.pre = some e → LenEntry e

/-- In a round, the guard's reserve covers a byte for every buffered bit, and the pad. -/
structure ChainSound (out : List UInt8) (outSize : Nat) (l : Locals) (e : Nat) : Prop
    extends LocalsSound out l where
  entry : LenEntry e
  enough : 15 ≤ l.bits.bitcnt
  reserve : l.outPos + l.bits.bitcnt + 210 ≤ outSize

/-- What holds of the locals where a call stands. -/
def PcSound (s : State) : Pc → Prop
  | .fast l => LocalsSound s.out l
  | .chain l e => ChainSound s.out s.outSize l e
  | _ => True

/-- A call inside its buffer, whose size and starting place are known. -/
structure CallSound (size start : Nat) (c : Call) : Prop where
  sound : Sound c.s
  place : PcSound c.s c.pc
  size : c.s.outSize = size
  start : c.outStart = start

/-- A call that is sound wherever it goes on from, as it has no locals. -/
structure SlowSound (size start : Nat) (c : Call) : Prop where
  sound : Sound c.s
  place : ∀ s, PcSound s c.pc
  size : c.s.outSize = size
  start : c.outStart = start

/-- A pass stays inside the buffer, and a call that returns has written no more than its room. -/
def Turn.Keeps (size start : Nat) : Turn → Prop
  | .on c => CallSound size start c
  | .back _ s _ wrote => Sound s ∧ s.outSize = size ∧ wrote ≤ size - start

variable {size start : Nat} {c : Call}

variable (slow : SlowSound size start c)
include slow

theorem SlowSound.call : CallSound size start c := ⟨slow.sound, slow.place _, slow.size, slow.start⟩

omit slow

theorem rinfWindowCommit_kept (s : State) : ∃ window wnext whave wcur wprior,
    rinfWindowCommit s = { s with
      window := window, wnext := wnext, whave := whave, wcur := wcur, wprior := wprior } := by
  by_cases none : ((s.out.take s.outPos).drop s.wcur).length = 0
  · exact ⟨_, _, _, _, _, if_pos none⟩
  · exact ⟨_, _, _, _, _, if_neg none⟩

theorem rinfWindowCommit_sound {s : State} (sound : Sound s) :
    Sound (rinfWindowCommit s) ∧ (rinfWindowCommit s).outSize = s.outSize := by
  obtain ⟨_, _, _, _, _, kept⟩ := rinfWindowCommit_kept s
  rw [kept]
  exact ⟨sound, rfl⟩

theorem finish_keeps (sound : Sound c.s) (same : c.s.outSize = size) (begun : c.outStart = start)
    (status : Status) : (finish c status).Keeps size start := by
  obtain ⟨committed, kept⟩ := rinfWindowCommit_sound sound
  have wrote : (rinfWindowCommit c.s).outPos - c.outStart ≤ size - start := by
    have inside := committed.inside
    have room := committed.room
    omega
  unfold finish
  dsimp only
  split
  · split <;> exact ⟨committed, kept.trans same, wrote⟩
  · exact ⟨committed, kept.trans same, wrote⟩

theorem fail_keeps (sound : Sound c.s) (same : c.s.outSize = size) (begun : c.outStart = start) :
    (fail c).Keeps size start := by
  have wrote : c.s.outPos - c.outStart ≤ size - start := by
    have inside := sound.inside
    have room := sound.room
    omega
  unfold fail
  dsimp only
  split <;> exact ⟨sound, same, wrote⟩

include slow

theorem SlowSound.suspend : (Inflate.suspend c).Keeps size start :=
  finish_keeps slow.sound slow.size slow.start .next

theorem SlowSound.fail : (Inflate.fail c).Keeps size start := fail_keeps slow.sound slow.size slow.start

theorem SlowSound.setBits {bits : Bits} (few : bits.bitcnt ≤ 64) : SlowSound size start (c.setBits bits) :=
  ⟨{ slow.sound with bits := few }, slow.place, slow.size, slow.start⟩

omit slow

include slow

omit slow

theorem fastRefill_bitcnt {bits : Bits} (few : bits.bitcnt < 48) :
    56 ≤ (fastRefill bits).bitcnt ∧ (fastRefill bits).bitcnt ≤ 63 := by
  show 56 ≤ bits.bitcnt + (63 - bits.bitcnt) >>> 3 * 8 ∧ bits.bitcnt + (63 - bits.bitcnt) >>> 3 * 8 ≤ 63
  rw [shiftRight_eq_div_pow]
  omega

theorem rinfEmit_sound {s after : State} (sound : Sound s) {b : UInt8}
    (emitted : rinfEmit s b = some after) : Sound after ∧ after.outSize = s.outSize := by
  unfold rinfEmit at emitted
  split at emitted
  · cases emitted
  · rename_i room
    obtain rfl := Option.some.inj emitted
    have reach := store_length sound.inside [b]
    simp only [List.length_singleton] at reach
    refine ⟨{ sound with inside := ?_, room := ?_ }, rfl⟩
    · show s.outPos + 1 ≤ (store s.out s.outPos [b]).length
      omega
    · have before := sound.room
      show (store s.out s.outPos [b]).length ≤ s.outSize
      omega

include slow

theorem SlowSound.emit {b : UInt8} {after : State}
    (emitted : rinfEmit c.s b = some after) : SlowSound size start { c with s := after } := by
  obtain ⟨sound, same⟩ := rinfEmit_sound slow.sound emitted
  exact ⟨sound, slow.place, same.trans slow.size, slow.start⟩

omit slow

include slow

theorem SlowSound.align : SlowSound size start (c.setBits c.s.bits.align) :=
  slow.setBits ((sub_le _ _).trans slow.sound.bits)

omit slow

include slow

omit slow

include slow

omit slow

include slow

end Libretro.Inflate
