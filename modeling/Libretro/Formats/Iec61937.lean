import Mathlib.Data.List.Basic
import Mathlib.Algebra.GroupWithZero.Nat
import Mathlib.Tactic.IntervalCases

/-! IEC 61937 bursts: a compressed audio frame in the guise of 16-bit samples. -/

namespace Libretro.Iec61937

open List Nat

/-- The data types a burst is labelled with. -/
def iec61937Ac3 : Nat := 1
def iec61937Pause : Nat := 3
def iec61937DtsI : Nat := 11
def iec61937DtsII : Nat := 12
def iec61937DtsIII : Nat := 13
def iec61937Eac3 : Nat := 21

def iec61937Ac3BurstBytes : Nat := 1536 * 4
def iec61937Eac3BurstBytes : Nat := 1536 * 4 * 4
def iec61937PauseBurstBytes : Nat := 64

/-- A value as a 16-bit sample. -/
def put16 (v : Nat) : List UInt8 := [.ofNat v, .ofNat (v >>> 8)]

/-- The payload in words whose bytes are swapped; an odd byte is the high one of a last word. -/
def words : List UInt8 → List UInt8
  | a :: b :: payload => b :: a :: words payload
  | [a] => [0, a]
  | [] => []

/-- The length as the preamble gives it. -/
def storedLength (payload : List UInt8) (lengthIsBits : Bool) : Nat :=
  if lengthIsBits then payload.length * 8 else payload.length

/-- The bytes a burst is written as from the start of the buffer on, or nothing if it is refused. What
is left of the period behind the payload is an unsigned difference. -/
def iec61937Burst (type : Nat) (payload : List UInt8) (lengthIsBits : Bool)
    (periodBytes cap : UInt64) : Option (List UInt8) :=
  if cap < periodBytes then none
  else if periodBytes.toNat < (8 + payload.length) % 2 ^ 64 then none
  else some (put16 0xF872 ++ put16 0x4E1F ++ put16 type ++ put16 (storedLength payload lengthIsBits) ++
    words payload ++ .replicate (periodBytes - 8 - .ofNat (payload.length + payload.length % 2)).toNat 0)

def iec61937WrapAc3 (frame : List UInt8) (bsmod : Nat) (cap : UInt64) : Option (List UInt8) :=
  iec61937Burst (iec61937Ac3 ||| ((bsmod &&& 7) <<< 8)) frame true (.ofNat iec61937Ac3BurstBytes) cap

def iec61937WrapEac3 (frames : List UInt8) (cap : UInt64) : Option (List UInt8) :=
  iec61937Burst iec61937Eac3 frames false (.ofNat iec61937Eac3BurstBytes) cap

/-- The data type of frames of so many samples. -/
def dtsType (pcmFrames : Nat) : Option Nat :=
  match pcmFrames with
  | 512 => some iec61937DtsI
  | 1024 => some iec61937DtsII
  | 2048 => some iec61937DtsIII
  | _ => none

def iec61937WrapDts (frame : List UInt8) (pcmFrames : Nat) (cap : UInt64) : Option (List UInt8) :=
  (dtsType pcmFrames).bind fun type =>
    iec61937Burst type frame true (.ofNat (pcmFrames * 4)) cap

/-- The length of a gap as four bytes, the highest first. -/
def gapBytes (gapFrames : Nat) : List UInt8 :=
  [.ofNat (gapFrames >>> 24), .ofNat (gapFrames >>> 16), .ofNat (gapFrames >>> 8), .ofNat gapFrames]

def iec61937PauseBurst (gapFrames : Nat) (cap : UInt64) : Option (List UInt8) :=
  iec61937Burst iec61937Pause (gapBytes gapFrames) true (.ofNat iec61937PauseBurstBytes) cap

/-- The data type and the payload's length in bytes of what begins with a preamble. -/
def iec61937Probe : List UInt8 → Option (Nat × Nat)
  | 0x72 :: 0xF8 :: 0x1F :: 0x4E :: c :: c' :: d :: d' :: _ =>
    let pc := c.toNat ||| (c'.toNat <<< 8)
    let pd := d.toNat ||| (d'.toNat <<< 8)
    let t := pc &&& 0x1F
    some (t, if t = iec61937Eac3 then pd else (pd + 7) / 8)
  | _ => none

/-- A burst is refused, or takes its period and gives the payload back once its words are swapped again. -/
def Right (type : Nat) (payload : List UInt8) (lengthIsBits : Bool) (periodBytes cap : UInt64) : Prop :=
  ∀ bytes, iec61937Burst type payload lengthIsBits periodBytes cap = some bytes →
    bytes.length = periodBytes.toNat ∧ (words (bytes.drop 8)).take payload.length = payload

/-- A call of one of the wrap functions. -/
inductive Wrap where
  | ac3 (frame : List UInt8) (bsmod : Nat)
  | eac3 (frames : List UInt8)
  | dts (frame : List UInt8) (pcmFrames : Nat)
  | pause (gapFrames : Nat)

/-- What the call writes. -/
def Wrap.burst (cap : UInt64) : Wrap → Option (List UInt8)
  | .ac3 frame bsmod => iec61937WrapAc3 frame bsmod cap
  | .eac3 frames => iec61937WrapEac3 frames cap
  | .dts frame pcmFrames => iec61937WrapDts frame pcmFrames cap
  | .pause gapFrames => iec61937PauseBurst gapFrames cap

/-- The data type of what the call carries, and its length. -/
def Wrap.carries : Wrap → Option (Nat × Nat)
  | .ac3 frame _ => some (iec61937Ac3, frame.length)
  | .eac3 frames => some (iec61937Eac3, frames.length)
  | .dts frame pcmFrames => (dtsType pcmFrames).map (·, frame.length)
  | .pause _ => some (iec61937Pause, 4)

variable {type : Nat} {payload bytes : List UInt8} {lengthIsBits : Bool} {periodBytes cap : UInt64}

theorem length_words (payload : List UInt8) :
    (words payload).length = payload.length + payload.length % 2 := by
  -- Two bytes make a word.
  fun_induction words payload with
  | case1 a b payload ih =>
    rw [length_cons, length_cons, ih, length_cons, length_cons]
    omega
  | case2 | case3 => rfl

theorem words_words (payload behind : List UInt8) :
    (words (words payload ++ behind)).take payload.length = payload := by
  fun_induction words payload with
  | case1 a b payload ih => rw [cons_append, cons_append, words]; simpa using ih
  | case2 a => rfl
  | case3 => rfl

/-- What the buffer holds of a burst: the preamble, the words and what is zeroed. -/
theorem burst_spec (written : iec61937Burst type payload lengthIsBits periodBytes cap = some bytes) :
    ¬cap < periodBytes ∧ (8 + payload.length) % 2 ^ 64 ≤ periodBytes.toNat ∧
      ∃ preamble : List UInt8, preamble.length = 8 ∧ bytes = preamble ++ (words payload ++
        .replicate (periodBytes - 8 - .ofNat (payload.length + payload.length % 2)).toNat 0) := by
  unfold iec61937Burst at written
  split_ifs at written with small long
  obtain rfl := Option.some.inj written
  exact ⟨small, Nat.le_of_not_lt long, _, rfl, append_assoc ..⟩

theorem burst_right (room : 8 + payload.length + payload.length % 2 ≤ periodBytes.toNat) :
    Right type payload lengthIsBits periodBytes cap := by
  intro bytes written
  obtain ⟨-, -, preamble, eight, rfl⟩ := burst_spec written
  constructor
  · have most := periodBytes.toNat_lt
    rw [length_append, length_append, length_replicate, length_words, eight,
      UInt64.toNat_sub, UInt64.toNat_sub, UInt64.toNat_ofNat']
    simp only [UInt64.reduceToNat]
    omega
  · rw [← eight, drop_left, words_words]

/-- A payload that leaves no room for its last word is followed by zeros far past the period. -/
theorem burst_overruns (fits : ¬cap < periodBytes)
    (checked : (8 + payload.length) % 2 ^ 64 ≤ periodBytes.toNat)
    (past : periodBytes.toNat < 8 + payload.length + payload.length % 2) :
    ¬Right type payload lengthIsBits periodBytes cap := by
  intro right
  have taken : ∃ bytes, iec61937Burst type payload lengthIsBits periodBytes cap = some bytes := by
    rw [iec61937Burst, if_neg fits, if_neg (not_lt.mpr checked)]
    exact ⟨_, rfl⟩
  obtain ⟨bytes, written⟩ := taken
  have length := (right bytes written).1
  obtain ⟨-, -, preamble, eight, rfl⟩ := burst_spec written
  rw [length_append, length_append, length_words, eight] at length
  omega

theorem or_shift (v : Nat) :
    (UInt8.ofNat v).toNat ||| ((UInt8.ofNat (v >>> 8)).toNat <<< 8) = v % 2 ^ 16 := by
  rw [UInt8.toNat_ofNat', UInt8.toNat_ofNat', Nat.or_comm, ← Nat.shiftLeft_add_eq_or_of_lt (by omega),
    shiftLeft_eq, shiftRight_eq_div_pow]
  omega

/-- A burst is read as what it was made of where its type says how the length is stored, and the period
is not so long that the length outgrows 16 bits. -/
theorem probe_burst (written : iec61937Burst type payload lengthIsBits periodBytes cap = some bytes)
    (kind : lengthIsBits = decide (type % 2 ^ 5 ≠ iec61937Eac3))
    (short : periodBytes.toNat ≤ if lengthIsBits then 2 ^ 13 else 2 ^ 16)
    (sized : 8 + payload.length < 2 ^ 64) :
    iec61937Probe bytes = some (type % 2 ^ 5, payload.length) := by
  have checked := (burst_spec written).2.1
  rw [mod_eq_of_lt sized] at checked
  unfold iec61937Burst at written
  split_ifs at written
  obtain rfl := Option.some.inj written
  have low : (type % 2 ^ 16) &&& 0x1F = type % 2 ^ 5 := by
    rw [and_two_pow_sub_one_eq_mod _ 5, mod_mod_of_dvd _ (by decide)]
  have length : ∀ t, lengthIsBits = decide (t ≠ iec61937Eac3) →
      (if t = iec61937Eac3 then storedLength payload lengthIsBits % 2 ^ 16
        else (storedLength payload lengthIsBits % 2 ^ 16 + 7) / 8) = payload.length := by
    rintro t rfl
    by_cases inBytes : t = iec61937Eac3 <;> simp [storedLength, inBytes] at short ⊢ <;> omega
  rw [← length _ kind, ← low, ← or_shift type, ← or_shift (storedLength ..)]
  rfl

/-- What a wrap function makes is read as what it was made of. -/
theorem probe_wrap {wrap : Wrap} (written : wrap.burst cap = some bytes)
    (sized : ∀ carried ∈ wrap.carries, 8 + carried.2 < 2 ^ 64) : iec61937Probe bytes = wrap.carries := by
  cases wrap with
  | ac3 frame bsmod =>
    have few : bsmod &&& 7 < 8 := by rw [and_two_pow_sub_one_eq_mod bsmod 3]; omega
    have type : (iec61937Ac3 ||| ((bsmod &&& 7) <<< 8)) % 2 ^ 5 = iec61937Ac3 := by
      interval_cases bsmod &&& 7 <;> rfl
    rw [probe_burst written (by rw [type]; rfl) (by decide) (sized _ rfl), type]
    rfl
  | eac3 frames => exact probe_burst written rfl (by decide) (sized _ rfl)
  | dts frame pcmFrames =>
    obtain ⟨type, typed, written⟩ := Option.bind_eq_some_iff.1 written
    rw [Wrap.carries, typed] at sized ⊢
    have sized := sized _ rfl
    unfold dtsType at typed
    split at typed <;> cases typed <;> exact probe_burst written rfl (by decide) sized
  | pause gapFrames => exact probe_burst written rfl (by decide) (sized _ rfl)

/-- A burst does as it promises just where it is refused or the padded payload fits behind the preamble;
one that a wrap function made is read as what it was made of. -/
theorem bursts_right_iff (type : Nat) (payload : List UInt8) (lengthIsBits : Bool)
    (periodBytes cap : UInt64) (wrap : Wrap) (bytes : List UInt8) :
    (Right type payload lengthIsBits periodBytes cap ↔
      cap < periodBytes ∨ periodBytes.toNat < (8 + payload.length) % 2 ^ 64 ∨
        8 + payload.length + payload.length % 2 ≤ periodBytes.toNat) ∧
      (wrap.burst cap = some bytes →
        (∀ carried ∈ wrap.carries, 8 + carried.2 < 2 ^ 64) → iec61937Probe bytes = wrap.carries) := by
  refine ⟨⟨fun right => ?_, ?_⟩, probe_wrap⟩
  · by_contra room
    rw [not_or, not_or, not_lt, not_le] at room
    exact burst_overruns room.1 room.2.1 room.2.2 right
  · rintro (small | long | room)
    · intro bytes written
      exact absurd small (burst_spec written).1
    · intro bytes written
      exact absurd (burst_spec written).2.1 (not_le.mpr long)
    · exact burst_right room

/-- A single byte fills a period of nine. -/
theorem odd_overruns : ¬Right 0 [0x41] false 9 9 := burst_overruns (by decide) (by decide) (by decide)

end Libretro.Iec61937
