import Mathlib.Algebra.GroupWithZero.Nat
import Mathlib.Data.List.Basic
import Mathlib.Data.Vector.Defs

/-! XXH64 of encoding_xxh64.c: the one-shot hash and the hash taken piece by piece. -/

namespace Libretro.Xxh64

open Nat
open List hiding Vector

/-- XXH64_P1. -/
def p1 : UInt64 := 0x9E3779B185EBCA87

/-- XXH64_P2. -/
def p2 : UInt64 := 0xC2B2AE3D27D4EB4F

/-- XXH64_P3. -/
def p3 : UInt64 := 0x165667B19E3779F9

/-- XXH64_P4. -/
def p4 : UInt64 := 0x85EBCA77C2B2AE63

/-- XXH64_P5. -/
def p5 : UInt64 := 0x27D4EB2F165667C5

/-- XXH64_ROTL: the word turned to the left. -/
def rotl (x r : UInt64) : UInt64 := x <<< r ||| x >>> (64 - r)

/-- XXH64_ROUND: one lane's step. -/
def round (acc input : UInt64) : UInt64 := rotl (acc + input * p2) 31 * p1

/-- The little-endian word of some bytes. -/
def littleEndian (bytes : List UInt8) : UInt64 :=
  bytes.foldr (fun byte word => word <<< 8 ||| byte.toUInt64) 0

/-- The word of the first eight bytes. -/
def xxh64Rd64 (p : List UInt8) : UInt64 := littleEndian (p.take 8)

/-- The word of the first four bytes. -/
def xxh64Rd32 (p : List UInt8) : UInt64 := littleEndian (p.take 4)

/-- The four lanes. -/
structure Lanes where
  v1 : UInt64
  v2 : UInt64
  v3 : UInt64
  v4 : UInt64
deriving DecidableEq

/-- One stripe of 32 bytes through the lanes. -/
def Lanes.stripe (v : Lanes) (p : List UInt8) : Lanes where
  v1 := round v.v1 (xxh64Rd64 p)
  v2 := round v.v2 (xxh64Rd64 (p.drop 8))
  v3 := round v.v3 (xxh64Rd64 (p.drop 16))
  v4 := round v.v4 (xxh64Rd64 (p.drop 24))

/-- The loop over whole stripes, so many turns of it: the lanes and where it stops. -/
@[simp] def stripesLoop : Nat → Lanes → List UInt8 → Lanes × List UInt8
  | 0, v, p => (v, p)
  | turns + 1, v, p => stripesLoop turns (v.stripe p) (p.drop 32)

/-- The whole stripes of what is left, at least one; one alone is taken without the loop. -/
def xxh64Stripes (v : Lanes) (p : List UInt8) : Lanes × List UInt8 :=
  if p.length < 64 then (v.stripe p, p.drop 32) else stripesLoop (p.length / 32) v p

/-- One lane folded into the hash. -/
def xxh64Merge (h v : UInt64) : UInt64 := (h ^^^ round 0 v) * p1 + p4

/-- The four lanes folded into one. -/
def xxh64Converge (v : Lanes) : UInt64 :=
  let h := rotl v.v1 1 + rotl v.v2 7 + rotl v.v3 12 + rotl v.v4 18
  xxh64Merge (xxh64Merge (xxh64Merge (xxh64Merge h v.v1) v.v2) v.v3) v.v4

/-- XXH64_TAKE8: eight bytes of the tail. -/
def take8 (h : UInt64) (p : List UInt8) : UInt64 := rotl (h ^^^ round 0 (xxh64Rd64 p)) 27 * p1 + p4

/-- Four bytes of the tail. -/
def take4 (h : UInt64) (p : List UInt8) : UInt64 := rotl (h ^^^ xxh64Rd32 p * p1) 23 * p2 + p3

/-- XXH64_TAKE1: one byte of the tail. -/
def take1 (h : UInt64) (c : UInt8) : UInt64 := rotl (h ^^^ c.toUInt64 * p5) 11 * p1

/-- The loop over the tail's eights, so many turns of it. -/
def takeEights : Nat → UInt64 → List UInt8 → UInt64 × List UInt8
  | 0, h, p => (h, p)
  | turns + 1, h, p => takeEights turns (take8 h p) (p.drop 8)

/-- The loop over the tail's last bytes, so many turns of it. -/
def takeOnes : Nat → UInt64 → List UInt8 → UInt64
  | 0, h, _ => h
  | turns + 1, h, p => takeOnes turns (take1 h (p.headD 0)) p.tail

/-- The avalanche at the end of the hash. -/
def avalanche (h : UInt64) : UInt64 :=
  let h := (h ^^^ h >>> 33) * p2
  let h := (h ^^^ h >>> 29) * p3
  h ^^^ h >>> 32

/-- The last len bytes, under 32 of them: eights, then a four, then single bytes. -/
def xxh64Finish (h : UInt64) (p : List UInt8) (len : Nat) : UInt64 :=
  let (h, p) := takeEights (len / 8) h p
  if 4 ≤ len % 8 then avalanche (takeOnes (len % 8 - 4) (take4 h p) (p.drop 4))
  else avalanche (takeOnes (len % 8) h p)

/-- The lanes before any stripe. -/
def xxh64Lanes (seed : UInt64) : Lanes where
  v1 := seed + p1 + p2
  v2 := seed + p2
  v3 := seed
  v4 := seed - p1

/-- The hash of a whole string. -/
def xxh64 (data : List UInt8) (seed : UInt64) : UInt64 :=
  let (h, p) :=
    if 32 ≤ data.length then
      let (v, p) := xxh64Stripes (xxh64Lanes seed) data
      (xxh64Converge v, p)
    else (seed + p5, data)
  xxh64Finish (h + .ofNat data.length) p (data.length % 32)

/-- A hash taken over pieces: the lanes, the bytes taken and a stripe not yet whole. -/
structure State where
  v : Lanes
  total : UInt64
  mem : Vector UInt8 32
  memsize : Nat
deriving DecidableEq

/-- Bytes copied into the stripe from a place on. -/
def memcpy (mem : Vector UInt8 32) (place : Nat) (bytes : List UInt8) : Vector UInt8 32 :=
  .ofFn fun i => if i.val < place then mem[i] else (bytes[i.val - place]?).getD mem[i]

/-- The state started over; the bytes of an older stripe stay where they are. -/
def xxh64Reset (s : State) (seed : UInt64) : State :=
  { s with v := xxh64Lanes seed, total := 0, memsize := 0 }

/-- The stripe begun before is made whole, if there is one: what is left of the piece. -/
def fillStripe (s : State) (p : List UInt8) : State × List UInt8 :=
  if s.memsize ≠ 0 then
    let fill := 32 - s.memsize
    let mem := memcpy s.mem s.memsize (p.take fill)
    ({ s with v := (xxh64Stripes s.v mem.toList).1, mem := mem, memsize := 0 }, p.drop fill)
  else (s, p)

/-- The whole stripes of the piece, if there are any: what is left of it. -/
def takeStripes (s : State) (p : List UInt8) : State × List UInt8 :=
  if 32 ≤ p.length then
    let (v, p) := xxh64Stripes s.v p
    ({ s with v := v }, p)
  else (s, p)

/-- What is left begins a stripe. -/
def keepRest (s : State) (p : List UInt8) : State :=
  if p ≠ [] then { s with mem := memcpy s.mem 0 p, memsize := p.length } else s

/-- One more piece. -/
def xxh64Update (s : State) (data : List UInt8) : State :=
  if data.length = 0 then s
  else
    let s := { s with total := s.total + .ofNat data.length }
    if s.memsize + data.length < 32 then
      { s with mem := memcpy s.mem s.memsize data, memsize := s.memsize + data.length }
    else
      let (s, p) := fillStripe s data
      let (s, p) := takeStripes s p
      keepRest s p

/-- The hash of what the state has taken. -/
def xxh64Digest (s : State) : UInt64 :=
  let h := if 32 ≤ s.total then xxh64Converge s.v else s.v.v3 + p5
  xxh64Finish (h + s.total) s.mem.toList s.memsize

/-- What a caller does with a state. -/
inductive Call
  | update (piece : List UInt8)
  | digest

/-- The digests that a run of calls returns. -/
def digests : State → List Call → List UInt64
  | _, [] => []
  | s, .update piece :: calls => digests (xxh64Update s piece) calls
  | s, .digest :: calls => xxh64Digest s :: digests s calls

/-- The bytes that a run of calls hands over. -/
def Call.bytes : Call → List UInt8
  | .update piece => piece
  | .digest => []

/-- For each digest of a run, the hash in one call of all that was handed over before it. -/
def oneShots (seed : UInt64) : List UInt8 → List Call → List UInt64
  | _, [] => []
  | data, .update piece :: calls => oneShots seed (data ++ piece) calls
  | data, .digest :: calls => xxh64 data seed :: oneShots seed data calls

section Readers

variable (front back : List UInt8)

theorem xxh64Rd64_front (long : 8 ≤ front.length) : xxh64Rd64 (front ++ back) = xxh64Rd64 front := by
  -- Only the first eight bytes are taken.
  rw [xxh64Rd64, take_append_of_le_length long, xxh64Rd64]

theorem xxh64Rd32_front (long : 4 ≤ front.length) : xxh64Rd32 (front ++ back) = xxh64Rd32 front := by
  -- Only the first four bytes are taken.
  rw [xxh64Rd32, take_append_of_le_length long, xxh64Rd32]

theorem stripe_front (v : Lanes) (long : 32 ≤ front.length) : v.stripe (front ++ back) = v.stripe front := by
  -- Each lane reads its word inside the stripe.
  have word (place : Nat) (inside : place + 8 ≤ 32) :
      xxh64Rd64 ((front ++ back).drop place) = xxh64Rd64 (front.drop place) := by
    rw [drop_append_of_le_length (by omega)]
    apply xxh64Rd64_front
    rw [length_drop]
    omega
  simp only [Lanes.stripe, word 8 (by omega), word 16 (by omega), word 24 (by omega),
    xxh64Rd64_front front back (by omega)]

end Readers

theorem stripesLoop_rest (turns : Nat) (v : Lanes) (p : List UInt8) :
    (stripesLoop turns v p).2 = p.drop (32 * turns) := by
  induction turns generalizing v p with
  | zero => rfl
  | succ turns ih =>
    rw [stripesLoop, ih, drop_drop]
    congr 1
    omega

theorem stripesLoop_front {turns : Nat} {v : Lanes} {front : List UInt8} (back : List UInt8)
    (long : 32 * turns ≤ front.length) :
    (stripesLoop turns v (front ++ back)).1 = (stripesLoop turns v front).1 := by
  induction turns generalizing v front with
  | zero => rfl
  | succ turns ih =>
    rw [stripesLoop, stripesLoop, stripe_front front back v (by omega),
      drop_append_of_le_length (by omega)]
    apply ih
    rw [length_drop]
    omega

theorem stripesLoop_add (first second : Nat) (v : Lanes) (p : List UInt8) : stripesLoop (first + second) v p =
      stripesLoop second (stripesLoop first v p).1 (p.drop (32 * first)) := by
  induction first generalizing v p with
  | zero => rw [zero_add]; rfl
  | succ first ih =>
    rw [Nat.add_right_comm, stripesLoop, ih, drop_drop, stripesLoop]
    congr 2
    omega

theorem xxh64Stripes_eq (v : Lanes) {p : List UInt8} (long : 32 ≤ p.length) :
    xxh64Stripes v p = stripesLoop (p.length / 32) v p := by
  rw [xxh64Stripes]
  split
  · -- Below 64 bytes the loop makes one turn.
    have one : p.length / 32 = 1 := by omega
    rw [one]
    rfl
  · rfl

theorem takeEights_front {turns : Nat} {h : UInt64} {front : List UInt8} (back : List UInt8)
    (long : 8 * turns ≤ front.length) :
    (takeEights turns h (front ++ back)).1 = (takeEights turns h front).1 ∧
      (takeEights turns h (front ++ back)).2 = front.drop (8 * turns) ++ back := by
  induction turns generalizing h front with
  | zero => exact ⟨rfl, rfl⟩
  | succ turns ih =>
    have word : take8 h (front ++ back) = take8 h front := by
      rw [take8, take8, xxh64Rd64_front front back (by omega)]
    have further : 8 * turns ≤ (front.drop 8).length := by
      rw [length_drop]
      omega
    rw [takeEights, takeEights, word, drop_append_of_le_length (by omega)]
    refine ⟨(ih further).1, ?_⟩
    rw [(ih further).2, drop_drop]
    congr 2
    omega

theorem takeOnes_front {turns : Nat} {h : UInt64} {front : List UInt8} (back : List UInt8)
    (long : turns ≤ front.length) :
    takeOnes turns h (front ++ back) = takeOnes turns h front := by
  induction turns generalizing h front with
  | zero => rfl
  | succ turns ih =>
    cases front with
    | nil => simp at long
    | cons byte front =>
      apply ih
      simpa using long

theorem xxh64Finish_front (h : UInt64) (front back : List UInt8) :
    xxh64Finish h (front ++ back) front.length = xxh64Finish h front front.length := by
  obtain ⟨hash, rest⟩ := @takeEights_front (front.length / 8) h front back (mul_div_le _ _)
  have alone : (takeEights (front.length / 8) h front).2 = front.drop (8 * (front.length / 8)) := by
    have empty := (@takeEights_front (front.length / 8) h front [] (mul_div_le _ _)).2
    rwa [append_nil, append_nil] at empty
  have left : (front.drop (8 * (front.length / 8))).length = front.length % 8 := by
    rw [length_drop]
    omega
  simp only [xxh64Finish, hash, rest, alone]
  generalize front.drop (8 * (front.length / 8)) = last at left
  split
  · -- A four is left, and up to three bytes behind it.
    rw [take4, take4, xxh64Rd32_front last back (by omega), drop_append_of_le_length (by omega),
      takeOnes_front back (by rw [length_drop]; omega)]
  · rw [takeOnes_front back (by omega)]

theorem memcpy_take (mem : Vector UInt8 32) {place : Nat} {bytes : List UInt8}
    (room : place + bytes.length ≤ 32) :
    (memcpy mem place bytes).toList.take (place + bytes.length) = mem.toList.take place ++ bytes := by
  apply ext_getElem
  · simp only [length_take, length_append, Vector.length_toList]
    omega
  · intro i inside _
    simp only [length_take, Vector.length_toList] at inside
    simp only [getElem_take, Vector.getElem_toList, memcpy, Vector.getElem_ofFn]
    split
    · rename_i before
      rw [getElem_append_left (by simp only [length_take, Vector.length_toList]; omega),
        getElem_take, Vector.getElem_toList]
      rfl
    · rename_i behind
      have known : i - place < bytes.length := by omega
      rw [getElem_append_right (by simp only [length_take, Vector.length_toList]; omega),
        getElem?_eq_getElem known, Option.getD_some]
      congr 1
      simp only [length_take, Vector.length_toList]
      omega

/-- A state that has taken a string. -/
structure State.Holds (s : State) (seed : UInt64) (data : List UInt8) : Prop where
  lanes : s.v = (stripesLoop (data.length / 32) (xxh64Lanes seed) data).1
  total : s.total = .ofNat data.length
  size : s.memsize = data.length % 32
  mem : s.mem.toList.take s.memsize = data.drop (32 * (data.length / 32))

theorem xxh64Reset_holds (s : State) (seed : UInt64) : (xxh64Reset s seed).Holds seed [] :=
  ⟨rfl, rfl, rfl, rfl⟩

section Update

variable {s : State} {seed : UInt64} {data piece : List UInt8}

variable (holds : s.Holds seed data)
include holds

theorem State.Holds.pending (piece : List UInt8) :
    (data ++ piece).drop (32 * (data.length / 32)) = s.mem.toList.take s.memsize ++ piece := by
  rw [holds.mem, drop_append_of_le_length (mul_div_le _ _)]

theorem State.Holds.lanes_append (piece : List UInt8) :
    (stripesLoop ((data ++ piece).length / 32) (xxh64Lanes seed) (data ++ piece)).1 =
      (stripesLoop ((s.memsize + piece.length) / 32) s.v (s.mem.toList.take s.memsize ++ piece)).1 := by
  have count : (data ++ piece).length / 32 = data.length / 32 + (s.memsize + piece.length) / 32 := by
    rw [length_append, holds.size]
    omega
  rw [count, stripesLoop_add, stripesLoop_front piece (mul_div_le _ _), ← holds.lanes, holds.pending]

theorem State.Holds.total_append (piece : List UInt8) :
    s.total + .ofNat piece.length = .ofNat (data ++ piece).length := by
  rw [holds.total, length_append, UInt64.ofNat_add]

theorem short_holds (short : s.memsize + piece.length < 32) : State.Holds
      { s with total := s.total + .ofNat piece.length, mem := memcpy s.mem s.memsize piece,
               memsize := s.memsize + piece.length } seed (data ++ piece) := by
  have same : (data ++ piece).length / 32 = data.length / 32 := by
    have size := holds.size
    rw [length_append]
    omega
  refine ⟨?_, holds.total_append piece, ?_, ?_⟩
  · rw [holds.lanes_append, div_eq_of_lt short]
    rfl
  · show s.memsize + piece.length = (data ++ piece).length % 32
    have size := holds.size
    rw [length_append]
    omega
  · rw [same, holds.pending]
    exact memcpy_take s.mem (Nat.le_of_lt short)

omit holds

theorem fillStripe_begun (begun : s.memsize ≠ 0) (small : s.memsize < 32)
    (long : 32 ≤ s.memsize + piece.length) :
    (fillStripe s piece).1.v = (stripesLoop 1 s.v (s.mem.toList.take s.memsize ++ piece)).1 ∧
      (fillStripe s piece).1.memsize = 0 ∧ (fillStripe s piece).1.total = s.total ∧
      (fillStripe s piece).2 = (s.mem.toList.take s.memsize ++ piece).drop 32 := by
  have kept : (s.mem.toList.take s.memsize).length = s.memsize := by
    rw [length_take, Vector.length_toList]
    omega
  have fill : (piece.take (32 - s.memsize)).length = 32 - s.memsize := by
    rw [length_take]
    omega
  have full : (s.mem.toList.take s.memsize ++ piece.take (32 - s.memsize)).length = 32 := by
    rw [length_append]
    omega
  -- The stripe is what was kept and the bytes that fill it.
  have whole : (memcpy s.mem s.memsize (piece.take (32 - s.memsize))).toList =
      s.mem.toList.take s.memsize ++ piece.take (32 - s.memsize) := by
    have copied := @memcpy_take s.mem s.memsize (piece.take (32 - s.memsize)) (by omega)
    rwa [take_of_length_le (by rw [Vector.length_toList]; omega)] at copied
  have split : s.mem.toList.take s.memsize ++ piece =
      (s.mem.toList.take s.memsize ++ piece.take (32 - s.memsize)) ++ piece.drop (32 - s.memsize) := by
    rw [append_assoc, take_append_drop]
  have one := xxh64Stripes_eq s.v (Nat.le_of_eq full.symm)
  rw [full, Nat.div_self (by decide)] at one
  -- The count is untouched, whatever the lanes and the stripe become.
  have total (v : Lanes) (mem : Vector UInt8 32) :
      ({ s with v := v, mem := mem, memsize := 0 } : State).total = s.total := rfl
  rw [fillStripe, if_pos begun]
  refine ⟨?_, rfl, total _ _, ?_⟩
  · simp only
    rw [whole, one, split, stripesLoop_front (piece.drop (32 - s.memsize)) (by omega)]
  · rw [split, drop_append_of_le_length (by omega), drop_of_length_le (by omega),
      nil_append]

theorem fillStripe_spec (small : s.memsize < 32) (long : 32 ≤ s.memsize + piece.length) : ∃ turns, turns ≤ 1 ∧
      (fillStripe s piece).1.v = (stripesLoop turns s.v (s.mem.toList.take s.memsize ++ piece)).1 ∧
      (fillStripe s piece).1.memsize = 0 ∧ (fillStripe s piece).1.total = s.total ∧
      (fillStripe s piece).2 = (s.mem.toList.take s.memsize ++ piece).drop (32 * turns) := by
  by_cases begun : s.memsize = 0
  · -- Nothing was kept.
    rw [fillStripe, if_neg (not_not.mpr begun)]
    refine ⟨0, zero_le _, rfl, begun, rfl, ?_⟩
    rw [begun, take_zero, nil_append, mul_zero, drop_zero]
  · exact ⟨1, Nat.le_refl _, fillStripe_begun begun small long⟩

theorem takeStripes_spec (s : State) (p : List UInt8) :
    (takeStripes s p).1.v = (stripesLoop (p.length / 32) s.v p).1 ∧
      (takeStripes s p).1.memsize = s.memsize ∧ (takeStripes s p).1.total = s.total ∧
      (takeStripes s p).2 = p.drop (32 * (p.length / 32)) := by
  rw [takeStripes]
  split
  · rename_i long
    rw [xxh64Stripes_eq _ long]
    exact ⟨rfl, rfl, rfl, stripesLoop_rest _ _ _⟩
  · -- Below 32 bytes there is none.
    have none : p.length / 32 = 0 := by omega
    rw [none]
    exact ⟨rfl, rfl, rfl, rfl⟩

theorem keepRest_spec (s : State) {p : List UInt8} (empty : s.memsize = 0) (short : p.length < 32) :
    (keepRest s p).v = s.v ∧ (keepRest s p).total = s.total ∧ (keepRest s p).memsize = p.length ∧
      (keepRest s p).mem.toList.take (keepRest s p).memsize = p := by
  rw [keepRest]
  split
  · have copied := @memcpy_take s.mem 0 p (by omega)
    rw [zero_add, take_zero, nil_append] at copied
    exact ⟨rfl, rfl, rfl, copied⟩
  · rename_i none
    have none : p = [] := by simpa using none
    subst none
    rw [empty]
    exact ⟨rfl, rfl, rfl, rfl⟩

include holds

theorem long_holds (long : 32 ≤ s.memsize + piece.length) : State.Holds (keepRest
        (takeStripes (fillStripe { s with total := s.total + .ofNat piece.length } piece).1
          (fillStripe { s with total := s.total + .ofNat piece.length } piece).2).1
        (takeStripes (fillStripe { s with total := s.total + .ofNat piece.length } piece).1
          (fillStripe { s with total := s.total + .ofNat piece.length } piece).2).2)
      seed (data ++ piece) := by
  have small : s.memsize < 32 := by
    rw [holds.size]
    exact mod_lt _ (by decide)
  have kept : (s.mem.toList.take s.memsize ++ piece).length = s.memsize + piece.length := by
    rw [length_append, length_take, Vector.length_toList]
    omega
  obtain ⟨turns, few, filled, emptied, counted, behind⟩ :=
    @fillStripe_spec { s with total := s.total + .ofNat piece.length } piece small long
  simp only at filled counted behind
  generalize fillStripe { s with total := s.total + .ofNat piece.length } piece = first at *
  obtain ⟨taken, still, countedToo, left⟩ := takeStripes_spec first.1 first.2
  generalize takeStripes first.1 first.2 = second at *
  have remaining : first.2.length = s.memsize + piece.length - 32 * turns := by rw [behind, length_drop, kept]
  have leftLength : second.2.length = (s.memsize + piece.length) % 32 := by
    rw [left, length_drop, remaining]
    omega
  obtain ⟨lanes, total, size, mem⟩ := @keepRest_spec second.1 second.2
    (by rw [still, emptied]) (by rw [leftLength]; exact mod_lt _ (by decide))
  have length : (data ++ piece).length % 32 = (s.memsize + piece.length) % 32 := by
    rw [length_append, holds.size]
    omega
  refine ⟨?_, ?_, ?_, ?_⟩
  · -- One turn for the stripe begun before, then those of the rest.
    have count : (s.memsize + piece.length) / 32 = turns + first.2.length / 32 := by
      rw [remaining]
      omega
    rw [lanes, taken, filled, holds.lanes_append, count, stripesLoop_add, behind]
  · rw [total, countedToo, counted, holds.total_append]
  · rw [size, leftLength, length]
  · have place : 32 * ((data ++ piece).length / 32) =
        32 * (data.length / 32) + (32 * turns + 32 * (first.2.length / 32)) := by
      rw [remaining, length_append]
      have size := holds.size
      omega
    rw [mem, left, place, ← drop_drop, holds.pending, ← drop_drop, behind]

theorem xxh64Update_holds (piece : List UInt8) : (xxh64Update s piece).Holds seed (data ++ piece) := by
  rw [xxh64Update]
  split
  · -- An empty piece changes nothing.
    rename_i none
    rwa [eq_nil_of_length_eq_zero none, append_nil]
  · dsimp only
    split
    · rename_i short
      exact short_holds holds short
    · rename_i long
      exact long_holds holds (by omega)

end Update

theorem xxh64Digest_holds {s : State} {seed : UInt64} {data : List UInt8}
    (holds : s.Holds seed data) (sized : data.length < 2 ^ 64) :
    xxh64Digest s = xxh64 data seed := by
  have kept : (s.mem.toList.take s.memsize).length = s.memsize := by
    rw [length_take, Vector.length_toList, holds.size]
    omega
  have finish (h : UInt64) : xxh64Finish h s.mem.toList s.memsize =
      xxh64Finish h (data.drop (32 * (data.length / 32))) s.memsize := by
    have front := xxh64Finish_front h (s.mem.toList.take s.memsize) (s.mem.toList.drop s.memsize)
    rwa [take_append_drop, kept, holds.mem] at front
  have whole : 32 ≤ s.total ↔ 32 ≤ data.length := by
    rw [holds.total, UInt64.le_iff_toNat_le, UInt64.toNat_ofNat', mod_eq_of_lt sized]
    rfl
  rw [xxh64Digest, xxh64, finish, holds.size]
  by_cases long : 32 ≤ data.length
  · rw [← holds.total, if_pos (whole.mpr long), if_pos long, xxh64Stripes_eq _ long]
    simp only [stripesLoop_rest, holds.lanes, holds.total]
  · -- Without a stripe the third lane is still the seed.
    have none : data.length / 32 = 0 := by omega
    have lanes := holds.lanes
    rw [none] at lanes
    rw [← holds.total, if_neg (mt whole.mp long), if_neg long, none, lanes, holds.total]
    rfl

theorem digests_holds {s : State} {seed : UInt64} {data : List UInt8} {calls : List Call}
    (holds : s.Holds seed data) (sized : (data ++ (calls.map Call.bytes).flatten).length < 2 ^ 64) :
    digests s calls = oneShots seed data calls := by
  induction calls generalizing s data with
  | nil => rfl
  | cons call calls ih =>
    cases call with
    | update piece =>
      apply ih (xxh64Update_holds holds piece)
      rwa [append_assoc]
    | digest =>
      -- A digest reads the state and leaves it as it is.
      have now : data.length < 2 ^ 64 := by
        rw [length_append] at sized
        omega
      rw [digests, oneShots, xxh64Digest_holds holds now, ih holds sized]

/-- A hash taken piece by piece, with digests in between, is at each digest the hash of the whole. -/
theorem digests_reset (s : State) (seed : UInt64) (calls : List Call)
    (sized : (calls.map Call.bytes).flatten.length < 2 ^ 64) :
    digests (xxh64Reset s seed) calls = oneShots seed [] calls :=
  digests_holds (xxh64Reset_holds s seed) sized

/-- Two digests, one before and one after the last piece. -/
theorem digests_reset_pieces : digests (xxh64Reset ⟨xxh64Lanes 0, 0, Vector.replicate 32 0, 0⟩ 7)
        [.update [1], .update [], .digest, .update [2, 3], .digest] =
      [xxh64 [1] 7, xxh64 [1, 2, 3] 7] :=
  digests_reset _ _ _ (by decide)

end Libretro.Xxh64
