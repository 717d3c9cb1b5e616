import Libretro.Library.CString
import Libretro.Library.WindowFilter
import Mathlib.Data.Vector.Defs

/-! SHA-256 and SHA-224 of lrc_hash.c, taken piece by piece. -/

namespace Libretro.Sha256

open CString WindowFilter UInt64
open List hiding Vector

/-- T_H. -/
def tH : Vector UInt32 8 := #v[
  0x6a09e667, 0xbb67ae85, 0x3c6ef372, 0xa54ff53a, 0x510e527f, 0x9b05688c, 0x1f83d9ab, 0x5be0cd19]

/-- T_H224. -/
def tH224 : Vector UInt32 8 := #v[
  0xc1059ed8, 0x367cd507, 0x3070dd17, 0xf70e5939, 0xffc00b31, 0x68581511, 0x64f98fa7, 0xbefa4fa4]

/-- T_K. -/
def tK : Vector UInt32 64 := #v[
  0x428a2f98, 0x71374491, 0xb5c0fbcf, 0xe9b5dba5, 0x3956c25b, 0x59f111f1, 0x923f82a4, 0xab1c5ed5,
  0xd807aa98, 0x12835b01, 0x243185be, 0x550c7dc3, 0x72be5d74, 0x80deb1fe, 0x9bdc06a7, 0xc19bf174,
  0xe49b69c1, 0xefbe4786, 0x0fc19dc6, 0x240ca1cc, 0x2de92c6f, 0x4a7484aa, 0x5cb0a9dc, 0x76f988da,
  0x983e5152, 0xa831c66d, 0xb00327c8, 0xbf597fc7, 0xc6e00bf3, 0xd5a79147, 0x06ca6351, 0x14292967,
  0x27b70a85, 0x2e1b2138, 0x4d2c6dfc, 0x53380d13, 0x650a7354, 0x766a0abb, 0x81c2c92e, 0x92722c85,
  0xa2bfe8a1, 0xa81a664b, 0xc24b8b70, 0xc76c51a3, 0xd192e819, 0xd6990624, 0xf40e3585, 0x106aa070,
  0x19a4c116, 0x1e376c08, 0x2748774c, 0x34b0bcb5, 0x391c0cb3, 0x4ed8aa4a, 0x5b9cca4f, 0x682e6ff3,
  0x748f82ee, 0x78a5636f, 0x84c87814, 0x8cc70208, 0x90befffa, 0xa4506ceb, 0xbef9a3f7, 0xc67178f2]

/-- ROR32: the word turned to the right. -/
def ror32 (x n : UInt32) : UInt32 := x >>> n ||| x <<< (32 - n)

/-- load32be: the big-endian word at a place in the words of a block. -/
def load32be (block : List UInt8) (i : Nat) : UInt32 :=
  (byteAt block (4 * i)).toUInt32 <<< 24 ||| (byteAt block (4 * i + 1)).toUInt32 <<< 16 |||
    (byteAt block (4 * i + 2)).toUInt32 <<< 8 ||| (byteAt block (4 * i + 3)).toUInt32

/-- The bytes store32be writes. -/
def store32be (v : UInt32) : List UInt8 :=
  [(v >>> 24).toUInt8, (v >>> 16).toUInt8, (v >>> 8).toUInt8, v.toUInt8]

/-- struct sha256_state; the block has its 64 bytes. -/
structure Sha256State where
  len : UInt64
  block : List UInt8
  block_size : block.length = 64
  w : Vector UInt32 64
  h : Vector UInt32 8
  inlen : Nat
  is224 : Bool

/-- The first loop of sha256_block_scalar, over the words of the block. -/
def loadWords (block : List UInt8) (w : Vector UInt32 64) : Vector UInt32 64 :=
  Fin.foldl 16 (fun w i => w.set i (load32be block i)) w

/-- The word that the 16 before it give. -/
def expandWord (w : Vector UInt32 64) (i : Fin 48) : UInt32 :=
  have bound := i.isLt
  let s0 := ror32 w[i.val + 1] 7 ^^^ ror32 w[i.val + 1] 18 ^^^ w[i.val + 1] >>> 3
  let s1 := ror32 w[i.val + 14] 17 ^^^ ror32 w[i.val + 14] 19 ^^^ w[i.val + 14] >>> 10
  w[i.val] + s0 + w[i.val + 9] + s1

/-- The second loop, over the other 48 words. -/
def expandWords (w : Vector UInt32 64) : Vector UInt32 64 :=
  Fin.foldl 48 (fun w i => w.set (i.val + 16) (expandWord w i)) w

/-- The eight words the rounds work on. -/
structure Working where
  a : UInt32
  b : UInt32
  c : UInt32
  d : UInt32
  e : UInt32
  f : UInt32
  g : UInt32
  h : UInt32

/-- A round. -/
def Working.round (v : Working) (k w : UInt32) : Working :=
  let s0 := ror32 v.a 2 ^^^ ror32 v.a 13 ^^^ ror32 v.a 22
  let maj := (v.a &&& v.b) ^^^ (v.a &&& v.c) ^^^ (v.b &&& v.c)
  let t2 := s0 + maj
  let s1 := ror32 v.e 6 ^^^ ror32 v.e 11 ^^^ ror32 v.e 25
  let ch := (v.e &&& v.f) ^^^ (~~~v.e &&& v.g)
  let t1 := v.h + s1 + ch + k + w
  ⟨t1 + t2, v.a, v.b, v.c, v.d + t1, v.e, v.f, v.g⟩

/-- The 64 rounds, and what they add to the hash. -/
def rounds (h : Vector UInt32 8) (w : Vector UInt32 64) : Vector UInt32 8 :=
  let v := Fin.foldl 64 (fun (v : Working) i => v.round tK[i] w[i])
    ⟨h[0], h[1], h[2], h[3], h[4], h[5], h[6], h[7]⟩
  #v[h[0] + v.a, h[1] + v.b, h[2] + v.c, h[3] + v.d, h[4] + v.e, h[5] + v.f, h[6] + v.g, h[7] + v.h]

/-- sha256_block_scalar. -/
def sha256BlockScalar (p : Sha256State) : Sha256State :=
  let w := expandWords (loadWords p.block p.w)
  { p with w, h := rounds p.h w }

/-- sha256_block: the next block begins. -/
def sha256Block (p : Sha256State) : Sha256State := { sha256BlockScalar p with inlen := 0 }

theorem Sha256State.splice_size (p : Sha256State) {place : Nat} {bytes : List UInt8}
    (inside : place + bytes.length ≤ 64) : (splice p.block place bytes).length = 64 := by
  have size := p.block_size
  rw [splice, length_append, length_append, length_take, length_drop]
  omega

/-- Bytes written into the block, which they must not leave. -/
def Sha256State.write (p : Sha256State) (place : Nat) (bytes : List UInt8) : Option Sha256State :=
  if inside : place + bytes.length ≤ 64 then
    some { p with block := splice p.block place bytes, block_size := p.splice_size inside }
  else none

/-- The loop of sha256_chunk. With a full block it would have no byte to take, and behind one the count of
free bytes would wrap: then there is no result. -/
def sha256ChunkLoop (p : Sha256State) (s : List UInt8) : Option Sha256State :=
  if _more : s = [] then some p
  else if _free : 64 ≤ p.inlen then none
  else
    let l := min (64 - p.inlen) s.length
    match p.write p.inlen (s.take l) with
    | none => none
    | some p =>
      let p := { p with inlen := p.inlen + l }
      sha256ChunkLoop (if p.inlen = 64 then sha256Block p else p) (s.drop l)
termination_by s.length
decreasing_by
  have positive := List.length_pos_of_ne_nil _more
  rw [List.length_drop]
  omega

/-- sha256_chunk. -/
def sha256Chunk (p : Sha256State) (s : List UInt8) : Option Sha256State :=
  sha256ChunkLoop { p with len := p.len + .ofNat s.length } s

/-- The end of sha256_final: zeros up to the length, and the length. -/
def sha256Length (p : Sha256State) : Option Sha256State := do
  let p ← p.write p.inlen (List.replicate (56 - p.inlen) 0)
  let len := p.len <<< 3
  let p ← p.write (4 * 14) (store32be (len >>> 32).toUInt32)
  let p ← p.write (4 * 15) (store32be len.toUInt32)
  pure (sha256Block p)

/-- sha256_final: the padding takes what is left of the block, or all of the next as well. -/
def sha256Final (p : Sha256State) : Option Sha256State := do
  let p ← p.write p.inlen [0x80]
  let p := { p with inlen := p.inlen + 1 }
  if 56 < p.inlen then do
    let p ← p.write p.inlen (List.replicate (64 - p.inlen) 0)
    sha256Length (sha256Block p)
  else sha256Length p

/-- sha256_stream_init. -/
def sha256StreamInit (is224 : Bool) : Sha256State where
  len := 0
  block := List.replicate 64 0
  block_size := List.length_replicate
  w := Vector.replicate 64 0
  h := if is224 then tH224 else tH
  inlen := 0
  is224

/-- sha256_stream_update. -/
def sha256StreamUpdate (p : Sha256State) (data : List UInt8) : Option Sha256State :=
  if data = [] then some p else sha256Chunk p data

/-- The bytes of the digest: SHA-224 keeps the last word back. -/
def digestOf (is224 : Bool) (h : Vector UInt32 8) : List UInt8 :=
  (h.toList.take (if is224 then 7 else 8)).flatMap store32be

/-- sha256_stream_final. -/
def sha256StreamFinal (p : Sha256State) : Option (List UInt8) := do
  let p ← sha256Final p
  pure (digestOf p.is224 p.h)

/-- The compression function: what sha256_block_scalar makes of a hash and a block. -/
def compress (h : Vector UInt32 8) (block : List UInt8) : Vector UInt32 8 :=
  rounds h (expandWords (loadWords block (Vector.replicate 64 0)))

/-- The length of a message in bits, as eight bytes with the highest first. -/
def lengthBytes (bits : Nat) : List UInt8 :=
  [.ofNat (bits / 2 ^ 56), .ofNat (bits / 2 ^ 48), .ofNat (bits / 2 ^ 40), .ofNat (bits / 2 ^ 32),
    .ofNat (bits / 2 ^ 24), .ofNat (bits / 2 ^ 16), .ofNat (bits / 2 ^ 8), .ofNat bits]

/-- The zero bytes between the delimiter of a message and its length: the fewest that end at a block. -/
def paddingZeros (size : Nat) : Nat := (64 - (size + 9) % 64) % 64

/-- The padding behind a message. -/
def padding (size : Nat) : List UInt8 :=
  [0x80] ++ List.replicate (paddingZeros size) 0 ++ lengthBytes (8 * size)

/-- The padded message. -/
def pad (message : List UInt8) : List UInt8 := message ++ padding message.length

/-- The hash of a whole message: its padded blocks are compressed one after the other. -/
def sha256 (is224 : Bool) (message : List UInt8) : List UInt8 :=
  digestOf is224 (foldBlocks 64 compress (if is224 then tH224 else tH) (pad message))

section Schedule

variable {w w' : Vector UInt32 64}

/-- Two schedules have the same words up to a place. -/
def Agree (places : Nat) (w w' : Vector UInt32 64) : Prop :=
  ∀ (j : Nat) (inside : j < 64), j < places → w[j] = w'[j]

theorem foldl_related {α : Type*} (related : Nat → α → α → Prop) {n : Nat} (step : α → Fin n → α)
    (keeps : ∀ (i : Fin n) (a b : α), related i a b → related (i + 1) (step a i) (step b i)) {a b : α}
    (begins : related 0 a b) : related n (Fin.foldl n step a) (Fin.foldl n step b) := by
  -- The induction is on the number of turns.
  induction n with
  | zero => simpa using begins
  | succ n ih =>
    rw [Fin.foldl_succ_last, Fin.foldl_succ_last]
    exact keeps (Fin.last n) _ _ (ih _ fun i a b => keeps i.castSucc a b)

theorem Agree.set {places : Nat} (agree : Agree places w w') (inside : places < 64) {v v' : UInt32}
    (same : v = v') : Agree (places + 1) (w.set places v) (w'.set places v') := by
  intro j bound before
  by_cases last : j = places
  · subst last
    rw [Vector.getElem_set_self, Vector.getElem_set_self, same]
  · rw [Vector.getElem_set_ne _ _ (Ne.symm last), Vector.getElem_set_ne _ _ (Ne.symm last)]
    exact agree j bound (by omega)

theorem loadWords_agree (block : List UInt8) (w w' : Vector UInt32 64) :
    Agree 16 (loadWords block w) (loadWords block w') :=
  foldl_related Agree _ (fun i _ _ agree => agree.set (by omega) rfl) fun _ _ before => by omega

theorem expandWord_agree (i : Fin 48) (agree : Agree (i + 16) w w') : expandWord w i = expandWord w' i := by
  have bound := i.isLt
  dsimp only [expandWord]
  rw [agree (i + 1) (by omega) (by omega), agree (i + 14) (by omega) (by omega),
    agree i (by omega) (by omega), agree (i + 9) (by omega) (by omega)]

theorem expandWords_eq (agree : Agree 16 w w') : expandWords w = expandWords w' := by
  have all : Agree (48 + 16) (expandWords w) (expandWords w') := by
    refine foldl_related (fun i => Agree (i + 16)) _ (fun i w w' agree => ?_) (by rwa [Nat.zero_add])
    have next := agree.set (by omega) (expandWord_agree i agree)
    rwa [Nat.add_right_comm] at next
  exact Vector.ext fun j inside => all j inside inside

theorem sha256BlockScalar_h (p : Sha256State) : (sha256BlockScalar p).h = compress p.h p.block :=
  congrArg (rounds p.h) (expandWords_eq (loadWords_agree p.block _ _))

end Schedule

/-- The filter whose items are the blocks that are compressed. -/
def absorbing : Filter (Vector UInt32 8) UInt8 :=
  blocks 64 (fun h block => (compress h block, block)) fun _ _ size => size

/-- What a state holds of a message: the hash of its whole blocks, and behind them what is pending. -/
structure Holds (p : Sha256State) (is224 : Bool) (h : Vector UInt32 8) (pending : List UInt8) : Prop where
  h_eq : p.h = h
  inlen_eq : p.inlen = pending.length
  front : p.block.take pending.length = pending
  is224_eq : p.is224 = is224

section Pieces

variable {p p' : Sha256State} {is224 : Bool} {h : Vector UInt32 8} {pending bytes : List UInt8}

theorem write_front (bytes : List UInt8) (front : p.block.take pending.length = pending)
    (inside : pending.length + bytes.length ≤ 64) :
    ∃ p', p.write pending.length bytes = some p' ∧
      p'.block.take (pending ++ bytes).length = pending ++ bytes ∧
      p'.h = p.h ∧ p'.inlen = p.inlen ∧ p'.len = p.len ∧ p'.is224 = p.is224 := by
  refine ⟨_, dif_pos inside, ?_, rfl, rfl, rfl, rfl⟩
  dsimp only
  rw [splice, front, take_left]

theorem sha256Block_is224 (p : Sha256State) : (sha256Block p).is224 = p.is224 := by
  simp only [sha256Block, sha256BlockScalar]

theorem sha256Block_len (p : Sha256State) : (sha256Block p).len = p.len := by
  simp only [sha256Block, sha256BlockScalar]

theorem sha256Block_full (front : p.block.take pending.length = pending) (full : pending.length = 64) :
    (sha256Block p).h = compress p.h pending := by
  have whole : p.block = pending := by rw [← front, take_of_length_le (by rw [p.block_size, full])]
  have hash : (sha256Block p).h = compress p.h p.block := sha256BlockScalar_h p
  rwa [whole] at hash

theorem Holds.full (holds : Holds p is224 h pending) (full : pending.length = 64) :
    Holds (sha256Block p) is224 (compress h pending) [] := by
  have hash := sha256Block_full holds.front full
  rw [holds.h_eq] at hash
  exact ⟨hash, length_nil.symm, take_zero, (sha256Block_is224 p).trans holds.is224_eq⟩

theorem sha256ChunkLoop_holds (holds : Holds p is224 h pending) (short : pending.length < 64)
    (s : List UInt8) :
    ∃ p', sha256ChunkLoop p s = some p' ∧ p'.len = p.len ∧
      Holds p' is224 (absorbing.run h (pending ++ s)).state (absorbing.run h (pending ++ s)).tail := by
  -- The induction is on the bytes of the piece that are left.
  induction length : s.length using Nat.strongRecOn generalizing p h pending s with
  | ind n ih =>
    subst length
    rw [sha256ChunkLoop]
    split
    · rename_i done
      subst done
      refine ⟨p, rfl, rfl, ?_⟩
      rw [append_nil, absorbing, blocks_waits short]
      exact holds
    · rename_i more
      have positive := length_pos_of_ne_nil more
      rw [dif_neg (by rw [holds.inlen_eq]; omega), holds.inlen_eq]
      generalize amount : min (64 - pending.length) s.length = l
      have taken : (s.take l).length = l := length_take_of_le (by omega)
      obtain ⟨p', written, front, h_eq, inlen_eq, len_eq, kind⟩ :=
        write_front (s.take l) holds.front (by rw [taken]; omega)
      have rest : (s.drop l).length < s.length := by
        rw [length_drop]
        omega
      have longer : (pending ++ s.take l).length = pending.length + l := by rw [length_append, taken]
      have whole : pending ++ s = (pending ++ s.take l) ++ s.drop l := by rw [append_assoc, take_append_drop]
      have held : Holds { p' with inlen := pending.length + l } is224 h (pending ++ s.take l) :=
        ⟨h_eq.trans holds.h_eq, longer.symm, front, kind.trans holds.is224_eq⟩
      dsimp only
      rw [written]
      dsimp only
      rw [inlen_eq, holds.inlen_eq, ← len_eq]
      split
      · rename_i full
        obtain ⟨p', result, same, holds'⟩ :=
          ih _ rest (held.full (longer.trans full)) (by simp) (s.drop l) rfl
        refine ⟨p', result, same.trans (sha256Block_len _), ?_⟩
        rw [whole, absorbing, blocks_item (longer.trans full)]
        exact holds'
      · obtain ⟨p', result, same, holds'⟩ := ih _ rest held (by omega) (s.drop l) rfl
        refine ⟨p', result, same, ?_⟩
        rwa [whole]

end Pieces

/-- What a state holds once a message has been taken. -/
structure Absorbed (p : Sha256State) (is224 : Bool) (message : List UInt8) : Prop where
  holds : Holds p is224 (absorbing.run (if is224 then tH224 else tH) message).state
    (absorbing.run (if is224 then tH224 else tH) message).tail
  len : p.len = .ofNat message.length

section Runs

variable {p : Sha256State} {is224 : Bool} {message : List UInt8}

theorem Absorbed.init (is224 : Bool) : Absorbed (sha256StreamInit is224) is224 [] where
  holds := by
    rw [absorbing, blocks_waits (by decide)]
    exact ⟨rfl, rfl, rfl, rfl⟩
  len := rfl

theorem Absorbed.inlen_lt (absorbed : Absorbed p is224 message) : p.inlen < 64 := by
  rw [absorbed.holds.inlen_eq]
  exact blocks_tail _ _

theorem Absorbed.update (absorbed : Absorbed p is224 message) (data : List UInt8) :
    ∃ p', sha256StreamUpdate p data = some p' ∧ Absorbed p' is224 (message ++ data) := by
  by_cases empty : data = []
  · exact ⟨p, if_pos empty, by rwa [empty, append_nil]⟩
  · have begins : Holds { p with len := p.len + .ofNat data.length } is224 _ _ :=
      ⟨absorbed.holds.h_eq, absorbed.holds.inlen_eq, absorbed.holds.front, absorbed.holds.is224_eq⟩
    obtain ⟨p', result, len, holds⟩ := sha256ChunkLoop_holds begins (blocks_tail _ _) data
    refine ⟨p', (if_neg empty).trans result, ?_, ?_⟩
    · rw [absorbing.run_append]
      exact holds
    · rw [len, absorbed.len, length_append, ofNat_add]

theorem Absorbed.updates (absorbed : Absorbed p is224 message) (pieces : List (List UInt8)) :
    ∃ p', pieces.foldlM sha256StreamUpdate p = some p' ∧ Absorbed p' is224 (message ++ pieces.flatten) := by
  induction pieces generalizing p message with
  | nil => exact ⟨p, rfl, by rwa [flatten_nil, append_nil]⟩
  | cons data pieces ih =>
    obtain ⟨p', first, absorbed'⟩ := absorbed.update data
    obtain ⟨p'', others, absorbed''⟩ := ih absorbed'
    refine ⟨p'', ?_, ?_⟩
    · rw [foldlM_cons, first]
      exact others
    · rwa [flatten_cons, ← append_assoc]

end Runs

theorem store_length (size : Nat) :
    store32be ((ofNat size <<< 3) >>> 32).toUInt32 ++ store32be (ofNat size <<< 3).toUInt32 =
      lengthBytes (8 * size) := by
  have length : (ofNat size <<< 3).toNat = 8 * size % 2 ^ 64 := by
    have three : (3 : UInt64).toNat % 64 = 3 := rfl
    rw [UInt64.toNat_shiftLeft, three, toNat_ofNat', Nat.shiftLeft_eq]
    omega
  generalize ofNat size <<< 3 = len at length
  simp only [store32be, lengthBytes, cons_append, nil_append, cons.injEq, and_true]
  refine ⟨?_, ?_, ?_, ?_, ?_, ?_, ?_, ?_⟩ <;>
    apply UInt8.toNat_inj.1 <;>
    simp [UInt32.toNat_shiftRight, UInt64.toNat_shiftRight, Nat.shiftRight_eq_div_pow, length] <;>
    omega

theorem length_store32be (v : UInt32) : (store32be v).length = 4 := rfl

theorem length_lengthBytes (bits : Nat) : (lengthBytes bits).length = 8 := rfl

section Padding

variable {p : Sha256State} {is224 : Bool} {h : Vector UInt32 8} {pending : List UInt8}

theorem sha256Length_eq {size : Nat} (holds : Holds p is224 h pending) (room : pending.length ≤ 56)
    (len : p.len = .ofNat size) :
    ∃ p', sha256Length p = some p' ∧ p'.is224 = is224 ∧
      p'.h = compress h (pending ++ replicate (56 - pending.length) 0 ++ lengthBytes (8 * size)) := by
  -- Three writes follow what is pending.
  obtain ⟨p₁, written₁, front₁, h₁, -, len₁, kind₁⟩ :=
    write_front (replicate (56 - pending.length) 0) holds.front (by rw [length_replicate]; omega)
  have at₁ : (pending ++ replicate (56 - pending.length) (0 : UInt8)).length = 4 * 14 := by
    rw [length_append, length_replicate]
    omega
  obtain ⟨p₂, written₂, front₂, h₂, -, -, kind₂⟩ :=
    write_front (store32be ((ofNat size <<< 3) >>> 32).toUInt32) front₁
      (by rw [at₁, length_store32be]; decide)
  have at₂ : (pending ++ replicate (56 - pending.length) (0 : UInt8) ++
      store32be ((ofNat size <<< 3) >>> 32).toUInt32).length = 4 * 15 := by
    rw [length_append, at₁, length_store32be]
  obtain ⟨p₃, written₃, front₃, h₃, -, -, kind₃⟩ :=
    write_front (store32be (ofNat size <<< 3).toUInt32) front₂ (by rw [at₂, length_store32be])
  rw [at₁] at written₂
  rw [at₂] at written₃
  have full := sha256Block_full front₃ (by rw [length_append, at₂, length_store32be])
  rw [append_assoc _ (store32be _) (store32be _), store_length, h₃, h₂, h₁, holds.h_eq] at full
  refine ⟨sha256Block p₃, ?_, ?_, full⟩
  · rw [sha256Length, holds.inlen_eq, written₁]
    dsimp only [bind, Option.bind]
    rw [len₁, len, written₂]
    dsimp only
    rw [written₃]
    rfl
  · rw [sha256Block_is224, kind₃, kind₂, kind₁, holds.is224_eq]

theorem sha256Final_eq {size : Nat} (holds : Holds p is224 h pending) (short : pending.length < 64)
    (len : p.len = .ofNat size) (place : size % 64 = pending.length) :
    ∃ p', sha256Final p = some p' ∧ p'.is224 = is224 ∧
      p'.h = (absorbing.run h (pending ++ padding size)).state := by
  obtain ⟨p₁, written₁, front₁, h₁, inlen₁, len₁, kind₁⟩ :=
    write_front [0x80] holds.front (by rw [length_singleton]; omega)
  have at₁ : (pending ++ [(0x80 : UInt8)]).length = pending.length + 1 := by
    rw [length_append, length_singleton]
  have begun : Holds { p₁ with inlen := pending.length + 1 } is224 h (pending ++ [0x80]) :=
    ⟨h₁.trans holds.h_eq, at₁.symm, front₁, kind₁.trans holds.is224_eq⟩
  rw [sha256Final, holds.inlen_eq, written₁]
  dsimp only [bind, Option.bind]
  rw [inlen₁, holds.inlen_eq]
  split
  · rename_i crowded
    -- The length does not fit any more: zeros fill this block, and the next up to the length.
    obtain ⟨p₂, written₂, front₂, h₂, -, len₂, kind₂⟩ :=
      write_front (replicate (64 - (pending.length + 1)) 0) begun.front (by rw [length_replicate, at₁]; omega)
    have at₂ : (pending ++ [(0x80 : UInt8)] ++ replicate (64 - (pending.length + 1)) 0).length = 64 := by
      rw [length_append, length_replicate, at₁]
      omega
    have hash := sha256Block_full front₂ at₂
    rw [h₂, begun.h_eq] at hash
    have next : Holds (sha256Block p₂) is224 _ [] :=
      ⟨hash, rfl, rfl, (sha256Block_is224 p₂).trans (kind₂.trans begun.is224_eq)⟩
    obtain ⟨p', result, kind, hash'⟩ := sha256Length_eq next (Nat.zero_le _)
      ((sha256Block_len p₂).trans (len₂.trans (len₁.trans len)))
    rw [at₁] at written₂
    rw [written₂]
    refine ⟨p', result, kind, ?_⟩
    have zeros : paddingZeros size = (64 - (pending.length + 1)) + 56 := by
      rw [paddingZeros]
      omega
    have split : pending ++ padding size = pending ++ [0x80] ++ replicate (64 - (pending.length + 1)) 0 ++
          ([] ++ replicate 56 0 ++ lengthBytes (8 * size)) := by
      rw [padding, zeros, replicate_add]
      simp only [append_assoc, nil_append]
    have whole : ([] ++ replicate 56 (0 : UInt8) ++ lengthBytes (8 * size)).length = 64 := by
      rw [length_append, length_lengthBytes, nil_append, length_replicate]
    rw [hash', split, absorbing, blocks_item at₂,
      ← append_nil ([] ++ replicate 56 0 ++ lengthBytes (8 * size)), blocks_item whole,
      blocks_waits (by decide), length_nil]
    rfl
  · rename_i fits
    obtain ⟨p', result, kind, hash⟩ := sha256Length_eq begun (by omega) (len₁.trans len)
    refine ⟨p', result, kind, ?_⟩
    have zeros : paddingZeros size = 56 - (pending ++ [(0x80 : UInt8)]).length := by
      rw [paddingZeros, at₁]
      omega
    have whole : (pending ++ padding size).length = 64 := by
      rw [padding, zeros]
      simp only [length_append, length_replicate, length_lengthBytes, at₁, length_singleton]
      omega
    rw [hash, ← append_nil (pending ++ padding size), absorbing, blocks_item whole,
      blocks_waits (by decide), padding, zeros]
    simp only [append_assoc]
    rfl

end Padding

theorem Absorbed.place {p : Sha256State} {is224 : Bool} {message : List UInt8}
    (absorbed : Absorbed p is224 message) : message.length % 64 = p.inlen := by
  have total := absorbing.run_length (if is224 then tH224 else tH) message
  have whole : 64 ∣ (absorbing.run (if is224 then tH224 else tH) message).converted.length :=
    blocks_converted _ _
  have short := absorbed.inlen_lt
  rw [← absorbed.holds.inlen_eq] at total
  omega

theorem Absorbed.final {p : Sha256State} {is224 : Bool} {message : List UInt8}
    (absorbed : Absorbed p is224 message) : sha256StreamFinal p = some (sha256 is224 message) := by
  obtain ⟨p', result, kind, hash⟩ := sha256Final_eq absorbed.holds (blocks_tail _ _) absorbed.len
    (absorbed.place.trans absorbed.holds.inlen_eq)
  have padded : p'.h = foldBlocks 64 compress (if is224 then tH224 else tH) (pad message) := by
    have folded : (absorbing.run (if is224 then tH224 else tH) (pad message)).state = _ := blocks_state _ _
    rw [hash, ← folded, pad]
    exact (congrArg Pass.state (absorbing.run_append _ message (padding message.length))).symm
  rw [sha256StreamFinal, result]
  dsimp only [bind, Option.bind]
  rw [kind, padded]
  rfl

/-- However a message is cut into pieces, they are taken without a byte beside the block, and the end of the
stream gives the hash of the message; of 2^61 bytes or more the length counts modulo 2^64 bits. -/
theorem stream_pieces (is224 : Bool) (pieces : List (List UInt8)) :
    ∃ p, pieces.foldlM sha256StreamUpdate (sha256StreamInit is224) = some p ∧ p.inlen < 64 ∧
      sha256StreamFinal p = some (sha256 is224 pieces.flatten) := by
  obtain ⟨p, result, absorbed⟩ := (Absorbed.init is224).updates pieces
  exact ⟨p, result, absorbed.inlen_lt, absorbed.final⟩

end Libretro.Sha256
