import Libretro.Library.CanonicalCode
import Mathlib.Data.List.GetD

/-! Copies from a distance back, one element at a time, and the block copies that equal them. -/

namespace BackReference

open List Nat

universe u

variable {α : Type u} [Inhabited α]

/-- Elements are appended one at a time, each the one `dist` back. -/
def copyBack (dist : Nat) : Nat → List α → List α
  | 0, out => out
  | n + 1, out => copyBack dist n (out ++ [out.getD (out.length - dist) default])

@[simp] theorem copyBack_length (dist n : Nat) (out : List α) :
    (copyBack dist n out).length = out.length + n := by
  induction n generalizing out with
  | zero => rfl
  | succ n ih =>
    rw [copyBack, ih, length_append, length_singleton]
    omega

theorem copyBack_add (dist n m : Nat) (out : List α) :
    copyBack dist (n + m) out = copyBack dist m (copyBack dist n out) := by
  induction n generalizing out with
  | zero => rw [zero_add, copyBack]
  | succ n ih => rw [succ_add, copyBack, copyBack, ih]

theorem copyBack_succ (dist n : Nat) (out : List α) : copyBack dist (n + 1) out =
      copyBack dist n out ++ [(copyBack dist n out).getD (out.length + n - dist) default] := by
  rw [copyBack_add]
  simp [copyBack]

variable {dist : Nat} {out : List α}

/-- What a copy appends repeats the last `dist` elements. -/
theorem copyBack_eq (back : 0 < dist) (inside : dist ≤ out.length) (n : Nat) : copyBack dist n out =
      out ++ (range n).map fun k => out.getD (out.length - dist + k % dist) default := by
  induction n with
  | zero => simp [copyBack]
  | succ n ih =>
    rw [copyBack_succ, ih, range_succ, map_append, ← append_assoc]
    congr 2
    show _ = out.getD (out.length - dist + n % dist) default
    -- The element a distance back is in the original list, or in what was appended before.
    by_cases early : n < dist
    · rw [getD_append _ _ _ _ (by omega), mod_eq_of_lt early]
      congr 1
      omega
    · rw [getD_append_right _ _ _ _ (by omega), getD_eq_getElem?_getD, getElem?_map,
        getElem?_range (by omega)]
      have place : out.length + n - dist - out.length = n - dist := by omega
      rw [place, Option.map_some, Option.getD_some, mod_eq_sub_mod (by omega : dist ≤ n)]

theorem copyBack_extends (dist n : Nat) (out : List α) : out <+: copyBack dist n out := by
  induction n generalizing out with
  | zero => exact prefix_refl out
  | succ n ih => exact (prefix_append _ _).trans (ih _)

theorem copyBack_read (back : 0 < dist) (inside : dist ≤ out.length) {n i : Nat} (early : i < n + dist) :
    (copyBack dist n out).getD (out.length - dist + i) default =
      out.getD (out.length - dist + i % dist) default := by
  rw [copyBack_eq back inside]
  by_cases before : i < dist
  · rw [getD_append _ _ _ _ (by omega), mod_eq_of_lt before]
  · rw [getD_append_right _ _ _ _ (by omega), getD_eq_getElem?_getD, getElem?_map,
      getElem?_range (by omega)]
    have place : out.length - dist + i - out.length = i - dist := by omega
    rw [place, Option.map_some, Option.getD_some, mod_eq_sub_mod (by omega : dist ≤ i)]

theorem copyBack_within {n : Nat} (back : n ≤ dist) (inside : dist ≤ out.length) :
    copyBack dist n out = out ++ (out.drop (out.length - dist)).take n := by
  induction n with
  | zero => simp [copyBack]
  | succ n ih =>
    have place : out.length + n - dist < out.length := by omega
    rw [copyBack_succ, ih (by omega), getD_append _ _ _ _ place, append_assoc]
    have next : n < (out.drop (out.length - dist)).length := by
      rw [length_drop]
      omega
    rw [take_succ_eq_append_getElem next, getElem_drop, getD_eq_getElem _ _ place]
    congr 4
    omega

/-- Behind a copy, a multiple of its distance leads to the same elements. -/
theorem copyBack_multiple {times : Nat} (back : 0 < dist)
    (inside : dist ≤ out.length) (some : 0 < times) (m : Nat) :
    ∀ n, dist * times ≤ n + dist →
      copyBack (dist * times) m (copyBack dist n out) = copyBack dist (n + m) out := by
  induction m with
  | zero =>
    intro n _
    rfl
  | succ m ih =>
    intro n reach
    have least : dist ≤ dist * times := Nat.le_mul_of_pos_right dist some
    -- Both distances end at elements whose places differ by whole periods.
    have far : (copyBack dist n out).getD (out.length + n - dist * times) default =
        out.getD (out.length - dist + n % dist) default := by
      have place : out.length + n - dist * times = out.length - dist + (n + dist - dist * times) := by omega
      rw [place, copyBack_read back inside (by omega)]
      congr 2
      have whole : (n + dist - dist * times + dist * times) % dist = (n + dist) % dist := by
        rw [Nat.sub_add_cancel reach]
      rwa [add_mul_mod_self_left, add_mod_right] at whole
    have near : (copyBack dist n out).getD (out.length + n - dist) default =
        out.getD (out.length - dist + n % dist) default := by
      have place : out.length + n - dist = out.length - dist + n := by omega
      rw [place, copyBack_read back inside (by omega)]
    have same : copyBack dist n out ++
        [(copyBack dist n out).getD ((copyBack dist n out).length - dist * times) default] =
        copyBack dist (n + 1) out := by
      rw [copyBack_succ, copyBack_length, far, near]
    rw [copyBack, same, ih (n + 1) (by omega)]
    congr 1
    omega

theorem copyBack_block {width : Nat} (back : 0 < dist)
    (inside : dist ≤ out.length) (divides : dist ∣ width) (n : Nat) :
    copyBack dist (n * width) out ++
        ((range width).map fun k => out.getD (out.length - dist + k % dist) default) =
      copyBack dist ((n + 1) * width) out := by
  have split : (n + 1) * width = n * width + width := succ_mul n width
  rw [copyBack_eq back inside, copyBack_eq back inside, append_assoc, split, range_add, map_append, map_map]
  congr 2
  apply map_congr_left
  intro k _
  -- The block starts after whole periods, so its places are those of the first one.
  obtain ⟨periods, rfl⟩ := divides
  simp only [Function.comp_apply]
  rw [show n * (dist * periods) + k = k + dist * (n * periods) by
    rw [mul_left_comm, add_comm], add_mul_mod_self_left]

theorem copyBack_append (back : 0 < dist) (inside : dist ≤ out.length)
    (front : List α) (n : Nat) : copyBack dist n (front ++ out) = front ++ copyBack dist n out := by
  have reach : dist ≤ (front ++ out).length := by
    rw [length_append]
    omega
  rw [copyBack_eq back reach, copyBack_eq back inside, append_assoc]
  congr 2
  apply map_congr_left
  intro k _
  have place : (front ++ out).length - dist + k % dist = front.length + (out.length - dist + k % dist) := by
    rw [length_append]
    omega
  rw [place, getD_append_right _ _ _ _ (by omega), Nat.add_sub_cancel_left]

end BackReference

namespace Deflate

open BitString BitString.Parser BackReference

/-- The longest code. -/
def maxBits : Nat := 15

/-- The smallest length each length symbol stands for. -/
def lengthBase : List Nat :=
  [3, 4, 5, 6, 7, 8, 9, 10, 11, 13, 15, 17, 19, 23, 27, 31, 35, 43, 51, 59,
   67, 83, 99, 115, 131, 163, 195, 227, 258]

/-- The extra bits of each length symbol. -/
def lengthExtra : List Nat :=
  [0, 0, 0, 0, 0, 0, 0, 0, 1, 1, 1, 1, 2, 2, 2, 2, 3, 3, 3, 3, 4, 4, 4, 4, 5, 5, 5, 5, 0]

/-- The smallest distance each distance symbol stands for. -/
def distanceBase : List Nat :=
  [1, 2, 3, 4, 5, 7, 9, 13, 17, 25, 33, 49, 65, 97, 129, 193, 257, 385, 513, 769,
   1025, 1537, 2049, 3073, 4097, 6145, 8193, 12289, 16385, 24577]

/-- The extra bits of each distance symbol. -/
def distanceExtra : List Nat :=
  [0, 0, 0, 0, 1, 1, 2, 2, 3, 3, 4, 4, 5, 5, 6, 6, 7, 7, 8, 8, 9, 9, 10, 10, 11, 11, 12, 12, 13, 13]

/-- The order in which the code lengths of the code length code are listed. -/
def codeLengthOrder : List Nat := [16, 17, 18, 0, 8, 7, 9, 6, 10, 5, 11, 4, 12, 3, 13, 2, 14, 1, 15]

/-- The code lengths of the fixed literal and length code. -/
def fixedLiterals : List Nat :=
  List.replicate 144 8 ++ List.replicate 112 9 ++ List.replicate 24 7 ++ List.replicate 8 8

/-- The code lengths of the fixed distance code. -/
def fixedDistances : List Nat := List.replicate 30 5

/-- Code lengths make a code when no length has more codes than are left for it. -/
def makesCode (lengths : List Nat) : Bool :=
  lengths.all (· ≤ maxBits) && (List.range' 1 maxBits).all fun len =>
      CanonicalCode.first lengths len + CanonicalCode.count lengths len ≤ 2 ^ len

/-- What a compressed block is made of. -/
inductive Token where
  | literal (byte : UInt8)
  | blockEnd
  | copy (length distance : Nat)
deriving DecidableEq

/-- A match, from its distance's extra bits on. -/
def distanceRest (length sym : Nat) : Parser Token :=
  (number (distanceExtra.getD sym 0)).andThen fun extra =>
    done (.copy length (distanceBase.getD sym 0 + extra))

/-- A match, from its distance's symbol on. -/
def distancePart (distances : List Nat) (length : Nat) : Parser Token :=
  (CanonicalCode.read distances maxBits).andThen fun sym =>
    if 30 ≤ sym then never else distanceRest length sym

/-- A match, from its length's extra bits on. -/
def lengthRest (distances : List Nat) (sym : Nat) : Parser Token :=
  (number (lengthExtra.getD sym 0)).andThen fun extra =>
    distancePart distances (lengthBase.getD sym 0 + extra)

/-- What follows a literal or length symbol. -/
def symbolRest (distances : List Nat) (sym : Nat) : Parser Token :=
  if sym < 256 then done (.literal (UInt8.ofNat sym))
  else if sym = 256 then done .blockEnd
  else if 29 ≤ sym - 257 then never
  else lengthRest distances (sym - 257)

/-- A literal, the end of a block, or a match. -/
def token (literals distances : List Nat) : Parser Token :=
  (CanonicalCode.read literals maxBits).andThen (symbolRest distances)

/-- A run of code lengths: a length once, the last one again, or zeros. -/
def lengthRun (known : List Nat) (sym : Nat) : Parser (List Nat) :=
  if sym < 16 then done [sym]
  else if sym = 16 then
    if known = [] then never
    else (number 2).andThen fun more =>
      done (List.replicate (3 + more) (known.getLastD 0))
  else if sym = 17 then
    (number 3).andThen fun more => done (List.replicate (3 + more) 0)
  else (number 7).andThen fun more => done (List.replicate (11 + more) 0)

/-- The code lengths of the code length code, in the order they are listed. -/
def codeLengths : Nat → List Nat → Parser (List Nat)
  | 0, listed => done listed
  | n + 1, listed => (number 3).andThen fun len => codeLengths n (listed ++ [len])

/-- The code lengths of the code length code, in the order of its symbols. -/
def inOrder (listed : List Nat) : List Nat :=
  (List.range 19).map fun sym => listed.getD (codeLengthOrder.idxOf sym) 0

/-- Where a decoder stands. -/
inductive Stage where
  | block
  | stored (left : Nat) (final : Bool)
  | lengths (literals distances : Nat) (code known : List Nat) (final : Bool)
  | symbols (literals distances : List Nat) (final : Bool)
  | finished
deriving DecidableEq

/-- What follows a block. -/
def afterBlock (final : Bool) : Stage := if final then .finished else .block

/-- A stored block's length and its complement. -/
def storedHeader (final : Bool) : Parser Stage :=
  (number 16).andThen fun len => (number 16).andThen fun complement =>
    if len ^^^ 0xFFFF ≠ complement then never else done (.stored len final)

/-- A dynamic block's header, from the code lengths of its code length code on. -/
def dynamicRest (final : Bool) (literals distances left : Nat) (listed : List Nat) : Parser Stage :=
  (codeLengths left listed).andThen fun listed =>
    if makesCode (inOrder listed) then
      done (.lengths literals distances (inOrder listed) [] final)
    else never

/-- A dynamic block's header, up to its code length code. -/
def dynamicHeader (final : Bool) : Parser Stage :=
  (number 5).andThen fun literals => (number 5).andThen fun distances =>
    (number 4).andThen fun codes =>
      dynamicRest final (literals + 257) (distances + 1) (codes + 4) []

/-- A block's header. -/
def header : Parser Stage :=
  (number 1).andThen fun final => (number 2).andThen fun type =>
    if type = 0 then align.andThen fun _ => storedHeader (final ≠ 0)
    else if type = 1 then done (.symbols fixedLiterals fixedDistances (final ≠ 0))
    else if type = 2 then dynamicHeader (final ≠ 0)
    else never

/-- A decoder: where it stands, what it has decoded, and what is left to read. -/
structure Decoder where
  stage : Stage
  out : List UInt8
  bits : BitString

/-- What a decoder does next. -/
inductive Outcome where
  | short
  | wrong
  | finished
  | next (decoder : Decoder)

/-- The stage and the output after what a parser has read. -/
def continue' {α : Type} (reply : Reply α) (next : α → Option (Stage × List UInt8)) : Outcome :=
  match reply with
  | .short => .short
  | .wrong => .wrong
  | .read value rest =>
    match next value with
    | none => .wrong
    | some (stage, out) => .next { stage := stage, out := out, bits := rest }

/-- One step of decoding: a header, a stored byte, a run of code lengths or a symbol. -/
def Decoder.step (decoder : Decoder) : Outcome :=
  match decoder.stage with
  | .block => continue' (header decoder.bits) fun stage => some (stage, decoder.out)
  | .stored 0 final => .next { decoder with stage := afterBlock final }
  | .stored (left + 1) final =>
    continue' (number 8 decoder.bits) fun byte =>
      some (.stored left final, decoder.out ++ [UInt8.ofNat byte])
  | .lengths literals distances code known final =>
    if known.length < literals + distances then
      continue' ((CanonicalCode.read code maxBits).andThen (lengthRun known) decoder.bits) fun run =>
          if literals + distances < known.length + run.length then none
          else some (.lengths literals distances code (known ++ run) final, decoder.out)
    else if makesCode (known.take literals) ∧ makesCode ((known.drop literals).take distances) then
      .next { decoder with
        stage := .symbols (known.take literals) ((known.drop literals).take distances) final }
    else .wrong
  | .symbols literals distances final =>
    continue' (token literals distances decoder.bits) fun token =>
      match token with
      | .literal byte => some (.symbols literals distances final, decoder.out ++ [byte])
      | .blockEnd => some (afterBlock final, decoder.out)
      | .copy length distance =>
        if decoder.out.length < distance then none
        else some (.symbols literals distances final, copyBack distance length decoder.out)
  | .finished => .finished

/-- A decoder at the head of a stream. -/
def Decoder.start (bits : BitString) : Decoder := { stage := .block, out := [], bits := bits }

/-- Steps follow one another. -/
inductive Steps : Decoder → Decoder → Prop
  | refl (decoder : Decoder) : Steps decoder decoder
  | step {first second third : Decoder} (moves : first.step = .next second)
      (rest : Steps second third) : Steps first third

/-- How decoding ends: at the end of the stream, for want of bits, or on a wrong stream. -/
inductive Ending where
  | finished | short | wrong
deriving DecidableEq

/-- A decoder stops where no step follows. -/
def Decoder.ends (decoder : Decoder) : Option Ending :=
  match decoder.step with
  | .short => some .short
  | .wrong => some .wrong
  | .finished => some .finished
  | .next _ => none

/-- A decoder comes to an end with some output. -/
def Decodes (decoder : Decoder) (ending : Ending) (out : List UInt8) : Prop :=
  ∃ last, Steps decoder last ∧ last.ends = some ending ∧ last.out = out

end Deflate
