import Libretro.Library.CString
import Libretro.Library.Unicode
import Mathlib.Data.Nat.Bitwise
import Mathlib.Tactic.IntervalCases
import Mathlib.Tactic.Ring

/-! The Unicode conversions, which read back what they wrote, and the walks, which agree on characters. -/

namespace Libretro.Utf

open BitVec CString Nat UInt8

/-- The code point of a high and a low surrogate. -/
def surrogates (value c2 : Nat) : Nat := ((value - 0xD800) <<< 10 ||| (c2 - 0xDC00)) + 0x10000

/-- The bytes that the counting pass counts for a value that is not ASCII. -/
def utf16Width (value : Nat) : Nat := if value < 0x800 then 2 else if value < 0x10000 then 3 else 4

/-- The counting pass of utf16_conv_utf8: what it counts from here on, and the result. -/
def utf16Count : List UInt16 → Nat × Bool
  | [] => (0, true)
  | unit :: units =>
    let value := unit.toNat
    if value < 0x80 then
      let (count, result) := utf16Count units
      (1 + count, result)
    else if 0xD800 ≤ value ∧ value < 0xE000 then
      match units with
      | [] => (0, false)
      | c2 :: units =>
        if 0xDC00 ≤ value ∨ c2.toNat < 0xDC00 ∨ 0xE000 ≤ c2.toNat then (0, false)
        else
          let (count, result) := utf16Count units
          (utf16Width (surrogates value c2.toNat) + count, result)
    else
      let (count, result) := utf16Count units
      (utf16Width value + count, result)

/-- The bytes that the encoding pass stores for a value that is not ASCII. -/
def utf16Store (value : Nat) : List UInt8 :=
  if value < 0x800 then [.ofNat (0xC0 ||| value >>> 6), .ofNat (0x80 ||| value &&& 0x3F)]
  else if value < 0x10000 then
    [.ofNat (0xE0 ||| value >>> 12), .ofNat (0x80 ||| value >>> 6 &&& 0x3F), .ofNat (0x80 ||| value &&& 0x3F)]
  else
    [.ofNat (0xF0 ||| value >>> 18), .ofNat (0x80 ||| value >>> 12 &&& 0x3F),
      .ofNat (0x80 ||| value >>> 6 &&& 0x3F), .ofNat (0x80 ||| value &&& 0x3F)]

/-- The encoding pass of utf16_conv_utf8: what it stores from here on, and the result. -/
def utf16Encode : List UInt16 → List UInt8 × Bool
  | [] => ([], true)
  | unit :: units =>
    let value := unit.toNat
    -- A run of ASCII units is copied one by one.
    if value < 0x80 then
      let (out, result) := utf16Encode units
      (.ofNat value :: out, result)
    else if 0xD800 ≤ value ∧ value < 0xE000 then
      match units with
      | [] => ([], false)
      | c2 :: units =>
        if 0xDC00 ≤ value ∨ c2.toNat < 0xDC00 ∨ 0xE000 ≤ c2.toNat then ([], false)
        else
          let (out, result) := utf16Encode units
          (utf16Store (surrogates value c2.toNat) ++ out, result)
    else
      let (out, result) := utf16Encode units
      (utf16Store value ++ out, result)

/-- What a call of utf16_conv_utf8 stores, the count it reports and its result. -/
structure Converted where
  stored : List UInt8
  outChars : Nat
  result : Bool
deriving DecidableEq

/-- A call of utf16_conv_utf8, with a buffer to store in or without one. -/
def utf16ConvUtf8 (out : Bool) (input : List UInt16) : Converted :=
  if out then
    let (bytes, result) := utf16Encode input
    ⟨bytes, bytes.length, result⟩
  else
    let (count, result) := utf16Count input
    ⟨[], count, result⟩

/-- The number of leading ones of a byte, as utf8_lut has it: 7 stands for seven and eight. -/
def utf8Lut (byte : UInt8) : Nat :=
  if byte < 0x80 then 0 else if byte < 0xC0 then 1 else if byte < 0xE0 then 2
  else if byte < 0xF0 then 3 else if byte < 0xF8 then 4 else if byte < 0xFC then 5
  else if byte < 0xFE then 6 else 7

/-- Eight bytes loaded as a word. -/
def word (b0 b1 b2 b3 b4 b5 b6 b7 : UInt8) : BitVec 64 :=
  b7.toBitVec ++ b6.toBitVec ++ b5.toBitVec ++ b4.toBitVec ++ b3.toBitVec ++ b2.toBitVec ++
    b1.toBitVec ++ b0.toBitVec

/-- The loop over words of ASCII: what it stores, the room left and the bytes left. -/
def asciiWords : List UInt8 → Nat → List Nat × Nat × List UInt8
  | b0 :: b1 :: b2 :: b3 :: b4 :: b5 :: b6 :: b7 :: input, outChars =>
    if 8 ≤ outChars ∧ word b0 b1 b2 b3 b4 b5 b6 b7 &&& 0x8080808080808080 = 0 then
      let (out, left, rest) := asciiWords input (outChars - 8)
      ([b0.toNat, b1.toNat, b2.toNat, b3.toNat, b4.toNat, b5.toNat, b6.toNat, b7.toNat] ++ out,
        left, rest)
    else ([], outChars, b0 :: b1 :: b2 :: b3 :: b4 :: b5 :: b6 :: b7 :: input)
  | input, outChars => ([], outChars, input)

/-- The loop over bytes of ASCII: what it stores, the room left and the bytes left. -/
def asciiBytes : List UInt8 → Nat → List Nat × Nat × List UInt8
  | byte :: input, outChars + 1 =>
    if byte < 0x80 then
      let (out, left, rest) := asciiBytes input outChars
      (byte.toNat :: out, left, rest)
    else ([], outChars + 1, byte :: input)
  | input, outChars => ([], outChars, input)

/-- The run of ASCII at the head of a turn, if there is one. -/
def asciiRun (input : List UInt8) (outChars : Nat) : List Nat × Nat × List UInt8 :=
  if input.headD 0 < 0x80 then
    let (words, outChars, input) := asciiWords input outChars
    let (bytes, outChars, input) := asciiBytes input outChars
    (words ++ bytes, outChars, input)
  else ([], outChars, input)

/-- One more continuation byte. -/
def continued (c : Nat) (byte : UInt8) : Nat := c <<< 6 ||| (byte &&& 0x3F).toNat

/-- The continuation bytes of a sequence of so many bytes, if they are there. -/
def continuedBy (ones c : Nat) (input : List UInt8) : Option (Nat × List UInt8) :=
  if input.length + 1 < ones then none
  else some ((input.take (ones - 1)).foldl continued c, input.drop (ones - 1))

/-- A sequence that does not begin with ASCII: its value and the bytes behind it. -/
def utf8Sequence (first : UInt8) (input : List UInt8) : Option (Nat × List UInt8) :=
  if first < 0xE0 then
    if first < 0xC0 then none else continuedBy 2 (first &&& 0x1F).toNat input
  else if first < 0xF0 then continuedBy 3 (first &&& 0x0F).toNat input
  else if first < 0xF8 then continuedBy 4 (first &&& 0x07).toNat input
  else if 6 < utf8Lut first then none
  else continuedBy (utf8Lut first) (first.toNat &&& (1 <<< (7 - utf8Lut first) - 1)) input

theorem asciiRun_room (input : List UInt8) (outChars : Nat) : (asciiRun input outChars).2.1 ≤ outChars := by
  have words : (asciiWords input outChars).2.1 ≤ outChars := by
    fun_induction asciiWords input outChars with
    | case1 b0 b1 b2 b3 b4 b5 b6 b7 input outChars _ out left rest taken ih =>
      rw [taken] at ih
      exact le_trans ih (sub_le _ _)
    | case2 => exact le_refl _
    | case3 => exact le_refl _
  have bytes (input : List UInt8) (outChars : Nat) : (asciiBytes input outChars).2.1 ≤ outChars := by
    fun_induction asciiBytes input outChars with
    | case1 byte input outChars _ out left rest taken ih =>
      rw [taken] at ih
      exact le_succ_of_le ih
    | case2 => exact le_refl _
    | case3 => exact le_refl _
  rw [asciiRun]
  split
  · exact le_trans (bytes _ _) words
  · exact le_refl _

/-- The loop of utf8_conv_utf32: what it stores from here on. -/
def utf8Loop (input : List UInt8) (outChars : Nat) : List Nat :=
  if input = [] ∨ outChars = 0 then []
  else
    match _within : asciiRun input outChars with
    | (out, left + 1, first :: rest) =>
      match utf8Sequence first rest with
      | none => out
      | some (c, rest) => out ++ c :: utf8Loop rest left
    | (out, _, _) => out
termination_by outChars
decreasing_by
  have room := asciiRun_room input outChars
  rw [_within] at room
  exact room

/-- A call of utf8_conv_utf32: what it stores, as many as it returns. -/
def utf8ConvUtf32 (outChars : Nat) (input : List UInt8) : List Nat := utf8Loop input outChars

/-- A byte that continues a sequence: (byte & 0xC0) == 0x80. -/
def isTail (byte : UInt8) : Bool := byte &&& 0xC0 == 0x80

/-- The loop of utf8cpy over characters, at most so many and before the limit. -/
def utf8cpyLoop (buffer : List UInt8) (start limit : Nat) : Nat → Nat → Nat
  | 0, sb => sb
  | chars + 1, sb =>
    if sb - start < limit ∧ byteAt buffer sb ≠ 0 then
      utf8cpyLoop buffer start limit chars (skip isTail buffer (sb + 1))
    else sb

/-- The loop of utf8cpy back to the lead byte, not before the start. -/
def utf8cpyBack (buffer : List UInt8) (start : Nat) : Nat → Nat
  | 0 => start
  | ahead + 1 =>
    if isTail (byteAt buffer (start + (ahead + 1))) then utf8cpyBack buffer start ahead
    else start + (ahead + 1)

/-- A call of utf8cpy: the destination afterwards and the number of bytes. -/
def utf8cpy (s : List UInt8) (len : Nat) (buffer : List UInt8) (start chars : Nat) : List UInt8 × Nat :=
  if len = 0 then (s, 0)
  else
    let sb := utf8cpyLoop buffer start (len - 1) chars start
    let sb := if len - 1 < sb - start then utf8cpyBack buffer start (len - 1) else sb
    let byteCount := sb - start
    (splice s 0 (slice buffer start byteCount ++ [0]), byteCount)

/-- The run of ASCII in utf8skip while more than one character is left: those left and the place. -/
def skipAscii (buffer : List UInt8) : Nat → Nat → Nat × Nat
  | 0, strb => (0, strb)
  | left + 1, strb =>
    let nb := byteAt buffer strb
    if nb = 0 ∨ 0x80 ≤ nb then (left + 1, strb) else skipAscii buffer left (strb + 1)

/-- A step over the bytes of a sequence, so many at most and not past a zero byte. -/
def stepOver (buffer : List UInt8) : Nat → Nat → Nat
  | 0, strb => strb
  | count + 1, strb => if byteAt buffer strb ≠ 0 then stepOver buffer count (strb + 1) else strb

theorem skipAscii_left (buffer : List UInt8) (left strb : Nat) : (skipAscii buffer left strb).1 ≤ left := by
  fun_induction skipAscii buffer left strb with
  | case1 => exact le_refl _
  | case2 => exact le_refl _
  | case3 left strb _ _ ih => exact le_succ_of_le ih

/-- The loop of utf8skip over so many characters: where it ends. -/
def utf8skip (buffer : List UInt8) (chars strb : Nat) : Nat :=
  match chars with
  | 0 => strb
  | left + 1 =>
    let b := byteAt buffer strb
    if b = 0 then strb
    else if b < 0xC0 then
      if b < 0x80 then
        utf8skip buffer (skipAscii buffer left (strb + 1)).1 (skipAscii buffer left (strb + 1)).2
      else utf8skip buffer left (strb + 1)
    else if b < 0xE0 then utf8skip buffer left (stepOver buffer 1 (strb + 1))
    else if b < 0xF0 then utf8skip buffer left (stepOver buffer 2 (strb + 1))
    else if b < 0xF8 then utf8skip buffer left (stepOver buffer 3 (strb + 1))
    else utf8skip buffer left (stepOver buffer (utf8Lut b) strb)
termination_by chars
decreasing_by all_goals first
    | exact Nat.lt_succ_of_le (skipAscii_left _ _ _)
    | exact Nat.lt_succ_self _

/-- The count of the bytes that begin a character, byte by byte. -/
def lenBytes : List UInt8 → Nat
  | [] => 0
  | byte :: p => (if isTail byte then 0 else 1) + lenBytes p

/-- The bytes of a word that begin a character. -/
def wordLen (w : BitVec 64) : Nat :=
  let c := (w &&& ~~~(w <<< 1) &&& 0x8080808080808080) >>> 7
  let c := c + c >>> 32
  let c := c + c >>> 16
  let c := c + c >>> 8
  8 - (c &&& 0xFF).toNat

/-- The loop of utf8len over words, and the bytes behind them. -/
def lenWords : List UInt8 → Nat
  | b0 :: b1 :: b2 :: b3 :: b4 :: b5 :: b6 :: b7 :: p => wordLen (word b0 b1 b2 b3 b4 b5 b6 b7) + lenWords p
  | p => lenBytes p

/-- The loop of utf8len up to the first aligned address, and the words behind it. -/
def lenAligned (address : Nat) : List UInt8 → Nat
  | [] => 0
  | byte :: p =>
    if address % 8 ≠ 0 then (if isTail byte then 0 else 1) + lenAligned (address + 1) p
    else lenWords (byte :: p)

/-- A call of utf8len on the string that begins at a place, whose byte has an address. -/
def utf8len (buffer : List UInt8) (place address : Nat) : Nat := lenAligned address (string buffer place)

/-- The continuation bytes that utf8_walk takes: the value and the place behind them. -/
def walkOver (buffer : List UInt8) : Nat → Nat → Nat → Nat × Nat
  | 0, ret, s => (ret, s)
  | count + 1, ret, s =>
    let b := byteAt buffer s
    if b ≠ 0 then walkOver buffer count (continued ret b) (s + 1) else (ret, s)

/-- A call of utf8_walk: the value and where the string is now. -/
def utf8Walk (buffer : List UInt8) (place : Nat) : Nat × Nat :=
  let first := byteAt buffer place
  let s := place + 1
  if first < 0x80 then (first.toNat, s)
  else if first < 0xE0 then
    if first < 0xC0 then ((first &&& 0x3F).toNat, s)
    else walkOver buffer 1 (first &&& 0x1F).toNat s
  else if first < 0xF0 then walkOver buffer 2 (first &&& 0x0F).toNat s
  else if first < 0xF8 then walkOver buffer 3 (first &&& 0x07).toNat s
  else (first.toNat &&& (1 <<< (7 - utf8Lut first) - 1), s)

/-- What is left of a byte: one when it continues a sequence. -/
def tailByte (byte : UInt8) : UInt8 := if isTail byte then 1 else 0

theorem isTail_bits (byte : UInt8) : isTail byte = (byte.toBitVec.getLsbD 7 && !byte.toBitVec.getLsbD 6) := by
  revert byte
  exact Utf8.forall_byte (by decide +kernel)

theorem word_toNat (b0 b1 b2 b3 b4 b5 b6 b7 : UInt8) : (word b0 b1 b2 b3 b4 b5 b6 b7).toNat =
      b0.toNat + 2 ^ 8 * b1.toNat + 2 ^ 16 * b2.toNat + 2 ^ 24 * b3.toNat + 2 ^ 32 * b4.toNat +
        2 ^ 40 * b5.toNat + 2 ^ 48 * b6.toNat + 2 ^ 56 * b7.toNat := by
  -- Every byte that is appended moves those in front of it up by eight bits.
  have appended {m : Nat} (front : BitVec m) (byte : UInt8) :
      (front ++ byte.toBitVec).toNat = front.toNat * 2 ^ 8 + byte.toNat := by
    rw [toNat_append, ← Nat.shiftLeft_add_eq_or_of_lt byte.toBitVec.isLt, Nat.shiftLeft_eq]
    rfl
  rw [word, appended, appended, appended, appended, appended, appended, appended]
  show ((((((b7.toNat * _ + _) * _ + _) * _ + _) * _ + _) * _ + _) * _ + _) * _ + _ = _
  ring

theorem word_getLsbD (b0 b1 b2 b3 b4 b5 b6 b7 : UInt8) {place bit : Nat} (inside : place < 8)
    (low : bit < 8) : (word b0 b1 b2 b3 b4 b5 b6 b7).getLsbD (8 * place + bit) =
      ([b0, b1, b2, b3, b4, b5, b6, b7].getD place 0).toBitVec.getLsbD bit := by
  -- The lowest bytes are taken off one by one, down to the one that is looked at.
  have first {m : Nat} (front : BitVec m) (byte : UInt8) :
      (front ++ byte.toBitVec).getLsbD bit = byte.toBitVec.getLsbD bit := by
    rw [getLsbD_append, if_pos low]
  have next {m : Nat} (front : BitVec m) (byte : UInt8) (place : Nat) :
      (front ++ byte.toBitVec).getLsbD (8 * (place + 1) + bit) = front.getLsbD (8 * place + bit) := by
    rw [getLsbD_append, if_neg (by omega)]
    congr 1
    omega
  unfold word
  interval_cases place
  · rw [Nat.mul_zero, Nat.zero_add, first]
    rfl
  · rw [next _ _ 0, Nat.mul_zero, Nat.zero_add, first]
    rfl
  · rw [next _ _ 1, next _ _ 0, Nat.mul_zero, Nat.zero_add, first]
    rfl
  · rw [next _ _ 2, next _ _ 1, next _ _ 0, Nat.mul_zero, Nat.zero_add, first]
    rfl
  · rw [next _ _ 3, next _ _ 2, next _ _ 1, next _ _ 0, Nat.mul_zero, Nat.zero_add, first]
    rfl
  · rw [next _ _ 4, next _ _ 3, next _ _ 2, next _ _ 1, next _ _ 0, Nat.mul_zero, Nat.zero_add,
      first]
    rfl
  · rw [next _ _ 5, next _ _ 4, next _ _ 3, next _ _ 2, next _ _ 1, next _ _ 0, Nat.mul_zero,
      Nat.zero_add, first]
    rfl
  · rw [next _ _ 6, next _ _ 5, next _ _ 4, next _ _ 3, next _ _ 2, next _ _ 1, next _ _ 0,
      Nat.mul_zero, Nat.zero_add]
    rfl

theorem word_tails (b0 b1 b2 b3 b4 b5 b6 b7 : UInt8) :
    let w := word b0 b1 b2 b3 b4 b5 b6 b7
    (w &&& ~~~(w <<< 1) &&& 0x8080808080808080) >>> 7 =
      word (tailByte b0) (tailByte b1) (tailByte b2) (tailByte b3) (tailByte b4) (tailByte b5)
        (tailByte b6) (tailByte b7) := by
  intro w
  -- Bit by bit: the place of the byte and the place in the byte.
  apply eq_of_getLsbD_eq
  intro i inside
  obtain ⟨place, bit, rfl, low⟩ : ∃ place bit, i = 8 * place + bit ∧ bit < 8 :=
    ⟨i / 8, i % 8, (div_add_mod i 8).symm, mod_lt _ (by decide)⟩
  have masks : ∀ place < 8, ∀ bit < 8,
      (0x8080808080808080#64).getLsbD (7 + (8 * place + bit)) = (bit == 0) := by
    decide
  have places : place < 8 := by omega
  have kept : [tailByte b0, tailByte b1, tailByte b2, tailByte b3, tailByte b4, tailByte b5,
      tailByte b6, tailByte b7].getD place 0 = tailByte ([b0, b1, b2, b3, b4, b5, b6, b7].getD place 0) :=
    List.getD_map [b0, b1, b2, b3, b4, b5, b6, b7] 0 tailByte
  rw [getLsbD_ushiftRight, getLsbD_and, getLsbD_and, getLsbD_not,
    getLsbD_shiftLeft, word_getLsbD _ _ _ _ _ _ _ _ places low, kept]
  show (_ && (0x8080808080808080#64).getLsbD (7 + (8 * place + bit))) = _
  rw [masks place places bit low]
  cases bit with
  | zero =>
    -- The lowest bit comes from the two highest of the same byte.
    have seven : 7 + (8 * place + 0) = 8 * place + 7 := by omega
    have six : 8 * place + 7 - 1 = 8 * place + 6 := by omega
    have notFirst : ¬ 8 * place + 7 < 1 := by omega
    rw [seven, six, word_getLsbD _ _ _ _ _ _ _ _ places (by decide),
      word_getLsbD _ _ _ _ _ _ _ _ places (by decide), tailByte, isTail_bits]
    generalize [b0, b1, b2, b3, b4, b5, b6, b7].getD place 0 = byte
    simp only [show 8 * place + 7 < 64 by omega, notFirst, decide_true, decide_false]
    cases byte.toBitVec.getLsbD 7
    all_goals
      cases byte.toBitVec.getLsbD 6
      all_goals rfl
  | succ bit =>
    have single : ∀ bit < 7, (1#8).getLsbD (bit + 1) = false := by decide
    have cleared (byte : UInt8) : (tailByte byte).toBitVec.getLsbD (bit + 1) = false := by
      rw [tailByte]
      split
      · exact single bit (by omega)
      · exact getLsbD_zero
    rw [cleared]
    exact Bool.and_false _

theorem fold_low {x : BitVec 64} {half low high : Nat} (short : half ≤ 64)
    (parts : x.toNat % (2 ^ half * 2 ^ half) = low + 2 ^ half * high)
    (small : low + high < 2 ^ half) : (x + x >>> half).toNat % 2 ^ half = low + high := by
  have lowHalf : x.toNat % 2 ^ half = low := by
    rw [← mod_mod_of_dvd x.toNat (dvd_mul_right (2 ^ half) (2 ^ half)), parts,
      add_mul_mod_self_left, mod_eq_of_lt (by omega)]
  have highHalf : x.toNat / 2 ^ half % 2 ^ half = high := by
    rw [← mod_mul_right_div_self, parts, add_mul_div_left _ _ (Nat.two_pow_pos half),
      div_eq_of_lt (by omega), Nat.zero_add]
  rw [toNat_add, toNat_ushiftRight, shiftRight_eq_div_pow,
    mod_mod_of_dvd _ (pow_dvd_pow 2 short), add_mod, lowHalf, highHalf,
    mod_eq_of_lt small]

theorem folds_small {t0 t1 t2 t3 t4 t5 t6 t7 : Nat} (s0 : t0 ≤ 1) (s1 : t1 ≤ 1) (s2 : t2 ≤ 1)
    (s3 : t3 ≤ 1) (s4 : t4 ≤ 1) (s5 : t5 ≤ 1) (s6 : t6 ≤ 1) (s7 : t7 ≤ 1) :
    (t0 + 2 ^ 8 * t1 + 2 ^ 16 * t2 + 2 ^ 24 * t3) + (t4 + 2 ^ 8 * t5 + 2 ^ 16 * t6 + 2 ^ 24 * t7) < 2 ^ 32 ∧
      (t0 + t4 + 2 ^ 8 * (t1 + t5)) + (t2 + t6 + 2 ^ 8 * (t3 + t7)) < 2 ^ 16 ∧
      (t0 + t4 + (t2 + t6)) + (t1 + t5 + (t3 + t7)) < 2 ^ 8 := by
  refine ⟨?_, ?_, ?_⟩
  · omega
  · omega
  · omega

theorem folds_add {t0 t1 t2 t3 t4 t5 t6 t7 : Nat} (s0 : t0 ≤ 1) (s1 : t1 ≤ 1) (s2 : t2 ≤ 1)
    (s3 : t3 ≤ 1) (s4 : t4 ≤ 1) (s5 : t5 ≤ 1) (s6 : t6 ≤ 1) (s7 : t7 ≤ 1) {c : BitVec 64}
    (value : c.toNat = t0 + 2 ^ 8 * t1 + 2 ^ 16 * t2 + 2 ^ 24 * t3 + 2 ^ 32 * t4 + 2 ^ 40 * t5 +
      2 ^ 48 * t6 + 2 ^ 56 * t7) :
    let c1 := c + c >>> 32
    let c2 := c1 + c1 >>> 16
    let c3 := c2 + c2 >>> 8
    (c3 &&& 0xFF).toNat = t0 + t1 + t2 + t3 + t4 + t5 + t6 + t7 := by
  intro c1 c2 c3
  obtain ⟨small, smaller, smallest⟩ := folds_small s0 s1 s2 s3 s4 s5 s6 s7
  -- Each fold halves the places that count, and no place reaches the next.
  have whole : c.toNat % (2 ^ 32 * 2 ^ 32) = c.toNat := mod_eq_of_lt c.isLt
  have first : c1.toNat % 2 ^ 32 = (t0 + 2 ^ 8 * t1 + 2 ^ 16 * t2 + 2 ^ 24 * t3) +
      (t4 + 2 ^ 8 * t5 + 2 ^ 16 * t6 + 2 ^ 24 * t7) :=
    fold_low (by decide) (whole.trans (value.trans (by ring))) small
  have second : c2.toNat % 2 ^ 16 = (t0 + t4 + 2 ^ 8 * (t1 + t5)) + (t2 + t6 + 2 ^ 8 * (t3 + t7)) :=
    fold_low (by decide) (first.trans (by ring)) smaller
  have third : c3.toNat % 2 ^ 8 = (t0 + t4 + (t2 + t6)) + (t1 + t5 + (t3 + t7)) :=
    fold_low (by decide) (second.trans (by ring)) smallest
  rw [toNat_and]
  show c3.toNat &&& 2 ^ 8 - 1 = _
  rw [and_two_pow_sub_one_eq_mod, third]
  ac_rfl

theorem wordLen_word (b0 b1 b2 b3 b4 b5 b6 b7 : UInt8) :
    wordLen (word b0 b1 b2 b3 b4 b5 b6 b7) = lenBytes [b0, b1, b2, b3, b4, b5, b6, b7] := by
  have small (byte : UInt8) : (tailByte byte).toNat ≤ 1 := by
    rw [tailByte]
    split <;> decide
  have counted (byte : UInt8) : (if isTail byte then 0 else 1) = 1 - (tailByte byte).toNat := by
    rw [tailByte]
    split <;> rfl
  have sum := folds_add (small b0) (small b1) (small b2) (small b3) (small b4) (small b5)
    (small b6) (small b7) (word_toNat ..)
  rw [wordLen]
  simp only [word_tails, lenBytes, counted]
  simp only at sum
  rw [sum]
  have s0 := small b0
  have s1 := small b1
  have s2 := small b2
  have s3 := small b3
  have s4 := small b4
  have s5 := small b5
  have s6 := small b6
  have s7 := small b7
  clear sum counted
  omega

theorem lenWords_eq (p : List UInt8) : lenWords p = lenBytes p := by
  -- By the loop's own recursion: eight bytes a turn, or the tail.
  fun_induction lenWords p with
  | case1 b0 b1 b2 b3 b4 b5 b6 b7 p ih =>
    rw [ih, wordLen_word]
    simp only [lenBytes, add_zero, add_assoc]
  | case2 => rfl

theorem lenAligned_eq (address : Nat) (p : List UInt8) : lenAligned address p = lenBytes p := by
  -- By the loop's own recursion: one byte up to the address, then the words.
  fun_induction lenAligned address p with
  | case1 => rfl
  | case2 address byte p unaligned ih => rw [ih, lenBytes]
  | case3 address byte p aligned => exact lenWords_eq _

open List
open Utf8 (IsScalar)

theorem or_low (high : Nat) {width low : Nat} (small : low < 2 ^ width) :
    high <<< width ||| low = high * 2 ^ width + low := by
  rw [← shiftLeft_add_eq_or_of_lt small, Nat.shiftLeft_eq]

theorem and_six (value : Nat) : value &&& 0x3F = value % 64 := and_two_pow_sub_one_eq_mod value 6

variable {value : Nat}

theorem utf16Store_eq (large : 0x80 ≤ value) (small : value < 0x110000) :
    utf16Store value = Utf8.encode value := by
  have tail (x : Nat) : 0x80 ||| x &&& 0x3F = 0x80 + x % 64 := by
    rw [and_six]
    exact @or_low 2 6 (x % 64) (mod_lt _ (by decide))
  have shift (places : Nat) : value >>> places = value / 2 ^ places := shiftRight_eq_div_pow value places
  have ascii : ¬ value < 0x80 := by omega
  by_cases two : value < 0x800
  · have lead : 0xC0 ||| value >>> 6 = 0xC0 + value / 64 := by
      rw [shift]
      exact @or_low 6 5 (value / 64) (by omega)
    rw [utf16Store, if_pos two, Utf8.encode, if_neg ascii, if_pos two, lead, tail]
  · by_cases three : value < 0x10000
    · have lead : 0xE0 ||| value >>> 12 = 0xE0 + value / 4096 := by
        rw [shift]
        exact @or_low 14 4 (value / 4096) (by omega)
      rw [utf16Store, if_neg two, if_pos three, Utf8.encode, if_neg ascii, if_neg two, if_pos three,
        lead, tail, tail, shift]
      rfl
    · have lead : 0xF0 ||| value >>> 18 = 0xF0 + value / 262144 := by
        rw [shift]
        exact @or_low 30 3 (value / 262144) (by omega)
      rw [utf16Store, if_neg two, if_neg three, Utf8.encode, if_neg ascii, if_neg two,
        if_neg three, lead, tail, tail, tail, shift, shift]
      rfl

theorem surrogates_eq (large : 0x10000 ≤ value) :
    surrogates (0xD800 + (value - 0x10000) / 1024) (0xDC00 + (value - 0x10000) % 1024) = value := by
  have low : (value - 0x10000) % 1024 < 2 ^ 10 := mod_lt _ (by decide)
  rw [surrogates, Nat.add_sub_cancel_left, Nat.add_sub_cancel_left, or_low _ low]
  omega

variable {codes : List Nat}

theorem utf16Encode_eq (scalars : ∀ code ∈ codes, IsScalar code) :
    utf16Encode (codes.flatMap Utf16.encode) = (codes.flatMap Utf8.encode, true) := by
  induction codes with
  | nil => rfl
  | cons code codes ih =>
    have ih := ih fun other listed => scalars other (mem_cons_of_mem _ listed)
    rw [flatMap_cons, flatMap_cons]
    rcases Utf16.encode_cases (scalars code mem_cons_self) with
      ⟨unit, units, same, notSurrogate⟩ | ⟨high, low, units, highValue, lowValue, large, small⟩
    · -- One unit: ASCII or not, but no surrogate.
      rw [units, List.cons_append, nil_append, utf16Encode.eq_def]
      simp only [ih, same]
      split
      · rename_i ascii
        rw [Utf8.encode_ascii ascii]
        rfl
      · rename_i large
        have bmp : code < 0x110000 := by
          have bound := unit.toNat_lt
          omega
        rw [if_neg (by omega), utf16Store_eq (by omega) bmp]
    · -- Two units: the pair is put together.
      rw [units, List.cons_append, List.cons_append, nil_append, utf16Encode.eq_def]
      simp only [ih, highValue, lowValue, surrogates_eq large]
      rw [if_neg (by omega), if_pos (by omega), if_neg (by omega),
        utf16Store_eq (by omega) small]

theorem length_utf16Store (value : Nat) : (utf16Store value).length = utf16Width value := by
  unfold utf16Store utf16Width
  split_ifs <;> rfl

theorem utf16Count_eq (units : List UInt16) :
    utf16Count units = ((utf16Encode units).1.length, (utf16Encode units).2) := by
  -- Both passes take the same turns.
  fun_induction utf16Count units with
  | case1 => rfl
  | case2 unit units value ascii count result counted ih =>
    rw [counted] at ih
    obtain ⟨same, agree⟩ := Prod.mk.inj ih
    rw [utf16Encode.eq_def]
    simp only
    rw [if_pos ascii, length_cons, ← same, ← agree, add_comm]
  | case3 unit value ascii surrogate =>
    rw [utf16Encode.eq_def]
    simp only
    rw [if_neg ascii, if_pos surrogate]
    rfl
  | case4 unit value ascii surrogate c2 units broken =>
    rw [utf16Encode.eq_def]
    simp only
    rw [if_neg ascii, if_pos surrogate, if_pos broken]
    rfl
  | case5 unit value ascii surrogate c2 units whole count result counted ih =>
    rw [counted] at ih
    obtain ⟨same, agree⟩ := Prod.mk.inj ih
    rw [utf16Encode.eq_def]
    simp only
    rw [if_neg ascii, if_pos surrogate, if_neg whole, length_append, length_utf16Store, ← same, ← agree]
  | case6 unit units value ascii surrogate count result counted ih =>
    rw [counted] at ih
    obtain ⟨same, agree⟩ := Prod.mk.inj ih
    rw [utf16Encode.eq_def]
    simp only
    rw [if_neg ascii, if_neg surrogate, length_append, length_utf16Store, ← same, ← agree]

theorem append_eq_zero {m n : Nat} (x : BitVec m) (y : BitVec n) :
    x ++ y = 0#(m + n) ↔ x = 0#m ∧ y = 0#n := by
  constructor
  · intro none
    constructor
    · apply BitVec.eq_of_getLsbD_eq
      intro i inside
      have bit := congrArg (fun word => word.getLsbD (n + i)) none
      simpa [BitVec.getLsbD_append] using bit
    · apply BitVec.eq_of_getLsbD_eq
      intro i inside
      have bit := congrArg (fun word => word.getLsbD i) none
      simpa [BitVec.getLsbD_append, inside] using bit
  · rintro ⟨rfl, rfl⟩
    exact BitVec.zero_append_zero
theorem ascii_iff (byte : UInt8) : byte.toBitVec &&& 0x80#8 = 0#8 ↔ byte < 0x80 := by
  have bit : (byte.toBitVec &&& 0x80#8).toNat = (byte.toNat.testBit 7).toNat * 2 ^ 7 :=
    and_two_pow byte.toNat 7
  have small := byte.toNat_lt
  rw [← BitVec.toNat_inj, bit, lt_iff_toNat_lt, testBit_eq_decide_div_mod_eq]
  show _ = 0 ↔ byte.toNat < 128
  by_cases high : byte.toNat / 2 ^ 7 % 2 = 1
  · simp only [high, decide_true, Bool.toNat_true]
    omega
  · simp only [high, decide_false, Bool.toNat_false]
    omega

theorem mask_append {m : Nat} (front mask : BitVec m) (byte : UInt8) :
    (front ++ byte.toBitVec) &&& (mask ++ 0x80#8) = 0#(m + 8) ↔ front &&& mask = 0#m ∧ byte < 0x80 := by
  rw [BitVec.and_append, append_eq_zero, ascii_iff]

theorem word_ascii (b0 b1 b2 b3 b4 b5 b6 b7 : UInt8) :
    word b0 b1 b2 b3 b4 b5 b6 b7 &&& 0x8080808080808080 = 0 ↔
      b0 < 0x80 ∧ b1 < 0x80 ∧ b2 < 0x80 ∧ b3 < 0x80 ∧ b4 < 0x80 ∧ b5 < 0x80 ∧ b6 < 0x80 ∧ b7 < 0x80 := by
  have mask : (0x8080808080808080 : BitVec 64) =
      0x80#8 ++ 0x80#8 ++ 0x80#8 ++ 0x80#8 ++ 0x80#8 ++ 0x80#8 ++ 0x80#8 ++ 0x80#8 := by
    simp
  rw [mask]
  refine (mask_append _ _ b0).trans ?_
  rw [mask_append _ _ b1, mask_append _ _ b2, mask_append _ _ b3, mask_append _ _ b4,
    mask_append _ _ b5, mask_append _ _ b6, ascii_iff]
  tauto

/-- What a run of ASCII takes: so many bytes, each as it is, and up to where. -/
structure TakesAscii (input : List UInt8) (outChars : Nat) (run : List Nat × Nat × List UInt8)
    (count : Nat) : Prop where
  inside : count ≤ input.length
  ascii : ∀ byte ∈ input.take count, byte < 0x80
  stored : run.1 = (input.take count).map toNat
  left : run.2.1 + count = outChars
  rest : run.2.2 = input.drop count

theorem asciiWords_takes (input : List UInt8) (outChars : Nat) :
    ∃ count, TakesAscii input outChars (asciiWords input outChars) count := by
  fun_induction asciiWords input outChars with
  | case1 b0 b1 b2 b3 b4 b5 b6 b7 input outChars room out left rest taken ih =>
    obtain ⟨count, ⟨inside, ascii, stored, kept, behind⟩⟩ := ih
    rw [taken] at stored kept behind
    simp only at stored kept behind
    have small := (word_ascii b0 b1 b2 b3 b4 b5 b6 b7).mp room.2
    refine ⟨count + 8, ⟨?_, ?_, ?_, ?_, ?_⟩⟩
    · simpa using inside
    · intro byte listed
      simp only [take_succ_cons, mem_cons] at listed
      rcases listed with rfl | rfl | rfl | rfl | rfl | rfl | rfl | rfl | listed
      all_goals tauto
    · rw [stored]
      rfl
    · simp only
      omega
    · rw [behind]
      rfl
  | case2 => exact ⟨0, by simp, by simp, rfl, rfl, rfl⟩
  | case3 => exact ⟨0, by simp, by simp, rfl, rfl, rfl⟩

theorem asciiBytes_takes (input : List UInt8) (outChars : Nat) :
    ∃ count, TakesAscii input outChars (asciiBytes input outChars) count ∧
      ((asciiBytes input outChars).2.1 = 0 ∨
        ∀ first ∈ (asciiBytes input outChars).2.2.head?, 0x80 ≤ first) := by
  fun_induction asciiBytes input outChars with
  | case1 byte input outChars small out left rest taken ih =>
    obtain ⟨count, ⟨inside, ascii, stored, kept, behind⟩, stops⟩ := ih
    rw [taken] at stored kept behind stops
    simp only at stored kept behind stops
    refine ⟨count + 1, ⟨?_, ?_, ?_, ?_, ?_⟩, stops⟩
    · simpa using inside
    · intro other listed
      rw [take_succ_cons, mem_cons] at listed
      rcases listed with rfl | listed
      · exact small
      · exact ascii other listed
    · rw [stored]
      rfl
    · simp only
      omega
    · rw [behind]
      rfl
  | case2 byte input outChars large =>
    refine ⟨0, ⟨by simp, by simp, rfl, rfl, rfl⟩, .inr ?_⟩
    simpa using large
  | case3 input outChars none =>
    refine ⟨0, ⟨by simp, by simp, rfl, rfl, rfl⟩, ?_⟩
    cases input with
    | nil => exact .inr (by simp)
    | cons byte input =>
      cases outChars with
      | zero => exact .inl rfl
      | succ outChars => exact absurd rfl (none byte input outChars rfl)

theorem TakesAscii.append {input rest : List UInt8} {outChars left last count more : Nat}
    {out out' : List Nat} {rest' : List UInt8}
    (first : TakesAscii input outChars (out, left, rest) count)
    (second : TakesAscii rest left (out', last, rest') more) :
    TakesAscii input outChars (out ++ out', last, rest') (count + more) := by
  obtain ⟨inside, ascii, stored, kept, behind⟩ := first
  obtain ⟨inside', ascii', stored', kept', behind'⟩ := second
  simp only at stored kept behind stored' kept' behind'
  subst behind
  have taken : input.take (count + more) = input.take count ++ (input.drop count).take more := take_add
  rw [length_drop] at inside'
  refine ⟨by omega, ?_, ?_, ?_, ?_⟩
  · intro byte listed
    rw [taken, mem_append] at listed
    exact listed.elim (ascii byte) (ascii' byte)
  · rw [taken, map_append, ← stored, ← stored']
  · simp only
    omega
  · rw [behind', drop_drop]

theorem asciiRun_takes (input : List UInt8) (outChars : Nat) :
    ∃ count, TakesAscii input outChars (asciiRun input outChars) count ∧ ((asciiRun input outChars).2.1 = 0 ∨
        ∀ first ∈ (asciiRun input outChars).2.2.head?, 0x80 ≤ first) := by
  rw [asciiRun]
  split
  · obtain ⟨count, words⟩ := asciiWords_takes input outChars
    obtain ⟨more, bytes, stops⟩ :=
      asciiBytes_takes (asciiWords input outChars).2.2 (asciiWords input outChars).2.1
    exact ⟨count + more, words.append bytes, stops⟩
  · rename_i large
    refine ⟨0, ⟨by simp, by simp, rfl, rfl, rfl⟩, .inr ?_⟩
    cases input with
    | nil => simp
    | cons byte input => simpa using large

theorem lead_low {mark : Nat} (width : Nat) (small : mark + value < 256)
    (clear : mark % 2 ^ width = 0) (low : value < 2 ^ width) {mask : UInt8}
    (ones : mask.toNat = 2 ^ width - 1) : (UInt8.ofNat (mark + value) &&& mask).toNat = value := by
  rw [UInt8.toNat_and, Utf8.toNat_ofNat small, ones, and_two_pow_sub_one_eq_mod, add_mod,
    clear, zero_add, mod_mod, mod_eq_of_lt low]

theorem continued_tail (c : Nat) (small : value < 64) :
    continued c (.ofNat (0x80 + value)) = c * 64 + value := by
  rw [continued, lead_low 6 (by omega) (by decide) small rfl]
  exact @or_low c 6 value small

theorem ofNat_lt (small : value < 256) (bound : UInt8) : ofNat value < bound ↔ value < bound.toNat := by
  rw [lt_iff_toNat_lt, Utf8.toNat_ofNat small]

/-- The encoding of a scalar value beyond ASCII is read back. -/
theorem utf8Sequence_encode {code : Nat} (scalar : IsScalar code) (large : 0x80 ≤ code) (rest : List UInt8) :
    ∃ first tail, Utf8.encode code = first :: tail ∧ 0x80 ≤ first ∧ first < 0xF8 ∧
      utf8Sequence first (tail ++ rest) = some (code, rest) := by
  unfold IsScalar at scalar
  by_cases two : code < 0x800
  · have below : ofNat (0xC0 + code / 64) < 0xE0 :=
      (ofNat_lt (by omega) 0xE0).mpr (show 0xC0 + code / 64 < 0xE0 by omega)
    have above : ¬ ofNat (0xC0 + code / 64) < 0xC0 :=
      mt (ofNat_lt (by omega) 0xC0).mp (show ¬ 0xC0 + code / 64 < 0xC0 by omega)
    rw [Utf8.encode, if_neg (by omega), if_pos two]
    refine ⟨_, _, rfl, ?_, UInt8.lt_trans below (by decide), ?_⟩
    · rw [UInt8.le_iff_toNat_le, Utf8.toNat_ofNat (by omega)]
      exact le_trans (by decide) (le_add_right 0xC0 _)
    · rw [utf8Sequence, if_pos below, if_neg above,
        lead_low 5 (by omega) (by decide) (by omega) rfl, continuedBy, if_neg (by simp)]
      simp only [List.cons_append, nil_append, take_succ_cons, take_zero,
        foldl_cons, foldl_nil, drop_succ_cons, drop_zero]
      rw [continued_tail _ (by omega)]
      congr 2
      omega
  · by_cases three : code < 0x10000
    · have notTwo : ¬ ofNat (0xE0 + code / 4096) < 0xE0 :=
        mt (ofNat_lt (by omega) 0xE0).mp (show ¬ 0xE0 + code / 4096 < 0xE0 by omega)
      have below : ofNat (0xE0 + code / 4096) < 0xF0 :=
        (ofNat_lt (by omega) 0xF0).mpr (show 0xE0 + code / 4096 < 0xF0 by omega)
      rw [Utf8.encode, if_neg (by omega), if_neg two, if_pos three]
      refine ⟨_, _, rfl, ?_, UInt8.lt_trans below (by decide), ?_⟩
      · rw [UInt8.le_iff_toNat_le, Utf8.toNat_ofNat (by omega)]
        exact le_trans (by decide) (le_add_right 0xE0 _)
      · rw [utf8Sequence, if_neg notTwo, if_pos below,
          lead_low 4 (by omega) (by decide) (by omega) rfl, continuedBy, if_neg (by simp)]
        simp only [List.cons_append, nil_append, take_succ_cons, take_zero,
          foldl_cons, foldl_nil, drop_succ_cons, drop_zero]
        rw [continued_tail _ (by omega), continued_tail _ (by omega)]
        congr 2
        omega
    · have notTwo : ¬ ofNat (0xF0 + code / 262144) < 0xE0 :=
        mt (ofNat_lt (by omega) 0xE0).mp (show ¬ 0xF0 + code / 262144 < 0xE0 by omega)
      have notThree : ¬ ofNat (0xF0 + code / 262144) < 0xF0 :=
        mt (ofNat_lt (by omega) 0xF0).mp (show ¬ 0xF0 + code / 262144 < 0xF0 by omega)
      have below : ofNat (0xF0 + code / 262144) < 0xF8 :=
        (ofNat_lt (by omega) 0xF8).mpr (show 0xF0 + code / 262144 < 0xF8 by omega)
      rw [Utf8.encode, if_neg (by omega), if_neg two, if_neg three]
      refine ⟨_, _, rfl, ?_, below, ?_⟩
      · rw [le_iff_toNat_le, Utf8.toNat_ofNat (by omega)]
        exact le_trans (by decide) (le_add_right 0xF0 _)
      · rw [utf8Sequence, if_neg notTwo, if_neg notThree, if_pos below,
          lead_low 3 (by omega) (by decide) (by omega) rfl, continuedBy, if_neg (by simp)]
        simp only [List.cons_append, nil_append, take_succ_cons, take_zero,
          foldl_cons, foldl_nil, drop_succ_cons, drop_zero]
        rw [continued_tail _ (by omega), continued_tail _ (by omega), continued_tail _ (by omega)]
        congr 2
        omega

theorem ascii_front (scalars : ∀ code ∈ codes, IsScalar code) {count : Nat}
    (inside : count ≤ (codes.flatMap Utf8.encode).length)
    (ascii : ∀ byte ∈ (codes.flatMap Utf8.encode).take count, byte < 0x80) :
    ((codes.flatMap Utf8.encode).take count).map toNat = codes.take count ∧
      (codes.flatMap Utf8.encode).drop count = (codes.drop count).flatMap Utf8.encode := by
  induction count generalizing codes with
  | zero => exact ⟨rfl, rfl⟩
  | succ count ih =>
    cases codes with
    | nil => exact ⟨rfl, rfl⟩
    | cons code codes =>
      have scalar := scalars code mem_cons_self
      obtain ⟨lead, tail, bytes, _⟩ := Utf8.encode_lead scalar
      have small : lead < 0x80 := by
        apply ascii
        rw [flatMap_cons, bytes, List.cons_append, take_succ_cons]
        exact mem_cons_self
      -- A character that begins with an ASCII byte is that byte.
      have alone : code < 0x80 := by
        by_contra large
        have high := Utf8.encode_high scalar (Nat.le_of_not_lt large) lead (bytes ▸ mem_cons_self)
        exact absurd (lt_iff_toNat_lt.mp small) (not_lt.mpr high)
      rw [flatMap_cons, Utf8.encode_ascii alone, singleton_append] at inside ascii ⊢
      rw [take_succ_cons] at ascii ⊢
      obtain ⟨front, back⟩ :=
        ih (fun other listed => scalars other (mem_cons_of_mem _ listed)) (le_of_succ_le_succ inside)
          (fun byte listed => ascii byte (mem_cons_of_mem _ listed))
      rw [map_cons, front, Utf8.toNat_ofNat (by omega), take_succ_cons,
        drop_succ_cons, drop_succ_cons, back]
      exact ⟨rfl, rfl⟩

theorem noBytes (nothing : codes.flatMap Utf8.encode = []) : codes = [] := by
  cases codes with
  | nil => rfl
  | cons code codes =>
    have empty := flatMap_eq_nil_iff.mp nothing code mem_cons_self
    unfold Utf8.encode at empty
    split_ifs at empty

theorem utf8Loop_encode (scalars : ∀ code ∈ codes, IsScalar code)
    {outChars : Nat} (room : codes.length ≤ outChars) :
    utf8Loop (codes.flatMap Utf8.encode) outChars = codes := by
  -- Every turn reads a run of ASCII and one character behind it.
  induction length : codes.length using Nat.strongRecOn generalizing codes outChars with
  | _ n ih =>
    subst length
    obtain ⟨count, taken, stops⟩ := asciiRun_takes (codes.flatMap Utf8.encode) outChars
    obtain ⟨front, back⟩ := ascii_front scalars taken.inside taken.ascii
    obtain ⟨inside, ascii, stored, left, rest⟩ := taken
    rw [front] at stored
    rw [back] at rest
    rw [utf8Loop]
    split
    · rename_i finished
      rcases finished with nothing | full
      · exact (noBytes nothing).symm
      · exact (length_eq_zero_iff.mp (by omega)).symm
    · split
      · -- The run ends at a character beyond ASCII.
        rename_i out kept first tail ran
        rw [ran] at stored left rest stops
        simp only at stored left rest stops
        have high : 0x80 ≤ first := by
          rcases stops with full | high
          · exact absurd full (succ_ne_zero kept)
          · exact high first rfl
        cases more : codes.drop count with
        | nil =>
          rw [more] at rest
          cases rest
        | cons code later =>
          have listed : code ∈ codes := mem_of_mem_drop (more ▸ mem_cons_self)
          have large : 0x80 ≤ code := by
            by_contra small
            rw [more, flatMap_cons, Utf8.encode_ascii (Nat.lt_of_not_le small)] at rest
            obtain ⟨rfl, -⟩ := cons.inj rest
            rw [le_iff_toNat_le, Utf8.toNat_ofNat (by omega)] at high
            exact small high
          obtain ⟨lead, others, bytes, -, -, decoded⟩ :=
            utf8Sequence_encode (scalars code listed) large (later.flatMap Utf8.encode)
          rw [more, flatMap_cons, bytes, List.cons_append] at rest
          obtain ⟨rfl, rfl⟩ := cons.inj rest
          have split : codes.take count ++ code :: later = codes := by rw [← more, take_append_drop]
          have lengths : codes.length - count = later.length + 1 := by rw [← length_drop, more, length_cons]
          have later_scalars : ∀ other ∈ later, IsScalar other := fun other listed =>
            scalars other (mem_of_mem_drop (more ▸ mem_cons_of_mem _ listed))
          have again : utf8Loop (later.flatMap Utf8.encode) kept = later :=
            ih later.length (by omega) later_scalars (by omega) rfl
          rw [decoded]
          simp only
          rw [again, stored, split]
      · -- The run ends with the room or with the input.
        rename_i out kept behind last ran
        rw [ran] at stored left rest
        simp only at stored left rest
        have whole : codes.length ≤ count := by
          cases kept with
          | zero => omega
          | succ kept =>
            cases behind with
            | nil => exact drop_eq_nil_iff.mp (noBytes rest.symm)
            | cons first tail => exact (last kept first tail rfl rfl).elim
        rw [stored, take_of_length_le whole]

/-- Scalar values come back from UTF-16 by UTF-8, and the count is of the bytes that are stored. -/
theorem utf16ConvUtf8_roundTrip : (∀ (codes : List Nat) (outChars : Nat), (∀ code ∈ codes, IsScalar code) →
      codes.length ≤ outChars →
      (utf16ConvUtf8 true (codes.flatMap Utf16.encode)).result = true ∧
        utf8ConvUtf32 outChars (utf16ConvUtf8 true (codes.flatMap Utf16.encode)).stored = codes) ∧
      ∀ units : List UInt16, (utf16ConvUtf8 false units).outChars = (utf16ConvUtf8 true units).stored.length ∧
          (utf16ConvUtf8 true units).outChars = (utf16ConvUtf8 true units).stored.length ∧
          (utf16ConvUtf8 false units).result = (utf16ConvUtf8 true units).result := by
  constructor
  · intro codes outChars scalars room
    have converted : utf16ConvUtf8 true (codes.flatMap Utf16.encode) =
        ⟨codes.flatMap Utf8.encode, (codes.flatMap Utf8.encode).length, true⟩ := by
      rw [utf16ConvUtf8, if_pos rfl, utf16Encode_eq scalars]
    rw [converted]
    exact ⟨rfl, utf8Loop_encode scalars room⟩
  · intro units
    have counted : utf16ConvUtf8 false units = ⟨[], (utf16Encode units).1.length, (utf16Encode units).2⟩ := by
      rw [utf16ConvUtf8, if_neg (by decide), utf16Count_eq]
    rw [counted]
    exact ⟨rfl, rfl, rfl⟩

/-- An ASCII letter, an accented one, a sign of three bytes and one beyond the first plane. -/
theorem utf16ConvUtf8_roundTrip_mixed :
    let codes := [0x41, 0xE9, 0x20AC, 0x1F600]
    utf8ConvUtf32 4 (utf16ConvUtf8 true (codes.flatMap Utf16.encode)).stored = codes :=
  (utf16ConvUtf8_roundTrip.1 [0x41, 0xE9, 0x20AC, 0x1F600] 4 (by decide) (by decide)).2

open CString

theorem isTail_iff (byte : UInt8) : isTail byte = true ↔ Utf8.IsTail byte := by
  revert byte
  unfold Utf8.IsTail
  exact Utf8.forall_byte (by decide +kernel)

theorem encode_tails (code : Nat) {lead : UInt8} {tail : List UInt8}
    (bytes : Utf8.encode code = lead :: tail) : ∀ byte ∈ tail, isTail byte = true := by
  have marked : ∀ value < 64, isTail (.ofNat (0x80 + value)) = true := by decide
  have low (value : Nat) : isTail (.ofNat (0x80 + value % 64)) = true := marked _ (mod_lt _ (by decide))
  unfold Utf8.encode at bytes
  split_ifs at bytes
  · obtain ⟨-, rfl⟩ := List.cons.inj bytes
    exact fun _ listed => nomatch listed
  all_goals
    obtain ⟨-, rfl⟩ := List.cons.inj bytes
    simp only [forall_mem_cons, low, true_and]
    exact fun _ listed => nomatch listed

theorem sequence_cases {first : UInt8} {tail rest : List UInt8} {code : Nat} (below : first < 0xF8)
    (decoded : utf8Sequence first (tail ++ rest) = some (code, rest)) :
    (first < 0xE0 ∧ ¬ first < 0xC0 ∧ tail.length = 1 ∧ tail.foldl continued (first &&& 0x1F).toNat = code) ∨
      (¬ first < 0xE0 ∧ first < 0xF0 ∧ tail.length = 2 ∧ tail.foldl continued (first &&& 0x0F).toNat = code) ∨
      (¬ first < 0xE0 ∧ ¬ first < 0xF0 ∧ tail.length = 3 ∧
        tail.foldl continued (first &&& 0x07).toNat = code) := by
  have taken {ones c : Nat} (given : continuedBy ones c (tail ++ rest) = some (code, rest)) :
      tail.length = ones - 1 ∧ tail.foldl continued c = code := by
    rw [continuedBy] at given
    split at given
    · cases given
    · rename_i enough
      rw [length_append] at enough
      obtain ⟨same, left⟩ := Prod.mk.inj (Option.some.inj given)
      have lengths := congrArg List.length left
      rw [length_drop, length_append] at lengths
      have length : tail.length = ones - 1 := by omega
      rw [← length, take_left] at same
      exact ⟨length, same⟩
  unfold utf8Sequence at decoded
  split_ifs at decoded with two one three
  · exact .inl ⟨two, one, taken decoded⟩
  · exact .inr (.inl ⟨two, three, taken decoded⟩)
  · exact .inr (.inr ⟨two, three, taken decoded⟩)

section Character

variable {buffer : List UInt8} {place : Nat} {rest : List UInt8}

theorem walkOver_string {tail : List UInt8} (begins : string buffer place = tail ++ rest) (ret : Nat) :
    walkOver buffer tail.length ret place = (tail.foldl continued ret, place + tail.length) := by
  induction tail generalizing place ret with
  | nil => rfl
  | cons byte tail ih =>
    obtain ⟨read, notZero, behind⟩ := string_cons begins
    rw [length_cons, walkOver, read]
    rw [if_pos notZero, ih behind, foldl_cons, add_right_comm, add_assoc]

theorem stepOver_string {tail : List UInt8} (begins : string buffer place = tail ++ rest) :
    stepOver buffer tail.length place = place + tail.length := by
  induction tail generalizing place with
  | nil => rfl
  | cons byte tail ih =>
    obtain ⟨read, notZero, behind⟩ := string_cons begins
    rw [length_cons, stepOver, read, if_pos notZero, ih behind, add_right_comm, add_assoc]

theorem utf8Walk_encode {code : Nat} (scalar : IsScalar code)
    (begins : string buffer place = Utf8.encode code ++ rest) :
    utf8Walk buffer place = (code, place + (Utf8.encode code).length) := by
  by_cases ascii : code < 0x80
  · rw [Utf8.encode_ascii ascii] at begins ⊢
    have small : ofNat code < 0x80 := (ofNat_lt (by omega) 0x80).mpr ascii
    rw [utf8Walk, (string_cons begins).1]
    rw [if_pos small, Utf8.toNat_ofNat (by omega)]
    rfl
  · obtain ⟨first, tail, bytes, high, below, decoded⟩ :=
      utf8Sequence_encode scalar (Nat.le_of_not_lt ascii) rest
    rw [bytes] at begins ⊢
    obtain ⟨read, -, behind⟩ := string_cons begins
    have walked := walkOver_string behind
    have notAscii : ¬ first < 0x80 := UInt8.not_lt.mpr high
    have length : place + (first :: tail).length = place + 1 + tail.length := by
      rw [length_cons]
      omega
    rw [utf8Walk, read, length]
    rw [if_neg notAscii]
    rcases sequence_cases below decoded with ⟨two, one, count, value⟩ | ⟨two, three, count, value⟩ |
      ⟨two, three, count, value⟩
    · have step := walked (first &&& 0x1F).toNat
      rw [value, count] at step
      rw [if_pos two, if_neg one, count, step]
    · have step := walked (first &&& 0x0F).toNat
      rw [value, count] at step
      rw [if_neg two, if_pos three, count, step]
    · have step := walked (first &&& 0x07).toNat
      rw [value, count] at step
      rw [if_neg two, if_neg three, if_pos below, count, step]

theorem utf8skip_skipAscii (left strb : Nat) :
    utf8skip buffer (skipAscii buffer left strb).1 (skipAscii buffer left strb).2 =
      utf8skip buffer left strb := by
  cases left with
  | zero => rfl
  | succ left =>
    rw [skipAscii]
    split
    · rfl
    · rename_i ascii
      obtain ⟨notZero, small⟩ := not_or.mp ascii
      have low : byteAt buffer strb < 0xC0 := UInt8.lt_trans (UInt8.not_le.mp small) (by decide)
      -- The loop would take the same turn.
      conv_rhs => rw [utf8skip]
      rw [if_neg notZero, if_pos low, if_pos (UInt8.not_le.mp small)]

theorem utf8skip_encode {code : Nat} (scalar : IsScalar code)
    (begins : string buffer place = Utf8.encode code ++ rest) (left : Nat) :
    utf8skip buffer (left + 1) place = utf8skip buffer left (place + (Utf8.encode code).length) := by
  by_cases ascii : code < 0x80
  · rw [Utf8.encode_ascii ascii] at begins ⊢
    obtain ⟨read, notZero, -⟩ := string_cons begins
    have small : ofNat code < 0x80 := (ofNat_lt (by omega) 0x80).mpr ascii
    rw [utf8skip, read]
    rw [if_neg notZero, if_pos (UInt8.lt_trans small (by decide)), if_pos small,
      utf8skip_skipAscii]
    rfl
  · obtain ⟨first, tail, bytes, high, below, decoded⟩ :=
      utf8Sequence_encode scalar (Nat.le_of_not_lt ascii) rest
    rw [bytes] at begins ⊢
    obtain ⟨read, notZero, behind⟩ := string_cons begins
    have stepped := stepOver_string behind
    have length : place + (first :: tail).length = place + 1 + tail.length := by
      rw [length_cons]
      omega
    rw [utf8skip, read, length]
    rw [if_neg notZero]
    rcases sequence_cases below decoded with ⟨two, one, count, -⟩ | ⟨two, three, count, -⟩ |
      ⟨two, three, count, -⟩
    · rw [count] at stepped
      rw [if_neg one, if_pos two, count, stepped]
    · have one : ¬ first < 0xC0 := fun low => two (UInt8.lt_trans low (by decide))
      rw [count] at stepped
      rw [if_neg one, if_neg two, if_pos three, count, stepped]
    · have one : ¬ first < 0xC0 := fun low => two (UInt8.lt_trans low (by decide))
      rw [count] at stepped
      rw [if_neg one, if_neg two, if_neg three, if_pos below, count, stepped]

theorem skip_isTail {codes : List Nat} {code : Nat} (scalar : IsScalar code)
    (scalars : ∀ other ∈ codes, IsScalar other)
    (begins : string buffer place = Utf8.encode code ++ codes.flatMap Utf8.encode) :
    skip isTail buffer (place + 1) = place + (Utf8.encode code).length := by
  obtain ⟨lead, tail, bytes, -⟩ := Utf8.encode_lead scalar
  have tails := encode_tails code bytes
  rw [bytes] at begins ⊢
  -- The next character begins with a byte that continues nothing.
  have stops : (codes.flatMap Utf8.encode).takeWhile isTail = [] := by
    cases codes with
    | nil => rfl
    | cons next later =>
      obtain ⟨first, others, next_bytes, notTail⟩ := Utf8.encode_lead (scalars next mem_cons_self)
      rw [flatMap_cons, next_bytes, List.cons_append, takeWhile_cons_of_neg]
      rwa [isTail_iff]
  rw [skip_string (by decide), (string_cons begins).2.2]
  show _ + ((tail ++ codes.flatMap Utf8.encode).takeWhile isTail).length = _
  rw [takeWhile_append_of_pos tails, stops, append_nil, length_cons]
  omega

end Character

/-- The bytes of the first characters. -/
def firstBytes (codes : List Nat) (count : Nat) : List UInt8 := (codes.take count).flatMap Utf8.encode

section Copy

variable {buffer : List UInt8} {start : Nat} {codes : List Nat}

theorem firstBytes_succ {count : Nat} (inside : count < codes.length) :
    firstBytes codes (count + 1) = firstBytes codes count ++ Utf8.encode codes[count] := by
  rw [firstBytes, take_succ_eq_append_getElem inside, flatMap_append, firstBytes]
  simp

theorem string_firstBytes (valid : string buffer start = codes.flatMap Utf8.encode) (count : Nat) :
    string buffer (start + (firstBytes codes count).length) = (codes.drop count).flatMap Utf8.encode := by
  apply string_append
  rw [valid, firstBytes, ← flatMap_append, take_append_drop]

theorem firstBytes_lt {first second : Nat} (fewer : first < second) (inside : second ≤ codes.length) :
    (firstBytes codes first).length < (firstBytes codes second).length := by
  -- The induction is on how many more there are.
  induction second with
  | zero => cases fewer
  | succ second ih =>
    have one : 0 < (Utf8.encode codes[second]).length := by
      unfold Utf8.encode
      split_ifs
      all_goals exact succ_pos _
    rw [firstBytes_succ inside, length_append]
    rcases lt_or_eq_of_le (le_of_lt_succ fewer) with before | same
    · have less := ih before (le_of_lt inside)
      omega
    · rw [same]
      omega

/-- Where the loop over characters ends: as far as it goes, and it goes on before the limit. -/
structure Runs (codes : List Nat) (limit chars count : Nat) : Prop where
  listed : count ≤ codes.length
  allowed : count ≤ chars
  before : ∀ other < count, (firstBytes codes other).length < limit
  stops : count = chars ∨ count = codes.length ∨ limit ≤ (firstBytes codes count).length

theorem utf8cpyLoop_runs (scalars : ∀ code ∈ codes, IsScalar code)
    (valid : string buffer start = codes.flatMap Utf8.encode) (limit chars : Nat) :
    ∃ count, Runs codes limit chars count ∧
      utf8cpyLoop buffer start limit chars start = start + (firstBytes codes count).length := by
  -- From behind any characters on that were all before the limit.
  have onwards (chars done : Nat) (listed : done ≤ codes.length)
      (before : ∀ other < done, (firstBytes codes other).length < limit) :
      ∃ count, Runs codes limit (done + chars) count ∧
        utf8cpyLoop buffer start limit chars (start + (firstBytes codes done).length) =
          start + (firstBytes codes count).length := by
    induction chars generalizing done with
    | zero => exact ⟨done, ⟨listed, le_refl _, before, .inl rfl⟩, rfl⟩
    | succ chars ih =>
      rw [utf8cpyLoop, Nat.add_sub_cancel_left]
      have behind := string_firstBytes valid done
      split
      · rename_i goes
        rcases lt_or_eq_of_le listed with inside | last
        · have scalar := scalars codes[done] (getElem_mem inside)
          rw [drop_eq_getElem_cons inside, flatMap_cons] at behind
          have later : ∀ other ∈ codes.drop (done + 1), IsScalar other :=
            fun other member => scalars other (mem_of_mem_drop member)
          have next := skip_isTail scalar later behind
          have length : start + (firstBytes codes done).length + (Utf8.encode codes[done]).length =
                start + (firstBytes codes (done + 1)).length := by
            rw [firstBytes_succ inside, length_append, add_assoc]
          obtain ⟨count, runs, ends⟩ := ih (done + 1) inside fun other less =>
            (lt_or_eq_of_le (le_of_lt_succ less)).elim (before other) fun same =>
              same ▸ goes.1
          rw [next, length]
          exact ⟨count, add_right_comm done 1 chars ▸ runs, ends⟩
        · rw [last, List.drop_length] at behind
          rw [last] at goes
          exact absurd (string_nil behind) goes.2
      · rename_i ends
        refine ⟨done, ⟨listed, Nat.le_add_right .., before, .inr ?_⟩, rfl⟩
        rcases lt_or_eq_of_le listed with inside | last
        · refine .inr (not_lt.mp fun less => ends ⟨less, ?_⟩)
          rw [drop_eq_getElem_cons inside, flatMap_cons] at behind
          obtain ⟨lead, tail, bytes, -⟩ := Utf8.encode_lead (scalars _ (getElem_mem inside))
          rw [bytes] at behind
          obtain ⟨read, notZero, -⟩ := string_cons behind
          rwa [read]
        · exact .inl last
  have whole := onwards chars 0 (zero_le _) fun other less => absurd less (not_lt_zero _)
  rwa [zero_add] at whole

theorem utf8cpyBack_eq {base ahead : Nat} (behind : base ≤ ahead)
    (tails : ∀ place, base < place → place ≤ ahead → isTail (byteAt buffer (start + place)) = true)
    (lead : base = 0 ∨ isTail (byteAt buffer (start + base)) = false) :
    utf8cpyBack buffer start ahead = start + base := by
  induction ahead with
  | zero =>
    rw [le_zero.mp behind]
    rfl
  | succ ahead ih =>
    rw [utf8cpyBack]
    rcases lt_or_eq_of_le behind with before | same
    · rw [if_pos (tails _ before (le_refl _))]
      exact ih (le_of_lt_succ before) fun place above below =>
        tails place above (le_succ_of_le below)
    · rcases lead with first | notTail
      · omega
      · rw [← same, notTail]
        rfl

/-- So many characters are as many as there may be: no more than asked for, in so many bytes. -/
structure Longest (codes : List Nat) (room chars count : Nat) : Prop where
  listed : count ≤ codes.length
  allowed : count ≤ chars
  fits : (firstBytes codes count).length ≤ room
  most : ∀ other ≤ codes.length, other ≤ chars → (firstBytes codes other).length ≤ room → other ≤ count

theorem utf8cpy_longest (scalars : ∀ code ∈ codes, IsScalar code)
    (valid : string buffer start = codes.flatMap Utf8.encode) (s : List UInt8) {len : Nat}
    (room : 0 < len) (chars : Nat) :
    ∃ count, Longest codes (len - 1) chars count ∧ utf8cpy s len buffer start chars =
      (splice s 0 (firstBytes codes count ++ [0]), (firstBytes codes count).length) := by
  obtain ⟨count, ⟨listed, allowed, before, stops⟩, ends⟩ := utf8cpyLoop_runs scalars valid (len - 1) chars
  -- What is copied is the bytes of the characters up to a place where one begins.
  have copied (count : Nat) : slice buffer start (firstBytes codes count).length =
      firstBytes codes count := by
    apply slice_string
    rw [valid, firstBytes, ← flatMap_append, take_append_drop]
  by_cases fits : (firstBytes codes count).length ≤ len - 1
  · refine ⟨count, ⟨listed, allowed, fits, ?_⟩, ?_⟩
    · intro other inside few small
      by_contra more
      have longer := firstBytes_lt (Nat.lt_of_not_le more) inside
      omega
    · rw [utf8cpy, if_neg (by omega), ends]
      simp only [Nat.add_sub_cancel_left]
      rw [if_neg (by omega), Nat.add_sub_cancel_left, copied]
  · -- The last character does not fit: the limit lies behind its lead byte.
    cases count with
    | zero => exact absurd (zero_le _) fits
    | succ count =>
      have early := before count (lt_succ_self count)
      refine ⟨count, ⟨le_of_lt listed, le_of_lt allowed, le_of_lt early, ?_⟩, ?_⟩
      · intro other inside few small
        by_contra more
        rcases Nat.lt_or_eq_of_le (Nat.lt_of_not_le more) with beyond | same
        · have longer := firstBytes_lt (show count + 1 < other from beyond) inside
          omega
        · rw [← same] at small
          exact fits small
      · have back : utf8cpyBack buffer start (len - 1) =
            start + (firstBytes codes count).length := by
          have behind := string_firstBytes valid count
          rw [drop_eq_getElem_cons listed, flatMap_cons] at behind
          obtain ⟨lead, tail, bytes, notTail⟩ := Utf8.encode_lead (scalars codes[count] (getElem_mem listed))
          have width := firstBytes_succ listed
          rw [bytes] at behind width
          obtain ⟨read, -, others⟩ := string_cons behind
          apply utf8cpyBack_eq (le_of_lt early)
          · intro place above below
            have widths := congrArg List.length width
            rw [length_append, length_cons] at widths
            have inTail : place - (firstBytes codes count).length - 1 < tail.length := by omega
            have same : start + place = start + (firstBytes codes count).length + 1 +
                (place - (firstBytes codes count).length - 1) := by
              omega
            rw [same]
            exact encode_tails _ bytes _ (byteAt_string others inTail)
          · rw [read]
            exact .inr (Bool.eq_false_iff.mpr (mt (isTail_iff lead).mp notTail))
        rw [utf8cpy, if_neg (by omega), ends]
        simp only [Nat.add_sub_cancel_left]
        rw [if_pos (by omega), back, Nat.add_sub_cancel_left, copied]

end Copy

/-- The characters that so many calls of utf8_walk return, and where the string is then. -/
def walks (buffer : List UInt8) : Nat → Nat → List Nat × Nat
  | 0, place => ([], place)
  | calls + 1, place =>
    let (code, place) := utf8Walk buffer place
    let (codes, last) := walks buffer calls place
    (code :: codes, last)

theorem walks_eq {buffer : List UInt8} {codes : List Nat} (scalars : ∀ code ∈ codes, IsScalar code)
    {place : Nat} (valid : string buffer place = codes.flatMap Utf8.encode) {calls : Nat}
    (listed : calls ≤ codes.length) :
    walks buffer calls place = (codes.take calls, utf8skip buffer calls place) := by
  induction calls generalizing codes place with
  | zero =>
    rw [utf8skip]
    rfl
  | succ calls ih =>
    cases codes with
    | nil => cases listed
    | cons code codes =>
      rw [flatMap_cons] at valid
      have scalar := scalars code mem_cons_self
      rw [walks, utf8Walk_encode scalar valid, utf8skip_encode scalar valid]
      simp only
      rw [ih (fun other member => scalars other (mem_cons_of_mem _ member))
        (string_append valid) (le_of_succ_le_succ listed)]
      rfl

theorem lenBytes_encode {codes : List Nat} (scalars : ∀ code ∈ codes, IsScalar code) :
    lenBytes (codes.flatMap Utf8.encode) = codes.length := by
  have none (tail rest : List UInt8) (tails : ∀ byte ∈ tail, isTail byte = true) :
      lenBytes (tail ++ rest) = lenBytes rest := by
    induction tail with
    | nil => rfl
    | cons byte tail ih =>
      rw [List.cons_append, lenBytes, if_pos (tails byte mem_cons_self), zero_add]
      exact ih fun other member => tails other (mem_cons_of_mem _ member)
  induction codes with
  | nil => rfl
  | cons code codes ih =>
    obtain ⟨lead, tail, bytes, notTail⟩ := Utf8.encode_lead (scalars code mem_cons_self)
    rw [← isTail_iff] at notTail
    rw [flatMap_cons, bytes, List.cons_append, lenBytes, if_neg notTail, none tail _ (encode_tails code bytes),
      ih fun other member => scalars other (mem_cons_of_mem _ member), length_cons,
      add_comm]

theorem lenBytes_countP (p : List UInt8) : lenBytes p = p.countP fun byte => !isTail byte := by
  induction p with
  | nil => rfl
  | cons byte p ih =>
    rw [lenBytes, countP_cons, ih, add_comm]
    cases isTail byte <;> rfl

/-- Length, skip, walk and copy take the same characters, and the count needs no alignment. -/
theorem utf8_walks_agree :
    (∀ (buffer : List UInt8) (place : Nat) (codes : List Nat), (∀ code ∈ codes, IsScalar code) →
      string buffer place = codes.flatMap Utf8.encode →
      (∀ address, utf8len buffer place address = codes.length) ∧ (∀ calls ≤ codes.length,
          walks buffer calls place = (codes.take calls, utf8skip buffer calls place)) ∧
        ∀ (s : List UInt8) (len chars : Nat), 0 < len →
          ∃ count, Longest codes (len - 1) chars count ∧ utf8cpy s len buffer place chars =
            (splice s 0 (firstBytes codes count ++ [0]), (firstBytes codes count).length)) ∧
      ∀ (buffer : List UInt8) (place address : Nat), utf8len buffer place address =
        (string buffer place).countP fun byte => !isTail byte := by
  constructor
  · intro buffer place codes scalars valid
    refine ⟨fun address => ?_, fun calls listed => walks_eq scalars valid listed,
      fun s len chars room => utf8cpy_longest scalars valid s room chars⟩
    rw [utf8len, lenAligned_eq, valid, lenBytes_encode scalars]
  · intro buffer place address
    rw [utf8len, lenAligned_eq, lenBytes_countP]

/-- Three characters of one, two and three bytes: two of them fit in five bytes. -/
theorem utf8_walks_agree_mixed : utf8len [0x41, 0xC3, 0xA9, 0xE2, 0x82, 0xAC, 0] 0 3 = 3 ∧
      walks [0x41, 0xC3, 0xA9, 0xE2, 0x82, 0xAC, 0] 2 0 =
        ([0x41, 0xE9], utf8skip [0x41, 0xC3, 0xA9, 0xE2, 0x82, 0xAC, 0] 2 0) ∧
      ∃ count, Longest [0x41, 0xE9, 0x20AC] 4 3 count ∧
        utf8cpy [1, 1, 1, 1, 1] 5 [0x41, 0xC3, 0xA9, 0xE2, 0x82, 0xAC, 0] 0 3 =
          (splice [1, 1, 1, 1, 1] 0 (firstBytes [0x41, 0xE9, 0x20AC] count ++ [0]),
            (firstBytes [0x41, 0xE9, 0x20AC] count).length) := by
  obtain ⟨length, walked, copied⟩ := utf8_walks_agree.1 [0x41, 0xC3, 0xA9, 0xE2, 0x82, 0xAC, 0] 0
    [0x41, 0xE9, 0x20AC] (by decide) (by decide)
  exact ⟨length 3, walked 2 (by decide), copied _ 5 3 (by decide)⟩

end Libretro.Utf
