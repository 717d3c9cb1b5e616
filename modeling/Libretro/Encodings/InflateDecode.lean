import Libretro.Encodings.InflateTables

/-! The bit buffer and the unread bytes as one bit string, and symbols read from it. -/

namespace Libretro.Inflate

open BitString Nat CanonicalCode
open List hiding append_assoc count

/-- The buffered bits. -/
def Bits.buffered (bits : Bits) : BitString :=
  ⟨bits.bitbuf % 2 ^ bits.bitcnt, bits.bitcnt, Nat.mod_lt _ (Nat.two_pow_pos _)⟩

/-- The bits that are left to read, those of the buffer first. -/
def Bits.stream (bits : Bits) : BitString := bits.buffered ++ ofBytes bits.unread

/-- Bits at or above the count are zero. -/
def Bits.Valid (bits : Bits) : Prop := bits.bitbuf < 2 ^ bits.bitcnt

@[simp] theorem buffered_length (bits : Bits) : bits.buffered.length = bits.bitcnt := rfl

variable {bits : Bits}

theorem buffered_value (valid : bits.Valid) : bits.buffered.value = bits.bitbuf := mod_eq_of_lt valid

@[simp] theorem stream_length (bits : Bits) : bits.stream.length = bits.bitcnt + 8 * bits.unread.length := by
  rw [Bits.stream, append_length, ofBytes_length, buffered_length]

theorem stream_value (valid : bits.Valid) :
    bits.stream.value = bits.bitbuf + (ofBytes bits.unread).value * 2 ^ bits.bitcnt := by
  rw [Bits.stream, append_value, buffered_value valid, buffered_length]

theorem push_stream (valid : bits.Valid) {byte : UInt8} {rest : List UInt8}
    (unread : bits.unread = byte :: rest) (place : Nat) :
    let pushed : Bits :=
      { bitbuf := bits.bitbuf ||| byte.toNat <<< bits.bitcnt
        bitcnt := bits.bitcnt + 8, inPos := place, unread := rest }
    pushed.Valid ∧ pushed.stream = bits.stream := by
  intro pushed
  have sum : pushed.bitbuf = bits.bitbuf + byte.toNat * 2 ^ bits.bitcnt := by
    show bits.bitbuf ||| byte.toNat <<< bits.bitcnt = _
    rw [Nat.or_comm, ← Nat.shiftLeft_add_eq_or_of_lt valid, Nat.shiftLeft_eq, Nat.add_comm]
  have bound : pushed.Valid := by
    have small := byte.toNat_lt
    rw [Bits.Valid, sum]
    show bits.bitbuf + byte.toNat * 2 ^ bits.bitcnt < 2 ^ (bits.bitcnt + 8)
    calc bits.bitbuf + byte.toNat * 2 ^ bits.bitcnt
        < 2 ^ bits.bitcnt + byte.toNat * 2 ^ bits.bitcnt := Nat.add_lt_add_right valid _
      _ = (byte.toNat + 1) * 2 ^ bits.bitcnt := by ring
      _ ≤ 2 ^ 8 * 2 ^ bits.bitcnt := mul_le_mul_right _ small
      _ = 2 ^ (bits.bitcnt + 8) := by rw [← Nat.pow_add, Nat.add_comm]
  refine ⟨bound, ?_⟩
  ext
  · rw [stream_value bound, stream_value valid, sum, unread]
    simp only [ofBytes_cons, append_value, ofByte_value, ofByte_length, pushed]
    rw [Nat.pow_add]
    ring
  · simp only [stream_length, unread, length_cons, pushed]
    omega

theorem fill_spec (limit : Nat) (bytes : List UInt8) : ∀ bits : Bits, bits.unread = bytes →
    bits.Valid → (fill limit bytes bits).Valid ∧ (fill limit bytes bits).stream = bits.stream ∧
      (limit ≤ (fill limit bytes bits).bitcnt ∨ (fill limit bytes bits).unread = []) ∧
      bits.bitcnt ≤ (fill limit bytes bits).bitcnt := by
  induction bytes with
  | nil => exact fun bits unread valid => ⟨valid, rfl, .inr unread, le_refl _⟩
  | cons byte rest ih =>
    intro bits unread valid
    rw [fill]
    by_cases more : bits.bitcnt < limit
    · rw [if_pos more]
      obtain ⟨pushed, same⟩ := push_stream valid unread (bits.inPos + 1)
      obtain ⟨filled, stream, stop, grows⟩ := ih _ rfl pushed
      exact ⟨filled, stream.trans same, stop, by simp only at grows; omega⟩
    · rw [if_neg more]
      exact ⟨valid, rfl, .inl (not_lt.mp more), le_refl _⟩

theorem shift_stream (valid : bits.Valid) {n : Nat} (inside : n ≤ bits.bitcnt) :
    (bits.shift n).Valid ∧ (bits.shift n).stream = bits.stream.drop n := by
  have bound : (bits.shift n).Valid := by
    show bits.bitbuf >>> n < 2 ^ (bits.bitcnt - n)
    rw [Nat.shiftRight_eq_div_pow, Nat.div_lt_iff_lt_mul (Nat.two_pow_pos n), ← Nat.pow_add,
      Nat.sub_add_cancel inside]
    exact valid
  refine ⟨bound, ?_⟩
  rw [Bits.stream, Bits.stream, drop_append inside]
  congr 1
  ext
  · rw [buffered_value bound, drop_value, buffered_value valid]
    exact Nat.shiftRight_eq_div_pow _ _
  · rfl

theorem shift_shift (bits : Bits) (n m : Nat) : (bits.shift n).shift m = bits.shift (n + m) := by
  simp only [Bits.shift, Nat.shiftRight_add, Nat.sub_sub]

theorem peek_eq (valid : bits.Valid) {n : Nat}
    (there : n ≤ bits.bitcnt ∨ bits.unread = []) : bits.peek n = bits.stream.low n := by
  rw [Bits.peek, one_shiftLeft, and_two_pow_sub_one_eq_mod, low]
  rcases there with inside | exhausted
  · have front := @low_append n bits.buffered inside (ofBytes bits.unread)
    rw [low, low, buffered_value valid] at front
    exact front.symm
  · rw [stream_value valid, exhausted, ofBytes_nil, empty_value, zero_mul, add_zero]

theorem rinfNeed_spec (n : Nat) (valid : bits.Valid) :
    (rinfNeed n bits).2.Valid ∧ (rinfNeed n bits).2.stream = bits.stream ∧
      ((rinfNeed n bits).1 = true → n ≤ (rinfNeed n bits).2.bitcnt) ∧
      ((rinfNeed n bits).1 = false → bits.stream.length < n ∧ (rinfNeed n bits).2.unread = []) := by
  obtain ⟨filled, same, stop, _⟩ := fill_spec n bits.unread bits rfl valid
  refine ⟨filled, same, ?_, ?_⟩
  · intro enough
    exact of_decide_eq_true enough
  · intro few
    have short := of_decide_eq_false few
    have exhausted := stop.resolve_left short
    rw [← same, stream_length, exhausted, length_nil]
    exact ⟨by omega, exhausted⟩

theorem align_stream (valid : bits.Valid) :
    bits.align.Valid ∧ bits.align.stream = bits.stream.drop (bits.stream.length % 8) := by
  have low : bits.bitcnt &&& 7 = bits.bitcnt % 8 := and_two_pow_sub_one_eq_mod bits.bitcnt 3
  have same : bits.stream.length % 8 = bits.bitcnt % 8 := by rw [stream_length, add_mul_mod_self_left]
  rw [Bits.align, low, same]
  exact shift_stream valid (mod_le _ _)

variable {lengths : List Nat}

theorem decodeSlow_spec {h : Huff} (built : Built h lengths) (n : Nat) :
    ∀ (len rev : Nat) (bits : Bits), len + n = 16 → 1 ≤ len → bits.Valid →
      rev = reversed bits.stream.value (len - 1) →
      first lengths (len - 1) + count lengths (len - 1) ≤ rev →
      (decodeSlow h n len rev bits).2.Valid ∧ match (decodeSlow h n len rev bits).1 with
        | .sym sym => readFrom lengths n len bits.stream =
            .read sym (decodeSlow h n len rev bits).2.stream
        | .short => readFrom lengths n len bits.stream = .short ∧
            (decodeSlow h n len rev bits).2.stream = bits.stream ∧
            (decodeSlow h n len rev bits).2.unread = []
        | .invalid => readFrom lengths n len bits.stream = .wrong ∧
            (decodeSlow h n len rev bits).2.stream = bits.stream := by
  -- What has been read lies behind the codes of every length tried so far.
  induction n with
  | zero => exact fun len rev bits _ _ valid _ _ => ⟨valid, rfl, rfl⟩
  | succ n ih =>
    intro len rev bits total positive valid read behind
    obtain ⟨filled, same, found, missed⟩ := rinfNeed_spec len valid
    rw [decodeSlow]
    simp only [readFrom]
    cases enough : (rinfNeed len bits).1 with
    | false =>
      obtain ⟨short, exhausted⟩ := missed enough
      simp only [Bool.false_eq_true, if_false, if_pos short]
      exact ⟨filled, trivial, same, exhausted⟩
    | true =>
      have inside := found enough
      have long : ¬bits.stream.length < len := by
        rw [← same, stream_length]
        omega
      simp only [if_true, if_neg long]
      generalize (rinfNeed len bits).2 = after at filled same inside
      obtain ⟨before, rfl⟩ : ∃ before, len = before + 1 := ⟨len - 1, by omega⟩
      rw [Nat.add_sub_cancel] at read behind
      -- The next bit of the buffer is the next bit of the stream.
      have bit : after.bitbuf >>> before &&& 1 = bits.stream.value / 2 ^ before % 2 := by
        have low := peek_eq filled (.inl inside)
        rw [Bits.peek, one_shiftLeft, and_two_pow_sub_one_eq_mod, same, BitString.low, pow_succ] at low
        rw [and_one_is_mod, Nat.shiftRight_eq_div_pow, ← mod_mul_right_div_self, low, mod_mul_right_div_self]
      have next : rev <<< 1 ||| after.bitbuf >>> before &&& 1 = reversed bits.stream.value (before + 1) := by
        have one : bits.stream.value / 2 ^ before % 2 < 2 ^ 1 := mod_lt _ (by decide)
        rw [bit, ← Nat.shiftLeft_add_eq_or_of_lt one, Nat.shiftLeft_eq, read, reversed]
        omega
      simp only [Nat.add_sub_cancel, next]
      have least : first lengths (before + 1) ≤ reversed bits.stream.value (before + 1) := by
        rw [first, reversed, ← read]
        omega
      have most : before + 1 ≤ rinfMaxBits := by
        show before + 1 ≤ 15
        omega
      rw [built.maxcode _ positive most]
      by_cases early : reversed bits.stream.value (before + 1) <
          first lengths (before + 1) + count lengths (before + 1)
      · obtain ⟨sym, symbol⟩ := symbol_within positive least early
        obtain ⟨listed, length, codes⟩ := symbol_some symbol
        have coded : CanonicalCode.Coded lengths sym := ⟨listed, by omega⟩
        have value := built.value sym coded
        obtain ⟨shifted, dropped⟩ := shift_stream filled inside
        rw [length] at value
        rw [if_pos early, symbol, built.firstcode _ positive most]
        have rank : reversed bits.stream.value (before + 1) -
            first lengths (before + 1) = rank lengths sym := by
          rw [← codes, code, length]
          omega
        simp only [rank, value, dropped, same]
        exact ⟨shifted, trivial⟩
      · rw [if_neg early, symbol_behind positive (not_lt.mp early)]
        have rest := ih (before + 1 + 1) (reversed bits.stream.value (before + 1)) after (by omega)
          (by omega) filled (by rw [same, Nat.add_sub_cancel]) (by
            rw [Nat.add_sub_cancel]
            exact not_lt.mp early)
        rw [same] at rest
        exact rest

/-- An entry of the fast table is a symbol whose code the stream begins with. -/
theorem fast_spec {h : Huff} (built : Built h lengths)
    (valid : bits.Valid) (there : rinfFastBits ≤ bits.bitcnt ∨ bits.unread = [])
    (some : h.fast (bits.peek rinfFastBits) ≠ 0) :
    ∃ sym len, 1 ≤ len ∧ len ≤ rinfFastBits ∧ h.fast (bits.peek rinfFastBits) = sym <<< 4 ||| len ∧
      read lengths rinfMaxBits bits.stream =
        if bits.stream.length < len then .short else .read sym (bits.stream.drop len) := by
  obtain ⟨sym, coded, short, found⟩ := built.fastOnly _ some
  have entry := built.fast sym coded short _ found
  -- The index holds as many of the stream's bits as the code is long.
  rw [peek_eq valid there, BitString.low, reversed_mod _ short] at found
  have most : lengths.getD sym 0 < 1 + rinfMaxBits := by
    show lengths.getD sym 0 < 1 + 15
    have bound : lengths.getD sym 0 ≤ 11 := short
    omega
  exact ⟨sym, lengths.getD sym 0, coded.positive, short, entry,
    readFrom_code coded found _ 1 (le_refl 1) coded.positive most⟩

/-- Decoding a symbol reads it as the format does, and takes exactly its code. -/
theorem rinfDecode_spec {h : Huff} (built : Built h lengths) (valid : bits.Valid) :
    (rinfDecode h bits).2.Valid ∧ match (rinfDecode h bits).1 with
      | .sym sym => read lengths rinfMaxBits bits.stream =
          .read sym (rinfDecode h bits).2.stream
      | .short => read lengths rinfMaxBits bits.stream = .short ∧
          (rinfDecode h bits).2.stream = bits.stream ∧ (rinfDecode h bits).2.unread = []
      | .invalid => read lengths rinfMaxBits bits.stream = .wrong ∧
          (rinfDecode h bits).2.stream = bits.stream := by
  obtain ⟨filled, same, stop, _⟩ := fill_spec 57 bits.unread bits rfl valid
  rw [rinfDecode]
  generalize fill 57 bits.unread bits = after at filled same stop
  rw [← same]
  by_cases none : h.fast (after.peek rinfFastBits) = 0
  · simp only [none, ne_eq, not_true_eq_false, if_false]
    exact decodeSlow_spec built 15 1 0 after rfl (le_refl 1) filled rfl (zero_le _)
  · have there : rinfFastBits ≤ after.bitcnt ∨ after.unread = [] := by
      rcases stop with full | exhausted
      · left
        show 11 ≤ after.bitcnt
        omega
      · exact .inr exhausted
    obtain ⟨sym, len, positive, short, entry, read⟩ := fast_spec built filled there none
    obtain ⟨high, low⟩ := fastEntry_fields sym (short : len ≤ 11)
    simp only [entry, ne_eq, fastEntry_ne_zero positive short, not_false_eq_true, if_true, high, low, read]
    by_cases enough : len ≤ after.bitcnt
    · obtain ⟨shifted, dropped⟩ := shift_stream filled enough
      have long : ¬after.stream.length < len := by
        rw [stream_length]
        omega
      simp only [if_pos enough, if_neg long, dropped]
      exact ⟨shifted, trivial⟩
    · -- A code that is not whole is the last of the input.
      have exhausted : after.unread = [] := by
        apply stop.resolve_left
        have bound : len ≤ 11 := short
        omega
      have few : after.stream.length < len := by
        rw [stream_length, exhausted, length_nil]
        omega
      simp only [if_neg enough, if_pos few]
      exact ⟨filled, trivial, trivial, exhausted⟩

theorem littleEndian_eq (bytes : List UInt8) : littleEndian bytes = (ofBytes bytes).value := by
  induction bytes with
  | nil => rfl
  | cons byte rest ih =>
    have small : byte.toNat < 2 ^ 8 := byte.toNat_lt
    rw [littleEndian, Nat.or_comm, ← Nat.shiftLeft_add_eq_or_of_lt small, Nat.shiftLeft_eq, ih,
      ofBytes_cons, append_value, ofByte_value, ofByte_length, Nat.add_comm]

theorem ofBytes_take (bytes : List UInt8) {n : Nat} (inside : n ≤ bytes.length) :
    (ofBytes bytes).value % 2 ^ (8 * n) = (ofBytes (bytes.take n)).value := by
  have split := congrArg ofBytes (take_append_drop n bytes)
  rw [ofBytes_append] at split
  have length : (ofBytes (bytes.take n)).length = 8 * n := by
    rw [ofBytes_length, length_take, min_eq_left inside]
  have front := low_append (le_refl (ofBytes (bytes.take n)).length) (ofBytes (bytes.drop n))
  rw [split, low, low, length] at front
  rw [front]
  have bound := (ofBytes (bytes.take n)).bounded
  rw [length] at bound
  exact mod_eq_of_lt bound

/-- The refill moves whole bytes into the buffer and leaves the stream. -/
theorem fastRefill_spec (valid : bits.Valid) (more : 8 ≤ bits.unread.length) :
    (fastRefill bits).Valid ∧ (fastRefill bits).stream = bits.stream := by
  generalize count : (63 - bits.bitcnt) >>> 3 = nb
  have few : nb ≤ 7 := by
    rw [← count, Nat.shiftRight_eq_div_pow]
    omega
  have inside : nb ≤ bits.unread.length := by omega
  -- The masked load is the number of the bytes that are moved.
  have loaded : littleEndian (bits.unread.take 8) &&& (1 <<< (8 * nb)) - 1 =
      (ofBytes (bits.unread.take nb)).value := by
    have within : nb ≤ (bits.unread.take 8).length := by
      rw [length_take]
      omega
    rw [one_shiftLeft, and_two_pow_sub_one_eq_mod, littleEndian_eq,
      ofBytes_take _ within, take_take, min_eq_left (by omega)]
  have length : (ofBytes (bits.unread.take nb)).length = 8 * nb := by
    rw [ofBytes_length, length_take, min_eq_left inside]
  have joined : (bits.buffered ++ ofBytes (bits.unread.take nb)).value =
      bits.bitbuf ||| (ofBytes (bits.unread.take nb)).value <<< bits.bitcnt := by
    rw [append_value, buffered_value valid, buffered_length, Nat.or_comm,
      ← Nat.shiftLeft_add_eq_or_of_lt valid, Nat.shiftLeft_eq, Nat.add_comm]
  have bound := (bits.buffered ++ ofBytes (bits.unread.take nb)).bounded
  rw [joined, append_length, buffered_length, length] at bound
  have refilled : fastRefill bits =
      { bitbuf := bits.bitbuf ||| (ofBytes (bits.unread.take nb)).value <<< bits.bitcnt
        bitcnt := bits.bitcnt + 8 * nb
        inPos := bits.inPos + nb
        unread := bits.unread.drop nb } := by
    rw [fastRefill]
    simp only [count, loaded, mul_comm nb]
  rw [refilled]
  refine ⟨bound, ?_⟩
  have buffer : Bits.buffered
      { bitbuf := bits.bitbuf ||| (ofBytes (bits.unread.take nb)).value <<< bits.bitcnt
        bitcnt := bits.bitcnt + 8 * nb
        inPos := bits.inPos + nb
        unread := bits.unread.drop nb } = bits.buffered ++ ofBytes (bits.unread.take nb) := by
    ext
    · exact (mod_eq_of_lt bound).trans joined.symm
    · rw [append_length, buffered_length, buffered_length, length]
  rw [Bits.stream, Bits.stream, buffer, append_assoc, ← ofBytes_append, take_append_drop]

end Libretro.Inflate
