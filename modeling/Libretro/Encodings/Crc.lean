import Libretro.Encodings.CrcTables
import Libretro.Library.ShiftRegister

/-! The table CRCs and carry-less folding, whichever bit is first, and the bit-serial division. -/

namespace Libretro.Crc

/-- The entry of a slicing table: which slice, and the index in it. -/
def lookup (w : Nat) (table : List (List Nat)) (slice : Nat) {n : Nat} (index : BitVec n) : BitVec w :=
  .ofNat w ((table.getD slice []).getD index.toNat 0)

/-- A little-endian word of 32 bits. -/
def crc32LoadLe32 (d0 d1 d2 d3 : UInt8) : BitVec 32 :=
  d3.toBitVec ++ d2.toBitVec ++ d1.toBitVec ++ d0.toBitVec

/-- Eight bytes of crc32_slice_by_8. -/
def crc32Eight (crc : BitVec 32) (d0 d1 d2 d3 d4 d5 d6 d7 : UInt8) : BitVec 32 :=
  let lo := crc32LoadLe32 d0 d1 d2 d3 ^^^ crc
  let hi := crc32LoadLe32 d4 d5 d6 d7
  lookup 32 crc32Slice8 7 (lo &&& 0xFF) ^^^ lookup 32 crc32Slice8 6 (lo >>> 8 &&& 0xFF) ^^^
    lookup 32 crc32Slice8 5 (lo >>> 16 &&& 0xFF) ^^^ lookup 32 crc32Slice8 4 (lo >>> 24 &&& 0xFF) ^^^
    lookup 32 crc32Slice8 3 (hi &&& 0xFF) ^^^ lookup 32 crc32Slice8 2 (hi >>> 8 &&& 0xFF) ^^^
    lookup 32 crc32Slice8 1 (hi >>> 16 &&& 0xFF) ^^^ lookup 32 crc32Slice8 0 (hi >>> 24 &&& 0xFF)

/-- One byte of crc32_slice_by_8. -/
def crc32One (crc : BitVec 32) (d : UInt8) : BitVec 32 :=
  lookup 32 crc32Slice8 0 ((crc ^^^ d.toBitVec.setWidth 32) &&& 0xFF) ^^^ crc >>> 8

/-- The reflected CRC-32 of a string, from a register on. -/
def crc32SliceBy8 (crc : BitVec 32) : List UInt8 → BitVec 32
  | d0 :: d1 :: d2 :: d3 :: d4 :: d5 :: d6 :: d7 :: data =>
    crc32SliceBy8 (crc32Eight crc d0 d1 d2 d3 d4 d5 d6 d7) data
  | data => data.foldl crc32One crc

/-- Eight bytes of crc16_ccitt_table. -/
def crc16CcittEight (crc : BitVec 16) (d0 d1 d2 d3 d4 d5 d6 d7 : UInt8) : BitVec 16 :=
  lookup 16 crc16CcittSlice8 7 ((d0.toBitVec.setWidth 16 ^^^ crc >>> 8).setWidth 8) ^^^
    lookup 16 crc16CcittSlice8 6 ((d1.toBitVec.setWidth 16 ^^^ crc).setWidth 8) ^^^
    lookup 16 crc16CcittSlice8 5 d2.toBitVec ^^^ lookup 16 crc16CcittSlice8 4 d3.toBitVec ^^^
    lookup 16 crc16CcittSlice8 3 d4.toBitVec ^^^ lookup 16 crc16CcittSlice8 2 d5.toBitVec ^^^
    lookup 16 crc16CcittSlice8 1 d6.toBitVec ^^^ lookup 16 crc16CcittSlice8 0 d7.toBitVec

/-- One byte of crc16_ccitt_table. -/
def crc16CcittOne (crc : BitVec 16) (d : UInt8) : BitVec 16 :=
  crc <<< 8 ^^^ lookup 16 crc16CcittSlice8 0 ((crc >>> 8 ^^^ d.toBitVec.setWidth 16).setWidth 8)

/-- The loops of crc16_ccitt_table over the register of 16 bits. -/
def crc16CcittLoop (crc : BitVec 16) : List UInt8 → BitVec 16
  | d0 :: d1 :: d2 :: d3 :: d4 :: d5 :: d6 :: d7 :: data =>
    crc16CcittLoop (crc16CcittEight crc d0 d1 d2 d3 d4 d5 d6 d7) data
  | data => data.foldl crc16CcittOne crc

/-- The CRC-16/CCITT of a string; the seed's upper half is dropped. -/
def crc16CcittTable (seed : BitVec 32) (data : List UInt8) : BitVec 32 :=
  (crc16CcittLoop (seed.setWidth 16) data).setWidth 32

/-- Eight bytes of crc32_ogg_table. -/
def crc32OggEight (crc : BitVec 32) (d0 d1 d2 d3 d4 d5 d6 d7 : UInt8) : BitVec 32 :=
  let crc := crc ^^^ (d0.toBitVec.setWidth 32 <<< 24 ||| d1.toBitVec.setWidth 32 <<< 16 |||
    d2.toBitVec.setWidth 32 <<< 8 ||| d3.toBitVec.setWidth 32)
  lookup 32 crc32OggSlice8 7 (crc >>> 24 &&& 0xFF) ^^^ lookup 32 crc32OggSlice8 6 (crc >>> 16 &&& 0xFF) ^^^
    lookup 32 crc32OggSlice8 5 (crc >>> 8 &&& 0xFF) ^^^ lookup 32 crc32OggSlice8 4 (crc &&& 0xFF) ^^^
    lookup 32 crc32OggSlice8 3 d4.toBitVec ^^^ lookup 32 crc32OggSlice8 2 d5.toBitVec ^^^
    lookup 32 crc32OggSlice8 1 d6.toBitVec ^^^ lookup 32 crc32OggSlice8 0 d7.toBitVec

/-- One byte of crc32_ogg_table. -/
def crc32OggOne (crc : BitVec 32) (d : UInt8) : BitVec 32 :=
  crc <<< 8 ^^^ lookup 32 crc32OggSlice8 0 ((crc >>> 24).setWidth 8 ^^^ d.toBitVec)

/-- The Ogg CRC-32 of a string, from a register on. -/
def crc32OggTable (crc : BitVec 32) : List UInt8 → BitVec 32
  | d0 :: d1 :: d2 :: d3 :: d4 :: d5 :: d6 :: d7 :: data =>
    crc32OggTable (crc32OggEight crc d0 d1 d2 d3 d4 d5 d6 d7) data
  | data => data.foldl crc32OggOne crc

/-- The CRC-16/CCITT a caller gets where the table is used. -/
def encodingCrc16Ccitt (crc : BitVec 16) (data : List UInt8) : BitVec 16 :=
  (crc16CcittTable (crc.setWidth 32) data).setWidth 16

/-- The Ogg CRC-32 a caller gets where the table is used. -/
def encodingCrc32Ogg (crc : BitVec 32) (data : List UInt8) : BitVec 32 := crc32OggTable crc data

/-- The CRC-32 a caller gets where the tables are used. -/
def encodingCrc32 (crc : BitVec 32) (data : List UInt8) : BitVec 32 := ~~~(crc32SliceBy8 (~~~crc) data)

open ShiftRegister Function
open BitVec hiding not_not xor_comm

/-- _mm_set_epi32: a register from its four words, the highest first. -/
def mmSetEpi32 (e3 e2 e1 e0 : BitVec 32) : BitVec 128 := e3 ++ e2 ++ e1 ++ e0

/-- _mm_loadu_si128: sixteen bytes, the first the lowest. -/
def mmLoadu (data : List UInt8) : BitVec 128 :=
  (data.take 16).foldr (fun byte x => x <<< 8 ||| byte.toBitVec.setWidth 128) 0

/-- A byte of a register. -/
def byteAt (x : BitVec 128) (place : Nat) : BitVec 8 := (x >>> (8 * place)).setWidth 8

/-- _mm_storeu_si128: the sixteen bytes of a register, the lowest first. -/
def mmStoreu (x : BitVec 128) : List UInt8 := (List.range 16).map fun place => .ofBitVec (byteAt x place)

/-- _mm_shuffle_epi8: each byte is the one that its control byte names, or none. -/
def mmShuffleEpi8 (x control : BitVec 128) : BitVec 128 :=
  mmLoadu ((List.range 16).map fun place =>
    if (byteAt control place).getLsbD 7 then 0
    else .ofBitVec (byteAt x (byteAt control place &&& 0xF).toNat))

/-- The low half of a register. -/
def lowHalf (x : BitVec 128) : BitVec 64 := x.setWidth 64

/-- The high half of a register. -/
def highHalf (x : BitVec 128) : BitVec 64 := (x >>> 64).setWidth 64

/-- _mm_clmulepi64_si128: the carry-less product of a half of each register. -/
def mmClmulepi64 (x y : BitVec 128) (control : BitVec 8) : BitVec 128 :=
  clmul (if control.getLsbD 0 then highHalf x else lowHalf x)
    (if control.getLsbD 4 then highHalf y else lowHalf y)

/-- Four accumulators. -/
structure Chains where
  x0 : BitVec 128
  x1 : BitVec 128
  x2 : BitVec 128
  x3 : BitVec 128

/-- The constants that move four accumulators on. -/
def k1k2 : BitVec 128 := mmSetEpi32 0x00000001 0xC6E41596 0x00000001 0x54442BD4

/-- The constants that move one accumulator on. -/
def k3k4 : BitVec 128 := mmSetEpi32 0x00000000 0xCCAA009E 0x00000001 0x751997D0

/-- The constant that takes 96 bits to 64. -/
def k5 : BitVec 128 := mmSetEpi32 0 0 0x00000001 0x63CD6124

/-- The quotient and the polynomial of the last reduction. -/
def mupp : BitVec 128 := mmSetEpi32 0x00000001 0xDB710641 0x00000001 0xF7011641

/-- The low 32 bits of a register. -/
def mask32 : BitVec 128 := mmSetEpi32 0 0 0 0xFFFFFFFF

/-- One accumulator moved on by the distance of its constants. -/
def crc32Fold16 (x k : BitVec 128) : BitVec 128 := mmClmulepi64 x k 0x00 ^^^ mmClmulepi64 x k 0x11

/-- The first 64 bytes, with the register in the first of them. -/
def crc32Start (crc : BitVec 32) (data : List UInt8) : Chains where
  x0 := mmLoadu data ^^^ crc.setWidth 128
  x1 := mmLoadu (data.drop 16)
  x2 := mmLoadu (data.drop 32)
  x3 := mmLoadu (data.drop 48)

/-- Four accumulators moved on, with the next 64 bytes. -/
def Chains.crc32Fold (chains : Chains) (data : List UInt8) : Chains where
  x0 := crc32Fold16 chains.x0 k1k2 ^^^ mmLoadu data
  x1 := crc32Fold16 chains.x1 k1k2 ^^^ mmLoadu (data.drop 16)
  x2 := crc32Fold16 chains.x2 k1k2 ^^^ mmLoadu (data.drop 32)
  x3 := crc32Fold16 chains.x3 k1k2 ^^^ mmLoadu (data.drop 48)

/-- The loop over 64 bytes at a time, so many turns of it. -/
def crc32Chains : Nat → Chains → List UInt8 → Chains × List UInt8
  | 0, chains, data => (chains, data)
  | turns + 1, chains, data => crc32Chains turns (chains.crc32Fold data) (data.drop 64)

/-- The loop over 16 bytes at a time, so many turns of it. -/
def crc32TailLoop : Nat → BitVec 128 → List UInt8 → BitVec 128 × List UInt8
  | 0, x0, data => (x0, data)
  | turns + 1, x0, data => crc32TailLoop turns (crc32Fold16 x0 k3k4 ^^^ mmLoadu data) (data.drop 16)

/-- One accumulator reduced to the register: 128 bits to 64, to 32, and the last remainder. -/
def crc32Reduce (x0 : BitVec 128) : BitVec 32 :=
  let x0 := x0 >>> 64 ^^^ mmClmulepi64 x0 k3k4 0x10
  let x0 := x0 >>> 32 ^^^ mmClmulepi64 (x0 &&& mask32) k5 0x00
  let t := mmClmulepi64 (x0 &&& mask32) mupp 0x00
  let t := mmClmulepi64 (t &&& mask32) mupp 0x10
  ((x0 ^^^ t) >>> 32).setWidth 32

/-- One accumulator and what is left after it. -/
def crc32PclmulTail (x0 : BitVec 128) (data : List UInt8) : BitVec 32 :=
  let (x0, data) := crc32TailLoop (data.length / 16) x0 data
  let crc := crc32Reduce x0
  if data.length ≠ 0 then crc32SliceBy8 crc data else crc

/-- The reflected CRC-32 of a string by folding, from a register on. -/
def crc32Pclmul (crc : BitVec 32) (data : List UInt8) : BitVec 32 :=
  if data.length < 64 then crc32SliceBy8 crc data
  else
    let (chains, data) := crc32Chains ((data.length - 64) / 64) (crc32Start crc data) (data.drop 64)
    let x1 := crc32Fold16 chains.x0 k3k4 ^^^ chains.x1
    let x2 := crc32Fold16 x1 k3k4 ^^^ chains.x2
    let x0 := crc32Fold16 x2 k3k4 ^^^ chains.x3
    crc32PclmulTail x0 data

/-- What the folding needs to know of a CRC. -/
structure CrcMsb where
  k576 : BitVec 32
  k512 : BitVec 32
  k192 : BitVec 32
  k128 : BitVec 32
  width : Nat
  table : BitVec 32 → List UInt8 → BitVec 32

/-- The Ogg CRC-32. -/
def crcMsbOgg : CrcMsb where
  k576 := 0x8833794C
  k512 := 0xE6228B11
  k192 := 0xC5B9CD4C
  k128 := 0xE8A45605
  width := 32
  table := crc32OggTable

/-- CRC-16/CCITT. -/
def crcMsbC16 : CrcMsb where
  k576 := 0x8832
  k512 := 0x13FC
  k192 := 0x650B
  k128 := 0xAEFC
  width := 16
  table := crc16CcittTable

/-- CRC_MSB_K: a constant for each half. -/
def crcMsbK (hi lo : BitVec 32) : BitVec 128 := mmSetEpi32 0 hi 0 lo

/-- CRC_MSB_REV: the bytes in the opposite order. -/
def crcMsbRev : BitVec 128 := mmLoadu [15, 14, 13, 12, 11, 10, 9, 8, 7, 6, 5, 4, 3, 2, 1, 0]

/-- CRC_MSB_LOAD: sixteen bytes, the first the highest. -/
def crcMsbLoad (data : List UInt8) : BitVec 128 := mmShuffleEpi8 (mmLoadu data) crcMsbRev

/-- One accumulator moved on by the distance of its constants, with what comes next. -/
def crcMsbFold (x k d : BitVec 128) : BitVec 128 := mmClmulepi64 x k 0x11 ^^^ mmClmulepi64 x k 0x00 ^^^ d

/-- The loop over 16 bytes at a time, so many turns of it. -/
def crcMsbTailLoop (m : CrcMsb) : Nat → BitVec 128 → List UInt8 → BitVec 128 × List UInt8
  | 0, x0, data => (x0, data)
  | turns + 1, x0, data =>
    crcMsbTailLoop m turns (crcMsbFold x0 (crcMsbK m.k192 m.k128) (crcMsbLoad data)) (data.drop 16)

/-- One accumulator and what is left after it, both through the table. -/
def crcMsbTail (m : CrcMsb) (x0 : BitVec 128) (data : List UInt8) : BitVec 32 :=
  let (x0, data) := crcMsbTailLoop m (data.length / 16) x0 data
  m.table (m.table 0 (mmStoreu (mmShuffleEpi8 x0 crcMsbRev))) data

/-- The first 64 bytes, with the register in the first of them. -/
def crcMsbStart (m : CrcMsb) (crc : BitVec 32) (data : List UInt8) : Chains where
  x0 := crcMsbLoad data ^^^ mmSetEpi32 (crc <<< (32 - m.width)) 0 0 0
  x1 := crcMsbLoad (data.drop 16)
  x2 := crcMsbLoad (data.drop 32)
  x3 := crcMsbLoad (data.drop 48)

/-- Four accumulators moved on, with the next 64 bytes. -/
def Chains.crcMsbFold (m : CrcMsb) (chains : Chains) (data : List UInt8) : Chains where
  x0 := Crc.crcMsbFold chains.x0 (crcMsbK m.k576 m.k512) (crcMsbLoad data)
  x1 := Crc.crcMsbFold chains.x1 (crcMsbK m.k576 m.k512) (crcMsbLoad (data.drop 16))
  x2 := Crc.crcMsbFold chains.x2 (crcMsbK m.k576 m.k512) (crcMsbLoad (data.drop 32))
  x3 := Crc.crcMsbFold chains.x3 (crcMsbK m.k576 m.k512) (crcMsbLoad (data.drop 48))

/-- The loop over 64 bytes at a time, so many turns of it. -/
def crcMsbChains (m : CrcMsb) : Nat → Chains → List UInt8 → Chains × List UInt8
  | 0, chains, data => (chains, data)
  | turns + 1, chains, data => crcMsbChains m turns (chains.crcMsbFold m data) (data.drop 64)

/-- The CRC of at least 64 bytes by folding, from a register on. -/
def crcMsbPclmul (m : CrcMsb) (crc : BitVec 32) (data : List UInt8) : BitVec 32 :=
  let (chains, data) := crcMsbChains m ((data.length - 64) / 64) (crcMsbStart m crc data) (data.drop 64)
  let k128 := crcMsbK m.k192 m.k128
  let x1 := crcMsbFold chains.x0 k128 chains.x1
  let x2 := crcMsbFold x1 k128 chains.x2
  let x0 := crcMsbFold x2 k128 chains.x3
  crcMsbTail m x0 data

open List ShiftRegister

/-- The register of CRC-32, with the reflected polynomial. -/
def crc32Register : Register 32 := reflected 0xEDB88320

/-- The register of the Ogg CRC-32. -/
def crc32OggRegister : Register 32 := forward 0x04C11DB7

/-- The register of CRC-16/CCITT. -/
def crc16CcittRegister : Register 16 := forward 0x1021

theorem crc32_splits : crc32Register.Splits (fun crc => crc.setWidth 8) fun crc => crc >>> 8 :=
  reflected_splits _

theorem crc32Ogg_splits : crc32OggRegister.Splits (fun crc => (crc >>> 24).setWidth 8) fun crc => crc <<< 8 :=
  forward_splits _ (by decide)

theorem crc16Ccitt_splits :
    crc16CcittRegister.Splits (fun crc => (crc >>> 8).setWidth 8) fun crc => crc <<< 8 :=
  forward_splits _ (by decide)

section Tables

variable {w : Nat} {r : Register w} {table : List (List Nat)}

/-- A table that holds the slices of a register. -/
def Sliced (r : Register w) (table : List (List Nat)) : Prop :=
  ∀ behind < 8, table.getD behind [] = r.slice behind

theorem Sliced.lookup (sliced : Sliced r table) {behind : Nat} (inside : behind < 8)
    (byte : BitVec 8) : lookup w table behind byte = r.entry behind byte := by
  rw [Crc.lookup, sliced _ inside, Register.slice_getD]

theorem Sliced.lookup_and (sliced : Sliced r table) {behind : Nat} (inside : behind < 8) (word : BitVec 32) :
    Crc.lookup w table behind (word &&& 0xFF) = r.entry behind (word.setWidth 8) := by
  have low : (word &&& 0xFF#32).toNat = (word.setWidth 8).toNat := by
    rw [toNat_and, toNat_setWidth]
    exact Nat.and_two_pow_sub_one_eq_mod word.toNat 8
  rw [← sliced.lookup inside, Crc.lookup, Crc.lookup]
  exact congrArg (fun index => BitVec.ofNat w ((table.getD behind []).getD index 0)) low

end Tables

section Evaluated

variable {w : Nat} {r : Register w} {table : List (List Nat)}

theorem sliced_of_numbers (evaluated : ∀ behind < 8, (table.getD behind [] == r.sliceNumbers behind) = true) :
    Sliced r table := by
  intro behind inside
  rw [r.slice_eq_sliceNumbers]
  exact eq_of_beq (evaluated behind inside)

end Evaluated

theorem tables_sliced : Sliced crc32Register crc32Slice8 ∧ Sliced crc32OggRegister crc32OggSlice8 ∧
    Sliced crc16CcittRegister crc16CcittSlice8 :=
  ⟨sliced_of_numbers (by decide +kernel), sliced_of_numbers (by decide +kernel),
    sliced_of_numbers (by decide +kernel)⟩

theorem crc32Slice8_sliced : Sliced crc32Register crc32Slice8 := tables_sliced.1

theorem crc32OggSlice8_sliced : Sliced crc32OggRegister crc32OggSlice8 := tables_sliced.2.1

theorem crc16CcittSlice8_sliced : Sliced crc16CcittRegister crc16CcittSlice8 := tables_sliced.2.2

theorem run_eight {w : Nat} {r : Register w} {head : BitVec w → BitVec 8}
    {rest : BitVec w → BitVec w} (splits : r.Splits head rest) (crc : BitVec w)
    (d0 d1 d2 d3 d4 d5 d6 d7 : UInt8) :
    r.run crc [d0, d1, d2, d3, d4, d5, d6, d7] =
      r.entry 7 (head crc ^^^ d0.toBitVec) ^^^ (r.entry 6 (head (rest crc) ^^^ d1.toBitVec) ^^^
        (r.entry 5 (head (rest^[2] crc) ^^^ d2.toBitVec) ^^^
        (r.entry 4 (head (rest^[3] crc) ^^^ d3.toBitVec) ^^^
        (r.entry 3 (head (rest^[4] crc) ^^^ d4.toBitVec) ^^^
        (r.entry 2 (head (rest^[5] crc) ^^^ d5.toBitVec) ^^^
        (r.entry 1 (head (rest^[6] crc) ^^^ d6.toBitVec) ^^^
        (r.entry 0 (head (rest^[7] crc) ^^^ d7.toBitVec) ^^^ rest^[8] crc))))))) := by
  simp only [splits.run_cons]
  rfl

section Reflected

variable (crc : BitVec 32) (d0 d1 d2 d3 d4 d5 d6 d7 : UInt8)

theorem crc32LoadLe32_bytes : (crc32LoadLe32 d0 d1 d2 d3).setWidth 8 = d0.toBitVec ∧
      (crc32LoadLe32 d0 d1 d2 d3 >>> 8).setWidth 8 = d1.toBitVec ∧
      (crc32LoadLe32 d0 d1 d2 d3 >>> 16).setWidth 8 = d2.toBitVec ∧
      (crc32LoadLe32 d0 d1 d2 d3 >>> 24).setWidth 8 = d3.toBitVec := by
  unfold crc32LoadLe32
  refine ⟨?_, ?_, ?_, ?_⟩
  all_goals
    apply eq_of_getLsbD_eq
    intro i inside
    simp only [getLsbD_setWidth, getLsbD_ushiftRight, getLsbD_append]
  · simp [inside]
  · simp [inside, show ¬ 8 + i < 8 by omega]
  · simp [inside, show ¬ 16 + i < 8 by omega, show 16 + i - 8 - 8 = i by omega,
      show ¬ 16 + i - 8 < 8 by omega]
  · simp [inside, show ¬ 24 + i < 8 by omega, show ¬ 24 + i - 8 < 8 by omega,
      show ¬ 24 + i - 8 - 8 < 8 by omega, show 24 + i - 8 - 8 - 8 = i by omega]

theorem crc32One_eq : crc32One crc d0 = crc32Register.take crc d0 := by
  rw [crc32One, Sliced.lookup_and crc32Slice8_sliced (by decide), crc32_splits.take_eq,
    setWidth_xor, setWidth_setWidth_of_le _ (by decide), setWidth_eq]

theorem crc32Eight_eq : crc32Eight crc d0 d1 d2 d3 d4 d5 d6 d7 =
    crc32Register.run crc [d0, d1, d2, d3, d4, d5, d6, d7] := by
  obtain ⟨b0, b1, b2, b3⟩ := crc32LoadLe32_bytes d0 d1 d2 d3
  obtain ⟨b4, b5, b6, b7⟩ := crc32LoadLe32_bytes d4 d5 d6 d7
  -- The register's four bytes meet the first four; none is left for the others.
  have gone {count : Nat} (far : 32 ≤ count) : crc >>> count = 0#32 := ushiftRight_eq_zero far
  simp only [crc32Eight]
  rw [Sliced.lookup_and crc32Slice8_sliced (by decide), Sliced.lookup_and crc32Slice8_sliced (by decide),
    Sliced.lookup_and crc32Slice8_sliced (by decide), Sliced.lookup_and crc32Slice8_sliced (by decide),
    Sliced.lookup_and crc32Slice8_sliced (by decide), Sliced.lookup_and crc32Slice8_sliced (by decide),
    Sliced.lookup_and crc32Slice8_sliced (by decide), Sliced.lookup_and crc32Slice8_sliced (by decide),
    run_eight crc32_splits]
  simp (disch := decide) only [iterate_succ_apply, iterate_zero_apply,
    ← shiftRight_add, Nat.reduceAdd, gone, ushiftRight_xor_distrib,
    setWidth_xor, b0, b1, b2, b3, b4, b5, b6, b7, zero_ushiftRight,
    setWidth_zero, zero_xor, xor_zero]
  ac_rfl

theorem crc32SliceBy8_eq (data : List UInt8) : crc32SliceBy8 crc data = crc32Register.run crc data := by
  -- By the loop's own recursion: eight bytes a turn, or the tail.
  fun_induction crc32SliceBy8 crc data with
  | case1 crc d0 d1 d2 d3 d4 d5 d6 d7 data ih =>
    rw [ih, crc32Eight_eq, ← Register.run_append]
    rfl
  | case2 crc data _ =>
    rw [Register.run]
    congr 1
    funext crc d
    exact crc32One_eq crc d

end Reflected

section Forward

variable (d0 d1 d2 d3 d4 d5 d6 d7 : UInt8)

theorem crc32OggOne_eq (crc : BitVec 32) : crc32OggOne crc d0 = crc32OggRegister.take crc d0 := by
  rw [crc32OggOne, Sliced.lookup crc32OggSlice8_sliced (by decide), crc32Ogg_splits.take_eq,
    BitVec.xor_comm]

theorem bigEndian_bytes :
    let word := d0.toBitVec.setWidth 32 <<< 24 ||| d1.toBitVec.setWidth 32 <<< 16 |||
      d2.toBitVec.setWidth 32 <<< 8 ||| d3.toBitVec.setWidth 32
    (word >>> 24).setWidth 8 = d0.toBitVec ∧ (word >>> 16).setWidth 8 = d1.toBitVec ∧
      (word >>> 8).setWidth 8 = d2.toBitVec ∧ word.setWidth 8 = d3.toBitVec := by
  refine ⟨?_, ?_, ?_, ?_⟩
  all_goals
    apply eq_of_getLsbD_eq
    intro i inside
    simp only [getLsbD_setWidth, getLsbD_ushiftRight, getLsbD_or, getLsbD_shiftLeft]
    simp (disch := omega) [inside, decide_eq_true, decide_eq_false]

theorem crc32OggEight_eq (crc : BitVec 32) : crc32OggEight crc d0 d1 d2 d3 d4 d5 d6 d7 =
    crc32OggRegister.run crc [d0, d1, d2, d3, d4, d5, d6, d7] := by
  obtain ⟨b0, b1, b2, b3⟩ := bigEndian_bytes d0 d1 d2 d3
  -- The register's four bytes meet the first four; none is left for the others.
  have gone {count : Nat} (far : 32 ≤ count) : crc <<< count = 0#32 := shiftLeft_eq_zero far
  have moved : ((crc <<< 8) >>> 24).setWidth 8 = (crc >>> 16).setWidth 8 ∧
      ((crc <<< 16) >>> 24).setWidth 8 = (crc >>> 8).setWidth 8 ∧
      ((crc <<< 24) >>> 24).setWidth 8 = crc.setWidth 8 := by
    refine ⟨?_, ?_, ?_⟩
    all_goals
      apply eq_of_getLsbD_eq
      intro i inside
      simp only [getLsbD_setWidth, getLsbD_ushiftRight, getLsbD_shiftLeft]
    · simp [inside, show 24 + i < 32 by omega, show ¬ 24 + i < 8 by omega,
        show 24 + i - 8 = 16 + i by omega]
    · simp [inside, show 24 + i < 32 by omega, show ¬ 24 + i < 16 by omega,
        show 24 + i - 16 = 8 + i by omega]
    · simp [inside, show 24 + i < 32 by omega]
  obtain ⟨m1, m2, m3⟩ := moved
  simp only [crc32OggEight]
  rw [Sliced.lookup_and crc32OggSlice8_sliced (by decide), Sliced.lookup_and crc32OggSlice8_sliced (by decide),
    Sliced.lookup_and crc32OggSlice8_sliced (by decide), Sliced.lookup_and crc32OggSlice8_sliced (by decide),
    Sliced.lookup crc32OggSlice8_sliced (by decide), Sliced.lookup crc32OggSlice8_sliced (by decide),
    Sliced.lookup crc32OggSlice8_sliced (by decide), Sliced.lookup crc32OggSlice8_sliced (by decide),
    run_eight crc32Ogg_splits]
  simp (disch := decide) only [iterate_succ_apply, iterate_zero_apply,
    ← shiftLeft_add, Nat.reduceAdd, gone, ushiftRight_xor_distrib,
    setWidth_xor, b0, b1, b2, b3, m1, m2, m3, zero_ushiftRight, zero_shiftLeft,
    setWidth_zero, zero_xor, xor_zero]
  ac_rfl

theorem crc32OggTable_eq (crc : BitVec 32) (data : List UInt8) :
    crc32OggTable crc data = crc32OggRegister.run crc data := by
  fun_induction crc32OggTable crc data with
  | case1 crc d0 d1 d2 d3 d4 d5 d6 d7 data ih =>
    rw [ih, crc32OggEight_eq, ← Register.run_append]
    rfl
  | case2 crc data _ =>
    rw [Register.run]
    congr 1
    funext crc d
    exact crc32OggOne_eq d crc

theorem crc16CcittOne_eq (crc : BitVec 16) : crc16CcittOne crc d0 = crc16CcittRegister.take crc d0 := by
  rw [crc16CcittOne, Sliced.lookup crc16CcittSlice8_sliced (by decide), crc16Ccitt_splits.take_eq,
    setWidth_xor, setWidth_setWidth_of_le _ (by decide), setWidth_eq,
    BitVec.xor_comm]

theorem crc16CcittEight_eq (crc : BitVec 16) : crc16CcittEight crc d0 d1 d2 d3 d4 d5 d6 d7 =
    crc16CcittRegister.run crc [d0, d1, d2, d3, d4, d5, d6, d7] := by
  -- The register's two bytes meet the first two; none is left for the others.
  have gone {count : Nat} (far : 16 ≤ count) : crc <<< count = 0#16 := shiftLeft_eq_zero far
  have moved : ((crc <<< 8) >>> 8).setWidth 8 = crc.setWidth 8 := by
    apply eq_of_getLsbD_eq
    intro i inside
    simp only [getLsbD_setWidth, getLsbD_ushiftRight, getLsbD_shiftLeft]
    simp [inside, show 8 + i < 16 by omega]
  simp only [crc16CcittEight]
  rw [Sliced.lookup crc16CcittSlice8_sliced (by decide), Sliced.lookup crc16CcittSlice8_sliced (by decide),
    Sliced.lookup crc16CcittSlice8_sliced (by decide), Sliced.lookup crc16CcittSlice8_sliced (by decide),
    Sliced.lookup crc16CcittSlice8_sliced (by decide), Sliced.lookup crc16CcittSlice8_sliced (by decide),
    Sliced.lookup crc16CcittSlice8_sliced (by decide), Sliced.lookup crc16CcittSlice8_sliced (by decide),
    run_eight crc16Ccitt_splits]
  simp (disch := decide) only [iterate_succ_apply, iterate_zero_apply,
    ← shiftLeft_add, Nat.reduceAdd, gone, setWidth_xor, moved,
    setWidth_setWidth_of_le, setWidth_eq, zero_ushiftRight,
    zero_shiftLeft, setWidth_zero, zero_xor, xor_zero]
  ac_rfl

theorem crc16CcittLoop_eq (crc : BitVec 16) (data : List UInt8) :
    crc16CcittLoop crc data = crc16CcittRegister.run crc data := by
  fun_induction crc16CcittLoop crc data with
  | case1 crc d0 d1 d2 d3 d4 d5 d6 d7 data ih =>
    rw [ih, crc16CcittEight_eq, ← Register.run_append]
    rfl
  | case2 crc data _ =>
    rw [Register.run]
    congr 1
    funext crc d
    exact crc16CcittOne_eq d crc

end Forward

theorem encodingCrc32_eq (crc : BitVec 32) (data : List UInt8) :
    encodingCrc32 crc data = ~~~((lowFirst data).foldl (reflectedBit 0xEDB88320) (~~~crc)) := by
  rw [encodingCrc32, crc32SliceBy8_eq, crc32Register, reflected_run _ (by decide)]

theorem encodingCrc32Ogg_eq (crc : BitVec 32) (data : List UInt8) :
    encodingCrc32Ogg crc data = (highFirst data).foldl (forwardBit 0x04C11DB7) crc := by
  rw [encodingCrc32Ogg, crc32OggTable_eq, crc32OggRegister, forward_run _ (by decide)]

theorem encodingCrc16Ccitt_eq (crc : BitVec 16) (data : List UInt8) :
    encodingCrc16Ccitt crc data = (highFirst data).foldl (forwardBit 0x1021) crc := by
  have whole (word : BitVec 16) : (word.setWidth 32).setWidth 16 = word := by
    rw [setWidth_setWidth_of_le _ (by decide), setWidth_eq]
  rw [encodingCrc16Ccitt, crc16CcittTable, whole, whole, crc16CcittLoop_eq, crc16CcittRegister,
    forward_run _ (by decide)]

/-- The three CRCs are the bit-serial divisions by their polynomials, and go on where one stopped. -/
theorem encodingCrc_serial : (∀ crc data, encodingCrc32 crc data =
        ~~~((lowFirst data).foldl (reflectedBit 0xEDB88320) (~~~crc))) ∧
      (∀ crc data, encodingCrc16Ccitt crc data = (highFirst data).foldl (forwardBit 0x1021) crc) ∧
      (∀ crc data, encodingCrc32Ogg crc data = (highFirst data).foldl (forwardBit 0x04C11DB7) crc) ∧
      (∀ crc front back, encodingCrc32 (encodingCrc32 crc front) back = encodingCrc32 crc (front ++ back)) ∧
      (∀ crc front back, encodingCrc16Ccitt (encodingCrc16Ccitt crc front) back =
        encodingCrc16Ccitt crc (front ++ back)) ∧
      ∀ crc front back,
        encodingCrc32Ogg (encodingCrc32Ogg crc front) back = encodingCrc32Ogg crc (front ++ back) := by
  have low (front back : List UInt8) : lowFirst (front ++ back) = lowFirst front ++ lowFirst back :=
    flatMap_append
  have high (front back : List UInt8) :
      highFirst (front ++ back) = highFirst front ++ highFirst back := flatMap_append
  refine ⟨encodingCrc32_eq, encodingCrc16Ccitt_eq, encodingCrc32Ogg_eq, ?_, ?_, ?_⟩
  · -- The complements in between cancel.
    intro crc front back
    rw [encodingCrc32_eq, encodingCrc32_eq, encodingCrc32_eq, BitVec.not_not, low, foldl_append]
  · intro crc front back
    rw [encodingCrc16Ccitt_eq, encodingCrc16Ccitt_eq, encodingCrc16Ccitt_eq, high, foldl_append]
  · intro crc front back
    rw [encodingCrc32Ogg_eq, encodingCrc32Ogg_eq, encodingCrc32Ogg_eq, high, foldl_append]

open BitVec List ShiftRegister Register

theorem mmLoadu_bits {bytes : List UInt8} (room : bytes.length ≤ 16) :
    (range (8 * bytes.length)).map (BitVec.getLsbD (bytes.foldr
      (fun byte (x : BitVec 128) => x <<< 8 ||| byte.toBitVec.setWidth 128) 0)) =
      lowFirst bytes := by
  induction bytes with
  | nil => rfl
  | cons byte bytes ih =>
    rw [length_cons] at room
    rw [lowFirst, flatMap_cons, ← lowFirst, ← ih (by omega), length_cons, Nat.mul_succ,
      Nat.add_comm, range_add, map_append, map_map]
    congr 1
    · -- The first byte is the lowest.
      apply map_congr_left
      intro i low
      rw [mem_range] at low
      rw [foldr_cons, getLsbD_or, getLsbD_shiftLeft, getLsbD_setWidth]
      simp [low, show i < 128 by omega]
    · apply map_congr_left
      intro i low
      rw [mem_range] at low
      rw [comp_apply, foldr_cons, getLsbD_or, getLsbD_shiftLeft,
        getLsbD_setWidth, getLsbD_of_ge byte.toBitVec (8 + i) (by omega)]
      simp [show 8 + i < 128 by omega, show ¬ 8 + i < 8 by omega]

theorem lowBits_mmLoadu {data : List UInt8} (long : 16 ≤ data.length) :
    lowBits (mmLoadu data) = lowFirst (data.take 16) := by
  have taken : (data.take 16).length = 16 := by
    rw [length_take]
    omega
  have bits := @mmLoadu_bits (data.take 16) (by omega)
  rw [taken] at bits
  exact bits

theorem lowFirst_mmStoreu (x : BitVec 128) : lowFirst (mmStoreu x) = lowBits x := by
  -- Bit by bit, the sixteen bytes one after the other.
  have places : (range 16).flatMap (fun place => (range 8).map fun i => 8 * place + i) =
      range 128 := by decide
  rw [lowBits, ← places, map_flatMap, lowFirst, mmStoreu, flatMap_map]
  congr 1
  funext place
  rw [map_map]
  apply map_congr_left
  intro i low
  rw [mem_range] at low
  show (byteAt x place).getLsbD i = x.getLsbD (8 * place + i)
  rw [byteAt, getLsbD_setWidth, getLsbD_ushiftRight]
  simp [low]

theorem length_mmStoreu (x : BitVec 128) : (mmStoreu x).length = 16 := by
  rw [mmStoreu, length_map, length_range]

theorem lowBits_injective {n : Nat} {x y : BitVec n} (same : lowBits x = lowBits y) : x = y := by
  apply eq_of_getLsbD_eq
  intro i inside
  have at_i := congrArg (fun bits => bits[i]?) same
  simpa [lowBits, getElem?_range, inside] using at_i

theorem lowFirst_injective {front back : List UInt8} (same : lowFirst front = lowFirst back) :
    front = back := by
  induction front generalizing back with
  | nil =>
    cases back with
    | nil => rfl
    | cons byte back => simp [lowFirst, range_succ] at same
  | cons byte front ih =>
    cases back with
    | nil => simp [lowFirst, range_succ] at same
    | cons other back =>
      -- The first eight bits are the first byte's.
      obtain ⟨first, rest⟩ := append_inj same (by simp)
      have equal : byte.toBitVec = other.toBitVec := lowBits_injective first
      rw [UInt8.toBitVec_inj.mp equal, ih rest]

theorem mmStoreu_mmLoadu {data : List UInt8} (long : 16 ≤ data.length) :
    mmStoreu (mmLoadu data) = data.take 16 := by
  apply lowFirst_injective
  rw [lowFirst_mmStoreu, lowBits_mmLoadu long]

theorem lowBits_split {m n : Nat} (x : BitVec (n + m)) :
    lowBits x = lowBits (x.setWidth n) ++ lowBits ((x >>> n).setWidth m) := by
  rw [lowBits, range_add, map_append, map_map, lowBits, lowBits]
  congr 1
  · apply map_congr_left
    intro i low
    rw [mem_range] at low
    rw [getLsbD_setWidth]
    simp [low]
  · apply map_congr_left
    intro i low
    rw [mem_range] at low
    rw [comp_apply, getLsbD_setWidth, getLsbD_ushiftRight]
    simp [low]

/-- What a word sent with the lowest bit first leaves in the register of CRC-32. -/
def lowValue {n : Nat} (x : BitVec n) : BitVec 32 := value (reflectedBit 0xEDB88320) (lowBits x)

/-- The register with one bit in it. -/
def lowOne : BitVec 32 := reflectedBit 0xEDB88320 0 true

theorem crc32_feeds : crc32Register.Feeds (reflectedBit 0xEDB88320) := reflected_feeds _

theorem lowValue_linear {n : Nat} : XorLinear (@lowValue n) := crc32_feeds.low_linear

theorem value_lowFirst (bytes : List UInt8) :
    value (reflectedBit 0xEDB88320) (lowFirst bytes) = crc32Register.run 0 bytes :=
  (reflected_run (0xEDB88320 : BitVec 32) (by decide) 0 bytes).symm

theorem lowValue_mmLoadu {data : List UInt8} (long : 16 ≤ data.length) :
    lowValue (mmLoadu data) = crc32Register.run 0 (data.take 16) := by
  rw [lowValue, lowBits_mmLoadu long, value_lowFirst]

theorem lowValue_split {m n : Nat} (x : BitVec (n + m)) :
    lowValue x = crc32Register.skip m (lowValue (x.setWidth n)) ^^^ lowValue ((x >>> n).setWidth m) := by
  have length : (lowBits ((x >>> n).setWidth m)).length = m := by rw [lowBits, length_map, length_range]
  rw [lowValue, lowBits_split, crc32_feeds.value_append, length]
  rfl

theorem lowValue_halves (x : BitVec 128) :
    lowValue x = crc32Register.skip 64 (lowValue (lowHalf x)) ^^^ lowValue (highHalf x) :=
  @lowValue_split 64 64 x

/-- The last step of the reduction for the low 32 bits of what is left. -/
def barrett (low : BitVec 32) : BitVec 32 :=
  let t := clmul (low.setWidth 64) (lowHalf mupp)
  let t := clmul ((t.setWidth 32).setWidth 64) (highHalf mupp)
  (t >>> 32).setWidth 32

theorem crc32_evaluated :
    (∀ i < 32, lowValue (BitVec.twoPow 32 i) = crc32Register.skip 32 (BitVec.twoPow 32 i)) ∧
    (lowValue (lowHalf k5) = crc32Register.skip 95 lowOne ∧
      lowValue (highHalf k3k4) = crc32Register.skip 32 (lowValue (lowHalf k5)) ∧
      lowValue (lowHalf k3k4) = crc32Register.skip 64 (lowValue (highHalf k3k4)) ∧
      lowValue (highHalf k1k2) = crc32Register.skip 320 (lowValue (lowHalf k3k4)) ∧
      lowValue (lowHalf k1k2) = crc32Register.skip 64 (lowValue (highHalf k1k2))) ∧
    ∀ i < 32, barrett (BitVec.twoPow 32 i) = crc32Register.skip 32 (BitVec.twoPow 32 i) := by
  decide +kernel

theorem lowValue_register (crc : BitVec 32) : lowValue (crc.setWidth 128) = crc32Register.skip 128 crc := by
  have own : (fun x : BitVec 32 => lowValue x) = crc32Register.skip 32 := by
    exact XorLinear.ext lowValue_linear (crc32Register.skip_linear 32) crc32_evaluated.1
  have front := @lowBits_shiftLeft 32 crc 128 0 (by decide)
  rw [shiftLeft_zero] at front
  rw [lowValue, front, crc32_feeds.value_between]
  show crc32Register.skip 96 (lowValue crc) = _
  rw [congrFun own crc, ← skip_add]

theorem constants_stand : lowValue (lowHalf k5) = crc32Register.skip 95 lowOne ∧
      lowValue (highHalf k3k4) = crc32Register.skip 127 lowOne ∧
      lowValue (lowHalf k3k4) = crc32Register.skip 191 lowOne ∧
      lowValue (highHalf k1k2) = crc32Register.skip 511 lowOne ∧
      lowValue (lowHalf k1k2) = crc32Register.skip 575 lowOne := by
  obtain ⟨k5, k4, k3, k2, k1⟩ := crc32_evaluated.2.1
  rw [k5, skip_skip] at k4
  rw [k4, skip_skip] at k3
  rw [k3, skip_skip] at k2
  rw [k2, skip_skip] at k1
  exact ⟨k5, k4, k3, k2, k1⟩

theorem crc32Fold16_value {k : BitVec 128} {moves : Nat}
    (low : lowValue (lowHalf k) = crc32Register.skip (moves + 64) lowOne)
    (high : lowValue (highHalf k) = crc32Register.skip moves lowOne) (x : BitVec 128) :
    lowValue (crc32Fold16 x k) = crc32Register.skip (moves + 1) (lowValue x) := by
  have lowProduct : lowValue (mmClmulepi64 x k 0x00) =
      crc32Register.skip (moves + 64 + 1) (lowValue (lowHalf x)) :=
    crc32_feeds.low_clmul low (lowHalf x)
  have highProduct : lowValue (mmClmulepi64 x k 0x11) =
      crc32Register.skip (moves + 1) (lowValue (highHalf x)) :=
    crc32_feeds.low_clmul high (highHalf x)
  rw [crc32Fold16, lowValue_linear, lowProduct, highProduct, lowValue_halves x,
    crc32Register.skip_linear, ← crc32Register.skip_add, Nat.add_right_comm]

theorem fold128_value (x : BitVec 128) :
    lowValue (crc32Fold16 x k3k4) = crc32Register.skip 128 (lowValue x) :=
  crc32Fold16_value constants_stand.2.2.1 constants_stand.2.1 x

theorem fold512_value (x : BitVec 128) :
    lowValue (crc32Fold16 x k1k2) = crc32Register.skip 512 (lowValue x) :=
  crc32Fold16_value constants_stand.2.2.2.2 constants_stand.2.2.2.1 x

theorem lowValue_setWidth {n m : Nat} (x : BitVec n) (room : n ≤ m) :
    lowValue (x.setWidth m) = crc32Register.skip (m - n) (lowValue x) := by
  have bits := @lowBits_shiftLeft n x m 0 (by omega)
  rw [shiftLeft_zero] at bits
  rw [lowValue, bits, crc32_feeds.value_between, Nat.sub_zero]
  rfl

theorem lowValue_ushiftRight {m n : Nat} (x : BitVec (n + m)) : lowValue (x >>> n) =
      crc32Register.skip n (lowValue x) ^^^ crc32Register.skip (n + m) (lowValue (x.setWidth n)) := by
  have down : x >>> n = ((x >>> n).setWidth m).setWidth (n + m) := by
    apply eq_of_getLsbD_eq
    intro i inside
    rw [getLsbD_setWidth, getLsbD_setWidth, getLsbD_ushiftRight]
    by_cases low : i < m
    · simp [low, inside]
    · simp [low, inside, getLsbD_of_ge x (n + i) (by omega)]
  rw [lowValue_split x, skip_xor, skip_skip]
  conv_lhs => rw [down, lowValue_setWidth _ (by omega), Nat.add_sub_cancel]
  rw [BitVec.xor_comm, ← xor_assoc, BitVec.xor_self, BitVec.zero_xor]

theorem lowHalf_and_mask32 (x : BitVec 128) : lowHalf (x &&& mask32) = (x.setWidth 32).setWidth 64 := by
  have mask : mask32 = BitVec.setWidth 128 (BitVec.allOnes 32) := by decide
  apply eq_of_getLsbD_eq
  intro i inside
  rw [mask, lowHalf, getLsbD_setWidth, getLsbD_and, getLsbD_setWidth,
    getLsbD_setWidth, getLsbD_setWidth, getLsbD_allOnes]
  by_cases low : i < 32
  · simp [low, inside, show i < 128 by omega]
  · simp [low]

/-- The reduction from 128 bits to 96. -/
def reduce96 (x : BitVec 128) : BitVec 128 := x >>> 64 ^^^ mmClmulepi64 x k3k4 0x10

/-- The reduction from 96 bits to 64. -/
def reduce64 (x : BitVec 128) : BitVec 128 := x >>> 32 ^^^ mmClmulepi64 (x &&& mask32) k5 0x00

theorem reduce96_value (x : BitVec 128) : lowValue (reduce96 x) = crc32Register.skip 64 (lowValue x) := by
  have product : lowValue (mmClmulepi64 x k3k4 0x10) = crc32Register.skip 128 (lowValue (lowHalf x)) :=
    crc32_feeds.low_clmul constants_stand.2.1 (lowHalf x)
  have shifted : lowValue (x >>> 64) = crc32Register.skip 64 (lowValue x) ^^^
      crc32Register.skip 128 (lowValue (lowHalf x)) :=
    @lowValue_ushiftRight 64 64 x
  rw [reduce96, lowValue_linear, product, shifted, xor_assoc, BitVec.xor_self, xor_zero]

theorem reduce64_value (x : BitVec 128) : lowValue (reduce64 x) = crc32Register.skip 32 (lowValue x) := by
  have product : lowValue (mmClmulepi64 (x &&& mask32) k5 0x00) =
      crc32Register.skip 96 (lowValue (lowHalf (x &&& mask32))) :=
    crc32_feeds.low_clmul constants_stand.1 (lowHalf (x &&& mask32))
  have shifted : lowValue (x >>> 32) = crc32Register.skip 32 (lowValue x) ^^^
      crc32Register.skip 128 (lowValue (x.setWidth 32)) :=
    @lowValue_ushiftRight 96 32 x
  have kept : lowValue (lowHalf (x &&& mask32)) = crc32Register.skip 32 (lowValue (x.setWidth 32)) := by
    rw [lowHalf_and_mask32]
    exact lowValue_setWidth (x.setWidth 32) (by decide)
  rw [reduce64, lowValue_linear, product, shifted, kept, skip_skip, xor_assoc, BitVec.xor_self, xor_zero]

theorem getLsbD_small {n place : Nat} {x : BitVec n}
    (small : ∀ i : Fin n, place ≤ i.val → x.getLsbD i = false) {i : Nat} (high : place ≤ i) :
    x.getLsbD i = false := by
  by_cases inside : i < n
  · exact small ⟨i, inside⟩ high
  · exact getLsbD_of_ge x i (by omega)

theorem highHalf_reduce (x : BitVec 128) : highHalf (reduce64 (reduce96 x)) = 0#64 := by
  have k4High (i : Nat) (high : 32 ≤ i) : (highHalf k3k4).getLsbD i = false :=
    have small : ∀ i : Fin 64, 32 ≤ i.val → (highHalf k3k4).getLsbD i = false := by decide
    getLsbD_small small high
  have k5High (i : Nat) (high : 33 ≤ i) : (lowHalf k5).getLsbD i = false :=
    have small : ∀ i : Fin 64, 33 ≤ i.val → (lowHalf k5).getLsbD i = false := by decide
    getLsbD_small small high
  have first (i : Nat) (high : 96 ≤ i) : (reduce96 x).getLsbD i = false := by
    have product : (mmClmulepi64 x k3k4 0x10).getLsbD i = false :=
      clmul_small (fun i high => getLsbD_of_ge (lowHalf x) i high) k4High (by omega)
    rw [reduce96, getLsbD_xor, getLsbD_ushiftRight, product, getLsbD_of_ge x _ (by omega)]
    rfl
  apply eq_of_getLsbD_eq
  intro i inside
  have product : (mmClmulepi64 (reduce96 x &&& mask32) k5 0x00).getLsbD (64 + i) = false := by
    have low : ∀ i, 32 ≤ i → (lowHalf (reduce96 x &&& mask32)).getLsbD i = false := by
      intro i high
      rw [lowHalf_and_mask32, getLsbD_setWidth, getLsbD_setWidth]
      simp [show ¬ i < 32 by omega]
    exact clmul_small low k5High (by omega)
  rw [highHalf, getLsbD_setWidth, getLsbD_ushiftRight, reduce64, getLsbD_xor,
    getLsbD_ushiftRight, product, first _ (by omega)]
  simp

theorem barrett_eq (low : BitVec 32) : barrett low = crc32Register.skip 32 low := by
  have linear : XorLinear barrett :=
    (xorLinear_setWidth 32).comp ((xorLinear_ushiftRight 32).comp ((clmul_linear _).comp
      ((xorLinear_setWidth 64).comp ((xorLinear_setWidth 32).comp
        ((clmul_linear _).comp (xorLinear_setWidth 64))))))
  have agree : barrett = crc32Register.skip 32 := by
    -- Both are linear, so the 32 single bits decide.
    exact XorLinear.ext linear (crc32Register.skip_linear 32) crc32_evaluated.2.2
  exact congrFun agree low

theorem crc32Reduce_steps (x : BitVec 128) : crc32Reduce x = ((reduce64 (reduce96 x)) >>> 32).setWidth 32 ^^^
      barrett ((reduce64 (reduce96 x)).setWidth 32) := by
  have quotient (y : BitVec 128) (control : BitVec 8) (first : control.getLsbD 0 = false) :
      mmClmulepi64 (y &&& mask32) mupp control = clmul ((y.setWidth 32).setWidth 64)
          (if control.getLsbD 4 then highHalf mupp else lowHalf mupp) := by
    rw [mmClmulepi64, first, lowHalf_and_mask32]
    rfl
  rw [crc32Reduce, quotient _ 0x00 (by decide), quotient _ 0x10 (by decide),
    ushiftRight_xor_distrib, setWidth_xor]
  rfl

theorem crc32Reduce_eq (x : BitVec 128) : crc32Reduce x = lowValue x := by
  have own (y : BitVec 32) : lowValue y = crc32Register.skip 32 y := by
    have front := lowValue_register y
    rw [lowValue_setWidth y (by decide)] at front
    exact reflected_skip_injective _ (by decide) (front.trans (crc32Register.skip_add 96 32 y))
  have moved : lowValue (reduce64 (reduce96 x)) = crc32Register.skip 96 (lowValue x) := by
    rw [reduce64_value, reduce96_value, skip_skip]
  have halves := lowValue_halves (reduce64 (reduce96 x))
  have words := @lowValue_split 32 32 (lowHalf (reduce64 (reduce96 x)))
  have low : (lowHalf (reduce64 (reduce96 x))).setWidth 32 = (reduce64 (reduce96 x)).setWidth 32 :=
    setWidth_setWidth_of_le _ (by decide)
  have high : (lowHalf (reduce64 (reduce96 x)) >>> 32).setWidth 32 =
      ((reduce64 (reduce96 x)) >>> 32).setWidth 32 := by
    apply eq_of_getLsbD_eq
    intro i inside
    rw [lowHalf, getLsbD_setWidth, getLsbD_setWidth, getLsbD_ushiftRight,
      getLsbD_ushiftRight, getLsbD_setWidth]
    simp [show 32 + i < 64 by omega]
  -- What is left of the value is 32 bits that move on by 32 and by 64.
  rw [low, high, own, own, ← barrett_eq ((reduce64 (reduce96 x)).setWidth 32), ← skip_xor,
    BitVec.xor_comm, ← crc32Reduce_steps] at words
  rw [highHalf_reduce, lowValue_linear.zero, xor_zero, words, moved, skip_skip] at halves
  exact (reflected_skip_injective _ (by decide) halves).symm

/-- What sixty-four bytes add, sixteen by sixteen. -/
theorem run_sixtyFour {w : Nat} (r : Register w) (crc : BitVec w) {data : List UInt8}
    (long : 64 ≤ data.length) :
    r.run crc (data.take 64) = r.skip 512 crc ^^^ (r.skip 384 (r.run 0#w (data.take 16)) ^^^
        (r.skip 256 (r.run 0#w ((data.drop 16).take 16)) ^^^
          (r.skip 128 (r.run 0#w ((data.drop 32).take 16)) ^^^ r.run 0#w ((data.drop 48).take 16)))) := by
  have parts : data.take 64 = data.take 16 ++ ((data.drop 16).take 16 ++
      ((data.drop 32).take 16 ++ (data.drop 48).take 16)) := by
    rw [← take_append_drop 16 (data.take 64), take_take, ← take_append_drop 16 ((data.take 64).drop 16),
      ← take_append_drop 16 (((data.take 64).drop 16).drop 16)]
    simp only [drop_take, take_take, drop_drop]
    rfl
  have length (place : Nat) (inside : place + 16 ≤ 64) : ((data.drop place).take 16).length = 16 := by
    rw [length_take, length_drop]
    omega
  have first : (data.take 16).length = 16 := by
    rw [length_take]
    omega
  -- Each part moves what came before it on by its 128 bits.
  rw [parts, r.run_append, r.run_append, r.run_append, r.run_split _ ((data.drop 48).take 16),
    r.run_split _ ((data.drop 32).take 16), r.run_split _ ((data.drop 16).take 16),
    r.run_split crc, length 16 (by decide), length 32 (by decide), length 48 (by decide), first]
  simp only [r.skip_xor, r.skip_skip, Nat.reduceAdd, Nat.reduceMul, xor_assoc]

theorem xor_four {w : Nat} (a b c d a' b' c' d' : BitVec w) :
    a ^^^ a' ^^^ (b ^^^ b' ^^^ (c ^^^ c' ^^^ (d ^^^ d'))) =
      a ^^^ (b ^^^ (c ^^^ d)) ^^^ (a' ^^^ (b' ^^^ (c' ^^^ d'))) := by
  ac_rfl

/-- What four accumulators stand for, the last one at the end of the message. -/
def Chains.stand {w : Nat} (r : Register w) (valueOf : BitVec 128 → BitVec w) (chains : Chains) : BitVec w :=
  r.skip 384 (valueOf chains.x0) ^^^ (r.skip 256 (valueOf chains.x1) ^^^
    (r.skip 128 (valueOf chains.x2) ^^^ valueOf chains.x3))

theorem Chains.stand_step {w : Nat} {r : Register w} {valueOf : BitVec 128 → BitVec w}
    {before after : Chains} {data : List UInt8} (long : 64 ≤ data.length)
    (h0 : valueOf after.x0 = r.skip 512 (valueOf before.x0) ^^^ r.run 0#w (data.take 16))
    (h1 : valueOf after.x1 =
      r.skip 512 (valueOf before.x1) ^^^ r.run 0#w ((data.drop 16).take 16)) (h2 : valueOf after.x2 =
      r.skip 512 (valueOf before.x2) ^^^ r.run 0#w ((data.drop 32).take 16)) (h3 : valueOf after.x3 =
      r.skip 512 (valueOf before.x3) ^^^ r.run 0#w ((data.drop 48).take 16)) :
    after.stand r valueOf = r.run (before.stand r valueOf) (data.take 64) := by
  rw [run_sixtyFour r _ long, stand, stand, h0, h1, h2, h3]
  simp only [r.skip_xor, r.skip_skip, Nat.reduceAdd]
  exact xor_four _ _ _ _ _ _ _ _

section Low

theorem crc32Chains_stand {turns : Nat} {chains : Chains} {data : List UInt8}
    (long : 64 * turns ≤ data.length) :
    (crc32Chains turns chains data).1.stand crc32Register lowValue =
        crc32Register.run (chains.stand crc32Register lowValue) (data.take (64 * turns)) ∧
      (crc32Chains turns chains data).2 = data.drop (64 * turns) := by
  induction turns generalizing chains data with
  | zero =>
    rw [crc32Chains, Nat.mul_zero, take_zero, drop_zero, run_nil]
    exact ⟨rfl, rfl⟩
  | succ turns ih =>
    have further : 64 * turns ≤ (data.drop 64).length := by
      rw [length_drop]
      omega
    have folded (x : BitVec 128) (place : Nat) (inside : place + 16 ≤ 64) :
        lowValue (crc32Fold16 x k1k2 ^^^ mmLoadu (data.drop place)) =
          crc32Register.skip 512 (lowValue x) ^^^ crc32Register.run 0#32 ((data.drop place).take 16) := by
      rw [lowValue_linear, fold512_value, lowValue_mmLoadu]
      · rfl
      · rw [length_drop]
        omega
    have step := @Chains.stand_step 32 crc32Register lowValue chains (chains.crc32Fold data) data
      (by omega) (folded chains.x0 0 (by decide)) (folded chains.x1 16 (by decide))
      (folded chains.x2 32 (by decide)) (folded chains.x3 48 (by decide))
    obtain ⟨value, rest⟩ := @ih (chains.crc32Fold data) (data.drop 64) further
    rw [crc32Chains]
    exact run_blocks _ step value rest

theorem crc32TailLoop_value {turns : Nat} {x : BitVec 128} {data : List UInt8}
    (long : 16 * turns ≤ data.length) :
    lowValue (crc32TailLoop turns x data).1 = crc32Register.run (lowValue x) (data.take (16 * turns)) ∧
      (crc32TailLoop turns x data).2 = data.drop (16 * turns) := by
  induction turns generalizing x data with
  | zero =>
    rw [crc32TailLoop, Nat.mul_zero, take_zero, drop_zero, run_nil]
    exact ⟨rfl, rfl⟩
  | succ turns ih =>
    have further : 16 * turns ≤ (data.drop 16).length := by
      rw [length_drop]
      omega
    have taken : (data.take 16).length = 16 := by
      rw [length_take]
      omega
    have step : lowValue (crc32Fold16 x k3k4 ^^^ mmLoadu data) =
        crc32Register.run (lowValue x) (data.take 16) := by
      rw [lowValue_linear, fold128_value, lowValue_mmLoadu (by omega),
        crc32Register.run_split (lowValue x), taken]
      rfl
    obtain ⟨value, rest⟩ := @ih (crc32Fold16 x k3k4 ^^^ mmLoadu data) (data.drop 16) further
    rw [crc32TailLoop]
    exact run_blocks _ step value rest

theorem crc32PclmulTail_eq (x : BitVec 128) (data : List UInt8) :
    crc32PclmulTail x data = crc32Register.run (lowValue x) data := by
  obtain ⟨value, rest⟩ := @crc32TailLoop_value (data.length / 16) x data (Nat.mul_div_le _ _)
  have whole : crc32Register.run (crc32Register.run (lowValue x)
      (data.take (16 * (data.length / 16)))) (data.drop (16 * (data.length / 16))) =
      crc32Register.run (lowValue x) data := by
    rw [← run_append, take_append_drop]
  simp only [crc32PclmulTail, crc32Reduce_eq, value, rest]
  split
  · rw [crc32SliceBy8_eq, whole]
  · rename_i none
    have none : data.drop (16 * (data.length / 16)) = [] := eq_nil_of_length_eq_zero (not_not.mp none)
    rw [none] at whole
    exact whole

/-- The folded CRC-32 of a string is the sliced one. -/
theorem crc32Pclmul_eq (crc : BitVec 32) (data : List UInt8) :
    crc32Pclmul crc data = crc32SliceBy8 crc data := by
  rw [crc32Pclmul]
  split
  · rfl
  · rename_i long
    have long : 64 ≤ data.length := by omega
    have loaded (place : Nat) (inside : place + 16 ≤ 64) : lowValue (mmLoadu (data.drop place)) =
          crc32Register.run 0#32 ((data.drop place).take 16) := by
      apply lowValue_mmLoadu
      rw [length_drop]
      omega
    -- The register enters with the first sixteen bytes.
    have begun : (crc32Start crc data).stand crc32Register lowValue =
        crc32Register.run crc (data.take 64) := by
      rw [run_sixtyFour crc32Register crc long]
      simp only [Chains.stand, crc32Start, loaded 16 (by decide), loaded 32 (by decide),
        loaded 48 (by decide)]
      rw [lowValue_linear, lowValue_register, show mmLoadu data = mmLoadu (data.drop 0) from rfl,
        loaded 0 (by decide), crc32Register.skip_xor, crc32Register.skip_skip, drop_zero,
        BitVec.xor_comm (crc32Register.skip _ (crc32Register.run 0#32 _)), xor_assoc]
    obtain ⟨value, rest⟩ := @crc32Chains_stand ((data.length - 64) / 64) (crc32Start crc data) (data.drop 64)
      (by rw [length_drop]; omega)
    simp only
    generalize crc32Chains ((data.length - 64) / 64) (crc32Start crc data) (data.drop 64) = after
      at value rest ⊢
    have collapsed : lowValue (crc32Fold16 (crc32Fold16 (crc32Fold16 after.1.x0 k3k4 ^^^ after.1.x1)
        k3k4 ^^^ after.1.x2) k3k4 ^^^ after.1.x3) = after.1.stand crc32Register lowValue := by
      simp only [lowValue_linear _ _, fold128_value, crc32Register.skip_xor,
        crc32Register.skip_skip, Nat.reduceAdd, Chains.stand, xor_assoc]
    rw [crc32PclmulTail_eq, collapsed, value, rest, begun, ← run_append,
      take_append_drop, ← run_append, take_append_drop, crc32SliceBy8_eq]

end Low

open List ShiftRegister Register Nat

theorem highBits_eq {n : Nat} (x : BitVec n) : highBits x = (lowBits x).reverse := by
  apply ext_getElem
  · simp only [highBits, lowBits, length_map, length_range, length_reverse]
  · intro i _ _
    simp only [highBits, lowBits, getElem_map, getElem_range, List.getElem_reverse, length_map, length_range]

theorem highFirst_reverse (bytes : List UInt8) : highFirst bytes.reverse = (lowFirst bytes).reverse := by
  have byte (b : UInt8) : (range 8).map b.toBitVec.getMsbD = ((range 8).map b.toBitVec.getLsbD).reverse := by
    simp [range_succ, BitVec.getMsbD_eq_getLsbD]
  induction bytes with
  | nil => rfl
  | cons b bytes ih =>
    rw [reverse_cons, highFirst, flatMap_append, ← highFirst, ih, flatMap_cons,
      flatMap_nil, append_nil, byte, ← List.reverse_append, lowFirst, lowFirst,
      flatMap_cons]

theorem mmShuffleEpi8_rev (x : BitVec 128) : mmShuffleEpi8 x crcMsbRev = mmLoadu (mmStoreu x).reverse := by
  -- The control is a constant that names the bytes from the last to the first.
  rw [mmShuffleEpi8]
  exact congrArg mmLoadu rfl

section High

variable {w : Nat} (poly : BitVec w)

/-- What a word sent with the highest bit first leaves in a register. -/
def highValue {n : Nat} (x : BitVec n) : BitVec w := value (forwardBit poly) (highBits x)

/-- The register with one bit in it. -/
def highOne : BitVec w := forwardBit poly 0 true

theorem highValue_linear {n : Nat} : XorLinear (@highValue w poly n) := (forward_feeds poly).high_linear

theorem value_highFirst (wide : 8 ≤ w) (bytes : List UInt8) :
    value (forwardBit poly) (highFirst bytes) = (forward poly).run 0#w bytes :=
  (forward_run poly wide 0#w bytes).symm

theorem highValue_crcMsbLoad (wide : 8 ≤ w) {data : List UInt8} (long : 16 ≤ data.length) :
    highValue poly (crcMsbLoad data) = (forward poly).run 0#w (data.take 16) := by
  have length : (data.take 16).reverse.length = 16 := by
    rw [length_reverse, length_take]
    omega
  rw [highValue, crcMsbLoad, mmShuffleEpi8_rev, mmStoreu_mmLoadu long, highBits_eq,
    lowBits_mmLoadu (Nat.le_of_eq length.symm), take_of_length_le (Nat.le_of_eq length),
    ← highFirst_reverse, reverse_reverse, value_highFirst poly wide]

theorem run_mmStoreu (wide : 8 ≤ w) (x : BitVec 128) :
    (forward poly).run 0#w (mmStoreu (mmShuffleEpi8 x crcMsbRev)) = highValue poly x := by
  have length : (mmStoreu x).reverse.length = 16 := by rw [length_reverse, length_mmStoreu]
  rw [mmShuffleEpi8_rev, mmStoreu_mmLoadu (Nat.le_of_eq length.symm),
    take_of_length_le (Nat.le_of_eq length), ← value_highFirst poly wide, highFirst_reverse,
    lowFirst_mmStoreu, ← highBits_eq]
  rfl

theorem highValue_halves (x : BitVec 128) : highValue poly x =
      (forward poly).skip 64 (highValue poly (highHalf x)) ^^^ highValue poly (lowHalf x) := by
  have length : (highBits (lowHalf x)).length = 64 := by rw [highBits, length_map, length_range]
  rw [highValue, highBits_eq, @lowBits_split 64 64 x, List.reverse_append, ← highBits_eq,
    ← highBits_eq, (forward_feeds poly).value_append]
  show (forward poly).skip (highBits (lowHalf x)).length _ ^^^ _ = _
  rw [length]
  rfl

theorem crcMsbK_halves (hi lo : BitVec 32) :
    highHalf (crcMsbK hi lo) = hi.setWidth 64 ∧ lowHalf (crcMsbK hi lo) = lo.setWidth 64 := by
  unfold highHalf lowHalf crcMsbK mmSetEpi32
  constructor
  all_goals
    apply BitVec.eq_of_getLsbD_eq
    intro i inside
    simp only [BitVec.getLsbD_setWidth, BitVec.getLsbD_ushiftRight, BitVec.getLsbD_append]
  · by_cases low : i < 32
    · simp [inside, low, show ¬ 64 + i < 32 by omega, show ¬ 64 + i - 32 < 32 by omega,
        show 64 + i - 32 - 32 = i by omega]
    · simp [inside, show ¬ 64 + i < 32 by omega, show ¬ 64 + i - 32 < 32 by omega,
        show 64 + i - 32 - 32 = i by omega, low, BitVec.getLsbD_of_ge hi i (by omega)]
  · by_cases low : i < 32
    · simp [inside, low]
    · simp [inside, low, show i - 32 < 32 by omega, BitVec.getLsbD_of_ge lo i (by omega)]

theorem crcMsbFold_value {hi lo : BitVec 32} {moves : Nat}
    (high : highValue poly (hi.setWidth 64) = (forward poly).skip (moves + 64) (highOne poly))
    (low : highValue poly (lo.setWidth 64) = (forward poly).skip moves (highOne poly))
    (x d : BitVec 128) :
    highValue poly (crcMsbFold x (crcMsbK hi lo) d) =
      (forward poly).skip moves (highValue poly x) ^^^ highValue poly d := by
  obtain ⟨highPart, lowPart⟩ := crcMsbK_halves hi lo
  have highProduct : highValue poly (mmClmulepi64 x (crcMsbK hi lo) 0x11) =
      (forward poly).skip (moves + 64) (highValue poly (highHalf x)) := by
    rw [← highPart] at high
    exact (forward_feeds poly).high_clmul high (highHalf x)
  have lowProduct : highValue poly (mmClmulepi64 x (crcMsbK hi lo) 0x00) =
      (forward poly).skip moves (highValue poly (lowHalf x)) := by
    rw [← lowPart] at low
    exact (forward_feeds poly).high_clmul low (lowHalf x)
  rw [crcMsbFold, highValue_linear, highValue_linear, highProduct, lowProduct,
    highValue_halves poly x, skip_xor, skip_skip]

/-- What the folding rests on: the table divides, and each constant stands for its moves. -/
structure CrcMsb.Folds (m : CrcMsb) : Prop where
  wide : 8 ≤ w
  narrow : w ≤ 32
  width : m.width = w
  table : ∀ crc data, m.table crc data = ((forward poly).run (crc.setWidth w) data).setWidth 32
  own : ∀ crc : BitVec w, highValue poly crc = (forward poly).skip w crc
  k576 : highValue poly (m.k576.setWidth 64) = (forward poly).skip 576 (highOne poly)
  k512 : highValue poly (m.k512.setWidth 64) = (forward poly).skip 512 (highOne poly)
  k192 : highValue poly (m.k192.setWidth 64) = (forward poly).skip 192 (highOne poly)
  k128 : highValue poly (m.k128.setWidth 64) = (forward poly).skip 128 (highOne poly)

/-- What has to be evaluated of a polynomial and its constants, each of which is that many bits behind
the one before. -/
def CrcMsb.Evaluated (m : CrcMsb) : Prop :=
  (∀ i < w, highValue poly (BitVec.twoPow w i) = (forward poly).skip w (BitVec.twoPow w i)) ∧
    highValue poly (m.k128.setWidth 64) = (forward poly).skip 128 (highOne poly) ∧
    highValue poly (m.k192.setWidth 64) = (forward poly).skip 64 (highValue poly (m.k128.setWidth 64)) ∧
    highValue poly (m.k512.setWidth 64) = (forward poly).skip 320 (highValue poly (m.k192.setWidth 64)) ∧
    highValue poly (m.k576.setWidth 64) = (forward poly).skip 64 (highValue poly (m.k512.setWidth 64))

variable {poly} {m : CrcMsb}

theorem CrcMsb.Evaluated.folds (evaluated : m.Evaluated poly) (wide : 8 ≤ w) (narrow : w ≤ 32)
    (width : m.width = w) (table : ∀ crc data,
      m.table crc data = ((forward poly).run (crc.setWidth w) data).setWidth 32) :
    m.Folds poly := by
  obtain ⟨bits, k128, k192, k512, k576⟩ := evaluated
  rw [k128, skip_skip] at k192
  rw [k192, skip_skip] at k512
  rw [k512, skip_skip] at k576
  -- Both maps are linear, so that the single bits decide.
  have own := XorLinear.ext (highValue_linear poly) (skip_linear (forward poly) w) bits
  exact ⟨wide, narrow, width, table, congrFun own, k576, k512, k192, k128⟩

variable (folds : m.Folds poly)
include folds

theorem CrcMsb.Folds.start (crc : BitVec 32) : highValue poly (mmSetEpi32 (crc <<< (32 - m.width)) 0 0 0) =
      (forward poly).skip 128 (crc.setWidth w) := by
  have narrow := folds.narrow
  have placed : mmSetEpi32 (crc <<< (32 - m.width)) 0 0 0 = (crc.setWidth w).setWidth 128 <<< (128 - w) := by
    rw [folds.width, mmSetEpi32]
    apply BitVec.eq_of_getLsbD_eq
    intro i inside
    simp only [BitVec.getLsbD_setWidth, BitVec.getLsbD_shiftLeft, BitVec.getLsbD_append]
    by_cases low : i < 128 - w
    · simp [low, inside]
      omega
    · simp [low, inside, show ¬ i < 32 by omega, show ¬ i - 32 < 32 by omega,
        show ¬ i - 32 - 32 < 32 by omega, show i - 32 - 32 - 32 < 32 by omega,
        show ¬ i - 32 - 32 - 32 < 32 - w by omega, show i - (128 - w) < w by omega,
        show i - (128 - w) < 128 by omega,
        show i - 32 - 32 - 32 - (32 - w) = i - (128 - w) by omega]
  rw [placed, highValue, highBits_shiftLeft _ (by omega), (forward_feeds poly).value_between]
  show (forward poly).skip (128 - w) (highValue poly (crc.setWidth w)) = _
  rw [folds.own, skip_skip]
  congr 1
  omega

theorem CrcMsb.Folds.chains {turns : Nat} {chains : Chains}
    {data : List UInt8} (long : 64 * turns ≤ data.length) :
    (crcMsbChains m turns chains data).1.stand (forward poly) (highValue poly) =
        (forward poly).run (chains.stand (forward poly) (highValue poly)) (data.take (64 * turns)) ∧
      (crcMsbChains m turns chains data).2 = data.drop (64 * turns) := by
  induction turns generalizing chains data with
  | zero =>
    rw [crcMsbChains, Nat.mul_zero, take_zero, drop_zero, run_nil]
    exact ⟨rfl, rfl⟩
  | succ turns ih =>
    have further : 64 * turns ≤ (data.drop 64).length := by
      rw [length_drop]
      omega
    have folded (x : BitVec 128) (place : Nat) (inside : place + 16 ≤ 64) :
        highValue poly (crcMsbFold x (crcMsbK m.k576 m.k512) (crcMsbLoad (data.drop place))) =
          (forward poly).skip 512 (highValue poly x) ^^^
            (forward poly).run 0#w ((data.drop place).take 16) := by
      rw [crcMsbFold_value poly folds.k576 folds.k512, highValue_crcMsbLoad poly folds.wide]
      rw [length_drop]
      omega
    have step := @Chains.stand_step w (forward poly) (highValue poly) chains
      (chains.crcMsbFold m data) data (by omega) (folded chains.x0 0 (by decide))
      (folded chains.x1 16 (by decide)) (folded chains.x2 32 (by decide))
      (folded chains.x3 48 (by decide))
    obtain ⟨value, rest⟩ := @ih (chains.crcMsbFold m data) (data.drop 64) further
    rw [crcMsbChains]
    exact run_blocks _ step value rest

theorem CrcMsb.Folds.tailLoop {turns : Nat} {x : BitVec 128}
    {data : List UInt8} (long : 16 * turns ≤ data.length) :
    highValue poly (crcMsbTailLoop m turns x data).1 =
        (forward poly).run (highValue poly x) (data.take (16 * turns)) ∧
      (crcMsbTailLoop m turns x data).2 = data.drop (16 * turns) := by
  induction turns generalizing x data with
  | zero =>
    rw [crcMsbTailLoop, Nat.mul_zero, take_zero, drop_zero, run_nil]
    exact ⟨rfl, rfl⟩
  | succ turns ih =>
    have further : 16 * turns ≤ (data.drop 16).length := by
      rw [length_drop]
      omega
    have taken : (data.take 16).length = 16 := by
      rw [length_take]
      omega
    have step : highValue poly (crcMsbFold x (crcMsbK m.k192 m.k128) (crcMsbLoad data)) =
        (forward poly).run (highValue poly x) (data.take 16) := by
      rw [crcMsbFold_value poly folds.k192 folds.k128,
        highValue_crcMsbLoad poly folds.wide (by omega), (forward poly).run_split (highValue poly x),
        taken]
    obtain ⟨value, rest⟩ := @ih (crcMsbFold x (crcMsbK m.k192 m.k128) (crcMsbLoad data))
      (data.drop 16) further
    rw [crcMsbTailLoop]
    exact run_blocks _ step value rest

theorem CrcMsb.Folds.tail (x : BitVec 128) (data : List UInt8) :
    crcMsbTail m x data = ((forward poly).run (highValue poly x) data).setWidth 32 := by
  obtain ⟨value, rest⟩ := @CrcMsb.Folds.tailLoop w poly m folds (data.length / 16) x data (mul_div_le _ _)
  have whole (crc : BitVec w) : (crc.setWidth 32).setWidth w = crc := by
    rw [BitVec.setWidth_setWidth_of_le _ folds.narrow, BitVec.setWidth_eq]
  have empty : (0 : BitVec 32).setWidth w = 0#w := BitVec.setWidth_zero w 32
  simp only [crcMsbTail, rest]
  rw [folds.table, folds.table, whole, empty, run_mmStoreu poly folds.wide, value,
    ← run_append, take_append_drop]

theorem CrcMsb.Folds.pclmul (crc : BitVec 32) {data : List UInt8}
    (long : 64 ≤ data.length) : crcMsbPclmul m crc data = m.table crc data := by
  have loaded (place : Nat) (inside : place + 16 ≤ 64) : highValue poly (crcMsbLoad (data.drop place)) =
        (forward poly).run 0#w ((data.drop place).take 16) := by
    apply highValue_crcMsbLoad poly folds.wide
    rw [length_drop]
    omega
  -- The register enters with the first sixteen bytes.
  have begun : (crcMsbStart m crc data).stand (forward poly) (highValue poly) =
      (forward poly).run (crc.setWidth w) (data.take 64) := by
    rw [run_sixtyFour (forward poly) _ long]
    simp only [Chains.stand, crcMsbStart, loaded 16 (by decide), loaded 32 (by decide),
      loaded 48 (by decide)]
    rw [highValue_linear, folds.start, show crcMsbLoad data = crcMsbLoad (data.drop 0) from rfl,
      loaded 0 (by decide), skip_xor, skip_skip, drop_zero,
      BitVec.xor_comm ((forward poly).skip _ ((forward poly).run 0#w _)), BitVec.xor_assoc]
  obtain ⟨value, rest⟩ := @CrcMsb.Folds.chains w poly m folds ((data.length - 64) / 64)
    (crcMsbStart m crc data) (data.drop 64) (by rw [length_drop]; omega)
  simp only [crcMsbPclmul]
  generalize crcMsbChains m ((data.length - 64) / 64) (crcMsbStart m crc data) (data.drop 64) = after
    at value rest ⊢
  have collapsed : highValue poly (crcMsbFold (crcMsbFold (crcMsbFold after.1.x0
      (crcMsbK m.k192 m.k128) after.1.x1) (crcMsbK m.k192 m.k128) after.1.x2)
      (crcMsbK m.k192 m.k128) after.1.x3) = after.1.stand (forward poly) (highValue poly) := by
    simp only [crcMsbFold_value poly folds.k192 folds.k128, skip_xor, skip_skip,
      Nat.reduceAdd, Chains.stand, BitVec.xor_assoc]
  rw [folds.tail, collapsed, value, rest, begun, ← run_append, take_append_drop,
    ← run_append, take_append_drop, folds.table]

end High

theorem crcMsb_evaluated :
    crcMsbOgg.Evaluated (0x04C11DB7 : BitVec 32) ∧ crcMsbC16.Evaluated (0x1021 : BitVec 16) := by
  unfold CrcMsb.Evaluated
  decide +kernel

theorem crcMsbOgg_folds : crcMsbOgg.Folds (0x04C11DB7 : BitVec 32) := by
  refine crcMsb_evaluated.1.folds (by decide) (by decide) rfl fun crc data => ?_
  rw [BitVec.setWidth_eq, BitVec.setWidth_eq]
  exact crc32OggTable_eq crc data

theorem crcMsbC16_folds : crcMsbC16.Folds (0x1021 : BitVec 16) := by
  refine crcMsb_evaluated.2.folds (by decide) (by decide) rfl fun crc data => ?_
  show crc16CcittTable crc data = _
  rw [crc16CcittTable, crc16CcittLoop_eq, crc16CcittRegister]

/-- The folded CRCs are those of the tables, from any register, at every length they are used for. -/
theorem pclmul_table (crc : BitVec 32) (data : List UInt8) : crc32Pclmul crc data = crc32SliceBy8 crc data ∧
      (64 ≤ data.length → crcMsbPclmul crcMsbOgg crc data = crc32OggTable crc data ∧
        crcMsbPclmul crcMsbC16 crc data = crc16CcittTable crc data) :=
  ⟨crc32Pclmul_eq crc data, fun long => ⟨crcMsbOgg_folds.pclmul crc long, crcMsbC16_folds.pclmul crc long⟩⟩

/-- The shortest string that is folded. -/
theorem pclmul_table_zeros :
    crcMsbPclmul crcMsbOgg 1 (List.replicate 64 0) = crc32OggTable 1 (List.replicate 64 0) ∧
      crcMsbPclmul crcMsbC16 1 (List.replicate 64 0) = crc16CcittTable 1 (List.replicate 64 0) :=
  (pclmul_table 1 (replicate 64 0)).2 (by decide)

end Libretro.Crc
