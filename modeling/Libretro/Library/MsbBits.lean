import Mathlib.Tactic.Ring

/-! Streams of bits whose bytes give their highest bit first, and the numbers that windows make. -/

namespace MsbBits

open List

/-- The bit of a string of bytes at a place, and zero past its end. -/
def bit (data : List UInt8) (place : Nat) : Nat := (data.getD (place / 8) 0).toNat / 2 ^ (7 - place % 8) % 2

/-- The number that some bits from a place on make, the first one highest. -/
def window (data : List UInt8) (place : Nat) : Nat → Nat
  | 0 => 0
  | n + 1 => 2 * window data place n + bit data (place + n)

variable {data : List UInt8}

theorem bit_lt (place : Nat) : bit data place < 2 := Nat.mod_lt _ (by decide)

theorem window_lt (place n : Nat) : window data place n < 2 ^ n := by
  induction n with
  | zero => exact Nat.one_pos
  | succ n ih =>
    have last : bit data (place + n) < 2 := bit_lt _
    rw [window, Nat.pow_succ]
    omega

theorem window_add (place n m : Nat) :
    window data place (n + m) = window data place n * 2 ^ m + window data (place + n) m := by
  induction m with
  | zero => simp [window]
  | succ m ih =>
    rw [← Nat.add_assoc, window, ih, window, Nat.pow_succ, Nat.add_assoc place n m]
    ring

theorem window_byte_le (index : Nat) {n : Nat} (short : n ≤ 8) :
    window data (8 * index) n = (data.getD index 0).toNat / 2 ^ (8 - n) := by
  induction n with
  | zero =>
    have small : (data.getD index 0).toNat < 2 ^ 8 := UInt8.toNat_lt _
    rw [window, Nat.sub_zero, Nat.div_eq_of_lt small]
  | succ n ih =>
    have place : (8 * index + n) / 8 = index := by omega
    have offset : 7 - (8 * index + n) % 8 = 8 - (n + 1) := by omega
    have halves : 8 - n = (8 - (n + 1)) + 1 := by omega
    rw [window, ih (by omega), bit, place, offset, halves, Nat.pow_succ, ← Nat.div_div_eq_div_mul]
    omega

theorem window_byte (index : Nat) : window data (8 * index) 8 = (data.getD index 0).toNat := by
  rw [window_byte_le index (Nat.le_refl 8), Nat.sub_self, Nat.pow_zero, Nat.div_one]

/-- The bits of a string of bytes. -/
def bits (data : List UInt8) : List Nat := (List.range (8 * data.length)).map (bit data)

/-- The bits of a number that is written with some width. -/
def digits (value : Nat) : Nat → List Nat
  | 0 => []
  | n + 1 => digits (value / 2) n ++ [value % 2]

@[simp] theorem length_digits (value n : Nat) : (digits value n).length = n := by
  induction n generalizing value with
  | zero => rfl
  | succ n ih => rw [digits, length_append, ih, length_singleton]

/-- Where the bits of a number stand, a window of its width makes the number. -/
theorem window_digits {value n place : Nat} (small : value < 2 ^ n)
    (stands : digits value n <+: (bits data).drop place) : window data place n = value := by
  induction n generalizing value with
  | zero =>
    rw [Nat.pow_zero] at small
    rw [window]
    omega
  | succ n ih =>
    rw [digits] at stands
    have half : value / 2 < 2 ^ n := by
      rw [Nat.pow_succ] at small
      omega
    have front := ih half ((prefix_append _ _).trans stands)
    -- The last bit of the number is the one after those of its half.
    have last : ((bits data).drop place)[n]? = some (value % 2) := by
      obtain ⟨rest, e⟩ := stands
      rw [← e, List.append_assoc, getElem?_append_right (by rw [length_digits]), length_digits,
        Nat.sub_self]
      rfl
    rw [getElem?_drop, bits, getElem?_map, Option.map_eq_some_iff] at last
    obtain ⟨index, found, e⟩ := last
    obtain rfl : index = place + n := by
      have inside := (List.getElem?_eq_some_iff.1 found).2
      rw [getElem_range] at inside
      exact inside.symm
    rw [window, front, e]
    omega

end MsbBits
