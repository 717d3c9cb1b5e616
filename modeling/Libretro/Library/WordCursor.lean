import Mathlib.Data.Nat.ModEq
import Mathlib.Data.BitVec

/-! Cursors that only ever advance, kept in a machine word that wraps. -/

namespace WordCursor

open BitVec Nat

variable {w : Nat}

theorem distance_eq {older newer : Nat} (ordered : older ≤ newer) :
    BitVec.ofNat w newer - BitVec.ofNat w older = BitVec.ofNat w (newer - older) := by
  -- Adding the older position back gives the newer one on both sides.
  rw [BitVec.sub_eq_iff_eq_add, ofNat_add_ofNat, Nat.sub_add_cancel ordered]

theorem distance_toNat {older newer : Nat} (ordered : older ≤ newer) (short : newer - older < 2 ^ w) :
    (BitVec.ofNat w newer - BitVec.ofNat w older).toNat = newer - older := by
  rw [distance_eq ordered, BitVec.toNat_ofNat, mod_eq_of_lt short]

theorem advance_eq (position : Nat) (step : BitVec w) :
    BitVec.ofNat w position + step = BitVec.ofNat w (position + step.toNat) := by
  apply eq_of_toNat_eq
  simp [toNat_add, BitVec.toNat_ofNat]

theorem and_mask_toNat {mask : BitVec w} {log : Nat} (size : mask.toNat + 1 = 2 ^ log)
    (word : BitVec w) : (word &&& mask).toNat = word.toNat % (mask.toNat + 1) := by
  -- The mask has exactly its low bits set.
  have low : mask.toNat = 2 ^ log - 1 := by omega
  rw [toNat_and, size, low, and_two_pow_sub_one_eq_mod]

theorem ofNat_mod_pow {log : Nat} (fits : log ≤ w) (position : Nat) :
    (BitVec.ofNat w position).toNat % 2 ^ log = position % 2 ^ log := by
  -- The slot count divides the word's range, so wrapping first changes nothing.
  rw [BitVec.toNat_ofNat, mod_mod_of_dvd _ (pow_dvd_pow 2 fits)]

theorem isPowerOfTwo_of_and_pred {word : BitVec w} (nonzero : word ≠ 0#w)
    (disjoint : word &&& (word - 1#w) = 0#w) : word.toNat.isPowerOfTwo := by
  -- Below a nonzero word the predecessor does not wrap, so the test is the one on numbers.
  have positive : word.toNat ≠ 0 := fun zero => nonzero (eq_of_toNat_eq (by simpa using zero))
  have one : (1#w).toNat = 1 := by rw [BitVec.toNat_ofNat, mod_eq_of_lt (by have := word.isLt; omega)]
  have below : 1#w ≤ word := by rw [le_def, one]; omega
  have test := congrArg BitVec.toNat disjoint
  rw [toNat_and, toNat_sub_of_le below, one] at test
  exact (and_sub_one_eq_zero_iff_isPowerOfTwo positive).mp (by simpa using test)

theorem slot_ne {size left right : Nat} (ordered : left < right) (near : right - left < size) :
    left % size ≠ right % size := by
  -- Equal slots would make the distance a multiple of the lap.
  intro same
  have divides : size ∣ right - left := (modEq_iff_dvd' (le_of_lt ordered)).mp same
  exact absurd (le_of_dvd (by omega) divides) (by omega)

theorem slot_add {size position step : Nat} : (position % size + step) % size = (position + step) % size := by
  rw [mod_add_mod]

end WordCursor
