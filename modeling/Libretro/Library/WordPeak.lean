import Mathlib.Algebra.GroupWithZero.Nat
import Mathlib.Algebra.Order.BigOperators.Group.List
import Mathlib.Algebra.Order.Group.Nat

/-! Words of a width, computed beside the largest number that a word was cut from. -/

namespace WordPeak

open List

/-- A computation that carries the largest sum it has formed. -/
abbrev Peak := StateM Nat

variable {α β : Type} {width : Nat}

/-- A number is formed and its low bits are kept. -/
def word (width value : Nat) : Peak Nat := fun peak => (value % 2 ^ width, max peak value)

/-- Numbers are formed side by side, each in a word of its own. -/
def words (width : Nat) (values : List Nat) : Peak (List Nat) :=
  fun peak => (values.map (· % 2 ^ width), values.foldl max peak)

/-- A computation gives a value and forms no number that a word cannot hold. -/
def Fits (width : Nat) (run : Peak α) (value : α) : Prop :=
  ∀ peak < 2 ^ width, ∃ last < 2 ^ width, run peak = (value, last)

theorem Fits.pure (value : α) : Fits width (Pure.pure value) value := fun peak low => ⟨peak, low, rfl⟩

theorem Fits.bind {first : Peak α} {next : α → Peak β} {value : α} {last : β}
    (fits : Fits width first value) (onward : Fits width (next value) last) :
    Fits width (first >>= next) last := by
  intro peak low
  -- The peak that the first part leaves is where the second part starts.
  obtain ⟨middle, low, ran⟩ := fits peak low
  obtain ⟨final, low, onward⟩ := onward middle low
  refine ⟨final, low, ?_⟩
  change (next (first peak).1) (first peak).2 = _
  rw [ran]
  exact onward

theorem Fits.word {value : Nat} (low : value < 2 ^ width) : Fits width (word width value) value := by
  intro peak small
  refine ⟨max peak value, max_lt small low, ?_⟩
  simp [WordPeak.word, Nat.mod_eq_of_lt low]

theorem Fits.words {values : List Nat} (low : ∀ value ∈ values, value < 2 ^ width) :
    Fits width (words width values) values := by
  intro peak small
  refine ⟨values.foldl max peak, ?_, ?_⟩
  -- The largest of them is one of them, or the peak from before.
  · induction values generalizing peak with
    | nil => exact small
    | cons value rest ih =>
      exact ih (fun value inRest => low value (mem_cons_of_mem _ inRest)) _
        (max_lt small (low value mem_cons_self))
  · have same : values.map (· % 2 ^ width) = values := by
      apply (map_congr_left fun value inside => Nat.mod_eq_of_lt (low value inside)).trans
      exact map_id' values
    simp [WordPeak.words, same]

theorem Fits.words_of_sum {values : List Nat} (low : values.sum < 2 ^ width) :
    Fits width (WordPeak.words width values) values := by
  apply Fits.words
  intro value inside
  exact lt_of_le_of_lt (single_le_sum (by simp) value inside) low

end WordPeak
