import Mathlib.Data.List.Range
import Mathlib.Logic.Function.Basic

/-! The cells of an array between two places, read as a list. -/

namespace Cells

open List

variable {α : Type} {a b : Nat → α} {low count more place : Nat}

/-- The contents of as many cells, from a place on. -/
def cells (a : Nat → α) (low count : Nat) : List α := (List.range' low count).map a

@[simp] theorem cells_length : (cells a low count).length = count := by simp [cells]

@[simp] theorem cells_zero : cells a low 0 = [] := rfl

theorem cells_succ : cells a low (count + 1) = a low :: cells a (low + 1) count := by
  simp [cells, range'_succ]

theorem cells_add : cells a low (count + more) = cells a low count ++ cells a (low + count) more := by
  rw [cells, cells, cells, ← map_append, range'_append_1]

theorem cells_concat : cells a low (count + 1) = cells a low count ++ [a (low + count)] := by
  rw [cells_add, cells_succ, cells_zero]

theorem cells_congr (same : ∀ place, low ≤ place → place < low + count → a place = b place) :
    cells a low count = cells b low count := by
  apply map_congr_left
  intro place inside
  rw [mem_range'_1] at inside
  exact same place inside.1 inside.2

theorem cells_take : (cells a low more).take count = cells a low (min count more) := by
  rcases Nat.le_total count more with enough | short
  · obtain ⟨rest, rfl⟩ := Nat.exists_eq_add_of_le enough
    rw [cells_add, take_left' cells_length, Nat.min_eq_left enough]
  · rw [take_of_length_le (by simpa using short), Nat.min_eq_right short]

theorem cells_drop : (cells a low more).drop count = cells a (low + count) (more - count) := by
  rcases Nat.le_total count more with enough | short
  · obtain ⟨rest, rfl⟩ := Nat.exists_eq_add_of_le enough
    rw [cells_add, drop_left' cells_length, Nat.add_sub_cancel_left]
  · rw [drop_of_length_le (by simpa using short), Nat.sub_eq_zero_of_le short, cells_zero]

theorem cells_update (outside : place < low ∨ low + count ≤ place) (content : α) :
    cells (Function.update a place content) low count = cells a low count := by
  apply cells_congr
  intro other least most
  apply Function.update_of_ne
  omega

end Cells
