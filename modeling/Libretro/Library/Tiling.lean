import Mathlib.Data.List.Basic

/-! Tilings: intervals that follow one another without a gap, each with what it is for. -/

namespace Tiling

open List

universe u

/-- An interval of numbers that belongs to an item. -/
structure Tile (Item : Type u) where
  item : Item
  start : Nat
  width : Nat

variable {Item : Type u}

/-- The first number past a tile. -/
def Tile.stop (tile : Tile Item) : Nat := tile.start + tile.width

/-- A tile holds the numbers from its start up to its end. -/
def Tile.Holds (tile : Tile Item) (place : Nat) : Prop := tile.start ≤ place ∧ place < tile.stop

/-- Tiles fill the numbers from one place to another, in order and without a gap. -/
def Tiles : Nat → List (Tile Item) → Nat → Prop
  | first, [], last => first = last
  | first, tile :: rest, last => tile.start = first ∧ Tiles tile.stop rest last

variable {first last : Nat}

theorem Tiles.append {middle : Nat} {left right : List (Tile Item)}
    (before : Tiles first left middle) (after : Tiles middle right last) :
    Tiles first (left ++ right) last := by
  induction left generalizing first with
  | nil =>
    obtain rfl : first = middle := before
    exact after
  | cons tile rest ih => exact ⟨before.1, ih before.2⟩

variable {tiles : List (Tile Item)}

variable (tiled : Tiles first tiles last)
include tiled

theorem Tiles.le : first ≤ last := by
  induction tiles generalizing first with
  | nil => exact Nat.le_of_eq tiled
  | cons tile rest ih =>
    have further := ih tiled.2
    have start := tiled.1
    simp only [Tile.stop] at further
    omega

theorem Tiles.within {tile : Tile Item} (listed : tile ∈ tiles) : first ≤ tile.start ∧ tile.stop ≤ last := by
  induction tiles generalizing first with
  | nil => exact absurd listed not_mem_nil
  | cons head rest ih =>
    obtain ⟨rfl, further⟩ := tiled
    rcases mem_cons.1 listed with rfl | later
    · exact ⟨Nat.le_refl _, further.le⟩
    · obtain ⟨after, before⟩ := ih further later
      exact ⟨Nat.le_trans (Nat.le_add_right _ _) after, before⟩

theorem Tiles.apart {tile other : Tile Item} (listed : tile ∈ tiles) (listed' : other ∈ tiles)
    (different : tile ≠ other) {place : Nat} (holds : tile.Holds place) : ¬other.Holds place := by
  induction tiles generalizing first with
  | nil => exact absurd listed not_mem_nil
  | cons head rest ih =>
    intro holds'
    have behind : ∀ later ∈ rest, head.stop ≤ later.start := fun later member => (tiled.2.within member).1
    rcases mem_cons.1 listed with rfl | member
    · rcases mem_cons.1 listed' with rfl | member'
      · exact different rfl
      · exact Nat.lt_irrefl _ (Nat.lt_of_lt_of_le holds.2 (Nat.le_trans (behind _ member') holds'.1))
    · rcases mem_cons.1 listed' with rfl | member'
      · exact Nat.lt_irrefl _ (Nat.lt_of_lt_of_le holds'.2 (Nat.le_trans (behind _ member) holds.1))
      · exact ih tiled.2 member member' holds'

theorem Tiles.covers {place : Nat} (past : first ≤ place) (below : place < last) :
    ∃ tile ∈ tiles, tile.Holds place := by
  induction tiles generalizing first with
  | nil =>
    obtain rfl : first = last := tiled
    omega
  | cons head rest ih =>
    obtain ⟨rfl, further⟩ := tiled
    by_cases inside : place < head.stop
    · exact ⟨head, mem_cons_self, past, inside⟩
    · obtain ⟨tile, listed, holds⟩ := ih further (Nat.le_of_not_lt inside)
      exact ⟨tile, mem_cons_of_mem _ listed, holds⟩

end Tiling
