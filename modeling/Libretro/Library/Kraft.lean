import Mathlib.Algebra.BigOperators.Group.List.Lemmas
import Mathlib.Data.Rat.Cast.Defs
import Mathlib.Tactic.FieldSimp
import Mathlib.Tactic.Linarith
import Mathlib.Tactic.Ring

/-! Kraft sums: the share of all code words that codes of given lengths begin. -/

namespace Kraft

open List

variable {lengths others : List Nat} {bits : Nat}

/-- The Kraft sum of code lengths. -/
def sum (lengths : List Nat) : ℚ := (lengths.map fun len => (1 / 2 : ℚ) ^ len).sum

/-- The code words of `bits` bits that codes of these lengths begin. -/
def places (bits : Nat) (lengths : List Nat) : Nat := (lengths.map fun len => 2 ^ (bits - len)).sum

@[simp] theorem sum_nil : sum [] = 0 := rfl

@[simp] theorem sum_cons (len : Nat) : sum (len :: lengths) = (1 / 2) ^ len + sum lengths := by
  rw [sum, map_cons, List.sum_cons, sum]

@[simp] theorem places_nil : places bits [] = 0 := rfl

@[simp] theorem places_cons (len : Nat) :
    places bits (len :: lengths) = 2 ^ (bits - len) + places bits lengths := by
  rw [places, map_cons, List.sum_cons, places]

theorem sum_append : sum (lengths ++ others) = sum lengths + sum others := by
  rw [sum, map_append, List.sum_append, sum, sum]

theorem sum_perm (same : lengths.Perm others) : sum lengths = sum others := (same.map _).sum_eq

theorem places_perm (same : lengths.Perm others) : places bits lengths = places bits others :=
  (same.map _).sum_eq

theorem sum_nonneg : 0 ≤ sum lengths := by
  induction lengths with
  | nil => exact le_refl _
  | cons len lengths ih =>
    rw [sum_cons]
    positivity

theorem places_eq (short : ∀ len ∈ lengths, len ≤ bits) :
    (places bits lengths : ℚ) = 2 ^ bits * sum lengths := by
  induction lengths with
  | nil => simp
  | cons len lengths ih =>
    -- Two to the power of what is left of the bits.
    have here := short len mem_cons_self
    have share : (2 : ℚ) ^ (bits - len) = 2 ^ bits * (1 / 2) ^ len := by
      rw [pow_sub₀ 2 two_ne_zero here, one_div, inv_pow]
    rw [places_cons, sum_cons, Nat.cast_add, ih fun other listed =>
      short other (mem_cons_of_mem _ listed), Nat.cast_pow, Nat.cast_ofNat, share]
    ring

theorem sum_filter_lt {kept : Nat → Bool} {len : Nat} (listed : len ∈ lengths)
    (out : kept len = false) : sum (lengths.filter kept) < sum lengths := by
  have split := sum_perm (lengths.filter_append_perm kept)
  have inside : len ∈ lengths.filter (!kept ·) := mem_filter.2 ⟨listed, by rw [out, Bool.not_false]⟩
  obtain ⟨front, back, parts⟩ := append_of_mem inside
  have front_nonneg := @sum_nonneg front
  have back_nonneg := @sum_nonneg back
  have positive : (0 : ℚ) < (1 / 2) ^ len := by positivity
  rw [sum_append, parts, sum_append, sum_cons] at split
  linarith

theorem sum_le_min : sum lengths ≤ sum (lengths.map (min · bits)) := by
  induction lengths with
  | nil => exact le_refl _
  | cons len lengths ih =>
    have shorter : (1 / 2 : ℚ) ^ len ≤ (1 / 2) ^ min len bits :=
      pow_le_pow_of_le_one (by norm_num) (by norm_num) (Nat.min_le_left len bits)
    rw [map_cons, sum_cons, sum_cons]
    linarith

/-- The leaves of a binary tree have the Kraft sum one, when every node but the root is the child
of one inner node. -/
theorem sum_leaves {ν : Type*} {left right : ν → ν} {depth : ν → Nat} {inner leaves : List ν} {root : ν}
    (tree : (root :: inner.flatMap fun node => [left node, right node]).Perm (leaves ++ inner))
    (top : depth root = 0) (lefts : ∀ node ∈ inner, depth (left node) = depth node + 1)
    (rights : ∀ node ∈ inner, depth (right node) = depth node + 1) :
    sum (leaves.map depth) = 1 := by
  -- Two children share what their parent has, so inner nodes cancel out.
  have children : sum ((inner.flatMap fun node => [left node, right node]).map depth) =
      sum (inner.map depth) := by
    clear tree
    induction inner with
    | nil => rfl
    | cons node inner ih =>
      rw [flatMap_cons, map_append, sum_append, map_cons, sum_cons, ih
        (fun other listed => lefts other (mem_cons_of_mem _ listed))
        (fun other listed => rights other (mem_cons_of_mem _ listed))]
      have leftDepth := lefts node mem_cons_self
      have rightDepth := rights node mem_cons_self
      simp only [map_cons, map_nil, sum_cons, sum_nil, leftDepth, rightDepth, pow_succ]
      ring
  have total := sum_perm (tree.map depth)
  rw [map_cons, map_append, sum_cons, sum_append, children, top, pow_zero] at total
  linarith

end Kraft
