import Libretro.Library.Substring
import Mathlib.Algebra.GroupWithZero.Nat

/-! Replacing every occurrence of a pattern in a string. -/

namespace Libretro.Strings

open Option Substring Nat
open List hiding replace

/-- The first pass counts the occurrences; `none` while it has not come to an end. -/
def countHits (pattern : List UInt8) : Nat → List UInt8 → Option Nat
  | 0, _ => none
  | fuel + 1, inat =>
    match find pattern inat with
    | none => some 0
    | some place => (countHits pattern fuel (inat.drop (place + pattern.length))).map (· + 1)

/-- The second pass copies what lies between the occurrences and puts the replacement in their
place; behind the last one the rest is copied with its terminator. -/
def buildLoop (pattern replacement : List UInt8) : Nat → List UInt8 → Option (List UInt8)
  | 0, _ => none
  | fuel + 1, inprev =>
    match find pattern inprev with
    | none => some (inprev ++ [0])
    | some place =>
      (buildLoop pattern replacement fuel (inprev.drop (place + pattern.length))).map fun rest =>
        inprev.take place ++ (replacement ++ rest)

/-- How many bytes are allocated, and the bytes that are written to them. -/
structure Allocated where
  size : Nat
  bytes : List UInt8
deriving DecidableEq

/-- A copy of the input with the pattern replaced, or of the input as it is where one of the two is
missing; sizes are words of 64 bits. -/
def stringReplaceSubstring (fuel : Nat) (input : List UInt8)
    (pattern replacement : Option (List UInt8)) : Option Allocated :=
  match pattern, replacement with
  | some pattern, some replacement => do
    let numhits ← countHits pattern fuel input
    let len := (input.length - pattern.length * numhits + replacement.length * numhits) % 2 ^ 64
    let bytes ← buildLoop pattern replacement fuel input
    return { size := (len + 1) % 2 ^ 64, bytes := bytes }
  | _, _ => some { size := input.length + 1, bytes := input ++ [0] }

section Passes

variable {pattern replacement : List UInt8}

theorem passes_agree (nonempty : pattern ≠ []) {fuel : Nat} {text : List UInt8}
    (enough : text.length < fuel) :
    ∃ numhits, countHits pattern fuel text = some numhits ∧
      buildLoop pattern replacement fuel text = some (replace pattern replacement text ++ [0]) ∧
      pattern.length * numhits ≤ text.length ∧
      (replace pattern replacement text).length =
        text.length - pattern.length * numhits + replacement.length * numhits := by
  -- Every occurrence takes at least one byte of the text.
  induction fuel generalizing text with
  | zero => cases enough
  | succ fuel ih =>
    unfold countHits buildLoop
    cases found : find pattern text with
    | none =>
      refine ⟨0, rfl, ?_, zero_le _, ?_⟩
      · rw [replace_none found]
      · rw [replace_none found]
        rfl
    | some place =>
      dsimp only
      have inside := find_le found
      have positive := length_pos_of_ne_nil nonempty
      have shorter : (text.drop (place + pattern.length)).length =
          text.length - (place + pattern.length) := length_drop
      obtain ⟨numhits, counts, builds, fits, length⟩ := @ih (text.drop (place + pattern.length)) (by omega)
      refine ⟨numhits + 1, by rw [counts]; rfl, ?_, ?_, ?_⟩
      · rw [builds, replace_some nonempty found]
        simp
      · rw [mul_succ]
        omega
      · rw [replace_some nonempty found, length_append, length_append, length, shorter,
          length_take, mul_succ, mul_succ]
        omega

theorem countHits_nil (fuel : Nat) (text : List UInt8) : countHits [] fuel text = none := by
  induction fuel with
  | zero => rfl
  | succ fuel ih =>
    rw [countHits, find_nil]
    simpa using ih

theorem stringReplaceSubstring_some (fuel : Nat) (input : List UInt8) :
    stringReplaceSubstring fuel input (some pattern) (some replacement) =
      (countHits pattern fuel input).bind fun numhits =>
        (buildLoop pattern replacement fuel input).map fun bytes =>
          { size := ((input.length - pattern.length * numhits + replacement.length * numhits) %
              2 ^ 64 + 1) % 2 ^ 64
            bytes := bytes } := by
  unfold stringReplaceSubstring
  dsimp only
  cases countHits pattern fuel input with
  | none => rfl
  | some numhits => cases buildLoop pattern replacement fuel input <;> rfl

/-- The call returns the replaced string in an allocation that fits it exactly if the pattern is not
empty and the size of the result is a size. -/
theorem stringReplaceSubstring_iff (input pattern replacement : List UInt8) :
    (∃ fuel result, stringReplaceSubstring fuel input (some pattern) (some replacement) = some result ∧
      result.bytes = replace pattern replacement input ++ [0] ∧
      result.size = result.bytes.length) ↔
    pattern ≠ [] ∧ (replace pattern replacement input).length + 1 < 2 ^ 64 := by
  constructor
  · rintro ⟨fuel, result, returns, bytes, size⟩
    rw [stringReplaceSubstring_some] at returns
    constructor
    · -- The first pass does not get past an empty pattern.
      rintro rfl
      rw [countHits_nil] at returns
      cases returns
    · -- A size is what is left of the length when it has wrapped around.
      obtain ⟨numhits, -, builds⟩ := bind_eq_some_iff.1 returns
      obtain ⟨written, -, rfl⟩ := map_eq_some_iff.1 builds
      dsimp only at bytes size
      rw [bytes, length_append, length_singleton] at size
      rw [← size]
      exact Nat.mod_lt _ (Nat.two_pow_pos 64)
  · rintro ⟨nonempty, fits⟩
    obtain ⟨numhits, counts, builds, -, length⟩ :=
      @passes_agree pattern replacement nonempty (input.length + 1) input (lt_succ_self _)
    refine ⟨input.length + 1,
      { size := (replace pattern replacement input).length + 1
        bytes := replace pattern replacement input ++ [0] }, ?_, rfl, ?_⟩
    · rw [stringReplaceSubstring_some, counts, bind_some, builds, map_some, ← length,
        mod_eq_of_lt (lt_of_succ_lt fits), mod_eq_of_lt fits]
    · dsimp only
      rw [length_append, length_singleton]

/-- An empty pattern keeps the first pass going for ever. -/
theorem stringReplaceSubstring_empty :
    ¬∃ fuel result, stringReplaceSubstring fuel [0x61] (some []) (some [0x62]) = some result ∧
      result.bytes = replace [] [0x62] [0x61] ++ [0] ∧ result.size = result.bytes.length := by
  rintro ⟨fuel, result, returns, -⟩
  rw [stringReplaceSubstring_some, countHits_nil] at returns
  cases returns

end Passes

/-- Occurrences that overlap: only the leftmost one is replaced. -/
example : (stringReplaceSubstring 4 [0x61, 0x61, 0x61] (some [0x61, 0x61]) (some [0x62])).map
    Allocated.bytes = some [0x62, 0x61, 0] := by decide

end Libretro.Strings
