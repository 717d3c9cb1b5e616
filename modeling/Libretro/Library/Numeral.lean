import Mathlib.Data.Nat.Digits.Defs

/-! Numbers written in a base, with and without a sign. -/

namespace Numeral

/-- The digits of every base up to sixteen, in order. -/
def alphabet : List UInt8 := [48, 49, 50, 51, 52, 53, 54, 55, 56, 57, 97, 98, 99, 100, 101, 102]

/-- A letter in lower case; any other byte is itself. -/
def lower (c : UInt8) : UInt8 := if 65 ≤ c ∧ c ≤ 90 then c + 32 else c

/-- The digit a byte is in a base. -/
def digit (base : Nat) (c : UInt8) : Option Nat := (alphabet.take base).idxOf? (lower c)

/-- The number a text writes in a base; a text that is empty or has a byte that is no digit writes
none. -/
def number (base : Nat) (text : List UInt8) : Option Nat :=
  if text = [] then none else (text.mapM (digit base)).map fun ds => Nat.ofDigits base ds.reverse

/-- The number of a decimal literal, or of a hexadecimal one behind its `0x`. -/
def literal : List UInt8 → Option Nat
  | 48 :: 120 :: rest => number 16 rest
  | 48 :: 88 :: rest => number 16 rest
  | text => number 10 text

/-- The number of a literal that may have a sign in front. -/
def signedLiteral : List UInt8 → Option Int
  | 45 :: rest => (literal rest).map fun n : Nat => -(n : Int)
  | 43 :: rest => (literal rest).map fun n : Nat => (n : Int)
  | text => (literal text).map fun n : Nat => (n : Int)

theorem ofDigits_reverse_cons (base d : Nat) (ds : List Nat) :
    Nat.ofDigits base (d :: ds).reverse = d * base ^ ds.length + Nat.ofDigits base ds.reverse := by
  rw [List.reverse_cons, Nat.ofDigits_append, Nat.ofDigits_singleton, List.length_reverse,
    Nat.mul_comm, Nat.add_comm]

end Numeral
