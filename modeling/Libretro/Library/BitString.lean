import Mathlib.Data.Nat.Bitwise
import Mathlib.Tactic.Ring

/-! Strings of bits, the first one lowest, and the parsers that read them from the front. -/

/-- Finitely many bits: bit `i` of the number is the bit in place `i` of the string. -/
structure BitString where
  value : Nat
  length : Nat
  bounded : value < 2 ^ length

namespace BitString

open Nat

/-- The string without bits. -/
def empty : BitString := ⟨0, 0, by decide⟩

/-- One string behind another. -/
def append (left right : BitString) : BitString where
  value := left.value + right.value * 2 ^ left.length
  length := left.length + right.length
  bounded := by
    -- The second string takes whole multiples of what the first one stays below.
    calc left.value + right.value * 2 ^ left.length
        < 2 ^ left.length + right.value * 2 ^ left.length := by have := left.bounded; omega
      _ = (right.value + 1) * 2 ^ left.length := by ring
      _ ≤ 2 ^ right.length * 2 ^ left.length := Nat.mul_le_mul_right _ right.bounded
      _ = 2 ^ (left.length + right.length) := by rw [Nat.pow_add, Nat.mul_comm]

instance : Append BitString := ⟨append⟩

/-- The eight bits of a byte. -/
def ofByte (byte : UInt8) : BitString := ⟨byte.toNat, 8, byte.toNat_lt⟩

/-- The bits of a string of bytes, each byte's lowest bit first. -/
def ofBytes : List UInt8 → BitString
  | [] => empty
  | byte :: rest => ofByte byte ++ ofBytes rest

/-- What is left behind the first bits. -/
def drop (n : Nat) (bits : BitString) : BitString where
  value := bits.value / 2 ^ n
  length := bits.length - n
  bounded := by
    -- Dividing by a power of two shortens the bound by as many places.
    by_cases inside : n ≤ bits.length
    · rw [Nat.div_lt_iff_lt_mul (Nat.two_pow_pos n), ← Nat.pow_add]
      simpa [Nat.sub_add_cancel inside] using bits.bounded
    · have small : bits.value < 2 ^ n :=
        Nat.lt_of_lt_of_le bits.bounded (Nat.pow_le_pow_right (by decide) (by omega))
      simp [Nat.div_eq_of_lt small]

/-- The number the first bits make, the first one lowest. -/
def low (n : Nat) (bits : BitString) : Nat := bits.value % 2 ^ n

@[ext] theorem ext {left right : BitString} (value : left.value = right.value)
    (length : left.length = right.length) : left = right := by
  cases left
  cases right
  simp_all

@[simp] theorem empty_length : empty.length = 0 := rfl

@[simp] theorem empty_value : empty.value = 0 := rfl
@[simp] theorem ofByte_length (byte : UInt8) : (ofByte byte).length = 8 := rfl
@[simp] theorem ofByte_value (byte : UInt8) : (ofByte byte).value = byte.toNat := rfl
@[simp] theorem drop_length (n : Nat) (bits : BitString) : (bits.drop n).length = bits.length - n := rfl
@[simp] theorem drop_value (n : Nat) (bits : BitString) : (bits.drop n).value = bits.value / 2 ^ n := rfl
@[simp] theorem append_length (left right : BitString) :
    (left ++ right).length = left.length + right.length := rfl
@[simp] theorem append_value (left right : BitString) :
    (left ++ right).value = left.value + right.value * 2 ^ left.length := rfl

@[simp] theorem append_empty (bits : BitString) : bits ++ empty = bits := by ext <;> simp

@[simp] theorem empty_append (bits : BitString) : empty ++ bits = bits := by ext <;> simp

theorem append_assoc (first second third : BitString) :
    first ++ second ++ third = first ++ (second ++ third) := by
  ext
  · simp only [append_value, append_length, Nat.pow_add]
    ring
  · simp only [append_length]
    omega

@[simp] theorem ofBytes_nil : ofBytes [] = empty := rfl
@[simp] theorem ofBytes_cons (byte : UInt8) (rest : List UInt8) :
    ofBytes (byte :: rest) = ofByte byte ++ ofBytes rest := rfl

theorem ofBytes_append (left right : List UInt8) :
    ofBytes (left ++ right) = ofBytes left ++ ofBytes right := by
  induction left with
  | nil => simp
  | cons byte rest ih => simp [ih, append_assoc]

@[simp] theorem ofBytes_length (bytes : List UInt8) : (ofBytes bytes).length = 8 * bytes.length := by
  induction bytes with
  | nil => rfl
  | cons byte rest ih =>
    simp only [ofBytes_cons, append_length, ofByte_length, ih, List.length_cons]
    omega

theorem low_append {n : Nat} {left : BitString} (inside : n ≤ left.length) (right : BitString) :
    (left ++ right).low n = left.low n := by
  -- What follows is a multiple of a higher power of two.
  have split : right.value * 2 ^ left.length = 2 ^ n * (right.value * 2 ^ (left.length - n)) := by
    rw [mul_left_comm, ← Nat.pow_add, Nat.add_sub_cancel' inside]
  simp only [low, append_value, split, add_mul_mod_self_left]

theorem drop_append {n : Nat} {left : BitString} (inside : n ≤ left.length)
    (right : BitString) : (left ++ right).drop n = left.drop n ++ right := by
  have split : right.value * 2 ^ left.length = 2 ^ n * (right.value * 2 ^ (left.length - n)) := by
    rw [mul_left_comm, ← Nat.pow_add, Nat.add_sub_cancel' inside]
  ext
  · simp only [drop_value, append_value, drop_length, split]
    rw [add_mul_div_left _ _ (Nat.two_pow_pos n)]
  · simp only [drop_length, append_length]
    omega

theorem drop_drop (n m : Nat) (bits : BitString) : (bits.drop n).drop m = bits.drop (n + m) := by
  ext
  · simp only [drop_value, Nat.pow_add, Nat.div_div_eq_div_mul]
  · simp only [drop_length]
    omega

@[simp] theorem drop_zero (bits : BitString) : bits.drop 0 = bits := by ext <;> simp

@[simp] theorem drop_append_length (left right : BitString) : (left ++ right).drop left.length = right := by
  rw [drop_append (le_refl _)]
  ext
  · simp [div_eq_of_lt left.bounded]
  · simp

theorem ofBytes_drop {bytes : List UInt8} {n : Nat} (inside : n ≤ bytes.length) :
    (ofBytes bytes).drop (8 * n) = ofBytes (bytes.drop n) := by
  have front : (ofBytes (bytes.take n)).length = 8 * n := by
    rw [ofBytes_length, List.length_take]
    omega
  have split : ofBytes bytes = ofBytes (bytes.take n) ++ ofBytes (bytes.drop n) := by
    rw [← ofBytes_append, List.take_append_drop]
  rw [split, ← front, drop_append_length]

/-- The number the lowest `n` bits of a number make when they are read the other way round. -/
@[simp] def reversed (value : Nat) : Nat → Nat
  | 0 => 0
  | n + 1 => 2 * reversed value n + value / 2 ^ n % 2

theorem reversed_lt (value n : Nat) : reversed value n < 2 ^ n := by
  induction n with
  | zero => simp
  | succ n ih =>
    simp only [reversed, pow_succ]
    omega

theorem reversed_mod (value : Nat) {n m : Nat} (inside : n ≤ m) :
    reversed (value % 2 ^ m) n = reversed value n := by
  induction n with
  | zero => rfl
  | succ n ih =>
    -- The bit in place `n` is below the place where the number is cut.
    have bit : value % 2 ^ m / 2 ^ n % 2 = value / 2 ^ n % 2 := by
      have power : 2 ^ m = 2 ^ n * (2 * 2 ^ (m - n - 1)) := by
        rw [← pow_succ', ← Nat.pow_add]
        congr 1
        omega
      rw [power, mod_mul_right_div_self, mod_mul_right_mod]
    simp only [reversed, ih (by omega), bit]

theorem reversed_succ (value n : Nat) :
    reversed value (n + 1) = value % 2 * 2 ^ n + reversed (value / 2) n := by
  induction n with
  | zero => simp
  | succ n ih =>
    rw [reversed, ih, reversed]
    have halves : value / 2 / 2 ^ n = value / 2 ^ (n + 1) := by
      rw [Nat.div_div_eq_div_mul, pow_succ, mul_comm]
    rw [halves, pow_succ]
    ring

theorem reversed_reversed (value n : Nat) : reversed (reversed value n) n = value % 2 ^ n := by
  induction n generalizing value with
  | zero => simp [mod_one]
  | succ n ih =>
    -- The last bit of the reversed number is the highest of the original.
    have odd : reversed value (n + 1) % 2 = value / 2 ^ n % 2 := by
      simp only [reversed]
      omega
    have half : reversed value (n + 1) / 2 = reversed value n := by
      simp only [reversed]
      omega
    rw [reversed_succ, odd, half, ih, mod_pow_succ]
    ring

theorem mod_eq_reversed_iff {value code n : Nat} (fits : code < 2 ^ n) :
    value % 2 ^ n = reversed code n ↔ reversed value n = code := by
  constructor
  · intro same
    rw [← reversed_mod value (le_refl n), same, reversed_reversed, mod_eq_of_lt fits]
  · intro same
    rw [← same, reversed_reversed]

universe u v

/-- What a parser says of a string: it is too short, it is wrong, or something was read. -/
inductive Reply (α : Type u) where
  | short
  | wrong
  | read (value : α) (rest : BitString)

/-- A parser reads from the front of a string. -/
def Parser (α : Type u) : Type u := BitString → Reply α

namespace Parser

variable {α : Type u} {β : Type v}

/-- Nothing is read. -/
def done (value : α) : Parser α := fun bits => .read value bits

/-- No string is right. -/
def never : Parser α := fun _ => .wrong

/-- One parser after another. -/
def andThen (first : Parser α) (next : α → Parser β) : Parser β := fun bits =>
  match first bits with
  | .short => .short
  | .wrong => .wrong
  | .read value rest => next value rest

/-- The number that the next bits make. -/
def number (n : Nat) : Parser Nat := fun bits =>
  if n ≤ bits.length then .read (bits.low n) (bits.drop n) else .short

/-- The bits up to the next byte boundary are skipped. -/
def align : Parser Unit := fun bits => .read () (bits.drop (bits.length % 8))

/-- An answer stays what it is when whole bytes arrive behind the string. -/
def Stable (parser : Parser α) : Prop :=
  ∀ (bits : BitString) (bytes : List UInt8),
    (parser bits = .wrong → parser (bits ++ ofBytes bytes) = .wrong) ∧
    ∀ value rest, parser bits = .read value rest →
      parser (bits ++ ofBytes bytes) = .read value (rest ++ ofBytes bytes)

theorem never_stable : (never : Parser α).Stable := fun _ _ => ⟨fun _ => rfl, nofun⟩

theorem number_stable (n : Nat) : (number n).Stable := by
  intro bits bytes
  by_cases enough : n ≤ bits.length
  · have longer : n ≤ (bits ++ ofBytes bytes).length := by
      rw [append_length]
      omega
    constructor
    · intro wrong
      rw [number, if_pos enough] at wrong
      cases wrong
    · intro value rest read
      rw [number, if_pos enough] at read
      cases read
      rw [number, if_pos longer, low_append enough, drop_append enough]
  · constructor <;> simp [number, enough]

theorem align_stable : align.Stable := by
  intro bits bytes
  refine ⟨nofun, ?_⟩
  intro value rest read
  cases read
  have same : (bits ++ ofBytes bytes).length % 8 = bits.length % 8 := by
    rw [append_length, ofBytes_length, add_mul_mod_self_left]
  rw [align, same, drop_append (mod_le _ _)]

/-- What is read has a property. -/
def Gives (P : α → Prop) (parser : Parser α) : Prop :=
  ∀ bits value rest, parser bits = .read value rest → P value

theorem done_gives {P : α → Prop} {value : α} (holds : P value) : (done value).Gives P := by
  intro bits other rest read
  cases read
  exact holds

theorem never_gives (P : α → Prop) : (never : Parser α).Gives P := nofun

theorem any_gives (parser : Parser α) : parser.Gives fun _ => True := fun _ _ _ _ => trivial

theorem number_gives (n : Nat) : (number n).Gives fun value => value < 2 ^ n := by
  intro bits value rest read
  unfold number at read
  split at read
  · cases read
    exact mod_lt _ (Nat.two_pow_pos n)
  · cases read

theorem andThen_gives {first : Parser α} {next : α → Parser β} {P : α → Prop} {Q : β → Prop}
    (gives : first.Gives P) (givesThen : ∀ value, P value → (next value).Gives Q) :
    (first.andThen next).Gives Q := by
  intro bits result after read
  cases answer : first bits with
  | short => simp only [andThen, answer, reduceCtorEq] at read
  | wrong => simp only [andThen, answer, reduceCtorEq] at read
  | read value rest =>
    simp only [andThen, answer] at read
    exact givesThen value (gives bits value rest answer) rest result after read

/-- What is read takes at least so many bits. -/
def Takes (least : Nat) (parser : Parser α) : Prop :=
  ∀ bits value rest, parser bits = .read value rest → rest.length + least ≤ bits.length

theorem done_takes (value : α) : (done value).Takes 0 := by
  intro bits other rest read
  cases read
  exact le_refl _

theorem never_takes (least : Nat) : (never : Parser α).Takes least := nofun

theorem number_takes (n : Nat) : (number n).Takes n := by
  intro bits value rest read
  by_cases enough : n ≤ bits.length
  · rw [number, if_pos enough] at read
    cases read
    rw [drop_length]
    omega
  · rw [number, if_neg enough] at read
    cases read

theorem align_takes : align.Takes 0 := by
  intro bits value rest read
  cases read
  exact sub_le _ _

theorem andThen_takes {first : Parser α} {next : α → Parser β} {some more : Nat}
    (takes : first.Takes some) (takesMore : ∀ value, (next value).Takes more) :
    (first.andThen next).Takes (some + more) := by
  intro bits result after finished
  cases answer : first bits with
  | short => simp [andThen, answer] at finished
  | wrong => simp [andThen, answer] at finished
  | read value rest =>
    simp only [andThen, answer] at finished
    have front := takes bits value rest answer
    have behind := takesMore value rest result after finished
    omega

theorem Takes.mono {parser : Parser α} {least less : Nat} (takes : parser.Takes least)
    (fewer : less ≤ least) : parser.Takes less := by
  intro bits value rest read
  have taken := takes bits value rest read
  omega

theorem andThen_assoc {γ : Type*} (first : Parser α) (next : α → Parser β)
    (last : β → Parser γ) (bits : BitString) :
    ((first.andThen next).andThen last) bits =
      (first.andThen fun value => (next value).andThen last) bits := by
  simp only [andThen]
  cases first bits <;> rfl

end Parser

end BitString
