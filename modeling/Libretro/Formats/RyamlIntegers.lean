import Libretro.Formats.Ryaml
import Libretro.Library.Numeral
import Libretro.Library.Unicode
import Mathlib.Tactic.IntervalCases
import Mathlib.Tactic.Ring

/-! The integers of the YAML reader: a literal is read exactly while its accumulation does not wrap. -/

namespace Libretro.Ryaml

open List Numeral Option UInt32

/-- The digit at one byte of a literal. -/
def ryamlDigit (base : UInt32) (c : UInt8) : Option UInt32 :=
  if 48 ≤ c ∧ c ≤ 57 then some (c - 48).toUInt32
  else if base = 16 ∧ 97 ≤ c ∧ c ≤ 102 then some (c - 97 + 10).toUInt32
  else if base = 16 ∧ 65 ≤ c ∧ c ≤ 70 then some (c - 65 + 10).toUInt32
  else none

/-- The loop over the digits, in 32 bits. -/
def accumulate (base : UInt32) : UInt32 → List UInt8 → Option UInt32
  | acc, [] => some acc
  | acc, c :: rest => (ryamlDigit base c).bind fun d => accumulate base (acc * base + d) rest

/-- Reading a literal without a sign; a prefix alone is no literal. -/
def ryamlToU64 (s : List UInt8) : Option UInt32 :=
  match s with
  | [] => none
  | 48 :: 120 :: c :: rest => accumulate 16 0 (c :: rest)
  | 48 :: 88 :: c :: rest => accumulate 16 0 (c :: rest)
  | s => accumulate 10 0 s

/-- A node's value as an unsigned number, when it reads as one. -/
def ryamlValUint (y : Option Tree) (node : Int) : Option UInt32 := (ryamlVal y node).bind ryamlToU64

/-- What reading a signed number comes to: a refusal, the number stored, or a negation that
overflows. -/
inductive IntOutcome
  | refused
  | stored (out : Int)
  | overflow
deriving DecidableEq

/-- The number is taken as a signed one of 32 bits, and negated behind a minus. -/
def applySign (neg : Bool) (tmp : UInt32) : IntOutcome :=
  if neg then
    if tmp.toBitVec.toInt = -2 ^ 31 then .overflow else .stored (-tmp.toBitVec.toInt)
  else .stored tmp.toBitVec.toInt

/-- A text as a signed number. -/
def signedText (v : List UInt8) : IntOutcome :=
  let (neg, digits) :=
    match v with
    | 45 :: rest => (true, rest)
    | 43 :: rest => (false, rest)
    | v => (false, v)
  match ryamlToU64 digits with
  | none => .refused
  | some tmp => applySign neg tmp

/-- A node's value as a signed number. -/
def ryamlValInt (y : Option Tree) (node : Int) : IntOutcome :=
  match ryamlVal y node with
  | none => .refused
  | some v => signedText v

/-- The literal of a node's value. -/
def uintLiteral (y : Option Tree) (node : Int) : Option Nat := (ryamlVal y node).bind literal

/-- The literal of a node's value, which may have a sign. -/
def intLiteral (y : Option Tree) (node : Int) : Option Int := (ryamlVal y node).bind signedLiteral

/-- An unsigned number that is read is its literal's, and a literal that does not fit is refused. -/
def UintExact (y : Option Tree) (node : Int) : Prop :=
  (∀ out, ryamlValUint y node = some out → uintLiteral y node = some out.toNat) ∧
    ∀ n, uintLiteral y node = some n → 2 ^ 32 ≤ n → ryamlValUint y node = none

/-- A signed number that is read is its literal's, a literal that does not fit is refused, and no
negation overflows. -/
def IntExact (y : Option Tree) (node : Int) : Prop :=
  (∀ out, ryamlValInt y node = .stored out → intLiteral y node = some out) ∧
    (∀ n, intLiteral y node = some n → n < -2 ^ 31 ∨ 2 ^ 31 ≤ n → ryamlValInt y node = .refused) ∧
    ryamlValInt y node ≠ .overflow

theorem ryamlDigit_ten (c : UInt8) : (ryamlDigit 10 c).map toNat = digit 10 c := by
  -- All bytes are tried.
  revert c
  exact Utf8.forall_byte (by decide +kernel)

theorem ryamlDigit_sixteen (c : UInt8) : (ryamlDigit 16 c).map toNat = digit 16 c := by
  revert c
  exact Utf8.forall_byte (by decide +kernel)

theorem accumulate_eq {base : UInt32}
    (digits : ∀ c, (ryamlDigit base c).map toNat = digit base.toNat c) (acc : UInt32)
    (text : List UInt8) :
    accumulate base acc text = (text.mapM (digit base.toNat)).map fun ds =>
      ofNat (acc.toNat * base.toNat ^ ds.length + Nat.ofDigits base.toNat ds.reverse) := by
  -- The induction follows the text, whatever has been accumulated.
  induction text generalizing acc with
  | nil => simp [accumulate]
  | cons c rest ih =>
    rw [accumulate, mapM_cons, ← digits]
    cases read : ryamlDigit base c with
    | none => rfl
    | some d =>
      rw [bind_some, ih]
      cases others : rest.mapM (digit base.toNat) with
      | none => rfl
      | some ds =>
        -- A wrap of the accumulator does not show in what 32 bits keep.
        simp only [map_some, bind_some, Option.pure_def, bind_eq_bind, some.injEq]
        rw [← UInt32.toNat_inj, toNat_ofNat', toNat_ofNat', UInt32.toNat_add,
          UInt32.toNat_mul, ofDigits_reverse_cons, length_cons]
        have apart : acc.toNat * base.toNat ^ (ds.length + 1) +
            (d.toNat * base.toNat ^ ds.length + Nat.ofDigits base.toNat ds.reverse) =
              (acc.toNat * base.toNat + d.toNat) * base.toNat ^ ds.length +
                Nat.ofDigits base.toNat ds.reverse := by ring
        rw [apart, Nat.mod_add_mod, Nat.add_mod, Nat.mul_mod, Nat.mod_mod, ← Nat.mul_mod, ← Nat.add_mod]

theorem ryamlToU64_eq (s : List UInt8) : ryamlToU64 s = (literal s).map ofNat := by
  -- The cases are those of the prefix.
  have hex (text : List UInt8) (nonempty : text ≠ []) :
      accumulate 16 0 text = (number 16 text).map ofNat := by
    rw [accumulate_eq ryamlDigit_sixteen, number, if_neg nonempty, Option.map_map]
    congr 1
    funext ds
    simp
  have decimal (text : List UInt8) (nonempty : text ≠ []) :
      accumulate 10 0 text = (number 10 text).map ofNat := by
    rw [accumulate_eq ryamlDigit_ten, number, if_neg nonempty, Option.map_map]
    congr 1
    funext ds
    simp
  unfold ryamlToU64
  split
  · rfl
  · exact hex _ (cons_ne_nil _ _)
  · exact hex _ (cons_ne_nil _ _)
  · rename_i nonempty lowerCase upperCase
    unfold literal
    split
    · rename_i rest
      cases rest with
      | nil => exact decimal _ (cons_ne_nil _ _)
      | cons c rest => exact absurd rfl (lowerCase c rest)
    · rename_i rest
      cases rest with
      | nil => exact decimal _ (cons_ne_nil _ _)
      | cons c rest => exact absurd rfl (upperCase c rest)
    · exact decimal _ nonempty

variable {y : Option Tree} {node : Int}

theorem ryamlValUint_eq : ryamlValUint y node = (uintLiteral y node).map ofNat := by
  rw [ryamlValUint, uintLiteral]
  cases ryamlVal y node with
  | none => rfl
  | some v => exact ryamlToU64_eq v

theorem uintExact_iff : UintExact y node ↔ ∀ n, uintLiteral y node = some n → n < 2 ^ 32 := by
  rw [UintExact, ryamlValUint_eq]
  cases read : uintLiteral y node with
  | none => simp
  | some n =>
    simp only [map_some, some.injEq, forall_eq']
    constructor
    · -- A literal that does not fit is read all the same.
      rintro ⟨-, refused⟩
      by_contra large
      exact absurd (refused (Nat.le_of_not_lt large)) (by simp)
    · intro fits
      refine ⟨(toNat_ofNat_of_lt' fits).symm, fun large => ?_⟩
      omega

theorem signedText_eq (v : List UInt8) : (signedLiteral v = none ∧ signedText v = .refused) ∨
      ∃ (neg : Bool) (n : Nat), signedLiteral v = some (if neg then -(n : Int) else n) ∧
        signedText v = applySign neg (ofNat n) := by
  -- The sign is looked at in the same way by both.
  have behind (neg : Bool) (digits : List UInt8) (value : Option Int)
      (written : value = (literal digits).map fun n : Nat => if neg then -(n : Int) else n)
      (outcome : IntOutcome)
      (ran : outcome = match ryamlToU64 digits with
        | none => .refused
        | some tmp => applySign neg tmp) :
      (value = none ∧ outcome = .refused) ∨
        ∃ (neg : Bool) (n : Nat), value = some (if neg then -(n : Int) else n) ∧
          outcome = applySign neg (ofNat n) := by
    rw [ryamlToU64_eq] at ran
    cases read : literal digits with
    | none =>
      rw [read] at written ran
      exact .inl ⟨written, ran⟩
    | some n =>
      rw [read] at written ran
      exact .inr ⟨neg, n, written, ran⟩
  unfold signedLiteral
  split
  · exact behind true _ _ rfl _ rfl
  · exact behind false _ _ rfl _ rfl
  · rename_i notMinus notPlus
    refine behind false v _ rfl _ ?_
    unfold signedText
    split
    rename_i neg digits split_
    split at split_
    · exact absurd rfl (notMinus _)
    · exact absurd rfl (notPlus _)
    · cases split_
      rfl

/-- A number with its sign. -/
def signed (neg : Bool) (n : Nat) : Int := if neg then -(n : Int) else n

theorem applySign_small {neg : Bool} {n : Nat} (small : n < 2 ^ 31) :
    applySign neg (ofNat n) = .stored (signed neg n) := by
  have read : (ofNat n).toBitVec.toInt = n := by
    rw [toBitVec_ofNat', BitVec.toInt_ofNat', Int.bmod_eq_of_le] <;> omega
  rw [applySign, read, signed]
  cases neg with
  | false => rfl
  | true => rw [if_pos rfl, if_neg (by omega), if_pos rfl]

theorem applySign_large (neg : Bool) {n : Nat} (large : 2 ^ 31 ≤ n) :
    applySign neg (ofNat n) ≠ .refused ∧ applySign neg (ofNat n) ≠ .stored (signed neg n) := by
  -- What is stored lies between the least and the largest signed number.
  have least := (ofNat n).toBitVec.le_toInt
  have largest := (ofNat n).toBitVec.toInt_lt
  rw [applySign, signed]
  generalize (ofNat n).toBitVec.toInt = read at least largest
  cases neg with
  | false =>
    refine ⟨nofun, fun stored => ?_⟩
    have same : read = n := IntOutcome.stored.inj stored
    omega
  | true =>
    rw [if_pos rfl]
    split
    · exact ⟨nofun, nofun⟩
    · rename_i other
      refine ⟨nofun, fun stored => ?_⟩
      have same : -read = -n := IntOutcome.stored.inj stored
      omega

theorem intExact_iff : IntExact y node ↔ ∀ n, intLiteral y node = some n → -2 ^ 31 < n ∧ n < 2 ^ 31 := by
  have outcome : (intLiteral y node = none ∧ ryamlValInt y node = .refused) ∨
      ∃ (neg : Bool) (n : Nat), intLiteral y node = some (signed neg n) ∧
        ryamlValInt y node = applySign neg (ofNat n) := by
    rw [intLiteral, ryamlValInt]
    cases ryamlVal y node with
    | none => exact .inl ⟨rfl, rfl⟩
    | some v => exact signedText_eq v
  rcases outcome with ⟨absent, refused⟩ | ⟨neg, n, written, ran⟩
  · simp [IntExact, absent, refused]
  · have size : -2 ^ 31 < signed neg n ∧ signed neg n < 2 ^ 31 ↔ n < 2 ^ 31 := by
      cases neg with
      | false =>
        simp only [signed, if_neg Bool.false_ne_true]
        omega
      | true =>
        simp only [signed, if_pos]
        omega
    rw [IntExact, written, ran]
    simp only [some.injEq, forall_eq', size]
    constructor
    · -- A literal that does not fit is neither refused nor read as itself.
      rintro ⟨exact, -, defined⟩
      by_contra large
      obtain ⟨notRefused, notItself⟩ := applySign_large neg (Nat.le_of_not_lt large)
      cases outcome : applySign neg (ofNat n) with
      | refused => exact notRefused outcome
      | overflow => exact defined outcome
      | stored out => exact notItself (outcome.trans (by rw [exact out outcome]))
    · intro small
      rw [applySign_small small]
      refine ⟨fun out stored => IntOutcome.stored.inj stored, fun outside => ?_, nofun⟩
      have inside := size.2 small
      omega

/-- An unsigned literal is read as its number or refused exactly if its number fits 32 bits, and a
signed one exactly if its number fits them and is not the least. -/
theorem integers_exact_iff (y : Option Tree) (node : Int) :
    (UintExact y node ↔ ∀ n, uintLiteral y node = some n → n < 2 ^ 32) ∧
      (IntExact y node ↔ ∀ n, intLiteral y node = some n → -2 ^ 31 < n ∧ n < 2 ^ 31) :=
  ⟨uintExact_iff, intExact_iff⟩

/-- A tree whose root is one scalar. -/
def scalarTree (val : List UInt8) : Tree := ⟨[⟨none, some val, none, none, none, none, 0, .scalar⟩]⟩

/-- A literal one beyond what 32 bits hold is read as zero. -/
theorem integers_exact_wrap : ¬ ∀ (y : Option Tree) (node : Int), UintExact y node ∧ IntExact y node := by
  intro claimed
  -- The digits of 4294967296.
  have read := (claimed (some (scalarTree [52, 50, 57, 52, 57, 54, 55, 50, 57, 54])) 0).1.1 0 (by decide)
  exact absurd read (by decide)

end Libretro.Ryaml
