import Mathlib.Data.List.Basic

/-! UTF-8: the encoding of a scalar value and the byte strings made of such encodings. -/

namespace Utf8

theorem forall_byte {holds : UInt8 → Prop} (each : ∀ value : Fin 256, holds (.ofNat value))
    (byte : UInt8) : holds byte := by
  have this := each ⟨byte.toNat, byte.toNat_lt⟩
  rwa [UInt8.ofNat_toNat] at this

/-- A code point that is not a surrogate and not past the last plane. -/
def IsScalar (code : Nat) : Prop := code < 0xD800 ∨ (0xE000 ≤ code ∧ code < 0x110000)

instance (code : Nat) : Decidable (IsScalar code) := inferInstanceAs (Decidable (_ ∨ _))

/-- The bytes of a code point, the lead byte first. -/
def encode (code : Nat) : List UInt8 :=
  if code < 0x80 then [.ofNat code]
  else if code < 0x800 then [.ofNat (0xC0 + code / 64), .ofNat (0x80 + code % 64)]
  else if code < 0x10000 then
    [.ofNat (0xE0 + code / 4096), .ofNat (0x80 + code / 64 % 64), .ofNat (0x80 + code % 64)]
  else
    [.ofNat (0xF0 + code / 262144), .ofNat (0x80 + code / 4096 % 64),
      .ofNat (0x80 + code / 64 % 64), .ofNat (0x80 + code % 64)]

/-- A byte that only ever follows a lead byte. -/
def IsTail (byte : UInt8) : Prop := 0x80 ≤ byte.toNat ∧ byte.toNat ≤ 0xBF

/-- The byte strings that are encodings of scalar values, one after the other. -/
inductive WellFormed : List UInt8 → Prop
  | nil : WellFormed []
  | cons {code : Nat} {rest : List UInt8} (scalar : IsScalar code) (more : WellFormed rest) :
      WellFormed (encode code ++ rest)

theorem WellFormed.append {front back : List UInt8} (first : WellFormed front)
    (second : WellFormed back) : WellFormed (front ++ back) := by
  induction first with
  | nil => exact second
  | cons scalar _ ih =>
    rw [List.append_assoc]
    exact .cons scalar ih

theorem wellFormed_encode {code : Nat} (scalar : IsScalar code) : WellFormed (encode code) := by
  have single := WellFormed.cons scalar .nil
  rwa [List.append_nil] at single

theorem encode_ascii {code : Nat} (ascii : code < 0x80) : encode code = [.ofNat code] := by
  rw [encode, if_pos ascii]

theorem WellFormed.ascii {byte : UInt8} {rest : List UInt8} (ascii : byte.toNat < 0x80)
    (more : WellFormed rest) : WellFormed (byte :: rest) := by
  have single : WellFormed (encode byte.toNat ++ rest) := .cons (.inl (by omega)) more
  rwa [encode_ascii ascii, UInt8.ofNat_toNat] at single

theorem toNat_ofNat {value : Nat} (small : value < 256) : (UInt8.ofNat value).toNat = value := by
  rw [UInt8.toNat_ofNat', Nat.mod_eq_of_lt small]

/-- Outside ASCII every byte of an encoding has its highest bit set. -/
theorem encode_high {code : Nat} (scalar : IsScalar code) (large : 0x80 ≤ code) :
    ∀ byte ∈ encode code, 0x80 ≤ byte.toNat := by
  unfold IsScalar at scalar
  unfold encode
  rw [if_neg (by omega)]
  intro byte member
  split_ifs at member
  all_goals
    simp only [List.mem_cons, List.not_mem_nil, or_false] at member
  · rcases member with rfl | rfl
    all_goals
      rw [toNat_ofNat (by omega)]
      omega
  · rcases member with rfl | rfl | rfl
    all_goals
      rw [toNat_ofNat (by omega)]
      omega
  · rcases member with rfl | rfl | rfl | rfl
    all_goals
      rw [toNat_ofNat (by omega)]
      omega

theorem encode_lead {code : Nat} (scalar : IsScalar code) :
    ∃ lead tail, encode code = lead :: tail ∧ ¬ IsTail lead := by
  unfold IsScalar at scalar
  unfold encode IsTail
  split_ifs
  all_goals
    refine ⟨_, _, rfl, ?_⟩
    rw [toNat_ofNat (by omega)]
    omega

theorem encode_two {lead tail : UInt8} (leadLow : 0xC2 ≤ lead.toNat) (leadHigh : lead.toNat ≤ 0xDF)
    (follows : IsTail tail) :
    ∃ code, IsScalar code ∧ 0x80 ≤ code ∧ encode code = [lead, tail] := by
  obtain ⟨tailLow, tailHigh⟩ := follows
  -- The code point is read back from the bytes' low bits.
  refine ⟨(lead.toNat - 0xC0) * 64 + (tail.toNat - 0x80), .inl (by omega), by omega, ?_⟩
  rw [encode, if_neg (by omega), if_pos (by omega)]
  have first : 0xC0 + ((lead.toNat - 0xC0) * 64 + (tail.toNat - 0x80)) / 64 = lead.toNat := by omega
  have second : 0x80 + ((lead.toNat - 0xC0) * 64 + (tail.toNat - 0x80)) % 64 = tail.toNat := by omega
  rw [first, second, UInt8.ofNat_toNat, UInt8.ofNat_toNat]

/-- A three-byte encoding, by its three bytes: neither overlong nor a surrogate. -/
theorem encode_three {lead middle tail : UInt8} (leadLow : 0xE0 ≤ lead.toNat)
    (leadHigh : lead.toNat ≤ 0xEF) (middleTail : IsTail middle) (follows : IsTail tail)
    (notOverlong : lead.toNat = 0xE0 → 0xA0 ≤ middle.toNat)
    (notSurrogate : lead.toNat = 0xED → middle.toNat ≤ 0x9F) :
    ∃ code, IsScalar code ∧ 0x80 ≤ code ∧ encode code = [lead, middle, tail] := by
  obtain ⟨middleLow, middleHigh⟩ := middleTail
  obtain ⟨tailLow, tailHigh⟩ := follows
  let code := (lead.toNat - 0xE0) * 4096 + (middle.toNat - 0x80) * 64 + (tail.toNat - 0x80)
  have large : 0x800 ≤ code := by
    simp only [code]
    omega
  have small : code < 0x10000 := by
    simp only [code]
    omega
  have scalar : IsScalar code := by
    simp only [IsScalar, code]
    omega
  refine ⟨code, scalar, by omega, ?_⟩
  rw [encode, if_neg (by omega), if_neg (by omega), if_pos small]
  have first : 0xE0 + code / 4096 = lead.toNat := by
    simp only [code]
    omega
  have second : 0x80 + code / 64 % 64 = middle.toNat := by
    simp only [code]
    omega
  have third : 0x80 + code % 64 = tail.toNat := by
    simp only [code]
    omega
  rw [first, second, third, UInt8.ofNat_toNat, UInt8.ofNat_toNat, UInt8.ofNat_toNat]

/-- A four-byte encoding, by its four bytes: neither overlong nor past the last plane. -/
theorem encode_four {lead second third tail : UInt8} (leadLow : 0xF0 ≤ lead.toNat)
    (leadHigh : lead.toNat ≤ 0xF4) (secondTail : IsTail second) (thirdTail : IsTail third)
    (follows : IsTail tail) (notOverlong : lead.toNat = 0xF0 → 0x90 ≤ second.toNat)
    (inRange : lead.toNat = 0xF4 → second.toNat ≤ 0x8F) :
    ∃ code, IsScalar code ∧ 0x80 ≤ code ∧ encode code = [lead, second, third, tail] := by
  obtain ⟨secondLow, secondHigh⟩ := secondTail
  obtain ⟨thirdLow, thirdHigh⟩ := thirdTail
  obtain ⟨tailLow, tailHigh⟩ := follows
  let code := (lead.toNat - 0xF0) * 262144 + (second.toNat - 0x80) * 4096 +
    (third.toNat - 0x80) * 64 + (tail.toNat - 0x80)
  have large : 0x10000 ≤ code := by
    simp only [code]
    omega
  have scalar : IsScalar code := by
    simp only [IsScalar, code]
    omega
  refine ⟨code, scalar, by omega, ?_⟩
  rw [encode, if_neg (by omega), if_neg (by omega), if_neg (by omega)]
  have first : 0xF0 + code / 262144 = lead.toNat := by
    simp only [code]
    omega
  have next : 0x80 + code / 4096 % 64 = second.toNat := by
    simp only [code]
    omega
  have nextAfter : 0x80 + code / 64 % 64 = third.toNat := by
    simp only [code]
    omega
  have last : 0x80 + code % 64 = tail.toNat := by
    simp only [code]
    omega
  rw [first, next, nextAfter, last, UInt8.ofNat_toNat, UInt8.ofNat_toNat, UInt8.ofNat_toNat,
    UInt8.ofNat_toNat]

end Utf8

namespace Utf16

open Utf8

/-- The units of a code point, the high surrogate first. -/
def encode (code : Nat) : List UInt16 :=
  if code < 0x10000 then [.ofNat code]
  else [.ofNat (0xD800 + (code - 0x10000) / 1024), .ofNat (0xDC00 + (code - 0x10000) % 1024)]

theorem toNat_ofNat {value : Nat} (small : value < 0x10000) : (UInt16.ofNat value).toNat = value := by
  rw [UInt16.toNat_ofNat', Nat.mod_eq_of_lt small]

theorem encode_cases {code : Nat} (scalar : IsScalar code) :
    (∃ unit : UInt16, encode code = [unit] ∧ unit.toNat = code ∧ (code < 0xD800 ∨ 0xE000 ≤ code)) ∨
      ∃ high low : UInt16, encode code = [high, low] ∧ high.toNat = 0xD800 + (code - 0x10000) / 1024 ∧
        low.toNat = 0xDC00 + (code - 0x10000) % 1024 ∧ 0x10000 ≤ code ∧ code < 0x110000 := by
  unfold IsScalar at scalar
  rw [encode]
  split
  · rename_i small
    exact .inl ⟨_, rfl, toNat_ofNat small, by omega⟩
  · refine .inr ⟨_, _, rfl, toNat_ofNat ?_, toNat_ofNat ?_, by omega, by omega⟩
    · omega
    · omega

end Utf16
