import Mathlib.Computability.Language

/-! Wildcard patterns over any alphabet, and the languages they denote. -/

namespace Glob

variable {α : Type*}

/-- What one piece of a pattern stands for. -/
inductive Piece (α : Type*)
  | star
  | any
  | oneOf (listed : List α)
  | char (c : α)

/-- The words one piece stands for. -/
def Piece.language : Piece α → Language α
  | .star => Set.univ
  | .any => {word | ∃ c, word = [c]}
  | .oneOf listed => {word | ∃ c ∈ listed, word = [c]}
  | .char c => {[c]}

/-- The words of a pattern: those of its pieces, one behind the other. -/
def language (pieces : List (Piece α)) : Language α := (pieces.map Piece.language).prod

section Rules

variable {piece : Piece α} {pieces : List (Piece α)} {c : α} {word : List α}

@[simp] theorem mem_language_nil : word ∈ language ([] : List (Piece α)) ↔ word = [] := by
  simp [language, Language.mem_one]

theorem language_cons : language (piece :: pieces) = piece.language * language pieces := by simp [language]

theorem mem_language_star :
    word ∈ language (.star :: pieces) ↔ ∃ back, back <:+ word ∧ back ∈ language pieces := by
  -- The front is whatever stands in front of the suffix.
  rw [language_cons, Language.mem_mul]
  constructor
  · rintro ⟨front, -, back, member, rfl⟩
    exact ⟨back, List.suffix_append front back, member⟩
  · rintro ⟨back, ⟨front, rfl⟩, member⟩
    exact ⟨front, trivial, back, member, rfl⟩

/-- The characters a piece other than a star stands for. -/
def Piece.Takes : Piece α → α → Prop
  | .star, _ => False
  | .any, _ => True
  | .oneOf listed, c => c ∈ listed
  | .char d, c => c = d

theorem Piece.mem_language (plain : piece ≠ .star) :
    word ∈ piece.language ↔ ∃ c, piece.Takes c ∧ word = [c] := by
  -- Each piece lists its words by the one character they have.
  cases piece with
  | star => exact absurd rfl plain
  | any => exact exists_congr fun c => (and_iff_right trivial).symm
  | oneOf listed => exact Iff.rfl
  | char d => exact ⟨fun same => ⟨d, rfl, same⟩, fun ⟨c, same, is⟩ => is.trans (by rw [same])⟩

theorem cons_mem_language (plain : piece ≠ .star) :
    c :: word ∈ language (piece :: pieces) ↔ piece.Takes c ∧ word ∈ language pieces := by
  -- The front of the word is the one character the piece takes.
  rw [language_cons, Language.mem_mul]
  constructor
  · rintro ⟨front, first, back, member, same⟩
    obtain ⟨d, taken, rfl⟩ := (Piece.mem_language plain).1 first
    obtain ⟨rfl, rfl⟩ := List.cons.inj same
    exact ⟨taken, member⟩
  · rintro ⟨taken, member⟩
    exact ⟨[c], (Piece.mem_language plain).2 ⟨c, taken, rfl⟩, word, member, rfl⟩

theorem nil_not_mem_language (plain : piece ≠ .star) : [] ∉ language (piece :: pieces) := by
  -- A word of the pattern would begin with the character the piece takes.
  rw [language_cons, Language.mem_mul]
  rintro ⟨front, first, back, -, same⟩
  obtain ⟨d, -, rfl⟩ := (Piece.mem_language plain).1 first
  cases same

end Rules

end Glob
