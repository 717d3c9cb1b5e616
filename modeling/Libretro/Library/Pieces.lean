import Mathlib.Algebra.GroupWithZero.Nat
import Mathlib.Data.List.Basic

/-! The pieces of a list between separators. -/

namespace Pieces

open List

variable {α : Type*}

/-- What pieces take with one element more behind each. -/
def extent (pieces : List (List α)) : Nat := (pieces.map fun piece => piece.length + 1).sum

@[simp] theorem extent_nil : extent ([] : List (List α)) = 0 := rfl

@[simp] theorem extent_cons (piece : List α) (rest : List (List α)) :
    extent (piece :: rest) = piece.length + 1 + extent rest := by
  simp [extent]

@[simp] theorem extent_append (front back : List (List α)) :
    extent (front ++ back) = extent front + extent back := by
  simp [extent]

theorem length_lt_extent {piece : List α} {pieces : List (List α)} (listed : piece ∈ pieces) :
    piece.length < extent pieces := by
  induction pieces with
  | nil => cases listed
  | cons first rest ih =>
    rw [extent_cons]
    rcases mem_cons.1 listed with rfl | behind
    · omega
    · have := ih behind
      omega

/-- Pieces with a separator behind each. -/
def closed (separator : α) (pieces : List (List α)) : List α := pieces.flatMap (· ++ [separator])

@[simp] theorem closed_nil (separator : α) : closed separator [] = [] := rfl

theorem closed_cons (separator : α) (piece : List α) (rest : List (List α)) :
    closed separator (piece :: rest) = piece ++ separator :: closed separator rest := by
  simp [closed]

theorem closed_snoc (separator : α) (pieces : List (List α)) (piece : List α) :
    closed separator (pieces ++ [piece]) = closed separator pieces ++ (piece ++ [separator]) := by
  simp [closed]

theorem length_closed (separator : α) (pieces : List (List α)) :
    (closed separator pieces).length = extent pieces := by
  induction pieces with
  | nil => rfl
  | cons piece rest ih =>
    rw [closed_cons, length_append, length_cons, ih, extent_cons]
    omega

theorem closed_ends (separator : α) (pieces : List (List α)) :
    closed separator pieces = [] ∨ ∃ front, closed separator pieces = front ++ [separator] := by
  rcases eq_nil_or_concat pieces with rfl | ⟨others, piece, rfl⟩
  · exact .inl rfl
  · refine .inr ⟨closed separator others ++ piece, ?_⟩
    rw [concat_eq_append, closed_snoc, List.append_assoc]

theorem intercalate_closed (separator : α) (pieces : List (List α)) (last : List α) :
    [separator].intercalate (pieces ++ [last]) = closed separator pieces ++ last := by
  induction pieces with
  | nil => simp
  | cons piece rest ih =>
    rw [cons_append, intercalate_cons_of_ne_nil (by simp), ih, closed_cons]
    simp

section Split

variable [BEq α] (separator : α)

theorem extent_splitOn (list : List α) : extent (list.splitOn separator) = list.length + 1 := by
  -- A separator begins a piece, and every other element goes on with one.
  induction list with
  | nil => rfl
  | cons first rest ih =>
    rw [splitOn_cons_eq_if_modifyHead]
    split
    · rw [extent_cons, ih, length_cons, length_nil]
      omega
    · cases pieces : rest.splitOn separator with
      | nil => exact absurd pieces (splitOn_ne_nil _ _)
      | cons piece others =>
        rw [pieces, extent_cons] at ih
        rw [modifyHead_cons, extent_cons, length_cons, length_cons]
        omega

theorem length_splitOn (list : List α) : (list.splitOn separator).length = list.count separator + 1 := by
  induction list with
  | nil => rfl
  | cons first rest ih =>
    rw [splitOn_cons_eq_if_modifyHead, count_cons]
    split
    · rw [length_cons, ih]
    · rw [length_modifyHead, ih]

variable {separator} [LawfulBEq α]

/-- The pieces of a list have no separator, and only elements of the list. -/
theorem mem_splitOn {list piece : List α} (listed : piece ∈ list.splitOn separator) :
    separator ∉ piece ∧ piece ⊆ list := by
  induction list generalizing piece with
  | nil =>
    obtain rfl := mem_singleton.1 listed
    exact ⟨not_mem_nil, nil_subset _⟩
  | cons first rest ih =>
    rw [splitOn_cons_eq_if_modifyHead] at listed
    split at listed
    · rcases mem_cons.1 listed with rfl | behind
      · exact ⟨not_mem_nil, nil_subset _⟩
      · exact ⟨(ih behind).1, subset_cons_of_subset _ (ih behind).2⟩
    · rename_i other
      cases pieces : rest.splitOn separator with
      | nil => exact absurd pieces (splitOn_ne_nil _ _)
      | cons head others =>
        rw [pieces, modifyHead_cons] at listed
        rcases mem_cons.1 listed with rfl | behind
        · obtain ⟨clear, inside⟩ := ih (pieces ▸ mem_cons_self)
          refine ⟨?_, cons_subset_cons _ inside⟩
          rw [mem_cons, not_or]
          exact ⟨fun same => other (by rw [same]; exact beq_self_eq_true _), clear⟩
        · obtain ⟨clear, inside⟩ := ih (pieces ▸ mem_cons_of_mem _ behind)
          exact ⟨clear, subset_cons_of_subset _ inside⟩

theorem splitOn_closed {pieces : List (List α)} (clear : ∀ piece ∈ pieces, separator ∉ piece)
    (more : List α) :
    (closed separator pieces ++ more).splitOn separator = pieces ++ more.splitOn separator := by
  induction pieces with
  | nil => rfl
  | cons piece rest ih =>
    have first : closed separator (piece :: rest) ++ more =
        piece ++ separator :: (closed separator rest ++ more) := by
      rw [closed_cons, List.append_assoc, cons_append]
    rw [first, splitOn_append_cons_self_of_not_mem (clear piece mem_cons_self),
      ih fun other listed => clear other (mem_cons_of_mem _ listed)]
    rfl

end Split

theorem splitOnP_run {p : α → Bool} {run : List α} (clear : ∀ element ∈ run, p element = false)
    (rest : List α) : ∃ first others, (run ++ rest).splitOnP p = (run ++ first) :: others := by
  induction run with
  | nil =>
    cases pieces : rest.splitOnP p with
    | nil => exact absurd pieces (splitOnP_ne_nil _ _)
    | cons first others => exact ⟨first, others, pieces⟩
  | cons element run ih =>
    obtain ⟨first, others, pieces⟩ := ih fun other listed => clear other (mem_cons_of_mem _ listed)
    refine ⟨first, others, ?_⟩
    rw [cons_append, splitOnP_cons_eq_if_modifyHead, clear element mem_cons_self,
      if_neg Bool.false_ne_true, pieces]
    rfl

theorem exists_mem_splitOnP {p : α → Bool} {front run rest : List α}
    (starts : front = [] ∨ ∃ others separator, front = others ++ [separator] ∧ p separator = true)
    (clear : ∀ element ∈ run, p element = false) :
    ∃ piece ∈ (front ++ (run ++ rest)).splitOnP p, run <+: piece := by
  obtain ⟨first, others, pieces⟩ := splitOnP_run clear rest
  have listed : run ++ first ∈ (run ++ rest).splitOnP p := pieces ▸ mem_cons_self
  rcases starts with rfl | ⟨before, separator, rfl, separates⟩
  · exact ⟨_, listed, prefix_append _ _⟩
  · refine ⟨_, ?_, prefix_append run first⟩
    rw [List.append_assoc, singleton_append, splitOnP_append_cons _ _ separates]
    exact mem_append_right _ listed

/-- The pieces of a list that are not empty. -/
def tokens (p : α → Bool) (list : List α) : List (List α) :=
  (list.splitOnP p).filter fun piece => !piece.isEmpty

section Tokens

variable {p : α → Bool} {separator : α} {run : List α}

theorem tokens_separator (separates : p separator = true) (rest : List α) :
    tokens p (separator :: rest) = tokens p rest := by
  -- The piece in front of it is empty.
  rw [tokens, splitOnP_cons_eq_if_modifyHead, if_pos separates]
  rfl

theorem tokens_dropWhile (list : List α) : tokens p (list.dropWhile p) = tokens p list := by
  induction list with
  | nil => rfl
  | cons first rest ih =>
    cases separates : p first with
    | false => rw [dropWhile_cons_of_neg (by simp [separates])]
    | true => rw [dropWhile_cons_of_pos separates, ih, tokens_separator separates]

theorem tokens_run (clear : ∀ element ∈ run, p element = false) (nonempty : run ≠ []) :
    tokens p run = [run] := by
  -- It is its only piece.
  rw [tokens, splitOnP_eq_singleton clear, filter_cons_of_pos (by simpa using nonempty)]
  rfl

theorem tokens_run_cons (clear : ∀ element ∈ run, p element = false)
    (separates : p separator = true) (rest : List α) :
    tokens p (run ++ separator :: rest) = (if run = [] then [] else [run]) ++ tokens p rest := by
  rw [tokens, splitOnP_append_cons _ _ separates, splitOnP_eq_singleton clear, filter_append, ← tokens]
  congr 1
  cases run with
  | nil => rfl
  | cons first rest => rfl

theorem mem_tokens {token list : List α} (listed : token ∈ tokens p list) : token ≠ [] := by
  have kept := (mem_filter.1 listed).2
  simpa using kept

end Tokens

end Pieces
