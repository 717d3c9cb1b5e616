import Mathlib.Data.List.Infix

/-! Occurrences of a pattern in a text, the leftmost first, and what takes their place. -/

namespace Substring

open List Option

variable {α : Type*} [DecidableEq α] {pattern replacement text : List α}

/-- Where the first occurrence of a pattern begins. -/
def find (pattern : List α) : List α → Option Nat
  | [] => if pattern = [] then some 0 else none
  | first :: rest => if pattern <+: first :: rest then some 0 else (find pattern rest).map (· + 1)

theorem find_cons (pattern : List α) (first : α) (rest : List α) : find pattern (first :: rest) =
      if pattern <+: first :: rest then some 0 else (find pattern rest).map (· + 1) :=
  rfl

theorem find_of_nil (pattern : List α) : find pattern [] = if pattern = [] then some 0 else none := rfl

/-- The text with its occurrences replaced from left to right; so many elements of the last one are
still to be passed. -/
def replaceFrom (pattern replacement : List α) : Nat → List α → List α
  | _, [] => []
  | left + 1, _ :: rest => replaceFrom pattern replacement left rest
  | 0, first :: rest =>
    if pattern <+: first :: rest then
      replacement ++ replaceFrom pattern replacement (pattern.length - 1) rest
    else first :: replaceFrom pattern replacement 0 rest

theorem replaceFrom_cons (pattern replacement : List α) (first : α) (rest : List α) :
    replaceFrom pattern replacement 0 (first :: rest) = if pattern <+: first :: rest then
        replacement ++ replaceFrom pattern replacement (pattern.length - 1) rest
      else first :: replaceFrom pattern replacement 0 rest :=
  rfl

/-- The text with its leftmost occurrences replaced, none of which overlaps the one before it. -/
def replace (pattern replacement text : List α) : List α := replaceFrom pattern replacement 0 text

theorem replaceFrom_drop (left : Nat) (text : List α) :
    replaceFrom pattern replacement left text = replace pattern replacement (text.drop left) := by
  -- One element is passed at a time.
  induction left generalizing text with
  | zero => rfl
  | succ left ih =>
    cases text with
    | nil => rfl
    | cons first rest => exact ih rest

theorem replace_none (absent : find pattern text = none) : replace pattern replacement text = text := by
  -- The search has passed every element.
  induction text with
  | nil => rfl
  | cons first rest ih =>
    rw [find_cons] at absent
    by_cases here : pattern <+: first :: rest
    · rw [if_pos here] at absent
      cases absent
    · rw [if_neg here, map_eq_none_iff] at absent
      rw [replace, replaceFrom_cons, if_neg here]
      exact congrArg (first :: ·) (ih absent)

/-- The first occurrence is replaced, and then those behind it. -/
theorem replace_some (nonempty : pattern ≠ []) {place : Nat} (found : find pattern text = some place) :
    replace pattern replacement text = text.take place ++
      (replacement ++ replace pattern replacement (text.drop (place + pattern.length))) := by
  -- Elements in front of the occurrence are kept one by one.
  induction text generalizing place with
  | nil =>
    rw [find_of_nil, if_neg nonempty] at found
    cases found
  | cons first rest ih =>
    rw [find_cons] at found
    by_cases here : pattern <+: first :: rest
    · rw [if_pos here] at found
      obtain rfl : 0 = place := some.inj found
      have length : 0 + pattern.length = (pattern.length - 1) + 1 := by
        have := length_pos_of_ne_nil nonempty
        omega
      rw [replace, replaceFrom_cons, if_pos here, replaceFrom_drop, length]
      rfl
    · rw [if_neg here, map_eq_some_iff] at found
      obtain ⟨before, found, rfl⟩ := found
      rw [replace, replaceFrom_cons, if_neg here, Nat.add_right_comm]
      exact congrArg (first :: ·) (ih found)

/-- An occurrence lies inside the text. -/
theorem find_le {place : Nat} (found : find pattern text = some place) :
    place + pattern.length ≤ text.length := by
  -- The search moves on one element at a time.
  induction text generalizing place with
  | nil =>
    rw [find_of_nil] at found
    split at found
    · rename_i empty
      obtain rfl := some.inj found
      simp [empty]
    · cases found
  | cons first rest ih =>
    rw [find_cons] at found
    split at found
    · rename_i here
      obtain rfl := some.inj found
      rw [Nat.zero_add]
      exact here.length_le
    · rw [map_eq_some_iff] at found
      obtain ⟨before, found, rfl⟩ := found
      have inside := ih found
      rw [length_cons]
      omega

/-- What is found is an occurrence. -/
theorem find_prefix {place : Nat} (found : find pattern text = some place) : pattern <+: text.drop place := by
  -- The search moves on one element at a time.
  induction text generalizing place with
  | nil =>
    rw [find_of_nil] at found
    split at found
    · rename_i empty
      rw [empty]
      exact nil_prefix
    · cases found
  | cons first rest ih =>
    rw [find_cons] at found
    split at found
    · rename_i here
      obtain rfl := some.inj found
      exact here
    · rw [map_eq_some_iff] at found
      obtain ⟨before, found, rfl⟩ := found
      exact ih found

/-- What is appended does not change where the first occurrence is. -/
theorem find_append {place : Nat} (found : find pattern text = some place) (more : List α) :
    find pattern (text ++ more) = some place := by
  -- An occurrence that reaches into what is appended begins behind the first one.
  induction text generalizing place with
  | nil =>
    rw [find_of_nil] at found
    split at found
    · rename_i empty
      obtain rfl := some.inj found
      rw [empty]
      cases more with
      | nil => rfl
      | cons first rest => exact if_pos nil_prefix
    · cases found
  | cons first rest ih =>
    rw [find_cons] at found
    rw [cons_append, find_cons]
    split at found
    · rename_i here
      have still : pattern <+: first :: (rest ++ more) := here.trans (prefix_append _ more)
      rw [if_pos still]
      exact found
    · rename_i other
      rw [map_eq_some_iff] at found
      obtain ⟨before, found, rfl⟩ := found
      have inside := find_le found
      rw [if_neg, ih found]
      · rfl
      · intro here
        exact other (prefix_of_prefix_length_le here (prefix_append _ more) (by rw [length_cons]; omega))

theorem find_ne_none (front : List α) : find pattern (front ++ pattern) ≠ none := by
  -- The search stops there at the latest.
  induction front with
  | nil =>
    cases pattern with
    | nil => exact fun none => nomatch none
    | cons first rest =>
      rw [nil_append, find_cons, if_pos prefix_rfl]
      exact fun none => nomatch none
  | cons first front ih =>
    rw [cons_append, find_cons]
    split
    · exact fun none => nomatch none
    · rw [Ne, map_eq_none_iff]
      exact ih

theorem find_nil (text : List α) : find [] text = some 0 := by
  cases text with
  | nil => rfl
  | cons first rest => exact if_pos (List.nil_prefix)

theorem find_single_none {element : α} (absent : element ∉ text) : find [element] text = none := by
  -- The search passes every element.
  induction text with
  | nil => rfl
  | cons first rest ih =>
    rw [mem_cons, not_or] at absent
    rw [find_cons, if_neg, ih absent.2]
    · rfl
    · intro here
      exact absent.1 (cons_prefix_cons.1 here).1

theorem find_single_some {element : α} {run : List α} (absent : element ∉ run) (rest : List α) :
    find [element] (run ++ element :: rest) = some run.length := by
  -- The search passes every element in front of it.
  induction run with
  | nil =>
    rw [nil_append, find_cons, if_pos (cons_prefix_cons.2 ⟨rfl, nil_prefix⟩)]
    rfl
  | cons first run ih =>
    rw [mem_cons, not_or] at absent
    rw [cons_append, find_cons, if_neg, ih absent.2]
    · rfl
    · intro here
      exact absent.1 (cons_prefix_cons.1 here).1

end Substring
