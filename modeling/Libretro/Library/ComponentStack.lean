import Mathlib.Data.List.Induction

/-! Walks that stay where they are, go back up or enter something, with what was entered on a
stack. -/

namespace ComponentStack

open List

variable {α : Type*}

/-- One step of a walk. -/
inductive Step (α : Type*)
  | stay
  | up
  | enter (name : α)

/-- A step changes the stack, which begins with what was entered first; nothing is above it. -/
def move (stack : List α) : Step α → Option (List α)
  | .stay => some stack
  | .up => if stack.isEmpty then none else some stack.dropLast
  | .enter name => some (stack ++ [name])

/-- The steps of a walk, one after another. -/
def walk (stack : List α) : List (Step α) → Option (List α)
  | [] => some stack
  | step :: steps => (move stack step).bind fun stack => walk stack steps

theorem walk_append (stack : List α) (front back : List (Step α)) :
    walk stack (front ++ back) = (walk stack front).bind fun stack => walk stack back := by
  -- The steps in front are taken one by one.
  induction front generalizing stack with
  | nil => rfl
  | cons step front ih =>
    rw [cons_append, walk, walk, Option.bind_assoc]
    exact Option.bind_congr fun next _ => ih next

theorem walk_enter (stack names : List α) : walk stack (names.map .enter) = some (stack ++ names) := by
  induction names generalizing stack with
  | nil => rw [append_nil]; rfl
  | cons name names ih =>
    rw [map_cons, walk, move, Option.bind_some, ih, List.append_assoc]
    rfl

theorem walk_up (stack names : List α) :
    walk (stack ++ names) (List.replicate names.length .up) = some stack := by
  -- What was entered last is left first.
  induction names using List.reverseRecOn with
  | nil => rw [append_nil]; rfl
  | append_singleton names name ih =>
    have full : (stack ++ (names ++ [name])).isEmpty = false := by simp
    rw [length_append, length_singleton, replicate_succ, walk, move, full,
      ← List.append_assoc, dropLast_concat]
    exact ih

theorem walk_stay (stack : List α) (n : Nat) : walk stack (List.replicate n .stay) = some stack := by
  induction n with
  | zero => rfl
  | succ n ih => exact ih

end ComponentStack
