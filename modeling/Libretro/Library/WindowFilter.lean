import Mathlib.Algebra.GroupWithZero.Nat
import Mathlib.Data.List.Basic

/-! Filters that convert data from the front, item by item. -/

namespace WindowFilter

open List

variable {σ α : Type*}

/-- A filter looks at the data that is left and converts an item at its front, or waits for more. What it
decided does not depend on what comes behind. -/
structure Filter (σ α : Type*) where
  next : σ → List α → Option (σ × List α)
  takes : ∀ {state data after out}, next state data = some (after, out) →
    0 < out.length ∧ out.length ≤ data.length
  stable : ∀ {state data result} (more : List α), next state data = some result →
    next state (data ++ more) = some result

/-- What a pass over some data leaves: the state, what was converted and what was not. -/
structure Pass (σ α : Type*) where
  state : σ
  converted : List α
  tail : List α

/-- A pass that goes on behind items converted before. -/
def Pass.behind (out : List α) (pass : Pass σ α) : Pass σ α :=
  { pass with converted := out ++ pass.converted }

/-- A pass converts items until the filter waits for more. -/
def Filter.run (filter : Filter σ α) (state : σ) (data : List α) : Pass σ α :=
  match _item : filter.next state data with
  | none => ⟨state, [], data⟩
  | some (after, out) => (filter.run after (data.drop out.length)).behind out
termination_by data.length
decreasing_by
  have taken := filter.takes _item
  rw [List.length_drop]
  omega

section Rules

variable {filter : Filter σ α} {state after : σ} {data out : List α}

theorem Filter.run_waits (waits : filter.next state data = none) :
    filter.run state data = ⟨state, [], data⟩ := by
  rw [Filter.run]
  split
  · rfl
  · rename_i some
    cases waits.symm.trans some

theorem Filter.run_item (item : filter.next state data = some (after, out)) :
    filter.run state data = (filter.run after (data.drop out.length)).behind out := by
  rw [Filter.run]
  split
  · rename_i none
    cases item.symm.trans none
  · rename_i some
    cases item.symm.trans some
    rfl

theorem Pass.behind_append (front back : List α) (pass : Pass σ α) :
    pass.behind (front ++ back) = (pass.behind back).behind front := by
  rw [Pass.behind, Pass.behind, Pass.behind, append_assoc]

theorem Pass.behind_nil (pass : Pass σ α) : pass.behind [] = pass := rfl

/-- More data is converted as if the tail stood in front of it. -/
theorem Filter.run_append (filter : Filter σ α) (state : σ) (data more : List α) :
    filter.run state (data ++ more) =
      (filter.run (filter.run state data).state ((filter.run state data).tail ++ more)).behind
        (filter.run state data).converted := by
  -- The first pass takes its items from the longer data as well.
  induction state, data using Filter.run.induct filter with
  | case1 state data item => rw [filter.run_waits item, Pass.behind_nil]
  | case2 state data after out item ih =>
    rw [filter.run_item item, filter.run_item (filter.stable more item),
      drop_append_of_le_length (filter.takes item).2, ih]
    exact (Pass.behind_append _ _ _).symm

/-- A pass neither loses nor adds anything. -/
theorem Filter.run_length (filter : Filter σ α) (state : σ) (data : List α) :
    (filter.run state data).converted.length + (filter.run state data).tail.length = data.length := by
  induction state, data using Filter.run.induct filter with
  | case1 state data item => simp [filter.run_waits item]
  | case2 state data after out item ih =>
    have taken := filter.takes item
    rw [length_drop] at ih
    rw [filter.run_item item, Pass.behind]
    dsimp only
    rw [length_append]
    omega

theorem Filter.run_tail (filter : Filter σ α) (state : σ) (data : List α) :
    filter.next (filter.run state data).state (filter.run state data).tail = none := by
  induction state, data using Filter.run.induct filter with
  | case1 state data item => rw [filter.run_waits item, item]
  | case2 state data after out item ih => rwa [filter.run_item item]

end Rules

/-- The filter that waits for a whole block and gives as much for it. -/
def blocks (size : Nat) [NeZero size] (item : σ → List α → σ × List α)
    (keeps : ∀ state block, block.length = size → (item state block).2.length = size) : Filter σ α where
  next state data := if data.length < size then none else some (item state (data.take size))
  takes := by
    intro state data after out taken
    have positive := Nat.pos_of_ne_zero (NeZero.ne size)
    split at taken
    · cases taken
    · rename_i enough
      have block : (data.take size).length = size := List.length_take_of_le (Nat.not_lt.1 enough)
      have same := keeps state _ block
      rw [Option.some.inj taken] at same
      dsimp only at same
      omega
  stable := by
    -- A block that is there is still there with more data behind it.
    intro state data result more taken
    split at taken
    · cases taken
    · rename_i enough
      rw [if_neg (by rw [List.length_append]; omega), List.take_append_of_le_length (by omega)]
      exact taken

/-- A state taken through the whole blocks of some data. -/
def foldBlocks (size : Nat) [NeZero size] (step : σ → List α → σ) (state : σ) (data : List α) : σ :=
  if data.length < size then state
  else foldBlocks size step (step state (data.take size)) (data.drop size)
termination_by data.length
decreasing_by
  have positive := Nat.pos_of_ne_zero (NeZero.ne size)
  rw [List.length_drop]
  omega

section Blocks

variable {size : Nat} [NeZero size] {item : σ → List α → σ × List α}
  {keeps : ∀ state block, block.length = size → (item state block).2.length = size}
  {state : σ} {data block rest : List α}

theorem blocks_waits (short : data.length < size) :
    (blocks size item keeps).run state data = ⟨state, [], data⟩ :=
  Filter.run_waits (if_pos short)

theorem blocks_item (whole : block.length = size) : (blocks size item keeps).run state (block ++ rest) =
      ((blocks size item keeps).run (item state block).1 rest).behind (item state block).2 := by
  have taken : (blocks size item keeps).next state (block ++ rest) =
      some ((item state block).1, (item state block).2) := by
    refine (if_neg (by rw [length_append]; omega)).trans ?_
    rw [take_left' whole]
  rw [Filter.run_item taken, keeps state block whole, drop_left' whole]

theorem blocks_tail (state : σ) (data : List α) :
    ((blocks size item keeps).run state data).tail.length < size := by
  have waits := Filter.run_tail (blocks size item keeps) state data
  by_contra long
  cases (if_neg long).symm.trans waits

theorem blocks_front (long : ¬ data.length < size) (state : σ) : (blocks size item keeps).run state data =
      ((blocks size item keeps).run (item state (data.take size)).1 (data.drop size)).behind
        (item state (data.take size)).2 := by
  rw [← blocks_item (length_take_of_le (Nat.not_lt.1 long)), take_append_drop]

theorem blocks_converted (state : σ) (data : List α) :
    size ∣ ((blocks size item keeps).run state data).converted.length := by
  induction state, data using foldBlocks.induct size fun state block => (item state block).1 with
  | case1 state data short =>
    rw [blocks_waits short]
    exact Nat.dvd_zero size
  | case2 state data long ih =>
    rw [blocks_front long, Pass.behind, length_append, keeps state _ (length_take_of_le (Nat.not_lt.1 long))]
    exact Nat.dvd_add (Nat.dvd_refl size) ih

/-- A pass takes the state through the whole blocks. -/
theorem blocks_state (state : σ) (data : List α) : ((blocks size item keeps).run state data).state =
      foldBlocks size (fun state block => (item state block).1) state data := by
  fun_induction foldBlocks size (fun state block => (item state block).1) state data with
  | case1 state data short => rw [blocks_waits short]
  | case2 state data long ih =>
    rw [← ih, blocks_front long]
    rfl

end Blocks

end WindowFilter
