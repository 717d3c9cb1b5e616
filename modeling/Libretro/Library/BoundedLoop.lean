import Mathlib.Tactic.Common

/-! Loops with a bound on their passes, and when the bound is enough. -/

namespace BoundedLoop

variable {α : Type*} {guard : α → Bool} {body : α → α}

/-- A loop that goes on while its guard holds; `none` when its passes run out. -/
def run (guard : α → Bool) (body : α → α) : Nat → α → Option α
  | 0, state => if guard state then none else some state
  | passes + 1, state => if guard state then run guard body passes (body state) else some state

/-- A loop whose passes keep an invariant and lower a measure ends, and it ends with the invariant. -/
theorem run_ends {holds : α → Prop} (measure : α → Nat) (keeps : ∀ state, holds state → guard state = true →
      holds (body state) ∧ measure (body state) < measure state) (passes : Nat) {state : α}
    (start : holds state) (enough : measure state ≤ passes) :
    ∃ last, run guard body passes state = some last ∧ holds last ∧ guard last = false := by
  -- The induction follows the passes that are left, which the measure never exceeds.
  induction passes generalizing state with
  | zero =>
    cases again : guard state with
    | false => exact ⟨state, by simp [run, again], start, again⟩
    | true =>
      have less := (keeps state start again).2
      omega
  | succ passes ih =>
    cases again : guard state with
    | false => exact ⟨state, by simp [run, again], start, again⟩
    | true =>
      obtain ⟨after, less⟩ := keeps state start again
      obtain ⟨last, ran, ends⟩ := ih after (by omega)
      exact ⟨last, by simpa [run, again] using ran, ends⟩

end BoundedLoop
