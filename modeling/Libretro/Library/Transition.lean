import Mathlib.Logic.Relation

/-! Transition systems: the states a run reaches, the predicates no step leaves, and simulation. -/

namespace Transition

universe u v

variable {State : Type u} {Abstract : Type v}

/-- A system starts in one of its starting states and moves along its step relation. -/
structure System (State : Type u) where
  start : State → Prop
  step : State → State → Prop

/-- The states at which some finite run of the system ends. -/
inductive System.Reachable (system : System State) : State → Prop
  | start {state : State} (starts : system.start state) : system.Reachable state
  | step {state next : State} (reached : system.Reachable state)
      (moves : system.step state next) : system.Reachable next

/-- A predicate that holds at every start and that no step leaves. -/
structure System.Invariant (system : System State) (holds : State → Prop) : Prop where
  start : ∀ state, system.start state → holds state
  step : ∀ state next, holds state → system.step state next → holds next

theorem System.Invariant.reachable {system : System State} {holds : State → Prop}
    (invariant : system.Invariant holds) {state : State} (reached : system.Reachable state) :
    holds state := by
  -- The run is followed from its first state, one step at a time.
  induction reached with
  | start starts => exact invariant.start _ starts
  | step _ moves ih => exact invariant.step _ _ ih moves

theorem System.Reachable.steps {system : System State} {state next : State}
    (reached : system.Reachable state) (moves : Relation.ReflTransGen system.step state next) :
    system.Reachable next := by
  -- The second run is appended to the first from its far end.
  induction moves with
  | refl => exact reached
  | tail _ last ih => exact .step ih last

/-- Every step of the concrete system is matched by finitely many steps of the abstract one. -/
structure System.Simulates (concrete : System State) (abstract : System Abstract)
    (related : State → Abstract → Prop) : Prop where
  start : ∀ state, concrete.start state → ∃ image, abstract.start image ∧ related state image
  step : ∀ state next image, related state image → concrete.step state next →
    ∃ after, Relation.ReflTransGen abstract.step image after ∧ related next after

theorem System.Simulates.reachable {concrete : System State} {abstract : System Abstract}
    {related : State → Abstract → Prop} (simulates : concrete.Simulates abstract related)
    {state : State} (reached : concrete.Reachable state) :
    ∃ image, abstract.Reachable image ∧ related state image := by
  -- Each concrete step extends the abstract run that has been matched so far.
  induction reached with
  | start starts =>
    obtain ⟨image, abstractStarts, same⟩ := simulates.start _ starts
    exact ⟨image, .start abstractStarts, same⟩
  | step _ moves ih =>
    obtain ⟨image, abstractReached, same⟩ := ih
    obtain ⟨after, matched, sameAfter⟩ := simulates.step _ _ _ same moves
    exact ⟨after, abstractReached.steps matched, sameAfter⟩

variable {Call Answer : Type}

/-- The answers of a machine to calls that are made one after another. -/
def answers (step : State → Call → Answer × State) (state : State) : List Call → List Answer
  | [] => []
  | call :: rest => (step state call).1 :: answers step (step state call).2 rest

/-- Machines whose steps answer alike and keep their states related answer every run alike. -/
theorem answers_eq {step : State → Call → Answer × State} {spec : Abstract → Call → Answer × Abstract}
    {related : State → Abstract → Prop} (follows : ∀ state image call, related state image →
      (step state call).1 = (spec image call).1 ∧ related (step state call).2 (spec image call).2)
    (calls : List Call) {state : State} {image : Abstract} (start : related state image) :
    answers step state calls = answers spec image calls := by
  -- The induction follows the calls, from any two related states.
  induction calls generalizing state image with
  | nil => rfl
  | cons call rest ih =>
    obtain ⟨same, kept⟩ := follows state image call start
    rw [answers, answers, same, ih kept]

end Transition
