import Libretro.Library.Transition
import Mathlib.Data.List.Basic
import Mathlib.Logic.Function.Basic

/-! The blocking tasks of the queue: a push looks for one on the running list, and is put on it
later. -/

namespace Libretro.TaskQueue

open Function List Option Transition

/-- Which of its two runners the queue has. -/
inductive Runner
  | regular
  | threaded
deriving DecidableEq

/-- A gather of the unthreaded runner: the tasks it has detached and not come to yet, the one
whose handler runs, and those it has come to that are to go back on the running list. -/
structure Gather (Task : Type) where
  queue : List Task
  current : Option Task
  ran : List Task

/-- The tasks a gather holds off the running list. -/
def Gather.tasks {Task : Type} (gather : Gather Task) : List Task :=
  gather.queue ++ gather.current.toList ++ gather.ran

/-- The running list, the gathers under way on the driving thread (innermost first), the tasks
held for the next gather, the pushes between their look at the running list and their insertion
(none is the driving thread), and the tasks pushed, accepted and finished so far. -/
structure Blockers (Thread Task : Type) where
  running : List Task
  gathers : List (Gather Task)
  deferred : List Task
  pushing : Option Thread → Option Task
  pushed : List Task
  accepted : List Task
  finished : List Task

variable {Thread Task : Type} [DecidableEq Thread] [DecidableEq Task]

/-- One step of some thread. -/
inductive Blockers.Step (runner : Runner) (blocking : Task → Bool) :
    Blockers Thread Task → Blockers Thread Task → Prop
  -- The look of `task_queue_push_now` by a thread in none: the driving thread, in a handler or a
  -- callback or in neither, and a worker or another thread on the threaded runner.
  | look {state} (thread task) (idle : state.pushing thread = none)
      (driver : runner = .regular → thread = none) (new : task ∉ state.pushed)
      (clear : blocking task = true → ∀ other ∈ state.running, blocking other = false) :
      Step runner blocking state { state with
        pushing := Function.update state.pushing thread (some task)
        pushed := task :: state.pushed }
  -- The driving thread takes in a held task, the oldest first.
  | take {state task rest} (idle : state.pushing none = none)
      (oldest : state.deferred = task :: rest)
      (clear : blocking task = true → ∀ other ∈ state.running, blocking other = false) :
      Step runner blocking state { state with
        pushing := Function.update state.pushing none (some task)
        deferred := rest }
  -- A held task that is refused, or was cancelled meanwhile, is retired.
  | refuse {state task rest} (idle : state.pushing none = none)
      (oldest : state.deferred = task :: rest) :
      Step runner blocking state { state with deferred := rest }
  -- `push_running`.
  | insert {state} (thread task) (waits : state.pushing thread = some task) :
      Step runner blocking state { state with
        running := state.running ++ [task]
        pushing := Function.update state.pushing thread none
        accepted := task :: state.accepted }
  -- `task_queue_defer`.
  | defer {state task} (new : task ∉ state.pushed) :
      Step runner blocking state { state with
        deferred := state.deferred ++ [task]
        pushed := task :: state.pushed }
  -- A task is marked `RETRO_TASK_FLG_FINISHED`.
  | finish {state task} (known : task ∈ state.accepted) :
      Step runner blocking state { state with finished := task :: state.finished }
  -- `retro_task_threaded_settle` moves a finished task off the running list; it puts back any
  -- other without letting go of the lock.
  | settle {state task} (threaded : runner = .threaded) (done : task ∈ state.finished) :
      Step runner blocking state { state with running := state.running.filter (· ≠ task) }
  -- `retro_task_regular_gather` detaches the running list.
  | gather {state} (regular : runner = .regular) (idle : state.pushing none = none) :
      Step runner blocking state { state with
        running := []
        gathers := { queue := state.running, current := none, ran := [] } :: state.gathers }
  -- It comes to a task, which it runs or not.
  | visit {state task queue ran outer} (idle : state.pushing none = none)
      (innermost : state.gathers = { queue := task :: queue, current := none, ran } :: outer) :
      Step runner blocking state { state with
        gathers := { queue, current := some task, ran } :: outer }
  -- Past the budget, a task goes back without having been run.
  | skip {state task queue ran outer} (idle : state.pushing none = none)
      (innermost : state.gathers = { queue := task :: queue, current := none, ran } :: outer) :
      Step runner blocking state { state with
        running := state.running ++ [task]
        gathers := { queue, current := none, ran } :: outer }
  -- It leaves a task: a finished one is taken off, any other is to go back.
  | leave {state task queue ran outer} (idle : state.pushing none = none)
      (innermost : state.gathers = { queue, current := some task, ran } :: outer) :
      Step runner blocking state { state with
        gathers :=
          { queue, current := none, ran := if task ∈ state.finished then ran else ran ++ [task] }
            :: outer }
  -- The tasks it came to go back behind those that are on the running list.
  | done {state ran outer} (idle : state.pushing none = none)
      (innermost : state.gathers = { queue := [], current := none, ran } :: outer) :
      Step runner blocking state { state with
        running := state.running ++ ran
        gathers := outer }

/-- Nothing has been pushed, and no gather is under way. -/
def Blockers.empty : Blockers Thread Task where
  running := []
  gathers := []
  deferred := []
  pushing := fun _ => none
  pushed := []
  accepted := []
  finished := []

/-- The queue with one of its runners. -/
def blockers (runner : Runner) (blocking : Task → Bool) : System (Blockers Thread Task) where
  start := (· = Blockers.empty)
  step := Blockers.Step runner blocking

/-- No two unfinished blocking tasks are accepted. -/
def Blockers.AtMostOne (blocking : Task → Bool) (state : Blockers Thread Task) : Prop :=
  ∀ first ∈ state.accepted, ∀ second ∈ state.accepted, blocking first = true → blocking second = true →
    first ∉ state.finished → second ∉ state.finished → first = second

/-- A blocking task has passed the look at the running list in this step. -/
def Blockers.Passes (blocking : Task → Bool) (state next : Blockers Thread Task) : Prop :=
  ∃ thread task, blocking task = true ∧ state.pushing thread = none ∧ next.pushing thread = some task

/-- No gather holds an unfinished blocking task off the running list, and no push of a blocking
task is between its look and its insertion. -/
structure Blockers.Whole (blocking : Task → Bool) (state : Blockers Thread Task) : Prop where
  gathers : ∀ gather ∈ state.gathers, ∀ task ∈ gather.tasks, blocking task = true → task ∈ state.finished
  pushing : ∀ thread task, state.pushing thread = some task → blocking task = false

/-- The runs in which blocking tasks pass their look only when the list is whole. -/
def wholeBlockers (runner : Runner) (blocking : Task → Bool) : System (Blockers Thread Task) where
  start := (· = Blockers.empty)
  step state next := Blockers.Step runner blocking state next ∧
    (Blockers.Passes blocking state next → Blockers.Whole blocking state)

/-- What such a run keeps: an accepted task that is not finished is on the running list or held
by a gather, and a blocking task that waits to be inserted is the only one. -/
structure Blockers.Kept (blocking : Task → Bool) (state : Blockers Thread Task) : Prop where
  placed : ∀ task ∈ state.accepted, task ∉ state.finished →
    task ∈ state.running ∨ ∃ gather ∈ state.gathers, task ∈ gather.tasks
  one : state.AtMostOne blocking
  alone : ∀ thread task, state.pushing thread = some task → blocking task = true →
    (∀ other ∈ state.accepted, blocking other = true → other ∈ state.finished) ∧
    ∀ other waiting, state.pushing other = some waiting → blocking waiting = true → other = thread

variable {blocking : Task → Bool} {state : Blockers Thread Task}

theorem Blockers.Kept.passes
    (kept : state.Kept blocking) {thread : Option Thread} {task : Task} {deferred pushed : List Task}
    (clear : blocking task = true → ∀ other ∈ state.running, blocking other = false)
    (whole : blocking task = true → state.Whole blocking) :
    Blockers.Kept blocking { state with
      pushing := Function.update state.pushing thread (some task), deferred, pushed } := by
  refine ⟨kept.placed, kept.one, fun at_ waiting found blocks => ?_⟩
  by_cases same : at_ = thread
  · subst same
    simp only [update_self, some.injEq] at found
    subst found
    have holds := whole blocks
    refine ⟨fun other accepted otherBlocks => ?_, fun third held thirdWaits heldBlocks => ?_⟩
    · -- An unfinished one would be on the list, or held by a gather.
      by_contra unfinished
      rcases kept.placed other accepted unfinished with onList | ⟨gather, inside, held⟩
      · simp [clear blocks other onList] at otherBlocks
      · exact unfinished (holds.gathers gather inside other held otherBlocks)
    · by_contra away
      simp only [update_of_ne away] at thirdWaits
      simp [holds.pushing third held thirdWaits] at heldBlocks
  · -- Another push that waits would have been seen.
    simp only [update_of_ne same] at found
    obtain ⟨done, only⟩ := kept.alone at_ waiting found blocks
    refine ⟨done, fun third held thirdWaits heldBlocks => ?_⟩
    by_cases self : third = thread
    · subst self
      simp only [update_self, some.injEq] at thirdWaits
      subst thirdWaits
      have holds := whole heldBlocks
      simp [holds.pushing at_ waiting found] at blocks
    · simp only [update_of_ne self] at thirdWaits
      exact only third held thirdWaits heldBlocks

omit [DecidableEq Thread] [DecidableEq Task] in
theorem Blockers.Kept.moved (kept : state.Kept blocking) {running deferred pushed : List Task}
    {gathers : List (Gather Task)} (places : ∀ task, task ∉ state.finished →
      (task ∈ state.running ∨ ∃ gather ∈ state.gathers, task ∈ gather.tasks) →
      (task ∈ running ∨ ∃ gather ∈ gathers, task ∈ gather.tasks)) :
    Blockers.Kept blocking { state with running, gathers, deferred, pushed } :=
  ⟨fun task accepted unfinished => places task unfinished (kept.placed task accepted unfinished),
    kept.one, kept.alone⟩

theorem Blockers.Kept.step {runner : Runner} {next : Blockers Thread Task} (kept : state.Kept blocking)
    (moves : Blockers.Step runner blocking state next)
    (whole : Blockers.Passes blocking state next → state.Whole blocking) :
    next.Kept blocking := by
  cases moves with
  | look thread task idle driver new clear =>
    exact kept.passes clear fun blocks => whole ⟨thread, task, blocks, idle, by simp⟩
  | @take task rest idle oldest clear =>
    exact kept.passes clear fun blocks => whole ⟨none, task, blocks, idle, by simp⟩
  | refuse idle oldest => exact kept.moved fun _ _ place => place
  | defer new => exact kept.moved fun _ _ place => place
  | insert thread task waits =>
    refine ⟨fun other accepted unfinished => ?_, fun first firstIn second secondIn firstBlocks
      secondBlocks firstOpen secondOpen => ?_, fun at_ waiting found blocks => ?_⟩
    · rcases mem_cons.mp accepted with rfl | accepted
      · exact .inl (by simp)
      · exact (kept.placed other accepted unfinished).imp (mem_append_left _) id
    · -- With a blocking task waiting, every one accepted before is finished.
      rcases mem_cons.mp firstIn with rfl | firstOld
      · rcases mem_cons.mp secondIn with rfl | secondOld
        · rfl
        · exact absurd ((kept.alone thread _ waits firstBlocks).1 second secondOld secondBlocks)
            secondOpen
      · rcases mem_cons.mp secondIn with rfl | secondOld
        · exact absurd ((kept.alone thread _ waits secondBlocks).1 first firstOld firstBlocks)
            firstOpen
        · exact kept.one first firstOld second secondOld firstBlocks secondBlocks firstOpen
            secondOpen
    · by_cases same : at_ = thread
      · subst same
        simp at found
      · simp only [update_of_ne same] at found
        obtain ⟨done, only⟩ := kept.alone at_ waiting found blocks
        refine ⟨fun other accepted otherBlocks => ?_, fun third held thirdWaits heldBlocks => ?_⟩
        · rcases mem_cons.mp accepted with rfl | accepted
          · exact absurd (only thread _ waits otherBlocks).symm same
          · exact done other accepted otherBlocks
        · by_cases self : third = thread
          · subst self
            simp at thirdWaits
          · simp only [update_of_ne self] at thirdWaits
            exact only third held thirdWaits heldBlocks
  | @finish task known =>
    have weaker : ∀ {other : Task}, other ∉ task :: state.finished → other ∉ state.finished :=
      fun away inside => away (mem_cons_of_mem _ inside)
    refine ⟨fun other accepted unfinished => kept.placed other accepted (weaker unfinished),
      fun first firstIn second secondIn firstBlocks secondBlocks firstOpen secondOpen =>
        kept.one first firstIn second secondIn firstBlocks secondBlocks (weaker firstOpen)
          (weaker secondOpen), fun at_ waiting found blocks => ?_⟩
    obtain ⟨done, only⟩ := kept.alone at_ waiting found blocks
    exact ⟨fun other accepted otherBlocks =>
      mem_cons_of_mem _ (done other accepted otherBlocks), only⟩
  | @settle task threaded done =>
    refine kept.moved fun other unfinished place => place.imp (fun onList => ?_) id
    have away : other ≠ task := fun same => unfinished (same ▸ done)
    simpa [onList] using away
  | gather regular idle =>
    refine kept.moved fun other _ place => .inr ?_
    rcases place with onList | ⟨inner, inside, held⟩
    · exact ⟨_, mem_cons_self, by simpa [Gather.tasks] using onList⟩
    · exact ⟨inner, mem_cons_of_mem _ inside, held⟩
  | @visit task queue ran outer idle innermost =>
    refine kept.moved fun other _ place => place.imp id ?_
    rintro ⟨inner, inside, held⟩
    rw [innermost] at inside
    rcases mem_cons.mp inside with rfl | inside
    · refine ⟨_, mem_cons_self, ?_⟩
      simp only [Gather.tasks, mem_append, mem_cons, toList] at held ⊢
      tauto
    · exact ⟨inner, mem_cons_of_mem _ inside, held⟩
  | @skip task queue ran outer idle innermost =>
    refine kept.moved fun other _ place => ?_
    rcases place with onList | ⟨inner, inside, held⟩
    · exact .inl (mem_append_left _ onList)
    · rw [innermost] at inside
      rcases mem_cons.mp inside with rfl | inside
      · by_cases same : other = task
        · exact .inl (by simp [same])
        · refine .inr ⟨_, mem_cons_self, ?_⟩
          simp only [Gather.tasks, mem_append, mem_cons, toList] at held ⊢
          tauto
      · exact .inr ⟨inner, mem_cons_of_mem _ inside, held⟩
  | @leave task queue ran outer idle innermost =>
    refine kept.moved fun other unfinished place => place.imp id ?_
    rintro ⟨inner, inside, held⟩
    rw [innermost] at inside
    rcases mem_cons.mp inside with rfl | inside
    · refine ⟨_, mem_cons_self, ?_⟩
      simp only [Gather.tasks, mem_append, toList, mem_singleton] at held ⊢
      rcases held with (queued | rfl) | ran
      · exact .inl (.inl queued)
      · exact .inr (by simp [unfinished])
      · refine .inr ?_
        split
        · exact ran
        · exact mem_append_left _ ran
    · exact ⟨inner, mem_cons_of_mem _ inside, held⟩
  | @done ran outer idle innermost =>
    refine kept.moved fun other _ place => ?_
    rcases place with onList | ⟨inner, inside, held⟩
    · exact .inl (mem_append_left _ onList)
    · rw [innermost] at inside
      rcases mem_cons.mp inside with rfl | inside
      · exact .inl (mem_append_right _ (by simpa [Gather.tasks] using held))
      · exact .inr ⟨inner, inside, held⟩

theorem Blockers.kept_invariant (runner : Runner) (blocking : Task → Bool) :
    (wholeBlockers runner blocking).Invariant (fun state : Blockers Thread Task => state.Kept blocking) where
  start := by
    rintro _ rfl
    exact ⟨by simp [Blockers.empty], by simp [Blockers.AtMostOne, Blockers.empty],
      by simp [Blockers.empty]⟩
  step := fun _ _ kept moves => kept.step moves.1 moves.2

/-- While blocking tasks pass their look at whole lists only, at most one that is not finished is
accepted at any time. -/
theorem blockers_atMostOne (runner : Runner) (blocking : Task → Bool)
    {state : Blockers Thread Task} (reached : (wholeBlockers runner blocking).Reachable state) :
    state.AtMostOne blocking :=
  ((Blockers.kept_invariant runner blocking).reachable reached).one

/-- One task is pushed and put on the running list. -/
def onePushed : Blockers Unit Nat where
  running := [0]
  gathers := []
  deferred := []
  pushing := Function.update (Function.update (fun _ => none) none (some 0)) none none
  pushed := [0]
  accepted := [0]
  finished := []

theorem onePushed_reachable (runner : Runner) : (wholeBlockers runner fun _ => true).Reachable onePushed := by
  have start : (wholeBlockers runner fun _ => true).Reachable (@Blockers.empty Unit Nat) := .start rfl
  have looked := start.step ⟨.look none 0 rfl (fun _ => rfl)
      (by simp [Blockers.empty]) (by simp [Blockers.empty]),
    fun _ => ⟨by simp [Blockers.empty], by simp [Blockers.empty]⟩⟩
  exact looked.step ⟨.insert none 0 (by simp), fun ⟨thread, task, passes⟩ => by
    exfalso
    by_cases same : thread = none
    · simp [same] at passes
    · simp [onePushed, update_of_ne same] at passes⟩

/-- The task that was pushed is the one that is accepted. -/
theorem blockers_atMostOne_pushed : onePushed.AtMostOne fun _ => true :=
  blockers_atMostOne .threaded (fun _ => true) (onePushed_reachable .threaded)

/-- A handler of the unthreaded runner pushes a second blocking task while its own is detached, and
on the threaded runner two threads look before either inserts. -/
theorem blockers_two_accepted :
    (∃ state : Blockers Unit Nat, (blockers .regular fun _ => true).Reachable state ∧
      ¬ state.AtMostOne fun _ => true) ∧
    ∃ state : Blockers Unit Nat, (blockers .threaded fun _ => true).Reachable state ∧
      ¬ state.AtMostOne fun _ => true := by
  have start : ∀ runner, (blockers runner fun _ => true).Reachable
      (@Blockers.empty Unit Nat) := fun _ => .start rfl
  constructor
  · have looked := (start .regular).step (.look none 0 rfl (fun _ => rfl)
      (by simp [Blockers.empty]) (by simp [Blockers.empty]))
    have inserted := looked.step (.insert none 0 (by simp))
    have gathered := inserted.step (.gather rfl (by simp))
    have visited := gathered.step (.visit (by simp) rfl)
    have again := visited.step (.look none 1 (by simp) (fun _ => rfl)
      (by simp [Blockers.empty]) (by simp))
    have both := again.step (.insert none 1 (by simp))
    exact ⟨_, both, fun one => by simpa [Blockers.empty] using one 0 (by simp) 1 (by simp)⟩
  · have looked := (start .threaded).step (.look none 0 rfl (by simp)
      (by simp [Blockers.empty]) (by simp [Blockers.empty]))
    have again := looked.step (.look (some ()) 1 (by simp [Blockers.empty])
      (by simp) (by simp [Blockers.empty]) (by simp [Blockers.empty]))
    have inserted := again.step (.insert none 0 (by simp))
    have both := inserted.step (.insert (some ()) 1 (by simp))
    exact ⟨_, both, fun one => by simpa [Blockers.empty] using one 0 (by simp) 1 (by simp)⟩

end Libretro.TaskQueue
