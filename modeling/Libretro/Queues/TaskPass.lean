import Mathlib.Data.Fintype.EquivFin
import Mathlib.Data.List.Nodup
import Mathlib.Order.Monotone.Basic

/-! The pass of one check over the tasks of the main thread, and when it runs each due task once. -/

namespace Libretro.TaskQueue

/-- A task of the running list, as the pass sees it: which task it is, whether it is marked
`RETRO_TASK_FLG_MAIN_THREAD`, when it is to start, and where a park of it stands. -/
structure TimedTask where
  ident : Nat
  mainThread : Bool
  when : Nat
  parked : Bool
  woken : Bool
deriving DecidableEq

/-- The walk of `task_queue_put` to the first task that starts later. -/
def putBefore (task : TimedTask) : List TimedTask → List TimedTask
  | [] => [task]
  | front :: rest => if front.when ≤ task.when then front :: putBefore task rest else task :: front :: rest

/-- `task_queue_put`: behind every task that starts no later. -/
def put (queue : List TimedTask) (task : TimedTask) : List TimedTask :=
  match queue.getLast? with
  | none => [task]
  | some back => if task.when < back.when then putBefore task queue else queue ++ [task]

/-- `task_queue_remove`. -/
def remove (queue : List TimedTask) (ident : Nat) : List TimedTask := queue.eraseP (·.ident == ident)

/-- The task of that name, whose fields are read where it stands in the list. -/
def lookup (queue : List TimedTask) (ident : Nat) : Option TimedTask := queue.find? (·.ident == ident)

/-- A field of a task is written where it stands in the list. -/
def update (queue : List TimedTask) (ident : Nat) (write : TimedTask → TimedTask) : List TimedTask :=
  queue.map fun task => if task.ident = ident then write task else task

/-- A task is taken off the list, written, and put back. -/
def requeue (queue : List TimedTask) (task : TimedTask) (write : TimedTask → TimedTask) : List TimedTask :=
  put (remove queue task.ident) (write task)

/-- `retro_task_threaded_wake_locked`. -/
def wakeLocked (queue : List TimedTask) (task : TimedTask) : List TimedTask :=
  if task.when ≠ 0 then
    requeue queue task ({ · with when := 0, parked := false, woken := true })
  else update queue task.ident ({ · with woken := true })

/-- `retro_task_threaded_unpark_locked`. -/
def unparkLocked (queue : List TimedTask) (task : TimedTask) : List TimedTask :=
  if task.parked then
    requeue queue task ({ · with when := 0, parked := false, woken := false })
  else update queue task.ident ({ · with woken := false })

/-- `retro_task_threaded_reset`: every task is due now, and is put back in order. -/
def reset (queue : List TimedTask) : List TimedTask :=
  queue.foldl (fun running task =>
    put running { task with woken := true, when := 0, parked := false }) []

/-- What one run of a handler asks for: to be finished, or to go on after a park of so many
microseconds, none for no park. -/
structure Result where
  finished : Bool
  park : Nat

/-- Whether anything stands behind the task, the test of `task->next`. -/
def hasNext (queue : List TimedTask) (task : TimedTask) : Bool :=
  (queue.getLast?.map TimedTask.ident) != some task.ident

/-- `retro_task_threaded_settle`, with the clock it would read for a park. -/
def settle (now : Nat) (queue : List TimedTask) (task : TimedTask) (result : Result) : List TimedTask :=
  if result.finished then remove queue task.ident
  else if result.park ≠ 0 ∧ task.woken = false then
    -- `retro_task_threaded_park_locked`.
    requeue queue task ({ · with when := now + result.park, parked := true, woken := false })
  else if hasNext queue task then requeue queue task ({ · with woken := false })
  else update queue task.ident ({ · with woken := false })

/-- What a handler, or another thread meanwhile, may do to the running list: push a new task, wake
or cancel one, or reset them all. -/
inductive Act
  | push (task : TimedTask)
  | wake (ident : Nat)
  | reset

/-- One turn of the pass: what happens to the list from the moment the handler is called until
its task is settled (a gather it starts itself finds `in_run_main` set and runs no task), what
the handler asks for, and what happens before the list is looked at again. -/
structure Turn where
  during : List Act
  result : Result
  after : List Act

/-- `cpu_features_get_time_usec`, reading by reading: it never goes back. -/
structure Clock where
  reading : Nat → Nat
  steady : Monotone reading

/-- The running list, how often the clock was read, and the tasks whose handlers the pass has run,
in order. -/
structure Pass where
  running : List TimedTask
  reads : Nat
  ran : List Nat

/-- One thing done to the list; the name of a task that is pushed is a new one. -/
def Pass.act (pass : Pass) : Act → Pass
  | .push task =>
    if task.ident ∈ pass.running.map TimedTask.ident ∨ task.ident ∈ pass.ran then pass
    else { pass with running := put pass.running task }
  | .wake ident =>
    match lookup pass.running ident with
    | none => pass
    | some task => { pass with running := wakeLocked pass.running task }
  | .reset => { pass with running := TaskQueue.reset pass.running }

/-- The test of `retro_task_threaded_due_main`, at a time already read. -/
def dueMain (now : Nat) (task : TimedTask) : Bool := task.mainThread && !(task.when ≠ 0 && now < task.when)

/-- The first task of the main thread that is due, the clock read anew for each that has a start
time, with the readings taken so far. -/
def firstDue (clock : Clock) : List TimedTask → Nat → Option TimedTask × Nat
  | [], reads => (none, reads)
  | task :: rest, reads =>
    if !task.mainThread then firstDue clock rest reads
    else if task.when = 0 then (some task, reads)
    else if clock.reading reads < task.when then firstDue clock rest (reads + 1)
    else (some task, reads + 1)

/-- The running task is settled, with what was written into it while its handler ran. -/
def Pass.settleTask (clock : Clock) (pass : Pass) (ident : Nat) (result : Result) : Pass :=
  match lookup pass.running ident with
  | none => pass
  | some task => { pass with
      running := settle (clock.reading pass.reads) pass.running task result,
      reads := pass.reads + 1 }

/-- A task is about to run. -/
def Pass.take (pass : Pass) (task : TimedTask) : Pass :=
  { pass with running := unparkLocked pass.running task, ran := pass.ran ++ [task.ident] }

/-- The handler of a task is run, and the task settled. -/
def Pass.turn (clock : Clock) (pass : Pass) (task : TimedTask) (turn : Turn) : Pass :=
  let handled := turn.during.foldl Pass.act (pass.take task)
  turn.after.foldl Pass.act (handled.settleTask clock task.ident turn.result)

/-- The loop of `retro_task_threaded_run_main`: a budget of 0 is none. -/
def Pass.loop (clock : Clock) (budget started : Nat) (turns : Nat → Turn) : Nat → Pass → Pass
  | 0, pass => pass
  | due + 1, pass =>
    if pass.ran ≠ [] ∧ budget ≠ 0 ∧ budget ≤ clock.reading pass.reads - started then
      { pass with reads := pass.reads + 1 }
    else
      match firstDue clock pass.running (pass.reads + 1) with
      | (none, reads) => { pass with reads }
      | (some task, reads) =>
        loop clock budget started turns due (Pass.turn clock { pass with reads } task (turns pass.ran.length))

/-- A running list in the queue's order, each task once. -/
structure RunningList where
  tasks : List TimedTask
  sorted : tasks.Pairwise (·.when ≤ ·.when)
  distinct : (tasks.map TimedTask.ident).Nodup

/-- `retro_task_threaded_run_main`, on a list and with the count of tasks that were due. -/
def runMain (clock : Clock) (budget : Nat) (turns : Nat → Turn) (due : Nat) (list : RunningList) : Pass :=
  Pass.loop clock budget (clock.reading 0) turns due { running := list.tasks, reads := 1, ran := [] }

/-- The tasks of the main thread that are due. -/
def RunningList.due (list : RunningList) (now : Nat) : List TimedTask := list.tasks.filter (dueMain now)

/-- However the clock runs on and whatever the handlers and the other threads do, a pass counted
at that time runs no handler twice, and without a budget it runs every task that was due and is
still on the list. -/
def RunningList.OnceEach (list : RunningList) (now : Nat) : Prop :=
  ∀ (clock : Clock) (turns : Nat → Turn) (budget : Nat), now ≤ clock.reading 0 →
    let pass := runMain clock budget turns (list.due now).length list
    pass.ran.Nodup ∧ (budget = 0 → ∀ task ∈ list.due now,
        task.ident ∈ pass.running.map TimedTask.ident → task.ident ∈ pass.ran)

open List TimedTask

variable {queue : List TimedTask} {task other : TimedTask} {pending : List Nat} {pass : Pass}

/-- In the queue's order, and each task once. -/
structure Ordered (queue : List TimedTask) : Prop where
  sorted : queue.Pairwise (·.when ≤ ·.when)
  distinct : (queue.map ident).Nodup

theorem putBefore_split (task : TimedTask) (sorted : queue.Pairwise (·.when ≤ ·.when)) :
    ∃ front rest, queue = front ++ rest ∧ putBefore task queue = front ++ task :: rest ∧
      (∀ other ∈ front, other.when ≤ task.when) ∧ ∀ other ∈ rest, task.when < other.when := by
  induction queue with
  | nil => exact ⟨[], [], rfl, rfl, by simp, by simp⟩
  | cons first tail ih =>
    obtain ⟨before, sortedTail⟩ := pairwise_cons.mp sorted
    by_cases early : first.when ≤ task.when
    · obtain ⟨front, rest, split, placed, earlier, later⟩ := ih sortedTail
      refine ⟨first :: front, rest, by rw [split]; rfl, ?_, ?_, later⟩
      · simp [putBefore, early, placed]
      · simpa using ⟨early, earlier⟩
    · -- Nothing behind the first later task starts earlier than it does.
      refine ⟨[], first :: tail, rfl, by simp [putBefore, early], by simp, ?_⟩
      intro other member
      rcases mem_cons.mp member with rfl | member
      · omega
      · have := before other member; omega

theorem put_split (task : TimedTask) (sorted : queue.Pairwise (·.when ≤ ·.when)) :
    ∃ front rest, queue = front ++ rest ∧ put queue task = front ++ task :: rest ∧
      (∀ other ∈ front, other.when ≤ task.when) ∧ ∀ other ∈ rest, task.when < other.when := by
  unfold put
  cases last : queue.getLast? with
  | none =>
    rw [getLast?_eq_none_iff.mp last]
    exact ⟨[], [], rfl, rfl, by simp, by simp⟩
  | some back =>
    dsimp only
    split
    · exact putBefore_split task sorted
    · rename_i notLater
      -- The task at the back starts last of all.
      obtain ⟨front, rfl⟩ := getLast?_eq_some_iff.mp last
      refine ⟨front ++ [back], [], by simp, by simp, ?_, by simp⟩
      have before := (pairwise_append.mp sorted).2.2
      intro other member
      rcases mem_append.mp member with member | member
      · have := before other member back (by simp); omega
      · rw [mem_singleton.mp member]; omega

theorem put_perm (task : TimedTask)
    (sorted : queue.Pairwise (·.when ≤ ·.when)) : (put queue task).Perm (task :: queue) := by
  obtain ⟨front, rest, rfl, placed, -, -⟩ := put_split task sorted
  rw [placed]
  exact perm_middle

theorem Ordered.put (ordered : Ordered queue)
    (fresh : task.ident ∉ queue.map ident) : Ordered (put queue task) := by
  constructor
  · obtain ⟨front, rest, rfl, placed, earlier, later⟩ := put_split task ordered.sorted
    rw [placed]
    obtain ⟨sortedFront, sortedRest, between⟩ := pairwise_append.mp ordered.sorted
    refine pairwise_append.mpr ⟨sortedFront, pairwise_cons.mpr ⟨?_, sortedRest⟩, ?_⟩
    · exact fun other member => le_of_lt (later other member)
    · intro other member behind at_rest
      rcases mem_cons.mp at_rest with rfl | at_rest
      · exact earlier other member
      · exact between other member behind at_rest
  · rw [((put_perm task ordered.sorted).map _).nodup_iff, map_cons]
    exact nodup_cons.mpr ⟨fresh, ordered.distinct⟩

theorem remove_eq_filter (ident : Nat) (distinct : (queue.map TimedTask.ident).Nodup) :
    remove queue ident = queue.filter (·.ident != ident) := by
  unfold remove
  induction queue with
  | nil => rfl
  | cons first tail ih =>
    obtain ⟨other, distinctTail⟩ := nodup_cons.mp distinct
    by_cases same : first.ident = ident
    · -- No second task has the same name.
      have kept : tail.filter (·.ident != ident) = tail := by
        refine filter_eq_self.mpr fun task member => ?_
        have away : task.ident ≠ first.ident := fun equal => other (equal ▸ mem_map_of_mem member)
        simpa [same] using away
      simp [same, kept]
    · simp [same, ih distinctTail]

theorem Ordered.remove (ordered : Ordered queue) (ident : Nat) : Ordered (remove queue ident) := by
  rw [remove_eq_filter ident ordered.distinct]
  exact ⟨ordered.sorted.filter _, ordered.distinct.sublist (filter_sublist.map _)⟩

/-- What is done to a list on behalf of one task: it is taken off, it is put back, or something
other than its name and its start time is written. -/
inductive Change (queue : List TimedTask) (ident : Nat) : List TimedTask → Prop
  | removed : Change queue ident (remove queue ident)
  | placed (task : TimedTask) : task.ident = ident →
    Change queue ident (put (remove queue ident) task)
  | written (write : TimedTask → TimedTask) :
    (∀ task, (write task).ident = task.ident ∧ (write task).when = task.when ∧
      (write task).mainThread = task.mainThread) → Change queue ident (update queue ident write)

theorem change_wakeLocked (queue : List TimedTask) (task : TimedTask) :
    Change queue task.ident (wakeLocked queue task) := by
  unfold wakeLocked
  split
  · exact .placed _ rfl
  · exact .written _ fun _ => ⟨rfl, rfl, rfl⟩

theorem change_unparkLocked (queue : List TimedTask) (task : TimedTask) :
    Change queue task.ident (unparkLocked queue task) := by
  unfold unparkLocked
  split
  · exact .placed _ rfl
  · exact .written _ fun _ => ⟨rfl, rfl, rfl⟩

theorem change_settle (now : Nat) (queue : List TimedTask) (task : TimedTask) (result : Result) :
    Change queue task.ident (settle now queue task result) := by
  unfold settle requeue
  split_ifs
  · exact .removed
  · exact .placed _ rfl
  · exact .placed _ rfl
  · exact .written _ fun _ => ⟨rfl, rfl, rfl⟩

variable {ident : Nat}

theorem written_eq {write : TimedTask → TimedTask}
    (same : ∀ task, (write task).ident = task.ident ∧ (write task).when = task.when ∧
      (write task).mainThread = task.mainThread) (task : TimedTask) :
    (if task.ident = ident then write task else task).ident = task.ident ∧
      (if task.ident = ident then write task else task).when = task.when ∧
      (if task.ident = ident then write task else task).mainThread = task.mainThread := by
  split
  · exact same task
  · exact ⟨rfl, rfl, rfl⟩

variable {after : List TimedTask}

variable (change : Change queue ident after)
include change

theorem Change.ordered (ordered : Ordered queue) : Ordered after := by
  cases change with
  | removed => exact ordered.remove ident
  | placed task named =>
    refine (ordered.remove ident).put ?_
    rw [named, remove_eq_filter _ ordered.distinct]
    simp
  | written write same =>
    refine ⟨pairwise_map.mpr (ordered.sorted.imp fun before => ?_), ?_⟩
    · rwa [(written_eq same _).2.1, (written_eq same _).2.1]
    · simpa [update, Function.comp_def, (written_eq same _).1] using ordered.distinct

theorem Change.names
    (ordered : Ordered queue) (member : other ∈ after) : other.ident = ident ∨ other.ident ∈ queue.map TimedTask.ident := by
  have kept : ∀ {task}, task ∈ TaskQueue.remove queue ident →
      task.ident ∈ queue.map TimedTask.ident := fun inside =>
    mem_map_of_mem (mem_of_mem_eraseP inside)
  cases change with
  | removed => exact .inr (kept member)
  | placed task named =>
    rcases mem_cons.mp ((put_perm _ (ordered.remove _).sorted).mem_iff.mp member) with
      rfl | inside
    · exact .inl named
    · exact .inr (kept inside)
  | written write same =>
    obtain ⟨task, onList, rfl⟩ := mem_map.mp member
    exact .inr (mem_map.mpr ⟨task, onList, (written_eq same task).1.symm⟩)

theorem Change.keeps (ordered : Ordered queue) (onList : other ∈ queue) (away : other.ident ≠ ident) :
    other ∈ after := by
  have stays : other ∈ TaskQueue.remove queue ident := by
    rw [remove_eq_filter _ ordered.distinct]
    exact mem_filter.mpr ⟨onList, by simpa using away⟩
  cases change with
  | removed => exact stays
  | placed task named => exact (put_perm _ (ordered.remove _).sorted).mem_iff.mpr (mem_cons_of_mem _ stays)
  | written write same => exact mem_map.mpr ⟨other, onList, if_neg away⟩

omit change

/-- What a reset writes into every task. -/
def wokenAtOnce (task : TimedTask) : TimedTask := { task with woken := true, when := 0, parked := false }

theorem reset_eq_map (queue : List TimedTask) : reset queue = queue.map wokenAtOnce := by
  -- Each task goes behind those put back before it, which start no later.
  have general : ∀ (rest done : List TimedTask), (∀ task ∈ done, task.when = 0) →
      rest.foldl (fun running task => put running (wokenAtOnce task)) done
        = done ++ rest.map wokenAtOnce := by
    intro rest
    induction rest with
    | nil => intro done _; simp
    | cons task rest ih =>
      intro done zero
      have behind : put done (wokenAtOnce task) = done ++ [wokenAtOnce task] := by
        unfold put
        cases last : done.getLast? with
        | none => rw [getLast?_eq_none_iff.mp last]; rfl
        | some back =>
          have zeroBack := zero back (mem_of_getLast? last)
          simp [zeroBack]
      rw [foldl_cons, behind, ih]
      · simp
      · intro other member
        rcases mem_append.mp member with member | member
        · exact zero other member
        · rw [mem_singleton.mp member]; rfl
  calc reset queue = [] ++ queue.map wokenAtOnce := general queue [] (by simp)
    _ = queue.map wokenAtOnce := nil_append _

theorem Ordered.reset (ordered : Ordered queue) : Ordered (reset queue) := by
  rw [reset_eq_map]
  constructor
  · exact pairwise_map.mpr (ordered.sorted.imp fun _ => le_refl _)
  · simpa [Function.comp_def, wokenAtOnce] using ordered.distinct

theorem lookup_some (found : lookup queue ident = some task) : task ∈ queue ∧ task.ident = ident :=
  ⟨mem_of_find?_eq_some found, by simpa using find?_some found⟩

theorem lookup_of_mem (distinct : (queue.map TimedTask.ident).Nodup)
    (member : task ∈ queue) : lookup queue task.ident = some task := by
  cases found : lookup queue task.ident with
  | none => simpa using find?_eq_none.mp found task member
  | some other =>
    obtain ⟨onList, same⟩ := lookup_some found
    rw [inj_on_of_nodup_map distinct onList member same]

theorem Ordered.act (ordered : Ordered pass.running) (act : Act) : Ordered (pass.act act).running := by
  cases act with
  | push task =>
    simp only [Pass.act]
    split
    · exact ordered
    · rename_i fresh
      exact ordered.put fun member => fresh (.inl member)
  | wake ident =>
    simp only [Pass.act]
    split
    · exact ordered
    · exact (change_wakeLocked _ _).ordered ordered
  | reset => exact ordered.reset

theorem Ordered.acts (ordered : Ordered pass.running) (acts : List Act) :
    Ordered (acts.foldl Pass.act pass).running := by
  induction acts generalizing pass with
  | nil => exact ordered
  | cons act acts ih => exact ih (ordered.act act)

theorem Ordered.settleTask (ordered : Ordered pass.running) (clock : Clock) (ident : Nat)
    (result : Result) : Ordered (pass.settleTask clock ident result).running := by
  unfold Pass.settleTask
  split
  · exact ordered
  · exact (change_settle _ _ _ _).ordered ordered

/-- The first tasks of the main thread on the list are these, and all of them start at 0. -/
def Ahead (pending : List Nat) (queue : List TimedTask) : Prop :=
  ∃ front rest, queue.filter TimedTask.mainThread = front ++ rest ∧
    front.map TimedTask.ident = pending ∧ ∀ task ∈ front, task.when = 0

theorem Ahead.put (ahead : Ahead pending queue)
    (sorted : queue.Pairwise (·.when ≤ ·.when)) (task : TimedTask) :
    Ahead pending (put queue task) := by
  obtain ⟨front, rest, mains, names, zero⟩ := ahead
  obtain ⟨early, late, rfl, placed, -, later⟩ := put_split task sorted
  -- None of the tasks at the front starts later than the new one.
  have prefixed : ∃ more, early.filter mainThread = front ++ more := by
    rw [filter_append] at mains
    rcases append_eq_append_iff.mp mains with ⟨middle, same, split⟩ | ⟨middle, same, -⟩
    · cases middle with
      | nil => exact ⟨[], by simpa using same.symm⟩
      | cons first middle =>
        have inFront := zero first (by rw [same]; simp)
        have inLate : first ∈ late.filter mainThread := by rw [split]; simp
        have := later first (mem_filter.mp inLate).1
        omega
    · exact ⟨middle, same⟩
  obtain ⟨more, split⟩ := prefixed
  refine ⟨front, more ++ (task :: late).filter TimedTask.mainThread, ?_, names, zero⟩
  rw [placed, filter_append, split, List.append_assoc]

theorem Ahead.remove (ahead : Ahead pending queue) (ordered : Ordered queue) (other : ident ∉ pending) :
    Ahead pending (TaskQueue.remove queue ident) := by
  obtain ⟨front, rest, mains, names, zero⟩ := ahead
  have kept : front.filter (·.ident != ident) = front := by
    refine filter_eq_self.mpr fun task member => ?_
    have away : task.ident ≠ ident := fun equal => other (names ▸ equal ▸ mem_map_of_mem member)
    simpa using away
  refine ⟨front, rest.filter (·.ident != ident), ?_, names, zero⟩
  rw [remove_eq_filter _ ordered.distinct, filter_comm, mains, filter_append, kept]

theorem Ahead.drop (ahead : Ahead (ident :: pending) queue) (ordered : Ordered queue) :
    Ahead pending (TaskQueue.remove queue ident) := by
  obtain ⟨front, rest, mains, names, zero⟩ := ahead
  obtain ⟨first, front, rfl, named, names⟩ := map_eq_cons_iff.mp names
  have distinct : ((queue.filter TimedTask.mainThread).map TimedTask.ident).Nodup :=
    ordered.distinct.sublist (filter_sublist.map _)
  rw [mains, cons_append, map_cons, nodup_cons, named] at distinct
  have kept : (front ++ rest).filter (·.ident != ident) = front ++ rest := by
    refine filter_eq_self.mpr fun task member => ?_
    have away : task.ident ≠ ident := fun equal => distinct.1 (equal ▸ mem_map_of_mem member)
    simpa using away
  refine ⟨front, rest, ?_, names, fun task member => zero task (mem_cons_of_mem _ member)⟩
  rw [remove_eq_filter _ ordered.distinct, filter_comm, mains, cons_append,
    filter_cons_of_neg (by simp [named]), kept]

theorem Ahead.update (ahead : Ahead pending queue) (ident : Nat) {write : TimedTask → TimedTask}
    (same : ∀ task, (write task).ident = task.ident ∧ (write task).when = task.when ∧
      (write task).mainThread = task.mainThread) : Ahead pending (update queue ident write) := by
  obtain ⟨front, rest, mains, names, zero⟩ := ahead
  let change := fun task : TimedTask => if task.ident = ident then write task else task
  refine ⟨front.map change, rest.map change, ?_, ?_, ?_⟩
  · have sameMain : mainThread ∘ change = mainThread := funext fun task => (written_eq same task).2.2
    rw [TaskQueue.update, filter_map, sameMain, mains, map_append]
  · rw [map_map, ← names]
    exact map_congr_left fun task _ => (written_eq same task).1
  · intro task member
    obtain ⟨before, inFront, rfl⟩ := mem_map.mp member
    exact (written_eq same before).2.1.trans (zero before inFront)

include change

theorem Change.ahead (ordered : Ordered queue) (ahead : Ahead pending queue) (away : ident ∉ pending) :
    Ahead pending after := by
  cases change with
  | removed => exact ahead.remove ordered away
  | placed task named => exact (ahead.remove ordered away).put (ordered.remove _).sorted _
  | written write same => exact ahead.update _ same

theorem Change.ahead_first (ordered : Ordered queue) (ahead : Ahead (ident :: pending) queue) :
    Ahead (ident :: pending) after ∨ Ahead pending after := by
  cases change with
  | removed => exact .inr (ahead.drop ordered)
  | placed task named => exact .inr ((ahead.drop ordered).put (ordered.remove _).sorted _)
  | written write same => exact .inl (ahead.update _ same)

omit change

theorem Ahead.zero (ahead : Ahead pending queue) (ordered : Ordered queue) (onList : task ∈ queue)
    (named : task.ident ∈ pending) : task.mainThread = true ∧ task.when = 0 := by
  obtain ⟨front, rest, mains, names, zero⟩ := ahead
  obtain ⟨other, member, same⟩ := mem_map.mp (names ▸ named)
  have inMains : other ∈ queue.filter TimedTask.mainThread := by rw [mains]; exact mem_append_left _ member
  obtain ⟨otherOnList, main⟩ := mem_filter.mp inMains
  rw [← inj_on_of_nodup_map ordered.distinct otherOnList onList same]
  exact ⟨main, zero other member⟩

theorem Ahead.act (ahead : Ahead pending pass.running) (ordered : Ordered pass.running)
    (act : Act) : Ahead pending (pass.act act).running := by
  cases act with
  | push task =>
    simp only [Pass.act]
    split
    · exact ahead
    · exact ahead.put ordered.sorted _
  | wake ident =>
    simp only [Pass.act]
    split
    · exact ahead
    · rename_i task found
      by_cases started : task.when = 0
      · -- A task that starts at 0 already is only marked.
        rw [wakeLocked, if_neg (not_not.mpr started)]
        exact ahead.update _ fun _ => ⟨rfl, rfl, rfl⟩
      · exact (change_wakeLocked _ task).ahead ordered ahead fun named =>
          started (ahead.zero ordered (lookup_some found).1 named).2
  | reset =>
    obtain ⟨front, rest, mains, names, -⟩ := ahead
    refine ⟨front.map wokenAtOnce, rest.map wokenAtOnce, ?_, ?_, ?_⟩
    · simp only [Pass.act, reset_eq_map]
      rw [filter_map, ← map_append, ← mains]
      rfl
    · rw [map_map, ← names]; rfl
    · intro task member
      obtain ⟨before, -, rfl⟩ := mem_map.mp member
      rfl

theorem Ahead.acts (ahead : Ahead pending pass.running) (ordered : Ordered pass.running)
    (acts : List Act) : Ahead pending (acts.foldl Pass.act pass).running := by
  induction acts generalizing pass with
  | nil => exact ahead
  | cons act acts ih => exact ih (ahead.act ordered act) (ordered.act act)

@[simp] theorem Pass.acts_ran (pass : Pass) (acts : List Act) :
    (acts.foldl Pass.act pass).ran = pass.ran := by
  induction acts generalizing pass with
  | nil => rfl
  | cons act acts ih =>
    rw [foldl_cons, ih]
    cases act <;> simp only [Pass.act]
    all_goals split <;> rfl

@[simp] theorem Pass.turn_ran (clock : Clock) (pass : Pass) (task : TimedTask) (turn : Turn) :
    (pass.turn clock task turn).ran = pass.ran ++ [task.ident] := by
  simp only [Pass.turn, Pass.acts_ran, Pass.settleTask]
  split <;> simp [Pass.take]

theorem Ordered.turn (ordered : Ordered pass.running) (clock : Clock) (task : TimedTask)
    (turn : Turn) : Ordered (pass.turn clock task turn).running :=
  Ordered.acts (Ordered.settleTask (@Ordered.acts (pass.take task)
    ((change_unparkLocked _ _).ordered ordered) _) clock _ _) _

theorem Ahead.alone (ahead : Ahead (ident :: pending) queue) (ordered : Ordered queue)
    (named : task.ident = ident) (last : hasNext queue task = false) : pending = [] := by
  obtain ⟨front, rest, mains, names, -⟩ := ahead
  obtain ⟨first, front, rfl, firstNamed, rfl⟩ := map_eq_cons_iff.mp names
  -- The last task on the list is the first of the main thread.
  simp only [hasNext, bne_eq_false_iff_eq, Option.map_eq_some_iff] at last
  obtain ⟨back, atBack, same⟩ := last
  have firstIn : first ∈ queue.filter TimedTask.mainThread := by rw [mains]; simp
  have backFirst : back = first :=
    inj_on_of_nodup_map ordered.distinct (mem_of_getLast? atBack)
      (mem_filter.mp firstIn).1 (by rw [same, named, firstNamed])
  obtain ⟨init, rfl⟩ := getLast?_eq_some_iff.mp atBack
  have distinct : (((init ++ [back]).filter TimedTask.mainThread).map TimedTask.ident).Nodup :=
    ordered.distinct.sublist (filter_sublist.map _)
  rw [backFirst, filter_append, filter_cons_of_pos (by simpa using (mem_filter.mp firstIn).2)] at mains
  rw [backFirst, filter_append, filter_cons_of_pos (by simpa using (mem_filter.mp firstIn).2)] at distinct
  cases before : init.filter mainThread with
  | nil =>
    rw [before] at mains
    simp at mains
    simp [mains.1]
  | cons other more =>
    -- Otherwise it would stand on the list twice.
    rw [before] at mains distinct
    simp only [filter_nil, cons_append, List.cons.injEq] at mains
    rw [mains.1] at distinct
    simp at distinct

theorem ahead_nil (queue : List TimedTask) : Ahead [] queue :=
  ⟨[], queue.filter mainThread, rfl, rfl, by simp⟩

theorem Ahead.turn (ahead : Ahead (task.ident :: pending) pass.running)
    (ordered : Ordered pass.running) (away : task.ident ∉ pending) (clock : Clock)
    (turn : Turn) : Ahead pending (pass.turn clock task turn).running := by
  have taken := (change_unparkLocked pass.running task).ordered ordered
  -- Until it is settled it is either still the first, or has been put back behind them.
  have either := (change_unparkLocked pass.running task).ahead_first ordered ahead
  have handled := @Ordered.acts (pass.take task) taken turn.during
  have still := either.imp (fun first => @Ahead.acts _ (pass.take task) first taken turn.during)
    (fun behind => @Ahead.acts _ (pass.take task) behind taken turn.during)
  refine Ahead.acts ?_ (handled.settleTask clock _ _) _
  generalize turn.during.foldl Pass.act (pass.take task) = later at handled still
  unfold Pass.settleTask
  cases found : lookup later.running task.ident with
  | none =>
    -- It cannot be gone while it is the first.
    refine still.elim (fun first => ?_) id
    obtain ⟨front, rest, mains, names, -⟩ := first
    obtain ⟨current, front, rfl, named, -⟩ := map_eq_cons_iff.mp names
    have inMains : current ∈ later.running.filter mainThread := by rw [mains]; simp
    rw [← named, lookup_of_mem handled.distinct (mem_filter.mp inMains).1] at found
    cases found
  | some current =>
    obtain ⟨-, named⟩ := lookup_some found
    rcases still with first | behind
    · -- It stays where it is only when nothing stands behind it.
      rcases hasNext later.running current |>.eq_false_or_eq_true with next | last
      · have removed := (named ▸ first).drop handled
        dsimp only [settle, TaskQueue.requeue]
        rw [if_pos next]
        split_ifs
        · exact removed
        · exact removed.put (handled.remove _).sorted _
        · exact removed.put (handled.remove _).sorted _
      · rw [first.alone handled named last]
        exact ahead_nil _
    · exact (change_settle _ _ current _).ahead handled behind (named ▸ away)

theorem firstDue_ahead (clock : Clock) (ahead : Ahead (ident :: pending) queue) (reads : Nat) :
    ∃ task, firstDue clock queue reads = (some task, reads) ∧ task ∈ queue ∧ task.ident = ident := by
  obtain ⟨front, rest, mains, names, zero⟩ := ahead
  obtain ⟨first, front, rfl, named, -⟩ := map_eq_cons_iff.mp names
  have zeroFirst := zero first (by simp)
  induction queue with
  | nil => simp at mains
  | cons task tail ih =>
    by_cases main : task.mainThread
    · rw [filter_cons_of_pos main, cons_append, List.cons.injEq] at mains
      obtain ⟨rfl, -⟩ := mains
      exact ⟨task, by simp [firstDue, main, zeroFirst], by simp, named⟩
    · rw [filter_cons_of_neg main] at mains
      obtain ⟨found, search, member, same⟩ := ih mains
      exact ⟨found, by simpa [firstDue, main] using search, mem_cons_of_mem _ member, same⟩

theorem Pass.loop_once (clock : Clock) (budget started : Nat) (turns : Nat → Turn)
    (ordered : Ordered pass.running) (ahead : Ahead pending pass.running)
    (distinct : (pass.ran ++ pending).Nodup) :
    (pass.loop clock budget started turns pending.length).ran.Nodup ∧
      (budget = 0 → ∀ ident ∈ pass.ran ++ pending,
        ident ∈ (pass.loop clock budget started turns pending.length).ran) := by
  -- The induction is on the tasks that have not had their turn.
  induction pending generalizing pass with
  | nil => exact ⟨by simpa [Pass.loop] using distinct, fun _ ident member => by
      simpa [Pass.loop] using member⟩
  | cons ident pending ih =>
    have away : ident ∉ pending := by
      have := (nodup_append.mp distinct).2.1
      exact (nodup_cons.mp this).1
    rw [length_cons, Pass.loop]
    split
    · -- Past the budget, the rest wait.
      rename_i over_
      exact ⟨(nodup_append.mp distinct).1, fun unbounded => absurd unbounded over_.2.1⟩
    · obtain ⟨task, search, onList, rfl⟩ := firstDue_ahead clock ahead (pass.reads + 1)
      rw [search]
      let looked : Pass := { pass with reads := pass.reads + 1 }
      have next := ih (@Ordered.turn looked ordered clock task (turns pass.ran.length))
        (@Ahead.turn _ _ looked ahead ordered away clock _) (by simpa [looked] using distinct)
      simpa [looked] using next

theorem firstDue_le (clock : Clock)
    (sorted : queue.Pairwise (·.when ≤ ·.when)) {due : TimedTask} (onList : due ∈ queue)
    (main : due.mainThread = true) (reads : Nat) (past : due.when ≤ clock.reading reads) :
    ∃ task after, firstDue clock queue reads = (some task, after) ∧ task ∈ queue ∧
      task.mainThread = true ∧ task.when ≤ due.when := by
  induction queue generalizing reads with
  | nil => simp at onList
  | cons task tail ih =>
    obtain ⟨before, sortedTail⟩ := pairwise_cons.mp sorted
    have notLater : task.when ≤ due.when := by
      rcases mem_cons.mp onList with rfl | member
      · exact le_refl _
      · exact before due member
    by_cases ofMain : task.mainThread
    · -- It is due itself, as it starts no later.
      have found : ∃ after, firstDue clock (task :: tail) reads = (some task, after) := by
        by_cases zero : task.when = 0
        · exact ⟨reads, by simp [firstDue, ofMain, zero]⟩
        · exact ⟨reads + 1, by simp [firstDue, ofMain, zero]; omega⟩
      obtain ⟨after, search⟩ := found
      exact ⟨task, after, search, by simp, ofMain, notLater⟩
    · have inTail : due ∈ tail := by
        rcases mem_cons.mp onList with rfl | member
        · exact absurd main ofMain
        · exact member
      obtain ⟨found, after, search, member, rest⟩ := ih sortedTail inTail reads past
      exact ⟨found, after, by simpa [firstDue, ofMain] using search,
        mem_cons_of_mem _ member, rest⟩

theorem filter_zero_append (sorted : queue.Pairwise (·.when ≤ ·.when)) :
    ∃ rest, queue = queue.filter (·.when == 0) ++ rest := by
  induction queue with
  | nil => exact ⟨[], rfl⟩
  | cons task tail ih =>
    obtain ⟨before, sortedTail⟩ := pairwise_cons.mp sorted
    by_cases zero : task.when = 0
    · obtain ⟨rest, split⟩ := ih sortedTail
      refine ⟨rest, ?_⟩
      rw [filter_cons_of_pos (by simpa using zero), cons_append, ← split]
    · -- Nothing behind a later start starts at 0.
      have none_zero : (task :: tail).filter (·.when == 0) = [] := by
        refine filter_eq_nil_iff.mpr fun other member => ?_
        rcases mem_cons.mp member with rfl | member
        · simpa using zero
        · have := before other member
          simp only [beq_iff_eq]
          omega
      exact ⟨task :: tail, by rw [none_zero]; rfl⟩

variable {now : Nat}

theorem dueMain_iff : dueMain now task = true ↔ task.mainThread = true ∧ task.when ≤ now := by
  simp only [dueMain, ne_eq, decide_not, Bool.and_eq_true, Bool.not_eq_true',
    Bool.and_eq_false_iff, Bool.not_eq_false', decide_eq_true_eq, decide_eq_false_iff_not,
    Nat.not_lt]
  constructor
  · rintro ⟨main, zero | past⟩
    · exact ⟨main, by omega⟩
    · exact ⟨main, past⟩
  · rintro ⟨main, past⟩
    exact ⟨main, .inr past⟩

variable {list : RunningList}

theorem RunningList.ahead (zero : ∀ task ∈ list.due now, task.when = 0) :
    Ahead ((list.due now).map TimedTask.ident) list.tasks := by
  have same : list.due now = (list.tasks.filter TimedTask.mainThread).filter (·.when == 0) := by
    rw [RunningList.due, filter_filter]
    refine filter_congr fun task onList => ?_
    rw [Bool.eq_iff_iff, dueMain_iff]
    simp only [Bool.and_eq_true, beq_iff_eq]
    constructor
    · rintro ⟨main, past⟩
      have due : task ∈ list.due now := mem_filter.mpr ⟨onList, dueMain_iff.mpr ⟨main, past⟩⟩
      exact ⟨zero task due, main⟩
    · rintro ⟨atZero, main⟩
      exact ⟨main, by omega⟩
  obtain ⟨rest, split⟩ := filter_zero_append (list.sorted.filter mainThread)
  exact ⟨list.due now, rest, by rw [same]; exact split, rfl, zero⟩

theorem RunningList.onceEach_of_zero (zero : ∀ task ∈ list.due now, task.when = 0) : list.OnceEach now := by
  intro clock turns budget _
  have distinct : ((list.due now).map ident).Nodup := list.distinct.sublist (filter_sublist.map _)
  have once := Pass.loop_once clock budget (clock.reading 0) turns
    (show Ordered (Pass.mk list.tasks 1 []).running from ⟨list.sorted, list.distinct⟩)
    (RunningList.ahead zero) (by simpa using distinct)
  rw [length_map] at once
  refine ⟨once.1, fun unbounded task due _ => ?_⟩
  exact once.2 unbounded _ (by simpa using ⟨task, due, rfl⟩)

theorem RunningList.onceEach_of_single (single : (list.due now).length ≤ 1) : list.OnceEach now := by
  intro clock turns budget later
  match due : list.due now with
  | [] => exact ⟨by simp [runMain, Pass.loop], by simp⟩
  | [task] =>
    have isDue : task ∈ list.due now := by rw [due]; simp
    obtain ⟨onList, past⟩ := mem_filter.mp isDue
    obtain ⟨main, past⟩ := dueMain_iff.mp past
    obtain ⟨found, after, search, foundOn, foundMain, notLater⟩ :=
      firstDue_le clock list.sorted onList main 2 (past.trans (later.trans (clock.steady (Nat.zero_le 2))))
    -- What the search finds is due as well, so it is that task.
    have foundDue : found ∈ list.due now :=
      mem_filter.mpr ⟨foundOn, dueMain_iff.mpr ⟨foundMain, notLater.trans past⟩⟩
    rw [due, mem_singleton] at foundDue
    subst foundDue
    have ran : (runMain clock budget turns [found].length list).ran = [found.ident] := by
      simp [runMain, Pass.loop, search]
    dsimp only
    rw [ran]
    simp
  | first :: second :: rest =>
    rw [due] at single
    simp at single

/-- The pass goes on with nothing but the handlers' own unfinished work. -/
def idleTurn : Turn := { during := [], result := ⟨false, 0⟩, after := [] }

/-- In the first turn a task is pushed. -/
def pushTurns (new : TimedTask) : Nat → Turn
  | 0 => { idleTurn with during := [.push new] }
  | _ + 1 => idleTurn

/-- A clock that stands still. -/
def still (now : Nat) : Clock := ⟨fun _ => now, fun _ _ _ => le_refl _⟩

theorem firstDue_still (now : Nat) (queue : List TimedTask) (reads : Nat) :
    (firstDue (still now) queue reads).1 = (queue.filter (dueMain now)).head? := by
  induction queue generalizing reads with
  | nil => rfl
  | cons task tail ih =>
    by_cases main : task.mainThread
    · by_cases zero : task.when = 0
      · simp [firstDue, dueMain, main, zero]
      · by_cases past : now < task.when
        · simp [firstDue, dueMain, main, zero, still, past] at ih ⊢
          exact ih _
        · simp [firstDue, dueMain, main, zero, still, past]
    · simpa [firstDue, dueMain, main] using ih reads

theorem mem_unparkLocked_zero (ordered : Ordered queue) (onList : task ∈ queue)
    (zero : task.when = 0) : ∃ taken ∈ unparkLocked queue task, taken.ident = task.ident ∧
      taken.mainThread = task.mainThread ∧ taken.when = 0 := by
  unfold unparkLocked
  split
  · exact ⟨_, (put_perm _ (ordered.remove _).sorted).mem_iff.mpr mem_cons_self, rfl, rfl, rfl⟩
  · exact ⟨_, mem_map.mpr ⟨task, onList, if_pos rfl⟩, rfl, rfl, zero⟩

theorem mem_settle_idle (ordered : Ordered queue) (onList : task ∈ queue) :
    ∃ settled ∈ settle now queue task ⟨false, 0⟩, settled.mainThread = task.mainThread ∧
      settled.when = task.when := by
  simp only [settle, Bool.false_eq_true, if_false, ne_eq, not_true_eq_false, false_and]
  split
  · exact ⟨_, (put_perm _ (ordered.remove _).sorted).mem_iff.mpr mem_cons_self, rfl, rfl⟩
  · exact ⟨_, mem_map.mpr ⟨task, onList, if_pos rfl⟩, rfl, rfl⟩

/-- A task waits on the list in front of which one of the main thread starts at 0. -/
structure Pass.Starves (pass : Pass) (last : TimedTask) : Prop where
  ordered : Ordered pass.running
  waits : last ∈ pass.running
  late : last.when ≠ 0
  notRun : last.ident ∉ pass.ran
  first : ∃ task ∈ pass.running, task.mainThread = true ∧ task.when = 0

theorem Pass.Starves.turn {last : TimedTask} (starves : pass.Starves last) (clock : Clock)
    (onList : task ∈ pass.running) (main : task.mainThread = true) (zero : task.when = 0) :
    (pass.turn clock task idleTurn).Starves last := by
  have ordered := starves.ordered
  have away : last.ident ≠ task.ident := fun same =>
    starves.late (inj_on_of_nodup_map ordered.distinct starves.waits onList same ▸ zero)
  have change := change_unparkLocked pass.running task
  obtain ⟨taken, takenOn, named, takenMain, takenZero⟩ := mem_unparkLocked_zero ordered onList zero
  have found := named ▸ lookup_of_mem (change.ordered ordered).distinct takenOn
  refine ⟨ordered.turn clock task idleTurn, ?_, starves.late, ?_, ?_⟩
  · simp only [Pass.turn, idleTurn, foldl_nil, Pass.settleTask, Pass.take, found]
    exact (change_settle _ _ _ _).keeps (change.ordered ordered)
      (change.keeps ordered starves.waits away) (named ▸ away)
  · rw [Pass.turn_ran]
    simp [starves.notRun, away]
  · simp only [Pass.turn, idleTurn, foldl_nil, Pass.settleTask, Pass.take, found]
    obtain ⟨settled, settledOn, settledMain, settledZero⟩ := mem_settle_idle (change.ordered ordered) takenOn
    exact ⟨settled, settledOn, by rw [settledMain, takenMain, main], by rw [settledZero, takenZero]⟩

theorem Pass.Starves.loop {last new : TimedTask} (starves : pass.Starves last) (clock : Clock)
    (started due : Nat) (ranSome : pass.ran ≠ []) :
    (pass.loop clock 0 started (pushTurns new) due).Starves last := by
  induction due generalizing pass with
  | zero => exact starves
  | succ due ih =>
    obtain ⟨zeroTask, zeroOn, zeroMain, zero⟩ := starves.first
    obtain ⟨task, after, search, onList, main, notLater⟩ :=
      firstDue_le clock starves.ordered.sorted zeroOn zeroMain (pass.reads + 1)
        (by rw [zero]; exact Nat.zero_le _)
    have idle : pushTurns new pass.ran.length = idleTurn := by
      cases many : pass.ran.length with
      | zero => exact absurd (length_eq_zero_iff.mp many) ranSome
      | succ n => rfl
    simp only [Pass.loop, ne_eq, not_true_eq_false, false_and, and_false, if_false, search, idle]
    have looked : Pass.Starves { pass with reads := after } last :=
      ⟨starves.ordered, starves.waits, starves.late, starves.notRun, starves.first⟩
    exact ih (looked.turn clock onList main (by omega)) (by simp)

theorem Ordered.starved (ordered : Ordered pass.running) (clock : Clock) (noneRan : pass.ran = [])
    {first last new : TimedTask} (firstOn : first ∈ pass.running) (lastOn : last ∈ pass.running)
    (away : last.ident ≠ first.ident) (late : last.when ≠ 0)
    (fresh : new.ident ∉ pass.running.map TimedTask.ident) (main : new.mainThread = true)
    (zero : new.when = 0) : (pass.turn clock first (pushTurns new 0)).Starves last := by
  have change := change_unparkLocked pass.running first
  have apart : new.ident ≠ first.ident := fun same =>
    fresh (same ▸ mem_map_of_mem firstOn)
  have unheard : ¬ (new.ident ∈ (unparkLocked pass.running first).map ident ∨
      new.ident ∈ pass.ran ++ [first.ident]) := by
    rintro (member | ran)
    · obtain ⟨task, onList, same⟩ := mem_map.mp member
      exact (change.names ordered onList).elim (fun first => apart (same ▸ first))
        (fun listed => fresh (same ▸ listed))
    · simp [noneRan, apart] at ran
  have ordered' := change.ordered ordered
  have pushed := put_perm new ordered'.sorted
  have placed := ordered'.put fun member => unheard (.inl member)
  have stays : ∀ task ∈ TaskQueue.put (unparkLocked pass.running first) new, task.ident ≠ first.ident →
      task ∈ (pass.turn clock first (pushTurns new 0)).running := by
    intro task onList other
    simp only [Pass.turn, pushTurns, idleTurn, foldl_cons, foldl_nil, Pass.act,
      Pass.take, if_neg unheard, Pass.settleTask]
    split
    · exact onList
    · rename_i current found
      exact (change_settle (clock.reading pass.reads) _ current ⟨false, 0⟩).keeps placed onList
        ((lookup_some found).2 ▸ other)
  refine ⟨ordered.turn clock first _, stays last (pushed.mem_iff.mpr (mem_cons_of_mem _
    (change.keeps ordered lastOn away))) away, late, by simp [noneRan, away], new,
    stays new (pushed.mem_iff.mpr mem_cons_self) apart, main, zero⟩

theorem RunningList.not_onceEach
    (several : 2 ≤ (list.due now).length) {late : TimedTask} (lateDue : late ∈ list.due now)
    (started : late.when ≠ 0) : ¬ list.OnceEach now := by
  intro once
  have distinct : ((list.due now).map ident).Nodup := list.distinct.sublist (filter_sublist.map _)
  have sorted : (list.due now).Pairwise (·.when ≤ ·.when) := list.sorted.filter _
  -- The first of the due tasks is run, and the last of them waits.
  obtain ⟨first, rest, split⟩ := exists_cons_of_length_pos (show 0 < (list.due now).length by omega)
  have some_rest : rest ≠ [] := by
    rintro rfl
    rw [split] at several
    simp at several
  obtain ⟨init, last, same⟩ := (eq_nil_or_concat rest).resolve_left some_rest
  rw [concat_eq_append] at same
  subst same
  have lastDue : last ∈ list.due now := by rw [split]; simp
  have firstDueIn : first ∈ list.due now := by rw [split]; simp
  have away : last.ident ≠ first.ident := by
    rw [split] at distinct
    intro same
    simp [same] at distinct
  have lateLast : last.when ≠ 0 := by
    rw [split, ← cons_append] at sorted lateDue
    rcases mem_append.mp lateDue with inInit | isLast
    · have := (pairwise_append.mp sorted).2.2 late inInit last (by simp)
      omega
    · rw [← mem_singleton.mp isLast]
      exact started
  have lastOn := (mem_filter.mp lastDue).1
  have firstOn := (mem_filter.mp firstDueIn).1
  -- The first turn pushes a task with a new name.
  obtain ⟨ident, fresh⟩ := Infinite.exists_notMem_finset (list.tasks.map ident).toFinset
  let new : TimedTask := ⟨ident, true, 0, false, false⟩
  have head : (firstDue (still now) list.tasks 2).1 = some first := by
    rw [firstDue_still]
    have : list.tasks.filter (dueMain now) = first :: (init ++ [last]) := split
    rw [this]
    rfl
  obtain ⟨reads, search⟩ : ∃ reads, firstDue (still now) list.tasks 2 = (some first, reads) :=
    ⟨_, Prod.ext head rfl⟩
  let looked : Pass := { running := list.tasks, reads, ran := [] }
  have starves := @Ordered.starved looked ⟨list.sorted, list.distinct⟩ (still now) rfl first last new
    firstOn lastOn away lateLast (by simpa using fresh) rfl rfl
  -- Every later turn goes to a task that starts at 0.
  have done := @Pass.Starves.loop _ _ new starves (still now) now (init.length + 1) (by simp)
  have loops : runMain (still now) 0 (pushTurns new) (list.due now).length list
      = (looked.turn (still now) first (pushTurns new 0)).loop (still now) 0 now (pushTurns new)
          (init.length + 1) := by
    have many : (list.due now).length = init.length + 1 + 1 := by rw [split]; simp
    rw [many, runMain, Pass.loop]
    simp only [ne_eq, not_true_eq_false, false_and, if_false, search, length_nil, looked]
    rfl
  have must := (once (still now) (pushTurns new) 0 (le_refl _)).2 rfl last lastDue
  rw [loops] at must
  exact done.notRun (must (mem_map_of_mem done.waits))

/-- A pass gives each due task one turn, whatever the handlers do, exactly when all due tasks
start at 0 or no more than one is due. -/
theorem RunningList.onceEach_iff (list : RunningList) (now : Nat) : list.OnceEach now ↔
      (∀ task ∈ list.due now, task.when = 0) ∨ (list.due now).length ≤ 1 := by
  constructor
  · intro once
    by_contra neither
    obtain ⟨timed, several⟩ := not_or.mp neither
    obtain ⟨late, timed⟩ := not_forall.mp timed
    obtain ⟨lateDue, started⟩ := Classical.not_imp.mp timed
    exact RunningList.not_onceEach (by omega) lateDue started once
  · rintro (zero | single)
    · exact RunningList.onceEach_of_zero zero
    · exact RunningList.onceEach_of_single single

/-- A task that starts at once and one whose start time is past. -/
def onceAndLate : RunningList where
  tasks := [⟨0, true, 0, false, false⟩, ⟨1, true, 5, false, false⟩]
  sorted := by simp
  distinct := by decide

/-- With no handler finishing, the one that starts at once is run twice, and the other is not. -/
theorem onceEach_taken_twice : ¬ onceAndLate.OnceEach 9 := by
  intro once
  have ran := (once (still 9) (fun _ => idleTurn) 0 (le_refl _)).1
  revert ran
  decide

end Libretro.TaskQueue
