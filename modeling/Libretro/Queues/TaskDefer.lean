import Libretro.Library.LinkedChain
import Libretro.Library.Transition
import Mathlib.Data.List.Nodup

/-! Pushes of tasks from other threads, who has each task at every access, and in which order they enter. -/

namespace Libretro.TaskQueue

open LinkedChain

variable {Thread Node : Type} [DecidableEq Thread] [DecidableEq Node]

/-- One push: the thread that made it (none is the thread that drives the queue), which of its
pushes it is, and whether the task is of the type `TASK_TYPE_BLOCKING`. -/
structure Push (Thread : Type) where
  thread : Option Thread
  number : Nat
  blocking : Bool

/-- Where a push of a thread other than the driving one stands. -/
inductive Pusher (Node : Type) where
  | idle
  -- `task_wake_gate_enter`: both looks at `task_switching`, and the count between them.
  | enter (node : Node)
  | count (node : Node)
  | recheck (node : Node)
  | turned (node : Node)
  -- `task_queue_push`, inside the gate.
  | choose (node : Node)
  -- `task_queue_push_now`: before its scan, and before `push_running`.
  | scan (node : Node)
  | put (node : Node)
  -- The loop of `task_queue_defer`, inside the gate or not.
  | load (node : Node) (inside : Bool)
  | swap (node : Node) (head : Option Node) (inside : Bool)
  | leave

/-- Where the driving thread stands in `task_queue_push_deferred`, and in pushes of its own. -/
inductive Driver (Node : Type) where
  | rest
  | reverse (snap : Node) (task fifo : Option Node)
  | hand (snap : Node) (fifo : Option Node) (refused : List Node)
  | scan (snap task : Node) (fifo : Option Node) (refused : List Node)
  | put (snap task : Node) (fifo : Option Node) (refused : List Node)
  | cut (snap : Node) (refused : List Node)
  | reload (snap : Node) (refused : List Node)
  | walk (snap task : Node) (refused : List Node)
  | retire (refused : List Node)
  | ownScan (node : Node)
  | ownPut (node : Node)

/-- The shared words, the tasks, and where each thread stands. -/
structure Config (Thread Node : Type) where
  -- `task_deferred`, and the links of the tasks.
  head : Option Node
  next : Node → Option Node
  task : Node → Push Thread
  cancelled : Node → Bool
  running : List Node
  finished : List Node
  -- The gate, and whether the runner is the threaded one.
  switching : Bool
  wakers : Nat
  threaded : Bool
  pushers : Thread → Pusher Node
  driver : Driver Node
  -- The refused tasks in whose callbacks the driving thread is, and what it goes on with after each.
  calls : List (Node × List Node)
  -- An address is free until a task is pushed at it, and again once the task is freed.
  free : Node → Bool
  pushes : Option Thread → Nat
  -- For the specification only: the tasks that were held, what the driving thread did with each
  -- (true is handed to the runner), what entered the running list, and what was retired as refused.
  held : List (Push Thread)
  decided : List (Push Thread × Bool)
  entered : List (Push Thread)
  retired : List (Push Thread)

/-- An empty queue, and no thread in the middle of anything. -/
structure Config.Initial (config : Config Thread Node) : Prop where
  head : config.head = none
  running : config.running = []
  finished : config.finished = []
  pushers : ∀ thread, config.pushers thread = .idle
  driver : config.driver = .rest
  calls : config.calls = []
  held : config.held = []
  decided : config.decided = []
  entered : config.entered = []
  retired : config.retired = []

/-- One thread goes on. -/
def Config.moves (config : Config Thread Node) (thread : Thread) (pusher : Pusher Node) :
    Config Thread Node :=
  { config with pushers := Function.update config.pushers thread pusher }

/-- The driving thread goes on. -/
def Config.drives (config : Config Thread Node) (driver : Driver Node) : Config Thread Node :=
  { config with driver }

/-- A task is made at a free address. -/
def Config.makes (config : Config Thread Node) (node : Node) (thread : Option Thread)
    (blocking : Bool) : Config Thread Node :=
  { config with
    task := Function.update config.task node ⟨thread, config.pushes thread, blocking⟩
    cancelled := Function.update config.cancelled node false
    free := Function.update config.free node false
    pushes := Function.update config.pushes thread (config.pushes thread + 1) }

/-- An address is free again. -/
def Config.frees (config : Config Thread Node) (node : Node) : Config Thread Node :=
  { config with free := Function.update config.free node true }

/-- `push_running`: a task enters the running list. -/
def Config.runs (config : Config Thread Node) (node : Node) : Config Thread Node :=
  { config with
    running := config.running ++ [node]
    entered := config.entered ++ [config.task node] }

/-- The driving thread has done with a held task what it does. -/
def Config.decides (config : Config Thread Node) (node : Node) (handed : Bool) : Config Thread Node :=
  { config with decided := config.decided ++ [(config.task node, handed)] }

/-- A second blocking task may not enter the running list beside the first. -/
def Config.Blocked (config : Config Thread Node) (node : Node) : Prop :=
  (config.task node).blocking = true ∧ ∃ other ∈ config.running, (config.task other).blocking = true

/-- One access to memory by a thread that pushes, or by the runner; each access to the head is
atomic. -/
inductive PusherStep (config : Config Thread Node) : Config Thread Node → Prop
  | call {thread : Thread} {node : Node} (blocking : Bool)
      (idle : config.pushers thread = .idle) (free : config.free node = true) :
      PusherStep config ((config.makes node (some thread) blocking).moves thread (.enter node))
  | enterOpen {thread : Thread} {node : Node} (stands : config.pushers thread = .enter node)
      (gate : config.switching = false) :
      PusherStep config (config.moves thread (.count node))
  | enterShut {thread : Thread} {node : Node} (stands : config.pushers thread = .enter node)
      (gate : config.switching = true) :
      PusherStep config (config.moves thread (.load node false))
  | count {thread : Thread} {node : Node} (stands : config.pushers thread = .count node) :
      PusherStep config { config.moves thread (.recheck node) with wakers := config.wakers + 1 }
  | recheckOpen {thread : Thread} {node : Node} (stands : config.pushers thread = .recheck node)
      (gate : config.switching = false) :
      PusherStep config (config.moves thread (.choose node))
  | recheckShut {thread : Thread} {node : Node} (stands : config.pushers thread = .recheck node)
      (gate : config.switching = true) :
      PusherStep config (config.moves thread (.turned node))
  | turned {thread : Thread} {node : Node} (stands : config.pushers thread = .turned node) :
      PusherStep config { config.moves thread (.load node false) with wakers := config.wakers - 1 }
  -- The unthreaded queue's lists take no lock, and a held task may be this thread's own.
  | chooseHold {thread : Thread} {node : Node} (stands : config.pushers thread = .choose node)
      (hold : config.threaded = false ∨ config.head ≠ none) :
      PusherStep config (config.moves thread (.load node true))
  | chooseNow {thread : Thread} {node : Node} (stands : config.pushers thread = .choose node)
      (threaded : config.threaded = true) (empty : config.head = none) :
      PusherStep config (config.moves thread (.scan node))
  | scanBlocked {thread : Thread} {node : Node} (stands : config.pushers thread = .scan node)
      (blocked : config.Blocked node) :
      PusherStep config ((config.frees node).moves thread .leave)
  | scanClear {thread : Thread} {node : Node} (stands : config.pushers thread = .scan node)
      (clear : ¬ config.Blocked node) :
      PusherStep config (config.moves thread (.put node))
  | put {thread : Thread} {node : Node} (stands : config.pushers thread = .put node) :
      PusherStep config ((config.runs node).moves thread .leave)
  | load {thread : Thread} {node : Node} {inside : Bool}
      (stands : config.pushers thread = .load node inside) :
      PusherStep config { config.moves thread (.swap node config.head inside) with
        next := Function.update config.next node config.head }
  | swapHeld {thread : Thread} {node : Node} {head : Option Node} {inside : Bool}
      (stands : config.pushers thread = .swap node head inside) (same : config.head = head) :
      PusherStep config { config.moves thread (if inside then .leave else .idle) with
        head := some node
        held := config.held ++ [config.task node] }
  | swapRetry {thread : Thread} {node : Node} {head : Option Node} {inside : Bool}
      (stands : config.pushers thread = .swap node head inside) (other : config.head ≠ head) :
      PusherStep config (config.moves thread (.load node inside))
  | leave {thread : Thread} (stands : config.pushers thread = .leave) :
      PusherStep config { config.moves thread .idle with wakers := config.wakers - 1 }
  -- Any thread may ask for a task to be cancelled, and a task in the runner's lists may finish, and
  -- have its link written, at any time.
  | cancel (node : Node) :
      PusherStep config { config with cancelled := Function.update config.cancelled node true }
  | finish {node : Node} (runs : node ∈ config.running) :
      PusherStep config { config with
        running := config.running.erase node
        finished := config.finished ++ [node] }
  | link {node : Node} (listed : node ∈ config.running ++ config.finished) (link : Option Node) :
      PusherStep config { config with next := Function.update config.next node link }

/-- One access to memory by the thread that drives the queue. -/
inductive DriverStep (config : Config Thread Node) : Config Thread Node → Prop
  -- `task_queue_push_deferred`: the snapshot, and its links reversed in place.
  | snapshot {snap : Node} (stands : config.driver = .rest) (head : config.head = some snap) :
      DriverStep config (config.drives (.reverse snap (some snap) none))
  | reverse {snap task : Node} {fifo : Option Node}
      (stands : config.driver = .reverse snap (some task) fifo) :
      DriverStep config { config.drives (.reverse snap (config.next task) (some task)) with
        next := Function.update config.next task fifo }
  | reversed {snap : Node} {fifo : Option Node}
      (stands : config.driver = .reverse snap none fifo) :
      DriverStep config (config.drives (.hand snap fifo []))
  -- Each task in turn: cancelled while held, refused by the runner, or handed to it.
  | handCancelled {snap task : Node} {refused : List Node}
      (stands : config.driver = .hand snap (some task) refused)
      (cancelled : config.cancelled task = true) :
      DriverStep config ((config.decides task false).drives
        (.hand snap (config.next task) (refused ++ [task])))
  | handNow {snap task : Node} {refused : List Node}
      (stands : config.driver = .hand snap (some task) refused)
      (clear : config.cancelled task = false) :
      DriverStep config (config.drives (.scan snap task (config.next task) refused))
  | scanBlocked {snap task : Node} {fifo : Option Node} {refused : List Node}
      (stands : config.driver = .scan snap task fifo refused) (blocked : config.Blocked task) :
      DriverStep config ((config.decides task false).drives (.hand snap fifo (refused ++ [task])))
  | scanClear {snap task : Node} {fifo : Option Node} {refused : List Node}
      (stands : config.driver = .scan snap task fifo refused) (clear : ¬ config.Blocked task) :
      DriverStep config (config.drives (.put snap task fifo refused))
  | put {snap task : Node} {fifo : Option Node} {refused : List Node}
      (stands : config.driver = .put snap task fifo refused) :
      DriverStep config (((config.decides task true).runs task).drives (.hand snap fifo refused))
  | handed {snap : Node} {refused : List Node} (stands : config.driver = .hand snap none refused) :
      DriverStep config (config.drives (.cut snap refused))
  -- The cut, below any task held since.
  | cut {snap : Node} {refused : List Node} (stands : config.driver = .cut snap refused)
      (same : config.head = some snap) :
      DriverStep config { config.drives (.retire refused) with head := none }
  | cutLate {snap : Node} {refused : List Node} (stands : config.driver = .cut snap refused)
      (other : config.head ≠ some snap) :
      DriverStep config (config.drives (.reload snap refused))
  | reload {snap task : Node} {refused : List Node} (stands : config.driver = .reload snap refused)
      (head : config.head = some task) :
      DriverStep config (config.drives (.walk snap task refused))
  | walk {snap task other : Node} {refused : List Node}
      (stands : config.driver = .walk snap task refused) (next : config.next task = some other)
      (on : other ≠ snap) :
      DriverStep config (config.drives (.walk snap other refused))
  | sever {snap task : Node} {refused : List Node}
      (stands : config.driver = .walk snap task refused) (next : config.next task = some snap) :
      DriverStep config { config.drives (.retire refused) with
        next := Function.update config.next task none }
  -- The refused tasks are retired; a callback may push, gather and switch.
  | callback {node : Node} {refused : List Node}
      (stands : config.driver = .retire (node :: refused)) :
      DriverStep config { config.drives .rest with
        cancelled := Function.update config.cancelled node true
        calls := (node, refused) :: config.calls }
  | returns {node : Node} {refused : List Node} {calls : List (Node × List Node)}
      (stands : config.driver = .rest) (called : config.calls = (node, refused) :: calls) :
      DriverStep config { (config.frees node).drives (.retire refused) with
        calls := calls
        retired := config.retired ++ [config.task node] }
  | retired (stands : config.driver = .retire []) : DriverStep config (config.drives .rest)
  -- The driving thread's own pushes, and the retiring of finished tasks.
  | own {node : Node} (blocking : Bool) (stands : config.driver = .rest)
      (free : config.free node = true) :
      DriverStep config ((config.makes node none blocking).drives (.ownScan node))
  | ownBlocked {node : Node} (stands : config.driver = .ownScan node)
      (blocked : config.Blocked node) :
      DriverStep config ((config.frees node).drives .rest)
  | ownClear {node : Node} (stands : config.driver = .ownScan node)
      (clear : ¬ config.Blocked node) :
      DriverStep config (config.drives (.ownPut node))
  | ownPut {node : Node} (stands : config.driver = .ownPut node) :
      DriverStep config ((config.runs node).drives .rest)
  | retireFinished {node : Node} (stands : config.driver = .rest)
      (finished : node ∈ config.finished) :
      DriverStep config { config.frees node with finished := config.finished.erase node }
  -- The gate, and a switch of the runner while nobody is inside.
  | close (stands : config.driver = .rest) : DriverStep config { config with switching := true }
  | switch (threaded : Bool) (stands : config.driver = .rest) (shut : config.switching = true)
      (quiet : config.wakers = 0) : DriverStep config { config with threaded }
  | opens (stands : config.driver = .rest) : DriverStep config { config with switching := false }

/-- Every run of the threads. -/
def system (Thread Node : Type) [DecidableEq Thread] [DecidableEq Node] :
    Transition.System (Config Thread Node) where
  start := Config.Initial
  step config next := PusherStep config next ∨ DriverStep config next

/-- The tasks that are held, by what a drain has done with them: pushed since the snapshot, the
newest first; of the snapshot, not yet reversed, the newest first; reversed and not yet decided, the oldest
first; and, of those pushed since, the ones behind the place where the cut looks. -/
structure Layout (Node : Type) where
  young : List Node := []
  left : List Node := []
  todo : List Node := []
  older : List Node := []

/-- The tasks that are held and not yet decided, the oldest first. -/
def Layout.pending {Node : Type} (layout : Layout Node) : List Node :=
  layout.left.reverse ++ layout.todo ++ layout.young.reverse

section

variable {Thread Node : Type}

/-- The task that a push has in hand. -/
def Pusher.node : Pusher Node → Option Node
  | .idle | .leave => none
  | .enter node | .count node | .recheck node | .turned node | .choose node | .scan node
  | .put node | .load node _ | .swap node _ _ => some node

/-- A push that has found no task held. -/
def Pusher.direct : Pusher Node → Bool
  | .scan _ | .put _ => true
  | _ => false

/-- The tasks that a drain has refused. -/
def Driver.refused : Driver Node → List Node
  | .hand _ _ refused | .scan _ _ _ refused | .put _ _ _ refused | .cut _ refused
  | .reload _ refused | .walk _ _ refused | .retire refused => refused
  | _ => []

/-- The snapshot of a drain that has not made its cut. -/
def Driver.snap : Driver Node → Option Node
  | .reverse snap _ _ | .hand snap _ _ | .scan snap _ _ _ | .put snap _ _ _ | .cut snap _
  | .reload snap _ | .walk snap _ _ => some snap
  | _ => none

/-- The task of the driving thread's own push. -/
def Driver.own : Driver Node → List Node
  | .ownScan node | .ownPut node => [node]
  | _ => []

/-- What the links lead through, at each place of the driving thread. -/
def Driver.Shape (next : Node → Option Node) (head : Option Node) (layout : Layout Node) : Driver Node → Prop
  | .rest | .retire _ | .ownScan _ | .ownPut _ =>
    Chain next head layout.young ∧ layout.left = [] ∧ layout.todo = []
  | .reverse snap task fifo =>
    Segment next head layout.young (some snap) ∧ Chain next task layout.left ∧ Chain next fifo layout.todo
  | .hand snap fifo _ =>
    Segment next head layout.young (some snap) ∧ layout.left = [] ∧ Chain next fifo layout.todo
  | .scan snap task fifo _ | .put snap task fifo _ =>
    Segment next head layout.young (some snap) ∧ layout.left = [] ∧
      ∃ rest, layout.todo = task :: rest ∧ Chain next fifo rest
  | .cut snap _ => Segment next head layout.young (some snap) ∧ layout.left = [] ∧ layout.todo = []
  | .reload snap _ =>
    Segment next head layout.young (some snap) ∧ layout.left = [] ∧ layout.todo = [] ∧ layout.young ≠ []
  | .walk snap task _ =>
    Segment next head layout.young (some snap) ∧ layout.left = [] ∧ layout.todo = [] ∧
      ∃ newer, layout.young = newer ++ task :: layout.older

/-- The refused tasks that wait for a callback to return. -/
def Config.waiting (config : Config Thread Node) : List Node :=
  config.calls.flatMap fun call => call.1 :: call.2

/-- Every task that is not in the hand of a thread that pushes it. -/
def Config.places (config : Config Thread Node) (layout : Layout Node) : List Node :=
  layout.young ++ layout.left ++ layout.todo ++ config.driver.refused ++ config.waiting ++
    config.running ++ config.finished ++ config.driver.own

/-- What holds of the links and of who has each task, between any two accesses. -/
structure Holds (layout : Layout Node) (config : Config Thread Node) : Prop where
  shape : config.driver.Shape config.next config.head layout
  apart : (config.places layout).Nodup
  busy : ∀ node ∈ config.places layout, config.free node = false
  -- A task in a thread's hand is nowhere else.
  hands : ∀ thread node, (config.pushers thread).node = some node →
    config.free node = false ∧ node ∉ config.places layout ∧
      ∀ other, (config.pushers other).node = some node → other = thread
  linked : ∀ thread node head inside, config.pushers thread = .swap node head inside → config.next node = head
  -- The snapshot is not freed before the cut.
  snap : ∀ snap, config.driver.snap = some snap →
    snap ∈ layout.left ++ layout.todo ++ config.driver.refused ++ config.running ++ config.finished

theorem Config.mem_places {config : Config Thread Node} {layout : Layout Node} {node : Node} :
    node ∈ config.places layout ↔ node ∈ layout.young ∨ node ∈ layout.left ∨ node ∈ layout.todo ∨
      node ∈ config.driver.refused ∨ node ∈ config.waiting ∨ node ∈ config.running ∨
      node ∈ config.finished ∨ node ∈ config.driver.own := by
  simp only [Config.places, List.mem_append, or_assoc]

section Links

variable [DecidableEq Node] {next : Node → Option Node} {head : Option Node}
  {layout : Layout Node} {driver : Driver Node} {node : Node}

/-- A store to the link of a task that is not held leaves the links of those that are. -/
theorem Driver.Shape.update (shape : driver.Shape next head layout) (young : node ∉ layout.young)
    (left : node ∉ layout.left) (todo : node ∉ layout.todo) (link : Option Node) :
    driver.Shape (Function.update next node link) head layout := by
  cases driver with
  | rest => exact ⟨shape.1.update young link, shape.2⟩
  | retire => exact ⟨shape.1.update young link, shape.2⟩
  | ownScan => exact ⟨shape.1.update young link, shape.2⟩
  | ownPut => exact ⟨shape.1.update young link, shape.2⟩
  | reverse => exact ⟨shape.1.update young link, shape.2.1.update left link, shape.2.2.update todo link⟩
  | hand => exact ⟨shape.1.update young link, shape.2.1, shape.2.2.update todo link⟩
  | cut => exact ⟨shape.1.update young link, shape.2⟩
  | reload => exact ⟨shape.1.update young link, shape.2⟩
  | walk => exact ⟨shape.1.update young link, shape.2⟩
  | scan | put =>
    obtain ⟨segment, none, rest, same, chain⟩ := shape
    rw [same, List.mem_cons, not_or] at todo
    exact ⟨segment.update young link, none, rest, same, chain.update todo.2 link⟩

omit [DecidableEq Node] in
theorem Driver.Shape.push (shape : driver.Shape next head layout) (linked : next node = head) :
    driver.Shape next (some node) { layout with young := node :: layout.young } := by
  cases driver with
  | rest => exact ⟨⟨rfl, linked ▸ shape.1⟩, shape.2⟩
  | retire => exact ⟨⟨rfl, linked ▸ shape.1⟩, shape.2⟩
  | ownScan => exact ⟨⟨rfl, linked ▸ shape.1⟩, shape.2⟩
  | ownPut => exact ⟨⟨rfl, linked ▸ shape.1⟩, shape.2⟩
  | reverse => exact ⟨⟨rfl, linked ▸ shape.1⟩, shape.2⟩
  | hand => exact ⟨⟨rfl, linked ▸ shape.1⟩, shape.2⟩
  | scan => exact ⟨⟨rfl, linked ▸ shape.1⟩, shape.2⟩
  | put => exact ⟨⟨rfl, linked ▸ shape.1⟩, shape.2⟩
  | cut => exact ⟨⟨rfl, linked ▸ shape.1⟩, shape.2⟩
  | reload => exact ⟨⟨rfl, linked ▸ shape.1⟩, shape.2.1, shape.2.2.1, by simp⟩
  | walk =>
    obtain ⟨segment, left, todo, newer, same⟩ := shape
    exact ⟨⟨rfl, linked ▸ segment⟩, left, todo, node :: newer, by rw [same]; rfl⟩

omit [DecidableEq Node] in
theorem Driver.Shape.empty (shape : driver.Shape next none layout) : layout.pending = [] := by
  have segment : ∀ {snap : Node}, ¬ Segment next none layout.young (some snap) := by
    intro snap segment
    cases young : layout.young with
    | nil =>
      rw [young] at segment
      cases segment
    | cons first rest =>
      rw [young] at segment
      cases segment.1
  cases driver with
  | rest | retire | ownScan | ownPut =>
    obtain ⟨chain, left, todo⟩ := shape
    rw [Layout.pending, chain_none chain, left, todo]
    rfl
  | reverse | hand | scan | put | cut | reload | walk => exact absurd shape.1 segment

end Links

end

open Function List

variable {Thread Node : Type} [DecidableEq Thread] [DecidableEq Node]
  {layout after : Layout Node} {config next : Config Thread Node} {thread : Thread} {node : Node}

omit [DecidableEq Thread] [DecidableEq Node] in
/-- Tasks that are in a place are moved to other places. -/
theorem Holds.shuffle (holds : Holds layout config) (shape : next.driver.Shape next.next next.head after)
    (places : (next.places after).Perm (config.places layout)) (free : next.free = config.free)
    (pushers : next.pushers = config.pushers)
    (links : ∀ node ∉ config.places layout, next.next node = config.next node)
    (snap : ∀ snap, next.driver.snap = some snap →
      snap ∈ after.left ++ after.todo ++ next.driver.refused ++ next.running ++ next.finished) :
    Holds after next where
  shape := shape
  apart := places.nodup_iff.2 holds.apart
  busy := fun node placed => by
    rw [free]
    exact holds.busy node (places.mem_iff.1 placed)
  hands := fun thread node hand => by
    rw [pushers] at hand ⊢
    rw [free, places.mem_iff]
    exact holds.hands thread node hand
  linked := fun thread node head inside stands => by
    rw [pushers] at stands
    have hand : (config.pushers thread).node = some node := by rw [stands]; rfl
    rw [links node (holds.hands thread node hand).2.1]
    exact holds.linked thread node head inside stands
  snap := snap

omit [DecidableEq Thread] in
/-- A task leaves its place and is freed. -/
theorem Holds.drop (holds : Holds layout config) (shape : next.driver.Shape next.next next.head after)
    (places : (config.places layout).Perm (node :: next.places after))
    (free : next.free = Function.update config.free node true) (pushers : next.pushers = config.pushers)
    (links : ∀ node ∉ config.places layout, next.next node = config.next node)
    (snap : ∀ snap, next.driver.snap = some snap →
      snap ∈ after.left ++ after.todo ++ next.driver.refused ++ next.running ++ next.finished) :
    Holds after next := by
  have apart := places.nodup_iff.1 holds.apart
  rw [nodup_cons] at apart
  have still : ∀ other ∈ next.places after, other ∈ config.places layout :=
    fun other placed => places.mem_iff.2 (mem_cons_of_mem _ placed)
  exact {
    shape := shape
    apart := apart.2
    busy := fun other placed => by
      have different : other ≠ node := fun same => apart.1 (same ▸ placed)
      rw [free, update_of_ne different]
      exact holds.busy other (still other placed)
    hands := fun thread other hand => by
      rw [pushers] at hand ⊢
      obtain ⟨busy, outside, only⟩ := holds.hands thread other hand
      have different : other ≠ node := by
        rintro rfl
        exact outside (places.mem_iff.2 mem_cons_self)
      rw [free, update_of_ne different]
      exact ⟨busy, fun placed => outside (still other placed), only⟩
    linked := fun thread other head inside stands => by
      rw [pushers] at stands
      have hand : (config.pushers thread).node = some other := by rw [stands]; rfl
      rw [links other (holds.hands thread other hand).2.1]
      exact holds.linked thread other head inside stands
    snap := snap }

omit [DecidableEq Thread] in
/-- A task is made, and takes a place. -/
theorem Holds.adopt (holds : Holds layout config) (fresh : config.free node = true)
    (shape : next.driver.Shape next.next next.head after)
    (places : (next.places after).Perm (node :: config.places layout))
    (free : next.free = Function.update config.free node false)
    (pushers : next.pushers = config.pushers) (links : next.next = config.next)
    (snap : ∀ snap, next.driver.snap = some snap →
      snap ∈ after.left ++ after.todo ++ next.driver.refused ++ next.running ++ next.finished) :
    Holds after next := by
  have outside : node ∉ config.places layout := by
    intro placed
    have busy := holds.busy node placed
    rw [fresh] at busy
    cases busy
  exact {
    shape := shape
    apart := places.nodup_iff.2 (nodup_cons.2 ⟨outside, holds.apart⟩)
    busy := fun other placed => by
      rw [free]
      rcases mem_cons.1 (places.mem_iff.1 placed) with rfl | before
      · exact update_self ..
      · have different : other ≠ node := fun same => outside (same ▸ before)
        rw [update_of_ne different]
        exact holds.busy other before
    hands := fun thread other hand => by
      rw [pushers] at hand ⊢
      obtain ⟨busy, away, only⟩ := holds.hands thread other hand
      have different : other ≠ node := by
        rintro rfl
        rw [fresh] at busy
        cases busy
      rw [free, update_of_ne different, places.mem_iff, mem_cons, not_or]
      exact ⟨busy, ⟨different, away⟩, only⟩
    linked := fun thread other head inside stands => by
      rw [pushers] at stands
      rw [links]
      exact holds.linked thread other head inside stands
    snap := snap }

omit [DecidableEq Node] in
/-- A thread gives the task in its hand to a place. -/
theorem Holds.give (holds : Holds layout config) (hand : (config.pushers thread).node = some node)
    {pusher : Pusher Node} (empty : pusher.node = none)
    (shape : next.driver.Shape next.next next.head after)
    (places : (next.places after).Perm (node :: config.places layout)) (free : next.free = config.free)
    (pushers : next.pushers = Function.update config.pushers thread pusher)
    (links : next.next = config.next) (snap : ∀ snap, next.driver.snap = some snap →
      snap ∈ after.left ++ after.todo ++ next.driver.refused ++ next.running ++ next.finished) :
    Holds after next := by
  obtain ⟨busy, outside, only⟩ := holds.hands thread node hand
  -- Whoever still has a task in hand is another thread, and has another task.
  have others : ∀ other third, (next.pushers other).node = some third →
      (config.pushers other).node = some third ∧ third ≠ node := by
    intro other third handOther
    have different : other ≠ thread := by
      rintro rfl
      rw [pushers, update_self, empty] at handOther
      cases handOther
    rw [pushers, update_of_ne different] at handOther
    refine ⟨handOther, ?_⟩
    rintro rfl
    exact different (only other handOther)
  exact {
    shape := shape
    apart := places.nodup_iff.2 (nodup_cons.2 ⟨outside, holds.apart⟩)
    busy := fun other placed => by
      rw [free]
      rcases mem_cons.1 (places.mem_iff.1 placed) with rfl | before
      · exact busy
      · exact holds.busy other before
    hands := fun other third handOther => by
      obtain ⟨before, different⟩ := others other third handOther
      obtain ⟨busyThird, away, onlyThird⟩ := holds.hands other third before
      rw [free, places.mem_iff, mem_cons, not_or]
      exact ⟨busyThird, ⟨different, away⟩, fun fourth handFourth =>
        onlyThird fourth (others fourth third handFourth).1⟩
    linked := fun other third head inside stands => by
      have different : other ≠ thread := by
        rintro rfl
        rw [pushers, update_self] at stands
        rw [stands] at empty
        cases empty
      rw [pushers, update_of_ne different] at stands
      rw [links]
      exact holds.linked other third head inside stands
    snap := snap }

omit [DecidableEq Node] in
/-- A thread goes on with the same task in hand. -/
theorem Holds.moves (holds : Holds layout config) {pusher : Pusher Node}
    (same : pusher.node = (config.pushers thread).node)
    (plain : ∀ node head inside, pusher ≠ .swap node head inside) :
    Holds layout (config.moves thread pusher) := by
  have hands : ∀ other, ((config.moves thread pusher).pushers other).node = (config.pushers other).node := by
    intro other
    by_cases here : other = thread
    · subst here
      simp [Config.moves, same]
    · simp [Config.moves, update_of_ne here]
  exact { holds with
    hands := fun other third hand => by
      rw [hands] at hand
      obtain ⟨busy, away, only⟩ := holds.hands other third hand
      refine ⟨busy, away, fun fourth handFourth => ?_⟩
      rw [hands] at handFourth
      exact only fourth handFourth
    linked := fun other third head inside stands => by
      by_cases here : other = thread
      · subst here
        simp only [Config.moves, update_self] at stands
        exact absurd stands (plain third head inside)
      · simp only [Config.moves, update_of_ne here] at stands
        exact holds.linked other third head inside stands }

/-- A thread makes a task at a free address. -/
theorem Holds.call (holds : Holds layout config) {blocking : Bool}
    (idle : config.pushers thread = .idle) (fresh : config.free node = true) :
    Holds layout ((config.makes node (some thread) blocking).moves thread (.enter node)) := by
  have outside : node ∉ config.places layout := by
    intro placed
    have busy := holds.busy node placed
    rw [fresh] at busy
    cases busy
  have elsewhere : ∀ other, (config.pushers other).node ≠ some node := by
    intro other hand
    have busy := (holds.hands other node hand).1
    rw [fresh] at busy
    cases busy
  -- The other threads have what they had, and nobody has the new task.
  have others : ∀ other third, other ≠ thread →
      (((config.makes node (some thread) blocking).moves thread (.enter node)).pushers other).node =
        some third → (config.pushers other).node = some third := by
    intro other third different hand
    simpa [Config.moves, Config.makes, update_of_ne different] using hand
  exact { holds with
    busy := fun other placed => by
      have different : other ≠ node := by
        rintro rfl
        exact outside placed
      exact (update_of_ne different ..).trans (holds.busy other placed)
    hands := fun other third hand => by
      by_cases here : other = thread
      · subst here
        have same : third = node := by simpa [Config.moves, Config.makes, Pusher.node, eq_comm] using hand
        subst same
        refine ⟨update_self .., outside, fun fourth handFourth => ?_⟩
        by_contra different
        exact elsewhere fourth (others fourth third different handFourth)
      · have before := others other third here hand
        obtain ⟨busy, away, only⟩ := holds.hands other third before
        have different : third ≠ node := by
          rintro rfl
          exact elsewhere other before
        refine ⟨(update_of_ne different ..).trans busy, away, fun fourth handFourth => ?_⟩
        by_cases there : fourth = thread
        · subst there
          have same : third = node := by
            simpa [Config.moves, Config.makes, Pusher.node, eq_comm] using handFourth
          exact absurd same different
        · exact only fourth (others fourth third there handFourth)
    linked := fun other third head inside stands => by
      have different : other ≠ thread := by
        rintro rfl
        simp [Config.moves] at stands
      simp only [Config.moves, update_of_ne different] at stands
      exact holds.linked other third head inside stands }

/-- A thread gives its task back to whoever asked for the push. -/
theorem Holds.giveBack (holds : Holds layout config)
    (hand : (config.pushers thread).node = some node) {pusher : Pusher Node}
    (empty : pusher.node = none) : Holds layout ((config.frees node).moves thread pusher) := by
  obtain ⟨-, outside, only⟩ := holds.hands thread node hand
  have others : ∀ other third, (((config.frees node).moves thread pusher).pushers other).node = some third →
        (config.pushers other).node = some third ∧ third ≠ node := by
    intro other third handOther
    have different : other ≠ thread := by
      rintro rfl
      simp [Config.moves, Config.frees, empty] at handOther
    simp only [Config.moves, Config.frees, update_of_ne different] at handOther
    refine ⟨handOther, ?_⟩
    rintro rfl
    exact different (only other handOther)
  exact { holds with
    busy := fun other placed => by
      have different : other ≠ node := by
        rintro rfl
        exact outside placed
      exact (update_of_ne different ..).trans (holds.busy other placed)
    hands := fun other third handOther => by
      obtain ⟨before, different⟩ := others other third handOther
      obtain ⟨busy, away, onlyThird⟩ := holds.hands other third before
      exact ⟨(update_of_ne different ..).trans busy, away, fun fourth handFourth =>
        onlyThird fourth (others fourth third handFourth).1⟩
    linked := fun other third head inside stands => by
      have different : other ≠ thread := by
        rintro rfl
        simp only [Config.moves, Config.frees, update_self] at stands
        rw [stands] at empty
        cases empty
      simp only [Config.moves, Config.frees, update_of_ne different] at stands
      exact holds.linked other third head inside stands }

/-- A thread links its task to the head that it has read. -/
theorem Holds.load (holds : Holds layout config) {inside : Bool}
    (stands : config.pushers thread = .load node inside) :
    Holds layout { config.moves thread (.swap node config.head inside) with
      next := Function.update config.next node config.head } := by
  have hand : (config.pushers thread).node = some node := by rw [stands]; rfl
  obtain ⟨-, outside, only⟩ := holds.hands thread node hand
  simp only [Config.mem_places, not_or] at outside
  have hands : ∀ other, ((config.moves thread (.swap node config.head inside)).pushers other).node =
      (config.pushers other).node := by
    intro other
    by_cases here : other = thread
    · subst here
      rw [hand]
      simp only [Config.moves, update_self]
      rfl
    · simp [Config.moves, update_of_ne here]
  exact { holds with
    shape := holds.shape.update outside.1 outside.2.1 outside.2.2.1 config.head
    hands := fun other third handOther => by
      dsimp only at handOther ⊢
      rw [hands] at handOther
      obtain ⟨busy, away, onlyThird⟩ := holds.hands other third handOther
      refine ⟨busy, away, fun fourth handFourth => ?_⟩
      rw [hands] at handFourth
      exact onlyThird fourth handFourth
    linked := fun other third head inside' swaps => by
      dsimp only at swaps ⊢
      by_cases here : other = thread
      · subst here
        simp only [Config.moves, update_self, Pusher.swap.injEq] at swaps
        obtain ⟨rfl, rfl, -⟩ := swaps
        exact update_self ..
      · simp only [Config.moves, update_of_ne here] at swaps
        have different : third ≠ node := by
          rintro rfl
          exact here (only other (by rw [swaps]; rfl))
        rw [update_of_ne different]
        exact holds.linked other third head inside' swaps }

/-- Of two pushes of one thread, the first was made first. -/
def Push.Before {Thread : Type} (push other : Push Thread) : Prop :=
  push.thread = other.thread → push.number < other.number

section

variable {Thread Node : Type}

theorem Push.Before.irrefl {push : Push Thread} (before : push.Before push) : False :=
  Nat.lt_irrefl _ (before rfl)

/-- A push that its thread has made after all its pushes that have entered the running list or the
held ones. -/
def Config.Latest (config : Config Thread Node) (push : Push Thread) : Prop :=
  push.number < config.pushes push.thread ∧ ∀ earlier ∈ config.entered ++ config.held, earlier.Before push

/-- What holds of the records, between any two accesses. -/
structure Records (layout : Layout Node) (config : Config Thread Node) : Prop where
  held : config.held = config.decided.map Prod.fst ++ layout.pending.map config.task
  line : (config.entered ++ layout.pending.map config.task).Pairwise Push.Before
  heldLine : config.held.Pairwise Push.Before
  numbers : ∀ push ∈ config.entered ++ config.held, push.number < config.pushes push.thread
  hands : ∀ thread node, (config.pushers thread).node = some node →
    (config.task node).thread = some thread ∧ config.Latest (config.task node)
  own : ∀ node ∈ config.driver.own, (config.task node).thread = none ∧ config.Latest (config.task node)
  -- A thread that pushes directly has no task held.
  direct : ∀ thread, (config.pushers thread).direct = true →
    ∀ push ∈ layout.pending.map config.task, push.thread ≠ some thread
  threads : ∀ push ∈ config.held, push.thread ≠ none
  handed : ((config.decided.filter (·.2)).map Prod.fst).Sublist config.entered
  refused : ((config.decided.filter (!·.2)).map Prod.fst).Perm
    (config.retired ++ (config.driver.refused ++ config.waiting).map config.task)
  -- A task that is refused never runs.
  spared : ∀ pushed ∈ config.decided, pushed.2 = false → pushed.1 ∉ config.entered

variable {layout after : Layout Node} {config next : Config Thread Node}

variable (records : Records layout config)
include records

theorem Records.decided_mem {pushed : Push Thread × Bool}
    (listed : pushed ∈ config.decided) : pushed.1 ∈ config.held := by
  rw [records.held]
  exact mem_append_left _ (mem_map_of_mem listed)

/-- A step that records nothing. -/
theorem Records.quiet (held : next.held = config.held)
    (decided : next.decided = config.decided) (entered : next.entered = config.entered)
    (pushes : next.pushes = config.pushes) (task : next.task = config.task)
    (pending : after.pending = layout.pending)
    (refused : (next.retired ++ (next.driver.refused ++ next.waiting).map config.task).Perm
      (config.retired ++ (config.driver.refused ++ config.waiting).map config.task))
    (hands : ∀ thread node, (next.pushers thread).node = some node → (config.pushers thread).node = some node)
    (own : ∀ node ∈ next.driver.own, node ∈ config.driver.own)
    (direct : ∀ thread, (next.pushers thread).direct = true →
      (config.pushers thread).direct = true ∨ layout.pending = []) : Records after next where
  held := by rw [held, decided, pending, task, records.held]
  line := by
    rw [entered, pending, task]
    exact records.line
  heldLine := held ▸ records.heldLine
  numbers := by
    rw [entered, held, pushes]
    exact records.numbers
  hands := fun thread node hand => by
    rw [Config.Latest, entered, held, pushes, task]
    exact records.hands thread node (hands thread node hand)
  own := fun node owns => by
    rw [Config.Latest, entered, held, pushes, task]
    exact records.own node (own node owns)
  direct := fun thread now push listed => by
    rw [pending, task] at listed
    rcases direct thread now with before | empty
    · exact records.direct thread before push listed
    · rw [empty] at listed
      cases listed
  threads := held ▸ records.threads
  handed := by
    rw [decided, entered]
    exact records.handed
  refused := by
    rw [decided, task]
    exact records.refused.trans refused.symm
  spared := by
    rw [decided, entered]
    exact records.spared

/-- A thread that has its task no longer, and whose push has entered the running list while none of
its tasks was held. -/
theorem Records.enters {push : Push Thread} (latest : config.Latest push)
    (apart : ∀ other ∈ layout.pending.map config.task, other.thread ≠ push.thread)
    (held : next.held = config.held) (decided : next.decided = config.decided)
    (entered : next.entered = config.entered ++ [push]) (pushes : next.pushes = config.pushes)
    (task : next.task = config.task) (pending : after.pending = layout.pending)
    (refused : next.retired ++ (next.driver.refused ++ next.waiting).map config.task =
      config.retired ++ (config.driver.refused ++ config.waiting).map config.task)
    (hands : ∀ thread node, (next.pushers thread).node = some node →
      (config.pushers thread).node = some node ∧ push.thread ≠ some thread)
    (own : ∀ node ∈ next.driver.own, node ∈ config.driver.own ∧ push.thread ≠ none)
    (direct : ∀ thread, (next.pushers thread).direct = true →
      (config.pushers thread).direct = true) : Records after next := by
  -- The push comes after every earlier one of the threads that still have a task.
  have later : ∀ other : Push Thread, config.Latest other → push.thread ≠ other.thread →
      next.Latest other := by
    intro other before different
    refine ⟨pushes ▸ before.1, ?_⟩
    rw [entered, held]
    intro earlier listed
    simp only [mem_append, mem_singleton] at listed
    rcases listed with (before' | rfl) | before'
    · exact before.2 earlier (mem_append_left _ before')
    · exact fun same => absurd same different
    · exact before.2 earlier (mem_append_right _ before')
  exact {
    held := by rw [held, decided, pending, task, records.held]
    line := by
      rw [entered, pending, task, List.append_assoc, pairwise_append]
      obtain ⟨first, second, cross⟩ := pairwise_append.1 records.line
      refine ⟨first, pairwise_cons.2 ⟨?_, second⟩, ?_⟩
      · exact fun other listed same => absurd same.symm (apart other listed)
      · intro earlier before other listed
        rcases mem_cons.1 listed with rfl | listed
        · exact latest.2 earlier (mem_append_left _ before)
        · exact cross earlier before other listed
    heldLine := held ▸ records.heldLine
    numbers := by
      rw [entered, held, pushes]
      intro other listed
      simp only [mem_append, mem_singleton] at listed
      rcases listed with (before | rfl) | before
      · exact records.numbers other (mem_append_left _ before)
      · exact latest.1
      · exact records.numbers other (mem_append_right _ before)
    hands := fun thread node hand => by
      obtain ⟨before, different⟩ := hands thread node hand
      obtain ⟨owner, last⟩ := records.hands thread node before
      rw [task]
      exact ⟨owner, later _ last (owner ▸ different)⟩
    own := fun node owns => by
      obtain ⟨before, different⟩ := own node owns
      obtain ⟨owner, last⟩ := records.own node before
      rw [task]
      exact ⟨owner, later _ last (owner ▸ different)⟩
    direct := fun thread now other listed => by
      rw [pending, task] at listed
      exact records.direct thread (direct thread now) other listed
    threads := held ▸ records.threads
    handed := by
      rw [decided, entered]
      exact records.handed.trans (sublist_append_left _ _)
    refused := by
      rw [decided, task, refused]
      exact records.refused
    spared := by
      rw [decided, entered]
      intro pushed listed no more
      rcases mem_append.1 more with before | new
      · exact records.spared pushed listed no before
      · -- The push comes after all that were held, of which the refused one was one.
        have among := records.decided_mem listed
        rw [mem_singleton.1 new] at among
        exact (latest.2 push (mem_append_right _ among)).irrefl }

/-- A thread that has its task no longer, and whose push is held. -/
theorem Records.holds {thread : Thread} {node : Node} (hand : (config.pushers thread).node = some node)
    (held : next.held = config.held ++ [config.task node]) (decided : next.decided = config.decided)
    (entered : next.entered = config.entered) (pushes : next.pushes = config.pushes)
    (task : next.task = config.task) (pending : after.pending = layout.pending ++ [node])
    (refused : next.retired ++ (next.driver.refused ++ next.waiting).map config.task =
      config.retired ++ (config.driver.refused ++ config.waiting).map config.task)
    (hands : ∀ other third, (next.pushers other).node = some third →
      (config.pushers other).node = some third ∧ other ≠ thread)
    (own : next.driver.own = config.driver.own) (direct : ∀ other, (next.pushers other).direct = true →
      (config.pushers other).direct = true ∧ other ≠ thread) : Records after next := by
  obtain ⟨owner, latest⟩ := records.hands thread node hand
  have later : ∀ other : Push Thread, config.Latest other → other.thread ≠ some thread →
      next.Latest other := by
    intro other before different
    refine ⟨pushes ▸ before.1, ?_⟩
    rw [entered, held]
    intro earlier listed
    simp only [mem_append, mem_singleton] at listed
    rcases listed with before' | before' | rfl
    · exact before.2 earlier (mem_append_left _ before')
    · exact before.2 earlier (mem_append_right _ before')
    · exact fun same => absurd (same.symm.trans owner) different
  have among : ∀ push ∈ layout.pending.map config.task, push ∈ config.held := by
    intro push listed
    rw [records.held]
    exact mem_append_right _ listed
  exact {
    held := by
      rw [held, decided, pending, task, map_append, ← List.append_assoc, ← records.held]
      rfl
    line := by
      rw [entered, pending, task, map_append, ← List.append_assoc, pairwise_append]
      refine ⟨records.line, pairwise_singleton _ _, ?_⟩
      intro earlier before push listed
      rw [mem_singleton.1 listed]
      rcases mem_append.1 before with before | before
      · exact latest.2 earlier (mem_append_left _ before)
      · exact latest.2 earlier (mem_append_right _ (among earlier before))
    heldLine := by
      rw [held, pairwise_append]
      refine ⟨records.heldLine, pairwise_singleton _ _, ?_⟩
      intro earlier before push listed
      rw [mem_singleton.1 listed]
      exact latest.2 earlier (mem_append_right _ before)
    numbers := by
      rw [entered, held, pushes]
      intro push listed
      simp only [mem_append, mem_singleton] at listed
      rcases listed with before | before | rfl
      · exact records.numbers push (mem_append_left _ before)
      · exact records.numbers push (mem_append_right _ before)
      · exact latest.1
    hands := fun other third handOther => by
      obtain ⟨before, different⟩ := hands other third handOther
      obtain ⟨ownerThird, last⟩ := records.hands other third before
      rw [task]
      refine ⟨ownerThird, later _ last ?_⟩
      rw [ownerThird]
      exact fun same => different (Option.some.inj same)
    own := fun third owns => by
      rw [own] at owns
      obtain ⟨ownerThird, last⟩ := records.own third owns
      rw [task]
      refine ⟨ownerThird, later _ last ?_⟩
      rw [ownerThird]
      exact nofun
    direct := fun other now push listed => by
      obtain ⟨before, different⟩ := direct other now
      rw [pending, task, map_append] at listed
      rcases mem_append.1 listed with listed | listed
      · exact records.direct other before push listed
      · rw [mem_singleton.1 listed, owner]
        exact fun same => different (Option.some.inj same).symm
    threads := by
      rw [held]
      intro push listed
      rcases mem_append.1 listed with listed | listed
      · exact records.threads push listed
      · rw [mem_singleton.1 listed, owner]
        exact nofun
    handed := by
      rw [decided, entered]
      exact records.handed
    refused := by
      rw [decided, task, refused]
      exact records.refused
    spared := by
      rw [decided, entered]
      exact records.spared }

/-- The oldest held task is decided: handed to the runner, or refused. -/
theorem Records.decides {node : Node} (handed : Bool)
    (oldest : layout.pending = node :: after.pending) (held : next.held = config.held)
    (decided : next.decided = config.decided ++ [(config.task node, handed)])
    (entered : next.entered = config.entered ++ if handed then [config.task node] else [])
    (pushes : next.pushes = config.pushes) (task : next.task = config.task)
    (refused : (next.retired ++ (next.driver.refused ++ next.waiting).map config.task).Perm
      ((if handed then [] else [config.task node]) ++
        (config.retired ++ (config.driver.refused ++ config.waiting).map config.task)))
    (pushers : next.pushers = config.pushers) (own : next.driver.own = []) :
    Records after next := by
  have pending : layout.pending.map config.task =
      config.task node :: after.pending.map config.task := by rw [oldest, map_cons]
  have among : config.task node ∈ config.held := by
    rw [records.held, pending]
    exact mem_append_right _ mem_cons_self
  -- What has entered is what had, and the task that is handed, which was held before.
  have before : ∀ push ∈ next.entered ++ next.held, push ∈ config.entered ++ config.held := by
    intro push listed
    rw [entered, held] at listed
    rcases mem_append.1 listed with listed | listed
    · rcases mem_append.1 listed with listed | listed
      · exact mem_append_left _ listed
      · cases handed with
        | false => cases listed
        | true =>
          rw [mem_singleton.1 listed]
          exact mem_append_right _ among
    · exact mem_append_right _ listed
  exact {
    held := by
      rw [held, decided, task, map_append, records.held, pending, List.append_assoc]
      rfl
    line := by
      have line := records.line
      rw [pending] at line
      rw [entered, task]
      cases handed with
      | true => rwa [List.append_assoc]
      | false =>
        rw [if_neg (by decide), append_nil]
        exact line.sublist ((List.Sublist.refl _).append (sublist_cons_self _ _))
    heldLine := held ▸ records.heldLine
    numbers := fun push listed => by
      rw [pushes]
      exact records.numbers push (before push listed)
    hands := fun thread third hand => by
      rw [pushers] at hand
      obtain ⟨owner, latest⟩ := records.hands thread third hand
      rw [task]
      exact ⟨owner, pushes ▸ latest.1, fun push listed => latest.2 push (before push listed)⟩
    own := fun third owns => by
      rw [own] at owns
      cases owns
    direct := fun thread now push listed => by
      rw [pushers] at now
      rw [task] at listed
      refine records.direct thread now push ?_
      rw [pending]
      exact mem_cons_of_mem _ listed
    threads := held ▸ records.threads
    handed := by
      rw [decided, entered, filter_append, map_append]
      refine records.handed.append ?_
      cases handed <;> exact List.Sublist.refl _
    refused := by
      rw [decided, task, filter_append, map_append]
      cases handed with
      | true =>
        refine List.Perm.trans ?_ refused.symm
        simpa using records.refused
      | false =>
        refine List.Perm.trans ?_ refused.symm
        refine List.Perm.trans ?_ (records.refused.append_left [config.task node])
        exact perm_append_comm
    spared := by
      rw [decided, entered]
      intro pushed listed no more
      have line := records.line
      rw [pending, pairwise_append] at line
      have heldLine := records.heldLine
      rw [records.held, pending, pairwise_append] at heldLine
      rcases mem_append.1 listed with earlier | latest
      · rcases mem_append.1 more with more | more
        · exact records.spared pushed earlier no more
        · -- The tasks that were decided before are held before the oldest.
          cases handed with
          | false => cases more
          | true =>
            have before := heldLine.2.2 pushed.1 (mem_map_of_mem earlier) _ mem_cons_self
            rw [mem_singleton.1 more] at before
            exact before.irrefl
      · obtain rfl := mem_singleton.1 latest
        obtain rfl : handed = false := no
        rw [if_neg (by decide), append_nil] at more
        exact (line.2.2 _ more _ mem_cons_self).irrefl }

omit records

section Makes

variable [DecidableEq Thread] [DecidableEq Node] {node : Node}

/-- A task that is made is the latest of its thread, and changes no record. -/
theorem Records.makes (records : Records layout config) {thread : Option Thread} {blocking : Bool}
    (outside : node ∉ config.places layout)
    (elsewhere : ∀ other, (config.pushers other).node ≠ some node) :
    Records layout (config.makes node thread blocking) ∧ (config.makes node thread blocking).Latest
        ((config.makes node thread blocking).task node) := by
  rw [Config.mem_places] at outside
  simp only [not_or] at outside
  obtain ⟨young, left, todo, refused, waiting, -, -, own⟩ := outside
  have other : ∀ third, third ≠ node → (config.makes node thread blocking).task third = config.task third :=
    fun third different => Function.update_of_ne different ..
  have maps : ∀ list : List Node, node ∉ list →
      list.map (config.makes node thread blocking).task = list.map config.task := by
    intro list absent
    apply map_congr_left
    rintro third listed
    exact other third fun same => absent (same ▸ listed)
  have pending : layout.pending.map (config.makes node thread blocking).task =
      layout.pending.map config.task := by
    apply maps
    simp [Layout.pending, young, left, todo]
  have more : ∀ owner, config.pushes owner ≤ (config.makes node thread blocking).pushes owner := by
    intro owner
    by_cases same : owner = thread
    · subst same
      simp [Config.makes]
    · simp [Config.makes, Function.update_of_ne same]
  have latest : ∀ push, config.Latest push → (config.makes node thread blocking).Latest push :=
    fun push last => ⟨Nat.lt_of_lt_of_le last.1 (more _), last.2⟩
  have new : (config.makes node thread blocking).task node =
      ⟨thread, config.pushes thread, blocking⟩ := Function.update_self ..
  constructor
  · exact { records with
      held := by
        rw [pending]
        exact records.held
      line := by
        rw [pending]
        exact records.line
      numbers := fun push listed => Nat.lt_of_lt_of_le (records.numbers push listed) (more _)
      hands := fun owner third hand => by
        have hand : (config.pushers owner).node = some third := hand
        have different : third ≠ node := by
          rintro rfl
          exact elsewhere owner hand
        rw [other third different]
        exact ⟨(records.hands owner third hand).1, latest _ (records.hands owner third hand).2⟩
      own := fun third owns => by
        have different : third ≠ node := by
          rintro rfl
          exact own owns
        rw [other third different]
        exact ⟨(records.own third owns).1, latest _ (records.own third owns).2⟩
      direct := fun owner now push listed => by
        rw [pending] at listed
        exact records.direct owner now push listed
      refused := by
        have same := maps (config.driver.refused ++ config.waiting) (by simp [refused, waiting])
        show (_ : List (Push Thread)).Perm (config.retired ++
          (config.driver.refused ++ config.waiting).map (config.makes node thread blocking).task)
        rw [same]
        exact records.refused }
  · rw [new]
    refine ⟨by simp [Config.makes], fun earlier listed same => ?_⟩
    have bound := records.numbers earlier listed
    rw [same] at bound
    exact bound

end Makes

end

end Libretro.TaskQueue
