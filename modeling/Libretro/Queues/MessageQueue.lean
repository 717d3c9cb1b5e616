import Libretro.Library.BinaryHeap
import Mathlib.Data.Multiset.Basic
import Mathlib.Tactic.Abel

/-! The message queue keeps its heap, and shows every message for as many pulls as it lasts. -/

namespace Libretro.MessageQueue

/-- The icon of a message. -/
inductive MessageQueueIcon where
  | default
deriving DecidableEq

/-- The category of a message. -/
inductive MessageQueueCategory where
  | info | error | warning | success
deriving DecidableEq

/-- A string's bytes, without the one that ends it. -/
abbrev Text := List UInt8

/-- What a message says, which never changes once it is queued. -/
structure Message where
  msg : Option Text
  title : Option Text
  prio : UInt32
  icon : MessageQueueIcon
  category : MessageQueueCategory
deriving DecidableEq

/-- A node of the heap: a message and the pulls it has left. -/
structure QueueElem extends Message where
  duration : UInt32
deriving DecidableEq

/-- The queue: an array of node pointers, filled from position one up to `ptr`. -/
structure MsgQueue where
  -- The last node `msgQueuePull` removed, kept whole for the message it returned.
  tmp : Option QueueElem
  elems : Nat → Option QueueElem
  ptr : Nat
  size : Nat

/-- The sizes that allocations are checked against. -/
structure Platform where
  sizeMax : Nat
  nodeSize : Nat

/-- `msg_queue_initialize` and `msg_queue_new`, with what the allocations answer. -/
def msgQueueNew (platform : Platform) (allocated : Bool) (len : Nat) : Option MsgQueue :=
  if len = platform.sizeMax ∨ allocated = false then none
  else some { tmp := none, elems := fun _ => none, ptr := 1, size := len + 1 }

/-- One position of the array is stored to. -/
def store (elems : Nat → Option QueueElem) (index : Nat) (elem : Option QueueElem) : Nat → Option QueueElem :=
  fun other => if other = index then elem else elems other

/--
The loop that moves a new node up; `none` when a null pointer is followed.

Each turn halves the position, so the position itself bounds the turns.
-/
def siftUp : Nat → (Nat → Option QueueElem) → Nat → Option (Nat → Option QueueElem)
  | 0, elems, _ => some elems
  | turns + 1, elems, tmpPtr =>
    if 1 < tmpPtr then
      match elems (tmpPtr / 2), elems tmpPtr with
      | some parent, some child =>
        if child.prio ≤ parent.prio then some elems
        else
          siftUp turns (store (store elems (tmpPtr / 2) (some child)) tmpPtr (some parent)) (tmpPtr / 2)
      | _, _ => none
    else some elems

/-- The block for a node and its two strings, or none where its size overflows. -/
def blockLen (platform : Platform) (msg title : Option Text) : Option Nat :=
  let msgLen := msg.elim 0 (·.length + 1)
  let titleLen := title.elim 0 (·.length + 1)
  if platform.sizeMax - platform.nodeSize < msgLen then none
  else if platform.sizeMax - (platform.nodeSize + msgLen) < titleLen then none
  else some (platform.nodeSize + msgLen + titleLen)

/-- `msg_queue_try_push`, with whether `malloc` returns a block. -/
def msgQueueTryPush (platform : Platform) (allocated : Bool) (queue : MsgQueue)
    (message : Message) (duration : UInt32) : Option (Bool × MsgQueue) :=
  if queue.size ≤ queue.ptr then some (false, queue)
  else if blockLen platform message.msg message.title = none ∨ allocated = false then
    some (false, queue)
  else
    let newElem := { message with duration := if duration = 0 then 1 else duration }
    (siftUp queue.ptr (store queue.elems queue.ptr (some newElem)) queue.ptr).map fun elems =>
      (true, { queue with elems, ptr := queue.ptr + 1 })

/-- The larger child of a position, the left one if they are equal. -/
def largerChild (elems : Nat → Option QueueElem) (ptr pos : Nat) : Option Nat :=
  let child := pos * 2
  let right := child + 1
  if right < ptr then
    match elems right, elems child with
    | some second, some first => some (if first.prio < second.prio then right else child)
    | _, _ => none
  else some child

/-- The loop that moves the last node down from the front; every turn at least doubles `pos`. -/
def siftDown : Nat → (Nat → Option QueueElem) → Nat → Nat → Option (Nat → Option QueueElem)
  | 0, elems, _, _ => some elems
  | turns + 1, elems, ptr, pos =>
    if pos * 2 < ptr then
      (largerChild elems ptr pos).bind fun child =>
        match elems pos, elems child with
        | some above, some below =>
          if below.prio ≤ above.prio then some elems
          else siftDown turns (store (store elems pos (some below)) child (some above)) ptr child
        | _, _ => none
    else some elems

/-- `msg_queue_remove_front`: the last node moves to the front and sinks. -/
def msgQueueRemoveFront (queue : MsgQueue) : Option (Option QueueElem × MsgQueue) :=
  let front := queue.elems 1
  let ptr := queue.ptr - 1
  let moved := store (store queue.elems 1 (queue.elems ptr)) ptr none
  (siftDown ptr moved ptr 1).map fun elems => (front, { queue with elems, ptr })

/-- `msg_queue_pull`: the text of the front message, which loses one pull. -/
def msgQueuePull (queue : MsgQueue) : Option (Option Text × MsgQueue) :=
  if queue.ptr = 1 then some (none, queue)
  else
    (queue.elems 1).bind fun front =>
      let shown := { front with duration := front.duration - 1 }
      let counted := { queue with elems := store queue.elems 1 (some shown) }
      if 0 < shown.duration then some (shown.msg, counted)
      else
        (msgQueueRemoveFront counted).bind fun (removed, queue) =>
          removed.map fun front => (front.msg, { queue with tmp := some front })

/-- What `msg_queue_extract` copies out of a node, the texts cut to their buffers. -/
structure MsgQueueEntry where
  duration : UInt32
  prio : UInt32
  icon : MessageQueueIcon
  category : MessageQueueCategory
  msg : Text
  title : Text
deriving DecidableEq

/-- `strlcpy` into 1024 bytes, of which the last ends the string. -/
def entryText (text : Option Text) : Text := (text.getD []).take 1023

/-- `msg_queue_extract`: the front message with all the pulls it had left. -/
def msgQueueExtract (queue : MsgQueue) : Option (Option MsgQueueEntry × MsgQueue) :=
  if queue.ptr = 1 then some (none, queue)
  else
    (msgQueueRemoveFront queue).bind fun (removed, queue) =>
      removed.map fun front =>
        (some { duration := front.duration, prio := front.prio, icon := front.icon,
                category := front.category, msg := entryText front.msg,
                title := entryText front.title }, queue)

/-- `msg_queue_size`: the number of messages. -/
def msgQueueSize (queue : MsgQueue) : Nat := if queue.ptr ≤ 1 then 0 else queue.ptr - 1

/-- `msg_queue_clear`: all messages are dropped. -/
def msgQueueClear (queue : MsgQueue) : MsgQueue :=
  { queue with
    elems := fun index => if 1 ≤ index ∧ index < queue.ptr then none else queue.elems index
    ptr := 1
    tmp := none }

open BinaryHeap Nat Option UInt32 Finset

variable {elems : Nat → Option QueueElem} {stop pos : Nat} {queue : MsgQueue}

/-- The priority at each position. -/
def priority (elems : Nat → Option QueueElem) (pos : Nat) : Nat := ((elems pos).map (·.prio.toNat)).getD 0

/-- There is a node at every position before the end. -/
def Filled (elems : Nat → Option QueueElem) (stop : Nat) : Prop :=
  ∀ pos, 1 ≤ pos → pos < stop → ∃ elem, elems pos = some elem

/-- The pulls a node has left, each as one showing of its message. -/
def pulls : Option QueueElem → Multiset Message
  | none => 0
  | some elem => .replicate elem.duration.toNat elem.toMessage

/-- All the pulls that are left in an array. -/
def outstanding (elems : Nat → Option QueueElem) (stop : Nat) : Multiset Message :=
  ∑ pos ∈ Ico 1 stop, pulls (elems pos)

/-- An array whose nodes were put in order: none is lost, and nothing else is touched. -/
structure Sifted (stop : Nat) (before after : Nat → Option QueueElem) : Prop where
  heap : Heap (priority after) stop
  filled : Filled after stop
  outside : ∀ pos, pos = 0 ∨ stop ≤ pos → after pos = before pos
  moved : ∀ pos, ∃ origin, after pos = before origin
  total : outstanding after stop = outstanding before stop

theorem Sifted.refl (heap : Heap (priority elems) stop) (filled : Filled elems stop) :
    Sifted stop elems elems :=
  ⟨heap, filled, fun _ _ => rfl, fun pos => ⟨pos, rfl⟩, rfl⟩

theorem priority_some {elem : QueueElem} (there : elems pos = some elem) :
    priority elems pos = elem.prio.toNat := by
  rw [priority, there]
  rfl

theorem store_swap {first second : Nat} {left right : QueueElem}
    (atFirst : elems first = some left) (atSecond : elems second = some right) :
    store (store elems first (some right)) second (some left) = swap elems first second := by
  funext pos
  unfold store
  by_cases isSecond : pos = second
  · rw [if_pos isSecond, isSecond, swap_right, atFirst]
  · rw [if_neg isSecond]
    by_cases isFirst : pos = first
    · rw [if_pos isFirst, isFirst, swap_left, atSecond]
    · rw [if_neg isFirst, swap_other elems isFirst isSecond]

theorem Sifted.swap {first second : Nat} {after : Nat → Option QueueElem}
    (sifted : Sifted stop (swap elems first second) after) (firstIn : 1 ≤ first ∧ first < stop)
    (secondIn : 1 ≤ second ∧ second < stop) : Sifted stop elems after where
  heap := sifted.heap
  filled := sifted.filled
  outside := fun pos out => by rw [sifted.outside pos out, swap_other elems (by omega) (by omega)]
  moved := fun pos => by
    obtain ⟨origin, same⟩ := sifted.moved pos
    exact ⟨_, same⟩
  total := sifted.total.trans (sum_swap pulls elems firstIn secondIn)

theorem Filled.swap (filled : Filled elems stop) {first second : Nat}
    (firstIn : 1 ≤ first ∧ first < stop) (secondIn : 1 ≤ second ∧ second < stop) :
    Filled (BinaryHeap.swap elems first second) stop := by
  intro pos positive inside
  by_cases isFirst : pos = first
  · rw [isFirst, swap_left]
    exact filled second secondIn.1 secondIn.2
  · by_cases isSecond : pos = second
    · rw [isSecond, swap_right]
      exact filled first firstIn.1 firstIn.2
    · rw [swap_other elems isFirst isSecond]
      exact filled pos positive inside

theorem siftUp_sifted {turns : Nat} (rising : Rising (priority elems) stop pos)
    (filled : Filled elems stop) (positive : 1 ≤ pos) (inside : pos < stop) (enough : pos ≤ turns) :
    ∃ after, siftUp turns elems pos = some after ∧ Sifted stop elems after := by
  -- Each turn goes to the parent, whose position is smaller.
  induction turns generalizing elems pos with
  | zero => omega
  | succ turns ih =>
    unfold siftUp
    by_cases two : 1 < pos
    · rw [if_pos two]
      obtain ⟨parent, above⟩ := filled (pos / 2) (by omega) (by omega)
      obtain ⟨child, here⟩ := filled pos positive inside
      rw [above, here]
      dsimp only
      by_cases stops : child.prio ≤ parent.prio
      · rw [if_pos stops]
        refine ⟨elems, rfl, .refl (rising.heap_of_le (.inr ?_)) filled⟩
        rw [priority_some here, priority_some above]
        exact le_iff_toNat_le.mp stops
      · rw [if_neg stops, store_swap above here]
        have larger : priority elems (pos / 2) ≤ priority elems pos := by
          rw [priority_some here, priority_some above]
          exact le_of_lt (Nat.lt_of_not_le fun le => stops (le_iff_toNat_le.mpr le))
        have parentIn : 1 ≤ pos / 2 ∧ pos / 2 < stop := by omega
        have rises : Rising (priority (swap elems (pos / 2) pos)) stop (pos / 2) := rising.swap two larger
        obtain ⟨after, found, sifted⟩ := ih rises (filled.swap parentIn ⟨positive, inside⟩)
          parentIn.1 parentIn.2 (by omega)
        exact ⟨after, found, sifted.swap parentIn ⟨positive, inside⟩⟩
    · rw [if_neg two]
      exact ⟨elems, rfl, .refl (rising.heap_of_le (.inl (by omega))) filled⟩

theorem largerChild_largest (filled : Filled elems stop) (positive : 1 ≤ pos) (inside : pos * 2 < stop) :
    ∃ child, largerChild elems stop pos = some child ∧ child < stop ∧ child / 2 = pos ∧
      ∀ other, 2 ≤ other → other < stop → other / 2 = pos → priority elems other ≤ priority elems child := by
  unfold largerChild
  dsimp only
  by_cases both : pos * 2 + 1 < stop
  · rw [if_pos both]
    obtain ⟨second, right⟩ := filled (pos * 2 + 1) (by omega) both
    obtain ⟨first, left⟩ := filled (pos * 2) (by omega) inside
    rw [right, left]
    have rightPriority := priority_some right
    have leftPriority := priority_some left
    dsimp only
    by_cases larger : first.prio < second.prio
    · rw [if_pos larger]
      refine ⟨_, rfl, both, by omega, fun other _ _ below => ?_⟩
      have less := lt_iff_toNat_lt.mp larger
      obtain rfl | rfl : other = pos * 2 ∨ other = pos * 2 + 1 := by omega
      · omega
      · exact le_refl _
    · rw [if_neg larger]
      refine ⟨_, rfl, inside, by omega, fun other _ _ below => ?_⟩
      have notLess : second.prio.toNat ≤ first.prio.toNat :=
        Nat.le_of_not_lt fun less => larger (lt_iff_toNat_lt.mpr less)
      obtain rfl | rfl : other = pos * 2 ∨ other = pos * 2 + 1 := by omega
      · exact le_refl _
      · omega
  · rw [if_neg both]
    refine ⟨_, rfl, inside, by omega, fun other _ before below => ?_⟩
    obtain rfl : other = pos * 2 := by omega
    exact le_refl _

theorem siftDown_sifted {turns : Nat} (sinking : Sinking (priority elems) stop pos)
    (filled : Filled elems stop) (positive : 1 ≤ pos) (enough : stop ≤ pos + turns) :
    ∃ after, siftDown turns elems stop pos = some after ∧ Sifted stop elems after := by
  -- Each turn goes to a child, whose position is larger.
  induction turns generalizing elems pos with
  | zero => exact ⟨elems, rfl, .refl (sinking.heap_of_le fun child _ inside below => by omega) filled⟩
  | succ turns ih =>
    unfold siftDown
    by_cases inside : pos * 2 < stop
    · rw [if_pos inside]
      obtain ⟨child, chosen, childIn, below, largest⟩ := largerChild_largest filled positive inside
      obtain ⟨upper, here⟩ := filled pos positive (by omega)
      obtain ⟨lower, there⟩ := filled child (by omega) childIn
      rw [chosen, bind_some, here, there]
      dsimp only
      by_cases stops : lower.prio ≤ upper.prio
      · rw [if_pos stops]
        refine ⟨elems, rfl, .refl (sinking.heap_of_le fun other two before belowPos => ?_) filled⟩
        refine le_trans (largest other two before belowPos) ?_
        rw [priority_some here, priority_some there]
        exact le_iff_toNat_le.mp stops
      · rw [if_neg stops, store_swap here there]
        have larger : priority elems pos ≤ priority elems child := by
          rw [priority_some here, priority_some there]
          exact le_of_lt (Nat.lt_of_not_le fun le => stops (le_iff_toNat_le.mpr le))
        have posIn : 1 ≤ pos ∧ pos < stop := by omega
        have childPos : 1 ≤ child ∧ child < stop := by omega
        have sinks : Sinking (priority (swap elems pos child)) stop child :=
          sinking.swap positive childIn below largest larger
        obtain ⟨after, found, sifted⟩ := ih sinks (filled.swap posIn childPos) childPos.1 (by omega)
        exact ⟨after, found, sifted.swap posIn childPos⟩
    · rw [if_neg inside]
      exact ⟨elems, rfl, .refl (sinking.heap_of_le fun child _ before below => by omega) filled⟩

/-- A heap of nodes from position one up to `ptr`, within the array. -/
structure Shaped (queue : MsgQueue) : Prop where
  positive : 1 ≤ queue.ptr
  within : queue.ptr ≤ queue.size
  filled : Filled queue.elems queue.ptr
  outside : ∀ pos, pos = 0 ∨ queue.ptr ≤ pos → queue.elems pos = none
  heap : Heap (priority queue.elems) queue.ptr

/-- A heap in which every node has pulls left. -/
structure Valid (queue : MsgQueue) : Prop extends Shaped queue where
  lasting : ∀ pos elem, queue.elems pos = some elem → elem.duration ≠ 0

theorem msgQueueNew_valid {platform : Platform} {allocated : Bool} {len : Nat}
    (made : msgQueueNew platform allocated len = some queue) :
    Valid queue ∧ queue.size = len + 1 ∧ outstanding queue.elems queue.ptr = 0 := by
  unfold msgQueueNew at made
  split at made
  · exact absurd made (by simp)
  · obtain rfl := some.inj made
    refine ⟨⟨⟨le_refl 1, succ_le_succ (zero_le _), ?_, fun _ _ => rfl, ?_⟩, ?_⟩, rfl, rfl⟩
    · intro pos positive inside
      exact absurd inside (not_lt.mpr positive)
    · intro child two inside
      have early : child < 1 := inside
      omega
    · intro pos elem there
      exact absurd there (by simp)

theorem Sifted.shaped {before after : Nat → Option QueueElem} (sifted : Sifted stop before after)
    (positive : 1 ≤ stop) (within : stop ≤ queue.size)
    (outside : ∀ pos, pos = 0 ∨ stop ≤ pos → before pos = none) :
    Shaped { queue with elems := after, ptr := stop } where
  positive := positive
  within := within
  filled := sifted.filled
  outside := fun pos out => (sifted.outside pos out).trans (outside pos out)
  heap := sifted.heap

theorem Sifted.forall {before after : Nat → Option QueueElem} (sifted : Sifted stop before after)
    {holds : QueueElem → Prop} (each : ∀ pos elem, before pos = some elem → holds elem) :
    ∀ pos elem, after pos = some elem → holds elem := by
  intro pos elem there
  obtain ⟨origin, same⟩ := sifted.moved pos
  exact each origin elem (same.symm.trans there)

/-- What a push does: nothing and an answer of false, or one more message to be shown. -/
inductive Pushes (platform : Platform) (allocated : Bool) (queue : MsgQueue) (message : Message)
    (duration : UInt32) : Option (Bool × MsgQueue) → Prop
  | fails (cause : queue.size ≤ queue.ptr ∨
        blockLen platform message.msg message.title = none ∨ allocated = false) :
      Pushes platform allocated queue message duration (some (false, queue))
  | succeeds {next : MsgQueue} (valid : Valid next) (size : next.size = queue.size)
      (more : outstanding next.elems next.ptr = outstanding queue.elems queue.ptr +
        .replicate (max 1 duration.toNat) message) :
      Pushes platform allocated queue message duration (some (true, next))

theorem Valid.tryPush (valid : Valid queue) (platform : Platform) (allocated : Bool)
    (message : Message) (duration : UInt32) :
    Pushes platform allocated queue message duration
      (msgQueueTryPush platform allocated queue message duration) := by
  unfold msgQueueTryPush
  by_cases full : queue.size ≤ queue.ptr
  · rw [if_pos full]
    exact .fails (.inl full)
  · rw [if_neg full]
    by_cases failed : blockLen platform message.msg message.title = none ∨ allocated = false
    · rw [if_pos failed]
      exact .fails (.inr failed)
    · rw [if_neg failed]
      dsimp only
      generalize made : ({ message with
        duration := if duration = 0 then 1 else duration } : QueueElem) = elem
      obtain ⟨⟨positive, within, filled, outside, heap⟩, lasting⟩ := valid
      have here : store queue.elems queue.ptr (some elem) queue.ptr = some elem := if_pos rfl
      have others : ∀ pos, pos ≠ queue.ptr →
          store queue.elems queue.ptr (some elem) pos = queue.elems pos := fun pos away => if_neg away
      have rising : Rising (priority (store queue.elems queue.ptr (some elem))) (queue.ptr + 1)
          queue.ptr := by
        constructor
        · intro child two inside away
          have parent : child / 2 ≠ queue.ptr := by omega
          rw [priority, priority, others child away, others _ parent]
          exact heap child two (by omega)
        · intro child two inside below
          omega
      have filledNext : Filled (store queue.elems queue.ptr (some elem)) (queue.ptr + 1) := by
        intro pos early inside
        by_cases last : pos = queue.ptr
        · exact ⟨elem, last ▸ here⟩
        · rw [others pos last]
          exact filled pos early (by omega)
      obtain ⟨after, found, sifted⟩ := siftUp_sifted rising filledNext positive (lt_succ_self _) (le_refl _)
      have nothing : ∀ pos, pos = 0 ∨ queue.ptr + 1 ≤ pos →
          store queue.elems queue.ptr (some elem) pos = none := by
        intro pos out
        rw [others pos (by omega)]
        exact outside pos (by omega)
      have long : elem.duration ≠ 0 ∧ elem.duration.toNat = max 1 duration.toNat ∧
          elem.toMessage = message := by
        rw [← made]
        by_cases zero : duration = 0
        · simp [zero]
        · have positive : 1 ≤ duration.toNat := by
            have notZero : duration.toNat ≠ 0 := fun same => zero (UInt32.toNat_inj.mp same)
            omega
          simp [zero, max_eq_right positive]
      rw [found, map_some]
      refine .succeeds ⟨sifted.shaped (by omega) (by omega) nothing, sifted.forall ?_⟩ rfl ?_
      · intro pos other there
        by_cases last : pos = queue.ptr
        · rw [last, here] at there
          exact some.inj there ▸ long.1
        · rw [others pos last] at there
          exact lasting pos other there
      · -- The new node is the last summand.
        show outstanding after (queue.ptr + 1) = _
        rw [sifted.total, outstanding, sum_Ico_succ_top positive, here]
        have same : ∑ pos ∈ Ico 1 queue.ptr, pulls (store queue.elems queue.ptr (some elem) pos) =
              outstanding queue.elems queue.ptr := by
          refine sum_congr rfl fun pos member => ?_
          rw [others pos (Nat.ne_of_lt (mem_Ico.mp member).2)]
        rw [same, pulls, long.2.1, long.2.2]

theorem Shaped.removeFront (shaped : Shaped queue) (some_ : queue.ptr ≠ 1) :
    ∃ after, msgQueueRemoveFront queue = some (queue.elems 1, after) ∧ Shaped after ∧
      after.size = queue.size ∧
      outstanding queue.elems queue.ptr = pulls (queue.elems 1) + outstanding after.elems after.ptr ∧
      ∀ pos elem, after.elems pos = some elem → ∃ origin, origin ≠ 1 ∧ queue.elems origin = some elem := by
  obtain ⟨positive, within, filled, outside, heap⟩ := shaped
  obtain ⟨ptr, long⟩ : ∃ ptr, queue.ptr = ptr + 2 := ⟨queue.ptr - 2, by omega⟩
  have last : queue.ptr - 1 = ptr + 1 := by omega
  unfold msgQueueRemoveFront
  rw [last]
  dsimp only
  generalize made : store (store queue.elems 1 (queue.elems (ptr + 1))) (ptr + 1) none = moved
  have others : ∀ pos, pos ≠ 1 → pos ≠ ptr + 1 → moved pos = queue.elems pos := by
    intro pos notFirst notLast
    rw [← made, store, if_neg notLast, store, if_neg notFirst]
  have vacated : moved (ptr + 1) = none := by
    rw [← made]
    exact if_pos rfl
  have first : ptr ≠ 0 → moved 1 = queue.elems (ptr + 1) := by
    intro more
    rw [← made, store, if_neg (by omega)]
    exact if_pos rfl
  have sinking : Sinking (priority moved) (ptr + 1) 1 := by
    constructor
    · intro child two inside notBelow
      rw [priority, priority, others child (by omega) (by omega), others _ notBelow (by omega)]
      exact heap child two (by omega)
    · intro child two inside below twoFirst
      omega
  have filledMoved : Filled moved (ptr + 1) := by
    intro pos early inside
    by_cases isFirst : pos = 1
    · rw [isFirst, first (by omega)]
      exact filled (ptr + 1) (by omega) (by omega)
    · rw [others pos isFirst (by omega)]
      exact filled pos early (by omega)
  obtain ⟨after, found, sifted⟩ := siftDown_sifted sinking filledMoved (le_refl 1)
    (by omega : ptr + 1 ≤ 1 + (ptr + 1))
  have nothing : ∀ pos, pos = 0 ∨ ptr + 1 ≤ pos → moved pos = none := by
    intro pos out
    by_cases isLast : pos = ptr + 1
    · rw [isLast]
      exact vacated
    · rw [others pos (by omega) isLast]
      exact outside pos (by omega)
  rw [found]
  refine ⟨_, rfl, sifted.shaped (by omega) (by omega) nothing, rfl, ?_, ?_⟩
  · -- The front is the first summand, and the last node took its place among the others.
    show _ = _ + outstanding after (ptr + 1)
    rw [sifted.total, long, outstanding, sum_Ico_succ_top (by omega)]
    by_cases single : ptr = 0
    · subst single
      simp [outstanding]
    · rw [outstanding, sum_eq_sum_Ico_succ_bot (by omega),
        sum_eq_sum_Ico_succ_bot (by omega : 1 < ptr + 1), first single]
      have same : ∑ pos ∈ Ico (1 + 1) (ptr + 1), pulls (moved pos) =
          ∑ pos ∈ Ico (1 + 1) (ptr + 1), pulls (queue.elems pos) := by
        refine sum_congr rfl fun pos member => ?_
        obtain ⟨early, inside⟩ := mem_Ico.mp member
        rw [others pos (by omega) (by omega)]
      rw [same]
      abel
  · intro pos elem there
    obtain ⟨origin, same⟩ := sifted.moved pos
    have found := same.symm.trans there
    by_cases isLast : origin = ptr + 1
    · rw [isLast, vacated] at found
      exact absurd found (by simp)
    · by_cases isFirst : origin = 1
      · rw [isFirst, first (by omega)] at found
        exact ⟨ptr + 1, by omega, found⟩
      · rw [others origin isFirst isLast] at found
        exact ⟨origin, isFirst, found⟩

theorem Shaped.front (shaped : Shaped queue) (some_ : queue.ptr ≠ 1) : ∃ front, queue.elems 1 = some front ∧
      ∀ pos elem, queue.elems pos = some elem → elem.prio ≤ front.prio := by
  have positive := shaped.positive
  obtain ⟨front, there⟩ := shaped.filled 1 (le_refl 1) (by omega)
  refine ⟨front, there, fun pos elem found => ?_⟩
  by_cases out : pos = 0 ∨ queue.ptr ≤ pos
  · rw [shaped.outside pos out] at found
    exact absurd found (by simp)
  · have below := shaped.heap.le_first pos (by omega) (by omega)
    rw [priority_some found, priority_some there] at below
    exact le_iff_toNat_le.mpr below

/-- What a pull does: nothing if nothing is queued, or one showing of a message of top priority. -/
inductive Pulls (queue : MsgQueue) : Option (Option Text × MsgQueue) → Prop
  | empty (none_ : queue.ptr = 1) : Pulls queue (some (none, queue))
  | shows {front : QueueElem} {next : MsgQueue} (first : queue.elems 1 = some front)
      (top : ∀ pos elem, queue.elems pos = some elem → elem.prio ≤ front.prio)
      (valid : Valid next) (size : next.size = queue.size)
      (one : outstanding queue.elems queue.ptr = outstanding next.elems next.ptr + {front.toMessage}) :
      Pulls queue (some (front.msg, next))

theorem Valid.pull (valid : Valid queue) : Pulls queue (msgQueuePull queue) := by
  unfold msgQueuePull
  by_cases none_ : queue.ptr = 1
  · rw [if_pos none_]
    exact .empty none_
  · rw [if_neg none_]
    obtain ⟨front, there, top⟩ := valid.front none_
    have positive := valid.positive
    have lasts := valid.lasting 1 front there
    have notZero : front.duration.toNat ≠ 0 := fun zero => lasts (UInt32.toNat_inj.mp zero)
    have fewer : (front.duration - 1).toNat + 1 = front.duration.toNat := by
      rw [UInt32.toNat_sub_of_le _ _ (le_iff_toNat_le.mpr (by simpa using by omega))]
      simp
      omega
    rw [there, bind_some]
    let shown : QueueElem := { front with duration := front.duration - 1 }
    let counted : MsgQueue := { queue with elems := store queue.elems 1 (some shown) }
    show Pulls queue (if 0 < shown.duration then some (front.msg, counted)
      else (msgQueueRemoveFront counted).bind _)
    have left : shown.duration = front.duration - 1 := rfl
    have message : shown.toMessage = front.toMessage := rfl
    have ptr : counted.ptr = queue.ptr := rfl
    have size : counted.size = queue.size := rfl
    have here : counted.elems 1 = some shown := by
      show store queue.elems 1 (some shown) 1 = some shown
      exact if_pos rfl
    have others : ∀ pos, pos ≠ 1 → counted.elems pos = queue.elems pos := fun pos away => if_neg away
    -- The priorities, and with them the heap, are what they were.
    have priorities : priority counted.elems = priority queue.elems := by
      funext pos
      by_cases isFirst : pos = 1
      · rw [isFirst, priority_some here, priority_some there]
      · rw [priority, priority, others pos isFirst]
    have shaped : Shaped counted := by
      refine ⟨ptr ▸ positive, ?_, ?_, ?_, ?_⟩
      · rw [ptr, size]
        exact valid.within
      · intro pos early inside
        by_cases isFirst : pos = 1
        · exact ⟨shown, isFirst ▸ here⟩
        · rw [others pos isFirst]
          exact valid.filled pos early (ptr ▸ inside)
      · intro pos out
        rw [others pos (by omega)]
        exact valid.outside pos (ptr ▸ out)
      · rw [priorities, ptr]
        exact valid.heap
    have counting : outstanding queue.elems queue.ptr =
        outstanding counted.elems counted.ptr + {front.toMessage} := by
      have more : 1 < queue.ptr := by omega
      have before := sum_eq_sum_Ico_succ_bot more fun pos => pulls (queue.elems pos)
      have after := sum_eq_sum_Ico_succ_bot more fun pos => pulls (counted.elems pos)
      rw [ptr, outstanding, outstanding, before, after, here, there]
      have same : ∑ pos ∈ Ico (1 + 1) queue.ptr, pulls (counted.elems pos) =
          ∑ pos ∈ Ico (1 + 1) queue.ptr, pulls (queue.elems pos) := by
        refine sum_congr rfl fun pos member => ?_
        have early := (mem_Ico.mp member).1
        rw [others pos (by omega)]
      have split : pulls (some front) = pulls (some shown) + {front.toMessage} := by
        rw [pulls, pulls, left, message, ← fewer, Multiset.replicate_add, Multiset.replicate_one]
      rw [same, split]
      abel
    by_cases remains : 0 < shown.duration
    · rw [if_pos remains]
      refine .shows there top ⟨shaped, fun pos elem found => ?_⟩ size counting
      by_cases isFirst : pos = 1
      · rw [isFirst, here] at found
        obtain rfl := some.inj found
        exact fun zero => absurd remains (by simp [zero])
      · rw [others pos isFirst] at found
        exact valid.lasting pos elem found
    · rw [if_neg remains]
      obtain ⟨after, removed, shapedAfter, sizeAfter, total, kept⟩ := shaped.removeFront (ptr ▸ none_)
      have expired : shown.duration.toNat = 0 := by
        have notPositive : ¬ 0 < shown.duration.toNat := fun more =>
          remains (lt_iff_toNat_lt.mpr more)
        omega
      have nothing : pulls (counted.elems 1) = 0 := by rw [here, pulls, expired, Multiset.replicate_zero]
      rw [nothing, zero_add] at total
      rw [removed, here]
      show Pulls queue (some (front.msg, { after with tmp := some shown }))
      refine .shows there top ⟨⟨shapedAfter.positive, shapedAfter.within, shapedAfter.filled,
        shapedAfter.outside, shapedAfter.heap⟩, fun pos elem found => ?_⟩ (sizeAfter.trans size) ?_
      · obtain ⟨origin, away, same⟩ := kept pos elem found
        rw [others origin away] at same
        exact valid.lasting origin elem same
      · rw [counting, total]

/-- What an extraction does: nothing if nothing is queued, or all showings of the front message. -/
inductive Extracts (queue : MsgQueue) : Option (Option MsgQueueEntry × MsgQueue) → Prop
  | empty (none_ : queue.ptr = 1) : Extracts queue (some (none, queue))
  | takes {front : QueueElem} {entry : MsgQueueEntry} {next : MsgQueue}
      (first : queue.elems 1 = some front)
      (top : ∀ pos elem, queue.elems pos = some elem → elem.prio ≤ front.prio)
      (valid : Valid next) (size : next.size = queue.size)
      (all : outstanding queue.elems queue.ptr = outstanding next.elems next.ptr + pulls (some front)) :
      Extracts queue (some (some entry, next))

theorem Valid.extract (valid : Valid queue) : Extracts queue (msgQueueExtract queue) := by
  unfold msgQueueExtract
  by_cases none_ : queue.ptr = 1
  · rw [if_pos none_]
    exact .empty none_
  · rw [if_neg none_]
    obtain ⟨front, there, top⟩ := valid.front none_
    obtain ⟨after, removed, shaped, size, total, kept⟩ := valid.removeFront none_
    rw [there] at total
    rw [removed, there]
    refine .takes there top ⟨shaped, fun pos elem found => ?_⟩ size (total.trans (add_comm _ _))
    obtain ⟨origin, -, same⟩ := kept pos elem found
    exact valid.lasting origin elem same

theorem Valid.clear (valid : Valid queue) :
    Valid (msgQueueClear queue) ∧ (msgQueueClear queue).size = queue.size ∧
      outstanding (msgQueueClear queue).elems (msgQueueClear queue).ptr = 0 := by
  have nothing : ∀ pos, (msgQueueClear queue).elems pos = none := by
    intro pos
    unfold msgQueueClear
    dsimp only
    split
    · rfl
    · exact valid.outside pos (by omega)
  have positive := valid.positive
  refine ⟨⟨⟨le_refl 1, le_trans positive valid.within, ?_, fun pos _ => nothing pos, ?_⟩, ?_⟩, rfl, rfl⟩
  · intro pos early inside
    exact absurd inside (not_lt.mpr early)
  · intro child two inside
    have early : child < 1 := inside
    omega
  · intro pos elem there
    exact absurd ((nothing pos).symm.trans there) (by simp)

/-- The showings that were pushed, that were pulled, and that were given up. -/
structure Tally where
  pushed : Multiset Message := 0
  pulled : Multiset Message := 0
  dropped : Multiset Message := 0

/-- The message at the front, which the next pull shows. -/
def frontMessage (queue : MsgQueue) : Multiset Message :=
  if queue.ptr = 1 then 0 else (queue.elems 1).elim 0 fun front => {front.toMessage}

/-- The calls of a run, with what was pushed, pulled and given up so far. -/
inductive Runs (platform : Platform) (first : MsgQueue) : Tally → MsgQueue → Prop
  | new : Runs platform first {} first
  | push {tally : Tally} {queue next : MsgQueue} {allocated ok : Bool} {message : Message}
      {duration : UInt32} (runs : Runs platform first tally queue)
      (call : msgQueueTryPush platform allocated queue message duration = some (ok, next)) :
      Runs platform first { tally with
        pushed := tally.pushed +
          if ok then .replicate (max 1 duration.toNat) message else 0 } next
  | pull {tally : Tally} {queue next : MsgQueue} {text : Option Text}
      (runs : Runs platform first tally queue) (call : msgQueuePull queue = some (text, next)) :
      Runs platform first { tally with pulled := tally.pulled + frontMessage queue } next
  | extract {tally : Tally} {queue next : MsgQueue} {entry : Option MsgQueueEntry}
      (runs : Runs platform first tally queue) (call : msgQueueExtract queue = some (entry, next)) :
      Runs platform first { tally with
        dropped := tally.dropped + if queue.ptr = 1 then 0 else pulls (queue.elems 1) } next
  | clear {tally : Tally} {queue : MsgQueue} (runs : Runs platform first tally queue) :
      Runs platform first { tally with
        dropped := tally.dropped + outstanding queue.elems queue.ptr } (msgQueueClear queue)

theorem Runs.conserves {platform : Platform} {first queue : MsgQueue} {tally : Tally}
    (runs : Runs platform first tally queue) (valid : Valid first)
    (empty : outstanding first.elems first.ptr = 0) :
    Valid queue ∧ queue.size = first.size ∧
      tally.pushed = tally.pulled + tally.dropped + outstanding queue.elems queue.ptr := by
  -- The run is followed call by call.
  induction runs with
  | new => exact ⟨valid, rfl, by simp [empty]⟩
  | @push tally queue next allocated ok message duration runs call ih =>
    obtain ⟨valid, size, total⟩ := ih
    have pushes := valid.tryPush platform allocated message duration
    rw [call] at pushes
    cases pushes with
    | fails cause => exact ⟨valid, size, by simpa using total⟩
    | succeeds validNext sizeNext more =>
      refine ⟨validNext, sizeNext.trans size, ?_⟩
      simp only [if_true, more, total]
      abel
  | @pull tally queue next text runs call ih =>
    obtain ⟨valid, size, total⟩ := ih
    have pulls := valid.pull
    rw [call] at pulls
    cases pulls with
    | empty none_ =>
      refine ⟨valid, size, ?_⟩
      simp only [frontMessage, if_pos none_, add_zero]
      exact total
    | shows there top validNext sizeNext one =>
      have some_ : queue.ptr ≠ 1 := by
        intro none_
        rw [valid.outside 1 (.inr (le_of_eq none_))] at there
        exact absurd there (by simp)
      refine ⟨validNext, sizeNext.trans size, ?_⟩
      simp only [frontMessage, if_neg some_, there, elim_some, total, one]
      abel
  | @extract tally queue next entry runs call ih =>
    obtain ⟨valid, size, total⟩ := ih
    have extracts := valid.extract
    rw [call] at extracts
    cases extracts with
    | empty none_ =>
      refine ⟨valid, size, ?_⟩
      simp only [if_pos none_, add_zero]
      exact total
    | takes there top validNext sizeNext all =>
      have some_ : queue.ptr ≠ 1 := by
        intro none_
        rw [valid.outside 1 (.inr (le_of_eq none_))] at there
        exact absurd there (by simp)
      refine ⟨validNext, sizeNext.trans size, ?_⟩
      simp only [if_neg some_, there, total, all]
      abel
  | @clear tally queue runs ih =>
    obtain ⟨valid, size, total⟩ := ih
    obtain ⟨validNext, sizeNext, nothing⟩ := valid.clear
    refine ⟨validNext, sizeNext.trans size, ?_⟩
    simp only [nothing, total]
    abel

/--
In every run from a new queue the nodes are a heap within the array and no call follows a null
pointer. A pull answers with a message of top priority and a push that fails changes nothing. What
was pushed, each message once for every pull it lasts, is pulled, given up or still queued; if
nothing was given up and nothing is queued, all of it was pulled.
-/
theorem runs_law {platform : Platform} {made : Bool} {len : Nat} {first queue : MsgQueue}
    {tally : Tally} (new : msgQueueNew platform made len = some first)
    (runs : Runs platform first tally queue) :
    (1 ≤ queue.ptr ∧ queue.ptr ≤ queue.size ∧ queue.size = len + 1 ∧
      Filled queue.elems queue.ptr ∧ Heap (priority queue.elems) queue.ptr) ∧
    Pulls queue (msgQueuePull queue) ∧ Extracts queue (msgQueueExtract queue) ∧
    (∀ allocated message duration, Pushes platform allocated queue message duration
      (msgQueueTryPush platform allocated queue message duration)) ∧
    tally.pushed = tally.pulled + tally.dropped + outstanding queue.elems queue.ptr ∧
    (tally.dropped = 0 → queue.ptr = 1 → tally.pulled = tally.pushed) := by
  obtain ⟨validFirst, sizeFirst, empty⟩ := msgQueueNew_valid new
  obtain ⟨valid, size, total⟩ := runs.conserves validFirst empty
  refine ⟨⟨valid.positive, valid.within, size.trans sizeFirst, valid.filled, valid.heap⟩,
    valid.pull, valid.extract, valid.tryPush platform, total, fun kept none_ => ?_⟩
  rw [total, kept, none_, add_zero]
  exact (add_zero _).symm

/-- A message that is pushed for no pulls at all is pulled once. -/
theorem runs_law_once : ∃ first tally queue, msgQueueNew ⟨2 ^ 64 - 1, 32⟩ true 1 = some first ∧
      Runs ⟨2 ^ 64 - 1, 32⟩ first tally queue ∧
      tally.pulled = {⟨some [0x68, 0x69], none, 3, .default, .info⟩} ∧
      tally.pulled = tally.pushed := by
  have new : msgQueueNew ⟨2 ^ 64 - 1, 32⟩ true 1 = some ⟨none, fun _ => none, 1, 2⟩ := rfl
  have pushed := (@Runs.new ⟨2 ^ 64 - 1, 32⟩ ⟨none, fun _ => none, 1, 2⟩).push
    (rfl : msgQueueTryPush _ true _ ⟨some [0x68, 0x69], none, 3, .default, .info⟩ 0 = some (true,
      ⟨none, store (fun _ => none) 1 (some ⟨⟨some [0x68, 0x69], none, 3, .default, .info⟩, 1⟩), 2, 2⟩))
  obtain ⟨next, call, none_⟩ : ∃ next, msgQueuePull
      ⟨none, store (fun _ => none) 1 (some ⟨⟨some [0x68, 0x69], none, 3, .default, .info⟩, 1⟩), 2, 2⟩ =
        some (some [0x68, 0x69], next) ∧ next.ptr = 1 := ⟨_, rfl, rfl⟩
  have pulled := pushed.pull call
  exact ⟨_, _, _, new, pulled, rfl, (runs_law new pulled).2.2.2.2.2 rfl none_⟩

end Libretro.MessageQueue
