import Libretro.Library.DoublyLinked

/-! The generic queue, and the sequence that it shows while no end is taken off before another. -/

namespace Libretro.GenericQueue

open DoublyLinked List

universe u

variable {β : Type u}

/-- A node's or an iterator's address; the null pointer is the absent address. -/
abbrev Address := Nat

/-- A pointer the caller stores; `none` is the null pointer. -/
abbrev Value (β : Type u) := Option β

/-- The queue and the memory its items live in. -/
structure Queue (β : Type u) where
  items : Memory Address (Value β)
  firstItem : Option Address
  lastItem : Option Address
  length : Nat

/-- An iterator: the item it is at and the direction it moves in. -/
structure Iterator where
  item : Option Address
  forward : Bool
deriving DecidableEq

/-- A new queue, all of whose fields are zero. -/
def genericQueueNew : Queue β := { items := fun _ => none, firstItem := none, lastItem := none, length := 0 }

/-- Adding a value behind the last one; without memory nothing happens. -/
def genericQueuePush (queue : Queue β) (value : Value β) (newItem : Option Address) : Option (Queue β) :=
  match newItem with
  | none => some queue
  | some item =>
    let items := queue.items.store item ⟨value, queue.lastItem, none⟩
    let pushed := { queue with items, lastItem := some item, length := queue.length + 1 }
    match queue.firstItem with
    | none => some { pushed with firstItem := some item }
    | some _ => (items.setNext queue.lastItem (some item)).map fun items => { pushed with items }

/-- Taking the last value; the new last item's own links are left as they are. -/
def genericQueuePop (queue : Queue β) : Option (Queue β × Value β) :=
  match queue.lastItem with
  | none => some (queue, none)
  | some item =>
    (queue.items item).map fun cell =>
      let length := queue.length - 1
      ({ items := queue.items.free item
         firstItem := if length = 0 then none else queue.firstItem
         lastItem := cell.previous
         length }, cell.value)

/-- The last value, left in the queue. -/
def genericQueuePeek (queue : Queue β) : Option (Value β) :=
  match queue.lastItem with
  | none => some none
  | some item => (queue.items item).map (·.value)

/-- The first value, left in the queue. -/
def genericQueuePeekFirst (queue : Queue β) : Option (Value β) :=
  match queue.firstItem with
  | none => some none
  | some item => (queue.items item).map (·.value)

/-- Adding a value before the first one; without memory nothing happens. -/
def genericQueueShift (queue : Queue β) (value : Value β) (newItem : Option Address) : Option (Queue β) :=
  match newItem with
  | none => some queue
  | some item =>
    let items := queue.items.store item ⟨value, none, queue.firstItem⟩
    let shifted := { queue with items, firstItem := some item, length := queue.length + 1 }
    match queue.lastItem with
    | none => some { shifted with lastItem := some item }
    | some _ => (items.setPrevious queue.firstItem (some item)).map fun items => { shifted with items }

/-- Taking the first value; the new first item's own links are left as they are. -/
def genericQueueUnshift (queue : Queue β) : Option (Queue β × Value β) :=
  match queue.firstItem with
  | none => some (queue, none)
  | some item =>
    (queue.items item).map fun cell =>
      let length := queue.length - 1
      ({ items := queue.items.free item
         firstItem := cell.next
         lastItem := if length = 0 then none else queue.lastItem
         length }, cell.value)

/-- The number of values in the queue. -/
def genericQueueLength (queue : Queue β) : Nat := queue.length

/-- The item at which a scan along one direction stops, the inner `none` when it reaches the end.
Every allocated item is counted in the length, so a scan that makes more moves than that goes
round in circles and never returns. -/
def scan (items : Memory Address (Value β)) (forward : Bool) (wanted : Address → Value β → Bool) :
    Nat → Option Address → Option (Option Address)
  | _, none => some none
  | 0, some _ => none
  | moves + 1, some item =>
    (items item).bind fun cell =>
      if wanted item cell.value then some (some item)
      else scan items forward wanted moves (cell.along forward)

/-- Leading the item before past this one, or the queue itself past it when it is the first. -/
def Queue.skipNext (queue : Queue β) (cell : Cell Address (Value β)) (isFirst : Bool) : Option (Queue β) :=
  if isFirst then some { queue with firstItem := cell.next }
  else (queue.items.setNext cell.previous cell.next).map fun items => { queue with items }

/-- Leading the item after past this one, or the queue itself past it when it is the last. -/
def Queue.skipPrevious (queue : Queue β) (cell : Cell Address (Value β)) (isLast : Bool) : Option (Queue β) :=
  if isLast then some { queue with lastItem := cell.previous }
  else (queue.items.setPrevious cell.next cell.previous).map fun items => { queue with items }

/-- Taking out the first item with a value, found by comparing pointers. Whether the item is at an
end shows in its links. -/
def genericQueueRemove [DecidableEq β] (queue : Queue β) (value : Value β) : Option (Queue β × Value β) :=
  (scan queue.items true (fun _ stored => stored = value) queue.length queue.firstItem).bind fun found =>
      match found with
      | none => some (queue, none)
      | some item =>
        (queue.items item).bind fun cell =>
          (queue.skipNext cell cell.previous.isNone).bind fun queue =>
            (queue.items item).bind fun cell =>
              (queue.skipPrevious cell cell.next.isNone).map fun queue =>
                ({ queue with items := queue.items.free item, length := queue.length - 1 }, value)

/-- An iterator at one end; none for an empty queue or when there is no memory. -/
def genericQueueIterator (queue : Queue β) (forward : Bool) (newIterator : Option Address) :
    Option (Address × Iterator) :=
  match queue.firstItem, newIterator with
  | some _, some handle => some (handle, ⟨if forward then queue.firstItem else queue.lastItem, forward⟩)
  | _, _ => none

/-- Moving an iterator on; at the end it is freed and the inner result is `none`. -/
def genericQueueIteratorNext (queue : Queue β) (iterator : Iterator) : Option (Option Iterator) :=
  (iterator.item.bind queue.items).map fun cell =>
    (cell.along iterator.forward).map fun item => { iterator with item := some item }

/-- The value at the iterator. -/
def genericQueueIteratorValue (queue : Queue β) (iterator : Iterator) : Option (Value β) :=
  (iterator.item.bind queue.items).map (·.value)

/-- Taking out the item an iterator is at, looked up by its address; the iterator moves on and
is freed at the end. Whether the item is at an end shows in the queue's own pointers. An iterator
whose address is not met is handed back as it is. -/
def genericQueueIteratorRemove (queue : Queue β) (iterator : Iterator) : Option (Queue β × Option Iterator) :=
  (scan queue.items iterator.forward (fun item _ => iterator.item = some item) queue.length
    (if iterator.forward then queue.firstItem else queue.lastItem)).bind fun found =>
      match found with
      | none => some (queue, some iterator)
      | some item =>
        (queue.items item).bind fun cell =>
          (queue.skipNext cell (queue.firstItem = some item)).bind fun queue =>
            (queue.items item).bind fun cell =>
              (queue.skipPrevious cell (queue.lastItem = some item)).bind fun queue =>
                (queue.items item).map fun cell =>
                  ({ queue with items := queue.items.free item, length := queue.length - 1 },
                    (cell.along iterator.forward).map fun item => { iterator with item := some item })

/-- The operations a client calls, with the allocator's answer where one is asked. -/
inductive Operation (β : Type u)
  | push (value : Value β) (newItem : Option Address)
  | pop
  | peek
  | peekFirst
  | shift (value : Value β) (newItem : Option Address)
  | unshift
  | length
  | remove (value : Value β)
  | iterator (forward : Bool) (newIterator : Option Address)
  | iteratorNext (handle : Address)
  | iteratorValue (handle : Address)
  | iteratorRemove (handle : Address)
  | iteratorFree (handle : Address)

/-- What a call returns to its client. -/
inductive Returned (β : Type u)
  | nothing
  | value (value : Value β)
  | count (length : Nat)
  | iterator (handle : Option Address)
deriving DecidableEq

/-- A queue with the iterators that are allocated. -/
structure Program (β : Type u) where
  queue : Queue β
  iterators : Address → Option Iterator

/-- A new queue before any iterator is made. -/
def Program.new : Program β := { queue := genericQueueNew, iterators := fun _ => none }

/-- Writing back an iterator, which is gone when there is none to write. -/
def Program.setIterator (program : Program β) (handle : Address) (iterator : Option Iterator) : Program β :=
  { program with iterators := Function.update program.iterators handle iterator }

/-- What a call that may free its iterator returns. -/
def handleOf (handle : Address) (iterator : Option Iterator) : Option Address := iterator.map fun _ => handle

/-- One call of a client, `none` when it touches memory that is not allocated. -/
def Program.step [DecidableEq β] (program : Program β) : Operation β → Option (Program β × Returned β)
  | .push value newItem =>
    (genericQueuePush program.queue value newItem).map fun queue => ({ program with queue }, .nothing)
  | .pop => (genericQueuePop program.queue).map fun (queue, value) => ({ program with queue }, .value value)
  | .peek => (genericQueuePeek program.queue).map fun value => (program, .value value)
  | .peekFirst => (genericQueuePeekFirst program.queue).map fun value => (program, .value value)
  | .shift value newItem =>
    (genericQueueShift program.queue value newItem).map fun queue =>
      ({ program with queue }, .nothing)
  | .unshift =>
    (genericQueueUnshift program.queue).map fun (queue, value) =>
      ({ program with queue }, .value value)
  | .length => some (program, .count (genericQueueLength program.queue))
  | .remove value =>
    (genericQueueRemove program.queue value).map fun (queue, value) =>
      ({ program with queue }, .value value)
  | .iterator forward newIterator =>
    match genericQueueIterator program.queue forward newIterator with
    | none => some (program, .iterator none)
    | some (handle, iterator) => some (program.setIterator handle (some iterator), .iterator (some handle))
  | .iteratorNext handle =>
    (program.iterators handle).bind fun iterator =>
      (genericQueueIteratorNext program.queue iterator).map fun moved =>
        (program.setIterator handle moved, .iterator (handleOf handle moved))
  | .iteratorValue handle =>
    (program.iterators handle).bind fun iterator =>
      (genericQueueIteratorValue program.queue iterator).map fun value => (program, .value value)
  | .iteratorRemove handle =>
    (program.iterators handle).bind fun iterator =>
      (genericQueueIteratorRemove program.queue iterator).map fun (queue, moved) =>
        ({ program with queue }.setIterator handle moved, .iterator (handleOf handle moved))
  | .iteratorFree handle =>
    (program.iterators handle).map fun _ => (program.setIterator handle none, .nothing)

theorem Program.step_length [DecidableEq β] (program : Program β) :
    program.step .length = some (program, .count (genericQueueLength program.queue)) := by
  rw [Program.step]

/-- A client's calls one after the other, with everything they returned. -/
def Program.run [DecidableEq β] (program : Program β) :
    List (Operation β) → Option (Program β × List (Returned β))
  | [] => some (program, [])
  | operation :: rest =>
    (program.step operation).bind fun (next, returned) =>
      (next.run rest).map fun (final, later) => (final, returned :: later)

/-- The values in order, each under the identity of its element, and the live cursors.
A cursor whose element was taken out stands on nothing. -/
structure Sequence (β : Type u) where
  entries : List (Address × Value β)
  cursors : Address → Option Iterator

/-- The empty sequence. -/
def Sequence.new : Sequence β := { entries := [], cursors := fun _ => none }

/-- The key after a given one. -/
def successor (visited : List Address) (item : Address) : Option Address :=
  (visited.dropWhile (· ≠ item)).tail.head?

/-- The order in which a cursor meets the elements. -/
def order (entries : List (Address × Value β)) (forward : Bool) : List Address :=
  if forward then keys entries else (keys entries).reverse

/-- Taking a cursor off an element that leaves the sequence. -/
def Iterator.leave (item : Address) (cursor : Iterator) : Iterator :=
  if cursor.item = some item then { cursor with item := none } else cursor

/-- The sequence after an element has left, with no cursor on it any more. -/
def Sequence.without (sequence : Sequence β) (item : Address)
    (entries : List (Address × Value β)) : Sequence β :=
  { entries, cursors := fun handle => (sequence.cursors handle).map (.leave item) }

/-- Writing back a cursor, which is gone when there is none to write. -/
def Sequence.setCursor (sequence : Sequence β) (handle : Address) (cursor : Option Iterator) : Sequence β :=
  { sequence with cursors := Function.update sequence.cursors handle cursor }

/-- A cursor moved to the element after the one it is on, if there is one. -/
def Sequence.moved (sequence : Sequence β) (cursor : Iterator) (item : Address) : Option Iterator :=
  (successor (order sequence.entries cursor.forward) item).map fun next =>
    { cursor with item := some next }

/-- One operation on the sequence. It is undefined on a cursor that is not there or that stands on
nothing, and where the allocator would hand out something that is still in use. -/
def Sequence.step [DecidableEq β] (sequence : Sequence β) : Operation β → Option (Sequence β × Returned β)
  | .push value newItem =>
    match newItem with
    | none => some (sequence, .nothing)
    | some item =>
      if item ∈ keys sequence.entries then none
      else some ({ sequence with entries := sequence.entries ++ [(item, value)] }, .nothing)
  | .pop =>
    match sequence.entries.getLast? with
    | none => some (sequence, .value none)
    | some (item, value) => some (sequence.without item sequence.entries.dropLast, .value value)
  | .peek => some (sequence, .value (sequence.entries.getLast?.bind Prod.snd))
  | .peekFirst => some (sequence, .value (sequence.entries.head?.bind Prod.snd))
  | .shift value newItem =>
    match newItem with
    | none => some (sequence, .nothing)
    | some item =>
      if item ∈ keys sequence.entries then none
      else some ({ sequence with entries := (item, value) :: sequence.entries }, .nothing)
  | .unshift =>
    match sequence.entries.head? with
    | none => some (sequence, .value none)
    | some (item, value) => some (sequence.without item sequence.entries.tail, .value value)
  | .length => some (sequence, .count sequence.entries.length)
  | .remove value =>
    match sequence.entries.find? fun entry => entry.2 = value with
    | none => some (sequence, .value none)
    | some (item, _) =>
      some (sequence.without item (sequence.entries.eraseP fun entry => entry.1 = item), .value value)
  | .iterator forward newIterator =>
    match (order sequence.entries forward).head?, newIterator with
    | some item, some handle =>
      if (sequence.cursors handle).isSome then none
      else some (sequence.setCursor handle (some ⟨some item, forward⟩), .iterator (some handle))
    | _, _ => some (sequence, .iterator none)
  | .iteratorNext handle =>
    (sequence.cursors handle).bind fun cursor =>
      cursor.item.map fun item =>
        let moved := sequence.moved cursor item
        (sequence.setCursor handle moved, .iterator (handleOf handle moved))
  | .iteratorValue handle =>
    (sequence.cursors handle).bind fun cursor =>
      cursor.item.map fun item =>
        (sequence, .value ((sequence.entries.find? fun entry => entry.1 = item).bind Prod.snd))
  | .iteratorRemove handle =>
    (sequence.cursors handle).bind fun cursor =>
      cursor.item.map fun item =>
        let moved := sequence.moved cursor item
        let removed := sequence.without item (sequence.entries.eraseP fun entry => entry.1 = item)
        (removed.setCursor handle moved, .iterator (handleOf handle moved))
  | .iteratorFree handle => (sequence.cursors handle).map fun _ => (sequence.setCursor handle none, .nothing)

theorem Sequence.step_length [DecidableEq β] (sequence : Sequence β) :
    sequence.step .length = some (sequence, .count sequence.entries.length) := by
  rw [Sequence.step]

/-- The operations one after the other, with everything they returned. -/
def Sequence.run [DecidableEq β] (sequence : Sequence β) :
    List (Operation β) → Option (Sequence β × List (Returned β))
  | [] => some (sequence, [])
  | operation :: rest =>
    (sequence.step operation).bind fun (next, returned) =>
      (next.run rest).map fun (final, later) => (final, returned :: later)

/-- An operation that takes an end off leaves nothing behind it whose link would go stale. -/
def Operation.Spares (sequence : Sequence β) : Operation β → Prop
  | .pop => sequence.entries.length ≤ 1
  | .unshift => sequence.entries.length ≤ 1
  | _ => True

/-- Every operation of a run takes an end off only when nothing stays behind. -/
def Sequence.RunSpares [DecidableEq β] (sequence : Sequence β) : List (Operation β) → Prop
  | [] => True
  | operation :: rest => operation.Spares sequence ∧
      ∀ next returned, sequence.step operation = some (next, returned) → next.RunSpares rest

/-- The program shows the sequence: its length, its values under their elements, both chains of
links over exactly the live items in opposite orders, and an iterator for every cursor. -/
structure Program.Mirrors (program : Program β) (sequence : Sequence β) : Prop where
  length : program.queue.length = sequence.entries.length
  live : ∀ item, program.queue.items item ≠ none ↔ item ∈ keys sequence.entries
  values : ∀ entry ∈ sequence.entries, (program.queue.items entry.1).map (·.value) = some entry.2
  forward : Visits program.queue.items true program.queue.firstItem (keys sequence.entries)
  backward : Visits program.queue.items false program.queue.lastItem (keys sequence.entries).reverse
  iterators : ∀ handle, (program.iterators handle).isSome = (sequence.cursors handle).isSome

theorem successor_append {front back : List Address} {item : Address} (apart : item ∉ front) :
    successor (front ++ item :: back) item = back.head? := by
  -- Everything before the key is dropped, and then the key itself.
  have dropped : (front ++ item :: back).dropWhile (· ≠ item) = item :: back := by
    induction front with
    | nil => simp
    | cons key rest ih =>
      have differ : key ≠ item := by
        rintro rfl
        exact apart (by simp)
      simp only [mem_cons, not_or] at apart
      simpa [differ] using ih apart.2
  rw [successor, dropped, tail_cons]

variable {front back : List (Address × Value β)}

theorem successor_order {item : Address} {value : Value β}
    (nodup : (keys (front ++ (item, value) :: back)).Nodup) (forward : Bool) :
    successor (order (front ++ (item, value) :: back) forward) item =
      if forward then firstKey back else lastKey front := by
  rw [DoublyLinked.keys_append, DoublyLinked.keys_cons, nodup_middle, nodup_cons, mem_append, not_or] at nodup
  obtain ⟨⟨notFront, notBack⟩, -⟩ := nodup
  cases forward with
  | true =>
    simp only [order, DoublyLinked.keys_append, DoublyLinked.keys_cons, if_true, successor_append notFront]
    simp [firstKey, DoublyLinked.keys]
  | false =>
    have reversed : item ∉ (keys back).reverse := by simpa using notBack
    simp only [order, DoublyLinked.keys_append, DoublyLinked.keys_cons, reverse_append, reverse_cons,
      List.append_assoc, singleton_append, Bool.false_eq_true, if_false,
      successor_append reversed]
    simp [lastKey, DoublyLinked.keys, head?_reverse]

@[simp] theorem mem_order {entries : List (Address × Value β)} {forward : Bool} {item : Address} :
    item ∈ order entries forward ↔ item ∈ keys entries := by
  cases forward <;> simp [order]

theorem head_order (entries : List (Address × Value β)) (forward : Bool) :
    (order entries forward).head? = if forward then firstKey entries else lastKey entries := by
  cases forward <;> simp [order, firstKey, lastKey, DoublyLinked.keys, head?_reverse]

theorem eraseP_middle {entry : Address × Value β} (nodup : (keys (front ++ entry :: back)).Nodup) :
    (front ++ entry :: back).eraseP (fun other => other.1 = entry.1) = front ++ back := by
  rw [DoublyLinked.keys_append, DoublyLinked.keys_cons, nodup_middle, nodup_cons, mem_append, not_or] at nodup
  rw [eraseP_append_right _ _]
  · simp
  · intro other inside same
    exact nodup.1.1 (mem_map.mpr ⟨other, inside, by simpa using same⟩)

theorem find?_middle {entry : Address × Value β} (nodup : (keys (front ++ entry :: back)).Nodup) :
    (front ++ entry :: back).find? (fun other => other.1 = entry.1) = some entry := by
  rw [DoublyLinked.keys_append, DoublyLinked.keys_cons, nodup_middle, nodup_cons, mem_append, not_or] at nodup
  have missed : front.find? (fun other => other.1 = entry.1) = none := by
    rw [find?_eq_none]
    intro other inside same
    exact nodup.1.1 (mem_map.mpr ⟨other, inside, by simpa using same⟩)
  simp [find?_append, missed]

open Option

variable {β : Type u} {queue : Queue β} {entries front back : List (Address × Value β)}

/-- The queue's memory threads the entries, and its fields agree with them. -/
structure Queue.Holds (queue : Queue β) (entries : List (Address × Value β)) : Prop where
  threaded : Threaded queue.items entries
  first : queue.firstItem = firstKey entries
  last : queue.lastItem = lastKey entries
  length : queue.length = entries.length

theorem genericQueueNew_holds : (genericQueueNew : Queue β).Holds [] := ⟨threaded_nil, rfl, rfl, rfl⟩

variable {item : Address}

/-- Pushing into fresh memory appends. -/
theorem Queue.Holds.push (holds : queue.Holds entries) (value : Value β) (fresh : item ∉ keys entries) :
    ∃ pushed, genericQueuePush queue value (some item) = some pushed ∧
      pushed.Holds (entries ++ [(item, value)]) := by
  obtain ⟨after, wrote, threaded⟩ := holds.threaded.push fresh value
  rw [genericQueuePush, holds.first, holds.last]
  rcases eq_nil_or_concat entries with rfl | ⟨front, last, rfl⟩
  · -- In an empty queue the new item becomes the first one too.
    refine ⟨_, rfl, ?_, rfl, rfl, by simp [holds.length]⟩
    simp only [lastKey_nil, setNextIf_none, some.injEq] at wrote
    simpa [wrote] using threaded
  · rw [concat_eq_append] at *
    simp only [lastKey_append, setNextIf_some] at wrote
    cases first : firstKey (front ++ [last]) with
    | none => simp at first
    | some key =>
      simp only [lastKey_append, wrote, map_some]
      refine ⟨_, rfl, threaded, ?_, ?_, by simp [holds.length]⟩
      · rw [firstKey_append, first, some_or]
      · rw [lastKey_append]

/-- Shifting into fresh memory prepends. -/
theorem Queue.Holds.shift (holds : queue.Holds entries) (value : Value β) (fresh : item ∉ keys entries) :
    ∃ shifted, genericQueueShift queue value (some item) = some shifted ∧
      shifted.Holds ((item, value) :: entries) := by
  obtain ⟨after, wrote, threaded⟩ := holds.threaded.shift fresh value
  rw [genericQueueShift, holds.first, holds.last]
  cases entries with
  | nil =>
    refine ⟨_, rfl, ?_, rfl, rfl, by simp [holds.length]⟩
    simp only [firstKey_nil, setPreviousIf_none, some.injEq] at wrote
    simpa [wrote] using threaded
  | cons entry rest =>
    simp only [firstKey_cons, setPreviousIf_some] at wrote
    have last : lastKey ((item, value) :: entry :: rest) = lastKey (entry :: rest) := by simp [lastKey]
    cases key : lastKey (entry :: rest) with
    | none => simp [lastKey] at key
    | some key' =>
      simp only [firstKey_cons, wrote, map_some]
      exact ⟨_, rfl, threaded, rfl, by rw [last, key], by simp [holds.length]⟩

theorem Queue.Holds.pop_nil (holds : queue.Holds []) : genericQueuePop queue = some (queue, none) := by
  simp [genericQueuePop, holds.last]

variable {entry : Address × Value β}

theorem Queue.Holds.pop (holds : queue.Holds (front ++ [entry])) : genericQueuePop queue = some (
      { items := queue.items.free entry.1
        firstItem := if front.length = 0 then none else queue.firstItem
        lastItem := lastKey front
        length := front.length }, entry.2) := by
  have cell := holds.threaded.cell
  simp [genericQueuePop, holds.last, cell, holds.length]

theorem Queue.Holds.unshift_nil (holds : queue.Holds []) :
    genericQueueUnshift queue = some (queue, none) := by
  simp [genericQueueUnshift, holds.first]

theorem Queue.Holds.unshift (holds : queue.Holds (entry :: back)) : genericQueueUnshift queue = some (
      { items := queue.items.free entry.1
        firstItem := firstKey back
        lastItem := if back.length = 0 then none else queue.lastItem
        length := back.length }, entry.2) := by
  have holds' : queue.Holds ([] ++ entry :: back) := holds
  have cell := holds'.threaded.cell
  simp [genericQueueUnshift, holds.first, cell, holds.length]

theorem free_single (threaded : Threaded queue.items [entry]) : Threaded (queue.items.free entry.1) [] := by
  refine ⟨nodup_nil, fun item _ => ?_, trivial⟩
  by_cases freed : item = entry.1
  · simp [freed]
  · rw [free_other _ freed, threaded.live item (by simpa using freed)]

theorem Queue.Holds.peek (holds : queue.Holds entries) :
    genericQueuePeek queue = some (entries.getLast?.bind Prod.snd) := by
  rcases eq_nil_or_concat entries with rfl | ⟨front, last, rfl⟩
  · simp [genericQueuePeek, holds.last]
  · rw [concat_eq_append] at *
    simp [genericQueuePeek, holds.last, holds.threaded.cell]

theorem Queue.Holds.peekFirst (holds : queue.Holds entries) :
    genericQueuePeekFirst queue = some (entries.head?.bind Prod.snd) := by
  cases entries with
  | nil => simp [genericQueuePeekFirst, holds.first]
  | cons entry rest =>
    have holds' : queue.Holds ([] ++ entry :: rest) := holds
    simp [genericQueuePeekFirst, holds.first, holds'.threaded.cell]

theorem scan_visits {items : Memory Address (Value β)} {forward : Bool}
    (wanted : Address → Value β → Bool) {start : Option Address} {visited : List Address}
    (visits : Visits items forward start visited) :
    ∀ moves, visited.length ≤ moves → scan items forward wanted moves start =
      some (visited.find? fun item => (items item).any fun cell => wanted item cell.value) := by
  induction visits with
  | finish =>
    intro moves _
    cases moves <;> rfl
  | @visit item cell rest live later ih =>
    intro moves enough
    cases moves with
    | zero => simp at enough
    | succ moves =>
      rw [scan, live, bind_some, ih moves (by simpa using enough)]
      cases found : wanted item cell.value <;> simp [live, found]

theorem Queue.Holds.scan (holds : queue.Holds entries) (forward : Bool) (wanted : Address → Value β → Bool) :
    scan queue.items forward wanted queue.length (if forward then queue.firstItem else queue.lastItem) =
      some ((order entries forward).find? fun item =>
        (queue.items item).any fun cell => wanted item cell.value) := by
  have long : (order entries forward).length = entries.length := by
    cases forward <;> simp [order, DoublyLinked.keys]
  refine scan_visits wanted ?_ queue.length (Nat.le_of_eq (long.trans holds.length.symm))
  cases forward with
  | true => simpa [order, holds.first] using holds.threaded.visits_forward
  | false => simpa [order, holds.last] using holds.threaded.visits_backward

theorem Queue.Holds.find_value [DecidableEq β] (holds : queue.Holds entries) (value : Value β) :
    ((order entries true).find? fun item =>
      (queue.items item).any fun cell => decide (cell.value = value)) =
      (entries.find? fun entry => entry.2 = value).map Prod.fst := by
  have agrees : ∀ part : List (Address × Value β), part ⊆ entries → ((keys part).find? fun item =>
        (queue.items item).any fun cell => decide (cell.value = value)) =
        (part.find? fun entry => entry.2 = value).map Prod.fst := by
    intro part
    induction part with
    | nil => simp
    | cons entry rest ih =>
      intro within
      obtain ⟨front, back, split⟩ := append_of_mem (within (mem_cons_self ..))
      have cell := (split ▸ holds.threaded).cell
      have later := ih fun other inside => within (mem_cons_of_mem _ inside)
      by_cases same : entry.2 = value
      · simp [cell, same]
      · simpa [cell, same] using later
  simpa [order] using agrees entries (List.Subset.refl _)

variable (holds : queue.Holds (front ++ entry :: back))
include holds

theorem Queue.Holds.first_without : firstKey (front ++ back) =
      if (lastKey front).isSome then queue.firstItem else firstKey back := by
  rw [holds.first]
  rcases eq_nil_or_concat front with rfl | ⟨start, last, rfl⟩
  · simp
  · cases start <;> simp

theorem Queue.Holds.last_without : lastKey (front ++ back) =
      if (firstKey back).isSome then queue.lastItem else lastKey front := by
  rw [holds.last]
  rcases eq_nil_or_concat back with rfl | ⟨start, last, rfl⟩
  · simp
  · have split : front ++ entry :: (start ++ [last]) = front ++ entry :: start ++ [last] := by simp
    rw [concat_eq_append, split, lastKey_append, lastKey_append_append, lastKey_append]
    cases start <;> simp

theorem Queue.Holds.skipNext {middle : Memory Address (Value β)}
 (wrote : queue.items.setNextIf (lastKey front) (firstKey back) = some middle) :
    queue.skipNext ⟨entry.2, lastKey front, firstKey back⟩ (lastKey front).isNone =
      some { queue with items := middle, firstItem := firstKey (front ++ back) } := by
  rw [holds.first_without, Queue.skipNext]
  cases key : lastKey front with
  | none =>
    rw [key, setNextIf_none, some.injEq] at wrote
    simp [wrote]
  | some previous =>
    rw [key, setNextIf_some] at wrote
    simp [wrote]

theorem Queue.Holds.skipPrevious {middle after : Memory Address (Value β)}
    (wrote : middle.setPreviousIf (firstKey back) (lastKey front) = some after)
    (first : Option Address) :
    Queue.skipPrevious { queue with items := middle, firstItem := first }
        ⟨entry.2, lastKey front, firstKey back⟩ (firstKey back).isNone =
      some { queue with
        items := after, firstItem := first, lastItem := lastKey (front ++ back) } := by
  rw [holds.last_without, Queue.skipPrevious]
  cases key : firstKey back with
  | none =>
    rw [key, setPreviousIf_none, some.injEq] at wrote
    simp [wrote]
  | some next =>
    rw [key, setPreviousIf_some] at wrote
    simp [wrote]

variable {value : Value β}

omit holds

/-- Removing the first item with the value takes out exactly its entry. -/
theorem Queue.Holds.remove [DecidableEq β] (holds : queue.Holds (front ++ (item, value) :: back))
    (first : ∀ entry ∈ front, entry.2 ≠ value) :
    ∃ removed, genericQueueRemove queue value = some (removed, value) ∧ removed.Holds (front ++ back) := by
  obtain ⟨middle, after, wroteNext, same, -, wrotePrevious, threaded⟩ := holds.threaded.unlink
  have cell := holds.threaded.cell
  have found : ((front ++ (item, value) :: back).find? fun entry => entry.2 = value) =
      some (item, value) := by
    rw [find?_append, find?_eq_none.mpr (by simpa using first)]
    simp
  have scanned := holds.scan true fun _ stored => decide (stored = value)
  rw [if_pos rfl, holds.find_value, found, map_some] at scanned
  refine ⟨⟨after.free item, firstKey (front ++ back), lastKey (front ++ back), queue.length - 1⟩,
    ?_, threaded, rfl, rfl, by simp [holds.length]⟩
  -- The two neighbours are led past the item, which keeps its own links until it is freed.
  rw [genericQueueRemove, scanned]
  simp only [bind_some, cell, holds.skipNext wroteNext, same, holds.skipPrevious wrotePrevious, map_some]

theorem Queue.Holds.remove_absent [DecidableEq β] (holds : queue.Holds entries)
    (absent : (entries.find? fun entry => entry.2 = value) = none) :
    genericQueueRemove queue value = some (queue, none) := by
  have scanned := holds.scan true fun _ stored => decide (stored = value)
  rw [if_pos rfl, holds.find_value, absent, map_none] at scanned
  rw [genericQueueRemove, scanned, bind_some]

/-- The neighbour a cursor moves to from an entry. -/
def neighbour (front back : List (Address × Value β)) (forward : Bool) : Option Address :=
  if forward then firstKey back else lastKey front

include holds

theorem Queue.Holds.along (forward : Bool) :
    (queue.items entry.1).map (·.along forward) = some (neighbour front back forward) := by
  cases forward <;> simp [holds.threaded.cell, Cell.along, neighbour]

theorem Queue.Holds.iteratorNext (forward : Bool) : genericQueueIteratorNext queue ⟨some entry.1, forward⟩ =
      some ((neighbour front back forward).map fun item => ⟨some item, forward⟩) := by
  have along := holds.along forward
  rw [holds.threaded.cell, map_some, some.injEq] at along
  simp [genericQueueIteratorNext, holds.threaded.cell, along]

theorem Queue.Holds.iteratorValue (forward : Bool) :
    genericQueueIteratorValue queue ⟨some entry.1, forward⟩ = some entry.2 := by
  simp [genericQueueIteratorValue, holds.threaded.cell]

theorem Queue.Holds.first_eq :
    decide (queue.firstItem = some entry.1) = (lastKey front).isNone := by
  have nodup := holds.threaded.nodup
  rw [holds.first]
  rcases eq_nil_or_concat front with rfl | ⟨start, last, rfl⟩
  · simp
  · rw [concat_eq_append] at *
    rw [DoublyLinked.keys_append, nodup_append] at nodup
    have differ : firstKey (start ++ [last] ++ entry :: back) ≠ some entry.1 := by
      cases start with
      | nil => simpa using nodup.2.2 last.1 (by simp) entry.1 (by simp)
      | cons other rest => simpa using nodup.2.2 other.1 (by simp) entry.1 (by simp)
    rw [decide_eq_false differ, lastKey_append]
    rfl

theorem Queue.Holds.last_eq :
    decide (queue.lastItem = some entry.1) = (firstKey back).isNone := by
  have nodup := holds.threaded.nodup
  rw [holds.last]
  rcases eq_nil_or_concat back with rfl | ⟨start, other, rfl⟩
  · simp
  · have split : front ++ entry :: (start ++ [other]) = front ++ entry :: start ++ [other] := by simp
    rw [concat_eq_append, split] at nodup ⊢
    rw [DoublyLinked.keys_append, nodup_append] at nodup
    have apart : entry.1 ≠ other.1 := nodup.2.2 entry.1 (by simp) other.1 (by simp)
    have differ : some other.1 ≠ some entry.1 := by simpa using Ne.symm apart
    rw [lastKey_append, decide_eq_false differ]
    cases start <;> simp

omit holds

theorem Queue.Holds.find_item (holds : queue.Holds (front ++ (item, value) :: back)) (forward : Bool) :
    ((order (front ++ (item, value) :: back) forward).find? fun other =>
      (queue.items other).any fun _ => decide (some item = some other)) = some item := by
  have cell := holds.threaded.cell
  cases found : (order (front ++ (item, value) :: back) forward).find? fun other =>
      (queue.items other).any fun _ => decide (some item = some other) with
  | none =>
    -- The item itself is in the order and would have been found.
    rw [find?_eq_none] at found
    exact absurd (found item (by simp)) (by simp [cell])
  | some other =>
    have hit := find?_some found
    rw [Option.any_eq_true] at hit
    obtain ⟨-, -, same⟩ := hit
    exact (of_decide_eq_true same).symm

/-- Removing through an iterator takes out its entry and moves it to the neighbour. -/
theorem Queue.Holds.iteratorRemove (holds : queue.Holds (front ++ (item, value) :: back)) (forward : Bool) :
    ∃ removed, genericQueueIteratorRemove queue ⟨some item, forward⟩ =
        some (removed, (neighbour front back forward).map fun item => ⟨some item, forward⟩) ∧
      removed.Holds (front ++ back) := by
  obtain ⟨middle, after, wroteNext, same, here, wrotePrevious, threaded⟩ := holds.threaded.unlink
  have cell := holds.threaded.cell
  have along := holds.along forward
  rw [cell, map_some, some.injEq] at along
  refine ⟨⟨after.free item, firstKey (front ++ back), lastKey (front ++ back), queue.length - 1⟩,
    ?_, threaded, rfl, rfl, by simp [holds.length]⟩
  have isFirst := holds.first_eq
  have isLast := holds.last_eq
  have scanned := holds.scan forward fun other _ => decide (some item = some other)
  rw [holds.find_item forward] at scanned
  rw [genericQueueIteratorRemove, scanned]
  simp only [bind_some, cell, isFirst, holds.skipNext wroteNext, same, isLast,
    holds.skipPrevious wrotePrevious, here, map_some, along]

open Option Sequence

variable {β : Type u} {program : Program β} {sequence : Sequence β}

/-- The queue holds the sequence's entries, and a cursor on an element is its iterator. -/
structure Program.Refines (program : Program β) (sequence : Sequence β) : Prop where
  queue : program.queue.Holds sequence.entries
  handles : ∀ handle, (program.iterators handle).isSome = (sequence.cursors handle).isSome
  standing : ∀ handle cursor item, sequence.cursors handle = some cursor →
    cursor.item = some item → program.iterators handle = some cursor ∧ item ∈ keys sequence.entries

variable (refines : program.Refines sequence)
include refines

theorem Program.Refines.mirrors : program.Mirrors sequence where
  length := refines.queue.length
  live := refines.queue.threaded.live_iff
  values := by
    intro entry inside
    obtain ⟨front, back, split⟩ := append_of_mem inside
    simp [(split ▸ refines.queue.threaded).cell]
  forward := refines.queue.first ▸ refines.queue.threaded.visits_forward
  backward := refines.queue.last ▸ refines.queue.threaded.visits_backward
  iterators := refines.handles

omit refines

theorem new_refines : (Program.new : Program β).Refines new :=
  ⟨genericQueueNew_holds, fun _ => rfl, fun _ _ _ none_ => by simp [new] at none_⟩

include refines

theorem Program.Refines.grow {queue : Queue β}
    {entries : List (Address × Value β)} (holds : queue.Holds entries)
    (kept : keys sequence.entries ⊆ keys entries) :
    Program.Refines { program with queue } { sequence with entries } where
  queue := holds
  handles := refines.handles
  standing := by
    intro handle cursor item at_ on
    obtain ⟨same, inside⟩ := refines.standing handle cursor item at_ on
    exact ⟨same, kept inside⟩

/-- When an element leaves, the cursors on it are taken off and the others stay. -/
theorem Program.Refines.leave {queue : Queue β}
    {front back : List (Address × Value β)} {item : Address} {value : Value β}
    (split : sequence.entries = front ++ (item, value) :: back) (holds : queue.Holds (front ++ back)) :
    Program.Refines { program with queue } (sequence.without item (front ++ back)) where
  queue := holds
  handles := by
    intro handle
    simp [without, refines.handles]
  standing := by
    intro handle cursor other at_ on
    simp only [without, map_eq_some_iff] at at_
    obtain ⟨before, found, left⟩ := at_
    by_cases gone : before.item = some item
    · -- A cursor on the element that left stands on nothing.
      simp [Iterator.leave, gone] at left
      simp [← left] at on
    · rw [Iterator.leave, if_neg gone] at left
      subst left
      obtain ⟨same, inside⟩ := refines.standing handle before other found on
      refine ⟨same, ?_⟩
      have differ : other ≠ item := fun equal => gone (equal ▸ on)
      simpa [split, differ, without] using inside

/-- Writing the same iterator and cursor back keeps the two together. -/
theorem Program.Refines.setIterator (handle : Address) {cursor : Option Iterator}
    (inside : ∀ moved item, cursor = some moved → moved.item = some item → item ∈ keys sequence.entries) :
    (program.setIterator handle cursor).Refines (sequence.setCursor handle cursor) where
  queue := refines.queue
  handles := by
    intro other
    by_cases here : other = handle
    · simp [Program.setIterator, setCursor, here]
    · simp [Program.setIterator, setCursor, here, refines.handles]
  standing := by
    intro other moved item at_ on
    by_cases here : other = handle
    · subst here
      simp only [setCursor, Function.update_self] at at_
      exact ⟨by simp [Program.setIterator, at_], inside moved item at_ on⟩
    · simp only [setCursor, Function.update_of_ne here] at at_
      simpa [Program.setIterator, here, setCursor] using refines.standing other moved item at_ on

omit refines

theorem moved_eq {front back : List (Address × Value β)} {item : Address} {value : Value β}
    (split : sequence.entries = front ++ (item, value) :: back)
    (nodup : (keys sequence.entries).Nodup) {cursor : Iterator} :
    sequence.moved cursor item =
      (neighbour front back cursor.forward).map fun next => { cursor with item := some next } := by
  rw [split] at nodup
  rw [moved, split, successor_order nodup, neighbour]

theorem neighbour_mem {front back : List (Address × Value β)} {forward : Bool} {item : Address}
    (next : neighbour front back forward = some item) : item ∈ keys (front ++ back) := by
  cases forward with
  | true =>
    obtain ⟨entry, inside, rfl⟩ := map_eq_some_iff.mp next
    exact mem_map_of_mem (mem_append_right _ (mem_of_head? inside))
  | false =>
    obtain ⟨entry, inside, rfl⟩ := map_eq_some_iff.mp next
    exact mem_map_of_mem (mem_append_left _ (mem_of_getLast? inside))

include refines

theorem Program.Refines.standing_split {handle item : Address}
    {cursor : Iterator} (at_ : sequence.cursors handle = some cursor) (on : cursor.item = some item) :
    program.iterators handle = some ⟨some item, cursor.forward⟩ ∧
      ∃ front value back, sequence.entries = front ++ (item, value) :: back := by
  obtain ⟨same, inside⟩ := refines.standing handle cursor item at_ on
  obtain ⟨entry, member, rfl⟩ := mem_map.mp inside
  obtain ⟨front, back, split⟩ := append_of_mem member
  refine ⟨?_, front, entry.2, back, split⟩
  rw [same, ← on]

variable [DecidableEq β] {next : Sequence β} {returned : Returned β}

omit refines

/-- What a call comes to: it returns, as the sequence's operation does, and still refines it. -/
def Program.Matches (program : Program β) (operation : Operation β) (next : Sequence β)
    (returned : Returned β) : Prop :=
  ∃ after, program.step operation = some (after, returned) ∧ after.Refines next

omit [DecidableEq β] in
theorem free_single_holds {queue : Queue β} {item : Address} {value : Value β}
    (holds : queue.Holds [(item, value)]) :
    Queue.Holds ⟨queue.items.free item, none, none, 0⟩ ([] ++ [] : List (Address × Value β)) :=
  ⟨free_single holds.threaded, rfl, rfl, rfl⟩

include refines

theorem Program.Refines.push {value : Value β} {newItem : Option Address}
    (moves : sequence.step (.push value newItem) = some (next, returned)) :
    program.Matches (.push value newItem) next returned := by
  cases newItem with
  | none =>
    cases moves
    exact ⟨program, rfl, refines⟩
  | some item =>
    by_cases used : item ∈ keys sequence.entries
    · simp [Sequence.step, used] at moves
    · simp only [Sequence.step, used, if_false, some.injEq, Prod.mk.injEq] at moves
      obtain ⟨rfl, rfl⟩ := moves
      obtain ⟨pushed, ran, holds⟩ := refines.queue.push value used
      exact ⟨_, by simp [Program.step, ran], refines.grow holds (by simp)⟩

theorem Program.Refines.shift {value : Value β} {newItem : Option Address}
    (moves : sequence.step (.shift value newItem) = some (next, returned)) :
    program.Matches (.shift value newItem) next returned := by
  cases newItem with
  | none =>
    cases moves
    exact ⟨program, rfl, refines⟩
  | some item =>
    by_cases used : item ∈ keys sequence.entries
    · simp [Sequence.step, used] at moves
    · simp only [Sequence.step, used, if_false, some.injEq, Prod.mk.injEq] at moves
      obtain ⟨rfl, rfl⟩ := moves
      obtain ⟨shifted, ran, holds⟩ := refines.queue.shift value used
      exact ⟨_, by simp [Program.step, ran], refines.grow holds (by simp)⟩

theorem Program.Refines.pop (moves : sequence.step .pop = some (next, returned))
    (spares : sequence.entries.length ≤ 1) : program.Matches .pop next returned := by
  have holds := refines.queue
  rw [Sequence.step] at moves
  rcases split : sequence.entries with _ | ⟨⟨item, value⟩, _ | ⟨other, rest⟩⟩
  · rw [split] at holds moves
    cases moves
    exact ⟨program, by simp [Program.step, holds.pop_nil], refines⟩
  · rw [split] at holds moves
    cases moves
    have popped := Queue.Holds.pop (show program.queue.Holds ([] ++ [(item, value)]) from holds)
    refine ⟨_, ?_, refines.leave split (free_single_holds holds)⟩
    simp [Program.step, popped]
  · simp [split] at spares

theorem Program.Refines.unshift (moves : sequence.step .unshift = some (next, returned))
    (spares : sequence.entries.length ≤ 1) : program.Matches .unshift next returned := by
  have holds := refines.queue
  rw [Sequence.step] at moves
  rcases split : sequence.entries with _ | ⟨⟨item, value⟩, _ | ⟨other, rest⟩⟩
  · rw [split] at holds moves
    cases moves
    exact ⟨program, by simp [Program.step, holds.unshift_nil], refines⟩
  · rw [split] at holds moves
    cases moves
    refine ⟨_, ?_, refines.leave split (free_single_holds holds)⟩
    simp [Program.step, holds.unshift]
  · simp [split] at spares

theorem Program.Refines.remove {value : Value β}
    (moves : sequence.step (.remove value) = some (next, returned)) :
    program.Matches (.remove value) next returned := by
  have holds := refines.queue
  rw [Sequence.step] at moves
  cases found : sequence.entries.find? fun entry => entry.2 = value with
  | none =>
    rw [found] at moves
    cases moves
    exact ⟨program, by simp [Program.step, holds.remove_absent found], refines⟩
  | some entry =>
    obtain ⟨hit, front, back, split, missed⟩ := find?_eq_some_iff_append.mp found
    obtain ⟨item, stored⟩ := entry
    obtain rfl : stored = value := by simpa using hit
    rw [found] at moves
    cases moves
    have nodup := holds.threaded.nodup
    rw [split] at holds nodup
    obtain ⟨removed, ran, after⟩ := holds.remove (by simpa using missed)
    rw [split, eraseP_middle nodup]
    refine ⟨_, ?_, refines.leave split after⟩
    simp [Program.step, ran]

theorem Program.Refines.iterator {forward : Bool} {newIterator : Option Address}
    (moves : sequence.step (.iterator forward newIterator) = some (next, returned)) :
    program.Matches (.iterator forward newIterator) next returned := by
  have holds := refines.queue
  simp only [Sequence.step] at moves
  cases newIterator with
  | none =>
    have same : sequence = next ∧ Returned.iterator none = returned := by
      cases key : (order sequence.entries forward).head? <;> simpa [key] using moves
    obtain ⟨rfl, rfl⟩ := same
    refine ⟨program, ?_, refines⟩
    cases first : program.queue.firstItem <;> simp [Program.step, genericQueueIterator, first]
  | some handle =>
    cases key : (order sequence.entries forward).head? with
    | none =>
      -- Without an end to stand on there are no entries, and no iterator is made.
      rw [key] at moves
      cases moves
      have empty : sequence.entries = [] := by
        rw [head_order] at key
        cases forward <;> simpa using key
      refine ⟨program, ?_, refines⟩
      simp [Program.step, genericQueueIterator, holds.first, empty]
    | some item =>
      simp only [key] at moves
      split at moves
      · simp at moves
      · cases moves
        have inside : item ∈ keys sequence.entries := mem_order.mp (mem_of_head? key)
        rw [head_order, ← holds.first, ← holds.last] at key
        refine ⟨_, ?_, refines.setIterator handle ?_⟩
        · cases first : program.queue.firstItem with
          | none =>
            rw [holds.first, firstKey_eq_none] at first
            simp [first] at inside
          | some start => simp [Program.step, genericQueueIterator, first, ← key]
        · rintro _ _ ⟨⟩ ⟨⟩
          exact inside

omit refines

omit [DecidableEq β] in
theorem Program.Refines.setMoved {front back : List (Address × Value β)} {program : Program β}
    {sequence : Sequence β} (refines : program.Refines sequence) (handle : Address)
    {forward : Bool} (within : keys (front ++ back) ⊆ keys sequence.entries) :
    (program.setIterator handle ((neighbour front back forward).map fun item => ⟨some item, forward⟩)).Refines
      (sequence.setCursor handle ((neighbour front back forward).map fun item => ⟨some item, forward⟩)) := by
  refine refines.setIterator handle ?_
  intro moved item made on
  obtain ⟨next, found, rfl⟩ := map_eq_some_iff.mp made
  cases on
  exact within (neighbour_mem found)

include refines

theorem Program.Refines.iteratorNext {handle : Address}
    (moves : sequence.step (.iteratorNext handle) = some (next, returned)) :
    program.Matches (.iteratorNext handle) next returned := by
  have holds := refines.queue
  simp only [Sequence.step, bind_eq_some_iff, map_eq_some_iff, Prod.mk.injEq] at moves
  obtain ⟨cursor, at_, item, on, rfl, rfl⟩ := moves
  obtain ⟨there, front, value, back, split⟩ := refines.standing_split at_ on
  obtain ⟨_, forward⟩ := cursor
  cases on
  have moved := @moved_eq _ sequence front back item value split holds.threaded.nodup ⟨some item, forward⟩
  rw [split] at holds
  refine ⟨_, ?_, moved ▸ refines.setMoved handle (by simp [split])⟩
  simp [Program.step, there, holds.iteratorNext, moved]

theorem Program.Refines.iteratorValue {handle : Address}
    (moves : sequence.step (.iteratorValue handle) = some (next, returned)) :
    program.Matches (.iteratorValue handle) next returned := by
  have holds := refines.queue
  simp only [Sequence.step, bind_eq_some_iff, map_eq_some_iff, Prod.mk.injEq] at moves
  obtain ⟨cursor, at_, item, on, rfl, rfl⟩ := moves
  obtain ⟨there, front, value, back, split⟩ := refines.standing_split at_ on
  rw [split] at holds
  refine ⟨program, ?_, refines⟩
  have found := find?_middle holds.threaded.nodup
  simp [Program.step, there, holds.iteratorValue, split, found]

theorem Program.Refines.iteratorRemove {handle : Address}
    (moves : sequence.step (.iteratorRemove handle) = some (next, returned)) :
    program.Matches (.iteratorRemove handle) next returned := by
  have holds := refines.queue
  simp only [Sequence.step, bind_eq_some_iff, map_eq_some_iff, Prod.mk.injEq] at moves
  obtain ⟨cursor, at_, item, on, rfl, rfl⟩ := moves
  obtain ⟨there, front, value, back, split⟩ := refines.standing_split at_ on
  obtain ⟨_, forward⟩ := cursor
  cases on
  have nodup := holds.threaded.nodup
  have moved := @moved_eq _ sequence front back item value split nodup ⟨some item, forward⟩
  rw [split] at holds nodup
  obtain ⟨removed, ran, after⟩ := holds.iteratorRemove forward
  rw [moved, split, eraseP_middle nodup]
  refine ⟨_, ?_, (refines.leave split after).setMoved handle (List.Subset.refl _)⟩
  simp [Program.step, there, ran]

theorem Program.Refines.iteratorFree {handle : Address}
    (moves : sequence.step (.iteratorFree handle) = some (next, returned)) :
    program.Matches (.iteratorFree handle) next returned := by
  simp only [Sequence.step, map_eq_some_iff, Prod.mk.injEq] at moves
  obtain ⟨cursor, at_, rfl, rfl⟩ := moves
  have allocated := refines.handles handle
  rw [at_, isSome_some, isSome_iff_exists] at allocated
  obtain ⟨iterator, there⟩ := allocated
  refine ⟨_, ?_, refines.setIterator handle (by simp)⟩
  simp [Program.step, there]

theorem Program.Refines.step {operation : Operation β}
    (moves : sequence.step operation = some (next, returned))
    (spares : operation.Spares sequence) : program.Matches operation next returned := by
  have holds := refines.queue
  cases operation with
  | push value newItem => exact refines.push moves
  | shift value newItem => exact refines.shift moves
  | pop => exact refines.pop moves spares
  | unshift => exact refines.unshift moves spares
  | peek =>
    cases moves
    exact ⟨program, by simp [Program.step, holds.peek], refines⟩
  | peekFirst =>
    cases moves
    exact ⟨program, by simp [Program.step, holds.peekFirst], refines⟩
  | length =>
    rw [sequence.step_length] at moves
    cases moves
    exact ⟨program, by rw [program.step_length, genericQueueLength, holds.length], refines⟩
  | remove value => exact refines.remove moves
  | iterator forward newIterator => exact refines.iterator moves
  | iteratorNext handle => exact refines.iteratorNext moves
  | iteratorValue handle => exact refines.iteratorValue moves
  | iteratorRemove handle => exact refines.iteratorRemove moves
  | iteratorFree handle => exact refines.iteratorFree moves

omit refines

theorem Program.Refines.run {operations : List (Operation β)} :
    ∀ {program : Program β} {sequence final : Sequence β} {answers : List (Returned β)},
      program.Refines sequence → sequence.run operations = some (final, answers) →
      sequence.RunSpares operations →
      ∃ after, program.run operations = some (after, answers) ∧ after.Refines final := by
  induction operations with
  | nil =>
    rintro program sequence final answers refines ⟨⟩ -
    exact ⟨program, rfl, refines⟩
  | cons operation rest ih =>
    intro program sequence final answers refines ran spares
    simp only [Sequence.run, bind_eq_some_iff, map_eq_some_iff, Prod.mk.injEq] at ran
    obtain ⟨⟨next, returned⟩, moves, ⟨_, later⟩, ranRest, rfl, rfl⟩ := ran
    obtain ⟨middle, stepped, refinesNext⟩ := refines.step moves spares.1
    obtain ⟨after, ranAfter, refinesFinal⟩ := ih refinesNext ranRest (spares.2 next returned moves)
    exact ⟨after, by simp [Program.run, stepped, ranAfter], refinesFinal⟩

include refines

theorem Program.Refines.pop_dangles (behind : 1 < sequence.entries.length)
    (moves : sequence.step .pop = some (next, returned)) {after : Program β}
    (ran : program.step .pop = some (after, returned)) : ¬ after.Mirrors next := by
  intro mirrors
  have holds := refines.queue
  obtain ⟨start, left, last, split⟩ : ∃ start left last, sequence.entries = start ++ [left] ++ [last] := by
    rcases eq_nil_or_concat sequence.entries with none_ | ⟨front, last, split⟩
    · simp [none_] at behind
    · rcases eq_nil_or_concat front with rfl | ⟨start, left, rfl⟩
      · simp [split] at behind
      · exact ⟨start, left, last, by simp [split]⟩
  rw [split] at holds
  have nodup := holds.threaded.nodup
  rw [DoublyLinked.keys_append, nodup_append] at nodup
  have apart : left.1 ≠ last.1 := nodup.2.2 left.1 (by simp) last.1 (by simp)
  -- Popping frees the last item's memory and writes no other cell.
  rw [Program.step, holds.pop] at ran
  cases ran
  rw [Sequence.step, split] at moves
  simp only [getLast?_concat, dropLast_concat, some.injEq, Prod.mk.injEq, and_true] at moves
  have forward := mirrors.forward
  simp only [← moves, without, DoublyLinked.keys_append] at forward
  obtain ⟨cell, there, ended⟩ := forward.last
  have before : Queue.Holds program.queue (start ++ left :: [last]) := by simpa using holds
  rw [free_other _ apart, before.threaded.cell, some.injEq] at there
  simp [← there, Cell.along] at ended

theorem Program.Refines.unshift_dangles (behind : 1 < sequence.entries.length)
    (moves : sequence.step .unshift = some (next, returned)) {after : Program β}
    (ran : program.step .unshift = some (after, returned)) : ¬ after.Mirrors next := by
  intro mirrors
  have holds := refines.queue
  obtain ⟨first, left, rest, split⟩ : ∃ first left rest, sequence.entries = first :: left :: rest := by
    match entries : sequence.entries with
    | [] => simp [entries] at behind
    | [_] => simp [entries] at behind
    | first :: left :: rest => exact ⟨first, left, rest, rfl⟩
  rw [split] at holds
  have nodup := holds.threaded.nodup
  have apart : left.1 ≠ first.1 := by
    rintro same
    simp [same] at nodup
  -- Unshifting frees the first item's memory and writes no other cell.
  rw [Program.step, holds.unshift] at ran
  cases ran
  rw [Sequence.step, split] at moves
  simp only [head?_cons, tail_cons, some.injEq, Prod.mk.injEq, and_true] at moves
  have backward := mirrors.backward
  simp only [← moves, without, DoublyLinked.keys_cons, reverse_cons] at backward
  obtain ⟨cell, there, ended⟩ := backward.last
  have before : Queue.Holds program.queue ([first] ++ left :: rest) := holds
  rw [free_other _ apart, before.threaded.cell, some.injEq] at there
  simp [← there, Cell.along] at ended

omit refines

/-- In every run that takes an end off only when nothing stays behind it, every call returns what
the sequence's operation does and both chains of links visit exactly the live items. The first
call that leaves something behind breaks a chain. -/
theorem run_mirrors_iff {operations : List (Operation β)} {final : Sequence β}
    {answers : List (Returned β)} (ran : Sequence.new.run operations = some (final, answers))
    (spares : Sequence.new.RunSpares operations) :
    ∃ program, Program.new.run operations = some (program, answers) ∧ program.Mirrors final ∧
      ∀ operation next returned, final.step operation = some (next, returned) →
        ((∃ after, program.step operation = some (after, returned) ∧ after.Mirrors next) ↔
          operation.Spares final) := by
  obtain ⟨program, ranProgram, refines⟩ := new_refines.run ran spares
  refine ⟨program, ranProgram, refines.mirrors, ?_⟩
  intro operation next returned moves
  constructor
  · rintro ⟨after, stepped, mirrors⟩
    by_contra leaves
    -- Only the two operations that take an end off can fail to spare.
    cases operation with
    | pop => exact refines.pop_dangles (by simpa [Operation.Spares] using leaves) moves stepped mirrors
    | unshift =>
      exact refines.unshift_dangles (by simpa [Operation.Spares] using leaves) moves stepped mirrors
    | _ => exact leaves trivial
  · intro spared
    obtain ⟨after, stepped, refinesNext⟩ := refines.step moves spared
    exact ⟨after, stepped, refinesNext.mirrors⟩

/-- Two pushes, a removal by value and a pop of the last one leave an empty queue. -/
theorem run_mirrors_iff_emptied : ∃ program : Program Nat,
    Program.new.run [.push (some 1) (some 10), .push (some 2) (some 20), .remove (some 1), .pop] =
      some (program, [.nothing, .nothing, .value (some 1), .value (some 2)]) ∧
    program.queue.length = 0 := by
  -- Only the pop has a length to respect, and it finds one value.
  have spares : (new : Sequence Nat).RunSpares
      [.push (some 1) (some 10), .push (some 2) (some 20), .remove (some 1), .pop] := by
    refine ⟨trivial, ?_⟩
    rintro _ _ ⟨⟩
    refine ⟨trivial, ?_⟩
    rintro _ _ ⟨⟩
    refine ⟨trivial, ?_⟩
    rintro _ _ ⟨⟩
    refine ⟨Nat.le_refl 1, ?_⟩
    rintro _ _ ⟨⟩
    trivial
  obtain ⟨program, ran, mirrors, -⟩ := run_mirrors_iff rfl spares
  exact ⟨program, ran, mirrors.length⟩

/-- Popping one of two values and then walking from the front follows a link into freed memory. -/
theorem run_mirrors_popped : ¬ ∀ (operations : List (Operation Nat)) (final : Sequence Nat)
    (answers : List (Returned Nat)), Sequence.new.run operations = some (final, answers) →
      ∃ program, Program.new.run operations = some (program, answers) ∧ program.Mirrors final := by
  intro claimed
  let operations : List (Operation Nat) :=
    [.push (some 1) (some 10), .push (some 2) (some 20), .pop, .iterator true (some 30), .iteratorNext 30]
  obtain ⟨program, ran, -⟩ := claimed operations _
    [.nothing, .nothing, .value (some 2), .iterator (some 30), .iterator none] rfl
  -- The program's iterator moves on where the sequence's cursor is at the end.
  have answers : (Program.new.run operations).map Prod.snd =
      some [.nothing, .nothing, .value (some 2), .iterator (some 30), .iterator none] := by
    rw [ran, map_some]
  exact absurd answers (by decide)

end Libretro.GenericQueue
