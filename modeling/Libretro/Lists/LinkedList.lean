import Libretro.Queues.GenericQueue

/-! The linked list: insertion and removal anywhere, and the sequence that it shows to its client. -/

namespace Libretro.LinkedList

open DoublyLinked GenericQueue Prod

universe u

variable {β : Type u}

/-- A list has the fields of a queue: its first and last items, its length and the memory its items
live in. -/
abbrev Linked (β : Type u) := Queue β

/-- A new list, all of whose fields are zero. -/
def linkedListNew : Linked β := { items := fun _ => none, firstItem := none, lastItem := none, length := 0 }

/-- Adding a value behind the last one; without memory nothing happens. -/
def linkedListAdd (list : Linked β) (value : Value β) (newItem : Option Address) : Option (Linked β) :=
  match newItem with
  | none => some list
  | some item =>
    let items := list.items.store item ⟨value, list.lastItem, none⟩
    let added := { list with items, lastItem := some item, length := list.length + 1 }
    if list.length = 0 then some { added with firstItem := some item }
    else (items.setNext list.lastItem (some item)).map fun items => { added with items }

/-- The items before and after a place, so many moves on. -/
def insertPlace (items : Memory Address (Value β)) :
    Nat → Option Address → Option Address → Option (Option Address × Option Address)
  | 0, previous, next => some (previous, next)
  | moves + 1, _, next => (next.bind items).bind fun cell => insertPlace items moves next cell.next

/-- Inserting a value at a place, which may be behind the last one; a place further on is ignored,
and without memory nothing happens. -/
def linkedListInsert (list : Linked β) (index : Nat) (value : Value β)
    (newItem : Option Address) : Option (Linked β) :=
  if list.length < index then some list
  else
    (insertPlace list.items index none list.firstItem).bind fun (previous, next) =>
      match newItem with
      | none => some list
      | some item =>
        let items := list.items.store item ⟨value, previous, next⟩
        let inserted := { list with items, length := list.length + 1 }
        (if previous.isSome then
          (items.setNext previous (some item)).map fun items => { inserted with items }
        else some { inserted with firstItem := some item }).bind fun list =>
          if next.isSome then
            (list.items.setPrevious next (some item)).map fun items => { list with items }
          else some { list with lastItem := some item }

/-- The item so many moves behind another. -/
def moveOn (items : Memory Address (Value β)) : Nat → Option Address → Option (Option Address)
  | 0, item => some item
  | moves + 1, item => (item.bind items).bind fun cell => moveOn items moves cell.next

/-- The value at a place, null behind the last one. -/
def linkedListGet (list : Linked β) (index : Nat) : Option (Value β) :=
  if list.length ≤ index then some none
  else
    (moveOn list.items index list.firstItem).bind fun item =>
      (item.bind list.items).map (·.value)

/-- The first value from one end that matches, or null. -/
def linkedListGetMatching (list : Linked β) (forward : Bool) (wanted : Value β → Bool) : Option (Value β) :=
  (scan list.items forward (fun _ stored => wanted stored) list.length
    (if forward then list.firstItem else list.lastItem)).bind fun found =>
      match found with
      | none => some none
      | some item => (list.items item).map (·.value)

/-- The first value that matches, or null. -/
def linkedListGetFirstMatching (list : Linked β) (wanted : Value β → Bool) : Option (Value β) :=
  linkedListGetMatching list true wanted

/-- The last value that matches, or null. -/
def linkedListGetLastMatching (list : Linked β) (wanted : Value β → Bool) : Option (Value β) :=
  linkedListGetMatching list false wanted

/-- Freeing an item and leading its neighbours, or the list's ends, past it. -/
def linkedListRemoveItem (list : Linked β) (item : Address) : Option (Linked β) :=
  (list.items item).bind fun cell =>
    let list := { list with items := list.items.free item, length := list.length - 1 }
    (list.skipNext cell cell.previous.isNone).bind fun list =>
      list.skipPrevious cell cell.next.isNone

/-- Taking out the value at a place, null behind the last one. -/
def linkedListRemoveAt (list : Linked β) (index : Nat) : Option (Linked β × Value β) :=
  if list.length = 0 ∨ list.length ≤ index then some (list, none)
  else
    (moveOn list.items index list.firstItem).bind fun item =>
      item.bind fun item =>
        (list.items item).bind fun cell =>
          (linkedListRemoveItem list item).map fun list => (list, cell.value)

/-- Taking out the first value from one end that matches, or nothing. -/
def linkedListRemoveMatching (list : Linked β) (forward : Bool) (wanted : Value β → Bool) :
    Option (Linked β × Value β) :=
  (scan list.items forward (fun _ stored => wanted stored) list.length
    (if forward then list.firstItem else list.lastItem)).bind fun found =>
      match found with
      | none => some (list, none)
      | some item =>
        (list.items item).bind fun cell =>
          (linkedListRemoveItem list item).map fun list => (list, cell.value)

/-- Taking out the first or the last item with a value, found by comparing pointers; the pointer
that is returned is the caller's. -/
def linkedListRemoveValue [DecidableEq β] (list : Linked β) (forward : Bool)
    (value : Value β) : Option (Linked β × Value β) :=
  (scan list.items forward (fun _ stored => stored = value) list.length
    (if forward then list.firstItem else list.lastItem)).bind fun found =>
      match found with
      | none => some (list, none)
      | some item => (linkedListRemoveItem list item).map fun list => (list, value)

/-- Taking out the first item with a value. -/
def linkedListRemoveFirst [DecidableEq β] (list : Linked β) (value : Value β) : Option (Linked β × Value β) :=
  linkedListRemoveValue list true value

/-- Taking out the last item with a value. -/
def linkedListRemoveLast [DecidableEq β] (list : Linked β) (value : Value β) : Option (Linked β × Value β) :=
  linkedListRemoveValue list false value

/-- Taking out the first value that matches. -/
def linkedListRemoveFirstMatching (list : Linked β) (wanted : Value β → Bool) : Option (Linked β × Value β) :=
  linkedListRemoveMatching list true wanted

/-- Taking out the last value that matches. -/
def linkedListRemoveLastMatching (list : Linked β) (wanted : Value β → Bool) : Option (Linked β × Value β) :=
  linkedListRemoveMatching list false wanted

/-- From an item on, each item that is wanted is taken out, and whether there was one. The next item
is read before its predecessor is freed. A loop with more moves than items never returns. -/
def removeAllLoop (wanted : Value β → Bool) :
    Nat → Linked β → Option Address → Bool → Option (Linked β × Bool)
  | _, list, none, found => some (list, found)
  | 0, _, some _, _ => none
  | moves + 1, list, some item, found =>
    (list.items item).bind fun cell =>
      if wanted cell.value then
        (linkedListRemoveItem list item).bind fun list =>
          removeAllLoop wanted moves list cell.next true
      else removeAllLoop wanted moves list cell.next found

/-- Taking out every item with a value, which is returned if there was one. -/
def linkedListRemoveAll [DecidableEq β] (list : Linked β) (value : Value β) : Option (Linked β × Value β) :=
  (removeAllLoop (fun stored => stored = value) list.length list list.firstItem false).map
    fun (list, found) => (list, if found then value else none)

/-- Taking out every item that matches. -/
def linkedListRemoveAllMatching (list : Linked β) (wanted : Value β → Bool) : Option (Linked β) :=
  (removeAllLoop wanted list.length list list.firstItem false).map fun (list, _) => list

/-- Replacing the value at a place, unless that is behind the last one. -/
def linkedListSetAt (list : Linked β) (index : Nat) (value : Value β) : Option (Linked β × Bool) :=
  if list.length = 0 ∨ list.length ≤ index then some (list, false)
  else
    (moveOn list.items index list.firstItem).bind fun item =>
      match item with
      | none => some (list, false)
      | some item =>
        (list.items item).map fun cell =>
          ({ list with items := list.items.store item { cell with value } }, true)

/-- The number of values in the list. -/
def linkedListSize (list : Linked β) : Nat := list.length

/-- An iterator at one end; none for an empty list or when there is no memory. -/
def linkedListIterator (list : Linked β) (forward : Bool) (newIterator : Option Address) :
    Option (Address × Iterator) :=
  match list.firstItem, newIterator with
  | some _, some handle => some (handle, ⟨if forward then list.firstItem else list.lastItem, forward⟩)
  | _, _ => none

/-- Moving an iterator on; at the end it is freed and the inner result is `none`. -/
def linkedListIteratorNext (list : Linked β) (iterator : Iterator) : Option (Option Iterator) :=
  (iterator.item.bind list.items).map fun cell =>
    (cell.along iterator.forward).map fun item => { iterator with item := some item }

/-- The value at the iterator. -/
def linkedListIteratorValue (list : Linked β) (iterator : Iterator) : Option (Value β) :=
  (iterator.item.bind list.items).map (·.value)

/-- Taking out the item an iterator is at; the iterator moves on and is freed at the end. -/
def linkedListIteratorRemove (list : Linked β) (iterator : Iterator) : Option (Linked β × Option Iterator) :=
  iterator.item.bind fun item =>
    (list.items item).bind fun cell =>
      (linkedListRemoveItem list item).map fun list =>
        (list, (cell.along iterator.forward).map fun item => { iterator with item := some item })

/-- The operations a client calls, with the allocator's answer where one is asked. -/
inductive Operation (β : Type u)
  | add (value : Value β) (newItem : Option Address)
  | insert (index : Nat) (value : Value β) (newItem : Option Address)
  | get (index : Nat)
  | getFirstMatching (wanted : Value β → Bool)
  | getLastMatching (wanted : Value β → Bool)
  | removeAt (index : Nat)
  | removeFirst (value : Value β)
  | removeLast (value : Value β)
  | removeAll (value : Value β)
  | removeFirstMatching (wanted : Value β → Bool)
  | removeLastMatching (wanted : Value β → Bool)
  | removeAllMatching (wanted : Value β → Bool)
  | setAt (index : Nat) (value : Value β)
  | size
  | iterator (forward : Bool) (newIterator : Option Address)
  | iteratorNext (handle : Address)
  | iteratorValue (handle : Address)
  | iteratorRemove (handle : Address)
  | iteratorFree (handle : Address)

/-- What a call returns to its client. -/
inductive Returned (β : Type u)
  | nothing
  | value (value : Value β)
  | count (length : Nat)
  | flag (done : Bool)
  | iterator (handle : Option Address)
deriving DecidableEq

/-- One call of a client, `none` when it touches memory that is not allocated. -/
@[simp] def step [DecidableEq β] (program : Program β) :
    Operation β → Option (Program β × Returned β)
  | .add value newItem =>
    (linkedListAdd program.queue value newItem).map fun queue => ({ program with queue }, .nothing)
  | .insert index value newItem =>
    (linkedListInsert program.queue index value newItem).map fun queue =>
      ({ program with queue }, .nothing)
  | .get index => (linkedListGet program.queue index).map fun value => (program, .value value)
  | .getFirstMatching wanted =>
    (linkedListGetFirstMatching program.queue wanted).map fun value => (program, .value value)
  | .getLastMatching wanted =>
    (linkedListGetLastMatching program.queue wanted).map fun value => (program, .value value)
  | .removeAt index =>
    (linkedListRemoveAt program.queue index).map fun (queue, value) =>
      ({ program with queue }, .value value)
  | .removeFirst value =>
    (linkedListRemoveFirst program.queue value).map fun (queue, value) =>
      ({ program with queue }, .value value)
  | .removeLast value =>
    (linkedListRemoveLast program.queue value).map fun (queue, value) =>
      ({ program with queue }, .value value)
  | .removeAll value =>
    (linkedListRemoveAll program.queue value).map fun (queue, value) =>
      ({ program with queue }, .value value)
  | .removeFirstMatching wanted =>
    (linkedListRemoveFirstMatching program.queue wanted).map fun (queue, value) =>
      ({ program with queue }, .value value)
  | .removeLastMatching wanted =>
    (linkedListRemoveLastMatching program.queue wanted).map fun (queue, value) =>
      ({ program with queue }, .value value)
  | .removeAllMatching wanted =>
    (linkedListRemoveAllMatching program.queue wanted).map fun queue =>
      ({ program with queue }, .nothing)
  | .setAt index value =>
    (linkedListSetAt program.queue index value).map fun (queue, done) =>
      ({ program with queue }, .flag done)
  | .size => some (program, .count (linkedListSize program.queue))
  | .iterator forward newIterator =>
    match linkedListIterator program.queue forward newIterator with
    | none => some (program, .iterator none)
    | some (handle, iterator) => some (program.setIterator handle (some iterator), .iterator (some handle))
  | .iteratorNext handle =>
    (program.iterators handle).bind fun iterator =>
      (linkedListIteratorNext program.queue iterator).map fun moved =>
        (program.setIterator handle moved, .iterator (handleOf handle moved))
  | .iteratorValue handle =>
    (program.iterators handle).bind fun iterator =>
      (linkedListIteratorValue program.queue iterator).map fun value => (program, .value value)
  | .iteratorRemove handle =>
    (program.iterators handle).bind fun iterator =>
      (linkedListIteratorRemove program.queue iterator).map fun (queue, moved) =>
        ({ program with queue }.setIterator handle moved, .iterator (handleOf handle moved))
  | .iteratorFree handle =>
    (program.iterators handle).map fun _ => (program.setIterator handle none, .nothing)

/-- A client's calls one after the other, with everything they returned. -/
def run [DecidableEq β] (program : Program β) : List (Operation β) → Option (Program β × List (Returned β))
  | [] => some (program, [])
  | operation :: rest =>
    (step program operation).bind fun (next, returned) =>
      (run next rest).map fun (final, later) => (final, returned :: later)

/-- The sequence without the entries that are wanted, with no cursor on any of them. -/
def without (sequence : Sequence β) (wanted : Value β → Bool) : Sequence β :=
  { entries := sequence.entries.filter fun entry => !wanted entry.2
    cursors := fun handle =>
      (sequence.cursors handle).map fun cursor =>
        if ∃ entry ∈ sequence.entries, cursor.item = some entry.1 ∧ wanted entry.2 = true then
          { cursor with item := none }
        else cursor }

/-- The entries in the order of a direction. -/
def directed (entries : List (Address × Value β)) (forward : Bool) : List (Address × Value β) :=
  if forward then entries else entries.reverse

/-- The first wanted value from one end, or null. -/
def firstWanted (sequence : Sequence β) (forward : Bool) (wanted : Value β → Bool) : Value β :=
  ((directed sequence.entries forward).find? fun entry => wanted entry.2).bind snd

/-- The sequence without its first wanted entry from one end, and that entry's value. -/
def takeOut (sequence : Sequence β) (forward : Bool) (wanted : Value β → Bool) : Sequence β × Value β :=
  match (directed sequence.entries forward).find? fun entry => wanted entry.2 with
  | none => (sequence, none)
  | some (item, value) =>
    (sequence.without item
      (directed ((directed sequence.entries forward).eraseP fun entry => wanted entry.2) forward),
      value)

/-- One operation on the sequence. It is undefined on a cursor that is not there or that stands on
nothing, and where the allocator would hand out something that is still in use. -/
@[simp] def sequenceStep [DecidableEq β] (sequence : Sequence β) :
    Operation β → Option (Sequence β × Returned β)
  | .add value newItem =>
    match newItem with
    | none => some (sequence, .nothing)
    | some item =>
      if item ∈ keys sequence.entries then none
      else some ({ sequence with entries := sequence.entries ++ [(item, value)] }, .nothing)
  | .insert index value newItem =>
    match newItem with
    | none => some (sequence, .nothing)
    | some item =>
      if item ∈ keys sequence.entries then none
      else if sequence.entries.length < index then some (sequence, .nothing)
      else
        some ({ sequence with entries := sequence.entries.insertIdx index (item, value) }, .nothing)
  | .get index => some (sequence, .value (sequence.entries[index]?.bind snd))
  | .getFirstMatching wanted => some (sequence, .value (firstWanted sequence true wanted))
  | .getLastMatching wanted => some (sequence, .value (firstWanted sequence false wanted))
  | .removeAt index =>
    match sequence.entries[index]? with
    | none => some (sequence, .value none)
    | some (item, value) => some (sequence.without item (sequence.entries.eraseIdx index), .value value)
  | .removeFirst value =>
    let (after, removed) := takeOut sequence true fun stored => stored = value
    some (after, .value removed)
  | .removeLast value =>
    let (after, removed) := takeOut sequence false fun stored => stored = value
    some (after, .value removed)
  | .removeAll value =>
    some (without sequence fun stored => stored = value,
      .value (if ∃ entry ∈ sequence.entries, entry.2 = value then value else none))
  | .removeFirstMatching wanted =>
    let (after, removed) := takeOut sequence true wanted
    some (after, .value removed)
  | .removeLastMatching wanted =>
    let (after, removed) := takeOut sequence false wanted
    some (after, .value removed)
  | .removeAllMatching wanted => some (without sequence wanted, .nothing)
  | .setAt index value =>
    match sequence.entries[index]? with
    | none => some (sequence, .flag false)
    | some (item, _) =>
      some ({ sequence with entries := sequence.entries.set index (item, value) }, .flag true)
  | .size => some (sequence, .count sequence.entries.length)
  | .iterator forward newIterator =>
    match (order sequence.entries forward).head?, newIterator with
    | some item, some handle =>
      if (sequence.cursors handle).isSome then none
      else some (sequence.setCursor handle (some ⟨some item, forward⟩), .iterator (some handle))
    | _, _ => some (sequence, .iterator none)
  | .iteratorNext handle =>
    (sequence.cursors handle).bind fun cursor =>
      cursor.item.map fun item =>
        let moved := sequence.moved cursor item
        (sequence.setCursor handle moved, .iterator (handleOf handle moved))
  | .iteratorValue handle =>
    (sequence.cursors handle).bind fun cursor =>
      cursor.item.map fun item =>
        (sequence, .value ((sequence.entries.find? fun entry => entry.1 = item).bind snd))
  | .iteratorRemove handle =>
    (sequence.cursors handle).bind fun cursor =>
      cursor.item.map fun item =>
        let moved := sequence.moved cursor item
        let removed := sequence.without item (sequence.entries.eraseP fun entry => entry.1 = item)
        (removed.setCursor handle moved, .iterator (handleOf handle moved))
  | .iteratorFree handle => (sequence.cursors handle).map fun _ => (sequence.setCursor handle none, .nothing)

/-- The operations one after the other, with everything they returned. -/
def sequenceRun [DecidableEq β] (sequence : Sequence β) :
    List (Operation β) → Option (Sequence β × List (Returned β))
  | [] => some (sequence, [])
  | operation :: rest =>
    (sequenceStep sequence operation).bind fun (next, returned) =>
      (sequenceRun next rest).map fun (final, later) => (final, returned :: later)

open List Option

variable {β : Type u} {list : Linked β} {entries front back : List (Address × Value β)}
  {item : Address} {value : Value β}

/-- Adding into fresh memory appends. -/
theorem add_holds (holds : list.Holds entries) (value : Value β) (fresh : item ∉ keys entries) :
    ∃ added, linkedListAdd list value (some item) = some added ∧
      added.Holds (entries ++ [(item, value)]) := by
  obtain ⟨after, wrote, threaded⟩ := holds.threaded.push fresh value
  rw [linkedListAdd, holds.last, holds.length]
  rcases eq_nil_or_concat entries with rfl | ⟨front, last, rfl⟩
  · -- In an empty list the new item becomes the first one too.
    refine ⟨_, rfl, ?_, rfl, rfl, by simp⟩
    simp only [lastKey_nil, setNextIf_none, some.injEq] at wrote
    simpa [wrote] using threaded
  · rw [concat_eq_append] at *
    simp only [lastKey_append, setNextIf_some] at wrote
    have some : (front ++ [last]).length ≠ 0 := by simp
    simp only [lastKey_append, wrote, map_some, if_neg some]
    refine ⟨_, rfl, threaded, ?_, by rw [lastKey_append], by simp⟩
    rw [firstKey_append, ← holds.first, holds.first]
    cases front <;> simp

theorem moveOn_segment {items : Memory Address (Value β)} {previous : Option Address}
    (segment : Segment items previous (front ++ back) none) :
    moveOn items front.length (firstKey (front ++ back)) = some (firstKey back) := by
  -- Each move passes one entry of the front.
  induction front generalizing previous with
  | nil => rfl
  | cons entry rest ih =>
    have next := ih segment.2
    rw [cons_append, firstKey_cons, length_cons, moveOn, bind_some, segment.1, bind_some]
    rw [or_none]
    exact next

theorem moveOn_holds (holds : list.Holds (front ++ back)) :
    moveOn list.items front.length list.firstItem = some (firstKey back) := by
  rw [holds.first]
  exact moveOn_segment holds.threaded.segment

theorem insertPlace_segment {items : Memory Address (Value β)} {previous : Option Address}
    (segment : Segment items previous (front ++ back) none) :
    insertPlace items front.length previous (firstKey (front ++ back)) =
      some ((lastKey front).or previous, firstKey back) := by
  -- Each move takes one entry of the front to the other side.
  induction front generalizing previous with
  | nil => rfl
  | cons entry rest ih =>
    have next := ih segment.2
    rw [cons_append, firstKey_cons, length_cons, insertPlace, bind_some, segment.1, bind_some, or_none]
    refine next.trans ?_
    have last : (lastKey (entry :: rest)).or previous = (lastKey rest).or (some entry.1) := by
      rw [← singleton_append, lastKey_append_append]
      simp
    rw [last]

/-- Inserting into fresh memory puts the value at its place. -/
theorem insert_holds (holds : list.Holds (front ++ back)) (value : Value β)
    (fresh : item ∉ keys (front ++ back)) :
    ∃ inserted, linkedListInsert list front.length value (some item) = some inserted ∧
      inserted.Holds (front ++ (item, value) :: back) := by
  obtain ⟨middle, after, wroteNext, wrotePrevious, threaded⟩ := holds.threaded.insert fresh value
  have place := insertPlace_segment holds.threaded.segment
  rw [or_none, ← holds.first] at place
  have inside : ¬ list.length < front.length := by
    rw [holds.length, length_append]
    omega
  have length : list.length + 1 = (front ++ (item, value) :: back).length := by
    rw [holds.length, length_append, length_append, length_cons, Nat.add_assoc]
  refine ⟨⟨after, firstKey (front ++ (item, value) :: back),
    lastKey (front ++ (item, value) :: back), list.length + 1⟩, ?_, threaded, rfl, rfl, length⟩
  rw [linkedListInsert, if_neg inside, place]
  -- The ends change only where there is no neighbour.
  have first : firstKey (front ++ (item, value) :: back) =
      if (lastKey front).isSome then list.firstItem else some item := by
    rw [holds.first]
    rcases eq_nil_or_concat front with rfl | ⟨start, last, rfl⟩
    · rfl
    · cases start <;> simp
  have last : lastKey (front ++ (item, value) :: back) =
      if (firstKey back).isSome then list.lastItem else some item := by
    rw [holds.last]
    rcases eq_nil_or_concat back with rfl | ⟨start, last, rfl⟩
    · simp
    · have split : front ++ (item, value) :: (start ++ [last]) =
          front ++ (item, value) :: start ++ [last] := by simp
      rw [concat_eq_append, split, lastKey_append, lastKey_append_append, lastKey_append]
      cases start <;> simp
  rw [first, last]
  simp only [bind_some]
  cases key : lastKey front with
  | none =>
    rw [key, setNextIf_none, some.injEq] at wroteNext
    cases next : firstKey back with
    | none =>
      rw [next, setPreviousIf_none, some.injEq] at wrotePrevious
      simp [← wrotePrevious, ← wroteNext, next]
    | some following =>
      rw [next, setPreviousIf_some] at wrotePrevious
      simp [← wroteNext, next] at wrotePrevious ⊢
      simp [wrotePrevious]
  | some preceding =>
    rw [key, setNextIf_some] at wroteNext
    cases next : firstKey back with
    | none =>
      rw [next, setPreviousIf_none, some.injEq] at wrotePrevious
      simp [next] at wroteNext ⊢
      simp [wroteNext, wrotePrevious]
    | some following =>
      rw [next, setPreviousIf_some] at wrotePrevious
      simp [next] at wroteNext ⊢
      simp [wroteNext, wrotePrevious]

/-- Removing an item takes out exactly its entry. -/
theorem removeItem_holds (holds : list.Holds (front ++ (item, value) :: back)) :
    ∃ removed, linkedListRemoveItem list item = some removed ∧ removed.Holds (front ++ back) := by
  obtain ⟨middle, after, wroteNext, wrotePrevious, threaded⟩ := holds.threaded.remove
  have cell := holds.threaded.cell
  have first := holds.first_without
  have last := holds.last_without
  have length : list.length - 1 = (front ++ back).length := by
    rw [holds.length, length_append, length_append, length_cons]
    omega
  refine ⟨⟨after, firstKey (front ++ back), lastKey (front ++ back), list.length - 1⟩, ?_, threaded,
    rfl, rfl, length⟩
  rw [linkedListRemoveItem, cell, bind_some, first, last]
  simp only [Queue.skipNext, Queue.skipPrevious]
  -- Each neighbour is led past the item, or an end of the list is.
  cases key : lastKey front with
  | none =>
    rw [key, setNextIf_none, some.injEq] at wroteNext
    cases next : firstKey back with
    | none =>
      rw [next, setPreviousIf_none, some.injEq] at wrotePrevious
      simp [← wrotePrevious, ← wroteNext]
    | some following =>
      rw [next, key, setPreviousIf_some, ← wroteNext] at wrotePrevious
      simp [wrotePrevious]
  | some preceding =>
    rw [key, setNextIf_some] at wroteNext
    cases next : firstKey back with
    | none =>
      rw [next, setPreviousIf_none, some.injEq] at wrotePrevious
      simp only [next] at wroteNext
      simp [wroteNext, wrotePrevious]
    | some following =>
      rw [next, key, setPreviousIf_some] at wrotePrevious
      simp only [next] at wroteNext
      simp [wroteNext, wrotePrevious]

theorem split_at {index : Nat} {entry : Address × Value β} (there : entries[index]? = some entry) :
    ∃ front back, entries = front ++ entry :: back ∧ front.length = index ∧
      entries.eraseIdx index = front ++ back := by
  obtain ⟨inside, rfl⟩ := List.getElem?_eq_some_iff.1 there
  refine ⟨entries.take index, entries.drop (index + 1), ?_, ?_, ?_⟩
  · rw [← drop_eq_getElem_cons inside, take_append_drop]
  · exact length_take_of_le (Nat.le_of_lt inside)
  · rw [eraseIdx_eq_take_drop_succ]

theorem get_holds (holds : list.Holds entries) (index : Nat) :
    linkedListGet list index = some (entries[index]?.bind snd) := by
  rw [linkedListGet, holds.length]
  cases there : entries[index]? with
  | none => rw [if_pos (List.getElem?_eq_none_iff.1 there), bind_none]
  | some entry =>
    obtain ⟨front, back, rfl, rfl, -⟩ := split_at there
    have inside : ¬ (front ++ entry :: back).length ≤ front.length := by simp
    rw [if_neg inside, moveOn_holds holds, firstKey_cons, bind_some, bind_some, holds.threaded.cell]
    rfl

theorem removeAt_holds (holds : list.Holds (front ++ (item, value) :: back)) :
    ∃ removed, linkedListRemoveAt list front.length = some (removed, value) ∧
      removed.Holds (front ++ back) := by
  obtain ⟨removed, ran, after⟩ := removeItem_holds holds
  refine ⟨removed, ?_, after⟩
  have inside : ¬ (list.length = 0 ∨ list.length ≤ front.length) := by
    rw [holds.length, length_append, length_cons]
    omega
  have cell := holds.threaded.cell
  dsimp only at cell
  rw [linkedListRemoveAt, if_neg inside, moveOn_holds holds, firstKey_cons, bind_some,
    bind_some, cell, bind_some, ran, map_some]

theorem removeAt_outside (holds : list.Holds entries) {index : Nat}
    (outside : entries.length ≤ index) : linkedListRemoveAt list index = some (list, none) := by
  rw [linkedListRemoveAt, if_pos (.inr (holds.length ▸ outside))]

/-- Looking for a value by item is looking for it in the entries, in either direction. -/
theorem scan_directed (holds : list.Holds entries) (forward : Bool) (wanted : Value β → Bool) :
    scan list.items forward (fun _ stored => wanted stored) list.length
        (if forward then list.firstItem else list.lastItem) =
      some (((directed entries forward).find? fun entry => wanted entry.2).map fst) := by
  have agrees : ∀ part : List (Address × Value β), part ⊆ entries →
      ((keys part).find? fun item => (list.items item).any fun cell => wanted cell.value) =
        (part.find? fun entry => wanted entry.2).map fst := by
    intro part
    induction part with
    | nil => simp
    | cons entry rest ih =>
      intro within
      obtain ⟨front, back, split⟩ := append_of_mem (within (mem_cons_self ..))
      have cell := (split ▸ holds.threaded).cell
      have later := ih fun other inside => within (mem_cons_of_mem _ inside)
      cases hit : wanted entry.2 with
      | true => simp [cell, hit]
      | false => simpa [cell, hit] using later
  have ordered : order entries forward = keys (directed entries forward) := by
    cases forward <;> simp [order, directed, DoublyLinked.keys]
  rw [holds.scan forward fun _ stored => wanted stored, ordered, agrees]
  cases forward with
  | true => exact List.Subset.refl _
  | false => exact fun entry listed => mem_reverse.1 listed

/-- The first wanted entry from one end stands between others, of which none in front of it in that
direction is wanted. -/
theorem find_directed {forward : Bool} (wanted : Value β → Bool)
    (found : ((directed entries forward).find? fun entry => wanted entry.2) = some (item, value)) :
    wanted value = true ∧ ∃ front back, entries = front ++ (item, value) :: back ∧
      directed ((directed entries forward).eraseP fun entry => wanted entry.2) forward = front ++ back := by
  obtain ⟨hit, before, behind, split, missed⟩ := find?_eq_some_iff_append.mp found
  have erased : ((directed entries forward).eraseP fun entry => wanted entry.2) = before ++ behind := by
    have first : ((item, value) :: behind).eraseP (fun entry => wanted entry.2) = behind := by
      dsimp only at hit
      simp [hit]
    rw [split, eraseP_append_right _ (fun entry listed => by simpa using missed entry listed),
      first]
  refine ⟨hit, ?_⟩
  rw [erased]
  cases forward with
  | true => exact ⟨before, behind, split, rfl⟩
  | false =>
    refine ⟨behind.reverse, before.reverse, ?_, ?_⟩
    · have turned := congrArg List.reverse split
      simpa [directed] using turned
    · simp [directed]

theorem getMatching_holds (holds : list.Holds entries) (forward : Bool) (wanted : Value β → Bool) :
    linkedListGetMatching list forward wanted =
      some (((directed entries forward).find? fun entry => wanted entry.2).bind snd) := by
  rw [linkedListGetMatching, scan_directed holds, bind_some]
  cases found : (directed entries forward).find? fun entry => wanted entry.2 with
  | none => rfl
  | some entry =>
    obtain ⟨item, value⟩ := entry
    obtain ⟨-, front, back, rfl, -⟩ := find_directed _ found
    have cell := holds.threaded.cell
    dsimp only at cell
    simp only [map_some, cell, bind_some]

theorem removeMatching_holds (holds : list.Holds (front ++ (item, value) :: back)) {forward : Bool}
    {wanted : Value β → Bool}
    (found : ((directed (front ++ (item, value) :: back) forward).find? fun entry => wanted entry.2) =
      some (item, value)) :
    ∃ removed, linkedListRemoveMatching list forward wanted = some (removed, value) ∧
      removed.Holds (front ++ back) := by
  obtain ⟨removed, ran, after⟩ := removeItem_holds holds
  have cell := holds.threaded.cell
  dsimp only at cell
  refine ⟨removed, ?_, after⟩
  rw [linkedListRemoveMatching, scan_directed holds, found]
  simp only [map_some, bind_some, cell, ran]

theorem removeValue_holds [DecidableEq β] (holds : list.Holds (front ++ (item, value) :: back))
    {forward : Bool} (found : ((directed (front ++ (item, value) :: back) forward).find?
      fun entry => decide (entry.2 = value)) = some (item, value)) :
    ∃ removed, linkedListRemoveValue list forward value = some (removed, value) ∧
      removed.Holds (front ++ back) := by
  obtain ⟨removed, ran, after⟩ := removeItem_holds holds
  refine ⟨removed, ?_, after⟩
  rw [linkedListRemoveValue, scan_directed holds, found]
  simp only [map_some, bind_some, ran]

/-- The loop keeps the entries in front of it, takes out every wanted one from there on and says
whether there was one. -/
theorem removeAllLoop_holds (front : List (Address × Value β)) (wanted : Value β → Bool)
    {rest : List (Address × Value β)} (moves : Nat) (enough : rest.length ≤ moves) (found : Bool)
    (holds : list.Holds (front ++ rest)) :
    ∃ removed, removeAllLoop wanted moves list (firstKey rest) found =
        some (removed, found || rest.any fun entry => wanted entry.2) ∧
      removed.Holds (front ++ rest.filter fun entry => !wanted entry.2) := by
  -- The induction follows what is left of the list, behind any entries that are kept.
  induction rest generalizing list front moves found with
  | nil =>
    refine ⟨list, ?_, by simpa using holds⟩
    cases moves <;> simp [removeAllLoop]
  | cons entry rest ih =>
    obtain ⟨item, value⟩ := entry
    cases moves with
    | zero => exact absurd enough (Nat.not_succ_le_zero _)
    | succ moves =>
      have cell := holds.threaded.cell
      dsimp only at cell
      rw [firstKey_cons, removeAllLoop, cell, bind_some]
      dsimp only
      cases hit : wanted value with
      | true =>
        obtain ⟨removed, ran, after⟩ := removeItem_holds holds
        obtain ⟨final, ranRest, holdsFinal⟩ := ih _ moves (Nat.le_of_succ_le_succ enough) true after
        refine ⟨final, ?_, ?_⟩
        · rw [if_pos rfl, ran, bind_some, ranRest]
          simp [hit]
        · rw [filter_cons_of_neg (by simp [hit])]
          exact holdsFinal
      | false =>
        have moved : list.Holds ((front ++ [(item, value)]) ++ rest) := by simpa using holds
        obtain ⟨final, ranRest, holdsFinal⟩ := ih _ moves (Nat.le_of_succ_le_succ enough) found moved
        refine ⟨final, ?_, ?_⟩
        · rw [if_neg Bool.false_ne_true, ranRest]
          simp [hit]
        · rw [filter_cons_of_pos (by simp [hit])]
          simpa using holdsFinal

/-- Replacing the value at a place keeps the links. -/
theorem setAt_holds (holds : list.Holds (front ++ (item, value) :: back)) (newValue : Value β) :
    ∃ after, linkedListSetAt list front.length newValue = some (after, true) ∧
      after.Holds (front ++ (item, newValue) :: back) := by
  have inside : ¬ (list.length = 0 ∨ list.length ≤ front.length) := by
    rw [holds.length, length_append, length_cons]
    omega
  have cell := holds.threaded.cell
  dsimp only at cell
  obtain ⟨nodup, live, segment⟩ := holds.threaded
  have apart := nodup
  rw [DoublyLinked.keys_append, DoublyLinked.keys_cons, nodup_middle, nodup_cons, mem_append, not_or] at apart
  rw [segment_append] at segment
  have ran : linkedListSetAt list front.length newValue =
      some ({ list with items := list.items.store item ⟨newValue, lastKey front, firstKey back⟩ },
        true) := by
    rw [linkedListSetAt, if_neg inside, moveOn_holds holds, firstKey_cons, bind_some]
    simp only [cell, map_some]
  refine ⟨_, ran, ⟨?_, ?_, ?_⟩, ?_, ?_, ?_⟩
  · simpa using nodup
  · intro other away
    dsimp only
    have differ : other ≠ item := by
      rintro rfl
      exact away (by simp)
    rw [store_other _ _ differ]
    exact live other (by simpa using away)
  · -- Only the value of the one cell is written.
    rw [segment_append]
    refine ⟨?_, ?_, ?_⟩
    · refine Segment.frame (by simpa using segment.1) fun other listed => store_other _ _ ?_
      rintro rfl
      exact apart.1.1 listed
    · simp
    · refine Segment.frame segment.2.2 fun other listed => store_other _ _ ?_
      rintro rfl
      exact apart.1.2 listed
  · dsimp only
    rw [holds.first]
    cases front <;> rfl
  · dsimp only
    rw [holds.last, lastKey_append_append, lastKey_append_append]
    rcases eq_nil_or_concat back with rfl | ⟨start, last, rfl⟩
    · rfl
    · rw [concat_eq_append, ← cons_append, ← cons_append, lastKey_append,
        lastKey_append]
  · dsimp only
    rw [holds.length]
    simp

open List

variable {β : Type u} {program : Program β} {sequence next : Sequence β}

variable (refines : program.Refines sequence)
include refines

theorem refines_without {wanted : Value β → Bool}
    {queue : Queue β} (holds : queue.Holds (sequence.entries.filter fun entry => !wanted entry.2)) :
    Program.Refines { program with queue } (without sequence wanted) where
  queue := holds
  handles := by
    intro handle
    simp [without, refines.handles]
  standing := by
    intro handle cursor item at_ on
    simp only [without, Option.map_eq_some_iff] at at_
    obtain ⟨before, found, left⟩ := at_
    split at left
    · -- A cursor on an entry that left stands on nothing.
      rw [← left] at on
      cases on
    · rename_i stays
      subst left
      obtain ⟨same, inside⟩ := refines.standing handle before item found on
      refine ⟨same, ?_⟩
      obtain ⟨entry, member, rfl⟩ := mem_map.1 inside
      have unwanted : wanted entry.2 = false := by
        rw [Bool.eq_false_iff]
        exact fun hit => stays ⟨entry, member, on, hit⟩
      exact mem_map_of_mem (mem_filter.2 ⟨member, by rw [unwanted]; rfl⟩)

theorem removeMatching_refines (forward : Bool) (wanted : Value β → Bool) :
    ∃ queue, linkedListRemoveMatching program.queue forward wanted =
        some (queue, (takeOut sequence forward wanted).2) ∧
      Program.Refines { program with queue } (takeOut sequence forward wanted).1 := by
  have holds := refines.queue
  rw [takeOut]
  cases found : (directed sequence.entries forward).find? fun entry => wanted entry.2 with
  | none =>
    refine ⟨program.queue, ?_, refines⟩
    rw [linkedListRemoveMatching, scan_directed holds, found]
    rfl
  | some entry =>
    obtain ⟨item, value⟩ := entry
    obtain ⟨-, front, back, split, erased⟩ := find_directed _ found
    rw [split] at holds
    obtain ⟨removed, ran, after⟩ := removeMatching_holds holds (split ▸ found)
    refine ⟨removed, ran, ?_⟩
    dsimp only
    rw [erased]
    exact refines.leave split after

omit refines

theorem removeValue_refines [DecidableEq β] (refines : program.Refines sequence) (forward : Bool)
    (value : Value β) :
    ∃ queue, linkedListRemoveValue program.queue forward value =
        some (queue, (takeOut sequence forward fun stored => stored = value).2) ∧
      Program.Refines { program with queue }
        (takeOut sequence forward fun stored => stored = value).1 := by
  have holds := refines.queue
  rw [takeOut]
  cases found : (directed sequence.entries forward).find? fun entry => decide (entry.2 = value) with
  | none =>
    refine ⟨program.queue, ?_, refines⟩
    have scanned := scan_directed holds forward fun stored => decide (stored = value)
    rw [found] at scanned
    rw [linkedListRemoveValue, scanned]
    rfl
  | some entry =>
    obtain ⟨item, stored⟩ := entry
    obtain ⟨hit, front, back, split, erased⟩ := find_directed (fun stored => decide (stored = value)) found
    obtain rfl : stored = value := by simpa using hit
    rw [split] at holds
    obtain ⟨removed, ran, after⟩ := removeValue_holds holds (split ▸ found)
    refine ⟨removed, ran, ?_⟩
    dsimp only
    rw [erased]
    exact refines.leave split after

variable [DecidableEq β] {returned : Returned β}

/-- What a call comes to: it returns, as the sequence's operation does, and still refines it. -/
def Matches (program : Program β) (operation : Operation β) (next : Sequence β)
    (returned : Returned β) : Prop :=
  ∃ after, step program operation = some (after, returned) ∧ after.Refines next

variable {value : Value β}

include refines

theorem add_matches {newItem : Option Address}
    (moves : sequenceStep sequence (.add value newItem) = some (next, returned)) :
    Matches program (.add value newItem) next returned := by
  cases newItem with
  | none =>
    cases moves
    exact ⟨program, rfl, refines⟩
  | some item =>
    by_cases used : item ∈ keys sequence.entries
    · simp [used] at moves
    · simp only [sequenceStep, used, if_false, Option.some.injEq, mk.injEq] at moves
      obtain ⟨rfl, rfl⟩ := moves
      obtain ⟨added, ran, holds⟩ := add_holds refines.queue value used
      exact ⟨_, by simp [ran], refines.grow holds (by simp)⟩

omit refines

omit [DecidableEq β] in
theorem insertIdx_front (front back : List (Address × Value β)) (entry : Address × Value β) :
    (front ++ back).insertIdx front.length entry = front ++ entry :: back := by
  induction front with
  | nil => rfl
  | cons first rest ih => rw [cons_append, length_cons, insertIdx_succ_cons, ih, cons_append]

include refines

theorem insert_matches {index : Nat} {newItem : Option Address}
    (moves : sequenceStep sequence (.insert index value newItem) = some (next, returned)) :
    Matches program (.insert index value newItem) next returned := by
  have holds := refines.queue
  by_cases outside : sequence.entries.length < index
  · -- A place further on is ignored.
    have same : sequence = next ∧ Returned.nothing = returned := by
      cases newItem with
      | none => simpa using moves
      | some item =>
        by_cases used : item ∈ keys sequence.entries
        · simp [used] at moves
        · simpa [used, outside] using moves
    obtain ⟨rfl, rfl⟩ := same
    refine ⟨program, ?_, refines⟩
    rw [step, linkedListInsert, if_pos (holds.length ▸ outside)]
    rfl
  have within : index ≤ sequence.entries.length := Nat.le_of_not_lt outside
  obtain ⟨front, back, split, rfl⟩ : ∃ front back, sequence.entries = front ++ back ∧ index = front.length :=
    ⟨_, _, (take_append_drop index _).symm, (length_take_of_le within).symm⟩
  cases newItem with
  | none =>
    cases moves
    rw [split] at holds
    have place := insertPlace_segment holds.threaded.segment
    rw [← holds.first] at place
    refine ⟨program, ?_, refines⟩
    rw [step, linkedListInsert, if_neg (by rw [holds.length]; simp), place]
    rfl
  | some item =>
    by_cases used : item ∈ keys sequence.entries
    · simp [used] at moves
    · simp only [sequenceStep, used, outside, if_false, Option.some.injEq, mk.injEq] at moves
      obtain ⟨rfl, rfl⟩ := moves
      have inserted_ : sequence.entries.insertIdx front.length (item, value) =
          front ++ (item, value) :: back := by
        rw [split, insertIdx_front]
      rw [split] at holds used
      obtain ⟨inserted, ran, after⟩ := insert_holds holds value used
      rw [inserted_]
      refine ⟨_, by simp [ran], refines.grow after ?_⟩
      rw [split, DoublyLinked.keys_append, DoublyLinked.keys_append, DoublyLinked.keys_cons]
      exact append_subset.2 ⟨subset_append_left _ _, subset_append_of_subset_right _ (subset_cons_self _ _)⟩

theorem removeAt_matches {index : Nat}
    (moves : sequenceStep sequence (.removeAt index) = some (next, returned)) :
    Matches program (.removeAt index) next returned := by
  have holds := refines.queue
  rw [sequenceStep] at moves
  cases there : sequence.entries[index]? with
  | none =>
    rw [there] at moves
    cases moves
    refine ⟨program, ?_, refines⟩
    rw [step, removeAt_outside holds (List.getElem?_eq_none_iff.1 there)]
    rfl
  | some entry =>
    obtain ⟨item, value⟩ := entry
    obtain ⟨front, back, split, rfl, erased⟩ := split_at there
    rw [there, erased] at moves
    cases moves
    rw [split] at holds
    obtain ⟨removed, ran, after⟩ := removeAt_holds holds
    exact ⟨_, by simp [ran], refines.leave split after⟩

theorem setAt_matches {index : Nat}
    (moves : sequenceStep sequence (.setAt index value) = some (next, returned)) :
    Matches program (.setAt index value) next returned := by
  have holds := refines.queue
  rw [sequenceStep] at moves
  cases there : sequence.entries[index]? with
  | none =>
    rw [there] at moves
    cases moves
    refine ⟨program, ?_, refines⟩
    have outside : program.queue.length = 0 ∨ program.queue.length ≤ index :=
      .inr (holds.length ▸ List.getElem?_eq_none_iff.1 there)
    rw [step, linkedListSetAt, if_pos outside]
    rfl
  | some entry =>
    obtain ⟨item, stored⟩ := entry
    obtain ⟨front, back, split, rfl, -⟩ := split_at there
    have replaced : sequence.entries.set front.length (item, value) = front ++ (item, value) :: back := by
      rw [split]
      simp
    simp only [there, replaced] at moves
    cases moves
    rw [split] at holds
    obtain ⟨after, ran, holdsAfter⟩ := setAt_holds holds value
    refine ⟨_, by simp [ran], refines.grow holdsAfter ?_⟩
    rw [split]
    simp

theorem removeAll_matches (moves : sequenceStep sequence (.removeAll value) = some (next, returned)) :
    Matches program (.removeAll value) next returned := by
  have holds := refines.queue
  cases moves
  obtain ⟨removed, ran, after⟩ := removeAllLoop_holds []
    (fun stored => decide (stored = value)) program.queue.length
    (Nat.le_of_eq holds.length.symm) false holds
  rw [← holds.first, Bool.false_or] at ran
  refine ⟨_, ?_, refines_without refines after⟩
  have there : (sequence.entries.any fun entry => decide (entry.2 = value)) = true ↔
      ∃ entry ∈ sequence.entries, entry.2 = value := by
    rw [List.any_eq_true]
    simp only [decide_eq_true_eq]
  rw [step, linkedListRemoveAll, ran, Option.map_some, Option.map_some]
  exact congrArg (fun removedValue => some (_, Returned.value removedValue)) (if_congr there rfl rfl)

theorem removeAllMatching_matches {wanted : Value β → Bool}
    (moves : sequenceStep sequence (.removeAllMatching wanted) = some (next, returned)) :
    Matches program (.removeAllMatching wanted) next returned := by
  have holds := refines.queue
  cases moves
  obtain ⟨removed, ran, after⟩ := removeAllLoop_holds [] wanted program.queue.length
    (Nat.le_of_eq holds.length.symm) false holds
  rw [← holds.first] at ran
  refine ⟨_, ?_, refines_without refines after⟩
  simp [linkedListRemoveAllMatching, ran]

theorem iterator_matches {forward : Bool} {newIterator : Option Address}
    (moves : sequenceStep sequence (.iterator forward newIterator) = some (next, returned)) :
    Matches program (.iterator forward newIterator) next returned := by
  have holds := refines.queue
  simp only [sequenceStep] at moves
  cases newIterator with
  | none =>
    have same : sequence = next ∧ Returned.iterator none = returned := by
      cases key : (order sequence.entries forward).head? <;> simpa [key] using moves
    obtain ⟨rfl, rfl⟩ := same
    refine ⟨program, ?_, refines⟩
    cases first : program.queue.firstItem <;> simp [linkedListIterator, first]
  | some handle =>
    cases key : (order sequence.entries forward).head? with
    | none =>
      -- Without an end to stand on there are no entries, and no iterator is made.
      rw [key] at moves
      cases moves
      have empty : sequence.entries = [] := by
        rw [head_order] at key
        cases forward <;> simpa using key
      refine ⟨program, ?_, refines⟩
      simp [linkedListIterator, holds.first, empty]
    | some item =>
      simp only [key] at moves
      split at moves
      · simp at moves
      · cases moves
        have inside : item ∈ keys sequence.entries := mem_order.mp (mem_of_head? key)
        rw [head_order, ← holds.first, ← holds.last] at key
        refine ⟨_, ?_, refines.setIterator handle ?_⟩
        · cases first : program.queue.firstItem with
          | none =>
            rw [holds.first, firstKey_eq_none] at first
            simp [first] at inside
          | some start => simp [linkedListIterator, first, ← key]
        · rintro _ _ ⟨⟩ ⟨⟩
          exact inside

variable {handle : Address}

theorem iteratorNext_matches (moves : sequenceStep sequence (.iteratorNext handle) = some (next, returned)) :
    Matches program (.iteratorNext handle) next returned := by
  have holds := refines.queue
  simp only [sequenceStep, Option.bind_eq_some_iff, Option.map_eq_some_iff, mk.injEq] at moves
  obtain ⟨cursor, at_, item, on, rfl, rfl⟩ := moves
  obtain ⟨there, front, value, back, split⟩ := refines.standing_split at_ on
  obtain ⟨_, forward⟩ := cursor
  cases on
  have moved := @moved_eq _ sequence front back item value split holds.threaded.nodup ⟨some item, forward⟩
  rw [split] at holds
  have along := holds.along forward
  have cell := holds.threaded.cell
  dsimp only at along cell
  rw [cell, Option.map_some, Option.some.injEq] at along
  refine ⟨_, ?_, moved ▸ refines.setMoved handle (by simp [split])⟩
  simp [there, linkedListIteratorNext, cell, along, moved]

theorem iteratorValue_matches
    (moves : sequenceStep sequence (.iteratorValue handle) = some (next, returned)) :
    Matches program (.iteratorValue handle) next returned := by
  have holds := refines.queue
  simp only [sequenceStep, Option.bind_eq_some_iff, Option.map_eq_some_iff, mk.injEq] at moves
  obtain ⟨cursor, at_, item, on, rfl, rfl⟩ := moves
  obtain ⟨there, front, value, back, split⟩ := refines.standing_split at_ on
  rw [split] at holds
  have cell := holds.threaded.cell
  have found := find?_middle holds.threaded.nodup
  dsimp only at cell
  refine ⟨program, ?_, refines⟩
  simp [there, linkedListIteratorValue, cell, split, found]

theorem iteratorRemove_matches
    (moves : sequenceStep sequence (.iteratorRemove handle) = some (next, returned)) :
    Matches program (.iteratorRemove handle) next returned := by
  have holds := refines.queue
  simp only [sequenceStep, Option.bind_eq_some_iff, Option.map_eq_some_iff, mk.injEq] at moves
  obtain ⟨cursor, at_, item, on, rfl, rfl⟩ := moves
  obtain ⟨there, front, value, back, split⟩ := refines.standing_split at_ on
  obtain ⟨_, forward⟩ := cursor
  cases on
  have nodup := holds.threaded.nodup
  have moved := @moved_eq _ sequence front back item value split nodup ⟨some item, forward⟩
  rw [split] at holds nodup
  have along := holds.along forward
  have cell := holds.threaded.cell
  dsimp only at along cell
  rw [cell, Option.map_some, Option.some.injEq] at along
  obtain ⟨removed, ran, after⟩ := removeItem_holds holds
  rw [moved, split, eraseP_middle nodup]
  refine ⟨_, ?_, (refines.leave split after).setMoved handle (List.Subset.refl _)⟩
  simp [there, linkedListIteratorRemove, cell, ran, along]

theorem iteratorFree_matches (moves : sequenceStep sequence (.iteratorFree handle) = some (next, returned)) :
    Matches program (.iteratorFree handle) next returned := by
  simp only [sequenceStep, Option.map_eq_some_iff, mk.injEq] at moves
  obtain ⟨cursor, at_, rfl, rfl⟩ := moves
  have allocated := refines.handles handle
  rw [at_, Option.isSome_some, Option.isSome_iff_exists] at allocated
  obtain ⟨iterator, there⟩ := allocated
  refine ⟨_, ?_, refines.setIterator handle (by simp)⟩
  simp [there]

theorem step_matches {operation : Operation β}
    (moves : sequenceStep sequence operation = some (next, returned)) :
    Matches program operation next returned := by
  have holds := refines.queue
  cases operation with
  | add value newItem => exact add_matches refines moves
  | insert index value newItem => exact insert_matches refines moves
  | get index =>
    cases moves
    exact ⟨program, by simp [get_holds holds], refines⟩
  | getFirstMatching wanted =>
    cases moves
    exact ⟨program, by rw [step, linkedListGetFirstMatching, getMatching_holds holds]; rfl, refines⟩
  | getLastMatching wanted =>
    cases moves
    exact ⟨program, by rw [step, linkedListGetLastMatching, getMatching_holds holds]; rfl, refines⟩
  | removeAt index => exact removeAt_matches refines moves
  | removeFirst value =>
    cases moves
    obtain ⟨queue, ran, after⟩ := removeValue_refines refines true value
    exact ⟨_, by rw [step, linkedListRemoveFirst, ran]; rfl, after⟩
  | removeLast value =>
    cases moves
    obtain ⟨queue, ran, after⟩ := removeValue_refines refines false value
    exact ⟨_, by rw [step, linkedListRemoveLast, ran]; rfl, after⟩
  | removeAll value => exact removeAll_matches refines moves
  | removeFirstMatching wanted =>
    cases moves
    obtain ⟨queue, ran, after⟩ := removeMatching_refines refines true wanted
    exact ⟨_, by rw [step, linkedListRemoveFirstMatching, ran]; rfl, after⟩
  | removeLastMatching wanted =>
    cases moves
    obtain ⟨queue, ran, after⟩ := removeMatching_refines refines false wanted
    exact ⟨_, by rw [step, linkedListRemoveLastMatching, ran]; rfl, after⟩
  | removeAllMatching wanted => exact removeAllMatching_matches refines moves
  | setAt index value => exact setAt_matches refines moves
  | size =>
    cases moves
    exact ⟨program, by rw [step, linkedListSize, holds.length], refines⟩
  | iterator forward newIterator => exact iterator_matches refines moves
  | iteratorNext handle => exact iteratorNext_matches refines moves
  | iteratorValue handle => exact iteratorValue_matches refines moves
  | iteratorRemove handle => exact iteratorRemove_matches refines moves
  | iteratorFree handle => exact iteratorFree_matches refines moves

omit refines

theorem run_refines {operations : List (Operation β)} :
    ∀ {program : Program β} {sequence final : Sequence β} {answers : List (Returned β)},
      program.Refines sequence → sequenceRun sequence operations = some (final, answers) →
      ∃ after, run program operations = some (after, answers) ∧ after.Refines final := by
  induction operations with
  | nil =>
    rintro program sequence final answers refines ⟨⟩
    exact ⟨program, rfl, refines⟩
  | cons operation rest ih =>
    intro program sequence final answers refines ran
    simp only [sequenceRun, Option.bind_eq_some_iff, Option.map_eq_some_iff, mk.injEq] at ran
    obtain ⟨⟨next, returned⟩, moves, ⟨_, later⟩, ranRest, rfl, rfl⟩ := ran
    obtain ⟨middle, stepped, refinesNext⟩ := step_matches refines moves
    obtain ⟨after, ranAfter, refinesFinal⟩ := ih refinesNext ranRest
    refine ⟨after, ?_, refinesFinal⟩
    rw [run, stepped, Option.bind_some]
    dsimp only
    rw [ranAfter, Option.map_some]

/-- Whatever a client calls, every call returns what the same operation on a sequence does; the
length is the number of values, both chains of links visit exactly the live items in opposite
orders, and an iterator is on a live item wherever its cursor stands on a value. -/
theorem linkedList_mirrors {operations : List (Operation β)} {final : Sequence β}
    {answers : List (Returned β)} (ran : sequenceRun Sequence.new operations = some (final, answers)) :
    ∃ program, run Program.new operations = some (program, answers) ∧ program.Mirrors final ∧
      ∀ handle cursor item, final.cursors handle = some cursor → cursor.item = some item →
        program.iterators handle = some cursor ∧ program.queue.items item ≠ none := by
  obtain ⟨program, ranProgram, refines⟩ := run_refines new_refines ran
  refine ⟨program, ranProgram, refines.mirrors, fun handle cursor item at_ on => ?_⟩
  obtain ⟨same, inside⟩ := refines.standing handle cursor item at_ on
  exact ⟨same, (refines.queue.threaded.live_iff item).2 inside⟩

/-- Values are added and inserted, one is removed through an iterator, and the others by value. -/
theorem linkedList_mirrors_removed : ∃ program : Program Nat,
    run Program.new [.add (some 1) (some 10), .add (some 2) (some 20), .insert 1 (some 3) (some 30),
      .iterator true (some 90), .iteratorNext 90, .iteratorRemove 90, .iteratorValue 90,
      .removeLast (some 2), .removeAll (some 1)] =
      some (program, [.nothing, .nothing, .nothing, .iterator (some 90), .iterator (some 90),
        .iterator (some 90), .value (some 2), .value (some 2), .value (some 1)]) ∧
    program.queue.length = 0 := by
  obtain ⟨program, ran, mirrors, -⟩ := @linkedList_mirrors Nat _
    [.add (some 1) (some 10), .add (some 2) (some 20), .insert 1 (some 3) (some 30),
      .iterator true (some 90), .iteratorNext 90, .iteratorRemove 90, .iteratorValue 90,
      .removeLast (some 2), .removeAll (some 1)] _ _ rfl
  exact ⟨program, ran, mirrors.length⟩

end Libretro.LinkedList
