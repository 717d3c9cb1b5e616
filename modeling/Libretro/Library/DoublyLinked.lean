import Mathlib.Data.List.Induction
import Mathlib.Data.List.Nodup
import Mathlib.Logic.Function.Basic

/-! Doubly linked cells in a memory, and the segments their links form. -/

namespace DoublyLinked

open List

universe u v

variable {κ : Type u} {β : Type v}

/-- One cell: its payload and its two links, where `none` ends a chain. -/
structure Cell (κ : Type u) (β : Type v) where
  value : β
  previous : Option κ
  next : Option κ

/-- The link that a traversal follows. -/
def Cell.along (cell : Cell κ β) (forward : Bool) : Option κ := if forward then cell.next else cell.previous

/-- The cells that are allocated; a key without a cell was never handed out, or was freed. -/
abbrev Memory (κ : Type u) (β : Type v) := κ → Option (Cell κ β)

/-- The key at the front of a list of entries. -/
def firstKey (entries : List (κ × β)) : Option κ := entries.head?.map Prod.fst

/-- The key at the back of a list of entries. -/
def lastKey (entries : List (κ × β)) : Option κ := entries.getLast?.map Prod.fst

/-- The keys of a list of entries. -/
def keys (entries : List (κ × β)) : List κ := entries.map Prod.fst

@[simp] theorem keys_nil : keys ([] : List (κ × β)) = [] := rfl

@[simp] theorem keys_cons (entry : κ × β) (rest : List (κ × β)) :
    keys (entry :: rest) = entry.1 :: keys rest := rfl

@[simp] theorem keys_append (front back : List (κ × β)) :
    keys (front ++ back) = keys front ++ keys back := map_append

@[simp] theorem firstKey_nil : firstKey ([] : List (κ × β)) = none := rfl

@[simp] theorem firstKey_cons (entry : κ × β) (rest : List (κ × β)) :
    firstKey (entry :: rest) = some entry.1 := rfl

@[simp] theorem lastKey_nil : lastKey ([] : List (κ × β)) = none := rfl

@[simp] theorem lastKey_append (front : List (κ × β)) (entry : κ × β) :
    lastKey (front ++ [entry]) = some entry.1 := by simp [lastKey]

@[simp] theorem lastKey_singleton (entry : κ × β) : lastKey [entry] = some entry.1 := rfl

@[simp] theorem firstKey_append (front back : List (κ × β)) :
    firstKey (front ++ back) = (firstKey front).or (firstKey back) := by
  cases front <;> simp [firstKey]

@[simp] theorem lastKey_append_append (front back : List (κ × β)) :
    lastKey (front ++ back) = (lastKey back).or (lastKey front) := by
  rcases eq_nil_or_concat back with rfl | ⟨start, entry, rfl⟩
  · simp
  · simp [lastKey, ← List.append_assoc]

@[simp] theorem firstKey_eq_none {entries : List (κ × β)} : firstKey entries = none ↔ entries = [] := by
  simp [firstKey]

@[simp] theorem lastKey_eq_none {entries : List (κ × β)} : lastKey entries = none ↔ entries = [] := by
  simp [lastKey]

/-- The entries are linked to one another, to `previous` before them and to `next` after. -/
def Segment (memory : Memory κ β) : Option κ → List (κ × β) → Option κ → Prop
  | _, [], _ => True
  | previous, (key, value) :: rest, next =>
    memory key = some ⟨value, previous, (firstKey rest).or next⟩ ∧ Segment memory (some key) rest next

variable (memory : Memory κ β)
include memory

@[simp] theorem segment_nil (previous next : Option κ) : Segment memory previous [] next := trivial

@[simp] theorem segment_cons (previous next : Option κ) (key : κ) (value : β)
    (rest : List (κ × β)) : Segment memory previous ((key, value) :: rest) next ↔
      memory key = some ⟨value, previous, (firstKey rest).or next⟩ ∧
        Segment memory (some key) rest next := Iff.rfl

theorem segment_append (front back : List (κ × β)) :
    ∀ previous next, Segment memory previous (front ++ back) next ↔
      Segment memory previous front ((firstKey back).or next) ∧
        Segment memory ((lastKey front).or previous) back next := by
  -- Along the front part; the last key is the one the back part looks back at.
  induction front with
  | nil => simp
  | cons entry rest ih =>
    obtain ⟨key, value⟩ := entry
    intro previous next
    have last : (lastKey ((key, value) :: rest)).or previous = (lastKey rest).or (some key) := by
      rw [← singleton_append, lastKey_append_append]
      simp
    rw [last]
    simp [ih, Option.or_assoc, and_assoc]

omit memory

theorem Segment.frame {memory other : Memory κ β} {entries : List (κ × β)} :
    ∀ {previous next}, Segment memory previous entries next →
      (∀ key ∈ keys entries, other key = memory key) → Segment other previous entries next := by
  induction entries with
  | nil => simp
  | cons entry rest ih =>
    intro previous next holds same
    obtain ⟨here, later⟩ := holds
    refine ⟨(same _ (by simp)).trans here, ih later ?_⟩
    intro key inside
    exact same key (by simp [inside])

variable [DecidableEq κ]

/-- Putting a cell at a key. -/
def Memory.store (memory : Memory κ β) (key : κ) (cell : Cell κ β) : Memory κ β :=
  Function.update memory key (some cell)

/-- Giving a cell back. -/
def Memory.free (memory : Memory κ β) (key : κ) : Memory κ β := Function.update memory key none

/-- Writing the next link through a pointer, which faults unless it points at a cell. -/
def Memory.setNext (memory : Memory κ β) (pointer target : Option κ) : Option (Memory κ β) :=
  pointer.bind fun key => (memory key).map fun cell => memory.store key { cell with next := target }

/-- Writing the previous link through a pointer. -/
def Memory.setPrevious (memory : Memory κ β) (pointer target : Option κ) : Option (Memory κ β) :=
  pointer.bind fun key =>
    (memory key).map fun cell => memory.store key { cell with previous := target }

include memory

@[simp] theorem store_same (key : κ) (cell : Cell κ β) :
    memory.store key cell key = some cell := by simp [Memory.store]

theorem store_other {key other : κ} (cell : Cell κ β)
    (differ : other ≠ key) : memory.store key cell other = memory other := by
  simp [Memory.store, differ]

@[simp] theorem free_same (key : κ) : memory.free key key = none := by simp [Memory.free]

theorem free_other {key other : κ} (differ : other ≠ key) : memory.free key other = memory other := by
  simp [Memory.free, differ]

omit memory

/-- Writing the next link of the cell before, where there is one. -/
def Memory.setNextIf (memory : Memory κ β) (pointer target : Option κ) : Option (Memory κ β) :=
  if pointer.isSome then memory.setNext pointer target else some memory

/-- Writing the previous link of the cell after, where there is one. -/
def Memory.setPreviousIf (memory : Memory κ β) (pointer target : Option κ) : Option (Memory κ β) :=
  if pointer.isSome then memory.setPrevious pointer target else some memory

include memory

@[simp] theorem setNextIf_none (target : Option κ) : memory.setNextIf none target = some memory := rfl

@[simp] theorem setNextIf_some (key : κ) (target : Option κ) :
    memory.setNextIf (some key) target = memory.setNext (some key) target := rfl

@[simp] theorem setPreviousIf_none (target : Option κ) : memory.setPreviousIf none target = some memory := rfl

@[simp] theorem setPreviousIf_some (key : κ) (target : Option κ) :
    memory.setPreviousIf (some key) target = memory.setPrevious (some key) target := rfl

omit memory

theorem Segment.setNextIf {memory : Memory κ β} {previous next : Option κ}
    {entries : List (κ × β)} (holds : Segment memory previous entries next)
    (nodup : (keys entries).Nodup) (target : Option κ) :
    ∃ after, memory.setNextIf (lastKey entries) target = some after ∧ Segment after previous entries target ∧
      ∀ key, key ∉ keys entries → after key = memory key := by
  rcases eq_nil_or_concat entries with rfl | ⟨front, ⟨key, value⟩, rfl⟩
  · exact ⟨memory, rfl, trivial, fun _ _ => rfl⟩
  · rw [concat_eq_append] at *
    rw [segment_append] at holds
    obtain ⟨before, here, -⟩ := holds
    have apart : key ∉ keys front := by
      intro inside
      simp only [keys_append, keys_cons, keys_nil, nodup_append, mem_singleton] at nodup
      exact nodup.2.2 key inside key rfl rfl
    -- The front part does not hold the key, so it only sees the memory it saw before.
    refine ⟨memory.store key ⟨value, (lastKey front).or previous, target⟩, ?_, ?_, ?_⟩
    · simp [Memory.setNext, here]
    · rw [segment_append]
      refine ⟨before.frame fun other inside => store_other _ _ ?_, by simp⟩
      rintro rfl
      exact apart inside
    · intro other away
      refine store_other _ _ ?_
      rintro rfl
      exact away (by simp)

theorem Segment.setPreviousIf {memory : Memory κ β} {previous next : Option κ}
    {entries : List (κ × β)} (holds : Segment memory previous entries next)
    (nodup : (keys entries).Nodup) (target : Option κ) :
    ∃ after, memory.setPreviousIf (firstKey entries) target = some after ∧ Segment after target entries next ∧
      ∀ key, key ∉ keys entries → after key = memory key := by
  cases entries with
  | nil => exact ⟨memory, rfl, trivial, fun _ _ => rfl⟩
  | cons entry rest =>
    obtain ⟨key, value⟩ := entry
    obtain ⟨here, later⟩ := holds
    have apart : key ∉ keys rest := (nodup_cons.mp nodup).1
    refine ⟨memory.store key ⟨value, target, (firstKey rest).or next⟩, ?_, ⟨by simp, ?_⟩, ?_⟩
    · simp [Memory.setPrevious, here]
    · refine later.frame fun other inside => store_other _ _ ?_
      rintro rfl
      exact apart inside
    · intro other away
      refine store_other _ _ ?_
      rintro rfl
      exact away (by simp)

/-- The allocated cells are exactly the entries, each once, linked in order and ending. -/
structure Threaded (memory : Memory κ β) (entries : List (κ × β)) : Prop where
  nodup : (keys entries).Nodup
  live : ∀ key, key ∉ keys entries → memory key = none
  segment : Segment memory none entries none

omit [DecidableEq κ] in
theorem threaded_nil : Threaded (fun _ => none : Memory κ β) [] := ⟨nodup_nil, fun _ _ => rfl, trivial⟩

omit [DecidableEq κ] in
theorem Threaded.cell {memory : Memory κ β} {front back : List (κ × β)} {entry : κ × β}
    (holds : Threaded memory (front ++ entry :: back)) :
    memory entry.1 = some ⟨entry.2, lastKey front, firstKey back⟩ := by
  have segment := holds.segment
  rw [segment_append] at segment
  simpa using segment.2.1

omit [DecidableEq κ] in
theorem Threaded.live_iff {memory : Memory κ β} {entries : List (κ × β)}
    (holds : Threaded memory entries) (key : κ) : memory key ≠ none ↔ key ∈ keys entries := by
  constructor
  · intro allocated
    by_contra outside
    exact allocated (holds.live key outside)
  · intro inside
    obtain ⟨entry, member, rfl⟩ := mem_map.mp inside
    obtain ⟨front, back, rfl⟩ := append_of_mem member
    simp [holds.cell]

theorem Threaded.push {memory : Memory κ β} {entries : List (κ × β)}
    (holds : Threaded memory entries) {key : κ} (fresh : key ∉ keys entries) (value : β) :
    ∃ after, (memory.store key ⟨value, lastKey entries, none⟩).setNextIf (lastKey entries)
      (some key) = some after ∧ Threaded after (entries ++ [(key, value)]) := by
  have stored : Segment (memory.store key ⟨value, lastKey entries, none⟩) none entries none :=
    holds.segment.frame fun other inside => store_other _ _ (by rintro rfl; exact fresh inside)
  obtain ⟨after, wrote, linked, same⟩ := stored.setNextIf holds.nodup (some key)
  refine ⟨after, wrote, ?_, ?_, ?_⟩
  · simpa using (nodup_concat _ _).mpr ⟨fresh, holds.nodup⟩
  · intro other away
    simp only [keys_append, keys_cons, keys_nil, mem_append, mem_singleton, not_or] at away
    rw [same other away.1, store_other _ _ away.2, holds.live other away.1]
  · rw [segment_append]
    refine ⟨by simpa using linked, ?_⟩
    simp [same key fresh]

theorem Threaded.shift {memory : Memory κ β} {entries : List (κ × β)}
    (holds : Threaded memory entries) {key : κ} (fresh : key ∉ keys entries) (value : β) :
    ∃ after, (memory.store key ⟨value, none, firstKey entries⟩).setPreviousIf (firstKey entries)
      (some key) = some after ∧ Threaded after ((key, value) :: entries) := by
  have stored : Segment (memory.store key ⟨value, none, firstKey entries⟩) none entries none :=
    holds.segment.frame fun other inside => store_other _ _ (by rintro rfl; exact fresh inside)
  obtain ⟨after, wrote, linked, same⟩ := stored.setPreviousIf holds.nodup (some key)
  refine ⟨after, wrote, nodup_cons.mpr ⟨fresh, holds.nodup⟩, ?_, ?_⟩
  · intro other away
    simp only [keys_cons, mem_cons, not_or] at away
    rw [same other away.2, store_other _ _ away.1, holds.live other away.2]
  · exact ⟨by simp [same key fresh], linked⟩

/-- Bypassing a cell in both directions and freeing it takes its entry out of the chain. -/
theorem Threaded.unlink {memory : Memory κ β} {front back : List (κ × β)} {entry : κ × β}
    (holds : Threaded memory (front ++ entry :: back)) :
    ∃ middle after, memory.setNextIf (lastKey front) (firstKey back) = some middle ∧
      middle entry.1 = memory entry.1 ∧
      after entry.1 = memory entry.1 ∧
      middle.setPreviousIf (firstKey back) (lastKey front) = some after ∧
      Threaded (after.free entry.1) (front ++ back) := by
  obtain ⟨key, value⟩ := entry
  obtain ⟨nodup, live, segment⟩ := holds
  rw [segment_append] at segment
  obtain ⟨before, -, later⟩ := segment
  -- The key and the two halves are pairwise apart.
  rw [keys_append, keys_cons, nodup_middle, nodup_cons, mem_append, not_or] at nodup
  obtain ⟨⟨notFront, notBack⟩, both⟩ := nodup
  obtain ⟨frontNodup, backNodup, disjoint⟩ := nodup_append'.mp both
  obtain ⟨middle, wroteNext, frontLinked, sameMiddle⟩ := before.setNextIf frontNodup (firstKey back)
  have backMiddle : Segment middle (some key) back none := by
    refine Segment.frame (by simpa using later) fun other inside => sameMiddle other ?_
    exact fun inFront => disjoint inFront inside
  obtain ⟨after, wrotePrevious, backLinked, sameAfter⟩ := backMiddle.setPreviousIf backNodup (lastKey front)
  refine ⟨middle, after, wroteNext, sameMiddle key notFront,
    (sameAfter key notBack).trans (sameMiddle key notFront), wrotePrevious, ?_, ?_, ?_⟩
  · rwa [keys_append]
  · intro other away
    rw [keys_append, mem_append, not_or] at away
    by_cases freed : other = key
    · simp [freed]
    · rw [free_other _ freed, sameAfter other away.2, sameMiddle other away.1]
      exact live other (by simp [away.1, away.2, freed])
  · rw [segment_append]
    constructor
    · refine Segment.frame ?_ fun other inside => (free_other _ ?_).trans
        (sameAfter other fun inBack => disjoint inside inBack)
      · simpa using frontLinked
      · rintro rfl
        exact notFront inside
    · refine Segment.frame (by simpa using backLinked) fun other inside => free_other _ ?_
      rintro rfl
      exact notBack inside

/-- A fresh cell between two parts, once its neighbours point at it, joins the chain there. -/
theorem Threaded.insert {memory : Memory κ β} {front back : List (κ × β)}
    (holds : Threaded memory (front ++ back)) {key : κ} (fresh : key ∉ keys (front ++ back))
    (value : β) :
    ∃ middle after, (memory.store key ⟨value, lastKey front, firstKey back⟩).setNextIf
        (lastKey front) (some key) = some middle ∧
      middle.setPreviousIf (firstKey back) (some key) = some after ∧
      Threaded after (front ++ (key, value) :: back) := by
  obtain ⟨nodup, live, segment⟩ := holds
  have stored : Segment (memory.store key ⟨value, lastKey front, firstKey back⟩) none (front ++ back) none :=
    segment.frame fun other inside => store_other _ _ (by rintro rfl; exact fresh inside)
  rw [segment_append] at stored
  obtain ⟨before, later⟩ := stored
  rw [keys_append] at nodup
  rw [keys_append, mem_append, not_or] at fresh
  obtain ⟨frontNodup, backNodup, disjoint⟩ := nodup_append'.mp nodup
  -- The new cell and the other half are out of each write's reach.
  obtain ⟨middle, wroteNext, frontLinked, sameMiddle⟩ := before.setNextIf frontNodup (some key)
  have backMiddle : Segment middle ((lastKey front).or none) back none :=
    later.frame fun other inside => sameMiddle other fun inFront => disjoint inFront inside
  obtain ⟨after, wrotePrevious, backLinked, sameAfter⟩ := backMiddle.setPreviousIf backNodup (some key)
  refine ⟨middle, after, wroteNext, wrotePrevious, ?_, ?_, ?_⟩
  · rw [keys_append, keys_cons, nodup_middle, nodup_cons, mem_append, not_or]
    exact ⟨fresh, nodup⟩
  · intro other away
    rw [keys_append, keys_cons, mem_append, mem_cons, not_or, not_or] at away
    rw [sameAfter other away.2.2, sameMiddle other away.1, store_other _ _ away.2.1]
    exact live other (by simp [away.1, away.2.2])
  · rw [segment_append]
    refine ⟨?_, ?_, backLinked⟩
    · refine Segment.frame (by simpa using frontLinked) fun other inside => sameAfter other ?_
      exact fun inBack => disjoint inside inBack
    · rw [sameAfter key fresh.2, sameMiddle key fresh.1, store_same]
      simp

/-- Freeing a cell and then leading its neighbours past it takes its entry out of the chain. -/
theorem Threaded.remove {memory : Memory κ β} {front back : List (κ × β)} {entry : κ × β}
    (holds : Threaded memory (front ++ entry :: back)) :
    ∃ middle after, (memory.free entry.1).setNextIf (lastKey front) (firstKey back) = some middle ∧
      middle.setPreviousIf (firstKey back) (lastKey front) = some after ∧
      Threaded after (front ++ back) := by
  obtain ⟨key, value⟩ := entry
  obtain ⟨nodup, live, segment⟩ := holds
  rw [segment_append] at segment
  obtain ⟨before, -, later⟩ := segment
  rw [keys_append, keys_cons, nodup_middle, nodup_cons, mem_append, not_or] at nodup
  obtain ⟨⟨notFront, notBack⟩, both⟩ := nodup
  obtain ⟨frontNodup, backNodup, disjoint⟩ := nodup_append'.mp both
  -- Neither half looks at the cell that is freed.
  have beforeFree : Segment (memory.free key) none front (some key) :=
    Segment.frame (by simpa using before) fun other inside =>
      free_other _ fun same => notFront (same ▸ inside)
  have laterFree : Segment (memory.free key) (some key) back none :=
    Segment.frame (by simpa using later) fun other inside =>
      free_other _ fun same => notBack (same ▸ inside)
  obtain ⟨middle, wroteNext, frontLinked, sameMiddle⟩ := beforeFree.setNextIf frontNodup (firstKey back)
  have backMiddle : Segment middle (some key) back none :=
    laterFree.frame fun other inside => sameMiddle other fun inFront => disjoint inFront inside
  obtain ⟨after, wrotePrevious, backLinked, sameAfter⟩ := backMiddle.setPreviousIf backNodup (lastKey front)
  refine ⟨middle, after, wroteNext, wrotePrevious, ?_, ?_, ?_⟩
  · rwa [keys_append]
  · intro other away
    rw [keys_append, mem_append, not_or] at away
    rw [sameAfter other away.2, sameMiddle other away.1]
    by_cases freed : other = key
    · rw [freed, free_same]
    · rw [free_other _ freed]
      exact live other (by simp [away.1, away.2, freed])
  · rw [segment_append]
    refine ⟨?_, by simpa using backLinked⟩
    refine Segment.frame (by simpa using frontLinked) fun other inside => sameAfter other ?_
    exact fun inBack => disjoint inside inBack

/-- Following one direction's links from a pointer meets exactly these keys and then the end. -/
inductive Visits (memory : Memory κ β) (forward : Bool) : Option κ → List κ → Prop
  | finish : Visits memory forward none []
  | visit {key : κ} {cell : Cell κ β} {rest : List κ} (live : memory key = some cell)
      (later : Visits memory forward (cell.along forward) rest) :
      Visits memory forward (some key) (key :: rest)

omit [DecidableEq κ] in
theorem Threaded.visits_forward {memory : Memory κ β} {entries : List (κ × β)}
    (holds : Threaded memory entries) :
    Visits memory true (firstKey entries) (keys entries) := by
  have walk : ∀ (rest : List (κ × β)) (previous : Option κ),
      Segment memory previous rest none → Visits memory true (firstKey rest) (keys rest) := by
    intro rest
    induction rest with
    | nil => exact fun _ _ => .finish
    | cons entry rest ih =>
      intro previous segment
      exact .visit segment.1 (by simpa [Cell.along, keys] using ih _ segment.2)
  exact walk entries none holds.segment

omit [DecidableEq κ] in
theorem Threaded.visits_backward {memory : Memory κ β} {entries : List (κ × β)}
    (holds : Threaded memory entries) :
    Visits memory false (lastKey entries) (keys entries).reverse := by
  have walk : ∀ (rest : List (κ × β)) (next : Option κ),
      Segment memory none rest next → Visits memory false (lastKey rest) (keys rest).reverse := by
    intro rest
    induction rest using List.reverseRecOn with
    | nil => exact fun _ _ => .finish
    | append_singleton front entry ih =>
      intro next segment
      rw [segment_append] at segment
      have back := ih _ segment.1
      simpa using Visits.visit segment.2.1 (by simpa [Cell.along] using back)
  exact walk entries none holds.segment

omit [DecidableEq κ] in
theorem Visits.last {memory : Memory κ β} {forward : Bool} {start : Option κ} {visited : List κ}
    {key : κ} (visits : Visits memory forward start (visited ++ [key])) :
    ∃ cell, memory key = some cell ∧ cell.along forward = none := by
  induction visited generalizing start with
  | nil =>
    cases visits with
    | visit live later =>
      refine ⟨_, live, ?_⟩
      generalize Cell.along _ forward = link at later
      cases later
      rfl
  | cons _ rest ih =>
    cases visits with
    | visit _ later => exact ih later

end DoublyLinked
