import Mathlib.Algebra.BigOperators.Intervals
import Mathlib.Order.Interval.Finset.Nat

/-! Binary heaps in an array from position one: what sifting keeps, and what a swap keeps. -/

namespace BinaryHeap

universe u v

variable {Key : Type u} [LinearOrder Key] {key : Nat → Key} {stop pos : Nat}

/-- No position before the end has a larger key than its parent. -/
def Heap (key : Nat → Key) (stop : Nat) : Prop :=
  ∀ child, 2 ≤ child → child < stop → key child ≤ key (child / 2)

theorem Heap.le_first (heap : Heap key stop) : ∀ pos, 1 ≤ pos → pos < stop → key pos ≤ key 1 := by
  intro pos
  -- Every position is below its parent, and the first one above all.
  induction pos using Nat.strongRecOn with
  | _ pos ih =>
    intro positive inside
    by_cases first : pos = 1
    · rw [first]
    · have above := ih (pos / 2) (by omega) (by omega) (by omega)
      exact le_trans (heap pos (by omega) inside) above

/-- Two positions change places. -/
def swap {Item : Type v} (items : Nat → Item) (first second : Nat) : Nat → Item :=
  fun pos => items (Equiv.swap first second pos)

theorem swap_left {Item : Type v} (items : Nat → Item) (first second : Nat) :
    swap items first second first = items second := by
  rw [swap, Equiv.swap_apply_left]

theorem swap_right {Item : Type v} (items : Nat → Item) (first second : Nat) :
    swap items first second second = items first := by
  rw [swap, Equiv.swap_apply_right]

theorem swap_other {Item : Type v} (items : Nat → Item) {first second pos : Nat}
    (notFirst : pos ≠ first) (notSecond : pos ≠ second) :
    swap items first second pos = items pos := by
  rw [swap, Equiv.swap_apply_of_ne_of_ne notFirst notSecond]

theorem sum_swap {Item : Type v} {Total : Type*} [AddCommMonoid Total] (weight : Item → Total)
    (items : Nat → Item) {first second : Nat} (firstIn : 1 ≤ first ∧ first < stop)
    (secondIn : 1 ≤ second ∧ second < stop) :
    ∑ pos ∈ Finset.Ico 1 stop, weight (swap items first second pos) =
      ∑ pos ∈ Finset.Ico 1 stop, weight (items pos) := by
  refine Finset.sum_equiv (Equiv.swap first second) (fun pos => ?_) fun _ _ => rfl
  -- A swap of two positions inside keeps the others where they are.
  rw [Finset.mem_Ico, Finset.mem_Ico]
  by_cases isFirst : pos = first
  · rw [isFirst, Equiv.swap_apply_left]
    omega
  · by_cases isSecond : pos = second
    · rw [isSecond, Equiv.swap_apply_right]
      omega
    · rw [Equiv.swap_apply_of_ne_of_ne isFirst isSecond]

/-- A heap but for one position that may have a larger key than its parent. -/
structure Rising (key : Nat → Key) (stop pos : Nat) : Prop where
  heap : ∀ child, 2 ≤ child → child < stop → child ≠ pos → key child ≤ key (child / 2)
  -- What is below the position is also below its parent.
  skip : ∀ child, 2 ≤ child → child < stop → child / 2 = pos → 2 ≤ pos → key child ≤ key (pos / 2)

theorem Rising.heap_of_le (rising : Rising key stop pos)
    (stops : pos ≤ 1 ∨ key pos ≤ key (pos / 2)) : Heap key stop := by
  intro child two inside
  by_cases here : child = pos
  · subst here
    exact stops.resolve_left (by omega)
  · exact rising.heap child two inside here

/-- A position that is larger than its parent changes places with it. -/
theorem Rising.swap (rising : Rising key stop pos) (two : 2 ≤ pos) (larger : key (pos / 2) ≤ key pos) :
    Rising (BinaryHeap.swap key (pos / 2) pos) stop (pos / 2) := by
  have up : pos / 2 ≠ pos := by omega
  constructor
  · intro child twoChild inside notParent
    by_cases here : child = pos
    · subst here
      rw [swap_right, swap_left]
      exact larger
    · rw [swap_other key notParent here]
      by_cases sibling : child / 2 = pos / 2
      · rw [sibling, swap_left]
        exact le_trans (sibling ▸ rising.heap child twoChild inside here) larger
      · by_cases below : child / 2 = pos
        · rw [below, swap_right]
          exact rising.skip child twoChild inside below two
        · rw [swap_other key sibling below]
          exact rising.heap child twoChild inside here
  · intro child twoChild inside below twoParent
    have grand : BinaryHeap.swap key (pos / 2) pos (pos / 2 / 2) = key (pos / 2 / 2) :=
      swap_other key (by omega) (by omega)
    rw [grand]
    by_cases here : child = pos
    · subst here
      rw [swap_right]
      exact rising.heap (child / 2) twoParent (by omega) up
    · rw [swap_other key (by omega) here]
      have first := rising.heap child twoChild inside here
      rw [below] at first
      exact le_trans first (rising.heap (pos / 2) twoParent (by omega) up)

/-- A heap but for one position that may have a smaller key than its children. -/
structure Sinking (key : Nat → Key) (stop pos : Nat) : Prop where
  heap : ∀ child, 2 ≤ child → child < stop → child / 2 ≠ pos → key child ≤ key (child / 2)
  skip : ∀ child, 2 ≤ child → child < stop → child / 2 = pos → 2 ≤ pos → key child ≤ key (pos / 2)

theorem Sinking.heap_of_le (sinking : Sinking key stop pos)
    (stops : ∀ child, 2 ≤ child → child < stop → child / 2 = pos → key child ≤ key pos) :
    Heap key stop := by
  intro child two inside
  by_cases below : child / 2 = pos
  · rw [below]
    exact stops child two inside below
  · exact sinking.heap child two inside below

/-- A position changes places with the largest of its children. -/
theorem Sinking.swap (sinking : Sinking key stop pos) {child : Nat} (positive : 1 ≤ pos)
    (inside : child < stop) (below : child / 2 = pos)
    (largest : ∀ other, 2 ≤ other → other < stop → other / 2 = pos → key other ≤ key child)
    (larger : key pos ≤ key child) :
    Sinking (BinaryHeap.swap key pos child) stop child := by
  have two : 2 ≤ child := by omega
  have apart : child ≠ pos := by omega
  constructor
  · intro other twoOther insideOther notBelow
    by_cases here : other = child
    · subst here
      rw [swap_right, below, swap_left]
      exact larger
    · by_cases up : other = pos
      · subst up
        rw [swap_left, swap_other key (by omega) (by omega)]
        exact sinking.skip child two inside below twoOther
      · rw [swap_other key up here]
        by_cases sibling : other / 2 = pos
        · rw [sibling, swap_left]
          exact largest other twoOther insideOther sibling
        · rw [swap_other key sibling notBelow]
          exact sinking.heap other twoOther insideOther sibling
  · intro other twoOther insideOther belowChild twoChild
    rw [below, swap_left, swap_other key (by omega) (by omega)]
    have above := sinking.heap other twoOther insideOther (by omega)
    rwa [belowChild] at above

end BinaryHeap
