import Libretro.Library.Transition
import Mathlib.Data.List.Basic

/-! A bounded first-in first-out stream: what was put in, and how much of it has been taken out. -/

namespace BoundedStream

open List

universe u

variable {Item : Type u}

/-- Everything ever published, everything ever delivered, and the room between the two. -/
structure Channel (Item : Type u) where
  published : List Item
  delivered : List Item
  capacity : Nat

/-- The items published and not yet delivered, oldest first. -/
def Channel.unread (channel : Channel Item) : List Item := channel.published.drop channel.delivered.length

/-- Publishing appends what fits, delivering takes the oldest, and growing only adds room. -/
inductive Step : Channel Item → Channel Item → Prop
  | publish (channel : Channel Item) (items : List Item)
      (fits : channel.published.length + items.length ≤ channel.delivered.length + channel.capacity) :
      Step channel { channel with published := channel.published ++ items }
  | deliver (channel : Channel Item) (count : Nat) (present : count ≤ channel.unread.length) :
      Step channel { channel with delivered := channel.delivered ++ channel.unread.take count }
  | grow (channel : Channel Item) (capacity : Nat) (larger : channel.capacity ≤ capacity) :
      Step channel { channel with capacity := capacity }

/-- A stream starts empty. -/
def system (Item : Type u) : Transition.System (Channel Item) where
  start channel := channel.published = [] ∧ channel.delivered = []
  step := Step

/-- What came out is a prefix of what went in, and no more than the capacity is in between. -/
structure Channel.Ordered (channel : Channel Item) : Prop where
  order : channel.delivered <+: channel.published
  bounded : channel.published.length ≤ channel.delivered.length + channel.capacity

theorem Channel.Ordered.append_unread {channel : Channel Item} (ordered : channel.Ordered) :
    channel.delivered ++ channel.unread = channel.published := by
  -- Dropping as many items as were delivered leaves the rest of the prefix's witness.
  obtain ⟨rest, whole⟩ := ordered.order
  unfold Channel.unread
  rw [← whole, drop_left]

/-- No step reorders, drops or repeats an item, and none overfills the stream. -/
theorem ordered_invariant : (system Item).Invariant Channel.Ordered where
  start channel starts := by
    obtain ⟨published, delivered⟩ := starts
    exact ⟨by rw [delivered]; exact nil_prefix, by rw [published]; exact Nat.zero_le _⟩
  step channel next ordered moves := by
    have whole := ordered.append_unread
    cases moves with
    | publish items fits => exact ⟨ordered.order.trans (prefix_append _ _), by simpa using fits⟩
    | deliver count present =>
      refine ⟨⟨channel.unread.drop count, ?_⟩, ?_⟩
      · -- The delivered part and the remaining part together are the whole unread part.
        rw [List.append_assoc, take_append_drop, whole]
      · have := ordered.bounded
        simp only [length_append]
        omega
    | grow capacity larger =>
      exact ⟨ordered.order, Nat.le_trans ordered.bounded (Nat.add_le_add_left larger _)⟩

end BoundedStream
