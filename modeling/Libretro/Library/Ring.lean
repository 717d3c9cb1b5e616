import Mathlib.Data.List.Basic

/-! A ring buffer: where its contents lie, and what writing behind them and reading them leaves. -/

namespace Ring

open List

variable {α : Type*}

/-- A buffer with elements written from a place on. -/
def put (buffer : List α) (place : Nat) (elements : List α) : List α :=
  buffer.take place ++ (elements ++ buffer.drop (place + elements.length))

/-- The elements of a buffer from a place on. -/
def slice (buffer : List α) (place count : Nat) : List α := (buffer.drop place).take count

/-- The contents lie between the first place and the end, around the end of the buffer if need be,
and at least one place is free. -/
inductive Holds : List α → Nat → Nat → List α → Prop
  | straight (front contents back : List α) (free : back ≠ []) :
    Holds (front ++ (contents ++ back)) front.length (front.length + contents.length) contents
  | wrapped (early middle late : List α) (free : middle ≠ []) (late_ne : late ≠ []) :
    Holds (early ++ (middle ++ late)) (early.length + middle.length) early.length (late ++ early)

variable {buffer front middle back contents elements : List α} {first last : Nat}

theorem put_append (front back : List α) (same : elements.length = middle.length) :
    put (front ++ (middle ++ back)) front.length elements = front ++ (elements ++ back) := by
  rw [put, take_left, same, ← drop_drop, drop_left, drop_left]

theorem length_put {place : Nat} (inside : place + elements.length ≤ buffer.length) :
    (put buffer place elements).length = buffer.length := by
  simp only [put, length_append, length_take, length_drop]
  omega

theorem slice_append (front middle back : List α) :
    slice (front ++ (middle ++ back)) front.length middle.length = middle := by
  rw [slice, drop_left, take_left]

theorem holds_nil (some : buffer ≠ []) : Holds buffer 0 0 [] := .straight [] [] buffer some

variable (holds : Holds buffer first last contents)
include holds

theorem Holds.first_lt : first < buffer.length := by
  cases holds with
  | straight front contents back free =>
    have := length_pos_iff.2 free
    simp only [length_append]
    omega
  | wrapped early middle late free some =>
    have := length_pos_iff.2 some
    simp only [length_append]
    omega

theorem Holds.last_lt : last < buffer.length := by
  cases holds with
  | straight front contents back free =>
    have := length_pos_iff.2 free
    simp only [length_append]
    omega
  | wrapped early middle late free some =>
    have := length_pos_iff.2 free
    simp only [length_append]
    omega

theorem Holds.length_eq :
    contents.length = if last < first then last + buffer.length - first else last - first := by
  cases holds with
  | straight front contents back free =>
    rw [if_neg (by omega)]
    omega
  | wrapped early middle late free some =>
    have := length_pos_iff.2 free
    rw [if_pos (by omega)]
    simp only [length_append]
    omega

theorem Holds.length_lt : contents.length < buffer.length := by
  have first_lt := holds.first_lt
  have last_lt := holds.last_lt
  rw [holds.length_eq]
  split <;> omega

/-- Elements that end before the buffer does are written behind the contents. -/
theorem Holds.put (room : contents.length + elements.length < buffer.length)
    (inside : last + elements.length < buffer.length) :
    Holds (put buffer last elements) first (last + elements.length) (contents ++ elements) := by
  cases holds with
  | straight front contents back free =>
    -- What is written takes the beginning of the back.
    obtain ⟨taken, rest, rfl, same⟩ : ∃ taken rest, back = taken ++ rest ∧
        elements.length = taken.length := by
      refine ⟨_, _, (take_append_drop elements.length back).symm, ?_⟩
      simp only [length_append] at inside
      rw [length_take]
      omega
    have left : rest ≠ [] := by
      rintro rfl
      simp only [length_append, length_nil] at inside
      omega
    have written : put (front ++ (contents ++ (taken ++ rest))) (front.length + contents.length)
        elements = front ++ ((contents ++ elements) ++ rest) := by
      have at_ := put_append (front ++ contents) rest same
      simpa [append_assoc] using at_
    have after := Holds.straight front (contents ++ elements) rest left
    rw [written, Nat.add_assoc, ← length_append]
    exact after
  | wrapped early middle late free some =>
    -- What is written takes the beginning of the free places, not all of them.
    obtain ⟨taken, rest, rfl, same⟩ : ∃ taken rest, middle = taken ++ rest ∧
        elements.length = taken.length := by
      refine ⟨_, _, (take_append_drop elements.length middle).symm, ?_⟩
      simp only [length_append] at room
      rw [length_take]
      omega
    have left : rest ≠ [] := by
      rintro rfl
      simp only [length_append, length_nil] at room
      omega
    have written : put (early ++ ((taken ++ rest) ++ late)) early.length elements =
        (early ++ elements) ++ (rest ++ late) := by
      rw [append_assoc taken, put_append _ _ same]
      simp
    have after := Holds.wrapped (early ++ elements) rest late left some
    have place : early.length + (taken ++ rest).length = (early ++ elements).length + rest.length := by
      simp only [length_append]
      omega
    rw [written, place, append_assoc late, ← @length_append _ early]
    exact after

omit holds

/-- Elements that reach the end of the buffer are written in two pieces, the second one at the
beginning. -/
theorem Holds.put_wrap (head tail : List α) (holds : Holds buffer first last contents)
    (room : contents.length + (head.length + tail.length) < buffer.length)
    (reaches : last + head.length = buffer.length) :
    Holds (Ring.put (Ring.put buffer last head) 0 tail) first tail.length (contents ++ (head ++ tail)) := by
  cases holds with
  | straight front contents back free =>
    -- The first piece takes the whole back, the second one the beginning of the front.
    have same : head.length = back.length := by
      simp only [length_append] at reaches
      omega
    obtain ⟨taken, rest, rfl, begun⟩ : ∃ taken rest, front = taken ++ rest ∧ tail.length = taken.length := by
      refine ⟨_, _, (take_append_drop tail.length front).symm, ?_⟩
      simp only [length_append] at room
      rw [length_take]
      omega
    have left : rest ≠ [] := by
      rintro rfl
      simp only [length_append, length_nil] at room
      omega
    have some : contents ++ head ≠ [] := by
      have := length_pos_iff.2 free
      rw [← length_pos_iff, length_append]
      omega
    have written : Ring.put ((taken ++ rest) ++ (contents ++ back))
        ((taken ++ rest).length + contents.length) head = (taken ++ rest) ++ (contents ++ head) := by
      have at_ := put_append (taken ++ rest ++ contents) [] same
      simpa [append_assoc, Nat.add_assoc] using at_
    have again : Ring.put ((taken ++ rest) ++ (contents ++ head)) 0 tail =
        tail ++ (rest ++ (contents ++ head)) := by
      have at_ := put_append [] (rest ++ (contents ++ head)) begun
      simpa [append_assoc] using at_
    have after := Holds.wrapped tail rest (contents ++ head) left some
    rw [written, again, length_append, ← begun, ← append_assoc contents]
    exact after
  | wrapped early middle late free some =>
    -- There is not that much room in front of the contents.
    have := length_pos_iff.2 some
    simp only [length_append] at room reaches
    omega

include holds

/-- What is read lies before the end of the buffer, and the rest stays. -/
theorem Holds.slice {count : Nat}
    (available : count ≤ contents.length) (inside : first + count < buffer.length) :
    Ring.slice buffer first count = contents.take count ∧
      Holds buffer (first + count) last (contents.drop count) := by
  cases holds with
  | straight front contents back free =>
    obtain ⟨taken, rest, rfl, rfl⟩ : ∃ taken rest, contents = taken ++ rest ∧ count = taken.length := by
      refine ⟨_, _, (take_append_drop count contents).symm, ?_⟩
      rw [length_take_of_le available]
    rw [take_left, drop_left, append_assoc taken, slice_append]
    refine ⟨rfl, ?_⟩
    have after := Holds.straight (front ++ taken) rest back free
    simpa [append_assoc, Nat.add_assoc] using after
  | wrapped early middle late free some =>
    -- The late part is not read to its end.
    simp only [length_append] at inside
    obtain ⟨taken, rest, rfl, rfl⟩ : ∃ taken rest, late = taken ++ rest ∧ count = taken.length := by
      refine ⟨_, _, (take_append_drop count late).symm, ?_⟩
      rw [length_take_of_le (by omega)]
    have left : rest ≠ [] := by
      rintro rfl
      simp only [length_append, length_nil] at inside
      omega
    rw [append_assoc taken, take_left, drop_left]
    have begun := slice_append (early ++ middle) taken rest
    rw [length_append, append_assoc] at begun
    refine ⟨begun, ?_⟩
    have after := Holds.wrapped early (middle ++ taken) rest (by simp [free]) left
    simpa [append_assoc, Nat.add_assoc] using after

omit holds

/-- What reaches the end of the buffer is read in two pieces, the second one at the beginning. -/
theorem Holds.slice_wrap (head tail : Nat) (holds : Holds buffer first last contents)
    (available : head + tail ≤ contents.length) (reaches : first + head = buffer.length) :
    Ring.slice buffer first head ++ Ring.slice buffer 0 tail = contents.take (head + tail) ∧
      Holds buffer tail last (contents.drop (head + tail)) := by
  cases holds with
  | straight front contents back free =>
    -- The contents end before the buffer does.
    have := length_pos_iff.2 free
    simp only [length_append] at reaches
    omega
  | wrapped early middle late free some =>
    simp only [length_append] at reaches available
    obtain rfl : head = late.length := by omega
    obtain ⟨taken, rest, rfl, rfl⟩ : ∃ taken rest, early = taken ++ rest ∧ tail = taken.length := by
      refine ⟨_, _, (take_append_drop tail early).symm, ?_⟩
      rw [length_take_of_le (by omega)]
    have begun := slice_append ((taken ++ rest) ++ middle) late []
    have again := slice_append [] taken (rest ++ (middle ++ late))
    rw [append_nil, append_assoc, length_append] at begun
    rw [nil_append, length_nil, ← append_assoc] at again
    rw [begun, again, take_length_add_append, drop_length_add_append, take_left, drop_left]
    refine ⟨rfl, ?_⟩
    have after := Holds.straight taken rest (middle ++ late) (by simp [free])
    simpa [append_assoc] using after

end Ring
