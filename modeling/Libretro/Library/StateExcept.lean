import Mathlib.Data.List.Basic

/-! Computations that do not stop with one error. -/

namespace StateExcept

variable {ε α β : Type}

/-- A computation does not stop with an error, and what it gives has a property. -/
def Avoids (bad : ε) (computation : Except ε α) (property : α → Prop) : Prop :=
  match computation with
  | .ok value => property value
  | .error error => error ≠ bad

section Avoids

variable {bad error : ε} {computation other : Except ε α} {property stronger : α → Prop}

theorem Avoids.bind {next : α → Except ε β} {goal : β → Prop} (first : Avoids bad computation property)
    (second : ∀ value, property value → Avoids bad (next value) goal) :
    Avoids bad (computation >>= next) goal := by
  cases computation with
  | ok value => exact second value first
  | error error => exact first

theorem Avoids.via (property : α → Prop) {next : α → Except ε β} {goal : β → Prop}
    (first : Avoids bad computation property)
    (second : ∀ value, property value → Avoids bad (next value) goal) :
    Avoids bad (computation >>= next) goal :=
  first.bind second

theorem Avoids.weaken (avoids : Avoids bad computation stronger)
    (implies : ∀ value, stronger value → property value) : Avoids bad computation property := by
  cases computation with
  | ok value => exact implies value avoids
  | error error => exact avoids

theorem Avoids.ite {condition : Prop} [Decidable condition]
    (yes : condition → Avoids bad computation property) (no : ¬ condition → Avoids bad other property) :
    Avoids bad (if condition then computation else other) property := by
  split
  · exact yes ‹_›
  · exact no ‹_›

theorem Avoids.ne (avoids : Avoids bad computation property) : computation ≠ .error bad := by
  rintro rfl
  exact avoids rfl

theorem Avoids.ok (avoids : Avoids bad computation property) {value : α} (result : computation = .ok value) :
    property value := by
  rwa [result] at avoids

end Avoids

end StateExcept
