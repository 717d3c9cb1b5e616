import Mathlib.Data.Finset.Card
import Mathlib.Data.Nat.Find
import Mathlib.Data.Nat.ModEq

/-! Open addressing with linear probing: searching, adding, and deleting by shifting back. -/

namespace LinearProbing

open Function Option Nat

universe u

variable {κ : Type u} {size : Nat} {slots : Nat → Option κ} {home : κ → Nat}

theorem mod_succ (start : Nat) : (start % size + 1) % size = (start + 1) % size := by rw [Nat.mod_add_mod]

theorem offset_inj {start left right : Nat} (leftBound : left < size) (rightBound : right < size)
    (same : (start + left) % size = (start + right) % size) : left = right := by
  have congruent : left ≡ right [MOD size] := Nat.ModEq.add_left_cancel' start same
  rwa [Nat.ModEq, mod_eq_of_lt leftBound, mod_eq_of_lt rightBound] at congruent

theorem exists_offset (start : Nat) {position : Nat} (inside : position < size) :
    ∃ offset < size, position = (start + offset) % size := by
  refine ⟨(position + (size - start % size)) % size, Nat.mod_lt _ (by omega), ?_⟩
  have below : start % size < size := Nat.mod_lt _ (by omega)
  -- The start and the way round from it add up to a whole lap.
  calc position = (position + size) % size := by rw [add_mod_right, mod_eq_of_lt inside]
    _ = (start % size + (position + (size - start % size))) % size := by congr 1; omega
    _ = (start + (position + (size - start % size)) % size) % size := by rw [Nat.mod_add_mod, add_mod_mod]

/-- Probing from a start reaches a position without passing an empty slot. -/
def Leads (size : Nat) (slots : Nat → Option κ) (start position : Nat) : Prop :=
  ∃ offset < size, position = (start + offset) % size ∧
    ∀ earlier < offset, slots ((start + earlier) % size) ≠ none

/-- Each key is in the table once, and probing from its home leads to it. -/
structure Sound (size : Nat) (home : κ → Nat) (slots : Nat → Option κ) : Prop where
  bounded : ∀ position key, slots position = some key → position < size
  unique : ∀ left right key, slots left = some key → slots right = some key → left = right
  leads : ∀ position key, slots position = some key → Leads size slots (home key) position

theorem sound_empty : Sound size home fun _ => none :=
  ⟨fun _ _ h => by simp at h, fun _ _ _ h => by simp at h, fun _ _ h => by simp at h⟩

/-- A table with fewer keys than slots has an empty slot. -/
theorem Sound.exists_empty (sound : Sound size home slots) {keys : Finset κ}
    (holds : ∀ position key, slots position = some key → key ∈ keys)
    (fewer : keys.card < size) : ∃ position < size, slots position = none := by
  by_contra full
  have occupied : ∀ position < size, slots position ≠ none := by simpa using full
  -- A full table would show as many keys as it has slots.
  have bound : (Finset.range size).card ≤ (keys.map .some).card := by
    refine Finset.card_le_card_of_injOn slots ?_ ?_
    · intro position inside
      obtain ⟨key, found⟩ := ne_none_iff_exists'.mp (occupied position (by simpa using inside))
      simp [found, holds position key found]
    · intro left leftInside right rightInside same
      obtain ⟨key, found⟩ := ne_none_iff_exists'.mp (occupied left (by simpa using leftInside))
      exact sound.unique left right key found (same ▸ found)
  rw [Finset.card_range, Finset.card_map] at bound
  omega

variable [DecidableEq κ]

/-- The first position, round the table, that holds the key or nothing. -/
def probe (size : Nat) (slots : Nat → Option κ) (key : κ) : Nat → Nat → Option Nat
  | 0, _ => none
  | turns + 1, position =>
    if slots position = some key ∨ slots position = none then some position
    else probe size slots key turns ((position + 1) % size)

theorem probe_eq {key : κ} {offset : Nat} : ∀ {turns start : Nat}, offset < turns →
    (∀ earlier < offset, slots ((start + earlier) % size) ≠ some key ∧
      slots ((start + earlier) % size) ≠ none) →
    (slots ((start + offset) % size) = some key ∨ slots ((start + offset) % size) = none) →
    probe size slots key turns (start % size) = some ((start + offset) % size) := by
  -- On the number of slots that are passed.
  induction offset with
  | zero =>
    intro turns start enough _ stops
    obtain ⟨turns, rfl⟩ : ∃ rest, turns = rest + 1 := ⟨turns - 1, by omega⟩
    rw [probe, if_pos (by simpa using stops), add_zero]
  | succ offset ih =>
    intro turns start enough passed stops
    obtain ⟨turns, rfl⟩ : ∃ rest, turns = rest + 1 := ⟨turns - 1, by omega⟩
    have first := passed 0 (by omega)
    rw [add_zero] at first
    have shift : ∀ steps, start + 1 + steps = start + (steps + 1) := fun steps => by omega
    rw [probe, if_neg (by tauto), mod_succ, ih (by omega), shift]
    · intro earlier below
      rw [shift]
      exact passed (earlier + 1) (by omega)
    · rwa [shift]

theorem probe_lt {key : κ} {turns : Nat} : ∀ {position found : Nat}, position < size →
    probe size slots key turns position = some found → found < size := by
  induction turns with
  | zero => simp [probe]
  | succ turns ih =>
    intro position found inside ends
    rw [probe] at ends
    split at ends
    · cases ends
      exact inside
    · exact ih (Nat.mod_lt _ (by omega)) ends

theorem Sound.probe_present (sound : Sound size home slots) {position : Nat} {key : κ}
    (found : slots position = some key) :
    probe size slots key size (home key % size) = some position := by
  obtain ⟨offset, below, rfl, occupied⟩ := sound.leads position key found
  refine probe_eq below (fun earlier before => ⟨?_, occupied earlier before⟩) (.inl found)
  -- An earlier slot with the same key would be the same slot.
  intro again
  have same := offset_inj (by omega) below (sound.unique _ _ key again found)
  omega

theorem Sound.probe_absent {key : κ} (absent : ∀ position, slots position ≠ some key)
    (room : ∃ position < size, slots position = none) :
    ∃ position < size, probe size slots key size (home key % size) = some position ∧
      slots position = none ∧ Leads size slots (home key) position := by
  obtain ⟨position, inside, empty⟩ := room
  obtain ⟨offset, below, rfl⟩ := exists_offset (home key) inside
  have some_ : ∃ offset, slots ((home key + offset) % size) = none := ⟨offset, empty⟩
  have first := Nat.find_min' some_ empty
  have occupied : ∀ earlier < Nat.find some_, slots ((home key + earlier) % size) ≠ none :=
    fun earlier before => Nat.find_min some_ before
  refine ⟨(home key + Nat.find some_) % size, Nat.mod_lt _ (by omega), ?_, Nat.find_spec some_,
    Nat.find some_, by omega, rfl, occupied⟩
  exact probe_eq (by omega) (fun earlier before => ⟨absent _, occupied earlier before⟩)
    (.inr (Nat.find_spec some_))

omit [DecidableEq κ] in
/-- Filling the slot at which the probe for a new key ends keeps the table sound. -/
theorem Sound.add (sound : Sound size home slots) {position : Nat} {key : κ}
    (inside : position < size) (absent : ∀ other, slots other ≠ some key)
    (leads : Leads size slots (home key) position) :
    Sound size home (update slots position (some key)) := by
  -- Filling a slot never opens a gap on another key's way.
  have kept : ∀ {start target}, Leads size slots start target →
      Leads size (update slots position (some key)) start target := by
    rintro start target ⟨offset, below, rfl, occupied⟩
    refine ⟨offset, below, rfl, fun earlier before => ?_⟩
    by_cases here : (start + earlier) % size = position
    · simp [here]
    · simpa [here] using occupied earlier before
  refine ⟨?_, ?_, ?_⟩
  · intro other shown at_
    by_cases here : other = position
    · exact here ▸ inside
    · exact sound.bounded other shown (by simpa [here] using at_)
  · intro left right shown atLeft atRight
    by_cases hereLeft : left = position <;> by_cases hereRight : right = position
    · exact hereLeft.trans hereRight.symm
    · simp only [hereLeft, update_self, some.injEq] at atLeft
      simp only [update_of_ne hereRight] at atRight
      exact absurd (atLeft ▸ atRight) (absent right)
    · simp only [hereRight, update_self, some.injEq] at atRight
      simp only [update_of_ne hereLeft] at atLeft
      exact absurd (atRight ▸ atLeft) (absent left)
    · simp only [update_of_ne hereLeft] at atLeft
      simp only [update_of_ne hereRight] at atRight
      exact sound.unique left right shown atLeft atRight
  · intro other shown at_
    by_cases here : other = position
    · simp only [here, update_self, some.injEq] at at_
      subst here at_
      exact kept leads
    · exact kept (sound.leads other shown (by simpa [here] using at_))

/-- Closing the gap that an emptied slot leaves: each entry from a position on, up to the next
empty slot, is probed for again and moves where that leads. The moves are listed as pairs of the
slot that is left and the slot that is taken. -/
def closeGap (size : Nat) (home : κ → Nat) : Nat → (Nat → Option κ) → Nat →
    Option ((Nat → Option κ) × List (Nat × Nat))
  | 0, _, _ => none
  | turns + 1, slots, position =>
    match slots position with
    | none => some (slots, [])
    | some key =>
      (probe size slots key size (home key % size)).bind fun found =>
        if found = position then closeGap size home turns slots ((position + 1) % size)
        else if slots found = none then
          (closeGap size home turns (Function.update (Function.update slots found (some key)) position none)
            ((position + 1) % size)).map fun (closed, moves) => (closed, (position, found) :: moves)
        else none

/-- The table while its gap is being closed: a key's way from its home may only be broken by the
hole, and only when the key is still ahead of the walk, which is `steps` from the hole. -/
structure Gap (size : Nat) (home : κ → Nat) (slots : Nat → Option κ) (hole steps : Nat) : Prop where
  bounded : ∀ position key, slots position = some key → position < size
  unique : ∀ left right key, slots left = some key → slots right = some key → left = right
  inside : hole < size
  empty : slots hole = none
  leads : ∀ position key, slots position = some key → ∃ offset < size,
    position = (home key + offset) % size ∧ ∀ earlier < offset, slots ((home key + earlier) % size) ≠ none ∨
        ((home key + earlier) % size = hole ∧ steps ≤ offset - earlier)

omit [DecidableEq κ] in
/-- Emptying a slot of a sound table leaves a gap with the walk about to start. -/
theorem Sound.remove (sound : Sound size home slots) {hole : Nat} (inside : hole < size) :
    Gap size home (update slots hole none) hole 1 where
  bounded := by
    intro position key at_
    by_cases here : position = hole
    · simp [here] at at_
    · exact sound.bounded position key (by simpa [here] using at_)
  unique := by
    intro left right key atLeft atRight
    by_cases hereLeft : left = hole
    · simp [hereLeft] at atLeft
    · by_cases hereRight : right = hole
      · simp [hereRight] at atRight
      · exact sound.unique left right key (by simpa [hereLeft] using atLeft)
          (by simpa [hereRight] using atRight)
  inside := inside
  empty := by simp
  leads := by
    intro position key at_
    have away : position ≠ hole := by
      rintro rfl
      simp at at_
    rw [update_of_ne away] at at_
    obtain ⟨offset, below, reached, occupied⟩ := sound.leads position key at_
    refine ⟨offset, below, reached, fun earlier before => ?_⟩
    by_cases here : (home key + earlier) % size = hole
    · exact .inr ⟨here, by omega⟩
    · exact .inl (by simpa [here] using occupied earlier before)

omit [DecidableEq κ] in
theorem way_from_hole {key : κ} {hole offset earlier : Nat} (before : earlier ≤ offset)
    (through : (home key + earlier) % size = hole) :
    (home key + offset) % size = (hole + (offset - earlier)) % size := by
  rw [← through, Nat.mod_add_mod]
  congr 1
  omega

omit [DecidableEq κ] in
theorem Gap.stop {hole steps : Nat} (gap : Gap size home slots hole steps) (ahead : 0 < steps)
    (empty : slots ((hole + steps) % size) = none) :
    Sound size home slots := by
  refine ⟨gap.bounded, gap.unique, ?_⟩
  intro position key at_
  obtain ⟨offset, below, reached, way⟩ := gap.leads position key at_
  refine ⟨offset, below, reached, fun earlier before => ?_⟩
  rcases way earlier before with occupied | ⟨through, far⟩
  · exact occupied
  · -- A way through the hole would go on past the empty slot as well.
    exfalso
    have met : (home key + (earlier + steps)) % size = (hole + steps) % size := by
      rw [way_from_hole (by omega : earlier ≤ earlier + steps) through]
      congr 2
      omega
    have notLast : earlier + steps ≠ offset := by
      rintro rfl
      rw [reached, met, empty] at at_
      simp at at_
    rcases way (earlier + steps) (by omega) with occupied | ⟨again, _⟩
    · exact occupied (met ▸ empty)
    · have same : earlier + steps = earlier := by
        refine offset_inj (by omega) (by omega) (again.trans through.symm)
      omega

theorem Gap.probe_ahead {hole steps : Nat} {key : κ} (gap : Gap size home slots hole steps)
    (at_ : slots ((hole + steps) % size) = some key) :
    (probe size slots key size (home key % size) = some ((hole + steps) % size) ∧
        Leads size slots (home key) ((hole + steps) % size)) ∨
      (probe size slots key size (home key % size) = some hole ∧ Leads size slots (home key) hole) := by
  obtain ⟨offset, below, reached, way⟩ := gap.leads _ key at_
  have other : ∀ earlier < offset, slots ((home key + earlier) % size) ≠ some key := by
    intro earlier before again
    have same := offset_inj (by omega) below ((gap.unique _ _ key again at_).trans reached)
    omega
  by_cases through : ∃ earlier < offset, (home key + earlier) % size = hole
  · right
    obtain ⟨earlier, before, met⟩ := through
    have occupied : ∀ sooner < earlier, slots ((home key + sooner) % size) ≠ none := by
      intro sooner first
      rcases way sooner (by omega) with occupied | ⟨again, _⟩
      · exact occupied
      · have same : sooner = earlier := offset_inj (by omega) (by omega) (again.trans met.symm)
        omega
    subst met
    refine ⟨?_, earlier, by omega, rfl, occupied⟩
    exact probe_eq (by omega) (fun sooner first => ⟨other sooner (by omega), occupied sooner first⟩)
      (.inr gap.empty)
  · left
    have occupied : ∀ earlier < offset, slots ((home key + earlier) % size) ≠ none := by
      intro earlier before
      rcases way earlier before with occupied | ⟨met, _⟩
      · exact occupied
      · exact absurd ⟨earlier, before, met⟩ through
    refine ⟨?_, offset, below, reached, occupied⟩
    rw [reached] at at_ ⊢
    exact probe_eq below (fun earlier before => ⟨other earlier before, occupied earlier before⟩) (.inl at_)

omit [DecidableEq κ] in
theorem Gap.stay {hole steps : Nat} {key : κ} (gap : Gap size home slots hole steps)
    (at_ : slots ((hole + steps) % size) = some key)
    (leads : Leads size slots (home key) ((hole + steps) % size)) :
    Gap size home slots hole (steps + 1) := by
  refine ⟨gap.bounded, gap.unique, gap.inside, gap.empty, ?_⟩
  intro position shown shownAt
  obtain ⟨offset, below, reached, way⟩ := gap.leads position shown shownAt
  refine ⟨offset, below, reached, fun earlier before => ?_⟩
  rcases way earlier before with occupied | ⟨through, far⟩
  · exact .inl occupied
  · -- An entry exactly at the walk is the one that stays, and its way avoids the hole.
    refine .inr ⟨through, ?_⟩
    rcases lt_or_ge steps (offset - earlier) with further | exactly
    · omega
    exfalso
    have span : offset - earlier = steps := by omega
    have here : position = (hole + steps) % size := by
      rw [reached, way_from_hole (le_of_lt before) through, span]
    obtain ⟨direct, directBelow, directReached, occupied⟩ := leads
    have same : shown = key := by simpa [here, at_] using shownAt.symm
    have equal : offset = direct :=
      offset_inj below directBelow (reached.symm.trans (here.trans (same ▸ directReached)))
    refine occupied earlier (by omega) ?_
    rw [← same, through, gap.empty]

omit [DecidableEq κ] in
theorem Gap.moved_iff {hole steps : Nat} {key : κ} (gap : Gap size home slots hole steps)
    (at_ : slots ((hole + steps) % size) = some key) (position : Nat) (shown : κ) :
    update (update slots hole (some key)) ((hole + steps) % size) none position = some shown ↔
      (position = hole ∧ shown = key) ∨
        (position ≠ hole ∧ position ≠ (hole + steps) % size ∧ slots position = some shown) := by
  have differ : hole ≠ (hole + steps) % size := by
    intro same
    rw [← same, gap.empty] at at_
    simp at at_
  by_cases left : position = (hole + steps) % size
  · simp [left, Ne.symm differ]
  · by_cases filled : position = hole
    · simp [filled, differ, eq_comm]
    · simp [left, filled]

omit [DecidableEq κ] in
theorem Gap.move_keys {hole steps : Nat} {key shown : κ} (gap : Gap size home slots hole steps)
    (at_ : slots ((hole + steps) % size) = some key) :
    (∃ position, update (update slots hole (some key)) ((hole + steps) % size)
      none position = some shown) ↔ ∃ position, slots position = some shown := by
  simp only [gap.moved_iff at_]
  constructor
  · rintro ⟨position, ⟨-, rfl⟩ | ⟨-, -, before⟩⟩
    · exact ⟨_, at_⟩
    · exact ⟨position, before⟩
  · rintro ⟨position, before⟩
    by_cases left : position = (hole + steps) % size
    · rw [left, at_, some.injEq] at before
      exact ⟨hole, .inl ⟨rfl, before.symm⟩⟩
    · refine ⟨position, .inr ⟨?_, left, before⟩⟩
      rintro rfl
      simp [gap.empty] at before

omit [DecidableEq κ] in
theorem Gap.move {hole steps : Nat} {key : κ} (gap : Gap size home slots hole steps)
    (round : steps < size) (at_ : slots ((hole + steps) % size) = some key)
    (leads : Leads size slots (home key) hole) :
    Gap size home (update (update slots hole (some key))
      ((hole + steps) % size) none) ((hole + steps) % size) 1 := by
  have owner := gap.moved_iff at_
  have filled : update (update slots hole (some key))
      ((hole + steps) % size) none hole = some key := (owner hole key).mpr (.inl ⟨rfl, rfl⟩)
  -- A slot that was occupied and is not left stays occupied.
  have kept : ∀ position, position ≠ (hole + steps) % size → slots position ≠ none →
      update (update slots hole (some key)) ((hole + steps) % size) none position ≠ none := by
    intro position notLeft occupied
    by_cases here : position = hole
    · simp [here, filled]
    · rwa [update_of_ne notLeft, update_of_ne here]
  refine ⟨?_, ?_, Nat.mod_lt _ (by omega), by simp, ?_⟩
  · intro position shown shownAt
    rcases (owner position shown).mp shownAt with ⟨rfl, -⟩ | ⟨-, -, before⟩
    · exact gap.inside
    · exact gap.bounded position shown before
  · intro left right shown atLeft atRight
    rcases (owner left shown).mp atLeft with ⟨rfl, rfl⟩ | ⟨-, leftAway, beforeLeft⟩ <;>
      rcases (owner right shown).mp atRight with ⟨rfl, same⟩ | ⟨-, rightAway, beforeRight⟩
    · rfl
    · exact absurd (gap.unique right _ shown beforeRight at_) rightAway
    · exact absurd (gap.unique left _ key (same ▸ beforeLeft) at_) leftAway
    · exact gap.unique left right shown beforeLeft beforeRight
  · intro position shown shownAt
    rcases (owner position shown).mp shownAt with ⟨rfl, rfl⟩ | ⟨-, away, before⟩
    · -- The moved key's way to the hole is the one the probe took.
      obtain ⟨offset, below, reached, occupied⟩ := leads
      refine ⟨offset, below, reached, fun earlier first => ?_⟩
      by_cases left : (home shown + earlier) % size = (position + steps) % size
      · exact .inr ⟨left, by omega⟩
      · exact .inl (kept _ left (occupied earlier first))
    · obtain ⟨offset, below, reached, way⟩ := gap.leads position shown before
      refine ⟨offset, below, reached, fun earlier first => ?_⟩
      by_cases left : (home shown + earlier) % size = (hole + steps) % size
      · exact .inr ⟨left, by omega⟩
      · refine .inl ?_
        rcases way earlier first with occupied | ⟨through, -⟩
        · exact kept _ left occupied
        · simp [through, filled]

/-- Closing the gap ends at the next empty slot with a sound table that holds the same keys. -/
theorem Gap.close {turns : Nat} : ∀ {slots : Nat → Option κ} {hole steps reach : Nat},
    Gap size home slots hole steps → 0 < steps → steps ≤ reach → reach < size →
    slots ((hole + reach) % size) = none → reach - steps < turns →
    ∃ closed moves, closeGap size home turns slots ((hole + steps) % size) = some (closed, moves) ∧
      Sound size home closed ∧
      ∀ key, (∃ position, closed position = some key) ↔ ∃ position, slots position = some key := by
  -- On the turns left; each one brings the walk a step nearer to the empty slot.
  induction turns with
  | zero => intros; omega
  | succ turns ih =>
    intro slots hole steps reach gap ahead within round empty enough
    cases at_ : slots ((hole + steps) % size) with
    | none => exact ⟨slots, [], by rw [closeGap, at_], gap.stop ahead at_, fun key => Iff.rfl⟩
    | some key =>
      have further : steps ≠ reach := by
        rintro rfl
        simp [empty] at at_
      have next : ((hole + steps) % size + 1) % size = (hole + (steps + 1)) % size := by
        rw [mod_succ, Nat.add_assoc]
      rcases gap.probe_ahead at_ with ⟨found, leads⟩ | ⟨found, leads⟩
      · obtain ⟨closed, moves, closes, sound, same⟩ :=
          ih (gap.stay at_ leads) (by omega) (by omega) round empty (by omega)
        refine ⟨closed, moves, ?_, sound, same⟩
        simp only [closeGap, at_, found, bind_some, if_true, next, closes]
      · have differ : hole ≠ (hole + steps) % size := by
          intro same
          rw [← same, gap.empty] at at_
          simp at at_
        have moved := gap.move (by omega) at_ leads
        -- The empty slot ahead is neither the hole nor the slot that is left.
        have still : update (update slots hole (some key))
            ((hole + steps) % size) none (((hole + steps) % size + (reach - steps)) % size) =
            none := by
          have reached : ((hole + steps) % size + (reach - steps)) % size = (hole + reach) % size := by
            rw [Nat.mod_add_mod, Nat.add_assoc, Nat.add_sub_cancel' within]
          have start : (hole + 0) % size = hole := mod_eq_of_lt gap.inside
          have notHole : (hole + reach) % size ≠ hole := by
            intro same
            have equal := offset_inj round (by omega) (same.trans start.symm)
            omega
          rw [reached]
          by_cases left : (hole + reach) % size = (hole + steps) % size
          · simp [left]
          · rwa [update_of_ne left, update_of_ne notHole]
        obtain ⟨closed, moves, closes, sound, same⟩ :=
          ih moved (by omega) (by omega) (by omega) still (by omega)
        refine ⟨closed, ((hole + steps) % size, hole) :: moves, ?_, sound, ?_⟩
        · simp only [closeGap, at_, found, bind_some, differ, if_false, gap.empty, if_true,
            closes, map_some]
        · intro shown
          rw [same shown, gap.move_keys at_]

end LinearProbing
