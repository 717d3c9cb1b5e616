import Libretro.Maps.RhMapBindings

/-! The map refines its bindings over every run of safe operations. -/

namespace Libretro.RhMap

open Function LinearProbing Option Header

universe u v

variable {κ : Type u} {V : Type v} [DecidableEq κ] {layout : Layout} {hashing : Hashing κ}
  {zero : V} {header : Header κ V} {bindings : Bindings κ V} {map : Map κ V}

omit [DecidableEq κ] in
theorem Header.Valid.doubled (valid : header.Valid layout hashing zero bindings) :
    header.len * 2 % 2 ^ layout.sizeBits = header.len * 2 := by
  have half := valid.half
  have within := valid.within
  exact Nat.mod_eq_of_lt (by omega)

theorem Map.Shows.fit1 (shows : map.Shows layout hashing zero bindings)
    (fits : map.Tight layout → map.GrowthFits layout 0) (block : Nat → V) :
    ∃ header, RhMap.fit1 layout zero block map = some (some header) ∧
      header.Valid layout hashing zero bindings ∧ header.len = rhmapLen map ∧
      header.len * 2 ≤ header.maxlen := by
  cases map with
  | none =>
    obtain rfl : bindings = fun _ => none := shows
    obtain ⟨grown, grew, valid, len, made⟩ := @grow_null κ V layout hashing zero 0 (fits trivial) block
    obtain ⟨header, rfl⟩ := made rfl
    have empty : header.len = 0 := len
    exact ⟨header, grew, valid, len, by omega⟩
  | some header =>
    have valid : header.Valid layout hashing zero bindings := shows
    have half := valid.half
    rw [RhMap.fit1]
    by_cases enough : header.len * 2 % 2 ^ layout.sizeBits ≤ header.maxlen
    · rw [if_pos enough]
      exact ⟨header, rfl, valid, rfl, valid.doubled ▸ enough⟩
    · rw [if_neg enough]
      obtain ⟨grown, grew, validGrown, len, doubled⟩ := valid.grow (fits (Nat.lt_of_not_le enough)) block
      exact ⟨grown, grew, validGrown, len, by rw [len, doubled rfl]; omega⟩

theorem Map.Shows.fit (shows : map.Shows layout hashing zero bindings) {n : Nat}
    (fits : map.Short layout n → map.GrowthFits layout n) (block : Nat → V) :
    ∃ fitted, RhMap.fit layout zero block map n = some fitted ∧
      fitted.Shows layout hashing zero bindings := by
  cases map with
  | none =>
    obtain rfl : bindings = fun _ => none := shows
    rw [RhMap.fit]
    by_cases nothing : n = 0
    · rw [if_pos nothing]
      exact ⟨none, rfl, rfl⟩
    · rw [if_neg nothing]
      obtain ⟨grown, grew, valid, -⟩ := @grow_null κ V layout hashing zero n (fits ⟨nothing, trivial⟩) block
      exact ⟨grown, grew, valid⟩
  | some header =>
    have valid : header.Valid layout hashing zero bindings := shows
    rw [RhMap.fit]
    by_cases enough : n = 0 ∨ n * 2 % 2 ^ layout.sizeBits ≤ header.maxlen
    · rw [if_pos enough]
      exact ⟨some header, rfl, valid⟩
    · rw [if_neg enough]
      rw [not_or, Nat.not_le] at enough
      obtain ⟨grown, grew, validGrown, -⟩ := valid.grow (fits enough) block
      exact ⟨some grown, grew, validGrown⟩

theorem Header.Valid.lookup_bound (valid : header.Valid layout hashing zero bindings) {key : κ}
    {val : V} (bound : bindings key = some val) (add : Bool) :
    ∃ i, header.slots i = some key ∧ i < slotCount header.maxlen ∧ header.cells (i + 1) = val ∧
      rhmapIdx header (hashing.hash key) (some key) add = some (header, some (BitVec.ofNat 32 i)) := by
  obtain ⟨i, found⟩ := valid.only key (by simp [bound])
  have shown := valid.shows i key found
  rw [bound, some.injEq] at shown
  refine ⟨i, found, valid.sound.bounded i key found, shown.symm, ?_⟩
  rw [valid.formed.rhmapIdx_eq (valid.sound.probe_present found), if_pos found]

theorem Header.Valid.lookup_unbound (valid : header.Valid layout hashing zero bindings) {key : κ}
    (unbound : bindings key = none) :
    ∃ i < slotCount header.maxlen, header.slots i = none ∧
      Leads (slotCount header.maxlen) header.slots (hashing.home key) i ∧
      rhmapIdx header (hashing.hash key) (some key) false = some (header, none) ∧
      rhmapIdx header (hashing.hash key) (some key) true =
        some (header.claim (hashing.hash key) (some key) (BitVec.ofNat 32 i), some (BitVec.ofNat 32 i)) := by
  have absent : ∀ i, header.slots i ≠ some key := by
    intro i found
    have shown := valid.shows i key found
    simp [unbound] at shown
  obtain ⟨i, inside, probed, empty, leads⟩ := @Sound.probe_absent κ _ _ hashing.home _ key absent valid.room
  refine ⟨i, inside, empty, leads, ?_, ?_⟩
  · rw [valid.formed.rhmapIdx_eq probed, if_neg (by simp [empty])]
    rfl
  · rw [valid.formed.rhmapIdx_eq probed, if_neg (by simp [empty]), if_pos rfl]

theorem cellOf_slot {maxlen i : Nat} (inside : i < slotCount maxlen) :
    cellOf (some (BitVec.ofNat 32 i)) = i + 1 := by
  rw [cellOf, toNat_slot inside]

theorem Header.Valid.delete_unbound (valid : header.Valid layout hashing zero bindings) {key : κ}
    (unbound : bindings key = none) :
    rhmapIdxDel header (hashing.hash key) (some key) = some (header, false) := by
  have absent : ∀ i, header.slots i ≠ some key := by
    intro i found
    have shown := valid.shows i key found
    simp [unbound] at shown
  obtain ⟨i, inside, probed, empty, -⟩ := @Sound.probe_absent κ _ _ hashing.home _ key absent valid.room
  have looped := valid.formed.probeLoop key (slotCount header.maxlen) (hashing.hash key)
  rw [← Hashing.home, probed] at looped
  rw [rhmapIdxDel, if_neg (hashing.nonzero key), looped]
  simp [empty]

theorem Header.Valid.overwrite (valid : header.Valid layout hashing zero bindings)
    {key : κ} {i : Nat} (found : header.slots i = some key) (val : V) :
    Valid layout hashing zero { header with cells := Function.update header.cells (i + 1) val }
      (Function.update bindings key (some val)) := by
  have bound : bindings key ≠ none := (valid.bound_iff key).mpr ⟨i, found⟩
  refine ⟨⟨valid.formed.log, valid.formed.keyed⟩, valid.sound, valid.within, valid.large, ?_, ?_,
    ?_, valid.half, valid.few, by simp [valid.nullCell]⟩
  · intro j other shown
    by_cases here : j = i
    · subst here
      have same : other = key := some.inj (shown.symm.trans found)
      simp [same]
    · have differ : other ≠ key := by
        rintro rfl
        exact here (valid.sound.unique j i other shown found)
      simpa [here, differ] using valid.shows j other shown
  · intro other bound
    by_cases same : other = key
    · exact ⟨i, same ▸ found⟩
    · exact valid.only other (by simpa [same] using bound)
  · obtain ⟨keys, member, size⟩ := valid.count
    refine ⟨keys, fun other => ?_, size⟩
    by_cases same : other = key
    · simp [same, member, bound]
    · simp [same, member]

theorem Header.Valid.add (valid : header.Valid layout hashing zero bindings) {key : κ}
    (unbound : bindings key = none) (load : header.len * 2 ≤ header.maxlen)
    (few : header.len + 1 < 2 ^ 32) {i : Nat} (inside : i < slotCount header.maxlen)
    (leads : Leads (slotCount header.maxlen) header.slots (hashing.home key) i)
    (empty : header.slots i = none) (val : V) :
    Valid layout hashing zero
      { header.claim (hashing.hash key) (some key) (BitVec.ofNat 32 i) with
        cells := Function.update header.cells (i + 1) val }
      (Function.update bindings key (some val)) := by
  have large := valid.large
  obtain ⟨log, size⟩ := valid.formed.log
  have absent : ∀ j, header.slots j ≠ some key := by
    intro j found
    have shown := valid.shows j key found
    simp [unbound] at shown
  rw [claim_eq (by omega), toNat_slot inside]
  have shown := @slots_write _ _ hashing header key i (header.len + 1)
    (Function.update header.cells (i + 1) val)
  have written := valid.formed.write key i (header.len + 1) (Function.update header.cells (i + 1) val)
  refine ⟨written, ?_, valid.within, valid.large, ?_, ?_, ?_, ?_, few, by simp [valid.nullCell]⟩
  · rw [Sound, shown]
    exact valid.sound.add inside absent leads
  · intro j other found
    rw [shown] at found
    by_cases here : j = i
    · subst here
      rw [update_self, some.injEq] at found
      simp [found]
    · rw [update_of_ne here] at found
      have differ : other ≠ key := by
        rintro rfl
        exact absent j found
      simpa [here, differ] using valid.shows j other found
  · intro other bound
    rw [shown]
    by_cases same : other = key
    · exact ⟨i, by simp [same]⟩
    · obtain ⟨j, found⟩ := valid.only other (by simpa [same] using bound)
      have away : j ≠ i := by
        rintro rfl
        simp [empty] at found
      exact ⟨j, by rw [update_of_ne away, found]⟩
  · obtain ⟨keys, member, counted⟩ := valid.count
    have new : key ∉ keys := by simp [member, unbound]
    refine ⟨insert key keys, fun other => ?_, by rw [Finset.card_insert_of_notMem new, counted]⟩
    by_cases same : other = key
    · simp [same]
    · simp [same, member]
  · -- The last slot's number is odd, so half full before leaves room for one more.
    obtain ⟨log, rfl⟩ : ∃ less, log = less + 1 := by
      cases log with
      | zero => simp at size; omega
      | succ less => exact ⟨less, rfl⟩
    rw [Nat.pow_succ] at size
    simp only
    omega

theorem Header.Valid.delete (valid : header.Valid layout hashing zero bindings) {key : κ} {i : Nat}
    (found : header.slots i = some key) (avoids : AvoidLast (header.deletionMoves hashing i)) :
    ∃ after, rhmapIdxDel header (hashing.hash key) (some key) = some (after, true) ∧
      after.Valid layout hashing zero (Function.update bindings key none) := by
  have inside := valid.sound.bounded i key found
  have bound : bindings key ≠ none := (valid.bound_iff key).mpr ⟨i, found⟩
  obtain ⟨keys, member, counted⟩ := valid.count
  have half := valid.half
  have large := valid.large
  have some_ : 0 < header.len := by
    rw [← counted, Finset.card_pos]
    exact ⟨key, (member key).mpr bound⟩
  obtain ⟨other, otherInside, empty⟩ := valid.room
  have apart : other ≠ i := by
    rintro rfl
    simp [empty] at found
  obtain ⟨after, closed, ran, shifted, sound, same⟩ := valid.formed.rhmapIdxDel_present valid.sound
    found (by omega) some_ ⟨other, otherInside, apart, empty⟩ avoids
  have vacated := @slots_vacate _ _ header (BitVec.ofNat 32 i)
  rw [toNat_slot inside] at vacated
  -- The walk takes every value along with its key, whatever the values are.
  have values := shifted.values (fun shown => (bindings shown).getD zero) (by
    intro j shown at_
    rw [vacated] at at_
    by_cases here : j = i
    · simp [here] at at_
    · rw [update_of_ne here] at at_
      simp [valid.shows j shown at_, vacate])
  have maxlen : after.maxlen = header.maxlen := shifted.maxlen
  have len : after.len = header.len - 1 := shifted.len
  refine ⟨after, ran, shifted.formed, sound, maxlen ▸ valid.within, maxlen ▸ valid.large, ?_, ?_,
    ⟨keys.erase key, ?_, ?_⟩, ?_, ?_, shifted.nullCell.trans valid.nullCell⟩
  · intro j shown at_
    rw [shifted.slots] at at_
    obtain ⟨before, was⟩ := (same shown).mp ⟨j, at_⟩
    have away : before ≠ i := by
      rintro rfl
      simp at was
    rw [update_of_ne away] at was
    have differ : shown ≠ key := by
      rintro rfl
      exact away (valid.sound.unique before i shown was found)
    have value := values j shown at_
    have old := valid.shows before shown was
    simp only [old, getD_some] at value
    rw [update_of_ne differ, old, value]
  · intro shown stillBound
    have differ : shown ≠ key := by
      rintro rfl
      simp at stillBound
    obtain ⟨before, was⟩ := valid.only shown (by simpa [differ] using stillBound)
    have away : before ≠ i := by
      rintro rfl
      exact differ (some.inj (was.symm.trans found))
    rw [shifted.slots]
    exact (same shown).mpr ⟨before, by rw [update_of_ne away, was]⟩
  · intro shown
    by_cases differ : shown = key
    · simp [differ]
    · simp [differ, member]
  · rw [Finset.card_erase_of_mem ((member key).mpr bound), counted, len]
  · omega
  · have few := valid.few
    omega

omit [DecidableEq κ] in
theorem Header.Valid.clear (valid : header.Valid layout hashing zero bindings) :
    Valid layout hashing zero
      { header with
        len := 0
        keys := fun i => if i ≤ header.maxlen then 0#32 else header.keys i }
      fun _ => none := by
  have empty : ∀ i, slots { header with
      len := 0
      keys := fun i => if i ≤ header.maxlen then 0#32 else header.keys i } i = none := by
    intro i
    by_cases inside : i ≤ header.maxlen
    · simp [slots, inside]
    · -- Nothing was ever shown past the last slot.
      simp only [slots, inside, if_false]
      by_contra shown
      obtain ⟨key, found⟩ := ne_none_iff_exists'.mp shown
      have below := valid.sound.bounded i key found
      have reach := Nat.min_le_left (header.maxlen + 1) (2 ^ 32)
      rw [← slotCount] at reach
      omega
  have shown : slots { header with
      len := 0
      keys := fun i => if i ≤ header.maxlen then 0#32 else header.keys i } = fun _ => none :=
    funext empty
  refine ⟨⟨valid.formed.log, ?_⟩, ?_, valid.within, valid.large, ?_, by simp, ⟨∅, by simp, rfl⟩,
    by simp, by simp, valid.nullCell⟩
  · intro i occupied
    by_cases inside : i ≤ header.maxlen
    · simp [inside] at occupied
    · simpa [inside] using valid.formed.keyed i (by simpa [inside] using occupied)
  · rw [Sound, shown]
    exact sound_empty
  · intro i key found
    simp [shown] at found

omit [DecidableEq κ] in
theorem Map.Shows.bound (shows : map.Shows layout hashing zero bindings) {key : κ}
    (has : map.Has key) : bindings key ≠ none := by
  obtain ⟨header, i, rfl, found⟩ := has
  exact (Valid.bound_iff shows key).mpr ⟨i, found⟩

theorem Map.Shows.step (shows : map.Shows layout hashing zero bindings)
    {operation : Operation κ V} (safe : operation.Safe layout hashing map) (block : Nat → V) :
    ∃ next, map.step layout hashing zero block operation = some (next, (bindings.step zero operation).2) ∧
      next.Shows layout hashing zero (bindings.step zero operation).1 := by
  cases operation with
  | set key val =>
    obtain ⟨grows, few⟩ := safe
    obtain ⟨header, fitted, valid, len, load⟩ := shows.fit1 grows block
    cases bound : bindings key with
    | none =>
      obtain ⟨i, inside, empty, leads, -, looked⟩ := valid.lookup_unbound bound
      have room : header.len + 1 < 2 ^ 32 := by
        rcases few with few | has
        · exact len ▸ few
        · exact absurd bound (shows.bound has)
      refine ⟨some _, ?_, valid.add bound load room inside leads empty val⟩
      simp [Map.step, fitted, looked, Bindings.step, cellOf_slot inside, claim,
        show ¬ header.maxlen ≤ header.len by have large := valid.large; omega]
    | some old =>
      obtain ⟨i, found, inside, -, looked⟩ := valid.lookup_bound bound true
      refine ⟨some _, ?_, valid.overwrite found val⟩
      simp [Map.step, fitted, looked, Bindings.step, cellOf_slot inside]
  | get key =>
    obtain ⟨header, fitted, valid, -, -⟩ := shows.fit1 safe block
    refine ⟨some header, ?_, valid⟩
    cases bound : bindings key with
    | none =>
      obtain ⟨_, -, -, -, looked, -⟩ := valid.lookup_unbound bound
      simp [Map.step, fitted, looked, Bindings.step, bound, cellOf, valid.nullCell]
    | some val =>
      obtain ⟨i, -, inside, value, looked⟩ := valid.lookup_bound bound false
      simp [Map.step, fitted, looked, Bindings.step, bound, cellOf_slot inside, value]
  | has key =>
    cases map with
    | none =>
      obtain rfl : bindings = fun _ => none := shows
      exact ⟨none, rfl, rfl⟩
    | some header =>
      have valid : header.Valid layout hashing zero bindings := shows
      refine ⟨some header, ?_, valid⟩
      cases bound : bindings key with
      | none =>
        obtain ⟨_, -, -, -, looked, -⟩ := valid.lookup_unbound bound
        simp [Map.step, looked, Bindings.step, bound]
      | some val =>
        obtain ⟨i, -, -, -, looked⟩ := valid.lookup_bound bound false
        simp [Map.step, looked, Bindings.step, bound]
  | del key =>
    cases map with
    | none =>
      obtain rfl : bindings = fun _ => none := shows
      exact ⟨none, rfl, by simp [Bindings.step, Map.Shows]⟩
    | some header =>
      have valid : header.Valid layout hashing zero bindings := shows
      cases bound : bindings key with
      | none =>
        have same : Function.update bindings key none = bindings := update_eq_self_iff.mpr bound.symm
        refine ⟨some header, ?_, ?_⟩
        · simp [Map.step, valid.delete_unbound bound, Bindings.step, bound]
        · simpa [Bindings.step, same] using shows
      | some val =>
        obtain ⟨i, found, -⟩ := valid.lookup_bound bound false
        obtain ⟨after, ran, validAfter⟩ := valid.delete found (safe header i rfl found)
        exact ⟨some after, by simp [Map.step, ran, Bindings.step, bound], validAfter⟩
  | fit n =>
    obtain ⟨fitted, ran, shown⟩ := shows.fit safe block
    exact ⟨fitted, by simp [Map.step, ran, Bindings.step], shown⟩
  | clear =>
    cases map with
    | none => exact ⟨none, rfl, rfl⟩
    | some header =>
      have valid : header.Valid layout hashing zero bindings := shows
      exact ⟨_, rfl, valid.clear⟩

theorem Map.Shows.run {operations : List (Operation κ V × (Nat → V))} :
    ∀ {map : Map κ V} {bindings : Bindings κ V}, map.Shows layout hashing zero bindings →
      map.RunSafe layout hashing zero operations →
      ∃ final, map.run layout hashing zero operations = some (final, (bindings.run zero operations).2) ∧
        final.Shows layout hashing zero (bindings.run zero operations).1 := by
  induction operations with
  | nil => exact fun shows _ => ⟨_, rfl, shows⟩
  | cons first rest ih =>
    obtain ⟨operation, block⟩ := first
    intro map bindings shows safe
    obtain ⟨next, moved, showsNext⟩ := shows.step safe.1 block
    obtain ⟨final, ran, showsFinal⟩ := ih showsNext (safe.2 next _ moved)
    exact ⟨final, by simp [Map.run, moved, ran, Bindings.run], showsFinal⟩

/-- From the null map every run of safe operations terminates, evaluates to what the bindings give,
and leaves a table that shows exactly the bound keys. -/
theorem run_mirrors (layout : Layout) (hashing : Hashing κ) (zero : V)
    (operations : List (Operation κ V × (Nat → V)))
    (safe : Map.RunSafe layout hashing zero none operations) :
    ∃ final, Map.run layout hashing zero none operations =
        some (final, (Bindings.run zero (fun _ => none) operations).2) ∧
      final.Mirrors hashing (Bindings.run zero (fun _ => none) operations).1 := by
  have start : Map.Shows layout hashing zero (none : Map κ V) fun _ => none := rfl
  obtain ⟨final, ran, shows⟩ := start.run safe
  exact ⟨final, ran, shows.mirrors⟩

/-- A host with 64-bit sizes and four-byte values. -/
def wideLayout : Layout := ⟨64, 40, 4, by decide, by decide⟩

/-- All keys collide on the last slot a 32-bit index gets to. -/
def lastSlotHashing : Hashing Nat := ⟨fun _ => 0xFFFFFFFF#32, fun _ => by decide⟩

/-- A key that was set is there and another one that collides with it is not. -/
theorem run_mirrors_collision : ∃ final : Map Nat Nat, Map.run wideLayout lastSlotHashing 0 none
        [(.set 1 10, fun _ => 0), (.has 1, fun _ => 0), (.has 2, fun _ => 0)] =
      some (final, [.nothing, .truth true, .truth false]) ∧ ∃ keys : Finset Nat,
        keys.card = rhmapLen final := by
  -- Only the first operation grows the map, to sixteen slots.
  have safe : Map.RunSafe wideLayout lastSlotHashing 0 (none : Map Nat Nat)
      [(.set 1 10, fun _ => 0), (.has 1, fun _ => 0), (.has 2, fun _ => 0)] := by
    refine ⟨⟨fun _ newMax grew => ?_, .inl (by decide)⟩,
      fun _ _ _ => ⟨trivial, fun _ _ _ => ⟨trivial, fun _ _ _ => trivial⟩⟩⟩
    cases grew
    decide
  obtain ⟨final, ran, mirrors⟩ := run_mirrors wideLayout lastSlotHashing 0 _ safe
  obtain ⟨keys, -, size⟩ := mirrors.len
  exact ⟨final, ran, keys, size⟩

/-- In a table of as many slots as a 32-bit index tells apart, deleting one of two colliding keys
moves the other into the last slot but its value into the null value's cell. -/
theorem run_mirrors_lastSlot : ¬ ∀ operations : List (Operation Nat Nat × (Nat → Nat)),
    ∃ final, Map.run wideLayout lastSlotHashing 0 none operations =
      some (final, (Bindings.run 0 (fun _ => none) operations).2) := by
  intro claimed
  let operations : List (Operation Nat Nat × (Nat → Nat)) :=
    [(.fit (2 ^ 30), fun _ => 0), (.set 1 10, fun _ => 0), (.set 2 20, fun _ => 0),
      (.del 1, fun _ => 0), (.get 2, fun _ => 0)]
  obtain ⟨final, ran⟩ := claimed operations
  -- The second key reads the first one's value.
  have answers : (Map.run wideLayout lastSlotHashing 0 none operations).map Prod.snd =
      some [.nothing, .nothing, .nothing, .truth true, .value 10] := by
    decide
  rw [ran, map_some, some.injEq] at answers
  have expected : (Bindings.run 0 (fun _ => none) operations).2 =
      [.nothing, .nothing, .nothing, .truth true, .value 10] := answers
  exact absurd expected (by decide)

end Libretro.RhMap
