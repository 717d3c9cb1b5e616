import Libretro.Files.ConfigFile
import Libretro.Files.ConfigInclude

/-! What calls do to one key: the values that its entries have in the order of the list, and which of
them the map has. -/

namespace Libretro.ConfigFile

open List Option Config Nat Entry

/-- The values under one key, and the place of the one that the map has. -/
@[ext] structure Slot where
  values : List (List UInt8)
  mapped : Option Nat

namespace Slot

/-- The value that is looked up. -/
def lookup (slot : Slot) : Option (List UInt8) := slot.mapped.bind fun place => slot.values[place]?

/-- A value is set. -/
def set (slot : Slot) (value : List UInt8) : Slot :=
  match slot.mapped with
  | some place => { slot with values := slot.values.set place value }
  | none => { values := slot.values ++ [value], mapped := some slot.values.length }

/-- The value that the map has is taken out, and those that it shadowed stay. -/
def unset (slot : Slot) : Slot :=
  match slot.mapped with
  | some place => { values := slot.values.eraseIdx place, mapped := none }
  | none => slot

/-- A call on the key. -/
def call (slot : Slot) : Call → Slot
  | .setString _ value => slot.set value
  | .unset _ => slot.unset

/-- Calls on the key. -/
def calls (slot : Slot) (calls : List Call) : Slot := calls.foldl Slot.call slot

/-- The slot of a key whose values were parsed. -/
def parsed (values : List (List UInt8)) : Slot where
  values
  mapped := if values.isEmpty then none else some 0

end Slot

/-- A call takes a value out. -/
def Call.clears : Call → Bool
  | .setString .. => false
  | .unset _ => true

namespace Slot

/-- What calls have made of a parsed slot: the first value is replaced, or it is gone, and at most one
is behind the others. -/
inductive Edited (values : List (List UInt8)) (cleared : Bool) : Slot → Prop where
  | kept (value : List UInt8) (never : cleared = false) :
      Edited values cleared ⟨value :: values.tail, some 0⟩
  | gone (gone : values = [] ∨ cleared = true) : Edited values cleared ⟨values.tail, none⟩
  | added (value : List UInt8) (gone : values = [] ∨ cleared = true) :
      Edited values cleared ⟨values.tail ++ [value], some values.tail.length⟩

variable {slot : Slot} {values : List (List UInt8)} {cleared : Bool}

theorem edited_parsed (values : List (List UInt8)) : Edited values false (parsed values) := by
  cases values with
  | nil => exact .gone (.inl rfl)
  | cons value values => exact .kept value rfl

variable (edited : Edited values cleared slot)
include edited

theorem Edited.set (value : List UInt8) :
    Edited values cleared (slot.set value) ∧ (slot.set value).lookup = some value := by
  cases edited with
  | kept old never => exact ⟨.kept value never, rfl⟩
  | gone gone =>
    refine ⟨.added value gone, ?_⟩
    exact getElem?_concat_length
  | added old gone =>
    have replaced : (values.tail ++ [old]).set values.tail.length value = values.tail ++ [value] := by
      rw [set_append_right _ _ (Nat.le_refl _), Nat.sub_self]
      rfl
    rw [Slot.set]
    simp only [replaced]
    exact ⟨.added value gone, getElem?_concat_length⟩

theorem Edited.unset : Edited values true slot.unset ∧ slot.unset.lookup = none := by
  cases edited with
  | kept old never => exact ⟨.gone (.inr rfl), rfl⟩
  | gone gone => exact ⟨.gone (.inr rfl), rfl⟩
  | added old gone =>
    have erased : (values.tail ++ [old]).eraseIdx values.tail.length = values.tail := by
      rw [eraseIdx_append_of_length_le (Nat.le_refl _), Nat.sub_self]
      exact append_nil _
    rw [Slot.unset]
    simp only [erased]
    exact ⟨.gone (.inr rfl), rfl⟩

theorem Edited.call (call : Call) : Edited values (cleared || call.clears) (slot.call call) ∧
      (slot.call call).lookup = (match call with | .setString _ value => some value | .unset _ => none) := by
  cases call with
  | setString key value =>
    rw [Call.clears, Bool.or_false]
    exact edited.set value
  | unset key =>
    rw [Call.clears, Bool.or_true]
    exact edited.unset

/-- Calls, and what the last of them leaves to be looked up. -/
theorem Edited.calls (calls : List Call) :
    Edited values (cleared || calls.any Call.clears) (slot.calls calls) ∧
      ∀ last, calls.getLast? = some last → (slot.calls calls).lookup =
        (match last with | .setString _ value => some value | .unset _ => none) := by
  -- The induction goes from the last call to the first.
  induction calls using List.reverseRecOn with
  | nil =>
    rw [any_nil, Bool.or_false]
    exact ⟨edited, nofun⟩
  | append_singleton calls call ih =>
    rw [Slot.calls, foldl_append, any_append, ← Bool.or_assoc, any_cons, any_nil, Bool.or_false]
    obtain ⟨next, found⟩ := ih.1.call call
    refine ⟨next, fun last is => ?_⟩
    rw [getLast?_concat] at is
    rw [← some.inj is]
    exact found

omit edited

/-- What is first in the order of the list is what is looked up, unless a value was taken out that
shadowed another, and the last call does not set the one behind it. -/
theorem parsed_agrees (values : List (List UInt8)) (calls : List Call) :
    ((parsed values).calls calls).values.head? = ((parsed values).calls calls).lookup ↔
      (calls.any Call.clears = true → ∀ second, values[1]? = some second →
        ∃ key, calls.getLast? = some (.setString key second)) := by
  obtain ⟨edited, last⟩ := (edited_parsed values).calls calls
  rw [Bool.false_or] at edited
  generalize (parsed values).calls calls = slot at edited last
  have second : values[1]? = values.tail.head? := by
    cases values with
    | nil => rfl
    | cons first rest => cases rest <;> rfl
  -- A value that was taken out was so by one of the calls.
  have called : calls.any Call.clears = true → ∃ call, calls.getLast? = some call := by
    intro clears
    cases shape : calls.getLast? with
    | none =>
      rw [getLast?_eq_none_iff.1 shape] at clears
      cases clears
    | some call => exact ⟨call, rfl⟩
  rw [second]
  cases edited with
  | kept value never => exact ⟨fun _ clears => absurd (never.symm.trans clears) nofun, fun _ => rfl⟩
  | gone gone =>
    rcases gone with rfl | cleared
    · exact ⟨fun _ _ => nofun, fun _ => rfl⟩
    · obtain ⟨call, is⟩ := called cleared
      rw [is]
      have found := last call is
      constructor
      · intro agrees _ second shadowed
        exact absurd (shadowed.symm.trans agrees) nofun
      · intro sets
        cases shadowed : values.tail.head? with
        | none => rfl
        | some second =>
          obtain ⟨key, same⟩ := sets cleared second shadowed
          rw [some.inj same] at found
          cases found
  | added value gone =>
    have looked : Slot.lookup ⟨values.tail ++ [value], some values.tail.length⟩ = some value :=
      getElem?_concat_length
    rw [looked, head?_append]
    rcases gone with rfl | cleared
    · exact ⟨fun _ _ => nofun, fun _ => rfl⟩
    · obtain ⟨call, is⟩ := called cleared
      have found := last call is
      rw [looked] at found
      rw [is]
      constructor
      · intro agrees _ second shadowed
        rw [shadowed, some_or] at agrees
        cases call with
        | setString key set =>
          refine ⟨key, ?_⟩
          rw [some.inj agrees, some.inj found]
        | unset key => cases found
      · intro sets
        cases shadowed : values.tail.head? with
        | none => rfl
        | some second =>
          obtain ⟨key, same⟩ := sets cleared second shadowed
          rw [some.inj same] at found
          exact found.symm

end Slot

section Slots

variable {Text : Type} (read : Text → List UInt8)

/-- The value that an entry has under a key. -/
def Entry.under (key : List UInt8) (entry : Entry Text) : Option (List UInt8) :=
  if entry.key.map read = some key then entry.value.map read else none

/-- The slot of a key. -/
def Config.slot (conf : Config Text) (key : List UInt8) : Slot where
  values := conf.entries.filterMap (under read key)
  mapped := (conf.getEntry read key).map fun node =>
    ((conf.entries.take node).filterMap (under read key)).length

/-- No entry comes from an include, and each has a key and a value or none of them. -/
structure Config.Own (conf : Config Text) : Prop where
  tail : conf.tail = if conf.entries.isEmpty then none else some (conf.entries.length - 1)
  nodes : ∀ node ∈ conf.entriesMap, node < conf.entries.length
  entries : ∀ entry ∈ conf.entries, entry.readonly = false ∧ entry.key.isSome = entry.value.isSome

variable {read} {own : List UInt8 → Text} {conf next : Config Text} {key other value : List UInt8}
  {node : Nat} {entry entry' : Entry Text} {before after : List (Entry Text)}

theorem Config.Own.found (owns : conf.Own) (finds : conf.getEntry read key = some node) :
    ∃ before entry after value, conf.entries = before ++ entry :: after ∧ before.length = node ∧
      entry.key.map read = some key ∧ entry.value = some value := by
  have inside := owns.nodes node (mem_of_find?_eq_some finds)
  have keyed := eq_of_beq (@find?_some _ (fun node => conf.keyAt read node == some key) _ _ finds)
  rw [keyAt, getElem?_eq_getElem inside, bind_some] at keyed
  have both := (owns.entries _ (getElem_mem inside)).2
  obtain ⟨text, is, -⟩ := map_eq_some_iff.1 keyed
  rw [is, isSome_some, eq_comm, isSome_iff_exists] at both
  obtain ⟨value, has⟩ := both
  refine ⟨conf.entries.take node, conf.entries[node], conf.entries.drop (node + 1), value, ?_, ?_, keyed, has⟩
  · rw [getElem_cons_drop, take_append_drop]
  · rw [length_take]
    omega

theorem modify_node (replace : Entry Text → Entry Text) :
    (before ++ entry :: after).modify before.length replace = before ++ replace entry :: after := by
  induction before with
  | nil => rfl
  | cons first before ih =>
    rw [cons_append, length_cons, modify_succ_cons, ih]
    rfl

theorem Config.keyAt_replaced (entries : conf.entries = before ++ entry :: after)
    (replaced : next.entries = before ++ entry' :: after) (different : node ≠ before.length) :
    next.keyAt read node = conf.keyAt read node := by
  rw [keyAt, keyAt, entries, replaced]
  congr 1
  rcases lt_or_gt_of_ne different with less | more
  · rw [getElem?_append_left less, getElem?_append_left less]
  · obtain ⟨far, rfl⟩ := Nat.exists_eq_add_of_lt more
    rw [getElem?_append_right (by omega), getElem?_append_right (by omega),
      show before.length + far + 1 - before.length = far + 1 by omega]
    rfl

theorem Config.keyAt_node (entries : conf.entries = before ++ entry :: after) :
    conf.keyAt read before.length = entry.key.map read := by
  rw [keyAt, entries, getElem?_append_right (Nat.le_refl _), Nat.sub_self]
  rfl

theorem Config.valueAt_node (entries : conf.entries = before ++ entry :: after) :
    conf.valueAt read before.length = entry.value.map read := by
  rw [valueAt, entries, getElem?_append_right (Nat.le_refl _), Nat.sub_self]
  rfl

theorem Config.Own.lookup_slot (owns : conf.Own) (key : List UInt8) :
    (conf.slot read key).lookup = conf.lookup read key := by
  rw [lookup, Slot.lookup, slot]
  cases finds : conf.getEntry read key with
  | none => rfl
  | some node =>
    obtain ⟨before, entry, after, value, entries, rfl, keyed, has⟩ := owns.found finds
    have under : entry.under read key = some (read value) := by
      rw [under, if_pos keyed, has]
      rfl
    simp only [map_some, bind_some, entries, take_left, filterMap_append, filterMap_cons_some under]
    rw [getElem?_append_right (Nat.le_refl _), Nat.sub_self,
      getElem?_append_right (Nat.le_refl _), Nat.sub_self, getElem?_cons_zero,
      getElem?_cons_zero, bind_some, has]
    rfl

theorem Config.Own.replaced (owns : conf.Own) (entries : conf.entries = before ++ entry :: after)
    (replaced : next.entries = before ++ entry' :: after) (tail : next.tail = conf.tail)
    (map : ∀ node ∈ next.entriesMap, node ∈ conf.entriesMap)
    (own : entry'.readonly = false ∧ entry'.key.isSome = entry'.value.isSome) : next.Own where
  tail := by
    rw [tail, owns.tail, entries, replaced]
    simp
  nodes := fun node listed => by
    have inside := owns.nodes node (map node listed)
    rw [entries, length_append, length_cons] at inside
    rw [replaced, length_append, length_cons]
    exact inside
  entries := fun one listed => by
    have old := owns.entries one
    rw [entries] at old
    rw [replaced] at listed
    rcases mem_append.1 listed with early | late
    · exact old (mem_append_left _ early)
    · rcases mem_cons.1 late with rfl | late
      · exact own
      · exact old (mem_append_right _ (mem_cons_of_mem _ late))

theorem Config.slot_eq (entries : conf.entries = before ++ entry :: after) (key : List UInt8) :
    (conf.slot read key).values = before.filterMap (under read key) ++
      ((entry.under read key).toList ++ after.filterMap (under read key)) := by
  rw [slot, entries, filterMap_append, filterMap_cons]
  cases entry.under read key <;> rfl

theorem Config.slot_mapped (entries : conf.entries = before ++ entry :: after)
    (finds : conf.getEntry read key = some before.length) :
    (conf.slot read key).mapped = some (before.filterMap (under read key)).length := by
  have taken : conf.entries.take before.length = before := by rw [entries, take_left]
  rw [slot, finds]
  exact congrArg (fun list => some (List.filterMap (under read key) list).length) taken

theorem Config.slot_other (entries : conf.entries = before ++ entry :: after)
    (replaced : next.entries = before ++ entry' :: after)
    (finds : next.getEntry read other = conf.getEntry read other)
    (hidden : entry.under read other = none) (hidden' : entry'.under read other = none) :
    next.slot read other = conf.slot read other := by
  have drop : ∀ (entry : Entry Text) (count : Nat), entry.under read other = none →
      ((before ++ entry :: after).take count).filterMap (under read other) =
        (before.take count ++ after.take (count - (before.length + 1))).filterMap
          (under read other) := by
    intro entry count hidden
    rw [take_append, filterMap_append, filterMap_append]
    congr 1
    rcases le_total count before.length with less | more
    · rw [Nat.sub_eq_zero_of_le less, Nat.sub_eq_zero_of_le (by omega), take_zero,
        take_zero]
    · rcases lt_or_eq_of_le more with more | rfl
      · rw [show count - before.length = count - (before.length + 1) + 1 by omega,
          take_succ_cons, filterMap_cons_none hidden]
      · rw [Nat.sub_self, Nat.sub_eq_zero_of_le (Nat.le_succ _), take_zero, take_zero]
  apply Slot.ext
  · rw [slot_eq entries, slot_eq replaced, hidden, hidden']
  · rw [slot, slot, finds, entries, replaced]
    simp only [drop entry _ hidden, drop entry' _ hidden']

theorem Config.Own.replaceValue (owns : conf.Own) (inverse : ∀ bytes, read (own bytes) = bytes)
    (finds : conf.getEntry read key = some node) :
    (conf.replaceValue node (own value)).Own ∧ ∀ other, (conf.replaceValue node (own value)).slot read other =
        if key = other then (conf.slot read key).set value else conf.slot read other := by
  obtain ⟨before, entry, after, old, entries, rfl, keyed, has⟩ := owns.found finds
  have replaced : (conf.replaceValue before.length (own value)).entries =
      before ++ { entry with value := some (own value), readonly := false } :: after := by
    rw [replaceValue, entries, modify_node]
  have keys : ∀ node, (conf.replaceValue before.length (own value)).keyAt read node =
      conf.keyAt read node := by
    intro node
    by_cases same : node = before.length
    · rw [same, keyAt_node entries, keyAt_node replaced]
    · exact keyAt_replaced entries replaced same
  have found : ∀ other, (conf.replaceValue before.length (own value)).getEntry read other =
      conf.getEntry read other := by
    intro other
    rw [getEntry, getEntry]
    simp only [keys]
    rfl
  refine ⟨owns.replaced entries replaced rfl (fun _ listed => listed) ⟨rfl, ?_⟩, fun other => ?_⟩
  · obtain ⟨text, is, -⟩ := map_eq_some_iff.1 keyed
    rw [is]
    rfl
  · split
    · rename_i same
      subst same
      have under : entry.under read key = some (read old) := by
        rw [Entry.under, if_pos keyed, has]
        rfl
      have under' : Entry.under read key
          { entry with value := some (own value), readonly := false } = some value := by
        rw [Entry.under, if_pos keyed]
        exact congrArg some (inverse value)
      rw [Slot.set]
      simp only [slot_mapped entries finds]
      apply Slot.ext
      · rw [slot_eq replaced, slot_eq entries, under, under',
          set_append_right _ _ (Nat.le_refl _), Nat.sub_self]
        rfl
      · exact slot_mapped replaced ((found key).trans finds)
    · rename_i different
      have hidden : ∀ other, key ≠ other → entry.key.map read ≠ some other :=
        fun other different same => different (some.inj (keyed.symm.trans same))
      refine slot_other entries replaced (found other) ?_ ?_
      · rw [under, if_neg (hidden other different)]
      · rw [under, if_neg (hidden other different)]

theorem Config.Own.clear (owns : conf.Own) (finds : conf.getEntry read key = some node) :
    (conf.clear read key node).Own ∧ ∀ other, (conf.clear read key node).slot read other =
        if key = other then (conf.slot read key).unset else conf.slot read other := by
  obtain ⟨before, entry, after, old, entries, rfl, keyed, has⟩ := owns.found finds
  have replaced : (conf.clear read key before.length).entries =
      before ++ { entry with key := none, value := none } :: after := by
    rw [clear, entries, modify_node]
  have readonly : entry.readonly = false :=
    (owns.entries entry (entries ▸ mem_append_right _ mem_cons_self)).1
  have map : ∀ node ∈ (conf.clear read key before.length).entriesMap, node ∈ conf.entriesMap :=
    fun _ listed => mem_of_mem_filter listed
  -- The key is nobody's in the map, and others are where they were.
  have gone : (conf.clear read key before.length).getEntry read key = none := by
    apply find?_eq_none.2
    intro node listed same
    have keep := (mem_filter.1 listed).2
    by_cases is : node = before.length
    · rw [is, keyAt_node replaced] at same
      cases eq_of_beq same
    · rw [keyAt_replaced entries replaced is] at same
      rw [eq_of_beq same, bne_self_eq_false] at keep
      cases keep
  have found : ∀ other, key ≠ other → (conf.clear read key before.length).getEntry read other =
      conf.getEntry read other := by
    intro other different
    have test : ∀ node, decide ((conf.keyAt read node != some key) = true ∧
        ((conf.clear read key before.length).keyAt read node == some other) = true) =
          (conf.keyAt read node == some other) := by
      intro node
      rw [Bool.decide_and, Bool.decide_eq_true, Bool.decide_eq_true]
      by_cases is : node = before.length
      · rw [is, keyAt_node entries, keyed, bne_self_eq_false, Bool.false_and, eq_comm,
          beq_eq_false_iff_ne]
        exact fun same => different (some.inj same)
      · rw [keyAt_replaced entries replaced is, Bool.eq_iff_iff, Bool.and_eq_true, bne_iff_ne,
          beq_iff_eq]
        refine ⟨fun both => both.2, fun same => ⟨fun same' => ?_, same⟩⟩
        exact different (some.inj (same'.symm.trans same))
    rw [getEntry, getEntry]
    show ((conf.entriesMap.filter fun other => conf.keyAt read other != some key).find? _) = _
    rw [find?_filter]
    exact congrArg (conf.entriesMap.find? ·) (funext test)
  refine ⟨owns.replaced entries replaced rfl map ⟨readonly, rfl⟩, fun other => ?_⟩
  have under' : ∀ other, under read other { entry with key := none, value := none } = none :=
    fun _ => ite_self _
  split
  · rename_i same
    subst same
    have under : entry.under read key = some (read old) := by
      rw [under, if_pos keyed, has]
      rfl
    rw [Slot.unset]
    simp only [slot_mapped entries finds]
    apply Slot.ext
    · rw [slot_eq replaced, slot_eq entries, under, under',
        eraseIdx_append_of_length_le (Nat.le_refl _), Nat.sub_self]
      rfl
    · rw [slot, gone]
      rfl
  · rename_i different
    refine slot_other entries replaced (found other different) ?_ (under' other)
    rw [under, if_neg]
    exact fun same => different (some.inj (keyed.symm.trans same))

theorem Config.Own.insertSet (owns : conf.Own) (inverse : ∀ bytes, read (own bytes) = bytes)
    (finds : conf.getEntry read key = none) :
    (conf.insertSet read (own key) (own value)).Own ∧
      ∀ other, (conf.insertSet read (own key) (own value)).slot read other =
        if key = other then (conf.slot read key).set value else conf.slot read other := by
  have all : conf.behindTail = conf.entries := by
    rw [behindTail, owns.tail]
    cases shape : conf.entries with
    | nil => rfl
    | cons first rest => exact take_of_length_le (by simp)
  have entries : (conf.insertSet read (own key) (own value)).entries =
      conf.entries ++ [{ key := some (own key), value := some (own value) }] := by
    rw [Config.insertSet, all]
  have map : (conf.insertSet read (own key) (own value)).entriesMap =
      (conf.entriesMap.filter fun node => conf.keyAt read node != some key) ++ [conf.entries.length] := by
    rw [Config.insertSet, all, inverse]
  have old : ∀ node ∈ conf.entriesMap,
      (conf.insertSet read (own key) (own value)).keyAt read node = conf.keyAt read node := by
    intro node listed
    rw [keyAt, keyAt, entries, getElem?_append_left (owns.nodes node listed)]
  have new : (conf.insertSet read (own key) (own value)).keyAt read conf.entries.length = some key := by
    rw [keyAt_node entries]
    exact congrArg some (inverse key)
  -- The other nodes of the map have other keys.
  have kept : (conf.entriesMap.filter fun node => conf.keyAt read node != some key) = conf.entriesMap := by
    apply filter_eq_self.2
    intro node listed
    rw [bne_iff_ne]
    exact fun same => find?_eq_none.1 finds node listed (beq_iff_eq.2 same)
  have found : ∀ other, (conf.insertSet read (own key) (own value)).getEntry read other =
      if key = other then some conf.entries.length else conf.getEntry read other := by
    intro other
    have before := find_congr fun node listed =>
      congrArg (· == some other) (old node listed)
    rw [getEntry, map, kept, find?_append, before]
    split
    · rename_i same
      subst same
      have none : conf.entriesMap.find? (fun node => conf.keyAt read node == some key) = none := finds
      rw [none, none_or]
      exact find?_cons_of_pos (beq_iff_eq.2 new)
    · rename_i different
      rw [find?_cons_of_neg, find?_nil, or_none]
      · rfl
      · rw [new, beq_iff_eq]
        exact fun same => different (some.inj same)
  have under : ∀ other, under read other { key := some (own key), value := some (own value) } =
        if key = other then some value else none := by
    intro other
    rw [under, map_some, map_some, inverse, inverse]
    simp only [some.injEq]
  refine ⟨⟨?_, ?_, ?_⟩, fun other => ?_⟩
  · rw [entries, if_neg (by simp), length_append]
    rw [Config.insertSet, all]
    rfl
  · rw [map, kept, entries, length_append]
    intro node listed
    rcases mem_append.1 listed with listed | same
    · exact lt_succ_of_lt (owns.nodes node listed)
    · rw [mem_singleton.1 same]
      exact lt_succ_self _
  · rw [entries]
    intro entry listed
    rcases mem_append.1 listed with listed | same
    · exact owns.entries entry listed
    · rw [mem_singleton.1 same]
      exact ⟨rfl, rfl⟩
  · have values : ((conf.insertSet read (own key) (own value)).slot read other).values =
        (conf.slot read other).values ++ (if key = other then some value else none).toList := by
      rw [slot_eq entries, under]
      exact congrArg (_ ++ ·) (append_nil _)
    split
    · rename_i same
      subst same
      have mapped : (conf.slot read key).mapped = none := by
        rw [slot, finds]
        rfl
      rw [Slot.set]
      simp only [mapped]
      apply Slot.ext
      · rw [values, if_pos rfl]
        rfl
      · exact slot_mapped entries ((found key).trans (if_pos rfl))
    · rename_i different
      apply Slot.ext
      · rw [values, if_neg different]
        exact append_nil _
      · rw [slot, slot, found, if_neg different, entries]
        cases finds' : conf.getEntry read other with
        | none => rfl
        | some node =>
          have inside := owns.nodes node (mem_of_find?_eq_some finds')
          simp only [map_some, take_append_of_le_length (le_of_lt inside)]

/-- The calls on one key. -/
def callsOn (key : List UInt8) (calls : List Call) : List Call := calls.filter fun call => call.key = key

/-- A call changes the slot of its key alone. -/
theorem Flagged.call_slot {live : Flagged Text} (duplicates : live.guaranteedNoDuplicates = false)
    (owns : live.conf.Own) (inverse : ∀ bytes, read (own bytes) = bytes) (call : Call) :
    (live.call read own call).guaranteedNoDuplicates = false ∧ (live.call read own call).conf.Own ∧
      ∀ key, (live.call read own call).conf.slot read key =
        if call.key = key then (live.conf.slot read key).call call
        else live.conf.slot read key := by
  -- A call that does nothing does nothing to the slot.
  have same : (live.conf.slot read call.key).call call = live.conf.slot read call.key →
      ∀ other, live.conf.slot read other = if call.key = other then (live.conf.slot read other).call call
        else live.conf.slot read other := by
    intro same other
    split
    · rename_i is
      rw [← is, same]
    · rfl
  have turn : ∀ {next : Config Text}, (∀ other, next.slot read other =
        if call.key = other then (live.conf.slot read call.key).call call
        else live.conf.slot read other) →
      ∀ other, next.slot read other = if call.key = other then (live.conf.slot read other).call call
        else live.conf.slot read other := by
    intro next slots other
    rw [slots]
    split
    · rename_i is
      rw [is]
    · rfl
  cases call with
  | setString key value =>
    simp only [Flagged.call, Flagged.setString, duplicates, if_neg Bool.false_ne_true]
    cases finds : live.conf.getEntry read key with
    | none =>
      obtain ⟨owns', slots⟩ := @Config.Own.insertSet _ _ own _ _ value owns inverse finds
      exact ⟨rfl, owns', turn slots⟩
    | some node =>
      simp only
      split
      · rename_i unchanged
        refine ⟨duplicates, owns, same ?_⟩
        obtain ⟨before, entry, after, old, entries, rfl, keyed, has⟩ := owns.found finds
        have under : entry.under read key = some value := by
          rw [valueAt_node entries] at unchanged
          rw [under, if_pos keyed, unchanged]
        simp only [Slot.call, Slot.set, Call.key, slot_mapped entries finds]
        apply Slot.ext
        · rw [slot_eq entries, under, set_append_right _ _ (Nat.le_refl _), Nat.sub_self]
          rfl
        · exact (slot_mapped entries finds).symm
      · obtain ⟨owns', slots⟩ := @Config.Own.replaceValue _ _ own _ _ value _ owns inverse finds
        exact ⟨rfl, owns', turn slots⟩
  | unset key =>
    simp only [Flagged.call, Flagged.unset]
    cases finds : live.conf.getEntry read key with
    | none =>
      refine ⟨duplicates, owns, same ?_⟩
      have mapped : (live.conf.slot read key).mapped = none := by
        rw [slot, finds]
        rfl
      simp only [Slot.call, Slot.unset, Call.key, mapped]
    | some node =>
      obtain ⟨owns', slots⟩ := owns.clear finds
      exact ⟨duplicates, owns', turn slots⟩

end Slots

end Libretro.ConfigFile
