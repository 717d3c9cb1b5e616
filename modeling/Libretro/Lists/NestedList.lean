import Libretro.Lists.StringSplit
import Libretro.Maps.RhMapBindings

/-! Nested lists keep their maps and their arrays alike, and items are found under their addresses. -/

namespace Libretro.NestedList

open Lists Function

variable {V : Type*}

/-- An item, with the numbers of its parent, of the list that it is in and of the list of its children. -/
structure Item (V : Type*) where
  parentItem : Option Nat
  parentList : Nat
  children : Nat
  id : List UInt8
  value : Option V

/-- A list: the numbers of its items in their order, and a map to them from their ids. -/
structure Level where
  items : List Nat
  itemMap : RhMap.Bindings (List UInt8) Nat

/-- Lists and items by their numbers, which stand for pointers. List zero is the top level. -/
structure Heap (V : Type*) where
  lists : List Level
  items : List (Item V)

/-- A new list. -/
def nestedListInit (heap : Heap V) : Heap V × Nat :=
  ({ heap with lists := heap.lists ++ [⟨[], fun _ => none⟩] }, heap.lists.length)

/-- A nested list without items. -/
def Heap.start : Heap V := (nestedListInit ⟨[], []⟩).1

/-- The item of an id in a list, if there is one. -/
def Heap.get (heap : Heap V) (list : Nat) (id : List UInt8) : Option Nat :=
  (heap.lists[list]?).bind fun level => level.itemMap id

/-- A new item behind the others of a list, unless the id is empty or taken. -/
def nestedListAddItemToList (heap : Heap V) (list : Nat) (parentItem : Option Nat) (id : List UInt8)
    (value : Option V) : Heap V × Option Nat :=
  match heap.lists[list]? with
  | none => (heap, none)
  | some level =>
    if id = [] then (heap, none)
    else if (level.itemMap id).isSome then (heap, none)
    else
      let (made, children) := nestedListInit heap
      let newItem := made.items.length
      let after : Level :=
        { items := level.items ++ [newItem]
          itemMap := update level.itemMap id (some newItem) }
      let item : Item V :=
        { parentItem
          parentList := list
          children
          id
          value }
      ({ lists := made.lists.set list after, items := made.items ++ [item] }, some newItem)

/-- What an address asks for: nothing, an id of the top level, or the ids of several levels. -/
inductive Target
  | nothing
  | top (id : List UInt8)
  | levels (ids : List (List UInt8))

/-- An address is split at the delimiter, if there is one. -/
def target (address : List UInt8) (delim : Option (List UInt8)) : Target :=
  if address = [] then .nothing
  else
    match delim with
    | none => .top address
    | some delim =>
      if delim = [] then .top address
      else
        match stringSplitNoalloc address delim with
        | none => .nothing
        | some [] => .nothing
        | some [id] => .top id
        | some ids => .levels ids

/-- The levels of an address are gone through, and those that are missing are added. -/
def addLoop (heap : Heap V) (currentList : Nat) (parentItem : Option Nat) (value : Option V) :
    List (List UInt8) → Heap V × Bool
  | [] => (heap, false)
  | [id] =>
    let (heap, added) := nestedListAddItemToList heap currentList parentItem id value
    (heap, added.isSome)
  | id :: rest =>
    if id = [] then (heap, false)
    else
      let (heap, nextItem) :=
        match heap.get currentList id with
        | some found => (heap, some found)
        | none => nestedListAddItemToList heap currentList parentItem id none
      match nextItem.bind fun next => (heap.items[next]?).map fun item => (next, item.children) with
      | none => (heap, false)
      | some (next, children) => addLoop heap children (some next) value rest

/-- An item is added under an address, and whether it is. -/
def nestedListAddItem (heap : Heap V) (address : List UInt8) (delim : Option (List UInt8))
    (value : Option V) : Heap V × Bool :=
  match target address delim with
  | .nothing => (heap, false)
  | .top id =>
    let (heap, added) := nestedListAddItemToList heap 0 none id value
    (heap, added.isSome)
  | .levels ids => addLoop heap 0 none value ids

/-- The ids of an address are looked up level by level. -/
def getLoop (heap : Heap V) (currentList : Nat) : List (List UInt8) → Option Nat
  | [] => none
  | [id] => if id = [] then none else heap.get currentList id
  | id :: rest =>
    if id = [] then none
    else
      match (heap.get currentList id).bind fun next => heap.items[next]? with
      | none => none
      | some item => getLoop heap item.children rest

/-- The item of an address, if there is one. -/
def nestedListGetItem (heap : Heap V) (address : List UInt8) (delim : Option (List UInt8)) : Option Nat :=
  match target address delim with
  | .nothing => none
  | .top id => heap.get 0 id
  | .levels ids => getLoop heap 0 ids

/-- The ids of an item and of its ancestors, so many at most. -/
def fetchIds (heap : Heap V) : Nat → Nat → Option (List (List UInt8))
  | 0, _ => none
  | fuel + 1, currentItem =>
    (heap.items[currentItem]?).bind fun item =>
      match item.parentItem with
      | none => some [item.id]
      | some parent => (fetchIds heap fuel parent).map (item.id :: ·)

/-- The ids are copied to a buffer of a size behind what is there, the topmost one first and with the
delimiter between them, until one does not fit. -/
def buildLoop (delim : List UInt8) (len : Nat) : List (List UInt8) → List UInt8 → Bool × List UInt8
  | [], s => (true, s)
  | id :: rest, s =>
    if len ≤ s.length + id.length then (false, s ++ id.take (len - s.length - 1))
    else if rest = [] then (true, s ++ id)
    else if len ≤ s.length + id.length + delim.length then
      (false, s ++ id ++ delim.take (len - s.length - id.length - 1))
    else buildLoop delim len rest (s ++ id ++ delim)

/-- The address of an item is written to a buffer of a size: what is returned, and the string in the
buffer. -/
def nestedListItemGetAddress (heap : Heap V) (fuel listItem : Nat) (delim : Option (List UInt8))
    (s : List UInt8) (len : Nat) : Option (Bool × List UInt8) :=
  match delim with
  | none => some (false, s)
  | some delim =>
    if len < 1 then some (false, s)
    else
      (heap.items[listItem]?).bind fun item =>
        if item.parentItem.isSome then
          (fetchIds heap fuel listItem).map fun ids => buildLoop delim len ids.reverse []
        else some (true, item.id.take (len - 1))

/-- A nested list after calls that add items with one delimiter. -/
def build (delim : Option (List UInt8)) (calls : List (List UInt8 × Option V)) : Heap V :=
  calls.foldl (fun heap call => (nestedListAddItem heap call.1 delim call.2).1) .start

/-- The items that are reached from the top level. -/
inductive Heap.Reachable (heap : Heap V) : Nat → Prop
  | top {level : Level} {i : Nat} (first : heap.lists[0]? = some level) (listed : i ∈ level.items) :
      heap.Reachable i
  | child {parent i : Nat} {item : Item V} {level : Level} (reached : heap.Reachable parent)
      (at_ : heap.items[parent]? = some item) (below : heap.lists[item.children]? = some level)
      (listed : i ∈ level.items) : heap.Reachable i

open List Option

variable {V : Type*}

/-- An id that an item may have: the delimiter does not occur in it. -/
def Ordinary (delim : Option (List UInt8)) (id : List UInt8) : Prop :=
  id ≠ [] ∧ ∀ d, delim = some d → d ≠ [] → Whole d id

/-- An id that may stand in an address in front of others. -/
def Before (delim : Option (List UInt8)) (id : List UInt8) : Prop := ∃ d, delim = some d ∧ d ≠ [] ∧ Inner d id

/-- Where an item is: at the top level, or among the children of an earlier one. -/
def Heap.Placed (heap : Heap V) (delim : Option (List UInt8)) (i list : Nat) : Option Nat → Prop
  | none => list = 0
  | some p => p < i ∧ ∃ parent, heap.items[p]? = some parent ∧ parent.children = list ∧
      Before delim parent.id

/-- What every nested list keeps: each list has just the items that are in it, in its array and in its
map. -/
structure Heap.Valid (delim : Option (List UInt8)) (heap : Heap V) : Prop where
  top : 0 < heap.lists.length
  listed : ∀ (l : Nat) (level : Level), heap.lists[l]? = some level → ∀ i, i ∈ level.items ↔
    ∃ item : Item V, heap.items[i]? = some item ∧ item.parentList = l
  mapped : ∀ (l : Nat) (level : Level), heap.lists[l]? = some level → ∀ id i, level.itemMap id = some i ↔
      ∃ item : Item V, heap.items[i]? = some item ∧ item.parentList = l ∧ item.id = id
  distinct : ∀ (l : Nat) (level : Level), heap.lists[l]? = some level → level.items.Nodup
  within : ∀ (i : Nat) (item : Item V), heap.items[i]? = some item →
    item.parentList < heap.lists.length ∧ item.children < heap.lists.length
  placed : ∀ (i : Nat) (item : Item V), heap.items[i]? = some item →
    heap.Placed delim i item.parentList item.parentItem
  ids : ∀ (i : Nat) (item : Item V), heap.items[i]? = some item → Ordinary delim item.id

section Adding

variable {delim : Option (List UInt8)} {heap : Heap V} {list : Nat} {level : Level}
  {parentItem : Option Nat} {id : List UInt8} {value : Option V}

/-- The item that is added to a list. -/
def Heap.newItem (heap : Heap V) (list : Nat) (parentItem : Option Nat) (id : List UInt8)
    (value : Option V) : Item V where
  parentItem := parentItem
  parentList := list
  children := heap.lists.length
  id := id
  value := value

/-- The lists and items after an item was added to a list. -/
def Heap.extend (heap : Heap V) (list : Nat) (level : Level) (parentItem : Option Nat)
    (id : List UInt8) (value : Option V) : Heap V where
  lists := (heap.lists ++ [(⟨[], fun _ => none⟩ : Level)]).set list
    { items := level.items ++ [heap.items.length]
      itemMap := update level.itemMap id (some heap.items.length) }
  items := heap.items ++ [heap.newItem list parentItem id value]

theorem addItemToList_free (at_ : heap.lists[list]? = some level) (nonempty : id ≠ [])
    (free : level.itemMap id = none) :
    nestedListAddItemToList heap list parentItem id value =
      (heap.extend list level parentItem id value, some heap.items.length) := by
  rw [nestedListAddItemToList, at_]
  dsimp only
  rw [if_neg nonempty, free, if_neg (by simp)]
  rfl

theorem addItemToList_taken {i : Nat} (taken : heap.get list id = some i) :
    nestedListAddItemToList heap list parentItem id value = (heap, none) := by
  obtain ⟨level, at_, mapped⟩ := bind_eq_some_iff.1 taken
  rw [nestedListAddItemToList, at_]
  dsimp only
  rw [mapped]
  by_cases empty : id = []
  · rw [if_pos empty]
  · rw [if_neg empty, if_pos isSome_some]

theorem extend_items {i : Nat} {item : Item V} :
    (heap.extend list level parentItem id value).items[i]? = some item ↔ heap.items[i]? = some item ∨
        (i = heap.items.length ∧ item = heap.newItem list parentItem id value) := by
  rw [Heap.extend]
  dsimp only
  rcases Nat.lt_trichotomy i heap.items.length with before | rfl | behind
  · rw [getElem?_append_left before]
    exact ⟨.inl, fun either => either.resolve_right fun new => Nat.ne_of_lt before new.1⟩
  · rw [getElem?_append_right (Nat.le_refl _), Nat.sub_self, getElem?_eq_none (Nat.le_refl _)]
    simp [eq_comm]
  · rw [getElem?_eq_none (by simp; omega), getElem?_eq_none (by omega)]
    simp
    omega

theorem extend_lists {l : Nat} {after : Level}
    (at_ : (heap.extend list level parentItem id value).lists[l]? = some after) :
    (l = list ∧ after.items = level.items ++ [heap.items.length] ∧
        after.itemMap = update level.itemMap id (some heap.items.length)) ∨
      (l = heap.lists.length ∧ after = ⟨[], fun _ => none⟩) ∨
      (l ≠ list ∧ heap.lists[l]? = some after) := by
  rw [Heap.extend] at at_
  dsimp only at at_
  rw [getElem?_set] at at_
  split at at_
  · rename_i same
    split at at_
    · obtain rfl := some.inj at_
      exact .inl ⟨same.symm, rfl, rfl⟩
    · cases at_
  · rename_i other
    rcases Nat.lt_trichotomy l heap.lists.length with before | rfl | behind
    · rw [getElem?_append_left before] at at_
      exact .inr (.inr ⟨Ne.symm other, at_⟩)
    · rw [getElem?_append_right (Nat.le_refl _), Nat.sub_self] at at_
      exact .inr (.inl ⟨rfl, (some.inj at_).symm⟩)
    · rw [getElem?_eq_none (by simp; omega)] at at_
      cases at_

theorem extend_length : (heap.extend list level parentItem id value).lists.length =
    heap.lists.length + 1 := by
  simp [Heap.extend]

theorem Heap.Placed.extend {i l : Nat} {parent : Option Nat} (placed : heap.Placed delim i l parent) :
    (heap.extend list level parentItem id value).Placed delim i l parent := by
  cases parent with
  | none => exact placed
  | some p =>
    obtain ⟨earlier, parent, at_, rest⟩ := placed
    exact ⟨earlier, parent, extend_items.2 (.inl at_), rest⟩

theorem Heap.Valid.extend (valid : heap.Valid delim) (at_ : heap.lists[list]? = some level)
    (free : level.itemMap id = none) (ordinary : Ordinary delim id)
    (placed : heap.Placed delim heap.items.length list parentItem) :
    (heap.extend list level parentItem id value).Valid delim := by
  have inside : list < heap.lists.length := (List.getElem?_eq_some_iff.1 at_).1
  have absent : ∀ item, heap.items[heap.items.length]? ≠ some item := by
    intro item found
    rw [getElem?_eq_none (Nat.le_refl _)] at found
    cases found
  refine ⟨by rw [extend_length]; omega, ?_, ?_, ?_, ?_, ?_, ?_⟩
  · -- The array of the list has the item more, and the array of its children is empty.
    intro l after there i
    rcases extend_lists there with ⟨rfl, items, -⟩ | ⟨rfl, rfl⟩ | ⟨other, before⟩
    · rw [items, mem_append, mem_singleton, valid.listed _ _ at_ i]
      constructor
      · rintro (⟨item, found, in_⟩ | rfl)
        · exact ⟨item, extend_items.2 (.inl found), in_⟩
        · exact ⟨_, extend_items.2 (.inr ⟨rfl, rfl⟩), rfl⟩
      · rintro ⟨item, found, in_⟩
        rcases extend_items.1 found with old | ⟨new, -⟩
        · exact .inl ⟨item, old, in_⟩
        · exact .inr new
    · refine ⟨(fun none => nomatch none), ?_⟩
      rintro ⟨item, found, in_⟩
      rcases extend_items.1 found with old | ⟨-, rfl⟩
      · have := (valid.within i item old).1
        omega
      · rw [Heap.newItem] at in_
        dsimp only at in_
        omega
    · rw [valid.listed _ _ before i]
      constructor
      · rintro ⟨item, found, in_⟩
        exact ⟨item, extend_items.2 (.inl found), in_⟩
      · rintro ⟨item, found, in_⟩
        rcases extend_items.1 found with old | ⟨-, rfl⟩
        · exact ⟨item, old, in_⟩
        · exact absurd in_.symm other
  · -- So has the map.
    intro l after there key i
    rcases extend_lists there with ⟨rfl, -, map⟩ | ⟨rfl, rfl⟩ | ⟨other, before⟩
    · rw [map]
      by_cases same : key = id
      · subst same
        rw [update_self]
        constructor
        · intro new
          obtain rfl := some.inj new
          exact ⟨_, extend_items.2 (.inr ⟨rfl, rfl⟩), rfl, rfl⟩
        · rintro ⟨item, found, in_, named⟩
          rcases extend_items.1 found with old | ⟨rfl, -⟩
          · have taken := (valid.mapped _ _ at_ key i).2 ⟨item, old, in_, named⟩
            rw [free] at taken
            cases taken
          · rfl
      · rw [update_of_ne same, valid.mapped _ _ at_ key i]
        constructor
        · rintro ⟨item, found, rest⟩
          exact ⟨item, extend_items.2 (.inl found), rest⟩
        · rintro ⟨item, found, in_, named⟩
          rcases extend_items.1 found with old | ⟨-, rfl⟩
          · exact ⟨item, old, in_, named⟩
          · exact absurd named.symm same
    · refine ⟨(fun none => nomatch none), ?_⟩
      rintro ⟨item, found, in_, -⟩
      rcases extend_items.1 found with old | ⟨-, rfl⟩
      · have := (valid.within i item old).1
        omega
      · rw [Heap.newItem] at in_
        dsimp only at in_
        omega
    · rw [valid.mapped _ _ before key i]
      constructor
      · rintro ⟨item, found, rest⟩
        exact ⟨item, extend_items.2 (.inl found), rest⟩
      · rintro ⟨item, found, in_, named⟩
        rcases extend_items.1 found with old | ⟨-, rfl⟩
        · exact ⟨item, old, in_, named⟩
        · exact absurd in_.symm other
  · -- The new item has a number of its own.
    intro l after there
    rcases extend_lists there with ⟨rfl, items, -⟩ | ⟨rfl, rfl⟩ | ⟨other, before⟩
    · rw [items, nodup_append]
      refine ⟨valid.distinct _ _ at_, nodup_singleton _, ?_⟩
      intro i listed j new same
      rw [mem_singleton.1 new] at same
      obtain ⟨item, found, -⟩ := (valid.listed _ _ at_ i).1 listed
      exact absent item (same ▸ found)
    · exact nodup_nil
    · exact valid.distinct _ _ before
  · intro i item found
    rw [extend_length]
    rcases extend_items.1 found with old | ⟨-, rfl⟩
    · have := valid.within i item old
      omega
    · rw [Heap.newItem]
      dsimp only
      omega
  · intro i item found
    rcases extend_items.1 found with old | ⟨rfl, rfl⟩
    · exact (valid.placed i item old).extend
    · exact placed.extend
  · intro i item found
    rcases extend_items.1 found with old | ⟨-, rfl⟩
    · exact valid.ids i item old
    · exact ordinary

theorem Heap.Valid.addItemToList (valid : heap.Valid delim) (at_ : heap.lists[list]? = some level)
    (ordinary : Ordinary delim id) (placed : heap.Placed delim heap.items.length list parentItem) :
    (nestedListAddItemToList heap list parentItem id value).1.Valid delim ∧
      ∀ i, (nestedListAddItemToList heap list parentItem id value).2 = some i →
        ∃ item, (nestedListAddItemToList heap list parentItem id value).1.items[i]? = some item ∧
          item.id = id := by
  cases free : level.itemMap id with
  | some i =>
    have taken : heap.get list id = some i := by
      rw [Heap.get, at_]
      exact free
    rw [addItemToList_taken taken]
    exact ⟨valid, fun i none => nomatch none⟩
  | none =>
    rw [addItemToList_free at_ ordinary.1 free]
    refine ⟨valid.extend at_ free ordinary placed, fun i new => ?_⟩
    obtain rfl := some.inj new
    exact ⟨_, extend_items.2 (.inr ⟨rfl, rfl⟩), rfl⟩

theorem Heap.Valid.get (valid : heap.Valid delim) {i : Nat} (inside : list < heap.lists.length) :
    heap.get list id = some i ↔
      ∃ item, heap.items[i]? = some item ∧ item.parentList = list ∧ item.id = id := by
  rw [Heap.get, getElem?_eq_getElem inside, bind_some]
  exact valid.mapped _ _ (getElem?_eq_getElem inside) id i

end Adding

section Looking

variable {delim : Option (List UInt8)} {d : List UInt8} {heap : Heap V} {list i : Nat} {level : Level}
  {parentItem : Option Nat} {id : List UInt8} {value : Option V} {item : Item V}

theorem Elements.ordinary {rest : List (List UInt8)} (given : delim = some d) (nonempty : d ≠ [])
    (elements : Elements d (id :: rest)) : Ordinary delim id := by
  have whole : Whole d id := by
    cases rest with
    | nil => exact elements
    | cons next others => exact elements.1.whole nonempty
  refine ⟨whole.1, fun other same _ => ?_⟩
  obtain rfl := some.inj (given.symm.trans same)
  exact whole

theorem getLoop_cons {rest : List (List UInt8)} (more : rest ≠ []) (nonempty : id ≠ [])
    (got : heap.get list id = some i) (at_ : heap.items[i]? = some item) :
    getLoop heap list (id :: rest) = getLoop heap item.children rest := by
  cases rest with
  | nil => exact absurd rfl more
  | cons next others =>
    rw [getLoop, if_neg nonempty, got, bind_some, at_]
    exact fun none => nomatch none

theorem getLoop_single (nonempty : id ≠ []) : getLoop heap list [id] = heap.get list id := by
  rw [getLoop, if_neg nonempty]

theorem placed_child (given : delim = some d) (nonempty : d ≠ []) {next : List UInt8}
    {others : List (List UInt8)} (elements : Elements d (item.id :: next :: others))
    (at_ : heap.items[i]? = some item) :
    heap.Placed delim heap.items.length item.children (some i) :=
  ⟨(List.getElem?_eq_some_iff.1 at_).1, item, at_, rfl, d, given, nonempty, elements.1⟩

theorem Heap.Valid.addLoop (given : delim = some d) (nonempty : d ≠ []) {ids : List (List UInt8)}
    (elements : Elements d ids) (valid : heap.Valid delim) (inside : list < heap.lists.length)
    (placed : heap.Placed delim heap.items.length list parentItem) :
    (NestedList.addLoop heap list parentItem value ids).1.Valid delim := by
  -- One level is gone through or added at a time.
  induction ids generalizing heap list parentItem with
  | nil => exact valid
  | cons id rest ih =>
    have ordinary := Elements.ordinary given nonempty elements
    have at_ : heap.lists[list]? = some heap.lists[list] := getElem?_eq_getElem inside
    cases rest with
    | nil => exact (valid.addItemToList at_ ordinary placed).1
    | cons next others =>
      rw [NestedList.addLoop, if_neg ordinary.1]
      · cases got : heap.get list id with
        | some found =>
          obtain ⟨item, there, -, rfl⟩ := (valid.get inside).1 got
          simp only [bind_some, there, map_some]
          exact ih elements.2 valid (valid.within found item there).2
            (placed_child given nonempty elements there)
        | none =>
          have free : heap.lists[list].itemMap id = none := by
            rw [Heap.get, at_, bind_some] at got
            exact got
          have there : (heap.extend list heap.lists[list] parentItem id none).items[heap.items.length]? =
              some (heap.newItem list parentItem id none) := extend_items.2 (.inr ⟨rfl, rfl⟩)
          have extended : (heap.extend list heap.lists[list] parentItem id none).Valid delim :=
            valid.extend at_ free ordinary placed
          simp only [addItemToList_free at_ ordinary.1 free, bind_some, there, map_some]
          exact ih elements.2 extended (extended.within _ _ there).2 (placed_child given nonempty
              (show Elements d ((heap.newItem list parentItem id none).id :: next :: others) from elements)
              there)
      · exact fun none => nomatch none

theorem addLoop_taken {ids : List (List UInt8)} (taken : getLoop heap list ids = some i) :
    addLoop heap list parentItem value ids = (heap, false) := by
  -- Every level is gone through.
  induction ids generalizing list parentItem with
  | nil => cases taken
  | cons id rest ih =>
    cases rest with
    | nil =>
      rw [getLoop] at taken
      split at taken
      · cases taken
      · rw [addLoop, addItemToList_taken taken]
        rfl
    | cons next others =>
      rw [getLoop] at taken
      · split at taken
        · cases taken
        · rename_i nonempty
          cases got : heap.get list id with
          | none =>
            rw [got] at taken
            cases taken
          | some found =>
            rw [got, bind_some] at taken
            cases there : heap.items[found]? with
            | none =>
              rw [there] at taken
              cases taken
            | some item =>
              rw [there] at taken
              rw [addLoop, if_neg nonempty, got]
              · simp only [bind_some, there, map_some]
                exact ih taken
              · exact fun none => nomatch none
      · exact fun none => nomatch none

theorem Heap.Valid.fetchIds (valid : heap.Valid delim) (at_ : heap.items[i]? = some item) {fuel : Nat}
    (enough : i < fuel) :
    ∃ ids, NestedList.fetchIds heap fuel i = some (item.id :: ids) ∧
      (∀ id ∈ ids, Before delim id) ∧ (item.parentItem.isSome = true → ids ≠ []) ∧
      getLoop heap 0 (item.id :: ids).reverse = some i ∧
      ∀ next others, getLoop heap 0 ((item.id :: ids).reverse ++ next :: others) =
        getLoop heap item.children (next :: others) := by
  -- A parent is older than its children.
  induction fuel generalizing i item with
  | zero => omega
  | succ fuel ih =>
    have named := (valid.ids i item at_).1
    have placed := valid.placed i item at_
    rw [NestedList.fetchIds, at_, bind_some]
    cases parentItem : item.parentItem with
    | none =>
      rw [parentItem] at placed
      have got : heap.get 0 item.id = some i := (valid.get valid.top).2 ⟨item, at_, placed, rfl⟩
      refine ⟨[], rfl, (fun _ none => nomatch none), (fun none => nomatch none), ?_, fun next others => ?_⟩
      · exact (getLoop_single named).trans got
      · exact getLoop_cons (cons_ne_nil _ _) named got at_
    | some p =>
      rw [parentItem] at placed
      obtain ⟨earlier, parent, there, children, before⟩ := placed
      obtain ⟨ids, fetched, befores, -, -, leads⟩ := ih there (Nat.lt_of_lt_of_le earlier
        (Nat.le_of_lt_succ enough))
      have got : heap.get parent.children item.id = some i := by
        rw [children]
        exact (valid.get (valid.within i item at_).1).2 ⟨item, at_, rfl, rfl⟩
      refine ⟨parent.id :: ids, ?_, ?_, fun _ => cons_ne_nil _ _, ?_, fun next others => ?_⟩
      · dsimp only
        rw [fetched]
        rfl
      · rintro id (_ | ⟨_, listed⟩)
        · exact before
        · exact befores id listed
      · rw [reverse_cons, leads item.id [], getLoop_single named, got]
      · rw [reverse_cons, List.append_assoc, singleton_append, leads]
        exact getLoop_cons (cons_ne_nil _ _) named got at_

end Looking

section Addresses

variable {delim : Option (List UInt8)} {d : List UInt8} {heap : Heap V} {i len : Nat} {item : Item V}

theorem buildLoop_fits {ids : List (List UInt8)} {s : List UInt8} (nonempty : ids ≠ [])
    (fits : (buildLoop d len ids s).1 = true) :
    (buildLoop d len ids s).2 = s ++ d.intercalate ids := by
  induction ids generalizing s with
  | nil => exact absurd rfl nonempty
  | cons id rest ih =>
    rw [buildLoop] at fits ⊢
    split at fits
    · cases fits
    · rename_i room
      rw [if_neg room]
      cases rest with
      | nil => rw [if_pos rfl, intercalate_singleton]
      | cons next others =>
        rw [if_neg (cons_ne_nil _ _)] at fits ⊢
        split at fits
        · cases fits
        · rename_i more
          rw [if_neg more, ih (cons_ne_nil _ _) fits, intercalate_cons_of_ne_nil (cons_ne_nil _ _)]
          simp only [List.append_assoc]

theorem target_levels (nonempty : d ≠ []) {address : List UInt8} {first next : List UInt8}
    {others : List (List UInt8)} (some_ : address ≠ [])
    (split : splitLoop d address.length address = first :: next :: others) :
    target address (some d) = .levels (first :: next :: others) := by
  rw [target, if_neg some_, if_neg nonempty, stringSplitNoalloc, if_neg nonempty, split]

theorem target_whole {address : List UInt8} (some_ : address ≠ [])
    (whole : d ≠ [] → Whole d address) : target address (some d) = .top address := by
  rw [target, if_neg some_]
  by_cases empty : d = []
  · rw [if_pos empty]
  · have split := @splitLoop_intercalate d [address] (whole empty) address.length
      (by rw [intercalate_singleton])
    rw [intercalate_singleton] at split
    rw [if_neg empty, stringSplitNoalloc, if_neg empty, split]

theorem target_ordinary (address : List UInt8) (delim : Option (List UInt8)) : match target address delim with
    | .nothing => True
    | .top id => Ordinary delim id
    | .levels ids => ∃ d, delim = some d ∧ d ≠ [] ∧ Elements d ids := by
  unfold target
  by_cases some_ : address = []
  · rw [if_pos some_]
    exact trivial
  rw [if_neg some_]
  cases delim with
  | none => exact ⟨some_, fun _ none => nomatch none⟩
  | some d =>
    dsimp only
    by_cases empty : d = []
    · rw [if_pos empty]
      refine ⟨some_, fun other same nonempty => absurd ?_ nonempty⟩
      rw [← some.inj same, empty]
    · have elements := splitLoop_elements empty address.length address
      rw [if_neg empty, stringSplitNoalloc, if_neg empty]
      cases split : splitLoop d address.length address with
      | nil => exact trivial
      | cons first rest =>
        rw [split] at elements
        cases rest with
        | nil => exact Elements.ordinary rfl empty elements
        | cons next others => exact ⟨d, rfl, empty, elements⟩

theorem Heap.Valid.addItem (valid : heap.Valid delim) (address : List UInt8) (value : Option V) :
    (nestedListAddItem heap address delim value).1.Valid delim := by
  have asked := target_ordinary address delim
  rw [nestedListAddItem]
  cases wanted : target address delim with
  | nothing => exact valid
  | top id =>
    rw [wanted] at asked
    have placed : heap.Placed delim heap.items.length 0 none := rfl
    exact (valid.addItemToList (getElem?_eq_getElem valid.top) asked placed).1
  | levels ids =>
    rw [wanted] at asked
    obtain ⟨d, given, nonempty, elements⟩ := asked
    exact valid.addLoop given nonempty elements valid.top rfl

theorem start_valid (delim : Option (List UInt8)) : (Heap.start : Heap V).Valid delim := by
  have only : ∀ (l : Nat) (level : Level), (Heap.start : Heap V).lists[l]? = some level →
      level = (⟨[], fun _ => none⟩ : Level) := by
    intro l level at_
    cases l with
    | zero => exact (some.inj at_).symm
    | succ l => cases at_
  refine ⟨Nat.zero_lt_one, ?_, ?_, ?_, ?_, ?_, ?_⟩
  · intro l level at_ i
    rw [only l level at_]
    exact ⟨(fun none => nomatch none), fun ⟨_, absent, _⟩ => nomatch absent⟩
  · intro l level at_ id i
    rw [only l level at_]
    exact ⟨(fun none => nomatch none), fun ⟨_, absent, _⟩ => nomatch absent⟩
  · intro l level at_
    rw [only l level at_]
    exact nodup_nil
  all_goals exact fun _ _ none => nomatch none

theorem build_valid (delim : Option (List UInt8)) (calls : List (List UInt8 × Option V)) :
    (build delim calls).Valid delim := by
  rw [build]
  generalize begun : (Heap.start : Heap V) = heap
  have valid : heap.Valid delim := begun ▸ start_valid delim
  clear begun
  induction calls generalizing heap with
  | nil => exact valid
  | cons call rest ih => exact ih _ (valid.addItem call.1 call.2)

/-- At every level the array and the map hold the same items, each once and under an id of its own. -/
def Heap.Alike (heap : Heap V) : Prop :=
  ∀ (l : Nat) (level : Level), heap.lists[l]? = some level → level.items.Nodup ∧
    (∀ i, i ∈ level.items ↔ ∃ id, level.itemMap id = some i) ∧
    (∀ id i, level.itemMap id = some i → ∃ item : Item V, heap.items[i]? = some item ∧ item.id = id) ∧
    ∀ i ∈ level.items, ∀ j ∈ level.items, (heap.items[i]?).map Item.id = (heap.items[j]?).map Item.id → i = j

/-- An item whose address is taken is not added, and nothing changes. -/
def Heap.Rejects (heap : Heap V) (delim : Option (List UInt8)) : Prop :=
  ∀ address value i, nestedListGetItem heap address delim = some i →
    nestedListAddItem heap address delim value = (heap, false)

/-- An address that is written for an item finds it. -/
def Heap.Finds (heap : Heap V) (delim : Option (List UInt8)) (i : Nat) (s : List UInt8) (len : Nat) : Prop :=
  ∃ fuel ok out, nestedListItemGetAddress heap fuel i delim s len = some (ok, out) ∧
    (ok = true → nestedListGetItem heap out delim = some i)

/-- An id of the top level fits into the buffer for the address. -/
def Heap.Roomy (heap : Heap V) (delim : Option (List UInt8)) (i len : Nat) : Prop :=
  ∀ item : Item V, heap.items[i]? = some item → item.parentItem = none → delim ≠ none → 0 < len →
    item.id.length < len

theorem Heap.Valid.alike (valid : heap.Valid delim) : heap.Alike := by
  intro l level at_
  have keyed : ∀ i, i ∈ level.items → ∃ item : Item V, heap.items[i]? = some item ∧
      level.itemMap item.id = some i := by
    intro i listed
    obtain ⟨item, there, in_⟩ := (valid.listed l level at_ i).1 listed
    exact ⟨item, there, (valid.mapped l level at_ item.id i).2 ⟨item, there, in_, rfl⟩⟩
  refine ⟨valid.distinct l level at_, fun i => ⟨fun listed => ?_, ?_⟩, fun id i mapped => ?_, ?_⟩
  · obtain ⟨item, -, mapped⟩ := keyed i listed
    exact ⟨item.id, mapped⟩
  · rintro ⟨id, mapped⟩
    obtain ⟨item, there, in_, -⟩ := (valid.mapped l level at_ id i).1 mapped
    exact (valid.listed l level at_ i).2 ⟨item, there, in_⟩
  · obtain ⟨item, there, -, named⟩ := (valid.mapped l level at_ id i).1 mapped
    exact ⟨item, there, named⟩
  · intro i first j second same
    obtain ⟨item, there, mapped⟩ := keyed i first
    obtain ⟨other, elsewhere, also⟩ := keyed j second
    rw [there, elsewhere, map_some, map_some, some.injEq] at same
    rw [← same, mapped] at also
    exact some.inj also

theorem addItem_taken {address : List UInt8} {value : Option V}
    (taken : nestedListGetItem heap address delim = some i) :
    nestedListAddItem heap address delim value = (heap, false) := by
  rw [nestedListGetItem] at taken
  rw [nestedListAddItem]
  cases wanted : target address delim with
  | nothing => rfl
  | top id =>
    rw [wanted] at taken
    dsimp only at taken ⊢
    rw [addItemToList_taken taken]
    rfl
  | levels ids =>
    rw [wanted] at taken
    exact addLoop_taken taken

theorem Heap.Valid.reachable (valid : heap.Valid delim) (reached : heap.Reachable i) :
    ∃ item, heap.items[i]? = some item := by
  cases reached with
  | top first listed =>
    obtain ⟨item, there, -⟩ := (valid.listed _ _ first _).1 listed
    exact ⟨item, there⟩
  | child _ _ below listed =>
    obtain ⟨item, there, -⟩ := (valid.listed _ _ below _).1 listed
    exact ⟨item, there⟩

theorem Heap.Valid.finds_nested (valid : heap.Valid (some d)) (at_ : heap.items[i]? = some item)
    (nested : item.parentItem.isSome = true) {fuel : Nat} (enough : i < fuel) :
    ∃ ids, NestedList.fetchIds heap fuel i = some ids ∧ ((buildLoop d len ids.reverse []).1 = true →
        nestedListGetItem heap (buildLoop d len ids.reverse []).2 (some d) = some i) := by
  obtain ⟨ids, fetched, befores, some_, leads, -⟩ := valid.fetchIds at_ enough
  refine ⟨_, fetched, fun fits => ?_⟩
  obtain ⟨first, others, rfl⟩ := exists_cons_of_ne_nil (some_ nested)
  obtain ⟨_, given, nonempty, -⟩ := befores first mem_cons_self
  obtain rfl := some.inj given
  have elements : Elements d (item.id :: first :: others).reverse := by
    rw [reverse_cons]
    refine .snoc nonempty (fun id listed => ?_) ((valid.ids i item at_).2 d rfl nonempty)
    obtain ⟨_, same, -, inner⟩ := befores id (mem_reverse.1 listed)
    rw [some.inj same]
    exact inner
  rw [buildLoop_fits (by simp) fits, nil_append]
  have split := splitLoop_intercalate elements (Nat.le_refl _)
  -- There are at least two ids.
  generalize walk : (item.id :: first :: others).reverse = path at split leads elements
  have two : 2 ≤ path.length := by
    rw [← walk]
    simp
  match path, two, elements with
  | topmost :: next :: rest, _, elements =>
    have filled : d.intercalate (topmost :: next :: rest) ≠ [] := by
      rw [intercalate_cons_of_ne_nil (cons_ne_nil _ _)]
      simp [elements.1.1]
    rw [nestedListGetItem, target_levels nonempty filled split]
    exact leads

theorem Heap.Valid.finds_top (valid : heap.Valid (some d)) (at_ : heap.items[i]? = some item)
    (topmost : item.parentItem = none) (some_ : 0 < len) :
    nestedListGetItem heap (item.id.take (len - 1)) (some d) = some i ↔ item.id.length < len := by
  obtain ⟨named, ordinary⟩ := valid.ids i item at_
  have placed := valid.placed i item at_
  rw [topmost] at placed
  constructor
  · intro found
    by_contra short
    -- What is found has the id that is looked up, which is shorter.
    have length : (item.id.take (len - 1)).length = len - 1 := length_take_of_le (by omega)
    by_cases empty : item.id.take (len - 1) = []
    · rw [nestedListGetItem, target, if_pos empty] at found
      cases found
    · have whole : d ≠ [] → Whole d (item.id.take (len - 1)) := fun nonempty =>
        ⟨empty, (ordinary d rfl nonempty).take _⟩
      rw [nestedListGetItem, target_whole empty whole] at found
      obtain ⟨other, there, -, same⟩ := (valid.get valid.top).1 found
      obtain rfl := some.inj (at_.symm.trans there)
      rw [← same] at length
      omega
  · intro fits
    rw [take_of_length_le (by omega), nestedListGetItem,
      target_whole named fun nonempty => ordinary d rfl nonempty]
    exact (valid.get valid.top).2 ⟨item, at_, placed, rfl⟩

/-- In a nested list to which items were added with one delimiter the arrays and the maps are alike,
and addresses that are taken are rejected; the address of an item finds it just if it is not one of the
top level whose id is longer than the buffer. -/
theorem addresses_iff (delim : Option (List UInt8)) (calls : List (List UInt8 × Option V))
    (reached : (build delim calls).Reachable i) (s : List UInt8) (len : Nat) :
    ((build delim calls).Alike ∧ (build delim calls).Rejects delim ∧
        (build delim calls).Finds delim i s len) ↔ (build delim calls).Roomy delim i len := by
  have valid := build_valid delim calls
  generalize build delim calls = heap at valid reached
  obtain ⟨item, at_⟩ := valid.reachable reached
  have always : heap.Finds delim i s len ↔ heap.Roomy delim i len := by
    unfold Heap.Finds Heap.Roomy nestedListItemGetAddress
    cases delim with
    | none => exact ⟨fun _ _ _ _ given => absurd rfl given,
        fun _ => ⟨0, false, s, rfl, fun none => nomatch none⟩⟩
    | some d =>
      dsimp only
      by_cases some_ : len < 1
      · simp only [if_pos some_]
        exact ⟨fun _ _ _ _ _ given => absurd given (by omega),
          fun _ => ⟨0, false, s, rfl, fun none => nomatch none⟩⟩
      simp only [if_neg some_, at_, bind_some]
      by_cases nested : item.parentItem.isSome = true
      · -- An address that does not fit is reported.
        obtain ⟨ids, fetched, found⟩ := @Heap.Valid.finds_nested V d heap i len item valid at_ nested
          (i + 1) (Nat.lt_succ_self i)
        refine ⟨fun _ other there topmost => ?_, fun _ => ⟨i + 1, _, _, ?_, found⟩⟩
        · obtain rfl := some.inj there
          rw [topmost] at nested
          cases nested
        · rw [if_pos nested, fetched]
          rfl
      · have topmost : item.parentItem = none := by rwa [not_isSome_iff_eq_none] at nested
        have exact_ := @Heap.Valid.finds_top V d heap i len item valid at_ topmost (by omega)
        simp only [if_neg nested, some.injEq, Prod.mk.injEq]
        constructor
        · rintro ⟨_, ok, out, ⟨rfl, rfl⟩, found⟩ other there - - -
          obtain rfl := there
          exact exact_.1 (found rfl)
        · intro roomy
          exact ⟨0, true, _, ⟨rfl, rfl⟩, fun _ => exact_.2 (roomy item rfl topmost
            (fun none => nomatch none) (by omega))⟩
  exact ⟨fun ⟨_, _, finds⟩ => always.1 finds,
    fun roomy => ⟨valid.alike, fun _ _ _ taken => addItem_taken taken, always.2 roomy⟩⟩

/-- One item of three characters. -/
def single : Heap Nat := build (some [0x3A]) [([0x61, 0x62, 0x63], some 7)]

theorem single_reachable : single.Reachable 0 := @Heap.Reachable.top _ single ⟨[0], _⟩ 0 rfl mem_cons_self

/-- The address of the item is written to a buffer of eight bytes, and finds it. -/
theorem addresses_single : single.Finds (some [0x3A]) 0 [] 8 :=
  ((addresses_iff (some [0x3A]) [([0x61, 0x62, 0x63], some 7)] single_reachable [] 8).2
    fun item at_ _ _ _ => by
      obtain rfl := some.inj at_
      decide).2.2

/-- In a buffer of two bytes its address is cut off, and finds nothing. -/
theorem addresses_cut : ¬∀ (delim : Option (List UInt8)) (calls : List (List UInt8 × Option Nat))
    (i : Nat), (build delim calls).Reachable i → ∀ (s : List UInt8) (len : Nat),
      (build delim calls).Alike ∧ (build delim calls).Rejects delim ∧
        (build delim calls).Finds delim i s len := by
  intro claimed
  obtain ⟨-, -, fuel, ok, out, written, finds⟩ :=
    claimed (some [0x3A]) [([0x61, 0x62, 0x63], some 7)] 0 single_reachable [] 2
  have address : (true, [0x61]) = (ok, out) := some.inj written
  obtain ⟨rfl, rfl⟩ := Prod.mk.inj address
  have missing : nestedListGetItem single [0x61] (some [0x3A]) = none := by decide
  exact absurd (missing.symm.trans (finds rfl)) (by decide)

end Addresses

end Libretro.NestedList
