import Libretro.Files.ConfigSave
import Libretro.Files.ConfigSort
import Libretro.Files.ConfigSorted
import Libretro.Files.ConfigParsing

/-! The values that are got from a configuration, and where they are missing in any history of calls. -/

namespace Libretro.ConfigFile

open CString

/-- What a call that gets a value comes to: it reads nothing where the value is missing. -/
inductive Outcome (Answer : Type) where
  | failed
  | faulted
  | got (answer : Answer)

/-- What is got. -/
inductive Answer (Real : Type) where
  | real (value : Real)
  | number (value : Int)
  | char (value : UInt8)
  | text (value : List UInt8)
  | flag (value : Bool)

/-- What `strtol` and its like leave: the number, whether `errno` is set, and the place of `end`. -/
structure Scanned where
  number : Int
  errno : Bool
  stop : Nat

/-- The scanners of numbers in the C library, and `rstrtod`. -/
structure Numbers (Real : Type) where
  rstrtod : List UInt8 → Real
  rstrtof : List UInt8 → Real
  strtol : List UInt8 → Nat → Scanned
  strtoul : List UInt8 → Nat → Scanned
  strtoull : List UInt8 → Nat → Scanned

/-- The number, if it is the whole value and within limits. -/
def Scanned.within (scanned : Scanned) (value : List UInt8) (least most : Int) : Option Int :=
  if scanned.errno ∨ scanned.stop = 0 ∨ byteAt value scanned.stop ≠ 0 then none
  else if scanned.number < least ∨ most < scanned.number then none
  else some scanned.number

section Getters

variable {Real : Type} (numbers : Numbers Real) (conf : Config (List UInt8)) (key : List UInt8)

/-- An entry's value is read as it is there, whatever is then made of it. -/
def Config.readValue (made : List UInt8 → Option (Answer Real)) : Outcome (Answer Real) :=
  match conf.getEntry id key with
  | none => .failed
  | some node =>
    match conf.valueAt id node with
    | none => .faulted
    | some value => match made value with
      | none => .failed
      | some answer => .got answer

/-- `config_get_double`. -/
def configGetDouble : Outcome (Answer Real) :=
  conf.readValue key fun value => some (.real (numbers.rstrtod value))

/-- `config_get_float`. -/
def configGetFloat : Outcome (Answer Real) :=
  conf.readValue key fun value => some (.real (numbers.rstrtof value))

/-- `config_get_int`. -/
def configGetInt : Outcome (Answer Real) :=
  conf.readValue key fun value =>
    ((numbers.strtol value 0).within value (-2 ^ 31) (2 ^ 31 - 1)).map .number

/-- `config_get_size_t`. -/
def configGetSizeT : Outcome (Answer Real) :=
  conf.readValue key fun value =>
    ((numbers.strtoul value 0).within value 0 (2 ^ 64 - 1)).map .number

/-- `config_get_uint64`. -/
def configGetUint64 : Outcome (Answer Real) :=
  conf.readValue key fun value =>
    ((numbers.strtoull value 0).within value 0 (2 ^ 64 - 1)).map .number

/-- `config_get_uint`. -/
def configGetUint : Outcome (Answer Real) :=
  conf.readValue key fun value =>
    ((numbers.strtoul value 0).within value 0 (2 ^ 32 - 1)).map .number

/-- `config_get_hex`. -/
def configGetHex : Outcome (Answer Real) :=
  conf.readValue key fun value =>
    ((numbers.strtoul value 16).within value 0 (2 ^ 32 - 1)).map .number

/-- `config_get_char`. -/
def configGetChar : Outcome (Answer Real) :=
  conf.readValue key fun value =>
    if byteAt value 0 ≠ 0 ∧ byteAt value 1 ≠ 0 then none else some (.char (byteAt value 0))

/-- `config_get_string`, which looks whether there is a value. -/
def configGetString : Outcome (Answer Real) :=
  match conf.getEntry id key with
  | none => .failed
  | some node =>
    match conf.valueAt id node with
    | none => .failed
    | some value => .got (.text value)

/-- `config_get_array`, and `config_get_path`. -/
def configGetArray (len : Nat) : Outcome (Answer Real) :=
  conf.readValue key fun value => if value.length < len then some (.text value) else none

/-- The bytes of `true` and of `false`. -/
def trueText : List UInt8 := [0x74, 0x72, 0x75, 0x65]

@[inherit_doc trueText]
def falseText : List UInt8 := [0x66, 0x61, 0x6c, 0x73, 0x65]

/-- `config_get_bool`. -/
def configGetBool : Outcome (Answer Real) :=
  conf.readValue key fun value =>
    if value = [0x31] ∨ value = trueText then some (.flag true)
    else if value = [0x30] ∨ value = falseText then some (.flag false)
    else none

/-- The calls that get a value by its key. -/
inductive Getter where
  | double | float | int | sizeT | uint64 | uint | hex | char | string | bool
  | array (len : Nat)
  | path (len : Nat)

/-- What a call comes to. -/
def Getter.get : Getter → Outcome (Answer Real)
  | .double => configGetDouble numbers conf key
  | .float => configGetFloat numbers conf key
  | .int => configGetInt numbers conf key
  | .sizeT => configGetSizeT numbers conf key
  | .uint64 => configGetUint64 numbers conf key
  | .uint => configGetUint numbers conf key
  | .hex => configGetHex numbers conf key
  | .char => configGetChar conf key
  | .string => configGetString conf key
  | .bool => configGetBool conf key
  | .array len | .path len => configGetArray conf key len

end Getters

/-- The value of a node is handed out, and the node has none then. -/
def Config.giveValue (conf : Config (List UInt8)) (node : Nat) : Config (List UInt8) :=
  { conf with entries := conf.entries.modify node fun entry => { entry with value := none } }

/-- `config_take_string` would hand out the value of a key: it is there and not empty. -/
def Config.takes (conf : Config (List UInt8)) (key : List UInt8) : Bool :=
  match (conf.getEntry id key).bind (conf.valueAt id) with
  | none => false
  | some value => !value.isEmpty

/-- `config_take_string`, by what it leaves. -/
def Config.takeString (conf : Config (List UInt8)) (key : List UInt8) : Config (List UInt8) :=
  match conf.getEntry id key with
  | none => conf
  | some node => if conf.takes key then conf.giveValue node else conf

/-- `config_file_append_conf`: the other's list is put in front, and its keys replace those that are
there; the places in the list move up by the other's length. -/
def Config.appendConf (conf other : Config (List UInt8)) : Config (List UInt8) :=
  let front := if other.tail.isSome then other.upToTail else []
  { conf with
    entries := front ++ conf.entries
    tail := if conf.entries.isEmpty then other.tail else conf.tail.map (front.length + ·)
    entriesMap :=
      ((conf.entriesMap.filter fun node =>
        !other.entriesMap.any fun node' => other.keyAt id node' == conf.keyAt id node).map
          (front.length + ·)) ++ other.entriesMap }

/-- How the list's places are ordered when the list itself is sorted. -/
def Config.sortedPlaces (conf : Config (List UInt8)) : List Nat :=
  RunMerge.mergeUntil (fun one other => Entry.sortCmp id (conf.entries.getD one {})
    (conf.entries.getD other {})) (conf.entries.length + 1) 1 (List.range conf.entries.length)

/-- The list in another order of its places. -/
def Config.reorder (conf : Config (List UInt8)) (places : List Nat) : Config (List UInt8) :=
  { conf with
    entries := places.map fun place => conf.entries.getD place {}
    tail := if places.isEmpty then none else some (places.length - 1)
    entriesMap := conf.entriesMap.map fun place => places.idxOf place }

/-- `config_file_dump`, by what it leaves: where there is no memory for an array, the list itself is
sorted, if any of it is written. -/
def Config.dumped (conf : Config (List UInt8)) (sort array : Bool) : Config (List UInt8) :=
  let after := (conf.dump id sort).1
  if sort && !array && conf.entries.any Entry.serialisable then
    after.reorder conf.sortedPlaces
  else after

/-- How a configuration came to be: from a text, by calls, and from another one's history. -/
inductive History where
  | parsed (text : List UInt8) (path : Option (List UInt8)) (borrow guaranteed : Bool)
  | set (before : History) (key value : List UInt8)
  | unset (before : History) (key : List UInt8)
  | take (before : History) (key : List UInt8)
  | append (before other : History)
  | dump (before : History) (sort array : Bool)

/-- The configuration that a history ends in. -/
def History.live (world : World) : History → Flagged (List UInt8)
  | .parsed text path borrow guaranteed =>
    { conf := contents (if borrow then newTakeString world text path
        else newFromString world text path)
      guaranteedNoDuplicates := guaranteed }
  | .set before key value => (before.live world).setString id id key value
  | .unset before key => (before.live world).unset id key
  | .take before key => { before.live world with conf := (before.live world).conf.takeString key }
  | .append before other =>
    { before.live world with conf := (before.live world).conf.appendConf (other.live world).conf }
  | .dump before sort array => { before.live world with conf := (before.live world).conf.dumped sort array }

/-- The configurations that a history goes through, those of the others in it among them. -/
def History.states (world : World) : History → List (Config (List UInt8))
  | .parsed text path borrow guaranteed => [((History.parsed text path borrow guaranteed).live world).conf]
  | .set before key value => before.states world ++ [((before.set key value).live world).conf]
  | .unset before key => before.states world ++ [((before.unset key).live world).conf]
  | .take before key => before.states world ++ [((before.take key).live world).conf]
  | .append before other =>
    before.states world ++ other.states world ++ [((before.append other).live world).conf]
  | .dump before sort array => before.states world ++ [((before.dump sort array).live world).conf]

/-- No call of a history hands a value out: each `config_take_string` finds none, or an empty one. -/
def History.TakesNothing (world : World) : History → Prop
  | .parsed .. => True
  | .set before _ _ | .unset before _ | .dump before _ _ => before.TakesNothing world
  | .take before key => before.TakesNothing world ∧ (before.live world).conf.takes key = false
  | .append before other => before.TakesNothing world ∧ other.TakesNothing world

open List Option Config

variable {conf child : Config (List UInt8)} {key value : List UInt8} {node : Nat} {world : World}

/-- A node that can be looked up: it has a key and a value. -/
def Config.Full (conf : Config (List UInt8)) (node : Nat) : Prop :=
  ∃ entry, conf.entries[node]? = some entry ∧ entry.key.isSome = true ∧ entry.value.isSome = true

/-- The tail is the last node, and what the map has has a key and a value. -/
structure Config.Sound (conf : Config (List UInt8)) : Prop where
  tail : conf.tail = if conf.entries.isEmpty then none else some (conf.entries.length - 1)
  mapped : ∀ node ∈ conf.entriesMap, conf.Full node

/-- No call that gets a value reads one that is missing. -/
def Config.Safe (conf : Config (List UInt8)) : Prop :=
  ∀ {Real : Type} (numbers : Numbers Real) (key : List UInt8) (getter : Getter),
    getter.get numbers conf key ≠ .faulted

theorem Config.readValue_faulted {Real : Type} {made : List UInt8 → Option (Answer Real)} :
    conf.readValue key made = .faulted ↔
      ∃ node, conf.getEntry id key = some node ∧ conf.valueAt id node = none := by
  rw [readValue]
  cases found : conf.getEntry id key with
  | none => simp
  | some node =>
    cases has : conf.valueAt id node with
    | none => simp [has]
    | some value =>
      cases answers : made value <;> simp [has, answers]

theorem Getter.get_reads {Real : Type} (numbers : Numbers Real) (conf : Config (List UInt8))
    (key : List UInt8) (getter : Getter) :
    getter = .string ∨ ∃ made, getter.get numbers conf key = conf.readValue key made := by
  cases getter with
  | string => exact .inl rfl
  | double => exact .inr ⟨fun value => some (.real (numbers.rstrtod value)), rfl⟩
  | float => exact .inr ⟨fun value => some (.real (numbers.rstrtof value)), rfl⟩
  | _ => exact .inr ⟨_, rfl⟩

theorem Config.safe_iff : conf.Safe ↔ ∀ key node, conf.getEntry id key = some node →
      conf.valueAt id node ≠ none := by
  constructor
  · intro safe key node found missing
    have numbers : Numbers Unit :=
      ⟨fun _ => (), fun _ => (), fun _ _ => ⟨0, true, 0⟩, fun _ _ => ⟨0, true, 0⟩, fun _ _ => ⟨0, true, 0⟩⟩
    exact safe numbers key .bool (readValue_faulted.2 ⟨node, found, missing⟩)
  · intro full Real numbers key getter faulted
    rcases getter.get_reads numbers conf key with rfl | ⟨made, reads⟩
    · -- This call looks for the value before it reads it.
      rw [Getter.get, configGetString] at faulted
      split at faulted
      · cases faulted
      · split at faulted <;> cases faulted
    · rw [reads, readValue_faulted] at faulted
      obtain ⟨node, found, missing⟩ := faulted
      exact full key node found missing

theorem Config.Sound.safe (sound : conf.Sound) : conf.Safe := by
  rw [safe_iff]
  intro key node found none
  obtain ⟨entry, is, -, has⟩ := sound.mapped node (mem_of_find?_eq_some found)
  rw [valueAt, is, bind_some, map_eq_none_iff] at none
  rw [none] at has
  cases has

theorem Config.Sound.upToTail (sound : conf.Sound) : conf.upToTail = conf.entries := by
  rw [Config.upToTail, sound.tail]
  cases entries : conf.entries with
  | nil => rfl
  | cons first rest => simp

theorem Config.Sound.behindTail (sound : conf.Sound) : conf.behindTail = conf.entries := by
  rw [Config.behindTail, sound.tail]
  cases entries : conf.entries with
  | nil => rfl
  | cons first rest => simp

theorem Config.Sound.insertNew (sound : conf.Sound)
    (full : ∀ key, conf.keyAt id node = some key → conf.Full node) :
    (conf.insertNew id node).Sound := by
  rw [Config.insertNew]
  split
  · exact sound
  · next key keyed =>
    split
    · exact sound
    · refine ⟨sound.tail, fun other listed => ?_⟩
      rcases mem_append.1 listed with listed | listed
      · exact sound.mapped other listed
      · rw [mem_singleton.1 listed]
        exact full key keyed

theorem Config.Sound.inserts (sound : conf.Sound) (nodes : List Nat) (full : ∀ node ∈ nodes, conf.Full node) :
    (nodes.foldl (Config.insertNew id) conf).Sound := by
  induction nodes generalizing conf with
  | nil => exact sound
  | cons node nodes ih =>
    rw [foldl_cons]
    refine ih (sound.insertNew fun _ _ => full node mem_cons_self) fun other listed => ?_
    rw [Config.Full, insertNew_entries]
    exact full other (mem_cons_of_mem _ listed)

theorem Config.Sound.append (sound : conf.Sound) {entry : Entry (List UInt8)}
    (both : entry.key.isSome = true → entry.value.isSome = true) :
    (conf.append id entry).Sound := by
  rw [Config.append, sound.upToTail]
  apply Config.Sound.insertNew
  · refine ⟨?_, fun node listed => ?_⟩
    · simp
    · obtain ⟨other, is, full⟩ := sound.mapped node listed
      refine ⟨other, ?_, full⟩
      exact getElem?_append_left (List.getElem?_eq_some_iff.1 is).1 ▸ is
  · intro key keyed
    rw [keyAt, getElem?_append_right (Nat.le_refl _), Nat.sub_self] at keyed
    have some : entry.key.isSome = true := by
      obtain ⟨text, is, -⟩ := map_eq_some_iff.1 keyed
      rw [is]
      rfl
    refine ⟨entry, ?_, some, both some⟩
    rw [getElem?_append_right (Nat.le_refl _), Nat.sub_self]
    rfl

theorem Config.Sound.splice (sound : conf.Sound) (childSound : child.Sound) :
    (conf.splice child.marked).Sound ∧
      ∀ node ∈ child.entriesMap, (conf.splice child.marked).Full (conf.upToTail.length + node) := by
  have entries : (conf.splice child.marked).entries = conf.entries ++ child.marked.entries := by
    rw [Config.splice, sound.upToTail]
  have length : child.marked.entries.length = child.entries.length := length_map _
  have tail := congrArg Config.tail (Config.splice.eq_1 conf child.marked)
  refine ⟨⟨?_, fun node listed => ?_⟩, fun node listed => ?_⟩
  · rw [tail, entries]
    dsimp only
    rw [show child.marked.tail = child.tail from rfl, childSound.tail, sound.upToTail]
    cases none : child.entries with
    | nil => rfl
    | cons first rest =>
      rw [none] at length
      have some : child.marked.entries ≠ [] := by
        intro empty
        rw [empty] at length
        cases length
      simp [length, some]
  · obtain ⟨entry, is, full⟩ := sound.mapped node listed
    refine ⟨entry, ?_, full⟩
    rw [entries, getElem?_append_left (List.getElem?_eq_some_iff.1 is).1, is]
  · obtain ⟨entry, is, full⟩ := childSound.mapped node listed
    refine ⟨{ entry with readonly := true }, ?_, full⟩
    rw [entries, sound.upToTail, getElem?_append_right (Nat.le_add_right ..),
      Nat.add_sub_cancel_left, marked, getElem?_map, is]
    rfl

theorem Config.Sound.addChildList (sound : conf.Sound) (childSound : child.Sound) :
    (conf.addChildList id child).Sound := by
  obtain ⟨spliced, full⟩ := sound.splice childSound
  rw [Config.addChildList]
  split
  · next empty =>
    refine ⟨spliced.tail, fun node listed => ?_⟩
    have none : conf.entries = [] := List.isEmpty_iff.1 empty
    have here := full node listed
    rw [sound.upToTail, none, length_nil, Nat.zero_add] at here
    exact here
  · apply spliced.inserts
    intro node listed
    obtain ⟨place, inside, rfl⟩ := mem_map.1 listed
    exact full place inside

theorem Config.Sound.text (sound : conf.Sound) {load : Nat → List UInt8 → Option (Config (List UInt8))}
    (loads : ∀ depth path child, load depth path = some child → child.Sound) (text : List UInt8) :
    (conf.text world load text).Sound := by
  rw [Config.text]
  induction textLines text generalizing conf with
  | nil => exact sound
  | cons line lines ih =>
    rw [foldl_cons]
    apply ih
    have bare : ∀ {conf : Config (List UInt8)}, conf.Sound → (conf.append id {}).Sound :=
      fun sound => sound.append (by rintro ⟨⟩)
    rw [Config.line]
    split
    · exact sound
    · split
      · exact sound
      · next path _ _ =>
        have listed : (conf.addSubConf path).Sound := ⟨sound.tail, sound.mapped⟩
        apply bare
        split
        · exact listed
        · next child loaded =>
          exact listed.addChildList (loads _ _ _ loaded)
    · next path _ =>
      have referred : (conf.addReference world path).Sound := ⟨sound.tail, sound.mapped⟩
      exact bare referred
    · exact sound.append fun _ => rfl

theorem Config.sound_empty (path : Option (List UInt8)) (depth : Nat) :
    ({ path, includeDepth := depth } : Config (List UInt8)).Sound :=
  ⟨rfl, nofun⟩

theorem expand_sound (levels depth : Nat) (path : List UInt8)
    (loaded : expand world levels depth path = some child) : child.Sound := by
  induction levels generalizing depth path child with
  | zero => cases loaded
  | succ levels ih =>
    rw [expand, map_eq_some_iff] at loaded
    obtain ⟨text, -, rfl⟩ := loaded
    exact (sound_empty _ _).text (fun depth path child => ih depth path) text

theorem parsed_sound (text : List UInt8) (path : Option (List UInt8)) (borrow guaranteed : Bool) :
    ((History.parsed text path borrow guaranteed).live world).conf.Sound := by
  have parsed : ∀ borrow, (contents (Memory.parse [text] world (loadInternal world maxIncludeDepth)
      (newConfig path) 0 borrow)).Sound := by
    intro borrow
    rw [parse_string]
    exact (sound_empty _ 0).text (fun depth path child => expand_sound _ depth path) text
  rw [History.live]
  cases borrow with
  | true => exact parsed true
  | false => exact parsed false

theorem Config.Sound.modified (sound : conf.Sound) {after : Config (List UInt8)}
    (replace : Entry (List UInt8) → Entry (List UInt8))
    (entries : after.entries = conf.entries.modify node replace) (tail : after.tail = conf.tail)
    (map : ∀ other ∈ after.entriesMap, other ∈ conf.entriesMap)
    (full : node ∈ after.entriesMap → ∀ entry, entry.key.isSome = true →
      entry.value.isSome = true → (replace entry).key.isSome = true ∧
        (replace entry).value.isSome = true) : after.Sound := by
  refine ⟨?_, fun other listed => ?_⟩
  · rw [tail, sound.tail, entries, length_modify]
    have same : (conf.entries.modify node replace).isEmpty = conf.entries.isEmpty := by
      rw [Bool.eq_iff_iff, List.isEmpty_iff, List.isEmpty_iff, modify_eq_nil_iff]
    rw [same]
  · obtain ⟨entry, is, keyed, has⟩ := sound.mapped other (map other listed)
    rw [Config.Full, entries, getElem?_modify, is]
    by_cases same : node = other
    · subst same
      exact ⟨replace entry, by simp, full listed entry keyed has⟩
    · exact ⟨entry, by simp [same], keyed, has⟩

theorem Config.Sound.setString {live : Flagged (List UInt8)} (sound : live.conf.Sound)
    (key value : List UInt8) : (live.setString id id key value).conf.Sound := by
  rw [Flagged.setString]
  split
  · split
    · exact sound
    · exact sound.modified _ rfl rfl (fun _ listed => listed) fun _ _ keyed _ => ⟨keyed, rfl⟩
  · dsimp only
    rw [insertSet, sound.behindTail]
    refine ⟨by simp, fun node listed => ?_⟩
    rcases mem_append.1 listed with listed | listed
    · obtain ⟨entry, is, full⟩ := sound.mapped node (mem_filter.1 listed).1
      refine ⟨entry, ?_, full⟩
      exact getElem?_append_left (List.getElem?_eq_some_iff.1 is).1 ▸ is
    · rw [mem_singleton.1 listed]
      refine ⟨{ key := some key, value := some value }, ?_, rfl, rfl⟩
      rw [getElem?_append_right (Nat.le_refl _), Nat.sub_self]
      rfl

theorem Config.Sound.unset {live : Flagged (List UInt8)} (sound : live.conf.Sound)
    (key : List UInt8) : (live.unset id key).conf.Sound := by
  rw [Flagged.unset]
  split
  · exact sound
  · next node found =>
    refine sound.modified _ rfl rfl (fun other listed => (mem_filter.1 listed).1) ?_
    intro listed
    have keyed := @find?_some _ (fun node => live.conf.keyAt id node == some key) _ _ found
    have other := (mem_filter.1 listed).2
    rw [bne, keyed] at other
    cases other

theorem Config.takeString_idle (idle : conf.takes key = false) : conf.takeString key = conf := by
  rw [takeString, idle]
  split <;> rfl

theorem Config.takeString_missing (takes : conf.takes key = true) : ¬(conf.takeString key).Safe := by
  have given := takes
  rw [Config.takes] at given
  cases found : conf.getEntry id key with
  | none =>
    rw [found] at given
    cases given
  | some node =>
    have after : conf.takeString key = conf.giveValue node := by
      rw [takeString, found]
      exact if_pos takes
    -- The keys of the nodes are as they were, so the node is found as before.
    have keys : ∀ other, (conf.giveValue node).keyAt id other = conf.keyAt id other := by
      intro other
      rw [keyAt, keyAt, giveValue, getElem?_modify]
      cases conf.entries[other]? with
      | none => rfl
      | some entry => split <;> rfl
    have finds : (conf.giveValue node).getEntry id key = some node := by
      rw [getEntry] at found ⊢
      simp only [keys]
      exact found
    rw [after, safe_iff]
    intro full
    apply full key node finds
    rw [valueAt, giveValue, getElem?_modify]
    cases conf.entries[node]? with
    | none => rfl
    | some entry => simp

theorem Config.Sound.appendConf {other : Config (List UInt8)} (sound : conf.Sound)
    (also : other.Sound) : (conf.appendConf other).Sound := by
  have front : (if other.tail.isSome then other.upToTail else []) = other.entries := by
    rw [also.upToTail, also.tail]
    cases other.entries with
    | nil => rfl
    | cons first rest => rfl
  rw [Config.appendConf, front]
  refine ⟨?_, fun node listed => ?_⟩
  · dsimp only
    rw [also.tail, sound.tail]
    cases conf.entries with
    | nil => simp
    | cons first rest => simp
  · rcases mem_append.1 listed with listed | listed
    · obtain ⟨place, kept, rfl⟩ := mem_map.1 listed
      obtain ⟨entry, is, full⟩ := sound.mapped place (mem_filter.1 kept).1
      refine ⟨entry, ?_, full⟩
      rw [getElem?_append_right (Nat.le_add_right ..), Nat.add_sub_cancel_left, is]
    · obtain ⟨entry, is, full⟩ := also.mapped node listed
      refine ⟨entry, ?_, full⟩
      rw [getElem?_append_left (List.getElem?_eq_some_iff.1 is).1, is]

theorem Config.sortedPlaces_perm : conf.sortedPlaces.Perm (range conf.entries.length) := by
  rw [sortedPlaces]
  have ranks := @sortCmp_ranks _ _ id fun place => conf.entries.getD place ({} : Entry (List UInt8))
  apply (RunMerge.mergeUntil_stable ranks (by decide) _ (Nat.succ_pos _)
    (RunMerge.runs_one _)).perm
  rw [length_range, Nat.one_mul]
  exact ((Nat.lt_succ_self _).trans Nat.lt_two_pow_self).le

theorem Config.Sound.dumped (sound : conf.Sound) (sort array : Bool) : (conf.dumped sort array).Sound := by
  have written : (conf.dump id sort).1.Sound := ⟨sound.tail, sound.mapped⟩
  rw [Config.dumped]
  split
  · have perm := @Config.sortedPlaces_perm conf
    generalize conf.sortedPlaces = places at perm
    refine ⟨?_, fun node listed => ?_⟩
    · simp [reorder]
    · obtain ⟨place, mapped, rfl⟩ := mem_map.1 listed
      obtain ⟨entry, is, full⟩ := sound.mapped place mapped
      have inside : place ∈ places := perm.mem_iff.2 (mem_range.2 (List.getElem?_eq_some_iff.1 is).1)
      refine ⟨entry, ?_, full⟩
      show (places.map fun place => conf.entries.getD place {})[places.idxOf place]? = _
      rw [getElem?_map, getElem?_eq_getElem (idxOf_lt_length_of_mem inside),
        getElem_idxOf, map_some, getD_eq_getElem?_getD, is, getD_some]
  · exact written

theorem History.sound (history : History) (nothing : history.TakesNothing world) :
    (history.live world).conf.Sound := by
  induction history with
  | parsed text path borrow guaranteed => exact parsed_sound text path borrow guaranteed
  | set before key value ih => exact (ih nothing).setString key value
  | unset before key ih => exact (ih nothing).unset key
  | take before key ih =>
    show ((before.live world).conf.takeString key).Sound
    rw [takeString_idle nothing.2]
    exact ih nothing.1
  | append before other ih ih' => exact (ih nothing.1).appendConf (ih' nothing.2)
  | dump before sort array ih => exact (ih nothing).dumped sort array

/-- Calls that get values never read a missing one in any state of a history just when no call of it
hands a value out. -/
theorem getters_safe_iff (world : World) (history : History) :
    (∀ conf ∈ history.states world, conf.Safe) ↔ history.TakesNothing world := by
  have last : ∀ history : History, (history.live world).conf ∈ history.states world := by
    intro history
    cases history <;> simp [History.states]
  have step : ∀ {before after : History}, after.states world =
      before.states world ++ [(after.live world).conf] →
      (after.TakesNothing world ↔ before.TakesNothing world) →
      ((∀ conf ∈ before.states world, conf.Safe) ↔ before.TakesNothing world) →
      ((∀ conf ∈ after.states world, conf.Safe) ↔ after.TakesNothing world) := by
    intro before after states same ih
    rw [states, same, ← ih]
    constructor
    · exact fun safe conf listed => safe conf (mem_append_left _ listed)
    · intro safe conf listed
      rcases mem_append.1 listed with listed | listed
      · exact safe conf listed
      · rw [mem_singleton.1 listed]
        exact (after.sound (same.2 (ih.1 safe))).safe
  induction history with
  | parsed text path borrow guaranteed =>
    refine iff_of_true (fun conf listed => ?_) trivial
    rw [mem_singleton.1 listed]
    exact (parsed_sound text path borrow guaranteed).safe
  | set before key value ih => exact step rfl Iff.rfl ih
  | unset before key ih => exact step rfl Iff.rfl ih
  | dump before sort array ih => exact step rfl Iff.rfl ih
  | take before key ih =>
    have safe_of : (before.take key).TakesNothing world →
        ∀ conf ∈ (before.take key).states world, conf.Safe := by
      intro nothing conf listed
      rcases mem_append.1 listed with listed | listed
      · exact ih.2 nothing.1 conf listed
      · rw [mem_singleton.1 listed]
        exact ((before.take key).sound nothing).safe
    refine ⟨fun safe => ⟨ih.1 fun conf listed => safe conf (mem_append_left _ listed), ?_⟩, safe_of⟩
    by_contra given
    exact Config.takeString_missing (Bool.eq_true_of_not_eq_false given) (safe _ (last (before.take key)))
  | append before other ih ih' =>
    constructor
    · intro safe
      refine ⟨ih.1 fun conf listed => ?_, ih'.1 fun conf listed => ?_⟩
      · exact safe conf (mem_append_left _ (mem_append_left _ listed))
      · exact safe conf (mem_append_left _ (mem_append_right _ listed))
    · intro nothing conf listed
      rcases mem_append.1 listed with listed | listed
      · rcases mem_append.1 listed with listed | listed
        · exact ih.2 nothing.1 conf listed
        · exact ih'.2 nothing.2 conf listed
      · rw [mem_singleton.1 listed]
        exact ((before.append other).sound nothing).safe

/-- A value that was taken is read as a flag: `a = "1"`, once `config_take_string` took it. -/
theorem getters_faulted_taken :
    (configGetBool (((History.parsed [0x61, 0x20, 0x3d, 0x20, 0x22, 0x31, 0x22] none false
      false).take [0x61]).live noFiles).conf [0x61] : Outcome (Answer Unit)) = .faulted := by
  rfl

end Libretro.ConfigFile
