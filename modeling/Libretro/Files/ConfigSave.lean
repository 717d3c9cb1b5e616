import Libretro.Files.ConfigKeys
import Libretro.Files.ConfigParsing
import Libretro.Files.ConfigSlots
import Mathlib.Data.List.Lex

/-! When edits survive a save and a reload, and the lengths that entries cache. -/

namespace Libretro.ConfigFile

open CString List Option Config Entry Text

section Texts

variable {text line : List UInt8} {world : World} {conf : Config (List UInt8)}

/-- The key and the value of a line. -/
def lineEntry (line : List UInt8) : Option (List UInt8 × List UInt8) :=
  match lineSays line with
  | .entry key value => some (key, value)
  | _ => none

/-- The keys and values of the lines of a text, in their order. -/
def textEntries (text : List UInt8) : List (List UInt8 × List UInt8) := (textLines text).filterMap lineEntry

/-- The values that a text has under a key, in their order. -/
def occurrences (text key : List UInt8) : List (List UInt8) :=
  (textEntries text).filterMap fun entry => if entry.1 = key then some entry.2 else none

/-- No line of a text includes or refers to a file. -/
def Plain (text : List UInt8) : Prop :=
  ∀ line ∈ textLines text, ∀ path, lineSays line ≠ .included path ∧ lineSays line ≠ .referenced path

/-- The node of an entry. -/
def entryNode (entry : List UInt8 × List UInt8) : Node where
  key := some entry.1
  value := some entry.2

theorem mem_lines (listed : line ∈ lines text) : newline ∉ line ∧ ∀ byte ∈ line, byte ∈ text := by
  induction text generalizing line with
  | nil =>
    obtain rfl := mem_singleton.1 listed
    exact ⟨nofun, nofun⟩
  | cons byte text ih =>
    rw [lines] at listed
    by_cases ends : byte = newline
    · rw [if_pos ends] at listed
      rcases mem_cons.1 listed with rfl | listed
      · exact ⟨nofun, nofun⟩
      · exact ⟨(ih listed).1, fun byte is => mem_cons_of_mem _ ((ih listed).2 byte is)⟩
    · rw [if_neg ends] at listed
      cases shape : lines text with
      | nil => exact absurd shape (lines_ne_nil text)
      | cons first more =>
        rw [shape] at listed ih
        have later : ∀ {line}, line ∈ more →
            newline ∉ line ∧ ∀ other ∈ line, other ∈ byte :: text := fun listed =>
          have own := ih (mem_cons_of_mem _ listed)
          ⟨own.1, fun other is => mem_cons_of_mem _ (own.2 other is)⟩
        rcases mem_cons.1 listed with rfl | listed
        · obtain ⟨whole, own⟩ := ih mem_cons_self
          refine ⟨?_, fun other is => ?_⟩
          · rw [mem_cons, not_or]
            exact ⟨fun same => ends same.symm, whole⟩
          · rcases mem_cons.1 is with rfl | is
            · exact mem_cons_self
            · exact mem_cons_of_mem _ (own other is)
        · exact later listed

theorem mem_textLines (listed : line ∈ textLines text) : (0 : UInt8) ∉ line ∧ newline ∉ line := by
  obtain ⟨whole, own⟩ := mem_lines (mem_of_mem_filter listed)
  refine ⟨fun zero => ?_, whole⟩
  exact absurd (all_eq_true.1 all_takeWhile 0 (own 0 zero)) (by decide)

theorem textEntries_fits {key value : List UInt8} (listed : (key, value) ∈ textEntries text) :
    KeyFits key ∧ (0 : UInt8) ∉ value ∧ newline ∉ value := by
  obtain ⟨line, parsed, is⟩ := mem_filterMap.1 listed
  obtain ⟨clear, whole⟩ := mem_textLines parsed
  rw [lineEntry] at is
  split at is
  · rename_i entry
    cases is
    exact lineSays_fits clear whole entry
  · cases is

theorem textNodes_plain (plain : Plain text) (follow : Option (List UInt8 → List Node)) :
    textNodes follow text = (textEntries text).map entryNode := by
  rw [textNodes, textEntries]
  rw [Plain] at plain
  generalize textLines text = lines at plain
  induction lines with
  | nil => rfl
  | cons line lines ih =>
    have none := plain line mem_cons_self
    rw [flatMap_cons, ih fun line listed => plain line (mem_cons_of_mem _ listed),
      lineNodes, filterMap_cons, lineEntry]
    cases entry : lineSays line with
    | nothing => rfl
    | included path => exact absurd entry (none path).1
    | referenced path => exact absurd entry (none path).2
    | entry key value => rfl

theorem Config.text_plain (plain : Plain text) (load : Nat → List UInt8 → Option (Config (List UInt8))) :
    (conf.text world load text).includes = conf.includes ∧
      (conf.text world load text).references = conf.references := by
  rw [Config.text]
  rw [Plain] at plain
  generalize textLines text = lines at plain
  induction lines generalizing conf with
  | nil => exact ⟨rfl, rfl⟩
  | cons line lines ih =>
    have none := plain line mem_cons_self
    obtain ⟨includes, references⟩ := @ih (conf.line world load line)
      fun line listed => plain line (mem_cons_of_mem _ listed)
    rw [foldl_cons, includes, references, Config.line]
    cases entry : lineSays line with
    | nothing => exact ⟨rfl, rfl⟩
    | included path => exact absurd entry (none path).1
    | referenced path => exact absurd entry (none path).2
    | entry key value =>
      simp only [append, insertNew]
      split
      · exact ⟨rfl, rfl⟩
      · split <;> exact ⟨rfl, rfl⟩

section Slots

variable {Text : Type} {read : Text → List UInt8} {conf : Config Text}

theorem Config.slot_map (key : List UInt8) : (conf.map read).slot id key = conf.slot read key := by
  have under : ∀ entries : List (Entry Text), (entries.map (Entry.map read)).filterMap (Entry.under id key) =
        entries.filterMap (Entry.under read key) := by
    intro entries
    rw [filterMap_map]
    congr 1
    funext entry
    simp only [Function.comp, Entry.under, Entry.map, Option.map_id, id_eq]
  rw [slot, slot, getEntry_map]
  apply Slot.ext
  · exact under _
  · simp only [map, ← map_take, under]

theorem Config.own_map (owns : (conf.map read).Own) : conf.Own where
  tail := by
    have tail := owns.tail
    rw [map] at tail
    simp only [isEmpty_map, length_map] at tail
    exact tail
  nodes := fun node listed => by
    have inside := owns.nodes node listed
    rw [map, length_map] at inside
    exact inside
  entries := fun entry listed => by
    obtain ⟨readonly, both⟩ := owns.entries (entry.map read) (mem_map_of_mem listed)
    rw [Entry.map] at readonly both
    rw [isSome_map, isSome_map] at both
    exact ⟨readonly, both⟩

end Slots

theorem entryNode_under (entries : List (List UInt8 × List UInt8)) (key : List UInt8) :
    (entries.map entryNode).filterMap (under id key) =
      entries.filterMap fun entry => if entry.1 = key then some entry.2 else none := by
  rw [filterMap_map]
  congr 1
  funext entry
  simp only [Function.comp, under, entryNode, map_some, id_eq, some.injEq]

theorem firstAt_mapped (entries : List (List UInt8 × List UInt8)) (key : List UInt8) :
    ((firstAt (entries.map entryNode) key).map fun node =>
        (((entries.map entryNode).take node).filterMap (under id key)).length) =
      if (entries.filterMap fun entry => if entry.1 = key then some entry.2 else none).isEmpty
        then none else some 0 := by
  rw [firstAt]
  induction entries with
  | nil => rfl
  | cons entry entries ih =>
    rw [map_cons, findIdx?_cons, filterMap_cons]
    by_cases same : entry.1 = key
    · have keyed : ((entryNode entry).key == some key) = true := beq_iff_eq.2 (congrArg some same)
      rw [keyed, if_pos same]
      rfl
    · have other : ((entryNode entry).key == some key) = false :=
        beq_eq_false_iff_ne.2 fun is => same (some.inj is)
      have hidden : (entryNode entry).under id key = none := by
        rw [under, if_neg]
        exact fun is => same (some.inj is)
      rw [other, if_neg same, ← ih, if_neg Bool.false_ne_true, Option.map_map]
      congr 1
      funext node
      simp only [Function.comp, take_succ_cons, filterMap_cons_none hidden]

theorem Config.Indexed.slots (indexed : conf.Indexed) {entries : List (List UInt8 × List UInt8)}
    (nodes : conf.entries = entries.map entryNode) :
    conf.Own ∧ ∀ key, conf.slot id key =
      .parsed (entries.filterMap fun entry => if entry.1 = key then some entry.2 else none) := by
  refine ⟨⟨indexed.tail, indexed.nodes, fun entry listed => ?_⟩, fun key => ?_⟩
  · obtain ⟨pair, -, rfl⟩ := mem_map.1 (nodes ▸ listed)
    exact ⟨rfl, rfl⟩
  · apply Slot.ext
    · rw [slot, nodes]
      exact entryNode_under entries key
    · rw [slot, indexed.first, nodes]
      exact firstAt_mapped entries key

/-- A text that is parsed, its bytes copied or borrowed. -/
def parseText (world : World) (path : Option (List UInt8)) (borrow : Bool) (text : List UInt8) :
    Memory × Config Text :=
  if borrow then newTakeString world text path else newFromString world text path

/-- What is parsed of a text without directives. -/
theorem parseText_slots (world : World) (path : Option (List UInt8)) (borrow : Bool) (plain : Plain text) :
    (parseText world path borrow text).2.Own ∧ (∀ key, (parseText world path borrow text).2.slot
        (read (parseText world path borrow text).1) key = .parsed (occurrences text key)) ∧
      (parseText world path borrow text).2.includes = [] ∧
      (parseText world path borrow text).2.references = [] := by
  have parses : contents (parseText world path borrow text) =
      (emptyConfig path).text world (expand world maxIncludeDepth) text := by
    cases borrow with
    | true => exact parse_string text true
    | false => exact parse_string text false
  obtain ⟨includes, references⟩ := @Config.text_plain text world (emptyConfig path) plain
    (expand world maxIncludeDepth)
  obtain ⟨indexed, entries⟩ := @Config.text_nodes world (expand world maxIncludeDepth)
    (emptyConfig path) (fun _ => expand_expands world (Nat.lt_add_of_pos_right (Nat.succ_pos _))
      (show 0 + 1 ≤ 16 by decide))
    (indexed_empty _ _) text
  rw [textNodes_plain plain] at entries
  rw [← parses] at includes references indexed entries
  obtain ⟨owns, slots⟩ := indexed.slots entries
  refine ⟨own_map owns, fun key => ?_, includes, references⟩
  rw [← slot_map]
  exact slots key

end Texts

/-- The bytes of a key, but for their case. -/
def lowerKey (key : List UInt8) : List Nat := (key.takeWhile (· ≠ 0)).map fun byte => (compatLower byte).toNat

theorem compatLower_pos {byte : UInt8} (nonzero : byte ≠ 0) : 0 < (compatLower byte).toNat := by
  have positive : 0 < byte.toNat := Nat.pos_of_ne_zero fun zero =>
    nonzero (UInt8.toNat_inj.1 zero)
  rw [compatLower]
  split
  · rename_i upper
    have most : byte.toNat ≤ 90 := UInt8.le_iff_toNat_le.1 upper.2
    rw [UInt8.toNat_add, show UInt8.toNat 0x20 = 32 by rfl, Nat.mod_eq_of_lt (by omega)]
    omega
  · exact positive

theorem lowerKey_cons {byte : UInt8} {bytes : List UInt8} (nonzero : byte ≠ 0) :
    lowerKey (byte :: bytes) = (compatLower byte).toNat :: lowerKey bytes := by
  rw [lowerKey, takeWhile_cons_of_pos (by simpa using nonzero)]
  rfl

theorem lowerDifference_neg (one other : UInt8) :
    lowerDifference one other < 0 ↔ (compatLower one).toNat < (compatLower other).toNat := by
  rw [lowerDifference]
  omega

theorem lowerDifference_neg' (one other : UInt8) :
    0 < lowerDifference one other ↔ (compatLower other).toNat < (compatLower one).toNat := by
  rw [lowerDifference]
  omega

/-- Strings are compared by their bytes in their order, but for their case. -/
theorem strcasecmp_order (left right : List UInt8) :
    (strcasecmp left right < 0 ↔ lowerKey left < lowerKey right) ∧
      (0 < strcasecmp left right ↔ lowerKey right < lowerKey left) := by
  -- The first bytes of two strings, one of which ends there.
  have ended : ∀ one other : UInt8, ∀ left right : List UInt8, one = 0 ∨ other = 0 →
      (lowerDifference one other < 0 ↔ lowerKey (one :: left) < lowerKey (other :: right)) ∧
        (0 < lowerDifference one other ↔ lowerKey (other :: right) < lowerKey (one :: left)) := by
    have zero : (compatLower 0).toNat = 0 := rfl
    have none : ∀ bytes, lowerKey (0 :: bytes) = [] := fun _ => rfl
    intro one other left right ends
    rw [lowerDifference_neg, lowerDifference_neg']
    by_cases first : one = 0
    · subst first
      by_cases second : other = 0
      · subst second
        rw [none, none]
        simp
      · rw [none, lowerKey_cons second, zero]
        simp [compatLower_pos second]
    · obtain rfl := ends.resolve_left first
      rw [none, lowerKey_cons first, zero]
      simp [compatLower_pos first]
  have nil : lowerKey [] = lowerKey [0] := rfl
  induction left generalizing right with
  | nil =>
    cases right with
    | nil => simpa [nil, strcasecmp] using ended 0 0 [] [] (.inl rfl)
    | cons other right => simpa [nil, strcasecmp] using ended 0 other [] right (.inl rfl)
  | cons one left ih =>
    cases right with
    | nil => simpa [nil, strcasecmp] using ended one 0 left [] (.inr rfl)
    | cons other right =>
      rw [strcasecmp]
      by_cases ends : one = 0 ∨ other = 0
      · rw [if_pos ends]
        exact ended one other left right ends
      · rw [if_neg ends]
        rw [not_or] at ends
        rw [lowerKey_cons ends.1, lowerKey_cons ends.2, cons_lt_cons_iff, cons_lt_cons_iff]
        by_cases same : compatLower one = compatLower other
        · rw [if_neg (not_not.2 same), same]
          simpa using ih right
        · rw [if_pos same, lowerDifference_neg, lowerDifference_neg']
          have different : (compatLower one).toNat ≠ (compatLower other).toNat :=
            fun equal => same (UInt8.toNat_inj.1 equal)
          simp [different, different.symm]

section Written

variable {Text : Type} {read : Text → List UInt8} {conf : Config Text} {sort : Bool} {entry : Entry Text}

theorem difference_ranks : RunMerge.Ranks (difference read) fun entry =>
    lowerKey (entry.keyBytes read) where
  less := fun _ _ => (strcasecmp_order _ _).1
  greater := fun _ _ => (strcasecmp_order _ _).2

/-- An entry that is written is in the list, and has a key and a value. -/
theorem mem_written (listed : entry ∈ conf.written read sort) :
    entry ∈ conf.entries ∧ entry.under read (entry.keyBytes read) = some (entry.valueBytes read) := by
  have own : entry ∈ conf.entries.filter serialisable := by
    cases sort with
    | false => exact listed
    | true =>
      -- Those of one key are in their order, and so they are those of the list.
      have one : RunMerge.OneRank (fun entry : Entry Text => lowerKey (entry.keyBytes read))
          fun other => decide (other.keyBytes read = entry.keyBytes read) := by
        intro other third same same'
        rw [decide_eq_true_eq] at same same'
        simp only [same, same']
      have same := RunMerge.sort_filter difference_ranks one (show 0 < 16 by decide)
        (conf.entries.filter serialisable)
      have picked : entry ∈ (sortEntries read (conf.entries.filter serialisable)).filter
          fun other => decide (other.keyBytes read = entry.keyBytes read) :=
        mem_filter.2 ⟨listed, decide_eq_true rfl⟩
      rw [sortEntries, same] at picked
      exact mem_of_mem_filter picked
  obtain ⟨listed, writes⟩ := mem_filter.1 own
  refine ⟨listed, ?_⟩
  rw [serialisable, Bool.and_eq_true, Bool.and_eq_true] at writes
  obtain ⟨⟨-, keyed⟩, valued⟩ := writes
  obtain ⟨key, is⟩ := isSome_iff_exists.1 keyed
  obtain ⟨value, has⟩ := isSome_iff_exists.1 valued
  rw [under, keyBytes, valueBytes, is, has]
  exact if_pos rfl

/-- The values that are written under a key are those of its slot. -/
theorem written_under (owns : conf.Own) (key : List UInt8) :
    (conf.written read sort).filterMap (under read key) = (conf.slot read key).values := by
  have all : (conf.entries.filter serialisable).filterMap (under read key) =
      conf.entries.filterMap (under read key) := by
    rw [filterMap_filter]
    apply filterMap_congr
    intro entry listed
    obtain ⟨own, both⟩ := owns.entries entry listed
    rw [serialisable, own, ← both, Bool.not_false, Bool.true_and, Bool.and_self]
    cases is : entry.key with
    | none =>
      rw [under, is]
      exact (ite_self _).trans (if_neg (by rintro ⟨⟩)).symm
    | some text => rfl
  cases sort with
  | false => exact all
  | true =>
    have own : ∀ entries : List (Entry Text), (entries.filter fun entry =>
        (entry.under read key).isSome).filterMap (under read key) =
          entries.filterMap (under read key) := by
      intro entries
      rw [filterMap_filter]
      apply filterMap_congr
      intro entry _
      cases entry.under read key <;> rfl
    have one : RunMerge.OneRank (fun entry : Entry Text => lowerKey (entry.keyBytes read))
        fun entry => (entry.under read key).isSome := by
      have keyed : ∀ entry : Entry Text, (entry.under read key).isSome = true →
          entry.keyBytes read = key := by
        intro entry some
        rw [under] at some
        split at some
        · rename_i is
          rw [keyBytes, is]
          rfl
        · cases some
      intro entry other same same'
      simp only [keyed entry same, keyed other same']
    have same := RunMerge.sort_filter difference_ranks one (show 0 < 16 by decide)
      (conf.entries.filter serialisable)
    show (sortEntries read (conf.entries.filter serialisable)).filterMap _ = _
    rw [sortEntries, ← own, same, own, all]
    rfl

/-- The line of an entry. -/
def Entry.line (read : Text → List UInt8) (entry : Entry Text) : List UInt8 :=
  lineWritten (entry.keyBytes read) (entry.valueBytes read)

theorem dumpEntry_flatten (key value : List UInt8) :
    (dumpEntry key value).flatten = lineWritten key value ++ [newline] := by
  rw [dumpEntry, cons_append, flatten_cons, cons_append, flatten_cons,
    flatten_append, dumpValue_flatten, lineWritten]
  simp [signText, closeText]

/-- A configuration without includes and references is written line by line. -/
theorem dump_lines (includes : conf.includes = []) (references : conf.references = []) :
    (conf.dump read sort).2 =
      (((conf.written read sort).map (line read)).map (· ++ [newline])).flatten := by
  have entries : ∀ entries : List (Entry Text), (entries.flatMap fun entry =>
        dumpEntry (entry.keyBytes read) (entry.valueBytes read)).flatten =
        ((entries.map (line read)).map (· ++ [newline])).flatten := by
    intro entries
    induction entries with
    | nil => rfl
    | cons entry entries ih =>
      rw [flatMap_cons, flatten_append, ih, dumpEntry_flatten]
      rfl
  rw [dump]
  simp only [DumpBuffer.puts_flush, puts, includes, references]
  rw [flatten_append, flatten_append, entries]
  exact append_nil _

end Written

open Slot

variable {key value : List UInt8} {call : Call} {calls : List Call}

theorem Slot.mem_calls {slot : Slot} (listed : value ∈ (slot.calls calls).values) :
    value ∈ slot.values ∨ ∃ key, Call.setString key value ∈ calls := by
  induction calls generalizing slot with
  | nil => exact .inl listed
  | cons call calls ih =>
    rcases ih listed with early | ⟨key, set⟩
    · -- The value was there before the rest of the calls.
      cases call with
      | setString key other =>
        have either : value ∈ slot.values ∨ value = other := by
          rw [call, set] at early
          split at early
          · exact mem_or_eq_of_mem_set early
          · exact (mem_append.1 early).imp_right mem_singleton.1
        rcases either with early | rfl
        · exact .inl early
        · exact .inr ⟨key, mem_cons_self⟩
      | unset key =>
        rw [call, unset] at early
        split at early
        · exact .inl (mem_of_mem_eraseIdx early)
        · exact .inl early
    · exact .inr ⟨key, mem_cons_of_mem _ set⟩

/-- A byte of a key that is edited: printable, and neither a comment sign nor a quote. -/
def isPlain (byte : UInt8) : Prop := 0x20 ≤ byte ∧ byte ≤ 0x7e ∧ byte ≠ hash ∧ byte ≠ quote

/-- What a call edits: a key of plain bytes, with a value without a zero byte or an end of a line. -/
def Call.Fits : Call → Prop
  | .setString key value => (key ≠ [] ∧ ∀ byte ∈ key, isPlain byte) ∧ (0 : UInt8) ∉ value ∧ newline ∉ value
  | .unset key => key ≠ [] ∧ ∀ byte ∈ key, isPlain byte

theorem Call.Fits.plain (fits : call.Fits) : call.key ≠ [] ∧ ∀ byte ∈ call.key, isPlain byte := by
  cases call with
  | setString key value => exact fits.1
  | unset key => exact fits

theorem isPlain.graph {byte : UInt8} (plain : isPlain byte) (unspaced : byte ≠ 0x20) :
    isGraph byte = true := by
  obtain ⟨least, most, -, -⟩ := plain
  have least' : 32 ≤ byte.toNat := UInt8.le_iff_toNat_le.1 least
  have most' : byte.toNat ≤ 126 := UInt8.le_iff_toNat_le.1 most
  have other : byte.toNat ≠ 32 := fun same => unspaced (UInt8.toNat_inj.1 same)
  rw [isGraph, decide_eq_true_eq, UInt8.lt_iff_toNat_lt, UInt8.toNat_sub_of_le]
  · show byte.toNat - 33 < 94
    omega
  · exact UInt8.le_iff_toNat_le.2 (show 33 ≤ byte.toNat by omega)

/-- A key that can begin a line: it does not begin a comment, nor end the line or the text. -/
structure KeyBegins (key : List UInt8) : Prop where
  nonempty : key ≠ []
  unsigned : key.head? ≠ some hash
  clear : (0 : UInt8) ∉ key
  whole : newline ∉ key

theorem keyBegins_plain (nonempty : key ≠ []) (plain : ∀ byte ∈ key, isPlain byte) : KeyBegins key where
  nonempty := nonempty
  unsigned := fun head => (plain hash (mem_of_head? head)).2.2.1 rfl
  clear := fun zero => absurd (plain 0 zero).1 (by decide)
  whole := fun ends => absurd (plain newline ends).1 (by decide)

theorem KeyFits.begins (fits : KeyFits key) : KeyBegins key where
  nonempty := fits.some
  unsigned := by
    intro head
    obtain ⟨first, rest, shape⟩ := exists_cons_of_ne_nil fits.some
    rw [shape, head?_cons] at head
    obtain rfl := Option.some.inj head
    obtain ⟨front, within, parts, -, -⟩ := fits.signs [] rest shape nofun
    exact absurd parts (by simp)
  clear := fits.nonzero
  whole := fun ends => (isGraph_not (fits.graph newline ends)).2.2 rfl

theorem keyFits_plain (some : key ≠ []) (plain : ∀ byte ∈ key, isPlain byte)
    (unspaced : (0x20 : UInt8) ∉ key) : KeyFits key where
  some := some
  graph := fun byte listed => (plain byte listed).graph fun same => unspaced (same ▸ listed)
  signs := fun before after shape _ => by
    refine absurd rfl (plain hash ?_).2.2.1
    rw [shape]
    simp

theorem textLines_written {lines : List (List UInt8)}
    (each : ∀ line ∈ lines, line ≠ [] ∧ (0 : UInt8) ∉ line ∧ newline ∉ line) :
    textLines (lines.map (· ++ [newline])).flatten = lines := by
  induction lines with
  | nil => rfl
  | cons line lines ih =>
    obtain ⟨some, clear, whole⟩ := each line mem_cons_self
    have later := ih fun line listed => each line (mem_cons_of_mem _ listed)
    have full : line.isEmpty = false := Bool.eq_false_iff.2 fun none =>
      some (List.isEmpty_iff.1 none)
    rw [map_cons, flatten_cons, List.append_assoc, singleton_append, textLines_cons whole clear, later, full]
    rfl

theorem lineSays_begins {line : List UInt8} (unsigned : line.head? ≠ some hash)
    (path : List UInt8) : lineSays line ≠ .included path ∧ lineSays line ≠ .referenced path := by
  have none : (stripComment line 0).2 = Option.none := by
    cases whole : (stripComment line 0).2 with
    | none => rfl
    | some comment =>
      rw [stripComment] at whole
      split at whole
      · cases whole
      · rename_i found finds
        split at whole
        · rename_i first
          refine absurd ?_ unsigned
          rw [head?_eq_getElem?]
          have there := byteAt_strchr finds
          rw [first, byteAt, getD_eq_getElem?_getD] at there
          cases shape : (line)[0]? with
          | none => rw [shape] at there; cases there
          | some byte =>
            rw [shape] at there
            exact congrArg Option.some there
        · cases whole
  have says' := @lineSays_cut line (stripComment line 0).1 (Prod.ext rfl none)
  rw [says']
  split
  · exact ⟨by rintro ⟨⟩, by rintro ⟨⟩⟩
  · split <;> exact ⟨by rintro ⟨⟩, by rintro ⟨⟩⟩

/-- What is read of a value that was written under a key. -/
def readBack (key value : List UInt8) : List UInt8 :=
  match lineEntry (lineWritten key value) with
  | some entry => entry.2
  | none => []

theorem lineEntry_written (fits : KeyFits key) (clear : (0 : UInt8) ∉ value) :
    lineEntry (lineWritten key value) = some (key, readBack key value) ∧
      (readBack key value = value ↔ ¬Cut key value) := by
  by_cases lost : Cut key value
  · obtain ⟨other, reads, unsigned⟩ := lineSays_lost fits clear lost
    have entry : lineEntry (lineWritten key value) = some (key, other) := by rw [lineEntry, reads]
    rw [readBack, entry]
    refine ⟨rfl, fun same => ?_, fun whole => absurd lost whole⟩
    exact absurd lost.2.2 (same ▸ unsigned)
  · have entry : lineEntry (lineWritten key value) = some (key, value) := by
      rw [lineEntry, lineSays_written fits clear lost]
    rw [readBack, entry]
    exact ⟨rfl, fun _ => lost, fun _ => rfl⟩

section Saved

variable {Text : Type} {read : Text → List UInt8} {own : List UInt8 → Text} {conf : Config Text}
  {live : Flagged Text} {sort : Bool}

theorem Flagged.call_includes (call : Call) : (live.call read own call).conf.includes = live.conf.includes ∧
      (live.call read own call).conf.references = live.conf.references := by
  cases call with
  | setString key value =>
    rw [Flagged.call, Flagged.setString]
    split
    · split <;> exact ⟨rfl, rfl⟩
    · exact ⟨rfl, rfl⟩
  | unset key =>
    rw [Flagged.call, Flagged.unset]
    split <;> exact ⟨rfl, rfl⟩

theorem Flagged.calls_slot (duplicates : live.guaranteedNoDuplicates = false)
    (owns : live.conf.Own) (inverse : ∀ bytes, read (own bytes) = bytes) (calls : List Call) :
    (live.calls read own calls).conf.Own ∧ ((live.calls read own calls).conf.includes = live.conf.includes ∧
        (live.calls read own calls).conf.references = live.conf.references) ∧
      ∀ key, (live.calls read own calls).conf.slot read key =
        (live.conf.slot read key).calls (callsOn key calls) := by
  rw [Flagged.calls]
  induction calls generalizing live with
  | nil => exact ⟨owns, ⟨rfl, rfl⟩, fun _ => rfl⟩
  | cons call calls ih =>
    obtain ⟨duplicates', owns', slots⟩ := Flagged.call_slot duplicates owns inverse call
    obtain ⟨includes, references⟩ := @Flagged.call_includes _ read own live call
    obtain ⟨last, ⟨includes', references'⟩, later⟩ := ih duplicates' owns'
    refine ⟨last, ⟨includes'.trans includes, references'.trans references⟩, fun key => ?_⟩
    rw [foldl_cons, later, slots, callsOn, callsOn, filter_cons]
    by_cases same : call.key = key
    · rw [if_pos same, if_pos (decide_eq_true same)]
      rfl
    · rw [if_neg same, if_neg fun is => same (of_decide_eq_true is)]

/-- The keys of a configuration can begin lines, and its values have no zero byte and no end of a
line. -/
def Config.Begins (read : Text → List UInt8) (conf : Config Text) : Prop :=
  ∀ key, ∀ value ∈ (conf.slot read key).values, KeyBegins key ∧ (0 : UInt8) ∉ value ∧ newline ∉ value

theorem mem_slot {entry : Entry Text} (listed : entry ∈ conf.written read sort) :
    entry.valueBytes read ∈ (conf.slot read (entry.keyBytes read)).values :=
  mem_filterMap.2 ⟨entry, (mem_written listed).1, (mem_written listed).2⟩

theorem lineWritten_whole (begins : KeyBegins key) (clear : (0 : UInt8) ∉ value) (whole : newline ∉ value) :
    lineWritten key value ≠ [] ∧ (0 : UInt8) ∉ lineWritten key value ∧ newline ∉ lineWritten key value := by
  have escaped : ∀ {byte}, byte ≠ backslash → byte ∉ value → byte ∉ escapeScan 0 value :=
    fun other absent listed => (mem_escapeScan listed).elim absent other
  have clear' := escaped (by decide) clear
  have whole' := escaped (by decide) whole
  rw [lineWritten]
  refine ⟨append_ne_nil_of_left_ne_nil begins.nonempty _, ?_, ?_⟩
  · simp [begins.clear, clear', equals, quote]
  · simp [begins.whole, whole', equals, quote, newline]

theorem dump_textLines (begins : conf.Begins read) (includes : conf.includes = [])
    (references : conf.references = []) :
    textLines (conf.dump read sort).2 = (conf.written read sort).map (line read) := by
  rw [dump_lines includes references, textLines_written]
  intro line listed
  obtain ⟨entry, written, rfl⟩ := mem_map.1 listed
  obtain ⟨key, clear, whole⟩ := begins _ _ (mem_slot written)
  exact lineWritten_whole key clear whole

theorem dump_plain (begins : conf.Begins read) (includes : conf.includes = [])
    (references : conf.references = []) : Plain (conf.dump read sort).2 := by
  intro line listed
  rw [dump_textLines begins includes references] at listed
  obtain ⟨entry, written, rfl⟩ := mem_map.1 listed
  obtain ⟨key, -⟩ := begins _ _ (mem_slot written)
  apply lineSays_begins
  rw [Entry.line, lineWritten, head?_append_of_ne_nil _ key.nonempty]
  exact key.unsigned

theorem dump_occurrences (owns : conf.Own) (includes : conf.includes = [])
    (references : conf.references = []) (fits : ∀ key, ∀ value ∈ (conf.slot read key).values,
      KeyFits key ∧ (0 : UInt8) ∉ value ∧ newline ∉ value) (key : List UInt8) :
    occurrences (conf.dump read sort).2 key = (conf.slot read key).values.map (readBack key) := by
  have begins : conf.Begins read := fun key value listed =>
    ⟨(fits key value listed).1.begins, (fits key value listed).2⟩
  rw [occurrences, textEntries, dump_textLines begins includes references, filterMap_map,
    filterMap_filterMap, ← @written_under _ read _ sort owns, map_filterMap]
  apply filterMap_congr
  intro entry listed
  obtain ⟨key', clear, -⟩ := fits _ _ (mem_slot listed)
  have line : lineEntry (entry.line read) =
      some (entry.keyBytes read, readBack (entry.keyBytes read) (entry.valueBytes read)) :=
    (lineEntry_written key' clear).1
  have under := (mem_written listed).2
  rw [Function.comp, line, Option.bind_some]
  by_cases same : entry.keyBytes read = key
  · rw [if_pos same, ← same, under]
    rfl
  · have other : entry.under read key = none := by
      rw [Entry.under, if_neg]
      intro is
      refine same ?_
      rw [keyBytes, is]
      rfl
    rw [if_neg same, other]
    rfl

end Saved

section Survive

variable {text : List UInt8} {sort : Bool}

theorem callsOn_fits (fit : ∀ call ∈ calls, call.Fits) (some : callsOn key calls ≠ []) :
    key ≠ [] ∧ ∀ byte ∈ key, isPlain byte := by
  obtain ⟨call, listed⟩ := exists_mem_of_ne_nil _ some
  obtain ⟨made, same⟩ := mem_filter.1 listed
  exact of_decide_eq_true same ▸ (fit call made).plain

theorem Slot.values_of_none {values : List (List UInt8)}
    (none : ((parsed values).calls calls).lookup = none) :
    ((parsed values).calls calls).values = values.tail := by
  obtain ⟨edited, -⟩ := (edited_parsed values).calls calls
  generalize (parsed values).calls calls = slot at edited none
  cases edited with
  | kept value never => cases none
  | gone gone => rfl
  | added value gone =>
    have looked : lookup ⟨values.tail ++ [value], some values.tail.length⟩ = some value :=
      getElem?_concat_length
    rw [looked] at none
    cases none

theorem Slot.lookup_parsed (values : List (List UInt8)) : (parsed values).lookup = values.head? := by
  cases values <;> rfl

/-- A text is parsed, and calls edit the configuration. -/
def editText (world : World) (path : Option (List UInt8)) (borrow : Bool) (text : List UInt8)
    (calls : List Call) : Memory × Config Text :=
  let parsed := parseText world path borrow text
  (parsed.1, (({ conf := parsed.2 } : Flagged Text).calls (read parsed.1) .owned calls).conf)

/-- The text that is written of a configuration. -/
def dumpText (edited : Memory × Config Text) (sort : Bool) : List UInt8 :=
  (edited.2.dump (read edited.1) sort).2

/-- What a key is looked up to. -/
def lookupIn (parsed : Memory × Config Text) (key : List UInt8) : Option (List UInt8) :=
  parsed.2.lookup (read parsed.1) key

theorem editText_slots (world : World) (path : Option (List UInt8)) (borrow : Bool)
    (plain : Plain text) (calls : List Call) :
    let edited := editText world path borrow text calls
    edited.2.Own ∧ (edited.2.includes = [] ∧ edited.2.references = []) ∧
      ∀ key, edited.2.slot (read edited.1) key =
        (parsed (occurrences text key)).calls (callsOn key calls) := by
  obtain ⟨owns, slots, includes, references⟩ := parseText_slots world path borrow plain
  obtain ⟨owns', ⟨includes', references'⟩, slots'⟩ := @Flagged.calls_slot _
    (read (parseText world path borrow text).1) .owned
    { conf := (parseText world path borrow text).2 } rfl owns (fun _ => rfl) calls
  refine ⟨owns', ⟨includes'.trans includes, references'.trans references⟩, fun key => ?_⟩
  exact (slots' key).trans (congrArg (Slot.calls · _) (slots key))

theorem occurrences_spaced (text : List UInt8) (spaced : (0x20 : UInt8) ∈ key) :
    occurrences text key = [] := by
  rw [occurrences, filterMap_eq_nil_iff]
  intro entry listed
  refine if_neg fun same => ?_
  subst same
  have graph := (textEntries_fits listed).1.graph 0x20 spaced
  cases graph

theorem callsOn_last (last : (callsOn key calls).getLast? = some call) : call ∈ calls ∧ call.key = key := by
  obtain ⟨made, same⟩ := mem_filter.1 (mem_of_getLast? last)
  exact ⟨made, of_decide_eq_true same⟩

theorem lookup_spaced (unspaced : ∀ key value,
      (callsOn key calls).getLast? = some (.setString key value) → (0x20 : UInt8) ∉ key)
    (spaced : (0x20 : UInt8) ∈ key) :
    ((parsed (occurrences text key)).calls (callsOn key calls)).lookup = none := by
  cases last : (callsOn key calls).getLast? with
  | none =>
    rw [getLast?_eq_none_iff.1 last, occurrences_spaced text spaced]
    rfl
  | some call =>
    have found := ((edited_parsed (occurrences text key)).calls _).2 call last
    cases call with
    | unset key' => exact found
    | setString key' value =>
      obtain rfl : key' = key := (callsOn_last last).2
      exact absurd spaced (unspaced key' value last)

theorem mem_occurrences (listed : value ∈ occurrences text key) : (key, value) ∈ textEntries text := by
  obtain ⟨entry, parsed, is⟩ := mem_filterMap.1 listed
  split at is
  · rename_i same
    subst same
    exact Option.some.inj is ▸ parsed
  · cases is

theorem mem_edited (fit : ∀ call ∈ calls, call.Fits)
    (listed : value ∈ ((parsed (occurrences text key)).calls (callsOn key calls)).values) :
    (KeyFits key ∨ (key ≠ [] ∧ ∀ byte ∈ key, isPlain byte)) ∧ (0 : UInt8) ∉ value ∧ newline ∉ value := by
  rcases mem_calls listed with early | ⟨key', set⟩
  · obtain ⟨fits, whole⟩ := textEntries_fits (mem_occurrences early)
    exact ⟨.inl fits, whole⟩
  · obtain ⟨made, -⟩ := mem_filter.1 set
    exact ⟨.inr (callsOn_fits fit (ne_nil_of_mem set)), (fit _ made).2⟩

theorem lookup_parseText (world : World) (path : Option (List UInt8)) (borrow : Bool)
    (plain : Plain text) (key : List UInt8) :
    lookupIn (parseText world path borrow text) key = (occurrences text key).head? := by
  obtain ⟨owns, slots, -, -⟩ := parseText_slots world path borrow plain
  rw [lookupIn, ← owns.lookup_slot, slots, lookup_parsed]

theorem dumpText_plain (world : World) (path : Option (List UInt8)) (borrow : Bool)
    (plain : Plain text) (fit : ∀ call ∈ calls, call.Fits) (sort : Bool) :
    Plain (dumpText (editText world path borrow text calls) sort) := by
  obtain ⟨-, ⟨includes, references⟩, slots⟩ := editText_slots world path borrow plain calls
  refine dump_plain (fun key value listed => ?_) includes references
  rw [slots] at listed
  obtain ⟨keyed, whole⟩ := mem_edited fit listed
  refine ⟨?_, whole⟩
  rcases keyed with fits | ⟨nonempty, plain⟩
  · exact fits.begins
  · exact keyBegins_plain nonempty plain

theorem edits_read (world world' : World) (path path' : Option (List UInt8)) (borrow borrow' : Bool)
    (plain : Plain text) (fit : ∀ call ∈ calls, call.Fits)
    (unspaced : ∀ key value, (callsOn key calls).getLast? = some (.setString key value) →
      (0x20 : UInt8) ∉ key) (sort : Bool) (key : List UInt8) :
    let edited := editText world path borrow text calls
    lookupIn (parseText world' path' borrow' (dumpText edited sort)) key = lookupIn edited key ↔
      ((callsOn key calls).any Call.clears = true → ∀ second, (occurrences text key)[1]? = some second →
          ∃ key', (callsOn key calls).getLast? = some (.setString key' second)) ∧
      ∀ first, (occurrences text key).head? = some first → ¬Cut key first := by
  intro edited
  obtain ⟨owns, ⟨includes, references⟩, slots⟩ := editText_slots world path borrow plain calls
  have fits : ∀ key, ∀ value ∈ (edited.2.slot (read edited.1) key).values,
      KeyFits key ∧ (0 : UInt8) ∉ value ∧ newline ∉ value := by
    intro key value listed
    rw [slots] at listed
    obtain ⟨keyed, whole⟩ := mem_edited fit listed
    refine ⟨?_, whole⟩
    rcases keyed with fits | ⟨nonempty, plain⟩
    · exact fits
    · refine keyFits_plain nonempty plain fun spaced => ?_
      have none := @lookup_spaced key calls text unspaced spaced
      rw [values_of_none none, occurrences_spaced text spaced] at listed
      cases listed
  have occurs : occurrences (dumpText edited sort) key =
      (edited.2.slot (read edited.1) key).values.map (readBack key) :=
    dump_occurrences owns includes references fits key
  have reads : lookupIn (parseText world' path' borrow' (dumpText edited sort)) key =
      (edited.2.slot (read edited.1) key).values.head?.map (readBack key) := by
    rw [lookup_parseText world' path' borrow' (dumpText_plain world path borrow plain fit sort),
      occurs, head?_map]
  have looked : lookupIn edited key = (edited.2.slot (read edited.1) key).lookup :=
    (owns.lookup_slot key).symm
  rw [reads, looked]
  by_cases quoted : quote ∈ key
  · -- No call is made on a key with a quote.
    have idle : callsOn key calls = [] := by
      by_contra some
      exact ((callsOn_fits fit some).2 quote quoted).2.2.2 rfl
    have fits' := fits key
    rw [slots, idle] at fits' ⊢
    show (occurrences text key).head?.map _ = (parsed (occurrences text key)).lookup ↔ _
    rw [lookup_parsed]
    constructor
    · intro same
      refine ⟨nofun, fun first is => ?_⟩
      obtain ⟨keyed, clear, -⟩ := fits' first (mem_of_head? is)
      rw [is, Option.map_some] at same
      exact (lineEntry_written keyed clear).2.1 (Option.some.inj same)
    · rintro ⟨-, whole⟩
      cases is : (occurrences text key).head? with
      | none => rfl
      | some first =>
        obtain ⟨keyed, clear, -⟩ := fits' first (mem_of_head? is)
        exact congrArg some ((lineEntry_written keyed clear).2.2 (whole first is))
  · -- No comment sign is cut off behind a key without a quote.
    have same : (edited.2.slot (read edited.1) key).values.head?.map (readBack key) =
        (edited.2.slot (read edited.1) key).values.head? := by
      cases is : (edited.2.slot (read edited.1) key).values.head? with
      | none => rfl
      | some first =>
        obtain ⟨keyed, clear, -⟩ := fits key first (mem_of_head? is)
        exact congrArg some ((lineEntry_written keyed clear).2.2 fun lost => quoted lost.1)
    rw [same, slots, parsed_agrees]
    exact ⟨fun sets => ⟨sets, fun _ _ lost => quoted lost.1⟩, fun both => both.1⟩

/-- Edits survive a save if and only if no value that was unset shadowed another, but for one that the
last call sets, no comment sign of a first value is cut off, and no key with a space stays set. -/
theorem edits_survive_iff (world world' : World) (path path' : Option (List UInt8))
    (borrow borrow' : Bool) (plain : Plain text) (fit : ∀ call ∈ calls, call.Fits) (sort : Bool) :
    (∀ key, lookupIn (parseText world' path' borrow'
        (dumpText (editText world path borrow text calls) sort)) key =
        lookupIn (editText world path borrow text calls) key) ↔
      (∀ key, .unset key ∈ calls → ∀ second, (occurrences text key)[1]? = some second →
        (callsOn key calls).getLast? = some (.setString key second)) ∧
      (∀ key first, (occurrences text key).head? = some first → ¬Cut key first) ∧
      ∀ key value, (callsOn key calls).getLast? = some (.setString key value) → (0x20 : UInt8) ∉ key := by
  -- A value is unset by a call on its key.
  have clears : ∀ key, (callsOn key calls).any Call.clears = true ↔ .unset key ∈ calls := by
    intro key
    rw [List.any_eq_true]
    constructor
    · rintro ⟨call, listed, is⟩
      obtain ⟨made, same⟩ := mem_filter.1 listed
      cases call with
      | setString key value => cases is
      | unset key' =>
        obtain rfl : key' = key := of_decide_eq_true same
        exact made
    · exact fun made => ⟨.unset key, mem_filter.2 ⟨made, decide_eq_true rfl⟩, rfl⟩
  have keyed : ∀ key second, (∃ key', (callsOn key calls).getLast? = some (.setString key' second)) ↔
      (callsOn key calls).getLast? = some (.setString key second) := by
    intro key second
    refine ⟨fun ⟨key', last⟩ => ?_, fun last => ⟨key, last⟩⟩
    obtain rfl : key' = key := (callsOn_last last).2
    exact last
  constructor
  · intro agree
    have unspaced : ∀ key value, (callsOn key calls).getLast? = some (.setString key value) →
        (0x20 : UInt8) ∉ key := by
      -- No key with a space is read.
      intro key value last spaced
      obtain ⟨owns, -, slots⟩ := editText_slots world path borrow plain calls
      have same := agree key
      rw [lookup_parseText world' path' borrow' (dumpText_plain world path borrow plain fit sort),
        occurrences_spaced _ spaced, lookupIn, ← owns.lookup_slot, slots,
        ((edited_parsed _).calls _).2 _ last] at same
      cases same
    refine ⟨fun key made second shadowed => ?_, fun key => ?_, unspaced⟩
    · exact (keyed key second).1 <| ((edits_read world world' path path' borrow borrow' plain fit
        unspaced sort key).1 (agree key)).1 ((clears key).2 made) second shadowed
    · exact ((edits_read world world' path path' borrow borrow' plain fit unspaced sort key).1
        (agree key)).2
  · rintro ⟨sets, whole, unspaced⟩ key
    refine (edits_read world world' path path' borrow borrow' plain fit unspaced sort key).2
      ⟨fun cleared second shadowed => (keyed key second).2 ?_, whole key⟩
    exact sets key ((clears key).1 cleared) second shadowed

/-- A world without files. -/
def noFiles : World where
  readFile := fun _ => none
  realpath := fun _ path => path
  abbreviated := fun _ path => path

/-- The edits of two keys that are there once survive a save. -/
theorem edits_survive_once :
    let text : List UInt8 := [0x61, 0x20, 0x3d, 0x20, 0x31, newline, 0x62, 0x20, 0x3d, 0x20, 0x32]
    let edited := editText noFiles none false text [.setString [0x61] [0x33], .unset [0x62]]
    ∀ key, lookupIn (parseText noFiles none true (dumpText edited true)) key = lookupIn edited key := by
  intro text edited
  have entries : textEntries text = [([0x61], [0x31]), ([0x62], [0x32])] := by decide
  have plain : Plain text := by
    have lines : textLines text = [[0x61, 0x20, 0x3d, 0x20, 0x31], [0x62, 0x20, 0x3d, 0x20, 0x32]] := by
      decide
    intro line listed path
    rw [lines, mem_cons, mem_singleton] at listed
    rcases listed with rfl | rfl <;> exact lineSays_begins (by decide) path
  have fit : ∀ call ∈ [Call.setString [0x61] [0x33], .unset [0x62]], call.Fits := by
    intro call listed
    rw [mem_cons, mem_singleton] at listed
    rcases listed with rfl | rfl <;> simp [Call.Fits, isPlain, hash, quote, newline]
  refine (edits_survive_iff noFiles noFiles none none false true plain fit true).2 ⟨?_, ?_, ?_⟩
  · intro key made second shadowed
    obtain rfl : key = [0x62] := by simpa using made
    cases shadowed
  · intro key first is lost
    have listed := mem_occurrences (mem_of_head? is)
    rw [entries, mem_cons, mem_singleton] at listed
    rcases listed with same | same <;> cases same <;> exact absurd lost.2.2 (by decide)
  · intro key value last
    have made := (callsOn_last last).1
    obtain ⟨rfl, -⟩ : key = [0x61] ∧ value = [0x33] := by simpa using made
    decide

/-- A key that a text has twice and that is unset is there again when the text that is written is
read. -/
theorem edits_lost_twice :
    let text : List UInt8 := [0x61, 0x20, 0x3d, 0x20, 0x31, newline, 0x61, 0x20, 0x3d, 0x20, 0x32, newline]
    let edited := editText noFiles none false text [.unset [0x61]]
    Plain text ∧ (Call.unset [0x61]).Fits ∧ lookupIn edited [0x61] = none ∧
      lookupIn (parseText noFiles none false (dumpText edited false)) [0x61] = some [0x32] := by
  have lines : textLines [0x61, 0x20, 0x3d, 0x20, 0x31, newline, 0x61, 0x20, 0x3d, 0x20, 0x32, newline] =
        [[0x61, 0x20, 0x3d, 0x20, 0x31], [0x61, 0x20, 0x3d, 0x20, 0x32]] := by
    decide
  refine ⟨fun line listed path => ?_, ?_, by decide, by decide⟩
  · rw [lines, mem_cons, mem_singleton] at listed
    rcases listed with rfl | rfl <;> exact lineSays_begins (by decide) path
  · simp [Call.Fits, isPlain, hash, quote]

end Survive

open Nat

variable {buffer line front back key value : List UInt8} {address : Nat} {borrow : Bool}

/-- `config_file_cache_len`. -/
def cacheLen (length : Nat) : UInt16 := if 0xffff < length then 0 else UInt16.ofNat length

/-- An entry of a line, with its cached lengths. -/
structure Cached where
  key : Text
  value : Text
  keyLen : UInt16
  valueLen : UInt16

/-- The part of `config_file_parse_line` that fills an entry, on a line that is no directive. -/
def parseEntry (buffer : List UInt8) (line address : Nat) (borrow : Bool) : List UInt8 × Option Cached :=
  match stripComment buffer line with
  | (buffer, some _) => (buffer, none)
  | (buffer, none) =>
    let start := skip isBlank buffer line
    let line := skip isGraph buffer start
    let idx := line - start
    if idx = 0 then (buffer, none)
    else
      let line := skip isBlank buffer line
      if byteAt buffer line = equals then
        let (buffer, place, valueLen) := extractValue buffer (line + 1)
        let value := make buffer address place valueLen borrow
        let key := make buffer address start idx borrow
        (if borrow then buffer.set (start + idx) 0 else buffer,
          some { key, value, keyLen := cacheLen idx, valueLen := cacheLen valueLen })
      else (buffer, none)

/-- The bytes that a cached length spans: zero means unknown, and the string is measured. -/
def measured (bytes : List UInt8) (length : UInt16) : List UInt8 :=
  if length ≠ 0 then bytes.take length.toNat else bytes

/-- `config_file_dump_entry` of an entry, by what it puts. -/
def Cached.dump (memory : Memory) (entry : Cached) : List (List UInt8) :=
  dumpEntry (measured (entry.key.read memory) entry.keyLen)
    (measured (entry.value.read memory) entry.valueLen)

/-- The buffer that the line at a place is parsed in: its end of a line is overwritten. -/
def endLine (buffer : List UInt8) (line : Nat) : List UInt8 :=
  match strchr buffer line newline with
  | none => buffer
  | some next => buffer.set next 0

/-- An entry has a key and a value, and its cached lengths are theirs or zero. -/
structure Cached.Says (memory : Memory) (entry : Cached) (key value : List UInt8) : Prop where
  keyIs : entry.key.read memory = key
  valueIs : entry.value.read memory = value
  keyLen : entry.keyLen = 0 ∨ entry.keyLen.toNat = key.length
  valueLen : entry.valueLen = 0 ∨ entry.valueLen.toNat = value.length

theorem cacheLen_right (length : Nat) : cacheLen length = 0 ∨ (cacheLen length).toNat = length := by
  unfold cacheLen
  split
  · exact .inl rfl
  · refine .inr (UInt16.toNat_ofNat_of_lt ?_)
    show length < 65536
    omega

theorem measured_right {bytes : List UInt8} {length : UInt16}
    (right : length = 0 ∨ length.toNat = bytes.length) : measured bytes length = bytes := by
  unfold measured
  split
  · next known =>
    rw [right.resolve_left known, take_length]
  · rfl

theorem Cached.Says.dump {memory : Memory} {entry : Cached} (says' : entry.Says memory key value) :
    (entry.dump memory).flatten = lineWritten key value ++ [newline] := by
  obtain ⟨rfl, rfl, keyRight, valueRight⟩ := says'
  rw [Cached.dump, measured_right keyRight, measured_right valueRight, dumpEntry_flatten]

theorem parseEntry_scan {place : Nat} {cut after : List UInt8} {keyText valueText : Text}
    (strips : stripComment buffer place = (cut, none))
    (found : scanLine buffer place address borrow = (after, .entry keyText valueText)) :
    parseEntry buffer place address borrow = (after, some {
      key := keyText
      value := valueText
      keyLen := cacheLen (skip isGraph cut (skip isBlank cut place) - skip isBlank cut place)
      valueLen := cacheLen (extractValue cut
        (skip isBlank cut (skip isGraph cut (skip isBlank cut place)) + 1)).2.2 }) := by
  rw [scanLine, strips] at found
  rw [parseEntry, strips]
  simp only at found ⊢
  split at found
  · cases found
  · next keyed =>
    rw [if_neg keyed]
    split at found
    · next signed =>
      rw [if_pos signed]
      obtain ⟨rfl, same⟩ := Prod.mk.inj found
      obtain ⟨rfl, rfl⟩ := Found.entry.inj same
      rfl
    · cases found

theorem endLine_written (begins : KeyBegins key) (clear : (0 : UInt8) ∉ value) (whole : newline ∉ value) :
    endLine (front ++ (lineWritten key value ++ newline :: back)) front.length =
      front ++ (lineWritten key value ++ 0 :: back) := by
  obtain ⟨-, clear, whole⟩ := lineWritten_whole begins clear whole
  rw [endLine, strchr_front whole clear]
  simp [set_append_right]

theorem lengths_written (fits : KeyFits key) (clear : (0 : UInt8) ∉ value) (cut : List UInt8)
    (shape : cut = front ++ (lineWritten key value ++ 0 :: back)) :
    skip isGraph cut (skip isBlank cut front.length) - skip isBlank cut front.length = key.length ∧
      (extractValue cut (skip isBlank cut (skip isGraph cut (skip isBlank cut front.length)) + 1)).2.2 =
        value.length := by
  have ends : byteAt ((0 : UInt8) :: back) 0 = 0 := rfl
  obtain ⟨keyed, sign, signed⟩ := @keyRead_sign (lineWritten key value) key _ fits rfl
  have start : skip isBlank (lineWritten key value) 0 = 0 := skip_key fits
  have stop : skip isGraph (lineWritten key value) 0 = key.length := by
    have length := congrArg List.length keyed
    rw [keyRead, start] at length
    rw [skip, zero_add]
    exact length
  rw [signRead, start, keyed, zero_add] at sign
  have short : key.length ≤ (lineWritten key value).length := by simp [lineWritten]
  have within : key.length + 1 + 1 ≤ (lineWritten key value).length := by
    simp only [lineWritten, length_append, length_cons, length_nil]
    omega
  -- Each place in the buffer is the one in the line alone, behind what is in front of the line.
  have first := @skip_inside isBlank front (lineWritten key value) (0 :: back) 0 rfl ends (zero_le _)
  have second := @skip_inside isGraph front (lineWritten key value) (0 :: back) 0 rfl ends (zero_le _)
  have third := @skip_inside isBlank front (lineWritten key value) (0 :: back) key.length rfl ends short
  rw [add_zero, start, add_zero] at first
  rw [add_zero, stop] at second
  rw [sign] at third
  rw [shape, first, second, third, add_assoc, extractValue_inside ends within]
  refine ⟨by omega, ?_⟩
  obtain ⟨keeps, -, bound, -, -⟩ := extractValue_keeps within
  have line : lineWritten key value =
      (key ++ [0x20, equals]) ++ 0x20 :: quote :: (escapeScan 0 value ++ [quote]) := by
    simp [lineWritten]
  have reads := extractValue_escape clear line
  rw [show (key ++ [0x20, equals]).length = key.length + 1 + 1 by simp] at reads
  rw [← keeps.length] at bound
  generalize extractValue (lineWritten key value) (key.length + 1 + 1) = taken at reads bound
  calc taken.2.2 = (slice taken.1 taken.2.1 taken.2.2).length := by
        rw [slice, length_take, length_drop]
        omega
    _ = value.length := by rw [reads]

theorem Text.Is.read {memory : Memory} {text : Text} {bytes : List UInt8} {limit : Nat}
    (inside : address < memory.length) (same : text.Is borrow buffer address limit bytes) :
    text.read (memory.set address buffer) = bytes := by
  cases text with
  | owned own => exact same
  | borrowed other place =>
    obtain ⟨-, rfl, reads, -⟩ := same
    rw [read, Memory.buffer_set inside, reads]

/-- An entry that is written to a line is parsed from it as it was, its cached lengths right. -/
theorem parseEntry_dump {memory : Memory} {entry : Cached} (says' : entry.Says memory key value)
    (some : key ≠ []) (plain : ∀ byte ∈ key, isPlain byte ∧ byte ≠ 0x20)
    (clear : (0 : UInt8) ∉ value) (whole : newline ∉ value) (front back : List UInt8)
    (parser : Memory) (address : Nat) (inside : address < parser.length) (borrow : Bool) :
    ∃ after parsed, parseEntry (endLine (front ++ ((entry.dump memory).flatten ++ back)) front.length)
        front.length address borrow = (after, Option.some parsed) ∧
      parsed.Says (parser.set address after) key value := by
  have fits : KeyFits key := keyFits_plain some (fun byte listed => (plain byte listed).1)
    fun space => (plain _ space).2 rfl
  have uncut : ¬Cut key value := fun cut => (plain _ cut.1).1.2.2.2 rfl
  have ends : byteAt ((0 : UInt8) :: back) 0 = 0 := rfl
  rw [says'.dump, List.append_assoc, singleton_append, endLine_written fits.begins clear whole]
  have strips : stripComment (front ++ (lineWritten key value ++ 0 :: back)) front.length =
      (front ++ (lineWritten key value ++ 0 :: back), none) := by
    rw [stripComment_inside ends, stripComment_written fits clear uncut]
    rfl
  obtain ⟨after, found, scanned, -, same⟩ :=
    @scanLine_inside front (lineWritten key value) (0 :: back) address borrow ends
  rw [lineSays_written fits clear uncut] at same
  cases found with
  | nothing => exact same.elim
  | included path => exact same.elim
  | referenced path => exact same.elim
  | entry keyText valueText =>
    obtain ⟨keyLength, valueLength⟩ := lengths_written fits clear _ (Eq.refl _)
    refine ⟨_, _, parseEntry_scan strips scanned, ?_⟩
    rw [keyLength, valueLength]
    exact ⟨same.1.read inside, same.2.read inside, cacheLen_right _, cacheLen_right _⟩

/-- A value of a quote, a comment sign and a backslash, in the middle of a buffer that is borrowed
from. -/
theorem parseEntry_dump_quoted : ∃ after parsed,
      parseEntry (endLine ([newline] ++ (((Cached.mk (.owned [0x61]) (.owned [quote, hash, backslash])
        1 0).dump []).flatten ++ [0x62])) 1) 1 0 true = (after, some parsed) ∧
      parsed.Says [after] [0x61] [quote, hash, backslash] :=
  @parseEntry_dump [0x61] [quote, hash, backslash] []
    ⟨.owned [0x61], .owned [quote, hash, backslash], 1, 0⟩ ⟨rfl, rfl, .inr rfl, .inl rfl⟩
    (by decide) (by simp [isPlain, hash, quote]) (by decide) (by decide) [newline] [0x62] [[]] 0
    (by decide) true

/-- An empty key has no byte that is not plain, and its line is none of an entry. -/
theorem parseEntry_dump_keyless : (Cached.mk (.owned []) (.owned [0x61]) 0 1).Says [] [] [0x61] ∧
      (∀ byte ∈ ([] : List UInt8), isPlain byte ∧ byte ≠ 0x20) ∧
      (parseEntry (endLine ((Cached.mk (.owned []) (.owned [0x61]) 0 1).dump []).flatten 0)
        0 0 false).2 = none :=
  ⟨Cached.Says.mk rfl rfl (.inl rfl) (.inr rfl), by simp, rfl⟩

end Libretro.ConfigFile
