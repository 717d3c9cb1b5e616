import Libretro.Files.ConfigFile
import Mathlib.Data.List.TakeWhile

/-! What lines, texts and files, whole or in pieces, make of a configuration. -/

namespace Libretro.ConfigFile

open List Config Nat Text

section Map

variable {Text Other : Type} (read : Text → Other)

/-- A node with its texts replaced. -/
def Entry.map (entry : Entry Text) : Entry Other where
  key := entry.key.map read
  value := entry.value.map read
  readonly := entry.readonly

/-- A configuration with its texts replaced. -/
def Config.map (conf : Config Text) : Config Other where
  path := conf.path
  entries := conf.entries.map (Entry.map read)
  tail := conf.tail
  entriesMap := conf.entriesMap
  includes := conf.includes
  references := conf.references
  includeDepth := conf.includeDepth

end Map

/-- What was parsed, by the bytes of its texts. -/
def contents (parsed : Memory × Config Text) : Config (List UInt8) := parsed.2.map (read parsed.1)

section Reads

variable {Text : Type} (read : Text → List UInt8) (conf : Config Text)

theorem Config.keyAt_map (node : Nat) : (conf.map read).keyAt id node = conf.keyAt read node := by
  rw [keyAt, keyAt, map, getElem?_map]
  cases conf.entries[node]? with
  | none => rfl
  | some entry => simp [Entry.map]

theorem Config.getEntry_map (key : List UInt8) :
    (conf.map read).getEntry id key = conf.getEntry read key := by
  rw [getEntry, getEntry]
  simp only [keyAt_map]
  rfl

theorem Config.lookup_map (key : List UInt8) : (conf.map read).lookup id key = conf.lookup read key := by
  rw [lookup, lookup, getEntry_map]
  cases conf.getEntry read key with
  | none => rfl
  | some node =>
    simp only [Option.bind_some, map, getElem?_map]
    cases conf.entries[node]? with
    | none => rfl
    | some entry => simp [Entry.map]

theorem Config.insertNew_map (node : Nat) :
    (conf.insertNew read node).map read = (conf.map read).insertNew id node := by
  rw [insertNew, insertNew, keyAt_map]
  cases conf.keyAt read node with
  | none => rfl
  | some key =>
    simp only [getEntry_map]
    split <;> rfl

theorem Config.upToTail_map : (conf.map read).upToTail = conf.upToTail.map (Entry.map read) := by
  rw [upToTail, upToTail]
  rw [show (conf.map read).tail = conf.tail from rfl]
  cases conf.tail with
  | none => rfl
  | some tail => exact (map_take ..).symm

theorem Config.append_map (entry : Entry Text) :
    (conf.append read entry).map read = (conf.map read).append id (entry.map read) := by
  rw [append, append, insertNew_map, upToTail_map, length_map]
  congr 1
  simp [map]

theorem Config.marked_map : (conf.map read).marked = conf.marked.map read := by
  rw [marked, marked, map, map, map_map, map_map]
  rfl

theorem Config.splice_map (child : Config Text) :
    (conf.map read).splice (child.map read) = (conf.splice child).map read := by
  have entries : (conf.map read).upToTail ++ (child.map read).entries =
      (conf.upToTail ++ child.entries).map (Entry.map read) := by
    rw [upToTail_map, map_append]
    rfl
  rw [splice, splice, entries, upToTail_map, length_map, length_map, isEmpty_map]
  rfl

/-- An included list is taken in by the bytes of its texts. -/
theorem Config.addChildList_map (child : Config Text) : (conf.addChildList read child).map read =
      (conf.map read).addChildList id (child.map read) := by
  have inserts : ∀ (nodes : List Nat) (conf : Config Text), (nodes.foldl (insertNew read) conf).map read =
        nodes.foldl (insertNew id) (conf.map read) := by
    intro nodes
    induction nodes with
    | nil => exact fun _ => rfl
    | cons node nodes ih =>
      intro conf
      rw [foldl_cons, foldl_cons, ih, insertNew_map]
  have none : (conf.map read).entries.isEmpty = conf.entries.isEmpty := isEmpty_map
  rw [addChildList, addChildList, marked_map, splice_map, none, upToTail_map, length_map]
  cases conf.entries.isEmpty with
  | true => rfl
  | false => exact inserts _ _

end Reads

/-- The lines of a text, without their ends. -/
@[simp] def lines : List UInt8 → List (List UInt8)
  | [] => [[]]
  | byte :: rest =>
    if byte = newline then [] :: lines rest
    else match lines rest with
      | [] => [[byte]]
      | line :: more => (byte :: line) :: more

/-- The lines that are parsed: those that are not empty, up to a zero byte. -/
def textLines (text : List UInt8) : List (List UInt8) := (lines (text.takeWhile (· ≠ 0))).filter (!·.isEmpty)

/-- What a line makes of a configuration. -/
def Config.line (world : World) (load : Nat → List UInt8 → Option (Config (List UInt8)))
    (conf : Config (List UInt8)) (line : List UInt8) : Config (List UInt8) :=
  match lineSays line with
  | .nothing => conf
  | .included path =>
    if path.isEmpty ∨ maxIncludeDepth ≤ conf.includeDepth then conf
    else
      let conf := conf.addSubConf path
      let conf := match load (conf.includeDepth + 1) (world.realpath conf.path path) with
        | none => conf
        | some child => conf.addChildList id child
      conf.append id {}
  | .referenced path => (conf.addReference world path).append id {}
  | .entry key value => conf.append id { key := some key, value := some value }

/-- What a text makes of a configuration. -/
def Config.text (world : World) (load : Nat → List UInt8 → Option (Config (List UInt8)))
    (conf : Config (List UInt8)) (text : List UInt8) : Config (List UInt8) :=
  (textLines text).foldl (Config.line world load) conf

/-- The configuration of a file, with includes as deep as the levels allow. -/
def expand (world : World) : Nat → Nat → List UInt8 → Option (Config (List UInt8))
  | 0, _, _ => none
  | levels + 1, depth, path =>
    (world.readFile path).map fun text =>
      Config.text world (expand world levels) { path := some path, includeDepth := depth } text

theorem lines_append {line rest : List UInt8} (whole : newline ∉ line) :
    lines (line ++ newline :: rest) = line :: lines rest := by
  induction line with
  | nil => rfl
  | cons byte line ih =>
    rw [mem_cons, not_or] at whole
    rw [cons_append, lines, if_neg (fun same => whole.1 same.symm), ih whole.2]

theorem lines_single {line : List UInt8} (whole : newline ∉ line) : lines line = [line] := by
  induction line with
  | nil => rfl
  | cons byte line ih =>
    rw [mem_cons, not_or] at whole
    rw [lines, if_neg (fun same => whole.1 same.symm), ih whole.2]

theorem lines_ne_nil (text : List UInt8) : lines text ≠ [] := by
  cases text with
  | nil => exact nofun
  | cons byte rest =>
    rw [lines]
    split
    · exact nofun
    · split <;> exact nofun

theorem lines_lines (first second : List UInt8) :
    lines (first ++ newline :: second) = lines first ++ lines second := by
  induction first with
  | nil => rfl
  | cons byte first ih =>
    rw [cons_append, lines, lines, ih]
    split
    · rfl
    · cases first' : lines first with
      | nil => exact absurd first' (lines_ne_nil first)
      | cons line more => rfl

open CString Option Memory

/-- A text that is still read as it is when a buffer is written from a line on. -/
def Text.Fixed (memory : Memory) (low address line : Nat) : Text → Prop
  | .owned _ => True
  | .borrowed buffer place => low ≤ buffer ∧ buffer < memory.length ∧
    (buffer = address → place + (string (memory.buffer buffer) place).length < line)

/-- Memory in which one buffer is written from a line on, and buffers are added. -/
structure Memory.After (address line : Nat) (memory after : Memory) : Prop where
  length : memory.length ≤ after.length
  others : ∀ buffer < memory.length, buffer ≠ address → after.buffer buffer = memory.buffer buffer
  keeps : Keeps line (memory.buffer address) (after.buffer address)

section Memory

variable {memory after last : Memory} {low address line next : Nat} {text : Text}

theorem Memory.After.refl (address line : Nat) (memory : Memory) : Memory.After address line memory memory :=
  ⟨le_refl _, fun _ _ _ => rfl, .refl _ _⟩

theorem Memory.After.trans (first : Memory.After address line memory after)
    (second : Memory.After address next after last) (behind : line ≤ next) :
    Memory.After address line memory last where
  length := le_trans first.length second.length
  others := fun buffer inside other => by
    rw [second.others buffer (lt_of_lt_of_le inside first.length) other, first.others buffer inside other]
  keeps := first.keeps.trans (second.keeps.earlier behind)

theorem Text.Fixed.stays (fixed : text.Fixed memory low address line)
    (writes : Memory.After address line memory after) (behind : line ≤ next) :
    text.Fixed after low address next ∧ text.read after = text.read memory := by
  cases text with
  | owned bytes => exact ⟨trivial, rfl⟩
  | borrowed buffer place =>
    obtain ⟨least, inside, ends⟩ := fixed
    have same : string (after.buffer buffer) place = string (memory.buffer buffer) place := by
      by_cases own : buffer = address
      · subst own
        exact writes.keeps.string (ends rfl)
      · rw [writes.others buffer inside own]
    refine ⟨⟨least, lt_of_lt_of_le inside writes.length, fun own => ?_⟩, same⟩
    rw [same]
    exact lt_of_lt_of_le (ends own) behind

theorem Memory.buffer_set (inside : address < memory.length) (buffer : List UInt8) :
    Memory.buffer (memory.set address buffer) address = buffer := by
  rw [Memory.buffer, getD_eq_getElem?_getD, getElem?_set_self inside]
  rfl

theorem Memory.after_set {buffer : List UInt8} (inside : address < memory.length)
    (keeps : Keeps line (memory.buffer address) buffer) :
    Memory.After address line memory (memory.set address buffer) where
  length := le_of_eq length_set.symm
  others := fun other _ different => by
    rw [Memory.buffer, Memory.buffer, getD_eq_getElem?_getD, getD_eq_getElem?_getD,
      getElem?_set_ne (Ne.symm different)]
  keeps := by
    rw [buffer_set inside]
    exact keeps

end Memory

section Each

variable {Text Other : Type} {holds other : Text → Prop}

/-- Every text of a node is such a one. -/
def Entry.Each (holds : Text → Prop) (entry : Entry Text) : Prop :=
  (∀ text ∈ entry.key, holds text) ∧ ∀ text ∈ entry.value, holds text

/-- Every text of a configuration is such a one. -/
def Config.Each (holds : Text → Prop) (conf : Config Text) : Prop := ∀ entry ∈ conf.entries, entry.Each holds

theorem Config.Each.imp {conf : Config Text} (each : conf.Each holds)
    (implies : ∀ text, holds text → other text) : conf.Each other :=
  fun entry listed => ⟨fun text is => implies text ((each entry listed).1 text is),
    fun text is => implies text ((each entry listed).2 text is)⟩

theorem Config.Each.map {conf : Config Text} {read read' : Text → Other}
    (each : conf.Each fun text => read text = read' text) : conf.map read = conf.map read' := by
  have nodes : conf.entries.map (Entry.map read) = conf.entries.map (Entry.map read') := by
    apply map_congr_left
    intro entry listed
    obtain ⟨key, value⟩ := each entry listed
    have same : ∀ {text : Option Text}, (∀ some ∈ text, read some = read' some) →
        text.map read = text.map read' := by
      intro text same
      cases text with
      | none => rfl
      | some text => rw [map_some, map_some, same text rfl]
    rw [Entry.map, Entry.map, same key, same value]
  rw [Config.map, Config.map, nodes]

variable {read : Text → List UInt8} {conf child : Config Text}

theorem Config.insertNew_entries (node : Nat) : (conf.insertNew read node).entries = conf.entries := by
  rw [insertNew]
  split
  · rfl
  · split <;> rfl

theorem Config.insertNew_tail (node : Nat) : (conf.insertNew read node).tail = conf.tail := by
  rw [insertNew]
  split
  · rfl
  · split <;> rfl

theorem Config.inserts_same (nodes : List Nat) (conf : Config Text) :
    (nodes.foldl (insertNew read) conf).entries = conf.entries ∧
      (nodes.foldl (insertNew read) conf).tail = conf.tail := by
  induction nodes generalizing conf with
  | nil => exact ⟨rfl, rfl⟩
  | cons node nodes ih =>
    rw [foldl_cons, (ih _).1, (ih _).2, Config.insertNew_entries, insertNew_tail]
    exact ⟨rfl, rfl⟩

theorem Config.mem_upToTail {entry : Entry Text} (listed : entry ∈ conf.upToTail) : entry ∈ conf.entries := by
  rw [upToTail] at listed
  split at listed
  · exact listed
  · exact mem_of_mem_take listed

theorem Config.Each.append {entry : Entry Text} (each : conf.Each holds)
    (new : entry.Each holds) : (conf.append read entry).Each holds := by
  rw [Config.Each, Config.append, Config.insertNew_entries]
  intro node listed
  rcases mem_append.1 listed with listed | listed
  · exact each node (mem_upToTail listed)
  · rw [mem_singleton.1 listed]
    exact new

theorem Config.Each.addChildList (each : conf.Each holds) (childEach : child.Each holds) :
    (conf.addChildList read child).Each holds := by
  have nodes : (conf.addChildList read child).entries = conf.upToTail ++ child.marked.entries := by
    rw [Config.addChildList]
    cases conf.entries.isEmpty with
    | true => rfl
    | false => exact (inserts_same _ _).1
  rw [Config.Each, nodes]
  intro node listed
  rcases mem_append.1 listed with listed | listed
  · exact each node (mem_upToTail listed)
  · obtain ⟨entry, is, rfl⟩ := mem_map.1 listed
    exact childEach entry is

theorem Entry.each_empty : ({} : Entry Text).Each holds := ⟨nofun, nofun⟩

end Each

/-- A loader that reads files as the bytes of their texts say, into new buffers. -/
def Loads (load : Loader) (expands : Nat → List UInt8 → Option (Config (List UInt8))) : Prop :=
  ∀ memory depth path, load memory depth path = none ∧ expands depth path = none ∨
      ∃ after child, load memory depth path = some (after, child) ∧
        expands depth path = some (child.map (read after)) ∧
        memory.length ≤ after.length ∧
        (∀ buffer < memory.length, after.buffer buffer = memory.buffer buffer) ∧
        child.Each fun text => ∀ buffer place, text = .borrowed buffer place →
          memory.length ≤ buffer ∧ buffer < after.length

section Line

variable {world : World} {load : Loader} {expands : Nat → List UInt8 → Option (Config (List UInt8))}
  {memory : Memory} {conf : Config Text} {low address : Nat} {borrow : Bool}
  {front line back : List UInt8}

theorem Text.Is.fixed {text : Text} {limit : Nat} {bytes : List UInt8}
    (is : text.Is borrow (memory.buffer address) address limit bytes)
    (least : borrow = true → low ≤ address) (inside : address < memory.length) :
    text.Fixed memory low address (limit + 1) ∧ text.read memory = bytes := by
  cases text with
  | owned own => exact ⟨trivial, is⟩
  | borrowed buffer place =>
    obtain ⟨borrows, rfl, same, ends⟩ := is
    refine ⟨⟨least borrows, inside, fun _ => ?_⟩, same⟩
    rw [same]
    exact lt_succ_of_le ends

theorem parseLine_line (loads : Loads load expands)
    (buffer : memory.buffer address = front ++ (line ++ back)) (ends : byteAt back 0 = 0)
    (inside : address < memory.length) (least : borrow = true → low ≤ address) (near : low ≤ address + 1)
    (each : conf.Each (Fixed memory low address front.length)) :
    ∃ memory' conf' entry after,
      parseLine world load memory conf address front.length borrow = (memory', conf', entry) ∧
      memory'.buffer address = front ++ (after ++ back) ∧ after.length = line.length ∧
      Memory.After address front.length memory memory' ∧
      (match entry with
        | none => conf'
        | some entry => conf'.append (read memory') entry).map (read memory') =
        (conf.map (read memory)).line world expands line ∧
      (match entry with
        | none => conf'
        | some entry => conf'.append (read memory') entry).Each
        (Fixed memory' low address (front.length + line.length + 1)) := by
  obtain ⟨after, found, scans, length, is⟩ := @scanLine_inside front line back address borrow ends
  have keeps : Keeps front.length (memory.buffer address) (front ++ (after ++ back)) := by
    rw [buffer]
    refine ⟨by simp only [length_append, length], ?_⟩
    rw [take_left, take_left]
  have writes := after_set inside keeps
  have here := buffer_set inside (front ++ (after ++ back))
  have inside' : address < (memory.set address (front ++ (after ++ back))).length := by
    rw [length_set]
    exact inside
  rw [parseLine, buffer, scans, Config.line]
  simp only
  generalize memory.set address (front ++ (after ++ back)) = memory' at writes here inside'
  -- The configuration is read after the line as it was before.
  have fixed : conf.Each (Fixed memory' low address (front.length + line.length + 1)) :=
    each.imp fun text is => (is.stays writes (by omega)).1
  have same : conf.map (read memory') = conf.map (read memory) :=
    (each.imp fun text is => (is.stays writes (le_refl _)).2).map
  rw [← here] at is
  cases found with
  | nothing =>
    cases told : lineSays line with
    | nothing => exact ⟨memory', conf, none, after, rfl, here, length, writes, same, fixed⟩
    | included path | referenced path | entry key value =>
      rw [told] at is
      exact is.elim
  | referenced path =>
    cases told : lineSays line with
    | nothing | included path | entry key value =>
      rw [told] at is
      exact is.elim
    | referenced path' =>
      rw [told] at is
      obtain rfl : path = path' := is
      refine ⟨memory', _, _, after, rfl, here, length, writes, ?_, ?_⟩
      · rw [append_map, ← same]
        rfl
      · exact Config.Each.append fixed Entry.each_empty
  | entry key value =>
    cases told : lineSays line with
    | nothing | included path | referenced path =>
      rw [told] at is
      exact is.elim
    | entry key' value' =>
      rw [told] at is
      obtain ⟨keyFixed, keyRead⟩ := is.1.fixed least inside'
      obtain ⟨valueFixed, valueRead⟩ := is.2.fixed least inside'
      refine ⟨memory', _, _, after, rfl, here, length, writes, ?_, ?_⟩
      · rw [append_map, same, ← keyRead, ← valueRead]
        rfl
      · refine Config.Each.append fixed ⟨?_, ?_⟩
        · intro text own
          exact some.inj own ▸ keyFixed
        · intro text own
          exact some.inj own ▸ valueFixed
  | included path =>
    cases told : lineSays line with
    | nothing | referenced path | entry key value =>
      rw [told] at is
      exact is.elim
    | included path' =>
      rw [told] at is
      obtain rfl : path = path' := is
      have depth : (conf.map (read memory)).includeDepth = conf.includeDepth := rfl
      simp only [depth]
      by_cases refused : path.isEmpty = true ∨ maxIncludeDepth ≤ conf.includeDepth
      · rw [if_pos refused, if_pos refused]
        exact ⟨memory', conf, none, after, rfl, here, length, writes, same, fixed⟩
      · rw [if_neg refused, if_neg refused]
        have loaded := loads memory' (conf.includeDepth + 1) (world.realpath conf.path path)
        rcases loaded with ⟨absent, absent'⟩ | ⟨last, child, present, present', more, others, own⟩
        · refine ⟨memory', conf.addSubConf path, some {}, after, ?_, here, length, writes, ?_, ?_⟩
          · simp only [addSubConf, absent]
          · simp only [append_map]
            rw [← same]
            simp only [addSubConf, Config.map, absent']
            rfl
          · exact Config.Each.append fixed Entry.each_empty
        · have added : Memory.After address (front.length + line.length + 1) memory' last :=
            ⟨more, fun buffer within _ => others buffer within, by
              rw [others address inside']
              exact .refl _ _⟩
          refine ⟨last, (conf.addSubConf path).addChildList (read last) child, some {}, after,
            ?_, ?_, length, writes.trans added (by omega), ?_, ?_⟩
          · simp only [addSubConf, present]
          · rw [others address inside', here]
          · have later : conf.map (read last) = conf.map (read memory') :=
              (fixed.imp fun text is => (is.stays added (le_refl _)).2).map
            simp only [append_map, addChildList_map]
            rw [← same, ← later]
            simp only [addSubConf, Config.map, present']
            rfl
          · refine Config.Each.append (Config.Each.addChildList ?_ ?_) Entry.each_empty
            · exact fixed.imp fun text is => (is.stays added (le_refl _)).1
            · refine own.imp fun text is => ?_
              cases text with
              | owned => trivial
              | borrowed buffer place =>
                obtain ⟨first, within⟩ := is buffer place rfl
                exact ⟨by omega, within, fun own => by omega⟩

theorem takeLine_line (loads : Loads load expands)
    (buffer : memory.buffer address = front ++ (line ++ back)) (ends : byteAt back 0 = 0)
    (clear : (0 : UInt8) ∉ line) (inside : address < memory.length)
    (least : borrow = true → low ≤ address) (near : low ≤ address + 1)
    (each : conf.Each (Fixed memory low address front.length)) :
    ∃ memory' conf' after, takeLine world load memory conf address front.length borrow = (memory', conf') ∧
      memory'.buffer address = front ++ (after ++ back) ∧ after.length = line.length ∧
      Memory.After address front.length memory memory' ∧
      conf'.map (read memory') = (if line.isEmpty then [] else [line]).foldl
        (Config.line world expands) (conf.map (read memory)) ∧
      conf'.Each (Fixed memory' low address (front.length + line.length + 1)) := by
  have first := @byteAt_inside front line back 0 ends (zero_le _)
  rw [add_zero] at first
  rw [takeLine, buffer, first]
  cases line with
  | nil =>
    have zero : byteAt ([] : List UInt8) 0 = 0 := rfl
    rw [if_pos zero]
    refine ⟨memory, conf, [], rfl, buffer, rfl, .refl _ _ _, rfl, ?_⟩
    exact each.imp fun text is => (is.stays (.refl _ _ _) (by omega)).1
  | cons byte line =>
    have nonzero : byteAt (byte :: line) 0 ≠ 0 := fun zero => clear (mem_cons.2 (.inl (Eq.symm zero)))
    rw [if_neg nonzero]
    obtain ⟨memory', conf', entry, after, parses, here, length, writes, same, fixed⟩ :=
      @parseLine_line world load expands memory conf low address borrow front (byte :: line) back
        loads buffer ends inside least near each
    rw [parses]
    cases entry with
    | none => exact ⟨memory', conf', after, rfl, here, length, writes, same, fixed⟩
    | some entry => exact ⟨memory', _, after, rfl, here, length, writes, same, fixed⟩

theorem strchr_newline {rest : List UInt8} (whole : newline ∉ line) (clear : (0 : UInt8) ∉ line) :
    strchr (front ++ (line ++ newline :: rest)) front.length newline = some (front.length + line.length) := by
  have taken : (line ++ newline :: rest).takeWhile (fun other => other ≠ newline && other ≠ 0) = line := by
    rw [takeWhile_append_of_pos, takeWhile_cons_of_neg (by simp), append_nil]
    intro byte listed
    simp only [Bool.and_eq_true, decide_eq_true_eq]
    exact ⟨fun same => whole (same ▸ listed), fun same => clear (same ▸ listed)⟩
  have found : skip (fun other => other ≠ newline && other ≠ 0)
      (front ++ (line ++ newline :: rest)) front.length = front.length + line.length := by
    rw [skip, drop_left, taken]
  rw [strchr, found, byteAt, getD_eq_getElem?_getD,
    getElem?_append_right (Nat.le_add_right ..), Nat.add_sub_cancel_left,
    getElem?_append_right (le_refl _), Nat.sub_self]
  rfl

theorem strchr_last (whole : newline ∉ line) (clear : (0 : UInt8) ∉ line) (ends : byteAt back 0 = 0) :
    strchr (front ++ (line ++ back)) front.length newline = none := by
  have inside := @strchr_inside front line back 0 newline ends (zero_le _)
  rw [add_zero] at inside
  rw [inside, map_eq_none_iff]
  have taken : line.takeWhile (fun other => other ≠ newline && other ≠ 0) = line := by
    rw [takeWhile_eq_self_iff]
    intro byte listed
    simp only [Bool.and_eq_true, decide_eq_true_eq]
    exact ⟨fun same => whole (same ▸ listed), fun same => clear (same ▸ listed)⟩
  rw [strchr, skip, List.drop_zero, taken, byteAt, getD_eq_getElem?_getD, getElem?_eq_none (by omega)]
  rfl

theorem text_cases (text : List UInt8) :
    newline ∉ text ∨ ∃ line rest, text = line ++ newline :: rest ∧ newline ∉ line := by
  induction text with
  | nil => exact .inl nofun
  | cons byte text ih =>
    by_cases same : byte = newline
    · exact .inr ⟨[], text, by rw [same]; rfl, nofun⟩
    · rcases ih with whole | ⟨line, rest, rfl, whole⟩
      · refine .inl fun listed => ?_
        rcases mem_cons.1 listed with first | listed
        · exact same first.symm
        · exact whole listed
      · refine .inr ⟨byte :: line, rest, rfl, fun listed => ?_⟩
        rcases mem_cons.1 listed with first | listed
        · exact same first.symm
        · exact whole listed

theorem textLines_cons {rest : List UInt8} (whole : newline ∉ line) (clear : (0 : UInt8) ∉ line) :
    textLines (line ++ newline :: rest) = (if line.isEmpty then [] else [line]) ++ textLines rest := by
  have taken : (line ++ newline :: rest).takeWhile (· ≠ 0) = line ++ newline :: rest.takeWhile (· ≠ 0) := by
    rw [takeWhile_append_of_pos, takeWhile_cons_of_pos (by decide)]
    intro byte listed
    rw [decide_eq_true_eq]
    exact fun same => clear (same ▸ listed)
  rw [textLines, taken, lines_append whole, filter_cons, ← textLines]
  cases line with
  | nil => rfl
  | cons byte line => rfl

theorem textLines_single (whole : newline ∉ line) (clear : (0 : UInt8) ∉ line) :
    textLines line = if line.isEmpty then [] else [line] := by
  have taken : line.takeWhile (· ≠ 0) = line := by
    rw [takeWhile_eq_self_iff]
    intro byte listed
    rw [decide_eq_true_eq]
    exact fun same => clear (same ▸ listed)
  rw [textLines, taken, lines_single whole]
  cases line with
  | nil => rfl
  | cons byte line => rfl

theorem parseBuffer_text (loads : Loads load expands) (borrow : Bool) {text back : List UInt8}
    {turns : Nat} (enough : text.length < turns)
    (buffer : memory.buffer address = front ++ (text ++ back)) (ends : byteAt back 0 = 0)
    (clear : (0 : UInt8) ∉ text) (inside : address < memory.length)
    (least : borrow = true → low ≤ address) (near : low ≤ address + 1)
    (each : conf.Each (Fixed memory low address front.length)) :
    ∃ memory' conf' after,
      parseBuffer world load address borrow turns memory conf front.length = (memory', conf') ∧
      memory'.buffer address = front ++ (after ++ back) ∧ after.length = text.length ∧
      Memory.After address front.length memory memory' ∧
      conf'.map (read memory') = (conf.map (read memory)).text world expands text ∧
      conf'.Each (Fixed memory' low address (front.length + text.length + 1)) := by
  induction turns generalizing memory conf front text with
  | zero => cases enough
  | succ turns ih =>
    have first := @byteAt_inside front text back 0 ends (zero_le _)
    rw [add_zero] at first
    rw [parseBuffer, buffer]
    simp only
    rw [first]
    rcases text_cases text with whole | ⟨line, rest, rfl, whole⟩
    · -- The last line, if there is one.
      obtain ⟨memory', conf', after, parses, here, length, writes, same, fixed⟩ :=
        @takeLine_line world load expands memory conf low address borrow front text back
          loads buffer ends clear inside least near each
      rw [strchr_last whole clear ends, Config.text, textLines_single whole clear]
      cases text with
      | nil =>
        have zero : byteAt ([] : List UInt8) 0 = 0 := rfl
        rw [if_pos zero]
        refine ⟨memory, conf, [], rfl, buffer, rfl, .refl _ _ _, rfl, ?_⟩
        exact each.imp fun text is => (is.stays (.refl _ _ _) (by omega)).1
      | cons byte text =>
        have nonzero : byteAt (byte :: text) 0 ≠ 0 := fun zero => clear (mem_cons.2 (.inl (Eq.symm zero)))
        rw [if_neg nonzero]
        simp only
        rw [parses]
        exact ⟨memory', conf', after, rfl, here, length, writes, same, fixed⟩
    · -- A line that ends: the rest is parsed behind its end, which is overwritten.
      have clearLine : (0 : UInt8) ∉ line := fun zero => clear (mem_append_left _ zero)
      have clearRest : (0 : UInt8) ∉ rest := fun zero => clear (mem_append_right _ (mem_cons_of_mem _ zero))
      have nonzero : byteAt (line ++ newline :: rest) 0 ≠ 0 := by
        cases line with
        | nil => exact nofun
        | cons byte line => exact fun zero => clearLine (mem_cons.2 (.inl (Eq.symm zero)))
      have shape : front ++ (line ++ newline :: rest ++ back) =
          front ++ (line ++ newline :: (rest ++ back)) := by
        simp only [List.append_assoc, cons_append]
      rw [if_neg nonzero, shape, strchr_newline whole clearLine]
      simp only
      have ended : (front ++ (line ++ newline :: (rest ++ back))).set
          (front.length + line.length) 0 = front ++ (line ++ 0 :: (rest ++ back)) := by
        rw [set_append_right _ _ (Nat.le_add_right ..), Nat.add_sub_cancel_left,
          set_append_right _ _ (le_refl _), Nat.sub_self]
        rfl
      have keeps : Keeps front.length (memory.buffer address)
          ((front ++ (line ++ newline :: (rest ++ back))).set (front.length + line.length) 0) := by
        rw [buffer, shape]
        exact keeps_set (Nat.le_add_right ..)
      have writes := after_set inside keeps
      have here := buffer_set inside
        ((front ++ (line ++ newline :: (rest ++ back))).set (front.length + line.length) 0)
      rw [ended] at writes here ⊢
      have inside' : address < (memory.set address (front ++ (line ++ 0 :: (rest ++ back)))).length := by
        rw [length_set]
        exact inside
      generalize memory.set address (front ++ (line ++ 0 :: (rest ++ back))) = memory₁
        at writes here inside' ⊢
      have fixed := each.imp fun text is => (is.stays writes (le_refl _)).1
      have same : conf.map (read memory₁) = conf.map (read memory) :=
        (each.imp fun text is => (is.stays writes (le_refl _)).2).map
      obtain ⟨memory₂, conf₂, after, parses, here₂, length, writes₂, same₂, fixed₂⟩ :=
        @takeLine_line world load expands memory₁ conf low address borrow front line
          (0 :: (rest ++ back)) loads here rfl clearLine inside' least near fixed
      rw [parses]
      simp only
      have place : (front ++ after ++ [0]).length = front.length + line.length + 1 := by
        simp only [length_append, length_singleton, length]
      have here₂' : memory₂.buffer address = front ++ after ++ [0] ++ (rest ++ back) := by
        rw [here₂]
        simp only [List.append_assoc, singleton_append]
      rw [length_append, length_cons] at enough
      obtain ⟨memory', conf', after', parses', here', length', writes', same', fixed'⟩ :=
        @ih memory₂ conf₂ (front ++ after ++ [0]) rest (by omega) here₂' clearRest
          (lt_of_lt_of_le inside' writes₂.length) (place ▸ fixed₂)
      rw [place] at parses' writes' fixed'
      rw [parses']
      refine ⟨memory', conf', after ++ 0 :: after', rfl, ?_, ?_, ?_, ?_, ?_⟩
      · rw [here']
        simp only [List.append_assoc, cons_append, nil_append]
      · simp only [length_append, length_cons, length, length']
      · exact (writes.trans writes₂ (le_refl _)).trans writes' (by omega)
      · rw [same', Config.text, Config.text, textLines_cons whole clearLine, foldl_append,
          same₂, same]
      · rw [length_append, length_cons]
        exact fixed'.imp fun text is => (is.stays (.refl _ _ _) (by omega)).1

theorem textLines_zero {text : List UInt8} (clear : (0 : UInt8) ∉ text) (ends : byteAt back 0 = 0) :
    textLines (text ++ back) = textLines text := by
  have all : ∀ byte ∈ text, decide (byte ≠ 0) = true := by
    intro byte listed
    rw [decide_eq_true_eq]
    exact fun same => clear (same ▸ listed)
  rw [textLines, textLines, takeWhile_append_of_pos all]
  cases back with
  | nil => rw [takeWhile_nil, append_nil, takeWhile_eq_self_iff.2 all]
  | cons byte back =>
    obtain rfl : byte = 0 := ends
    rw [takeWhile_cons_of_neg (by simp), append_nil, takeWhile_eq_self_iff.2 all]

/-- A buffer that is parsed from its start. -/
theorem parse_text (loads : Loads load expands) (borrow : Bool) {text back : List UInt8}
    (buffer : memory.buffer address = text ++ back) (ends : byteAt back 0 = 0)
    (clear : (0 : UInt8) ∉ text) (inside : address < memory.length)
    (least : borrow = true → low ≤ address) (near : low ≤ address + 1)
    (each : conf.Each (Fixed memory low address 0)) :
    ∃ memory' conf' after, memory.parse world load conf address borrow = (memory', conf') ∧
      memory'.buffer address = after ++ back ∧ after.length = text.length ∧
      Memory.After address 0 memory memory' ∧
      conf'.map (read memory') = (conf.map (read memory)).text world expands text ∧
      conf'.Each (Fixed memory' low address (text.length + 1)) := by
  have enough : text.length < (memory.buffer address).length + 1 := by
    rw [buffer, length_append]
    omega
  obtain ⟨memory', conf', after, parses, here, length, writes, same, fixed⟩ :=
    @parseBuffer_text world load expands memory conf low address [] loads borrow text back _
      enough buffer ends clear inside least near each
  refine ⟨memory', conf', after, parses, here, length, writes, same, ?_⟩
  rwa [length_nil, zero_add] at fixed

theorem text_split (buffer : List UInt8) :
    ∃ text back, buffer = text ++ back ∧ byteAt back 0 = 0 ∧ (0 : UInt8) ∉ text := by
  refine ⟨buffer.takeWhile (· ≠ 0), buffer.dropWhile (· ≠ 0),
    takeWhile_append_dropWhile.symm, ?_, fun zero => ?_⟩
  · cases shape : buffer.dropWhile (· ≠ 0) with
    | nil => rfl
    | cons byte rest =>
      have stops := head?_dropWhile_not (· ≠ 0) buffer
      rw [shape] at stops
      show byte = 0
      simpa using stops
  · have taken := (all_eq_true.1 all_takeWhile) 0 zero
    simp at taken

/-- Files are loaded as they are expanded, at every depth. -/
theorem loadInternal_loads (world : World) (levels : Nat) :
    Loads (loadInternal world levels) (expand world levels) := by
  induction levels with
  | zero => exact fun _ _ _ => .inl ⟨rfl, rfl⟩
  | succ levels ih =>
    intro memory depth path
    rw [loadInternal, expand]
    cases world.readFile path with
    | none => exact .inl ⟨rfl, rfl⟩
    | some file =>
      obtain ⟨text, back, rfl, ends, clear⟩ := text_split file
      have here : Memory.buffer (memory ++ [text ++ back]) memory.length = text ++ back := by
        rw [Memory.buffer, getD_eq_getElem?_getD, getElem?_append_right (le_refl _), Nat.sub_self]
        rfl
      have before : ∀ buffer < memory.length,
          Memory.buffer (memory ++ [text ++ back]) buffer = memory.buffer buffer := by
        intro buffer inside
        rw [Memory.buffer, Memory.buffer, getD_eq_getElem?_getD, getD_eq_getElem?_getD,
          getElem?_append_left inside]
      obtain ⟨memory', conf', after, parses, -, -, writes, same, fixed⟩ :=
        @parse_text world _ _ (memory ++ [text ++ back])
          { path := some path, includeDepth := depth } memory.length memory.length ih true
          text back here ends clear (by simp) (fun _ => le_refl _) (le_succ _)
          nofun
      refine .inr ⟨memory', conf', congrArg some parses, ?_, ?_, ?_, ?_⟩
      · rw [map_some, same, Config.text, Config.text, textLines_zero clear ends]
        rfl
      · have more := writes.length
        rw [length_append] at more
        omega
      · intro buffer inside
        rw [writes.others buffer (by rw [length_append]; omega) (Nat.ne_of_lt inside),
          before buffer inside]
      · refine fixed.imp fun text is buffer place borrowed => ?_
        subst borrowed
        exact ⟨is.1, is.2.1⟩

end Line

open CString

/-- The configuration of a path before anything is parsed. -/
def emptyConfig (path : Option (List UInt8)) : Config (List UInt8) := { path := path.filter (!·.isEmpty) }

variable {world : World} {path : Option (List UInt8)}

theorem parse_string (text : List UInt8) (borrow : Bool) :
    contents (Memory.parse [text] world (loadInternal world maxIncludeDepth) (newConfig path) 0
      borrow) = (emptyConfig path).text world (expand world maxIncludeDepth) text := by
  obtain ⟨text, back, rfl, ends, clear⟩ := text_split text
  obtain ⟨memory, conf, after, parses, -, -, -, same, -⟩ :=
    @parse_text world _ _ [text ++ back] (newConfig path) 0 0 (loadInternal_loads world _) borrow
      text back rfl ends clear zero_lt_one (fun _ => zero_le _) (zero_le _) nofun
  rw [parses, contents, same, Config.text, Config.text, textLines_zero clear ends]
  rfl

theorem lastNewline_some {window : List UInt8} {start cut head : Nat} (inside : cut ≤ window.length)
    (behind : newline ∉ window.drop cut) (last : lastNewline window start cut = some head) :
    ∃ front tail, window = front ++ newline :: tail ∧ head = front.length + 1 ∧ newline ∉ tail := by
  -- The induction goes backwards, and what is behind has no end of a line.
  induction cut with
  | zero => cases last
  | succ cut ih =>
    have shape : window.drop cut = byteAt window cut :: window.drop (cut + 1) := by
      rw [drop_eq_getElem_cons inside, byteAt, getD_eq_getElem?_getD, getElem?_eq_getElem inside]
      rfl
    rw [lastNewline] at last
    split at last
    · split at last
      · rename_i found
        refine ⟨window.take cut, window.drop (cut + 1), ?_, ?_, behind⟩
        · rw [← found, ← shape, take_append_drop]
        · rw [length_take, min_eq_left (by omega)]
          exact (Option.some.inj last).symm
      · rename_i other
        refine ih (by omega) ?_ last
        rw [shape, mem_cons, not_or]
        exact ⟨fun same => other same.symm, behind⟩
    · cases last

theorem lastNewline_none {window : List UInt8} {start cut : Nat} (inside : cut ≤ window.length)
    (behind : newline ∉ window.drop cut) (after : start ≤ cut)
    (none : lastNewline window start cut = none) : newline ∉ window.drop start := by
  induction cut with
  | zero =>
    obtain rfl : start = 0 := le_zero.1 after
    exact behind
  | succ cut ih =>
    have shape : window.drop cut = byteAt window cut :: window.drop (cut + 1) := by
      rw [drop_eq_getElem_cons inside, byteAt, getD_eq_getElem?_getD, getElem?_eq_getElem inside]
      rfl
    rw [lastNewline] at none
    split at none
    · rename_i below
      split at none
      · cases none
      · rename_i other
        refine ih (by omega) ?_ (by omega) none
        rw [shape, mem_cons, not_or]
        exact ⟨fun same => other same.symm, behind⟩
    · obtain rfl : start = cut + 1 := by omega
      exact behind

/-- Of the bytes that were pushed into a stream, those that are done were parsed, and the others are
in the window. -/
structure Stream.Parsed (world : World) (path : Option (List UInt8)) (stream : Stream)
    (bytes done : List UInt8) : Prop where
  text : bytes.takeWhile (· ≠ 0) = done ++ stream.window
  ended : stream.ended = bytes.contains 0
  whole : newline ∉ stream.window
  lines : done = [] ∨ ∃ front, done = front ++ [newline]
  inside : 0 < stream.memory.length
  -- Nothing borrows from the window.
  own : stream.conf.Each (Fixed stream.memory 1 0 0)
  same : stream.conf.map (read stream.memory) =
    (emptyConfig path).text world (expand world maxIncludeDepth) done

theorem Stream.parsed_new : (Stream.new path).Parsed world path [] [] where
  text := rfl
  ended := rfl
  whole := nofun
  lines := .inl rfl
  inside := zero_lt_one
  own := nofun
  same := rfl

theorem takeWhile_ended {bytes data : List UInt8} (ended : (0 : UInt8) ∈ bytes) :
    (bytes ++ data).takeWhile (· ≠ 0) = bytes.takeWhile (· ≠ 0) := by
  induction bytes with
  | nil => cases ended
  | cons byte bytes ih =>
    rw [cons_append, takeWhile_cons, takeWhile_cons]
    split
    · rename_i nonzero
      rcases mem_cons.1 ended with same | ended
      · simp [← same] at nonzero
      · rw [ih ended]
    · rfl

theorem textLines_append {done window : List UInt8} (clear : (0 : UInt8) ∉ done ++ window)
    (whole : done = [] ∨ ∃ front, done = front ++ [newline]) :
    textLines (done ++ window) = textLines done ++ textLines window := by
  have all : ∀ {bytes : List UInt8}, (0 : UInt8) ∉ bytes → bytes.takeWhile (· ≠ 0) = bytes := by
    intro bytes clear
    rw [takeWhile_eq_self_iff]
    intro byte listed
    rw [decide_eq_true_eq]
    exact fun same => clear (same ▸ listed)
  have clearWindow : (0 : UInt8) ∉ window := fun zero => clear (mem_append_right _ zero)
  rcases whole with rfl | ⟨front, rfl⟩
  · rfl
  · have clearFront : (0 : UInt8) ∉ front ++ [newline] := fun zero => clear (mem_append_left _ zero)
    rw [textLines, textLines, textLines, all clear, all clearFront, all clearWindow,
      append_assoc, singleton_append, lines_lines, lines_lines, filter_append,
      filter_append]
    congr 1
    rw [show lines [] = [[]] from rfl]
    simp

theorem Text.Fixed.window {text : Text} {memory : Memory} {line : Nat}
    (fixed : text.Fixed memory 1 0 line) (window : List UInt8) :
    text.Fixed (memory.set 0 window) 1 0 0 ∧ text.read (memory.set 0 window) = text.read memory := by
  cases text with
  | owned bytes => exact ⟨trivial, rfl⟩
  | borrowed buffer place =>
    obtain ⟨least, inside, -⟩ := fixed
    refine ⟨⟨least, by rwa [length_set], fun same => absurd least (by omega)⟩, ?_⟩
    rw [read, read, Memory.buffer, Memory.buffer, getD_eq_getElem?_getD,
      getD_eq_getElem?_getD, getElem?_set_ne (by omega)]

variable {stream : Stream} {bytes done : List UInt8}

variable (parsed : stream.Parsed world path bytes done)
include parsed

theorem Stream.Parsed.grow {data taken : List UInt8}
    (text : (bytes ++ data).takeWhile (· ≠ 0) = done ++ (stream.window ++ taken))
    (whole : newline ∉ stream.window ++ taken) :
    ({ stream with
        memory := stream.memory.set 0 (stream.window ++ taken)
        ended := (bytes ++ data).contains 0 } : Stream).Parsed world path (bytes ++ data) done where
  text := by
    have window := Memory.buffer_set parsed.inside (stream.window ++ taken)
    exact text.trans (congrArg (done ++ ·) window.symm)
  ended := rfl
  whole := by
    have window := Memory.buffer_set parsed.inside (stream.window ++ taken)
    exact fun listed => whole (window ▸ listed)
  lines := parsed.lines
  inside := by
    rw [length_set]
    exact parsed.inside
  own := parsed.own.imp fun text fixed => (fixed.window _).1
  same := by
    rw [← parsed.same]
    exact (parsed.own.imp fun text fixed => (fixed.window _).2).map

omit parsed

theorem restore_tail {after tail : List UInt8} {head : Nat} (length : after.length = head) :
    ((after ++ tail.set 0 0).set head (byteAt tail 0)).drop head = tail := by
  subst length
  rw [set_append_right _ _ (Nat.le_refl _), Nat.sub_self, drop_left]
  cases tail <;> rfl

include parsed

theorem Stream.Parsed.parse {data taken front tail : List UInt8}
    (text : (bytes ++ data).takeWhile (· ≠ 0) = done ++ (stream.window ++ taken))
    (shape : stream.window ++ taken = front ++ newline :: tail) (whole : newline ∉ tail) :
    let head := front.length + 1
    let parse := Memory.parse (stream.memory.set 0 ((stream.window ++ taken).set head 0)) world
      (loadInternal world maxIncludeDepth) stream.conf 0 false
    ({ memory := parse.1.set 0
        (((parse.1.buffer 0).set head (byteAt (stream.window ++ taken) head)).drop head)
       conf := parse.2
       ended := (bytes ++ data).contains 0 } : Stream).Parsed world path (bytes ++ data)
      (done ++ (front ++ [newline])) := by
  intro head parse
  have clear : (0 : UInt8) ∉ done ++ (front ++ newline :: tail) := by
    rw [← shape, ← text]
    intro zero
    have taken := (all_eq_true.1 all_takeWhile) 0 zero
    simp at taken
  have clearFront : (0 : UInt8) ∉ front ++ [newline] := by
    intro zero
    refine clear (mem_append_right _ ?_)
    rw [← singleton_append, ← append_assoc]
    exact mem_append_left _ zero
  -- The window while it is parsed: whole lines, and a zero byte in the place of the next.
  have cut : (stream.window ++ taken).set head 0 = (front ++ [newline]) ++ tail.set 0 0 := by
    rw [shape, ← singleton_append, ← append_assoc, set_append_right _ _ (by simp [head])]
    congr 2
    simp [head]
  have here := Memory.buffer_set parsed.inside ((stream.window ++ taken).set head 0)
  have fixed := parsed.own.imp fun text is =>
    (is.window ((stream.window ++ taken).set head 0)).1
  have kept : stream.conf.map (read (stream.memory.set 0 ((stream.window ++ taken).set head 0))) =
      stream.conf.map (read stream.memory) :=
    (parsed.own.imp fun text is => (is.window ((stream.window ++ taken).set head 0)).2).map
  obtain ⟨memory, conf, after, parses, there, length, writes, same, own⟩ :=
    @parse_text world _ _ (stream.memory.set 0 ((stream.window ++ taken).set head 0)) stream.conf
      1 0 (loadInternal_loads world maxIncludeDepth) false (front ++ [newline]) (tail.set 0 0)
      (here.trans cut) byteAt_set clearFront (by rw [length_set]; exact parsed.inside) nofun
      (le_refl _) fixed
  have saved : byteAt (stream.window ++ taken) head = byteAt tail 0 := by
    rw [shape, ← singleton_append, ← append_assoc, byteAt, byteAt,
      getD_eq_getElem?_getD, getD_eq_getElem?_getD,
      getElem?_append_right (by simp [head])]
    congr 2
    simp [head]
  have inside : 0 < memory.length := by
    have more := writes.length
    rw [length_set] at more
    exact lt_of_lt_of_le parsed.inside more
  have restored : ((memory.buffer 0).set head (byteAt (stream.window ++ taken) head)).drop head = tail := by
    rw [there, saved]
    exact restore_tail (length.trans (by simp [head]))
  have parse' : parse = (memory, conf) := parses
  rw [parse', restored]
  have window := Memory.buffer_set inside tail
  exact {
    text := by
      rw [text, shape]
      show _ = done ++ (front ++ [newline]) ++ Memory.buffer (memory.set 0 tail) 0
      rw [window]
      simp only [append_assoc, singleton_append]
    ended := rfl
    whole := fun listed => whole (window ▸ listed)
    lines := .inr ⟨done ++ front, (append_assoc ..).symm⟩
    inside := by
      rw [length_set]
      exact inside
    own := own.imp fun text is => (is.window tail).1
    same := by
      have clearDone : (0 : UInt8) ∉ done ++ (front ++ [newline]) := by
        intro zero
        refine clear ?_
        rw [← singleton_append, ← append_assoc front, ← append_assoc done]
        exact mem_append_left _ zero
      rw [(own.imp fun text is => (is.window tail).2).map, same, kept, parsed.same, Config.text,
        Config.text, Config.text, textLines_append clearDone parsed.lines, foldl_append] }

theorem Stream.Parsed.push (data : List UInt8) :
    ∃ done', (stream.push world data).Parsed world path (bytes ++ data) done' := by
  rw [Stream.push]
  by_cases idle : data.isEmpty = true ∨ stream.ended = true
  · -- Nothing is pushed, or all is discarded.
    rw [if_pos idle]
    refine ⟨done, { parsed with text := ?_, ended := ?_ }⟩
    · rcases idle with empty | ended
      · rw [isEmpty_iff.1 empty, append_nil]
        exact parsed.text
      · rw [takeWhile_ended (contains_iff_mem.1 (parsed.ended ▸ ended))]
        exact parsed.text
    · rcases idle with empty | ended
      · rw [isEmpty_iff.1 empty, append_nil]
        exact parsed.ended
      · rw [ended, Eq.comm, contains_iff_mem]
        exact mem_append_left _ (contains_iff_mem.1 (parsed.ended ▸ ended))
  · rw [if_neg idle]
    rw [not_or] at idle
    have clear : (0 : UInt8) ∉ bytes := fun zero =>
      idle.2 (parsed.ended.trans (contains_iff_mem.2 zero))
    have ended : data.contains 0 = (bytes ++ data).contains 0 := by
      rw [Bool.eq_iff_iff, contains_iff_mem, contains_iff_mem, mem_append]
      exact ⟨.inr, fun zero => zero.resolve_left clear⟩
    have before := parsed.text
    rw [show bytes.takeWhile (· ≠ 0) = bytes by
      have same := @takeWhile_nonzero bytes [] clear
      rwa [append_nil, takeWhile_nil, append_nil] at same] at before
    have text : (bytes ++ data).takeWhile (· ≠ 0) = done ++ (stream.window ++ data.takeWhile (· ≠ 0)) := by
      rw [takeWhile_nonzero clear, ← append_assoc, ← before]
    simp only
    generalize data.takeWhile (· ≠ 0) = taken at text
    by_cases empty : taken.isEmpty = true
    · rw [if_pos empty]
      refine ⟨done, { parsed with text := ?_, ended := ended }⟩
      rw [text, isEmpty_iff.1 empty, append_nil]
      rfl
    · rw [if_neg empty]
      have last : newline ∉ (stream.window ++ taken).drop (stream.window ++ taken).length := by
        rw [drop_length]
        exact nofun
      have short : stream.window.length ≤ (stream.window ++ taken).length := by
        rw [length_append]
        exact Nat.le_add_right ..
      rw [ended]
      cases finds : lastNewline (stream.window ++ taken) stream.window.length
          (stream.window ++ taken).length with
      | none =>
        have new := lastNewline_none (le_refl _) last short finds
        rw [drop_left] at new
        refine ⟨done, parsed.grow text ?_⟩
        rw [mem_append, not_or]
        exact ⟨parsed.whole, new⟩
      | some head =>
        obtain ⟨front, tail, shape, rfl, whole⟩ := lastNewline_some (le_refl _) last finds
        exact ⟨_, parsed.parse text shape whole⟩

theorem Stream.Parsed.pushes (packets : List (List UInt8)) :
    ∃ done', (packets.foldl (Stream.push world) stream).Parsed world path
      (bytes ++ packets.flatten) done' := by
  induction packets generalizing stream bytes done with
  | nil => exact ⟨done, by rwa [flatten_nil, append_nil]⟩
  | cons data packets ih =>
    obtain ⟨done', parsed⟩ := parsed.push data
    obtain ⟨done', parsed⟩ := ih parsed
    refine ⟨done', ?_⟩
    rwa [flatten_cons, ← append_assoc]

theorem Stream.Parsed.finish : contents (stream.finish world) =
      (emptyConfig path).text world (expand world maxIncludeDepth) bytes := by
  obtain ⟨text, back, rfl, ends, clear⟩ := text_split bytes
  have before := parsed.text
  rw [takeWhile_nonzero clear] at before
  have none : back.takeWhile (· ≠ 0) = [] := by
    cases back with
    | nil => rfl
    | cons byte back =>
      obtain rfl : byte = 0 := ends
      rfl
  rw [none, append_nil] at before
  rw [Config.text, textLines_zero clear ends, before,
    textLines_append (before ▸ clear) parsed.lines, foldl_append]
  have same := parsed.same
  rw [Config.text] at same
  rw [← same, Stream.finish]
  by_cases empty : stream.window.isEmpty = true
  · rw [if_pos empty, isEmpty_iff.1 empty]
    rfl
  · rw [if_neg empty]
    have clearWindow : (0 : UInt8) ∉ stream.window := fun zero => clear (before ▸ mem_append_right _ zero)
    obtain ⟨memory, conf, after, parses, -, -, -, same, -⟩ :=
      @parse_text world _ _ stream.memory stream.conf 1 0 (loadInternal_loads world maxIncludeDepth)
        false stream.window [] (append_nil _).symm rfl clearWindow parsed.inside (by rintro ⟨⟩)
        (le_refl _) parsed.own
    rw [parses, contents, same, Config.text]

omit parsed

/-- However its bytes are cut into packets, a stream makes the configuration that the bytes make in
one piece: the same entries in the same order, the same values of keys, the same includes and
references; and so does a string that is adopted and borrowed from. -/
theorem stream_is_string (world : World) (path : Option (List UInt8)) (packets : List (List UInt8)) :
    let streamed := (packets.foldl (Stream.push world) (Stream.new path)).finish world
    let whole := newFromString world packets.flatten path
    let adopted := newTakeString world packets.flatten path
    (contents streamed).entries = (contents whole).entries ∧
      (∀ key, streamed.2.lookup (read streamed.1) key = whole.2.lookup (read whole.1) key) ∧
      streamed.2.includes = whole.2.includes ∧ streamed.2.references = whole.2.references ∧
      (contents adopted).entries = (contents whole).entries ∧
      ∀ key, adopted.2.lookup (read adopted.1) key = whole.2.lookup (read whole.1) key := by
  intro streamed whole adopted
  obtain ⟨done, parsed⟩ := @Stream.Parsed.pushes world path _ _ _ Stream.parsed_new packets
  have pieces : contents streamed = contents whole :=
    parsed.finish.trans (parse_string packets.flatten false).symm
  have borrows : contents adopted = contents whole :=
    (parse_string packets.flatten true).trans (parse_string packets.flatten false).symm
  -- What is looked up depends on the bytes of the texts alone.
  have looks : ∀ {one other : Memory × Config Text}, contents one = contents other →
      ∀ key, one.2.lookup (read one.1) key = other.2.lookup (read other.1) key := by
    intro one other same key
    have looked := congrArg (fun conf : Config (List UInt8) => conf.lookup id key) same
    exact (lookup_map _ _ key).symm.trans (looked.trans (lookup_map _ _ key))
  have lists := congrArg includes pieces
  have refers := congrArg references pieces
  exact ⟨congrArg entries pieces, looks pieces, lists, refers, congrArg entries borrows, looks borrows⟩

end Libretro.ConfigFile
