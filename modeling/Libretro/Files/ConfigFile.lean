import Libretro.Library.CString
import Libretro.Library.RunMerge

/-! The text of one line of a configuration, which reading leaves as it is, and its values. -/

namespace Libretro.ConfigFile

open CString

/-- The byte `#`. -/
abbrev hash : UInt8 := 0x23

/-- The byte `"`. -/
abbrev quote : UInt8 := 0x22

/-- The byte `\`. -/
abbrev backslash : UInt8 := 0x5c

/-- The byte `=`. -/
abbrev equals : UInt8 := 0x3d

/-- The end of a line. -/
abbrev newline : UInt8 := 0x0a

/-- `CONFIG_FILE_ISGRAPH`: a printable byte that is not a space. -/
def isGraph (byte : UInt8) : Bool := byte - 0x21 < 0x5e

/-- The bytes that are skipped before a key and around its sign. -/
def isBlank (byte : UInt8) : Bool := byte = 0x20 || byte = 0x09 || byte = 0x0d || byte = newline

/-- The walk of `config_file_literal_end`: the offset is how far it is, the run counts the backslashes
right before it, and first is the first quote seen that is escaped. -/
def literalScan (offset run : Nat) (first : Option Nat) : List UInt8 → Option Nat × Bool
  | [] => (first, false)
  | byte :: rest =>
    if byte = 0 then (first, false)
    else if byte = quote then
      if run % 2 = 0 then (some offset, first.isSome || run ≠ 0)
      else literalScan (offset + 1) 0 (first.or (some offset)) rest
    else literalScan (offset + 1) (if byte = backslash then run + 1 else 0) first rest

/-- `config_file_literal_end`: how far behind its start the closing quote of a literal is, and whether
there is escaping to undo. -/
def literalEnd (buffer : List UInt8) (start : Nat) : Option Nat × Bool :=
  literalScan 0 0 none (buffer.drop start)

/-- The walk of `config_file_unescape`: the run counts the backslashes not yet written. -/
def unescapeScan (run : Nat) : List UInt8 → List UInt8
  | [] => List.replicate (run / 2) backslash
  | byte :: rest =>
    if byte = backslash then unescapeScan (run + 1) rest
    else if byte = quote then
      List.replicate (run / 2) backslash ++ quote :: unescapeScan 0 rest
    else List.replicate run backslash ++ byte :: unescapeScan 0 rest

/-- `config_file_unescape`: a run of backslashes before a quote, or at the end, is halved. -/
def unescape (bytes : List UInt8) : List UInt8 := unescapeScan 0 bytes

/-- How long the text of a literal is: up to its closing quote, or to the end of the string. -/
def literalLength (buffer : List UInt8) (line : Nat) : Nat :=
  (literalEnd buffer line).1.getD (stringEnd buffer line - line)

/-- `config_file_literal_escaped`: the value of a literal whose first quote has a backslash before
it, unescaped in place; its length. -/
def literalEscaped (buffer : List UInt8) (line : Nat) : List UInt8 × Nat :=
  if (literalEnd buffer line).2 then
    let bytes := unescape (slice buffer line (literalLength buffer line))
    (splice buffer line bytes, bytes.length)
  else (buffer, literalLength buffer line)

/-- The part of `config_file_strip_comment` that tells whether a comment sign is between the quotes of
a literal. -/
def insideLiteral (buffer : List UInt8) (line comment : Nat) : Bool :=
  match strchr buffer line quote with
  | none => false
  | some start =>
    start < comment && match (literalEnd buffer (start + 1)).1 with
      | none => false
      | some offset => comment < start + 1 + offset

/-- `config_file_strip_comment`: the comment is cut off the line; where it begins when it is the whole
line. -/
def stripComment (buffer : List UInt8) (line : Nat) : List UInt8 × Option Nat :=
  match strchr buffer line hash with
  | none => (buffer, none)
  | some comment =>
    if comment = line then (buffer.set line 0, some (comment + 1))
    else (if insideLiteral buffer line comment then buffer else buffer.set comment 0, none)

/-- `config_file_extract_value`: the value that begins at a place, by where it is then and its
length; no length stands for an empty string of its own. -/
def extractValue (buffer : List UInt8) (line : Nat) : List UInt8 × Nat × Nat :=
  let line := skip isBlank buffer line
  if byteAt buffer line = quote then
    let line := line + 1
    if byteAt buffer line = quote then (buffer, line, 0)
    else
      let (buffer, length) :=
        match strchr buffer line quote with
        | some found =>
          if byteAt buffer (found - 1) = backslash then literalEscaped buffer line
          else (buffer, found - line)
        | none => (buffer, stringEnd buffer line - line)
      (buffer.set (line + length) 0, line, length)
  else if byteAt buffer line = 0 then (buffer, line, 0)
  else
    let length := skip isGraph buffer line - line
    (buffer.set (line + length) 0, line, length)

/-- A string of a configuration: bytes of its own, or a place of a buffer that it borrows from. -/
inductive Text where
  | owned (bytes : List UInt8)
  | borrowed (buffer place : Nat)

/-- The string at a place, borrowed from the buffer at an address or copied from it; an empty value
is not copied from anywhere. -/
def Text.make (buffer : List UInt8) (address place length : Nat) (borrow : Bool) : Text :=
  if length = 0 then .owned []
  else if borrow then .borrowed address place
  else .owned (slice buffer place length)

/-- What a line says. -/
inductive Found (Text : Type) where
  | nothing
  | included (path : List UInt8)
  | referenced (path : List UInt8)
  | entry (key value : Text)

/-- The bytes of `include ` and of `reference `. -/
def includeWord : List UInt8 := [0x69, 0x6e, 0x63, 0x6c, 0x75, 0x64, 0x65, 0x20]

@[inherit_doc includeWord]
def referenceWord : List UInt8 := [0x72, 0x65, 0x66, 0x65, 0x72, 0x65, 0x6e, 0x63, 0x65, 0x20]

/-- The path that a directive names: none without one. -/
def scanPath (buffer : List UInt8) (line : Nat) : List UInt8 × Option (List UInt8) :=
  if byteAt buffer line = 0 then (buffer, none)
  else
    let (buffer, place, length) := extractValue buffer line
    (buffer, some (slice buffer place length))

/-- The part of `config_file_parse_line` that reads the text: the buffer as it leaves it, and what the
line says. -/
def scanLine (buffer : List UInt8) (line address : Nat) (borrow : Bool) : List UInt8 × Found Text :=
  match stripComment buffer line with
  | (buffer, some comment) =>
    if includeWord <+: string buffer comment then
      let (buffer, path) := scanPath buffer (comment + includeWord.length)
      (buffer, match path with | none => .nothing | some path => .included path)
    else if referenceWord <+: string buffer comment then
      let (buffer, path) := scanPath buffer (comment + referenceWord.length)
      (buffer, match path with | none => .nothing | some path => .referenced path)
    else (buffer, .nothing)
  | (buffer, none) =>
    let start := skip isBlank buffer line
    let line := skip isGraph buffer start
    let length := line - start
    if length = 0 then (buffer, .nothing)
    else
      let line := skip isBlank buffer line
      if byteAt buffer line = equals then
        let (buffer, place, size) := extractValue buffer (line + 1)
        let value := Text.make buffer address place size borrow
        -- The key's end is written only once the line has proven valid, and only where it is
        -- borrowed.
        let key := Text.make buffer address start length borrow
        (if borrow then buffer.set (start + length) 0 else buffer, .entry key value)
      else (buffer, .nothing)

/-- How deep includes may nest. -/
def maxIncludeDepth : Nat := 16

/-- The buffers that texts are borrowed from, by their addresses. -/
abbrev Memory := List (List UInt8)

/-- The buffer at an address. -/
def Memory.buffer (memory : Memory) (address : Nat) : List UInt8 := memory.getD address []

/-- The bytes of a text. -/
def Text.read (memory : Memory) : Text → List UInt8
  | .owned bytes => bytes
  | .borrowed address place => string (memory.buffer address) place

/-- A node of the list of entries. -/
structure Entry (Text : Type) where
  key : Option Text := none
  value : Option Text := none
  readonly : Bool := false

/-- A configuration. -/
structure Config (Text : Type) where
  path : Option (List UInt8) := none
  -- The nodes in the order of the list, the last of them, and those that the map has, each under
  -- its key.
  entries : List (Entry Text) := []
  tail : Option Nat := none
  entriesMap : List Nat := []
  includes : List (List UInt8) := []
  references : List (List UInt8) := []
  includeDepth : Nat := 0

/-- What the parser reaches outside: the files that can be read, what `config_file_get_realpath` and
`fill_pathname_abbreviated_or_relative` make of a path under that of the configuration. -/
structure World where
  readFile : List UInt8 → Option (List UInt8)
  realpath : Option (List UInt8) → List UInt8 → List UInt8
  abbreviated : List UInt8 → List UInt8 → List UInt8

section Entries

variable {Text : Type} (read : Text → List UInt8)

/-- The key of a node. -/
def Config.keyAt (conf : Config Text) (node : Nat) : Option (List UInt8) :=
  (conf.entries[node]?).bind fun entry => entry.key.map read

/-- `config_get_entry`. -/
def Config.getEntry (conf : Config Text) (key : List UInt8) : Option Nat :=
  conf.entriesMap.find? fun node => conf.keyAt read node == some key

/-- The value that a key is looked up to. -/
def Config.lookup (conf : Config Text) (key : List UInt8) : Option (List UInt8) :=
  (conf.getEntry read key).bind fun node =>
    (conf.entries[node]?).bind fun entry => entry.value.map read

/-- A node enters the map unless its key is there. -/
def Config.insertNew (conf : Config Text) (node : Nat) : Config Text :=
  match conf.keyAt read node with
  | none => conf
  | some key =>
    if (conf.getEntry read key).isSome then conf
    else { conf with entriesMap := conf.entriesMap ++ [node] }

/-- The nodes up to the one whose link is written when something is put behind the list. -/
def Config.upToTail (conf : Config Text) : List (Entry Text) :=
  match conf.tail with
  | none => conf.entries
  | some tail => conf.entries.take (tail + 1)

/-- The part of `config_file_parse_buffer` that takes in a parsed line. -/
def Config.append (conf : Config Text) (entry : Entry Text) : Config Text :=
  let node := conf.upToTail.length
  { conf with entries := conf.upToTail ++ [entry], tail := some node }.insertNew read node

/-- The nodes of an included list are read-only. -/
def Config.marked (conf : Config Text) : Config Text :=
  { conf with entries := conf.entries.map fun entry => { entry with readonly := true } }

/-- The part of `config_file_add_child_list` that puts one list behind another. -/
def Config.splice (parent child : Config Text) : Config Text :=
  let entries := parent.upToTail ++ child.entries
  { parent with
    entries
    tail := match child.tail with
      | some tail => some (parent.upToTail.length + tail)
      | none => if entries.isEmpty then none else some (entries.length - 1) }

/-- `config_file_add_child_list`: an empty parent takes the map of the child. -/
def Config.addChildList (parent child : Config Text) : Config Text :=
  let spliced := parent.splice child.marked
  if parent.entries.isEmpty then { spliced with entriesMap := child.entriesMap }
  else (child.entriesMap.map (parent.upToTail.length + ·)).foldl (Config.insertNew read) spliced

/-- The part of `config_file_add_sub_conf` that lists an include. -/
def Config.addSubConf (conf : Config Text) (path : List UInt8) : Config Text :=
  { conf with includes := conf.includes ++ [path] }

/-- `config_file_add_reference`. -/
def Config.addReference (world : World) (conf : Config Text) (path : List UInt8) : Config Text :=
  { conf with references := conf.references ++ [match conf.path with
    | none => path
    | some base => world.abbreviated base path] }

end Entries

/-- `config_file_load_internal`, for one depth and path: the configuration, unless the file cannot be
read. -/
abbrev Loader := Memory → Nat → List UInt8 → Option (Memory × Config Text)

/-- `config_file_parse_line`, on the line that begins at a place of the buffer at an address: the
entry, unless the line is invalid. -/
def parseLine (world : World) (load : Loader) (memory : Memory) (conf : Config Text)
    (address line : Nat) (borrow : Bool) : Memory × Config Text × Option (Entry Text) :=
  let (buffer, found) := scanLine (memory.buffer address) line address borrow
  let memory := memory.set address buffer
  match found with
  | .nothing => (memory, conf, none)
  | .included path =>
    if path.isEmpty ∨ maxIncludeDepth ≤ conf.includeDepth then (memory, conf, none)
    else
      let conf := conf.addSubConf path
      match load memory (conf.includeDepth + 1) (world.realpath conf.path path) with
      | none => (memory, conf, some {})
      | some (memory, child) => (memory, conf.addChildList (Text.read memory) child, some {})
  | .referenced path => (memory, conf.addReference world path, some {})
  | .entry key value => (memory, conf, some { key := some key, value := some value })

/-- The part of `config_file_parse_buffer` that parses a line, unless it is blank, and takes in its
entry. -/
def takeLine (world : World) (load : Loader) (memory : Memory) (conf : Config Text)
    (address line : Nat) (borrow : Bool) : Memory × Config Text :=
  if byteAt (memory.buffer address) line = 0 then (memory, conf)
  else
    match parseLine world load memory conf address line borrow with
    | (memory, conf, none) => (memory, conf)
    | (memory, conf, some entry) => (memory, conf.append (Text.read memory) entry)

/-- `config_file_parse_buffer`, from a line on; the turns are those of its loop. -/
def parseBuffer (world : World) (load : Loader) (address : Nat) (borrow : Bool) :
    Nat → Memory → Config Text → Nat → Memory × Config Text
  | 0, memory, conf, _ => (memory, conf)
  | turns + 1, memory, conf, line =>
    let buffer := memory.buffer address
    if byteAt buffer line = 0 then (memory, conf)
    else
      let next := strchr buffer line newline
      let memory := match next with
        | none => memory
        | some next => memory.set address (buffer.set next 0)
      let (memory, conf) := takeLine world load memory conf address line borrow
      match next with
      | none => (memory, conf)
      | some next => parseBuffer world load address borrow turns memory conf (next + 1)

/-- A buffer is parsed from its start: each turn takes a byte of it at least. -/
def Memory.parse (memory : Memory) (world : World) (load : Loader) (conf : Config Text)
    (address : Nat) (borrow : Bool) : Memory × Config Text :=
  parseBuffer world load address borrow ((memory.buffer address).length + 1) memory conf 0

/-- `config_file_load_internal`; the levels bound how deep it calls itself. -/
def loadInternal (world : World) : Nat → Loader
  | 0, _, _, _ => none
  | levels + 1, memory, depth, path =>
    (world.readFile path).map fun text =>
      Memory.parse (memory ++ [text]) world (loadInternal world levels)
        { path := some path, includeDepth := depth } memory.length true

/-- `config_file_load_file`, from the root file down. -/
def loadFile (world : World) (path : List UInt8) : Option (Memory × Config Text) :=
  loadInternal world (maxIncludeDepth + 1) [] 0 path

/-- The configuration of a path, which an empty path is not. -/
def newConfig (path : Option (List UInt8)) : Config Text := { path := path.filter (!·.isEmpty) }

/-- `config_file_new_from_string`: the string is copied from, and the caller's. -/
def newFromString (world : World) (text : List UInt8) (path : Option (List UInt8)) : Memory × Config Text :=
  Memory.parse [text] world (loadInternal world maxIncludeDepth) (newConfig path) 0 false

/-- `config_file_new_take_string`: the string is adopted, and borrowed from. -/
def newTakeString (world : World) (text : List UInt8) (path : Option (List UInt8)) : Memory × Config Text :=
  Memory.parse [text] world (loadInternal world maxIncludeDepth) (newConfig path) 0 true

/-- `config_file_stream`: the window is the buffer at the first address. -/
structure Stream where
  memory : Memory
  conf : Config Text
  ended : Bool

/-- The bytes that a stream has not parsed. -/
def Stream.window (stream : Stream) : List UInt8 := stream.memory.buffer 0

/-- `config_file_stream_new`. -/
def Stream.new (path : Option (List UInt8)) : Stream where
  memory := [[]]
  conf := newConfig path
  ended := false

/-- The place behind the last end of a line among the bytes from a place on, looked for backwards. -/
def lastNewline (window : List UInt8) (start : Nat) : Nat → Option Nat
  | 0 => none
  | cut + 1 =>
    if start < cut + 1 then
      if byteAt window cut = newline then some (cut + 1) else lastNewline window start cut
    else none

/-- `config_file_stream_push`. -/
def Stream.push (world : World) (stream : Stream) (data : List UInt8) : Stream :=
  if data.isEmpty ∨ stream.ended then stream
  else
    -- A zero byte ends the stream.
    let ended := data.contains 0
    let data := data.takeWhile (· ≠ 0)
    if data.isEmpty then { stream with ended }
    else
      let window := stream.window ++ data
      match lastNewline window stream.window.length window.length with
      | none => { stream with memory := stream.memory.set 0 window, ended }
      | some head =>
        -- The byte behind the last whole line is put aside while the lines are parsed.
        let saved := byteAt window head
        let (memory, conf) := Memory.parse (stream.memory.set 0 (window.set head 0)) world
          (loadInternal world maxIncludeDepth) stream.conf 0 false
        let window := (memory.buffer 0).set head saved
        { memory := memory.set 0 (window.drop head), conf, ended }

/-- `config_file_stream_finish`. -/
def Stream.finish (world : World) (stream : Stream) : Memory × Config Text :=
  if stream.window.isEmpty then (stream.memory, stream.conf)
  else Memory.parse stream.memory world (loadInternal world maxIncludeDepth) stream.conf 0 false

/-- A configuration, and its flags. -/
structure Flagged (Text : Type) where
  conf : Config Text
  -- `CONF_FILE_FLG_GUARANTEED_NO_DUPLICATES` and `CONF_FILE_FLG_MODIFIED`.
  guaranteedNoDuplicates : Bool := false
  modified : Bool := false

/-- A call that edits a configuration. -/
inductive Call where
  | setString (key value : List UInt8)
  | unset (key : List UInt8)

/-- The key that a call edits. -/
def Call.key : Call → List UInt8
  | .setString key _ => key
  | .unset key => key

section Edits

variable {Text : Type} (read : Text → List UInt8) (own : List UInt8 → Text)

/-- The value of a node. -/
def Config.valueAt (conf : Config Text) (node : Nat) : Option (List UInt8) :=
  (conf.entries[node]?).bind fun entry => entry.value.map read

/-- A node takes another value, which is not that of an include any more. -/
def Config.replaceValue (conf : Config Text) (node : Nat) (value : Text) : Config Text :=
  { conf with entries := conf.entries.modify node fun entry =>
      { entry with value := some value, readonly := false } }

/-- The nodes that a new one is put behind: none without a last one. -/
def Config.behindTail (conf : Config Text) : List (Entry Text) :=
  match conf.tail with
  | none => []
  | some tail => conf.entries.take (tail + 1)

/-- A new node is put behind the last one, and the map has it under its key. -/
def Config.insertSet (conf : Config Text) (key value : Text) : Config Text :=
  let node := conf.behindTail.length
  { conf with
    entries := conf.behindTail ++ [{ key := some key, value := some value }]
    tail := some node
    entriesMap := (conf.entriesMap.filter fun other => conf.keyAt read other != some (read key)) ++ [node] }

/-- `config_set_string`. -/
def Flagged.setString (live : Flagged Text) (key value : List UInt8) : Flagged Text :=
  match if live.guaranteedNoDuplicates then none else live.conf.getEntry read key with
  | some node =>
    if live.conf.valueAt read node = some value then live
    else { live with conf := live.conf.replaceValue node (own value), modified := true }
  | none => { live with conf := live.conf.insertSet read (own key) (own value), modified := true }

/-- A key leaves the map, and its node keeps neither key nor value. -/
def Config.clear (conf : Config Text) (key : List UInt8) (node : Nat) : Config Text :=
  { conf with
    entries := conf.entries.modify node fun entry => { entry with key := none, value := none }
    entriesMap := conf.entriesMap.filter fun other => conf.keyAt read other != some key }

/-- `config_unset`. -/
def Flagged.unset (live : Flagged Text) (key : List UInt8) : Flagged Text :=
  match live.conf.getEntry read key with
  | none => live
  | some node => { live with conf := live.conf.clear read key node, modified := true }

/-- A call is made. -/
def Flagged.call (live : Flagged Text) : Call → Flagged Text
  | .setString key value => live.setString read own key value
  | .unset key => live.unset read key

/-- Calls are made one after the other. -/
def Flagged.calls (live : Flagged Text) (calls : List Call) : Flagged Text :=
  calls.foldl (Flagged.call read own) live

end Edits

/-- `COMPAT_LOWER`. -/
def compatLower (byte : UInt8) : UInt8 := if 0x41 ≤ byte ∧ byte ≤ 0x5a then byte + 0x20 else byte

/-- How far one byte is behind another, but for their case. -/
def lowerDifference (one other : UInt8) : Int := (compatLower one).toNat - (compatLower other).toNat

/-- `strcasecmp`: strings end at a zero byte, or where their bytes do. -/
def strcasecmp : List UInt8 → List UInt8 → Int
  | one :: left, other :: right =>
    if one = 0 ∨ other = 0 then lowerDifference one other
    else if compatLower one ≠ compatLower other then lowerDifference one other
    else strcasecmp left right
  | left, right => lowerDifference (left.headD 0) (right.headD 0)

/-- `config_file_dump_buf`: what is in the file, and what is yet to be written. -/
structure DumpBuffer where
  file : List UInt8 := []
  data : List UInt8 := []

/-- The size of the buffer. -/
def dumpBufferSize : Nat := 4096

/-- `config_file_dump_flush`. -/
def DumpBuffer.flush (buffer : DumpBuffer) : DumpBuffer where
  file := buffer.file ++ buffer.data

/-- `config_file_dump_put`: what is larger than the buffer goes out directly. -/
def DumpBuffer.put (buffer : DumpBuffer) (bytes : List UInt8) : DumpBuffer :=
  if dumpBufferSize ≤ bytes.length then { file := buffer.flush.file ++ bytes }
  else
    let buffer := if dumpBufferSize < buffer.data.length + bytes.length then buffer.flush else buffer
    { buffer with data := buffer.data ++ bytes }

/-- The backslashes at the end of some bytes. -/
def trailing (bytes : List UInt8) : List UInt8 := bytes.rtakeWhile (· = backslash)

/-- The walk of `config_file_dump_value` over the quotes of a value: the bytes from behind the last
quote on are the segment. -/
def dumpSegments (segment : List UInt8) : List UInt8 → List (List UInt8)
  | [] => [segment]
  | byte :: rest =>
    if byte = quote then
      segment :: trailing segment :: [backslash, quote] :: dumpSegments [] rest
    else dumpSegments (segment ++ [byte]) rest

/-- `config_file_dump_value`, by what it puts. -/
def dumpValue (value : List UInt8) : List (List UInt8) :=
  dumpSegments [] value ++ if (trailing value).isEmpty then [] else [trailing value]

/-- The bytes of ` = "`, and of `"` at the end of a line. -/
def signText : List UInt8 := [0x20, equals, 0x20, quote]

@[inherit_doc signText]
def closeText : List UInt8 := [quote, newline]

/-- `config_file_dump_entry`, by what it puts. -/
def dumpEntry (key value : List UInt8) : List (List UInt8) :=
  key :: signText :: dumpValue value ++ [closeText]

/-- `config_file_dump_line`, by what it puts. -/
def dumpLine (front body back : List UInt8) : List (List UInt8) := [front, body, back]

/-- `pathname_make_slashes_portable`. -/
def makeSlashesPortable (path : List UInt8) : List UInt8 :=
  path.map fun byte => if byte = 0x2f ∨ byte = backslash then 0x2f else byte

/-- The bytes of `#reference "` and of `#include "`. -/
def referenceText : List UInt8 := hash :: referenceWord ++ [quote]

@[inherit_doc referenceText]
def includeText : List UInt8 := hash :: includeWord ++ [quote]

section Dump

variable {Text : Type} (read : Text → List UInt8)

/-- `CONFIG_FILE_ENTRY_SERIALISABLE`. -/
def Entry.serialisable (entry : Entry Text) : Bool :=
  !entry.readonly && entry.key.isSome && entry.value.isSome

/-- The bytes of a key, and of a value: none when there is none. -/
def Entry.keyBytes (entry : Entry Text) : List UInt8 := (entry.key.map read).getD []

@[inherit_doc Entry.keyBytes]
def Entry.valueBytes (entry : Entry Text) : List UInt8 := (entry.value.map read).getD []

/-- How `config_file_sort_entries` compares entries. -/
def Entry.difference (one other : Entry Text) : Int := strcasecmp (one.keyBytes read) (other.keyBytes read)

/-- `config_file_sort_entries`: runs of 16 by insertion, merged in passes. -/
def sortEntries (entries : List (Entry Text)) : List (Entry Text) :=
  RunMerge.sort (Entry.difference read) 16 entries

/-- The entries that are written, in their order. -/
def Config.written (conf : Config Text) (sort : Bool) : List (Entry Text) :=
  let entries := conf.entries.filter Entry.serialisable
  if sort then sortEntries read entries else entries

/-- What `config_file_dump` puts: the includes go behind the entries, which would not count behind
those of an include. -/
def Config.puts (conf : Config Text) (sort : Bool) : List (List UInt8) :=
  conf.references.flatMap (fun path => dumpLine referenceText path closeText) ++
    (conf.written read sort).flatMap (fun entry => dumpEntry (entry.keyBytes read) (entry.valueBytes read)) ++
    conf.includes.flatMap fun path => dumpLine includeText path closeText

/-- `config_file_dump`: the configuration, whose references have portable slashes then, and the bytes
in the file. -/
def Config.dump (conf : Config Text) (sort : Bool) : Config Text × List UInt8 :=
  let conf := { conf with references := conf.references.map makeSlashesPortable }
  (conf, ((conf.puts read sort).foldl DumpBuffer.put {}).flush.file)

end Dump

open List Option Nat

variable {buffer front line back bytes : List UInt8} {place address length : Nat} {borrow : Bool}

theorem literalScan_append (offset run : Nat) (first : Option Nat) (bytes : List UInt8)
    (ends : byteAt back 0 = 0) :
    literalScan offset run first (bytes ++ back) = literalScan offset run first bytes := by
  induction bytes generalizing offset run first with
  | nil =>
    cases back with
    | nil => rfl
    | cons byte rest =>
      obtain rfl : byte = 0 := ends
      rfl
  | cons byte rest ih =>
    rw [cons_append, literalScan, literalScan]
    simp only [ih]

theorem literalEnd_inside (ends : byteAt back 0 = 0) (inside : place ≤ line.length) :
    literalEnd (front ++ (line ++ back)) (front.length + place) = literalEnd line place := by
  rw [literalEnd, List.drop_append, drop_eq_nil_of_le (Nat.le_add_right ..), nil_append,
    Nat.add_sub_cancel_left, drop_append_of_le_length inside, literalScan_append _ _ _ _ ends]
  rfl

theorem literalScan_some {offset run : Nat} {first : Option Nat} {bytes : List UInt8} {found : Nat}
    {escaped : Bool} (ends : literalScan offset run first bytes = (some found, escaped)) :
    first = some found ∨ offset ≤ found ∧ found < offset + bytes.length ∧
      ∀ byte ∈ bytes.take (found - offset), byte ≠ 0 := by
  induction bytes generalizing offset run first with
  | nil => exact .inl (congrArg Prod.fst ends)
  | cons byte rest ih =>
    rw [literalScan] at ends
    -- What the rest of the walk returns, one byte further.
    have further : ∀ {first' : Option Nat}, (first' = some found → first = some found ∨
        found = offset) → byte ≠ 0 →
        (first' = some found ∨ offset + 1 ≤ found ∧ found < offset + 1 + rest.length ∧
          ∀ byte ∈ rest.take (found - (offset + 1)), byte ≠ 0) →
        first = some found ∨ offset ≤ found ∧ found < offset + (byte :: rest).length ∧
          ∀ other ∈ (byte :: rest).take (found - offset), other ≠ 0 := by
      intro first' earlier nonzero further
      rcases further with same | ⟨least, most, clear⟩
      · rcases earlier same with same | rfl
        · exact .inl same
        · refine .inr ⟨le_refl _, by rw [length_cons]; omega, ?_⟩
          rw [Nat.sub_self]
          exact nofun
      · refine .inr ⟨by omega, by rw [length_cons]; omega, ?_⟩
        rw [show found - offset = found - (offset + 1) + 1 by omega, take_succ_cons]
        intro other listed
        rcases mem_cons.1 listed with rfl | listed
        · exact nonzero
        · exact clear other listed
    split at ends
    · exact .inl (congrArg Prod.fst ends)
    · rename_i nonzero
      split at ends
      · split at ends
        · -- The closing quote.
          exact @further (some offset) (fun same => .inr (some.inj same).symm) nonzero
            (.inl (congrArg Prod.fst ends))
        · refine further ?_ nonzero (ih ends)
          intro same
          cases first with
          | none => exact .inr (some.inj same).symm
          | some other => exact .inl same
      · exact further (fun same => .inl same) nonzero (ih ends)

theorem literalEnd_some {found : Nat} {escaped : Bool}
    (ends : literalEnd buffer place = (some found, escaped)) (inside : place ≤ buffer.length) :
    place + found < buffer.length ∧ ∀ byte ∈ slice buffer place found, byte ≠ 0 := by
  rcases literalScan_some ends with none | ⟨-, most, clear⟩
  · cases none
  · rw [length_drop] at most
    exact ⟨by omega, clear⟩

theorem unescapeScan_length (run : Nat) (bytes : List UInt8) :
    (unescapeScan run bytes).length ≤ run + bytes.length := by
  induction bytes generalizing run with
  | nil =>
    rw [unescapeScan, length_replicate, length_nil]
    omega
  | cons byte rest ih =>
    rw [unescapeScan, length_cons]
    split
    · have short := ih (run + 1)
      omega
    · have short := ih 0
      split <;> rw [length_append, length_replicate, length_cons] <;> omega

theorem unescapeScan_nonzero (run : Nat) {bytes : List UInt8} (clear : ∀ byte ∈ bytes, byte ≠ 0) :
    ∀ byte ∈ unescapeScan run bytes, byte ≠ 0 := by
  -- The backslashes that are written are no zero bytes.
  have written : ∀ keep, ∀ byte ∈ List.replicate keep backslash, byte ≠ 0 := by
    intro keep byte listed
    rw [(mem_replicate.1 listed).2]
    decide
  induction bytes generalizing run with
  | nil => exact written _
  | cons byte rest ih =>
    have clearRest : ∀ byte ∈ rest, byte ≠ 0 := fun other listed => clear other (mem_cons_of_mem _ listed)
    rw [unescapeScan]
    split
    · exact ih _ clearRest
    · split
      · intro other listed
        rcases mem_append.1 listed with listed | listed
        · exact written _ other listed
        · rcases mem_cons.1 listed with rfl | listed
          · decide
          · exact ih _ clearRest other listed
      · intro other listed
        rcases mem_append.1 listed with listed | listed
        · exact written _ other listed
        · rcases mem_cons.1 listed with rfl | listed
          · exact clear _ mem_cons_self
          · exact ih _ clearRest other listed

theorem literalLength_le (inside : place ≤ line.length) : place + literalLength line place ≤ line.length ∧
      ∀ byte ∈ slice line place (literalLength line place), byte ≠ 0 := by
  rw [literalLength]
  cases ends : literalEnd line place with
  | mk found escaped =>
    cases found with
    | some found =>
      obtain ⟨bound, clear⟩ := literalEnd_some ends inside
      exact ⟨le_of_lt bound, clear⟩
    | none =>
      have least : place ≤ stringEnd line place := le_skip
      have most : stringEnd line place ≤ line.length := skip_le inside
      refine ⟨by rw [getD_none]; omega, ?_⟩
      rw [getD_none, slice_stringEnd]
      intro byte listed
      simpa using (all_eq_true.1 all_takeWhile) byte listed

theorem literalLength_inside (ends : byteAt back 0 = 0) (inside : place ≤ line.length) :
    literalLength (front ++ (line ++ back)) (front.length + place) = literalLength line place := by
  have stops : stringEnd (front ++ (line ++ back)) (front.length + place) =
      front.length + stringEnd line place := skip_inside rfl ends inside
  rw [literalLength, literalLength, literalEnd_inside ends inside, stops, Nat.add_sub_add_left]

theorem unescape_fits (inside : place ≤ line.length) :
    place + (unescape (slice line place (literalLength line place))).length ≤ line.length := by
  obtain ⟨bound, -⟩ := literalLength_le inside
  have short := unescapeScan_length 0 (slice line place (literalLength line place))
  have most : (slice line place (literalLength line place)).length ≤ literalLength line place :=
    length_take_le ..
  rw [unescape]
  omega

theorem literalEscaped_inside (ends : byteAt back 0 = 0) (inside : place ≤ line.length) :
    literalEscaped (front ++ (line ++ back)) (front.length + place) =
      (front ++ ((literalEscaped line place).1 ++ back), (literalEscaped line place).2) := by
  rw [literalEscaped, literalEscaped, literalEnd_inside ends inside, literalLength_inside ends inside]
  by_cases escaped : (literalEnd line place).2 = true
  · rw [if_pos escaped, if_pos escaped, slice_inside (literalLength_le inside).1]
    simp only [splice_inside (unescape_fits inside)]
  · rw [if_neg escaped, if_neg escaped]

theorem literalEscaped_keeps (inside : place ≤ line.length) :
    Keeps place line (literalEscaped line place).1 ∧ place + (literalEscaped line place).2 ≤ line.length ∧
      ∀ byte ∈ slice (literalEscaped line place).1 place (literalEscaped line place).2, byte ≠ 0 := by
  obtain ⟨bound, clear⟩ := literalLength_le inside
  rw [literalEscaped]
  by_cases escaped : (literalEnd line place).2 = true
  · rw [if_pos escaped]
    have fits := unescape_fits inside
    refine ⟨keeps_splice fits, fits, ?_⟩
    rw [slice_splice inside]
    exact unescapeScan_nonzero 0 clear
  · rw [if_neg escaped]
    exact ⟨.refl _ _, bound, clear⟩

/-- A value is found and ended in its line alone. -/
theorem extractValue_inside (ends : byteAt back 0 = 0) (inside : place ≤ line.length) :
    extractValue (front ++ (line ++ back)) (front.length + place) =
      (front ++ ((extractValue line place).1 ++ back),
        front.length + (extractValue line place).2.1, (extractValue line place).2.2) := by
  have start : skip isBlank line place ≤ line.length := skip_le inside
  rw [extractValue, extractValue, skip_inside rfl ends inside, byteAt_inside ends start]
  simp only
  generalize skip isBlank line place = first at start
  by_cases literal : byteAt line first = quote
  · -- The quote is a byte of the line, so the text behind it begins in the line or at its end.
    have within : first + 1 ≤ line.length := by
      by_contra beyond
      rw [byteAt, getD_eq_getElem?_getD, getElem?_eq_none (by omega)] at literal
      cases literal
    rw [if_pos literal, if_pos literal, Nat.add_assoc, byteAt_inside ends within]
    by_cases empty : byteAt line (first + 1) = quote
    · rw [if_pos empty, if_pos empty]
    · rw [if_neg empty, if_neg empty, strchr_inside ends within]
      cases finds : strchr line (first + 1) quote with
      | none =>
        have stops : stringEnd (front ++ (line ++ back)) (front.length + (first + 1)) =
            front.length + stringEnd line (first + 1) := skip_inside rfl ends within
        have least : first + 1 ≤ stringEnd line (first + 1) := le_skip
        have most : stringEnd line (first + 1) ≤ line.length := skip_le within
        simp only [map_none, stops]
        rw [show front.length + stringEnd line (first + 1) - (front.length + (first + 1)) =
          stringEnd line (first + 1) - (first + 1) by omega, Nat.add_assoc,
          set_inside ends (by omega)]
      | some found =>
        have least : first + 1 ≤ found := strchr_some finds ▸ le_skip
        have most : found ≤ line.length := strchr_some finds ▸ skip_le within
        simp only [map_some]
        rw [show front.length + found - 1 = front.length + (found - 1) by omega,
          byteAt_inside ends (by omega)]
        by_cases escaped : byteAt line (found - 1) = backslash
        · rw [if_pos escaped, if_pos escaped, literalEscaped_inside ends within]
          obtain ⟨keeps, bound, -⟩ := literalEscaped_keeps within
          simp only
          rw [Nat.add_assoc, set_inside ends (by rw [keeps.length]; omega)]
        · rw [if_neg escaped, if_neg escaped]
          simp only
          rw [show front.length + found - (front.length + (first + 1)) =
            found - (first + 1) by omega, Nat.add_assoc, set_inside ends (by omega)]
  · rw [if_neg literal, if_neg literal]
    by_cases none : byteAt line first = 0
    · rw [if_pos none, if_pos none]
    · rw [if_neg none, if_neg none, skip_inside rfl ends start]
      have least : first ≤ skip isGraph line first := le_skip
      have most : skip isGraph line first ≤ line.length := skip_le start
      simp only
      rw [show front.length + skip isGraph line first - (front.length + first) =
        skip isGraph line first - first by omega, Nat.add_assoc, set_inside ends (by omega)]

/-- Where a value is, and how far its line is kept. -/
theorem extractValue_keeps (inside : place ≤ line.length) : Keeps place line (extractValue line place).1 ∧
      place ≤ (extractValue line place).2.1 ∧
      (extractValue line place).2.1 + (extractValue line place).2.2 ≤ line.length ∧
      (∀ byte ∈ slice (extractValue line place).1 (extractValue line place).2.1
        (extractValue line place).2.2, byte ≠ 0) ∧
      ((extractValue line place).2.2 ≠ 0 → byteAt (extractValue line place).1
        ((extractValue line place).2.1 + (extractValue line place).2.2) = 0) := by
  have start : skip isBlank line place ≤ line.length := skip_le inside
  have later : place ≤ skip isBlank line place := le_skip
  -- What is left when the end of a value is written behind it.
  have written : ∀ {after : List UInt8} {first length : Nat}, place ≤ first →
      Keeps place line after → first + length ≤ line.length →
      (∀ byte ∈ slice after first length, byte ≠ 0) →
      Keeps place line (after.set (first + length) 0) ∧ place ≤ first ∧ first + length ≤ line.length ∧
        (∀ byte ∈ slice (after.set (first + length) 0) first length, byte ≠ 0) ∧
        (length ≠ 0 → byteAt (after.set (first + length) 0) (first + length) = 0) := by
    intro after first length least keeps bound clear
    refine ⟨keeps.trans (keeps_set (by omega)), least, bound, ?_, fun _ => byteAt_set⟩
    rwa [(keeps_set (le_refl (first + length))).slice (le_refl _)]
  -- An empty value is nowhere.
  have none : ∀ {first : Nat}, place ≤ first → first ≤ line.length →
      Keeps place line line ∧ place ≤ first ∧ first + 0 ≤ line.length ∧
        (∀ byte ∈ slice line first 0, byte ≠ 0) ∧
        ((0 : Nat) ≠ 0 → byteAt line (first + 0) = 0) := by
    intro first least bound
    exact ⟨.refl _ _, least, bound, by simp [slice], fun absent => absurd rfl absent⟩
  rw [extractValue]
  simp only
  generalize skip isBlank line place = first at start later
  by_cases literal : byteAt line first = quote
  · have within : first + 1 ≤ line.length := by
      by_contra beyond
      rw [byteAt, getD_eq_getElem?_getD, getElem?_eq_none (by omega)] at literal
      cases literal
    rw [if_pos literal]
    by_cases empty : byteAt line (first + 1) = quote
    · rw [if_pos empty]
      exact @none (first + 1) (by omega) within
    · rw [if_neg empty]
      cases finds : strchr line (first + 1) quote with
      | none =>
        have most : stringEnd line (first + 1) ≤ line.length := skip_le within
        have least : first + 1 ≤ stringEnd line (first + 1) := le_skip
        refine @written line (first + 1) (stringEnd line (first + 1) - (first + 1)) (by omega)
          (.refl _ _) (by omega) ?_
        rw [slice_stringEnd]
        intro byte listed
        simpa using (all_eq_true.1 all_takeWhile) byte listed
      | some found =>
        have least : first + 1 ≤ found := strchr_some finds ▸ le_skip
        have most : found ≤ line.length := strchr_some finds ▸ skip_le within
        simp only
        by_cases escaped : byteAt line (found - 1) = backslash
        · rw [if_pos escaped]
          obtain ⟨keeps, bound, clear⟩ := literalEscaped_keeps within
          exact @written _ (first + 1) _ (by omega) (keeps.earlier (by omega)) bound clear
        · rw [if_neg escaped]
          refine @written line (first + 1) (found - (first + 1)) (by omega) (.refl _ _)
            (by omega) ?_
          rw [strchr_some finds, slice_skip]
          intro byte listed
          have clear := (all_eq_true.1 all_takeWhile) byte listed
          simp only [Bool.and_eq_true, decide_eq_true_eq] at clear
          exact clear.2
  · rw [if_neg literal]
    by_cases absent : byteAt line first = 0
    · rw [if_pos absent]
      exact @none first later start
    · rw [if_neg absent]
      have least : first ≤ skip isGraph line first := le_skip
      have most : skip isGraph line first ≤ line.length := skip_le start
      refine @written line first (skip isGraph line first - first) later (.refl _ _) (by omega) ?_
      rw [slice_skip]
      rintro byte listed rfl
      exact absurd ((all_eq_true.1 all_takeWhile) 0 listed) (by decide)

theorem insideLiteral_inside (ends : byteAt back 0 = 0) :
    insideLiteral (front ++ (line ++ back)) front.length (front.length + place) =
      insideLiteral line 0 place := by
  have literal : strchr (front ++ (line ++ back)) front.length quote =
      (strchr line 0 quote).map (front.length + ·) := strchr_inside ends (zero_le _)
  rw [insideLiteral, insideLiteral, literal]
  cases quoted : strchr line 0 quote with
  | none => rfl
  | some start =>
    have bound : start < line.length := by
      by_contra beyond
      have byte := byteAt_strchr quoted
      rw [byteAt, getD_eq_getElem?_getD, getElem?_eq_none (by omega)] at byte
      cases byte
    have same : literalEnd (front ++ (line ++ back)) (front.length + start + 1) =
        literalEnd line (start + 1) := by
      rw [Nat.add_assoc]
      exact literalEnd_inside ends bound
    simp only [map_some, same]
    congr 1
    · simp
    · cases (literalEnd line (start + 1)).1 with
      | none => rfl
      | some offset => simp [Nat.add_assoc]

/-- A comment is cut off in its line alone. -/
theorem stripComment_inside (ends : byteAt back 0 = 0) :
    stripComment (front ++ (line ++ back)) front.length = (front ++ ((stripComment line 0).1 ++ back),
        (stripComment line 0).2.map (front.length + ·)) := by
  have comment : strchr (front ++ (line ++ back)) front.length hash =
      (strchr line 0 hash).map (front.length + ·) := strchr_inside ends (zero_le _)
  rw [stripComment, stripComment, comment]
  cases finds : strchr line 0 hash with
  | none => rfl
  | some found =>
    have most : found ≤ line.length := strchr_some finds ▸ skip_le (zero_le _)
    simp only [map_some]
    by_cases whole : found = 0
    · subst whole
      have zero := @set_inside front line back 0 ends (zero_le _)
      rw [Nat.add_zero] at zero ⊢
      rw [if_pos rfl, if_pos rfl, zero]
      rfl
    · rw [if_neg (by omega), if_neg whole, insideLiteral_inside ends, set_inside ends most]
      split <;> rfl

theorem stripComment_length : (stripComment line 0).1.length = line.length := by
  rw [stripComment]
  cases strchr line 0 hash with
  | none => rfl
  | some found =>
    simp only
    by_cases whole : found = 0
    · rw [if_pos whole]
      exact length_set
    · rw [if_neg whole]
      cases insideLiteral line 0 found with
      | true => rfl
      | false => exact length_set

theorem stripComment_some {comment : Nat} (whole : (stripComment line 0).2 = some comment) :
    comment = 1 ∧ 1 ≤ line.length := by
  rw [stripComment] at whole
  split at whole
  · cases whole
  · rename_i found finds
    split at whole
    · rename_i first
      subst first
      refine ⟨(some.inj whole).symm, ?_⟩
      by_contra empty
      have byte := byteAt_strchr finds
      rw [byteAt, getD_eq_getElem?_getD, getElem?_eq_none (by omega)] at byte
      cases byte
    · cases whole

/-- What a line says, by the bytes of its texts. -/
def Found.read (memory : Memory) : Found Text → Found (List UInt8)
  | .nothing => .nothing
  | .included path => .included path
  | .referenced path => .referenced path
  | .entry key value => .entry (key.read memory) (value.read memory)

/-- What the bytes of a line say. -/
def lineSays (line : List UInt8) : Found (List UInt8) := (scanLine line 0 0 false).2.read []

/-- A text is bytes of its own, or may be borrowed from a buffer where they end before a limit. -/
def Text.Is (borrow : Bool) (buffer : List UInt8) (address limit : Nat) (bytes : List UInt8) : Text → Prop
  | .owned own => own = bytes
  | .borrowed from' place =>
    borrow = true ∧ from' = address ∧ string buffer place = bytes ∧ place + bytes.length ≤ limit

/-- What is found says what a line says. -/
def Found.Is (borrow : Bool) (buffer : List UInt8) (address limit : Nat) :
    Found Text → Found (List UInt8) → Prop
  | .nothing, .nothing => True
  | .included path, .included path' => path = path'
  | .referenced path, .referenced path' => path = path'
  | .entry key value, .entry key' value' =>
    key.Is borrow buffer address limit key' ∧ value.Is borrow buffer address limit value'
  | _, _ => False

theorem Text.make_copied (memory : Memory) :
    (Text.make buffer address place length false).read memory = slice buffer place length := by
  rw [Text.make]
  by_cases empty : length = 0
  · rw [if_pos empty, empty]
    exact take_zero.symm
  · rw [if_neg empty]
    rfl

theorem Text.make_inside {after : List UInt8} (ends : byteAt back 0 = 0)
    (bound : place + length ≤ after.length) (clear : ∀ byte ∈ slice after place length, byte ≠ 0)
    (stops : borrow = true → length ≠ 0 → byteAt after (place + length) = 0)
    (same : slice buffer (front.length + place) length = slice after place length) :
    (Text.make buffer address (front.length + place) length borrow).Is borrow
      (front ++ (after ++ back)) address (front.length + after.length)
      (slice after place length) := by
  rw [Text.make]
  by_cases empty : length = 0
  · subst empty
    rw [if_pos rfl]
    simp [Text.Is, slice]
  · rw [if_neg empty]
    cases borrow with
    | false => exact same
    | true =>
      refine ⟨rfl, rfl, ?_, ?_⟩
      · rw [string_inside ends (by omega)]
        exact string_eq clear (stops rfl empty) bound
      · have short : (slice after place length).length ≤ length := length_take_le ..
        omega

theorem entry_inside {value : List UInt8} {first length place size : Nat} {address : Nat}
    {borrow : Bool} (ends : byteAt back 0 = 0) (before : first + length < place)
    (bound : place + size ≤ value.length) (clearKey : ∀ byte ∈ slice value first length, byte ≠ 0)
    (clearValue : ∀ byte ∈ slice value place size, byte ≠ 0)
    (stops : size ≠ 0 → byteAt value (place + size) = 0) :
    ∃ after, (if borrow then (front ++ (value ++ back)).set (front.length + first + length) 0
        else front ++ (value ++ back)) = front ++ (after ++ back) ∧
      after.length = value.length ∧
      (Text.make (front ++ (value ++ back)) address (front.length + first) length borrow).Is borrow
        (front ++ (after ++ back)) address (front.length + value.length)
        (slice value first length) ∧
      (Text.make (front ++ (value ++ back)) address (front.length + place) size borrow).Is borrow
        (front ++ (after ++ back)) address (front.length + value.length)
        (slice value place size) := by
  have written : Keeps (first + length) value (if borrow then value.set (first + length) 0 else value) := by
    cases borrow with
    | false => exact .refl _ _
    | true => exact keeps_set (le_refl _)
  have valueKept : slice (if borrow then value.set (first + length) 0 else value) place size =
      slice value place size := by
    cases borrow with
    | false => rfl
    | true => exact slice_set (by omega)
  have keyKept : slice (if borrow then value.set (first + length) 0 else value) first length =
      slice value first length := written.slice (le_refl _)
  have long := written.length
  refine ⟨if borrow then value.set (first + length) 0 else value, ?_, long, ?_, ?_⟩
  · cases borrow with
    | false => rfl
    | true => rw [if_pos rfl, if_pos rfl, Nat.add_assoc, set_inside ends (by omega)]
  · rw [← long, ← keyKept]
    refine Text.make_inside ends (by omega) (by rw [keyKept]; exact clearKey) ?_ ?_
    · intro borrows _
      rw [if_pos borrows]
      exact byteAt_set
    · rw [slice_inside (by omega), keyKept]
  · rw [← long, ← valueKept]
    refine Text.make_inside ends (by omega) (by rw [valueKept]; exact clearValue) ?_ ?_
    · intro borrows some
      rw [if_pos borrows, byteAt_set_of_lt (by omega)]
      exact stops some
    · rw [slice_inside (by omega), valueKept]

theorem scanPath_inside (ends : byteAt back 0 = 0) (inside : place ≤ line.length) :
    scanPath (front ++ (line ++ back)) (front.length + place) =
      (front ++ ((scanPath line place).1 ++ back), (scanPath line place).2) := by
  rw [scanPath, scanPath, byteAt_inside ends inside]
  by_cases absent : byteAt line place = 0
  · rw [if_pos absent, if_pos absent]
  · rw [if_neg absent, if_neg absent, extractValue_inside ends inside]
    obtain ⟨keeps, -, bound, -, -⟩ := extractValue_keeps inside
    simp only
    rw [slice_inside (by rw [keeps.length]; exact bound)]

theorem scanPath_length (inside : place ≤ line.length) : (scanPath line place).1.length = line.length := by
  rw [scanPath]
  split
  · rfl
  · exact (extractValue_keeps inside).1.length

theorem string_starts {word : List UInt8} (starts : word <+: string line place) :
    place + word.length ≤ line.length ∨ word = [] := by
  have long := starts.length_le
  have short : (string line place).length ≤ (line.drop place).length := (takeWhile_sublist _).length_le
  rw [length_drop] at short
  cases word with
  | nil => exact .inr rfl
  | cons first rest =>
    rw [length_cons] at long ⊢
    omega

/-- What a line says depends on its bytes alone, and reading it writes nowhere else. -/
theorem scanLine_inside (ends : byteAt back 0 = 0) :
    ∃ after found, scanLine (front ++ (line ++ back)) front.length address borrow =
        (front ++ (after ++ back), found) ∧ after.length = line.length ∧
      found.Is borrow (front ++ (after ++ back)) address (front.length + line.length) (lineSays line) := by
  rw [lineSays, scanLine, scanLine, stripComment_inside ends]
  have short : (stripComment line 0).1.length = line.length := stripComment_length
  have whole := fun comment => @stripComment_some line comment
  cases stripped : stripComment line 0 with
  | mk cut comment =>
    rw [stripped] at short whole
    simp only at short whole
    cases comment with
    | some comment =>
      obtain ⟨rfl, nonempty⟩ := whole _ rfl
      simp only [map_some]
      rw [string_inside ends (by omega)]
      -- A directive, or a comment that is none.
      have directive : ∀ word : List UInt8, word ≠ [] → word <+: string cut 1 →
          scanPath (front ++ (cut ++ back)) (front.length + 1 + word.length) =
            (front ++ ((scanPath cut (1 + word.length)).1 ++ back), (scanPath cut (1 + word.length)).2) ∧
          (scanPath cut (1 + word.length)).1.length = line.length := by
        intro word some starts
        have inside := (string_starts starts).resolve_right some
        rw [Nat.add_assoc]
        exact ⟨scanPath_inside ends inside, (scanPath_length inside).trans short⟩
      by_cases includes : includeWord <+: string cut 1
      · obtain ⟨same, length⟩ := directive _ (by decide) includes
        rw [if_pos includes, if_pos includes, same]
        refine ⟨_, _, rfl, length, ?_⟩
        simp only
        cases (scanPath cut (1 + includeWord.length)).2 with
        | none => trivial
        | some path => exact rfl
      · rw [if_neg includes, if_neg includes]
        by_cases refers : referenceWord <+: string cut 1
        · obtain ⟨same, length⟩ := directive _ (by decide) refers
          rw [if_pos refers, if_pos refers, same]
          refine ⟨_, _, rfl, length, ?_⟩
          simp only
          cases (scanPath cut (1 + referenceWord.length)).2 with
          | none => trivial
          | some path => exact rfl
        · rw [if_neg refers, if_neg refers]
          exact ⟨_, _, rfl, short, trivial⟩
    | none =>
      simp only [map_none]
      have start : skip isBlank cut 0 ≤ cut.length := skip_le (zero_le _)
      have place := @skip_inside isBlank front cut back 0 rfl ends (zero_le _)
      rw [Nat.add_zero] at place
      rw [place, skip_inside rfl ends start]
      generalize skip isBlank cut 0 = first at start
      have least : first ≤ skip isGraph cut first := le_skip
      have stop : skip isGraph cut first ≤ cut.length := skip_le start
      have clear : ∀ byte ∈ slice cut first (skip isGraph cut first - first), byte ≠ 0 := by
        rw [slice_skip]
        rintro byte listed rfl
        exact absurd ((all_eq_true.1 all_takeWhile) 0 listed) (by decide)
      simp only [Nat.add_sub_add_left]
      by_cases empty : skip isGraph cut first - first = 0
      · rw [if_pos empty, if_pos empty]
        exact ⟨_, _, rfl, short, trivial⟩
      · rw [if_neg empty, if_neg empty, skip_inside rfl ends stop]
        have sign : skip isBlank cut (skip isGraph cut first) ≤ cut.length := skip_le stop
        have behind : skip isGraph cut first ≤ skip isBlank cut (skip isGraph cut first) := le_skip
        rw [byteAt_inside ends sign]
        generalize skip isBlank cut (skip isGraph cut first) = last at sign behind
        by_cases signed : byteAt cut last = equals
        · have within : last + 1 ≤ cut.length := by
            by_contra beyond
            rw [byteAt, getD_eq_getElem?_getD, getElem?_eq_none (by omega)] at signed
            cases signed
          rw [if_pos signed, if_pos signed, Nat.add_assoc, extractValue_inside ends within]
          obtain ⟨keeps, later, bound, clearValue, stops⟩ := extractValue_keeps within
          generalize extractValue cut (last + 1) = taken at keeps later bound clearValue stops
          obtain ⟨value, place, size⟩ := taken
          simp only at keeps later bound clearValue stops ⊢
          generalize keyLength : skip isGraph cut first - first = length at clear empty
          have keyKept : slice value first length = slice cut first length := keeps.slice (by omega)
          obtain ⟨after, writes, long, key, text⟩ := @entry_inside front back value first length
            place size address borrow ends (by omega) (by rw [keeps.length]; exact bound)
            (by rw [keyKept]; exact clear) clearValue stops
          rw [writes]
          refine ⟨after, _, rfl, by rw [long, keeps.length, short], ?_⟩
          simp only [Found.read, Text.make_copied]
          rw [← short, ← keeps.length]
          exact ⟨key, text⟩
        · rw [if_neg signed, if_neg signed]
          exact ⟨_, _, rfl, short, trivial⟩

end Libretro.ConfigFile
