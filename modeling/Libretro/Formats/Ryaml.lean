import Mathlib.Data.List.Basic
import Mathlib.Data.List.DropRight

/-! The node tree of the YAML reader and the calls that read a node. -/

namespace Libretro.Ryaml

/-- What a node is. -/
inductive NodeType
  | none
  | scalar
  | map
  | seq
deriving DecidableEq

/-- A node, linked to the others by their places in the node array. -/
structure Node where
  key : Option (List UInt8)
  val : Option (List UInt8)
  firstChild : Option Nat
  lastChild : Option Nat
  nextSibling : Option Nat
  parent : Option Nat
  numChildren : Nat
  type : NodeType
deriving DecidableEq

/-- A tree is its node array, the root first. -/
structure Tree where
  nodes : List Node
deriving DecidableEq

/-- The node a handle names, if there is a tree and the handle is in its range. -/
def Tree.valid (y : Option Tree) (node : Int) : Option Node :=
  y.bind fun y => if 0 ≤ node then y.nodes[node.toNat]? else Option.none

/-- A node's key. -/
def ryamlKey (y : Option Tree) (node : Int) : Option (List UInt8) := (Tree.valid y node).bind Node.key

/-- A node's value. -/
def ryamlVal (y : Option Tree) (node : Int) : Option (List UInt8) := (Tree.valid y node).bind Node.val

/-- `RYAML_IS_SPACE`. -/
def isSpace (c : UInt8) : Bool := c == 0x09 || c == 0x20

/-- `RYAML_IS_BREAK`. -/
def isBreak (c : UInt8) : Bool := c == 0x0A || c == 0x0D

/-- `RYAML_IS_DIGIT`. -/
def isDigit (c : UInt8) : Bool := 0x30 ≤ c && c ≤ 0x39

/-- The quotes that may enclose a scalar. -/
def isQuote (c : UInt8) : Bool := c == 0x22 || c == 0x27

/-- The brackets that open a flow collection. -/
def opensFlow (c : UInt8) : Bool := c == 0x7B || c == 0x5B

/-- The lines of a text, which `ryaml_line_end` and `ryaml_next_line` step through. -/
def linesOf : List UInt8 → List (List UInt8)
  | [] => []
  | c :: rest =>
    if c = 0x0A then [] :: linesOf rest
    else match linesOf rest with
      | [] => [[c]]
      | line :: lines => (c :: line) :: lines

/-- `ryaml_indent_of`: how many spaces a line starts with. -/
def ryamlIndentOf (line : List UInt8) : Nat := (line.takeWhile (· == 0x20)).length

/-- The content that `ryaml_indent_of` leaves. -/
def contentOf (line : List UInt8) : List UInt8 := line.dropWhile (· == 0x20)

/-- `ryaml_line_is_blank`. -/
def ryamlLineIsBlank (content : List UInt8) : Bool :=
  match content.dropWhile isSpace with
  | [] => true
  | c :: _ => c == 0x0D

/-- Whether a byte that may end the line comes next, or a space. -/
def spaceOrEnd (text : List UInt8) : Bool :=
  match text with
  | [] => true
  | c :: _ => isSpace c || c == 0x0D

/-- Whether a line's content is a dash with its item. -/
def isSeqItem (content : List UInt8) : Bool :=
  match content with
  | [] => false
  | c :: rest => c == 0x2D && spaceOrEnd rest

/-- A text up to the comment that a space and a number sign start. -/
def commentless : List UInt8 → List UInt8
  | c :: d :: rest => if isSpace c && d == 0x23 then [c] else c :: commentless (d :: rest)
  | text => text

/-- `ryaml_plain_extent`. -/
def ryamlPlainExtent (text : List UInt8) : List UInt8 := (commentless text).rdropWhile isSpace

/-- The walk to the closing quote: how far it is, and whether anything on the way is escaped. -/
def quotedWalk (quote : UInt8) : List UInt8 → Nat → Bool → Option (Nat × Bool)
  | [], _, _ => none
  | [c], at', escaped => if c = quote then some (at', escaped) else none
  | c :: d :: rest, at', escaped =>
    if isBreak c then none
    else if quote = 0x22 ∧ c = 0x5C then quotedWalk quote rest (at' + 2) true
    else if c = quote then
      if quote = 0x27 ∧ d = 0x27 then quotedWalk quote rest (at' + 2) true
      else some (at', escaped)
    else quotedWalk quote (d :: rest) (at' + 1) escaped

/-- The byte that a backslash and a letter stand for. -/
def escapeOf (c : UInt8) : UInt8 :=
  if c = 0x6E then 0x0A
  else if c = 0x74 then 0x09
  else if c = 0x72 then 0x0D
  else if c = 0x30 then 0x00
  else if c = 0x61 then 0x07
  else if c = 0x62 then 0x08
  else if c = 0x66 then 0x0C
  else if c = 0x76 then 0x0B
  else if c = 0x65 then 0x1B
  else c

/-- The text that a quoted scalar with escapes stands for. -/
def unescape (quote : UInt8) : List UInt8 → List UInt8
  | [] => []
  | [c] => [c]
  | c :: d :: rest =>
    if quote = 0x27 then
      if c = 0x27 ∧ d = 0x27 then 0x27 :: unescape quote rest else c :: unescape quote (d :: rest)
    else if c = 0x5C then escapeOf d :: unescape quote rest
    else c :: unescape quote (d :: rest)

/-- `ryaml_quoted`: the scalar, and the text after its closing quote. -/
def ryamlQuoted (quote : UInt8) (text : List UInt8) : Option (List UInt8 × List UInt8) :=
  let start := text.drop 1
  let close := start.takeWhile (· ≠ quote)
  let after := (start.dropWhile (· ≠ quote)).drop 1
  let hasEsc := if quote = 0x22 then close.contains 0x5C else after.head? == some 0x27
  if ¬start.contains quote then none
  else if ¬hasEsc then some (close, after)
  else
    match quotedWalk quote start 0 false with
    | none => none
    | some (size, false) => some (start.take size, start.drop (size + 1))
    | some (size, true) => some (unescape quote (start.take size), start.drop (size + 1))

/-- The walk to the quote that closes a quoted key. -/
def keyQuote (quote : UInt8) : List UInt8 → Nat → Option Nat
  | [], _ => none
  | [c], at' => if c = quote then some at' else none
  | c :: d :: rest, at' =>
    if quote = 0x22 ∧ c = 0x5C then keyQuote quote rest (at' + 2)
    else if c = quote then some at'
    else keyQuote quote (d :: rest) (at' + 1)

/-- The first colon with a space or the line's end behind it, in some bytes of a text. -/
def colonAt : Nat → List UInt8 → Nat → Option Nat
  | 0, _, _ => none
  | _, [], _ => none
  | n + 1, c :: rest, at' => if c = 0x3A ∧ spaceOrEnd rest then some at' else colonAt n rest (at' + 1)

/-- `ryaml_find_key_colon`: how far into the content the colon is. -/
def ryamlFindKeyColon (content : List UInt8) : Option Nat :=
  match content with
  | [] => none
  | c :: rest =>
    if isQuote c then
      match keyQuote c rest 0 with
      | none => none
      | some size =>
        let behind := rest.drop (size + 1)
        let spaces := (behind.takeWhile isSpace).length
        if (behind.drop spaces).head? = some 0x3A then some (1 + (size + 1) + spaces) else none
    else colonAt (commentless content).length content 0

/-- The nodes with one of them changed. -/
abbrev setNode (nodes : List Node) (node : Nat) (change : Node → Node) : List Node := nodes.modify node change

/-- What a node is. -/
def typeAt (nodes : List Node) (node : Nat) : Option NodeType := (nodes[node]?).map Node.type

/-- A node as `ryaml_node_new` makes it. -/
def Node.fresh (parent : Option Nat) (type : NodeType) : Node :=
  { key := none, val := none, firstChild := none, lastChild := none, nextSibling := none
    parent := parent, numChildren := 0, type := type }

/-- `ryaml_node_new`; the new node's place is the number of nodes before. -/
def ryamlNodeNew (nodes : List Node) (parent : Option Nat) (type : NodeType) : List Node :=
  let idx := nodes.length
  let grown := nodes ++ [.fresh parent type]
  match parent with
  | none => grown
  | some p =>
    let linked := match (grown[p]?).bind Node.lastChild with
      | some last => setNode grown last fun n => { n with nextSibling := some idx }
      | none => setNode grown p fun n => { n with firstChild := some idx }
    setNode linked p fun n => { n with lastChild := some idx, numChildren := n.numChildren + 1 }

/-- What becomes of the line breaks at the end of a block scalar. -/
inductive Chomp
  | strip
  | clip
  | keep
deriving DecidableEq

/-- The header of a block scalar: its chomping and the indentation it states, zero for none. -/
def scalarHeader : List UInt8 → Chomp → Nat → Option (Chomp × Nat)
  | [], chomp, stated => some (chomp, stated)
  | c :: rest, chomp, stated =>
    if isBreak c then some (chomp, stated)
    else if c = 0x2D then scalarHeader rest .strip stated
    else if c = 0x2B then scalarHeader rest .keep stated
    else if isDigit c then scalarHeader rest chomp (stated * 10 + (c.toNat - 0x30))
    else if c = 0x23 ∨ isSpace c then some (chomp, stated)
    else none

/-- The indentation of a block scalar's first line with content, if it is deeper than the key's. -/
def contentIndent (keyIndent : Nat) : List (List UInt8) → Option Nat
  | [] => none
  | line :: lines =>
    if ryamlLineIsBlank (contentOf line) then contentIndent keyIndent lines
    else if ryamlIndentOf line ≤ keyIndent then none
    else some (ryamlIndentOf line)

/-- A line without the carriage return at its end. -/
def withoutReturn (line : List UInt8) : List UInt8 :=
  if line.getLast? = some 0x0D then line.dropLast else line

/-- The lines of a block scalar, dedented, and how many they are. -/
def blockBody (indent : Nat) : List (List UInt8) → List UInt8 × Nat
  | [] => ([], 0)
  | line :: lines =>
    if ryamlLineIsBlank (contentOf line) then
      let (body, count) := blockBody indent lines
      (0x0A :: body, count + 1)
    else if ryamlIndentOf line < indent then ([], 0)
    else
      let (body, count) := blockBody indent lines
      (withoutReturn (line.drop indent) ++ 0x0A :: body, count + 1)

/-- Folding: one break between lines becomes a space, and a run of them loses one. -/
def foldBreaks : Nat → List UInt8 → List UInt8
  | runs, [] => List.replicate runs 0x0A
  | runs, c :: rest =>
    if c = 0x0A then foldBreaks (runs + 1) rest
    else
      (if runs = 0 then [] else if runs = 1 then [0x20] else List.replicate (runs - 1) 0x0A) ++
        c :: foldBreaks 0 rest

/-- A block scalar's body with the breaks at its end chomped. -/
def chomped (chomp : Chomp) (body : List UInt8) : List UInt8 :=
  let kept := body.rdropWhile (· == 0x0A)
  let trailing := body.length - kept.length
  match chomp with
  | .strip => kept
  | .clip => if 0 < trailing then kept ++ [0x0A] else kept
  | .keep => kept ++ List.replicate trailing 0x0A

/-- `ryaml_block_scalar`: the scalar, and how many of the following lines are its own. -/
def ryamlBlockScalar (header : List UInt8) (keyIndent : Nat) (lines : List (List UInt8)) :
    Option (List UInt8 × Nat) :=
  match scalarHeader (header.drop 1) .clip 0 with
  | none => none
  | some (chomp, stated) =>
    let indent := if 0 < stated then some (keyIndent + stated) else contentIndent keyIndent lines
    match indent with
    | none => some ([], 0)
    | some indent =>
      let (body, count) := blockBody indent lines
      let body := if header.head? = some 0x3E then foldBreaks 0 body else body
      some (chomped chomp body, count)

/-- The bytes of a plain flow scalar, up to what ends it. -/
def flowExtent (stopColon : Bool) : List UInt8 → List UInt8
  | [] => []
  | c :: rest =>
    let behind : Bool := match rest with
      | [] => true
      | d :: _ => isSpace d || d == 0x2C || d == 0x7D || d == 0x5D
    if c = 0x2C ∨ c = 0x7D ∨ c = 0x5D then []
    else if stopColon ∧ c = 0x3A ∧ behind then []
    else if isBreak c then []
    else c :: flowExtent stopColon rest

/-- `ryaml_flow_scalar`: the scalar, and the text after it. -/
def ryamlFlowScalar (text : List UInt8) (stopColon : Bool) : Option (List UInt8 × List UInt8) :=
  match text with
  | [] => some ([], [])
  | c :: _ =>
    if isQuote c then ryamlQuoted c text
    else
      let extent := flowExtent stopColon text
      some (extent.rdropWhile isSpace, text.drop extent.length)

/-- The colon behind a flow mapping's key, and the text at its value. -/
def flowColon (text : List UInt8) : Option (List UInt8) :=
  match text.dropWhile isSpace with
  | [] => none
  | c :: rest =>
    if c ≠ 0x3A then none
    else match rest.dropWhile isSpace with
      | [] => none
      | value => some value

/-- The loop of `ryaml_flow`, which reads a byte at least on every turn. -/
def flowLoop (ismap : Bool) (close : UInt8) (parent : Nat) :
    Nat → List Node → List UInt8 → Option (List Node × List UInt8)
  | 0, _, _ => none
  | turns + 1, nodes, text =>
    match text.dropWhile isSpace with
    | [] => none
    | c :: rest =>
      if c = close then some (nodes, rest)
      else
        let child := nodes.length
        let nodes := ryamlNodeNew nodes (some parent) .scalar
        let keyed : Option (List Node × List UInt8) :=
          if ismap then
            (ryamlFlowScalar (c :: rest) true).bind fun (key, text) =>
              (flowColon text).map fun value =>
                (setNode nodes child fun n => { n with key := some key }, value)
          else some (nodes, c :: rest)
        keyed.bind fun (nodes, text) =>
          let valued : Option (List Node × List UInt8) :=
            match text with
            | [] => none
            | c :: rest =>
              if opensFlow c then
                flowLoop (c == 0x7B) (if c = 0x7B then 0x7D else 0x5D) child turns
                  (setNode nodes child fun n =>
                    { n with type := if c = 0x7B then .map else .seq }) rest
              else
                (ryamlFlowScalar (c :: rest) false).map fun (val, text) =>
                  (setNode nodes child fun n => { n with val := some val }, text)
          valued.bind fun (nodes, text) =>
            match text.dropWhile isSpace with
            | [] => none
            | c :: rest =>
              if c = 0x2C then flowLoop ismap close parent turns nodes rest
              else if c = close then some (nodes, rest)
              else none

/-- `ryaml_flow`. -/
def ryamlFlow (nodes : List Node) (parent : Nat) (text : List UInt8) : Option (List Node × List UInt8) :=
  let ismap := text.head? == some 0x7B
  flowLoop ismap (if ismap then 0x7D else 0x5D) parent (text.length + 1)
    (setNode nodes parent fun n => { n with type := if ismap then .map else .seq }) (text.drop 1)

/-- What follows a key or a dash: the nodes, whether the value is still to come, and how many of the
following lines were read. -/
structure Valued where
  nodes : List Node
  deferred : Bool
  read : Nat
deriving DecidableEq

/-- `ryaml_value`. -/
def ryamlValue (nodes : List Node) (node : Nat) (indent : Nat) (text : List UInt8)
    (lines : List (List UInt8)) : Option Valued :=
  let scalar (val : List UInt8) : List Node :=
    setNode nodes node fun n => { n with val := some val, type := .scalar }
  match text.dropWhile isSpace with
  | [] => some ⟨nodes, true, 0⟩
  | c :: rest =>
    if c = 0x0D ∨ c = 0x23 then some ⟨nodes, true, 0⟩
    else if c = 0x7C ∨ c = 0x3E then
      (ryamlBlockScalar (c :: rest) indent lines).map fun (val, count) =>
        ⟨scalar val, false, count⟩
    else if opensFlow c then
      (ryamlFlow nodes node (c :: rest)).map fun (nodes, _) => ⟨nodes, false, 0⟩
    else if isQuote c then
      (ryamlQuoted c (c :: rest)).map fun (val, _) => ⟨scalar val, false, 0⟩
    else
      some ⟨scalar (withoutReturn (ryamlPlainExtent (c :: rest))), false, 0⟩

/-- `struct ryaml_frame`. -/
structure Frame where
  node : Nat
  indent : Int
deriving DecidableEq

/-- The part of `struct ryaml_parser` that the loop keeps: the stack has its top first and the
root's frame last, and a pending node comes with the indentation of its key. -/
structure Parser where
  nodes : List Node
  stk : List Frame
  pending : Option (Nat × Int)
deriving DecidableEq

/-- A deferred key becomes a container once something deeper turns up, or a sequence at its own
indentation. -/
def Parser.resolve (ps : Parser) (isSeq : Bool) (indent : Int) : Parser :=
  match ps.pending with
  | none => ps
  | some (node, keyIndent) =>
    if keyIndent < indent ∨ (isSeq ∧ indent = keyIndent) then
      { nodes := setNode ps.nodes node fun n => { n with type := if isSeq then .seq else .map }
        stk := ⟨node, indent⟩ :: ps.stk
        pending := none }
    else { ps with pending := none }

/-- Containers that are deeper than a line are closed, but never the root. -/
def closeDeeper (indent : Int) : List Frame → List Frame
  | top :: below :: rest =>
    if indent < top.indent then closeDeeper indent (below :: rest) else top :: below :: rest
  | stk => stk

/-- The first entry makes the root a container, at the indentation that it has. -/
def Parser.fixRoot (ps : Parser) (isSeq : Bool) (indent : Int) : Parser :=
  match ps.stk with
  | [root] =>
    if typeAt ps.nodes root.node = some .none then
      { ps with
        nodes := setNode ps.nodes root.node fun n => { n with type := if isSeq then .seq else .map }
        stk := [⟨root.node, indent⟩] }
    else ps
  | _ => ps

/-- The containers that are open for a line, and the one that the line belongs to. -/
def Parser.openFor (ps : Parser) (isSeq : Bool) (indent : Int) : Option (Parser × Frame) :=
  let ps := ps.resolve isSeq indent
  let ps := { ps with stk := closeDeeper indent ps.stk }
  let ps := ps.fixRoot isSeq indent
  match ps.stk with
  | [] => none
  | top :: _ => if top.indent < indent then none else some (ps, top)

/-- The key before a colon, without the spaces between them or with its quotes taken off. -/
def keyOf (content : List UInt8) (colon : Nat) : Option (List UInt8) :=
  match content with
  | [] => none
  | c :: _ =>
    if isQuote c then (ryamlQuoted c content).map fun (key, _) => key
    else some ((content.take colon).rdropWhile isSpace)

/-- A key, its colon and what follows it become a node of a mapping. -/
def Parser.entry (ps : Parser) (map : Nat) (indent : Nat) (content : List UInt8) (colon : Nat)
    (lines : List (List UInt8)) : Option (Parser × Nat) :=
  let kv := ps.nodes.length
  (keyOf content colon).bind fun key =>
    let nodes := setNode (ryamlNodeNew ps.nodes (some map) .scalar) kv fun n =>
      { n with key := some key }
    (ryamlValue nodes kv indent (content.drop (colon + 1)) lines).map fun value =>
      ({ ps with
        nodes := value.nodes
        pending := if value.deferred then some (kv, indent) else ps.pending }, value.read)

/-- The colon of a compact mapping, whose first key is on the dash's line. -/
def compactColon (rest : List UInt8) : Option Nat :=
  match rest with
  | [] => none
  | c :: _ => if opensFlow c then none else ryamlFindKeyColon rest

/-- Whether nothing is behind a dash but a comment. -/
def isAbsent (rest : List UInt8) : Bool :=
  match rest with
  | [] => true
  | c :: _ => c == 0x0D || c == 0x23

/-- A dash and what follows it become a node of a sequence. -/
def Parser.item (ps : Parser) (seq : Nat) (indent : Nat) (content : List UInt8)
    (lines : List (List UInt8)) : Option (Parser × Nat) :=
  let item := ps.nodes.length
  let nodes := ryamlNodeNew ps.nodes (some seq) .scalar
  let rest := (content.drop 1).dropWhile isSpace
  match compactColon rest with
  | some colon =>
    -- The dash and the first key share the line, and the keys line up under the first.
    let kind := content.length - rest.length + indent
    Parser.entry
      { ps with
        nodes := setNode nodes item fun n => { n with type := .map }
        stk := ⟨item, kind⟩ :: ps.stk } item kind rest colon lines
  | none =>
    if isAbsent rest then some ({ ps with nodes := nodes, pending := some (item, indent) }, 0)
    else (ryamlValue nodes item indent rest lines).map fun value =>
      ({ ps with nodes := value.nodes }, value.read)

/-- One pass of the loop in `ryaml_run`: the reader after it, and how many of the following lines
it has read. -/
def Parser.pass (ps : Parser) (line : List UInt8) (lines : List (List UInt8)) : Option (Parser × Nat) :=
  let indent := ryamlIndentOf line
  let content := contentOf line
  if ryamlLineIsBlank content ∨ content.head? = some 0x23 then some (ps, 0)
  else if content.head? = some 0x09 then none
  else
    let isSeq := isSeqItem content
    (ps.openFor isSeq indent).bind fun (ps, top) =>
      if isSeq then
        if typeAt ps.nodes top.node ≠ some .seq then none
        else ps.item top.node indent content lines
      else
        (ryamlFindKeyColon content).bind fun colon =>
          if typeAt ps.nodes top.node ≠ some .map then none
          else ps.entry top.node indent content colon lines

/-- The loop of `ryaml_run`, with the lines of a block scalar passed over that was read already. -/
def Parser.run (ps : Parser) : List (List UInt8) → Nat → Option Parser
  | [], _ => some ps
  | _ :: lines, read + 1 => ps.run lines read
  | line :: lines, 0 => (ps.pass line lines).bind fun (ps, read) => ps.run lines read

/-- The reader as the loop finds it first. -/
def Parser.start : Parser := { nodes := ryamlNodeNew [] none .none, stk := [⟨0, -1⟩], pending := none }

/-- A text without its byte order mark. -/
def withoutMark (text : List UInt8) : List UInt8 :=
  match text with
  | 0xEF :: 0xBB :: 0xBF :: rest => rest
  | text => text

/-- `ryaml_parse`. -/
def ryamlParse (text : List UInt8) : Option Tree :=
  (Parser.start.run (linesOf (withoutMark text)) 0).map fun ps => ⟨ps.nodes⟩

end Libretro.Ryaml
