import Mathlib.Algebra.GroupWithZero.Nat
import Mathlib.Data.List.Basic

/-! The XML parser: its scanners, and the parse in one call and in steps, each of which reads something. -/

namespace Libretro.Rxml

/-- Why a scanner stops before its construct is complete. -/
inductive Code where
  | malformed | truncated
deriving DecidableEq

/-- A scan that stopped, and the text at the cursor it left. -/
structure Halt where
  code : Code
  rest : List UInt8
deriving DecidableEq

/-- A scanner gives what it read, or says why it stopped. -/
abbrev Scan (α : Type) := Except Halt α

/-- The byte at the cursor, where the text ends with a NUL. -/
def peek (text : List UInt8) : UInt8 := text.headD 0

/-- An unexpected byte is an error, unless it is the end of the text. -/
def unexpected (text : List UInt8) : Halt := ⟨if peek text = 0 then .truncated else .malformed, text⟩

/-- The bytes that may start a name. -/
def isNameStart (c : UInt8) : Bool :=
  c == 0x3A || c == 0x5F || 0x80 ≤ c || (0x41 ≤ c && c ≤ 0x5A) || (0x61 ≤ c && c ≤ 0x7A)

/-- The bytes that may continue a name. -/
def isName (c : UInt8) : Bool := isNameStart c || c == 0x2D || c == 0x2E || (0x30 ≤ c && c ≤ 0x39)

/-- Whitespace, where a carriage return is one of the four. -/
def isSp (c : UInt8) : Bool := c == 0x09 || c == 0x0A || c == 0x0D || c == 0x20

/-- The bytes that stop a run of content. -/
def stopsContent (c : UInt8) : Bool := c == 0x00 || c == 0x0D || c == 0x26 || c == 0x3C

/-- The bytes that stop a run of an attribute value. -/
def stopsValue (c : UInt8) : Bool :=
  c == 0x00 || c == 0x09 || c == 0x0A || c == 0x0D || c == 0x22 || c == 0x26 || c == 0x27 || c == 0x3C

/-- The decimal digits. -/
def isDigit (c : UInt8) : Bool := 0x30 ≤ c && c ≤ 0x39

/-- The letters of either case. -/
def isLetter (c : UInt8) : Bool := (0x41 ≤ c && c ≤ 0x5A) || (0x61 ≤ c && c ≤ 0x7A)

/-- The quotes that may enclose a value. -/
def isQuote (c : UInt8) : Bool := c == 0x27 || c == 0x22

/-- The text past its whitespace. -/
def skipSp (text : List UInt8) : List UInt8 := text.dropWhile isSp

/-- The text past the first occurrence of a byte, if the byte comes before the end. -/
def afterByte (c : UInt8) : List UInt8 → Option (List UInt8)
  | [] => none
  | d :: rest => if d = 0 then none else if d = c then some rest else afterByte c rest

/-- The text at its end. -/
def textEnd (text : List UInt8) : List UInt8 := text.dropWhile (· ≠ 0)

/-- A literal is read byte by byte, and a mismatch leaves the cursor where it was. -/
def matchFrom (entry : List UInt8) : List UInt8 → List UInt8 → Scan (List UInt8)
  | [], text => .ok text
  | l :: literal, text =>
    if peek text = 0 then .error ⟨.truncated, text⟩
    else if peek text ≠ l then .error ⟨.malformed, entry⟩
    else matchFrom entry literal text.tail

/-- A literal at the cursor. -/
def matchLiteral (literal text : List UInt8) : Scan (List UInt8) :=
  matchFrom text literal text

/-- The bytes that the names open at once may take. -/
def nameBudget : Nat := 4094

/-- The length of the name at the cursor, whose first byte the caller has checked. -/
def nameLength (text : List UInt8) : Nat := 1 + (text.tail.takeWhile isName).length

/-- The name at the cursor is too long for what the open names have left of the budget. -/
def overBudget (namesLen : Nat) (text : List UInt8) : Bool := nameBudget < namesLen + nameLength text

/-- The body of a comment runs to two dashes, which a closing bracket has to follow. -/
def commentBody (entry : List UInt8) : List UInt8 → Scan (List UInt8)
  | [] => .error ⟨.truncated, []⟩
  | c :: rest =>
    if c = 0 then .error ⟨.truncated, c :: rest⟩
    else if c = 0x2D ∧ peek rest = 0x2D then
      if peek rest.tail = 0x3E then .ok rest.tail.tail
      else if peek rest.tail = 0 then .error ⟨.truncated, rest.tail⟩
      else .error ⟨.malformed, entry⟩
    else commentBody entry rest

/-- A comment, from the second dash that opens it. -/
def scanComment (text : List UInt8) : Scan (List UInt8) :=
  if peek text ≠ 0x2D then .error (unexpected text)
  else commentBody text text.tail

/-- The body of an instruction, in which a question mark takes the byte after it along. -/
def piBody : List UInt8 → Scan (List UInt8)
  | [] => .error ⟨.truncated, []⟩
  | c :: rest =>
    if c = 0 then .error ⟨.truncated, c :: rest⟩
    else if c = 0x3F then
      match rest with
      | [] => .error ⟨.truncated, []⟩
      | d :: rest =>
        if d = 0x3E then .ok rest
        else if d = 0 then .error ⟨.truncated, d :: rest⟩
        else piBody rest
    else piBody rest

/-- The name that only the declaration may have, in any mix of cases. -/
def isXml (name : List UInt8) : Bool := name.map (· ||| 32) == [0x78, 0x6D, 0x6C]

/-- A processing instruction, from its name. -/
def scanPi (namesLen : Nat) (text : List UInt8) : Scan (List UInt8) :=
  if !isNameStart (peek text) then .error (unexpected text)
  else
    let name := text.take (nameLength text)
    let rest := text.drop (nameLength text)
    if overBudget namesLen text then .error ⟨.malformed, rest⟩
    else if !(peek rest == 0x3F || isSp (peek rest)) then .error (unexpected rest)
    else if isXml name then .error ⟨.malformed, rest⟩
    else if peek rest = 0x3F then
      if peek rest.tail = 0 then .error ⟨.truncated, rest.tail⟩
      else if peek rest.tail ≠ 0x3E then .error ⟨.malformed, rest⟩
      else .ok rest.tail.tail
    else piBody rest

/-- What a markup declaration inside a document type runs over; the count bounds the bytes left. -/
def chatter : Nat → List UInt8 → Scan (List UInt8)
  | 0, text => .error ⟨.truncated, text⟩
  | n + 1, text =>
    if peek text = 0 then .error ⟨.truncated, text⟩
    else if peek text = 0x3E then .ok text.tail
    else if isQuote (peek text) then
      match afterByte (peek text) text.tail with
      | none => .error ⟨.truncated, textEnd text.tail⟩
      | some rest => chatter n rest
    else chatter n text.tail

/-- The body of a document type, which hides what it quotes and nests what it brackets. -/
def doctypeBody (namesLen : Nat) : Nat → List UInt8 → List UInt8 → Scan (List UInt8)
  | 0, _, text => .error ⟨.truncated, text⟩
  | n + 1, cursor, text =>
    if peek text = 0 then .error ⟨.truncated, text⟩
    else if peek text = 0x3E then .ok text.tail
    else if isQuote (peek text) then
      match afterByte (peek text) text.tail with
      | none => .error ⟨.truncated, textEnd text.tail⟩
      | some rest => doctypeBody namesLen n cursor rest
    else if peek text = 0x3C then
      let text := text.tail
      if peek text = 0x3F then do
        let rest ← scanPi namesLen text.tail
        doctypeBody namesLen n rest rest
      else if peek text = 0x21 then
        let text := text.tail
        if peek text = 0 then .error ⟨.truncated, text⟩
        else if peek text = 0x2D then do
          let rest ← scanComment text.tail
          doctypeBody namesLen n rest rest
        else do
          -- The first byte after the mark is taken unseen, even if it is a quote or a bracket.
          let rest ← chatter text.tail.length text.tail
          doctypeBody namesLen n cursor rest
      else if peek text = 0 then .error ⟨.truncated, text⟩
      else .error ⟨.malformed, cursor⟩
    else doctypeBody namesLen n cursor text.tail

/-- A document type declaration, from the end of its keyword. -/
def scanDoctype (namesLen : Nat) (text : List UInt8) : Scan (List UInt8) :=
  doctypeBody namesLen text.length text text

/-- What the byte at the cursor has to be. -/
def expect (holds : Bool) (text : List UInt8) : Scan Unit :=
  if holds then .ok () else .error (unexpected text)

/-- The rest of a keyword, an equals sign and the quote that opens the value. -/
def xmldeclEq (literal text : List UInt8) : Scan (UInt8 × List UInt8) := do
  let text ← matchLiteral literal text
  let text := skipSp text
  expect (peek text == 0x3D) text
  let text := skipSp text.tail
  expect (isQuote (peek text)) text
  return (peek text, text.tail)

/-- The quote that closes a value, with a space or the end of the declaration after it. -/
def xmldeclClose (quote : UInt8) (text : List UInt8) : Scan (List UInt8) := do
  expect (peek text == quote) text
  let text := text.tail
  expect (peek text == 0x3F || isSp (peek text)) text
  return skipSp text

/-- The version, which is 1 with a minor number. -/
def xmldeclVersion (text : List UInt8) : Scan (List UInt8) := do
  let text := skipSp text
  expect (peek text == 0x76) text
  let (quote, text) ← xmldeclEq [0x65, 0x72, 0x73, 0x69, 0x6F, 0x6E] text.tail
  let text ← matchLiteral [0x31, 0x2E] text
  expect (isDigit (peek text)) text
  xmldeclClose quote (text.dropWhile isDigit)

/-- The bytes of an encoding's name after the first. -/
def isEncoding (c : UInt8) : Bool := isLetter c || isDigit c || c == 0x2E || c == 0x5F || c == 0x2D

/-- The encoding, when there is one. -/
def xmldeclEncoding (text : List UInt8) : Scan (List UInt8) :=
  if peek text ≠ 0x65 then .ok text
  else do
    let (quote, text) ← xmldeclEq [0x6E, 0x63, 0x6F, 0x64, 0x69, 0x6E, 0x67] text.tail
    expect (isLetter (peek text)) text
    xmldeclClose quote (text.tail.dropWhile isEncoding)

/-- The answer to whether the document stands alone. -/
def xmldeclAnswer (text : List UInt8) : Scan (List UInt8) :=
  if peek text = 0x79 then matchLiteral [0x65, 0x73] text.tail
  else if peek text = 0x6E then matchLiteral [0x6F] text.tail
  else .error (unexpected text)

/-- The standalone flag, when there is one. -/
def xmldeclStandalone (text : List UInt8) : Scan (List UInt8) :=
  if peek text ≠ 0x73 then .ok text
  else do
    let (quote, text) ← xmldeclEq [0x74, 0x61, 0x6E, 0x64, 0x61, 0x6C, 0x6F, 0x6E, 0x65] text.tail
    let text ← xmldeclAnswer text
    expect (peek text == quote) text
    return skipSp text.tail

/-- The declaration at the start of a document, from the space after its name. -/
def scanXmldecl (text : List UInt8) : Scan (List UInt8) := do
  let text ← xmldeclVersion text
  let text ← xmldeclEncoding text
  let text ← xmldeclStandalone text
  expect (peek text == 0x3F) text
  expect (peek text.tail == 0x3E) text.tail
  return text.tail.tail

/-- Where around the root the parser is, and whether a declaration may still come. -/
inductive Mode where
  | first | prolog | epilog
deriving DecidableEq

/-- After its first construct a prolog takes no declaration. -/
def Mode.later : Mode → Mode
  | .epilog => .epilog
  | _ => .prolog

/-- What one round of the scan found. -/
inductive Item where
  | next (rest : List UInt8)
  | root (rest : List UInt8)
  | finish (rest : List UInt8)
deriving DecidableEq

/-- The declaration, at the very start of a document only. -/
def declares (mode : Mode) (text : List UInt8) : Bool :=
  mode == .first && text.take 3 == [0x78, 0x6D, 0x6C] && isSp (peek (text.drop 3))

/-- A construct of the prolog or the epilog that a mark of exclamation opens. -/
def miscMarked (namesLen : Nat) (mode : Mode) (text : List UInt8) : Scan (List UInt8) :=
  if peek text = 0x2D then scanComment text.tail
  else if mode ≠ .epilog ∧ peek text = 0x44 then do
    let rest ← matchLiteral [0x4F, 0x43, 0x54, 0x59, 0x50, 0x45] text.tail
    scanDoctype namesLen rest
  else .error (unexpected text)

/-- A construct of the prolog or the epilog that a question mark opens. -/
def miscQuestion (namesLen : Nat) (mode : Mode) (text : List UInt8) : Scan (List UInt8) :=
  if declares mode text then
    let rest := text.drop 4
    scanXmldecl (if peek (text.drop 3) = 0x0D ∧ peek rest = 0x0A then rest.tail else rest)
  else scanPi namesLen text

/-- One item around the root element. -/
def miscItem (namesLen : Nat) (mode : Mode) (text : List UInt8) : Scan Item :=
  let text := skipSp text
  if peek text ≠ 0x3C then
    -- The epilog is the one place where a document may end.
    if peek text = 0 ∧ mode = .epilog then .ok (.finish text) else .error (unexpected text)
  else
    let text := text.tail
    if peek text = 0x21 then .next <$> miscMarked namesLen mode text.tail
    else if peek text = 0x3F then .next <$> miscQuestion namesLen mode text.tail
    else if mode ≠ .epilog ∧ isNameStart (peek text) then .ok (.root text)
    else .error (unexpected text)

/-- The items up to the root's name, or from the root to the end; the count bounds the bytes left. -/
def scanMisc (namesLen : Nat) : Nat → Mode → List UInt8 → Scan Item
  | 0, mode, text => if mode = .epilog then .ok (.finish text) else .error ⟨.truncated, text⟩
  | n + 1, mode, text =>
    match miscItem namesLen mode text with
    | .ok (.next rest) => scanMisc namesLen n mode.later rest
    | found => found

/-- The value of a decimal digit. -/
def decimalDigit (c : UInt8) : Option Nat := if isDigit c then some (c.toNat - 0x30) else none

/-- The value of a hexadecimal digit of either case. -/
def hexDigit (c : UInt8) : Option Nat :=
  if isDigit c then some (c.toNat - 0x30)
  else if 0x61 ≤ c ||| 32 && c ||| 32 ≤ 0x66 then some ((c ||| 32).toNat - 0x61 + 10)
  else none

/-- The number that digits spell, or zero when one of them is none. -/
def digitsValue (base : Nat) (digit : UInt8 → Option Nat) : Nat → List UInt8 → Nat
  | ch, [] => ch
  | ch, c :: rest =>
    match digit c with
    | none => 0
    | some d => digitsValue base digit (ch * base + d) rest

/-- The entities that need no declaration. -/
def named : List (List UInt8 × UInt8) :=
  [([0x6C, 0x74], 0x3C), ([0x67, 0x74], 0x3E), ([0x61, 0x6D, 0x70], 0x26),
    ([0x61, 0x70, 0x6F, 0x73], 0x27), ([0x71, 0x75, 0x6F, 0x74], 0x22)]

/-- The character that a reference stands for, or zero when it stands for none. -/
def refChar : List UInt8 → Nat
  | 0x23 :: 0x78 :: digits => digitsValue 16 hexDigit 0 digits
  | 0x23 :: digits => digitsValue 10 decimalDigit 0 digits
  | name => ((named.lookup name).getD 0).toNat

/-- The characters that a reference may stand for. -/
def validChar (ch : Nat) : Bool :=
  ch != 0 && ch ≤ 0x10FFFF && ch != 0xFFFE && ch != 0xFFFF && !(0xDFFF ≤ ch && ch < 0xDFFF + 0x7FF)

/-- The bytes of a character. -/
def encodeChar (ch : Nat) : List UInt8 :=
  if ch ≤ 0x7F then [.ofNat ch]
  else if ch ≤ 0x7FF then [.ofNat (0xC0 ||| ch >>> 6), .ofNat (0x80 ||| ch &&& 0x3F)]
  else if ch ≤ 0xFFFF then
    [.ofNat (0xE0 ||| ch >>> 12), .ofNat (0x80 ||| ch >>> 6 &&& 0x3F), .ofNat (0x80 ||| ch &&& 0x3F)]
  else
    [.ofNat (0xF0 ||| ch >>> 18), .ofNat (0x80 ||| ch >>> 12 &&& 0x3F),
      .ofNat (0x80 ||| ch >>> 6 &&& 0x3F), .ofNat (0x80 ||| ch &&& 0x3F)]

/-- What a reference adds to the accumulator. -/
def refEmit (ref : List UInt8) : Option (List UInt8) :=
  if ref.length = 0 ∨ 7 < ref.length then none
  else if validChar (refChar ref) then some (encodeChar (refChar ref)) else none

/-- The bytes that may stand between the marks of a reference. -/
def isRef (c : UInt8) : Bool := isLetter c || isDigit c || c == 0x23

/-- The length of a reference's body, or why there is none. -/
def refLength : Nat → List UInt8 → Except Code Nat
  | _, [] => .error .truncated
  | count, c :: rest =>
    if c = 0x3B then .ok count
    else if c = 0 then .error .truncated
    else if !isRef c then .error .malformed
    else if 7 ≤ count then .error .malformed
    else refLength (count + 1) rest

/-- A reference, from the mark that opens it: its bytes, and the text past the mark that ends it. -/
def scanRef (text : List UInt8) : Scan (List UInt8 × List UInt8) :=
  match refLength 0 text.tail with
  | .error .truncated => .error ⟨.truncated, textEnd text⟩
  | .error .malformed => .error ⟨.malformed, text⟩
  | .ok len =>
    match refEmit (text.tail.take len) with
    | none => .error ⟨.malformed, text⟩
    | some bytes => .ok (bytes, text.tail.drop (len + 1))

/-- A string of the tree: bytes of its own, or bytes of the document that a NUL ends in place. -/
inductive Text where
  | copied (bytes : List UInt8)
  | inPlace (start : Nat)
deriving DecidableEq

/-- An attribute, whose value is absent when it is empty. -/
structure Attrib where
  attrib : List UInt8
  value : Option Text := none
deriving DecidableEq

/-- An element: its links are places in the order of allocation, its attributes are in order. -/
structure Node where
  name : List UInt8
  data : Option Text := none
  attrib : List Attrib := []
  children : Option Nat := none
  next : Option Nat := none
  line : Nat
deriving DecidableEq

/-- The document owns its text, which the parser may write to, and every element. -/
structure Document where
  rootNode : Option Nat := none
  nodes : List Node := []
  buf : List UInt8
deriving DecidableEq

/-- A run of the document's text: where it starts and its length. -/
structure Span where
  start : Nat
  len : Nat
deriving DecidableEq

/-- A level of nesting: the element descended from and the name of the element open here. -/
structure Frame where
  node : Nat := 0
  name : Span := ⟨0, 0⟩
deriving DecidableEq

/-- The options a caller may set. -/
structure Options where
  strictEof : Bool := false
  lines : Bool := false
deriving DecidableEq

/-- Everything that the parser keeps from one construct to the next. -/
structure Parser where
  p : Nat := 0
  acc : List UInt8 := []
  valDirect : Option Span := none
  txtDirect : Option Span := none
  frames : List Frame := List.replicate 32 {}
  stackI : Nat := 0
  level : Nat := 0
  namesLen : Nat := 0
  node : Option Nat := none
  -- The place of the last attribute among those of the current element.
  attr : Option Nat := none
  doc : Document
deriving DecidableEq

/-- The text from the cursor on. -/
def Parser.rest (ps : Parser) : List UInt8 := ps.doc.buf.drop ps.p

/-- The cursor moves to where a scanner left off. -/
def Parser.seek (ps : Parser) (rest : List UInt8) : Parser := { ps with p := ps.doc.buf.length - rest.length }

/-- The bytes of a run. -/
def Document.span (doc : Document) (run : Span) : List UInt8 := (doc.buf.drop run.start).take run.len

/-- A string as its reader sees it. -/
def Document.text (doc : Document) : Text → List UInt8
  | .copied bytes => bytes
  | .inPlace start => (doc.buf.drop start).takeWhile (· ≠ 0)

/-- An element is changed where it lies. -/
def Document.modifyNode (doc : Document) (i : Nat) (f : Node → Node) : Document :=
  { doc with nodes := doc.nodes.modify i f }

/-- The byte after a run becomes the NUL that ends the string. -/
def Document.terminate (doc : Document) (run : Span) : Document :=
  { doc with buf := doc.buf.set (run.start + run.len) 0 }

/-- A level of nesting, by its number. -/
def Parser.frame (ps : Parser) (i : Nat) : Frame := ps.frames.getD i {}

/-- A deferred run is folded into the accumulator before anything is put after it. -/
def accPromote (ps : Parser) : Parser :=
  match ps.txtDirect with
  | none => ps
  | some run => { ps with txtDirect := none, acc := ps.acc ++ ps.doc.span run }

/-- Bytes are put after what has been accumulated. -/
def accSpan (ps : Parser) (bytes : List UInt8) : Parser :=
  let ps := accPromote ps
  { ps with acc := ps.acc ++ bytes }

/-- The text that is pending, deferred or accumulated. -/
def Parser.pending (ps : Parser) : List UInt8 :=
  match ps.txtDirect with
  | some run => ps.doc.span run
  | none => ps.acc

/-- The pending text is whitespace only. -/
def pendingIsWs (ps : Parser) : Bool := ps.pending.all isSp

/-- The pending text is forgotten. -/
def Parser.dropPending (ps : Parser) : Parser := { ps with txtDirect := none, acc := [] }

/-- Some text is pending. -/
def Parser.hasPending (ps : Parser) : Bool := ps.txtDirect.isSome || ps.acc != []

/-- Text around child elements is put after what the enclosing element already has. -/
def flushMixed (ps : Parser) (owner : Option Nat) : Parser :=
  let text := ps.pending
  let ps := ps.dropPending
  match owner with
  | none => ps
  | some i =>
    { ps with doc := ps.doc.modifyNode i fun n =>
      { n with data := some (.copied ((n.data.map ps.doc.text).getD [] ++ text)) } }

/-- A new element is the root, or the first child or the next sibling of the current one. -/
def linkNode (ps : Parser) (new : Nat) : Parser :=
  match ps.node with
  | none => { ps with doc := { ps.doc with rootNode := some new } }
  | some i =>
    if ps.stackI < ps.level then
      { ps with
        frames := ps.frames.set ps.stackI { ps.frame ps.stackI with node := i }
        stackI := ps.stackI + 1
        doc := ps.doc.modifyNode i ({ · with children := some new }) }
    else { ps with doc := ps.doc.modifyNode i ({ · with next := some new }) }

/-- The element descended from last, if the parser has descended. -/
def Parser.parent (ps : Parser) : Option Nat :=
  if 0 < ps.stackI then some (ps.frame (ps.stackI - 1)).node else none

/-- The element around a new one, as the links stand when the new one has been put in. -/
def Parser.enclosing (ps : Parser) : Option Nat :=
  if ps.node.isSome && ps.stackI < ps.level then ps.node else ps.parent

/-- The frames double when every one of them is in use. -/
def growFrames (ps : Parser) : Parser :=
  if ps.level = ps.frames.length then
    { ps with frames := ps.frames ++ List.replicate ps.frames.length {} }
  else ps

/-- Text before a child belongs to the element around the child, unless it is whitespace only. -/
def textBefore (ps : Parser) : Parser :=
  if ps.hasPending then
    if pendingIsWs ps then ps.dropPending else flushMixed ps ps.enclosing
  else ps

/-- A new element is allocated and linked in, and has no attributes yet. -/
def allocate (ps : Parser) (node : Node) : Parser :=
  let new := ps.doc.nodes.length
  let ps := { linkNode ps new with attr := none }
  { ps with doc := { ps.doc with nodes := ps.doc.nodes ++ [node] } }

/-- The start of an element: it is linked in, and the text before it goes to the one around it. -/
def onElemstart (ps : Parser) (name : Span) : Parser :=
  let ps := growFrames ps
  let new := ps.doc.nodes.length
  -- The offset of the opening bracket is kept in 32 bits.
  let ps := allocate ps { name := ps.doc.span name, line := (name.start - 1) % 2 ^ 32 }
  let ps := textBefore ps
  { ps with
    node := some new
    frames := ps.frames.set ps.level { ps.frame ps.level with name := name }
    level := ps.level + 1 }

/-- The text of an element without children becomes its data, in place when it is one run. -/
def storeData (ps : Parser) : Parser :=
  match ps.node with
  | none => ps.dropPending
  | some i =>
    match ps.txtDirect with
    | some run =>
      { ps.dropPending with
        doc := (ps.doc.terminate run).modifyNode i ({ · with data := some (.inPlace run.start) }) }
    | none =>
      { ps.dropPending with
        doc := ps.doc.modifyNode i ({ · with data := some (.copied ps.acc) }) }

/-- Text before an end tag is the data of an element without children, or its last run of text. -/
def textAtEnd (ps : Parser) : Parser :=
  if ps.hasPending then
    if ps.level = ps.stackI then storeData ps
    else if pendingIsWs ps then ps.dropPending
    else flushMixed ps ps.parent
  else ps

/-- The end of an element: what is pending is its text, and the parser goes back to its parent. -/
def onElemend (ps : Parser) : Parser :=
  let ps := textAtEnd { ps with level := ps.level - 1 }
  if ps.level < ps.stackI then
    { ps with stackI := ps.stackI - 1, node := some (ps.frame (ps.stackI - 1)).node }
  else ps

/-- The start of an attribute, which is put after the last one of the current element. -/
def onAttrstart (ps : Parser) (name : Span) : Parser :=
  let attrib : Attrib := { attrib := ps.doc.span name }
  let ps := ps.dropPending
  match ps.node with
  | none => ps
  | some i =>
    match ps.attr with
    | some last =>
      { ps with
        doc := ps.doc.modifyNode i fun n => { n with attrib := n.attrib.take (last + 1) ++ [attrib] }
        attr := some (last + 1) }
    | none => { ps with doc := ps.doc.modifyNode i ({ · with attrib := [attrib] }), attr := some 0 }

/-- The last attribute of the current element gets its value. -/
def Parser.setValue (ps : Parser) (doc : Document) (value : Text) : Document :=
  match ps.node, ps.attr with
  | some i, some last =>
    doc.modifyNode i fun n =>
      { n with attrib := n.attrib.modify last ({ · with value := some value }) }
  | _, _ => doc

/-- The end of an attribute: its value is read in place when it needed no translation. -/
def onAttrend (ps : Parser) : Parser :=
  match ps.valDirect with
  | some run =>
    if run.len = 0 then { ps with valDirect := none }
    else
      { ps with valDirect := none, doc := ps.setValue (ps.doc.terminate run) (.inPlace run.start) }
  | none =>
    if ps.acc = [] then ps
    else { ps with acc := [], doc := ps.setValue ps.doc (.copied ps.acc) }

/-- The text past a line feed, when one follows a carriage return. -/
def skipLf : List UInt8 → List UInt8
  | 0x0A :: rest => rest
  | text => text

/-- A run that is not empty is put into the accumulator. -/
def Parser.keep (ps : Parser) (run : List UInt8) : Parser := if run = [] then ps else accSpan ps run

/-- A section of character data, read one byte at a time after the run read so far. -/
def scanCdata (ps : Parser) (run : List UInt8) : List UInt8 → Parser × Except Code Unit
  | [] => (ps.seek [], .error .truncated)
  | c :: rest =>
    if c = 0x5D then
      if peek rest = 0x5D ∧ peek rest.tail = 0x3E then ((ps.keep run).seek rest.tail.tail, .ok ())
      else if peek rest ≠ 0 ∧ (peek rest ≠ 0x5D ∨ peek rest.tail ≠ 0) then
        scanCdata ps (run ++ [c]) rest
      else (ps.seek (c :: rest), .error .truncated)
    else if c = 0x0D then
      let ps := accSpan (ps.keep run) [0x0A]
      match rest with
      | [] => (ps.seek [], .error .truncated)
      | d :: after => if d = 0x0A then scanCdata ps [] after else scanCdata ps [] (d :: after)
    else if c ≠ 0 then scanCdata ps (run ++ [c]) rest
    else (ps.seek (c :: rest), .error .truncated)

/-- The rest of a value that needs translation; the count bounds the bytes left. -/
def valueLoop (quote : UInt8) : Nat → Parser → List UInt8 → List UInt8 → Parser × Except Code Unit
  | 0, ps, run, text => ((ps.keep run).seek text, .error .truncated)
  | n + 1, ps, run, text =>
    let c := peek text
    if !stopsValue c ∧ c ≠ quote then valueLoop quote n ps (run ++ [c]) text.tail
    else
      let ps := ps.keep run
      if c = quote then (ps.seek text.tail, .ok ())
      else if c = 0 then (ps.seek text, .error .truncated)
      else if c = 0x3C then (ps, .error .malformed)
      else if c = 0x26 then
        match scanRef text with
        | .error halt => (ps.seek halt.rest, .error halt.code)
        | .ok (bytes, rest) => valueLoop quote n ((accSpan ps bytes).seek rest) [] rest
      else if c = 0x0D then valueLoop quote n (accSpan ps [0x20]) [] (skipLf text.tail)
      else
        let bytes := if c = 0x09 ∨ c = 0x0A then [0x20] else [c]
        valueLoop quote n (accSpan ps bytes) [] text.tail

/-- An attribute's value, from the byte after its quote: as it lies, when nothing is translated. -/
def scanAttrvalue (ps : Parser) (quote : UInt8) : Parser × Except Code Unit :=
  let run := ps.rest.takeWhile (!stopsValue ·)
  let text := ps.rest.dropWhile (!stopsValue ·)
  if peek text = quote then
    ({ ps with valDirect := some ⟨ps.p, run.length⟩ }.seek text.tail, .ok ())
  else valueLoop quote text.length ps run text

/-- Where the parser is between two of its steps, with what it holds in locals there. -/
inductive Point where
  | prolog
  | element
  | attributes (nameLen : Nat)
  | between
  | content
  | epilog
deriving DecidableEq

/-- What the parse has come to: an error, the end of the text, a verdict, or a pause. -/
inductive Result where
  | malformed | truncated | parsed | paused
deriving DecidableEq

/-- The value the function returns for a scan that stopped. -/
def Code.result : Code → Result
  | .malformed => .malformed
  | .truncated => .truncated

/-- A step goes on to another point or returns. -/
inductive Next where
  | goes (point : Point)
  | returns (result : Result)
deriving DecidableEq

/-- The parser stops where a scanner did. -/
def Parser.halts (ps : Parser) (halt : Halt) : Parser × Next := (ps.seek halt.rest, .returns halt.code.result)

/-- The parser stops at the cursor, on a byte that nothing expects. -/
def Parser.unexpected (ps : Parser) (text : List UInt8) : Parser × Next := ps.halts (Rxml.unexpected text)

/-- A scan that is complete moves the cursor, and the parser goes on to a point. -/
def Parser.goesOn (ps : Parser) (point : Point) : Scan (List UInt8) → Parser × Next
  | .ok rest => (ps.seek rest, .goes point)
  | .error halt => ps.halts halt

/-- The start of a document: a mark of the byte order, then the prolog. -/
def prologStep (ps : Parser) : Parser × Next :=
  let text := ps.rest
  let marked := if peek text = 0xEF then matchLiteral [0xBB, 0xBF] text.tail else .ok text
  match marked with
  | .error halt => ps.halts halt
  | .ok text =>
    match scanMisc ps.namesLen text.length .first text with
    | .error halt => ps.halts halt
    | .ok (.root rest) => (ps.seek rest, .goes .element)
    | .ok (.next rest) => (ps.seek rest, .returns .parsed)
    | .ok (.finish rest) => (ps.seek rest, .returns .parsed)

/-- The start tag of an element up to its attributes. -/
def elementStep (ps : Parser) : Parser × Next :=
  let text := ps.rest
  let len := nameLength text
  let rest := text.drop len
  if overBudget ps.namesLen text then (ps.seek rest, .returns .malformed)
  else if !(isSp (peek rest) || peek rest == 0x2F || peek rest == 0x3E) then ps.unexpected rest
  else
    let after := onElemstart (ps.seek rest) ⟨ps.p, len⟩
    ({ after with namesLen := after.namesLen + (len + 1) }, .goes (.attributes len))

/-- After an element has been closed the parser goes on in the one around it, or ends the tree. -/
def elementClosed (ps : Parser) : Parser × Next := (ps, .goes (if ps.level = 0 then .epilog else .between))

/-- The value of an attribute whose name has been read, from the quote that opens it. -/
def attributeValue (ps : Parser) (nameLen : Nat) : Parser × Next :=
  let text := ps.rest
  if !isQuote (peek text) then ps.unexpected text
  else
    match scanAttrvalue (ps.seek text.tail) (peek text) with
    | (ps, .error code) => (ps, .returns code.result)
    | (ps, .ok ()) =>
      let ps := onAttrend ps
      let text := ps.rest
      if !(isSp (peek text) || peek text == 0x2F || peek text == 0x3E) then ps.unexpected text
      else (ps, .goes (.attributes nameLen))

/-- An attribute of the element whose start tag is being read. -/
def attributeStep (ps : Parser) (nameLen : Nat) : Parser × Next :=
  let text := ps.rest
  let len := nameLength text
  let rest := text.drop len
  if overBudget ps.namesLen text then (ps.seek rest, .returns .malformed)
  else if !(isSp (peek rest) || peek rest == 0x3D) then ps.unexpected rest
  else
    let after := onAttrstart (ps.seek rest) ⟨ps.p, len⟩
    let equals := skipSp rest
    if peek equals ≠ 0x3D then after.unexpected equals
    else attributeValue (after.seek (skipSp equals.tail)) nameLen

/-- What follows in a start tag: its end, the end of an empty element, or an attribute. -/
def attributesStep (ps : Parser) (nameLen : Nat) : Parser × Next :=
  let text := skipSp ps.rest
  let ps := ps.seek text
  if peek text = 0x3E then (ps.seek text.tail, .goes .between)
  else if peek text = 0x2F then
    if peek text.tail ≠ 0x3E then ps.unexpected text.tail
    else
      let ps := onElemend (ps.seek text.tail.tail)
      elementClosed { ps with namesLen := ps.namesLen - (nameLen + 1) }
  else if !isNameStart (peek text) then ps.unexpected text
  else attributeStep ps nameLen

/-- The name of an end tag is compared with the open one, and must not go on after it. -/
def matchOpen : List UInt8 → List UInt8 → Except Code (List UInt8)
  | [], text => if isName (peek text) then .error .malformed else .ok text
  | o :: openName, text =>
    if peek text = 0 then .error .truncated
    else if peek text ≠ o then .error .malformed
    else matchOpen openName text.tail

/-- An element is closed, and its name is no longer among the open ones. -/
def closeElement (ps : Parser) (openLen : Nat) : Parser × Next :=
  let ps := onElemend ps
  elementClosed { ps with namesLen := ps.namesLen - (openLen + 1) }

/-- An end tag, from the byte after its slash. -/
def closingTag (ps : Parser) (text : List UInt8) : Parser × Next :=
  let openName := (ps.frame (ps.level - 1)).name
  if !isNameStart (peek text) then ps.unexpected text
  else
    match matchOpen (ps.doc.span openName) text with
    | .error .malformed => (ps.seek text, .returns .malformed)
    | .error .truncated => (ps.seek (textEnd text), .returns .truncated)
    | .ok rest =>
      if peek rest = 0x3E then closeElement (ps.seek rest.tail) openName.len
      else if isSp (peek rest) then
        let rest := if peek rest = 0x0D then skipLf rest.tail else rest.tail
        -- The root is closed by the space itself, so a bracket after it meets the epilog.
        if 1 < ps.level then
          let rest := skipSp rest
          if peek rest = 0 then (onElemend (ps.seek rest), .returns .truncated)
          else if peek rest ≠ 0x3E then (ps.seek rest, .returns .malformed)
          else closeElement (ps.seek rest.tail) openName.len
        else closeElement (ps.seek rest) openName.len
      else ps.unexpected rest

/-- A construct that a mark of exclamation opens: a comment or a section. -/
def markedSection (ps : Parser) (text : List UInt8) : Parser × Next :=
  if peek text = 0x2D then ps.goesOn .content (scanComment text.tail)
  else if peek text = 0x5B then
    match matchLiteral [0x43, 0x44, 0x41, 0x54, 0x41, 0x5B] text.tail with
    | .error halt => ps.halts halt
    | .ok rest =>
      match scanCdata ps [] rest with
      | (ps, .ok ()) => (ps, .goes .content)
      | (ps, .error code) => (ps, .returns code.result)
  else ps.unexpected text

/-- What follows an opening bracket in content. -/
def markup (ps : Parser) (text : List UInt8) : Parser × Next :=
  if peek text = 0x2F then closingTag ps text.tail
  else if peek text = 0x21 then markedSection ps text.tail
  else if peek text = 0x3F then ps.goesOn .content (scanPi ps.namesLen text.tail)
  else if isNameStart (peek text) then (ps.seek text, .goes .element)
  else ps.unexpected text

/-- A run of content is deferred when nothing is pending, and accumulated otherwise. -/
def Parser.deferRun (ps : Parser) (run : List UInt8) : Parser :=
  if run = [] then ps
  else if ps.hasPending then accSpan ps run
  else { ps with txtDirect := some ⟨ps.p, run.length⟩ }

/-- A run of content and what stops it. -/
def contentStep (ps : Parser) : Parser × Next :=
  let run := ps.rest.takeWhile (!stopsContent ·)
  let text := ps.rest.dropWhile (!stopsContent ·)
  let ps := (ps.deferRun run).seek text
  if peek text = 0x3C then markup (ps.seek text.tail) text.tail
  else if peek text = 0 then (ps, .returns .truncated)
  else if peek text = 0x26 then
    match scanRef text with
    | .error halt => ps.halts halt
    | .ok (bytes, rest) => ((accSpan ps bytes).seek rest, .goes .content)
  else ((accSpan ps [0x0A]).seek (skipLf text.tail), .goes .content)

/-- After the root: the text may end between two constructs. -/
def epilogStep (ps : Parser) : Parser × Next :=
  match scanMisc ps.namesLen ps.rest.length .epilog ps.rest with
  | .error halt => ps.halts halt
  | .ok (.next rest) | .ok (.root rest) | .ok (.finish rest) => (ps.seek rest, .returns .parsed)

/-- One step from a point; between constructs the parser pauses once it is past the stop. -/
def parserStep (stop : Nat) (ps : Parser) : Point → Parser × Next
  | .prolog => prologStep ps
  | .element => elementStep ps
  | .attributes nameLen => attributesStep ps nameLen
  | .between => (ps, if stop ≤ ps.p then .returns .paused else .goes .content)
  | .content => contentStep ps
  | .epilog => epilogStep ps

/-- The steps of a parse up to its return, if it returns within a number of them. -/
def parserRun (stop : Nat) : Nat → Parser → Point → Option (Parser × Result)
  | 0, _, _ => none
  | n + 1, ps, point =>
    match parserStep stop ps point with
    | (ps, .goes point) => parserRun stop n ps point
    | (ps, .returns result) => some (ps, result)

/-- More steps than a parse can take: two for a byte, as a point may be passed without reading. -/
def Parser.steps (ps : Parser) : Nat := 2 * ps.rest.length + 2

/-- A parse from the start of the document, or from the point at which it was suspended. -/
def rxmlParseDocument (suspended : Bool) (stop : Nat) (ps : Parser) : Option (Parser × Result) :=
  parserRun stop ps.steps ps (if suspended then .between else .prolog)

/-- The line feeds between two offsets. -/
def Document.newlines (doc : Document) (first last : Nat) : Nat :=
  ((doc.buf.drop first).take (last - first)).count 0x0A

/-- The elements that a walk over the tree passes, along paths of a bounded length. -/
def Document.weight (doc : Document) : Nat → Option Nat → Nat
  | _, none => 0
  | 0, some _ => 1
  | depth + 1, some i =>
    match doc.nodes[i]? with
    | none => 1
    | some n => 1 + doc.weight depth n.children + doc.weight depth n.next

/-- The walk that turns offsets into line numbers, with the siblings it has still to come back to. -/
def annotateWalk : Nat → Document → Option Nat → List Nat → Nat → Nat → Option Document
  | _, doc, none, _, _, _ => some doc
  | 0, _, some _, _, _, _ => none
  | n + 1, doc, some i, up, place, line =>
    match doc.nodes[i]? with
    | none => some doc
    | some node =>
      let line := (line + doc.newlines place node.line) % 2 ^ 32
      let doc := doc.modifyNode i ({ · with line := line })
      match node.children, node.next, up with
      | some child, some next, up => annotateWalk n doc (some child) (next :: up) node.line line
      | some child, none, up => annotateWalk n doc (some child) up node.line line
      | none, some next, up => annotateWalk n doc (some next) up node.line line
      | none, none, top :: up => annotateWalk n doc (some top) up node.line line
      | none, none, [] => annotateWalk n doc none [] node.line line

/-- Every element gets its line number, if the walk over the tree ends. -/
def rxmlAnnotateLines (doc : Document) : Option Document :=
  annotateWalk (doc.weight (doc.nodes.length + 1) doc.rootNode) doc doc.rootNode [] 0 1

/-- Where in the document a parse failed. -/
structure ParseError where
  offset : Nat
  line : Nat
  col : Nat
deriving DecidableEq

/-- The line and column of an offset, both counted from one. -/
def rxmlErrorPosition (buf : List UInt8) (offset : Nat) : ParseError :=
  let before := buf.take offset
  ⟨offset, 1 + before.count 0x0A, (before.reverse.takeWhile (· ≠ 0x0A)).length + 1⟩

/-- A text that ends inside a construct is an error only when the caller asks for it. -/
def Result.strict (opts : Options) : Result → Result
  | .truncated => if opts.strictEof then .malformed else .truncated
  | result => result

/-- The document of a parse that succeeded, with line numbers when the caller asks for them. -/
def annotated (opts : Options) (doc : Document) : Option Document :=
  if opts.lines ∧ doc.rootNode.isSome then rxmlAnnotateLines doc else some doc

/-- The document of a text, or where the text is malformed, if the parse returns. -/
def rxmlParseOwned (opts : Options) (buf : List UInt8) : Option (Except ParseError Document) := do
  let (ps, result) ← rxmlParseDocument false (buf.length + 1) { doc := { buf := buf } }
  match result.strict opts with
  | .malformed => return .error (rxmlErrorPosition ps.doc.buf ps.p)
  | _ => return .ok (← annotated opts ps.doc)

/-- Whether a parse is still going on, or how it ended. -/
inductive State where
  | parsing | done | failed
deriving DecidableEq

/-- A parse between two of its steps. -/
structure Parse where
  ps : Parser
  suspended : Bool := false
  opts : Options
  state : State := .parsing
deriving DecidableEq

/-- A parse of a text, before its first step. -/
def rxmlParseBeginOwned (opts : Options) (buf : List UInt8) : Parse :=
  { ps := { doc := { buf := buf } }, opts := opts }

/-- Where a step stops: past the end when the budget is none or reaches the end. -/
def Parse.stop (parse : Parse) (maxBytes : Nat) : Nat :=
  let size := parse.ps.doc.buf.length
  if maxBytes = 0 ∨ size - parse.ps.p ≤ maxBytes then size + 1 else parse.ps.p + maxBytes

/-- One step of a parse, if it returns; the state it leaves is what it returns. -/
def rxmlParseStep (parse : Parse) (maxBytes : Nat) : Option Parse :=
  if parse.state ≠ .parsing then some parse
  else do
    let (ps, result) ← rxmlParseDocument parse.suspended (parse.stop maxBytes) parse.ps
    match result.strict parse.opts with
    | .paused => return { parse with ps := ps, suspended := true }
    | .malformed => return { parse with ps := ps, suspended := false, state := .failed }
    | _ =>
      let doc ← annotated parse.opts ps.doc
      return { parse with ps := { ps with doc := doc }, suspended := false, state := .done }

/-- The document of a parse that succeeded. -/
def rxmlParseEnd (parse : Parse) : Option Document := if parse.state = .done then some parse.ps.doc else none

open List Except

theorem length_tail_lt {text : List UInt8} (present : peek text ≠ 0) : text.tail.length < text.length := by
  cases text with
  | nil => exact absurd rfl present
  | cons c rest => exact Nat.lt_succ_self _

theorem matchFrom_length {entry literal text rest : List UInt8}
    (read : matchFrom entry literal text = .ok rest) : rest.length ≤ text.length := by
  induction literal generalizing text with
  | nil =>
    obtain rfl : text = rest := ok.inj read
    exact Nat.le_refl _
  | cons l literal ih =>
    rw [matchFrom] at read
    split_ifs at read
    exact Nat.le_trans (ih read) (by simp)

theorem commentBody_length {entry text rest : List UInt8}
    (read : commentBody entry text = .ok rest) : rest.length ≤ text.length := by
  induction text with
  | nil => cases read
  | cons c text ih =>
    rw [commentBody] at read
    split_ifs at read
    · obtain rfl := ok.inj read
      simp only [length_tail, length_cons]
      omega
    · exact Nat.le_trans (ih read) (Nat.le_succ _)

theorem scanComment_length {text rest : List UInt8} (read : scanComment text = .ok rest) :
    rest.length ≤ text.length := by
  rw [scanComment] at read
  split_ifs at read
  exact Nat.le_trans (commentBody_length read) (by simp)

theorem piBody_length {text rest : List UInt8} (read : piBody text = .ok rest) :
    rest.length ≤ text.length := by
  fun_induction piBody text with
  | case1 => cases read
  | case2 => cases read
  | case3 => cases read
  | case4 =>
    obtain rfl := ok.inj read
    simp only [length_cons]
    omega
  | case5 => cases read
  | case6 _ _ _ _ _ ih =>
    have shorter := ih read
    simp only [length_cons]
    omega
  | case7 _ _ _ _ ih =>
    have shorter := ih read
    simp only [length_cons]
    omega

theorem scanPi_length {namesLen : Nat} {text rest : List UInt8}
    (read : scanPi namesLen text = .ok rest) : rest.length ≤ text.length := by
  simp only [scanPi] at read
  split_ifs at read
  · obtain rfl := ok.inj read
    simp only [length_tail, length_drop]
    omega
  · have shorter := piBody_length read
    simp only [length_drop] at shorter
    omega

theorem afterByte_length {c : UInt8} {text rest : List UInt8} (found : afterByte c text = some rest) :
    rest.length ≤ text.length := by
  induction text with
  | nil => cases found
  | cons d text ih =>
    rw [afterByte] at found
    split_ifs at found
    · obtain rfl := Option.some.inj found
      exact Nat.le_succ _
    · exact Nat.le_trans (ih found) (Nat.le_succ _)

theorem chatter_length {n : Nat} {text rest : List UInt8} (read : chatter n text = .ok rest) :
    rest.length ≤ text.length := by
  induction n generalizing text with
  | zero => cases read
  | succ n ih =>
    rw [chatter] at read
    split_ifs at read
    · obtain rfl := ok.inj read
      simp
    · split at read
      · cases read
      · rename_i found
        have shorter := afterByte_length found
        have last := ih read
        simp only [length_tail] at shorter
        omega
    · exact Nat.le_trans (ih read) (by simp)

theorem Scan.bind_eq_ok {α β : Type} {scan : Scan α} {next : α → Scan β} {read : β} :
    (scan >>= next) = .ok read ↔ ∃ first, scan = .ok first ∧ next first = .ok read := by
  cases scan with
  | error halt => exact ⟨nofun, fun ⟨_, e, _⟩ => nomatch e⟩
  | ok first => exact ⟨fun e => ⟨first, rfl, e⟩, fun ⟨_, e, e'⟩ => by cases e; exact e'⟩

theorem doctypeBody_length {namesLen n : Nat} {cursor text rest : List UInt8}
    (read : doctypeBody namesLen n cursor text = .ok rest) : rest.length ≤ text.length := by
  induction n generalizing text cursor with
  | zero => cases read
  | succ n ih =>
    simp only [doctypeBody] at read
    split_ifs at read
    · obtain rfl := ok.inj read
      simp
    · split at read
      · cases read
      · rename_i found
        have shorter := afterByte_length found
        have last := ih read
        simp only [length_tail] at shorter
        omega
    -- An instruction, a comment and a markup declaration each leave less to go on with.
    · obtain ⟨_, first, last⟩ := Scan.bind_eq_ok.1 read
      have shorter := scanPi_length first
      have last := ih last
      simp only [length_tail] at shorter
      omega
    · obtain ⟨_, first, last⟩ := Scan.bind_eq_ok.1 read
      have shorter := scanComment_length first
      have last := ih last
      simp only [length_tail] at shorter
      omega
    · obtain ⟨_, first, last⟩ := Scan.bind_eq_ok.1 read
      have shorter := chatter_length first
      have last := ih last
      simp only [length_tail] at shorter
      omega
    · exact Nat.le_trans (ih read) (by simp)

theorem dropWhile_length (skipped : UInt8 → Bool) (text : List UInt8) :
    (text.dropWhile skipped).length ≤ text.length :=
  (dropWhile_suffix skipped).length_le

theorem xmldeclEq_length {literal text : List UInt8} {opened : UInt8 × List UInt8}
    (read : xmldeclEq literal text = .ok opened) : opened.2.length ≤ text.length := by
  obtain ⟨first, matched, read⟩ := Scan.bind_eq_ok.1 read
  obtain ⟨_, _, read⟩ := Scan.bind_eq_ok.1 read
  obtain ⟨_, _, read⟩ := Scan.bind_eq_ok.1 read
  obtain rfl := ok.inj read
  have shorter := matchFrom_length matched
  have skipped := dropWhile_length isSp first
  have again := dropWhile_length isSp (skipSp first).tail
  simp only [length_tail, skipSp] at again skipped ⊢
  omega

theorem xmldeclClose_length {quote : UInt8} {text rest : List UInt8}
    (read : xmldeclClose quote text = .ok rest) : rest.length ≤ text.length := by
  obtain ⟨_, _, read⟩ := Scan.bind_eq_ok.1 read
  obtain ⟨_, _, read⟩ := Scan.bind_eq_ok.1 read
  obtain rfl := ok.inj read
  have skipped := dropWhile_length isSp text.tail
  simp only [length_tail, skipSp] at skipped ⊢
  omega

theorem xmldeclVersion_length {text rest : List UInt8} (read : xmldeclVersion text = .ok rest) :
    rest.length ≤ text.length := by
  obtain ⟨_, _, read⟩ := Scan.bind_eq_ok.1 read
  obtain ⟨opened, opens, read⟩ := Scan.bind_eq_ok.1 read
  obtain ⟨number, matched, read⟩ := Scan.bind_eq_ok.1 read
  obtain ⟨_, _, read⟩ := Scan.bind_eq_ok.1 read
  have skipped := dropWhile_length isSp text
  have first := xmldeclEq_length opens
  have second := matchFrom_length matched
  have digits := dropWhile_length isDigit number
  have last := xmldeclClose_length read
  simp only [length_tail, skipSp] at first
  omega

theorem xmldeclEncoding_length {text rest : List UInt8} (read : xmldeclEncoding text = .ok rest) :
    rest.length ≤ text.length := by
  rw [xmldeclEncoding] at read
  split_ifs at read
  · obtain rfl := ok.inj read
    exact Nat.le_refl _
  · obtain ⟨opened, opens, read⟩ := Scan.bind_eq_ok.1 read
    obtain ⟨_, _, read⟩ := Scan.bind_eq_ok.1 read
    have first := xmldeclEq_length opens
    have name := dropWhile_length isEncoding opened.2.tail
    have last := xmldeclClose_length read
    simp only [length_tail] at first name
    omega

theorem xmldeclStandalone_length {text rest : List UInt8}
    (read : xmldeclStandalone text = .ok rest) : rest.length ≤ text.length := by
  rw [xmldeclStandalone] at read
  split_ifs at read
  · obtain rfl := ok.inj read
    exact Nat.le_refl _
  · obtain ⟨opened, opens, read⟩ := Scan.bind_eq_ok.1 read
    obtain ⟨answer, answered, read⟩ := Scan.bind_eq_ok.1 read
    obtain ⟨_, _, read⟩ := Scan.bind_eq_ok.1 read
    obtain rfl := ok.inj read
    have first := xmldeclEq_length opens
    have second : answer.length ≤ opened.2.length := by
      rw [xmldeclAnswer] at answered
      split_ifs at answered
      all_goals
        have matched := matchFrom_length answered
        simp only [length_tail] at matched
        omega
    have last := dropWhile_length isSp answer.tail
    simp only [length_tail, skipSp] at first last ⊢
    omega

theorem scanXmldecl_length {text rest : List UInt8} (read : scanXmldecl text = .ok rest) :
    rest.length ≤ text.length := by
  obtain ⟨_, version, read⟩ := Scan.bind_eq_ok.1 read
  obtain ⟨_, encoding, read⟩ := Scan.bind_eq_ok.1 read
  obtain ⟨_, standalone, read⟩ := Scan.bind_eq_ok.1 read
  obtain ⟨_, _, read⟩ := Scan.bind_eq_ok.1 read
  obtain ⟨_, _, read⟩ := Scan.bind_eq_ok.1 read
  obtain rfl := ok.inj read
  have first := xmldeclVersion_length version
  have second := xmldeclEncoding_length encoding
  have third := xmldeclStandalone_length standalone
  simp only [length_tail]
  omega

theorem miscMarked_length {namesLen : Nat} {mode : Mode} {text rest : List UInt8}
    (read : miscMarked namesLen mode text = .ok rest) : rest.length ≤ text.length := by
  rw [miscMarked] at read
  split_ifs at read
  · exact Nat.le_trans (scanComment_length read) (by simp)
  · obtain ⟨_, matched, read⟩ := Scan.bind_eq_ok.1 read
    have first := matchFrom_length matched
    have last := doctypeBody_length read
    simp only [length_tail] at first
    omega

theorem miscQuestion_length {namesLen : Nat} {mode : Mode} {text rest : List UInt8}
    (read : miscQuestion namesLen mode text = .ok rest) : rest.length ≤ text.length := by
  rw [miscQuestion] at read
  split at read
  · refine Nat.le_trans (scanXmldecl_length read) ?_
    split <;> simp
  · exact scanPi_length read

/-- The text that an item leaves. -/
def Item.rest : Item → List UInt8
  | .next rest | .root rest | .finish rest => rest

theorem miscItem_length {namesLen : Nat} {mode : Mode} {text : List UInt8} {item : Item}
    (read : miscItem namesLen mode text = .ok item) :
    item.rest.length ≤ text.length ∧ (item ≠ .finish item.rest → item.rest.length < text.length) := by
  have skipped := dropWhile_length isSp text
  simp only [miscItem] at read
  split_ifs at read with other ended marked question root
  · obtain rfl := ok.inj read
    exact ⟨skipped, fun other => absurd rfl other⟩
  -- What opens the item is one byte at least.
  all_goals
    have opened : (skipSp text).tail.length < (skipSp text).length :=
      length_tail_lt (by rw [not_not.1 other]; decide)
    simp only [skipSp] at opened
  · cases scanned : miscMarked namesLen mode (skipSp text).tail.tail with
    | error halt => rw [scanned] at read; cases read
    | ok rest =>
      rw [scanned] at read
      obtain rfl := ok.inj read
      have shorter := miscMarked_length scanned
      simp only [Item.rest, skipSp, length_tail] at shorter opened ⊢
      omega
  · cases scanned : miscQuestion namesLen mode (skipSp text).tail.tail with
    | error halt => rw [scanned] at read; cases read
    | ok rest =>
      rw [scanned] at read
      obtain rfl := ok.inj read
      have shorter := miscQuestion_length scanned
      simp only [Item.rest, skipSp, length_tail] at shorter opened ⊢
      omega
  · obtain rfl := ok.inj read
    simp only [Item.rest, skipSp] at opened ⊢
    omega

/-- The items around the root leave less than there was, unless they run to the end. -/
theorem scanMisc_length {namesLen n : Nat} {mode : Mode} {text : List UInt8} {item : Item}
    (read : scanMisc namesLen n mode text = .ok item) :
    item.rest.length ≤ text.length ∧ (item ≠ .finish item.rest → item.rest.length < text.length) := by
  induction n generalizing mode text with
  | zero =>
    rw [scanMisc] at read
    split_ifs at read
    obtain rfl := ok.inj read
    exact ⟨Nat.le_refl _, fun other => absurd rfl other⟩
  | succ n ih =>
    rw [scanMisc] at read
    split at read
    · rename_i rest found
      have first := (miscItem_length found).2 (by simp)
      have last := ih read
      simp only [Item.rest] at first
      exact ⟨by omega, fun other => Nat.lt_trans (last.2 other) first⟩
    · exact miscItem_length read

theorem scanRef_length {text : List UInt8} {read : List UInt8 × List UInt8}
    (present : peek text ≠ 0) (scanned : scanRef text = .ok read) :
    read.2.length < text.length := by
  have opened := length_tail_lt present
  rw [scanRef] at scanned
  split at scanned
  · cases scanned
  · cases scanned
  · split at scanned
    · cases scanned
    · obtain rfl := ok.inj scanned
      simp only [length_drop, length_tail] at opened ⊢
      omega

end Libretro.Rxml
