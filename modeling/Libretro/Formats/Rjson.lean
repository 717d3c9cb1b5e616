import Libretro.Library.Unicode
import Mathlib.Data.List.Basic
import Mathlib.Data.List.TakeWhile

/-! The streaming JSON parser: its buffer, its scanners and its loop, and which strings are valid UTF-8. -/

namespace Libretro.Rjson

/-- The elements a call reports, which are also what a stack entry can be. -/
inductive RjsonType where
  | done | object | array | objectEnd | arrayEnd | string | number | true | false | null | error
deriving DecidableEq

/-- What the first byte of a token announces. -/
inductive Token where
  | whitespace | newline | optionalSkip | object | array | string | number | true | false | null
  | objectEnd | arrayEnd | colon | comma | error | eof
deriving DecidableEq

/-- The extensions a caller may ask for. -/
structure Options where
  allowUtf8Bom : Bool := false
  allowComments : Bool := false
  allowUnescapedControlCharacters : Bool := false
  ignoreInvalidEncoding : Bool := false
  replaceInvalidEncoding : Bool := false
  ignoreStringCarriageReturn : Bool := false
  allowTrailingData : Bool := false
deriving DecidableEq

/-- One level of nesting: what is open there and how many elements it has so far. -/
structure Frame where
  type : RjsonType
  count : Nat
deriving DecidableEq

/-- What is in the buffer, and what the callback will put there call by call. -/
structure Input where
  unread : List UInt8
  future : List (List UInt8)
  fails : Bool := false
  ended : Bool := false
  -- Positions are counted from the start of the stream, not from the start of the buffer.
  position : Nat := 0
  inputP : Nat := 0
  sourceColumnP : Nat := 0
  sourceLine : Nat := 1
deriving DecidableEq

/-- The parser's state. -/
structure Json where
  input : Input
  top : Frame
  below : List Frame
  stackCap : Nat
  stackMax : Nat
  string : List UInt8
  stringPassThrough : Option (List UInt8)
  stringCap : Nat
  options : Options
  errorText : String
deriving DecidableEq

/-- The largest string buffer. -/
def maxSize : Nat := 256 * 1024 * 1024

/-- The digits of a value, padded with zeros to a width. -/
def hexText (width value : Nat) : String :=
  let digits := Nat.toDigits 16 value
  String.ofList (List.replicate (width - digits.length) '0' ++ digits)

/-- How a message names a byte, or the end of the stream. -/
def charText : Option UInt8 → String
  | none => "end of stream"
  | some chr =>
    if 0x20 ≤ chr ∧ chr ≤ 0x7E then "'" ++ (Char.ofNat chr.toNat).toString ++ "'"
    else "byte 0x" ++ (hexText 2 chr.toNat).toUpper

/-- Only the first error is recorded. -/
def Json.error (json : Json) (text : String) : Json :=
  if json.top.type = .error then json
  else { json with top := { json.top with type := .error }, errorText := text }

/-- The buffer is filled again, or found to be at its end for good. -/
def ioInput (json : Json) : Json :=
  if json.input.ended then json
  else
    let input := { json.input with inputP := json.input.position }
    match json.input.future with
    | [] =>
      let ended := { json with input := { input with unread := [], ended := true } }
      if json.input.fails then ended.error "input stream read error" else ended
    | block :: later =>
      { json with input := { input with unread := block, future := later, ended := block = [] } }

/-- The buffer is filled again when everything in it has been read. -/
def Json.filled (json : Json) : Json := if json.input.unread = [] then ioInput json else json

/-- The first byte of the buffer has been read. -/
def Json.advance (json : Json) (rest : List UInt8) : Json :=
  { json with input := { json.input with unread := rest, position := json.input.position + 1 } }

/-- The next byte of the stream, if there is one. -/
def charGet (json : Json) : Option UInt8 × Json :=
  let json := json.filled
  match json.input.unread with
  | [] => (none, json)
  | byte :: rest => (some byte, json.advance rest)

/-- A bound on the bytes still to be read. -/
def Input.size (input : Input) : Nat := input.unread.length + input.future.flatten.length

/-- The buffer doubles until it is as large as it may become. -/
def growString (json : Json) : Except Json Json :=
  if json.stringCap > maxSize / 2 then
    if json.stringCap ≥ maxSize then .error (json.error "string token too large")
    else .ok { json with stringCap := maxSize }
  else .ok { json with stringCap := json.stringCap * 2 }

/-- One byte is appended; there is always room for one more. -/
def pushChar (json : Json) (c : UInt8) : Except Json Json :=
  let json := { json with string := json.string ++ [c] }
  if json.string.length ≠ json.stringCap then .ok json else growString json

/-- The buffer grows until a string of the given length and one more byte fit. -/
def growFor (newLen : Nat) : Nat → Json → Except Json Json
  | 0, json => .ok json
  | fuel + 1, json =>
    if newLen ≥ json.stringCap then (growString json).bind (growFor newLen fuel) else .ok json

/-- A run of bytes is appended. -/
def pushChars (json : Json) (chars : List UInt8) : Except Json Json :=
  -- Twenty doublings take the smallest buffer past the largest.
  (growFor (json.string.length + chars.length) 20 json).bind fun json =>
    .ok { json with string := json.string ++ chars }

/-- The string or number just read. -/
def getString (json : Json) : List UInt8 := json.stringPassThrough.getD json.string

/-- The value of a hexadecimal digit. -/
def hexDigit (c : UInt8) : Option Nat :=
  if 0x30 ≤ c ∧ c ≤ 0x39 then some (c.toNat - 0x30)
  else if 0x61 ≤ c ∧ c ≤ 0x66 then some (c.toNat - (0x61 - 10))
  else if 0x41 ≤ c ∧ c ≤ 0x46 then some (c.toNat - (0x41 - 10))
  else none

/-- The remaining hexadecimal digits of an escape, the highest first. -/
def getUnicodeCpLoop : Nat → Nat → Json → Except Json (Nat × Json)
  | 0, cp, json => .ok (cp, json)
  | left + 1, cp, json =>
    match charGet json with
    | (none, json) => .error (json.error "unterminated string literal in Unicode")
    | (some c, json) =>
      match hexDigit c with
      | some digit => getUnicodeCpLoop left (cp ||| digit <<< (4 * left)) json
      | none => .error (json.error ("invalid Unicode escape hexadecimal " ++ charText (some c)))

/-- The four digits of an escape. -/
def getUnicodeCp (json : Json) : Except Json (Nat × Json) := getUnicodeCpLoop 4 0 json

/-- A surrogate that does not belong is ignored, replaced or an error. -/
def replaceOrIgnore (json : Json) (text : String) : Except Json Json :=
  if json.options.ignoreInvalidEncoding ∨ json.options.replaceInvalidEncoding then
    if json.options.ignoreInvalidEncoding then .ok json else pushChar json 0x3F
  else .error (json.error text)

/-- The bytes of a code point that is not out of range. -/
def utf8Bytes (cp : Nat) : List UInt8 :=
  if cp < 0x80 then [.ofNat cp]
  else if cp < 0x800 then [.ofNat ((cp >>> 6 &&& 0x1F) ||| 0xC0), .ofNat ((cp &&& 0x3F) ||| 0x80)]
  else if cp < 0x10000 then
    [.ofNat ((cp >>> 12 &&& 0x0F) ||| 0xE0), .ofNat ((cp >>> 6 &&& 0x3F) ||| 0x80),
      .ofNat ((cp &&& 0x3F) ||| 0x80)]
  else
    [.ofNat ((cp >>> 18 &&& 0x07) ||| 0xF0), .ofNat ((cp >>> 12 &&& 0x3F) ||| 0x80),
      .ofNat ((cp >>> 6 &&& 0x3F) ||| 0x80), .ofNat ((cp &&& 0x3F) ||| 0x80)]

/-- A code point is appended in UTF-8, byte by byte. -/
def pushCodepoint (json : Json) (cp : Nat) : Except Json Json :=
  if 0xD800 ≤ cp ∧ cp ≤ 0xDFFF then
    replaceOrIgnore json ("invalid codepoint " ++ hexText 4 cp)
  else if cp < 0x110000 then (utf8Bytes cp).foldlM pushChar json
  else replaceOrIgnore json ("unable to encode " ++ hexText 4 cp ++ " as UTF-8")

/-- One expected character between the two halves of a surrogate pair. -/
def expectContinuation (json : Json) (expected : UInt8) (name : String) : Except Json Json :=
  match charGet json with
  | (none, json) => .error (json.error "unterminated string literal in Unicode")
  | (some c, json) =>
    if c ≠ expected then
      .error (json.error ("invalid continuation " ++ charText (some c) ++
        " for surrogate pair, expected " ++ name))
    else .ok json

/-- The second half of a surrogate pair, after its first half. -/
def readSurrogate (json : Json) (high : Nat) : Except Json Json :=
  (expectContinuation json 0x5C "'\\'").bind fun json =>
  (expectContinuation json 0x75 "'u'").bind fun json =>
  (getUnicodeCp json).bind fun (low, json) =>
    if low < 0xDC00 ∨ 0xDFFF < low then
      replaceOrIgnore json ("surrogate pair continuation \\u" ++ hexText 4 low ++ " out of range (dc00-dfff)")
    else pushCodepoint json ((high - 0xD800) * 0x400 + ((low - 0xDC00) + 0x10000))

/-- A Unicode escape, after its first two characters. -/
def readUnicode (json : Json) : Except Json Json :=
  (getUnicodeCp json).bind fun (cp, json) =>
    if 0xD800 ≤ cp ∧ cp ≤ 0xDBFF then readSurrogate json cp
    else if 0xDC00 ≤ cp ∧ cp ≤ 0xDFFF then
      replaceOrIgnore json ("dangling surrogate \\u" ++ hexText 4 cp)
    else pushCodepoint json cp

/-- The byte a short escape stands for, itself for a slash, a quote and a backslash. -/
def shortEscape (esc : UInt8) : Option UInt8 :=
  if esc = 0x62 then some 0x08
  else if esc = 0x66 then some 0x0C
  else if esc = 0x6E then some 0x0A
  else if esc = 0x72 then some 0x0D
  else if esc = 0x74 then some 0x09
  else if esc = 0x2F ∨ esc = 0x22 ∨ esc = 0x5C then some esc
  else none

/-- An escape, after its backslash. -/
def readEscape (json : Json) : Except Json Json :=
  match charGet json with
  | (none, json) => .error (json.error "unterminated string literal in escape")
  | (some esc, json) =>
    if esc = 0x75 then readUnicode json
    else if esc = 0x72 ∧ json.options.ignoreStringCarriageReturn then .ok json
    else
      match shortEscape esc with
      | some c => pushChar json c
      | none => .error (json.error ("invalid escaped " ++ charText (some esc)))

/-- How many bytes follow a first byte that is not ASCII. -/
def followers (first : UInt8) : Option Nat :=
  if first ≤ 0xC1 then none
  else if first ≤ 0xDF then some 1
  else if first ≤ 0xEF then some 2
  else if first ≤ 0xF4 then some 3
  else none

/-- Whether a second byte does not fit its first byte. -/
def secondInvalid (first c : UInt8) : Bool :=
  if first = 0xE0 then c < 0xA0 ∨ c > 0xBF
  else if first = 0xED then c < 0x80 ∨ c > 0x9F
  else if first = 0xF0 then c < 0x90 ∨ c > 0xBF
  else if first = 0xF4 then c < 0x80 ∨ c > 0x8F
  else c < 0x80 ∨ c > 0xBF

/-- Whether the bytes after a first byte complete it; the later ones are looked at first. -/
def completes (first : UInt8) : List UInt8 → Bool
  | [] => false
  | second :: later => later.all (fun c => 0x80 ≤ c ∧ c ≤ 0xBF) && !secondInvalid first second

/-- How many bytes of a string its first sequence has after the first, if it is valid. -/
def sequenceTail (first : UInt8) (rest : List UInt8) : Option Nat :=
  match followers first with
  | none => none
  | some count => if count ≤ rest.length ∧ completes first (rest.take count) then some count else none

/-- The string as validation leaves it, with or without replacing what is invalid. -/
@[simp] def validateUtf8Loop (replace : Bool) : Nat → List UInt8 → Option (List UInt8)
  | 0, _ => some []
  | _ + 1, [] => some []
  | fuel + 1, first :: rest =>
    if first ≤ 0x7F then (validateUtf8Loop replace fuel rest).map (first :: ·)
    else
      match sequenceTail first rest with
      | some count => (validateUtf8Loop replace fuel (rest.drop count)).map (first :: rest.take count ++ ·)
      | none =>
        if replace then
          -- The invalid byte and all bytes outside ASCII behind it become question marks.
          let bad := rest.takeWhile fun c => 0x80 ≤ c
          (validateUtf8Loop replace fuel (rest.drop bad.length)).map
            (List.replicate (bad.length + 1) 0x3F ++ ·)
        else none

/-- Validation, which the option to ignore invalid bytes turns off. -/
def validateUtf8 (options : Options) (bytes : List UInt8) : Option (List UInt8) :=
  if options.ignoreInvalidEncoding then some bytes
  else validateUtf8Loop options.replaceInvalidEncoding bytes.length bytes

/-- The closing quote has been read: the run before it is passed through or appended. -/
def closeString (json : Json) (raw : List UInt8) : Except Json Json :=
  if json.string = [] ∧ json.input.unread ≠ [] then
    .ok { json with stringPassThrough := some raw }
  else if raw ≠ [] then pushChars json raw
  else .ok json

/-- A finished string is validated if it has a byte outside ASCII, where it was stored. -/
def finishString (json : Json) (highBit : Bool) : RjsonType × Json :=
  if highBit then
    match validateUtf8 json.options (getString json) with
    | none => (.error, json.error "invalid UTF-8 character in string")
    | some valid =>
      match json.stringPassThrough with
      | some _ => (.string, { json with stringPassThrough := some valid })
      | none => (.string, { json with string := valid })
  else (.string, json)

/-- A run of bytes leaves the input buffer, unless it is empty. -/
def flushRaw (json : Json) (raw : List UInt8) : Except Json Json :=
  if raw ≠ [] then pushChars json raw else .ok json

/-- Before the buffer is filled again, the run read from it is appended to the string. -/
def filledAfter (append : Json → List UInt8 → Except Json Json) (json : Json)
    (raw : List UInt8) : Except Json (Json × List UInt8) :=
  if json.input.unread = [] then (append json raw).map fun json => (ioInput json, [])
  else .ok (json, raw)

/-- The bytes of a string: `raw` is the run not yet appended, `highBit` the mask's top bit. -/
def readStringLoop : Nat → Json → List UInt8 → Bool → RjsonType × Json
  | 0, json, _, _ => (.error, json)
  | fuel + 1, json, raw, highBit =>
    match filledAfter flushRaw json raw with
    | .error json => (.error, json)
    | .ok (json, raw) =>
      match json.input.unread with
      | [] => (.error, json.error "unterminated string literal")
      | c :: rest =>
        if c = 0x22 then
          match closeString (json.advance rest) raw with
          | .error json => (.error, json)
          | .ok json => finishString json highBit
        else if c = 0x5C then
          match (flushRaw json raw).bind fun json => readEscape (json.advance rest) with
          | .error json => (.error, json)
          | .ok json => readStringLoop fuel json [] highBit
        else if 0x20 ≤ c ∨ json.options.allowUnescapedControlCharacters then
          readStringLoop fuel (json.advance rest) (raw ++ [c]) (highBit || 0x80 ≤ c)
        else
          (.error, json.error ("unescaped control character " ++ charText (some c) ++ " in string"))

/-- A string, after its opening quote. -/
def readString (json : Json) : RjsonType × Json :=
  readStringLoop (json.input.size + 1) { json with stringPassThrough := none, string := [] } []
    false

/-- The bytes numbers are made of. -/
def numberChar (c : UInt8) : Bool :=
  c = 0x2B ∨ c = 0x2D ∨ c = 0x2E ∨ (0x30 ≤ c ∧ c ≤ 0x39) ∨ c = 0x45 ∨ c = 0x65

/-- All bytes that could belong to a number are collected. -/
def collectNumber : Nat → Json → List UInt8 → Except Json Json
  | 0, json, _ => .error json
  | fuel + 1, json, run =>
    match filledAfter pushChars json run with
    | .error json => .error json
    | .ok (json, run) =>
      match json.input.unread with
      | [] => .ok json
      | c :: rest =>
        if numberChar c then collectNumber fuel (json.advance rest) (run ++ [c])
        else pushChars json run

/-- Whether a byte is a digit. -/
def isDigit (c : UInt8) : Bool := 0x30 ≤ c ∧ c ≤ 0x39

/-- What is left after the digits, with the byte before it. -/
def skipDigits : UInt8 → List UInt8 → UInt8 × List UInt8
  | before, [] => (before, [])
  | before, c :: rest => if isDigit c then skipDigits c rest else (before, c :: rest)

/-- The byte a message about a number names: where it went wrong, or the last one. -/
def faultAt (before : UInt8) : List UInt8 → UInt8
  | [] => before
  | c :: _ => c

/-- The fault in digits that end a number, of which there must be one. -/
def lastDigitsFault (before : UInt8) : List UInt8 → Option UInt8
  | [] => some before
  | c :: rest =>
    if isDigit c then
      match skipDigits c rest with
      | (_, []) => none
      | (_, wrong :: _) => some wrong
    else some c

/-- The fault in what follows the integer and the fraction. -/
def exponentFault : List UInt8 → Option UInt8
  | [] => none
  | c :: rest =>
    if c ||| 0x20 = 0x65 then
      match rest with
      | [] => some c
      | sign :: digits =>
        if sign = 0x2D ∨ sign = 0x2B then lastDigitsFault sign digits
        else lastDigitsFault c (sign :: digits)
    else some c

/-- The fault in what follows the integer. -/
def fractionFault : List UInt8 → Option UInt8
  | [] => none
  | c :: rest =>
    if c = 0x2E then
      match rest with
      | [] => some c
      | digit :: more => if isDigit digit then exponentFault (skipDigits digit more).2 else some digit
    else exponentFault (c :: rest)

/-- The fault in a number without its sign. -/
def integerFault (before : UInt8) : List UInt8 → Option UInt8
  | [] => some before
  | c :: rest =>
    if c = 0x30 then fractionFault rest
    else if 0x31 ≤ c ∧ c ≤ 0x39 then fractionFault (skipDigits c rest).2
    else some c

/-- The byte at which a collected number is not one, if any. -/
def numberFault : List UInt8 → Option UInt8
  | [] => some 0
  | c :: rest => if c = 0x2D then integerFault c rest else integerFault c (c :: rest)

/-- A number, after its first byte. -/
def readNumber (json : Json) (first : UInt8) : RjsonType × Json :=
  let json := { json with stringPassThrough := none, string := [] }
  match collectNumber (json.input.size + 1) json [first] with
  | .error json => (.error, json)
  | .ok json =>
    match numberFault json.string with
    | none => (.number, json)
    | some c => (.error, json.error ("unexpected " ++ charText (some c) ++ " in number"))

/-- A container is entered; `none` when the entry lies outside the allocated stack. -/
def pushStack (json : Json) (type : RjsonType) : Option (RjsonType × Json) :=
  if json.below.length + 1 = json.stackCap then
    if json.stackCap = json.stackMax then
      some (.error, json.error "maximum depth of nesting reached")
    else
      let newCap := min (json.stackCap + 4) json.stackMax
      if json.stackCap < newCap then
        some (type, { json with stackCap := newCap, below := json.top :: json.below,
                                top := ⟨type, 0⟩ })
      else none
  else some (type, { json with below := json.top :: json.below, top := ⟨type, 0⟩ })

/-- The remaining characters of a literal name. -/
def readName (type : RjsonType) : List UInt8 → Json → RjsonType × Json
  | [], json => (type, json)
  | expected :: pattern, json =>
    match charGet json with
    | (c, json) =>
      if c = some expected then readName type pattern json
      else (.error, json.error ("unexpected " ++ charText c ++ " in value"))

/-- The effect of one byte of a comment or a byte order mark: an answer or a new state. -/
def skipStep (skip : UInt8) (state : Nat) (c : UInt8) : Bool ⊕ Nat :=
  if skip = 0x2F then
    if state = 0 then
      if c = 0x2F then .inr 1 else if c = 0x2A then .inr 2 else .inl false
    else if state = 1 then
      if c = 0x0A then .inl true else .inr 1
    else if state = 2 then
      if c = 0x2A then .inr 3 else .inr 2
    else if c = 0x2F then .inl true
    else if c ≠ 0x2A then .inr 2
    else .inr 3
  else if state = 0 ∧ c = 0xBB then .inr 1
  else if state = 1 ∧ c = 0xBF then .inl true
  else .inl false

/-- A comment or a byte order mark, and the last byte read of it. -/
def skipLoop (skip : UInt8) : Nat → Json → Nat → UInt8 → Bool × UInt8 × Json
  | 0, json, _, last => (false, last, json)
  | fuel + 1, json, state, last =>
    let json := json.filled
    match json.input.unread with
    | [] =>
      (false, last, json.error ("unfinished " ++ (if skip = 0x2F then "comment" else "utf8 byte order mark")))
    | c :: rest =>
      match skipStep skip state c with
      | .inl answer => (answer, c, json.advance rest)
      | .inr state => skipLoop skip fuel (json.advance rest) state c

/-- Whether a comment or a byte order mark was skipped, and the last byte read. -/
def optionalSkip (json : Json) (skip : UInt8) : Bool × UInt8 × Json :=
  if skip = 0x2F ∧ ¬ json.options.allowComments then (false, skip, json)
  else if skip = 0xEF ∧ (¬ json.options.allowUtf8Bom ∨ json.input.sourceLine ≠ 1 ∨
      json.input.sourceColumnP ≠ json.input.inputP) then (false, skip, json)
  else skipLoop skip (json.input.size + 1) json 0 skip

/-- The token a byte begins. -/
def tokenLut (c : UInt8) : Token :=
  if c = 0x09 ∨ c = 0x0D ∨ c = 0x20 then .whitespace
  else if c = 0x0A then .newline
  else if c = 0x22 then .string
  else if c = 0x2C then .comma
  else if c = 0x2D ∨ (0x30 ≤ c ∧ c ≤ 0x39) then .number
  else if c = 0x2F ∨ c = 0xEF then .optionalSkip
  else if c = 0x3A then .colon
  else if c = 0x5B then .array
  else if c = 0x5D then .arrayEnd
  else if c = 0x66 then .false
  else if c = 0x6E then .null
  else if c = 0x74 then .true
  else if c = 0x7B then .object
  else if c = 0x7D then .objectEnd
  else .error

/-- What the loop does with a token. -/
inductive Decision where
  /-- The separator is remembered and the loop goes on. -/
  | pass
  | value
  | close (type : RjsonType)
  | done
  /-- The parser stops before the token. -/
  | doneBefore
  | fail (text : String)
  /-- The message names the token between its two parts. -/
  | failToken (before after : String)
deriving DecidableEq

/-- The decision on a token, by the innermost container and the separator passed so far. -/
def decision (stack : Frame) (passedToken : Bool) (tok : Token) (trailing : Bool) : Decision :=
  if stack.type = .object then
    if stack.count % 2 = 1 then
      if passedToken then .value
      else if tok = .colon then .pass
      else .failToken "expected ':' not " " after member name"
    else if passedToken then
      if tok = .string then .value else .fail "expected member name after ','"
    else if tok = .objectEnd then .close .objectEnd
    else if stack.count = 0 then
      if tok = .string then .value else .fail "expected member name or '\x7d'"
    else if tok = .comma then .pass
    else .failToken "expected ',' or '\x7d' not " " after member value"
  else if stack.type = .array then
    if passedToken then .value
    else if tok = .arrayEnd then .close .arrayEnd
    else if stack.count = 0 then .value
    else if tok = .comma then .pass
    else .failToken "expected ',' or ']' not " " in array"
  else if stack.count = 0 ∧ tok ≠ .eof then .value
  else if stack.count = 0 then .fail "reached end without any data"
  else if tok = .eof then .done
  else if trailing then .doneBefore
  else .failToken "expected end of stream instead of " ""

/-- The byte a message about a token names. -/
def tokenChar (tok : Token) (last : UInt8) : Option UInt8 := if tok = .eof then none else some last

/-- The value that a token begins is read, its first byte having been read already. -/
def readValue (json : Json) (tok : Token) (last : UInt8) : Option (RjsonType × Json) :=
  let json := { json with top := { json.top with count := json.top.count + 1 } }
  match tok with
  | .string => some (readString json)
  | .number => some (readNumber json last)
  | .object => pushStack json .object
  | .array => pushStack json .array
  | .true => some (readName .true [0x72, 0x75, 0x65] json)
  | .false => some (readName .false [0x61, 0x6C, 0x73, 0x65] json)
  | .null => some (readName .null [0x75, 0x6C, 0x6C] json)
  | _ => some (.error, json.error ("unexpected " ++ charText (tokenChar tok last) ++ " in value"))

/-- The entry above the one that was closed is popped. -/
def popStack (json : Json) : Json :=
  match json.below with
  | [] => json
  | outer :: below => { json with top := outer, below }

/-- The decision on a token is carried out, unless it is to go on. -/
def act (json : Json) (tok : Token) (last : UInt8) : Decision → Option (RjsonType × Json)
  | .pass => none
  | .value => readValue json tok last
  | .close type => some (type, popStack json)
  | .done => some (.done, json)
  | .doneBefore =>
    some (.done, { json with input := { json.input with
      unread := last :: json.input.unread, position := json.input.position - 1 } })
  | .fail text => some (.error, json.error text)
  | .failToken before after => some (.error, json.error (before ++ charText (tokenChar tok last) ++ after))

/-- What the loop has found: something to skip, or a token and its last byte. -/
inductive Found where
  | skipped (json : Json)
  | token (json : Json) (tok : Token) (last : UInt8)

/-- One byte is read, and with it a comment or a mark that it begins. -/
def findToken (json : Json) : Found :=
  match charGet json with
  | (none, json) => .token json .eof 0
  | (some c, json) =>
    match tokenLut c with
    | .whitespace => .skipped json
    | .newline =>
      .skipped { json with input := { json.input with
        sourceLine := json.input.sourceLine + 1, sourceColumnP := json.input.position } }
    | .optionalSkip =>
      match optionalSkip json c with
      | (true, _, json) => .skipped json
      | (false, last, json) => .token json .optionalSkip last
    | tok => .token json tok c

/-- Tokens are read until one decides the call. -/
def nextLoop : Nat → Json → Bool → Option (RjsonType × Json)
  | 0, _, _ => none
  | fuel + 1, json, passedToken =>
    match findToken json with
    | .skipped json => nextLoop fuel json passedToken
    | .token json tok last =>
      match decision json.top passedToken tok json.options.allowTrailingData with
      | .pass => nextLoop fuel json true
      | decided => act json tok last decided

/-- The next element; `none` when the parser writes outside its stack. -/
def rjsonNext (json : Json) : Option (RjsonType × Json) :=
  if json.top.type = .error then some (.error, json)
  else
    nextLoop (json.input.size + 2)
      { json with input := { json.input with inputP := json.input.position } } false

/-- A parser over what a callback will deliver. -/
def rjsonSetup (options : Options) (maxDepth : Nat) (future : List (List UInt8)) : Json :=
  { input := { unread := [], future }
    top := ⟨.done, 0⟩
    below := []
    stackCap := 10
    stackMax := maxDepth
    string := []
    stringPassThrough := none
    stringCap := 512
    options
    errorText := "" }

open List Nat Utf8 UInt8

variable {bytes rest : List UInt8} {first : UInt8}

theorem sequenceTail_le {count : Nat} (tail : sequenceTail first rest = some count) :
    count ≤ rest.length ∧ completes first (rest.take count) = true ∧ followers first = some count := by
  unfold sequenceTail at tail
  split at tail
  · exact absurd tail (by simp)
  · rename_i length follows
    split at tail
    · rename_i fits
      rw [← Option.some.inj tail]
      exact ⟨fits.1, fits.2, follows⟩
    · exact absurd tail (by simp)

theorem validateUtf8Loop_fuel (replace : Bool) {fuel : Nat} (enough : bytes.length ≤ fuel) :
    validateUtf8Loop replace fuel bytes = validateUtf8Loop replace bytes.length bytes := by
  -- Each round leaves fewer bytes, for which the fuel that is left is enough again.
  induction length : bytes.length using Nat.strongRecOn generalizing bytes fuel with
  | _ n ih =>
    subst length
    cases bytes with
    | nil => cases fuel <;> rfl
    | cons first rest =>
      cases fuel with
      | zero => exact absurd enough (not_succ_le_zero _)
      | succ fuel =>
        have enoughRest : rest.length ≤ fuel := le_of_succ_le_succ enough
        have same : ∀ count, validateUtf8Loop replace fuel (rest.drop count) =
            validateUtf8Loop replace rest.length (rest.drop count) := by
          intro count
          have shorter : (rest.drop count).length ≤ rest.length := by
            rw [length_drop]
            exact sub_le _ _
          have small := lt_succ_of_le shorter
          rw [ih _ small (le_trans shorter enoughRest) rfl, ih _ small shorter rfl]
        have whole := ih _ (lt_succ_self _) enoughRest rfl
        simp only [length_cons, validateUtf8Loop]
        rw [whole, same]
        split
        · rfl
        · split
          · rw [same]
          · rfl

/-- The whole validation of a string. -/
def validated (replace : Bool) (bytes : List UInt8) : Option (List UInt8) :=
  validateUtf8Loop replace bytes.length bytes

theorem validated_ascii (replace : Bool) (ascii : first ≤ 0x7F) :
    validated replace (first :: rest) = (validated replace rest).map (first :: ·) := by
  simp only [validated, length_cons, validateUtf8Loop]
  rw [if_pos ascii]

theorem validated_sequence (replace : Bool) (notAscii : ¬ first ≤ 0x7F) {count : Nat}
    (tail : sequenceTail first rest = some count) :
    validated replace (first :: rest) =
      (validated replace (rest.drop count)).map (first :: rest.take count ++ ·) := by
  simp only [validated, length_cons, validateUtf8Loop]
  rw [if_neg notAscii, tail]
  dsimp only
  rw [validateUtf8Loop_fuel replace (by rw [length_drop]; exact sub_le _ _)]

theorem validated_invalid (notAscii : ¬ first ≤ 0x7F) (tail : sequenceTail first rest = none) :
    validated false (first :: rest) = none := by
  simp only [validated, length_cons, validateUtf8Loop]
  rw [if_neg notAscii, tail]
  rfl

/-- The second bytes that fit a first byte: a tail, neither overlong nor out of range. -/
structure Fits (first second : UInt8) : Prop where
  tail : Utf8.IsTail second
  notOverlong : first.toNat = 0xE0 → 0xA0 ≤ second.toNat
  notSurrogate : first.toNat = 0xED → second.toNat ≤ 0x9F
  notOverlongFour : first.toNat = 0xF0 → 0x90 ≤ second.toNat
  inRange : first.toNat = 0xF4 → second.toNat ≤ 0x8F

theorem secondInvalid_iff {second : UInt8} : secondInvalid first second = false ↔ Fits first second := by
  have values : ∀ value : UInt8, first = value ↔ first.toNat = value.toNat :=
    fun value => UInt8.toNat_inj.symm
  constructor
  · intro valid
    simp only [secondInvalid, values, lt_iff_toNat_lt, gt_iff_lt] at valid
    clear values
    have ranges : (0x80 ≤ second.toNat ∧ second.toNat ≤ 0xBF) ∧
        (first.toNat = 0xE0 → 0xA0 ≤ second.toNat) ∧ (first.toNat = 0xED → second.toNat ≤ 0x9F) ∧
        (first.toNat = 0xF0 → 0x90 ≤ second.toNat) ∧
        (first.toNat = 0xF4 → second.toNat ≤ 0x8F) := by
      split_ifs at valid
      all_goals
        simp at *
        omega
    exact ⟨ranges.1, ranges.2.1, ranges.2.2.1, ranges.2.2.2.1, ranges.2.2.2.2⟩
  · intro fits
    obtain ⟨⟨low, high⟩, notOverlong, notSurrogate, notOverlongFour, inRange⟩ := fits
    simp only [secondInvalid, values, lt_iff_toNat_lt, gt_iff_lt]
    clear values
    split_ifs
    all_goals
      simp at *
      omega

theorem tail_iff {c : UInt8} : (decide (0x80 ≤ c ∧ c ≤ 0xBF) = true) ↔ Utf8.IsTail c := by
  rw [decide_eq_true_iff, le_iff_toNat_le, le_iff_toNat_le]
  rfl

theorem followers_iff {count : Nat} : followers first = some count ↔
    (count = 1 ∧ 0xC2 ≤ first.toNat ∧ first.toNat ≤ 0xDF) ∨
    (count = 2 ∧ 0xE0 ≤ first.toNat ∧ first.toNat ≤ 0xEF) ∨
    (count = 3 ∧ 0xF0 ≤ first.toNat ∧ first.toNat ≤ 0xF4) := by
  simp only [followers, le_iff_toNat_le]
  split_ifs
  all_goals
    simp at *
    omega

/-- A complete sequence is the encoding of a scalar value outside ASCII. -/
theorem sequence_sound {count : Nat} (tail : sequenceTail first rest = some count) :
    ∃ code, Utf8.IsScalar code ∧ 0x80 ≤ code ∧ encode code = first :: rest.take count := by
  obtain ⟨within, complete, follows⟩ := sequenceTail_le tail
  have length : (rest.take count).length = count := length_take_of_le within
  cases followers_iff.mp follows with
  | inl two =>
    obtain ⟨rfl, low, high⟩ := two
    obtain ⟨second, taken⟩ := length_eq_one_iff.mp length
    rw [taken] at complete ⊢
    simp only [completes, Bool.and_eq_true, Bool.not_eq_true', secondInvalid_iff] at complete
    exact encode_two low high complete.2.tail
  | inr longer =>
    cases longer with
    | inl three =>
      obtain ⟨rfl, low, high⟩ := three
      obtain ⟨second, third, taken⟩ := length_eq_two.mp length
      rw [taken] at complete ⊢
      simp only [completes, Bool.and_eq_true, Bool.not_eq_true', secondInvalid_iff,
        all_cons, all_nil, Bool.and_true, tail_iff] at complete
      obtain ⟨last, fits⟩ := complete
      exact encode_three low high fits.tail last fits.notOverlong fits.notSurrogate
    | inr four =>
      obtain ⟨rfl, low, high⟩ := four
      obtain ⟨second, third, last, taken⟩ := length_eq_three.mp length
      rw [taken] at complete ⊢
      simp only [completes, Bool.and_eq_true, Bool.not_eq_true', secondInvalid_iff,
        all_cons, all_nil, Bool.and_true, tail_iff] at complete
      obtain ⟨⟨third, last⟩, fits⟩ := complete
      exact encode_four low high fits.tail third last fits.notOverlongFour fits.inRange

theorem completes_tails {tail : List UInt8} (complete : completes first tail = true) :
    ∀ c ∈ tail, Utf8.IsTail c := by
  cases tail with
  | nil => simp [completes] at complete
  | cons second later =>
    simp only [completes, Bool.and_eq_true, Bool.not_eq_true', secondInvalid_iff,
      all_eq_true, tail_iff] at complete
    intro c member
    cases mem_cons.mp member with
    | inl same => exact same ▸ complete.2.tail
    | inr among => exact complete.1 c among

theorem sequenceTail_append {tail : List UInt8} (follows : followers first = some tail.length)
    (complete : completes first tail = true) (rest : List UInt8) :
    sequenceTail first (tail ++ rest) = some tail.length := by
  unfold sequenceTail
  rw [follows]
  dsimp only
  rw [take_left, if_pos]
  exact ⟨by rw [length_append]; exact le_add_right _ _, complete⟩

theorem sequence_complete {code : Nat} (scalar : Utf8.IsScalar code) (large : 0x80 ≤ code) :
    ∃ first tail, encode code = first :: tail ∧ ¬ first ≤ 0x7F ∧
      ∀ rest, sequenceTail first (tail ++ rest) = some tail.length := by
  have value : ∀ {n : Nat}, n < 256 → (ofNat n).toNat = n := toNat_ofNat
  unfold Utf8.IsScalar at scalar
  unfold encode
  rw [if_neg (by omega)]
  by_cases two : code < 0x800
  · rw [if_pos two]
    have lead := value (n := 0xC0 + code / 64) (by omega)
    have last := value (n := 0x80 + code % 64) (by omega)
    refine ⟨_, _, rfl, ?_, sequenceTail_append ?_ ?_⟩
    · rw [le_iff_toNat_le, lead]
      simp
      omega
    · rw [followers_iff, lead]
      simp
      omega
    · simp only [completes, all_nil, Bool.true_and, Bool.not_eq_true', secondInvalid_iff]
      constructor
      all_goals
        simp only [Utf8.IsTail, lead, last]
        omega
  · rw [if_neg two]
    by_cases three : code < 0x10000
    · rw [if_pos three]
      have lead := value (n := 0xE0 + code / 4096) (by omega)
      have second := value (n := 0x80 + code / 64 % 64) (by omega)
      have last := value (n := 0x80 + code % 64) (by omega)
      refine ⟨_, _, rfl, ?_, sequenceTail_append ?_ ?_⟩
      · rw [le_iff_toNat_le, lead]
        simp
        omega
      · rw [followers_iff, lead]
        simp
        omega
      · simp only [completes, all_cons, all_nil, Bool.and_true, Bool.and_eq_true,
          Bool.not_eq_true', secondInvalid_iff, tail_iff]
        refine ⟨?_, ?_, ?_, ?_, ?_, ?_⟩
        all_goals
          simp only [Utf8.IsTail, lead, second, last]
          omega
    · rw [if_neg three]
      have lead := value (n := 0xF0 + code / 262144) (by omega)
      have second := value (n := 0x80 + code / 4096 % 64) (by omega)
      have third := value (n := 0x80 + code / 64 % 64) (by omega)
      have last := value (n := 0x80 + code % 64) (by omega)
      refine ⟨_, _, rfl, ?_, sequenceTail_append ?_ ?_⟩
      · rw [le_iff_toNat_le, lead]
        simp
        omega
      · rw [followers_iff, lead]
        simp
        omega
      · simp only [completes, all_cons, all_nil, Bool.and_true, Bool.and_eq_true,
          Bool.not_eq_true', secondInvalid_iff, tail_iff]
        refine ⟨⟨?_, ?_⟩, ?_, ?_, ?_, ?_, ?_⟩
        all_goals
          simp only [Utf8.IsTail, lead, second, third, last]
          omega

theorem validated_encode (replace : Bool) {code : Nat} (scalar : Utf8.IsScalar code) (rest : List UInt8) :
    validated replace (encode code ++ rest) = (validated replace rest).map (encode code ++ ·) := by
  by_cases ascii : code < 0x80
  · have small : ofNat code ≤ 0x7F := by
      rw [le_iff_toNat_le, toNat_ofNat (by omega)]
      simp
      omega
    rw [encode_ascii ascii]
    exact validated_ascii replace small
  · obtain ⟨first, tail, encoding, notAscii, complete⟩ := sequence_complete scalar (Nat.le_of_not_lt ascii)
    rw [encoding, cons_append, validated_sequence replace notAscii (complete rest), drop_left, take_left]

theorem validated_wellFormed (replace : Bool) (wellFormed : Utf8.WellFormed bytes) :
    validated replace bytes = some bytes := by
  induction wellFormed with
  | nil => rfl
  | cons scalar _ ih => rw [validated_encode replace scalar, ih, Option.map_some]

/-- Validation without replacing changes nothing. -/
theorem validated_same {text : List UInt8} (valid : validated false bytes = some text) : text = bytes := by
  -- Every round keeps the sequence it has found.
  induction length : bytes.length using Nat.strongRecOn generalizing bytes text with
  | _ n ih =>
    subst length
    cases bytes with
    | nil => exact (Option.some.inj valid).symm
    | cons first rest =>
      by_cases ascii : first ≤ 0x7F
      · rw [validated_ascii false ascii] at valid
        obtain ⟨later, validLater, rfl⟩ := Option.map_eq_some_iff.mp valid
        rw [ih _ (lt_succ_self _) validLater rfl]
      · cases tail : sequenceTail first rest with
        | none =>
          rw [validated_invalid ascii tail] at valid
          exact absurd valid (by simp)
        | some count =>
          rw [validated_sequence false ascii tail] at valid
          obtain ⟨later, validLater, rfl⟩ := Option.map_eq_some_iff.mp valid
          have shorter : (rest.drop count).length < (first :: rest).length := by
            rw [length_drop, length_cons]
            omega
          rw [ih _ shorter validLater rfl, cons_append, take_append_drop]

theorem validateUtf8_strict (bytes : List UInt8) : validateUtf8 {} bytes = validated false bytes := rfl

theorem validated_replaced (notAscii : ¬ first ≤ 0x7F) (tail : sequenceTail first rest = none) :
    validated true (first :: rest) = (validated true (rest.dropWhile fun c => 0x80 ≤ c)).map
        (replicate ((rest.takeWhile fun c => 0x80 ≤ c).length + 1) 0x3F ++ ·) := by
  have behind : rest.drop (rest.takeWhile fun c => 0x80 ≤ c).length = rest.dropWhile fun c => 0x80 ≤ c := by
    have parts := takeWhile_append_dropWhile (p := fun c => decide (0x80 ≤ c)) (l := rest)
    have dropped := @drop_left _ (rest.takeWhile fun c => 0x80 ≤ c) (rest.dropWhile fun c => 0x80 ≤ c)
    rwa [parts] at dropped
  simp only [validated, length_cons, validateUtf8Loop]
  rw [if_neg notAscii, tail]
  simp only [if_true]
  rw [behind, validateUtf8Loop_fuel true]
  exact (dropWhile_sublist _).length_le

theorem validated_sound (valid : validated false bytes = some bytes) : Utf8.WellFormed bytes := by
  -- Every round has found an encoding, and what is behind it is valid too.
  induction length : bytes.length using Nat.strongRecOn generalizing bytes with
  | _ n ih =>
    subst length
    cases bytes with
    | nil => exact .nil
    | cons first rest =>
      by_cases ascii : first ≤ 0x7F
      · rw [validated_ascii false ascii] at valid
        obtain ⟨later, validLater, same⟩ := Option.map_eq_some_iff.mp valid
        obtain ⟨-, rfl⟩ := cons.inj same
        have low : first.toNat < 0x80 := lt_succ_of_le (le_iff_toNat_le.mp ascii)
        exact (ih _ (lt_succ_self _) validLater rfl).ascii low
      · cases tail : sequenceTail first rest with
        | none =>
          rw [validated_invalid ascii tail] at valid
          cases valid
        | some count =>
          rw [validated_sequence false ascii tail] at valid
          obtain ⟨later, validLater, -⟩ := Option.map_eq_some_iff.mp valid
          obtain rfl := validated_same validLater
          obtain ⟨code, scalar, -, encoding⟩ := sequence_sound tail
          have shorter : (rest.drop count).length < (first :: rest).length := by
            rw [length_drop, length_cons]
            omega
          have more := Utf8.WellFormed.cons scalar (ih _ shorter validLater rfl)
          rwa [encoding, cons_append, take_append_drop] at more

/-- A string and what replacing makes of it: encodings are kept up to a byte that begins none, from
where on all bytes up to the next ASCII byte become question marks. -/
inductive Replaced : List UInt8 → List UInt8 → Prop
  | nil : Replaced [] []
  | keep {code : Nat} {rest text : List UInt8} (scalar : Utf8.IsScalar code)
      (more : Replaced rest text) : Replaced (Utf8.encode code ++ rest) (Utf8.encode code ++ text)
  | run {bad rest text : List UInt8} (some : bad ≠ []) (high : ∀ byte ∈ bad, 0x80 ≤ byte)
      (ends : ∀ byte ∈ rest.head?, byte < 0x80)
      (broken : ∀ code, Utf8.IsScalar code → ¬ Utf8.encode code <+: bad ++ rest)
      (more : Replaced rest text) : Replaced (bad ++ rest) (List.replicate bad.length 0x3F ++ text)

theorem Replaced.wellFormed {text : List UInt8} (replaced : Replaced bytes text) :
    Utf8.WellFormed text ∧ text.length = bytes.length := by
  induction replaced with
  | nil => exact ⟨.nil, rfl⟩
  | keep scalar more ih => exact ⟨.cons scalar ih.1, by rw [length_append, length_append, ih.2]⟩
  | @run bad rest text some high ends broken more ih =>
    have marks (count : Nat) : Utf8.WellFormed (replicate count 0x3F ++ text) := by
      induction count with
      | zero => exact ih.1
      | succ count marks => exact Utf8.WellFormed.ascii (by decide) marks
    refine ⟨marks _, ?_⟩
    rw [length_append, length_append, length_replicate, ih.2]

theorem no_encoding (notAscii : ¬ first ≤ 0x7F) (tail : sequenceTail first rest = none)
    {code : Nat} (scalar : Utf8.IsScalar code) : ¬ encode code <+: first :: rest := by
  rintro ⟨behind, split⟩
  by_cases ascii : code < 0x80
  · rw [encode_ascii ascii] at split
    obtain ⟨rfl, -⟩ := cons.inj split
    apply notAscii
    rw [le_iff_toNat_le, toNat_ofNat (by omega)]
    exact le_of_lt_succ ascii
  · obtain ⟨lead, others, encoding, -, complete⟩ := sequence_complete scalar (Nat.le_of_not_lt ascii)
    rw [encoding] at split
    obtain ⟨rfl, rfl⟩ := cons.inj split
    have found := complete behind
    rw [show others ++ behind = others.append behind from rfl, tail] at found
    cases found

theorem validated_replace (bytes : List UInt8) :
    ∃ text, validated true bytes = some text ∧ Replaced bytes text := by
  -- Every round keeps an encoding or replaces the rest of a run.
  induction length : bytes.length using Nat.strongRecOn generalizing bytes with
  | _ n ih =>
    subst length
    cases bytes with
    | nil => exact ⟨[], rfl, .nil⟩
    | cons first rest =>
      by_cases ascii : first ≤ 0x7F
      · obtain ⟨text, valid, replaced⟩ := ih rest.length (lt_succ_self _) rest rfl
        rw [validated_ascii true ascii, valid]
        have low : first.toNat < 0x80 := lt_succ_of_le (le_iff_toNat_le.mp ascii)
        have kept := @Replaced.keep first.toNat _ _ (.inl (by omega)) replaced
        rw [encode_ascii low, UInt8.ofNat_toNat] at kept
        exact ⟨first :: text, rfl, kept⟩
      · cases tail : sequenceTail first rest with
        | none =>
          have shorter : (rest.dropWhile fun c => decide (0x80 ≤ c)).length < (first :: rest).length :=
            lt_succ_of_le (dropWhile_sublist _).length_le
          obtain ⟨text, valid, replaced⟩ := ih _ shorter _ rfl
          rw [validated_replaced ascii tail, valid]
          refine ⟨_, rfl, ?_⟩
          have parts := takeWhile_append_dropWhile (p := fun c => decide (0x80 ≤ c)) (l := rest)
          have whole : first :: (rest.takeWhile fun c => 0x80 ≤ c) ++
              rest.dropWhile (fun c => 0x80 ≤ c) = first :: rest := by
            rw [cons_append, parts]
          have made := @Replaced.run (first :: (rest.takeWhile fun c => 0x80 ≤ c))
            (rest.dropWhile fun c => 0x80 ≤ c) text (cons_ne_nil _ _) ?_ ?_ ?_ replaced
          · rwa [whole] at made
          · -- The first byte is not ASCII, and the others are those up to the next ASCII byte.
            intro byte listed
            rcases mem_cons.mp listed with rfl | listed
            · have large := Nat.lt_of_not_le (mt le_iff_toNat_le.mpr ascii)
              exact le_iff_toNat_le.mpr large
            · simpa using mem_takeWhile_imp listed
          · intro byte head
            have stops := head?_dropWhile_not (fun c => decide ((0x80 : UInt8) ≤ c)) rest
            rw [Option.mem_def.mp head] at stops
            simpa using stops
          · intro code scalar
            rw [whole]
            exact no_encoding ascii tail scalar
        | some count =>
          have shorter : (rest.drop count).length < (first :: rest).length := by
            rw [length_drop, length_cons]
            omega
          obtain ⟨text, valid, replaced⟩ := ih _ shorter _ rfl
          obtain ⟨code, scalar, -, encoding⟩ := sequence_sound tail
          have kept := Replaced.keep scalar replaced
          rw [encoding, cons_append, take_append_drop] at kept
          rw [validated_sequence true ascii tail, valid]
          exact ⟨_, rfl, kept⟩

/-- Validation accepts exactly the well-formed strings, and with replacing leaves one of these. -/
theorem validateUtf8_replaces :
    (∀ (options : Options) (bytes : List UInt8), options.ignoreInvalidEncoding = false →
      options.replaceInvalidEncoding = false →
      (Utf8.WellFormed bytes → validateUtf8 options bytes = some bytes) ∧
        (¬ Utf8.WellFormed bytes → validateUtf8 options bytes = none)) ∧
      ∀ (options : Options) (bytes : List UInt8), options.ignoreInvalidEncoding = false →
        options.replaceInvalidEncoding = true →
        ∃ text, validateUtf8 options bytes = some text ∧ Utf8.WellFormed text ∧
          text.length = bytes.length ∧ Replaced bytes text := by
  constructor
  · intro options bytes notIgnored notReplaced
    have checked : validateUtf8 options bytes = validated false bytes := by
      rw [validateUtf8, notIgnored, notReplaced]
      rfl
    rw [checked]
    constructor
    · exact validated_wellFormed false
    · intro broken
      cases valid : validated false bytes with
      | none => rfl
      | some text =>
        obtain rfl := validated_same valid
        exact absurd (validated_sound valid) broken
  · intro options bytes notIgnored replaces
    have checked : validateUtf8 options bytes = validated true bytes := by
      rw [validateUtf8, notIgnored, replaces]
      rfl
    obtain ⟨text, valid, replaced⟩ := validated_replace bytes
    obtain ⟨wellFormed, length⟩ := replaced.wellFormed
    exact ⟨text, checked.trans valid, wellFormed, length, replaced⟩

/-- A letter with an accent is accepted, and kept with replacing. -/
theorem validateUtf8_replaces_accent : validateUtf8 {} [0xC3, 0xA9] = some [0xC3, 0xA9] ∧
      ∃ text, validateUtf8 { replaceInvalidEncoding := true } [0xC3, 0xA9] = some text ∧
        Utf8.WellFormed text ∧ text.length = 2 ∧ Replaced [0xC3, 0xA9] text :=
  ⟨(validateUtf8_replaces.1 {} [0xC3, 0xA9] rfl rfl).1 (@Utf8.wellFormed_encode 0xE9 (.inl (by decide))),
    validateUtf8_replaces.2 { replaceInvalidEncoding := true } [0xC3, 0xA9] rfl rfl⟩

/-- A letter with an accent right behind a broken byte is replaced with it. -/
theorem replaced_run_loses : ¬∀ (bytes text : List UInt8),
      validateUtf8 { replaceInvalidEncoding := true } bytes = some text →
      ∀ (front back : List UInt8) (code : Nat), Utf8.IsScalar code →
        bytes = front ++ encode code ++ back → encode code <:+: text := by
  intro keeps
  have made : validateUtf8 { replaceInvalidEncoding := true } [0x80, 0xC3, 0xA9] =
      some [0x3F, 0x3F, 0x3F] := by decide
  have lost := keeps _ _ made [0x80] [] 0xE9 (.inl (by decide)) (by decide)
  revert lost
  decide

end Libretro.Rjson
