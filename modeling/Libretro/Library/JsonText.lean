import Libretro.Library.Unicode

/-! JSON texts: their grammar as trees that carry their spelling, and what a tree says in order. -/

namespace JsonText

/-- A blank between two tokens. -/
def IsBlank (c : UInt8) : Prop := c = 0x20 ∨ c = 0x09 ∨ c = 0x0A ∨ c = 0x0D

instance (c : UInt8) : Decidable (IsBlank c) := inferInstanceAs (Decidable (_ ∨ _))

/-- Any number of blanks. -/
abbrev Blanks := { bytes : List UInt8 // ∀ c ∈ bytes, IsBlank c }

/-- A decimal digit. -/
def IsDigit (c : UInt8) : Prop := 0x30 ≤ c ∧ c ≤ 0x39

/-- Digits, at least one. -/
def IsDigits (bytes : List UInt8) : Prop := bytes ≠ [] ∧ ∀ c ∈ bytes, IsDigit c

/-- An integer part: a zero, or digits that do not begin with one. -/
def IsWhole (bytes : List UInt8) : Prop :=
  bytes = [0x30] ∨ ∃ first rest, bytes = first :: rest ∧ 0x31 ≤ first ∧ first ≤ 0x39 ∧ ∀ c ∈ rest, IsDigit c

/-- A fraction, or none. -/
def IsFraction (bytes : List UInt8) : Prop := bytes = [] ∨ ∃ digits, IsDigits digits ∧ bytes = 0x2E :: digits

/-- A sign of an exponent, or none. -/
def IsSign (bytes : List UInt8) : Prop := bytes = [] ∨ bytes = [0x2B] ∨ bytes = [0x2D]

/-- An exponent, or none. -/
def IsExponent (bytes : List UInt8) : Prop :=
  bytes = [] ∨ ∃ e sign digits, (e = 0x65 ∨ e = 0x45) ∧ IsSign sign ∧ IsDigits digits ∧
    bytes = e :: (sign ++ digits)

/-- A number: a sign, an integer part, a fraction and an exponent. -/
def IsNumber (bytes : List UInt8) : Prop :=
  ∃ minus whole fraction exponent, bytes = minus ++ (whole ++ (fraction ++ exponent)) ∧
    (minus = [] ∨ minus = [0x2D]) ∧ IsWhole whole ∧ IsFraction fraction ∧ IsExponent exponent

/-- The spelling of a number. -/
abbrev Number := { bytes : List UInt8 // IsNumber bytes }

/-- The value of a hexadecimal digit. -/
def hexValue (c : UInt8) : Option Nat :=
  if 0x30 ≤ c ∧ c ≤ 0x39 then some (c.toNat - 0x30)
  else if 0x61 ≤ c ∧ c ≤ 0x66 then some (c.toNat - 0x57)
  else if 0x41 ≤ c ∧ c ≤ 0x46 then some (c.toNat - 0x37)
  else none

/-- The code unit that four hexadecimal digits spell. -/
def hexCode (a b c d : UInt8) : Option Nat :=
  (hexValue a).bind fun a => (hexValue b).bind fun b => (hexValue c).bind fun c =>
    (hexValue d).map fun d => ((a * 16 + b) * 16 + c) * 16 + d

/-- The character that the letter behind a backslash stands for. -/
def shortValue (letter : UInt8) : Option UInt8 :=
  if letter = 0x22 ∨ letter = 0x5C ∨ letter = 0x2F then some letter
  else if letter = 0x62 then some 0x08
  else if letter = 0x66 then some 0x0C
  else if letter = 0x6E then some 0x0A
  else if letter = 0x72 then some 0x0D
  else if letter = 0x74 then some 0x09
  else none

/-- A character of a string, spelled out, behind a backslash, or by its code unit. -/
inductive Piece where
  | plain (code : Nat) (scalar : Utf8.IsScalar code)
      (unescaped : 0x20 ≤ code ∧ code ≠ 0x22 ∧ code ≠ 0x5C)
  | short (letter value : UInt8) (known : shortValue letter = some value)
  | unicode (a b c d : UInt8) (unit : Nat) (spells : hexCode a b c d = some unit)

/-- The spelling of a character. -/
def Piece.text : Piece → List UInt8
  | .plain code _ _ => Utf8.encode code
  | .short letter _ _ => [0x5C, letter]
  | .unicode a b c d _ _ => [0x5C, 0x75, a, b, c, d]

/-- The spelling of a string between its quotes. -/
def spelled (pieces : List Piece) : List UInt8 := pieces.flatMap Piece.text

/-- The first half of a surrogate pair. -/
def IsHigh (unit : Nat) : Prop := 0xD800 ≤ unit ∧ unit ≤ 0xDBFF

/-- The second half of a surrogate pair. -/
def IsLow (unit : Nat) : Prop := 0xDC00 ≤ unit ∧ unit ≤ 0xDFFF

instance (unit : Nat) : Decidable (IsHigh unit) := inferInstanceAs (Decidable (_ ∧ _))

instance (unit : Nat) : Decidable (IsLow unit) := inferInstanceAs (Decidable (_ ∧ _))

/-- The code point of a surrogate pair. -/
def pairCode (high low : Nat) : Nat := (high - 0xD800) * 0x400 + (low - 0xDC00) + 0x10000

/-- What a string says, if every surrogate in it is one of a pair. -/
def decode : List Piece → Option (List UInt8)
  | [] => some []
  | .plain code _ _ :: rest => (decode rest).map (Utf8.encode code ++ ·)
  | .short _ value _ :: rest => (decode rest).map (value :: ·)
  | .unicode _ _ _ _ unit _ :: rest =>
    if IsHigh unit then
      match rest with
      | .unicode _ _ _ _ low _ :: rest =>
        if IsLow low then (decode rest).map (Utf8.encode (pairCode unit low) ++ ·) else none
      | _ => none
    else if IsLow unit then none
    else (decode rest).map (Utf8.encode unit ++ ·)

mutual

/-- A value with its spelling. -/
inductive Value where
  | null
  | true
  | false
  | number (number : Number)
  | string (pieces : List Piece)
  | emptyArray (inside : Blanks)
  | array (elements : Elements)
  | emptyObject (inside : Blanks)
  | object (members : Members)

/-- The elements of an array, at least one. -/
inductive Elements where
  | last (before : Blanks) (value : Value) (after : Blanks)
  | more (before : Blanks) (value : Value) (after : Blanks) (rest : Elements)

/-- The members of an object, at least one. -/
inductive Members where
  | last (before : Blanks) (name : List Piece) (between colon : Blanks) (value : Value)
      (after : Blanks)
  | more (before : Blanks) (name : List Piece) (between colon : Blanks) (value : Value)
      (after : Blanks) (rest : Members)

end

/-- The spelling of a string with its quotes. -/
def quoted (pieces : List Piece) : List UInt8 := 0x22 :: (spelled pieces ++ [0x22])

mutual

/-- The spelling of a value. -/
def Value.text : Value → List UInt8
  | .null => [0x6E, 0x75, 0x6C, 0x6C]
  | .true => [0x74, 0x72, 0x75, 0x65]
  | .false => [0x66, 0x61, 0x6C, 0x73, 0x65]
  | .number number => number.val
  | .string pieces => quoted pieces
  | .emptyArray inside => 0x5B :: (inside.val ++ [0x5D])
  | .array elements => 0x5B :: (elements.text ++ [0x5D])
  | .emptyObject inside => 0x7B :: (inside.val ++ [0x7D])
  | .object members => 0x7B :: (members.text ++ [0x7D])

/-- The spelling of elements with the commas between them. -/
def Elements.text : Elements → List UInt8
  | .last before value after => before.val ++ (value.text ++ after.val)
  | .more before value after rest => before.val ++ (value.text ++ (after.val ++ 0x2C :: rest.text))

/-- The spelling of members with the colons and the commas between them. -/
def Members.text : Members → List UInt8
  | .last before name between colon value after =>
    before.val ++ (quoted name ++ (between.val ++ 0x3A :: (colon.val ++ (value.text ++ after.val))))
  | .more before name between colon value after rest =>
    before.val ++ (quoted name ++ (between.val ++ 0x3A :: (colon.val ++ (value.text ++
      (after.val ++ 0x2C :: rest.text)))))

end

/-- A whole text: one value between blanks. -/
structure Document where
  before : Blanks
  value : Value
  after : Blanks

/-- The spelling of a whole text. -/
def Document.text (document : Document) : List UInt8 :=
  document.before.val ++ (document.value.text ++ document.after.val)

/-- What is met when a tree is walked in order. -/
inductive Element where
  | startObject | endObject | startArray | endArray | null | true | false
  | number (number : Number)
  | string (pieces : List Piece)

mutual

/-- A value, walked in order. -/
def Value.traversal : Value → List Element
  | .null => [.null]
  | .true => [.true]
  | .false => [.false]
  | .number number => [.number number]
  | .string pieces => [.string pieces]
  | .emptyArray _ => [.startArray, .endArray]
  | .array elements => .startArray :: (elements.traversal ++ [.endArray])
  | .emptyObject _ => [.startObject, .endObject]
  | .object members => .startObject :: (members.traversal ++ [.endObject])

/-- Elements, walked in order. -/
def Elements.traversal : Elements → List Element
  | .last _ value _ => value.traversal
  | .more _ value _ rest => value.traversal ++ rest.traversal

/-- Members, walked in order: each name before its value. -/
def Members.traversal : Members → List Element
  | .last _ name _ _ value _ => .string name :: value.traversal
  | .more _ name _ _ value _ rest => .string name :: (value.traversal ++ rest.traversal)

end

/-- How an element changes the number of containers that are open. -/
def Element.depth (outside : Nat) : Element → Nat
  | .startObject | .startArray => outside + 1
  | .endObject | .endArray => outside - 1
  | _ => outside

/-- The largest number of containers open at once. -/
def nesting (outside : Nat) : List Element → Nat
  | [] => outside
  | element :: rest => max outside (nesting (element.depth outside) rest)

end JsonText
