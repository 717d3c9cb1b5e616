import Libretro.Formats.Rjson
import Libretro.Library.Unicode
import Mathlib.Algebra.GroupWithZero.Nat
import Mathlib.Data.List.Flatten

/-! The parser without its buffers, and the scanners, which read alike however the bytes arrive. -/

namespace Libretro.Rjson

open Option Nat

/-- An element as the caller sees it, with its text when it is a string or a number. -/
structure Event where
  type : RjsonType
  text : List UInt8 := []
deriving DecidableEq

/-- What is left to read and what is open. -/
structure Reader where
  bytes : List UInt8
  top : Frame
  below : List Frame
deriving DecidableEq

variable (options : Options)

/-- The remaining hexadecimal digits of an escape, and the bytes behind them. -/
def scanDigits : Nat → Nat → List UInt8 → Option (Nat × List UInt8)
  | 0, cp, bytes => some (cp, bytes)
  | _ + 1, _, [] => none
  | left + 1, cp, c :: rest =>
    match hexDigit c with
    | some digit => scanDigits left (cp ||| digit <<< (4 * left)) rest
    | none => none

/-- What stands for an invalid code point. -/
def invalidBytes : Option (List UInt8) :=
  if options.ignoreInvalidEncoding ∨ options.replaceInvalidEncoding then
    some (if options.ignoreInvalidEncoding then [] else [0x3F])
  else none

/-- The bytes of a code point, or what stands for an invalid one. -/
def codepointBytes (cp : Nat) : Option (List UInt8) :=
  if 0xD800 ≤ cp ∧ cp ≤ 0xDFFF then invalidBytes options
  else if cp < 0x110000 then some (utf8Bytes cp)
  else invalidBytes options

/-- One expected character. -/
def scanChar (expected : UInt8) : List UInt8 → Option (List UInt8)
  | [] => none
  | c :: rest => if c ≠ expected then none else some rest

/-- The second half of a surrogate pair. -/
def scanSurrogate (high : Nat) (bytes : List UInt8) : Option (List UInt8 × List UInt8) :=
  (scanChar 0x5C bytes).bind fun rest =>
  (scanChar 0x75 rest).bind fun rest =>
  (scanDigits 4 0 rest).bind fun (low, rest) =>
    if low < 0xDC00 ∨ 0xDFFF < low then (invalidBytes options).map (·, rest)
    else (codepointBytes options ((high - 0xD800) * 0x400 + ((low - 0xDC00) + 0x10000))).map (·, rest)

/-- A Unicode escape, after its first two characters. -/
def scanUnicode (bytes : List UInt8) : Option (List UInt8 × List UInt8) :=
  (scanDigits 4 0 bytes).bind fun (cp, rest) =>
    if 0xD800 ≤ cp ∧ cp ≤ 0xDBFF then scanSurrogate options cp rest
    else if 0xDC00 ≤ cp ∧ cp ≤ 0xDFFF then (invalidBytes options).map (·, rest)
    else (codepointBytes options cp).map (·, rest)

/-- What an escape stands for, and the bytes behind it. -/
def scanEscape : List UInt8 → Option (List UInt8 × List UInt8)
  | [] => none
  | esc :: rest =>
    if esc = 0x75 then scanUnicode options rest
    else if esc = 0x72 ∧ options.ignoreStringCarriageReturn then some ([], rest)
    else (shortEscape esc).map fun c => ([c], rest)

variable {bytes rest : List UInt8}

theorem length_scanDigits {left cp value : Nat}
    (scanned : scanDigits left cp bytes = some (value, rest)) : rest.length ≤ bytes.length := by
  -- One byte goes with each digit.
  induction left generalizing cp bytes with
  | zero =>
    simp only [scanDigits, some.injEq, Prod.mk.injEq] at scanned
    exact Nat.le_of_eq (congrArg List.length scanned.2.symm)
  | succ left ih =>
    cases bytes with
    | nil => simp [scanDigits] at scanned
    | cons c bytes =>
      simp only [scanDigits] at scanned
      cases digit : hexDigit c with
      | none => simp [digit] at scanned
      | some value =>
        rw [digit] at scanned
        exact le_succ_of_le (ih scanned)

theorem scanChar_some {expected : UInt8}
    (scanned : scanChar expected bytes = some rest) : bytes = expected :: rest := by
  cases bytes with
  | nil => simp [scanChar] at scanned
  | cons c bytes =>
    simp only [scanChar, ne_eq, ite_not] at scanned
    split at scanned <;> rename_i found
    · rw [found, some.inj scanned]
    · exact absurd scanned (by simp)

theorem length_scanChar {expected : UInt8}
    (scanned : scanChar expected bytes = some rest) : rest.length ≤ bytes.length := by
  rw [scanChar_some scanned]
  exact le_succ _

theorem length_scanUnicode {pushed : List UInt8} (scanned : scanUnicode options bytes = some (pushed, rest)) :
    rest.length ≤ bytes.length := by
  unfold scanUnicode at scanned
  obtain ⟨⟨cp, after⟩, digits, scanned⟩ := bind_eq_some_iff.mp scanned
  have shorter := length_scanDigits digits
  dsimp only at scanned
  split at scanned
  · -- A pair has two more characters and four more digits.
    unfold scanSurrogate at scanned
    obtain ⟨afterSlash, slash, scanned⟩ := bind_eq_some_iff.mp scanned
    obtain ⟨afterU, letter, scanned⟩ := bind_eq_some_iff.mp scanned
    obtain ⟨⟨low, last⟩, lowDigits, scanned⟩ := bind_eq_some_iff.mp scanned
    have first := length_scanChar slash
    have second := length_scanChar letter
    have third := length_scanDigits lowDigits
    have final : last = rest := by
      dsimp only at scanned
      split at scanned
      all_goals
        obtain ⟨_, _, same⟩ := map_eq_some_iff.mp scanned
        exact (Prod.mk.inj same).2
    rw [← final]
    omega
  · have final : after = rest := by
      split at scanned
      all_goals
        obtain ⟨_, _, same⟩ := map_eq_some_iff.mp scanned
        exact (Prod.mk.inj same).2
    rw [← final]
    exact shorter

theorem length_scanEscape {pushed : List UInt8}
    (scanned : scanEscape options bytes = some (pushed, rest)) : rest.length < bytes.length := by
  cases bytes with
  | nil => simp [scanEscape] at scanned
  | cons esc bytes =>
    simp only [scanEscape] at scanned
    split at scanned
    · exact lt_succ_of_le (length_scanUnicode options scanned)
    · split at scanned
      · simp only [some.injEq, Prod.mk.injEq] at scanned
        rw [← scanned.2]
        exact lt_succ_self _
      · obtain ⟨_, _, same⟩ := map_eq_some_iff.mp scanned
        rw [← (Prod.mk.inj same).2]
        exact lt_succ_self _

/-- The string read so far continues up to its closing quote. -/
def scanString (bytes string : List UInt8) (highBit : Bool) : Option (List UInt8 × List UInt8) :=
  match bytes with
  | [] => none
  | c :: rest =>
    if c = 0x22 then
      if string.length < maxSize then
        (if highBit then validateUtf8 options string else some string).map (·, rest)
      else none
    else if c = 0x5C then
      match _escaped : scanEscape options rest with
      | none => none
      | some (pushed, after) => scanString after (string ++ pushed) highBit
    else if 0x20 ≤ c ∨ options.allowUnescapedControlCharacters then
      scanString rest (string ++ [c]) (highBit || 0x80 ≤ c)
    else none
termination_by bytes.length
decreasing_by
  · have shorter := length_scanEscape options _escaped
    simp only [List.length_cons]
    omega
  · exact Nat.lt_succ_self _

theorem scanString_nil (string : List UInt8) (highBit : Bool) :
    scanString options [] string highBit = none := by
  rw [scanString]

theorem scanString_quote (rest string : List UInt8) (highBit : Bool) :
    scanString options (0x22 :: rest) string highBit = if string.length < maxSize then
        (if highBit then validateUtf8 options string else some string).map (·, rest)
      else none := by
  rw [scanString, if_pos rfl]

theorem scanString_escape (rest string : List UInt8) (highBit : Bool) :
    scanString options (0x5C :: rest) string highBit = (scanEscape options rest).bind fun found =>
        scanString options found.2 (string ++ found.1) highBit := by
  rw [scanString, if_neg (by decide), if_pos rfl]
  split <;> rename_i escaped
  · rw [escaped, bind_none]
  · rw [escaped, bind_some]

theorem scanString_char {c : UInt8} (notQuote : c ≠ 0x22) (notEscape : c ≠ 0x5C)
    (rest string : List UInt8) (highBit : Bool) :
    scanString options (c :: rest) string highBit = if 0x20 ≤ c ∨ options.allowUnescapedControlCharacters then
        scanString options rest (string ++ [c]) (highBit || 0x80 ≤ c)
      else none := by
  rw [scanString, if_neg notQuote, if_neg notEscape]

/-- What became of a comment or a mark: cut off by the end, or over after its last byte. -/
inductive Skip where
  | cut
  | finished (skipped : Bool) (last : UInt8) (rest : List UInt8)

/-- A comment or a mark, in a state of its scanner. -/
def scanSkip (skip : UInt8) : Nat → List UInt8 → Skip
  | _, [] => .cut
  | state, c :: rest =>
    match skipStep skip state c with
    | .inl answer => .finished answer c rest
    | .inr state => scanSkip skip state rest

theorem length_scanSkip {skip last : UInt8} {state : Nat}
    {skipped : Bool} (stops : scanSkip skip state bytes = .finished skipped last rest) :
    rest.length < bytes.length := by
  -- The comment is followed byte by byte.
  induction bytes generalizing state with
  | nil => simp [scanSkip] at stops
  | cons c bytes ih =>
    unfold scanSkip at stops
    split at stops
    · obtain ⟨-, -, rfl⟩ := Skip.finished.inj stops
      exact lt_succ_self _
    · exact lt_succ_of_lt (ih stops)

/-- What the next token is: hidden by a comment that is cut off, or known with its last byte. -/
inductive Scan where
  | cut
  | found (tok : Token) (last : UInt8) (rest : List UInt8)

/-- The next token, behind blanks and comments. -/
def scanToken (bytes : List UInt8) : Scan :=
  match bytes with
  | [] => .found .eof 0 []
  | c :: rest =>
    if tokenLut c = .whitespace ∨ tokenLut c = .newline then scanToken rest
    else if c = 0x2F ∧ options.allowComments then
      match _comment : scanSkip 0x2F 0 rest with
      | .cut => .cut
      | .finished true _ after => scanToken after
      | .finished false last after => .found .optionalSkip last after
    else .found (tokenLut c) c rest
termination_by bytes.length
decreasing_by
  · exact Nat.lt_succ_self _
  · exact Nat.lt_succ_of_lt (length_scanSkip _comment)

theorem scanToken_nil : scanToken options [] = .found .eof 0 [] := by rw [scanToken]

theorem scanToken_blank {c : UInt8} (blank : tokenLut c = .whitespace ∨ tokenLut c = .newline)
    (rest : List UInt8) : scanToken options (c :: rest) = scanToken options rest := by
  rw [scanToken, if_pos blank]

theorem scanToken_comment (allowed : options.allowComments) (rest : List UInt8) :
    scanToken options (0x2F :: rest) = match scanSkip 0x2F 0 rest with
      | .cut => .cut
      | .finished true _ after => scanToken options after
      | .finished false last after => .found .optionalSkip last after := by
  rw [scanToken, if_neg (by decide), if_pos ⟨rfl, allowed⟩]
  split <;> rename_i comment <;> rw [comment]

theorem scanToken_token {c : UInt8} (notBlank : ¬(tokenLut c = .whitespace ∨ tokenLut c = .newline))
    (notComment : ¬(c = 0x2F ∧ options.allowComments)) (rest : List UInt8) :
    scanToken options (c :: rest) = .found (tokenLut c) c rest := by
  rw [scanToken, if_neg notBlank, if_neg notComment]

variable (maxDepth : Nat)

/-- A literal name is taken from the front. -/
def scanName : List UInt8 → List UInt8 → Option (List UInt8)
  | [], bytes => some bytes
  | expected :: pattern, bytes => (scanChar expected bytes).bind (scanName pattern)

/-- A container is entered, if the stack is large enough. -/
def Reader.push (reader : Reader) (type : RjsonType) : Option (Event × Reader) :=
  if reader.below.length + 1 < max 10 maxDepth then
    some (⟨type, []⟩, { reader with below := reader.top :: reader.below, top := ⟨type, 0⟩ })
  else none

/-- A number is all the bytes that could belong to one, if they do. -/
def scanNumber (first : UInt8) (bytes : List UInt8) : Option (List UInt8 × List UInt8) :=
  let number := first :: bytes.takeWhile numberChar
  if number.length < maxSize ∧ numberFault number = none then
    some (number, bytes.dropWhile numberChar)
  else none

/-- One more element has begun. -/
def Reader.counted (reader : Reader) : Reader :=
  { reader with top := { reader.top with count := reader.top.count + 1 } }

/-- An element that is no container, with its text. -/
def Reader.scalar (reader : Reader) (type : RjsonType)
    (found : Option (List UInt8 × List UInt8)) : Option (Event × Reader) :=
  found.map fun scanned => (⟨type, scanned.1⟩, { reader with bytes := scanned.2 })

/-- The value that a token begins. -/
def Reader.value (reader : Reader) (tok : Token) (first : UInt8) : Option (Event × Reader) :=
  let named := fun type pattern =>
    reader.counted.scalar type ((scanName pattern reader.bytes).map ([], ·))
  match tok with
  | .string => reader.counted.scalar .string (scanString options reader.bytes [] false)
  | .number => reader.counted.scalar .number (scanNumber first reader.bytes)
  | .object => reader.counted.push maxDepth .object
  | .array => reader.counted.push maxDepth .array
  | .true => named .true [0x72, 0x75, 0x65]
  | .false => named .false [0x61, 0x6C, 0x73, 0x65]
  | .null => named .null [0x75, 0x6C, 0x6C]
  | _ => none

/-- The container that was closed is left. -/
def Reader.pop (reader : Reader) : Reader :=
  match reader.below with
  | [] => reader
  | outer :: below => { reader with top := outer, below }

/-- What a decision on a token leads to. -/
def Reader.act (reader : Reader) (tok : Token) (last : UInt8) : Decision → Option (Event × Reader)
  | .value => reader.value options maxDepth tok last
  | .close type => some (⟨type, []⟩, reader.pop)
  | .done => some (⟨.done, []⟩, reader)
  | .doneBefore => some (⟨.done, []⟩, { reader with bytes := last :: reader.bytes })
  | _ => none

/-- What the next token leads to, once a separator has been passed or not. -/
def Reader.proceed (reader : Reader) (passedToken : Bool) : Option (Event × Reader) :=
  match scanToken options reader.bytes with
  | .cut => none
  | .found tok last bytes =>
    { reader with bytes }.act options maxDepth tok last
      (decision reader.top passedToken tok options.allowTrailingData)

/-- The next element, behind a separator where one is due; `none` for an error. -/
def Reader.next (reader : Reader) : Option (Event × Reader) :=
  match scanToken options reader.bytes with
  | .cut => none
  | .found tok _ bytes =>
    if decision reader.top false tok options.allowTrailingData = .pass then
      { reader with bytes }.proceed options maxDepth true
    else reader.proceed options maxDepth false

/-- The next call runs into a comment that is cut off. -/
def Reader.Torn (reader : Reader) : Prop :=
  match scanToken options reader.bytes with
  | .cut => True
  | .found tok _ bytes =>
    decision reader.top false tok options.allowTrailingData = .pass ∧ scanToken options bytes = .cut

/-- The elements of a whole document, up to the one that says it is done. -/
inductive Reader.Delivers : Reader → List Event → Prop
  | done {reader after : Reader} (last : reader.next options maxDepth = some (⟨.done, []⟩, after)) :
      Reader.Delivers reader []
  | next {reader after : Reader} {event : Event} {events : List Event}
      (step : reader.next options maxDepth = some (event, after)) (more : event.type ≠ .done)
      (rest : Reader.Delivers after events) : Reader.Delivers reader (event :: events)

open List

variable {options : Options} {bytes rest body : List UInt8}

/-- The end of a block comment. -/
abbrev starSlash : List UInt8 := [0x2A, 0x2F]

/-- Blanks and, where they are allowed, complete comments. -/
inductive Gap (comments : Bool) : List UInt8 → Prop
  | nil : Gap comments []
  | blank {c : UInt8} {rest : List UInt8} (blank : c = 0x20 ∨ c = 0x09 ∨ c = 0x0A ∨ c = 0x0D)
      (more : Gap comments rest) : Gap comments (c :: rest)
  | line {body rest : List UInt8} (allowed : comments = true) (oneLine : 0x0A ∉ body)
      (more : Gap comments rest) : Gap comments (0x2F :: 0x2F :: (body ++ 0x0A :: rest))
  | block {body rest : List UInt8} (allowed : comments = true)
      (first : ¬ starSlash <:+: body ++ [0x2A]) (more : Gap comments rest) :
      Gap comments (0x2F :: 0x2A :: (body ++ 0x2A :: 0x2F :: rest))

/-- A comment that the end of the stream cuts off. -/
inductive Unfinished : List UInt8 → Prop
  | slash : Unfinished [0x2F]
  | line {body : List UInt8} (oneLine : 0x0A ∉ body) : Unfinished (0x2F :: 0x2F :: body)
  | block {body : List UInt8} (unclosed : ¬ starSlash <:+: body) :
      Unfinished (0x2F :: 0x2A :: body)

/-- The stream ends in a comment before any other token comes. -/
def CutComment (bytes : List UInt8) : Prop := ∃ gap tail, bytes = gap ++ tail ∧ Gap true gap ∧ Unfinished tail

theorem scanSkip_line (oneLine : 0x0A ∉ body) :
    scanSkip 0x2F 1 (body ++ 0x0A :: rest) = .finished true 0x0A rest := by
  -- Every byte before the newline keeps the scanner where it is.
  induction body with
  | nil => rfl
  | cons c body ih =>
    rw [mem_cons, not_or] at oneLine
    have stays : skipStep 0x2F 1 c = .inr 1 := by simp [skipStep, Ne.symm oneLine.1]
    rw [cons_append, scanSkip, stays]
    exact ih oneLine.2

/-- A line comment without a newline is cut off, and otherwise it is one with a newline. -/
theorem scanSkip_line_cases (bytes : List UInt8) : (scanSkip 0x2F 1 bytes = .cut ∧ 0x0A ∉ bytes) ∨
    ∃ body rest, bytes = body ++ 0x0A :: rest ∧ 0x0A ∉ body := by
  induction bytes with
  | nil => exact .inl ⟨rfl, by simp⟩
  | cons c bytes ih =>
    by_cases newline : c = 0x0A
    · exact .inr ⟨[], bytes, by rw [newline]; rfl, by simp⟩
    · have stays : skipStep 0x2F 1 c = .inr 1 := by simp [skipStep, newline]
      cases ih with
      | inl cut =>
        refine .inl ⟨?_, by simp [cut.2, Ne.symm newline]⟩
        rw [scanSkip, stays]
        exact cut.1
      | inr stops =>
        obtain ⟨body, rest, rfl, oneLine⟩ := stops
        exact .inr ⟨c :: body, rest, rfl, by simp [oneLine, Ne.symm newline]⟩

/-- The scanner of a block comment remembers whether the byte before was a star. -/
theorem scanSkip_block (body : List UInt8) : (¬ starSlash <:+: body → scanSkip 0x2F 2 body = .cut) ∧
    (¬ starSlash <:+: 0x2A :: body → scanSkip 0x2F 3 body = .cut) := by
  -- After any byte but a star the end cannot be reached by a slash alone.
  induction body with
  | nil => exact ⟨fun _ => rfl, fun _ => rfl⟩
  | cons c body ih =>
    obtain ⟨plain, starred⟩ := ih
    constructor
    · intro unclosed
      by_cases star : c = 0x2A
      · subst star
        exact starred unclosed
      · have stays : skipStep 0x2F 2 c = .inr 2 := by simp [skipStep, star]
        rw [scanSkip, stays]
        exact plain fun inside => unclosed (infix_cons inside)
    · intro unclosed
      have notSlash : c ≠ 0x2F := by
        intro slash
        subst slash
        exact unclosed (infix_cons_iff.mpr (.inl ⟨body, rfl⟩))
      by_cases star : c = 0x2A
      · subst star
        exact starred fun inside => unclosed (infix_cons inside)
      · have moves : skipStep 0x2F 3 c = .inr 2 := by simp [skipStep, star, notSlash]
        rw [scanSkip, moves]
        exact plain fun inside => unclosed (infix_cons (infix_cons inside))

/-- A block comment is over at the first star and slash. -/
theorem scanSkip_block_over (body rest : List UInt8) : (¬ starSlash <:+: body ++ [0x2A] →
      scanSkip 0x2F 2 (body ++ 0x2A :: 0x2F :: rest) = .finished true 0x2F rest) ∧
    (¬ starSlash <:+: 0x2A :: (body ++ [0x2A]) →
      scanSkip 0x2F 3 (body ++ 0x2A :: 0x2F :: rest) = .finished true 0x2F rest) := by
  induction body with
  | nil => exact ⟨fun _ => rfl, fun _ => rfl⟩
  | cons c body ih =>
    obtain ⟨plain, starred⟩ := ih
    constructor
    · intro first
      by_cases star : c = 0x2A
      · subst star
        exact starred first
      · have stays : skipStep 0x2F 2 c = .inr 2 := by simp [skipStep, star]
        rw [cons_append, scanSkip, stays]
        exact plain fun inside => first (infix_cons inside)
    · intro first
      have notSlash : c ≠ 0x2F := by
        intro slash
        subst slash
        exact first (infix_cons_iff.mpr (.inl ⟨body ++ [0x2A], rfl⟩))
      by_cases star : c = 0x2A
      · subst star
        exact starred fun inside => first (infix_cons inside)
      · have moves : skipStep 0x2F 3 c = .inr 2 := by simp [skipStep, star, notSlash]
        rw [cons_append, scanSkip, moves]
        exact plain fun inside => first (infix_cons (infix_cons inside))

/-- A block comment is closed somewhere for the first time, or not at all. -/
theorem block_cases (bytes : List UInt8) : ¬ starSlash <:+: bytes ∨
    ∃ body rest, bytes = body ++ 0x2A :: 0x2F :: rest ∧ ¬ starSlash <:+: body ++ [0x2A] := by
  induction bytes with
  | nil => exact .inl (by simp [starSlash])
  | cons c bytes ih =>
    by_cases here : starSlash <+: c :: bytes
    · obtain ⟨rest, whole⟩ := here
      refine .inr ⟨[], rest, whole.symm, ?_⟩
      simp [starSlash, infix_cons_iff]
    · cases ih with
      | inl never => exact .inl fun inside => (infix_cons_iff.mp inside).elim here never
      | inr stops =>
        obtain ⟨body, rest, rfl, first⟩ := stops
        refine .inr ⟨c :: body, rest, rfl, fun inside => ?_⟩
        cases infix_cons_iff.mp inside with
        | inr later => exact first later
        | inl now =>
          -- The two bytes at the front are the same with and without what follows.
          refine here (now.trans ?_)
          show c :: (body ++ [0x2A]) <+: c :: (body ++ 0x2A :: 0x2F :: rest)
          rw [cons_prefix_cons]
          exact ⟨rfl, 0x2F :: rest, by simp⟩

theorem blank_iff : ∀ c : UInt8, (tokenLut c = .whitespace ∨ tokenLut c = .newline) ↔
    (c = 0x20 ∨ c = 0x09 ∨ c = 0x0A ∨ c = 0x0D) :=
  Utf8.forall_byte (by decide +kernel)

theorem tokenLut_ne_eof : ∀ c : UInt8, tokenLut c ≠ .eof := Utf8.forall_byte (by decide +kernel)

/-- A gap is skipped. -/
theorem scanToken_gap {gap : List UInt8} (skipped : Gap options.allowComments gap)
    (rest : List UInt8) : scanToken options (gap ++ rest) = scanToken options rest := by
  induction skipped with
  | nil => rfl
  | blank blank _ ih =>
    rw [cons_append, scanToken_blank _ ((blank_iff _).mpr blank)]
    exact ih
  | @line body more allowed oneLine _ ih =>
    have stops : scanSkip 0x2F 0 (0x2F :: (body ++ 0x0A :: (more ++ rest))) =
        .finished true 0x0A (more ++ rest) := scanSkip_line oneLine
    simp only [cons_append, List.append_assoc]
    rw [scanToken_comment _ allowed, stops]
    exact ih
  | @block body more allowed first _ ih =>
    have stops : scanSkip 0x2F 0 (0x2A :: (body ++ 0x2A :: 0x2F :: (more ++ rest))) =
        .finished true 0x2F (more ++ rest) := (scanSkip_block_over body _).1 first
    simp only [cons_append, List.append_assoc]
    rw [scanToken_comment _ allowed, stops]
    exact ih

/-- A comment that is cut off hides the next token. -/
theorem scanToken_cut (allowed : options.allowComments = true) (cut : CutComment bytes) :
    scanToken options bytes = .cut := by
  obtain ⟨gap, tail, rfl, skipped, unfinished⟩ := cut
  rw [← allowed] at skipped
  rw [scanToken_gap skipped]
  cases unfinished with
  | slash =>
    rw [scanToken_comment _ allowed]
    rfl
  | @line body oneLine =>
    have unending : scanSkip 0x2F 0 (0x2F :: body) = .cut := by
      cases scanSkip_line_cases body with
      | inl ends => exact ends.1
      | inr stops =>
        obtain ⟨front, back, rfl, -⟩ := stops
        exact absurd oneLine (by simp)
    rw [scanToken_comment _ allowed, unending]
  | @block body unclosed =>
    have unending : scanSkip 0x2F 0 (0x2A :: body) = .cut := (scanSkip_block body).1 unclosed
    rw [scanToken_comment _ allowed, unending]

/-- What the next token is behind its gap, or the comment that hides it. -/
inductive Meets (options : Options) (bytes : List UInt8) : Scan → Prop
  | cut (allowed : options.allowComments = true) (cut : CutComment bytes) :
      Meets options bytes .cut
  | ended (gap : Gap options.allowComments bytes) : Meets options bytes (.found .eof 0 [])
  | token {gap rest : List UInt8} {c : UInt8} (skipped : Gap options.allowComments gap)
      (whole : bytes = gap ++ c :: rest) : Meets options bytes (.found (tokenLut c) c rest)
  | slash {gap body rest : List UInt8} {last : UInt8} (skipped : Gap options.allowComments gap)
      (whole : bytes = gap ++ 0x2F :: body) : Meets options bytes (.found .optionalSkip last rest)

theorem Meets.behind {gap : List UInt8} {scan : Scan}
    (joins : ∀ later, Gap options.allowComments later → Gap options.allowComments (gap ++ later))
    (meets : Meets options bytes scan) : Meets options (gap ++ bytes) scan := by
  cases meets with
  | cut allowed cut =>
    obtain ⟨later, tail, rfl, more, unfinished⟩ := cut
    rw [← allowed] at more
    refine .cut allowed ⟨gap ++ later, tail, by rw [List.append_assoc], ?_, unfinished⟩
    rw [← allowed]
    exact joins later more
  | ended more => exact .ended (joins _ more)
  | token more whole =>
    rw [whole, ← List.append_assoc]
    exact .token (joins _ more) rfl
  | slash more whole =>
    rw [whole, ← List.append_assoc]
    exact .slash (joins _ more) rfl

/-- What is found is the token behind a gap, or hidden by a comment that is cut off. -/
theorem scanToken_meets (options : Options) (bytes : List UInt8) :
    Meets options bytes (scanToken options bytes) := by
  -- Every blank and every comment leaves fewer bytes.
  induction length : bytes.length using Nat.strongRecOn generalizing bytes with
  | _ n ih =>
    subst length
    cases bytes with
    | nil =>
      rw [scanToken_nil]
      exact .ended .nil
    | cons c rest =>
      by_cases blank : tokenLut c = .whitespace ∨ tokenLut c = .newline
      · rw [scanToken_blank _ blank]
        have more := ih _ (Nat.lt_succ_self _) rest rfl
        show Meets options ([c] ++ rest) _
        exact more.behind fun _ skipped => .blank ((blank_iff c).mp blank) skipped
      · by_cases comment : c = 0x2F ∧ options.allowComments
        · obtain ⟨rfl, allowed⟩ := comment
          rw [scanToken_comment _ allowed]
          have lone : ∀ tail, Unfinished tail → CutComment tail :=
            fun tail unfinished => ⟨[], tail, rfl, .nil, unfinished⟩
          have noGap : Gap options.allowComments [] := .nil
          cases rest with
          | nil => exact .cut allowed (lone _ .slash)
          | cons second body =>
            by_cases line : second = 0x2F
            · subst line
              cases scanSkip_line_cases body with
              | inl unending =>
                have cut : scanSkip 0x2F 0 (0x2F :: body) = .cut := unending.1
                rw [cut]
                exact .cut allowed (lone _ (.line unending.2))
              | inr ending =>
                obtain ⟨text, after, rfl, oneLine⟩ := ending
                have stops : scanSkip 0x2F 0 (0x2F :: (text ++ 0x0A :: after)) =
                    .finished true 0x0A after := scanSkip_line oneLine
                rw [stops]
                have more := ih after.length (by simp; omega) after rfl
                have joined : Meets options (0x2F :: 0x2F :: (text ++ [0x0A]) ++ after) _ :=
                  more.behind fun later skipped => by simpa using Gap.line allowed oneLine skipped
                simpa using joined
            · by_cases block : second = 0x2A
              · subst block
                cases block_cases body with
                | inl unclosed =>
                  have cut : scanSkip 0x2F 0 (0x2A :: body) = .cut := (scanSkip_block body).1 unclosed
                  rw [cut]
                  exact .cut allowed (lone _ (.block unclosed))
                | inr closed =>
                  obtain ⟨text, after, rfl, first⟩ := closed
                  have stops : scanSkip 0x2F 0 (0x2A :: (text ++ 0x2A :: 0x2F :: after)) =
                      .finished true 0x2F after := (scanSkip_block_over text after).1 first
                  rw [stops]
                  have more := ih after.length (by simp; omega) after rfl
                  have joined : Meets options (0x2F :: 0x2A :: (text ++ starSlash) ++ after) _ :=
                    more.behind fun later skipped => by simpa using Gap.block allowed first skipped
                  simpa using joined
              · -- A slash before anything else is a token that no rule knows.
                have stops : scanSkip 0x2F 0 (second :: body) = .finished false second body := by
                  simp [scanSkip, skipStep, line, block]
                rw [stops]
                exact .slash noGap rfl
        · rw [scanToken_token _ blank comment]
          exact .token .nil rfl

open List

/-- The bytes still to come: those in the buffer and the blocks before an empty one. -/
def Input.stream (input : Input) : List UInt8 :=
  input.unread ++ if input.ended then [] else (input.future.takeWhile (· ≠ [])).flatten

/-- The bytes to come and the string so far, of a parser whose string buffer may be full. -/
structure Json.Reads (json : Json) (bytes string : List UInt8) : Prop where
  stream : json.input.stream = bytes
  calm : json.input.fails = false
  unread : json.input.unread.length ≤ maxSize
  blocks : ∀ block ∈ json.input.future, block.length ≤ maxSize
  text : json.string = string
  capLow : 512 ≤ json.stringCap
  capHigh : json.stringCap ≤ maxSize

/-- Between two scanners there is room for one more byte. -/
structure Json.Holds (json : Json) (bytes string : List UInt8) : Prop extends json.Reads bytes string where
  room : string.length < json.stringCap

/-- What reading leaves alone, and that it does not go back. -/
structure Json.Kept (json after : Json) : Prop where
  top : after.top = json.top
  below : after.below = json.below
  stackCap : after.stackCap = json.stackCap
  stackMax : after.stackMax = json.stackMax
  options : after.options = json.options
  sourceLine : after.input.sourceLine = json.input.sourceLine
  sourceColumnP : after.input.sourceColumnP = json.input.sourceColumnP
  position : json.input.position ≤ after.input.position
  inputP : after.input.inputP = json.input.inputP ∨ json.input.position ≤ after.input.inputP

/-- A scanner inside a token does not pass anything through. -/
structure Json.Scans (json after : Json) : Prop extends json.Kept after where
  passThrough : after.stringPassThrough = json.stringPassThrough

variable {json after : Json} {bytes string : List UInt8}

theorem Json.Scans.refl (json : Json) : json.Scans json :=
  ⟨⟨rfl, rfl, rfl, rfl, rfl, rfl, rfl, Nat.le_refl _, .inl rfl⟩, rfl⟩

theorem Json.Kept.trans {middle : Json} (first : json.Kept middle) (second : middle.Kept after) :
    json.Kept after where
  top := second.top.trans first.top
  below := second.below.trans first.below
  stackCap := second.stackCap.trans first.stackCap
  stackMax := second.stackMax.trans first.stackMax
  options := second.options.trans first.options
  sourceLine := second.sourceLine.trans first.sourceLine
  sourceColumnP := second.sourceColumnP.trans first.sourceColumnP
  position := Nat.le_trans first.position second.position
  inputP := by
    cases second.inputP with
    | inr moved => exact .inr (Nat.le_trans first.position moved)
    | inl stays =>
      rw [stays]
      exact first.inputP

theorem Json.Scans.trans {middle : Json} (first : json.Scans middle)
    (second : middle.Scans after) : json.Scans after :=
  ⟨first.toKept.trans second.toKept, second.passThrough.trans first.passThrough⟩

/-- A scanner that should produce a string does so, unless that string is too large. -/
inductive Json.Meets (json : Json) (expected : Option (List UInt8 × List UInt8))
    (result : Except Json Json) : Prop
  | ok {string rest : List UInt8} {after : Json} (same : expected = some (string, rest))
      (gives : result = .ok after) (holds : after.Holds rest string) (kept : json.Scans after)
  | error {failed : Json} (large : ∀ string rest, expected = some (string, rest) →
      maxSize ≤ string.length) (gives : result = .error failed)

/-- A scanner that leaves the string alone reads what is expected, or fails where it should. -/
inductive Json.Gets (json : Json) (string : List UInt8) {α : Type}
    (expected : Option (α × List UInt8)) (result : Except Json (α × Json)) : Prop
  | ok {value : α} {rest : List UInt8} {after : Json} (same : expected = some (value, rest))
      (gives : result = .ok (value, after)) (holds : after.Holds rest string)
      (kept : json.Scans after)
  | error {failed : Json} (none : expected = none) (gives : result = .error failed)

theorem tooLarge {string rest : List UInt8} (large : maxSize ≤ string.length) :
    ∀ other later, some (string, rest) = some (other, later) → maxSize ≤ other.length := by
  intro other later same
  obtain ⟨rfl, -⟩ := Prod.mk.inj (some.inj same)
  exact large

theorem Input.length_stream_le (input : Input) : input.stream.length ≤ input.size := by
  unfold Input.stream Input.size
  have sub : (input.future.takeWhile (· ≠ [])).flatten.length ≤ input.future.flatten.length :=
    (List.Sublist.flatten (takeWhile_sublist _)).length_le
  rw [length_append]
  split
  · simp
  · omega

theorem filled_eq (empty : json.input.unread = []) : json.filled = ioInput json := by
  rw [Json.filled, if_pos empty]

variable (holds : json.Holds bytes string)
include holds

/-- Filling the buffer changes nothing but where the bytes are. -/
theorem Json.Holds.filled : json.filled.Holds bytes string ∧ json.Scans json.filled ∧
      (json.filled.input.unread = [] → bytes = []) := by
  obtain ⟨⟨whole, calm, unread, blocks, same, capLow, capHigh⟩, room⟩ := holds
  unfold Json.filled
  by_cases empty : json.input.unread = []
  · rw [if_pos empty]
    unfold ioInput
    cases ended : json.input.ended with
    | true =>
      have nothing : bytes = [] := by rw [← whole, Input.stream, empty, ended]; rfl
      exact ⟨⟨⟨whole, calm, unread, blocks, same, capLow, capHigh⟩, room⟩, .refl json, fun _ => nothing⟩
    | false =>
      rw [Input.stream, empty, ended] at whole
      cases future : json.input.future with
      | nil =>
        rw [future] at whole
        have nothing : bytes = [] := whole.symm
        simp only [Bool.false_eq_true, if_false, calm, future] at blocks ⊢
        exact ⟨⟨⟨nothing.symm, rfl, zero_le _, blocks, same, capLow, capHigh⟩, room⟩,
          ⟨⟨rfl, rfl, rfl, rfl, rfl, rfl, rfl, Nat.le_refl _, .inr (Nat.le_refl _)⟩, rfl⟩,
          fun _ => nothing⟩
      | cons block later =>
        rw [future] at whole blocks
        have first := blocks block mem_cons_self
        have others := fun other member => blocks other (mem_cons_of_mem _ member)
        refine ⟨⟨⟨?_, calm, first, others, same, capLow, capHigh⟩, room⟩,
          ⟨⟨rfl, rfl, rfl, rfl, rfl, rfl, rfl, Nat.le_refl _, .inr (Nat.le_refl _)⟩, rfl⟩, ?_⟩
        · -- An empty block ends the stream; any other one is the front of what is to come.
          rw [← whole, Input.stream]
          cases block <;> simp
        · intro last
          have none : block = [] := last
          rw [← whole, none]
          simp
  · rw [if_neg empty]
    exact ⟨⟨⟨whole, calm, unread, blocks, same, capLow, capHigh⟩, room⟩, .refl json,
      fun nothing => absurd nothing empty⟩

theorem Json.Holds.advance {c : UInt8} {rest : List UInt8} (unread : json.input.unread = c :: rest) :
    ∃ later, bytes = c :: later ∧ (json.advance rest).Holds later string ∧
      json.Scans (json.advance rest) := by
  obtain ⟨⟨whole, calm, bounded, blocks, same, capLow, capHigh⟩, room⟩ := holds
  rw [unread] at bounded
  rw [Input.stream, unread] at whole
  refine ⟨_, whole.symm, ⟨⟨rfl, calm, le_of_succ_le bounded, blocks, same, capLow, capHigh⟩, room⟩,
    ⟨⟨rfl, rfl, rfl, rfl, rfl, rfl, rfl, le_succ _, .inl rfl⟩, rfl⟩⟩

omit holds

theorem Json.Holds.charGet_nil (holds : json.Holds [] string) :
    ∃ after, charGet json = (none, after) ∧ after.Holds [] string ∧ json.Scans after := by
  obtain ⟨filled, kept, -⟩ := holds.filled
  refine ⟨json.filled, ?_, filled, kept⟩
  unfold charGet
  cases unread : json.filled.input.unread with
  | nil => simp [unread]
  | cons c rest =>
    obtain ⟨later, whole, -⟩ := filled.advance unread
    exact absurd whole (by simp)

theorem Json.Holds.charGet_cons {c : UInt8} {rest : List UInt8} (holds : json.Holds (c :: rest) string) :
    ∃ after, charGet json = (some c, after) ∧ after.Holds rest string ∧ json.Scans after ∧
      json.input.position < after.input.position ∧ after.input.unread.length < maxSize := by
  obtain ⟨filled, kept, more⟩ := holds.filled
  cases unread : json.filled.input.unread with
  | nil => exact absurd (more unread) (by simp)
  | cons first others =>
    obtain ⟨later, whole, advanced, keptAlso⟩ := filled.advance unread
    obtain ⟨rfl, rfl⟩ := List.cons.inj whole
    have room := filled.unread
    rw [unread] at room
    refine ⟨json.filled.advance others, ?_, advanced, kept.trans keptAlso, lt_succ_of_le kept.position, room⟩
    unfold charGet
    simp [unread]

theorem Json.Reads.growString (full : json.Reads bytes string) :
    (json.stringCap = maxSize ∧ ∃ failed, growString json = .error failed) ∨
    (∃ after, growString json = .ok after ∧ after.Reads bytes string ∧ json.Scans after ∧
      json.stringCap < after.stringCap ∧
      (after.stringCap = json.stringCap * 2 ∨ after.stringCap = maxSize)) := by
  obtain ⟨whole, calm, unread, blocks, same, capLow, capHigh⟩ := full
  unfold Rjson.growString
  have limit : maxSize = 268435456 := rfl
  by_cases large : json.stringCap > maxSize / 2
  · rw [if_pos large]
    by_cases largest : json.stringCap ≥ maxSize
    · rw [if_pos largest]
      exact .inl ⟨Nat.le_antisymm capHigh largest, _, rfl⟩
    · rw [if_neg largest]
      exact .inr ⟨_, rfl, ⟨whole, calm, unread, blocks, same, by simp [limit], Nat.le_refl _⟩,
        ⟨⟨rfl, rfl, rfl, rfl, rfl, rfl, rfl, Nat.le_refl _, .inl rfl⟩, rfl⟩, Nat.lt_of_not_le largest, .inr rfl⟩
  · rw [if_neg large]
    refine .inr ⟨_, rfl, ⟨whole, calm, unread, blocks, same, ?_, ?_⟩,
      ⟨⟨rfl, rfl, rfl, rfl, rfl, rfl, rfl, Nat.le_refl _, .inl rfl⟩, rfl⟩, ?_, .inl rfl⟩
    all_goals dsimp only
    all_goals omega

include holds

theorem Json.Holds.pushChar (c : UInt8) : json.Meets (some (string ++ [c], bytes)) (pushChar json c) := by
  obtain ⟨⟨whole, calm, unread, blocks, rfl, capLow, capHigh⟩, room⟩ := holds
  have longer : (json.string ++ [c]).length = json.string.length + 1 := length_append
  have pushed : Json.Reads { json with string := json.string ++ [c] } bytes (json.string ++ [c]) :=
    ⟨whole, calm, unread, blocks, rfl, capLow, capHigh⟩
  unfold Rjson.pushChar
  dsimp only
  by_cases last : (json.string ++ [c]).length ≠ json.stringCap
  · rw [if_pos last]
    refine .ok rfl rfl ⟨pushed, ?_⟩ ⟨⟨rfl, rfl, rfl, rfl, rfl, rfl, rfl, Nat.le_refl _, .inl rfl⟩, rfl⟩
    dsimp only
    omega
  · rw [if_neg last]
    rw [ne_eq, Decidable.not_not] at last
    cases pushed.growString with
    | inl failing =>
      obtain ⟨largest, failed, stopped⟩ := failing
      exact .error (tooLarge (Nat.le_of_eq (largest.symm.trans last.symm))) stopped
    | inr growing =>
      obtain ⟨after, grown, reads, kept, larger, -⟩ := growing
      refine .ok rfl grown ⟨reads, ?_⟩ ⟨⟨kept.top, kept.below, kept.stackCap,
        kept.stackMax, kept.options, kept.sourceLine, kept.sourceColumnP, kept.position, kept.inputP⟩,
        kept.passThrough⟩
      rw [last]
      exact larger

omit holds

theorem Json.Reads.growFor {fuel : Nat} (full : json.Reads bytes string) (newLen : Nat)
    (enough : 2 * maxSize ≤ json.stringCap * 2 ^ fuel) :
    (maxSize ≤ newLen ∧ ∃ failed, growFor newLen fuel json = .error failed) ∨
    (∃ after, growFor newLen fuel json = .ok after ∧ after.Reads bytes string ∧ json.Scans after ∧
      newLen < after.stringCap) := by
  -- Each doubling uses one unit of fuel, and the buffer never passes the limit.
  induction fuel generalizing json with
  | zero =>
    have high := full.capHigh
    have limit : maxSize = 268435456 := rfl
    omega
  | succ fuel ih =>
    unfold Rjson.growFor
    by_cases fits : newLen ≥ json.stringCap
    · rw [if_pos fits]
      cases full.growString with
      | inl failing =>
        obtain ⟨largest, failed, stopped⟩ := failing
        rw [stopped]
        exact .inl ⟨largest ▸ fits, failed, rfl⟩
      | inr growing =>
        obtain ⟨grown, grew, fullGrown, kept, larger, doubled⟩ := growing
        have still : 2 * maxSize ≤ grown.stringCap * 2 ^ fuel := by
          cases doubled with
          | inl twice =>
            rw [twice, mul_assoc, ← pow_succ']
            exact enough
          | inr most =>
            -- Below the limit one doubling is not enough, so that there is fuel left.
            have below : json.stringCap < maxSize := most ▸ larger
            rw [most, mul_comm]
            refine mul_le_mul_left _ ?_
            cases fuel with
            | zero => omega
            | succ fuel =>
              have positive := Nat.one_le_two_pow (n := fuel)
              rw [pow_succ]
              omega
        rw [grew]
        cases ih fullGrown still with
        | inl failing => exact .inl failing
        | inr fitting =>
          obtain ⟨after, same, fullAfter, keptAfter, room⟩ := fitting
          exact .inr ⟨after, same, fullAfter, kept.trans keptAfter, room⟩
    · rw [if_neg fits]
      exact .inr ⟨json, rfl, full, .refl json, Nat.lt_of_not_le fits⟩

include holds

/-- A run of bytes is appended, if the string is not too large with it. -/
theorem Json.Holds.pushChars (chars : List UInt8) :
    json.Meets (some (string ++ chars, bytes)) (pushChars json chars) := by
  obtain rfl := holds.text
  have longer : (json.string ++ chars).length = json.string.length + chars.length := length_append
  have enough : 2 * maxSize ≤ json.stringCap * 2 ^ 20 := by
    have low := holds.capLow
    have limit : maxSize = 268435456 := rfl
    omega
  unfold Rjson.pushChars
  cases holds.toReads.growFor (json.string.length + chars.length) enough with
  | inl failing =>
    obtain ⟨large, failed, stopped⟩ := failing
    rw [stopped]
    exact .error (tooLarge (by rw [longer]; exact large)) rfl
  | inr fitting =>
    obtain ⟨after, grown, reads, kept, room⟩ := fitting
    rw [grown]
    refine .ok rfl rfl ⟨⟨reads.stream, reads.calm, reads.unread, reads.blocks, ?_, reads.capLow,
      reads.capHigh⟩, ?_⟩ ⟨⟨kept.top, kept.below, kept.stackCap, kept.stackMax, kept.options,
      kept.sourceLine, kept.sourceColumnP, kept.position, kept.inputP⟩, kept.passThrough⟩
    · dsimp only
      rw [reads.text]
    · dsimp only
      rw [longer]
      exact room

omit holds

theorem Json.Meets.behind {middle : Json} {expected : Option (List UInt8 × List UInt8)}
    {result : Except Json Json} (meets : middle.Meets expected result) (kept : json.Scans middle) :
    json.Meets expected result := by
  cases meets with
  | ok same gives holds keptAlso => exact .ok same gives holds (kept.trans keptAlso)
  | error large gives => exact .error large gives

theorem Json.meets_none {failed : Json} : json.Meets none (.error failed) :=
  .error (fun _ _ same => absurd same (by simp)) rfl

include holds

theorem Json.Holds.getUnicodeCpLoop (left cp : Nat) :
    json.Gets string (scanDigits left cp bytes) (getUnicodeCpLoop left cp json) := by
  -- Both go digit by digit.
  induction left generalizing json bytes cp with
  | zero => exact .ok rfl rfl holds (.refl json)
  | succ left ih =>
    unfold Rjson.getUnicodeCpLoop
    cases bytes with
    | nil =>
      obtain ⟨after, got, -⟩ := holds.charGet_nil
      rw [got]
      exact .error rfl rfl
    | cons c rest =>
      obtain ⟨after, got, advanced, kept, -⟩ := holds.charGet_cons
      simp only [got, scanDigits]
      cases hexDigit c with
      | none => exact .error rfl rfl
      | some digit =>
        cases ih advanced (cp ||| digit <<< (4 * left)) with
        | ok same gives holdsLater keptLater => exact .ok same gives holdsLater (kept.trans keptLater)
        | error none gives => exact .error none gives

theorem Json.Holds.expectContinuation (expected : UInt8) (name : String) :
    (∃ rest after, scanChar expected bytes = some rest ∧
      expectContinuation json expected name = .ok after ∧ after.Holds rest string ∧
      json.Scans after) ∨ (scanChar expected bytes = none ∧
      ∃ failed, expectContinuation json expected name = .error failed) := by
  unfold Rjson.expectContinuation
  cases bytes with
  | nil =>
    obtain ⟨after, got, -⟩ := holds.charGet_nil
    rw [got]
    exact .inr ⟨rfl, _, rfl⟩
  | cons c rest =>
    obtain ⟨after, got, advanced, kept, -⟩ := holds.charGet_cons
    simp only [got, scanChar]
    by_cases different : c ≠ expected
    · rw [if_pos different, if_pos different]
      exact .inr ⟨rfl, _, rfl⟩
    · rw [if_neg different, if_neg different]
      exact .inl ⟨rest, after, rfl, rfl, advanced, kept⟩

omit holds

/-- The string with what an escape stands for, and the bytes behind it. -/
abbrev appended (string : List UInt8) (escape : Option (List UInt8 × List UInt8)) :
    Option (List UInt8 × List UInt8) :=
  escape.map fun found => (string ++ found.1, found.2)

include holds

theorem Json.Holds.replaceOrIgnore (text : String) :
    json.Meets (appended string ((invalidBytes json.options).map (·, bytes)))
      (replaceOrIgnore json text) := by
  unfold Rjson.replaceOrIgnore invalidBytes
  by_cases lenient : json.options.ignoreInvalidEncoding ∨ json.options.replaceInvalidEncoding
  · rw [if_pos lenient, if_pos lenient]
    by_cases ignored : json.options.ignoreInvalidEncoding = true
    · rw [if_pos ignored, if_pos ignored]
      exact .ok (by simp) rfl holds (.refl json)
    · rw [if_neg ignored, if_neg ignored]
      exact holds.pushChar 0x3F
  · rw [if_neg lenient, if_neg lenient]
    exact meets_none

theorem Json.Holds.foldPush (chars : List UInt8) :
    json.Meets (some (string ++ chars, bytes)) (chars.foldlM Rjson.pushChar json) := by
  induction chars generalizing json string with
  | nil => exact .ok (by simp) rfl holds (.refl json)
  | cons c chars ih =>
    rw [foldlM_cons]
    cases holds.pushChar c with
    | error large gives =>
      have tooMany := large _ _ rfl
      rw [gives]
      refine .error (tooLarge ?_) rfl
      simp only [length_append, length_cons, length_nil] at tooMany ⊢
      omega
    | ok same gives holdsLonger kept =>
      obtain ⟨rfl, rfl⟩ := Prod.mk.inj (some.inj same)
      have others := (ih holdsLonger).behind kept
      rw [List.append_assoc] at others
      rw [gives]
      exact others

theorem Json.Holds.pushCodepoint (cp : Nat) :
    json.Meets (appended string ((codepointBytes json.options cp).map (·, bytes)))
      (pushCodepoint json cp) := by
  unfold Rjson.pushCodepoint codepointBytes
  split
  · exact holds.replaceOrIgnore _
  · split
    · exact holds.foldPush _
    · exact holds.replaceOrIgnore _

theorem Json.Holds.readSurrogate (high : Nat) :
    json.Meets (appended string (scanSurrogate json.options high bytes)) (readSurrogate json high) := by
  unfold Rjson.readSurrogate scanSurrogate
  cases holds.expectContinuation 0x5C "'\\'" with
  | inr failing =>
    obtain ⟨none, failed, gives⟩ := failing
    rw [none, gives]
    exact meets_none
  | inl first =>
    obtain ⟨rest, one, same, gives, holdsOne, keptOne⟩ := first
    rw [same, gives]
    simp only [bind_some, Except.bind]
    cases holdsOne.expectContinuation 0x75 "'u'" with
    | inr failing =>
      obtain ⟨none, failed, gives⟩ := failing
      rw [none, gives]
      exact meets_none
    | inl second =>
      obtain ⟨rest, two, same, gives, holdsTwo, keptTwo⟩ := second
      rw [same, gives]
      simp only [bind_some]
      cases holdsTwo.getUnicodeCpLoop 4 0 with
      | error none gives =>
        rw [none, getUnicodeCp, gives]
        exact meets_none
      | ok same gives holdsThree keptThree =>
        have kept := (keptOne.trans keptTwo).trans keptThree
        rw [same, getUnicodeCp, gives]
        simp only [bind_some, ← kept.options]
        split
        · exact (holdsThree.replaceOrIgnore _).behind kept
        · exact (holdsThree.pushCodepoint _).behind kept

theorem Json.Holds.readUnicode :
    json.Meets (appended string (scanUnicode json.options bytes)) (readUnicode json) := by
  unfold Rjson.readUnicode scanUnicode
  cases holds.getUnicodeCpLoop 4 0 with
  | error none gives =>
    rw [none, getUnicodeCp, gives]
    exact meets_none
  | ok same gives holdsAfter kept =>
    rw [same, getUnicodeCp, gives]
    simp only [bind_some, Except.bind, ← kept.options]
    split
    · exact (holdsAfter.readSurrogate _).behind kept
    · split
      · exact (holdsAfter.replaceOrIgnore _).behind kept
      · exact (holdsAfter.pushCodepoint _).behind kept

/-- An escape. -/
theorem Json.Holds.readEscape :
    json.Meets (appended string (scanEscape json.options bytes)) (readEscape json) := by
  unfold Rjson.readEscape
  cases bytes with
  | nil =>
    obtain ⟨after, got, -⟩ := holds.charGet_nil
    rw [got]
    exact meets_none
  | cons esc rest =>
    obtain ⟨after, got, advanced, kept, -⟩ := holds.charGet_cons
    simp only [got, scanEscape, ← kept.options]
    split
    · exact advanced.readUnicode.behind kept
    · split
      · exact .ok (by simp) rfl advanced kept
      · cases shortEscape esc with
        | none => exact meets_none
        | some c => exact (advanced.pushChar c).behind kept

end Libretro.Rjson
