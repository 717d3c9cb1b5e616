import Libretro.Formats.RjsonRuns

/-! The nesting limit: what is open, and where the stack pointer is, in every run of calls. -/

namespace Libretro.Rjson

open Nat

variable {json after last : Json}

/-- The stack is as it was, but for an error that may be recorded. -/
structure Json.Stays (json after : Json) : Prop where
  below : after.below = json.below
  stackCap : after.stackCap = json.stackCap
  stackMax : after.stackMax = json.stackMax
  top : after.top = json.top ∨ after.top.type = .error

theorem Json.Stays.refl (json : Json) : json.Stays json := ⟨rfl, rfl, rfl, .inl rfl⟩

theorem Json.Stays.trans (first : json.Stays after) (second : after.Stays last) : json.Stays last where
  below := second.below.trans first.below
  stackCap := second.stackCap.trans first.stackCap
  stackMax := second.stackMax.trans first.stackMax
  top := by
    rcases second.top with same | failed
    · rw [same]
      exact first.top
    · exact .inr failed

theorem Json.stays_error (json : Json) (text : String) : json.Stays (json.error text) := by
  unfold Json.error
  split
  · exact .refl json
  · exact ⟨rfl, rfl, rfl, .inr rfl⟩

theorem Json.stays_buffers (json : Json) (input : Input) (string : List UInt8)
    (stringPassThrough : Option (List UInt8)) (stringCap : Nat) :
    json.Stays { json with input, string, stringPassThrough, stringCap } :=
  ⟨rfl, rfl, rfl, .inl rfl⟩

theorem Json.stays_advance (json : Json) (rest : List UInt8) : json.Stays (json.advance rest) :=
  ⟨rfl, rfl, rfl, .inl rfl⟩

theorem stays_ioInput (json : Json) :
    json.Stays (ioInput json) ∧ (ioInput json).input.size ≤ json.input.size := by
  unfold ioInput
  split
  · exact ⟨.refl json, le_refl _⟩
  · dsimp only
    split
    · split
      · refine ⟨(json.stays_buffers _ _ _ _).trans (Json.stays_error _ _), ?_⟩
        rw [Json.error_input]
        simp [Input.size]
      · exact ⟨⟨rfl, rfl, rfl, .inl rfl⟩, by simp [Input.size]⟩
    · rename_i block later more
      exact ⟨⟨rfl, rfl, rfl, .inl rfl⟩, by simp [Input.size, more]⟩

theorem stays_filled (json : Json) : json.Stays json.filled ∧ json.filled.input.size ≤ json.input.size := by
  unfold Json.filled
  split
  · exact stays_ioInput json
  · exact ⟨.refl json, le_refl _⟩

theorem size_advance {byte : UInt8} {rest : List UInt8} (first : json.input.unread = byte :: rest) :
    (json.advance rest).input.size < json.input.size := by
  simp [Json.advance, Input.size, first]

theorem stays_charGet (json : Json) : json.Stays (charGet json).2 ∧
    ((charGet json).1 = none ∨ (charGet json).2.input.size < json.input.size) := by
  obtain ⟨filled, size⟩ := stays_filled json
  unfold charGet
  dsimp only
  cases unread : json.filled.input.unread with
  | nil => exact ⟨filled, .inl rfl⟩
  | cons byte rest =>
    exact ⟨filled.trans (Json.stays_advance _ _), .inr (lt_of_lt_of_le (size_advance unread) size)⟩

/-- Both outcomes of a reading leave the stack alone. -/
def Json.Leaves (json : Json) : Except Json Json → Prop
  | .ok after => json.Stays after
  | .error after => json.Stays after

theorem Json.Leaves.bind {result : Except Json Json} {next : Json → Except Json Json}
    (first : json.Leaves result) (second : ∀ after, json.Stays after → json.Leaves (next after)) :
    json.Leaves (result.bind next) := by
  cases result with
  | ok after => exact second after first
  | error after => exact first

theorem Json.Stays.leaves {result : Except Json Json} (first : json.Stays after)
    (second : after.Leaves result) : json.Leaves result := by
  cases result with
  | ok last => exact Json.Stays.trans first second
  | error last => exact Json.Stays.trans first second

theorem leaves_growString (json : Json) : json.Leaves (growString json) := by
  unfold growString
  split
  · split
    · exact json.stays_error _
    · exact ⟨rfl, rfl, rfl, .inl rfl⟩
  · exact ⟨rfl, rfl, rfl, .inl rfl⟩

theorem leaves_pushChar (json : Json) (c : UInt8) : json.Leaves (pushChar json c) := by
  have appended : json.Stays { json with string := json.string ++ [c] } := ⟨rfl, rfl, rfl, .inl rfl⟩
  unfold pushChar
  dsimp only
  split
  · exact appended
  · exact appended.leaves (leaves_growString _)

theorem leaves_growFor (newLen fuel : Nat) (json : Json) : json.Leaves (growFor newLen fuel json) := by
  induction fuel generalizing json with
  | zero => exact .refl json
  | succ fuel ih =>
    unfold growFor
    split
    · exact (leaves_growString json).bind fun after stays => stays.leaves (ih after)
    · exact .refl json

theorem leaves_pushChars (json : Json) (chars : List UInt8) : json.Leaves (pushChars json chars) := by
  unfold pushChars
  exact (leaves_growFor _ _ json).bind fun after stays =>
    stays.trans ⟨rfl, rfl, rfl, .inl rfl⟩

/-- Both outcomes of reading a value leave the stack alone. -/
def Json.LeavesWith {α : Type} (json : Json) : Except Json (α × Json) → Prop
  | .ok (_, after) => json.Stays after
  | .error after => json.Stays after

theorem Json.LeavesWith.bind {α : Type} {result : Except Json (α × Json)}
    {next : α × Json → Except Json Json} (first : json.LeavesWith result)
    (second : ∀ value after, json.Stays after → json.Leaves (next (value, after))) :
    json.Leaves (result.bind next) := by
  cases result with
  | ok pair => exact second pair.1 pair.2 first
  | error after => exact first

theorem leaves_getUnicodeCpLoop (left cp : Nat) (json : Json) :
    json.LeavesWith (getUnicodeCpLoop left cp json) := by
  induction left generalizing cp json with
  | zero => exact Json.Stays.refl json
  | succ left ih =>
    have got := (stays_charGet json).1
    unfold getUnicodeCpLoop
    split
    · rename_i after read
      rw [read] at got
      exact Json.Stays.trans got (Json.stays_error _ _)
    · rename_i c after read
      rw [read] at got
      split
      · rename_i digit _
        have rest := ih (cp ||| digit <<< (4 * left)) after
        cases result : getUnicodeCpLoop left (cp ||| digit <<< (4 * left)) after with
        | ok pair =>
          rw [result] at rest
          exact Json.Stays.trans got rest
        | error last =>
          rw [result] at rest
          exact Json.Stays.trans got rest
      · exact Json.Stays.trans got (Json.stays_error _ _)

theorem leaves_replaceOrIgnore (json : Json) (text : String) : json.Leaves (replaceOrIgnore json text) := by
  unfold replaceOrIgnore
  split
  · split
    · exact .refl json
    · exact leaves_pushChar json _
  · exact json.stays_error _

theorem leaves_foldlM (bytes : List UInt8) (json : Json) : json.Leaves (bytes.foldlM pushChar json) := by
  induction bytes generalizing json with
  | nil => exact Json.Stays.refl json
  | cons byte bytes ih =>
    rw [List.foldlM_cons]
    exact (leaves_pushChar json byte).bind fun after stays => stays.leaves (ih after)

theorem leaves_pushCodepoint (json : Json) (cp : Nat) : json.Leaves (pushCodepoint json cp) := by
  unfold pushCodepoint
  split
  · exact leaves_replaceOrIgnore json _
  · split
    · exact leaves_foldlM _ json
    · exact leaves_replaceOrIgnore json _

theorem leaves_expectContinuation (json : Json) (expected : UInt8) (name : String) :
    json.Leaves (expectContinuation json expected name) := by
  have got := (stays_charGet json).1
  unfold expectContinuation
  split
  · rename_i after read
    rw [read] at got
    exact Json.Stays.trans got (Json.stays_error _ _)
  · rename_i c after read
    rw [read] at got
    split
    · exact Json.Stays.trans got (Json.stays_error _ _)
    · exact got

theorem leaves_readSurrogate (json : Json) (high : Nat) : json.Leaves (readSurrogate json high) := by
  unfold readSurrogate
  apply Json.Leaves.bind
  · exact leaves_expectContinuation json _ _
  · intro first stays
    apply stays.leaves
    apply Json.Leaves.bind
    · exact leaves_expectContinuation first _ _
    · intro second stays
      apply stays.leaves
      apply Json.LeavesWith.bind
      · exact leaves_getUnicodeCpLoop 4 0 second
      · intro low third stays
        dsimp only
        generalize (high - 0xD800) * 0x400 + ((low - 0xDC00) + 0x10000) = cp
        split
        · exact stays.leaves (leaves_replaceOrIgnore third _)
        · exact stays.leaves (leaves_pushCodepoint third cp)

theorem leaves_readUnicode (json : Json) : json.Leaves (readUnicode json) := by
  unfold readUnicode
  refine (leaves_getUnicodeCpLoop 4 0 json).bind fun cp after stays => ?_
  dsimp only
  split
  · exact stays.leaves (leaves_readSurrogate after _)
  · split
    · exact stays.leaves (leaves_replaceOrIgnore after _)
    · exact stays.leaves (leaves_pushCodepoint after _)

theorem leaves_readEscape (json : Json) : json.Leaves (readEscape json) := by
  have got := (stays_charGet json).1
  unfold readEscape
  split
  · rename_i after read
    rw [read] at got
    exact Json.Stays.trans got (Json.stays_error _ _)
  · rename_i esc after read
    rw [read] at got
    split
    · exact got.leaves (leaves_readUnicode after)
    · split
      · exact got
      · split
        · exact got.leaves (leaves_pushChar after _)
        · exact Json.Stays.trans got (Json.stays_error _ _)

theorem leaves_closeString (json : Json) (raw : List UInt8) : json.Leaves (closeString json raw) := by
  unfold closeString
  split
  · exact ⟨rfl, rfl, rfl, .inl rfl⟩
  · split
    · exact leaves_pushChars json raw
    · exact .refl json

theorem stays_finishString (json : Json) (highBit : Bool) : json.Stays (finishString json highBit).2 := by
  unfold finishString
  split
  · split
    · exact json.stays_error _
    · split
      all_goals exact ⟨rfl, rfl, rfl, .inl rfl⟩
  · exact .refl json

theorem leaves_flushRaw (json : Json) (raw : List UInt8) : json.Leaves (flushRaw json raw) := by
  unfold flushRaw
  split
  · exact leaves_pushChars json raw
  · exact .refl json

theorem stays_filledAfter {append : Json → List UInt8 → Except Json Json}
    (appends : ∀ (json : Json) (raw : List UInt8), json.Leaves (append json raw)) (json : Json)
    (raw : List UInt8) :
    match filledAfter append json raw with
    | .ok (after, _) => json.Stays after
    | .error after => json.Stays after := by
  unfold filledAfter
  by_cases empty : json.input.unread = []
  · have appended := appends json raw
    rw [if_pos empty]
    cases result : append json raw with
    | ok after =>
      rw [result] at appended
      exact Json.Stays.trans appended (stays_ioInput after).1
    | error after =>
      rw [result] at appended
      exact appended
  · rw [if_neg empty]
    exact Json.Stays.refl json

theorem stays_readStringLoop (fuel : Nat) (json : Json) (raw : List UInt8) (highBit : Bool) :
    json.Stays (readStringLoop fuel json raw highBit).2 := by
  induction fuel generalizing json raw highBit with
  | zero => exact .refl json
  | succ fuel ih =>
    have filled := stays_filledAfter leaves_flushRaw json raw
    unfold readStringLoop
    split
    · rename_i after failed
      rw [failed] at filled
      exact filled
    · rename_i start run ready
      rw [ready] at filled
      have filled : json.Stays start := filled
      split
      · exact filled.trans (Json.stays_error _ _)
      · rename_i c rest unread
        have advanced := filled.trans (start.stays_advance rest)
        split
        · -- The closing quote.
          have closed := leaves_closeString (start.advance rest) run
          split
          · rename_i after failed
            rw [failed] at closed
            exact advanced.trans closed
          · rename_i after ended
            rw [ended] at closed
            exact advanced.trans (Json.Stays.trans closed (stays_finishString after _))
        · split
          · -- An escape.
            have escaped : start.Leaves ((flushRaw start run).bind fun json =>
                readEscape (json.advance rest)) :=
              (leaves_flushRaw start run).bind fun after stays =>
                (stays.trans (after.stays_advance rest)).leaves (leaves_readEscape _)
            split
            · rename_i after failed
              rw [failed] at escaped
              exact filled.trans escaped
            · rename_i after goes
              rw [goes] at escaped
              exact filled.trans (Json.Stays.trans escaped (ih _ _ _))
          · split
            · exact advanced.trans (ih _ _ _)
            · exact filled.trans (Json.stays_error _ _)

theorem stays_readString (json : Json) : json.Stays (readString json).2 :=
  (json.stays_buffers json.input [] none json.stringCap).trans (stays_readStringLoop _ _ _ _)

theorem leaves_collectNumber (fuel : Nat) (json : Json) (run : List UInt8) :
    json.Leaves (collectNumber fuel json run) := by
  induction fuel generalizing json run with
  | zero => exact Json.Stays.refl json
  | succ fuel ih =>
    have filled := stays_filledAfter leaves_pushChars json run
    unfold collectNumber
    split
    · rename_i after failed
      rw [failed] at filled
      exact filled
    · rename_i start rest ready
      rw [ready] at filled
      have filled : json.Stays start := filled
      split
      · exact filled
      · rename_i c later unread
        split
        · exact (filled.trans (start.stays_advance later)).leaves (ih _ _)
        · exact filled.leaves (leaves_pushChars start _)

/-- Reading a number. -/
theorem stays_readNumber (json : Json) (first : UInt8) : json.Stays (readNumber json first).2 := by
  have begun : json.Stays { json with stringPassThrough := none, string := [] } := ⟨rfl, rfl, rfl, .inl rfl⟩
  have collected := begun.leaves (leaves_collectNumber (json.input.size + 1) _ [first])
  unfold readNumber
  dsimp only
  split
  · rename_i after failed
    rw [show collectNumber (json.input.size + 1)
      { json with stringPassThrough := none, string := [] } [first] = _ from failed] at collected
    exact collected
  · rename_i after ended
    rw [show collectNumber (json.input.size + 1)
      { json with stringPassThrough := none, string := [] } [first] = _ from ended] at collected
    split
    · exact collected
    · exact Json.Stays.trans collected (Json.stays_error _ _)

theorem stays_readName (type : RjsonType) (pattern : List UInt8) (json : Json) :
    json.Stays (readName type pattern json).2 := by
  induction pattern generalizing json with
  | nil => exact .refl json
  | cons expected pattern ih =>
    have got := (stays_charGet json).1
    unfold readName
    split
    rename_i c after read
    rw [read] at got
    split
    · exact Json.Stays.trans got (ih after)
    · exact Json.Stays.trans got (Json.stays_error _ _)

theorem stays_skipLoop (skip : UInt8) (fuel : Nat) (json : Json) (state : Nat) (final : UInt8) :
    json.Stays (skipLoop skip fuel json state final).2.2 ∧
      (skipLoop skip fuel json state final).2.2.input.size ≤ json.input.size := by
  induction fuel generalizing json state final with
  | zero => exact ⟨.refl json, le_refl _⟩
  | succ fuel ih =>
    obtain ⟨filled, size⟩ := stays_filled json
    unfold skipLoop
    dsimp only
    split
    · refine ⟨filled.trans (Json.stays_error _ _), ?_⟩
      rw [Json.error_input]
      exact size
    · rename_i c rest unread
      have advanced := filled.trans (json.filled.stays_advance rest)
      have less := le_of_lt (lt_of_lt_of_le (size_advance unread) size)
      split
      · exact ⟨advanced, less⟩
      · rename_i next _
        obtain ⟨stays, fewer⟩ := ih (json.filled.advance rest) next c
        exact ⟨advanced.trans stays, le_trans fewer less⟩

theorem stays_optionalSkip (json : Json) (skip : UInt8) : json.Stays (optionalSkip json skip).2.2 ∧
      (optionalSkip json skip).2.2.input.size ≤ json.input.size := by
  unfold optionalSkip
  split
  · exact ⟨.refl json, le_refl _⟩
  · split
    · exact ⟨.refl json, le_refl _⟩
    · exact stays_skipLoop _ _ _ _ _

open List Option

variable {json after : Json}

theorem stays_findToken (json : Json) : match findToken json with
    | .skipped after => json.Stays after ∧ after.input.size < json.input.size
    | .token after tok _ =>
      json.Stays after ∧ (tok = .eof ∨ after.input.size < json.input.size) := by
  obtain ⟨got, size⟩ := stays_charGet json
  unfold findToken
  cases read : charGet json with
  | mk first start =>
    rw [read] at got size
    cases first with
    | none => exact ⟨got, .inl rfl⟩
    | some c =>
      have less : start.input.size < json.input.size := size.resolve_left (by simp)
      dsimp only
      cases kind : tokenLut c
      case whitespace => exact ⟨got, less⟩
      case newline => exact ⟨got.trans (start.stays_buffers _ _ _ _), less⟩
      case optionalSkip =>
        obtain ⟨stays, fewer⟩ := stays_optionalSkip start c
        have shorter := lt_of_le_of_lt fewer less
        generalize optionalSkip start c = skipped at stays shorter ⊢
        rcases skipped with ⟨skips, last, rest⟩
        cases skips with
        | true => exact ⟨got.trans stays, shorter⟩
        | false => exact ⟨got.trans stays, .inr shorter⟩
      all_goals exact ⟨got, .inr less⟩

/-- The decision that a call comes to, with the state, the token and the byte it is made on. -/
def nextDecided : Nat → Json → Bool → Option (Json × Token × UInt8 × Decision)
  | 0, _, _ => none
  | fuel + 1, json, passedToken =>
    match findToken json with
    | .skipped json => nextDecided fuel json passedToken
    | .token json tok last =>
      match decision json.top passedToken tok json.options.allowTrailingData with
      | .pass => nextDecided fuel json true
      | decided => some (json, tok, last, decided)

theorem nextLoop_eq (fuel : Nat) (json : Json) (passedToken : Bool) :
    nextLoop fuel json passedToken = (nextDecided fuel json passedToken).bind fun found =>
      act found.1 found.2.1 found.2.2.1 found.2.2.2 := by
  -- The two loops take the same turns, and only the last one differs.
  induction fuel generalizing json passedToken with
  | zero => rfl
  | succ fuel ih =>
    unfold nextLoop nextDecided
    cases findToken json with
    | skipped after => exact ih after passedToken
    | token after tok last =>
      dsimp only
      cases decision after.top passedToken tok after.options.allowTrailingData
      case pass => exact ih after true
      all_goals rfl

/-- What a call decides on leaves the stack as the call found it. -/
structure Decided (json found : Json) (decided : Decision) : Prop where
  stays : json.Stays found
  notPass : decided ≠ .pass
  closes : ∀ type, decided = .close type → (type = .objectEnd ∨ type = .arrayEnd) ∧
    (found.top.type = .object ∨ found.top.type = .array)

theorem nextDecided_some {fuel : Nat} (enough : json.input.size < fuel) (passedToken : Bool) :
    ∃ found tok last decided, nextDecided fuel json passedToken = some (found, tok, last, decided) ∧
      Decided json found decided := by
  -- Each turn but the last takes a byte.
  induction fuel generalizing json passedToken with
  | zero => cases enough
  | succ fuel ih =>
    have token := stays_findToken json
    unfold nextDecided
    cases search : findToken json with
    | skipped after =>
      rw [search] at token
      obtain ⟨found, tok, last, decided, gives, rest⟩ :=
        ih (Nat.lt_of_lt_of_le token.2 (Nat.lt_succ_iff.mp enough)) passedToken
      exact ⟨found, tok, last, decided, gives, token.1.trans rest.stays, rest.notPass, rest.closes⟩
    | token after tok last =>
      rw [search] at token
      dsimp only
      by_cases pass : decision after.top passedToken tok after.options.allowTrailingData = .pass
      · -- A separator is not the end, so that a byte has been taken.
        have taken : after.input.size < json.input.size := by
          refine token.2.resolve_left fun ended => ?_
          refine decision_ne_pass (.inr ?_) pass
          simp [ended]
        obtain ⟨found, tok, last, decided, gives, rest⟩ :=
          ih (Nat.lt_of_lt_of_le taken (Nat.lt_succ_iff.mp enough)) true
        rw [pass]
        exact ⟨found, tok, last, decided, gives, token.1.trans rest.stays, rest.notPass, rest.closes⟩
      · have closes : ∀ type,
            decision after.top passedToken tok after.options.allowTrailingData = .close type →
              (type = .objectEnd ∨ type = .arrayEnd) ∧
                (after.top.type = .object ∨ after.top.type = .array) := by
          intro type closes
          rcases decision_close closes with ⟨object, -, ending⟩ | ⟨array, -, ending⟩
          · exact ⟨.inl ending, .inl object⟩
          · exact ⟨.inr ending, .inr array⟩
        generalize decision after.top passedToken tok after.options.allowTrailingData = decided at pass closes
        refine ⟨after, tok, last, decided, ?_, token.1, pass, closes⟩
        cases decided
        case pass => exact absurd rfl pass
        all_goals rfl

/-- What holds of the stack between two calls, as long as they are admitted. -/
structure Json.Nested (maxDepth : Nat) (json : Json) : Prop where
  stackMax : json.stackMax = maxDepth
  depth : json.below.length ≤ json.stackMax
  room : json.below.length < json.stackCap
  inline : 10 ≤ json.stackCap
  clamped : json.stackCap = 10 ∨ json.stackCap ≤ json.stackMax
  fours : json.stackCap % 4 = 2 ∨ json.stackCap = json.stackMax
  bottom : json.below = [] → json.top.type ≠ .object ∧ json.top.type ≠ .array
  outermost : ∀ frame ∈ json.below.getLast?, frame.type ≠ .object ∧ frame.type ≠ .array

variable {maxDepth : Nat}

theorem Json.Nested.same (nested : json.Nested maxDepth) (below : after.below = json.below)
    (stackCap : after.stackCap = json.stackCap) (stackMax : after.stackMax = json.stackMax)
    (type : after.top.type = json.top.type ∨ after.top.type = .error) : after.Nested maxDepth where
  stackMax := stackMax.trans nested.stackMax
  depth := by rw [below, stackMax]; exact nested.depth
  room := by rw [below, stackCap]; exact nested.room
  inline := by rw [stackCap]; exact nested.inline
  clamped := by rw [stackCap, stackMax]; exact nested.clamped
  fours := by rw [stackCap, stackMax]; exact nested.fours
  bottom empty := by
    rcases type with same | failed
    · rw [same]
      exact nested.bottom (below ▸ empty)
    · simp [failed]
  outermost := by rw [below]; exact nested.outermost

theorem Json.Nested.stays (nested : json.Nested maxDepth) (stays : json.Stays after) :
    after.Nested maxDepth :=
  nested.same stays.below stays.stackCap stays.stackMax (stays.top.imp (congrArg Frame.type) id)

theorem Json.Nested.popStack (nested : json.Nested maxDepth) : (popStack json).Nested maxDepth := by
  unfold Rjson.popStack
  cases inside : json.below with
  | nil => exact nested
  | cons outer below =>
    have depth := nested.depth
    have room := nested.room
    have outermost := nested.outermost
    rw [inside] at depth room outermost
    rw [length_cons] at depth room
    refine ⟨nested.stackMax, le_of_succ_le depth, lt_of_succ_lt room, nested.inline,
      nested.clamped, nested.fours, ?_, ?_⟩
    · rintro (rfl : below = [])
      exact outermost outer rfl
    · cases below with
      | nil => simp
      | cons next below =>
        rw [getLast?_cons_cons] at outermost
        exact outermost

/-- A container may be entered: a limit below the inline entries has not been reached, and the
capacity need not go past its width. -/
structure Json.MayOpen (json : Json) : Prop where
  below : 10 ≤ json.stackMax ∨ json.below.length < json.stackMax
  width : json.stackMax < 2 ^ 32 - 1 ∨ json.below.length + 1 < 2 ^ 32 - 2

/-- What a call delivers, with what it does to the number of open containers. -/
inductive Turn (depth : Nat) : RjsonType → Json → Prop
  | enter {type : RjsonType} {after : Json} (container : type = .object ∨ type = .array)
      (deeper : after.below.length = depth + 1) : Turn depth type after
  | leave {type : RjsonType} {after : Json} (container : type = .objectEnd ∨ type = .arrayEnd)
      (shallower : after.below.length + 1 = depth) : Turn depth type after
  | remain {type : RjsonType} {after : Json}
      (element : type ∉ [RjsonType.object, .array, .objectEnd, .arrayEnd])
      (same : after.below.length = depth) : Turn depth type after

variable {type : RjsonType}

theorem Json.Stays.turn (stays : json.Stays after)
    (element : type ∉ [RjsonType.object, .array, .objectEnd, .arrayEnd]) :
    Turn json.below.length type after :=
  .remain element (congrArg List.length stays.below)

theorem Json.Nested.push (nested : json.Nested maxDepth) {stackCap : Nat} (type : RjsonType)
    (depth : json.below.length + 1 ≤ json.stackMax) (room : json.below.length + 1 < stackCap)
    (inline : 10 ≤ stackCap) (clamped : stackCap = 10 ∨ stackCap ≤ json.stackMax)
    (fours : stackCap % 4 = 2 ∨ stackCap = json.stackMax) :
    Json.Nested maxDepth { json with
      stackCap, below := json.top :: json.below, top := ⟨type, 0⟩ } := by
  refine ⟨nested.stackMax, depth, room, inline, clamped, fours, ?_, ?_⟩
  · intro empty
    cases empty
  · cases inside : json.below with
    | nil =>
      intro frame last
      obtain rfl : json.top = frame := by simpa using last
      exact nested.bottom inside
    | cons outer below =>
      have outermost := nested.outermost
      rw [inside] at outermost
      rw [getLast?_cons_cons]
      exact outermost

theorem Json.Nested.pushStack (nested : json.Nested maxDepth) (may : json.MayOpen)
    (container : type = .object ∨ type = .array) :
    ∃ answer after, Rjson.pushStack json type = some (answer, after) ∧
      after.Nested maxDepth ∧ Turn json.below.length answer after ∧
      (10 ≤ maxDepth → maxDepth ≤ json.below.length + 1 → answer = .error) := by
  have room := nested.room
  have inline := nested.inline
  have clamped := nested.clamped
  have fours := nested.fours
  have limit := nested.stackMax
  have below := may.below
  unfold Rjson.pushStack
  by_cases full : json.below.length + 1 = json.stackCap
  · rw [if_pos full]
    by_cases last : json.stackCap = json.stackMax
    · -- The limit is reached with a full stack.
      have stays := json.stays_error "maximum depth of nesting reached"
      rw [if_pos last]
      exact ⟨_, _, rfl, nested.stays stays, stays.turn (by decide), fun _ _ => rfl⟩
    · -- The stack grows by four entries, or up to the limit.
      have grows : json.stackCap < min (json.stackCap + 4) json.stackMax := by omega
      rw [if_neg last, if_pos grows]
      refine ⟨_, _, rfl, ?_, .enter container rfl, by omega⟩
      apply nested.push type <;> omega
  · rw [if_neg full]
    refine ⟨_, _, rfl, ?_, .enter container rfl, by omega⟩
    apply nested.push type <;> omega

theorem readStringLoop_type (fuel : Nat) (json : Json) (raw : List UInt8) (highBit : Bool) :
    (readStringLoop fuel json raw highBit).1 = .string ∨
      (readStringLoop fuel json raw highBit).1 = .error := by
  induction fuel generalizing json raw highBit with
  | zero => exact .inr rfl
  | succ fuel ih =>
    unfold readStringLoop
    split
    · exact .inr rfl
    · split
      · exact .inr rfl
      · split
        · split
          · exact .inr rfl
          · unfold finishString
            split
            · split
              · exact .inr rfl
              · split <;> exact .inl rfl
            · exact .inl rfl
        · split
          · split
            · exact .inr rfl
            · exact ih _ _ _
          · split
            · exact ih _ _ _
            · exact .inr rfl

theorem readNumber_type (json : Json) (first : UInt8) :
    (readNumber json first).1 = .number ∨ (readNumber json first).1 = .error := by
  unfold readNumber
  dsimp only
  split
  · exact .inr rfl
  · split
    · exact .inl rfl
    · exact .inr rfl

theorem readName_type (type : RjsonType) (pattern : List UInt8) (json : Json) :
    (readName type pattern json).1 = type ∨ (readName type pattern json).1 = .error := by
  induction pattern generalizing json with
  | nil => exact .inl rfl
  | cons expected pattern ih =>
    unfold readName
    split
    split
    · exact ih _
    · exact .inr rfl

/-- What a call comes to: what still holds of the stack, what is delivered, and what is refused. -/
def Json.Comes (maxDepth : Nat) (json : Json) (container : Prop)
    (result : Option (RjsonType × Json)) : Prop :=
  ∃ type after, result = some (type, after) ∧ after.Nested maxDepth ∧ Turn json.below.length type after ∧
    (container → 10 ≤ maxDepth → maxDepth ≤ json.below.length + 1 → type = .error)

theorem Json.Nested.element (nested : json.Nested maxDepth) (type : RjsonType) {container : Prop}
    {result : RjsonType × Json} (stays : json.Stays result.2)
    (element : type ∉ [RjsonType.object, .array, .objectEnd, .arrayEnd])
    (delivers : result.1 = type ∨ result.1 = .error) (other : ¬ container) :
    json.Comes maxDepth container (some result) := by
  refine ⟨_, _, rfl, nested.stays stays, stays.turn ?_, fun entered => absurd entered other⟩
  rcases delivers with same | failed
  · rw [same]
    exact element
  · rw [failed]
    decide

/-- Whether a token begins a container. -/
def Token.container (tok : Token) : Bool := tok = .object ∨ tok = .array

theorem Json.Nested.readValue (nested : json.Nested maxDepth) (tok : Token) (last : UInt8)
    (may : tok.container = true → json.MayOpen) :
    json.Comes maxDepth (tok.container = true) (Rjson.readValue json tok last) := by
  have counted : Json.Nested maxDepth { json with top := { json.top with count := json.top.count + 1 } } :=
    nested.same rfl rfl rfl (.inl rfl)
  unfold Rjson.readValue
  -- The two containers are pushed, and every other token leaves the stack alone.
  cases tok
  case object =>
    obtain ⟨answer, after, gives, kept, turn, refused⟩ :=
      counted.pushStack ⟨(may rfl).below, (may rfl).width⟩ (.inl rfl)
    exact ⟨answer, after, gives, kept, turn, fun _ => refused⟩
  case array =>
    obtain ⟨answer, after, gives, kept, turn, refused⟩ :=
      counted.pushStack ⟨(may rfl).below, (may rfl).width⟩ (.inr rfl)
    exact ⟨answer, after, gives, kept, turn, fun _ => refused⟩
  case string =>
    exact counted.element .string (stays_readString _) (by decide) (readStringLoop_type _ _ _ _)
      (by decide)
  case number =>
    exact counted.element .number (stays_readNumber _ _) (by decide) (readNumber_type _ _) (by decide)
  case «true» =>
    exact counted.element .true (stays_readName _ _ _) (by decide) (readName_type _ _ _) (by decide)
  case «false» =>
    exact counted.element .false (stays_readName _ _ _) (by decide) (readName_type _ _ _) (by decide)
  case null =>
    exact counted.element .null (stays_readName _ _ _) (by decide) (readName_type _ _ _) (by decide)
  all_goals
    exact counted.element .error (Json.stays_error _ _) (by decide) (.inl rfl)
      (by decide)

theorem Json.Nested.close (nested : json.Nested maxDepth) {container : Prop}
    (ending : type = .objectEnd ∨ type = .arrayEnd)
    (inside : json.top.type = .object ∨ json.top.type = .array) (other : ¬ container) :
    json.Comes maxDepth container (some (type, Rjson.popStack json)) := by
  refine ⟨_, _, rfl, nested.popStack, .leave ending ?_, fun entered => absurd entered other⟩
  unfold Rjson.popStack
  cases below : json.below with
  | nil =>
    obtain ⟨noObject, noArray⟩ := nested.bottom below
    exact absurd inside (not_or.mpr ⟨noObject, noArray⟩)
  | cons outer below => rfl

/-- The state in which a call begins to read. -/
def Json.called (json : Json) : Json :=
  { json with input := { json.input with inputP := json.input.position } }

/-- Whether a call enters a container, or would if it could. -/
def Json.opens (json : Json) : Bool :=
  json.top.type ≠ .error ∧
    (nextDecided (json.input.size + 2) json.called false).any fun (_, tok, _, decided) =>
      decided = .value ∧ tok.container

/-- A call is admitted unless it enters a container that may not be entered. -/
def Json.Admits (json : Json) : Prop := json.opens = true → json.MayOpen

theorem Json.Nested.next (nested : json.Nested maxDepth) (admits : json.Admits) :
    json.Comes maxDepth (json.opens = true) (rjsonNext json) := by
  unfold rjsonNext
  by_cases failed : json.top.type = .error
  · -- After an error there is nothing but this error.
    have closed : ¬ json.opens = true := by simp [Json.opens, failed]
    rw [if_pos failed]
    exact nested.element .error (.refl json) (by decide) (.inl rfl) closed
  · rw [if_neg failed, nextLoop_eq]
    obtain ⟨found, tok, last, decided, gives, stays, notPass, closes⟩ :=
      @nextDecided_some json.called (json.input.size + 2) (Nat.lt_add_of_pos_right (by decide))
        false
    have started : json.called.Nested maxDepth := nested.same rfl rfl rfl (.inl rfl)
    have kept := started.stays stays
    have depth : found.below.length = json.below.length := congrArg List.length stays.below
    have opens : json.opens = decide (decided = .value ∧ tok.container = true) := by
      unfold Json.opens
      rw [gives]
      simp [failed]
    have called : nextDecided (json.input.size + 2) { json with
        input := { json.input with inputP := json.input.position } } false =
          some (found, tok, last, decided) := gives
    rw [called, opens, decide_eq_true_eq, bind_some]
    have same : found.Comes maxDepth (decided = .value ∧ tok.container = true)
        (act found tok last decided) := by
      have other : decided ≠ .value → ¬ (decided = .value ∧ tok.container = true) :=
        fun different both => different both.1
      cases decided with
      | pass => exact absurd rfl notPass
      | value =>
        have may : tok.container = true → found.MayOpen := by
          intro container
          obtain ⟨below, width⟩ := admits (by rw [opens]; simp [container])
          refine ⟨?_, ?_⟩
          · rw [depth, stays.stackMax]
            exact below
          · rw [depth, stays.stackMax]
            exact width
        rw [show (Decision.value = .value ∧ tok.container = true) = (tok.container = true) by simp]
        exact kept.readValue tok last may
      | close type =>
        obtain ⟨ending, inside⟩ := closes type rfl
        exact kept.close ending inside (other (by simp))
      | done => exact kept.element .done (.refl found) (by decide) (.inl rfl) (other (by simp))
      | doneBefore =>
        exact kept.element .done (found.stays_buffers _ _ _ _) (by decide) (.inl rfl)
          (other (by simp))
      | fail text =>
        exact kept.element .error (found.stays_error _) (by decide) (.inl rfl)
          (other (by simp))
      | failToken before after =>
        exact kept.element .error (found.stays_error _) (by decide) (.inl rfl)
          (other (by simp))
    unfold Json.Comes at same ⊢
    rw [depth] at same
    exact same

/-- A parser over a callback, whose stream may end in a failure. -/
def rjsonOpenUser (options : Options) (future : List (List UInt8)) (fails : Bool) : Json :=
  let json := rjsonSetup options 50 future
  { json with input := { json.input with fails } }

/-- The limit is set. -/
def rjsonSetMaxDepth (json : Json) (maxDepth : UInt32) : Json := { json with stackMax := maxDepth.toNat }

/-- How many containers have been delivered and not been closed again. -/
def openContainers (types : List RjsonType) : Int :=
  types.count .object + types.count .array - types.count .objectEnd - types.count .arrayEnd

variable {types : List RjsonType}

theorem Turn.openContainers {depth : Nat} (turn : Turn depth type after)
    (counted : openContainers types = depth) :
    Rjson.openContainers (types ++ [type]) = after.below.length := by
  unfold Rjson.openContainers at counted ⊢
  simp only [count_append, count_singleton]
  cases turn with
  | enter container deeper =>
    rcases container with rfl | rfl
    all_goals
      simp
      omega
  | leave container shallower =>
    rcases container with rfl | rfl
    all_goals
      simp
      omega
  | remain element same =>
    rw [same, ← counted]
    simp only [mem_cons, not_mem_nil, not_or] at element
    simp [element]

theorem Calls.nested {options : Options} {limit : UInt32} {future : List (List UInt8)} {fails : Bool}
    (calls : Calls Json.Admits (rjsonSetMaxDepth (rjsonOpenUser options future fails) limit) types json) :
    json.Nested limit.toNat ∧ openContainers types = json.below.length := by
  -- The run is followed from the first call to the last.
  induction calls with
  | start =>
    constructor
    · refine ⟨rfl, zero_le _, zero_lt_succ 9, le_refl 10, .inl rfl,
        .inl (show 10 % 4 = 2 from rfl), ?_, ?_⟩
      · intro _
        exact ⟨RjsonType.noConfusion, RjsonType.noConfusion⟩
      · simp [rjsonSetMaxDepth, rjsonOpenUser, rjsonSetup]
    · rfl
  | call calls admits delivers ih =>
    obtain ⟨nested, counted⟩ := ih
    obtain ⟨type, after, gives, kept, turn, -⟩ := nested.next admits
    rw [gives] at delivers
    cases delivers
    exact ⟨kept, turn.openContainers counted⟩

theorem Json.Nested.width (nested : json.Nested maxDepth) (may : json.MayOpen)
    (word : maxDepth < 2 ^ 32) (full : json.below.length + 1 = json.stackCap)
    (further : json.stackCap ≠ maxDepth) : json.stackCap + 4 < 2 ^ 32 := by
  -- The capacity is two more than a multiple of four until it is clamped.
  have limit := nested.stackMax
  have clamped := nested.clamped
  have fours := nested.fours
  have below := may.below
  have width := may.width
  omega

/-- In every admitted run no more containers are open than the limit allows, a container beyond it
is an error, and the stack pointer lies inside the allocated stack, whose capacity does not wrap. -/
theorem nesting_bounded (options : Options) (maxDepth : UInt32) (future : List (List UInt8))
    (fails : Bool) {types : List RjsonType}
    (calls : Calls Json.Admits (rjsonSetMaxDepth (rjsonOpenUser options future fails) maxDepth) types json) :
    openContainers types = json.below.length ∧ json.below.length ≤ maxDepth.toNat ∧
      json.below.length < json.stackCap ∧
      (json.Admits → ∃ type after, rjsonNext json = some (type, after) ∧
        after.below.length ≤ maxDepth.toNat ∧ after.below.length < after.stackCap ∧
        (json.opens = true → 10 ≤ maxDepth.toNat → maxDepth.toNat ≤ json.below.length + 1 → type = .error) ∧
        (json.opens = true → json.below.length + 1 = json.stackCap →
          json.stackCap ≠ maxDepth.toNat → json.stackCap + 4 < 2 ^ 32)) := by
  obtain ⟨nested, counted⟩ := calls.nested
  refine ⟨counted, nested.stackMax ▸ nested.depth, nested.room, fun admits => ?_⟩
  obtain ⟨type, after, gives, kept, -, refused⟩ := nested.next admits
  exact ⟨type, after, gives, kept.stackMax ▸ kept.depth, kept.room, refused,
    fun opens => nested.width (admits opens) maxDepth.toNat_lt⟩

/-- An array inside an array, with the limit at two. -/
theorem nesting_bounded_two :
    ∃ json, Calls Json.Admits (rjsonSetMaxDepth (rjsonOpenUser {} [[0x5B, 0x5B]] false) 2)
      [.array, .array] json ∧ json.below.length ≤ 2 := by
  have admitted : ∀ json : Json, json.MayOpen → json.Admits := fun _ may _ => may
  have calls : Calls Json.Admits (rjsonSetMaxDepth (rjsonOpenUser {} [[0x5B, 0x5B]] false) 2)
      ([] ++ [.array] ++ [.array]) _ :=
    .call (.call .start (admitted _ ⟨by decide, by decide⟩) rfl)
      (admitted _ ⟨by decide, by decide⟩) rfl
  exact ⟨_, calls, (nesting_bounded {} 2 [[0x5B, 0x5B]] false calls).2.1⟩

/-- What so many calls deliver, and where they end. -/
def Json.nexts : Nat → Json → Option (List RjsonType × Json)
  | 0, json => some ([], json)
  | n + 1, json =>
    (rjsonNext json).bind fun (type, after) =>
      (after.nexts n).map fun (types, last) => (type :: types, last)

theorem Calls.nexts {start last : Json} {front : List RjsonType} {n : Nat}
    (calls : Calls (fun _ => True) start front json) (delivers : json.nexts n = some (types, last)) :
    Calls (fun _ => True) start (front ++ types) last := by
  -- The run is followed by one call at a time.
  induction n generalizing json front types with
  | zero =>
    obtain ⟨rfl, rfl⟩ := Prod.mk.inj (some.inj delivers)
    rw [append_nil]
    exact calls
  | succ n ih =>
    obtain ⟨⟨type, after⟩, first, delivers⟩ := bind_eq_some_iff.1 delivers
    obtain ⟨⟨rest, end'⟩, behind, same⟩ := map_eq_some_iff.1 delivers
    obtain ⟨rfl, rfl⟩ := Prod.mk.inj same
    have run := ih (calls.call trivial first) behind
    rw [List.append_assoc] at run
    exact run

/-- With the limit at one, nine arrays are entered one inside the other, and the tenth is written
outside the stack. -/
theorem nesting_exceeds : ∃ types json,
    Calls (fun _ => True) (rjsonSetMaxDepth (rjsonOpenUser {} [List.replicate 10 0x5B] false) 1) types json ∧
      openContainers types = 9 ∧ rjsonNext json = none := by
  have evaluated : ((rjsonSetMaxDepth (rjsonOpenUser {} [List.replicate 10 0x5B] false) 1).nexts
      9).map (fun (types, last) => (openContainers types, (rjsonNext last).isNone)) = some (9, true) := by
    decide
  obtain ⟨⟨types, last⟩, delivers, same⟩ := map_eq_some_iff.1 evaluated
  obtain ⟨opened, none⟩ := Prod.mk.inj same
  exact ⟨types, last, Calls.nexts .start delivers, opened, isNone_iff_eq_none.1 none⟩

end Libretro.Rjson
