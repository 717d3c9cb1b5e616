import Libretro.Formats.RjsonTokens
import Mathlib.Data.List.TakeWhile

/-! Each call delivers what the unbuffered parser delivers, however the bytes arrive. -/

namespace Libretro.Rjson

open Nat

variable {json after : Json} {bytes string : List UInt8}

variable {passedToken trailing : Bool} {tok : Token} {stack : Frame}

theorem decision_ne_pass (other : passedToken = true ∨ (tok ≠ .colon ∧ tok ≠ .comma)) :
    decision stack passedToken tok trailing ≠ .pass := by
  unfold decision
  cases other with
  | inl passed =>
    subst passed
    split_ifs <;> simp_all
  | inr neither =>
    obtain ⟨notColon, notComma⟩ := neither
    split_ifs <;> simp

/-- How the loop goes on with a token it has found. -/
def loopWith (fuel : Nat) (json : Json) (passedToken : Bool) (tok : Token) (last : UInt8) :
    Option (RjsonType × Json) :=
  match decision json.top passedToken tok json.options.allowTrailingData with
  | .pass => nextLoop fuel json true
  | decided => act json tok last decided

/-- Where the loop comes to act: at the next token, at a comment that is cut off, or at a mark. -/
inductive Json.Arrives (json : Json) (bytes : List UInt8) (passedToken : Bool)
    (result : Option (RjsonType × Json)) : Prop
  | token {tok : Token} {last : UInt8} {rest : List UInt8} {after : Json} {fuel : Nat}
      (scan : scanToken json.options bytes = .found tok last rest)
      (gives : result = loopWith fuel after passedToken tok last)
      (holds : after.Holds rest after.string) (moves : json.Moves after)
      (further : tok ≠ .eof → json.input.position < after.input.position ∧
        after.input.unread.length < maxSize ∧ rest.length + 1 < fuel)
  | cut {last : UInt8} {after : Json} {text : String} {fuel : Nat}
      (scan : scanToken json.options bytes = .cut)
      (gives : result = loopWith fuel (after.error text) passedToken .optionalSkip last)
      (moves : json.Moves after)
  | mark {last : UInt8} {after next : Json} {fuel : Nat} (marked : ¬ json.Unmarked)
      (gives : result = loopWith fuel next passedToken .optionalSkip last)
      (moves : json.Moves after) (same : next = after ∨ ∃ text, next = after.error text)

theorem Json.Arrives.behind {middle : Json}
    {result : Option (RjsonType × Json)} (arrives : middle.Arrives bytes passedToken result)
    (moves : json.Moves middle) : json.Arrives bytes passedToken result := by
  cases arrives with
  | token scan gives holds movesAfter further =>
    rw [moves.options] at scan
    refine .token scan gives holds (moves.trans movesAfter) fun more => ?_
    obtain ⟨position, room, fuel⟩ := further more
    exact ⟨lt_of_le_of_lt moves.position position, room, fuel⟩
  | cut scan gives movesAfter =>
    rw [moves.options] at scan
    exact .cut scan gives (moves.trans movesAfter)
  | mark marked gives movesAfter same =>
    exact .mark (fun unmarked => marked (moves.unmarked unmarked)) gives (moves.trans movesAfter) same

variable {fuel : Nat}

/-- The loop arrives where the bytes lead, but for marks that it skips. -/
theorem Json.Holds.nextLoop (holds : json.Holds bytes string)
    (enough : bytes.length + 1 < fuel) (passedToken : Bool) :
    ∃ later, (json.Unmarked → scanToken json.options later = scanToken json.options bytes) ∧
      json.Arrives later passedToken (nextLoop fuel json passedToken) := by
  -- Each round that does not arrive skips at least one byte.
  induction fuel generalizing json bytes string with
  | zero => exact absurd enough (not_lt_zero _)
  | succ fuel ih =>
    unfold Rjson.nextLoop
    cases holds.findToken with
    | ended none gives holdsAfter moves =>
      rw [none, gives]
      exact ⟨[], fun _ => rfl, .token (scanToken_nil _) rfl holdsAfter moves fun more => absurd rfl more⟩
    | blank first blank gives holdsAfter moves further =>
      subst first
      rw [gives, scanToken_blank _ blank]
      obtain ⟨later, same, arrives⟩ := ih holdsAfter (lt_of_succ_lt_succ enough)
      rw [moves.options] at same
      exact ⟨later, fun unmarked => same (moves.unmarked unmarked), arrives.behind moves⟩
    | token first notBlank notComment gives holdsAfter moves further room =>
      subst first
      rw [gives]
      exact ⟨_, fun _ => rfl, .token (scanToken_token _ notBlank notComment _) rfl holdsAfter moves
        fun _ => ⟨further, room, lt_of_succ_lt_succ enough⟩⟩
    | skipped first accepts stops gives holdsAfter moves further =>
      subst first
      rw [gives]
      have shorter := length_scanSkip stops
      have enoughAfter := lt_trans (succ_lt_succ shorter) (lt_of_succ_lt_succ enough)
      obtain ⟨later, same, arrives⟩ := ih holdsAfter enoughAfter
      rw [moves.options] at same
      refine ⟨later, fun unmarked => ?_, arrives.behind moves⟩
      rw [same (moves.unmarked unmarked)]
      cases accepts with
      | inl comment =>
        obtain ⟨rfl, allowed⟩ := comment
        rw [scanToken_comment _ allowed, stops]
      | inr mark => exact absurd unmarked mark.2
    | refused first accepts stops gives holdsAfter moves further room =>
      subst first
      rw [gives]
      cases accepts with
      | inl comment =>
        obtain ⟨rfl, allowed⟩ := comment
        refine ⟨_, fun _ => rfl, .token ?_ rfl holdsAfter moves fun _ => ⟨further, room, ?_⟩⟩
        · rw [scanToken_comment _ allowed, stops]
        · exact lt_trans (succ_lt_succ (length_scanSkip stops))
            (lt_of_succ_lt_succ enough)
      | inr mark => exact ⟨_, fun _ => rfl, .mark mark.2 rfl moves (.inl rfl)⟩
    | cut first accepts stops gives holdsAfter moves =>
      subst first
      rw [gives]
      cases accepts with
      | inl comment =>
        obtain ⟨rfl, allowed⟩ := comment
        refine ⟨_, fun _ => rfl, .cut ?_ rfl moves⟩
        rw [scanToken_comment _ allowed, stops]
      | inr mark => exact ⟨_, fun _ => rfl, .mark mark.2 rfl moves (.inr ⟨_, rfl⟩)⟩

variable {options : Options} {maxDepth : Nat} {reader : Reader}

/-- The outermost entry is the document, all others are containers. -/
def Nested : Frame → List Frame → Prop
  | top, [] => top.type = .done
  | top, outer :: below => (top.type = .object ∨ top.type = .array) ∧ Nested outer below

theorem Nested.ne_error {top : Frame} {below : List Frame} (nested : Nested top below) :
    top.type ≠ .error := by
  cases below with
  | nil =>
    have outermost : top.type = .done := nested
    simp [outermost]
  | cons outer below =>
    cases nested.1 with
    | inl object => simp [object]
    | inr array => simp [array]

theorem Nested.count {top : Frame} {below : List Frame} (nested : Nested top below) (count : Nat) :
    Nested { top with count } below := by
  cases below with
  | nil => exact nested
  | cons outer below => exact nested

/-- A parser between two calls, whose buffers and stack are as they should be. -/
structure Json.Shows (options : Options) (maxDepth : Nat) (json : Json) (reader : Reader) : Prop where
  holds : json.Holds reader.bytes json.string
  top : json.top = reader.top
  below : json.below = reader.below
  nested : Nested json.top json.below
  options : json.options = options
  stackMax : json.stackMax = maxDepth
  depth : json.below.length + 1 ≤ json.stackCap
  capLow : 10 ≤ json.stackCap
  capHigh : json.stackCap ≤ max 10 maxDepth
  anchored : json.input.Anchored

/-- What a call should deliver and what it delivers. -/
inductive Json.Refines (options : Options) (maxDepth : Nat) (json : Json)
    (expected : Option (Event × Reader)) (result : Option (RjsonType × Json)) : Prop
  | next {event : Event} {reader : Reader} {after : Json} (same : expected = some (event, reader))
      (gives : result = some (event.type, after))
      (text : event.type = .string ∨ event.type = .number → getString after = event.text)
      (shows : after.Shows options maxDepth reader)
      (position : json.input.position ≤ after.input.position)
      (further : event.type ≠ .done → json.input.position < after.input.position)
  | error {failed : Json} (nothing : expected = none) (gives : result = some (.error, failed))
  | overrun (nothing : expected = none) (gives : result = none)

variable (shows : json.Shows options maxDepth reader)
include shows

/-- Reading leaves the parser as it should be. -/
theorem Json.Shows.moves (moves : json.Moves after) (holds : after.Holds bytes after.string) :
    after.Shows options maxDepth { reader with bytes } where
  holds := holds
  top := moves.top.trans shows.top
  below := moves.below.trans shows.below
  nested := by
    rw [moves.top, moves.below]
    exact shows.nested
  options := moves.options.trans shows.options
  stackMax := moves.stackMax.trans shows.stackMax
  depth := by
    rw [moves.below, moves.stackCap]
    exact shows.depth
  capLow := by
    rw [moves.stackCap]
    exact shows.capLow
  capHigh := by
    rw [moves.stackCap]
    exact shows.capHigh
  anchored := moves.anchored shows.anchored

variable {start : Json} {type : RjsonType}

theorem Json.Shows.pushStack (begun : start.input.position < json.input.position)
    (container : type = .object ∨ type = .array) :
    start.Refines options maxDepth (reader.push maxDepth type) (pushStack json type) := by
  have noText : ¬(type = .string ∨ type = .number) := by
    cases container with
    | inl object => simp [object]
    | inr array => simp [array]
  have position := le_of_lt begun
  obtain ⟨holds, top, below, nested, same, stackMax, depth, capLow, capHigh, anchored⟩ := shows
  unfold Rjson.pushStack Reader.push
  rw [← below, ← top, ← stackMax]
  rw [← stackMax] at capHigh
  by_cases full : json.below.length + 1 = json.stackCap
  · rw [if_pos full]
    by_cases most : json.stackCap = json.stackMax
    · -- The stack is as large as it may become.
      rw [if_pos most, if_neg (by omega)]
      exact .error rfl rfl
    · rw [if_neg most]
      by_cases grows : json.stackCap < min (json.stackCap + 4) json.stackMax
      · rw [if_pos grows, if_pos (by omega)]
        refine .next rfl rfl (fun text => absurd text noText) ?_ position fun _ => begun
        exact ⟨⟨⟨holds.stream, holds.calm, holds.unread, holds.blocks, rfl, holds.capLow,
          holds.capHigh⟩, holds.room⟩, rfl, rfl, ⟨container, nested⟩, same, rfl,
          by simp only [List.length_cons]; omega, by dsimp only; omega, by dsimp only; omega,
          anchored⟩
      · -- The stack would have to shrink below the entries that are in use.
        rw [if_neg grows, if_neg (by omega)]
        exact .overrun rfl rfl
  · rw [if_neg full, if_pos (by omega)]
    refine .next rfl rfl (fun text => absurd text noText) ?_ position fun _ => begun
    exact ⟨⟨⟨holds.stream, holds.calm, holds.unread, holds.blocks, rfl, holds.capLow,
      holds.capHigh⟩, holds.room⟩, rfl, rfl, ⟨container, nested⟩, same, rfl,
      by simp only [List.length_cons]; omega, capLow, capHigh, anchored⟩

theorem Json.Shows.counted : Json.Shows options maxDepth
      { json with top := { json.top with count := json.top.count + 1 } } reader.counted := by
  obtain ⟨holds, top, below, nested, same, stackMax, depth, capLow, capHigh, anchored⟩ := shows
  exact ⟨⟨⟨holds.stream, holds.calm, holds.unread, holds.blocks, rfl, holds.capLow,
    holds.capHigh⟩, holds.room⟩, by simp [top, Reader.counted], below, nested.count _, same,
    stackMax, depth, capLow, capHigh, anchored⟩

theorem Json.Shows.scalar (begun : start.input.position < json.input.position)
    {found : Option (List UInt8 × List UInt8)} {result : RjsonType × Json}
    (yields : json.Yields type found result) :
    start.Refines options maxDepth (reader.scalar type found) (some result) := by
  cases yields with
  | error nothing gives =>
    rw [nothing, gives]
    exact .error rfl rfl
  | ok same gives reads holds kept =>
    have further := lt_of_lt_of_le begun kept.position
    rw [same, gives]
    exact .next rfl rfl (fun _ => reads) (shows.moves kept.moves holds) (le_of_lt further) fun _ => further

theorem Json.Shows.name (begun : start.input.position < json.input.position)
    (plain : type ≠ .string ∧ type ≠ .number) (pattern : List UInt8) :
    start.Refines options maxDepth (reader.scalar type ((scanName pattern reader.bytes).map ([], ·)))
      (some (readName type pattern json)) := by
  cases shows.holds.readName type pattern with
  | inl read =>
    obtain ⟨rest, after, scanned, gives, holds, kept⟩ := read
    have further := lt_of_lt_of_le begun kept.position
    rw [scanned, gives]
    refine .next rfl rfl ?_ (shows.moves kept.toKept.moves holds.self) (le_of_lt further) fun _ => further
    intro text
    cases text with
    | inl string => exact absurd string plain.1
    | inr number => exact absurd number plain.2
  | inr failing =>
    obtain ⟨nothing, failed, gives⟩ := failing
    rw [nothing, gives]
    exact .error rfl rfl

theorem Json.Shows.readValue
 (further : tok ≠ .eof → start.input.position < json.input.position) (last : UInt8) :
    start.Refines options maxDepth (reader.value options maxDepth tok last) (readValue json tok last) := by
  obtain rfl := shows.options
  have counted := shows.counted
  unfold Rjson.readValue Reader.value
  cases tok with
  | string => exact counted.scalar (further (by simp)) counted.holds.toReads.readString
  | number => exact counted.scalar (further (by simp)) (counted.holds.toReads.readNumber last)
  | object => exact counted.pushStack (further (by simp)) (.inl rfl)
  | array => exact counted.pushStack (further (by simp)) (.inr rfl)
  | true => exact counted.name (further (by simp)) (by simp) _
  | false => exact counted.name (further (by simp)) (by simp) _
  | null => exact counted.name (further (by simp)) (by simp) _
  | _ => exact .error rfl rfl

omit shows

theorem decision_close (decides : decision stack passedToken tok trailing = .close type) :
    (stack.type = .object ∧ tok = .objectEnd ∧ type = .objectEnd) ∨
    (stack.type = .array ∧ tok = .arrayEnd ∧ type = .arrayEnd) := by
  unfold decision at decides
  split_ifs at decides <;> simp_all

theorem decision_done (decides : decision stack passedToken tok trailing = .done) :
    tok = .eof ∧ stack.count ≠ 0 ∧ stack.type ≠ .object ∧ stack.type ≠ .array := by
  unfold decision at decides
  split_ifs at decides
  simp_all

theorem decision_doneBefore (decides : decision stack passedToken tok trailing = .doneBefore) :
    tok ≠ .eof ∧ trailing = true ∧ stack.count ≠ 0 ∧ stack.type ≠ .object ∧ stack.type ≠ .array := by
  unfold decision at decides
  split_ifs at decides
  simp_all

theorem popStack_input : (popStack json).input = json.input := by
  unfold popStack
  split <;> rfl

include shows

/-- A decision is carried out. -/
theorem Json.Shows.act (position : start.input.position ≤ json.input.position)
    (further : tok ≠ .eof → start.input.position < json.input.position ∧
      json.input.unread.length < maxSize) (last : UInt8)
    {decided : Decision} (decides : decision json.top passedToken tok trailing = decided)
    (notPass : decided ≠ .pass) :
    start.Refines options maxDepth (reader.act options maxDepth tok last decided)
      (act json tok last decided) := by
  cases decided with
  | pass => exact absurd rfl notPass
  | value => exact shows.readValue (fun more => (further more).1) last
  | close type =>
    have closes := decision_close decides
    have begun : start.input.position < json.input.position := by
      cases closes with
      | inl object => exact (further (by simp [object.2.1])).1
      | inr array => exact (further (by simp [array.2.1])).1
    have noText : ¬(type = .string ∨ type = .number) := by
      cases closes with
      | inl object => simp [object.2.2]
      | inr array => simp [array.2.2]
    refine .next rfl rfl (fun text => absurd text noText) ?_ ?_ fun _ => ?_
    · obtain ⟨holds, top, below, nested, same, stackMax, depth, capLow, capHigh, anchored⟩ := shows
      unfold popStack Reader.pop
      rw [← below]
      cases enclosing : json.below with
      | nil =>
        rw [enclosing] at nested
        have outermost : json.top.type = .done := nested
        cases closes with
        | inl object => simp [object.1] at outermost
        | inr array => simp [array.1] at outermost
      | cons outer others =>
        rw [enclosing] at nested depth
        exact ⟨⟨⟨holds.stream, holds.calm, holds.unread, holds.blocks, rfl, holds.capLow,
          holds.capHigh⟩, holds.room⟩, rfl, rfl, nested.2, same, stackMax,
          le_of_succ_le depth, capLow, capHigh, anchored⟩
    · rw [popStack_input]
      exact position
    · rw [popStack_input]
      exact begun
  | done =>
    exact .next rfl rfl (fun text => absurd text (by simp)) shows position
      fun more => absurd rfl more
  | doneBefore =>
    obtain ⟨begun, room⟩ := further (decision_doneBefore decides).1
    obtain ⟨holds, top, below, nested, same, stackMax, depth, capLow, capHigh, anchored⟩ := shows
    refine .next rfl rfl (fun text => absurd text (by simp)) ?_ (le_sub_one_of_lt begun)
      fun more => absurd rfl more
    refine ⟨⟨⟨?_, holds.calm, room, holds.blocks, rfl, holds.capLow,
      holds.capHigh⟩, holds.room⟩, top, below, nested, same, stackMax, depth, capLow, capHigh,
      ⟨anchored.counted, anchored.first⟩⟩
    rw [← holds.stream]
    rfl
  | fail text => exact .error rfl rfl
  | failToken front back => exact .error rfl rfl

omit shows

/-- A call meets a comment that is cut off where the parser takes that for the end. -/
def Reader.Misled (options : Options) (reader : Reader) : Prop :=
  reader.Torn options ∧ options.allowTrailingData = true ∧ reader.top.count ≠ 0

theorem Json.error_top (json : Json) (text : String) :
    (json.error text).top = { json.top with type := .error } := by
  unfold Json.error
  split
  · rename_i failed
    rw [← failed]
  · rfl

theorem Json.error_options (json : Json) (text : String) : (json.error text).options = json.options := by
  unfold Json.error
  split <;> rfl

theorem loopWith_error {text : String} {last : UInt8}
    (honest : ¬(json.options.allowTrailingData = true ∧ json.top.count ≠ 0)) :
    ∃ failed, loopWith fuel (json.error text) passedToken .optionalSkip last = some (.error, failed) := by
  unfold loopWith
  rw [json.error_top, json.error_options]
  by_cases empty : json.top.count = 0
  · simp only [decision, empty]
    exact ⟨_, rfl⟩
  · have strict : json.options.allowTrailingData = false := by
      rw [← Bool.not_eq_true]
      exact fun trailing => honest ⟨trailing, empty⟩
    simp only [decision, empty, strict]
    exact ⟨_, rfl⟩

theorem loopWith_misled {text : String} {last : UInt8}
    (trailing : json.options.allowTrailingData = true) (more : json.top.count ≠ 0) :
    ∃ after, loopWith fuel (json.error text) passedToken .optionalSkip last = some (.done, after) := by
  unfold loopWith
  rw [json.error_top, json.error_options]
  simp only [decision, more, trailing]
  exact ⟨_, rfl⟩

theorem loopWith_act {last : UInt8}
    (notPass : decision json.top passedToken tok json.options.allowTrailingData ≠ .pass) :
    loopWith fuel json passedToken tok last =
      act json tok last (decision json.top passedToken tok json.options.allowTrailingData) := by
  unfold loopWith
  split
  · rename_i pass
    exact absurd pass notPass
  · rfl

include shows

theorem Json.Shows.proceed (unmarked : json.Unmarked)
    (position : start.input.position ≤ json.input.position) (enough : reader.bytes.length + 1 < fuel)
    (honest : ¬(scanToken options reader.bytes = .cut ∧ options.allowTrailingData = true ∧
      reader.top.count ≠ 0))
    (notPass : ∀ tok last rest, scanToken options reader.bytes = .found tok last rest →
      decision reader.top passedToken tok options.allowTrailingData ≠ .pass) :
    start.Refines options maxDepth (reader.proceed options maxDepth passedToken)
      (nextLoop fuel json passedToken) := by
  obtain ⟨later, same, arrives⟩ := shows.holds.nextLoop enough passedToken
  have same := same unmarked
  rw [shows.options] at same
  unfold Reader.proceed
  cases arrives with
  | @token tok last rest after left scan gives holds moves further =>
    rw [shows.options, same] at scan
    have decided := notPass _ _ _ scan
    have showsAfter := shows.moves moves holds
    rw [← shows.top, ← moves.top, ← showsAfter.options] at decided
    rw [gives, loopWith_act decided, scan]
    have acts : start.Refines options maxDepth _ (Rjson.act after tok last _) :=
      showsAfter.act (le_trans position moves.position)
        (fun more => ⟨lt_of_le_of_lt position (further more).1, (further more).2.1⟩) last rfl
        decided
    rw [showsAfter.top, showsAfter.options] at acts ⊢
    exact acts
  | cut scan gives moves =>
    rw [shows.options, same] at scan
    rw [gives, scan]
    have plain : ¬(_ ∧ _) := fun both => honest ⟨scan, both⟩
    rw [← shows.options, ← moves.options, ← shows.top, ← moves.top] at plain
    obtain ⟨failed, stopped⟩ := loopWith_error plain
    rw [stopped]
    exact .error rfl rfl
  | mark marked => exact absurd unmarked marked

theorem Json.Shows.begin : Json.Shows options maxDepth
      { json with input := { json.input with inputP := json.input.position } } reader := by
  obtain ⟨holds, top, below, nested, same, stackMax, depth, capLow, capHigh, anchored⟩ := shows
  exact ⟨⟨⟨holds.stream, holds.calm, holds.unread, holds.blocks, rfl, holds.capLow,
    holds.capHigh⟩, holds.room⟩, top, below, nested, same, stackMax, depth, capLow, capHigh,
    ⟨anchored.counted, anchored.first⟩⟩

theorem Json.Shows.enough : reader.bytes.length + 1 < json.input.size + 2 := by
  rw [← shows.holds.stream]
  exact succ_lt_succ (lt_succ_of_le (Input.length_stream_le _))

/-- Where no mark is looked for, a call delivers what is expected, unless it is misled. -/
theorem Json.Shows.rjsonNext (unmarked : options.allowUtf8Bom = false ∨ 0 < json.input.position)
    (honest : ¬ reader.Misled options) :
    json.Refines options maxDepth (reader.next options maxDepth) (rjsonNext json) := by
  have begun := shows.begin
  have enough := shows.enough
  have unmarkedHere : Json.Unmarked
      { json with input := { json.input with inputP := json.input.position } } := by
    cases unmarked with
    | inl never => exact .inl (shows.options ▸ never)
    | inr later => exact .inr ⟨begun.anchored, later, later⟩
  unfold Rjson.rjsonNext
  rw [if_neg shows.nested.ne_error]
  unfold Reader.Misled Reader.Torn at honest
  unfold Reader.next
  obtain ⟨later, same, arrives⟩ := begun.holds.nextLoop enough false
  have same := same unmarkedHere
  rw [begun.options] at same
  cases arrives with
  | @token tok last rest after left scan gives holds moves further =>
    rw [begun.options, same] at scan
    rw [scan] at honest ⊢
    dsimp only at honest ⊢
    by_cases pass : decision reader.top false tok options.allowTrailingData = .pass
    · -- The separator is passed, and the next token decides.
      rw [if_pos pass]
      have showsAfter := begun.moves moves holds
      have separator : tok ≠ .eof := by
        intro eof
        exact decision_ne_pass (.inr (by simp [eof])) pass
      obtain ⟨ahead, -, fuel⟩ := further separator
      have goesOn : loopWith left after false tok last = nextLoop left after true := by
        unfold loopWith
        rw [showsAfter.top, showsAfter.options, pass]
      rw [gives, goesOn]
      exact showsAfter.proceed (moves.unmarked unmarkedHere) (le_of_lt ahead) fuel
        (fun cut => honest ⟨⟨pass, cut.1⟩, cut.2⟩) fun _ _ _ _ => decision_ne_pass (.inl rfl)
    · rw [if_neg pass]
      refine begun.proceed unmarkedHere (le_refl _) enough ?_ ?_
      · intro cut
        rw [scan] at cut
        exact absurd cut.1 (by simp)
      · intro other final others found
        rw [scan] at found
        obtain ⟨rfl, -, -⟩ := Scan.found.inj found
        exact pass
  | cut scan gives moves =>
    rw [begun.options, same] at scan
    rw [scan] at honest ⊢
    have plain : ¬(_ ∧ _) := fun both => honest ⟨trivial, both⟩
    rw [← begun.options, ← moves.options, ← begun.top, ← moves.top] at plain
    obtain ⟨failed, stopped⟩ := loopWith_error plain
    rw [gives, stopped]
    exact .error rfl rfl
  | mark marked => exact absurd unmarkedHere marked

omit shows

theorem rjsonSetup_shows {future : List (List UInt8)} (options : Options) (maxDepth : Nat)
    (blocks : ∀ block ∈ future, block ≠ [] ∧ block.length ≤ maxSize) :
    (rjsonSetup options maxDepth future).Shows options maxDepth ⟨future.flatten, ⟨.done, 0⟩, []⟩ := by
  refine ⟨⟨⟨?_, rfl, zero_le _, fun block member => (blocks block member).2, rfl, le_refl _,
    (by decide : 512 ≤ maxSize)⟩, (by decide : 0 < 512)⟩, rfl, rfl, rfl, rfl, rfl,
    (by decide : 1 ≤ 10), le_refl _, le_max_left _ _, ⟨Nat.one_pos, fun _ => rfl⟩⟩
  have all : future.takeWhile (· ≠ []) = future := by
    rw [List.takeWhile_eq_self_iff]
    intro block member
    simpa using (blocks block member).1
  show [] ++ (future.takeWhile (· ≠ [])).flatten = future.flatten
  rw [all, List.nil_append]

end Libretro.Rjson
