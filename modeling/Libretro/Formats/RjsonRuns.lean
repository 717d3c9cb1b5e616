import Libretro.Formats.RjsonReader
import Libretro.Formats.RjsonRefinement

/-! Runs of the parser up to the call that fails or is done, which has closed what was opened. -/

namespace Libretro.Rjson

open List Option

variable {options : Options} {maxDepth : Nat} {json after : Json} {reader next : Reader}

/-- What is open, from the innermost entry to the document. -/
def Reader.kinds (reader : Reader) : List RjsonType := (reader.top :: reader.below).map (·.type)

/-- A container enters the stack, its end leaves it, and all else keeps it. -/
inductive StackStep (kinds : List RjsonType) : RjsonType → List RjsonType → Prop
  | enter {type : RjsonType} (container : type = .object ∨ type = .array) :
      StackStep kinds type (type :: kinds)
  | leaveObject {outer : List RjsonType} (innermost : kinds = .object :: outer) :
      StackStep kinds .objectEnd outer
  | leaveArray {outer : List RjsonType} (innermost : kinds = .array :: outer) :
      StackStep kinds .arrayEnd outer
  | keep {type : RjsonType} (plain : type ≠ .object ∧ type ≠ .array ∧ type ≠ .objectEnd ∧
      type ≠ .arrayEnd) : StackStep kinds type kinds

theorem Reader.value_step {tok : Token} {first : UInt8} {event : Event}
    (delivers : reader.value options maxDepth tok first = some (event, next)) :
    StackStep reader.kinds event.type next.kinds ∧ event.type ≠ .done := by
  have enters : ∀ type, type = .object ∨ type = .array →
      reader.counted.push maxDepth type = some (event, next) →
      StackStep reader.kinds event.type next.kinds ∧ event.type ≠ .done := by
    intro type container pushed
    unfold Reader.push at pushed
    split at pushed
    · obtain ⟨rfl, rfl⟩ := Prod.mk.inj (some.inj pushed)
      refine ⟨.enter container, ?_⟩
      cases container with
      | inl object => simp [object]
      | inr array => simp [array]
    · exact absurd pushed (by simp)
  have keeps : ∀ type found, type = .string ∨ type = .number ∨ type = .true ∨ type = .false ∨
      type = .null → reader.counted.scalar type found = some (event, next) →
      StackStep reader.kinds event.type next.kinds ∧ event.type ≠ .done := by
    intro type found scalar read
    obtain ⟨scanned, -, same⟩ := map_eq_some_iff.mp read
    obtain ⟨rfl, rfl⟩ := Prod.mk.inj same
    have kept : StackStep reader.kinds type reader.kinds ∧ type ≠ .done := by
      rcases scalar with rfl | rfl | rfl | rfl | rfl
      all_goals exact ⟨.keep (by simp), by simp⟩
    exact kept
  unfold Reader.value at delivers
  cases tok with
  | string => exact keeps _ _ (by simp) delivers
  | number => exact keeps _ _ (by simp) delivers
  | object => exact enters _ (.inl rfl) delivers
  | array => exact enters _ (.inr rfl) delivers
  | true => exact keeps _ _ (by simp) delivers
  | false => exact keeps _ _ (by simp) delivers
  | null => exact keeps _ _ (by simp) delivers
  | _ => exact absurd delivers (by simp)

theorem Reader.proceed_step {passedToken : Bool} {event : Event} (nested : Nested reader.top reader.below)
    (delivers : reader.proceed options maxDepth passedToken = some (event, next)) :
    StackStep reader.kinds event.type next.kinds ∧ (event.type = .done → reader.kinds = [.done] ∧
        ∃ tok last rest, scanToken options reader.bytes = .found tok last rest ∧
          (tok = .eof ∨ options.allowTrailingData = true) ∧ reader.top.count ≠ 0) := by
  have outermost : reader.top.type ≠ .object → reader.top.type ≠ .array → reader.kinds = [.done] := by
    intro notObject notArray
    unfold Reader.kinds
    cases below : reader.below with
    | nil =>
      rw [below] at nested
      have done : reader.top.type = .done := nested
      simp [done]
    | cons outer others =>
      rw [below] at nested
      exact absurd nested.1 (by simp [notObject, notArray])
  unfold Reader.proceed at delivers
  cases scan : scanToken options reader.bytes with
  | cut => simp [scan] at delivers
  | found tok last rest =>
    simp only [scan] at delivers
    cases decides : decision reader.top passedToken tok options.allowTrailingData with
    | value =>
      rw [decides] at delivers
      obtain ⟨step, notDone⟩ := value_step delivers
      exact ⟨step, fun done => absurd done notDone⟩
    | close type =>
      rw [decides] at delivers
      obtain ⟨rfl, rfl⟩ := Prod.mk.inj (some.inj delivers)
      have closes := decision_close decides
      cases below : reader.below with
      | nil =>
        rw [below] at nested
        have done : reader.top.type = .done := nested
        cases closes with
        | inl object => simp [object.1] at done
        | inr array => simp [array.1] at done
      | cons outer others =>
        cases closes with
        | inl object =>
          obtain ⟨kind, -, rfl⟩ := object
          refine ⟨.leaveObject ?_, by simp⟩
          simp [kinds, pop, below, kind]
        | inr array =>
          obtain ⟨kind, -, rfl⟩ := array
          refine ⟨.leaveArray ?_, by simp⟩
          simp [kinds, pop, below, kind]
    | done =>
      rw [decides] at delivers
      obtain ⟨rfl, rfl⟩ := Prod.mk.inj (some.inj delivers)
      obtain ⟨eof, count, notObject, notArray⟩ := decision_done decides
      exact ⟨.keep (by simp), fun _ => ⟨outermost notObject notArray, tok, last, rest, rfl,
        .inl eof, count⟩⟩
    | doneBefore =>
      rw [decides] at delivers
      obtain ⟨rfl, rfl⟩ := Prod.mk.inj (some.inj delivers)
      obtain ⟨-, trailing, count, notObject, notArray⟩ := decision_doneBefore decides
      exact ⟨.keep (by simp), fun _ => ⟨outermost notObject notArray, tok, last, rest, rfl,
        .inr trailing, count⟩⟩
    | pass => simp [decides, act] at delivers
    | fail text => simp [decides, act] at delivers
    | failToken front back => simp [decides, act] at delivers

theorem decision_pass {stack : Frame} {passedToken trailing : Bool} {tok : Token}
    (decides : decision stack passedToken tok trailing = .pass) :
    stack.type = .object ∨ stack.type = .array := by
  unfold decision at decides
  split_ifs at decides <;> simp_all

theorem Reader.next_step {event : Event} (nested : Nested reader.top reader.below)
    (delivers : reader.next options maxDepth = some (event, next)) :
    StackStep reader.kinds event.type next.kinds ∧ (event.type = .done → reader.kinds = [.done] ∧
        ∃ tok last rest, scanToken options reader.bytes = .found tok last rest ∧
          (tok = .eof ∨ options.allowTrailingData = true) ∧ reader.top.count ≠ 0) := by
  unfold Reader.next at delivers
  cases scan : scanToken options reader.bytes with
  | cut => simp [scan] at delivers
  | found tok last rest =>
    rw [scan] at delivers
    dsimp only at delivers
    split at delivers
    · rename_i pass
      have proceeds := @proceed_step _ _ { reader with bytes := rest } _ _ _ nested delivers
      refine ⟨proceeds.1, fun done => ?_⟩
      -- Outside all containers there is no separator to pass.
      have outermost := (proceeds.2 done).1
      have kind : reader.top.type = .done := (List.cons.inj outermost).1
      cases decision_pass pass with
      | inl object => simp [object] at kind
      | inr array => simp [array] at kind
    · have proceeds := proceed_step nested delivers
      rw [scan] at proceeds
      exact proceeds

theorem loopWith_fresh {fuel : Nat} {passedToken : Bool} {last : UInt8}
    (outermost : json.top.type ≠ .object ∧ json.top.type ≠ .array) (none : json.top.count = 0) :
    ∃ failed, loopWith fuel json passedToken .optionalSkip last = some (.error, failed) := by
  unfold loopWith
  simp only [decision, outermost.1, outermost.2, none]
  exact ⟨_, rfl⟩

theorem Json.Shows.firstCall (shows : json.Shows options maxDepth reader) (fresh : reader.top = ⟨.done, 0⟩) :
    (∃ failed, Rjson.rjsonNext json = some (.error, failed)) ∨ ∃ later, json.Refines options maxDepth
      ({ reader with bytes := later }.proceed options maxDepth false) (Rjson.rjsonNext json) := by
  have begun := shows.begin
  have enough := shows.enough
  have notPass : ∀ tok, decision ⟨.done, 0⟩ false tok options.allowTrailingData ≠ .pass := by
    intro tok pass
    exact absurd (decision_pass pass) (by simp)
  unfold Rjson.rjsonNext
  rw [if_neg shows.nested.ne_error]
  obtain ⟨later, -, arrives⟩ := begun.holds.nextLoop enough false
  cases arrives with
  | @token tok last rest after left scan gives holds moves further =>
    rw [begun.options] at scan
    have showsAfter := begun.moves moves holds
    have decided := notPass tok
    rw [← fresh, ← showsAfter.top, ← showsAfter.options] at decided
    refine .inr ⟨later, ?_⟩
    unfold Reader.proceed
    rw [gives, loopWith_act decided, scan]
    have position : json.input.position ≤ after.input.position := moves.position
    have ahead : tok ≠ .eof → json.input.position < after.input.position ∧
        after.input.unread.length < maxSize := fun more => ⟨(further more).1, (further more).2.1⟩
    have acts : json.Refines options maxDepth _ (Rjson.act after tok last _) :=
      showsAfter.act position ahead last rfl decided
    rw [showsAfter.top, showsAfter.options] at acts ⊢
    exact acts
  | @cut last after text left scan gives moves =>
    have none : after.top.count = 0 := by rw [moves.top, begun.top, fresh]
    obtain ⟨failed, stopped⟩ := @loopWith_error after false left text last fun both => both.2 none
    exact .inl ⟨failed, gives.trans stopped⟩
  | @mark last after next left marked gives moves same =>
    have kept : after.top = ⟨.done, 0⟩ := by rw [moves.top, begun.top, fresh]
    have outermost : (next.top.type ≠ .object ∧ next.top.type ≠ .array) ∧ next.top.count = 0 := by
      cases same with
      | inl plain => simp [plain, kept]
      | inr recorded =>
        obtain ⟨text, rfl⟩ := recorded
        simp [Json.error_top, kept]
    obtain ⟨failed, stopped⟩ := @loopWith_fresh next left false last outermost.1 outermost.2
    exact .inl ⟨failed, gives.trans stopped⟩

/-- The elements that a run of calls has delivered, each call made where it is allowed. -/
inductive Calls (allowed : Json → Prop) (first : Json) : List RjsonType → Json → Prop
  | start : Calls allowed first [] first
  | call {types : List RjsonType} {json after : Json} {type : RjsonType}
      (calls : Calls allowed first types json) (meets : allowed json)
      (delivers : rjsonNext json = some (type, after)) : Calls allowed first (types ++ [type]) after

/-- The next call runs into an unfinished comment where data may follow and an element is there. -/
def Json.MeetsCut (json : Json) : Prop :=
  json.options.allowComments = true ∧ json.options.allowTrailingData = true ∧ json.top.count ≠ 0 ∧
    (CutComment json.input.stream ∨
      ∃ gap separator rest, json.input.stream = gap ++ separator :: rest ∧ Gap true gap ∧
        decision json.top false (tokenLut separator) true = .pass ∧ CutComment rest)

/-- What a parser that is done has delivered and read. -/
structure Complete (types : List RjsonType) (json : Json) : Prop where
  closed : json.below = []
  objects : types.count .object = types.count .objectEnd
  arrays : types.count .array = types.count .arrayEnd
  read : ∃ gap rest, json.input.stream = gap ++ rest ∧ Gap json.options.allowComments gap ∧
    (rest = [] ∨ json.options.allowTrailingData = true)
  uncut : json.options.allowComments = true → ¬ CutComment json.input.stream

theorem Json.Shows.meetsCut (shows : json.Shows options maxDepth reader)
    (misled : reader.Misled options) : json.MeetsCut := by
  obtain ⟨torn, trailing, count⟩ := misled
  unfold Reader.Torn at torn
  unfold Json.MeetsCut
  rw [shows.options, shows.top, shows.holds.stream]
  have first := scanToken_meets options reader.bytes
  cases scan : scanToken options reader.bytes with
  | cut =>
    rw [scan] at first
    cases first with
    | cut allowed cut => exact ⟨allowed, trailing, count, .inl cut⟩
  | found tok last rest =>
    rw [scan] at first torn
    obtain ⟨pass, hidden⟩ := torn
    have second := scanToken_meets options rest
    rw [hidden] at second
    cases second with
    | cut allowed cut =>
      rw [trailing] at pass
      refine ⟨allowed, trailing, count, .inr ?_⟩
      cases first with
      | ended gap => exact absurd pass (decision_ne_pass (.inr (by simp)))
      | slash skipped whole => exact absurd pass (decision_ne_pass (.inr (by simp)))
      | token skipped whole =>
        rw [allowed] at skipped
        exact ⟨_, _, _, whole, skipped, pass, cut⟩

/-- Every container that was delivered is closed, or still open. -/
structure Balanced (types kinds : List RjsonType) : Prop where
  objects : types.count .object = types.count .objectEnd + kinds.count .object
  arrays : types.count .array = types.count .arrayEnd + kinds.count .array

theorem Balanced.step {types kinds after : List RjsonType} {type : RjsonType}
    (balanced : Balanced types kinds) (step : StackStep kinds type after) :
    Balanced (types ++ [type]) after := by
  obtain ⟨objects, arrays⟩ := balanced
  cases step with
  | enter container =>
    cases container with
    | inl object =>
      subst object
      constructor
      all_goals
        simp [count_append]
        omega
    | inr array =>
      subst array
      constructor
      all_goals
        simp [count_append]
        omega
  | leaveObject innermost =>
    subst innermost
    simp at objects arrays
    constructor
    all_goals
      simp [count_append]
      omega
  | leaveArray innermost =>
    subst innermost
    simp at objects arrays
    constructor
    all_goals
      simp [count_append]
      omega
  | keep plain =>
    obtain ⟨notObject, notArray, notObjectEnd, notArrayEnd⟩ := plain
    constructor
    all_goals
      simp [count_append, notObject, notArray, notObjectEnd, notArrayEnd]
      omega

/-- Where a run is: what is open balances what was delivered, and only at first nothing is read. -/
structure Json.Ongoing (options : Options) (maxDepth : Nat) (types : List RjsonType) (json : Json)
    (reader : Reader) : Prop where
  shows : json.Shows options maxDepth reader
  balanced : Balanced types reader.kinds
  started : 0 < json.input.position ∨ (reader.top = ⟨.done, 0⟩ ∧ reader.below = [])

theorem Json.Ongoing.call {types : List RjsonType} {type : RjsonType}
    (ongoing : json.Ongoing options maxDepth types reader) (honest : ¬ json.MeetsCut)
    (delivers : rjsonNext json = some (type, after)) (noError : type ≠ .error) :
    ∃ next, after.Ongoing options maxDepth (types ++ [type]) next := by
  obtain ⟨shows, balanced, started⟩ := ongoing
  have nested : Nested reader.top reader.below := by
    rw [← shows.top, ← shows.below]
    exact shows.nested
  cases started with
  | inl position =>
    have refines := shows.rjsonNext (.inr position) fun misled => honest (shows.meetsCut misled)
    rw [delivers] at refines
    cases refines with
    | next same gives text showsAfter later further =>
      obtain ⟨rfl, rfl⟩ := Prod.mk.inj (some.inj gives)
      have step := (Reader.next_step nested same).1
      exact ⟨_, showsAfter, balanced.step step, .inl (Nat.lt_of_lt_of_le position later)⟩
    | error nothing gives => exact absurd (Prod.mk.inj (some.inj gives)).1 noError
    | overrun nothing gives => exact absurd gives (by simp)
  | inr fresh =>
    cases shows.firstCall fresh.1 with
    | inl failing =>
      obtain ⟨failed, gives⟩ := failing
      rw [delivers] at gives
      exact absurd (Prod.mk.inj (some.inj gives)).1 noError
    | inr delivering =>
      obtain ⟨later, refines⟩ := delivering
      rw [delivers] at refines
      cases refines with
      | next same gives text showsAfter position further =>
        obtain ⟨rfl, rfl⟩ := Prod.mk.inj (some.inj gives)
        have step := @Reader.proceed_step _ _ { reader with bytes := later } _ _ _ nested same
        refine ⟨_, showsAfter, balanced.step step.1, .inl ?_⟩
        refine Nat.lt_of_le_of_lt (Nat.zero_le _) (further fun done => ?_)
        -- The parser is not done before its first element.
        obtain ⟨-, -, -, -, -, -, count⟩ := step.2 done
        exact count (by simp [fresh.1])
      | error nothing gives => exact absurd (Prod.mk.inj (some.inj gives)).1 noError
      | overrun nothing gives => exact absurd gives (by simp)

theorem Calls.ongoing {types : List RjsonType} {first : Json}
    (calls : Calls (fun json => ¬ json.MeetsCut) first types json)
    (starts : first.Ongoing options maxDepth [] reader) (noError : RjsonType.error ∉ types) :
    ∃ next, json.Ongoing options maxDepth types next := by
  -- The run is followed call by call.
  induction calls with
  | start => exact ⟨reader, starts⟩
  | call calls meets delivers ih =>
    rw [mem_append, mem_singleton, not_or] at noError
    obtain ⟨here, ongoing⟩ := ih noError.1
    exact ongoing.call meets delivers (Ne.symm noError.2)

theorem rjsonSetup_ongoing (options : Options) (maxDepth : Nat) {future : List (List UInt8)}
    (blocks : ∀ block ∈ future, block ≠ [] ∧ block.length ≤ maxSize) :
    (rjsonSetup options maxDepth future).Ongoing options maxDepth [] ⟨future.flatten, ⟨.done, 0⟩, []⟩ :=
  ⟨rjsonSetup_shows options maxDepth blocks, ⟨rfl, rfl⟩, .inr ⟨rfl, rfl⟩⟩

theorem Json.Ongoing.done {types : List RjsonType}
    (ongoing : json.Ongoing options maxDepth types reader) (honest : ¬ json.MeetsCut)
    (done : rjsonNext json = some (.done, after)) :
    reader.kinds = [.done] ∧ ∃ tok last rest, scanToken options reader.bytes = .found tok last rest ∧
        (tok = .eof ∨ options.allowTrailingData = true) := by
  obtain ⟨shows, balanced, started⟩ := ongoing
  have nested : Nested reader.top reader.below := by
    rw [← shows.top, ← shows.below]
    exact shows.nested
  cases started with
  | inl position =>
    have refines := shows.rjsonNext (.inr position) fun misled => honest (shows.meetsCut misled)
    rw [done] at refines
    cases refines with
    | next same gives text showsAfter later further =>
      have isDone := (Prod.mk.inj (some.inj gives)).1.symm
      obtain ⟨closed, tok, last, rest, found, allowed, -⟩ := (Reader.next_step nested same).2 isDone
      exact ⟨closed, tok, last, rest, found, allowed⟩
    | error nothing gives => exact absurd (Prod.mk.inj (some.inj gives)).1 (by simp)
    | overrun nothing gives => exact absurd gives (by simp)
  | inr fresh =>
    cases shows.firstCall fresh.1 with
    | inl failing =>
      obtain ⟨failed, gives⟩ := failing
      rw [done] at gives
      exact absurd (Prod.mk.inj (some.inj gives)).1 (by simp)
    | inr delivering =>
      obtain ⟨later, refines⟩ := delivering
      rw [done] at refines
      cases refines with
      | next same gives text showsAfter position further =>
        have isDone := (Prod.mk.inj (some.inj gives)).1.symm
        have step := @Reader.proceed_step _ _ { reader with bytes := later } _ _ _ nested same
        obtain ⟨-, -, -, -, -, -, count⟩ := step.2 isDone
        exact absurd (by simp [fresh.1]) count
      | error nothing gives => exact absurd (Prod.mk.inj (some.inj gives)).1 (by simp)
      | overrun nothing gives => exact absurd gives (by simp)

/-- A run in which no call meets an unfinished comment is complete whenever the parser is done. -/
theorem calls_complete (options : Options) (maxDepth : Nat) {future : List (List UInt8)}
    (blocks : ∀ block ∈ future, block ≠ [] ∧ block.length ≤ maxSize) {types : List RjsonType}
    (calls : Calls (fun json => ¬ json.MeetsCut) (rjsonSetup options maxDepth future) types json)
    (noError : RjsonType.error ∉ types) (meets : ¬ json.MeetsCut)
    (done : rjsonNext json = some (.done, after)) : Complete types json := by
  obtain ⟨reader, ongoing⟩ := calls.ongoing (rjsonSetup_ongoing options maxDepth blocks) noError
  obtain ⟨kinds, tok, last, rest, found, allowed⟩ := ongoing.done meets done
  obtain ⟨shows, balanced, -⟩ := ongoing
  have closed : reader.below = [] := by
    have others := (List.cons.inj kinds).2
    exact map_eq_nil_iff.mp others
  have first := scanToken_meets options reader.bytes
  rw [found] at first
  refine ⟨shows.below.trans closed, ?_, ?_, ?_, ?_⟩
  · have objects := balanced.objects
    rw [kinds] at objects
    simpa using objects
  · have arrays := balanced.arrays
    rw [kinds] at arrays
    simpa using arrays
  · rw [shows.holds.stream, shows.options]
    cases first with
    | ended gap => exact ⟨_, [], (append_nil _).symm, gap, .inl rfl⟩
    | token skipped whole =>
      refine ⟨_, _, whole, skipped, ?_⟩
      cases allowed with
      | inl eof => exact absurd eof (tokenLut_ne_eof _)
      | inr trailing => exact .inr trailing
    | slash skipped whole =>
      refine ⟨_, _, whole, skipped, ?_⟩
      cases allowed with
      | inl eof => exact absurd eof (by simp)
      | inr trailing => exact .inr trailing
  · rw [shows.holds.stream, shows.options]
    intro comments cut
    rw [scanToken_cut comments cut] at found
    exact absurd found (by simp)

/-- An array with one element is complete. -/
theorem calls_complete_array :
    ∃ json, Calls (fun json => ¬ json.MeetsCut) (rjsonSetup {} 50 [[0x5B, 0x31, 0x5D]])
        [.array, .number, .arrayEnd] json ∧
      Complete [.array, .number, .arrayEnd] json := by
  have honest : ∀ json : Json, json.options = {} → ¬ json.MeetsCut := by
    intro json none cut
    have allowed := cut.1
    rw [none] at allowed
    exact absurd allowed (by decide)
  have calls : Calls (fun json => ¬ json.MeetsCut) (rjsonSetup {} 50 [[0x5B, 0x31, 0x5D]])
      ([] ++ [.array] ++ [.number] ++ [.arrayEnd]) _ :=
    .call (.call (.call .start (honest _ rfl) rfl) (honest _ rfl) rfl) (honest _ rfl) rfl
  exact ⟨_, calls, calls_complete {} 50 (by decide) calls (by decide) (honest _ rfl) rfl⟩

/-- After an unfinished comment in an array the parser is done, with the array still open. -/
theorem calls_incomplete : ∃ types json after, Calls (fun _ => True)
        (rjsonSetup { allowComments := true, allowTrailingData := true } 50
          [[0x5B, 0x31, 0x2F, 0x2A]]) types json ∧
      RjsonType.error ∉ types ∧ rjsonNext json = some (.done, after) ∧ ¬ Complete types json := by
  refine ⟨[] ++ [.array] ++ [.number], _, _, .call (.call .start trivial rfl) trivial rfl,
    by decide, rfl, fun complete => ?_⟩
  exact absurd complete.arrays (by decide)

variable {json other after : Json} {reader : Reader} {options : Options} {maxDepth : Nat}
  {events : List Event} {bytes string : List UInt8}

/-- What the caller sees of an element: strings and numbers are asked for. -/
def seen (type : RjsonType) (after : Json) : Event :=
  ⟨type, if type = .string ∨ type = .number then getString after else []⟩

/-- What repeated calls deliver, up to the one that is done or fails. -/
inductive Json.Runs : Json → List Event → RjsonType → Prop
  | last {json after : Json} {final : RjsonType} (delivers : rjsonNext json = some (final, after))
      (ends : final = .done ∨ final = .error) : Json.Runs json [] final
  | next {json after : Json} {type final : RjsonType} {events : List Event}
      (delivers : rjsonNext json = some (type, after)) (more : type ≠ .done)
      (noError : type ≠ .error) (rest : Json.Runs after events final) :
      Json.Runs json (seen type after :: events) final

theorem pushStack_ne_none {type : RjsonType} (roomy : json.stackCap ≤ json.stackMax) :
    pushStack json type ≠ none := by
  unfold pushStack
  dsimp only
  split
  · split
    · simp
    · -- There are fewer entries than there may be, so that more are added.
      rw [if_pos (by omega)]
      simp
  · simp

theorem act_ne_none {tok : Token} {last : UInt8} {decided : Decision}
    (roomy : json.stackCap ≤ json.stackMax) (notPass : decided ≠ .pass) :
    act json tok last decided ≠ none := by
  cases decided with
  | pass => exact absurd rfl notPass
  | value =>
    simp only [act, readValue]
    cases tok with
    | object => exact pushStack_ne_none roomy
    | array => exact pushStack_ne_none roomy
    | _ => simp
  | close type => simp [act]
  | done => simp [act]
  | doneBefore => simp [act]
  | fail text => simp [act]
  | failToken front back => simp [act]

theorem loopWith_ne_none {fuel : Nat} {passedToken : Bool} {tok : Token} {last : UInt8}
    (roomy : json.stackCap ≤ json.stackMax)
    (notPass : decision json.top passedToken tok json.options.allowTrailingData ≠ .pass) :
    loopWith fuel json passedToken tok last ≠ none := by
  rw [loopWith_act notPass]
  exact act_ne_none roomy notPass

theorem Json.error_stack (json : Json) (text : String) :
    (json.error text).stackCap = json.stackCap ∧ (json.error text).stackMax = json.stackMax := by
  unfold Json.error
  split <;> exact ⟨rfl, rfl⟩

theorem Json.Holds.loop_ne_none {fuel : Nat} {passedToken : Bool}
    (holds : json.Holds bytes string) (enough : bytes.length + 1 < fuel)
    (roomy : json.stackCap ≤ json.stackMax)
    (goesOn : ∀ (after : Json) (tok : Token) (last : UInt8) (rest : List UInt8) (left : Nat),
      after.stackCap ≤ after.stackMax → after.Holds rest after.string → rest.length + 1 < left →
      loopWith left after passedToken tok last ≠ none) :
    Rjson.nextLoop fuel json passedToken ≠ none := by
  obtain ⟨later, -, arrives⟩ := holds.nextLoop enough passedToken
  cases arrives with
  | @token tok last rest after left scan gives holdsAfter moves further =>
    have roomyAfter : after.stackCap ≤ after.stackMax := by
      rw [moves.stackCap, moves.stackMax]
      exact roomy
    rw [gives]
    by_cases ended : tok = .eof
    · -- The end is no separator.
      exact loopWith_ne_none roomyAfter (decision_ne_pass (.inr (by simp [ended])))
    · exact goesOn after tok last rest left roomyAfter holdsAfter (further ended).2.2
  | @cut last after text left scan gives moves =>
    obtain ⟨sameCap, sameMax⟩ := after.error_stack text
    rw [gives]
    apply loopWith_ne_none _ (decision_ne_pass (.inr (by simp)))
    rw [sameCap, sameMax, moves.stackCap, moves.stackMax]
    exact roomy
  | @mark last after next left marked gives moves same =>
    have stack : next.stackCap = after.stackCap ∧ next.stackMax = after.stackMax := by
      cases same with
      | inl plain => exact ⟨congrArg _ plain, congrArg _ plain⟩
      | inr recorded =>
        obtain ⟨text, rfl⟩ := recorded
        exact after.error_stack text
    rw [gives]
    apply loopWith_ne_none _ (decision_ne_pass (.inr (by simp)))
    rw [stack.1, stack.2, moves.stackCap, moves.stackMax]
    exact roomy

variable (shows : json.Shows options maxDepth reader)
include shows

/-- A call ends, and writes nowhere outside its stack. -/
theorem Json.Shows.next_ne_none (deep : 10 ≤ maxDepth) : Rjson.rjsonNext json ≠ none := by
  have roomy : json.stackCap ≤ json.stackMax := by
    have limit := shows.capHigh
    rw [Nat.max_eq_right deep] at limit
    rw [shows.stackMax]
    exact limit
  have begun := shows.begin
  have enough := shows.enough
  unfold Rjson.rjsonNext
  rw [if_neg shows.nested.ne_error]
  refine begun.holds.loop_ne_none enough roomy ?_
  intro after tok last rest left roomyAfter holds enoughAfter
  by_cases pass : decision after.top false tok after.options.allowTrailingData = .pass
  · -- Behind one separator there is no second one.
    have goesOn : loopWith left after false tok last = nextLoop left after true := by
      unfold loopWith
      rw [pass]
    rw [goesOn]
    refine holds.loop_ne_none enoughAfter roomyAfter ?_
    intro final tok last rest left roomyFinal _ _
    exact loopWith_ne_none roomyFinal (decision_ne_pass (.inl rfl))
  · exact loopWith_ne_none roomyAfter pass

theorem Json.Shows.loop_misled {fuel : Nat} {passedToken : Bool} (unmarked : json.Unmarked)
    (enough : reader.bytes.length + 1 < fuel) (cut : scanToken options reader.bytes = .cut)
    (trailing : options.allowTrailingData = true) (more : reader.top.count ≠ 0) :
    ∃ after, nextLoop fuel json passedToken = some (.done, after) := by
  obtain ⟨later, same, arrives⟩ := shows.holds.nextLoop enough passedToken
  have same := same unmarked
  rw [shows.options, cut] at same
  cases arrives with
  | token scan gives holds moves further =>
    rw [shows.options, same] at scan
    exact absurd scan (by simp)
  | cut scan gives moves =>
    rw [← shows.options, ← moves.options] at trailing
    rw [← shows.top, ← moves.top] at more
    rw [gives]
    exact loopWith_misled trailing more
  | mark marked => exact absurd unmarked marked

theorem Json.Shows.next_misled (started : 0 < json.input.position) (misled : reader.Misled options) :
    ∃ after, Rjson.rjsonNext json = some (.done, after) := by
  have begun := shows.begin
  have enough := shows.enough
  have unmarkedHere : Json.Unmarked
      { json with input := { json.input with inputP := json.input.position } } :=
    .inr ⟨begun.anchored, started, started⟩
  obtain ⟨torn, trailing, more⟩ := misled
  unfold Rjson.rjsonNext
  rw [if_neg shows.nested.ne_error]
  unfold Reader.Torn at torn
  cases scanned : scanToken options reader.bytes with
  | cut => exact begun.loop_misled unmarkedHere enough scanned trailing more
  | found tok last rest =>
    -- A separator is passed before the comment.
    rw [scanned] at torn
    obtain ⟨later, same, arrives⟩ := begun.holds.nextLoop enough false
    have same := same unmarkedHere
    rw [begun.options, scanned] at same
    cases arrives with
    | @token tok last rest after left scan gives holds moves further =>
      rw [begun.options, same] at scan
      obtain ⟨rfl, rfl, rfl⟩ := Scan.found.inj scan
      have showsAfter := begun.moves moves holds
      have goesOn : loopWith left after false tok last = nextLoop left after true := by
        unfold loopWith
        rw [showsAfter.top, showsAfter.options, torn.1]
      have separator : tok ≠ .eof := by
        intro eof
        exact decision_ne_pass (.inr (by simp [eof])) torn.1
      rw [gives, goesOn]
      exact showsAfter.loop_misled (moves.unmarked unmarkedHere) (further separator).2.2 torn.2 trailing more
    | cut scan gives moves =>
      rw [begun.options, same] at scan
      exact absurd scan (by simp)
    | mark marked => exact absurd unmarkedHere marked

omit shows

theorem seen_same {event : Event}
    (text : event.type = .string ∨ event.type = .number → getString json = event.text)
    (otherText : event.type = .string ∨ event.type = .number → getString other = event.text) :
    seen event.type json = seen event.type other := by
  unfold seen
  split <;> rename_i textual
  · rw [text textual, otherText textual]
  · rfl

/-- Two calls that should deliver the same do so, and the parsers go on alike. -/
inductive Json.Agree (options : Options) (maxDepth : Nat) (json other : Json) : Prop
  | last {final : RjsonType} {after otherAfter : Json} (gives : rjsonNext json = some (final, after))
      (otherGives : rjsonNext other = some (final, otherAfter))
      (ends : final = .done ∨ final = .error)
  | next {type : RjsonType} {after otherAfter : Json} {reader : Reader}
      (gives : rjsonNext json = some (type, after))
      (otherGives : rjsonNext other = some (type, otherAfter))
      (same : seen type after = seen type otherAfter)
      (shows : after.Shows options maxDepth reader)
      (otherShows : otherAfter.Shows options maxDepth reader)
      (started : 0 < after.input.position) (otherStarted : 0 < otherAfter.input.position)

/-- Two calls that refine one expectation agree. -/
theorem Json.Refines.agree {expected : Option (Event × Reader)}
    (refines : json.Refines options maxDepth expected (Rjson.rjsonNext json))
    (otherRefines : other.Refines options maxDepth expected (Rjson.rjsonNext other))
    (ends : Rjson.rjsonNext json ≠ none) (otherEnds : Rjson.rjsonNext other ≠ none) :
    json.Agree options maxDepth other := by
  cases refines with
  | overrun nothing gives => exact absurd gives ends
  | error nothing gives =>
    cases otherRefines with
    | next same => exact absurd (nothing.symm.trans same) (by simp)
    | error _ otherGives => exact .last gives otherGives (.inr rfl)
    | overrun _ otherGives => exact absurd otherGives otherEnds
  | @next event reader after same gives text shows position further =>
    cases otherRefines with
    | error nothing => exact absurd (nothing.symm.trans same) (by simp)
    | overrun _ otherGives => exact absurd otherGives otherEnds
    | next otherSame otherGives otherText otherShows otherPosition otherFurther =>
      obtain ⟨rfl, rfl⟩ := Prod.mk.inj (some.inj (same.symm.trans otherSame))
      by_cases done : event.type = .done
      · rw [done] at gives otherGives
        exact .last gives otherGives (.inl rfl)
      · exact .next gives otherGives (seen_same text otherText) shows otherShows
          (Nat.lt_of_le_of_lt (Nat.zero_le _) (further done))
          (Nat.lt_of_le_of_lt (Nat.zero_le _) (otherFurther done))

include shows

theorem Json.Shows.agree (otherShows : other.Shows options maxDepth reader) (deep : 10 ≤ maxDepth)
    (started : 0 < json.input.position) (otherStarted : 0 < other.input.position) :
    json.Agree options maxDepth other := by
  by_cases misled : reader.Misled options
  · obtain ⟨after, gives⟩ := shows.next_misled started misled
    obtain ⟨otherAfter, otherGives⟩ := otherShows.next_misled otherStarted misled
    exact .last gives otherGives (.inl rfl)
  · exact (shows.rjsonNext (.inr started) misled).agree
      (otherShows.rjsonNext (.inr otherStarted) misled) (shows.next_ne_none deep)
      (otherShows.next_ne_none deep)

omit shows

/-- Parsers whose next calls agree deliver the same. -/
theorem Json.Runs.transfer {final : RjsonType} (runs : json.Runs events final)
    (deep : 10 ≤ maxDepth) (agree : json.Agree options maxDepth other) :
    other.Runs events final := by
  -- The run is followed call by call, both parsers being where the other one is.
  induction runs generalizing other with
  | last delivers ends =>
    cases agree with
    | last gives otherGives =>
      obtain ⟨rfl, rfl⟩ := Prod.mk.inj (some.inj (delivers.symm.trans gives))
      exact .last otherGives ends
    | next gives otherGives =>
      obtain ⟨rfl, rfl⟩ := Prod.mk.inj (some.inj (delivers.symm.trans gives))
      exact .last otherGives ends
  | next delivers more noError rest ih =>
    cases agree with
    | last gives otherGives ends =>
      obtain ⟨rfl, rfl⟩ := Prod.mk.inj (some.inj (delivers.symm.trans gives))
      exact absurd ends (by simp [more, noError])
    | next gives otherGives same shows otherShows started otherStarted =>
      obtain ⟨rfl, rfl⟩ := Prod.mk.inj (some.inj (delivers.symm.trans gives))
      rw [same]
      exact .next otherGives more noError (ih (shows.agree otherShows deep started otherStarted))

open Nat

variable {json after : Json} {bytes rest string : List UInt8} {c : UInt8} {options : Options}
  {maxDepth behind ahead : Nat} {firstLine : Bool} {reader : Reader}

/-- How far the input is when bytes are ahead, some of them behind its first block. -/
inductive Input.Leads (behind ahead : Nat) (input : Input) : Prop
  | fresh (start : input.position = 0) (here : input.inputP = 0) (empty : input.unread = [])
      (split : (if input.ended then [] else input.future.headD []).length + behind = ahead)
  | inside (here : input.inputP = 0) (more : input.unread = [] → 0 < input.position)
      (split : input.unread.length + behind = ahead)
  | past (later : 0 < input.inputP) (started : 0 < input.position) (short : ahead ≤ behind)

theorem Input.Leads.line {input : Input} {sourceLine sourceColumnP : Nat} (leads : input.Leads behind ahead) :
    Input.Leads behind ahead { input with sourceLine, sourceColumnP } := by
  cases leads with
  | fresh start here empty split => exact .fresh start here empty split
  | inside here more split => exact .inside here more split
  | past later started short => exact .past later started short

theorem Json.error_input (json : Json) (text : String) : (json.error text).input = json.input := by
  unfold Json.error
  split <;> rfl

theorem ioInput_input : (ioInput json).input = if json.input.ended then json.input
    else match json.input.future with
      | [] => { json.input with inputP := json.input.position, unread := [], ended := true }
      | block :: later => { json.input with
          inputP := json.input.position, unread := block, future := later, ended := block = [] } := by
  unfold ioInput
  split
  · rfl
  · cases json.input.future with
    | nil =>
      dsimp only
      split
      · rw [Json.error_input]
      · rfl
    | cons block later => rfl

theorem Json.filled_leads (leads : json.input.Leads behind ahead) : json.filled.input.Leads behind ahead := by
  unfold Json.filled
  split
  · rename_i empty
    rw [ioInput_input]
    split
    · exact leads
    · rename_i goesOn
      rw [Bool.not_eq_true] at goesOn
      cases leads with
      | fresh start here _ split =>
        -- The first block is there now, or it turned out to be none.
        rw [goesOn] at split
        cases future : json.input.future with
        | nil =>
          rw [future] at split
          exact .fresh start start rfl split
        | cons block later =>
          rw [future] at split
          by_cases none : block = []
          · subst none
            exact .fresh start start rfl split
          · exact .inside start (fun empty => absurd empty none) split
      | inside here more split =>
        have started := more empty
        rw [empty, List.length_nil] at split
        have short : ahead ≤ behind := by omega
        cases json.input.future <;> exact .past started started short
      | past later started short =>
        cases json.input.future <;> exact .past started started short
  · exact leads

theorem Json.advance_leads (leads : json.input.Leads behind (ahead + 1))
    (unread : json.input.unread = c :: rest) :
    (json.advance rest).input.Leads behind ahead ∧
      ((json.advance rest).input.inputP = 0 ↔ behind ≤ ahead) := by
  cases leads with
  | fresh start here empty split => exact absurd (empty.symm.trans unread) (by simp)
  | inside here more split =>
    rw [unread, List.length_cons] at split
    refine ⟨.inside here (fun _ => succ_pos _) ?_, fun _ => ?_, fun _ => here⟩
    · show rest.length + behind = ahead
      omega
    · omega
  | past later started short =>
    refine ⟨.past later (succ_pos _) (by omega), fun here => ?_, fun within => ?_⟩
    · exact absurd (here : json.input.inputP = 0) (ne_of_gt later)
    · omega

theorem Json.Holds.charGet_leads (holds : json.Holds (c :: rest) string)
    (leads : json.input.Leads behind (rest.length + 1)) :
    (charGet json).2.input.Leads behind rest.length ∧
      ((charGet json).2.input.inputP = 0 ↔ behind ≤ rest.length) := by
  obtain ⟨filled, -, more⟩ := holds.filled
  unfold charGet
  dsimp only
  cases unread : json.filled.input.unread with
  | nil => exact absurd (more unread) (by simp)
  | cons first others => exact Json.advance_leads (Json.filled_leads leads) unread

theorem Json.Holds.skipLoop_leads {fuel state : Nat} {skip last final : UInt8} {skipped : Bool}
    {later : List UInt8} (holds : json.Holds bytes string)
    (leads : json.input.Leads behind bytes.length) (enough : bytes.length < fuel)
    (stops : scanSkip skip state bytes = .finished skipped final later) :
    (Rjson.skipLoop skip fuel json state last).2.2.input.Leads behind later.length := by
  -- Each round reads one byte of the comment.
  induction fuel generalizing json bytes state last with
  | zero => exact absurd enough (not_lt_zero _)
  | succ fuel ih =>
    obtain ⟨filled, -, nothing⟩ := holds.filled
    have leadsFilled := Json.filled_leads leads
    unfold Rjson.skipLoop
    dsimp only
    cases unread : json.filled.input.unread with
    | nil =>
      obtain rfl := nothing unread
      exact absurd stops (by simp [scanSkip])
    | cons c rest =>
      obtain ⟨ahead, rfl, advanced, -⟩ := filled.advance unread
      have leadsAfter := (Json.advance_leads leadsFilled unread).1
      simp only [scanSkip] at stops ⊢
      cases step : skipStep skip state c with
      | inl answer =>
        rw [step] at stops
        obtain ⟨-, -, rfl⟩ := Skip.finished.inj stops
        exact leadsAfter
      | inr next =>
        rw [step] at stops
        exact ih advanced leadsAfter (lt_of_succ_lt_succ enough) stops

/-- What begins with a byte is skipped before the first element: a comment, or a mark that is
sought. -/
def Skippable (options : Options) (behind : Nat) (firstLine : Bool) (c : UInt8) (rest : List UInt8) : Prop :=
  (c = 0x2F ∧ options.allowComments = true) ∨
    (c = 0xEF ∧ options.allowUtf8Bom = true ∧ firstLine = true ∧ behind ≤ rest.length)

instance (options : Options) (behind : Nat) (firstLine : Bool) (c : UInt8) (rest : List UInt8) :
    Decidable (Skippable options behind firstLine c rest) :=
  inferInstanceAs (Decidable (_ ∨ _))

/-- The first token, behind blanks, comments and marks. -/
def scanMarks (options : Options) (behind : Nat) (firstLine : Bool) (bytes : List UInt8) : Scan :=
  match bytes with
  | [] => .found .eof 0 []
  | c :: rest =>
    if tokenLut c = .whitespace then scanMarks options behind firstLine rest
    else if tokenLut c = .newline then scanMarks options behind false rest
    else if Skippable options behind firstLine c rest then
      match _skip : scanSkip c 0 rest with
      | .cut => .cut
      | .finished true _ after => scanMarks options behind firstLine after
      | .finished false last after => .found .optionalSkip last after
    else .found (tokenLut c) c rest
termination_by bytes.length
decreasing_by
  · exact Nat.lt_succ_self _
  · exact Nat.lt_succ_self _
  · exact Nat.lt_succ_of_lt (length_scanSkip _skip)

theorem scanMarks_nil : scanMarks options behind firstLine [] = .found .eof 0 [] := by rw [scanMarks]

theorem scanMarks_blank (blank : tokenLut c = .whitespace) :
    scanMarks options behind firstLine (c :: rest) = scanMarks options behind firstLine rest := by
  rw [scanMarks, if_pos blank]

theorem scanMarks_newline (newline : tokenLut c = .newline) :
    scanMarks options behind firstLine (c :: rest) = scanMarks options behind false rest := by
  rw [scanMarks, if_neg (by simp [newline]), if_pos newline]

theorem scanMarks_skip (skippable : Skippable options behind firstLine c rest) :
    scanMarks options behind firstLine (c :: rest) = match scanSkip c 0 rest with
      | .cut => .cut
      | .finished true _ after => scanMarks options behind firstLine after
      | .finished false last after => .found .optionalSkip last after := by
  have notBlank : tokenLut c ≠ .whitespace ∧ tokenLut c ≠ .newline := by
    cases skippable with
    | inl comment =>
      rw [comment.1]
      decide
    | inr mark =>
      rw [mark.1]
      decide
  rw [scanMarks, if_neg notBlank.1, if_neg notBlank.2, if_pos skippable]
  split <;> rename_i skip <;> rw [skip]

theorem scanMarks_token (notBlank : tokenLut c ≠ .whitespace ∧ tokenLut c ≠ .newline)
    (notSkippable : ¬ Skippable options behind firstLine c rest) :
    scanMarks options behind firstLine (c :: rest) = .found (tokenLut c) c rest := by
  rw [scanMarks, if_neg notBlank.1, if_neg notBlank.2, if_neg notSkippable]

/-- The parser before its first element, with the bytes ahead of it. -/
structure Json.First (behind : Nat) (firstLine : Bool) (bytes : List UInt8) (json : Json) : Prop where
  holds : json.Holds bytes json.string
  leads : json.input.Leads behind bytes.length
  anchored : json.input.Anchored
  line : json.input.sourceLine = 1 ↔ firstLine = true

/-- What a round before the first element has found. -/
inductive Json.Opens (json : Json) (behind : Nat) (scan : Scan) (bytes : List UInt8) (found : Found) : Prop
  | skipped {firstLine : Bool} {later : List UInt8} {after : Json}
      (same : scan = scanMarks json.options behind firstLine later)
      (shorter : later.length < bytes.length) (gives : found = .skipped after)
      (first : after.First behind firstLine later) (moves : json.Moves after)
  | token {tok : Token} {last : UInt8} {rest : List UInt8} {after : Json}
      (same : scan = .found tok last rest) (gives : found = .token after tok last)
      (holds : after.Holds rest after.string) (moves : json.Moves after)
      (further : tok ≠ .eof → json.input.position < after.input.position ∧
        after.input.unread.length < maxSize)
  | cut {last : UInt8} {after : Json} {text : String} (same : scan = .cut)
      (gives : found = .token (after.error text) .optionalSkip last) (moves : json.Moves after)

theorem optionalSkip_eq {skip : UInt8} (either : skip = 0x2F ∨ skip = 0xEF)
    (sought : json.input.sourceLine = 1 ∧ json.input.sourceColumnP = json.input.inputP ↔
      firstLine = true ∧ behind ≤ rest.length) :
    optionalSkip json skip = if Skippable json.options behind firstLine skip rest then
      skipLoop skip (json.input.size + 1) json 0 skip else (false, skip, json) := by
  unfold optionalSkip Skippable
  cases either with
  | inl slash =>
    subst slash
    simp only [true_and, show ¬ ((0x2F : UInt8) = 0xEF) by decide, false_and, or_false, if_false]
    by_cases allowed : json.options.allowComments = true
    · rw [if_neg (not_not_intro allowed), if_pos allowed]
    · rw [if_pos allowed, if_neg allowed]
  | inr mark =>
    subst mark
    simp only [true_and, show ¬ ((0xEF : UInt8) = 0x2F) by decide, false_and, false_or, if_false,
      ← sought]
    split <;> rename_i refused
    · rw [if_neg]
      intro taken
      cases refused with
      | inl never => exact never taken.1
      | inr elsewhere =>
        cases elsewhere with
        | inl line => exact line taken.2.1
        | inr column => exact column taken.2.2
    · rw [if_pos]
      rw [not_or, not_or] at refused
      exact ⟨Decidable.not_not.mp refused.1, Decidable.not_not.mp refused.2.1,
        Decidable.not_not.mp refused.2.2⟩

theorem Json.First.findToken (first : json.First behind firstLine bytes) :
    json.Opens behind (scanMarks json.options behind firstLine bytes) bytes (Rjson.findToken json) := by
  unfold Rjson.findToken
  cases bytes with
  | nil =>
    obtain ⟨after, got, holdsAfter, kept⟩ := first.holds.charGet_nil
    rw [got, scanMarks_nil]
    exact .token rfl rfl holdsAfter.self kept.toKept.moves fun more => absurd rfl more
  | cons c rest =>
    obtain ⟨after, got, advanced, kept, further, room⟩ := first.holds.charGet_cons
    have moves := kept.toKept.moves
    have leads := first.holds.charGet_leads first.leads
    have anchored := moves.anchored first.anchored
    have line : after.input.sourceLine = 1 ↔ firstLine = true := by
      rw [kept.sourceLine]
      exact first.line
    rw [got] at leads ⊢
    obtain ⟨leadsAfter, within⟩ := leads
    dsimp only at leadsAfter within ⊢
    cases kind : tokenLut c with
    | whitespace =>
      exact .skipped (scanMarks_blank kind) (lt_succ_self _) rfl
        ⟨advanced.self, leadsAfter, anchored, line⟩ moves
    | newline =>
      obtain ⟨holdsLine, movesLine⟩ := advanced.self.newline
      refine .skipped (scanMarks_newline kind) (lt_succ_self _) rfl
        ⟨holdsLine, leadsAfter.line, movesLine.anchored anchored, ?_⟩ (moves.trans movesLine)
      have counted := anchored.counted
      constructor
      · intro one
        have impossible : after.input.sourceLine + 1 = 1 := one
        omega
      · intro never
        exact absurd never (by simp)
    | optionalSkip =>
      have notBlank : tokenLut c ≠ .whitespace ∧ tokenLut c ≠ .newline := by simp [kind]
      have sought : after.input.sourceLine = 1 ∧ after.input.sourceColumnP = after.input.inputP ↔
          firstLine = true ∧ behind ≤ rest.length := by
        rw [line, ← within]
        refine and_congr_right fun one => ?_
        rw [anchored.first (line.mpr one), eq_comm]
      have enough : rest.length < after.input.size + 1 := by
        rw [← advanced.stream]
        exact lt_succ_of_le (Input.length_stream_le _)
      dsimp only
      rw [optionalSkip_eq (eq_of_optionalSkip c kind) sought]
      by_cases skippable : Skippable after.options behind firstLine c rest
      · rw [if_pos skippable]
        rw [moves.options] at skippable
        rw [scanMarks_skip skippable]
        cases advanced.skipLoop enough c 0 c with
        | inl stops =>
          obtain ⟨skipped, final, later, last, same, gives, holdsLast, keptLast, ahead, least⟩ := stops
          have movesLast := moves.trans keptLast.toKept.moves
          have leadsLast := @Json.Holds.skipLoop_leads _ _ _ _ _ 0 c c _ _ _ advanced leadsAfter enough same
          rw [gives] at leadsLast ⊢
          rw [same]
          cases skipped with
          | true =>
            refine .skipped rfl (lt_succ_of_lt (length_scanSkip same)) rfl
              ⟨holdsLast.self, leadsLast, movesLast.anchored first.anchored, ?_⟩ movesLast
            rw [keptLast.sourceLine]
            exact line
          | false =>
            exact .token rfl rfl holdsLast.self movesLast fun _ =>
              ⟨lt_trans further ahead, least⟩
        | inr cut =>
          obtain ⟨same, final, last, text, holdsLast, keptLast, gives⟩ := cut
          rw [gives, same]
          exact .cut rfl rfl (moves.trans keptLast.toKept.moves)
      · rw [if_neg skippable]
        rw [moves.options] at skippable
        rw [scanMarks_token notBlank skippable, kind]
        exact .token rfl rfl advanced.self moves fun _ => ⟨further, room⟩
    | _ =>
      have notSkippable : ¬ Skippable json.options behind firstLine c rest := by
        intro skippable
        cases skippable with
        | inl comment =>
          rw [comment.1] at kind
          exact absurd kind (by decide)
        | inr mark =>
          rw [mark.1] at kind
          exact absurd kind (by decide)
      rw [scanMarks_token (by simp [kind]) notSkippable, kind]
      exact .token rfl rfl advanced.self moves fun _ => ⟨further, room⟩

/-- Where the loop of the first call comes to act. -/
inductive Json.Reaches (json : Json) (scan : Scan) (result : Option (RjsonType × Json)) : Prop
  | token {tok : Token} {last : UInt8} {rest : List UInt8} {after : Json} {fuel : Nat}
      (same : scan = .found tok last rest) (gives : result = loopWith fuel after false tok last)
      (holds : after.Holds rest after.string) (moves : json.Moves after)
      (further : tok ≠ .eof → json.input.position < after.input.position ∧
        after.input.unread.length < maxSize)
  | cut {last : UInt8} {after : Json} {text : String} {fuel : Nat} (same : scan = .cut)
      (gives : result = loopWith fuel (after.error text) false .optionalSkip last)
      (moves : json.Moves after)

theorem Json.First.nextLoop {fuel : Nat} (first : json.First behind firstLine bytes)
    (enough : bytes.length < fuel) :
    json.Reaches (scanMarks json.options behind firstLine bytes) (Rjson.nextLoop fuel json false) := by
  -- Each round that does not arrive skips at least one byte.
  induction fuel generalizing json bytes firstLine with
  | zero => exact absurd enough (not_lt_zero _)
  | succ fuel ih =>
    unfold Rjson.nextLoop
    cases first.findToken with
    | skipped same shorter gives firstAfter moves =>
      rw [gives, same]
      have reaches := ih firstAfter (lt_of_lt_of_le shorter (le_of_lt_succ enough))
      rw [moves.options] at reaches
      cases reaches with
      | token sameAfter givesAfter holds movesAfter further =>
        refine .token sameAfter givesAfter holds (moves.trans movesAfter) fun more => ?_
        exact ⟨lt_of_le_of_lt moves.position (further more).1, (further more).2⟩
      | cut sameAfter givesAfter movesAfter => exact .cut sameAfter givesAfter (moves.trans movesAfter)
    | token same gives holds moves further =>
      rw [gives]
      exact .token same rfl holds moves further
    | cut same gives moves =>
      rw [gives]
      exact .cut same rfl moves

/-- The first element. -/
def Reader.first (options : Options) (maxDepth behind : Nat) (reader : Reader) : Option (Event × Reader) :=
  match scanMarks options behind true reader.bytes with
  | .cut => none
  | .found tok last bytes =>
    { reader with bytes }.act options maxDepth tok last
      (decision reader.top false tok options.allowTrailingData)

/-- The first call delivers the first element. -/
theorem Json.Shows.first (shows : json.Shows options maxDepth reader)
    (fresh : reader.top = ⟨.done, 0⟩) (start : json.input.position = 0)
    (leads : json.input.Leads behind reader.bytes.length) (here : json.input.inputP = 0)
    (line : json.input.sourceLine = 1) :
    json.Refines options maxDepth (reader.first options maxDepth behind) (Rjson.rjsonNext json) := by
  have begun := shows.begin
  have enough : reader.bytes.length < json.input.size + 2 := by
    rw [← shows.holds.stream]
    exact lt_succ_of_le (le_succ_of_le (Input.length_stream_le _))
  have same : { json with input := { json.input with inputP := json.input.position } } = json := by
    rw [start, ← here]
  rw [same] at begun
  have first : json.First behind true reader.bytes :=
    ⟨shows.holds, leads, shows.anchored, fun _ => rfl, fun _ => line⟩
  have notPass : ∀ tok, decision ⟨.done, 0⟩ false tok options.allowTrailingData ≠ .pass := by
    intro tok pass
    exact absurd (decision_pass pass) (by simp)
  unfold Rjson.rjsonNext Reader.first
  rw [if_neg shows.nested.ne_error, same]
  cases first.nextLoop enough with
  | @token tok last rest after left scan gives holds moves further =>
    rw [shows.options] at scan
    have showsAfter := begun.moves moves holds
    have decided := notPass tok
    rw [← fresh, ← showsAfter.top, ← showsAfter.options] at decided
    rw [gives, loopWith_act decided, scan]
    have acts : json.Refines options maxDepth _ (Rjson.act after tok last _) :=
      showsAfter.act moves.position further last rfl decided
    rw [showsAfter.top, showsAfter.options] at acts ⊢
    exact acts
  | @cut last after text left scan gives moves =>
    rw [shows.options] at scan
    have none : after.top.count = 0 := by rw [moves.top, shows.top, fresh]
    obtain ⟨failed, stopped⟩ := @loopWith_error after false left text last fun both => both.2 none
    rw [gives, stopped, scan]
    exact .error rfl rfl

end Libretro.Rjson
