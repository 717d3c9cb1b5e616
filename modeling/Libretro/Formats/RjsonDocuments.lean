import Libretro.Formats.RjsonGrammar
import Libretro.Formats.RjsonReader
import Libretro.Formats.RjsonRuns
import Libretro.Formats.RjsonStrings

/-! The parser without options accepts exactly the texts of the grammar, one element a call. -/

namespace Libretro.Rjson

open JsonText List Option Reader

variable {reader after : Reader} {event : Event} {maxDepth : Nat} {c : UInt8} {bytes rest : List UInt8}

theorem gap_blanks {gap : List UInt8} (skipped : Gap false gap) : ∃ before : Blanks, before.val = gap := by
  refine ⟨⟨gap, ?_⟩, rfl⟩
  generalize off : false = comments at skipped
  induction skipped with
  | nil => simp
  | blank blank _ ih => exact forall_mem_cons.mpr ⟨blank, ih⟩
  | line allowed => exact absurd (off.trans allowed) (by simp)
  | block allowed => exact absurd (off.trans allowed) (by simp)

theorem blanks_gap (before : Blanks) : Gap false before.val := by
  obtain ⟨blanks, all⟩ := before
  induction blanks with
  | nil => exact .nil
  | cons blank blanks ih =>
    obtain ⟨here, others⟩ := forall_mem_cons.mp all
    exact .blank here (ih others)

theorem scanToken_behind (before : Blanks) (notBlank : ¬ IsBlank c) :
    scanToken {} (before.val ++ c :: rest) = .found (tokenLut c) c rest := by
  rw [@scanToken_gap {} _ (blanks_gap before)]
  exact scanToken_token {} (fun blank => notBlank ((blank_iff c).mp blank)) (by simp) rest

theorem scanToken_blanks (before : Blanks) : scanToken {} before.val = .found .eof 0 [] := by
  have behind := @scanToken_gap {} _ (blanks_gap before) []
  rwa [append_nil, scanToken_nil] at behind

theorem tokenLut_iff : ∀ c : UInt8, (tokenLut c = .colon ↔ c = 0x3A) ∧
    (tokenLut c = .comma ↔ c = 0x2C) ∧ (tokenLut c = .arrayEnd ↔ c = 0x5D) ∧
    (tokenLut c = .objectEnd ↔ c = 0x7D) ∧ (tokenLut c = .string ↔ c = 0x22) ∧
    (tokenLut c = .array ↔ c = 0x5B) ∧ (tokenLut c = .object ↔ c = 0x7B) ∧
    (tokenLut c = .null ↔ c = 0x6E) ∧ (tokenLut c = .true ↔ c = 0x74) ∧
    (tokenLut c = .false ↔ c = 0x66) :=
  Utf8.forall_byte (by decide +kernel)

theorem numberChar_first : ∀ c : UInt8, tokenLut c = .number → numberChar c = true :=
  Utf8.forall_byte (by decide +kernel)

variable {frame : Frame} {tok : Token}

theorem decision_pass_cases (decides : decision frame false tok false = .pass) :
    (tok = .colon ∧ frame.type = .object ∧ frame.count % 2 = 1) ∨
    (tok = .comma ∧ frame.count ≠ 0 ∧ (frame.type = .array ∨ frame.NameDue)) := by
  unfold decision at decides
  unfold Frame.NameDue
  split_ifs at decides <;> simp_all

theorem decision_first (decides : decision frame false tok false = .value) :
    frame.count = 0 ∧ (frame.NameDue → tok = .string) := by
  unfold decision at decides
  unfold Frame.NameDue
  split_ifs at decides <;> simp_all

theorem decision_passed (decides : decision frame true tok false = .value) :
    frame.NameDue → tok = .string := by
  unfold decision at decides
  unfold Frame.NameDue
  split_ifs at decides <;> simp_all

theorem decision_close_due {passedToken : Bool} {type : RjsonType}
    (decides : decision frame passedToken tok false = .close type) :
    passedToken = false ∧ ((frame.NameDue ∧ tok = .objectEnd ∧ type = .objectEnd) ∨
      (frame.type = .array ∧ tok = .arrayEnd ∧ type = .arrayEnd)) := by
  unfold decision at decides
  unfold Frame.NameDue
  split_ifs at decides <;> simp_all

/-- What an event tells of an element: its decoded text, or its spelling. -/
inductive Told : Element → Event → Prop
  | startObject : Told .startObject ⟨.object, []⟩
  | endObject : Told .endObject ⟨.objectEnd, []⟩
  | startArray : Told .startArray ⟨.array, []⟩
  | endArray : Told .endArray ⟨.arrayEnd, []⟩
  | null : Told .null ⟨.null, []⟩
  | true : Told .true ⟨.true, []⟩
  | false : Told .false ⟨.false, []⟩
  | number {number : Number} (fits : number.val.length < maxSize) :
      Told (.number number) ⟨.number, number.val⟩
  | string {pieces : List Piece} {text : List UInt8} (decodes : decode pieces = some text)
      (fits : text.length < maxSize) : Told (.string pieces) ⟨.string, text⟩

theorem scanName_iff {pattern : List UInt8} :
    scanName pattern bytes = some rest ↔ bytes = pattern ++ rest := by
  induction pattern generalizing bytes with
  | nil => simp [scanName, eq_comm]
  | cons expected pattern ih =>
    unfold scanName
    constructor
    · intro scanned
      obtain ⟨later, found, more⟩ := bind_eq_some_iff.mp scanned
      rw [scanChar_some found, ih.mp more]
      rfl
    · intro same
      rw [same, cons_append]
      simp only [scanChar, ne_eq, not_true_eq_false, if_false, bind_some]
      exact ih.mpr rfl

/-- The values that are no containers. -/
def IsScalar : Value → Prop
  | .null | .true | .false | .number _ | .string _ => True
  | _ => False

/-- What a value's first byte leads to: a whole value, or a container that is entered. -/
inductive Begins (maxDepth : Nat) (reader : Reader) (c : UInt8) (event : Event) : Reader → Prop
  | scalar {value : Value} {element : Element} {rest : List UInt8} (isScalar : IsScalar value)
      (spells : c :: reader.bytes = value.text ++ rest) (single : value.traversal = [element])
      (told : Told element event) (name : c = 0x22 → ∃ pieces, value = .string pieces)
      (stops : ∀ number, value = .number number → NumberStops rest) :
      Begins maxDepth reader c event { reader.counted with bytes := rest }
  | array (first : c = 0x5B) (room : reader.below.length + 1 < max 10 maxDepth)
      (told : event = ⟨.array, []⟩) :
      Begins maxDepth reader c event ⟨reader.bytes, ⟨.array, 0⟩, reader.top.counted :: reader.below⟩
  | object (first : c = 0x7B) (room : reader.below.length + 1 < max 10 maxDepth)
      (told : event = ⟨.object, []⟩) :
      Begins maxDepth reader c event ⟨reader.bytes, ⟨.object, 0⟩, reader.top.counted :: reader.below⟩

theorem begins_name {type : RjsonType} {pattern : List UInt8} {element : Element} (value : Value)
    (read : reader.counted.scalar type ((scanName pattern reader.bytes).map ([], ·)) =
      some (event, after)) (spells : value.text = c :: pattern) (single : value.traversal = [element])
    (isScalar : IsScalar value) (told : Told element ⟨type, []⟩) (notQuote : c ≠ 0x22)
    (notNumber : ∀ number, value ≠ .number number) : Begins maxDepth reader c event after := by
  obtain ⟨scanned, found, same⟩ := map_eq_some_iff.mp read
  obtain ⟨rest, name, rfl⟩ := map_eq_some_iff.mp found
  obtain ⟨rfl, rfl⟩ := Prod.mk.inj same
  refine .scalar isScalar ?_ single told (fun quote => absurd quote notQuote)
    fun number is => absurd is (notNumber number)
  rw [spells, scanName_iff.mp name]
  rfl

theorem push_iff {type : RjsonType} : reader.counted.push maxDepth type = some (event, after) ↔
      reader.below.length + 1 < max 10 maxDepth ∧ event = ⟨type, []⟩ ∧
        after = ⟨reader.bytes, ⟨type, 0⟩, reader.top.counted :: reader.below⟩ := by
  unfold push
  constructor
  · intro pushed
    split at pushed
    · rename_i room
      obtain ⟨rfl, rfl⟩ := Prod.mk.inj (some.inj pushed)
      exact ⟨room, rfl, rfl⟩
    · exact absurd pushed (by simp)
  · intro entered
    obtain ⟨room, rfl, rfl⟩ := entered
    exact if_pos room

theorem value_begins (read : reader.value {} maxDepth (tokenLut c) c = some (event, after)) :
    Begins maxDepth reader c event after := by
  obtain ⟨-, -, -, -, string, array, object, null, isTrue, isFalse⟩ := tokenLut_iff c
  unfold value at read
  cases token : tokenLut c with
  | string =>
    rw [token] at read
    obtain rfl := string.mp token
    obtain ⟨scanned, found, same⟩ := map_eq_some_iff.mp read
    obtain ⟨rfl, rfl⟩ := Prod.mk.inj same
    obtain ⟨fits, pieces, spells, decodes⟩ := scanString_iff.mp found
    have isScalar : IsScalar (.string pieces) := trivial
    refine .scalar isScalar ?_ rfl (.string decodes fits)
      (fun _ => ⟨pieces, rfl⟩) (fun number is => absurd is (by simp))
    simp [Value.text, quoted, spells]
  | number =>
    rw [token] at read
    obtain ⟨scanned, found, same⟩ := map_eq_some_iff.mp read
    obtain ⟨rfl, rfl⟩ := Prod.mk.inj same
    obtain ⟨fits, number, spells, stops⟩ := (scanNumber_iff (numberChar_first c token)).mp found
    have isScalar : IsScalar (.number ⟨scanned.1, number⟩) := trivial
    refine .scalar isScalar spells rfl (.number fits) ?_ (fun _ _ => stops)
    intro quote
    exact absurd (token.symm.trans (string.mpr quote)) (by simp)
  | object =>
    rw [token] at read
    obtain ⟨room, rfl, rfl⟩ := push_iff.mp read
    exact .object (object.mp token) room rfl
  | array =>
    rw [token] at read
    obtain ⟨room, rfl, rfl⟩ := push_iff.mp read
    exact .array (array.mp token) room rfl
  | true =>
    rw [token] at read
    obtain rfl := isTrue.mp token
    exact begins_name .true read rfl rfl trivial .true (by decide) (by simp)
  | false =>
    rw [token] at read
    obtain rfl := isFalse.mp token
    exact begins_name .false read rfl rfl trivial .false (by decide) (by simp)
  | null =>
    rw [token] at read
    obtain rfl := null.mp token
    exact begins_name .null read rfl rfl trivial .null (by decide) (by simp)
  | _ => simp [token] at read

theorem number_first {number : List UInt8} (isNumber : IsNumber number) :
    ∃ first later, number = first :: later ∧ tokenLut first = .number := by
  obtain ⟨minus, whole, fraction, exponent, rfl, isMinus, isWhole, -, -⟩ := isNumber
  have digits : ∀ first : UInt8, IsDigit first → tokenLut first = .number :=
    Utf8.forall_byte (by unfold IsDigit; decide +kernel)
  rcases isMinus with rfl | rfl
  · obtain ⟨first, later, rfl, digit⟩ := whole_digit isWhole
    exact ⟨first, _, rfl, digits first digit⟩
  · exact ⟨0x2D, _, rfl, rfl⟩

/-- A value that is no container is read as a whole. -/
theorem value_scalar {value : Value} {element : Element} (isScalar : IsScalar value)
    (spells : c :: reader.bytes = value.text ++ rest) (single : value.traversal = [element])
    (told : Told element event) (stops : NumberStops rest) :
    reader.value {} maxDepth (tokenLut c) c = some (event, { reader.counted with bytes := rest }) := by
  have named : ∀ {pattern type}, reader.bytes = pattern ++ rest →
      reader.counted.scalar type ((scanName pattern reader.bytes).map ([], ·)) =
        some (⟨type, []⟩, { reader.counted with bytes := rest }) := by
    intro pattern type same
    rw [scalar, scanName_iff.mpr same]
    rfl
  cases value with
  | null =>
    obtain ⟨rfl, same⟩ := cons.inj spells
    obtain rfl := (singleton_inj.mp single).symm
    cases told
    exact named same
  | true =>
    obtain ⟨rfl, same⟩ := cons.inj spells
    obtain rfl := (singleton_inj.mp single).symm
    cases told
    exact named same
  | false =>
    obtain ⟨rfl, same⟩ := cons.inj spells
    obtain rfl := (singleton_inj.mp single).symm
    cases told
    exact named same
  | number number =>
    obtain rfl := (singleton_inj.mp single).symm
    cases told with
    | number fits =>
      obtain ⟨first, later, split, token⟩ := number_first number.property
      have here : c = first := by
        rw [Value.text, split] at spells
        exact (cons.inj spells).1
      rw [← here] at token
      rw [token]
      have scanned := (scanNumber_iff (numberChar_first c token)).mpr ⟨fits, number.property, spells, stops⟩
      simp only [value, scalar, scanned, map_some]
  | string pieces =>
    obtain rfl := (singleton_inj.mp single).symm
    cases told with
    | string decodes fits =>
      obtain ⟨rfl, same⟩ := cons.inj spells
      have split : reader.bytes = spelled pieces ++ 0x22 :: rest := by
        rw [same]
        simp
      have scanned := scanString_iff.mpr ⟨fits, pieces, split, decodes⟩
      have token : tokenLut 0x22 = .string := by decide
      rw [token]
      simp only [value, scalar, scanned, map_some]
  | emptyArray => exact absurd isScalar id
  | array => exact absurd isScalar id
  | emptyObject => exact absurd isScalar id
  | object => exact absurd isScalar id

/-- What a call that delivers has read: a value behind its separator, or an end. -/
inductive Reads (maxDepth : Nat) (reader : Reader) (event : Event) : Reader → Prop
  | value {skipped rest : List UInt8} {before : Blanks} {c : UInt8} {after : Reader}
      (split : reader.bytes = skipped ++ (before.val ++ c :: rest))
      (skips : Skips reader.top skipped) (name : reader.top.NameDue → c = 0x22)
      (begins : Begins maxDepth { reader with bytes := rest } c event after) :
      Reads maxDepth reader event after
  | object {rest : List UInt8} {before : Blanks} (split : reader.bytes = before.val ++ 0x7D :: rest)
      (due : reader.top.NameDue) (told : event = ⟨.objectEnd, []⟩) :
      Reads maxDepth reader event { reader with bytes := rest }.pop
  | array {rest : List UInt8} {before : Blanks} (split : reader.bytes = before.val ++ 0x5D :: rest)
      (kind : reader.top.type = .array) (told : event = ⟨.arrayEnd, []⟩) :
      Reads maxDepth reader event { reader with bytes := rest }.pop
  | done {before : Blanks} (split : reader.bytes = before.val) (later : reader.top.count ≠ 0)
      (kind : reader.top.type ≠ .object ∧ reader.top.type ≠ .array)
      (told : event = ⟨.done, []⟩) : Reads maxDepth reader event { reader with bytes := [] }

theorem value_none {first : UInt8} (other : tok = .eof ∨ tok = .optionalSkip) :
    reader.value {} maxDepth tok first = none := by
  rcases other with rfl | rfl <;> rfl

/-- A call that delivers has read one element. -/
theorem next_reads (delivers : reader.next {} maxDepth = some (event, after)) :
    Reads maxDepth reader event after := by
  unfold Reader.next at delivers
  have first := scanToken_meets {} reader.bytes
  cases scan : scanToken {} reader.bytes with
  | cut => simp [scan] at delivers
  | found tok last bytes =>
    rw [scan] at delivers first
    dsimp only at delivers
    by_cases pass : decision reader.top false tok false = .pass
    · -- A separator was passed, and then a value was read.
      rw [if_pos pass] at delivers
      have separated := decision_pass_cases pass
      cases first with
      | ended gap => rcases separated with ⟨colon, -⟩ | ⟨comma, -⟩ <;> simp_all
      | slash gap whole => rcases separated with ⟨colon, -⟩ | ⟨comma, -⟩ <;> simp_all
      | token skipped whole =>
        obtain ⟨between, rfl⟩ := gap_blanks skipped
        have skips : Skips reader.top (between.val ++ [last]) := by
          rcases separated with ⟨colon, named⟩ | ⟨comma, later, due⟩
          · rw [(tokenLut_iff last).1.mp colon]
            exact .colon between named
          · rw [(tokenLut_iff last).2.1.mp comma]
            exact .comma between later due
        unfold proceed at delivers
        have second := scanToken_meets {} bytes
        cases scanNext : scanToken {} bytes with
        | cut => simp [scanNext] at delivers
        | found tokNext lastNext rest =>
          simp only [scanNext] at delivers second
          cases decides : decision reader.top true tokNext false with
          | value =>
            rw [decides] at delivers
            cases second with
            | ended gap => simp [Reader.act, value_none] at delivers
            | slash gap whole => simp [Reader.act, value_none] at delivers
            | token skippedNext wholeNext =>
              obtain ⟨before, rfl⟩ := gap_blanks skippedNext
              have split : reader.bytes = between.val ++ [last] ++ (before.val ++ lastNext :: rest) := by
                rw [whole, wholeNext]
                simp
              refine .value split skips (fun due => ?_) (value_begins delivers)
              exact ((tokenLut_iff lastNext).2.2.2.2.1).mp (decision_passed decides due)
          | close type => exact absurd (decision_close_due decides).1 (by simp)
          | done =>
            obtain ⟨-, -, notObject, notArray⟩ := decision_done decides
            rcases separated with ⟨-, named⟩ | ⟨-, -, due⟩
            · exact absurd named.1 notObject
            · rcases due with isArray | due
              · exact absurd isArray notArray
              · exact absurd due.1 notObject
          | doneBefore => exact absurd (decision_doneBefore decides).2.1 (by simp)
          | pass => simp [decides, Reader.act] at delivers
          | fail text => simp [decides, Reader.act] at delivers
          | failToken front back => simp [decides, Reader.act] at delivers
    · rw [if_neg pass, proceed, scan] at delivers
      dsimp only at delivers
      cases decides : decision reader.top false tok false with
      | value =>
        rw [decides] at delivers
        obtain ⟨fresh, name⟩ := decision_first decides
        cases first with
        | ended gap => simp [Reader.act, value_none] at delivers
        | slash gap whole => simp [Reader.act, value_none] at delivers
        | token skipped whole =>
          obtain ⟨before, rfl⟩ := gap_blanks skipped
          have split : reader.bytes = [] ++ (before.val ++ last :: bytes) := whole
          refine .value split (.first fresh) (fun due => ?_) (value_begins delivers)
          exact ((tokenLut_iff last).2.2.2.2.1).mp (name due)
      | close type =>
        rw [decides] at delivers
        obtain ⟨rfl, rfl⟩ := Prod.mk.inj (some.inj delivers)
        have closes := (decision_close_due decides).2
        cases first with
        | ended gap => rcases closes with ⟨-, eof, -⟩ | ⟨-, eof, -⟩ <;> simp at eof
        | slash gap whole => rcases closes with ⟨-, skip, -⟩ | ⟨-, skip, -⟩ <;> simp at skip
        | token skipped whole =>
          obtain ⟨before, rfl⟩ := gap_blanks skipped
          rcases closes with ⟨due, token, rfl⟩ | ⟨kind, token, rfl⟩
          · obtain rfl := ((tokenLut_iff last).2.2.2.1).mp token
            exact .object whole due rfl
          · obtain rfl := ((tokenLut_iff last).2.2.1).mp token
            exact .array whole kind rfl
      | done =>
        rw [decides] at delivers
        obtain ⟨rfl, rfl⟩ := Prod.mk.inj (some.inj delivers)
        obtain ⟨eof, later, notObject, notArray⟩ := decision_done decides
        cases first with
        | ended gap =>
          obtain ⟨before, split⟩ := gap_blanks gap
          exact .done split.symm later ⟨notObject, notArray⟩ rfl
        | slash gap whole => exact absurd eof (by simp)
        | token skipped whole => exact absurd eof (tokenLut_ne_eof _)
      | doneBefore => exact absurd (decision_doneBefore decides).2.1 (by simp)
      | pass => exact absurd decides pass
      | fail text => simp [decides, Reader.act] at delivers
      | failToken front back => simp [decides, Reader.act] at delivers

theorem next_first {last : UInt8} (scan : scanToken {} reader.bytes = .found tok last rest)
    (notPass : decision reader.top false tok false ≠ .pass) :
    reader.next {} maxDepth =
      { reader with bytes := rest }.act {} maxDepth tok last (decision reader.top false tok false) := by
  unfold Reader.next
  rw [scan]
  dsimp only
  rw [if_neg notPass, proceed, scan]

/-- A value behind its separator is what a call reads. -/
theorem next_value {skipped : List UInt8} {before : Blanks}
    (split : reader.bytes = skipped ++ (before.val ++ c :: rest)) (skips : Skips reader.top skipped)
    (name : reader.top.NameDue → c = 0x22) (notBlank : ¬ IsBlank c) (notEnd : c ≠ 0x5D) :
    reader.next {} maxDepth = { reader with bytes := rest }.value {} maxDepth (tokenLut c) c := by
  obtain ⟨colonIff, commaIff, arrayEndIff, -, stringIff, -⟩ := tokenLut_iff c
  have string : reader.top.NameDue → tokenLut c = .string := fun due => stringIff.mpr (name due)
  have notArrayEnd : tokenLut c ≠ .arrayEnd := fun token => notEnd (arrayEndIff.mp token)
  unfold Frame.NameDue at string
  cases skips with
  | first fresh =>
    have scan : scanToken {} reader.bytes = .found (tokenLut c) c rest := by
      rw [split]
      exact scanToken_behind before notBlank
    have decides : decision reader.top false (tokenLut c) false = .value := by
      have notEof := tokenLut_ne_eof c
      unfold decision
      simp only [fresh, Nat.zero_mod] at string ⊢
      split_ifs <;> simp_all
    rw [next_first scan (by simp [decides]), decides]
    rfl
  | comma between later due =>
    have scan : scanToken {} reader.bytes = .found .comma 0x2C (before.val ++ c :: rest) := by
      rw [split, append_assoc]
      exact scanToken_behind between (by unfold IsBlank; decide)
    have pass : decision reader.top false .comma false = .pass := by
      unfold decision
      unfold Frame.NameDue at due
      rcases due with array | ⟨object, even⟩
      · simp [array, later]
      · simp [object, even, later]
    have decides : decision reader.top true (tokenLut c) false = .value := by
      unfold decision
      unfold Frame.NameDue at due
      rcases due with array | ⟨object, even⟩
      · simp [array]
      · simp [object, even, string ⟨object, even⟩]
    unfold Reader.next
    rw [scan]
    dsimp only
    rw [if_pos pass, proceed, scanToken_behind before notBlank]
    simp only [decides]
    rfl
  | colon between named =>
    have scan : scanToken {} reader.bytes = .found .colon 0x3A (before.val ++ c :: rest) := by
      rw [split, append_assoc]
      exact scanToken_behind between (by unfold IsBlank; decide)
    have pass : decision reader.top false .colon false = .pass := by
      unfold decision
      simp [named]
    have decides : decision reader.top true (tokenLut c) false = .value := by
      unfold decision
      simp [named]
    unfold Reader.next
    rw [scan]
    dsimp only
    rw [if_pos pass, proceed, scanToken_behind before notBlank]
    simp only [decides]
    rfl

/-- The end of a container, or of the text, is what a call reads. -/
theorem next_end {element : List Element} {ending : List UInt8}
    (ends : Ends reader.top ending element) (split : reader.bytes = ending ++ rest)
    (outermost : reader.top.type = .done → rest = []) :
    reader.next {} maxDepth = match element with
      | [] => some (⟨.done, []⟩, { reader with bytes := [] })
      | .endArray :: _ => some (⟨.arrayEnd, []⟩, { reader with bytes := rest }.pop)
      | _ => some (⟨.objectEnd, []⟩, { reader with bytes := rest }.pop) := by
  cases ends with
  | array before kind =>
    have scan : scanToken {} reader.bytes = .found .arrayEnd 0x5D rest := by
      rw [split, append_assoc]
      exact scanToken_behind before (by unfold IsBlank; decide)
    have decides : decision reader.top false .arrayEnd false = .close .arrayEnd := by simp [decision, kind]
    rw [next_first scan (by simp [decides]), decides]
    rfl
  | object before due =>
    have scan : scanToken {} reader.bytes = .found .objectEnd 0x7D rest := by
      rw [split, append_assoc]
      exact scanToken_behind before (by unfold IsBlank; decide)
    have decides : decision reader.top false .objectEnd false = .close .objectEnd := by
      simp [decision, due.1, due.2]
    rw [next_first scan (by simp [decides]), decides]
    rfl
  | document before kind later =>
    obtain rfl := outermost kind
    have scan : scanToken {} reader.bytes = .found .eof 0 [] := by
      rw [split, append_nil]
      exact scanToken_blanks before
    have decides : decision reader.top false .eof false = .done := by simp [decision, kind, later]
    rw [next_first scan (by simp [decides]), decides]
    rfl

open Nat

variable {reader after : Reader} {event : Event} {events : List Event} {maxDepth : Nat}
  {walk : List Element} {bytes : List UInt8}

theorem Told.ne_done {element : Element} (told : Told element event) : event.type ≠ .done := by
  cases told <;> simp

theorem Remains.value {top : Frame} {below : List Frame} {skipped rest : List UInt8}
    (skips : Skips top skipped) (before : Blanks) (value : Value)
    (name : top.NameDue → ∃ pieces, value = .string pieces)
    (remains : Remains (top.counted :: below) rest walk) :
    Remains (top :: below) (skipped ++ (before.val ++ (value.text ++ rest))) (value.traversal ++ walk) := by
  cases remains with
  | cons closes outside =>
    have longer := Remains.cons (.value skips before value name closes) outside
    simpa using longer

theorem Reader.Delivers.remains (delivers : reader.Delivers {} maxDepth events)
    (nested : Nested reader.top reader.below) :
    ∃ walk, Remains (reader.top :: reader.below) reader.bytes walk ∧ List.Forall₂ Told walk events := by
  -- The elements are followed from the last one back.
  induction delivers with
  | @done reader after last =>
    cases next_reads last with
    | value split skips name begins =>
      cases begins with
      | scalar isScalar spells single told => exact absurd rfl told.ne_done
      | array first room told => exact absurd told (by simp)
      | object first room told => exact absurd told (by simp)
    | object split due told => exact absurd told (by simp)
    | array split kind told => exact absurd told (by simp)
    | @done before split later kind told =>
      cases below : reader.below with
      | nil =>
        rw [below] at nested
        refine ⟨[], ?_, .nil⟩
        have remains := Remains.cons (.ends (.document before nested later)) .nil
        rw [append_nil] at remains
        rw [split]
        exact remains
      | cons outer others =>
        rw [below] at nested
        exact absurd nested.1 (by simp [kind])
  | @next reader after event events step more rest ih =>
    cases next_reads step with
    | @value skipped rest before c after split skips name begins =>
      cases begins with
      | @scalar value element rest isScalar spells single told quote stops =>
        obtain ⟨walk, remains, all⟩ := ih (nested.count _)
        refine ⟨element :: walk, ?_, .cons told all⟩
        have longer := remains.value skips before value fun due => quote (name due)
        rw [split, spells]
        rwa [single] at longer
      | array first room told =>
        obtain ⟨walk, remains, all⟩ := ih ⟨.inr rfl, nested.count _⟩
        cases remains with
        | cons closes outside =>
          obtain ⟨value, text, traversal⟩ := closes.array
          have notName : reader.top.NameDue → ∃ pieces, value = .string pieces := by
            intro due
            exact absurd ((name due).symm.trans first) (by decide)
          have longer := outside.value skips before value notName
          rw [text, traversal] at longer
          refine ⟨.startArray :: _, ?_, .cons (by rw [told]; exact .startArray) all⟩
          rw [split, first]
          exact longer
      | object first room told =>
        obtain ⟨walk, remains, all⟩ := ih ⟨.inl rfl, nested.count _⟩
        cases remains with
        | cons closes outside =>
          obtain ⟨value, text, traversal⟩ := closes.object
          have notName : reader.top.NameDue → ∃ pieces, value = .string pieces := by
            intro due
            exact absurd ((name due).symm.trans first) (by decide)
          have longer := outside.value skips before value notName
          rw [text, traversal] at longer
          refine ⟨.startObject :: _, ?_, .cons (by rw [told]; exact .startObject) all⟩
          rw [split, first]
          exact longer
    | @object rest before split due told =>
      cases below : reader.below with
      | nil =>
        rw [below] at nested
        exact absurd (nested.symm.trans due.1) (by simp)
      | cons outer others =>
        rw [below] at nested
        simp only [Reader.pop, below] at ih
        obtain ⟨walk, remains, all⟩ := ih nested.2
        refine ⟨.endObject :: _, ?_, .cons (by rw [told]; exact .endObject) all⟩
        have longer := Remains.cons (.ends (.object before due)) remains
        rw [split]
        simpa using longer
    | @array rest before split kind told =>
      cases below : reader.below with
      | nil =>
        rw [below] at nested
        exact absurd (nested.symm.trans kind) (by simp)
      | cons outer others =>
        rw [below] at nested
        simp only [Reader.pop, below] at ih
        obtain ⟨walk, remains, all⟩ := ih nested.2
        refine ⟨.endArray :: _, ?_, .cons (by rw [told]; exact .endArray) all⟩
        have longer := Remains.cons (.ends (.array before kind)) remains
        rw [split]
        simpa using longer
    | done split later kind told => exact absurd (by rw [told]) more

/-- A value is no container, or what is left of it behind its first byte closes one. -/
inductive Shape (value : Value) : Prop
  | scalar {element : Element} {c : UInt8} {rest : List UInt8} (isScalar : IsScalar value)
      (text : value.text = c :: rest) (single : value.traversal = [element])
      (notBlank : ¬ IsBlank c) (notEnd : c ≠ 0x5D)
  | array {inside : List UInt8} {walk : List Element} (text : value.text = 0x5B :: inside)
      (traversal : value.traversal = .startArray :: walk) (closes : Closes ⟨.array, 0⟩ inside walk)
  | object {inside : List UInt8} {walk : List Element} (text : value.text = 0x7B :: inside)
      (traversal : value.traversal = .startObject :: walk)
      (closes : Closes ⟨.object, 0⟩ inside walk)

theorem value_shape (value : Value) : Shape value := by
  cases value with
  | null => exact .scalar trivial rfl rfl (by unfold IsBlank; decide) (by decide)
  | true => exact .scalar trivial rfl rfl (by unfold IsBlank; decide) (by decide)
  | false => exact .scalar trivial rfl rfl (by unfold IsBlank; decide) (by decide)
  | string pieces => exact .scalar trivial rfl rfl (by unfold IsBlank; decide) (by decide)
  | number number =>
    obtain ⟨first, later, split, token⟩ := number_first number.property
    refine .scalar trivial split rfl (fun blank => ?_) fun same => ?_
    · rcases (blank_iff first).mpr blank with isBlank | isBlank
      · exact absurd (token.symm.trans isBlank) (by simp)
      · exact absurd (token.symm.trans isBlank) (by simp)
    · rw [same] at token
      exact absurd token (by decide)
  | emptyArray inside => exact .array rfl rfl (.ends (.array inside rfl))
  | array items => exact .array rfl rfl (elements_closes items rfl (.first rfl))
  | emptyObject inside => exact .object rfl rfl (.ends (.object inside ⟨rfl, rfl⟩))
  | object members => exact .object rfl rfl (members_closes members ⟨rfl, rfl⟩ (.first rfl))

theorem string_first {value : Value} {c : UInt8} {rest : List UInt8}
    (text : value.text = c :: rest) (name : ∃ pieces, value = .string pieces) : c = 0x22 := by
  obtain ⟨pieces, rfl⟩ := name
  exact (List.cons.inj text).1.symm

/-- The parser is done, or takes the next element and goes on with what remains behind it. -/
inductive Advances (maxDepth : Nat) (reader : Reader) : List Element → Prop
  | done {after : Reader} (last : reader.next {} maxDepth = some (⟨.done, []⟩, after)) :
      Advances maxDepth reader []
  | element {element : Element} {walk : List Element}
      (step : ∀ event, Told element event → element.depth reader.below.length < max 10 maxDepth →
        ∃ after, reader.next {} maxDepth = some (event, after) ∧
          Remains (after.top :: after.below) after.bytes walk ∧ Nested after.top after.below ∧
          after.below.length = element.depth reader.below.length) :
      Advances maxDepth reader (element :: walk)

theorem Ends.advances {inner rest : List UInt8} {first later : List Element}
    (ends : Ends reader.top inner first) (split : reader.bytes = inner ++ rest)
    (outside : Remains reader.below rest later) (nested : Nested reader.top reader.below) :
    Advances maxDepth reader (first ++ later) := by
  have outermost : reader.top.type = .done → rest = [] ∧ later = [] := by
    intro kind
    cases below : reader.below with
    | nil =>
      rw [below] at outside
      cases outside with
      | nil => exact ⟨rfl, rfl⟩
    | cons outer others =>
      rw [below] at nested
      exact absurd nested.1 (by simp [kind])
  have read : reader.next {} maxDepth = _ := next_end ends split fun kind => (outermost kind).1
  cases ends with
  | document before kind =>
    obtain ⟨-, rfl⟩ := outermost kind
    exact .done read
  | array before kind =>
    cases below : reader.below with
    | nil =>
      rw [below] at nested
      exact absurd (nested.symm.trans kind) (by simp)
    | cons outer others =>
      rw [below] at outside nested
      simp only [Reader.pop, below] at read
      refine .element fun event told room =>
        ⟨⟨rest, outer, others⟩, ?_, outside, nested.2, ?_⟩
      · cases told
        exact read
      · simp [below, Element.depth]
  | object before due =>
    cases below : reader.below with
    | nil =>
      rw [below] at nested
      exact absurd (nested.symm.trans due.1) (by simp)
    | cons outer others =>
      rw [below] at outside nested
      simp only [Reader.pop, below] at read
      refine .element fun event told room =>
        ⟨⟨rest, outer, others⟩, ?_, outside, nested.2, ?_⟩
      · cases told
        exact read
      · simp [below, Element.depth]

theorem Skips.advances {skipped rest : List UInt8} (skips : Skips reader.top skipped)
    (before : Blanks) (value : Value) (name : reader.top.NameDue → ∃ pieces, value = .string pieces)
    (split : reader.bytes = skipped ++ (before.val ++ (value.text ++ rest)))
    (remains : Remains (reader.top.counted :: reader.below) rest walk)
    (nested : Nested reader.top reader.below) :
    Advances maxDepth reader (value.traversal ++ walk) := by
  have nestedCounted : Nested reader.top.counted reader.below := nested.count _
  cases value_shape value with
  | @scalar element c tail isScalar text single notBlank notEnd =>
    rw [single]
    refine .element fun event told room =>
      ⟨⟨rest, reader.top.counted, reader.below⟩, ?_, remains, nestedCounted, ?_⟩
    · have here : reader.bytes = skipped ++ (before.val ++ c :: (tail ++ rest)) := by
        rw [split, text, cons_append]
      rw [next_value here skips (fun due => string_first text (name due)) notBlank notEnd]
      refine value_scalar isScalar ?_ single told (remains.stops nestedCounted (succ_ne_zero _))
      rw [text, cons_append]
    · cases value <;> simp only [Value.traversal, List.cons.injEq, and_true] at single
      all_goals first
        | (subst single; rfl)
        | exact absurd isScalar id
  | @array inside walkInside text traversal closes =>
    rw [traversal]
    refine .element fun event told room => ?_
    cases told
    have here : reader.bytes = skipped ++ (before.val ++ 0x5B :: (inside ++ rest)) := by
      rw [split, text, cons_append]
    refine ⟨⟨inside ++ rest, ⟨.array, 0⟩, reader.top.counted :: reader.below⟩, ?_,
      .cons closes remains, ⟨.inr rfl, nestedCounted⟩, rfl⟩
    rw [next_value here skips (fun due => string_first text (name due)) (by unfold IsBlank; decide)
      (by decide)]
    exact push_iff.mpr ⟨room, rfl, rfl⟩
  | @object inside walkInside text traversal closes =>
    rw [traversal]
    refine .element fun event told room => ?_
    cases told
    have here : reader.bytes = skipped ++ (before.val ++ 0x7B :: (inside ++ rest)) := by
      rw [split, text, cons_append]
    refine ⟨⟨inside ++ rest, ⟨.object, 0⟩, reader.top.counted :: reader.below⟩, ?_,
      .cons closes remains, ⟨.inl rfl, nestedCounted⟩, rfl⟩
    rw [next_value here skips (fun due => string_first text (name due)) (by unfold IsBlank; decide)
      (by decide)]
    exact push_iff.mpr ⟨room, rfl, rfl⟩

theorem Remains.advances {stack : List Frame} (remains : Remains stack bytes walk)
    (same : stack = reader.top :: reader.below) (split : reader.bytes = bytes)
    (nested : Nested reader.top reader.below) : Advances maxDepth reader walk := by
  cases remains with
  | nil => exact absurd same (by simp)
  | cons closes outside =>
    obtain ⟨rfl, rfl⟩ := List.cons.inj same
    generalize frame : reader.top = top at closes
    cases closes with
    | ends last => exact (frame ▸ last).advances split outside nested
    | value skips before value name more =>
      subst frame
      rw [List.append_assoc]
      refine skips.advances before value name ?_ (.cons more outside) nested
      rw [split]
      simp

theorem depth_le_nesting (outside : Nat) (element : Element) (walk : List Element) :
    element.depth outside ≤ nesting outside (element :: walk) ∧
      nesting (element.depth outside) walk ≤ nesting outside (element :: walk) := by
  have first : element.depth outside ≤ nesting (element.depth outside) walk := by
    cases walk with
    | nil => exact le_refl _
    | cons => exact le_max_left _ _
  have rest : nesting (element.depth outside) walk ≤ nesting outside (element :: walk) := le_max_right _ _
  exact ⟨le_trans first rest, rest⟩

theorem Remains.delivers (remains : Remains (reader.top :: reader.below) reader.bytes walk)
    (nested : Nested reader.top reader.below) (told : List.Forall₂ Told walk events)
    (shallow : nesting reader.below.length walk < max 10 maxDepth) :
    reader.Delivers {} maxDepth events := by
  -- Every call takes one element from the front.
  induction told generalizing reader with
  | nil =>
    generalize none : [] = walk at remains
    cases (remains.advances rfl rfl nested : Advances maxDepth reader _) with
    | done last => exact .done last
    | element step => exact absurd none (by simp)
  | @cons element event walk events here others ih =>
    obtain ⟨depth, deeper⟩ := depth_le_nesting reader.below.length element walk
    cases (remains.advances rfl rfl nested : Advances maxDepth reader _) with
    | element step =>
      obtain ⟨after, call, remainsAfter, nestedAfter, length⟩ :=
        step event here (lt_of_le_of_lt depth shallow)
      refine .next call here.ne_done (ih remainsAfter nestedAfter ?_)
      rw [length]
      exact lt_of_le_of_lt deeper shallow

theorem Reads.plain (reads : Reads maxDepth reader event after) :
    event.type ≠ .error ∧ (¬(event.type = .string ∨ event.type = .number) → event.text = []) := by
  cases reads with
  | value split skips name begins =>
    cases begins with
    | scalar isScalar spells single told => cases told <;> simp
    | array first room told => simp [told]
    | object first room told => simp [told]
  | object split due told => simp [told]
  | array split kind told => simp [told]
  | done split later kind told => simp [told]

theorem Json.Shows.plainNext {json : Json} (shows : json.Shows {} maxDepth reader) :
    json.Refines {} maxDepth (reader.next {} maxDepth) (Rjson.rjsonNext json) :=
  shows.rjsonNext (.inl rfl) fun misled => absurd misled.2.1 (by decide)

theorem seen_event {json : Json} (read : reader.next {} maxDepth = some (event, after))
    (text : event.type = .string ∨ event.type = .number → getString json = event.text) :
    seen event.type json = event := by
  have plain := (next_reads read).plain.2
  unfold seen
  split <;> rename_i textual
  · rw [text textual]
  · rw [← plain textual]

/-- Without options, the calls deliver exactly what the reader does. -/
theorem Json.Shows.runs_iff {json : Json} (shows : json.Shows {} maxDepth reader) :
    json.Runs events .done ↔ reader.Delivers {} maxDepth events := by
  constructor
  · intro runs
    generalize final : RjsonType.done = last at runs
    -- The calls are followed from the first to the last.
    induction runs generalizing reader with
    | last delivers ends =>
      subst final
      have refines := shows.plainNext
      rw [delivers] at refines
      cases refines with
      | @next event reader after same gives text =>
        obtain ⟨isDone, rfl⟩ := Prod.mk.inj (some.inj gives)
        have textless := (next_reads same).plain.2 (by rw [← isDone]; simp)
        have told : event = ⟨.done, []⟩ := by
          cases event
          simp_all
        exact .done (told ▸ same)
      | error nothing gives => exact absurd (Prod.mk.inj (some.inj gives)).1 (by simp)
      | overrun nothing gives => exact absurd gives (by simp)
    | next delivers more noError rest ih =>
      have refines := shows.plainNext
      rw [delivers] at refines
      cases refines with
      | next same gives text showsAfter =>
        obtain ⟨rfl, rfl⟩ := Prod.mk.inj (some.inj gives)
        rw [seen_event same text]
        exact .next same more (ih showsAfter final)
      | error nothing gives => exact absurd (Prod.mk.inj (some.inj gives)).1 noError
      | overrun nothing gives => exact absurd gives (by simp)
  · intro delivers
    induction delivers generalizing json with
    | done last =>
      have refines := shows.plainNext
      cases refines with
      | next same gives text showsAfter =>
        obtain ⟨rfl, rfl⟩ := Prod.mk.inj (some.inj (last.symm.trans same))
        exact .last gives (.inl rfl)
      | error nothing gives => exact absurd (last.symm.trans nothing) (by simp)
      | overrun nothing gives => exact absurd (last.symm.trans nothing) (by simp)
    | next step more rest ih =>
      have refines := shows.plainNext
      cases refines with
      | next same gives text showsAfter =>
        obtain ⟨rfl, rfl⟩ := Prod.mk.inj (some.inj (step.symm.trans same))
        rw [← seen_event step text]
        exact .next gives more (next_reads step).plain.1 (ih showsAfter)
      | error nothing gives => exact absurd (step.symm.trans nothing) (by simp)
      | overrun nothing gives => exact absurd (step.symm.trans nothing) (by simp)

theorem delivers_document (delivers : Reader.Delivers {} maxDepth ⟨bytes, ⟨.done, 0⟩, []⟩ events) :
    ∃ document : Document, document.text = bytes ∧ List.Forall₂ Told document.value.traversal events := by
  obtain ⟨walk, remains, told⟩ := delivers.remains rfl
  cases remains with
  | cons closes outside =>
    cases outside with
    | nil =>
      obtain ⟨document, text, same⟩ := closes_document_iff.mp closes
      refine ⟨document, ?_, ?_⟩
      · simpa using text
      · rw [same]
        simpa using told

theorem document_delivers {document : Document} (told : List.Forall₂ Told document.value.traversal events)
    (shallow : nesting 0 document.value.traversal < max 10 maxDepth) :
    Reader.Delivers {} maxDepth ⟨document.text, ⟨.done, 0⟩, []⟩ events := by
  have closes := closes_document_iff.mpr ⟨document, rfl, rfl⟩
  have remains := Remains.cons closes .nil
  rw [append_nil, append_nil] at remains
  exact @Remains.delivers ⟨document.text, ⟨.done, 0⟩, []⟩ _ _ _ remains rfl told shallow

/-- Without options the parser takes exactly the well-formed texts, and delivers their walk. -/
theorem runs_document {future : List (List UInt8)} (maxDepth : Nat) (events : List Event)
    (blocks : ∀ block ∈ future, block ≠ [] ∧ block.length ≤ maxSize) :
    ((rjsonSetup {} maxDepth future).Runs events .done →
      ∃ document : Document, document.text = future.flatten ∧
        List.Forall₂ Told document.value.traversal events) ∧
    (∀ document : Document, document.text = future.flatten → nesting 0 document.value.traversal < maxDepth →
      List.Forall₂ Told document.value.traversal events →
      (rjsonSetup {} maxDepth future).Runs events .done) := by
  have shows := rjsonSetup_shows {} maxDepth blocks
  constructor
  · intro runs
    exact delivers_document (shows.runs_iff.mp runs)
  · intro document text shallow told
    rw [shows.runs_iff, ← text]
    exact document_delivers told (lt_of_lt_of_le shallow (le_max_right _ _))

/-- A zero between brackets. -/
def zeroArray : Document :=
  ⟨⟨[], by simp⟩, .array (.last ⟨[], by simp⟩
    (.number ⟨[0x30], [], [0x30], [], [], rfl, .inl rfl, .inl rfl, .inl rfl, .inl rfl⟩)
    ⟨[], by simp⟩), ⟨[], by simp⟩⟩

/-- An array of a zero is taken, in three elements. -/
theorem runs_document_array : (rjsonSetup {} 50 [[0x5B, 0x30, 0x5D]]).Runs
      [⟨.array, []⟩, ⟨.number, [0x30]⟩, ⟨.arrayEnd, []⟩] .done :=
  (runs_document 50 _ (by decide)).2 zeroArray rfl (by decide)
    (.cons .startArray (.cons (.number (by decide)) (.cons .endArray .nil)))

/-- A well-formed text with half of a surrogate pair in a string is refused. -/
theorem runs_document_surrogate :
    ∃ document : Document, document.text = [0x22, 0x5C, 0x75, 0x44, 0x45, 0x41, 0x44, 0x22] ∧
      nesting 0 document.value.traversal < 50 ∧
      ∀ events, ¬ (rjsonSetup {} 50
        [[0x22, 0x5C, 0x75, 0x44, 0x45, 0x41, 0x44, 0x22]]).Runs events .done := by
  refine ⟨⟨⟨[], by simp⟩, .string [.unicode 0x44 0x45 0x41 0x44 0xDEAD rfl], ⟨[], by simp⟩⟩,
    rfl, by decide, fun events runs => ?_⟩
  have fails : (Rjson.rjsonNext (rjsonSetup {} 50
      [[0x22, 0x5C, 0x75, 0x44, 0x45, 0x41, 0x44, 0x22]])).map Prod.fst = some .error := by
    decide
  cases runs with
  | last delivers ends =>
    rw [delivers] at fails
    exact absurd (some.inj fails) (by simp)
  | next delivers more noError rest =>
    rw [delivers] at fails
    exact noError (some.inj fails)

end Libretro.Rjson
