import Libretro.Formats.RjsonReader
import Libretro.Formats.RjsonRefinement
import Libretro.Library.JsonText
import Mathlib.Data.List.TakeWhile

/-! Numbers, and what a stack of open containers still demands of the text, in terms of the grammar. -/

namespace Libretro.Rjson

open JsonText List

variable {bytes rest text : List UInt8} {before c : UInt8}

theorem isDigit_iff : isDigit c = true ↔ IsDigit c := decide_eq_true_iff

theorem skipDigits_rest : (skipDigits before bytes).2 = bytes.dropWhile isDigit := by
  induction bytes generalizing before with
  | nil => rfl
  | cons c rest ih =>
    rw [skipDigits, dropWhile_cons]
    split_ifs
    · exact ih
    · rfl

theorem digits_takeWhile : ∀ c ∈ bytes.takeWhile isDigit, IsDigit c := by
  intro c member
  exact isDigit_iff.mp (mem_takeWhile_imp member)

theorem dropWhile_digits {digits tail : List UInt8} (all : ∀ c ∈ digits, IsDigit c)
    (stops : tail.dropWhile isDigit = tail) : (digits ++ tail).dropWhile isDigit = tail := by
  rw [dropWhile_append_of_pos fun c member => isDigit_iff.mpr (all c member), stops]

theorem lastDigitsFault_iff : lastDigitsFault before bytes = none ↔ IsDigits bytes := by
  cases bytes with
  | nil => simp [lastDigitsFault, IsDigits]
  | cons c rest =>
    have left := @skipDigits_rest rest c
    unfold lastDigitsFault IsDigits
    dsimp only
    by_cases digit : isDigit c = true
    · rw [if_pos digit, forall_mem_cons]
      -- Nothing is left exactly when all are digits.
      have all : (skipDigits c rest).2 = [] ↔ ∀ c ∈ rest, IsDigit c := by
        rw [left, dropWhile_eq_nil_iff]
        exact forall₂_congr fun _ _ => isDigit_iff
      have here : IsDigit c := isDigit_iff.mp digit
      rw [← all]
      cases skipDigits c rest with
      | mk last after => cases after <;> simp [here]
    · rw [if_neg digit, forall_mem_cons]
      have notDigit : ¬ IsDigit c := fun same => digit (isDigit_iff.mpr same)
      simp [notDigit]

theorem exponent_letter : ∀ c : UInt8, c ||| 0x20 = 0x65 ↔ c = 0x65 ∨ c = 0x45 :=
  Utf8.forall_byte (by decide +kernel)

theorem sign_notDigit (sign : c = 0x2D ∨ c = 0x2B) : ¬ IsDigit c := by
  unfold IsDigit
  cases sign with
  | inl minus => simp [minus]
  | inr plus => simp [plus]

theorem exponentFault_letter (letter : c ||| 0x20 = 0x65) : exponentFault (c :: bytes) = none ↔
    ∃ sign digits, IsSign sign ∧ IsDigits digits ∧ bytes = sign ++ digits := by
  unfold exponentFault
  dsimp only
  rw [if_pos letter]
  cases bytes with
  | nil =>
    dsimp only
    constructor
    · intro fault
      exact absurd fault (by simp)
    · intro written
      obtain ⟨sign, digits, -, isDigits, same⟩ := written
      exact absurd (append_eq_nil_iff.mp same.symm).2 isDigits.1
  | cons first later =>
    dsimp only
    by_cases signed : first = 0x2D ∨ first = 0x2B
    · rw [if_pos signed, lastDigitsFault_iff]
      constructor
      · intro isDigits
        have sign : IsSign [first] := by
          cases signed with
          | inl minus => exact .inr (.inr (by rw [minus]))
          | inr plus => exact .inr (.inl (by rw [plus]))
        exact ⟨[first], later, sign, isDigits, rfl⟩
      · intro written
        obtain ⟨sign, digits, isSign, isDigits, same⟩ := written
        rcases isSign with rfl | rfl | rfl
        · -- Without a sign the digits would begin with one.
          rw [nil_append] at same
          have digit := isDigits.2 first (by simp [← same])
          exact absurd digit (sign_notDigit signed)
        · exact (cons.inj same).2 ▸ isDigits
        · exact (cons.inj same).2 ▸ isDigits
    · rw [if_neg signed, lastDigitsFault_iff]
      constructor
      · intro isDigits
        exact ⟨[], first :: later, .inl rfl, isDigits, rfl⟩
      · intro written
        obtain ⟨sign, digits, isSign, isDigits, same⟩ := written
        rcases isSign with rfl | rfl | rfl
        · exact same ▸ isDigits
        · exact absurd (.inr (cons.inj same).1) signed
        · exact absurd (.inl (cons.inj same).1) signed

theorem exponentFault_iff : exponentFault bytes = none ↔ IsExponent bytes := by
  cases bytes with
  | nil => exact ⟨fun _ => .inl rfl, fun _ => rfl⟩
  | cons c rest =>
    by_cases letter : c ||| 0x20 = 0x65
    · rw [exponentFault_letter letter]
      constructor
      · intro written
        obtain ⟨sign, digits, isSign, isDigits, rfl⟩ := written
        exact .inr ⟨c, sign, digits, (exponent_letter c).mp letter, isSign, isDigits, rfl⟩
      · intro written
        obtain none | ⟨e, sign, digits, -, isSign, isDigits, same⟩ := written
        · exact absurd none (by simp)
        · exact ⟨sign, digits, isSign, isDigits, (cons.inj same).2⟩
    · constructor
      · intro fault
        simp [exponentFault, letter] at fault
      · intro written
        obtain none | ⟨e, sign, digits, isLetter, -, -, same⟩ := written
        · exact absurd none (by simp)
        · rw [← (cons.inj same).1, ← exponent_letter] at isLetter
          exact absurd isLetter letter

theorem exponent_stops (exponent : IsExponent bytes) : bytes.dropWhile isDigit = bytes := by
  obtain rfl | ⟨e, sign, digits, letter, -, -, rfl⟩ := exponent
  · rfl
  · rw [dropWhile_cons]
    cases letter with
    | inl small => simp [small, isDigit]
    | inr capital => simp [capital, isDigit]

theorem fractionFault_iff : fractionFault bytes = none ↔
    ∃ fraction exponent, bytes = fraction ++ exponent ∧ IsFraction fraction ∧ IsExponent exponent := by
  cases bytes with
  | nil => exact ⟨fun _ => ⟨[], [], rfl, .inl rfl, .inl rfl⟩, fun _ => rfl⟩
  | cons c rest =>
    by_cases point : c = 0x2E
    · subst point
      constructor
      · intro fault
        cases rest with
        | nil => simp [fractionFault] at fault
        | cons digit more =>
          by_cases isDigits : isDigit digit = true
          · simp only [fractionFault, if_pos, isDigits] at fault
            rw [skipDigits_rest, exponentFault_iff] at fault
            refine ⟨0x2E :: digit :: more.takeWhile isDigit, _, ?_, .inr ⟨_, ⟨by simp, ?_⟩, rfl⟩,
              fault⟩
            · rw [cons_append, cons_append, takeWhile_append_dropWhile]
            · exact forall_mem_cons.mpr ⟨isDigit_iff.mp isDigits, digits_takeWhile⟩
          · simp [fractionFault, isDigits] at fault
      · intro written
        obtain ⟨fraction, exponent, same, rfl | ⟨digits, isDigits, rfl⟩, isExponent⟩ := written
        · -- An exponent begins with no point.
          obtain none | ⟨e, sign, digits, letter, -, -, rfl⟩ := isExponent
          · rw [none] at same
            exact absurd same (by simp)
          · rw [← (cons.inj same).1] at letter
            exact absurd letter (by decide)
        · obtain ⟨notNil, all⟩ := isDigits
          obtain ⟨digit, more, rfl⟩ := exists_cons_of_ne_nil notNil
          obtain ⟨here, others⟩ := forall_mem_cons.mp all
          have split : rest = digit :: (more ++ exponent) := (cons.inj same).2
          rw [split]
          simp only [fractionFault, if_pos, isDigit_iff.mpr here]
          rw [skipDigits_rest, dropWhile_digits others (exponent_stops isExponent), exponentFault_iff]
          exact isExponent
    · have none : fractionFault (c :: rest) = exponentFault (c :: rest) := by simp [fractionFault, point]
      rw [none, exponentFault_iff]
      constructor
      · intro isExponent
        exact ⟨[], c :: rest, rfl, .inl rfl, isExponent⟩
      · intro written
        obtain ⟨fraction, exponent, same, rfl | ⟨digits, -, rfl⟩, isExponent⟩ := written
        · rw [nil_append] at same
          exact same ▸ isExponent
        · exact absurd (cons.inj same).1 point

theorem fraction_stops {fraction exponent : List UInt8} (isFraction : IsFraction fraction)
    (isExponent : IsExponent exponent) :
    (fraction ++ exponent).dropWhile isDigit = fraction ++ exponent := by
  obtain rfl | ⟨digits, -, rfl⟩ := isFraction
  · exact exponent_stops isExponent
  · simp [isDigit]

theorem integerFault_iff : integerFault before bytes = none ↔
    ∃ whole fraction exponent, bytes = whole ++ (fraction ++ exponent) ∧ IsWhole whole ∧
      IsFraction fraction ∧ IsExponent exponent := by
  cases bytes with
  | nil =>
    constructor
    · intro fault
      exact absurd fault (by simp [integerFault])
    · intro written
      obtain ⟨whole, fraction, exponent, same, isWhole, -, -⟩ := written
      have none := (append_eq_nil_iff.mp same.symm).1
      obtain zero | ⟨first, rest, digits, -⟩ := isWhole
      · exact absurd (zero.symm.trans none) (by simp)
      · exact absurd (digits.symm.trans none) (by simp)
  | cons c rest =>
    unfold integerFault
    dsimp only
    by_cases zero : c = 0x30
    · subst zero
      rw [if_pos rfl, fractionFault_iff]
      constructor
      · intro written
        obtain ⟨fraction, exponent, rfl, isFraction, isExponent⟩ := written
        exact ⟨[0x30], fraction, exponent, rfl, .inl rfl, isFraction, isExponent⟩
      · intro written
        obtain ⟨whole, fraction, exponent, same, isWhole, isFraction, isExponent⟩ := written
        obtain rfl | ⟨first, digits, rfl, low, -, -⟩ := isWhole
        · exact ⟨fraction, exponent, (cons.inj same).2, isFraction, isExponent⟩
        · rw [← (cons.inj same).1] at low
          exact absurd low (by decide)
    · rw [if_neg zero]
      by_cases nonzero : 0x31 ≤ c ∧ c ≤ 0x39
      · rw [if_pos nonzero, skipDigits_rest, fractionFault_iff]
        constructor
        · intro written
          obtain ⟨fraction, exponent, left, isFraction, isExponent⟩ := written
          refine ⟨c :: rest.takeWhile isDigit, fraction, exponent, ?_,
            .inr ⟨c, _, rfl, nonzero.1, nonzero.2, digits_takeWhile⟩, isFraction, isExponent⟩
          rw [← left, cons_append, takeWhile_append_dropWhile]
        · intro written
          obtain ⟨whole, fraction, exponent, same, isWhole, isFraction, isExponent⟩ := written
          obtain rfl | ⟨first, digits, rfl, -, -, all⟩ := isWhole
          · exact absurd (cons.inj same).1 zero
          · have split : rest = digits ++ (fraction ++ exponent) := (cons.inj same).2
            rw [split, dropWhile_digits all (fraction_stops isFraction isExponent)]
            exact ⟨fraction, exponent, rfl, isFraction, isExponent⟩
      · rw [if_neg nonzero]
        constructor
        · intro fault
          exact absurd fault (by simp)
        · intro written
          obtain ⟨whole, fraction, exponent, same, isWhole, -, -⟩ := written
          obtain rfl | ⟨first, digits, rfl, low, high, -⟩ := isWhole
          · exact absurd (cons.inj same).1 zero
          · rw [← (cons.inj same).1] at low high
            exact absurd ⟨low, high⟩ nonzero

theorem whole_digit {whole : List UInt8} (isWhole : IsWhole whole) :
    ∃ first rest, whole = first :: rest ∧ IsDigit first := by
  obtain rfl | ⟨first, rest, rfl, low, high, -⟩ := isWhole
  · exact ⟨0x30, [], rfl, by decide, by decide⟩
  · refine ⟨first, rest, rfl, ?_, high⟩
    rw [UInt8.le_iff_toNat_le] at low ⊢
    exact Nat.le_trans (by decide) low

theorem numberFault_iff : numberFault bytes = none ↔ IsNumber bytes := by
  cases bytes with
  | nil =>
    constructor
    · intro fault
      exact absurd fault (by simp [numberFault])
    · intro written
      obtain ⟨minus, whole, fraction, exponent, same, -, isWhole, -, -⟩ := written
      obtain ⟨first, rest, rfl, -⟩ := whole_digit isWhole
      exact absurd same.symm (by simp)
  | cons c rest =>
    unfold numberFault
    dsimp only
    by_cases minus : c = 0x2D
    · subst minus
      rw [if_pos rfl, integerFault_iff]
      constructor
      · intro written
        obtain ⟨whole, fraction, exponent, rfl, parts⟩ := written
        exact ⟨[0x2D], whole, fraction, exponent, rfl, .inr rfl, parts⟩
      · intro written
        obtain ⟨minus, whole, fraction, exponent, same, rfl | rfl, isWhole, parts⟩ := written
        · obtain ⟨first, digits, rfl, digit⟩ := whole_digit isWhole
          rw [← (cons.inj same).1] at digit
          exact absurd digit (sign_notDigit (.inl rfl))
        · exact ⟨whole, fraction, exponent, (cons.inj same).2, isWhole, parts⟩
    · rw [if_neg minus, integerFault_iff]
      constructor
      · intro written
        obtain ⟨whole, fraction, exponent, same, parts⟩ := written
        exact ⟨[], whole, fraction, exponent, same, .inl rfl, parts⟩
      · intro written
        obtain ⟨sign, whole, fraction, exponent, same, rfl | rfl, parts⟩ := written
        · exact ⟨whole, fraction, exponent, same, parts⟩
        · exact absurd (cons.inj same).1 minus

theorem numberChar_digit (digit : IsDigit c) : numberChar c = true := by
  unfold numberChar
  rw [decide_eq_true_iff]
  exact .inr (.inr (.inr (.inl digit)))

theorem numberChar_number (number : IsNumber bytes) : ∀ c ∈ bytes, numberChar c = true := by
  obtain ⟨minus, whole, fraction, exponent, rfl, isMinus, isWhole, isFraction, isExponent⟩ := number
  intro c member
  rcases mem_append.mp member with inMinus | member
  · rcases isMinus with rfl | rfl
    · exact absurd inMinus (by simp)
    · rw [mem_singleton.mp inMinus]
      rfl
  rcases mem_append.mp member with inWhole | member
  · obtain rfl | ⟨first, digits, rfl, low, high, all⟩ := isWhole
    · rw [mem_singleton.mp inWhole]
      rfl
    · rcases mem_cons.mp inWhole with rfl | among
      · refine numberChar_digit ⟨?_, high⟩
        rw [UInt8.le_iff_toNat_le] at low ⊢
        exact Nat.le_trans (by decide) low
      · exact numberChar_digit (all c among)
  rcases mem_append.mp member with inFraction | inExponent
  · obtain rfl | ⟨digits, isDigits, rfl⟩ := isFraction
    · exact absurd inFraction (by simp)
    · rcases mem_cons.mp inFraction with rfl | among
      · rfl
      · exact numberChar_digit (isDigits.2 c among)
  · obtain rfl | ⟨e, sign, digits, letter, isSign, isDigits, rfl⟩ := isExponent
    · exact absurd inExponent (by simp)
    · rcases mem_cons.mp inExponent with rfl | among
      · rcases letter with rfl | rfl <;> rfl
      · rcases mem_append.mp among with inSign | inDigits
        · rcases isSign with rfl | rfl | rfl
          · exact absurd inSign (by simp)
          · rw [mem_singleton.mp inSign]
            rfl
          · rw [mem_singleton.mp inSign]
            rfl
        · exact numberChar_digit (isDigits.2 c inDigits)

/-- The bytes do not go on with one that could belong to a number. -/
def NumberStops (bytes : List UInt8) : Prop := ∀ c ∈ bytes.head?, numberChar c = false

/-- The scanner reads exactly the numbers that stop there and fit its buffer. -/
theorem scanNumber_iff {first : UInt8} (begins : numberChar first = true) :
    scanNumber first bytes = some (text, rest) ↔
      text.length < maxSize ∧ IsNumber text ∧ first :: bytes = text ++ rest ∧ NumberStops rest := by
  unfold scanNumber
  constructor
  · intro scanned
    dsimp only at scanned
    split at scanned <;> rename_i valid
    · obtain ⟨rfl, rfl⟩ := Prod.mk.inj (Option.some.inj scanned)
      refine ⟨valid.1, numberFault_iff.mp valid.2, ?_, ?_⟩
      · rw [cons_append, takeWhile_append_dropWhile]
      · intro c head
        have stops := head?_dropWhile_not numberChar bytes
        rw [Option.mem_def.mp head] at stops
        exact stops
    · exact absurd scanned (by simp)
  · intro written
    obtain ⟨fits, number, split, stops⟩ := written
    have all := numberChar_number number
    -- The collected run is the number: all its bytes may belong to one, the next one may not.
    have run : (first :: bytes).takeWhile numberChar = text ∧
        (first :: bytes).dropWhile numberChar = rest := by
      have ends : rest.takeWhile numberChar = [] ∧ rest.dropWhile numberChar = rest := by
        cases rest with
        | nil => exact ⟨rfl, rfl⟩
        | cons c later =>
          have stop : numberChar c = false := stops c rfl
          constructor
          · rw [takeWhile_cons_of_neg (by simp [stop])]
          · rw [dropWhile_cons_of_neg (by simp [stop])]
      rw [split, takeWhile_append_of_pos all, dropWhile_append_of_pos all, ends.1, ends.2, append_nil]
      exact ⟨rfl, rfl⟩
    rw [takeWhile_cons_of_pos begins, dropWhile_cons_of_pos begins] at run
    dsimp only
    rw [run.1, run.2, if_pos ⟨fits, numberFault_iff.mpr number⟩]

variable {frame : Frame} {bytes : List UInt8} {walk : List Element}

theorem blank_notNumber : ∀ {c : UInt8}, IsBlank c → numberChar c = false := by
  intro c blank
  rcases blank with rfl | rfl | rfl | rfl <;> rfl

/-- One more element has begun in a container. -/
def Frame.counted (frame : Frame) : Frame := { frame with count := frame.count + 1 }

/-- The next element of a container is the name of a member. -/
def Frame.NameDue (frame : Frame) : Prop := frame.type = .object ∧ frame.count % 2 = 0

/-- What separates the next element from the one before it. -/
inductive Skips (frame : Frame) : List UInt8 → Prop
  | first (fresh : frame.count = 0) : Skips frame []
  | comma (before : Blanks) (later : frame.count ≠ 0) (due : frame.type = .array ∨ frame.NameDue) :
      Skips frame (before.val ++ [0x2C])
  | colon (before : Blanks) (named : frame.type = .object ∧ frame.count % 2 = 1) :
      Skips frame (before.val ++ [0x3A])

/-- What ends a container, or the document. -/
inductive Ends (frame : Frame) : List UInt8 → List Element → Prop
  | array (before : Blanks) (kind : frame.type = .array) :
      Ends frame (before.val ++ [0x5D]) [.endArray]
  | object (before : Blanks) (due : frame.NameDue) : Ends frame (before.val ++ [0x7D]) [.endObject]
  | document (before : Blanks) (kind : frame.type = .done) (later : frame.count ≠ 0) :
      Ends frame before.val []

/-- The rest of a container: its end, or one more value and what follows that. -/
inductive Closes : Frame → List UInt8 → List Element → Prop
  | ends {frame : Frame} {bytes : List UInt8} {elements : List Element}
      (last : Ends frame bytes elements) : Closes frame bytes elements
  | value {frame : Frame} {skipped bytes : List UInt8} {elements : List Element}
      (skips : Skips frame skipped) (before : Blanks) (value : Value)
      (name : frame.NameDue → ∃ pieces, value = .string pieces)
      (more : Closes frame.counted bytes elements) :
      Closes frame (skipped ++ (before.val ++ (value.text ++ bytes))) (value.traversal ++ elements)

/-- The elements of an array and its end are the rest of an array. -/
theorem elements_closes : ∀ (items : Elements) {frame : Frame} {skipped : List UInt8},
    frame.type = .array → Skips frame skipped →
      Closes frame (skipped ++ (items.text ++ [0x5D])) (items.traversal ++ [.endArray])
  | .last before value after, frame, skipped, kind, skips => by
    have notName : frame.NameDue → ∃ pieces, value = .string pieces := by
      intro due
      exact absurd (kind.symm.trans due.1) (by simp)
    have ends : Closes frame.counted (after.val ++ [0x5D]) [.endArray] := .ends (.array after kind)
    simpa [Elements.text, Elements.traversal] using Closes.value skips before value notName ends
  | .more before value after rest, frame, skipped, kind, skips => by
    have notName : frame.NameDue → ∃ pieces, value = .string pieces := by
      intro due
      exact absurd (kind.symm.trans due.1) (by simp)
    have comma : Skips frame.counted (after.val ++ [0x2C]) := .comma after (Nat.succ_ne_zero _) (.inl kind)
    have closes : Closes frame.counted _ _ := elements_closes rest kind comma
    simpa [Elements.text, Elements.traversal] using Closes.value skips before value notName closes

theorem Closes.elements (closes : Closes frame bytes walk) (kind : frame.type = .array) :
    (∃ before : Blanks, bytes = before.val ++ [0x5D] ∧ walk = [.endArray]) ∨
    ∃ skipped, ∃ items : Elements, Skips frame skipped ∧ bytes = skipped ++ (items.text ++ [0x5D]) ∧
      walk = items.traversal ++ [.endArray] := by
  -- The last element is the one whose rest is the end.
  induction closes with
  | ends last =>
    cases last with
    | array before => exact .inl ⟨before, rfl, rfl⟩
    | object before due => exact absurd (kind.symm.trans due.1) (by simp)
    | document before isDone => exact absurd (kind.symm.trans isDone) (by simp)
  | value skips before value name more ih =>
    refine .inr ?_
    obtain ⟨after, rfl, rfl⟩ | ⟨separator, items, skipsNext, rfl, rfl⟩ := ih kind
    · exact ⟨_, .last before value after, skips, by simp [Elements.text], by simp [Elements.traversal]⟩
    · cases skipsNext with
      | first fresh => exact absurd fresh (Nat.succ_ne_zero _)
      | comma after later due =>
        exact ⟨_, .more before value after items, skips, by simp [Elements.text],
          by simp [Elements.traversal]⟩
      | colon after named => exact absurd (kind.symm.trans named.1) (by simp)

/-- What follows the value of a member. -/
def AfterMember (tail : List UInt8) (elements : List Element) : Prop :=
  (∃ before : Blanks, tail = before.val ++ [0x7D] ∧ elements = [.endObject]) ∨
  ∃ before : Blanks, ∃ members : Members, tail = before.val ++ 0x2C :: (members.text ++ [0x7D]) ∧
    elements = members.traversal ++ [.endObject]

theorem Frame.NameDue.next (due : frame.NameDue) :
    frame.counted.count % 2 = 1 ∧ frame.counted.counted.NameDue := by
  obtain ⟨kind, even⟩ := due
  have odd : (frame.count + 1) % 2 = 1 := by omega
  have evenAgain : (frame.count + 1 + 1) % 2 = 0 := by omega
  exact ⟨odd, kind, evenAgain⟩

theorem member_closes {skipped tail : List UInt8} {later : List Element} (due : frame.NameDue)
    (skips : Skips frame skipped) (before : Blanks) (name : List Piece) (between colon : Blanks)
    (value : Value) (more : Closes frame.counted.counted tail later) :
    Closes frame (skipped ++ (before.val ++ (quoted name ++ (between.val ++ 0x3A :: (colon.val ++
        (value.text ++ tail)))))) (.string name :: (value.traversal ++ later)) := by
  obtain ⟨odd, -⟩ := due.next
  have notName : frame.counted.NameDue → ∃ pieces, value = .string pieces := by
    intro again
    exact absurd (again.2.symm.trans odd) (by decide)
  have separator : Skips frame.counted (between.val ++ [0x3A]) := .colon between ⟨due.1, odd⟩
  have afterName := Closes.value separator colon value notName more
  have closes := Closes.value skips before (.string name) (fun _ => ⟨name, rfl⟩) afterName
  simpa [Value.text, Value.traversal] using closes

theorem members_closes : ∀ (members : Members) {frame : Frame} {skipped : List UInt8},
    frame.NameDue → Skips frame skipped →
      Closes frame (skipped ++ (members.text ++ [0x7D])) (members.traversal ++ [.endObject])
  | .last before name between colon value after, frame, skipped, due, skips => by
    have ends : Closes frame.counted.counted (after.val ++ [0x7D]) [.endObject] :=
      .ends (.object after due.next.2)
    simpa [Members.text, Members.traversal] using member_closes due skips before name between colon value ends
  | .more before name between colon value after rest, frame, skipped, due, skips => by
    have again := due.next.2
    have comma : Skips frame.counted.counted (after.val ++ [0x2C]) :=
      .comma after (Nat.succ_ne_zero _) (.inr again)
    have closes := members_closes rest again comma
    simpa [Members.text, Members.traversal] using
      member_closes due skips before name between colon value closes

theorem Closes.members (closes : Closes frame bytes walk) (kind : frame.type = .object) :
    (frame.count % 2 = 0 → (∃ before : Blanks, bytes = before.val ++ [0x7D] ∧ walk = [.endObject]) ∨
      ∃ skipped, ∃ members : Members, Skips frame skipped ∧ bytes = skipped ++ (members.text ++ [0x7D]) ∧
        walk = members.traversal ++ [.endObject]) ∧ (frame.count % 2 = 1 →
      ∃ between colon : Blanks, ∃ value : Value, ∃ tail later,
        bytes = between.val ++ 0x3A :: (colon.val ++ (value.text ++ tail)) ∧
        walk = value.traversal ++ later ∧ AfterMember tail later) := by
  induction closes with
  | ends last =>
    cases last with
    | array before isArray => exact absurd (kind.symm.trans isArray) (by simp)
    | object before due =>
      refine ⟨fun _ => .inl ⟨before, rfl, rfl⟩, fun odd => ?_⟩
      exact absurd (due.2.symm.trans odd) (by decide)
    | document before isDone => exact absurd (kind.symm.trans isDone) (by simp)
  | @value frame skipped bytes elements skips before value name more ih =>
    obtain ⟨nameNext, valueNext⟩ := ih kind
    constructor
    · intro even
      have odd : frame.counted.count % 2 = 1 := by
        simp only [Frame.counted]
        omega
      obtain ⟨pieces, rfl⟩ := name ⟨kind, even⟩
      obtain ⟨between, colon, value, tail, later, rfl, rfl, follows⟩ := valueNext odd
      refine .inr ⟨skipped, ?_⟩
      obtain ⟨after, rfl, rfl⟩ | ⟨after, members, rfl, rfl⟩ := follows
      · exact ⟨.last before pieces between colon value after, skips,
          by simp [Members.text, Value.text], by simp [Members.traversal, Value.traversal]⟩
      · exact ⟨.more before pieces between colon value after members, skips,
          by simp [Members.text, Value.text], by simp [Members.traversal, Value.traversal]⟩
    · intro odd
      have even : frame.counted.count % 2 = 0 := by
        simp only [Frame.counted]
        omega
      cases skips with
      | first fresh => exact absurd odd (by simp [fresh])
      | comma between later due =>
        cases due with
        | inl isArray => exact absurd (kind.symm.trans isArray) (by simp)
        | inr due => exact absurd (due.2.symm.trans odd) (by decide)
      | colon between named =>
        refine ⟨between, before, value, bytes, elements, by simp, rfl, ?_⟩
        obtain ⟨after, rfl, rfl⟩ | ⟨separator, members, skipsNext, rfl, rfl⟩ := nameNext even
        · exact .inl ⟨after, rfl, rfl⟩
        · cases skipsNext with
          | first fresh => exact absurd fresh (Nat.succ_ne_zero _)
          | comma after later due => exact .inr ⟨after, members, by simp, rfl⟩
          | colon after namedNext => exact absurd (even.symm.trans namedNext.2) (by decide)

theorem Closes.array (closes : Closes ⟨.array, 0⟩ bytes walk) :
    ∃ value : Value, value.text = 0x5B :: bytes ∧ value.traversal = .startArray :: walk := by
  obtain ⟨inside, rfl, rfl⟩ | ⟨skipped, items, skips, rfl, rfl⟩ := closes.elements rfl
  · exact ⟨.emptyArray inside, rfl, rfl⟩
  · cases skips with
    | first => exact ⟨.array items, rfl, rfl⟩
    | comma before later => exact absurd rfl later
    | colon before named => exact absurd named.1 (by simp)

theorem Closes.object (closes : Closes ⟨.object, 0⟩ bytes walk) :
    ∃ value : Value, value.text = 0x7B :: bytes ∧ value.traversal = .startObject :: walk := by
  obtain ⟨inside, rfl, rfl⟩ | ⟨skipped, members, skips, rfl, rfl⟩ := (closes.members rfl).1 rfl
  · exact ⟨.emptyObject inside, rfl, rfl⟩
  · cases skips with
    | first => exact ⟨.object members, rfl, rfl⟩
    | comma before later => exact absurd rfl later
    | colon before named => exact absurd named.2 (by simp)

/-- What a document that was not yet begun demands is a whole text. -/
theorem closes_document_iff : Closes ⟨.done, 0⟩ bytes walk ↔
    ∃ document : Document, document.text = bytes ∧ document.value.traversal = walk := by
  constructor
  · intro closes
    generalize start : (⟨.done, 0⟩ : Frame) = frame at closes
    cases closes with
    | ends last =>
      subst start
      cases last with
      | array before kind => exact absurd kind (by simp)
      | object before due => exact absurd due.1 (by simp)
      | document before kind later => exact absurd rfl later
    | value skips before value name more =>
      subst start
      cases skips with
      | comma before later => exact absurd rfl later
      | colon before named => exact absurd named.1 (by simp)
      | first =>
        -- After its value a document has only blanks.
        cases more with
        | ends last =>
          cases last with
          | array after kind => exact absurd kind (by simp [Frame.counted])
          | object after due => exact absurd due.1 (by simp [Frame.counted])
          | document after => exact ⟨⟨before, value, after⟩, rfl, (append_nil _).symm⟩
        | value skips =>
          cases skips with
          | first fresh => exact absurd fresh (Nat.succ_ne_zero _)
          | comma after later due =>
            cases due with
            | inl isArray => exact absurd isArray (by simp [Frame.counted])
            | inr due => exact absurd due.1 (by simp [Frame.counted])
          | colon after named => exact absurd named.1 (by simp [Frame.counted])
  · intro written
    obtain ⟨⟨before, value, after⟩, rfl, rfl⟩ := written
    have ends : Closes (Frame.counted ⟨.done, 0⟩) after.val [] :=
      .ends (.document after rfl (Nat.succ_ne_zero _))
    have closes := Closes.value (.first rfl) before value (fun due => absurd due.1 (by simp)) ends
    simpa [Document.text] using closes

/-- What all open containers demand, the innermost first. -/
inductive Remains : List Frame → List UInt8 → List Element → Prop
  | nil : Remains [] [] []
  | cons {top : Frame} {below : List Frame} {inner rest : List UInt8} {first later : List Element}
      (closes : Closes top inner first) (outside : Remains below rest later) :
      Remains (top :: below) (inner ++ rest) (first ++ later)

theorem Closes.stops (closes : Closes frame bytes walk) (later : frame.count ≠ 0) :
    NumberStops bytes ∧ (frame.type ≠ .done → bytes ≠ []) := by
  -- Blanks and what follows them are no bytes of numbers.
  have stops : ∀ (before : Blanks) (c : UInt8) (rest : List UInt8), numberChar c = false →
      NumberStops (before.val ++ c :: rest) := by
    intro before c rest other head member
    obtain ⟨blanks, all⟩ := before
    cases blanks with
    | nil =>
      obtain rfl := Option.some.inj member
      exact other
    | cons blank blanks =>
      obtain rfl := Option.some.inj member
      exact blank_notNumber (all blank mem_cons_self)
  cases closes with
  | ends last =>
    cases last with
    | array before => exact ⟨stops before 0x5D [] rfl, fun _ => by simp⟩
    | object before => exact ⟨stops before 0x7D [] rfl, fun _ => by simp⟩
    | document before kind =>
      refine ⟨?_, fun other => absurd kind other⟩
      intro head member
      exact blank_notNumber (before.property head (mem_of_mem_head? member))
  | value skips before value name more =>
    cases skips with
    | first fresh => exact absurd fresh later
    | comma before => exact ⟨by simpa using stops before 0x2C _ rfl, fun _ => by simp⟩
    | colon before => exact ⟨by simpa using stops before 0x3A _ rfl, fun _ => by simp⟩

/-- Behind an element nothing that is still demanded could belong to a number. -/
theorem Remains.stops {top : Frame} {below : List Frame}
    (remains : Remains (top :: below) bytes walk) (nested : Nested top below)
    (later : top.count ≠ 0) : NumberStops bytes := by
  cases remains with
  | @cons top below inner rest first others closes outside =>
    obtain ⟨stops, inside⟩ := closes.stops later
    cases below with
    | nil =>
      cases outside with
      | nil => rwa [append_nil]
    | cons outer below =>
      have container : top.type ≠ .done := by
        cases nested.1 with
        | inl object => simp [object]
        | inr array => simp [array]
      intro c head
      rw [head?_append_of_ne_nil _ (inside container)] at head
      exact stops c head

end Libretro.Rjson
