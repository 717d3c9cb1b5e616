import Libretro.Formats.RjsonReader
import Libretro.Formats.Rjson
import Libretro.Library.JsonText

/-! The string scanner accepts the strings of the grammar and says what they say. -/

namespace Libretro.Rjson

open JsonText List Nat Option Utf8

variable {bytes rest string text : List UInt8} {highBit : Bool}

theorem hexDigit_eq (c : UInt8) : hexDigit c = hexValue c := rfl

theorem shortEscape_eq : ∀ c : UInt8, shortEscape c = shortValue c := forall_byte (by decide +kernel)

theorem hexValue_lt {c : UInt8} {value : Nat} (digit : hexValue c = some value) : value < 16 := by
  unfold hexValue at digit
  simp only [UInt8.le_iff_toNat_le] at digit
  split_ifs at digit with decimal lower upper
  · obtain rfl := some.inj digit
    have := decimal.2
    simp at this
    omega
  · obtain rfl := some.inj digit
    have := lower.2
    simp at this
    omega
  · obtain rfl := some.inj digit
    have := upper.2
    simp at this
    omega

theorem or_low {exponent low : Nat} (small : low < 2 ^ exponent) (high : Nat) :
    2 ^ exponent * high ||| low = 2 ^ exponent * high + low :=
  (two_pow_add_eq_or_of_lt small high).symm

theorem or_digits {a b c d : Nat} (bLow : b < 16) (cLow : c < 16) (dLow : d < 16) :
    (((0 ||| a <<< 12) ||| b <<< 8) ||| c <<< 4) ||| d <<< 0 = ((a * 16 + b) * 16 + c) * 16 + d := by
  rw [zero_or, shiftLeft_eq, shiftLeft_eq, shiftLeft_eq, shiftLeft_zero]
  rw [mul_comm a, or_low (by omega)]
  have second : 2 ^ 12 * a + b * 2 ^ 8 = 2 ^ 8 * (16 * a + b) := by omega
  rw [second, or_low (by omega)]
  have third : 2 ^ 8 * (16 * a + b) + c * 2 ^ 4 = 2 ^ 4 * ((16 * a + b) * 16 + c) := by omega
  rw [third, or_low (by omega)]
  omega

theorem scanDigits_four {a b c d : UInt8} {unit : Nat} (spells : hexCode a b c d = some unit)
    (rest : List UInt8) : scanDigits 4 0 (a :: b :: c :: d :: rest) = some (unit, rest) := by
  unfold hexCode at spells
  obtain ⟨first, firstDigit, spells⟩ := bind_eq_some_iff.mp spells
  obtain ⟨second, secondDigit, spells⟩ := bind_eq_some_iff.mp spells
  obtain ⟨third, thirdDigit, spells⟩ := bind_eq_some_iff.mp spells
  obtain ⟨last, lastDigit, rfl⟩ := map_eq_some_iff.mp spells
  simp only [scanDigits, hexDigit_eq, firstDigit, secondDigit, thirdDigit, lastDigit]
  rw [← or_digits (hexValue_lt secondDigit) (hexValue_lt thirdDigit) (hexValue_lt lastDigit)]

theorem scanDigits_some {unit : Nat} (scanned : scanDigits 4 0 bytes = some (unit, rest)) :
    ∃ a b c d, bytes = a :: b :: c :: d :: rest ∧ hexCode a b c d = some unit := by
  match bytes with
  | [] => simp [scanDigits] at scanned
  | [a] => cases first : hexDigit a <;> simp [scanDigits, first] at scanned
  | [a, b] =>
    cases first : hexDigit a <;> cases second : hexDigit b <;>
      simp [scanDigits, first, second] at scanned
  | [a, b, c] =>
    cases first : hexDigit a <;> cases second : hexDigit b <;> cases third : hexDigit c <;>
      simp [scanDigits, first, second, third] at scanned
  | a :: b :: c :: d :: later =>
    cases spells : hexCode a b c d with
    | some value =>
      rw [scanDigits_four spells] at scanned
      obtain ⟨rfl, rfl⟩ := Prod.mk.inj (some.inj scanned)
      exact ⟨a, b, c, d, rfl, spells⟩
    | none =>
      unfold hexCode at spells
      cases first : hexValue a <;> cases second : hexValue b <;> cases third : hexValue c <;>
        cases last : hexValue d <;>
        simp [scanDigits, hexDigit_eq, first, second, third, last] at scanned spells

theorem or_mark {exponent low : Nat} (small : low < 2 ^ exponent) (mark : Nat) :
    low ||| 2 ^ exponent * mark = 2 ^ exponent * mark + low := by
  rw [Nat.or_comm, or_low small]

theorem utf8Bytes_eq {code : Nat} (inRange : code < 0x110000) : utf8Bytes code = encode code := by
  have masked : ∀ exponent value, value &&& (2 ^ exponent - 1) = value % 2 ^ exponent :=
    fun exponent value => and_two_pow_sub_one_eq_mod value exponent
  have tail : ∀ value, (value &&& 0x3F) ||| 0x80 = 0x80 + value % 64 := by
    intro value
    have marked : (value &&& (2 ^ 6 - 1)) ||| 2 ^ 6 * 2 = 2 ^ 6 * 2 + value % 2 ^ 6 := by
      rw [masked, or_mark (mod_lt _ (by decide))]
    exact marked
  have lead : ∀ exponent mark value, value < 2 ^ exponent →
      (value &&& (2 ^ exponent - 1)) ||| 2 ^ exponent * mark = 2 ^ exponent * mark + value := by
    intro exponent mark value small
    rw [masked, mod_eq_of_lt small, or_mark small]
  unfold utf8Bytes encode
  simp only [tail, shiftRight_eq_div_pow]
  split_ifs
  · rfl
  · have two := lead 5 6 (code / 2 ^ 6) (by omega)
    have mark : (code / 2 ^ 6 &&& 0x1F) ||| 0xC0 = 0xC0 + code / 64 := two
    rw [mark]
  · have three := lead 4 14 (code / 2 ^ 12) (by omega)
    have mark : (code / 2 ^ 12 &&& 0x0F) ||| 0xE0 = 0xE0 + code / 4096 := three
    rw [mark]
  · have four := lead 3 30 (code / 2 ^ 18) (by omega)
    have mark : (code / 2 ^ 18 &&& 0x07) ||| 0xF0 = 0xF0 + code / 262144 := four
    rw [mark]

/-- A byte that stands for itself in a string. -/
def IsPlain (c : UInt8) : Prop := 0x20 ≤ c ∧ c ≠ 0x22 ∧ c ≠ 0x5C

theorem scanString_raw {raw : List UInt8} (plain : ∀ c ∈ raw, IsPlain c) :
    ∃ mask, scanString {} (raw ++ rest) string highBit = scanString {} rest (string ++ raw) mask := by
  induction raw generalizing string highBit with
  | nil => exact ⟨highBit, by simp⟩
  | cons c raw ih =>
    obtain ⟨visible, notQuote, notBackslash⟩ := plain c mem_cons_self
    obtain ⟨mask, same⟩ := @ih (string ++ [c]) (highBit || decide (0x80 ≤ c))
      fun other member => plain other (mem_cons_of_mem _ member)
    refine ⟨mask, ?_⟩
    rw [cons_append, scanString_char _ notQuote notBackslash, if_pos (.inl visible), same,
      append_assoc, singleton_append]

theorem plain_encode {code : Nat} (scalar : Utf8.IsScalar code)
    (unescaped : 0x20 ≤ code ∧ code ≠ 0x22 ∧ code ≠ 0x5C) : ∀ c ∈ encode code, IsPlain c := by
  intro c member
  unfold IsPlain
  have values : ∀ value : UInt8, c ≠ value ↔ c.toNat ≠ value.toNat :=
    fun value => (UInt8.toNat_inj (a := c) (b := value)).not.symm
  rw [values, values, UInt8.le_iff_toNat_le]
  have known : c.toNat = code ∨ 0x80 ≤ c.toNat := by
    by_cases ascii : code < 0x80
    · rw [encode_ascii ascii, mem_singleton] at member
      rw [member, toNat_ofNat (by omega)]
      exact .inl rfl
    · exact .inr (encode_high scalar (Nat.le_of_not_lt ascii) c member)
  simp
  omega

theorem scanEscape_short {letter value : UInt8} (known : shortValue letter = some value)
    (rest : List UInt8) : scanEscape {} (letter :: rest) = some ([value], rest) := by
  have notUnicode : letter ≠ 0x75 := by
    -- The letter of a Unicode escape stands for no character by itself.
    intro same
    rw [same, show shortValue 0x75 = none from by decide] at known
    exact absurd known (by simp)
  simp only [scanEscape, if_neg notUnicode, shortEscape_eq, known]
  simp

theorem scanEscape_unicode {a b c d : UInt8} {unit : Nat} (spells : hexCode a b c d = some unit)
    (notHigh : ¬ IsHigh unit) (notLow : ¬ IsLow unit) (inRange : unit < 0x110000) (rest : List UInt8) :
    scanEscape {} (0x75 :: a :: b :: c :: d :: rest) = some (encode unit, rest) := by
  have notSurrogate : ¬(0xD800 ≤ unit ∧ unit ≤ 0xDFFF) := by
    unfold IsHigh IsLow at *
    omega
  unfold IsHigh at notHigh
  unfold IsLow at notLow
  simp only [scanEscape, if_pos, scanUnicode, scanDigits_four spells, bind_some]
  rw [if_neg notHigh, if_neg notLow, codepointBytes, if_neg notSurrogate, if_pos inRange,
    utf8Bytes_eq inRange]
  rfl

theorem scanEscape_pair {a b c d e f g h : UInt8} {high low : Nat}
    (spells : hexCode a b c d = some high) (spellsLow : hexCode e f g h = some low)
    (isHigh : IsHigh high) (isLow : IsLow low) (rest : List UInt8) :
    scanEscape {} (0x75 :: a :: b :: c :: d :: 0x5C :: 0x75 :: e :: f :: g :: h :: rest) =
      some (encode (pairCode high low), rest) := by
  unfold IsHigh at isHigh
  unfold IsLow at isLow
  have same : (high - 0xD800) * 0x400 + ((low - 0xDC00) + 0x10000) = pairCode high low := by
    unfold pairCode
    omega
  have inRange : pairCode high low < 0x110000 := by
    unfold pairCode
    omega
  have notSurrogate : ¬(0xD800 ≤ pairCode high low ∧ pairCode high low ≤ 0xDFFF) := by
    unfold pairCode
    omega
  simp only [scanEscape, if_pos, scanUnicode, scanDigits_four spells, bind_some]
  rw [if_pos isHigh]
  simp only [scanSurrogate, scanChar, ne_eq, not_true_eq_false, if_false, bind_some,
    scanDigits_four spellsLow]
  rw [if_neg (by omega), same, codepointBytes, if_neg notSurrogate, if_pos inRange,
    utf8Bytes_eq inRange]
  rfl

theorem hexCode_lt {a b c d : UInt8} {unit : Nat} (spells : hexCode a b c d = some unit) :
    unit < 0x10000 := by
  unfold hexCode at spells
  obtain ⟨first, firstDigit, spells⟩ := bind_eq_some_iff.mp spells
  obtain ⟨second, secondDigit, spells⟩ := bind_eq_some_iff.mp spells
  obtain ⟨third, thirdDigit, spells⟩ := bind_eq_some_iff.mp spells
  obtain ⟨last, lastDigit, rfl⟩ := map_eq_some_iff.mp spells
  have := hexValue_lt firstDigit
  have := hexValue_lt secondDigit
  have := hexValue_lt thirdDigit
  have := hexValue_lt lastDigit
  omega

theorem pairCode_scalar {high low : Nat} (isHigh : IsHigh high) (isLow : IsLow low) :
    Utf8.IsScalar (pairCode high low) := by
  unfold IsHigh at isHigh
  unfold IsLow at isLow
  unfold Utf8.IsScalar pairCode
  omega

theorem unit_scalar {unit : Nat} (small : unit < 0x10000) (notHigh : ¬ IsHigh unit)
    (notLow : ¬ IsLow unit) : Utf8.IsScalar unit := by
  unfold IsHigh IsLow at *
  unfold Utf8.IsScalar
  omega

theorem shortValue_ascii : ∀ letter value : UInt8, shortValue letter = some value → value.toNat < 0x80 := by
  have each : ∀ letter : UInt8, (shortValue letter).all (fun value => value.toNat < 0x80) = true :=
    forall_byte (by decide +kernel)
  intro letter value known
  have ascii := each letter
  rw [known] at ascii
  exact of_decide_eq_true ascii

theorem scanString_escaped {bytes pushed : List UInt8} (escaped : scanEscape {} bytes = some (pushed, rest)) :
    scanString {} (0x5C :: bytes) string highBit = scanString {} rest (string ++ pushed) highBit := by
  rw [scanString_escape, escaped, bind_some]

theorem scanString_spelled {pieces : List Piece} {decoded : List UInt8}
    (decoding : decode pieces = some decoded) :
    ∃ mask, scanString {} (spelled pieces ++ rest) string highBit =
      scanString {} rest (string ++ decoded) mask := by
  -- Pieces are taken from the front, two at a time where they are a surrogate pair.
  fun_induction decode pieces generalizing string highBit decoded with
  | case1 =>
    obtain rfl := some.inj decoding
    exact ⟨highBit, by rw [spelled, flatMap_nil, nil_append, append_nil]⟩
  | case2 code scalar unescaped later ih =>
    -- A plain character is read byte by byte.
    obtain ⟨said, decodedLater, rfl⟩ := map_eq_some_iff.mp decoding
    obtain ⟨middle, front⟩ := @scanString_raw (spelled later ++ rest) string highBit _
      (plain_encode scalar unescaped)
    obtain ⟨mask, back⟩ := @ih (string ++ encode code) middle _ decodedLater
    refine ⟨mask, ?_⟩
    rw [spelled, flatMap_cons, append_assoc, Piece.text, ← spelled, front, back, append_assoc]
  | case3 letter value known later ih =>
    obtain ⟨said, decodedLater, rfl⟩ := map_eq_some_iff.mp decoding
    obtain ⟨mask, back⟩ := @ih (string ++ [value]) highBit _ decodedLater
    refine ⟨mask, ?_⟩
    have front := @scanString_escaped _ string highBit _ _ (scanEscape_short known (spelled later ++ rest))
    rw [append_assoc, singleton_append] at back
    rw [← back, ← front]
    rfl
  | case4 a b c d high spells isHigh e f g h low spellsLow later isLow ih =>
    -- Both halves of a pair are read by one escape.
    obtain ⟨said, decodedLater, rfl⟩ := map_eq_some_iff.mp decoding
    obtain ⟨mask, back⟩ := @ih (string ++ encode (pairCode high low)) highBit _ decodedLater
    refine ⟨mask, ?_⟩
    have front := @scanString_escaped _ string highBit _ _
      (scanEscape_pair spells spellsLow isHigh isLow (spelled later ++ rest))
    rw [append_assoc] at back
    rw [← back, ← front]
    rfl
  | case5 | case6 | case7 => exact absurd decoding (by simp)
  | case8 a b c d unit spells later notHigh notLow ih =>
    obtain ⟨said, decodedLater, rfl⟩ := map_eq_some_iff.mp decoding
    obtain ⟨mask, back⟩ := @ih (string ++ encode unit) highBit _ decodedLater
    refine ⟨mask, ?_⟩
    have inRange : unit < 0x110000 := lt_trans (hexCode_lt spells) (by decide)
    have front := @scanString_escaped _ string highBit _ _
      (scanEscape_unicode spells notHigh notLow inRange (spelled later ++ rest))
    rw [append_assoc] at back
    rw [← back, ← front]
    rfl

theorem decode_wellFormed {pieces : List Piece} {decoded : List UInt8}
    (decoding : decode pieces = some decoded) : Utf8.WellFormed decoded := by
  -- Every piece says one scalar value.
  fun_induction decode pieces generalizing decoded with
  | case1 =>
    obtain rfl := some.inj decoding
    exact .nil
  | case2 code scalar _ later ih =>
    obtain ⟨said, decodedLater, rfl⟩ := map_eq_some_iff.mp decoding
    exact .cons scalar (ih decodedLater)
  | case3 letter value known later ih =>
    obtain ⟨said, decodedLater, rfl⟩ := map_eq_some_iff.mp decoding
    exact .ascii (shortValue_ascii letter value known) (ih decodedLater)
  | case4 a b c d high spells isHigh e f g h low spellsLow later isLow ih =>
    obtain ⟨said, decodedLater, rfl⟩ := map_eq_some_iff.mp decoding
    exact .cons (pairCode_scalar isHigh isLow) (ih decodedLater)
  | case5 | case6 | case7 => exact absurd decoding (by simp)
  | case8 a b c d unit spells later notHigh notLow ih =>
    obtain ⟨said, decodedLater, rfl⟩ := map_eq_some_iff.mp decoding
    exact .cons (unit_scalar (hexCode_lt spells) notHigh notLow) (ih decodedLater)

/-- Bytes between quotes, and what they say byte by byte: raw bytes need not be characters yet. -/
inductive Says : List UInt8 → List UInt8 → Prop
  | nil : Says [] []
  | raw {c : UInt8} {source said : List UInt8} (plain : IsPlain c) (more : Says source said) :
      Says (c :: source) (c :: said)
  | escape {pieces : List Piece} {code : Nat} {source said : List UInt8}
      (scalar : Utf8.IsScalar code)
      (decodes : ∀ later, decode (pieces ++ later) = (decode later).map (Utf8.encode code ++ ·))
      (more : Says source said) : Says (spelled pieces ++ source) (Utf8.encode code ++ said)

theorem scanEscape_some {pushed : List UInt8} (escaped : scanEscape {} bytes = some (pushed, rest)) :
    ∃ pieces code, Utf8.IsScalar code ∧ pushed = encode code ∧ 0x5C :: bytes = spelled pieces ++ rest ∧
      ∀ later, decode (pieces ++ later) = (decode later).map (encode code ++ ·) := by
  cases bytes with
  | nil => simp [scanEscape] at escaped
  | cons letter bytes =>
    have whole := escaped
    by_cases unicode : letter = 0x75
    · subst unicode
      simp only [scanEscape, if_pos, scanUnicode] at escaped
      obtain ⟨⟨unit, after⟩, digits, chosen⟩ := bind_eq_some_iff.mp escaped
      clear escaped
      replace chosen : (if IsHigh unit then scanSurrogate {} unit after
          else if IsLow unit then (invalidBytes {}).map (·, after)
          else (codepointBytes {} unit).map (·, after)) = some (pushed, rest) := chosen
      obtain ⟨a, b, c, d, rfl, spells⟩ := scanDigits_some digits
      by_cases isHigh : IsHigh unit
      · -- A first half is followed by an escaped second half.
        rw [if_pos isHigh, scanSurrogate] at chosen
        obtain ⟨afterSlash, slash, marked⟩ := bind_eq_some_iff.mp chosen
        obtain ⟨afterU, marker, second⟩ := bind_eq_some_iff.mp marked
        obtain ⟨⟨low, last⟩, lowDigits, paired⟩ := bind_eq_some_iff.mp second
        obtain rfl := scanChar_some slash
        obtain rfl := scanChar_some marker
        obtain ⟨e, f, g, h, rfl, spellsLow⟩ := scanDigits_some lowDigits
        by_cases isLow : IsLow low
        · rw [scanEscape_pair spells spellsLow isHigh isLow last] at whole
          obtain ⟨rfl, rfl⟩ := Prod.mk.inj (some.inj whole)
          refine ⟨[.unicode a b c d unit spells, .unicode e f g h low spellsLow],
            pairCode unit low, pairCode_scalar isHigh isLow, rfl, rfl, ?_⟩
          intro later
          simp only [cons_append, nil_append, decode, if_pos isHigh, if_pos isLow]
        · unfold IsLow at isLow
          dsimp only at paired
          rw [if_pos (by omega)] at paired
          exact absurd paired (by simp [invalidBytes])
      · rw [if_neg isHigh] at chosen
        by_cases isLow : IsLow unit
        · rw [if_pos isLow] at chosen
          exact absurd chosen (by simp [invalidBytes])
        · have small := hexCode_lt spells
          rw [scanEscape_unicode spells isHigh isLow (by omega) after] at whole
          obtain ⟨rfl, rfl⟩ := Prod.mk.inj (some.inj whole)
          refine ⟨[.unicode a b c d unit spells], unit, unit_scalar small isHigh isLow, rfl, rfl, ?_⟩
          intro later
          rw [cons_append, nil_append, decode.eq_def]
          simp only [if_neg isHigh, if_neg isLow]
    · cases known : shortValue letter with
      | none =>
        simp only [scanEscape, if_neg unicode, shortEscape_eq, known] at escaped
        exact absurd escaped (by simp)
      | some value =>
        rw [scanEscape_short known bytes] at whole
        obtain ⟨rfl, rfl⟩ := Prod.mk.inj (some.inj whole)
        have ascii := shortValue_ascii letter value known
        have encoding : encode value.toNat = [value] := by rw [encode_ascii ascii, UInt8.ofNat_toNat]
        refine ⟨[.short letter value known], value.toNat, .inl (by omega), encoding.symm, rfl, ?_⟩
        intro later
        rw [encoding]
        rfl

theorem scanString_says (scanned : scanString {} bytes string highBit = some (text, rest))
    (clean : highBit = false → Utf8.WellFormed string) :
    ∃ source said, Says source said ∧ bytes = source ++ 0x22 :: rest ∧ text = string ++ said ∧
      text.length < maxSize ∧ validated false text = some text := by
  -- The bytes are followed one by one; without a high bit the string is ASCII or escaped.
  induction length : bytes.length using Nat.strongRecOn generalizing bytes string highBit with
  | _ n ih =>
    subst length
    cases bytes with
    | nil => simp [scanString_nil] at scanned
    | cons c bytes =>
      by_cases quote : c = 0x22
      · subst quote
        rw [scanString_quote] at scanned
        by_cases fits : string.length < maxSize
        · rw [if_pos fits] at scanned
          obtain ⟨same, valid, found⟩ := map_eq_some_iff.mp scanned
          obtain ⟨rfl, rfl⟩ := Prod.mk.inj found
          cases highBit with
          | true =>
            rw [if_pos rfl, validateUtf8_strict] at valid
            obtain rfl := validated_same valid
            exact ⟨[], [], .nil, rfl, (append_nil _).symm, fits, valid⟩
          | false =>
            obtain rfl := some.inj valid
            exact ⟨[], [], .nil, rfl, (append_nil _).symm, fits, validated_wellFormed false (clean rfl)⟩
        · rw [if_neg fits] at scanned
          exact absurd scanned (by simp)
      · by_cases escape : c = 0x5C
        · subst escape
          rw [scanString_escape] at scanned
          obtain ⟨⟨pushed, after⟩, escaped, scanned⟩ := bind_eq_some_iff.mp scanned
          obtain ⟨pieces, code, scalar, rfl, spells, decodes⟩ := scanEscape_some escaped
          have shorter := length_scanEscape {} escaped
          obtain ⟨source, said, reads, rfl, rfl, fits, valid⟩ :=
            ih after.length (lt_succ_of_lt shorter) scanned
              (fun low => (clean low).append (wellFormed_encode scalar)) rfl
          refine ⟨spelled pieces ++ source, encode code ++ said,
            .escape scalar decodes reads, ?_, append_assoc .., fits, valid⟩
          rw [spells, append_assoc]
        · rw [scanString_char _ quote escape] at scanned
          by_cases visible : 0x20 ≤ c
          · rw [if_pos (.inl visible)] at scanned
            have cleanNext : (highBit || decide (0x80 ≤ c)) = false → Utf8.WellFormed (string ++ [c]) := by
              intro low
              obtain ⟨before, here⟩ := Bool.or_eq_false_iff.mp low
              have ascii : c.toNat < 0x80 := by simpa [UInt8.le_iff_toNat_le] using here
              exact (clean before).append (.ascii ascii .nil)
            obtain ⟨source, said, reads, rfl, rfl, fits, valid⟩ :=
              ih bytes.length (lt_succ_self _) scanned cleanNext rfl
            exact ⟨c :: source, c :: said, .raw ⟨visible, quote, escape⟩ reads, rfl,
              append_assoc .., fits, valid⟩
          · rw [if_neg (by simpa using visible)] at scanned
            exact absurd scanned (by simp)

theorem Says.tails {tails source said : List UInt8} (reads : Says source (tails ++ said))
    (follow : ∀ c ∈ tails, Utf8.IsTail c) :
    ∃ later, source = tails ++ later ∧ Says later said ∧ ∀ c ∈ tails, IsPlain c := by
  induction tails generalizing source with
  | nil => exact ⟨source, rfl, reads, by simp⟩
  | cons c tails ih =>
    generalize whole : c :: tails ++ said = spoken at reads
    cases reads with
    | nil => exact absurd whole (by simp)
    | raw plain more =>
      obtain ⟨rfl, rfl⟩ := cons.inj whole
      obtain ⟨later, rfl, readsLater, plainTails⟩ :=
        ih more fun other member => follow other (mem_cons_of_mem _ member)
      exact ⟨later, rfl, readsLater, forall_mem_cons.mpr ⟨plain, plainTails⟩⟩
    | escape scalar =>
      -- What an escape says begins with a byte that is no tail.
      obtain ⟨lead, rest, encoding, notTail⟩ := encode_lead scalar
      rw [encoding] at whole
      obtain ⟨rfl, -⟩ := cons.inj whole
      exact absurd (follow c mem_cons_self) notTail

theorem decode_plain {code : Nat} (scalar : Utf8.IsScalar code)
    (plain : ∀ c ∈ encode code, IsPlain c) {pieces : List Piece} {said : List UInt8}
    (decodes : decode pieces = some said) :
    ∃ longer, encode code ++ spelled pieces = spelled longer ∧
      decode longer = some (encode code ++ said) := by
  have unescaped : 0x20 ≤ code ∧ code ≠ 0x22 ∧ code ≠ 0x5C := by
    by_cases ascii : code < 0x80
    · have visible := plain (UInt8.ofNat code) (by simp [encode_ascii ascii])
      unfold IsPlain at visible
      rw [UInt8.le_iff_toNat_le, ← UInt8.toNat_inj.ne, ← UInt8.toNat_inj.ne,
        toNat_ofNat (by omega)] at visible
      simpa using visible
    · omega
  refine ⟨.plain code scalar unescaped :: pieces, rfl, ?_⟩
  rw [decode, decodes]
  rfl

theorem Says.spelled {source said : List UInt8} (reads : Says source said)
    (valid : validated false said = some said) :
    ∃ pieces, source = spelled pieces ∧ decode pieces = some said := by
  -- What is said is taken apart character by character, as validation does.
  induction length : said.length using Nat.strongRecOn generalizing source said with
  | _ n ih =>
    subst length
    cases reads with
    | nil => exact ⟨[], rfl, rfl⟩
    | @raw c source said plain more =>
      by_cases ascii : c ≤ 0x7F
      · rw [validated_ascii false ascii] at valid
        obtain ⟨later, validLater, same⟩ := map_eq_some_iff.mp valid
        obtain rfl := (cons.inj same).2
        obtain ⟨pieces, rfl, decodes⟩ := ih _ (lt_succ_self _) more validLater rfl
        have small : c.toNat < 0x80 := lt_succ_of_le (UInt8.le_iff_toNat_le.mp ascii)
        have encoding : encode c.toNat = [c] := by rw [encode_ascii small, UInt8.ofNat_toNat]
        obtain ⟨longer, spells, decodesLonger⟩ := @decode_plain c.toNat
          (.inl (by omega)) (by simpa [encoding] using plain) _ _ decodes
        rw [encoding] at spells decodesLonger
        exact ⟨longer, spells, decodesLonger⟩
      · cases tail : sequenceTail c said with
        | none =>
          rw [validated_invalid ascii tail] at valid
          exact absurd valid (by simp)
        | some count =>
          -- The bytes that complete the character are tails, so they are in the source too.
          obtain ⟨code, scalar, -, encoding⟩ := sequence_sound tail
          obtain ⟨-, complete, -⟩ := sequenceTail_le tail
          rw [validated_sequence false ascii tail] at valid
          obtain ⟨later, validLater, same⟩ := map_eq_some_iff.mp valid
          have split : c :: said = encode code ++ said.drop count := by
            rw [encoding, cons_append, take_append_drop]
          rw [split, ← encoding] at same
          obtain rfl := append_cancel_left same
          rw [← take_append_drop count said] at more
          obtain ⟨left, rfl, readsLeft, plainTails⟩ := more.tails (completes_tails complete)
          have shorter : (said.drop count).length < (c :: said).length := by
            rw [length_drop, length_cons]
            omega
          obtain ⟨pieces, rfl, decodes⟩ := ih _ shorter readsLeft validLater rfl
          have allPlain : ∀ byte ∈ encode code, IsPlain byte := by
            rw [encoding]
            exact forall_mem_cons.mpr ⟨plain, plainTails⟩
          obtain ⟨longer, spells, decodesLonger⟩ := decode_plain scalar allPlain decodes
          refine ⟨longer, ?_, split ▸ decodesLonger⟩
          rw [← spells, encoding, cons_append]
    | @escape pieces code source said scalar decodes more =>
      rw [validated_encode false scalar] at valid
      obtain ⟨later, validLater, same⟩ := map_eq_some_iff.mp valid
      obtain rfl := append_cancel_left same
      obtain ⟨lead, tail, encoding, -⟩ := encode_lead scalar
      have shorter : later.length < (encode code ++ later).length := by
        rw [encoding, cons_append, length_cons, length_append]
        omega
      obtain ⟨others, rfl, decodesOthers⟩ := ih _ shorter more validLater rfl
      refine ⟨pieces ++ others, flatMap_append.symm, ?_⟩
      rw [decodes, decodesOthers, map_some]

theorem scanString_iff : scanString {} bytes [] false = some (text, rest) ↔ text.length < maxSize ∧
      ∃ pieces, bytes = spelled pieces ++ 0x22 :: rest ∧ decode pieces = some text := by
  constructor
  · intro scanned
    obtain ⟨source, said, reads, rfl, rfl, fits, valid⟩ := scanString_says scanned fun _ => .nil
    obtain ⟨pieces, rfl, decodes⟩ := reads.spelled valid
    exact ⟨fits, pieces, rfl, decodes⟩
  · intro written
    obtain ⟨fits, pieces, rfl, decodes⟩ := written
    obtain ⟨mask, read⟩ := @scanString_spelled (0x22 :: rest) [] false _ _ decodes
    rw [read, nil_append, scanString_quote, if_pos fits]
    have valid : validateUtf8 {} text = some text := validated_wellFormed false (decode_wellFormed decodes)
    rw [valid]
    cases mask <;> rfl

end Libretro.Rjson
