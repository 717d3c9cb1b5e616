import Libretro.Formats.RjsonReader
import Libretro.Library.Unicode

/-! Strings, numbers and names, and the loop that looks for tokens, read as from one string of bytes. -/

namespace Libretro.Rjson

open List Nat Option Except

variable {json after : Json} {bytes string : List UInt8}

/-- A scanner of a whole token produces its text, or fails where it should. -/
inductive Json.Yields (json : Json) (type : RjsonType)
    (expected : Option (List UInt8 × List UInt8)) (result : RjsonType × Json) : Prop
  | ok {text rest : List UInt8} {after : Json} (same : expected = some (text, rest))
      (gives : result = (type, after)) (reads : getString after = text)
      (holds : after.Holds rest after.string)
      (kept : json.Kept after)
  | error {failed : Json} (none : expected = none) (gives : result = (.error, failed))

theorem Json.Yields.behind {middle : Json} {type : RjsonType}
    {expected : Option (List UInt8 × List UInt8)} {result : RjsonType × Json}
    (yields : middle.Yields type expected result) (kept : json.Kept middle) :
    json.Yields type expected result := by
  cases yields with
  | error none gives => exact .error none gives
  | ok same gives reads holds keptAlso => exact .ok same gives reads holds (kept.trans keptAlso)

theorem growString_input (grown : growString json = .ok after) : after.input = json.input := by
  unfold growString at grown
  split at grown
  · split at grown
    · exact absurd grown (by simp)
    · rw [← ok.inj grown]
  · rw [← ok.inj grown]

theorem growFor_input {newLen fuel : Nat} (grown : growFor newLen fuel json = .ok after) :
    after.input = json.input := by
  -- Each doubling leaves the input alone.
  induction fuel generalizing json with
  | zero => rw [← ok.inj grown]
  | succ fuel ih =>
    unfold growFor at grown
    split at grown
    · cases once : growString json with
      | error failed =>
        rw [once] at grown
        exact absurd grown (by simp [Except.bind])
      | ok middle =>
        rw [once] at grown
        rw [ih grown, growString_input once]
    · rw [← ok.inj grown]

theorem pushChars_input {chars : List UInt8} (pushed : pushChars json chars = .ok after) :
    after.input = json.input := by
  unfold pushChars at pushed
  cases grown : growFor (json.string.length + chars.length) 20 json with
  | error failed =>
    rw [grown] at pushed
    exact absurd pushed (by simp [Except.bind])
  | ok middle =>
    rw [grown] at pushed
    rw [← ok.inj pushed, ← growFor_input grown]

/-- A way to append runs that does not read. -/
structure Appends (append : Json → List UInt8 → Except Json Json) : Prop where
  meets : ∀ json bytes string raw, Json.Holds json bytes string →
    json.Meets (some (string ++ raw, bytes)) (append json raw)
  input : ∀ json after raw, append json raw = .ok after → after.input = json.input

theorem appends_pushChars : Appends pushChars where
  meets _ _ _ raw holds := holds.pushChars raw
  input _ _ _ := pushChars_input

theorem appends_flushRaw : Appends flushRaw where
  meets json bytes string raw holds := by
    unfold flushRaw
    by_cases empty : raw ≠ []
    · rw [if_pos empty]
      exact holds.pushChars raw
    · rw [if_neg empty]
      rw [ne_eq, Decidable.not_not] at empty
      rw [empty, append_nil]
      exact .ok rfl rfl holds (.refl json)
  input json after raw flushed := by
    unfold flushRaw at flushed
    split at flushed
    · exact pushChars_input flushed
    · rw [← ok.inj flushed]

/-- A run of a token, in the buffer and before it. -/
structure Json.Midway (json : Json) (bytes string raw : List UInt8) : Prop where
  holds : json.Holds bytes string
  noPass : json.stringPassThrough = none
  fits : raw.length + json.input.unread.length ≤ maxSize + 1

theorem Json.Reads.midway (reads : json.Reads bytes string) :
    Json.Midway { json with stringPassThrough := none, string := [] } bytes [] [] := by
  obtain ⟨whole, calm, unread, blocks, -, capLow, capHigh⟩ := reads
  refine ⟨⟨⟨whole, calm, unread, blocks, rfl, capLow, capHigh⟩, ?_⟩, rfl, ?_⟩
  · rw [length_nil]
    exact Nat.lt_of_lt_of_le (by decide) capLow
  · rw [length_nil, zero_add]
    exact le_succ_of_le unread

theorem Json.Midway.filled {raw : List UInt8} {append : Json → List UInt8 → Except Json Json}
    (midway : json.Midway bytes string raw) (appends : Appends append) :
    (maxSize ≤ (string ++ raw).length ∧ ∃ failed, filledAfter append json raw = .error failed) ∨
    (∃ after front run, filledAfter append json raw = .ok (after, run) ∧
      front ++ run = string ++ raw ∧ after.Midway bytes front run ∧ json.Scans after ∧
      (after.input.unread = [] → bytes = [] ∧ run = [])) := by
  obtain ⟨holds, noPass, fits⟩ := midway
  unfold filledAfter
  by_cases empty : json.input.unread = []
  · rw [if_pos empty]
    cases appends.meets json bytes string raw holds with
    | error large gives =>
      rw [gives]
      exact .inl ⟨large _ _ rfl, _, rfl⟩
    | @ok front rest flushed same gives flushedHolds kept =>
      obtain ⟨rfl, rfl⟩ := Prod.mk.inj (some.inj same)
      have still : flushed.input.unread = [] := by rw [appends.input _ _ _ gives, empty]
      obtain ⟨filled, keptFilled, nothing⟩ := flushedHolds.filled
      have keptBoth := kept.trans keptFilled
      rw [filled_eq still] at filled keptBoth nothing
      rw [gives]
      refine .inr ⟨ioInput flushed, string ++ raw, [], rfl, append_nil _,
        ⟨filled, keptBoth.passThrough.trans noPass, ?_⟩, keptBoth,
        fun last => ⟨nothing last, rfl⟩⟩
      rw [length_nil, zero_add]
      exact le_succ_of_le filled.unread
  · rw [if_neg empty]
    exact .inr ⟨json, string, raw, rfl, rfl, ⟨holds, noPass, fits⟩, .refl json,
      fun nothing => absurd nothing empty⟩

theorem length_validateUtf8Loop {replace : Bool} {fuel : Nat} {valid : List UInt8}
    (enough : bytes.length ≤ fuel) (validated : validateUtf8Loop replace fuel bytes = some valid) :
    valid.length = bytes.length := by
  -- What each round moves to the result is as long as what it takes.
  induction fuel generalizing bytes valid with
  | zero =>
    rw [eq_nil_of_length_eq_zero (le_zero.mp enough)]
    rw [← some.inj validated]
  | succ fuel ih =>
    cases bytes with
    | nil => rw [← some.inj validated]
    | cons first rest =>
      have enoughRest : rest.length ≤ fuel := le_of_succ_le_succ enough
      simp only [validateUtf8Loop] at validated
      split at validated
      · obtain ⟨more, validMore, rfl⟩ := map_eq_some_iff.mp validated
        rw [length_cons, length_cons, ih enoughRest validMore]
      · split at validated
        · rename_i count tail
          obtain ⟨more, validMore, rfl⟩ := map_eq_some_iff.mp validated
          have dropped := ih (by rw [length_drop]; omega) validMore
          have within : count ≤ rest.length := by
            unfold sequenceTail at tail
            split at tail
            · exact absurd tail (by simp)
            · split at tail
              · rename_i fits
                rw [← some.inj tail]
                exact fits.1
              · exact absurd tail (by simp)
          simp only [length_append, length_cons, length_take, dropped, length_drop]
          omega
        · split at validated
          · obtain ⟨more, validMore, rfl⟩ := map_eq_some_iff.mp validated
            have within := (takeWhile_sublist (fun c : UInt8 => decide (0x80 ≤ c)) (l := rest)).length_le
            have dropped := ih (by rw [length_drop]; omega) validMore
            simp only [length_append, length_replicate, length_cons, dropped, length_drop]
            omega
          · exact absurd validated (by simp)

theorem length_validateUtf8 {options : Options} {valid : List UInt8}
    (validated : validateUtf8 options bytes = some valid) : valid.length = bytes.length := by
  unfold validateUtf8 at validated
  split at validated
  · rw [some.inj validated]
  · exact length_validateUtf8Loop (Nat.le_refl _) validated

theorem scanString_tooLarge {options : Options} {highBit : Bool} (large : maxSize ≤ string.length) :
    scanString options bytes string highBit = none := by
  -- The string only grows before its closing quote is found.
  induction length : bytes.length using Nat.strongRecOn generalizing bytes string highBit with
  | _ n ih =>
    subst length
    cases bytes with
    | nil => rw [scanString_nil]
    | cons c rest =>
      by_cases quote : c = 0x22
      · rw [quote, scanString_quote, if_neg (Nat.not_lt.mpr large)]
      · by_cases backslash : c = 0x5C
        · rw [backslash, scanString_escape]
          cases escaped : scanEscape options rest with
          | none => rfl
          | some found =>
            have shorter := length_scanEscape options escaped
            rw [bind_some]
            refine ih _ (lt_succ_of_lt shorter) ?_ rfl
            rw [length_append]
            exact le_add_right_of_le large
        · rw [scanString_char options quote backslash]
          split
          · refine ih _ (lt_succ_self _) ?_ rfl
            rw [length_append]
            exact le_add_right_of_le large
          · rfl

theorem Json.Midway.closeString {raw : List UInt8} (midway : json.Midway bytes string raw)
    (closed : raw.length + json.input.unread.length ≤ maxSize) :
    (maxSize ≤ (string ++ raw).length ∧ ∃ failed, closeString json raw = .error failed) ∨
    (∃ after, closeString json raw = .ok after ∧ (string ++ raw).length < maxSize ∧
      getString after = string ++ raw ∧ after.Holds bytes after.string ∧
      json.Kept after) := by
  obtain ⟨holds, noPass, fits⟩ := midway
  unfold Rjson.closeString
  by_cases inside : json.string = [] ∧ json.input.unread ≠ []
  · rw [if_pos inside]
    obtain rfl : string = [] := holds.text.symm.trans inside.1
    have some : 0 < json.input.unread.length := length_pos_iff.mpr inside.2
    have small : raw.length < maxSize := by omega
    refine .inr ⟨_, rfl, small, rfl, ?_, ⟨rfl, rfl, rfl, rfl, rfl, rfl, rfl, Nat.le_refl _, .inl rfl⟩⟩
    obtain ⟨⟨whole, calm, unread, blocks, same, capLow, capHigh⟩, room⟩ := holds
    exact ⟨⟨whole, calm, unread, blocks, rfl, capLow, capHigh⟩, same ▸ room⟩
  · rw [if_neg inside]
    cases appends_flushRaw.meets _ _ _ raw holds with
    | error large gives => exact .inl ⟨large _ _ rfl, _, gives⟩
    | @ok whole rest flushed same gives flushedHolds kept =>
      obtain ⟨rfl, rfl⟩ := Prod.mk.inj (some.inj same)
      have pass : flushed.stringPassThrough = none := kept.passThrough.trans noPass
      have text := flushedHolds.text
      refine .inr ⟨flushed, gives, ?_, ?_, text ▸ flushedHolds, kept.toKept⟩
      · exact Nat.lt_of_lt_of_le flushedHolds.room flushedHolds.capHigh
      · rw [getString, pass, getD_none, text]

theorem finishString_yields {text : List UInt8} {highBit : Bool} (reads : getString json = text)
    (holds : json.Holds bytes json.string) :
    json.Yields .string ((if highBit then validateUtf8 json.options text else some text).map (·, bytes))
      (finishString json highBit) := by
  unfold finishString
  cases highBit with
  | false => exact .ok rfl rfl reads holds (Json.Scans.refl json).toKept
  | true =>
    rw [if_pos rfl, if_pos rfl, reads]
    cases validated : validateUtf8 json.options text with
    | none => exact .error rfl rfl
    | some valid =>
      have same := length_validateUtf8 validated
      obtain ⟨⟨whole, calm, unread, blocks, kept, capLow, capHigh⟩, room⟩ := holds
      cases pass : json.stringPassThrough with
      | some run =>
        exact .ok rfl rfl rfl ⟨⟨whole, calm, unread, blocks, rfl, capLow, capHigh⟩, room⟩
          ⟨rfl, rfl, rfl, rfl, rfl, rfl, rfl, Nat.le_refl _, .inl rfl⟩
      | none =>
        rw [getString, pass, getD_none] at reads
        refine .ok rfl rfl (by simp [getString])
          ⟨⟨whole, calm, unread, blocks, rfl, capLow, capHigh⟩, ?_⟩ ?_
        · dsimp only
          rw [same, ← reads]
          exact room
        · exact ⟨rfl, rfl, rfl, rfl, rfl, rfl, rfl, Nat.le_refl _, .inl rfl⟩

theorem Json.Midway.readStringLoop {raw : List UInt8} {highBit : Bool} {fuel : Nat}
    (midway : json.Midway bytes string raw) (enough : bytes.length < fuel) :
    json.Yields .string (scanString json.options bytes (string ++ raw) highBit)
      (readStringLoop fuel json raw highBit) := by
  -- Each round reads at least one byte, and the run and the string together are what was read.
  induction fuel generalizing json bytes string raw highBit with
  | zero => exact absurd enough (not_lt_zero _)
  | succ fuel ih =>
    unfold Rjson.readStringLoop
    cases midway.filled appends_flushRaw with
    | inl failing =>
      obtain ⟨large, failed, gives⟩ := failing
      rw [gives, scanString_tooLarge large]
      exact .error rfl rfl
    | inr filling =>
      obtain ⟨filled, front, run, gives, whole, filledMidway, kept, nothing⟩ := filling
      rw [gives, ← whole, ← kept.options]
      refine Yields.behind ?_ kept.toKept
      dsimp only
      cases unread : filled.input.unread with
      | nil =>
        rw [(nothing unread).1, scanString_nil]
        exact .error rfl rfl
      | cons c rest =>
        obtain ⟨holds, noPass, fits⟩ := filledMidway
        obtain ⟨later, rfl, advanced, keptAdvance⟩ := holds.advance unread
        have enoughLater : later.length < fuel := lt_of_succ_lt_succ enough
        rw [unread, length_cons] at fits
        have closed : run.length + rest.length ≤ maxSize := by omega
        have pass : (filled.advance rest).stringPassThrough = none := noPass
        dsimp only
        by_cases quote : c = 0x22
        · subst quote
          rw [if_pos rfl, scanString_quote]
          have ready : (filled.advance rest).Midway later front run :=
            ⟨advanced, pass, by simp only [advance]; omega⟩
          cases ready.closeString closed with
          | inl failing =>
            obtain ⟨large, failed, gives⟩ := failing
            rw [gives, if_neg (Nat.not_lt.mpr large)]
            exact .error rfl rfl
          | inr closing =>
            obtain ⟨after, gives, small, reads, holdsAfter, keptAfter⟩ := closing
            rw [gives, if_pos small]
            have finished : after.Yields .string _ (finishString after highBit) :=
              finishString_yields reads holdsAfter
            rw [keptAfter.options] at finished
            cases finished with
            | error none gives => exact .error none gives
            | ok same gives reads holds keptEnd =>
              exact .ok same gives reads holds ((keptAdvance.toKept.trans keptAfter).trans keptEnd)
        · rw [if_neg quote]
          by_cases backslash : c = 0x5C
          · subst backslash
            rw [if_pos rfl, scanString_escape]
            cases appends_flushRaw.meets _ _ _ run holds with
            | error large gives =>
              rw [gives]
              refine .error ?_ rfl
              cases scanEscape filled.options later with
              | none => rfl
              | some found =>
                refine scanString_tooLarge ?_
                rw [length_append]
                exact le_add_right_of_le (large _ _ rfl)
            | ok same gives flushed keptFlush =>
              rename_i text others after
              obtain ⟨rfl, rfl⟩ := Prod.mk.inj (some.inj same)
              have still : after.input.unread = 0x5C :: rest := by
                rw [appends_flushRaw.input _ _ _ gives, unread]
              obtain ⟨_, sameLater, flushedAdvanced, keptLater⟩ := flushed.advance still
              obtain ⟨-, rfl⟩ := List.cons.inj sameLater
              have keptHere := keptFlush.trans keptLater
              rw [gives, ← keptHere.options]
              cases flushedAdvanced.readEscape with
              | error large gives =>
                rw [Except.bind, gives]
                refine .error ?_ rfl
                cases escaped : scanEscape (after.advance rest).options later with
                | none => rfl
                | some found =>
                  rw [escaped] at large
                  exact scanString_tooLarge (large _ _ rfl)
              | @ok _ _ escapedJson same gives escapedHolds keptEscape =>
                rw [Except.bind, gives]
                obtain ⟨found, escaped, joined⟩ := map_eq_some_iff.mp same
                obtain ⟨rfl, rfl⟩ := Prod.mk.inj joined
                have shorter := length_scanEscape _ escaped
                have keptAll := keptHere.trans keptEscape
                have ready : escapedJson.Midway found.2 (front ++ run ++ found.1) [] := by
                  refine ⟨escapedHolds, keptAll.passThrough.trans noPass, ?_⟩
                  rw [length_nil, zero_add]
                  exact le_succ_of_le escapedHolds.unread
                have more : escapedJson.Yields .string _ (Rjson.readStringLoop fuel escapedJson [] highBit) :=
                  ih ready (Nat.lt_trans shorter enoughLater)
                rw [append_nil, keptEscape.options] at more
                rw [escaped]
                exact more.behind keptAll.toKept
          · rw [if_neg backslash, scanString_char _ quote backslash]
            split
            · have ready : (filled.advance rest).Midway later front (run ++ [c]) := by
                refine ⟨advanced, pass, ?_⟩
                simp only [advance, length_append, length_singleton]
                omega
              have more : (filled.advance rest).Yields .string _ (Rjson.readStringLoop fuel
                  (filled.advance rest) (run ++ [c]) (highBit || decide (0x80 ≤ c))) :=
                ih ready enoughLater
              rw [← List.append_assoc] at more
              exact more.behind keptAdvance.toKept
            · exact .error rfl rfl

theorem Json.Reads.readString (reads : json.Reads bytes string) :
    json.Yields .string (scanString json.options bytes [] false) (readString json) := by
  have enough : bytes.length < json.input.size + 1 := by
    rw [← reads.stream]
    exact lt_succ_of_le (Input.length_stream_le _)
  cases reads.midway.readStringLoop enough with
  | error none gives => exact .error none gives
  | ok same gives reads holds kept =>
    exact .ok same gives reads holds ⟨kept.top, kept.below, kept.stackCap, kept.stackMax,
      kept.options, kept.sourceLine, kept.sourceColumnP, kept.position, kept.inputP⟩

theorem Json.Midway.collectNumber {run : List UInt8} {fuel : Nat}
    (midway : json.Midway bytes string run) (enough : bytes.length < fuel) :
    json.Meets (some (string ++ run ++ bytes.takeWhile numberChar, bytes.dropWhile numberChar))
      (collectNumber fuel json run) := by
  -- Each round reads a byte of the number, and the run and the string together are what was read.
  induction fuel generalizing json bytes string run with
  | zero => exact absurd enough (not_lt_zero _)
  | succ fuel ih =>
    unfold Rjson.collectNumber
    cases midway.filled appends_pushChars with
    | inl failing =>
      obtain ⟨large, failed, gives⟩ := failing
      rw [gives]
      refine .error (tooLarge ?_) rfl
      rw [length_append]
      exact le_add_right_of_le large
    | inr filling =>
      obtain ⟨filled, front, rest, gives, whole, ⟨holds, noPass, fits⟩, kept, nothing⟩ := filling
      rw [gives, ← whole]
      refine Meets.behind ?_ kept
      dsimp only
      cases unread : filled.input.unread with
      | nil =>
        obtain ⟨rfl, rfl⟩ := nothing unread
        exact .ok (by simp) rfl holds (.refl filled)
      | cons c others =>
        obtain ⟨later, rfl, advanced, keptAdvance⟩ := holds.advance unread
        dsimp only
        by_cases belongs : numberChar c = true
        · rw [if_pos belongs, takeWhile_cons_of_pos belongs,
            dropWhile_cons_of_pos belongs]
          have ready : (filled.advance others).Midway later front (rest ++ [c]) := by
            refine ⟨advanced, noPass, ?_⟩
            rw [unread, length_cons] at fits
            simp only [advance, length_append, length_singleton]
            omega
          have more := ih ready (lt_of_succ_lt_succ enough)
          simp only [List.append_assoc, singleton_append] at more ⊢
          exact more.behind keptAdvance
        · rw [if_neg belongs, takeWhile_cons_of_neg belongs,
            dropWhile_cons_of_neg belongs, append_nil]
          exact holds.pushChars rest

/-- A number, after its first byte. -/
theorem Json.Reads.readNumber (reads : json.Reads bytes string) (first : UInt8) :
    json.Yields .number (scanNumber first bytes) (readNumber json first) := by
  have enough : bytes.length < json.input.size + 1 := by
    rw [← reads.stream]
    exact lt_succ_of_le (Input.length_stream_le _)
  have ready : Json.Midway { json with stringPassThrough := none, string := [] } bytes []
      [first] := by
    refine ⟨reads.midway.holds, rfl, ?_⟩
    rw [length_singleton, add_comm]
    exact succ_le_succ reads.unread
  unfold Rjson.readNumber scanNumber
  dsimp only
  cases ready.collectNumber enough with
  | error large gives =>
    have tooMany : ¬(first :: bytes.takeWhile numberChar).length < maxSize := Nat.not_lt.mpr (large _ _ rfl)
    rw [gives, if_neg fun both => tooMany both.1]
    exact .error rfl rfl
  | @ok number rest after same gives holds kept =>
    obtain ⟨rfl, rfl⟩ := Prod.mk.inj (some.inj same)
    have text := holds.text
    have small := Nat.lt_of_lt_of_le holds.room holds.capHigh
    simp only [nil_append, singleton_append] at text small
    rw [gives]
    dsimp only
    rw [text]
    cases fault : numberFault (first :: bytes.takeWhile numberChar) with
    | some c =>
      rw [if_neg fun both => absurd both.2 (by simp)]
      exact .error rfl rfl
    | none =>
      rw [if_pos ⟨small, rfl⟩]
      refine .ok rfl rfl ?_ (holds.text ▸ holds) ⟨kept.top, kept.below, kept.stackCap,
        kept.stackMax, kept.options, kept.sourceLine, kept.sourceColumnP, kept.position, kept.inputP⟩
      rw [getString, kept.passThrough, getD_none, text]

variable {json after : Json} {bytes string : List UInt8}

theorem Json.Holds.self (holds : json.Holds bytes string) : json.Holds bytes json.string :=
  holds.text.symm ▸ holds

/-- A literal name is read up to its last character. -/
theorem Json.Holds.readName (holds : json.Holds bytes string) (type : RjsonType) (pattern : List UInt8) :
    (∃ rest after, scanName pattern bytes = some rest ∧
      readName type pattern json = (type, after) ∧ after.Holds rest string ∧ json.Scans after) ∨
    (scanName pattern bytes = none ∧ ∃ failed, readName type pattern json = (.error, failed)) := by
  -- The pattern is followed character by character.
  induction pattern generalizing json bytes with
  | nil => exact .inl ⟨bytes, json, rfl, rfl, holds, .refl json⟩
  | cons expected pattern ih =>
    unfold Rjson.readName
    cases bytes with
    | nil =>
      obtain ⟨after, got, -⟩ := holds.charGet_nil
      rw [got]
      exact .inr ⟨rfl, _, rfl⟩
    | cons c rest =>
      obtain ⟨after, got, advanced, kept, -⟩ := holds.charGet_cons
      rw [got]
      simp only [scanName, scanChar, Option.some.injEq]
      by_cases same : c = expected
      · rw [if_pos same, if_neg (not_not_intro same), Option.bind_some]
        cases ih advanced with
        | inl read =>
          obtain ⟨later, final, scanned, gives, holdsFinal, keptFinal⟩ := read
          exact .inl ⟨later, final, scanned, gives, holdsFinal, kept.trans keptFinal⟩
        | inr failing => exact .inr failing
      · rw [if_neg same, if_pos same]
        exact .inr ⟨rfl, _, rfl⟩

/-- A comment or a mark is followed up to its end, or to the end of the stream. -/
theorem Json.Holds.skipLoop {fuel : Nat} (holds : json.Holds bytes string)
    (enough : bytes.length < fuel) (skip : UInt8) (state : Nat) (last : UInt8) :
    (∃ skipped final rest after, scanSkip skip state bytes = .finished skipped final rest ∧
      skipLoop skip fuel json state last = (skipped, final, after) ∧ after.Holds rest string ∧
      json.Scans after ∧ json.input.position < after.input.position ∧
      after.input.unread.length < maxSize) ∨
    (scanSkip skip state bytes = .cut ∧ ∃ final after text, after.Holds [] string ∧
      json.Scans after ∧ skipLoop skip fuel json state last = (false, final, after.error text)) := by
  -- Each round reads one byte of the comment.
  induction fuel generalizing json bytes state last with
  | zero => exact absurd enough (Nat.not_lt_zero _)
  | succ fuel ih =>
    obtain ⟨filled, kept, nothing⟩ := holds.filled
    unfold Rjson.skipLoop
    dsimp only
    cases unread : json.filled.input.unread with
    | nil =>
      obtain rfl := nothing unread
      exact .inr ⟨rfl, last, json.filled, _, filled, kept, rfl⟩
    | cons c rest =>
      obtain ⟨later, rfl, advanced, keptAdvance⟩ := filled.advance unread
      have keptBoth := kept.trans keptAdvance
      have further : json.input.position < (json.filled.advance rest).input.position :=
        Nat.lt_succ_of_le kept.position
      have room := filled.unread
      rw [unread] at room
      simp only [scanSkip]
      cases skipStep skip state c with
      | inl answer =>
        exact .inl ⟨answer, c, later, json.filled.advance rest, rfl, rfl, advanced, keptBoth, further, room⟩
      | inr next =>
        cases ih advanced (Nat.lt_of_succ_lt_succ enough) next c with
        | inl stops =>
          obtain ⟨skipped, final, rest, after, same, gives, holdsAfter, keptAfter, -, least⟩ := stops
          exact .inl ⟨skipped, final, rest, after, same, gives, holdsAfter,
            keptBoth.trans keptAfter, Nat.lt_of_lt_of_le further keptAfter.position, least⟩
        | inr cut =>
          obtain ⟨same, final, after, text, holdsAfter, keptAfter, gives⟩ := cut
          exact .inr ⟨same, final, after, text, holdsAfter, keptBoth.trans keptAfter, gives⟩

/-- Lines are counted from one, and the first one begins where the stream does. -/
structure Input.Anchored (input : Input) : Prop where
  counted : 0 < input.sourceLine
  first : input.sourceLine = 1 → input.sourceColumnP = 0

/-- What the loop leaves alone between two tokens. -/
structure Json.Moves (json after : Json) : Prop where
  top : after.top = json.top
  below : after.below = json.below
  stackCap : after.stackCap = json.stackCap
  stackMax : after.stackMax = json.stackMax
  options : after.options = json.options
  anchored : json.input.Anchored → after.input.Anchored
  position : json.input.position ≤ after.input.position
  inputP : after.input.inputP = json.input.inputP ∨ json.input.position ≤ after.input.inputP

theorem Json.Kept.moves (kept : json.Kept after) : json.Moves after where
  top := kept.top
  below := kept.below
  stackCap := kept.stackCap
  stackMax := kept.stackMax
  options := kept.options
  anchored anchored := by
    refine ⟨?_, fun one => ?_⟩
    · rw [kept.sourceLine]
      exact anchored.counted
    · rw [kept.sourceColumnP]
      exact anchored.first (kept.sourceLine ▸ one)
  position := kept.position
  inputP := kept.inputP

theorem Json.Moves.trans {middle : Json} (first : json.Moves middle)
    (second : middle.Moves after) : json.Moves after where
  top := second.top.trans first.top
  below := second.below.trans first.below
  stackCap := second.stackCap.trans first.stackCap
  stackMax := second.stackMax.trans first.stackMax
  options := second.options.trans first.options
  anchored := second.anchored ∘ first.anchored
  position := Nat.le_trans first.position second.position
  inputP := by
    cases second.inputP with
    | inr moved => exact .inr (Nat.le_trans first.position moved)
    | inl stays =>
      rw [stays]
      exact first.inputP

/-- A byte order mark is not looked for: it is not allowed, or the first call is over. -/
def Json.Unmarked (json : Json) : Prop :=
  json.options.allowUtf8Bom = false ∨ (json.input.Anchored ∧ 0 < json.input.inputP ∧ 0 < json.input.position)

theorem Json.Moves.unmarked (moves : json.Moves after) (unmarked : json.Unmarked) : after.Unmarked := by
  cases unmarked with
  | inl never => exact .inl (by rw [moves.options]; exact never)
  | inr later =>
    obtain ⟨anchored, inputP, position⟩ := later
    refine .inr ⟨moves.anchored anchored, ?_, Nat.lt_of_lt_of_le position moves.position⟩
    cases moves.inputP with
    | inl same => rw [same]; exact inputP
    | inr moved => exact Nat.lt_of_lt_of_le position moved

theorem Json.Unmarked.refuses (unmarked : json.Unmarked) :
    ¬ json.options.allowUtf8Bom ∨ json.input.sourceLine ≠ 1 ∨
      json.input.sourceColumnP ≠ json.input.inputP := by
  cases unmarked with
  | inl never => exact .inl (by rw [never]; exact Bool.false_ne_true)
  | inr later =>
    obtain ⟨anchored, inputP, -⟩ := later
    by_cases one : json.input.sourceLine = 1
    · refine .inr (.inr ?_)
      rw [anchored.first one]
      exact Nat.ne_of_lt inputP
    · exact .inr (.inl one)

/-- What begins with a byte may be skipped: a comment if allowed, a mark where it is looked for. -/
def Json.Accepts (json : Json) (skip : UInt8) : Prop :=
  skip = 0x2F ∧ json.options.allowComments = true ∨ skip = 0xEF ∧ ¬ json.Unmarked

/-- What one round of the loop has found, by the bytes to come. -/
inductive Json.Finds (json : Json) (bytes : List UInt8) (found : Found) : Prop
  | ended {after : Json} (none : bytes = []) (gives : found = .token after .eof 0)
      (holds : after.Holds [] after.string) (moves : json.Moves after)
  | blank {c : UInt8} {rest : List UInt8} {after : Json} (first : bytes = c :: rest)
      (blank : tokenLut c = .whitespace ∨ tokenLut c = .newline) (gives : found = .skipped after)
      (holds : after.Holds rest after.string) (moves : json.Moves after)
      (further : json.input.position < after.input.position)
  | token {c : UInt8} {rest : List UInt8} {after : Json} (first : bytes = c :: rest)
      (notBlank : ¬(tokenLut c = .whitespace ∨ tokenLut c = .newline))
      (notComment : ¬(c = 0x2F ∧ json.options.allowComments))
      (gives : found = .token after (tokenLut c) c) (holds : after.Holds rest after.string)
      (moves : json.Moves after) (further : json.input.position < after.input.position)
      (room : after.input.unread.length < maxSize)
  | skipped {skip last : UInt8} {rest later : List UInt8} {after : Json}
      (first : bytes = skip :: rest) (accepts : json.Accepts skip)
      (stops : scanSkip skip 0 rest = .finished true last later) (gives : found = .skipped after)
      (holds : after.Holds later after.string) (moves : json.Moves after)
      (further : json.input.position < after.input.position)
  | refused {skip last : UInt8} {rest later : List UInt8} {after : Json}
      (first : bytes = skip :: rest) (accepts : json.Accepts skip)
      (stops : scanSkip skip 0 rest = .finished false last later)
      (gives : found = .token after .optionalSkip last)
      (holds : after.Holds later after.string) (moves : json.Moves after)
      (further : json.input.position < after.input.position)
      (room : after.input.unread.length < maxSize)
  | cut {skip last : UInt8} {rest : List UInt8} {after : Json} {text : String}
      (first : bytes = skip :: rest) (accepts : json.Accepts skip)
      (stops : scanSkip skip 0 rest = .cut)
      (gives : found = .token (after.error text) .optionalSkip last)
      (holds : after.Holds [] after.string) (moves : json.Moves after)

theorem Json.Holds.newline (holds : json.Holds bytes json.string) :
    Json.Holds { json with input := { json.input with
      sourceLine := json.input.sourceLine + 1, sourceColumnP := json.input.position } }
      bytes json.string ∧ json.Moves { json with input := { json.input with
      sourceLine := json.input.sourceLine + 1, sourceColumnP := json.input.position } } := by
  obtain ⟨⟨whole, calm, unread, blocks, same, capLow, capHigh⟩, room⟩ := holds
  refine ⟨⟨⟨whole, calm, unread, blocks, same, capLow, capHigh⟩, room⟩,
    ⟨rfl, rfl, rfl, rfl, rfl, fun anchored => ⟨Nat.succ_pos _, fun one => ?_⟩, Nat.le_refl _, .inl rfl⟩⟩
  have counted := anchored.counted
  have impossible : json.input.sourceLine + 1 = 1 := one
  omega

theorem eq_of_optionalSkip : ∀ c : UInt8, tokenLut c = .optionalSkip → c = 0x2F ∨ c = 0xEF :=
  Utf8.forall_byte (by decide +kernel)

/-- One round finds what the bytes to come begin with. -/
theorem Json.Holds.findToken (holds : json.Holds bytes string) : json.Finds bytes (findToken json) := by
  unfold Rjson.findToken
  cases bytes with
  | nil =>
    obtain ⟨after, got, holdsAfter, kept⟩ := holds.charGet_nil
    rw [got]
    exact .ended rfl rfl holdsAfter.self kept.toKept.moves
  | cons c rest =>
    obtain ⟨after, got, advanced, kept, further, room⟩ := holds.charGet_cons
    have moves := kept.toKept.moves
    rw [got]
    dsimp only
    cases kind : tokenLut c with
    | whitespace => exact .blank rfl (.inl kind) rfl advanced.self moves further
    | newline =>
      obtain ⟨holdsLine, movesLine⟩ := advanced.self.newline
      exact .blank rfl (.inr kind) rfl holdsLine (moves.trans movesLine) further
    | optionalSkip =>
      have notBlank : ¬(tokenLut c = .whitespace ∨ tokenLut c = .newline) := by simp [kind]
      have enough : rest.length < after.input.size + 1 := by
        rw [← advanced.stream]
        exact Nat.lt_succ_of_le (Input.length_stream_le _)
      unfold Rjson.optionalSkip
      by_cases refused : c = 0x2F ∧ ¬ after.options.allowComments
      · -- A slash where comments are not allowed.
        rw [if_pos refused]
        refine .token rfl notBlank ?_ (by rw [kind]) advanced.self moves further room
        rw [← kept.options]
        exact fun allowed => refused.2 allowed.2
      · rw [if_neg refused]
        by_cases unmarked : c = 0xEF ∧ (¬ after.options.allowUtf8Bom ∨
            after.input.sourceLine ≠ 1 ∨ after.input.sourceColumnP ≠ after.input.inputP)
        · -- The first byte of a mark where none is looked for.
          rw [if_pos unmarked]
          refine .token rfl notBlank ?_ (by rw [kind]) advanced.self moves further room
          rw [unmarked.1]
          exact fun allowed => absurd allowed.1 (by decide)
        · rw [if_neg unmarked]
          have accepts : json.Accepts c := by
            cases eq_of_optionalSkip c kind with
            | inl slash =>
              refine .inl ⟨slash, ?_⟩
              rw [← kept.options]
              exact Decidable.not_not.mp fun never => refused ⟨slash, never⟩
            | inr mark => exact .inr ⟨mark, fun before => unmarked ⟨mark, (moves.unmarked before).refuses⟩⟩
          cases advanced.skipLoop enough c 0 c with
          | inl stops =>
            obtain ⟨skipped, final, later, last, same, gives, holdsLast, keptLast, -, least⟩ := stops
            have movesLast := moves.trans keptLast.toKept.moves
            have furtherLast := Nat.lt_of_lt_of_le further keptLast.position
            rw [gives]
            cases skipped with
            | true => exact .skipped rfl accepts same rfl holdsLast.self movesLast furtherLast
            | false => exact .refused rfl accepts same rfl holdsLast.self movesLast furtherLast least
          | inr cut =>
            obtain ⟨same, final, last, text, holdsLast, keptLast, gives⟩ := cut
            rw [gives]
            exact .cut rfl accepts same rfl holdsLast.self (moves.trans keptLast.toKept.moves)
    | _ =>
      refine .token rfl (by simp [kind]) (fun slash => ?_) (by rw [kind]) advanced.self moves further
        room
      rw [slash.1] at kind
      exact absurd kind (by decide)

end Libretro.Rjson
