import Libretro.Formats.RjsonArrival
import Libretro.Formats.RjsonWriter

/-! What the writer emits for a string is what the parser reads back, but for lone blanks. -/

namespace Libretro.Rjson

open JsonText List Chunk

variable {writer : Writer} {raw value rest string said : List UInt8} {highBit : Bool}
  {parts : List Chunk} {previous : Option UInt8}

/-- A run has plain bytes only, and an escape is of a character that has one. -/
def Chunk.Sound : Chunk → Prop
  | .run bytes => ∀ c ∈ bytes, IsPlain c
  | .escape c => c < 0x20 ∨ c = 0x22 ∨ c = 0x5C ∨ c = 0x2F

theorem escapeText_cases : ∀ c : UInt8, (c < 0x20 ∨ c = 0x22 ∨ c = 0x5C ∨ c = 0x2F) →
    (escapeText c = [0x5C, (escapeText c).getD 1 0] ∧ shortValue ((escapeText c).getD 1 0) = some c) ∨
    (escapeText c = [0x5C, 0x75, 0x30, 0x30, (escapeText c).getD 4 0, (escapeText c).getD 5 0] ∧
      hexCode 0x30 0x30 ((escapeText c).getD 4 0) ((escapeText c).getD 5 0) = some c.toNat ∧
      c.toNat < 0x80) :=
  Utf8.forall_byte (by decide +kernel)

theorem scanString_escapeText {c : UInt8} (special : c < 0x20 ∨ c = 0x22 ∨ c = 0x5C ∨ c = 0x2F)
    (rest string : List UInt8) (highBit : Bool) :
    scanString {} (escapeText c ++ rest) string highBit = scanString {} rest (string ++ [c]) highBit := by
  cases escapeText_cases c special with
  | inl short =>
    obtain ⟨text, known⟩ := short
    rw [text]
    exact scanString_escaped (scanEscape_short known rest)
  | inr unicode =>
    obtain ⟨text, spells, ascii⟩ := unicode
    have notHigh : ¬ IsHigh c.toNat := by
      unfold IsHigh
      omega
    have notLow : ¬ IsLow c.toNat := by
      unfold IsLow
      omega
    have escaped := scanEscape_unicode spells notHigh notLow (by omega) rest
    rw [Utf8.encode_ascii ascii, UInt8.ofNat_toNat] at escaped
    rw [text]
    exact scanString_escaped escaped

theorem scanString_chunks (sound : ∀ chunk ∈ parts, chunk.Sound) (rest string : List UInt8) (highBit : Bool) :
    ∃ mask, scanString {} (parts.flatMap text ++ rest) string highBit =
      scanString {} rest (string ++ parts.flatMap meaning) mask := by
  induction parts generalizing string highBit with
  | nil => exact ⟨highBit, by simp⟩
  | cons chunk parts ih =>
    obtain ⟨here, others⟩ := forall_mem_cons.mp sound
    rw [flatMap_cons, flatMap_cons, append_assoc, ← append_assoc string]
    cases chunk with
    | run bytes =>
      obtain ⟨middle, front⟩ := @scanString_raw (parts.flatMap text ++ rest) string highBit bytes here
      obtain ⟨mask, back⟩ := ih others (string ++ bytes) middle
      exact ⟨mask, front.trans back⟩
    | escape c =>
      obtain ⟨mask, back⟩ := ih others (string ++ [c]) highBit
      exact ⟨mask, (scanString_escapeText here _ string highBit).trans back⟩

theorem standsRaw_cases (previous : Option UInt8) (c : UInt8) : (standsRaw previous c = true ∧ IsPlain c) ∨
    (standsRaw previous c = false ∧ (c < 0x20 ∨ c = 0x22 ∨ c = 0x5C ∨ c = 0x2F)) := by
  unfold standsRaw IsPlain
  by_cases control : 0x20 ≤ c
  · by_cases quote : c = 0x22
    · exact .inr ⟨by simp [quote], .inr (.inl quote)⟩
    · by_cases backslash : c = 0x5C
      · exact .inr ⟨by simp [backslash], .inr (.inr (.inl backslash))⟩
      · by_cases slash : c = 0x2F
        · by_cases behind : previous = some 0x3C
          · exact .inr ⟨by simp [slash, behind], .inr (.inr (.inr slash))⟩
          · exact .inl ⟨by simp [slash, behind], control, quote, backslash⟩
        · exact .inl ⟨by simp [control, quote, backslash, slash], control, quote, backslash⟩
  · exact .inr ⟨by simp [control], .inl (UInt8.not_le.mp control)⟩

theorem mem_runChunk {chunk : Chunk} (member : chunk ∈ runChunk raw) : chunk = .run raw := by
  unfold runChunk at member
  split at member
  · exact mem_singleton.mp member
  · exact absurd member (by simp)

theorem chunks_sound (plain : ∀ c ∈ raw, IsPlain c) : ∀ chunk ∈ chunks previous raw value, chunk.Sound := by
  induction value generalizing previous raw with
  | nil =>
    intro chunk member
    rw [mem_runChunk member]
    exact plain
  | cons c rest ih =>
    unfold chunks
    cases standsRaw_cases previous c with
    | inl stands =>
      rw [if_pos stands.1]
      refine ih fun other member => ?_
      cases mem_append.mp member with
      | inl before => exact plain other before
      | inr last =>
        rw [mem_singleton.mp last]
        exact stands.2
    | inr special =>
      rw [if_neg (by simp [special.1])]
      intro chunk member
      cases mem_append.mp member with
      | inl before =>
        rw [mem_runChunk before]
        exact plain
      | inr later =>
        cases mem_cons.mp later with
        | inl here =>
          rw [here]
          exact special.2
        | inr behind => exact ih (by simp) chunk behind

theorem runChunk_meaning (raw : List UInt8) : (runChunk raw).flatMap meaning = raw := by
  unfold runChunk
  split
  · rw [flatMap_singleton]
    rfl
  · rename_i nothing
    rw [Decidable.not_not.mp nothing]
    rfl

theorem chunks_meaning (previous : Option UInt8) (raw value : List UInt8) :
    (chunks previous raw value).flatMap meaning = raw ++ value := by
  induction value generalizing previous raw with
  | nil => rw [append_nil]; exact runChunk_meaning raw
  | cons c rest ih =>
    unfold chunks
    split
    · rw [ih, append_assoc, singleton_append]
    · rw [flatMap_append, runChunk_meaning, flatMap_cons, ih]
      rfl

theorem chunks_high {bytes : List UInt8} (high : ∀ c ∈ bytes, 0x80 ≤ c.toNat)
    (previous : Option UInt8) (raw rest : List UInt8) :
    ∃ last, chunks previous raw (bytes ++ rest) = chunks last (raw ++ bytes) rest := by
  induction bytes generalizing previous raw with
  | nil => exact ⟨previous, by simp⟩
  | cons c bytes ih =>
    obtain ⟨here, others⟩ := forall_mem_cons.mp high
    obtain ⟨last, same⟩ := ih others (some c) (raw ++ [c])
    refine ⟨last, ?_⟩
    have stands : standsRaw previous c = true := by
      cases standsRaw_cases previous c with
      | inl stands => exact stands.1
      | inr special =>
        rcases special.2 with control | rfl | rfl | rfl
        · have small := UInt8.lt_iff_toNat_lt.mp control
          have limit : (0x20 : UInt8).toNat = 0x20 := rfl
          omega
        all_goals exact absurd here (by decide)
    rw [cons_append, chunks, if_pos stands, same, append_assoc, singleton_append]

theorem chunks_single (wellFormed : Utf8.WellFormed value) (before : ∀ c, raw = [c] → c.toNat < 0x80) :
    ∀ c, run [c] ∈ chunks previous raw value → c.toNat < 0x80 := by
  -- Any other character adds more than one byte to its run.
  induction wellFormed generalizing previous raw with
  | nil =>
    intro c member
    exact before c (run.inj (mem_runChunk member)).symm
  | @cons code rest scalar more ih =>
    by_cases ascii : code < 0x80
    · rw [Utf8.encode_ascii ascii, singleton_append, chunks]
      have small : (UInt8.ofNat code).toNat < 0x80 := by
        rw [Utf8.toNat_ofNat (by omega)]
        exact ascii
      split
      · refine ih fun c same => ?_
        cases raw with
        | nil =>
          obtain rfl := (cons.inj same).1
          exact small
        | cons first others => exact absurd (congrArg length same) (by simp)
      · intro c member
        cases mem_append.mp member with
        | inl run => exact before c (Chunk.run.inj (mem_runChunk run)).symm
        | inr later =>
          cases mem_cons.mp later with
          | inl here => exact absurd here (by simp)
          | inr behind => exact ih (by simp) c behind
    · have large : 0x80 ≤ code := Nat.le_of_not_lt ascii
      obtain ⟨last, same⟩ := chunks_high (Utf8.encode_high scalar large) previous raw rest
      rw [same]
      refine ih fun c single => ?_
      have length := congrArg length single
      rw [length_append] at length
      have several : 2 ≤ (Utf8.encode code).length := by
        unfold Utf8.encode
        rw [if_neg ascii]
        split_ifs <;> simp
      simp at length
      omega

/-- Some longest run of a string, between two escapes or ends of it, is a single blank. -/
def LoneBlank (value : List UInt8) : Prop := run [0x20] ∈ chunks none [] value

instance (value : List UInt8) : Decidable (LoneBlank value) := inferInstanceAs (Decidable (_ ∈ _))

/-- Whether a chunk is emitted. -/
def survives (skipWhitespace : Bool) : Chunk → Bool
  | .run [c] => aboveBlank c ∨ ¬ skipWhitespace
  | _ => true

theorem escapeText_long : ∀ c : UInt8, 2 ≤ (escapeText c).length := Utf8.forall_byte (by decide +kernel)

theorem kept_chunk (skipWhitespace : Bool) (chunk : Chunk) :
    kept skipWhitespace chunk.text = if survives skipWhitespace chunk then chunk.text else [] := by
  cases chunk with
  | run bytes =>
    match bytes with
    | [] => rfl
    | [c] => simp [text, survives, kept]
    | first :: second :: rest => rfl
  | escape c =>
    have long := escapeText_long c
    have whole : ∀ bytes : List UInt8, 2 ≤ bytes.length → kept skipWhitespace bytes = bytes := by
      intro bytes several
      unfold kept
      split
      · exact absurd several (by simp)
      · rfl
    exact whole _ long

theorem emittedText_eq (skipWhitespace : Bool) (parts : List Chunk) : emittedText skipWhitespace parts =
      (parts.filter (survives skipWhitespace)).flatMap text := by
  unfold emittedText
  induction parts with
  | nil => rfl
  | cons chunk parts ih =>
    rw [flatMap_cons, ih, kept_chunk, filter_cons]
    split
    · rw [flatMap_cons]
    · rfl

theorem survives_iff (skipWhitespace : Bool) (wellFormed : Utf8.WellFormed value) :
    (∀ chunk ∈ chunks none [] value, survives skipWhitespace chunk = true) ↔
      ¬ (skipWhitespace = true ∧ LoneBlank value) := by
  constructor
  · intro all dropped
    have alive := all _ dropped.2
    rw [dropped.1] at alive
    exact absurd alive (by decide)
  · intro noBlank chunk member
    unfold survives
    split
    · rename_i c
      by_cases skipped : skipWhitespace = true
      · -- A plain ASCII byte that is no blank is above the blank.
        have plain : IsPlain c := chunks_sound (by simp) _ member c (mem_singleton_self c)
        have ascii := chunks_single wellFormed (by simp) c member
        have notBlank : c ≠ 0x20 := by
          intro blank
          rw [blank] at member
          exact noBlank ⟨skipped, member⟩
        have low := UInt8.le_iff_toNat_le.mp plain.1
        have other : c.toNat ≠ 0x20 := fun same => notBlank (UInt8.toNat_inj.mp same)
        have limit : (0x20 : UInt8).toNat = 0x20 := rfl
        have top : (0x80 : UInt8).toNat = 0x80 := rfl
        have above : aboveBlank c = true := by
          unfold aboveBlank
          simp only [decide_eq_true_eq, UInt8.lt_iff_toNat_lt]
          omega
        simp [above]
      · simp [skipped]
    · rfl

theorem meaning_shorter (skipWhitespace : Bool)
    (dropped : ∃ chunk ∈ parts, survives skipWhitespace chunk = false) :
    ((parts.filter (survives skipWhitespace)).flatMap meaning).length <
      (parts.flatMap meaning).length := by
  have atMost : ∀ parts : List Chunk,
      ((parts.filter (survives skipWhitespace)).flatMap meaning).length ≤
        (parts.flatMap meaning).length := by
    intro parts
    induction parts with
    | nil => exact Nat.le_refl _
    | cons chunk parts ih =>
      rw [filter_cons]
      split <;> simp only [flatMap_cons, length_append] <;> omega
  induction parts with
  | nil => simp at dropped
  | cons chunk parts ih =>
    obtain ⟨lost, member, dead⟩ := dropped
    rw [filter_cons]
    cases mem_cons.mp member with
    | inl here =>
      subst here
      have bound := atMost parts
      have something : 0 < lost.meaning.length := by
        cases lost with
        | escape c => exact Nat.one_pos
        | run bytes =>
          cases bytes with
          | nil => exact absurd dead (by simp [survives])
          | cons c bytes => exact Nat.succ_pos _
      rw [if_neg (by simp [dead]), flatMap_cons, length_append]
      omega
    | inr later =>
      have shorter := ih ⟨lost, later, dead⟩
      split <;> simp only [flatMap_cons, length_append] <;> omega

/-- However it arrives, the parser reads a text as one string. -/
def ReadsBack (text value : List UInt8) : Prop :=
  ∀ future : List (List UInt8), future.flatten = text →
    (∀ block ∈ future, block ≠ [] ∧ block.length ≤ maxSize) →
    (rjsonSetup {} 50 future).Runs [⟨.string, value⟩] .done

theorem readsBack_quoted {pieces : List Piece} (decodes : decode pieces = some value)
    (fits : value.length < maxSize) : ReadsBack (quoted pieces) value := by
  intro future whole blocks
  have told : List.Forall₂ Told (Value.string pieces).traversal [⟨.string, value⟩] :=
    .cons (.string decodes fits) .nil
  have delivers := @document_delivers _ 50 ⟨⟨[], by simp⟩, .string pieces, ⟨[], by simp⟩⟩ told
    (by simp [Value.traversal, nesting, Element.depth])
  have text : Document.text ⟨⟨[], by simp⟩, .string pieces, ⟨[], by simp⟩⟩ = future.flatten := by
    rw [whole]
    unfold Document.text Value.text
    rw [append_nil]
    rfl
  rw [text] at delivers
  exact (rjsonSetup_shows {} 50 blocks).runs_iff.mpr delivers

theorem ReadsBack.scan {inside : List UInt8} (reads : ReadsBack (0x22 :: inside) value) :
    value.length < maxSize ∧ ∃ after, scanString {} inside [] false = some (value, after) := by
  obtain ⟨whole, blocks⟩ := bufferIo_flatten (0x22 :: inside)
  have delivers := (rjsonSetup_shows {} 50 blocks).runs_iff.mp (reads _ whole blocks)
  obtain ⟨document, text, told⟩ := delivers_document delivers
  obtain ⟨before, body, after⟩ := document
  rw [whole] at text
  unfold Document.text at text
  have single : ∃ pieces, body = .string pieces ∧ decode pieces = some value ∧ value.length < maxSize := by
    cases body with
    | string pieces =>
      cases told with
      | cons first rest =>
        cases first with
        | string decodes fits => exact ⟨pieces, rfl, decodes, fits⟩
    | null => cases told with | cons first rest => cases first
    | true => cases told with | cons first rest => cases first
    | false => cases told with | cons first rest => cases first
    | number number => cases told with | cons first rest => cases first
    | emptyArray blanks => cases told with | cons first rest => cases first
    | array elements => cases told with | cons first rest => cases first
    | emptyObject blanks => cases told with | cons first rest => cases first
    | object members => cases told with | cons first rest => cases first
  obtain ⟨pieces, rfl, decodes, fits⟩ := single
  obtain ⟨blanks, allBlank⟩ := before
  cases blanks with
  | cons blank blanks =>
    -- A quote is no blank.
    have first := (cons.inj text).1
    have isBlank := allBlank blank mem_cons_self
    rw [first] at isBlank
    exact absurd isBlank (by unfold IsBlank; decide)
  | nil =>
    have rest : spelled pieces ++ [0x22] ++ after.val = inside := (cons.inj text).2
    refine ⟨fits, after.val, scanString_iff.mpr ⟨fits, pieces, ?_, decodes⟩⟩
    rw [← rest, append_assoc, singleton_append]

theorem scanString_emitted (skipWhitespace : Bool) (value rest : List UInt8) :
    ∃ mask, scanString {} (emittedText skipWhitespace (chunks none [] value) ++ rest) [] false =
      scanString {} rest (((chunks none [] value).filter (survives skipWhitespace)).flatMap
        meaning) mask := by
  have sound : ∀ chunk ∈ (chunks none [] value).filter (survives skipWhitespace), chunk.Sound :=
    fun chunk member => chunks_sound (by simp) chunk (mem_filter.mp member).1
  obtain ⟨mask, same⟩ := scanString_chunks sound rest [] false
  rw [emittedText_eq]
  exact ⟨mask, same⟩

theorem emittedText_readsBack (skipWhitespace : Bool) (wellFormed : Utf8.WellFormed value) :
    (∃ pieces, 0x22 :: (emittedText skipWhitespace (chunks none [] value) ++ [0x22]) =
      quoted pieces ∧ ReadsBack (quoted pieces) value) ↔
    ¬ (skipWhitespace = true ∧ LoneBlank value) ∧ value.length < maxSize := by
  obtain ⟨mask, scanned⟩ := scanString_emitted skipWhitespace value [0x22]
  have meaning := chunks_meaning none [] value
  rw [nil_append] at meaning
  rw [← survives_iff skipWhitespace wellFormed]
  constructor
  · intro written
    obtain ⟨pieces, text, reads⟩ := written
    rw [← text] at reads
    obtain ⟨fits, after, found⟩ := reads.scan
    refine ⟨?_, fits⟩
    -- A string that lacks a chunk is shorter than the one that was read.
    intro chunk member
    refine Bool.of_not_eq_false fun dead => ?_
    have shorter := meaning_shorter skipWhitespace ⟨chunk, member, dead⟩
    rw [scanned, scanString_quote] at found
    rw [meaning] at shorter
    have same : ∀ said : List UInt8, (if said.length < maxSize then
        (if mask then validateUtf8 {} said else some said).map (·, ([] : List UInt8)) else none) =
          some (value, after) → value = said := by
      intro said gives
      split at gives
      · obtain ⟨valid, validated, pair⟩ := Option.map_eq_some_iff.mp gives
        have isValue : valid = value := (Prod.mk.inj pair).1
        subst isValue
        split at validated
        · exact validated_same validated
        · exact (Option.some.inj validated).symm
      · exact absurd gives (by simp)
    rw [← same _ found] at shorter
    exact Nat.lt_irrefl _ shorter
  · intro complete
    obtain ⟨all, fits⟩ := complete
    rw [filter_eq_self.mpr all, meaning, scanString_quote, if_pos fits] at scanned
    have valid : validateUtf8 {} value = some value := validated_wellFormed false wellFormed
    have found : scanString {} (emittedText skipWhitespace (chunks none [] value) ++ [0x22]) []
        false = some (value, []) := by
      rw [scanned, valid]
      cases mask <;> rfl
    obtain ⟨-, pieces, spells, decodes⟩ := scanString_iff.mp found
    refine ⟨pieces, ?_, readsBack_quoted decodes fits⟩
    rw [spells]
    rfl

/-- Both functions write a string of well-formed text as one token that is read back as it was, if
and only if no lone blank is dropped and the string is not too long for the parser. -/
theorem addString_readsBack (writer : Writer) (wellFormed : Utf8.WellFormed value) :
    ((∃ pieces, (writerAddStringLen writer value).emitted = writer.emitted ++ quoted pieces ∧
        ReadsBack (quoted pieces) value) ↔
      ¬ (writer.skipWhitespace = true ∧ LoneBlank value) ∧ value.length < maxSize) ∧
    (0 ∉ value → ∀ behind, ((∃ pieces, (writerAddString writer (some (value ++ 0 :: behind))).emitted =
          writer.emitted ++ quoted pieces ∧ ReadsBack (quoted pieces) value) ↔
        ¬ (writer.skipWhitespace = true ∧ LoneBlank value) ∧ value.length < maxSize)) := by
  have len : (∃ pieces, (writerAddStringLen writer value).emitted =
      writer.emitted ++ quoted pieces ∧ ReadsBack (quoted pieces) value) ↔
      ¬ (writer.skipWhitespace = true ∧ LoneBlank value) ∧ value.length < maxSize := by
    rw [← emittedText_readsBack writer.skipWhitespace wellFormed, writerAddStringLen_emitted]
    simp only [append_cancel_left_eq]
  refine ⟨len, fun noZero behind => ?_⟩
  have upToZero : (value ++ 0 :: behind).takeWhile (· ≠ 0) = value := by
    rw [takeWhile_append_of_pos fun c member => by simpa using fun zero : c = 0 => noZero (zero ▸ member)]
    simp
  rw [writerAddString_eq, upToZero]
  exact len

/-- A letter makes the round trip, blanks being skipped or not. -/
theorem addString_readsBack_letter : ∃ pieces,
    (writerAddStringLen { buf := [], skipWhitespace := true } [0x61]).emitted =
        [] ++ quoted pieces ∧ ReadsBack (quoted pieces) [0x61] :=
  (addString_readsBack { buf := [], skipWhitespace := true }
    (.ascii (by decide) .nil : Utf8.WellFormed [0x61])).1.mpr ⟨by decide, by decide⟩

/-- A single blank is lost where blanks are skipped, although it is in a string. -/
theorem addString_readsBack_blank : Utf8.WellFormed [0x20] ∧
    ¬ ∃ pieces, (writerAddStringLen { buf := [], skipWhitespace := true } [0x20]).emitted =
      [] ++ quoted pieces ∧ ReadsBack (quoted pieces) [0x20] := by
  refine ⟨.ascii (by decide) .nil, fun written => ?_⟩
  obtain ⟨pieces, text, reads⟩ := written
  have empty : (writerAddStringLen { buf := [], skipWhitespace := true } [0x20]).emitted =
      [0x22, 0x22] := by decide
  rw [empty, nil_append] at text
  rw [← text] at reads
  obtain ⟨-, after, found⟩ := reads.scan
  rw [scanString_quote] at found
  exact absurd found (by simp [maxSize])

end Libretro.Rjson
