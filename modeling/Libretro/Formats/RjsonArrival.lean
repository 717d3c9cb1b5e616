import Libretro.Formats.RjsonRuns

/-! The parser delivers the same however its input arrives, but for marks behind the first block. -/

namespace Libretro.Rjson

open List Nat Option Reader

variable {json other : Json} {bytes rest gap : List UInt8} {options : Options}
  {maxDepth less more : Nat} {firstLine : Bool}

/-- The size of the blocks that a callback is asked for. -/
def ioBlockSize (size : Int) : Nat :=
  if size < 16 then 16 else if (maxSize : Int) < size then maxSize else size.toNat

/-- The blocks in which a buffer is delivered. -/
def bufferIo (buffer : List UInt8) : List (List UInt8) :=
  match buffer with
  | [] => []
  | c :: rest => (c :: rest).take 512 :: bufferIo ((c :: rest).drop 512)
termination_by buffer.length
decreasing_by
  rw [List.length_drop, List.length_cons]
  omega

/-- A parser over a buffer. -/
def rjsonOpenBuffer (options : Options) (maxDepth : Nat) (buffer : List UInt8) : Json :=
  rjsonSetup options maxDepth (bufferIo buffer)

theorem ioBlockSize_le (size : Int) : ioBlockSize size ≤ maxSize := by
  unfold ioBlockSize
  split
  · decide
  · split
    · exact le_refl _
    · omega

/-- A buffer is delivered whole, in blocks that are neither empty nor too large. -/
theorem bufferIo_flatten (buffer : List UInt8) : (bufferIo buffer).flatten = buffer ∧
    ∀ block ∈ bufferIo buffer, block ≠ [] ∧ block.length ≤ maxSize := by
  -- Every block leaves fewer bytes.
  induction length : buffer.length using Nat.strongRecOn generalizing buffer with
  | _ n ih =>
    subst length
    cases buffer with
    | nil =>
      rw [bufferIo]
      exact ⟨rfl, by simp⟩
    | cons c rest =>
      have shorter : ((c :: rest).drop 512).length < (c :: rest).length := by
        rw [length_drop, length_cons]
        omega
      obtain ⟨whole, blocks⟩ := ih _ shorter _ rfl
      rw [bufferIo]
      constructor
      · rw [flatten_cons, whole, take_append_drop]
      · intro block member
        cases mem_cons.mp member with
        | inr later => exact blocks block later
        | inl first =>
          subst first
          refine ⟨by simp, le_trans (length_take_le _ _) (by decide)⟩

theorem bufferIo_first (buffer : List UInt8) :
    ((bufferIo buffer).headD []).length = min 512 buffer.length := by
  cases buffer with
  | nil => rw [bufferIo]; rfl
  | cons c rest => rw [bufferIo, headD_cons, length_take]

/-- Blanks of the first line, complete comments where they are allowed, and marks. -/
inductive Opening (comments : Bool) : List UInt8 → Prop
  | nil : Opening comments []
  | blank {c : UInt8} {rest : List UInt8} (blank : tokenLut c = .whitespace)
      (more : Opening comments rest) : Opening comments (c :: rest)
  | line {body rest : List UInt8} (allowed : comments = true) (oneLine : 0x0A ∉ body)
      (more : Opening comments rest) : Opening comments (0x2F :: 0x2F :: (body ++ 0x0A :: rest))
  | block {body rest : List UInt8} (allowed : comments = true)
      (first : ¬ starSlash <:+: body ++ [0x2A]) (more : Opening comments rest) :
      Opening comments (0x2F :: 0x2A :: (body ++ 0x2A :: 0x2F :: rest))
  | mark {rest : List UInt8} (more : Opening comments rest) :
      Opening comments (0xEF :: 0xBB :: 0xBF :: rest)

theorem comment_over {last : UInt8} (stops : scanSkip 0x2F 0 bytes = .finished true last rest) :
    (∃ body, bytes = 0x2F :: (body ++ 0x0A :: rest) ∧ 0x0A ∉ body) ∨
    (∃ body, bytes = 0x2A :: (body ++ 0x2A :: 0x2F :: rest) ∧ ¬ starSlash <:+: body ++ [0x2A]) := by
  cases bytes with
  | nil => simp [scanSkip] at stops
  | cons second body =>
    by_cases line : second = 0x2F
    · subst line
      have inLine : scanSkip 0x2F 1 body = .finished true last rest := stops
      cases scanSkip_line_cases body with
      | inl unending => exact absurd (unending.1.symm.trans inLine) (by simp)
      | inr ending =>
        obtain ⟨text, after, rfl, oneLine⟩ := ending
        rw [scanSkip_line oneLine] at inLine
        obtain ⟨-, -, rfl⟩ := Skip.finished.inj inLine
        exact .inl ⟨text, rfl, oneLine⟩
    · by_cases block : second = 0x2A
      · subst block
        have inBlock : scanSkip 0x2F 2 body = .finished true last rest := stops
        cases block_cases body with
        | inl unclosed => exact absurd (((scanSkip_block body).1 unclosed).symm.trans inBlock) (by simp)
        | inr closed =>
          obtain ⟨text, after, rfl, first⟩ := closed
          rw [(scanSkip_block_over text after).1 first] at inBlock
          obtain ⟨-, -, rfl⟩ := Skip.finished.inj inBlock
          exact .inr ⟨text, rfl, first⟩
      · simp [scanSkip, skipStep, line, block] at stops

theorem mark_over {last : UInt8} (stops : scanSkip 0xEF 0 bytes = .finished true last rest) :
    bytes = 0xBB :: 0xBF :: rest := by
  cases bytes with
  | nil => simp [scanSkip] at stops
  | cons second later =>
    by_cases isSecond : second = 0xBB
    · subst isSecond
      have inside : scanSkip 0xEF 1 later = .finished true last rest := stops
      cases later with
      | nil => simp [scanSkip] at inside
      | cons third others =>
        by_cases isThird : third = 0xBF
        · subst isThird
          obtain ⟨-, -, rfl⟩ := Skip.finished.inj (inside : Skip.finished true _ others = _)
          rfl
        · simp [scanSkip, skipStep, isThird] at inside
    · simp [scanSkip, skipStep, isSecond] at stops

theorem scanMarks_mark (bom : options.allowUtf8Bom = true) (within : less ≤ rest.length + 2) :
    scanMarks options less true (0xEF :: 0xBB :: 0xBF :: rest) = scanMarks options less true rest := by
  rw [scanMarks_skip (.inr ⟨rfl, bom, rfl, within⟩)]
  rfl

theorem scanMarks_late (late : rest.length < more) :
    scanMarks options more firstLine (0xEF :: rest) = .found .optionalSkip 0xEF rest := by
  rw [scanMarks_token (by decide)]
  · rfl
  · intro skippable
    cases skippable with
    | inl comment => exact absurd comment.1 (by decide)
    | inr mark => exact absurd mark.2.2.2 (not_le_of_gt late)

theorem scanMarks_comment {last : UInt8} {later : List UInt8} (allowed : options.allowComments = true)
    (stops : scanSkip 0x2F 0 rest = .finished true last later) :
    scanMarks options less firstLine (0x2F :: rest) = scanMarks options less firstLine later := by
  rw [scanMarks_skip (.inl ⟨rfl, allowed⟩), stops]

theorem Opening.passed (opening : Opening options.allowComments gap)
    (bom : options.allowUtf8Bom = true) (within : less ≤ rest.length) :
    scanMarks options less true (gap ++ rest) = scanMarks options less true rest := by
  induction opening with
  | nil => rfl
  | blank blank more ih => rw [cons_append, scanMarks_blank blank, ih]
  | @line body later allowed oneLine more ih =>
    have stops : scanSkip 0x2F 0 (0x2F :: (body ++ 0x0A :: (later ++ rest))) =
        .finished true 0x0A (later ++ rest) := scanSkip_line oneLine
    have comment := @scanMarks_comment _ options less true _ _ allowed stops
    rw [ih] at comment
    simpa using comment
  | @block body later allowed first more ih =>
    have stops : scanSkip 0x2F 0 (0x2A :: (body ++ 0x2A :: 0x2F :: (later ++ rest))) =
        .finished true 0x2F (later ++ rest) := (scanSkip_block_over body _).1 first
    have comment := @scanMarks_comment _ options less true _ _ allowed stops
    rw [ih] at comment
    simpa using comment
  | @mark later more ih =>
    have sought : less ≤ (later ++ rest).length + 2 := by
      rw [length_append]
      omega
    exact (scanMarks_mark bom sought).trans ih

theorem Opening.refused (opening : Opening options.allowComments gap) (late : rest.length < more) :
    ∃ last later, scanMarks options more true (gap ++ 0xEF :: rest) = .found .optionalSkip last later := by
  induction opening with
  | nil => exact ⟨_, _, scanMarks_late late⟩
  | blank blank _ ih =>
    rw [cons_append, scanMarks_blank blank]
    exact ih
  | @line body later allowed oneLine _ ih =>
    have stops : scanSkip 0x2F 0 (0x2F :: (body ++ 0x0A :: (later ++ 0xEF :: rest))) =
        .finished true 0x0A (later ++ 0xEF :: rest) := scanSkip_line oneLine
    have comment := @scanMarks_comment _ options more true _ _ allowed stops
    simp only [cons_append, List.append_assoc] at comment ⊢
    rw [comment]
    exact ih
  | @block body later allowed first _ ih =>
    have stops : scanSkip 0x2F 0 (0x2A :: (body ++ 0x2A :: 0x2F :: (later ++ 0xEF :: rest))) =
        .finished true 0x2F (later ++ 0xEF :: rest) := (scanSkip_block_over body _).1 first
    have comment := @scanMarks_comment _ options more true _ _ allowed stops
    simp only [cons_append, List.append_assoc] at comment ⊢
    rw [comment]
    exact ih
  | @mark later _ ih =>
    by_cases within : more ≤ (later ++ 0xEF :: rest).length + 2
    · by_cases bom : options.allowUtf8Bom = true
      · have passed := scanMarks_mark bom within
        simp only [cons_append] at passed ⊢
        rw [passed]
        exact ih
      · refine ⟨0xEF, 0xBB :: 0xBF :: (later ++ 0xEF :: rest), ?_⟩
        simp only [cons_append]
        rw [scanMarks_token (by decide)]
        · rfl
        · intro skippable
          cases skippable with
          | inl comment => exact absurd comment.1 (by decide)
          | inr mark => exact bom mark.2.1
    · have refused := @scanMarks_late (0xBB :: 0xBF :: (later ++ 0xEF :: rest)) options more true
        (by simpa using Nat.lt_of_not_le within)
      exact ⟨_, _, refused⟩

theorem scanMarks_lines : scanMarks options more false bytes = scanMarks options less false bytes := by
  -- Every blank and every comment leaves fewer bytes.
  induction length : bytes.length using Nat.strongRecOn generalizing bytes with
  | _ n ih =>
    subst length
    cases bytes with
    | nil => rw [scanMarks_nil, scanMarks_nil]
    | cons c rest =>
      by_cases blank : tokenLut c = .whitespace
      · rw [scanMarks_blank blank, scanMarks_blank blank]
        exact ih _ (lt_succ_self _) rfl
      · by_cases newline : tokenLut c = .newline
        · rw [scanMarks_newline newline, scanMarks_newline newline]
          exact ih _ (lt_succ_self _) rfl
        · by_cases comment : c = 0x2F ∧ options.allowComments = true
          · rw [scanMarks_skip (.inl comment), scanMarks_skip (.inl comment)]
            cases stops : scanSkip c 0 rest with
            | cut => rfl
            | finished skipped last later =>
              cases skipped with
              | false => rfl
              | true => exact ih _ (lt_succ_of_lt (length_scanSkip stops)) rfl
          · have token : ∀ behind, ¬ Skippable options behind false c rest := by
              intro behind skippable
              cases skippable with
              | inl slash => exact comment slash
              | inr mark => exact absurd mark.2.2.1 (by simp)
            rw [scanMarks_token ⟨blank, newline⟩ (token more), scanMarks_token ⟨blank, newline⟩ (token less)]

/-- Two first blocks lead to the same token, or to a mark that begins in one of them only. -/
inductive Parts (options : Options) (less more : Nat) (bytes : List UInt8) : Prop
  | same (same : scanMarks options more true bytes = scanMarks options less true bytes)
  | mark {gap rest : List UInt8} (bom : options.allowUtf8Bom = true)
      (whole : bytes = gap ++ 0xEF :: rest) (opening : Opening options.allowComments gap)
      (within : less ≤ rest.length) (late : rest.length < more)
      (refused : scanMarks options more true bytes = .found .optionalSkip 0xEF rest)
      (taken : scanMarks options less true bytes = scanMarks options less true (0xEF :: rest))

theorem Parts.behind {front : List UInt8} (parts : Parts options less more bytes)
    (joins : ∀ gap, Opening options.allowComments gap → Opening options.allowComments (front ++ gap))
    (skipMore : scanMarks options more true (front ++ bytes) = scanMarks options more true bytes)
    (skipLess : scanMarks options less true (front ++ bytes) = scanMarks options less true bytes) :
    Parts options less more (front ++ bytes) := by
  cases parts with
  | same same => exact .same (skipMore.trans (same.trans skipLess.symm))
  | mark bom whole opening within late refused taken =>
    refine .mark bom ?_ (joins _ opening) within late (skipMore.trans refused) (skipLess.trans taken)
    rw [whole, List.append_assoc]

theorem parts_scanMarks (le : less ≤ more) (bytes : List UInt8) : Parts options less more bytes := by
  induction length : bytes.length using Nat.strongRecOn generalizing bytes with
  | _ n ih =>
    subst length
    cases bytes with
    | nil => exact .same (by rw [scanMarks_nil, scanMarks_nil])
    | cons c rest =>
      by_cases blank : tokenLut c = .whitespace
      · have parts := ih _ (lt_succ_self _) rest rfl
        have joined : Parts options less more ([c] ++ rest) :=
          parts.behind (fun _ opening => .blank blank opening) (scanMarks_blank blank) (scanMarks_blank blank)
        exact joined
      · by_cases newline : tokenLut c = .newline
        · refine .same ?_
          rw [scanMarks_newline newline, scanMarks_newline newline]
          exact scanMarks_lines
        · by_cases comment : c = 0x2F ∧ options.allowComments = true
          · obtain ⟨rfl, allowed⟩ := comment
            cases stops : scanSkip 0x2F 0 rest with
            | cut =>
              refine .same ?_
              rw [scanMarks_skip (.inl ⟨rfl, allowed⟩), scanMarks_skip (.inl ⟨rfl, allowed⟩), stops]
            | finished skipped last later =>
              cases skipped with
              | false =>
                refine .same ?_
                rw [scanMarks_skip (.inl ⟨rfl, allowed⟩), scanMarks_skip (.inl ⟨rfl, allowed⟩), stops]
              | true =>
                have parts := ih _ (lt_succ_of_lt (length_scanSkip stops)) later rfl
                have skips := fun behind => @scanMarks_comment _ options behind true _ _ allowed stops
                cases comment_over stops with
                | inl line =>
                  obtain ⟨body, rfl, oneLine⟩ := line
                  have joined : Parts options less more ((0x2F :: 0x2F :: (body ++ [0x0A])) ++ later) := by
                    refine parts.behind (fun gap opening => ?_) (by simpa using skips more)
                      (by simpa using skips less)
                    simpa using Opening.line allowed oneLine opening
                  simpa using joined
                | inr block =>
                  obtain ⟨body, rfl, first⟩ := block
                  have joined : Parts options less more ((0x2F :: 0x2A :: (body ++ starSlash)) ++ later) := by
                    refine parts.behind (fun gap opening => ?_) (by simpa using skips more)
                      (by simpa using skips less)
                    simpa using Opening.block allowed first opening
                  simpa using joined
          · by_cases mark : c = 0xEF ∧ options.allowUtf8Bom = true ∧ less ≤ rest.length
            · obtain ⟨rfl, bom, within⟩ := mark
              by_cases late : rest.length < more
              · exact .mark bom rfl .nil within late (scanMarks_late late) rfl
              · -- Both look into the mark.
                have sought : more ≤ rest.length := Nat.le_of_not_lt late
                have skipLess := scanMarks_skip
                  (.inr ⟨rfl, bom, rfl, within⟩ : Skippable options less true 0xEF rest)
                have skipMore := scanMarks_skip
                  (.inr ⟨rfl, bom, rfl, sought⟩ : Skippable options more true 0xEF rest)
                cases stops : scanSkip 0xEF 0 rest with
                | cut => exact .same (by rw [skipLess, skipMore, stops])
                | finished skipped last later =>
                  rw [stops] at skipLess skipMore
                  cases skipped with
                  | false => exact .same (skipMore.trans skipLess.symm)
                  | true =>
                    have parts := ih _ (lt_succ_of_lt (length_scanSkip stops)) later rfl
                    obtain rfl := mark_over stops
                    have joined : Parts options less more ([0xEF, 0xBB, 0xBF] ++ later) :=
                      parts.behind (fun _ opening => .mark opening) skipMore skipLess
                    exact joined
            · have token : ∀ behind, less ≤ behind → ¬ Skippable options behind true c rest := by
                intro behind farther skippable
                cases skippable with
                | inl slash => exact comment slash
                | inr found => exact mark ⟨found.1, found.2.1, le_trans farther found.2.2.2⟩
              refine .same ?_
              rw [scanMarks_token ⟨blank, newline⟩ (token more le),
                scanMarks_token ⟨blank, newline⟩ (token less (le_refl _))]

/-- A parser that has just been set up, over bytes of which some lie behind the first block. -/
structure Json.Starts (options : Options) (maxDepth behind : Nat) (bytes : List UInt8)
    (json : Json) : Prop where
  shows : json.Shows options maxDepth ⟨bytes, ⟨.done, 0⟩, []⟩
  leads : json.input.Leads behind bytes.length
  start : json.input.position = 0
  here : json.input.inputP = 0
  line : json.input.sourceLine = 1

theorem rjsonSetup_starts {future : List (List UInt8)} (options : Options) (maxDepth : Nat)
    (blocks : ∀ block ∈ future, block ≠ [] ∧ block.length ≤ maxSize) :
    (rjsonSetup options maxDepth future).Starts options maxDepth
      (future.flatten.length - (future.headD []).length) future.flatten := by
  refine ⟨rjsonSetup_shows options maxDepth blocks, .fresh rfl rfl rfl ?_, rfl, rfl, rfl⟩
  show (future.headD []).length + _ = _
  cases future with
  | nil => rfl
  | cons block later =>
    rw [headD_cons, flatten_cons, length_append]
    omega

theorem Json.Starts.next {behind : Nat} (starts : json.Starts options maxDepth behind bytes) :
    json.Refines options maxDepth (first options maxDepth behind ⟨bytes, ⟨.done, 0⟩, []⟩) (rjsonNext json) :=
  starts.shows.first rfl starts.start starts.leads starts.here starts.line

theorem Reader.value_noError {reader next : Reader} {tok : Token} {first : UInt8} {event : Event}
    (delivers : reader.value options maxDepth tok first = some (event, next)) :
    event.type ≠ .error := by
  have enters : ∀ type, type ≠ .error → reader.counted.push maxDepth type = some (event, next) →
      event.type ≠ .error := by
    intro type noError pushed
    unfold push at pushed
    split at pushed
    · rw [← (Prod.mk.inj (some.inj pushed)).1]
      exact noError
    · exact absurd pushed (by simp)
  have keeps : ∀ type found, type ≠ .error → reader.counted.scalar type found = some (event, next) →
      event.type ≠ .error := by
    intro type found noError read
    obtain ⟨scanned, -, same⟩ := map_eq_some_iff.mp read
    rw [← (Prod.mk.inj same).1]
    exact noError
  unfold value at delivers
  cases tok with
  | string => exact keeps _ _ (by simp) delivers
  | number => exact keeps _ _ (by simp) delivers
  | object => exact enters _ (by simp) delivers
  | array => exact enters _ (by simp) delivers
  | true => exact keeps _ _ (by simp) delivers
  | false => exact keeps _ _ (by simp) delivers
  | null => exact keeps _ _ (by simp) delivers
  | _ => exact absurd delivers (by simp)

theorem decision_fresh {tok : Token} {trailing : Bool} : decision ⟨.done, 0⟩ false tok trailing =
      if tok = .eof then .fail "reached end without any data" else .value := by
  unfold decision
  by_cases ended : tok = .eof <;> simp [ended]

theorem first_none {behind : Nat} (scan : scanMarks options behind true bytes = .cut ∨
      ∃ last rest, scanMarks options behind true bytes = .found .optionalSkip last rest) :
    first options maxDepth behind ⟨bytes, ⟨.done, 0⟩, []⟩ = none := by
  unfold first
  cases scan with
  | inl cut => rw [cut]
  | inr skip =>
    obtain ⟨last, rest, found⟩ := skip
    rw [found]
    rfl

theorem first_noError {next : Reader} {behind : Nat} {event : Event}
    (delivers : first options maxDepth behind ⟨bytes, ⟨.done, 0⟩, []⟩ = some (event, next)) :
    event.type ≠ .error := by
  unfold first at delivers
  cases scan : scanMarks options behind true bytes with
  | cut => simp [scan] at delivers
  | found tok last rest =>
    simp only [scan, decision_fresh] at delivers
    split at delivers
    · exact absurd delivers (by simp [Reader.act])
    · exact value_noError delivers

theorem first_same {behind : Nat} {later : List UInt8}
    (same : scanMarks options behind true bytes = scanMarks options behind true later) :
    first options maxDepth behind ⟨bytes, ⟨.done, 0⟩, []⟩ =
      first options maxDepth behind ⟨later, ⟨.done, 0⟩, []⟩ := by
  unfold first
  rw [same]

/-- A mark that may be skipped begins behind the first block of one input, inside the other's, and
an element follows it. -/
def MarkSplit (options : Options) (maxDepth near far : Nat) (bytes : List UInt8) : Prop :=
  options.allowUtf8Bom = true ∧ ∃ gap rest, bytes = gap ++ 0xEF :: 0xBB :: 0xBF :: rest ∧
    Opening options.allowComments gap ∧ near ≤ gap.length ∧ gap.length < far ∧
    Reader.first options maxDepth (bytes.length - far) ⟨rest, ⟨.done, 0⟩, []⟩ ≠ none

theorem first_eq {near far : Nat} (nearer : near ≤ far) (inside : far ≤ bytes.length)
    (noSplit : ¬ MarkSplit options maxDepth near far bytes) :
    first options maxDepth (bytes.length - near) ⟨bytes, ⟨.done, 0⟩, []⟩ =
      first options maxDepth (bytes.length - far) ⟨bytes, ⟨.done, 0⟩, []⟩ := by
  cases parts_scanMarks (Nat.sub_le_sub_left nearer bytes.length : bytes.length - far ≤ _) bytes with
  | same same =>
    unfold first
    rw [same]
  | @mark gap rest bom whole opening within late refused taken =>
    rw [first_none (.inr ⟨_, _, refused⟩)]
    have length : bytes.length = gap.length + (rest.length + 1) := by rw [whole, length_append, length_cons]
    have skips := scanMarks_skip
      (.inr ⟨rfl, bom, rfl, within⟩ : Skippable options (bytes.length - far) true 0xEF rest)
    rw [skips] at taken
    cases stops : scanSkip 0xEF 0 rest with
    | cut =>
      rw [stops] at taken
      rw [first_none (.inl taken)]
    | finished skipped last later =>
      rw [stops] at taken
      cases skipped with
      | false => rw [first_none (.inr ⟨_, _, taken⟩)]
      | true =>
        -- The mark is whole, so that no element may follow it.
        obtain rfl := mark_over stops
        rw [first_same taken]
        by_cases nothing : first options maxDepth (bytes.length - far) ⟨later, ⟨.done, 0⟩, []⟩ = none
        · rw [nothing]
        · refine absurd ⟨bom, gap, later, whole, opening, ?_, ?_, nothing⟩ noSplit
          · omega
          · omega

theorem Json.Starts.runs_iff {near far : Nat} (nearer : near ≤ far) (inside : far ≤ bytes.length)
    (deep : 10 ≤ maxDepth) (starts : json.Starts options maxDepth (bytes.length - near) bytes)
    (otherStarts : other.Starts options maxDepth (bytes.length - far) bytes) :
    (∀ events final, json.Runs events final ↔ other.Runs events final) ↔
      ¬ MarkSplit options maxDepth near far bytes := by
  have ends := starts.shows.next_ne_none deep
  have otherEnds := otherStarts.shows.next_ne_none deep
  have refines := starts.next
  have otherRefines := otherStarts.next
  constructor
  · -- The input with the shorter first block fails at the mark, the other one does not.
    intro same split
    obtain ⟨bom, gap, rest, whole, opening, behind, within, element⟩ := split
    have length : bytes.length = gap.length + (rest.length + 3) := by
      rw [whole, length_append]
      rfl
    have late : (0xBB :: 0xBF :: rest).length < bytes.length - near := by
      simp only [length_cons]
      omega
    have sought : bytes.length - far ≤ rest.length + 2 := by omega
    obtain ⟨last, later, refused⟩ := opening.refused late
    rw [← whole] at refused
    rw [first_none (.inr ⟨last, later, refused⟩)] at refines
    have passed := opening.passed bom (show bytes.length - far ≤
      (0xEF :: 0xBB :: 0xBF :: rest).length by simp only [length_cons]; omega)
    rw [← whole, scanMarks_mark bom sought] at passed
    rw [first_same passed] at otherRefines
    cases refines with
    | next expected => exact absurd expected (by simp)
    | overrun nothing gives => exact ends gives
    | error nothing gives =>
      have failing := (same [] .error).mp (.last gives (.inr rfl))
      cases otherRefines with
      | error none => exact element none
      | overrun none => exact element none
      | next expected otherGives =>
        cases failing with
        | last delivers =>
          have isError := (Prod.mk.inj (some.inj (otherGives.symm.trans delivers))).1
          exact first_noError expected isError
  · intro noSplit events final
    rw [first_eq nearer inside noSplit] at refines
    constructor
    · intro runs
      exact runs.transfer deep (refines.agree otherRefines ends otherEnds)
    · intro runs
      exact runs.transfer deep (otherRefines.agree refines otherEnds ends)

/-- A callback's input is parsed as a buffer's is, if and only if no mark is split between the ends
of their first blocks. -/
theorem runs_arrival {options : Options} {maxDepth : Nat} {size : Int}
    {future : List (List UInt8)} (deep : 10 ≤ maxDepth)
    (blocks : ∀ block ∈ future, block ≠ [] ∧ block.length ≤ ioBlockSize size) :
    (∀ events final, (rjsonSetup options maxDepth future).Runs events final ↔
      (rjsonOpenBuffer options maxDepth future.flatten).Runs events final) ↔ ¬ MarkSplit options maxDepth
      (min (future.headD []).length (min 512 future.flatten.length))
      (max (future.headD []).length (min 512 future.flatten.length)) future.flatten := by
  have small : ∀ block ∈ future, block ≠ [] ∧ block.length ≤ maxSize := fun block member =>
    ⟨(blocks block member).1, le_trans (blocks block member).2 (ioBlockSize_le size)⟩
  have starts := rjsonSetup_starts options maxDepth small
  obtain ⟨whole, blocksBuffer⟩ := bufferIo_flatten future.flatten
  have startsBuffer := rjsonSetup_starts options maxDepth blocksBuffer
  rw [whole, bufferIo_first] at startsBuffer
  have inside : (future.headD []).length ≤ future.flatten.length := by
    cases future with
    | nil => exact le_refl _
    | cons block later =>
      rw [headD_cons, flatten_cons, length_append]
      omega
  unfold rjsonOpenBuffer
  by_cases nearer : (future.headD []).length ≤ min 512 future.flatten.length
  · rw [min_eq_left nearer, max_eq_right nearer]
    exact starts.runs_iff nearer (min_le_right _ _) deep startsBuffer
  · have farther := Nat.le_of_not_le nearer
    rw [min_eq_right farther, max_eq_left farther]
    rw [← startsBuffer.runs_iff farther inside deep starts]
    exact forall_congr' fun events => forall_congr' fun final => iff_comm

/-- An array that is cut behind its bracket holds no mark, and is parsed as a whole one is. -/
theorem runs_arrival_array : ¬ MarkSplit {} 50 1 3 [0x5B, 0x30, 0x5D] ∧
    ∀ events final, (rjsonSetup {} 50 [[0x5B], [0x30, 0x5D]]).Runs events final ↔
      (rjsonOpenBuffer {} 50 [0x5B, 0x30, 0x5D]).Runs events final := by
  have noSplit : ¬ MarkSplit {} 50 1 3 [0x5B, 0x30, 0x5D] := fun split => absurd split.1 (by decide)
  exact ⟨noSplit, (@runs_arrival {} 50 16 [[0x5B], [0x30, 0x5D]] (by decide) (by decide)).mpr noSplit⟩

/-- A blank alone in the first block makes the mark behind it an error, which is skipped otherwise. -/
theorem runs_arrival_mark : (∀ block ∈ [[0x20], [0xEF, 0xBB, 0xBF, 0x31]],
      block ≠ [] ∧ (block : List UInt8).length ≤ ioBlockSize 16) ∧ ¬ ∀ events final,
      (rjsonSetup { allowUtf8Bom := true } 50 [[0x20], [0xEF, 0xBB, 0xBF, 0x31]]).Runs events final ↔
        (rjsonOpenBuffer { allowUtf8Bom := true } 50 [0x20, 0xEF, 0xBB, 0xBF, 0x31]).Runs events final := by
  refine ⟨by decide, fun same => ?_⟩
  have whole : bufferIo [0x20, 0xEF, 0xBB, 0xBF, 0x31] = [[0x20, 0xEF, 0xBB, 0xBF, 0x31]] := by
    simp [bufferIo]
  have fails : (rjsonSetup { allowUtf8Bom := true } 50 [[0x20], [0xEF, 0xBB, 0xBF, 0x31]]).Runs
      [] .error := .last rfl (.inr rfl)
  have read : (rjsonNext (rjsonSetup { allowUtf8Bom := true } 50
      [[0x20, 0xEF, 0xBB, 0xBF, 0x31]])).map Prod.fst = some .number := by
    decide
  have failsToo := (same [] .error).mp fails
  rw [rjsonOpenBuffer, whole] at failsToo
  cases failsToo with
  | last delivers =>
    rw [delivers] at read
    exact absurd (some.inj read) (by simp)

end Libretro.Rjson
