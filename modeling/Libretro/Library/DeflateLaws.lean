import Libretro.Library.Deflate

/-! Deflate decoding goes on as it began, in parts and between blocks, and comes to an end. -/

namespace Deflate

open BackReference BitString BitString.Parser Nat Decoder

/-- A decoder with more bytes to read. -/
def Decoder.more (decoder : Decoder) (bytes : List UInt8) : Decoder :=
  { decoder with bits := decoder.bits ++ ofBytes bytes }

theorem Steps.trans {first second third : Decoder} (steps : Steps first second)
    (more : Steps second third) : Steps first third := by
  induction steps with
  | refl => exact more
  | step moves _ ih => exact .step moves (ih more)

/-- How far a decoder is from its end: what is left to read, and whether a step reads nothing. -/
def Decoder.measure (decoder : Decoder) : Nat :=
  2 * decoder.bits.length + match decoder.stage with
    | .stored _ _ => 1
    | .lengths _ _ _ _ _ => 1
    | _ => 0

theorem read_takes (lengths : List Nat) : (CanonicalCode.read lengths maxBits).Takes 1 := by
  intro bits value rest read
  exact CanonicalCode.readFrom_length (le_refl 1) read

theorem lengthRun_takes (known : List Nat) (sym : Nat) : (lengthRun known sym).Takes 0 := by
  unfold lengthRun
  split
  · exact done_takes _
  split
  · split
    · exact never_takes 0
    · exact (andThen_takes (number_takes 2) fun _ => done_takes _).mono (zero_le _)
  split
  · exact (andThen_takes (number_takes 3) fun _ => done_takes _).mono (zero_le _)
  · exact (andThen_takes (number_takes 7) fun _ => done_takes _).mono (zero_le _)

theorem distancePart_takes (distances : List Nat) (length : Nat) :
    (distancePart distances length).Takes 0 := by
  refine (andThen_takes (read_takes distances) ?_).mono (zero_le (1 + 0))
  intro sym
  split
  · exact never_takes 0
  · exact (andThen_takes (number_takes _) fun _ => done_takes _).mono (zero_le _)

theorem token_takes (literals distances : List Nat) : (token literals distances).Takes 1 := by
  refine (andThen_takes (read_takes literals) ?_).mono (le_refl (1 + 0))
  intro sym
  unfold symbolRest
  split
  · exact done_takes _
  split
  · exact done_takes _
  split
  · exact never_takes 0
  · exact (andThen_takes (number_takes _) fun _ => distancePart_takes distances _).mono
      (zero_le _)

theorem codeLengths_takes (n : Nat) : ∀ listed, (codeLengths n listed).Takes 0 := by
  induction n with
  | zero => exact fun listed => done_takes listed
  | succ n ih => exact fun listed => (andThen_takes (number_takes 3) fun _ => ih _).mono (zero_le _)

theorem header_takes : header.Takes 1 := by
  refine (andThen_takes (number_takes 1) ?_).mono (le_refl (1 + 0))
  intro final
  refine (andThen_takes (number_takes 2) ?_).mono (zero_le (2 + 0))
  intro type
  split
  · refine (andThen_takes align_takes ?_).mono (zero_le (0 + 0))
    intro _
    refine (andThen_takes (number_takes 16) ?_).mono (zero_le (16 + 0))
    intro len
    refine (andThen_takes (number_takes 16) ?_).mono (zero_le (16 + 0))
    intro complement
    split
    · exact never_takes 0
    · exact done_takes _
  split
  · exact done_takes _
  split
  · refine (andThen_takes (number_takes 5) ?_).mono (zero_le (5 + 0))
    intro literals
    refine (andThen_takes (number_takes 5) ?_).mono (zero_le (5 + 0))
    intro distances
    refine (andThen_takes (number_takes 4) ?_).mono (zero_le (4 + 0))
    intro codes
    refine (andThen_takes (codeLengths_takes _ _) ?_).mono (zero_le (0 + 0))
    intro listed
    split
    · exact done_takes _
    · exact never_takes 0
  · exact never_takes 0

theorem Decoder.step_measure {decoder next : Decoder} (moves : decoder.step = .next next) :
    next.measure < decoder.measure := by
  obtain ⟨stage, out, bits⟩ := decoder
  -- A step that reads takes bits, which weigh more than any stage.
  have reading : ∀ {α : Type} {parser : Parser α} {after : α → Option (Stage × List UInt8)},
      parser.Takes 1 → continue' (parser bits) after = .next next →
        2 * next.bits.length + 2 ≤ 2 * bits.length := by
    intro α parser after takes moved
    unfold continue' at moved
    split at moved
    · cases moved
    · cases moved
    · rename_i value rest answer
      have taken := takes bits value rest answer
      split at moved
      · cases moved
      · cases moved
        show 2 * rest.length + 2 ≤ 2 * bits.length
        omega
  have light : next.measure ≤ 2 * next.bits.length + 1 := by
    unfold measure
    split <;> omega
  have heavy : 2 * bits.length ≤ measure ⟨stage, out, bits⟩ := le_add_right _ _
  cases stage with
  | block =>
    simp only [step] at moves
    have taken := reading header_takes moves
    omega
  | stored left final =>
    cases left with
    | zero =>
      cases moves
      unfold measure afterBlock
      cases final <;> simp
    | succ left =>
      simp only [step] at moves
      have taken := reading ((number_takes 8).mono (by decide)) moves
      omega
  | lengths literals distances code known final =>
    unfold step at moves
    simp only at moves
    split at moves
    · have taken := reading (andThen_takes (read_takes code) (lengthRun_takes known)) moves
      omega
    split at moves
    · cases moves
      unfold measure
      simp
    · cases moves
  | symbols literals distances final =>
    have taken := reading (token_takes literals distances) moves
    omega
  | finished => cases moves

theorem decodes_total (decoder : Decoder) : ∃ ending out, Decodes decoder ending out := by
  induction bound : decoder.measure using Nat.strongRecOn generalizing decoder with
  | _ n ih =>
    subst bound
    cases moves : decoder.step with
    | short => exact ⟨.short, _, decoder, .refl _, by simp [Decoder.ends, moves], rfl⟩
    | wrong => exact ⟨.wrong, _, decoder, .refl _, by simp [Decoder.ends, moves], rfl⟩
    | finished => exact ⟨.finished, _, decoder, .refl _, by simp [Decoder.ends, moves], rfl⟩
    | next after =>
      obtain ⟨ending, out, last, steps, ends, same⟩ := ih _ (step_measure moves) after rfl
      exact ⟨ending, out, last, .step moves steps, ends, same⟩

theorem Steps.toEnd {decoder middle last : Decoder} (steps : Steps decoder middle)
    (all : Steps decoder last) {ending : Ending} (ends : last.ends = some ending) :
    Steps middle last := by
  induction steps with
  | refl => exact all
  | step moves _ ih =>
    cases all with
    | refl => simp [Decoder.ends, moves] at ends
    | step same rest =>
      rw [moves] at same
      cases same
      exact ih rest

theorem decodes_unique {decoder : Decoder} {ending other : Ending} {out outToo : List UInt8}
    (decodes : Decodes decoder ending out) (decodesToo : Decodes decoder other outToo) :
    ending = other ∧ out = outToo := by
  obtain ⟨last, steps, ends, rfl⟩ := decodes
  obtain ⟨lastToo, stepsToo, endsToo, rfl⟩ := decodesToo
  have onward := steps.toEnd stepsToo endsToo
  cases onward with
  | refl =>
    rw [ends] at endsToo
    exact ⟨Option.some.inj endsToo, rfl⟩
  | step moves _ => simp [Decoder.ends, moves] at ends

open List hiding append_assoc

/-- What a decoder's step will do, as far as it has been read and whatever arrives behind. -/
def Decoder.Resumes (decoder : Decoder) (rest : BitString → Outcome) (bits : BitString) : Prop :=
  ∀ bytes, (decoder.more bytes).step = rest (bits ++ ofBytes bytes)

variable {decoder : Decoder} {bits : BitString}

theorem Decoder.Resumes.now {rest : BitString → Outcome} (resumes : decoder.Resumes rest bits) :
    decoder.step = rest bits := by
  have here := resumes []
  rwa [Decoder.more, ofBytes_nil, append_empty, append_empty] at here

theorem Decoder.Resumes.more {rest : BitString → Outcome} (resumes : decoder.Resumes rest bits)
    (bytes : List UInt8) : (decoder.more bytes).Resumes rest (bits ++ ofBytes bytes) := by
  intro later
  have all := resumes (bytes ++ later)
  rwa [Decoder.more, ofBytes_append, ← append_assoc, ← append_assoc] at all

section Reading

variable {α β : Type} {first : Parser α} {following : α → Parser β} {next : β → Option (Stage × List UInt8)}

theorem Decoder.Resumes.read
    (resumes : decoder.Resumes (fun bits => continue' (first.andThen following bits) next) bits)
    (stable : first.Stable) {value : α} {after : BitString} (answer : first bits = .read value after) :
    decoder.Resumes (fun bits => continue' (following value bits) next) after := by
  intro bytes
  have longer := (stable bits bytes).2 value after answer
  simp only [resumes bytes, andThen, longer]

theorem number_read {n : Nat} (enough : n ≤ bits.length) :
    number n bits = .read (bits.low n) (bits.drop n) := if_pos enough

theorem number_short {n : Nat} (few : bits.length < n) : number n bits = .short := if_neg (Nat.not_le.mpr few)

end Reading

/-- Steps that pass no block's head on their way when blocks stop them. -/
inductive Span (stop : Bool) : Decoder → Decoder → Prop
  | refl (decoder : Decoder) : Span stop decoder decoder
  | step {first second third : Decoder} (moves : first.step = .next second)
      (rest : Span stop second third)
      (halts : stop = true → second.stage = .block → third = second) : Span stop first third

variable {stop : Bool} {first second third : Decoder}

theorem Span.steps (span : Span stop first second) : Steps first second := by
  induction span with
  | refl decoder => exact .refl decoder
  | step moves _ _ ih => exact .step moves ih

theorem Span.one (moves : first.step = .next second) : Span stop first second :=
  .step moves (.refl second) fun _ _ => rfl

theorem Span.trans (span : Span stop first second) (more : Span stop second third)
    (passes : stop = true → second.stage = .block → second = first) : Span stop first third := by
  by_cases halted : stop = true ∧ second.stage = .block
  · rw [passes halted.1 halted.2] at more
    exact more
  · induction span with
    | refl => exact more
    | step moves _ halts ih =>
      have onward := ih more (fun stops atBlock => absurd ⟨stops, atBlock⟩ halted) halted
      refine .step moves onward ?_
      intro stops atBlock
      rw [halts stops atBlock] at halted
      exact absurd ⟨stops, atBlock⟩ halted

theorem Decoder.step_extends (moves : first.step = .next second) : first.out <+: second.out := by
  obtain ⟨stage, out, bits⟩ := first
  -- What reads an answer adds what the answer says.
  have reading : ∀ {α : Type} {reply : Reply α} {after : α → Option (Stage × List UInt8)},
      continue' reply after = .next second →
      (∀ value stage extended, after value = some (stage, extended) → out <+: extended) →
        out <+: second.out := by
    intro α reply after moved extending
    unfold continue' at moved
    split at moved
    · cases moved
    · cases moved
    · split at moved
      · cases moved
      · rename_i found
        cases moved
        exact extending _ _ _ found
  cases stage with
  | block =>
    simp only [step] at moves
    apply reading moves
    intro value stage extended found
    cases found
    exact prefix_refl out
  | stored left final =>
    cases left with
    | zero =>
      cases moves
      exact prefix_refl out
    | succ left =>
      simp only [step] at moves
      apply reading moves
      intro value stage extended found
      cases found
      exact prefix_append out _
  | lengths literals distances code known final =>
    unfold step at moves
    simp only at moves
    split at moves
    · apply reading moves
      intro run stage extended found
      split at found
      · cases found
      · cases found
        exact prefix_refl out
    split at moves
    · cases moves
      exact prefix_refl out
    · cases moves
  | symbols literals distances final =>
    apply reading moves
    intro token stage extended found
    cases token with
    | literal byte =>
      cases found
      exact prefix_append out _
    | blockEnd =>
      cases found
      exact prefix_refl out
    | copy length distance =>
      dsimp only at found
      split at found
      · cases found
      · cases found
        exact copyBack_extends distance length out
  | finished => cases moves

theorem Steps.extends (steps : Steps first second) : first.out <+: second.out := by
  induction steps with
  | refl decoder => exact prefix_refl _
  | step moves _ ih => exact (step_extends moves).trans ih

/-- No decoder of a stretch has more output than there is room for. -/
def Fits (stop : Bool) (limit : Nat) (decoder : Decoder) : Prop :=
  ∀ later, Span stop decoder later → later.out.length ≤ limit

theorem Fits.rest {limit : Nat} (fits : Fits stop limit first) (span : Span stop first second)
    (passes : stop = true → second.stage = .block → second = first) : Fits stop limit second :=
  fun _ more => fits _ (span.trans more passes)

theorem Decodes.fits {ending : Ending} {out : List UInt8} {limit : Nat}
    (decodes : Decodes first ending out) (room : out.length ≤ limit) : Fits stop limit first := by
  intro later span
  obtain ⟨last, steps, ends, rfl⟩ := decodes
  exact (span.steps.toEnd steps ends).extends.length_le.trans room

theorem distance_bounds {sym v : Nat} (isDist : sym < 30) (small : v < 2 ^ distanceExtra.getD sym 0) :
    0 < distanceBase.getD sym 0 + v ∧ distanceBase.getD sym 0 + v ≤ 32768 := by
  have table : ∀ sym < 30, 0 < distanceBase.getD sym 0 ∧
      distanceBase.getD sym 0 + 2 ^ distanceExtra.getD sym 0 ≤ 32769 := by decide
  obtain ⟨least, most⟩ := table sym isDist
  generalize distanceBase.getD sym 0 = base at *
  generalize 2 ^ distanceExtra.getD sym 0 = room at *
  exact ⟨by omega, by omega⟩

theorem length_bounds {sym : Nat} (isLength : sym < 29) : 0 < lengthBase.getD sym 0 := by
  have table : ∀ sym < 29, 0 < lengthBase.getD sym 0 := by decide
  exact table sym isLength

/-- A token that a window of 32768 bytes is enough for. -/
def Token.Near : Token → Prop
  | .copy _ distance => 0 < distance ∧ distance ≤ 32768
  | _ => True

theorem distanceRest_near {sym : Nat} (isDist : sym < 30) (length : Nat) :
    (distanceRest length sym).Gives Token.Near := by
  refine andThen_gives (number_gives _) ?_
  intro extra small
  exact done_gives (distance_bounds isDist small)

theorem distancePart_near (distances : List Nat) (length : Nat) :
    (distancePart distances length).Gives Token.Near := by
  refine andThen_gives (any_gives _) ?_
  intro sym _
  split
  · exact never_gives _
  · exact distanceRest_near (by omega) length

theorem token_near (literals distances : List Nat) : (token literals distances).Gives Token.Near := by
  refine andThen_gives (any_gives _) ?_
  intro sym _
  unfold symbolRest
  split
  · exact done_gives trivial
  split
  · exact done_gives trivial
  split
  · exact never_gives _
  · exact andThen_gives (any_gives _) fun _ _ => distancePart_near _ _

variable {first last : Decoder}

/-- A decoder with older output in front of its own. -/
def Decoder.behind (front : List UInt8) (decoder : Decoder) : Decoder :=
  { decoder with out := front ++ decoder.out }

/-- What a decoder does next with older output in front of its own. -/
def Outcome.behind (front : List UInt8) : Outcome → Outcome
  | .next decoder => .next (decoder.behind front)
  | other => other

/-- There is no older output, or the window is full without it. -/
def Covers (front : List UInt8) (decoder : Decoder) : Prop := front = [] ∨ 32768 ≤ decoder.out.length

variable {front : List UInt8}

theorem continue_behind {α : Type} {parser : Parser α} {P : α → Prop} (gives : parser.Gives P)
    (bits : BitString) {next behind : α → Option (Stage × List UInt8)} (same : ∀ value, P value →
      behind value = (next value).map fun added => (added.1, front ++ added.2)) :
    continue' (parser bits) behind = (continue' (parser bits) next).behind front := by
  cases answer : parser bits with
  | short => rfl
  | wrong => rfl
  | read value rest =>
    simp only [continue', same value (gives bits value rest answer)]
    cases next value <;> rfl

theorem Decoder.step_behind (covers : Covers front first) :
    (first.behind front).step = first.step.behind front := by
  obtain ⟨stage, out, bits⟩ := first
  unfold behind step
  cases stage with
  | block => exact continue_behind (any_gives _) bits fun _ _ => rfl
  | stored left final =>
    cases left with
    | zero => rfl
    | succ left =>
      apply continue_behind (any_gives _) bits
      intro byte _
      simp only [Option.map_some, List.append_assoc]
  | lengths literals distances code known final =>
    dsimp only
    split
    · apply continue_behind (any_gives _) bits
      intro run _
      split <;> rfl
    · split <;> rfl
  | symbols literals distances final =>
    apply continue_behind (token_near literals distances) bits
    intro token near
    cases token with
    | literal byte => simp only [Option.map_some, List.append_assoc]
    | blockEnd => rfl
    | copy length distance =>
      obtain ⟨back, reach⟩ := near
      dsimp only
      rcases covers with rfl | full
      · simp only [nil_append]
        split <;> rfl
      · -- Every distance stays within the window, which is full.
        have inside : distance ≤ out.length := reach.trans full
        have insideToo : distance ≤ (front ++ out).length := by
          rw [length_append]
          omega
        rw [if_neg (by omega), if_neg (by omega), copyBack_append back inside, Option.map_some]
  | finished => rfl

theorem Covers.step (covers : Covers front first) (moves : first.step = .next last) : Covers front last := by
  rcases covers with none | full
  · exact .inl none
  · exact .inr (full.trans (step_extends moves).length_le)

theorem Steps.behind (steps : Steps first last) (covers : Covers front first) :
    Steps (first.behind front) (last.behind front) ∧ Covers front last := by
  induction steps with
  | refl decoder => exact ⟨.refl _, covers⟩
  | step moves _ ih =>
    obtain ⟨rest, kept⟩ := ih (covers.step moves)
    have moved := step_behind covers
    rw [moves] at moved
    exact ⟨.step moved rest, kept⟩

theorem Decodes.behind {ending : Ending} {out : List UInt8} (decodes : Decodes first ending out)
    (covers : Covers front first) :
    Decodes (first.behind front) ending (front ++ out) := by
  obtain ⟨last, steps, ends, rfl⟩ := decodes
  obtain ⟨moved, kept⟩ := steps.behind covers
  refine ⟨last.behind front, moved, ?_, rfl⟩
  unfold Decoder.ends at ends ⊢
  rw [step_behind kept]
  cases answer : last.step <;> rw [answer] at ends <;> exact ends

end Deflate
