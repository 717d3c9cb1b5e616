import Libretro.Encodings.InflateBody

/-! Indexed access: a fresh decoder at a reported block's head, and the one that reported it. -/

namespace Libretro.Inflate

open BitString BitString.Parser Deflate Nat
open List hiding append_assoc drop_append drop_drop drop_length drop_zero length

/-- What a caller does about the output buffer before a call. -/
inductive Binding where
  | keep
  | setOut (size : Nat)
  | extendOut (size : Nat)
deriving DecidableEq

/-- The decoder as the next call finds it. -/
def Binding.apply : Binding → State → State
  | .keep, s => s
  | .setOut size, s => rinflateSetOut s size
  | .extendOut size, s => rinflateExtendOut s size

/-- The bytes that a call has written last. -/
def State.written (s : State) (wrote : Nat) : List UInt8 := (s.out.take s.outPos).drop (s.outPos - wrote)

/-- Calls that all came back at a block's head, and what they have written together. -/
inductive Reaches (plan : Nat → Binding) (first : State) : Nat → State → List UInt8 → Prop
  | start : Reaches plan first 0 first []
  | block {calls : Nat} {s : State} {made : List UInt8} (before : Reaches plan first calls s made)
      {passes : Nat} {after : State} {read wrote : Nat}
      (ran : rinflateProcess passes ((plan calls).apply s) = some (.block, after, read, wrote)) :
      Reaches plan first (calls + 1) after (made ++ after.written wrote)

/-- A call that comes back otherwise ends the run; its status, and what all calls have written. -/
def Finishes (plan : Nat → Binding) (first : State) (status : Status) (made : List UInt8) : Prop :=
  ∃ calls s before passes after read wrote, Reaches plan first calls s before ∧
    rinflateProcess passes ((plan calls).apply s) = some (status, after, read, wrote) ∧
    status ≠ .block ∧ made = before ++ after.written wrote

/-- A call at a block's head comes back at once. -/
def State.Reports (s : State) : Prop := (s.stopAtBlock ∧ ¬s.firstBlockReported) ∨ s.blockReady = true

/-- The format's decoder at the block's head where a decoder stands behind some output. -/
def State.head (s : State) (history : List UInt8) : Decoder :=
  { stage := .block, out := history, bits := s.bits.stream.drop s.skipBits }

/-- The buffer is large enough for all that the format decodes up to where a call comes back. -/
def State.Ample (s : State) (history : List UInt8) : Prop :=
  s.Reports ∨ Fits s.stopAtBlock (history.length + s.outSize - s.outPos) (s.head history)

/-- Every call of a run has a large enough buffer. -/
def Ample (plan : Nat → Binding) (first : State) (dict : List UInt8) : Prop :=
  ∀ calls s made, Reaches plan first calls s made → ((plan calls).apply s).Ample (dict ++ made)

/-- A raw decoder at a block's head, with what was decoded so far. -/
structure Standing (origin : Bits) (history : List UInt8) (s : State) : Prop where
  core : ∃ prior, Core origin prior s.outPos s history
  phase : s.phase = .blockHdr
  idle : s.ldStep = 0
  raw : s.wrap = .raw
  skips : s.skipBits ≤ s.bits.stream.length

variable {origin start : Bits} {prior history : List UInt8} {committed : Nat} {s : State} {d : Decoder}

theorem Core.since {out : List UInt8} (core : Core start prior committed s out) {k : Nat}
    (earlier : origin.After start k) : Core origin prior committed s out := by
  obtain ⟨n, input⟩ := core.input
  exact { core with input := ⟨k + n, earlier.trans input⟩ }

theorem Core.here {out : List UInt8} (core : Core origin prior committed s out) :
    Core s.bits prior committed s out := by
  obtain ⟨n, input⟩ := core.input
  exact { core with input := ⟨0, .refl input.valid⟩ }

theorem Standing.bind (standing : Standing origin history s) (binding : Binding) :
    Standing origin history (binding.apply s) := by
  obtain ⟨prior, core⟩ := standing.core
  cases binding with
  | keep => exact standing
  | setOut size =>
    -- All that was produced lies in front of the new buffer.
    have produced : (rinflateSetOut s size).produced (s.produced prior) = history := by
      rw [← core.output]
      exact append_nil _
    exact ⟨⟨s.produced prior, core.input, core.history.setOut size, produced, core.noLit, core.stops,
      core.fixed⟩, standing.phase, standing.idle, standing.raw, standing.skips⟩
  | extendOut size =>
    -- The buffer is the same, and what was produced is where it was.
    obtain ⟨extended, produced⟩ := core.history.extendOut size
    have same : ∃ out outSize, rinflateExtendOut s size = { s with out := out, outSize := outSize } := by
      unfold rinflateExtendOut
      split
      · exact ⟨_, _, rfl⟩
      · exact ⟨s.out, s.outSize, rfl⟩
    obtain ⟨out, outSize, shape⟩ := same
    show Standing origin history (rinflateExtendOut s size)
    rw [shape] at extended produced ⊢
    exact ⟨⟨prior, core.input, extended, produced.trans core.output, core.noLit, core.stops,
      core.fixed⟩, standing.phase, standing.idle, standing.raw, standing.skips⟩

/-- How many times a decoder reports a block before it goes on. -/
def State.reports (s : State) : Nat :=
  (if s.stopAtBlock ∧ ¬s.firstBlockReported then 1 else 0) + if s.blockReady then 1 else 0

/-- How far a decoder is from its end: what is left to read, and what is left to report. -/
def State.left (s : State) : Nat := 3 * s.bits.stream.length + s.reports

theorem reports_le (s : State) : s.reports ≤ 2 := by
  unfold State.reports
  split <;> split <;> omega

/-- A call whose bits to skip have been read. -/
def State.skipped (s : State) (bits : Bits) : Call :=
  { rinflateEnter s with s := { s with bits := bits, skipBits := 0 }, pc := .dispatch }

theorem enter_skips (valid : s.bits.Valid) (there : s.skipBits ≤ s.bits.stream.length) :
    ∃ bits, s.bits.After bits s.skipBits ∧ (rinflateEnter s).step = .on (s.skipped bits) := by
  by_cases none : s.skipBits = 0
  · -- Nothing is skipped.
    have same : { s with skipBits := 0 } = s := by rw [← none]
    have moved : (rinflateEnter s).step = .on { rinflateEnter s with pc := .dispatch } :=
      if_neg (not_not.mpr none)
    refine ⟨s.bits, none ▸ .refl valid, moved.trans ?_⟩
    exact congrArg (fun t => Turn.on { rinflateEnter s with s := t, pc := .dispatch }) same.symm
  · have moved : (rinflateEnter s).step = needing s.skipBits (rinflateEnter s) fun c =>
        getting c.s.skipBits c fun _ c =>
          .on { c with s := { c.s with skipBits := 0 }, pc := .dispatch } := if_pos none
    rw [moved]
    refine needing_cases (P := fun turn => ∃ bits, s.bits.After bits s.skipBits ∧
      turn = .on (s.skipped bits)) (c := rinflateEnter s) (Bits.After.refl valid) ?_ ?_
    · intro bits after enough
      refine getting_cases (P := fun turn => ∃ bits, s.bits.After bits s.skipBits ∧
        turn = .on (s.skipped bits)) (c := (rinflateEnter s).setBits bits) after enough ?_
      intro rest taken _ _
      rw [zero_add] at taken
      exact ⟨rest, taken, rfl⟩
    · -- The bits are there, so the look for them does not fail.
      intro bits after _ few
      have length := after.length
      have start : (rinflateEnter s).s.bits.stream.length = s.bits.stream.length := rfl
      omega

/-- A turn leaves fewer bits than there were, or out of the call for no block's sake. -/
def Turn.Reads (length : Nat) : Turn → Prop
  | .on next => next.pc = .dispatch ∧ next.s.bits.stream.length < length
  | .back status _ _ _ => status ≠ .block

theorem suspend_reads (c : Call) (length : Nat) : (suspend c).Reads length := by
  obtain ⟨_, _, _, _, _, _, _, _, back, -⟩ := finish_eq c .next
  rw [suspend, back]
  nofun

theorem fail_reads (c : Call) (length : Nat) : (fail c).Reads length := by
  obtain ⟨_, back⟩ := fail_eq c
  rw [back]
  nofun

theorem blockHdr_reads {c : Call} (at' : c.pc = .dispatch) (valid : c.s.bits.Valid) (onward : ¬c.s.Reports) :
    (blockHdr c).Reads c.s.bits.stream.length := by
  obtain ⟨unreported, ready⟩ := not_or.mp onward
  unfold blockHdr
  rw [if_neg unreported, if_neg ready]
  refine needing_cases (P := Turn.Reads c.s.bits.stream.length) (Bits.After.refl valid) ?_
    fun _ _ _ _ => suspend_reads _ _
  intro bits₁ after₁ enough₁
  refine getting_cases (P := Turn.Reads c.s.bits.stream.length) (c := c.setBits bits₁) (n := 1)
    after₁ (by show 1 ≤ bits₁.bitcnt; omega) ?_
  intro bits₂ after₂ left₂ _
  replace left₂ : bits₂.bitcnt = bits₁.bitcnt - 1 := left₂
  refine getting_cases (P := Turn.Reads c.s.bits.stream.length)
    (c := (c.setBits bits₁).setBits bits₂) (n := 2) after₂ (by show 2 ≤ bits₂.bitcnt; omega) ?_
  intro bits₃ after₃ _ _
  have length := after₃.length
  have kept : bits₃.align.stream.length ≤ bits₃.stream.length := by
    rw [(align_stream after₃.valid).2, drop_length]
    omega
  -- Behind the header, each kind of block has its own place; there is no fourth kind.
  dsimp only
  split
  · refine ⟨rfl, ?_⟩
    show bits₃.align.stream.length < _
    omega
  split
  · refine ⟨at', ?_⟩
    show (rinfFixedTables _).bits.stream.length < _
    rw [rinfFixedTables]
    split <;> show bits₃.stream.length < _ <;> omega
  split
  · refine ⟨at', ?_⟩
    show bits₃.stream.length < _
    omega
  · exact fail_reads _ _

/-- What a call from a block's head comes to: another block's head, or the end of decoding. -/
inductive Lands (origin : Bits) (history : List UInt8) (s : State) : Status → State → List UInt8 → Prop
  | block {after : State} {made : List UInt8}
      (steps : Steps (s.head history) (after.head (history ++ made)))
      (standing : Standing origin (history ++ made) after) (less : after.left < s.left)
      (skipped : after.skipBits = 0) : Lands origin history s .block after made
  | last {status : Status} {ending : Ending} {after : State} {made : List UInt8}
      (same : status = statusOf ending)
      (decodes : Decodes (s.head history) ending (history ++ made)) :
      Lands origin history s status after made

theorem produced_written {f : Decoder} {after : State} (core : Core origin prior s.outPos s history)
    (extends' : history <+: f.out) (inside : after.outPos ≤ after.out.length)
    (output : after.produced prior = f.out) :
    f.out = history ++ after.written (after.outPos - s.outPos) := by
  have long : history.length = prior.length + s.outPos := core.length
  have more := extends'.length_le
  have width : (after.out.take after.outPos).length = after.outPos := by rw [length_take, min_eq_left inside]
  have total : f.out.length = prior.length + after.outPos := by
    rw [← output, State.produced, length_append, width]
  -- The call's own bytes lie behind the position that it started from.
  have place : after.outPos - (after.outPos - s.outPos) = s.outPos := by omega
  have tail : f.out.drop history.length = (after.out.take after.outPos).drop s.outPos := by
    rw [← output, State.produced, long, List.drop_append]
    simp
  rw [State.written, place, ← tail]
  exact (prefix_iff_eq_append.mp extends').symm

theorem Lands.stays {after : State} (same : after.outPos = s.outPos)
    (bits : after.bits.stream = s.bits.stream.drop s.skipBits)
    (standing : Standing origin history after) (skipped : after.skipBits = 0)
    (less : after.left < s.left) :
    Lands origin history s .block after (after.written (after.outPos - s.outPos)) := by
  have nothing : after.written (after.outPos - s.outPos) = [] := by
    rw [same, State.written, Nat.sub_self, Nat.sub_zero]
    exact drop_eq_nil_of_le (length_take_le _ _)
  have head : s.head history = after.head history := by rw [State.head, State.head, skipped, drop_zero, bits]
  rw [nothing]
  refine .block ?_ ?_ less skipped
  · rw [append_nil, head]
    exact .refl _
  · rw [append_nil]
    exact standing

theorem report_lands (standing : Standing origin history s) {bits : Bits}
    (read : s.bits.After bits s.skipBits) {first ready : Bool}
    (stops : ready = true → s.stopAtBlock = true)
    (less : { s with firstBlockReported := first, blockReady := ready }.reports < s.reports) :
    ∃ after, finish { s.skipped bits with s := { (s.skipped bits).s with
          firstBlockReported := first, blockReady := ready } } .block =
        .back .block after (after.bits.inPos - s.bits.inPos) (after.outPos - s.outPos) ∧
      Lands origin history s .block after (after.written (after.outPos - s.outPos)) := by
  obtain ⟨prior, core⟩ := standing.core
  obtain ⟨k, input⟩ := core.input
  have length := read.length
  have moved : Core origin prior s.outPos { (s.skipped bits).s with
      firstBlockReported := first, blockReady := ready } history :=
    ⟨⟨_, input.trans read⟩, core.history, core.output, core.noLit, stops, core.fixed⟩
  obtain ⟨window, whave, wnext, wprior, wcur, adler, crc, totalOut, back, commits⟩ :=
    finish_eq { s.skipped bits with s := { (s.skipped bits).s with
      firstBlockReported := first, blockReady := ready } } .block
  refine ⟨_, back, Lands.stays rfl read.stream
    ⟨⟨prior, moved.rests (commits prior s.outPos moved.history)⟩, standing.phase, standing.idle, standing.raw, zero_le _⟩ rfl ?_⟩
  show 3 * bits.stream.length + { s with firstBlockReported := first, blockReady := ready }.reports < s.left
  rw [State.left]
  omega

theorem reporting_call (standing : Standing origin history s) {bits : Bits}
    (read : s.bits.After bits s.skipBits) (reports : s.Reports) :
    ∃ after, (s.skipped bits).step = .back .block after (after.bits.inPos - s.bits.inPos)
        (after.outPos - s.outPos) ∧
      Lands origin history s .block after (after.written (after.outPos - s.outPos)) := by
  obtain ⟨prior, core⟩ := standing.core
  have step : (s.skipped bits).step = blockHdr (s.skipped bits) := by
    show dispatch (s.skipped bits) = _
    rw [dispatch, show (s.skipped bits).s.phase = .blockHdr from standing.phase]
  rw [step]
  by_cases unreported : s.stopAtBlock ∧ ¬s.firstBlockReported
  · -- The first block of the stream.
    have halted : blockHdr (s.skipped bits) = finish { s.skipped bits with
        s := { (s.skipped bits).s with firstBlockReported := true } } .block := if_pos unreported
    rw [halted]
    refine @report_lands _ _ _ standing _ read true s.blockReady core.stops ?_
    simp [State.reports, unreported]
  · -- The block behind one that has ended.
    have ready := reports.resolve_left unreported
    have halted : blockHdr (s.skipped bits) = finish { s.skipped bits with
        s := { (s.skipped bits).s with blockReady := false } } .block :=
      (if_neg unreported).trans (if_pos ready)
    rw [halted]
    refine @report_lands _ _ _ standing _ read s.firstBlockReported false (by rintro ⟨⟩) ?_
    simp [State.reports, ready]

theorem Returned.lands {status : Status} {after : State}
    (core : Core origin prior s.outPos s history) (steps : Steps (s.head history) d) {k : Nat}
    (earlier : origin.After start k)
    (returned : Returned start prior s.stopAtBlock d status after) (raw : after.wrap = .raw)
    (skipped : after.skipBits = 0)
    (fewer : status = .block → start.stream.length < s.bits.stream.length) :
    Lands origin history s status after (after.written (after.outPos - s.outPos)) := by
  -- Whatever follows keeps the history and adds what was written.
  have adds : ∀ f : Decoder, Steps d f → after.outPos ≤ after.out.length →
      after.produced prior = f.out → Steps (s.head history) f ∧
        f.out = history ++ after.written (after.outPos - s.outPos) := by
    intro f more inside output
    have all := steps.trans more
    exact ⟨all, produced_written core all.extends inside output⟩
  cases returned with
  | @next _ f span body short _ =>
    obtain ⟨all, out⟩ := adds f span.steps body.core.history.inside body.core.output
    exact .last (show _ = statusOf .short from rfl) ⟨f, all, by simp only [Decoder.ends, short], out⟩
  | @done _ f span inside output stage =>
    obtain ⟨all, out⟩ := adds f span.steps inside output
    refine .last (show _ = statusOf .finished from rfl) ⟨f, all, ?_, out⟩
    unfold Decoder.ends Decoder.step
    rw [stage]
  | @error _ f span inside output wrong =>
    obtain ⟨all, out⟩ := adds f span.steps inside output
    exact .last (show _ = statusOf .wrong from rfl) ⟨f, all, by simp only [Decoder.ends, wrong], out⟩
  | @block _ f span body stage bits phase stops =>
    obtain ⟨all, out⟩ := adds f span.steps body.core.history.inside body.core.output
    have atHead : f = after.head (history ++ after.written (after.outPos - s.outPos)) := by
      rw [State.head, skipped, drop_zero, ← out, ← bits, ← stage]
    obtain ⟨n, input⟩ := body.core.input
    have length := input.length
    have less := fewer rfl
    have most := reports_le after
    obtain ⟨idle, -, -⟩ := body.place.atHead phase
    refine .block (atHead ▸ all) ⟨⟨prior, ?_⟩, phase, idle, raw, ?_⟩ ?_ skipped
    · rw [← out]
      exact body.core.since earlier
    · rw [skipped]
      exact zero_le _
    · unfold State.left
      omega

theorem reading_call (standing : Standing origin history s) {bits : Bits}
    (read : s.bits.After bits s.skipBits) (onward : ¬s.Reports)
    (room : Fits s.stopAtBlock (history.length + s.outSize - s.outPos) (s.head history)) :
    ∃ last status after, Passes (s.skipped bits) last ∧
      last.step = .back status after (after.bits.inPos - s.bits.inPos) (after.outPos - s.outPos) ∧
      Lands origin history s status after (after.written (after.outPos - s.outPos)) := by
  obtain ⟨prior, core⟩ := standing.core
  obtain ⟨k, input⟩ := core.input
  have length := read.length
  have long : history.length = prior.length + s.outPos := core.length
  have limit : history.length + s.outSize - s.outPos = prior.length + s.outSize := by omega
  rw [limit] at room
  have start : Core bits prior s.outPos (s.skipped bits).s (s.head history).out :=
    ⟨⟨0, .refl read.valid⟩, core.history, core.output, core.noLit, core.stops, core.fixed⟩
  have phase : (s.skipped bits).s.phase = .blockHdr := standing.phase
  have step : (s.skipped bits).step = blockHdr (s.skipped bits) := by
    show dispatch (s.skipped bits) = _
    rw [dispatch, phase]
  obtain ⟨frame, isFrame⟩ : ∃ frame, (s.skipped bits).frame = frame := ⟨_, rfl⟩
  have isRaw : frame.wrap = .raw := (congrArg Frame.wrap isFrame).symm.trans standing.raw
  have noSkip : frame.skipBits = 0 := (congrArg Frame.skipBits isFrame).symm
  have sameStop : frame.stopAtBlock = s.stopAtBlock := (congrArg Frame.stopAtBlock isFrame).symm
  have inStart : frame.inStart = s.bits.inPos := (congrArg Frame.inStart isFrame).symm
  have outStart : frame.outStart = s.outPos := (congrArg Frame.outStart isFrame).symm
  have follows := blockHdr_follows start phase standing.idle rfl rfl read.stream.symm (.inr room)
    isFrame (lt_succ_self (32 * (s.skipped bits).s.bits.stream.length))
  have reads := blockHdr_reads (c := s.skipped bits) rfl read.valid onward
  cases turn : blockHdr (s.skipped bits) with
  | back status after wasRead wrote =>
    -- The call comes back from its first pass, with no block.
    rw [turn] at follows reads
    have left := follows.out fun _ moved => Turn.noConfusion moved
    obtain ⟨other, last, back, returned, wrap, skip, -, -⟩ := left.returned
    rw [inStart, outStart] at back
    rw [sameStop] at returned
    have same := step.trans (turn.trans back)
    cases back
    exact ⟨_, _, _, .refl, same, returned.lands core (.refl _) (input.trans read)
      (wrap.trans isRaw) (skip.trans noSkip) fun atBlock => absurd atBlock reads⟩
  | on next =>
    rw [turn] at follows reads
    obtain ⟨at', fewer⟩ := reads
    cases follows with
    | @on _ e span away related kept less =>
      -- From behind the header on, the call reads what is left of the bits there.
      have view := view_slow (c := next) (by rw [at']; trivial)
      have body := related.body
      rw [view] at body
      obtain ⟨n, rest⟩ := body.core.input
      have here : Related next.s.bits prior s.outPos next e :=
        ⟨by rw [view]; exact ⟨body.core.here, body.place⟩, related.fits, related.room⟩
      obtain ⟨last, status, after, passes, back, returned, settings⟩ := body_returns here
        ((congrArg Frame.wrap kept).trans isRaw) ((congrArg Frame.skipBits kept).trans noSkip)
      have nextStop : next.s.stopAtBlock = s.stopAtBlock := (congrArg Frame.stopAtBlock kept).trans sameStop
      have nextIn : next.inStart = s.bits.inPos := (congrArg Frame.inStart kept).trans inStart
      have nextOut : next.outStart = s.outPos := (congrArg Frame.outStart kept).trans outStart
      rw [nextIn, nextOut] at back
      rw [nextStop] at returned
      have first : Passes (s.skipped bits) next := .single (step.trans turn)
      exact ⟨last, status, after, first.trans passes, back, returned.lands core span.steps
        ((input.trans read).trans rest)
        (settings.wrap.trans ((congrArg Frame.wrap kept).trans isRaw))
        (settings.skipBits.trans ((congrArg Frame.skipBits kept).trans noSkip)) fun _ => by
          replace fewer : next.s.bits.stream.length < bits.stream.length := fewer
          omega⟩

theorem standing_call (standing : Standing origin history s) (ample : s.Ample history) :
    ∃ passes status after read wrote, rinflateProcess passes s = some (status, after, read, wrote) ∧
      Lands origin history s status after (after.written wrote) := by
  obtain ⟨prior, core⟩ := standing.core
  obtain ⟨k, input⟩ := core.input
  obtain ⟨bits, read, step⟩ := enter_skips input.valid standing.skips
  have first : Passes (rinflateEnter s) (s.skipped bits) := .single step
  by_cases reports : s.Reports
  · obtain ⟨after, back, lands⟩ := reporting_call standing read reports
    obtain ⟨passes, ran⟩ := first.returns back
    exact ⟨passes, _, after, _, _, ran, lands⟩
  · obtain ⟨last, status, after, more, back, lands⟩ :=
      reading_call standing read reports (ample.resolve_left reports)
    obtain ⟨passes, ran⟩ := Passes.returns (first.trans more) back
    exact ⟨passes, status, after, _, _, ran, lands⟩

theorem standing_lands (standing : Standing origin history s) (ample : s.Ample history)
    {passes : Nat} {status : Status} {after : State} {read wrote : Nat}
    (ran : rinflateProcess passes s = some (status, after, read, wrote)) :
    Lands origin history s status after (after.written wrote) := by
  obtain ⟨others, _, _, _, _, ranToo, lands⟩ := standing_call standing ample
  cases run_unique _ _ _ ran ranToo
  exact lands

variable {plan : Nat → Binding} {first : State} {dict made : List UInt8} {calls : Nat}

theorem apply_kept (binding : Binding) (s : State) :
    (binding.apply s).bits = s.bits ∧ (binding.apply s).skipBits = s.skipBits ∧
      (binding.apply s).reports = s.reports := by
  cases binding with
  | keep => exact ⟨rfl, rfl, rfl⟩
  | setOut size => exact ⟨rfl, rfl, rfl⟩
  | extendOut size =>
    show (rinflateExtendOut s size).bits = s.bits ∧ (rinflateExtendOut s size).skipBits = s.skipBits ∧
      (rinflateExtendOut s size).reports = s.reports
    unfold rinflateExtendOut
    split <;> exact ⟨rfl, rfl, rfl⟩

theorem apply_head (binding : Binding) (s : State) (history : List UInt8) :
    (binding.apply s).head history = s.head history := by
  obtain ⟨bits, skip, -⟩ := apply_kept binding s
  rw [State.head, State.head, bits, skip]

theorem statusOf_ne (ending : Ending) : statusOf ending ≠ .block := by
  cases ending <;> nofun

variable (standing : Standing origin dict first)
include standing

theorem Reaches.leads
    (ample : ∀ {calls : Nat} {s : State} {made : List UInt8}, Reaches plan first calls s made →
      Steps (first.head dict) (s.head (dict ++ made)) → ((plan calls).apply s).Ample (dict ++ made))
    (reaches : Reaches plan first calls s made) :
    Standing origin (dict ++ made) s ∧ Steps (first.head dict) (s.head (dict ++ made)) ∧
      (0 < calls → s.skipBits = 0) := by
  induction reaches with
  | start =>
    rw [append_nil]
    exact ⟨standing, .refl _, nofun⟩
  | @block calls s made before passes after read wrote ran ih =>
    obtain ⟨stood, steps, -⟩ := ih
    have lands := standing_lands (stood.bind (plan calls)) (ample before steps) ran
    generalize after.written wrote = bytes at lands
    rw [← List.append_assoc]
    cases lands with
    | last same _ => exact absurd same.symm (statusOf_ne _)
    | block more standing' less skipped =>
      rw [apply_head] at more
      exact ⟨standing', steps.trans more, fun _ => skipped⟩

theorem Reaches.follows (ample : Ample plan first dict) (reaches : Reaches plan first calls s made) :
    Standing origin (dict ++ made) s ∧ Steps (first.head dict) (s.head (dict ++ made)) ∧
      (0 < calls → s.skipBits = 0) :=
  reaches.leads standing fun reaches _ => ample _ _ _ reaches

theorem ample_setOut {ending : Ending} {out : List UInt8}
    (decodes : Decodes (first.head dict) ending out) {size : Nat} (room : out.length ≤ size) :
    Ample (fun _ => .setOut size) first dict := by
  have enough : ∀ {s : State} {made : List UInt8}, Steps (first.head dict) (s.head (dict ++ made)) →
        (Binding.apply (.setOut size) s).Ample (dict ++ made) := by
    intro s made steps
    obtain ⟨last, all, ends, rfl⟩ := decodes
    have rest : Decodes (s.head (dict ++ made)) ending last.out := ⟨last, steps.toEnd all ends, ends, rfl⟩
    exact .inr (rest.fits (by show _ ≤ (dict ++ made).length + size - 0; omega))
  intro calls s made reaches
  exact enough (reaches.leads standing fun _ steps => enough steps).2.1

theorem Finishes.decodes (ample : Ample plan first dict)
    {status : Status} (finishes : Finishes plan first status made) :
    ∃ ending, status = statusOf ending ∧ Decodes (first.head dict) ending (dict ++ made) := by
  obtain ⟨calls, s, before, passes, after, read, wrote, reaches, ran, other, rfl⟩ := finishes
  obtain ⟨stood, steps, -⟩ := reaches.follows standing ample
  have lands := standing_lands (stood.bind (plan calls)) (ample calls s before reaches) ran
  generalize after.written wrote = bytes at lands
  rw [← List.append_assoc]
  cases lands with
  | block => exact absurd rfl other
  | last told decodes =>
    rw [apply_head] at decodes
    obtain ⟨last, more, ends, same⟩ := decodes
    exact ⟨_, told, last, steps.trans more, ends, same⟩

theorem Reaches.finishes (ample : Ample plan first dict)
    (n : Nat) : ∀ {calls : Nat} {s : State} {made : List UInt8}, s.left ≤ n →
      Reaches plan first calls s made → ∃ status made, Finishes plan first status made := by
  induction n using Nat.strongRecOn with
  | _ n ih =>
    intro calls s made light reaches
    obtain ⟨stood, -, -⟩ := reaches.follows standing ample
    obtain ⟨passes, status, after, read, wrote, ran, lands⟩ :=
      standing_call (stood.bind (plan calls)) (ample calls s made reaches)
    by_cases atBlock : status = .block
    · -- Every block that is reported leaves less to read or to report.
      subst atBlock
      have onward := reaches.block ran
      generalize after.written wrote = bytes at lands onward
      cases lands with
      | last same _ => exact absurd same.symm (statusOf_ne _)
      | block more standing' less skipped =>
        obtain ⟨bits, -, reports⟩ := apply_kept (plan calls) s
        rw [State.left, State.left, bits, reports] at less
        rw [State.left] at light
        exact ih after.left (by rw [State.left]; omega) (le_refl _) onward
    · exact ⟨status, _, calls, s, made, passes, after, read, wrote, reaches, ran, atBlock, rfl⟩

theorem finishes_iff (ample : Ample plan first dict)
    {ending : Ending} {out : List UInt8} (decodes : Decodes (first.head dict) ending (dict ++ out))
    (status : Status) (made : List UInt8) :
    Finishes plan first status made ↔ status = statusOf ending ∧ made = out := by
  have only : ∀ status made, Finishes plan first status made → status = statusOf ending ∧ made = out := by
    intro status made finishes
    obtain ⟨other, rfl, decodesToo⟩ := finishes.decodes standing ample
    obtain ⟨rfl, same⟩ := decodes_unique decodesToo decodes
    exact ⟨rfl, append_cancel_left same⟩
  refine ⟨only status made, ?_⟩
  rintro ⟨rfl, rfl⟩
  obtain ⟨status, made, finishes⟩ := Reaches.finishes standing ample _ (le_refl _) .start
  obtain ⟨rfl, rfl⟩ := only status made finishes
  exact finishes

omit standing

/-- A fresh decoder with a dictionary, from some bit of some input on. -/
def freshAt (windowBits : Int) (dict input : List UInt8) (bit : Nat) (stop : Bool) : State :=
  rinflateSetStopAtBlock (rinflateSetIn
      (rinflateSetStartBit (rinflateSetDictionary (rinflateNew windowBits) dict) (bit % 8))
      (input.drop (bit / 8)))
    stop

theorem history_set {bit : Nat} {bytes : List UInt8} {stop : Bool} (history : History s prior committed) :
    History (rinflateSetStopAtBlock (rinflateSetIn (rinflateSetStartBit s bit) bytes) stop) prior
      committed := history

theorem freshAt_standing {windowBits : Int} (raw : windowBits < 0) {dict : List UInt8}
    (short : dict.length ≤ 32768) (input : List UInt8) {bit : Nat} (inside : bit ≤ 8 * input.length)
    (stop : Bool) :
    Standing ⟨0, 0, 0, input.drop (bit / 8)⟩ dict (freshAt windowBits dict input bit stop) ∧
      (freshAt windowBits dict input bit stop).head dict =
        { stage := .block, out := dict, bits := (ofBytes input).drop bit } := by
  have valid : Bits.Valid ⟨0, 0, 0, input.drop (bit / 8)⟩ := zero_lt_one
  have wrap : rinfWrapFromBits windowBits = .raw := if_pos raw
  have history := @rinflateSetDictionary_history (rinflateNew windowBits) rfl dict
  have whole : dict.drop (dict.length - 32768) = dict := by rw [Nat.sub_eq_zero_of_le short, List.drop_zero]
  rw [whole] at history
  have skip : (freshAt windowBits dict input bit stop).skipBits = bit % 8 := by
    show bit % 8 &&& 7 = bit % 8
    rw [and_two_pow_sub_one_eq_mod _ 3]
    omega
  have stream : (freshAt windowBits dict input bit stop).bits.stream =
      ofBytes (input.drop (bit / 8)) := unbuffered_stream 0 _
  refine ⟨⟨⟨dict, ⟨0, .refl valid⟩, history_set history, append_nil _, rfl, nofun, nofun⟩, ?_,
    rfl, wrap, ?_⟩, ?_⟩
  · show rinfStartPhase (rinfWrapFromBits windowBits) = .blockHdr
    rw [wrap]
    rfl
  · -- There is a byte for the bits to skip whenever there are any.
    rw [skip, stream, ofBytes_length, length_drop]
    omega
  · rw [State.head, skip, stream, ← ofBytes_drop (by omega), drop_drop, div_add_mod]

theorem rinflateNew_standing {windowBits : Int} (raw : windowBits < 0) (input : List UInt8) :
    Standing ⟨0, 0, 0, input⟩ []
      (rinflateSetStopAtBlock (rinflateSetIn (rinflateNew windowBits) input) true) := by
  have valid : Bits.Valid ⟨0, 0, 0, input⟩ := zero_lt_one
  have wrap : rinfWrapFromBits windowBits = .raw := if_pos raw
  refine ⟨⟨[], ⟨0, .refl valid⟩, rinflateNew_history windowBits, rfl, rfl, nofun, nofun⟩, ?_, rfl,
    wrap, zero_le _⟩
  show rinfStartPhase (rinfWrapFromBits windowBits) = .blockHdr
  rw [wrap]
  rfl

theorem tell_stream {input : List UInt8} {n : Nat} (after : Bits.After ⟨0, 0, 0, input⟩ s.bits n) :
    rinflateTellBits s = n ∧ n ≤ 8 * input.length ∧ s.bits.stream = (ofBytes input).drop n := by
  have stream := after.stream
  have total := after.total
  have length := after.length
  have long := stream_length s.bits
  rw [unbuffered_stream] at stream length
  rw [ofBytes_length] at length
  simp only [Bits.total] at total
  refine ⟨?_, by omega, stream⟩
  rw [rinflateTellBits]
  omega

theorem reported_decodes {windowBits otherBits : Int} (raw : windowBits < 0)
    (rawToo : otherBits < 0) {input : List UInt8} (stop : Bool)
    (ample : Ample plan (rinflateSetStopAtBlock (rinflateSetIn (rinflateNew windowBits) input) true)
      []) (reported : Reaches plan
      (rinflateSetStopAtBlock (rinflateSetIn (rinflateNew windowBits) input) true) (calls + 1) s
      made) :
    ∃ origin, Standing origin (made.drop (made.length - 32768))
        (freshAt otherBits (made.drop (made.length - 32768)) input (rinflateTellBits s) stop) ∧
      ∃ ending rest,
        Decodes ((rinflateSetStopAtBlock (rinflateSetIn (rinflateNew windowBits) input) true).head
          []) ending (made ++ rest) ∧
        Decodes ((freshAt otherBits (made.drop (made.length - 32768)) input
          (rinflateTellBits s) stop).head (made.drop (made.length - 32768))) ending
          (made.drop (made.length - 32768) ++ rest) := by
  obtain ⟨stood, steps, skipped⟩ := reported.follows (rinflateNew_standing raw input) ample
  obtain ⟨prior, core⟩ := stood.core
  obtain ⟨n, input'⟩ := core.input
  obtain ⟨tell, inside, stream⟩ := tell_stream input'
  rw [nil_append] at steps
  rw [tell]
  -- The output in front of the dictionary is out of every distance's reach.
  have size : (made.drop (made.length - 32768)).length = min made.length 32768 := by
    rw [length_drop]
    omega
  have split := take_append_drop (made.length - 32768) made
  generalize made.drop (made.length - 32768) = dict at size split ⊢
  generalize made.take (made.length - 32768) = front at split
  subst split
  rw [length_append] at size
  obtain ⟨fresh, head⟩ := @freshAt_standing _ rawToo dict (by omega) input n inside stop
  refine ⟨_, fresh, ?_⟩
  obtain ⟨ending, out, decodes⟩ := decodes_total ((freshAt otherBits dict input n stop).head dict)
  obtain ⟨rest, rfl⟩ : ∃ rest, out = dict ++ rest := by
    obtain ⟨last, more, -, rfl⟩ := decodes
    obtain ⟨rest, same⟩ := more.extends
    exact ⟨rest, same.symm⟩
  refine ⟨ending, rest, ?_, decodes⟩
  have covers : Covers front ((freshAt otherBits dict input n stop).head dict) := by
    by_cases full : 32768 ≤ dict.length
    · exact .inr full
    · exact .inl (length_eq_zero_iff.mp (by omega))
  have same : s.head (front ++ dict) = ((freshAt otherBits dict input n stop).head dict).behind front := by
    rw [head, State.head, skipped (succ_pos _), drop_zero, stream]
    rfl
  obtain ⟨last, more, ends, out⟩ := decodes.behind covers
  rw [← same] at more
  refine ⟨last, steps.trans more, ends, ?_⟩
  rw [out, List.append_assoc]

/--
Decoding goes on from a reported block's head with the same bytes and the same status, whether the
decoder that reported it goes on or a fresh one starts there with the last bytes as its dictionary.
-/
theorem indexed_access {windowBits otherBits : Int} (raw : windowBits < 0) (rawToo : otherBits < 0)
    (input : List UInt8) (stop : Bool) (plan otherPlan : Nat → Binding)
    (ample : Ample plan (rinflateSetStopAtBlock (rinflateSetIn (rinflateNew windowBits) input) true)
      []) {calls : Nat} {s : State} {made : List UInt8} (reported : Reaches plan
      (rinflateSetStopAtBlock (rinflateSetIn (rinflateNew windowBits) input) true) (calls + 1) s made)
    (ampleToo : Ample otherPlan
      (freshAt otherBits (made.drop (made.length - 32768)) input (rinflateTellBits s) stop)
      (made.drop (made.length - 32768))) :
    ∃ status rest, (∀ ending all, Finishes plan
          (rinflateSetStopAtBlock (rinflateSetIn (rinflateNew windowBits) input) true) ending all ↔
        ending = status ∧ all = made ++ rest) ∧
      ∀ ending all, Finishes otherPlan
          (freshAt otherBits (made.drop (made.length - 32768)) input (rinflateTellBits s) stop)
          ending all ↔
        ending = status ∧ all = rest := by
  obtain ⟨_, fresh, ending, rest, decodes, decodesToo⟩ := reported_decodes raw rawToo stop ample reported
  exact ⟨statusOf ending, rest, finishes_iff (rinflateNew_standing raw input) ample decodes,
    finishes_iff fresh ampleToo decodesToo⟩

/-- Two stored blocks of one byte each, from the second one's head. -/
theorem indexed_access_stored : ∃ s made, Reaches (fun _ => .setOut 64)
        (rinflateSetStopAtBlock (rinflateSetIn (rinflateNew (-15))
          [0, 1, 0, 254, 255, 97, 1, 1, 0, 254, 255, 98]) true) 2 s made ∧
      ∃ status rest, (∀ ending all, Finishes (fun _ => .setOut 64)
            (rinflateSetStopAtBlock (rinflateSetIn (rinflateNew (-15))
              [0, 1, 0, 254, 255, 97, 1, 1, 0, 254, 255, 98]) true) ending all ↔
          ending = status ∧ all = made ++ rest) ∧
        ∀ ending all, Finishes (fun _ => .setOut 64) (freshAt (-15) (made.drop (made.length - 32768))
              [0, 1, 0, 254, 255, 97, 1, 1, 0, 254, 255, 98] (rinflateTellBits s) false)
            ending all ↔
          ending = status ∧ all = rest := by
  have raw : (-15 : Int) < 0 := by decide
  have start := rinflateNew_standing raw [0, 1, 0, 254, 255, 97, 1, 1, 0, 254, 255, 98]
  generalize isFirst : rinflateSetStopAtBlock (rinflateSetIn (rinflateNew (-15))
    [0, 1, 0, 254, 255, 97, 1, 1, 0, 254, 255, 98]) true = first at start
  have decodes : Decodes (first.head []) .finished ([] ++ [97, 98]) := by
    subst isFirst
    exact ⟨_, .step rfl (.step rfl (.step rfl (.step rfl (.step rfl (.step rfl (.refl _)))))), rfl,
      rfl⟩
  have ample : Ample (fun _ => .setOut 64) first [] := ample_setOut start decodes (by decide)
  have reports : ((rinflateProcess 9 (Binding.apply (.setOut 64) first)).bind fun back =>
      (rinflateProcess 9 (Binding.apply (.setOut 64) back.2.1)).map fun again =>
        (back.1, again.1)) = some (.block, .block) := by
    subst isFirst
    rfl
  obtain ⟨⟨_, s, read, wrote⟩, ran, again⟩ := Option.bind_eq_some_iff.mp reports
  obtain ⟨⟨_, t, readToo, wroteToo⟩, ranToo, same⟩ := Option.map_eq_some_iff.mp again
  cases same
  have fresh : Reaches (fun _ => .setOut 64) first 0 first [] := .start
  have reported := (fresh.block ran).block ranToo
  generalize [] ++ s.written wrote ++ t.written wroteToo = made at reported
  subst isFirst
  refine ⟨t, made, reported, ?_⟩
  -- What is left has room in the buffer, as all of the output has.
  obtain ⟨_, standing, ending, rest, whole, tail⟩ := reported_decodes raw raw false ample reported
  have length := congrArg List.length (decodes_unique whole decodes).2
  rw [length_append] at length
  have room : (made.drop (made.length - 32768) ++ rest).length ≤ 64 := by
    rw [length_append, length_drop]
    simp only [nil_append, length_cons, length_nil] at length
    omega
  exact indexed_access raw raw _ false _ _ ample reported (ample_setOut standing tail room)

end Libretro.Inflate
