import Libretro.Encodings.InflateFast
import Mathlib.Logic.Relation

/-! Every pass through the body of a stream does what the format does, and so does a call. -/

namespace Libretro.Inflate

open BitString BitString.Parser Deflate Decoder Nat

variable {origin : Bits} {prior : List UInt8} {committed weight : Nat} {frame : Frame}
  {c : Call} {d e : Decoder}

/-- A call behind the last block of its stream. -/
structure Ended (c : Call) (d : Decoder) : Prop where
  place : c.pc = .dispatch
  phase : c.s.phase = rinfEndPhase c.s.wrap
  stage : d.stage = .finished
  bits : d.bits = c.s.bits.stream

/-- A place without locals. -/
def Pc.Slow : Pc → Prop
  | .fast _ => False
  | .chain _ _ => False
  | _ => True

theorem view_slow (slow : c.pc.Slow) : c.view = c.s := by
  unfold Call.view
  cases at' : c.pc with
  | fast l => rw [at'] at slow; cases slow
  | chain l e => rw [at'] at slow; cases slow
  | _ => rfl

theorem weight_slow (slow : c.pc.Slow) : c.weight = 32 * c.s.bits.stream.length + c.rank := by
  rw [Call.weight, view_slow slow]

variable (related : Related origin prior committed c d)
include related

theorem Related.ready (slow : c.pc.Slow)
    (onward : ¬c.Halting) : Ready origin prior committed c.frame d c d where
  span := .refl d
  room := related.room.resolve_left onward
  away := fun _ _ => rfl
  core := by
    have core := related.body.core
    rwa [view_slow slow] at core
  kept := rfl

omit related

theorem endPhase_ne (wrap : Wrap) : rinfEndPhase wrap ≠ .storedData ∧ rinfEndPhase wrap ≠ .blockData ∧
      rinfEndPhase wrap ≠ .blockHdr ∧ rinfEndPhase wrap ≠ .storedLen ∧
      rinfEndPhase wrap ≠ .dynTable := by
  cases wrap <;> decide

theorem Place.atHead (place : Place s d) (phase : s.phase = .blockHdr) :
    s.ldStep = 0 ∧ d.stage = .block ∧ d.bits = s.bits.stream := by
  cases place with
  | block _ idle stage bits => exact ⟨idle, stage, bits⟩
  | storedLen other _ _ => rw [phase] at other; cases other
  | stored other _ _ _ => rw [phase] at other; cases other
  | dynamic other _ _ => rw [phase] at other; cases other
  | symbols other _ _ _ _ => rw [phase] at other; cases other
  | ended other _ _ => exact absurd (other.symm.trans phase) (endPhase_ne s.wrap).2.2.1

theorem Place.group (place : Place s d) (phase : s.phase = .blockData) :
    ∃ literals distances, Tables s.lencode s.distcode literals distances ∧ Group s d literals distances := by
  cases place with
  | symbols _ literals distances tables group => exact ⟨literals, distances, tables, group⟩
  | block other _ _ _ => rw [phase] at other; cases other
  | storedLen other _ _ => rw [phase] at other; cases other
  | stored other _ _ _ => rw [phase] at other; cases other
  | dynamic other _ _ => rw [phase] at other; cases other
  | ended other _ _ => exact absurd (other.symm.trans phase) (endPhase_ne s.wrap).2.1

theorem Group.atSymbol {literals distances : List Nat}
    (group : Group s d literals distances) (idle : s.copyActive = false) (step : s.ldStep = 0) :
    Rests s d (token literals distances) (symbolsNext literals distances s.bfinal d.out) := by
  cases group with
  | symbol _ _ rest => exact rest
  | length _ other _ _ => rw [step] at other; cases other
  | distance _ other _ _ => rw [step] at other; cases other
  | extra _ other _ _ _ => rw [step] at other; cases other
  | copy active _ _ _ _ => rw [idle] at active; cases active

include related

theorem Related.fast {l : Locals} (view : c.view = (c.writeBack l).s) (away : c.pc ≠ .dispatch)
    (phase : c.s.phase = .blockData) (idle : c.s.copyActive = false) (step : c.s.ldStep = 0) :
    ∃ literals distances, Fast origin prior committed c.frame d literals distances c l d ∧
        Rests (c.writeBack l).s d (token literals distances)
          (symbolsNext literals distances c.s.bfinal d.out) := by
  have place := related.body.place
  have core := related.body.core
  rw [view] at place core
  obtain ⟨literals, distances, tables, group⟩ := place.group phase
  refine ⟨literals, distances, ⟨⟨.refl d, ?_, fun _ _ => rfl, core, rfl⟩, phase, tables, idle,
    step⟩, group.atSymbol idle step⟩
  exact related.room.resolve_left fun halting => away halting.1

theorem dispatch_follows (at' : c.pc = .dispatch) :
    Ended c d ∨ Follows origin prior committed c.weight c.frame d (dispatch c) := by
  have slow : c.pc.Slow := by
    rw [at']
    trivial
  have view := view_slow slow
  have heavy : c.weight = 32 * c.s.bits.stream.length + c.s.phase.rank c.s.clcodeBuilt := by
    rw [weight_slow slow, Call.rank, at']
  have ready : c.s.phase ≠ .blockHdr → Ready origin prior committed c.frame d c d :=
    fun other => related.ready slow fun halting => other halting.2.1
  have place := related.body.place
  have core := related.body.core
  rw [view] at place core
  unfold dispatch
  cases place with
  | block phase idle stage bits =>
    right
    rw [phase]
    rw [phase] at heavy
    exact blockHdr_follows core phase idle at' stage bits related.room rfl (by
      rw [heavy]
      exact lt_succ_self _)
  | storedLen phase idle rest =>
    right
    rw [phase]
    rw [phase] at heavy
    exact storedLen_follows (ready (by rw [phase]; decide)) phase idle at' rest (by
      rw [heavy]
      exact lt_succ_self _)
  | stored phase idle stage bits =>
    right
    rw [phase]
    rw [phase] at heavy
    exact storedData_follows (ready (by rw [phase]; decide)) phase idle stage bits (by
      rw [heavy]
      exact lt_succ_self _)
  | dynamic phase idle place =>
    right
    rw [phase]
    rw [phase] at heavy
    exact dynTable_follows (ready (by rw [phase]; decide)) phase idle at' place heavy.ge
  | symbols phase literals distances tables group =>
    right
    rw [phase]
    rw [phase] at heavy
    refine Ready.on (c := { c with pc := .fastAgain }) (e := d)
      { ready (by rw [phase]; decide) with } rfl (.symbols phase literals distances tables group)
      phase ?_
    rw [heavy]
    show 32 * c.s.bits.stream.length + 9 < 32 * c.s.bits.stream.length + 12
    omega
  | ended phase stage bits => exact .inl ⟨at', phase, stage, bits⟩

theorem step_follows (skipped : c.s.skipBits = 0) :
    Ended c d ∨ Follows origin prior committed c.weight c.frame d c.step := by
  have fits := related.fits
  have place := related.body.place
  have onward : c.pc ≠ .dispatch → ¬c.Halting := fun other halting => other halting.1
  have weighs : c.weight = 32 * c.view.bits.stream.length + c.rank := rfl
  unfold Call.step
  unfold Call.rank at weighs
  cases at' : c.pc with
  | dispatch => exact dispatch_follows related at'
  | enter =>
    right
    have slow : c.pc.Slow := by rw [at']; trivial
    have ready := related.ready slow (onward (by rw [at']; rintro ⟨⟩))
    rw [view_slow slow, at'] at weighs
    rw [view_slow slow] at place
    have light := phase_rank_le c.s.phase c.s.clcodeBuilt
    simp only [skipping, skipped, ne_eq, not_true_eq_false, if_false]
    refine Ready.on (c := { c with pc := .dispatch }) (e := d) { ready with } rfl place trivial ?_
    rw [weighs]
    show 32 * c.s.bits.stream.length + c.s.phase.rank c.s.clcodeBuilt < _
    dsimp only
    omega
  | storedBytes =>
    right
    have slow : c.pc.Slow := by rw [at']; trivial
    have ready := related.ready slow (onward (by rw [at']; rintro ⟨⟩))
    rw [view_slow slow, at'] at weighs
    rw [view_slow slow] at place
    rw [at'] at fits
    have phase : c.s.phase = .storedData := fits
    cases place with
    | stored _ idle stage bits =>
      exact storedBytes_follows ready phase idle at' stage bits (by rw [weighs]; dsimp only; omega)
    | block other _ _ _ => rw [phase] at other; cases other
    | storedLen other _ _ => rw [phase] at other; cases other
    | dynamic other _ _ => rw [phase] at other; cases other
    | symbols other _ _ _ _ => rw [phase] at other; cases other
    | ended other _ _ => exact absurd (other.symm.trans phase) (endPhase_ne c.s.wrap).1
  | fastAgain =>
    right
    have slow : c.pc.Slow := by rw [at']; trivial
    have ready := related.ready slow (onward (by rw [at']; rintro ⟨⟩))
    rw [view_slow slow, at'] at weighs
    rw [view_slow slow] at place
    rw [at'] at fits
    obtain ⟨literals, distances, tables, group⟩ := place.group fits
    exact fastAgain_follows ready fits tables group weighs.ge
  | careful =>
    right
    have slow : c.pc.Slow := by rw [at']; trivial
    have ready := related.ready slow (onward (by rw [at']; rintro ⟨⟩))
    rw [view_slow slow, at'] at weighs
    rw [view_slow slow] at place
    rw [at'] at fits
    obtain ⟨literals, distances, tables, group⟩ := place.group fits
    exact careful_follows ready fits tables group weighs.ge
  | fast l =>
    right
    have view : c.view = (c.writeBack l).s := by rw [Call.view, at']
    rw [view, at'] at weighs
    rw [at'] at fits
    obtain ⟨phase, idle, step, preloads⟩ := fits
    obtain ⟨literals, distances, fast, rests⟩ := related.fast view (by rw [at']; rintro ⟨⟩) phase idle step
    exact fastHead_follows fast preloads rests weighs.ge
  | chain l entry =>
    right
    have view : c.view = (c.writeBack l).s := by rw [Call.view, at']
    rw [view, at'] at weighs
    rw [at'] at fits
    obtain ⟨phase, idle, step, fresh, enough, loaded⟩ := fits
    obtain ⟨literals, distances, fast, rests⟩ := related.fast view (by rw [at']; rintro ⟨⟩) phase idle step
    exact fastChain_follows fast fresh enough loaded rests weighs.ge

omit related

/-- Passes of a call follow one another. -/
abbrev Passes : Call → Call → Prop := Relation.ReflTransGen fun c next => c.step = .on next

theorem Passes.returns {last : Call} (passes : Passes c last) {status : Status}
    {read wrote : Nat} (back : last.step = .back status s read wrote) :
    ∃ n, c.run n = some (status, s, read, wrote) := by
  induction passes using Relation.ReflTransGen.head_induction_on with
  | refl => exact ⟨1, by rw [Call.run, back]⟩
  | head moves _ ih =>
    obtain ⟨n, ran⟩ := ih
    refine ⟨n + 1, ?_⟩
    rw [Call.run, moves]
    exact ran

theorem Follows.after {stop : Bool} (same : frame.stopAtBlock = stop) (span : Span stop d e)
    {turn : Turn} (follows : Follows origin prior committed 0 frame e turn)
    (away : stop = true → e.stage = .block → e = d) :
    Follows origin prior committed 0 frame d turn := by
  subst same
  cases follows with
  | on _ _ _ _ less => omega
  | suspend later body short exhausted kept =>
    exact .suspend (span.trans later away) body short exhausted kept
  | fail later inside output wrong kept => exact .fail (span.trans later away) inside output wrong kept
  | halt later body stage bits phase kept stops =>
    exact .halt (span.trans later away) body stage bits phase kept stops

theorem Follows.out {turn : Turn} (follows : Follows origin prior committed weight frame d turn)
    (out : ∀ c, turn ≠ .on c) : Follows origin prior committed 0 frame d turn := by
  cases follows with
  | on _ _ _ _ _ => exact absurd rfl (out _)
  | suspend later body short exhausted kept => exact .suspend later body short exhausted kept
  | fail later inside output wrong kept => exact .fail later inside output wrong kept
  | halt later body stage bits phase kept stops => exact .halt later body stage bits phase kept stops

theorem body_run (n : Nat) : ∀ (c : Call) (d : Decoder), c.weight ≤ n →
    Related origin prior committed c d → c.s.skipBits = 0 →
      (∃ last, Passes c last ∧ Follows origin prior committed 0 c.frame d last.step) ∨
      ∃ last e, Passes c last ∧ Span c.s.stopAtBlock d e ∧ Ended last e ∧
        Core origin prior committed last.s e.out ∧ last.frame = c.frame ∧
        last.weight ≤ c.weight := by
  -- Every pass that leads on makes the call lighter.
  induction n with
  | zero =>
    intro c d light related skipped
    rcases step_follows related skipped with ended | follows
    · refine .inr ⟨c, d, .refl, .refl d, ended, ?_, rfl, le_refl _⟩
      have core := related.body.core
      rwa [view_slow (by rw [ended.place]; trivial)] at core
    · left
      refine ⟨c, .refl, follows.out ?_⟩
      intro next moved
      rw [moved] at follows
      cases follows with
      | on _ _ _ _ less => omega
  | succ n ih =>
    intro c d light related skipped
    rcases step_follows related skipped with ended | follows
    · refine .inr ⟨c, d, .refl, .refl d, ended, ?_, rfl, le_refl _⟩
      have core := related.body.core
      rwa [view_slow (by rw [ended.place]; trivial)] at core
    cases moves : c.step with
    | back status s read wrote =>
      left
      refine ⟨c, .refl, follows.out ?_⟩
      intro next moved
      rw [moves] at moved
      cases moved
    | on next =>
      rw [moves] at follows
      cases follows with
      | @on _ e span away related kept less =>
        have first : Passes c next := .single moves
        have sameSkip : next.s.skipBits = c.s.skipBits := congrArg Frame.skipBits kept
        have sameStop : next.s.stopAtBlock = c.s.stopAtBlock := congrArg Frame.stopAtBlock kept
        by_cases halting : next.Halting
        · -- At a block's head where blocks stop it, the call comes back.
          left
          refine ⟨next, first, ?_⟩
          obtain ⟨at', phase, stop, atBlock⟩ := halting
          have view := view_slow (c := next) (by rw [at']; trivial)
          have place := related.body.place
          have core := related.body.core
          rw [view] at place core
          have step : next.step = blockHdr next := by
            rw [Call.step, at']
            show dispatch next = _
            rw [dispatch, phase]
          obtain ⟨idle, stage, bits⟩ := place.atHead phase
          obtain ⟨after, halted, body, same, atHead, frames, stops⟩ :=
            blockHdr_halts core phase idle stage bits (.inr atBlock)
          rw [step, halted]
          exact .halt span body stage same atHead (frames.trans kept) stops
        have passes : c.s.stopAtBlock = true → e.stage = .block → e = d := fun stops atBlock =>
          (away stops atBlock).resolve_right halting
        rcases ih next e (by omega) related (sameSkip.trans skipped) with
          ⟨last, rest, follows⟩ | ⟨last, f, rest, later, ended, core, frames, less'⟩
        · rw [kept] at follows
          exact .inl ⟨last, first.trans rest, follows.after rfl span passes⟩
        · rw [sameStop] at later
          exact .inr ⟨last, f, first.trans rest, span.trans later passes, ended, core,
            frames.trans kept, by omega⟩

variable {origin : Bits} {prior : List UInt8} {committed : Nat} {s : State} {d e : Decoder}

section Later

variable {bits : Bits} {out : List UInt8} {outSize outPos whave wnext wprior wcur : Nat}
  {window : Nat → UInt8} {adler crc totalOut : UInt32} {bytes : List UInt8}

/-- A decoder with other bits, output, history and checksums. -/
abbrev State.later (s : State) (bits : Bits) (out : List UInt8) (outSize outPos : Nat)
    (window : Nat → UInt8) (whave wnext wprior wcur : Nat) (adler crc totalOut : UInt32) : State :=
  { s with
    bits := bits, out := out, outSize := outSize, outPos := outPos
    window := window, whave := whave, wnext := wnext, wprior := wprior, wcur := wcur
    adler := adler, crc := crc, totalOut := totalOut }

theorem Rests.later {α : Type} {parser : Parser α} {next : α → Option (Stage × List UInt8)}
    (rests : Rests s d parser next) {after : State}
    (arrived : after.bits.stream = s.bits.stream ++ ofBytes bytes) :
    Rests after (d.more bytes) parser next := by
  unfold Rests
  rw [arrived]
  exact rests.more bytes

theorem Known.later {literals distances : Nat} {code known : List Nat}
    (facts : Known s literals distances code known) :
    Known (s.later bits out outSize outPos window whave wnext wprior wcur adler crc totalOut)
      literals distances code known :=
  ⟨⟨facts.hlit, facts.hdist, facts.few, facts.fewToo⟩, facts.listed, facts.isBuilt, facts.table,
    facts.count, facts.front, facts.size, facts.within⟩

theorem Dynamic.later (place : Dynamic s d) (arrived : bits.stream = s.bits.stream ++ ofBytes bytes) :
    Dynamic (s.later bits out outSize outPos window whave wnext wprior wcur adler crc totalOut)
      (d.more bytes) := by
  cases place with
  | counts unread rest empty => exact .counts unread (rest.later arrived) empty
  | codes literals distances left listed counts all few read unbuilt lengths pending empty size rest =>
    exact .codes literals distances left listed
      ⟨counts.hlit, counts.hdist, counts.few, counts.fewToo⟩ all few read unbuilt lengths pending
      empty size (rest.later arrived)
  | lengths literals distances code known facts pending stage same =>
    exact .lengths literals distances code known facts.later pending stage
      (by rw [more, same]; exact arrived.symm)
  | run literals distances code known sym facts pending repeats more rest =>
    exact .run literals distances code known sym facts.later pending repeats more (rest.later arrived)

theorem Group.later {literals distances : List Nat} (group : Group s d literals distances)
    (arrived : bits.stream = s.bits.stream ++ ofBytes bytes) :
    Group (s.later bits out outSize outPos window whave wnext wprior wcur adler crc totalOut)
      (d.more bytes) literals distances := by
  cases group with
  | symbol idle step rest => exact .symbol idle step (rest.later arrived)
  | length idle step isLength rest => exact .length idle step isLength (rest.later arrived)
  | distance idle step long rest => exact .distance idle step long (rest.later arrived)
  | extra idle step long isDist rest => exact .extra idle step long isDist (rest.later arrived)
  | copy active long back near rest => exact .copy active long back near (rest.later arrived)

theorem Place.later (place : Place s d) (arrived : bits.stream = s.bits.stream ++ ofBytes bytes) :
    Place (s.later bits out outSize outPos window whave wnext wprior wcur adler crc totalOut)
      (d.more bytes) := by
  cases place with
  | block phase idle stage same => exact .block phase idle stage (by rw [more, same]; exact arrived.symm)
  | storedLen phase idle rest => exact .storedLen phase idle (rest.later arrived)
  | stored phase idle stage same => exact .stored phase idle stage (by rw [more, same]; exact arrived.symm)
  | dynamic phase idle place => exact .dynamic phase idle (place.later arrived)
  | symbols phase literals distances tables group =>
    exact .symbols phase literals distances tables (group.later arrived)
  | ended phase stage same => exact .ended phase stage (by rw [more, same]; exact arrived.symm)

end Later

theorem more_nil (d : Decoder) : d.more [] = d := by rw [more, ofBytes_nil, append_empty]

/-- A call that comes back has committed its output, and folded it into the checksums. -/
theorem finish_eq (c : Call) (status : Status) : ∃ window whave wnext wprior wcur adler crc totalOut,
    finish c status = .back status (c.s.later c.s.bits c.s.out c.s.outSize c.s.outPos window whave
      wnext wprior wcur adler crc totalOut) (c.s.bits.inPos - c.inStart)
      (c.s.outPos - c.outStart) ∧ (∀ prior committed, History c.s prior committed →
      HistoryParts c.s.out c.s.outPos window wnext whave wcur wprior prior c.s.outPos) := by
  obtain ⟨window, wnext, whave, wcur, wprior, kept⟩ := rinfWindowCommit_kept c.s
  have commits : ∀ prior committed, History c.s prior committed →
      HistoryParts c.s.out c.s.outPos window wnext whave wcur wprior prior c.s.outPos := by
    intro prior committed history
    have after := history.commit
    rw [kept] at after
    exact after
  unfold finish
  rw [kept]
  dsimp only
  split
  · split
    · exact ⟨window, whave, wnext, wprior, wcur, _, c.s.crc, c.s.totalOut, rfl, commits⟩
    · exact ⟨window, whave, wnext, wprior, wcur, c.s.adler, _, _, rfl, commits⟩
    · exact ⟨window, whave, wnext, wprior, wcur, c.s.adler, c.s.crc, c.s.totalOut, rfl, commits⟩
  · exact ⟨window, whave, wnext, wprior, wcur, c.s.adler, c.s.crc, c.s.totalOut, rfl, commits⟩

theorem fail_eq (c : Call) : ∃ adler, fail c = .back .error { c.s with error := true, adler := adler }
      (c.s.bits.inPos - c.inStart) (c.s.outPos - c.outStart) := by
  unfold fail
  dsimp only
  split
  · exact ⟨_, rfl⟩
  · exact ⟨c.s.adler, rfl⟩

/-- What a call's return says of the format's decoder. -/
inductive Returned (origin : Bits) (prior : List UInt8) (stop : Bool) (d : Decoder) : Status → State → Prop
  | next {s : State} {e : Decoder} (span : Span stop d e) (body : Body origin prior s.outPos s e)
      (short : e.step = .short) (exhausted : s.bits.unread = []) : Returned origin prior stop d .next s
  | block {s : State} {e : Decoder} (span : Span stop d e) (body : Body origin prior s.outPos s e)
      (stage : e.stage = .block) (bits : e.bits = s.bits.stream) (phase : s.phase = .blockHdr)
      (stops : stop = true) :
      Returned origin prior stop d .block s
  | done {s : State} {e : Decoder} (span : Span stop d e) (inside : s.outPos ≤ s.out.length)
      (output : s.produced prior = e.out) (stage : e.stage = .finished) :
      Returned origin prior stop d .done s
  | error {s : State} {e : Decoder} (span : Span stop d e) (inside : s.outPos ≤ s.out.length)
      (output : s.produced prior = e.out) (wrong : e.step = .wrong) :
      Returned origin prior stop d .error s

/-- What a caller has set stays as it was set. -/
structure Settings (s after : State) : Prop where
  wrap : after.wrap = s.wrap
  skipBits : after.skipBits = s.skipBits
  stopAtBlock : after.stopAtBlock = s.stopAtBlock
  outSize : after.outSize = s.outSize

theorem enter_related (body : Body origin prior committed s d)
    (room : Fits s.stopAtBlock (prior.length + s.outSize) d) :
    Related origin prior committed (rinflateEnter s) d :=
  ⟨body, trivial, .inr room⟩

theorem Core.rests {out : List UInt8} (core : Core origin prior committed s out)
    {window : Nat → UInt8} {whave wnext wprior wcur : Nat} {adler crc totalOut : UInt32}
    (history : HistoryParts s.out s.outPos window wnext whave wcur wprior prior s.outPos) :
    Core origin prior s.outPos (s.later s.bits s.out s.outSize s.outPos window whave wnext wprior
      wcur adler crc totalOut) out :=
  ⟨core.input, history, core.output, core.noLit, core.stops, core.fixed⟩

theorem Place.rests (place : Place s d) {window : Nat → UInt8}
    {whave wnext wprior wcur : Nat} {adler crc totalOut : UInt32} :
    Place (s.later s.bits s.out s.outSize s.outPos window whave wnext wprior wcur adler crc totalOut) d := by
  have none : s.bits.stream = s.bits.stream ++ ofBytes [] := by rw [ofBytes_nil, append_empty]
  have later : Place (s.later s.bits s.out s.outSize s.outPos window whave wnext wprior wcur adler
      crc totalOut) (d.more []) := place.later none
  rwa [more_nil] at later

/-- A call in the body of a stream that comes back says what the format says. -/
theorem Follows.returned {turn : Turn} (follows : Follows origin prior committed 0 frame d turn) :
    ∃ status after, turn = .back status after (after.bits.inPos - frame.inStart)
        (after.outPos - frame.outStart) ∧
      Returned origin prior frame.stopAtBlock d status after ∧ after.wrap = frame.wrap ∧
      after.skipBits = frame.skipBits ∧ after.stopAtBlock = frame.stopAtBlock ∧
      after.outSize = frame.outSize := by
  cases follows with
  | on _ _ _ _ less => omega
  | @suspend c e span body short exhausted kept =>
    subst kept
    obtain ⟨window, whave, wnext, wprior, wcur, adler, crc, totalOut, back, commits⟩ := finish_eq c .next
    refine ⟨_, _, back, .next span ⟨body.core.rests (commits _ _ body.core.history),
      body.place.rests⟩ short exhausted, rfl, rfl, rfl, rfl⟩
  | @fail c e span inside output wrong kept =>
    subst kept
    obtain ⟨adler, back⟩ := fail_eq c
    exact ⟨_, _, back, .error span inside output wrong, rfl, rfl, rfl, rfl⟩
  | @halt c e span body stage bits phase kept stops =>
    subst kept
    obtain ⟨window, whave, wnext, wprior, wcur, adler, crc, totalOut, back, commits⟩ := finish_eq c .block
    exact ⟨_, _, back, .block span ⟨body.core.rests (commits _ _ body.core.history),
      body.place.rests⟩ stage bits phase stops, rfl, rfl, rfl, rfl⟩

/-- A call in the body of a raw stream returns, and says what the format says. -/
theorem body_returns (related : Related origin prior committed c d)
    (raw : c.s.wrap = .raw) (skipped : c.s.skipBits = 0) :
    ∃ last status after, Passes c last ∧
      last.step = .back status after (after.bits.inPos - c.inStart) (after.outPos - c.outStart) ∧
      Returned origin prior c.s.stopAtBlock d status after ∧ Settings c.s after := by
  rcases body_run _ c d (le_refl _) related skipped with
    ⟨last, passes, follows⟩ | ⟨last, e, passes, span, ended, core, kept, _⟩
  · -- A turn that leads out of the call carries what it says of the format.
    obtain ⟨status, after, turn, returned, wrap, skip, stops, size⟩ := follows.returned
    exact ⟨last, status, after, passes, turn, returned, wrap, skip, stops, size⟩
  · -- Behind the last block of a raw stream, the call is done.
    have sameWrap : last.s.wrap = c.s.wrap := congrArg Frame.wrap kept
    have phase := ended.phase
    rw [sameWrap, raw] at phase
    obtain ⟨window, whave, wnext, wprior, wcur, adler, crc, totalOut, back, commits⟩ := finish_eq last .done
    have turn : last.step = finish last .done := by
      rw [Call.step, ended.place]
      show dispatch last = _
      rw [dispatch, phase]
      rfl
    have start : last.inStart = c.inStart := congrArg Frame.inStart kept
    have startOut : last.outStart = c.outStart := congrArg Frame.outStart kept
    rw [start, startOut] at back
    exact ⟨last, _, _, passes, turn.trans back,
      .done span core.history.inside core.output ended.stage, sameWrap,
      congrArg Frame.skipBits kept, congrArg Frame.stopAtBlock kept, congrArg Frame.outSize kept⟩

theorem process_raw (body : Body origin prior committed s d) (raw : s.wrap = .raw)
    (skipped : s.skipBits = 0) (room : Fits s.stopAtBlock (prior.length + s.outSize) d) :
    ∃ n status after, rinflateProcess n s =
        some (status, after, after.bits.inPos - s.bits.inPos, after.outPos - s.outPos) ∧
      Returned origin prior s.stopAtBlock d status after ∧ Settings s after := by
  obtain ⟨last, status, after, passes, turn, returned, settings⟩ :=
    body_returns (enter_related body room) raw skipped
  obtain ⟨n, ran⟩ := passes.returns turn
  exact ⟨n, status, after, ran, returned, settings⟩

/-- The status that an ending of the format's decoder is reported with. -/
def statusOf : Ending → Status
  | .finished => .done
  | .short => .next
  | .wrong => .error

theorem unbuffered_stream (inPos : Nat) (bytes : List UInt8) :
    Bits.stream ⟨0, 0, inPos, bytes⟩ = ofBytes bytes := by
  have valid : Bits.Valid ⟨0, 0, inPos, bytes⟩ := zero_lt_one
  exact ((Bits.After.refl valid).bytes (n := 0) rfl (zero_le _)).1

theorem Returned.decodes {status : Status} {after : State}
    (returned : Returned origin prior false d status after) :
    ∃ ending out, Decodes d ending out ∧ status = statusOf ending ∧
      after.produced prior = out ∧ after.outPos ≤ after.out.length := by
  cases returned with
  | @next _ e span body short _ =>
    exact ⟨.short, e.out, ⟨e, span.steps, by simp only [ends, short], rfl⟩, rfl,
      body.core.output, body.core.history.inside⟩
  | @done _ e span inside output stage =>
    refine ⟨.finished, e.out, ⟨e, span.steps, ?_, rfl⟩, rfl, output, inside⟩
    unfold ends step
    rw [stage]
  | @error _ e span inside output wrong =>
    exact ⟨.wrong, e.out, ⟨e, span.steps, by simp only [ends, wrong], rfl⟩, rfl, output,
      inside⟩
  | block _ _ _ _ _ stops => cases stops

theorem rinflateNew_body {windowBits : Int} (raw : windowBits < 0) (input : List UInt8) (size : Nat) :
    Body ⟨0, 0, 0, input⟩ [] 0 (rinflateSetOut (rinflateSetIn (rinflateNew windowBits) input) size)
      (start (ofBytes input)) := by
  have valid : Bits.Valid ⟨0, 0, 0, input⟩ := zero_lt_one
  have wrap : rinfWrapFromBits windowBits = .raw := if_pos raw
  refine ⟨⟨⟨0, .refl valid⟩, (rinflateNew_history windowBits).setOut size, rfl, rfl, nofun, nofun⟩,
    .block ?_ rfl rfl (unbuffered_stream 0 input).symm⟩
  show rinfStartPhase (rinfWrapFromBits windowBits) = .blockHdr
  rw [wrap]
  rfl

/-- A raw stream in one piece is decoded as the format says, with its status and its output. -/
theorem process_decodes {windowBits : Int} (raw : windowBits < 0) {input : List UInt8}
    {ending : Ending} {out : List UInt8}
    (decodes : Decodes (Decoder.start (ofBytes input)) ending out) {size : Nat}
    (room : out.length + 512 ≤ size) :
    ∃ passes after read, rinflateProcess passes
          (rinflateSetOut (rinflateSetIn (rinflateNew windowBits) input) size) =
        some (statusOf ending, after, read, out.length) ∧
      after.out.take after.outPos = out := by
  have body := rinflateNew_body raw input size
  have fits : Fits false (([] : List UInt8).length + size) (start (ofBytes input)) :=
    decodes.fits (by rw [List.length_nil]; omega)
  obtain ⟨passes, status, after, ran, returned, -⟩ := process_raw
    (s := rinflateSetOut (rinflateSetIn (rinflateNew windowBits) input) size) body (if_pos raw) rfl
    fits
  obtain ⟨other, outToo, decodesToo, rfl, output, inside⟩ := returned.decodes
  obtain ⟨rfl, rfl⟩ := decodes_unique decodes decodesToo
  rw [State.produced, List.nil_append] at output
  have wrote : after.outPos - 0 = out.length := by
    rw [← output, List.length_take]
    omega
  refine ⟨passes, after, after.bits.inPos - 0, ?_, output⟩
  rw [ran, ← wrote]
  rfl

/-- One stored block of one byte. -/
theorem process_decodes_stored : ∃ passes after read,
      rinflateProcess passes (rinflateSetOut (rinflateSetIn (rinflateNew (-15))
        [1, 1, 0, 254, 255, 97]) 513) = some (.done, after, read, 1) ∧
      after.out.take after.outPos = [97] := by
  have decodes : Decodes (start (ofBytes [1, 1, 0, 254, 255, 97])) .finished [97] :=
    ⟨_, .step rfl (.step rfl (.step rfl (.refl _))), rfl, rfl⟩
  exact process_decodes (by decide) decodes (by decide)

end Libretro.Inflate
