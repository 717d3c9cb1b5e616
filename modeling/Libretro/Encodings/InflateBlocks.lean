import Libretro.Encodings.InflateRelation

/-! Block headers and stored blocks do what the format does. -/

namespace Libretro.Inflate

open BitString BitString.Parser Deflate Nat
open List hiding append_assoc drop_append_length drop_length

variable {origin : Bits} {prior : List UInt8} {committed weight : Nat} {frame : Frame}
  {c : Call} {d e : Decoder}

variable (ready : Ready origin prior committed frame d c e)
include ready

theorem Ready.dispatch (at' : c.pc = .dispatch) (place : Place c.s e)
    (less : 32 * c.s.bits.stream.length + c.s.phase.rank c.s.clcodeBuilt < weight) :
    Follows origin prior committed weight frame d (.on c) := by
  have view : c.view = c.s := by
    unfold Call.view
    simp only [at']
  refine ready.on view place ?_ ?_
  · rw [at']
    trivial
  · unfold Call.weight Call.rank
    rw [view]
    simpa only [at'] using less

theorem Ready.dispatches (at' : c.pc = .dispatch) (place : Place c.s e)
    (light : 32 * c.s.bits.stream.length + 15 < weight) :
    Follows origin prior committed weight frame d (.on c) := by
  have rank := phase_rank_le c.s.phase c.s.clcodeBuilt
  exact ready.dispatch at' place (by omega)

/-- The end of a block leads to the next block or behind the last one. -/
theorem blockEnd_follows {f : Decoder} (moves : e.step = .next f) (stage : f.stage = afterBlock c.s.bfinal)
    (idle : c.s.ldStep = 0) (bits : f.bits = c.s.bits.stream) (core : Core origin prior committed c.s f.out)
    (less : 32 * c.s.bits.stream.length + 1 < weight) :
    Follows origin prior committed weight frame d (blockEnd c) := by
  have stops := congrArg Frame.stopAtBlock ready.kept
  have size := congrArg Frame.outSize ready.kept
  simp only [Call.frame] at stops size
  have span := ready.span.trans (.one moves) ready.away
  cases final : c.s.bfinal with
  | true =>
    rw [final] at stage
    have passes : frame.stopAtBlock = true → f.stage = .block → f = e := by
      intro _ atBlock
      rw [stage] at atBlock
      cases atBlock
    refine .on (e := f) span (fun stopped atBlock => .inl ?_)
      ⟨⟨{ core with stops := ?_ }, ?_⟩, trivial, ?_⟩ ready.kept ?_
    · rw [stage] at atBlock
      cases atBlock
    · intro flag
      obtain ⟨more, -⟩ | early := of_decide_eq_true flag
      · exact absurd final more
      · exact core.stops early
    · exact .ended (by simp [Call.view, final]) stage bits
    · right
      show Deflate.Fits c.s.stopAtBlock (prior.length + c.s.outSize) f
      rw [stops, size]
      exact ready.room.rest (.one moves) passes
    · refine lt_of_le_of_lt ?_ less
      show 32 * c.s.bits.stream.length + Phase.rank _ _ ≤ _
      cases c.s.wrap <;> simp [final, rinfEndPhase, Phase.rank]
  | false =>
    rw [final] at stage
    refine .on (e := f) span (fun stopped _ => .inr ⟨rfl, ?_, stops.trans stopped, ?_⟩)
      ⟨⟨{ core with stops := ?_ }, ?_⟩, trivial, ?_⟩ ready.kept ?_
    · simp [final]
    · simp [final, stops.trans stopped]
    · intro flag
      obtain ⟨-, stop⟩ | early := of_decide_eq_true flag
      · exact stop
      · exact core.stops early
    · exact .block (by simp [Call.view, final]) idle stage bits
    · -- Where blocks stop the decoder, this call comes back before it needs any room.
      by_cases stop : c.s.stopAtBlock = true
      · left
        refine ⟨rfl, ?_, stop, ?_⟩ <;> simp [final, stop]
      · right
        show Deflate.Fits c.s.stopAtBlock (prior.length + c.s.outSize) f
        rw [stops, size]
        exact ready.room.rest (.one moves) fun stopped => absurd (stops.trans stopped) stop
    · refine lt_of_le_of_lt ?_ less
      show 32 * c.s.bits.stream.length + Phase.rank _ _ ≤ _
      simp [final, Phase.rank]

omit ready

theorem block_rests {s : State} (stage : d.stage = .block) (bits : d.bits = s.bits.stream) :
    Rests s d header (headerNext d.out) := by
  intro bytes
  unfold Decoder.step Decoder.more
  rw [stage, bits]
  rfl

theorem header_short {bits : BitString} (few : bits.length < 3) : header bits = .short := by
  unfold header andThen
  by_cases one : 1 ≤ bits.length
  · rw [number_read one]
    dsimp only
    rw [number_short (by rw [drop_length]; omega)]
  · rw [number_short (by omega)]

theorem storedHeader_short {final : Bool} {bits : BitString} (few : bits.length < 32) :
    storedHeader final bits = .short := by
  unfold storedHeader andThen
  by_cases half : 16 ≤ bits.length
  · rw [number_read half]
    dsimp only
    rw [number_short (by rw [drop_length]; omega)]
  · rw [number_short (by omega)]

theorem packed_tables {lit dist : Huff} {literals distances : List Nat}
    (litBuilt : Built lit literals) (distBuilt : Built dist distances) :
    Tables (rinfPackLen lit) (rinfPackDist dist) literals distances where
  lit := ⟨litBuilt.fits, litBuilt.firstcode, litBuilt.maxcode, litBuilt.value, litBuilt.fast,
    litBuilt.fastOnly⟩
  litPacked := fun _ => rfl
  dist := ⟨distBuilt.fits, distBuilt.firstcode, distBuilt.maxcode, distBuilt.value,
    distBuilt.fast, distBuilt.fastOnly⟩
  distPacked := fun _ => rfl

theorem fixedLitLengths_eq : fixedLitLengths = fixedLiterals ∧ fixedDistLengths = fixedDistances := by
  unfold fixedLitLengths fixedLiterals fixedDistLengths fixedDistances
  exact ⟨rfl, rfl⟩

theorem fixed_makesCode : makesCode fixedLitLengths = true ∧ makesCode fixedDistLengths = true := by
  decide +kernel

theorem rinfFixedTables_tables {s : State} (core : Core origin prior committed s e.out) :
    ∃ lencode distcode, Tables lencode distcode fixedLitLengths fixedDistLengths ∧
      rinfFixedTables s = { s with
        lencode := lencode, distcode := distcode, haveTables := true, fixedLoaded := true } := by
  unfold rinfFixedTables
  cases loaded : s.fixedLoaded with
  | true =>
    simp only [if_true]
    exact ⟨s.lencode, s.distcode, core.fixed loaded, by simp only⟩
  | false =>
    obtain ⟨-, lit⟩ := rinfBuild_spec s.lencode fixedLitLengths
    obtain ⟨-, dist⟩ := rinfBuild_spec s.distcode fixedDistLengths
    have litBuilt := lit fixed_makesCode.1
    have distBuilt := dist fixed_makesCode.2
    simp only [Bool.false_eq_true, if_false]
    exact ⟨_, _, packed_tables litBuilt distBuilt, rfl⟩

theorem Core.load {s : State} {out : List UInt8} (core : Core origin prior committed s out)
    {lencode distcode : Huff} (tables : Tables lencode distcode fixedLitLengths fixedDistLengths)
    (have' loaded active : Bool) (phase : Phase) :
    Core origin prior committed { s with
      lencode := lencode, distcode := distcode, haveTables := have', fixedLoaded := loaded
      copyActive := active, phase := phase } out :=
  ⟨core.input, core.history, core.output, core.noLit, core.stops, fun _ => tables⟩

include ready

theorem fixed_follows (idle : c.s.ldStep = 0) (at' : c.pc = .dispatch)
    (rests : Rests c.s e (done (.symbols fixedLiterals fixedDistances c.s.bfinal))
      (headerNext e.out)) (light : 32 * c.s.bits.stream.length + 15 < weight) :
    Follows origin prior committed weight frame d (.on { c with
      s := { rinfFixedTables c.s with copyActive := false, phase := .blockData } }) := by
  obtain ⟨lencode, distcode, tables, loaded⟩ := rinfFixedTables_tables ready.core
  have moves := rests.moves rfl
  have core := ready.core.load tables true true false .blockData
  rw [loaded]
  obtain ⟨sameLit, sameDist⟩ := fixedLitLengths_eq
  rw [sameLit, sameDist] at tables
  refine Ready.dispatches (ready.leads moves nofun core ready.kept) at'
    (.symbols rfl _ _ tables (.symbol rfl idle ?_)) light
  intro bytes
  rfl

omit ready

theorem blockHdr_halts (core : Core origin prior committed c.s d.out)
    (phase : c.s.phase = .blockHdr) (idle : c.s.ldStep = 0) (stage : d.stage = .block)
    (bits : d.bits = c.s.bits.stream)
    (halts : (c.s.stopAtBlock ∧ ¬c.s.firstBlockReported) ∨ c.s.blockReady = true) :
    ∃ after : Call, blockHdr c = finish after .block ∧ Body origin prior committed after.s d ∧
      d.bits = after.s.bits.stream ∧ after.s.phase = .blockHdr ∧ after.frame = c.frame ∧
      after.s.stopAtBlock = true := by
  unfold blockHdr
  by_cases unreported : c.s.stopAtBlock ∧ ¬c.s.firstBlockReported
  · rw [if_pos unreported]
    exact ⟨{ c with s := { c.s with firstBlockReported := true } }, rfl,
      ⟨{ core with }, .block phase idle stage bits⟩, bits, phase, rfl, unreported.1⟩
  · rw [if_neg unreported, if_pos (halts.resolve_left unreported)]
    exact ⟨{ c with s := { c.s with blockReady := false } }, rfl,
      ⟨{ core with stops := nofun }, .block phase idle stage bits⟩, bits, phase, rfl,
      core.stops (halts.resolve_left unreported)⟩

/-- A block's header is read as the format reads it. -/
theorem blockHdr_follows (core : Core origin prior committed c.s d.out)
    (phase : c.s.phase = .blockHdr) (idle : c.s.ldStep = 0) (at' : c.pc = .dispatch)
    (stage : d.stage = .block) (bits : d.bits = c.s.bits.stream)
    (room : c.Halting ∨ Deflate.Fits c.s.stopAtBlock (prior.length + c.s.outSize) d)
    (kept : c.frame = frame) (heavy : 32 * c.s.bits.stream.length < weight) :
    Follows origin prior committed weight frame d (blockHdr c) := by
  by_cases halts : (c.s.stopAtBlock ∧ ¬c.s.firstBlockReported) ∨ c.s.blockReady = true
  · obtain ⟨after, halted, body, same, atHead, frames, stops⟩ :=
      blockHdr_halts core phase idle stage bits halts
    rw [halted]
    exact .halt (.refl d) body stage same atHead (frames.trans kept) stops
  obtain ⟨unreported, atBlock⟩ := not_or.mp halts
  unfold blockHdr
  rw [if_neg unreported, if_neg atBlock]
  have fits : Deflate.Fits frame.stopAtBlock (prior.length + frame.outSize) d := by
    rw [← kept]
    exact room.resolve_left fun halting => atBlock halting.2.2.2
  have ready : Ready origin prior committed frame d c d := ⟨.refl d, fits, fun _ _ => rfl, core, kept⟩
  apply ready.needing (block_rests stage bits) header_short
  · exact fun other same => .block phase idle stage (bits.trans same.symm)
  intro bits₁ ready₁ rests₁ there₁ same₁
  apply ready₁.getting rests₁ (by show 1 ≤ bits₁.bitcnt; omega)
  intro final bits₂ _ ready₂ rests₂ left₂ length₂
  dsimp only [Call.setBits] at left₂ length₂
  apply ready₂.getting rests₂ (by show 2 ≤ bits₂.bitcnt; omega)
  intro type bits₃ _ ready₃ rests₃ left₃ length₃
  dsimp only [Call.setBits] at left₃ length₃
  rw [same₁] at length₂
  have light : 32 * bits₃.stream.length + 15 < weight := by omega
  have started : Ready origin prior committed frame d { c.setBits bits₃ with
      s := { (c.setBits bits₃).s with bfinal := final ≠ 0, btype := type } } d :=
    { ready₃ with core := { ready₃.core with } }
  dsimp only
  by_cases isStored : type = 0
  · rw [if_pos isStored]
    rw [if_pos isStored] at rests₃
    obtain ⟨aligned, rests, length⟩ := started.align rests₃
    refine Ready.dispatch { aligned with core := { aligned.core with } } rfl
      (.storedLen rfl idle rests) ?_
    show 32 * bits₃.align.stream.length + 1 < weight
    replace length : bits₃.align.stream.length ≤ bits₃.stream.length := length
    omega
  rw [if_neg isStored]
  rw [if_neg isStored] at rests₃
  by_cases isFixed : type = 1
  · rw [if_pos isFixed]
    rw [if_pos isFixed] at rests₃
    exact fixed_follows started idle at' rests₃ light
  rw [if_neg isFixed]
  rw [if_neg isFixed] at rests₃
  by_cases isDynamic : type = 2
  · rw [if_pos isDynamic]
    rw [if_pos isDynamic] at rests₃
    exact Ready.dispatches { started with core := { started.core with } } at'
      (.dynamic rfl idle (.counts rfl rests₃ rfl)) light
  · rw [if_neg isDynamic]
    rw [if_neg isDynamic] at rests₃
    exact started.fail (rests₃.wrong rfl)

include ready

/-- A stored block's length is read as the format reads it. -/
theorem storedLen_follows (phase : c.s.phase = .storedLen) (idle : c.s.ldStep = 0) (at' : c.pc = .dispatch)
    (rests : Rests c.s e (storedHeader c.s.bfinal) (headerNext e.out))
    (heavy : 32 * c.s.bits.stream.length < weight) :
    Follows origin prior committed weight frame d (storedLen c) := by
  unfold storedLen
  apply ready.needing rests storedHeader_short
  · intro other same
    refine .storedLen phase idle ?_
    unfold Rests
    rw [show (c.setBits other).s.bits.stream = c.s.bits.stream from same]
    exact rests
  intro bits₁ ready₁ rests₁ there₁ same₁
  apply ready₁.getting rests₁ (by show 16 ≤ bits₁.bitcnt; omega)
  intro len bits₂ _ ready₂ rests₂ left₂ length₂
  dsimp only [Call.setBits] at left₂ length₂
  apply ready₂.getting rests₂ (by show 16 ≤ bits₂.bitcnt; omega)
  intro complement bits₃ _ ready₃ rests₃ left₃ length₃
  dsimp only [Call.setBits] at left₃ length₃
  rw [same₁] at length₂
  dsimp only
  by_cases wrong : len ^^^ 0xFFFF ≠ complement
  · rw [if_pos wrong]
    rw [if_pos wrong] at rests₃
    exact ready₃.fail (rests₃.wrong rfl)
  · rw [if_neg wrong]
    rw [if_neg wrong] at rests₃
    have moves := rests₃.moves rfl
    refine Ready.dispatches (ready₃.leads moves nofun { ready₃.core with } ready₃.kept) at'
      (.stored rfl idle rfl rfl) ?_
    show 32 * bits₃.stream.length + 15 < weight
    omega

omit ready

theorem number_ofByte (byte : UInt8) (rest : BitString) :
    number 8 (ofByte byte ++ rest) = .read byte.toNat rest := by
  have whole : 8 ≤ (ofByte byte ++ rest).length := by
    rw [append_length, ofByte_length]
    omega
  have low : (ofByte byte ++ rest).low 8 = byte.toNat := by
    rw [low_append (by rw [ofByte_length])]
    exact mod_eq_of_lt byte.toNat_lt
  rw [number_read whole, low]
  congr 1
  exact drop_append_length (ofByte byte) rest

theorem stored_span (stop final : Bool) (left : Nat) (rest : List UInt8) (bytes : List UInt8) :
    ∀ out : List UInt8, Span stop ⟨.stored (bytes.length + left) final, out, ofBytes (bytes ++ rest)⟩
        ⟨.stored left final, out ++ bytes, ofBytes rest⟩ := by
  induction bytes with
  | nil =>
    intro out
    rw [length_nil, zero_add, append_nil]
    exact .refl _
  | cons byte bytes ih =>
    intro out
    have count : (byte :: bytes).length + left = bytes.length + left + 1 := by
      rw [length_cons]
      omega
    have onward := ih (out ++ [byte])
    rw [List.append_assoc, singleton_append] at onward
    rw [count]
    refine .step ?_ onward nofun
    simp only [Decoder.step, cons_append, ofBytes_cons, number_ofByte, continue', UInt8.ofNat_toNat]

/-- Whole bytes are taken from an input that no bits are buffered of. -/
theorem Bits.After.bytes {bits : Bits} {k n : Nat} (after : origin.After bits k)
    (unbuffered : bits.bitcnt = 0) (there : n ≤ bits.unread.length) :
    bits.stream = ofBytes bits.unread ∧
      origin.After { bits with inPos := bits.inPos + n, unread := bits.unread.drop n }
        (k + 8 * n) := by
  have empty : bits.buffered = BitString.empty := by
    ext
    · rw [buffered_value after.valid]
      have small := after.valid
      rw [Bits.Valid, unbuffered] at small
      simp only [empty_value]
      omega
    · exact unbuffered
  have stream : bits.stream = ofBytes bits.unread := by rw [Bits.stream, empty, empty_append]
  have dropped : (ofBytes bits.unread).drop (8 * n) = ofBytes (bits.unread.drop n) := by
    have split := congrArg ofBytes (take_append_drop n bits.unread)
    have length : (ofBytes (bits.unread.take n)).length = 8 * n := by
      rw [ofBytes_length, length_take, min_eq_left there]
    rw [ofBytes_append] at split
    rw [← split, ← length, drop_append_length]
  refine ⟨stream, after.trans ⟨after.valid, ?_, ?_, ?_⟩⟩
  · show bits.buffered ++ ofBytes (bits.unread.drop n) = _
    rw [stream, dropped, empty, empty_append]
  · rw [stream, ofBytes_length]
    omega
  · simp only [Bits.total, length_drop]
    omega

theorem Core.stored {s : State} {out : List UInt8} (core : Core origin prior committed s out)
    (bytes : List UInt8) :
    Core origin prior committed { s with
      out := store s.out s.outPos bytes, outPos := s.outPos + bytes.length } (out ++ bytes) := by
  have inside := core.history.inside
  have stored := store_take inside bytes
  have grown := core.grow (store s.out s.outPos bytes)
    (show s.outPos + bytes.length ≤ _ by rw [store_length inside]; exact le_max_right _ _)
    (store_before inside bytes (le_refl _)) (le_add_right _ _)
  rw [stored, ← List.append_assoc, ← State.produced, core.output] at grown
  exact grown

section Stored

variable (ready : Ready origin prior committed frame d c e)
  (phase : c.s.phase = .storedData) (idle : c.s.ldStep = 0)
  (stage : e.stage = .stored c.s.storedLen c.s.bfinal) (bits : e.bits = c.s.bits.stream)
  (less : 32 * c.s.bits.stream.length + 2 < weight)

include ready phase idle stage bits less

theorem storedBytes_on : Follows origin prior committed weight frame d (c.goto .storedBytes) :=
  Ready.on (c := { c with pc := .storedBytes }) { ready with } rfl
    (.stored phase idle stage bits) phase less

theorem storedBulk_follows : Follows origin prior committed weight frame d (storedBulk c) := by
  unfold storedBulk
  by_cases bulk : 0 < c.s.storedLen ∧ c.s.bits.bitcnt = 0
  swap
  · rw [if_neg bulk]
    exact storedBytes_on ready phase idle stage bits less
  rw [if_pos bulk]
  obtain ⟨some, unbuffered⟩ := bulk
  obtain ⟨k, input⟩ := ready.core.input
  have count : min c.s.storedLen c.s.bits.unread.length ≤ c.s.bits.unread.length := min_le_right _ _
  obtain ⟨stream, taken⟩ := input.bytes unbuffered count
  -- The format copies what the block and the input have left, and there is room for it.
  have width : (c.s.bits.unread.take (min c.s.storedLen c.s.bits.unread.length)).length =
      min c.s.storedLen c.s.bits.unread.length := by
    rw [length_take, min_eq_left count]
  have span := stored_span frame.stopAtBlock c.s.bfinal
    (c.s.storedLen - min c.s.storedLen c.s.bits.unread.length)
    (c.s.bits.unread.drop (min c.s.storedLen c.s.bits.unread.length))
    (c.s.bits.unread.take (min c.s.storedLen c.s.bits.unread.length)) e.out
  rw [width, Nat.add_sub_cancel' (Nat.min_le_left _ _), take_append_drop, ← stream, ← bits, ← stage] at span
  have room := ready.reserve span (n := min c.s.storedLen c.s.bits.unread.length) (by
    rw [length_append, width])
  have whole : min (min c.s.storedLen c.s.bits.unread.length) (c.s.outSize - c.s.outPos) =
      min c.s.storedLen c.s.bits.unread.length := by omega
  simp only [whole]
  generalize def' : min c.s.storedLen c.s.bits.unread.length = n at *
  have stored := ready.core.stored (c.s.bits.unread.take n)
  rw [width] at stored
  have copied : Ready origin prior committed frame d { c with s := { c.s with
      out := store c.s.out c.s.outPos (c.s.bits.unread.take n)
      outPos := c.s.outPos + n
      bits := { c.s.bits with
        inPos := c.s.bits.inPos + n, unread := c.s.bits.unread.drop n }
      storedLen := c.s.storedLen - n } }
      ⟨.stored (c.s.storedLen - n) c.s.bfinal, e.out ++ c.s.bits.unread.take n,
        ofBytes (c.s.bits.unread.drop n)⟩ :=
    ready.leadsAll span nofun { stored with input := ⟨_, taken⟩ } ready.kept
  have rest := (taken.bytes (n := 0) unbuffered (zero_le _)).1
  by_cases more : 0 < c.s.storedLen - n
  · -- The input has run out within the block.
    have exhausted : c.s.bits.unread.drop n = [] := drop_eq_nil_of_le (by omega)
    rw [if_pos more]
    refine copied.suspend (.stored phase idle rfl rest.symm) ?_ exhausted
    obtain ⟨left, count⟩ : ∃ left, c.s.storedLen - n = left + 1 := ⟨c.s.storedLen - n - 1, by omega⟩
    rw [count, exhausted]
    rfl
  · rw [if_neg more]
    refine storedBytes_on copied phase idle rfl rest.symm ?_
    have before := input.length
    have after := taken.length
    dsimp only
    omega

theorem storedData_follows : Follows origin prior committed weight frame d (storedData c) := by
  unfold storedData
  rw [ready.core.noLit]
  exact storedBulk_follows ready phase idle stage bits less

end Stored

/-- What a stored byte adds. -/
def storedNext (left : Nat) (final : Bool) (out : List UInt8) (byte : Nat) : Option (Stage × List UInt8) :=
  some (.stored left final, out ++ [UInt8.ofNat byte])

theorem stored_rests {s : State} {left : Nat} {final : Bool}
    (stage : e.stage = .stored (left + 1) final) (bits : e.bits = s.bits.stream) :
    Rests s e ((number 8).andThen done) (storedNext left final e.out) := by
  intro bytes
  unfold Decoder.step Decoder.more
  rw [stage, bits]
  simp only [andThen]
  cases number 8 (s.bits.stream ++ ofBytes bytes) <;> rfl

include ready

theorem Ready.emit {f : Decoder} {b : UInt8}
    (moves : e.step = .next f) (added : f.out = e.out ++ [b]) (passes : f.stage ≠ .block) :
    rinfEmit c.s b = some { c.s with
        out := store c.s.out c.s.outPos [b], outPos := c.s.outPos + 1 } ∧
      Ready origin prior committed frame d { c with s := { c.s with
        out := store c.s.out c.s.outPos [b], outPos := c.s.outPos + 1 } } f := by
  have room := ready.reserve (.one moves) (n := 1) (by rw [added, length_append, length_singleton])
  have stored := ready.core.stored [b]
  refine ⟨if_neg (by omega), ready.leads moves passes ?_ ready.kept⟩
  rw [added]
  exact stored

/-- The second loop of a stored block copies bytes as the format does. -/
theorem storedBytes_follows
    (phase : c.s.phase = .storedData) (idle : c.s.ldStep = 0) (at' : c.pc = .storedBytes)
    (stage : e.stage = .stored c.s.storedLen c.s.bfinal) (bits : e.bits = c.s.bits.stream)
    (less : 32 * c.s.bits.stream.length + 1 < weight) :
    Follows origin prior committed weight frame d (storedBytes c) := by
  unfold storedBytes
  by_cases more : 0 < c.s.storedLen
  · rw [if_pos more]
    obtain ⟨left, count⟩ : ∃ left, c.s.storedLen = left + 1 := ⟨c.s.storedLen - 1, by omega⟩
    have rests := stored_rests (count ▸ stage) bits
    apply ready.needing rests (n := 8)
    · intro few
      rw [andThen, number_short few]
    · exact fun other same => .stored phase idle stage (bits.trans same.symm)
    intro bits₁ ready₁ rests₁ there₁ same₁
    apply ready₁.getting rests₁ there₁
    intro v bits₂ _ ready₂ rests₂ left₂ length₂
    dsimp only [Call.setBits] at length₂
    rw [same₁] at length₂
    obtain ⟨emitted, copied⟩ := ready₂.emit (rests₂.moves rfl) rfl (by rintro ⟨⟩)
    simp only [emitted]
    have view : ∀ s, Call.view { c with s := s } = s := by
      intro s
      unfold Call.view
      simp only [at']
    refine Ready.onward (e := ⟨.stored left c.s.bfinal, e.out ++ [UInt8.ofNat v], bits₂.stream⟩)
      { copied with core := { copied.core with } } (view _) (.stored phase idle ?_ rfl) ?_ ?_
    · show Stage.stored left c.s.bfinal = .stored (c.s.storedLen - 1) c.s.bfinal
      rw [count, Nat.add_sub_cancel]
    · show Pc.Fits _ c.pc
      rw [at']
      exact phase
    · show 32 * bits₂.stream.length + 20 < weight
      omega
  · rw [if_neg more]
    have none : c.s.storedLen = 0 := by omega
    rw [none] at stage
    have moves : e.step = .next { e with stage := afterBlock c.s.bfinal } := by
      unfold Decoder.step
      rw [stage]
    exact blockEnd_follows ready moves rfl idle bits ready.core less

end Libretro.Inflate
