import Libretro.Encodings.InflateDecode
import Libretro.Encodings.InflateCopies
import Libretro.Library.DeflateLaws

/-! What a call in the body of a stream has in common with the format's decoder. -/

namespace Libretro.Inflate

open BitString BitString.Parser Deflate CanonicalCode Nat

/-- The bytes of the input that have been looked at and those that have not. -/
def Bits.total (bits : Bits) : Nat := bits.inPos + bits.unread.length

/-- What is left of some bits once the first ones have been read. -/
structure Bits.After (before after : Bits) (n : Nat) : Prop where
  valid : after.Valid
  stream : after.stream = before.stream.drop n
  within : n ≤ before.stream.length
  total : after.total = before.total

variable {before bits : Bits} {k : Nat}

theorem Bits.After.refl (valid : before.Valid) : before.After before 0 :=
  ⟨valid, (drop_zero _).symm, zero_le _, rfl⟩

theorem Bits.After.same (after : before.After bits k) {other : Bits} (valid : other.Valid)
    (stream : other.stream = bits.stream) (total : other.total = bits.total) :
    before.After other k :=
  ⟨valid, stream.trans after.stream, after.within, total.trans after.total⟩

theorem Bits.After.length (after : before.After bits k) : bits.stream.length + k = before.stream.length := by
  have within := after.within
  rw [after.stream, drop_length]
  omega

variable {n : Nat}

theorem Bits.After.shift (after : before.After bits k) (there : n ≤ bits.bitcnt) :
    before.After (bits.shift n) (k + n) := by
  obtain ⟨valid, stream⟩ := shift_stream after.valid there
  have length := after.length
  have long := stream_length bits
  refine ⟨valid, ?_, by omega, after.total⟩
  rw [stream, after.stream, drop_drop]

theorem Bits.After.trans (after : before.After bits k) {last : Bits}
    (later : bits.After last n) : before.After last (k + n) := by
  have length := after.length
  have within := later.within
  refine ⟨later.valid, ?_, by omega, later.total.trans after.total⟩
  rw [later.stream, after.stream, drop_drop]

theorem fill_total (limit : Nat) (bytes : List UInt8) : ∀ bits : Bits, bits.unread = bytes →
    (fill limit bytes bits).total = bits.total := by
  induction bytes with
  | nil => exact fun _ _ => rfl
  | cons byte rest ih =>
    intro bits unread
    rw [fill]
    split
    · rw [ih _ rfl]
      simp only [Bits.total, unread, List.length_cons]
      omega
    · rfl

theorem rinfNeed_total (n : Nat) (bits : Bits) : (rinfNeed n bits).2.total = bits.total :=
  fill_total n bits.unread bits rfl

theorem decodeSlow_total (h : Huff) (n : Nat) : ∀ (len rev : Nat) (bits : Bits),
    (decodeSlow h n len rev bits).2.total = bits.total := by
  induction n with
  | zero => exact fun _ _ _ => rfl
  | succ n ih =>
    intro len rev bits
    have need := rinfNeed_total len bits
    rw [decodeSlow]
    dsimp only
    split
    · split
      · exact need
      · exact (ih _ _ _).trans need
    · exact need

theorem rinfDecode_total (h : Huff) (bits : Bits) : (rinfDecode h bits).2.total = bits.total := by
  have filled := fill_total 57 bits.unread bits rfl
  rw [rinfDecode]
  dsimp only
  split
  · split
    · exact filled
    · exact filled
  · exact (decodeSlow_total h _ _ _ _).trans filled

theorem fastRefill_total (more : 8 ≤ bits.unread.length) : (fastRefill bits).total = bits.total := by
  have few : (63 - bits.bitcnt) >>> 3 ≤ 7 := by
    rw [shiftRight_eq_div_pow]
    omega
  simp only [Bits.total, fastRefill, List.length_drop]
  omega

/-- A symbol that is decoded is what the format reads, and so is the want of one. -/
theorem Bits.After.decode (after : before.After bits k) {h : Huff} {lengths : List Nat}
    (built : Built h lengths) :
    match (rinfDecode h bits).1 with
    | .sym sym => ∃ n, 1 ≤ n ∧ before.After (rinfDecode h bits).2 (k + n) ∧
        read lengths maxBits bits.stream = .read sym (rinfDecode h bits).2.stream
    | .short => before.After (rinfDecode h bits).2 k ∧ (rinfDecode h bits).2.unread = [] ∧
        read lengths maxBits bits.stream = .short
    | .invalid => before.After (rinfDecode h bits).2 k ∧
        read lengths maxBits bits.stream = .wrong := by
  obtain ⟨valid, spec⟩ := rinfDecode_spec built after.valid
  have total := rinfDecode_total h bits
  cases found : (rinfDecode h bits).1 with
  | sym sym =>
    rw [found] at spec
    obtain ⟨n, some, within, dropped⟩ := readFrom_drop (le_refl 1) spec
    exact ⟨n, some, after.trans ⟨valid, dropped, within, total⟩, spec⟩
  | short =>
    rw [found] at spec
    exact ⟨after.same valid spec.2.1 total, spec.2.2, spec.1⟩
  | invalid =>
    rw [found] at spec
    exact ⟨after.same valid spec.2 total, spec.1⟩

/-- Tables that say what the codes of a block say, in both their forms. -/
structure Tables (lencode distcode : Huff) (literals distances : List Nat) : Prop where
  lit : Built lencode literals
  litPacked : ∀ j, lencode.pfast j = packLen (lencode.fast j)
  dist : Built distcode distances
  distPacked : ∀ j, distcode.pfast j = packDist (distcode.fast j)

/-- What a run of code lengths adds. -/
def lengthsNext (literals distances : Nat) (code known : List Nat) (final : Bool)
    (out : List UInt8) (run : List Nat) : Option (Stage × List UInt8) :=
  if literals + distances < known.length + run.length then none
  else some (.lengths literals distances code (known ++ run) final, out)

/-- What a token adds. -/
def symbolsNext (literals distances : List Nat) (final : Bool) (out : List UInt8) :
    Token → Option (Stage × List UInt8)
  | .literal byte => some (.symbols literals distances final, out ++ [byte])
  | .blockEnd => some (afterBlock final, out)
  | .copy length distance =>
    if out.length < distance then none
    else some (.symbols literals distances final, BackReference.copyBack distance length out)

/-- What a block's header leads to. -/
def headerNext (out : List UInt8) (stage : Stage) : Option (Stage × List UInt8) := some (stage, out)

/-- The decoder's step is at a parser, with the unread bits before it. -/
def Rests {α : Type} (s : State) (d : Decoder) (parser : Parser α)
    (next : α → Option (Stage × List UInt8)) : Prop :=
  d.Resumes (fun bits => continue' (parser bits) next) s.bits.stream

/-- The counts of a dynamic block's header. -/
structure Counts (s : State) (literals distances : Nat) : Prop where
  hlit : s.hlit = literals
  hdist : s.hdist = distances
  few : literals ≤ 288
  fewToo : distances ≤ 32

/-- The code lengths that are known, and the table they are read by. -/
structure Known (s : State) (literals distances : Nat) (code known : List Nat) : Prop
    extends Counts s literals distances where
  listed : s.hclen ≤ s.clcodesRead
  isBuilt : s.clcodeBuilt = true
  table : Built s.clcode code
  count : s.lengthsHave = known.length
  front : s.lengths.take known.length = known
  size : s.lengths.length = 320
  within : known.length ≤ literals + distances

/-- Where a decoder stands in a dynamic block's header. -/
inductive Dynamic (s : State) (d : Decoder) : Prop
  | counts (unread : s.hlit = -1) (rest : Rests s d (dynamicHeader s.bfinal) (headerNext d.out))
      (empty : s.lengthsHave = 0)
  | codes (literals distances left : Nat) (listed : List Nat) (counts : Counts s literals distances)
      (all : s.hclen = (listed.length + left : Nat)) (few : listed.length + left ≤ 19)
      (read : s.clcodesRead = listed.length) (unbuilt : s.clcodeBuilt = false)
      (lengths : s.clLengths = inOrder listed) (pending : s.clPendingSym = -1)
      (empty : s.lengthsHave = 0) (size : s.lengths.length = 320)
      (rest : Rests s d (dynamicRest s.bfinal literals distances left listed) (headerNext d.out))
  | lengths (literals distances : Nat) (code known : List Nat)
      (facts : Known s literals distances code known) (pending : s.clPendingSym = -1)
      (stage : d.stage = .lengths literals distances code known s.bfinal)
      (bits : d.bits = s.bits.stream)
  | run (literals distances : Nat) (code known : List Nat) (sym : Nat)
      (facts : Known s literals distances code known) (pending : s.clPendingSym = sym)
      (repeats : 16 ≤ sym) (more : known.length < literals + distances)
      (rest : Rests s d (lengthRun known sym) (lengthsNext literals distances code known s.bfinal d.out))

/-- Where a decoder stands in a group of a compressed block. -/
inductive Group (s : State) (d : Decoder) (literals distances : List Nat) : Prop
  | symbol (idle : s.copyActive = false) (step : s.ldStep = 0)
      (rest : Rests s d (token literals distances) (symbolsNext literals distances s.bfinal d.out))
  | length (idle : s.copyActive = false) (step : s.ldStep = 1) (isLength : s.ldLensym < 29)
      (rest : Rests s d (lengthRest distances s.ldLensym) (symbolsNext literals distances s.bfinal d.out))
  | distance (idle : s.copyActive = false) (step : s.ldStep = 2) (long : 0 < s.ldLength)
      (rest : Rests s d (distancePart distances s.ldLength) (symbolsNext literals distances s.bfinal d.out))
  | extra (idle : s.copyActive = false) (step : s.ldStep = 3) (long : 0 < s.ldLength)
      (isDist : s.ldDistsym < 30)
      (rest : Rests s d (distanceRest s.ldLength s.ldDistsym) (symbolsNext literals distances s.bfinal d.out))
  | copy (active : s.copyActive = true) (long : 0 < s.copyLen) (back : 0 < s.copyDist)
      (near : s.copyDist ≤ 32768)
      (rest : Rests s d (done (.copy s.copyLen s.copyDist)) (symbolsNext literals distances s.bfinal d.out))

/-- Where a decoder stands in the body of a stream. -/
inductive Place (s : State) (d : Decoder) : Prop
  | block (phase : s.phase = .blockHdr) (idle : s.ldStep = 0) (stage : d.stage = .block)
      (bits : d.bits = s.bits.stream)
  | storedLen (phase : s.phase = .storedLen) (idle : s.ldStep = 0)
      (rest : Rests s d (storedHeader s.bfinal) (headerNext d.out))
  | stored (phase : s.phase = .storedData) (idle : s.ldStep = 0)
      (stage : d.stage = .stored s.storedLen s.bfinal) (bits : d.bits = s.bits.stream)
  | dynamic (phase : s.phase = .dynTable) (idle : s.ldStep = 0) (place : Dynamic s d)
  | symbols (phase : s.phase = .blockData) (literals distances : List Nat)
      (tables : Tables s.lencode s.distcode literals distances)
      (group : Group s d literals distances)
  | ended (phase : s.phase = rinfEndPhase s.wrap) (stage : d.stage = .finished)
      (bits : d.bits = s.bits.stream)

/-- What is the same wherever a decoder stands: the input, the output and the fixed tables. -/
structure Core (origin : Bits) (prior : List UInt8) (committed : Nat) (s : State)
    (out : List UInt8) : Prop where
  input : ∃ n, origin.After s.bits n
  history : History s prior committed
  output : s.produced prior = out
  noLit : s.havePendingLit = false
  stops : s.blockReady = true → s.stopAtBlock = true
  fixed : s.fixedLoaded = true → Tables s.lencode s.distcode fixedLitLengths fixedDistLengths

/-- A decoder between its passes, and the format's decoder. -/
structure Body (origin : Bits) (prior : List UInt8) (committed : Nat) (s : State) (d : Decoder) : Prop where
  core : Core origin prior committed s d.out
  place : Place s d

/-- The decoder of a call as it is when the locals are written back. -/
def Call.view (c : Call) : State :=
  match c.pc with
  | .fast l => (c.writeBack l).s
  | .chain l _ => (c.writeBack l).s
  | _ => c.s

/-- What holds of a state where its call stands. -/
def Pc.Fits (s : State) : Pc → Prop
  | .enter => True
  | .dispatch => True
  | .storedBytes => s.phase = .storedData
  | .fastAgain => s.phase = .blockData
  | .careful => s.phase = .blockData
  | .fast l => s.phase = .blockData ∧ s.copyActive = false ∧ s.ldStep = 0 ∧
      ∀ e, l.pre = some e → 15 ≤ l.bits.bitcnt ∧ e = s.lencode.pfast (l.bits.peek rinfFastBits)
  | .chain l e => s.phase = .blockData ∧ s.copyActive = false ∧ s.ldStep = 0 ∧ l.pre = none ∧
      15 ≤ l.bits.bitcnt ∧ e = s.lencode.pfast (l.bits.peek rinfFastBits)

/-- The careful loop's way back to the fast one. -/
abbrev Resumable (s : State) : Prop :=
  ¬s.copyActive ∧ s.ldStep = 0 ∧ ¬s.havePendingLit ∧ 8 ≤ s.bits.unread.length ∧
    s.outPos + 258 + 16 ≤ s.outSize

/-- The phases in the order in which they lead on without reading. -/
def Phase.rank (built : Bool) : Phase → Nat
  | .hdrSniff => 15
  | .zheader => 14
  | .gzheader => 14
  | .gzExtra => 6
  | .gzName => 5
  | .gzComment => 4
  | .gzHcrc => 3
  | .blockHdr => 1
  | .storedLen => 1
  | .storedData => 3
  | .dynTable => if built then 13 else 14
  | .blockData => 12
  | .adler => 1
  | .gzcrc => 1
  | .done => 0

/-- The places of a call in the order in which they lead on without reading. -/
def Call.rank (c : Call) : Nat :=
  match c.pc with
  | .enter => 20
  | .dispatch => c.s.phase.rank c.s.clcodeBuilt
  | .storedBytes => 2
  | .fastAgain => 9
  | .fast _ => 6
  | .chain l _ => if l.bits.bitcnt < 48 then 7 else 3
  | .careful => if Resumable c.s then 10 else if c.s.copyActive then 1 else 2

/-- How far a call is from its return: what is left to read weighs more than any place. -/
def Call.weight (c : Call) : Nat := 32 * c.view.bits.stream.length + c.rank

theorem phase_rank_le (phase : Phase) (built : Bool) : phase.rank built ≤ 15 := by
  cases phase <;> cases built <;> decide

theorem weight_le (c : Call) : c.weight ≤ 32 * c.view.bits.stream.length + 20 := by
  unfold Call.weight Call.rank
  cases c.pc with
  | dispatch =>
    have light := phase_rank_le c.s.phase c.s.clcodeBuilt
    dsimp only
    omega
  | chain l e =>
    dsimp only
    split <;> omega
  | careful =>
    dsimp only
    split
    · omega
    · split <;> omega
  | _ => simp

/-- What passes through the body of a stream leave as it is. -/
structure Frame where
  wrap : Wrap
  wrapped : Bool
  stopAtBlock : Bool
  skipBits : Nat
  outSize : Nat
  adler : UInt32
  adlerRead : UInt32
  adlerHave : Nat
  crc : UInt32
  totalOut : UInt32
  inStart : Nat
  outStart : Nat
  foldStart : Nat

/-- The frame of a call. -/
def Call.frame (c : Call) : Frame :=
  { wrap := c.s.wrap, wrapped := c.s.wrapped, stopAtBlock := c.s.stopAtBlock
    skipBits := c.s.skipBits, outSize := c.s.outSize, adler := c.s.adler
    adlerRead := c.s.adlerRead, adlerHave := c.s.adlerHave, crc := c.s.crc
    totalOut := c.s.totalOut, inStart := c.inStart, outStart := c.outStart
    foldStart := c.foldStart }

/-- A call comes back at a block's head before it reads or stores anything. -/
def Call.Halting (c : Call) : Prop :=
  c.pc = .dispatch ∧ c.s.phase = .blockHdr ∧ c.s.stopAtBlock = true ∧ c.s.blockReady = true

/-- A call in the body of a stream, and the format's decoder. -/
structure Related (origin : Bits) (prior : List UInt8) (committed : Nat) (c : Call) (d : Decoder) : Prop where
  body : Body origin prior committed c.view d
  fits : c.pc.Fits c.s
  room : c.Halting ∨ Deflate.Fits c.s.stopAtBlock (prior.length + c.s.outSize) d

/-- What a turn has to do with the decoder that the pass started from. -/
inductive Follows (origin : Bits) (prior : List UInt8) (committed weight : Nat) (frame : Frame)
    (d : Decoder) : Turn → Prop
  | on {c : Call} {e : Decoder} (span : Span frame.stopAtBlock d e)
      (away : frame.stopAtBlock = true → e.stage = .block → e = d ∨ c.Halting)
      (related : Related origin prior committed c e) (kept : c.frame = frame)
      (less : c.weight < weight) : Follows origin prior committed weight frame d (.on c)
  | suspend {c : Call} {e : Decoder} (span : Span frame.stopAtBlock d e)
      (body : Body origin prior committed c.s e) (short : e.step = .short)
      (exhausted : c.s.bits.unread = []) (kept : c.frame = frame) :
      Follows origin prior committed weight frame d (suspend c)
  | fail {c : Call} {e : Decoder} (span : Span frame.stopAtBlock d e)
      (inside : c.s.outPos ≤ c.s.out.length) (output : c.s.produced prior = e.out)
      (wrong : e.step = .wrong) (kept : c.frame = frame) :
      Follows origin prior committed weight frame d (fail c)
  | halt {c : Call} {e : Decoder} (span : Span frame.stopAtBlock d e)
      (body : Body origin prior committed c.s e) (stage : e.stage = .block)
      (bits : e.bits = c.s.bits.stream) (phase : c.s.phase = .blockHdr) (kept : c.frame = frame)
      (stops : c.s.stopAtBlock = true) :
      Follows origin prior committed weight frame d (finish c .block)

section Reading

variable {P : Turn → Prop} {c : Call} {n : Nat}

theorem needing_cases (after : before.After c.s.bits k) {next : Call → Turn}
    (enough : ∀ bits, before.After bits k → n ≤ bits.bitcnt → P (next (c.setBits bits)))
    (few : ∀ bits, before.After bits k → bits.unread = [] → bits.stream.length < n →
      P (suspend (c.setBits bits))) : P (needing n c next) := by
  obtain ⟨valid, stream, found, missed⟩ := rinfNeed_spec n after.valid
  have total := rinfNeed_total n c.s.bits
  have kept := after.same valid stream total
  unfold needing
  dsimp only
  cases there : (rinfNeed n c.s.bits).1 with
  | true => exact enough _ kept (found there)
  | false =>
    obtain ⟨short, exhausted⟩ := missed there
    exact few _ kept exhausted (by rw [stream]; exact short)

theorem getting_cases (after : before.After c.s.bits k) (there : n ≤ c.s.bits.bitcnt)
    {next : Nat → Call → Turn}
    (taken : ∀ bits, before.After bits (k + n) → bits.bitcnt = c.s.bits.bitcnt - n →
      c.s.bits.stream.drop n = bits.stream → P (next (c.s.bits.stream.low n) (c.setBits bits))) :
    P (getting n c next) := by
  have value := peek_eq after.valid (.inl there)
  have shifted := shift_stream after.valid there
  have read := taken (c.s.bits.shift n) (after.shift there) rfl shifted.2.symm
  rw [← value] at read
  exact read

end Reading

variable {α β : Type} {s after : State} {d : Decoder} {first : Parser α}
  {following : α → Parser β} {next : β → Option (Stage × List UInt8)}

theorem Rests.number {following : Nat → Parser β}
    (rests : Rests s d ((number n).andThen following) next) (after : State)
    (there : n ≤ s.bits.stream.length) (dropped : s.bits.stream.drop n = after.bits.stream) :
    Rests after d (following (s.bits.stream.low n)) next := by
  unfold Rests
  rw [← dropped]
  exact Decoder.Resumes.read rests (number_stable n) (number_read there)

theorem Rests.symbol {lengths : List Nat} {following : Nat → Parser β} {sym : Nat}
    (rests : Rests s d ((read lengths maxBits).andThen following) next)
    (after : State) (read : read lengths maxBits s.bits.stream = .read sym after.bits.stream) :
    Rests after d (following sym) next :=
  Decoder.Resumes.read rests (read_stable _ _) read

variable {parser : Parser β}

theorem Rests.short (rests : Rests s d parser next)
    (few : parser s.bits.stream = .short) : d.step = .short := by
  rw [rests.now, few]
  rfl

theorem Rests.wrong (rests : Rests s d parser next)
    (never : parser s.bits.stream = .wrong) : d.step = .wrong := by
  rw [rests.now, never]
  rfl

theorem Rests.moves {value : β} (rests : Rests s d (done value) next) {stage : Stage}
    {out : List UInt8} (added : next value = some (stage, out)) :
    d.step = .next { stage := stage, out := out, bits := s.bits.stream } := by
  rw [rests.now]
  simp only [done, continue', added]

theorem Rests.refused {value : β} (rests : Rests s d (done value) next)
    (refuses : next value = none) : d.step = .wrong := by
  rw [rests.now]
  simp only [done, continue', refuses]

/-- How far a pass has come: a decoder that the format's decoder led to, with room to go on. -/
structure Ready (origin : Bits) (prior : List UInt8) (committed : Nat) (frame : Frame)
    (d : Decoder) (c : Call) (e : Decoder) : Prop where
  span : Span frame.stopAtBlock d e
  room : Deflate.Fits frame.stopAtBlock (prior.length + frame.outSize) e
  away : frame.stopAtBlock = true → e.stage = .block → e = d
  core : Core origin prior committed c.s e.out
  kept : c.frame = frame

variable {origin : Bits} {prior : List UInt8} {committed weight : Nat} {frame : Frame} {c : Call}
  {e f : Decoder}

variable (ready : Ready origin prior committed frame d c e)
include ready

theorem Ready.setBits
    (after : origin.After bits k) : Ready origin prior committed frame d (c.setBits bits) e :=
  { ready with core := { ready.core with input := ⟨k, after⟩ } }

theorem Ready.leadsAll (span : Span frame.stopAtBlock e f) (passes : f.stage ≠ .block) {after : Call}
    (core : Core origin prior committed after.s f.out) (kept : after.frame = frame) :
    Ready origin prior committed frame d after f where
  span := ready.span.trans span ready.away
  room := ready.room.rest span fun _ atBlock => absurd atBlock passes
  away := fun _ atBlock => absurd atBlock passes
  core := core
  kept := kept

theorem Ready.leads (moves : e.step = .next f) (passes : f.stage ≠ .block) {after : Call}
    (core : Core origin prior committed after.s f.out) (kept : after.frame = frame) :
    Ready origin prior committed frame d after f :=
  ready.leadsAll (.one moves) passes core kept

theorem Ready.on (view : c.view = c.s)
    (place : Place c.s e) (fits : c.pc.Fits c.s) (less : c.weight < weight) :
    Follows origin prior committed weight frame d (.on c) := by
  have room := ready.room
  rw [← ready.kept] at room
  exact .on ready.span (fun stops atBlock => .inl (ready.away stops atBlock))
    ⟨⟨by rw [view]; exact ready.core, by rw [view]; exact place⟩, fits, .inr room⟩ ready.kept less

theorem Ready.onward (view : c.view = c.s) (place : Place c.s e) (fits : c.pc.Fits c.s)
    (light : 32 * c.s.bits.stream.length + 20 < weight) :
    Follows origin prior committed weight frame d (.on c) := by
  refine ready.on view place fits (lt_of_le_of_lt (weight_le c) ?_)
  rw [view]
  exact light

theorem Ready.suspend (place : Place c.s e) (short : e.step = .short) (exhausted : c.s.bits.unread = []) :
    Follows origin prior committed weight frame d (suspend c) :=
  .suspend ready.span ⟨ready.core, place⟩ short exhausted ready.kept

theorem Ready.fail (wrong : e.step = .wrong) : Follows origin prior committed weight frame d (fail c) :=
  .fail ready.span ready.core.history.inside ready.core.output wrong ready.kept

/-- Looking for bits goes on with the same step, or suspends the call when it is too short. -/
theorem Ready.needing (rests : Rests c.s e parser next)
    (few : c.s.bits.stream.length < n → parser c.s.bits.stream = .short)
    (place : ∀ bits : Bits, bits.stream = c.s.bits.stream → Place (c.setBits bits).s e)
    {following : Call → Turn}
    (enough : ∀ bits : Bits, Ready origin prior committed frame d (c.setBits bits) e →
      Rests (c.setBits bits).s e parser next → n ≤ bits.bitcnt →
      bits.stream = c.s.bits.stream →
        Follows origin prior committed weight frame d (following (c.setBits bits))) :
    Follows origin prior committed weight frame d (needing n c following) := by
  obtain ⟨k, input⟩ := ready.core.input
  have resting : ∀ bits : Bits, bits.stream = c.s.bits.stream → Rests (c.setBits bits).s e parser next := by
    intro bits same
    unfold Rests
    rw [show (c.setBits bits).s.bits.stream = c.s.bits.stream from same]
    exact rests
  apply needing_cases input
  · intro bits after there
    have same : bits.stream = c.s.bits.stream := by rw [after.stream, input.stream]
    exact enough bits (ready.setBits after) (resting bits same) there same
  · intro bits after exhausted short
    have same : bits.stream = c.s.bits.stream := by rw [after.stream, input.stream]
    refine (ready.setBits after).suspend (place bits same) ?_ exhausted
    exact rests.short (few (same ▸ short))

/-- Taking bits goes on with the rest of the step. -/
theorem Ready.getting {parser : Nat → Parser β} (rests : Rests c.s e ((number n).andThen parser) next)
    (there : n ≤ c.s.bits.bitcnt) {following : Nat → Call → Turn}
    (taken : ∀ (v : Nat) (bits : Bits), v < 2 ^ n → Ready origin prior committed frame d (c.setBits bits) e →
      Rests (c.setBits bits).s e (parser v) next → bits.bitcnt = c.s.bits.bitcnt - n →
      bits.stream.length + n = c.s.bits.stream.length →
        Follows origin prior committed weight frame d (following v (c.setBits bits))) :
    Follows origin prior committed weight frame d (getting n c following) := by
  obtain ⟨k, input⟩ := ready.core.input
  have long := stream_length c.s.bits
  apply getting_cases input there
  intro bits after left dropped
  refine taken _ bits (Nat.mod_lt _ (Nat.two_pow_pos n)) (ready.setBits after)
    (rests.number (c.setBits bits).s (by omega) dropped) left ?_
  have before := input.length
  have length := after.length
  omega

theorem Ready.align {parser : Unit → Parser β}
    (rests : Rests c.s e (BitString.Parser.align.andThen parser) next) :
    Ready origin prior committed frame d (c.setBits c.s.bits.align) e ∧
      Rests (c.setBits c.s.bits.align).s e (parser ()) next ∧
      c.s.bits.align.stream.length ≤ c.s.bits.stream.length := by
  obtain ⟨k, input⟩ := ready.core.input
  obtain ⟨-, stream⟩ := align_stream input.valid
  have low : c.s.bits.bitcnt &&& 7 ≤ c.s.bits.bitcnt := and_le_left
  refine ⟨ready.setBits (input.shift low), ?_, ?_⟩
  · unfold Rests
    show e.Resumes _ c.s.bits.align.stream
    rw [stream]
    exact Decoder.Resumes.read rests align_stable rfl
  · rw [stream, drop_length]
    omega

omit ready

theorem Core.length {out : List UInt8} (core : Core origin prior committed s out) :
    out.length = prior.length + s.outPos := by
  rw [← core.output, core.history.length]

include ready

theorem Ready.reserve (span : Span frame.stopAtBlock e f) (longer : f.out.length = e.out.length + n) :
    c.s.outPos + n ≤ c.s.outSize := by
  have size := congrArg Frame.outSize ready.kept
  have produced := ready.core.length
  have room := ready.room f span
  replace size : c.s.outSize = frame.outSize := size
  omega

omit ready

theorem Core.grow {out : List UInt8} (core : Core origin prior committed s out)
    (made : List UInt8) {outPos : Nat} (inside : outPos ≤ made.length)
    (front : made.take s.outPos = s.out.take s.outPos) (further : s.outPos ≤ outPos) :
    Core origin prior committed { s with out := made, outPos := outPos }
      (prior ++ made.take outPos) := by
  have history := core.history
  have before := history.before
  refine ⟨core.input, ⟨inside, before.trans further, ?_, history.current, history.earlier⟩, rfl,
    core.noLit, core.stops, core.fixed⟩
  have same : made.take committed = s.out.take committed := by
    have part := congrArg (List.take committed) front
    rwa [List.take_take, List.take_take, min_eq_left before] at part
  show Ring s.window s.wnext s.whave (prior ++ made.take committed)
  rw [same]
  exact history.ring

end Libretro.Inflate
