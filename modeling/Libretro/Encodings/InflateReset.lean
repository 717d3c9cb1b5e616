import Libretro.Encodings.InflateStale

/-! A decoder that was reset, and a new one: every sequence of calls on both. -/

namespace Libretro.Inflate

variable {s : State} {c : Call} {x : Stale}

theorem rinfBack_stale (agrees : Agrees s x) {dist : Nat} (reached : dist ≤ s.outPos + s.wprior) :
    rinfBack (s.stale x) dist = rinfBack s dist := by
  obtain ⟨history, own, others⟩ := agrees.ring
  by_cases early : s.outPos < dist
  · -- The byte is one that the ring holds.
    have reach := agrees.reach
    have held := own.held
    have next := own.next
    have back : (dist + 2 ^ 32 - s.outPos % 2 ^ 32 + s.wcur) % 2 ^ 32 = dist - s.outPos + s.wcur := by omega
    have index : (s.wnext + 32768 + 2 ^ 32 - (dist - s.outPos + s.wcur)) % 2 ^ 32 &&& 32767 =
        (s.wnext + 32768 - (dist - s.outPos + s.wcur)) % 32768 := by
      rw [Nat.and_two_pow_sub_one_eq_mod _ 15]
      omega
    have mine : rinfBack s dist = _ := if_pos early
    have theirs : rinfBack (s.stale x) dist = _ := if_pos early
    rw [mine, theirs]
    dsimp only [State.stale]
    rw [back, index, own.bytes _ (by omega) (by omega), others.bytes _ (by omega) (by omega)]
  · have mine : rinfBack s dist = _ := if_neg early
    have theirs : rinfBack (s.stale x) dist = _ := if_neg early
    rw [mine, theirs]
    rfl

variable (agrees : Agrees c.s x)
include agrees

variable (data : c.s.phase = .blockData)
include data

theorem leaveFast_alike (l : Locals) : (leaveFast l c).Alike (leaveFast l (c.stale x)) := by
  refine .on (x := x) ?_ fun _ => data
  exact agrees

omit data

theorem failFast_alike (l : Locals) : (failFast l c).Alike (failFast l (c.stale x)) := by
  refine fail_alike ?_
  exact agrees

include data

theorem fastMatch_alike (l : Locals) (length dist : Nat) :
    (fastMatch l length dist c).Alike (fastMatch l length dist (c.stale x)) := by
  have packed : (c.stale x).s.lencode.pfast (l.bits.peek rinfFastBits) =
      c.s.lencode.pfast (l.bits.peek rinfFastBits) := (agrees.tables (.inr data)).litPacked _
  refine ite_alike (fun _ => failFast_alike agrees l) fun _ => ?_
  refine ite_alike (fun _ => ?_) fun _ => ?_
  · rw [packed]
    refine .on (x := x) ?_ fun _ => data
    exact agrees
  · refine leaveFast_alike ?_ ?_ l
    · exact agrees
    · exact data

theorem fastLongDist_alike (l : Locals)
    (length : Nat) : (fastLongDist l length c).Alike (fastLongDist l length (c.stale x)) := by
  have same : rinfDecode (c.stale x).s.distcode l.bits = rinfDecode c.s.distcode l.bits :=
    (agrees.tables (.inr data)).dist _
  unfold fastLongDist
  rw [same]
  obtain ⟨decoded, bits⟩ := rinfDecode c.s.distcode l.bits
  cases decoded with
  | short =>
    refine leaveFast_alike ?_ ?_ _
    · exact agrees
    · exact data
  | invalid =>
    refine failFast_alike ?_ _
    exact agrees
  | sym dsym =>
    refine ite_alike (fun _ => ?_) fun _ => ?_
    · refine failFast_alike ?_ _
      exact agrees
    refine ite_alike (fun _ => ?_) fun _ => ?_
    · refine ite_alike (fun _ => ?_) fun _ => ?_
      · refine leaveFast_alike ?_ ?_ _
        · exact agrees
        · exact data
      · refine fastMatch_alike ?_ ?_ _ _ _
        · exact agrees
        · exact data
    · refine fastMatch_alike ?_ ?_ _ _ _
      · exact agrees
      · exact data

theorem fastDist_alike (l : Locals)
    (length : Nat) : (fastDist l length c).Alike (fastDist l length (c.stale x)) := by
  have packed : (c.stale x).s.distcode.pfast (l.bits.peek rinfFastBits) =
      c.s.distcode.pfast (l.bits.peek rinfFastBits) := (agrees.tables (.inr data)).distPacked _
  unfold fastDist
  rw [packed]
  refine ite_alike (fun _ => failFast_alike agrees l) fun _ => ?_
  refine ite_alike (fun _ => ?_) fun _ => fastLongDist_alike agrees data l length
  exact fastMatch_alike agrees data _ _ _

theorem fastGroup_alike (l : Locals) (e : Nat) : (fastGroup l e c).Alike (fastGroup l e (c.stale x)) := by
  refine ite_alike (fun _ => ?_) fun _ => ?_
  · refine blockEnd_alike ?_
    exact agrees
  refine ite_alike (fun _ => failFast_alike agrees l) fun _ => ?_
  exact fastDist_alike agrees data _ _

theorem fastLong_alike (l : Locals) : (fastLong l c).Alike (fastLong l (c.stale x)) := by
  have same : rinfDecode (c.stale x).s.lencode l.bits = rinfDecode c.s.lencode l.bits :=
    (agrees.tables (.inr data)).lit _
  unfold fastLong
  rw [same]
  obtain ⟨decoded, bits⟩ := rinfDecode c.s.lencode l.bits
  cases decoded with
  | short =>
    refine leaveFast_alike ?_ ?_ _
    · exact agrees
    · exact data
  | invalid =>
    refine failFast_alike ?_ _
    exact agrees
  | sym sym =>
    refine ite_alike (fun _ => ?_) fun _ => ?_
    · refine .on (x := x) ?_ fun _ => data
      exact agrees
    refine ite_alike (fun _ => ?_) fun _ => ?_
    · refine blockEnd_alike ?_
      exact agrees
    refine ite_alike (fun _ => ?_) fun _ => ?_
    · refine failFast_alike ?_ _
      exact agrees
    refine ite_alike (fun _ => ?_) fun _ => ?_
    · refine leaveFast_alike ?_ ?_ _
      · exact agrees
      · exact data
    · refine fastGroup_alike ?_ ?_ _ _
      · exact agrees
      · exact data

theorem fastHead_alike (l : Locals) : (fastHead l c).Alike (fastHead l (c.stale x)) := by
  refine ite_alike (fun _ => ?_) fun _ => leaveFast_alike agrees data l
  have packed : ∀ j, (c.stale x).s.lencode.pfast j = c.s.lencode.pfast j :=
    (agrees.tables (.inr data)).litPacked
  simp only [packed]
  refine .on (x := x) ?_ fun _ => data
  exact agrees

theorem fastChain_alike (l : Locals) (e : Nat) : (fastChain l e c).Alike (fastChain l e (c.stale x)) := by
  have packed : ∀ j, (c.stale x).s.lencode.pfast j = c.s.lencode.pfast j :=
    (agrees.tables (.inr data)).litPacked
  refine ite_alike (fun _ => ?_) fun _ => ?_
  · refine ite_alike (fun _ => ?_) fun _ => ?_
    · refine .on (x := x) ?_ fun _ => data
      exact agrees
    · dsimp only
      rw [packed]
      refine .on (x := x) ?_ fun _ => data
      exact agrees
  refine ite_alike (fun _ => ?_) fun _ => ?_
  · refine .on (x := x) ?_ fun _ => data
    exact agrees
  refine ite_alike (fun _ => fastLong_alike agrees data l) fun _ => fastGroup_alike agrees data l e

theorem enterFast_alike : (enterFast c).Alike (enterFast (c.stale x)) := by
  refine ite_alike (fun _ => ?_) fun _ => ?_
  · refine .on (x := x) ?_ fun _ => data
    exact agrees
  · refine .on (x := x) ?_ fun _ => data
    exact agrees

theorem fastAgain_alike : (fastAgain c).Alike (fastAgain (c.stale x)) := by
  refine ite_alike (fun _ => ?_) fun _ => enterFast_alike agrees data
  refine emit_alike agrees (suspend_alike agrees) fun s agrees same => ?_
  refine enterFast_alike ?_ ?_
  · exact agrees
  · exact same.trans data

theorem ldDistExtra_alike : (ldDistExtra c).Alike (ldDistExtra (c.stale x)) := by
  refine ite_alike (fun _ => ?_) fun _ => ?_
  · refine needing_alike agrees fun bits => ?_
    refine .on (x := x) ?_ fun _ => data
    exact agrees
  · refine .on (x := x) ?_ fun _ => data
    exact agrees

theorem ldDist_alike : (ldDist c).Alike (ldDist (c.stale x)) := by
  have same : rinfDecode (c.stale x).s.distcode (c.stale x).s.bits =
      rinfDecode c.s.distcode c.s.bits := (agrees.tables (.inr data)).dist _
  unfold ldDist
  rw [same]
  obtain ⟨decoded, bits⟩ := rinfDecode c.s.distcode c.s.bits
  cases decoded with
  | short =>
    refine suspend_alike ?_
    exact agrees
  | invalid =>
    refine fail_alike ?_
    exact agrees
  | sym dsym =>
    refine ite_fail agrees fun _ => ?_
    refine ldDistExtra_alike ?_ ?_
    · exact agrees
    · exact data

theorem ldLenExtra_alike : (ldLenExtra c).Alike (ldLenExtra (c.stale x)) := by
  refine ite_alike (fun _ => ?_) fun _ => ?_
  · refine needing_alike agrees fun bits => ?_
    refine ldDist_alike ?_ ?_
    · exact agrees
    · exact data
  · refine ldDist_alike ?_ ?_
    · exact agrees
    · exact data

theorem ldSymbol_alike : (ldSymbol c).Alike (ldSymbol (c.stale x)) := by
  have same : rinfDecode (c.stale x).s.lencode (c.stale x).s.bits =
      rinfDecode c.s.lencode c.s.bits := (agrees.tables (.inr data)).lit _
  unfold ldSymbol
  rw [same]
  obtain ⟨decoded, bits⟩ := rinfDecode c.s.lencode c.s.bits
  cases decoded with
  | short =>
    refine suspend_alike ?_
    exact agrees
  | invalid =>
    refine fail_alike ?_
    exact agrees
  | sym sym =>
    refine ite_alike (fun _ => ?_) fun _ => ?_
    · refine emit_alike ?_ ?_ fun s agrees same => ?_
      · exact agrees
      · refine suspend_alike ?_
        exact agrees
      · refine .on (x := x) ?_ fun _ => ?_
        · exact agrees
        · exact same.trans data
    refine ite_alike (fun _ => ?_) fun _ => ?_
    · refine blockEnd_alike ?_
      exact agrees
    refine ite_fail agrees fun _ => ?_
    refine ldLenExtra_alike ?_ ?_
    · exact agrees
    · exact data

theorem ldGroup_alike : (ldGroup c).Alike (ldGroup (c.stale x)) := by
  refine ite_alike (fun _ => ldSymbol_alike agrees data) fun _ => ?_
  refine ite_alike (fun _ => ldLenExtra_alike agrees data) fun _ => ?_
  refine ite_alike (fun _ => ldDist_alike agrees data) fun _ => ?_
  refine ite_alike (fun _ => ldDistExtra_alike agrees data) fun _ => ?_
  refine .on (x := x) ?_ fun _ => data
  exact agrees

theorem copyDone_alike : (copyDone c).Alike (copyDone (c.stale x)) := by
  refine ldGroup_alike ?_ ?_
  · exact agrees
  · exact data

omit data

omit agrees

theorem carefulRing_alike (n : Nat) : ∀ c : Call, Agrees c.s x → c.s.phase = .blockData →
    (carefulRing n c).Alike (carefulRing n (c.stale x)) := by
  induction n with
  | zero => exact fun c agrees data => copyDone_alike agrees data
  | succ n ih =>
    intro c agrees data
    refine ite_alike (fun _ => fail_alike agrees) fun near => ?_
    -- The byte was checked to lie in what both rings hold.
    have same : rinfBack (c.stale x).s (c.stale x).s.copyDist = rinfBack c.s c.s.copyDist :=
      rinfBack_stale agrees (Nat.le_of_not_lt near)
    rw [same]
    refine emit_alike agrees (suspend_alike agrees) fun s agrees same => ?_
    refine ih _ ?_ ?_
    · exact agrees
    · exact same.trans data

include agrees

include data

theorem carefulCopy_alike : (carefulCopy c).Alike (carefulCopy (c.stale x)) := by
  refine ite_alike (fun _ => ?_) fun _ => carefulRing_alike c.s.copyLen c agrees data
  refine ite_alike (fun _ => ?_) fun _ => ?_
  · refine suspend_alike ?_
    exact agrees
  · refine copyDone_alike ?_ ?_
    · exact agrees
    · exact data

theorem careful_alike : (careful c).Alike (careful (c.stale x)) := by
  refine ite_alike (fun _ => ?_) fun _ => ?_
  · refine .on (x := x) ?_ fun _ => data
    exact agrees
  refine ite_alike (fun _ => carefulCopy_alike agrees data) fun _ => ldGroup_alike agrees data

omit data

theorem dispatch_alike (away : ¬c.pc.Inner) : (dispatch c).Alike (dispatch (c.stale x)) := by
  have same : (c.stale x).s.phase = c.s.phase := rfl
  unfold dispatch
  rw [same]
  cases phase : c.s.phase with
  | hdrSniff => exact hdrSniff_alike agrees away
  | zheader => exact zHeader_alike agrees
  | gzheader => exact gzHeader_alike agrees away
  | gzExtra => exact gzExtra_alike agrees away
  | gzName => exact gzText_alike agrees _ nofun
  | gzComment => exact gzText_alike agrees _ nofun
  | gzHcrc => exact gzHcrc_alike agrees
  | gzcrc => exact gzCrc_alike agrees away
  | blockHdr => exact blockHdr_alike agrees away
  | storedLen => exact storedLen_alike agrees away
  | storedData => exact storedData_alike agrees
  | dynTable => exact dynTable_alike agrees away (by rw [phase]; nofun)
  | blockData =>
    refine .on (x := x) ?_ fun _ => phase
    exact agrees
  | adler => exact adlerTrailer_alike agrees away
  | done => exact finish_alike agrees .done

theorem step_alike (inner : c.pc.Inner → c.s.phase = .blockData) : c.step.Alike (c.stale x).step := by
  have same : (c.stale x).pc = c.pc := rfl
  unfold Call.step
  rw [same]
  cases place : c.pc with
  | enter => exact skipping_alike agrees
  | dispatch => exact dispatch_alike agrees (by rw [place]; nofun)
  | storedBytes => exact storedBytes_alike agrees (by rw [place]; nofun)
  | fastAgain => exact fastAgain_alike agrees (inner (by rw [place]; trivial))
  | fast l => exact fastHead_alike agrees (inner (by rw [place]; trivial)) l
  | chain l e => exact fastChain_alike agrees (inner (by rw [place]; trivial)) l e
  | careful => exact careful_alike agrees (inner (by rw [place]; trivial))

omit agrees

/-- A call returns alike, or does not return, after any number of passes. -/
theorem run_alike (passes : Nat) : ∀ (c : Call) (x : Stale), Agrees c.s x →
    (c.pc.Inner → c.s.phase = .blockData) → ((c.run passes = none ∧ (c.stale x).run passes = none) ∨
        ∃ status s after read wrote, c.run passes = some (status, s, read, wrote) ∧
          (c.stale x).run passes = some (status, s.stale after, read, wrote) ∧ Agrees s after) := by
  induction passes with
  | zero => exact fun c x _ _ => .inl ⟨rfl, rfl⟩
  | succ passes ih =>
    intro c x agrees inner
    rw [Call.run, Call.run]
    -- The first pass is made alike, and the other ones by induction.
    have alike := step_alike agrees inner
    generalize c.step = turn at alike
    generalize (c.stale x).step = other at alike
    cases alike with
    | on agrees inner => exact ih _ _ agrees inner
    | back agrees => exact .inr ⟨_, _, _, _, _, rfl, rfl, agrees⟩

/-- A call that binds a buffer or sets an option. -/
inductive Setting where
  | setIn (bytes : List UInt8)
  | setOut (size : Nat)
  | extendOut (size : Nat)
  | setDictionary (dict : List UInt8)
  | setStartBit (bits : Nat)
  | setStopAtBlock (stop : Bool)
  | reset (windowBits : Int)
deriving DecidableEq

/-- The decoder after such a call. -/
def Setting.on : Setting → State → State
  | .setIn bytes, s => rinflateSetIn s bytes
  | .setOut size, s => rinflateSetOut s size
  | .extendOut size, s => rinflateExtendOut s size
  | .setDictionary dict, s => rinflateSetDictionary s dict
  | .setStartBit bits, s => rinflateSetStartBit s bits
  | .setStopAtBlock stop, s => rinflateSetStopAtBlock s stop
  | .reset windowBits, s => rinflateReset s windowBits

/-- A call on a decoder. -/
inductive Request where
  | set (setting : Setting)
  | process
deriving DecidableEq

/-- What a call of `rinflate_process` lets its caller see. -/
structure Answer where
  status : Status
  read : Nat
  wrote : Nat
  output : List UInt8
  told : Nat
deriving DecidableEq

/-- What the caller sees of the decoder that a call returned. -/
def State.answer (s : State) (status : Status) (read wrote : Nat) : Answer :=
  { status := status, read := read, wrote := wrote
    output := s.out.take s.outPos, told := rinflateTellBits s }

/-- A sequence of calls, the answers to those that process, and the decoder after them. -/
inductive Answers : State → List Request → List Answer → State → Prop
  | none (s : State) : Answers s [] [] s
  | set {s : State} {setting : Setting} {requests : List Request} {answers : List Answer}
      {final : State} (later : Answers (setting.on s) requests answers final) :
      Answers s (.set setting :: requests) answers final
  | process {s : State} {passes : Nat} {status : Status} {next : State} {read wrote : Nat}
      {requests : List Request} {answers : List Answer} {final : State}
      (ran : rinflateProcess passes s = some (status, next, read, wrote))
      (later : Answers next requests answers final) :
      Answers s (.process :: requests) (next.answer status read wrote :: answers) final

/-- The calls of a sequence all return, with these answers. -/
def Answered (s : State) (requests : List Request) (answers : List Answer) : Prop :=
  ∃ final, Answers s requests answers final

variable {s : State} {x : Stale}

theorem answered_set (setting : Setting) (requests : List Request) (answers : List Answer) :
    Answered s (.set setting :: requests) answers ↔ Answered (setting.on s) requests answers := by
  constructor
  · rintro ⟨final, later⟩
    cases later with
    | set later => exact ⟨final, later⟩
  · rintro ⟨final, later⟩
    exact ⟨final, .set later⟩

theorem agrees_of_empty (empty : s.whave = 0 ∧ s.wnext = 0 ∧ s.wprior = 0)
    (unloaded : s.fixedLoaded = false ∧ s.phase ≠ .blockData) (unbuilt : s.clcodeBuilt = false) :
    Agrees s x := by
  obtain ⟨held, next, prior⟩ := empty
  have ring (window : Nat → UInt8) : Ring window s.wnext s.whave [] := by
    rw [held, next]
    exact ⟨by decide, rfl, fun j least most => absurd most (by omega)⟩
  refine ⟨⟨[], ring _, ring _⟩, .inl prior, ?_, ?_⟩
  · rintro (loaded | data)
    · exact absurd loaded (by rw [unloaded.1]; decide)
    · exact absurd data unloaded.2
  · exact fun built => absurd built (by rw [unbuilt]; decide)

theorem rinfStartPhase_ne (wrap : Wrap) : rinfStartPhase wrap ≠ .blockData := by
  cases wrap <;> decide

theorem rinflateReset_agrees (windowBits : Int) : Agrees (rinflateReset s windowBits) x :=
  agrees_of_empty ⟨rfl, rfl, rfl⟩ ⟨rfl, rinfStartPhase_ne _⟩ rfl

theorem rinflateSetDictionary_kept_eq (s : State) {dict recent : List UInt8}
    (kept : dict.drop (dict.length - 32768) = recent) :
    rinflateSetDictionary s dict = { s with
      window := putWindow s.window 0 recent, whave := recent.length
      wnext := recent.length &&& 32767, wcur := 0, wprior := recent.length } := by
  rw [rinflateSetDictionary, kept]

theorem rinflateSetDictionary_stale (agrees : Agrees s x) (dict : List UInt8) :
    ∃ after, rinflateSetDictionary (s.stale x) dict = (rinflateSetDictionary s dict).stale after ∧
      Agrees (rinflateSetDictionary s dict) after := by
  have short : (dict.drop (dict.length - 32768)).length ≤ 32768 := by
    rw [List.length_drop]
    omega
  obtain ⟨recent, kept⟩ : ∃ recent, dict.drop (dict.length - 32768) = recent := ⟨_, rfl⟩
  rw [kept] at short
  rw [rinflateSetDictionary_kept_eq s kept, rinflateSetDictionary_kept_eq (s.stale x) kept]
  -- Both rings lose what they held and take the dictionary.
  refine ⟨{ x with window := putWindow x.window 0 recent }, rfl, ?_⟩
  exact ⟨⟨recent, putWindow_ring _ short, putWindow_ring _ short⟩, .inr (Nat.le_refl _),
    agrees.tables, agrees.clcode⟩

theorem Setting.on_stale (agrees : Agrees s x) (setting : Setting) :
    ∃ after, setting.on (s.stale x) = (setting.on s).stale after ∧ Agrees (setting.on s) after := by
  cases setting with
  | setIn bytes => exact ⟨x, rfl, agrees⟩
  | setOut size =>
    refine ⟨x, rfl, ?_⟩
    refine ⟨agrees.ring, .inr (Nat.le_of_eq ?_), agrees.tables, agrees.clcode⟩
    exact Nat.add_zero s.whave
  | extendOut size =>
    by_cases room : s.outPos ≤ size
    · refine ⟨x, ?_, ?_⟩
      · show rinflateExtendOut (s.stale x) size = (rinflateExtendOut s size).stale x
        rw [rinflateExtendOut, rinflateExtendOut, if_pos room, if_pos (show (s.stale x).outPos ≤ size from room)]
        rfl
      · show Agrees (rinflateExtendOut s size) x
        rw [rinflateExtendOut, if_pos room]
        exact agrees
    · refine ⟨x, ?_, ?_⟩
      · show rinflateExtendOut (s.stale x) size = (rinflateExtendOut s size).stale x
        rw [rinflateExtendOut, rinflateExtendOut, if_neg room, if_neg (show ¬(s.stale x).outPos ≤ size from room)]
      · show Agrees (rinflateExtendOut s size) x
        rw [rinflateExtendOut, if_neg room]
        exact agrees
  | setDictionary dict =>
    show ∃ after, rinflateSetDictionary (s.stale x) dict =
      (rinflateSetDictionary s dict).stale after ∧ Agrees (rinflateSetDictionary s dict) after
    exact rinflateSetDictionary_stale agrees dict
  | setStartBit bits => exact ⟨x, rfl, agrees⟩
  | setStopAtBlock stop => exact ⟨x, rfl, agrees⟩
  | reset windowBits => exact ⟨x, rfl, rinflateReset_agrees windowBits⟩

theorem rinflateProcess_stale (agrees : Agrees s x) (passes : Nat) :
    (rinflateProcess passes s = none ∧ rinflateProcess passes (s.stale x) = none) ∨
      ∃ status next after read wrote, rinflateProcess passes s = some (status, next, read, wrote) ∧
        rinflateProcess passes (s.stale x) = some (status, next.stale after, read, wrote) ∧
        Agrees next after :=
  run_alike passes (rinflateEnter s) x agrees nofun

theorem answered_stale (requests : List Request) : ∀ (answers : List Answer) {s : State} {x : Stale},
    Agrees s x → (Answered (s.stale x) requests answers ↔ Answered s requests answers) := by
  induction requests with
  | nil =>
    intro answers s x agrees
    constructor
    · rintro ⟨final, later⟩
      cases later
      exact ⟨_, .none s⟩
    · rintro ⟨final, later⟩
      cases later
      exact ⟨_, .none _⟩
  | cons request requests ih =>
    intro answers s x agrees
    cases request with
    | set setting =>
      obtain ⟨after, same, agreesAfter⟩ := setting.on_stale agrees
      rw [answered_set, answered_set, same]
      exact ih answers agreesAfter
    | process =>
      constructor
      · rintro ⟨final, later⟩
        cases later with
        | @process _ passes _ _ _ _ _ _ _ ran later =>
          obtain ⟨_, never⟩ | ⟨status, next, after, read, wrote, ranOwn, ranToo, agreesAfter⟩ :=
            rinflateProcess_stale agrees passes
          · exact nomatch never.symm.trans ran
          · cases ran.symm.trans ranToo
            obtain ⟨final, later⟩ := (ih _ agreesAfter).1 ⟨_, later⟩
            have answered := Answers.process ranOwn later
            exact ⟨final, answered⟩
      · rintro ⟨final, later⟩
        cases later with
        | @process _ passes _ _ _ _ _ _ _ ran later =>
          obtain ⟨never, _⟩ | ⟨status, next, after, read, wrote, ranOwn, ranToo, agreesAfter⟩ :=
            rinflateProcess_stale agrees passes
          · exact nomatch never.symm.trans ran
          · cases ran.symm.trans ranOwn
            obtain ⟨final, later⟩ := (ih _ agreesAfter).2 ⟨_, later⟩
            have answered := Answers.process ranToo later
            exact ⟨final, answered⟩

/-- The decoder with other block stops. -/
def State.flagged (s : State) (stop first : Bool) : State :=
  { s with stopAtBlock := stop, firstBlockReported := first }

theorem rinflateReset_answered (s : State) (windowBits : Int) (requests : List Request)
    (answers : List Answer) :
    Answered (rinflateReset s windowBits) requests answers ↔
      Answered ((rinflateNew windowBits).flagged s.stopAtBlock s.firstBlockReported) requests answers := by
  -- What else a reset leaves is looked at by no call.
  have agrees : Agrees ((rinflateNew windowBits).flagged s.stopAtBlock s.firstBlockReported)
      { window := s.window, lencode := s.lencode, distcode := s.distcode, clcode := s.clcode } :=
    agrees_of_empty ⟨rfl, rfl, rfl⟩ ⟨rfl, rinfStartPhase_ne _⟩ rfl
  exact answered_stale requests answers agrees

theorem answered_process (passes : Nat) {answer : Answer} (ran : ((rinflateProcess passes s).map fun result =>
      result.2.1.answer result.1 result.2.2.1 result.2.2.2) = some answer) :
    Answered s [.process] [answer] := by
  cases run : rinflateProcess passes s with
  | none =>
    rw [run] at ran
    exact nomatch ran
  | some result =>
    rw [run] at ran
    cases Option.some.inj ran
    exact ⟨_, .process run (.none _)⟩

theorem Answers.unique {requests : List Request} {answers : List Answer} {final : State}
    (given : Answers s requests answers final) : ∀ {others : List Answer},
      Answered s requests others → others = answers := by
  induction given with
  | none s =>
    rintro others ⟨final, given⟩
    cases given
    rfl
  | set later ih => exact fun given => ih ((answered_set _ _ _).1 given)
  | process ran later ih =>
    rintro others ⟨final, given⟩
    cases given with
    | process ranToo later =>
      cases run_unique _ _ _ ran ranToo
      rw [ih ⟨_, later⟩]

/-- The bytes of a container in front of its first block. -/
def header : Wrap → List UInt8
  | .raw => []
  | .gzip => [0x1F, 0x8B, 8, 0, 0, 0, 0, 0, 0, 255]
  | _ => [0x78, 0x9C]

/-- What a decoder answers that has read a container's header. -/
def headerAnswer (wrap : Wrap) (stops : Bool) : Answer :=
  { status := if stops then .block else .next, read := (header wrap).length, wrote := 0
    output := [], told := (header wrap).length * 8 }

theorem flagged_answered (windowBits : Int) (stop first : Bool) :
    Answered ((rinflateNew windowBits).flagged stop first)
      [.set (.setIn (header (rinfWrapFromBits windowBits))), .process]
      [headerAnswer (rinfWrapFromBits windowBits) (stop && !first)] := by
  rw [answered_set]
  unfold rinflateNew
  dsimp only
  generalize rinfWrapFromBits windowBits = wrap
  refine answered_process 20 ?_
  cases wrap <;> cases stop <;> cases first <;> rfl

theorem headerAnswer_ne (wrap : Wrap) : headerAnswer wrap true ≠ headerAnswer wrap false :=
  fun same => nomatch congrArg Answer.status same

/-- One decoder gives to every sequence of calls the answers of the other. -/
def SameAnswers (s other : State) : Prop :=
  ∀ requests answers, Answered s requests answers ↔ Answered other requests answers

theorem rinflateReset_stops (stop : s.stopAtBlock = true) (first : s.firstBlockReported = false)
    (windowBits : Int) : ¬SameAnswers (rinflateReset s windowBits) (rinflateNew windowBits) := by
  intro same
  have stops := flagged_answered windowBits true false
  rw [← stop, ← first, ← rinflateReset_answered, same _ _] at stops
  -- A new decoder asks for more input at that place.
  obtain ⟨final, goesOn⟩ := flagged_answered windowBits false false
  have equal := goesOn.unique stops
  rw [stop, first] at equal
  exact headerAnswer_ne _ (List.head_eq_of_cons_eq equal)

theorem rinflateReset_skips (first : s.firstBlockReported = true) (windowBits : Int) :
    ¬SameAnswers (rinflateReset s windowBits) (rinflateNew windowBits) := by
  intro same
  have skips : Answered (rinflateReset (rinflateSetStopAtBlock s true) windowBits) _ _ :=
    (rinflateReset_answered _ windowBits _ _).2 (flagged_answered windowBits true s.firstBlockReported)
  -- The same calls make a new decoder report its first block.
  have setToo : Answered (rinflateReset s windowBits) (.set (.setStopAtBlock true) :: _) _ :=
    (answered_set _ _ _).2 skips
  have skipsToo := (answered_set _ _ _).1 ((same _ _).1 setToo)
  obtain ⟨final, stops⟩ := flagged_answered windowBits true false
  have equal := stops.unique skipsToo
  rw [first] at equal
  exact headerAnswer_ne _ (List.head_eq_of_cons_eq equal).symm

/-- A decoder that was reset and a new one answer every sequence of calls alike exactly where
neither of the block stops was left on. -/
theorem rinflateReset_sameAnswers_iff (s : State) (windowBits : Int) :
    SameAnswers (rinflateReset s windowBits) (rinflateNew windowBits) ↔
      s.stopAtBlock = false ∧ s.firstBlockReported = false := by
  constructor
  · intro same
    cases first : s.firstBlockReported with
    | true => exact absurd same (rinflateReset_skips first windowBits)
    | false =>
      cases stop : s.stopAtBlock with
      | true => exact absurd same (rinflateReset_stops stop first windowBits)
      | false => exact ⟨rfl, rfl⟩
  · rintro ⟨stop, first⟩ requests answers
    rw [rinflateReset_answered, stop, first]
    exact Iff.rfl

/-- A decoder that was told to stop at blocks does so after a reset. -/
theorem rinflateReset_differs :
    ¬∀ (newBits : Int) (requests : List Request) (answers : List Answer) (s : State),
      Answers (rinflateNew newBits) requests answers s →
        ∀ windowBits, SameAnswers (rinflateReset s windowBits) (rinflateNew windowBits) := by
  intro same
  have told : Answers (rinflateNew (-15)) [.set (.setStopAtBlock true)] []
      (rinflateSetStopAtBlock (rinflateNew (-15)) true) := .set (.none _)
  exact rinflateReset_stops rfl rfl (-15) (same _ _ _ _ told (-15))

end Libretro.Inflate
