import Libretro.Encodings.InflateGroups
import Libretro.Encodings.InflateRoom

/-! The fast loop reads the groups of a compressed block as the format does. -/

namespace Libretro.Inflate

open BackReference BitString BitString.Parser Deflate Nat

variable {origin : Bits} {prior : List UInt8} {committed weight : Nat} {frame : Frame}
  {c : Call} {d e : Decoder} {l : Locals} {literals distances : List Nat}

/-- A call in the fast loop: its locals written back, its tables, and nothing pending. -/
structure Fast (origin : Bits) (prior : List UInt8) (committed : Nat) (frame : Frame)
    (d : Decoder) (literals distances : List Nat) (c : Call) (l : Locals) (e : Decoder) :
    Prop where
  ready : Ready origin prior committed frame d (c.writeBack l) e
  phase : c.s.phase = .blockData
  tables : Tables c.s.lencode c.s.distcode literals distances
  idle : c.s.copyActive = false
  step : c.s.ldStep = 0

variable (fast : Fast origin prior committed frame d literals distances c l e)
include fast

theorem Fast.fail (wrong : e.step = .wrong) : Follows origin prior committed weight frame d (failFast l c) :=
  .fail fast.ready.span fast.ready.core.history.inside fast.ready.core.output wrong fast.ready.kept

theorem Fast.leave
    {after : State} (core : Core origin prior committed (Call.writeBack { c with s := after } l).s
      e.out) (kept : (Call.writeBack { c with s := after } l).frame = frame)
    (group : Group (Call.writeBack { c with s := after } l).s e literals distances)
    (phase : after.phase = .blockData) (tables : Tables after.lencode after.distcode literals distances)
    (light : 32 * l.bits.stream.length + 20 < weight) :
    Follows origin prior committed weight frame d (leaveFast l { c with s := after }) :=
  Ready.onward (c := { Call.writeBack { c with s := after } l with pc := .careful }) (e := e)
    { fast.ready with core := core, kept := kept } rfl
    (.symbols phase literals distances tables group) phase light

omit fast

theorem careful_weight (at' : c.pc = .careful) (stuck : ¬Resumable c.s) :
    c.weight ≤ 32 * c.s.bits.stream.length + 2 := by
  unfold Call.weight Call.rank Call.view
  simp only [at', if_neg stuck]
  split <;> omega

include fast

theorem fastMatch_follows {length dist : Nat} (long : 0 < length) (back : 0 < dist) (near : dist ≤ 32768)
    (rests : Rests (c.writeBack l).s e (done (.copy length dist))
      (symbolsNext literals distances c.s.bfinal e.out))
    (light : 32 * l.bits.stream.length + 20 < weight) :
    Follows origin prior committed weight frame d (fastMatch l length dist c) := by
  have produced := fast.ready.core.length
  have reach := fast.ready.core.history.reach near
  have inside := fast.ready.core.history.inside
  dsimp only [Call.writeBack] at produced reach inside
  unfold fastMatch
  by_cases far : e.out.length < dist
  · rw [if_pos (by omega)]
    apply fast.fail
    apply rests.refused
    simp only [symbolsNext, if_pos far]
  rw [if_neg (by omega)]
  by_cases recent : dist ≤ l.outPos
  · have added : symbolsNext literals distances c.s.bfinal e.out (.copy length dist) =
        some (.symbols literals distances c.s.bfinal, copyBack dist length e.out) := by
      simp only [symbolsNext, if_neg far]
    have moves := rests.moves added
    obtain ⟨stored, most, _, reached, copied⟩ := fastCopy_spec inside back recent length
    have core := fast.ready.core.copied (fastCopy c.s.out l.outPos dist length) back recent (by
        show l.outPos + length ≤ (fastCopy c.s.out l.outPos dist length).length
        omega) copied
    rw [if_pos recent]
    have after : Ready origin prior committed frame d
        { c.writeBack l with s := { (c.writeBack l).s with
          out := fastCopy c.s.out l.outPos dist length, outPos := l.outPos + length } } _ :=
      fast.ready.leads moves (by rintro ⟨⟩) core fast.ready.kept
    refine .on after.span (by rintro _ ⟨⟩) ⟨⟨after.core, .symbols fast.phase literals distances fast.tables
      (.symbol fast.idle fast.step symbols_rests)⟩, ⟨fast.phase, fast.idle, fast.step, ?_⟩,
      .inr ?_⟩ after.kept (lt_of_le_of_lt (weight_le _) light)
    · intro entry preloaded
      dsimp only at preloaded
      split at preloaded
      · cases preloaded
        exact ⟨by assumption, rfl⟩
      · cases preloaded
    · have room := after.room
      rw [← after.kept] at room
      exact room
  · rw [if_neg recent]
    exact fast.leave { fast.ready.core with } fast.ready.kept (.copy rfl long back near rests)
      fast.phase fast.tables light

theorem Fast.setBits {bits : Bits} {k : Nat} (after : origin.After bits k) :
    Fast origin prior committed frame d literals distances c { l with bits := bits } e :=
  { fast with ready := fast.ready.setBits after }

theorem Fast.setBoth
    {bits : Bits} {k : Nat} (after : origin.After bits k) : Fast origin prior committed frame d
      literals distances (c.setBits bits) { l with bits := bits } e :=
  { ready := fast.ready.setBits after, phase := fast.phase, tables := fast.tables
    idle := fast.idle, step := fast.step }

theorem Fast.input : ∃ k, origin.After l.bits k := fast.ready.core.input

theorem Fast.number {β : Type} {n : Nat} {parser : Nat → Parser β} {next : β → Option (Stage × List UInt8)}
    (rests : Rests (c.writeBack l).s e ((Parser.number n).andThen parser) next)
    (there : n ≤ l.bits.bitcnt) :
    Fast origin prior committed frame d literals distances c { l with bits := l.bits.shift n } e ∧
      Rests (c.writeBack { l with bits := l.bits.shift n }).s e (parser (l.bits.peek n)) next ∧
      l.bits.peek n < 2 ^ n ∧ (l.bits.shift n).stream.length + n = l.bits.stream.length := by
  obtain ⟨k, input⟩ := fast.input
  have shifted := (shift_stream input.valid there).2
  have long := stream_length l.bits
  have rest := rests.number (c.writeBack { l with bits := l.bits.shift n }).s
    (show n ≤ l.bits.stream.length by omega) shifted.symm
  rw [show (c.writeBack l).s.bits.stream.low n = l.bits.peek n from
    (peek_eq input.valid (.inl there)).symm] at rest
  refine ⟨fast.setBits (input.shift there), rest, ?_, ?_⟩
  · rw [peek_eq input.valid (.inl there)]
    exact mod_lt _ (Nat.two_pow_pos n)
  · rw [shifted, drop_length]
    omega

theorem fastLongDist_follows {length : Nat} (long : 0 < length)
    (rests : Rests (c.writeBack l).s e (distancePart distances length)
      (symbolsNext literals distances c.s.bfinal e.out))
    (light : 32 * l.bits.stream.length + 20 < weight) :
    Follows origin prior committed weight frame d (fastLongDist l length c) := by
  obtain ⟨k, input⟩ := fast.input
  have decoded := input.decode fast.tables.dist
  unfold fastLongDist
  generalize (rinfDecode c.s.distcode l.bits) = result at decoded
  obtain ⟨found, after⟩ := result
  dsimp only at decoded ⊢
  cases found with
  | short =>
    obtain ⟨read, exhausted, short⟩ := decoded
    have left := fast.setBits read
    have same : after.stream = l.bits.stream := by rw [read.stream, input.stream]
    refine left.leave { left.ready.core with } left.ready.kept
      (.distance fast.idle rfl long (rests.again same)) fast.phase fast.tables ?_
    show 32 * after.stream.length + 20 < weight
    rw [same]
    exact light
  | invalid =>
    obtain ⟨read, wrong⟩ := decoded
    have left := fast.setBits read
    exact .fail left.ready.span left.ready.core.history.inside left.ready.core.output
      (rests.wrong (show distancePart distances length l.bits.stream = .wrong by
        rw [distancePart, andThen, wrong])) left.ready.kept
  | sym sym =>
    obtain ⟨n, some, read, symbol⟩ := decoded
    have before := input.length
    have after' := read.length
    have left := fast.setBoth read
    replace rests := rests.symbol ((c.setBits after).writeBack { l with bits := after }).s symbol
    dsimp only
    by_cases high : 30 ≤ sym
    · rw [if_pos high]
      rw [if_pos high] at rests
      exact left.fail (rests.wrong rfl)
    rw [if_neg high]
    rw [if_neg high, distanceRest] at rests
    have isDist := not_le.mp high
    by_cases more : rinfDistExtra.getD sym 0 ≠ 0
    · rw [if_pos more]
      by_cases few : after.bitcnt < rinfDistExtra.getD sym 0
      · rw [if_pos few]
        refine left.leave { left.ready.core with } left.ready.kept
          (.extra fast.idle rfl long isDist rests) fast.phase fast.tables ?_
        show 32 * after.stream.length + 20 < weight
        omega
      · rw [if_neg few]
        obtain ⟨taken, rest, small, shorter⟩ := left.number rests (not_lt.mp few)
        obtain ⟨back, near⟩ := distance_bounds isDist small
        refine fastMatch_follows taken long back near rest ?_
        dsimp only at shorter ⊢
        omega
    · rw [if_neg more]
      replace more : distanceExtra.getD sym 0 = 0 := not_not.mp more
      rw [more] at rests
      obtain ⟨back, near⟩ := distance_bounds (v := 0) isDist (Nat.two_pow_pos _)
      refine fastMatch_follows left long back near rests.nothing ?_
      show 32 * after.stream.length + 20 < weight
      omega

theorem fastDist_follows {length : Nat} (long : 0 < length) (enough : 24 ≤ l.bits.bitcnt)
    (rests : Rests (c.writeBack l).s e (distancePart distances length)
      (symbolsNext literals distances c.s.bfinal e.out))
    (light : 32 * l.bits.stream.length + 20 < weight) :
    Follows origin prior committed weight frame d (fastDist l length c) := by
  obtain ⟨k, input⟩ := fast.input
  have there : rinfFastBits ≤ l.bits.bitcnt := by
    show 11 ≤ l.bits.bitcnt
    omega
  have long' := stream_length l.bits
  unfold fastDist
  dsimp only
  rw [fast.tables.distPacked]
  by_cases none : c.s.distcode.fast (l.bits.peek rinfFastBits) = 0
  · -- No entry: the code is longer than the table's index.
    rw [none]
    have zero : packDist 0 = 0 := rfl
    rw [zero, if_neg (by simp), if_neg (by simp)]
    exact fastLongDist_follows fast long rests light
  obtain ⟨sym, len, some, short, entry, read⟩ := fast_spec fast.tables.dist input.valid (.inl there) none
  replace short : len ≤ 11 := short
  rw [if_neg (by omega)] at read
  -- The code leaves the buffer, and the format is behind its symbol.
  obtain ⟨valid, shifted⟩ := shift_stream input.valid (n := len) (by omega)
  have coded := fast.setBits (input.shift (n := len) (by omega))
  replace rests := rests.symbol (c.writeBack { l with bits := l.bits.shift len }).s
    (read.trans (by rw [show (c.writeBack { l with bits := l.bits.shift len }).s.bits.stream =
      (l.bits.shift len).stream from rfl, shifted]))
  rw [entry]
  by_cases high : 30 ≤ sym
  · rw [packDist_bad some short high, rinfPfBad, if_pos (by rw [flag_iff]; omega)]
    rw [if_pos high] at rests
    exact coded.fail (l := { l with bits := l.bits.shift len }) (rests.wrong rfl)
  · have isDist := not_le.mp high
    have few := distExtra_le sym
    rw [if_neg high, distanceRest] at rests
    rw [packDist_dist some short isDist, rinfPfBad, if_neg (by
        rw [not_not, noFlag_iff, flag_packed _ _ (by decide), div_eq_of_lt (by omega)]),
      if_pos (by omega), low_field, total_field, high_field]
    obtain ⟨low, mid, top⟩ := packed_fields len (len + rinfDistExtra.getD sym 0)
      (rinfDistBase.getD sym 0) (by omega) (by omega)
    rw [low, mid, top, Nat.mod_eq_of_lt (by omega), Nat.add_sub_cancel_left]
    obtain ⟨taken, rest, small, shorter⟩ := coded.number rests (by
      show rinfDistExtra.getD sym 0 ≤ l.bits.bitcnt - len
      omega)
    obtain ⟨back, near⟩ := distance_bounds isDist small
    dsimp only at taken rest shorter small
    rw [shift_shift] at taken rest shorter
    refine fastMatch_follows taken long back near rest ?_
    have length₁ := congrArg BitString.length shifted
    rw [drop_length] at length₁
    dsimp only
    omega

theorem fastLength_follows (len : Nat) {lensym : Nat} (isLength : lensym < 29) (short : len ≤ 11)
    (enough : len + 29 ≤ l.bits.bitcnt)
    (rests : Rests (c.writeBack { l with bits := l.bits.shift len }).s e
      (lengthRest distances lensym) (symbolsNext literals distances c.s.bfinal e.out))
    (light : 32 * (l.bits.shift len).stream.length + 20 < weight) :
    Follows origin prior committed weight frame d (fastGroup l (len + 16 * (len + rinfLenExtra.getD lensym 0)
        + 65536 * rinfLenBase.getD lensym 0) c) := by
  obtain ⟨k, input⟩ := fast.input
  have few := lenExtra_le lensym
  have coded := fast.setBits (input.shift (n := len) (by omega))
  obtain ⟨low, mid, top⟩ := packed_fields len (len + rinfLenExtra.getD lensym 0)
    (rinfLenBase.getD lensym 0) (by omega) (by omega)
  unfold fastGroup
  rw [rinfPfEob, rinfPfBad, if_neg (by
      rw [not_not, noFlag_iff, flag_packed _ _ (by decide), div_eq_of_lt (by omega)]),
    if_neg (by
      rw [not_not, noFlag_iff, flag_packed _ _ (by decide), div_eq_of_lt (by omega)]),
    low_field, total_field, high_field, low, mid, top, Nat.mod_eq_of_lt (by omega)]
  dsimp only
  rw [Nat.add_sub_cancel_left]
  obtain ⟨taken, rest, small, shorter⟩ := coded.number rests (by
    show rinfLenExtra.getD lensym 0 ≤ l.bits.bitcnt - len
    omega)
  dsimp only at taken rest shorter small
  rw [shift_shift] at taken rest shorter
  refine fastDist_follows taken (Nat.add_pos_left (length_bounds isLength) _) ?_ rest ?_
  · show 24 ≤ l.bits.bitcnt - (len + rinfLenExtra.getD lensym 0)
    omega
  · dsimp only
    omega

theorem Fast.literal {byte : UInt8} (rests : Rests (c.writeBack l).s e (done (.literal byte))
      (symbolsNext literals distances c.s.bfinal e.out)) :
    Fast origin prior committed frame d literals distances
      { c with s := { c.s with out := store c.s.out l.outPos [byte] } }
      { l with outPos := l.outPos + 1 }
      ⟨.symbols literals distances c.s.bfinal, e.out ++ [byte], l.bits.stream⟩ where
  ready := by
    have stored := (fast.ready.emit (rests.moves rfl) rfl nofun).2
    exact { stored with core := { stored.core with } }
  phase := fast.phase
  tables := fast.tables
  idle := fast.idle
  step := fast.step

theorem Fast.on {pc : Pc} (view : ({ c with pc := pc } : Call).view = (c.writeBack l).s)
    (rests : Rests (c.writeBack l).s e (token literals distances)
      (symbolsNext literals distances c.s.bfinal e.out)) (fits : pc.Fits c.s)
    (less : Call.weight { c with pc := pc } < weight) :
    Follows origin prior committed weight frame d (c.goto pc) := by
  have room := fast.ready.room
  rw [← fast.ready.kept] at room
  exact .on fast.ready.span (fun stops atBlock => .inl (fast.ready.away stops atBlock))
    ⟨⟨by rw [view]; exact fast.ready.core, by
    rw [view]
    exact .symbols fast.phase literals distances fast.tables
      (.symbol fast.idle fast.step rests)⟩, fits, .inr room⟩ fast.ready.kept less

theorem fastLong_follows (fresh : l.pre = none) (rests : Rests (c.writeBack l).s e (token literals distances)
      (symbolsNext literals distances c.s.bfinal e.out))
    (less : 32 * l.bits.stream.length + 2 < weight) :
    Follows origin prior committed weight frame d (fastLong l c) := by
  obtain ⟨k, input⟩ := fast.input
  have decoded := input.decode fast.tables.lit
  unfold fastLong
  generalize (rinfDecode c.s.lencode l.bits) = result at decoded
  obtain ⟨found, after⟩ := result
  dsimp only at decoded ⊢
  have before := input.length
  cases found with
  | short =>
    obtain ⟨read, exhausted, short⟩ := decoded
    have left := fast.setBoth read
    have same : after.stream = l.bits.stream := by rw [read.stream, input.stream]
    refine Ready.on (c := { (c.setBits after).writeBack { l with bits := after } with
      pc := .careful }) (e := e) { left.ready with } rfl
      (.symbols fast.phase literals distances fast.tables
        (.symbol fast.idle fast.step (rests.again same))) fast.phase ?_
    -- Nothing is unread, so the careful loop does not come back.
    refine lt_of_le_of_lt (careful_weight rfl fun back => ?_) ?_
    · have many : 8 ≤ after.unread.length := back.2.2.2.1
      rw [exhausted] at many
      cases many
    · show 32 * after.stream.length + 2 < weight
      rw [same]
      exact less
  | invalid =>
    obtain ⟨read, wrong⟩ := decoded
    have left := fast.setBits read
    exact .fail left.ready.span left.ready.core.history.inside left.ready.core.output
      (rests.wrong (show token literals distances l.bits.stream = .wrong by
        rw [token, andThen, wrong])) left.ready.kept
  | sym sym =>
    obtain ⟨n, some, read, symbol⟩ := decoded
    have after' := read.length
    have left := fast.setBoth read
    replace rests := rests.symbol ((c.setBits after).writeBack { l with bits := after }).s symbol
    rw [symbolRest] at rests
    dsimp only
    by_cases literal : sym < 256
    · rw [if_pos literal]
      rw [if_pos literal] at rests
      refine (left.literal rests).on rfl symbols_rests ⟨fast.phase, fast.idle, fast.step, ?_⟩
        (lt_of_le_of_lt (weight_le _) ?_)
      · intro entry preloaded
        rw [show l.pre = _ from preloaded] at fresh
        cases fresh
      · show 32 * after.stream.length + 20 < weight
        omega
    rw [if_neg literal]
    rw [if_neg literal] at rests
    by_cases isEnd : sym = 256
    · rw [if_pos isEnd]
      rw [if_pos isEnd] at rests
      refine blockEnd_follows left.ready (rests.moves rfl) rfl fast.step rfl left.ready.core ?_
      show 32 * after.stream.length + 1 < weight
      omega
    rw [if_neg isEnd]
    rw [if_neg isEnd] at rests
    generalize sym - 257 = lensym at rests ⊢
    by_cases high : 29 ≤ lensym
    · rw [if_pos high]
      rw [if_pos high] at rests
      exact left.fail (rests.wrong rfl)
    rw [if_neg high]
    rw [if_neg high] at rests
    by_cases few : after.bitcnt < 33
    · rw [if_pos few]
      refine left.leave { left.ready.core with } left.ready.kept
        (.length fast.idle rfl (not_le.mp high) rests) fast.phase fast.tables ?_
      show 32 * after.stream.length + 20 < weight
      omega
    · rw [if_neg few]
      have entry := packed_eq 0 (rinfLenExtra.getD lensym 0) (rinfLenBase.getD lensym 0)
        (by decide) (by have := lenExtra_le lensym; omega)
      rw [zero_or] at entry
      rw [entry]
      have group := fastLength_follows left 0 (not_le.mp high)
        (zero_le _) (by show 0 + 29 ≤ after.bitcnt; omega) rests (by
          show 32 * after.stream.length + 20 < weight
          omega)
      rw [zero_add (rinfLenExtra.getD lensym 0)] at group
      exact group

/-- A literal of the chain, or the group behind it, is read as the format reads it. -/
theorem fastChain_follows (fresh : l.pre = none) (enough : 15 ≤ l.bits.bitcnt) {entry : Nat}
    (loaded : entry = c.s.lencode.pfast (l.bits.peek rinfFastBits))
    (rests : Rests (c.writeBack l).s e (token literals distances)
      (symbolsNext literals distances c.s.bfinal e.out))
    (less : 32 * l.bits.stream.length + (if l.bits.bitcnt < 48 then 7 else 3) ≤ weight) :
    Follows origin prior committed weight frame d (fastChain l entry c) := by
  obtain ⟨k, input⟩ := fast.input
  have there : rinfFastBits ≤ l.bits.bitcnt := by
    show 11 ≤ l.bits.bitcnt
    omega
  have long := stream_length l.bits
  have some3 : 32 * l.bits.stream.length + 2 < weight := by
    split at less <;> omega
  rw [fast.tables.litPacked] at loaded
  by_cases none : c.s.lencode.fast (l.bits.peek rinfFastBits) = 0
  · -- No entry: the code is longer than the table's index.
    rw [none] at loaded
    replace loaded : entry = 0 := loaded
    unfold fastChain
    rw [loaded, if_neg (by simp), if_neg (by simp), if_pos rfl]
    exact fastLong_follows fast fresh rests some3
  obtain ⟨sym, len, some, short, found, read⟩ := fast_spec fast.tables.lit input.valid (.inl there) none
  replace short : len ≤ 11 := short
  rw [if_neg (by omega)] at read
  obtain ⟨valid, shifted⟩ := shift_stream input.valid (n := len) (by omega)
  have coded := fast.setBits (input.shift (n := len) (by omega))
  have length := congrArg BitString.length shifted
  rw [drop_length] at length
  have behind := rests.symbol (c.writeBack { l with bits := l.bits.shift len }).s
    (read.trans (by rw [show (c.writeBack { l with bits := l.bits.shift len }).s.bits.stream =
      (l.bits.shift len).stream from rfl, shifted]))
  rw [symbolRest] at behind
  rw [found] at loaded
  have rounds : entry &&& rinfPfLit = 0 → entry ≠ 0 →
      (48 ≤ l.bits.bitcnt → Follows origin prior committed weight frame d (fastGroup l entry c)) →
        Follows origin prior committed weight frame d (fastChain l entry c) := by
    intro noLit some group
    unfold fastChain
    rw [if_neg (not_not.mpr noLit)]
    by_cases drained : l.bits.bitcnt < 48
    · -- A group behind a chain is read in a round of its own when its bits may not be there.
      rw [if_pos ⟨drained, some⟩]
      rw [if_pos drained] at less
      refine fast.on rfl rests ⟨fast.phase, fast.idle, fast.step, ?_⟩ ?_
      · intro entry preloaded
        rw [fresh] at preloaded
        cases preloaded
      · show 32 * l.bits.stream.length + 6 < weight
        omega
    · rw [if_neg fun both => drained both.1, if_neg some]
      exact group (not_lt.mp drained)
  by_cases literal : sym < 256
  · rw [if_pos literal] at behind
    rw [packLen_literal some short literal] at loaded
    obtain ⟨low, -, top⟩ := packed_fields len 32 sym (by omega) (by decide)
    have isLit : entry &&& rinfPfLit ≠ 0 := by
      rw [rinfPfLit, flag_iff, loaded, flag_packed _ _ (by decide)]
      omega
    unfold fastChain
    rw [if_pos isLit]
    dsimp only
    rw [loaded, low_field, high_field, low, top]
    have stored := Fast.literal (l := { l with bits := l.bits.shift len }) coded behind
    by_cases drained : (l.bits.shift len).bitcnt < 15
    · rw [if_pos drained]
      refine stored.on rfl symbols_rests ⟨fast.phase, fast.idle, fast.step, ?_⟩
        (lt_of_le_of_lt (weight_le _) ?_)
      · intro entry preloaded
        rw [show l.pre = _ from preloaded] at fresh
        cases fresh
      · show 32 * (l.bits.shift len).stream.length + 20 < weight
        omega
    · rw [if_neg drained]
      refine stored.on rfl symbols_rests ⟨fast.phase, fast.idle, fast.step, fresh, not_lt.mp drained, rfl⟩
        (lt_of_le_of_lt (weight_le _) ?_)
      show 32 * (l.bits.shift len).stream.length + 20 < weight
      omega
  rw [if_neg literal] at behind
  by_cases isEnd : sym = 256
  · rw [if_pos isEnd] at behind
    rw [isEnd, packLen_eob some short] at loaded
    have isEob : entry &&& rinfPfEob ≠ 0 := by
      rw [rinfPfEob, flag_iff, loaded]
      omega
    refine rounds (by rw [rinfPfLit, noFlag_iff, loaded]; omega) (by omega) fun _ => ?_
    unfold fastGroup
    have low : entry &&& 15 = len := by
      rw [low_field, loaded]
      omega
    rw [if_pos isEob, low]
    refine blockEnd_follows coded.ready (behind.moves rfl) rfl fast.step rfl coded.ready.core ?_
    show 32 * (l.bits.shift len).stream.length + 1 < weight
    omega
  rw [if_neg isEnd] at behind
  by_cases high : 29 ≤ sym - 257
  · rw [if_pos high] at behind
    rw [packLen_bad some short (by omega)] at loaded
    refine rounds (by rw [rinfPfLit, noFlag_iff, loaded]; omega) (by omega) fun _ => ?_
    unfold fastGroup
    rw [if_neg (by rw [not_not, rinfPfEob, noFlag_iff, loaded]; omega),
      if_pos (by rw [rinfPfBad, flag_iff, loaded]; omega)]
    exact fast.fail (behind.wrong rfl)
  · rw [if_neg high] at behind
    obtain ⟨lensym, rfl⟩ : ∃ lensym, sym = lensym + 257 := ⟨sym - 257, by omega⟩
    rw [Nat.add_sub_cancel] at high behind
    have isLength := not_le.mp high
    have few := lenExtra_le lensym
    rw [packLen_length some short isLength] at loaded
    refine rounds ?_ (by omega) fun enough => ?_
    · rw [rinfPfLit, noFlag_iff, loaded, flag_packed _ _ (by decide), div_eq_of_lt (by omega)]
    · rw [loaded]
      refine fastLength_follows fast _ isLength short (by omega) behind ?_
      omega

omit fast

theorem fastRefill_after {origin bits : Bits} {k : Nat} (input : origin.After bits k)
    (more : 8 ≤ bits.unread.length) :
    48 ≤ (if bits.bitcnt < 48 then fastRefill bits else bits).bitcnt ∧
      origin.After (if bits.bitcnt < 48 then fastRefill bits else bits) k ∧
      (if bits.bitcnt < 48 then fastRefill bits else bits).stream = bits.stream := by
  obtain ⟨valid, stream⟩ := fastRefill_spec input.valid more
  have total := fastRefill_total more
  by_cases few : bits.bitcnt < 48
  · rw [if_pos few]
    have filled := fastRefill_bitcnt few
    exact ⟨by omega, input.same valid stream total, stream⟩
  · rw [if_neg few]
    exact ⟨not_lt.mp few, input, rfl⟩

include fast

/-- The head of the fast loop loads the entry of the next code, or leaves for the careful path. -/
theorem fastHead_follows (preloads : ∀ entry, l.pre = some entry →
      15 ≤ l.bits.bitcnt ∧ entry = c.s.lencode.pfast (l.bits.peek rinfFastBits))
    (rests : Rests (c.writeBack l).s e (token literals distances)
      (symbolsNext literals distances c.s.bfinal e.out))
    (less : 32 * l.bits.stream.length + 6 ≤ weight) :
    Follows origin prior committed weight frame d (fastHead l c) := by
  obtain ⟨k, input⟩ := fast.input
  unfold fastHead
  by_cases guard : 8 ≤ l.bits.unread.length ∧ l.outPos + 258 + 16 ≤ c.s.outSize
  · rw [if_pos guard]
    obtain ⟨many, read, stream⟩ := fastRefill_after input guard.1
    dsimp only
    have left := fast.setBits read
    have round : ∀ entry, entry = c.s.lencode.pfast
        ((if l.bits.bitcnt < 48 then fastRefill l.bits else l.bits).peek rinfFastBits) →
        Follows origin prior committed weight frame d (c.goto (.chain
          { l with bits := if l.bits.bitcnt < 48 then fastRefill l.bits else l.bits, pre := none }
          entry)) := by
      intro entry loaded
      generalize (if l.bits.bitcnt < 48 then fastRefill l.bits else l.bits) = filled at *
      refine Fast.on (l := { l with bits := filled, pre := none }) { left with } rfl
        (rests.again stream) ⟨fast.phase, fast.idle, fast.step, rfl, by
          show 15 ≤ filled.bitcnt
          omega, loaded⟩ ?_
      show 32 * filled.stream.length + (if filled.bitcnt < 48 then 7 else 3) < weight
      rw [if_neg (by omega), stream]
      omega
    cases preload : l.pre with
    | none => exact round _ rfl
    | some entry =>
      -- The refill leaves the bits that a preloaded entry was found by.
      obtain ⟨enough, found⟩ := preloads entry preload
      have low : l.bits.peek rinfFastBits = l.bits.stream.low rinfFastBits :=
        peek_eq input.valid (.inl (by show 11 ≤ l.bits.bitcnt; omega))
      have lowToo := peek_eq read.valid (n := rinfFastBits) (.inl (by
        show 11 ≤ Bits.bitcnt _
        omega))
      exact round entry (by rw [found, low, lowToo, stream])
  · rw [if_neg guard]
    refine Ready.on (c := { c.writeBack l with pc := .careful }) (e := e) { fast.ready with } rfl
      (.symbols fast.phase literals distances fast.tables (.symbol fast.idle fast.step rests))
      fast.phase ?_
    refine lt_of_le_of_lt (careful_weight rfl fun back => guard ?_) ?_
    · exact back.2.2.2
    · show 32 * l.bits.stream.length + 2 < weight
      omega

omit fast

/-- Coming back to the fast loop changes nothing. -/
theorem fastAgain_follows (ready : Ready origin prior committed frame d c e)
    (phase : c.s.phase = .blockData) (tables : Tables c.s.lencode c.s.distcode literals distances)
    (group : Group c.s e literals distances) (less : 32 * c.s.bits.stream.length + 9 ≤ weight) :
    Follows origin prior committed weight frame d (fastAgain c) := by
  unfold fastAgain
  rw [ready.core.noLit]
  show Follows origin prior committed weight frame d (enterFast c)
  unfold enterFast
  by_cases nothing : ¬c.s.copyActive ∧ c.s.ldStep = 0
  · rw [if_pos nothing]
    have idle : c.s.copyActive = false := by simpa using nothing.1
    cases group with
    | symbol _ step rest =>
      refine Fast.on (l := ⟨c.s.bits, c.s.outPos, none⟩)
        ⟨{ ready with core := { ready.core with } }, phase, tables, idle, step⟩ rfl rest
        ⟨phase, idle, step, nofun⟩ ?_
      show 32 * c.s.bits.stream.length + 6 < weight
      omega
    | length _ step _ _ => rw [step] at nothing; cases nothing.2
    | distance _ step _ _ => rw [step] at nothing; cases nothing.2
    | extra _ step _ _ _ => rw [step] at nothing; cases nothing.2
    | copy active _ _ _ _ => exact absurd active nothing.1
  · rw [if_neg nothing]
    refine Ready.on (c := { c with pc := .careful }) (e := e) { ready with } rfl
      (.symbols phase literals distances tables group) phase ?_
    refine lt_of_le_of_lt (careful_weight rfl fun back => nothing ⟨back.1, back.2.1⟩) ?_
    show 32 * c.s.bits.stream.length + 2 < weight
    omega

end Libretro.Inflate
