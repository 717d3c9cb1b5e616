import Libretro.Encodings.VcdiffReference

/-! The decoder and the byte-by-byte meaning of a patch: instructions, windows and whole patches. -/

namespace Libretro.Vcdiff

open BackReference List Option Reference Prod Nat

/-- An address that counts back does so from a position of 32 bits. -/
def Copied.Near (copied : Copied) : Prop := copied.mode = 1 → copied.place < 2 ^ 32

/-- Two lists differ at a place that both have. -/
def Apart (list other : List Nat) : Prop := ∃ (i a b : Nat), list[i]? = some a ∧ other[i]? = some b ∧ a ≠ b

theorem Apart.grow {list list' other other' : List Nat} (apart : Apart list other)
    (longer : list <+: list') (longer' : other <+: other') : Apart list' other' := by
  obtain ⟨i, a, b, here, there, ne⟩ := apart
  obtain ⟨more, rfl⟩ := longer
  obtain ⟨more', rfl⟩ := longer'
  have inside := (List.getElem?_eq_some_iff.1 here).1
  have inside' := (List.getElem?_eq_some_iff.1 there).1
  exact ⟨i, a, b, by rw [getElem?_append_left inside, here],
    by rw [getElem?_append_left inside', there], ne⟩

theorem Apart.ne {list other : List Nat} (apart : Apart list other) : list ≠ other := by
  rintro rfl
  obtain ⟨i, a, b, here, there, ne⟩ := apart
  exact ne (some.inj (here.symm.trans there))

theorem Apart.last {list : List Nat} {a b : Nat} (ne : a ≠ b) : Apart (list ++ [a]) (list ++ [b]) :=
  ⟨list.length, a, b, getElem?_concat_length, getElem?_concat_length, ne⟩

/-- The work on a window has produced what its meaning has, after the output of earlier windows, and
has used the same addresses, none of them too far back. -/
structure Work.Means (before : List UInt8) (work : Work) (state : Reference.State) : Prop where
  bytes : work.out.bytes = before ++ state.target
  data : state.data = work.data
  inst : state.inst = work.inst
  addr : state.addr = work.addr
  caches : work.cache.Means state.caches
  addresses : state.addresses = work.copies.map Copied.addr
  near : ∀ copied ∈ work.copies, copied.Near

/-- A run of the meaning arrives where the work does, or an address was too far back and the two
have parted. -/
def Work.Follows (before : List UInt8) (work : Work) (run : Option Reference.State) : Prop :=
  (∃ state, run = some state ∧ work.Means before state) ∨ ((∃ copied ∈ work.copies, ¬ copied.Near) ∧
      ∀ state, run = some state → Apart (work.copies.map Copied.addr) state.addresses)

theorem Work.Follows.bind {before : List UInt8} {work after : Work} {run : Option Reference.State}
    {next : Reference.State → Option Reference.State} (first : work.Follows before run)
    (goes : ∀ state, work.Means before state → after.Follows before (next state))
    (copies : ∃ more, after.copies = work.copies ++ more)
    (grows : ∀ state last, next state = some last → state.addresses <+: last.addresses) :
    after.Follows before (run.bind next) := by
  rcases first with ⟨state, rfl, means⟩ | ⟨⟨copied, listed, far⟩, apart⟩
  · exact goes state means
  · obtain ⟨more, added⟩ := copies
    refine .inr ⟨⟨copied, by rw [added]; exact mem_append_left _ listed, far⟩, ?_⟩
    intro last ends
    obtain ⟨state, runs, ends⟩ := bind_eq_some_iff.1 ends
    refine (apart state runs).grow ?_ (grows state last ends)
    rw [added, map_append]
    exact prefix_append _ _

section Growth

variable {segment : List UInt8} {state last : Reference.State}

theorem execSized_grows {kind : Kind} {size mode : Nat}
    (ran : execSized segment kind size mode state = some last) :
    state.addresses <+: last.addresses := by
  cases kind with
  | noop =>
    obtain rfl := some.inj ran
    exact prefix_refl _
  | add =>
    simp only [execSized] at ran
    split_ifs at ran
    obtain rfl := some.inj ran
    exact prefix_refl _
  | run =>
    simp only [execSized] at ran
    split at ran
    · cases ran
    · obtain rfl := some.inj ran
      exact prefix_refl _
  | copy =>
    obtain ⟨⟨a, addr⟩, -, ran⟩ := bind_eq_some_iff.1 ran
    obtain ⟨target, -, rfl⟩ := map_eq_some_iff.1 ran
    exact prefix_append _ _

theorem execHalf_grows {half : Half} (ran : execHalf segment half state = some last) :
    state.addresses <+: last.addresses := by
  rw [execHalf] at ran
  split_ifs at ran
  · obtain rfl := some.inj ran
    exact prefix_refl _
  · obtain ⟨⟨size, inst⟩, -, ran⟩ := bind_eq_some_iff.1 ran
    have grown : ({ state with inst := inst } : Reference.State).addresses <+: last.addresses :=
      execSized_grows ran
    exact grown
  · exact execSized_grows ran

theorem execCodes_grows {size n : Nat} (ran : execCodes segment size n state = some last) :
    state.addresses <+: last.addresses := by
  induction n generalizing state with
  | zero =>
    rw [execCodes] at ran
    split_ifs at ran
    obtain rfl := some.inj ran
    exact prefix_refl _
  | succ n ih =>
    rw [execCodes] at ran
    split at ran
    · obtain rfl := some.inj ran
      exact prefix_refl _
    · split at ran
      · cases ran
      · obtain ⟨pair, -, ran⟩ := bind_eq_some_iff.1 ran
        obtain ⟨second, first, ran⟩ := bind_eq_some_iff.1 ran
        obtain ⟨third, second, ran⟩ := bind_eq_some_iff.1 ran
        exact ((execHalf_grows first).trans (execHalf_grows second)).trans (ih ran)

end Growth

/-- A window starts where its output does, and its segment pointer shows the segment. -/
structure Window.Shows (win : Window) (generation : Nat) (freed : Nat → Nat → UInt8)
    (src before segment : List UInt8) : Prop where
  start : win.start = before.length
  segLen : win.segLen = segment.length
  bytes : ∀ out : Out, out.generation = generation → before <+: out.bytes →
    ∀ addr len, addr < win.segLen → len ≤ win.segLen - addr →
      segmentBytes freed src out win.origin addr len = (segment.drop addr).take len

section Instructions

variable {freed : Nat → Nat → UInt8} {src before segment : List UInt8} {win : Window}
  {work after : Work} {state : Reference.State}

theorem vcdCopy_copyBytes {out : Out} {target bytes : List UInt8} {addr len : Nat}
    (shows : win.Shows out.generation freed src before segment) (same : out.bytes = before ++ target)
    (copied : vcdCopy freed src out win addr len = some bytes) :
    ∃ target', copyBytes segment len addr target = some target' ∧ bytes = before ++ target' := by
  simp only [vcdCopy] at copied
  by_cases inside : addr < win.segLen
  · -- The whole copy lies in the segment.
    rw [if_pos inside] at copied
    split_ifs at copied with long
    obtain rfl := some.inj copied
    have short := not_lt.1 long
    refine ⟨_, copyBytes_segment ?_, ?_⟩
    · have := shows.segLen
      omega
    · rw [shows.bytes out rfl (same ▸ prefix_append _ _) addr len inside short, same,
        append_assoc]
  · -- The copy starts in the target, at a distance from its end.
    obtain ⟨off, rfl⟩ : ∃ off, addr = segment.length + off :=
      ⟨addr - segment.length, by have := shows.segLen; omega⟩
    have length : out.bytes.length = before.length + target.length := by rw [same, length_append]
    rw [if_neg inside, shows.start, shows.segLen, Nat.add_sub_cancel_left, length,
      Nat.add_sub_cancel_left] at copied
    split_ifs at copied with nothing apart one
    all_goals
      have within : off < target.length := not_le.1 nothing
      have back : 0 < target.length - off := by omega
      have reach : target.length - off ≤ out.bytes.length := by omega
      have first : out.bytes.length - (target.length - off) = before.length + off := by omega
      refine ⟨_, copyBytes_target within, ?_⟩
      rw [← copyBack_append back (sub_le _ _), ← same, ← some.inj copied]
    · rw [copyBack_within (by omega) reach, first]
    · -- At distance one the same byte is repeated.
      have dist : target.length - off = 1 := by omega
      rw [copyBack_eq back reach, first, dist]
      simp only [mod_one, add_zero, map_const', length_range]
      rfl
    · have dist : before.length + target.length - (before.length + off) = target.length - off := by omega
      rw [dist]
      exact chunkLoop_eq back reach (le_refl _)

variable (means : work.Means before state)
include means

variable (shows : win.Shows work.out.generation freed src before segment)
include shows

theorem vcdCopyInst_follows {mode size : Nat}
    (ran : vcdCopyInst freed src win work mode size = (after, true)) :
    after.Follows before (execSized segment .copy size mode state) := by
  have place : win.segLen + (work.out.bytes.length - win.start) = segment.length + state.target.length := by
    rw [shows.segLen, shows.start, means.bytes, length_append, Nat.add_sub_cancel_left]
  simp only [vcdCopyInst, vcdAddr, place] at ran
  cases value : addrValue work.cache mode ((segment.length + state.target.length) % 2 ^ 32) work.addr with
  | none =>
    rw [value] at ran
    cases ran
  | some read =>
    obtain ⟨addr, ap⟩ := read
    simp only [value, bind_eq_bind, bind_some, Option.pure_def] at ran
    split at ran
    · cases ran
    · rename_i bytes copied
      obtain ⟨rfl, -⟩ := mk.inj ran
      by_cases near : mode = 1 → segment.length + state.target.length < 2 ^ 32
      · -- The address is the one that the format defines, and the bytes are those at it.
        obtain ⟨target, copies, rfl⟩ := vcdCopy_copyBytes shows means.bytes copied
        have address := addrValue_readAddress means.caches value near
        have runs : execSized segment .copy size mode state =
            some { state with
              target := target
              addr := ap
              caches := state.caches.update addr
              addresses := state.addresses ++ [addr] } := by
          rw [execSized, means.addr, address, bind_some]
          simp only
          rw [copies, map_some]
        refine .inl ⟨_, runs, ?_⟩
        · exact {
            bytes := rfl
            data := means.data
            inst := means.inst
            addr := rfl
            caches := means.caches.update addr
            addresses := by
              rw [means.addresses, map_append]
              rfl
            near := fun copied listed => by
              rcases mem_append.1 listed with early | late
              · exact means.near copied early
              · rw [mem_singleton.1 late]
                exact near }
      · -- The address is another one.
        refine .inr ⟨⟨_, mem_append_right _ (mem_singleton_self _), near⟩, ?_⟩
        intro last ends
        rw [execSized, means.addr] at ends
        obtain ⟨⟨a, rest⟩, address, ends⟩ := bind_eq_some_iff.1 ends
        obtain ⟨target, -, rfl⟩ := map_eq_some_iff.1 ends
        obtain ⟨rfl, far⟩ := Classical.not_imp.1 near
        have ne := addrValue_far value (not_lt.1 far) address
        rw [map_append, ← means.addresses]
        exact Apart.last ne

theorem vcdSized_follows {half : Half} {size : Nat}
    (ran : vcdSized freed src win work half size = (after, true)) :
    after.Follows before (execSized segment half.kind size half.mode state) := by
  rw [vcdSized] at ran
  split at ran
  · cases ran
  · cases kind : half.kind with
    | noop =>
      simp only [kind] at ran
      obtain ⟨rfl, -⟩ := mk.inj ran
      exact .inl ⟨state, rfl, means⟩
    | add =>
      simp only [kind] at ran
      split at ran
      · cases ran
      · rename_i enough
        obtain ⟨rfl, -⟩ := mk.inj ran
        refine .inl ⟨_, if_pos (by rw [means.data]; exact not_lt.1 enough), ?_⟩
        exact { means with
          bytes := by
            rw [means.data, ← append_assoc, ← means.bytes]
            rfl
          data := by
            rw [means.data]
            rfl }
    | run =>
      simp only [kind] at ran
      split at ran
      · cases ran
      · rename_i b data stands
        obtain ⟨rfl, -⟩ := mk.inj ran
        refine .inl ⟨_, by rw [execSized, means.data, stands], ?_⟩
        exact { means with
          bytes := by
            rw [← append_assoc, ← means.bytes]
            rfl
          data := rfl }
    | copy =>
      simp only [kind] at ran
      exact vcdCopyInst_follows means shows ran

theorem vcdHalf_follows {half : Half} (ran : vcdHalf freed src win work half = (after, true)) :
    after.Follows before (execHalf segment half state) := by
  rw [vcdHalf] at ran
  rw [execHalf]
  split at ran
  · rename_i idle
    obtain ⟨rfl, -⟩ := mk.inj ran
    exact .inl ⟨state, if_pos idle, means⟩
  · rename_i busy
    rw [if_neg busy]
    rw [Half.read] at ran
    split at ran
    · cases ran
    · rename_i size inst read
      have moved : Work.Means before { work with inst := inst } { state with inst := inst } :=
        { means with inst := rfl }
      have sized := vcdSized_follows moved shows ran
      split_ifs at read with follows
      · rw [if_pos follows, means.inst, vcdVarint_readInt read]
        exact sized
      · obtain ⟨rfl, rfl⟩ := mk.inj (some.inj read)
        rw [if_neg follows]
        rwa [← means.inst] at sized

theorem vcdPair_follows {code : UInt8} (ran : vcdPair freed src win work code = (after, true)) :
    after.Follows before (codeTable[code.toNat]?.bind fun pair =>
      (execHalf segment pair.first state).bind (execHalf segment pair.second)) := by
  rw [vcdPair, vcdTable_eq] at ran
  split at ran
  · cases ran
  · rename_i pair row
    rw [row, bind_some]
    split at ran
    · cases ran
    · rename_i half first
      have kept : Work.Copies win work half := by
        have kept := @vcdHalf_copies freed src win work pair.first
        rwa [first] at kept
      have added : Work.Copies win half after := by
        have added := @vcdHalf_copies freed src win half pair.second
        rwa [ran] at added
      refine (vcdHalf_follows means shows first).bind ?_ ?_ ?_
      · intro state means
        exact vcdHalf_follows means (kept.generation ▸ shows) ran
      · obtain ⟨more, copies, -⟩ := added.added
        exact ⟨more, copies⟩
      · exact fun _ _ => execHalf_grows

theorem vcdInstructions_follows {n : Nat}
 (ran : vcdInstructions freed src win n work = (after, true)) :
    after.Follows before (execCodes segment win.tgtLen n state) := by
  have target : ∀ {work : Work} {state : Reference.State}, work.Means before state →
      (work.out.bytes.length = win.stop ↔ state.target.length = win.tgtLen) := by
    intro work state means
    rw [means.bytes, length_append, Window.stop, shows.start]
    omega
  induction n generalizing work state with
  | zero =>
    rw [vcdInstructions] at ran
    obtain ⟨rfl, complete⟩ := mk.inj ran
    exact .inl ⟨state, if_pos ((target means).1 (beq_iff_eq.1 complete)), means⟩
  | succ n ih =>
    rw [vcdInstructions] at ran
    rw [execCodes]
    split at ran
    · rename_i short
      rw [if_neg (fun complete => Nat.ne_of_lt short ((target means).2 complete)), means.inst]
      cases codes : work.inst with
      | nil =>
        rw [codes] at ran
        cases ran
      | cons code inst =>
        rw [codes] at ran
        simp only at ran
        split at ran
        · cases ran
        · rename_i next pair
          have moved : Work.Means before { work with inst := inst } { state with inst := inst } :=
            { means with inst := rfl }
          have kept : Work.Copies win { work with inst := inst } next := by
            have kept := @vcdPair_copies freed src win { work with inst := inst } code
            rwa [pair] at kept
          have added : Work.Copies win next after := by
            have added := @vcdInstructions_copies freed src win next n
            rwa [ran] at added
          -- The rest of the codes follow from where this one leads.
          have rest : after.Follows before ((codeTable[code.toNat]?.bind fun pair =>
              (execHalf segment pair.first { state with inst := inst }).bind
                (execHalf segment pair.second)).bind
              (execCodes segment win.tgtLen n)) := by
            refine (vcdPair_follows moved shows pair).bind ?_ ?_ ?_
            · exact fun state means => ih means (kept.generation ▸ shows) ran
            · obtain ⟨more, copies, -⟩ := added.added
              exact ⟨more, copies⟩
            · exact fun _ _ => execCodes_grows
          simpa only [bind_assoc] using rest
    · rename_i whole
      obtain ⟨rfl, complete⟩ := mk.inj ran
      exact .inl ⟨state, if_pos ((target means).1 (beq_iff_eq.1 complete)), means⟩

end Instructions

theorem drop_take_part {list bytes : List UInt8} {pos size addr len : Nat}
    (inside : pos + size ≤ list.length) (longer : list <+: bytes) (short : len ≤ size - addr) :
    (bytes.drop (pos + addr)).take len = (((list.drop pos).take size).drop addr).take len := by
  obtain ⟨more, rfl⟩ := longer
  by_cases empty : len = 0
  · rw [empty, take_zero, take_zero]
  · rw [drop_append_of_le_length (by omega),
      take_append_of_le_length (by rw [length_drop]; omega), drop_take,
      take_take, drop_drop, min_eq_left short]

section Windows

variable {freed : Nat → Nat → UInt8} {s after : Stream}

theorem vcdSegment_shows (whole : s.srcLen = s.src.length) {winInd : UInt8} {p q : List UInt8}
    {origin : Origin} {segLen : Nat} (given : vcdSegment s winInd p = .ok (origin, segLen, q))
    (sections : Sections) :
    ∃ segment, readSegment s.src s.out.bytes winInd.toNat p = some (segment, q) ∧
      (s.window origin segLen sections).Shows s.out.generation freed s.src s.out.bytes segment := by
  rw [vcdSegment] at given
  rw [readSegment]
  split at given
  · rename_i none
    cases given
    exact ⟨[], if_pos none, rfl, rfl, fun _ _ _ _ _ inside => absurd inside (not_lt_zero _)⟩
  · rename_i some
    rw [if_neg some]
    split at given
    · cases given
    · rename_i segment
      rw [vcdVarint_readInt segment, bind_some]
      split at given
      · cases given
      · rename_i segPos rest position
        simp only
        rw [vcdVarint_readInt position, bind_some]
        split at given
        · rename_i source
          rw [if_pos source]
          split_ifs at given with outside waits
          cases given
          have inside : segPos + segLen ≤ s.src.length := by omega
          refine ⟨_, if_pos inside, rfl, ?_, ?_⟩
          · rw [length_take, length_drop]
            show segLen = _
            omega
          · exact fun out _ _ addr len _ short =>
              drop_take_part inside (prefix_refl _) short
        · rename_i source
          rw [if_neg source]
          split_ifs at given with outside
          cases given
          have inside : segPos + segLen ≤ s.out.bytes.length := by omega
          refine ⟨_, if_pos inside, rfl, ?_, ?_⟩
          · rw [length_take, length_drop]
            show segLen = _
            omega
          · intro out current longer addr len _ short
            show (if s.out.generation = out.generation then _ else _) = _
            rw [if_pos current.symm]
            exact drop_take_part inside longer short

theorem vcdSections_readSections {q : List UInt8} {sections : Sections}
    (read : vcdSections q = some sections) (addresses : List Nat) :
    readSections addresses q = some (sections.tgtLen,
      { caches := .empty
        target := []
        data := sections.data
        inst := sections.inst
        addr := sections.addr
        addresses := addresses }, sections.rest) := by
  obtain ⟨⟨_, q1⟩, enc, read⟩ := bind_eq_some_iff.1 read
  obtain ⟨⟨tgtLen, q2⟩, tgt, read⟩ := bind_eq_some_iff.1 read
  simp only [readSections, vcdVarint_readInt enc, vcdVarint_readInt tgt, bind_some]
  simp only at read
  split at read
  · cases read
  · split_ifs at read with compressed
    obtain ⟨⟨dataLen, q3⟩, data, read⟩ := bind_eq_some_iff.1 read
    obtain ⟨⟨instLen, q4⟩, inst, read⟩ := bind_eq_some_iff.1 read
    obtain ⟨⟨addrLen, q5⟩, addr, read⟩ := bind_eq_some_iff.1 read
    simp only at read
    split_ifs at read with short
    obtain rfl := some.inj read
    simp only
    rw [if_pos (not_not.1 compressed), vcdVarint_readInt data, bind_some,
      vcdVarint_readInt inst, bind_some, vcdVarint_readInt addr, bind_some]
    show (if dataLen + instLen + addrLen ≤ q5.length then _ else _) = _
    rw [if_pos (by omega)]

theorem vcdTarget_follows {origin : Origin} {segLen : Nat} {sections : Sections} {segment : List UInt8}
    (shows : (s.window origin segLen sections).Shows s.out.generation freed s.src s.out.bytes
      segment) (room : s.out.bytes.length + sections.tgtLen ≤ s.out.cap)
    (near : ∀ copied ∈ s.copies, copied.Near)
    (ran : vcdTarget freed s origin segLen sections = (.ok, after)) :
    ∃ work : Work, after = { s.leave work with left := sections.rest } ∧
      work.Follows s.out.bytes (execCodes segment sections.tgtLen sections.inst.length
        { caches := .empty
          target := []
          data := sections.data
          inst := sections.inst
          addr := sections.addr
          addresses := s.copies.map Copied.addr }) := by
  obtain ⟨-, out, work, made, executed, e⟩ := vcdTarget_ok ran
  obtain rfl : out = s.out := (vcdReserve_spec made).2.2 room
  have means : (s.work s.out sections).Means s.out.bytes
      { caches := .empty
        target := []
        data := sections.data
        inst := sections.inst
        addr := sections.addr
        addresses := s.copies.map Copied.addr } :=
    { bytes := (append_nil _).symm
      data := rfl
      inst := rfl
      addr := rfl
      caches := vcdCacheReset_means
      addresses := rfl
      near := near }
  exact ⟨work, e, vcdInstructions_follows means shows executed⟩

end Windows

/-- A run of the meaning arrives at the target and the addresses of the decoder, or an address was
too far back and the two have parted. -/
def Stream.Follows (s : Stream) (run : Option (List UInt8 × List Nat)) : Prop :=
  ((∀ copied ∈ s.copies, copied.Near) ∧ run = some (s.out.bytes, s.copies.map Copied.addr)) ∨
    ((∃ copied ∈ s.copies, ¬ copied.Near) ∧ ∀ read, run = some read → Apart (s.copies.map Copied.addr) read.2)

theorem readSections_addresses {addresses : List Nat} {text rest : List UInt8} {size : Nat}
    {state : Reference.State} (read : readSections addresses text = some (size, state, rest)) :
    state.addresses = addresses := by
  obtain ⟨⟨_, text⟩, -, read⟩ := bind_eq_some_iff.1 read
  obtain ⟨⟨_, text⟩, -, read⟩ := bind_eq_some_iff.1 read
  cases text with
  | nil => cases read
  | cons indicator text =>
    simp only at read
    split at read
    · obtain ⟨⟨_, text⟩, -, read⟩ := bind_eq_some_iff.1 read
      obtain ⟨⟨_, text⟩, -, read⟩ := bind_eq_some_iff.1 read
      obtain ⟨⟨_, text⟩, -, read⟩ := bind_eq_some_iff.1 read
      simp only at read
      split at read
      · cases read
        rfl
      · cases read
    · cases read

theorem decodeWindows_grows {source produced text : List UInt8} {addresses : List Nat} {n : Nat}
    {read : List UInt8 × List Nat} (ran : decodeWindows source n produced addresses text = some read) :
    addresses <+: read.2 := by
  induction n generalizing produced addresses text with
  | zero =>
    cases text with
    | nil =>
      obtain rfl := some.inj ran
      exact prefix_refl _
    | cons => cases ran
  | succ n ih =>
    cases text with
    | nil =>
      obtain rfl := some.inj ran
      exact prefix_refl _
    | cons indicator text =>
      obtain ⟨⟨segment, text⟩, -, ran⟩ := bind_eq_some_iff.1 ran
      obtain ⟨⟨size, state, rest⟩, sections, ran⟩ := bind_eq_some_iff.1 ran
      obtain ⟨last, codes, ran⟩ := bind_eq_some_iff.1 ran
      exact readSections_addresses sections ▸ (execCodes_grows codes).trans (ih ran)

section Patches

variable {freed : Nat → Nat → UInt8} {s after : Stream}

theorem vcdDrain_copies {n : Nat} {complete : Bool}
    (ran : vcdDrain freed n s = (after, complete)) : s.copies <+: after.copies := by
  induction n generalizing s with
  | zero =>
    obtain ⟨rfl, -⟩ := mk.inj ran
    exact prefix_refl _
  | succ n ih =>
    rw [vcdDrain] at ran
    split at ran
    · obtain ⟨rfl, -⟩ := mk.inj ran
      exact prefix_refl _
    · obtain ⟨_, _, adds, -⟩ := @vcdWindow_copies freed s
      obtain ⟨more, added, -⟩ := adds.added
      have first : s.copies <+: (vcdWindow freed s).2.copies := by
        rw [added]
        exact prefix_append _ _
      split at ran <;> rename_i window <;> rw [window] at first
      · exact first.trans (ih ran)
      · obtain ⟨rfl, -⟩ := mk.inj ran
        exact first
      · obtain ⟨rfl, -⟩ := mk.inj ran
        exact first

theorem vcdDrain_follows {n : Nat} (roomy : s.Roomy) (whole : s.srcLen = s.src.length)
    (near : ∀ copied ∈ s.copies, copied.Near) (enough : s.left.length ≤ n)
    (ran : vcdDrain freed n s = (after, true)) (ends : after.left = []) :
    after.Follows (decodeWindows s.src n s.out.bytes (s.copies.map Copied.addr) s.left) := by
  induction n generalizing s with
  | zero =>
    obtain ⟨rfl, -⟩ := mk.inj ran
    rw [ends]
    exact .inl ⟨near, rfl⟩
  | succ n ih =>
    rw [vcdDrain] at ran
    split at ran
    · rename_i done
      obtain ⟨rfl, -⟩ := mk.inj ran
      rw [done]
      exact .inl ⟨near, rfl⟩
    · rename_i more
      split at ran
      · rename_i next window
        obtain ⟨winInd, p, origin, segLen, q, sections, left, header, read, target⟩ := vcdWindow_ok window
        obtain ⟨segment, announced, shows⟩ := @vcdSegment_shows freed s whole _ _ _ _ _ header sections
        obtain ⟨work, rfl, follows⟩ := vcdTarget_follows shows (roomy.safe left header read) near target
        have shorter := vcdWindow_left window
        rw [left, decodeWindows, announced, bind_some]
        simp only
        rw [vcdSections_readSections read, bind_some]
        simp only
        rcases follows with ⟨state, codes, means⟩ | ⟨⟨copied, listed, far⟩, apart⟩
        · -- The window has been followed, and the rest is followed from there.
          rw [codes, bind_some, ← means.bytes, means.addresses]
          exact ih (roomy.window window) whole means.near (by omega) ran
        · -- The two have parted in this window, and whatever follows does not bring them together.
          obtain ⟨later, grown⟩ := vcdDrain_copies ran
          have longer : work.copies ++ later = after.copies := grown
          refine .inr ⟨⟨copied, by rw [← longer]; exact mem_append_left _ listed, far⟩, ?_⟩
          intro result goes
          obtain ⟨state, codes, goes⟩ := bind_eq_some_iff.1 goes
          refine (apart state codes).grow ?_ (decodeWindows_grows goes)
          rw [← longer, map_append]
          exact prefix_append _ _
      · -- A window that waits is not the end of the patch.
        rename_i next window
        obtain ⟨rfl, -⟩ := mk.inj ran
        rw [vcdWindow_wait window] at ends
        exact absurd ends more
      · cases ran

/-- A patch that the decoder accepts means what it makes of it, byte for byte and address for
address, exactly when no address counts back from a position that 32 bits do not hold. -/
theorem decodeStream_means {patch src : List UInt8}
    (accepted : decodeStream freed patch src = some (s, true)) :
    Reference.decode patch src = some (s.out.bytes, s.copies.map Copied.addr) ↔
      ∀ copied ∈ s.copies, copied.mode = 1 → copied.place < 2 ^ 32 := by
  obtain ⟨opened, opens, roomy⟩ := decodeStream_roomy accepted
  obtain ⟨opened', opens', ran⟩ := bind_eq_some_iff.1 accepted
  obtain rfl := some.inj (opens'.symm.trans opens)
  obtain ⟨-, -, copies, srcLen, header, room⟩ := vcdiffStreamOpen_spec opens
  obtain ⟨rfl, complete⟩ := mk.inj (some.inj ran)
  rw [Bool.and_eq_true, beq_iff_eq] at complete
  have bytes : opened'.out.bytes = [] := vcdRoom_bytes room
  have follows := vcdDrain_follows roomy srcLen
    (fun copied listed => absurd (copies ▸ listed) not_mem_nil) (le_refl _)
    (Prod.ext rfl complete.1) complete.2
  have means : decode patch src = decodeWindows src opened'.left.length
      opened'.out.bytes (opened'.copies.map Copied.addr) opened'.left := by
    rw [decode, header, bind_some, bytes, copies, map_nil]
  rcases follows with ⟨near, run⟩ | ⟨⟨copied, listed, far⟩, apart⟩
  · exact iff_of_true (means.trans run) near
  · exact iff_of_false (fun same => (apart _ (means.symm.trans same)).ne rfl)
      fun near => far (near copied listed)

end Patches

/-- A patch that adds two bytes and copies one from one back means what is made of it. -/
theorem decodeStream_means_near :
    let patch : List UInt8 := [0xD6, 0xC3, 0xC4, 0, 0, 0, 0, 3, 0, 2, 3, 1, 7, 8, 3, 35, 1, 1]
    ∃ s, decodeStream (fun _ _ => 0) patch [] = some (s, true) ∧ s.out.bytes = [7, 8, 8] ∧
      decode patch [] = some (s.out.bytes, s.copies.map Copied.addr) := by
  intro patch
  have decoded : decodeStream (fun _ _ => 0) patch [] =
      some (((decodeStream (fun _ _ => 0) patch []).getD (⟨[], [], 0, false, {}, vcdCacheReset, []⟩,
        true)).1, true) := rfl
  exact ⟨_, decoded, by decide, (decodeStream_means decoded).2 (by decide)⟩

theorem decodeStream_of_drain {freed : Nat → Nat → UInt8} {patch src : List UInt8}
    {opened after : Stream} (opens : vcdiffStreamOpen patch src.length = some opened)
    (ran : vcdDrain freed opened.left.length { opened with src := src } = (after, true))
    (ends : after.left = []) : decodeStream freed patch src = some (after, true) := by
  simp only [decodeStream, opens, ran, ends, bind_eq_bind, bind_some]
  rfl

/-- A window whose segment is a source of 2³² - 1 bytes: two bytes are added, and one is copied from
one back. -/
def farPatch : List UInt8 :=
  [0xD6, 0xC3, 0xC4, 0, 0, 1, 0x8F, 0xFF, 0xFF, 0xFF, 0x7F, 0, 0, 3, 0, 2, 3, 1, 7, 8, 3, 35, 1, 1]

/-- The decoder opened for that patch. -/
def farOpened : Stream :=
  { left := farPatch.drop 5, srcLen := 4294967295, out := { cap := 3, generation := 1 } }

/-- The sections of its window. -/
def farSections : Sections := { tgtLen := 3, data := [7, 8], inst := [3, 35, 1], addr := [1], rest := [] }

theorem farSections_target (tail : List UInt8) :
    ∃ after, vcdTarget (fun _ _ => 0) { farOpened with src := 0 :: tail } (.source 0) 4294967295
      farSections = (.ok, after) ∧ after.out.bytes = [7, 8, 0] ∧ after.left = [] := by
  have add : vcdTable[3]? = some (alone .add 2 0) := by decide
  have copy : vcdTable[35]? = some (alone .copy 0 1) := by decide
  simp [vcdTarget, farOpened, farSections, Stream.window, Stream.work, Stream.leave, Window.stop,
    sizeMax, vcdReserve, vcdInstructions, vcdPair, add, copy, alone, vcdHalf, Half.read,
    vcdSized, Work.append, vcdCopyInst, vcdAddr, addrValue, vcdVarint, varintLoop, vcdCopy,
    segmentBytes]

theorem execCodes_alone {segment inst : List UInt8} {size n : Nat} {state : Reference.State}
    {code : UInt8} {kind : Kind} {own mode : Nat}
    (row : codeTable[code.toNat]? = some (alone kind own mode))
    (short : state.target.length ≠ size) (codes : state.inst = code :: inst) :
    execCodes segment size (n + 1) state =
      (execHalf segment ⟨kind, own, mode⟩ { state with inst := inst }).bind
        (execCodes segment size n) := by
  rw [execCodes, if_neg short, codes]
  simp only
  rw [row, bind_some]
  rfl

theorem farSections_means (segment : List UInt8) (addresses : List Nat) : ∃ state, execCodes segment 3 3
      { caches := .empty
        target := []
        data := [7, 8]
        inst := [3, 35, 1]
        addr := [1]
        addresses := addresses } = some state ∧ state.target = [7, 8, 8] := by
  have add : codeTable[(3 : UInt8).toNat]? = some (alone .add 2 0) := by decide
  have copy : codeTable[(35 : UInt8).toNat]? = some (alone .copy 0 1) := by decide
  have first : execHalf segment ⟨.add, 2, 0⟩
      { caches := .empty
        target := []
        data := [7, 8]
        inst := [35, 1]
        addr := [1]
        addresses := addresses } = some
      { caches := .empty
        target := [7, 8]
        data := []
        inst := [35, 1]
        addr := [1]
        addresses := addresses } := rfl
  have second : execHalf segment ⟨.copy, 0, 1⟩
      { caches := .empty
        target := [7, 8]
        data := []
        inst := [1]
        addr := [1]
        addresses := addresses } = some
      { caches := Reference.Caches.empty.update (segment.length + 1)
        target := [7, 8, 8]
        data := []
        inst := []
        addr := []
        addresses := addresses ++ [segment.length + 1] } := by
    have address : readAddress .empty 1 (segment.length + 2) [1] = some (segment.length + 1, []) := by
      show (if 1 ≤ segment.length + 2 then some (segment.length + 1, []) else none) = _
      exact if_pos (le_add_left 1 _)
    have copied : copyBytes segment 1 (segment.length + 1) [7, 8] = some [7, 8, 8] :=
      copyBytes_target (by decide)
    rw [execHalf, if_neg (by decide), if_pos rfl]
    refine bind_eq_some_iff.2 ⟨(1, []), rfl, ?_⟩
    dsimp only
    rw [execSized]
    refine bind_eq_some_iff.2 ⟨(segment.length + 1, []), address, ?_⟩
    exact map_eq_some_iff.2 ⟨[7, 8, 8], copied, rfl⟩
  refine ⟨{
    caches := Reference.Caches.empty.update (segment.length + 1)
    target := [7, 8, 8]
    data := []
    inst := []
    addr := []
    addresses := addresses ++ [segment.length + 1] }, ?_, rfl⟩
  rw [execCodes_alone add (by simp) rfl, first, bind_some,
    execCodes_alone copy (by simp) rfl, second, bind_some]
  exact if_pos rfl

theorem farPatch_header : vcdVarint (farPatch.drop 6) = some (4294967295, farPatch.drop 11) ∧
      vcdVarint (farPatch.drop 11) = some (0, farPatch.drop 12) ∧
      vcdSections (farPatch.drop 12) = some farSections := by
  decide

theorem farPatch_decoded {tail : List UInt8} (length : tail.length = 4294967294) :
    ∃ s, decodeStream (fun _ _ => 0) farPatch (0 :: tail) = some (s, true) ∧ s.out.bytes = [7, 8, 0] := by
  obtain ⟨segLen, segPos, sections⟩ := farPatch_header
  obtain ⟨after, target, bytes, left⟩ := farSections_target tail
  have segment : vcdSegment { farOpened with src := 0 :: tail } 1 (farPatch.drop 6) =
      .ok (.source 0, 4294967295, farPatch.drop 12) := by
    simp [vcdSegment, segLen, segPos, farOpened, length]
  have window : vcdWindow (fun _ _ => 0) { farOpened with src := 0 :: tail } = (.ok, after) := by
    rw [vcdWindow, show (({ farOpened with src := 0 :: tail } : Stream)).left = 1 :: farPatch.drop 6 from rfl]
    simp only [segment]
    rw [sections]
    exact target
  have opened : vcdiffStreamOpen farPatch (0 :: tail).length = some farOpened := by
    rw [length_cons, length]
    rfl
  refine ⟨after, decodeStream_of_drain opened ?_ left, bytes⟩
  show vcdDrain (fun _ _ => 0) 19 { farOpened with src := 0 :: tail } = (after, true)
  have more : farOpened.left ≠ [] := by decide
  rw [vcdDrain, if_neg more, window]
  simp only
  rw [vcdDrain, if_pos left]

theorem farPatch_means {src : List UInt8} (length : src.length = 4294967295) :
    ∃ addresses, decode farPatch src = some ([7, 8, 8], addresses) := by
  obtain ⟨segLen, segPos, sections⟩ := farPatch_header
  obtain ⟨segment, announced⟩ : ∃ segment, readSegment src [] 1 (farPatch.drop 6) =
      some (segment, farPatch.drop 12) := by
    rw [readSegment, if_neg (by decide), vcdVarint_readInt segLen, bind_some]
    simp only
    rw [vcdVarint_readInt segPos, bind_some]
    refine ⟨_, if_pos ?_⟩
    show 0 + 4294967295 ≤ (if 1 % 2 = 1 then src else []).length
    rw [if_pos (by decide)]
    omega
  obtain ⟨state, codes, target⟩ := farSections_means segment []
  have header : vcdHeader farPatch = some (1 :: farPatch.drop 6) := by decide
  have inst : farSections.inst.length = 3 := rfl
  refine ⟨state.addresses, ?_⟩
  rw [decode, header, bind_some, length_cons, decodeWindows,
    show (1 : UInt8).toNat = 1 from rfl, announced, bind_some]
  simp only
  rw [vcdSections_readSections sections, bind_some]
  simp only [inst]
  refine bind_eq_some_iff.2 ⟨state, codes, ?_⟩
  rw [target]
  rfl

/-- With a segment of 2³² - 1 bytes, the copy from one back that follows two added bytes reads the
segment's first byte instead. -/
theorem far_copy_elsewhere : ¬ ∀ (patch src : List UInt8) (s : Stream),
      decodeStream (fun _ _ => 0) patch src = some (s, true) →
        ∃ addresses, Reference.decode patch src = some (s.out.bytes, addresses) := by
  intro means
  obtain ⟨tail, length⟩ : ∃ tail : List UInt8, tail.length = 4294967294 :=
    ⟨replicate 4294967294 0, length_replicate⟩
  obtain ⟨s, decoded, bytes⟩ := farPatch_decoded length
  obtain ⟨addresses, meant⟩ := means _ _ _ decoded
  have whole : (0 :: tail).length = 4294967295 := by rw [length_cons, length]
  obtain ⟨addresses', defined⟩ := farPatch_means whole
  rw [defined, bytes] at meant
  cases meant

end Libretro.Vcdiff
