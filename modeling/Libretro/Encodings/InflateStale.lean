import Libretro.Encodings.InflateBlocks
import Libretro.Encodings.InflateDecode
import Libretro.Encodings.InflateCopies

/-! Two decoders that differ only in what neither looks at read containers, headers and tables alike. -/

namespace Libretro.Inflate

open BitString CanonicalCode Nat

/-- Two tables by which the same symbols are decoded. -/
def DecodesAlike (h other : Huff) : Prop := ∀ bits, rinfDecode other bits = rinfDecode h bits

variable {h other : Huff} {lengths : List Nat}

theorem Built.fast_eq (built : Built h lengths) (builtToo : Built other lengths) (j : Nat) :
    other.fast j = h.fast j := by
  by_cases none : h.fast j = 0
  · -- An entry of the other table would be one of this table.
    rw [none]
    by_contra some
    obtain ⟨sym, coded, short, found⟩ := builtToo.fastOnly j some
    have entry := built.fast sym coded short j found
    rw [none] at entry
    exact fastEntry_ne_zero coded.positive short entry.symm
  · obtain ⟨sym, coded, short, found⟩ := built.fastOnly j none
    rw [built.fast sym coded short j found, builtToo.fast sym coded short j found]

theorem Built.decodeSlow_eq (built : Built h lengths) (builtToo : Built other lengths) (n : Nat) :
    ∀ (len rev : Nat) (bits : Bits), len + n = 16 → 1 ≤ len →
      first lengths (len - 1) + count lengths (len - 1) ≤ rev →
      decodeSlow other n len rev bits = decodeSlow h n len rev bits := by
  -- What has been read lies behind the codes of every length tried so far.
  induction n with
  | zero => exact fun _ _ _ _ _ _ => rfl
  | succ n ih =>
    intro len rev bits total positive behind
    rw [decodeSlow, decodeSlow]
    obtain ⟨enough, after⟩ := rinfNeed len bits
    dsimp only
    split
    · have most : len ≤ rinfMaxBits := by
        show len ≤ 15
        omega
      obtain ⟨before, rfl⟩ : ∃ before, len = before + 1 := ⟨len - 1, by omega⟩
      rw [Nat.add_sub_cancel] at behind
      have least : first lengths (before + 1) ≤ rev <<< 1 ||| after.bitbuf >>> before &&& 1 := by
        have bit : after.bitbuf >>> before &&& 1 < 2 ^ 1 := by
          rw [and_one_is_mod]
          exact mod_lt _ (by decide)
        rw [← shiftLeft_add_eq_or_of_lt bit, shiftLeft_eq, first]
        omega
      rw [Nat.add_sub_cancel, built.maxcode _ positive most, builtToo.maxcode _ positive most,
        built.firstcode _ positive most, builtToo.firstcode _ positive most]
      split
      · rename_i early
        obtain ⟨sym, symbol⟩ := symbol_within positive least early
        obtain ⟨listed, length, codes⟩ := symbol_some symbol
        have coded : Coded lengths sym := ⟨listed, by omega⟩
        have value := built.value sym coded
        have valueToo := builtToo.value sym coded
        rw [length] at value valueToo
        have place : (rev <<< 1 ||| after.bitbuf >>> before &&& 1) - first lengths (before + 1) =
            rank lengths sym := by
          rw [← codes, code, length, Nat.add_sub_cancel_left]
        rw [place, value, valueToo]
      · rename_i late
        exact ih _ _ _ (by omega) (by omega) (by
          rw [Nat.add_sub_cancel]
          exact Nat.le_of_not_lt late)
    · rfl

theorem Built.alike (built : Built h lengths) (builtToo : Built other lengths) : DecodesAlike h other := by
  intro bits
  rw [rinfDecode, rinfDecode]
  dsimp only
  rw [built.fast_eq builtToo, built.decodeSlow_eq builtToo rinfMaxBits 1 0 _ rfl (le_refl 1) (zero_le _)]

/-- Two pairs of packed tables by which the same symbols are decoded. -/
structure TablesAlike (lencode distcode lencode' distcode' : Huff) : Prop where
  lit : DecodesAlike lencode lencode'
  dist : DecodesAlike distcode distcode'
  litPacked : ∀ j, lencode'.pfast j = lencode.pfast j
  distPacked : ∀ j, distcode'.pfast j = distcode.pfast j

/-- Two rings that hold the last bytes of one history. -/
def RingsAlike (wnext whave : Nat) (window window' : Nat → UInt8) : Prop :=
  ∃ history, Ring window wnext whave history ∧ Ring window' wnext whave history

/-- The parts of a decoder that a reset leaves as they are. -/
structure Stale where
  window : Nat → UInt8
  lencode : Huff
  distcode : Huff
  clcode : Huff

/-- The decoder with other such parts. -/
def State.stale (s : State) (x : Stale) : State :=
  { s with window := x.window, lencode := x.lencode, distcode := x.distcode, clcode := x.clcode }

/-- What other parts need so that nobody sees the difference. -/
structure AgreesParts (wnext whave wcur wprior : Nat) (window : Nat → UInt8)
    (lencode distcode clcode : Huff) (loaded built : Prop) (x : Stale) : Prop where
  ring : RingsAlike wnext whave window x.window
  reach : wprior = 0 ∨ wprior + wcur ≤ whave
  tables : loaded → TablesAlike lencode distcode x.lencode x.distcode
  clcode : built → DecodesAlike clcode x.clcode

/-- The parts that are in use agree with the decoder's own. -/
abbrev Agrees (s : State) (x : Stale) : Prop :=
  AgreesParts s.wnext s.whave s.wcur s.wprior s.window s.lencode s.distcode s.clcode
    (s.fixedLoaded = true ∨ s.phase = .blockData) (s.clcodeBuilt = true) x

/-- A call on the decoder with other such parts. -/
def Call.stale (c : Call) (x : Stale) : Call := { c with s := c.s.stale x }

/-- The places of a call inside a block's data. -/
def Pc.Inner : Pc → Prop
  | .fastAgain => True
  | .fast _ => True
  | .chain _ _ => True
  | .careful => True
  | _ => False

/-- Two turns that differ only in what nobody looks at. -/
inductive Turn.Alike : Turn → Turn → Prop
  | on {c : Call} {x : Stale} (agrees : Agrees c.s x) (inner : c.pc.Inner → c.s.phase = .blockData) :
      Alike (.on c) (.on (c.stale x))
  | back {status : Status} {s : State} {x : Stale} {read wrote : Nat} (agrees : Agrees s x) :
      Alike (.back status s read wrote) (.back status (s.stale x) read wrote)

variable {s : State} {c : Call} {x : Stale}

theorem ite_alike_iff {cond cond' : Prop} [Decidable cond] [Decidable cond'] {t t' e e' : Turn}
    (same : cond' ↔ cond) (yes : cond → t.Alike t') (no : ¬cond → e.Alike e') :
    (if cond then t else e).Alike (if cond' then t' else e') := by
  by_cases holds : cond
  · rw [if_pos holds, if_pos (same.2 holds)]
    exact yes holds
  · rw [if_neg holds, if_neg fun other => holds (same.1 other)]
    exact no holds

theorem ite_alike {cond : Prop} [Decidable cond] {t t' e e' : Turn}
    (yes : cond → t.Alike t') (no : ¬cond → e.Alike e') :
    (if cond then t else e).Alike (if cond then t' else e') :=
  ite_alike_iff Iff.rfl yes no

theorem AgreesParts.leave {wnext whave wcur wprior : Nat} {window : Nat → UInt8}
    {lencode distcode clcode : Huff} {loaded data built : Prop}
    (agrees : AgreesParts wnext whave wcur wprior window lencode distcode clcode (loaded ∨ data)
      built x) {other : Prop} (out : ¬other) :
    AgreesParts wnext whave wcur wprior window lencode distcode clcode (loaded ∨ other) built x :=
  { agrees with tables := fun used => agrees.tables (.inl (used.resolve_right out)) }

theorem RingsAlike.put {wnext whave : Nat} {window window' : Nat → UInt8} {src : List UInt8}
    (ring : RingsAlike wnext whave window window') (fits : src.length ≤ 32768) :
    RingsAlike ((wnext + src.length) % 32768) (min (whave + src.length) 32768)
      (putRing window wnext src) (putRing window' wnext src) := by
  obtain ⟨history, own, others⟩ := ring
  exact ⟨history ++ src, own.put fits ⟨history, rfl, .inl rfl⟩, others.put fits ⟨history, rfl, .inl rfl⟩⟩

theorem commit_some {src : List UInt8} (some : ¬((s.out.take s.outPos).drop s.wcur).length = 0)
    (made : src = ((s.out.take s.outPos).drop s.wcur).drop
      (((s.out.take s.outPos).drop s.wcur).length - 32768)) :
    rinfWindowCommit s = { s with
      window := putRing s.window s.wnext src
      wnext := if min src.length (32768 - s.wnext) < src.length then
          src.length - min src.length (32768 - s.wnext)
        else if s.wnext + min src.length (32768 - s.wnext) = 32768 then 0
        else s.wnext + min src.length (32768 - s.wnext)
      whave := min (s.whave + src.length) 32768
      wcur := s.outPos % 2 ^ 32
      wprior := if s.outPos % 2 ^ 32 < min (s.whave + src.length) 32768 then
          min (s.whave + src.length) 32768 - s.outPos % 2 ^ 32
        else 0 } := by
  rw [rinfWindowCommit]
  dsimp only
  rw [if_neg some, ← made, putRing]

theorem rinfWindowCommit_stale (agrees : Agrees s x) :
    ∃ after, rinfWindowCommit (s.stale x) = (rinfWindowCommit s).stale after ∧
      Agrees (rinfWindowCommit s) after := by
  by_cases nothing : ((s.out.take s.outPos).drop s.wcur).length = 0
  · have stays : rinfWindowCommit s = s := if_pos nothing
    have staysToo : rinfWindowCommit (s.stale x) = s.stale x := if_pos nothing
    exact ⟨x, by rw [stays, staysToo], by rwa [stays]⟩
  · obtain ⟨src, made⟩ : ∃ src, src = ((s.out.take s.outPos).drop s.wcur).drop
        (((s.out.take s.outPos).drop s.wcur).length - 32768) := ⟨_, rfl⟩
    have fits : src.length ≤ 32768 := by
      rw [made, List.length_drop]
      omega
    have next := agrees.ring.choose_spec.1.next
    have own := commit_some nothing made
    have others := @commit_some (s.stale x) src nothing made
    refine ⟨{ x with window := putRing x.window s.wnext src }, by rw [own, others]; rfl, ?_⟩
    rw [own]
    refine ⟨?_, ?_, agrees.tables, agrees.clcode⟩
    · dsimp only
      rw [commit_next next fits]
      exact agrees.ring.put fits
    · dsimp only
      split
      · right
        omega
      · exact .inl rfl

/-- The decoder with the checksums folded over some output. -/
def State.folded (s : State) (foldStart : Nat) (unfolded : List UInt8) : State :=
  { s with
    adler := if foldStart < s.outPos ∧ s.wrap = .zlib then rdAdler32Update s.adler unfolded
      else s.adler
    crc := if foldStart < s.outPos ∧ s.wrap = .gzip then encodingCrc32 s.crc unfolded else s.crc
    totalOut := if foldStart < s.outPos ∧ s.wrap = .gzip then
        s.totalOut + UInt32.ofNat (s.outPos - foldStart)
      else s.totalOut }

theorem finish_folded (c : Call) (status : Status) : finish c status = .back status
    ((rinfWindowCommit c.s).folded c.foldStart c.unfolded)
    ((rinfWindowCommit c.s).bits.inPos - c.inStart) ((rinfWindowCommit c.s).outPos - c.outStart) := by
  unfold finish State.folded
  dsimp only
  generalize rinfWindowCommit c.s = s
  by_cases made : c.foldStart < s.outPos
  · rw [if_pos made]
    split <;> rename_i wrap <;> simp_all
  · simp [made]

theorem finish_alike (agrees : Agrees c.s x) (status : Status) :
    (finish c status).Alike (finish (c.stale x) status) := by
  obtain ⟨after, committed, agreesAfter⟩ := rinfWindowCommit_stale agrees
  have same : rinfWindowCommit (c.stale x).s = (rinfWindowCommit c.s).stale after := committed
  rw [finish_folded, finish_folded, same]
  exact .back (s := (rinfWindowCommit c.s).folded c.foldStart c.unfolded) agreesAfter

theorem suspend_alike (agrees : Agrees c.s x) : (suspend c).Alike (suspend (c.stale x)) :=
  finish_alike agrees .next

/-- The decoder after an error, with some output folded into the first checksum. -/
def State.failed (s : State) (foldStart : Nat) (unfolded : List UInt8) : State :=
  { s with
    error := true
    adler := if s.wrapped = true ∧ foldStart < s.outPos then rdAdler32Update s.adler unfolded
      else s.adler }

theorem fail_failed (c : Call) : fail c = .back .error (c.s.failed c.foldStart c.unfolded)
    (c.s.bits.inPos - c.inStart) (c.s.outPos - c.outStart) := by
  unfold fail State.failed
  dsimp only
  by_cases folds : c.s.wrapped = true ∧ c.foldStart < c.s.outPos
  · rw [if_pos folds, if_pos folds]
  · rw [if_neg folds, if_neg folds]

theorem fail_alike (agrees : Agrees c.s x) : (fail c).Alike (fail (c.stale x)) := by
  rw [fail_failed, fail_failed]
  exact .back (s := c.s.failed c.foldStart c.unfolded) agrees

/-- A branch that fails on both sides leaves the other one. -/
theorem ite_fail {cond : Prop} [Decidable cond] {e e' : Turn} (agrees : Agrees c.s x)
    (no : ¬cond → e.Alike e') :
    (if cond then fail c else e).Alike (if cond then fail (c.stale x) else e') :=
  ite_alike (fun _ => fail_alike agrees) no

theorem needing_alike (agrees : Agrees c.s x) {n : Nat} {next : Call → Turn}
    (following : ∀ bits, (next (c.setBits bits)).Alike (next ((c.setBits bits).stale x))) :
    (needing n c next).Alike (needing n (c.stale x) next) := by
  unfold needing
  have same : rinfNeed n (c.stale x).s.bits = rinfNeed n c.s.bits := rfl
  rw [same]
  obtain ⟨enough, bits⟩ := rinfNeed n c.s.bits
  cases enough with
  | true => exact following bits
  | false => exact suspend_alike (c := c.setBits bits) agrees

theorem enterPhase_alike (agrees : Agrees c.s x) {phase : Phase} (out : phase ≠ .blockData) :
    (c.enterPhase phase).Alike ((c.stale x).enterPhase phase) := by
  refine .on (x := x) ?_ nofun
  exact agrees.leave out

variable {s : State} {c : Call} {x : Stale}

variable (agrees : Agrees c.s x)
include agrees

theorem skipping_alike : (skipping c).Alike (skipping (c.stale x)) := by
  refine ite_alike (fun _ => ?_) fun _ => ?_
  · refine needing_alike agrees fun bits => ?_
    refine .on (x := x) ?_ nofun
    exact agrees
  · refine .on (x := x) ?_ nofun
    exact agrees

theorem hdrSniff_alike (away : ¬c.pc.Inner) : (hdrSniff c).Alike (hdrSniff (c.stale x)) := by
  refine needing_alike agrees fun bits => ?_
  refine .on (x := x) ?_ fun inner => absurd inner away
  refine agrees.leave ?_
  dsimp only
  split <;> decide

omit agrees

theorem gzSkip_alike (n : Nat) : ∀ c : Call, Agrees c.s x → ¬c.pc.Inner →
    (gzSkip n c).Alike (gzSkip n (c.stale x)) := by
  induction n with
  | zero =>
    intro c agrees away
    refine .on (x := x) ?_ fun inner => absurd inner away
    exact agrees.leave nofun
  | succ n ih =>
    intro c agrees away
    refine needing_alike agrees fun bits => ?_
    refine ih _ ?_ away
    exact agrees

include agrees

variable (away : ¬c.pc.Inner)
include away

theorem gzHeader_alike : (gzHeader c).Alike (gzHeader (c.stale x)) := by
  refine needing_alike agrees fun bits => ?_
  refine ite_fail agrees fun _ => ?_
  refine needing_alike ?_ fun bits => ?_
  · exact agrees
  refine ite_fail agrees fun _ => ?_
  refine ite_fail agrees fun _ => ?_
  refine gzSkip_alike 6 _ ?_ away
  exact agrees

theorem gzExtra_alike : (gzExtra c).Alike (gzExtra (c.stale x)) := by
  refine ite_alike (fun _ => enterPhase_alike agrees nofun) fun _ => ?_
  refine ite_alike (fun _ => ?_) fun _ => ?_
  · refine needing_alike agrees fun bits => ?_
    refine .on (x := x) ?_ fun inner => absurd inner away
    exact agrees
  refine ite_alike (fun _ => ?_) fun _ => ?_
  · refine needing_alike agrees fun bits => ?_
    refine .on (x := x) ?_ fun inner => absurd inner away
    exact agrees
  · refine .on (x := x) ?_ fun inner => absurd inner away
    exact agrees.leave nofun

omit away

theorem gzText_alike (flag : Nat) {after : Phase}
    (out : after ≠ .blockData) : (gzText flag after c).Alike (gzText flag after (c.stale x)) := by
  refine ite_alike (fun _ => enterPhase_alike agrees out) fun _ => ?_
  refine needing_alike agrees fun bits => ?_
  refine ite_alike (fun _ => ?_) fun _ => ?_
  · refine enterPhase_alike ?_ out
    exact agrees
  · refine .on (x := x) ?_ nofun
    exact agrees

theorem gzHcrc_alike : (gzHcrc c).Alike (gzHcrc (c.stale x)) := by
  refine ite_alike (fun _ => ?_) fun _ => enterPhase_alike agrees nofun
  refine needing_alike agrees fun bits => ?_
  refine enterPhase_alike ?_ nofun
  exact agrees

theorem zHeader_alike : (zHeader c).Alike (zHeader (c.stale x)) := by
  refine needing_alike agrees fun bits => ?_
  refine ite_fail agrees fun _ => ?_
  refine ite_fail agrees fun _ => ?_
  refine ite_fail agrees fun _ => ?_
  refine enterPhase_alike ?_ nofun
  exact agrees

theorem foldCrc_stale : foldCrc (c.stale x) = (foldCrc c).stale x ∧ Agrees (foldCrc c).s x ∧
      (foldCrc c).pc = c.pc := by
  by_cases made : c.foldStart < c.s.outPos
  · have own : foldCrc c = _ := if_pos made
    have others : foldCrc (c.stale x) = _ := if_pos made
    rw [own, others]
    exact ⟨rfl, agrees, rfl⟩
  · have own : foldCrc c = _ := if_neg made
    have others : foldCrc (c.stale x) = _ := if_neg made
    rw [own, others]
    exact ⟨rfl, agrees, rfl⟩

/-- The gzip trailer is read alike. -/
theorem gzCrc_alike (away : ¬c.pc.Inner) : (gzCrc c).Alike (gzCrc (c.stale x)) := by
  obtain ⟨folded, agrees, same⟩ := foldCrc_stale agrees
  unfold gzCrc
  dsimp only
  rw [folded]
  rw [← same] at away
  generalize foldCrc c = c at agrees away ⊢
  refine ite_alike (fun _ => ?_) fun _ => ?_
  · refine needing_alike ?_ fun bits => ?_
    · exact agrees
    refine ite_alike (fun _ => ?_) fun _ => ?_
    · refine ite_fail agrees fun _ => ?_
      refine .on (x := x) ?_ fun inner => absurd inner away
      exact agrees
    · refine .on (x := x) ?_ fun inner => absurd inner away
      exact agrees
  refine ite_fail agrees fun _ => ?_
  refine enterPhase_alike ?_ nofun
  exact agrees

theorem foldAdler_stale : foldAdler (c.stale x) = (foldAdler c).stale x ∧ Agrees (foldAdler c).s x ∧
      (foldAdler c).pc = c.pc := by
  by_cases made : c.foldStart < c.s.outPos
  · have own : foldAdler c = _ := if_pos made
    have others : foldAdler (c.stale x) = _ := if_pos made
    rw [own, others]
    exact ⟨rfl, agrees, rfl⟩
  · have own : foldAdler c = _ := if_neg made
    have others : foldAdler (c.stale x) = _ := if_neg made
    rw [own, others]
    exact ⟨rfl, agrees, rfl⟩

/-- The zlib trailer is read alike. -/
theorem adlerTrailer_alike (away : ¬c.pc.Inner) : (adlerTrailer c).Alike (adlerTrailer (c.stale x)) := by
  obtain ⟨folded, agrees, same⟩ := foldAdler_stale agrees
  unfold adlerTrailer
  dsimp only
  rw [folded]
  rw [← same] at away
  generalize foldAdler c = c at agrees away ⊢
  refine ite_alike (fun _ => ?_) fun _ => ?_
  · refine needing_alike ?_ fun bits => ?_
    · exact agrees
    refine .on (x := x) ?_ fun inner => absurd inner away
    exact agrees
  refine ite_fail agrees fun _ => ?_
  refine enterPhase_alike ?_ nofun
  exact agrees

omit agrees

theorem Tables.alike {lencode distcode lencode' distcode' : Huff} {literals distances : List Nat}
    (tables : Tables lencode distcode literals distances)
    (others : Tables lencode' distcode' literals distances) :
    TablesAlike lencode distcode lencode' distcode' where
  lit := tables.lit.alike others.lit
  dist := tables.dist.alike others.dist
  litPacked j := by rw [tables.litPacked, others.litPacked, tables.lit.fast_eq others.lit]
  distPacked j := by rw [tables.distPacked, others.distPacked, tables.dist.fast_eq others.dist]

theorem rinfFixedTables_stale (agrees : Agrees s x) : ∃ after,
    rinfFixedTables (s.stale x) = (rinfFixedTables s).stale after ∧
      Agrees { rinfFixedTables s with copyActive := false, phase := .blockData } after := by
  have built : ∀ lencode distcode, Tables (rinfPackLen (rinfBuild lencode fixedLitLengths).2)
      (rinfPackDist (rinfBuild distcode fixedDistLengths).2) fixedLitLengths fixedDistLengths :=
    fun lencode distcode => packed_tables ((rinfBuild_spec lencode _).2 fixed_makesCode.1)
      ((rinfBuild_spec distcode _).2 fixed_makesCode.2)
  by_cases loaded : s.fixedLoaded = true
  · have own : rinfFixedTables s = _ := if_pos loaded
    have others : rinfFixedTables (s.stale x) = _ := if_pos loaded
    refine ⟨x, by rw [own, others]; rfl, ?_⟩
    rw [own]
    exact ⟨agrees.ring, agrees.reach, fun _ => agrees.tables (.inl loaded), agrees.clcode⟩
  · have own : rinfFixedTables s = _ := if_neg loaded
    have others : rinfFixedTables (s.stale x) = _ := if_neg loaded
    refine ⟨{ x with
      lencode := rinfPackLen (rinfBuild x.lencode fixedLitLengths).2
      distcode := rinfPackDist (rinfBuild x.distcode fixedDistLengths).2 }, ?_, ?_⟩
    · rw [own, others]
      dsimp only [State.stale]
    · rw [own]
      exact ⟨agrees.ring, agrees.reach,
        fun _ => (built s.lencode s.distcode).alike (built x.lencode x.distcode), agrees.clcode⟩

include agrees

include away

theorem fixedBlock_alike :
    (Turn.on { c with
      s := { rinfFixedTables c.s with copyActive := false, phase := .blockData } }).Alike
      (.on { c.stale x with
        s := { rinfFixedTables (c.s.stale x) with copyActive := false, phase := .blockData } }) := by
  obtain ⟨after, same, agreesAfter⟩ := rinfFixedTables_stale agrees
  rw [same]
  refine .on (x := after) ?_ fun inner => absurd inner away
  exact agreesAfter

/-- A block's header is read alike. -/
theorem blockHdr_alike : (blockHdr c).Alike (blockHdr (c.stale x)) := by
  refine ite_alike (fun _ => ?_) fun _ => ?_
  · refine finish_alike ?_ .block
    exact agrees
  refine ite_alike (fun _ => ?_) fun _ => ?_
  · refine finish_alike ?_ .block
    exact agrees
  refine needing_alike agrees fun bits => ?_
  refine ite_alike (fun _ => ?_) fun _ => ?_
  · refine enterPhase_alike ?_ nofun
    exact agrees
  refine ite_alike (fun _ => ?_) fun _ => ?_
  · refine fixedBlock_alike ?_ away
    exact agrees
  refine ite_alike (fun _ => ?_) fun _ => ?_
  · refine .on (x := x) ?_ fun inner => absurd inner away
    exact agrees.leave nofun
  · refine fail_alike ?_
    exact agrees

omit away

theorem blockEnd_alike : (blockEnd c).Alike (blockEnd (c.stale x)) := by
  refine .on (x := x) ?_ nofun
  refine agrees.leave ?_
  dsimp only
  split
  · cases c.s.wrap <;> decide
  · decide

theorem storedLen_alike (away : ¬c.pc.Inner) : (storedLen c).Alike (storedLen (c.stale x)) := by
  refine needing_alike agrees fun bits => ?_
  refine ite_fail agrees fun _ => ?_
  refine .on (x := x) ?_ fun inner => absurd inner away
  exact agrees.leave nofun

theorem storedBulk_alike : (storedBulk c).Alike (storedBulk (c.stale x)) := by
  refine ite_alike (fun _ => ?_) fun _ => ?_
  · refine ite_alike (fun _ => ?_) fun _ => ?_
    · refine suspend_alike ?_
      exact agrees
    · refine .on (x := x) ?_ nofun
      exact agrees
  · refine .on (x := x) ?_ nofun
    exact agrees

/-- A byte is stored alike. -/
theorem emit_alike {b : UInt8} {full full' : Turn} {next next' : State → Turn} (fullAlike : full.Alike full')
    (following : ∀ s, Agrees s x → s.phase = c.s.phase → (next s).Alike (next' (s.stale x))) :
    (match rinfEmit c.s b with
      | none => full
      | some s => next s).Alike (match rinfEmit (c.stale x).s b with
      | none => full'
      | some s => next' s) := by
  by_cases room : c.s.outSize ≤ c.s.outPos
  · have own : rinfEmit c.s b = none := if_pos room
    have others : rinfEmit (c.stale x).s b = none := if_pos room
    rw [own, others]
    exact fullAlike
  · have own : rinfEmit c.s b = some _ := if_neg room
    have others : rinfEmit (c.stale x).s b = some _ := if_neg room
    rw [own, others]
    exact following _ agrees rfl

theorem storedData_alike : (storedData c).Alike (storedData (c.stale x)) := by
  refine ite_alike (fun _ => ?_) fun _ => storedBulk_alike agrees
  refine emit_alike agrees (suspend_alike agrees) fun s agrees _ => ?_
  refine storedBulk_alike ?_
  exact agrees

include away

theorem storedBytes_alike : (storedBytes c).Alike (storedBytes (c.stale x)) := by
  refine ite_alike (fun _ => ?_) fun _ => blockEnd_alike agrees
  refine needing_alike agrees fun bits => ?_
  refine emit_alike ?_ ?_ fun s agrees _ => ?_
  · exact agrees
  · refine suspend_alike ?_
    exact agrees
  · refine .on (x := x) ?_ fun inner => absurd inner away
    exact agrees

theorem dynCounts_alike : (dynCounts c).Alike (dynCounts (c.stale x)) := by
  refine needing_alike agrees fun bits => ?_
  refine .on (x := x) ?_ fun inner => absurd inner away
  exact { agrees with clcode := nofun }

theorem dynRepeat_alike (val times : Nat) :
    (dynRepeat val times c).Alike (dynRepeat val times (c.stale x)) := by
  refine ite_fail agrees fun _ => ?_
  refine .on (x := x) ?_ fun inner => absurd inner away
  exact agrees

theorem dynSymbol_alike (sym : Nat) : (dynSymbol sym c).Alike (dynSymbol sym (c.stale x)) := by
  refine ite_alike (fun _ => ?_) fun _ => ?_
  · refine .on (x := x) ?_ fun inner => absurd inner away
    exact agrees
  refine ite_alike (fun _ => ?_) fun _ => ?_
  · refine ite_fail agrees fun _ => ?_
    refine needing_alike ?_ fun bits => ?_
    · exact agrees
    refine dynRepeat_alike ?_ ?_ _ _
    · exact agrees
    · exact away
  refine ite_alike (fun _ => ?_) fun _ => ?_
  · refine needing_alike ?_ fun bits => ?_
    · exact agrees
    refine dynRepeat_alike ?_ ?_ _ _
    · exact agrees
    · exact away
  · refine needing_alike ?_ fun bits => ?_
    · exact agrees
    refine dynRepeat_alike ?_ ?_ _ _
    · exact agrees
    · exact away

theorem dynBuild_alike (phase : c.s.phase ≠ .blockData) : (dynBuild c).Alike (dynBuild (c.stale x)) := by
  obtain ⟨literals, lits⟩ : ∃ literals, literals = c.s.lengths.take c.s.hlit.toNat := ⟨_, rfl⟩
  obtain ⟨distances, dists⟩ :
      ∃ distances, distances = (c.s.lengths.drop c.s.hlit.toNat).take c.s.hdist.toNat := ⟨_, rfl⟩
  have litSame : (rinfBuild x.lencode literals).1 = true ↔ (rinfBuild c.s.lencode literals).1 = true := by
    rw [(rinfBuild_spec x.lencode literals).1, (rinfBuild_spec c.s.lencode literals).1]
  have distSame : (rinfBuild x.distcode distances).1 = true ↔
      (rinfBuild c.s.distcode distances).1 = true := by
    rw [(rinfBuild_spec x.distcode distances).1, (rinfBuild_spec c.s.distcode distances).1]
  have unused : ∀ {lencode distcode lencode' distcode' : Huff}, (false = true ∨ c.s.phase = .blockData) →
        TablesAlike lencode distcode lencode' distcode' := by
    rintro _ _ _ _ (loaded | data)
    · cases loaded
    · exact absurd data phase
  subst lits dists
  refine ite_alike_iff litSame (fun litRight => ?_) fun _ => ?_
  · refine ite_alike_iff distSame (fun distRight => ?_) fun _ => ?_
    · -- Both tables are built, and from now on they are used.
      rw [(rinfBuild_spec _ _).1] at litRight distRight
      have built : ∀ lencode distcode, Tables
          (rinfPackLen (rinfBuild lencode (c.s.lengths.take c.s.hlit.toNat)).2)
          (rinfPackDist (rinfBuild distcode
            ((c.s.lengths.drop c.s.hlit.toNat).take c.s.hdist.toNat)).2) _ _ :=
        fun lencode distcode => packed_tables ((rinfBuild_spec lencode _).2 litRight)
          ((rinfBuild_spec distcode _).2 distRight)
      refine .on (x := { x with
        lencode := rinfPackLen (rinfBuild x.lencode (c.s.lengths.take c.s.hlit.toNat)).2
        distcode := rinfPackDist (rinfBuild x.distcode
          ((c.s.lengths.drop c.s.hlit.toNat).take c.s.hdist.toNat)).2 }) ?_
        fun inner => absurd inner away
      exact ⟨agrees.ring, agrees.reach,
        fun _ => (built c.s.lencode c.s.distcode).alike (built x.lencode x.distcode), agrees.clcode⟩
    · refine fail_alike (x := { x with
        lencode := (rinfBuild x.lencode (c.s.lengths.take c.s.hlit.toNat)).2
        distcode := (rinfBuild x.distcode
          ((c.s.lengths.drop c.s.hlit.toNat).take c.s.hdist.toNat)).2 }) ?_
      exact ⟨agrees.ring, agrees.reach, unused, agrees.clcode⟩
  · refine fail_alike (x := { x with
      lencode := (rinfBuild x.lencode (c.s.lengths.take c.s.hlit.toNat)).2 }) ?_
    exact ⟨agrees.ring, agrees.reach, unused, agrees.clcode⟩

/-- A dynamic block's tables are read alike. -/
theorem dynTable_alike (phase : c.s.phase ≠ .blockData) : (dynTable c).Alike (dynTable (c.stale x)) := by
  refine ite_alike (fun _ => dynCounts_alike agrees away) fun _ => ?_
  refine ite_alike (fun _ => ?_) fun _ => ?_
  · refine needing_alike agrees fun bits => ?_
    refine .on (x := x) ?_ fun inner => absurd inner away
    exact agrees
  refine ite_alike (fun unbuilt => ?_) fun built => ?_
  · -- The code length code is built before it is used.
    refine ite_alike_iff ?_ (fun right => ?_) fun _ => ?_
    · show (rinfBuild x.clcode c.s.clLengths).1 = true ↔ (rinfBuild c.s.clcode c.s.clLengths).1 = true
      rw [(rinfBuild_spec _ _).1, (rinfBuild_spec _ _).1]
    · rw [(rinfBuild_spec _ _).1] at right
      have builtOwn := (rinfBuild_spec c.s.clcode c.s.clLengths).2 right
      have builtOther := (rinfBuild_spec x.clcode c.s.clLengths).2 right
      refine .on (x := { x with clcode := (rinfBuild x.clcode c.s.clLengths).2 }) ?_
        fun inner => absurd inner away
      exact ⟨agrees.ring, agrees.reach, agrees.tables, fun _ => builtOwn.alike builtOther⟩
    · refine fail_alike (x := { x with clcode := (rinfBuild x.clcode c.s.clLengths).2 }) ?_
      exact ⟨agrees.ring, agrees.reach, agrees.tables, fun built => absurd built unbuilt⟩
  refine ite_alike (fun _ => ?_) fun _ => dynBuild_alike agrees away phase
  refine ite_alike (fun _ => ?_) fun _ => dynSymbol_alike agrees away _
  have same : rinfDecode (c.stale x).s.clcode (c.stale x).s.bits = rinfDecode c.s.clcode c.s.bits :=
    agrees.clcode (not_not.1 built) _
  rw [same]
  obtain ⟨decoded, bits⟩ := rinfDecode c.s.clcode c.s.bits
  cases decoded with
  | short =>
    refine suspend_alike ?_
    exact agrees
  | invalid =>
    refine fail_alike ?_
    exact agrees
  | sym sym =>
    refine dynSymbol_alike ?_ ?_ sym
    · exact agrees
    · exact away

end Libretro.Inflate
