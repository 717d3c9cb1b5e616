import Libretro.Encodings.Vcdiff
import Libretro.Library.Transition

/-! Which allocation a segment pointer belongs to, and when there is room for every window. -/

namespace Libretro.Vcdiff

open List Option Transition

/-- A segment pointer into the output belongs to the allocation current at the copy. -/
def Copied.Fresh (copied : Copied) : Prop :=
  ∀ pos generation, copied.origin = .target pos generation → generation = copied.generation

/-- What a window's instructions leave of the allocation, and the copies they add. -/
structure Work.Copies (win : Window) (work after : Work) : Prop where
  generation : after.out.generation = work.out.generation
  cap : after.out.cap = work.out.cap
  added : ∃ more, after.copies = work.copies ++ more ∧
    ∀ copied ∈ more, copied.origin = win.origin ∧ copied.generation = work.out.generation

section Windows

variable {freed : Nat → Nat → UInt8} {src : List UInt8} {win : Window} {work after last : Work}

theorem Work.Copies.refl : work.Copies win work :=
  ⟨rfl, rfl, [], (append_nil _).symm, fun _ listed => absurd listed not_mem_nil⟩

theorem Work.Copies.trans (first : work.Copies win after) (second : after.Copies win last) :
    work.Copies win last := by
  obtain ⟨more, e, each⟩ := first.added
  obtain ⟨more', e', each'⟩ := second.added
  refine ⟨second.generation.trans first.generation, second.cap.trans first.cap, more ++ more',
    by rw [e', e, List.append_assoc], fun copied listed => ?_⟩
  rcases mem_append.1 listed with early | late
  · exact each copied early
  · exact ⟨(each' copied late).1, (each' copied late).2.trans first.generation⟩

theorem Work.Copies.still (generation : after.out.generation = work.out.generation)
    (cap : after.out.cap = work.out.cap) (copies : after.copies = work.copies) :
    work.Copies win after :=
  ⟨generation, cap, [], by rw [copies, append_nil],
    fun _ listed => absurd listed not_mem_nil⟩

theorem vcdCopyInst_copies (mode size : Nat) :
    work.Copies win (vcdCopyInst freed src win work mode size).1 := by
  simp only [vcdCopyInst]
  split
  · exact .refl
  · split <;> exact ⟨rfl, rfl, _, rfl, fun copied listed => by
      obtain rfl := mem_singleton.1 listed
      exact ⟨rfl, rfl⟩⟩

theorem vcdSized_copies (half : Half) (size : Nat) :
    work.Copies win (vcdSized freed src win work half size).1 := by
  rw [vcdSized]
  split
  · exact .refl
  · cases half.kind with
    | noop => exact .refl
    | add =>
      simp only
      split <;> exact .still rfl rfl rfl
    | run =>
      simp only
      split <;> exact .still rfl rfl rfl
    | copy => exact vcdCopyInst_copies _ _

theorem vcdHalf_copies (half : Half) : work.Copies win (vcdHalf freed src win work half).1 := by
  rw [vcdHalf]
  split_ifs
  · exact .refl
  · split
    · exact .refl
    · rename_i inst _
      have moved : work.Copies win { work with inst := inst } := .still rfl rfl rfl
      exact moved.trans (vcdSized_copies _ _)

theorem vcdPair_copies (code : UInt8) : work.Copies win (vcdPair freed src win work code).1 := by
  rw [vcdPair]
  split
  · exact .refl
  · rename_i pair _
    have first : work.Copies win (vcdHalf freed src win work pair.first).1 := vcdHalf_copies _
    split <;> rename_i e <;> rw [e] at first
    · exact first
    · exact first.trans (vcdHalf_copies _)

/-- A window's codes add the copies of each. -/
theorem vcdInstructions_copies (n : Nat) : work.Copies win (vcdInstructions freed src win n work).1 := by
  induction n generalizing work with
  | zero => exact .refl
  | succ n ih =>
    rw [vcdInstructions]
    split
    · split
      · exact .refl
      · rename_i code inst _
        have moved : work.Copies win { work with inst := inst } := .still rfl rfl rfl
        have pair : Work.Copies win { work with inst := inst }
            (vcdPair freed src win { work with inst := inst } code).1 := vcdPair_copies _
        split <;> rename_i e <;> rw [e] at pair
        · exact moved.trans pair
        · exact (moved.trans pair).trans ih
    · exact .refl

/-- What an attempt at a window leaves of the decoder, and the copies it adds, whose segment pointer
is `origin` and whose allocation is `generation`. -/
structure Stream.Copies (origin : Origin) (generation : Nat) (s after : Stream) : Prop where
  src : after.src = s.src
  srcLen : after.srcLen = s.srcLen
  failed : after.failed = s.failed
  added : ∃ more, after.copies = s.copies ++ more ∧
    ∀ copied ∈ more, copied.origin = origin ∧ copied.generation = generation

theorem Stream.Copies.refl {origin : Origin} {generation : Nat} {s : Stream} : s.Copies origin generation s :=
  ⟨rfl, rfl, rfl, [], (append_nil _).symm, fun _ listed => absurd listed not_mem_nil⟩

/-- The allocation is kept as long as there is room in it, and replaced once otherwise. -/
def Out.generationFor (out : Out) (need : Nat) : Nat :=
  if need ≤ out.cap then out.generation else out.generation + 1

theorem vcdReserve_spec {out grown : Out} {need : Nat} (made : vcdReserve out need = some grown) :
    grown.bytes = out.bytes ∧ grown.generation = out.generationFor need ∧ (need ≤ out.cap → grown = out) := by
  rw [vcdReserve] at made
  rw [Out.generationFor]
  split at made
  · rename_i enough
    obtain rfl := some.inj made
    exact ⟨rfl, (if_pos enough).symm, fun _ => rfl⟩
  · rename_i short
    obtain ⟨cap, -, rfl⟩ := map_eq_some_iff.1 made
    exact ⟨rfl, (if_neg short).symm, fun enough => absurd enough short⟩

variable {s : Stream}

theorem vcdTarget_copies (origin : Origin) (segLen : Nat) (sections : Sections) :
    s.Copies origin (s.out.generationFor (s.out.bytes.length + sections.tgtLen))
      (vcdTarget freed s origin segLen sections).2 := by
  rw [vcdTarget]
  split
  · exact .refl
  · split
    · exact .refl
    · rename_i out made
      -- The codes are executed in the new allocation, and none of them changes it.
      obtain ⟨-, generation, -⟩ := vcdReserve_spec made
      have run : (s.work out sections).Copies (s.window origin segLen sections)
          (vcdInstructions freed s.src (s.window origin segLen sections) sections.inst.length
            (s.work out sections)).1 := vcdInstructions_copies _
      obtain ⟨more, added, each⟩ := run.added
      have all : ∀ copied ∈ more, copied.origin = origin ∧ copied.generation =
          s.out.generationFor (s.out.bytes.length + sections.tgtLen) := fun copied listed =>
        ⟨(each copied listed).1, (each copied listed).2.trans generation⟩
      split <;> rename_i e <;> rw [e] at added <;> exact ⟨rfl, rfl, rfl, more, added, all⟩

end Windows

/-- An attempt at a window that went wrong is remembered. -/
def attempted (freed : Nat → Nat → UInt8) (s : Stream) : Stream :=
  match vcdWindow freed s with
  | (.error, s) => { s with failed := true }
  | (_, s) => s

/-- The decoder is given more of the source, or attempts the next window, as long as it is allowed
to. -/
inductive Moves (freed : Nat → Nat → UInt8) (allowed : Stream → Prop) : Stream → Stream → Prop
  | arrive {s : Stream} (chunk : List UInt8) :
    Moves freed allowed s { s with src := s.src ++ chunk }
  | window {s : Stream} (more : s.left ≠ []) (works : s.failed = false) (may : allowed s) :
    Moves freed allowed s (attempted freed s)

/-- The decoder from its opening on. -/
def decoding (freed : Nat → Nat → UInt8) (allowed : Stream → Prop) (patch : List UInt8)
    (srcLen : Nat) : System Stream where
  start := fun s => vcdiffStreamOpen patch srcLen = some s
  step := Moves freed allowed

/-- The next window takes its segment from the output, and has no room in the output as it is. -/
def Stream.endangered (s : Stream) : Bool :=
  match s.left with
  | [] => false
  | winInd :: p =>
    match vcdSegment s winInd p with
    | .ok (.target _ _, _, p) =>
      match vcdSections p with
      | none => false
      | some sections => decide (s.out.cap < s.out.bytes.length + sections.tgtLen)
    | _ => false

section Runs

variable {freed : Nat → Nat → UInt8} {allowed : Stream → Prop} {s : Stream}

theorem vcdSegment_generation {winInd : UInt8} {p rest : List UInt8} {pos generation segLen : Nat}
    (given : vcdSegment s winInd p = .ok (.target pos generation, segLen, rest)) :
    generation = s.out.generation := by
  rw [vcdSegment] at given
  split at given
  · cases given
  · split at given
    · cases given
    · split at given
      · cases given
      · split_ifs at given
        · cases given
        · cases given
          rfl

theorem Copied.fresh_of_ne {copied : Copied}
    (apart : ∀ pos generation, copied.origin ≠ .target pos generation) : copied.Fresh :=
  fun pos generation same => absurd same (apart pos generation)

theorem Copied.fresh_iff {copied : Copied} {pos generation : Nat}
    (origin : copied.origin = .target pos generation) :
    copied.Fresh ↔ generation = copied.generation := by
  constructor
  · exact fun fresh => fresh pos generation origin
  · rintro same pos' generation' origin'
    obtain ⟨-, rfl⟩ := Origin.target.inj (origin.symm.trans origin')
    exact same

theorem Out.generationFor_eq {out : Out} {need : Nat} :
    out.generation = out.generationFor need ↔ need ≤ out.cap := by
  rw [Out.generationFor]
  split <;> omega

/-- A window adds copies, and each is fresh unless the output had to grow under its segment. -/
theorem vcdWindow_copies : ∃ origin generation, s.Copies origin generation (vcdWindow freed s).2 ∧
      ∀ copied : Copied, copied.origin = origin → copied.generation = generation →
        (copied.Fresh ↔ s.endangered = false) := by
  -- A copy whose segment is elsewhere is fresh, and its window is not endangered.
  have apart : ∀ origin : Origin, (∀ pos generation, origin ≠ .target pos generation) →
      s.endangered = false → ∀ generation, ∀ copied : Copied, copied.origin = origin →
        copied.generation = generation → (copied.Fresh ↔ s.endangered = false) :=
    fun origin apart safe _ copied same _ =>
      iff_of_true (Copied.fresh_of_ne fun _ _ => same ▸ apart _ _) safe
  have unread : s.endangered = false → ∃ origin generation, s.Copies origin generation s ∧
      ∀ copied : Copied, copied.origin = origin → copied.generation = generation →
        (copied.Fresh ↔ s.endangered = false) :=
    fun safe => ⟨.none, 0, .refl, apart .none (fun _ _ => by rintro ⟨⟩) safe 0⟩
  rw [vcdWindow]
  split
  · rename_i left
    exact unread (by rw [Stream.endangered, left])
  · rename_i winInd p left
    split
    · rename_i segment
      exact unread (by simp only [Stream.endangered, left, segment])
    · rename_i origin segLen rest segment
      split
      · rename_i sections
        exact unread (by cases origin <;> simp only [Stream.endangered, left, segment, sections])
      · rename_i sections read
        refine ⟨origin, _, vcdTarget_copies origin segLen sections, ?_⟩
        cases origin with
        | none =>
          exact apart .none (fun _ _ => by rintro ⟨⟩) (by simp only [Stream.endangered, left, segment]) _
        | source pos =>
          exact apart (.source pos) (fun _ _ => by rintro ⟨⟩)
            (by simp only [Stream.endangered, left, segment]) _
        | target pos generation =>
          -- The segment's allocation is the window's own when there is room in it.
          rintro copied origin given
          obtain rfl := vcdSegment_generation segment
          rw [Copied.fresh_iff origin, given, Out.generationFor_eq]
          simp only [Stream.endangered, left, segment, read, decide_eq_false_iff_not, Nat.not_lt]

theorem attempted_copies : (attempted freed s).copies = (vcdWindow freed s).2.copies := by
  rw [attempted]
  split <;> rename_i e <;> rw [e]

theorem Moves.fresh {next : Stream} (moves : Moves freed (·.endangered = false) s next)
    (fresh : ∀ copied ∈ s.copies, copied.Fresh) : ∀ copied ∈ next.copies, copied.Fresh := by
  cases moves with
  | arrive chunk => exact fresh
  | window more works safe =>
    obtain ⟨origin, generation, adds, exact⟩ := @vcdWindow_copies freed s
    obtain ⟨more, added, each⟩ := adds.added
    rw [attempted_copies, added]
    intro copied listed
    rcases mem_append.1 listed with before | new
    · exact fresh copied before
    · exact (exact copied (each copied new).1 (each copied new).2).2 safe

theorem vcdWindow_failed : (vcdWindow freed s).2.failed = s.failed := by
  obtain ⟨_, _, adds, -⟩ := @vcdWindow_copies freed s
  exact adds.failed

theorem vcdDrain_moves (works : s.failed = false) (n : Nat) :
    Relation.ReflTransGen (Moves freed fun _ => True) s (vcdDrain freed n s).1 := by
  induction n generalizing s with
  | zero => exact .refl
  | succ n ih =>
    rw [vcdDrain]
    split_ifs with done
    · exact .refl
    · have move : Moves freed (fun _ => True) s (attempted freed s) := .window done works trivial
      have kept : (vcdWindow freed s).2.failed = false := vcdWindow_failed.trans works
      rw [attempted] at move
      -- A window that decodes is followed by the next; the others end the run.
      split <;> rename_i e <;> rw [e] at move kept
      · exact .head move (ih kept)
      · exact .single move
      · exact .single move

theorem vcdiffStreamOpen_spec {patch : List UInt8} {srcLen : Nat}
    (opened : vcdiffStreamOpen patch srcLen = some s) :
    s.failed = false ∧ s.src = [] ∧ s.copies = [] ∧ s.srcLen = srcLen ∧
      vcdHeader patch = some s.left ∧ vcdRoom (vcdTotalTarget s.left) = some s.out := by
  obtain ⟨p, header, e⟩ := bind_eq_some_iff.1 opened
  obtain ⟨out, room, e⟩ := bind_eq_some_iff.1 e
  obtain rfl := some.inj e
  exact ⟨rfl, rfl, rfl, rfl, header, room⟩

theorem decodeStream_reachable {patch src : List UInt8} {complete : Bool}
    (decoded : decodeStream freed patch src = some (s, complete)) :
    (decoding freed (fun _ => True) patch src.length).Reachable s := by
  obtain ⟨first, opened, e⟩ := bind_eq_some_iff.1 decoded
  have starts : (decoding freed (fun _ => True) patch src.length).Reachable first := .start opened
  obtain ⟨works, empty, -⟩ := vcdiffStreamOpen_spec opened
  have arrives : Moves freed (fun _ => True) first { first with src := src } := by
    have move : Moves freed (fun _ => True) first { first with src := first.src ++ src } := .arrive src
    rwa [empty, nil_append] at move
  have run : Relation.ReflTransGen (Moves freed fun _ => True) { first with src := src }
      (vcdDrain freed first.left.length { first with src := src }).1 :=
    vcdDrain_moves (s := { first with src := src }) works _
  obtain ⟨rfl, -⟩ := Prod.mk.inj (some.inj e)
  exact starts.steps (.head arrives run)

/-- In a run that is never endangered, no copy of a window reads a stale segment. -/
theorem copies_fresh {patch : List UInt8} {srcLen : Nat}
    (reached : (decoding freed (·.endangered = false) patch srcLen).Reachable s) :
    ∀ copied ∈ s.copies, copied.Fresh := by
  have invariant : (decoding freed (·.endangered = false) patch srcLen).Invariant
      fun s => ∀ copied ∈ s.copies, copied.Fresh := by
    constructor
    · intro s starts copied listed
      obtain ⟨-, -, none, -⟩ := vcdiffStreamOpen_spec starts
      rw [none] at listed
      cases listed
    · exact fun s next fresh moves => Moves.fresh moves fresh
  exact invariant.reachable reached

end Runs

/-- An added target of four bytes, and a window that copies it; more bytes may follow. -/
def repeatPatch (rest : List UInt8) : List UInt8 :=
  [0xD6, 0xC3, 0xC4, 0, 0] ++ [0, 0, 4, 0, 4, 1, 0, 1, 2, 3, 4, 5] ++
    [2, 4, 0, 0, 4, 0, 0, 1, 1, 20, 0] ++ rest

/-- The decoder opened for a patch that the total can be told of. -/
def repeatOpened : Stream :=
  { left := (repeatPatch []).drop 5, srcLen := 0, out := { cap := 8, generation := 1 } }

/-- Both windows of a whole patch have room in the first allocation. -/
theorem copies_fresh_repeat :
    let s := attempted (fun _ _ => 0) (attempted (fun _ _ => 0) repeatOpened)
    s.out.bytes = [1, 2, 3, 4, 1, 2, 3, 4] ∧ s.copies ≠ [] ∧ ∀ copied ∈ s.copies, copied.Fresh := by
  have opened : vcdiffStreamOpen (repeatPatch []) 0 = some repeatOpened := rfl
  have first : Moves (fun _ _ => 0) (·.endangered = false) repeatOpened
      (attempted (fun _ _ => 0) repeatOpened) :=
    .window (by decide) rfl (by decide)
  have second : Moves (fun _ _ => 0) (·.endangered = false) (attempted (fun _ _ => 0) repeatOpened)
      (attempted (fun _ _ => 0) (attempted (fun _ _ => 0) repeatOpened)) :=
    .window (by decide) (by decide) (by decide)
  exact ⟨by decide, by decide,
    @copies_fresh _ _ (repeatPatch []) _ (.step (.step (.start opened) first) second)⟩

/-- One stray byte after the windows hides the total, and the second window copies from the
allocation that its own target has replaced. -/
theorem stray_copy_stale : ¬ ∀ s, (decoding (fun _ _ => 0) (fun _ => True) (repeatPatch [0]) 0).Reachable s →
      ∀ copied ∈ s.copies, copied.Fresh := by
  intro fresh
  obtain ⟨s, decoded, copies⟩ : ∃ s, decodeStream (fun _ _ => 0) (repeatPatch [0]) [] =
      some (s, false) ∧ s.copies = [⟨.target 0 1, 2, 0, 4, 0⟩] := by
    refine ⟨((decodeStream (fun _ _ => 0) (repeatPatch [0]) []).getD (repeatOpened, true)).1, ?_, ?_⟩
    · rfl
    · decide
  have stale := fresh s (decodeStream_reachable decoded) ⟨.target 0 1, 2, 0, 4, 0⟩
    (copies ▸ mem_singleton_self _)
  cases (Copied.fresh_iff rfl).1 stale

variable {p rest : List UInt8}

theorem varintLoop_length {n v w : Nat}
    (read : varintLoop n v p = some (w, rest)) : rest.length < p.length := by
  induction n generalizing v p with
  | zero => cases read
  | succ n ih =>
    cases p with
    | nil => cases read
    | cons b p =>
      rw [varintLoop] at read
      split_ifs at read
      · obtain ⟨-, rfl⟩ := Prod.mk.inj (some.inj read)
        exact Nat.lt_succ_self _
      · exact Nat.lt_succ_of_lt (ih read)

theorem vcdVarint_length {v : Nat} (read : vcdVarint p = some (v, rest)) : rest.length < p.length :=
  varintLoop_length read

theorem vcdSegment_skip {s : Stream} {winInd : UInt8} {origin : Origin}
    {segLen : Nat} (given : vcdSegment s winInd p = .ok (origin, segLen, rest)) :
    skipSegment winInd p = some rest := by
  rw [vcdSegment] at given
  rw [skipSegment]
  split at given
  · rename_i none
    cases given
    exact if_pos none
  · rename_i some
    rw [if_neg some]
    split at given
    · cases given
    · rename_i segment
      rw [segment]
      split at given
      · cases given
      · rename_i position
        show (vcdVarint _).bind _ = _
        rw [position]
        split_ifs at given <;> cases given <;> rfl

theorem skipSegment_length {winInd : UInt8}
    (skipped : skipSegment winInd p = some rest) : rest.length ≤ p.length := by
  rw [skipSegment] at skipped
  split_ifs at skipped
  · exact Nat.le_of_eq (congrArg List.length (some.inj skipped).symm)
  · obtain ⟨⟨_, q⟩, segment, skipped⟩ := bind_eq_some_iff.1 skipped
    obtain ⟨⟨_, r⟩, position, skipped⟩ := bind_eq_some_iff.1 skipped
    obtain rfl := some.inj skipped
    have := vcdVarint_length segment
    have := vcdVarint_length position
    omega

theorem vcdSections_total {winInd : UInt8} {q : List UInt8} {sections : Sections}
    (skipped : skipSegment winInd p = some q) (read : vcdSections q = some sections) (n total : Nat) :
    totalLoop (n + 1) total (winInd :: p) = if sizeMax - sections.tgtLen < total then none
      else totalLoop n (total + sections.tgtLen) sections.rest := by
  obtain ⟨⟨_, q1⟩, enc, read⟩ := bind_eq_some_iff.1 read
  obtain ⟨⟨tgtLen, q2⟩, tgt, read⟩ := bind_eq_some_iff.1 read
  simp only [totalLoop, skipped, enc, tgt, bind_eq_bind, bind_some]
  simp only at read
  split at read
  · cases read
  · split_ifs at read with deltaInd
    obtain ⟨⟨dataLen, q3⟩, data, read⟩ := bind_eq_some_iff.1 read
    obtain ⟨⟨instLen, q4⟩, inst, read⟩ := bind_eq_some_iff.1 read
    obtain ⟨⟨addrLen, q5⟩, addr, read⟩ := bind_eq_some_iff.1 read
    simp only at read
    split_ifs at read with short
    obtain rfl := some.inj read
    simp only [data, inst, addr, bind_some, if_neg short]

theorem vcdSections_length {q : List UInt8} {sections : Sections}
    (read : vcdSections q = some sections) : sections.rest.length < q.length := by
  obtain ⟨⟨_, q1⟩, enc, read⟩ := bind_eq_some_iff.1 read
  obtain ⟨⟨tgtLen, q2⟩, tgt, read⟩ := bind_eq_some_iff.1 read
  simp only at read
  split at read
  · cases read
  · split_ifs at read
    obtain ⟨⟨dataLen, q3⟩, data, read⟩ := bind_eq_some_iff.1 read
    obtain ⟨⟨instLen, q4⟩, inst, read⟩ := bind_eq_some_iff.1 read
    obtain ⟨⟨addrLen, q5⟩, addr, read⟩ := bind_eq_some_iff.1 read
    simp only at read
    split_ifs at read
    obtain rfl := some.inj read
    have := vcdVarint_length enc
    have := vcdVarint_length tgt
    have := vcdVarint_length data
    have := vcdVarint_length inst
    have := vcdVarint_length addr
    simp only [List.length_drop, List.length_cons] at *
    omega

theorem totalLoop_le {n total t : Nat} (followed : totalLoop n total p = some t) : total ≤ t := by
  induction n generalizing total p with
  | zero => exact Nat.le_of_eq (some.inj followed)
  | succ n ih =>
    cases p with
    | nil => exact Nat.le_of_eq (some.inj followed)
    | cons winInd p =>
      obtain ⟨p, -, followed⟩ := bind_eq_some_iff.1 followed
      obtain ⟨⟨_, p⟩, -, followed⟩ := bind_eq_some_iff.1 followed
      obtain ⟨⟨tgtLen, p⟩, -, followed⟩ := bind_eq_some_iff.1 followed
      cases p with
      | nil => cases followed
      | cons deltaInd p =>
        obtain ⟨⟨dataLen, p⟩, -, followed⟩ := bind_eq_some_iff.1 followed
        obtain ⟨⟨instLen, p⟩, -, followed⟩ := bind_eq_some_iff.1 followed
        obtain ⟨⟨addrLen, p⟩, -, followed⟩ := bind_eq_some_iff.1 followed
        simp only at followed
        split_ifs at followed
        exact Nat.le_trans (Nat.le_add_right _ _) (ih followed)

section Windows

variable {freed : Nat → Nat → UInt8} {s after : Stream}

theorem vcdInstructions_stop {src : List UInt8} {win : Window} {n : Nat} {work last : Work}
    (ran : vcdInstructions freed src win n work = (last, true)) :
    last.out.bytes.length = win.stop := by
  induction n generalizing work with
  | zero =>
    obtain ⟨rfl, complete⟩ := Prod.mk.inj ran
    exact beq_iff_eq.1 complete
  | succ n ih =>
    rw [vcdInstructions] at ran
    split at ran
    · split at ran
      · cases ran
      · split at ran
        · cases ran
        · exact ih ran
    · obtain ⟨rfl, complete⟩ := Prod.mk.inj ran
      exact beq_iff_eq.1 complete

/-- A target is complete after room has been made for it and its codes have run to the end. -/
theorem vcdTarget_ok {origin : Origin} {segLen : Nat} {sections : Sections}
    (ran : vcdTarget freed s origin segLen sections = (.ok, after)) :
    sections.tgtLen ≤ sizeMax - s.out.bytes.length ∧
      ∃ out work, vcdReserve s.out (s.out.bytes.length + sections.tgtLen) = some out ∧
        vcdInstructions freed s.src (s.window origin segLen sections) sections.inst.length
          (s.work out sections) = (work, true) ∧
        after = { s.leave work with left := sections.rest } := by
  simp only [vcdTarget] at ran
  split at ran
  · cases ran
  · rename_i fits
    split at ran
    · cases ran
    · rename_i out made
      split at ran
      · rename_i work executed
        cases ran
        refine ⟨?_, out, work, made, executed, rfl⟩
        exact Nat.not_lt.1 fits
      · cases ran

theorem vcdSegment_error {winInd : UInt8} {p : List UInt8} {result : Win}
    (refused : vcdSegment s winInd p = .error result) : result ≠ .ok := by
  rw [vcdSegment] at refused
  split at refused
  · cases refused
  · split at refused
    · cases refused
      rintro ⟨⟩
    · split at refused
      · cases refused
        rintro ⟨⟩
      · split_ifs at refused <;> cases refused <;> rintro ⟨⟩

theorem vcdWindow_ok (ran : vcdWindow freed s = (.ok, after)) :
    ∃ winInd p origin segLen q sections, s.left = winInd :: p ∧
      vcdSegment s winInd p = .ok (origin, segLen, q) ∧ vcdSections q = some sections ∧
      vcdTarget freed s origin segLen sections = (.ok, after) := by
  rw [vcdWindow] at ran
  split at ran
  · cases ran
  · rename_i winInd p left
    split at ran
    · rename_i result segment
      exact absurd (Prod.mk.inj ran).1 (vcdSegment_error segment)
    · rename_i origin segLen q segment
      split at ran
      · cases ran
      · rename_i sections read
        exact ⟨winInd, p, origin, segLen, q, sections, left, segment, read, ran⟩

theorem vcdWindow_wait (waits : vcdWindow freed s = (.wait, after)) : after = s := by
  rw [vcdWindow] at waits
  split at waits
  · cases waits
  · split at waits
    · exact (Prod.mk.inj waits).2.symm
    · split at waits
      · cases waits
      · rw [vcdTarget] at waits
        split at waits
        · cases waits
        · split at waits
          · cases waits
          · split at waits <;> cases waits

theorem vcdWindow_left (ran : vcdWindow freed s = (.ok, after)) : after.left.length < s.left.length := by
  obtain ⟨winInd, p, origin, segLen, q, sections, left, segment, read, ran⟩ := vcdWindow_ok ran
  obtain ⟨-, out, work, -, -, rfl⟩ := vcdTarget_ok ran
  have skip := skipSegment_length (vcdSegment_skip segment)
  have rest := vcdSections_length read
  rw [left, List.length_cons]
  show sections.rest.length < _
  omega

theorem vcdWindow_total (ran : vcdWindow freed s = (.ok, after)) (n : Nat)
    (real : s.out.bytes.length ≤ sizeMax) :
    totalLoop (n + 1) s.out.bytes.length s.left = totalLoop n after.out.bytes.length after.left ∧
      after.out.bytes.length ≤ sizeMax := by
  obtain ⟨winInd, p, origin, segLen, q, sections, left, segment, read, ran⟩ := vcdWindow_ok ran
  obtain ⟨fits, out, work, -, executed, rfl⟩ := vcdTarget_ok ran
  have stop : work.out.bytes.length = s.out.bytes.length + sections.tgtLen := vcdInstructions_stop executed
  constructor
  · rw [left, vcdSections_total (vcdSegment_skip segment) read, if_neg (by omega)]
    show _ = totalLoop n work.out.bytes.length sections.rest
    rw [stop]
  · show work.out.bytes.length ≤ sizeMax
    omega

end Windows

/-- The pass over the lengths can follow the rest of the patch, and ends at the room there is. -/
def Stream.Roomy (s : Stream) : Prop :=
  s.out.bytes.length ≤ sizeMax ∧
    ∃ n, s.left.length ≤ n ∧ totalLoop n s.out.bytes.length s.left = some s.out.cap

section Room

variable {freed : Nat → Nat → UInt8} {s after : Stream}

theorem Stream.Roomy.safe (roomy : s.Roomy) {winInd : UInt8} {p q : List UInt8} {origin : Origin}
    {segLen : Nat} {sections : Sections} (left : s.left = winInd :: p)
    (segment : vcdSegment s winInd p = .ok (origin, segLen, q)) (read : vcdSections q = some sections) :
    s.out.bytes.length + sections.tgtLen ≤ s.out.cap := by
  obtain ⟨-, n, enough, followed⟩ := roomy
  cases n with
  | zero =>
    rw [left] at enough
    cases enough
  | succ n =>
    rw [left, vcdSections_total (vcdSegment_skip segment) read] at followed
    split_ifs at followed
    exact totalLoop_le followed

/-- Room for everything is left by a window that decodes. -/
theorem Stream.Roomy.window (roomy : s.Roomy) (ran : vcdWindow freed s = (.ok, after)) : after.Roomy := by
  obtain ⟨real, n, enough, followed⟩ := id roomy
  have shorter := vcdWindow_left ran
  cases n with
  | zero => omega
  | succ n =>
    obtain ⟨on, real'⟩ := vcdWindow_total ran n real
    have cap : after.out.cap = s.out.cap := by
      obtain ⟨winInd, p, origin, segLen, q, sections, left, segment, read, target⟩ := vcdWindow_ok ran
      obtain ⟨-, out, work, made, executed, rfl⟩ := vcdTarget_ok target
      have same := (vcdReserve_spec made).2.2 (roomy.safe left segment read)
      have kept : Work.Copies (s.window origin segLen sections) (s.work out sections) work := by
        have run := @vcdInstructions_copies freed s.src (s.window origin segLen sections)
          (s.work out sections) sections.inst.length
        rwa [executed] at run
      exact kept.cap.trans (congrArg Out.cap same)
    exact ⟨real', n, by omega, by rw [← on, followed, cap]⟩

theorem vcdDrain_total {n : Nat} (ran : vcdDrain freed n s = (after, true))
    (ends : after.left = []) (enough : s.left.length ≤ n) (real : s.out.bytes.length ≤ sizeMax) :
    ∃ t, totalLoop n s.out.bytes.length s.left = some t := by
  induction n generalizing s with
  | zero => exact ⟨_, rfl⟩
  | succ n ih =>
    rw [vcdDrain] at ran
    split_ifs at ran with done
    · rw [done]
      exact ⟨_, rfl⟩
    · split at ran
      · rename_i next window
        have shorter := vcdWindow_left window
        obtain ⟨on, real'⟩ := vcdWindow_total window n real
        rw [on]
        exact ih ran (by omega) real'
      · -- A window that waits is still there.
        rename_i next window
        obtain ⟨rfl, -⟩ := Prod.mk.inj ran
        rw [vcdWindow_wait window] at ends
        exact absurd ends done
      · cases ran

theorem vcdRoom_bytes {hint : Nat} {out : Out} (room : vcdRoom hint = some out) : out.bytes = [] := by
  rw [vcdRoom] at room
  split_ifs at room
  · exact congrArg Out.bytes (some.inj room).symm
  · exact (vcdReserve_spec room).1

/-- A patch that is decoded leaves room for everything from the start. -/
theorem decodeStream_roomy {patch src : List UInt8}
    (decoded : decodeStream freed patch src = some (after, true)) :
    ∃ opened, vcdiffStreamOpen patch src.length = some opened ∧ Stream.Roomy { opened with src := src } := by
  obtain ⟨opened, e, decoded⟩ := bind_eq_some_iff.1 decoded
  refine ⟨opened, e, ?_⟩
  obtain ⟨-, -, -, -, -, room⟩ := vcdiffStreamOpen_spec e
  obtain ⟨same, complete⟩ := Prod.mk.inj (some.inj decoded)
  rw [Bool.and_eq_true, beq_iff_eq] at complete
  have bytes : opened.out.bytes = [] := vcdRoom_bytes room
  have drained : vcdDrain freed opened.left.length { opened with src := src } = (_, true) :=
    Prod.ext rfl complete.1
  obtain ⟨t, followed⟩ := vcdDrain_total drained complete.2 (Nat.le_refl _)
    (by rw [bytes]; exact Nat.zero_le _)
  have start : totalLoop opened.left.length 0 opened.left = some t := by
    have followed : totalLoop opened.left.length opened.out.bytes.length opened.left = some t := followed
    rwa [bytes] at followed
  have cap : opened.out.cap = t := by
    rw [vcdTotalTarget, start, getD_some, vcdRoom] at room
    split_ifs at room with none
    · rw [← some.inj room, none]
    · rw [vcdReserve, if_neg (Nat.not_le.2 (Nat.pos_of_ne_zero none))] at room
      obtain ⟨cap, e, out⟩ := map_eq_some_iff.1 room
      rw [if_pos rfl] at e
      rw [← out, ← some.inj e]
  refine ⟨by rw [bytes]; exact Nat.zero_le _, opened.left.length, Nat.le_refl _, ?_⟩
  rw [bytes, cap]
  exact start

end Room

/-- Two memories show the segment of a window the same, while the output is in its allocation. -/
def Window.ReadsAlike (win : Window) (generation : Nat) (freed other : Nat → Nat → UInt8)
    (src more : List UInt8) : Prop :=
  ∀ out : Out, out.generation = generation → ∀ addr len, addr < win.segLen → len ≤ win.segLen - addr →
    segmentBytes freed src out win.origin addr len = segmentBytes other more out win.origin addr len

section Alike

variable {freed other : Nat → Nat → UInt8} {src more : List UInt8} {win : Window} {work : Work}

variable (alike : win.ReadsAlike work.out.generation freed other src more)
include alike

theorem vcdCopyInst_alike (mode size : Nat) :
    vcdCopyInst freed src win work mode size = vcdCopyInst other more win work mode size := by
  have copy : ∀ addr len, vcdCopy freed src work.out win addr len =
      vcdCopy other more work.out win addr len := by
    intro addr len
    rw [vcdCopy, vcdCopy]
    split_ifs with inside short
    · rfl
    · rw [alike work.out rfl addr len inside (Nat.not_lt.1 short)]
    · rfl
  simp only [vcdCopyInst, copy]

theorem vcdHalf_alike (half : Half) : vcdHalf freed src win work half = vcdHalf other more win work half := by
  have copy : ∀ (inst : List UInt8) (mode size : Nat),
      vcdCopyInst freed src win { work with inst := inst } mode size =
        vcdCopyInst other more win { work with inst := inst } mode size := by
    intro inst mode size
    apply vcdCopyInst_alike
    exact alike
  simp only [vcdHalf, vcdSized, copy]

theorem vcdPair_alike
    (code : UInt8) : vcdPair freed src win work code = vcdPair other more win work code := by
  rw [vcdPair, vcdPair]
  split
  · rfl
  · rename_i pair _
    have kept : Work.Copies win work (vcdHalf other more win work pair.first).1 := vcdHalf_copies _
    rw [vcdHalf_alike alike pair.first]
    split
    · rfl
    · -- The first instruction leaves the allocation as it was.
      rename_i e
      rw [e] at kept
      exact vcdHalf_alike (kept.generation ▸ alike) _

/-- The codes of a window are executed alike where its segment is the same. -/
theorem vcdInstructions_alike
    (n : Nat) : vcdInstructions freed src win n work = vcdInstructions other more win n work := by
  induction n generalizing work with
  | zero => rfl
  | succ n ih =>
    rw [vcdInstructions, vcdInstructions]
    split
    · split
      · rfl
      · rename_i code inst _
        have same : vcdPair freed src win { work with inst := inst } code =
            vcdPair other more win { work with inst := inst } code := by
          apply vcdPair_alike
          exact alike
        have kept : Work.Copies win { work with inst := inst }
            (vcdPair other more win { work with inst := inst } code).1 := vcdPair_copies _
        rw [same]
        split
        · rfl
        · rename_i e
          rw [e] at kept
          exact ih (kept.generation ▸ alike)
    · rfl

end Alike

section Independence

variable {freed : Nat → Nat → UInt8} (other : Nat → Nat → UInt8) {s : Stream}

theorem Window.readsAlike_of_within {win : Window} {generation : Nat} (src : List UInt8)
    (within : ∀ pos taken, win.origin = .target pos taken → taken = generation) :
    win.ReadsAlike generation freed other src src := by
  intro out current addr len _ _
  cases origin : win.origin with
  | none => rfl
  | source pos => rfl
  | target pos taken =>
    have fresh : taken = out.generation := (within pos taken origin).trans current.symm
    rw [segmentBytes, segmentBytes, if_pos fresh, if_pos fresh]

theorem vcdWindow_within (roomy : s.Roomy) : vcdWindow freed s = vcdWindow other s := by
  rw [vcdWindow, vcdWindow]
  split
  · rfl
  · rename_i winInd p left
    split
    · rfl
    · rename_i origin segLen q segment
      split
      · rfl
      · rename_i sections read
        rw [vcdTarget, vcdTarget]
        split
        · rfl
        · split
          · rfl
          · -- The target stays in the allocation that the segment was taken from.
            rename_i out made
            obtain rfl : out = s.out := (vcdReserve_spec made).2.2 (roomy.safe left segment read)
            have alike : (s.window origin segLen sections).ReadsAlike s.out.generation freed other
                s.src s.src := by
              apply Window.readsAlike_of_within
              rintro pos generation rfl
              exact vcdSegment_generation segment
            rw [vcdInstructions_alike alike]

theorem vcdDrain_within (roomy : s.Roomy) (n : Nat) : vcdDrain freed n s = vcdDrain other n s := by
  induction n generalizing s with
  | zero => rfl
  | succ n ih =>
    rw [vcdDrain, vcdDrain, vcdWindow_within other roomy]
    split
    · rfl
    · split
      · rename_i window
        exact ih (roomy.window window)
      · rfl
      · rfl

/-- Whether a patch is decoded, and to what, does not depend on what has been given back. -/
theorem vcdiffDecode_within (patch src : List UInt8) :
    vcdiffDecode freed patch src = vcdiffDecode other patch src := by
  -- Whichever of the two decodes the patch, there was room for all of it from the start.
  have one : ∀ freed other : Nat → Nat → UInt8, ∀ out, vcdiffDecode freed patch src = some out →
      vcdiffDecode other patch src = some out := by
    intro freed other out decoded
    obtain ⟨⟨s, complete⟩, ran, e⟩ := bind_eq_some_iff.1 decoded
    simp only at e
    split_ifs at e with whole
    obtain ⟨opened, open', roomy⟩ := decodeStream_roomy (whole ▸ ran)
    rw [vcdiffDecode, decodeStream] at decoded ⊢
    rw [open'] at decoded ⊢
    have same := @vcdDrain_within freed other _ roomy opened.left.length
    simp only [bind_eq_bind, bind_some] at decoded ⊢
    rw [← same]
    exact decoded
  apply Option.ext
  exact fun out => ⟨one freed other out, one other freed out⟩

end Independence

end Libretro.Vcdiff
