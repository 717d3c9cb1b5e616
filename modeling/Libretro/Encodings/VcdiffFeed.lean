import Libretro.Encodings.VcdiffRoom

/-! Source that arrives in pieces: a window waits for what it needs, and decodes the same then. -/

namespace Libretro.Vcdiff

open List

/-- A decoder that has been given more of its source. -/
def Stream.arrive (s : Stream) (chunk : List UInt8) : Stream := { s with src := s.src ++ chunk }

section Arrival

variable {freed : Nat → Nat → UInt8} {s after : Stream} (chunk : List UInt8)

@[simp] theorem Stream.arrive_arrive (more : List UInt8) :
    (s.arrive chunk).arrive more = s.arrive (chunk ++ more) := by
  simp only [Stream.arrive, List.append_assoc]

@[simp] theorem Stream.arrive_window (origin : Origin) (segLen : Nat) (sections : Sections) :
    (s.arrive chunk).window origin segLen sections = s.window origin segLen sections :=
  rfl

@[simp] theorem Stream.arrive_work (out : Out) (sections : Sections) :
    (s.arrive chunk).work out sections = s.work out sections :=
  rfl

@[simp] theorem Stream.arrive_out : (s.arrive chunk).out = s.out := rfl

theorem Window.readsAlike_of_arrived {win : Window} {generation : Nat} {src : List UInt8}
    (arrived : ∀ pos, win.origin = .source pos → pos + win.segLen ≤ src.length) :
    win.ReadsAlike generation freed freed src (src ++ chunk) := by
  intro out _ addr len inside short
  cases origin : win.origin with
  | none => rfl
  | source pos =>
    have whole := arrived pos origin
    rw [segmentBytes, segmentBytes, drop_append_of_le_length (by omega),
      take_append_of_le_length (by rw [length_drop]; omega)]
  | target pos taken => rfl

theorem vcdSegment_arrived {winInd : UInt8} {p rest : List UInt8} {pos segLen : Nat}
    (given : vcdSegment s winInd p = .ok (.source pos, segLen, rest)) :
    pos + segLen ≤ s.src.length := by
  rw [vcdSegment] at given
  split at given
  · cases given
  · split at given
    · cases given
    · split at given
      · cases given
      · split_ifs at given with _ _ waits
        · cases given
          exact Nat.not_lt.1 waits
        · cases given

theorem vcdSegment_arrive {winInd : UInt8} {p : List UInt8} (ready : vcdSegment s winInd p ≠ .error .wait) :
    vcdSegment (s.arrive chunk) winInd p = vcdSegment s winInd p := by
  by_cases some : winInd.toNat % 4 = 0
  · rw [vcdSegment, vcdSegment, if_pos some, if_pos some]
  · rw [vcdSegment, if_neg some] at ready ⊢
    rw [vcdSegment, if_neg some]
    generalize vcdVarint p = segment at ready ⊢
    rcases segment with _ | ⟨segLen, p⟩
    · rfl
    · dsimp only at ready ⊢
      generalize vcdVarint p = position at ready ⊢
      rcases position with _ | ⟨segPos, p⟩
      · rfl
      · dsimp only at ready ⊢
        by_cases source : winInd.toNat % 2 = 1
        · rw [if_pos source] at ready ⊢
          rw [if_pos source]
          by_cases outside : s.srcLen < segPos ∨ s.srcLen - segPos < segLen
          · rw [if_pos outside]
            exact if_pos outside
          · -- What has arrived is still there.
            rw [if_neg outside] at ready ⊢
            have arrived : ¬ s.src.length < segPos + segLen := fun waits => ready (if_pos waits)
            have still : ¬ (s.arrive chunk).src.length < segPos + segLen := by
              rw [Stream.arrive, length_append]
              omega
            rw [if_neg arrived, if_neg still]
            exact if_neg outside
        · rw [if_neg source, if_neg source]
          rfl

theorem vcdTarget_arrive {origin : Origin} {segLen : Nat} {sections : Sections}
    (arrived : ∀ pos, origin = .source pos → pos + segLen ≤ s.src.length) :
    vcdTarget freed (s.arrive chunk) origin segLen sections = ((vcdTarget freed s origin segLen sections).1,
        (vcdTarget freed s origin segLen sections).2.arrive chunk) := by
  have same : ∀ out, vcdInstructions freed (s.arrive chunk).src (s.window origin segLen sections)
      sections.inst.length (s.work out sections) = vcdInstructions freed s.src
        (s.window origin segLen sections) sections.inst.length (s.work out sections) := by
    intro out
    exact (vcdInstructions_alike (Window.readsAlike_of_arrived chunk arrived) _).symm
  simp only [vcdTarget, Stream.arrive_window, Stream.arrive_work, Stream.arrive_out, same]
  by_cases huge : sizeMax - (s.window origin segLen sections).start < (s.window origin segLen sections).tgtLen
  · rw [if_pos huge, if_pos huge]
  · rw [if_neg huge, if_neg huge]
    cases vcdReserve s.out (s.window origin segLen sections).stop with
    | none => rfl
    | some out =>
      dsimp only
      rcases vcdInstructions freed s.src (s.window origin segLen sections) sections.inst.length
        (s.work out sections) with ⟨work, _ | _⟩ <;> rfl

theorem vcdWindow_arrive (ready : (vcdWindow freed s).1 ≠ .wait) : vcdWindow freed (s.arrive chunk) =
      ((vcdWindow freed s).1, (vcdWindow freed s).2.arrive chunk) := by
  cases left : s.left with
  | nil =>
    have left' : (s.arrive chunk).left = [] := left
    simp only [vcdWindow, left, left']
  | cons winInd p =>
    have left' : (s.arrive chunk).left = winInd :: p := left
    simp only [vcdWindow, left, left'] at ready ⊢
    have same : vcdSegment (s.arrive chunk) winInd p = vcdSegment s winInd p := by
      apply vcdSegment_arrive
      intro waits
      rw [waits] at ready
      exact ready rfl
    rw [same]
    cases segment : vcdSegment s winInd p with
    | error result => rfl
    | ok header =>
      obtain ⟨origin, segLen, q⟩ := header
      dsimp only
      cases vcdSections q with
      | none => rfl
      | some sections =>
        apply vcdTarget_arrive
        rintro pos rfl
        exact vcdSegment_arrived segment

end Arrival

section Draining

variable {freed : Nat → Nat → UInt8} {s after : Stream} {n m : Nat}

theorem vcdDrain_enough (enough : s.left.length ≤ n) (enough' : s.left.length ≤ m) :
    vcdDrain freed n s = vcdDrain freed m s := by
  induction n generalizing s m with
  | zero =>
    have done : s.left = [] := length_eq_zero_iff.1 (Nat.le_zero.1 enough)
    cases m with
    | zero => rfl
    | succ m => rw [vcdDrain, vcdDrain, if_pos done]
  | succ n ih =>
    cases m with
    | zero =>
      have done : s.left = [] := length_eq_zero_iff.1 (Nat.le_zero.1 enough')
      rw [vcdDrain, vcdDrain, if_pos done]
    | succ m =>
      rw [vcdDrain, vcdDrain]
      split
      · rfl
      · split
        · rename_i window
          have shorter := vcdWindow_left window
          exact ih (by omega) (by omega)
        · rfl
        · rfl

theorem vcdDrain_keeps (ran : vcdDrain freed n s = (after, true)) :
    after.src = s.src ∧ after.srcLen = s.srcLen ∧ after.failed = s.failed ∧
      after.left.length ≤ s.left.length := by
  induction n generalizing s with
  | zero =>
    obtain ⟨rfl, -⟩ := Prod.mk.inj ran
    exact ⟨rfl, rfl, rfl, Nat.le_refl _⟩
  | succ n ih =>
    rw [vcdDrain] at ran
    split at ran
    · obtain ⟨rfl, -⟩ := Prod.mk.inj ran
      exact ⟨rfl, rfl, rfl, Nat.le_refl _⟩
    · split at ran
      · rename_i next window
        obtain ⟨_, _, adds, -⟩ := @vcdWindow_copies freed s
        rw [window] at adds
        obtain ⟨src, srcLen, failed, left⟩ := ih ran
        have shorter := vcdWindow_left window
        exact ⟨src.trans adds.src, srcLen.trans adds.srcLen, failed.trans adds.failed, by omega⟩
      · rename_i next window
        obtain ⟨rfl, -⟩ := Prod.mk.inj ran
        rw [vcdWindow_wait window]
        exact ⟨rfl, rfl, rfl, Nat.le_refl _⟩
      · cases ran

theorem vcdDrain_resumes (chunk : List UInt8) (ran : vcdDrain freed n s = (after, true))
    (enough : s.left.length ≤ n) (enough' : after.left.length ≤ m) :
    vcdDrain freed n (s.arrive chunk) = vcdDrain freed m (after.arrive chunk) := by
  induction n generalizing s with
  | zero =>
    obtain ⟨rfl, -⟩ := Prod.mk.inj ran
    exact vcdDrain_enough enough enough'
  | succ n ih =>
    rw [vcdDrain] at ran
    split at ran
    · obtain ⟨rfl, -⟩ := Prod.mk.inj ran
      exact vcdDrain_enough enough enough'
    · rename_i more
      split at ran
      · rename_i next window
        have shorter := vcdWindow_left window
        have same := @vcdWindow_arrive freed s chunk (by rw [window]; rintro ⟨⟩)
        rw [window] at same
        rw [vcdDrain, if_neg (show (s.arrive chunk).left ≠ [] from more), same]
        exact ih (s := next) ran (by omega)
      · rename_i next window
        obtain ⟨rfl, -⟩ := Prod.mk.inj ran
        obtain rfl := vcdWindow_wait window
        exact vcdDrain_enough enough enough'
      · cases ran

theorem vcdDrain_fails (chunk : List UInt8) (ran : vcdDrain freed n s = (after, false)) :
    after.failed = true ∧ (vcdDrain freed n (s.arrive chunk)).2 = false := by
  induction n generalizing s with
  | zero => cases ran
  | succ n ih =>
    rw [vcdDrain] at ran
    split at ran
    · cases ran
    · rename_i more
      rw [vcdDrain, if_neg (show (s.arrive chunk).left ≠ [] from more)]
      split at ran
      · rename_i next window
        have same := @vcdWindow_arrive freed s chunk (by rw [window]; rintro ⟨⟩)
        rw [window] at same
        rw [same]
        exact ih ran
      · cases ran
      · rename_i next window
        have same := @vcdWindow_arrive freed s chunk (by rw [window]; rintro ⟨⟩)
        rw [window] at same
        rw [same]
        obtain ⟨rfl, -⟩ := Prod.mk.inj ran
        exact ⟨rfl, rfl⟩

end Draining

/-- A patch is opened, the pieces of the source are fed one after another, and the decoder is
finished. -/
def streamDecode (freed : Nat → Nat → UInt8) (patch : List UInt8) (srcLen : Nat)
    (chunks : List (List UInt8)) : Option (List UInt8) := do
  let s ← vcdiffStreamOpen patch srcLen
  vcdiffStreamFinish freed (chunks.foldl (fun s chunk => (vcdiffStreamFeed freed s chunk).2) s)

/-- The target that a drain leaves, if it came to the end of the patch. -/
def outcome : Stream × Bool → Option (List UInt8)
  | (s, complete) => if complete && s.left == [] then some s.out.bytes else none

section Pieces

variable {freed : Nat → Nat → UInt8} {s : Stream}

theorem feeds_failed (failed : s.failed = true) (chunks : List (List UInt8)) :
    chunks.foldl (fun s chunk => (vcdiffStreamFeed freed s chunk).2) s = s := by
  induction chunks with
  | nil => rfl
  | cons chunk chunks ih => rw [foldl_cons, vcdiffStreamFeed, if_pos (.inr failed), ih]

theorem vcdiffStreamFinish_eq (works : s.failed = false) (whole : s.srcLen ≤ s.src.length) :
    vcdiffStreamFinish freed s = outcome (vcdDrain freed s.left.length s) := by
  rw [vcdiffStreamFinish, if_neg (by rw [works]; simpa using whole)]
  rcases vcdDrain freed s.left.length s with ⟨after, _ | _⟩
  · rfl
  · simp [outcome]

theorem vcdiffDecode_eq (patch src : List UInt8) :
    vcdiffDecode freed patch src = (vcdiffStreamOpen patch src.length).bind fun s =>
      outcome (vcdDrain freed s.left.length { s with src := src }) := by
  rw [vcdiffDecode, decodeStream]
  cases vcdiffStreamOpen patch src.length with
  | none => rfl
  | some s => rfl

theorem feeds_finish (works : s.failed = false) (chunks : List (List UInt8))
    (whole : s.srcLen = s.src.length + chunks.flatten.length) :
    vcdiffStreamFinish freed (chunks.foldl (fun s chunk => (vcdiffStreamFeed freed s chunk).2) s) =
      outcome (vcdDrain freed s.left.length (s.arrive chunks.flatten)) := by
  induction chunks generalizing s with
  | nil =>
    have same : s.arrive [] = s := by simp only [Stream.arrive, append_nil]
    rw [flatten_nil, same]
    exact vcdiffStreamFinish_eq works (Nat.le_of_eq whole)
  | cons chunk chunks ih =>
    rw [foldl_cons, flatten_cons]
    rw [flatten_cons, length_append] at whole
    by_cases empty : chunk = []
    · -- An empty piece is not taken.
      subst empty
      rw [vcdiffStreamFeed, if_pos (.inl rfl)]
      exact ih works (by simpa using whole)
    · have taken : ¬ (chunk = [] ∨ s.failed = true) := by
        rw [works]
        simpa using empty
      rw [vcdiffStreamFeed, if_neg taken, ← Stream.arrive_arrive]
      dsimp only
      rw [show ({ s with src := s.src ++ chunk } : Stream) = s.arrive chunk from rfl]
      cases ran : vcdDrain freed s.left.length (s.arrive chunk) with
      | mk after complete =>
        cases complete with
        | false =>
          -- A window that is malformed stays malformed.
          obtain ⟨failed, fails⟩ := vcdDrain_fails chunks.flatten ran
          have none : ∀ r : Stream × Bool, r.2 = false → outcome r = none := by
            rintro ⟨_, _⟩ rfl
            rfl
          rw [feeds_failed failed, vcdiffStreamFinish, if_pos (.inl failed), none _ fails]
        | true =>
          obtain ⟨src, srcLen, failed, left⟩ := vcdDrain_keeps ran
          have more : after.srcLen = after.src.length + chunks.flatten.length := by
            rw [src, srcLen]
            show s.srcLen = (s.src ++ chunk).length + _
            rw [length_append]
            omega
          rw [vcdDrain_resumes chunks.flatten ran (Nat.le_refl _) (Nat.le_refl _)]
          exact ih (failed.trans works) more

/-- A source fed in any pieces and a source given whole decode a patch alike, whatever there is in
what has been given back, and a window that waits changes nothing. -/
theorem stream_agrees (freed other : Nat → Nat → UInt8) (patch : List UInt8) (chunks : List (List UInt8)) :
    streamDecode freed patch chunks.flatten.length chunks = vcdiffDecode other patch chunks.flatten ∧
      ∀ s, (vcdWindow freed s).1 = .wait → (vcdWindow freed s).2 = s := by
  constructor
  · rw [vcdiffDecode_within freed, vcdiffDecode_eq, streamDecode]
    cases opened : vcdiffStreamOpen patch chunks.flatten.length with
    | none => rfl
    | some s =>
      obtain ⟨works, src, -, srcLen, -⟩ := vcdiffStreamOpen_spec opened
      have whole : s.srcLen = s.src.length + chunks.flatten.length := by
        rw [src, srcLen, length_nil, Nat.zero_add]
      have arrived : s.arrive chunks.flatten = { s with src := chunks.flatten } := by
        rw [Stream.arrive, src, nil_append]
      show vcdiffStreamFinish freed _ = outcome _
      rw [feeds_finish works chunks whole, arrived]
  · exact fun s waits => vcdWindow_wait (Prod.ext waits rfl)

/-- What is fed is the source: a patch that copies the only byte of its source copies its own first
byte when its pieces are fed. -/
theorem patch_fed_as_source :
    ¬ ∀ (patch src : List UInt8) (chunks : List (List UInt8)), chunks.flatten = patch →
      streamDecode (fun _ _ => 0) patch src.length chunks = vcdiffDecode (fun _ _ => 0) patch src := by
  intro agrees
  have same := agrees [0xD6, 0xC3, 0xC4, 0, 0, 1, 1, 0, 0, 1, 0, 0, 2, 1, 19, 1, 0] [65]
    [[0xD6, 0xC3, 0xC4, 0, 0], [1, 1, 0, 0, 1, 0, 0, 2, 1, 19, 1, 0]] rfl
  revert same
  decide

end Pieces

end Libretro.Vcdiff
