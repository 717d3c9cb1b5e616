import Libretro.Library.Transition
import Mathlib.Data.List.Induction

/-! The triple buffer: a producer and a consumer that exchange whole frames through one word. -/

namespace Libretro.TripleBuffer

open List

variable {Frame : Type}

/-- The bit that marks the waiting buffer as newer than what the consumer holds. -/
def retroTripleBufferFresh : Nat := 4

/-- Where a publish stands: outside, or with the exchanged word still in its local variable. -/
inductive Producer where
  | idle
  | exchanged (old : Nat)

/--
Where a take stands: outside, past its test of the bit, or with the exchanged word in hand.

The number of frames published before the exchange is remembered for the specification only.
-/
inductive Consumer where
  | idle
  | tested
  | exchanged (old seen : Nat)

/-- A finished take: the frames published before its last access to the word, and its answer. -/
structure Take (Frame : Type) where
  seen : Nat
  frame : Option Frame

/-- The three buffers by their contents, the words of `retro_triple_buffer_t`, and both sides. -/
structure Config (Frame : Type) where
  buf : Nat → Frame
  mid : Nat
  back : Nat
  front : Nat
  producer : Producer
  consumer : Consumer
  -- What was handed over so far, in order, for the specification only.
  published : List Frame
  takes : List (Take Frame)

/-- `retro_triple_buffer_init`: the first buffer is the producer's, the third the consumer's. -/
structure Config.Initial (config : Config Frame) : Prop where
  back : config.back = 0
  front : config.front = 2
  mid : config.mid = 1
  producer : config.producer = .idle
  consumer : config.consumer = .idle
  published : config.published = []
  takes : config.takes = []

/-- The contents of a buffer are replaced. -/
def Config.write (config : Config Frame) (index : Nat) (frame : Frame) : Config Frame :=
  { config with buf := fun other => if other = index then frame else config.buf other }

/-- One access to memory by either side; each access to the word is atomic. -/
inductive Step (config : Config Frame) : Config Frame → Prop
  -- `retro_triple_buffer_back` names the buffer, which the producer fills as it likes.
  | fill (frame : Frame) (idle : config.producer = .idle) :
      Step config (config.write config.back frame)
  | publishExchange (idle : config.producer = .idle) :
      Step config { config with
        mid := config.back ||| retroTripleBufferFresh
        producer := .exchanged config.mid
        published := config.published ++ [config.buf config.back] }
  | publishStore {old : Nat} (exchanged : config.producer = .exchanged old) :
      Step config { config with back := old &&& 3, producer := .idle }
  | takeNull (idle : config.consumer = .idle) (stale : config.mid &&& retroTripleBufferFresh = 0) :
      Step config { config with
        takes := config.takes ++ [⟨config.published.length, none⟩] }
  | takeTest (idle : config.consumer = .idle) (isFresh : config.mid &&& retroTripleBufferFresh ≠ 0) :
      Step config { config with consumer := .tested }
  | takeExchange (tested : config.consumer = .tested) :
      Step config { config with
        mid := config.front
        consumer := .exchanged config.mid config.published.length }
  | takeStore {old seen : Nat} (exchanged : config.consumer = .exchanged old seen) :
      Step config { config with
        front := old &&& 3
        consumer := .idle
        takes := config.takes ++ [⟨seen, some (config.buf (old &&& 3))⟩] }

/-- Every run of the two sides. -/
def system (Frame : Type) : Transition.System (Config Frame) where
  start := Config.Initial
  step := Step

/-- The producer's buffer: after its exchange, the one it got by it. -/
def Config.backIndex (config : Config Frame) : Nat :=
  match config.producer with
  | .idle => config.back
  | .exchanged old => old &&& 3

/-- The consumer's buffer: after its exchange, the one it got by it. -/
def Config.frontIndex (config : Config Frame) : Nat :=
  match config.consumer with
  | .idle | .tested => config.front
  | .exchanged old _ => old &&& 3

/-- The number of the last frame among some takes, zero if there is none. -/
def lastSeen (takes : List (Take Frame)) : Nat := (takes.getLast?.map (·.seen)).getD 0

/-- The number of the frame the consumer holds, zero before the first one. -/
def Config.held (config : Config Frame) : Nat :=
  match config.consumer with
  | .idle | .tested => lastSeen config.takes
  | .exchanged _ seen => seen

/-- A take answers with a newer frame than the one before it, and with none if there is none. -/
def Orderly (takes : List (Take Frame)) : Prop :=
  ∀ before take after, takes = before ++ take :: after →
    if take.frame = none then take.seen = lastSeen before else lastSeen before < take.seen

/-- The word's index, and whether it is marked. -/
inductive Marked (index : Nat) : Nat → Bool → Prop
  | stale : Marked index index false
  | newer : Marked index (index ||| retroTripleBufferFresh) true

theorem Marked.reads {index word : Nat} {isFresh : Bool} (marked : Marked index word isFresh)
    (small : index < 3) :
    word &&& 3 = index ∧ (word &&& retroTripleBufferFresh = 0 ↔ isFresh = false) := by
  -- The three indices are tried one by one.
  have plain : ∀ index < 3, index &&& 3 = index ∧ index &&& retroTripleBufferFresh = 0 := by decide
  have raised : ∀ index < 3, (index ||| retroTripleBufferFresh) &&& 3 = index ∧
      (index ||| retroTripleBufferFresh) &&& retroTripleBufferFresh = 4 := by
    decide
  cases marked with
  | stale => simp [plain index small]
  | newer => simp [raised index small]

/-- What holds between any two accesses. -/
structure Holds (middle : Nat) (isFresh : Bool) (config : Config Frame) : Prop where
  -- Every buffer is with exactly one side or in the middle.
  shared : [config.backIndex, config.frontIndex, middle].Perm [0, 1, 2]
  marked : Marked middle config.mid isFresh
  tested : config.consumer = .tested → isFresh = true
  -- The waiting buffer is marked while the consumer's frame is not the newest.
  stale : isFresh = false → config.published.length = config.held
  newest : isFresh = true → config.published.getLast? = some (config.buf middle) ∧
    config.held < config.published.length
  keeps : config.held = 0 ∨ config.published[config.held - 1]? = some (config.buf config.frontIndex)
  inFlight : ∀ old seen, config.consumer = .exchanged old seen → lastSeen config.takes < seen
  delivered : ∀ take ∈ config.takes, ∀ frame, take.frame = some frame →
    0 < take.seen ∧ config.published[take.seen - 1]? = some frame
  orderly : Orderly config.takes

section

variable {middle : Nat} {isFresh : Bool} {config : Config Frame}

theorem Holds.distinct (holds : Holds middle isFresh config) :
    config.backIndex ≠ config.frontIndex ∧ config.backIndex ≠ middle ∧
      config.backIndex < 3 ∧ config.frontIndex < 3 ∧ middle < 3 := by
  have different : [config.backIndex, config.frontIndex, middle].Nodup :=
    holds.shared.nodup_iff.mpr (by decide)
  have small : ∀ index ∈ [config.backIndex, config.frontIndex, middle], index < 3 := by
    intro index member
    have known : index ∈ [0, 1, 2] := holds.shared.mem_iff.mp member
    simp at known
    omega
  simp at different small
  omega

theorem Config.Initial.holds (initial : config.Initial) : Holds 1 false config := by
  obtain ⟨back, front, mid, producer, consumer, published, takes⟩ := initial
  have backIndex : config.backIndex = 0 := by rw [backIndex, producer, back]
  have frontIndex : config.frontIndex = 2 := by rw [frontIndex, consumer, front]
  have held : config.held = 0 := by rw [held, consumer, takes]; rfl
  exact {
    shared := by rw [backIndex, frontIndex]; decide
    marked := by rw [mid]; exact .stale
    tested := by rw [consumer]; simp
    stale := by rw [published, held]; simp
    newest := by simp
    keeps := .inl held
    inFlight := by rw [consumer]; simp
    delivered := by rw [takes]; simp
    orderly := by rw [takes]; intro before take after same; simp at same }

theorem Holds.fill (holds : Holds middle isFresh config) (frame : Frame) (idle : config.producer = .idle) :
    Holds middle isFresh (config.write config.back frame) := by
  have own : config.backIndex = config.back := by rw [Config.backIndex, idle]
  obtain ⟨notFront, notMiddle, -⟩ := holds.distinct
  rw [own] at notFront notMiddle
  have front : (config.write config.back frame).buf config.frontIndex =
      config.buf config.frontIndex := if_neg notFront.symm
  have waiting : (config.write config.back frame).buf middle = config.buf middle := if_neg notMiddle.symm
  exact { holds with
    newest := fun marked => by
      rw [waiting]
      exact holds.newest marked
    keeps := by
      have keeps := holds.keeps
      rw [← front] at keeps
      exact keeps }

theorem Holds.publishExchange (holds : Holds middle isFresh config) (idle : config.producer = .idle) :
    Holds config.back true { config with
      mid := config.back ||| retroTripleBufferFresh
      producer := .exchanged config.mid
      published := config.published ++ [config.buf config.back] } := by
  have own : config.backIndex = config.back := by rw [Config.backIndex, idle]
  obtain ⟨-, -, -, -, small⟩ := holds.distinct
  have got := (holds.marked.reads small).1
  have shorter : config.held ≤ config.published.length := by
    cases isFresh with
    | false => exact Nat.le_of_eq (holds.stale rfl).symm
    | true => exact Nat.le_of_lt (holds.newest rfl).2
  have kept : ∀ (number : Nat) (frame : Frame), config.published[number]? = some frame →
      (config.published ++ [config.buf config.back])[number]? = some frame := by
    intro number frame found
    rw [getElem?_append_left (List.getElem?_eq_some_iff.mp found).1]
    exact found
  exact {
    shared := by
      -- The first and the last index change places.
      have swapped : [config.mid &&& 3, config.frontIndex, config.back].Perm
          [config.backIndex, config.frontIndex, middle] := by
        rw [got, own]
        exact (reverse_perm [config.back, config.frontIndex, middle])
      exact swapped.trans holds.shared
    marked := .newer
    tested := fun _ => rfl
    stale := by simp
    newest := fun _ => ⟨by simp, by
      simp only [Config.held, length_append, length_singleton]
      exact Nat.lt_succ_of_le shorter⟩
    keeps := by
      cases holds.keeps with
      | inl none => exact .inl none
      | inr found => exact .inr (kept _ _ found)
    inFlight := holds.inFlight
    delivered := fun take member frame answer => by
      obtain ⟨positive, found⟩ := holds.delivered take member frame answer
      exact ⟨positive, kept _ _ found⟩
    orderly := holds.orderly }

theorem Holds.publishStore (holds : Holds middle isFresh config) {old : Nat}
    (exchanged : config.producer = .exchanged old) :
    Holds middle isFresh { config with back := old &&& 3, producer := .idle } := by
  have same : config.backIndex = old &&& 3 := by rw [Config.backIndex, exchanged]
  have shared := holds.shared
  rw [same] at shared
  exact { holds with shared := shared }

theorem Orderly.append {takes : List (Take Frame)} (orderly : Orderly takes) {take : Take Frame}
    (fits : if take.frame = none then take.seen = lastSeen takes else lastSeen takes < take.seen) :
    Orderly (takes ++ [take]) := by
  intro before other after same
  cases after using List.reverseRecOn with
  | nil =>
    obtain ⟨rfl, last⟩ := append_inj' same rfl
    rw [← singleton_inj.mp last]
    exact fits
  | append_singleton after last =>
    rw [← cons_append, ← List.append_assoc] at same
    exact orderly before other after (append_inj' same rfl).1

theorem lastSeen_append (takes : List (Take Frame)) (take : Take Frame) :
    lastSeen (takes ++ [take]) = take.seen := by
  simp [lastSeen]

theorem Holds.takeNull (holds : Holds middle isFresh config) (idle : config.consumer = .idle)
    (stale : config.mid &&& retroTripleBufferFresh = 0) :
    Holds middle isFresh { config with
      takes := config.takes ++ [⟨config.published.length, none⟩] } := by
  obtain ⟨-, -, -, -, small⟩ := holds.distinct
  have unmarked := (holds.marked.reads small).2.mp stale
  have all := holds.stale unmarked
  have before : config.held = lastSeen config.takes := by rw [Config.held, idle]
  have after : Config.held { config with
      takes := config.takes ++ [⟨config.published.length, none⟩] } = config.held := by
    rw [Config.held, idle]
    dsimp only
    rw [lastSeen_append, all]
  exact { holds with
    stale := fun _ => all.trans after.symm
    newest := fun marked => absurd (unmarked.symm.trans marked) (by simp)
    keeps := by
      rw [after]
      exact holds.keeps
    inFlight := fun old seen exchanged => absurd (idle.symm.trans exchanged) (by simp)
    delivered := fun take member frame answer => by
      rcases mem_append.mp member with earlier | last
      · exact holds.delivered take earlier frame answer
      · rw [mem_singleton.mp last] at answer
        exact absurd answer (by simp)
    orderly := holds.orderly.append (by rw [if_pos rfl, ← before, all]) }

theorem Holds.takeTest (holds : Holds middle isFresh config) (idle : config.consumer = .idle)
    (newer : config.mid &&& retroTripleBufferFresh ≠ 0) :
    Holds middle isFresh { config with consumer := .tested } := by
  obtain ⟨-, -, -, -, small⟩ := holds.distinct
  have index : config.frontIndex = config.front := by rw [Config.frontIndex, idle]
  have held : config.held = lastSeen config.takes := by rw [Config.held, idle]
  have shared := holds.shared
  have stale := holds.stale
  have newest := holds.newest
  have keeps := holds.keeps
  rw [index] at shared keeps
  rw [held] at stale newest keeps
  exact { holds with
    shared := shared
    tested := fun _ => by
      cases isFresh with
      | true => rfl
      | false => exact absurd ((holds.marked.reads small).2.mpr rfl) newer
    stale := stale
    newest := newest
    keeps := keeps
    inFlight := by simp }

theorem Holds.takeExchange (holds : Holds middle isFresh config) (tested : config.consumer = .tested) :
    Holds config.front false { config with
      mid := config.front
      consumer := .exchanged config.mid config.published.length } := by
  obtain ⟨-, -, -, -, small⟩ := holds.distinct
  have got := (holds.marked.reads small).1
  have index : config.frontIndex = config.front := by rw [Config.frontIndex, tested]
  have held : config.held = lastSeen config.takes := by rw [Config.held, tested]
  obtain ⟨last, ahead⟩ := holds.newest (holds.tested tested)
  exact { holds with
    shared := by
      -- The last two indices change places.
      have swapped : [config.backIndex, config.mid &&& 3, config.front].Perm
          [config.backIndex, config.frontIndex, middle] := by
        rw [got, index]
        exact .cons _ (.swap _ _ _)
      exact swapped.trans holds.shared
    marked := .stale
    tested := by simp
    stale := fun _ => rfl
    newest := by simp
    keeps := by
      refine .inr ?_
      have newest : config.published[config.published.length - 1]? = some (config.buf middle) := by
        rw [← getLast?_eq_getElem?, last]
      rw [← got] at newest
      exact newest
    inFlight := fun old seen exchanged => by
      obtain ⟨-, rfl⟩ := Consumer.exchanged.inj exchanged
      rw [← held]
      exact ahead }

theorem Holds.takeStore (holds : Holds middle isFresh config) {old seen : Nat}
    (exchanged : config.consumer = .exchanged old seen) :
    Holds middle isFresh { config with
      front := old &&& 3
      consumer := .idle
      takes := config.takes ++ [⟨seen, some (config.buf (old &&& 3))⟩] } := by
  have index : config.frontIndex = old &&& 3 := by rw [Config.frontIndex, exchanged]
  have held : config.held = seen := by rw [Config.held, exchanged]
  have after : Config.held { config with
      front := old &&& 3
      consumer := .idle
      takes := config.takes ++ [⟨seen, some (config.buf (old &&& 3))⟩] } = config.held := by
    rw [held]
    exact lastSeen_append _ _
  have ahead := holds.inFlight old seen exchanged
  have shared := holds.shared
  have keeps := holds.keeps
  rw [index] at shared keeps
  exact { holds with
    shared := shared
    tested := by simp
    stale := fun unmarked => (holds.stale unmarked).trans after.symm
    newest := fun marked => by
      rw [after]
      exact holds.newest marked
    keeps := by
      rw [after]
      exact keeps
    inFlight := by simp
    delivered := fun take member frame answer => by
      rcases mem_append.mp member with earlier | last
      · exact holds.delivered take earlier frame answer
      · rw [mem_singleton.mp last] at answer ⊢
        obtain rfl := Option.some.inj answer
        rw [held] at keeps
        exact ⟨Nat.lt_of_le_of_lt (Nat.zero_le _) ahead, keeps.resolve_left (by omega)⟩
    orderly := holds.orderly.append (by simpa using ahead) }

theorem Step.holds {next : Config Frame} (step : Step config next) (holds : Holds middle isFresh config) :
    ∃ laterMiddle laterFresh, Holds laterMiddle laterFresh next := by
  cases step with
  | fill frame idle => exact ⟨_, _, holds.fill frame idle⟩
  | publishExchange idle => exact ⟨_, _, holds.publishExchange idle⟩
  | publishStore exchanged => exact ⟨_, _, holds.publishStore exchanged⟩
  | takeNull idle stale => exact ⟨_, _, holds.takeNull idle stale⟩
  | takeTest idle newer => exact ⟨_, _, holds.takeTest idle newer⟩
  | takeExchange tested => exact ⟨_, _, holds.takeExchange tested⟩
  | takeStore exchanged => exact ⟨_, _, holds.takeStore exchanged⟩

theorem holds_invariant : (system Frame).Invariant
    fun config => ∃ middle isFresh, Holds middle isFresh config where
  start := fun _ initial => ⟨_, _, Config.Initial.holds initial⟩
  step := fun _ _ reached step => by
    obtain ⟨middle, isFresh, holds⟩ := reached
    exact step.holds holds

theorem Step.frontKept {next : Config Frame} (step : Step config next) (holds : Holds middle isFresh config) :
    next.buf config.frontIndex = config.buf config.frontIndex := by
  cases step with
  | fill frame idle =>
    have own : config.backIndex = config.back := by rw [Config.backIndex, idle]
    exact if_neg (own ▸ holds.distinct.1).symm
  | _ => rfl

end

theorem Orderly.increasing {takes : List (Take Frame)} (orderly : Orderly takes) :
    ((takes.filter (·.frame.isSome)).map (·.seen)).Pairwise (· < ·) ∧
      ∀ take ∈ takes, take.seen ≤ lastSeen takes := by
  -- The takes are followed from the first to the last.
  induction takes using List.reverseRecOn with
  | nil => simp
  | append_singleton takes last ih =>
    have earlier : Orderly takes := by
      intro before take after same
      exact orderly before take (after ++ [last]) (by rw [same]; simp)
    obtain ⟨increasing, bounded⟩ := ih earlier
    have fits := orderly takes last [] rfl
    rw [lastSeen_append]
    have later : lastSeen takes ≤ last.seen := by
      split_ifs at fits
      · exact Nat.le_of_eq fits.symm
      · exact Nat.le_of_lt fits
    constructor
    · rw [filter_append, map_append, pairwise_append]
      refine ⟨increasing, ?_, ?_⟩
      · cases answered : last.frame.isSome <;> simp [answered]
      · intro number among final isLast
        obtain ⟨take, member, rfl⟩ := mem_map.mp among
        obtain ⟨other, same, rfl⟩ := mem_map.mp isLast
        obtain ⟨single, some_⟩ := mem_filter.mp same
        rw [mem_singleton.mp single] at some_ ⊢
        have answered : last.frame ≠ none := Option.isSome_iff_ne_none.mp some_
        rw [if_neg answered] at fits
        exact Nat.lt_of_le_of_lt (bounded take (mem_filter.mp member).1) fits
    · intro take member
      rcases mem_append.mp member with among | single
      · exact Nat.le_trans (bounded take among) later
      · exact Nat.le_of_eq (by rw [mem_singleton.mp single])

/--
In every run each buffer is with one side or in the middle, the producer never writes the
consumer's, each answer of a take is the newest frame published before its exchange, answers are
ever newer, and a take without one had nothing new to answer with.
-/
theorem reachable_newest {config : Config Frame} (reached : (system Frame).Reachable config) :
    [config.backIndex, config.frontIndex, config.mid &&& 3].Perm [0, 1, 2] ∧ (∀ next, Step config next →
        next.buf config.frontIndex = config.buf config.frontIndex) ∧
      (∀ take ∈ config.takes, ∀ frame, take.frame = some frame →
        0 < take.seen ∧ config.published[take.seen - 1]? = some frame) ∧
      ((config.takes.filter (·.frame.isSome)).map (·.seen)).Pairwise (· < ·) ∧
      ∀ before take after, config.takes = before ++ take :: after → take.frame = none →
        take.seen = lastSeen before := by
  obtain ⟨middle, isFresh, holds⟩ := holds_invariant.reachable reached
  refine ⟨?_, fun next step => step.frontKept holds, holds.delivered, holds.orderly.increasing.1, ?_⟩
  · rw [(holds.marked.reads holds.distinct.2.2.2.2).1]
    exact holds.shared
  · intro before take after same none
    have fits := holds.orderly before take after same
    rwa [if_pos none] at fits

/-- One frame is filled, published and taken. -/
theorem reachable_newest_taken :
    ∃ config : Config Nat, config.published = [7] ∧ config.takes = [⟨1, some 7⟩] ∧
      [config.backIndex, config.frontIndex, config.mid &&& 3].Perm [0, 1, 2] := by
  have start : (system Nat).Reachable ⟨fun _ => 0, 1, 0, 2, .idle, .idle, [], []⟩ :=
    .start ⟨rfl, rfl, rfl, rfl, rfl, rfl, rfl⟩
  have filled := start.step (.fill 7 rfl)
  let buf := fun index => if index = 0 then 7 else 0
  have handed : (system Nat).Reachable ⟨buf, 4, 0, 2, .exchanged 1, .idle, [7], []⟩ :=
    filled.step (.publishExchange rfl)
  have published : (system Nat).Reachable ⟨buf, 4, 1, 2, .idle, .idle, [7], []⟩ :=
    handed.step (@Step.publishStore Nat _ 1 rfl)
  have tested : (system Nat).Reachable ⟨buf, 4, 1, 2, .idle, .tested, [7], []⟩ :=
    published.step (.takeTest rfl (by decide))
  have exchanged : (system Nat).Reachable ⟨buf, 2, 1, 2, .idle, .exchanged 4 1, [7], []⟩ :=
    tested.step (.takeExchange rfl)
  have taken : (system Nat).Reachable ⟨buf, 2, 1, 0, .idle, .idle, [7], [⟨1, some 7⟩]⟩ :=
    exchanged.step (@Step.takeStore Nat _ 4 1 rfl)
  exact ⟨_, rfl, rfl, (reachable_newest taken).1⟩

end Libretro.TripleBuffer
