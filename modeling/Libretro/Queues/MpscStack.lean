import Libretro.Library.LinkedChain
import Libretro.Library.Transition
import Mathlib.Data.List.Nodup

/-! The multi-producer stack: pushes by compare-and-swap, and a consumer that takes the chain. -/

namespace Libretro.MpscStack

open Function LinkedChain List

variable {Producer Node : Type} [DecidableEq Producer] [DecidableEq Node]

/-- Where a producer's push stands. -/
inductive Push (Node : Type) where
  | idle
  -- The loop of `mpsc_stack_push` begins here, and again after a failed exchange.
  | start (node : Node)
  | loaded (node : Node) (head : Option Node)
  | linked (node : Node)

/-- Where the consumer stands after a drain: in the chain as it is, or in its reversal. -/
inductive Consumer (Node : Type) where
  | idle
  | listing (read : List Node) (node : Option Node)
  -- The two variables of `mpsc_stack_reverse`.
  | reversing (chain node : Option Node)
  | walking (read : List Node) (node : Option Node)

/-- The shared word, every link, and where each thread stands. -/
structure Config (Producer Node : Type) where
  head : Option Node
  next : Node → Option Node
  producers : Producer → Push Node
  consumer : Consumer Node
  -- A node is free until it is pushed, and again once the consumer has read past it.
  free : Node → Bool
  -- For the specification only: the successful exchanges in order, what each producer pushed in
  -- order, and the drained batches, each the oldest node first.
  pushed : List (Producer × Node)
  sent : Producer → List Node
  returned : List (List Node)

/-- `mpsc_stack_init`: an empty stack, and no thread in the middle of anything. -/
structure Config.Initial (config : Config Producer Node) : Prop where
  head : config.head = none
  producers : ∀ producer, config.producers producer = .idle
  consumer : config.consumer = .idle
  free : ∀ node, config.free node = true
  pushed : config.pushed = []
  sent : ∀ producer, config.sent producer = []
  returned : config.returned = []

/-- One producer goes on. -/
def Config.moves (config : Config Producer Node) (producer : Producer) (push : Push Node) :
    Config Producer Node :=
  { config with producers := Function.update config.producers producer push }

/-- One access to memory by any thread; each access to the head is atomic. -/
inductive Step (config : Config Producer Node) : Config Producer Node → Prop
  | call {producer : Producer} {node : Node} (idle : config.producers producer = .idle)
      (free : config.free node = true) :
      Step config { config.moves producer (.start node) with
        free := Function.update config.free node false }
  | load {producer : Producer} {node : Node} (start : config.producers producer = .start node) :
      Step config (config.moves producer (.loaded node config.head))
  | link {producer : Producer} {node : Node} {head : Option Node}
      (loaded : config.producers producer = .loaded node head) :
      Step config { config.moves producer (.linked node) with
        next := Function.update config.next node head }
  | exchange {producer : Producer} {node : Node} (linked : config.producers producer = .linked node)
      (same : config.head = config.next node) :
      Step config { config.moves producer .idle with
        head := some node
        pushed := config.pushed ++ [(producer, node)]
        sent := Function.update config.sent producer (config.sent producer ++ [node]) }
  | retry {producer : Producer} {node : Node} (linked : config.producers producer = .linked node)
      (changed : config.head ≠ config.next node) :
      Step config (config.moves producer (.start node))
  -- `mpsc_stack_drain`: the caller walks the chain as it is, or reverses it first.
  | drainList (idle : config.consumer = .idle) :
      Step config { config with head := none, consumer := .listing [] config.head }
  | drainReverse (idle : config.consumer = .idle) :
      Step config { config with head := none, consumer := .reversing none config.head }
  | list {read : List Node} {node : Node} (listing : config.consumer = .listing read (some node)) :
      Step config { config with
        consumer := .listing (read ++ [node]) (config.next node)
        free := Function.update config.free node true }
  | listEnd {read : List Node} (listing : config.consumer = .listing read none) :
      Step config { config with
        consumer := .idle
        returned := config.returned ++ [read.reverse] }
  | reverse {chain : Option Node} {node : Node}
      (reversing : config.consumer = .reversing chain (some node)) :
      Step config { config with
        next := Function.update config.next node chain
        consumer := .reversing (some node) (config.next node) }
  | reverseEnd {chain : Option Node} (reversing : config.consumer = .reversing chain none) :
      Step config { config with consumer := .walking [] chain }
  | walk {read : List Node} {node : Node} (walking : config.consumer = .walking read (some node)) :
      Step config { config with
        consumer := .walking (read ++ [node]) (config.next node)
        free := Function.update config.free node true }
  | walkEnd {read : List Node} (walking : config.consumer = .walking read none) :
      Step config { config with
        consumer := .idle
        returned := config.returned ++ [read] }

/-- Every run of the producers and the consumer. -/
def system (Producer Node : Type) [DecidableEq Producer] [DecidableEq Node] :
    Transition.System (Config Producer Node) where
  start := Config.Initial
  step := Step

/-- The node a push has in hand. -/
def Push.node : Push Node → Option Node
  | .idle => none
  | .start node | .loaded node _ | .linked node => some node

/-- The consumer's chain: the nodes it has yet to read past, and its whole batch, oldest first. -/
inductive Takes (next : Node → Option Node) : Consumer Node → List Node → List Node → Prop
  | idle : Takes next .idle [] []
  | listing {read rest : List Node} {node : Option Node} (chain : Chain next node rest) :
      Takes next (.listing read node) rest (read ++ rest).reverse
  | reversing {done rest : List Node} {chain node : Option Node} (turned : Chain next chain done)
      (ahead : Chain next node rest) :
      Takes next (.reversing chain node) (done ++ rest) (rest.reverse ++ done)
  | walking {read rest : List Node} {node : Option Node} (chain : Chain next node rest) :
      Takes next (.walking read node) rest (read ++ rest)

/-- What holds between any two accesses, by the nodes of the stack and of the consumer. -/
structure Holds (stacked owned batch : List Node) (config : Config Producer Node) : Prop where
  chain : Chain config.next config.head stacked
  takes : Takes config.next config.consumer owned batch
  apart : (stacked ++ owned).Nodup
  whole : batch.Nodup
  busy : ∀ node ∈ stacked ++ owned, config.free node = false
  -- A node in a producer's hand is nowhere else.
  held : ∀ producer node, (config.producers producer).node = some node →
    config.free node = false ∧ node ∉ stacked ++ owned ∧
      ∀ other, (config.producers other).node = some node → other = producer
  order : config.pushed.map Prod.snd = config.returned.flatten ++ (batch ++ stacked.reverse)
  sent : ∀ producer, config.sent producer =
    (config.pushed.filter (fun push => push.1 = producer)).map Prod.snd
  once : ∀ read ∈ config.returned, read.Nodup

section

variable {stacked owned batch : List Node} {config : Config Producer Node}

theorem Takes.update {next : Node → Option Node} {consumer : Consumer Node} {node : Node}
    (takes : Takes next consumer owned batch) (outside : node ∉ owned) (link : Option Node) :
    Takes (Function.update next node link) consumer owned batch := by
  cases takes with
  | idle => exact .idle
  | listing chain => exact .listing (chain.update outside link)
  | reversing turned ahead =>
    rw [mem_append, not_or] at outside
    exact .reversing (turned.update outside.1 link) (ahead.update outside.2 link)
  | walking chain => exact .walking (chain.update outside link)

omit [DecidableEq Node] in
theorem Config.Initial.holds (initial : config.Initial) : Holds [] [] [] config where
  chain := initial.head
  takes := by
    rw [initial.consumer]
    exact .idle
  apart := .nil
  whole := .nil
  busy := by simp
  held := fun producer node hand => by
    rw [initial.producers producer] at hand
    exact absurd hand (by simp [Push.node])
  order := by simp [initial.pushed, initial.returned]
  sent := by simp [initial.pushed, initial.sent]
  once := by simp [initial.returned]

omit [DecidableEq Node] in
theorem Holds.moves (holds : Holds stacked owned batch config) {producer : Producer}
    {push : Push Node} (same : push.node = (config.producers producer).node) :
    Holds stacked owned batch (config.moves producer push) := by
  -- No hand changes, so no owner does.
  have hands : ∀ other, ((config.moves producer push).producers other).node =
      (config.producers other).node := by
    intro other
    by_cases here : other = producer
    · subst here
      simp [Config.moves, same]
    · simp [Config.moves, update_of_ne here]
  exact { holds with
    held := fun other node hand => by
      rw [hands] at hand
      obtain ⟨busy, outside, only⟩ := holds.held other node hand
      refine ⟨busy, outside, fun third handThird => ?_⟩
      rw [hands] at handThird
      exact only third handThird }

theorem Holds.call (holds : Holds stacked owned batch config) {producer : Producer} {node : Node}
    (idle : config.producers producer = .idle) (free : config.free node = true) :
    Holds stacked owned batch { config.moves producer (.start node) with
      free := Function.update config.free node false } := by
  have outside : node ∉ stacked ++ owned := by
    intro member
    exact absurd (free.symm.trans (holds.busy node member)) (by simp)
  have elsewhere : ∀ other, (config.producers other).node ≠ some node := by
    intro other hand
    exact absurd (free.symm.trans (holds.held other node hand).1) (by simp)
  have hands : ∀ other, other ≠ producer → ((config.moves producer (.start node)).producers other).node =
        (config.producers other).node := by
    intro other different
    simp [Config.moves, update_of_ne different]
  have own : ((config.moves producer (.start node)).producers producer).node = some node := by
    simp [Config.moves, Push.node]
  exact { holds with
    busy := fun other member => by
      by_cases same : other = node
      · rw [same]
        exact update_self ..
      · exact (update_of_ne same ..).trans (holds.busy other member)
    held := fun other third hand => by
      dsimp only at hand ⊢
      by_cases here : other = producer
      · subst here
        rw [own] at hand
        obtain rfl := Option.some.inj hand
        refine ⟨update_self .., outside, fun another handAnother => ?_⟩
        by_contra different
        rw [hands another different] at handAnother
        exact elsewhere another handAnother
      · rw [hands other here] at hand
        obtain ⟨busy, away, only⟩ := holds.held other third hand
        have notNode : third ≠ node := by
          intro same
          exact elsewhere other (same ▸ hand)
        refine ⟨(update_of_ne notNode ..).trans busy, away, fun another handAnother => ?_⟩
        by_cases fresh : another = producer
        · subst fresh
          rw [own] at handAnother
          exact absurd (Option.some.inj handAnother).symm notNode
        · rw [hands another fresh] at handAnother
          exact only another handAnother }

theorem Holds.link (holds : Holds stacked owned batch config) {producer : Producer} {node : Node}
    {head : Option Node} (loaded : config.producers producer = .loaded node head) :
    Holds stacked owned batch { config.moves producer (.linked node) with
      next := Function.update config.next node head } := by
  have hand : (config.producers producer).node = some node := by rw [loaded]; rfl
  obtain ⟨-, outside, -⟩ := holds.held producer node hand
  rw [mem_append, not_or] at outside
  have same : (Push.linked node).node = (config.producers producer).node := hand.symm
  have moved := holds.moves same
  exact { moved with
    chain := holds.chain.update outside.1 head
    takes := holds.takes.update outside.2 head }

omit [DecidableEq Node] in
theorem Holds.exchange (holds : Holds stacked owned batch config) {producer : Producer}
    {node : Node} (linked : config.producers producer = .linked node)
    (same : config.head = config.next node) :
    Holds (node :: stacked) owned batch { config.moves producer .idle with
      head := some node
      pushed := config.pushed ++ [(producer, node)]
      sent := Function.update config.sent producer (config.sent producer ++ [node]) } := by
  have hand : (config.producers producer).node = some node := by rw [linked]; rfl
  obtain ⟨busy, outside, only⟩ := holds.held producer node hand
  exact {
    chain := ⟨rfl, same ▸ holds.chain⟩
    takes := holds.takes
    apart := nodup_cons.mpr ⟨outside, holds.apart⟩
    whole := holds.whole
    busy := fun other member => by
      rcases mem_cons.mp member with rfl | among
      · exact busy
      · exact holds.busy other among
    held := fun other third handOther => by
      -- Only the other producers still have a node, and not this one.
      have different : other ≠ producer := by
        intro here
        simp [here, Config.moves, Push.node] at handOther
      simp only [Config.moves, update_of_ne different] at handOther
      obtain ⟨busyThird, away, onlyThird⟩ := holds.held other third handOther
      have notNode : third ≠ node := by
        intro here
        exact different (only other (here ▸ handOther))
      refine ⟨busyThird, ?_, fun another handAnother => ?_⟩
      · rw [cons_append, mem_cons, not_or]
        exact ⟨notNode, away⟩
      · by_cases idle : another = producer
        · simp [idle, Config.moves, Push.node] at handAnother
        · simp only [Config.moves, update_of_ne idle] at handAnother
          exact onlyThird another handAnother
    order := by
      have order := holds.order
      simp only [Config.moves, map_append, order, reverse_cons, List.append_assoc,
        map_cons, map_nil]
    sent := fun other => by
      have sent := holds.sent other
      by_cases here : other = producer
      · subst here
        simp [sent]
      · simp [update_of_ne here, sent, Ne.symm here]
    once := holds.once }

omit [DecidableEq Node] in
theorem Holds.drain (holds : Holds stacked owned batch config) (idle : config.consumer = .idle)
    {consumer : Consumer Node} (begins : Takes config.next consumer stacked stacked.reverse) :
    Holds [] stacked stacked.reverse { config with head := none, consumer } := by
  have takes := holds.takes
  rw [idle] at takes
  cases takes with
  | idle =>
    have apart := holds.apart
    have order := holds.order
    have busy := holds.busy
    have held := holds.held
    rw [append_nil] at apart busy
    simp only [append_nil] at held
    exact { holds with
      chain := rfl
      takes := begins
      apart := apart
      whole := nodup_reverse.mpr apart
      busy := busy
      held := held
      order := by simpa using order }

theorem Holds.release {rest : List Node} {node : Node}
    (holds : Holds stacked (node :: rest) batch config) {consumer : Consumer Node}
    (goesOn : Takes config.next consumer rest batch) :
    Holds stacked rest batch { config with
      consumer
      free := Function.update config.free node true } := by
  have apart := nodup_middle.mp holds.apart
  obtain ⟨outside, apart⟩ := nodup_cons.mp apart
  have among : ∀ {other}, other ∈ stacked ++ rest → other ∈ stacked ++ node :: rest := by
    intro other member
    rw [mem_append] at member ⊢
    exact member.imp_right (mem_cons_of_mem node)
  exact { holds with
    takes := goesOn
    apart := apart
    busy := fun other member => by
      have different : other ≠ node := by
        intro same
        exact outside (same ▸ member)
      exact (update_of_ne different ..).trans (holds.busy other (among member))
    held := fun producer other hand => by
      obtain ⟨busy, away, only⟩ := holds.held producer other hand
      have different : other ≠ node := by
        intro same
        exact away (by simp [same])
      refine ⟨(update_of_ne different ..).trans busy, ?_, only⟩
      exact fun member => away (among member) }

omit [DecidableEq Node] in
theorem Holds.finish (holds : Holds stacked owned batch config) :
    Holds stacked [] [] { config with
      consumer := .idle
      returned := config.returned ++ [batch] } := by
  have fewer : ∀ {other}, other ∈ stacked ++ [] → other ∈ stacked ++ owned := by
    intro other member
    rw [append_nil] at member
    exact mem_append_left owned member
  exact { holds with
    takes := .idle
    apart := by
      rw [append_nil]
      exact (nodup_append.mp holds.apart).1
    whole := .nil
    busy := fun other member => holds.busy other (fewer member)
    held := fun producer other hand => by
      obtain ⟨busy, away, only⟩ := holds.held producer other hand
      exact ⟨busy, fun member => away (fewer member), only⟩
    order := by
      have order := holds.order
      simp [order]
    once := fun read member => by
      rcases mem_append.mp member with earlier | last
      · exact holds.once read earlier
      · rw [mem_singleton.mp last]
        exact holds.whole }

theorem Holds.reverse (holds : Holds stacked owned batch config) {chain : Option Node} {node : Node}
    (reversing : config.consumer = .reversing chain (some node)) :
    ∃ later, Holds stacked later batch { config with
      next := Function.update config.next node chain
      consumer := .reversing (some node) (config.next node) } := by
  have takes := holds.takes
  rw [reversing] at takes
  cases takes with
  | @reversing done rest chain first turned ahead =>
    obtain ⟨rest, rfl, more⟩ := chain_some ahead
    have shuffled : (stacked ++ (node :: done ++ rest)).Perm (stacked ++ (done ++ node :: rest)) :=
      perm_middle.symm.append_left stacked
    have apart := (shuffled.nodup_iff).mpr holds.apart
    have outside : node ∉ stacked ∧ node ∉ done ∧ node ∉ rest := by
      have moved := nodup_cons.mp (nodup_middle.mp apart)
      simpa using moved.1
    have batchSame : (node :: rest).reverse ++ done = rest.reverse ++ node :: done := by simp
    refine ⟨node :: done ++ rest, { holds with
      chain := holds.chain.update outside.1 chain
      takes := ?_
      apart := apart
      busy := fun other member => holds.busy other (shuffled.mem_iff.mp member)
      held := fun producer other hand => ?_ }⟩
    · rw [batchSame]
      exact .reversing (turned.push outside.2.1) (more.update outside.2.2 chain)
    · obtain ⟨busy, away, only⟩ := holds.held producer other hand
      exact ⟨busy, fun member => away (shuffled.mem_iff.mp member), only⟩

theorem Step.holds {next : Config Producer Node} (step : Step config next)
    (holds : Holds stacked owned batch config) :
    ∃ stackedLater ownedLater batchLater, Holds stackedLater ownedLater batchLater next := by
  cases step with
  | call idle free => exact ⟨_, _, _, holds.call idle free⟩
  | load start => exact ⟨_, _, _, holds.moves (by rw [start]; rfl)⟩
  | link loaded => exact ⟨_, _, _, holds.link loaded⟩
  | exchange linked same => exact ⟨_, _, _, holds.exchange linked same⟩
  | retry linked changed => exact ⟨_, _, _, holds.moves (by rw [linked]; rfl)⟩
  | drainList idle => exact ⟨_, _, _, holds.drain idle (.listing holds.chain)⟩
  | drainReverse idle =>
    have begins : Takes config.next (.reversing none config.head) ([] ++ stacked)
        (stacked.reverse ++ []) := .reversing rfl holds.chain
    rw [nil_append, append_nil] at begins
    exact ⟨_, _, _, holds.drain idle begins⟩
  | @list read node listing =>
    have takes := holds.takes
    rw [listing] at takes
    cases takes with
    | listing chain =>
      obtain ⟨rest, rfl, more⟩ := chain_some chain
      have goesOn := @Takes.listing _ config.next (read ++ [node]) _ _ more
      rw [List.append_assoc, singleton_append] at goesOn
      exact ⟨_, _, _, holds.release goesOn⟩
  | listEnd listing =>
    have takes := holds.takes
    rw [listing] at takes
    cases takes with
    | listing chain =>
      obtain rfl := chain_none chain
      rw [append_nil] at holds
      exact ⟨_, _, _, holds.finish⟩
  | reverse reversing =>
    obtain ⟨later, kept⟩ := holds.reverse reversing
    exact ⟨_, _, _, kept⟩
  | reverseEnd reversing =>
    have takes := holds.takes
    rw [reversing] at takes
    cases takes with
    | reversing turned ahead =>
      obtain rfl := chain_none ahead
      rw [append_nil, reverse_nil, nil_append] at holds
      exact ⟨_, _, _, { holds with takes := .walking turned }⟩
  | @walk read node walking =>
    have takes := holds.takes
    rw [walking] at takes
    cases takes with
    | walking chain =>
      obtain ⟨rest, rfl, more⟩ := chain_some chain
      have goesOn := @Takes.walking _ config.next (read ++ [node]) _ _ more
      rw [List.append_assoc, singleton_append] at goesOn
      exact ⟨_, _, _, holds.release goesOn⟩
  | walkEnd walking =>
    have takes := holds.takes
    rw [walking] at takes
    cases takes with
    | walking chain =>
      obtain rfl := chain_none chain
      rw [append_nil] at holds
      exact ⟨_, _, _, holds.finish⟩

theorem holds_invariant : (system Producer Node).Invariant
    fun config => ∃ stacked owned batch, Holds stacked owned batch config where
  start := fun _ initial => ⟨_, _, _, Config.Initial.holds initial⟩
  step := fun _ _ reached step => by
    obtain ⟨stacked, owned, batch, holds⟩ := reached
    exact step.holds holds

end

/--
In every run the returned batches, each the oldest node first, are the pushed nodes in order,
followed by those the consumer has yet to return and by those on the stack; no batch returns a node
twice, and what is returned of one producer's nodes is the beginning of what it pushed.
-/
theorem reachable_returned {config : Config Producer Node}
    (reached : (system Producer Node).Reachable config) :
    (∃ batch stacked, Chain config.next config.head stacked ∧ (config.consumer = .idle → batch = []) ∧
      config.pushed.map Prod.snd = config.returned.flatten ++ (batch ++ stacked.reverse)) ∧
    (∀ read ∈ config.returned, read.Nodup) ∧
    ∀ producer, ((config.pushed.take config.returned.flatten.length).filter
      (fun push => push.1 = producer)).map Prod.snd <+: config.sent producer := by
  obtain ⟨stacked, owned, batch, holds⟩ := holds_invariant.reachable reached
  refine ⟨⟨batch, stacked, holds.chain, ?_, holds.order⟩, holds.once, fun producer => ?_⟩
  · intro idle
    have takes := holds.takes
    rw [idle] at takes
    cases takes with
    | idle => rfl
  · rw [holds.sent]
    exact ((List.take_prefix _ _).filter _).map _

/-- Two nodes of two producers are drained together, the older one first. -/
theorem reachable_returned_two : ∃ config : Config Bool Nat, config.pushed = [(true, 1), (false, 2)] ∧
      config.returned = [[1, 2]] ∧ ∀ read ∈ config.returned, read.Nodup := by
  have start : (system Bool Nat).Reachable
      ⟨none, fun _ => none, fun _ => .idle, .idle, fun _ => true, [], fun _ => [], []⟩ :=
    .start ⟨rfl, fun _ => rfl, rfl, fun _ => rfl, rfl, fun _ => rfl, rfl⟩
  have first := (((start.step (@Step.call Bool Nat _ _ _ true 1 rfl rfl)).step
    (@Step.load Bool Nat _ _ _ true 1 rfl)).step (@Step.link Bool Nat _ _ _ true 1 none rfl)).step
    (@Step.exchange Bool Nat _ _ _ true 1 rfl rfl)
  have second := (((first.step (@Step.call Bool Nat _ _ _ false 2 rfl rfl)).step
    (@Step.load Bool Nat _ _ _ false 2 rfl)).step
    (@Step.link Bool Nat _ _ _ false 2 (some 1) rfl)).step
    (@Step.exchange Bool Nat _ _ _ false 2 rfl rfl)
  have turned := (((second.step (.drainReverse rfl)).step (@Step.reverse Bool Nat _ _ _ none 2 rfl)).step
    (@Step.reverse Bool Nat _ _ _ (some 2) 1 rfl)).step (@Step.reverseEnd Bool Nat _ _ _ (some 1) rfl)
  have returned := ((turned.step (@Step.walk Bool Nat _ _ _ [] 1 rfl)).step
    (@Step.walk Bool Nat _ _ _ [1] 2 rfl)).step (@Step.walkEnd Bool Nat _ _ _ [1, 2] rfl)
  exact ⟨_, rfl, rfl, (reachable_returned returned).2.1⟩

end Libretro.MpscStack
