import Libretro.Queues.TaskDefer
import Mathlib.Data.List.Perm.Basic
import Mathlib.Order.WellFounded

/-! Held tasks are decided once each and enter the running list in order, and a drain comes to its cut. -/

namespace Libretro.TaskQueue

open LinkedChain List Option Driver Config

variable {Thread Node : Type} [DecidableEq Thread] [DecidableEq Node]
  {layout : Layout Node} {config next : Config Thread Node} {thread : Thread} {node : Node}

/-- The invariant: what the links lead through, who has each task, and the records. -/
structure Sound (layout : Layout Node) (config : Config Thread Node) : Prop where
  holds : Holds layout config
  records : Records layout config

omit [DecidableEq Thread] [DecidableEq Node] in
/-- An empty queue is sound. -/
theorem Config.Initial.sound (initial : config.Initial) : Sound {} config := by
  have places : config.places {} = [] := by
    simp [places, waiting, initial.driver, initial.calls, initial.running,
      initial.finished, refused, own]
  have hands : ∀ thread node, (config.pushers thread).node ≠ some node := by
    intro thread node
    rw [initial.pushers thread]
    rintro ⟨⟩
  constructor
  · exact {
      shape := by
        rw [initial.driver, initial.head]
        exact ⟨rfl, rfl, rfl⟩
      apart := by
        rw [places]
        exact nodup_nil
      busy := by simp [places]
      hands := fun thread node hand => absurd hand (hands thread node)
      linked := fun thread node head inside stands => by
        rw [initial.pushers thread] at stands
        cases stands
      snap := by simp [initial.driver, snap] }
  · exact {
      held := by simp [initial.held, initial.decided, Layout.pending]
      line := by simp [initial.entered, Layout.pending]
      heldLine := by simp [initial.held]
      numbers := by simp [initial.entered, initial.held]
      hands := fun thread node hand => absurd hand (hands thread node)
      own := by simp [initial.driver, own]
      direct := by simp [Layout.pending]
      threads := by simp [initial.held]
      handed := by simp [initial.decided, initial.entered]
      refused := by
        simp [initial.decided, initial.retired, initial.driver, initial.calls, waiting,
          refused]
      spared := by simp [initial.decided] }

omit [DecidableEq Node] in
theorem Sound.moves (sound : Sound layout config) {pusher : Pusher Node}
    (same : pusher.node = (config.pushers thread).node)
    (plain : ∀ node head inside, pusher ≠ .swap node head inside) (direct : pusher.direct = true →
      (config.pushers thread).direct = true ∨ layout.pending = []) :
    Sound layout (config.moves thread pusher) where
  holds := sound.holds.moves same plain
  records := by
    refine sound.records.quiet rfl rfl rfl rfl rfl rfl (.refl _) ?_ (fun _ owns => owns) ?_
    · intro other third hand
      by_cases here : other = thread
      · subst here
        simpa [Config.moves, same] using hand
      · simpa [Config.moves, Function.update_of_ne here] using hand
    · intro other now
      by_cases here : other = thread
      · subst here
        exact direct (by simpa [Config.moves] using now)
      · exact .inl (by simpa [Config.moves, Function.update_of_ne here] using now)

theorem Sound.call (sound : Sound layout config) {blocking : Bool}
    (idle : config.pushers thread = .idle) (fresh : config.free node = true) :
    Sound layout ((config.makes node (some thread) blocking).moves thread (.enter node)) where
  holds := sound.holds.call idle fresh
  records := by
    have outside : node ∉ config.places layout := by
      intro placed
      have busy := sound.holds.busy node placed
      rw [fresh] at busy
      cases busy
    have elsewhere : ∀ other, (config.pushers other).node ≠ some node := by
      intro other hand
      have busy := (sound.holds.hands other node hand).1
      rw [fresh] at busy
      cases busy
    obtain ⟨records, latest⟩ : Records layout (config.makes node (some thread) blocking) ∧
        (config.makes node (some thread) blocking).Latest _ :=
      sound.records.makes outside elsewhere
    exact { records with
      hands := fun other third hand => by
        by_cases here : other = thread
        · subst here
          have same : third = node := by simpa [Config.moves, Pusher.node, eq_comm] using hand
          subst same
          refine ⟨?_, latest⟩
          simp [Config.moves, Config.makes]
        · refine records.hands other third ?_
          simpa [Config.moves, Function.update_of_ne here] using hand
      direct := fun other now => by
        refine records.direct other ?_
        by_cases here : other = thread
        · subst here
          simp [Config.moves, Pusher.direct] at now
        · simpa [Config.moves, Function.update_of_ne here] using now }

theorem Sound.put (sound : Sound layout config) (stands : config.pushers thread = .put node) :
    Sound layout ((config.runs node).moves thread .leave) := by
  have hand : (config.pushers thread).node = some node := by rw [stands]; rfl
  obtain ⟨owner, latest⟩ := sound.records.hands thread node hand
  constructor
  · refine sound.holds.give hand rfl sound.holds.shape ?_ rfl rfl rfl ?_
    · rw [perm_iff_count]
      intro other
      simp only [places, Config.moves, Config.runs, waiting, count_append,
        count_cons, count_nil]
      omega
    · intro snap taken
      have listed := sound.holds.snap snap taken
      simp only [Config.moves, Config.runs, mem_append] at listed ⊢
      tauto
  · refine sound.records.enters latest ?_ rfl rfl rfl rfl rfl rfl rfl ?_ ?_ ?_
    · intro push listed
      rw [owner]
      exact sound.records.direct thread (by rw [stands]; rfl) push listed
    · intro other third handOther
      have different : other ≠ thread := by
        rintro rfl
        simp [Config.moves, Pusher.node] at handOther
      simp only [Config.moves, Config.runs, Function.update_of_ne different] at handOther
      rw [owner]
      exact ⟨handOther, fun same => different (some.inj same).symm⟩
    · rw [owner]
      exact fun third owns => ⟨owns, by rintro ⟨⟩⟩
    · intro other now
      have different : other ≠ thread := by
        rintro rfl
        simp [Config.moves, Pusher.direct] at now
      simpa only [Config.moves, Config.runs, Function.update_of_ne different] using now

omit [DecidableEq Node] in
theorem Sound.swapHeld (sound : Sound layout config) {head : Option Node} {inside : Bool}
    (stands : config.pushers thread = .swap node head inside) (same : config.head = head) :
    Sound { layout with young := node :: layout.young }
      { config.moves thread (if inside then .leave else .idle) with
        head := some node
        held := config.held ++ [config.task node] } := by
  have hand : (config.pushers thread).node = some node := by rw [stands]; rfl
  have empty : (if inside then Pusher.leave else Pusher.idle : Pusher Node).node = none ∧
      (if inside then Pusher.leave else Pusher.idle : Pusher Node).direct = false := by
    cases inside <;> exact ⟨rfl, rfl⟩
  have linked : config.next node = config.head :=
    (sound.holds.linked thread node head inside stands).trans same.symm
  have others : ∀ other third, ((config.moves thread (if inside then .leave else .idle)).pushers other).node =
        some third → (config.pushers other).node = some third ∧ other ≠ thread := by
    intro other third handOther
    have different : other ≠ thread := by
      rintro rfl
      simp [Config.moves, empty.1] at handOther
    simp only [Config.moves, Function.update_of_ne different] at handOther
    exact ⟨handOther, different⟩
  constructor
  · refine sound.holds.give hand empty.1 (sound.holds.shape.push linked) ?_ rfl rfl rfl
      sound.holds.snap
    simp only [places, cons_append]
    exact .refl _
  · refine sound.records.holds hand rfl rfl rfl rfl rfl ?_ rfl others rfl ?_
    · simp [Layout.pending]
    · intro other now
      have different : other ≠ thread := by
        rintro rfl
        simp [Config.moves, empty.2] at now
      simp only [Config.moves, Function.update_of_ne different] at now
      exact ⟨now, different⟩

omit [DecidableEq Thread] in
theorem Sound.finish (sound : Sound layout config) (runs : node ∈ config.running) :
    Sound layout { config with
      running := config.running.erase node
      finished := config.finished ++ [node] } := by
  have erased := perm_cons_erase runs
  constructor
  · refine sound.holds.shuffle sound.holds.shape ?_ rfl rfl (fun _ _ => rfl) ?_
    · rw [perm_iff_count]
      intro other
      have count := perm_iff_count.1 erased other
      simp only [places, waiting, count_append, count_cons, count_nil] at count ⊢
      omega
    · intro snap taken
      have listed := sound.holds.snap snap taken
      simp only [mem_append] at listed ⊢
      rcases listed with (listed | listed) | listed
      · exact .inl (.inl listed)
      · rcases mem_cons.1 (erased.mem_iff.1 listed) with rfl | listed
        · exact .inr (.inr mem_cons_self)
        · exact .inl (.inr listed)
      · exact .inr (.inl listed)
  · exact { sound.records with }

omit [DecidableEq Thread] in
theorem Sound.link (sound : Sound layout config)
    (listed : node ∈ config.running ++ config.finished) (link : Option Node) :
    Sound layout { config with next := Function.update config.next node link } := by
  have apart := sound.holds.apart
  have placed : node ∈ config.places layout := by
    rw [mem_places]
    rcases mem_append.1 listed with listed | listed
    · simp [listed]
    · simp [listed]
  have away : node ∉ layout.young ++ layout.left ++ layout.todo := by
    intro held
    have count := nodup_iff_count_le_one.1 apart node
    have first := count_pos_iff.2 held
    have second := count_pos_iff.2 listed
    simp only [places, count_append] at count first second
    omega
  simp only [mem_append, not_or] at away
  constructor
  · refine sound.holds.shuffle (sound.holds.shape.update away.1.1 away.1.2 away.2 link) (.refl _)
      rfl rfl ?_ sound.holds.snap
    intro other outside
    have different : other ≠ node := by
      rintro rfl
      exact outside placed
    exact Function.update_of_ne different ..
  · exact { sound.records with }

omit [DecidableEq Thread] [DecidableEq Node] in
theorem Sound.wakes (sound : Sound layout config) (wakers : Nat) : Sound layout { config with wakers } :=
  ⟨{ sound.holds with }, { sound.records with }⟩

theorem Sound.giveBack (sound : Sound layout config) (hand : (config.pushers thread).node = some node) :
    Sound layout ((config.frees node).moves thread .leave) where
  holds := sound.holds.giveBack hand rfl
  records := by
    have others : ∀ other, other ≠ thread →
        ((config.frees node).moves thread .leave).pushers other = config.pushers other :=
      fun other different => Function.update_of_ne different ..
    have own : ((config.frees node).moves thread .leave).pushers thread = .leave := Function.update_self ..
    refine sound.records.quiet rfl rfl rfl rfl rfl rfl (.refl _) ?_ (fun _ owns => owns) ?_
    · intro other third handOther
      by_cases here : other = thread
      · rw [here, own] at handOther
        cases handOther
      · rwa [others other here] at handOther
    · intro other now
      by_cases here : other = thread
      · rw [here, own] at now
        cases now
      · rw [others other here] at now
        exact .inl now

theorem Sound.load (sound : Sound layout config) {inside : Bool}
    (stands : config.pushers thread = .load node inside) :
    Sound layout { config.moves thread (.swap node config.head inside) with
      next := Function.update config.next node config.head } where
  holds := sound.holds.load stands
  records := by
    have others : ∀ other, other ≠ thread →
        (config.moves thread (.swap node config.head inside)).pushers other = config.pushers other :=
      fun other different => Function.update_of_ne different ..
    have own : (config.moves thread (.swap node config.head inside)).pushers thread =
        .swap node config.head inside := Function.update_self ..
    refine sound.records.quiet rfl rfl rfl rfl rfl rfl (.refl _) ?_ (fun _ owns => owns) ?_
    · intro other third hand
      dsimp only at hand
      by_cases here : other = thread
      · rw [here, own] at hand
        rw [here, stands]
        exact hand
      · rwa [others other here] at hand
    · intro other now
      dsimp only at now
      by_cases here : other = thread
      · rw [here, own] at now
        cases now
      · rw [others other here] at now
        exact .inl now

/-- A step of a thread that pushes, or of the runner, keeps the invariant. -/
theorem PusherStep.sound (step : PusherStep config next) (sound : Sound layout config) :
    ∃ young, Sound { layout with young } next := by
  -- Most steps leave the thread with the same task in hand, and do not choose a direct push.
  have goes : ∀ {thread : Thread} {pusher : Pusher Node}, pusher.node = (config.pushers thread).node →
      (∀ node head inside, pusher ≠ .swap node head inside) → pusher.direct = false →
      Sound layout (config.moves thread pusher) := by
    intro thread pusher same plain held
    refine sound.moves same plain fun now => ?_
    rw [held] at now
    cases now
  cases step with
  | call blocking idle free => exact ⟨layout.young, sound.call idle free⟩
  | enterOpen stands gate | enterShut stands gate | recheckOpen stands gate
  | recheckShut stands gate | chooseHold stands hold | swapRetry stands other =>
    exact ⟨layout.young, goes (by rw [stands]; rfl) (by intros; exact nofun) rfl⟩
  | count stands | turned stands | leave stands =>
    exact ⟨layout.young, (goes (by rw [stands]; rfl) (by intros; exact nofun) rfl).wakes _⟩
  | chooseNow stands threaded empty =>
    -- While no task is held, none of the thread's own is.
    have none : layout.pending = [] := (empty ▸ sound.holds.shape).empty
    refine ⟨layout.young, sound.moves (by rw [stands]; rfl) (by intros; exact nofun) fun _ => ?_⟩
    exact .inr none
  | scanBlocked stands blocked => exact ⟨layout.young, sound.giveBack (by rw [stands]; rfl)⟩
  | scanClear stands clear =>
    refine ⟨layout.young, sound.moves (by rw [stands]; rfl) (by intros; exact nofun) fun _ => ?_⟩
    rw [stands]
    exact .inl rfl
  | put stands => exact ⟨layout.young, sound.put stands⟩
  | load stands => exact ⟨layout.young, sound.load stands⟩
  | swapHeld stands same => exact ⟨_, sound.swapHeld stands same⟩
  | cancel node => exact ⟨layout.young, { sound.holds with }, { sound.records with }⟩
  | finish runs => exact ⟨layout.young, sound.finish runs⟩
  | link listed link => exact ⟨layout.young, sound.link listed link⟩

omit [DecidableEq Thread] [DecidableEq Node] in
/-- The driving thread goes on, and the tasks stay where they are. -/
theorem Sound.drives (sound : Sound layout config) (older : List Node) {driver : Driver Node}
    (shape : driver.Shape config.next config.head { layout with older })
    (refused : driver.refused = config.driver.refused) (own : driver.own = config.driver.own)
    (snap : ∀ snap, driver.snap = some snap → config.driver.snap = some snap) :
    Sound { layout with older } (config.drives driver) where
  holds := by
    have places : (config.drives driver).places { layout with older } = config.places layout := by
      simp only [Config.places, Config.drives, Config.waiting, refused, own]
    refine sound.holds.shuffle shape (places ▸ .refl _) rfl rfl (fun _ _ => rfl) ?_
    intro other taken
    have listed := sound.holds.snap other (snap other taken)
    rwa [← refused] at listed
  records := by
    refine sound.records.quiet rfl rfl rfl rfl rfl rfl ?_ (fun _ _ hand => hand) ?_ fun _ now => .inl now
    · show (config.retired ++ (driver.refused ++ config.waiting).map config.task).Perm _
      rw [refused]
    · intro third owns
      have owns : third ∈ driver.own := owns
      rwa [own] at owns

omit [DecidableEq Thread] in
/-- A drain takes the held tasks for its snapshot. -/
theorem Sound.snapshot (sound : Sound layout config) {snap : Node}
    (stands : config.driver = .rest) (head : config.head = some snap) :
    ∃ after, Sound after (config.drives (.reverse snap (some snap) none)) := by
  have shape := sound.holds.shape
  rw [stands, head] at shape
  obtain ⟨chain, left, todo⟩ := shape
  obtain ⟨rest, young, -⟩ := chain_some chain
  refine ⟨{ left := layout.young }, ?_, ?_⟩
  · refine sound.holds.shuffle ⟨head, chain, rfl⟩ ?_ rfl rfl (fun _ _ => rfl) ?_
    · rw [perm_iff_count]
      intro other
      simp only [Config.places, Config.drives, Config.waiting, stands, refused, own,
        left, todo, count_append, count_nil]
      omega
    · rintro other taken
      obtain rfl : snap = other := some.inj taken
      simp [young]
  · refine sound.records.quiet rfl rfl rfl rfl rfl ?_ ?_ (fun _ _ hand => hand) (by rintro _ ⟨⟩)
      fun _ now => .inl now
    · simp [Layout.pending, left, todo]
    · rw [stands]
      exact .refl _

omit [DecidableEq Thread] in
/-- A drain turns one link of its snapshot. -/
theorem Sound.reverse (sound : Sound layout config) {snap task : Node} {fifo : Option Node}
    (stands : config.driver = .reverse snap (some task) fifo) :
    ∃ rest, layout.left = task :: rest ∧ Sound { layout with left := rest, todo := task :: layout.todo }
        { config.drives (.reverse snap (config.next task) (some task)) with
          next := Function.update config.next task fifo } := by
  have shape := sound.holds.shape
  rw [stands] at shape
  obtain ⟨segment, chain, turned⟩ := shape
  obtain ⟨rest, left, chain⟩ := chain_some chain
  -- The task is in one place only.
  have away : task ∉ layout.young ∧ task ∉ rest ∧ task ∉ layout.todo := by
    have count := nodup_iff_count_le_one.1 sound.holds.apart task
    simp only [places, count_append, left, count_cons_self] at count
    refine ⟨?_, ?_, ?_⟩ <;> intro listed <;> have more := count_pos_iff.2 listed <;> omega
  refine ⟨rest, left, ?_, ?_⟩
  · refine sound.holds.shuffle ?_ ?_ rfl rfl ?_ ?_
    · exact ⟨segment.update away.1 _, chain.update away.2.1 _, turned.push away.2.2⟩
    · rw [perm_iff_count]
      intro other
      simp only [Config.places, Config.drives, Config.waiting, stands, refused, own,
        left, count_append, count_nil, count_cons]
      omega
    · intro other outside
      have different : other ≠ task := by
        rintro rfl
        exact outside (mem_places.2 (.inr (.inl (by simp [left]))))
      exact Function.update_of_ne different ..
    · intro other taken
      have listed := sound.holds.snap other (by rw [stands]; exact taken)
      simp only [stands, refused, left, mem_append, mem_cons, drives] at listed ⊢
      tauto
  · refine sound.records.quiet rfl rfl rfl rfl rfl ?_ ?_ (fun _ _ hand => hand) (by rintro _ ⟨⟩)
      fun _ now => .inl now
    · simp [Layout.pending, left]
    · rw [stands]
      exact .refl _

omit [DecidableEq Thread] in
/-- A drain refuses the oldest held task. -/
theorem Sound.refuses (sound : Sound layout config) (driver : Driver Node) {task : Node}
    {rest : List Node} (left : layout.left = []) (todo : layout.todo = task :: rest)
    (shape : driver.Shape config.next config.head { layout with todo := rest })
    (refused : driver.refused = config.driver.refused ++ [task])
    (own : driver.own = config.driver.own) (none : config.driver.own = [])
    (snap : ∀ snap, driver.snap = some snap → config.driver.snap = some snap) :
    Sound { layout with todo := rest } ((config.decides task false).drives driver) where
  holds := by
    refine sound.holds.shuffle shape ?_ rfl rfl (fun _ _ => rfl) ?_
    · rw [perm_iff_count]
      intro other
      simp only [Config.places, Config.drives, Config.decides, Config.waiting, refused, own, todo,
        count_append, count_nil, count_cons]
      omega
    · intro other taken
      have listed := sound.holds.snap other (snap other taken)
      simp only [Config.drives, Config.decides, refused, todo, mem_append, mem_cons] at listed ⊢
      tauto
  records := by
    refine sound.records.decides false ?_ rfl rfl ?_ rfl rfl ?_ rfl (own.trans none)
    · simp [Layout.pending, left, todo]
    · exact (append_nil _).symm
    · show (config.retired ++ (driver.refused ++ config.waiting).map config.task).Perm
        ([config.task task] ++ (config.retired ++ (config.driver.refused ++ config.waiting).map config.task))
      have moved : (config.driver.refused ++ ([task] ++ config.waiting)).Perm
          (task :: (config.driver.refused ++ config.waiting)) := perm_middle
      rw [refused, List.append_assoc]
      exact ((moved.map config.task).append_left config.retired).trans perm_middle

omit [DecidableEq Thread] in
/-- A drain hands the oldest held task to the runner. -/
theorem Sound.hands (sound : Sound layout config) {snap task : Node} {fifo : Option Node}
    {refused : List Node} (stands : config.driver = .put snap task fifo refused) :
    ∃ rest, layout.todo = task :: rest ∧ Sound { layout with todo := rest }
      (((config.decides task true).runs task).drives (.hand snap fifo refused)) := by
  have shape := sound.holds.shape
  rw [stands] at shape
  obtain ⟨segment, left, rest, todo, chain⟩ := shape
  refine ⟨rest, todo, ?_, ?_⟩
  · refine sound.holds.shuffle ⟨segment, left, chain⟩ ?_ rfl rfl (fun _ _ => rfl) ?_
    · rw [perm_iff_count]
      intro other
      simp only [Config.places, Config.drives, Config.decides, Config.runs, Config.waiting, stands,
        Driver.refused, Driver.own, todo, count_append, count_nil, count_cons]
      omega
    · intro other taken
      have listed := sound.holds.snap other (by rw [stands]; exact taken)
      simp only [Config.drives, Config.decides, Config.runs, stands, Driver.refused, todo,
        mem_append, mem_cons] at listed ⊢
      tauto
  · refine sound.records.decides true ?_ rfl rfl rfl rfl rfl ?_ rfl rfl
    · simp [Layout.pending, left, todo]
    · rw [stands]
      exact .refl _

omit [DecidableEq Thread] in
theorem Holds.snap_away (holds : Holds layout config) {snap : Node}
    (taken : config.driver.snap = some snap) : snap ∉ layout.young := by
  intro young
  have count := nodup_iff_count_le_one.1 holds.apart snap
  have first := count_pos_iff.2 young
  have second := count_pos_iff.2 (holds.snap snap taken)
  simp only [places, count_append] at count first second
  omega

omit [DecidableEq Thread] in
/-- What the links lead to from a task held since is the next older one of them, or the snapshot
behind the last. -/
theorem Holds.older (holds : Holds layout config) {snap task : Node} {refused : List Node}
    (stands : config.driver = .walk snap task refused) :
    config.next task = some snap ∧ layout.older = [] ∨
      ∃ other rest, config.next task = some other ∧ other ≠ snap ∧ layout.older = other :: rest := by
  have shape := holds.shape
  have away := holds.snap_away (show config.driver.snap = some snap by rw [stands]; rfl)
  rw [stands] at shape
  obtain ⟨segment, -, -, newer, young⟩ := shape
  rw [young] at segment away
  obtain ⟨middle, -, -, segment⟩ := segment_append.1 segment
  cases older : layout.older with
  | nil =>
    rw [older] at segment
    exact .inl ⟨segment, rfl⟩
  | cons other rest =>
    rw [older] at segment away
    refine .inr ⟨other, rest, segment.1, ?_, rfl⟩
    rintro rfl
    exact away (mem_append_right _ (mem_cons_of_mem _ mem_cons_self))

omit [DecidableEq Thread] in
/-- A drain cuts off its snapshot while no task has been held since. -/
theorem Sound.cut (sound : Sound layout config) {snap : Node} {refused : List Node}
    (stands : config.driver = .cut snap refused) (same : config.head = some snap) :
    ∃ after, Sound after { config.drives (.retire refused) with head := none } := by
  have shape := sound.holds.shape
  rw [stands, same] at shape
  obtain ⟨segment, left, todo⟩ := shape
  have away := sound.holds.snap_away (show config.driver.snap = some snap by rw [stands]; rfl)
  have young : layout.young = [] := by
    cases young : layout.young with
    | nil => rfl
    | cons first rest =>
      rw [young] at segment away
      obtain rfl := some.inj segment.1
      exact absurd mem_cons_self away
  refine ⟨layout, ?_, ?_⟩
  · refine sound.holds.shuffle ⟨young ▸ rfl, left, todo⟩ ?_ rfl rfl (fun _ _ => rfl) (by rintro _ ⟨⟩)
    simp only [places, drives, waiting, stands, Driver.refused, Driver.own]
    exact .refl _
  · refine sound.records.quiet rfl rfl rfl rfl rfl rfl ?_ (fun _ _ hand => hand) (by rintro _ ⟨⟩)
      fun _ now => .inl now
    rw [stands]
    exact .refl _

omit [DecidableEq Thread] in
/-- A drain cuts off its snapshot below the tasks held since. -/
theorem Sound.sever (sound : Sound layout config) {snap task : Node} {refused : List Node}
    (stands : config.driver = .walk snap task refused) (link : config.next task = some snap) :
    ∃ after, Sound after { config.drives (.retire refused) with
      next := Function.update config.next task none } := by
  have shape := sound.holds.shape
  rw [stands] at shape
  obtain ⟨segment, left, todo, newer, young⟩ := shape
  have older : layout.older = [] := by
    rcases sound.holds.older stands with ⟨-, none⟩ | ⟨other, rest, on, different, -⟩
    · exact none
    · exact absurd (some.inj (on.symm.trans link)) different
  rw [older] at young
  have count := nodup_iff_count_le_one.1 sound.holds.apart task
  have outside : task ∉ newer := by
    intro listed
    have more := count_pos_iff.2 listed
    simp only [places, count_append, young, count_cons_self] at count
    omega
  have placed : task ∈ config.places layout := by
    rw [mem_places, young]
    simp
  refine ⟨layout, ?_, ?_⟩
  · refine sound.holds.shuffle ⟨?_, left, todo⟩ ?_ rfl rfl ?_ (by rintro _ ⟨⟩)
    · rw [young] at segment ⊢
      exact segment.sever outside
    · simp only [places, drives, waiting, stands, Driver.refused, Driver.own]
      exact .refl _
    · intro other away
      have different : other ≠ task := by
        rintro rfl
        exact away placed
      exact Function.update_of_ne different ..
  · refine sound.records.quiet rfl rfl rfl rfl rfl rfl ?_ (fun _ _ hand => hand) (by rintro _ ⟨⟩)
      fun _ now => .inl now
    rw [stands]
    exact .refl _

omit [DecidableEq Thread] in
/-- The callback of a refused task is called. -/
theorem Sound.callback (sound : Sound layout config) {refused : List Node}
    (stands : config.driver = .retire (node :: refused)) :
    Sound layout { config.drives .rest with
      cancelled := Function.update config.cancelled node true
      calls := (node, refused) :: config.calls } where
  holds := by
    have shape := sound.holds.shape
    rw [stands] at shape
    refine sound.holds.shuffle shape ?_ rfl rfl (fun _ _ => rfl) (by rintro _ ⟨⟩)
    simp only [Config.places, Config.drives, Config.waiting, stands, Driver.refused, Driver.own,
      flatMap_cons, append_nil, List.append_assoc]
    exact .refl _
  records := by
    refine sound.records.quiet rfl rfl rfl rfl rfl rfl ?_ (fun _ _ hand => hand) (by rintro _ ⟨⟩)
      fun _ now => .inl now
    rw [stands]
    exact .refl _

omit [DecidableEq Thread] in
/-- A refused task is freed after its callback. -/
theorem Sound.returns (sound : Sound layout config) {refused : List Node}
    {calls : List (Node × List Node)} (stands : config.driver = .rest)
    (called : config.calls = (node, refused) :: calls) :
    Sound layout { (config.frees node).drives (.retire refused) with
      calls := calls
      retired := config.retired ++ [config.task node] } where
  holds := by
    have shape := sound.holds.shape
    rw [stands] at shape
    refine sound.holds.drop shape ?_ rfl rfl (fun _ _ => rfl) (by rintro _ ⟨⟩)
    rw [perm_iff_count]
    intro other
    simp only [Config.places, Config.drives, Config.frees, Config.waiting, stands, called,
      Driver.refused, Driver.own, flatMap_cons, count_append, count_cons,
      count_nil]
    omega
  records := by
    refine sound.records.quiet rfl rfl rfl rfl rfl rfl ?_ (fun _ _ hand => hand) (by rintro _ ⟨⟩)
      fun _ now => .inl now
    simp only [drives, frees, waiting, stands, called, Driver.refused,
      flatMap_cons, nil_append, map_append, map_cons, cons_append,
      List.append_assoc]
    exact .refl _

/-- The driving thread makes a task of its own. -/
theorem Sound.own (sound : Sound layout config) {blocking : Bool} (stands : config.driver = .rest)
    (fresh : config.free node = true) :
    Sound layout ((config.makes node none blocking).drives (.ownScan node)) where
  holds := by
    have shape := sound.holds.shape
    rw [stands] at shape
    refine sound.holds.adopt fresh shape ?_ rfl rfl rfl nofun
    rw [perm_iff_count]
    intro other
    simp only [Config.places, Config.drives, Config.makes, Config.waiting, stands, refused,
      Driver.own, count_append, count_cons, count_nil]
    omega
  records := by
    have outside : node ∉ config.places layout := by
      intro placed
      have busy := sound.holds.busy node placed
      rw [fresh] at busy
      cases busy
    have elsewhere : ∀ other, (config.pushers other).node ≠ some node := by
      intro other hand
      have busy := (sound.holds.hands other node hand).1
      rw [fresh] at busy
      cases busy
    obtain ⟨records, latest⟩ : Records layout (config.makes node none blocking) ∧
        (config.makes node none blocking).Latest _ := sound.records.makes outside elsewhere
    exact { records with
      own := fun third owns => by
        obtain rfl := mem_singleton.1 owns
        refine ⟨?_, latest⟩
        simp [Config.drives, Config.makes]
      refused := by
        have refused := records.refused
        have rest : (config.makes node none blocking).driver = .rest := stands
        rw [rest] at refused
        exact refused }

omit [DecidableEq Thread] in
theorem Sound.ownBlocked (sound : Sound layout config) (stands : config.driver = .ownScan node) :
    Sound layout ((config.frees node).drives .rest) where
  holds := by
    have shape := sound.holds.shape
    rw [stands] at shape
    refine sound.holds.drop shape ?_ rfl rfl (fun _ _ => rfl) (by rintro _ ⟨⟩)
    rw [perm_iff_count]
    intro other
    simp only [Config.places, Config.drives, Config.frees, Config.waiting, stands, refused,
      Driver.own, count_append, count_cons, count_nil]
    omega
  records := by
    refine sound.records.quiet rfl rfl rfl rfl rfl rfl ?_ (fun _ _ hand => hand) (by rintro _ ⟨⟩)
      fun _ now => .inl now
    rw [stands]
    exact .refl _

omit [DecidableEq Thread] in
/-- The driving thread's own task enters the running list. -/
theorem Sound.ownPut (sound : Sound layout config) (stands : config.driver = .ownPut node) :
    Sound layout ((config.runs node).drives .rest) := by
  have owned : node ∈ config.driver.own := by
    rw [stands]
    exact mem_singleton_self node
  obtain ⟨owner, latest⟩ := sound.records.own node owned
  constructor
  · have shape := sound.holds.shape
    rw [stands] at shape
    refine sound.holds.shuffle shape ?_ rfl rfl (fun _ _ => rfl) (by rintro _ ⟨⟩)
    rw [perm_iff_count]
    intro other
    simp only [Config.places, Config.drives, Config.runs, Config.waiting, stands, refused,
      Driver.own, count_append, count_cons, count_nil]
    omega
  · refine sound.records.enters latest ?_ rfl rfl rfl rfl rfl rfl ?_ ?_ (by rintro _ ⟨⟩) fun _ now => now
    · intro push listed
      rw [owner]
      refine sound.records.threads push ?_
      rw [sound.records.held]
      exact mem_append_right _ listed
    · rw [stands]
      rfl
    · intro other third hand
      rw [owner]
      exact ⟨hand, by rintro ⟨⟩⟩

omit [DecidableEq Thread] in
/-- A finished task is retired and freed. -/
theorem Sound.retireFinished (sound : Sound layout config) (stands : config.driver = .rest)
    (finished : node ∈ config.finished) :
    Sound layout { config.frees node with finished := config.finished.erase node } where
  holds := by
    have erased := perm_cons_erase finished
    refine sound.holds.drop sound.holds.shape ?_ rfl rfl (fun _ _ => rfl) ?_
    · rw [perm_iff_count] at erased ⊢
      intro other
      have count := erased other
      simp only [places, frees, waiting, count_append, count_cons] at count ⊢
      omega
    · intro snap taken
      have taken : config.driver.snap = some snap := taken
      rw [stands] at taken
      cases taken
  records := { sound.records with }

variable {Thread Node : Type} [DecidableEq Thread] [DecidableEq Node]
  {layout : Layout Node} {config next : Config Thread Node}

/-- How much of a drain is still to be done: its loops in their order, and the turns of each. -/
def Driver.rank (layout : Layout Node) : Driver Node → Nat × Nat
  | .reverse _ _ _ => (5, layout.left.length)
  | .hand _ _ _ => (4, 3 * layout.todo.length + 2)
  | .scan _ _ _ _ => (4, 3 * layout.todo.length + 1)
  | .put _ _ _ _ => (4, 3 * layout.todo.length)
  | .cut _ _ => (3, 0)
  | .reload _ _ => (2, 0)
  | .walk _ _ _ => (1, layout.older.length)
  | _ => (0, 0)

/-- Less is still to be done. -/
def Falls (rank other : Nat × Nat) : Prop := Prod.Lex (· < ·) (· < ·) rank other

theorem falls_wf : WellFounded Falls := (Prod.lex Nat.lt_wfRel Nat.lt_wfRel).wf

theorem DriverStep.sound (step : DriverStep config next) (sound : Sound layout config) :
    ∃ after, Sound after next ∧ (config.driver.snap ≠ none →
      Falls (next.driver.rank after) (config.driver.rank layout)) := by
  have shape := sound.holds.shape
  -- Outside a drain there is nothing to be counted.
  have outside : ∀ {after : Layout Node}, config.driver.snap = none → Sound after next →
      ∃ after, Sound after next ∧ (config.driver.snap ≠ none →
        Falls (next.driver.rank after) (config.driver.rank layout)) :=
    fun none sound => ⟨_, sound, fun drains => absurd none drains⟩
  cases step with
  | snapshot stands head =>
    obtain ⟨after, sound⟩ := sound.snapshot stands head
    exact outside (by rw [stands]; rfl) sound
  | reverse stands =>
    obtain ⟨rest, left, sound⟩ := sound.reverse stands
    refine ⟨_, sound, fun _ => ?_⟩
    rw [stands, rank, left]
    exact .right _ (Nat.lt_succ_self _)
  | reversed stands =>
    rw [stands] at shape
    -- The links of the snapshot lead nowhere any more, so all of it is turned.
    refine ⟨_, sound.drives layout.older
      ⟨shape.1, chain_none shape.2.1, shape.2.2⟩ (by rw [stands]; rfl) (by rw [stands]; rfl)
      (by rw [stands]; exact fun _ taken => taken), fun _ => ?_⟩
    rw [stands]
    exact .left _ _ (by decide)
  | @handCancelled snap task refused stands cancelled =>
    rw [stands] at shape
    obtain ⟨segment, left, chain⟩ := shape
    obtain ⟨rest, todo, chain⟩ := chain_some chain
    refine ⟨_, sound.refuses (.hand snap (config.next task) (refused ++ [task])) left todo
      ⟨segment, left, chain⟩ (by rw [stands]; rfl) (by rw [stands]; rfl) (by rw [stands]; rfl)
      (by rw [stands]; exact fun _ taken => taken), fun _ => ?_⟩
    rw [stands, rank, todo]
    exact .right _ (by simp only [length_cons]; omega)
  | handNow stands clear =>
    rw [stands] at shape
    obtain ⟨segment, left, chain⟩ := shape
    obtain ⟨rest, todo, chain⟩ := chain_some chain
    refine ⟨_, sound.drives layout.older ⟨segment, left, rest, todo, chain⟩
      (by rw [stands]; rfl) (by rw [stands]; rfl) (by rw [stands]; exact fun _ taken => taken),
      fun _ => ?_⟩
    rw [stands]
    exact .right _ (Nat.lt_succ_self _)
  | @scanBlocked snap task fifo refused stands blocked =>
    rw [stands] at shape
    obtain ⟨segment, left, rest, todo, chain⟩ := shape
    refine ⟨_, sound.refuses (.hand snap fifo (refused ++ [task])) left todo
      ⟨segment, left, chain⟩ (by rw [stands]; rfl) (by rw [stands]; rfl) (by rw [stands]; rfl)
      (by rw [stands]; exact fun _ taken => taken), fun _ => ?_⟩
    rw [stands, rank, todo]
    exact .right _ (by simp only [length_cons]; omega)
  | scanClear stands clear =>
    rw [stands] at shape
    refine ⟨_, sound.drives layout.older shape (by rw [stands]; rfl)
      (by rw [stands]; rfl) (by rw [stands]; exact fun _ taken => taken), fun _ => ?_⟩
    rw [stands]
    exact .right _ (Nat.lt_succ_self _)
  | put stands =>
    obtain ⟨rest, todo, sound⟩ := sound.hands stands
    refine ⟨_, sound, fun _ => ?_⟩
    rw [stands, rank, todo]
    exact .right _ (by simp only [length_cons]; omega)
  | handed stands =>
    rw [stands] at shape
    refine ⟨_, sound.drives layout.older ⟨shape.1, shape.2.1, chain_none shape.2.2⟩
      (by rw [stands]; rfl) (by rw [stands]; rfl) (by rw [stands]; exact fun _ taken => taken),
      fun _ => ?_⟩
    rw [stands]
    exact .left _ _ (by decide)
  | cut stands same =>
    obtain ⟨after, sound⟩ := sound.cut stands same
    refine ⟨after, sound, fun _ => ?_⟩
    rw [stands]
    exact .left _ _ (by decide)
  | cutLate stands other =>
    rw [stands] at shape
    -- Another head than the snapshot's is that of a task held since.
    have since : layout.young ≠ [] := by
      intro young
      have segment := shape.1
      rw [young] at segment
      exact other segment
    refine ⟨_, sound.drives layout.older ⟨shape.1, shape.2.1, shape.2.2, since⟩
      (by rw [stands]; rfl) (by rw [stands]; rfl) (by rw [stands]; exact fun _ taken => taken),
      fun _ => ?_⟩
    rw [stands]
    exact .left _ _ (by decide)
  | reload stands head =>
    rw [stands, head] at shape
    obtain ⟨segment, left, todo, since⟩ := shape
    cases young : layout.young with
    | nil => exact absurd young since
    | cons first older =>
      rw [young] at segment
      obtain rfl := Option.some.inj segment.1
      refine ⟨_, sound.drives older ⟨head ▸ young ▸ segment, left, todo, [], young⟩
        (by rw [stands]; rfl) (by rw [stands]; rfl) (by rw [stands]; exact fun _ taken => taken),
        fun _ => ?_⟩
      rw [stands]
      exact .left _ _ (by decide)
  | @walk snap task other refused stands link on =>
    rcases sound.holds.older stands with ⟨last, -⟩ | ⟨third, rest, on', -, older⟩
    · exact absurd (Option.some.inj (link.symm.trans last)) on
    · obtain rfl := Option.some.inj (link.symm.trans on')
      rw [stands] at shape
      obtain ⟨segment, left, todo, newer, young⟩ := shape
      refine ⟨_, sound.drives rest
        ⟨segment, left, todo, newer ++ [task], by rw [young, older, List.append_assoc]; rfl⟩
        (by rw [stands]; rfl) (by rw [stands]; rfl) (by rw [stands]; exact fun _ taken => taken),
        fun _ => ?_⟩
      rw [stands, rank, older]
      exact .right _ (Nat.lt_succ_self _)
  | sever stands link =>
    obtain ⟨after, sound⟩ := sound.sever stands link
    refine ⟨after, sound, fun _ => ?_⟩
    rw [stands]
    exact .left _ _ Nat.zero_lt_one
  | callback stands => exact outside (by rw [stands]; rfl) (sound.callback stands)
  | returns stands called => exact outside (by rw [stands]; rfl) (sound.returns stands called)
  | retired stands =>
    rw [stands] at shape
    exact outside (by rw [stands]; rfl) (sound.drives layout.older shape
      (by rw [stands]; rfl) (by rw [stands]; rfl) nofun)
  | own blocking stands free => exact outside (by rw [stands]; rfl) (sound.own stands free)
  | ownBlocked stands blocked => exact outside (by rw [stands]; rfl) (sound.ownBlocked stands)
  | ownClear stands clear =>
    rw [stands] at shape
    exact outside (by rw [stands]; rfl) (sound.drives layout.older shape
      (by rw [stands]; rfl) (by rw [stands]; rfl) nofun)
  | ownPut stands => exact outside (by rw [stands]; rfl) (sound.ownPut stands)
  | retireFinished stands finished =>
    exact outside (by rw [stands]; rfl) (sound.retireFinished stands finished)
  | close stands | switch _ stands shut quiet | opens stands =>
    exact @outside layout (by rw [stands]; rfl)
      ⟨{ sound.holds with }, { sound.records with }⟩

theorem Sound.goes (sound : Sound layout config) (drains : config.driver.snap ≠ none) :
    ∃ after, DriverStep config after := by
  have shape := sound.holds.shape
  cases stands : config.driver with
  | rest | retire | ownScan | ownPut =>
    rw [stands] at drains
    exact absurd rfl drains
  | reverse snap task fifo =>
    cases task with
    | none => exact ⟨_, .reversed stands⟩
    | some task => exact ⟨_, .reverse stands⟩
  | hand snap fifo refused =>
    cases fifo with
    | none => exact ⟨_, .handed stands⟩
    | some task =>
      cases cancelled : config.cancelled task with
      | true => exact ⟨_, .handCancelled stands cancelled⟩
      | false => exact ⟨_, .handNow stands cancelled⟩
  | scan snap task fifo refused =>
    by_cases blocked : config.Blocked task
    · exact ⟨_, .scanBlocked stands blocked⟩
    · exact ⟨_, .scanClear stands blocked⟩
  | put => exact ⟨_, .put stands⟩
  | cut snap refused =>
    by_cases same : config.head = some snap
    · exact ⟨_, .cut stands same⟩
    · exact ⟨_, .cutLate stands same⟩
  | reload snap refused =>
    rw [stands] at shape
    obtain ⟨segment, -, -, since⟩ := shape
    cases young : layout.young with
    | nil => exact absurd young since
    | cons first rest =>
      rw [young] at segment
      exact ⟨_, .reload stands segment.1⟩
  | walk snap task refused =>
    rcases sound.holds.older stands with ⟨last, -⟩ | ⟨other, rest, on, different, -⟩
    · exact ⟨_, .sever stands last⟩
    · exact ⟨_, .walk stands on different⟩

/-- However the other threads go on in between, the driving thread can always go on, and after
finitely many accesses of its own it has made the cut. -/
inductive Drains : Config Thread Node → Prop
  | cut {config : Config Thread Node} (ended : config.driver.snap = none) : Drains config
  | goes {config : Config Thread Node}
      (moves : ∀ middle, Relation.ReflTransGen PusherStep config middle → ∃ after, DriverStep middle after)
      (drains : ∀ middle after, Relation.ReflTransGen PusherStep config middle →
        DriverStep middle after → Drains after) : Drains config

theorem Sound.pushers (sound : Sound layout config) (moves : Relation.ReflTransGen PusherStep config next) :
    ∃ young, Sound { layout with young } next ∧ next.driver = config.driver := by
  -- The run is followed from its first state, one step at a time.
  induction moves with
  | refl => exact ⟨layout.young, sound, rfl⟩
  | tail _ last ih =>
    obtain ⟨young, sound, same⟩ := ih
    obtain ⟨young, sound⟩ := last.sound sound
    refine ⟨young, sound, ?_⟩
    rw [← same]
    cases last <;> rfl

theorem Sound.ends (sound : Sound layout config) : Drains config := by
  -- What is still to be done becomes less with every step of the driving thread.
  induction rank : config.driver.rank layout using falls_wf.induction generalizing config layout with
  | _ rank ih =>
    by_cases drains : config.driver.snap = none
    · exact .cut drains
    · refine .goes (fun middle moves => ?_) fun middle after moves step => ?_
      · obtain ⟨young, sound, same⟩ := sound.pushers moves
        exact sound.goes (same ▸ drains)
      · obtain ⟨young, sound, same⟩ := sound.pushers moves
        obtain ⟨layout', sound, falls⟩ := step.sound sound
        refine ih _ ?_ sound rfl
        have falls := falls (same ▸ drains)
        subst rank
        rw [same] at falls
        cases driver : config.driver <;> rw [driver] at falls <;> exact falls

theorem reachable_sound (reached : (system Thread Node).Reachable config) :
    ∃ layout, Sound layout config := by
  have invariant : (system Thread Node).Invariant fun config => ∃ layout, Sound layout config := by
    constructor
    · exact fun config initial => ⟨_, Config.Initial.sound initial⟩
    · rintro config next ⟨layout, sound⟩ (step | step)
      · obtain ⟨young, sound⟩ := step.sound sound
        exact ⟨_, sound⟩
      · obtain ⟨after, sound, -⟩ := step.sound sound
        exact ⟨after, sound⟩
  exact invariant.reachable reached

/-- Held tasks, at any place of any run: each is decided once and in the order in which they were
held, or still held; what is handed to the runner enters the running list once, what is refused is
retired once and never runs; between drains the links lead through all that is still held; pushes of
one thread enter in its order; and a drain comes to its cut. -/
theorem held_pushes_decided (reached : (system Thread Node).Reachable config) : ∃ pending : List Node,
      config.held = config.decided.map Prod.fst ++ pending.map config.task ∧
      config.held.Nodup ∧ config.entered.Nodup ∧
      ((config.decided.filter (·.2)).map Prod.fst).Sublist config.entered ∧
      (∀ pushed ∈ config.decided, pushed.2 = false → pushed.1 ∉ config.entered) ∧
      (∀ node ∈ pending, config.task node ∉ config.entered) ∧
      ((config.decided.filter (!·.2)).map Prod.fst).Perm
        (config.retired ++ (config.driver.refused ++ config.waiting).map config.task) ∧
      (config.driver.snap = none → Chain config.next config.head pending.reverse) ∧
      config.entered.Pairwise Push.Before ∧ Drains config := by
  obtain ⟨layout, sound⟩ := reachable_sound reached
  obtain ⟨holds, records⟩ := sound
  obtain ⟨entered, -, later⟩ := pairwise_append.1 records.line
  -- Of two equal pushes neither comes before the other.
  have nodup : ∀ {pushes : List (Push Thread)}, pushes.Pairwise Push.Before → pushes.Nodup :=
    fun line => line.imp fun before same => (same ▸ before).irrefl
  refine ⟨layout.pending, records.held, nodup records.heldLine, nodup entered, records.handed,
    records.spared, ?_, records.refused, ?_, entered, Sound.ends ⟨holds, records⟩⟩
  · intro node listed more
    exact (later _ more _ (mem_map_of_mem listed)).irrefl
  · intro outside
    have shape := holds.shape
    cases stands : config.driver with
    | rest | retire | ownScan | ownPut =>
      rw [stands] at shape
      obtain ⟨chain, left, todo⟩ := shape
      simpa [Layout.pending, left, todo] using chain
    | reverse | hand | scan | put | cut | reload | walk =>
      rw [stands] at outside
      cases outside

/-- A queue with nothing in it, and its gate shut. -/
def Config.shut : Config Unit Nat where
  head := none
  next _ := none
  task _ := ⟨none, 0, false⟩
  cancelled _ := false
  running := []
  finished := []
  switching := true
  wakers := 0
  threaded := true
  pushers _ := .idle
  driver := .rest
  calls := []
  free _ := true
  pushes _ := 0
  held := []
  decided := []
  entered := []
  retired := []

theorem shut_holds : ∃ config : Config Unit Nat, (system Unit Nat).Reachable config ∧
    config.held = [⟨some (), 0, true⟩] := by
  have starts : (system Unit Nat).Reachable .shut :=
    .start ⟨rfl, rfl, rfl, fun _ => rfl, rfl, rfl, rfl, rfl, rfl, rfl⟩
  have called := starts.step (.inl (@PusherStep.call _ _ _ _ _ () 7 true rfl rfl))
  have shut := called.step (.inl (@PusherStep.enterShut _ _ _ _ _ () 7 rfl rfl))
  have loaded := shut.step (.inl (@PusherStep.load _ _ _ _ _ () 7 false rfl))
  exact ⟨_, loaded.step (.inl (@PusherStep.swapHeld _ _ _ _ _ () 7 none false rfl rfl)), rfl⟩

/-- What is known of that push: it is still held, or decided. -/
theorem held_pushes_decided_shut : ∃ config : Config Unit Nat, config.held = [⟨some (), 0, true⟩] ∧
    ∃ pending : List Nat,
      config.held = config.decided.map Prod.fst ++ pending.map config.task ∧ Drains config := by
  obtain ⟨config, reached, held⟩ := shut_holds
  obtain ⟨pending, all, -, -, -, -, -, -, -, -, drains⟩ := held_pushes_decided reached
  exact ⟨config, held, pending, all, drains⟩

end Libretro.TaskQueue
