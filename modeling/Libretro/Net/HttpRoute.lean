import Libretro.Library.Transition
import Libretro.Net.HttpPool
import Mathlib.Logic.Function.Basic
import Mathlib.Tactic.SplitIfs

/-! What updates do to connections and the pool, and when transfers keep to their own kind. -/

namespace Libretro.Http

open Nat Option List ConnPool

/-- Two states of a transfer that name one place and hold one connection. -/
structure SameRoute (t after : Transfer) : Prop where
  conn : after.conn = t.conn
  request : after.request = t.request
  ssl : after.ssl = t.ssl

theorem SameRoute.trans {first second third : Transfer} (left : SameRoute first second)
    (right : SameRoute second third) : SameRoute first third :=
  ⟨right.conn.trans left.conn, right.request.trans left.request, right.ssl.trans left.ssl⟩

/-- The transfer that a queued run belongs to. -/
def Queued.transfer : Queued → Transfer
  | .run t _ => t
  | .flush t => t
  | .short t => t

theorem queueRun_route (t : Transfer) (pulls : List (List UInt8)) :
    SameRoute t (queueRun t pulls).transfer := by
  simp only [queueRun]
  split_ifs <;> exact ⟨rfl, rfl, rfl⟩

theorem sendFlush_route (t : Transfer) (answer : Sent) : SameRoute t (sendFlush t answer).1 := by
  simp only [sendFlush]
  split
  · split <;> exact ⟨rfl, rfl, rfl⟩
  · exact ⟨rfl, rfl, rfl⟩

theorem sendSlices_route (answers : List Sent) : ∀ (pulls : List (List UInt8)) (budget : Nat) (t : Transfer),
      SameRoute t (sendSlices answers pulls budget t).1 := by
  induction answers with
  | nil =>
    intro pulls budget t
    have queued := queueRun_route t pulls
    rw [sendSlices]
    cases next : queueRun t pulls with
    | short t' => exact (next ▸ queued).trans ⟨rfl, rfl, rfl⟩
    | flush t' => exact (next ▸ queued).trans (sendFlush_route t' _)
    | run t' pulls' =>
      rw [next] at queued
      dsimp only
      split
      · exact queued
      · exact queued.trans ⟨rfl, rfl, rfl⟩
  | cons answer answers ih =>
    intro pulls budget t
    have queued := queueRun_route t pulls
    rw [sendSlices]
    cases next : queueRun t pulls with
    | short t' => exact (next ▸ queued).trans ⟨rfl, rfl, rfl⟩
    | flush t' => exact (next ▸ queued).trans (sendFlush_route t' _)
    | run t' pulls' =>
      rw [next] at queued
      dsimp only
      split
      · exact queued
      · rcases answer with (_ | n) | _
        · exact queued.trans ⟨rfl, rfl, rfl⟩
        · -- A slice has gone, and the rest of the call sends on.
          have onward := ih pulls' (budget - min (n + 1) (min (t'.out.length - t'.outOff) budget))
            { t' with outOff := t'.outOff + min (n + 1) (min (t'.out.length - t'.outOff) budget) }
          exact ⟨onward.conn.trans queued.conn, onward.request.trans queued.request,
            onward.ssl.trans queued.ssl⟩
        · exact queued.trans ⟨rfl, rfl, rfl⟩

theorem sendRequest_route (answers : List Sent) (pulls : List (List UInt8)) (t : Transfer) :
    SameRoute t (sendRequest answers pulls t).1 := by
  rw [sendRequest]
  split
  · split
    · exact ⟨rfl, rfl, rfl⟩
    · have opened : SameRoute t
          { t with out := buildHead t, outOff := 0, bodyQueued := 0, sendPhase := .head } :=
        ⟨rfl, rfl, rfl⟩
      exact opened.trans (sendSlices_route answers pulls sendBudget _)
  · exact sendSlices_route answers pulls sendBudget t

theorem stalled_route (now : Int) (up : Bool) (t : Transfer) : SameRoute t (stalled now up t).1 := by
  simp only [stalled]
  split_ifs <;> exact ⟨rfl, rfl, rfl⟩

theorem stalled_retried (now : Int) (up : Bool) (t : Transfer) :
    (stalled now up t).1.retried = t.retried := by
  simp only [stalled]
  split_ifs <;> rfl

variable {t : Transfer} {pool : ConnPool}

theorem retryFresh_route {rewinds : Bool} {after : ConnPool} {again : Transfer}
    (retries : retryFresh rewinds pool t = some (again, after)) :
    again.conn = none ∧ after = closeConn t pool := by
  simp only [retryFresh] at retries
  split at retries
  · cases retries
  · split at retries
    · cases retries
    · cases retries
      exact ⟨rfl, rfl⟩

/-- Where an update leaves the connection it works on. -/
inductive Leaves (now : Int) (e : ConnPoolEntry) (pool : ConnPool) (t : Transfer) : Updated → Prop
  | keeps {after : Updated} (count : Nat) (route : SameRoute t after.transfer)
      (pool_ : after.pool = pool) (events : after.events = List.replicate count (use t e))
      (up : count = 0 ∨ e.connected = true) : Leaves now e pool t after
  | connects {after : Updated} (route : SameRoute t after.transfer)
      (pool_ : after.pool = pool.set e.id (connected t))
      (events : after.events = if t.ssl then [.handshake e.id t.request.domain t.request.port] else [])
      (down : e.connected = false) : Leaves now e pool t after
  | closes {after : Updated} (count : Nat) (free : after.transfer.conn = none)
      (pool_ : after.pool = connPoolRemove e.id pool)
      (events : after.events = List.replicate count (use t e))
      (up : count = 0 ∨ e.connected = true) : Leaves now e pool t after
  | handsBack {after : Updated} (count : Nat) (free : after.transfer.conn = none)
      (pool_ : after.pool = connPoolRelease now e.id pool)
      (events : after.events = List.replicate count (use t e))
      (up : e.connected = true) : Leaves now e pool t after

variable {e : ConnPoolEntry}

theorem connect_leaves (env : Surroundings) (pool : ConnPool) (down : e.connected = false) :
    Leaves env.now e pool t (connect env e.id pool t) := by
  rw [connect]
  cases env.connect with
  | missing => exact .keeps 0 ⟨rfl, rfl, rfl⟩ rfl rfl (.inl rfl)
  | refused => exact .closes 0 rfl rfl rfl (.inl rfl)
  | opened => exact .connects ⟨rfl, rfl, rfl⟩ rfl rfl down

theorem send_leaves (env : Surroundings) (pool : ConnPool)
    (held : t.conn = some e.id) (up : e.connected = true) :
    Leaves env.now e pool t (send env e pool t) := by
  have route := sendRequest_route env.sends env.pulls t
  simp only [send]
  cases retries : (if (sendRequest env.sends env.pulls t).2.1 = true
      then retryFresh env.rewinds pool (sendRequest env.sends env.pulls t).1 else none) with
  | none => exact .keeps _ route rfl rfl (.inr up)
  | some again =>
    obtain ⟨again, after⟩ := again
    split at retries
    · obtain ⟨free, rfl⟩ := retryFresh_route retries
      refine .closes _ free ?_ rfl (.inr up)
      rw [closeConn, route.conn, held]
    · cases retries

theorem follow_route (rewinds : Bool) (free : t.conn = none) : (follow rewinds t).1.conn = none := by
  simp only [follow]
  split
  · split
    · exact free
    · rcases redirect_spec rewinds _ { t with
        asked := { t.asked with redirects := t.asked.redirects + 1 } } with fails | ⟨there, leads, _⟩
      · rw [fails]
        exact free
      · rw [leads]
        exact free
  · exact free

variable {env : Surroundings}

theorem receiving_leaves {after : Updated} (held : t.conn = some e.id) (up : e.connected = true)
    (runs : receiving env e pool t = some after) : Leaves env.now e pool t after := by
  obtain ⟨⟨x, how, count⟩, _, runs⟩ := bind_eq_some_iff.mp runs
  cases how with
  | headerFailed =>
    simp only at runs
    cases retries : retryFresh env.rewinds pool { t with toInbound := x } with
    | none =>
      rw [retries] at runs
      cases runs
      exact .closes count rfl rfl rfl (.inr up)
    | some again =>
      obtain ⟨again, pool'⟩ := again
      rw [retries] at runs
      cases runs
      obtain ⟨free, rfl⟩ := retryFresh_route retries
      refine .closes count free ?_ rfl (.inr up)
      rw [closeConn]
      simp only [held]
  | bodyFailed =>
    cases runs
    exact .closes count rfl rfl rfl (.inr up)
  | stopped blocked =>
    cases runs
    simp only [afterReads]
    split
    · exact .keeps count ⟨rfl, rfl, rfl⟩ rfl rfl (.inr up)
    · -- The response is over: the connection goes back to the pool or is closed.
      have free := follow_route env.rewinds
        (t := { t with toInbound := x, blocked := blocked, conn := none }) rfl
      simp only [handBack]
      split
      · exact .closes count free rfl rfl (.inr up)
      · exact .handsBack count free rfl rfl up

theorem onConnection_leaves {after : Updated} (held : t.conn = some e.id)
    (runs : onConnection env e pool t = some after) : Leaves env.now e pool t after := by
  rw [onConnection] at runs
  split at runs
  · cases runs
    exact connect_leaves env pool ‹_›
  · rename_i up
    rw [Bool.not_eq_false] at up
    split at runs
    · cases runs
      exact send_leaves env pool held up
    · exact receiving_leaves held up runs

/-- Whether an update of a transfer looks for an idle connection. -/
def looksUp (env : Surroundings) (pool : ConnPool) (t : Transfer) : Prop :=
  t.err = false ∧ (stalled env.now (isConnected pool t) t).2 = false ∧ t.conn = none ∧ t.retried = false

/-- The ways of one update: no connection at all, one that is opened, found or held. -/
inductive Way (env : Surroundings) (pool : ConnPool) (t : Transfer) : Updated → Prop
  | without {after : Updated} (free : after.transfer.conn = none) (unheld : t.conn = none)
      (pool_ : after.pool = pool ∨ ∃ found,
        connPoolFind env.now env.readable t.request.domain t.request.port pool =
          (none, found) ∧ after.pool = found)
      (events : after.events = []) : Way env pool t after
  | opens {after : Updated} {found : ConnPool} (unheld : t.conn = none)
      (held : after.transfer.conn = some env.fresh)
      (request : after.transfer.request = t.request) (ssl : after.transfer.ssl = t.ssl)
      (found_ : found = pool ∨
        connPoolFind env.now env.readable t.request.domain t.request.port pool = (none, found))
      (pool_ : after.pool = connPoolAdd env.fresh t.request.domain t.request.port t.ssl found)
      (events : after.events = []) : Way env pool t after
  | finds {after : Updated} {found : ConnPool} {e : ConnPoolEntry} {u : Transfer}
      (looks : looksUp env pool t)
      (found_ : connPoolFind env.now env.readable t.request.domain t.request.port pool =
        (some e.id, found)) (stands : found.entry e.id = some e)
      (held : u.conn = some e.id) (request : u.request = t.request) (ssl : u.ssl = t.ssl)
      (leaves : Leaves env.now e found u after) : Way env pool t after
  | holds {after : Updated} {e : ConnPoolEntry} {u : Transfer} (stands : pool.entry e.id = some e)
      (route : SameRoute t u) (held : t.conn = some e.id)
      (leaves : Leaves env.now e pool u after) : Way env pool t after
  | closes {after : Updated} (id : Nat) (held : t.conn = some id)
      (free : after.transfer.conn = none) (pool_ : after.pool = connPoolRemove id pool)
      (events : after.events = []) : Way env pool t after
  | stands {after : Updated} (same : after.transfer = t) (pool_ : after.pool = pool)
      (events : after.events = []) : Way env pool t after

theorem newSocket_way {found : ConnPool} {u : Transfer}
    (unheld : t.conn = none) (free : u.conn = none) (request : u.request = t.request)
    (ssl : u.ssl = t.ssl) (found_ : found = pool ∨
      connPoolFind env.now env.readable t.request.domain t.request.port pool = (none, found)) :
    Way env pool t (newSocket env found u) := by
  have pool_ : found = pool ∨ ∃ other,
      connPoolFind env.now env.readable t.request.domain t.request.port pool = (none, other) ∧
        found = other := by
    rcases found_ with same | looked
    · exact .inl same
    · exact .inr ⟨found, looked, rfl⟩
  rw [newSocket]
  cases env.socket with
  | fails => exact .without free unheld pool_ rfl
  | waits => exact .without free unheld pool_ rfl
  | opens => exact .opens unheld rfl request ssl found_ (by rw [← request, ← ssl]) rfl

/-- Every update goes one of these ways. -/
theorem update_way {after : Updated} (runs : update env pool t = some after) : Way env pool t after := by
  have route := stalled_route env.now (isConnected pool t) t
  have kept := stalled_retried env.now (isConnected pool t) t
  rw [update] at runs
  split at runs
  · cases runs
    exact .stands rfl rfl rfl
  rename_i noError
  rw [Bool.not_eq_true] at noError
  have stall : stalled env.now (isConnected pool t) t =
    ((stalled env.now (isConnected pool t) t).1, (stalled env.now (isConnected pool t) t).2) := rfl
  generalize (stalled env.now (isConnected pool t) t).1 = u at route kept stall
  rw [stall] at runs
  simp only at runs
  split at runs
  · -- The transfer has moved nothing for too long.
    cases runs
    cases held : t.conn with
    | none => exact .without rfl held (.inl (by rw [closeConn, route.conn, held])) rfl
    | some id => exact .closes id held rfl (by rw [closeConn, route.conn, held]) rfl
  rename_i intime
  rw [Bool.not_eq_true] at intime
  cases held : t.conn with
  | some id =>
    rw [route.conn, held] at runs
    obtain ⟨e, stands, runs⟩ := bind_eq_some_iff.mp runs
    obtain rfl := (entry_some stands).2
    have leaves := onConnection_leaves rfl runs
    refine .holds stands ?_ held leaves
    exact ⟨held.symm, route.request, route.ssl⟩
  | none =>
    rw [route.conn, held] at runs
    by_cases again : u.retried = true
    · -- A request that goes out again takes no connection from the pool.
      simp only [lookUp, again, if_true] at runs
      cases runs
      exact newSocket_way held rfl route.request route.ssl (.inl rfl)
    · simp only [lookUp, again] at runs
      cases found : connPoolFind env.now env.readable u.request.domain u.request.port pool with
      | mk id pool' =>
        rw [found] at runs
        rw [route.request] at found
        cases id with
        | none =>
          cases runs
          exact newSocket_way held rfl route.request route.ssl (.inr found)
        | some id =>
          obtain ⟨e, stands, runs⟩ := bind_eq_some_iff.mp runs
          obtain rfl := (entry_some stands).2
          have leaves := onConnection_leaves rfl runs
          refine .finds ⟨noError, intime, held, ?_⟩ found stands rfl ?_ ?_ leaves
          · rw [← kept, ← Bool.not_eq_true]
            exact again
          · exact route.request
          · exact route.ssl

open Transition

/-- The pool, the transfers, and what they have done with their connections so far. -/
structure World where
  pool : ConnPool := []
  transfers : Nat → Option Transfer := fun _ => none
  log : List Event := []
  opened : Nat := 0

/-- One transfer is replaced. -/
def World.put (w : World) (i : Nat) (t : Option Transfer) : Nat → Option Transfer :=
  Function.update w.transfers i t

theorem World.put_self (w : World) (i : Nat) (t : Option Transfer) : w.put i t i = t := by
  rw [World.put, Function.update_self]

theorem World.put_other (w : World) {i j : Nat} (other : j ≠ i) (t : Option Transfer) :
    w.put i t j = w.transfers j := by
  rw [World.put, Function.update_of_ne other]

/-- A call of the thread that drives the transfers, where an update is one that is allowed. -/
inductive Step (allowed : Surroundings → ConnPool → Transfer → Prop) (w : World) : World → Prop
  | begins (i : Nat) (now : Int) (request : Request) (method : List UInt8) (ssl : Bool)
      (sink : Option Sink) (absent : w.transfers i = none) :
      Step allowed w { w with transfers := w.put i (some (httpNew now request method ssl sink)) }
  | updates {i : Nat} {t : Transfer} {env : Surroundings} {after : Updated}
      (stands : w.transfers i = some t) (new : env.fresh = w.opened)
      (fits : allowed env w.pool t) (runs : update env w.pool t = some after) :
      Step allowed w ⟨after.pool, w.put i (some after.transfer), w.log ++ after.events, w.opened + 1⟩
  | deletes {i : Nat} {t : Transfer} (stands : w.transfers i = some t) :
      Step allowed w { w with
        pool := closeConn t w.pool
        transfers := w.put i none }

/-- A transfer begins, by the call that makes it. -/
def World.begin (w : World) (i : Nat) (t : Transfer) : World := { w with transfers := w.put i (some t) }

/-- An update by what the outside answers, if it is allowed; it opens the next connection. -/
def World.update (allowed : Surroundings → ConnPool → Transfer → Prop)
    [∀ env pool t, Decidable (allowed env pool t)] (w : World) (i : Nat) (env : Surroundings) :
    Option World :=
  (w.transfers i).bind fun t =>
    if allowed { env with fresh := w.opened } w.pool t then
      (Http.update { env with fresh := w.opened } w.pool t).map fun after =>
        ⟨after.pool, w.put i (some after.transfer), w.log ++ after.events, w.opened + 1⟩
    else none

/-- Updates of transfers, one behind the other. -/
def World.updates (allowed : Surroundings → ConnPool → Transfer → Prop)
    [∀ env pool t, Decidable (allowed env pool t)] (w : World) :
    List (Nat × Surroundings) → Option World
  | [] => some w
  | (i, env) :: calls => (w.update allowed i env).bind fun after => after.updates allowed calls

/-- The runs of transfers that share a pool, which starts empty. -/
def traffic (allowed : Surroundings → ConnPool → Transfer → Prop) : System World where
  start w := w = {}
  step := Step allowed

theorem World.updates_reachable {allowed : Surroundings → ConnPool → Transfer → Prop}
    [∀ env pool t, Decidable (allowed env pool t)] {w after : World}
    (calls : List (Nat × Surroundings)) (reached : (traffic allowed).Reachable w)
    (runs : w.updates allowed calls = some after) : (traffic allowed).Reachable after := by
  -- The run is followed call by call.
  induction calls generalizing w with
  | nil =>
    cases runs
    exact reached
  | cons call calls ih =>
    obtain ⟨next, moved, runs⟩ := bind_eq_some_iff.mp runs
    obtain ⟨t, stands, moved⟩ := bind_eq_some_iff.mp moved
    split at moved
    · obtain ⟨updated, ran, rfl⟩ := map_eq_some_iff.mp moved
      exact ih (reached.step (.updates stands rfl ‹_› ran)) runs
    · cases moved

/-- A transfer holds a connection of the pool that is in use for its host and port. -/
def Holding (pool : ConnPool) (t : Transfer) (id : Nat) : Prop :=
  ∃ e ∈ pool, e.id = id ∧ e.inUse = true ∧ e.domain = t.request.domain ∧ e.port = t.request.port

/-- Each connection has one address and at most one transfer. -/
structure Held (w : World) : Prop where
  distinct : w.pool.Distinct
  opened : ∀ e ∈ w.pool, e.id < w.opened
  holding : ∀ i t id, w.transfers i = some t → t.conn = some id → Holding w.pool t id
  apart : ∀ i j t u id, w.transfers i = some t → w.transfers j = some u → t.conn = some id →
    u.conn = some id → i = j

namespace Held

theorem start : Held {} :=
  ⟨nodup_nil, fun _ inside => absurd inside not_mem_nil,
    fun _ _ _ stands => absurd stands.symm (some_ne_none _),
    fun _ _ _ _ _ stands => absurd stands.symm (some_ne_none _)⟩

variable {w : World} {i : Nat} {t : Transfer}

variable (held : Held w)
include held

theorem below {id : Nat} (stands : w.transfers i = some t) (conn : t.conn = some id) : id < w.opened := by
  obtain ⟨e, inside, rfl, _⟩ := held.holding i t id stands conn
  exact held.opened e inside

theorem around {id : Nat} {pool : ConnPool} {t : Option Transfer}
    {log : List Event} {opened : Nat} (changes : Around id w.pool pool)
    (grows : w.opened ≤ opened) (ids : ∀ e ∈ pool, e.id = id → id < opened)
    (own : ∀ j u, j ≠ i → w.transfers j = some u → u.conn ≠ some id)
    (next : ∀ u id', t = some u → u.conn = some id' → id' = id ∧ Holding pool u id) :
    Held ⟨pool, w.put i t, log, opened⟩ := by
  have others : ∀ j u, j ≠ i → w.put i t j = some u → w.transfers j = some u := by
    intro j u other stands
    rwa [w.put_other other] at stands
  have mine : ∀ u, w.put i t i = some u → t = some u := by
    intro u stands
    rwa [w.put_self] at stands
  refine ⟨changes.distinct, ?_, ?_, ?_⟩
  · intro e inside
    by_cases here : e.id = id
    · rw [here]
      exact ids e inside here
    · exact Nat.lt_of_lt_of_le (held.opened e (changes.kept e inside here)) grows
  · intro j u id' stands conn
    by_cases same : j = i
    · subst same
      obtain ⟨rfl, holding⟩ := next u id' (mine u stands) conn
      exact holding
    · -- What another transfer holds is in use and has been kept.
      have stood := others j u same stands
      obtain ⟨e, inside, ids', inUse, place⟩ := held.holding j u id' stood conn
      have other : e.id ≠ id := by
        rintro rfl
        rw [ids'] at own
        exact own j u same stood conn
      exact ⟨e, changes.held e inside inUse other, ids', inUse, place⟩
  · intro j k u v id' stands stands' conn conn'
    by_cases left : j = i
    · by_cases right : k = i
      · rw [left, right]
      · subst left
        obtain ⟨rfl, _⟩ := next u id' (mine u stands) conn
        exact absurd conn' (own k v right (others k v right stands'))
    · by_cases right : k = i
      · subst right
        obtain ⟨rfl, _⟩ := next v id' (mine v stands') conn'
        exact absurd conn (own j u left (others j u left stands))
      · exact held.apart j k u v id' (others j u left stands) (others k v right stands') conn conn'

theorem own {id : Nat} (stands : w.transfers i = some t) (conn : t.conn = some id) :
    ∀ j u, j ≠ i → w.transfers j = some u → u.conn ≠ some id :=
  fun j u other stands' conn' => other (held.apart j i u t id stands' stands conn' conn)

theorem fresh (i : Nat) : ∀ j u, j ≠ i → w.transfers j = some u → u.conn ≠ some w.opened :=
  fun _ _ _ stands conn => Nat.lt_irrefl _ (held.below stands conn)

theorem idle {e : ConnPoolEntry} (inside : e ∈ w.pool) (unused : e.inUse = false) (i : Nat) :
    ∀ j u, j ≠ i → w.transfers j = some u → u.conn ≠ some e.id := by
  intro j u _ stands conn
  obtain ⟨other, inside', ids, inUse, _⟩ := held.holding j u e.id stands conn
  rw [held.distinct.same inside' inside ids, unused] at inUse
  contradiction

omit held

theorem released (free : t.conn = none) {pool : ConnPool} {id : Nat} :
    ∀ u id', some t = some u → u.conn = some id' → id' = id ∧ Holding pool u id := by
  rintro u id' ⟨⟩ conn
  rw [free] at conn
  cases conn

include held

theorem leaves {e : ConnPoolEntry} {found : ConnPool}
    {u : Transfer} {after : Updated} {now : Int} {log : List Event}
    (changes : Around e.id w.pool found) (inside : e ∈ found) (inUse : e.inUse = true)
    (below : e.id < w.opened) (domain : e.domain = u.request.domain)
    (port : e.port = u.request.port) (conn : u.conn = some e.id)
    (own : ∀ j v, j ≠ i → w.transfers j = some v → v.conn ≠ some e.id)
    (leaves : Leaves now e found u after) :
    Held ⟨after.pool, w.put i (some after.transfer), log, w.opened + 1⟩ := by
  cases leaves with
  | keeps count route pool_ _ _ =>
    rw [pool_]
    refine held.around changes (le_succ _) (fun _ _ _ => lt_succ_of_lt below) own ?_
    rintro v id ⟨⟩ holds
    rw [route.conn, conn] at holds
    cases holds
    exact ⟨rfl, e, inside, rfl, inUse, by rw [route.request]; exact ⟨domain, port⟩⟩
  | connects route pool_ _ _ =>
    rw [pool_]
    have rewritten := Around.set changes.distinct e.id (connected u) fun _ => rfl
    refine held.around (changes.trans rewritten) (le_succ _) (fun _ _ _ => lt_succ_of_lt below) own ?_
    rintro v id ⟨⟩ holds
    rw [route.conn, conn] at holds
    cases holds
    refine ⟨rfl, connected u e, mem_map.mpr ⟨e, inside, if_pos rfl⟩, rfl, inUse, ?_⟩
    rw [route.request]
    exact ⟨domain, port⟩
  | closes count free pool_ _ _ =>
    rw [pool_]
    exact held.around (changes.trans (.remove changes.distinct _)) (le_succ _)
      (fun _ _ _ => lt_succ_of_lt below) own (released free)
  | handsBack count free pool_ _ _ =>
    rw [pool_]
    exact held.around (changes.trans (connPoolRelease_around changes.distinct now _).1)
      (le_succ _) (fun _ _ _ => lt_succ_of_lt below) own (released free)

theorem update {env : Surroundings} {after : Updated} {log : List Event} (stands : w.transfers i = some t)
    (new : env.fresh = w.opened) (way : Way env w.pool t after) :
    Held ⟨after.pool, w.put i (some after.transfer), log, w.opened + 1⟩ := by
  cases way with
  | without free unheld pool_ _ =>
    have changes : Around w.opened w.pool after.pool ∧ ∀ e ∈ after.pool, e ∈ w.pool := by
      rcases pool_ with same | ⟨found, looked, same⟩
      · rw [same]
        exact ⟨.refl held.distinct _, fun _ inside => inside⟩
      · rw [same]
        exact connPoolFind_none held.distinct looked w.opened
    exact held.around changes.1 (le_succ _) (fun _ _ _ => lt_succ_self _) (held.fresh i) (released free)
  | @opens found unheld conn request ssl found_ pool_ _ =>
    have changes : Around w.opened w.pool found := by
      rcases found_ with rfl | looked
      · exact .refl held.distinct _
      · exact (connPoolFind_none held.distinct looked w.opened).1
    obtain ⟨added, inside⟩ := connPoolAdd_around changes.distinct w.opened t.request.domain
      t.request.port t.ssl
    rw [new] at pool_ conn
    rw [pool_]
    refine held.around (changes.trans added) (le_succ _) (fun _ _ _ => lt_succ_self _) (held.fresh i) ?_
    rintro v id ⟨⟩ holds
    rw [conn] at holds
    cases holds
    exact ⟨rfl, _, inside, rfl, rfl, by rw [request]; exact ⟨rfl, rfl⟩⟩
  | @finds found e u looks found_ there conn request ssl leaves =>
    obtain ⟨idle, inside, unused, ids, domain, port, _, taken, changes⟩ :=
      connPoolFind_some held.distinct found_
    -- The entry that was found is the one now in use.
    have same := changes.distinct.same (entry_some there).1 taken ids.symm
    have below := held.opened idle inside
    rw [ids] at below
    refine held.leaves changes (entry_some there).1 (by rw [same]) below ?_ ?_ conn ?_
      leaves
    · rw [same, request]
      exact domain
    · rw [same, request]
      exact port
    · rw [← ids]
      exact held.idle inside unused i
  | @holds e u there route conn leaves =>
    obtain ⟨other, inside, ids, inUse, domain, port⟩ := held.holding i t e.id stands conn
    obtain ⟨standing, _⟩ := entry_some there
    have same := held.distinct.same inside standing ids
    subst same
    refine held.leaves (.refl held.distinct _) standing inUse (held.opened _ standing) ?_ ?_
      (route.conn.trans conn) (held.own stands conn) leaves
    · rw [route.request]
      exact domain
    · rw [route.request]
      exact port
  | closes id conn free pool_ _ =>
    rw [pool_]
    exact held.around (.remove held.distinct id) (le_succ _)
      (fun _ _ _ => lt_succ_of_lt (held.below stands conn)) (held.own stands conn)
      (released free)
  | stands same pool_ _ =>
    rw [pool_, same]
    cases conn : t.conn with
    | none =>
      exact held.around (.refl held.distinct w.opened) (le_succ _)
        (fun _ _ _ => lt_succ_self _) (held.fresh i) (released conn)
    | some id =>
      refine held.around (.refl held.distinct id) (le_succ _)
        (fun _ _ _ => lt_succ_of_lt (held.below stands conn)) (held.own stands conn) ?_
      rintro v id' ⟨⟩ holds
      rw [conn] at holds
      cases holds
      exact ⟨rfl, held.holding i t id stands conn⟩

theorem delete (stands : w.transfers i = some t) :
    Held { w with pool := closeConn t w.pool, transfers := w.put i none } := by
  rw [closeConn]
  cases conn : t.conn with
  | none =>
    exact held.around (.refl held.distinct w.opened) (Nat.le_refl _)
      (fun e inside here => absurd (held.opened e inside) (here ▸ Nat.lt_irrefl _)) (held.fresh i)
      fun _ _ absent => absurd absent.symm (some_ne_none _)
  | some id =>
    exact held.around (.remove held.distinct id) (Nat.le_refl _)
      (fun _ _ _ => held.below stands conn) (held.own stands conn)
      fun _ _ absent => absurd absent.symm (some_ne_none _)

theorem step {allowed : Surroundings → ConnPool → Transfer → Prop} {after : World}
    (moves : Step allowed w after) : Held after := by
  cases moves with
  | begins i now request method ssl sink absent =>
    exact held.around (.refl held.distinct w.opened) (Nat.le_refl _)
      (fun e inside here => absurd (held.opened e inside) (here ▸ Nat.lt_irrefl _)) (held.fresh i)
      (released rfl)
  | updates stands new _ runs => exact held.update stands new (update_way runs)
  | deletes stands => exact held.delete stands

end Held

open Transition

/--
A use of a connection that matches the scheme of its transfer, after what was done before it.

With TLS it goes through the session of a handshake for the same host and port.
Without TLS the connection has never seen a handshake.
-/
def Event.Matches (before : List Event) : Event → Prop
  | .handshake .. => True
  | .uses true domain port conn session =>
    session = some ⟨domain, port⟩ ∧ .handshake conn domain port ∈ before
  | .uses false _ _ conn session => session = none ∧ ∀ domain port, .handshake conn domain port ∉ before

/-- Each use of a connection matches the scheme of its transfer. -/
def Matched (log : List Event) : Prop :=
  ∀ before event after, log = before ++ event :: after → event.Matches before

/-- No two transfers hold one connection. -/
def World.Apart (w : World) : Prop :=
  ∀ i j t u id, w.transfers i = some t → w.transfers j = some u → t.conn = some id → u.conn = some id → i = j

/-- An idle connection that an update takes was opened with TLS exactly when its transfer has it. -/
def SameScheme (env : Surroundings) (pool : ConnPool) (t : Transfer) : Prop :=
  looksUp env pool t → ∀ e,
    (connPoolRemoveExpired env.now env.readable pool).idleFor t.request.domain t.request.port =
      some e → e.ssl = t.ssl

instance (env : Surroundings) (pool : ConnPool) (t : Transfer) : Decidable (looksUp env pool t) :=
  inferInstanceAs (Decidable (_ ∧ _ ∧ _ ∧ _))

instance (env : Surroundings) (pool : ConnPool) (t : Transfer) : Decidable (SameScheme env pool t) :=
  match found : (connPoolRemoveExpired env.now env.readable pool).idleFor t.request.domain
      t.request.port with
  | none => .isTrue fun _ e looked => absurd (looked.symm.trans found) (Option.some_ne_none e)
  | some e =>
    if fits : looksUp env pool t → e.ssl = t.ssl then
      .isTrue fun looks _ looked => Option.some.inj (found.symm.trans looked) ▸ fits looks
    else .isFalse fun same => fits fun looks => same looks e found

/-- A connection whose handshake was logged for its host and port, or that never had one. -/
structure Secured (log : List Event) (e : ConnPoolEntry) : Prop where
  tls : e.ssl = true → e.connected = true →
    e.sslCtx = some ⟨e.domain, e.port⟩ ∧ .handshake e.id e.domain e.port ∈ log
  plain : e.ssl = false → ∀ domain port, .handshake e.id domain port ∉ log

/-- The handshakes of some events are those of one connection. -/
def Quiet (id : Nat) (events : List Event) : Prop :=
  ∀ other domain port, .handshake other domain port ∈ events → other = id

/-- The connections have the schemes of the transfers that hold them. -/
structure Schemed (w : World) : Prop where
  secured : ∀ e ∈ w.pool, Secured w.log e
  past : ∀ id domain port, .handshake id domain port ∈ w.log → id < w.opened
  schemes : ∀ i t, w.transfers i = some t → ∀ e ∈ w.pool, t.conn = some e.id → e.ssl = t.ssl
  matched : Matched w.log

theorem quiet_uses (id count : Nat) (t : Transfer) (e : ConnPoolEntry) :
    Quiet id (replicate count (use t e)) := by
  intro other domain port inside
  have same := eq_of_mem_replicate inside
  rw [use] at same
  cases same

theorem Matched.append {log events : List Event} (matched : Matched log)
    (next : ∀ before event after, events = before ++ event :: after →
      event.Matches (log ++ before)) : Matched (log ++ events) := by
  intro before event after whole
  -- The event stands in the old log or among the new events.
  rcases append_eq_append_iff.mp whole with ⟨middle, starts, ends⟩ | ⟨middle, starts, ends⟩
  · rw [starts]
    exact next middle event after ends
  · cases middle with
    | nil =>
      rw [append_nil] at starts
      rw [← starts]
      have here := next [] event after ends.symm
      rwa [append_nil] at here
    | cons first middle =>
      obtain ⟨rfl, _⟩ := cons.inj ends
      exact matched before event middle starts

namespace Secured

theorem append {log events : List Event} {e : ConnPoolEntry} {id : Nat} (secured : Secured log e)
    (quiet : Quiet id events) (other : e.id ≠ id) : Secured (log ++ events) e := by
  refine ⟨fun ssl up => ?_, fun ssl domain port inside => ?_⟩
  · obtain ⟨session, shaken⟩ := secured.tls ssl up
    exact ⟨session, mem_append_left _ shaken⟩
  · rcases mem_append.mp inside with before | now
    · exact secured.plain ssl domain port before
    · exact other (quiet _ _ _ now)

theorem uses {log : List Event} {e : ConnPoolEntry} (secured : Secured log e) (count : Nat)
    (t : Transfer) (other : ConnPoolEntry) :
    Secured (log ++ replicate count (use t other)) e :=
  secured.append (quiet_uses (e.id + 1) count t other) (succ_ne_self _).symm

theorem use_matches {log : List Event} {e : ConnPoolEntry} {t : Transfer} (secured : Secured log e)
    (up : e.connected = true) (ssl : e.ssl = t.ssl) (domain : e.domain = t.request.domain)
    (port : e.port = t.request.port) : (use t e).Matches log := by
  rw [use]
  cases tls : t.ssl with
  | true =>
    obtain ⟨session, shaken⟩ := secured.tls (ssl.trans tls) up
    rw [domain, port] at session shaken
    exact ⟨session, shaken⟩
  | false => exact ⟨rfl, secured.plain (ssl.trans tls)⟩

end Secured

namespace Schemed

theorem start : Schemed {} := by
  refine ⟨fun _ inside => absurd inside not_mem_nil, fun _ _ _ inside => absurd inside not_mem_nil,
    fun _ _ stands => absurd stands.symm (some_ne_none _), ?_⟩
  intro before event after whole
  have length := congrArg length whole
  simp at length

theorem around {w : World} (schemed : Schemed w) {i id : Nat} {pool : ConnPool}
    {t : Option Transfer} {events : List Event} {opened : Nat}
    (changes : Around id w.pool pool) (grows : w.opened ≤ opened) (below : id < opened)
    (own : ∀ j u, j ≠ i → w.transfers j = some u → u.conn ≠ some id) (quiet : Quiet id events)
    (here : ∀ e ∈ pool, e.id = id → Secured (w.log ++ events) e ∧
      ∀ u, t = some u → u.conn = some id → e.ssl = u.ssl)
    (only : ∀ u id', t = some u → u.conn = some id' → id' = id)
    (next : ∀ before event after, events = before ++ event :: after → event.Matches (w.log ++ before)) :
    Schemed ⟨pool, w.put i t, w.log ++ events, opened⟩ := by
  refine ⟨fun e inside => ?_, fun other domain port inside => ?_, fun j u stands e inside conn => ?_,
    schemed.matched.append next⟩
  · by_cases same : e.id = id
    · exact (here e inside same).1
    · exact (schemed.secured e (changes.kept e inside same)).append quiet same
  · rcases mem_append.mp inside with before | now
    · exact Nat.lt_of_lt_of_le (schemed.past other domain port before) grows
    · rw [quiet other domain port now]
      exact below
  · by_cases same : j = i
    · subst same
      have stands : t = some u := (w.put_self j t).symm.trans stands
      have ids := only u e.id stands conn
      exact (here e inside ids).2 u stands (ids ▸ conn)
    · have stands : w.transfers j = some u := (w.put_other same t).symm.trans stands
      have other : e.id ≠ id := fun ids => own j u same stands (ids ▸ conn)
      exact schemed.schemes j u stands e (changes.kept e inside other) conn

theorem leaves {w : World} (schemed : Schemed w) {i : Nat} {e : ConnPoolEntry}
    {found : ConnPool} {u : Transfer} {after : Updated} {now : Int}
    (changes : Around e.id w.pool found) (inside : e ∈ found) (below : e.id < w.opened)
    (domain : e.domain = u.request.domain) (port : e.port = u.request.port)
    (conn : u.conn = some e.id) (own : ∀ j v, j ≠ i → w.transfers j = some v → v.conn ≠ some e.id)
    (secured : Secured w.log e) (ssl : e.ssl = u.ssl) (leaves : Leaves now e found u after) :
    Schemed ⟨after.pool, w.put i (some after.transfer), w.log ++ after.events, w.opened + 1⟩ := by
  have below' := lt_succ_of_lt below
  have released : after.transfer.conn = none →
      ∀ v id', some after.transfer = some v → v.conn = some id' → id' = e.id := by
    rintro free v id' ⟨⟩ holds
    rw [free] at holds
    cases holds
  have kept : SameRoute u after.transfer →
      ∀ v id', some after.transfer = some v → v.conn = some id' → id' = e.id := by
    rintro route v id' ⟨⟩ holds
    rw [route.conn, conn] at holds
    exact (some.inj holds).symm
  -- Each use stands behind the log and other uses.
  have used : ∀ count, (count = 0 ∨ e.connected = true) → ∀ before event after',
      replicate count (use u e) = before ++ event :: after' → event.Matches (w.log ++ before) := by
    intro count up before event after' whole
    have inside' : event ∈ replicate count (use u e) := by rw [whole]; simp
    obtain ⟨nonzero, rfl⟩ := mem_replicate.mp inside'
    have uses : before = replicate before.length (use u e) := by
      apply eq_replicate_of_mem
      intro other there
      apply eq_of_mem_replicate (n := count)
      rw [whole]
      exact mem_append_left _ there
    rw [uses]
    exact (secured.uses _ u e).use_matches (up.resolve_left nonzero) ssl domain port
  cases leaves with
  | keeps count route pool_ events up =>
    rw [pool_, events]
    refine schemed.around changes (le_succ _) below' own (quiet_uses _ _ _ _) ?_ (kept route) (used count up)
    intro other there ids
    obtain rfl := changes.distinct.same there inside ids
    refine ⟨secured.uses _ _ _, ?_⟩
    rintro v ⟨⟩ _
    rw [route.ssl]
    exact ssl
  | connects route pool_ events down =>
    rw [pool_, events]
    have rewritten := Around.set changes.distinct e.id (connected u) fun _ => rfl
    refine schemed.around (changes.trans rewritten) (le_succ _) below' own ?_ ?_ (kept route) ?_
    · intro other domain' port' shaken
      split at shaken
      · cases mem_singleton.mp shaken
        rfl
      · cases shaken
    · intro other there ids
      obtain ⟨_, different⟩ | ⟨old, stood, ids', rfl⟩ := mem_set there
      · exact absurd ids different
      · obtain rfl := changes.distinct.same stood inside ids'
        refine ⟨⟨fun tls _ => ?_, fun plain domain' port' shaken => ?_⟩, ?_⟩
        · have asks : u.ssl = true := ssl.symm.trans tls
          refine ⟨by simp only [connected, asks, if_true, domain, port],
            mem_append_right _ ?_⟩
          rw [if_pos asks, ← domain, ← port]
          exact mem_cons_self
        · have asks : u.ssl = false := ssl.symm.trans plain
          simp only [asks, Bool.false_eq_true, if_false, append_nil] at shaken
          exact secured.plain plain domain' port' shaken
        · rintro v ⟨⟩ _
          rw [route.ssl]
          exact ssl
    · intro before event after' whole
      have inside' : event ∈ if u.ssl = true then
          [Event.handshake e.id u.request.domain u.request.port] else [] := by
        rw [whole]
        simp
      split at inside'
      · cases mem_singleton.mp inside'
        trivial
      · cases inside'
  | closes count free pool_ events up =>
    rw [pool_, events]
    refine schemed.around (changes.trans (.remove changes.distinct _)) (le_succ _) below' own
      (quiet_uses _ _ _ _) ?_ (released free) (used count up)
    intro other there ids
    have gone := (mem_filter.mp there).2
    simp [ids] at gone
  | handsBack count free pool_ events up =>
    rw [pool_, events]
    obtain ⟨handed, idle⟩ := connPoolRelease_around changes.distinct now e.id
    refine schemed.around (changes.trans handed) (le_succ _) below' own
      (quiet_uses _ _ _ _) ?_ (released free) (used count (.inr up))
    intro other there ids
    obtain ⟨old, stood, ids', rfl⟩ := idle other there ids
    obtain rfl := changes.distinct.same stood inside ids'
    refine ⟨⟨(secured.uses _ _ _).tls, (secured.uses _ _ _).plain⟩, ?_⟩
    rintro v ⟨⟩ holds
    rw [free] at holds
    cases holds

theorem silent {w : World} (schemed : Schemed w) {i id : Nat} {pool : ConnPool}
    {t : Option Transfer} {opened : Nat} (changes : Around id w.pool pool)
    (grows : w.opened ≤ opened) (below : id < opened)
    (own : ∀ j u, j ≠ i → w.transfers j = some u → u.conn ≠ some id)
    (here : ∀ e ∈ pool, e.id = id → Secured w.log e ∧ ∀ u, t = some u → u.conn = some id → e.ssl = u.ssl)
    (only : ∀ u id', t = some u → u.conn = some id' → id' = id) :
    Schemed ⟨pool, w.put i t, w.log, opened⟩ := by
  have nothing : Quiet id [] := fun _ _ _ inside => absurd inside not_mem_nil
  have moved := schemed.around changes grows below own nothing (by rwa [append_nil]) only
    fun before event after whole => by simp at whole
  rwa [append_nil] at moved

theorem update {w : World} (schemed : Schemed w) (held : Held w) {i : Nat} {t : Transfer}
    {env : Surroundings} {after : Updated} (stands : w.transfers i = some t)
    (new : env.fresh = w.opened) (fits : SameScheme env w.pool t) (way : Way env w.pool t after) :
    Schemed ⟨after.pool, w.put i (some after.transfer), w.log ++ after.events, w.opened + 1⟩ := by
  have released : ∀ {u : Transfer} {id : Nat}, u.conn = none →
      ∀ v id', some u = some v → v.conn = some id' → id' = id := by
    rintro u id free v id' ⟨⟩ holds
    rw [free] at holds
    cases holds
  cases way with
  | without free unheld pool_ events =>
    rw [events, append_nil]
    have changes : Around w.opened w.pool after.pool ∧ ∀ e ∈ after.pool, e ∈ w.pool := by
      rcases pool_ with same | ⟨found, looked, same⟩
      · rw [same]
        exact ⟨.refl held.distinct _, fun _ inside => inside⟩
      · rw [same]
        exact connPoolFind_none held.distinct looked w.opened
    refine schemed.silent changes.1 (le_succ _) (lt_succ_self _) (held.fresh i) ?_ (released free)
    intro e inside ids
    exact absurd (held.opened e (changes.2 e inside)) (ids ▸ Nat.lt_irrefl _)
  | @opens found unheld conn request ssl found_ pool_ events =>
    have changes : Around w.opened w.pool found := by
      rcases found_ with rfl | looked
      · exact .refl held.distinct _
      · exact (connPoolFind_none held.distinct looked w.opened).1
    obtain ⟨added, there⟩ := connPoolAdd_around changes.distinct w.opened t.request.domain
      t.request.port t.ssl
    rw [new] at pool_ conn
    rw [pool_, events, append_nil]
    refine schemed.silent (changes.trans added) (le_succ _) (lt_succ_self _) (held.fresh i) ?_ ?_
    · -- The new connection is not up yet, and no handshake is older than it.
      intro e inside ids
      obtain rfl := added.distinct.same inside there ids
      refine ⟨⟨nofun, fun _ domain port shaken => ?_⟩, ?_⟩
      · exact Nat.lt_irrefl _ (schemed.past _ domain port shaken)
      · rintro v ⟨⟩ _
        exact ssl.symm
    · rintro v id' ⟨⟩ holds
      rw [conn] at holds
      exact (some.inj holds).symm
  | @finds found e u looks found_ there conn request ssl leaves =>
    obtain ⟨idle, inside, unused, ids, domain, port, looked, taken, changes⟩ :=
      connPoolFind_some held.distinct found_
    have same := changes.distinct.same (entry_some there).1 taken ids.symm
    have below := held.opened idle inside
    rw [ids] at below
    have old := schemed.secured idle inside
    have kind : idle.ssl = t.ssl := fits looks idle looked
    refine schemed.leaves changes (entry_some there).1 below ?_ ?_ conn ?_ ?_ ?_ leaves
    · rw [same, request]
      exact domain
    · rw [same, request]
      exact port
    · rw [← ids]
      exact held.idle inside unused i
    · rw [same]
      exact ⟨old.tls, old.plain⟩
    · rw [same, ssl]
      exact kind
  | @holds e u there route conn leaves =>
    obtain ⟨other, inside, ids, inUse, domain, port⟩ := held.holding i t e.id stands conn
    obtain ⟨standing, _⟩ := entry_some there
    obtain rfl := held.distinct.same inside standing ids
    refine schemed.leaves (.refl held.distinct _) standing (held.opened _ standing) ?_ ?_
      (route.conn.trans conn) (held.own stands conn) (schemed.secured _ standing) ?_ leaves
    · rw [route.request]
      exact domain
    · rw [route.request]
      exact port
    · rw [route.ssl]
      exact schemed.schemes i t stands _ standing conn
  | closes id conn free pool_ events =>
    rw [pool_, events, append_nil]
    refine schemed.silent (.remove held.distinct id) (le_succ _)
      (lt_succ_of_lt (held.below stands conn)) (held.own stands conn) ?_ (released free)
    intro e inside ids
    have gone := (mem_filter.mp inside).2
    simp [ids] at gone
  | stands same pool_ events =>
    rw [pool_, same, events, append_nil]
    cases conn : t.conn with
    | none =>
      refine schemed.silent (.refl held.distinct w.opened) (le_succ _) (lt_succ_self _)
        (held.fresh i) ?_ (released conn)
      intro e inside ids
      exact absurd (held.opened e inside) (ids ▸ Nat.lt_irrefl _)
    | some id =>
      refine schemed.silent (.refl held.distinct id) (le_succ _)
        (lt_succ_of_lt (held.below stands conn)) (held.own stands conn) ?_ ?_
      · intro e inside ids
        refine ⟨schemed.secured e inside, ?_⟩
        rintro v ⟨⟩ _
        exact schemed.schemes i t stands e inside (ids ▸ conn)
      · rintro v id' ⟨⟩ holds
        rw [conn] at holds
        exact (some.inj holds).symm

theorem step {w after : World} (schemed : Schemed w) (held : Held w)
    (moves : Step SameScheme w after) : Schemed after := by
  cases moves with
  | begins i now request method ssl sink absent =>
    refine ⟨schemed.secured, schemed.past, fun j u stands e inside conn => ?_, schemed.matched⟩
    by_cases same : j = i
    · subst same
      cases (w.put_self j _).symm.trans stands
      cases conn
    · exact schemed.schemes j u ((w.put_other same _).symm.trans stands) e inside conn
  | updates stands new fits runs => exact schemed.update held stands new fits (update_way runs)
  | @deletes i t stands =>
    refine ⟨fun e inside => schemed.secured e ?_, schemed.past,
      fun j u stands' e inside conn => ?_, schemed.matched⟩
    · rw [closeConn] at inside
      split at inside
      · exact (mem_filter.mp inside).1
      · exact inside
    · by_cases same : j = i
      · subst same
        cases (w.put_self j _).symm.trans stands'
      · refine schemed.schemes j u ((w.put_other same _).symm.trans stands') e ?_ conn
        rw [closeConn] at inside
        split at inside
        · exact (mem_filter.mp inside).1
        · exact inside

end Schemed

theorem schemed_invariant : (traffic SameScheme).Invariant fun w => Held w ∧ Schemed w :=
  ⟨fun _ starts => starts ▸ ⟨Held.start, Schemed.start⟩,
    fun _ _ ⟨held, schemed⟩ moves => ⟨held.step moves, schemed.step held moves⟩⟩

/-- Where no lookup takes a connection of the other kind, each use matches its scheme. -/
theorem schemes_match {w : World} (reached : (traffic SameScheme).Reachable w) : Matched w.log ∧ w.Apart := by
  obtain ⟨held, schemed⟩ := schemed_invariant.reachable reached
  exact ⟨schemed.matched, held.apart⟩

/-- An outside where each connection opens, takes the whole request and answers without a body. -/
def answering : Surroundings where
  now := 0
  readable _ := false
  fresh := 0
  socket := .opens
  connect := .opened
  sends := [.took 1000, .took 1]
  pulls := []
  rewinds := false
  withinBudget := none
  reads := [.bytes (ascii "HTTP/1.1 204\r\n\r\n")]

/-- A request to port 443 of one host. -/
def request443 : Request where
  domain := [104]
  path := []
  port := 443

theorem logs443 : ((({} : World).begin 0 (httpNew 0 request443 (ascii "GET") true none)).updates
      SameScheme [(0, answering), (0, answering), (0, answering)]).map World.log =
        some [.handshake 0 [104] 443, .uses true [104] 443 0 (some ⟨[104], 443⟩),
          .uses true [104] 443 0 (some ⟨[104], 443⟩)] ∧
    (((({} : World).begin 0 (httpNew 0 request443 (ascii "GET") true none)).updates
      (fun _ _ _ => True) [(0, answering), (0, answering), (0, answering), (0, answering)]).bind fun w =>
          if (w.transfers 1).isNone then
            ((w.begin 1 (httpNew 0 request443 (ascii "GET") false none)).updates
              (fun _ _ _ => True) [(1, answering)]).map World.log
          else none) =
      some [.handshake 0 [104] 443, .uses true [104] 443 0 (some ⟨[104], 443⟩),
        .uses true [104] 443 0 (some ⟨[104], 443⟩), .uses true [104] 443 0 (some ⟨[104], 443⟩),
        .uses false [104] 443 0 none] := by
  decide +kernel

/-- A transfer with TLS opens its connection, and uses it with the session of its handshake. -/
theorem schemes_match_tls : ∃ w, (traffic SameScheme).Reachable w ∧
      w.log = [.handshake 0 [104] 443, .uses true [104] 443 0 (some ⟨[104], 443⟩),
        .uses true [104] 443 0 (some ⟨[104], 443⟩)] ∧ Matched w.log ∧ w.Apart := by
  have begun : (traffic SameScheme).Reachable (({} : World).begin 0
      (httpNew 0 request443 (ascii "GET") true none)) :=
    .step (.start rfl) (.begins 0 0 request443 (ascii "GET") true none rfl)
  obtain ⟨w, runs, log⟩ := map_eq_some_iff.mp logs443.1
  have reached := World.updates_reachable _ begun runs
  exact ⟨w, reached, log, schemes_match reached⟩

/-- A transfer without TLS is sent over the connection that one with TLS has handed back. -/
theorem schemes_mismatched : ∃ w, (traffic fun _ _ _ => True).Reachable w ∧ ¬Matched w.log := by
  have begun : (traffic fun _ _ _ => True).Reachable (({} : World).begin 0
      (httpNew 0 request443 (ascii "GET") true none)) :=
    .step (.start rfl) (.begins 0 0 request443 (ascii "GET") true none rfl)
  obtain ⟨idle, runs, log⟩ := bind_eq_some_iff.mp logs443.2
  split at log
  · rename_i absent
    obtain ⟨w, runs', log⟩ := map_eq_some_iff.mp log
    have handedBack := World.updates_reachable _ begun runs
    have reached := World.updates_reachable _ (handedBack.step (.begins 1 0 request443 (ascii "GET")
      false none (isNone_iff_eq_none.mp absent))) runs'
    refine ⟨w, reached, fun matched => ?_⟩
    -- The last use has no session, on a connection that has had its handshake.
    obtain ⟨_, plain⟩ := matched [.handshake 0 [104] 443, .uses true [104] 443 0 (some ⟨[104], 443⟩),
      .uses true [104] 443 0 (some ⟨[104], 443⟩), .uses true [104] 443 0 (some ⟨[104], 443⟩)]
      (.uses false [104] 443 0 none) [] log
    exact plain [104] 443 mem_cons_self
  · cases log

end Libretro.Http
