import Libretro.Net.HttpHeader
import Mathlib.Data.List.Nodup

/-! The pool of connections of one thread, and where a redirect leads the transfer after it. -/

namespace Libretro.Http

open List

/-- The idle connections that are kept. -/
def poolMaxIdle : Nat := 8

/-- The time a connection may sit idle, in microseconds. -/
def poolIdleTtl : Int := 30 * 1000000

/-- A TLS session, with the host and port that its handshake was completed for. -/
structure Session where
  domain : List UInt8
  port : Nat
  deriving DecidableEq

/-- A connection of the pool, with its address in memory for an identity. -/
structure ConnPoolEntry where
  id : Nat
  domain : List UInt8
  idleSince : Int := 0
  port : Nat
  sslCtx : Option Session := none
  ssl : Bool
  connected : Bool := false
  inUse : Bool := true
  deriving DecidableEq

/-- The pool, in the order of its links. -/
abbrev ConnPool := List ConnPoolEntry

/-- The connection at an address. -/
def ConnPool.entry (pool : ConnPool) (id : Nat) : Option ConnPoolEntry :=
  List.find? (fun e => e.id == id) pool

/-- A connection is unlinked and closed. -/
def connPoolRemove (id : Nat) (pool : ConnPool) : ConnPool := pool.filter fun e => e.id != id

/-- Idle connections are closed past their time, and then those that have become readable. -/
def connPoolRemoveExpired (now : Int) (readable : Nat → Bool) (pool : ConnPool) : ConnPool :=
  let pool := pool.filter fun e => e.inUse || !(e.idleSince + poolIdleTtl < now)
  pool.filter fun e => e.inUse || !readable e.id

/-- A connection becomes the last of the pool, also when it was no part of it. -/
def connPoolMoveToEnd (entry : ConnPoolEntry) (pool : ConnPool) : ConnPool :=
  pool.filter (fun e => e.id != entry.id) ++ [entry]

/-- The first idle connection to a host and port. -/
def ConnPool.idleFor (pool : ConnPool) (domain : List UInt8) (port : Nat) : Option ConnPoolEntry :=
  List.find? (fun e => !e.inUse && port == e.port && e.domain == domain) pool

/-- A connection to a host and port is taken out of those that have not expired. -/
def connPoolFind (now : Int) (readable : Nat → Bool) (domain : List UInt8) (port : Nat)
    (pool : ConnPool) : Option Nat × ConnPool :=
  let pool := connPoolRemoveExpired now readable pool
  match pool.idleFor domain port with
  | some e => (some e.id, connPoolMoveToEnd { e with inUse := true } pool)
  | none => (none, pool)

/-- One connection more is compared with the oldest idle one so far. -/
def older (oldest : Option ConnPoolEntry) (e : ConnPoolEntry) : Option ConnPoolEntry :=
  if e.inUse then oldest
  else
    match oldest with
    | some o => if e.idleSince < o.idleSince then some e else some o
    | none => some e

/-- The connection that has been idle the longest, the first of them in the pool. -/
def ConnPool.oldest (pool : ConnPool) : Option ConnPoolEntry := List.foldl older none pool

/-- The connection at an address is rewritten. -/
def ConnPool.set (pool : ConnPool) (id : Nat) (write : ConnPoolEntry → ConnPoolEntry) : ConnPool :=
  List.map (fun e => if e.id = id then write e else e) pool

/-- A connection is handed back, and past the most that are kept the oldest one is closed. -/
def connPoolRelease (now : Int) (id : Nat) (pool : ConnPool) : ConnPool :=
  let pool := pool.set id fun e => { e with inUse := false, idleSince := now }
  if poolMaxIdle < (pool.filter fun e => !e.inUse).length then
    match pool.oldest with
    | some oldest => connPoolRemove oldest.id pool
    | none => pool
  else pool

/-- A connection that is not connected yet joins the pool, in use. -/
def connPoolAdd (id : Nat) (domain : List UInt8) (port : Nat) (ssl : Bool) (pool : ConnPool) : ConnPool :=
  connPoolMoveToEnd { id := id, domain := domain, port := port, ssl := ssl } pool

/-- No two connections of the pool have one address. -/
def ConnPool.Distinct (pool : ConnPool) : Prop := (List.map ConnPoolEntry.id pool).Nodup

variable {pool : ConnPool}

theorem ConnPool.Distinct.same (distinct : pool.Distinct) {e other : ConnPoolEntry}
    (inside : e ∈ pool) (inside' : other ∈ pool) (ids : e.id = other.id) : e = other :=
  inj_on_of_nodup_map distinct inside inside' ids

theorem ConnPool.entry_some {id : Nat} {e : ConnPoolEntry}
    (stands : pool.entry id = some e) : e ∈ pool ∧ e.id = id :=
  ⟨mem_of_find?_eq_some stands, by simpa using find?_some stands⟩

/-- A change of the pool around one connection: of the others, only idle ones are closed. -/
structure Around (id : Nat) (before after : ConnPool) : Prop where
  distinct : after.Distinct
  kept : ∀ e ∈ after, e.id ≠ id → e ∈ before
  held : ∀ e ∈ before, e.inUse = true → e.id ≠ id → e ∈ after

namespace Around

variable {pool : ConnPool}

theorem refl (distinct : pool.Distinct) (id : Nat) : Around id pool pool :=
  ⟨distinct, fun _ inside _ => inside, fun _ inside _ _ => inside⟩

theorem trans {id : Nat} {first second third : ConnPool} (left : Around id first second)
    (right : Around id second third) : Around id first third :=
  ⟨right.distinct, fun e inside other => left.kept e (right.kept e inside other) other,
    fun e inside inUse other => right.held e (left.held e inside inUse other) inUse other⟩

variable (distinct : pool.Distinct)
include distinct

theorem distinct_filter (keep : ConnPoolEntry → Bool) : ConnPool.Distinct (pool.filter keep) :=
  (filter_sublist.map _).nodup distinct

theorem remove (id : Nat) : Around id pool (connPoolRemove id pool) := by
  refine ⟨distinct_filter distinct _, fun e inside _ => (mem_filter.mp inside).1, ?_⟩
  intro e inside _ other
  exact mem_filter.mpr ⟨inside, by simpa using other⟩

theorem removeExpired (now : Int) (readable : Nat → Bool) (id : Nat) :
    Around id pool (connPoolRemoveExpired now readable pool) := by
  refine ⟨distinct_filter (distinct_filter distinct _) _, fun e inside _ => ?_, fun e inside inUse _ => ?_⟩
  · exact (mem_filter.mp (mem_filter.mp inside).1).1
  · exact mem_filter.mpr ⟨mem_filter.mpr ⟨inside, by simp [inUse]⟩, by simp [inUse]⟩

theorem moveToEnd (entry : ConnPoolEntry) : Around entry.id pool (connPoolMoveToEnd entry pool) := by
  refine ⟨?_, fun e inside other => ?_, fun e inside _ other => ?_⟩
  · -- No connection that stayed has the address of the last one.
    rw [ConnPool.Distinct, connPoolMoveToEnd, map_append, nodup_append]
    refine ⟨distinct_filter distinct _, by simp, ?_⟩
    intro id inside last same
    obtain ⟨e, stays, rfl⟩ := mem_map.mp inside
    have other := (mem_filter.mp stays).2
    simp only [map_cons, map_nil, mem_singleton] at same
    simp_all
  · rcases mem_append.mp inside with stays | last
    · exact (mem_filter.mp stays).1
    · exact absurd (congrArg _ (mem_singleton.mp last)) other
  · exact mem_append.mpr (.inl (mem_filter.mpr ⟨inside, by simpa using other⟩))

/-- A connection is rewritten in its place. -/
theorem set (id : Nat) (write : ConnPoolEntry → ConnPoolEntry) (keeps : ∀ e, (write e).id = e.id) :
    Around id pool (pool.set id write) := by
  refine ⟨?_, fun e inside other => ?_, fun e inside _ other => ?_⟩
  · have ids : map ConnPoolEntry.id (pool.set id write) = map ConnPoolEntry.id pool := by
      simp only [ConnPool.set, map_map]
      apply map_congr_left
      intro e _
      simp only [Function.comp]
      split
      · exact keeps e
      · rfl
    rw [ConnPool.Distinct, ids]
    exact distinct
  · obtain ⟨old, stood, rfl⟩ := mem_map.mp inside
    split at other <;> rename_i same
    · exact absurd ((keeps old).trans same) other
    · rw [if_neg same]
      exact stood
  · exact mem_map.mpr ⟨e, inside, if_neg other⟩

omit distinct

theorem evict {id : Nat} {before after : ConnPool} (around : Around id before after)
    {idle : ConnPoolEntry} (inside : idle ∈ after) (unused : idle.inUse = false) :
    Around id before (connPoolRemove idle.id after) := by
  refine ⟨distinct_filter around.distinct _, fun e stays other => around.kept e (mem_filter.mp stays).1 other,
    fun e stood inUse other => mem_filter.mpr ⟨around.held e stood inUse other, ?_⟩⟩
  -- A connection in use is not the idle one that was closed.
  rw [bne_iff_ne]
  intro same
  have one := around.distinct.same (around.held e stood inUse other) inside same
  rw [one, unused] at inUse
  contradiction

end Around

theorem ConnPool.oldest_idle {oldest : ConnPoolEntry}
    (found : pool.oldest = some oldest) : oldest ∈ pool ∧ oldest.inUse = false := by
  -- What the fold holds so far is idle and of the pool, at each of its steps.
  have fold : ∀ (rest : List ConnPoolEntry) (start : Option ConnPoolEntry),
      (∀ o, start = some o → o ∈ pool ∧ o.inUse = false) → (∀ e ∈ rest, e ∈ pool) →
      ∀ o, rest.foldl older start = some o → o ∈ pool ∧ o.inUse = false := by
    intro rest
    induction rest with
    | nil => exact fun start idle _ o ends => idle o ends
    | cons e rest ih =>
      intro start idle inside
      refine ih _ ?_ fun other stands => inside other (mem_cons_of_mem _ stands)
      intro o step
      simp only [older] at step
      split at step
      · exact idle o step
      · rename_i unused
        have here : e ∈ pool ∧ e.inUse = false := ⟨inside e mem_cons_self, by simpa using unused⟩
        split at step
        · split at step
          · exact Option.some.inj step ▸ here
          · exact idle o step
        · exact Option.some.inj step ▸ here
  exact fold pool none nofun (fun _ inside => inside) oldest found

/-- What stands in the pool after a lookup: one idle connection to the host and port is in use. -/
theorem connPoolFind_some {now : Int} {readable : Nat → Bool} {domain : List UInt8} {port id : Nat}
    {after : ConnPool} (distinct : pool.Distinct)
    (found : connPoolFind now readable domain port pool = (some id, after)) :
    ∃ idle ∈ pool, idle.inUse = false ∧ idle.id = id ∧ idle.domain = domain ∧ idle.port = port ∧
      (connPoolRemoveExpired now readable pool).idleFor domain port = some idle ∧
      { idle with inUse := true } ∈ after ∧ Around id pool after := by
  simp only [connPoolFind] at found
  cases lookup : (connPoolRemoveExpired now readable pool).idleFor domain port with
  | none =>
    rw [lookup] at found
    cases found
  | some idle =>
    rw [lookup] at found
    obtain ⟨rfl, rfl⟩ := found
    have fits := find?_some lookup
    simp only [Bool.and_eq_true, Bool.not_eq_true', beq_iff_eq] at fits
    obtain ⟨⟨unused, port_⟩, domain_⟩ := fits
    have expired := Around.removeExpired distinct now readable idle.id
    have stays : idle ∈ connPoolRemoveExpired now readable pool := mem_of_find?_eq_some lookup
    refine ⟨idle, (mem_filter.mp (mem_filter.mp stays).1).1, unused, rfl, domain_,
      port_.symm, rfl, mem_append.mpr (.inr mem_cons_self), ?_⟩
    exact expired.trans (Around.moveToEnd expired.distinct { idle with inUse := true })

theorem connPoolFind_none {now : Int} {readable : Nat → Bool} {domain : List UInt8} {port : Nat}
    {after : ConnPool} (distinct : pool.Distinct)
    (found : connPoolFind now readable domain port pool = (none, after)) (id : Nat) :
    Around id pool after ∧ ∀ e ∈ after, e ∈ pool := by
  simp only [connPoolFind] at found
  cases lookup : (connPoolRemoveExpired now readable pool).idleFor domain port with
  | some idle =>
    rw [lookup] at found
    cases found
  | none =>
    rw [lookup] at found
    obtain rfl := (Prod.mk.inj found).2
    exact ⟨Around.removeExpired distinct now readable id,
      fun e stays => (mem_filter.mp (mem_filter.mp stays).1).1⟩

theorem connPoolAdd_around (distinct : pool.Distinct) (id : Nat)
    (domain : List UInt8) (port : Nat) (ssl : Bool) :
    Around id pool (connPoolAdd id domain port ssl pool) ∧
      { id := id, domain := domain, port := port, ssl := ssl } ∈ connPoolAdd id domain port ssl pool :=
  ⟨Around.moveToEnd distinct { id := id, domain := domain, port := port, ssl := ssl },
    mem_append.mpr (.inr mem_cons_self)⟩

theorem ConnPool.mem_set {id : Nat} {write : ConnPoolEntry → ConnPoolEntry}
    {e : ConnPoolEntry} (inside : e ∈ pool.set id write) :
    e ∈ pool ∧ e.id ≠ id ∨ ∃ old ∈ pool, old.id = id ∧ e = write old := by
  obtain ⟨old, stood, rfl⟩ := mem_map.mp inside
  split
  · exact .inr ⟨old, stood, ‹_›, rfl⟩
  · exact .inl ⟨stood, ‹_›⟩

/-- A connection that is handed back is idle, unless it is closed at once. -/
theorem connPoolRelease_around (distinct : pool.Distinct) (now : Int) (id : Nat) :
    Around id pool (connPoolRelease now id pool) ∧ ∀ e ∈ connPoolRelease now id pool, e.id = id →
        ∃ old ∈ pool, old.id = id ∧ e = { old with inUse := false, idleSince := now } := by
  have changed := Around.set distinct id (fun e => { e with inUse := false, idleSince := now }) fun _ => rfl
  have handed : ∀ e ∈ pool.set id fun e => { e with inUse := false, idleSince := now },
      e.id = id → ∃ old ∈ pool, old.id = id ∧ e = { old with inUse := false, idleSince := now } := by
    intro e inside here
    rcases ConnPool.mem_set inside with ⟨_, other⟩ | ⟨old, stood, there, rfl⟩
    · exact absurd here other
    · exact ⟨old, stood, there, rfl⟩
  simp only [connPoolRelease]
  split
  · cases found : (pool.set id fun e => { e with inUse := false, idleSince := now }).oldest with
    | none => exact ⟨changed, handed⟩
    | some oldest =>
      obtain ⟨inside, unused⟩ := ConnPool.oldest_idle found
      exact ⟨changed.evict inside unused, fun e stays => handed e (mem_filter.mp stays).1⟩
  · exact ⟨changed, handed⟩

/-- The request; its method and the redirects so far stand with the receive side. -/
structure Request where
  domain : List UInt8
  path : List UInt8
  contenttype : Option (List UInt8) := none
  postdata : Option (List UInt8) := none
  useragent : Option (List UInt8) := none
  headers : Option (List UInt8) := none
  auth : Option (List UInt8) := none
  contentlength : Nat := 0
  source : Bool := false
  sourceRewind : Bool := false
  port : Nat
  deriving DecidableEq

/-- How far the request has been sent. -/
inductive SendPhase
  | none
  | head
  | body
  | flush
  deriving DecidableEq

/-- How far a transfer has got: what its stall bound compares. -/
structure Progress where
  rx : Nat := 0
  tx : Nat := 0
  conn : Bool := false
  connected : Bool := false
  requestSent : Bool := false
  retried : Bool := false
  sendPhase : SendPhase := .none
  part : ResponsePart := .headerTop
  redirects : Nat := 0
  deriving DecidableEq

/-- A transfer: the receive side, the request on its way out and the connection it holds. -/
structure Transfer extends Inbound where
  request : Request
  ssl : Bool
  conn : Option Nat := none
  out : List UInt8 := []
  outOff : Nat := 0
  bodyQueued : Nat := 0
  sendPhase : SendPhase := .none
  requestSent : Bool := false
  blocked : Bool := false
  connReused : Bool := false
  retried : Bool := false
  movedAt : Int := 0
  polledAt : Int := 0
  moved : Progress := {}

/-- A new transfer of a request. -/
def httpNew (now : Int) (request : Request) (method : List UInt8) (ssl : Bool)
    (sink : Option Sink) : Transfer where
  asked := { method := method }
  sink := sink
  request := request
  ssl := ssl
  movedAt := now
  polledAt := now

/-- Nothing of the request is on its way any more. -/
def sendReset (t : Transfer) : Transfer :=
  { t with
    out := []
    outOff := 0
    bodyQueued := 0
    sendPhase := .none }

/-- A field line of the request, when the caller has given its value. -/
def putLine (name : String) : Option (List UInt8) → List UInt8
  | some value => ascii name ++ value ++ ascii "\r\n"
  | none => []

/-- The request line and the header lines. -/
def buildHead (t : Transfer) : List UInt8 :=
  let request := t.request
  let host :=
    if request.port ≠ 0 ∧ request.port ≠ 80 ∧ request.port ≠ 443 then
      ascii ":" ++ ascii (toString request.port)
    else []
  let body :=
    if t.asked.method.head? = some 80 then
      (if request.headers.isNone ∧ request.contenttype.isNone then
        ascii "Content-Type: application/x-www-form-urlencoded\r\n" else []) ++
      ascii "Content-Length: " ++ ascii (toString request.contentlength) ++ ascii "\r\n"
    else []
  t.asked.method ++ ascii " /" ++ request.path ++ ascii " HTTP/1.1\r\nHost: " ++ request.domain ++
    host ++ ascii "\r\n" ++ putLine "Authorization: Basic " request.auth ++
    request.headers.getD [] ++ putLine "Content-Type: " request.contenttype ++ body ++
    ascii "User-Agent: " ++ request.useragent.getD (ascii "libretro") ++ ascii "\r\n\r\n"

/-- The bytes that a request may move in one call. -/
def sendBudget : Nat := 256 * 1024

/-- The most that is pulled from a streamed body at once. -/
def sourceRun : Nat := 64 * 1024

/-- The size of the request's body. -/
def bodyTotal (request : Request) : Nat :=
  if request.source ∨ request.postdata.isSome then request.contentlength else 0

/-- The transport's answer to bytes that are sent or flushed: what it takes, none when full. -/
inductive Sent
  | took (n : Nat)
  | failed
  deriving DecidableEq

/-- What is sent next: a run of bytes, the flush behind the last of them, or a failure. -/
inductive Queued
  | run (t : Transfer) (pulls : List (List UInt8))
  | flush (t : Transfer)
  | short (t : Transfer)

/-- When a run has been sent, the next one is pulled from the source or is the body as a whole. -/
def queueRun (t : Transfer) (pulls : List (List UInt8)) : Queued :=
  if t.outOff ≠ t.out.length then .run t pulls
  else
    let phase := if t.sendPhase = .head then .body else t.sendPhase
    let t := { t with sendPhase := phase }
    if phase = .flush then .flush t
    else if t.bodyQueued = bodyTotal t.request then .flush { t with sendPhase := .flush }
    else if t.request.source then
      let got := pulls.headD []
      let run := min (bodyTotal t.request - t.bodyQueued) sourceRun
      -- The head has promised the length, so a source that stops short fails.
      if got = [] ∨ run < got.length then .short t
      else
        .run { t with
          out := got
          outOff := 0
          bodyQueued := t.bodyQueued + got.length } pulls.tail
    else
      .run { t with
        out := (t.request.postdata.getD []).take (bodyTotal t.request)
        outOff := 0
        bodyQueued := bodyTotal t.request } pulls

/-- The last byte has left, the bytes held by the TLS layer included. -/
def sendFlush (t : Transfer) (answer : Sent) : Transfer × Bool :=
  if t.ssl then
    match answer with
    | .failed => ({ t with err := true }, true)
    | .took 0 => ({ t with blocked := true }, false)
    | .took _ => ({ sendReset t with requestSent := true }, false)
  else ({ sendReset t with requestSent := true }, false)

/-- The slices that one call sends, and how often it used the transport for them. -/
def sendSlices : List Sent → List (List UInt8) → Nat → Transfer → Transfer × Bool × Nat
  | answers, pulls, budget, t =>
    match queueRun t pulls with
    | .short t => ({ t with err := true }, true, 0)
    | .flush t =>
      let (t', failed) := sendFlush t (answers.headD (.took 0))
      (t', failed, if t.ssl then 1 else 0)
    | .run t pulls =>
      if budget = 0 then (t, false, 0)
      else
        match answers with
        | [] => ({ t with blocked := true }, false, 1)
        | .failed :: _ => ({ t with err := true }, true, 1)
        | .took 0 :: _ => ({ t with blocked := true }, false, 1)
        | .took n :: answers =>
          let sent := min n (min (t.out.length - t.outOff) budget)
          let (t, failed, uses) :=
            sendSlices answers pulls (budget - sent) { t with outOff := t.outOff + sent }
          (t, failed, uses + 1)

/-- A request without the body that its head announces cannot be sent. -/
def postWithoutPayload (t : Transfer) : Prop :=
  t.asked.method.take 2 = ascii "PO" ∧ t.request.postdata = none ∧ t.request.source = false ∧
    0 < t.request.contentlength

instance (t : Transfer) : Decidable (postWithoutPayload t) := inferInstanceAs (Decidable (_ ∧ _ ∧ _ ∧ _))

/-- The request is sent a slice at a time; `true` when that failed. -/
def sendRequest (answers : List Sent) (pulls : List (List UInt8)) (t : Transfer) : Transfer × Bool × Nat :=
  if t.sendPhase = .none then
    if postWithoutPayload t then ({ t with err := true }, true, 0)
    else
      sendSlices answers pulls sendBudget { t with
        out := buildHead t
        outOff := 0
        bodyQueued := 0
        sendPhase := .head }
  else sendSlices answers pulls sendBudget t

open Option

/-- The bytes before the first of a set: `strcspn`. -/
def strcspn (text : List UInt8) (set : String) : Nat :=
  (text.takeWhile fun b => !(ascii set).contains b).length

/-- The length of the scheme that opens a URL, none for anything but the two. -/
def schemeLen (s : List UInt8) : Nat :=
  if sameNoCase s (ascii "http://") then 7
  else if sameNoCase s (ascii "https://") then 8
  else 0

/-- Bytes that are appended while they fit with a NUL behind them. -/
def joinPut (size : Nat) (dst src : List UInt8) : Option (List UInt8) :=
  if src.length ≥ size - dst.length then none else some (dst ++ src)

/-- The segments of a path without the dots among them, with a bound on their number. -/
def dotSegments : Nat → List UInt8 → List UInt8 → List UInt8
  | 0, _, out => out
  | _, [], out => out
  | fuel + 1, slash :: rest, out =>
    let seg := rest.takeWhile (· ≠ 47)
    let next := rest.drop seg.length
    let closing := if next = [] then [47] else []
    if seg = [46] then dotSegments fuel next (out ++ closing)
    else if seg = [46, 46] then
      -- The segment before goes, with the slash that opened it.
      dotSegments fuel next (((out.reverse.dropWhile (· ≠ 47)).drop 1).reverse ++ closing)
    else dotSegments fuel next (out ++ slash :: seg)

/-- The dot segments of a path are removed, up to its query or fragment. -/
def removeDotSegments (path : List UInt8) : List UInt8 :=
  let n := strcspn path "?#"
  dotSegments (n + 1) (path.take n) [] ++ path.drop n

/-- A letter of a scheme, of which the first is none but a letter. -/
def isScheme (first : Bool) (b : UInt8) : Bool :=
  (97 ≤ b && b ≤ 122) || (65 ≤ b && b ≤ 90) ||
    (!first && ((48 ≤ b && b ≤ 57) || b == 43 || b == 45 || b == 46))

/-- The letters of the scheme that a reference starts with. -/
def schemeRun : List UInt8 → Nat
  | [] => 0
  | b :: rest => if isScheme true b then 1 + (rest.takeWhile (isScheme false)).length else 0

/-- A reference without a scheme of its own is joined onto a URL. -/
def joinRelative (size : Nat) (base : List UInt8) (schemed : Nat) (ref : List UInt8) : Option (List UInt8) :=
  let authEnd := schemed + strcspn (base.drop schemed) "/?#"
  let pathEnd := authEnd + strcspn (base.drop authEnd) "?#"
  if ref = [] then joinPut size [] base
  else if ref.take 2 = ascii "//" then
    (joinPut size [] (base.take (schemed - 2))).bind fun dst => joinPut size dst ref
  else if ref.head? = some 47 then
    (joinPut size [] (base.take authEnd)).bind fun dst => joinPut size dst ref
  else if ref.head? = some 63 ∨ ref.head? = some 35 then
    let keep := if ref.head? = some 63 then pathEnd
      else authEnd + strcspn (base.drop authEnd) "#"
    (joinPut size [] (base.take keep)).bind fun dst => joinPut size dst ref
  else
    -- The last segment of the base's path is replaced.
    let path := (base.drop authEnd).take (pathEnd - authEnd)
    let kept := (path.reverse.dropWhile (· ≠ 47)).reverse
    let front := if kept ≠ [] then joinPut size [] (base.take authEnd ++ kept)
      else (joinPut size [] (base.take authEnd)).bind fun dst => joinPut size dst (ascii "/")
    front.bind fun dst => joinPut size dst ref

/-- A reference is resolved against a URL; one with a scheme replaces it. -/
def urlJoin (size : Nat) (base ref : List UInt8) : Option (List UInt8) :=
  if schemeLen base = 0 then none
  else
    let run := schemeRun ref
    let absolute := run ≠ 0 ∧ ref.getD run 0 = 58
    if absolute ∧ schemeLen ref = 0 then none
    else
      let joined :=
        if absolute then joinRelative size ref (schemeLen ref) []
        else joinRelative size base (schemeLen base) ref
      joined.map fun dst =>
        let start := schemeLen dst + strcspn (dst.drop (schemeLen dst)) "/?#"
        if (dst.drop start).head? = some 47 then
          dst.take start ++ removeDotSegments (dst.drop start)
        else dst

/-- The lines of the caller's headers without those that carry credentials. -/
def dropCredentialsFrom : Nat → List UInt8 → List UInt8
  | 0, lines => lines
  | _, [] => []
  | fuel + 1, lines =>
    let line := match splitLine lines with
      | some (line, _) => line ++ [10]
      | none => lines
    let kept :=
      if sameNoCase lines (ascii "Authorization:") ∨ sameNoCase lines (ascii "Cookie:") then []
      else line
    kept ++ dropCredentialsFrom fuel (lines.drop line.length)

/-- The caller's headers without those that carry credentials. -/
def headersDropCredentials (headers : List UInt8) : List UInt8 := dropCredentialsFrom headers.length headers

/-- The digits of a port, refused for anything else and past the largest one. -/
def portFrom : List UInt8 → Nat → Option Nat
  | [], port => if port < 1 ∨ port > 65535 then none else some port
  | d :: rest, port =>
    if d < 48 ∨ d > 57 ∨ port > 6553 then none else portFrom rest (port * 10 + (d.toNat - 48))

/-- The place that a URL names: scheme, host, port and path. -/
structure Target where
  ssl : Bool
  domain : List UInt8
  port : Nat
  path : List UInt8
  deriving DecidableEq

/-- The host of an authority, and what stands behind its colon. -/
def hostPort (authority : List UInt8) : Option (List UInt8 × Option (List UInt8)) :=
  if authority.head? = some 91 then
    let inner := authority.takeWhile (· ≠ 93)
    let behind := authority.drop (inner.length + 1)
    if inner.length = authority.length ∨ inner.length = 1 then none
    else
      match behind with
      | [] => some (inner ++ [93], none)
      | 58 :: digits => some (inner ++ [93], some digits)
      | _ => none
  else
    let host := authority.takeWhile (· ≠ 58)
    if host = [] then none
    else if host.length = authority.length then some (host, none)
    else some (host, some (authority.drop (host.length + 1)))

/-- The port behind a host's colon, or the one of the scheme. -/
def portOf (tls : Bool) : Option (List UInt8) → Option Nat
  | some digits => portFrom digits 0
  | none => some (if tls then 443 else 80)

/-- The place that a URL with or without TLS names behind its scheme. -/
def place (tls : Bool) (host : List UInt8) : Option Target := do
  let authority := host.take (strcspn host "/?#")
  let behind := host.drop authority.length
  let behind := behind.take (strcspn behind "#")
  let (domain, digits) ← hostPort authority
  let port ← portOf tls digits
  some {
    ssl := tls
    domain := domain
    port := port
    path := if behind.head? = some 47 then behind.tail else behind }

/-- The place that a resolved URL names; a redirect out of TLS is never followed. -/
def target (ssl : Bool) (url : List UInt8) : Option Target :=
  let tls := url.getD 4 0 == 115 || url.getD 4 0 == 83
  if ssl && !tls then none
  else place tls (url.drop (if tls then 8 else 7))

/-- The response starts again, with the memory that its buffer has. -/
def responseAgain (response : Response) : Response :=
  { response with
    toHead := { headersClear response.toHead with
      part := .headerTop
      status := -1
      len := 0
      contentLen := 0
      hdrBytes := 0
      bodytype := .full }
    data := response.data.take (64 * 1024)
    buflen := 64 * 1024
    pos := 0
    flushed := 0 }

/-- Credentials stay with the host and port that the caller gave them for. -/
def keepsCredentials (t : Transfer) (there : Target) : Bool :=
  (t.request.domain.length == there.domain.length && sameNoCase there.domain t.request.domain) &&
    (there.port == t.request.port || (!t.ssl && there.ssl && t.request.port == 80 && there.port == 443))

/-- The transfer is set on the place that a redirect leads to. -/
def retarget (t : Transfer) (there : Target) : Transfer :=
  let request :=
    if keepsCredentials t there then t.request
    else { t.request with
      headers := t.request.headers.map headersDropCredentials
      auth := none }
  { sendReset t with
    request := { request with
      domain := there.domain
      path := there.path
      port := there.port }
    ssl := there.ssl
    requestSent := false
    retried := false
    response := responseAgain t.response }

/-- A redirect is followed, unless its body cannot start again or it leads nowhere. -/
def redirect (rewinds : Bool) (location : List UInt8) (t : Transfer) : Transfer × Bool :=
  let fails := ({ t with err := true }, true)
  if t.request.source ∧ t.request.contentlength ≠ 0 ∧ ¬(t.request.sourceRewind ∧ rewinds) then fails
  else
    let base := ascii (if t.ssl then "https" else "http") ++ ascii "://" ++ t.request.domain ++
      ascii ":" ++ ascii (toString t.request.port) ++ ascii "/" ++ t.request.path
    let baseSize := 16 + t.request.domain.length + t.request.path.length
    match (urlJoin (baseSize + location.length + 1) base location).bind (target t.ssl) with
    | none => fails
    | some there => (retarget t there, false)

theorem place_ssl {tls : Bool} {host : List UInt8} {there : Target}
    (names : place tls host = some there) : there.ssl = tls := by
  simp only [place, bind_eq_bind, bind_eq_some_iff] at names
  obtain ⟨_, _, _, _, there_⟩ := names
  rw [← some.inj there_]

theorem target_ssl {url : List UInt8} {there : Target} (names : target true url = some there) :
    there.ssl = true := by
  cases tls : url.getD 4 0 == 115 || url.getD 4 0 == 83 with
  | false =>
    simp only [target, tls] at names
    cases names
  | true =>
    simp only [target, tls] at names
    exact place_ssl names

theorem redirect_spec (rewinds : Bool) (location : List UInt8) (t : Transfer) :
    redirect rewinds location t = ({ t with err := true }, true) ∨
      ∃ there, redirect rewinds location t = (retarget t there, false) ∧
        (t.ssl = true → there.ssl = true) := by
  simp only [redirect]
  split
  · exact .inl rfl
  · split
    · exact .inl rfl
    · rename_i there found
      refine .inr ⟨there, rfl, fun ssl => ?_⟩
      obtain ⟨url, _, names⟩ := bind_eq_some_iff.mp found
      rw [ssl] at names
      exact target_ssl names

/-- The time without progress that fails a transfer, in microseconds. -/
def stallTimeout : Int := 60 * 1000000

/-- The time between two updates past which nobody was driving the transfer. -/
def stallPollGap : Int := 1000000

/-- The bytes that one update receives at most, and the most of one read. -/
def drainBudget : Nat := 256 * 1024

/-- The reads of one update. -/
def drainMaxIters : Nat := 256

/-- The answer to a transfer that needs a socket: none to be had, a name not known yet, or one. -/
inductive SocketAnswer
  | fails
  | waits
  | opens
  deriving DecidableEq

/-- The answer to a socket that connects: its name is gone, no address answers, or it is up. -/
inductive ConnectAnswer
  | missing
  | refused
  | opened
  deriving DecidableEq

/-- What the outside answers in one update: clock, resolver, sockets, the caller and the peer. -/
structure Surroundings where
  now : Int
  readable : Nat → Bool
  fresh : Nat
  socket : SocketAnswer
  connect : ConnectAnswer
  sends : List Sent
  pulls : List (List UInt8)
  rewinds : Bool
  withinBudget : Option (Nat → Bool)
  reads : List Received

/-- What a transfer does with its connection. -/
inductive Event
  | handshake (conn : Nat) (domain : List UInt8) (port : Nat)
  | uses (ssl : Bool) (domain : List UInt8) (port : Nat) (conn : Nat) (session : Option Session)
  deriving DecidableEq

/-- What one update leaves: the transfer, the pool, whether it is done, and what it reported. -/
structure Updated where
  transfer : Transfer
  pool : ConnPool
  done : Bool
  events : List Event := []
  progress : Option (Nat × Nat) := none

/-- A send or a receive on a connection, with the TLS session that it goes through. -/
def use (t : Transfer) (e : ConnPoolEntry) : Event :=
  .uses t.ssl t.request.domain t.request.port e.id (if t.ssl then e.sslCtx else none)

/-- How far a transfer has got. -/
def progressSoFar (connected : Bool) (t : Transfer) : Progress where
  rx := t.response.flushed + t.response.pos
  tx := t.bodyQueued + t.outOff
  conn := t.conn.isSome
  connected := connected
  requestSent := t.requestSent
  retried := t.retried
  sendPhase := t.sendPhase
  part := t.response.part
  redirects := t.asked.redirects

/-- Whether a transfer has moved nothing for too long of the time it was driven. -/
def stalled (now : Int) (connected : Bool) (t : Transfer) : Transfer × Bool :=
  let movedAt := if now - t.polledAt > stallPollGap then t.movedAt + (now - t.polledAt) else t.movedAt
  let t := { t with movedAt := movedAt, polledAt := now }
  if progressSoFar connected t ≠ t.moved then
    ({ t with moved := progressSoFar connected t, movedAt := now }, false)
  else (t, decide (now - t.movedAt > stallTimeout))

/-- A transfer that is given up. -/
def giveUp (t : Transfer) : Transfer :=
  { t with
    conn := none
    err := true
    response := { t.response with part := .done, status := -1 } }

/-- The connection that a transfer holds is closed. -/
def closeConn (t : Transfer) (pool : ConnPool) : ConnPool :=
  match t.conn with
  | some id => connPoolRemove id pool
  | none => pool

/-- A request that failed on a reused connection goes out once more, on a connection of its own. -/
def retryFresh (rewinds : Bool) (pool : ConnPool) (t : Transfer) : Option (Transfer × ConnPool) :=
  if !t.connReused || t.retried || t.response.pos != 0 || t.response.hdrBytes != 0 then none
  else if t.request.source && !(t.request.sourceRewind && rewinds) then none
  else
    some ({ sendReset t with
      conn := none
      connReused := false
      retried := true
      err := false
      requestSent := false
      response := { t.response with
        part := .headerTop
        pos := 0
        len := 0
        status := -1 } }, closeConn t pool)

/-- A transfer without a connection looks for an idle one, unless its request goes out again. -/
def lookUp (env : Surroundings) (pool : ConnPool) (t : Transfer) : Option Nat × ConnPool :=
  if t.retried then (none, pool)
  else connPoolFind env.now env.readable t.request.domain t.request.port pool

/-- A transfer that found no connection gets a socket, or waits for its name. -/
def newSocket (env : Surroundings) (pool : ConnPool) (t : Transfer) : Updated :=
  match env.socket with
  | .fails => ⟨{ t with err := true, blocked := false }, pool, true, [], none⟩
  | .waits => ⟨{ t with blocked := true }, pool, false, [], none⟩
  | .opens =>
    ⟨{ t with conn := some env.fresh, blocked := true },
      connPoolAdd env.fresh t.request.domain t.request.port t.ssl pool, false, [], none⟩

/-- A connection is up, with a TLS session when the transfer asks for one. -/
def connected (t : Transfer) (e : ConnPoolEntry) : ConnPoolEntry :=
  { e with
    connected := true
    sslCtx := if t.ssl then some ⟨t.request.domain, t.request.port⟩ else e.sslCtx }

/-- The socket of a transfer connects, or the transfer fails. -/
def connect (env : Surroundings) (id : Nat) (pool : ConnPool) (t : Transfer) : Updated :=
  match env.connect with
  | .missing => ⟨{ t with err := true, blocked := false }, pool, true, [], none⟩
  | .refused =>
    ⟨{ t with conn := none, err := true, blocked := false }, connPoolRemove id pool, true, [], none⟩
  | .opened =>
    ⟨{ t with blocked := true }, pool.set id (connected t), false,
      if t.ssl then [.handshake id t.request.domain t.request.port] else [], none⟩

/-- The request goes on its way, and once more if a reused connection fails it. -/
def send (env : Surroundings) (e : ConnPoolEntry) (pool : ConnPool) (t : Transfer) : Updated :=
  let (after, failed, count) := sendRequest env.sends env.pulls t
  let events := List.replicate count (use t e)
  match (if failed then retryFresh env.rewinds pool after else none) with
  | some (again, pool) => ⟨again, pool, false, events, none⟩
  | none => ⟨after, pool, after.err, events, none⟩

/-- How the reads of one update ended. -/
inductive DrainEnd
  | stopped (blocked : Bool)
  | headerFailed
  | bodyFailed
  deriving DecidableEq

/-- Whether the caller's window lets another read begin. -/
def goesOnReading (withinBudget : Option (Nat → Bool)) (iters : Nat) : Bool :=
  match withinBudget with
  | some within => within iters
  | none => true

/-- The most that the next read may bring. -/
def readWindow (timed : Bool) (drained : Nat) (x : Inbound) : Nat :=
  min (x.response.buflen - x.response.pos) (if timed then drainBudget else drainBudget - drained)

/-- The transport brings no more than it was asked for, and never a read of no bytes. -/
def Received.fits (came : Received) (window : Nat) : Bool :=
  match came with
  | .bytes piece => piece != [] && piece.length ≤ window
  | _ => true

/-- The reads of one update, and how many of them there were. -/
def drain (withinBudget : Option (Nat → Bool)) : List Received → Nat → Nat → Inbound →
    Option (Inbound × DrainEnd × Nat)
  | reads, drained, iters, x =>
    if goesOnReading withinBudget iters = false then some (x, .stopped false, 0)
    else
      match growWindow x with
      | (x, false) => some (x, .stopped false, 0)
      | (x, true) =>
        -- A read below the floor is left to the next update.
        if withinBudget.isNone ∧ drained ≠ 0 ∧ drainBudget - drained < minRecvWindow then
          some (x, .stopped false, 0)
        else if (reads.headD .nothing).fits (readWindow withinBudget.isSome drained x) = false then
          none
        else do
          let (x, ended) ← receive x (reads.headD .nothing)
          match ended with
          | .headerFailed => some (x, .headerFailed, 1)
          | .bodyFailed => some (x, .bodyFailed, 1)
          | .came len =>
            if x.response.part = .done ∨ x.err then some (x, .stopped false, 1)
            else if len ≤ 0 then some (x, .stopped (len == 0), 1)
            else
              match reads with
              | [] => some (x, .stopped false, 1)
              | _ :: reads =>
                let drained := drained + len.toNat
                if (withinBudget.isNone ∧ drainBudget ≤ drained) ∨ drainMaxIters ≤ iters + 1 then
                  some (x, .stopped false, 1)
                else do
                  let (x, how, count) ← drain withinBudget reads drained (iters + 1) x
                  some (x, how, count + 1)
  termination_by structural reads => reads

/-- How far the response has come, and how far it goes when that is known. -/
def progressOf (x : Inbound) : Nat × Nat :=
  (x.response.flushed + x.response.pos, if x.response.bodytype = .len then x.response.contentLen else 0)

/-- A response that is over hands its connection back, unless it closes it. -/
def handBack (now : Int) (id : Nat) (pool : ConnPool) (t : Transfer) : ConnPool :=
  if t.response.connClose then connPoolRemove id pool else connPoolRelease now id pool

/-- A redirect is followed as often as the limit allows. -/
def follow (rewinds : Bool) (t : Transfer) : Transfer × Bool :=
  if 300 ≤ t.response.status ∧ t.response.status < 400 ∧ t.response.location ≠ 0 then
    if maxRedirects ≤ t.asked.redirects then ({ t with err := true }, true)
    else
      redirect rewinds (cstring (t.response.hdr.drop (t.response.location - 1)))
        { t with asked := { t.asked with redirects := t.asked.redirects + 1 } }
  else (t, true)

/-- What follows the reads of an update. -/
def afterReads (env : Surroundings) (id : Nat) (pool : ConnPool) (events : List Event)
    (t : Transfer) : Updated :=
  let progress := some (progressOf t.toInbound)
  if t.response.part ≠ .done then ⟨t, pool, false, events, progress⟩
  else
    let pool := handBack env.now id pool t
    let (t, done) := follow env.rewinds { t with conn := none }
    ⟨t, pool, done, events, progress⟩

/-- The response is received as far as it has arrived. -/
def receiving (env : Surroundings) (e : ConnPoolEntry) (pool : ConnPool) (t : Transfer) : Option Updated := do
  let (x, how, count) ← drain env.withinBudget env.reads 0 0 t.toInbound
  let events := List.replicate count (use t e)
  let t := { t with toInbound := x }
  match how with
  | .headerFailed =>
    match retryFresh env.rewinds pool t with
    | some (again, pool) => some ⟨again, pool, false, events, none⟩
    | none => some ⟨giveUp t, connPoolRemove e.id pool, true, events, none⟩
  | .bodyFailed => some ⟨giveUp t, connPoolRemove e.id pool, true, events, none⟩
  | .stopped blocked => some (afterReads env e.id pool events { t with blocked := blocked })

/-- An update of a transfer that holds a connection. -/
def onConnection (env : Surroundings) (e : ConnPoolEntry) (pool : ConnPool) (t : Transfer) : Option Updated :=
  if e.connected = false then some (connect env e.id pool t)
  else if t.requestSent = false then some (send env e pool t)
  else receiving env e pool t

/-- Whether the connection that a transfer holds is up. -/
def isConnected (pool : ConnPool) (t : Transfer) : Bool :=
  ((t.conn.bind pool.entry).map ConnPoolEntry.connected).getD false

/-- One update of a transfer; none where its connection is not in the pool any more. -/
def update (env : Surroundings) (pool : ConnPool) (t : Transfer) : Option Updated :=
  if t.err then some ⟨t, pool, true, [], none⟩
  else
    let (t, late) := stalled env.now (isConnected pool t) t
    if late then some ⟨giveUp t, closeConn t pool, true, [], none⟩
    else
      let t := { t with blocked := false }
      match t.conn with
      | some id => (pool.entry id).bind fun e => onConnection env e pool t
      | none =>
        let (found, pool) := lookUp env pool t
        let t := { t with conn := found, connReused := found.isSome }
        match found with
        | some id => (pool.entry id).bind fun e => onConnection env e pool t
        | none => some (newSocket env pool t)

end Libretro.Http
