import Libretro.Net.HttpHeader

/-! A receive of body bytes, chunked or not, leaves the transfer where reading leaves the reader. -/

namespace Libretro.Http

open List Option Inbound
open Stage hiding tail

/-- Every run is taken by the sink, if there is one. -/
def Inbound.Accepts (x : Inbound) : Prop := ∀ sink, x.sink = some sink → ∀ handed run, sink handed run = true

/-- The decoded bytes that stay in the buffer. -/
def Inbound.front (x : Inbound) (body : List UInt8) : List UInt8 := if x.bodyStreams then [] else body

/-- The decoded bytes that the sink is owed. -/
def Inbound.sunk (x : Inbound) (body : List UInt8) : List UInt8 :=
  if x.sink.isSome && !x.response.discard then body else []

/-- The bytes of a receive that the stage takes for its own. -/
def Stage.own (piece : List UInt8) : Stage → List UInt8
  | .counted left => piece.take left
  | _ => piece

/-- The part of the response at a stage. -/
def Stage.part (h : Head) : Stage → ResponsePart
  | .lines _ => h.part
  | .untilClose | .counted _ | .chunk _ => .body
  | .sizeLine _ => .bodyChunklen
  | .complete | .refused => .done

/-- What `len` counts at a stage: decoded bytes, all bytes of the body, or a chunk's rest. -/
def Stage.len (h : Head) (front : Nat) : Stage → Nat
  | .lines _ => h.len
  | .untilClose | .sizeLine _ => front
  | .counted left => front + left
  | .chunk left => left
  | .complete | .refused => 0

/-- A stage agrees with the header that announced it. -/
def Stage.Fits (h : Head) : Stage → Prop
  | .lines line => h.part.inHeader = true ∧ 10 ∉ line ∧ h.hdrBytes + line.length ≤ maxHeaderBytes
  | .untilClose => h.bodytype = .full
  | .counted left => h.bodytype = .len ∧ 0 < left
  | .sizeLine raw => h.bodytype = .chunk ∧ 10 ∉ raw.drop 2
  | .chunk left => h.bodytype = .chunk ∧ 0 < left
  | .complete | .refused => True

/-- The transfer stands where the reader stands, with bytes behind its cursor. -/
structure Holds (x : Inbound) (v : Reader) (piece : List UInt8) : Prop where
  noError : x.err = false
  accepts : x.Accepts
  head : x.response.toHead = { v.head with
    part := v.stage.part v.head
    len := v.stage.len v.head (x.front v.body).length }
  data : x.front v.body ++ v.stage.tail ++ v.stage.own piece <+: x.response.data
  pos : x.response.pos = (x.front v.body ++ v.stage.tail).length
  inside : x.response.data.length ≤ x.response.buflen
  sized : 0 < x.response.buflen
  counted : ∀ left, v.stage = .counted left → x.bodyStreams = false →
    (x.front v.body).length + left ≤ x.response.buflen
  handed : x.handed.flatten = x.sunk v.body
  flushed : x.response.flushed = x.handed.flatten.length

/-- A response read to its end: the body is in the buffer or with the sink. -/
structure Finished (x : Inbound) (v : Reader) : Prop where
  noError : x.err = false
  head : x.response.toHead = { v.head with
    part := .done
    len := x.response.len
    connClose := x.response.connClose }
  closes : v.head.connClose = true → x.response.connClose = true
  inside : x.response.data.length ≤ x.response.buflen
  kept : x.sink = none → x.response.data.take x.response.len = x.front v.body
  handed : x.handed.flatten = x.sunk v.body

/-- A response that failed: nothing but the status and the header block is kept of it. -/
structure Failed (x : Inbound) (v : Reader) : Prop where
  err : x.err = true
  part : x.response.part = .done
  status : x.response.status = v.head.status
  hdr : x.response.hdr = v.head.hdr
  inside : x.response.data.length ≤ x.response.buflen
  handed : x.handed.flatten <+: x.sunk v.body

/-- The transfer is where the reader is. -/
def Mirrors (x : Inbound) (v : Reader) : Prop :=
  match v.stage with
  | .complete => Finished x v
  | .refused => Failed x v
  | _ => Holds x v []

variable {x : Inbound}

theorem Inbound.front_streams (streams : x.bodyStreams = true) (body : List UInt8) : x.front body = [] := by
  simp [front, streams]

theorem Inbound.front_buffered (buffered : ¬ x.bodyStreams = true)
    (body : List UInt8) : x.front body = body := by
  simp [front, buffered]

theorem Inbound.sunk_buffered (buffered : ¬ x.bodyStreams = true) (body : List UInt8) : x.sunk body = [] := by
  simp only [bodyStreams, Bool.or_eq_true, not_or, Bool.not_eq_true] at buffered
  simp [sunk, buffered.1]

theorem Inbound.sunk_append (x : Inbound) (body fresh : List UInt8) :
    x.sunk (body ++ fresh) = x.sunk body ++ x.sunk fresh := by
  by_cases sinks : x.sink.isSome && !x.response.discard <;> simp [sunk, sinks]

/-- What a flush leaves: the runs of the sink, their number of bytes, and nothing else changed. -/
theorem sinkFlush_spec (accepts : x.Accepts) (streams : x.bodyStreams = true)
    {run : List UInt8} (stands : run <+: x.response.data)
    (flushed : x.response.flushed = x.handed.flatten.length) :
    ∃ handed, sinkFlush x run.length = some ({ x with
        handed := handed
        response := { x.response with flushed := handed.flatten.length } }, true) ∧
      handed.flatten = x.handed.flatten ++ x.sunk run := by
  by_cases spared : run.length = 0 ∨ x.response.discard
  · refine ⟨x.handed, by rw [sinkFlush, if_pos spared, ← flushed], ?_⟩
    rcases spared with empty | discard
    · rw [length_eq_zero_iff.mp empty]
      simp [sunk]
    · simp [sunk, discard]
  · rw [not_or] at spared
    obtain ⟨sink, given⟩ : ∃ sink, x.sink = some sink := by
      have := streams
      simp only [bodyStreams, spared.2, Bool.or_false, isSome_iff_exists] at this
      exact this
    obtain ⟨rest, stands⟩ := stands
    have loaded : load x.response.data 0 run.length = some run := load_at [] run rest stands.symm
    refine ⟨x.handed ++ [run], ?_, ?_⟩
    · simp [sinkFlush, spared, given, loaded, accepts sink given, flushed]
    · simp [sunk, given, spared.2]

/-- The request and the sink are the same. -/
structure Keeps (x after : Inbound) : Prop where
  sink : after.sink = x.sink
  asked : after.asked = x.asked

variable {after : Inbound}

theorem Keeps.trans {y : Inbound} (first : Keeps x y) (second : Keeps y after) : Keeps x after :=
  ⟨second.sink.trans first.sink, second.asked.trans first.asked⟩

theorem front_same (sink : after.sink = x.sink)
    (head : after.response.discard = x.response.discard) (body : List UInt8) :
    after.front body = x.front body := by
  simp [front, bodyStreams, sink, head]

theorem sunk_same (sink : after.sink = x.sink)
    (head : after.response.discard = x.response.discard) (body : List UInt8) :
    after.sunk body = x.sunk body := by
  simp [sunk, sink, head]

theorem Inbound.front_length (x : Inbound) (body : List UInt8) : (x.front body).length ≤ body.length := by
  rw [front]
  split <;> simp

/-- What handing off leaves: the cursor, the runs and the size of the buffer may have moved. -/
structure Drained (x after : Inbound) (body : List UInt8) : Prop where
  err : after.err = x.err
  sink : after.sink = x.sink
  asked : after.asked = x.asked
  head : after.response.toHead = x.response.toHead
  data : after.response.data = x.response.data
  buflen : after.response.buflen = x.response.buflen
  pos : after.response.pos = (x.front body).length
  handed : after.handed.flatten = x.sunk body
  flushed : after.response.flushed = after.handed.flatten.length

/-- The decoded bytes that a receive has added stay in the buffer or go to the sink. -/
theorem drainFront_spec (body fresh : List UInt8) (accepts : x.Accepts)
    (stands : x.front body ++ fresh <+: x.response.data)
    (pos : x.response.pos = (x.front body ++ fresh).length) (handed : x.handed.flatten = x.sunk body)
    (flushed : x.response.flushed = x.handed.flatten.length) :
    ∃ after, drainFront x = some (after, true) ∧ Drained x after (body ++ fresh) ∧
      x.front (body ++ fresh) <+: x.response.data := by
  by_cases streams : x.bodyStreams
  · have empty := front_streams streams
    rw [empty, nil_append] at stands pos
    obtain ⟨runs, flushes, gained⟩ := sinkFlush_spec accepts streams stands flushed
    have total : runs.flatten = x.sunk (body ++ fresh) := by rw [gained, handed, x.sunk_append]
    refine ⟨{ x with
      handed := runs
      response := { x.response with pos := 0, flushed := runs.flatten.length } }, ?_,
      ⟨rfl, rfl, rfl, rfl, rfl, rfl, by simp [empty], total, rfl⟩, ?_⟩
    · rw [drainFront, if_pos streams, pos, flushes]
      rfl
    · rw [empty]
      exact nil_prefix
  · have all := front_buffered streams
    rw [all] at stands pos
    refine ⟨x, by rw [drainFront, if_neg streams],
      ⟨rfl, rfl, rfl, rfl, rfl, rfl, by rw [all, pos], ?_, flushed⟩, by rwa [all]⟩
    rw [handed, sunk_buffered streams, sunk_buffered streams]

/-- What the reader has not handed over to anyone: its body and the bytes not understood. -/
def Reader.held (v : Reader) : Nat := v.body.length + v.stage.tail.length

variable {v : Reader}

/-- A buffer that is full is grown while it has room under the cap, and nothing else changes. -/
theorem Holds.checkGrow (holds : Holds x v []) : ∃ after ok, checkGrow x = (after, ok) ∧ Keeps x after ∧
      (if ok then Holds after v [] else maxContentLength < v.held) := by
  have own : v.stage.own [] = [] := by cases v.stage <;> simp [own]
  have fits : x.response.pos ≤ x.response.buflen := by
    have bounded := holds.data.length_le
    rw [own, append_nil, ← holds.pos] at bounded
    exact le_trans bounded holds.inside
  have few : x.response.pos ≤ v.held := by
    have := x.front_length v.body
    have := holds.pos
    simp only [length_append, Reader.held] at this ⊢
    omega
  have sized := holds.sized
  by_cases full : x.response.pos ≥ x.response.buflen
  · by_cases room : min (x.response.buflen * 2) maxBuffer ≤ x.response.pos
    · -- The cap keeps the buffer from growing.
      refine ⟨{ x with err := true }, false, by simp [Http.checkGrow, full, room], ⟨rfl, rfl⟩, ?_⟩
      simp only [maxBuffer, maxContentLength, minRecvWindow] at room few ⊢
      simp only [Bool.false_eq_true, if_false]
      omega
    · have larger : x.response.buflen ≤ min (x.response.buflen * 2) maxBuffer := by omega
      refine ⟨{ x with response := { x.response with
        buflen := min (x.response.buflen * 2) maxBuffer } }, true, by
          simp [Http.checkGrow, full, room], ⟨rfl, rfl⟩, ?_⟩
      exact { holds with
        inside := le_trans holds.inside larger
        sized := lt_of_lt_of_le holds.sized larger
        counted := fun left isCounted streams =>
          le_trans (holds.counted left isCounted streams) larger }
  · exact ⟨x, true, by simp [Http.checkGrow, full], ⟨rfl, rfl⟩, holds⟩

/-- A body that stays open behind what was handed off mirrors its reader. -/
theorem Drained.holds (was : Drained x after v.body) (noError : x.err = false) (accepts : x.Accepts)
    (head : x.response.toHead = { v.head with
      part := v.stage.part v.head
      len := v.stage.len v.head (x.front v.body).length })
    (whole : v.stage.tail = []) (stands : x.front v.body <+: x.response.data)
    (inside : x.response.data.length ≤ x.response.buflen) (sized : 0 < x.response.buflen)
    (counted : ∀ left, v.stage = .counted left → x.bodyStreams = false →
      (x.front v.body).length + left ≤ x.response.buflen) :
    Holds after v [] := by
  have discard : after.response.discard = x.response.discard := congrArg Head.discard was.head
  have front := front_same was.sink discard
  have own : v.stage.own [] = [] := by cases v.stage <;> simp [own]
  refine ⟨was.err.trans noError, ?_, ?_, ?_, ?_, ?_, ?_, ?_, ?_, was.flushed⟩
  · intro sink given
    exact accepts sink (was.sink ▸ given)
  · rw [was.head, head, front]
  · rw [front, whole, own, append_nil, append_nil, was.data]
    exact stands
  · rw [was.pos, front, whole, append_nil]
  · rwa [was.data, was.buflen]
  · rwa [was.buflen]
  · intro left isCounted streams
    rw [front, was.buflen]
    apply counted left isCounted
    rwa [bodyStreams, ← was.sink, ← discard]
  · rw [sunk_same was.sink discard]
    exact was.handed

/-- A body that ends is in the buffer or with the sink as a whole. -/
theorem bodyEnds_finished (body fresh : List UInt8) (noError : x.err = false) (accepts : x.Accepts)
    (head : x.response.toHead = { v.head with
      part := .done
      len := x.response.len
      connClose := x.response.connClose })
    (closes : v.head.connClose = true → x.response.connClose = true)
    (stands : x.front body ++ fresh <+: x.response.data)
    (pos : x.response.pos = (x.front body ++ fresh).length) (len : x.response.len = x.response.pos)
    (inside : x.response.data.length ≤ x.response.buflen) (handed : x.handed.flatten = x.sunk body)
    (flushed : x.response.flushed = x.handed.flatten.length) (whole : v.body = body ++ fresh) :
    ∃ after, bodyEnds x = some (after, true) ∧ Keeps x after ∧ Finished after v := by
  by_cases streams : x.bodyStreams
  · have empty := front_streams streams
    rw [empty, nil_append] at stands pos
    obtain ⟨runs, flushes, gained⟩ := sinkFlush_spec accepts streams stands flushed
    have total : runs.flatten = x.sunk v.body := by rw [gained, handed, whole, x.sunk_append]
    have ends : bodyEnds x = some ({ x with
        handed := runs
        response := { x.response with
          pos := 0
          len := runs.flatten.length
          flushed := runs.flatten.length } }, true) := by
      rw [bodyEnds, if_pos streams, pos, flushes]
      rfl
    refine ⟨_, ends, ⟨rfl, rfl⟩, noError, ?_, closes, inside, ?_, total⟩
    · show { x.response.toHead with len := runs.flatten.length } = { v.head with
        part := .done, len := runs.flatten.length, connClose := x.response.connClose }
      rw [head]
    · intro nobody
      -- Without a sink the body was discarded, and no byte of it was handed off.
      have none_ : runs.flatten = [] := by
        rw [total, sunk, show x.sink = none from nobody]
        rfl
      show x.response.data.take runs.flatten.length = x.front v.body
      rw [none_, empty]
      rfl
  · have all := front_buffered streams
    rw [all] at stands pos
    have kept : x.response.data.take x.response.len = v.body := by
      rw [len, pos, whole]
      exact (prefix_iff_eq_take.mp stands).symm
    have total : x.handed.flatten = x.sunk v.body := by
      rw [handed, sunk_buffered streams, sunk_buffered streams]
    by_cases shrinks : x.response.buflen ≠ x.response.len ∧ 0 < x.response.len
    · have ends : bodyEnds x = some ({ x with response := { x.response with
          data := x.response.data.take x.response.len } }, true) := by
        rw [bodyEnds, if_neg streams, if_pos shrinks]
      refine ⟨_, ends, ⟨rfl, rfl⟩, noError, head, closes, ?_, ?_, total⟩
      · exact le_trans (length_take_le' _ _) inside
      · intro _
        show (x.response.data.take x.response.len).take x.response.len = x.front v.body
        rw [take_take, Nat.min_self, kept, all]
    · refine ⟨x, by rw [bodyEnds, if_neg streams, if_neg shrinks], ⟨rfl, rfl⟩, noError, head, closes,
        inside, ?_, total⟩
      intro _
      rw [kept, all]

theorem Drained.full {drained : Inbound} {body : List UInt8} (was : Drained x drained body)
    (kept : x.bodyStreams = false → x.response.len = (x.front body).length) :
    Drained { x with response := { x.response with len := (x.front body).length } }
      (if true && drained.bodyStreams then
        { drained with response := { drained.response with len := 0 } }
      else drained) body := by
  have streams : drained.bodyStreams = x.bodyStreams := by
    rw [bodyStreams, bodyStreams, was.sink, congrArg Head.discard was.head]
  rw [Bool.true_and, streams]
  by_cases handsOff : x.bodyStreams
  · rw [if_pos handsOff]
    refine ⟨was.err, was.sink, was.asked, ?_, was.data, was.buflen, was.pos, was.handed, was.flushed⟩
    show { drained.response.toHead with len := 0 } = _
    rw [was.head]
    simp [front, handsOff]
  · rw [if_neg handsOff]
    refine ⟨was.err, was.sink, was.asked, ?_, was.data, was.buflen, was.pos, was.handed, was.flushed⟩
    rw [was.head, ← kept (by simpa using handsOff)]

variable {piece : List UInt8}

/-- A body that lasts until the close takes what a receive has brought. -/
theorem receiveFull_holds (asked : Asked) (holds : Holds x v piece) (stands : v.stage = .untilClose) :
    ∃ after ok, receiveFull x piece.length = some (after, ok) ∧ Keeps x after ∧
      (if ok then Holds after (v.read asked piece) []
      else maxContentLength < (v.read asked piece).held) := by
  obtain ⟨noError, accepts, head, data, pos, inside, sized, -, handed, flushed⟩ := holds
  simp only [stands, Stage.tail, own, part, len, append_nil] at head data pos
  obtain ⟨drained, drains, was, stays⟩ := drainFront_spec
    (x := { x with response := { x.response with
      pos := x.response.pos + piece.length
      len := x.response.pos + piece.length } })
    v.body piece accepts data (by simp [pos]; rfl) handed flushed
  obtain ⟨counted, same, counts⟩ : ∃ counted, _ = counted ∧ Drained _ counted _ :=
    ⟨_, rfl, was.full fun buffered => by
      have all : x.bodyStreams = false := buffered
      show x.response.pos + piece.length = (x.front (v.body ++ piece)).length
      rw [pos, front, front, all]
      simp⟩
  have goesOn : Holds counted (v.read asked piece) [] := by
    rw [Reader.read_untilClose stands]
    refine Drained.holds counts (by exact noError) (by exact accepts) ?_ ?_ stays inside sized ?_
    · simp only [stands, part, len]
      show { x.response.toHead with len := (x.front (v.body ++ piece)).length } =
        { v.head with part := .body, len := (x.front (v.body ++ piece)).length }
      rw [head]
    · simp [stands, Stage.tail]
    · intro left isCounted
      simp [stands] at isCounted
  obtain ⟨after, ok, grows, keeps, grown⟩ := goesOn.checkGrow
  refine ⟨after, ok, ?_, Keeps.trans ⟨counts.sink, counts.asked⟩ keeps, grown⟩
  rw [receiveFull]
  simp only [drains, bind_eq_bind, bind_some, bodyGoesOn, if_true, same, grows]

/-- A body of announced length that a receive completes ends with what is its own. -/
theorem receiveLength_finished (body piece : List UInt8) (left : Nat)
    (noError : x.err = false) (accepts : x.Accepts) (head : x.response.toHead = { v.head with
      part := .body
      len := (x.front body).length + left }) (data : x.front body ++ piece.take left <+: x.response.data)
    (pos : x.response.pos = (x.front body).length) (inside : x.response.data.length ≤ x.response.buflen)
    (handed : x.handed.flatten = x.sunk body)
    (flushed : x.response.flushed = x.handed.flatten.length) (reaches : left ≤ piece.length)
    (whole : v.body = body ++ piece.take left) :
    ∃ after, receiveLength x piece.length = some (after, true) ∧ Keeps x after ∧ Finished after v := by
  have own : (piece.take left).length = left := by rw [length_take, Nat.min_eq_left reaches]
  have len : x.response.len = (x.front body).length + left := by
    have field := congrArg Head.len head
    exact field
  -- What passes the length is dropped, and with it the connection.
  obtain ⟨closes, keeps, stops⟩ : ∃ closes : Bool, (x.response.connClose = true → closes = true) ∧
      receiveLength x piece.length = bodyEnds { x with response := { x.response with
        pos := x.response.len
        connClose := closes
        part := .done } } := by
    by_cases more : left < piece.length
    · refine ⟨true, fun _ => rfl, ?_⟩
      simp [receiveLength, pos, len, more]
    · have exactly_ : piece.length = left := by omega
      refine ⟨x.response.connClose, id, ?_⟩
      simp [receiveLength, pos, len, exactly_]
  have fields : { x.response.toHead with part := .done, connClose := closes } = { v.head with
      part := .done, len := x.response.len, connClose := closes } := by
    rw [len, head]
  have announced : v.head.connClose = true → closes = true := by
    have field := congrArg Head.connClose head
    exact fun announced => keeps (Eq.trans (by exact field) announced)
  obtain ⟨after, ends, kept, finished⟩ := bodyEnds_finished (x := { x with
      response := { x.response with
        pos := x.response.len
        connClose := closes
        part := .done } }) body (piece.take left) noError accepts fields
    announced data (by rw [length_append, own]; exact len) rfl inside handed flushed whole
  exact ⟨after, stops.trans ends, ⟨kept.sink, kept.asked⟩, finished⟩

theorem receiveLength_ends (asked : Asked)
    {left : Nat} (holds : Holds x v piece) (stands : v.stage = .counted left) (positive : 0 < left)
    (reaches : left ≤ piece.length) :
    ∃ after, receiveLength x piece.length = some (after, true) ∧ Keeps x after ∧
      Finished after (v.read asked piece) := by
  obtain ⟨noError, accepts, head, data, pos, inside, sized, -, handed, flushed⟩ := holds
  simp only [stands, Stage.tail, own, part, len, append_nil] at head data pos
  rw [Reader.read_counted stands positive, if_pos reaches]
  exact receiveLength_finished v.body piece left noError accepts head data pos inside handed flushed reaches rfl

/-- A body of announced length that a receive leaves short goes on behind its bytes. -/
theorem receiveLength_holds (asked : Asked)
    {left : Nat} (holds : Holds x v piece) (stands : v.stage = .counted left)
    (short : piece.length < left) :
    ∃ after ok, receiveLength x piece.length = some (after, ok) ∧ Keeps x after ∧
      (if ok then Holds after (v.read asked piece) []
      else maxContentLength < (v.read asked piece).held) := by
  obtain ⟨noError, accepts, head, data, pos, inside, sized, counted, handed, flushed⟩ := holds
  simp only [stands, Stage.tail, own, part, len, append_nil,
    take_of_length_le (Nat.le_of_lt short)] at head data pos
  have len : x.response.len = (x.front v.body).length + left := congrArg Head.len head
  have bounded := counted left stands
  have notMore : ¬ x.response.pos + piece.length > x.response.len := by omega
  have notAll : ¬ x.response.pos + piece.length = x.response.len := by omega
  -- The buffer as it stands when the length has been brought down by what was handed off.
  obtain ⟨drained, stops, was, stays⟩ : ∃ drained, receiveLength x piece.length = some (checkGrow drained) ∧
      Drained { x with response := { x.response with
        len := (x.front (v.body ++ piece)).length + (left - piece.length) } } drained
        (v.body ++ piece) ∧ x.front (v.body ++ piece) <+: x.response.data := by
    by_cases streams : x.bodyStreams
    · have empty := front_streams streams
      rw [empty] at len pos data
      simp only [length_nil, Nat.zero_add, nil_append] at len pos data
      obtain ⟨runs, flushes, gained⟩ := sinkFlush_spec
        (x := { x with response := { x.response with pos := x.response.pos + piece.length } })
        accepts streams data flushed
      have total : runs.flatten = x.sunk (v.body ++ piece) := by
        rw [gained, x.sunk_append, ← handed]
        rfl
      refine ⟨{ x with
        handed := runs
        response := { x.response with
          len := left - piece.length
          pos := 0
          flushed := runs.flatten.length } }, ?_,
        ⟨rfl, rfl, rfl, ?_, rfl, rfl, ?_, total, rfl⟩, ?_⟩
      · have through : ({ x with response := { x.response with
            pos := x.response.pos + piece.length } } : Inbound).bodyStreams = true := streams
        simp only [receiveLength, if_neg notMore, if_neg notAll, if_pos through]
        rw [pos, Nat.zero_add] at flushes ⊢
        rw [flushes]
        simp only [bind_eq_bind, bind_some, if_true, len]
      · show { x.response.toHead with len := left - piece.length } = { x.response.toHead with
          len := (x.front (v.body ++ piece)).length + (left - piece.length) }
        rw [empty, length_nil, Nat.zero_add]
      · show 0 = (x.front (v.body ++ piece)).length
        rw [empty, length_nil]
      · rw [empty]
        exact nil_prefix
    · have all := front_buffered streams
      rw [all] at len pos data
      refine ⟨{ x with response := { x.response with pos := x.response.pos + piece.length } }, ?_,
        ⟨rfl, rfl, rfl, ?_, rfl, rfl, ?_, ?_, flushed⟩, by rwa [all]⟩
      · have through : ¬ ({ x with response := { x.response with
            pos := x.response.pos + piece.length } } : Inbound).bodyStreams = true := streams
        simp only [receiveLength, if_neg notMore, if_neg notAll, if_neg through]
      · show x.response.toHead = { x.response.toHead with
          len := (x.front (v.body ++ piece)).length + (left - piece.length) }
        have same : (x.front (v.body ++ piece)).length + (left - piece.length) = x.response.len := by
          rw [all, len, length_append]
          omega
        rw [same]
      · show x.response.pos + piece.length = (x.front (v.body ++ piece)).length
        rw [all, pos, length_append]
      · show x.handed.flatten = x.sunk (v.body ++ piece)
        rw [handed, sunk_buffered streams, sunk_buffered streams]
  have goesOn : Holds drained (v.read asked piece) [] := by
    rw [Reader.read_counted stands (by omega), if_neg (by omega),
      take_of_length_le (Nat.le_of_lt short)]
    refine Drained.holds was (by exact noError) (by exact accepts) ?_ rfl stays inside sized ?_
    · show { x.response.toHead with
        len := (x.front (v.body ++ piece)).length + (left - piece.length) } = { v.head with
        part := .body
        len := (x.front (v.body ++ piece)).length + (left - piece.length) }
      rw [head]
    · intro left' isCounted streams
      obtain rfl : left - piece.length = left' := by simpa using isCounted
      have plain : x.bodyStreams = false := streams
      have buffered : ¬ x.bodyStreams = true := by simp [plain]
      have room := bounded plain
      rw [front_buffered buffered] at room
      show (x.front (v.body ++ piece)).length + (left - piece.length) ≤ x.response.buflen
      rw [front_buffered buffered, length_append]
      omega
  obtain ⟨after, ok, grows, keeps, grown⟩ := goesOn.checkGrow
  exact ⟨after, ok, by rw [stops, grows], Keeps.trans ⟨was.sink, was.asked⟩ keeps, grown⟩

/-- A step of the receive side that mirrors its reader, or fails where the reader does. -/
def Answers (x : Inbound) (v : Reader) (result : Option (Inbound × Bool)) : Prop :=
  ∃ after ok, result = some (after, ok) ∧ Keeps x after ∧ (if ok then Mirrors after v
    else v.held ≤ maxContentLength →
      v.stage = .refused ∧ v.head.status = -1 ∧ after.response.hdr = v.head.hdr ∧
      after.response.data.length ≤ after.response.buflen ∧
      after.handed.flatten <+: after.sunk v.body)

variable {x : Inbound} {v : Reader}

theorem Holds.mirrors (holds : Holds x v [])
    (going : v.stage ≠ .complete ∧ v.stage ≠ .refused) : Mirrors x v := by
  rw [Mirrors]
  cases stands : v.stage with
  | complete => exact absurd stands going.1
  | refused => exact absurd stands going.2
  | _ => exact holds

theorem grown_answers {after : Inbound} {ok : Bool} (keeps : Keeps x after)
    (grown : if ok then Holds after v [] else maxContentLength < v.held)
    (going : v.stage ≠ .complete ∧ v.stage ≠ .refused) : Answers x v (some (after, ok)) := by
  refine ⟨after, ok, rfl, keeps, ?_⟩
  cases ok with
  | true => exact Holds.mirrors grown going
  | false => exact fun small => absurd small (Nat.not_le_of_lt grown)

theorem goesOn_answers {drained : Inbound} (holds : Holds drained v [])
    (keeps : Keeps x drained) (going : v.stage ≠ .complete ∧ v.stage ≠ .refused) :
    Answers x v (some (bodyGoesOn drained true)) := by
  obtain ⟨after, ok, grows, same, grown⟩ := holds.checkGrow
  simp only [bodyGoesOn, if_true, grows]
  exact grown_answers (keeps.trans same) grown going

variable {y : Inbound}

theorem chunk_answers (body fresh : List UInt8) {left : Nat}
    (keeps : Keeps x y) (noError : y.err = false) (accepts : y.Accepts)
    (head : y.response.toHead = { v.head with part := .body, len := left })
    (stands : v.stage = .chunk left) (whole : v.body = body ++ fresh)
    (data : y.front body ++ fresh <+: y.response.data)
    (pos : y.response.pos = (y.front body ++ fresh).length)
    (inside : y.response.data.length ≤ y.response.buflen) (sized : 0 < y.response.buflen)
    (handed : y.handed.flatten = y.sunk body) (flushed : y.response.flushed = y.handed.flatten.length) :
    Answers x v (do
      let (x, ok) ← drainFront y
      some (bodyGoesOn x ok)) := by
  obtain ⟨drained, drains, was, stays⟩ := drainFront_spec body fresh accepts data pos handed flushed
  rw [← whole] at was stays
  have holds : Holds drained v [] := by
    refine was.holds noError accepts ?_ (by simp [stands, Stage.tail]) stays inside sized ?_
    · rw [head, stands]
      rfl
    · intro left' isCounted
      simp [stands] at isCounted
  simp only [drains, bind_eq_bind, bind_some]
  exact goesOn_answers holds (keeps.trans ⟨was.sink, was.asked⟩) (by simp [stands])

theorem last_answers (body fresh : List UInt8)
    (keeps : Keeps x y) (noError : y.err = false) (accepts : y.Accepts)
    (head : y.response.toHead = { v.head with part := .done, len := y.response.len })
    (stands : v.stage = .complete) (whole : v.body = body ++ fresh)
    (data : y.front body ++ fresh <+: y.response.data)
    (pos : y.response.pos = (y.front body ++ fresh).length) (len : y.response.len = y.response.pos)
    (inside : y.response.data.length ≤ y.response.buflen) (handed : y.handed.flatten = y.sunk body)
    (flushed : y.response.flushed = y.handed.flatten.length) :
    Answers x v (bodyEnds y) := by
  have closes : y.response.connClose = v.head.connClose := by
    have same := congrArg Head.connClose head
    exact same
  obtain ⟨after, ends, same, finished⟩ := bodyEnds_finished (v := v) body fresh noError accepts
    (by rw [closes]; exact head) (fun announced => closes.trans announced) data pos len inside
    handed flushed whole
  refine ⟨after, true, ends, keeps.trans same, ?_⟩
  rw [if_pos rfl, Mirrors, stands]
  exact finished

theorem drainTail_spec (accepts : y.Accepts) {body fresh tail : List UInt8}
    (data : y.front body ++ fresh ++ tail <+: y.response.data)
    (len : y.response.len = (y.front body ++ fresh).length)
    (pos : y.response.pos = (y.front body ++ fresh ++ tail).length)
    (handed : y.handed.flatten = y.sunk body) (flushed : y.response.flushed = y.handed.flatten.length) :
    ∃ after, drainTail y tail.length = some (after, true) ∧ after.err = y.err ∧
      Keeps y after ∧ after.response.buflen = y.response.buflen ∧
      after.response.toHead = { y.response.toHead with
        len := (y.front (body ++ fresh)).length } ∧
      y.front (body ++ fresh) ++ tail <+: after.response.data ∧
      after.response.pos = (y.front (body ++ fresh) ++ tail).length ∧
      after.response.data.length = y.response.data.length ∧
      after.handed.flatten = y.sunk (body ++ fresh) ∧
      after.response.flushed = after.handed.flatten.length := by
  by_cases streams : y.bodyStreams
  · have empty := Inbound.front_streams streams
    rw [empty, nil_append] at data len pos
    obtain ⟨rest, stands⟩ := data
    obtain ⟨runs, flushes, gained⟩ := sinkFlush_spec accepts streams
      (show fresh <+: y.response.data from ⟨tail ++ rest, by rw [← stands, append_assoc]⟩)
      flushed
    -- The tail slides over the bytes that were handed off.
    have width := congrArg List.length stands
    simp only [length_append] at width
    obtain ⟨moved, moves, length, front, _⟩ := memmove_moved y.response.data
      (show 0 + tail.length ≤ y.response.data.length by omega)
      (show fresh.length + tail.length ≤ y.response.data.length by omega)
    have slid : moved.take tail.length = tail := by
      rw [Nat.zero_add] at front
      rw [front, ← stands, append_assoc, drop_left, take_left]
      simp
    refine ⟨{ y with
      handed := runs
      response := { y.response with
        data := moved
        pos := tail.length
        len := 0
        flushed := runs.flatten.length } }, ?_, rfl, ⟨rfl, rfl⟩, rfl, ?_, ?_, ?_, length, ?_, rfl⟩
    · rw [drainTail, if_pos streams, len, flushes]
      simp only [bind_eq_bind, bind_some, if_true, len, moves]
    · rw [empty]
      rfl
    · rw [empty, nil_append, prefix_iff_eq_take]
      exact slid.symm
    · rw [empty]
      rfl
    · rw [y.sunk_append, ← handed]
      exact gained
  · have all := Inbound.front_buffered streams
    rw [all] at data len pos
    refine ⟨y, by rw [drainTail, if_neg streams], rfl, ⟨rfl, rfl⟩, rfl, ?_, by rwa [all], by rwa [all],
      rfl, ?_, flushed⟩
    · rw [all, ← len]
    · rw [handed, Inbound.sunk_buffered streams, Inbound.sunk_buffered streams]

theorem starved_answers (body fresh : List UInt8) {tail : List UInt8}
    (keeps : Keeps x y) (noError : y.err = false) (accepts : y.Accepts)
    (head : y.response.toHead = { v.head with part := .bodyChunklen, len := y.response.len })
    (stands : v.stage = .sizeLine tail) (whole : v.body = body ++ fresh)
    (data : y.front body ++ fresh ++ tail <+: y.response.data)
    (len : y.response.len = (y.front body ++ fresh).length)
    (pos : y.response.pos = (y.front body ++ fresh ++ tail).length)
    (inside : y.response.data.length ≤ y.response.buflen) (sized : 0 < y.response.buflen)
    (handed : y.handed.flatten = y.sunk body) (flushed : y.response.flushed = y.handed.flatten.length) :
    Answers x v (do
      let (x, ok) ← drainTail y tail.length
      some (bodyGoesOn x ok)) := by
  obtain ⟨after, drains, err, same, buflen, fields, stays, at_, length, total, counts⟩ :=
    drainTail_spec accepts data len pos handed flushed
  have discard : after.response.discard = y.response.discard := by
    have field := congrArg Head.discard fields
    exact field
  have front := front_same same.sink discard
  have holds : Holds after v [] := by
    refine ⟨err.trans noError, fun given taken => accepts given (same.sink ▸ taken), ?_, ?_, ?_, ?_, ?_,
      ?_, ?_, counts⟩
    · rw [fields, head, front, whole, stands]
      rfl
    · rw [front, whole, stands]
      simpa [Stage.tail, Stage.own] using stays
    · rw [front, whole, stands]
      exact at_
    · rwa [length, buflen]
    · rwa [buflen]
    · intro left isCounted
      simp [stands] at isCounted
    · rw [total, sunk_same same.sink discard, whole]
  simp only [drains, bind_eq_bind, bind_some]
  exact goesOn_answers holds (keeps.trans same) (by simp [stands])

variable {asked : Asked}

theorem receiveChunks_answers
    (body fresh : List UInt8) {raw : List UInt8} (keeps : Keeps x y) (noError : y.err = false)
    (accepts : y.Accepts)
    (head : y.response.toHead = { v.head with part := .bodyChunklen, len := y.response.len })
    (stands : v.stage = .sizeLine []) (whole : v.body = body ++ fresh)
    (data : y.front body ++ fresh ++ raw <+: y.response.data)
    (len : y.response.len = (y.front body ++ fresh).length)
    (pos : y.response.pos = (y.front body ++ fresh ++ raw).length)
    (inside : y.response.data.length ≤ y.response.buflen) (sized : 0 < y.response.buflen)
    (handed : y.handed.flatten = y.sunk body) (flushed : y.response.flushed = y.handed.flatten.length) :
    Answers x (v.read asked raw) (receiveChunks y) := by
  obtain ⟨rest, cut⟩ := data
  have front : y.response.data.take y.response.len = y.front body ++ fresh := by
    rw [len, ← cut, append_assoc, take_left]
  have behind : y.response.data.drop y.response.len = raw ++ rest := by
    rw [len, ← cut, append_assoc, drop_left]
  have width := congrArg List.length cut
  rw [length_append, ← pos] at width
  have ends : y.response.len + raw.length = y.response.pos := by rw [len, pos, ← length_append]
  obtain ⟨found, passes, follows⟩ := dechunk_follows asked y.response.pos
    (y.response.pos + 1) v y.response.data raw rest y.response.len y.response.len (by omega) stands
    (le_refl _) behind (by omega) ends
  rw [receiveChunks]
  simp only [passes, bind_eq_bind, bind_some]
  cases found with
  | refused =>
    obtain ⟨decoded, said⟩ := follows
    rw [said]
    refine ⟨headerFails y, false, rfl, ⟨keeps.sink, keeps.asked⟩, ?_⟩
    have hdr := congrArg Head.hdr head
    refine fun _ => ⟨rfl, rfl, by exact hdr, inside, ?_⟩
    show y.handed.flatten <+: y.sunk (v.body ++ decoded)
    rw [handed, whole, append_assoc, y.sunk_append]
    exact prefix_append _ _
  | last data' out' =>
    obtain ⟨decoded, said, length, within, decodes⟩ := follows
    rw [said]
    rw [front, append_assoc] at decodes
    have placed := congrArg List.length decodes
    rw [length_take, Nat.min_eq_left (by omega)] at placed
    have stays : y.front body ++ (fresh ++ decoded) <+: data' := by
      rw [← decodes]
      exact take_prefix _ _
    refine last_answers (v := { v with stage := .complete, body := v.body ++ decoded })
      body (fresh ++ decoded) ⟨keeps.sink, keeps.asked⟩ noError accepts ?_ rfl ?_ stays placed rfl
      (by rw [length]; exact inside) handed flushed
    · show { y.response.toHead with part := .done, len := out' } =
        { v.head with part := .done, len := out' }
      rw [head]
    · show v.body ++ decoded = body ++ (fresh ++ decoded)
      rw [whole, append_assoc]
  | straddles data' out' left =>
    obtain ⟨decoded, said, positive, length, within, decodes⟩ := follows
    rw [said]
    rw [front, append_assoc] at decodes
    have placed := congrArg List.length decodes
    rw [length_take, Nat.min_eq_left (by omega)] at placed
    have stays : y.front body ++ (fresh ++ decoded) <+: data' := by
      rw [← decodes]
      exact take_prefix _ _
    refine chunk_answers (v := { v with stage := .chunk left, body := v.body ++ decoded })
      body (fresh ++ decoded) ⟨keeps.sink, keeps.asked⟩ noError accepts ?_ rfl ?_ stays placed
      (by rw [length]; exact inside) sized handed flushed
    · show { y.response.toHead with part := .body, len := left } =
        { v.head with part := .body, len := left }
      rw [head]
    · show v.body ++ decoded = body ++ (fresh ++ decoded)
      rw [whole, append_assoc]
  | starved data' out' start' =>
    obtain ⟨decoded, tail, after, said, unbroken, holds, stops, length, before, decodes⟩ := follows
    rw [said]
    rw [front, append_assoc] at decodes
    have reach := congrArg List.length holds
    simp only [length_drop, length_append] at reach
    have placed := congrArg List.length decodes
    rw [length_take, Nat.min_eq_left (by omega)] at placed
    have leftover : y.response.pos - start' = tail.length := by omega
    obtain ⟨moved, moves, same, slid, _⟩ := memmove_moved data'
      (show out' + tail.length ≤ data'.length by omega)
      (show start' + tail.length ≤ data'.length by omega)
    rw [decodes, holds, take_left] at slid
    have stays : y.front body ++ (fresh ++ decoded) ++ tail <+: moved := by
      rw [← slid]
      exact take_prefix _ _
    simp only [leftover, moves, bind_some]
    refine starved_answers (v := { v with stage := .sizeLine tail, body := v.body ++ decoded })
      body (fresh ++ decoded) ⟨keeps.sink, keeps.asked⟩ noError accepts ?_ rfl ?_ stays placed ?_
      ?_ sized handed flushed
    · show { y.response.toHead with len := out', part := .bodyChunklen } =
        { v.head with part := .bodyChunklen, len := out' }
      rw [head]
    · show v.body ++ decoded = body ++ (fresh ++ decoded)
      rw [whole, append_assoc]
    · show out' + tail.length = (y.front body ++ (fresh ++ decoded) ++ tail).length
      rw [length_append, ← placed]
    · show moved.length ≤ y.response.buflen
      omega

variable {piece : List UInt8}

theorem receiveChunked_size {tail : List UInt8}
    (holds : Holds x v piece) (stands : v.stage = .sizeLine tail) (unbroken : 10 ∉ tail.drop 2) :
    Answers x (v.read asked piece) (receiveChunked x piece.length) := by
  obtain ⟨noError, accepts, head, data, pos, inside, sized, -, handed, flushed⟩ := holds
  simp only [stands, Stage.tail, Stage.own, Stage.part, Stage.len] at head data pos
  -- The line is read again from its start.
  have again : v.read asked piece =
      ({ v with stage := .sizeLine [] } : Reader).read asked (tail ++ piece) := by
    rw [Reader.read_append, Reader.read_sizeLine rfl tail (by simpa using unbroken)]
    congr 1
    rw [nil_append, ← stands]
  have part : x.response.part ≠ .body := by
    have field := congrArg Head.part head
    rw [show x.response.part = .bodyChunklen from field]
    simp
  have len : x.response.len = (x.front v.body).length := by
    have field := congrArg Head.len head
    exact field
  rw [again]
  rw [receiveChunked]
  simp only [if_neg part]
  refine receiveChunks_answers (v := { v with stage := .sizeLine [] }) v.body
    [] ⟨rfl, rfl⟩ noError accepts ?_ rfl (by simp) ?_ ?_ ?_ inside sized handed flushed
  · show x.response.toHead = { v.head with part := .bodyChunklen, len := x.response.len }
    rw [len, head]
  · show x.front v.body ++ [] ++ (tail ++ piece) <+: x.response.data
    rwa [append_nil, ← append_assoc]
  · show x.response.len = (x.front v.body ++ []).length
    rw [append_nil, len]
  · show x.response.pos + piece.length = (x.front v.body ++ [] ++ (tail ++ piece)).length
    rw [pos, append_nil, ← append_assoc, @length_append _ (x.front v.body ++ tail)]

theorem receiveChunked_chunk
    {left : Nat} (holds : Holds x v piece) (stands : v.stage = .chunk left) (positive : 0 < left) :
    Answers x (v.read asked piece) (receiveChunked x piece.length) := by
  obtain ⟨noError, accepts, head, data, pos, inside, sized, -, handed, flushed⟩ := holds
  simp only [stands, Stage.tail, Stage.own, Stage.part, Stage.len, append_nil] at head data pos
  have part : x.response.part = .body := by
    have field := congrArg Head.part head
    exact field
  have len : x.response.len = left := by
    have field := congrArg Head.len head
    exact field
  rw [Reader.read_chunk stands positive]
  rw [receiveChunked]
  simp only [if_pos part, len]
  by_cases short : piece.length < left
  · simp only [if_pos short]
    refine chunk_answers v.body piece ⟨rfl, rfl⟩ noError accepts ?_ rfl rfl data ?_
      inside sized handed flushed
    · show { x.response.toHead with len := left - piece.length } =
        { v.head with part := .body, len := left - piece.length }
      rw [head]
    · show x.response.pos + piece.length = (x.front v.body ++ piece).length
      rw [pos, length_append]
  · simp only [if_neg short]
    have own : (piece.take left).length = left := by
      rw [length_take]
      omega
    refine receiveChunks_answers (v := { v with
        stage := .sizeLine []
        body := v.body ++ piece.take left }) v.body (piece.take left) ⟨rfl, rfl⟩
      noError accepts ?_ rfl rfl ?_ ?_ ?_ inside sized handed flushed
    · show { x.response.toHead with part := .bodyChunklen, len := x.response.pos + left } =
        { v.head with part := .bodyChunklen, len := x.response.pos + left }
      rw [head]
    · show x.front v.body ++ piece.take left ++ piece.drop left <+: x.response.data
      rwa [append_assoc, take_append_drop]
    · show x.response.pos + left = (x.front v.body ++ piece.take left).length
      rw [length_append, own, pos]
    · show x.response.pos + left + (piece.length - left) =
        (x.front v.body ++ piece.take left ++ piece.drop left).length
      rw [append_assoc, take_append_drop, length_append, pos]
      omega

/-- A receive of body bytes is answered as their reading one by one is. -/
theorem receiveBody_answers (holds : Holds x v piece) (fits : v.stage.Fits v.head)
    (inBody : ∀ line, v.stage ≠ .lines line) (going : v.stage ≠ .complete ∧ v.stage ≠ .refused) :
    Answers x (v.read asked piece) (receiveBody x piece.length) := by
  have kind : x.response.bodytype = v.head.bodytype := by
    have field := congrArg Head.bodytype holds.head
    exact field
  have open_ : ¬ ((piece.length : Int) < 0 ∨ x.err = true) := by
    rw [holds.noError]
    simp
  rw [receiveBody, if_neg open_, kind, Int.toNat_natCast]
  cases stands : v.stage with
  | lines line => exact absurd stands (inBody line)
  | complete => exact absurd stands going.1
  | refused => exact absurd stands going.2
  | untilClose =>
    rw [stands] at fits
    rw [show v.head.bodytype = .full from fits]
    obtain ⟨after, ok, takes, keeps, grown⟩ := receiveFull_holds asked holds stands
    simp only [takes]
    apply grown_answers keeps grown
    rw [Reader.read_untilClose stands, stands]
    simp
  | counted left =>
    rw [stands] at fits
    obtain ⟨counted, positive⟩ := fits
    rw [counted]
    by_cases reaches : left ≤ piece.length
    · obtain ⟨after, takes, keeps, finished⟩ := receiveLength_ends asked holds stands
        positive reaches
      refine ⟨after, true, takes, keeps, ?_⟩
      rw [if_pos rfl, Mirrors]
      rw [Reader.read_counted stands positive, if_pos reaches] at finished ⊢
      exact finished
    · obtain ⟨after, ok, takes, keeps, grown⟩ := receiveLength_holds asked holds stands
        (by omega)
      simp only [takes]
      apply grown_answers keeps grown
      rw [Reader.read_counted stands positive, if_neg reaches]
      simp
  | sizeLine tail =>
    rw [stands] at fits
    rw [show v.head.bodytype = .chunk from fits.1]
    exact receiveChunked_size holds stands fits.2
  | chunk left =>
    rw [stands] at fits
    rw [show v.head.bodytype = .chunk from fits.1]
    exact receiveChunked_chunk holds stands fits.2

end Libretro.Http
