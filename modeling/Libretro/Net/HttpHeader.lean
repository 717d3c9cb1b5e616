import Mathlib.Data.List.Basic
import Mathlib.Data.List.Infix

/-! The header walk of a response, and what a response says, read one byte at a time. -/

namespace Libretro.Http

/-- The largest body a response may announce. -/
def maxContentLength : Nat := 256 * 1024 * 1024

/-- The largest header, summed over the interim blocks before the final one. -/
def maxHeaderBytes : Nat := 64 * 1024

/-- The redirects followed per request. -/
def maxRedirects : Nat := 8

/-- The part of the response that the next byte belongs to. -/
inductive ResponsePart
  | headerTop
  | header
  | body
  | bodyChunklen
  | done
  deriving DecidableEq

/-- The parts before the body, in which lines are read. -/
def ResponsePart.inHeader : ResponsePart → Bool
  | .headerTop | .header => true
  | _ => false

/-- How the end of the body is known. -/
inductive BodyType
  | full
  | len
  | chunk
  deriving DecidableEq

/-- The fields of the response that the header walk writes. -/
structure Head where
  hdr : List UInt8 := []
  hdrBytes : Nat := 0
  status : Int := -1
  part : ResponsePart := .headerTop
  bodytype : BodyType := .full
  len : Nat := 0
  contentLen : Nat := 0
  location : Nat := 0
  connClose : Bool := false
  keepAlive : Bool := false
  http10 : Bool := false
  discard : Bool := false
  deriving DecidableEq

/-- The bytes of a text of the source. -/
def ascii (text : String) : List UInt8 := text.toList.map fun c => UInt8.ofNat c.toNat

/-- A letter without its case. -/
def toLower (b : UInt8) : UInt8 := if 65 ≤ b ∧ b ≤ 90 then b + 32 else b

/-- The string that starts a block of memory: what stands before its first NUL. -/
def cstring (z : List UInt8) : List UInt8 := z.takeWhile (· ≠ 0)

/-- The comparison of as many bytes as the name has, without their case. -/
def sameNoCase (text name : List UInt8) : Bool := (text.take name.length).map toLower == name.map toLower

/-- A space or a tab. -/
def isBlank (b : UInt8) : Bool := b == 32 || b == 9

/-- The end of a list member without its blanks. -/
def trimEnd (text : List UInt8) : List UInt8 := (text.reverse.dropWhile isBlank).reverse

/-- The walk over the members of a list, with a bound on their number. -/
def listHasFrom (tok : List UInt8) : Nat → List UInt8 → Bool
  | 0, _ => false
  | fuel + 1, v =>
    match v.dropWhile (fun b => isBlank b || b == 44) with
    | [] => false
    | b :: v =>
      let member := (b :: v).takeWhile (· ≠ 44)
      if (trimEnd member).length = tok.length ∧ sameNoCase (b :: v) tok then true
      else listHasFrom tok fuel ((b :: v).drop member.length)

/-- Whether a comma-separated value lists a token. -/
def listHas (v tok : List UInt8) : Bool := listHasFrom tok (v.length + 1) v

/-- The digits of a length, refused when there are none or when they pass the cap. -/
def contentLengthFrom : List UInt8 → Nat → Bool → Option Nat
  | [], val, any => if any then some val else none
  | b :: rest, val, any =>
    if 48 ≤ b ∧ b ≤ 57 then
      let digit := b.toNat - 48
      if val > (maxContentLength - digit) / 10 then none
      else contentLengthFrom rest (val * 10 + digit) true
    else if any then some val
    else none

/-- The length that the value of a `Content-Length` line gives. -/
def contentLength (value : List UInt8) : Option Nat := contentLengthFrom (value.dropWhile isBlank) 0 false

/-- The digit of a status, refused when it is none. -/
def statusDigit (b : UInt8) : Option Nat := if 48 ≤ b ∧ b ≤ 57 then some (b.toNat - 48) else none

/-- The status line: a fixed prefix, the minor version, a space and three digits. -/
def statusLine (z : List UInt8) (h : Head) : Option Head :=
  if z.length < 12 ∨ z.take 7 ≠ ascii "HTTP/1." ∨ z.getD 8 0 ≠ 32 then none
  else do
    let hundreds ← statusDigit (z.getD 9 0)
    let tens ← statusDigit (z.getD 10 0)
    let units ← statusDigit (z.getD 11 0)
    some { h with
      status := hundreds * 100 + tens * 10 + units
      http10 := z.getD 7 0 == 48
      part := .header }

/-- The header lines and all that was derived from them are dropped. -/
def headersClear (h : Head) : Head :=
  { h with
    hdr := []
    location := 0
    discard := false
    connClose := false
    keepAlive := false
    http10 := false }

/-- The methods and counts of the request that the response is read by. -/
structure Asked where
  method : List UInt8
  redirects : Nat := 0
  deriving DecidableEq

/-- The empty line that ends a block decides what follows it. -/
def headersEnd (asked : Asked) (h : Head) : Head :=
  let h := if h.http10 && !h.keepAlive then { h with connClose := true } else h
  let h :=
    if 300 ≤ h.status ∧ h.status < 400 ∧ h.location ≠ 0 ∧ asked.redirects < maxRedirects then
      { h with discard := true }
    else h
  if 100 ≤ h.status ∧ h.status < 200 ∧ h.status ≠ 101 then
    -- An interim block: the real status line follows, and nothing of this one is kept.
    { headersClear h with
      bodytype := .full
      len := 0
      contentLen := 0
      part := .headerTop }
  else if h.status = 204 ∨ h.status = 304 ∨ h.status = 101 ∨ asked.method = ascii "HEAD" then
    { h with
      part := .done
      connClose := h.connClose || h.status == 101 }
  else if h.bodytype = .chunk then
    { h with
      part := .bodyChunklen
      len := 0 }
  else { h with part := .body }

/-- The lines that the walk itself reads, and where in its line a location starts. -/
def fieldValue (text : List UInt8) (h : Head) : Option (Head × Option Nat) :=
  if sameNoCase text (ascii "Connection:") then
    let v := text.drop (ascii "Connection:").length
    if listHas v (ascii "close") then some ({ h with connClose := true }, none)
    else if listHas v (ascii "keep-alive") then some ({ h with keepAlive := true }, none)
    else some (h, none)
  else if sameNoCase text (ascii "Content-Length:") then do
    let val ← contentLength (text.drop (ascii "Content-Length:").length)
    -- A length never reframes a chunked body, whichever line comes first.
    if h.bodytype ≠ .chunk then
      some ({ h with
        bodytype := .len
        len := val
        contentLen := val }, none)
    else some (h, none)
  else if sameNoCase text (ascii "Transfer-Encoding:") then
    if listHas (text.drop (ascii "Transfer-Encoding:").length) (ascii "chunked") then
      some ({ h with bodytype := .chunk }, none)
    else some (h, none)
  else if sameNoCase text (ascii "Location:") then
    let v := text.drop (ascii "Location:").length
    some (h, some ((ascii "Location:").length + (v.takeWhile isBlank).length))
  else some (h, none)

/-- A field line is read and then stored with its NUL behind the lines before it. -/
def fieldLine (z : List UInt8) (h : Head) : Option Head := do
  let (h, location) ← fieldValue (cstring z) h
  let stored := if z.getLast? = some 0 then z.dropLast else z
  some { h with
    location := match location with
      | some start => h.hdr.length + start + 1
      | none => h.location
    hdr := h.hdr ++ stored ++ [0] }

/-- A line without its newline, whose carriage return has become a NUL. -/
def terminated (line : List UInt8) : List UInt8 :=
  if line.getLast? = some 13 then line.dropLast ++ [0] else line

/-- One line of the header, counted against the cap before anything is read of it. -/
def headerLine (asked : Asked) (line : List UInt8) (h : Head) : Head × Bool :=
  let h := { h with hdrBytes := h.hdrBytes + line.length + 1 }
  let z := terminated line
  let read :=
    if h.hdrBytes > maxHeaderBytes then none
    else if h.part = .headerTop then statusLine z h
    else if z.headD 0 = 0 then some (headersEnd asked h)
    else fieldLine z h
  match read with
  | some h => (h, true)
  | none => ({ h with part := .done }, false)

/-- What stands before the first newline, and what follows it. -/
def splitLine : List UInt8 → Option (List UInt8 × List UInt8)
  | [] => none
  | b :: rest =>
    if b = 10 then some ([], rest)
    else (splitLine rest).map fun (line, rest) => (b :: line, rest)

/-- What the header walk leaves: the fields, the bytes it did not take and whether it failed. -/
structure Walked where
  head : Head
  rest : List UInt8
  ok : Bool
  deriving DecidableEq

/-- The walk over the lines of the header, with a bound on their number. -/
def headerWalk (asked : Asked) : Nat → List UInt8 → Head → Walked
  | 0, region, h => ⟨h, region, true⟩
  | fuel + 1, region, h =>
    if h.part.inHeader then
      match splitLine region with
      | none => ⟨h, region, true⟩
      | some (line, rest) =>
        match headerLine asked line h with
        | (h, true) => headerWalk asked fuel rest h
        | (h, false) => ⟨h, rest, false⟩
    else ⟨h, region, true⟩

/-- The floor under the receive window. -/
def minRecvWindow : Nat := 32 * 1024

/-- The size past which the receive buffer never grows. -/
def maxBuffer : Nat := maxContentLength + minRecvWindow

/-- The response: the header's fields, and the buffer with the bytes written to it so far. -/
structure Response extends Head where
  data : List UInt8 := []
  pos : Nat := 0
  buflen : Nat := 64 * 1024
  flushed : Nat := 0
  deriving DecidableEq

/-- Whether a sink takes a run, after the runs it has taken. -/
abbrev Sink := List (List UInt8) → List UInt8 → Bool

/-- The part of a transfer that receiving reads and writes, with the runs its sink has taken. -/
structure Inbound where
  asked : Asked
  sink : Option Sink := none
  handed : List (List UInt8) := []
  err : Bool := false
  response : Response := {}

/-- The body is handed off as it arrives: to the sink, or nowhere. -/
def Inbound.bodyStreams (x : Inbound) : Bool := x.sink.isSome || x.response.discard

/-- Bytes of the buffer that have been written. -/
def load (data : List UInt8) (start n : Nat) : Option (List UInt8) :=
  if start + n ≤ data.length then some ((data.drop start).take n) else none

/-- Bytes written from a place inside what is written already, within the buffer's size. -/
def store (data : List UInt8) (buflen start : Nat) (bytes : List UInt8) : Option (List UInt8) :=
  if start ≤ data.length ∧ start + bytes.length ≤ buflen then
    some (data.take start ++ bytes ++ data.drop (start + bytes.length))
  else none

/-- Bytes moved from one place of the buffer to another, which may overlap. -/
def memmove (data : List UInt8) (dst src n : Nat) : Option (List UInt8) :=
  if dst + n ≤ data.length ∧ src + n ≤ data.length then
    some (data.take dst ++ (data.drop src).take n ++ data.drop (dst + n))
  else none

/-- Bytes from the front of the buffer go to the sink; a refused run fails the transfer. -/
def sinkFlush (x : Inbound) (n : Nat) : Option (Inbound × Bool) :=
  if n = 0 ∨ x.response.discard then some (x, true)
  else do
    let sink ← x.sink
    let run ← load x.response.data 0 n
    if sink x.handed run then
      some ({ x with
        handed := x.handed ++ [run]
        response := { x.response with flushed := x.response.flushed + n } }, true)
    else
      some ({ x with
        err := true
        response := { x.response with part := .done } }, false)

/-- Bytes that follow a response without a body are not its own and end the connection. -/
def bodyless (x : Inbound) : Inbound :=
  { x with response := { x.response with
      connClose := x.response.connClose || x.response.pos != 0
      pos := 0
      len := 0 } }

/-- The buffer of an announced body takes its size, unless the body is handed off. -/
def sizeToLength (x : Inbound) : Inbound :=
  if x.response.bodytype = .len ∧ 0 < x.response.len ∧ x.bodyStreams = false then
    { x with response := { x.response with
        buflen := x.response.len
        data := x.response.data.take x.response.len } }
  else x

/-- A failure of the header ends the response. -/
def headerFails (x : Inbound) : Inbound :=
  { x with
    err := true
    response := { x.response with part := .done } }

/-- The header walk over what has arrived, and how many bytes of the body stand behind it. -/
def receiveHeader (x : Inbound) (len : Nat) : Option (Inbound × Int) := do
  let r := { x.response with pos := x.response.pos + len }
  let region ← load r.data 0 r.pos
  let walked := headerWalk x.asked region.length region r.toHead
  let r := { r with toHead := walked.head }
  if walked.ok = false then some ({ x with err := true, response := r }, -1)
  else
    -- What was not taken moves to the front.
    let leftover := walked.rest.length
    let data ← memmove r.data 0 (r.pos - leftover) leftover
    let r := { r with data := data, pos := leftover }
    let x := { x with response := r }
    if r.part = .done then some (bodyless x, 0)
    else if r.part.inHeader = false then
      some (sizeToLength { x with response := { r with pos := 0 } }, r.pos)
    else if r.hdrBytes + r.pos > maxHeaderBytes then some (headerFails x, -1)
    else if r.pos ≥ r.buflen - 64 then
      some ({ x with response := { r with buflen := r.buflen * 2 } }, len)
    else some (x, len)

/-- The value of a hexadecimal digit. -/
def hexDigit (b : UInt8) : Option Nat :=
  if 48 ≤ b ∧ b ≤ 57 then some (b.toNat - 48)
  else if 65 ≤ b ∧ b ≤ 70 then some (b.toNat - 55)
  else if 97 ≤ b ∧ b ≤ 102 then some (b.toNat - 87)
  else none

/-- The digits that open a text, as a number. -/
def hexFrom : List UInt8 → Nat → Nat
  | [], val => val
  | b :: rest, val =>
    match hexDigit b with
    | some digit => hexFrom rest (val * 16 + digit)
    | none => val

/-- `strtoul` in base sixteen on a text that starts with a digit. -/
def strtoul16 (digits : List UInt8) : Nat :=
  if digits.getD 0 0 = 48 ∧ (digits.getD 1 0 = 120 ∨ digits.getD 1 0 = 88) ∧
      (hexDigit (digits.getD 2 0)).isSome then
    hexFrom (digits.drop 2) 0
  else hexFrom digits 0

/-- A byte that may stand before the digits of a size. -/
def isSkipped (b : UInt8) : Bool := b == 13 || b == 10 || b == 32 || b == 9

/-- The size that a chunk's line gives, refused without digits or past the cap. -/
def chunkSize (line : List UInt8) : Option Nat :=
  match line.dropWhile isSkipped with
  | [] => none
  | b :: rest =>
    if (hexDigit b).isNone then none
    else if strtoul16 (b :: rest) > maxContentLength then none
    else some (strtoul16 (b :: rest))

/-- Why the pass over the raw bytes of a chunked body stopped. -/
inductive Dechunked
  | refused
  | last (data : List UInt8) (out : Nat)
  | straddles (data : List UInt8) (out left : Nat)
  | starved (data : List UInt8) (out start : Nat)
  deriving DecidableEq

/-- One pass over the raw bytes, with a read and a write cursor and a bound on the chunks. -/
def dechunk (rawend : Nat) : Nat → List UInt8 → Nat → Nat → Option Dechunked
  | 0, _, _, _ => none
  | fuel + 1, data, out, start =>
    let avail := rawend - start
    if avail < 2 then some (.starved data out start)
    else do
      -- The two bytes skipped are the line end of the chunk before.
      let region ← load data (start + 2) (avail - 2)
      match splitLine region with
      | none => some (.starved data out start)
      | some (rest, _) =>
        let stop := start + 2 + rest.length
        let line ← load data start (stop - start)
        match chunkSize line with
        | none => some .refused
        | some 0 => some (.last data out)
        | some (size + 1) =>
          let stop := stop + 1
          let avail := rawend - stop
          if avail < size + 1 then
            let data ← memmove data out stop avail
            some (.straddles data (out + avail) (size + 1 - avail))
          else
            let data ← memmove data out stop (size + 1)
            dechunk rawend fuel data (out + (size + 1)) (stop + (size + 1))

/-- The buffer doubles when it is full, up to its cap. -/
def checkGrow (x : Inbound) : Inbound × Bool :=
  if x.response.pos ≥ x.response.buflen then
    let want := min (x.response.buflen * 2) maxBuffer
    if want ≤ x.response.pos then ({ x with err := true }, false)
    else ({ x with response := { x.response with buflen := want } }, true)
  else (x, true)

/-- The decoded bytes at the front are handed off and dropped, when the body streams. -/
def drainFront (x : Inbound) : Option (Inbound × Bool) :=
  if x.bodyStreams then do
    let (x, ok) ← sinkFlush x x.response.pos
    if ok then some ({ x with response := { x.response with pos := 0 } }, true)
    else some (x, false)
  else some (x, true)

/-- A body that is complete: what the sink has not had goes to it, or the buffer shrinks. -/
def bodyEnds (x : Inbound) : Option (Inbound × Bool) :=
  if x.bodyStreams then do
    let (x, ok) ← sinkFlush x x.response.pos
    if ok then
      some ({ x with response := { x.response with pos := 0, len := x.response.flushed } }, true)
    else some (x, false)
  else if x.response.buflen ≠ x.response.len ∧ 0 < x.response.len then
    some ({ x with response := { x.response with
      data := x.response.data.take x.response.len } }, true)
  else some (x, true)

/-- The body stays open: the buffer is checked unless a run was refused. -/
def bodyGoesOn (x : Inbound) (ok : Bool) : Inbound × Bool := if ok then checkGrow x else (x, false)

/-- The decoded prefix goes to the sink and the raw tail slides to the front. -/
def drainTail (x : Inbound) (leftover : Nat) : Option (Inbound × Bool) :=
  if x.bodyStreams then do
    let (x, ok) ← sinkFlush x x.response.len
    if ok then
      let data ← memmove x.response.data 0 x.response.len leftover
      some ({ x with response := { x.response with
        data := data
        pos := leftover
        len := 0 } }, true)
    else some (x, false)
  else some (x, true)

/-- The raw bytes of a chunked body from the current size line on. -/
def receiveChunks (x : Inbound) : Option (Inbound × Bool) := do
  let r := x.response
  match ← dechunk r.pos (r.pos + 1) r.data r.len r.len with
  | .refused => some (headerFails x, false)
  | .last data out =>
    bodyEnds { x with response := { r with data := data, pos := out, part := .done, len := out } }
  | .straddles data out left =>
    let (x, ok) ← drainFront { x with response := { r with
      data := data
      pos := out
      len := left
      part := .body } }
    some (bodyGoesOn x ok)
  | .starved data out start =>
    -- The tail moves down behind the decoded bytes.
    let leftover := r.pos - start
    let data ← memmove data out start leftover
    let (x, ok) ← drainTail { x with response := { r with
      data := data
      len := out
      pos := out + leftover
      part := .bodyChunklen } } leftover
    some (bodyGoesOn x ok)

/-- A chunked body takes what has arrived, first for the chunk carried over. -/
def receiveChunked (x : Inbound) (newlen : Nat) : Option (Inbound × Bool) :=
  let r := x.response
  if r.part = .body then
    if newlen < r.len then do
      let (x, ok) ← drainFront { x with response := { r with
        pos := r.pos + newlen
        len := r.len - newlen } }
      some (bodyGoesOn x ok)
    else
      receiveChunks { x with response := { r with
        pos := r.pos + r.len + (newlen - r.len)
        len := r.pos + r.len
        part := .bodyChunklen } }
  else receiveChunks { x with response := { r with pos := r.pos + newlen } }

/-- A body that lasts until the connection closes takes everything. -/
def receiveFull (x : Inbound) (newlen : Nat) : Option (Inbound × Bool) := do
  let r := x.response
  let (x, ok) ← drainFront { x with response := { r with
    pos := r.pos + newlen
    len := r.pos + newlen } }
  let x := if ok && x.bodyStreams then { x with response := { x.response with len := 0 } } else x
  some (bodyGoesOn x ok)

/-- A body of announced length takes what is its own and drops what follows. -/
def receiveLength (x : Inbound) (newlen : Nat) : Option (Inbound × Bool) := do
  let r := { x.response with pos := x.response.pos + newlen }
  let r := if r.pos > r.len then { r with pos := r.len, connClose := true } else r
  if r.pos = r.len then bodyEnds { x with response := { r with part := .done } }
  else if ({ x with response := r } : Inbound).bodyStreams then
    let (x, ok) ← sinkFlush { x with response := r } r.pos
    if ok then
      some (checkGrow { x with response := { x.response with
        len := x.response.len - x.response.pos
        pos := 0 } })
    else some (x, false)
  else some (checkGrow { x with response := r })

/-- The peer closed the connection: the end of a body that has no other, else a failure. -/
def bodyCloses (x : Inbound) : Inbound × Bool :=
  let r := x.response
  if r.bodytype ≠ .full then (x, false)
  else
    ({ x with
      err := false
      response := { r with
        part := .done
        connClose := true
        data := if r.buflen ≠ r.len ∧ 0 < r.len then r.data.take r.len else r.data } }, true)

/-- The body takes what one receive has brought behind the bytes it had. -/
def receiveBody (x : Inbound) (newlen : Int) : Option (Inbound × Bool) :=
  if newlen < 0 ∨ x.err then some (bodyCloses x)
  else
    match x.response.bodytype with
    | .chunk => receiveChunked x newlen.toNat
    | .full => receiveFull x newlen.toNat
    | .len => receiveLength x newlen.toNat

/-- The window before a read: what the buffer has left, which grows early below the floor. -/
def growWindow (x : Inbound) : Inbound × Bool :=
  let r := x.response
  if r.buflen - r.pos < minRecvWindow ∧ r.part ≠ .done ∧
      ¬(r.part = .body ∧ r.bodytype = .len ∧ x.bodyStreams = false) then
    let want := min (max (r.buflen * 2) (r.pos + minRecvWindow)) maxBuffer
    if want < r.pos + minRecvWindow then ({ x with err := true }, false)
    else ({ x with response := { r with buflen := want } }, true)
  else (x, true)

/-- What one read of the transport brought. -/
inductive Received
  | bytes (piece : List UInt8)
  | nothing
  | closed
  deriving DecidableEq

/-- How a read ended: its bytes were taken, or the header or the body failed on it. -/
inductive Ended
  | came (len : Int)
  | headerFailed
  | bodyFailed
  deriving DecidableEq

/-- The body's turn after a read, when the response has come as far as its body. -/
def passBody (x : Inbound) (len : Int) : Option (Inbound × Ended) :=
  if x.response.part.inHeader ∨ x.response.part = .done then some (x, .came len)
  else do
    let (x, ok) ← receiveBody x len
    some (x, if ok then .came len else .bodyFailed)

/-- What a read brought has been written behind the bytes that wait, and is parsed. -/
def parse (x : Inbound) (len : Nat) : Option (Inbound × Ended) :=
  if x.response.part.inHeader then do
    let (x, len) ← receiveHeader x len
    passBody x len
  else passBody x len

/-- One read of the transport, from the write into the buffer to the parse. -/
def receive (x : Inbound) : Received → Option (Inbound × Ended)
  | .bytes piece => do
    let data ← store x.response.data x.response.buflen x.response.pos piece
    parse { x with response := { x.response with data := data } } piece.length
  | .nothing => parse x 0
  | .closed =>
    let x := { x with err := true }
    if x.response.part.inHeader then some (x, .headerFailed)
    else passBody x (-1)

/-- A response that failed is over and has no status. -/
def settle : Inbound × Ended → Inbound
  | (x, .came _) => x
  | (x, _) =>
    { x with
      err := true
      response := { x.response with part := .done, status := -1 } }

open List Option

/-- What the next byte of a response is. -/
inductive Stage
  | lines (line : List UInt8)
  | untilClose
  | counted (left : Nat)
  | sizeLine (raw : List UInt8)
  | chunk (left : Nat)
  | complete
  | refused
  deriving DecidableEq

/-- The bytes that were read but not yet understood. -/
def Stage.tail : Stage → List UInt8
  | .lines line => line
  | .sizeLine raw => raw
  | _ => []

/-- A response as far as it has been read: its header, where it stands and its body. -/
structure Reader where
  head : Head
  stage : Stage := .lines []
  body : List UInt8 := []
  deriving DecidableEq

/-- Where the response stands when a line has been read. -/
def Head.stage (h : Head) : Stage :=
  match h.part with
  | .headerTop | .header => .lines []
  | .body =>
    match h.bodytype with
    | .full => .untilClose
    | _ => if h.len = 0 then .complete else .counted h.len
  | .bodyChunklen => .sizeLine []
  | .done => .complete

/-- A response whose body cannot be read has no status. -/
def Reader.broken (v : Reader) : Reader :=
  { v with
    head := { v.head with status := -1 }
    stage := .refused }

/-- One byte of the response. -/
def Reader.step (asked : Asked) (v : Reader) (b : UInt8) : Reader :=
  match v.stage with
  | .lines line =>
    if b = 10 then
      match headerLine asked line v.head with
      | (h, true) => { v with head := h, stage := h.stage }
      | (h, false) => { v with head := h, stage := .refused }
    else if v.head.hdrBytes + line.length + 1 > maxHeaderBytes then { v with stage := .refused }
    else { v with stage := .lines (line ++ [b]) }
  | .untilClose => { v with body := v.body ++ [b] }
  | .counted left =>
    { v with
      stage := if left = 1 then .complete else .counted (left - 1)
      body := v.body ++ [b] }
  | .sizeLine raw =>
    if b = 10 ∧ 2 ≤ raw.length then
      match chunkSize raw with
      | none => v.broken
      | some 0 => { v with stage := .complete }
      | some (size + 1) => { v with stage := .chunk (size + 1) }
    else { v with stage := .sizeLine (raw ++ [b]) }
  | .chunk left =>
    { v with
      stage := if left = 1 then .sizeLine [] else .chunk (left - 1)
      body := v.body ++ [b] }
  | .complete | .refused => v

/-- The bytes of the response, one after the other. -/
def Reader.read (asked : Asked) (v : Reader) (bytes : List UInt8) : Reader :=
  bytes.foldl (Reader.step asked) v

/-- The end of the connection. -/
def Reader.close (v : Reader) : Reader :=
  match v.stage with
  | .untilClose => { v with stage := .complete }
  | .complete | .refused => v
  | _ => v.broken

section Reading

variable {asked : Asked}

theorem Reader.read_append (v : Reader) (first second : List UInt8) :
    v.read asked (first ++ second) = (v.read asked first).read asked second :=
  foldl_append

@[simp] theorem Reader.read_nil (v : Reader) : v.read asked [] = v := rfl

@[simp] theorem Reader.read_cons (v : Reader) (b : UInt8) (rest : List UInt8) :
    v.read asked (b :: rest) = (v.step asked b).read asked rest := rfl

variable {v : Reader}

theorem Reader.read_complete (complete : v.stage = .complete) (bytes : List UInt8) :
    v.read asked bytes = v := by
  -- Each byte leaves the reader where it is.
  induction bytes with
  | nil => rfl
  | cons b rest ih =>
    have stays : v.step asked b = v := by simp [Reader.step, complete]
    rw [Reader.read_cons, stays, ih]

theorem Reader.read_refused (refused : v.stage = .refused) (bytes : List UInt8) : v.read asked bytes = v := by
  induction bytes with
  | nil => rfl
  | cons b rest ih =>
    have stays : v.step asked b = v := by simp [Reader.step, refused]
    rw [Reader.read_cons, stays, ih]

/-- A stretch without a newline joins the line, unless it passes the cap. -/
theorem Reader.read_line (asked : Asked) {line : List UInt8} (stands : v.stage = .lines line)
    (within : v.head.hdrBytes + line.length ≤ maxHeaderBytes) (bytes : List UInt8)
    (unbroken : 10 ∉ bytes) :
    v.read asked bytes = if v.head.hdrBytes + (line ++ bytes).length ≤ maxHeaderBytes then
        { v with stage := .lines (line ++ bytes) }
      else { v with stage := .refused } := by
  -- The line grows by each byte, until one of them passes the cap.
  induction bytes generalizing v line with
  | nil =>
    obtain ⟨head, stage, body⟩ := v
    subst stands
    simpa using within
  | cons b rest ih =>
    have notNewline : b ≠ 10 := fun same => unbroken (by simp [same])
    have unbrokenRest : 10 ∉ rest := fun inside => unbroken (mem_cons_of_mem b inside)
    rw [Reader.read_cons]
    by_cases passes : v.head.hdrBytes + line.length + 1 > maxHeaderBytes
    · have refused : v.step asked b = { v with stage := .refused } := by
        simp [Reader.step, stands, notNewline, passes]
      rw [refused, Reader.read_refused rfl, if_neg]
      simp only [length_append, length_cons]
      omega
    · have grown : v.step asked b = { v with stage := .lines (line ++ [b]) } := by
        simp [Reader.step, stands, notNewline, passes]
      rw [grown, ih rfl _ unbrokenRest]
      · simp
      · simp only [length_append, length_cons, length_nil]
        omega

theorem Reader.read_untilClose (stands : v.stage = .untilClose) (bytes : List UInt8) :
    v.read asked bytes = { v with body := v.body ++ bytes } := by
  induction bytes generalizing v with
  | nil => simp
  | cons b rest ih =>
    have grown : v.step asked b = { v with body := v.body ++ [b] } := by simp [Reader.step, stands]
    have rest := ih (v := { v with body := v.body ++ [b] }) stands
    rw [Reader.read_cons, grown, rest]
    simp

/-- A body of announced length takes the bytes that are its own. -/
theorem Reader.read_counted {left : Nat} (stands : v.stage = .counted left)
    (positive : 0 < left) (bytes : List UInt8) :
    v.read asked bytes =
      { v with
        stage := if left ≤ bytes.length then .complete else .counted (left - bytes.length)
        body := v.body ++ bytes.take left } := by
  -- Each byte takes one off what is left.
  induction bytes generalizing v left with
  | nil =>
    obtain ⟨head, stage, body⟩ := v
    subst stands
    simp [show ¬ left = 0 by omega]
  | cons b rest ih =>
    rw [Reader.read_cons]
    by_cases last : left = 1
    · subst last
      have ends : v.step asked b = { v with stage := .complete, body := v.body ++ [b] } := by
        simp [Reader.step, stands]
      rw [ends, Reader.read_complete rfl]
      simp
    · have goes : v.step asked b =
          { v with stage := .counted (left - 1), body := v.body ++ [b] } := by
        simp [Reader.step, stands, last]
      rw [goes, ih rfl (by omega)]
      obtain ⟨before, rfl⟩ : ∃ before, left = before + 1 := ⟨left - 1, by omega⟩
      simp

/-- A chunk takes the bytes that are its own and leaves the rest to the next size line. -/
theorem Reader.read_chunk {left : Nat} (stands : v.stage = .chunk left)
    (positive : 0 < left) (bytes : List UInt8) :
    v.read asked bytes = if bytes.length < left then
        { v with stage := .chunk (left - bytes.length), body := v.body ++ bytes }
      else
        ({ v with stage := .sizeLine [], body := v.body ++ bytes.take left } : Reader).read asked
          (bytes.drop left) := by
  induction bytes generalizing v left with
  | nil =>
    obtain ⟨head, stage, body⟩ := v
    subst stands
    simp [positive]
  | cons b rest ih =>
    rw [Reader.read_cons]
    by_cases last : left = 1
    · subst last
      have ends : v.step asked b = { v with stage := .sizeLine [], body := v.body ++ [b] } := by
        simp [Reader.step, stands]
      rw [ends]
      simp
    · have goes : v.step asked b =
          { v with stage := .chunk (left - 1), body := v.body ++ [b] } := by
        simp [Reader.step, stands, last]
      rw [goes, ih rfl (by omega)]
      obtain ⟨before, rfl⟩ : ∃ before, left = before + 1 := ⟨left - 1, by omega⟩
      simp

/-- A stretch without the newline of a size line waits for it. -/
theorem Reader.read_sizeLine {raw : List UInt8} (stands : v.stage = .sizeLine raw)
    (bytes : List UInt8) (unbroken : 10 ∉ (raw ++ bytes).drop 2) :
    v.read asked bytes = { v with stage := .sizeLine (raw ++ bytes) } := by
  induction bytes generalizing v raw with
  | nil =>
    obtain ⟨head, stage, body⟩ := v
    subst stands
    simp
  | cons b rest ih =>
    have waits : ¬(b = 10 ∧ 2 ≤ raw.length) := by
      rintro ⟨rfl, two⟩
      apply unbroken
      rw [drop_append_of_le_length two]
      simp
    have grown : v.step asked b = { v with stage := .sizeLine (raw ++ [b]) } := by
      simp [Reader.step, stands, waits]
    rw [Reader.read_cons, grown, ih rfl]
    · simp
    · simpa using unbroken

theorem Reader.step_size {raw : List UInt8} (stands : v.stage = .sizeLine raw) (two : 2 ≤ raw.length) :
    v.step asked 10 = match chunkSize raw with
      | none => v.broken
      | some 0 => { v with stage := .complete }
      | some (size + 1) => { v with stage := .chunk (size + 1) } := by
  simp [Reader.step, stands, two]

end Reading

theorem splitLine_none {region : List UInt8} (split : splitLine region = none) : 10 ∉ region := by
  induction region with
  | nil => simp
  | cons b rest ih =>
    by_cases newline : b = 10
    · simp [splitLine, newline] at split
    · simp only [splitLine, newline, if_false, map_eq_none_iff] at split
      simp only [mem_cons, not_or]
      exact ⟨fun same => newline same.symm, ih split⟩

/-- A line stands before the first newline. -/
theorem splitLine_some {region line rest : List UInt8} (split : splitLine region = some (line, rest)) :
    region = line ++ 10 :: rest ∧ 10 ∉ line := by
  induction region generalizing line with
  | nil => simp [splitLine] at split
  | cons b region ih =>
    by_cases newline : b = 10
    · simp only [splitLine, newline, if_true, some.injEq, Prod.mk.injEq] at split
      obtain ⟨rfl, rfl⟩ := split
      simp [newline]
    · simp only [splitLine, newline, if_false, map_eq_some_iff, Prod.mk.injEq,
        Prod.exists] at split
      obtain ⟨before, after, found, rfl, rfl⟩ := split
      obtain ⟨rfl, unbroken⟩ := ih found
      refine ⟨by simp, ?_⟩
      simp only [mem_cons, not_or]
      exact ⟨fun same => newline same.symm, unbroken⟩

variable {data : List UInt8}

theorem load_at (front bytes after : List UInt8) (stands : data = front ++ bytes ++ after) :
    load data front.length bytes.length = some bytes := by
  subst stands
  simp [load]

theorem load_inside {raw after : List UInt8} {start : Nat}
    (stands : data.drop start = raw ++ after) (started : start ≤ data.length) {i n : Nat}
    (inside : i + n ≤ raw.length) :
    load data (start + i) n = some ((raw.drop i).take n) := by
  have width := congrArg length stands
  simp only [length_drop, length_append] at width
  have part : data.drop (start + i) = raw.drop i ++ after := by
    rw [← drop_drop, stands, drop_append_of_le_length (by omega)]
  rw [load, if_pos (by omega), part, take_append_of_le_length]
  rw [length_drop]
  omega

/-- What a move leaves in the buffer. -/
structure Moved (data after : List UInt8) (dst src n : Nat) : Prop where
  length : after.length = data.length
  front : after.take (dst + n) = data.take dst ++ (data.drop src).take n
  behind : ∀ k, dst + n ≤ k → after.drop k = data.drop k

theorem memmove_moved (data : List UInt8) {dst src n : Nat} (to_ : dst + n ≤ data.length)
    (from_ : src + n ≤ data.length) :
    ∃ after, memmove data dst src n = some after ∧ Moved data after dst src n := by
  have width : (data.take dst ++ (data.drop src).take n).length = dst + n := by
    simp only [length_append, length_take, length_drop]
    omega
  refine ⟨_, if_pos ⟨to_, from_⟩, ?_, ?_, ?_⟩
  · rw [length_append, width, length_drop]
    omega
  · rw [take_append_of_le_length (by omega), take_of_length_le (by omega)]
  · intro k later
    rw [drop_append, width, drop_of_length_le (by omega), nil_append,
      drop_drop]
    congr 1
    omega

/-- What the pass may say of the raw bytes, next to what reading them one by one says. -/
def Dechunked.Follows (asked : Asked) (v : Reader) (data raw : List UInt8) (out rawend : Nat) :
    Dechunked → Prop
  | .refused => ∃ decoded,
      v.read asked raw = ({ v with body := v.body ++ decoded } : Reader).broken
  | .last data' out' => ∃ decoded,
      v.read asked raw = { v with stage := .complete, body := v.body ++ decoded } ∧
      data'.length = data.length ∧ out' ≤ rawend ∧ data'.take out' = data.take out ++ decoded
  | .straddles data' out' left => ∃ decoded,
      v.read asked raw = { v with stage := .chunk left, body := v.body ++ decoded } ∧
      0 < left ∧ data'.length = data.length ∧ out' ≤ rawend ∧
      data'.take out' = data.take out ++ decoded
  | .starved data' out' start' => ∃ decoded tail after,
      v.read asked raw = { v with stage := .sizeLine tail, body := v.body ++ decoded } ∧
      10 ∉ tail.drop 2 ∧ data'.drop start' = tail ++ after ∧ start' + tail.length = rawend ∧
      data'.length = data.length ∧ out' ≤ start' ∧ data'.take out' = data.take out ++ decoded

theorem Dechunked.Follows.chunk {asked : Asked} {v : Reader} {moved raw rest : List UInt8}
    {out rawend : Nat} {found : Dechunked} (size : Nat) (chunk : List UInt8) (read : v.read asked raw =
      ({ v with stage := .sizeLine [], body := v.body ++ chunk } : Reader).read asked rest)
    (length : moved.length = data.length) (front : moved.take (out + size) = data.take out ++ chunk)
    (follows : found.Follows asked { v with stage := .sizeLine [], body := v.body ++ chunk }
      moved rest (out + size) rawend) :
    found.Follows asked v data raw out rawend := by
  -- The bytes the rest decodes stand behind the chunk.
  cases found with
  | refused =>
    obtain ⟨decoded, said⟩ := follows
    refine ⟨chunk ++ decoded, ?_⟩
    rw [read, said]
    simp [Reader.broken]
  | last data' out' =>
    obtain ⟨decoded, said, same, inside, decodes⟩ := follows
    refine ⟨chunk ++ decoded, ?_, by rw [same, length], inside, ?_⟩
    · rw [read, said]
      simp
    · rw [decodes, front, append_assoc]
  | straddles data' out' left =>
    obtain ⟨decoded, said, positive, same, inside, decodes⟩ := follows
    refine ⟨chunk ++ decoded, ?_, positive, by rw [same, length], inside, ?_⟩
    · rw [read, said]
      simp
    · rw [decodes, front, append_assoc]
  | starved data' out' start' =>
    obtain ⟨decoded, tail, after, said, unbroken, stands, ends, same, inside, decodes⟩ := follows
    refine ⟨chunk ++ decoded, tail, after, ?_, unbroken, stands, ends, by rw [same, length],
      inside, ?_⟩
    · rw [read, said]
      simp
    · rw [decodes, front, append_assoc]

theorem starved_follows {asked : Asked} {v : Reader} {raw after : List UInt8}
    {out start rawend : Nat} (stands : v.stage = .sizeLine []) (behind : out ≤ start)
    (holds : data.drop start = raw ++ after) (ends : start + raw.length = rawend)
    (unbroken : 10 ∉ raw.drop 2) :
    (Dechunked.starved data out start).Follows asked v data raw out rawend := by
  refine ⟨[], raw, after, ?_, unbroken, holds, ends, rfl, behind, by simp⟩
  rw [Reader.read_sizeLine stands raw (by simpa using unbroken)]
  simp

theorem Reader.read_size (asked : Asked) {v : Reader} (stands : v.stage = .sizeLine [])
    (first second : UInt8) {line : List UInt8} (unbroken : 10 ∉ line) (rest : List UInt8) :
    v.read asked (first :: second :: (line ++ 10 :: rest)) =
      (match chunkSize (first :: second :: line) with
        | none => v.broken
        | some 0 => { v with stage := .complete }
        | some (size + 1) => { v with stage := .chunk (size + 1) } : Reader).read asked rest := by
  have cut : first :: second :: (line ++ 10 :: rest) = (first :: second :: line) ++ 10 :: rest := by simp
  rw [cut, Reader.read_append, Reader.read_sizeLine stands _ (by simpa using unbroken),
    Reader.read_cons, Reader.step_size rfl (by simp)]
  rfl

/-- The pass over the raw bytes of a chunked body says what reading them one by one says. -/
theorem dechunk_follows (asked : Asked) (rawend fuel : Nat) :
    ∀ (v : Reader) (data raw after : List UInt8) (out start : Nat), raw.length < fuel →
      v.stage = .sizeLine [] → out ≤ start → data.drop start = raw ++ after →
      start ≤ data.length → start + raw.length = rawend →
      ∃ found, dechunk rawend fuel data out start = some found ∧
        found.Follows asked v data raw out rawend := by
  -- Each turn of the loop takes one size line and the whole of its chunk.
  induction fuel with
  | zero =>
    intro v data raw after out start few
    omega
  | succ fuel ih =>
    intro v data raw after out start enough stands behind holds started ends
    have avail : rawend - start = raw.length := by omega
    have width := congrArg length holds
    simp only [length_drop, length_append] at width
    rcases raw with _ | ⟨first, _ | ⟨second, text⟩⟩
    · refine ⟨.starved data out start, by simp [dechunk, avail], ?_⟩
      exact starved_follows stands behind holds ends (by simp)
    · refine ⟨.starved data out start, by simp [dechunk, avail], ?_⟩
      exact starved_follows stands behind holds ends (by simp)
    have region : load data (start + 2) text.length = some text := by
      simpa using load_inside holds started (i := 2) (n := text.length) (by simp; omega)
    have wide : ¬ (text.length + 1 + 1 < 2) := by omega
    cases split : splitLine text with
    | none =>
      refine ⟨.starved data out start, by simp [dechunk, avail, wide, region, split], ?_⟩
      exact starved_follows stands behind holds ends (by simpa using splitLine_none split)
    | some found =>
      obtain ⟨line, rest⟩ := found
      obtain ⟨rfl, unbroken⟩ := splitLine_some split
      have read := Reader.read_size asked stands first second unbroken rest
      have loaded : load data start (start + 2 + line.length - start) = some (first :: second :: line) := by
        have part := load_inside holds started (i := 0) (n := 2 + line.length) (by simp; omega)
        rw [show start + 2 + line.length - start = 2 + line.length by omega]
        simpa [Nat.add_comm 2] using part
      simp only [length_cons, length_append] at avail region wide width ends enough
      cases size : chunkSize (first :: second :: line) with
      | none =>
        rw [size] at read
        refine ⟨.refused, by simp [dechunk, avail, wide, region, split, loaded, size], [], ?_⟩
        rw [read, Reader.read_refused rfl]
        simp
      | some size' =>
        rw [size] at read
        rcases size' with _ | size'
        · refine ⟨.last data out, by simp [dechunk, avail, wide, region, split, loaded, size], [],
            ?_, rfl, by omega, by simp⟩
          rw [read, Reader.read_complete rfl]
          simp
        -- The chunk starts behind the newline; it is whole or goes on in the next receive.
        have stop : rawend - (start + 2 + line.length + 1) = rest.length := by omega
        have chunkAt : data.drop (start + 2 + line.length + 1) = rest ++ after := by
          rw [Nat.add_assoc, Nat.add_assoc, ← drop_drop, holds]
          simp [Nat.add_comm 2]
        have takes : dechunk rawend (fuel + 1) data out start =
            if rawend - (start + 2 + line.length + 1) < size' + 1 then
              (memmove data out (start + 2 + line.length + 1)
                (rawend - (start + 2 + line.length + 1))).bind fun data =>
                some (.straddles data (out + (rawend - (start + 2 + line.length + 1)))
                  (size' + 1 - (rawend - (start + 2 + line.length + 1))))
            else
              (memmove data out (start + 2 + line.length + 1) (size' + 1)).bind fun data =>
                dechunk rawend fuel data (out + (size' + 1)) (start + 2 + line.length + 1 + (size' + 1)) := by
          simp only [dechunk, avail, if_neg wide, Nat.reduceSubDiff, region, split, loaded, size,
            bind_eq_bind, bind_some]
        by_cases straddles : rest.length < size' + 1
        · obtain ⟨moved, moves, length, front, _⟩ := memmove_moved data
            (show out + rest.length ≤ data.length by omega)
            (show start + 2 + line.length + 1 + rest.length ≤ data.length by omega)
          have passes : dechunk rawend (fuel + 1) data out start =
              some (.straddles moved (out + rest.length) (size' + 1 - rest.length)) := by
            rw [takes, stop, if_pos straddles, moves]
            rfl
          refine ⟨_, passes, rest, ?_, by omega, length, by omega, ?_⟩
          · rw [read, Reader.read_chunk rfl (by omega), if_pos straddles]
          · rw [front, chunkAt, take_left]
        · obtain ⟨moved, moves, length, front, later⟩ := memmove_moved data
            (show out + (size' + 1) ≤ data.length by omega)
            (show start + 2 + line.length + 1 + (size' + 1) ≤ data.length by omega)
          have restAt : moved.drop (start + 2 + line.length + 1 + (size' + 1)) =
              rest.drop (size' + 1) ++ after := by
            rw [later _ (by omega), ← drop_drop, chunkAt,
              drop_append_of_le_length (by omega)]
          obtain ⟨found, turns, follows⟩ := ih
            { v with stage := .sizeLine [], body := v.body ++ rest.take (size' + 1) } moved
            (rest.drop (size' + 1)) after (out + (size' + 1))
            (start + 2 + line.length + 1 + (size' + 1)) (by rw [length_drop]; omega) rfl
            (by omega) restAt (by omega) (by rw [length_drop]; omega)
          have passes : dechunk rawend (fuel + 1) data out start = some found := by
            rw [takes, stop, if_neg straddles, moves]
            exact turns
          refine ⟨found, passes, ?_⟩
          apply Dechunked.Follows.chunk (size' + 1) (rest.take (size' + 1)) _ length _ follows
          · rw [read, Reader.read_chunk rfl (by omega), if_neg straddles]
          · rw [front, chunkAt, take_append_of_le_length (by omega)]

end Libretro.Http
