import Libretro.Net.HttpParse

/-! A response says the same however its bytes arrive, and chunked bodies read back as their chunks. -/

namespace Libretro.Http

open List Reader Head

/-- A transfer before its first receive. -/
def fresh (asked : Asked) (sink : Option Sink) : Inbound := { asked := asked, sink := sink }

/-- No more is received once the response is over or the transfer has failed. -/
def Inbound.finished (x : Inbound) : Bool := x.err || x.response.part == .done

/-- The receives of a transfer, each of which brings some of the bytes the peer has sent. -/
inductive Arrives : Inbound → List UInt8 → Inbound → Prop
  | waits (x : Inbound) : Arrives x [] x
  | ends {x : Inbound} (bytes : List UInt8) (finished : x.finished = true) : Arrives x bytes x
  | overgrown {x window : Inbound} (bytes : List UInt8) (unfinished : x.finished = false)
      (grown : growWindow x = (window, false)) : Arrives x bytes window
  | receives {x window after last : Inbound} {piece rest : List UInt8} {ended : Ended}
      (unfinished : x.finished = false) (grown : growWindow x = (window, true))
      (brought : piece ≠ [])
      (room : window.response.pos + piece.length ≤ window.response.buflen)
      (came : receive window (.bytes piece) = some (after, ended))
      (goesOn : Arrives (settle (after, ended)) rest last) : Arrives x (piece ++ rest) last

/-- The receive that finds the connection closed. -/
def closed (x : Inbound) : Option Inbound :=
  if x.finished then some x
  else
    match growWindow x with
    | (window, true) => (receive window .closed).map settle
    | (window, false) => some window

/-- What a transfer has come to: the accessors' view of it, and what its sink was given. -/
structure Outcome where
  failed : Bool
  complete : Bool
  status : Int
  hdr : List UInt8
  body : List UInt8
  deriving DecidableEq

/-- What a transfer has come to. -/
def Inbound.outcome (x : Inbound) : Outcome where
  failed := x.err
  complete := x.response.part == .done
  status := x.response.status
  hdr := x.response.hdr
  body :=
    if x.err then []
    else if x.sink.isSome then x.handed.flatten
    else if x.response.part = .done then x.response.data.take x.response.len
    else []

/-- What a response says, to a transfer with a sink or without one. -/
def Reader.outcome (v : Reader) (sinks : Bool) : Outcome where
  failed := v.stage == .refused
  complete := v.stage == .complete || v.stage == .refused
  status := v.head.status
  hdr := v.head.hdr
  body :=
    if v.stage = .refused ∨ v.head.discard then []
    else if sinks ∨ v.stage = .complete then v.body
    else []

variable {x : Inbound} {v : Reader} {piece : List UInt8}

theorem store_holds (holds : Holds x v []) (room : x.response.pos + piece.length ≤ x.response.buflen) :
    ∃ data, store x.response.data x.response.buflen x.response.pos piece = some data ∧
      Holds { x with response := { x.response with data := data } } v piece := by
  have own : v.stage.own [] = [] := by cases v.stage <;> simp [Stage.own]
  have stands := holds.data
  rw [own, append_nil] at stands
  have reach := stands.length_le
  rw [← holds.pos] at reach
  have front : x.response.data.take x.response.pos = x.front v.body ++ v.stage.tail := by
    rw [holds.pos]
    exact (prefix_iff_eq_take.mp stands).symm
  have part : v.stage.own piece <+: piece := by
    cases v.stage with
    | counted left => exact take_prefix _ _
    | _ => exact prefix_refl _
  refine ⟨_, if_pos ⟨reach, room⟩, ?_⟩
  exact {
    noError := holds.noError
    accepts := holds.accepts
    head := holds.head
    data := by
      show x.front v.body ++ v.stage.tail ++ v.stage.own piece <+: _ ++ piece ++ _
      rw [front]
      exact ((prefix_append_right_inj _).mpr part).trans (prefix_append _ _)
    pos := holds.pos
    inside := by
      show (_ ++ piece ++ _).length ≤ x.response.buflen
      have inside := holds.inside
      simp only [length_append, length_take, length_drop]
      omega
    sized := holds.sized
    counted := holds.counted
    handed := holds.handed
    flushed := holds.flushed }

theorem parse_settles (holds : Holds x v piece)
    (sound : v.Sound) (going : v.stage ≠ .complete ∧ v.stage ≠ .refused) :
    Settles x (v.read x.asked piece) (parse x piece.length) := by
  have part : x.response.part = v.stage.part v.head := by
    have field := congrArg part holds.head
    exact field
  have fits := sound.fits
  cases stands : v.stage with
  | lines line =>
    rw [stands] at fits part
    have inHeader : x.response.part.inHeader = true := by rw [part]; exact fits.1
    rw [parse, if_pos inHeader]
    exact receiveHeader_settles holds sound stands
  | complete => exact absurd stands going.1
  | refused => exact absurd stands going.2
  | _ =>
    rw [stands] at part
    have beyond : x.response.part.inHeader = false := by rw [part]; rfl
    rw [parse, if_neg (by simp [beyond])]
    exact Answers.settles ⟨rfl, rfl⟩ beyond (by rw [part]; nofun)
      (receiveBody_answers holds fits (by simp [stands]) going)

theorem receive_settles (holds : Holds x v [])
    (sound : v.Sound) (going : v.stage ≠ .complete ∧ v.stage ≠ .refused)
    (room : x.response.pos + piece.length ≤ x.response.buflen) :
    Settles x (v.read x.asked piece) (receive x (.bytes piece)) := by
  obtain ⟨data, stored, there⟩ := store_holds holds room
  obtain ⟨after, ended, parsed, keeps, mirrors⟩ := parse_settles there sound going
  refine ⟨after, ended, ?_, ⟨keeps.sink, keeps.asked⟩, mirrors⟩
  simp only [receive, stored, Option.bind_eq_bind, Option.bind_some]
  exact parsed

theorem Holds.open_ (holds : Holds x v piece)
    (sound : v.Sound) (going : v.stage ≠ .complete ∧ v.stage ≠ .refused) :
    x.response.part ≠ .done ∧
      (x.response.part = .body → x.response.bodytype = .len → ∃ left, v.stage = .counted left ∧
        0 < left) := by
  have part : x.response.part = v.stage.part v.head := by
    have field := congrArg part holds.head
    exact field
  have kind : x.response.bodytype = v.head.bodytype := by
    have field := congrArg bodytype holds.head
    exact field
  have fits := sound.fits
  rw [part, kind]
  cases stands : v.stage with
  | lines line =>
    rw [stands] at fits
    have inHeader := fits.1
    constructor <;> intro at_ <;> simp only [Stage.part] at at_ <;> rw [at_] at inHeader <;>
      simp [ResponsePart.inHeader] at inHeader
  | complete => exact absurd stands going.1
  | refused => exact absurd stands going.2
  | untilClose =>
    rw [stands] at fits
    refine ⟨by rintro ⟨⟩, fun _ counted => ?_⟩
    rw [show v.head.bodytype = .full from fits] at counted
    simp at counted
  | counted left =>
    rw [stands] at fits
    exact ⟨by rintro ⟨⟩, fun _ _ => ⟨left, rfl, fits.2⟩⟩
  | sizeLine raw => exact ⟨by rintro ⟨⟩, by rintro ⟨⟩⟩
  | chunk left =>
    rw [stands] at fits
    refine ⟨by rintro ⟨⟩, fun _ counted => ?_⟩
    rw [fits.1] at counted
    simp at counted

theorem growWindow_holds (holds : Holds x v []) (sound : v.Sound)
    (going : v.stage ≠ .complete ∧ v.stage ≠ .refused) :
    ∃ window ok, growWindow x = (window, ok) ∧ Keeps x window ∧
      (if ok then Holds window v [] ∧ window.response.pos < window.response.buflen
      else maxContentLength < v.held ∧ window = { x with err := true }) := by
  obtain ⟨notDone, onlyCounted⟩ := holds.open_ sound going
  have few : x.response.pos ≤ v.held := by
    have front := x.front_length v.body
    have pos := holds.pos
    simp only [length_append, held] at pos ⊢
    omega
  by_cases grows : x.response.buflen - x.response.pos < minRecvWindow ∧ x.response.part ≠ .done ∧
      ¬(x.response.part = .body ∧ x.response.bodytype = .len ∧ x.bodyStreams = false)
  · have floor := grows.1
    by_cases room : min (max (x.response.buflen * 2) (x.response.pos + minRecvWindow)) maxBuffer <
        x.response.pos + minRecvWindow
    · -- The cap leaves less than the floor.
      refine ⟨{ x with err := true }, false, by simp only [growWindow, if_pos grows, if_pos room],
        ⟨rfl, rfl⟩, ?_⟩
      simp only [Bool.false_eq_true, if_false]
      refine ⟨?_, trivial⟩
      simp only [maxBuffer] at room
      omega
    · -- The window is under the floor: the buffer grows to have it again.
      have larger : x.response.buflen ≤
          min (max (x.response.buflen * 2) (x.response.pos + minRecvWindow)) maxBuffer := by
        omega
      have opened : x.response.pos <
          min (max (x.response.buflen * 2) (x.response.pos + minRecvWindow)) maxBuffer := by
        simp only [minRecvWindow] at room ⊢
        omega
      refine ⟨{ x with response := { x.response with
        buflen := min (max (x.response.buflen * 2) (x.response.pos + minRecvWindow)) maxBuffer } },
        true, ?_, ⟨rfl, rfl⟩, ?_, opened⟩
      · simp only [growWindow, if_pos grows, if_neg room]
      · exact { holds with
          inside := le_trans holds.inside larger
          sized := lt_of_lt_of_le holds.sized larger
          counted := fun left isCounted streams =>
            le_trans (holds.counted left isCounted streams) larger }
  · refine ⟨x, true, by simp only [growWindow, if_neg grows], ⟨rfl, rfl⟩, holds, ?_⟩
    by_cases floor : x.response.buflen - x.response.pos < minRecvWindow
    · -- Only a buffer of the size of its body is left with less than the floor.
      have exact_ : x.response.part = .body ∧ x.response.bodytype = .len ∧ x.bodyStreams = false := by
        by_contra other
        exact grows ⟨floor, notDone, other⟩
      obtain ⟨left, stands, positive⟩ := onlyCounted exact_.1 exact_.2.1
      have bounded := holds.counted left stands exact_.2.2
      have pos := holds.pos
      rw [stands, show (Stage.counted left).tail = [] from rfl, append_nil] at pos
      omega
    · simp only [minRecvWindow] at floor
      omega

theorem growWindow_open (holds : Holds x v []) (sound : v.Sound)
    (going : v.stage ≠ .complete ∧ v.stage ≠ .refused) (small : v.held ≤ maxContentLength) :
    ∃ window, growWindow x = (window, true) ∧ Keeps x window ∧ Holds window v [] ∧
      window.response.pos < window.response.buflen := by
  obtain ⟨window, ok, grown, keeps, there⟩ := growWindow_holds holds sound going
  cases ok with
  | true => exact ⟨window, grown, keeps, there⟩
  | false => exact absurd small (Nat.not_le_of_lt there.1)

/-- A transfer is finished where its reader is over or has failed. -/
theorem Mirrors.finished (mirrors : Mirrors x v) (sound : v.Sound) :
    x.finished = true ↔ v.stage = .complete ∨ v.stage = .refused := by
  rw [Mirrors] at mirrors
  cases stands : v.stage with
  | complete =>
    rw [stands] at mirrors
    have part : x.response.part = .done := by
      have field := congrArg part (Finished.head mirrors)
      exact field
    simp [Inbound.finished, part]
  | refused =>
    rw [stands] at mirrors
    simp [Inbound.finished, Failed.err mirrors]
  | _ =>
    rw [stands] at mirrors
    have notDone := (Holds.open_ mirrors sound (by simp [stands])).1
    simp [Inbound.finished, Holds.noError mirrors, notDone]

theorem Mirrors.holds (mirrors : Mirrors x v) (sound : v.Sound) (unfinished : x.finished = false) :
    Holds x v [] ∧ v.stage ≠ .complete ∧ v.stage ≠ .refused := by
  have going : ¬(v.stage = .complete ∨ v.stage = .refused) := by
    rw [← mirrors.finished sound, unfinished]
    simp
  rw [not_or] at going
  rw [Mirrors] at mirrors
  cases stands : v.stage with
  | complete => exact absurd stands going.1
  | refused => exact absurd stands going.2
  | _ =>
    rw [stands] at mirrors
    exact ⟨mirrors, by rintro ⟨⟩, by rintro ⟨⟩⟩

/-- Every stretch of the bytes leaves no more to hold than the buffer may grow to. -/
def WithinCaps (asked : Asked) (v : Reader) (bytes : List UInt8) : Prop :=
  ∀ part, part <+: bytes → (v.read asked part).held ≤ maxContentLength

/-- Receives that arrive mirror the reading of their bytes. -/
theorem Arrives.mirrors {last : Inbound} {bytes : List UInt8} (arrives : Arrives x bytes last) :
    ∀ v : Reader, v.Sound → Mirrors x v → WithinCaps x.asked v bytes →
      Keeps x last ∧ Mirrors last (v.read x.asked bytes) := by
  -- Each receive takes the reader over the bytes it brings.
  induction arrives with
  | waits x => exact fun v _ mirrors _ => ⟨⟨rfl, rfl⟩, mirrors⟩
  | @ends x bytes finished =>
    intro v sound mirrors _
    rcases (mirrors.finished sound).mp finished with complete | refused
    · rw [read_complete complete]
      exact ⟨⟨rfl, rfl⟩, mirrors⟩
    · rw [read_refused refused]
      exact ⟨⟨rfl, rfl⟩, mirrors⟩
  | overgrown bytes unfinished grown =>
    intro v sound mirrors caps
    obtain ⟨holds, going⟩ := mirrors.holds sound unfinished
    obtain ⟨window, opens, _⟩ := growWindow_open holds sound going (caps [] nil_prefix)
    rw [grown] at opens
    simp at opens
  | @receives x window after last piece rest ended unfinished grown brought room came goesOn ih =>
    intro v sound mirrors caps
    obtain ⟨holds, going⟩ := mirrors.holds sound unfinished
    obtain ⟨window', opens, keeps, there, _⟩ := growWindow_open holds sound going (caps [] nil_prefix)
    rw [grown] at opens
    obtain rfl : window = window' := congrArg Prod.fst opens
    have small := caps piece (prefix_append _ _)
    rw [← keeps.asked] at small
    obtain ⟨after', ended', took, kept, mirrored⟩ := receive_settles there sound going room
    have mirrored := mirrored.resolve_right fun grown => absurd small (Nat.not_le_of_lt grown.2)
    rw [came] at took
    obtain ⟨rfl, rfl⟩ := Prod.mk.inj (Option.some.inj took)
    have same : Keeps x (settle (after, ended)) := by
      refine keeps.trans (Keeps.trans kept ?_)
      cases ended <;> exact ⟨rfl, rfl⟩
    rw [keeps.asked] at mirrored
    obtain ⟨keepsOn, ends⟩ := ih (v.read x.asked piece) (sound.read _ _) mirrored (by
      intro part inside
      rw [same.asked, ← read_append]
      exact caps _ ((prefix_append_right_inj _).mpr inside))
    rw [same.asked, ← read_append] at ends
    exact ⟨same.trans keepsOn, ends⟩

theorem Holds.fails (holds : Holds x v []) (ended : Ended)
    (failed : ended = .headerFailed ∨ ended = .bodyFailed) :
    Keeps x (settle ({ x with err := true }, ended)) ∧
      Mirrors (settle ({ x with err := true }, ended)) v.broken := by
  have hdr : x.response.hdr = v.head.hdr := by
    have field := congrArg hdr holds.head
    exact field
  have owed : x.handed.flatten <+: x.sunk v.body := by rw [holds.handed]
  rcases failed with rfl | rfl
  · exact ⟨⟨rfl, rfl⟩, rfl, rfl, rfl, hdr, holds.inside, owed⟩
  · exact ⟨⟨rfl, rfl⟩, rfl, rfl, rfl, hdr, holds.inside, owed⟩

theorem Holds.closes (holds : Holds x v [])
    (stands : v.stage = .untilClose) (kind : x.response.bodytype = .full) :
    receiveBody { x with err := true } (-1) = some (bodyCloses { x with err := true }) ∧
      (bodyCloses { x with err := true }).2 = true ∧
      Keeps x (bodyCloses { x with err := true }).1 ∧
      Finished (bodyCloses { x with err := true }).1 { v with stage := .complete } := by
  have len : x.response.len = (x.front v.body).length := by
    have field := congrArg len holds.head
    rw [stands] at field
    exact field
  have head := holds.head
  have data := holds.data
  rw [stands] at head data
  simp only [Stage.tail, Stage.own, Stage.part, Stage.len, append_nil] at head data
  have kept : x.response.data.take x.response.len = x.front v.body := by
    rw [len]
    exact (prefix_iff_eq_take.mp data).symm
  refine ⟨by rw [receiveBody, if_pos (.inl (by decide))], ?_⟩
  rw [bodyCloses, if_neg (by simp [kind])]
  refine ⟨rfl, ⟨rfl, rfl⟩, rfl, ?_, fun _ => rfl, ?_, ?_, holds.handed⟩
  · show { x.response.toHead with part := .done, connClose := true } =
      { v.head with part := .done, len := x.response.len, connClose := true }
    rw [len, head]
  · show (if _ then _ else _ : List UInt8).length ≤ x.response.buflen
    split
    · exact le_trans (length_take_le' _ _) holds.inside
    · exact holds.inside
  · intro _
    show (if _ then _ else _ : List UInt8).take x.response.len = x.front v.body
    split
    · rw [take_take, Nat.min_self, kept]
    · exact kept

/-- The end of the connection ends the reading with it. -/
theorem closed_mirrors (mirrors : Mirrors x v) (sound : v.Sound) (small : v.held ≤ maxContentLength) :
    ∃ y, closed x = some y ∧ Keeps x y ∧ Mirrors y v.close := by
  cases unfinished : x.finished with
  | true =>
    -- A finished transfer does not read again.
    have same : v.close = v := by
      rcases (mirrors.finished sound).mp unfinished with complete | refused
      · simp [close, complete]
      · simp [close, refused]
    rw [same]
    exact ⟨x, by simp [closed, unfinished], ⟨rfl, rfl⟩, mirrors⟩
  | false =>
    obtain ⟨holds, going⟩ := mirrors.holds sound unfinished
    obtain ⟨window, opens, keeps, there, _⟩ := growWindow_open holds sound going small
    have part : window.response.part = v.stage.part v.head := by
      have field := congrArg part there.head
      exact field
    have kind : window.response.bodytype = v.head.bodytype := by
      have field := congrArg bodytype there.head
      exact field
    have fits := sound.fits
    have shuts : closed x = (receive window .closed).map settle := by simp [closed, unfinished, opens]
    rw [shuts]
    cases stands : v.stage with
    | complete => exact absurd stands going.1
    | refused => exact absurd stands going.2
    | lines line =>
      rw [stands] at fits part
      have broken : v.close = v.broken := by rw [close, stands]
      have inHeader : window.response.part.inHeader = true := by rw [part]; exact fits.1
      obtain ⟨kept, mirrored⟩ := there.fails .headerFailed (.inl rfl)
      rw [broken]
      refine ⟨_, ?_, keeps.trans kept, mirrored⟩
      simp [receive, inHeader]
    | untilClose =>
      rw [stands] at fits part
      have full : window.response.bodytype = .full := kind.trans fits
      obtain ⟨takes, ok, kept, finished⟩ := there.closes stands full
      have complete : v.close = { v with stage := .complete } := by rw [close, stands]
      rw [complete]
      refine ⟨(bodyCloses { window with err := true }).1, ?_, keeps.trans kept, finished⟩
      simp [receive, passBody, part, Stage.part, ResponsePart.inHeader, takes, ok, settle]
    | _ =>
      rw [stands] at fits part
      have broken : v.close = v.broken := by rw [close, stands]
      have framed : window.response.bodytype ≠ .full := by
        rw [kind, fits.1]
        rintro ⟨⟩
      obtain ⟨kept, mirrored⟩ := there.fails .bodyFailed (.inr rfl)
      rw [broken]
      refine ⟨_, ?_, keeps.trans kept, mirrored⟩
      have takes : receiveBody { window with err := true } (-1) =
          some ({ window with err := true }, false) := by
        rw [receiveBody, if_pos (.inl (by decide)), bodyCloses, if_pos framed]
      simp [receive, passBody, part, Stage.part, ResponsePart.inHeader, takes]

/-- A transfer has come to what its reader says. -/
theorem Mirrors.outcome (mirrors : Mirrors x v) (sound : v.Sound) : x.outcome = v.outcome x.sink.isSome := by
  rw [Mirrors] at mirrors
  cases stands : v.stage with
  | complete =>
    rw [stands] at mirrors
    have finished : Finished x v := mirrors
    have fields := finished.head
    have discard : x.response.discard = v.head.discard := by
      have field := congrArg discard fields
      exact field
    have status : x.response.status = v.head.status := by
      have field := congrArg status fields
      exact field
    have hdr : x.response.hdr = v.head.hdr := by
      have field := congrArg hdr fields
      exact field
    have part : x.response.part = .done := by
      have field := congrArg part fields
      exact field
    have kept := finished.kept
    have handed := finished.handed
    cases given : x.sink with
    | none =>
      simp [Inbound.outcome, Reader.outcome, finished.noError, stands, status, hdr, part, given,
        kept given, Inbound.front, Inbound.bodyStreams, discard]
    | some sink =>
      cases dropped : v.head.discard <;>
        simp [Inbound.outcome, Reader.outcome, finished.noError, stands, status, hdr, part, given,
          handed, Inbound.sunk, discard, dropped]
  | refused =>
    rw [stands] at mirrors
    have failed : Failed x v := mirrors
    simp [Inbound.outcome, Reader.outcome, failed.err, failed.part, failed.status, failed.hdr, stands]
  | _ =>
    rw [stands] at mirrors
    have holds : Holds x v [] := mirrors
    have going : v.stage ≠ .complete ∧ v.stage ≠ .refused := by simp [stands]
    have notDone := (holds.open_ sound going).1
    have discard : x.response.discard = v.head.discard := by
      have field := congrArg discard holds.head
      exact field
    have status : x.response.status = v.head.status := by
      have field := congrArg status holds.head
      exact field
    have hdr : x.response.hdr = v.head.hdr := by
      have field := congrArg hdr holds.head
      exact field
    have handed := holds.handed
    have waits : (x.response.part == .done) = (v.stage == .complete || v.stage == .refused) := by
      rw [beq_eq_false_iff_ne.mpr notDone, beq_eq_false_iff_ne.mpr going.1, beq_eq_false_iff_ne.mpr going.2]
      rfl
    rw [stands] at waits
    cases given : x.sink <;> cases dropped : v.head.discard <;>
      simp [Inbound.outcome, Reader.outcome, holds.noError, stands, status, hdr, notDone, given,
        handed, Inbound.sunk, discard, dropped, waits]

open Option

/-- The end of a line. -/
def crlf : List UInt8 := [13, 10]

/-- The number that hexadecimal digits write. -/
def hexNumber (digits : List UInt8) : Nat :=
  digits.foldl (fun number b => number * 16 + (hexDigit b).getD 0) 0

/-- What may stand between the size of a chunk and the end of its line. -/
structure Extension (text : List UInt8) : Prop where
  unbroken : 10 ∉ text
  opens : ∀ b, text.head? = some b → b = 59 ∨ b = 32 ∨ b = 9

/-- A chunk as its sender writes it. -/
structure Chunk where
  digits : List UInt8
  extension : List UInt8
  data : List UInt8

/-- A size line as its sender writes it. -/
def sizeLine (digits extension : List UInt8) : List UInt8 := digits ++ extension ++ crlf

/-- The size line, the bytes and the end of line of a chunk. -/
def Chunk.render (chunk : Chunk) : List UInt8 := sizeLine chunk.digits chunk.extension ++ chunk.data ++ crlf

/-- A chunk of at least one byte whose size line says how many there are. -/
structure Chunk.WellFormed (chunk : Chunk) : Prop where
  hex : ∀ b ∈ chunk.digits, (hexDigit b).isSome
  extension : Extension chunk.extension
  size : hexNumber chunk.digits = chunk.data.length
  positive : chunk.data ≠ []
  within : chunk.data.length ≤ maxContentLength

/-- A chunked body as its sender writes it, with the line of size zero and what follows it. -/
structure Chunked where
  chunks : List Chunk
  zeros : List UInt8
  extension : List UInt8
  trailers : List UInt8

/-- The chunks, the line of size zero and the trailers up to their empty line. -/
def Chunked.render (body : Chunked) : List UInt8 :=
  body.chunks.flatMap Chunk.render ++ sizeLine body.zeros body.extension ++ body.trailers

/-- A chunked body whose parts are well formed. -/
structure Chunked.WellFormed (body : Chunked) : Prop where
  chunks : ∀ chunk ∈ body.chunks, chunk.WellFormed
  some_ : body.zeros ≠ []
  zeros : ∀ b ∈ body.zeros, b = 48
  extension : Extension body.extension

variable {digits : List UInt8}

theorem hexFrom_digits (hex : ∀ b ∈ digits, (hexDigit b).isSome)
    {rest : List UInt8} (stops : ∀ b, rest.head? = some b → hexDigit b = none) (val : Nat) :
    hexFrom (digits ++ rest) val = digits.foldl (fun number b => number * 16 + (hexDigit b).getD 0) val := by
  induction digits generalizing val with
  | nil =>
    cases rest with
    | nil => rfl
    | cons b rest => simp [hexFrom, stops b rfl]
  | cons b digits ih =>
    obtain ⟨digit, value⟩ := isSome_iff_exists.mp (hex b (by simp))
    simp only [cons_append, hexFrom, value, foldl_cons, getD_some]
    exact ih (fun b inside => hex b (mem_cons_of_mem _ inside)) _

theorem Extension.stops {text : List UInt8} (extension : Extension text) {b : UInt8}
    (head : (text ++ [13]).head? = some b) : hexDigit b = none ∧ b ≠ 120 ∧ b ≠ 88 := by
  have found : b = 59 ∨ b = 32 ∨ b = 9 ∨ b = 13 := by
    cases text with
    | nil => exact .inr (.inr (.inr (by simpa using head.symm)))
    | cons first rest =>
      rcases extension.opens b (by simpa using head) with same | same | same
      · exact .inl same
      · exact .inr (.inl same)
      · exact .inr (.inr (.inl same))
  rcases found with rfl | rfl | rfl | rfl <;> decide

theorem hexDigit_plain {b : UInt8} (digit : (hexDigit b).isSome) :
    b ≠ 120 ∧ b ≠ 88 ∧ b ≠ 10 ∧ isSkipped b = false := by
  refine ⟨?_, ?_, ?_, ?_⟩
  · rintro rfl
    exact absurd digit (by decide)
  · rintro rfl
    exact absurd digit (by decide)
  · rintro rfl
    exact absurd digit (by decide)
  · by_contra skipped
    simp only [Bool.not_eq_false, isSkipped, Bool.or_eq_true, beq_iff_eq] at skipped
    rcases skipped with ((rfl | rfl) | rfl) | rfl <;> exact absurd digit (by decide)

variable {extension : List UInt8}

theorem strtoul16_digits (some_ : digits ≠ [])
    (hex : ∀ b ∈ digits, (hexDigit b).isSome) (ext : Extension extension) :
    strtoul16 (digits ++ (extension ++ [13])) = hexNumber digits := by
  have stops : ∀ b, (extension ++ [13]).head? = some b → hexDigit b = none := fun b head => (ext.stops head).1
  have unmarked : (digits ++ (extension ++ [13])).getD 1 0 ≠ 120 ∧
      (digits ++ (extension ++ [13])).getD 1 0 ≠ 88 := by
    rcases digits with _ | ⟨first, _ | ⟨second, digits⟩⟩
    · exact absurd rfl some_
    · -- The second byte opens the extension or ends the line.
      cases found : (extension ++ [13]).head? with
      | none => simp at found
      | some b =>
        have marks := ext.stops found
        cases text : extension ++ [13] with
        | nil => simp at text
        | cons c rest =>
          rw [text] at found
          obtain rfl : c = b := by simpa using found
          exact ⟨marks.2.1, marks.2.2⟩
    · have plain := hexDigit_plain (hex second (by simp))
      exact ⟨plain.1, plain.2.1⟩
  have unprefixed : ¬ ((digits ++ (extension ++ [13])).getD 0 0 = 48 ∧
      ((digits ++ (extension ++ [13])).getD 1 0 = 120 ∨ (digits ++ (extension ++ [13])).getD 1 0 = 88) ∧
      (hexDigit ((digits ++ (extension ++ [13])).getD 2 0)).isSome) := by
    rintro ⟨_, marked | marked, _⟩
    · exact unmarked.1 marked
    · exact unmarked.2 marked
  rw [strtoul16, if_neg unprefixed, hexFrom_digits hex stops, hexNumber]

variable {lead : List UInt8}

theorem chunkSize_line (skipped : ∀ b ∈ lead, isSkipped b)
    (some_ : digits ≠ []) (hex : ∀ b ∈ digits, (hexDigit b).isSome) (ext : Extension extension)
    (within : hexNumber digits ≤ maxContentLength) :
    chunkSize (lead ++ (digits ++ (extension ++ [13]))) = some (hexNumber digits) := by
  have value := strtoul16_digits some_ hex ext
  cases digits with
  | nil => exact absurd rfl some_
  | cons first digits =>
    have plain := hexDigit_plain (hex first (by simp))
    have opens : (lead ++ (first :: digits ++ (extension ++ [13]))).dropWhile isSkipped =
        first :: (digits ++ (extension ++ [13])) := by
      rw [dropWhile_append_of_pos skipped, cons_append, dropWhile_cons_of_neg (by simp [plain.2.2.2])]
    rw [chunkSize, opens]
    have digit : ¬ (hexDigit first).isNone = true := by
      have value := hex first (by simp)
      intro none_
      rw [isNone_iff_eq_none.mp none_] at value
      simp at value
    simp only [if_neg digit, ← cons_append, value, if_neg (Nat.not_lt_of_le within)]

variable {asked : Asked}

variable {v : Reader}

theorem read_sizeLine_render
    (stands : v.stage = .sizeLine lead) (lead_ : lead = [] ∨ lead = crlf) (some_ : digits ≠ [])
    (hex : ∀ b ∈ digits, (hexDigit b).isSome) (ext : Extension extension)
    (within : hexNumber digits ≤ maxContentLength) :
    v.read asked (sizeLine digits extension) = match hexNumber digits with
      | 0 => { v with stage := .complete }
      | size + 1 => { v with stage := .chunk (size + 1) } := by
  -- The newline of the line is the first one that is not skipped.
  have skipped : ∀ b ∈ lead, isSkipped b := by
    rcases lead_ with rfl | rfl
    · simp
    · exact all_eq_true.1 (by decide)
  have unbroken : 10 ∉ digits ++ (extension ++ [13]) := by
    simp only [mem_append, mem_singleton, not_or]
    exact ⟨fun inside => (hexDigit_plain (hex 10 inside)).2.2.1 rfl, ext.unbroken, by decide +kernel⟩
  have behind : 10 ∉ (lead ++ (digits ++ (extension ++ [13]))).drop 2 := by
    rcases lead_ with rfl | rfl
    · exact fun inside => unbroken (mem_of_mem_drop inside)
    · exact unbroken
  have long : 2 ≤ (lead ++ (digits ++ (extension ++ [13]))).length := by
    have := length_pos_iff.mpr some_
    simp only [length_append, length_cons, length_nil]
    omega
  have cut : sizeLine digits extension = (digits ++ (extension ++ [13])) ++ [10] := by simp [sizeLine, crlf]
  rw [cut, read_append, read_sizeLine stands _ behind, read_cons,
    step_size rfl long, chunkSize_line skipped some_ hex ext within]
  cases hexNumber digits <;> rfl

theorem read_chunk_render {chunk : Chunk}
    (stands : v.stage = .sizeLine lead) (lead_ : lead = [] ∨ lead = crlf) (formed : chunk.WellFormed) :
    v.read asked chunk.render = { v with stage := .sizeLine crlf, body := v.body ++ chunk.data } := by
  have positive := length_pos_iff.mpr formed.positive
  have some_ : chunk.digits ≠ [] := by
    intro none_
    have size := formed.size
    rw [none_] at size
    simp only [hexNumber, foldl_nil] at size
    omega
  obtain ⟨size, counts⟩ : ∃ size, chunk.data.length = size + 1 := ⟨chunk.data.length - 1, by omega⟩
  rw [Chunk.render, List.append_assoc, read_append,
    read_sizeLine_render stands lead_ some_ formed.hex formed.extension
      (by rw [formed.size]; exact formed.within), formed.size, counts]
  rw [read_chunk rfl (by omega), if_neg (by rw [length_append, counts]; omega)]
  simp only [← counts, take_left, drop_left]
  rw [read_sizeLine rfl crlf (by decide)]
  rfl

theorem read_chunks_render (asked : Asked) (stands : v.stage = .sizeLine lead)
    (lead_ : lead = [] ∨ lead = crlf) (chunks : List Chunk)
    (formed : ∀ chunk ∈ chunks, chunk.WellFormed) :
    ∃ lead, (lead = [] ∨ lead = crlf) ∧ v.read asked (chunks.flatMap Chunk.render) =
      { v with stage := .sizeLine lead, body := v.body ++ (chunks.map Chunk.data).flatten } := by
  induction chunks generalizing v lead with
  | nil =>
    obtain ⟨head, stage, body⟩ := v
    obtain rfl := stands
    exact ⟨lead, lead_, by simp⟩
  | cons chunk chunks ih =>
    obtain ⟨lead', lead'_, read⟩ := ih
      (v := { v with stage := .sizeLine crlf, body := v.body ++ chunk.data }) rfl (.inr rfl)
      (fun chunk inside => formed chunk (mem_cons_of_mem _ inside))
    refine ⟨lead', lead'_, ?_⟩
    rw [flatMap_cons, read_append, read_chunk_render stands lead_ (formed chunk (by simp)), read]
    simp

theorem hexNumber_zeros {zeros : List UInt8} (zero : ∀ b ∈ zeros, b = 48) : hexNumber zeros = 0 := by
  rw [eq_replicate_of_mem zero, hexNumber]
  generalize zeros.length = n
  induction n with
  | zero => rfl
  | succ n ih => exact ih

theorem read_chunked_render (stands : v.stage = .sizeLine []) {body : Chunked} (formed : body.WellFormed) :
    v.read asked body.render =
      { v with stage := .complete, body := v.body ++ (body.chunks.map Chunk.data).flatten } := by
  obtain ⟨lead, lead_, read⟩ := read_chunks_render asked stands (.inl rfl) body.chunks formed.chunks
  have hex : ∀ b ∈ body.zeros, (hexDigit b).isSome := by
    intro b inside
    rw [formed.zeros b inside]
    rfl
  rw [Chunked.render, read_append, read_append, read,
    read_sizeLine_render rfl lead_ formed.some_ hex formed.extension
      (by rw [hexNumber_zeros formed.zeros]; exact Nat.zero_le _), hexNumber_zeros formed.zeros]
  exact read_complete rfl body.trailers

theorem held_step (asked : Asked) (v : Reader) (b : UInt8) : (v.step asked b).held ≤ v.held + 1 := by
  have bare : ∀ h : Head, h.stage.tail = [] := stage_tail
  rw [step]
  cases stands : v.stage with
  | lines line =>
    by_cases newline : b = 10
    · simp only [if_pos newline]
      rcases headerLine asked line v.head with ⟨after, _ | _⟩
      · simp [held, Stage.tail]
        omega
      · simp only [held, bare, length_nil]
        omega
    · simp only [if_neg newline]
      split <;> simp [held, stands, Stage.tail] <;> omega
  | untilClose => simp [held, stands, Stage.tail]
  | counted left =>
    by_cases last : left = 1 <;> simp [held, stands, Stage.tail, last]
  | sizeLine raw =>
    by_cases newline : b = 10 ∧ 2 ≤ raw.length
    · simp only [if_pos newline]
      rcases chunkSize raw with _ | _ | size <;>
        simp [held, broken, stands, Stage.tail] <;> omega
    · simp only [if_neg newline]
      simp [held, stands, Stage.tail]
      omega
  | chunk left =>
    by_cases last : left = 1 <;> simp [held, stands, Stage.tail, last]
  | complete => simp
  | refused => simp

theorem withinCaps_of_length {bytes : List UInt8}
    (short : v.held + bytes.length ≤ maxContentLength) : WithinCaps asked v bytes := by
  have grows : ∀ (part : List UInt8) (v : Reader), (v.read asked part).held ≤ v.held + part.length := by
    intro part
    induction part with
    | nil => intro v; simp
    | cons b rest ih =>
      intro v
      have first := held_step asked v b
      have others := ih (v.step asked b)
      rw [read_cons, length_cons]
      omega
  intro part inside
  have := grows part v
  have := inside.length_le
  omega

/-- The cursors stay in the buffer, and every receive that the open window takes stays in it. -/
structure Inside (x : Inbound) (rest : List UInt8) : Prop where
  written : x.response.data.length ≤ x.response.buflen
  pos : x.finished = false → x.response.pos ≤ x.response.data.length
  len : x.finished = false → x.response.part = .bodyChunklen → x.response.len ≤ x.response.pos
  next : x.finished = false → ∃ window, growWindow x = (window, true) ∧
    window.response.pos < window.response.buflen ∧
    ∀ piece, piece <+: rest → window.response.pos + piece.length ≤ window.response.buflen →
      ∃ after, receive window (.bytes piece) = some after

theorem fresh_mirrors {sink : Option Sink}
    (accepts : ∀ takes, sink = some takes → ∀ handed run, takes handed run = true) :
    Mirrors (fresh asked sink) { head := {} } := by
  have empty : (fresh asked sink).front [] = [] := by
    rw [Inbound.front]
    split <;> rfl
  have nothing : (fresh asked sink).sunk [] = [] := by
    rw [Inbound.sunk]
    split <;> rfl
  refine ⟨rfl, accepts, rfl, ?_, ?_, Nat.zero_le _, Nat.succ_pos _, by rintro _ ⟨⟩, ?_, rfl⟩
  · show (fresh asked sink).front [] ++ [] ++ [] <+: []
    rw [empty]
    exact nil_prefix
  · show 0 = ((fresh asked sink).front [] ++ []).length
    rw [empty]
    rfl
  · exact nothing.symm

theorem fresh_sound : ({ head := {} } : Reader).Sound :=
  ⟨⟨rfl, by simp, by decide⟩, fun _ _ => rfl,
    fun _ => ⟨by decide, nofun, nofun, fun _ => rfl⟩⟩

theorem read_announced {header : List UInt8} {h : Head}
    (walks : headerWalk asked header.length header {} = ⟨h, [], true⟩)
    (chunked : h.part = .bodyChunklen) :
    ({ head := {} } : Reader).read asked header = { head := h, stage := .sizeLine [] } := by
  have reads := headerWalk_reads asked header.length header {} (le_refl _) rfl (fresh_sound.framed (by simp))
  rw [walks] at reads
  rw [reads.went rfl]
  simp [Head.stage, chunked]

theorem Mirrors.inside {x : Inbound} {rest : List UInt8} (mirrors : Mirrors x v)
    (sound : v.Sound) (caps : WithinCaps x.asked v rest) : Inside x rest := by
  have small : v.held ≤ maxContentLength := caps [] nil_prefix
  refine ⟨?_, ?_, ?_, ?_⟩
  · rw [Mirrors] at mirrors
    cases stands : v.stage with
    | complete => rw [stands] at mirrors; exact Finished.inside mirrors
    | refused => rw [stands] at mirrors; exact Failed.inside mirrors
    | _ => rw [stands] at mirrors; exact Holds.inside mirrors
  · intro unfinished
    obtain ⟨holds, _⟩ := mirrors.holds sound unfinished
    have reach := holds.data.length_le
    rw [length_append, ← holds.pos] at reach
    omega
  · intro unfinished inSize
    obtain ⟨holds, _⟩ := mirrors.holds sound unfinished
    have part := congrArg part holds.head
    have len := congrArg len holds.head
    have pos := holds.pos
    have fits := sound.fits
    rw [show x.response.toHead.part = .bodyChunklen from inSize] at part
    cases stands : v.stage with
    | sizeLine raw =>
      rw [stands] at len pos
      rw [pos, length_append, show x.response.len = (x.front v.body).length from len]
      omega
    | lines line =>
      rw [stands] at part fits
      have inHeader := fits.1
      rw [show v.head.part = .bodyChunklen from part.symm] at inHeader
      simp [ResponsePart.inHeader] at inHeader
    | _ => rw [stands] at part; simp [Stage.part] at part
  · intro unfinished
    obtain ⟨holds, going⟩ := mirrors.holds sound unfinished
    obtain ⟨window, opens, keeps, there, open_⟩ := growWindow_open holds sound going small
    refine ⟨window, opens, open_, fun piece inside room => ?_⟩
    obtain ⟨after, ended, takes, _⟩ := receive_settles there sound going room
    exact ⟨_, takes⟩

theorem Reader.outcome_sinks (ended : v.stage = .complete ∨ v.stage = .refused)
    (sinks : Bool) : v.outcome sinks = v.outcome false := by
  rcases ended with complete | refused
  · cases sinks <;> simp [outcome, complete]
  · cases sinks <;> simp [outcome, refused]

theorem Reader.close_ended (v : Reader) : v.close.stage = .complete ∨ v.close.stage = .refused := by
  rw [Reader.close]
  cases stands : v.stage with
  | untilClose => exact .inl rfl
  | complete => exact .inl stands
  | refused => exact .inr stands
  | _ => exact .inr rfl

theorem Reader.Sound.close (sound : v.Sound) : v.close.Sound := by
  have ended := v.close_ended
  refine ⟨?_, fun line stands => ?_, fun live => ?_⟩
  · rcases ended with complete | refused
    · rw [complete]
      trivial
    · rw [refused]
      trivial
  · rcases ended with complete | refused <;> simp_all
  · rw [Reader.close] at live ⊢
    cases stands : v.stage with
    | untilClose => exact sound.framed (by simp [stands])
    | complete => exact sound.framed (by simp [stands])
    | refused => simp [stands] at live
    | _ => simp [stands, broken] at live

/-- A response says the same in every split, to a sink as without one, and inside its buffer. -/
theorem arrives_alike (asked : Asked) (sink : Option Sink)
    (accepts : ∀ takes, sink = some takes → ∀ handed run, takes handed run = true)
    (bytes : List UInt8) (caps : WithinCaps asked { head := {} } bytes) :
    (∀ x y, Arrives (fresh asked sink) bytes x → Arrives (fresh asked sink) bytes y →
      x.outcome = y.outcome ∧ ∃ x' y', closed x = some x' ∧ closed y = some y' ∧ x'.outcome = y'.outcome) ∧
    (∀ x y, Arrives (fresh asked sink) bytes x → Arrives (fresh asked none) bytes y →
      (y.finished = true → x.outcome = y.outcome) ∧ ∃ x' y', closed x = some x' ∧
        closed y = some y' ∧ x'.outcome = y'.outcome) ∧
    (∀ header h body, headerWalk asked header.length header {} = ⟨h, [], true⟩ →
      h.part = .bodyChunklen → h.discard = false → Chunked.WellFormed body →
      bytes = header ++ body.render → ∀ x, Arrives (fresh asked sink) bytes x →
        x.outcome = ⟨false, true, h.status, h.hdr, (body.chunks.map Chunk.data).flatten⟩) ∧
    (∀ part rest x, bytes = part ++ rest → Arrives (fresh asked sink) part x → Inside x rest) := by
  -- Every arrival mirrors the one reading of its bytes.
  have follows : ∀ {sink : Option Sink} {part : List UInt8} {x : Inbound},
      (∀ takes, sink = some takes → ∀ handed run, takes handed run = true) →
      part <+: bytes → Arrives (fresh asked sink) part x →
      Keeps (fresh asked sink) x ∧ Mirrors x (({ head := {} } : Reader).read asked part) :=
    fun accepts inside arrives => arrives.mirrors _ fresh_sound (fresh_mirrors accepts)
      fun stretch within => caps stretch (within.trans inside)
  have sound := fun part => fresh_sound.read asked part
  have tells : ∀ {sink : Option Sink} {x : Inbound},
      (∀ takes, sink = some takes → ∀ handed run, takes handed run = true) →
      Arrives (fresh asked sink) bytes x →
      x.outcome = (({ head := {} } : Reader).read asked bytes).outcome sink.isSome ∧
      ∃ x', closed x = some x' ∧
        x'.outcome = (({ head := {} } : Reader).read asked bytes).close.outcome false := by
    intro sink x accepts arrives
    obtain ⟨keeps, mirrors⟩ := follows accepts (prefix_refl _) arrives
    obtain ⟨x', shuts, kept, ends⟩ := closed_mirrors mirrors (sound bytes) (caps bytes (prefix_refl _))
    refine ⟨?_, x', shuts, ?_⟩
    · rw [mirrors.outcome (sound bytes), keeps.sink]
      rfl
    · rw [ends.outcome (sound bytes).close, outcome_sinks (close_ended _)]
  refine ⟨?_, ?_, ?_, ?_⟩
  · intro x y first second
    obtain ⟨one, x', shutsX, endX⟩ := tells accepts first
    obtain ⟨two, y', shutsY, endY⟩ := tells accepts second
    exact ⟨one.trans two.symm, x', y', shutsX, shutsY, endX.trans endY.symm⟩
  · intro x y first second
    have anything : ∀ takes, (none : Option Sink) = some takes → ∀ handed run,
        takes handed run = true := nofun
    obtain ⟨one, x', shutsX, endX⟩ := tells accepts first
    obtain ⟨two, y', shutsY, endY⟩ := tells anything second
    refine ⟨fun finished => ?_, x', y', shutsX, shutsY, endX.trans endY.symm⟩
    obtain ⟨_, mirrors⟩ := follows anything (prefix_refl _) second
    rw [one, two, outcome_sinks ((mirrors.finished (sound bytes)).mp finished)]
    rfl
  · rintro header h body walks chunked kept formed rfl x arrives
    rw [(tells accepts arrives).1, read_append, read_announced walks chunked, read_chunked_render rfl formed]
    simp [outcome, kept]
  · rintro part rest x rfl arrives
    obtain ⟨keeps, mirrors⟩ := follows accepts (prefix_append _ _) arrives
    apply mirrors.inside (sound part)
    intro stretch within
    rw [keeps.asked, show (fresh asked sink).asked = asked from rfl, ← read_append]
    exact caps _ ((prefix_append_right_inj _).mpr within)

/-- The header of a chunked answer. -/
def chunkedHeader : List UInt8 := ascii "HTTP/1.1 200 OK\r\nTransfer-Encoding: chunked\r\n\r\n"

/-- The body of a chunked answer, with an extension and a trailer. -/
def chunkedBody : Chunked where
  chunks := [⟨ascii "2", ascii ";q=1", ascii "ab"⟩, ⟨ascii "01", [], ascii "c"⟩]
  zeros := ascii "0"
  extension := []
  trailers := ascii "T: u\r\n\r\n"

/-- A chunked answer to a request without a sink reads back as its chunks in every split. -/
theorem arrives_alike_chunked :
    (headerWalk ⟨ascii "GET", 0⟩ chunkedHeader.length chunkedHeader {}).ok = true ∧
      ∀ x, Arrives (fresh ⟨ascii "GET", 0⟩ none) (chunkedHeader ++ chunkedBody.render) x →
        x.outcome = ⟨false, true, 200, ascii "Transfer-Encoding: chunked" ++ [0], ascii "abc"⟩ := by
  refine ⟨by decide +kernel, fun x arrives => ?_⟩
  have plain : Extension [] := ⟨by simp, nofun⟩
  have quality : Extension (ascii ";q=1") := ⟨by decide, fun b head => .inl (some.inj head).symm⟩
  exact (arrives_alike ⟨ascii "GET", 0⟩ none nofun (chunkedHeader ++ chunkedBody.render)
    (withinCaps_of_length (by decide +kernel))).2.2.1 chunkedHeader
    (headerWalk ⟨ascii "GET", 0⟩ chunkedHeader.length chunkedHeader {}).head chunkedBody (by decide +kernel)
    (by decide +kernel) (by decide +kernel)
    ⟨by
      intro chunk inside
      simp only [chunkedBody, mem_cons, not_mem_nil, or_false] at inside
      rcases inside with rfl | rfl
      · exact ⟨all_eq_true.1 (by decide), quality, by decide, by decide, by decide⟩
      · exact ⟨all_eq_true.1 (by decide), plain, by decide, by decide, by decide⟩,
      by decide, fun b inside => mem_singleton.1 inside, plain⟩ rfl x arrives

end Libretro.Http
