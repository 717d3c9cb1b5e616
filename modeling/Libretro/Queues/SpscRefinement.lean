import Libretro.Queues.Spsc

/-! The ring, under every interleaving of its two sides, is a bounded first-in first-out stream. -/

namespace Libretro.Spsc

open List Nat WordCursor BoundedStream

variable {w : Nat}

/-- The ring seen from outside: what went in, what came out, and how much fits in between. -/
def Config.channel (config : Config w) : Channel UInt8 where
  published := config.published
  delivered := config.delivered
  capacity := config.queue.capacity.toNat

/-- The room a producer in mid-operation relies on, from the tail it last saw. -/
def ProducerHolds (queue : Queue w) (published seenTail : Nat) : Producer w → Prop
  | .idle => True
  | .loaded _ head => head = queue.head
  | .copying data bytes head first done =>
    head = queue.head ∧ bytes.toNat ≤ data.length ∧
      published + bytes.toNat ≤ seenTail + queue.capacity.toNat ∧
      first = firstPart queue head bytes ∧ done ≤ bytes.toNat ∧
      -- Every byte copied so far already lies in its slot behind the head.
      ∀ byte < done, data[byte]? = some (queue.buffer ((published + byte) % queue.size))
  | .span index length =>
    index = (queue.head &&& queue.mask).toNat ∧ published + length.toNat ≤ seenTail + queue.capacity.toNat ∧
      length.toNat ≤ (spscContig queue (queue.head &&& queue.mask)).toNat
  | .ending index bytes head =>
    head = queue.head ∧ index = (queue.head &&& queue.mask).toNat ∧
      published + bytes.toNat ≤ seenTail + queue.capacity.toNat ∧
      bytes.toNat ≤ (spscContig queue (queue.head &&& queue.mask)).toNat

/-- The data a consumer in mid-operation relies on, up to the head it last saw. -/
def ConsumerHolds (queue : Queue w) (published : List UInt8) (delivered seenHead : Nat) : Consumer w → Prop
  | .idle => True
  | .loaded _ tail => tail = queue.tail
  | .copying _ bytes tail first out =>
    tail = queue.tail ∧ delivered + bytes.toNat ≤ seenHead ∧
      first = firstPart queue tail bytes ∧ out.length ≤ bytes.toNat ∧
      -- Every byte copied so far is the next unread one.
      out = (published.drop delivered).take out.length
  | .skipping bytes tail => tail = queue.tail ∧ delivered + bytes.toNat ≤ seenHead
  | .span index length =>
    index = (queue.tail &&& queue.mask).toNat ∧ delivered + length.toNat ≤ seenHead ∧
      length.toNat ≤ (spscContig queue (queue.tail &&& queue.mask)).toNat
  | .ending index bytes tail =>
    tail = queue.tail ∧ index = (queue.tail &&& queue.mask).toNat ∧ delivered + bytes.toNat ≤ seenHead ∧
      bytes.toNat ≤ (spscContig queue (queue.tail &&& queue.mask)).toNat

/--
The cursors are the wrapped stream positions, the copies lag behind them, and the slots between
tail and head hold the unread bytes.
-/
structure Holds (seenTail seenHead : Nat) (config : Config w) : Prop where
  formed : config.queue.Formed
  ordered : config.channel.Ordered
  head : config.queue.head = BitVec.ofNat w config.published.length
  tail : config.queue.tail = BitVec.ofNat w config.delivered.length
  cachedTail : config.queue.cachedTail = BitVec.ofNat w seenTail
  tailSeen : seenTail ≤ config.delivered.length
  tailRoom : config.published.length ≤ seenTail + config.queue.capacity.toNat
  cachedHead : config.queue.cachedHead = BitVec.ofNat w seenHead
  headPast : config.delivered.length ≤ seenHead
  headSeen : seenHead ≤ config.published.length
  slots : ∀ position, config.delivered.length ≤ position → position < config.published.length →
    config.published[position]? = some (config.queue.buffer (position % config.queue.size))
  producer : ProducerHolds config.queue config.published.length seenTail config.producer
  consumer : ConsumerHolds config.queue config.published config.delivered.length seenHead config.consumer

namespace Holds

variable {seenTail seenHead : Nat} {config : Config w}

variable (holds : Holds seenTail seenHead config)
include holds

theorem delivered_le : config.delivered.length ≤ config.published.length :=
  le_trans holds.headPast holds.headSeen

theorem bounded : config.published.length ≤ config.delivered.length + config.queue.capacity.toNat :=
  holds.ordered.bounded

theorem unread_lt : config.published.length - config.delivered.length < 2 ^ w := by
  have := holds.bounded
  have := config.queue.capacity.isLt
  omega

theorem fill_eq : (config.queue.head - config.queue.tail).toNat =
      config.published.length - config.delivered.length := by
  rw [holds.head, holds.tail, distance_toNat holds.delivered_le holds.unread_lt]

theorem room_eq : (config.queue.room config.queue.head).toNat =
      seenTail + config.queue.capacity.toNat - config.published.length := by
  have behind := le_trans holds.tailSeen holds.delivered_le
  have room := holds.tailRoom
  have word := config.queue.capacity.isLt
  have distance := @distance_toNat w _ _ behind (by omega)
  rw [Queue.room, holds.head, holds.cachedTail, BitVec.toNat_sub_of_le, distance]
  · omega
  · rw [BitVec.le_def, distance]
    omega

theorem present_eq : (config.queue.present config.queue.tail).toNat = seenHead - config.delivered.length := by
  have := holds.unread_lt
  have := holds.headSeen
  rw [Queue.present, holds.cachedHead, holds.tail, distance_toNat holds.headPast (by omega)]

theorem head_slot (offset : Nat) : (config.queue.head.toNat + offset) % config.queue.size =
      (config.published.length + offset) % config.queue.size := by
  rw [← slot_add, holds.head, holds.formed.slot_ofNat, slot_add]

theorem tail_slot (offset : Nat) : (config.queue.tail.toNat + offset) % config.queue.size =
      (config.delivered.length + offset) % config.queue.size := by
  rw [← slot_add, holds.tail, holds.formed.slot_ofNat, slot_add]

theorem unread_slots {count : Nat} (present : config.delivered.length + count ≤ config.published.length) :
    (List.range count).map (fun byte =>
      config.queue.buffer ((config.delivered.length + byte) % config.queue.size)) =
        config.channel.unread.take count := by
  -- The two lists agree at every index below the count.
  apply ext_getElem?
  intro index
  by_cases inside : index < count
  · have slot := holds.slots (config.delivered.length + index) (by omega) (by omega)
    rw [getElem?_map, getElem?_range inside, getElem?_take_of_lt inside]
    simp only [Channel.unread, Config.channel, Option.map_some, getElem?_drop, slot]
  · rw [getElem?_eq_none (by simpa using inside), getElem?_eq_none]
    exact le_trans (length_take_le _ _) (Nat.le_of_not_lt inside)

end Holds

theorem WriteCall.granted_le (call : WriteCall w) (queue : Queue w) (head : BitVec w) :
    (call.granted queue head).toNat ≤ (queue.room head).toNat := by
  cases call with
  | write data bytes =>
    simp only [WriteCall.granted, BitVec.lt_def]
    split <;> omega
  | writeFrames data frames frameBytes =>
    -- Whole frames are counted by division, so multiplying back stays within the room.
    have whole : (if queue.room head / frameBytes < frames then queue.room head / frameBytes
        else frames).toNat ≤ (queue.room head).toNat / frameBytes.toNat := by
      rw [← BitVec.toNat_udiv]
      simp only [BitVec.lt_def]
      split <;> omega
    rw [WriteCall.granted, BitVec.toNat_mul]
    calc _ ≤ _ := mod_le _ _
      _ ≤ (queue.room head).toNat / frameBytes.toNat * frameBytes.toNat := mul_le_mul_right _ whole
      _ ≤ _ := div_mul_le_self _ _
  | writeBegin =>
    simp only [WriteCall.granted, BitVec.lt_def]
    split <;> omega

theorem WriteCall.writeBegin_le (queue : Queue w) (head : BitVec w) :
    (WriteCall.writeBegin.granted queue head).toNat ≤ (spscContig queue (head &&& queue.mask)).toNat := by
  simp only [WriteCall.granted, BitVec.lt_def]
  split <;> omega

theorem ConsumerHolds.publish {queue : Queue w} {published more : List UInt8}
    {delivered seenHead : Nat} {consumer : Consumer w} (seen : seenHead ≤ published.length)
    (holds : ConsumerHolds queue published delivered seenHead consumer) :
    ConsumerHolds queue (published ++ more) delivered seenHead consumer := by
  cases consumer with
  | copying keep bytes tail first out =>
    obtain ⟨same, within, split, short, copied⟩ := holds
    refine ⟨same, within, split, short, ?_⟩
    rw [drop_append_of_le_length (by omega),
      take_append_of_le_length (by rw [length_drop]; omega)]
    exact copied
  | _ => exact holds

theorem ProducerHolds.mono {queue : Queue w} {published seenTail later : Nat}
    {producer : Producer w} (ordered : seenTail ≤ later)
    (holds : ProducerHolds queue published seenTail producer) :
    ProducerHolds queue published later producer := by
  cases producer with
  | idle => trivial
  | loaded call head => exact holds
  | copying data bytes head first done =>
    obtain ⟨same, covered, room, rest⟩ := holds
    exact ⟨same, covered, by omega, rest⟩
  | span index length =>
    obtain ⟨same, room, contiguous⟩ := holds
    exact ⟨same, by omega, contiguous⟩
  | ending index bytes head =>
    obtain ⟨same, place, room, contiguous⟩ := holds
    exact ⟨same, place, by omega, contiguous⟩

namespace Holds

variable {seenTail seenHead : Nat} {config : Config w}

variable (holds : Holds seenTail seenHead config)
include holds

theorem refreshTail :
    Holds config.delivered.length seenHead { config with
      queue := { config.queue with cachedTail := config.queue.tail } } :=
  { holds with
    formed := holds.formed.reshape ⟨rfl, rfl, rfl⟩
    cachedTail := holds.tail
    tailSeen := le_refl _
    tailRoom := holds.bounded
    producer := ProducerHolds.mono holds.tailSeen holds.producer }

variable {head : BitVec w}

/-- Deciding the room leaves the producer relying on no more than there is. -/
theorem enterWrite {call : WriteCall w} (loaded : config.producer = .loaded call head)
    (covers : call.Covers (call.granted config.queue head)) :
    Holds seenTail seenHead { config with producer := call.enter config.queue head } := by
  have same : head = config.queue.head := by
    have := holds.producer
    rwa [loaded] at this
  subst same
  have granted := call.granted_le config.queue config.queue.head
  have room := holds.room_eq
  have behind := holds.tailRoom
  -- Writing whole bytes or whole frames, the copy starts with nothing in the ring.
  have copy : ∀ data : List UInt8, (call.granted config.queue config.queue.head).toNat ≤ data.length →
      ProducerHolds config.queue config.published.length seenTail (.beginCopy config.queue data
        (call.granted config.queue config.queue.head) config.queue.head) := by
    intro data covered
    rw [Producer.beginCopy]
    split
    · trivial
    · exact ⟨rfl, covered, by omega, rfl, zero_le _, fun _ impossible => by omega⟩
  refine { holds with producer := ?_ }
  cases call with
  | write data bytes => exact copy data covers
  | writeFrames data frames frameBytes => exact copy data covers
  | writeBegin =>
    have within : config.published.length +
        (WriteCall.writeBegin.granted config.queue config.queue.head).toNat ≤
          seenTail + config.queue.capacity.toNat := by omega
    exact ⟨rfl, within, WriteCall.writeBegin_le config.queue config.queue.head⟩

theorem slots_store {address offset : Nat} {byte : UInt8} (place : config.queue.cell address =
      (config.published.length + offset) % config.queue.size)
    (room : config.published.length + offset < seenTail + config.queue.capacity.toNat) :
    ∀ position, config.delivered.length ≤ position → position < config.published.length →
      config.published[position]? =
        some ((config.queue.store address byte).buffer (position % config.queue.size)) := by
  intro position after before
  have := holds.tailSeen
  have := holds.formed.fits
  rw [store_miss, holds.slots position after before]
  rw [place]
  exact slot_ne (by omega) (by omega)

variable {bytes : BitVec w}

/-- Copying one more byte extends what lies behind the head. -/
theorem writeByte {data : List UInt8} {first : BitVec w} {done : Nat} {byte : UInt8}
    (copying : config.producer = .copying data bytes head first done)
    (inside : done < bytes.toNat) (source : data[done]? = some byte) :
    Holds seenTail seenHead { config with
      queue := config.queue.store (splitAddress (head &&& config.queue.mask) first done) byte
      producer := .copying data bytes head first (done + 1) } := by
  have producer := holds.producer
  rw [copying] at producer
  obtain ⟨rfl, covered, room, rfl, _, copied⟩ := producer
  have := holds.tailSeen
  have := holds.bounded
  have := holds.formed.fits
  have := holds.delivered_le
  have place := cell_splitAddress holds.formed config.queue.head bytes (by omega) inside
  rw [holds.head_slot] at place
  have extended : ∀ earlier < done + 1, data[earlier]? = some
      ((config.queue.store (splitAddress (config.queue.head &&& config.queue.mask)
        (firstPart config.queue config.queue.head bytes) done) byte).buffer
          ((config.published.length + earlier) % config.queue.size)) := by
    intro earlier below
    rcases lt_or_eq_of_le (le_of_lt_succ below) with before | rfl
    · -- Earlier bytes of the copy lie less than a lap behind this one.
      rw [copied earlier before, store_miss]
      rw [firstPart, place]
      exact slot_ne (by omega) (by omega)
    · rw [source, ← place]
      exact congrArg some (store_hit _ _ _).symm
  exact { holds with
    formed := holds.formed.reshape ⟨rfl, rfl, rfl⟩
    slots := holds.slots_store place (by omega)
    producer := ⟨rfl, covered, room, rfl, inside, extended⟩ }

theorem spanFill {index : Nat} {length : BitVec w}
    (span : config.producer = .span index length) {offset : Nat} (inside : offset < length.toNat)
    (byte : UInt8) :
    Holds seenTail seenHead { config with queue := config.queue.store (index + offset) byte } := by
  have producer := holds.producer
  rw [span] at producer
  obtain ⟨rfl, room, contiguous⟩ := producer
  have place := cell_span holds.formed config.queue.head (lt_of_lt_of_le inside contiguous)
  rw [holds.head_slot] at place
  exact { holds with
    formed := holds.formed.reshape ⟨rfl, rfl, rfl⟩
    slots := holds.slots_store place (by omega)
    producer := by rw [span]; exact ⟨rfl, room, contiguous⟩ }

theorem publish {items : List UInt8} (length : items.length = bytes.toNat)
    (room : config.published.length + bytes.toNat ≤ seenTail + config.queue.capacity.toNat)
    (shown : ∀ byte < bytes.toNat, items[byte]? =
      some (config.queue.buffer ((config.published.length + byte) % config.queue.size))) :
    BoundedStream.Step config.channel { config.channel with published := config.published ++ items } ∧
      Holds seenTail seenHead { config with
        queue := { config.queue with head := config.queue.head + bytes }
        producer := .idle
        published := config.published ++ items } := by
  have behind := holds.tailSeen
  have step : BoundedStream.Step config.channel
      { config.channel with published := config.published ++ items } := by
    refine .publish config.channel items ?_
    simp only [Config.channel]
    omega
  have grown : (config.published ++ items).length = config.published.length + bytes.toNat := by
    rw [length_append, length]
  have seen := holds.headSeen
  refine ⟨step, { holds with
    formed := holds.formed.reshape ⟨rfl, rfl, rfl⟩
    ordered := ordered_invariant.step _ _ holds.ordered step
    head := ?_
    tailRoom := grown ▸ room
    headSeen := by rw [grown]; omega
    slots := ?_
    producer := trivial
    consumer := ConsumerHolds.publish holds.headSeen holds.consumer }⟩
  · rw [grown, ← advance_eq]
    exact congrArg (· + bytes) holds.head
  · intro position after before
    rcases lt_or_ge position config.published.length with old | new
    · rw [getElem?_append_left old]
      exact holds.slots position after old
    · obtain ⟨byte, rfl⟩ := Nat.exists_eq_add_of_le new
      rw [getElem?_append_right new, Nat.add_sub_cancel_left]
      exact shown byte (by rw [grown] at before; omega)

theorem writeStore {data : List UInt8} {first : BitVec w}
    (copying : config.producer = .copying data bytes head first bytes.toNat) :
    BoundedStream.Step config.channel
        { config.channel with published := config.published ++ data.take bytes.toNat } ∧
      Holds seenTail seenHead { config with
        queue := { config.queue with head := head + bytes }
        producer := .idle
        published := config.published ++ data.take bytes.toNat } := by
  have producer := holds.producer
  rw [copying] at producer
  obtain ⟨rfl, covered, room, _, _, copied⟩ := producer
  refine holds.publish (length_take_of_le covered) room fun byte below => ?_
  rw [getElem?_take_of_lt below, copied byte below]

theorem writeEndStore {index : Nat} (ending : config.producer = .ending index bytes head) :
    BoundedStream.Step config.channel
        { config.channel with
          published := config.published ++ config.queue.spanBytes index bytes.toNat } ∧
      Holds seenTail seenHead { config with
        queue := { config.queue with head := head + bytes }
        producer := .idle
        published := config.published ++ config.queue.spanBytes index bytes.toNat } := by
  have producer := holds.producer
  rw [ending] at producer
  obtain ⟨rfl, rfl, room, contiguous⟩ := producer
  refine holds.publish (by simp [Queue.spanBytes]) room fun byte below => ?_
  rw [Queue.spanBytes, getElem?_map, getElem?_range below, Option.map_some, Queue.load,
    cell_span holds.formed _ (lt_of_lt_of_le below contiguous), holds.head_slot]

end Holds

theorem ReadCall.granted_le (call : ReadCall w) (queue : Queue w) (tail : BitVec w) :
    (call.granted queue tail).toNat ≤ (queue.present tail).toNat := by
  simp only [ReadCall.granted, BitVec.lt_def]
  split <;> omega

theorem ReadCall.readBegin_le (queue : Queue w) (tail : BitVec w) :
    (ReadCall.readBegin.granted queue tail).toNat ≤ (spscContig queue (tail &&& queue.mask)).toNat := by
  simp only [ReadCall.granted, ReadCall.wanted, BitVec.lt_def]
  split <;> omega

theorem ConsumerHolds.mono {queue : Queue w} {published : List UInt8}
    {delivered seenHead later : Nat} {consumer : Consumer w} (ordered : seenHead ≤ later)
    (holds : ConsumerHolds queue published delivered seenHead consumer) :
    ConsumerHolds queue published delivered later consumer := by
  cases consumer with
  | idle => trivial
  | loaded call tail => exact holds
  | copying keep bytes tail first out =>
    obtain ⟨same, within, rest⟩ := holds
    exact ⟨same, by omega, rest⟩
  | skipping bytes tail =>
    obtain ⟨same, within⟩ := holds
    exact ⟨same, by omega⟩
  | span index length =>
    obtain ⟨same, within, contiguous⟩ := holds
    exact ⟨same, by omega, contiguous⟩
  | ending index bytes tail =>
    obtain ⟨same, place, within, contiguous⟩ := holds
    exact ⟨same, place, by omega, contiguous⟩

namespace Holds

variable {seenTail seenHead : Nat} {config : Config w}

variable (holds : Holds seenTail seenHead config)
include holds

theorem refreshHead :
    Holds seenTail config.published.length { config with
      queue := { config.queue with cachedHead := config.queue.head } } :=
  { holds with
    formed := holds.formed.reshape ⟨rfl, rfl, rfl⟩
    cachedHead := holds.head
    headPast := holds.delivered_le
    headSeen := le_refl _
    consumer := ConsumerHolds.mono holds.headSeen holds.consumer }

variable {tail : BitVec w}

/-- Deciding the data leaves the consumer relying on no more than there is. -/
theorem enterRead {call : ReadCall w} (loaded : config.consumer = .loaded call tail) :
    Holds seenTail seenHead { config with consumer := call.enter config.queue tail } := by
  have same : tail = config.queue.tail := by
    have := holds.consumer
    rwa [loaded] at this
  subst same
  have granted := call.granted_le config.queue config.queue.tail
  have present := holds.present_eq
  have past := holds.headPast
  have within : config.delivered.length + (call.granted config.queue config.queue.tail).toNat ≤
      seenHead := by omega
  -- A read and a peek start their copies alike, with nothing copied.
  have copy : ∀ keep : Bool, ConsumerHolds config.queue config.published config.delivered.length seenHead
        (if call.granted config.queue config.queue.tail = 0#w then .idle
          else .copying keep (call.granted config.queue config.queue.tail) config.queue.tail
            (firstPart config.queue config.queue.tail (call.granted config.queue config.queue.tail)) []) := by
    intro keep
    split
    · trivial
    · exact ⟨rfl, within, rfl, zero_le _, rfl⟩
  refine { holds with consumer := ?_ }
  cases call with
  | read bytes => exact copy false
  | peek bytes => exact copy true
  | skip bytes =>
    simp only [ReadCall.enter]
    split
    · trivial
    · exact ⟨rfl, within⟩
  | readBegin => exact ⟨rfl, within, ReadCall.readBegin_le config.queue config.queue.tail⟩

variable {bytes : BitVec w}

/-- Copying one more byte takes the next unread one. -/
theorem readByte {keep : Bool} {first : BitVec w} {out : List UInt8}
    (copying : config.consumer = .copying keep bytes tail first out)
    (inside : out.length < bytes.toNat) {byte : UInt8} (shown : config.queue.load
      (splitAddress (tail &&& config.queue.mask) first out.length) = byte) :
    Holds seenTail seenHead { config with
      consumer := .copying keep bytes tail first (out ++ [byte]) } := by
  have consumer := holds.consumer
  rw [copying] at consumer
  obtain ⟨rfl, within, rfl, _, copied⟩ := consumer
  have := holds.bounded
  have := holds.headSeen
  have place := cell_splitAddress holds.formed config.queue.tail bytes (by omega) inside
  rw [holds.tail_slot] at place
  have slot := holds.slots (config.delivered.length + out.length) (by omega) (by omega)
  refine { holds with consumer := ⟨rfl, within, rfl, by rw [length_append]; exact inside, ?_⟩ }
  -- The next unread byte is the one its slot holds.
  rw [← shown, Queue.load, firstPart, place, length_append, length_singleton,
    take_add_one, ← copied, getElem?_drop, slot]
  rfl

theorem deliver {items : List UInt8} (within : config.delivered.length + bytes.toNat ≤ seenHead)
    (oldest : items = config.channel.unread.take bytes.toNat) :
    BoundedStream.Step config.channel { config.channel with delivered := config.delivered ++ items } ∧
      Holds seenTail seenHead { config with
        queue := { config.queue with tail := config.queue.tail + bytes }
        consumer := .idle
        delivered := config.delivered ++ items } := by
  subst oldest
  have seen := holds.headSeen
  have unread : config.channel.unread.length = config.published.length - config.delivered.length :=
    length_drop
  have step : BoundedStream.Step config.channel { config.channel with
      delivered := config.delivered ++ config.channel.unread.take bytes.toNat } :=
    .deliver config.channel bytes.toNat (by omega)
  have grown : (config.delivered ++ config.channel.unread.take bytes.toNat).length =
      config.delivered.length + bytes.toNat := by
    rw [length_append, length_take_of_le (by omega)]
  have behind := holds.tailSeen
  refine ⟨step, { holds with
    formed := holds.formed.reshape ⟨rfl, rfl, rfl⟩
    ordered := ordered_invariant.step _ _ holds.ordered step
    tail := ?_
    tailSeen := by rw [grown]; omega
    headPast := grown ▸ within
    slots := fun position after before => holds.slots position (by rw [grown] at after; omega) before
    consumer := trivial }⟩
  rw [grown, ← advance_eq]
  exact congrArg (· + bytes) holds.tail

theorem spanBytes_tail {length : BitVec w}
    (within : config.delivered.length + length.toNat ≤ seenHead) (contiguous : length.toNat ≤
      (spscContig config.queue (config.queue.tail &&& config.queue.mask)).toNat) :
    config.queue.spanBytes (config.queue.tail &&& config.queue.mask).toNat length.toNat =
      config.channel.unread.take length.toNat := by
  rw [← holds.unread_slots (le_trans within holds.headSeen)]
  refine map_congr_left fun byte member => ?_
  have below : byte < length.toNat := mem_range.mp member
  rw [Queue.load, cell_span holds.formed _ (lt_of_lt_of_le below contiguous), holds.tail_slot]

theorem readStore {first : BitVec w}
    {out : List UInt8} (copying : config.consumer = .copying false bytes tail first out)
    (whole : out.length = bytes.toNat) :
    BoundedStream.Step config.channel { config.channel with delivered := config.delivered ++ out } ∧
      Holds seenTail seenHead { config with
        queue := { config.queue with tail := tail + bytes }
        consumer := .idle
        delivered := config.delivered ++ out } := by
  have consumer := holds.consumer
  rw [copying] at consumer
  obtain ⟨rfl, within, _, _, copied⟩ := consumer
  exact holds.deliver within (whole ▸ copied)

theorem skipStore (skipping : config.consumer = .skipping bytes tail) : BoundedStream.Step config.channel
        { config.channel with
          delivered := config.delivered ++ config.queue.slotBytes tail bytes.toNat } ∧
      Holds seenTail seenHead { config with
        queue := { config.queue with tail := tail + bytes }
        consumer := .idle
        delivered := config.delivered ++ config.queue.slotBytes tail bytes.toNat } := by
  have consumer := holds.consumer
  rw [skipping] at consumer
  obtain ⟨rfl, within⟩ := consumer
  refine holds.deliver within ?_
  rw [← holds.unread_slots (le_trans within holds.headSeen)]
  exact map_congr_left fun byte _ => by rw [holds.tail_slot]

theorem readEndStore {index : Nat} (ending : config.consumer = .ending index bytes tail) :
    BoundedStream.Step config.channel
        { config.channel with
          delivered := config.delivered ++ config.queue.spanBytes index bytes.toNat } ∧
      Holds seenTail seenHead { config with
        queue := { config.queue with tail := tail + bytes }
        consumer := .idle
        delivered := config.delivered ++ config.queue.spanBytes index bytes.toNat } := by
  have consumer := holds.consumer
  rw [ending] at consumer
  obtain ⟨rfl, rfl, within, contiguous⟩ := consumer
  exact holds.deliver within (holds.spanBytes_tail within contiguous)

end Holds

open BitVec

variable {w : Nat}

/-- A fresh ring with both sides outside every operation and nothing published yet. -/
structure Config.Initial (config : Config w) : Prop where
  queue : config.queue.Fresh
  producer : config.producer = .idle
  consumer : config.consumer = .idle
  published : config.published = []
  delivered : config.delivered = []

/-- Every run of the ring, over words of `w` bits. -/
def system (w : Nat) : Transition.System (Config w) where
  start := Config.Initial
  step := Step

theorem Config.Initial.holds {config : Config w} (initial : config.Initial) : Holds 0 0 config where
  formed := initial.queue.formed
  ordered := by
    refine ⟨?_, ?_⟩
    · simp only [Config.channel, initial.delivered, nil_prefix]
    · simp [Config.channel, initial.published]
  head := by rw [initial.queue.head, initial.published]; rfl
  tail := by rw [initial.queue.tail, initial.delivered]; rfl
  cachedTail := initial.queue.cachedTail
  tailSeen := zero_le _
  tailRoom := by rw [initial.published]; exact zero_le _
  cachedHead := initial.queue.cachedHead
  headPast := by rw [initial.delivered]; exact le_refl _
  headSeen := zero_le _
  slots := fun position _ before => by rw [initial.published] at before; cases before
  producer := by rw [initial.producer]; trivial
  consumer := by rw [initial.consumer]; trivial

theorem Holds.grow {seenTail seenHead : Nat} {config : Config w}
    (holds : Holds seenTail seenHead config) {platform : Platform w} {minCapacity : BitVec w}
    {grown : Queue w} (producerIdle : config.producer = .idle) (consumerIdle : config.consumer = .idle)
    (grew : retroSpscGrow platform config.queue minCapacity = some grown) :
    BoundedStream.Step config.channel { config.channel with capacity := grown.capacity.toNat } ∧
      ∃ laterTail laterHead, Holds laterTail laterHead { config with queue := grown } := by
  have fill := holds.bounded
  obtain ⟨formed, larger, headSame, tailSame, copies, carried⟩ :=
    retroSpscGrow_spec holds.formed holds.head holds.tail holds.delivered_le (by omega) grew
  have step : BoundedStream.Step config.channel { config.channel with capacity := grown.capacity.toNat } :=
    .grow config.channel grown.capacity.toNat (le_def.mp larger)
  have wider := le_def.mp larger
  refine ⟨step, ?_⟩
  rcases copies with rfl | ⟨cachedTail, cachedHead⟩
  · exact ⟨seenTail, seenHead, holds⟩
  · refine ⟨config.delivered.length, config.published.length, ?_⟩
    exact {
      formed
      ordered := ordered_invariant.step _ _ holds.ordered step
      head := headSame.trans holds.head
      tail := tailSame.trans holds.tail
      cachedTail := cachedTail.trans holds.tail
      tailSeen := le_refl _
      tailRoom := Nat.le_trans fill (Nat.add_le_add_left wider _)
      cachedHead := cachedHead.trans holds.head
      headPast := holds.delivered_le
      headSeen := le_refl _
      slots := fun position after before => by
        rw [carried position after before]
        exact holds.slots position after before
      producer := by rw [producerIdle]; trivial
      consumer := by rw [consumerIdle]; trivial }

theorem Step.holds {seenTail seenHead : Nat} {config next : Config w} (step : Step config next)
    (holds : Holds seenTail seenHead config) :
    (∃ laterTail laterHead, Holds laterTail laterHead next) ∧
      Relation.ReflTransGen BoundedStream.Step config.channel next.channel := by
  -- Only a store to a shared cursor, or a growth, is visible in the stream.
  cases step with
  | writeLoad call idle enters => exact ⟨⟨_, _, { holds with producer := rfl }⟩, .refl⟩
  | writeCached call head loaded enough covers => exact ⟨⟨_, _, holds.enterWrite loaded covers⟩, .refl⟩
  | writeRefresh call head refreshed loaded short reads covers =>
    subst reads
    exact ⟨⟨_, _, holds.refreshTail.enterWrite loaded covers⟩, .refl⟩
  | writeByte data bytes head first done copying inside byte source =>
    exact ⟨⟨_, _, holds.writeByte copying inside source⟩, .refl⟩
  | writeStore data bytes head first copying =>
    obtain ⟨publishes, kept⟩ := holds.writeStore copying
    exact ⟨⟨_, _, kept⟩, .single publishes⟩
  | spanFill index length span offset inside byte => exact ⟨⟨_, _, holds.spanFill span inside byte⟩, .refl⟩
  | writeEndNone index length span => exact ⟨⟨_, _, { holds with producer := trivial }⟩, .refl⟩
  | writeEndLoad index length span bytes some_ within =>
    have producer := holds.producer
    rw [span] at producer
    obtain ⟨place, room, contiguous⟩ := producer
    have shorter := le_def.mp within
    have fits : config.published.length + bytes.toNat ≤ seenTail + config.queue.capacity.toNat := by omega
    exact ⟨⟨_, _, { holds with
      producer := ⟨rfl, place, fits, Nat.le_trans shorter contiguous⟩ }⟩, .refl⟩
  | writeEndStore index bytes head ending =>
    obtain ⟨publishes, kept⟩ := holds.writeEndStore ending
    exact ⟨⟨_, _, kept⟩, .single publishes⟩
  | readLoad call idle => exact ⟨⟨_, _, { holds with consumer := rfl }⟩, .refl⟩
  | readCached call tail loaded enough => exact ⟨⟨_, _, holds.enterRead loaded⟩, .refl⟩
  | readRefresh call tail refreshed loaded short reads =>
    subst reads
    exact ⟨⟨_, _, holds.refreshHead.enterRead loaded⟩, .refl⟩
  | readByte keep bytes tail first out copying inside byte shown =>
    exact ⟨⟨_, _, holds.readByte copying inside shown⟩, .refl⟩
  | readStore bytes tail first out copying whole =>
    obtain ⟨delivers, kept⟩ := holds.readStore copying whole
    exact ⟨⟨_, _, kept⟩, .single delivers⟩
  | peekReturn bytes tail first out copying whole => exact ⟨⟨_, _, { holds with consumer := trivial }⟩, .refl⟩
  | skipStore bytes tail skipping =>
    obtain ⟨delivers, kept⟩ := holds.skipStore skipping
    exact ⟨⟨_, _, kept⟩, .single delivers⟩
  | readEndNone index length span => exact ⟨⟨_, _, { holds with consumer := trivial }⟩, .refl⟩
  | readEndLoad index length span bytes some_ within =>
    have consumer := holds.consumer
    rw [span] at consumer
    obtain ⟨place, present, contiguous⟩ := consumer
    have shorter := le_def.mp within
    have fits : config.delivered.length + bytes.toNat ≤ seenHead := by omega
    exact ⟨⟨_, _, { holds with
      consumer := ⟨rfl, place, fits, Nat.le_trans shorter contiguous⟩ }⟩, .refl⟩
  | readEndStore index bytes tail ending =>
    obtain ⟨delivers, kept⟩ := holds.readEndStore ending
    exact ⟨⟨_, _, kept⟩, .single delivers⟩
  | grow platform minCapacity grown producerIdle consumerIdle grew =>
    obtain ⟨grows, kept⟩ := holds.grow producerIdle consumerIdle grew
    exact ⟨kept, .single grows⟩

theorem simulates : (system w).Simulates (BoundedStream.system UInt8) fun config channel =>
    (∃ seenTail seenHead, Holds seenTail seenHead config) ∧ config.channel = channel where
  start config initial := ⟨config.channel, ⟨initial.published, initial.delivered⟩, ⟨0, 0, initial.holds⟩, rfl⟩
  step := by
    rintro config next channel ⟨⟨seenTail, seenHead, holds⟩, rfl⟩ moves
    obtain ⟨kept, matched⟩ := Step.holds moves holds
    exact ⟨next.channel, matched, kept, rfl⟩

/-- The bytes unread in a ring, read from its slots between tail and head. -/
def Queue.unread (queue : Queue w) : List UInt8 := queue.slotBytes queue.tail (queue.head - queue.tail).toNat

theorem Holds.unread_eq {seenTail seenHead : Nat} {config : Config w}
    (holds : Holds seenTail seenHead config) : config.queue.unread = config.channel.unread := by
  have whole : config.delivered.length +
      (config.published.length - config.delivered.length) ≤ config.published.length := by
    have := holds.delivered_le
    omega
  have slots := holds.unread_slots whole
  rw [take_of_length_le (by simp [Channel.unread, Config.channel])] at slots
  rw [← slots, Queue.unread, Queue.slotBytes, holds.fill_eq]
  exact map_congr_left fun byte _ => by rw [holds.tail_slot]

/--
Under every interleaving, for every capacity, plain or mirrored, and however often the cursors
wrap, the ring delivers a prefix of what was published and holds exactly the rest.
-/
theorem reachable_fifo {config : Config w} (reached : (system w).Reachable config) :
    (config.queue.head - config.queue.tail).toNat ≤ config.queue.capacity.toNat ∧
    (config.queue.room config.queue.head).toNat ≤
      config.queue.capacity.toNat - (config.queue.head - config.queue.tail).toNat ∧
    (config.queue.present config.queue.tail).toNat ≤
      (config.queue.head - config.queue.tail).toNat ∧ config.delivered <+: config.published ∧
    config.delivered ++ config.queue.unread = config.published ∧
    (∀ keep bytes tail first out, config.consumer = .copying keep bytes tail first out →
      out <+: config.queue.unread) ∧ (∀ index length, config.consumer = .span index length →
      config.queue.spanBytes index length.toNat <+: config.queue.unread) ∧
    (∀ platform minCapacity grown, config.producer = .idle → config.consumer = .idle →
      retroSpscGrow platform config.queue minCapacity = some grown →
      config.queue.capacity ≤ grown.capacity ∧ grown.head = config.queue.head ∧
        grown.tail = config.queue.tail ∧ grown.unread = config.queue.unread) := by
  obtain ⟨channel, abstractReached, ⟨seenTail, seenHead, holds⟩, rfl⟩ := simulates.reachable reached
  have ordered := ordered_invariant.reachable abstractReached
  have bounded := holds.bounded
  have unreadEq := holds.unread_eq
  refine ⟨?_, ?_, ?_, ordered.order, ?_, ?_, ?_, ?_⟩
  · rw [holds.fill_eq]
    omega
  · -- The tail last seen is behind the tail, so the room computed from it is smaller.
    have behind := holds.tailSeen
    have published := holds.delivered_le
    rw [holds.room_eq, holds.fill_eq]
    omega
  · -- The head last seen is behind the head, so the data computed from it is smaller.
    have behind := holds.headSeen
    rw [holds.present_eq, holds.fill_eq]
    omega
  · rw [unreadEq]
    exact ordered.append_unread
  · intro keep bytes tail first out copying
    have consumer := holds.consumer
    rw [copying] at consumer
    rw [unreadEq, consumer.2.2.2.2]
    exact take_prefix _ _
  · intro index length span
    have consumer := holds.consumer
    rw [span] at consumer
    obtain ⟨rfl, within, contiguous⟩ := consumer
    rw [unreadEq, holds.spanBytes_tail within contiguous]
    exact take_prefix _ _
  · intro platform minCapacity grown producerIdle consumerIdle grew
    obtain ⟨_, larger, headSame, tailSame, _⟩ := retroSpscGrow_spec holds.formed holds.head
      holds.tail holds.delivered_le (by omega) grew
    obtain ⟨_, _, _, later⟩ := holds.grow producerIdle consumerIdle grew
    exact ⟨larger, headSame, tailSame, later.unread_eq.trans unreadEq.symm⟩

/-- A plain two-byte ring over three-bit cursors, before anything happens. -/
def smallConfig : Config 3 where
  queue := emptyQueue (fun _ => 0) 2#3 (2#3 - 1#3) 0#3
  producer := .idle
  consumer := .idle
  published := []
  delivered := []

theorem smallConfig_initial : smallConfig.Initial :=
  ⟨emptyQueue_fresh ⟨1, rfl⟩ ⟨1, rfl⟩ (by decide) (.inl ⟨rfl, rfl⟩), rfl, rfl, rfl, rfl⟩

/-- One byte written to the small ring is unread there, and nothing else is. -/
theorem reachable_fifo_written : ∃ config : Config 3, (system 3).Reachable config ∧
    config.published = [7] ∧ config.delivered ++ config.queue.unread = config.published := by
  -- The producer loads its cursor, accepts the byte, copies it and stores the head.
  have started : (system 3).Reachable smallConfig := .start smallConfig_initial
  have loaded := started.step (Step.writeLoad _ (.write [7] 1#3) rfl trivial)
  have entered := loaded.step (Step.writeCached _ _ _ rfl (by decide) (by decide))
  have copied := entered.step (Step.writeByte _ [7] 1#3 0#3 1#3 0 rfl (by decide) 7 rfl)
  have stored := copied.step (Step.writeStore _ [7] 1#3 0#3 1#3 rfl)
  exact ⟨_, stored, rfl, (reachable_fifo stored).2.2.2.2.1⟩

end Libretro.Spsc
