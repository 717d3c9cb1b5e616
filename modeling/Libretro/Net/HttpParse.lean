import Libretro.Net.HttpBody

/-! One receive, whatever part of the response it falls in, mirrors the reading of its bytes. -/

namespace Libretro.Http

open List Option Head

/-- The fields that frame a body agree with the part the response has come to. -/
structure Head.Framed (h : Head) : Prop where
  bytes : h.hdrBytes ≤ maxHeaderBytes
  counted : h.part = .body → h.bodytype ≠ .chunk
  chunked : h.part = .bodyChunklen → h.bodytype = .chunk ∧ h.len = 0
  unsized : h.bodytype = .full → h.len = 0

/-- A reader at a stage that its header announced, with no body before the end of the header. -/
structure Reader.Sound (v : Reader) : Prop where
  fits : v.stage.Fits v.head
  bare : ∀ line, v.stage = .lines line → v.body = []
  framed : v.stage ≠ .refused → v.head.Framed

/-- A length without a framing is none. -/
def Head.Unsized (h : Head) : Prop := h.bodytype = .full → h.len = 0

variable {h after : Head}

theorem statusLine_keeps {z : List UInt8} (read : statusLine z h = some after) :
    after.hdrBytes = h.hdrBytes ∧ after.part = .header ∧ (h.Unsized → after.Unsized) := by
  rw [statusLine] at read
  split at read
  · simp at read
  · simp only [bind_eq_bind, bind_eq_some_iff, some.injEq] at read
    obtain ⟨_, _, _, _, _, _, rfl⟩ := read
    exact ⟨rfl, rfl, id⟩

theorem fieldValue_keeps {text : List UInt8} {location : Option Nat}
    (read : fieldValue text h = some (after, location)) :
    after.hdrBytes = h.hdrBytes ∧ after.part = h.part ∧ (h.Unsized → after.Unsized) := by
  -- One case for each name that the walk reads.
  simp only [fieldValue, bind_eq_bind] at read
  split at read
  · split at read
    · simp only [some.injEq, Prod.mk.injEq] at read
      obtain ⟨rfl, _⟩ := read
      exact ⟨rfl, rfl, id⟩
    · split at read <;> simp only [some.injEq, Prod.mk.injEq] at read <;>
        obtain ⟨rfl, _⟩ := read <;> exact ⟨rfl, rfl, id⟩
  · split at read
    · rw [bind_eq_some_iff] at read
      obtain ⟨val, _, taken⟩ := read
      split at taken <;> simp only [some.injEq, Prod.mk.injEq] at taken <;>
        obtain ⟨rfl, _⟩ := taken
      · exact ⟨rfl, rfl, fun _ => nofun⟩
      · exact ⟨rfl, rfl, id⟩
    · split at read
      · split at read <;> simp only [some.injEq, Prod.mk.injEq] at read <;>
          obtain ⟨rfl, _⟩ := read
        · exact ⟨rfl, rfl, fun _ => nofun⟩
        · exact ⟨rfl, rfl, id⟩
      · split at read <;> simp only [some.injEq, Prod.mk.injEq] at read <;>
          obtain ⟨rfl, _⟩ := read <;> exact ⟨rfl, rfl, id⟩

theorem fieldLine_keeps {z : List UInt8} (read : fieldLine z h = some after) :
    after.hdrBytes = h.hdrBytes ∧ after.part = h.part ∧ (h.Unsized → after.Unsized) := by
  simp only [fieldLine, bind_eq_bind, bind_eq_some_iff, some.injEq] at read
  obtain ⟨⟨taken, location⟩, value, rfl⟩ := read
  have kept := fieldValue_keeps value
  exact kept

variable {asked : Asked}

theorem headersEnd_framed (bytes : h.hdrBytes ≤ maxHeaderBytes)
    (unsized : h.Unsized) : (headersEnd asked h).Framed := by
  -- The two fields decided first touch neither the count nor the framing.
  obtain ⟨decided, same, counts, kind, len⟩ : ∃ decided : Head,
      (let h := if h.http10 && !h.keepAlive then { h with connClose := true } else h
       if 300 ≤ h.status ∧ h.status < 400 ∧ h.location ≠ 0 ∧ asked.redirects < maxRedirects then
         { h with discard := true }
       else h) = decided ∧ decided.hdrBytes = h.hdrBytes ∧ decided.bodytype = h.bodytype ∧
        decided.len = h.len := by
    refine ⟨_, rfl, ?_, ?_, ?_⟩ <;> simp only <;> split <;> split <;> rfl
  have plain : decided.bodytype = .full → decided.len = 0 := by
    rw [kind, len]
    exact unsized
  rw [← counts] at bytes
  rw [headersEnd]
  simp only [same]
  split
  · exact ⟨bytes, nofun, nofun, fun _ => rfl⟩
  · split
    · exact ⟨bytes, nofun, nofun, plain⟩
    · split
      · rename_i chunked
        exact ⟨bytes, nofun, fun _ => ⟨chunked, rfl⟩, fun _ => rfl⟩
      · rename_i other
        exact ⟨bytes, fun _ => other, nofun, plain⟩

variable {line : List UInt8}

theorem headerLine_framed (read : headerLine asked line h = (after, true)) (inHeader : h.part.inHeader = true)
    (framed : h.Framed) : after.Framed := by
  simp only [headerLine] at read
  by_cases passes : h.hdrBytes + line.length + 1 > maxHeaderBytes
  · simp [passes] at read
  have within : h.hdrBytes + line.length + 1 ≤ maxHeaderBytes := Nat.le_of_not_lt passes
  simp only [if_neg passes] at read
  split at read
  · rename_i taken step
    obtain rfl : taken = after := congrArg Prod.fst read
    split at step
    · obtain ⟨bytes, part, plain⟩ := statusLine_keeps step
      exact ⟨by rw [bytes]; exact within, by simp [part], by simp [part], plain framed.unsized⟩
    · split at step
      · obtain rfl := some.inj step
        exact headersEnd_framed within framed.unsized
      · obtain ⟨bytes, part, plain⟩ := fieldLine_keeps step
        refine ⟨by rw [bytes]; exact within, ?_, ?_, plain framed.unsized⟩ <;>
          rw [part] <;> intro beyond <;> rw [beyond] at inHeader <;> simp [ResponsePart.inHeader] at inHeader
  · simp at read

theorem Head.Framed.fits (framed : h.Framed) : h.stage.Fits h := by
  rw [stage]
  cases part : h.part with
  | headerTop | header => simp [Stage.Fits, ResponsePart.inHeader, part, framed.bytes]
  | body =>
    cases kind : h.bodytype with
    | full => simp [Stage.Fits, kind]
    | chunk => exact absurd kind (framed.counted part)
    | len =>
      by_cases empty : h.len = 0
      · simp [Stage.Fits, empty]
      · simp only [if_neg empty, Stage.Fits]
        exact ⟨kind, by omega⟩
  | bodyChunklen => simp [Stage.Fits, (framed.chunked part).1]
  | done => simp [Stage.Fits]

theorem Reader.Sound.step {v : Reader} (sound : v.Sound) (asked : Asked) (b : UInt8) :
    (v.step asked b).Sound := by
  have fits := sound.fits
  rw [Reader.step]
  cases stands : v.stage with
  | lines line =>
    have framed := sound.framed (by simp [stands])
    have bare := sound.bare line stands
    rw [stands] at fits
    obtain ⟨inHeader, unbroken, bytes⟩ := fits
    by_cases newline : b = 10
    · simp only [if_pos newline]
      cases taken : headerLine asked line v.head with
      | mk after ok =>
        cases ok with
        | false => exact ⟨trivial, by rintro _ ⟨⟩, fun live => absurd rfl live⟩
        | true =>
          have next := headerLine_framed taken inHeader framed
          exact ⟨next.fits, fun _ _ => bare, fun _ => next⟩
    · simp only [if_neg newline]
      split
      · exact ⟨trivial, by rintro _ ⟨⟩, fun live => absurd rfl live⟩
      · rename_i within
        refine ⟨⟨inHeader, ?_, ?_⟩, fun _ _ => bare, fun _ => framed⟩
        · simp only [mem_append, mem_singleton, not_or]
          exact ⟨unbroken, fun same => newline same.symm⟩
        · rw [length_append]
          exact Nat.le_of_not_lt within
  | untilClose =>
    rw [stands] at fits
    refine ⟨?_, ?_, fun _ => sound.framed (by simp [stands])⟩
    · simpa only [stands] using fits
    · rintro _ ⟨⟩
  | counted left =>
    rw [stands] at fits
    refine ⟨?_, ?_, fun _ => sound.framed (by simp [stands])⟩
    · by_cases last : left = 1
      · simp only [if_pos last]
        trivial
      · simp only [if_neg last]
        exact ⟨fits.1, by have := fits.2; omega⟩
    · intro line at_
      by_cases last : left = 1 <;> simp [last] at at_
  | sizeLine raw =>
    rw [stands] at fits
    have framed := sound.framed (by simp [stands])
    by_cases newline : b = 10 ∧ 2 ≤ raw.length
    · simp only [if_pos newline]
      rcases chunkSize raw with _ | _ | size
      · exact ⟨trivial, by rintro _ ⟨⟩, fun live => absurd rfl live⟩
      · exact ⟨trivial, by rintro _ ⟨⟩, fun _ => framed⟩
      · exact ⟨⟨fits.1, Nat.succ_pos size⟩, by rintro _ ⟨⟩, fun _ => framed⟩
    · simp only [if_neg newline]
      refine ⟨⟨fits.1, ?_⟩, by rintro _ ⟨⟩, fun _ => framed⟩
      rw [List.drop_append, mem_append, not_or]
      refine ⟨fits.2, fun inside => ?_⟩
      have same := mem_singleton.mp (mem_of_mem_drop inside)
      have early : ¬ 2 ≤ raw.length := fun two => newline ⟨same.symm, two⟩
      have width := length_pos_of_mem inside
      rw [length_drop] at width
      simp only [length_cons, length_nil] at width
      omega
  | chunk left =>
    rw [stands] at fits
    refine ⟨?_, ?_, fun _ => sound.framed (by simp [stands])⟩
    · by_cases last : left = 1
      · simp only [if_pos last]
        exact ⟨fits.1, by simp⟩
      · simp only [if_neg last]
        exact ⟨fits.1, by have := fits.2; omega⟩
    · intro line at_
      by_cases last : left = 1 <;> simp [last] at at_
  | complete => exact ⟨by rw [stands]; trivial, by rw [stands]; rintro _ ⟨⟩, sound.framed⟩
  | refused => exact ⟨by rw [stands]; trivial, by rw [stands]; rintro _ ⟨⟩, sound.framed⟩

theorem Reader.Sound.read {v : Reader} (sound : v.Sound) (asked : Asked) (bytes : List UInt8) :
    (v.read asked bytes).Sound := by
  induction bytes generalizing v with
  | nil => exact sound
  | cons b rest ih => exact ih (sound.step asked b)

/-- What the walk leaves is where reading the same bytes one by one leads. -/
structure Walked.Reads (asked : Asked) (h : Head) (region : List UInt8) (w : Walked) : Prop where
  suffix : w.rest <:+ region
  went : w.ok = true → ({ head := h } : Reader).read asked region =
      ({ head := w.head, stage := w.head.stage } : Reader).read asked w.rest
  framed : w.ok = true → w.head.Framed
  waits : w.ok = true → w.head.part.inHeader = true → 10 ∉ w.rest
  failed : w.ok = false → w.head.part = .done ∧ ∃ v, ({ head := h } : Reader).read asked region = v ∧
      v.stage = .refused ∧ v.body = [] ∧ v.head.status = w.head.status ∧ v.head.hdr = w.head.hdr

theorem stage_inHeader (inHeader : h.part.inHeader = true) : h.stage = .lines [] := by
  rw [stage]
  cases part : h.part <;> simp_all [ResponsePart.inHeader]

theorem headerLine_fails (read : headerLine asked line h = (after, false)) :
    after.part = .done ∧ after.status = h.status ∧ after.hdr = h.hdr := by
  simp only [headerLine] at read
  split at read
  · simp at read
  · obtain rfl := congrArg Prod.fst read
    exact ⟨rfl, rfl, rfl⟩

theorem headerLine_passes (asked : Asked) (passes : h.hdrBytes + line.length + 1 > maxHeaderBytes) :
    (headerLine asked line h).2 = false := by
  simp [headerLine, passes]

theorem headerWalk_beyond {fuel : Nat} {region : List UInt8}
    (beyond : h.part.inHeader = false) : headerWalk asked fuel region h = ⟨h, region, true⟩ := by
  cases fuel <;> simp [headerWalk, beyond]

theorem read_headerLine (asked : Asked) (bytes : h.hdrBytes ≤ maxHeaderBytes)
    (unbroken : 10 ∉ line) (rest : List UInt8) :
    match headerLine asked line h with
    | (after, true) => ({ head := h } : Reader).read asked (line ++ 10 :: rest) =
        ({ head := after, stage := after.stage } : Reader).read asked rest
    | (after, false) => ∃ v, ({ head := h } : Reader).read asked (line ++ 10 :: rest) = v ∧
        v.stage = .refused ∧ v.body = [] ∧ v.head.status = after.status ∧
        v.head.hdr = after.hdr := by
  have walked := Reader.read_line asked (v := { head := h }) rfl (by simpa using bytes) line unbroken
  rw [nil_append] at walked
  by_cases within : h.hdrBytes + line.length ≤ maxHeaderBytes
  · rw [if_pos within] at walked
    have newline : ({ head := h, stage := .lines line } : Reader).step asked 10 =
        match headerLine asked line h with
        | (after, true) => { head := after, stage := after.stage }
        | (after, false) => { head := after, stage := .refused } := by
      rcases taken : headerLine asked line h with ⟨after, _ | _⟩ <;> simp [Reader.step, taken]
    rw [Reader.read_append, walked, Reader.read_cons, newline]
    rcases headerLine asked line h with ⟨after, _ | _⟩
    · exact ⟨_, Reader.read_refused rfl rest, rfl, rfl, rfl, rfl⟩
    · rfl
  · rw [if_neg within] at walked
    have fails := headerLine_passes asked (show h.hdrBytes + line.length + 1 > maxHeaderBytes by omega)
    cases taken : headerLine asked line h with
    | mk after ok =>
      rw [taken] at fails
      obtain rfl : ok = false := fails
      obtain ⟨_, status, hdr⟩ := headerLine_fails taken
      exact ⟨_, by rw [Reader.read_append, walked, Reader.read_refused rfl], rfl, rfl,
        status.symm, hdr.symm⟩

/-- The walk over the lines reads what reading byte by byte reads. -/
theorem headerWalk_reads (asked : Asked) (fuel : Nat) :
    ∀ (region : List UInt8) (h : Head), region.length ≤ fuel → h.part.inHeader = true →
      h.Framed → (headerWalk asked fuel region h).Reads asked h region := by
  -- Each turn takes one line, until one of them ends the header.
  induction fuel with
  | zero =>
    intro region h few inHeader framed
    obtain rfl : region = [] := length_eq_zero_iff.mp (by omega)
    have stage := stage_inHeader inHeader
    refine ⟨suffix_refl _, fun _ => ?_, fun _ => framed, fun _ _ => by simp [headerWalk], ?_⟩
    · simp [headerWalk, stage]
    · simp [headerWalk]
  | succ fuel ih =>
    intro region h few inHeader framed
    have stage := stage_inHeader inHeader
    rw [headerWalk, if_pos inHeader]
    cases split : splitLine region with
    | none =>
      exact ⟨suffix_refl _, fun _ => by simp [stage], fun _ => framed,
        fun _ _ => splitLine_none split, by simp⟩
    | some cut =>
      obtain ⟨line, rest⟩ := cut
      obtain ⟨rfl, unbroken⟩ := splitLine_some split
      have reads := read_headerLine asked framed.bytes unbroken rest
      have behind : rest <:+ line ++ 10 :: rest := ⟨line ++ [10], by simp⟩
      cases taken : headerLine asked line h with
      | mk after ok =>
        rw [taken] at reads
        simp only [taken]
        cases ok with
        | false =>
          obtain ⟨done, _⟩ := headerLine_fails taken
          exact ⟨behind, by simp, by simp, by simp, fun _ => ⟨done, reads⟩⟩
        | true =>
          have next := headerLine_framed taken inHeader framed
          cases goesOn : after.part.inHeader with
          | false =>
            simp only [headerWalk_beyond goesOn]
            exact ⟨behind, fun _ => reads, fun _ => next, fun _ still => by simp [goesOn] at still, by simp⟩
          | true =>
            simp only [length_append, length_cons] at few
            obtain ⟨suffix, went, frames, waits, failed⟩ := ih rest after (by omega) goesOn next
            have start : ({ head := after, stage := after.stage } : Reader) = { head := after } := by
              rw [stage_inHeader goesOn]
            have reads : ({ head := h } : Reader).read asked (line ++ 10 :: rest) =
                ({ head := after } : Reader).read asked rest := reads.trans (by rw [start])
            refine ⟨suffix.trans behind, ?_, frames, waits, ?_⟩
            · intro ok
              rw [reads, went ok]
            · intro ok
              rw [reads]
              exact failed ok

/-- What a receive leaves is where its reader is, unless the buffer may not hold what was read. -/
def Settles (x : Inbound) (v : Reader) (result : Option (Inbound × Ended)) : Prop :=
  ∃ after ended, result = some (after, ended) ∧ Keeps x after ∧
    (Mirrors (settle (after, ended)) v ∨ ended = .bodyFailed ∧ maxContentLength < v.held)

/-- An answer of the body is settled by the end it reports. -/
theorem Answers.settles {x y : Inbound} {v : Reader} {len : Int} (same : Keeps x y)
    (beyond : y.response.part.inHeader = false) (open_ : y.response.part ≠ .done)
    (answers : Answers y v (receiveBody y len)) : Settles x v (passBody y len) := by
  obtain ⟨after, ok, takes, keeps, mirrors⟩ := answers
  have turn : ¬ (y.response.part.inHeader = true ∨ y.response.part = .done) := by simp [beyond, open_]
  refine ⟨after, if ok then .came len else .bodyFailed, ?_, same.trans keeps, ?_⟩
  · rw [passBody, if_neg turn, takes]
    rfl
  · cases ok with
    | true => exact .inl mirrors
    | false =>
      by_cases small : v.held ≤ maxContentLength
      · obtain ⟨refused, status, hdr, inside, handed⟩ := mirrors small
        rw [Mirrors, refused]
        exact .inl ⟨rfl, rfl, status.symm, hdr, inside, handed⟩
      · exact .inr ⟨rfl, Nat.lt_of_not_le small⟩

theorem bodyless_finished {x : Inbound} {v : Reader} (noError : x.err = false)
    (head : x.response.toHead = v.head) (done : v.head.part = .done) (bare : v.body = [])
    (inside : x.response.data.length ≤ x.response.buflen) (handed : x.handed.flatten = []) :
    Finished (bodyless x) v := by
  have closes : x.response.connClose = v.head.connClose := by
    have field := congrArg connClose head
    exact field
  refine ⟨noError, ?_, ?_, inside, ?_, ?_⟩
  · show { x.response.toHead with
      connClose := x.response.connClose || x.response.pos != 0, len := 0 } = { v.head with
      part := .done, len := 0, connClose := x.response.connClose || x.response.pos != 0 }
    rw [head, ← done]
  · intro announced
    show (x.response.connClose || x.response.pos != 0) = true
    rw [closes, announced]
    rfl
  · intro _
    show x.response.data.take 0 = (bodyless x).front v.body
    rw [bare, Inbound.front]
    split <;> rfl
  · show x.handed.flatten = (bodyless x).sunk v.body
    rw [handed, bare, Inbound.sunk]
    split <;> rfl

theorem sizeToLength_spec {y : Inbound} (inside : y.response.data.length ≤ y.response.buflen)
    (sized : 0 < y.response.buflen) :
    ∃ z, sizeToLength y = z ∧ z.err = y.err ∧ Keeps y z ∧ z.handed = y.handed ∧
      z.response.toHead = y.response.toHead ∧ z.response.pos = y.response.pos ∧
      z.response.flushed = y.response.flushed ∧
      z.response.data.length ≤ z.response.buflen ∧ 0 < z.response.buflen ∧
      (y.response.bodytype = .len → y.response.data.take y.response.len <+: z.response.data) ∧
      (y.response.bodytype ≠ .len → z.response.data = y.response.data) ∧
      (y.response.bodytype = .len → 0 < y.response.len → y.bodyStreams = false →
        y.response.len ≤ z.response.buflen) := by
  by_cases sizes : y.response.bodytype = .len ∧ 0 < y.response.len ∧ y.bodyStreams = false
  · refine ⟨_, if_pos sizes, rfl, ⟨rfl, rfl⟩, rfl, rfl, rfl, rfl, ?_, sizes.2.1, fun _ => ?_,
      fun other => absurd sizes.1 other, fun _ _ _ => le_refl _⟩
    · exact length_take_le _ _
    · exact prefix_refl _
  · refine ⟨_, if_neg sizes, rfl, ⟨rfl, rfl⟩, rfl, rfl, rfl, rfl, inside, sized,
      fun _ => take_prefix _ _, fun _ => rfl, fun kind positive buffered => ?_⟩
    exact absurd ⟨kind, positive, buffered⟩ sizes

theorem stage_tail (h : Head) : h.stage.tail = [] := by
  rw [stage]
  cases h.part with
  | body => cases h.bodytype <;> first | rfl | (dsimp only; split <;> rfl)
  | _ => rfl

theorem Head.Framed.placed {h : Head} (framed : h.Framed) (going : h.stage ≠ .complete) :
    h = { h with part := h.stage.part h, len := h.stage.len h 0 } := by
  have place : h.stage.part h = h.part ∧ h.stage.len h 0 = h.len := by
    rw [stage] at going ⊢
    cases part : h.part with
    | headerTop | header => exact ⟨part, rfl⟩
    | body =>
      cases kind : h.bodytype with
      | full => exact ⟨rfl, (framed.unsized kind).symm⟩
      | chunk => exact absurd kind (framed.counted part)
      | len =>
        by_cases empty : h.len = 0
        · simp [part, kind, empty] at going
        · simp [empty, Stage.part, Stage.len]
    | bodyChunklen => exact ⟨rfl, (framed.chunked part).2.symm⟩
    | done => simp [part] at going
  rw [place.1, place.2]

theorem Head.Framed.bodies {h : Head} (framed : h.Framed) (beyond : h.part.inHeader = false)
    (open_ : h.part ≠ .done) :
    (h.bodytype = .full ∧ h.stage = .untilClose) ∨
      (h.bodytype = .len ∧ h.len = 0 ∧ h.part = .body ∧ h.stage = .complete) ∨
      (h.bodytype = .len ∧ 0 < h.len ∧ h.stage = .counted h.len) ∨
      (h.bodytype = .chunk ∧ h.stage = .sizeLine []) := by
  cases part : h.part with
  | headerTop | header => simp [part, ResponsePart.inHeader] at beyond
  | done => exact absurd part open_
  | bodyChunklen => exact .inr (.inr (.inr ⟨(framed.chunked part).1, by simp [stage, part]⟩))
  | body =>
    cases kind : h.bodytype with
    | full => exact .inl ⟨rfl, by simp [stage, part, kind]⟩
    | chunk => exact absurd kind (framed.counted part)
    | len =>
      by_cases empty : h.len = 0
      · exact .inr (.inl ⟨rfl, empty, rfl, by simp [stage, part, kind, empty]⟩)
      · exact .inr (.inr (.inl ⟨rfl, by omega, by simp [stage, part, kind, empty]⟩))

theorem headEnds_settles {asked : Asked} {x y : Inbound} {h : Head} {rest : List UInt8}
    (keeps : Keeps x y) (noError : y.err = false) (accepts : y.Accepts)
    (head : y.response.toHead = h) (beyond : h.part.inHeader = false) (open_ : h.part ≠ .done)
    (framed : h.Framed) (data : rest <+: y.response.data) (pos : y.response.pos = 0)
    (inside : y.response.data.length ≤ y.response.buflen) (sized : 0 < y.response.buflen)
    (handed : y.handed.flatten = []) (flushed : y.response.flushed = 0) :
    Settles x (({ head := h, stage := h.stage } : Reader).read asked rest)
      (passBody (sizeToLength y) rest.length) := by
  obtain ⟨z, sizes, err', keeps', handed', head', pos', flushed', inside', sized', taken, plain,
    room⟩ := sizeToLength_spec inside sized
  rw [sizes]
  have same := keeps.trans keeps'
  have fields : z.response.toHead = h := head'.trans head
  have part : z.response.part = h.part := by
    have field := congrArg part fields
    exact field
  have kind : y.response.bodytype = h.bodytype := by
    have field := congrArg bodytype head
    exact field
  have len : y.response.len = h.len := by
    have field := congrArg len head
    exact field
  have discard : z.response.discard = y.response.discard := by
    have field := congrArg discard head'
    exact field
  have accepts' : z.Accepts := fun given taken => accepts given (keeps'.sink ▸ taken)
  have empty : z.front [] = [] := by
    rw [Inbound.front]
    split <;> rfl
  have nothing : z.handed.flatten = z.sunk [] := by
    rw [handed', handed, Inbound.sunk]
    split <;> rfl
  have counts : z.response.flushed = z.handed.flatten.length := by
    rw [flushed', flushed, handed', handed]
    rfl
  apply Answers.settles same (by rw [part]; exact beyond) (by rw [part]; exact open_)
  rcases framed.bodies beyond open_ with
    ⟨full, stage⟩ | ⟨counted, zero, inBody, stage⟩ | ⟨counted, positive, stage⟩ | ⟨chunk, stage⟩
  case inr.inl =>
    -- An announced body of no bytes is over at once, whatever stands behind it.
    obtain ⟨after, takes, keeps, finished⟩ := receiveLength_finished (x := z)
      (v := { head := h, stage := .complete }) [] rest 0
      (err'.trans noError) accepts' (by rw [empty, fields]; cases h; simp_all) (by simp [empty])
      (by rw [pos', pos, empty]; rfl) inside' nothing counts (Nat.zero_le _) rfl
    have open' : ¬ ((rest.length : Int) < 0 ∨ z.err = true) := by
      rw [err', noError]
      simp
    refine ⟨after, true, ?_, keeps, ?_⟩
    · rw [receiveBody, if_neg open', show z.response.bodytype = .len from
        (congrArg bodytype fields).trans counted, Int.toNat_natCast]
      exact takes
    · rw [if_pos rfl, Mirrors, stage, Reader.read_complete rfl]
      exact finished
  all_goals
    have going : h.stage ≠ .complete ∧ h.stage ≠ .refused := by simp [stage]
    apply receiveBody_answers _ framed.fits (by simp [stage]) going
    refine ⟨err'.trans noError, accepts', ?_, ?_, ?_, inside', sized', ?_, nothing, counts⟩
    · show z.response.toHead = { h with
        part := h.stage.part h, len := h.stage.len h (z.front []).length }
      rw [empty, fields]
      exact framed.placed going.1
    · show z.front [] ++ h.stage.tail ++ h.stage.own rest <+: z.response.data
      rw [empty, stage_tail, stage]
      first
        | exact (plain (by rw [kind, full]; simp)).symm ▸ data
        | exact (plain (by rw [kind, chunk]; simp)).symm ▸ data
        | exact (data.take h.len).trans (len ▸ taken (kind.trans counted))
    · show z.response.pos = (z.front [] ++ h.stage.tail).length
      rw [empty, stage_tail, pos', pos]
      rfl
    · intro left isCounted buffered
      simp only [stage, Stage.counted.injEq, reduceCtorEq] at isCounted
      try
        subst isCounted
        have buffered' : y.bodyStreams = false := by rwa [Inbound.bodyStreams, ← keeps'.sink, ← discard]
        show (z.front []).length + h.len ≤ z.response.buflen
        rw [empty, length_nil, Nat.zero_add, ← len]
        exact room (kind.trans counted) (len.symm ▸ positive) buffered'

theorem lines_settles {x y : Inbound} {h : Head} {rest : List UInt8} {len : Int}
    (keeps : Keeps x y) (noError : y.err = false) (accepts : y.Accepts)
    (head : y.response.toHead = h) (inHeader : h.part.inHeader = true)
    (data : rest <+: y.response.data) (pos : y.response.pos = rest.length)
    (inside : y.response.data.length ≤ y.response.buflen) (sized : 0 < y.response.buflen)
    (handed : y.handed.flatten = []) (flushed : y.response.flushed = 0) :
    Settles x { head := h, stage := .lines rest } (passBody y len) := by
  have part : y.response.part = h.part := by
    have field := congrArg part head
    exact field
  have empty : y.front [] = [] := by
    rw [Inbound.front]
    split <;> rfl
  have nothing : y.sunk [] = [] := by
    rw [Inbound.sunk]
    split <;> rfl
  refine ⟨y, .came len, by rw [passBody, if_pos (.inl (by rw [part]; exact inHeader))], keeps, .inl ?_⟩
  show Holds y { head := h, stage := .lines rest } []
  refine ⟨noError, accepts, ?_, ?_, ?_, inside, sized, by rintro _ ⟨⟩, ?_, ?_⟩
  · rw [head]
    rfl
  · show y.front [] ++ rest ++ [] <+: y.response.data
    rwa [empty, append_nil]
  · show y.response.pos = (y.front [] ++ rest).length
    rw [empty, pos]
    rfl
  · show y.handed.flatten = y.sunk []
    rw [handed, nothing]
  · rw [flushed, handed]
    rfl

/-- A receive in the header mirrors the reading of its bytes, into the body if they reach it. -/
theorem receiveHeader_settles {x : Inbound} {v : Reader} {piece line : List UInt8}
    (holds : Holds x v piece) (sound : v.Sound) (stands : v.stage = .lines line) :
    Settles x (v.read x.asked piece) (do
      let (x, len) ← receiveHeader x piece.length
      passBody x len) := by
  obtain ⟨noError, accepts, head, data, pos, inside, sized, -, handed, flushed⟩ := holds
  have bare := sound.bare line stands
  have fits := sound.fits
  have framed := sound.framed (by simp [stands])
  rw [stands] at fits
  obtain ⟨inHeader, unbroken, bytes⟩ := fits
  have empty : x.front v.body = [] := by
    rw [bare, Inbound.front]
    split <;> rfl
  simp only [stands, Stage.tail, Stage.own, Stage.part, Stage.len, empty, nil_append] at head data pos
  have nothing : x.handed.flatten = [] := by
    rw [handed, bare, Inbound.sunk]
    split <;> rfl
  -- The partial line is read again from its start.
  have again : v.read x.asked piece = ({ head := v.head } : Reader).read x.asked (line ++ piece) := by
    rw [Reader.read_append, Reader.read_line _ rfl (by simpa using framed.bytes) line unbroken,
      nil_append, if_pos bytes]
    congr 1
    rw [← stands, ← bare]
  have fields : x.response.toHead = v.head := head
  have region : load x.response.data 0 (x.response.pos + piece.length) = some (line ++ piece) := by
    obtain ⟨after, stands⟩ := data
    have loaded := load_at [] (line ++ piece) after stands.symm
    rwa [length_append, ← pos] at loaded
  have walk := headerWalk_reads x.asked (line ++ piece).length (line ++ piece) v.head (le_refl _)
    inHeader framed
  rw [again]
  rw [receiveHeader]
  simp only [region, bind_eq_bind, bind_some, fields]
  generalize headerWalk x.asked (line ++ piece).length (line ++ piece) v.head = walked at walk ⊢
  obtain ⟨suffix, went, frames, waits, failed⟩ := walk
  cases ok : walked.ok with
  | false =>
    -- A line failed: the response is over and has an error.
    obtain ⟨done, v', read, refused, bare', status, hdr⟩ := failed ok
    rw [read]
    simp only [if_true, bind_some]
    refine ⟨{ x with
      err := true
      response := { x.response with
        toHead := walked.head
        pos := x.response.pos + piece.length } }, .came (-1),
      by rw [passBody, if_pos (.inr done)], ⟨rfl, rfl⟩, .inl ?_⟩
    rw [Mirrors, refused]
    refine ⟨rfl, by exact done, status.symm, hdr.symm, inside, ?_⟩
    show x.handed.flatten <+: _
    rw [nothing]
    exact nil_prefix
  | true =>
    have next := frames ok
    rw [went ok]
    simp only [Bool.true_eq_false, if_false]
    -- What no line has taken slides to the front of the buffer.
    obtain ⟨before, cut⟩ := suffix
    obtain ⟨after, stands⟩ := data
    have width := congrArg List.length cut
    have reach := congrArg List.length stands
    simp only [length_append] at width reach
    obtain ⟨moved, moves, length, front, _⟩ := memmove_moved x.response.data
      (show 0 + walked.rest.length ≤ x.response.data.length by omega)
      (show x.response.pos + piece.length - walked.rest.length + walked.rest.length ≤
        x.response.data.length by omega)
    have slid : walked.rest <+: moved := by
      have source : x.response.data.drop
          (x.response.pos + piece.length - walked.rest.length) = walked.rest ++ after := by
        rw [← stands, ← cut, List.append_assoc, drop_left' (by omega)]
      rw [source, take_left, take_zero, nil_append, Nat.zero_add] at front
      rw [← front]
      exact take_prefix _ _
    simp only [moves, bind_some]
    have within : moved.length ≤ x.response.buflen := by omega
    have unsent : x.response.flushed = 0 := by
      rw [flushed, nothing]
      rfl
    by_cases done : walked.head.part = .done
    · -- A response without a body is complete.
      have stage : walked.head.stage = .complete := by simp [stage, done]
      rw [stage, Reader.read_complete rfl]
      simp only [if_pos done, bind_some]
      refine ⟨bodyless { x with response := { x.response with
        toHead := walked.head
        data := moved
        pos := walked.rest.length } }, .came 0, by rw [passBody, if_pos (.inr done)], ⟨rfl, rfl⟩, .inl ?_⟩
      exact bodyless_finished (x := { x with response := { x.response with
        toHead := walked.head
        data := moved
        pos := walked.rest.length } }) (v := { head := walked.head, stage := .complete })
        noError rfl done rfl within nothing
    · simp only [if_neg done]
      cases beyond : walked.head.part.inHeader with
      | false =>
        simp only [if_true, bind_some]
        exact headEnds_settles (y := { x with response := { x.response with
          toHead := walked.head
          data := moved
          pos := 0 } }) ⟨rfl, rfl⟩ noError accepts rfl beyond done next slid rfl within sized nothing
          unsent
      | true =>
        have lines := stage_inHeader beyond
        simp only [Bool.true_eq_false, if_false]
        rw [lines, Reader.read_line _ rfl (by simpa using next.bytes) _ (waits ok beyond),
          nil_append]
        by_cases passes : walked.head.hdrBytes + walked.rest.length > maxHeaderBytes
        · -- The line passes the cap before its newline has come.
          simp only [if_pos passes, bind_some, if_neg (Nat.not_le_of_lt passes)]
          refine ⟨headerFails { x with response := { x.response with
            toHead := walked.head
            data := moved
            pos := walked.rest.length } }, .came (-1), by rw [passBody, if_pos (.inr rfl)], ⟨rfl, rfl⟩, .inl ?_⟩
          refine ⟨rfl, rfl, rfl, rfl, within, ?_⟩
          show x.handed.flatten <+: _
          rw [nothing]
          exact nil_prefix
        · simp only [if_neg passes, if_pos (Nat.le_of_not_lt passes)]
          by_cases grows : walked.rest.length ≥ x.response.buflen - 64
          · simp only [if_pos grows, bind_some]
            exact lines_settles (y := { x with response := { x.response with
              toHead := walked.head
              data := moved
              pos := walked.rest.length
              buflen := x.response.buflen * 2 } }) ⟨rfl, rfl⟩ noError accepts rfl beyond slid rfl
              (by show moved.length ≤ x.response.buflen * 2; omega)
              (by show 0 < x.response.buflen * 2; omega) nothing unsent
          · simp only [if_neg grows, bind_some]
            exact lines_settles (y := { x with response := { x.response with
              toHead := walked.head
              data := moved
              pos := walked.rest.length } }) ⟨rfl, rfl⟩ noError accepts rfl beyond slid rfl within sized
              nothing unsent

end Libretro.Http
