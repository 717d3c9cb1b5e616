import Libretro.Encodings.InflateDynamic

/-! The careful path reads the groups of a compressed block as the format does. -/

namespace Libretro.Inflate

open BackReference BitString BitString.Parser Deflate Nat

variable {origin : Bits} {prior : List UInt8} {committed weight : Nat} {frame : Frame}
  {c : Call} {d e : Decoder} {s : State} {literals distances : List Nat}

theorem Rests.nothing {β : Type} {following : Nat → Parser β} {next : β → Option (Stage × List UInt8)}
    (rests : Rests s e ((Parser.number 0).andThen following) next) : Rests s e (following 0) next := by
  have rest := rests.number s (zero_le _) (drop_zero _)
  rwa [show s.bits.stream.low 0 = 0 from mod_one _] at rest

variable (ready : Ready origin prior committed frame d c e)
include ready

theorem ldDistExtra_follows
    (phase : c.s.phase = .blockData) (tables : Tables c.s.lencode c.s.distcode literals distances)
    (idle : c.s.copyActive = false) (step : c.s.ldStep = 3) (long : 0 < c.s.ldLength)
    (isDist : c.s.ldDistsym < 30) (rests : Rests c.s e (distanceRest c.s.ldLength c.s.ldDistsym)
      (symbolsNext literals distances c.s.bfinal e.out))
    (less : 32 * c.s.bits.stream.length + 1 < weight) :
    Follows origin prior committed weight frame d (ldDistExtra c) := by
  -- With the distance known, the copy is pending.
  have copies : ∀ (bits : Bits) (v : Nat), v < 2 ^ distanceExtra.getD c.s.ldDistsym 0 →
      Ready origin prior committed frame d (c.setBits bits) e →
      Rests (c.setBits bits).s e (done (.copy c.s.ldLength (distanceBase.getD c.s.ldDistsym 0 + v)))
        (symbolsNext literals distances c.s.bfinal e.out) →
      bits.stream.length ≤ c.s.bits.stream.length →
      Follows origin prior committed weight frame d (.on { c with
        s := { c.s with
          bits := bits, copyDist := distanceBase.getD c.s.ldDistsym 0 + v
          copyLen := c.s.ldLength, copyActive := true, ldStep := 0 }
        pc := .careful }) := by
    intro bits v small ready rests shorter
    obtain ⟨back, near⟩ := distance_bounds isDist small
    refine Ready.on (e := e) { ready with core := { ready.core with } } rfl
      (.symbols phase literals distances tables (.copy rfl long back near rests)) phase ?_
    unfold Call.weight Call.rank Call.view
    dsimp only
    rw [if_neg (by simp), if_pos rfl]
    omega
  unfold ldDistExtra
  by_cases more : rinfDistExtra.getD c.s.ldDistsym 0 ≠ 0
  · rw [if_pos more]
    apply ready.needing (n := rinfDistExtra.getD c.s.ldDistsym 0) rests
    · intro few
      rw [distanceRest, andThen, number_short (n := distanceExtra.getD c.s.ldDistsym 0) few]
    · exact fun other same => .symbols phase literals distances tables
        (.extra idle step long isDist (rests.again same))
    intro bits₁ ready₁ rests₁ there₁ same₁
    apply ready₁.getting rests₁ there₁
    intro v bits₂ small ready₂ rests₂ left₂ length₂
    dsimp only [Call.setBits] at length₂
    rw [same₁] at length₂
    exact copies bits₂ v small ready₂ rests₂ (by omega)
  · rw [if_neg more]
    replace more : distanceExtra.getD c.s.ldDistsym 0 = 0 := not_not.mp more
    rw [distanceRest, more] at rests
    exact copies c.s.bits 0 (Nat.two_pow_pos _) ready rests.nothing (le_refl _)

theorem ldDist_follows
    (phase : c.s.phase = .blockData) (tables : Tables c.s.lencode c.s.distcode literals distances)
    (idle : c.s.copyActive = false) (step : c.s.ldStep = 2) (long : 0 < c.s.ldLength)
    (rests : Rests c.s e (distancePart distances c.s.ldLength)
      (symbolsNext literals distances c.s.bfinal e.out)) (heavy : 32 * c.s.bits.stream.length < weight) :
    Follows origin prior committed weight frame d (ldDist c) := by
  obtain ⟨k, input⟩ := ready.core.input
  have decoded := input.decode tables.dist
  unfold ldDist
  generalize (rinfDecode c.s.distcode c.s.bits) = result at decoded
  obtain ⟨found, after⟩ := result
  dsimp only at decoded ⊢
  cases found with
  | short =>
    obtain ⟨read, exhausted, short⟩ := decoded
    refine (ready.setBits read).suspend ?_ (rests.short (by rw [distancePart, andThen, short]))
      exhausted
    exact .symbols phase literals distances tables
      (.distance idle step long (rests.again (by rw [input.stream]; exact read.stream)))
  | invalid =>
    obtain ⟨read, wrong⟩ := decoded
    exact (ready.setBits read).fail (rests.wrong (by rw [distancePart, andThen, wrong]))
  | sym sym =>
    obtain ⟨n, some, read, symbol⟩ := decoded
    have before := input.length
    have length := read.length
    replace rests := rests.symbol (c.setBits after).s symbol
    dsimp only
    by_cases high : 30 ≤ sym
    · rw [if_pos high]
      rw [if_pos high] at rests
      exact (ready.setBits read).fail (rests.wrong rfl)
    · rw [if_neg high]
      rw [if_neg high] at rests
      have found := ready.setBits read
      refine ldDistExtra_follows (e := e) { found with core := { found.core with } } phase tables
        idle rfl long (not_le.mp high) rests ?_
      show 32 * after.stream.length + 1 < weight
      omega

theorem ldLenExtra_follows
    (phase : c.s.phase = .blockData) (tables : Tables c.s.lencode c.s.distcode literals distances)
    (idle : c.s.copyActive = false) (step : c.s.ldStep = 1) (isLength : c.s.ldLensym < 29)
    (rests : Rests c.s e (lengthRest distances c.s.ldLensym)
      (symbolsNext literals distances c.s.bfinal e.out)) (heavy : 32 * c.s.bits.stream.length < weight) :
    Follows origin prior committed weight frame d (ldLenExtra c) := by
  have long := length_bounds isLength
  -- With the length known, the distance is next.
  have continues : ∀ (bits : Bits) (v : Nat), Ready origin prior committed frame d (c.setBits bits) e →
      Rests (c.setBits bits).s e (distancePart distances (lengthBase.getD c.s.ldLensym 0 + v))
        (symbolsNext literals distances c.s.bfinal e.out) →
      bits.stream.length ≤ c.s.bits.stream.length →
      Follows origin prior committed weight frame d (ldDist { c with s := { c.s with
        bits := bits, ldLength := lengthBase.getD c.s.ldLensym 0 + v, ldStep := 2 } }) := by
    intro bits v ready rests shorter
    refine ldDist_follows (e := e) { ready with core := { ready.core with } } phase tables idle rfl
      (Nat.add_pos_left long v) rests ?_
    show 32 * bits.stream.length < weight
    omega
  unfold ldLenExtra
  by_cases more : rinfLenExtra.getD c.s.ldLensym 0 ≠ 0
  · rw [if_pos more]
    apply ready.needing (n := rinfLenExtra.getD c.s.ldLensym 0) rests
    · intro few
      rw [lengthRest, andThen, number_short (n := lengthExtra.getD c.s.ldLensym 0) few]
    · exact fun other same => .symbols phase literals distances tables
        (.length idle step isLength (rests.again same))
    intro bits₁ ready₁ rests₁ there₁ same₁
    apply ready₁.getting rests₁ there₁
    intro v bits₂ small ready₂ rests₂ left₂ length₂
    dsimp only [Call.setBits] at length₂
    rw [same₁] at length₂
    exact continues bits₂ v ready₂ rests₂ (by omega)
  · rw [if_neg more]
    replace more : lengthExtra.getD c.s.ldLensym 0 = 0 := not_not.mp more
    rw [lengthRest, more] at rests
    exact continues c.s.bits 0 ready rests.nothing (le_refl _)

omit ready

theorem symbols_rests {final : Bool} {out : List UInt8} :
    Rests s ⟨.symbols literals distances final, out, s.bits.stream⟩ (token literals distances)
      (symbolsNext literals distances final out) :=
  fun _ => rfl

include ready

theorem ldSymbol_follows
    (phase : c.s.phase = .blockData) (tables : Tables c.s.lencode c.s.distcode literals distances)
    (idle : c.s.copyActive = false) (step : c.s.ldStep = 0)
    (rests : Rests c.s e (token literals distances)
      (symbolsNext literals distances c.s.bfinal e.out)) (heavy : 32 * c.s.bits.stream.length < weight) :
    Follows origin prior committed weight frame d (ldSymbol c) := by
  obtain ⟨k, input⟩ := ready.core.input
  have decoded := input.decode tables.lit
  unfold ldSymbol
  generalize (rinfDecode c.s.lencode c.s.bits) = result at decoded
  obtain ⟨found, after⟩ := result
  dsimp only at decoded ⊢
  cases found with
  | short =>
    obtain ⟨read, exhausted, short⟩ := decoded
    refine (ready.setBits read).suspend ?_ (rests.short (by rw [token, andThen, short])) exhausted
    exact .symbols phase literals distances tables
      (.symbol idle step (rests.again (by rw [input.stream]; exact read.stream)))
  | invalid =>
    obtain ⟨read, wrong⟩ := decoded
    exact (ready.setBits read).fail (rests.wrong (by rw [token, andThen, wrong]))
  | sym sym =>
    obtain ⟨n, some, read, symbol⟩ := decoded
    have before := input.length
    have length := read.length
    have found := ready.setBits read
    replace rests := rests.symbol (c.setBits after).s symbol
    rw [symbolRest] at rests
    dsimp only
    by_cases literal : sym < 256
    · rw [if_pos literal]
      rw [if_pos literal] at rests
      obtain ⟨emitted, stored⟩ := found.emit (rests.moves rfl) rfl (by rintro ⟨⟩)
      rw [emitted]
      refine Ready.onward { stored with core := { stored.core with } } rfl
        (.symbols phase literals distances tables (.symbol idle step symbols_rests)) phase ?_
      show 32 * after.stream.length + 20 < weight
      omega
    rw [if_neg literal]
    rw [if_neg literal] at rests
    by_cases isEnd : sym = 256
    · rw [if_pos isEnd]
      rw [if_pos isEnd] at rests
      refine blockEnd_follows found (rests.moves rfl) rfl step rfl found.core ?_
      show 32 * after.stream.length + 1 < weight
      omega
    rw [if_neg isEnd]
    rw [if_neg isEnd] at rests
    generalize sym - 257 = lensym at rests ⊢
    by_cases high : 29 ≤ lensym
    · rw [if_pos high]
      rw [if_pos high] at rests
      exact Ready.fail (e := e) { found with core := { found.core with } } (rests.wrong rfl)
    · rw [if_neg high]
      rw [if_neg high] at rests
      refine ldLenExtra_follows (e := e) { found with core := { found.core with } } phase tables
        idle rfl (not_le.mp high) rests ?_
      show 32 * after.stream.length < weight
      omega

theorem ldGroup_follows
    (phase : c.s.phase = .blockData) (tables : Tables c.s.lencode c.s.distcode literals distances)
    (group : Group c.s e literals distances) (idle : c.s.copyActive = false)
    (less : 32 * c.s.bits.stream.length + 1 < weight) :
    Follows origin prior committed weight frame d (ldGroup c) := by
  unfold ldGroup
  cases group with
  | symbol _ step rest =>
    rw [if_pos step]
    exact ldSymbol_follows ready phase tables idle step rest (by omega)
  | length _ step isLength rest =>
    rw [if_neg (by omega), if_pos step]
    exact ldLenExtra_follows ready phase tables idle step isLength rest (by omega)
  | distance _ step long rest =>
    rw [if_neg (by omega), if_neg (by omega), if_pos step]
    exact ldDist_follows ready phase tables idle step long rest (by omega)
  | extra _ step long isDist rest =>
    rw [if_neg (by omega), if_neg (by omega), if_neg (by omega), if_pos step]
    exact ldDistExtra_follows ready phase tables idle step long isDist rest less
  | copy active _ _ _ _ =>
    rw [idle] at active
    cases active

omit ready

theorem Core.copied {out : List UInt8} (core : Core origin prior committed s out)
    (made : List UInt8) {dist length : Nat} (back : 0 < dist) (near : dist ≤ s.outPos)
    (inside : s.outPos + length ≤ made.length)
    (copied : made.take (s.outPos + length) = copyBack dist length (s.out.take s.outPos)) :
    Core origin prior committed { s with out := made, outPos := s.outPos + length }
      (copyBack dist length out) := by
  have width : (s.out.take s.outPos).length = s.outPos := by
    rw [List.length_take, min_eq_left core.history.inside]
  have front : made.take s.outPos = s.out.take s.outPos := by
    have kept := copyBack_extends dist length (s.out.take s.outPos)
    rw [← copied, List.prefix_iff_eq_take, width, List.take_take, min_eq_left (le_add_right _ _)] at kept
    exact kept.symm
  have grown := core.grow made inside front (le_add_right _ _)
  rw [copied, ← copyBack_append back (by omega), ← State.produced, core.output] at grown
  exact grown

theorem carefulRing_copies (n : Nat) : ∀ (c : Call) (out : List UInt8),
    Core origin prior committed c.s out → c.s.copyLen = n → 0 < c.s.copyDist →
    c.s.copyDist ≤ 32768 → c.s.copyDist ≤ out.length → c.s.outPos + n ≤ c.s.outSize →
      ∃ made, carefulRing n c = copyDone { c with s := { c.s with
          out := made, outPos := c.s.outPos + n, copyLen := 0 } } ∧
        Core origin prior committed { c.s with out := made, outPos := c.s.outPos + n }
          (copyBack c.s.copyDist n out) := by
  induction n with
  | zero =>
    intro c out core count _ _ _ _
    have same : c = { c with s := { c.s with copyLen := 0 } } := by rw [← count]
    exact ⟨c.s.out, congrArg copyDone same, core⟩
  | succ n ih =>
    intro c out core count back near reached room
    have length := core.length
    have reach : ¬c.s.outPos + c.s.wprior < c.s.copyDist := by
      rw [core.history.reach near]
      omega
    have byte := core.history.back near back (by omega)
    rw [core.output] at byte
    have stored := core.stored [rinfBack c.s c.s.copyDist]
    have emitted : rinfEmit c.s (rinfBack c.s c.s.copyDist) = some { c.s with
        out := store c.s.out c.s.outPos [rinfBack c.s c.s.copyDist]
        outPos := c.s.outPos + 1 } := if_neg (by omega)
    obtain ⟨made, ring, copied⟩ := ih { c with s := { c.s with
        out := store c.s.out c.s.outPos [rinfBack c.s c.s.copyDist]
        outPos := c.s.outPos + 1, copyLen := n } } (out ++ [rinfBack c.s c.s.copyDist])
      { stored with } rfl back near (by
        rw [List.length_append]
        exact le_add_right_of_le reached) (by
        show c.s.outPos + 1 + n ≤ c.s.outSize
        omega)
    have total : c.s.outPos + 1 + n = c.s.outPos + (n + 1) := by omega
    refine ⟨made, ?_, ?_⟩
    · unfold carefulRing
      rw [if_neg reach, emitted]
      dsimp only
      rw [ring]
      simp only [total]
    · rw [copyBack]
      show Core origin prior committed { c.s with out := made, outPos := c.s.outPos + (n + 1) }
        (copyBack c.s.copyDist n (out ++ [out.getD (out.length - c.s.copyDist) 0]))
      rw [← byte, ← total]
      exact { copied with }

theorem carefulRing_fails {n : Nat} (far : c.s.outPos + c.s.wprior < c.s.copyDist) :
    carefulRing (n + 1) c = fail c := by
  unfold carefulRing
  rw [if_pos far]

include ready

theorem copyDone_follows
    (phase : c.s.phase = .blockData) (tables : Tables c.s.lencode c.s.distcode literals distances)
    (rests : Rests c.s e (token literals distances)
      (symbolsNext literals distances c.s.bfinal e.out)) (heavy : 32 * c.s.bits.stream.length < weight) :
    Follows origin prior committed weight frame d (copyDone c) := by
  unfold copyDone ldGroup
  rw [if_pos rfl]
  exact ldSymbol_follows (e := e) { ready with core := { ready.core with } } phase tables rfl rfl
    rests heavy

theorem carefulCopy_follows
    (phase : c.s.phase = .blockData) (tables : Tables c.s.lencode c.s.distcode literals distances)
    (long : 0 < c.s.copyLen) (back : 0 < c.s.copyDist) (near : c.s.copyDist ≤ 32768)
    (rests : Rests c.s e (done (.copy c.s.copyLen c.s.copyDist))
      (symbolsNext literals distances c.s.bfinal e.out)) (heavy : 32 * c.s.bits.stream.length < weight) :
    Follows origin prior committed weight frame d (carefulCopy c) := by
  have length := ready.core.length
  have inside := ready.core.history.inside
  by_cases far : e.out.length < c.s.copyDist
  · -- Nothing has been produced so far back, in the buffer or before it.
    obtain ⟨n, count⟩ : ∃ n, c.s.copyLen = n + 1 := ⟨c.s.copyLen - 1, by omega⟩
    have reach : c.s.outPos + c.s.wprior < c.s.copyDist := by
      rw [ready.core.history.reach near]
      omega
    unfold carefulCopy
    rw [if_neg (by omega), count, carefulRing_fails reach]
    refine ready.fail (rests.refused ?_)
    simp only [symbolsNext, if_pos far]
  have added : symbolsNext literals distances c.s.bfinal e.out (.copy c.s.copyLen c.s.copyDist) =
      some (.symbols literals distances c.s.bfinal, copyBack c.s.copyDist c.s.copyLen e.out) := by
    simp only [symbolsNext, if_neg far]
  have moves := rests.moves added
  have room := ready.reserve (.one moves) (n := c.s.copyLen) (copyBack_length _ _ _)
  unfold carefulCopy
  by_cases recent : c.s.copyDist ≤ c.s.outPos
  · rw [if_pos recent]
    have whole : min c.s.copyLen (c.s.outSize - c.s.outPos) = c.s.copyLen := by omega
    simp only [whole, Nat.sub_self, Nat.lt_irrefl, if_false]
    have shapes : ∀ made, c.s.outPos + c.s.copyLen ≤ made.length → made.take (c.s.outPos + c.s.copyLen) =
          copyBack c.s.copyDist c.s.copyLen (c.s.out.take c.s.outPos) →
        Follows origin prior committed weight frame d (copyDone { c with s := { c.s with
          out := made, outPos := c.s.outPos + c.s.copyLen, copyLen := 0 } }) := by
      intro made inside copied
      have core := ready.core.copied made back recent inside copied
      exact copyDone_follows (ready.leads moves nofun { core with } ready.kept) phase tables
        symbols_rests heavy
    by_cases short : c.s.copyLen ≤ c.s.copyDist
    · simp only [if_pos short]
      obtain ⟨reach, copied⟩ := copySteps_spec short 1 c.s.outPos c.s.out inside recent
      rw [Nat.one_mul] at reach copied
      exact shapes _ (by omega) copied
    · simp only [if_neg short]
      obtain ⟨reach, copied⟩ := copySteps_spec (w := 1) back c.s.copyLen c.s.outPos c.s.out inside recent
      rw [Nat.mul_one] at reach copied
      exact shapes _ (by omega) copied
  · rw [if_neg recent]
    obtain ⟨made, ring, core⟩ := carefulRing_copies c.s.copyLen c e.out ready.core rfl back near
      (not_lt.mp far) room
    rw [ring]
    exact copyDone_follows (ready.leads moves nofun { core with } ready.kept) phase tables
      symbols_rests heavy

/-- A pass of the careful loop does what the format does. -/
theorem careful_follows
    (phase : c.s.phase = .blockData) (tables : Tables c.s.lencode c.s.distcode literals distances)
    (group : Group c.s e literals distances) (less : 32 * c.s.bits.stream.length +
      (if Resumable c.s then 10 else if c.s.copyActive then 1 else 2) ≤ weight) :
    Follows origin prior committed weight frame d (careful c) := by
  unfold careful
  by_cases resumable : Resumable c.s
  · rw [if_pos resumable] at less
    rw [if_pos resumable]
    refine Ready.on (e := e) { ready with } rfl (.symbols phase literals distances tables group)
      phase ?_
    show 32 * c.s.bits.stream.length + 9 < weight
    omega
  rw [if_neg resumable] at less
  rw [if_neg resumable]
  by_cases active : c.s.copyActive = true
  · rw [if_pos active] at less
    rw [if_pos active]
    cases group with
    | copy _ long back near rest =>
      exact carefulCopy_follows ready phase tables long back near rest (by omega)
    | symbol idle _ _ => rw [idle] at active; cases active
    | length idle _ _ _ => rw [idle] at active; cases active
    | distance idle _ _ _ => rw [idle] at active; cases active
    | extra idle _ _ _ _ => rw [idle] at active; cases active
  · rw [if_neg active] at less
    rw [if_neg active]
    exact ldGroup_follows ready phase tables group (by simpa using active) (by omega)

end Libretro.Inflate
