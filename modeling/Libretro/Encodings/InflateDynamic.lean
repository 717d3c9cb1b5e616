import Libretro.Encodings.InflateBlocks

/-! The code tables of dynamic blocks are read and built as the format does. -/

namespace Libretro.Inflate

open BitString BitString.Parser Deflate
open List hiding append_assoc drop_length length

variable {origin : Bits} {prior : List UInt8} {committed weight : Nat} {frame : Frame}
  {c : Call} {d e : Decoder} {s : State}

theorem Rests.congr {α : Type} {parser same : Parser α} {next : α → Option (Stage × List UInt8)}
    (rests : Rests s e parser next) (equal : ∀ bits, parser bits = same bits) :
    Rests s e same next := by
  rw [← funext equal]
  exact rests

theorem Rests.again {α : Type} {parser : Parser α} {next : α → Option (Stage × List UInt8)}
    (rests : Rests s e parser next) {after : State} (same : after.bits.stream = s.bits.stream) :
    Rests after e parser next := by
  unfold Rests
  rw [same]
  exact rests

theorem dynamicHeader_short {final : Bool} {bits : BitString} (few : bits.length < 14) :
    dynamicHeader final bits = .short := by
  unfold dynamicHeader andThen
  by_cases one : 5 ≤ bits.length
  · rw [number_read one]
    dsimp only
    by_cases two : 5 ≤ (bits.drop 5).length
    · rw [number_read two]
      dsimp only
      rw [drop_length] at two
      rw [number_short (by rw [drop_length, drop_length]; omega)]
    · rw [number_short (by omega)]
  · rw [number_short (by omega)]

variable (ready : Ready origin prior committed frame d c e)
include ready

theorem dynCounts_follows (phase : c.s.phase = .dynTable) (idle : c.s.ldStep = 0) (at' : c.pc = .dispatch)
    (unread : c.s.hlit = -1) (empty : c.s.lengthsHave = 0)
    (rests : Rests c.s e (dynamicHeader c.s.bfinal) (headerNext e.out))
    (heavy : 32 * c.s.bits.stream.length < weight) :
    Follows origin prior committed weight frame d (dynCounts c) := by
  unfold dynCounts
  apply ready.needing rests dynamicHeader_short
  · exact fun other same => .dynamic phase idle (.counts unread (rests.again same) empty)
  intro bits₁ ready₁ rests₁ there₁ same₁
  apply ready₁.getting rests₁ (by show 5 ≤ bits₁.bitcnt; omega)
  intro literals bits₂ small₂ ready₂ rests₂ left₂ length₂
  dsimp only [Call.setBits] at left₂ length₂
  apply ready₂.getting rests₂ (by show 5 ≤ bits₂.bitcnt; omega)
  intro distances bits₃ small₃ ready₃ rests₃ left₃ length₃
  dsimp only [Call.setBits] at left₃ length₃
  apply ready₃.getting rests₃ (by show 4 ≤ bits₃.bitcnt; omega)
  intro codes bits₄ small₄ ready₄ rests₄ left₄ length₄
  dsimp only [Call.setBits] at left₄ length₄
  rw [same₁] at length₂
  refine Ready.dispatches { ready₄ with core := { ready₄.core with } } at'
    (.dynamic phase idle (.codes (literals + 257) (distances + 1) (codes + 4) []
      ⟨?_, ?_, by omega, by omega⟩ ?_ ?_ rfl rfl ?_ rfl empty ?_ rests₄)) ?_
  · show (literals : Int) + 257 = (literals + 257 : Nat)
    omega
  · show (distances : Int) + 1 = (distances + 1 : Nat)
    omega
  · show (codes : Int) + 4 = (([] : List Nat).length + (codes + 4) : Nat)
    simp only [length_nil]
    omega
  · show ([] : List Nat).length + (codes + 4) ≤ 19
    simp only [length_nil]
    omega
  · show replicate 19 0 = inOrder []
    decide
  · show (replicate (288 + 32) 0).length = 320
    rw [length_replicate]
  · show 32 * bits₄.stream.length + 15 < weight
    omega

omit ready

theorem inOrder_snoc (listed : List Nat) (v : Nat) (few : listed.length < 19) :
    (inOrder listed).set (rinfClcOrder.getD listed.length 0) v = inOrder (listed ++ [v]) := by
  have order : ∀ i < 19, ∀ sym < 19, codeLengthOrder.idxOf sym = i ↔ rinfClcOrder.getD i 0 = sym := by decide
  have short : ∀ sym < 19, codeLengthOrder.idxOf sym < 19 := by decide
  unfold inOrder
  apply ext_getElem
  · simp
  intro sym inside insideToo
  simp only [length_set, length_map, length_range] at inside
  rw [getElem_set, getElem_map, getElem_map, getElem_range]
  have place := order listed.length few sym inside
  by_cases here : rinfClcOrder.getD listed.length 0 = sym
  · rw [if_pos here, place.mpr here, getD_append_right _ _ _ _ (Nat.le_refl _), Nat.sub_self]
    rfl
  · rw [if_neg here]
    have other : codeLengthOrder.idxOf sym ≠ listed.length := fun same => here (place.mp same)
    by_cases early : codeLengthOrder.idxOf sym < listed.length
    · rw [getD_append _ _ _ _ early]
    · rw [getD_eq_default _ _ (by omega), getD_eq_default _ _ (by
        rw [length_append, length_singleton]; omega)]

variable {literals distances : Nat}

include ready

theorem dynCodes_follows (phase : c.s.phase = .dynTable) (idle : c.s.ldStep = 0) (at' : c.pc = .dispatch)
    {left : Nat} {listed : List Nat} (counts : Counts c.s literals distances)
    (all : c.s.hclen = (listed.length + (left + 1) : Nat)) (few : listed.length + (left + 1) ≤ 19)
    (read : c.s.clcodesRead = listed.length) (unbuilt : c.s.clcodeBuilt = false)
    (lengths : c.s.clLengths = inOrder listed) (pending : c.s.clPendingSym = -1)
    (empty : c.s.lengthsHave = 0) (size : c.s.lengths.length = 320)
    (rests : Rests c.s e (dynamicRest c.s.bfinal literals distances (left + 1) listed)
      (headerNext e.out)) (heavy : 32 * c.s.bits.stream.length < weight) :
    Follows origin prior committed weight frame d (needing 3 c fun c => getting 3 c fun v c =>
        .on { c with s := { c.s with
          clLengths := c.s.clLengths.set (rinfClcOrder.getD c.s.clcodesRead 0) v
          clcodesRead := c.s.clcodesRead + 1 } }) := by
  replace rests := rests.congr fun bits => andThen_assoc _ _ _ bits
  apply ready.needing rests (n := 3)
  · intro short
    rw [andThen, number_short short]
  · exact fun other same => .dynamic phase idle (.codes literals distances (left + 1) listed
      ⟨counts.hlit, counts.hdist, counts.few, counts.fewToo⟩ all few read unbuilt lengths pending
      empty size ((rests.again same).congr fun bits => (andThen_assoc _ _ _ bits).symm))
  intro bits₁ ready₁ rests₁ there₁ same₁
  apply ready₁.getting rests₁ there₁
  intro v bits₂ _ ready₂ rests₂ left₂ length₂
  dsimp only [Call.setBits] at length₂
  rw [same₁] at length₂
  have longer : (listed ++ [v]).length = listed.length + 1 := by rw [length_append, length_singleton]
  refine Ready.dispatches { ready₂ with core := { ready₂.core with } } at'
    (.dynamic phase idle (.codes literals distances left (listed ++ [v])
      ⟨counts.hlit, counts.hdist, counts.few, counts.fewToo⟩ ?_ (by omega) ?_ unbuilt ?_ pending
      empty size rests₂)) ?_
  · show c.s.hclen = ((listed ++ [v]).length + left : Nat)
    rw [all, longer]
    omega
  · show c.s.clcodesRead + 1 = (listed ++ [v]).length
    rw [read, longer]
  · show c.s.clLengths.set (rinfClcOrder.getD c.s.clcodesRead 0) v = inOrder (listed ++ [v])
    rw [lengths, read, inOrder_snoc listed v (by omega)]
  · show 32 * bits₂.stream.length + 15 < weight
    omega

theorem dynCodeTable_follows (phase : c.s.phase = .dynTable) (idle : c.s.ldStep = 0) (at' : c.pc = .dispatch)
    {listed : List Nat} (counts : Counts c.s literals distances)
    (all : c.s.hclen = (listed.length + 0 : Nat)) (read : c.s.clcodesRead = listed.length)
    (lengths : c.s.clLengths = inOrder listed) (pending : c.s.clPendingSym = -1)
    (empty : c.s.lengthsHave = 0) (size : c.s.lengths.length = 320)
    (rests : Rests c.s e (dynamicRest c.s.bfinal literals distances 0 listed) (headerNext e.out))
    (less : 32 * c.s.bits.stream.length + 13 < weight) :
    Follows origin prior committed weight frame d (if (rinfBuild c.s.clcode c.s.clLengths).1 then
        .on { c with s := { c.s with
          clcode := (rinfBuild c.s.clcode c.s.clLengths).2, clcodeBuilt := true } }
      else fail { c with s := { c.s with
        clcode := (rinfBuild c.s.clcode c.s.clLengths).2 } }) := by
  obtain ⟨made, built⟩ := rinfBuild_spec c.s.clcode c.s.clLengths
  rw [lengths] at made built
  replace rests : Rests c.s e (if makesCode (inOrder listed) then
      done (.lengths literals distances (inOrder listed) [] c.s.bfinal) else never)
      (headerNext e.out) := rests
  rw [lengths, made]
  by_cases right : makesCode (inOrder listed) = true
  · rw [if_pos right]
    rw [if_pos right] at rests
    have moves := rests.moves rfl
    refine Ready.dispatch (ready.leads moves nofun { ready.core with } ready.kept) at'
      (.dynamic phase idle (.lengths literals distances (inOrder listed) []
        ⟨⟨counts.hlit, counts.hdist, counts.few, counts.fewToo⟩, ?_, rfl, built right, empty, rfl,
          size, Nat.zero_le _⟩ pending rfl rfl)) ?_
    · show c.s.hclen ≤ c.s.clcodesRead
      rw [all, read]
      omega
    · show 32 * c.s.bits.stream.length + Phase.rank true c.s.phase < weight
      rw [phase]
      exact less
  · rw [if_neg right]
    rw [if_neg right] at rests
    exact Ready.fail (c := { c with s := { c.s with clcode := _ } })
      { ready with core := { ready.core with } } (rests.wrong rfl)

omit ready

theorem storeLengths_take (val n : Nat) : ∀ (have' : Nat) (lengths : List Nat), have' + n ≤ lengths.length →
      (storeLengths val n have' lengths).length = lengths.length ∧
      (storeLengths val n have' lengths).take (have' + n) = lengths.take have' ++ replicate n val := by
  induction n with
  | zero =>
    intro have' lengths _
    simp [storeLengths]
  | succ n ih =>
    intro have' lengths room
    obtain ⟨length, front⟩ := ih (have' + 1) (lengths.set have' val) (by
      rw [length_set]
      omega)
    have next : have' + 1 + n = have' + (n + 1) := by omega
    rw [next] at front
    have inside : have' < (lengths.set have' val).length := by
      rw [length_set]
      omega
    have first : (lengths.set have' val).take (have' + 1) = lengths.take have' ++ [val] := by
      rw [take_succ_eq_append_getElem inside, take_set_of_le (Nat.le_refl _), getElem_set_self]
    refine ⟨?_, ?_⟩
    · rw [storeLengths, length, length_set]
    · rw [storeLengths, front, first, List.append_assoc, replicate_succ]
      rfl

variable {code known : List Nat}

include ready

theorem dynRepeat_follows
    (phase : c.s.phase = .dynTable) (idle : c.s.ldStep = 0) (at' : c.pc = .dispatch) {val times : Nat}
    (facts : Known c.s literals distances code known) (rests : Rests c.s e (done (replicate times val))
      (lengthsNext literals distances code known c.s.bfinal e.out))
    (light : 32 * c.s.bits.stream.length + 15 < weight) :
    Follows origin prior committed weight frame d (dynRepeat val times c) := by
  have hlit := facts.hlit
  have hdist := facts.hdist
  have count := facts.count
  have few := facts.few
  have fewToo := facts.fewToo
  have limit : c.s.hlit + c.s.hdist < Int.ofNat (c.s.lengthsHave + times) ↔
      literals + distances < known.length + times := by
    rw [hlit, hdist, count, Int.ofNat_eq_natCast]
    omega
  unfold dynRepeat
  by_cases many : literals + distances < known.length + times
  · rw [if_pos (limit.mpr many)]
    refine Ready.fail (c := { c with s := { c.s with clPendingSym := -1 } })
      { ready with core := { ready.core with } } (rests.refused ?_)
    rw [lengthsNext, length_replicate, if_pos many]
  · rw [if_neg fun past => many (limit.mp past)]
    have added : lengthsNext literals distances code known c.s.bfinal e.out
        (replicate times val) = some (.lengths literals distances code
          (known ++ replicate times val) c.s.bfinal, e.out) := by
      rw [lengthsNext, length_replicate, if_neg many]
    have moves := rests.moves added
    obtain ⟨length, front⟩ := storeLengths_take val times c.s.lengthsHave c.s.lengths (by
      rw [facts.size, count]
      omega)
    have longer : (known ++ replicate times val).length = known.length + times := by
      rw [length_append, length_replicate]
    refine Ready.dispatches (ready.leads moves nofun { ready.core with } ready.kept) at'
      (.dynamic phase idle (.lengths literals distances code (known ++ replicate times val)
        ⟨⟨hlit, hdist, few, fewToo⟩, facts.listed, facts.isBuilt, facts.table, ?_, ?_,
          length.trans facts.size, ?_⟩ rfl rfl rfl)) light
    · show c.s.lengthsHave + times = _
      rw [longer, count]
    · show (storeLengths val times c.s.lengthsHave c.s.lengths).take _ = _
      rw [longer, ← count, front, count, facts.front]
    · rw [longer]
      omega

omit ready

theorem Known.last (facts : Known s literals distances code known) (some : known ≠ []) :
    s.lengths.getD (s.lengthsHave - 1) 0 = known.getLastD 0 := by
  have positive : 0 < known.length := length_pos_iff.mpr some
  have inside : known.length - 1 < s.lengths.length := by
    have longer := congrArg List.length facts.front
    rw [length_take] at longer
    omega
  have listed : known.getLastD 0 = known[known.length - 1] := by
    rw [getLastD_eq_getLast?, getLast?_eq_getElem?, getElem?_eq_getElem (by omega),
      Option.getD_some]
  have same : known[known.length - 1] = s.lengths[known.length - 1] := by
    have here := congrArg (fun list => list[known.length - 1]?) facts.front
    simp only [getElem?_take, getElem?_eq_getElem inside,
      getElem?_eq_getElem (by omega : known.length - 1 < known.length)] at here
    rw [if_pos (by omega)] at here
    exact (Option.some.inj here).symm
  rw [facts.count, getD_eq_getElem _ _ inside, listed, same]

theorem Known.waits {sym : Nat}
    (facts : Known c.s literals distances code known) (phase : c.s.phase = .dynTable)
    (idle : c.s.ldStep = 0) (repeats : 16 ≤ sym) (more : known.length < literals + distances)
    (rests : Rests c.s e (lengthRun known sym)
      (lengthsNext literals distances code known c.s.bfinal e.out)) (bits : Bits)
    (same : bits.stream = c.s.bits.stream) :
    Place { c.s with bits := bits, clPendingSym := sym } e :=
  .dynamic phase idle (.run literals distances code known sym
    ⟨⟨facts.hlit, facts.hdist, facts.few, facts.fewToo⟩, facts.listed, facts.isBuilt, facts.table,
      facts.count, facts.front, facts.size, facts.within⟩ rfl repeats more (rests.again same))

include ready

theorem dynSymbol_follows
    (phase : c.s.phase = .dynTable) (idle : c.s.ldStep = 0) (at' : c.pc = .dispatch) {sym : Nat}
    (facts : Known c.s literals distances code known) (more : known.length < literals + distances)
    (rests : Rests c.s e (lengthRun known sym) (lengthsNext literals distances code known c.s.bfinal e.out))
    (heavy : 32 * c.s.bits.stream.length < weight)
    (light : sym < 16 → 32 * c.s.bits.stream.length + 15 < weight) :
    Follows origin prior committed weight frame d (dynSymbol sym c) := by
  have few := facts.few
  have fewToo := facts.fewToo
  have count := facts.count
  unfold dynSymbol
  by_cases single : sym < 16
  · rw [if_pos single]
    rw [lengthRun, if_pos single] at rests
    have added : lengthsNext literals distances code known c.s.bfinal e.out [sym] =
        some (.lengths literals distances code (known ++ [sym]) c.s.bfinal, e.out) := by
      rw [lengthsNext, length_singleton, if_neg (by omega)]
    have moves := rests.moves added
    have longer : (known ++ [sym]).length = known.length + 1 := by rw [length_append, length_singleton]
    have inside : known.length < c.s.lengths.length := by
      rw [facts.size]
      omega
    refine Ready.dispatches (ready.leads moves nofun { ready.core with } ready.kept) at'
      (.dynamic phase idle (.lengths literals distances code (known ++ [sym])
        ⟨⟨facts.hlit, facts.hdist, few, fewToo⟩, facts.listed, facts.isBuilt, facts.table, ?_, ?_,
          ?_, ?_⟩ rfl rfl rfl)) (light single)
    · show c.s.lengthsHave + 1 = (known ++ [sym]).length
      rw [longer, count]
    · show (c.s.lengths.set c.s.lengthsHave sym).take (known ++ [sym]).length = known ++ [sym]
      rw [longer, count, take_succ_eq_append_getElem (by rw [length_set]; exact inside),
        take_set_of_le (Nat.le_refl _), getElem_set_self, facts.front]
    · show (c.s.lengths.set c.s.lengthsHave sym).length = 320
      rw [length_set, facts.size]
    · omega
  rw [if_neg single]
  have waits := facts.waits phase idle (by omega : 16 ≤ sym) more rests
  have pending : Ready origin prior committed frame d { c with s := { c.s with clPendingSym := sym } } e :=
    { ready with core := { ready.core with } }
  have again : Known { c.s with clPendingSym := sym } literals distances code known :=
    ⟨⟨facts.hlit, facts.hdist, few, fewToo⟩, facts.listed, facts.isBuilt, facts.table, count,
      facts.front, facts.size, facts.within⟩
  -- The count of each kind of run is read by its own number of bits.
  have counted : ∀ (width base val : Nat) (pick : Call → Nat), 0 < width →
      (∀ bits other, pick (Call.setBits (Call.setBits { c with s := { c.s with
        clPendingSym := sym } } bits) other) = val) →
      Rests c.s e ((number width).andThen fun more => done (replicate (base + more) val))
        (lengthsNext literals distances code known c.s.bfinal e.out) →
      Follows origin prior committed weight frame d
        (needing width { c with s := { c.s with clPendingSym := sym } } fun c =>
          getting width c fun v c => dynRepeat (pick c) (base + v) c) := by
    intro width base val pick wide picked rests
    apply Ready.needing (n := width) pending rests
    · intro short
      rw [andThen, number_short short]
    · exact fun other same => waits other same
    intro bits₁ ready₁ rests₁ there₁ same₁
    apply ready₁.getting rests₁ there₁
    intro v bits₂ _ ready₂ rests₂ left₂ length₂
    dsimp only [Call.setBits] at length₂
    rw [same₁] at length₂
    rw [picked bits₁ bits₂]
    refine dynRepeat_follows ready₂ phase idle at'
      ⟨⟨facts.hlit, facts.hdist, few, fewToo⟩, facts.listed, facts.isBuilt, facts.table, count,
        facts.front, facts.size, facts.within⟩ rests₂ ?_
    show 32 * bits₂.stream.length + 15 < weight
    dsimp only at length₂
    omega
  rw [lengthRun, if_neg single] at rests
  dsimp only
  by_cases last : sym = 16
  · rw [if_pos last]
    rw [if_pos last] at rests
    by_cases empty : c.s.lengthsHave = 0
    · rw [if_pos empty]
      rw [if_pos (length_eq_zero_iff.mp (count.symm.trans empty))] at rests
      exact pending.fail (rests.wrong rfl)
    · rw [if_neg empty]
      have some : known ≠ [] := by
        intro none
        rw [none] at count
        exact empty count
      rw [if_neg some] at rests
      exact counted 2 3 _ (fun c => c.s.lengths.getD (c.s.lengthsHave - 1) 0) (by decide)
        (fun _ _ => facts.last some) rests
  rw [if_neg last]
  rw [if_neg last] at rests
  by_cases zeros : sym = 17
  · rw [if_pos zeros]
    rw [if_pos zeros] at rests
    exact counted 3 3 0 (fun _ => 0) (by decide) (fun _ _ => rfl) rests
  · rw [if_neg zeros]
    rw [if_neg zeros] at rests
    exact counted 7 11 0 (fun _ => 0) (by decide) (fun _ _ => rfl) rests

omit ready

theorem lengths_rests {final : Bool} (stage : e.stage = .lengths literals distances code known final)
    (bits : e.bits = s.bits.stream) (more : known.length < literals + distances) :
    Rests s e ((CanonicalCode.read code maxBits).andThen (lengthRun known))
      (lengthsNext literals distances code known final e.out) := by
  intro bytes
  unfold Decoder.step Decoder.more
  rw [stage, bits]
  dsimp only
  rw [if_pos more]
  rfl

include ready

theorem dynLength_follows (phase : c.s.phase = .dynTable) (idle : c.s.ldStep = 0) (at' : c.pc = .dispatch)
 (facts : Known c.s literals distances code known) (more : known.length < literals + distances)
    (pending : c.s.clPendingSym = -1)
    (stage : e.stage = .lengths literals distances code known c.s.bfinal)
    (bits : e.bits = c.s.bits.stream)
    (heavy : 32 * c.s.bits.stream.length < weight) :
    Follows origin prior committed weight frame d (match (rinfDecode c.s.clcode c.s.bits).1 with
      | .short => suspend (c.setBits (rinfDecode c.s.clcode c.s.bits).2)
      | .invalid => fail (c.setBits (rinfDecode c.s.clcode c.s.bits).2)
      | .sym sym => dynSymbol sym (c.setBits (rinfDecode c.s.clcode c.s.bits).2)) := by
  obtain ⟨k, input⟩ := ready.core.input
  have rests := lengths_rests stage bits more
  have decoded := input.decode facts.table
  generalize (rinfDecode c.s.clcode c.s.bits).2 = after at decoded
  cases found : (rinfDecode c.s.clcode c.s.bits).1 with
  | short =>
    rw [found] at decoded
    obtain ⟨read, exhausted, short⟩ := decoded
    refine (ready.setBits read).suspend ?_ (rests.short (by rw [andThen, short])) exhausted
    exact .dynamic phase idle (.lengths literals distances code known
      ⟨⟨facts.hlit, facts.hdist, facts.few, facts.fewToo⟩, facts.listed, facts.isBuilt,
        facts.table, facts.count, facts.front, facts.size, facts.within⟩ pending stage
      (by rw [bits, input.stream]; exact read.stream.symm))
  | invalid =>
    rw [found] at decoded
    obtain ⟨read, wrong⟩ := decoded
    exact (ready.setBits read).fail (rests.wrong (by rw [andThen, wrong]))
  | sym sym =>
    rw [found] at decoded
    obtain ⟨n, some, read, symbol⟩ := decoded
    have before := input.length
    have length := read.length
    refine dynSymbol_follows (ready.setBits read) phase idle at'
      ⟨⟨facts.hlit, facts.hdist, facts.few, facts.fewToo⟩, facts.listed, facts.isBuilt,
        facts.table, facts.count, facts.front, facts.size, facts.within⟩ more
      (rests.symbol (c.setBits after).s symbol) ?_ fun _ => ?_
    · show 32 * after.stream.length < weight
      omega
    · show 32 * after.stream.length + 15 < weight
      omega

theorem dynBuild_follows (idle : c.s.ldStep = 0) (at' : c.pc = .dispatch)
 (facts : Known c.s literals distances code known) (whole : ¬known.length < literals + distances)
    (stage : e.stage = .lengths literals distances code known c.s.bfinal)
    (bits : e.bits = c.s.bits.stream)
    (less : 32 * c.s.bits.stream.length + 12 < weight) :
    Follows origin prior committed weight frame d (dynBuild c) := by
  have within := facts.within
  have count : known.length = literals + distances := by omega
  have lit : c.s.lengths.take c.s.hlit.toNat = known.take literals := by
    have front := congrArg (take literals) facts.front
    rw [take_take, Nat.min_eq_left (by omega)] at front
    rw [facts.hlit, Int.toNat_natCast, front]
  have dist : (c.s.lengths.drop c.s.hlit.toNat).take c.s.hdist.toNat =
      (known.drop literals).take distances := by
    have front := congrArg (fun list => (list.drop literals).take distances) facts.front
    simp only [drop_take, take_take] at front
    rw [Nat.min_eq_left (by omega)] at front
    rw [facts.hlit, facts.hdist, Int.toNat_natCast, Int.toNat_natCast, front]
  have step : e.step = if makesCode (known.take literals) ∧
      makesCode ((known.drop literals).take distances) then
        .next ⟨.symbols (known.take literals) ((known.drop literals).take distances) c.s.bfinal,
          e.out, e.bits⟩
      else .wrong := by
    unfold Decoder.step
    rw [stage]
    dsimp only
    rw [if_neg whole]
  obtain ⟨litMade, litBuilt⟩ := rinfBuild_spec c.s.lencode (known.take literals)
  obtain ⟨distMade, distBuilt⟩ := rinfBuild_spec c.s.distcode ((known.drop literals).take distances)
  unfold dynBuild
  dsimp only
  rw [lit, dist, litMade, distMade]
  by_cases litRight : makesCode (known.take literals) = true
  · by_cases distRight : makesCode ((known.drop literals).take distances) = true
    · rw [if_pos ⟨litRight, distRight⟩] at step
      rw [if_pos litRight, if_pos distRight]
      have tables := packed_tables (litBuilt litRight) (distBuilt distRight)
      refine Ready.dispatch (ready.leads step nofun ?_ ready.kept) at'
        (.symbols rfl _ _ tables (.symbol rfl idle ?_)) less
      · exact { ready.core with fixed := nofun }
      · intro bytes
        show Decoder.step ⟨_, _, e.bits ++ _⟩ = _
        rw [bits]
        rfl
    · rw [if_neg fun both => distRight both.2] at step
      rw [if_pos litRight, if_neg distRight]
      exact Ready.fail (e := e) { ready with core := { ready.core with fixed := nofun } } step
  · rw [if_neg fun both => litRight both.1] at step
    rw [if_neg litRight]
    exact Ready.fail (e := e) { ready with core := { ready.core with fixed := nofun } } step

/-- A pass through a dynamic block's header does what the format does. -/
theorem dynTable_follows (phase : c.s.phase = .dynTable) (idle : c.s.ldStep = 0) (at' : c.pc = .dispatch)
    (place : Dynamic c.s e)
    (less : 32 * c.s.bits.stream.length + Phase.rank c.s.clcodeBuilt .dynTable ≤ weight) :
    Follows origin prior committed weight frame d (dynTable c) := by
  have rank : 13 ≤ Phase.rank c.s.clcodeBuilt .dynTable := by
    cases c.s.clcodeBuilt <;> decide
  unfold dynTable
  cases place with
  | counts unread rest empty =>
    rw [if_pos (by omega)]
    exact dynCounts_follows ready phase idle at' unread empty rest (by omega)
  | codes literals distances left listed counts all few read unbuilt lengths pending empty size rest =>
    have hlit := counts.hlit
    rw [if_neg (by omega)]
    rw [unbuilt] at less
    replace less : 32 * c.s.bits.stream.length + 14 ≤ weight := less
    cases left with
    | zero =>
      rw [if_neg (by omega), if_pos (by rw [unbuilt]; decide)]
      exact dynCodeTable_follows ready phase idle at' counts all read lengths pending empty size
        rest (by omega)
    | succ left =>
      rw [if_pos (by omega)]
      exact dynCodes_follows ready phase idle at' counts all few read unbuilt lengths pending empty
        size rest (by omega)
  | lengths literals distances code known facts pending stage bits =>
    have hlit := facts.hlit
    have hdist := facts.hdist
    have listed := facts.listed
    have count := facts.count
    rw [if_neg (by omega), if_neg (by omega), if_neg (by rw [facts.isBuilt]; decide)]
    by_cases more : known.length < literals + distances
    · rw [if_pos (by omega), if_pos (by omega)]
      exact dynLength_follows ready phase idle at' facts more pending stage bits (by omega)
    · rw [if_neg (by omega)]
      exact dynBuild_follows ready idle at' facts more stage bits (by omega)
  | run literals distances code known sym facts pending repeats more rest =>
    have hlit := facts.hlit
    have hdist := facts.hdist
    have listed := facts.listed
    have count := facts.count
    rw [if_neg (by omega), if_neg (by omega), if_neg (by rw [facts.isBuilt]; decide),
      if_pos (by omega), if_neg (by omega), pending, Int.toNat_natCast]
    exact dynSymbol_follows ready phase idle at' facts more rest (by omega) fun single => by omega

end Libretro.Inflate
