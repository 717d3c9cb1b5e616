import Libretro.Formats.RxmlParse

/-! Every step of the parse reads something or returns, and steps come to what one call does. -/

namespace Libretro.Rxml

open List Parser Nat

/-- Every link goes to an element that was allocated later. -/
def Document.Forward (doc : Document) : Prop :=
  ∀ (i : Nat) (n : Node), doc.nodes[i]? = some n →
    (∀ child, n.children = some child → i < child) ∧ (∀ next, n.next = some next → i < next)

/-- A change of the parser that keeps the length of the text, the order of links and the cursor in. -/
structure Parser.Keeps (ps after : Parser) : Prop where
  size : after.doc.buf.length = ps.doc.buf.length
  forward : ps.doc.Forward → after.doc.Forward
  within : ps.p ≤ ps.doc.buf.length → after.p ≤ after.doc.buf.length

/-- A change that moves the cursor forward by some bytes at least. -/
structure Parser.Advances (least : Nat) (ps after : Parser) : Prop extends ps.Keeps after where
  shrinks : after.rest.length + least ≤ ps.rest.length

/-- A step that reads some bytes at least when it goes on, and does not pause. -/
structure Steps (least : Nat) (ps : Parser) (result : Parser × Next) : Prop where
  keeps : ps.Keeps result.1
  shrinks : ∀ point, result.2 = .goes point → result.1.rest.length + least ≤ ps.rest.length
  unpaused : result.2 ≠ .returns .paused

section Changes

variable {ps mid after : Parser} {least more : Nat} {result : Parser × Next}

theorem Parser.Keeps.trans (first : ps.Keeps mid) (second : mid.Keeps after) : ps.Keeps after :=
  ⟨second.size.trans first.size, fun h => second.forward (first.forward h),
    fun h => second.within (first.within h)⟩

theorem Parser.Advances.trans (first : ps.Advances least mid) (second : mid.Advances more after) :
    ps.Advances (least + more) after := by
  refine ⟨first.toKeeps.trans second.toKeeps, ?_⟩
  have := first.shrinks
  have := second.shrinks
  omega

theorem Parser.Advances.steps (first : ps.Advances least mid) (second : Steps more mid result) :
    Steps (least + more) ps result := by
  refine ⟨first.toKeeps.trans second.keeps, fun point e => ?_, second.unpaused⟩
  have := first.shrinks
  have := second.shrinks point e
  omega

theorem Steps.weaken (steps : Steps more ps result) (enough : least ≤ more) : Steps least ps result :=
  ⟨steps.keeps, fun point e => by have := steps.shrinks point e; omega, steps.unpaused⟩

theorem Parser.Advances.goes (first : ps.Advances least mid) (point : Point) :
    Steps least ps (mid, .goes point) :=
  ⟨first.toKeeps, fun _ _ => first.shrinks, nofun⟩

theorem Parser.Keeps.returns {answer : Result} (first : ps.Keeps mid) (final : answer ≠ .paused) :
    Steps least ps (mid, .returns answer) :=
  ⟨first, nofun, fun e => final (Next.returns.inj e)⟩

theorem Parser.Advances.still (cursor : after.p = ps.p) (size : after.doc.buf.length = ps.doc.buf.length)
    (forward : ps.doc.Forward → after.doc.Forward) : ps.Advances 0 after := by
  refine ⟨⟨size, forward, fun h => by omega⟩, ?_⟩
  simp only [Parser.rest, length_drop]
  omega

theorem Parser.Advances.leaving (first : ps.Advances least mid) (cursor : after.p = mid.p)
    (size : after.doc.buf.length = mid.doc.buf.length)
    (forward : mid.doc.Forward → after.doc.Forward) : ps.Advances least after :=
  first.trans (.still cursor size forward)

theorem Parser.Advances.refl : ps.Advances 0 ps := .still rfl rfl id

end Changes

section Cursor

variable {ps : Parser} {rest : List UInt8} {least : Nat}

theorem Parser.seek_keeps : ps.Keeps (ps.seek rest) := ⟨rfl, id, fun _ => sub_le _ _⟩

theorem Parser.seek_advances (shorter : rest.length + least ≤ ps.rest.length) :
    ps.Advances least (ps.seek rest) := by
  refine ⟨seek_keeps, ?_⟩
  simp only [Parser.rest, Parser.seek, length_drop] at shorter ⊢
  omega

theorem Code.result_ne (code : Code) : code.result ≠ .paused := by
  cases code <;> nofun

theorem Parser.seek_rest_le (ps : Parser) (rest : List UInt8) : (ps.seek rest).rest.length ≤ rest.length := by
  simp only [Parser.rest, Parser.seek, length_drop]
  omega

theorem Parser.seek_rest_length (shorter : rest.length ≤ ps.doc.buf.length) :
    (ps.seek rest).rest.length = rest.length := by
  simp only [Parser.rest, Parser.seek, length_drop]
  omega

theorem Parser.Keeps.seek {mid : Parser} (first : ps.Keeps mid)
    (shorter : rest.length + least ≤ ps.rest.length) : ps.Advances least (mid.seek rest) := by
  refine ⟨first.trans seek_keeps, ?_⟩
  have := mid.seek_rest_le rest
  omega

theorem Parser.halts_steps {halt : Halt} : Steps least ps (ps.halts halt) :=
  seek_keeps.returns (Code.result_ne _)

theorem Parser.goesOn_steps {point : Point} {scan : Scan (List UInt8)}
    (shorter : ∀ rest, scan = .ok rest → rest.length + least ≤ ps.rest.length) :
    Steps least ps (ps.goesOn point scan) := by
  cases scan with
  | ok rest => exact (seek_advances (shorter rest rfl)).goes point
  | error halt => exact halts_steps

end Cursor

/-- A change of one element that leaves its links alone keeps the order of links. -/
theorem Document.Forward.modify {doc : Document} (forward : doc.Forward) {i : Nat} {f : Node → Node}
    (links : i < doc.nodes.length → ∀ n,
      (∀ child, (f n).children = some child → n.children = some child ∨ i < child) ∧
      (∀ next, (f n).next = some next → n.next = some next ∨ i < next)) :
    (doc.modifyNode i f).Forward := by
  intro j n found
  simp only [Document.modifyNode, getElem?_modify] at found
  obtain ⟨old, oldFound, rfl⟩ := Option.map_eq_some_iff.1 found
  have kept := forward j old oldFound
  by_cases same : i = j
  · -- A link that is new goes past the element.
    subst same
    rw [if_pos rfl]
    have links := links (List.getElem?_eq_some_iff.1 oldFound).1
    refine ⟨fun child e => ?_, fun next e => ?_⟩
    · rcases (links old).1 child e with e | later
      · exact kept.1 child e
      · exact later
    · rcases (links old).2 next e with e | later
      · exact kept.2 next e
      · exact later
  · rw [if_neg same]
    exact kept

theorem Document.Forward.congr {doc after : Document} (forward : doc.Forward)
    (same : after.nodes = doc.nodes) : after.Forward := by
  intro i n found
  rw [same] at found
  exact forward i n found

theorem Document.Forward.append {doc : Document} (forward : doc.Forward) {node : Node}
    (childless : node.children = none) (last : node.next = none) :
    Document.Forward { doc with nodes := doc.nodes ++ [node] } := by
  intro i n found
  rw [getElem?_append] at found
  split at found
  · exact forward i n found
  · obtain rfl := mem_singleton.1 (mem_of_getElem? found)
    rw [childless, last]
    exact ⟨nofun, nofun⟩

section Building

variable {ps : Parser}

@[simp] theorem accPromote_doc : (accPromote ps).doc = ps.doc := by
  rw [accPromote]
  split <;> rfl

@[simp] theorem accPromote_p : (accPromote ps).p = ps.p := by
  rw [accPromote]
  split <;> rfl

theorem accSpan_advances (bytes : List UInt8) : ps.Advances 0 (accSpan ps bytes) :=
  .still (by simp [accSpan]) (by simp [accSpan]) fun h => h.congr (by simp [accSpan])

theorem keep_advances (run : List UInt8) : ps.Advances 0 (ps.keep run) := by
  rw [keep]
  split
  · exact .refl
  · exact accSpan_advances run

theorem deferRun_advances (run : List UInt8) : ps.Advances 0 (ps.deferRun run) := by
  rw [deferRun]
  split_ifs
  · exact .refl
  · exact accSpan_advances run
  · exact .still rfl rfl id

theorem flushMixed_advances (owner : Option Nat) : ps.Advances 0 (flushMixed ps owner) := by
  cases owner with
  | none => exact .still rfl rfl id
  | some i => exact .still rfl rfl fun h => h.modify fun _ _ => ⟨fun _ e => .inl e, fun _ e => .inl e⟩

theorem Document.Forward.terminate {doc : Document} (forward : doc.Forward) (run : Span) :
    (doc.terminate run).Forward :=
  forward.congr rfl

theorem storeData_advances : ps.Advances 0 (storeData ps) := by
  rw [storeData]
  split
  · exact .still rfl rfl id
  · split
    · exact .still rfl (length_set ..) fun h =>
        (h.terminate _).modify fun _ _ => ⟨fun _ e => .inl e, fun _ e => .inl e⟩
    · exact .still rfl rfl fun h => h.modify fun _ _ => ⟨fun _ e => .inl e, fun _ e => .inl e⟩

theorem growFrames_advances : ps.Advances 0 (growFrames ps) := by
  rw [growFrames]
  split <;> exact .still rfl rfl id

theorem linkNode_advances : ps.Advances 0 (linkNode ps ps.doc.nodes.length) := by
  rw [linkNode]
  split
  · exact .still rfl rfl fun h => h.congr rfl
  · split
    · exact .still rfl rfl fun h => h.modify fun inside _ =>
        ⟨fun _ e => .inr (Option.some.inj e ▸ inside), fun _ e => .inl e⟩
    · exact .still rfl rfl fun h => h.modify fun inside _ =>
        ⟨fun _ e => .inl e, fun _ e => .inr (Option.some.inj e ▸ inside)⟩

theorem allocate_advances {node : Node} (childless : node.children = none)
    (last : node.next = none) : ps.Advances 0 (allocate ps node) :=
  linkNode_advances.leaving rfl rfl fun h => h.append childless last

theorem textBefore_advances : ps.Advances 0 (textBefore ps) := by
  rw [textBefore]
  split_ifs
  · exact .still rfl rfl id
  · exact flushMixed_advances _
  · exact .refl

theorem onElemstart_advances (name : Span) : ps.Advances 0 (onElemstart ps name) :=
  ((growFrames_advances.trans (allocate_advances rfl rfl)).trans textBefore_advances).leaving
    rfl rfl id

theorem textAtEnd_advances : ps.Advances 0 (textAtEnd ps) := by
  rw [textAtEnd]
  split_ifs
  · exact storeData_advances
  · exact .still rfl rfl id
  · exact flushMixed_advances _
  · exact .refl

theorem onElemend_advances : ps.Advances 0 (onElemend ps) := by
  have closed : ps.Advances 0 { ps with level := ps.level - 1 } := .still rfl rfl id
  have stored := closed.trans textAtEnd_advances
  simp only [onElemend]
  split
  · exact stored.leaving rfl rfl id
  · exact stored

theorem onAttrstart_advances (name : Span) : ps.Advances 0 (onAttrstart ps name) := by
  rw [onAttrstart]
  split
  · exact .still rfl rfl id
  · split <;>
      exact .still rfl rfl fun h => h.modify fun _ _ => ⟨fun _ e => .inl e, fun _ e => .inl e⟩

theorem setValue_buf (doc : Document) (value : Text) : (ps.setValue doc value).buf = doc.buf := by
  rw [setValue]
  split <;> rfl

theorem setValue_forward {doc : Document} (value : Text) (forward : doc.Forward) :
    (ps.setValue doc value).Forward := by
  rw [setValue]
  split
  · exact forward.modify fun _ _ => ⟨fun _ e => .inl e, fun _ e => .inl e⟩
  · exact forward

theorem onAttrend_advances : ps.Advances 0 (onAttrend ps) := by
  rw [onAttrend]
  split
  · split
    · exact .still rfl rfl id
    · refine .still rfl ?_ fun h => setValue_forward _ (h.terminate _)
      rw [setValue_buf]
      exact length_set ..
  · split
    · exact .refl
    · exact .still rfl (congrArg List.length (setValue_buf _ _)) (setValue_forward _)

end Building

section Values

variable {ps : Parser}

theorem skipLf_length (text : List UInt8) : (skipLf text).length ≤ text.length := by
  rw [skipLf.eq_def]
  split <;> simp

/-- A scan that writes to the accumulator and leaves no more than a text when it is complete. -/
structure Fills (ps : Parser) (text : List UInt8) (result : Parser × Except Code Unit) : Prop where
  keeps : ps.Keeps result.1
  shrinks : result.2 = .ok () → result.1.rest.length ≤ text.length

theorem Fills.seek {mid : Parser} {text rest : List UInt8} {answer : Except Code Unit}
    (kept : ps.Keeps mid) (shorter : rest.length ≤ text.length) :
    Fills ps text (mid.seek rest, answer) :=
  ⟨kept.trans seek_keeps, fun _ => Nat.le_trans (seek_rest_le _ rest) shorter⟩

theorem Fills.after {mid : Parser} {text rest : List UInt8} {result : Parser × Except Code Unit}
    (fills : Fills mid rest result) (kept : ps.Keeps mid) (shorter : rest.length ≤ text.length) :
    Fills ps text result :=
  ⟨kept.trans fills.keeps, fun e => Nat.le_trans (fills.shrinks e) shorter⟩

theorem Parser.Keeps.refl : ps.Keeps ps := Parser.Advances.refl.toKeeps

theorem scanCdata_fills (run text : List UInt8) : Fills ps text (scanCdata ps run text) := by
  fun_induction scanCdata ps run text with
  | case1 => exact .seek .refl (Nat.le_refl _)
  | case2 => exact .seek (keep_advances _).toKeeps (by simp; omega)
  | case3 _ _ _ _ _ ih => exact ih.after .refl (by simp)
  | case4 => exact .seek .refl (Nat.le_refl _)
  | case5 => exact .seek ((keep_advances _).trans (accSpan_advances _)).toKeeps (by simp)
  | case6 _ _ _ _ _ ih =>
    exact ih.after ((keep_advances _).trans (accSpan_advances _)).toKeeps (by simp; omega)
  | case7 _ _ _ _ _ _ _ ih => exact ih.after ((keep_advances _).trans (accSpan_advances _)).toKeeps (by simp)
  | case8 _ _ _ _ _ _ _ ih => exact ih.after .refl (by simp)
  | case9 => exact .seek .refl (Nat.le_refl _)

theorem valueLoop_fills (quote : UInt8) (n : Nat) (run text : List UInt8) :
    Fills ps text (valueLoop quote n ps run text) := by
  induction n generalizing ps run text with
  | zero => exact .seek (keep_advances _).toKeeps (Nat.le_refl _)
  | succ n ih =>
    have kept : ps.Keeps (ps.keep run) := (keep_advances run).toKeeps
    simp only [valueLoop]
    split_ifs with plain closing ended bracket reference carriage
    · exact (ih _ _).after .refl (by simp)
    · exact .seek kept (by simp)
    · exact .seek kept (Nat.le_refl _)
    · exact ⟨kept, nofun⟩
    · split
      · exact ⟨kept.trans seek_keeps, nofun⟩
      · rename_i scanned
        have shorter := scanRef_length ended scanned
        exact (ih _ _).after ((kept.trans (accSpan_advances _).toKeeps).trans seek_keeps)
          (Nat.le_of_lt shorter)
    · exact (ih _ _).after (kept.trans (accSpan_advances _).toKeeps)
        (Nat.le_trans (skipLf_length _) (by simp))
    all_goals exact (ih _ _).after (kept.trans (accSpan_advances _).toKeeps) (by simp)

theorem scanAttrvalue_fills (quote : UInt8) : Fills ps ps.rest (scanAttrvalue ps quote) := by
  have plain := dropWhile_length (!stopsValue ·) ps.rest
  simp only [scanAttrvalue]
  split_ifs
  · refine .seek ⟨rfl, id, id⟩ ?_
    simp only [length_tail]
    omega
  · exact (valueLoop_fills ..).after .refl plain

end Values

section Points

variable {ps : Parser}

theorem prologStep_steps : Steps 1 ps (prologStep ps) := by
  have marked : ∀ text, (if peek ps.rest = 0xEF then matchLiteral [0xBB, 0xBF] ps.rest.tail
      else .ok ps.rest) = .ok text → text.length ≤ ps.rest.length := by
    intro text read
    split at read
    · exact Nat.le_trans (matchFrom_length read) (by simp)
    · exact Nat.le_of_eq (congrArg List.length (Except.ok.inj read).symm)
  simp only [prologStep]
  split
  · exact halts_steps
  · rename_i text read
    have shorter := marked text read
    split
    · exact halts_steps
    · rename_i rest scanned
      have less := (scanMisc_length scanned).2 (by rintro ⟨⟩)
      exact (seek_advances (by simp only [Item.rest] at less; omega)).goes _
    · exact seek_keeps.returns (by rintro ⟨⟩)
    · exact seek_keeps.returns (by rintro ⟨⟩)

theorem epilogStep_steps : Steps 1 ps (epilogStep ps) := by
  rw [epilogStep]
  split
  · exact halts_steps
  all_goals exact seek_keeps.returns nofun

variable {text : List UInt8}

theorem drop_nameLength (present : text ≠ []) : (text.drop (nameLength text)).length + 1 ≤ text.length := by
  have := length_pos_of_ne_nil present
  simp only [length_drop, nameLength]
  omega

theorem ne_nil_of_peek_drop {k : Nat} (present : peek (text.drop k) ≠ 0) : text ≠ [] := by
  rintro rfl
  rw [drop_nil] at present
  exact present rfl

theorem elementStep_steps : Steps 1 ps (elementStep ps) := by
  simp only [elementStep]
  split_ifs with _ refused
  · exact seek_keeps.returns nofun
  · exact halts_steps
  · have present : ps.rest ≠ [] := ne_nil_of_peek_drop fun e => refused (by rw [e]; decide)
    refine Parser.Advances.goes ?_ _
    exact ((seek_advances (drop_nameLength present)).trans (onElemstart_advances _)).leaving
      rfl rfl id

theorem closeElement_steps (openLen : Nat) : Steps 0 ps (closeElement ps openLen) := by
  refine Parser.Advances.goes ?_ _
  exact onElemend_advances.leaving rfl rfl id

theorem attributeValue_steps (nameLen : Nat) : Steps 1 ps (attributeValue ps nameLen) := by
  simp only [attributeValue]
  split
  · exact halts_steps
  · rename_i quoted
    have opened : ps.rest.tail.length < ps.rest.length := length_tail_lt fun e => quoted (by rw [e]; decide)
    have moved := ps.seek_rest_le ps.rest.tail
    have filled : Fills (ps.seek ps.rest.tail) _ (scanAttrvalue _ (peek ps.rest)) := scanAttrvalue_fills _
    generalize scanAttrvalue (ps.seek ps.rest.tail) (peek ps.rest) = result at filled ⊢
    obtain ⟨after, _ | _⟩ := result
    · exact (seek_keeps.trans filled.keeps).returns (Code.result_ne _)
    · have read : ps.Advances 1 after := by
        refine ⟨seek_keeps.trans filled.keeps, ?_⟩
        have := filled.shrinks rfl
        simp only at this
        omega
      have ended := read.trans onAttrend_advances
      dsimp only
      split
      · exact (ended.steps halts_steps).weaken (le_add_right _ 0)
      · exact ended.goes _

theorem attributeStep_steps (nameLen : Nat) : Steps 1 ps (attributeStep ps nameLen) := by
  simp only [attributeStep]
  split_ifs with _ refused
  · exact seek_keeps.returns nofun
  · exact halts_steps
  all_goals
    have present : ps.rest ≠ [] := ne_nil_of_peek_drop fun e => refused (by rw [e]; decide)
    have started := (seek_advances (drop_nameLength present)).trans
      (onAttrstart_advances ⟨ps.p, nameLength ps.rest⟩)
  · exact (started.steps halts_steps).weaken (le_add_right 1 0)
  · have skipped := dropWhile_length isSp (ps.rest.drop (nameLength ps.rest))
    have again := dropWhile_length isSp (skipSp (ps.rest.drop (nameLength ps.rest))).tail
    have shorter := drop_nameLength present
    simp only [length_tail, skipSp] at again
    have left : (skipSp (skipSp (ps.rest.drop (nameLength ps.rest))).tail).length + 1 ≤ ps.rest.length := by
      simp only [skipSp]
      omega
    have read := started.toKeeps.seek left
    exact (read.steps (attributeValue_steps nameLen)).weaken (by omega)

theorem attributesStep_steps (nameLen : Nat) : Steps 1 ps (attributesStep ps nameLen) := by
  have skipped := dropWhile_length isSp ps.rest
  have moved : ps.Advances 0 (ps.seek (skipSp ps.rest)) := seek_advances skipped
  simp only [attributesStep]
  split_ifs with closed empty bracket
  · have opened : (skipSp ps.rest).tail.length < (skipSp ps.rest).length :=
      length_tail_lt (by rw [closed]; decide)
    simp only [skipSp] at opened
    exact (moved.toKeeps.seek (by simp only [skipSp]; omega)).goes _
  · exact (moved.steps halts_steps).weaken (le_add_left _ _)
  · have opened : (skipSp ps.rest).tail.length < (skipSp ps.rest).length :=
      length_tail_lt (by rw [empty]; decide)
    simp only [skipSp] at opened
    have left : (skipSp ps.rest).tail.tail.length + 1 ≤ ps.rest.length := by
      simp only [skipSp, length_tail] at opened ⊢
      omega
    have read := moved.toKeeps.seek left
    exact (read.steps (closeElement_steps nameLen)).weaken (by omega)
  · exact (moved.steps halts_steps).weaken (le_add_left _ _)
  · exact (moved.steps (attributeStep_steps nameLen)).weaken (by omega)

theorem matchOpen_length {openName rest : List UInt8}
    (read : matchOpen openName text = .ok rest) : rest.length ≤ text.length := by
  induction openName generalizing text with
  | nil =>
    rw [matchOpen] at read
    split_ifs at read
    obtain rfl := Except.ok.inj read
    exact Nat.le_refl _
  | cons o openName ih =>
    rw [matchOpen] at read
    split_ifs at read
    exact Nat.le_trans (ih read) (by simp)

theorem closingTag_steps (within : text.length ≤ ps.rest.length) : Steps 0 ps (closingTag ps text) := by
  have closes : ∀ rest openLen, rest.length ≤ text.length →
      Steps 0 ps (closeElement (ps.seek rest) openLen) := fun rest openLen shorter =>
    (seek_advances (Nat.le_trans shorter within)).steps (closeElement_steps openLen)
  simp only [closingTag]
  split
  · exact halts_steps
  · split
    · exact seek_keeps.returns nofun
    · exact seek_keeps.returns nofun
    · rename_i rest matched
      have shorter := matchOpen_length matched
      have fed : (if peek rest = 0x0D then skipLf rest.tail else rest.tail).length ≤ rest.length := by
        split
        · exact Nat.le_trans (skipLf_length _) (by simp)
        · simp
      generalize (if peek rest = 0x0D then skipLf rest.tail else rest.tail) = after at fed ⊢
      have spaced := dropWhile_length isSp after
      split_ifs
      · exact closes _ _ (by simp only [length_tail]; omega)
      · exact (seek_keeps.trans onElemend_advances.toKeeps).returns nofun
      · exact seek_keeps.returns nofun
      · exact closes _ _ (by simp only [length_tail, skipSp]; omega)
      · exact closes _ _ (by omega)
      · exact halts_steps

theorem markedSection_steps (within : text.length ≤ ps.rest.length) : Steps 0 ps (markedSection ps text) := by
  rw [markedSection]
  split_ifs
  · refine goesOn_steps fun rest read => ?_
    have shorter := scanComment_length read
    simp only [length_tail] at shorter
    omega
  · split
    · exact halts_steps
    · rename_i rest read
      have shorter := matchFrom_length read
      have filled : Fills ps rest (scanCdata ps [] rest) := scanCdata_fills [] rest
      generalize scanCdata ps [] rest = result at filled ⊢
      obtain ⟨after, _ | _⟩ := result
      · exact filled.keeps.returns (Code.result_ne _)
      · refine Parser.Advances.goes ⟨filled.keeps, ?_⟩ _
        have read := filled.shrinks rfl
        simp only [length_tail] at shorter
        exact Nat.le_trans read (by omega)
  · exact halts_steps

theorem markup_steps (within : text.length ≤ ps.rest.length) : Steps 0 ps (markup ps text) := by
  have past : text.tail.length ≤ text.length := by simp
  rw [markup]
  split_ifs
  · exact closingTag_steps (by omega)
  · exact markedSection_steps (by omega)
  · refine goesOn_steps fun rest read => ?_
    have shorter := scanPi_length read
    omega
  · exact (seek_advances within).goes _
  · exact halts_steps

theorem contentStep_steps : Steps 1 ps (contentStep ps) := by
  have plain := dropWhile_length (!stopsContent ·) ps.rest
  have deferred : ps.Advances 0 (ps.deferRun (ps.rest.takeWhile (!stopsContent ·))) := deferRun_advances _
  have moved : ps.Advances 0 _ := deferred.toKeeps.seek plain
  simp only [contentStep]
  split_ifs with bracket ended reference
  · have opened : (ps.rest.dropWhile (!stopsContent ·)).tail.length <
        (ps.rest.dropWhile (!stopsContent ·)).length := length_tail_lt (by rw [bracket]; decide)
    have left : (ps.rest.dropWhile (!stopsContent ·)).tail.length + 1 ≤ ps.rest.length := by omega
    have read := moved.toKeeps.seek left
    have inside : (ps.rest.dropWhile (!stopsContent ·)).tail.length ≤
        (ps.deferRun (ps.rest.takeWhile (!stopsContent ·))).doc.buf.length := by
      have within : ps.rest.length ≤ ps.doc.buf.length := by simp [Parser.rest]
      rw [deferred.size]
      omega
    exact read.steps (markup_steps (Nat.le_of_eq (seek_rest_length inside).symm))
  · exact moved.toKeeps.returns nofun
  · split
    · exact (moved.steps halts_steps).weaken (le_add_left _ _)
    · rename_i bytes rest scanned
      have shorter := scanRef_length ended scanned
      simp only at shorter
      refine Parser.Advances.goes ?_ _
      exact (moved.trans (accSpan_advances bytes)).toKeeps.seek (by omega)
  · have shorter := length_tail_lt ended
    have fed := skipLf_length (ps.rest.dropWhile (!stopsContent ·)).tail
    refine Parser.Advances.goes ?_ _
    exact (moved.trans (accSpan_advances _)).toKeeps.seek (by omega)

variable {point : Point}

theorem parserStep_steps {stop : Nat} (inside : point ≠ .between) :
    Steps 1 ps (parserStep stop ps point) := by
  cases point with
  | prolog => exact prologStep_steps
  | element => exact elementStep_steps
  | attributes nameLen => exact attributesStep_steps nameLen
  | between => exact absurd rfl inside
  | content => exact contentStep_steps
  | epilog => exact epilogStep_steps

theorem parserStep_keeps {stop : Nat} : ps.Keeps (parserStep stop ps point).1 := by
  by_cases inside : point = .between
  · subst inside
    exact .refl
  · exact (parserStep_steps inside).keeps

/-- A bound on the steps from a point: a point between constructs is passed without reading. -/
def Parser.rank (ps : Parser) (point : Point) : Nat := 2 * ps.rest.length + if point = .between then 1 else 0

theorem parserStep_rank {stop : Nat} {after : Point} {next : Parser}
    (moved : parserStep stop ps point = (next, .goes after)) :
    next.rank after < ps.rank point := by
  by_cases inside : point = .between
  · subst inside
    rw [parserStep] at moved
    split at moved
    · cases moved
    · cases moved
      simp [rank]
  · have steps : Steps 1 ps (parserStep stop ps point) := parserStep_steps inside
    have shorter := steps.shrinks after (congrArg Prod.snd moved)
    rw [moved] at shorter
    simp only [rank, if_neg inside] at shorter ⊢
    split <;> omega

theorem parserRun_returns (stop : Nat) {n : Nat} (enough : ps.rank point < n) :
    ∃ after result, parserRun stop n ps point = some (after, result) := by
  induction n generalizing ps point with
  | zero => exact absurd enough (not_lt_zero _)
  | succ n ih =>
    rw [parserRun]
    split
    · rename_i next after moved
      have lower := parserStep_rank moved
      exact ih (by omega)
    · exact ⟨_, _, rfl⟩

theorem rxmlParseDocument_returns (suspended : Bool) (stop : Nat) (ps : Parser) :
    ∃ after result, rxmlParseDocument suspended stop ps = some (after, result) := by
  refine parserRun_returns stop ?_
  cases suspended <;> simp [rank, steps]

end Points

open Option

section Annotate

variable {doc : Document}

theorem modifyNode_line_links (i j line : Nat) :
    ((doc.modifyNode i ({ · with line := line })).nodes[j]?).map (fun n => (n.children, n.next)) =
      (doc.nodes[j]?).map (fun n => (n.children, n.next)) := by
  simp only [Document.modifyNode, getElem?_modify]
  cases doc.nodes[j]? with
  | none => rfl
  | some n => simp only [Option.map_eq_map, map_some]; split <;> rfl

theorem weight_congr {after : Document} (same : ∀ j : Nat,
      (after.nodes[j]?).map (fun n => (n.children, n.next)) =
        (doc.nodes[j]?).map (fun n => (n.children, n.next))) (depth : Nat) (i : Option Nat) :
    after.weight depth i = doc.weight depth i := by
  induction depth generalizing i with
  | zero => cases i <;> rfl
  | succ depth ih =>
    cases i with
    | none => rfl
    | some i =>
      have links := same i
      simp only [Document.weight]
      cases found : doc.nodes[i]? with
      | none =>
        rw [found, map_none, map_eq_none_iff] at links
        rw [links]
      | some n =>
        rw [found, map_some, map_eq_some_iff] at links
        obtain ⟨m, foundAfter, e⟩ := links
        obtain ⟨children, next⟩ := Prod.mk.inj e
        simp only [foundAfter, children, next, ih]

theorem weight_depth (forward : doc.Forward) {depth more : Nat} {i : Option Nat}
    (enough : ∀ k, i = some k → doc.nodes.length ≤ depth + k) (larger : depth ≤ more) :
    doc.weight more i = doc.weight depth i := by
  induction depth generalizing more i with
  | zero =>
    cases i with
    | none => cases more <;> rfl
    | some i =>
      have none : doc.nodes[i]? = none := getElem?_eq_none (by have := enough i rfl; omega)
      cases more with
      | zero => rfl
      | succ more => simp only [Document.weight, none]
  | succ depth ih =>
    obtain ⟨more, rfl⟩ : ∃ k, more = k + 1 := ⟨more - 1, by omega⟩
    cases i with
    | none => rfl
    | some i =>
      simp only [Document.weight]
      cases found : doc.nodes[i]? with
      | none => rfl
      | some n =>
        -- Both links go to later elements, which the smaller depth covers.
        have later := forward i n found
        have covered := enough i rfl
        have children : doc.weight more n.children = doc.weight depth n.children := ih
          (fun k e => by have := later.1 k e; omega) (by omega)
        have next : doc.weight more n.next = doc.weight depth n.next := ih
          (fun k e => by have := later.2 k e; omega) (by omega)
        simp only [children, next]

/-- The weight of a link, at a depth that covers every element. -/
def Document.reach (doc : Document) (i : Option Nat) : Nat := doc.weight (doc.nodes.length + 1) i

theorem reach_some (forward : doc.Forward) {i : Nat} {n : Node} (found : doc.nodes[i]? = some n) :
    doc.reach (some i) = 1 + doc.reach n.children + doc.reach n.next := by
  have shallow : ∀ link, doc.reach link = doc.weight doc.nodes.length link := fun link =>
    weight_depth forward (fun k _ => le_add_right _ k) (le_succ _)
  rw [shallow n.children, shallow n.next]
  simp only [Document.reach, Document.weight, found]

theorem reach_pos (i : Nat) : 0 < doc.reach (some i) := by
  simp only [Document.reach, Document.weight]
  split <;> omega

theorem annotateWalk_returns (forward : doc.Forward) {n : Nat} {i : Option Nat} {up : List Nat}
    {place line : Nat} (enough : doc.reach i + (up.map (doc.reach ∘ some)).sum ≤ n) :
    ∃ after, annotateWalk n doc i up place line = some after := by
  induction n generalizing doc i up place line with
  | zero =>
    cases i with
    | none => exact ⟨doc, by rw [annotateWalk]⟩
    | some i => exact absurd (@reach_pos doc i) (by omega)
  | succ n ih =>
    cases i with
    | none => exact ⟨doc, by rw [annotateWalk]⟩
    | some i =>
      rw [annotateWalk]
      cases found : doc.nodes[i]? with
      | none => exact ⟨doc, rfl⟩
      | some node =>
        -- A line number changes neither the order of links nor what they weigh.
        have weight := reach_some forward found
        simp only
        generalize (line + doc.newlines place node.line) % 2 ^ 32 = number
        have kept : (doc.modifyNode i ({ · with line := number })).Forward :=
          forward.modify fun _ _ => ⟨fun _ e => .inl e, fun _ e => .inl e⟩
        have same : (doc.modifyNode i ({ · with line := number })).reach = doc.reach := by
          funext link
          rw [Document.reach, weight_congr (modifyNode_line_links i · number)]
          simp [Document.reach, Document.modifyNode]
        have goes : ∀ (link : Option Nat) (above : List Nat),
            doc.reach link + (above.map (doc.reach ∘ some)).sum ≤ n →
            ∃ after, annotateWalk n (doc.modifyNode i ({ · with line := number })) link above
              node.line number = some after := fun link above less => ih kept (by rw [same]; exact less)
        cases children : node.children <;> cases next : node.next <;>
          rw [children, next] at weight
        · cases up with
          | nil => exact goes _ _ (by simp [Document.reach, Document.weight])
          | cons top up =>
            simp only [map_cons, sum_cons, Function.comp_apply] at enough
            exact goes _ _ (by omega)
        · exact goes _ _ (by omega)
        · exact goes _ _ (by omega)
        · refine goes _ _ ?_
          simp only [map_cons, sum_cons, Function.comp_apply]
          omega

theorem annotated_returns (opts : Options) (forward : doc.Forward) :
    ∃ after, annotated opts doc = some after := by
  rw [annotated]
  split
  · exact annotateWalk_returns forward (by simp [Document.reach])
  · exact ⟨doc, rfl⟩

end Annotate

/-- A construct begins with the document and at every point between two constructs. -/
def Point.begins : Point → Bool
  | .prolog | .between => true
  | _ => false

/-- The constructs that begin in a parse, over a number of its steps. -/
def parserConstructs (stop : Nat) : Nat → Parser → Point → Nat
  | 0, _, _ => 0
  | n + 1, ps, point =>
    (if point.begins then 1 else 0) + match parserStep stop ps point with
      | (ps, .goes point) => parserConstructs stop n ps point
      | (_, .returns _) => 0

/-- The constructs of a text: the prolog with the root's start tag, and all that follow. -/
def rxmlConstructs (buf : List UInt8) : Nat :=
  let ps : Parser := { doc := { buf := buf } }
  parserConstructs (buf.length + 1) ps.steps ps .prolog

/-- Calls of a step, each with its budget, from a parse. -/
def rxmlParseSteps : Nat → (Nat → Nat) → Parse → Option Parse
  | 0, _, parse => some parse
  | n + 1, budgets, parse =>
    (rxmlParseStep parse (budgets 0)).bind (rxmlParseSteps n fun k => budgets (k + 1))

section Runs

variable {ps : Parser} {stop last : Nat}

theorem parserStep_stop (last : Nat) {point : Point} (inside : point ≠ .between) :
    parserStep stop ps point = parserStep last ps point := by
  cases point <;> first | rfl | exact absurd rfl inside

theorem parserRun_more {n : Nat} {point : Point} {answer : Parser × Result}
    (ran : parserRun stop n ps point = some answer) (k : Nat) :
    parserRun stop (n + k) ps point = some answer ∧
      parserConstructs stop (n + k) ps point = parserConstructs stop n ps point := by
  induction n generalizing ps point with
  | zero => cases ran
  | succ n ih =>
    rw [parserRun] at ran
    rw [succ_add, parserRun, parserConstructs, parserConstructs]
    generalize parserStep stop ps point = moved at ran ⊢
    obtain ⟨next, point | result⟩ := moved
    · exact ⟨(ih ran).1, congrArg _ (ih ran).2⟩
    · exact ⟨ran, rfl⟩

theorem parserRun_keeps {n : Nat} {point : Point} {after : Parser} {result : Result}
    (ran : parserRun stop n ps point = some (after, result)) : ps.Keeps after := by
  induction n generalizing ps point with
  | zero => cases ran
  | succ n ih =>
    have kept : ps.Keeps (parserStep stop ps point).1 := parserStep_keeps
    rw [parserRun] at ran
    generalize parserStep stop ps point = moved at ran kept
    obtain ⟨next, point | result⟩ := moved
    · exact kept.trans (ih ran)
    · cases ran
      exact kept

theorem parserRun_finished {n : Nat} {point : Point} {after : Parser} {result : Result}
    (within : ps.p ≤ ps.doc.buf.length) (past : ps.doc.buf.length < last)
    (ran : parserRun stop n ps point = some (after, result)) (final : result ≠ .paused) :
    parserRun last n ps point = some (after, result) := by
  induction n generalizing ps point with
  | zero => cases ran
  | succ n ih =>
    rw [parserRun] at ran ⊢
    have kept : ps.Keeps (parserStep last ps point).1 := parserStep_keeps
    by_cases inside : point = .between
    · subst inside
      simp only [parserStep, if_neg (Nat.not_le.2 (Nat.lt_of_le_of_lt within past))] at ran ⊢
      split at ran
      · rename_i e
        split at e <;> cases e
        exact ih within past ran
      · rename_i e
        split at e <;> cases e
        cases ran
        exact absurd rfl final
    · rw [parserStep_stop last inside] at ran
      generalize parserStep last ps point = moved at ran kept ⊢
      obtain ⟨next, point | result⟩ := moved
      · exact ih (kept.within within) (kept.size ▸ past) ran
      · exact ran

theorem parserRun_paused {n : Nat} {point : Point} {after : Parser}
    (within : ps.p ≤ ps.doc.buf.length) (past : ps.doc.buf.length < last)
    (ran : parserRun stop n ps point = some (after, .paused)) :
    ∃ m v, (∀ k, parserRun last (m + k) ps point = parserRun last k after .between) ∧
      (∀ k, parserConstructs last (m + k) ps point = v + parserConstructs last k after .between) ∧
      (point.begins → (point = .between → ps.p < stop) → 0 < v) := by
  induction n generalizing ps point with
  | zero => cases ran
  | succ n ih =>
    rw [parserRun] at ran
    have kept : ps.Keeps (parserStep last ps point).1 := parserStep_keeps
    by_cases inside : point = .between
    · subst inside
      have further := Nat.not_le.2 (Nat.lt_of_le_of_lt within past)
      simp only [parserStep] at ran
      by_cases paused : stop ≤ ps.p
      · -- The parse pauses at once.
        rw [if_pos paused] at ran
        cases ran
        exact ⟨0, 0, fun k => by rw [zero_add], fun k => by rw [zero_add, zero_add],
          fun _ later => absurd (later rfl) (Nat.not_lt.2 paused)⟩
      · rw [if_neg paused] at ran
        obtain ⟨m, v, runs, counts, _⟩ := ih within past ran
        refine ⟨m + 1, v + 1, fun k => ?_, fun k => ?_, fun _ _ => succ_pos v⟩
        · rw [succ_add, parserRun, parserStep, if_neg further]
          exact runs k
        · rw [succ_add, parserConstructs, parserStep, if_neg further]
          simp only [counts, Point.begins, if_true]
          omega
    · have steps : Steps 1 ps (parserStep last ps point) := parserStep_steps inside
      have unpaused := steps.unpaused
      rw [parserStep_stop last inside] at ran
      cases moved : parserStep last ps point with
      | mk next target =>
        rw [moved] at ran kept unpaused
        cases target with
        | returns result =>
          cases ran
          exact absurd rfl unpaused
        | goes target =>
          obtain ⟨m, v, runs, counts, _⟩ := ih (kept.within within) (kept.size ▸ past) ran
          refine ⟨m + 1, (if point.begins then 1 else 0) + v, fun k => ?_, fun k => ?_, fun begins _ => ?_⟩
          · rw [succ_add, parserRun, moved]
            exact runs k
          · rw [succ_add, parserConstructs, moved]
            simp only [counts]
            omega
          · rw [if_pos begins]
            omega

end Runs

/-- The verdict on a parse that has returned. -/
def verdict (opts : Options) (answer : Parser × Result) : Option (Except ParseError Document) := do
  match answer.2.strict opts with
  | .malformed => return .error (rxmlErrorPosition answer.1.doc.buf answer.1.p)
  | _ => return .ok (← annotated opts answer.1.doc)

/-- A parse that has come to a verdict, and the state it is left in. -/
structure Settled (outcome : Except ParseError Document) (parse : Parse) : Prop where
  state : parse.state = match outcome with | .ok _ => .done | .error _ => .failed
  document : rxmlParseEnd parse = outcome.toOption

/-- The parser stands where a construct begins, and is told so. -/
structure Begins (parse : Parse) (point : Point) : Prop where
  state : parse.state = .parsing
  point : point = if parse.suspended then .between else .prolog
  within : parse.ps.p ≤ parse.ps.doc.buf.length
  forward : parse.ps.doc.Forward

theorem Parse.lt_stop {parse : Parse} (within : parse.ps.p ≤ parse.ps.doc.buf.length)
    (maxBytes : Nat) : parse.ps.p < parse.stop maxBytes := by
  simp only [Parse.stop]
  split <;> omega

theorem Result.strict_ne_paused {opts : Options} {result : Result} (final : result ≠ .paused) :
    result.strict opts ≠ .paused := by
  cases result with
  | truncated => simp only [Result.strict]; split <;> nofun
  | malformed => nofun
  | parsed => nofun
  | paused => exact absurd rfl final

theorem rxmlParseStep_final {parse : Parse} {after : Parser} {result : Result} {maxBytes : Nat}
    (state : parse.state = .parsing)
    (ran : rxmlParseDocument parse.suspended (parse.stop maxBytes) parse.ps = some (after, result))
    (final : result ≠ .paused) (forward : after.doc.Forward) :
    ∃ outcome, verdict parse.opts (after, result) = some outcome ∧
      ∃ next, rxmlParseStep parse maxBytes = some next ∧ Settled outcome next := by
  have parsing : ¬ parse.state ≠ .parsing := fun other => other state
  simp only [rxmlParseStep, if_neg parsing, ran, verdict, bind_eq_bind, bind_some]
  obtain ⟨doc, lines⟩ := annotated_returns parse.opts forward
  cases judged : result.strict parse.opts with
  | paused => exact absurd judged (Result.strict_ne_paused final)
  | malformed => exact ⟨_, rfl, _, rfl, ⟨rfl, rfl⟩⟩
  | truncated => exact ⟨.ok doc, by simp [lines], _, by rw [lines]; rfl, ⟨rfl, rfl⟩⟩
  | parsed => exact ⟨.ok doc, by simp [lines], _, by rw [lines]; rfl, ⟨rfl, rfl⟩⟩

theorem parserRun_unique {ps : Parser} {stop n m : Nat} {point : Point}
    {first second : Parser × Result} (one : parserRun stop n ps point = some first)
    (other : parserRun stop m ps point = some second) :
    first = second ∧ parserConstructs stop n ps point = parserConstructs stop m ps point := by
  have left := parserRun_more one m
  have right := parserRun_more other n
  rw [add_comm m n] at right
  exact ⟨some.inj (left.1.symm.trans right.1), left.2.symm.trans right.2⟩

theorem steps_settle {c : Nat} {parse : Parse} {point : Point} (begins : Begins parse point)
    {n last : Nat} (past : last = parse.ps.doc.buf.length + 1) {answer : Parser × Result}
    (whole : parserRun last n parse.ps point = some answer)
    (counted : parserConstructs last n parse.ps point ≤ c) (budgets : Nat → Nat) :
    ∃ outcome, verdict parse.opts answer = some outcome ∧
      ∃ k ≤ c, ∃ after, rxmlParseSteps k budgets parse = some after ∧ Settled outcome after ∧
        ∀ j < k, ∃ mid, rxmlParseSteps j budgets parse = some mid ∧ mid.state = .parsing := by
  -- By induction on the constructs left: a step that pauses has passed one of them.
  induction c generalizing parse point n budgets with
  | zero =>
    obtain ⟨n, rfl⟩ : ∃ m, n = m + 1 := by
      cases n with
      | zero => cases whole
      | succ m => exact ⟨m, rfl⟩
    rw [parserConstructs, begins.point] at counted
    split at counted <;> simp [Point.begins] at counted
  | succ c ih =>
    have beyond : parse.ps.doc.buf.length < last := by omega
    obtain ⟨after, result, ran⟩ := rxmlParseDocument_returns parse.suspended (parse.stop (budgets 0)) parse.ps
    have steps := ran
    rw [rxmlParseDocument, ← begins.point] at steps
    have kept := parserRun_keeps steps
    by_cases paused : result = .paused
    · subst paused
      obtain ⟨m, v, runs, counts, passed⟩ := parserRun_paused begins.within beyond steps
      have one := passed (by rw [begins.point]; split <;> rfl)
        fun _ => Parse.lt_stop begins.within _
      obtain ⟨final, verdict, rest⟩ := rxmlParseDocument_returns true last after
      rw [rxmlParseDocument, if_pos rfl] at rest
      -- The rest of the parse with no stop is the parse from the pause.
      obtain ⟨rfl, same⟩ := parserRun_unique whole ((runs after.steps).trans rest)
      rw [counts] at same
      have next : Begins { parse with ps := after, suspended := true } .between :=
        ⟨begins.state, rfl, kept.within begins.within, kept.forward begins.forward⟩
      obtain ⟨outcome, judged, k, less, settled, reached, ends, before⟩ :=
        ih next (by rw [kept.size]; exact past) rest
          (by change parserConstructs last after.steps after .between ≤ c; omega)
          fun k => budgets (k + 1)
      have parsing : ¬ parse.state ≠ .parsing := fun other => other begins.state
      have first : rxmlParseStep parse (budgets 0) = some { parse with ps := after, suspended := true } := by
        simp only [rxmlParseStep, if_neg parsing, ran, bind_eq_bind, bind_some, Result.strict]
        rfl
      refine ⟨outcome, judged, k + 1, succ_le_succ less, settled, ?_, ends, fun j smaller => ?_⟩
      · rw [rxmlParseSteps, first, bind_some]
        exact reached
      · cases j with
        | zero => exact ⟨parse, rfl, begins.state⟩
        | succ j =>
          rw [rxmlParseSteps, first, bind_some]
          exact before j (lt_of_succ_lt_succ smaller)
    · have finished := parserRun_finished begins.within beyond steps paused
      obtain ⟨rfl, _⟩ := parserRun_unique whole finished
      obtain ⟨outcome, judged, settled, stepped, ends⟩ :=
        rxmlParseStep_final begins.state ran paused (kept.forward begins.forward)
      refine ⟨outcome, judged, 1, succ_le_succ (zero_le c), settled, ?_, ends, fun j smaller => ?_⟩
      · rw [rxmlParseSteps, stepped]
        rfl
      · obtain rfl := lt_one_iff.1 smaller
        exact ⟨parse, rfl, begins.state⟩

/-- Whatever budgets its steps are given, a parse in steps ends after no more steps than the text
has constructs, with the verdict and the document of the parse in one call. -/
theorem steps_agree (opts : Options) (buf : List UInt8) (budgets : Nat → Nat) :
    ∃ outcome, rxmlParseOwned opts buf = some outcome ∧ ∃ n ≤ rxmlConstructs buf, ∃ parse,
        rxmlParseSteps n budgets (rxmlParseBeginOwned opts buf) = some parse ∧
        Settled outcome parse ∧
        ∀ k < n, ∃ mid, rxmlParseSteps k budgets (rxmlParseBeginOwned opts buf) = some mid ∧
          mid.state = .parsing := by
  have begins : Begins (rxmlParseBeginOwned opts buf) .prolog :=
    ⟨rfl, rfl, zero_le _, fun i n found => by simp [rxmlParseBeginOwned] at found⟩
  obtain ⟨after, result, ran⟩ :=
    rxmlParseDocument_returns false (buf.length + 1) (rxmlParseBeginOwned opts buf).ps
  have whole := ran
  rw [rxmlParseDocument] at whole
  obtain ⟨outcome, judged, rest⟩ := steps_settle begins rfl whole (Nat.le_refl _) budgets
  refine ⟨outcome, ?_, rest⟩
  rw [rxmlParseOwned]
  exact (congrArg (Option.bind · _) ran).trans judged

end Libretro.Rxml
