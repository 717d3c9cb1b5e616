import Libretro.Encodings.Utf
import Libretro.Library.Pieces

/-! The characters of a string, and wrapping at its spaces in place of a copy. -/

namespace Libretro.Strings

open CString List Utf

/-- How long the character is that a string begins with. -/
def charLen (src : List UInt8) : Nat := if byteAt src 0 < 0x80 then 1 else utf8skip src 1 0

/-- How many bytes a character should have by its first one. -/
def charSize (lead : UInt8) : Nat :=
  if lead < 0xC0 then 1 else if lead < 0xE0 then 2 else if lead < 0xF0 then 3
  else if lead < 0xF8 then 4 else utf8Lut lead

/-- The characters of a string, so many at most. -/
def charsLoop : Nat → List UInt8 → List (List UInt8)
  | 0, _ => []
  | _, [] => []
  | count + 1, text => text.take (charLen text) :: charsLoop count (text.drop (charLen text))

/-- The characters of a string. -/
def chars (text : List UInt8) : List (List UInt8) := charsLoop text.length text

/-- A string divided into characters: each has as many bytes as its first one says, unless the string
ends before. -/
def Divided : List (List UInt8) → Prop
  | [] => True
  | char :: rest => char ≠ [] ∧
      char.length = min (charSize (byteAt char 0)) (char.length + rest.flatten.length) ∧ Divided rest

open Nat

section Steps

variable {buffer text : List UInt8}

theorem byteAt_ne_zero (clear : 0 ∉ text) {place : Nat} (inside : place < text.length) :
    byteAt text place ≠ 0 := by
  intro zero
  rw [byteAt, getD_eq_getElem?_getD, getElem?_eq_getElem inside] at zero
  exact clear (zero ▸ getElem_mem inside)

theorem stepOver_eq (clear : 0 ∉ buffer) (count : Nat) {strb : Nat} (inside : strb ≤ buffer.length) :
    stepOver buffer count strb = min (strb + count) buffer.length := by
  induction count generalizing strb with
  | zero => rw [stepOver, add_zero, min_eq_left inside]
  | succ count ih =>
    rw [stepOver]
    by_cases more : strb < buffer.length
    · rw [if_pos (byteAt_ne_zero clear more), ih more]
      omega
    · have zero : byteAt buffer strb = 0 := by
        rw [byteAt, getD_eq_getElem?_getD, getElem?_eq_none (by omega)]
        rfl
      rw [if_neg (not_not.2 zero)]
      omega

theorem charSize_pos (lead : UInt8) : 0 < charSize lead := by
  revert lead
  exact Utf8.forall_byte (by decide +kernel)

theorem charLen_eq (clear : 0 ∉ text) (nonempty : text ≠ []) :
    charLen text = min (charSize (byteAt text 0)) text.length := by
  have positive := length_pos_iff.2 nonempty
  have begins := byteAt_ne_zero clear positive
  unfold charLen charSize
  by_cases ascii : byteAt text 0 < 0x80
  · have low : byteAt text 0 < 0xC0 := UInt8.lt_of_lt_of_le ascii (by decide)
    rw [if_pos ascii, if_pos low]
    omega
  rw [if_neg ascii, utf8skip, if_neg begins]
  by_cases low : byteAt text 0 < 0xC0
  · rw [if_pos low, if_pos low, if_neg ascii, utf8skip]
    omega
  rw [if_neg low, if_neg low]
  by_cases two : byteAt text 0 < 0xE0
  · rw [if_pos two, if_pos two, utf8skip, stepOver_eq clear 1 positive]
  rw [if_neg two, if_neg two]
  by_cases three : byteAt text 0 < 0xF0
  · rw [if_pos three, if_pos three, utf8skip, stepOver_eq clear 2 positive]
  rw [if_neg three, if_neg three]
  by_cases four : byteAt text 0 < 0xF8
  · rw [if_pos four, if_pos four, utf8skip, stepOver_eq clear 3 positive]
  · rw [if_neg four, if_neg four, utf8skip, stepOver_eq clear _ (zero_le _), zero_add]

theorem charLen_bounds (clear : 0 ∉ text) (nonempty : text ≠ []) :
    0 < charLen text ∧ charLen text ≤ text.length := by
  have positive := length_pos_iff.2 nonempty
  have size := charSize_pos (byteAt text 0)
  rw [charLen_eq clear nonempty]
  omega

end Steps

section Division

variable {text : List UInt8}

theorem charsLoop_divided (clear : 0 ∉ text) {count : Nat} (enough : text.length ≤ count) :
    Divided (charsLoop count text) ∧ (charsLoop count text).flatten = text := by
  -- One character is taken at a time.
  induction count generalizing text with
  | zero =>
    obtain rfl := eq_nil_of_length_eq_zero (le_zero.1 enough)
    exact ⟨trivial, rfl⟩
  | succ count ih =>
    cases text with
    | nil => exact ⟨trivial, rfl⟩
    | cons first rest =>
      have nonempty : first :: rest ≠ [] := cons_ne_nil _ _
      obtain ⟨positive, inside⟩ := charLen_bounds clear nonempty
      have length := charLen_eq clear nonempty
      have shorter : ((first :: rest).drop (charLen (first :: rest))).length =
          (first :: rest).length - charLen (first :: rest) := length_drop
      obtain ⟨divided, whole⟩ := @ih ((first :: rest).drop (charLen (first :: rest)))
        (fun zero => clear (mem_of_mem_drop zero)) (by omega)
      have taken : ((first :: rest).take (charLen (first :: rest))).length =
          charLen (first :: rest) := length_take_of_le inside
      have lead : byteAt ((first :: rest).take (charLen (first :: rest))) 0 = first := by
        rw [byteAt, getD_eq_getElem?_getD, getElem?_take_of_lt positive]
        rfl
      rw [charsLoop]
      · refine ⟨⟨fun empty => ?_, ?_, divided⟩, ?_⟩
        · rw [empty, length_nil] at taken
          omega
        · rw [taken, whole, shorter, lead, length]
          simp only [byteAt, getD_cons_zero]
          omega
        · rw [flatten_cons, whole, take_append_drop]
      · exact nonempty

theorem chars_divided (clear : 0 ∉ text) : Divided (chars text) ∧ (chars text).flatten = text :=
  charsLoop_divided clear (le_refl _)

theorem Divided.charLen {char : List UInt8} {rest : List (List UInt8)}
    (divided : Divided (char :: rest)) (clear : 0 ∉ (char :: rest).flatten) :
    charLen (char :: rest).flatten = char.length ∧ byteAt (char :: rest).flatten 0 = byteAt char 0 := by
  obtain ⟨nonempty, length, -⟩ := divided
  have positive := length_pos_iff.2 nonempty
  have some : (char :: rest).flatten ≠ [] := by
    rw [flatten_cons]
    exact append_ne_nil_of_left_ne_nil nonempty _
  have lead : byteAt (char :: rest).flatten 0 = byteAt char 0 := by
    rw [flatten_cons, byteAt, byteAt, getD_eq_getElem?_getD, getD_eq_getElem?_getD,
      getElem?_append_left positive]
  refine ⟨?_, lead⟩
  rw [charLen_eq clear some, lead, flatten_cons, length_append]
  exact length.symm

theorem Divided.charsLoop {list : List (List UInt8)} (divided : Divided list)
    (clear : 0 ∉ list.flatten) {count : Nat} (enough : list.flatten.length ≤ count) :
    charsLoop count list.flatten = list := by
  induction list generalizing count with
  | nil => cases count <;> rfl
  | cons char rest ih =>
    obtain ⟨step, -⟩ := divided.charLen clear
    obtain ⟨nonempty, -, divided⟩ := divided
    have positive := length_pos_iff.2 nonempty
    have some : (char :: rest).flatten ≠ [] := by
      rw [flatten_cons]
      exact append_ne_nil_of_left_ne_nil nonempty _
    cases count with
    | zero =>
      rw [flatten_cons, length_append] at enough
      omega
    | succ count =>
      rw [Strings.charsLoop, step]
      · rw [flatten_cons, take_left, drop_left]
        rw [flatten_cons, length_append] at enough
        rw [ih divided (fun zero => clear (mem_append_right _ zero)) (by omega)]
      · exact some

theorem Divided.chars {list : List (List UInt8)} (divided : Divided list)
    (clear : 0 ∉ list.flatten) : chars list.flatten = list :=
  divided.charsLoop clear (le_refl _)

/-- A character in a division may be replaced by another one of the same length and size. -/
theorem Divided.replace {front back : List (List UInt8)} {old new : List UInt8}
    (divided : Divided (front ++ old :: back)) (length : new.length = old.length)
    (size : charSize (byteAt new 0) = charSize (byteAt old 0)) :
    Divided (front ++ new :: back) := by
  induction front with
  | nil =>
    obtain ⟨nonempty, long, rest⟩ := divided
    refine ⟨fun empty => nonempty ?_, ?_, rest⟩
    · rw [empty] at length
      exact eq_nil_of_length_eq_zero length.symm
    · rw [size, length]
      exact long
  | cons char front ih =>
    obtain ⟨nonempty, long, rest⟩ := divided
    refine ⟨nonempty, ?_, ih rest⟩
    have flat : (front ++ new :: back).flatten.length = (front ++ old :: back).flatten.length := by
      simp [length]
    exact long.trans (congrArg (fun n => min _ (char.length + n)) flat.symm)

theorem Divided.single {char : List UInt8} {rest : List (List UInt8)}
    (divided : Divided (char :: rest)) (single : charSize (byteAt char 0) = 1) :
    char = [byteAt char 0] := by
  obtain ⟨nonempty, length, -⟩ := divided
  have positive := length_pos_iff.2 nonempty
  rw [single] at length
  obtain ⟨byte, rfl⟩ := length_eq_one_iff.1 (show char.length = 1 by omega)
  rfl

theorem Divided.length_le {list : List (List UInt8)} (divided : Divided list) :
    list.length ≤ list.flatten.length := by
  induction list with
  | nil => exact le_refl _
  | cons char rest ih =>
    have positive := length_pos_iff.2 divided.1
    have most := ih divided.2.2
    rw [length_cons, flatten_cons, length_append]
    omega

theorem Divided.behind {front back : List (List UInt8)} (divided : Divided (front ++ back)) :
    Divided back := by
  induction front with
  | nil => exact divided
  | cons char front ih => exact ih divided.2.2

end Division

open Nat Pieces

/-- A space. -/
def space : UInt8 := 0x20

/-- The end of a line. -/
def newline : UInt8 := 0x0A

/-- The state of the loop, which reads and writes at one place. -/
structure Wrap where
  place : Nat
  s : List UInt8
  lastSpace : Option Nat
  counter : Nat
  spaceCounter : Nat
  spaceOnLine : Bool
  lines : UInt32

/-- A turn of the loop goes on or returns from the call. -/
inductive Turned
  | goes (w : Wrap)
  | returns (s : List UInt8)

/-- The character at the place is counted; a space is remembered, and a line that ends starts the
count again. -/
def wrapCount (src : List UInt8) (w : Wrap) : Wrap :=
  let counter := w.counter + 1
  if byteAt src w.place = space then
    { w with counter, lastSpace := some w.place, spaceCounter := counter, spaceOnLine := true }
  else if byteAt src w.place = newline then
    { w with counter := 0, lines := w.lines + 1, spaceOnLine := false }
  else { w with counter }

/-- A full line is broken at the last space, if there is one and lines are left; what stands behind a
space on an earlier line is read again. -/
def wrapBreak (src : List UInt8) (lineWidth : Int) (maxLines : UInt32) (w : Wrap) : Turned :=
  match w.lastSpace with
  | none => .goes { w with counter := 0 }
  | some lastSpace =>
    if maxLines = 0 ∨ w.lines < maxLines then
      let after := { w with
        place := if w.spaceOnLine then w.place else lastSpace + 1
        s := w.s.set lastSpace newline
        lastSpace := none
        counter := if w.spaceOnLine then w.counter - w.spaceCounter else 0
        spaceOnLine := false
        lines := w.lines + 1 }
      if (src.length : Int) - (lastSpace + 1) < lineWidth then .returns after.s else .goes after
    else .goes { w with counter := 0 }

/-- One turn over a character. -/
def wrapTurn (src : List UInt8) (lineWidth : Int) (maxLines : UInt32) (w : Wrap) : Turned :=
  if byteAt src w.place = newline ∧ (src.length : Int) - w.place ≤ lineWidth then .returns w.s
  else
    let moved := { wrapCount src w with place := w.place + charLen (src.drop w.place) }
    if lineWidth.toNat ≤ moved.counter then wrapBreak src lineWidth maxLines moved else .goes moved

/-- The loop up to the terminator: what is returned, and the string in the destination. -/
def wrapLoop (src : List UInt8) (lineWidth : Int) (maxLines : UInt32) : Nat → Wrap → Option (Nat × List UInt8)
  | 0, _ => none
  | fuel + 1, w =>
    if byteAt src w.place ≠ 0 then
      match wrapTurn src lineWidth maxLines w with
      | .goes after => wrapLoop src lineWidth maxLines fuel after
      | .returns s => some (src.length, s)
    else some (w.place, w.s.take w.place)

/-- The state in which the loop begins. -/
def Wrap.start (src : List UInt8) : Wrap where
  place := 0
  s := src
  lastSpace := none
  counter := 0
  spaceCounter := 0
  spaceOnLine := false
  lines := 1

/-- A call with a destination of a size: what it returns, and the string in the destination if anything
is written to it. A negative width is a large size. -/
def wordWrap (fuel len : Nat) (src : Str) (lineWidth : Int) (maxLines : UInt32) :
    Option (Nat × Option (List UInt8)) :=
  if len < src.bytes.length + 1 then some (0, none)
  else if lineWidth < 0 ∨ (src.bytes.length : Int) < lineWidth then
    some (src.bytes.length, some src.bytes)
  else
    (wrapLoop src.bytes lineWidth maxLines fuel (.start src.bytes)).map fun (n, s) => (n, some s)

/-- An output is as long as its source and differs from it only where a space became the end of a
line. -/
def Wrapped (src out : List UInt8) : Prop :=
  out.length = src.length ∧ ∀ place, byteAt out place = byteAt src place ∨
    (byteAt src place = space ∧ byteAt out place = newline)

/-- Whether a character is a space or the end of a line. -/
def separates (char : List UInt8) : Bool := char == [space] || char == [newline]

/-- The runs of characters between spaces and ends of lines. -/
def runs (text : List UInt8) : List (List (List UInt8)) := (chars text).splitOnP separates

/-- The lines of a text, each by its characters. -/
def lines (text : List UInt8) : List (List (List UInt8)) := (chars text).splitOn [newline]

section Kept

variable {src : List UInt8} {lineWidth : Int} {maxLines : UInt32} {base : Nat} {w : Wrap}

/-- What holds of the state: only spaces were replaced, and the last space lies between what was read
again last and the place. -/
structure Wrap.Kept (src : List UInt8) (base : Nat) (w : Wrap) : Prop where
  wrapped : Wrapped src w.s
  inside : w.place ≤ src.length
  behind : base ≤ w.place
  last : ∀ q, w.lastSpace = some q → base ≤ q ∧ q < w.place ∧ byteAt src q = space

/-- What is left to do: what is read again comes behind what was read again before. -/
def Wrap.left (src : List UInt8) (base : Nat) (w : Wrap) : Nat :=
  (src.length - base) * (src.length + 1) + (src.length - w.place)

theorem Wrapped.set {s : List UInt8} (wrapped : Wrapped src s) {q : Nat} (inside : q < src.length)
    (isSpace : byteAt src q = space) : Wrapped src (s.set q newline) := by
  refine ⟨by rw [length_set, wrapped.1], fun place => ?_⟩
  by_cases here : q = place
  · subst here
    refine .inr ⟨isSpace, ?_⟩
    rw [byteAt, getD_eq_getElem?_getD, getElem?_set_self (by rw [wrapped.1]; exact inside)]
    rfl
  · have same : byteAt (s.set q newline) place = byteAt s place := by
      rw [byteAt, byteAt, getD_eq_getElem?_getD, getD_eq_getElem?_getD, getElem?_set_ne here]
    rw [same]
    exact wrapped.2 place

theorem Wrapped.clear {s : List UInt8} (wrapped : Wrapped src s) (clear : 0 ∉ src) : 0 ∉ s := by
  intro zero
  obtain ⟨place, inside, here⟩ := mem_iff_getElem.1 zero
  have found : byteAt s place = 0 := by
    rw [byteAt, getD_eq_getElem?_getD, getElem?_eq_getElem inside, here]
    rfl
  rcases wrapped.2 place with same | ⟨-, ended⟩
  · exact byteAt_ne_zero clear (wrapped.1 ▸ inside) (same.symm.trans found)
  · rw [found] at ended
    exact absurd ended (by decide)

theorem wrapCount_s (src : List UInt8) (w : Wrap) : (wrapCount src w).s = w.s := by
  unfold wrapCount
  split
  · rfl
  · split <;> rfl

theorem wrapCount_lastSpace {q : Nat} (last : (wrapCount src w).lastSpace = some q) :
    (q = w.place ∧ byteAt src q = space) ∨ w.lastSpace = some q := by
  unfold wrapCount at last
  split at last
  · rename_i isSpace
    obtain rfl := Option.some.inj last
    exact .inl ⟨rfl, isSpace⟩
  · right
    split at last <;> exact last

theorem Wrap.Kept.count (kept : w.Kept src base) (clear : 0 ∉ src) (more : w.place < src.length) :
    Wrap.Kept src base { wrapCount src w with place := w.place + charLen (src.drop w.place) } ∧
      w.place < w.place + charLen (src.drop w.place) := by
  have rest : src.drop w.place ≠ [] := by
    rw [← length_pos_iff, length_drop]
    omega
  obtain ⟨positive, fits⟩ := charLen_bounds (fun zero => clear (mem_of_mem_drop zero)) rest
  rw [length_drop] at fits
  have behind := kept.behind
  refine ⟨⟨?_, ?_, ?_, fun q last => ?_⟩, by omega⟩
  · dsimp only
    rw [wrapCount_s]
    exact kept.wrapped
  · dsimp only
    omega
  · dsimp only
    omega
  · rcases wrapCount_lastSpace last with ⟨rfl, isSpace⟩ | last
    · exact ⟨behind, by dsimp only; omega, isSpace⟩
    · obtain ⟨later, before, isSpace⟩ := kept.last q last
      exact ⟨later, by dsimp only; omega, isSpace⟩

theorem Wrap.Kept.break (kept : w.Kept src base) : match wrapBreak src lineWidth maxLines w with
    | .goes after => ∃ base', after.Kept src base' ∧ after.left src base' ≤ w.left src base
    | .returns s => Wrapped src s := by
  have same : ∃ base', Wrap.Kept src base' { w with counter := 0 } ∧
      Wrap.left src base' { w with counter := 0 } ≤ w.left src base :=
    ⟨base, ⟨kept.wrapped, kept.inside, kept.behind, kept.last⟩, le_refl _⟩
  unfold wrapBreak
  cases last : w.lastSpace with
  | none =>
    rw [last] at same
    exact same
  | some q =>
    obtain ⟨later, before, isSpace⟩ := kept.last q last
    have inside := kept.inside
    have wrapped := kept.wrapped.set (lt_of_lt_of_le before inside) isSpace
    dsimp only
    by_cases allowed : maxLines = 0 ∨ w.lines < maxLines
    · rw [if_pos allowed]
      by_cases short : (src.length : Int) - (q + 1) < lineWidth
      · rw [if_pos short]
        exact wrapped
      · rw [if_neg short]
        cases onLine : w.spaceOnLine with
        | true => exact ⟨base, ⟨wrapped, inside, kept.behind, fun _ none => nomatch none⟩, le_refl _⟩
        | false =>
          -- The text behind the space is read again, but never what stands before it.
          refine ⟨q + 1, ⟨wrapped, by dsimp only; simp; omega, le_refl _,
            fun _ none => nomatch none⟩, ?_⟩
          have fewer : (src.length - (q + 1) + 1) * (src.length + 1) ≤
              (src.length - base) * (src.length + 1) := mul_le_mul_right _ (by omega)
          rw [succ_mul] at fewer
          unfold Wrap.left
          dsimp only
          simp only [Bool.false_eq_true, if_false]
          omega
    · rw [if_neg allowed]
      rw [last] at same
      exact same

theorem Wrap.Kept.turn (kept : w.Kept src base) (clear : 0 ∉ src) (more : w.place < src.length) :
    match wrapTurn src lineWidth maxLines w with
    | .goes after => ∃ base', after.Kept src base' ∧ after.left src base' < w.left src base
    | .returns s => Wrapped src s := by
  obtain ⟨moved, forward⟩ := kept.count clear more
  have inside := moved.inside
  have less : Wrap.left src base
      { wrapCount src w with place := w.place + charLen (src.drop w.place) } < w.left src base := by
    unfold Wrap.left
    dsimp only at inside ⊢
    omega
  unfold wrapTurn
  by_cases early : byteAt src w.place = newline ∧ (src.length : Int) - w.place ≤ lineWidth
  · rw [if_pos early]
    exact kept.wrapped
  rw [if_neg early]
  dsimp only
  split
  · rename_i after goes
    split at goes
    · have breaks := @Wrap.Kept.break src lineWidth maxLines base _ moved
      rw [goes] at breaks
      obtain ⟨base', kept', most⟩ := breaks
      exact ⟨base', kept', lt_of_le_of_lt most less⟩
    · cases goes
      exact ⟨base, moved, less⟩
  · rename_i s returns
    split at returns
    · have breaks := @Wrap.Kept.break src lineWidth maxLines base _ moved
      rw [returns] at breaks
      exact breaks
    · cases returns

theorem wrapLoop_returns (holds : Wrap → Prop) (ends : List UInt8 → Prop) (clear : 0 ∉ src)
    (turns : ∀ base (w : Wrap), w.Kept src base → holds w → w.place < src.length →
      match wrapTurn src lineWidth maxLines w with
      | .goes after => holds after
      | .returns s => Wrapped src s → ends s)
    (finishes : ∀ base (w : Wrap), w.Kept src base → holds w → w.place = src.length → ends w.s)
    (kept : w.Kept src base) (start : holds w) :
    ∃ fuel out, wrapLoop src lineWidth maxLines fuel w = some (src.length, out) ∧ Wrapped src out ∧
      ends out := by
  -- Every turn leaves less to do.
  induction left : w.left src base using Nat.strongRecOn generalizing base w with
  | ind n ih =>
    subst left
    by_cases more : w.place < src.length
    · have turn := @Wrap.Kept.turn src lineWidth maxLines base w kept clear more
      have holding := turns base w kept start more
      cases result : wrapTurn src lineWidth maxLines w with
      | goes after =>
        rw [result] at turn holding
        obtain ⟨base', kept', less⟩ := turn
        obtain ⟨fuel, out, loops, rest⟩ := ih _ less kept' holding rfl
        refine ⟨fuel + 1, out, ?_, rest⟩
        rw [wrapLoop, if_pos (byteAt_ne_zero clear more), result]
        exact loops
      | returns s =>
        rw [result] at turn holding
        refine ⟨1, s, ?_, turn, holding turn⟩
        rw [wrapLoop, if_pos (byteAt_ne_zero clear more), result]
    · have inside := kept.inside
      have last : w.place = src.length := by omega
      have zero : byteAt src w.place = 0 := by
        rw [byteAt, getD_eq_getElem?_getD, getElem?_eq_none (by omega)]
        rfl
      refine ⟨1, w.s, ?_, kept.wrapped, finishes base w kept start last⟩
      rw [wrapLoop, if_neg (not_not.2 zero), last, take_of_length_le (le_of_eq kept.wrapped.1)]

end Kept

section Lined

variable {src s : List UInt8} {width : Nat} {w : Wrap} {before cur rest : List (List UInt8)}
  {broken : List (List (List UInt8))}

/-- The destination by its lines: those that are broken, the characters of the current line that were
counted, and the rest of the source. -/
structure Wrap.Lined (src : List UInt8) (width : Nat) (w : Wrap)
    (broken : List (List (List UInt8))) (cur rest : List (List UInt8)) : Prop where
  s : w.s = (closed [newline] broken ++ (cur ++ rest)).flatten
  divided : Divided (closed [newline] broken ++ (cur ++ rest))
  place : w.place = (closed [newline] broken ++ cur).flatten.length
  tail : src.drop w.place = rest.flatten
  counter : w.counter = cur.length
  short : ∀ line ∈ broken, [newline] ∉ line ∧ line.length < width
  one : [newline] ∉ cur
  runs : ∃ front, chars src = front ++ (cur ++ rest) ∧ (front = [] ∨
    ∃ others separator, front = others ++ [separator] ∧ separates separator = true)
  spaces : w.spaceOnLine = true → ∃ front back, cur = front ++ [space] :: back ∧ [space] ∉ back ∧
    w.lastSpace = some (closed [newline] broken ++ front).flatten.length ∧
    w.spaceCounter = front.length + 1
  spaceless : w.spaceOnLine = false → [space] ∉ cur

/-- Every line of a text has less than so many characters. -/
def Short (width : Nat) (text : List UInt8) : Prop := ∀ line ∈ lines text, line.length < width

theorem short_closed (divided : Divided (closed [newline] broken ++ rest))
    (clear : 0 ∉ (closed [newline] broken ++ rest).flatten)
    (short : ∀ line ∈ broken, [newline] ∉ line ∧ line.length < width) (few : rest.length < width) :
    Short width (closed [newline] broken ++ rest).flatten := by
  intro line listed
  rw [lines, divided.chars clear, splitOn_closed fun piece inside => (short piece inside).1] at listed
  rcases mem_append.1 listed with inside | last
  · exact (short line inside).2
  · have most := length_lt_extent last
    rw [extent_splitOn] at most
    omega

theorem flatten_set (front back : List (List UInt8)) (old new : UInt8) :
    (front ++ [old] :: back).flatten.set front.flatten.length new = (front ++ [new] :: back).flatten := by
  simp

theorem Wrap.Lined.break (lined : w.Lined src width broken cur rest)
    (same : w.s.length = src.length) (shortRuns : ∀ run ∈ Strings.runs src, run.length < width)
    (full : cur.length = width) :
    match wrapBreak src width 0 w with
    | .goes after => ∃ broken cur, after.Lined src width broken cur rest ∧ cur.length < width
    | .returns s => 0 ∉ s → Short width s := by
  cases onLine : w.spaceOnLine with
  | false =>
    -- The line would be part of a run that is not short.
    exfalso
    obtain ⟨front, whole, starts⟩ := lined.runs
    have spaceless := lined.spaceless onLine
    have clearRun : ∀ char ∈ cur, separates char = false := by
      intro char listed
      have noSpace : char ≠ [space] := fun same => spaceless (same ▸ listed)
      have noNewline : char ≠ [newline] := fun same => lined.one (same ▸ listed)
      simp [separates, noSpace, noNewline]
    obtain ⟨run, listed, begins⟩ := @exists_mem_splitOnP _ separates front cur rest starts clearRun
    rw [← whole] at listed
    have most := begins.length_le
    have short := shortRuns run listed
    omega
  | true =>
    obtain ⟨front, back, rfl, noSpace, last, spaceCounter⟩ := lined.spaces onLine
    rw [length_append, length_cons] at full
    have broke : w.s.set (closed [newline] broken ++ front).flatten.length newline =
        (closed [newline] (broken ++ [front]) ++ (back ++ rest)).flatten := by
      rw [lined.s, closed_snoc]
      have set := flatten_set (closed [newline] broken ++ front) (back ++ rest) space newline
      simp only [append_assoc, cons_append] at set ⊢
      exact set
    have divided : Divided (closed [newline] (broken ++ [front]) ++ (back ++ rest)) := by
      have replaced := @Divided.replace (closed [newline] broken ++ front) (back ++ rest) [space]
        [newline] (by simpa using lined.divided) rfl rfl
      rw [closed_snoc]
      simpa using replaced
    have short : ∀ line ∈ broken ++ [front], [newline] ∉ line ∧ line.length < width := by
      intro line listed
      rcases mem_append.1 listed with inside | new
      · exact lined.short line inside
      · rw [mem_singleton.1 new]
        exact ⟨fun ends => lined.one (mem_append_left _ ends), by omega⟩
    unfold wrapBreak
    rw [last]
    dsimp only
    rw [if_pos (.inl rfl), onLine, broke]
    split
    · rename_i after goes
      split at goes
      · cases goes
      · cases goes
        refine ⟨broken ++ [front], back, ⟨rfl, divided, ?_, lined.tail, ?_, short, ?_, ?_,
          (fun on => nomatch on), fun _ => noSpace⟩, by omega⟩
        · dsimp only
          rw [if_pos rfl, lined.place, closed_snoc]
          simp
        · dsimp only
          rw [if_pos rfl, lined.counter, spaceCounter, length_append, length_cons]
          omega
        · exact fun ends => lined.one (mem_append_right _ (mem_cons_of_mem _ ends))
        · obtain ⟨head, whole, -⟩ := lined.runs
          refine ⟨head ++ (front ++ [[space]]), ?_, .inr ⟨head ++ front, [space], ?_, rfl⟩⟩
          · rw [whole]
            simp
          · rw [append_assoc]
    · rename_i out returns
      split at returns
      · rename_i little
        cases returns
        intro clear
        refine short_closed divided clear short ?_
        have most := divided.behind.length_le
        have length := congrArg List.length lined.s
        rw [same] at length
        simp only [flatten_append, flatten_cons, length_append, length_singleton] at length little most ⊢
        omega
      · cases returns

theorem Wrap.Lined.count {char : List UInt8} (lined : w.Lined src width broken cur (char :: rest))
    (first : byteAt src w.place = byteAt char 0)
    (tail : src.drop (w.place + char.length) = rest.flatten) (few : cur.length < width) :
    if byteAt char 0 = newline then
      Wrap.Lined src width { wrapCount src w with place := w.place + char.length }
        (broken ++ [cur]) [] rest else
      Wrap.Lined src width { wrapCount src w with place := w.place + char.length }
        broken (cur ++ [char]) rest := by
  have behind : Divided (char :: rest) := by
    have all := lined.divided
    rw [← append_assoc] at all
    exact all.behind
  obtain ⟨front, whole, starts⟩ := lined.runs
  have place : w.place + char.length = (closed [newline] broken ++ (cur ++ [char])).flatten.length := by
    rw [lined.place]
    simp [add_assoc]
  by_cases ends : byteAt char 0 = newline
  · -- The line is complete.
    have single : char = [newline] := by
      have one := behind.single (by rw [ends]; decide)
      rwa [ends] at one
    subst single
    have notSpace : newline ≠ space := by decide
    have counted : wrapCount src w = { w with counter := 0, lines := w.lines + 1, spaceOnLine := false } := by
      unfold wrapCount
      rw [first]
      exact (if_neg notSpace).trans (if_pos rfl)
    rw [if_pos ends, counted]
    have regroup : closed [newline] broken ++ (cur ++ [newline] :: rest) =
        closed [newline] (broken ++ [cur]) ++ ([] ++ rest) := by
      rw [closed_snoc]
      simp
    refine ⟨?_, ?_, ?_, tail, rfl, ?_, not_mem_nil, ?_, (fun on => nomatch on), fun _ => not_mem_nil⟩
    · dsimp only
      rw [lined.s, regroup]
    · rw [← regroup]
      exact lined.divided
    · dsimp only
      rw [place, closed_snoc]
      simp
    · intro line listed
      rcases mem_append.1 listed with inside | new
      · exact lined.short line inside
      · rw [mem_singleton.1 new]
        exact ⟨lined.one, few⟩
    · refine ⟨front ++ (cur ++ [[newline]]), ?_, .inr ⟨front ++ cur, [newline], ?_, rfl⟩⟩
      · rw [whole]
        simp
      · rw [append_assoc]
  · -- The line goes on.
    have regroup : closed [newline] broken ++ (cur ++ char :: rest) =
        closed [newline] broken ++ ((cur ++ [char]) ++ rest) := by simp
    have one : [newline] ∉ cur ++ [char] := by
      rw [mem_append, mem_singleton, not_or]
      exact ⟨lined.one, fun same => ends (by rw [← same]; rfl)⟩
    have runs : ∃ front, chars src = front ++ ((cur ++ [char]) ++ rest) ∧ (front = [] ∨
        ∃ others separator, front = others ++ [separator] ∧ separates separator = true) :=
      ⟨front, by rw [whole]; simp, starts⟩
    have counter : w.counter + 1 = (cur ++ [char]).length := by
      rw [lined.counter, length_append, length_singleton]
    have divided : Divided (closed [newline] broken ++ ((cur ++ [char]) ++ rest)) := regroup ▸ lined.divided
    have s : w.s = (closed [newline] broken ++ ((cur ++ [char]) ++ rest)).flatten := regroup ▸ lined.s
    rw [if_neg ends]
    by_cases isSpace : byteAt char 0 = space
    · have single : char = [space] := by
        have alone := behind.single (by rw [isSpace]; decide)
        rwa [isSpace] at alone
      have counted : wrapCount src w =
          { w with
            lastSpace := some w.place
            counter := w.counter + 1
            spaceCounter := w.counter + 1
            spaceOnLine := true } := by
        unfold wrapCount
        rw [first]
        exact if_pos isSpace
      rw [counted]
      refine ⟨s, divided, place, tail, counter, lined.short, one, runs, fun _ => ?_, fun off => nomatch off⟩
      refine ⟨cur, [], by rw [single], not_mem_nil, ?_, ?_⟩
      · exact congrArg some lined.place
      · exact congrArg (· + 1) lined.counter
    · have counted : wrapCount src w = { w with counter := w.counter + 1 } := by
        unfold wrapCount
        rw [first]
        exact (if_neg isSpace).trans (if_neg ends)
      have other : [space] ≠ char := fun same => isSpace (by rw [← same]; rfl)
      rw [counted]
      refine ⟨s, divided, place, tail, counter, lined.short, one, runs, fun on => ?_, fun off => ?_⟩
      · obtain ⟨head, back, rfl, noSpace, last, spaceCounter⟩ := lined.spaces on
        refine ⟨head, back ++ [char], by simp, ?_, last, spaceCounter⟩
        rw [mem_append, mem_singleton, not_or]
        exact ⟨noSpace, other⟩
      · rw [mem_append, mem_singleton, not_or]
        exact ⟨lined.spaceless off, other⟩

theorem Wrap.Lined.turn (lined : w.Lined src width broken cur rest) (clear : 0 ∉ src)
    (same : w.s.length = src.length) (shortRuns : ∀ run ∈ Strings.runs src, run.length < width)
    (few : cur.length < width) (more : w.place < src.length) :
    match wrapTurn src width 0 w with
    | .goes after => ∃ broken cur rest, after.Lined src width broken cur rest ∧ cur.length < width
    | .returns s => 0 ∉ s → Short width s := by
  have clearTail : 0 ∉ rest.flatten := fun zero =>
    clear (mem_of_mem_drop (lined.tail.symm ▸ zero))
  have behind : Divided rest := by
    have all := lined.divided
    rw [← append_assoc] at all
    exact all.behind
  cases rest with
  | nil =>
    have none := congrArg List.length lined.tail
    rw [length_drop] at none
    simp only [flatten_nil, length_nil] at none
    omega
  | cons char rest =>
    obtain ⟨length, lead⟩ := behind.charLen clearTail
    rw [← lined.tail] at length lead
    have first : byteAt src w.place = byteAt char 0 := by
      rw [← lead, byteAt, byteAt, getD_eq_getElem?_getD, getD_eq_getElem?_getD, getElem?_drop, add_zero]
    have tail : src.drop (w.place + char.length) = rest.flatten := by
      rw [← drop_drop, lined.tail, flatten_cons, drop_left]
    have counted := lined.count first tail few
    unfold wrapTurn
    rw [length, first]
    by_cases ends : byteAt char 0 = newline
    · rw [if_pos ends] at counted
      by_cases early : (src.length : Int) - w.place ≤ width
      · -- What is left is shorter than a line.
        rw [if_pos ⟨ends, early⟩]
        intro clear
        have written := counted.s
        dsimp only at written
        rw [wrapCount_s, nil_append] at written
        have divided := counted.divided
        rw [nil_append] at divided
        rw [written] at clear ⊢
        refine short_closed divided clear counted.short ?_
        have most := divided.behind.length_le
        have left := congrArg List.length tail
        have positive := length_pos_iff.2 behind.1
        rw [length_drop] at left
        omega
      · rw [if_neg fun both => early both.2]
        dsimp only
        have zero := counted.counter
        dsimp only [length_nil] at zero
        rw [if_neg (by omega)]
        exact ⟨_, _, _, counted, by rw [length_nil]; omega⟩
    · rw [if_neg ends] at counted
      rw [if_neg fun both => ends both.1]
      dsimp only
      have count := counted.counter
      dsimp only at count
      rw [length_append, length_singleton] at count
      by_cases full : (width : Int).toNat ≤ (wrapCount src w).counter
      · rw [if_pos full]
        have breaks := counted.break (by dsimp only; rw [wrapCount_s]; exact same) shortRuns
          (by rw [length_append, length_singleton]; omega)
        split at breaks
        · rename_i after goes
          rw [goes]
          obtain ⟨broken, cur, after, short⟩ := breaks
          exact ⟨_, _, _, after, short⟩
        · rename_i out returns
          rw [returns]
          exact breaks
      · rw [if_neg full]
        exact ⟨_, _, _, counted, by rw [length_append, length_singleton]; omega⟩

end Lined

theorem Wrapped.refl (src : List UInt8) : Wrapped src src := ⟨rfl, fun _ => .inl rfl⟩

theorem short_few {text : List UInt8} {width : Nat} (clear : 0 ∉ text) (few : text.length < width) :
    Short width text := by
  obtain ⟨divided, whole⟩ := chars_divided clear
  have most := divided.length_le
  rw [whole] at most
  have same : (closed [newline] [] ++ chars text).flatten = text := whole
  have short := @short_closed width (chars text) [] divided (by rw [same]; exact clear)
    (fun _ listed => nomatch listed) (by omega)
  rwa [same] at short

/-- Without a limit of lines, and with short runs, the lines of the state are short. -/
def Wrap.Lines (src : List UInt8) (lineWidth : Int) (maxLines : UInt32) (w : Wrap) : Prop :=
  maxLines = 0 → ∀ width : Nat, lineWidth = width → (∀ run ∈ runs src, run.length < width) →
    ∃ broken cur rest, w.Lined src width broken cur rest ∧ cur.length < width

theorem wrapLoop_wraps (src : Str) (lineWidth : Int) (maxLines : UInt32) :
    ∃ fuel out, wrapLoop src.bytes lineWidth maxLines fuel (.start src.bytes) =
        some (src.bytes.length, out) ∧ Wrapped src.bytes out ∧
      (maxLines = 0 → ∀ width : Nat, lineWidth = width →
        (∀ run ∈ runs src.bytes, run.length < width) → Short width out) := by
  obtain ⟨divided, whole⟩ := chars_divided src.clear
  have kept : (Wrap.start src.bytes).Kept src.bytes 0 :=
    ⟨.refl _, zero_le _, le_refl _, fun _ none => nomatch none⟩
  refine wrapLoop_returns (Wrap.Lines src.bytes lineWidth maxLines) (fun out => maxLines = 0 →
    ∀ width : Nat, lineWidth = width → (∀ run ∈ runs src.bytes, run.length < width) →
      Short width out) src.clear ?_ ?_ kept ?_
  · -- A turn keeps the lines short.
    intro base w kept holds more
    cases result : wrapTurn src.bytes lineWidth maxLines w with
    | goes after =>
      dsimp only
      rintro rfl width rfl shortRuns
      obtain ⟨broken, cur, rest, lined, few⟩ := holds rfl width rfl shortRuns
      have turn := lined.turn src.clear kept.wrapped.1 shortRuns few more
      rw [result] at turn
      exact turn
    | returns s =>
      dsimp only
      rintro wrapped rfl width rfl shortRuns
      obtain ⟨broken, cur, rest, lined, few⟩ := holds rfl width rfl shortRuns
      have turn := lined.turn src.clear kept.wrapped.1 shortRuns few more
      rw [result] at turn
      exact turn (wrapped.clear src.clear)
  · -- At the end the current line is the last one.
    rintro base w kept holds last rfl width rfl shortRuns
    obtain ⟨broken, cur, rest, lined, few⟩ := holds rfl width rfl shortRuns
    have none : rest.flatten = [] := by rw [← lined.tail, last, drop_length]
    have clear := kept.wrapped.clear src.clear
    have divided := lined.divided
    have written := lined.s
    have behind := divided.behind.behind.length_le
    rw [none] at behind
    obtain rfl := eq_nil_of_length_eq_zero (le_zero.1 behind)
    rw [append_nil] at divided written
    rw [written] at clear ⊢
    exact short_closed divided clear lined.short few
  · rintro rfl width rfl shortRuns
    -- There is a run, if only an empty one.
    have positive : 0 < width := by
      cases pieces : runs src.bytes with
      | nil => exact absurd pieces (splitOnP_ne_nil _ _)
      | cons run others => exact lt_of_le_of_lt (zero_le _) (shortRuns run (pieces ▸ mem_cons_self))
    refine ⟨[], [], chars src.bytes, ⟨whole.symm, divided, rfl, ?_, rfl, (fun _ none => nomatch none),
      not_mem_nil, ⟨[], rfl, .inl rfl⟩, (fun on => nomatch on), fun _ => not_mem_nil⟩,
      positive⟩
    rw [whole]
    rfl

/-- A call with a sufficient destination returns: the output differs from the source only where spaces
became ends of lines, and without a limit of lines its lines are shorter than the width if the runs of
the source are. -/
theorem wordWrap_wraps (src : Str) (lineWidth : Int) (maxLines : UInt32) {len : Nat}
    (room : src.bytes.length < len) :
    ∃ fuel out, wordWrap fuel len src lineWidth maxLines = some (src.bytes.length, some out) ∧
      Wrapped src.bytes out ∧
      (maxLines = 0 → (∀ run ∈ runs src.bytes, (run.length : Int) < lineWidth) →
        ∀ line ∈ lines out, (line.length : Int) < lineWidth) := by
  have sufficient : ¬len < src.bytes.length + 1 := by omega
  by_cases early : lineWidth < 0 ∨ (src.bytes.length : Int) < lineWidth
  · refine ⟨0, src.bytes, ?_, .refl _, fun _ shortRuns line listed => ?_⟩
    · rw [wordWrap, if_neg sufficient, if_pos early]
    · rcases early with negative | little
      · -- No run is shorter than a negative width.
        exfalso
        cases pieces : runs src.bytes with
        | nil => exact absurd pieces (splitOnP_ne_nil _ _)
        | cons run others =>
          have short := shortRuns run (pieces ▸ mem_cons_self)
          omega
      · have short := @short_few _ (src.bytes.length + 1) src.clear (lt_succ_self _) line listed
        omega
  · obtain ⟨fuel, out, loops, wrapped, short⟩ := wrapLoop_wraps src lineWidth maxLines
    refine ⟨fuel, out, ?_, wrapped, fun unlimited shortRuns line listed => ?_⟩
    · rw [wordWrap, if_neg sufficient, if_neg early]
      exact congrArg (Option.map _) loops
    · have width : lineWidth = (lineWidth.toNat : Int) := by omega
      have few := short unlimited lineWidth.toNat width (fun run inside => by
        have := shortRuns run inside
        omega) line listed
      omega

/-- Three words in lines of less than six characters. -/
theorem wordWrap_words :
    ∃ fuel out, wordWrap fuel 12 ⟨[0x61, 0x62, 0x20, 0x63, 0x64, 0x20, 0x65, 0x66], by decide⟩ 6 0 =
      some (8, some out) ∧ out.length = 8 := by
  obtain ⟨fuel, out, returns, wrapped, -⟩ := wordWrap_wraps
    ⟨[0x61, 0x62, 0x20, 0x63, 0x64, 0x20, 0x65, 0x66], by decide⟩ 6 0 (show 8 < 12 by decide)
  exact ⟨fuel, out, returns, wrapped.1⟩

end Libretro.Strings
