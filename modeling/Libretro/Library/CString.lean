import Mathlib.Data.List.TakeWhile

/-! Strings in a buffer of bytes, as C has them: they begin at a place and end at a zero byte, and a
buffer has a zero byte behind its last. -/

namespace CString

open List Nat

/-- The byte at a place. -/
def byteAt (buffer : List UInt8) (place : Nat) : UInt8 := buffer.getD place 0

/-- The first place from one on whose byte is not wanted. -/
def skip (wanted : UInt8 → Bool) (buffer : List UInt8) (place : Nat) : Nat :=
  place + ((buffer.drop place).takeWhile wanted).length

/-- The bytes of the string that begins at a place. -/
def string (buffer : List UInt8) (place : Nat) : List UInt8 := (buffer.drop place).takeWhile (· ≠ 0)

/-- The place where the string that begins at a place ends. -/
def stringEnd (buffer : List UInt8) (place : Nat) : Nat := skip (· ≠ 0) buffer place

/-- The first place of a byte in the string that begins at a place. -/
def strchr (buffer : List UInt8) (place : Nat) (byte : UInt8) : Option Nat :=
  let found := skip (fun other => other ≠ byte && other ≠ 0) buffer place
  if byteAt buffer found = byte then some found else none

/-- The bytes from a place on. -/
def slice (buffer : List UInt8) (place length : Nat) : List UInt8 := (buffer.drop place).take length

/-- A buffer with bytes written from a place on. -/
def splice (buffer : List UInt8) (place : Nat) (bytes : List UInt8) : List UInt8 :=
  buffer.take place ++ bytes ++ buffer.drop (place + bytes.length)

section Places

variable {wanted : UInt8 → Bool} {buffer bytes : List UInt8} {place : Nat} {byte : UInt8}

theorem le_skip : place ≤ skip wanted buffer place := Nat.le_add_right ..

theorem skip_le (inside : place ≤ buffer.length) : skip wanted buffer place ≤ buffer.length := by
  have short := (takeWhile_sublist wanted (l := buffer.drop place)).length_le
  rw [length_drop] at short
  rw [skip]
  omega

theorem slice_skip : slice buffer place (skip wanted buffer place - place) =
      (buffer.drop place).takeWhile wanted := by
  rw [skip, Nat.add_sub_cancel_left, slice]
  exact prefix_iff_eq_take.1 (List.takeWhile_prefix wanted) |>.symm

theorem skip_stops (zero : wanted 0 = false) : wanted (byteAt buffer (skip wanted buffer place)) = false := by
  rw [byteAt, skip, getD_eq_getElem?_getD, ← getElem?_drop]
  generalize buffer.drop place = bytes
  -- The induction follows the bytes that are skipped.
  induction bytes with
  | nil => exact zero
  | cons first rest ih =>
    cases taken : wanted first with
    | true => simpa [taken] using ih
    | false => simp [taken]

theorem slice_stringEnd : slice buffer place (stringEnd buffer place - place) = string buffer place :=
  slice_skip

theorem byteAt_strchr {found : Nat} (finds : strchr buffer place byte = some found) :
    byteAt buffer found = byte := by
  rw [strchr] at finds
  split at finds
  · rename_i same
    rwa [← Option.some.inj finds]
  · cases finds

theorem strchr_some {found : Nat} (finds : strchr buffer place byte = some found) :
    found = skip (fun other => other ≠ byte && other ≠ 0) buffer place := by
  rw [strchr] at finds
  split at finds
  · exact (Option.some.inj finds).symm
  · cases finds

/-- The string at a place whose bytes are not zero up to a zero byte. -/
theorem string_eq {length : Nat} (clear : ∀ byte ∈ slice buffer place length, byte ≠ 0)
    (ends : byteAt buffer (place + length) = 0) (inside : place + length ≤ buffer.length) :
    string buffer place = slice buffer place length := by
  rw [byteAt, getD_eq_getElem?_getD, ← getElem?_drop] at ends
  have short : length ≤ (buffer.drop place).length := by
    rw [length_drop]
    omega
  rw [slice] at clear ⊢
  rw [string]
  clear inside
  generalize buffer.drop place = rest at clear ends short
  -- The induction follows the bytes of the string.
  induction length generalizing rest with
  | zero =>
    cases rest with
    | nil => rfl
    | cons first rest =>
      obtain rfl : first = 0 := ends
      rfl
  | succ length ih =>
    cases rest with
    | nil => cases short
    | cons first rest =>
      rw [take_succ_cons] at clear ⊢
      rw [takeWhile_cons_of_pos (by simpa using clear first mem_cons_self)]
      congr 1
      exact ih rest (fun byte listed => clear byte (mem_cons_of_mem _ listed)) ends
        (le_of_succ_le_succ short)

end Places

/-- A string: its bytes, none of which is zero. -/
structure Str where
  bytes : List UInt8
  clear : (0 : UInt8) ∉ bytes
deriving DecidableEq

/-- What a string takes in memory, its terminator included. -/
def Str.memory (text : Str) : List UInt8 := text.bytes ++ [0]

/-- The bytes of a buffer up to a place are as they were, and its length is. -/
structure Keeps (place : Nat) (buffer after : List UInt8) : Prop where
  length : after.length = buffer.length
  take : after.take place = buffer.take place

section Writes

variable {buffer after last bytes : List UInt8} {place other length : Nat} {byte : UInt8}

theorem Keeps.refl (place : Nat) (buffer : List UInt8) : Keeps place buffer buffer := ⟨rfl, rfl⟩

theorem Keeps.trans (first : Keeps place buffer after) (second : Keeps place after last) :
    Keeps place buffer last :=
  ⟨second.length.trans first.length, second.take.trans first.take⟩

variable (keeps : Keeps place buffer after)
include keeps

theorem Keeps.earlier (before : other ≤ place) : Keeps other buffer after := by
  refine ⟨keeps.length, ?_⟩
  have same := congrArg (List.take other) keeps.take
  rwa [take_take, take_take, min_eq_left before] at same

theorem Keeps.slice (before : other + length ≤ place) :
    slice after other length = slice buffer other length := by
  have reads : ∀ list : List UInt8, CString.slice list other length =
      ((list.take place).drop other).take length := by
    intro list
    rw [CString.slice, drop_take, take_take, min_eq_left (by omega)]
  rw [reads, reads, keeps.take]

theorem Keeps.byteAt (before : other < place) : byteAt after other = byteAt buffer other := by
  have reads : ∀ list : List UInt8, CString.byteAt list other = CString.byteAt (list.take place) other := by
    intro list
    rw [CString.byteAt, CString.byteAt, getD_eq_getElem?_getD, getD_eq_getElem?_getD,
      getElem?_take_of_lt before]
  rw [reads after, keeps.take, ← reads]

/-- A string that ends before the place is read as it was. -/
theorem Keeps.string (before : other + (string buffer other).length < place) :
    string after other = string buffer other := by
  have stops : CString.byteAt buffer (other + (CString.string buffer other).length) = 0 := by
    have stops := @skip_stops (· ≠ 0) buffer other rfl
    exact of_decide_eq_false (p := _ ≠ _) stops |> not_not.1
  by_cases inside : other ≤ buffer.length
  · have bound : other + (CString.string buffer other).length ≤ buffer.length := skip_le inside
    have whole : CString.slice buffer other (CString.string buffer other).length =
        CString.string buffer other := by
      have same := @slice_skip (· ≠ 0) buffer other
      rwa [skip, Nat.add_sub_cancel_left] at same
    have same : CString.slice after other (CString.string buffer other).length =
        CString.slice buffer other (CString.string buffer other).length := keeps.slice (by omega)
    rw [whole] at same
    rw [@string_eq after other (CString.string buffer other).length, same]
    · rw [same]
      intro byte listed
      simpa using (all_eq_true.1 all_takeWhile) byte listed
    · rw [keeps.byteAt before, stops]
    · rw [keeps.length]
      exact bound
  · rw [CString.string, CString.string, drop_eq_nil_of_le (by rw [keeps.length]; omega),
      drop_eq_nil_of_le (by omega)]

omit keeps

theorem keeps_set (behind : place ≤ other) : Keeps place buffer (buffer.set other byte) :=
  ⟨length_set, by rw [take_set_of_le behind]⟩

theorem slice_set (before : other < place) :
    slice (buffer.set other byte) place length = slice buffer place length := by
  rw [slice, slice, drop_set_of_lt before]

theorem byteAt_set_of_lt (before : other < place) :
    byteAt (buffer.set other byte) place = byteAt buffer place := by
  rw [byteAt, byteAt, getD_eq_getElem?_getD, getD_eq_getElem?_getD, getElem?_set_ne (Nat.ne_of_lt before)]

theorem byteAt_set : byteAt (buffer.set place 0) place = 0 := by
  rw [byteAt, getD_eq_getElem?_getD]
  by_cases inside : place < buffer.length
  · rw [getElem?_set_self inside]
    rfl
  · rw [getElem?_eq_none (by rw [length_set]; omega)]
    rfl

theorem keeps_splice (inside : place + bytes.length ≤ buffer.length) :
    Keeps place buffer (splice buffer place bytes) := by
  constructor
  · rw [splice, length_append, length_append, length_take, length_drop]
    omega
  · rw [splice, append_assoc, take_append_of_le_length (by rw [length_take]; omega),
      take_take, min_self]

theorem slice_splice (inside : place ≤ buffer.length) :
    slice (splice buffer place bytes) place bytes.length = bytes := by
  have long : (buffer.take place).length = place := by
    rw [length_take]
    omega
  rw [slice, splice, append_assoc, drop_append, drop_eq_nil_of_le (by omega), long,
    Nat.sub_self, nil_append, drop_zero, take_append_of_le_length (le_refl _),
    take_length]

end Writes

section Inside

variable {wanted : UInt8 → Bool} {front line back bytes : List UInt8} {place length : Nat} {byte : UInt8}

theorem byteAt_inside (ends : byteAt back 0 = 0) (inside : place ≤ line.length) :
    byteAt (front ++ (line ++ back)) (front.length + place) = byteAt line place := by
  simp only [byteAt, getD_eq_getElem?_getD] at ends ⊢
  rw [getElem?_append_right (Nat.le_add_right ..), Nat.add_sub_cancel_left]
  rcases lt_or_eq_of_le inside with before | rfl
  · rw [getElem?_append_left before]
  · rw [getElem?_append_right (le_refl _), Nat.sub_self, ends,
      getElem?_eq_none (le_refl _)]
    rfl

/-- Skipping stops at the end of a line. -/
theorem skip_inside (zero : wanted 0 = false) (ends : byteAt back 0 = 0) (inside : place ≤ line.length) :
    skip wanted (front ++ (line ++ back)) (front.length + place) = front.length + skip wanted line place := by
  have stops : back.takeWhile wanted = [] := by
    cases back with
    | nil => rfl
    | cons first rest =>
      obtain rfl : first = 0 := ends
      rw [takeWhile_cons_of_neg (by simp [zero])]
  have taken : ∀ rest : List UInt8, (rest ++ back).takeWhile wanted = rest.takeWhile wanted := by
    intro rest
    induction rest with
    | nil => exact stops
    | cons first rest ih => rw [cons_append, takeWhile_cons, takeWhile_cons, ih]
  rw [skip, skip, drop_append, drop_eq_nil_of_le (Nat.le_add_right ..), nil_append,
    Nat.add_sub_cancel_left, drop_append_of_le_length inside, taken, Nat.add_assoc]

theorem strchr_inside (ends : byteAt back 0 = 0) (inside : place ≤ line.length) :
    strchr (front ++ (line ++ back)) (front.length + place) byte =
      (strchr line place byte).map (front.length + ·) := by
  rw [strchr, strchr, skip_inside (by simp) ends inside, byteAt_inside ends (skip_le inside)]
  split <;> rfl

theorem set_inside (ends : byteAt back 0 = 0) (inside : place ≤ line.length) :
    (front ++ (line ++ back)).set (front.length + place) 0 = front ++ (line.set place 0 ++ back) := by
  rw [set_append_right _ _ (Nat.le_add_right ..), Nat.add_sub_cancel_left]
  rcases Nat.lt_or_eq_of_le inside with before | rfl
  · rw [set_append_left _ _ before]
  · rw [set_append_right _ _ (le_refl _), Nat.sub_self,
      set_eq_of_length_le (le_refl _)]
    cases back with
    | nil => rfl
    | cons first rest =>
      obtain rfl : first = 0 := ends
      rfl

theorem slice_inside (inside : place + length ≤ line.length) :
    slice (front ++ (line ++ back)) (front.length + place) length = slice line place length := by
  rw [slice, slice, drop_append, drop_eq_nil_of_le (Nat.le_add_right ..), nil_append,
    Nat.add_sub_cancel_left, drop_append_of_le_length (by omega),
    take_append_of_le_length (by rw [length_drop]; omega)]

theorem splice_inside (inside : place + bytes.length ≤ line.length) :
    splice (front ++ (line ++ back)) (front.length + place) bytes =
      front ++ (splice line place bytes ++ back) := by
  rw [splice, splice, take_append, take_of_length_le (Nat.le_add_right ..),
    Nat.add_sub_cancel_left, take_append_of_le_length (by omega), drop_append,
    drop_eq_nil_of_le (by omega), nil_append,
    show front.length + place + bytes.length - front.length = place + bytes.length by omega,
    drop_append_of_le_length inside]
  simp only [append_assoc]

theorem string_inside (ends : byteAt back 0 = 0) (inside : place ≤ line.length) :
    string (front ++ (line ++ back)) (front.length + place) = string line place := by
  have lengths : skip (· ≠ 0) (front ++ (line ++ back)) (front.length + place) =
      front.length + skip (· ≠ 0) line place := skip_inside rfl ends inside
  have bound : skip (· ≠ 0) line place ≤ line.length := skip_le inside
  have least : place ≤ skip (· ≠ 0) line place := le_skip
  rw [← slice_stringEnd, ← slice_stringEnd, stringEnd, stringEnd, lengths,
    show front.length + skip (· ≠ 0) line place - (front.length + place) =
      skip (· ≠ 0) line place - place by omega]
  exact slice_inside (by omega)

end Inside

section Parts

variable {front middle rest : List UInt8} {wanted : UInt8 → Bool} {byte : UInt8} {length : Nat}

theorem skip_front : skip wanted (front ++ rest) front.length =
    front.length + (rest.takeWhile wanted).length := by
  rw [skip, drop_left]

theorem byteAt_front : byteAt (front ++ byte :: rest) front.length = byte := by
  rw [byteAt, getD_eq_getElem?_getD, getElem?_append_right (Nat.le_refl _), Nat.sub_self]
  rfl

theorem lt_of_byteAt {buffer : List UInt8} {place : Nat} (nonzero : byteAt buffer place ≠ 0) :
    place < buffer.length := by
  by_contra beyond
  rw [byteAt, getD_eq_getElem?_getD, getElem?_eq_none (by omega)] at nonzero
  exact nonzero rfl

theorem slice_front : slice (front ++ (middle ++ rest)) front.length middle.length = middle := by
  rw [slice, drop_left, take_left]

theorem takeWhile_nonzero (clear : (0 : UInt8) ∉ front) :
    (front ++ rest).takeWhile (· ≠ 0) = front ++ rest.takeWhile (· ≠ 0) := by
  apply takeWhile_append_of_pos
  intro byte listed
  rw [decide_eq_true_eq]
  exact fun same => clear (same ▸ listed)

theorem takeWhile_absent (absent : byte ∉ front) : (front ++ byte :: rest).takeWhile (· ≠ byte) = front := by
  rw [takeWhile_append_of_pos, takeWhile_cons_of_neg (by simp), append_nil]
  intro other listed
  rw [decide_eq_true_eq]
  exact fun same => absent (same ▸ listed)

theorem strchr_front (absent : byte ∉ middle) (clear : (0 : UInt8) ∉ middle) :
    strchr (front ++ (middle ++ byte :: rest)) front.length byte = some (front.length + middle.length) := by
  have taken : (middle ++ byte :: rest).takeWhile (fun other => other ≠ byte && other ≠ 0) = middle := by
    rw [takeWhile_append_of_pos, takeWhile_cons_of_neg (by simp), append_nil]
    intro other listed
    rw [Bool.and_eq_true, decide_eq_true_eq, decide_eq_true_eq]
    exact ⟨fun same => absent (same ▸ listed), fun same => clear (same ▸ listed)⟩
  have there : byteAt (front ++ (middle ++ byte :: rest)) (front.length + middle.length) = byte := by
    rw [← append_assoc, ← length_append]
    exact byteAt_front
  rw [strchr, skip_front, taken]
  exact if_pos there

theorem mem_of_strchr {buffer : List UInt8} {place found : Nat} (nonzero : byte ≠ 0)
    (finds : strchr buffer place byte = some found) : byte ∈ buffer := by
  have there := byteAt_strchr finds
  rw [byteAt, getD_eq_getElem?_getD] at there
  cases shape : buffer[found]? with
  | none => rw [shape] at there; exact absurd there.symm nonzero
  | some other =>
    rw [shape] at there
    exact there ▸ mem_of_getElem? shape

end Parts

section Bytes

variable {wanted : UInt8 → Bool} {buffer front rest : List UInt8} {place : Nat} {byte : UInt8}

theorem string_cons (begins : string buffer place = byte :: rest) :
    byteAt buffer place = byte ∧ byte ≠ 0 ∧ string buffer (place + 1) = rest := by
  rw [string] at begins
  rw [byteAt, getD_eq_getElem?_getD, ← head?_drop, string, ← tail_drop]
  cases behind : buffer.drop place with
  | nil =>
    rw [behind] at begins
    cases begins
  | cons first later =>
    rw [behind] at begins
    by_cases zero : first = 0
    · rw [zero, takeWhile_cons_of_neg (by simp)] at begins
      cases begins
    · rw [takeWhile_cons_of_pos (by simpa using zero)] at begins
      obtain ⟨rfl, rfl⟩ := cons.inj begins
      exact ⟨rfl, zero, rfl⟩

theorem string_nil (ends : string buffer place = []) : byteAt buffer place = 0 := by
  have stops := @skip_stops (· ≠ 0) buffer place rfl
  rw [skip, ← string, ends] at stops
  exact of_decide_eq_false stops |> not_not.1

variable (begins : string buffer place = front ++ rest)
include begins

theorem string_append : string buffer (place + front.length) = rest := by
  -- The induction follows the first bytes.
  induction front generalizing place with
  | nil => exact begins
  | cons first front ih =>
    rw [length_cons, Nat.add_comm front.length 1, ← Nat.add_assoc]
    exact ih (string_cons begins).2.2

theorem slice_string : slice buffer place front.length = front := by
  have whole := takeWhile_append_dropWhile (p := (· ≠ 0)) (l := buffer.drop place)
  rw [← string, begins, append_assoc] at whole
  rw [slice, ← whole, take_left]

theorem byteAt_string {index : Nat}
    (inside : index < front.length) : byteAt buffer (place + index) ∈ front := by
  have split := (take_append_drop index front).symm
  rw [drop_eq_getElem_cons inside] at split
  have short : (front.take index).length = index := length_take_of_le (le_of_lt inside)
  rw [split, append_assoc] at begins
  have behind := string_append begins
  rw [short] at behind
  rw [(string_cons behind).1]
  exact getElem_mem inside

omit begins

theorem skip_string (zero : wanted 0 = false) :
    skip wanted buffer place = place + ((string buffer place).takeWhile wanted).length := by
  rw [skip, string, takeWhile_takeWhile]
  congr 3
  funext other
  by_cases same : other = 0
  · simp [same, zero]
  · simp [same]

end Bytes

end CString
