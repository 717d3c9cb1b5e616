import Libretro.Library.CString

/-! Building a string piece by piece in a buffer of fixed size. -/

namespace Libretro.Strings

open CString List Nat

/-- A source is copied to a place as far as so many bytes have room for it and its terminator; its
length is returned. -/
def strlcpy (s : List UInt8) (place : Nat) (source : Str) (len : Nat) : Nat × List UInt8 :=
  (source.bytes.length, if len = 0 then s else splice s place (source.bytes.take (len - 1) ++ [0]))

/-- What a call returns, and the buffer and the position it leaves. -/
structure Appended where
  result : Int
  buffer : List UInt8
  pos : Nat
deriving DecidableEq

/-- A source, unless it is missing, is appended at the position. -/
def strlcpyAppend (s : List UInt8) (pos : Nat) (src : Option Str) : Appended :=
  match src with
  | none => ⟨-1, s, pos⟩
  | some src =>
    let len := s.length
    if len = 0 then ⟨-1, s, pos⟩
    else if len ≤ pos then ⟨-1, s, len - 1⟩
    else
      let remaining := len - pos
      let (n, s) := strlcpy s pos src remaining
      if remaining ≤ n then ⟨-1, s, len - 1⟩ else ⟨0, s, pos + n⟩

/-- The calls of a chain, each where the one before it has left the position. -/
def appendAll (s : List UInt8) (pos : Nat) : List Str → List Appended
  | [] => []
  | src :: rest =>
    let call := strlcpyAppend s pos (some src)
    call :: appendAll call.buffer call.pos rest

/-- The bytes of the strings, one after another. -/
def concatenation (sources : List Str) : List UInt8 := sources.flatMap Str.bytes

/-- A call that has failed is followed by calls that fail and leave the buffer as it is. -/
def Latched (calls : List Appended) : Prop :=
  calls.Pairwise fun earlier later =>
    earlier.result = -1 → later.result = -1 ∧ later.buffer = earlier.buffer

/-- What is behind strings that do not fit a buffer is not empty. -/
def NoneEmptyBehind (size : Nat) (sources : List Str) : Prop :=
  ∀ before after, sources = before ++ after → size ≤ (concatenation before).length →
    ∀ src ∈ after, src.bytes ≠ []

/-- A buffer that begins with a text as far as it has room for it, and the position behind that. -/
structure Begins (text s : List UInt8) (pos : Nat) : Prop where
  room : s ≠ []
  place : pos = min text.length (s.length - 1)
  front : s.take pos = text.take pos

/-- A buffer whose text has its terminator. -/
structure Ends (text s : List UInt8) (pos : Nat) : Prop extends Begins text s pos where
  zero : s[pos]? = some 0

section Calls

variable {text s : List UInt8} {pos : Nat}

theorem Begins.inside (begins : Begins text s pos) : pos < s.length := by
  have positive := length_pos_iff.2 begins.room
  have place := begins.place
  omega

theorem strlcpyAppend_eq (begins : Begins text s pos) (src : Str) : strlcpyAppend s pos (some src) =
      { result := if s.length ≤ pos + src.bytes.length then -1 else 0
        buffer := splice s pos (src.bytes.take (s.length - pos - 1) ++ [0])
        pos := pos + min src.bytes.length (s.length - pos - 1) } := by
  have inside := begins.inside
  have some : s.length - pos ≠ 0 := by omega
  unfold strlcpyAppend strlcpy
  dsimp only
  rw [if_neg (by omega), if_neg (Nat.not_le_of_lt inside), if_neg some]
  by_cases fails : s.length ≤ pos + src.bytes.length
  · rw [if_pos fails, if_pos (by omega), min_eq_right (by omega)]
    congr 1
    omega
  · rw [if_neg fails, if_neg (by omega), min_eq_left (by omega)]

/-- After a call the buffer holds the text with the source behind it, as far as there is room. -/
theorem strlcpyAppend_ends (begins : Begins text s pos) (src : Str) :
    Ends (text ++ src.bytes) (strlcpyAppend s pos (some src)).buffer (strlcpyAppend s pos (some src)).pos ∧
      (strlcpyAppend s pos (some src)).buffer.length = s.length := by
  have inside := begins.inside
  have place := begins.place
  rw [strlcpyAppend_eq begins]
  dsimp only
  have copied : (src.bytes.take (s.length - pos - 1)).length = min src.bytes.length (s.length - pos - 1) := by
    rw [length_take, min_comm]
  have taken : (s.take pos).length = pos := length_take_of_le (le_of_lt inside)
  have length : (splice s pos (src.bytes.take (s.length - pos - 1) ++ [0])).length = s.length := by
    simp only [splice, length_append, taken, copied, length_singleton, length_drop]
    omega
  have written : splice s pos (src.bytes.take (s.length - pos - 1) ++ [0]) =
      (s.take pos ++ src.bytes.take (s.length - pos - 1)) ++
        0 :: s.drop (pos + (src.bytes.take (s.length - pos - 1) ++ [0]).length) := by
    simp [splice]
  have front : (s.take pos ++ src.bytes.take (s.length - pos - 1)).length =
      pos + min src.bytes.length (s.length - pos - 1) := by
    rw [length_append, taken, copied]
  refine ⟨⟨⟨?_, ?_, ?_⟩, ?_⟩, length⟩
  · intro empty
    rw [empty] at length
    exact begins.room (eq_nil_of_length_eq_zero length.symm)
  · rw [length, length_append]
    omega
  · -- Either the whole text is in the buffer, or there is no room for anything behind it.
    rw [written, ← front, take_left, front, begins.front]
    rcases lt_or_ge text.length s.length with fits | full
    rotate_left
    · have last : s.length - pos - 1 = 0 := by omega
      rw [last, Nat.min_zero, Nat.add_zero, take_zero, append_nil, take_append_of_le_length (by omega)]
    · have whole : pos = text.length := by omega
      rw [take_of_length_le (le_of_eq whole.symm), whole, take_length_add_append]
      congr 1
      rcases le_total src.bytes.length (s.length - text.length - 1) with short | long
      · rw [min_eq_left short, take_of_length_le short, take_length]
      · rw [min_eq_right long]
  · rw [written, ← front, getElem?_append_right (Nat.le_refl _), Nat.sub_self]
    rfl

theorem strlcpyAppend_full (ends : Ends text s pos) (full : s.length ≤ text.length) (src : Str) :
    (strlcpyAppend s pos (some src)).buffer = s ∧
      ((strlcpyAppend s pos (some src)).result = -1 ↔ src.bytes ≠ []) := by
  have inside := ends.inside
  have place := ends.place
  have last : s.length - pos - 1 = 0 := by omega
  rw [strlcpyAppend_eq ends.toBegins]
  dsimp only
  constructor
  · -- The only byte that is written is the terminator, which is there.
    rw [last, take_zero, nil_append, splice, length_singleton]
    have split := take_append_drop pos s
    rw [drop_eq_getElem_cons inside] at split
    have zero : s[pos] = 0 := by
      have found := ends.zero
      rw [getElem?_eq_getElem inside] at found
      exact Option.some.inj found
    rw [zero] at split
    rw [List.append_assoc]
    exact split
  · by_cases empty : src.bytes = []
    · rw [empty, length_nil, Nat.add_zero, if_neg (Nat.not_le_of_lt inside)]
      simp
    · have positive := length_pos_iff.2 empty
      rw [if_pos (by omega)]
      simp [empty]

theorem appendAll_full (ends : Ends text s pos) (full : s.length ≤ text.length) (sources : List Str) :
    (∀ call ∈ appendAll s pos sources, call.buffer = s) ∧
      ((∀ call ∈ appendAll s pos sources, call.result = -1) ↔ ∀ src ∈ sources, src.bytes ≠ []) := by
  -- Every call leaves the buffer and the text that does not fit it.
  induction sources generalizing text pos with
  | nil => simp [appendAll]
  | cons src rest ih =>
    obtain ⟨same, fails⟩ := strlcpyAppend_full ends full src
    obtain ⟨after, -⟩ := strlcpyAppend_ends ends.toBegins src
    rw [same] at after
    obtain ⟨buffers, results⟩ := ih after (by rw [length_append]; omega)
    rw [appendAll, same]
    constructor
    · intro call listed
      rcases mem_cons.1 listed with rfl | later
      · exact same
      · exact buffers call later
    · rw [forall_mem_cons, forall_mem_cons, fails, results]

theorem appendAll_latched (begins : Begins text s pos) (fits : text.length < s.length) (sources : List Str) :
    Latched (appendAll s pos sources) ↔ ∀ before after, sources = before ++ after →
        s.length ≤ text.length + (concatenation before).length → ∀ src ∈ after, src.bytes ≠ [] := by
  induction sources generalizing text s pos with
  | nil =>
    refine ⟨fun _ before after split _ src listed => ?_, fun _ => .nil⟩
    obtain ⟨-, rfl⟩ := append_eq_nil_iff.1 split.symm
    cases listed
  | cons src rest ih =>
    have place := begins.place
    obtain ⟨after, length⟩ := strlcpyAppend_ends begins src
    have result := congrArg Appended.result (strlcpyAppend_eq begins src)
    dsimp only at result
    rw [appendAll]
    generalize strlcpyAppend s pos (some src) = call at after length result ⊢
    -- What comes behind the first string is what comes behind it and those that follow.
    have behind : (∀ before later, src :: rest = before ++ later →
          s.length ≤ text.length + (concatenation before).length → ∀ src ∈ later, src.bytes ≠ []) ↔
        ∀ before later, rest = before ++ later →
          s.length ≤ (text ++ src.bytes).length + (concatenation before).length →
            ∀ src ∈ later, src.bytes ≠ [] := by
      have lengths : ∀ before : List Str, (concatenation (src :: before)).length =
          src.bytes.length + (concatenation before).length := fun before => by
        rw [concatenation, flatMap_cons, length_append]
        rfl
      constructor
      · intro holds before later split past
        refine holds (src :: before) later (by rw [split]; rfl) ?_
        rw [lengths]
        rw [length_append] at past
        omega
      · intro holds before later split past
        cases before with
        | nil =>
          exfalso
          simp only [concatenation, flatMap_nil, length_nil] at past
          omega
        | cons first before =>
          obtain ⟨rfl, tail⟩ := List.cons.inj split
          refine holds before later tail ?_
          rw [lengths] at past
          rw [length_append]
          omega
    rw [behind, Latched, pairwise_cons]
    by_cases past : s.length ≤ text.length + src.bytes.length
    · -- The first string does not fit any more.
      have full : call.buffer.length ≤ (text ++ src.bytes).length := by
        rw [length, length_append]
        exact past
      obtain ⟨buffers, results⟩ := appendAll_full after full rest
      have failed : call.result = -1 := by rw [result, if_pos (by omega)]
      constructor
      · rintro ⟨first, -⟩ before later rfl - other listed
        have all := results.1 fun one member => (first one member failed).1
        exact all other (mem_append_right _ listed)
      · intro holds
        have all := results.2 (holds [] rest rfl (by
          rw [length] at full
          exact le_add_right_of_le full))
        refine ⟨fun one member _ => ⟨all one member, buffers one member⟩, ?_⟩
        refine pairwise_of_forall_mem_list fun one member other listed _ => ⟨all other listed, ?_⟩
        rw [buffers other listed, buffers one member]
    · -- The first string fits, and succeeds.
      have succeeded : call.result ≠ -1 := by
        rw [result, if_neg (by omega)]
        decide
      have next := ih after.toBegins (by rw [length, length_append]; omega)
      rw [length] at next
      rw [← next]
      exact ⟨fun both => both.2, fun latched => ⟨fun _ _ failed => absurd failed succeeded, latched⟩⟩

theorem appendAll_ends (begins : Begins text s pos) {sources : List Str} {i : Nat} {call : Appended}
    (calls : (appendAll s pos sources)[i]? = some call) :
    Ends (text ++ concatenation (sources.take (i + 1))) call.buffer call.pos ∧
      call.buffer.length = s.length := by
  -- The calls in front of it are followed one by one.
  induction sources generalizing text s pos i with
  | nil => cases calls
  | cons src rest ih =>
    obtain ⟨after, length⟩ := strlcpyAppend_ends begins src
    cases i with
    | zero =>
      obtain rfl := Option.some.inj calls
      simpa [concatenation] using And.intro after length
    | succ i =>
      obtain ⟨ends, same⟩ := ih after.toBegins calls
      rw [List.append_assoc] at ends
      exact ⟨ends, same.trans length⟩

theorem Ends.shows (ends : Ends text s pos) : text.take (s.length - 1) ++ [0] <+: s := by
  have inside := ends.inside
  have zero : s[pos] = 0 := by
    have found := ends.zero
    rw [getElem?_eq_getElem inside] at found
    exact Option.some.inj found
  have front : text.take (s.length - 1) = s.take pos := by
    have short : (text.take (s.length - 1)).length ≤ text.length := by
      rw [length_take]
      exact min_le_right _ _
    rw [ends.front, ends.place, ← take_take, take_of_length_le short]
  refine ⟨s.drop (pos + 1), ?_⟩
  rw [front, List.append_assoc, singleton_append, ← zero, ← drop_eq_getElem_cons inside, take_append_drop]

theorem appendAll_nil {sources : List Str} {call : Appended} (calls : call ∈ appendAll [] 0 sources) :
    call = ⟨-1, [], 0⟩ := by
  induction sources with
  | nil => cases calls
  | cons src rest ih =>
    rcases mem_cons.1 calls with rfl | later
    · rfl
    · exact ih later

end Calls

/-- A chain of calls does what it should: the buffer always holds what was appended, as far as there
is room, with a terminator, the position stays inside the buffer, and a failure is latched. -/
structure Appends (s : List UInt8) (sources : List Str) : Prop where
  shows : s ≠ [] → ∀ i call, (appendAll s 0 sources)[i]? = some call →
    (concatenation (sources.take (i + 1))).take (s.length - 1) ++ [0] <+: call.buffer
  inside : ∀ call ∈ appendAll s 0 sources, call.pos ≤ s.length
  latched : Latched (appendAll s 0 sources)

/-- A chain of calls does what it should exactly if no empty string is appended behind strings that
do not fit the buffer. -/
theorem appends_iff (s : List UInt8) (sources : List Str) :
    Appends s sources ↔ s = [] ∨ NoneEmptyBehind s.length sources := by
  by_cases room : s = []
  · -- Every call fails.
    subst room
    refine ⟨fun _ => .inl rfl, fun _ => ⟨fun some => absurd rfl some, fun call listed => ?_, ?_⟩⟩
    · rw [appendAll_nil listed]
      exact Nat.le_refl 0
    · refine pairwise_of_forall_mem_list fun one first other second _ => ?_
      rw [appendAll_nil first, appendAll_nil second]
      exact ⟨rfl, rfl⟩
  · have positive := length_pos_iff.2 room
    have begins : Begins [] s 0 := ⟨room, (Nat.zero_min _).symm, rfl⟩
    have latched := appendAll_latched begins positive sources
    simp only [length_nil, Nat.zero_add] at latched
    constructor
    · intro appends
      exact .inr (latched.1 appends.latched)
    · rintro (empty | nonempty)
      · exact absurd empty room
      refine ⟨fun _ i call calls => ?_, fun call listed => ?_, latched.2 nonempty⟩
      · obtain ⟨ends, length⟩ := appendAll_ends begins calls
        have shows := ends.shows
        rwa [nil_append, length] at shows
      · obtain ⟨i, calls⟩ := mem_iff_getElem?.1 listed
        obtain ⟨ends, length⟩ := appendAll_ends begins calls
        have inside := ends.inside
        omega

/-- Two letters do not fit two bytes, and the empty string behind them does. -/
theorem appends_emptyBehind : ¬Appends [0, 0] [⟨[0x61, 0x62], by decide⟩, ⟨[], by decide⟩] := by
  intro appends
  have latched : ((-1 : Int) = -1 → (0 : Int) = -1 ∧ _) := rel_of_pairwise_cons appends.latched
    (mem_singleton.2 rfl)
  exact absurd (latched rfl).1 (by decide)

end Libretro.Strings
