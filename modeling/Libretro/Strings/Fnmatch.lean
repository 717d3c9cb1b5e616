import Libretro.Library.Glob

/-! Matching of strings against wildcard patterns, rl_fnmatch, and the language of a pattern. Strings
are given by their bytes in front of the terminator. -/

namespace Libretro.Fnmatch

open Glob List Nat

/-- FNM_NOMATCH. -/
def noMatch : Nat := 1

/-- The sign for any number of characters. -/
def asterisk : UInt8 := 0x2A

/-- The sign for any one character. -/
def question : UInt8 := 0x3F

/-- The sign in front of a list of characters. -/
def openBracket : UInt8 := 0x5B

/-- The sign behind a list of characters. -/
def closeBracket : UInt8 := 0x5D

/-- The sign in front of a character that is taken as it is. -/
def backslash : UInt8 := 0x5C

/-- The loop over a list of characters, from behind its bracket: whether one of them matched, and what
follows the list; nothing if the pattern ends inside it. -/
def listLoop (char : UInt8) : Bool → List UInt8 → Option (Bool × List UInt8)
  | _, [] => none
  | charmatch, c :: rest =>
    if c = closeBracket then some (charmatch, rest)
    else listLoop char (charmatch || c == char) rest

/-- The loop behind asterisks, which gives up ever more characters of the string. -/
def starLoop (remaining : List UInt8 → Nat) : List UInt8 → Nat
  | [] => noMatch
  | char :: string => if remaining (char :: string) = 0 then 0 else starLoop remaining string

theorem listLoop_length {char : UInt8} {charmatch found : Bool} {rest after : List UInt8}
    (ends : listLoop char charmatch rest = some (found, after)) : after.length < rest.length := by
  -- The induction follows the loop over the characters of the list.
  induction rest generalizing charmatch with
  | nil => cases ends
  | cons c rest ih =>
    rw [listLoop] at ends
    split at ends
    · cases ends
      exact lt_succ_self _
    · exact lt_succ_of_lt (ih ends)

/-- rl_fnmatch: zero if the string matches the pattern. -/
def rlFnmatch (pattern string : List UInt8) : Nat :=
  match pattern with
  | [] => if string = [] then 0 else noMatch
  | c :: rest =>
    if c = asterisk then
      match _behind : rest.dropWhile (· == asterisk) with
      | [] => 0
      | next :: after => starLoop (fun string => rlFnmatch (next :: after) string) string
    else
      match string with
      | [] => noMatch
      | char :: string =>
        if c = openBracket then
          match _listed : listLoop char false rest with
          | some (true, after) => rlFnmatch after string
          | _ => noMatch
        else if c = question then rlFnmatch rest string
        else if c = backslash then
          match rest with
          | [] => noMatch
          | escaped :: after => if escaped = char then rlFnmatch after string else noMatch
        else if c = char then rlFnmatch rest string
        else noMatch
termination_by pattern.length
decreasing_by
  · have short := (List.dropWhile_sublist (· == asterisk) (l := rest)).length_le
    rw [_behind] at short
    exact Nat.lt_succ_of_le short
  · exact Nat.lt_succ_of_lt (listLoop_length _listed)
  · exact Nat.lt_succ_self _
  · exact Nat.lt_succ_of_lt (Nat.lt_succ_self _)
  · exact Nat.lt_succ_self _

/-- The pieces of a pattern; nothing if it ends inside a list or behind a backslash. -/
def pieces (pattern : List UInt8) : Option (List (Piece UInt8)) :=
  match pattern with
  | [] => some []
  | c :: rest =>
    if c = asterisk then (pieces rest).map (.star :: ·)
    else if c = question then (pieces rest).map (.any :: ·)
    else if c = openBracket then
      match _closed : rest.dropWhile (· ≠ closeBracket) with
      | [] => none
      | _ :: after => (pieces after).map (.oneOf (rest.takeWhile (· ≠ closeBracket)) :: ·)
    else if c = backslash then
      match rest with
      | [] => none
      | escaped :: after => (pieces after).map (.char escaped :: ·)
    else (pieces rest).map (.char c :: ·)
termination_by pattern.length
decreasing_by
  · exact Nat.lt_succ_self _
  · exact Nat.lt_succ_self _
  · have short := (List.dropWhile_sublist (· ≠ closeBracket) (l := rest)).length_le
    rw [_closed] at short
    exact Nat.lt_succ_of_lt (Nat.lt_of_succ_le short)
  · exact Nat.lt_succ_of_lt (Nat.lt_succ_self _)
  · exact Nat.lt_succ_self _

/-- The language of a pattern: that of its pieces, and no word where it has none. -/
def patternLanguage (pattern : List UInt8) : Language UInt8 := (pieces pattern).elim 0 language

section Language

variable {pattern rest string back : List UInt8} {piece : Piece UInt8} {c : UInt8}

theorem cons_mem_patternLanguage (begins : pieces pattern = (pieces rest).map (piece :: ·))
    (plain : piece ≠ .star) :
    c :: string ∈ patternLanguage pattern ↔ piece.Takes c ∧ string ∈ patternLanguage rest := by
  -- Both languages are empty where the rest has no pieces.
  rw [patternLanguage, patternLanguage, begins]
  cases pieces rest with
  | none => exact ⟨fun member => absurd member (Language.notMem_zero _),
      fun member => absurd member.2 (Language.notMem_zero _)⟩
  | some found => exact cons_mem_language plain

theorem mem_patternLanguage_star (begins : pieces pattern = (pieces rest).map (.star :: ·)) :
    string ∈ patternLanguage pattern ↔ ∃ back, back <:+ string ∧ back ∈ patternLanguage rest := by
  -- Both sides are empty where the rest has no pieces.
  rw [patternLanguage, patternLanguage, begins]
  cases pieces rest with
  | none => exact ⟨fun member => absurd member (Language.notMem_zero _),
      fun ⟨_, _, member⟩ => absurd member (Language.notMem_zero _)⟩
  | some found => exact mem_language_star

theorem not_mem_patternLanguage (broken : pieces pattern = none) : string ∉ patternLanguage pattern := by
  rw [patternLanguage, broken]
  exact Language.notMem_zero _

theorem pieces_asterisk : pieces (asterisk :: rest) = (pieces rest).map (.star :: ·) := by
  rw [pieces.eq_def]
  exact if_pos rfl

theorem patternLanguage_dropWhile : string ∈ patternLanguage (asterisk :: rest) ↔
      string ∈ patternLanguage (asterisk :: rest.dropWhile (· == asterisk)) := by
  -- The induction takes the asterisks of the run one by one.
  induction rest generalizing string with
  | nil => rfl
  | cons next rest ih =>
    by_cases again : next = asterisk
    · subst again
      rw [dropWhile_cons_of_pos (by simp), ← ih, mem_patternLanguage_star pieces_asterisk]
      constructor
      · rintro ⟨back, suffix, member⟩
        obtain ⟨tail, suffixToo, member⟩ := (mem_patternLanguage_star pieces_asterisk).1 member
        exact (mem_patternLanguage_star pieces_asterisk).2 ⟨tail, suffixToo.trans suffix, member⟩
      · intro member
        exact ⟨string, suffix_rfl, member⟩
    · rw [dropWhile_cons_of_neg (by simpa using again)]

theorem listLoop_eq (char : UInt8) (charmatch : Bool) (rest : List UInt8) : listLoop char charmatch rest =
      match rest.dropWhile (· ≠ closeBracket) with
      | [] => none
      | _ :: after =>
        some (charmatch || (rest.takeWhile (· ≠ closeBracket)).contains char, after) := by
  -- The induction follows the loop, which remembers what matched so far.
  induction rest generalizing charmatch with
  | nil => rfl
  | cons c rest ih =>
    rw [listLoop]
    by_cases closes : c = closeBracket
    · simp [closes]
    · rw [if_neg closes, ih, dropWhile_cons_of_pos (by simpa using closes),
        takeWhile_cons_of_pos (by simpa using closes), contains_cons]
      cases rest.dropWhile (· ≠ closeBracket) with
      | nil => rfl
      | cons _ after => simp only [Bool.or_assoc, BEq.comm (a := c)]

theorem starLoop_eq_zero (remaining : List UInt8 → Nat) (string : List UInt8) :
    starLoop remaining string = 0 ↔ ∃ back, back <:+ string ∧ back ≠ [] ∧ remaining back = 0 := by
  -- The induction gives up one more character at each turn.
  induction string with
  | nil =>
    refine ⟨fun zero => absurd zero (by simp [starLoop, noMatch]), ?_⟩
    rintro ⟨back, suffix, nonempty, -⟩
    exact absurd (suffix_nil.1 suffix) nonempty
  | cons char string ih =>
    rw [starLoop]
    constructor
    · intro zero
      split at zero
      · rename_i matched
        exact ⟨char :: string, suffix_rfl, cons_ne_nil _ _, matched⟩
      · obtain ⟨back, suffix, rest⟩ := ih.1 zero
        exact ⟨back, suffix.trans (suffix_cons _ _), rest⟩
    · rintro ⟨back, suffix, nonempty, matched⟩
      split
      · rfl
      · rename_i mismatched
        rcases suffix_cons_iff.1 suffix with rfl | shorter
        · exact absurd matched mismatched
        · exact ih.2 ⟨back, shorter, nonempty, matched⟩

theorem nil_not_mem_of_ne (plain : c ≠ asterisk) : [] ∉ patternLanguage (c :: rest) := by
  -- Whatever the first piece is, it stands for single characters; or the pattern is broken.
  rw [patternLanguage, pieces.eq_def]
  dsimp only
  rw [if_neg plain]
  have keep : ∀ (found : Option (List (Piece UInt8))) {piece : Piece UInt8}, piece ≠ .star →
      [] ∉ (found.map (piece :: ·)).elim 0 language := by
    intro found piece single
    cases found with
    | none => exact Language.notMem_zero _
    | some found => exact nil_not_mem_language single
  split
  · exact keep _ (by simp)
  · split
    · split
      · exact Language.notMem_zero _
      · exact keep _ (by simp)
    · split
      · split
        · exact Language.notMem_zero _
        · exact keep _ (by simp)
      · exact keep _ (by simp)

theorem char_matches {char escaped : UInt8} {result : Nat} {after : List UInt8}
    (begins : pieces pattern = (pieces after).map (.char escaped :: ·))
    (matched : result = 0 ↔ string ∈ patternLanguage after) :
    (if escaped = char then result else noMatch) = 0 ↔ char :: string ∈ patternLanguage pattern := by
  -- The piece takes the character exactly if it is the same.
  rw [cons_mem_patternLanguage begins (by simp)]
  split
  · rename_i same
    exact matched.trans (and_iff_right same.symm).symm
  · rename_i other
    exact ⟨fun zero => absurd zero (by decide), fun member => absurd member.1.symm other⟩

theorem pieces_unclosed (unclosed : rest.dropWhile (· ≠ closeBracket) = []) :
    pieces (openBracket :: rest) = none := by
  rw [pieces.eq_def]
  dsimp only
  rw [if_neg (by decide), if_neg (by decide), if_pos rfl]
  split
  · rfl
  · rename_i closed
    cases closed.symm.trans unclosed

theorem pieces_list {closing : UInt8} {after : List UInt8}
    (closes : rest.dropWhile (· ≠ closeBracket) = closing :: after) :
    pieces (openBracket :: rest) = (pieces after).map (.oneOf (rest.takeWhile (· ≠ closeBracket)) :: ·) := by
  rw [pieces.eq_def]
  dsimp only
  rw [if_neg (by decide), if_neg (by decide), if_pos rfl]
  split
  · rename_i unclosed
    cases unclosed.symm.trans closes
  · rename_i closed
    obtain ⟨-, rfl⟩ := List.cons.inj (closed.symm.trans closes)
    rfl

theorem list_found {char : UInt8} {after : List UInt8}
    (found : listLoop char false rest = some (true, after)) :
    char :: string ∈ patternLanguage (openBracket :: rest) ↔ string ∈ patternLanguage after := by
  -- The list is what stands in front of the first closing bracket.
  rw [listLoop_eq] at found
  cases closes : rest.dropWhile (· ≠ closeBracket) with
  | nil => simp only [closes] at found; cases found
  | cons closing behind =>
    simp only [closes, Bool.false_or, Option.some.injEq, Prod.mk.injEq, contains_iff_mem] at found
    obtain ⟨listed, rfl⟩ := found
    exact (cons_mem_patternLanguage (pieces_list closes) (by simp)).trans (and_iff_right listed)

theorem list_missed {char : UInt8} (missed : ∀ after, listLoop char false rest = some (true, after) → False) :
    char :: string ∉ patternLanguage (openBracket :: rest) := by
  -- The list is what stands in front of the first closing bracket.
  cases closes : rest.dropWhile (· ≠ closeBracket) with
  | nil => exact not_mem_patternLanguage (pieces_unclosed closes)
  | cons closing behind =>
    rw [cons_mem_patternLanguage (pieces_list closes) (by simp)]
    rintro ⟨listed, -⟩
    apply missed behind
    rw [listLoop_eq, closes]
    simp only [Bool.false_or, contains_iff_mem.2 listed]

theorem asterisks_end (ends : rest.dropWhile (· == asterisk) = []) :
    string ∈ patternLanguage (asterisk :: rest) := by
  have empty : [] ∈ patternLanguage [] := by
    rw [patternLanguage, pieces.eq_def]
    exact mem_language_nil.2 rfl
  rw [patternLanguage_dropWhile, mem_patternLanguage_star pieces_asterisk, ends]
  exact ⟨[], nil_suffix, empty⟩

theorem asterisks_match {next : UInt8} {after : List UInt8}
    (behind : rest.dropWhile (· == asterisk) = next :: after) :
    string ∈ patternLanguage (asterisk :: rest) ↔
      ∃ back, back <:+ string ∧ back ≠ [] ∧ back ∈ patternLanguage (next :: after) := by
  -- What follows is no asterisk, so it needs a character.
  have plain : next ≠ asterisk := by
    have stops := head_dropWhile_not (· == asterisk) (l := rest) (by simp [behind])
    simpa [behind] using stops
  rw [patternLanguage_dropWhile, mem_patternLanguage_star pieces_asterisk, behind]
  refine exists_congr fun back => and_congr_right fun _ => ⟨fun member => ⟨?_, member⟩, And.right⟩
  rintro rfl
  exact nil_not_mem_of_ne plain member

end Language

/-- Matching equals the pattern's denotation: rl_fnmatch returns, and it returns zero exactly for the
strings of the pattern's language. -/
theorem rlFnmatch_denotes (pattern string : List UInt8) :
    rlFnmatch pattern string = 0 ↔ string ∈ patternLanguage pattern := by
  -- Every call of the function for itself has a shorter pattern.
  induction size : pattern.length using Nat.strongRecOn generalizing pattern string with
  | ind n ih =>
    subst size
    rw [rlFnmatch.eq_def]
    cases pattern with
    | nil =>
      have start : string ∈ patternLanguage [] ↔ string = [] := by
        rw [patternLanguage, pieces.eq_def]
        exact mem_language_nil
      rw [start]
      by_cases empty : string = [] <;> simp [empty, noMatch]
    | cons c rest =>
      have shorter : ∀ after : List UInt8, after.length ≤ rest.length → ∀ string,
          (rlFnmatch after string = 0 ↔ string ∈ patternLanguage after) :=
        fun after short string => ih _ (lt_succ_of_le short) after string rfl
      dsimp only
      by_cases star : c = asterisk
      · subst star
        rw [if_pos rfl]
        split
        · rename_i ends
          exact iff_of_true rfl (asterisks_end ends)
        · rename_i next after behind
          have short := (dropWhile_sublist (· == asterisk) (l := rest)).length_le
          rw [behind] at short
          rw [starLoop_eq_zero, asterisks_match behind]
          exact exists_congr fun back => and_congr_right fun _ => and_congr_right fun _ =>
            shorter _ short back
      rw [if_neg star]
      cases string with
      | nil => exact iff_of_false (by simp [noMatch]) (nil_not_mem_of_ne star)
      | cons char string =>
        dsimp only
        by_cases opens : c = openBracket
        · subst opens
          rw [if_pos rfl]
          split
          · rename_i after found
            exact (shorter after (le_of_lt (listLoop_length found)) string).trans (list_found found).symm
          · rename_i missed
            exact iff_of_false (by simp [noMatch]) (list_missed missed)
        rw [if_neg opens]
        by_cases anyone : c = question
        · subst anyone
          have begins : pieces (question :: rest) = (pieces rest).map (.any :: ·) := by
            rw [pieces.eq_def]
            exact (if_neg star).trans (if_pos rfl)
          rw [if_pos rfl, cons_mem_patternLanguage begins (by simp)]
          exact (shorter rest (le_refl _) string).trans (and_iff_right trivial).symm
        rw [if_neg anyone]
        by_cases escapes : c = backslash
        · subst escapes
          rw [if_pos rfl]
          cases rest with
          | nil =>
            have broken : pieces [backslash] = none := by
              rw [pieces.eq_def]
              rfl
            exact iff_of_false (by simp [noMatch]) (not_mem_patternLanguage broken)
          | cons escaped after =>
            have begins : pieces (backslash :: escaped :: after) =
                (pieces after).map (.char escaped :: ·) := by
              rw [pieces.eq_def]
              rfl
            exact char_matches begins (shorter after (le_succ _) string)
        rw [if_neg escapes]
        have begins : pieces (c :: rest) = (pieces rest).map (.char c :: ·) := by
          rw [pieces.eq_def]
          dsimp only
          rw [if_neg star, if_neg anyone, if_neg opens, if_neg escapes]
        exact char_matches begins (shorter rest (le_refl _) string)

end Libretro.Fnmatch
