import Libretro.Lists.StringSplit

/-! The clean-up of labels in label_sanitization.c. Strings are their bytes before the terminator. -/

namespace Libretro.Label

open List Nat

open Lists (lower)

/-- A space. -/
def space : UInt8 := 0x20

/-- The bytes of a text of the source. -/
def ascii (text : String) : List UInt8 := text.toList.map fun c => UInt8.ofNat c.toNat

/-- disc_strings. -/
def discStrings : List (List UInt8) := ["(CD", "(Disc", "(Disk", "(Side", "(Tape"].map ascii

/-- region_strings. -/
def regionStrings : List (List UInt8) :=
  ["(Australia)", "(Brazil)", "(Canada)", "(China)", "(France)", "(Germany)", "(Hong Kong)", "(Italy)",
    "(Japan)", "(Korea)", "(Netherlands)", "(Spain)", "(Sweden)", "(USA)", "(World)", "(Europe)",
    "(Asia)", "(Japan, USA)", "(Japan, Europe)", "(USA, Europe)"].map ascii

/-- What label_sanitize works with: whether it copies, and new_label up to rindex. -/
structure Sweep where
  copy : Bool
  newLabel : List UInt8
deriving DecidableEq

/-- A turn of the loop, at the byte the text begins with. -/
def Sweep.turn (left right : List UInt8 → Bool) (text : List UInt8) (sweep : Sweep) : Sweep :=
  let c := text.headD 0
  if sweep.copy then
    if left text then { sweep with copy := false }
    else if c = space ∧ (sweep.newLabel = [] ∨ sweep.newLabel.getLast? = some space) then sweep
    else { sweep with newLabel := sweep.newLabel ++ [c] }
  else if right text then { sweep with copy := true }
  else sweep

/-- The loop over the label, of so many turns at most. -/
def sweepLoop (left right : List UInt8 → Bool) : Nat → List UInt8 → Sweep → Sweep
  | turns + 1, c :: rest, sweep => sweepLoop left right turns rest (sweep.turn left right (c :: rest))
  | _, _, sweep => sweep

/-- label_sanitize: the label afterwards; nothing where the terminator is written behind new_label. -/
def labelSanitize (pathMaxLength : Nat) (left right : List UInt8 → Bool) (label : List UInt8) :
    Option (List UInt8) :=
  let newLabel := (sweepLoop left right pathMaxLength label ⟨true, []⟩).newLabel
  if newLabel.getLast? = some space then some newLabel.dropLast
  else if newLabel.length < pathMaxLength then some newLabel
  else none

/-- left_parens. -/
def leftParens (left : List UInt8) : Bool := left.headD 0 == 0x28

/-- right_parens. -/
def rightParens (right : List UInt8) : Bool := right.headD 0 == 0x29

/-- left_brackets. -/
def leftBrackets (left : List UInt8) : Bool := left.headD 0 == 0x5B

/-- right_brackets. -/
def rightBrackets (right : List UInt8) : Bool := right.headD 0 == 0x5D

/-- left_parens_or_brackets. -/
def leftParensOrBrackets (left : List UInt8) : Bool := left.headD 0 == 0x28 || left.headD 0 == 0x5B

/-- right_parens_or_brackets. -/
def rightParensOrBrackets (right : List UInt8) : Bool := right.headD 0 == 0x29 || right.headD 0 == 0x5D

/-- strncasecmp: the first difference among so many bytes, letters without their case. -/
def strncasecmp (s1 s2 : List UInt8) : Nat → Int
  | 0 => 0
  | n + 1 =>
    let c1 := lower (s1.headD 0)
    let c2 := lower (s2.headD 0)
    if c1 ≠ c2 ∨ c1 = 0 then (c1.toNat : Int) - c2.toNat else strncasecmp s1.tail s2.tail n

/-- left_exclusion: whether one of the strings begins here. -/
def leftExclusion (left : List UInt8) (strings : List (List UInt8)) : Bool :=
  strings.any fun string => strncasecmp left string string.length == 0

/-- left_parens_or_brackets_excluding_region. -/
def leftParensOrBracketsExcludingRegion (left : List UInt8) : Bool :=
  leftParensOrBrackets left && !leftExclusion left regionStrings

/-- left_parens_or_brackets_excluding_disc. -/
def leftParensOrBracketsExcludingDisc (left : List UInt8) : Bool :=
  leftParensOrBrackets left && !leftExclusion left discStrings

/-- left_parens_or_brackets_excluding_region_or_disc. -/
def leftParensOrBracketsExcludingRegionOrDisc (left : List UInt8) : Bool :=
  leftParensOrBrackets left && !leftExclusion left regionStrings && !leftExclusion left discStrings

/-- label_remove_parens. -/
def labelRemoveParens (pathMaxLength : Nat) (label : List UInt8) : Option (List UInt8) :=
  labelSanitize pathMaxLength leftParens rightParens label

/-- label_remove_brackets. -/
def labelRemoveBrackets (pathMaxLength : Nat) (label : List UInt8) : Option (List UInt8) :=
  labelSanitize pathMaxLength leftBrackets rightBrackets label

/-- label_remove_parens_and_brackets. -/
def labelRemoveParensAndBrackets (pathMaxLength : Nat) (label : List UInt8) : Option (List UInt8) :=
  labelSanitize pathMaxLength leftParensOrBrackets rightParensOrBrackets label

/-- label_keep_region. -/
def labelKeepRegion (pathMaxLength : Nat) (label : List UInt8) : Option (List UInt8) :=
  labelSanitize pathMaxLength leftParensOrBracketsExcludingRegion rightParensOrBrackets label

/-- label_keep_disc. -/
def labelKeepDisc (pathMaxLength : Nat) (label : List UInt8) : Option (List UInt8) :=
  labelSanitize pathMaxLength leftParensOrBracketsExcludingDisc rightParensOrBrackets label

/-- label_keep_region_and_disc. -/
def labelKeepRegionAndDisc (pathMaxLength : Nat) (label : List UInt8) : Option (List UInt8) :=
  labelSanitize pathMaxLength leftParensOrBracketsExcludingRegionOrDisc rightParensOrBrackets label

section Spec

variable (left right : List UInt8 → Bool)

/-- What stands behind the next closing character, if there is one. -/
def behind : List UInt8 → List UInt8
  | [] => []
  | c :: rest => if right (c :: rest) then rest else behind rest

theorem behind_length (text : List UInt8) : (behind right text).length ≤ text.length := by
  -- The induction passes over what is not a closing character.
  induction text with
  | nil => exact le_refl _
  | cons c rest ih =>
    rw [behind]
    split
    · exact le_succ _
    · exact le_succ_of_le ih

/-- A label without its removal ranges: from where the opening predicate holds outside a range through
the next closing character, or to the end. -/
def kept (text : List UInt8) : List UInt8 :=
  match text with
  | [] => []
  | c :: rest => if left (c :: rest) then kept (behind right rest) else c :: kept rest
termination_by text.length
decreasing_by
  · exact Nat.lt_succ_of_le (behind_length right rest)
  · exact Nat.lt_succ_self _

/-- Runs of spaces merged into one space. -/
@[simp] def merged : List UInt8 → List UInt8
  | [] => []
  | c :: rest => if c = space ∧ rest.head? = some space then merged rest else c :: merged rest

/-- A trailing space dropped. -/
def trimmed (text : List UInt8) : List UInt8 := if text.getLast? = some space then text.dropLast else text

/-- Leading spaces dropped, runs of spaces merged into one and a trailing space dropped. -/
def tidied (text : List UInt8) : List UInt8 := trimmed (merged (text.dropWhile (· == space)))

end Spec

section Pass

variable {left right : List UInt8 → Bool} {text out : List UInt8} {c : UInt8} {turns : Nat}

theorem kept_nil : kept left right [] = [] := by rw [kept.eq_def]

theorem kept_cons : kept left right (c :: text) = if left (c :: text) then kept left right (behind right text)
    else c :: kept left right text := by rw [kept.eq_def]

/-- A byte that is copied, unless it is a space behind a space or in front of everything. -/
def put (out : List UInt8) (c : UInt8) : List UInt8 :=
  if c = space ∧ (out = [] ∨ out.getLast? = some space) then out else out ++ [c]

theorem turn_copying : Sweep.turn left right (c :: text) ⟨true, out⟩ =
    if left (c :: text) then ⟨false, out⟩ else ⟨true, put out c⟩ := by
  rw [Sweep.turn, put]
  dsimp only [headD_cons]
  rw [if_pos rfl, apply_ite (Sweep.mk true)]
  rfl

theorem turn_passing : Sweep.turn left right (c :: text) ⟨false, out⟩ =
    if right (c :: text) then ⟨true, out⟩ else ⟨false, out⟩ := rfl

theorem sweepLoop_eq (enough : text.length ≤ turns) :
    (sweepLoop left right turns text ⟨true, out⟩).newLabel = (kept left right text).foldl put out ∧
      (sweepLoop left right turns text ⟨false, out⟩).newLabel =
        (kept left right (behind right text)).foldl put out := by
  -- The induction follows the loop, copying and passing over a range.
  induction text generalizing turns out with
  | nil => cases turns <;> simp [sweepLoop, kept_nil, behind]
  | cons c rest ih =>
    cases turns with
    | zero => cases enough
    | succ turns =>
      have fewer : rest.length ≤ turns := le_of_succ_le_succ enough
      constructor
      · rw [sweepLoop, turn_copying, kept_cons]
        split
        · exact (ih fewer).2
        · exact (ih fewer).1
      · rw [sweepLoop, turn_passing, behind]
        split
        · exact (ih fewer).1
        · exact (ih fewer).2

theorem merged_space (text : List UInt8) :
    merged (space :: text) = space :: merged (text.dropWhile (· == space)) := by
  -- The last space of the run is the one that stays.
  induction text with
  | nil => rfl
  | cons c rest ih =>
    by_cases again : c = space
    · subst again
      rw [merged, if_pos ⟨rfl, rfl⟩, ih, dropWhile_cons_of_pos (by simp)]
    · rw [merged, if_neg (by simpa using again), dropWhile_cons_of_neg (by simpa using again)]

theorem merged_plain (plain : c ≠ space) : merged (c :: text) = c :: merged text := by
  rw [merged, if_neg fun both => plain both.1]

theorem foldl_put (text out : List UInt8) : text.foldl put out = out ++
      if out = [] ∨ out.getLast? = some space then merged (text.dropWhile (· == space))
      else merged text := by
  -- The induction follows what is copied, byte by byte.
  induction text generalizing out with
  | nil => simp
  | cons c rest ih =>
    rw [foldl_cons, ih, put]
    by_cases isSpace : c = space
    · subst isSpace
      by_cases folds : out = [] ∨ out.getLast? = some space
      · rw [if_pos ⟨rfl, folds⟩, if_pos folds, if_pos folds, dropWhile_cons_of_pos (by simp)]
      · rw [if_neg fun both => folds both.2, if_neg folds, if_pos (by simp), merged_space,
          List.append_assoc, singleton_append]
    · rw [if_neg fun both => isSpace both.1, if_neg (by simpa using isSpace), List.append_assoc,
        singleton_append, dropWhile_cons_of_neg (by simpa using isSpace),
        merged_plain isSpace, ite_self]

theorem merged_length (text : List UInt8) : (merged text).length ≤ text.length := by
  induction text with
  | nil => exact le_refl _
  | cons c rest ih =>
    rw [merged]
    split
    · exact le_succ_of_le ih
    · exact succ_le_succ ih

theorem tidied_length (text : List UInt8) : (tidied text).length ≤ text.length := by
  have fewer := merged_length (text.dropWhile (· == space))
  have inner := (dropWhile_sublist (· == space) (l := text)).length_le
  rw [tidied, trimmed]
  split
  · rw [length_dropLast]
    omega
  · omega

theorem kept_length (text : List UInt8) : (kept left right text).length ≤ text.length := by
  -- A range is passed over at once.
  induction size : text.length using Nat.strongRecOn generalizing text with
  | ind n ih =>
    subst size
    cases text with
    | nil => rw [kept_nil]
    | cons c rest =>
      rw [kept_cons]
      split
      · have shorter := behind_length right rest
        have less := ih _ (lt_succ_of_le shorter) _ rfl
        exact le_succ_of_le (le_trans less shorter)
      · exact succ_le_succ (ih _ (lt_succ_self _) _ rfl)

theorem labelSanitize_eq {pathMaxLength : Nat} {label : List UInt8} (short : label.length < pathMaxLength) :
    labelSanitize pathMaxLength left right label = some (tidied (kept left right label)) := by
  -- What was copied is what is kept, with its spaces merged, so it is no longer than the label.
  have copied : (sweepLoop left right pathMaxLength label ⟨true, []⟩).newLabel =
      merged ((kept left right label).dropWhile (· == space)) := by
    rw [(sweepLoop_eq (le_of_lt short)).1, foldl_put, if_pos (.inl rfl), nil_append]
  have fits := merged_length ((kept left right label).dropWhile (· == space))
  have inner := (dropWhile_sublist (· == space) (l := kept left right label)).length_le
  have whole : (kept left right label).length ≤ label.length := kept_length label
  rw [labelSanitize, tidied, trimmed, copied]
  split
  · rfl
  · exact if_pos (by omega)

end Pass

/-- The six functions. -/
inductive CleanUp
  | removeParens
  | removeBrackets
  | removeParensAndBrackets
  | keepRegion
  | keepDisc
  | keepRegionAndDisc
deriving DecidableEq

/-- A call of one of them. -/
def CleanUp.call : CleanUp → Nat → List UInt8 → Option (List UInt8)
  | .removeParens => labelRemoveParens
  | .removeBrackets => labelRemoveBrackets
  | .removeParensAndBrackets => labelRemoveParensAndBrackets
  | .keepRegion => labelKeepRegion
  | .keepDisc => labelKeepDisc
  | .keepRegionAndDisc => labelKeepRegionAndDisc

/-- The opening predicate of each. -/
def CleanUp.left : CleanUp → List UInt8 → Bool
  | .removeParens => leftParens
  | .removeBrackets => leftBrackets
  | .removeParensAndBrackets => leftParensOrBrackets
  | .keepRegion => leftParensOrBracketsExcludingRegion
  | .keepDisc => leftParensOrBracketsExcludingDisc
  | .keepRegionAndDisc => leftParensOrBracketsExcludingRegionOrDisc

/-- The closing predicate of each. -/
def CleanUp.right : CleanUp → List UInt8 → Bool
  | .removeParens => rightParens
  | .removeBrackets => rightBrackets
  | _ => rightParensOrBrackets

/-- The tags each of them keeps. -/
def CleanUp.spared : CleanUp → List (List UInt8)
  | .keepRegion => regionStrings
  | .keepDisc => discStrings
  | .keepRegionAndDisc => regionStrings ++ discStrings
  | _ => []

/-- What is removed: from an opening character to a closing one, except where a tag begins. -/
structure Removal where
  opens : UInt8 → Bool
  closes : UInt8 → Bool
  spared : List (List UInt8)

/-- A string begins here, letters without their case. -/
def Begins (string text : List UInt8) : Prop := (text.take string.length).map lower = string.map lower

instance (string text : List UInt8) : Decidable (Begins string text) := inferInstanceAs (Decidable (_ = _))

/-- The tag that begins here. -/
def Removal.sparedAt (r : Removal) (text : List UInt8) : Option (List UInt8) :=
  r.spared.find? fun string => decide (Begins string text)

/-- Whether a range begins here. -/
def Removal.left (r : Removal) (text : List UInt8) : Bool :=
  r.opens (text.headD 0) && (r.sparedAt text).isNone

/-- Whether a range ends here. -/
def Removal.right (r : Removal) (text : List UInt8) : Bool := r.closes (text.headD 0)

/-- A tag that is kept: the string it is known by, and the whole of it through its closing character. -/
structure Tag where
  name : List UInt8
  whole : List UInt8
deriving DecidableEq

/-- A text through its first closing character. -/
def Removal.through (r : Removal) : List UInt8 → List UInt8
  | [] => []
  | c :: rest => if r.closes c then [c] else c :: r.through rest

/-- The tags of a label that are kept, in order. -/
def Removal.tags (r : Removal) (text : List UInt8) : List Tag :=
  match text with
  | [] => []
  | c :: rest =>
    if r.opens c then
      match r.sparedAt (c :: rest) with
      | some string => ⟨(c :: rest).take string.length, c :: r.through rest⟩ :: r.tags rest
      | none => r.tags (behind r.right rest)
    else r.tags rest
termination_by text.length
decreasing_by
  · exact Nat.lt_succ_self _
  · exact Nat.lt_succ_of_le (behind_length r.right rest)
  · exact Nat.lt_succ_self _

/-- No space in front, none behind another, none at the end. -/
def firm : Bool → List UInt8 → Bool
  | gap, [] => !gap
  | gap, c :: rest => if c = space then !gap && firm true rest else firm false rest

/-- A tag that is closed, without an opening character inside and without spaces that would be merged. -/
structure Removal.Plain (r : Removal) (tag : Tag) : Prop where
  inner : ∀ c ∈ tag.whole.tail, r.opens c = false
  closed : ∃ c ∈ tag.whole.tail, r.closes c = true
  firm : firm true tag.whole = true

/-- A tag is still there: its name as it was, and if it is plain the whole of it. -/
structure Removal.Preserved (r : Removal) (tag after : Tag) : Prop where
  name : after.name = tag.name
  whole : r.Plain tag → after.whole = tag.whole

/-- What the strings of tags and the characters around ranges are like. -/
structure Removal.Sound (r : Removal) : Prop where
  nonempty : ∀ string ∈ r.spared, string ≠ []
  inner : ∀ string ∈ r.spared, ∀ c ∈ string.tail, r.opens c = false
  firm : ∀ string ∈ r.spared, Label.firm true string = true
  apart : ∀ string ∈ r.spared, ∀ other ∈ r.spared, Begins string other → string = other
  letters : ∀ a b, lower a = lower b → r.opens a = r.opens b
  space_opens : r.opens space = false
  end_opens : r.opens 0 = false

/-- A text with its spaces merged: whether a byte was written, and whether a space is held back. -/
def spaced : Bool → Bool → List UInt8 → List UInt8
  | _, _, [] => []
  | started, pending, c :: rest =>
    if c = space then spaced started started rest
    else (if pending then [space] else []) ++ c :: spaced true false rest

section Spaced

variable {text rest front word : List UInt8} {c : UInt8} {started pending : Bool}

theorem spaced_space : spaced started pending (space :: rest) = spaced started started rest := if_pos rfl

theorem spaced_plain (plain : c ≠ space) : spaced started pending (c :: rest) =
      (if pending then [space] else []) ++ c :: spaced true false rest :=
  if_neg plain

theorem trimmed_merged (plain : c ≠ space) :
    trimmed (front ++ c :: merged text) = front ++ c :: spaced true false text ∧
      trimmed (front ++ c :: space :: merged (text.dropWhile (· == space))) =
        front ++ c :: spaced true true text := by
  -- The induction follows the text, with and without a space held back.
  induction text generalizing front c with
  | nil => simp [trimmed, spaced, plain]
  | cons d rest ih =>
    by_cases isSpace : d = space
    · subst isSpace
      rw [merged_space, spaced_space, dropWhile_cons_of_pos (by simp), spaced_space]
      exact ⟨(ih plain).2, (ih plain).2⟩
    · rw [merged_plain isSpace, spaced_plain isSpace, dropWhile_cons_of_neg (by simpa using isSpace),
        merged_plain isSpace, spaced_plain isSpace]
      have next := (@ih (front ++ [c]) d isSpace).1
      have later := (@ih (front ++ [c, space]) d isSpace).1
      exact ⟨by simpa using next, by simpa using later⟩

theorem tidied_eq (text : List UInt8) : tidied text = spaced false false text := by
  -- Leading spaces are dropped on both sides.
  induction text with
  | nil => rfl
  | cons c rest ih =>
    by_cases isSpace : c = space
    · subst isSpace
      rw [spaced_space, ← ih, tidied, dropWhile_cons_of_pos (by simp), tidied]
    · rw [tidied, dropWhile_cons_of_neg (by simpa using isSpace), merged_plain isSpace,
        spaced_plain isSpace]
      exact (@trimmed_merged rest [] c isSpace).1

theorem spaced_firm :
    (firm false word = true → spaced true false (word ++ rest) = word ++ spaced true false rest) ∧
      (firm true word = true → spaced started pending (word ++ rest) =
        (if pending then [space] else []) ++ (word ++ spaced true false rest)) := by
  -- The induction follows the word; a space inside it is held back until the next byte.
  induction word generalizing started pending with
  | nil => simp [firm]
  | cons c word ih =>
    by_cases isSpace : c = space
    · subst isSpace
      simp only [firm, if_true, Bool.not_false, Bool.true_and, Bool.not_true, Bool.false_and,
        Bool.false_eq_true, false_implies, and_true, cons_append, spaced_space]
      intro solid
      exact (@ih true true).2 solid
    · simp only [firm, if_neg isSpace, cons_append, spaced_plain isSpace]
      refine ⟨fun solid => ?_, fun solid => ?_⟩
      · rw [(@ih true true).1 solid]
        rfl
      · rw [(@ih true true).1 solid]

theorem firm_spaced (text : List UInt8) (pending : Bool) : firm false (spaced true pending text) = true := by
  induction text generalizing pending with
  | nil => rfl
  | cons c rest ih =>
    by_cases isSpace : c = space
    · subst isSpace
      rw [spaced_space]
      exact ih true
    · rw [spaced_plain isSpace]
      cases pending <;> simp [firm, isSpace, ih false]

theorem spaced_start (text : List UInt8) :
    spaced false false text = [] ∨ firm true (spaced false false text) = true := by
  induction text with
  | nil => exact .inl rfl
  | cons c rest ih =>
    by_cases isSpace : c = space
    · subst isSpace
      rw [spaced_space]
      exact ih
    · rw [spaced_plain isSpace]
      exact .inr (by simp [firm, isSpace, firm_spaced])

theorem spaced_spaced (text : List UInt8) :
    spaced false false (spaced false false text) = spaced false false text := by
  rcases spaced_start text with empty | solid
  · rw [empty]
    rfl
  · have again := (@spaced_firm [] _ false false).2 solid
    simpa [spaced] using again

end Spaced

namespace Removal

variable {r : Removal} {text rest word string : List UInt8} {c : UInt8}

/-- No range begins anywhere in a text. -/
def Clean (r : Removal) (text : List UInt8) : Prop := ∀ back, back <:+ text → r.left back = false

theorem left_cons : r.left (c :: rest) = (r.opens c && (r.sparedAt (c :: rest)).isNone) := rfl

theorem Clean.cons (clean : r.Clean rest) (here : r.left (c :: rest) = false) : r.Clean (c :: rest) := by
  intro back suffix
  rcases suffix_cons_iff.1 suffix with rfl | later
  · exact here
  · exact clean back later

theorem Clean.kept_eq (clean : r.Clean text) : kept r.left r.right text = text := by
  induction text with
  | nil => exact kept_nil
  | cons c rest ih =>
    rw [kept_cons, clean _ suffix_rfl, if_neg Bool.false_ne_true,
      ih fun back suffix => clean back (suffix.trans (suffix_cons c rest))]

theorem kept_append (plain : ∀ c ∈ word, r.opens c = false) :
    kept r.left r.right (word ++ rest) = word ++ kept r.left r.right rest := by
  induction word with
  | nil => rfl
  | cons c word ih =>
    rw [cons_append, kept_cons, left_cons, plain c mem_cons_self, Bool.false_and,
      if_neg Bool.false_ne_true, ih fun d listed => plain d (mem_cons_of_mem c listed)]
    rfl

theorem tags_nil : r.tags [] = [] := by rw [tags.eq_def]

theorem tags_plain (plain : r.opens c = false) : r.tags (c :: rest) = r.tags rest := by
  rw [tags.eq_def]
  dsimp only
  rw [plain, if_neg Bool.false_ne_true]

theorem tags_range (opens : r.opens c = true) (bare : r.sparedAt (c :: rest) = none) :
    r.tags (c :: rest) = r.tags (behind r.right rest) := by
  rw [tags.eq_def]
  dsimp only
  rw [if_pos opens, bare]

theorem tags_spared (opens : r.opens c = true) (spares : r.sparedAt (c :: rest) = some string) :
    r.tags (c :: rest) = ⟨(c :: rest).take string.length, c :: r.through rest⟩ :: r.tags rest := by
  rw [tags.eq_def]
  dsimp only
  rw [if_pos opens, spares]

theorem through_prefix (text : List UInt8) : ∃ after, text = r.through text ++ after := by
  induction text with
  | nil => exact ⟨[], rfl⟩
  | cons c rest ih =>
    rw [through]
    split
    · exact ⟨rest, rfl⟩
    · obtain ⟨after, same⟩ := ih
      exact ⟨after, congrArg (c :: ·) same⟩

theorem through_append (closed : ∃ c ∈ r.through text, r.closes c = true) (more : List UInt8) :
    r.through (r.through text ++ more) = r.through text := by
  induction text with
  | nil =>
    obtain ⟨c, listed, -⟩ := closed
    cases listed
  | cons c rest ih =>
    rw [through] at closed ⊢
    by_cases closes : r.closes c = true
    · rw [if_pos closes, singleton_append, through, if_pos closes]
    · rw [if_neg closes] at closed ⊢
      obtain ⟨d, listed, ends⟩ := closed
      rcases mem_cons.1 listed with rfl | later
      · exact absurd ends closes
      · rw [cons_append, through, if_neg closes, ih ⟨d, later, ends⟩]

end Removal

section Case

variable {word string text : List UInt8}

theorem eq_iff_of_lower {a b byte : UInt8} (plain : byte < 0x41 ∨ 0x5A < byte ∧ byte < 0x61)
    (same : lower a = lower b) : a = byte ↔ b = byte := by
  have only : ∀ c : UInt8, lower c = byte → c = byte := by
    intro c isByte
    rw [lower] at isByte
    split at isByte
    · rename_i letter
      simp only [UInt8.lt_iff_toNat_lt, UInt8.le_iff_toNat_le] at plain letter
      have value := congrArg UInt8.toNat isByte
      simp at value plain letter
      omega
    · exact isByte
  have self : lower byte = byte := by
    rw [lower]
    refine if_neg fun letter => ?_
    simp only [UInt8.lt_iff_toNat_lt, UInt8.le_iff_toNat_le] at plain letter
    simp at plain letter
    omega
  exact ⟨fun isByte => only b (by rw [← same, isByte, self]),
    fun isByte => only a (by rw [same, isByte, self])⟩

theorem firm_map (same : word.map lower = string.map lower) (gap : Bool) :
    firm gap word = firm gap string := by
  induction word generalizing string gap with
  | nil =>
    cases string with
    | nil => rfl
    | cons d string => cases same
  | cons c word ih =>
    cases string with
    | nil => cases same
    | cons d string =>
      obtain ⟨first, rest⟩ := List.cons.inj same
      simp only [firm, @eq_iff_of_lower _ _ space (by decide) first, ih rest]

theorem Begins.length (begins : Begins string text) : (text.take string.length).length = string.length := by
  simpa using congrArg List.length begins

theorem Begins.shorter {other : List UInt8} (begins : Begins string text) (also : Begins other text)
    (short : string.length ≤ other.length) : Begins string other := by
  have front := congrArg (List.take string.length) also
  rw [← map_take, ← map_take, take_take, min_eq_left short] at front
  exact front.symm.trans begins

end Case

namespace Removal.Sound

variable {r : Removal} {text string rest : List UInt8} {c : UInt8}

theorem of_sparedAt (spares : r.sparedAt text = some string) : string ∈ r.spared ∧ Begins string text := by
  have found := find?_some (p := fun string => decide (Begins string text)) spares
  exact ⟨mem_of_find?_eq_some spares, of_decide_eq_true found⟩

theorem sparedAt_eq (sound : r.Sound) (listed : string ∈ r.spared) (begins : Begins string text) :
    r.sparedAt text = some string := by
  -- Another tag that begins here would begin this one, or be begun by it.
  cases found : r.sparedAt text with
  | none =>
    have absent := find?_eq_none.1 found string listed
    exact absurd (decide_eq_true begins) absent
  | some other =>
    obtain ⟨listedToo, also⟩ := of_sparedAt found
    rcases le_total string.length other.length with short | short
    · rw [sound.apart string listed other listedToo (begins.shorter also short)]
    · rw [sound.apart other listedToo string listed (also.shorter begins short)]

theorem behind_gap (sound : r.Sound) {tags : List Tag} (pending : Bool)
    (output : r.Clean text ∧ List.Forall₂ r.Preserved tags (r.tags text)) :
    r.Clean ((if pending then [space] else []) ++ text) ∧
      List.Forall₂ r.Preserved tags (r.tags ((if pending then [space] else []) ++ text)) := by
  cases pending with
  | false => exact output
  | true =>
    have closed : r.left (space :: text) = false := by rw [left_cons, sound.space_opens, Bool.false_and]
    exact ⟨output.1.cons closed, by
      rw [if_pos rfl, singleton_append, tags_plain sound.space_opens]
      exact output.2⟩

theorem written (word : List UInt8) (plain : ∀ d ∈ word, r.opens d = false)
    (solid : Label.firm false word = true) :
    spaced true false (kept r.left r.right (word ++ rest)) =
      word ++ spaced true false (kept r.left r.right rest) := by
  rw [kept_append plain, (@spaced_firm _ _ true false).1 solid]

theorem tag_written (sound : r.Sound) (opens : r.opens c = true)
    (spares : r.sparedAt (c :: rest) = some string) :
    r.sparedAt (c :: spaced true false (kept r.left r.right rest)) = some string ∧
      r.Preserved ⟨(c :: rest).take string.length, c :: r.through rest⟩
        ⟨(c :: spaced true false (kept r.left r.right rest)).take string.length,
          c :: r.through (spaced true false (kept r.left r.right rest))⟩ := by
  -- Neither the name nor a plain tag has an opening character or a space that would be merged.
  obtain ⟨listed, begins⟩ := of_sparedAt spares
  have visible : c ≠ space := by
    rintro rfl
    rw [sound.space_opens] at opens
    cases opens
  obtain ⟨first, name, rfl⟩ := exists_cons_of_ne_nil (sound.nonempty string listed)
  have length := begins.length
  rw [Begins, length_cons, take_succ_cons] at begins
  rw [length_cons, take_succ_cons, length_cons] at length
  have split := take_append_drop name.length rest
  have plain : ∀ d ∈ rest.take name.length, r.opens d = false := by
    intro d inside
    obtain ⟨e, insideToo, same⟩ := mem_map.1 ((List.cons.inj begins).2 ▸ mem_map_of_mem (f := lower) inside)
    rw [← sound.letters e d same]
    exact sound.inner _ listed e insideToo
  have solid : Label.firm false (rest.take name.length) = true := by
    have whole := sound.firm _ listed
    rw [← firm_map begins] at whole
    simpa [Label.firm, visible] using whole
  have out := @written r (rest.drop name.length) _ plain solid
  rw [split] at out
  have taken : (c :: spaced true false (kept r.left r.right rest)).take (first :: name).length =
      c :: rest.take name.length := by
    rw [length_cons, take_succ_cons, out, take_append_of_le_length (by omega), take_of_length_le (by omega)]
  refine ⟨sound.sparedAt_eq listed ?_, ?_, fun whole => ?_⟩
  · rw [Begins, taken]
    exact begins
  · rw [taken, length_cons, take_succ_cons]
  · obtain ⟨after, same⟩ := r.through_prefix rest
    have firmly : Label.firm false (r.through rest) = true := by simpa [Label.firm, visible] using whole.firm
    have outToo := @written r after _ whole.inner firmly
    dsimp only [tail_cons] at outToo
    rw [← same] at outToo
    rw [outToo, through_append whole.closed]

theorem output (sound : r.Sound) (text : List UInt8) (started pending : Bool) :
    r.Clean (spaced started pending (kept r.left r.right text)) ∧ List.Forall₂ r.Preserved (r.tags text)
        (r.tags (spaced started pending (kept r.left r.right text))) := by
  -- The induction follows the label; a range is passed over at once.
  induction size : text.length using Nat.strongRecOn generalizing text started pending with
  | ind n ih =>
    subst size
    cases text with
    | nil =>
      rw [kept_nil, spaced, tags_nil]
      refine ⟨fun back suffix => ?_, .nil⟩
      rw [suffix_nil.1 suffix]
      rw [left, headD_nil, sound.end_opens, Bool.false_and]
    | cons c rest =>
      have next := fun started pending => ih _ (lt_succ_self _) rest started pending rfl
      cases opens : r.opens c with
      | false =>
        rw [kept_cons, left_cons, opens, Bool.false_and, if_neg Bool.false_ne_true, tags_plain opens]
        by_cases isSpace : c = space
        · subst isSpace
          rw [spaced_space]
          exact next started started
        · rw [spaced_plain isSpace]
          refine sound.behind_gap pending ⟨(next true false).1.cons ?_, ?_⟩
          · rw [left_cons, opens, Bool.false_and]
          · rw [tags_plain opens]
            exact (next true false).2
      | true =>
        have visible : c ≠ space := by
          rintro rfl
          rw [sound.space_opens] at opens
          cases opens
        cases spares : r.sparedAt (c :: rest) with
        | none =>
          rw [kept_cons, left_cons, opens, spares, tags_range opens spares]
          exact ih _ (lt_succ_of_le (behind_length r.right rest)) _ started pending rfl
        | some string =>
          obtain ⟨again, preserved⟩ := sound.tag_written opens spares
          rw [kept_cons, left_cons, opens, spares, tags_spared opens spares,
            Option.isNone_some, Bool.and_false, if_neg Bool.false_ne_true, spaced_plain visible]
          refine sound.behind_gap pending ⟨(next true false).1.cons ?_, ?_⟩
          · rw [left_cons, again, opens]
            rfl
          · rw [tags_spared opens again]
            exact .cons preserved (next true false).2

end Removal.Sound

section Functions

variable {text string : List UInt8}

theorem strncasecmp_eq_zero (clear : 0 ∉ string) :
    strncasecmp text string string.length = 0 ↔ Begins string text := by
  -- The induction follows the string, whose bytes are not zero without their case either.
  induction string generalizing text with
  | nil => simp [strncasecmp, Begins]
  | cons c string ih =>
    have nonzero : lower c ≠ 0 := by
      intro zero
      exact clear ((@eq_iff_of_lower _ _ 0 (by decide) (show lower c = lower 0 from zero)).2 rfl ▸
        mem_cons_self)
    have later := @ih text.tail fun listed => clear (mem_cons_of_mem c listed)
    have first : Begins (c :: string) text ↔ lower (text.headD 0) = lower c ∧ Begins string text.tail := by
      cases text with
      | nil => exact iff_of_false (by simp [Begins]) fun both => nonzero both.1.symm
      | cons d text => simp [Begins]
    rw [length_cons, strncasecmp, first, ← later]
    split
    · rename_i ends
      -- A byte that differs, or the terminator of the text.
      have differs : lower (text.headD 0) ≠ lower c := by
        rcases ends with differs | zero
        · exact differs
        · exact fun same => nonzero (same ▸ zero)
      refine iff_of_false (fun zero => differs (UInt8.toNat_inj.1 ?_)) fun both => differs both.1
      exact Int.natCast_inj.1 (Int.sub_eq_zero.1 zero)
    · rename_i goesOn
      exact (and_iff_right (not_not.1 fun differs => goesOn (.inl differs))).symm

theorem leftExclusion_eq {strings : List (List UInt8)} (clear : ∀ string ∈ strings, 0 ∉ string) :
    leftExclusion text strings = (strings.find? fun string => decide (Begins string text)).isSome := by
  rw [leftExclusion, Bool.eq_iff_iff, any_eq_true, find?_isSome]
  refine exists_congr fun string => and_congr_right fun listed => ?_
  rw [beq_iff_eq, strncasecmp_eq_zero (clear string listed), decide_eq_true_iff]

/-- What each function removes. -/
def CleanUp.removal : CleanUp → Removal
  | .removeParens => ⟨(· == 0x28), (· == 0x29), []⟩
  | .removeBrackets => ⟨(· == 0x5B), (· == 0x5D), []⟩
  | f => ⟨fun c => c == 0x28 || c == 0x5B, fun c => c == 0x29 || c == 0x5D, f.spared⟩

theorem strings_solid : ∀ string ∈ regionStrings ++ discStrings,
    0 ∉ string ∧ string ≠ [] ∧ string.tail.any (fun c => c == 0x28 || c == 0x5B) = false ∧
      firm true string = true ∧
        ∀ other ∈ regionStrings ++ discStrings, Begins string other → string = other := by
  decide +kernel

theorem CleanUp.spared_subset (f : CleanUp) {string : List UInt8} (listed : string ∈ f.spared) :
    string ∈ regionStrings ++ discStrings := by
  cases f with
  | keepRegion => exact mem_append_left _ listed
  | keepDisc => exact mem_append_right _ listed
  | keepRegionAndDisc => exact listed
  | _ => cases listed

theorem opens_letters (a b : UInt8) (same : lower a = lower b) :
    (a == 0x28) = (b == 0x28) ∧ (a == 0x5B) = (b == 0x5B) := by
  have parens := @eq_iff_of_lower _ _ 0x28 (by decide) same
  have brackets := @eq_iff_of_lower _ _ 0x5B (by decide) same
  exact ⟨by rw [Bool.eq_iff_iff, beq_iff_eq, beq_iff_eq, parens],
    by rw [Bool.eq_iff_iff, beq_iff_eq, beq_iff_eq, brackets]⟩

theorem CleanUp.removal_sound (f : CleanUp) : f.removal.Sound := by
  -- Only the functions that keep something have tags, and those have both kinds of brackets.
  have both : ∀ f : CleanUp, Removal.Sound
      ⟨fun c => c == 0x28 || c == 0x5B, fun c => c == 0x29 || c == 0x5D, f.spared⟩ := fun f =>
    { nonempty := fun string listed => (strings_solid string (f.spared_subset listed)).2.1
      inner := fun string listed c inside => Bool.eq_false_iff.2
        (any_eq_false.1 (strings_solid string (f.spared_subset listed)).2.2.1 c inside)
      firm := fun string listed => (strings_solid string (f.spared_subset listed)).2.2.2.1
      apart := fun string listed other listedToo =>
        (strings_solid string (f.spared_subset listed)).2.2.2.2 other (f.spared_subset listedToo)
      letters := fun a b same => by
        obtain ⟨parens, brackets⟩ := opens_letters a b same
        exact congrArg₂ or parens brackets
      space_opens := rfl
      end_opens := rfl }
  cases f with
  | removeParens => exact ⟨nofun, nofun, nofun, nofun, fun a b same => (opens_letters a b same).1,
      by decide, by decide⟩
  | removeBrackets => exact ⟨nofun, nofun, nofun, nofun, fun a b same => (opens_letters a b same).2,
      by decide, by decide⟩
  | removeParensAndBrackets => exact both .removeParensAndBrackets
  | keepRegion => exact both .keepRegion
  | keepDisc => exact both .keepDisc
  | keepRegionAndDisc => exact both .keepRegionAndDisc

theorem CleanUp.left_eq (f : CleanUp) : f.left = f.removal.left := by
  funext text
  have excludes : ∀ strings : List (List UInt8), (∀ s ∈ strings, s ∈ regionStrings ++ discStrings) →
      leftExclusion text strings =
        (strings.find? fun string => decide (Begins string text)).isSome := fun strings listed =>
    leftExclusion_eq fun string inside => (strings_solid string (listed string inside)).1
  have region := excludes regionStrings fun _ => CleanUp.spared_subset .keepRegion
  have disc := excludes discStrings fun _ => CleanUp.spared_subset .keepDisc
  cases f with
  | removeParens => exact (Bool.and_true _).symm
  | removeBrackets => exact (Bool.and_true _).symm
  | removeParensAndBrackets => exact (Bool.and_true _).symm
  | keepRegion =>
    rw [left, leftParensOrBracketsExcludingRegion, region, Option.not_isSome]
    rfl
  | keepDisc =>
    rw [left, leftParensOrBracketsExcludingDisc, disc, Option.not_isSome]
    rfl
  | keepRegionAndDisc =>
    rw [left, leftParensOrBracketsExcludingRegionOrDisc, region, disc, Bool.and_assoc,
      ← Bool.not_or, ← Option.isSome_or, ← find?_append, Option.not_isSome]
    rfl

theorem CleanUp.right_eq (f : CleanUp) : f.right = f.removal.right := by
  cases f <;> rfl

theorem CleanUp.call_eq (f : CleanUp) (pathMaxLength : Nat) (label : List UInt8) :
    f.call pathMaxLength label = labelSanitize pathMaxLength f.left f.right label := by
  cases f <;> rfl

/-- The clean-up of a label: its removal ranges are deleted and its spaces tidied, cleaning up again
changes nothing, and the tags that are kept are still there, in order. -/
theorem cleanUp_cleans (f : CleanUp) {pathMaxLength : Nat} {label : List UInt8}
    (short : label.length < pathMaxLength) :
    ∃ result, f.call pathMaxLength label = some result ∧ result = tidied (kept f.left f.right label) ∧
      f.call pathMaxLength result = some result ∧
      List.Forall₂ f.removal.Preserved (f.removal.tags label) (f.removal.tags result) := by
  -- No range begins in the result, so what is left to do is to tidy a tidied text.
  refine ⟨tidied (kept f.left f.right label), ?_, rfl, ?_, ?_⟩
  · rw [f.call_eq, labelSanitize_eq short]
  all_goals
    have output := f.removal_sound.output label false false
    rw [← f.left_eq, ← f.right_eq, ← tidied_eq] at output
  · have shorter : (tidied (kept f.left f.right label)).length < pathMaxLength :=
      lt_of_le_of_lt (le_trans (tidied_length _) (kept_length label)) short
    have clean := output.1.kept_eq
    rw [← f.left_eq, ← f.right_eq] at clean
    rw [f.call_eq, labelSanitize_eq shorter, clean, tidied_eq, tidied_eq, spaced_spaced]
  · exact output.2

theorem cleanUp_cleans_region :
    ∃ result, CleanUp.keepRegion.call 512 (ascii "Game [b]  (Hong Kong) (v2) ") = some result ∧
      result = tidied (kept CleanUp.keepRegion.left CleanUp.keepRegion.right
        (ascii "Game [b]  (Hong Kong) (v2) ")) ∧
      CleanUp.keepRegion.call 512 result = some result ∧
      List.Forall₂ CleanUp.keepRegion.removal.Preserved
        (CleanUp.keepRegion.removal.tags (ascii "Game [b]  (Hong Kong) (v2) "))
        (CleanUp.keepRegion.removal.tags result) :=
  cleanUp_cleans .keepRegion (by decide)

theorem Removal.tags_eq_nil {r : Removal} (plain : ∀ c ∈ text, r.opens c = false) : r.tags text = [] := by
  induction text with
  | nil => exact tags_nil
  | cons c rest ih =>
    rw [tags_plain (plain c mem_cons_self)]
    exact ih fun d listed => plain d (mem_cons_of_mem c listed)

/-- Not every tag that is kept is unaltered as a whole: the two spaces of this one are merged. -/
theorem cleanUp_mergesInTag :
    ¬ ∀ (f : CleanUp) (pathMaxLength : Nat) (label : List UInt8), label.length < pathMaxLength →
      ∃ result, f.call pathMaxLength label = some result ∧
        (f.removal.tags result).map Tag.whole = (f.removal.tags label).map Tag.whole := by
  intro unaltered
  obtain ⟨result, called, same⟩ := unaltered .keepDisc 512 (ascii "(Disc  1)") (by decide)
  have cleaned : CleanUp.keepDisc.call 512 (ascii "(Disc  1)") = some (ascii "(Disc 1)") := by decide
  obtain rfl := Option.some.inj (called.symm.trans cleaned)
  have tags : ∀ rest : List UInt8, (∀ c ∈ rest, CleanUp.keepDisc.removal.opens c = false) →
      CleanUp.keepDisc.removal.sparedAt (0x28 :: rest) = some (ascii "(Disc") →
      (CleanUp.keepDisc.removal.tags (0x28 :: rest)).map Tag.whole =
        [0x28 :: CleanUp.keepDisc.removal.through rest] := by
    intro rest plain spares
    rw [Removal.tags_spared rfl spares, Removal.tags_eq_nil plain]
    rfl
  have before : ascii "(Disc  1)" = 0x28 :: ascii "Disc  1)" := by decide
  have after : ascii "(Disc 1)" = 0x28 :: ascii "Disc 1)" := by decide
  rw [before, after, tags _ (by decide +kernel) (by decide +kernel),
    tags _ (by decide +kernel) (by decide +kernel)] at same
  exact absurd same (by decide)

end Functions

end Libretro.Label
