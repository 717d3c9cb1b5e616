import Libretro.Paths.PathResolve

/-! The normal form of a path, and a path relative to a base directory, which resolves to it again. -/

namespace Libretro.Paths

open ComponentStack List Option Pieces

variable {pathMax : Nat} {stack pieces : List (List UInt8)}

section Spelled

variable {named : Prop} [Decidable named]

variable (whole : ∀ name ∈ stack, Whole name)
include whole

/-- The pieces of what is spelled are the names, with an empty piece behind those of a directory. -/
theorem splitOn_spelled : (spelled stack named).splitOn slash =
      if named ∧ stack ≠ [] then stack else stack ++ [[]] := by
  have slashless : ∀ piece ∈ stack ++ [[]], slash ∉ piece := by
    intro piece listed
    rcases mem_append.1 listed with inside | last
    · exact (whole piece inside).2
    · rw [mem_singleton.1 last]
      exact not_mem_nil
  by_cases file : named
  · by_cases empty : stack = []
    · subst empty
      simp [spelled, file]
    · rw [spelled, if_pos file, if_pos ⟨file, empty⟩, splitOn_intercalate slash
        (fun name listed => (whole name listed).2) empty]
  · rw [spelled, if_neg file, if_neg (fun both => file both.1),
      splitOn_intercalate slash slashless (by simp)]

theorem splitOn_spelled_inner {front back : List (List UInt8)}
    (splits : (spelled stack named).splitOn slash = front ++ [] :: back) : back = [] := by
  rcases eq_nil_or_concat back with rfl | ⟨others, last, rfl⟩
  · rfl
  · -- The empty piece would be a name.
    exfalso
    have inside : [] ∈ ((spelled stack named).splitOn slash).dropLast := by
      rw [splits, concat_eq_append, ← cons_append, ← append_assoc, dropLast_concat]
      simp
    rw [splitOn_spelled whole] at inside
    split at inside
    · exact (whole [] (mem_of_mem_dropLast inside)).1 rfl
    · rw [dropLast_concat] at inside
      exact (whole [] inside).1 rfl

theorem head_spelled : (spelled stack named).head? ≠ some slash := by
  intro begins
  obtain ⟨rest, spells⟩ : ∃ rest, spelled stack named = slash :: rest := by
    cases text : spelled stack named with
    | nil => rw [text] at begins; cases begins
    | cons first rest =>
      rw [text] at begins
      exact ⟨rest, by rw [some.inj begins]⟩
  have splits := congrArg (splitOn slash) spells
  rw [← nil_append (slash :: rest), splitOn_append_cons_self, splitOn_nil,
    singleton_append, ← nil_append ([] :: _)] at splits
  exact splitOn_ne_nil slash rest (splitOn_spelled_inner whole splits)

theorem spelled_not_absolute {result : List UInt8}
    (front : result <+: spelled stack named) : pathIsAbsolute result = false := by
  obtain ⟨tail, spells⟩ := front
  have begins : result.head? ≠ some slash := by
    intro first
    have head := @head_spelled stack named _ whole
    rw [← spells, head?_append, first] at head
    exact head rfl
  rw [pathIsAbsolute, decide_eq_false begins, Bool.false_or]
  cases found : Substring.find schemeMark result with
  | none => rfl
  | some place =>
    -- The two separators of a scheme have an empty piece between them.
    exfalso
    obtain ⟨rest, behind⟩ := Substring.find_prefix found
    have text : spelled stack named =
        (result.take place ++ [0x3A]) ++ slash :: ([] ++ slash :: (rest ++ tail)) := by
      have parts := take_append_drop place result
      rw [← behind] at parts
      rw [← spells]
      refine (congrArg (· ++ tail) parts.symm).trans ?_
      simp [schemeMark, slash]
    have splits := congrArg (splitOn slash) text
    rw [splitOn_append_cons_self, splitOn_append_cons_self, splitOn_nil, singleton_append] at splits
    exact splitOn_ne_nil slash _ (splitOn_spelled_inner whole splits)

omit whole

theorem mem_spelled {byte : UInt8} (listed : byte ∈ spelled stack named) :
    byte = slash ∨ ∃ name ∈ stack, byte ∈ name := by
  have placedBytes : ∀ names : List (List UInt8), byte ∈ placed 0 names →
      byte = slash ∨ ∃ name ∈ names, byte ∈ name := by
    intro names inside
    rw [placed, replicate_zero, nil_append, closed] at inside
    obtain ⟨name, member, inside⟩ := mem_flatMap.1 inside
    rcases mem_append.1 inside with letter | last
    · exact .inr ⟨name, member, letter⟩
    · exact .inl (mem_singleton.1 last)
  by_cases file : named
  · rcases eq_nil_or_concat stack with rfl | ⟨others, name, rfl⟩
    · rw [spelled, if_pos file] at listed
      cases listed
    · rw [concat_eq_append] at listed ⊢
      rw [spelled_named others name file] at listed
      rcases mem_append.1 listed with before | last
      · apply (placedBytes others before).imp_right
        rintro ⟨other, member, inside⟩
        exact ⟨other, mem_append_left _ member, inside⟩
      · exact .inr ⟨name, by simp, last⟩
  · rw [spelled_directory stack file] at listed
    exact placedBytes stack listed

include whole

theorem walk_spelled (names : ∀ name ∈ stack, Named name) :
    walk [] (((spelled stack named).splitOn slash).map step) = some stack ∧
      spelled stack (EndsNamed ((spelled stack named).splitOn slash)) = spelled stack named := by
  rw [splitOn_spelled whole]
  split
  · -- The last name is that of a file.
    rename_i file
    have ends : EndsNamed stack := by
      rcases eq_nil_or_concat stack with rfl | ⟨others, name, rfl⟩
      · exact absurd rfl file.2
      · rw [concat_eq_append] at names ⊢
        simp [EndsNamed, names name (by simp)]
    rw [walk_named [] names, spelled, if_pos ends, spelled, if_pos file.1]
    exact ⟨rfl, rfl⟩
  · rename_i directory
    have ends : ¬EndsNamed (stack ++ [[]]) := by simp [EndsNamed, Named]
    rw [map_append, walk_append, walk_named [] names]
    refine ⟨rfl, ?_⟩
    rw [spelled_directory stack ends]
    by_cases file : named
    · obtain rfl : stack = [] := not_not.1 fun some => directory ⟨file, some⟩
      rw [spelled, if_pos file]
      rfl
    · rw [spelled_directory stack file]

theorem components_spelled : components (slash :: spelled stack named) = stack := by
  have behind : piecesOf (slash :: spelled stack named) = (spelled stack named).splitOn slash := by
    simp [piecesOf, root]
  rw [components, behind, splitOn_spelled whole]
  split
  · rename_i file
    rw [if_neg]
    intro last
    exact (whole [] (mem_of_getLast? last)).1 rfl
  · rw [if_pos (by simp), dropLast_concat]

end Spelled

theorem length_spelled {after : List (List UInt8)} (nonempty : pieces ≠ [])
    (ends : walk [] (pieces.map step) = some after) :
    (spelled after (EndsNamed pieces)).length + 1 ≤ extent pieces ∧
      (EndsNamed pieces → (∃ piece ∈ pieces, ¬Named piece) →
        (spelled after (EndsNamed pieces)).length + 1 < extent pieces) := by
  obtain ⟨most, less⟩ := walk_extent ends
  rw [extent_nil, Nat.zero_add] at most less
  obtain ⟨others, last, rfl⟩ : ∃ others last, pieces = others ++ [last] := by
    rcases eq_nil_or_concat pieces with rfl | ⟨others, last, rfl⟩
    · exact absurd rfl nonempty
    · exact ⟨others, last, concat_eq_append⟩
  by_cases named : Named last
  · have file : EndsNamed (others ++ [last]) := by simp [EndsNamed, named]
    -- The last piece is entered last.
    rw [map_append, walk_append] at ends
    obtain ⟨stack, -, ends⟩ := bind_eq_some_iff.1 ends
    rw [map_singleton, step_named named] at ends
    obtain rfl := some.inj ends
    have length : (spelled (stack ++ [last]) (EndsNamed (others ++ [last]))).length + 1 =
        extent (stack ++ [last]) := by
      rw [spelled_named stack last file, length_append, length_placed, extent_append, extent_cons, extent_nil]
      omega
    rw [length]
    exact ⟨most, fun _ => less⟩
  · have directory : ¬EndsNamed (others ++ [last]) := by simp [EndsNamed, named]
    rw [spelled_directory after directory, length_placed, Nat.zero_add]
    exact ⟨less ⟨last, by simp, named⟩, fun file => absurd file directory⟩

section Call

variable {cwd : Option (List UInt8)} {len : Nat} {s rest : List UInt8}

theorem exists_roots (begins : s.head? = some slash) :
    ∃ more rest, s = replicate (more + 1) slash ++ rest ∧ rest.head? ≠ some slash := by
  -- Separators are taken off one by one.
  induction s with
  | nil => cases begins
  | cons first s ih =>
    obtain rfl := some.inj begins
    by_cases again : s.head? = some slash
    · obtain ⟨more, rest, rfl, other⟩ := ih again
      exact ⟨more + 1, rest, rfl, other⟩
    · exact ⟨0, s, rfl, again⟩

theorem copyBack_ending {out : List UInt8} {named : Prop} [Decidable named] (clear : 0 ∉ out)
    (room : (out ++ if named then [0] else []).length < pathMax) (fits : out.length < len) :
    copyBack pathMax len (.path (out ++ if named then [0] else [])) = .path out := by
  have nonzero : ∀ byte ∈ out, decide (byte ≠ 0) = true := by
    intro byte listed
    exact decide_eq_true fun zero => clear (zero ▸ listed)
  have shown : (out ++ if named then [0] else []).takeWhile (· ≠ 0) = out := by
    rw [takeWhile_append_of_pos nonzero]
    split <;> simp
  rw [copyBack, if_pos room, shown, take_of_length_le (by omega)]

theorem pathResolveRealpath_eq (more : Nat) (other : rest.head? ≠ some slash)
    (short : more + 1 + rest.length < pathMax) :
    pathResolveRealpath pathMax cwd (replicate (more + 1) slash ++ rest) len =
      copyBack pathMax len (resolveLoop pathMax (placed (more + 1) []) (rest.splitOn slash)) := by
  have absolute : pathIsAbsolute (replicate (more + 1) slash ++ rest) = true := by
    simp [pathIsAbsolute, replicate_succ]
  have front : (replicate (more + 1) slash ++ rest).takeWhile (· = slash) = replicate (more + 1) slash := by
    rw [takeWhile_append_of_pos fun byte listed => by simp [eq_of_mem_replicate listed]]
    have none : rest.takeWhile (· = slash) = [] := by
      cases rest with
      | nil => rfl
      | cons first rest =>
        have different : first ≠ slash := fun same => other (by rw [same]; rfl)
        rw [takeWhile_cons_of_neg (by simpa using different)]
    rw [none, append_nil]
  have all : (replicate (more + 1) slash).take (pathMax - 1) = replicate (more + 1) slash :=
    take_of_length_le (by rw [length_replicate]; omega)
  unfold pathResolveRealpath
  rw [if_pos absolute]
  dsimp only
  rw [front, all, drop_left, if_neg other, placed_nil]

theorem clear_spelled {after : List (List UInt8)} {named : Prop} [Decidable named]
    (clear : 0 ∉ rest) (ends : walk [] ((rest.splitOn slash).map step) = some after) :
    0 ∉ spelled after named := by
  intro zero
  rcases mem_spelled zero with separator | ⟨name, listed, zero⟩
  · exact absurd separator (by decide)
  · rcases walk_members ends listed with before | ⟨inside, -⟩
    · cases before
    · exact clear ((mem_splitOn inside).2 zero)

theorem whole_walk {after : List (List UInt8)} (ends : walk [] ((rest.splitOn slash).map step) = some after) :
    (∀ name ∈ after, Whole name) ∧ ∀ name ∈ after, Named name := by
  have members : ∀ name ∈ after, name ∈ rest.splitOn slash ∧ Named name := by
    intro name listed
    rcases walk_members ends listed with before | inside
    · cases before
    · exact inside
  exact ⟨fun name listed => ⟨(members name listed).2.2.2, (mem_splitOn (members name listed).1).1⟩,
    fun name listed => (members name listed).2⟩

/-- A path behind its roots is resolved to where its steps lead, if there is room for it and for one
byte more, or one of its pieces is no name. -/
theorem pathResolveRealpath_walk {more : Nat} (other : rest.head? ≠ some slash) (clear : 0 ∉ rest)
    (short : more + 1 + rest.length < pathMax) (fits : more + 1 + rest.length < len)
    (slack : more + 1 + rest.length + 1 < pathMax ∨ ∃ piece ∈ rest.splitOn slash, ¬Named piece) :
    pathResolveRealpath pathMax cwd (replicate (more + 1) slash ++ rest) len =
      match walk [] ((rest.splitOn slash).map step) with
      | none => .null
      | some after => .path (replicate (more + 1) slash ++
          spelled after (EndsNamed (rest.splitOn slash))) := by
  have extents := extent_splitOn slash rest
  have loop := @resolveLoop_walk pathMax (more + 1) [] (rest.splitOn slash) (Nat.succ_pos more)
    (fun _ listed => nomatch listed) (fun _ listed => (mem_splitOn listed).1)
    (by rw [extents, extent_nil]; omega)
    (slack.imp_left fun room => by rw [extents, extent_nil]; omega)
  have length := @resolveLoop_length pathMax (rest.splitOn slash) (placed (more + 1) [])
  rw [length_placed, extent_nil] at length
  rw [pathResolveRealpath_eq more other short, loop]
  cases ends : walk [] ((rest.splitOn slash).map step) with
  | none => rfl
  | some after =>
    rw [ends] at loop
    have room := length (by omega) loop
    have spells := (length_spelled (splitOn_ne_nil slash rest) ends).1
    dsimp only
    rw [ending, ← append_assoc] at room ⊢
    refine copyBack_ending ?_ room ?_
    · rw [mem_append, not_or]
      refine ⟨fun zero => ?_, clear_spelled clear ends⟩
      exact absurd (eq_of_mem_replicate zero) (by decide)
    · rw [length_append, length_replicate]
      omega

theorem pathResolveRealpath_full {more : Nat} (other : rest.head? ≠ some slash)
    (full : more + 1 + rest.length + 1 = pathMax) (named : ∀ piece ∈ rest.splitOn slash, Named piece) :
    pathResolveRealpath pathMax cwd (replicate (more + 1) slash ++ rest) len = .null := by
  have loop := @resolveLoop_full pathMax (rest.splitOn slash) (splitOn_ne_nil slash rest) named
    (placed (more + 1) []) (by rw [length_placed, extent_nil, extent_splitOn]; omega)
  rw [pathResolveRealpath_eq more other (by omega), loop]
  rfl

/-- The normal form of a path behind its roots. -/
theorem normalise_roots (more : Nat) (rest : List UInt8) : normalise (replicate (more + 1) slash ++ rest) =
      (walk [] ((rest.splitOn slash).map step)).map fun stack =>
        slash :: spelled stack (EndsNamed (rest.splitOn slash)) := by
  have begins : root (replicate (more + 1) slash ++ rest) = [slash] := by simp [root, replicate_succ]
  have behind : piecesOf (replicate (more + 1) slash ++ rest) = replicate more [] ++ rest.splitOn slash := by
    rw [piecesOf, begins, replicate_succ, cons_append, length_singleton, drop_succ_cons, drop_zero]
    -- Each further separator has an empty piece in front of it.
    induction more with
    | zero => rfl
    | succ more ih =>
      rw [replicate_succ, cons_append, ← nil_append (slash :: _),
        splitOn_append_cons_self, ih (by simp [root, replicate_succ])]
      rfl
  have stays : (replicate more ([] : List UInt8)).map step = replicate more Step.stay := by
    rw [map_replicate]
    rfl
  have same : EndsNamed (replicate more [] ++ rest.splitOn slash) ↔ EndsNamed (rest.splitOn slash) := by
    unfold EndsNamed
    rw [getLast?_append_of_ne_nil _ (splitOn_ne_nil slash rest)]
  rw [normalise, behind, begins, map_append, stays, walk_append, walk_stay, bind_some]
  simp only [same]
  rfl

/-- A path without separators in front is resolved to nothing absolute. -/
theorem pathResolveRealpath_rootless (absolute : pathIsAbsolute s = true)
    (begins : s.head? ≠ some slash) (short : s.length < pathMax) :
    pathResolveRealpath pathMax cwd s len = .outOfBounds ∨
      ∃ result, pathResolveRealpath pathMax cwd s len = .path result ∧ pathIsAbsolute result = false := by
  have none : s.takeWhile (· = slash) = [] := by
    cases s with
    | nil => rfl
    | cons first s =>
      have different : first ≠ slash := fun same => begins (by rw [same]; rfl)
      rw [takeWhile_cons_of_neg (by simpa using different)]
  -- There is an empty piece between the separators of the scheme.
  have scheme : ∃ piece ∈ s.splitOn slash, ¬Named piece := by
    rw [pathIsAbsolute, decide_eq_false begins, Bool.false_or] at absolute
    cases found : Substring.find schemeMark s with
    | none => rw [found] at absolute; cases absolute
    | some place =>
      obtain ⟨rest, behind⟩ := Substring.find_prefix found
      have text : s = (s.take place ++ [0x3A]) ++ slash :: ([] ++ slash :: rest) := by
        have parts := take_append_drop place s
        rw [← behind] at parts
        refine parts.symm.trans ?_
        simp [schemeMark, slash]
      refine ⟨[], ?_, by simp [Named]⟩
      rw [text, splitOn_append_cons_self, splitOn_append_cons_self, splitOn_nil]
      simp
  have extents := extent_splitOn slash s
  have loop := @resolveLoop_rootless pathMax [] (s.splitOn slash) (fun _ listed => nomatch listed)
    (fun _ listed => (mem_splitOn listed).1) (by rw [extents, extent_nil]; omega) (.inr scheme)
  have runs : pathResolveRealpath pathMax cwd s len =
      copyBack pathMax len (resolveLoop pathMax (placed 0 []) (s.splitOn slash)) := by
    unfold pathResolveRealpath
    rw [if_pos absolute]
    dsimp only
    rw [none, take_nil, length_nil, drop_zero, if_neg begins]
    rfl
  rw [runs]
  rcases loop with outside | ⟨after, whole, leaves⟩
  · rw [outside]
    exact .inl rfl
  · have room := resolveLoop_length (by rw [length_placed, extent_nil]; omega) leaves
    have copied : (ending after (EndsNamed (s.splitOn slash))).takeWhile (· ≠ 0) <+:
        spelled after (EndsNamed (s.splitOn slash)) := by
      rw [ending]
      split
      · rw [takeWhile_append]
        split
        · simp
        · exact takeWhile_prefix _
      · rw [append_nil]
        exact takeWhile_prefix _
    rw [leaves, copyBack, if_pos room]
    exact .inr ⟨_, rfl, spelled_not_absolute whole ((List.take_prefix _ _).trans copied)⟩

end Call

section Normal

variable {cwd : Option (List UInt8)} {len : Nat} {s : List UInt8}

theorem normalises_walk {rest : List UInt8} {after : List (List UInt8)} (clear : 0 ∉ rest)
    (short : 1 + rest.length < pathMax) (fits : 1 + rest.length < len)
    (slack : 1 + rest.length + 1 < pathMax ∨ ∃ piece ∈ rest.splitOn slash, ¬Named piece)
    (ends : walk [] ((rest.splitOn slash).map step) = some after) :
    pathIsAbsolute (slash :: spelled after (EndsNamed (rest.splitOn slash))) = true ∧
      (∀ component ∈ components (slash :: spelled after (EndsNamed (rest.splitOn slash))), Named component) ∧
      pathResolveRealpath pathMax cwd (slash :: spelled after (EndsNamed (rest.splitOn slash))) len =
        .path (slash :: spelled after (EndsNamed (rest.splitOn slash))) := by
  obtain ⟨whole, names⟩ := whole_walk ends
  obtain ⟨again, same⟩ := @walk_spelled after (EndsNamed (rest.splitOn slash)) _ whole names
  obtain ⟨length, shorter⟩ := length_spelled (splitOn_ne_nil slash rest) ends
  rw [extent_splitOn] at length shorter
  refine ⟨by simp [pathIsAbsolute], ?_, ?_⟩
  · rw [components_spelled whole]
    exact names
  · -- A file that takes as much as the path had only names already.
    have room : 1 + (spelled after (EndsNamed (rest.splitOn slash))).length + 1 < pathMax ∨
        ∃ piece ∈ (spelled after (EndsNamed (rest.splitOn slash))).splitOn slash, ¬Named piece := by
      by_cases file : EndsNamed (rest.splitOn slash)
      · refine .inl ?_
        rcases slack with room | unnamed
        · omega
        · have := shorter file unnamed
          omega
      · refine .inr ⟨[], ?_, by simp [Named]⟩
        rw [splitOn_spelled whole, if_neg fun both => file both.1]
        simp
    have resolves := @pathResolveRealpath_walk pathMax cwd len
      (spelled after (EndsNamed (rest.splitOn slash))) 0 (head_spelled whole)
      (clear_spelled clear ends) (by omega) (by omega) (by simpa using room)
    rw [again] at resolves
    dsimp only at resolves
    rw [same] at resolves
    exact resolves

/-- An absolute path that is shorter than the buffers is resolved as it should be exactly if it begins
with one separator and its components leave a byte to spare, or are not all names, or if it begins with
separators and goes above its root. -/
theorem normalises_iff (absolute : pathIsAbsolute s = true) (clear : 0 ∉ s)
    (short : s.length < pathMax) (fits : s.length < len) :
    Normalises pathMax cwd s len ↔ s.head? = some slash ∧ (normalise s = none ∨ s.tail.head? ≠ some slash ∧
          (s.length + 1 < pathMax ∨ ∃ piece ∈ piecesOf s, ¬Named piece)) := by
  unfold Normalises
  by_cases begins : s.head? = some slash
  rotate_left
  · -- A scheme loses a separator, or is left altogether.
    rcases @pathResolveRealpath_rootless pathMax cwd len s absolute begins short with
      outside | ⟨result, leaves, relative⟩
    · rw [outside]
      simp [begins]
    · rw [leaves]
      simp [begins, relative]
  · obtain ⟨more, rest, rfl, other⟩ := exists_roots begins
    have length : (replicate (more + 1) slash ++ rest).length = more + 1 + rest.length := by
      rw [length_append, length_replicate]
    rw [length] at short fits
    have clearRest : 0 ∉ rest := fun zero => clear (mem_append_right _ zero)
    rw [normalise_roots, length]
    simp only [begins, true_and]
    by_cases slack : more + 1 + rest.length + 1 < pathMax ∨ ∃ piece ∈ rest.splitOn slash, ¬Named piece
    · rw [pathResolveRealpath_walk other clearRest short fits slack]
      cases ends : walk [] ((rest.splitOn slash).map step) with
      | none => simp
      | some after =>
        obtain ⟨whole, -⟩ := whole_walk ends
        cases more with
        | zero =>
          have behind : piecesOf (replicate 1 slash ++ rest) = rest.splitOn slash := by simp [piecesOf, root]
          have one : (replicate (0 + 1) slash ++ rest).tail = rest := rfl
          have holds := @normalises_walk pathMax cwd len rest after clearRest (by omega) (by omega)
            (by simpa using slack) ends
          simp only [Nat.zero_add] at slack ⊢
          simp only [behind, map_some, reduceCtorEq, false_or, one]
          exact ⟨fun _ => ⟨other, by simpa using slack⟩, fun _ => ⟨rfl, holds⟩⟩
        | succ more =>
          -- The second separator stays.
          have different : ¬slash :: spelled after (EndsNamed (rest.splitOn slash)) =
              replicate (more + 1 + 1) slash ++ spelled after (EndsNamed (rest.splitOn slash)) := by
            intro same
            have tails := tail_eq_of_cons_eq same
            have head := @head_spelled after (EndsNamed (rest.splitOn slash)) _ whole
            rw [tails] at head
            exact head rfl
          simp only [map_some, some.injEq, different, false_and, reduceCtorEq, false_or, false_iff]
          rintro ⟨second, -⟩
          exact second rfl
    · -- Names alone fill the buffer.
      obtain ⟨noRoom, noOther⟩ := not_or.1 slack
      have named : ∀ piece ∈ rest.splitOn slash, Named piece := fun piece listed =>
        not_not.1 fun unnamed => noOther ⟨piece, listed, unnamed⟩
      rw [pathResolveRealpath_full other (by omega) named, walk_named [] named]
      simp only [map_some, reduceCtorEq, false_or, false_iff]
      rintro ⟨second, room | ⟨piece, listed, unnamed⟩⟩
      · exact noRoom room
      · cases more with
        | zero =>
          have behind : piecesOf (replicate 1 slash ++ rest) = rest.splitOn slash := by simp [piecesOf, root]
          rw [Nat.zero_add, behind] at listed
          exact unnamed (named piece listed)
        | succ more => exact second rfl

/-- Two dots lead back over a directory. -/
theorem normalises_dots : Normalises 4096 none [0x2F, 0x61, 0x2F, 0x2E, 0x2E, 0x2F, 0x62] 4096 :=
  (normalises_iff (by decide) (by decide) (by decide) (by decide)).2
    ⟨rfl, .inr ⟨by decide, .inl (by decide)⟩⟩

/-- Behind a scheme two dots lead out of the buffer. -/
theorem normalises_scheme : ¬Normalises 4096 none [0x61, 0x3A, 0x2F, 0x2F, 0x2E, 0x2E] 4096 := by
  have leaves : pathResolveRealpath 4096 none [0x61, 0x3A, 0x2F, 0x2F, 0x2E, 0x2E] 4096 = .outOfBounds := by
    decide
  unfold Normalises
  rw [leaves]
  exact id

end Normal

/-- How many bytes two paths share, and how many up to the last separator in them. -/
def splitLoop : Nat → Nat → List UInt8 → List UInt8 → Nat × Nat
  | i, j, c :: path, d :: base =>
    if c = d then splitLoop (i + 1) (if c = slash then i + 1 else j) path base else (i, j)
  | i, j, _, _ => (i, j)

/-- What is left of a path behind the directories it shares with a base, and of the base behind all
that they share. -/
def pathRelativeSplit (path base : List UInt8) : List UInt8 × List UInt8 :=
  let (i, j) := splitLoop 0 0 path base
  (path.drop j, base.drop i)

/-- Two dots and a separator for each separator of the base, while there is room for them. -/
def upLoop (len : Nat) (s : List UInt8) : List UInt8 → List UInt8
  | [] => s
  | c :: base => upLoop len (if c = slash ∧ s.length + 3 < len then s ++ [0x2E, 0x2E, slash] else s) base

/-- The length of the relative path, and what the buffer holds of it. -/
def pathRelativeTo (path base : List UInt8) (len : Nat) : Nat × List UInt8 :=
  let (trimmedPath, trimmedBase) := pathRelativeSplit path base
  let s := upLoop len [] trimmedBase
  (s.length + trimmedPath.length, s ++ trimmedPath.take (len - s.length - 1))

/-- Two paths divided behind the directories they share and behind the bytes they share. -/
structure Shared (path base front tail trimmedPath trimmedBase : List UInt8) : Prop where
  path : path = front ++ (tail ++ trimmedPath)
  base : base = front ++ (tail ++ trimmedBase)
  directory : ∃ others, front = others ++ [slash]
  slashless : slash ∉ tail

theorem splitLoop_shared {wholePath wholeBase front tail path base : List UInt8}
    (shared : Shared wholePath wholeBase front tail path base) :
    ∃ front' tail' path' base', Shared wholePath wholeBase front' tail' path' base' ∧
      splitLoop (front ++ tail).length front.length path base =
        ((front' ++ tail').length, front'.length) := by
  -- One byte is taken at a time; a separator ends a directory.
  induction path generalizing front tail base with
  | nil => exact ⟨front, tail, [], base, shared, by rw [splitLoop]; simp⟩
  | cons c path ih =>
    cases base with
    | nil => exact ⟨front, tail, c :: path, [], shared, by rw [splitLoop]; simp⟩
    | cons d base =>
      rw [splitLoop]
      by_cases same : c = d
      · subst same
        rw [if_pos rfl]
        by_cases separator : c = slash
        · subst separator
          have next : Shared wholePath wholeBase (front ++ tail ++ [slash]) [] path base :=
            ⟨by simpa using shared.path, by simpa using shared.base, ⟨_, rfl⟩, not_mem_nil⟩
          have goes := ih next
          rw [append_nil, @length_append _ (front ++ tail), length_singleton] at goes
          rw [if_pos rfl]
          exact goes
        · have next : Shared wholePath wholeBase front (tail ++ [c]) path base := by
            refine ⟨by simpa using shared.path, by simpa using shared.base, shared.directory, ?_⟩
            rw [mem_append, mem_singleton, not_or]
            exact ⟨shared.slashless, Ne.symm separator⟩
          have goes := ih next
          rw [← append_assoc, @length_append _ (front ++ tail), length_singleton] at goes
          rw [if_neg separator]
          exact goes
      · rw [if_neg same]
        exact ⟨front, tail, c :: path, d :: base, shared, rfl⟩

theorem pathRelativeSplit_shared (path base : List UInt8) :
    ∃ front tail path' base', Shared (slash :: path) (slash :: base) front tail path' base' ∧
      pathRelativeSplit (slash :: path) (slash :: base) = (tail ++ path', base') := by
  have start : Shared (slash :: path) (slash :: base) [slash] [] path base :=
    ⟨rfl, rfl, ⟨[], rfl⟩, not_mem_nil⟩
  obtain ⟨front, tail, path', base', shared, goes⟩ := splitLoop_shared start
  refine ⟨front, tail, path', base', shared, ?_⟩
  have first : splitLoop 0 0 (slash :: path) (slash :: base) = splitLoop 1 1 path base := by
    rw [splitLoop, if_pos rfl, if_pos rfl]
  have loop : splitLoop 1 1 path base = ((front ++ tail).length, front.length) := goes
  unfold pathRelativeSplit
  rw [first, loop]
  dsimp only
  rw [shared.path, shared.base, drop_left, ← append_assoc, drop_left]

/-- The way up over so many directories. -/
def ups (n : Nat) : List UInt8 := (List.replicate n [0x2E, 0x2E, slash]).flatten

theorem upLoop_eq {len : Nat} (base s : List UInt8) (room : s.length + 3 * base.count slash < len) :
    upLoop len s base = s ++ ups (base.count slash) := by
  induction base generalizing s with
  | nil => simp [upLoop, ups]
  | cons c base ih =>
    by_cases separator : c = slash
    · subst separator
      rw [count_cons_self] at room ⊢
      rw [upLoop, if_pos ⟨rfl, by omega⟩, ih _ (by simp; omega), append_assoc]
      rfl
    · rw [count_cons_of_ne separator] at room ⊢
      rw [upLoop, if_neg fun both => separator both.1, ih s room]

theorem pathRelativeTo_eq {path base trimmedPath trimmedBase : List UInt8} {len : Nat}
    (split : pathRelativeSplit path base = (trimmedPath, trimmedBase))
    (room : 3 * trimmedBase.count slash + trimmedPath.length < len) :
    (pathRelativeTo path base len).2 = ups (trimmedBase.count slash) ++ trimmedPath := by
  have length : (ups (trimmedBase.count slash)).length = 3 * trimmedBase.count slash := by
    simp [ups, Nat.mul_comm]
  unfold pathRelativeTo
  rw [split]
  dsimp only
  rw [upLoop_eq trimmedBase [] (by rw [length_nil]; omega), nil_append, length,
    take_of_length_le (by omega)]

theorem splitOn_directory {text : List UInt8} {names : List (List UInt8)}
    (splits : text.splitOn slash = names ++ [[]]) (more : List UInt8) :
    (text ++ more).splitOn slash = names ++ more.splitOn slash := by
  have spells := @intercalate_splitOn UInt8 text _ _ slash
  rw [splits, intercalate_placed, append_nil] at spells
  rw [← spells]
  refine splitOn_closed (fun name listed => ?_) more
  exact (mem_splitOn (splits ▸ mem_append_left _ listed)).1

theorem splitOn_ups (n : Nat) (more : List UInt8) :
    (ups n ++ more).splitOn slash = replicate n [0x2E, 0x2E] ++ more.splitOn slash := by
  have places : ups n = closed slash (replicate n [0x2E, 0x2E]) := by simp [ups, closed, flatMap_def]
  rw [places]
  refine splitOn_closed (fun name listed => ?_) more
  rw [eq_of_mem_replicate listed]
  decide

theorem walk_ups {front base trimmed : List UInt8} {names : List (List UInt8)}
    (splits : base.splitOn slash = names ++ [[]]) (named : ∀ name ∈ names, Named name) :
    walk [] (((front ++ slash :: (base ++ (ups names.length ++ trimmed))).splitOn slash).map step) =
      walk [] (((front ++ slash :: trimmed).splitOn slash).map step) := by
  have up : (replicate names.length ([0x2E, 0x2E] : List UInt8)).map step =
      replicate names.length Step.up := by
    rw [map_replicate]
    rfl
  rw [splitOn_append_cons_self, splitOn_append_cons_self, map_append, walk_append, map_append, walk_append]
  -- What the base enters is left again.
  refine bind_congr fun stack _ => ?_
  rw [splitOn_directory splits, splitOn_ups, map_append, walk_append, walk_named stack named,
    bind_some, map_append, up, walk_append, walk_up, bind_some]

section Joined

variable {pathMax size len : Nat} {cwd : Option (List UInt8)} {path base : List UInt8}

theorem walk_slash (rest : List UInt8) : walk [] (((slash :: rest).splitOn slash).map step) =
      walk [] ((rest.splitOn slash).map step) := by
  rw [← nil_append (slash :: rest), splitOn_append_cons_self]
  rfl

theorem endsNamed_append (front rest : List UInt8) :
    EndsNamed ((front ++ slash :: rest).splitOn slash) ↔ EndsNamed (rest.splitOn slash) := by
  unfold EndsNamed
  rw [splitOn_append_cons_self, getLast?_append_of_ne_nil _ (splitOn_ne_nil slash rest)]

theorem normal_spelled {rest : List UInt8} (normal : normalise (slash :: rest) = some (slash :: rest)) :
    ∃ after, walk [] ((rest.splitOn slash).map step) = some after ∧
      rest = spelled after (EndsNamed (rest.splitOn slash)) := by
  have form := normalise_roots 0 rest
  have whole : replicate (0 + 1) slash ++ rest = slash :: rest := rfl
  rw [whole, normal] at form
  obtain ⟨after, ends, same⟩ := map_eq_some_iff.1 form.symm
  exact ⟨after, ends, (tail_eq_of_cons_eq same).symm⟩

theorem normal_named {rest : List UInt8} (normal : normalise (slash :: rest) = some (slash :: rest))
    {front : List (List UInt8)} {last : List UInt8}
    (splits : rest.splitOn slash = front ++ [last]) : ∀ name ∈ front, Named name := by
  obtain ⟨after, ends, spells⟩ := normal_spelled normal
  obtain ⟨whole, names⟩ := whole_walk ends
  have again := @splitOn_spelled after (EndsNamed (rest.splitOn slash)) _ whole
  rw [← spells, splits] at again
  intro name listed
  have inside : name ∈ (front ++ [last]).dropLast := by rwa [dropLast_concat]
  rw [again] at inside
  split at inside
  · exact names name (mem_of_mem_dropLast inside)
  · rw [dropLast_concat] at inside
    exact names name inside

theorem exists_ups (text trimmed : List UInt8) (n : Nat) :
    ∃ before, text ++ slash :: (ups n ++ trimmed) = before ++ slash :: trimmed := by
  cases n with
  | zero => exact ⟨text, rfl⟩
  | succ n =>
    refine ⟨text ++ slash :: (ups n ++ [0x2E, 0x2E]), ?_⟩
    simp [ups, replicate_succ']

theorem pathRelativeTo_rooted (normalPath : normalise (slash :: path) = some (slash :: path))
    (normalBase : normalise (slash :: base) = some (slash :: base))
    (directory : (slash :: base).getLast? = some slash) (clearPath : 0 ∉ path) (clearBase : 0 ∉ base)
    (sufficient : 3 * (pathRelativeSplit (slash :: path) (slash :: base)).2.count slash +
      (pathRelativeSplit (slash :: path) (slash :: base)).1.length < len)
    (room : (slash :: base ++ (pathRelativeTo (slash :: path) (slash :: base) len).2).length + 1 < pathMax)
    (fits : (slash :: base ++ (pathRelativeTo (slash :: path) (slash :: base) len).2).length < size) :
    pathResolveRealpath pathMax cwd
        (slash :: base ++ (pathRelativeTo (slash :: path) (slash :: base) len).2) size =
      .path (slash :: path) := by
  obtain ⟨front, tail, path', base', shared, split⟩ := pathRelativeSplit_shared path base
  obtain ⟨others, rfl⟩ := shared.directory
  rw [split] at sufficient
  rw [pathRelativeTo_eq split sufficient] at room fits ⊢
  have whole : slash :: path = others ++ slash :: (tail ++ path') := by
    rw [shared.path, append_assoc, singleton_append]
  have divided : slash :: base = others ++ slash :: (tail ++ base') := by
    rw [shared.base, append_assoc, singleton_append]
  -- What the base does not share is a directory, and its separators are those of its names.
  obtain ⟨names, splits, named⟩ : ∃ names, (tail ++ base').splitOn slash = names ++ [[]] ∧
      ∀ name ∈ names, Named name := by
    obtain ⟨text, ends⟩ := getLast?_eq_some_iff.1 directory
    have parts : others.splitOn slash ++ (tail ++ base').splitOn slash = text.splitOn slash ++ [[]] := by
      rw [← splitOn_append_cons_self, ← divided, ends, splitOn_append_cons_self]
      rfl
    have rooted : others.splitOn slash ++ (tail ++ base').splitOn slash = [] :: base.splitOn slash := by
      rw [← splitOn_append_cons_self, ← divided, ← nil_append (slash :: base),
        splitOn_append_cons_self]
      rfl
    rcases eq_nil_or_concat ((tail ++ base').splitOn slash) with none | ⟨names, last, splits⟩
    · exact absurd none (splitOn_ne_nil _ _)
    · rw [concat_eq_append] at splits
      rw [splits, ← append_assoc] at parts rooted
      obtain ⟨-, final⟩ := append_inj' parts rfl
      obtain rfl := singleton_inj.1 final
      refine ⟨names, splits, fun name listed => ?_⟩
      cases above : others.splitOn slash with
      | nil => exact absurd above (splitOn_ne_nil _ _)
      | cons first more =>
        rw [above, cons_append, cons_append] at rooted
        exact normal_named normalBase (tail_eq_of_cons_eq rooted).symm name (mem_append_right _ listed)
  have count : base'.count slash = names.length := by
    have pieces := length_splitOn slash (tail ++ base')
    rw [splits, length_append, count_append, count_eq_zero.2 shared.slashless] at pieces
    simpa using pieces.symm
  obtain ⟨after, ends, spells⟩ := normal_spelled normalPath
  obtain ⟨wholeNames, -⟩ := whole_walk ends
  have joined : slash :: base ++ (ups names.length ++ (tail ++ path')) =
      others ++ slash :: (tail ++ base' ++ (ups names.length ++ (tail ++ path'))) := by
    rw [divided]
    simp only [append_assoc, cons_append]
  have same : walk [] (((base ++ (ups names.length ++ (tail ++ path'))).splitOn slash).map step) =
      some after := by
    rw [← walk_slash, ← cons_append, joined, walk_ups splits named, ← whole, walk_slash]
    exact ends
  have last : EndsNamed ((base ++ (ups names.length ++ (tail ++ path'))).splitOn slash) ↔
      EndsNamed (path.splitOn slash) := by
    obtain ⟨text, baseEnds⟩ := getLast?_eq_some_iff.1 directory
    obtain ⟨before, stands⟩ := exists_ups text (tail ++ path') names.length
    have ended : slash :: (base ++ (ups names.length ++ (tail ++ path'))) =
        before ++ slash :: (tail ++ path') := by
      rw [← stands, ← cons_append, baseEnds, append_assoc]
      rfl
    rw [← endsNamed_append [] (base ++ _), ← endsNamed_append [] path, nil_append,
      nil_append, ended, whole, endsNamed_append, endsNamed_append]
  have head : (base ++ (ups names.length ++ (tail ++ path'))).head? ≠ some slash := by
    cases base with
    | nil =>
      -- The base is the root, and everything of the path is behind it.
      have alone := congrArg length divided
      simp only [length_cons, length_nil, length_append] at alone
      obtain rfl : others = [] := eq_nil_of_length_eq_zero (by omega)
      obtain rfl : base' = [] := eq_nil_of_length_eq_zero (by omega)
      have here : ups names.length ++ (tail ++ path') = path := by
        rw [← count]
        exact (tail_eq_of_cons_eq whole).symm
      rw [nil_append, here, spells]
      exact head_spelled wholeNames
    | cons first base =>
      obtain ⟨stack, baseWalk, baseSpells⟩ := normal_spelled normalBase
      have begins := @head_spelled stack (EndsNamed ((first :: base).splitOn slash)) _ (whole_walk baseWalk).1
      rw [← baseSpells] at begins
      exact begins
  have clear : 0 ∉ base ++ (ups names.length ++ (tail ++ path')) := by
    intro zero
    rcases mem_append.1 zero with inside | zero
    · exact clearBase inside
    rcases mem_append.1 zero with inside | zero
    · obtain ⟨up, listed, inside⟩ := mem_flatten.1 inside
      rw [eq_of_mem_replicate listed] at inside
      exact absurd inside (by decide)
    · have listed : 0 ∈ slash :: path := whole ▸ mem_append_right _ (mem_cons_of_mem _ zero)
      rcases mem_cons.1 listed with separator | inside
      · exact absurd separator (by decide)
      · exact clearPath inside
  rw [count, cons_append] at room fits ⊢
  rw [length_cons] at room fits
  have resolves := @pathResolveRealpath_walk pathMax cwd size
    (base ++ (ups names.length ++ (tail ++ path'))) 0 head clear (by omega) (by omega)
    (.inl (by omega))
  rw [same] at resolves
  dsimp only at resolves
  simp only [last] at resolves
  rw [← spells] at resolves
  exact resolves

theorem exists_rest (begins : path.head? = some slash) : ∃ rest, path = slash :: rest := by
  obtain ⟨more, rest, rfl, -⟩ := exists_roots begins
  exact ⟨replicate more slash ++ rest, rfl⟩

theorem pathIsAbsolute_append (absolute : pathIsAbsolute path = true) (more : List UInt8) :
    pathIsAbsolute (path ++ more) = true := by
  unfold pathIsAbsolute at absolute ⊢
  rcases Bool.or_eq_true_iff.1 absolute with begins | scheme
  · obtain ⟨rest, rfl⟩ := exists_rest (of_decide_eq_true begins)
    simp
  · cases found : Substring.find schemeMark path with
    | none => rw [found] at scheme; cases scheme
    | some place =>
      rw [found] at scheme
      rw [Substring.find_append found more, scheme, Bool.or_true]

theorem clear_relative (clear : 0 ∉ path) (sufficient : 3 * (pathRelativeSplit path base).2.count slash +
      (pathRelativeSplit path base).1.length < len) : 0 ∉ (pathRelativeTo path base len).2 := by
  rw [pathRelativeTo_eq (Prod.eta _).symm sufficient]
  intro zero
  rcases mem_append.1 zero with inside | inside
  · obtain ⟨up, listed, inside⟩ := mem_flatten.1 inside
    rw [eq_of_mem_replicate listed] at inside
    exact absurd inside (by decide)
  · exact clear (mem_of_mem_drop inside)

/-- A normal absolute path that is relative to a normal absolute base directory resolves to itself
behind the base exactly if both begin with a separator. -/
theorem pathRelativeTo_resolves_iff (absolutePath : pathIsAbsolute path = true)
    (absoluteBase : pathIsAbsolute base = true) (normalPath : normalise path = some path)
    (normalBase : normalise base = some base) (directory : base.getLast? = some slash)
    (clearPath : 0 ∉ path) (clearBase : 0 ∉ base)
    (sufficient : 3 * (pathRelativeSplit path base).2.count slash +
      (pathRelativeSplit path base).1.length < len)
    (room : (base ++ (pathRelativeTo path base len).2).length + 1 < pathMax)
    (fits : (base ++ (pathRelativeTo path base len).2).length < size) :
    pathResolveRealpath pathMax cwd (base ++ (pathRelativeTo path base len).2) size = .path path ↔
      path.head? = some slash ∧ base.head? = some slash := by
  have clear : 0 ∉ base ++ (pathRelativeTo path base len).2 := by
    rw [mem_append, not_or]
    exact ⟨clearBase, clear_relative clearPath sufficient⟩
  constructor
  · intro resolves
    have baseBegins : base.head? = some slash := by
      -- What has no separator in front resolves to nothing absolute.
      by_contra other
      have headless : (base ++ (pathRelativeTo path base len).2).head? ≠ some slash := by
        cases base with
        | nil => cases directory
        | cons first base => exact other
      rcases @pathResolveRealpath_rootless pathMax cwd size _ (pathIsAbsolute_append absoluteBase _)
        headless (by omega) with outside | ⟨result, leaves, relative⟩
      · rw [outside] at resolves
        cases resolves
      · rw [leaves] at resolves
        rw [Resolved.path.inj resolves, absolutePath] at relative
        cases relative
    refine ⟨?_, baseBegins⟩
    obtain ⟨more, rest, joined, other⟩ := @exists_roots (base ++ (pathRelativeTo path base len).2) (by
      obtain ⟨rest, rfl⟩ := exists_rest baseBegins
      rfl)
    rw [joined] at resolves room fits clear
    rw [length_append, length_replicate] at room fits
    rw [pathResolveRealpath_walk other (fun zero => clear (mem_append_right _ zero)) (by omega)
      fits (.inl room)] at resolves
    split at resolves
    · cases resolves
    · rw [← Resolved.path.inj resolves]
      rfl
  · rintro ⟨pathBegins, baseBegins⟩
    obtain ⟨path, rfl⟩ := exists_rest pathBegins
    obtain ⟨base, rfl⟩ := exists_rest baseBegins
    exact pathRelativeTo_rooted normalPath normalBase directory
      (fun zero => clearPath (mem_cons_of_mem _ zero))
      (fun zero => clearBase (mem_cons_of_mem _ zero)) sufficient room fits

/-- A file of one directory relative to another one whose name begins alike. -/
theorem pathRelativeTo_neighbour : pathResolveRealpath 4096 none ([0x2F, 0x61, 0x62, 0x2F] ++
      (pathRelativeTo [0x2F, 0x61, 0x2F, 0x63] [0x2F, 0x61, 0x62, 0x2F] 256).2) 4096 =
        .path [0x2F, 0x61, 0x2F, 0x63] :=
  (pathRelativeTo_resolves_iff (by decide) (by decide) (by decide) (by decide) (by decide) (by decide)
    (by decide) (by decide) (by decide) (by decide)).2 ⟨by decide, by decide⟩

/-- A file behind a scheme: both paths are normal, and a separator of the scheme is lost. -/
theorem pathRelativeTo_scheme :
    normalise [0x61, 0x3A, 0x2F, 0x2F, 0x62] = some [0x61, 0x3A, 0x2F, 0x2F, 0x62] ∧
      normalise [0x61, 0x3A, 0x2F, 0x2F, 0x63, 0x2F] = some [0x61, 0x3A, 0x2F, 0x2F, 0x63, 0x2F] ∧
      ¬pathResolveRealpath 4096 none ([0x61, 0x3A, 0x2F, 0x2F, 0x63, 0x2F] ++
        (pathRelativeTo [0x61, 0x3A, 0x2F, 0x2F, 0x62] [0x61, 0x3A, 0x2F, 0x2F, 0x63, 0x2F] 256).2)
          4096 = .path [0x61, 0x3A, 0x2F, 0x2F, 0x62] := by
  decide

end Joined

end Libretro.Paths
