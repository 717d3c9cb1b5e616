import Libretro.Library.ComponentStack
import Libretro.Library.Pieces
import Libretro.Library.Substring
import Mathlib.Data.List.Infix

/-! Absolute paths, what their dots and empty pieces resolve to, and short forms of special paths. -/

namespace Libretro.Paths

/-- The separator of a path. -/
def isSlash (c : UInt8) : Bool := c = 0x2F

/-- Whether a path begins with a separator. -/
def beginsSlash (path : List UInt8) : Bool := path.head?.any isSlash

/-- Whether a path ends with a separator. -/
def endsSlash (path : List UInt8) : Bool := path.getLast?.any isSlash

/-- The sign of the application's directory. -/
def applicationSign : UInt8 := 0x3A

/-- The sign of the home directory. -/
def homeSign : UInt8 := 0x7E

/-- A path whose sign is replaced by a directory; `none` when bytes behind its terminator are read. -/
def expandWith (appDir inPath : List UInt8) : Option (List UInt8) :=
  if appDir ≠ [] then
    if inPath.length < 2 then none
    else some (appDir ++ (if endsSlash appDir then [] else [0x2F]) ++ inPath.drop 2)
  else some inPath

/-- A path with its sign replaced by the directory that it stands for. -/
def fillPathnameExpandSpecial (applicationDir homeDir inPath : List UInt8) : Option (List UInt8) :=
  if inPath.head? = some homeSign then expandWith homeDir inPath
  else if inPath.head? = some applicationSign then expandWith applicationDir inPath
  else some inPath

/-- A path below a directory, with a sign and a separator in its place. -/
def abbreviateWith (sign : UInt8) (candidate inPath : List UInt8) : List UInt8 :=
  let rest := inPath.drop candidate.length
  sign :: if beginsSlash rest then rest else 0x2F :: rest

/-- A path with a sign for the first of the two directories that it begins with. -/
def fillPathnameAbbreviateSpecial (applicationDir homeDir inPath : List UInt8) : List UInt8 :=
  if applicationDir ≠ [] ∧ applicationDir <+: inPath then
    abbreviateWith applicationSign applicationDir inPath
  else if homeDir ≠ [] ∧ homeDir <+: inPath then abbreviateWith homeSign homeDir inPath
  else inPath

/-- A path divides behind a directory at one separator: the directory's last or the rest's first. -/
def Divides (candidate inPath : List UInt8) : Prop :=
  endsSlash candidate ≠ beginsSlash (inPath.drop candidate.length)

instance (candidate inPath : List UInt8) : Decidable (Divides candidate inPath) :=
  inferInstanceAs (Decidable (_ ≠ _))

section RoundTrip

variable {applicationDir homeDir candidate inPath : List UInt8}

theorem expandWith_abbreviateWith (sign : UInt8) (nonempty : candidate ≠ []) (below : candidate <+: inPath) :
    expandWith candidate (abbreviateWith sign candidate inPath) = some inPath ↔ Divides candidate inPath := by
  obtain ⟨rest, rfl⟩ := below
  unfold expandWith abbreviateWith Divides
  rw [if_pos nonempty, List.drop_left]
  cases rest with
  | nil =>
    -- The path is the directory.
    cases ending : endsSlash candidate <;> simp [beginsSlash]
  | cons first rest =>
    by_cases slash : first = 0x2F
    · -- A separator follows the directory.
      subst slash
      cases ending : endsSlash candidate <;> simp [beginsSlash, isSlash]
    · cases ending : endsSlash candidate <;> simp [beginsSlash, isSlash, slash]

theorem expandWith_ne (nonempty : candidate ≠ []) (other : ¬candidate <+: inPath) :
    expandWith candidate inPath ≠ some inPath := by
  intro same
  unfold expandWith at same
  rw [if_pos nonempty] at same
  split at same
  · cases same
  · have written := Option.some.inj same
    rw [List.append_assoc] at written
    exact other ⟨_, written⟩

/-- The short form of a path expands to the path exactly if the path divides at one separator behind
the directory it begins with, or begins neither with a directory nor with the sign of one. -/
theorem expand_abbreviate_iff (applicationDir homeDir inPath : List UInt8) :
    fillPathnameExpandSpecial applicationDir homeDir
        (fillPathnameAbbreviateSpecial applicationDir homeDir inPath) = some inPath ↔
      if applicationDir ≠ [] ∧ applicationDir <+: inPath then Divides applicationDir inPath
      else if homeDir ≠ [] ∧ homeDir <+: inPath then Divides homeDir inPath
      else ¬(inPath.head? = some homeSign ∧ homeDir ≠ []) ∧
        ¬(inPath.head? = some applicationSign ∧ applicationDir ≠ []) := by
  unfold fillPathnameAbbreviateSpecial
  by_cases application : applicationDir ≠ [] ∧ applicationDir <+: inPath
  · -- The sign is that of the application's directory.
    rw [if_pos application, if_pos application, fillPathnameExpandSpecial,
      if_neg (by simp [abbreviateWith, homeSign, applicationSign]),
      if_pos (by simp [abbreviateWith])]
    exact expandWith_abbreviateWith _ application.1 application.2
  · rw [if_neg application, if_neg application]
    by_cases home : homeDir ≠ [] ∧ homeDir <+: inPath
    · -- The sign is that of the home directory.
      rw [if_pos home, if_pos home, fillPathnameExpandSpecial, if_pos (by simp [abbreviateWith])]
      exact expandWith_abbreviateWith _ home.1 home.2
    · -- There is no sign, unless the path begins with one itself.
      rw [if_neg home, if_neg home, fillPathnameExpandSpecial]
      by_cases isHome : inPath.head? = some homeSign
      · rw [if_pos isHome]
        by_cases empty : homeDir = []
        · simp [expandWith, empty, isHome, homeSign, applicationSign]
        · have differs := expandWith_ne empty fun below => home ⟨empty, below⟩
          simp [differs, isHome, empty]
      · rw [if_neg isHome]
        by_cases isApplication : inPath.head? = some applicationSign
        · rw [if_pos isApplication]
          by_cases empty : applicationDir = []
          · simp [expandWith, empty, isHome]
          · have differs := expandWith_ne empty fun below => application ⟨empty, below⟩
            simp [differs, isApplication, empty]
        · simp [isHome, isApplication]

/-- A neighbour of the home directory is taken for a path inside it. -/
theorem expand_abbreviate_neighbour :
    ¬fillPathnameExpandSpecial [] [0x2F, 0x61] (fillPathnameAbbreviateSpecial [] [0x2F, 0x61]
      [0x2F, 0x61, 0x62]) = some [0x2F, 0x61, 0x62] := by
  decide

end RoundTrip

open ComponentStack List Option Pieces Nat

/-- The separator of a path. -/
def slash : UInt8 := 0x2F

/-- What stands between the scheme of a path and the rest. -/
def schemeMark : List UInt8 := [0x3A, 0x2F, 0x2F]

/-- Whether a path is absolute: it begins with a separator or has a scheme. -/
def pathIsAbsolute (path : List UInt8) : Bool :=
  path.head? = some slash || (Substring.find schemeMark path).any (0 < ·)

/-- What a call does: it indexes its buffer out of bounds, returns a null pointer, or leaves a path. -/
inductive Resolved
  | outOfBounds
  | null
  | path (s : List UInt8)
deriving DecidableEq

/-- From an index of the buffer back to a separator. -/
def backTo (tmp : List UInt8) : Nat → Option Nat
  | 0 => if tmp[0]? = some slash then some 0 else none
  | t + 1 => if tmp[t + 1]? = some slash then some (t + 1) else backTo tmp t

/-- The pieces of a path are written to the buffer one after another, each with what follows it. -/
@[simp] def resolveLoop (pathMax : Nat) (tmp : List UInt8) : List (List UInt8) → Resolved
  | [] => .path tmp
  | piece :: rest =>
    if piece = [0x2E, 0x2E] then
      if tmp.length = 1 then .null
      else if tmp.length < 2 then .outOfBounds
      else if tmp[tmp.length - 2]? = some slash then .null
      else
        match backTo tmp (tmp.length - 2) with
        | none => .outOfBounds
        | some t => resolveLoop pathMax (tmp.take (t + 1)) rest
    else if piece = [0x2E] ∨ piece = [] then resolveLoop pathMax tmp rest
    else if pathMax - 1 < tmp.length + piece.length + 1 then .null
    else resolveLoop pathMax (tmp ++ piece ++ [if rest = [] then 0 else slash]) rest

/-- The terminator is written, and the string that the buffer holds is copied as far as it fits. -/
def copyBack (pathMax len : Nat) : Resolved → Resolved
  | .path tmp => if tmp.length < pathMax then .path ((tmp.takeWhile (· ≠ 0)).take (len - 1)) else .outOfBounds
  | failed => failed

/-- A path without links resolved; one that is not absolute is taken from the working directory. -/
def pathResolveRealpath (pathMax : Nat) (cwd : Option (List UInt8)) (s : List UInt8) (len : Nat) : Resolved :=
  if pathIsAbsolute s then
    let tmp := (s.takeWhile (· = slash)).take (pathMax - 1)
    let p := s.drop tmp.length
    if p.head? = some slash then .null
    else copyBack pathMax len (resolveLoop pathMax tmp (p.splitOn slash))
  else
    match cwd with
    | none => .null
    | some cwd =>
      if cwd = [] then .outOfBounds
      else
        let tmp := if cwd.getLast? = some slash then cwd else cwd ++ [slash]
        if s = [] then copyBack pathMax len (.path tmp)
        else if pathMax ≤ tmp.length + s.length then .null
        else copyBack pathMax len (resolveLoop pathMax tmp (s.splitOn slash))

/-- A piece that names something: it is not empty and no dots. -/
def Named (piece : List UInt8) : Prop := piece ≠ [0x2E, 0x2E] ∧ piece ≠ [0x2E] ∧ piece ≠ []

instance (piece : List UInt8) : Decidable (Named piece) := inferInstanceAs (Decidable (_ ∧ _))

/-- The step that a piece stands for. -/
def step (piece : List UInt8) : Step (List UInt8) :=
  if piece = [0x2E, 0x2E] then .up else if Named piece then .enter piece else .stay

/-- What a path begins with that is never left: its first separator, or its scheme. -/
def root (path : List UInt8) : List UInt8 :=
  if path.head? = some slash then [slash]
  else
    match Substring.find schemeMark path with
    | some place => path.take (place + schemeMark.length)
    | none => []

/-- The pieces of a path behind its root. -/
def piecesOf (path : List UInt8) : List (List UInt8) := (path.drop (root path).length).splitOn slash

/-- The components of a path: its pieces, without an empty last one. -/
def components (path : List UInt8) : List (List UInt8) :=
  if (piecesOf path).getLast? = some [] then (piecesOf path).dropLast else piecesOf path

/-- Whether the last piece names something. -/
def EndsNamed (pieces : List (List UInt8)) : Prop :=
  pieces.getLast?.any (fun piece => decide (Named piece)) = true

instance (pieces : List (List UInt8)) : Decidable (EndsNamed pieces) := inferInstanceAs (Decidable (_ = true))

/-- Names with separators between them; one that is no name is at the end of a directory. -/
def spelled (stack : List (List UInt8)) (named : Prop) [Decidable named] : List UInt8 :=
  [slash].intercalate (if named then stack else stack ++ [[]])

/-- A path with its steps taken on a stack of names; `none` if it goes above its root. -/
def normalise (path : List UInt8) : Option (List UInt8) :=
  (walk [] ((piecesOf path).map step)).map fun stack =>
    root path ++ spelled stack (EndsNamed (piecesOf path))

/-- A path is resolved as it should be: inside the buffer, to an absolute path of ordinary components
that is what its steps lead to and resolves to itself, and to none if it goes above its root. -/
def Normalises (pathMax : Nat) (cwd : Option (List UInt8)) (s : List UInt8) (len : Nat) : Prop :=
  match pathResolveRealpath pathMax cwd s len with
  | .outOfBounds => False
  | .null => normalise s = none
  | .path result =>
    normalise s = some result ∧ pathIsAbsolute result = true ∧
      (∀ component ∈ components result, Named component) ∧
      pathResolveRealpath pathMax cwd result len = .path result

theorem step_named {piece : List UInt8} (named : Named piece) : step piece = .enter piece := by
  rw [step, if_neg named.1, if_pos named]

theorem step_other {piece : List UInt8} (other : piece ≠ [0x2E, 0x2E]) (unnamed : ¬Named piece) :
    step piece = .stay := by
  rw [step, if_neg other, if_neg unnamed]

theorem walk_named (stack : List (List UInt8)) {pieces : List (List UInt8)}
    (named : ∀ piece ∈ pieces, Named piece) :
    walk stack (pieces.map step) = some (stack ++ pieces) := by
  have enters : pieces.map step = pieces.map .enter :=
    map_congr_left fun piece listed => step_named (named piece listed)
  rw [enters, walk_enter]

/-- A walk takes names from the pieces only. -/
theorem walk_members {pieces stack after : List (List UInt8)}
    (ends : walk stack (pieces.map step) = some after) {name : List UInt8} (listed : name ∈ after) :
    name ∈ stack ∨ (name ∈ pieces ∧ Named name) := by
  -- The pieces are followed one by one.
  induction pieces generalizing stack with
  | nil =>
    obtain rfl := some.inj ends
    exact .inl listed
  | cons piece rest ih =>
    rw [map_cons, walk] at ends
    obtain ⟨next, moves, ends⟩ := bind_eq_some_iff.1 ends
    rcases ih ends with before | ⟨inside, named⟩
    rotate_left
    · exact .inr ⟨mem_cons_of_mem _ inside, named⟩
    · unfold step at moves
      split at moves
      · unfold move at moves
        dsimp only at moves
        split at moves
        · cases moves
        · obtain rfl := some.inj moves
          exact .inl (mem_of_mem_dropLast before)
      · split at moves
        · rename_i named
          obtain rfl := some.inj moves
          rcases mem_append.1 before with inside | last
          · exact .inl inside
          · rw [mem_singleton.1 last]
            exact .inr ⟨mem_cons_self, named⟩
        · obtain rfl := some.inj moves
          exact .inl before

/-- A walk leaves no more than it was given, and less if not every piece is a name. -/
theorem walk_extent {pieces stack after : List (List UInt8)}
    (ends : walk stack (pieces.map step) = some after) :
    extent after ≤ extent stack + extent pieces ∧
      ((∃ piece ∈ pieces, ¬Named piece) → extent after < extent stack + extent pieces) := by
  induction pieces generalizing stack with
  | nil =>
    obtain rfl := some.inj ends
    exact ⟨le_refl _, by rintro ⟨_, ⟨⟩, _⟩⟩
  | cons piece rest ih =>
    rw [map_cons, walk] at ends
    obtain ⟨next, moves, ends⟩ := bind_eq_some_iff.1 ends
    obtain ⟨most, less⟩ := ih ends
    rw [extent_cons]
    by_cases named : Named piece
    · -- What is entered is what the piece takes.
      rw [step_named named] at moves
      obtain rfl := some.inj moves
      rw [extent_append, extent_cons, extent_nil] at most less
      refine ⟨by omega, ?_⟩
      rintro ⟨other, listed, unnamed⟩
      rcases mem_cons.1 listed with rfl | behind
      · exact absurd named unnamed
      · have := less ⟨other, behind, unnamed⟩
        omega
    · have kept : extent next ≤ extent stack := by
        by_cases dots : piece = [0x2E, 0x2E]
        · rw [step, if_pos dots, move] at moves
          split at moves
          · cases moves
          · obtain rfl := some.inj moves
            rcases eq_nil_or_concat stack with rfl | ⟨front, last, rfl⟩
            · exact le_refl _
            · rw [concat_eq_append, dropLast_concat, extent_append]
              omega
        · rw [step_other dots named] at moves
          obtain rfl := some.inj moves
          exact le_refl _
      exact ⟨by omega, fun _ => by omega⟩

/-- A buffer that holds a root of separators and names with a separator behind each. -/
def placed (roots : Nat) (stack : List (List UInt8)) : List UInt8 :=
  List.replicate roots slash ++ closed slash stack

/-- A name is not empty and has no separator. -/
def Whole (name : List UInt8) : Prop := name ≠ [] ∧ slash ∉ name

variable {pathMax roots : Nat} {stack pieces : List (List UInt8)}

theorem length_placed (roots : Nat) (stack : List (List UInt8)) :
    (placed roots stack).length = roots + extent stack := by
  rw [placed, length_append, length_replicate, length_closed]

theorem placed_snoc (roots : Nat) (stack : List (List UInt8)) (name : List UInt8) :
    placed roots (stack ++ [name]) = placed roots stack ++ (name ++ [slash]) := by
  rw [placed, placed, closed_snoc, append_assoc]

theorem placed_nil (roots : Nat) : placed roots [] = replicate roots slash := by
  rw [placed, closed_nil, append_nil]

theorem placed_ends (roots : Nat) (stack : List (List UInt8)) :
    placed roots stack = [] ∨ ∃ front, placed roots stack = front ++ [slash] := by
  rcases closed_ends slash stack with empty | ⟨front, ends⟩
  · cases roots with
    | zero => exact .inl (by rw [placed, empty]; rfl)
    | succ roots =>
      refine .inr ⟨replicate roots slash, ?_⟩
      rw [placed, empty, append_nil, replicate_succ']
  · refine .inr ⟨replicate roots slash ++ front, ?_⟩
    rw [placed, ends, append_assoc]

theorem intercalate_placed (stack : List (List UInt8)) (last : List UInt8) :
    [slash].intercalate (stack ++ [last]) = placed 0 stack ++ last := by
  rw [intercalate_closed]
  rfl

theorem spelled_directory (stack : List (List UInt8)) {named : Prop} [Decidable named]
    (directory : ¬named) : spelled stack named = placed 0 stack := by
  rw [spelled, if_neg directory, intercalate_placed, append_nil]

theorem spelled_named (stack : List (List UInt8)) (name : List UInt8) {named : Prop}
    [Decidable named] (file : named) : spelled (stack ++ [name]) named = placed 0 stack ++ name := by
  rw [spelled, if_pos file, intercalate_placed]

theorem placed_roots (roots : Nat) (stack : List (List UInt8)) :
    placed roots stack = replicate roots slash ++ placed 0 stack := by
  rw [placed, placed, replicate_zero, nil_append]

theorem backTo_some {tmp : List UInt8} {place t : Nat} (found : tmp[place]? = some slash)
    (before : place ≤ t) (others : ∀ i, place < i → i ≤ t → tmp[i]? ≠ some slash) :
    backTo tmp t = some place := by
  induction t with
  | zero =>
    obtain rfl := le_zero.1 before
    rw [backTo, if_pos found]
  | succ t ih =>
    rw [backTo]
    by_cases here : place = t + 1
    · rw [← here, if_pos found]
    · rw [if_neg (others (t + 1) (by omega) (le_refl _))]
      exact ih (by omega) fun i behind inside => others i behind (by omega)

theorem backTo_none {tmp : List UInt8} {t : Nat} (others : ∀ i ≤ t, tmp[i]? ≠ some slash) :
    backTo tmp t = none := by
  induction t with
  | zero => rw [backTo, if_neg (others 0 (le_refl _))]
  | succ t ih =>
    rw [backTo, if_neg (others (t + 1) (le_refl _))]
    exact ih fun i inside => others i (by omega)

theorem Whole.getElem {name : List UInt8} (whole : Whole name) (front : List UInt8) {i : Nat}
    (behind : front.length ≤ i) (inside : i < front.length + name.length) :
    (front ++ (name ++ [slash]))[i]? ≠ some slash := by
  rw [getElem?_append_right behind, getElem?_append_left (by omega)]
  intro same
  exact whole.2 (mem_of_getElem? same)

theorem resolveLoop_up {name : List UInt8} (whole : Whole name) (rest : List (List UInt8)) :
    resolveLoop pathMax (placed roots (stack ++ [name])) ([0x2E, 0x2E] :: rest) =
      if placed roots stack = [] then .outOfBounds
      else resolveLoop pathMax (placed roots stack) rest := by
  have positive := length_pos_iff.2 whole.1
  have length : (placed roots stack ++ (name ++ [slash])).length =
      (placed roots stack).length + name.length + 1 := by
    rw [length_append, length_append, length_singleton, add_assoc]
  rw [resolveLoop, if_pos rfl, placed_snoc, length, if_neg (by omega), if_neg (by omega),
    if_neg (whole.getElem _ (by omega) (by omega))]
  rcases placed_ends roots stack with empty | ⟨front, ends⟩
  · -- Nothing stands before the name.
    rw [if_pos empty, backTo_none fun i inside => whole.getElem _ (by simp [empty]) (by omega)]
  · -- The separator before the name is found.
    have nonempty : placed roots stack ≠ [] := by simp [ends]
    have place : (placed roots stack).length = front.length + 1 := by
      rw [ends, length_append, length_singleton]
    have found : (placed roots stack ++ (name ++ [slash]))[front.length]? = some slash := by
      rw [getElem?_append_left (by omega), ends, getElem?_append_right (le_refl _),
        Nat.sub_self]
      rfl
    rw [if_neg nonempty, backTo_some found (by omega) fun i behind inside =>
      whole.getElem _ (by omega) (by omega)]
    dsimp only
    rw [← place, take_left]

theorem resolveLoop_stay {piece : List UInt8} (other : piece ≠ [0x2E, 0x2E]) (unnamed : ¬Named piece)
    (tmp : List UInt8) (rest : List (List UInt8)) :
    resolveLoop pathMax tmp (piece :: rest) = resolveLoop pathMax tmp rest := by
  have skipped : piece = [0x2E] ∨ piece = [] := by
    by_cases empty : piece = []
    · exact .inr empty
    · exact .inl (not_not.1 fun dot => unnamed ⟨other, dot, empty⟩)
  rw [resolveLoop, if_neg other, if_pos skipped]

theorem resolveLoop_enter {piece : List UInt8} (named : Named piece) (tmp : List UInt8)
    (rest : List (List UInt8)) :
    resolveLoop pathMax tmp (piece :: rest) = if pathMax - 1 < tmp.length + piece.length + 1 then .null
      else resolveLoop pathMax (tmp ++ piece ++ [if rest = [] then 0 else slash]) rest := by
  rw [resolveLoop, if_neg named.1, if_neg (not_or.2 named.2)]

theorem endsNamed_cons (piece : List UInt8) {rest : List (List UInt8)} (more : rest ≠ []) :
    EndsNamed (piece :: rest) ↔ EndsNamed rest := by
  unfold EndsNamed
  rw [getLast?_cons_of_ne_nil more]

theorem endsNamed_unnamed {piece : List UInt8} (unnamed : ¬Named piece) (rest : List (List UInt8)) :
    EndsNamed (piece :: rest) ↔ EndsNamed rest := by
  by_cases more : rest = []
  · subst more
    simp [EndsNamed, unnamed]
  · exact endsNamed_cons piece more

theorem endsNamed_singleton {piece : List UInt8} (named : Named piece) : EndsNamed [piece] := by
  simp [EndsNamed, named]

/-- The buffer at the end: a name that is written last has its terminator. -/
def ending (stack : List (List UInt8)) (named : Prop) [Decidable named] : List UInt8 :=
  spelled stack named ++ if named then [0] else []

/-- Behind a root the loop takes the steps of the pieces, if there is room for them and for one byte
more, or one of the pieces is no name. -/
theorem resolveLoop_walk (rooted : 1 ≤ roots) (whole : ∀ name ∈ stack, Whole name)
    (slashless : ∀ piece ∈ pieces, slash ∉ piece) (fits : roots + extent stack + extent pieces ≤ pathMax)
    (slack : roots + extent stack + extent pieces < pathMax ∨ ∃ piece ∈ pieces, ¬Named piece) :
    resolveLoop pathMax (placed roots stack) pieces = match walk stack (pieces.map step) with
      | none => .null
      | some after => .path (replicate roots slash ++ ending after (EndsNamed pieces)) := by
  -- The pieces are taken one by one; a piece that is passed leaves room.
  induction pieces generalizing stack with
  | nil =>
    have directory : ¬EndsNamed [] := by simp [EndsNamed]
    rw [map_nil, walk]
    dsimp only
    rw [ending, spelled_directory stack directory, if_neg directory, append_nil, ← placed_roots]
    rfl
  | cons piece rest ih =>
    have slashlessRest : ∀ other ∈ rest, slash ∉ other := fun other listed =>
      slashless other (mem_cons_of_mem _ listed)
    rw [extent_cons] at fits slack
    rw [map_cons, walk]
    by_cases named : Named piece
    · have wholePiece : Whole piece := ⟨named.2.2, slashless piece mem_cons_self⟩
      have slackRest : roots + extent stack + (piece.length + 1 + extent rest) < pathMax ∨
          ∃ other ∈ rest, ¬Named other := by
        rcases slack with room | ⟨other, listed, unnamed⟩
        · exact .inl room
        · rcases mem_cons.1 listed with rfl | behind
          · exact absurd named unnamed
          · exact .inr ⟨other, behind, unnamed⟩
      have room : ¬pathMax - 1 < (placed roots stack).length + piece.length + 1 := by
        rw [length_placed]
        rcases slackRest with room | ⟨other, listed, -⟩
        · omega
        · cases rest with
          | nil => cases listed
          | cons next rest =>
            rw [extent_cons] at fits
            omega
      rw [step_named named, move, bind_some, resolveLoop_enter named, if_neg room]
      by_cases last : rest = []
      · -- The name is the last piece, and is written with a terminator.
        subst last
        have file := endsNamed_singleton named
        rw [if_pos rfl, map_nil, walk]
        dsimp only
        rw [ending, spelled_named stack piece file, if_pos file, placed_roots, resolveLoop]
        simp only [append_assoc]
      · rw [if_neg last, append_assoc, ← placed_snoc]
        have next := @ih (stack ++ [piece]) (fun name listed => by
            rcases mem_append.1 listed with inside | new
            · exact whole name inside
            · rw [mem_singleton.1 new]
              exact wholePiece)
          slashlessRest (by rw [extent_append, extent_cons, extent_nil]; omega)
          (slackRest.imp_left fun room => by rw [extent_append, extent_cons, extent_nil]; omega)
        rw [next]
        simp only [endsNamed_cons piece last]
    · simp only [endsNamed_unnamed named rest]
      by_cases dots : piece = [0x2E, 0x2E]
      · -- The last name is left, or the root would be.
        subst dots
        rw [step, if_pos rfl]
        rcases eq_nil_or_concat stack with rfl | ⟨others, name, rfl⟩
        · rw [move, isEmpty_nil, if_pos rfl, bind_none, resolveLoop, if_pos rfl,
            length_placed, extent_nil, add_zero]
          by_cases one : roots = 1
          · rw [if_pos one]
          · have above : (placed roots [])[roots - 2]? = some slash := by
              rw [placed_nil, getElem?_replicate, if_pos (by omega)]
            rw [if_neg one, if_neg (by omega), if_pos above]
        · rw [concat_eq_append] at whole fits slack ⊢
          have wholeName := whole name (by simp)
          have nonempty : placed roots others ≠ [] := by
            rw [← length_pos_iff, length_placed]
            omega
          have full : (others ++ [name]).isEmpty = false := by simp
          rw [extent_append, extent_cons, extent_nil] at fits
          rw [resolveLoop_up wholeName, if_neg nonempty, move, full, dropLast_concat]
          exact ih (fun other listed => whole other (mem_append_left _ listed)) slashlessRest
            (by omega) (.inl (by omega))
      · rw [step_other dots named, move, bind_some, resolveLoop_stay dots named]
        exact ih whole slashlessRest (by omega) (.inl (by omega))

/-- Names alone leave no room for the terminator if they take the whole buffer. -/
theorem resolveLoop_full (nonempty : pieces ≠ []) (named : ∀ piece ∈ pieces, Named piece)
    {tmp : List UInt8} (full : tmp.length + extent pieces = pathMax) :
    resolveLoop pathMax tmp pieces = .null := by
  -- There is room until the last name.
  induction pieces generalizing tmp with
  | nil => exact absurd rfl nonempty
  | cons piece rest ih =>
    rw [extent_cons] at full
    rw [resolveLoop_enter (named piece mem_cons_self)]
    by_cases last : rest = []
    · subst last
      rw [extent_nil] at full
      rw [if_pos (by omega)]
    · split
      · rfl
      · refine ih last (fun other listed => named other (mem_cons_of_mem _ listed)) ?_
        rw [length_append, length_append, length_singleton]
        omega

/-- Without a root the loop leaves names with separators between them, or the buffer itself. -/
theorem resolveLoop_rootless (whole : ∀ name ∈ stack, Whole name)
    (slashless : ∀ piece ∈ pieces, slash ∉ piece) (fits : extent stack + extent pieces ≤ pathMax)
    (slack : extent stack + extent pieces < pathMax ∨ ∃ piece ∈ pieces, ¬Named piece) :
    resolveLoop pathMax (placed 0 stack) pieces = .outOfBounds ∨ ∃ after, (∀ name ∈ after, Whole name) ∧
        resolveLoop pathMax (placed 0 stack) pieces = .path (ending after (EndsNamed pieces)) := by
  induction pieces generalizing stack with
  | nil =>
    have directory : ¬EndsNamed [] := by simp [EndsNamed]
    refine .inr ⟨stack, whole, ?_⟩
    rw [ending, spelled_directory stack directory, if_neg directory, append_nil]
    rfl
  | cons piece rest ih =>
    have slashlessRest : ∀ other ∈ rest, slash ∉ other := fun other listed =>
      slashless other (mem_cons_of_mem _ listed)
    rw [extent_cons] at fits slack
    by_cases named : Named piece
    · have wholePiece : Whole piece := ⟨named.2.2, slashless piece mem_cons_self⟩
      have slackRest : extent stack + (piece.length + 1 + extent rest) < pathMax ∨
          ∃ other ∈ rest, ¬Named other := by
        rcases slack with room | ⟨other, listed, unnamed⟩
        · exact .inl room
        · rcases mem_cons.1 listed with rfl | behind
          · exact absurd named unnamed
          · exact .inr ⟨other, behind, unnamed⟩
      have room : ¬pathMax - 1 < (placed 0 stack).length + piece.length + 1 := by
        rw [length_placed]
        rcases slackRest with room | ⟨other, listed, -⟩
        · omega
        · cases rest with
          | nil => cases listed
          | cons next rest =>
            rw [extent_cons] at fits
            omega
      have wholeNext : ∀ name ∈ stack ++ [piece], Whole name := by
        intro name listed
        rcases mem_append.1 listed with inside | new
        · exact whole name inside
        · rw [mem_singleton.1 new]
          exact wholePiece
      rw [resolveLoop_enter named, if_neg room]
      by_cases last : rest = []
      · subst last
        have file := endsNamed_singleton named
        refine .inr ⟨stack ++ [piece], wholeNext, ?_⟩
        rw [if_pos rfl, ending, spelled_named stack piece file, if_pos file, resolveLoop]
      · rw [if_neg last, append_assoc, ← placed_snoc]
        simp only [endsNamed_cons piece last]
        exact ih wholeNext slashlessRest (by rw [extent_append, extent_cons, extent_nil]; omega)
          (slackRest.imp_left fun room => by rw [extent_append, extent_cons, extent_nil]; omega)
    · simp only [endsNamed_unnamed named rest]
      by_cases dots : piece = [0x2E, 0x2E]
      · -- The first name is left for a place in front of the buffer.
        subst dots
        rcases eq_nil_or_concat stack with rfl | ⟨others, name, rfl⟩
        · left
          rw [resolveLoop, if_pos rfl]
          rfl
        · rw [concat_eq_append] at whole fits ⊢
          rw [resolveLoop_up (whole name (by simp))]
          rw [extent_append, extent_cons, extent_nil] at fits
          split
          · exact .inl rfl
          · exact ih (fun other listed => whole other (mem_append_left _ listed)) slashlessRest
              (by omega) (.inl (by omega))
      · rw [resolveLoop_stay dots named]
        exact ih whole slashlessRest (by omega) (.inl (by omega))

/-- What the loop leaves has room for a terminator. -/
theorem resolveLoop_length {tmp out : List UInt8} (room : tmp.length < pathMax)
    (leaves : resolveLoop pathMax tmp pieces = .path out) : out.length < pathMax := by
  induction pieces generalizing tmp with
  | nil =>
    obtain rfl := Resolved.path.inj leaves
    exact room
  | cons piece rest ih =>
    by_cases named : Named piece
    · rw [resolveLoop_enter named] at leaves
      split at leaves
      · cases leaves
      · refine ih ?_ leaves
        rw [length_append, length_append, length_singleton]
        omega
    · by_cases dots : piece = [0x2E, 0x2E]
      · subst dots
        rw [resolveLoop, if_pos rfl] at leaves
        split at leaves
        · cases leaves
        split at leaves
        · cases leaves
        split at leaves
        · cases leaves
        split at leaves
        · cases leaves
        · refine ih (lt_of_le_of_lt ?_ room) leaves
          rw [length_take]
          exact min_le_right _ _
      · rw [resolveLoop_stay dots named] at leaves
        exact ih room leaves

end Libretro.Paths
