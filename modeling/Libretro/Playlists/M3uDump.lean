import Libretro.Paths.PathRelative
import Mathlib.Data.List.DropRight

/-! An M3U file rendered as one text. -/

namespace Libretro.M3u

open List Option Paths

/-- The sizes of the buffers for paths, for directories and for names. -/
structure Limits where
  pathMax : Nat := 2048
  dirMax : Nat := 1024
  nameMax : Nat := 256

inductive Rm3uLabelType where
  | none
  | nonstd
  | extstd
  | retro
deriving DecidableEq

structure Rm3uEntry where
  fullPath : List UInt8
  label : List UInt8 := []

structure Rm3u where
  path : List UInt8
  named : path ≠ []
  entries : List Rm3uEntry

def nonstdLabel : List UInt8 := [0x23, 0x4C, 0x41, 0x42, 0x45, 0x4C, 0x3A]
def extstdLabel : List UInt8 := [0x23, 0x45, 0x58, 0x54, 0x49, 0x4E, 0x46, 0x3A]
def newline : UInt8 := 0x0A

/-- A path up to its last separator, or the current directory. -/
def pathBasedir (s : List UInt8) : List UInt8 :=
  if s.length < 2 then s
  else if slash ∈ s then s.rdropWhile (· ≠ slash) else [0x2E, slash]

/-- The directory that paths are written relative to. -/
def baseDir (limits : Limits) (path : List UInt8) : List UInt8 :=
  if slash ∈ path then pathBasedir (path.take (limits.dirMax - 1)) else []

/-- The path an entry is written with. -/
def entryPath (limits : Limits) (base : List UInt8) (entry : Rm3uEntry) : List UInt8 :=
  if base = [] then entry.fullPath.take (limits.pathMax - 1)
  else (pathRelativeTo entry.fullPath base limits.pathMax).2

/-- The lines of an entry as they are formatted. -/
def format (labelType : Rm3uLabelType) (path label : List UInt8) : List UInt8 :=
  if label = [] then path ++ [newline]
  else
    match labelType with
    | .nonstd => nonstdLabel ++ label ++ [newline] ++ path ++ [newline]
    | .extstd => extstdLabel ++ [0x2C] ++ label ++ [newline] ++ path ++ [newline]
    | .retro => path ++ [0x7C] ++ label ++ [newline]
    | .none => path ++ [newline]

/-- The size of the buffer that they are formatted in. -/
def Limits.scratch (limits : Limits) : Nat := limits.pathMax + limits.nameMax + 16

/-- What is copied from the buffer: as many bytes as the untruncated text has, or nothing where they
are not all inside. -/
def copied (size : Nat) (text : List UInt8) : Option (List UInt8) :=
  if text.length ≤ size then some ((text.take (size - 1) ++ [0]).take text.length) else none

/-- Doubled until what is needed fits. -/
def doubled (needed : Nat) : Nat → Nat → Nat
  | 0, cap => cap
  | turns + 1, cap => if cap < needed then doubled needed turns (2 * cap) else cap

/-- The capacity of the text once as many bytes fit. -/
def roomFor (needed cap : Nat) : Nat :=
  if cap < needed then doubled needed needed (if cap = 0 then 512 else cap) else cap

/-- An entry is appended to the text, which memory is always granted for. -/
def dumpEntry (limits : Limits) (base : List UInt8) (labelType : Rm3uLabelType)
    (out : Option (List UInt8 × Nat)) (entry : Rm3uEntry) : Option (Option (List UInt8 × Nat)) :=
  let path := entryPath limits base entry
  if entry.fullPath = [] ∨ path = [] then some out
  else
    let line := format labelType path entry.label
    let (text, cap) := out.getD ([], 0)
    let cap := roomFor (text.length + line.length + 1) cap
    (copied limits.scratch line).bind fun bytes =>
      if text.length + bytes.length + 1 ≤ cap then some (some (text ++ bytes, cap)) else none

/-- The text and its length, or a null pointer; nothing where a buffer is left. -/
def rm3uDump (limits : Limits) (m3u : Rm3u) (labelType : Rm3uLabelType) :
    Option (Option (List UInt8 × Nat)) :=
  if m3u.path = [] then some none
  else (m3u.entries.foldlM (dumpEntry limits (baseDir limits m3u.path) labelType) none).map
    (·.map fun (text, _) => (text, text.length))

variable {limits : Limits} {base line block : List UInt8} {labelType : Rm3uLabelType}

/-- The lines of the entries that are written. -/
def lines (limits : Limits) (base : List UInt8) (labelType : Rm3uLabelType) (entries : List Rm3uEntry) :
    List (List UInt8) :=
  (entries.filter fun entry => entry.fullPath ≠ [] ∧ entryPath limits base entry ≠ []).map fun entry =>
    format labelType (entryPath limits base entry) entry.label

/-- The text is the entries' lines one behind the other, and no text is a null pointer. -/
def Renders (limits : Limits) (m3u : Rm3u) (labelType : Rm3uLabelType) : Prop :=
  let lines := lines limits (baseDir limits m3u.path) labelType m3u.entries
  rm3uDump limits m3u labelType =
    some (if lines = [] then none else some (lines.flatten, lines.flatten.length))

theorem doubled_enough {needed turns cap : Nat} (some_ : 0 < cap) (enough : needed ≤ cap + turns) :
    needed ≤ doubled needed turns cap := by
  -- By induction on the turns, each of which adds at least one.
  induction turns generalizing cap with
  | zero => exact enough
  | succ turns ih =>
    rw [doubled]
    split
    · exact ih (Nat.mul_pos Nat.two_pos some_) (by omega)
    · omega

theorem roomFor_enough (needed cap : Nat) : needed ≤ roomFor needed cap := by
  rw [roomFor]
  split
  · refine doubled_enough ?_ (Nat.le_add_left ..)
    split <;> omega
  · omega

theorem copied_length {size : Nat} (reads : copied size line = some block) : block.length = line.length := by
  rw [copied] at reads
  split at reads
  · rename_i inside
    obtain rfl := some.inj reads
    rw [length_take, length_append, length_take, length_singleton]
    omega
  · cases reads

/-- A text is copied as it is just if the buffer has room for it and a zero. -/
theorem copied_iff {size : Nat} (ends : line.getLast? = some newline) :
    copied size line = some line ↔ line.length < size := by
  rw [copied]
  constructor
  · intro same
    split at same
    · rename_i inside
      refine Nat.lt_of_le_of_ne inside fun full => ?_
      have last := congrArg getLast? (some.inj same)
      have all : (line.take (size - 1) ++ [0]).length ≤ line.length := by
        rw [length_append, length_take, length_singleton]
        cases line with
        | nil => cases ends
        | cons => rw [← full, length_cons]; omega
      rw [take_of_length_le all, getLast?_concat, ends] at last
      cases last
    · cases same
  · intro room
    rw [if_pos (Nat.le_of_lt room), take_of_length_le (show line.length ≤ size - 1 by omega),
      take_left]

theorem mapM_copied_iff {size : Nat} {lines : List (List UInt8)}
    (ends : ∀ line ∈ lines, line.getLast? = some newline) :
    (lines.mapM (copied size)).map flatten = some lines.flatten ↔ ∀ line ∈ lines, line.length < size := by
  -- A block is as long as its line, so the blocks and the lines are equal one by one.
  induction lines with
  | nil => simp
  | cons line lines ih =>
    obtain ⟨end_, ends⟩ := forall_mem_cons.1 ends
    rw [forall_mem_cons, ← ih ends, ← copied_iff end_, mapM_cons]
    cases reads : copied size line with
    | none => simp
    | some block =>
      cases lines.mapM (copied size) with
      | none => simp
      | some blocks =>
        have length := copied_length reads
        simp only [Option.bind_eq_bind, Option.bind_some, Option.pure_def, Option.map_some,
          flatten_cons, some.injEq]
        constructor
        · exact fun same => append_inj same length
        · rintro ⟨rfl, same⟩
          rw [same]

theorem format_ends (path label : List UInt8) : (format labelType path label).getLast? = some newline := by
  unfold format
  split
  · exact getLast?_concat
  · split <;> exact getLast?_concat

/-- What is appended for an entry that is written, the capacity aside. -/
theorem dumpEntry_line {entry : Rm3uEntry} {out : Option (List UInt8 × Nat)}
    (written : ¬(entry.fullPath = [] ∨ entryPath limits base entry = [])) :
    let line := format labelType (entryPath limits base entry) entry.label
    ∃ cap, dumpEntry limits base labelType out entry = (copied limits.scratch line).map fun bytes =>
      some ((out.getD ([], 0)).1 ++ bytes, cap) := by
  intro line
  refine ⟨roomFor ((out.getD ([], 0)).1.length + line.length + 1) (out.getD ([], 0)).2, ?_⟩
  rw [dumpEntry, if_neg written]
  show (copied limits.scratch line).bind _ = _
  cases reads : copied limits.scratch line with
  | none => rfl
  | some block => exact if_pos (copied_length reads ▸ roomFor_enough _ _)

theorem foldlM_lines (entries : List Rm3uEntry) (out : Option (List UInt8 × Nat)) :
    (entries.foldlM (dumpEntry limits base labelType) out).map (·.map Prod.fst) =
      ((lines limits base labelType entries).mapM (copied limits.scratch)).map fun blocks =>
        if lines limits base labelType entries = [] then out.map Prod.fst
        else some ((out.getD ([], 0)).1 ++ blocks.flatten) := by
  -- By induction on the entries; one that is skipped has no line.
  induction entries generalizing out with
  | nil => rfl
  | cons entry entries ih =>
    rw [foldlM_cons]
    by_cases skipped : entry.fullPath = [] ∨ entryPath limits base entry = []
    · have same : lines limits base labelType (entry :: entries) = lines limits base labelType entries := by
        rw [lines, filter_cons_of_neg (by simpa [or_iff_not_imp_left] using skipped), lines]
      rw [dumpEntry, if_pos skipped, same]
      exact ih out
    · have more : lines limits base labelType (entry :: entries) =
          format labelType (entryPath limits base entry) entry.label ::
            lines limits base labelType entries := by
        rw [lines, filter_cons_of_pos (by simpa [or_iff_not_imp_left] using skipped), lines]
        rfl
      obtain ⟨cap, appends⟩ := @dumpEntry_line limits base labelType entry out skipped
      rw [appends, more, mapM_cons]
      cases copied limits.scratch (format labelType (entryPath limits base entry) entry.label) with
      | none => rfl
      | some block =>
        show Option.map _ (entries.foldlM _ _) = _
        rw [ih]
        cases found : (lines limits base labelType entries).mapM (copied limits.scratch) with
        | none => rfl
        | some blocks =>
          by_cases last : lines limits base labelType entries = []
          · rw [last] at found
            cases found
            simp [last]
          · simp [last]

theorem renders_iff (limits : Limits) (m3u : Rm3u) (labelType : Rm3uLabelType) :
    Renders limits m3u labelType ↔ ∀ line ∈ lines limits (baseDir limits m3u.path) labelType m3u.entries,
        line.length < limits.scratch := by
  have ends : ∀ line ∈ lines limits (baseDir limits m3u.path) labelType m3u.entries,
      line.getLast? = some newline := by
    intro line listed
    obtain ⟨entry, -, rfl⟩ := mem_map.1 listed
    exact format_ends _ _
  have folded := @foldlM_lines limits (baseDir limits m3u.path) labelType m3u.entries none
  have lengths : ∀ out : Option (Option (List UInt8 × Nat)), (out.map (·.map fun (text, _) =>
      (text, text.length))) = (out.map (·.map Prod.fst)).map (·.map fun text => (text, text.length)) := by
    rintro (_ | _ | _) <;> rfl
  rw [Renders, ← mapM_copied_iff ends, rm3uDump, if_neg m3u.named, lengths, folded]
  generalize lines limits (baseDir limits m3u.path) labelType m3u.entries = lines
  by_cases empty : lines = []
  · subst empty
    simp
  · cases lines.mapM (copied limits.scratch) with
    | none => simp
    | some blocks =>
      simp only [Option.map_some, if_neg empty, getD_none, nil_append, some.injEq, Prod.mk.injEq, map_none]
      exact ⟨And.left, fun same => ⟨same, congrArg length same⟩⟩

/-- A label is as long as the buffer. -/
theorem label_truncated : ¬Renders {} ⟨[0x6D], nofun, [⟨[0x61], .replicate 2320 0x62⟩]⟩ .retro := by
  unfold Renders
  decide +kernel

end Libretro.M3u
