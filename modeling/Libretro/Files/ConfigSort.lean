import Libretro.Files.ConfigFile
import Libretro.Library.Cells

/-! How the entries of a configuration are sorted for writing: in an array of them, or in their list
where there is no memory for the array. -/

namespace Libretro.ConfigFile

open Function List Nat

section Array

variable {α : Type} (difference : α → α → Int)

/-- The inner loop of a run's insertion: what is greater moves up, as far as the run's start. -/
def insertionShift (i : Nat) (v : α) (a : Nat → α) : Nat → Nat → α
  | 0 => Function.update a 0 v
  | k + 1 =>
    if i < k + 1 ∧ 0 < difference (a k) v then
      insertionShift i v (Function.update a (k + 1) (a k)) k
    else Function.update a (k + 1) v

/-- The loop over a run's elements, from `j` on. -/
def insertionRun (i hi : Nat) (a : Nat → α) (j : Nat) : Nat → α :=
  if j < hi then insertionRun i hi (insertionShift difference i (a j) a j) (j + 1) else a
termination_by hi - j

/-- The loop over runs of 16, from `i` on. -/
def insertionRuns (n : Nat) (a : Nat → α) (i : Nat) : Nat → α :=
  if i < n then
    let hi := if i + 16 < n then i + 16 else n
    insertionRuns n (insertionRun difference i hi a (i + 1)) (i + 16)
  else a
termination_by n - i

/-- The loops that copy what is left of one run. -/
def copyRest (a : Nat → α) (mid : Nat) (b : Nat → α) (l k : Nat) : Nat → α :=
  if l < mid then copyRest a mid (Function.update b k (a l)) (l + 1) (k + 1) else b
termination_by mid - l

/-- The loop that merges two runs of `a` into `b`. -/
def mergeInto (a : Nat → α) (mid hi : Nat) (b : Nat → α) (l r k : Nat) : Nat → α :=
  if l < mid ∧ r < hi then
    if difference (a r) (a l) < 0 then
      mergeInto a mid hi (Function.update b k (a r)) l (r + 1) (k + 1)
    else mergeInto a mid hi (Function.update b k (a l)) (l + 1) r (k + 1)
  else copyRest a hi (copyRest a mid b l k) r (k + (mid - l))
termination_by (mid - l) + (hi - r)

/-- A pass over pairs of runs of a width, from `i` on. -/
def mergePairs (n width : Nat) (positive : 0 < width) (a b : Nat → α) (i : Nat) : Nat → α :=
  if i < n then
    let mid := if i + width < n then i + width else n
    let hi := if i + width * 2 < n then i + width * 2 else n
    mergePairs n width positive a (mergeInto difference a mid hi b i mid i) (i + width * 2)
  else b
termination_by n - i

/-- The passes, with the buffers swapped after each. -/
def mergeWidths (n width : Nat) (positive : 0 < width) (a b : Nat → α) : Nat → α :=
  if width < n then
    mergeWidths n (width * 2) (by omega) (mergePairs difference n width positive a b 0) a
  else a
termination_by n - width

/-- `config_file_sort_entries`. -/
def sortEntriesArray (a b : Nat → α) (n : Nat) : Nat → α :=
  mergeWidths difference n 16 (by decide) (insertionRuns difference n a 0) b

end Array

section Linked

variable {Node : Type} [DecidableEq Node] (cmp : Node → Node → Int)

/-- The list while it is relinked: its links, and the list so far. -/
structure Relink (Node : Type) where
  next : Node → Option Node
  newhead : Option Node := none
  tail : Option Node := none

/-- The walk over the left run: its size, and the node behind it. -/
def leftRun (next : Node → Option Node) : Nat → Option Node → Nat × Option Node
  | 0, q => (0, q)
  | _ + 1, none => (0, none)
  | width + 1, some q =>
    let (psize, q) := leftRun next width (next q)
    (psize + 1, q)

/-- A node is put behind the list so far. -/
def Relink.put (list : Relink Node) (e : Node) : Relink Node :=
  match list.tail with
  | some tail => { list with next := Function.update list.next tail (some e), tail := some e }
  | none => { list with newhead := some e, tail := some e }

/-- The links of the list so far, whose tail has none. -/
def Relink.ended (list : Relink Node) : Node → Option Node :=
  match list.tail with
  | some tail => Function.update list.next tail none
  | none => list.next

/-- The loop that merges two runs; nothing is where a node is asked for that is not there. -/
def mergeNodes (list : Relink Node) (p q : Option Node) (psize qsize : Nat) :
    Option (Relink Node × Option Node) :=
  match psize, qsize, p, q with
  | 0, 0, _, q => some (list, q)
  | 0, _ + 1, _, none => some (list, none)
  | 0, qsize + 1, p, some e => mergeNodes (list.put e) p (list.next e) 0 qsize
  | psize + 1, 0, some e, q => mergeNodes (list.put e) (list.next e) q psize 0
  | psize + 1, qsize + 1, some e, none => mergeNodes (list.put e) (list.next e) none psize (qsize + 1)
  | psize + 1, qsize + 1, some p, some q =>
    if cmp q p < 0 then mergeNodes (list.put q) (some p) (list.next q) (psize + 1) qsize
    else mergeNodes (list.put p) (list.next p) (some q) psize (qsize + 1)
  | _ + 1, _, none, _ => none
termination_by psize + qsize

/-- The loop over the pairs of runs, and how many there are; the turns are its own. -/
def mergeRuns (width : Nat) : Nat → Relink Node → Option Node → Nat → Option (Relink Node × Nat)
  | _, list, none, merges => some (list, merges)
  | 0, _, some _, _ => none
  | turns + 1, list, some p, merges => do
    let (psize, q) := leftRun list.next width (some p)
    let (list, q) ← mergeNodes cmp list (some p) q psize width
    mergeRuns width turns list q (merges + 1)

/-- `config_file_sort_list_in_place`, from a width on: the links, the head and the tail. -/
def sortListInPlace (size : Nat) : Nat → Nat → (Node → Option Node) → Option Node →
    Option ((Node → Option Node) × Option Node × Option Node)
  | 0, _, _, _ => none
  | turns + 1, width, next, head => do
    let (list, merges) ← mergeRuns cmp width size { next } head 0
    if merges ≤ 1 then some (list.ended, list.newhead, list.tail)
    else sortListInPlace size turns (width * 2) list.ended list.newhead

end Linked

/-- `config_file_sort_cmp`. -/
def Entry.sortCmp {Text : Type} (read : Text → List UInt8) (a b : Entry Text) : Int :=
  match a.key, b.key with
  | none, none => 0
  | none, some _ => -1
  | some _, none => 1
  | some one, some other => strcasecmp (read one) (read other)

open Cells RunMerge

variable {α : Type} {difference : α → α → Int} {a b : Nat → α} {v : α} {i j k l r hi mid n width turns : Nat}

theorem insertLast_greater (run : List α) {last : α} (greater : 0 < difference last v) :
    insertLast difference (run ++ [last]) v = insertLast difference run v ++ [last] := by
  have is : isGreater difference v last = true := decide_eq_true greater
  rw [insertLast, rdropWhile_concat_pos _ _ _ is, rtakeWhile_concat_pos _ _ _ is,
    insertLast, List.append_assoc, cons_append]

theorem insertLast_stays (run : List α) {last : α} (least : ¬0 < difference last v) :
    insertLast difference (run ++ [last]) v = run ++ [last] ++ [v] := by
  have is : ¬isGreater difference v last = true := fun is => least (of_decide_eq_true is)
  rw [insertLast, rdropWhile_concat_neg _ _ _ is, rtakeWhile_concat_neg _ _ _ is]

theorem insertionShift_cells (inside : i ≤ k) : cells (insertionShift difference i v a k) i (k - i + 1) =
        insertLast difference (cells a i (k - i)) v ∧
      ∀ place, place < i ∨ k < place → insertionShift difference i v a k place = a place := by
  induction k generalizing a with
  | zero =>
    obtain rfl : i = 0 := le_zero.1 inside
    refine ⟨?_, fun place outside => update_of_ne (by omega) _ _⟩
    simp [insertionShift, cells_succ, insertLast]
  | succ k ih =>
    rw [insertionShift]
    by_cases bottom : i = k + 1
    · -- The run's start is reached, and the element is put there.
      subst bottom
      rw [if_neg (by omega)]
      refine ⟨?_, fun place outside => update_of_ne (by omega) _ _⟩
      simp [cells_succ, insertLast]
    · have size : k + 1 - i = k - i + 1 := by omega
      have last : i + (k - i) = k := by omega
      have run : cells a i (k - i + 1) = cells a i (k - i) ++ [a k] := by rw [cells_concat, last]
      rw [size, run]
      split
      · next greater =>
        obtain ⟨moved, kept⟩ := @ih (Function.update a (k + 1) (a k)) (by omega)
        have under := @cells_update _ a i (k - i) (k + 1) (.inr (by omega)) (a k)
        rw [under] at moved
        constructor
        · rw [cells_concat, moved, insertLast_greater _ greater.2, kept _ (.inr (by omega))]
          congr 2
          rw [show i + (k - i + 1) = k + 1 by omega]
          exact update_self ..
        · intro place outside
          rw [kept place (by omega)]
          exact update_of_ne (by omega) _ _
      · next stays =>
        have least : ¬0 < difference (a k) v := fun greater => stays ⟨by omega, greater⟩
        constructor
        · rw [insertLast_stays _ least, cells_concat,
            @cells_update _ a i (k - i + 1) (k + 1) (.inr (by omega)), run]
          congr 2
          rw [show i + (k - i + 1) = k + 1 by omega]
          exact update_self ..
        · exact fun place outside => update_of_ne (by omega) _ _

theorem insertionRun_cells (start : i ≤ j) (inside : j ≤ hi) :
    cells (insertionRun difference i hi a j) i (hi - i) =
        (cells a j (hi - j)).foldl (insertLast difference) (cells a i (j - i)) ∧
      ∀ place, place < i ∨ hi ≤ place → insertionRun difference i hi a j place = a place := by
  induction count : hi - j generalizing j a with
  | zero =>
    obtain rfl : j = hi := by omega
    rw [insertionRun, if_neg (lt_irrefl _)]
    exact ⟨rfl, fun _ _ => rfl⟩
  | succ rest ih =>
    rw [insertionRun, if_pos (by omega)]
    obtain ⟨shifted, kept⟩ := @insertionShift_cells _ difference a (a j) i j start
    obtain ⟨later, kept'⟩ := @ih (insertionShift difference i (a j) a j) (j + 1) (by omega)
      (by omega) (by omega)
    rw [show j + 1 - i = j - i + 1 by omega, shifted] at later
    -- What is behind the element has not been touched.
    have same : cells (insertionShift difference i (a j) a j) (j + 1) rest = cells a (j + 1) rest := by
      apply cells_congr
      exact fun place least _ => kept place (.inr (by omega))
    rw [same] at later
    refine ⟨?_, fun place outside => ?_⟩
    · rw [later, cells_succ, foldl_cons]
    · rw [kept' place outside, kept place (by omega)]

theorem insertionRuns_cells (enough : n - i ≤ turns) : cells (insertionRuns difference n a i) i (n - i) =
        insertRuns difference 16 turns (cells a i (n - i)) ∧
      ∀ place, place < i ∨ n ≤ place → insertionRuns difference n a i place = a place := by
  induction turns generalizing i a with
  | zero =>
    rw [insertionRuns, if_neg (by omega)]
    exact ⟨rfl, fun _ _ => rfl⟩
  | succ turns ih =>
    rw [insertionRuns]
    split
    · next more =>
      dsimp only
      have bound : (if i + 16 < n then i + 16 else n) = i + min 16 (n - i) := by
        split <;> omega
      rw [bound]
      obtain ⟨run, kept⟩ := @insertionRun_cells _ difference a i (i + 1) (i + min 16 (n - i))
        (by omega) (by omega)
      generalize insertionRun difference i (i + min 16 (n - i)) a (i + 1) = sorted at run kept ⊢
      obtain ⟨later, kept'⟩ := @ih sorted (i + 16) (by omega)
      refine ⟨?_, fun place outside => ?_⟩
      · have some : (cells a i (n - i)).isEmpty = false := by
          rw [isEmpty_eq_false_iff, ← length_pos_iff, cells_length]
          omega
        rw [insertRuns, some, if_neg Bool.false_ne_true, cells_take, cells_drop]
        -- The cells of the run have what insertion leaves, and those behind it what the later
        -- turns leave.
        have split : n - i = min 16 (n - i) + (n - i - 16) := by omega
        have first : cells (insertionRuns difference n sorted (i + 16)) i (min 16 (n - i)) =
            insertRun difference (cells a i (min 16 (n - i))) := by
          rw [cells_congr fun place _ most => kept' place (.inl (by omega))]
          rw [show i + min 16 (n - i) - i = min 16 (n - i) by omega,
            show i + 1 - i = 0 + 1 by omega,
            show i + min 16 (n - i) - (i + 1) = min 16 (n - i) - 1 by omega] at run
          rw [run, insertRun]
          generalize min 16 (n - i) = count at split
          obtain ⟨count, rfl⟩ : ∃ more, count = more + 1 := ⟨count - 1, by omega⟩
          rw [cells_succ, cells_succ]
          simp [insertLast]
        have behind : cells (insertionRuns difference n sorted (i + 16)) (i + min 16 (n - i))
            (n - i - 16) = insertRuns difference 16 turns (cells a (i + 16) (n - i - 16)) := by
          by_cases full : 16 ≤ n - i
          · rw [show min 16 (n - i) = 16 by omega]
            rw [sub_add_eq] at later
            rw [later, cells_congr fun place least _ => kept place (.inr (by omega))]
          · rw [show n - i - 16 = 0 by omega, cells_zero, cells_zero]
            cases turns <;> rfl
        conv_lhs => rw [split, cells_add]
        rw [first, behind]
      · rw [kept' place (by omega), kept place (by omega)]
    · next none =>
      have empty : n - i = 0 := by omega
      rw [empty]
      exact ⟨rfl, fun _ _ => rfl⟩

theorem copyRest_cells : cells (copyRest a mid b l k) k (mid - l) = cells a l (mid - l) ∧
      ∀ place, place < k ∨ k + (mid - l) ≤ place → copyRest a mid b l k place = b place := by
  induction count : mid - l generalizing b l k with
  | zero =>
    rw [copyRest, if_neg (by omega)]
    exact ⟨rfl, fun _ _ => rfl⟩
  | succ count ih =>
    rw [copyRest, if_pos (by omega)]
    obtain ⟨later, kept⟩ := @ih (Function.update b k (a l)) (k + 1) (l + 1) (by omega)
    refine ⟨?_, fun place outside => ?_⟩
    · rw [cells_succ, cells_succ, later, kept k (.inl (by omega)), update_self]
    · rw [kept place (by omega), update_of_ne (by omega)]

theorem mergeInto_cells (left : l ≤ mid) (right : r ≤ hi) :
    cells (mergeInto difference a mid hi b l r k) k (mid - l + (hi - r)) =
        (cells a l (mid - l)).merge (cells a r (hi - r)) (leftFirst difference) ∧
      ∀ place, place < k ∨ k + (mid - l + (hi - r)) ≤ place →
        mergeInto difference a mid hi b l r k place = b place := by
  induction count : mid - l + (hi - r) generalizing b l r k with
  | zero =>
    rw [show mid - l = 0 by omega, show hi - r = 0 by omega, mergeInto, if_neg (by omega),
      copyRest, if_neg (by omega), copyRest, if_neg (by omega)]
    exact ⟨by simp, fun _ _ => rfl⟩
  | succ count ih =>
    rw [mergeInto]
    split
    · next both =>
      have front : cells a l (mid - l) = a l :: cells a (l + 1) (mid - (l + 1)) := by
        rw [show mid - l = mid - (l + 1) + 1 by omega, cells_succ]
      have back : cells a r (hi - r) = a r :: cells a (r + 1) (hi - (r + 1)) := by
        rw [show hi - r = hi - (r + 1) + 1 by omega, cells_succ]
      rw [front, back, cons_merge_cons, leftFirst]
      split
      · next less =>
        obtain ⟨later, kept⟩ := @ih (Function.update b k (a r)) (k + 1) l (r + 1) left (by omega)
          (by omega)
        rw [decide_eq_true less, Bool.not_true, if_neg Bool.false_ne_true]
        refine ⟨?_, fun place outside => ?_⟩
        · rw [cells_succ, later, kept k (.inl (by omega)), update_self, front]
        · rw [kept place (by omega), update_of_ne (by omega)]
      · next least =>
        obtain ⟨later, kept⟩ := @ih (Function.update b k (a l)) (k + 1) (l + 1) r (by omega) right
          (by omega)
        rw [decide_eq_false least, Bool.not_false, if_pos rfl]
        refine ⟨?_, fun place outside => ?_⟩
        · rw [cells_succ, later, kept k (.inl (by omega)), update_self, back]
        · rw [kept place (by omega), update_of_ne (by omega)]
    · next ended =>
      -- One of the runs is used up, and the other one is copied.
      obtain ⟨first, kept⟩ := @copyRest_cells _ a b k l mid
      obtain ⟨second, kept'⟩ := @copyRest_cells _ a (copyRest a mid b l k) (k + (mid - l)) r hi
      refine ⟨?_, fun place outside => ?_⟩
      · rw [← count, cells_add, second,
          cells_congr fun place _ most => kept' place (.inl (by omega)), first]
        rcases lt_or_ge l mid with some | none
        · rw [show hi - r = 0 by omega, cells_zero, merge_right, append_nil]
        · rw [show mid - l = 0 by omega, cells_zero, nil_merge, nil_append]
      · rw [kept' place (by omega), kept place (by omega)]

theorem mergePairs_cells (positive : 0 < width) (enough : n - i ≤ turns) :
    cells (mergePairs difference n width positive a b i) i (n - i) =
        mergePass difference width turns (cells a i (n - i)) ∧
      ∀ place, place < i → mergePairs difference n width positive a b i place = b place := by
  induction turns generalizing i b with
  | zero =>
    rw [mergePairs, if_neg (by omega), show n - i = 0 by omega]
    exact ⟨rfl, fun _ _ => rfl⟩
  | succ turns ih =>
    rw [mergePairs]
    split
    · next more =>
      dsimp only
      have bound : (if i + width < n then i + width else n) = i + min width (n - i) := by
        split <;> omega
      have bound' : (if i + width * 2 < n then i + width * 2 else n) =
          i + min width (n - i) + min width (n - i - width) := by
        split <;> omega
      rw [bound, bound']
      obtain ⟨merged, kept⟩ := @mergeInto_cells _ difference a b i i (i + min width (n - i))
        (i + min width (n - i) + min width (n - i - width)) (i + min width (n - i)) (by omega)
        (by omega)
      generalize mergeInto difference a (i + min width (n - i))
        (i + min width (n - i) + min width (n - i - width)) b i (i + min width (n - i)) i =
        into at merged kept ⊢
      obtain ⟨later, kept'⟩ := @ih into (i + width * 2) (by omega)
      refine ⟨?_, fun place outside => ?_⟩
      · have some : (cells a i (n - i)).isEmpty = false := by
          rw [isEmpty_eq_false_iff, ← length_pos_iff, cells_length]
          omega
        rw [mergePass, some, if_neg Bool.false_ne_true, cells_take, cells_drop, cells_drop, cells_take]
        rw [Nat.add_sub_cancel_left, Nat.add_sub_cancel_left] at merged
        generalize pair : min width (n - i) + min width (n - i - width) = count at merged
        have split : n - i = count + (n - i - width * 2) := by omega
        have second : cells a (i + min width (n - i)) (min width (n - i - width)) =
            cells a (i + width) (min width (n - i - width)) := by
          by_cases full : width ≤ n - i
          · rw [min_eq_left full]
          · rw [show min width (n - i - width) = 0 by omega, cells_zero, cells_zero]
        rw [second] at merged
        have first : cells (mergePairs difference n width positive a into (i + width * 2)) i count =
            cells into i count := cells_congr fun place _ most => kept' place (by omega)
        have behind : cells (mergePairs difference n width positive a into (i + width * 2))
            (i + count) (n - i - width * 2) =
            mergePass difference width turns (cells a (i + width * 2) (n - i - width * 2)) := by
          by_cases full : width * 2 ≤ n - i
          · rw [show i + count = i + width * 2 by omega]
            rw [sub_add_eq] at later
            exact later
          · rw [show n - i - width * 2 = 0 by omega, cells_zero, cells_zero, mergePass_nil]
        conv_lhs => rw [split, cells_add]
        rw [first, merged, behind]
      · rw [kept' place (by omega), kept place (by omega)]
    · next none =>
      rw [show n - i = 0 by omega]
      exact ⟨rfl, fun _ _ => rfl⟩

theorem mergeWidths_cells (positive : 0 < width) (enough : n ≤ width * 2 ^ turns) :
    cells (mergeWidths difference n width positive a b) 0 n =
      mergePasses difference turns width (cells a 0 n) := by
  induction turns generalizing width a b with
  | zero =>
    rw [mergeWidths, if_neg (by simpa using enough)]
    rfl
  | succ turns ih =>
    rw [mergeWidths, mergePasses, cells_length]
    split
    · have pass := (@mergePairs_cells _ difference a b 0 n width n positive (by omega)).1
      rw [Nat.sub_zero] at pass
      rw [ih, pass]
      calc n ≤ width * 2 ^ (turns + 1) := enough
        _ = width * 2 * 2 ^ turns := by ring
    · rfl

theorem sortEntriesArray_cells (a b : Nat → α) (n : Nat) :
    cells (sortEntriesArray difference a b n) 0 n = RunMerge.sort difference 16 (cells a 0 n) := by
  have runs := (@insertionRuns_cells _ difference a 0 n n (by omega)).1
  rw [Nat.sub_zero] at runs
  rw [sortEntriesArray, @mergeWidths_cells _ difference _ b n 16 n (by decide), runs,
    RunMerge.sort, cells_length]
  calc n ≤ 2 ^ n := Nat.lt_two_pow_self.le
    _ ≤ 16 * 2 ^ n := by omega

end Libretro.ConfigFile
