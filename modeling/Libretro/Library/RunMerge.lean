import Mathlib.Data.List.Count
import Mathlib.Data.List.DropRight
import Mathlib.Order.Lattice
import Mathlib.Tactic.Ring

/-! Sorting by insertion into short runs and by passes that merge the runs, which keeps elements that
are equal in their order. -/

namespace RunMerge

open List Nat

variable {α : Type} (difference : α → α → Int)

/-- An element is greater than a new one. -/
def isGreater (new other : α) : Bool := 0 < difference other new

/-- An element is put behind a run, and moved back past those that are greater. -/
def insertLast (run : List α) (new : α) : List α :=
  run.rdropWhile (isGreater difference new) ++ new :: run.rtakeWhile (isGreater difference new)

/-- The elements of a run, sorted by insertion. -/
def insertRun (run : List α) : List α := run.foldl (insertLast difference) []

/-- Runs of a width, each sorted by insertion; the turns are those of the loop. -/
def insertRuns (width : Nat) : Nat → List α → List α
  | 0, rest => rest
  | turns + 1, rest =>
    if rest.isEmpty then []
    else insertRun difference (rest.take width) ++ insertRuns width turns (rest.drop width)

/-- The left one of two elements goes first, unless the right one is strictly less. -/
def leftFirst (left right : α) : Bool := !decide (difference right left < 0)

/-- A pass that merges runs of a width by twos. -/
def mergePass (width : Nat) : Nat → List α → List α
  | 0, rest => rest
  | turns + 1, rest =>
    if rest.isEmpty then []
    else (rest.take width).merge ((rest.drop width).take width) (leftFirst difference) ++
      mergePass width turns (rest.drop (width * 2))

/-- Passes over runs that double their width, until one run is left. -/
def mergePasses : Nat → Nat → List α → List α
  | 0, _, elements => elements
  | turns + 1, width, elements =>
    if width < elements.length then
      mergePasses turns (width * 2) (mergePass difference width elements.length elements)
    else elements

/-- Passes over runs that double their width, up to the one that leaves one run. -/
def mergeUntil : Nat → Nat → List α → List α
  | 0, _, elements => elements
  | turns + 1, width, elements =>
    let merged := mergePass difference width elements.length elements
    if elements.length ≤ width * 2 then merged else mergeUntil turns (width * 2) merged

/-- The elements sorted, from runs of a width on. -/
def sort (width : Nat) (elements : List α) : List α :=
  mergePasses difference elements.length width (insertRuns difference width elements.length elements)

variable {difference} {β : Type} [LinearOrder β] {rank : α → β}

/-- A difference that tells the order of the ranks of two elements. -/
structure Ranks (difference : α → α → Int) (rank : α → β) : Prop where
  less : ∀ left right, difference left right < 0 ↔ rank left < rank right
  greater : ∀ left right, 0 < difference left right ↔ rank right < rank left

/-- A list in the order of the ranks. -/
def Ordered (rank : α → β) (elements : List α) : Prop :=
  elements.Pairwise fun before after => rank before ≤ rank after

/-- Elements all of one rank, picked by a test. -/
def OneRank (rank : α → β) (picked : α → Bool) : Prop :=
  ∀ one other, picked one = true → picked other = true → rank one = rank other

variable {picked : α → Bool} {run left right elements rest : List α} {new : α} {width turns : Nat}

variable (ranks : Ranks difference rank)
include ranks

theorem leftFirst_iff (one other : α) :
    leftFirst difference one other = true ↔ rank one ≤ rank other := by
  rw [leftFirst, Bool.not_eq_true', decide_eq_false_iff_not, ranks.less, not_lt]

omit ranks

theorem insertLast_parts (run : List α) (new : α) :
    run.rdropWhile (isGreater difference new) ++ run.rtakeWhile (isGreater difference new) = run :=
  rdropWhile_append_rtakeWhile

theorem insertLast_length : (insertLast difference run new).length = run.length + 1 := by
  have parts := congrArg length (@insertLast_parts _ difference run new)
  rw [length_append] at parts
  rw [insertLast, length_append, length_cons]
  omega

include ranks

theorem rank_lt {other : α}
    (passed : other ∈ run.rtakeWhile (isGreater difference new)) : rank new < rank other := by
  have greater := mem_rtakeWhile_imp passed
  exact (ranks.greater other new).1 (of_decide_eq_true greater)

variable (one : OneRank rank picked)
include one

theorem insertLast_filter : (insertLast difference run new).filter picked = (run ++ [new]).filter picked := by
  have split := congrArg (filter picked) (@insertLast_parts _ difference run new)
  rw [filter_append] at split
  rw [insertLast, filter_append, filter_append, ← split, append_assoc]
  congr 1
  cases is : picked new with
  | false =>
    rw [filter_cons_of_neg (by rw [is]; exact Bool.false_ne_true),
      filter_cons_of_neg (by rw [is]; exact Bool.false_ne_true), filter_nil,
      append_nil]
  | true =>
    -- None that is passed is picked with the new one.
    have none : (run.rtakeWhile (isGreater difference new)).filter picked = [] := by
      apply filter_eq_nil_iff.2
      intro other passed also
      exact absurd (rank_lt ranks passed) (one other new also is ▸ lt_irrefl _)
    rw [filter_cons_of_pos is, filter_cons_of_pos is, none]
    rfl

omit one

theorem insertLast_ordered (ordered : Ordered rank run) : Ordered rank (insertLast difference run new) := by
  rw [Ordered, ← @insertLast_parts _ difference run new, pairwise_append] at ordered
  obtain ⟨front, back, across⟩ := ordered
  rw [Ordered, insertLast, pairwise_append, pairwise_cons]
  refine ⟨front, ⟨fun other passed => (rank_lt ranks passed).le, back⟩, ?_⟩
  intro before kept after listed
  -- The last of those that are kept is not greater than the new one.
  have least : rank before ≤ rank new := by
    have nonempty : run.rdropWhile (isGreater difference new) ≠ [] := ne_nil_of_mem kept
    have last := rdropWhile_last_not _ run nonempty
    rw [isGreater, decide_eq_true_eq, ranks.greater, not_lt] at last
    refine le_trans ?_ last
    have shape := dropLast_append_getLast nonempty
    generalize run.rdropWhile (isGreater difference new) = kept at *
    rw [← shape, pairwise_append] at front
    rw [← shape] at kept
    rcases mem_append.1 kept with early | same
    · exact front.2.2 before early _ mem_cons_self
    · exact mem_singleton.1 same ▸ le_refl _
  rcases mem_cons.1 listed with rfl | passed
  · exact least
  · exact across before kept after passed

include one

theorem merge_filter (leftOrdered : Ordered rank left) :
    (left.merge right (leftFirst difference)).filter picked =
      left.filter picked ++ right.filter picked := by
  induction left generalizing right with
  | nil => rw [nil_merge, filter_nil, nil_append]
  | cons first left ih =>
    induction right with
    | nil => rw [merge_right, filter_nil, append_nil]
    | cons second right ihRight =>
      rw [cons_merge_cons]
      by_cases least : leftFirst difference first second = true
      · rw [if_pos least, filter_cons, filter_cons, ih leftOrdered.tail]
        split
        · rfl
        · rfl
      · rw [if_neg least, filter_cons, ihRight]
        cases is : picked second with
        | false =>
          rw [if_neg Bool.false_ne_true, filter_cons_of_neg (l := right) (by
            rw [is]; exact Bool.false_ne_true)]
        | true =>
          -- The right element goes before a left run whose elements are all greater.
          rw [leftFirst_iff ranks, not_le] at least
          have none : (first :: left).filter picked = [] := by
            apply filter_eq_nil_iff.2
            intro other listed also
            have above : rank first ≤ rank other := by
              rcases mem_cons.1 listed with rfl | listed
              · exact le_refl _
              · exact rel_of_pairwise_cons leftOrdered listed
            exact absurd (lt_of_lt_of_le least above) (one other second also is ▸ lt_irrefl _)
          rw [if_pos rfl, none, nil_append, nil_append, filter_cons_of_pos is]

omit one

theorem merge_ordered (leftOrdered : Ordered rank left) (rightOrdered : Ordered rank right) :
    Ordered rank (left.merge right (leftFirst difference)) := by
  have first : ∀ one other, leftFirst difference one other = true ↔ rank one ≤ rank other :=
    leftFirst_iff ranks
  have bool : ∀ {elements : List α}, Ordered rank elements ↔
      elements.Pairwise fun one other => leftFirst difference one other = true := by
    intro elements
    simp only [first, Ordered]
  rw [bool] at leftOrdered rightOrdered ⊢
  refine pairwise_merge ?_ ?_ left right leftOrdered rightOrdered
  · intro one other third
    simp only [first]
    exact le_trans
  · intro one other
    rw [Bool.or_eq_true, first, first]
    exact le_total _ _

omit ranks

/-- A list of ordered runs, all of a width but the last, which may be shorter. -/
inductive Runs (rank : α → β) (width : Nat) : List α → Prop where
  | none : Runs rank width []
  | run {run rest : List α} (ordered : Ordered rank run) (short : run.length ≤ width)
      (full : run.length = width ∨ rest = []) (later : Runs rank width rest) :
      Runs rank width (run ++ rest)

theorem Runs.take (runs : Runs rank width elements) :
    Ordered rank (elements.take width) ∧ Runs rank width (elements.drop width) := by
  cases runs with
  | none => exact ⟨by rw [take_nil]; exact .nil, by rw [drop_nil]; exact .none⟩
  | run ordered short full later =>
    rcases full with same | rfl
    · rw [← same, take_left, drop_left]
      exact ⟨ordered, same.symm ▸ later⟩
    · rw [append_nil, take_of_length_le short, drop_of_length_le short]
      exact ⟨ordered, .none⟩

theorem mergePass_nil : mergePass difference width turns ([] : List α) = [] := by
  cases turns <;> rfl

include ranks

include one

theorem mergePass_runs
    (positive : 0 < width) (enough : elements.length ≤ turns) (runs : Runs rank width elements) :
    Runs rank (width * 2) (mergePass difference width turns elements) ∧
      (mergePass difference width turns elements).filter picked = elements.filter picked := by
  induction turns generalizing elements with
  | zero =>
    obtain rfl : elements = [] := length_eq_zero_iff.1 (le_zero.1 enough)
    exact ⟨.none, rfl⟩
  | succ turns ih =>
    rw [mergePass]
    cases shape : elements.isEmpty with
    | true =>
      obtain rfl := isEmpty_iff.1 shape
      exact ⟨.none, rfl⟩
    | false =>
      obtain ⟨first, later⟩ := runs.take
      obtain ⟨second, later⟩ := later.take
      rw [drop_drop, ← mul_two] at later
      have nonempty : elements ≠ [] := fun same => by rw [same] at shape; cases shape
      have long := length_pos_iff.2 nonempty
      obtain ⟨runs', same⟩ := @ih (elements.drop (width * 2)) (by rw [length_drop]; omega) later
      rw [if_neg Bool.false_ne_true]
      constructor
      · refine .run (merge_ordered ranks first second) ?_ ?_ runs'
        · rw [length_merge, length_take, length_take]
          omega
        · by_cases all : width * 2 ≤ elements.length
          · left
            rw [length_merge, length_take, length_take, length_drop]
            omega
          · right
            rw [drop_of_length_le (by omega), mergePass_nil]
      · rw [filter_append, merge_filter ranks one first, same, ← filter_append,
          ← filter_append, mul_two, ← drop_drop, append_assoc,
          take_append_drop, take_append_drop]

theorem mergePasses_filter (positive : 0 < width) (runs : Runs rank width elements) :
    (mergePasses difference turns width elements).filter picked = elements.filter picked := by
  induction turns generalizing width elements with
  | zero => rfl
  | succ turns ih =>
    rw [mergePasses]
    split
    · obtain ⟨runs', same⟩ := mergePass_runs ranks one positive (le_refl _) runs
      rw [ih (by omega) runs', same]
    · rfl

theorem insertRun_run (run : List α) :
    Ordered rank (insertRun difference run) ∧ (insertRun difference run).length = run.length ∧
      (insertRun difference run).filter picked = run.filter picked := by
  rw [insertRun]
  -- The induction goes from the last element to the first.
  induction run using reverseRecOn with
  | nil => exact ⟨.nil, rfl, rfl⟩
  | append_singleton run new ih =>
    obtain ⟨ordered, length, same⟩ := ih
    rw [foldl_append, foldl_cons, foldl_nil]
    refine ⟨insertLast_ordered ranks ordered, ?_, ?_⟩
    · rw [insertLast_length, length, length_append]
      rfl
    · rw [insertLast_filter ranks one, filter_append, same, filter_append]

theorem insertRuns_runs (positive : 0 < width) (enough : elements.length ≤ turns) :
    Runs rank width (insertRuns difference width turns elements) ∧
      (insertRuns difference width turns elements).filter picked = elements.filter picked := by
  induction turns generalizing elements with
  | zero =>
    obtain rfl : elements = [] := length_eq_zero_iff.1 (le_zero.1 enough)
    exact ⟨.none, rfl⟩
  | succ turns ih =>
    rw [insertRuns]
    cases shape : elements.isEmpty with
    | true =>
      obtain rfl := isEmpty_iff.1 shape
      exact ⟨.none, rfl⟩
    | false =>
      have nonempty : elements ≠ [] := fun same => by rw [same] at shape; cases shape
      have long := length_pos_iff.2 nonempty
      obtain ⟨runs, same⟩ := @ih (elements.drop width) (by rw [length_drop]; omega)
      obtain ⟨ordered, length, same'⟩ := insertRun_run ranks one (elements.take width)
      rw [length_take] at length
      rw [if_neg Bool.false_ne_true]
      constructor
      · refine .run ordered (by omega) ?_ runs
        by_cases all : width ≤ elements.length
        · left
          omega
        · right
          rw [drop_of_length_le (by omega)]
          cases turns <;> rfl
      · rw [filter_append, same, same', ← filter_append, take_append_drop]

theorem sort_filter (positive : 0 < width) (elements : List α) :
    (sort difference width elements).filter picked = elements.filter picked := by
  obtain ⟨runs, same⟩ := @insertRuns_runs _ _ _ _ _ _ elements width elements.length ranks one
    positive (le_refl _)
  rw [sort, mergePasses_filter ranks one positive runs, same]

omit one

omit ranks

/-- The same elements in the order of their ranks, those of one rank in their order from before. -/
structure StableSort (rank : α → β) (input output : List α) : Prop where
  ordered : Ordered rank output
  kept : ∀ picked, OneRank rank picked → output.filter picked = input.filter picked

theorem StableSort.perm (sorts : StableSort rank left right) : right.Perm left := by
  classical
  -- An element is as often in both, as those that are the same as it are of one rank.
  rw [perm_iff_count]
  intro element
  have one : OneRank rank fun other => other == element := by
    intro some other same same'
    rw [beq_iff_eq] at same same'
    rw [same, same']
  have same := congrArg length (sorts.kept _ one)
  rwa [← countP_eq_length_filter, ← countP_eq_length_filter] at same

theorem StableSort.filter (sorts : StableSort rank left right) (picked : α → Bool) :
    StableSort rank (left.filter picked) (right.filter picked) where
  ordered := sorts.ordered.filter _
  kept := by
    intro also one
    rw [filter_filter, filter_filter]
    apply sorts.kept
    intro some other is is'
    rw [Bool.and_eq_true] at is is'
    exact one some other is.1 is'.1

theorem StableSort.map {γ : Type} {stands : γ → α} {before after : List γ}
    (sorts : StableSort (fun element => rank (stands element)) before after) :
    StableSort rank (before.map stands) (after.map stands) where
  ordered := pairwise_map.2 sorts.ordered
  kept := by
    intro picked one
    rw [filter_map, filter_map, sorts.kept]
    exact fun some other is is' => one _ _ is is'

/-- Ranks that order the elements of a list alike have the same stable sort of it. -/
theorem StableSort.congr {γ : Type} [LinearOrder γ] {rank' : α → γ} (sorts : StableSort rank left right)
    (alike : ∀ one ∈ left, ∀ other ∈ left, rank one ≤ rank other ↔ rank' one ≤ rank' other) :
    StableSort rank' left right where
  ordered := by
    have inside := sorts.perm
    refine sorts.ordered.imp_of_mem fun first second order => ?_
    exact (alike _ (inside.subset first) _ (inside.subset second)).1 order
  kept := by
    classical
    intro picked one
    -- Among the elements of the list those that are picked are of one rank either way.
    have same := sorts.kept (fun other => picked other && decide (other ∈ left)) (by
      intro some other is is'
      rw [Bool.and_eq_true, decide_eq_true_eq] at is is'
      have equal := one some other is.1 is'.1
      exact le_antisymm ((alike _ is.2 _ is'.2).2 equal.le) ((alike _ is'.2 _ is.2).2 equal.ge))
    have within : ∀ elements : List α, elements ⊆ left →
        elements.filter (fun other => picked other && decide (other ∈ left)) = elements.filter picked := by
      intro elements inside
      apply filter_congr
      intro other listed
      rw [decide_eq_true (inside listed), Bool.and_true]
    rwa [within _ sorts.perm.subset, within _ (List.Subset.refl _)] at same

/-- There is one stable sort of a list. -/
theorem StableSort.unique (sorts : StableSort rank elements left)
    (also : StableSort rank elements right) : left = right := by
  have perm : right.Perm left := also.perm.trans sorts.perm.symm
  have ordered := sorts.ordered
  have ordered' := also.ordered
  have kept : ∀ picked, OneRank rank picked → left.filter picked = right.filter picked :=
    fun picked one => (sorts.kept picked one).trans (also.kept picked one).symm
  clear sorts also
  induction left generalizing right with
  | nil => exact perm.eq_nil.symm
  | cons first left ih =>
    obtain - | ⟨second, right⟩ := right
    · exact absurd perm.symm.eq_nil (by simp)
    -- Both first elements have the least rank, and they are the first of that rank.
    have least : rank first ≤ rank second := by
      have inside : second ∈ first :: left := perm.subset mem_cons_self
      obtain rfl | inside := mem_cons.1 inside
      · exact le_refl _
      · exact rel_of_pairwise_cons ordered inside
    have least' : rank second ≤ rank first := by
      have inside : first ∈ second :: right := perm.symm.subset mem_cons_self
      obtain rfl | inside := mem_cons.1 inside
      · exact le_refl _
      · exact rel_of_pairwise_cons ordered' inside
    have same := le_antisymm least least'
    have one : OneRank rank fun other => decide (rank other = rank first) := by
      intro some other is is'
      rw [decide_eq_true_eq] at is is'
      rw [is, is']
    have heads := kept _ one
    rw [filter_cons_of_pos (by simp), filter_cons_of_pos (by simp [same])] at heads
    obtain ⟨rfl, -⟩ := cons.inj heads
    rw [ih perm.cons_inv ordered.tail ordered'.tail]
    intro picked one
    have both := kept picked one
    rw [filter_cons, filter_cons] at both
    split at both
    · exact (cons.inj both).2
    · exact both

theorem Runs.ordered (runs : Runs rank width elements) (short : elements.length ≤ width) :
    Ordered rank elements := by
  have first := runs.take.1
  rwa [take_of_length_le short] at first

theorem runs_one (elements : List α) : Runs rank 1 elements := by
  induction elements with
  | nil => exact .none
  | cons element elements ih => exact .run (pairwise_singleton _ element) (le_refl 1) (.inl rfl) ih

/-- A pass permutes the elements. -/
theorem mergePass_perm (positive : 0 < width) (enough : elements.length ≤ turns) :
    (mergePass difference width turns elements).Perm elements := by
  induction turns generalizing elements with
  | zero =>
    obtain rfl : elements = [] := length_eq_zero_iff.1 (le_zero.1 enough)
    exact List.Perm.refl _
  | succ turns ih =>
    rw [mergePass]
    split
    · next none =>
      rw [isEmpty_iff.1 none]
    · next some =>
      have long := length_pos_iff.2 fun none => some (isEmpty_iff.2 none)
      have later := @ih (elements.drop (width * 2)) (by rw [length_drop]; omega)
      -- The pair's runs and what is behind them are the elements.
      refine ((merge_perm_append _).append later).trans (List.Perm.of_eq ?_)
      rw [mul_two, ← drop_drop, append_assoc, take_append_drop, take_append_drop]

include ranks

theorem insertRuns_length (positive : 0 < width) (enough : elements.length ≤ turns) :
    (insertRuns difference width turns elements).length = elements.length := by
  induction turns generalizing elements with
  | zero => rfl
  | succ turns ih =>
    rw [insertRuns]
    split
    · next none =>
      rw [isEmpty_iff.1 none]
    · next some =>
      have long := length_pos_iff.2 fun none => some (isEmpty_iff.2 none)
      have first := (@insertRun_run _ difference _ _ rank (fun _ => false) ranks
        (fun _ _ is => nomatch is) (elements.take width)).2.1
      rw [length_append, ih (by rw [length_drop]; omega), first, length_take,
        length_drop]
      omega

theorem mergePasses_ordered (positive : 0 < width)
    (enough : elements.length ≤ width * 2 ^ turns) (runs : Runs rank width elements) :
    Ordered rank (mergePasses difference turns width elements) := by
  induction turns generalizing width elements with
  | zero => exact runs.ordered (by simpa using enough)
  | succ turns ih =>
    rw [mergePasses]
    split
    · obtain ⟨runs', -⟩ := @mergePass_runs _ difference _ _ rank (fun _ => false) elements width
        elements.length ranks (fun _ _ is => nomatch is) positive (le_refl _) runs
      apply ih (by omega) _ runs'
      rw [(mergePass_perm positive (le_refl _)).length_eq]
      calc elements.length ≤ width * 2 ^ (turns + 1) := enough
        _ = width * 2 * 2 ^ turns := by ring
    · exact runs.ordered (by omega)

theorem sort_stable (positive : 0 < width) (elements : List α) :
    StableSort rank elements (sort difference width elements) where
  ordered := by
    have made := @insertRuns_runs _ difference _ _ rank (fun _ => false) elements width
      elements.length ranks (fun _ _ is => nomatch is) positive (le_refl _)
    rw [sort]
    apply mergePasses_ordered ranks positive _ made.1
    rw [insertRuns_length ranks positive (le_refl _)]
    calc elements.length ≤ 2 ^ elements.length := Nat.lt_two_pow_self.le
      _ ≤ width * 2 ^ elements.length := Nat.le_mul_of_pos_left _ positive
  kept := fun picked one => sort_filter ranks one positive elements

/-- Passes up to the last one that is needed are a stable sort. -/
theorem mergeUntil_stable (positive : 0 < width)
    (enough : elements.length ≤ width * 2 ^ turns) (some : 0 < turns) (runs : Runs rank width elements) :
    StableSort rank elements (mergeUntil difference turns width elements) := by
  induction turns generalizing width elements with
  | zero => exact absurd some (by decide)
  | succ turns ih =>
    have pass := fun picked (one : OneRank rank picked) =>
      @mergePass_runs _ difference _ _ rank picked elements width elements.length ranks one positive
        (le_refl _) runs
    have length := (@mergePass_perm _ difference elements width elements.length positive
      (le_refl _)).length_eq
    have made := (pass (fun _ => false) fun _ _ is => nomatch is).1
    rw [mergeUntil]
    split
    · next short =>
      exact ⟨made.ordered (by omega), fun picked one => (pass picked one).2⟩
    · next long =>
      have more : 0 < turns := by
        by_contra none
        obtain rfl : turns = 0 := by omega
        simp at enough
        omega
      have rest := ih (by omega) (by rw [length]; calc
        elements.length ≤ width * 2 ^ (turns + 1) := enough
        _ = width * 2 * 2 ^ turns := by ring) more made
      exact ⟨rest.ordered, fun picked one => (rest.kept picked one).trans (pass picked one).2⟩

end RunMerge
