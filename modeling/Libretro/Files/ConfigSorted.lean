import Libretro.Files.ConfigSave
import Libretro.Files.ConfigSort
import Libretro.Library.LinkedChain
import Mathlib.Order.WithBot

/-! The sort of the list relinks its nodes as passes over runs of one and more order them. -/

namespace Libretro.ConfigFile

open LinkedChain List Option RunMerge Entry Nat

variable {Node : Type} [DecidableEq Node] {cmp : Node → Node → Int} {list : Relink Node}
  {done left right rest nodes elements : List Node} {p q stop middle head : Option Node} {e : Node}
  {next : Node → Option Node} {width turns size qsize merges : Nat}

/-- The list so far has some nodes: each of them links to the next, and the last is the tail. -/
inductive Relink.Built (list : Relink Node) : List Node → Prop where
  | none (newhead : list.newhead = none) (tail : list.tail = none) : Relink.Built list []
  | some {front : List Node} {last : Node} (tail : list.tail = some last)
    (linked : Segment list.next list.newhead front (some last)) : Relink.Built list (front ++ [last])

theorem Relink.Built.put (built : list.Built done) (new : (done ++ [e]).Nodup) :
    (list.put e).Built (done ++ [e]) := by
  cases built with
  | none newhead tail =>
    rw [Relink.put, tail]
    exact .some rfl rfl
  | @some front last tail linked =>
    rw [Relink.put, tail]
    refine .some rfl (segment_append.2 ⟨_, ?_, rfl, Function.update_self ..⟩)
    apply linked.update
    have apart := (nodup_append.1 new).1
    rw [nodup_append] at apart
    exact fun inside => apart.2.2 last inside last mem_cons_self rfl

theorem Relink.Built.segment_put (built : list.Built done)
    (apart : ∀ node ∈ nodes, node ∉ done) (segment : Segment list.next p nodes stop) :
    Segment (list.put e).next p nodes stop := by
  cases built with
  | none newhead tail =>
    rw [Relink.put, tail]
    exact segment
  | @some front last tail linked =>
    rw [Relink.put, tail]
    exact segment.update (fun inside => apart last inside (by simp)) _

theorem Relink.Built.step {others : List Node} (built : list.Built done)
    (nodup : ((done ++ [e]) ++ others).Nodup) :
    (list.put e).Built (done ++ [e]) ∧ ∀ nodes, (∀ node ∈ nodes, node ∈ others) → ∀ p stop,
      Segment list.next p nodes stop → Segment (list.put e).next p nodes stop := by
  rw [nodup_append] at nodup
  refine ⟨built.put nodup.1, fun nodes inside p stop segment => ?_⟩
  apply built.segment_put _ segment
  intro node listed also
  exact nodup.2.2 node (mem_append_left _ also) node (inside node listed) rfl

omit [DecidableEq Node] in
theorem leftRun_segment (chain : Chain next p elements) :
    ∃ q, leftRun next width p = ((elements.take width).length, q) ∧
      Segment next p (elements.take width) q ∧ Chain next q (elements.drop width) := by
  induction width generalizing p elements with
  | zero => exact ⟨p, rfl, rfl, chain⟩
  | succ width ih =>
    cases elements with
    | nil =>
      obtain rfl : p = none := chain
      exact ⟨none, rfl, rfl, rfl⟩
    | cons element elements =>
      obtain ⟨rfl, chain⟩ := chain
      obtain ⟨q, walked, segment, behind⟩ := ih chain
      refine ⟨q, ?_, ⟨rfl, segment⟩, behind⟩
      rw [leftRun, walked]
      rfl

theorem mergeNodes_built (built : list.Built done) (nodup : (done ++ (left ++ (right ++ rest))).Nodup)
    (leftRun : Segment list.next p left stop) (rightRun : Segment list.next q right middle)
    (behind : Chain list.next middle rest)
    (full : right.length = qsize ∨ right.length < qsize ∧ rest = []) :
    ∃ after, mergeNodes cmp list p q left.length qsize = some (after, middle) ∧
      after.Built (done ++ left.merge right (leftFirst cmp)) ∧ Chain after.next middle rest := by
  induction count : left.length + right.length generalizing list done left right p q qsize with
  | zero =>
    obtain rfl : left = [] := length_eq_zero_iff.1 (by omega)
    obtain rfl : right = [] := length_eq_zero_iff.1 (by omega)
    obtain rfl : q = middle := rightRun
    refine ⟨list, ?_, by simpa using built, behind⟩
    rcases full with full | ⟨-, rfl⟩
    · obtain rfl : 0 = qsize := full
      simp [mergeNodes]
    · obtain rfl : q = none := behind
      cases qsize <;> simp [mergeNodes]
  | succ count ih =>
    -- The nodes that are left, without the one that goes next, are apart from those that are done.
    have takeLeft : ∀ {e : Node} {more : List Node}, left = e :: more →
        ((done ++ [e]) ++ (more ++ (right ++ rest))).Nodup := by
      rintro e more rfl
      simpa using nodup
    have takeRight : ∀ {e : Node} {more : List Node}, right = e :: more →
        ((done ++ [e]) ++ (left ++ (more ++ rest))).Nodup := by
      rintro e more rfl
      rw [List.append_assoc]
      apply (List.Perm.nodup_iff _).1 nodup
      exact List.Perm.append_left _ perm_middle
    cases right with
    | nil =>
      obtain rfl : q = middle := rightRun
      cases left with
      | nil => simp at count
      | cons e left =>
        obtain ⟨rfl, onward⟩ := leftRun
        obtain ⟨built, keeps⟩ := built.step (takeLeft rfl)
        have behind := segment_none.1 (keeps rest (by simp +contextual) _ _ (segment_none.2 behind))
        have none : Segment (list.put e).next q [] q := rfl
        obtain ⟨after, ran, built, behind'⟩ := ih built (takeLeft rfl)
          (keeps left (by simp +contextual) _ _ onward) none behind full (by simpa using count)
        refine ⟨after, ?_, by simpa using built, behind'⟩
        rw [← ran, length_cons]
        rcases full with full | ⟨-, rfl⟩
        · obtain rfl : 0 = qsize := full
          rw [mergeNodes]
        · obtain rfl : q = Option.none := behind
          cases qsize <;> rw [mergeNodes]
    | cons second right =>
      obtain ⟨rfl, onwardRight⟩ := rightRun
      obtain ⟨qsize, rfl⟩ : ∃ more, qsize = more + 1 := by
        refine ⟨qsize - 1, ?_⟩
        rcases full with full | ⟨full, -⟩ <;> rw [length_cons] at full <;> omega
      have whole := full
      have full : right.length = qsize ∨ right.length < qsize ∧ rest = [] := by simpa using full
      obtain ⟨builtRight, keepsRight⟩ := built.step (takeRight rfl)
      cases left with
      | nil =>
        obtain rfl : p = stop := leftRun
        have behind := segment_none.1 (keepsRight rest (by simp +contextual) _ _ (segment_none.2 behind))
        obtain ⟨after, ran, built, behind⟩ := ih builtRight (takeRight rfl)
          (show Segment (list.put second).next p [] p from rfl)
          (keepsRight right (by simp +contextual) _ _ onwardRight) behind full (by simpa using count)
        refine ⟨after, ?_, by simpa using built, behind⟩
        rw [length_nil, mergeNodes]
        exact ran
      | cons first left =>
        obtain ⟨rfl, onwardLeft⟩ := leftRun
        obtain ⟨builtLeft, keepsLeft⟩ := built.step (takeLeft rfl)
        rw [length_cons, mergeNodes, cons_merge_cons, RunMerge.leftFirst]
        split
        · next less =>
          have behind := segment_none.1 (keepsRight rest (by simp +contextual) _ _ (segment_none.2 behind))
          obtain ⟨after, ran, built, behind⟩ := ih builtRight (takeRight rfl)
            (keepsRight (first :: left) (by simp +contextual) _ _ ⟨rfl, onwardLeft⟩)
            (keepsRight right (by simp +contextual) _ _ onwardRight) behind full
            (by simp only [length_cons] at count ⊢; omega)
          refine ⟨after, ran, ?_, behind⟩
          simpa [decide_eq_true less] using built
        · next least =>
          have behind := segment_none.1 (keepsLeft rest (by simp +contextual) _ _ (segment_none.2 behind))
          obtain ⟨after, ran, built, behind⟩ := ih builtLeft (takeLeft rfl)
            (keepsLeft left (by simp +contextual) _ _ onwardLeft)
            (keepsLeft (second :: right) (by simp +contextual) _ _ ⟨rfl, onwardRight⟩) behind
            whole (by simp only [length_cons] at count ⊢; omega)
          refine ⟨after, ran, ?_, behind⟩
          simpa [decide_eq_false least] using built

theorem mergePass_enough {α : Type} {difference : α → α → Int} {elements : List α}
    (positive : 0 < width) (enough : elements.length ≤ turns) :
    mergePass difference width turns elements = mergePass difference width elements.length elements := by
  induction count : elements.length using Nat.strongRecOn generalizing elements turns with
  | ind count ih =>
    subst count
    cases elements with
    | nil => rw [mergePass_nil, mergePass_nil]
    | cons first rest =>
      obtain ⟨turns, rfl⟩ : ∃ more, turns = more + 1 := ⟨turns - 1, by simp at enough; omega⟩
      have shorter : ((first :: rest).drop (width * 2)).length < (first :: rest).length := by
        rw [length_drop, length_cons]
        omega
      have within : ((first :: rest).drop (width * 2)).length ≤ rest.length := by
        rw [length_cons] at shorter
        omega
      have within' : ((first :: rest).drop (width * 2)).length ≤ turns := by
        rw [length_cons] at enough
        omega
      rw [length_cons, mergePass, mergePass, ih _ shorter within' rfl, ih _ shorter within rfl]

theorem mergeRuns_built (positive : 0 < width) (built : list.Built done)
    (nodup : (done ++ elements).Nodup) (chain : Chain list.next p elements)
    (enough : elements.length ≤ turns) :
    ∃ after more, mergeRuns cmp width turns list p merges = some (after, merges + more) ∧
      after.Built (done ++ mergePass cmp width turns elements) ∧
      (more = 0 ↔ elements = []) ∧ (more ≤ 1 ↔ elements.length ≤ width * 2) := by
  induction turns generalizing list done elements p merges with
  | zero =>
    obtain rfl : elements = [] := length_eq_zero_iff.1 (by omega)
    obtain rfl : p = none := chain
    exact ⟨list, 0, by rw [mergeRuns]; rfl, by simpa [mergePass] using built, by simp, by simp⟩
  | succ turns ih =>
    cases elements with
    | nil =>
      obtain rfl : p = none := chain
      exact ⟨list, 0, by rw [mergeRuns]; rfl, by simpa [mergePass] using built, by simp, by simp⟩
    | cons first elements =>
      obtain ⟨rfl, onward⟩ := chain
      have chain : Chain list.next (some first) (first :: elements) := ⟨rfl, onward⟩
      have nonempty : first :: elements ≠ [] := cons_ne_nil _ _
      generalize first :: elements = nodes at chain nodup enough nonempty ⊢
      obtain ⟨q, walked, left, behind⟩ := @leftRun_segment _ nodes (some first) list.next width chain
      -- The right run is what the next width of nodes is.
      have behind : Segment list.next q ((nodes.drop width).take width ++
          (nodes.drop width).drop width) none := by
        rw [take_append_drop]
        exact segment_none.2 behind
      obtain ⟨middle, right, behind⟩ := segment_append.1 behind
      have parts : nodes = nodes.take width ++ ((nodes.drop width).take width ++
          (nodes.drop width).drop width) := by
        rw [take_append_drop, take_append_drop]
      have full : ((nodes.drop width).take width).length = width ∨
          ((nodes.drop width).take width).length < width ∧ (nodes.drop width).drop width = [] := by
        rw [length_take, drop_eq_nil_iff]
        omega
      rw [parts] at nodup
      obtain ⟨after, ran, built, behind⟩ := @mergeNodes_built _ _ cmp list done _ _ _ _ _ _ _ width
        built nodup left right (segment_none.1 behind) full
      rw [List.drop_drop, ← mul_two] at nodup behind
      have again : ((done ++ (nodes.take width).merge ((nodes.drop width).take width)
          (leftFirst cmp)) ++ nodes.drop (width * 2)).Nodup := by
        rw [List.append_assoc]
        apply (List.Perm.nodup_iff _).1 nodup
        apply List.Perm.append_left
        rw [← List.append_assoc]
        exact (merge_perm_append (leftFirst cmp)).symm.append_right _
      have long := length_pos_iff.2 nonempty
      obtain ⟨last, more, ran', built', none', -⟩ := @ih after _ (nodes.drop (width * 2)) middle
        (merges + 1) built again behind (by rw [length_drop]; omega)
      refine ⟨last, more + 1, ?_, ?_, by simp [nonempty], ?_⟩
      · rw [mergeRuns, walked]
        simp only [bind_eq_bind, bind_some, ran]
        rw [ran', add_assoc, add_comm 1]
      · have filled : nodes.isEmpty = false := isEmpty_eq_false_iff.2 nonempty
        rw [mergePass, filled, if_neg Bool.false_ne_true, ← List.append_assoc]
        exact built'
      · rw [drop_eq_nil_iff] at none'
        omega

theorem Relink.Built.chain (built : list.Built done) (nodup : done.Nodup) :
    Chain list.ended list.newhead done ∧ list.tail = done.getLast? := by
  cases built with
  | none newhead tail =>
    rw [Relink.ended, tail, newhead]
    exact ⟨rfl, rfl⟩
  | @some front last tail linked =>
    rw [Relink.ended, tail]
    refine ⟨?_, by simp⟩
    rw [nodup_append] at nodup
    have outside : last ∉ front := fun inside =>
      nodup.2.2 last inside last mem_cons_self rfl
    rw [← segment_none]
    exact segment_append.2 ⟨_, linked.update outside _, rfl, Function.update_self ..⟩

theorem sortListInPlace_chain (positive : 0 < width) (chain : Chain next head nodes)
    (nodup : nodes.Nodup) (enough : nodes.length ≤ width * 2 ^ turns) (begun : 0 < turns)
    (room : nodes.length ≤ size) :
    ∃ next' head', sortListInPlace cmp size turns width next head =
        some (next', head', (mergeUntil cmp turns width nodes).getLast?) ∧
      Chain next' head' (mergeUntil cmp turns width nodes) := by
  induction turns generalizing width next head nodes with
  | zero => exact absurd begun (by decide)
  | succ turns ih =>
    have empty : ({ next } : Relink Node).Built [] := .none rfl rfl
    obtain ⟨after, merges, ran, built, -, few⟩ := @mergeRuns_built _ _ cmp _ _ nodes _ width size 0
      positive empty nodup chain room
    rw [nil_append, mergePass_enough positive room] at built
    have perm : (mergePass cmp width nodes.length nodes).Perm nodes := mergePass_perm positive (le_refl _)
    obtain ⟨chain', tail⟩ := built.chain (perm.nodup_iff.2 nodup)
    have length := perm.length_eq
    rw [sortListInPlace, mergeUntil, ran, zero_add]
    simp only [bind_eq_bind, bind_some]
    by_cases last : nodes.length ≤ width * 2
    · rw [if_pos (few.2 last), if_pos last, ← tail]
      exact ⟨_, _, rfl, chain'⟩
    · rw [if_neg (fun short => last (few.1 short)), if_neg last]
      apply ih (by omega) chain' (perm.nodup_iff.2 nodup) _ _ (by omega)
      · rw [length]
        calc nodes.length ≤ width * 2 ^ (turns + 1) := enough
          _ = width * 2 * 2 ^ turns := by ring
      · by_contra none
        obtain rfl : turns = 0 := by omega
        simp at enough
        omega

open Cells

variable {Text Node : Type} {read : Text → List UInt8}

/-- The rank of an entry in the list: below all keys when it has none. -/
def sortRank (read : Text → List UInt8) (entry : Entry Text) : WithBot (List Nat) :=
  entry.key.map fun key => lowerKey (read key)

/-- The comparison of nodes is that of their ranks. -/
theorem sortCmp_ranks (entry : Node → Entry Text) :
    Ranks (fun one other => sortCmp read (entry one) (entry other))
      fun node => sortRank read (entry node) := by
  have both : ∀ one other : Entry Text,
      (sortCmp read one other < 0 ↔ sortRank read one < sortRank read other) ∧
        (0 < sortCmp read one other ↔ sortRank read other < sortRank read one) := by
    intro one other
    rw [sortCmp, sortRank, sortRank]
    have under : (-1 : Int) < 0 ∧ ¬0 < (-1 : Int) := by decide
    have above : ¬(1 : Int) < 0 ∧ 0 < (1 : Int) := by decide
    have level : ¬(0 : Int) < 0 := by decide
    cases one.key with
    | none =>
      cases other.key with
      | none => exact ⟨iff_of_false level (lt_irrefl _), iff_of_false level (lt_irrefl _)⟩
      | some key => exact ⟨iff_of_true under.1 (WithBot.bot_lt_coe _), iff_of_false under.2 not_lt_bot⟩
    | some key =>
      cases other.key with
      | none => exact ⟨iff_of_false above.1 not_lt_bot, iff_of_true above.2 (WithBot.bot_lt_coe _)⟩
      | some key' =>
        obtain ⟨less, greater⟩ := strcasecmp_order (read key) (read key')
        exact ⟨less.trans WithBot.coe_lt_coe.symm, greater.trans WithBot.coe_lt_coe.symm⟩
  exact ⟨fun one other => (both _ _).1, fun one other => (both _ _).2⟩

theorem sortRank_serialisable {one other : Entry Text} (writes : one.serialisable = true)
    (writes' : other.serialisable = true) :
    sortRank read one ≤ sortRank read other ↔
      lowerKey (one.keyBytes read) ≤ lowerKey (other.keyBytes read) := by
  have keyed : ∀ entry : Entry Text, entry.serialisable = true →
      sortRank read entry = ((lowerKey (entry.keyBytes read) : List Nat) : WithBot (List Nat)) := by
    intro entry writes
    rw [serialisable, Bool.and_eq_true, Bool.and_eq_true] at writes
    obtain ⟨key, is⟩ := isSome_iff_exists.1 writes.1.2
    rw [sortRank, keyBytes, is]
    rfl
  rw [keyed one writes, keyed other writes', WithBot.coe_le_coe]

/-- The array of the entries that are written, once it is sorted. -/
def arraySorted (read : Text → List UInt8) (ents scratch : Nat → Entry Text) (n : Nat) : List (Entry Text) :=
  cells (sortEntriesArray (Entry.difference read) ents scratch n) 0 n

theorem arraySorted_eq (ents scratch : Nat → Entry Text) (n : Nat) :
    arraySorted read ents scratch n = sortEntries read (cells ents 0 n) :=
  sortEntriesArray_cells ents scratch n

theorem sortListInPlace_stable [DecidableEq Node] (entry : Node → Entry Text)
    {next : Node → Option Node} {head : Option Node} {nodes : List Node}
    (chain : Chain next head nodes) :
    ∃ order : List Node, StableSort (fun node => sortRank read (entry node)) nodes order ∧
      ∀ turns, nodes.length < turns → ∃ next' head',
        sortListInPlace (fun one other => sortCmp read (entry one) (entry other))
          turns turns 1 next head = some (next', head', order.getLast?) ∧
        Chain next' head' order := by
  have ranks := @sortCmp_ranks _ _ read entry
  have enough : ∀ turns, nodes.length < turns → nodes.length ≤ 1 * 2 ^ turns := by
    intro turns more
    have := @Nat.lt_two_pow_self turns
    omega
  have stable := fun turns (more : nodes.length < turns) =>
    mergeUntil_stable ranks (by decide) (enough turns more) (by omega) (runs_one nodes)
  refine ⟨_, stable (nodes.length + 1) (lt_succ_self _), fun turns more => ?_⟩
  rw [(stable (nodes.length + 1) (lt_succ_self _)).unique (stable turns more)]
  exact sortListInPlace_chain (by decide) chain chain.nodup (enough turns more) (by omega) more.le

/-- Both sorts end with the one stable sort of the entries that are written by their keys but for
case, and the list's tail is its last node. -/
theorem sorts_agree [DecidableEq Node] (entry : Node → Entry Text) {next : Node → Option Node}
    {head : Option Node} {nodes : List Node} (chain : Chain next head nodes)
    (ents scratch : Nat → Entry Text) (n : Nat)
    (collected : cells ents 0 n = (nodes.map entry).filter Entry.serialisable) :
    (arraySorted read ents scratch n).Perm ((nodes.map entry).filter Entry.serialisable) ∧
      StableSort (fun entry => lowerKey (entry.keyBytes read))
        ((nodes.map entry).filter Entry.serialisable) (arraySorted read ents scratch n) ∧
      ∃ order : List Node, order.Perm nodes ∧
        (order.map entry).filter Entry.serialisable = arraySorted read ents scratch n ∧
        ∀ turns, nodes.length < turns → ∃ next' head',
          sortListInPlace (fun one other => Entry.sortCmp read (entry one) (entry other))
            turns turns 1 next head = some (next', head', order.getLast?) ∧
          Chain next' head' order := by
  have array : StableSort (fun entry => lowerKey (entry.keyBytes read))
      ((nodes.map entry).filter serialisable) (arraySorted read ents scratch n) := by
    rw [arraySorted_eq, ← collected]
    exact sort_stable difference_ranks (by decide) _
  obtain ⟨order, stable, ends⟩ := @sortListInPlace_stable _ _ read _ entry next head nodes chain
  refine ⟨array.perm, array, order, stable.perm, ?_, ends⟩
  -- The list sorts nodes without a key as well, and what is left without them is sorted alike.
  have entries : StableSort (sortRank read) (nodes.map entry) (order.map entry) := stable.map
  have written : StableSort (fun entry => lowerKey (entry.keyBytes read))
      ((nodes.map entry).filter serialisable)
      ((order.map entry).filter serialisable) :=
    (entries.filter _).congr fun one listed other listed' =>
      sortRank_serialisable (of_mem_filter listed) (of_mem_filter listed')
  exact written.unique array

/-- Two entries of one key but for case, and one with none. -/
def threeEntries : Fin 3 → Entry (List UInt8)
  | 0 => { key := some [0x62], value := some [] }
  | 1 => { key := some [0x42], value := some [] }
  | 2 => {}

/-- The links of a list that begins with the last of three nodes. -/
def threeLinks : Fin 3 → Option (Fin 3)
  | 0 => some 1
  | 1 => none
  | 2 => some 0

/-- The list of three nodes is sorted to one order in any number of turns that is enough. -/
theorem sorts_agree_three : ∃ order : List (Fin 3), order.Perm [2, 0, 1] ∧ ∀ turns, 3 < turns → ∃ next' head',
      sortListInPlace (fun one other => Entry.sortCmp id (threeEntries one) (threeEntries other))
        turns turns 1 threeLinks (some 2) = some (next', head', order.getLast?) ∧
      Chain next' head' order := by
  have chain : Chain threeLinks (some 2) [2, 0, 1] := ⟨rfl, rfl, rfl, rfl⟩
  have all := @sorts_agree _ _ id _ threeEntries threeLinks (some 2) [2, 0, 1] chain
    (fun place => threeEntries (if place = 0 then 0 else 1)) (fun _ => {}) 2 rfl
  obtain ⟨-, -, order, perm, -, ends⟩ := all
  exact ⟨order, perm, ends⟩

end Libretro.ConfigFile
