import Libretro.Library.BoundedLoop
import Libretro.Library.Kraft
import Mathlib.Data.List.Basic
import Mathlib.Data.List.Nodup
import Mathlib.Data.List.Range
import Mathlib.Logic.Function.Basic

/-! The code lengths that the deflate encoder gives to symbols, and their canonical codes. -/

namespace Libretro.RDeflate

open Function List Nat

/-- The scratch arrays of `struct rdeflate`, with what earlier calls have left in them. -/
structure Scratch where
  wt : Nat → UInt32
  left : Nat → Nat
  right : Nat → Nat
  depth : Nat → Nat

/-- An element of `gl_idx` with the one of `gl_fr` beside it: a used symbol and its frequency. -/
structure Symbol where
  idx : Nat
  fr : UInt32
deriving DecidableEq

/-- The symbols that are used, in their own order. -/
def usedSymbols (freq : List UInt32) : List Symbol :=
  (freq.zipIdx.filter (·.1 ≠ 0)).map fun (fr, idx) => ⟨idx, fr⟩

/-- One symbol is shifted in from behind, past every heavier one; the last symbol comes first. -/
def shiftIn (symbol : Symbol) : List Symbol → List Symbol
  | [] => [symbol]
  | last :: before => if symbol.fr < last.fr then last :: shiftIn symbol before else symbol :: last :: before

/-- The insertion sort by frequency. -/
def sortSymbols (symbols : List Symbol) : List Symbol :=
  (symbols.foldl (fun sorted symbol => shiftIn symbol sorted) []).reverse

/-- Internal nodes have the indices from here on. -/
def internalBase : Nat := 288

/-- The two queues and the nodes that have been allocated. -/
structure Merging where
  wt : Nat → UInt32
  left : Nat → Nat
  right : Nat → Nat
  lq : Nat
  iq : Nat
  nodeUsed : Nat

/-- The nodes in both queues. -/
def Merging.live (m : Nat) (s : Merging) : Nat := (m - s.lq) + (s.nodeUsed - s.iq)

/-- The lighter one of the two fronts leaves its queue. -/
def Merging.pick (m : Nat) (s : Merging) : Nat × Merging :=
  if s.lq < m ∧ (s.nodeUsed ≤ s.iq ∨ s.wt s.lq ≤ s.wt s.iq) then
    (s.lq, { s with lq := s.lq + 1 })
  else (s.iq, { s with iq := s.iq + 1 })

/-- Two nodes become the children of a new one. -/
def Merging.merge (m : Nat) (s : Merging) : Merging :=
  let (x, s) := s.pick m
  let (y, s) := s.pick m
  { s with
    wt := Function.update s.wt s.nodeUsed (s.wt x + s.wt y)
    left := Function.update s.left s.nodeUsed x
    right := Function.update s.right s.nodeUsed y
    nodeUsed := s.nodeUsed + 1 }

/-- The queues before the first merge. -/
def mergingStart (scratch : Scratch) (fr : List UInt32) : Merging where
  wt i := if i < fr.length then fr.getD i 0 else scratch.wt i
  left := scratch.left
  right := scratch.right
  lq := 0
  iq := internalBase
  nodeUsed := internalBase

/-- The merges, while more than one node is in the queues. -/
def mergeAll (scratch : Scratch) (passes : Nat) (fr : List UInt32) : Option Merging :=
  BoundedLoop.run (fun s => 1 < s.live fr.length) (·.merge fr.length) passes (mergingStart scratch fr)

/-- The walk down from a node gives both children of every internal node their depths. -/
def setDepths (left right : Nat → Nat) : Nat → (Nat → Nat) → (Nat → Nat)
  | 0, depth => depth
  | k + 1, depth =>
    let i := internalBase + k
    let d := depth i + 1
    setDepths left right k (Function.update (Function.update depth (left i) d) (right i) d)

/-- The depths of the leaves. -/
def leafDepths (scratch : Scratch) (m : Nat) (tree : Merging) : List Nat :=
  let depth := setDepths tree.left tree.right (tree.nodeUsed - internalBase)
    (Function.update scratch.depth (tree.nodeUsed - 1) 0)
  (List.range m).map fun i => if depth i ≠ 0 then depth i else 1

/-- The lengths, how many there are of each, and their Kraft sum in units of the longest. -/
structure Repair where
  lc : List Nat
  bl : Nat → Nat
  kraft : Nat

/-- The longest length up to `l2` that a code has, or zero. -/
def longest (bl : Nat → Nat) : Nat → Nat
  | 0 => 0
  | l2 + 1 => if bl (l2 + 1) = 0 then longest bl l2 else l2 + 1

/-- The first code of one length takes another one. -/
def Repair.move (s : Repair) (l2 other kraft : Nat) : Repair where
  lc := s.lc.replace l2 other
  bl := Function.update (Function.update s.bl l2 (s.bl l2 - 1)) other
    (Function.update s.bl l2 (s.bl l2 - 1) other + 1)
  kraft := kraft

/-- A pass of the loop that lengthens codes. -/
def Repair.lengthen (maxBits : Nat) (s : Repair) : Repair :=
  let l2 := longest s.bl (maxBits - 1)
  s.move l2 (l2 + 1) ((s.kraft + 2 ^ 32 - (1 <<< maxBits) >>> (l2 + 1)) % 2 ^ 32)

/-- A pass of the loop that shortens codes. -/
def Repair.shorten (maxBits : Nat) (s : Repair) : Repair :=
  let l2 := longest s.bl maxBits
  s.move l2 (l2 - 1) ((s.kraft + (1 <<< maxBits) >>> l2) % 2 ^ 32)

/-- The lengths as they are when the redistribution starts. -/
def repairStart (maxBits : Nat) (lc : List Nat) : Repair :=
  let lc := lc.map (min · maxBits)
  { lc := lc
    bl := fun len => lc.count len
    kraft := lc.foldl (fun kraft len => (kraft + (1 <<< maxBits) >>> len) % 2 ^ 32) 0 }

/-- The redistribution; both loops break off when no length is left to change. -/
def redistribute (passes maxBits : Nat) (lc : List Nat) : Option (List Nat) := do
  let one := 1 <<< maxBits
  let s ← BoundedLoop.run (fun s => one < s.kraft ∧ longest s.bl (maxBits - 1) ≠ 0)
    (Repair.lengthen maxBits) passes (repairStart maxBits lc)
  let s ← BoundedLoop.run (fun s => s.kraft < one ∧ longest s.bl maxBits ≠ 0)
    (Repair.shorten maxBits) passes s
  return s.lc

/-- Lengths that are too long are redistributed. -/
def limitLengths (passes maxBits : Nat) (lc : List Nat) : Option (List Nat) :=
  if lc.any (decide <| maxBits < ·) then redistribute passes maxBits lc else some lc

/-- The symbols' lengths are stored. -/
def storeLengths : List Symbol → List Nat → List Nat → List Nat
  | symbol :: symbols, len :: lc, lengths => storeLengths symbols lc (lengths.set symbol.idx (len % 2 ^ 8))
  | _, _, lengths => lengths

/-- `rd_gen_lengths`; `none` when a loop's passes run out. -/
def rdGenLengths (scratch : Scratch) (passes : Nat) (freq : List UInt32) (maxBits : Nat) :
    Option (List Nat) :=
  let lengths := List.replicate freq.length 0
  let symbols := usedSymbols freq
  if symbols.length = 0 then some lengths
  else if symbols.length = 1 then some (storeLengths symbols [1] lengths)
  else do
    let symbols := sortSymbols symbols
    let tree ← mergeAll scratch passes (symbols.map Symbol.fr)
    let lc ← limitLengths passes maxBits (leafDepths scratch symbols.length tree)
    return storeLengths symbols lc lengths

/-- The loop of `rd_bitrev`, with the passes that are left. -/
def bitrevLoop : Nat → Nat → Nat → Nat
  | 0, _, r => r
  | n + 1, code, r => bitrevLoop n (code >>> 1) ((r <<< 1 ||| code &&& 1) % 2 ^ 16)

/-- `rd_bitrev`. -/
def rdBitrev (code len : Nat) : Nat := bitrevLoop len code 0

/-- `next_code` as the loop over the lengths leaves it. -/
def nextCode (blCount : Nat → Nat) : Nat → Nat
  | 0 => 0
  | bits + 1 => (nextCode blCount bits + blCount bits) <<< 1

/-- The loop that gives the symbols their codes. -/
def giveCodes : List Nat → (Nat → Nat) → List Nat
  | [], _ => []
  | len :: lens, next =>
    if len ≠ 0 then
      rdBitrev (next len % 2 ^ 16) len :: giveCodes lens (Function.update next len (next len + 1))
    else 0 :: giveCodes lens next

/-- `rd_codes_from_lengths`. -/
def rdCodesFromLengths (lens : List Nat) : List Nat :=
  giveCodes lens (nextCode fun len => if len = 0 then 0 else lens.count len)

variable {m : Nat} {s : Merging}

/-- The internal nodes that have been allocated. -/
def Merging.internal (s : Merging) : List Nat := List.range' internalBase (s.nodeUsed - internalBase)

/-- The nodes that have left the queues. -/
def Merging.taken (s : Merging) : List Nat :=
  List.range s.lq ++ List.range' internalBase (s.iq - internalBase)

/-- The children of some internal nodes. -/
def childrenOf (left right : Nat → Nat) (nodes : List Nat) : List Nat :=
  nodes.flatMap fun node => [left node, right node]

/-- What holds while the queues are merged. -/
structure Merging.Holds (m : Nat) (s : Merging) : Prop where
  leaves : s.lq ≤ m
  base : internalBase ≤ s.iq
  queue : s.iq ≤ s.nodeUsed
  children : (childrenOf s.left s.right s.internal).Perm s.taken
  below : ∀ node, internalBase ≤ node → node < s.nodeUsed → s.left node < node ∧ s.right node < node
  newest : s.nodeUsed = internalBase ∨ s.iq < s.nodeUsed

theorem Merging.pick_spec (leaves : s.lq ≤ m) (base : internalBase ≤ s.iq)
    (queue : s.iq ≤ s.nodeUsed) (live : 1 ≤ s.live m) (small : m ≤ internalBase) :
    ∃ x after, s.pick m = (x, after) ∧ after.taken.Perm (x :: s.taken) ∧
      after.live m + 1 = s.live m ∧ after.lq ≤ m ∧ internalBase ≤ after.iq ∧
      after.iq ≤ s.nodeUsed ∧ x < s.nodeUsed ∧
      after = { s with lq := after.lq, iq := after.iq } := by
  rw [Merging.live] at live
  rw [Merging.pick]
  split
  · -- The leaf is the lighter one, or the only one.
    rename_i leaf
    refine ⟨s.lq, { s with lq := s.lq + 1 }, rfl, ?_, ?_, leaf.1, base, queue, by omega, rfl⟩
    · rw [Merging.taken, range_succ, append_assoc, singleton_append, Merging.taken]
      exact perm_middle
    · simp only [Merging.live]
      omega
  · rename_i inner
    have there : s.iq < s.nodeUsed := by
      by_contra gone
      exact inner ⟨by omega, .inl (by omega)⟩
    refine ⟨s.iq, { s with iq := s.iq + 1 }, rfl, ?_, ?_, leaves, by dsimp only; omega, there,
      there, rfl⟩
    · have grows : s.iq + 1 - internalBase = (s.iq - internalBase) + 1 := by omega
      have front : internalBase + (s.iq - internalBase) = s.iq := by omega
      rw [Merging.taken, grows, range'_1_concat, front, ← append_assoc, Merging.taken]
      exact perm_append_singleton _ _
    · simp only [Merging.live]
      omega

theorem childrenOf_length {left right : Nat → Nat} {nodes : List Nat} :
    (childrenOf left right nodes).length = 2 * nodes.length := by
  induction nodes with
  | nil => rfl
  | cons node nodes ih =>
    rw [childrenOf, flatMap_cons, length_append, ← childrenOf, ih]
    simp only [length_cons, length_nil]
    omega

theorem childrenOf_update {left right : Nat → Nat} {nodes : List Nat} {node x y : Nat}
    (fresh : node ∉ nodes) :
    childrenOf (update left node x) (update right node y) nodes = childrenOf left right nodes := by
  rw [childrenOf, childrenOf]
  refine flatMap_congr fun other listed => ?_
  have different : other ≠ node := fun same => fresh (same ▸ listed)
  rw [update_of_ne different, update_of_ne different]

theorem Merging.Holds.merge (holds : s.Holds m) (live : 1 < s.live m) (small : m ≤ internalBase) :
    (s.merge m).Holds m ∧ (s.merge m).live m < s.live m := by
  obtain ⟨x, first, pickX, takenX, liveX, leavesX, baseX, queueX, belowX, sameX⟩ :=
    Merging.pick_spec holds.leaves holds.base holds.queue (le_of_lt live) small
  have usedX : first.nodeUsed = s.nodeUsed := by rw [sameX]
  obtain ⟨y, second, pickY, takenY, liveY, leavesY, baseY, queueY, belowY, sameY⟩ :=
    @Merging.pick_spec m first leavesX baseX (by omega) (by omega) small
  have usedY : second.nodeUsed = s.nodeUsed := by rw [sameY, ← usedX]
  have lefts : second.left = s.left := by rw [sameY, sameX]
  have rights : second.right = s.right := by rw [sameY, sameX]
  have allocated := le_trans holds.base holds.queue
  have merged : s.merge m = { second with
      wt := update second.wt s.nodeUsed (second.wt x + second.wt y)
      left := update s.left s.nodeUsed x
      right := update s.right s.nodeUsed y
      nodeUsed := s.nodeUsed + 1 } := by
    simp only [Merging.merge, pickX, pickY, usedY, lefts, rights]
  have fresh : s.nodeUsed ∉ s.internal := by
    rw [Merging.internal, mem_range'_1]
    omega
  rw [merged]
  refine ⟨⟨leavesY, baseY, by dsimp only; omega, ?_, ?_, .inr (by dsimp only; omega)⟩, ?_⟩
  · -- The new node comes behind the others, and its children are the two that were picked.
    have grows : s.nodeUsed + 1 - internalBase = (s.nodeUsed - internalBase) + 1 := by omega
    have place : internalBase + (s.nodeUsed - internalBase) = s.nodeUsed := by omega
    have split : childrenOf (update s.left s.nodeUsed x) (update s.right s.nodeUsed y)
          (range' internalBase (s.nodeUsed + 1 - internalBase)) =
        childrenOf s.left s.right s.internal ++ [x, y] := by
      rw [grows, range'_1_concat, place, childrenOf, flatMap_append, ← childrenOf,
        ← Merging.internal, childrenOf_update fresh]
      simp
    have takes : second.taken.Perm (s.taken ++ [x, y]) := by
      have pair : [y, x].Perm [x, y] := .swap x y []
      exact (takenY.trans (takenX.cons y)).trans ((pair.append_right s.taken).trans perm_append_comm)
    rw [Merging.internal, split]
    exact (holds.children.append_right _).trans takes.symm
  · intro node least most
    dsimp only at most ⊢
    by_cases new : node = s.nodeUsed
    · subst new
      rw [update_self, update_self]
      exact ⟨belowX, by omega⟩
    · rw [update_of_ne new, update_of_ne new]
      exact holds.below node least (by omega)
  · have liveAfter : second.live m + 1 + 1 = s.live m := by omega
    simp only [Merging.live] at liveAfter live ⊢
    omega

/-- When the merges are over, the internal nodes are the inner nodes of a tree over all leaves. -/
theorem mergeAll_spec (scratch : Scratch) {passes : Nat} (fr : List UInt32) (two : 2 ≤ fr.length)
    (small : fr.length ≤ internalBase) (enough : fr.length ≤ passes) :
    ∃ tree, mergeAll scratch passes fr = some tree ∧ internalBase < tree.nodeUsed ∧
      (childrenOf tree.left tree.right tree.internal).Perm
        (range fr.length ++ range' internalBase (tree.nodeUsed - 1 - internalBase)) ∧
      ∀ node, internalBase ≤ node → node < tree.nodeUsed →
        tree.left node < node ∧ tree.right node < node := by
  -- Every merge leaves one node less in the queues.
  have start : (mergingStart scratch fr).Holds fr.length := by
    refine ⟨zero_le _, le_refl _, le_refl _, ?_, ?_, .inl rfl⟩
    · simp [Merging.internal, Merging.taken, mergingStart, childrenOf]
    · intro node least most
      exact absurd (lt_of_le_of_lt least most) (lt_irrefl _)
  obtain ⟨tree, ran, holds, ended⟩ := BoundedLoop.run_ends (Merging.live fr.length)
    (fun s holds more => Merging.Holds.merge holds (of_decide_eq_true more) small) passes start (by
      simp only [Merging.live, mergingStart, sub_self]
      omega)
  -- At the end both queues are empty up to the newest node, which is the root.
  have last := of_decide_eq_false ended
  have children := holds.children.length_eq
  rw [childrenOf_length, Merging.internal, Merging.taken, length_append, length_range,
    length_range', length_range'] at children
  have leaves := holds.leaves
  have base := holds.base
  have queue := holds.queue
  rw [Merging.live] at last
  have all : tree.lq = fr.length ∧ tree.iq = tree.nodeUsed - 1 ∧ internalBase < tree.nodeUsed := by
    rcases holds.newest with none | newest <;> omega
  refine ⟨tree, ran, all.2.2, ?_, holds.below⟩
  have taken := holds.children
  rwa [Merging.taken, all.1, all.2.1] at taken

variable {left right : Nat → Nat} {k : Nat}

theorem setDepths_other {other : Nat} (depth : Nat → Nat)
    (childless : other ∉ childrenOf left right (range' internalBase k)) :
    setDepths left right k depth other = depth other := by
  -- The induction follows the nodes that are left to walk through, the last one first.
  induction k generalizing depth with
  | zero => rfl
  | succ k ih =>
    rw [range'_1_concat, childrenOf, flatMap_append, mem_append, not_or] at childless
    obtain ⟨earlier, here⟩ := childless
    simp only [flatMap_cons, flatMap_nil, append_nil, mem_cons, not_mem_nil, or_false, not_or] at here
    rw [setDepths, ih _ earlier, update_of_ne here.2, update_of_ne here.1]

theorem notMem_childrenOf {other : Nat} (below : ∀ node, internalBase ≤ node → node < internalBase + k →
      left node < node ∧ right node < node) (behind : internalBase + k ≤ other + 1) :
    other ∉ childrenOf left right (range' internalBase k) := by
  intro listed
  obtain ⟨node, inside, child⟩ := mem_flatMap.1 listed
  rw [mem_range'_1] at inside
  obtain ⟨leftBelow, rightBelow⟩ := below node inside.1 inside.2
  simp only [mem_cons, not_mem_nil, or_false] at child
  omega

theorem setDepths_children (depth : Nat → Nat)
    (below : ∀ node, internalBase ≤ node → node < internalBase + k →
      left node < node ∧ right node < node)
    (nodup : (childrenOf left right (range' internalBase k)).Nodup) :
    ∀ node ∈ range' internalBase k,
      setDepths left right k depth (left node) = setDepths left right k depth node + 1 ∧
        setDepths left right k depth (right node) = setDepths left right k depth node + 1 := by
  induction k generalizing depth with
  | zero => exact nofun
  | succ k ih =>
    have earlierBelow : ∀ node, internalBase ≤ node → node < internalBase + k →
        left node < node ∧ right node < node :=
      fun node least most => below node least (by omega)
    have split : childrenOf left right (range' internalBase (k + 1)) =
        childrenOf left right (range' internalBase k) ++
          [left (internalBase + k), right (internalBase + k)] := by
      rw [range'_1_concat, childrenOf, flatMap_append, ← childrenOf]
      simp
    rw [split] at nodup
    obtain ⟨earlier, pair, apart⟩ := nodup_append'.1 nodup
    intro node listed
    rw [range'_1_concat, mem_append] at listed
    rcases listed with before | here
    · exact ih _ earlierBelow earlier node before
    · -- No earlier node touches the last one or its children again.
      obtain rfl := mem_singleton.1 here
      obtain ⟨leftBelow, rightBelow⟩ := below (internalBase + k) (by omega) (by omega)
      have itself := @notMem_childrenOf left right k (internalBase + k) earlierBelow (by omega)
      have first : left (internalBase + k) ∉ childrenOf left right (range' internalBase k) :=
        fun twice => apart twice (by simp)
      have second : right (internalBase + k) ∉ childrenOf left right (range' internalBase k) :=
        fun twice => apart twice (by simp)
      rw [setDepths, setDepths_other _ first, setDepths_other _ second, setDepths_other _ itself,
        update_self, update_of_ne (ne_of_gt rightBelow),
        update_of_ne (ne_of_gt leftBelow)]
      refine ⟨?_, rfl⟩
      by_cases same : left (internalBase + k) = right (internalBase + k)
      · rw [same, update_self]
      · rw [update_of_ne same, update_self]

/-- The depths of the leaves are the lengths of a complete code. -/
theorem leafDepths_complete (scratch : Scratch) {tree : Merging} (small : m ≤ internalBase)
    (some : internalBase < tree.nodeUsed)
    (children : (childrenOf tree.left tree.right tree.internal).Perm
      (range m ++ range' internalBase (tree.nodeUsed - 1 - internalBase)))
    (below : ∀ node, internalBase ≤ node → node < tree.nodeUsed →
      tree.left node < node ∧ tree.right node < node) :
    (leafDepths scratch m tree).length = m ∧ (∀ len ∈ leafDepths scratch m tree, 1 ≤ len) ∧
      Kraft.sum (leafDepths scratch m tree) = 1 := by
  have inside : ∀ node, internalBase ≤ node → node < internalBase + (tree.nodeUsed - internalBase) →
        tree.left node < node ∧ tree.right node < node :=
    fun node least most => below node least (by omega)
  -- Leaves and internal nodes have different indices.
  have nodup : (childrenOf tree.left tree.right tree.internal).Nodup := by
    rw [children.nodup_iff, nodup_append']
    refine ⟨nodup_range, nodup_range', fun node leaf inner => ?_⟩
    rw [mem_range] at leaf
    rw [mem_range'_1] at inner
    omega
  obtain ⟨depth, walked⟩ : ∃ depth, depth = setDepths tree.left tree.right
      (tree.nodeUsed - internalBase) (update scratch.depth (tree.nodeUsed - 1) 0) :=
    ⟨_, rfl⟩
  have deeper := setDepths_children (update scratch.depth (tree.nodeUsed - 1) 0) inside nodup
  rw [← walked] at deeper
  have top : depth (tree.nodeUsed - 1) = 0 := by
    rw [walked, setDepths_other _ (notMem_childrenOf inside (by omega)), update_self]
  have positive : ∀ i, i < m → 1 ≤ depth i := by
    intro i leaf
    have child : i ∈ childrenOf tree.left tree.right tree.internal :=
      children.mem_iff.2 (mem_append_left _ (mem_range.2 leaf))
    obtain ⟨node, listed, one⟩ := mem_flatMap.1 child
    obtain ⟨lefts, rights⟩ := deeper node listed
    simp only [mem_cons, not_mem_nil, or_false] at one
    rcases one with rfl | rfl
    · rw [lefts]
      exact le_add_left 1 _
    · rw [rights]
      exact le_add_left 1 _
  have depths : leafDepths scratch m tree = (range m).map depth := by
    rw [leafDepths, ← walked]
    refine map_congr_left fun i leaf => ?_
    have := positive i (mem_range.1 leaf)
    exact if_pos (by omega)
  rw [depths]
  refine ⟨by rw [length_map, length_range], ?_, ?_⟩
  · intro len listed
    obtain ⟨i, leaf, rfl⟩ := mem_map.1 listed
    exact positive i (mem_range.1 leaf)
  · -- The root is the internal node that is no child.
    have grows : tree.nodeUsed - internalBase = (tree.nodeUsed - 1 - internalBase) + 1 := by omega
    have last : internalBase + (tree.nodeUsed - 1 - internalBase) = tree.nodeUsed - 1 := by omega
    have split : tree.internal =
        range' internalBase (tree.nodeUsed - 1 - internalBase) ++ [tree.nodeUsed - 1] := by
      rw [Merging.internal, grows, range'_1_concat, last]
    have added := (children.cons (tree.nodeUsed - 1)).trans (perm_append_singleton (tree.nodeUsed - 1) _).symm
    rw [childrenOf, append_assoc, ← split] at added
    exact Kraft.sum_leaves added top (fun node listed => (deeper node listed).1)
      fun node listed => (deeper node listed).2

end Libretro.RDeflate
