import Mathlib.Data.List.Basic
import Mathlib.Logic.Function.Basic

/-! Singly linked chains: the nodes that links lead to, and what a store to one link changes. -/

namespace LinkedChain

open Function List

universe u

variable {Node : Type u} {next : Node → Option Node} {head : Option Node} {nodes : List Node}

/-- From the head the links lead through exactly the nodes of a list. -/
def Chain (next : Node → Option Node) : Option Node → List Node → Prop
  | head, [] => head = none
  | head, node :: rest => head = some node ∧ Chain next (next node) rest

/-- From the head the links lead through exactly the nodes of a list, and then to a stop. -/
def Segment (next : Node → Option Node) : Option Node → List Node → Option Node → Prop
  | head, [], stop => head = stop
  | head, node :: rest, stop => head = some node ∧ Segment next (next node) rest stop

theorem segment_none : Segment next head nodes none ↔ Chain next head nodes := by
  induction nodes generalizing head with
  | nil => exact Iff.rfl
  | cons node rest ih => exact and_congr_right fun _ => ih

theorem segment_append {front back : List Node} {stop : Option Node} :
    Segment next head (front ++ back) stop ↔
      ∃ middle, Segment next head front middle ∧ Segment next middle back stop := by
  induction front generalizing head with
  | nil => exact ⟨fun segment => ⟨head, rfl, segment⟩, fun ⟨_, same, segment⟩ => same ▸ segment⟩
  | cons node front ih =>
    constructor
    · rintro ⟨same, segment⟩
      obtain ⟨middle, first, second⟩ := ih.1 segment
      exact ⟨middle, ⟨same, first⟩, second⟩
    · rintro ⟨middle, ⟨same, first⟩, second⟩
      exact ⟨same, ih.2 ⟨middle, first, second⟩⟩

theorem chain_none (chain : Chain next none nodes) : nodes = [] := by
  cases nodes with
  | nil => rfl
  | cons node rest => exact absurd chain.1 (by simp)

theorem chain_some {node : Node} (chain : Chain next (some node) nodes) :
    ∃ rest, nodes = node :: rest ∧ Chain next (next node) rest := by
  cases nodes with
  | nil => exact absurd chain (by simp [Chain])
  | cons first rest =>
    obtain ⟨same, more⟩ := chain
    obtain rfl := Option.some.inj same
    exact ⟨rest, rfl, more⟩

variable (chain : Chain next head nodes)
include chain

theorem Chain.unique {others : List Node} (also : Chain next head others) : nodes = others := by
  induction nodes generalizing head others with
  | nil =>
    obtain rfl : head = none := chain
    exact (chain_none also).symm
  | cons node rest ih =>
    obtain ⟨rfl, more⟩ := chain
    obtain ⟨rest', rfl, also'⟩ := chain_some also
    rw [ih more also']

theorem Chain.nodup : nodes.Nodup := by
  induction nodes generalizing head with
  | nil => exact nodup_nil
  | cons node rest ih =>
    refine nodup_cons.2 ⟨fun again => ?_, ih chain.2⟩
    obtain ⟨front, back, rfl⟩ := append_of_mem again
    obtain ⟨middle, -, behind⟩ := segment_append.1 (segment_none.2 chain.2)
    obtain ⟨rfl, more⟩ := behind
    have same := Chain.unique chain.2 (segment_none.1 more)
    have lengths := congrArg List.length same
    simp at lengths
    omega

theorem Chain.frame {other : Node → Option Node}
    (same : ∀ node ∈ nodes, other node = next node) : Chain other head nodes := by
  induction nodes generalizing head with
  | nil => exact chain
  | cons first rest ih =>
    refine ⟨chain.1, ?_⟩
    rw [same first mem_cons_self]
    exact ih chain.2 fun node listed => same node (mem_cons_of_mem _ listed)

variable [DecidableEq Node]

theorem Chain.update {node : Node} (outside : node ∉ nodes)
    (link : Option Node) : Chain (Function.update next node link) head nodes := by
  induction nodes generalizing head with
  | nil => exact chain
  | cons first rest ih =>
    rw [mem_cons, not_or] at outside
    refine ⟨chain.1, ?_⟩
    rw [update_of_ne (Ne.symm outside.1)]
    exact ih chain.2 outside.2

omit chain

theorem Segment.update {node : Node} {stop : Option Node} (segment : Segment next head nodes stop)
    (outside : node ∉ nodes) (link : Option Node) :
    Segment (Function.update next node link) head nodes stop := by
  induction nodes generalizing head with
  | nil => exact segment
  | cons first rest ih =>
    rw [mem_cons, not_or] at outside
    refine ⟨segment.1, ?_⟩
    rw [update_of_ne (Ne.symm outside.1)]
    exact ih segment.2 outside.2

theorem Segment.sever {front : List Node} {last : Node} {stop : Option Node}
    (segment : Segment next head (front ++ [last]) stop) (outside : last ∉ front) :
    Chain (Function.update next last none) head (front ++ [last]) := by
  obtain ⟨middle, first, second⟩ := segment_append.1 segment
  rw [← segment_none]
  refine segment_append.2 ⟨middle, first.update outside none, second.1, ?_⟩
  exact update_self ..

include chain

theorem Chain.push {node : Node} (outside : node ∉ nodes) :
    Chain (Function.update next node head) (some node) (node :: nodes) := by
  refine ⟨rfl, ?_⟩
  rw [update_self]
  exact chain.update outside head

end LinkedChain
