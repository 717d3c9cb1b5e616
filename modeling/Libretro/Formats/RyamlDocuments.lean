import Libretro.Formats.Ryaml
import Mathlib.Data.List.Chain

/-! Block documents: trees, how they are written, and what the reader finds on their lines. -/

namespace Libretro.Ryaml

open List Option

/-- The bytes that say at a scalar's start that it is not a plain one. -/
def indicators : List UInt8 := [0x22, 0x23, 0x27, 0x3E, 0x5B, 0x7B, 0x7C]

/-- Text on one line that stands for itself without quotes, as a key and as a scalar. -/
structure PlainSafe (text : List UInt8) : Prop where
  filled : text ≠ []
  line : ∀ c ∈ text, isBreak c = false
  first : ∀ c, text.head? = some c → isSpace c = false ∧ c ∉ indicators
  dash : isSeqItem text = false
  last : ∀ c, text.getLast? = some c → isSpace c = false ∧ c ≠ 0x3A
  pairs : text.IsChain fun c d => ¬(c = 0x3A ∧ isSpace d) ∧ ¬(isSpace c ∧ d = 0x23)
  unmarked : ¬[0xEF, 0xBB, 0xBF] <+: text

/-- A plain text. -/
structure Text where
  bytes : List UInt8
  safe : PlainSafe bytes

/-- What a block stands under. -/
inductive Under
  | key
  | dash
deriving DecidableEq

mutual

/-- A tree as it is written: a collection starts some columns deeper than what it stands under, a
sequence perhaps at its key's own indentation, a mapping perhaps on its dash's own line. -/
inductive Block : Under → Type
  | scalar {under : Under} (text : Text) : Block under
  | map {under : Under} (step : Nat) (entries : Entries) : Block under
  | seq {under : Under} (step : Nat) (items : Items) : Block under
  | level (items : Items) : Block .key
  | compact (entries : Entries) : Block .dash

/-- The entries of a mapping. -/
inductive Entries : Type
  | last (key : Text) (value : Block .key) : Entries
  | more (key : Text) (value : Block .key) (rest : Entries) : Entries

/-- The items of a sequence. -/
inductive Items : Type
  | last (item : Block .dash) : Items
  | more (item : Block .dash) (rest : Items) : Items

end

/-- A whole document. -/
inductive Document : Type
  | scalar (text : Text)
  | map (entries : Entries)
  | seq (items : Items)

/-- Some columns of indentation. -/
def spaces (column : Nat) : List UInt8 := List.replicate column 0x20

mutual

/-- The lines of a block behind the key or dash at some column that its first line leads with. -/
def Block.lines {under : Under} (column : Nat) (lead : List UInt8) : Block under → List (List UInt8)
  | .scalar text => [lead ++ 0x20 :: text.bytes]
  | .map step entries => lead :: entries.lines (column + 1 + step) (spaces (column + 1 + step))
  | .seq step items => lead :: items.lines (column + 1 + step)
  | .level items => lead :: items.lines column
  | .compact entries => entries.lines (column + 2) (lead ++ [0x20])

/-- The lines of a mapping at some column, behind what its first line leads with. -/
def Entries.lines (column : Nat) (lead : List UInt8) : Entries → List (List UInt8)
  | .last key value => value.lines column (lead ++ key.bytes ++ [0x3A])
  | .more key value rest =>
    value.lines column (lead ++ key.bytes ++ [0x3A]) ++ rest.lines column (spaces column)

/-- The lines of a sequence at some column. -/
def Items.lines (column : Nat) : Items → List (List UInt8)
  | .last item => item.lines column (spaces column ++ [0x2D])
  | .more item rest => item.lines column (spaces column ++ [0x2D]) ++ rest.lines column

end

/-- The lines of a document. -/
def Document.lines : Document → List (List UInt8)
  | .scalar text => [text.bytes]
  | .map entries => entries.lines 0 (spaces 0)
  | .seq items => items.lines 0

/-- The text of a document. -/
def Document.text (document : Document) : List UInt8 := document.lines.flatMap fun line => line ++ [0x0A]

/-- How many entries a mapping has. -/
def Entries.length : Entries → Nat
  | .last _ _ => 1
  | .more _ _ rest => rest.length + 1

/-- How many items a sequence has. -/
def Items.length : Items → Nat
  | .last _ => 1
  | .more _ rest => rest.length + 1

mutual

/-- The node at some place shows a block, whatever its layout. -/
def Block.Shown {under : Under} (nodes : List Node) (place : Nat) : Block under → Prop
  | .scalar text => ∃ n, nodes[place]? = some n ∧ n.type = .scalar ∧ n.val = some text.bytes ∧
      n.firstChild = none ∧ n.numChildren = 0
  | .map _ entries => ∃ n, nodes[place]? = some n ∧ n.type = .map ∧
      n.numChildren = entries.length ∧ entries.Shown nodes place n.firstChild
  | .compact entries => ∃ n, nodes[place]? = some n ∧ n.type = .map ∧
      n.numChildren = entries.length ∧ entries.Shown nodes place n.firstChild
  | .seq _ items => ∃ n, nodes[place]? = some n ∧ n.type = .seq ∧
      n.numChildren = items.length ∧ items.Shown nodes place n.firstChild
  | .level items => ∃ n, nodes[place]? = some n ∧ n.type = .seq ∧
      n.numChildren = items.length ∧ items.Shown nodes place n.firstChild

/-- The nodes from some child of a parent on show the entries of a mapping, in their order. -/
def Entries.Shown (nodes : List Node) (parent : Nat) (child : Option Nat) : Entries → Prop
  | .last key value => ∃ place n, child = some place ∧ nodes[place]? = some n ∧
      n.parent = some parent ∧ n.key = some key.bytes ∧ value.Shown nodes place ∧
      n.nextSibling = none
  | .more key value rest => ∃ place n, child = some place ∧ nodes[place]? = some n ∧
      n.parent = some parent ∧ n.key = some key.bytes ∧ value.Shown nodes place ∧
      rest.Shown nodes parent n.nextSibling

/-- The nodes from some child of a parent on show the items of a sequence, in their order. -/
def Items.Shown (nodes : List Node) (parent : Nat) (child : Option Nat) : Items → Prop
  | .last item => ∃ place n, child = some place ∧ nodes[place]? = some n ∧
      n.parent = some parent ∧ n.key = none ∧ item.Shown nodes place ∧ n.nextSibling = none
  | .more item rest => ∃ place n, child = some place ∧ nodes[place]? = some n ∧
      n.parent = some parent ∧ n.key = none ∧ item.Shown nodes place ∧
      rest.Shown nodes parent n.nextSibling

end

/-- The first node shows a document. -/
def Document.Shown (nodes : List Node) : Document → Prop
  | .scalar text => (Block.scalar text : Block .dash).Shown nodes 0
  | .map entries => (Block.map 0 entries : Block .dash).Shown nodes 0
  | .seq items => (Block.seq 0 items : Block .dash).Shown nodes 0

/-- A document is read back: the root stands alone, and its tree is the document's. -/
def Document.ReadBack (document : Document) : Prop :=
  ∃ tree root, ryamlParse document.text = some tree ∧ tree.nodes[0]? = some root ∧
    root.key = none ∧ root.parent = none ∧ root.nextSibling = none ∧ document.Shown tree.nodes

/-- Whether a block is a sequence at its key's own indentation. -/
def Block.isLevel {under : Under} : Block under → Bool
  | .level _ => true
  | _ => false

mutual

/-- No sequence at its key's own indentation has another key of the mapping behind it. -/
def Block.Clear {under : Under} : Block under → Prop
  | .scalar _ => True
  | .map _ entries => entries.Clear
  | .seq _ items => items.Clear
  | .level items => items.Clear
  | .compact entries => entries.Clear

/-- No entry but the last is a sequence at its key's own indentation, and so below. -/
def Entries.Clear : Entries → Prop
  | .last _ value => value.Clear
  | .more _ value rest => value.isLevel = false ∧ value.Clear ∧ rest.Clear

/-- So it is in every item. -/
def Items.Clear : Items → Prop
  | .last item => item.Clear
  | .more item rest => item.Clear ∧ rest.Clear

end

/-- A document is a collection, and no sequence at its key's own indentation has another key of the
mapping behind it. -/
def Document.Readable : Document → Prop
  | .scalar _ => False
  | .map entries => entries.Clear
  | .seq items => items.Clear

variable {nodes nodes' later : List Node} {place parent i : Nat}

/-- The last child of a node. -/
def lastOf (nodes : List Node) (parent : Nat) : Option Nat := (nodes[parent]?).bind Node.lastChild

/-- What a new child changes in its parent. -/
def Node.adopt (child : Nat) (n : Node) : Node :=
  { n with
    firstChild := if n.lastChild = none then some child else n.firstChild
    lastChild := some child
    numChildren := n.numChildren + 1 }

/-- What a new sibling changes in the one before. -/
def Node.followedBy (next : Option Nat) (n : Node) : Node := { n with nextSibling := next }

/-- A parent that is there, and its last child as well, and is another node. -/
structure Ready (nodes : List Node) (parent : Nat) : Prop where
  inside : parent < nodes.length
  last : ∀ last, lastOf nodes parent = some last → last < nodes.length ∧ last ≠ parent

theorem newNode_length (type : NodeType) :
    (ryamlNodeNew nodes (some parent) type).length = nodes.length + 1 := by
  rw [ryamlNodeNew]
  split <;> simp

theorem newNode_fresh (ready : Ready nodes parent) (type : NodeType) :
    (ryamlNodeNew nodes (some parent) type)[nodes.length]? = some (.fresh (some parent) type) := by
  have inside := ready.inside
  have grown : (nodes ++ [Node.fresh (some parent) type])[parent]? = nodes[parent]? :=
    getElem?_append_left inside
  rw [ryamlNodeNew]
  rw [getElem?_modify_ne _ _ (by omega), grown]
  split
  · rename_i last found
    have before := (ready.last last found).1
    rw [getElem?_modify_ne _ _ (by omega)]
    simp
  · rw [getElem?_modify_ne _ _ (by omega)]
    simp

theorem newNode_parent (ready : Ready nodes parent) (type : NodeType) :
    (ryamlNodeNew nodes (some parent) type)[parent]? = (nodes[parent]?).map (Node.adopt nodes.length) := by
  have inside := ready.inside
  have grown : (nodes ++ [Node.fresh (some parent) type])[parent]? = nodes[parent]? :=
    getElem?_append_left inside
  obtain ⟨n, found⟩ : ∃ n, nodes[parent]? = some n := ⟨_, getElem?_eq_getElem inside⟩
  rw [ryamlNodeNew]
  rw [getElem?_modify_eq, grown, found, bind_some]
  split
  · rename_i last isLast
    have apart := (ready.last last (by rw [lastOf, found]; exact isLast)).2
    rw [getElem?_modify_ne _ _ apart, grown, found]
    simp [Node.adopt, isLast]
  · rename_i childless
    rw [getElem?_modify_eq, grown, found]
    simp [Node.adopt, childless]

theorem newNode_last (ready : Ready nodes parent) (type : NodeType) {last : Nat}
    (isLast : lastOf nodes parent = some last) :
    (ryamlNodeNew nodes (some parent) type)[last]? =
      (nodes[last]?).map (Node.followedBy (some nodes.length)) := by
  obtain ⟨before, apart⟩ := ready.last last isLast
  have grown : (nodes ++ [Node.fresh (some parent) type])[parent]? = nodes[parent]? :=
    getElem?_append_left ready.inside
  rw [ryamlNodeNew]
  rw [getElem?_modify_ne _ _ (Ne.symm apart), grown, show (nodes[parent]?).bind Node.lastChild = some last from isLast]
  dsimp only
  rw [getElem?_modify_eq, getElem?_append_left before]
  rfl

theorem newNode_other (ready : Ready nodes parent) (type : NodeType) (before : i < nodes.length)
    (apart : i ≠ parent) (notLast : lastOf nodes parent ≠ some i) :
    (ryamlNodeNew nodes (some parent) type)[i]? = nodes[i]? := by
  have grown : (nodes ++ [Node.fresh (some parent) type])[parent]? = nodes[parent]? :=
    getElem?_append_left ready.inside
  rw [ryamlNodeNew]
  rw [getElem?_modify_ne _ _ (Ne.symm apart), grown]
  split
  · rename_i last isLast
    have other : i ≠ last := fun same => notLast (by rw [same]; exact isLast)
    rw [getElem?_modify_ne _ _ (Ne.symm other), getElem?_append_left before]
  · rw [getElem?_modify_ne _ _ (Ne.symm apart), getElem?_append_left before]

/-- A parent with one child more, which has a key under a mapping. -/
def newChild (nodes : List Node) (parent : Nat) : Option (List UInt8) → List Node
  | none => ryamlNodeNew nodes (some parent) .scalar
  | some key =>
    setNode (ryamlNodeNew nodes (some parent) .scalar) nodes.length fun n =>
      { n with key := some key }

variable {key : Option (List UInt8)}

theorem newChild_length : (newChild nodes parent key).length = nodes.length + 1 := by
  cases key with
  | none => exact newNode_length .scalar
  | some key => rw [newChild, length_modify, newNode_length]

theorem newChild_fresh (ready : Ready nodes parent) : (newChild nodes parent key)[nodes.length]? =
      some { Node.fresh (some parent) .scalar with key := key } := by
  cases key with
  | none => exact newNode_fresh ready .scalar
  | some key =>
    rw [newChild, getElem?_modify_eq, newNode_fresh ready]
    rfl

theorem newChild_before (before : i < nodes.length) :
    (newChild nodes parent key)[i]? = (ryamlNodeNew nodes (some parent) .scalar)[i]? := by
  cases key with
  | none => rfl
  | some key => rw [newChild, getElem?_modify_ne _ _ (by omega)]

/-- A node is filled: nodes are added behind, it keeps its place among the others, and whatever
is added later, it shows what it was filled with. -/
structure Fills (nodes nodes' : List Node) (place : Nat) (shows : List Node → Prop) : Prop where
  longer : nodes.length ≤ nodes'.length
  kept : ∀ i, i < nodes.length → i ≠ place → nodes'[i]? = nodes[i]?
  placed : ∃ n n', nodes[place]? = some n ∧ nodes'[place]? = some n' ∧ n'.key = n.key ∧
    n'.parent = n.parent ∧ n'.nextSibling = n.nextSibling
  shown : ∀ later : List Node, (∀ i, nodes.length ≤ i → i < nodes'.length → later[i]? = nodes'[i]?) →
    (∃ next, later[place]? = (nodes'[place]?).map (Node.followedBy next)) → shows later

/-- A parent has some children more: nodes are added behind, the others keep what they show, and
whatever is added later, the first of the children leads to all of them. -/
structure Adopts (nodes nodes' : List Node) (parent count : Nat)
    (shows : List Node → Option Nat → Prop) : Prop where
  longer : nodes.length < nodes'.length
  kept : ∀ i, i < nodes.length → i ≠ parent → lastOf nodes parent ≠ some i → nodes'[i]? = nodes[i]?
  linked : ∀ last, lastOf nodes parent = some last →
    nodes'[last]? = (nodes[last]?).map (Node.followedBy (some nodes.length))
  adopted : ∃ n last, nodes[parent]? = some n ∧ nodes.length ≤ last ∧ last < nodes'.length ∧
    nodes'[parent]? = some { n with
      firstChild := if n.lastChild = none then some nodes.length else n.firstChild
      lastChild := some last
      numChildren := n.numChildren + count }
  shown : ∀ later : List Node, (∀ i, nodes.length ≤ i → i < nodes'.length → later[i]? = nodes'[i]?) →
    shows later (some nodes.length)

/-- What a child shows, and what it leads to. -/
def ShowsChild (parent : Nat) (key : Option (List UInt8)) (value : List Node → Nat → Prop)
    (next : List Node → Option Nat → Prop) (nodes : List Node) (child : Option Nat) : Prop :=
  ∃ place n, child = some place ∧ nodes[place]? = some n ∧ n.parent = some parent ∧ n.key = key ∧
    value nodes place ∧ next nodes n.nextSibling

variable {value : List Node → Nat → Prop} {next : List Node → Option Nat → Prop} {count : Nat}

theorem filled_before
    (fills : Fills (newChild nodes parent key) nodes' nodes.length fun later => value later nodes.length)
    (before : i < nodes.length) :
    nodes'[i]? = (ryamlNodeNew nodes (some parent) .scalar)[i]? := by
  rw [fills.kept i (by rw [newChild_length]; omega) (by omega), newChild_before before]

theorem filled_child (ready : Ready nodes parent)
    (fills : Fills (newChild nodes parent key) nodes' nodes.length fun later => value later nodes.length) :
    ∃ n, nodes'[nodes.length]? = some n ∧ n.parent = some parent ∧ n.key = key ∧ n.nextSibling = none := by
  obtain ⟨n, n', old, new, sameKey, sameParent, sameNext⟩ := fills.placed
  rw [newChild_fresh ready] at old
  cases old
  exact ⟨n', new, sameParent, sameKey, sameNext⟩

theorem filled_ready (value : List Node → Nat → Prop) (ready : Ready nodes parent)
    (fills : Fills (newChild nodes parent key) nodes' nodes.length fun later => value later nodes.length) :
    Ready nodes' parent ∧ lastOf nodes' parent = some nodes.length := by
  have inside := ready.inside
  have longer := fills.longer
  rw [newChild_length] at longer
  have last : lastOf nodes' parent = some nodes.length := by
    rw [lastOf, filled_before fills inside, newNode_parent ready, getElem?_eq_getElem inside]
    rfl
  refine ⟨⟨by omega, fun other isLast => ?_⟩, last⟩
  obtain rfl : nodes.length = other := some.inj (last.symm.trans isLast)
  omega

theorem adopts_one (value : List Node → Nat → Prop) (ready : Ready nodes parent)
    (fills : Fills (newChild nodes parent key) nodes' nodes.length fun later => value later nodes.length) :
    Adopts nodes nodes' parent 1 (ShowsChild parent key value fun _ child => child = none) := by
  have longer := fills.longer
  rw [newChild_length] at longer
  have inside := ready.inside
  refine ⟨by omega, ?_, ?_, ?_, ?_⟩
  · intro i before apart notLast
    rw [filled_before fills before, newNode_other ready _ before apart notLast]
  · intro last isLast
    rw [filled_before fills (ready.last last isLast).1, newNode_last ready _ isLast]
  · refine ⟨nodes[parent], nodes.length, getElem?_eq_getElem inside, Nat.le_refl _, by omega, ?_⟩
    rw [filled_before fills inside, newNode_parent ready, getElem?_eq_getElem inside]
    rfl
  · intro later same
    obtain ⟨n, new, sameParent, sameKey, alone⟩ := filled_child ready fills
    have here := same nodes.length (Nat.le_refl _) (by omega)
    refine ⟨nodes.length, n, rfl, here.trans new, sameParent, sameKey, ?_, alone⟩
    -- What the child shows lies behind it.
    refine fills.shown later (fun i behind within => same i ?_ within) ⟨none, ?_⟩
    · rw [newChild_length] at behind
      omega
    · rw [here, new, map_some, ← alone]
      rfl

theorem adopts_more {nodes₁ : List Node} (value : List Node → Nat → Prop) (ready : Ready nodes parent)
    (fills : Fills (newChild nodes parent key) nodes₁ nodes.length fun later => value later nodes.length)
    (rest : Adopts nodes₁ nodes' parent count next) :
    Adopts nodes nodes' parent (count + 1) (ShowsChild parent key value next) := by
  have longer := fills.longer
  rw [newChild_length] at longer
  have inside := ready.inside
  have further := rest.longer
  obtain ⟨readyAfter, last⟩ := filled_ready value ready fills
  -- The children after it change its parent and link it to the next one.
  have kept (i : Nat) (before : i < nodes₁.length) (apart : i ≠ parent) (other : i ≠ nodes.length) :
      nodes'[i]? = nodes₁[i]? := by
    refine rest.kept i before apart ?_
    rw [last]
    exact fun same => other (some.inj same).symm
  refine ⟨by omega, ?_, ?_, ?_, ?_⟩
  · intro i before apart notLast
    rw [kept i (by omega) apart (by omega), filled_before fills before,
      newNode_other ready _ before apart notLast]
  · intro sibling isLast
    obtain ⟨before, apart⟩ := ready.last sibling isLast
    rw [kept sibling (by omega) apart (by omega), filled_before fills before,
      newNode_last ready _ isLast]
  · obtain ⟨n, youngest, old, behind, within, new⟩ := rest.adopted
    rw [filled_before fills inside, newNode_parent ready, getElem?_eq_getElem inside] at old
    obtain rfl := some.inj old
    refine ⟨nodes[parent], youngest, getElem?_eq_getElem inside, by omega, within, ?_⟩
    rw [new]
    simp [Node.adopt, Nat.add_assoc, Nat.add_comm 1 count]
  · intro later same
    obtain ⟨n, new, sameParent, sameKey, _⟩ := filled_child ready fills
    have here := same nodes.length (Nat.le_refl _) (by omega)
    rw [rest.linked _ last, new] at here
    refine ⟨nodes.length, _, rfl, here, sameParent, sameKey, ?_, ?_⟩
    · refine fills.shown later (fun i behind within => ?_) ⟨some nodes₁.length, ?_⟩
      · rw [newChild_length] at behind
        rw [same i (by omega) (by omega), kept i within (by omega) (by omega)]
      · rw [here, new]
    · exact rest.shown later fun i behind within => same i (by omega) within

mutual

/-- The nodes after a block is put at some place among them. -/
def Block.build {under : Under} (place : Nat) (nodes : List Node) : Block under → List Node
  | .scalar text => setNode nodes place fun n => { n with val := some text.bytes, type := .scalar }
  | .map _ entries => entries.build place (setNode nodes place fun n => { n with type := .map })
  | .seq _ items => items.build place (setNode nodes place fun n => { n with type := .seq })
  | .level items => items.build place (setNode nodes place fun n => { n with type := .seq })
  | .compact entries => entries.build place (setNode nodes place fun n => { n with type := .map })

/-- The nodes after the entries of a mapping are put under it. -/
def Entries.build (parent : Nat) (nodes : List Node) : Entries → List Node
  | .last key value => value.build nodes.length (newChild nodes parent (some key.bytes))
  | .more key value rest =>
    rest.build parent (value.build nodes.length (newChild nodes parent (some key.bytes)))

/-- The nodes after the items of a sequence are put under it. -/
def Items.build (parent : Nat) (nodes : List Node) : Items → List Node
  | .last item => item.build nodes.length (newChild nodes parent none)
  | .more item rest => rest.build parent (item.build nodes.length (newChild nodes parent none))

end

/-- A node that has no children yet. -/
def Bare (nodes : List Node) (place : Nat) : Prop :=
  ∃ n, nodes[place]? = some n ∧ n.firstChild = none ∧ n.lastChild = none ∧ n.numChildren = 0

theorem newChild_bare (ready : Ready nodes parent) : Bare (newChild nodes parent key) nodes.length :=
  ⟨_, newChild_fresh ready, rfl, rfl, rfl⟩

theorem Bare.ready (bare : Bare nodes place) (type : NodeType) :
    Ready (setNode nodes place fun n => { n with type := type }) place := by
  obtain ⟨n, found, _, childless, _⟩ := bare
  have inside := (List.getElem?_eq_some_iff.1 found).1
  refine ⟨by rwa [length_modify], fun last isLast => ?_⟩
  rw [lastOf, getElem?_modify_eq, found] at isLast
  exact absurd (childless.symm.trans isLast) nofun

theorem Bare.fills_scalar (bare : Bare nodes place) (text : Text) {under : Under} :
    Fills nodes ((Block.scalar text : Block under).build place nodes) place fun later =>
      (Block.scalar text : Block under).Shown later place := by
  obtain ⟨n, found, first, _, none⟩ := bare
  have new : ((Block.scalar text : Block under).build place nodes)[place]? =
      some { n with val := some text.bytes, type := .scalar } := by
    rw [Block.build, getElem?_modify_eq, found]
    rfl
  refine ⟨Nat.le_of_eq (length_modify ..).symm, fun i _ apart => ?_, ?_, ?_⟩
  · rw [Block.build, getElem?_modify_ne _ _ (Ne.symm apart)]
  · exact ⟨n, _, found, new, rfl, rfl, rfl⟩
  · rintro later _ ⟨next, here⟩
    rw [new] at here
    exact ⟨_, here, rfl, rfl, first, none⟩

theorem Bare.fills_collection (bare : Bare nodes place) {type : NodeType}
    (adopts : Adopts (setNode nodes place fun n => { n with type := type }) nodes' place count next) :
    Fills nodes nodes' place fun later => ∃ n, later[place]? = some n ∧ n.type = type ∧
      n.numChildren = count ∧ next later n.firstChild := by
  obtain ⟨n, found, first, childless, none⟩ := bare
  have typed : (setNode nodes place fun n => { n with type := type })[place]? =
      some { n with type := type } := by
    rw [getElem?_modify_eq, found]
    rfl
  have noLast : lastOf (setNode nodes place fun n => { n with type := type }) place = Option.none := by
    rw [lastOf, typed]
    exact childless
  obtain ⟨m, last, old, _, _, new⟩ := adopts.adopted
  obtain rfl := some.inj (typed.symm.trans old)
  have longer := adopts.longer
  have shown := adopts.shown
  rw [length_modify] at longer shown new
  refine ⟨Nat.le_of_lt longer, fun i before apart => ?_, ?_, ?_⟩
  · have same := adopts.kept i (by rwa [length_modify]) apart (by rw [noLast]; nofun)
    rw [same, getElem?_modify_ne _ _ (Ne.symm apart)]
  · exact ⟨n, _, found, new, rfl, rfl, rfl⟩
  · rintro later same ⟨sibling, here⟩
    rw [new] at here
    refine ⟨_, here, rfl, ?_, ?_⟩
    · show n.numChildren + count = count
      omega
    · show next later (if n.lastChild = Option.none then some nodes.length else n.firstChild)
      rw [if_pos childless]
      exact shown later same

mutual

theorem Block.build_fills {under : Under} {place : Nat} {nodes : List Node} :
    ∀ block : Block under, Bare nodes place →
      Fills nodes (block.build place nodes) place fun later => block.Shown later place
  | .scalar text, bare => bare.fills_scalar text
  | .map _ entries, bare => bare.fills_collection (entries.build_adopts (bare.ready .map))
  | .seq _ items, bare => bare.fills_collection (items.build_adopts (bare.ready .seq))
  | .level items, bare => bare.fills_collection (items.build_adopts (bare.ready .seq))
  | .compact entries, bare => bare.fills_collection (entries.build_adopts (bare.ready .map))

theorem Entries.build_adopts {parent : Nat} {nodes : List Node} : ∀ entries : Entries, Ready nodes parent →
      Adopts nodes (entries.build parent nodes) parent entries.length fun later child =>
        entries.Shown later parent child
  | .last _ value, ready =>
    adopts_one (fun later place => value.Shown later place) ready (value.build_fills (newChild_bare ready))
  | .more _ value rest, ready =>
    have fills := value.build_fills (newChild_bare ready)
    adopts_more (fun later place => value.Shown later place) ready fills
      (rest.build_adopts (filled_ready (fun later place => value.Shown later place) ready fills).1)

theorem Items.build_adopts {parent : Nat} {nodes : List Node} : ∀ items : Items, Ready nodes parent →
      Adopts nodes (items.build parent nodes) parent items.length fun later child =>
        items.Shown later parent child
  | .last item, ready =>
    adopts_one (fun later place => item.Shown later place) ready (item.build_fills (newChild_bare ready))
  | .more item rest, ready =>
    have fills := item.build_fills (newChild_bare ready)
    adopts_more (fun later place => item.Shown later place) ready fills
      (rest.build_adopts (filled_ready (fun later place => item.Shown later place) ready fills).1)

end

/-- A byte that a plain text can start with. -/
def Starts (c : UInt8) : Prop := isSpace c = false ∧ isBreak c = false ∧ c ∉ indicators

theorem Text.start (text : Text) : ∃ c rest, text.bytes = c :: rest ∧ Starts c := by
  obtain ⟨c, rest, cut⟩ : ∃ c rest, text.bytes = c :: rest := exists_cons_of_ne_nil text.safe.filled
  obtain ⟨notSpace, notIndicator⟩ := text.safe.first c (by rw [cut]; rfl)
  have notBreak := text.safe.line c (by rw [cut]; exact mem_cons_self)
  exact ⟨c, rest, cut, notSpace, notBreak, notIndicator⟩

variable {c : UInt8}

theorem Starts.ne (starts : Starts c) : c ≠ 0x20 ∧ c ≠ 0x09 ∧ c ≠ 0x0D ∧ c ≠ 0x23 ∧ c ≠ 0x7C ∧
    c ≠ 0x3E ∧ opensFlow c = false ∧ isQuote c = false := by
  obtain ⟨notSpace, notBreak, notIndicator⟩ := starts
  simp only [isSpace, isBreak, indicators, opensFlow, isQuote, Bool.or_eq_false_iff,
    beq_eq_false_iff_ne, mem_cons, not_mem_nil, not_or] at *
  tauto

theorem commentless_eq : ∀ {text : List UInt8},
    text.IsChain (fun c d => ¬(isSpace c ∧ d = 0x23)) → commentless text = text
  | [], _ => rfl
  | [_], _ => rfl
  | c :: d :: rest, pairs => by
    obtain ⟨first, pairs⟩ := isChain_cons_cons.1 pairs
    rw [commentless, if_neg (by simpa using first), commentless_eq pairs]

theorem colonAt_none : ∀ {text : List UInt8} (n place : Nat),
    text.IsChain (fun c d => ¬(c = 0x3A ∧ isSpace d)) → (∀ c ∈ text, isBreak c = false) →
      (∀ c, text.getLast? = some c → c ≠ 0x3A) → colonAt n text place = none
  | _, 0, _, _, _, _ => by rw [colonAt]
  | [], n + 1, _, _, _, _ => by rw [colonAt]; simp
  | [c], n + 1, place, _, _, last => by
    have apart := last c rfl
    rw [colonAt, if_neg fun colon => apart colon.1]
    cases n <;> rfl
  | c :: d :: rest, n + 1, place, pairs, line, last => by
    obtain ⟨first, pairs⟩ := isChain_cons_cons.1 pairs
    have notBreak := line d (by simp)
    have passes : ¬(c = 0x3A ∧ spaceOrEnd (d :: rest) = true) := by
      simp only [spaceOrEnd, Bool.or_eq_true, beq_iff_eq]
      rintro ⟨colon, space | back⟩
      · exact first ⟨colon, space⟩
      · rw [back] at notBreak
        exact absurd notBreak (by decide)
    rw [colonAt, if_neg passes]
    exact colonAt_none n (place + 1) pairs (fun c listed => line c (mem_cons_of_mem _ listed))
      fun c isLast => last c (by rwa [getLast?_cons_cons])

theorem colonAt_key : ∀ {key : List UInt8} {tail : List UInt8} (n place : Nat),
    key.length < n → spaceOrEnd tail = true →
    key.IsChain (fun c d => ¬(c = 0x3A ∧ isSpace d)) → (∀ c ∈ key, isBreak c = false) →
      (∀ c, key.getLast? = some c → c ≠ 0x3A) →
        colonAt n (key ++ 0x3A :: tail) place = some (place + key.length)
  | [], tail, n + 1, place, _, ends, _, _, _ => by
    rw [nil_append, colonAt, if_pos ⟨rfl, ends⟩]
    rfl
  | [c], tail, n + 1, place, room, ends, _, _, last => by
    have apart := last c rfl
    obtain ⟨n, rfl⟩ : ∃ m, n = m + 1 := ⟨n - 1, by simp at room; omega⟩
    rw [singleton_append, colonAt, if_neg fun colon => apart colon.1, colonAt, if_pos ⟨rfl, ends⟩]
    rfl
  | c :: d :: rest, tail, n + 1, place, room, ends, pairs, line, last => by
    obtain ⟨first, pairs⟩ := isChain_cons_cons.1 pairs
    have notBreak := line d (by simp)
    have passes : ¬(c = 0x3A ∧ spaceOrEnd (d :: rest ++ 0x3A :: tail) = true) := by
      simp only [cons_append, spaceOrEnd, Bool.or_eq_true, beq_iff_eq]
      rintro ⟨colon, space | back⟩
      · exact first ⟨colon, space⟩
      · rw [back] at notBreak
        exact absurd notBreak (by decide)
    have further := @colonAt_key (d :: rest) tail n (place + 1)
      (by simp only [length_cons] at room ⊢; omega) ends pairs
      (fun c listed => line c (mem_cons_of_mem _ listed))
      fun c isLast => last c (by rwa [getLast?_cons_cons])
    rw [cons_append, colonAt, if_neg passes, further]
    simp only [length_cons]
    congr 1
    omega

theorem Text.extent (text : Text) : ryamlPlainExtent text.bytes = text.bytes := by
  have pairs := text.safe.pairs.imp fun _ _ both => both.2
  rw [ryamlPlainExtent, commentless_eq pairs, rdropWhile_eq_self_iff]
  intro filled
  have last := (text.safe.last _ (getLast?_eq_some_getLast filled)).1
  simpa using last

theorem Text.withoutReturn (text : Text) : withoutReturn text.bytes = text.bytes := by
  refine if_neg fun isLast => ?_
  have notBreak := text.safe.line _ (mem_of_getLast? isLast)
  exact absurd notBreak (by decide)

theorem Text.findKeyColon (text : Text) : ryamlFindKeyColon text.bytes = none := by
  have none := colonAt_none text.bytes.length 0 (text.safe.pairs.imp fun _ _ both => both.1)
    text.safe.line fun c isLast => (text.safe.last c isLast).2
  have pairs := text.safe.pairs.imp fun _ _ both => both.2
  obtain ⟨c, rest, cut, starts⟩ := text.start
  obtain ⟨_, _, _, _, _, _, _, notQuote⟩ := starts.ne
  rw [cut] at none pairs ⊢
  rw [ryamlFindKeyColon, notQuote, commentless_eq pairs]
  exact none

/-- What stands behind a key or a dash on its line: nothing, or a space and a plain text. -/
def Tail (tail : List UInt8) : Prop := tail = [] ∨ ∃ text : Text, tail = 0x20 :: text.bytes

theorem Tail.ends {tail : List UInt8} (short : Tail tail) : spaceOrEnd tail = true := by
  obtain rfl | ⟨text, rfl⟩ := short <;> rfl

theorem Text.keyColon (key : Text) {tail : List UInt8} (short : Tail tail) :
    ryamlFindKeyColon (key.bytes ++ 0x3A :: tail) = some key.bytes.length := by
  have colon := @colonAt_key key.bytes tail (key.bytes ++ 0x3A :: tail).length 0
    (by simp only [length_append, length_cons]; omega) short.ends
    (key.safe.pairs.imp fun _ _ both => both.1) key.safe.line
    fun c isLast => (key.safe.last c isLast).2
  -- No comment starts in the key, nor at the colon, nor behind it.
  have behind : (0x3A :: tail).IsChain fun c d => ¬(isSpace c ∧ d = 0x23) := by
    obtain rfl | ⟨text, rfl⟩ := short
    · exact .singleton _
    · obtain ⟨c, rest, cut, starts⟩ := text.start
      have pairs := text.safe.pairs.imp fun _ _ both => both.2
      rw [cut] at pairs ⊢
      exact .cons_cons (by decide) (.cons_cons (fun both => starts.ne.2.2.2.1 both.2) pairs)
  have pairs : (key.bytes ++ 0x3A :: tail).IsChain fun c d => ¬(isSpace c ∧ d = 0x23) := by
    refine isChain_append.2 ⟨key.safe.pairs.imp fun _ _ both => both.2, behind, ?_⟩
    intro c _ d first
    cases some.inj first
    exact fun both => absurd both.2 (by decide)
  obtain ⟨c, rest, cut, starts⟩ := key.start
  obtain ⟨_, _, _, _, _, _, _, notQuote⟩ := starts.ne
  rw [Nat.zero_add] at colon
  rw [cut, cons_append] at colon pairs ⊢
  rw [ryamlFindKeyColon, notQuote, commentless_eq pairs]
  exact colon

theorem Text.notItem (key : Text) (tail : List UInt8) : isSeqItem (key.bytes ++ 0x3A :: tail) = false := by
  have dash := key.safe.dash
  obtain ⟨c, rest, cut, _⟩ := key.start
  rw [cut] at dash ⊢
  rw [cons_append, isSeqItem]
  cases rest with
  | nil =>
    rw [isSeqItem, show spaceOrEnd [] = true from rfl, Bool.and_true] at dash
    rw [dash, Bool.false_and]
  | cons d rest => exact dash

/-- The indentation of a line, and its content. -/
theorem indented (column : Nat) {content : List UInt8} (apart : content.head? ≠ some 0x20) :
    ryamlIndentOf (spaces column ++ content) = column ∧ contentOf (spaces column ++ content) = content := by
  have all : ∀ c ∈ spaces column, (c == 0x20) = true := by
    intro c listed
    rw [eq_of_mem_replicate listed]
    rfl
  have stops : content.takeWhile (· == 0x20) = [] ∧ content.dropWhile (· == 0x20) = content := by
    cases content with
    | nil => exact ⟨rfl, rfl⟩
    | cons c rest =>
      have other : (c == 0x20) = false := by
        rw [beq_eq_false_iff_ne]
        exact fun same => apart (by rw [same]; rfl)
      exact ⟨takeWhile_cons_of_neg (by simp [other]), dropWhile_cons_of_neg (by simp [other])⟩
  constructor
  · rw [ryamlIndentOf, takeWhile_append_of_pos all, stops.1, append_nil, spaces,
      length_replicate]
  · rw [contentOf, dropWhile_append_of_pos all, stops.2]

variable {nodes : List Node} {node indent : Nat} {lines : List (List UInt8)}

/-- The nodes with a plain text as one node's value. -/
def setScalar (nodes : List Node) (node : Nat) (text : Text) : List Node :=
  setNode nodes node fun n => { n with val := some text.bytes, type := .scalar }

theorem ryamlValue_text (text : Text) : ryamlValue nodes node indent (0x20 :: text.bytes) lines =
      some ⟨setScalar nodes node text, false, 0⟩ := by
  have extent := text.extent
  have returns := text.withoutReturn
  obtain ⟨c, rest, cut, starts⟩ := text.start
  obtain ⟨_, _, notReturn, notComment, notLiteral, notFolded, notFlow, notQuote⟩ := starts.ne
  have skipped : (0x20 :: text.bytes).dropWhile isSpace = c :: rest := by
    rw [dropWhile_cons_of_pos rfl, cut, dropWhile_cons_of_neg (by simp [starts.1])]
  rw [cut] at extent returns
  rw [ryamlValue, skipped]
  dsimp only
  rw [if_neg (by simp [notReturn, notComment]), if_neg (by simp [notLiteral, notFolded]), notFlow,
    notQuote, extent, returns, ← cut]
  rfl

theorem ryamlValue_nil : ryamlValue nodes node indent [] lines = some ⟨nodes, true, 0⟩ := rfl

theorem ryamlValue_item (text : Text) :
    ryamlValue nodes node indent text.bytes lines = some ⟨setScalar nodes node text, false, 0⟩ := by
  obtain ⟨c, rest, cut, starts⟩ := text.start
  have same := @ryamlValue_text nodes node indent lines text
  have skipped : (0x20 :: text.bytes).dropWhile isSpace = text.bytes.dropWhile isSpace :=
    dropWhile_cons_of_pos rfl
  rw [ryamlValue, skipped] at same
  exact same

variable {ps : Parser}

theorem Text.keyOf (key : Text) (tail : List UInt8) :
    keyOf (key.bytes ++ 0x3A :: tail) key.bytes.length = some key.bytes := by
  have whole : key.bytes.rdropWhile isSpace = key.bytes := by
    rw [rdropWhile_eq_self_iff]
    intro filled
    simpa using (key.safe.last _ (getLast?_eq_some_getLast filled)).1
  have taken : (key.bytes ++ 0x3A :: tail).take key.bytes.length = key.bytes := take_left
  obtain ⟨c, rest, cut, starts⟩ := key.start
  obtain ⟨_, _, _, _, _, _, _, notQuote⟩ := starts.ne
  rw [cut] at taken whole ⊢
  rw [cons_append, Ryaml.keyOf, notQuote]
  exact congrArg some ((congrArg _ taken).trans whole)

theorem entry_key (map indent : Nat) (key : Text) (tail : List UInt8) :
    ps.entry map indent (key.bytes ++ 0x3A :: tail) key.bytes.length lines =
      (ryamlValue (newChild ps.nodes map (some key.bytes)) ps.nodes.length indent tail lines).map fun value =>
          ({ ps with
            nodes := value.nodes
            pending := if value.deferred then some (ps.nodes.length, (indent : Int))
              else ps.pending }, value.read) := by
  have behind : (key.bytes ++ 0x3A :: tail).drop (key.bytes.length + 1) = tail := by
    rw [← List.drop_drop, drop_left]
    rfl
  rw [Parser.entry, key.keyOf, bind_some, behind]
  rfl

/-- A dash and a plain text are an item. -/
theorem item_text (seq indent : Nat) (text : Text) : ps.item seq indent (0x2D :: 0x20 :: text.bytes) lines =
      some ({ ps with nodes := setScalar (newChild ps.nodes seq none) ps.nodes.length text }, 0) := by
  obtain ⟨c, rest, cut, starts⟩ := text.start
  obtain ⟨_, _, notReturn, notComment, _, _, notFlow, _⟩ := starts.ne
  have skipped : ((0x2D :: 0x20 :: text.bytes).drop 1).dropWhile isSpace = text.bytes := by
    rw [drop_one, tail_cons, dropWhile_cons_of_pos rfl, cut, dropWhile_cons_of_neg (by simp [starts.1])]
  have noColon : compactColon text.bytes = none := by
    have none := text.findKeyColon
    rw [cut] at none ⊢
    rw [compactColon, notFlow]
    exact none
  have present : isAbsent text.bytes = false := by
    rw [cut, isAbsent]
    simp [notReturn, notComment]
  rw [Parser.item, skipped, noColon, present, ryamlValue_item]
  rfl

/-- A dash and a key are a mapping that lies two columns deeper, and its first entry. -/
theorem item_compact (seq indent : Nat) (key : Text) {tail : List UInt8} (short : Tail tail) :
    ps.item seq indent (0x2D :: 0x20 :: (key.bytes ++ 0x3A :: tail)) lines = Parser.entry
        { ps with
          nodes := setNode (newChild ps.nodes seq none) ps.nodes.length fun n =>
            { n with type := .map }
          stk := ⟨ps.nodes.length, ((indent + 2 : Nat) : Int)⟩ :: ps.stk }
        ps.nodes.length (indent + 2) (key.bytes ++ 0x3A :: tail) key.bytes.length lines := by
  have colon := key.keyColon short
  obtain ⟨c, rest, cut, starts⟩ := key.start
  obtain ⟨_, _, _, _, _, _, notFlow, _⟩ := starts.ne
  have skipped : ((0x2D :: 0x20 :: (key.bytes ++ 0x3A :: tail)).drop 1).dropWhile isSpace =
      key.bytes ++ 0x3A :: tail := by
    rw [drop_one, tail_cons, dropWhile_cons_of_pos rfl, cut, cons_append,
      dropWhile_cons_of_neg (by simp [starts.1])]
  have found : compactColon (key.bytes ++ 0x3A :: tail) = some key.bytes.length := by
    rw [cut, cons_append] at colon ⊢
    rw [compactColon, notFlow]
    exact colon
  have kind : (0x2D :: 0x20 :: (key.bytes ++ 0x3A :: tail)).length -
      (key.bytes ++ 0x3A :: tail).length + indent = indent + 2 := by
    simp only [length_cons]
    omega
  rw [Parser.item, skipped, found]
  dsimp only
  rw [kind]
  rfl

variable {top : Frame} {opened : Parser} {column : Nat}

/-- A key's line is an entry of the mapping that is open for it. -/
theorem pass_key (key : Text) {tail : List UInt8} (short : Tail tail)
    (opens : ps.openFor false column = some (opened, top)) :
    ps.pass (spaces column ++ (key.bytes ++ 0x3A :: tail)) lines =
      if typeAt opened.nodes top.node = some .map then
        opened.entry top.node column (key.bytes ++ 0x3A :: tail) key.bytes.length lines
      else none := by
  have colon := key.keyColon short
  have notItem := key.notItem tail
  obtain ⟨c, rest, cut, starts⟩ := key.start
  obtain ⟨notSpace, notTab, notReturn, notComment, _⟩ := starts.ne
  obtain ⟨indent, content⟩ := @indented column (key.bytes ++ 0x3A :: tail) (by rw [cut]; simpa using notSpace)
  have filled : ryamlLineIsBlank (key.bytes ++ 0x3A :: tail) = false := by
    rw [cut, cons_append, ryamlLineIsBlank, dropWhile_cons_of_neg (by simp [starts.1])]
    simpa using notReturn
  have first : (key.bytes ++ 0x3A :: tail).head? = some c := by rw [cut]; rfl
  rw [Parser.pass, indent, content, filled, first, if_neg (by simpa using notComment),
    if_neg (by simpa using notTab), notItem]
  dsimp only
  rw [opens, bind_some, colon]
  simp only [Bool.false_eq_true, if_false, bind_some, ite_not]

theorem pass_item {tail : List UInt8} (ends : spaceOrEnd tail = true)
    (opens : ps.openFor true column = some (opened, top))
    (typed : typeAt opened.nodes top.node = some .seq) :
    ps.pass (spaces column ++ 0x2D :: tail) lines = opened.item top.node column (0x2D :: tail) lines := by
  obtain ⟨indent, content⟩ := @indented column (0x2D :: tail) (by simp)
  have item : isSeqItem (0x2D :: tail) = true := by
    rw [isSeqItem, ends]
    rfl
  rw [Parser.pass, indent, content, if_neg (by simp [ryamlLineIsBlank, isSpace]),
    if_neg (by simp), item]
  dsimp only
  rw [opens, bind_some]
  simp [typed]

end Libretro.Ryaml
