import Libretro.Files.ConfigParsing

/-! Includes follow the expansion of the text: the list of entries, its tail and the map agree after any
nesting. -/

namespace Libretro.ConfigFile

open CString List Option Config

section Inserts

variable {Text : Type} {read : Text → List UInt8} {conf : Config Text}

theorem Config.getEntry_insertNew (node : Nat) (key : List UInt8) :
    (conf.insertNew read node).getEntry read key =
      (conf.entriesMap ++ [node]).find? fun other => conf.keyAt read other == some key := by
  rw [insertNew]
  cases own : conf.keyAt read node with
  | none =>
    -- A node without a key is nobody's first.
    rw [find?_append, find?_cons_of_neg (by simp [own]), find?_nil, or_none]
    rfl
  | some key' =>
    simp only
    by_cases taken : (conf.getEntry read key').isSome = true
    · rw [if_pos taken, find?_append]
      by_cases same : key' = key
      · subst same
        obtain ⟨first, found⟩ := isSome_iff_exists.1 taken
        rw [getEntry] at found ⊢
        rw [found]
        rfl
      · rw [find?_cons_of_neg (by simp [own, same]), find?_nil, or_none]
        rfl
    · rw [if_neg taken]
      rfl

theorem Config.getEntry_inserts (nodes : List Nat) (key : List UInt8) :
    (nodes.foldl (insertNew read) conf).getEntry read key =
      (conf.entriesMap ++ nodes).find? fun other => conf.keyAt read other == some key := by
  induction nodes generalizing conf with
  | nil =>
    rw [append_nil]
    rfl
  | cons node nodes ih =>
    -- The nodes themselves stay, so their keys do.
    have keys : ∀ other, (conf.insertNew read node).keyAt read other = conf.keyAt read other := by
      intro other
      rw [keyAt, keyAt, Config.insertNew_entries]
    have first := @Config.getEntry_insertNew _ read conf node key
    rw [getEntry] at first
    simp only [keys] at first
    rw [foldl_cons, ih]
    simp only [keys]
    rw [find?_append, first, ← find?_append, List.append_assoc]
    rfl

theorem Config.mem_inserts {nodes : List Nat} {node : Nat}
    (listed : node ∈ (nodes.foldl (insertNew read) conf).entriesMap) :
    node ∈ conf.entriesMap ++ nodes := by
  induction nodes generalizing conf with
  | nil => rwa [append_nil]
  | cons other nodes ih =>
    have before : ∀ {node}, node ∈ (conf.insertNew read other).entriesMap →
        node ∈ conf.entriesMap ++ [other] := by
      intro node listed
      rw [insertNew] at listed
      split at listed
      · exact mem_append_left _ listed
      · split at listed
        · exact mem_append_left _ listed
        · exact listed
    rw [foldl_cons] at listed
    rcases mem_append.1 (ih listed) with listed | listed
    · have listed := before listed
      simp only [mem_append, mem_singleton] at listed
      rcases listed with listed | rfl
      · exact mem_append_left _ listed
      · exact mem_append_right _ mem_cons_self
    · exact mem_append_right _ (mem_cons_of_mem _ listed)

theorem Config.inserts_path (nodes : List Nat) (conf : Config Text) :
    (nodes.foldl (insertNew read) conf).path = conf.path ∧
      (nodes.foldl (insertNew read) conf).includeDepth = conf.includeDepth := by
  induction nodes generalizing conf with
  | nil => exact ⟨rfl, rfl⟩
  | cons node nodes ih =>
    rw [foldl_cons, (ih _).1, (ih _).2, insertNew]
    split
    · exact ⟨rfl, rfl⟩
    · split <;> exact ⟨rfl, rfl⟩

theorem Config.addChildList_path (parent child : Config Text) :
    (parent.addChildList read child).path = parent.path ∧
      (parent.addChildList read child).includeDepth = parent.includeDepth := by
  simp only [Config.addChildList]
  split
  · exact ⟨rfl, rfl⟩
  · exact inserts_path _ _

end Inserts

/-- A node of a configuration by the bytes of its texts. -/
abbrev Node := Entry (List UInt8)

/-- The first node with a key. -/
def firstAt (nodes : List Node) (key : List UInt8) : Option Nat :=
  nodes.findIdx? fun node => node.key == some key

/-- The tail is the last node, and the map has the first node of each key. -/
structure Config.Indexed (conf : Config (List UInt8)) : Prop where
  tail : conf.tail = if conf.entries.isEmpty then none else some (conf.entries.length - 1)
  nodes : ∀ node ∈ conf.entriesMap, node < conf.entries.length
  first : ∀ key, conf.getEntry id key = firstAt conf.entries key

section Indexed

variable {conf child : Config (List UInt8)}

theorem Config.indexed_empty (path : Option (List UInt8)) (depth : Nat) :
    ({ path, includeDepth := depth } : Config (List UInt8)).Indexed where
  tail := rfl
  nodes := nofun
  first := fun _ => rfl

theorem Config.Indexed.upToTail (indexed : conf.Indexed) : conf.upToTail = conf.entries := by
  rw [Config.upToTail, indexed.tail]
  by_cases empty : conf.entries.isEmpty = true
  · rw [if_pos empty]
  · rw [if_neg empty]
    refine take_of_length_le ?_
    cases shape : conf.entries with
    | nil => simp [shape] at empty
    | cons first rest => simp

theorem Config.keyAt_append {nodes : List Node} {more : List Node} {node : Nat}
    (entries : conf.entries = nodes ++ more) (before : node < nodes.length) :
    conf.keyAt id node = (nodes[node]?).bind fun entry => entry.key.map id := by
  rw [keyAt, entries, getElem?_append_left before]

theorem Config.keyAt_new {nodes : List Node} {more : List Node} {node : Nat}
    (entries : conf.entries = nodes ++ more) :
    conf.keyAt id (nodes.length + node) = (more[node]?).bind fun entry => entry.key.map id := by
  rw [keyAt, entries, getElem?_append_right (Nat.le_add_right ..), Nat.add_sub_cancel_left]

theorem find_congr {α : Type} {list : List α} {test test' : α → Bool}
    (same : ∀ element ∈ list, test element = test' element) : list.find? test = list.find? test' := by
  induction list with
  | nil => rfl
  | cons first rest ih =>
    rw [find?_cons, find?_cons, same first mem_cons_self,
      ih fun element listed => same element (mem_cons_of_mem _ listed)]

theorem Config.Indexed.grow (indexed : conf.Indexed) (added next : Config (List UInt8))
    (first : ∀ key, added.getEntry id key = firstAt added.entries key)
    (entries : next.entries = conf.entries ++ added.entries)
    (map : next.entriesMap = conf.entriesMap) (key : List UInt8) :
    ((added.entriesMap.map (conf.entries.length + ·)).foldl (insertNew id) next).getEntry
      id key = firstAt (conf.entries ++ added.entries) key := by
  -- Old nodes keep their keys, and the new ones have those of the nodes that are added.
  have old : (conf.entriesMap.find? fun node => next.keyAt id node == some key) = conf.getEntry id key := by
    rw [getEntry]
    apply find_congr
    intro node listed
    rw [keyAt_append entries (indexed.nodes node listed), keyAt]
  have new : ((added.entriesMap.map (conf.entries.length + ·)).find? fun node =>
      next.keyAt id node == some key) = (added.getEntry id key).map (conf.entries.length + ·) := by
    rw [find?_map, getEntry]
    congr 1
    apply find_congr
    intro node listed
    rw [Function.comp_apply, keyAt_new entries, keyAt]
  rw [getEntry_inserts, map, find?_append, old, new, indexed.first, first, firstAt,
    firstAt, firstAt, findIdx?_append]
  congr 2
  funext node
  exact Nat.add_comm ..

theorem Config.Indexed.append (indexed : conf.Indexed) (node : Node) :
    (conf.append id node).Indexed ∧ (conf.append id node).entries = conf.entries ++ [node] := by
  have entries : (conf.append id node).entries = conf.entries ++ [node] := by
    rw [Config.append, Config.insertNew_entries, indexed.upToTail]
  refine ⟨⟨?_, ?_, fun key => ?_⟩, entries⟩
  · have tail : (conf.append id node).tail = some conf.upToTail.length := by
      rw [Config.append, Config.insertNew_tail]
    rw [tail, entries, indexed.upToTail, if_neg (by simp), length_append]
    rfl
  · intro other listed
    have listed : other ∈ conf.entriesMap ++ [conf.upToTail.length] :=
      @Config.mem_inserts _ id { conf with
        entries := conf.upToTail ++ [node], tail := some conf.upToTail.length }
        [conf.upToTail.length] other listed
    rw [entries, length_append, length_singleton]
    rcases mem_append.1 listed with listed | listed
    · exact Nat.lt_succ_of_lt (indexed.nodes other listed)
    · rw [mem_singleton.1 listed, indexed.upToTail]
      exact Nat.lt_succ_self _
  · -- The new node is a list of its own, with its key in the map.
    have grown := indexed.grow { entries := [node], entriesMap := [0] }
      { conf with entries := conf.upToTail ++ [node], tail := some conf.upToTail.length }
      (fun key => by
        cases own : node.key == some key <;>
          simp [getEntry, keyAt, firstAt, own]) (by rw [indexed.upToTail]) rfl key
    rw [entries, ← grown, Config.append, indexed.upToTail]
    rfl

theorem Config.marked_first (indexed : child.Indexed) (key : List UInt8) :
    child.marked.getEntry id key = firstAt child.marked.entries key := by
  have keys : ∀ node, child.marked.keyAt id node = child.keyAt id node := by
    intro node
    rw [keyAt, keyAt, marked, getElem?_map]
    cases child.entries[node]? <;> rfl
  have same : child.marked.getEntry id key = child.getEntry id key := by
    rw [getEntry, getEntry]
    simp only [keys]
    rfl
  rw [same, indexed.first, firstAt, firstAt, marked, findIdx?_map]
  rfl

theorem Config.splice_tail (indexed : conf.Indexed) (childIndexed : child.Indexed) :
    (conf.splice child.marked).tail = if (conf.splice child.marked).entries.isEmpty then none
      else some ((conf.splice child.marked).entries.length - 1) := by
  have tail : child.marked.tail = child.tail := rfl
  simp only [splice, tail, childIndexed.tail, indexed.upToTail]
  cases shape : child.entries with
  | nil => rfl
  | cons node rest =>
    have some : (conf.entries ++ child.marked.entries).isEmpty = false := by simp [marked, shape]
    rw [some]
    simp [marked, shape]

theorem Config.Indexed.addChildList (indexed : conf.Indexed) (childIndexed : child.Indexed) :
    (conf.addChildList id child).Indexed ∧
      (conf.addChildList id child).entries = conf.entries ++ child.marked.entries := by
  have entries : (conf.splice child.marked).entries = conf.entries ++ child.marked.entries := by
    rw [splice, indexed.upToTail]
  have inside : ∀ node ∈ child.entriesMap, node < child.marked.entries.length := by
    intro node listed
    rw [marked, length_map]
    exact childIndexed.nodes node listed
  have tail := splice_tail indexed childIndexed
  rw [Config.addChildList, indexed.upToTail]
  cases shape : conf.entries with
  | nil =>
    -- An empty list takes the nodes and the map of the child as they are.
    rw [shape, nil_append] at entries
    refine ⟨⟨tail, ?_, ?_⟩, entries⟩
    · show ∀ node ∈ child.entriesMap, node < (conf.splice child.marked).entries.length
      rw [entries]
      exact inside
    · intro key
      have first := marked_first childIndexed key
      show _ = firstAt (conf.splice child.marked).entries key
      rw [entries, ← first]
      rw [getEntry, getEntry]
      apply find_congr
      intro node listed
      rfl
  | cons node rest =>
    rw [← shape, if_neg (by simp [shape])]
    obtain ⟨same, sameTail⟩ := @Config.inserts_same _ id
      (child.entriesMap.map (conf.entries.length + ·)) (conf.splice child.marked)
    refine ⟨⟨?_, ?_, ?_⟩, same.trans entries⟩
    · rw [sameTail, same]
      exact tail
    · intro other listed
      rw [same, entries, length_append]
      rcases mem_append.1 (mem_inserts listed) with listed | listed
      · have bound := indexed.nodes other listed
        omega
      · obtain ⟨own, is, rfl⟩ := mem_map.1 listed
        have bound := inside own is
        omega
    · intro key
      rw [same, entries]
      exact indexed.grow child.marked _ (marked_first childIndexed) entries rfl key

end Indexed

/-- The nodes that a line stands for: a key and value are one; an include that is followed is replaced
in place by the nodes of its file, read-only, and leaves a node without a key, as a reference
does. -/
def lineNodes (follow : Option (List UInt8 → List Node)) (line : List UInt8) : List Node :=
  match lineSays line with
  | .nothing => []
  | .included path =>
    match follow with
    | none => []
    | some follow =>
      if path.isEmpty then []
      else (follow path).map (fun node => { node with readonly := true }) ++ [{}]
  | .referenced _ => [{}]
  | .entry key value => [{ key := some key, value := some value }]

/-- The nodes that a text stands for. -/
def textNodes (follow : Option (List UInt8 → List Node)) (text : List UInt8) : List Node :=
  (textLines text).flatMap (lineNodes follow)

/-- The nodes that a file stands for, with includes nested no deeper than what is left; a file that
cannot be read stands for none. -/
def expansion (world : World) : Nat → List UInt8 → Option (List Node)
  | 0, path => (world.readFile path).map (textNodes none)
  | left + 1, path => (world.readFile path).map <| textNodes <| some fun include' =>
    (expansion world left (world.realpath (some path) include')).getD []

/-- What a file stands for when a text includes it under a path. -/
def followed (world : World) (conf : Config (List UInt8)) : Option (List UInt8 → List Node) :=
  if maxIncludeDepth ≤ conf.includeDepth then none
  else some fun path => (expansion world (maxIncludeDepth - (conf.includeDepth + 1))
    (world.realpath conf.path path)).getD []

/-- At a depth, the configuration made of a file is indexed, and its nodes are those that the file
stands for. -/
def Expands (world : World) (load : Nat → List UInt8 → Option (Config (List UInt8))) (depth : Nat) : Prop :=
  ∀ path, (load depth path).map Config.entries = expansion world (maxIncludeDepth - depth) path ∧
    ∀ child, load depth path = some child → child.Indexed

section Expansion

variable {world : World} {load : Nat → List UInt8 → Option (Config (List UInt8))} {conf : Config (List UInt8)}

theorem Config.line_nodes (expands : conf.includeDepth < maxIncludeDepth →
      Expands world load (conf.includeDepth + 1)) (indexed : conf.Indexed) (line : List UInt8) :
    (conf.line world load line).Indexed ∧ (conf.line world load line).entries =
        conf.entries ++ lineNodes (followed world conf) line ∧
      (conf.line world load line).path = conf.path ∧
      (conf.line world load line).includeDepth = conf.includeDepth := by
  have append : ∀ {conf' : Config (List UInt8)} (node : Node), conf'.path = conf.path →
      conf'.includeDepth = conf.includeDepth →
      (conf'.append id node).path = conf.path ∧ (conf'.append id node).includeDepth = conf.includeDepth := by
    intro conf' node path depth
    obtain ⟨same, sameDepth⟩ := @Config.inserts_path _ id [conf'.upToTail.length]
      { conf' with entries := conf'.upToTail ++ [node], tail := some conf'.upToTail.length }
    exact ⟨same.trans path, sameDepth.trans depth⟩
  rw [Config.line, lineNodes]
  cases lineSays line with
  | nothing => exact ⟨indexed, (append_nil _).symm, rfl, rfl⟩
  | referenced path =>
    have indexed' : (conf.addReference world path).Indexed := { indexed with }
    obtain ⟨appended, entries⟩ := indexed'.append {}
    exact ⟨appended, entries, append _ rfl rfl⟩
  | entry key value =>
    obtain ⟨appended, entries⟩ := indexed.append { key := some key, value := some value }
    exact ⟨appended, entries, append _ rfl rfl⟩
  | included path =>
    simp only [followed]
    by_cases deep : maxIncludeDepth ≤ conf.includeDepth
    · rw [if_pos (.inr deep), if_pos deep]
      exact ⟨indexed, (append_nil _).symm, rfl, rfl⟩
    · rw [if_neg deep]
      by_cases empty : path.isEmpty = true
      · rw [if_pos (.inl empty)]
        refine ⟨indexed, ?_, rfl, rfl⟩
        simp only [if_pos empty]
        exact (append_nil _).symm
      · rw [if_neg (not_or.2 ⟨empty, deep⟩)]
        simp only [if_neg empty]
        have indexed' : (conf.addSubConf path).Indexed := { indexed with }
        obtain ⟨nodes, childIndexed⟩ := expands (Nat.lt_of_not_le deep) (world.realpath conf.path path)
        have same : (conf.addSubConf path).path = conf.path ∧
            (conf.addSubConf path).includeDepth = conf.includeDepth := ⟨rfl, rfl⟩
        rw [same.1, same.2, ← nodes]
        cases loaded : load (conf.includeDepth + 1) (world.realpath conf.path path) with
        | none =>
          obtain ⟨appended, entries⟩ := indexed'.append {}
          exact ⟨appended, entries, append _ rfl rfl⟩
        | some child =>
          obtain ⟨added, addedEntries⟩ := indexed'.addChildList (childIndexed child loaded)
          obtain ⟨appended, entries⟩ := added.append {}
          obtain ⟨path, depth⟩ := @Config.addChildList_path _ id (conf.addSubConf path) child
          refine ⟨appended, ?_, append _ path depth⟩
          rw [entries, addedEntries, List.append_assoc]
          rfl

theorem Config.text_nodes (expands : conf.includeDepth < maxIncludeDepth →
      Expands world load (conf.includeDepth + 1)) (indexed : conf.Indexed) (text : List UInt8) :
    (conf.text world load text).Indexed ∧ (conf.text world load text).entries =
      conf.entries ++ textNodes (followed world conf) text := by
  rw [Config.text, textNodes]
  -- The induction follows the lines.
  induction textLines text generalizing conf with
  | nil => exact ⟨indexed, (append_nil _).symm⟩
  | cons line lines ih =>
    obtain ⟨stays, entries, path, depth⟩ := line_nodes expands indexed line
    obtain ⟨last, lastEntries⟩ := ih (depth ▸ expands) stays
    have same : followed world (conf.line world load line) = followed world conf := by
      rw [followed, followed, path, depth]
    rw [foldl_cons, flatMap_cons, lastEntries, entries, same, List.append_assoc]
    exact ⟨last, rfl⟩

/-- Files are expanded as they should be while the levels are enough for the depth. -/
theorem expand_expands (world : World) {levels depth : Nat}
    (enough : maxIncludeDepth < levels + depth) (allowed : depth ≤ maxIncludeDepth) :
    Expands world (expand world levels) depth := by
  induction levels generalizing depth with
  | zero => omega
  | succ levels ih =>
    intro path
    rw [expand]
    cases read : world.readFile path with
    | none =>
      refine ⟨?_, by rintro _ ⟨⟩⟩
      cases maxIncludeDepth - depth <;> rw [expansion, read] <;> rfl
    | some text =>
      have deeper : depth < maxIncludeDepth → Expands world (expand world levels) (depth + 1) :=
        fun deeper => ih (by omega) deeper
      obtain ⟨indexed, entries⟩ := @Config.text_nodes world (expand world levels)
        { path := some path, includeDepth := depth } deeper (indexed_empty _ depth) text
      refine ⟨?_, fun child loaded => some.inj loaded ▸ indexed⟩
      rw [map_some, map_some, entries, nil_append]
      -- How deep includes may still nest is what the expansion of the file goes by.
      cases left : maxIncludeDepth - depth with
      | zero =>
        rw [expansion, read, followed, if_pos (show maxIncludeDepth ≤ depth by omega)]
        rfl
      | succ rest =>
        rw [expansion, read, followed, if_neg (show ¬ maxIncludeDepth ≤ depth by omega)]
        simp only [show maxIncludeDepth - (depth + 1) = rest by omega]
        rfl

end Expansion

section Levels

variable {world : World} {load load' : Loader} {memory : Memory} {conf : Config Text}

variable (same : conf.includeDepth < maxIncludeDepth → ∀ memory path, load memory (conf.includeDepth + 1)
  path = load' memory (conf.includeDepth + 1) path)
include same

theorem takeLine_congr (address line : Nat) (borrow : Bool) :
    takeLine world load memory conf address line borrow =
        takeLine world load' memory conf address line borrow ∧
      (takeLine world load memory conf address line borrow).2.includeDepth = conf.includeDepth := by
  have append : ∀ (memory : Memory) (conf : Config Text) (entry : Entry Text),
      (conf.append (Text.read memory) entry).includeDepth = conf.includeDepth :=
    fun memory conf entry => (@Config.inserts_path _ (Text.read memory) [conf.upToTail.length]
      { conf with entries := conf.upToTail ++ [entry], tail := some conf.upToTail.length }).2
  rw [takeLine, takeLine]
  by_cases ends : byteAt (memory.buffer address) line = 0
  · rw [if_pos ends, if_pos ends]
    exact ⟨rfl, rfl⟩
  · rw [if_neg ends, if_neg ends, parseLine, parseLine]
    cases scanLine (memory.buffer address) line address borrow with
    | mk buffer found =>
      cases found with
      | nothing => exact ⟨rfl, rfl⟩
      | referenced path => exact ⟨rfl, append _ _ _⟩
      | entry key value => exact ⟨rfl, append _ _ _⟩
      | included path =>
        simp only
        by_cases refused : path.isEmpty = true ∨ maxIncludeDepth ≤ conf.includeDepth
        · rw [if_pos refused, if_pos refused]
          exact ⟨rfl, rfl⟩
        · rw [if_neg refused, if_neg refused]
          have shallow := Nat.lt_of_not_le (not_or.1 refused).2
          have depth : (conf.addSubConf path).includeDepth = conf.includeDepth := rfl
          rw [depth, ← same shallow]
          cases load (memory.set address buffer) (conf.includeDepth + 1)
              (world.realpath (conf.addSubConf path).path path) with
          | none => exact ⟨rfl, append _ _ _⟩
          | some loaded =>
            refine ⟨rfl, (append _ _ _).trans ?_⟩
            exact (@Config.addChildList_path _ _ (conf.addSubConf path) loaded.2).2

theorem parseBuffer_congr (address line turns : Nat) (borrow : Bool) :
    parseBuffer world load address borrow turns memory conf line =
      parseBuffer world load' address borrow turns memory conf line := by
  induction turns generalizing memory conf line with
  | zero => rfl
  | succ turns ih =>
    rw [parseBuffer, parseBuffer]
    by_cases ends : byteAt (memory.buffer address) line = 0
    · rw [if_pos ends, if_pos ends]
    · rw [if_neg ends, if_neg ends]
      cases strchr (memory.buffer address) line newline with
      | none =>
        simp only
        rw [(takeLine_congr same address line borrow).1]
      | some next =>
        simp only
        obtain ⟨taken, depth⟩ := @takeLine_congr world load load'
          (memory.set address ((memory.buffer address).set next 0)) conf same address line borrow
        rw [← taken]
        exact ih (depth ▸ same) _

omit same

theorem loadInternal_levels (world : World) {levels more depth : Nat}
    (enough : maxIncludeDepth < levels + depth) (enough' : maxIncludeDepth < more + depth)
    (allowed : depth ≤ maxIncludeDepth) (memory : Memory) (path : List UInt8) :
    loadInternal world levels memory depth path = loadInternal world more memory depth path := by
  induction levels generalizing more depth memory path with
  | zero => omega
  | succ levels ih =>
    cases more with
    | zero => omega
    | succ more =>
      rw [loadInternal, loadInternal]
      congr 1
      funext text
      apply parseBuffer_congr
      intro deeper memory path
      have deeper : depth < maxIncludeDepth := deeper
      exact ih (show _ < _ + (depth + 1) by omega) (show _ < _ + (depth + 1) by omega) deeper
        memory path

end Levels

/-- A root file is loaded with includes nested no deeper than they may be, however many levels there
are; the list of its entries is the expansion of the file, its tail is the last of them, and a key is
looked up to the value of its first occurrence. -/
theorem loadFile_expansion (world : World) (path : List UInt8) : (∀ levels, maxIncludeDepth < levels →
      loadInternal world levels [] 0 path = loadFile world path) ∧ expansion world maxIncludeDepth path =
      (loadFile world path).map (fun loaded => (contents loaded).entries) ∧
    ∀ loaded, loadFile world path = some loaded → loaded.2.tail = (if loaded.2.entries.isEmpty then none
        else some (loaded.2.entries.length - 1)) ∧
      ∀ key, loaded.2.lookup (Text.read loaded.1) key =
        ((contents loaded).entries.find? fun node => node.key == some key).bind Entry.value := by
  obtain ⟨nodes, indexed⟩ := @expand_expands world (maxIncludeDepth + 1) 0 (by omega)
    (Nat.zero_le _) path
  have loads := loadInternal_loads world (maxIncludeDepth + 1) [] 0 path
  rw [← loadFile] at loads
  refine ⟨fun levels enough => loadInternal_levels world (by omega) (by omega) (Nat.zero_le _) _ _,
    ?_, ?_⟩
  · rw [Nat.sub_zero] at nodes
    rw [← nodes]
    rcases loads with ⟨absent, absent'⟩ | ⟨memory, conf, present, present', -⟩
    · rw [absent, absent']
      rfl
    · rw [present, present']
      rfl
  · rintro ⟨memory, conf⟩ loaded
    rcases loads with ⟨absent, -⟩ | ⟨memory', conf', present, present', -⟩
    · rw [loaded] at absent
      cases absent
    · obtain ⟨rfl, rfl⟩ := Prod.ext_iff.1 (some.inj (loaded.symm.trans present))
      have indexed := indexed _ present'
      have empty : (conf.map (Text.read memory)).entries.isEmpty = conf.entries.isEmpty := isEmpty_map
      refine ⟨?_, fun key => ?_⟩
      · have tail := indexed.tail
        have length : (conf.map (Text.read memory)).entries.length = conf.entries.length := length_map ..
        rwa [empty, length] at tail
      · rw [← Config.lookup_map, Config.lookup, indexed.first, firstAt,
          find?_eq_bind_findIdx?_getElem?, bind_assoc]
        simp only [Option.map_id_fun, id_eq]
        rfl

end Libretro.ConfigFile
