import Libretro.Formats.RyamlDocuments

/-! Block documents are read back, where no key stands behind a sequence at its own indentation. -/

namespace Libretro.Ryaml

open List Parser

variable {ps ps' : Parser} {nodes : List Node} {below extra : List Frame} {isSeq : Bool}
  {node place column keyColumn : Nat} {lead line : List UInt8} {lines : List (List UInt8)}

theorem closeDeeper_to : ∀ {extra : List Frame}, (∀ f ∈ extra, (column : Int) < f.indent) →
    closeDeeper column (extra ++ ⟨node, column⟩ :: below) = ⟨node, column⟩ :: below
  | [], _ => by
    cases below with
    | nil => rfl
    | cons next below => rw [nil_append, closeDeeper, if_neg (Int.lt_irrefl _)]
  | top :: extra, deeper => by
    have closed := @closeDeeper_to extra fun f listed =>
      deeper f (mem_cons_of_mem _ listed)
    have above := deeper top mem_cons_self
    cases extra with
    | nil => rw [cons_append, nil_append, closeDeeper, if_pos above]; exact closed
    | cons next extra =>
      rw [cons_append, cons_append, closeDeeper, if_pos above]
      exact closed

theorem openFor_level (deeper : ∀ f ∈ extra, (column : Int) < f.indent) {type : NodeType}
    (typed : typeAt nodes node = some type) (isSome : type ≠ .none) :
    openFor ⟨nodes, extra ++ ⟨node, column⟩ :: below, none⟩ isSeq column =
      some (⟨nodes, ⟨node, column⟩ :: below, none⟩, ⟨node, column⟩) := by
  have fixed : fixRoot ⟨nodes, ⟨node, column⟩ :: below, none⟩ isSeq column =
      ⟨nodes, ⟨node, column⟩ :: below, none⟩ := by
    cases below with
    | nil =>
      rw [fixRoot]
      exact if_neg fun untyped => isSome (Option.some.inj (typed.symm.trans untyped))
    | cons next below => rfl
  rw [openFor, resolve]
  dsimp only
  rw [closeDeeper_to deeper, fixed]
  exact if_neg (Int.lt_irrefl _)

theorem openFor_pending (filled : below ≠ [])
    (takes : keyColumn < column ∨ (isSeq = true ∧ column = keyColumn)) :
    openFor ⟨nodes, below, some (node, keyColumn)⟩ isSeq column =
      some (⟨setNode nodes node fun n => { n with type := if isSeq then .seq else .map },
        ⟨node, column⟩ :: below, none⟩, ⟨node, column⟩) := by
  have taken : (keyColumn : Int) < column ∨ (isSeq = true ∧ (column : Int) = keyColumn) :=
    takes.imp Int.ofNat_lt.2 fun both => ⟨both.1, congrArg _ both.2⟩
  obtain ⟨next, below, rfl⟩ := exists_cons_of_ne_nil filled
  rw [openFor, resolve]
  dsimp only
  rw [if_pos taken]
  dsimp only
  rw [closeDeeper, if_neg (Int.lt_irrefl _)]
  exact if_neg (Int.lt_irrefl _)

theorem run_cons (passes : ps.pass line lines = some (ps', 0)) :
    ps.run (line :: lines) 0 = ps'.run lines 0 := by
  rw [run, passes]
  rfl

theorem run_refused (refuses : ps.pass line lines = none) : ps.run (line :: lines) 0 = none := by
  rw [run, refuses]
  rfl

/-- A line that leads with some bytes gives a mapping its next entry. -/
def Leads (ps : Parser) (lead : List UInt8) (map column : Nat) (nodes : List Node)
    (stk : List Frame) : Prop :=
  ∀ (key : Text) (tail : List UInt8) (lines : List (List UInt8)), Tail tail →
    ps.pass (lead ++ (key.bytes ++ 0x3A :: tail)) lines =
      entry ⟨nodes, stk, none⟩ map column (key.bytes ++ 0x3A :: tail) key.bytes.length lines

/-- What a line does whose lead ends with a key or a dash that gave a node its place. -/
structure Heads (under : Under) (ps : Parser) (lead : List UInt8) (column place : Nat)
    (nodes : List Node) (stk : List Frame) : Prop where
  text : ∀ (text : Text) (lines : List (List UInt8)), ps.pass (lead ++ 0x20 :: text.bytes) lines =
    some (⟨setScalar nodes place text, stk, none⟩, 0)
  alone : ∀ lines : List (List UInt8),
    ps.pass lead lines = some (⟨nodes, stk, some (place, (column : Int))⟩, 0)
  compact : under = .dash → Leads ps (lead ++ [0x20]) place (column + 2)
    (setNode nodes place fun n => { n with type := .map })
    (⟨place, ((column + 2 : Nat) : Int)⟩ :: stk)

theorem Leads.heads {map : Nat} {stk : List Frame} (leads : Leads ps lead map column nodes stk)
    (key : Text) : Heads .key ps (lead ++ key.bytes ++ [0x3A]) column nodes.length
      (newChild nodes map (some key.bytes)) stk := by
  refine ⟨fun text lines => ?_, fun lines => ?_, nofun⟩
  · have entry := leads key (0x20 :: text.bytes) lines (.inr ⟨text, rfl⟩)
    rw [entry_key, ryamlValue_text] at entry
    rw [append_assoc, append_assoc]
    exact entry
  · have entry := leads key [] lines (.inl rfl)
    rw [entry_key, ryamlValue_nil] at entry
    rw [append_assoc]
    exact entry

theorem heads_dash {seq : Nat}
    (opens : ps.openFor true column = some (⟨nodes, ⟨seq, column⟩ :: below, none⟩, ⟨seq, column⟩))
    (typed : typeAt nodes seq = some .seq) :
    Heads .dash ps (spaces column ++ [0x2D]) column nodes.length (newChild nodes seq none)
      (⟨seq, column⟩ :: below) := by
  refine ⟨fun text lines => ?_, fun lines => ?_, fun _ key tail lines short => ?_⟩
  · have item := @pass_item lines ps _ _ column (0x20 :: text.bytes) rfl opens typed
    rw [item_text] at item
    rw [append_assoc]
    exact item
  · have item := @pass_item lines ps _ _ column [] rfl opens typed
    exact item
  · have item := @pass_item lines ps _ _ column (0x20 :: (key.bytes ++ 0x3A :: tail)) rfl opens typed
    rw [item_compact _ _ _ short] at item
    rw [append_assoc, append_assoc]
    exact item

theorem Fills.typeAt {shows : List Node → Prop} {i : Nat} {nodes' : List Node}
    (fills : Fills nodes nodes' place shows) (before : i < nodes.length) (apart : i ≠ place) :
    typeAt nodes' i = typeAt nodes i := by
  rw [Ryaml.typeAt, fills.kept i before apart]
  rfl

theorem newChild_typeAt {parent : Nat} (ready : Ready nodes parent) (key : Option (List UInt8)) :
    typeAt (newChild nodes parent key) parent = typeAt nodes parent := by
  rw [typeAt, newChild_before ready.inside, newNode_parent ready, Option.map_map]
  rfl

theorem child_typeAt {parent : Nat} {key : Option (List UInt8)} {shows : List Node → Prop}
    {nodes' : List Node} (ready : Ready nodes parent)
    (fills : Fills (newChild nodes parent key) nodes' nodes.length shows) :
    typeAt nodes' parent = typeAt nodes parent := by
  have inside := ready.inside
  rw [fills.typeAt (by rw [newChild_length]; omega) (by omega), newChild_typeAt ready]

theorem Adopts.typeAt {parent count : Nat} {shows : List Node → Option Nat → Prop}
    {nodes' : List Node} (adopts : Adopts nodes nodes' parent count shows) :
    typeAt nodes' parent = typeAt nodes parent := by
  obtain ⟨n, last, old, _, _, new⟩ := adopts.adopted
  rw [Ryaml.typeAt, Ryaml.typeAt, old, new]
  rfl

theorem setNode_typeAt {type : NodeType} (bare : Bare nodes place) :
    typeAt (setNode nodes place fun n => { n with type := type }) place = some type := by
  obtain ⟨n, found, _⟩ := bare
  rw [typeAt, getElem?_modify_eq, found]
  rfl

/-- What is open after a block behind a key or dash at some column: above the frames below, only
deeper ones, and the frame of a sequence at that column where the block is one. -/
structure Leaves {under : Under} (block : Block under) (column : Nat) (nodes : List Node)
    (extra : List Frame) : Prop where
  deeper : block.isLevel = false → ∀ f ∈ extra, (column : Int) < f.indent
  level : block.isLevel = true → ∃ above seq, extra = above ++ [⟨seq, column⟩] ∧
    (∀ f ∈ above, (column : Int) < f.indent) ∧ typeAt nodes seq = some .seq

theorem Leaves.above {under : Under} {block : Block under} (leaves : Leaves block column nodes extra)
    (f : Frame) (listed : f ∈ extra) : (column : Int) ≤ f.indent := by
  cases level : block.isLevel with
  | false => exact Int.le_of_lt (leaves.deeper level f listed)
  | true =>
    obtain ⟨above, seq, rfl, deeper, _⟩ := leaves.level level
    rcases mem_append.1 listed with listed | listed
    · exact Int.le_of_lt (deeper f listed)
    · obtain rfl := mem_singleton.1 listed
      exact Int.le_refl _

theorem Block.dash_notLevel (item : Block .dash) : item.isLevel = false := by
  cases item <;> rfl

/-- The reader after some lines: the nodes that they make, and the frames that they leave open. -/
def Reads (ps : Parser) (written : List (List UInt8)) (nodes : List Node) (stk : List Frame) : Prop :=
  ∀ lines, ps.run (written ++ lines) 0 = run ⟨nodes, stk, none⟩ lines 0

theorem Reads.trans {written others : List (List UInt8)} {nodes₁ nodes₂ : List Node}
    {stk₁ stk₂ : List Frame} (first : Reads ps written nodes₁ stk₁)
    (then' : Reads ⟨nodes₁, stk₁, none⟩ others nodes₂ stk₂) :
    Reads ps (written ++ others) nodes₂ stk₂ := by
  intro lines
  rw [append_assoc, first, then']

theorem leads_pending {stk : List Frame} (filled : stk ≠ []) (bare : Bare nodes place)
    (deeper : keyColumn < column) :
    Leads ⟨nodes, stk, some (place, (keyColumn : Int))⟩ (spaces column) place column
      (setNode nodes place fun n => { n with type := .map }) (⟨place, column⟩ :: stk) := by
  intro key tail lines short
  rw [pass_key key short (openFor_pending filled (.inl deeper))]
  exact if_pos (setNode_typeAt bare)

theorem leads_next {map : Nat} (deeper : ∀ f ∈ extra, (column : Int) < f.indent)
    (typed : typeAt nodes map = some .map) :
    Leads ⟨nodes, extra ++ ⟨map, column⟩ :: below, none⟩ (spaces column) map column nodes
      (⟨map, column⟩ :: below) := by
  intro key tail lines short
  rw [pass_key key short (openFor_level deeper typed nofun)]
  exact if_pos typed

theorem Heads.collection {under : Under} {stk : List Frame} {nodes' : List Node} {f : Frame}
    {written : List (List UInt8)} (heads : Heads under ps lead column place nodes stk)
    (reads : Reads ⟨nodes, stk, some (place, (column : Int))⟩ written nodes' (extra ++ f :: stk)) :
    Reads ps (lead :: written) nodes' (extra ++ [f] ++ stk) := by
  intro lines
  rw [cons_append, run_cons (heads.alone _), reads, append_assoc]
  rfl

theorem deeper_append {inner : Nat} (above : ∀ f ∈ extra, (inner : Int) ≤ f.indent)
    (deeper : column < inner) (f : Frame) (listed : f ∈ extra ++ [⟨place, (inner : Int)⟩]) :
    (column : Int) < f.indent := by
  rcases mem_append.1 listed with listed | listed
  · have := above f listed
    omega
  · obtain rfl := mem_singleton.1 listed
    exact Int.ofNat_lt.2 deeper

mutual

theorem Block.reads {under : Under} {ps : Parser} {lead : List UInt8} {column place : Nat}
    {nodes : List Node} {stk : List Frame} (filled : stk ≠ []) :
    ∀ block : Block under, Heads under ps lead column place nodes stk → Bare nodes place →
      block.Clear → ∃ extra, Leaves block column (block.build place nodes) extra ∧
        Reads ps (block.lines column lead) (block.build place nodes) (extra ++ stk)
  | .scalar text, heads, _, _ => by
    refine ⟨[], ⟨fun _ => nofun, nofun⟩, fun lines => ?_⟩
    exact run_cons (heads.text text lines)
  | .map step entries, heads, bare, clear => by
    have deeper : column < column + 1 + step := by omega
    obtain ⟨extra, above, reads⟩ := entries.reads (leads_pending filled bare deeper)
      (bare.ready .map) (setNode_typeAt bare) clear
    exact ⟨_, ⟨fun _ => deeper_append above deeper, nofun⟩, heads.collection reads⟩
  | .seq step items, heads, bare, clear => by
    have deeper : column < column + 1 + step := by omega
    obtain ⟨extra, above, reads⟩ := items.reads (openFor_pending filled (.inl deeper))
      (bare.ready .seq) (setNode_typeAt bare) clear
    have above (f : Frame) (listed : f ∈ extra) : ((column + 1 + step : Nat) : Int) ≤ f.indent :=
      Int.le_of_lt (above f listed)
    exact ⟨_, ⟨fun _ => deeper_append above deeper, nofun⟩, heads.collection reads⟩
  | .level items, heads, bare, clear => by
    -- The items stand at the key's own column.
    obtain ⟨extra, above, reads⟩ := items.reads (openFor_pending filled (.inr ⟨rfl, rfl⟩))
      (bare.ready .seq) (setNode_typeAt bare) clear
    have typed := (items.build_adopts (bare.ready .seq)).typeAt.trans (setNode_typeAt bare)
    exact ⟨_, ⟨nofun, fun _ => ⟨extra, place, rfl, above, typed⟩⟩, heads.collection reads⟩
  | .compact entries, heads, bare, clear => by
    obtain ⟨extra, above, reads⟩ := entries.reads (heads.compact rfl) (bare.ready .map)
      (setNode_typeAt bare) clear
    refine ⟨extra ++ [⟨place, ((column + 2 : Nat) : Int)⟩],
      ⟨fun _ => deeper_append above (by omega), nofun⟩, ?_⟩
    rw [append_assoc]
    exact reads

/-- The entries of a mapping are read at its column. -/
theorem Entries.reads {ps : Parser} {lead : List UInt8} {column map : Nat} {nodes : List Node}
    {below : List Frame} : ∀ entries : Entries,
      Leads ps lead map column nodes (⟨map, column⟩ :: below) → Ready nodes map →
        typeAt nodes map = some .map → entries.Clear → ∃ extra, (∀ f ∈ extra, (column : Int) ≤ f.indent) ∧
            Reads ps (entries.lines column lead) (entries.build map nodes) (extra ++ ⟨map, column⟩ :: below)
  | .last key value, leads, ready, _, clear => by
    obtain ⟨extra, leaves, reads⟩ := value.reads (cons_ne_nil _ _) (leads.heads key)
      (newChild_bare ready) clear
    exact ⟨extra, leaves.above, reads⟩
  | .more key value rest, leads, ready, typed, clear => by
    obtain ⟨notLevel, clear, clearRest⟩ := clear
    have bare := @newChild_bare nodes map (some key.bytes) ready
    have fills := value.build_fills bare
    obtain ⟨extra, leaves, reads⟩ := value.reads (cons_ne_nil _ _) (leads.heads key) bare clear
    have readyAfter := (filled_ready (fun later place => value.Shown later place) ready fills).1
    have typedAfter := (child_typeAt ready fills).trans typed
    obtain ⟨extra, above, readsRest⟩ := rest.reads (leads_next (leaves.deeper notLevel) typedAfter)
      readyAfter typedAfter clearRest
    exact ⟨extra, above, reads.trans readsRest⟩

/-- The items of a sequence are read at its column. -/
theorem Items.reads {ps : Parser} {column seq : Nat} {nodes : List Node} {below : List Frame} :
    ∀ items : Items, ps.openFor true column = some (⟨nodes, ⟨seq, column⟩ :: below, none⟩, ⟨seq, column⟩) →
        Ready nodes seq → typeAt nodes seq = some .seq → items.Clear →
          ∃ extra, (∀ f ∈ extra, (column : Int) < f.indent) ∧
            Reads ps (items.lines column) (items.build seq nodes) (extra ++ ⟨seq, column⟩ :: below)
  | .last item, opens, ready, typed, clear => by
    obtain ⟨extra, leaves, reads⟩ := item.reads (cons_ne_nil _ _) (heads_dash opens typed)
      (newChild_bare ready) clear
    exact ⟨extra, leaves.deeper item.dash_notLevel, reads⟩
  | .more item rest, opens, ready, typed, clear => by
    obtain ⟨clear, clearRest⟩ := clear
    have bare := @newChild_bare nodes seq none ready
    have fills := item.build_fills bare
    obtain ⟨extra, leaves, reads⟩ := item.reads (cons_ne_nil _ _) (heads_dash opens typed) bare clear
    have readyAfter := (filled_ready (fun later place => item.Shown later place) ready fills).1
    have typedAfter := (child_typeAt ready fills).trans typed
    obtain ⟨extra, above, readsRest⟩ := rest.reads
      (openFor_level (leaves.deeper item.dash_notLevel) typedAfter nofun) readyAfter typedAfter
      clearRest
    exact ⟨extra, above, reads.trans readsRest⟩

end

theorem Block.first_line (lead : List UInt8) : ∀ value : Block .key, ∃ tail more, Tail tail ∧
    value.lines column lead = (lead ++ tail) :: more
  | .scalar text => ⟨_, [], .inr ⟨text, rfl⟩, rfl⟩
  | .map _ _ => ⟨[], _, .inl rfl, by rw [Block.lines, append_nil]⟩
  | .seq _ _ => ⟨[], _, .inl rfl, by rw [Block.lines, append_nil]⟩
  | .level _ => ⟨[], _, .inl rfl, by rw [Block.lines, append_nil]⟩

theorem Entries.first_line (lead : List UInt8) (entries : Entries) : ∃ key tail more, Tail tail ∧
    entries.lines column lead = (lead ++ (Text.bytes key ++ 0x3A :: tail)) :: more := by
  cases entries with
  | last key value =>
    obtain ⟨tail, more, short, cut⟩ := @Block.first_line column (lead ++ key.bytes ++ [0x3A]) value
    refine ⟨key, tail, more, short, ?_⟩
    rw [Entries.lines, cut, append_assoc, append_assoc]
    rfl
  | more key value rest =>
    obtain ⟨tail, more, short, cut⟩ := @Block.first_line column (lead ++ key.bytes ++ [0x3A]) value
    refine ⟨key, tail, more ++ rest.lines column (spaces column), short, ?_⟩
    rw [Entries.lines, cut, append_assoc, append_assoc]
    rfl

theorem refused_level {above : List Frame} {seq : Nat}
    (deeper : ∀ f ∈ above, (column : Int) < f.indent) (typed : typeAt nodes seq = some .seq)
    (entries : Entries) :
    run ⟨nodes, above ++ ⟨seq, column⟩ :: below, none⟩
      (entries.lines column (spaces column) ++ lines) 0 = none := by
  obtain ⟨key, tail, more, short, cut⟩ := @Entries.first_line column (spaces column) entries
  rw [cut, cons_append]
  refine run_refused ?_
  rw [pass_key key short (openFor_level deeper typed nofun), typed]
  rfl

/-- A reading that fails within some lines, whatever comes after them. -/
def Fails (ps : Parser) (written : List (List UInt8)) : Prop := ∀ lines, ps.run (written ++ lines) 0 = none

theorem Reads.fails {written others : List (List UInt8)} {stk : List Frame}
    (reads : Reads ps written nodes stk) (fails : Fails ⟨nodes, stk, none⟩ others) :
    Fails ps (written ++ others) := by
  intro lines
  rw [append_assoc, reads, fails]

theorem Fails.append {written : List (List UInt8)} (fails : Fails ps written)
    (others : List (List UInt8)) : Fails ps (written ++ others) := by
  intro lines
  rw [append_assoc, fails]

theorem Heads.fails {under : Under} {stk : List Frame} {written : List (List UInt8)}
    (heads : Heads under ps lead column place nodes stk)
    (fails : Fails ⟨nodes, stk, some (place, (column : Int))⟩ written) :
    Fails ps (lead :: written) := by
  intro lines
  rw [cons_append, run_cons (heads.alone _), fails]

mutual

theorem Block.fails {under : Under} {ps : Parser} {lead : List UInt8} {column place : Nat}
    {nodes : List Node} {stk : List Frame} (filled : stk ≠ []) :
    ∀ block : Block under, Heads under ps lead column place nodes stk → Bare nodes place →
      ¬block.Clear → Fails ps (block.lines column lead)
  | .scalar _, _, _, unclear => absurd trivial unclear
  | .map step entries, heads, bare, unclear =>
    heads.fails (entries.fails (leads_pending filled bare (by omega)) (bare.ready .map)
      (setNode_typeAt bare) unclear)
  | .seq step items, heads, bare, unclear =>
    heads.fails (items.fails (openFor_pending filled (.inl (by omega))) (bare.ready .seq)
      (setNode_typeAt bare) unclear)
  | .level items, heads, bare, unclear =>
    heads.fails (items.fails (openFor_pending filled (.inr ⟨rfl, rfl⟩)) (bare.ready .seq)
      (setNode_typeAt bare) unclear)
  | .compact entries, heads, bare, unclear =>
    entries.fails (heads.compact rfl) (bare.ready .map) (setNode_typeAt bare) unclear

theorem Entries.fails {ps : Parser} {lead : List UInt8} {column map : Nat} {nodes : List Node}
    {below : List Frame} : ∀ entries : Entries,
      Leads ps lead map column nodes (⟨map, column⟩ :: below) → Ready nodes map →
        typeAt nodes map = some .map → ¬entries.Clear → Fails ps (entries.lines column lead)
  | .last key value, leads, ready, _, unclear =>
    value.fails (cons_ne_nil _ _) (leads.heads key) (newChild_bare ready) unclear
  | .more key value rest, leads, ready, typed, unclear => by
    have heads := leads.heads key
    have bare := @newChild_bare nodes map (some key.bytes) ready
    by_cases clear : value.Clear
    · have fills := value.build_fills bare
      obtain ⟨extra, leaves, reads⟩ := value.reads (cons_ne_nil _ _) heads bare clear
      refine reads.fails ?_
      cases level : value.isLevel with
      | true =>
        -- The sequence is still open when the next key comes.
        obtain ⟨above, seq, rfl, deeper, typedSeq⟩ := leaves.level level
        intro lines
        rw [append_assoc]
        exact refused_level deeper typedSeq rest
      | false =>
        have unclearRest : ¬rest.Clear := fun clearRest => unclear ⟨level, clear, clearRest⟩
        have readyAfter := (filled_ready (fun later place => value.Shown later place) ready fills).1
        have typedAfter := (child_typeAt ready fills).trans typed
        exact rest.fails (leads_next (leaves.deeper level) typedAfter) readyAfter typedAfter unclearRest
    · exact (value.fails (cons_ne_nil _ _) heads bare clear).append _

theorem Items.fails {ps : Parser} {column seq : Nat} {nodes : List Node} {below : List Frame} :
    ∀ items : Items, ps.openFor true column = some (⟨nodes, ⟨seq, column⟩ :: below, none⟩, ⟨seq, column⟩) →
        Ready nodes seq → typeAt nodes seq = some .seq → ¬items.Clear → Fails ps (items.lines column)
  | .last item, opens, ready, typed, unclear =>
    item.fails (cons_ne_nil _ _) (heads_dash opens typed) (newChild_bare ready) unclear
  | .more item rest, opens, ready, typed, unclear => by
    have heads := heads_dash opens typed
    have bare := @newChild_bare nodes seq none ready
    by_cases clear : item.Clear
    · have fills := item.build_fills bare
      obtain ⟨extra, leaves, reads⟩ := item.reads (cons_ne_nil _ _) heads bare clear
      have unclearRest : ¬rest.Clear := fun clearRest => unclear ⟨clear, clearRest⟩
      have readyAfter := (filled_ready (fun later place => item.Shown later place) ready fills).1
      have typedAfter := (child_typeAt ready fills).trans typed
      exact reads.fails (rest.fails (openFor_level (leaves.deeper item.dash_notLevel) typedAfter nofun)
        readyAfter typedAfter unclearRest)
    · exact (item.fails (cons_ne_nil _ _) heads bare clear).append _

end

variable {column : Nat}

theorem linesOf_cons : ∀ {line : List UInt8}, 0x0A ∉ line → ∀ rest : List UInt8,
    linesOf (line ++ [0x0A] ++ rest) = line :: linesOf rest
  | [], _, rest => by rw [nil_append, singleton_append, linesOf, if_pos rfl]
  | c :: line, whole, rest => by
    rw [mem_cons, not_or] at whole
    have others := linesOf_cons whole.2 rest
    rw [cons_append, cons_append, linesOf, if_neg (Ne.symm whole.1), others]

theorem linesOf_text {lines : List (List UInt8)} (whole : ∀ line ∈ lines, 0x0A ∉ line) :
    linesOf (lines.flatMap fun line => line ++ [0x0A]) = lines := by
  induction lines with
  | nil => rfl
  | cons line lines ih =>
    rw [flatMap_cons, linesOf_cons (whole line mem_cons_self),
      ih fun other listed => whole other (mem_cons_of_mem _ listed)]

theorem Text.whole (text : Text) : 0x0A ∉ text.bytes := by
  intro listed
  exact absurd (text.safe.line _ listed) (by decide)

theorem spaces_whole (column : Nat) : 0x0A ∉ spaces column := by
  intro listed
  exact absurd (eq_of_mem_replicate listed) (by decide)

mutual

theorem Block.lines_whole {under : Under} {column : Nat} {lead : List UInt8} :
    ∀ block : Block under, 0x0A ∉ lead → ∀ line ∈ block.lines column lead, 0x0A ∉ line
  | .scalar text, whole => by
    have := text.whole
    simp_all [Block.lines]
  | .map step entries, whole => forall_mem_cons.2 ⟨whole, entries.lines_whole (spaces_whole _)⟩
  | .seq step items, whole => forall_mem_cons.2 ⟨whole, items.lines_whole⟩
  | .level items, whole => forall_mem_cons.2 ⟨whole, items.lines_whole⟩
  | .compact entries, whole => entries.lines_whole (by simpa using whole)

theorem Entries.lines_whole {column : Nat} {lead : List UInt8} :
    ∀ entries : Entries, 0x0A ∉ lead → ∀ line ∈ entries.lines column lead, 0x0A ∉ line
  | .last key value, whole => value.lines_whole (by have := key.whole; simp_all)
  | .more key value rest, whole =>
    forall_mem_append.2 ⟨value.lines_whole (by have := key.whole; simp_all),
      rest.lines_whole (spaces_whole column)⟩

theorem Items.lines_whole {column : Nat} : ∀ items : Items, ∀ line ∈ items.lines column, 0x0A ∉ line
  | .last item => item.lines_whole (by have := spaces_whole column; simp_all)
  | .more item rest =>
    forall_mem_append.2 ⟨item.lines_whole (by have := spaces_whole column; simp_all),
      rest.lines_whole⟩

end

theorem withoutMark_eq {text : List UInt8} (unmarked : ¬[0xEF, 0xBB, 0xBF] <+: text) :
    withoutMark text = text := by
  unfold withoutMark
  split
  · rename_i rest
    exact absurd ⟨rest, rfl⟩ unmarked
  · rfl

theorem Text.unmarked (text : Text) {c : UInt8} (apart : c ≠ 0xBB ∧ c ≠ 0xBF) (rest : List UInt8) :
    ¬[0xEF, 0xBB, 0xBF] <+: text.bytes ++ c :: rest := by
  have filled := text.safe.filled
  have unmarked := text.safe.unmarked
  match cut : text.bytes with
  | [] => exact absurd cut filled
  | [_] => simp [apart.1.symm]
  | [_, _] => simp [apart.2.symm]
  | a :: b :: d :: others =>
    rw [cut] at unmarked
    simpa using unmarked

theorem Block.starts (lead : List UInt8) : ∀ item : Block .dash, ∃ tail more,
    item.lines column lead = (lead ++ tail) :: more
  | .scalar text => ⟨_, [], rfl⟩
  | .map _ _ => ⟨[], _, by rw [Block.lines, append_nil]⟩
  | .seq _ _ => ⟨[], _, by rw [Block.lines, append_nil]⟩
  | .compact entries => by
    obtain ⟨key, tail, more, _, cut⟩ := @Entries.first_line (column + 2) (lead ++ [0x20]) entries
    exact ⟨_, more, by rw [Block.lines, cut, append_assoc]⟩

theorem Items.first_line (items : Items) : ∃ tail more,
    items.lines column = (spaces column ++ 0x2D :: tail) :: more := by
  cases items with
  | last item =>
    obtain ⟨tail, more, cut⟩ := @Block.starts column (spaces column ++ [0x2D]) item
    exact ⟨tail, more, by rw [Items.lines, cut, append_assoc]; rfl⟩
  | more item rest =>
    obtain ⟨tail, more, cut⟩ := @Block.starts column (spaces column ++ [0x2D]) item
    exact ⟨tail, more ++ rest.lines column, by rw [Items.lines, cut, append_assoc]; rfl⟩

theorem Document.lines_whole (document : Document) : ∀ line ∈ document.lines, 0x0A ∉ line := by
  cases document with
  | scalar text => exact forall_mem_singleton.2 text.whole
  | map entries => exact entries.lines_whole (spaces_whole 0)
  | seq items => exact items.lines_whole

theorem Document.unmarked (document : Document) : ¬[0xEF, 0xBB, 0xBF] <+: document.text := by
  cases document with
  | scalar text =>
    have := @Text.unmarked text 0x0A (by decide) []
    simpa [Document.text, Document.lines] using this
  | map entries =>
    obtain ⟨key, tail, more, _, cut⟩ := @Entries.first_line 0 (spaces 0) entries
    have := fun rest => @Text.unmarked key 0x3A (by decide) rest
    rw [Document.text, Document.lines, cut, flatMap_cons]
    simpa [spaces] using this _
  | seq items =>
    obtain ⟨tail, more, cut⟩ := @Items.first_line 0 items
    rw [Document.text, Document.lines, cut, flatMap_cons]
    simp [spaces]

theorem Document.parse (document : Document) : ryamlParse document.text =
    (start.run document.lines 0).map fun ps => ⟨ps.nodes⟩ := by
  rw [ryamlParse, withoutMark_eq document.unmarked, Document.text, linesOf_text document.lines_whole]

theorem start_bare : Bare start.nodes 0 := ⟨_, rfl, rfl, rfl, rfl⟩

theorem openFor_start (isSeq : Bool) : start.openFor isSeq (0 : Nat) =
    some (⟨setNode start.nodes 0 fun n => { n with type := if isSeq then .seq else .map },
      [⟨0, (0 : Nat)⟩], none⟩, ⟨0, (0 : Nat)⟩) := by
  cases isSeq <;> rfl

theorem leads_start : Leads start (spaces 0) 0 0
    (setNode start.nodes 0 fun n => { n with type := .map }) [⟨0, (0 : Nat)⟩] := by
  intro key tail lines short
  rw [pass_key key short (openFor_start false)]
  exact if_pos (setNode_typeAt start_bare)

theorem refuses_text (text : Text) : start.pass text.bytes [] = none := by
  have noColon := text.findKeyColon
  have noDash := text.safe.dash
  obtain ⟨c, rest, cut, starts⟩ := text.start
  obtain ⟨notSpace, notTab, notReturn, notComment, _⟩ := starts.ne
  obtain ⟨indent, content⟩ := @indented 0 text.bytes (by rw [cut]; simpa using notSpace)
  have filled : ryamlLineIsBlank text.bytes = false := by
    rw [cut, ryamlLineIsBlank, dropWhile_cons_of_neg (by simp [starts.1])]
    simpa using notReturn
  have first : text.bytes.head? = some c := by rw [cut]; rfl
  rw [spaces, replicate_zero, nil_append] at indent content
  rw [Parser.pass, indent, content, filled, first, if_neg (by simpa using notComment),
    if_neg (by simpa using notTab), noDash]
  dsimp only
  rw [openFor_start, Option.bind_some, noColon]
  rfl

theorem readBack_of_run {document : Document} {nodes : List Node} {stk : List Frame}
    (fills : Fills start.nodes nodes 0 fun later => document.Shown later)
    (ran : start.run document.lines 0 = some ⟨nodes, stk, none⟩) : document.ReadBack := by
  obtain ⟨n, root, old, new, key, parent, next⟩ := fills.placed
  cases Option.some.inj old
  refine ⟨⟨nodes⟩, root, ?_, new, key, parent, next, ?_⟩
  · rw [document.parse, ran]
    rfl
  · refine fills.shown nodes (fun _ _ _ => rfl) ⟨root.nextSibling, ?_⟩
    rw [new]
    rfl

theorem Document.reads_of_readable (document : Document) (readable : document.Readable) :
    document.ReadBack := by
  cases document with
  | scalar text => exact absurd readable id
  | map entries =>
    have fills := (Block.map 0 entries : Block .dash).build_fills start_bare
    obtain ⟨extra, _, reads⟩ := entries.reads leads_start (start_bare.ready .map)
      (setNode_typeAt start_bare) readable
    have ran := reads []
    rw [append_nil] at ran
    exact @readBack_of_run (.map entries) _ _ fills ran
  | seq items =>
    have fills := (Block.seq 0 items : Block .dash).build_fills start_bare
    obtain ⟨extra, _, reads⟩ := items.reads (openFor_start true) (start_bare.ready .seq)
      (setNode_typeAt start_bare) readable
    have ran := reads []
    rw [append_nil] at ran
    exact @readBack_of_run (.seq items) _ _ fills ran

theorem Document.refused_of_not_readable (document : Document) (unreadable : ¬document.Readable) :
    ryamlParse document.text = none := by
  have refused : start.run document.lines 0 = none := by
    cases document with
    | scalar text => exact run_refused (refuses_text text)
    | map entries =>
      have fails := entries.fails leads_start (start_bare.ready .map) (setNode_typeAt start_bare)
        unreadable []
      rwa [append_nil] at fails
    | seq items =>
      have fails := items.fails (openFor_start true) (start_bare.ready .seq)
        (setNode_typeAt start_bare) unreadable []
      rwa [append_nil] at fails
  rw [document.parse, refused]
  rfl

theorem Document.readBack_iff (document : Document) : document.ReadBack ↔ document.Readable := by
  constructor
  · rintro ⟨tree, root, parsed, _⟩
    by_contra unreadable
    exact nomatch (document.refused_of_not_readable unreadable).symm.trans parsed
  · exact document.reads_of_readable

/-- A text of one byte. -/
def single (c : UInt8)
    (safe : isBreak c = false ∧ isSpace c = false ∧ c ∉ indicators ∧ c ≠ 0x3A ∧ c ≠ 0x2D) : Text where
  bytes := [c]
  safe := by
    obtain ⟨notBreak, notSpace, notIndicator, notColon, notDash⟩ := safe
    refine ⟨List.cons_ne_nil _ _, ?_, ?_, ?_, ?_, .singleton c, ?_⟩
    · exact List.forall_mem_singleton.2 notBreak
    · rintro _ ⟨⟩
      exact ⟨notSpace, notIndicator⟩
    · rw [isSeqItem, beq_eq_false_iff_ne.2 notDash, Bool.false_and]
    · rintro _ ⟨⟩
      exact ⟨notSpace, notColon⟩
    · rintro ⟨rest, long⟩
      exact absurd (congrArg List.length long) (by simp)

/-- A mapping with a sequence at its key's own indentation, and another key behind. -/
def keyBehindLevel : Document :=
  .map (.more (single 0x61 (by decide)) (.level (.last (.scalar (single 0x78 (by decide)))))
    (.last (single 0x62 (by decide)) (.scalar (single 0x79 (by decide)))))

theorem keyBehindLevel_refused : ¬∀ document : Document, document.ReadBack := by
  intro all
  obtain ⟨tree, _, parsed, _⟩ := all keyBehindLevel
  have refused : ryamlParse keyBehindLevel.text = none := rfl
  exact nomatch refused.symm.trans parsed

end Libretro.Ryaml
