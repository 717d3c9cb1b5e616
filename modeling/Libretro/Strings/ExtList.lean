import Libretro.Library.CString
import Libretro.Library.Pieces

/-! Merging a list of extensions into a buffer, each of them once. -/

namespace Libretro.Strings

open CString List Pieces Nat

/-- The separator of extensions. -/
def bar : UInt8 := 124

/-- The tokens of what is left are compared with an extension one by one. A turn of the loop leaves
less. -/
def findLoop (ext : List UInt8) : Nat → List UInt8 → Bool
  | 0, _ => false
  | turns + 1, p =>
    if p = [] then false
    else
      let tok := p.takeWhile (· ≠ bar)
      if tok = ext then true else findLoop ext turns (p.drop (tok.length + 1))

/-- Whether an extension is a token of a string. -/
def stringExtListFind (delimStr ext : List UInt8) : Bool := findLoop ext delimStr.length delimStr

/-- A buffer and how long its contents are. -/
structure Buffer where
  dst : List UInt8
  dstLen : Nat
deriving DecidableEq

/-- A separator is written behind contents that are not empty. -/
def Buffer.separate (buffer : Buffer) : Buffer :=
  if 0 < buffer.dstLen then ⟨splice buffer.dst buffer.dstLen [bar], buffer.dstLen + 1⟩ else buffer

/-- An extension is appended unless it is empty, already there or too long for the buffer. -/
def stringExtListAppendDedup (buffer : Buffer) (dstSize : Nat) (ext : List UInt8) : Buffer :=
  if ext.length = 0 then buffer
  else if stringExtListFind (slice buffer.dst 0 buffer.dstLen) ext then buffer
  else if dstSize < buffer.dstLen + 1 + ext.length + 1 then buffer
  else
    let buffer := buffer.separate
    ⟨splice buffer.dst buffer.dstLen (ext ++ [0]), buffer.dstLen + ext.length⟩

/-- The tokens of what is left of the source are appended one by one. -/
def mergeLoop (dstSize : Nat) : Nat → List UInt8 → Buffer → Buffer
  | 0, _, buffer => buffer
  | turns + 1, p, buffer =>
    if p = [] then buffer
    else
      let tok := p.takeWhile (· ≠ bar)
      let buffer := if 0 < tok.length then stringExtListAppendDedup buffer dstSize tok else buffer
      mergeLoop dstSize turns (p.drop (tok.length + 1)) buffer

/-- The extensions of a source, unless it is missing or empty, are merged into a buffer. -/
def stringExtListMergeDedup (buffer : Buffer) (dstSize : Nat) (src : Option Str) : Buffer :=
  match src with
  | none => buffer
  | some src => mergeLoop dstSize src.bytes.length src.bytes buffer

/-- The tokens of a string; an empty one has none. -/
def extTokens (contents : List UInt8) : List (List UInt8) :=
  if contents = [] then [] else contents.splitOn bar

/-- A buffer of a size whose contents, none of which is zero, have a terminator behind them. -/
structure Buffer.Holds (buffer : Buffer) (dstSize : Nat) (contents : List UInt8) : Prop where
  size : buffer.dst.length = dstSize
  length : buffer.dstLen = contents.length
  clear : (0 : UInt8) ∉ contents
  ends : ∃ tail, buffer.dst = contents ++ 0 :: tail

/-- The contents with one extension more. -/
def withExt (contents ext : List UInt8) : List UInt8 := if contents = [] then ext else contents ++ bar :: ext

/-- The tokens that are appended to the contents, one after another: those that are new when they
are reached and have room then for themselves, a separator and the terminator. -/
def kept (dstSize : Nat) : List UInt8 → List (List UInt8) → List (List UInt8)
  | _, [] => []
  | contents, token :: rest =>
    if token ∈ extTokens contents ∨ dstSize < contents.length + 1 + token.length + 1 then
      kept dstSize contents rest
    else token :: kept dstSize (withExt contents token) rest

theorem bar_cases (p : List UInt8) : bar ∉ p ∨ ∃ run rest, p = run ++ bar :: rest ∧ bar ∉ run := by
  by_cases there : bar ∈ p
  · obtain ⟨run, rest, split, absent⟩ := eq_append_cons_of_mem there
    exact .inr ⟨run, rest, split, absent⟩
  · exact .inl there

theorem takeWhile_bar {run : List UInt8} (absent : bar ∉ run) (rest : List UInt8) :
    (run ++ bar :: rest).takeWhile (· ≠ bar) = run ∧ (run ++ bar :: rest).drop (run.length + 1) = rest := by
  refine ⟨takeWhile_absent absent, ?_⟩
  rw [drop_length_add_append, drop_succ_cons, drop_zero]

theorem takeWhile_none {run : List UInt8} (absent : bar ∉ run) :
    run.takeWhile (· ≠ bar) = run ∧ run.drop (run.length + 1) = [] := by
  refine ⟨?_, drop_of_length_le (le_succ _)⟩
  rw [takeWhile_eq_self_iff]
  intro byte listed
  rw [decide_eq_true_eq]
  exact fun same => absent (same ▸ listed)

variable {dstSize : Nat} {buffer : Buffer} {contents ext : List UInt8}

theorem findLoop_eq (some : ext ≠ []) (turns : Nat) (p : List UInt8) (enough : p.length ≤ turns) :
    findLoop ext turns p = decide (ext ∈ p.splitOn bar) := by
  -- The induction follows the turns; an empty rest has an empty piece only.
  induction turns generalizing p with
  | zero =>
    obtain rfl := eq_nil_of_length_eq_zero (le_zero.1 enough)
    simp [findLoop, some]
  | succ turns ih =>
    rw [findLoop]
    by_cases empty : p = []
    · simp [empty, some]
    rw [if_neg empty]
    rcases bar_cases p with absent | ⟨run, rest, rfl, absent⟩
    · -- The last token is compared, and nothing is left.
      obtain ⟨front, behind⟩ := takeWhile_none absent
      simp only [front, behind]
      rw [ih [] (zero_le _), splitOn_eq_singleton absent, splitOn_nil]
      simp [some, eq_comm]
    · obtain ⟨front, behind⟩ := takeWhile_bar absent rest
      simp only [front, behind]
      rw [length_append, length_cons] at enough
      rw [ih rest (by omega), splitOn_append_cons_self_of_not_mem absent]
      by_cases here : run = ext
      · simp [here]
      · simp [here, Ne.symm here]

theorem stringExtListFind_eq (some : ext ≠ []) :
    stringExtListFind contents ext = decide (ext ∈ extTokens contents) := by
  rw [stringExtListFind, findLoop_eq some _ _ (le_refl _), extTokens]
  split
  · rename_i empty
    simp [empty, some]
  · rfl

theorem extTokens_withExt (some : ext ≠ []) (absent : bar ∉ ext) :
    extTokens (withExt contents ext) = extTokens contents ++ [ext] := by
  rw [withExt]
  by_cases empty : contents = []
  · rw [if_pos empty, empty, extTokens, if_neg some, splitOn_eq_singleton absent]
    rfl
  · rw [if_neg empty, extTokens, if_neg (by simp), extTokens, if_neg empty,
      splitOn_append_cons_self, splitOn_eq_singleton absent]

theorem Buffer.Holds.slice (holds : buffer.Holds dstSize contents) :
    CString.slice buffer.dst 0 buffer.dstLen = contents := by
  obtain ⟨tail, ends⟩ := holds.ends
  rw [CString.slice, drop_zero, holds.length, ends, take_left]

theorem splice_behind (front tail : List UInt8) {bytes middle : List UInt8}
    (same : bytes.length = middle.length) :
    splice (front ++ (middle ++ tail)) front.length bytes = front ++ (bytes ++ tail) := by
  rw [splice, take_left, same, ← drop_drop, drop_left, drop_left, append_assoc]

theorem Buffer.Holds.append (holds : buffer.Holds dstSize contents) (clear : (0 : UInt8) ∉ ext)
    (room : contents.length + 1 + ext.length + 1 ≤ dstSize) :
    Buffer.Holds ⟨splice buffer.separate.dst buffer.separate.dstLen (ext ++ [0]),
      buffer.separate.dstLen + ext.length⟩ dstSize (withExt contents ext) := by
  obtain ⟨tail, ends⟩ := holds.ends
  have size := holds.size
  rw [ends, length_append, length_cons] at size
  by_cases empty : contents = []
  · -- The first extension has no separator in front of it.
    subst empty
    have nothing : ¬ 0 < buffer.dstLen := by
      rw [holds.length]
      exact lt_irrefl 0
    obtain ⟨taken, rest, split, taken_length⟩ : ∃ taken rest, 0 :: tail = taken ++ rest ∧
        (ext ++ [0]).length = taken.length := by
      refine ⟨_, _, (take_append_drop (ext.length + 1) _).symm, ?_⟩
      rw [length_take_of_le (by rw [length_cons, length_nil] at *; omega),
        length_append, length_singleton]
    have written : splice buffer.dst 0 (ext ++ [0]) = ext ++ 0 :: rest := by
      have at_ := splice_behind [] rest taken_length
      rw [ends, nil_append, split]
      simpa using at_
    have zero : buffer.dstLen = 0 := holds.length
    rw [Buffer.separate, if_neg nothing, zero, written, withExt, if_pos rfl]
    refine ⟨?_, zero_add _, clear, rest, rfl⟩
    have lengths := congrArg List.length split
    simp only [length_append, length_cons, length_nil] at *
    omega
  · have some : 0 < buffer.dstLen := by
      rw [holds.length]
      exact length_pos_iff.2 empty
    obtain ⟨taken, rest, split, taken_length⟩ : ∃ taken rest, tail = taken ++ rest ∧
        (ext ++ [0]).length = taken.length := by
      refine ⟨_, _, (take_append_drop (ext.length + 1) _).symm, ?_⟩
      rw [length_take_of_le (by omega), length_append, length_singleton]
    have separated : splice buffer.dst contents.length [bar] = contents ++ bar :: tail := by
      have at_ := splice_behind contents tail (show [bar].length = [(0 : UInt8)].length from rfl)
      rw [ends]
      exact at_
    have written : splice (contents ++ bar :: tail) (contents.length + 1) (ext ++ [0]) =
        (contents ++ bar :: ext) ++ 0 :: rest := by
      have at_ := splice_behind (contents ++ [bar]) rest taken_length
      rw [split]
      simpa using at_
    rw [Buffer.separate, if_pos some, holds.length, separated, written, withExt, if_neg empty]
    refine ⟨?_, ?_, ?_, rest, rfl⟩
    · have lengths := congrArg List.length split
      simp only [length_append, length_cons, length_nil] at *
      omega
    · dsimp only
      rw [length_append, length_cons]
      omega
    · rw [mem_append, mem_cons, not_or, not_or]
      exact ⟨holds.clear, by decide, clear⟩

theorem Buffer.Holds.appendDedup (holds : buffer.Holds dstSize contents) (some : ext ≠ [])
    (clear : (0 : UInt8) ∉ ext) :
    (stringExtListAppendDedup buffer dstSize ext).Holds dstSize
      (if ext ∈ extTokens contents ∨ dstSize < contents.length + 1 + ext.length + 1 then contents
        else withExt contents ext) := by
  have positive := length_pos_iff.2 some
  rw [stringExtListAppendDedup, if_neg (by omega), holds.slice, stringExtListFind_eq some,
    holds.length]
  by_cases there : ext ∈ extTokens contents
  · rw [if_pos (by simpa using there), if_pos (.inl there)]
    exact holds
  rw [if_neg (by simpa using there)]
  by_cases long : dstSize < contents.length + 1 + ext.length + 1
  · rw [if_pos long, if_pos (.inr long)]
    exact holds
  · rw [if_neg long, if_neg (not_or.2 ⟨there, long⟩)]
    exact holds.append clear (by omega)

/-- The separators of extensions, as a predicate. -/
def isBar (byte : UInt8) : Bool := byte == bar

theorem kept_foldl (token : List UInt8) (rest : List (List UInt8)) :
    (kept dstSize contents (token :: rest)).foldl withExt contents = (kept dstSize
        (if token ∈ extTokens contents ∨ dstSize < contents.length + 1 + token.length + 1 then
          contents
        else withExt contents token) rest).foldl withExt
        (if token ∈ extTokens contents ∨ dstSize < contents.length + 1 + token.length + 1 then
          contents
        else withExt contents token) := by
  rw [kept]
  split
  · rfl
  · rfl

theorem mergeLoop_holds (turns : Nat) (p : List UInt8) (enough : p.length ≤ turns)
    (clear : (0 : UInt8) ∉ p) (holds : buffer.Holds dstSize contents) :
    (mergeLoop dstSize turns p buffer).Holds dstSize
      ((kept dstSize contents (tokens isBar p)).foldl withExt contents) := by
  -- The induction follows the turns; each takes what is in front of one separator.
  induction turns generalizing p buffer contents with
  | zero =>
    obtain rfl := eq_nil_of_length_eq_zero (le_zero.1 enough)
    exact holds
  | succ turns ih =>
    rw [mergeLoop]
    by_cases empty : p = []
    · rw [if_pos empty, empty]
      exact holds
    rw [if_neg empty]
    have plain {run : List UInt8} (absent : bar ∉ run) : ∀ byte ∈ run, isBar byte = false := by
      intro byte listed
      rw [isBar, beq_eq_false_iff_ne]
      exact fun same => absent (same ▸ listed)
    rcases bar_cases p with absent | ⟨run, rest, rfl, absent⟩
    · -- The last token has nothing behind it.
      obtain ⟨front, behind⟩ := takeWhile_none absent
      simp only [front, behind]
      rw [tokens_run (plain absent) empty, kept_foldl, if_pos (length_pos_iff.2 empty)]
      exact ih [] (zero_le _) not_mem_nil (holds.appendDedup empty clear)
    · obtain ⟨front, behind⟩ := takeWhile_bar absent rest
      simp only [front, behind]
      rw [mem_append, mem_cons, not_or, not_or] at clear
      rw [length_append, length_cons] at enough
      rw [tokens_run_cons (plain absent) (by decide)]
      by_cases none_ : run = []
      · -- Nothing is in front of the separator.
        rw [if_pos none_, nil_append, none_, length_nil, if_neg (lt_irrefl 0)]
        exact ih rest (by omega) clear.2.2 holds
      · rw [if_neg none_, singleton_append, kept_foldl,
          if_pos (length_pos_iff.2 none_)]
        exact ih rest (by omega) clear.2.2 (holds.appendDedup none_ clear.1)

theorem extTokens_foldl {list : List (List UInt8)} (plain : ∀ token ∈ list, token ≠ [] ∧ bar ∉ token) :
    extTokens ((kept dstSize contents list).foldl withExt contents) =
      extTokens contents ++ kept dstSize contents list := by
  -- The induction follows the tokens, behind any contents.
  induction list generalizing contents with
  | nil => rw [kept, foldl_nil, append_nil]
  | cons token rest ih =>
    have later := fun other (listed : other ∈ rest) => plain other (mem_cons_of_mem _ listed)
    obtain ⟨some, absent⟩ := plain token mem_cons_self
    rw [kept]
    split
    · exact ih later
    · rw [foldl_cons, ih later, extTokens_withExt some absent, append_assoc]
      rfl

theorem kept_sublist (list : List (List UInt8)) : (kept dstSize contents list).Sublist list := by
  induction list generalizing contents with
  | nil => exact List.Sublist.refl _
  | cons token rest ih =>
    rw [kept]
    split
    · exact ih.cons token
    · exact ih.cons_cons token

theorem kept_nodup {list : List (List UInt8)} (plain : ∀ token ∈ list, token ≠ [] ∧ bar ∉ token)
    (nodup : (extTokens contents).Nodup) :
    (extTokens contents ++ kept dstSize contents list).Nodup := by
  induction list generalizing contents with
  | nil => rwa [kept, append_nil]
  | cons token rest ih =>
    have later := fun other (listed : other ∈ rest) => plain other (mem_cons_of_mem _ listed)
    obtain ⟨some, absent⟩ := plain token mem_cons_self
    rw [kept]
    split
    · exact ih later nodup
    · rename_i taken
      rw [not_or] at taken
      have more : (extTokens (withExt contents token)).Nodup := by
        rw [extTokens_withExt some absent, nodup_append]
        refine ⟨nodup, nodup_cons.2 ⟨not_mem_nil, nodup_nil⟩, ?_⟩
        rintro old listed _ single rfl
        exact taken.1 (mem_singleton.1 single ▸ listed)
      have whole := ih later more
      rw [extTokens_withExt some absent, append_assoc] at whole
      exact whole

/-- Merging a source into a buffer leaves the old tokens and behind them, in order, the tokens of
the source that are new and have room when they are reached; none of them is cut off or there
twice, and the contents end in a terminator inside the buffer. -/
theorem merge_holds (holds : buffer.Holds dstSize contents) (src : Str) (nodup : (extTokens contents).Nodup) :
    ∃ after, (stringExtListMergeDedup buffer dstSize (some src)).Holds dstSize after ∧
      extTokens after = extTokens contents ++ kept dstSize contents (tokens isBar src.bytes) ∧
      (kept dstSize contents (tokens isBar src.bytes)).Sublist (tokens isBar src.bytes) ∧
      (extTokens after).Nodup := by
  have plain : ∀ token ∈ tokens isBar src.bytes, token ≠ [] ∧ bar ∉ token := by
    intro token listed
    refine ⟨mem_tokens listed, ?_⟩
    have piece := (mem_filter.1 listed).1
    exact (mem_splitOn piece).1
  refine ⟨_, mergeLoop_holds _ _ (le_refl _) src.clear holds, extTokens_foldl plain, kept_sublist _, ?_⟩
  rw [extTokens_foldl plain]
  exact kept_nodup plain nodup

/-- One token of a source is in the buffer already, another one is new. -/
theorem merge_holds_cue : ∃ after, (stringExtListMergeDedup ⟨[98, 105, 110, 0, 0, 0, 0, 0], 3⟩ 8
        (some ⟨[98, 105, 124, 98, 105, 110], by decide⟩)).Holds 8 after ∧
      extTokens after = [[98, 105, 110], [98, 105]] := by
  have holds : Buffer.Holds ⟨[98, 105, 110, 0, 0, 0, 0, 0], 3⟩ 8 [98, 105, 110] :=
    ⟨rfl, rfl, by decide, _, rfl⟩
  obtain ⟨after, left, tokens_, -⟩ := merge_holds holds ⟨[98, 105, 124, 98, 105, 110], by decide⟩ (by decide)
  exact ⟨after, left, tokens_.trans (by decide)⟩

/-- Behind a token that does not fit, a shorter one is appended all the same. -/
theorem merge_holds_skips : ¬ ∀ (buffer : Buffer) (dstSize : Nat) (contents : List UInt8) (src : Str),
    buffer.Holds dstSize contents → (extTokens contents).Nodup →
      ∃ after count, (stringExtListMergeDedup buffer dstSize (some src)).Holds dstSize after ∧
        extTokens after = extTokens contents ++
          (((tokens isBar src.bytes).filter (· ∉ extTokens contents)).eraseDups.take count) := by
  intro claimed
  obtain ⟨after, count, left, tokens_⟩ := claimed ⟨[0, 0, 0, 0], 0⟩ 4 []
    ⟨[97, 98, 99, 100, 124, 101], by decide⟩ ⟨rfl, rfl, by decide, _, rfl⟩ (by decide)
  obtain ⟨tail, ends⟩ := left.ends
  have length : 1 = after.length := left.length
  -- The buffer holds the second token of the source alone.
  have value : [101] = after := by
    have taken := congrArg (take 1) ends
    rw [length, take_left, ← length] at taken
    exact taken
  have source : ((tokens isBar [97, 98, 99, 100, 124, 101]).filter
      (· ∉ extTokens [])).eraseDups = [[97, 98, 99, 100], [101]] := by decide
  have single : extTokens [101] = [[101]] := by decide
  have none_old : extTokens [] = [] := by decide
  rw [← value, source, single, none_old, nil_append] at tokens_
  cases count with
  | zero => exact absurd tokens_ (by decide)
  | succ count =>
    have first : some ([101] : List UInt8) = some [97, 98, 99, 100] := congrArg head? tokens_
    exact absurd first (by decide)

end Libretro.Strings
