import Libretro.Library.CString
import Libretro.Library.Pieces
import Libretro.Library.Substring
import Libretro.Library.Unicode
import Libretro.Strings.Append
import Mathlib.Algebra.GroupWithZero.Nat
import Mathlib.Data.Int.Basic
import Mathlib.Data.List.TakeWhile

/-! Lists of strings: finding one whatever its case, splitting at a delimiter, joining. -/

namespace Libretro.Lists

open List

open CString (Str)

/-- Two strings in memory are compared byte by byte without the bit of the letters' case; `none`
when a byte behind a terminator is read. -/
def sameElem : List UInt8 → List UInt8 → Option Bool
  | c1 :: p1, c2 :: p2 =>
    if c1 ||| 32 = c2 ||| 32 ∨ c1 = c2 then
      if c1 = 0 then some true else sameElem p1 p2
    else some false
  | _, _ => none

/-- The index that is returned is an `int`. -/
def toInt (index : Nat) : Int := (index : Int).bmod (2 ^ 32)

/-- The elements from an index on are compared until one is the same. -/
def findElemLoop (elem : Str) : Nat → List Str → Option Int
  | _, [] => some 0
  | i, data :: rest =>
    match sameElem data.memory elem.memory with
    | none => none
    | some true => some (toInt (i + 1))
    | some false => findElemLoop elem (i + 1) rest

/-- The index of an element, counted from one, or zero. -/
def stringListFindElem (list : List Str) (elem : Str) : Option Int := findElemLoop elem 0 list

/-- The lower case of a letter, and every other byte as it is. -/
def lower (c : UInt8) : UInt8 := if 0x41 ≤ c ∧ c ≤ 0x5A then c + 32 else c

/-- Two strings are the same but for the case of their letters. -/
def SameText (a b : Str) : Prop := a.bytes.map lower = b.bytes.map lower

instance (a b : Str) : Decidable (SameText a b) := inferInstanceAs (Decidable (_ = _))

/-- Two strings are alike but for one bit of each byte, up to where the first of them ends. -/
def AlikeBytes (p1 p2 : List UInt8) : Prop :=
  ∀ place ≤ min p1.length p2.length, (p1 ++ [0]).getD place 0 ||| 32 = (p2 ++ [0]).getD place 0 ||| 32

instance (p1 p2 : List UInt8) : Decidable (AlikeBytes p1 p2) := inferInstanceAs (Decidable (∀ place ≤ _, _))

/-- Two strings are alike, whatever the one bit of their bytes. -/
abbrev Alike (a b : Str) : Prop := AlikeBytes a.bytes b.bytes

/-- The index that should be returned. -/
def expectedIndex (list : List Str) (elem : Str) : Nat :=
  if ∃ data ∈ list, SameText data elem then list.findIdx (SameText · elem) + 1 else 0

section Bytes

theorem lower_or (c : UInt8) : lower c ||| 32 = c ||| 32 := by
  revert c
  exact Utf8.forall_byte (by decide +kernel)

theorem or_eq_of_lower {c1 c2 : UInt8} (same : lower c1 = lower c2) : c1 ||| 32 = c2 ||| 32 := by
  rw [← lower_or c1, ← lower_or c2, same]

end Bytes

section Comparison

variable {a b : Str}

theorem alikeBytes_cons {c1 c2 : UInt8} {p1 p2 : List UInt8} :
    AlikeBytes (c1 :: p1) (c2 :: p2) ↔ c1 ||| 32 = c2 ||| 32 ∧ AlikeBytes p1 p2 := by
  constructor
  · intro alike
    refine ⟨alike 0 (Nat.zero_le _), fun place inside => ?_⟩
    have next := alike (place + 1) (by simp only [length_cons]; omega)
    simpa using next
  · rintro ⟨first, rest⟩ place inside
    cases place with
    | zero => exact first
    | succ place =>
      have next := rest place (by simp only [length_cons] at inside; omega)
      simpa using next

theorem sameElem_bytes {p1 p2 : List UInt8} (clear1 : (0 : UInt8) ∉ p1) (clear2 : (0 : UInt8) ∉ p2) :
    sameElem (p1 ++ [0]) (p2 ++ [0]) =
      if AlikeBytes p1 p2 then if p1.length ≤ p2.length then some true else none
      else some false := by
  -- The induction follows the first string.
  induction p1 generalizing p2 with
  | nil =>
    cases p2 with
    | nil => simp [sameElem, AlikeBytes]
    | cons c2 p2 =>
      have nonzero : c2 ≠ 0 := fun zero => clear2 (zero ▸ mem_cons_self)
      simp [sameElem, AlikeBytes, nonzero.symm]
  | cons c1 p1 ih =>
    have nonzero : c1 ≠ 0 := fun zero => clear1 (zero ▸ mem_cons_self)
    cases p2 with
    | nil =>
      have past : sameElem (p1 ++ [0]) [] = none := by
        cases p1 <;> rfl
      simp [sameElem, AlikeBytes, nonzero, past]
    | cons c2 p2 =>
      have rest := ih (fun zero => clear1 (mem_cons_of_mem _ zero))
        (fun zero => clear2 (mem_cons_of_mem _ zero))
      simp only [alikeBytes_cons, length_cons, Nat.add_le_add_iff_right]
      rw [cons_append, cons_append, sameElem, if_neg nonzero, rest]
      by_cases first : c1 ||| 32 = c2 ||| 32
      · simp only [first, true_or, if_true, true_and]
      · have different : c1 ≠ c2 := fun same => first (by rw [same])
        simp only [first, different, or_self, if_false, false_and]

theorem sameElem_memory : sameElem a.memory b.memory =
    if Alike a b then if a.bytes.length ≤ b.bytes.length then some true else none else some false :=
  sameElem_bytes a.clear b.clear

theorem SameText.length (same : SameText a b) : a.bytes.length = b.bytes.length := by
  have lengths := congrArg List.length same
  rwa [length_map, length_map] at lengths

theorem SameText.alike (same : SameText a b) : Alike a b := by
  intro place inside
  have equal : (a.bytes ++ [0]).map lower = (b.bytes ++ [0]).map lower := by rw [map_append, map_append, same]
  have short : place < (a.bytes ++ [0]).length := by
    rw [length_append, length_singleton]
    omega
  have shorter : place < (b.bytes ++ [0]).length := by
    rw [length_append, length_singleton]
    omega
  apply or_eq_of_lower
  have here := congrArg (fun bytes : List UInt8 => bytes[place]?) equal
  simp only [getElem?_map] at here
  rw [getElem?_eq_getElem short, getElem?_eq_getElem shorter] at here
  rw [getD_eq_getElem?_getD, getD_eq_getElem?_getD, getElem?_eq_getElem short, getElem?_eq_getElem shorter]
  exact Option.some.inj here

end Comparison

theorem findElemLoop_pass {elem : Str} {before : List Str} (others : ∀ other ∈ before, ¬Alike other elem)
    (i : Nat) (rest : List Str) :
    findElemLoop elem i (before ++ rest) = findElemLoop elem (i + before.length) rest := by
  induction before generalizing i with
  | nil => rfl
  | cons data before ih =>
    have passed : sameElem data.memory elem.memory = some false := by
      rw [sameElem_memory, if_neg (others data mem_cons_self)]
    rw [cons_append, findElemLoop, passed]
    dsimp only
    rw [ih (fun other listed => others other (mem_cons_of_mem _ listed)), length_cons,
      Nat.add_assoc, Nat.add_comm 1]

theorem expectedIndex_append {elem data : Str} {before after : List Str}
    (others : ∀ other ∈ before, ¬SameText other elem) (same : SameText data elem) :
    expectedIndex (before ++ data :: after) elem = before.length + 1 := by
  rw [expectedIndex, if_pos ⟨data, by simp, same⟩, findIdx_append]
  rw [findIdx_eq_length.2 fun other listed => by simp [others other listed]]
  simp [findIdx_cons, same]

theorem toInt_eq (index : Nat) : toInt index =
    if (index : Int) % 4294967296 < 2147483648 then (index : Int) % 4294967296
    else (index : Int) % 4294967296 - 4294967296 := by
  unfold toInt
  rw [Int.bmod_def]
  split <;> split <;> omega

theorem toInt_eq_iff {index : Nat} : toInt index = index ↔ index < 2 ^ 31 := by
  rw [toInt_eq]
  split <;> omega

theorem toInt_eq_zero_iff {index : Nat} : toInt index = 0 ↔ 2 ^ 32 ∣ index := by
  rw [toInt_eq]
  split <;> omega

theorem toInt_le (index : Nat) : toInt index ≤ index := by
  rw [toInt_eq]
  split <;> omega

theorem lt_expectedIndex {elem : Str} {before after : List Str}
    (others : ∀ other ∈ before, ¬SameText other elem)
    (some : ∃ other ∈ before ++ after, SameText other elem) :
    before.length < expectedIndex (before ++ after) elem := by
  rw [expectedIndex, if_pos some, findIdx_append]
  rw [findIdx_eq_length.2 fun other listed => by simp [others other listed]]
  simp only [Nat.lt_irrefl, if_false]
  omega

/-- The search returns the index of the first element that is the same, and reads nothing behind a
terminator, exactly if the first element that is alike, if there is one, is the same at an index
that fits an `int`; a false match is right only where its index wraps around to zero and no element
is the same. -/
theorem stringListFindElem_iff (list : List Str) (elem : Str) :
    stringListFindElem list elem = some (expectedIndex list elem : Int) ↔
      ∀ data, list.find? (Alike · elem) = some data →
        (SameText data elem ∧ list.findIdx (Alike · elem) + 1 < 2 ^ 31) ∨
        (data.bytes.length ≤ elem.bytes.length ∧ 2 ^ 32 ∣ list.findIdx (Alike · elem) + 1 ∧
          ∀ other ∈ list, ¬SameText other elem) := by
  cases found : list.find? (Alike · elem) with
  | none =>
    -- Nothing is alike, and so nothing is the same.
    have others : ∀ other ∈ list, ¬Alike other elem := by
      intro other listed
      simpa using find?_eq_none.1 found other listed
    have expected : expectedIndex list elem = 0 := by
      rw [expectedIndex, if_neg]
      rintro ⟨other, listed, same⟩
      exact others other listed same.alike
    have returns := findElemLoop_pass others 0 []
    rw [append_nil] at returns
    simp [stringListFindElem, returns, findElemLoop, expected]
  | some data =>
    obtain ⟨alike, before, after, rfl, passed⟩ := find?_eq_some_iff_append.1 found
    have alike : Alike data elem := by simpa using alike
    have others : ∀ other ∈ before, ¬Alike other elem := by
      intro other listed
      simpa using passed other listed
    have different : ∀ other ∈ before, ¬SameText other elem := fun other listed same =>
      others other listed same.alike
    have index : (before ++ data :: after).findIdx (Alike · elem) = before.length := by
      rw [findIdx_append, findIdx_eq_length.2 fun other listed => by simp [others other listed]]
      simp [findIdx_cons, alike]
    have returns : stringListFindElem (before ++ data :: after) elem =
        if data.bytes.length ≤ elem.bytes.length then some (toInt (before.length + 1))
        else none := by
      rw [stringListFindElem, findElemLoop_pass others, findElemLoop, sameElem_memory,
        if_pos alike, Nat.zero_add]
      by_cases short : data.bytes.length ≤ elem.bytes.length
      · rw [if_pos short, if_pos short]
      · rw [if_neg short, if_neg short]
    rw [returns, index]
    simp only [Option.some.injEq, forall_eq']
    by_cases same : SameText data elem
    · -- The match is a true one.
      rw [if_pos (Nat.le_of_eq same.length), expectedIndex_append different same]
      have listed : data ∈ before ++ data :: after := by simp
      constructor
      · intro equal
        exact .inl ⟨same, toInt_eq_iff.1 (Option.some.inj equal)⟩
      · rintro (⟨-, small⟩ | ⟨-, -, none⟩)
        · exact congrArg some (toInt_eq_iff.2 small)
        · exact absurd same (none data listed)
    · -- The match is a false one, or the comparison runs past the needle.
      have behind : ∀ other ∈ before ++ [data], ¬SameText other elem := by
        intro other listed
        rcases mem_append.1 listed with inside | last
        · exact different other inside
        · rw [mem_singleton.1 last]
          exact same
      constructor
      · intro equal
        by_cases short : data.bytes.length ≤ elem.bytes.length
        · rw [if_pos short] at equal
          have equal := Option.some.inj equal
          by_cases none : ∃ other ∈ before ++ data :: after, SameText other elem
          · have later := @lt_expectedIndex elem (before ++ [data]) after behind (by simpa using none)
            rw [List.append_assoc, singleton_append, length_append] at later
            have bound := toInt_le (before.length + 1)
            simp only [length_singleton] at later
            omega
          · rw [expectedIndex, if_neg none] at equal
            exact .inr ⟨short, toInt_eq_zero_iff.1 equal, fun other listed found =>
              none ⟨other, listed, found⟩⟩
        · rw [if_neg short] at equal
          cases equal
      · rintro (⟨found, -⟩ | ⟨short, wraps, none⟩)
        · exact absurd found same
        · rw [if_pos short, expectedIndex, if_neg (fun ⟨other, listed, found⟩ =>
            none other listed found)]
          exact congrArg some (toInt_eq_zero_iff.2 wraps)

/-- A needle that ends where the element has a space is read past its terminator. -/
theorem stringListFindElem_overruns :
    ¬stringListFindElem [⟨[0x61, 0x20], by decide⟩] ⟨[0x61], by decide⟩ =
      some (expectedIndex [⟨[0x61, 0x20], by decide⟩] ⟨[0x61], by decide⟩ : Int) := by
  decide

open Substring

/-- The loop of the split, which looks for the delimiter in what is left of the string. -/
def splitLoop (delim : List UInt8) : Nat → List UInt8 → List (List UInt8)
  | 0, _ => []
  | turns + 1, p =>
    if p = [] then []
    else
      match find delim p with
      | some len =>
        (if 0 < len then [p.take len] else []) ++ splitLoop delim turns (p.drop (len + delim.length))
      | none => [p]

/-- The elements of a string between delimiters, none of which is empty. A turn of the loop leaves
less of the string. -/
def stringSplitNoalloc (str delim : List UInt8) : Option (List (List UInt8)) :=
  if delim = [] then none else some (splitLoop delim str.length str)

/-- An element in which the delimiter does not occur. -/
def Whole (delim id : List UInt8) : Prop := id ≠ [] ∧ find delim id = none

/-- An element in front of a delimiter which the delimiter does not begin earlier. -/
def Inner (delim id : List UInt8) : Prop := id ≠ [] ∧ find delim (id ++ delim) = some id.length

/-- Elements as a split leaves them: all but the last one stand in front of a delimiter. -/
def Elements (delim : List UInt8) : List (List UInt8) → Prop
  | [] => True
  | [id] => Whole delim id
  | id :: rest => Inner delim id ∧ Elements delim rest

variable {delim id last : List UInt8}

theorem Inner.whole (inner : Inner delim id) (nonempty : delim ≠ []) : Whole delim id := by
  refine ⟨inner.1, ?_⟩
  cases found : find delim id with
  | none => rfl
  | some place =>
    -- It would be the first one.
    have first := find_append found delim
    rw [inner.2] at first
    obtain rfl := Option.some.inj first
    have inside := find_le found
    have positive := length_pos_iff.2 nonempty
    omega

theorem Whole.take (whole : Whole delim id) (count : Nat) : find delim (id.take count) = none := by
  cases found : find delim (id.take count) with
  | none => rfl
  | some place =>
    have first := find_append found (id.drop count)
    rw [take_append_drop, whole.2] at first
    cases first

theorem inner_take {p : List UInt8} {len : Nat} (found : find delim p = some len) (some : 0 < len) :
    Inner delim (p.take len) ∧ p = p.take len ++ (delim ++ p.drop (len + delim.length)) := by
  have inside := find_le found
  obtain ⟨rest, begins⟩ := find_prefix found
  have behind : p.drop (len + delim.length) = rest := by rw [← drop_drop, ← begins, drop_left]
  have whole : p = p.take len ++ (delim ++ p.drop (len + delim.length)) := by
    rw [behind, begins, take_append_drop]
  have length : (p.take len).length = len := length_take_of_le (by omega)
  refine ⟨⟨fun empty => ?_, ?_⟩, whole⟩
  · rw [empty, length_nil] at length
    omega
  · cases first : find delim (p.take len ++ delim) with
    | none => exact absurd first (find_ne_none _)
    | some place =>
      have same := find_append first (p.drop (len + delim.length))
      rw [append_assoc, ← whole, found] at same
      rw [length, same]

theorem Elements.cons {rest : List (List UInt8)} (nonempty : delim ≠ []) (inner : Inner delim id)
    (behind : Elements delim rest) : Elements delim (id :: rest) := by
  cases rest with
  | nil => exact inner.whole nonempty
  | cons next others => exact ⟨inner, behind⟩

theorem Elements.snoc {front : List (List UInt8)} (nonempty : delim ≠ [])
    (inners : ∀ id ∈ front, Inner delim id) (whole : Whole delim last) :
    Elements delim (front ++ [last]) := by
  induction front with
  | nil => exact whole
  | cons id front ih =>
    exact .cons nonempty (inners id mem_cons_self) (ih fun id listed => inners id (mem_cons_of_mem _ listed))

/-- A split leaves elements. -/
theorem splitLoop_elements (nonempty : delim ≠ []) (turns : Nat) (p : List UInt8) :
    Elements delim (splitLoop delim turns p) := by
  -- The split is followed turn by turn.
  induction turns generalizing p with
  | zero => exact trivial
  | succ turns ih =>
    rw [splitLoop]
    by_cases empty : p = []
    · rw [if_pos empty]
      exact trivial
    rw [if_neg empty]
    cases found : find delim p with
    | none => exact ⟨empty, found⟩
    | some len =>
      dsimp only
      by_cases some : 0 < len
      · rw [if_pos some]
        exact .cons nonempty (inner_take found some).1 (ih _)
      · rw [if_neg some]
        exact ih _

/-- Elements that are joined are split again. -/
theorem splitLoop_intercalate {ids : List (List UInt8)} (elements : Elements delim ids) {turns : Nat}
    (enough : (delim.intercalate ids).length ≤ turns) :
    splitLoop delim turns (delim.intercalate ids) = ids := by
  -- The elements are found one by one.
  induction ids generalizing turns with
  | nil =>
    rw [intercalate_nil]
    cases turns <;> rfl
  | cons id rest ih =>
    cases rest with
    | nil =>
      rw [intercalate_singleton] at enough ⊢
      have positive := length_pos_iff.2 elements.1
      obtain ⟨turns, rfl⟩ : ∃ less, turns = less + 1 := ⟨turns - 1, by omega⟩
      rw [splitLoop, if_neg elements.1, elements.2]
    | cons next others =>
      obtain ⟨inner, behind⟩ := elements
      rw [intercalate_cons_of_ne_nil (by simp)] at enough ⊢
      have positive := length_pos_iff.2 inner.1
      rw [length_append, length_append] at enough
      obtain ⟨turns, rfl⟩ : ∃ less, turns = less + 1 := ⟨turns - 1, by omega⟩
      have filled : id ++ delim ++ delim.intercalate (next :: others) ≠ [] := by simp [inner.1]
      have left : (id ++ delim ++ delim.intercalate (next :: others)).drop
          (id.length + delim.length) = delim.intercalate (next :: others) := by
        rw [← length_append, drop_left]
      rw [splitLoop, if_neg filled, find_append inner.2]
      dsimp only
      rw [if_pos positive, left, append_assoc, take_left, ih behind (by omega)]
      rfl

open Pieces

/-- The loop of the split at any character of a set: delimiters are passed, and a token is what is
in front of the next one. -/
def tokensLoop (delim : List UInt8) : Nat → List UInt8 → List (List UInt8)
  | 0, _ => []
  | turns + 1, p =>
    if p = [] then []
    else
      let p := p.dropWhile (delim.contains ·)
      if p = [] then []
      else
        let tok := p.takeWhile (!delim.contains ·)
        tok :: tokensLoop delim turns (p.dropWhile (!delim.contains ·))

/-- The tokens of a string between delimiter characters. A turn of the loop leaves less of the
string. -/
def stringSplit (str delim : List UInt8) : List (List UInt8) := tokensLoop delim str.length str

variable {delim : List UInt8}

theorem tokensLoop_eq (turns : Nat) (p : List UInt8) (enough : p.length ≤ turns) :
    tokensLoop delim turns p = tokens (delim.contains ·) p := by
  -- The induction follows the turns; each passes delimiters and one token.
  induction turns generalizing p with
  | zero =>
    obtain rfl := eq_nil_of_length_eq_zero (Nat.le_zero.1 enough)
    rfl
  | succ turns ih =>
    rw [tokensLoop, ← tokens_dropWhile]
    have shorter := (dropWhile_sublist (delim.contains ·) (l := p)).length_le
    have stands (some : p.dropWhile (delim.contains ·) ≠ []) := head_dropWhile_not (delim.contains ·) some
    by_cases empty : p = []
    · rw [if_pos empty, empty]
      rfl
    rw [if_neg empty]
    dsimp only
    generalize p.dropWhile (delim.contains ·) = left at shorter stands ⊢
    by_cases ended : left = []
    · rw [if_pos ended, ended]
      rfl
    rw [if_neg ended]
    -- What is left begins with a token.
    have begins : left.takeWhile (!delim.contains ·) ≠ [] := by
      cases left with
      | nil => exact absurd rfl ended
      | cons first rest =>
        have first_ := stands ended
        rw [head_cons] at first_
        rw [takeWhile_cons_of_pos (by rw [first_]; rfl)]
        exact cons_ne_nil _ _
    have clear : ∀ element ∈ left.takeWhile (!delim.contains ·), delim.contains element = false := by
      intro element listed
      simpa using mem_takeWhile_imp listed
    have split := takeWhile_append_dropWhile (p := (!delim.contains ·)) (l := left)
    have behind (some : left.dropWhile (!delim.contains ·) ≠ []) :=
      head_dropWhile_not (!delim.contains ·) some
    have lengths := congrArg length split
    rw [length_append] at lengths
    have positive := length_pos_iff.2 begins
    rw [ih _ (by omega)]
    generalize left.takeWhile (!delim.contains ·) = tok at *
    generalize left.dropWhile (!delim.contains ·) = rest at *
    subst split
    cases rest with
    | nil => rw [append_nil, tokens_run clear begins]; rfl
    | cons separator rest =>
      have separates := behind (cons_ne_nil _ _)
      rw [head_cons, Bool.not_eq_false'] at separates
      rw [tokens_run_cons clear separates, if_neg begins, tokens_separator separates]
      rfl

theorem splitLoop_eq (d : UInt8) (turns : Nat) (p : List UInt8) (enough : p.length ≤ turns) :
    splitLoop [d] turns p = tokens (contains [d] ·) p := by
  -- The induction follows the turns; each passes one delimiter.
  induction turns generalizing p with
  | zero =>
    obtain rfl := eq_nil_of_length_eq_zero (Nat.le_zero.1 enough)
    rfl
  | succ turns ih =>
    rw [splitLoop]
    by_cases empty : p = []
    · rw [if_pos empty, empty]
      rfl
    rw [if_neg empty]
    have isolated {run : List UInt8} (absent : d ∉ run) : ∀ element ∈ run, contains [d] element = false := by
      intro element listed
      rw [Bool.eq_false_iff, Ne, contains_iff_mem, mem_singleton]
      rintro rfl
      exact absent listed
    by_cases there : d ∈ p
    · -- The first delimiter ends a token or follows another one.
      obtain ⟨run, rest, rfl, absent⟩ := eq_append_cons_of_mem there
      have separates : contains [d] d = true := by simp
      have behind : (run ++ d :: rest).drop (run.length + [d].length) = rest := by simp
      rw [length_append, length_cons] at enough
      rw [find_single_some absent, tokens_run_cons (isolated absent) separates]
      simp only [behind, take_left]
      rw [ih rest (by omega)]
      congr 1
      cases run with
      | nil => rfl
      | cons first run => rfl
    · -- Without a delimiter the rest is one token.
      rw [find_single_none there, tokens_run (isolated there) empty]

theorem splits_agree (str : List UInt8) (d : UInt8) : stringSplit str [d] = tokens (contains [d] ·) str ∧
      stringSplitNoalloc str [d] = some (stringSplit str [d]) := by
  have split : stringSplit str [d] = tokens (contains [d] ·) str :=
    tokensLoop_eq str.length str (Nat.le_refl _)
  refine ⟨split, ?_⟩
  rw [split, stringSplitNoalloc, if_neg (cons_ne_nil _ _), splitLoop_eq d _ _ (Nat.le_refl _)]

open CString Strings

/-- From a place on the elements are copied with the delimiter between them. What does not fit is
copied as far as there is room, and ends the loop. A missing element is read, which fails. -/
def joinLoop (delim : Str) : List (Option Str) → List UInt8 → Nat → Option (List UInt8)
  | [], s, _ => some s
  | none :: _, _, _ => none
  | some data :: rest, s, place =>
    if s.length ≤ place + data.bytes.length then
      some (strlcpy s place data (s.length - place)).2
    else
      let (n, s) := strlcpy s place data (s.length - place)
      let place := place + n
      if rest = [] then some s
      else if s.length ≤ place + delim.bytes.length then
        some (strlcpy s place delim (s.length - place)).2
      else
        let (n, s) := strlcpy s place delim (s.length - place)
        joinLoop delim rest s (place + n)

/-- Joining the elements of a list behind the string that a buffer holds; a buffer without a
terminator is full. -/
def stringListJoinConcat (s : List UInt8) (list : List (Option Str)) (delim : Str) : Option (List UInt8) :=
  let len := (string s 0).length
  if len < s.length then joinLoop delim list s len else some s

/-- The elements with the delimiter between them. -/
def joined (delim : Str) (list : List Str) : List UInt8 := delim.bytes.intercalate (list.map Str.bytes)

/-- A buffer that holds a string as far as it has room for it. -/
structure Truncated (text s : List UInt8) : Prop where
  holds : string s 0 = text.take (s.length - 1)
  terminated : (string s 0).length < s.length

variable {text s : List UInt8} {pos : Nat} {delim : Str}

theorem strlcpy_ends (begins : Begins text s pos) (src : Str) :
    Ends (text ++ src.bytes) (strlcpy s pos src (s.length - pos)).2
        (pos + min src.bytes.length (s.length - pos - 1)) ∧
      (strlcpy s pos src (s.length - pos)).2.length = s.length := by
  have inside := begins.inside
  have called := strlcpyAppend_ends begins src
  rw [strlcpyAppend_eq begins] at called
  rw [strlcpy, if_neg (by omega)]
  exact called

theorem Truncated.of_ends (ends : Ends text s pos) (clear : (0 : UInt8) ∉ text) : Truncated text s := by
  have inside := ends.inside
  have place := ends.place
  have zero := ends.zero
  have front := ends.front
  -- The terminator is the first zero byte.
  have split : s = text.take pos ++ 0 :: s.drop (pos + 1) := by
    have whole := take_append_drop pos s
    rw [drop_eq_getElem_cons inside, front] at whole
    rw [getElem?_eq_getElem inside, Option.some.injEq] at zero
    rw [zero] at whole
    exact whole.symm
  have short : (0 : UInt8) ∉ text.take pos := fun listed => clear (mem_of_mem_take listed)
  have holds : string s 0 = text.take pos := by
    rw [string, drop_zero]
    conv_lhs => rw [split]
    exact takeWhile_absent short
  have same : text.take pos = text.take (s.length - 1) := by
    rw [place]
    rcases Nat.le_total text.length (s.length - 1) with fits | long
    · rw [Nat.min_eq_left fits, take_length, take_of_length_le fits]
    · rw [Nat.min_eq_right long]
  refine ⟨holds.trans same, ?_⟩
  rw [holds, length_take]
  omega

theorem Truncated.extend (truncated : Truncated text s) (full : s.length ≤ text.length)
    (more : List UInt8) : Truncated (text ++ more) s := by
  refine ⟨?_, truncated.terminated⟩
  rw [truncated.holds, take_append_of_le_length (by omega)]

theorem joined_cons (data : Str) (rest : List Str) : joined delim (data :: rest) =
      data.bytes ++ if rest = [] then [] else delim.bytes ++ joined delim rest := by
  cases rest with
  | nil => simp [joined]
  | cons other rest =>
    rw [if_neg (cons_ne_nil _ _), joined, map_cons,
      intercalate_cons_of_ne_nil (by simp), joined, append_assoc]

theorem joinLoop_eq (delim : Str) (clear : (0 : UInt8) ∉ text) (fits : text.length < s.length)
    (ends : Ends text s text.length) (list : List Str) :
    ∃ after, joinLoop delim (list.map some) s text.length = some after ∧
      Truncated (text ++ joined delim list) after ∧ after.length = s.length := by
  -- The induction follows the elements, behind any text.
  induction list generalizing text s with
  | nil =>
    refine ⟨s, rfl, ?_, rfl⟩
    rw [joined, map_nil, intercalate_nil, append_nil]
    exact .of_ends ends clear
  | cons data rest ih =>
    rw [map_cons, joinLoop, joined_cons]
    obtain ⟨copied, length⟩ := strlcpy_ends ends.toBegins data
    have clearData : (0 : UInt8) ∉ text ++ data.bytes := by
      rw [mem_append, not_or]
      exact ⟨clear, data.clear⟩
    by_cases full : s.length ≤ text.length + data.bytes.length
    · -- The element is the last thing that is copied.
      rw [if_pos full]
      refine ⟨_, rfl, ?_, length⟩
      rw [← append_assoc]
      exact (Truncated.of_ends copied clearData).extend (by rw [length, length_append]; exact full) _
    rw [if_neg full]
    have place : text.length + min data.bytes.length (s.length - text.length - 1) =
        (text ++ data.bytes).length := by
      rw [length_append]
      omega
    have moved : text.length + (strlcpy s text.length data (s.length - text.length)).1 =
        (text ++ data.bytes).length := by
      rw [length_append]
      rfl
    rw [place] at copied
    dsimp only
    rw [moved]
    generalize (strlcpy s text.length data (s.length - text.length)).2 = s1 at copied length ⊢
    by_cases last : rest = []
    · rw [if_pos (by rw [last, map_nil]), if_pos last, append_nil]
      exact ⟨s1, rfl, .of_ends copied clearData, length⟩
    rw [if_neg (by simpa using last), if_neg last]
    obtain ⟨between, lengthBetween⟩ := strlcpy_ends copied.toBegins delim
    have clearDelim : (0 : UInt8) ∉ text ++ data.bytes ++ delim.bytes := by
      rw [mem_append, not_or]
      exact ⟨clearData, delim.clear⟩
    by_cases fullDelim : s1.length ≤ (text ++ data.bytes).length + delim.bytes.length
    · -- The delimiter is.
      rw [if_pos fullDelim]
      refine ⟨_, rfl, ?_, lengthBetween.trans length⟩
      rw [← append_assoc, ← append_assoc]
      exact (Truncated.of_ends between clearDelim).extend
        (by rw [lengthBetween, length_append]; exact fullDelim) _
    rw [if_neg fullDelim]
    have placeDelim : (text ++ data.bytes).length +
        min delim.bytes.length (s1.length - (text ++ data.bytes).length - 1) =
          (text ++ data.bytes ++ delim.bytes).length := by
      rw [@length_append _ (text ++ data.bytes)]
      omega
    have movedDelim : (text ++ data.bytes).length +
        (strlcpy s1 (text ++ data.bytes).length delim (s1.length - (text ++ data.bytes).length)).1 =
          (text ++ data.bytes ++ delim.bytes).length := by
      rw [@length_append _ (text ++ data.bytes)]
      rfl
    rw [placeDelim] at between
    rw [movedDelim]
    obtain ⟨after, ran, truncated, same⟩ := ih clearDelim
      (by rw [lengthBetween, @length_append _ (text ++ data.bytes)]; omega) between
    refine ⟨after, ran, ?_, same.trans (lengthBetween.trans length)⟩
    rw [← append_assoc, ← append_assoc]
    exact truncated

theorem ends_string (terminated : (string s 0).length < s.length) :
    Ends (string s 0) s (string s 0).length := by
  -- The string is what lies before the first zero byte.
  refine ⟨⟨?_, ?_, ?_⟩, ?_⟩
  · rintro rfl
    exact absurd terminated (Nat.not_lt_zero _)
  · omega
  · rw [take_length]
    conv_rhs => rw [string, drop_zero]
    rw [string, drop_zero]
    exact (prefix_iff_eq_take.1 (List.takeWhile_prefix _)).symm
  · have stops := @skip_stops (· ≠ 0) s 0 rfl
    rw [skip, Nat.zero_add, decide_eq_false_iff_not, not_not, byteAt, getD_eq_getElem?_getD] at stops
    rw [string] at terminated ⊢
    rw [getElem?_eq_getElem terminated] at stops ⊢
    rw [Option.getD_some] at stops
    rw [stops]

/-- Every string is split at a delimiter of one character into the same tokens in both ways: what
lies between delimiters and is not empty. Joining a list behind the string in a buffer of any size
leaves that string and the elements with the delimiter between them, as far as the buffer has room
for them and a terminator. -/
theorem split_and_join : (∀ (str : List UInt8) (d : UInt8),
      stringSplitNoalloc str [d] = some (stringSplit str [d]) ∧
        stringSplit str [d] = (str.splitOn d).filter (· ≠ [])) ∧
    ∀ (s : List UInt8) (list : List Str) (delim : Str), (string s 0).length < s.length →
      ∃ after, stringListJoinConcat s (list.map some) delim = some after ∧
        after.length = s.length ∧ Truncated (string s 0 ++ joined delim list) after := by
  constructor
  · intro str d
    obtain ⟨tokens_, agree⟩ := splits_agree str d
    refine ⟨agree, ?_⟩
    rw [tokens_, Pieces.tokens, splitOn_eq_splitOnP]
    congr 1
    · funext piece
      cases piece <;> rfl
    · congr 1
      funext c
      simp only [contains_cons, contains_nil, Bool.or_false]
  · intro s list delim terminated
    have clear : (0 : UInt8) ∉ string s 0 := by
      intro listed
      exact absurd (mem_takeWhile_imp listed) (by simp)
    obtain ⟨after, ran, truncated, same⟩ := joinLoop_eq delim clear terminated (ends_string terminated) list
    exact ⟨after, (if_pos terminated).trans ran, same, truncated⟩

/-- A split at a space, and a join into eight bytes that has no room for the last element. -/
theorem split_and_join_truncates : stringSplitNoalloc [32, 97, 32, 32, 98] [32] = some [[97], [98]] ∧
      ∃ after, stringListJoinConcat [120, 0, 0, 0, 0, 0, 0, 0]
          ([⟨[97, 98, 99], by decide⟩, ⟨[100, 101, 102], by decide⟩].map some)
          ⟨[44], by decide⟩ = some after ∧
        string after 0 = [120, 97, 98, 99, 44, 100, 101] := by
  obtain ⟨split, join⟩ := split_and_join
  refine ⟨(split _ _).1.trans (by decide), ?_⟩
  obtain ⟨after, ran, length, truncated⟩ := join [120, 0, 0, 0, 0, 0, 0, 0]
    [⟨[97, 98, 99], by decide⟩, ⟨[100, 101, 102], by decide⟩] ⟨[44], by decide⟩ (by decide)
  refine ⟨after, ran, ?_⟩
  rw [truncated.holds, length]
  decide

/-- What a split has made is joined in an empty buffer, and splitting that makes the same list, however
the delimiter overlaps with the elements. -/
theorem split_join_split {str delim : Str} {list : List Str} {s : List UInt8}
    (split : stringSplitNoalloc str.bytes delim.bytes = some (list.map Str.bytes))
    (empty : string s 0 = []) (room : (joined delim list).length < s.length) :
    ∃ after, stringListJoinConcat s (list.map some) delim = some after ∧
      stringSplitNoalloc (string after 0) delim.bytes = some (list.map Str.bytes) := by
  rw [stringSplitNoalloc] at split
  split at split
  · cases split
  rename_i nonempty
  have elements := splitLoop_elements nonempty str.bytes.length str.bytes
  rw [Option.some.inj split] at elements
  have terminated : (string s 0).length < s.length := by
    rw [empty]
    exact Nat.zero_lt_of_lt room
  have ends := ends_string terminated
  rw [empty] at ends terminated
  obtain ⟨after, ran, truncated, same⟩ := joinLoop_eq delim not_mem_nil terminated ends list
  refine ⟨after, ?_, ?_⟩
  · rw [stringListJoinConcat, empty]
    exact (if_pos terminated).trans ran
  · -- The buffer holds all of what was joined.
    rw [truncated.holds, nil_append, take_of_length_le (by omega), stringSplitNoalloc, if_neg nonempty, joined,
      splitLoop_intercalate elements (Nat.le_refl _)]

/-- The delimiter begins twice in what was joined. -/
theorem split_join_split_overlapping : ∃ after, stringListJoinConcat (replicate 8 0)
      ([⟨[98], by decide⟩, ⟨[97, 99], by decide⟩].map some) ⟨[97, 97], by decide⟩ = some after ∧
    stringSplitNoalloc (string after 0) [97, 97] = some [[98], [97, 99]] :=
  @split_join_split ⟨[98, 97, 97, 97, 99], by decide⟩ ⟨[97, 97], by decide⟩
    [⟨[98], by decide⟩, ⟨[97, 99], by decide⟩] (replicate 8 0) (by decide) (by decide) (by decide)

/-- An element: a string, unless its pointer is null, the client's pointer, and the bytes of its
attribute. -/
structure Elem where
  data : Option Str
  userdata : Option Nat
  attr : UInt64
deriving DecidableEq

/-- A list and how many elements it has memory for. -/
structure StringList where
  elems : List Elem
  cap : Nat
deriving DecidableEq

/-- How long an element's string is. -/
def Elem.slen (elem : Elem) : Nat :=
  match elem.data with
  | some data => data.bytes.length
  | none => 0

/-- The copy of an element, whose string is copied if it is not empty. -/
def Elem.clone (src : Elem) : Elem :=
  { data := if src.slen ≠ 0 then src.data else none, userdata := none, attr := src.attr }

/-- The elements are copied one by one until there is no memory for a string. Each element has its
own request for memory. -/
def cloneLoop (granted : Nat → Bool) : Nat → List Elem → Option (List Elem)
  | _, [] => some []
  | i, src :: rest =>
    if src.slen ≠ 0 ∧ granted i = false then none
    else (cloneLoop granted (i + 1) rest).map (src.clone :: ·)

/-- Copying a list, if there is memory for the list, its elements and their strings. -/
def stringListClone (granted : Nat → Bool) (src : StringList) : Option StringList :=
  if granted 0 = false ∨ granted 1 = false then none
  else
    (cloneLoop granted 2 src.elems).map fun elems =>
      { elems, cap := if src.cap < src.elems.length then src.elems.length else src.cap }

/-- The strings of a list. -/
def StringList.data (list : StringList) : List (Option Str) := list.elems.map Elem.data

/-- Searching a list in which a string may be missing; one that is missing is read, which fails. -/
def findDataLoop (elem : Str) : Nat → List (Option Str) → Option Int
  | _, [] => some 0
  | _, none :: _ => none
  | i, some data :: rest =>
    match sameElem data.memory elem.memory with
    | none => none
    | some true => some (toInt (i + 1))
    | some false => findDataLoop elem (i + 1) rest

/-- The index of an element in a list, counted from one, or zero. -/
def StringList.findElem (list : StringList) (elem : Str) : Option Int := findDataLoop elem 0 list.data

/-- A copy has the strings and attributes of its original, and joining it, searching it and copying
it again come to the same. -/
structure Faithful (src dest : StringList) : Prop where
  size : dest.elems.length = src.elems.length
  elems : ∀ i : Nat, (dest.elems[i]?).map (fun elem => (elem.data, elem.attr)) =
    (src.elems[i]?).map fun elem => (elem.data, elem.attr)
  join : ∀ s delim, stringListJoinConcat s dest.data delim = stringListJoinConcat s src.data delim
  find : ∀ elem, dest.findElem elem = src.findElem elem
  again : ∀ granted, stringListClone granted dest = stringListClone granted src

variable {granted : Nat → Bool} {src dest : StringList}

theorem cloneLoop_some {i : Nat} {elems copies : List Elem}
    (made : cloneLoop granted i elems = some copies) : copies = elems.map Elem.clone := by
  -- The induction follows the elements.
  induction elems generalizing i copies with
  | nil =>
    cases made
    rfl
  | cons src rest ih =>
    rw [cloneLoop] at made
    split at made
    · cases made
    · obtain ⟨others, madeOthers, rfl⟩ := Option.map_eq_some_iff.1 made
      rw [ih madeOthers, map_cons]

theorem stringListClone_elems (made : stringListClone granted src = some dest) :
    dest.elems = src.elems.map Elem.clone ∧
      dest.cap = if src.cap < src.elems.length then src.elems.length else src.cap := by
  rw [stringListClone] at made
  split at made
  · cases made
  · obtain ⟨copies, madeCopies, rfl⟩ := Option.map_eq_some_iff.1 made
    exact ⟨cloneLoop_some madeCopies, rfl⟩

theorem Elem.clone_data_iff (elem : Elem) :
    elem.clone.data = elem.data ↔ ∀ data, elem.data = some data → data.bytes ≠ [] := by
  rw [Elem.clone]
  cases there : elem.data with
  | none => simp [Elem.slen, there]
  | some data =>
    by_cases empty : data.bytes = []
    · simp [Elem.slen, there, empty]
    · simp [Elem.slen, there, empty]

theorem Elem.slen_clone (elem : Elem) : elem.clone.slen = elem.slen ∧ elem.clone.clone = elem.clone := by
  cases there : elem.data with
  | none => simp [Elem.slen, Elem.clone, there]
  | some data =>
    by_cases empty : data.bytes = []
    · simp [Elem.slen, Elem.clone, there, empty]
    · simp [Elem.slen, Elem.clone, there, empty]

theorem cloneLoop_clone (i : Nat) (elems : List Elem) :
    cloneLoop granted i (elems.map Elem.clone) = cloneLoop granted i elems := by
  -- The induction follows the elements.
  induction elems generalizing i with
  | nil => rfl
  | cons src rest ih => rw [map_cons, cloneLoop, cloneLoop, src.slen_clone.1, src.slen_clone.2, ih]

/-- A copy is faithful exactly if no element of the original is the empty string. -/
theorem clone_faithful_iff (made : stringListClone granted src = some dest) :
    Faithful src dest ↔ ∀ elem ∈ src.elems, ∀ data, elem.data = some data → data.bytes ≠ [] := by
  obtain ⟨elems, cap⟩ := stringListClone_elems made
  constructor
  · -- An empty string is missing in the copy.
    intro faithful elem listed
    rw [← Elem.clone_data_iff]
    obtain ⟨i, inside, rfl⟩ := mem_iff_getElem.1 listed
    have same := faithful.elems i
    rw [elems, getElem?_map, getElem?_eq_getElem inside, Option.map_some,
      Option.map_some, Option.map_some, Option.some.injEq, Prod.mk.injEq] at same
    exact same.1
  · intro nonempty
    have strings : dest.data = src.data := by
      rw [StringList.data, elems, StringList.data, map_map]
      refine map_congr_left fun elem listed => ?_
      exact elem.clone_data_iff.2 (nonempty elem listed)
    refine ⟨?_, fun i => ?_, fun s delim => ?_, fun elem => ?_, fun other => ?_⟩
    · rw [elems, length_map]
    · rw [elems, getElem?_map]
      cases there : src.elems[i]? with
      | none => rfl
      | some elem =>
        have kept := elem.clone_data_iff.2 (nonempty elem (mem_of_getElem? there))
        rw [Option.map_some, Option.map_some, Option.map_some, kept]
        rfl
    · rw [strings]
    · rw [StringList.findElem, strings, StringList.findElem]
    · -- The capacity of the copy is enough for its elements already.
      have large : ¬ dest.cap < dest.elems.length := by
        rw [cap, elems, length_map]
        split <;> omega
      rw [stringListClone, stringListClone, if_neg large, elems, cloneLoop_clone, cap]

/-- A list of one element without a client's pointer or an attribute. -/
def single (data : Str) : StringList := ⟨[⟨some data, none, 0⟩], 32⟩

/-- The copy of a list with one letter is faithful. -/
theorem clone_faithful_letter : Faithful (single ⟨[97], by decide⟩) (single ⟨[97], by decide⟩) := by
  have made : stringListClone (fun _ => true) (single ⟨[97], by decide⟩) =
      some (single ⟨[97], by decide⟩) := rfl
  refine (clone_faithful_iff made).2 ?_
  rintro elem listed data there
  obtain rfl := mem_singleton.1 listed
  cases there
  exact cons_ne_nil _ _

/-- The copy of a list with an empty string is searched where the original is not. -/
theorem clone_faithful_empty : ¬ ∀ (granted : Nat → Bool) (src dest : StringList),
      stringListClone granted src = some dest → Faithful src dest := by
  intro claimed
  have faithful := claimed (fun _ => true) (single ⟨[], by decide⟩) ⟨[⟨none, none, 0⟩], 32⟩ rfl
  exact absurd (faithful.find ⟨[97], by decide⟩) (by decide)

end Libretro.Lists
