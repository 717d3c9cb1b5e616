import Libretro.Encodings.Huffman
import Libretro.Library.Tiling
import Mathlib.Data.Nat.ModEq
import Mathlib.Tactic.Ring

/-! The codes that a build assigns tile the look-ahead, and what the table decodes. -/

namespace Libretro.Huffman

open List Nat Option Tiling

/-- What the codes longer than a length claim of the look-ahead. -/
def above (maxBits len : Nat) (lens : List Nat) : Nat :=
  (lens.map fun l => if len < l then 2 ^ (maxBits - l) else 0).sum

/-- What all codes claim of the look-ahead. -/
def kraftSum (maxBits : Nat) (lens : List Nat) : Nat := above maxBits 0 lens

section Claims

variable {maxBits len : Nat} {lens : List Nat}

theorem above_succ : above maxBits len lens =
      above maxBits (len + 1) lens + lens.count (len + 1) * 2 ^ (maxBits - (len + 1)) := by
  induction lens with
  | nil => simp [above]
  | cons l lens ih =>
    simp only [above, map_cons, sum_cons, count_cons] at ih ⊢
    rw [ih]
    by_cases same : l = len + 1
    · subst same
      simp only [lt_irrefl, if_false, lt_succ_self, if_true, beq_self_eq_true]
      ring
    · have larger : len < l ↔ len + 1 < l := by omega
      simp only [larger, beq_iff_eq, same, if_false]
      ring

theorem above_all (bounded : ∀ l ∈ lens, l ≤ len) : above maxBits len lens = 0 := by
  induction lens with
  | nil => rfl
  | cons l lens ih =>
    have first := bounded l mem_cons_self
    have rest := ih fun k listed => bounded k (mem_cons_of_mem _ listed)
    simp only [above, map_cons, sum_cons, if_neg (not_lt.2 first)] at rest ⊢
    omega

theorem above_le (maxBits len : Nat) (lens : List Nat) :
    above maxBits len lens ≤ lens.length * 2 ^ (maxBits - len) := by
  induction lens with
  | nil => simp [above]
  | cons l lens ih =>
    simp only [above, map_cons, sum_cons, length_cons, succ_mul] at ih ⊢
    have one : (if len < l then 2 ^ (maxBits - l) else 0) ≤ 2 ^ (maxBits - len) := by
      split
      · exact Nat.pow_le_pow_right (by decide) (by omega)
      · exact zero_le _
    omega

theorem above_mod (within : len ≤ maxBits) :
    ∃ k, kraftSum maxBits lens = above maxBits len lens + k * 2 ^ (maxBits - len) := by
  induction len with
  | zero => exact ⟨0, by simp [kraftSum]⟩
  | succ len ih =>
    obtain ⟨k, e⟩ := ih (by omega)
    have halves : maxBits - len = maxBits - (len + 1) + 1 := by omega
    refine ⟨lens.count (len + 1) + 2 * k, ?_⟩
    rw [e, above_succ, halves, pow_succ]
    ring

end Claims

section First

variable {maxBits : Nat} {lens : List Nat}

theorem getD_zeros (size l : Nat) : (replicate size 0).getD l 0 = 0 := by
  rw [getD_eq_getElem?_getD, getElem?_replicate]
  split <;> rfl

variable {histo : List Nat}

theorem countLengths_eq (bounded : ∀ l ∈ lens, l ≤ maxBits) (room : maxBits < histo.length) :
    ∃ after, countLengths maxBits lens histo = some after ∧ after.length = histo.length ∧
      ∀ l, l ≤ maxBits → after.getD l 0 = histo.getD l 0 + lens.count l := by
  induction lens generalizing histo with
  | nil => exact ⟨histo, rfl, rfl, fun l _ => by simp⟩
  | cons len lens ih =>
    have first := bounded len mem_cons_self
    obtain ⟨after, counted, size, each⟩ := @ih (histo.modify len (· + 1))
      (fun k listed => bounded k (mem_cons_of_mem _ listed)) (by simpa using room)
    refine ⟨after, ?_, by simpa using size, fun l small => ?_⟩
    · rw [countLengths, if_neg (not_lt.2 first), counted]
    · have inside : l < histo.length := lt_of_le_of_lt small room
      rw [each l small, count_cons]
      simp only [getD_eq_getElem?_getD, getElem?_modify, getElem?_eq_getElem inside]
      by_cases same : len = l
      · simp [same]
        omega
      · simp [same]

theorem countLengths_none {len : Nat} (listed : len ∈ lens)
    (long : maxBits < len) : countLengths maxBits lens histo = none := by
  induction lens generalizing histo with
  | nil => exact absurd listed not_mem_nil
  | cons l lens ih =>
    rw [countLengths]
    split
    · rfl
    · rename_i short
      rcases mem_cons.1 listed with rfl | later
      · exact absurd long short
      · exact ih later

theorem firstCodes_spec {len curstart : Nat} {after : List Nat}
    (assigned : firstCodes len curstart histo = some after) (room : maxBits < histo.length)
    (within : len ≤ maxBits) (start : curstart * 2 ^ (maxBits - len) = above maxBits len lens)
    (counts : ∀ l, l ≤ len → histo.getD l 0 = lens.count l) :
    (∀ l, len < l → after.getD l 0 = histo.getD l 0) ∧
      (∀ l, 1 ≤ l → l ≤ len → after.getD l 0 * 2 ^ (maxBits - l) = above maxBits l lens) ∧
      (1 ≤ len → 2 ^ (maxBits - 1) ∣ kraftSum maxBits lens) := by
  induction len generalizing curstart histo with
  | zero =>
    obtain rfl := some.inj assigned
    exact ⟨fun _ _ => rfl, fun l _ _ => by omega, fun _ => by omega⟩
  | succ len ih =>
    rw [firstCodes] at assigned
    simp only [counts (len + 1) (le_refl _)] at assigned
    split at assigned
    · cases assigned
    · rename_i even
      have room' : maxBits < (histo.set (len + 1) curstart).length := by simpa using room
      have inside : len + 1 < histo.length := by omega
      have own : (histo.set (len + 1) curstart).getD (len + 1) 0 = curstart := by
        simp [getD_eq_getElem?_getD, inside]
      have others : ∀ l, l ≠ len + 1 →
          (histo.set (len + 1) curstart).getD l 0 = histo.getD l 0 := fun l other => by
        simp [getD_eq_getElem?_getD, getElem?_set_ne (Ne.symm other)]
      have total : (curstart + lens.count (len + 1)) * 2 ^ (maxBits - (len + 1)) =
          above maxBits len lens := by
        rw [above_succ, ← start, add_mul]
      by_cases last : len = 0
      · -- The last length is not halved again; its total is the whole sum.
        subst last
        obtain rfl := some.inj assigned
        refine ⟨fun l longer => others l (by omega), fun l positive small => ?_, fun _ => ?_⟩
        · obtain rfl : l = 1 := by omega
          rw [own]
          exact start
        · exact ⟨_, (total.symm.trans (mul_comm _ _) : kraftSum maxBits lens = _)⟩
      · have halved : (curstart + lens.count (len + 1)) / 2 * 2 ^ (maxBits - len) =
            above maxBits len lens := by
          have halves : maxBits - len = maxBits - (len + 1) + 1 := by omega
          have whole : (curstart + lens.count (len + 1)) / 2 * 2 = curstart + lens.count (len + 1) := by omega
          rw [← total, halves, pow_succ, mul_comm (2 ^ _) 2, ← mul_assoc, whole]
        obtain ⟨above, below, whole⟩ := ih assigned room' (by omega) halved
          fun l small => by rw [others l (by omega)]; exact counts l (by omega)
        refine ⟨fun l longer => ?_, fun l positive small => ?_, fun _ => whole (by omega)⟩
        · rw [above l (by omega), others l (by omega)]
        · rcases lt_or_ge l (len + 1) with shorter | same
          · exact below l positive (by omega)
          · obtain rfl : l = len + 1 := by omega
            rw [above _ (by omega), own]
            exact start

theorem length_firstCodes {len curstart : Nat} {after : List Nat}
    (assigned : firstCodes len curstart histo = some after) : after.length = histo.length := by
  induction len generalizing curstart histo with
  | zero => rw [some.inj assigned]
  | succ len ih =>
    rw [firstCodes] at assigned
    split at assigned
    · cases assigned
    · rw [ih assigned, length_set]

theorem firstCodes_isSome {len curstart : Nat} (room : maxBits < histo.length)
    (within : len ≤ maxBits) (start : curstart * 2 ^ (maxBits - len) = above maxBits len lens)
    (counts : ∀ l, l ≤ len → histo.getD l 0 = lens.count l)
    (half : 2 ^ (maxBits - 1) ∣ kraftSum maxBits lens) :
    ∃ after, firstCodes len curstart histo = some after := by
  induction len generalizing curstart histo with
  | zero => exact ⟨histo, rfl⟩
  | succ len ih =>
    have total : (curstart + lens.count (len + 1)) * 2 ^ (maxBits - (len + 1)) = above maxBits len lens := by
      rw [above_succ, ← start, add_mul]
    rw [firstCodes]
    simp only [counts (len + 1) (le_refl _)]
    by_cases last : len = 0
    · subst last
      exact ⟨_, rfl⟩
    · have halves : maxBits - len = maxBits - (len + 1) + 1 := by omega
      -- The total is the sum but for multiples of twice its unit.
      have even : (curstart + lens.count (len + 1)) % 2 = 0 := by
        obtain ⟨k, e⟩ : ∃ k, kraftSum maxBits lens =
            above maxBits len lens + k * 2 ^ (maxBits - len) := above_mod (by omega)
        have unit : 2 ^ (maxBits - len) ∣ kraftSum maxBits lens := (pow_dvd_pow 2 (by omega)).trans half
        have own : 2 ^ (maxBits - len) ∣ above maxBits len lens := by
          rw [e] at unit
          exact (Nat.dvd_add_left (dvd_mul_left _ _)).1 unit
        rw [← total, halves, pow_succ, mul_comm (2 ^ _) 2] at own
        exact mod_eq_zero_of_dvd (Nat.dvd_of_mul_dvd_mul_right (Nat.two_pow_pos _) own)
      rw [if_neg (by omega)]
      have inside : len + 1 < histo.length := by omega
      refine ih (by simpa using room) (by omega) ?_ fun l small => ?_
      · have whole : (curstart + lens.count (len + 1)) / 2 * 2 =
            curstart + lens.count (len + 1) := by omega
        rw [← total, halves, pow_succ, mul_comm (2 ^ _) 2, ← mul_assoc, whole]
      · have other : len + 1 ≠ l := by omega
        simp only [getD_eq_getElem?_getD, getElem?_set_ne other]
        simpa [getD_eq_getElem?_getD] using counts l (by omega)

end First

/-- The entries of the symbols with codes of one length, in the order of the alphabet. -/
def codeTiles (maxBits len : Nat) : Nat → List (Nat × Nat) → List (Tile Nat)
  | _, [] => []
  | i, (l, code) :: rest =>
    if l = len then ⟨i, code * 2 ^ (maxBits - len), 2 ^ (maxBits - len)⟩ :: codeTiles maxBits len (i + 1) rest
    else codeTiles maxBits len (i + 1) rest

/-- The entries of all coded symbols: the longest codes first, and those of one length in the order
of the alphabet. -/
def canonicalTiles (maxBits : Nat) (codes : List (Nat × Nat)) : List (Tile Nat) :=
  (List.range maxBits).flatMap fun shorter => codeTiles maxBits (maxBits - shorter) 0 codes

section Tiled

variable {maxBits len : Nat} {lens : List Nat}

theorem codeTiles_tiles {histo : List Nat} {i : Nat} (positive : len ≠ 0) (inside : len < histo.length)
    (small : histo.getD len 0 + lens.length ≤ 2 ^ 16) :
    Tiles (histo.getD len 0 * 2 ^ (maxBits - len))
      (codeTiles maxBits len i (lens.zip (assignCodes lens histo)))
      ((histo.getD len 0 + lens.count len) * 2 ^ (maxBits - len)) := by
  induction lens generalizing histo i with
  | nil => simp [codeTiles, Tiles]
  | cons l lens ih =>
    rw [length_cons] at small
    by_cases none : l = 0
    · rw [assignCodes, if_pos none, zip_cons_cons, codeTiles, if_neg (by omega)]
      have rest := @ih histo (i + 1) inside (by omega)
      rwa [count_cons_of_ne (by omega)]
    · rw [assignCodes, if_neg none, zip_cons_cons, codeTiles]
      have inside' : len < (histo.modify l (· + 1)).length := by simpa using inside
      by_cases same : l = len
      · -- The symbol takes the next code, and the others of its length those after it.
        subst same
        have next : (histo.modify l (· + 1)).getD l 0 = histo.getD l 0 + 1 := by
          simp [getD_eq_getElem?_getD, inside]
        have rest := @ih (histo.modify l (· + 1)) (i + 1) inside' (by rw [next]; omega)
        rw [next] at rest
        rw [if_pos rfl, mod_eq_of_lt (by omega), count_cons_self]
        refine ⟨rfl, ?_⟩
        rw [add_comm (lens.count l) 1, ← add_assoc]
        have stop : Tile.stop (⟨i, histo.getD l 0 * 2 ^ (maxBits - l), 2 ^ (maxBits - l)⟩ : Tile Nat) =
            (histo.getD l 0 + 1) * 2 ^ (maxBits - l) := by rw [succ_mul]; rfl
        rw [stop]
        exact rest
      · have kept : (histo.modify l (· + 1)).getD len 0 = histo.getD len 0 := by
          simp [getD_eq_getElem?_getD, same]
        have rest := @ih (histo.modify l (· + 1)) (i + 1) inside' (by rw [kept]; omega)
        rw [kept] at rest
        rw [if_neg same, count_cons_of_ne same]
        exact rest

theorem canonicalTiles_tiles {histo : List Nat} (bounded : ∀ l ∈ lens, l ≤ maxBits)
    (room : maxBits < histo.length) (short : lens.length ≤ maxCodes)
    (first : ∀ l, 1 ≤ l → l ≤ maxBits → histo.getD l 0 * 2 ^ (maxBits - l) = above maxBits l lens) :
    Tiles 0 (canonicalTiles maxBits (lens.zip (assignCodes lens histo))) (kraftSum maxBits lens) := by
  have upTo : ∀ n ≤ maxBits, Tiles 0 ((range n).flatMap fun shorter =>
        codeTiles maxBits (maxBits - shorter) 0 (lens.zip (assignCodes lens histo)))
      (above maxBits (maxBits - n) lens) := by
    intro n
    induction n with
    | zero =>
      intro _
      exact (above_all bounded).symm
    | succ n ih =>
      intro within
      rw [range_succ, flatMap_append, flatMap_singleton]
      refine (ih (by omega)).append ?_
      have positive : 1 ≤ maxBits - n := by omega
      have start := first (maxBits - n) positive (sub_le _ _)
      have few : histo.getD (maxBits - n) 0 ≤ lens.length := by
        refine le_of_mul_le_mul_right ?_ (Nat.two_pow_pos (maxBits - (maxBits - n)))
        rw [start]
        exact above_le _ _ _
      have tiles := @codeTiles_tiles maxBits (maxBits - n) lens histo 0 (by omega) (by omega)
        (by simp only [maxCodes] at short; omega)
      have next : maxBits - n = maxBits - (n + 1) + 1 := by omega
      have stop : above maxBits (maxBits - (n + 1)) lens = above maxBits (maxBits - n) lens +
          lens.count (maxBits - n) * 2 ^ (maxBits - (maxBits - n)) := by
        rw [next]
        exact above_succ
      rw [add_mul, start] at tiles
      rw [stop]
      exact tiles
  have whole := upTo maxBits (le_refl _)
  rwa [Nat.sub_self] at whole

end Tiled

section Table

variable {maxBits : Nat}

/-- The entries of a coded symbol. -/
def symbolTile (maxBits i len code : Nat) : Tile Nat := ⟨i, code * 2 ^ (maxBits - len), 2 ^ (maxBits - len)⟩

variable {codes : List (Nat × Nat)}

theorem mem_codeTiles {len i : Nat} {tile : Tile Nat} : tile ∈ codeTiles maxBits len i codes ↔
      ∃ k code, codes[k]? = some (len, code) ∧ tile = symbolTile maxBits (i + k) len code := by
  induction codes generalizing i with
  | nil => simp [codeTiles]
  | cons head rest ih =>
    obtain ⟨l, code⟩ := head
    have later : tile ∈ codeTiles maxBits len (i + 1) rest ↔
        ∃ k code', ((l, code) :: rest)[k + 1]? = some (len, code') ∧
          tile = symbolTile maxBits (i + (k + 1)) len code' := by
      rw [ih]
      simp only [getElem?_cons_succ, add_assoc, add_comm 1]
    rw [codeTiles]
    split
    · rename_i same
      subst same
      rw [mem_cons, later]
      constructor
      · rintro (rfl | ⟨k, code', found, e⟩)
        · exact ⟨0, code, rfl, rfl⟩
        · exact ⟨k + 1, code', found, e⟩
      · rintro ⟨_ | k, code', found, e⟩
        · obtain ⟨-, rfl⟩ := Prod.mk.inj (some.inj found)
          exact .inl e
        · exact .inr ⟨k, code', found, e⟩
    · rename_i other
      rw [later]
      constructor
      · rintro ⟨k, code', found, e⟩
        exact ⟨k + 1, code', found, e⟩
      · rintro ⟨_ | k, code', found, e⟩
        · exact absurd (Prod.mk.inj (some.inj found)).1 other
        · exact ⟨k, code', found, e⟩

theorem mem_canonicalTiles (bounded : ∀ pair ∈ codes, pair.1 ≤ maxBits) {tile : Tile Nat} :
    tile ∈ canonicalTiles maxBits codes ↔ ∃ i len code, codes[i]? = some (len, code) ∧ len ≠ 0 ∧
        tile = symbolTile maxBits i len code := by
  rw [canonicalTiles, mem_flatMap]
  constructor
  · rintro ⟨shorter, listed, member⟩
    obtain ⟨k, code, found, rfl⟩ := mem_codeTiles.1 member
    have below := mem_range.1 listed
    exact ⟨k, maxBits - shorter, code, found, by omega, by rw [zero_add]⟩
  · rintro ⟨i, len, code, found, coded, rfl⟩
    have within : len ≤ maxBits := bounded (len, code) (mem_of_getElem? found)
    refine ⟨maxBits - len, mem_range.2 (by omega), mem_codeTiles.2 ⟨i, code, ?_, ?_⟩⟩
    · rwa [show maxBits - (maxBits - len) = len by omega]
    · rw [show maxBits - (maxBits - len) = len by omega, zero_add]

theorem getD_fillRun (table : List Nat) (dest count value place : Nat) (room : dest + count ≤ table.length) :
    (fillRun table dest count value).getD place 0 =
      if dest ≤ place ∧ place < dest + count then value else table.getD place 0 := by
  induction count generalizing table dest with
  | zero => rw [fillRun, if_neg (by omega)]
  | succ count ih =>
    rw [fillRun, ih _ _ (by rw [length_set]; omega)]
    by_cases first : place = dest
    · subst first
      have inside : place < table.length := by omega
      rw [if_neg (by omega), if_pos (by omega)]
      simp [getD_eq_getElem?_getD, inside]
    · have other : (table.set dest value).getD place 0 = table.getD place 0 := by
        simp [getD_eq_getElem?_getD, getElem?_set_ne (Ne.symm first)]
      rw [other]
      have same : (dest + 1 ≤ place ∧ place < dest + 1 + count) ↔
          (dest ≤ place ∧ place < dest + (count + 1)) := by omega
      simp only [same]

variable (bits : maxBits ≤ maxBitsLimit)
include bits

theorem shifted_code {len code : Nat} (small : code < 2 ^ 16) :
    code <<< (maxBits - len) % 2 ^ 32 = code * 2 ^ (maxBits - len) := by
  have shift : 2 ^ (maxBits - len) ≤ 2 ^ 16 := Nat.pow_le_pow_right (by decide) (by
    simp only [maxBitsLimit] at bits
    omega)
  rw [shiftLeft_eq, mod_eq_of_lt]
  calc code * 2 ^ (maxBits - len) ≤ code * 2 ^ 16 := mul_le_mul_left _ shift
    _ < 2 ^ 16 * 2 ^ 16 := mul_lt_mul_of_pos_right small (by decide)

theorem fillTable_cons {i len code : Nat} {rest : List (Nat × Nat)} {table : List Nat}
    (coded : len ≠ 0) (small : code < 2 ^ 16) :
    fillTable maxBits i ((len, code) :: rest) table =
      if table.length < (symbolTile maxBits i len code).stop then (table, .errorData)
      else fillTable maxBits (i + 1) rest
        (fillRun table (code * 2 ^ (maxBits - len)) (2 ^ (maxBits - len)) (entry i len)) := by
  simp only [fillTable, if_neg coded, shifted_code bits small, one_shiftLeft]
  rfl

theorem fillTable_ok {i : Nat} {table : List Nat} (small : ∀ pair ∈ codes, pair.2 < 2 ^ 16) :
    (fillTable maxBits i codes table).2 = .ok ↔ ∀ (k len code : Nat), codes[k]? = some (len, code) → len ≠ 0 →
        (symbolTile maxBits (i + k) len code).stop ≤ table.length := by
  induction codes generalizing i table with
  | nil => simp [fillTable]
  | cons head rest ih =>
    obtain ⟨l, c⟩ := head
    have smallRest := fun pair listed => small pair (mem_cons_of_mem _ listed)
    have later : ∀ {P : Nat → Nat → Nat → Prop},
        (∀ k len code, ((l, c) :: rest)[k]? = some (len, code) → P k len code) ↔
          P 0 l c ∧ ∀ k len code, rest[k]? = some (len, code) → P (k + 1) len code := by
      intro P
      constructor
      · exact fun all => ⟨all 0 l c rfl, fun k len code found => all (k + 1) len code found⟩
      · rintro ⟨first, others⟩ k len code found
        cases k with
        | zero =>
          obtain ⟨rfl, rfl⟩ := Prod.mk.inj (some.inj found)
          exact first
        | succ k => exact others k len code found
    rw [later]
    by_cases none : l = 0
    · rw [fillTable, if_pos none, ih smallRest]
      simp only [none, ne_eq, not_true_eq_false, false_implies, true_and, add_right_comm i 1, add_assoc]
    · have first : c < 2 ^ 16 := small (l, c) mem_cons_self
      rw [fillTable_cons bits none first]
      split
      · rename_i outside
        simp only [reduceCtorEq, false_iff]
        exact fun all => absurd (all.1 none) (not_le.2 outside)
      · rename_i inside
        rw [ih smallRest]
        simp only [length_fillRun, add_right_comm i 1, add_assoc]
        exact ⟨fun rest => ⟨fun _ => Nat.le_of_not_lt inside, rest⟩, And.right⟩

theorem getD_fillTable {i : Nat} {table : List Nat} (small : ∀ pair ∈ codes, pair.2 < 2 ^ 16)
    (filled : (fillTable maxBits i codes table).2 = .ok) (place : Nat) :
    ((∀ (k len code : Nat), codes[k]? = some (len, code) → len ≠ 0 →
        ¬(symbolTile maxBits (i + k) len code).Holds place) →
      (fillTable maxBits i codes table).1.getD place 0 = table.getD place 0) ∧
    ∀ (k len code : Nat), codes[k]? = some (len, code) → len ≠ 0 →
      (symbolTile maxBits (i + k) len code).Holds place →
      (∀ (j l c : Nat), k < j → codes[j]? = some (l, c) → l ≠ 0 →
        ¬(symbolTile maxBits (i + j) l c).Holds place) →
      (fillTable maxBits i codes table).1.getD place 0 = entry (i + k) len := by
  induction codes generalizing i table with
  | nil => exact ⟨fun _ => rfl, fun k len code found => by simp at found⟩
  | cons head rest ih =>
    obtain ⟨l, c⟩ := head
    have smallRest := fun pair listed => small pair (mem_cons_of_mem _ listed)
    by_cases none : l = 0
    · rw [fillTable, if_pos none] at filled ⊢
      obtain ⟨kept, written⟩ := ih smallRest filled
      simp only [add_right_comm i 1, add_assoc] at kept written
      refine ⟨fun free => kept fun k len code found coded => free (k + 1) len code found coded,
        fun k len code found coded holds free => ?_⟩
      cases k with
      | zero =>
        obtain ⟨rfl, -⟩ := Prod.mk.inj (some.inj found)
        exact absurd none coded
      | succ k =>
        exact written k len code found coded holds fun j l c later found coded =>
          free (j + 1) l c (by omega) found coded
    · have first : c < 2 ^ 16 := small (l, c) mem_cons_self
      rw [fillTable_cons bits none first] at filled ⊢
      split at filled
      · cases filled
      · rename_i inside
        rw [if_neg inside]
        obtain ⟨kept, written⟩ := ih smallRest filled
        simp only [add_right_comm i 1, add_assoc] at kept written
        have own := getD_fillRun table (c * 2 ^ (maxBits - l)) (2 ^ (maxBits - l)) (entry i l) place
          (Nat.le_of_not_lt inside)
        refine ⟨fun free => ?_, fun k len code found coded holds free => ?_⟩
        · rw [kept fun k len code found coded => free (k + 1) len code found coded]
          exact own.trans (if_neg (free 0 l c rfl none))
        · cases k with
          | zero =>
            obtain ⟨rfl, rfl⟩ := Prod.mk.inj (some.inj found)
            rw [kept fun j l c found coded => free (j + 1) l c (by omega) found coded]
            exact own.trans (if_pos holds)
          | succ k =>
            exact written k len code found coded holds fun j l c later found coded =>
              free (j + 1) l c (by omega) found coded

end Table

section Build

variable {d : Dec}

/-- The codes with their lengths, for the alphabet in order. -/
def Dec.pairs (d : Dec) (codes : List Nat) : List (Nat × Nat) := d.lens.zip codes

theorem assignCodes_small {lens histo : List Nat} {code : Nat}
    (listed : code ∈ assignCodes lens histo) : code < 2 ^ 16 := by
  induction lens generalizing histo with
  | nil => exact absurd listed not_mem_nil
  | cons l lens ih =>
    rw [assignCodes] at listed
    split at listed
    · rcases mem_cons.1 listed with rfl | later
      · decide
      · exact ih later
    · rcases mem_cons.1 listed with rfl | later
      · exact mod_lt _ (by decide)
      · exact ih later

theorem length_assignCodes (lens histo : List Nat) : (assignCodes lens histo).length = lens.length := by
  induction lens generalizing histo with
  | nil => rfl
  | cons l lens ih =>
    rw [assignCodes]
    split <;> rw [length_cons, ih, length_cons]

/-- The lengths that are not refused: none is too long, and their sum is a multiple of half the
look-ahead. -/
structure Dec.Halved (d : Dec) : Prop where
  bounded : ∀ len ∈ d.lens, len ≤ d.maxBits
  half : 2 ^ (d.maxBits - 1) ∣ kraftSum d.maxBits d.lens

/-- What the codes of a decoder satisfy. -/
structure Dec.Assigned (d : Dec) (codes : List Nat) : Prop extends d.Halved where
  tiles : Tiles 0 (canonicalTiles d.maxBits (d.pairs codes)) (kraftSum d.maxBits d.lens)
  small : ∀ code ∈ codes, code < 2 ^ 16
  length : codes.length = d.lens.length

variable {codes : List Nat}

/-- Codes that are assigned tile the look-ahead. -/
theorem Dec.assigned_spec (assigned : d.assigned = some codes) : d.Assigned codes := by
  have bits : d.maxBits ≤ 16 := d.bits.2
  have positive := d.bits.1
  simp only [Dec.assigned, bind_eq_bind, bind_eq_some_iff, Option.pure_def, some.injEq] at assigned
  obtain ⟨histo, counted, first, started, rfl⟩ := assigned
  have bounded : ∀ len ∈ d.lens, len ≤ d.maxBits := by
    intro len listed
    by_contra long
    rw [countLengths_none listed (Nat.lt_of_not_le long)] at counted
    cases counted
  have room : d.maxBits < (replicate (maxBitsLimit + 1) 0).length := by
    rw [length_replicate]
    exact lt_succ_of_le d.bits.2
  obtain ⟨histo', counted', size, each⟩ := countLengths_eq bounded room
  obtain rfl := some.inj (counted.symm.trans counted')
  have roomy : d.maxBits < histo.length := size ▸ room
  obtain ⟨-, starts, half⟩ := firstCodes_spec started roomy (le_refl _)
    (by rw [above_all bounded, zero_mul]) fun l small => by rw [each l small, getD_zeros, zero_add]
  have sized : first.length = histo.length := length_firstCodes started
  exact {
    bounded := bounded
    half := half positive
    tiles := canonicalTiles_tiles bounded (by omega)
      (by rw [Dec.lens, length_map]; exact d.codes.2) starts
    small := fun code => assignCodes_small
    length := length_assignCodes _ _ }

theorem Dec.assigned_isSome (halved : d.Halved) : ∃ codes, d.assigned = some codes := by
  have room : d.maxBits < (replicate (maxBitsLimit + 1) 0).length := by
    rw [length_replicate]
    exact lt_succ_of_le d.bits.2
  obtain ⟨histo, counted, size, each⟩ := countLengths_eq halved.bounded room
  obtain ⟨first, started⟩ := firstCodes_isSome (size ▸ room) (le_refl _)
    (by rw [above_all halved.bounded, zero_mul]) (fun l small => by
      rw [each l small, getD_zeros, zero_add]) halved.half
  exact ⟨_, by simp only [Dec.assigned, counted, started, bind_eq_bind, bind_some]; rfl⟩

variable (assigned : d.Assigned codes)
include assigned

theorem Dec.Assigned.pairs_mem {pair : Nat × Nat} (listed : pair ∈ d.pairs codes) :
    pair.1 ≤ d.maxBits ∧ pair.2 < 2 ^ 16 := by
  obtain ⟨first, second⟩ := of_mem_zip (a := pair.1) (b := pair.2) listed
  exact ⟨assigned.bounded _ first, assigned.small _ second⟩

theorem Dec.Assigned.mem_tiles {tile : Tile Nat} : tile ∈ canonicalTiles d.maxBits (d.pairs codes) ↔
      ∃ i len code, (d.pairs codes)[i]? = some (len, code) ∧ len ≠ 0 ∧
        tile = symbolTile d.maxBits i len code :=
  mem_canonicalTiles fun _ listed => (assigned.pairs_mem listed).1

theorem Dec.Assigned.apart {i j len l code c : Nat}
    (first : (d.pairs codes)[i]? = some (len, code)) (coded : len ≠ 0)
    (second : (d.pairs codes)[j]? = some (l, c)) (coded' : l ≠ 0) (other : i ≠ j) {place : Nat}
    (holds : (symbolTile d.maxBits i len code).Holds place) :
    ¬(symbolTile d.maxBits j l c).Holds place :=
  assigned.tiles.apart (assigned.mem_tiles.2 ⟨_, _, _, first, coded, rfl⟩)
    (assigned.mem_tiles.2 ⟨_, _, _, second, coded', rfl⟩)
    (fun e => other (congrArg Tile.item e)) holds

theorem Dec.Assigned.fills_iff {table : List Nat} : (fillTable d.maxBits 0 (d.pairs codes) table).2 = .ok ↔
      kraftSum d.maxBits d.lens ≤ table.length := by
  rw [fillTable_ok d.bits.2 fun pair listed => (assigned.pairs_mem listed).2]
  constructor
  · intro inside
    -- The last entry claimed belongs to some symbol.
    by_contra beyond
    obtain ⟨tile, member, holds⟩ := assigned.tiles.covers (zero_le _)
      (sub_lt (lt_of_le_of_lt (zero_le _) (Nat.lt_of_not_le beyond)) one_pos)
    obtain ⟨i, len, code, found, coded, rfl⟩ := assigned.mem_tiles.1 member
    have stop := inside i len code found coded
    have last := holds.2
    rw [zero_add] at stop
    omega
  · intro within k len code found coded
    rw [zero_add]
    exact le_trans (assigned.tiles.within (assigned.mem_tiles.2 ⟨_, _, _, found, coded, rfl⟩)).2 within

omit assigned

theorem Dec.length_cleared (d : Dec) : d.cleared.length = d.lookup.length := by
  rw [Dec.cleared]
  split
  · exact length_replicate
  · rfl

theorem Dec.table_eq (found : d.assigned = some codes) :
    d.table = fillTable d.maxBits 0 (d.pairs codes) d.cleared := by
  simp only [Dec.table, found, Dec.pairs]

theorem build_ok_iff :
    (rhuffDecBuild d).2 = .ok ↔ d.Halved ∧ kraftSum d.maxBits d.lens ≤ d.lookup.length := by
  rw [rhuffDecBuild]
  cases found : d.assigned with
  | none =>
    have refused : d.table.2 = .errorData := by simp only [Dec.table, found]
    simp only [refused, reduceCtorEq, false_iff]
    rintro ⟨halved, -⟩
    obtain ⟨codes, found'⟩ := Dec.assigned_isSome halved
    rw [found] at found'
    cases found'
  | some codes =>
    have assigned := Dec.assigned_spec found
    simp only [Dec.table_eq found, assigned.fills_iff, Dec.length_cleared]
    exact ⟨fun within => ⟨assigned.toHalved, within⟩, And.right⟩

include assigned

theorem Dec.Assigned.getD_lookup
    (found : d.assigned = some codes) (built : (rhuffDecBuild d).2 = .ok) {i len code : Nat}
    (symbol : (d.pairs codes)[i]? = some (len, code)) (coded : len ≠ 0) {place : Nat}
    (holds : (symbolTile d.maxBits i len code).Holds place) :
    (rhuffDecBuild d).1.lookup.getD place 0 = entry i len := by
  have filled : (fillTable d.maxBits 0 (d.pairs codes) d.cleared).2 = .ok := by
    rw [← Dec.table_eq found]
    exact built
  have written := (getD_fillTable d.bits.2 (fun pair listed => (assigned.pairs_mem listed).2)
    filled place).2 i len code symbol coded (by rwa [zero_add]) fun j l c later second coded' => by
      rw [zero_add]
      exact assigned.apart symbol coded second coded' (by omega) holds
  rw [zero_add] at written
  change d.table.1.getD place 0 = _
  rw [Dec.table_eq found]
  exact written

end Build

open MsbBits

theorem entry_eq {i len : Nat} (symbol : i < maxCodes) (short : len ≤ maxBitsLimit) :
    entry i len = i * 2 ^ lookupLenBits + len := by
  simp only [maxCodes, maxBitsLimit] at symbol short
  rw [entry, lookupLenBits, ← shiftLeft_add_eq_or_of_lt (by omega), shiftLeft_eq,
    mod_eq_of_lt (by omega)]

/-- A symbol that has a code. -/
def Dec.Coded (d : Dec) (sym : Nat) : Prop := sym < d.lens.length ∧ d.lens.getD sym 0 ≠ 0

instance (d : Dec) (sym : Nat) : Decidable (d.Coded sym) := inferInstanceAs (Decidable (_ ∧ _))

section Symbols

variable {d : Dec} {codes : List Nat}

theorem Dec.Assigned.pair (assigned : d.Assigned codes) {sym : Nat} (coded : d.Coded sym) :
    (d.pairs codes)[sym]? = some (d.lens.getD sym 0, codes.getD sym 0) := by
  have inside : sym < d.lens.length := coded.1
  have inside' : sym < codes.length := by rw [assigned.length]; exact inside
  simp [Dec.pairs, getD_eq_getElem?_getD, inside, inside']

theorem symbolTile_holds {maxBits sym len code after : Nat} (small : after < 2 ^ (maxBits - len)) :
    (symbolTile maxBits sym len code).Holds (code * 2 ^ (maxBits - len) + after) :=
  ⟨Nat.le_add_right _ _, Nat.add_lt_add_left small _⟩

theorem Dec.Assigned.code_lt (assigned : d.Assigned codes)
    (fits : kraftSum d.maxBits d.lens ≤ 2 ^ d.maxBits) {sym : Nat} (coded : d.Coded sym) :
    codes.getD sym 0 < 2 ^ d.lens.getD sym 0 := by
  have short : d.lens.getD sym 0 ≤ d.maxBits := (assigned.pairs_mem (mem_of_getElem? (assigned.pair coded))).1
  have stop := (assigned.tiles.within (assigned.mem_tiles.2 ⟨_, _, _, assigned.pair coded, coded.2, rfl⟩)).2
  have whole : 2 ^ d.maxBits = 2 ^ d.lens.getD sym 0 * 2 ^ (d.maxBits - d.lens.getD sym 0) := by
    rw [← pow_add]
    congr 1
    omega
  simp only [Tile.stop, symbolTile, ← succ_mul] at stop
  refine lt_of_succ_le (le_of_mul_le_mul_right ?_ (Nat.two_pow_pos (d.maxBits - d.lens.getD sym 0)))
  rw [← whole]
  exact le_trans stop fits

theorem decodeOne_symbol (assigned : d.Assigned codes) (found : d.assigned = some codes)
    (built : (rhuffDecBuild d).2 = .ok) {sym : Nat} (coded : d.Coded sym) {b : Bits} {place : Nat}
    (stands : b.Stands place) (code : window b.data place (d.lens.getD sym 0) = codes.getD sym 0) :
    (rhuffDecDecodeOne (rhuffDecBuild d).1 b).1 = sym ∧
      (rhuffDecDecodeOne (rhuffDecBuild d).1 b).2.Stands (place + d.lens.getD sym 0) ∧
      (rhuffDecDecodeOne (rhuffDecBuild d).1 b).2.data = b.data ∧
      (rhuffDecDecodeOne (rhuffDecBuild d).1 b).2.used = b.used + d.lens.getD sym 0 := by
  have limit : d.maxBits ≤ 16 := d.bits.2
  have short : d.lens.getD sym 0 ≤ d.maxBits := (assigned.pairs_mem (mem_of_getElem? (assigned.pair coded))).1
  have alphabet : sym < maxCodes := by
    have inside := coded.1
    rw [Dec.lens, length_map] at inside
    exact lt_of_lt_of_le inside d.codes.2
  obtain ⟨peeked, after, data, used, _⟩ := rhuffBitsPeek_stands stands d.bits.1 (by omega)
  -- The look-ahead is the code and some bits after it.
  have split : window b.data place d.maxBits = codes.getD sym 0 * 2 ^ (d.maxBits - d.lens.getD sym 0) +
        window b.data (place + d.lens.getD sym 0) (d.maxBits - d.lens.getD sym 0) := by
    conv_lhs => rw [show d.maxBits = d.lens.getD sym 0 + (d.maxBits - d.lens.getD sym 0) by omega]
    rw [window_add, code]
  have value : (rhuffDecBuild d).1.lookup.getD (rhuffBitsPeek b d.maxBits).1 0 =
      sym * 2 ^ lookupLenBits + d.lens.getD sym 0 := by
    rw [peeked, split, assigned.getD_lookup found built (assigned.pair coded) coded.2
      (symbolTile_holds (window_lt _ _)), entry_eq alphabet (le_trans short d.bits.2)]
  have length : (sym * 2 ^ lookupLenBits + d.lens.getD sym 0) % 2 ^ lookupLenBits = d.lens.getD sym 0 := by
    rw [Nat.mul_comm, mul_add_mod, mod_eq_of_lt]
    simp only [lookupLenBits]
    omega
  have symbol : (sym * 2 ^ lookupLenBits + d.lens.getD sym 0) >>> lookupLenBits = sym := by
    rw [Nat.shiftRight_eq_div_pow, Nat.mul_comm, Nat.mul_add_div (Nat.two_pow_pos _), div_eq_of_lt, add_zero]
    simp only [lookupLenBits]
    omega
  obtain ⟨removed, data', used'⟩ := rhuffBitsRemove_stands after (n := d.lens.getD sym 0) (by omega)
  have maxBits : (rhuffDecBuild d).1.maxBits = d.maxBits := rfl
  simp only [rhuffDecDecodeOne, maxBits, value, length, if_neg coded.2, symbol]
  exact ⟨trivial, removed, data'.trans data, by rw [used', used]⟩

/-- The bits of a symbol's code, the first one highest. -/
def Dec.codeBits (d : Dec) (codes : List Nat) (sym : Nat) : List Nat :=
  MsbBits.digits (codes.getD sym 0) (d.lens.getD sym 0)

theorem decodeSymbols_codes (assigned : d.Assigned codes) (found : d.assigned = some codes)
    (built : (rhuffDecBuild d).2 = .ok) (fits : kraftSum d.maxBits d.lens ≤ 2 ^ d.maxBits)
    {syms : List Nat} (coded : ∀ sym ∈ syms, d.Coded sym) {b : Bits} {place : Nat}
    (stands : b.Stands place) (text : syms.flatMap (d.codeBits codes) <+: (bits b.data).drop place) :
    (decodeSymbols (rhuffDecBuild d).1 syms.length b).1 = syms ∧
      (decodeSymbols (rhuffDecBuild d).1 syms.length b).2.Stands (place + (syms.map (d.lens.getD · 0)).sum) ∧
      (decodeSymbols (rhuffDecBuild d).1 syms.length b).2.used =
        b.used + (syms.map (d.lens.getD · 0)).sum := by
  induction syms generalizing b place with
  | nil => exact ⟨rfl, stands, rfl⟩
  | cons sym syms ih =>
    have first := coded sym mem_cons_self
    rw [flatMap_cons] at text
    have code := window_digits (assigned.code_lt fits first) ((prefix_append _ _).trans text)
    obtain ⟨symbol, after, data, used⟩ := decodeOne_symbol assigned found built first stands code
    have rest : syms.flatMap (d.codeBits codes) <+:
        (bits (rhuffDecDecodeOne (rhuffDecBuild d).1 b).2.data).drop (place + d.lens.getD sym 0) := by
      obtain ⟨tail, e⟩ := text
      refine ⟨tail, ?_⟩
      have width : (d.codeBits codes sym).length = d.lens.getD sym 0 := length_digits _ _
      rw [data, ← List.drop_drop, ← e, List.append_assoc, ← width, drop_left]
    obtain ⟨symbols, ends, consumed⟩ := ih (fun sym listed => coded sym (mem_cons_of_mem _ listed)) after rest
    simp only [length_cons, decodeSymbols, map_cons, List.sum_cons, ← add_assoc]
    exact ⟨by rw [symbol, symbols], ends, by rw [consumed, used]⟩

end Symbols

/-- A build that succeeds assigns codes whose entries tile the look-ahead, the longest codes first and
those of one length in the order of the alphabet; and the codes of any symbols, from wherever a
reader stands and whatever follows them, decode to these symbols and to no bit more. -/
theorem build_decodes (d : Dec) (exact : d.lookup.length = 2 ^ d.maxBits)
    (built : (rhuffDecBuild d).2 = .ok) :
    ∃ codes, d.assigned = some codes ∧
      Tiles 0 (canonicalTiles d.maxBits (d.pairs codes)) (kraftSum d.maxBits d.lens) ∧
      ∀ (syms : List Nat), (∀ sym ∈ syms, d.Coded sym) → ∀ (b : Bits) (place : Nat),
        b.Stands place → syms.flatMap (d.codeBits codes) <+: (bits b.data).drop place →
        ∃ after, decodeSymbols (rhuffDecBuild d).1 syms.length b = (syms, after) ∧
          after.Stands (place + (syms.map (d.lens.getD · 0)).sum) ∧
          after.used = b.used + (syms.map (d.lens.getD · 0)).sum := by
  obtain ⟨halved, fits⟩ := build_ok_iff.1 built
  rw [exact] at fits
  obtain ⟨codes, found⟩ := Dec.assigned_isSome halved
  have assigned := Dec.assigned_spec found
  refine ⟨codes, found, assigned.tiles, fun syms coded b place stands text => ?_⟩
  obtain ⟨symbols, ends, used⟩ := decodeSymbols_codes assigned found built fits coded stands text
  exact ⟨_, Prod.ext symbols rfl, ends, used⟩

/-- A tree of three symbols, whose codes are one bit and twice two bits long. -/
def smallTree : Dec where
  lookup := [0, 0, 0, 0]
  maxBits := 2
  lengths := [1, 2, 2]
  codes := by decide
  bits := by decide
  room := by decide

/-- The three symbols of the small tree are read from the byte 10001 with other bits behind. -/
theorem build_decodes_smallTree : ∃ codes, smallTree.assigned = some codes ∧
      ∃ after, decodeSymbols (rhuffDecBuild smallTree).1 3 (rhuffBitsInit [0x8D]) =
        ([0, 1, 2], after) ∧ after.used = 5 := by
  obtain ⟨codes, found, -, decodes⟩ := build_decodes smallTree (by decide) (by decide)
  obtain rfl : [1, 0, 1] = codes := Option.some.inj found
  obtain ⟨after, read, -, used⟩ := decodes [0, 1, 2] (by decide) (rhuffBitsInit [0x8D]) 0
    (rhuffBitsInit_stands _) (by decide)
  exact ⟨_, found, after, read, used⟩

/-- The lengths describe a complete prefix code. -/
def Dec.Complete (d : Dec) : Prop :=
  (∀ len ∈ d.lens, len ≤ d.maxBits) ∧ kraftSum d.maxBits d.lens = 2 ^ d.maxBits

/-- Every pattern of the look-ahead has the entry of a symbol with a code. -/
def Dec.Decodes (d : Dec) : Prop :=
  ∀ peeked < 2 ^ d.maxBits, ∃ sym, d.Coded sym ∧ d.lookup.getD peeked 0 = entry sym (d.lens.getD sym 0) ∧
    d.lookup.getD peeked 0 % 2 ^ lookupLenBits ≠ 0

theorem Dec.Complete.decodes {d : Dec} (complete : d.Complete)
    (built : (rhuffDecBuild d).2 = .ok) : (rhuffDecBuild d).1.Decodes := by
  obtain ⟨halved, -⟩ := build_ok_iff.1 built
  obtain ⟨codes, found⟩ := Dec.assigned_isSome halved
  have assigned := Dec.assigned_spec found
  intro peeked below
  have inside : peeked < kraftSum d.maxBits d.lens := complete.2.symm ▸ below
  obtain ⟨tile, member, holds⟩ := assigned.tiles.covers (zero_le _) inside
  obtain ⟨sym, len, code, symbol, coded, rfl⟩ := assigned.mem_tiles.1 member
  have listed : d.lens[sym]? = some len := (getElem?_zip_eq_some.1 symbol).1
  obtain ⟨inside, -⟩ := List.getElem?_eq_some_iff.1 listed
  have length : d.lens.getD sym 0 = len := by rw [getD_eq_getElem?_getD, listed]; rfl
  have alphabet : sym < maxCodes := by
    rw [Dec.lens, length_map] at inside
    exact lt_of_lt_of_le inside d.codes.2
  have short : len ≤ maxBitsLimit := le_trans (complete.1 len (mem_of_getElem? listed)) d.bits.2
  have value := assigned.getD_lookup found built symbol coded holds
  refine ⟨sym, ⟨inside, fun none => coded (length.symm.trans none)⟩, ?_, ?_⟩
  · rw [value]
    exact congrArg (entry sym) length.symm
  · rw [value, entry_eq alphabet short, Nat.mul_comm, mul_add_mod, mod_eq_of_lt]
    · exact coded
    · simp only [maxBitsLimit, lookupLenBits] at short ⊢
      omega

end Libretro.Huffman
