import Libretro.Encodings.DeflateLengths
import Libretro.Library.CanonicalCode
import Mathlib.Data.Nat.Bitwise

/-! Lengths that are too long are redistributed to a complete code, and the codes made are prefix-free. -/

namespace Libretro.RDeflate

open Function Kraft Symbol
open Nat hiding pow_succ'
open List hiding sum

variable {maxBits l2 other : Nat} {lc : List Nat} {bl : Nat → Nat}

theorem longest_spec (bl : Nat → Nat) (l2 : Nat) :
    longest bl l2 ≤ l2 ∧ (longest bl l2 ≠ 0 → bl (longest bl l2) ≠ 0) ∧
      ∀ len, longest bl l2 < len → len ≤ l2 → bl len = 0 := by
  induction l2 with
  | zero => exact ⟨Nat.le_refl _, fun some => absurd rfl some, fun len less most => by
      rw [longest] at less
      omega⟩
  | succ l2 ih =>
    rw [longest]
    by_cases none : bl (l2 + 1) = 0
    · rw [if_pos none]
      obtain ⟨most, some, empty⟩ := ih
      refine ⟨le_succ_of_le most, some, fun len less within => ?_⟩
      by_cases last : len = l2 + 1
      · rw [last, none]
      · exact empty len less (by omega)
    · rw [if_neg none]
      exact ⟨Nat.le_refl _, fun _ => none, fun len less within => by omega⟩

theorem replace_perm (listed : l2 ∈ lc) : (lc.replace l2 other).Perm (other :: lc.erase l2) := by
  induction lc with
  | nil => cases listed
  | cons len lc ih =>
    by_cases same : len = l2
    · subst same
      simp
    · have later : l2 ∈ lc := (mem_cons.1 listed).resolve_left (Ne.symm same)
      have different : (l2 == len) = false := by simpa using Ne.symm same
      rw [replace_cons, different, erase_cons_tail (by simpa using same)]
      exact ((ih later).cons len).trans (.swap other len _)

/-- The places that codes shorter than the longest take. -/
def shorterPlaces (maxBits : Nat) (lc : List Nat) : Nat := places maxBits (lc.filter (· < maxBits))

theorem places_split (short : ∀ len ∈ lc, len ≤ maxBits) :
    places maxBits lc = shorterPlaces maxBits lc + lc.count maxBits := by
  induction lc with
  | nil => rfl
  | cons len lc ih =>
    have rest := ih fun other listed => short other (mem_cons_of_mem _ listed)
    have here := short len mem_cons_self
    rw [places_cons, rest, shorterPlaces, shorterPlaces]
    by_cases longest : len = maxBits
    · subst longest
      simp only [Nat.sub_self, Nat.pow_zero, filter_cons, lt_irrefl, decide_false,
        Bool.false_eq_true, if_false, count_cons_self]
      omega
    · have less : len < maxBits := by omega
      rw [filter_cons_of_pos (by simpa using less), places_cons,
        count_cons_of_ne longest]
      omega

theorem dvd_places (most : l2 ≤ maxBits) (short : ∀ len ∈ lc, len ≤ l2) :
    2 ^ (maxBits - l2) ∣ places maxBits lc := by
  induction lc with
  | nil => exact dvd_zero _
  | cons len lc ih =>
    have here := short len mem_cons_self
    rw [places_cons]
    exact Nat.dvd_add (Nat.pow_dvd_pow 2 (by omega))
      (ih fun other listed => short other (mem_cons_of_mem _ listed))

/-- What holds throughout the redistribution. -/
structure Repair.Holds (maxBits m : Nat) (s : Repair) : Prop where
  length : s.lc.length = m
  least : ∀ len ∈ s.lc, 1 ≤ len
  most : ∀ len ∈ s.lc, len ≤ maxBits
  counts : ∀ len, s.bl len = s.lc.count len
  kraft : s.kraft = places maxBits s.lc
  deep : 2 ^ maxBits ≤ s.kraft + s.lc.count maxBits

variable {m kraft : Nat} {s : Repair}

theorem Repair.Holds.move (holds : s.Holds maxBits m) (listed : l2 ∈ s.lc) (least : 1 ≤ other)
    (most : other ≤ maxBits) (balance : kraft + 2 ^ (maxBits - l2) = s.kraft + 2 ^ (maxBits - other))
    (deep : 2 ^ maxBits ≤ kraft + (other :: s.lc.erase l2).count maxBits) :
    (s.move l2 other kraft).Holds maxBits m := by
  have changed := @replace_perm l2 other s.lc listed
  have members : ∀ len ∈ s.lc.replace l2 other, len = other ∨ len ∈ s.lc := by
    intro len inside
    rcases mem_cons.1 (changed.mem_iff.1 inside) with new | old
    · exact .inl new
    · exact .inr (mem_of_mem_erase old)
  refine ⟨?_, ?_, ?_, ?_, ?_, ?_⟩
  · exact length_replace.trans holds.length
  · intro len inside
    rcases members len inside with rfl | old
    · exact least
    · exact holds.least len old
  · intro len inside
    rcases members len inside with rfl | old
    · exact most
    · exact holds.most len old
  · intro len
    have count := changed.count_eq len
    rw [count_cons, count_erase] at count
    show Function.update (Function.update s.bl l2 (s.bl l2 - 1)) other _ len =
      (s.lc.replace l2 other).count len
    rw [count]
    by_cases new : len = other
    · subst new
      rw [update_self, beq_self_eq_true, if_pos rfl]
      by_cases same : len = l2
      · subst same
        rw [update_self, beq_self_eq_true, if_pos rfl, holds.counts]
      · rw [update_of_ne same, if_neg (by simpa using Ne.symm same), holds.counts,
          Nat.sub_zero]
    · have notNew : ¬(other == len) = true := by simpa using Ne.symm new
      rw [update_of_ne new, if_neg notNew, add_zero]
      by_cases same : len = l2
      · subst same
        rw [update_self, beq_self_eq_true, if_pos rfl, holds.counts]
      · rw [update_of_ne same, if_neg (by simpa using Ne.symm same), holds.counts,
          Nat.sub_zero]
  · have before := @places_perm _ _ maxBits (perm_cons_erase listed)
    have after := @places_perm _ _ maxBits changed
    rw [places_cons] at before after
    have total := holds.kraft
    show kraft = places maxBits (s.lc.replace l2 other)
    omega
  · show 2 ^ maxBits ≤ kraft + (s.lc.replace l2 other).count maxBits
    rw [changed.count_eq maxBits]
    exact deep

theorem one_shift (most : l2 ≤ maxBits) : (1 <<< maxBits) >>> l2 = 2 ^ (maxBits - l2) := by
  rw [Nat.one_shiftLeft, Nat.shiftRight_eq_div_pow, Nat.pow_div most (by decide)]

theorem Repair.Holds.lengthen (holds : s.Holds maxBits m) (bounded : maxBits ≤ 31)
    (few : m ≤ 288) (below : shorterPlaces maxBits s.lc < 2 ^ maxBits)
    (more : 1 <<< maxBits < s.kraft) (some : longest s.bl (maxBits - 1) ≠ 0) :
    (s.lengthen maxBits).Holds maxBits m ∧ shorterPlaces maxBits (s.lengthen maxBits).lc < 2 ^ maxBits ∧
      (s.lengthen maxBits).kraft < s.kraft := by
  obtain ⟨most, there, empty⟩ := longest_spec s.bl (maxBits - 1)
  obtain ⟨l2, isLongest⟩ : ∃ l2, l2 = longest s.bl (maxBits - 1) := ⟨_, rfl⟩
  rw [Repair.lengthen, ← isLongest]
  rw [← isLongest] at most there empty some
  have listed : l2 ∈ s.lc := by
    rw [← count_pos_iff, ← holds.counts]
    exact Nat.pos_of_ne_zero (there some)
  -- The shorter codes take whole groups of places, and at least one group is left for the longest.
  have groups : 2 ^ (maxBits - l2) ∣ shorterPlaces maxBits s.lc := by
    refine dvd_places (by omega) fun len inside => ?_
    obtain ⟨old, less⟩ := mem_filter.1 inside
    replace less := of_decide_eq_true less
    by_contra longer
    have none := empty len (by omega) (by omega)
    rw [holds.counts, count_eq_zero] at none
    exact none old
  have room : shorterPlaces maxBits s.lc + 2 ^ (maxBits - l2) ≤ 2 ^ maxBits := by
    obtain ⟨taken, eq⟩ := groups
    obtain ⟨all, whole⟩ : 2 ^ (maxBits - l2) ∣ 2 ^ maxBits := Nat.pow_dvd_pow 2 (by omega)
    rw [eq, whole] at below ⊢
    have fewer := Nat.lt_of_mul_lt_mul_left below
    calc 2 ^ (maxBits - l2) * taken + 2 ^ (maxBits - l2)
        = 2 ^ (maxBits - l2) * (taken + 1) := (Nat.mul_succ _ _).symm
      _ ≤ 2 ^ (maxBits - l2) * all := Nat.mul_le_mul_left _ fewer
  have split := places_split holds.most
  have half : 2 ^ (maxBits - l2) = 2 * 2 ^ (maxBits - (l2 + 1)) := by
    rw [← Nat.pow_succ']
    congr 1
    omega
  have positive := Nat.two_pow_pos (maxBits - (l2 + 1))
  have long : s.lc.count maxBits ≤ m := holds.length ▸ count_le_length
  have sum := holds.kraft
  have top : 2 ^ maxBits ≤ 2 ^ 31 := Nat.pow_le_pow_right (by decide) bounded
  have deeper : s.lc.count maxBits ≤ ((l2 + 1) :: s.lc.erase l2).count maxBits := by
    have other : ¬(l2 == maxBits) = true := by
      rw [beq_iff_eq]
      omega
    rw [count_cons, count_erase, if_neg other]
    omega
  rw [one_shift (by omega)]
  rw [Nat.one_shiftLeft] at more
  have value : (s.kraft + 2 ^ 32 - 2 ^ (maxBits - (l2 + 1))) % 2 ^ 32 =
      s.kraft - 2 ^ (maxBits - (l2 + 1)) := by
    omega
  rw [value]
  have after : (s.move l2 (l2 + 1) (s.kraft - 2 ^ (maxBits - (l2 + 1)))).Holds maxBits m :=
    holds.move listed (by omega) (by omega) (by omega) (by omega)
  refine ⟨after, ?_, ?_⟩
  · have splitAfter := places_split after.most
    have sumAfter := after.kraft
    have countAfter := (@replace_perm l2 (l2 + 1) s.lc listed).count_eq maxBits
    have same : (s.move l2 (l2 + 1) (s.kraft - 2 ^ (maxBits - (l2 + 1)))).lc = s.lc.replace l2 (l2 + 1) := rfl
    have total : (s.move l2 (l2 + 1) (s.kraft - 2 ^ (maxBits - (l2 + 1)))).kraft =
        s.kraft - 2 ^ (maxBits - (l2 + 1)) := rfl
    rw [same] at splitAfter sumAfter ⊢
    omega
  · show s.kraft - 2 ^ (maxBits - (l2 + 1)) < s.kraft
    omega

theorem Repair.Holds.shorten (holds : s.Holds maxBits m) (bounded : maxBits ≤ 31)
    (two : 2 ≤ m) (less : s.kraft < 1 <<< maxBits) :
    (s.shorten maxBits).Holds maxBits m ∧ (s.shorten maxBits).kraft = s.kraft + 1 := by
  rw [Nat.one_shiftLeft] at less
  have deep := holds.deep
  have split := places_split holds.most
  have sum := holds.kraft
  have some : s.lc.count maxBits ≠ 0 := by omega
  have listed : maxBits ∈ s.lc := count_pos_iff.1 (Nat.pos_of_ne_zero some)
  have positive := holds.least maxBits listed
  have isLongest : longest s.bl maxBits = maxBits := by
    obtain ⟨before, rfl⟩ : ∃ before, maxBits = before + 1 := ⟨maxBits - 1, by omega⟩
    rw [longest, if_neg (by rw [holds.counts]; exact some)]
  -- Two codes of one bit would be complete.
  have two_le : 2 ≤ maxBits := by
    by_contra one
    obtain rfl : maxBits = 1 := by omega
    have all : ∀ len ∈ s.lc, len = 1 := fun len inside =>
      le_antisymm (holds.most len inside) (holds.least len inside)
    have count : s.lc.count 1 = s.lc.length := count_eq_length.2 fun len inside =>
      (all len inside).symm
    have length := holds.length
    omega
  have top : 2 ^ maxBits ≤ 2 ^ 31 := Nat.pow_le_pow_right (by decide) bounded
  have unit : (1 <<< maxBits) >>> maxBits = 1 := by rw [one_shift (Nat.le_refl _), Nat.sub_self, Nat.pow_zero]
  rw [Repair.shorten, isLongest, unit, mod_eq_of_lt (by omega)]
  refine ⟨holds.move listed (by omega) (by omega) ?_ ?_, rfl⟩
  · have double : maxBits - (maxBits - 1) = 1 := by omega
    rw [double, Nat.sub_self]
    omega
  · have other : ¬(maxBits - 1 == maxBits) = true := by
      rw [beq_iff_eq]
      omega
    rw [count_cons, count_erase, beq_self_eq_true, if_pos rfl, if_neg other]
    omega

theorem kraft_foldl (short : ∀ len ∈ lc, len ≤ maxBits) (kraft : Nat)
    (bounded : kraft + places maxBits lc < 2 ^ 32) :
    lc.foldl (fun kraft len => (kraft + (1 <<< maxBits) >>> len) % 2 ^ 32) kraft =
      kraft + places maxBits lc := by
  induction lc generalizing kraft with
  | nil => rfl
  | cons len lc ih =>
    rw [places_cons] at bounded ⊢
    rw [foldl_cons, one_shift (short len mem_cons_self), mod_eq_of_lt (by omega),
      ih (fun other listed => short other (mem_cons_of_mem _ listed)) _ (by omega)]
    omega

theorem shorterPlaces_min : shorterPlaces maxBits (lc.map (min · maxBits)) = shorterPlaces maxBits lc := by
  induction lc with
  | nil => rfl
  | cons len lc ih =>
    rw [shorterPlaces, shorterPlaces] at ih ⊢
    rw [map_cons, filter_cons, filter_cons]
    by_cases less : len < maxBits
    · have same : min len maxBits = len := min_eq_left (le_of_lt less)
      rw [same, if_pos (by simpa using less), if_pos (by simpa using less), places_cons,
        places_cons, ih]
    · have same : min len maxBits = maxBits := Nat.min_eq_right (Nat.le_of_not_lt less)
      rw [same, if_neg (by simp), if_neg (by simpa using less), ih]

theorem repairStart_holds (bounded : maxBits ≤ 31) (some : 1 ≤ maxBits) (few : lc.length ≤ 288)
    (least : ∀ len ∈ lc, 1 ≤ len) (complete : sum lc = 1) (exceeds : ∃ len ∈ lc, maxBits < len) :
    (repairStart maxBits lc).Holds maxBits lc.length ∧
      shorterPlaces maxBits (repairStart maxBits lc).lc < 2 ^ maxBits := by
  have most : ∀ len ∈ lc.map (min · maxBits), len ≤ maxBits := by
    intro len listed
    obtain ⟨before, -, rfl⟩ := mem_map.1 listed
    exact min_le_right _ _
  have below : shorterPlaces maxBits lc < 2 ^ maxBits := by
    obtain ⟨len, listed, long⟩ := exceeds
    have less := @sum_filter_lt lc (decide <| · < maxBits) len listed (decide_eq_false (by omega))
    have share := @places_eq (lc.filter (decide <| · < maxBits)) maxBits fun len listed =>
      le_of_lt (of_decide_eq_true (mem_filter.1 listed).2)
    have power : (0 : ℚ) < 2 ^ maxBits := by positivity
    have cast : (shorterPlaces maxBits lc : ℚ) < ((2 ^ maxBits : Nat) : ℚ) := by
      rw [shorterPlaces, share, cast_pow, cast_ofNat]
      rw [complete] at less
      nlinarith
    exact_mod_cast cast
  have split := places_split most
  rw [shorterPlaces_min] at split
  have long := @List.count_le_length Nat _ maxBits (lc.map (min · maxBits))
  rw [length_map] at long
  have top : 2 ^ maxBits ≤ 2 ^ 31 := Nat.pow_le_pow_right (by decide) bounded
  have total : (repairStart maxBits lc).kraft = places maxBits (lc.map (min · maxBits)) := by
    show (lc.map (min · maxBits)).foldl _ 0 = _
    rw [kraft_foldl most 0 (by omega), zero_add]
  have enough : 2 ^ maxBits ≤ places maxBits (lc.map (min · maxBits)) := by
    have share := places_eq most
    have grows := @sum_le_min lc maxBits
    have power : (0 : ℚ) < 2 ^ maxBits := by positivity
    have cast : ((2 ^ maxBits : Nat) : ℚ) ≤ (places maxBits (lc.map (min · maxBits)) : ℚ) := by
      rw [share, cast_pow, cast_ofNat]
      rw [complete] at grows
      nlinarith
    exact_mod_cast cast
  refine ⟨⟨length_map .., ?_, most, fun len => rfl, total, ?_⟩, ?_⟩
  · intro len listed
    obtain ⟨before, inside, rfl⟩ := mem_map.1 listed
    have := least before inside
    omega
  · rw [total]
    omega
  · show shorterPlaces maxBits (lc.map (min · maxBits)) < 2 ^ maxBits
    rw [shorterPlaces_min]
    exact below

theorem Repair.Holds.count_le (holds : s.Holds maxBits m) : s.lc.count maxBits ≤ m :=
  holds.length ▸ count_le_length

theorem lengthen_ends {passes : Nat} (bounded : maxBits ≤ 31) (few : m ≤ 288)
    (room : m ≤ 2 ^ maxBits) (enough : m ≤ passes) (start : s.Holds maxBits m)
    (below : shorterPlaces maxBits s.lc < 2 ^ maxBits) :
    ∃ last, BoundedLoop.run (fun s => decide (1 <<< maxBits < s.kraft ∧ longest s.bl (maxBits - 1) ≠ 0))
        (Repair.lengthen maxBits) passes s = some last ∧
      last.Holds maxBits m ∧ last.kraft ≤ 2 ^ maxBits := by
  have split := places_split start.most
  have long := start.count_le
  have sum := start.kraft
  obtain ⟨last, ran, ⟨holds, -⟩, stopped⟩ := @BoundedLoop.run_ends Repair
    (fun s => decide (1 <<< maxBits < s.kraft ∧ longest s.bl (maxBits - 1) ≠ 0))
    (Repair.lengthen maxBits)
    (fun s => s.Holds maxBits m ∧ shorterPlaces maxBits s.lc < 2 ^ maxBits)
    (fun s => s.kraft - 2 ^ maxBits)
    (fun s holds goes => by
      obtain ⟨more, changes⟩ := of_decide_eq_true goes
      obtain ⟨after, belowAfter, less⟩ := holds.1.lengthen bounded few holds.2 more changes
      rw [Nat.one_shiftLeft] at more
      exact ⟨⟨after, belowAfter⟩, by omega⟩)
    passes s ⟨start, below⟩ (by omega)
  refine ⟨last, ran, holds, ?_⟩
  by_contra more
  have stuck : longest last.bl (maxBits - 1) = 0 := by
    by_contra changes
    refine of_decide_eq_false stopped ⟨?_, changes⟩
    rw [Nat.one_shiftLeft]
    omega
  -- Without shorter codes, the longest ones alone have room.
  have none : last.lc.filter (decide <| · < maxBits) = [] := by
    rw [filter_eq_nil_iff]
    intro len listed
    have positive := holds.least len listed
    rw [decide_eq_true_eq]
    intro less
    have empty := (longest_spec last.bl (maxBits - 1)).2.2 len (by omega) (by omega)
    rw [holds.counts, count_eq_zero] at empty
    exact empty listed
  have splitLast := places_split holds.most
  rw [shorterPlaces, none, places_nil, zero_add] at splitLast
  have sumLast := holds.kraft
  have longLast := holds.count_le
  omega

theorem shorten_ends {passes : Nat} (bounded : maxBits ≤ 31) (two : 2 ≤ m) (enough : m ≤ passes)
    (start : s.Holds maxBits m) (fits : s.kraft ≤ 2 ^ maxBits) :
    ∃ last, BoundedLoop.run (fun s => decide (s.kraft < 1 <<< maxBits ∧ longest s.bl maxBits ≠ 0))
        (Repair.shorten maxBits) passes s = some last ∧
      last.Holds maxBits m ∧ last.kraft = 2 ^ maxBits := by
  have long := start.count_le
  have deep := start.deep
  obtain ⟨last, ran, ⟨holds, fitsLast⟩, stopped⟩ := @BoundedLoop.run_ends Repair
    (fun s => decide (s.kraft < 1 <<< maxBits ∧ longest s.bl maxBits ≠ 0))
    (Repair.shorten maxBits)
    (fun s => s.Holds maxBits m ∧ s.kraft ≤ 2 ^ maxBits)
    (fun s => 2 ^ maxBits - s.kraft)
    (fun s holds goes => by
      have less := (of_decide_eq_true goes).1
      obtain ⟨after, more⟩ := holds.1.shorten bounded two less
      rw [Nat.one_shiftLeft] at less
      exact ⟨⟨after, by omega⟩, by omega⟩)
    passes s ⟨start, fits⟩ (by omega)
  refine ⟨last, ran, holds, ?_⟩
  by_contra less
  have stuck : longest last.bl maxBits = 0 := by
    by_contra changes
    refine of_decide_eq_false stopped ⟨?_, changes⟩
    rw [Nat.one_shiftLeft]
    omega
  -- Some code has a length.
  have length := holds.length
  obtain ⟨len, listed⟩ := exists_mem_of_length_pos (by omega : 0 < last.lc.length)
  have positive := holds.least len listed
  have empty := (longest_spec last.bl maxBits).2.2 len (by omega) (holds.most len listed)
  rw [holds.counts, count_eq_zero] at empty
  exact empty listed

theorem redistribute_complete {passes : Nat} (bounded : maxBits ≤ 31) (two : 2 ≤ lc.length)
    (few : lc.length ≤ 288) (room : lc.length ≤ 2 ^ maxBits) (enough : lc.length ≤ passes)
    (least : ∀ len ∈ lc, 1 ≤ len) (complete : sum lc = 1) (exceeds : ∃ len ∈ lc, maxBits < len) :
    ∃ after, redistribute passes maxBits lc = some after ∧ after.length = lc.length ∧
      (∀ len ∈ after, 1 ≤ len ∧ len ≤ maxBits) ∧ sum after = 1 := by
  have some : 1 ≤ maxBits := by
    by_contra none
    obtain rfl : maxBits = 0 := by omega
    rw [Nat.pow_zero] at room
    omega
  obtain ⟨start, below⟩ := repairStart_holds bounded some few least complete exceeds
  obtain ⟨long, ran, holds, fits⟩ := lengthen_ends bounded few room enough start below
  obtain ⟨short, ranToo, holdsToo, full⟩ := shorten_ends bounded two enough holds fits
  refine ⟨short.lc, ?_, holdsToo.length, fun len listed =>
    ⟨holdsToo.least len listed, holdsToo.most len listed⟩, ?_⟩
  · rw [redistribute]
    rw [ran, Option.bind_eq_bind, Option.bind_some, ranToo]
    rfl
  · have share := places_eq holdsToo.most
    rw [← holdsToo.kraft, full, cast_pow, cast_ofNat] at share
    have power : (2 : ℚ) ^ maxBits ≠ 0 := by positivity
    exact mul_left_cancel₀ power (by rw [← share, mul_one])

theorem limitLengths_complete {passes : Nat} (bounded : maxBits ≤ 31) (two : 2 ≤ lc.length)
    (few : lc.length ≤ 288) (room : lc.length ≤ 2 ^ maxBits) (enough : lc.length ≤ passes)
    (least : ∀ len ∈ lc, 1 ≤ len) (complete : sum lc = 1) :
    ∃ after, limitLengths passes maxBits lc = some after ∧ after.length = lc.length ∧
      (∀ len ∈ after, 1 ≤ len ∧ len ≤ maxBits) ∧ sum after = 1 := by
  rw [limitLengths]
  by_cases exceeds : lc.any (decide <| maxBits < ·) = true
  · rw [if_pos exceeds]
    obtain ⟨len, listed, long⟩ := any_eq_true.1 exceeds
    exact redistribute_complete bounded two few room enough least complete
      ⟨len, listed, of_decide_eq_true long⟩
  · rw [if_neg exceeds]
    refine ⟨lc, rfl, rfl, fun len listed => ⟨least len listed, ?_⟩, complete⟩
    by_contra long
    exact exceeds (any_eq_true.2 ⟨len, listed, decide_eq_true (by omega)⟩)

open BitString CanonicalCode List Nat

variable {freq : List UInt32} {symbols : List Symbol} {lens lc lengths : List Nat}

theorem shiftIn_perm (symbol : Symbol) (sorted : List Symbol) :
    (shiftIn symbol sorted).Perm (symbol :: sorted) := by
  induction sorted with
  | nil => exact .refl _
  | cons last before ih =>
    rw [shiftIn]
    split
    · exact (ih.cons last).trans (.swap symbol last before)
    · exact .refl _

theorem sortSymbols_perm (symbols : List Symbol) : (sortSymbols symbols).Perm symbols := by
  -- The induction follows the symbols that are left, behind any that are sorted.
  have all : ∀ sorted : List Symbol,
      (symbols.foldl (fun sorted symbol => shiftIn symbol sorted) sorted).Perm (symbols ++ sorted) := by
    induction symbols with
    | nil => exact fun sorted => .refl _
    | cons symbol symbols ih =>
      intro sorted
      exact (ih _).trans (((shiftIn_perm symbol sorted).append_left symbols).trans perm_middle)
  rw [sortSymbols]
  have sorted := all []
  rw [append_nil] at sorted
  exact (reverse_perm _).trans sorted

theorem mem_usedSymbols (i : Nat) :
    i ∈ (usedSymbols freq).map idx ↔ i < freq.length ∧ freq.getD i 0 ≠ 0 := by
  simp only [usedSymbols, map_map, mem_map, mem_filter, decide_eq_true_eq,
    Prod.exists, Function.comp_apply, mk_mem_zipIdx_iff_getElem?]
  constructor
  · rintro ⟨fr, idx, ⟨found, used⟩, rfl⟩
    obtain ⟨inside, rfl⟩ := List.getElem?_eq_some_iff.1 found
    exact ⟨inside, by rwa [getD_eq_getElem _ _ inside]⟩
  · rintro ⟨inside, used⟩
    rw [getD_eq_getElem _ _ inside] at used
    exact ⟨freq[i], i, ⟨getElem?_eq_getElem inside, used⟩, rfl⟩

theorem usedSymbols_nodup (freq : List UInt32) : ((usedSymbols freq).map idx).Nodup := by
  have indices : (freq.zipIdx.map Prod.snd).Nodup := by
    rw [zipIdx_map_snd]
    exact nodup_range'
  rw [usedSymbols, map_map]
  exact indices.sublist (filter_sublist.map _)

theorem usedSymbols_length (freq : List UInt32) : (usedSymbols freq).length = freq.countP (· ≠ 0) := by
  rw [usedSymbols, length_map, ← countP_eq_length_filter]
  have values := countP_map (p := fun fr : UInt32 => decide (fr ≠ 0)) (f := Prod.fst) (l := freq.zipIdx)
  rw [zipIdx_map_fst] at values
  exact values.symm

theorem storeLengths_spec (same : symbols.length = lc.length) (nodup : (symbols.map idx).Nodup)
    (inside : ∀ i ∈ symbols.map idx, i < lengths.length ∧ lengths.getD i 0 = 0)
    (fits : ∀ len ∈ lc, 1 ≤ len ∧ len < 2 ^ 8) :
    (storeLengths symbols lc lengths).length = lengths.length ∧ (∀ i, i ∉ symbols.map idx →
        (storeLengths symbols lc lengths).getD i 0 = lengths.getD i 0) ∧
      (∀ i ∈ symbols.map idx, (storeLengths symbols lc lengths).getD i 0 ∈ lc) ∧
      ((storeLengths symbols lc lengths).filter (· ≠ 0)).Perm (lc ++ lengths.filter (· ≠ 0)) := by
  -- The induction follows the symbols, whose lengths are stored one by one.
  induction symbols generalizing lc lengths with
  | nil =>
    obtain rfl := length_eq_zero_iff.1 same.symm
    exact ⟨rfl, fun _ _ => rfl, nofun, .refl _⟩
  | cons symbol symbols ih =>
    obtain _ | ⟨len, lc⟩ := lc
    · cases same
    rw [map_cons, nodup_cons] at nodup
    obtain ⟨here, free⟩ := inside symbol.idx mem_cons_self
    obtain ⟨least, most⟩ := fits len mem_cons_self
    have apart : ∀ i ∈ symbols.map idx, symbol.idx ≠ i := fun i listed same =>
      nodup.1 (same ▸ listed)
    have later : ∀ i ∈ symbols.map idx,
        i < (lengths.set symbol.idx len).length ∧ (lengths.set symbol.idx len).getD i 0 = 0 := by
      intro i listed
      obtain ⟨within, zero⟩ := inside i (mem_cons_of_mem _ listed)
      rw [length_set, getD_eq_getElem?_getD, getElem?_set_ne (apart i listed), ← getD_eq_getElem?_getD]
      exact ⟨within, zero⟩
    obtain ⟨length, others, stored, nonzero⟩ := @ih lc (lengths.set symbol.idx len)
      (succ.inj same) nodup.2 later fun other listed => fits other (mem_cons_of_mem _ listed)
    rw [storeLengths, Nat.mod_eq_of_lt most]
    refine ⟨length.trans (length_set ..), ?_, ?_, ?_⟩
    · intro i unlisted
      rw [map_cons, mem_cons, not_or] at unlisted
      rw [others i unlisted.2, getD_eq_getElem?_getD,
        getElem?_set_ne (Ne.symm unlisted.1), ← getD_eq_getElem?_getD]
    · intro i listed
      rcases mem_cons.1 listed with rfl | behind
      · rw [others _ nodup.1, getD_eq_getElem?_getD, getElem?_set_self here,
          Option.getD_some]
        exact mem_cons_self
      · exact mem_cons_of_mem _ (stored i behind)
    · -- The place that is stored to held no length before.
      obtain ⟨front, old, back, parts, place⟩ : ∃ front old back, lengths = front ++ old :: back ∧
          front.length = symbol.idx := by
        refine ⟨lengths.take symbol.idx, lengths[symbol.idx], lengths.drop (symbol.idx + 1), ?_,
          length_take_of_le (le_of_lt here)⟩
        rw [← drop_eq_getElem_cons here, take_append_drop]
      subst parts
      have zero : old = 0 := by
        rw [← place, getD_eq_getElem?_getD, getElem?_append_right (Nat.le_refl _)] at free
        simpa using free
      have put : ((front ++ old :: back).set symbol.idx len).filter (· ≠ 0) =
          front.filter (· ≠ 0) ++ len :: back.filter (· ≠ 0) := by
        rw [← place, set_append_right _ _ (Nat.le_refl _), Nat.sub_self, set_cons_zero,
          filter_append, filter_cons_of_pos (by simp; omega)]
      have before : (front ++ old :: back).filter (· ≠ 0) = front.filter (· ≠ 0) ++ back.filter (· ≠ 0) := by
        rw [filter_append, filter_cons_of_neg (by simp [zero])]
      rw [put] at nonzero
      rw [before]
      refine nonzero.trans ?_
      rw [cons_append]
      exact ((perm_middle).append_left lc).trans perm_middle

theorem nextCode_eq (lens : List Nat) (len : Nat) :
    nextCode (fun len => if len = 0 then 0 else lens.count len) len = first lens len := by
  induction len with
  | zero => rfl
  | succ len ih =>
    rw [nextCode, ih, shiftLeft_eq, first, mul_comm]
    rfl

theorem rdBitrev_eq {code len : Nat} (short : len ≤ 15) : rdBitrev code len = reversed code len := by
  -- The induction follows the bits that are left, behind those that have been reversed.
  have all : ∀ n taken, taken + n ≤ 15 →
      bitrevLoop n (code >>> taken) (reversed code taken) = reversed code (taken + n) := by
    intro n
    induction n with
    | zero => exact fun taken _ => rfl
    | succ n ih =>
      intro taken within
      have bit : (code >>> taken) &&& 1 = code / 2 ^ taken % 2 := by
        rw [and_one_is_mod, shiftRight_eq_div_pow]
      have one : code / 2 ^ taken % 2 < 2 ^ 1 := mod_lt _ (by decide)
      have next : (reversed code taken <<< 1 ||| code >>> taken &&& 1) % 2 ^ 16 =
          reversed code (taken + 1) := by
        have small := reversed_lt code (taken + 1)
        have power : 2 ^ (taken + 1) ≤ 2 ^ 16 := Nat.pow_le_pow_right (by decide) (by omega)
        have grown : 2 * reversed code taken + code / 2 ^ taken % 2 = reversed code (taken + 1) := rfl
        rw [bit, ← shiftLeft_add_eq_or_of_lt one, shiftLeft_eq, pow_one, mul_comm,
          grown, Nat.mod_eq_of_lt (by omega)]
      rw [bitrevLoop, next, ← shiftRight_add, ih (taken + 1) (by omega)]
      congr 1
      omega
  have done := all len 0 (by omega)
  rwa [zero_add] at done

theorem giveCodes_spec (fits : Fits lens 15) (rest : List Nat) : ∀ (i : Nat) (next : Nat → Nat),
    lens.drop i = rest → (∀ len, len ≠ 0 → next len = first lens len + (lens.take i).count len) →
      ∀ sym, i ≤ sym → Coded lens sym → (giveCodes rest next).getD (sym - i) 0 =
          reversed (CanonicalCode.code lens sym) (lens.getD sym 0) := by
  -- Before a symbol, each length has given as many codes as it has had symbols.
  induction rest with
  | nil =>
    intro i next left _ sym least coded
    have short := congrArg List.length left
    rw [length_drop, length_nil] at short
    have listed := coded.listed
    omega
  | cons len rest ih =>
    intro i next left counts sym least coded
    have listed : i < lens.length := by
      have long := congrArg List.length left
      rw [length_drop, length_cons] at long
      omega
    rw [drop_eq_getElem_cons listed] at left
    obtain ⟨same, left⟩ := cons.inj left
    have here : lens.getD i 0 = len := by rw [getD_eq_getElem _ _ listed, same]
    have behind : ∀ next : Nat → Nat,
        (∀ len, len ≠ 0 → next len = first lens len + (lens.take (i + 1)).count len) → sym ≠ i →
        ∀ code, (code :: giveCodes rest next).getD (sym - i) 0 =
          reversed (CanonicalCode.code lens sym) (lens.getD sym 0) := by
      intro next counts other code
      obtain ⟨more, gap⟩ : ∃ more, sym - i = more + 1 := ⟨sym - i - 1, by omega⟩
      rw [gap, getD_cons_succ, ← ih (i + 1) next left counts sym (by omega) coded]
      congr 1
      omega
    rw [giveCodes]
    by_cases used : len ≠ 0
    · rw [if_pos used]
      by_cases now : sym = i
      · -- The next code of the symbol's length is its own.
        subst now
        have small := code_lt fits coded
        have most : len ≤ 15 := same ▸ fits.1 _ (getElem_mem listed)
        have given : next len = CanonicalCode.code lens sym := by
          rw [counts len used, CanonicalCode.code, rank, here]
        have power : 2 ^ len ≤ 2 ^ 16 := Nat.pow_le_pow_right (by decide) (by omega)
        rw [here] at small
        rw [Nat.sub_self, getD_cons_zero, given, Nat.mod_eq_of_lt (by omega),
          rdBitrev_eq most, here]
      · refine behind _ ?_ now _
        intro other some
        rw [take_succ_eq_append_getElem listed, count_append, count_singleton, same]
        by_cases equal : other = len
        · subst equal
          rw [Function.update_self, counts other some, beq_self_eq_true, if_pos rfl, add_assoc]
        · rw [Function.update_of_ne equal, counts other some, if_neg (by simpa using Ne.symm equal),
            add_zero]
    · rw [if_neg used]
      have zero := not_not.1 used
      have other : sym ≠ i := by
        rintro rfl
        have positive := coded.positive
        omega
      refine behind _ ?_ other _
      intro length some
      rw [take_succ_eq_append_getElem listed, count_append, count_singleton, same,
        zero, counts length some, if_neg (by simpa using Ne.symm some), add_zero]

theorem rdCodesFromLengths_spec (fits : Fits lens 15) {sym : Nat} (coded : Coded lens sym) :
    (rdCodesFromLengths lens).getD sym 0 = reversed (CanonicalCode.code lens sym) (lens.getD sym 0) := by
  have given := giveCodes_spec fits lens 0
    (nextCode fun len => if len = 0 then 0 else lens.count len) drop_zero
    (fun len _ => by rw [nextCode_eq, take_zero, count_nil, add_zero]) sym
    (zero_le sym) coded
  rwa [Nat.sub_zero] at given

/-- The bits that are written for a symbol, the lowest one first. -/
def codeword (lens codes : List Nat) (sym : Nat) : List Bool :=
  (List.range (lens.getD sym 0)).map (codes.getD sym 0).testBit

/-- No symbol's code word begins with the code word of another one. -/
def PrefixFree (lens codes : List Nat) : Prop :=
  ∀ sym other, Coded lens sym → Coded lens other →
    codeword lens codes sym <+: codeword lens codes other → sym = other

theorem rdCodesFromLengths_prefixFree (fits : Fits lens 15) : PrefixFree lens (rdCodesFromLengths lens) := by
  intro sym other coded codedToo begins
  have length := begins.length_le
  simp only [codeword, length_map, length_range] at length
  have read : ∀ {sym : Nat}, Coded lens sym →
      reversed ((rdCodesFromLengths lens).getD sym 0) (lens.getD sym 0) = CanonicalCode.code lens sym := by
    intro sym coded
    rw [rdCodesFromLengths_spec fits coded, reversed_reversed, Nat.mod_eq_of_lt (code_lt fits coded)]
  -- The longer code word has the bits of the shorter one lowest.
  have low : (rdCodesFromLengths lens).getD other 0 % 2 ^ lens.getD sym 0 =
      (rdCodesFromLengths lens).getD sym 0 % 2 ^ lens.getD sym 0 := by
    refine eq_of_testBit_eq fun k => ?_
    rw [testBit_mod_two_pow, testBit_mod_two_pow]
    by_cases inside : k < lens.getD sym 0
    · have bit := List.IsPrefix.getElem begins (by simpa [codeword] using inside)
      simp only [codeword, getElem_map, getElem_range] at bit
      rw [bit]
    · rw [decide_eq_false inside, Bool.false_and, Bool.false_and]
  refine code_prefixFree coded codedToo ?_ (read codedToo)
  rw [← reversed_mod _ (Nat.le_refl _), low, reversed_mod _ (Nat.le_refl _), read coded]

/-- For every frequency table with room for its symbols, the lengths are found; used symbols have
lengths between one and the bound, the others none, the code is complete, and the codes that are
made from the lengths are prefix-free. -/
theorem rdGenLengths_complete (scratch : Scratch) {freq : List UInt32} {maxBits passes : Nat}
    (table : freq.length ≤ 288) (two : 2 ≤ freq.countP (· ≠ 0))
    (room : freq.countP (· ≠ 0) ≤ 2 ^ maxBits) (bounded : maxBits ≤ 31) (enough : freq.length ≤ passes) :
    ∃ lengths, rdGenLengths scratch passes freq maxBits = some lengths ∧ lengths.length = freq.length ∧
      (∀ sym < freq.length, (freq.getD sym 0 = 0 → lengths.getD sym 0 = 0) ∧
        (freq.getD sym 0 ≠ 0 → 1 ≤ lengths.getD sym 0 ∧ lengths.getD sym 0 ≤ maxBits)) ∧
      Kraft.sum (lengths.filter (· ≠ 0)) = 1 ∧
      (maxBits ≤ 15 → PrefixFree lengths (rdCodesFromLengths lengths)) := by
  rw [← usedSymbols_length] at two room
  have most : (usedSymbols freq).length ≤ freq.length := by
    rw [usedSymbols_length]
    exact countP_le_length
  have sorted := sortSymbols_perm (usedSymbols freq)
  have many := sorted.length_eq
  have frs : ((sortSymbols (usedSymbols freq)).map fr).length = (usedSymbols freq).length := by
    rw [length_map, many]
  -- The tree is built, and its depths make a complete code.
  obtain ⟨tree, merged, some, children, below⟩ := mergeAll_spec scratch
    ((sortSymbols (usedSymbols freq)).map fr) (by omega)
    (by
      show _ ≤ 288
      omega) (show _ ≤ passes by omega)
  rw [frs] at children
  obtain ⟨length, least, complete⟩ := leafDepths_complete scratch
    (show (usedSymbols freq).length ≤ 288 by omega) some children below
  -- The lengths are limited and stored.
  obtain ⟨lc, limited, same, bounds, full⟩ := limitLengths_complete bounded
    (by rw [length]; exact two) (by rw [length]; omega) (by rw [length]; exact room)
    (show _ ≤ passes by rw [length]; omega) least complete
  have indices := sorted.map idx
  have blank : ∀ i, (replicate freq.length 0).getD i 0 = 0 := by
    intro i
    rw [getD_eq_getElem?_getD, getElem?_replicate]
    split <;> rfl
  have inside : ∀ i ∈ (sortSymbols (usedSymbols freq)).map idx,
      i < (replicate freq.length 0).length ∧ (replicate freq.length 0).getD i 0 = 0 := by
    intro i listed
    rw [length_replicate]
    exact ⟨((mem_usedSymbols i).1 (indices.mem_iff.1 listed)).1, blank i⟩
  obtain ⟨long, unused, stored, nonzero⟩ := storeLengths_spec (by rw [many, same, length])
    (indices.nodup_iff.2 (usedSymbols_nodup freq)) inside fun len listed =>
      ⟨(bounds len listed).1, by
        have := (bounds len listed).2
        omega⟩
  rw [length_replicate] at long
  have members : ∀ sym < freq.length, (freq.getD sym 0 = 0 → (storeLengths (sortSymbols (usedSymbols freq)) lc
        (replicate freq.length 0)).getD sym 0 = 0) ∧
      (freq.getD sym 0 ≠ 0 → 1 ≤ (storeLengths (sortSymbols (usedSymbols freq)) lc
        (replicate freq.length 0)).getD sym 0 ∧ (storeLengths (sortSymbols (usedSymbols freq)) lc
          (replicate freq.length 0)).getD sym 0 ≤ maxBits) := by
    intro sym within
    refine ⟨fun zero => ?_, fun used => ?_⟩
    · have unlisted : sym ∉ (sortSymbols (usedSymbols freq)).map idx := fun listed =>
        ((mem_usedSymbols sym).1 (indices.mem_iff.1 listed)).2 zero
      rw [unused sym unlisted, blank]
    · exact bounds _ (stored sym (indices.mem_iff.2 ((mem_usedSymbols sym).2 ⟨within, used⟩)))
  have sum : Kraft.sum ((storeLengths (sortSymbols (usedSymbols freq)) lc
      (replicate freq.length 0)).filter (· ≠ 0)) = 1 := by
    rw [Kraft.sum_perm nonzero, Kraft.sum_append, full]
    have none : (replicate freq.length 0).filter (· ≠ 0) = [] := by
      rw [filter_eq_nil_iff]
      intro len listed
      rw [eq_of_mem_replicate listed]
      simp
    rw [none, Kraft.sum_nil, add_zero]
  refine ⟨_, ?_, long, members, sum, fun short => ?_⟩
  · rw [rdGenLengths]
    dsimp only
    rw [if_neg (by omega), if_neg (by omega), merged, Option.bind_eq_bind, Option.bind_some, many,
      limited]
    rfl
  · refine rdCodesFromLengths_prefixFree (fits_of_sum_le ?_ sum.le)
    intro len listed
    obtain ⟨sym, within, rfl⟩ := mem_iff_getElem.1 listed
    obtain ⟨zero, used⟩ := members sym (by omega)
    rw [getD_eq_getElem _ _ within] at zero used
    by_cases none : freq.getD sym 0 = 0
    · rw [zero none]
      exact zero_le 15
    · exact (used none).2.trans short

/-- A tree that is deeper than three bits, with a symbol that is not used. -/
theorem rdGenLengths_complete_deep :
    ∃ lengths, rdGenLengths ⟨fun _ => 0, fun _ => 0, fun _ => 0, fun _ => 0⟩ 7
        [1, 1, 2, 0, 3, 5, 8] 3 = some lengths ∧
      Kraft.sum (lengths.filter (· ≠ 0)) = 1 ∧ PrefixFree lengths (rdCodesFromLengths lengths) := by
  obtain ⟨lengths, made, -, -, sum, prefixFree⟩ :=
    rdGenLengths_complete ⟨fun _ => 0, fun _ => 0, fun _ => 0, fun _ => 0⟩
      (show [1, 1, 2, 0, 3, 5, 8].length ≤ 288 by decide) (by decide) (by decide)
      (show 3 ≤ 31 by decide) (show _ ≤ 7 by decide)
  exact ⟨lengths, made, sum, prefixFree (by decide)⟩

end Libretro.RDeflate
