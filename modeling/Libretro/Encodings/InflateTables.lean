import Libretro.Encodings.InflateCopies
import Libretro.Library.DeflateLaws

/-! The tables that code lengths build: the canonical code, by length and by index. -/

namespace Libretro.Inflate

open BitString CanonicalCode Nat
open List hiding count length

/-- A table that says what the canonical code of the lengths says. -/
structure Built (h : Huff) (lengths : List Nat) : Prop where
  fits : Fits lengths rinfMaxBits
  firstcode : ∀ len, 1 ≤ len → len ≤ rinfMaxBits → h.firstcode len = first lengths len
  maxcode : ∀ len, 1 ≤ len → len ≤ rinfMaxBits → h.maxcode len = first lengths len + count lengths len
  value : ∀ sym, Coded lengths sym → h.value (h.firstsym (lengths.getD sym 0) + rank lengths sym) = sym
  fast : ∀ sym, Coded lengths sym → lengths.getD sym 0 ≤ rinfFastBits →
    ∀ j, reversed j (lengths.getD sym 0) = code lengths sym → h.fast j = sym <<< 4 ||| lengths.getD sym 0
  fastOnly : ∀ j, h.fast j ≠ 0 → ∃ sym, Coded lengths sym ∧ lengths.getD sym 0 ≤ rinfFastBits ∧
    reversed j (lengths.getD sym 0) = code lengths sym

theorem codeAt_eq (lengths : List Nat) (len : Nat) : codeAt (sizes lengths) len = first lengths len := by
  induction len with
  | zero => rfl
  | succ len ih =>
    rw [codeAt, ih, shiftLeft_eq, first, mul_comm]
    rfl

theorem symAt_eq (lengths : List Nat) (len : Nat) : symAt (sizes lengths) len = shorter lengths len := by
  induction len with
  | zero => rfl
  | succ len ih =>
    rw [symAt, ih, shorter]
    rfl

theorem leftOver_spec (lengths : List Nat) (n : Nat) : ∀ (len left : Nat),
    left + (first lengths len + count lengths len) = 2 ^ len →
      (leftOver (sizes lengths) n (len + 1) left ≠ none ↔ ∀ longer, len < longer → longer ≤ len + n →
          first lengths longer + count lengths longer ≤ 2 ^ longer) := by
  -- What is left of a length is twice what was left before, less the codes it takes.
  induction n with
  | zero =>
    intro len left _
    simp only [leftOver, ne_eq, reduceCtorEq, not_false_eq_true, true_iff]
    intro longer less most
    omega
  | succ n ih =>
    intro len left balance
    have next : first lengths (len + 1) = 2 * (first lengths len + count lengths len) := rfl
    have size : sizes lengths (len + 1) = count lengths (len + 1) := rfl
    have double := pow_succ 2 len
    rw [leftOver, shiftLeft_eq, pow_one, size]
    by_cases many : left * 2 < count lengths (len + 1)
    · simp only [if_pos many, ne_eq, not_true_eq_false, false_iff]
      intro all
      have here := all (len + 1) (by omega) (by omega)
      omega
    · rw [if_neg many, ih (len + 1) (left * 2 - count lengths (len + 1)) (by omega)]
      constructor
      · intro later longer less most
        by_cases here : longer = len + 1
        · subst here
          omega
        · exact later longer (by omega) (by omega)
      · intro all longer less most
        exact all longer (by omega) (by omega)

/-- What holds while the symbols are given their codes, with those below `i` done. -/
structure Assigned (lengths : List Nat) (i : Nat) (nextCode : Nat → Nat) (h : Huff) : Prop where
  nextCode : ∀ len, 1 ≤ len → len ≤ rinfMaxBits →
    nextCode len = first lengths len + (lengths.take i).count len
  firstcode : ∀ len, 1 ≤ len → len ≤ rinfMaxBits → h.firstcode len = first lengths len
  firstsym : ∀ len, 1 ≤ len → len ≤ rinfMaxBits → h.firstsym len = shorter lengths len
  value : ∀ sym < i, Coded lengths sym →
    h.value (shorter lengths (lengths.getD sym 0) + rank lengths sym) = sym
  fast : ∀ sym < i, Coded lengths sym → lengths.getD sym 0 ≤ rinfFastBits →
    ∀ j, reversed j (lengths.getD sym 0) = code lengths sym → h.fast j = sym <<< 4 ||| lengths.getD sym 0
  fastOnly : ∀ j, h.fast j ≠ 0 → ∃ sym, Coded lengths sym ∧ lengths.getD sym 0 ≤ rinfFastBits ∧
    reversed j (lengths.getD sym 0) = code lengths sym

theorem Assigned.skip {lengths : List Nat} {i : Nat} {nextCode : Nat → Nat} {h : Huff}
    (assigned : Assigned lengths i nextCode h) (listed : i < lengths.length)
    (zero : lengths[i] = 0) : Assigned lengths (i + 1) nextCode h := by
  have uncoded : ¬Coded lengths i := by
    intro coded
    have positive := coded.positive
    rw [getD_eq_getElem _ _ listed] at positive
    omega
  refine { assigned with nextCode := ?_, value := ?_, fast := ?_ }
  · intro len positive most
    have other : ¬0 = len := by omega
    rw [assigned.nextCode len positive most, take_succ_eq_append_getElem listed,
      count_append, count_singleton, zero]
    simp only [beq_iff_eq, if_neg other, add_zero]
  · intro sym below coded
    by_cases here : sym = i
    · exact absurd (here ▸ coded) uncoded
    · exact assigned.value sym (by omega) coded
  · intro sym below coded
    by_cases here : sym = i
    · exact absurd (here ▸ coded) uncoded
    · exact assigned.fast sym (by omega) coded

theorem Assigned.give {lengths : List Nat} {i : Nat} {nextCode : Nat → Nat} {h : Huff}
    (fits : Fits lengths rinfMaxBits) (assigned : Assigned lengths i nextCode h)
    (listed : i < lengths.length) {len : Nat} (same : lengths[i] = len) (positive : 1 ≤ len) :
    Assigned lengths (i + 1) (update nextCode len (nextCode len + 1))
      { h with
        size := update h.size (h.firstsym len + (nextCode len - h.firstcode len)) len
        value := update h.value (h.firstsym len + (nextCode len - h.firstcode len)) i
        fast := if len ≤ rinfFastBits then
          splat h.fast len (reversed (nextCode len) len) (i <<< 4 ||| len) else h.fast } := by
  have most : len ≤ rinfMaxBits := same ▸ fits.1 _ (getElem_mem listed)
  have here : lengths.getD i 0 = len := by rw [getD_eq_getElem _ _ listed, same]
  have coded : Coded lengths i := ⟨listed, by omega⟩
  -- The next code of the length is this symbol's, and its index is its place in code order.
  have given : nextCode len = code lengths i := by rw [assigned.nextCode len positive most, code, rank, here]
  have place : h.firstsym len + (nextCode len - h.firstcode len) =
      shorter lengths (lengths.getD i 0) + rank lengths i := by
    rw [assigned.firstsym len positive most, assigned.firstcode len positive most, given, code,
      here, Nat.add_sub_cancel_left]
  have small : nextCode len < 2 ^ len := by
    have bound := code_lt fits coded
    rw [here] at bound
    omega
  rw [place]
  refine ⟨?_, assigned.firstcode, assigned.firstsym, ?_, ?_, ?_⟩
  · intro other positiveToo mostToo
    rw [take_succ_eq_append_getElem listed, count_append, count_singleton, same]
    by_cases equal : other = len
    · subst equal
      simp only [update, if_true, beq_self_eq_true, assigned.nextCode other positive most]
      omega
    · simp only [update, if_neg equal, beq_iff_eq, Ne.symm equal, if_false, add_zero]
      exact assigned.nextCode other positiveToo mostToo
  · intro sym below codedToo
    show update h.value _ i _ = sym
    by_cases equal : sym = i
    · subst equal
      simp [update]
    · rw [update, if_neg fun clash => equal (place_injective codedToo coded clash)]
      exact assigned.value sym (by omega) codedToo
  · intro sym below codedToo short j found
    show (if len ≤ rinfFastBits then
      splat h.fast len (reversed (nextCode len) len) (i <<< 4 ||| len) else h.fast) j =
        sym <<< 4 ||| lengths.getD sym 0
    by_cases equal : sym = i
    · -- The splat stores this symbol at every index its code begins.
      subst equal
      rw [here] at found short ⊢
      rw [if_pos short, splat, if_pos ((mod_eq_reversed_iff small).mpr (found.trans given.symm))]
    · have before := assigned.fast sym (by omega) codedToo short j found
      split
      · rw [splat]
        split
        · rename_i clash
          have foundToo := (mod_eq_reversed_iff small).mp clash
          rw [given, ← here] at foundToo
          exact absurd (code_prefixFree codedToo coded found foundToo) equal
        · exact before
      · exact before
  · intro j some
    replace some : (if len ≤ rinfFastBits then
      splat h.fast len (reversed (nextCode len) len) (i <<< 4 ||| len) else h.fast) j ≠ 0 := some
    by_cases short : len ≤ rinfFastBits
    · rw [if_pos short, splat] at some
      by_cases hit : j % 2 ^ len = reversed (nextCode len) len
      · refine ⟨i, coded, by omega, ?_⟩
        rw [here, ← given]
        exact (mod_eq_reversed_iff small).mp hit
      · rw [if_neg hit] at some
        exact assigned.fastOnly j some
    · rw [if_neg short] at some
      exact assigned.fastOnly j some

theorem assign_assigned {lengths : List Nat} (fits : Fits lengths rinfMaxBits) (rest : List Nat) :
    ∀ (i : Nat) (nextCode : Nat → Nat) (h : Huff), lengths.drop i = rest → i ≤ lengths.length →
      Assigned lengths i nextCode h →
      ∃ last, Assigned lengths lengths.length last (assign rest i nextCode h) := by
  induction rest with
  | nil =>
    intro i nextCode h left within assigned
    have all : i = lengths.length := by
      have short := congrArg List.length left
      simp only [length_drop, length_nil] at short
      omega
    subst all
    exact ⟨nextCode, assigned⟩
  | cons len rest ih =>
    intro i nextCode h left within assigned
    have listed : i < lengths.length := by
      have long := congrArg List.length left
      simp only [length_drop, length_cons] at long
      omega
    rw [drop_eq_getElem_cons listed] at left
    obtain ⟨same, left⟩ := cons.inj left
    rw [assign]
    by_cases zero : len = 0
    · rw [if_pos zero]
      exact ih (i + 1) nextCode h left listed (assigned.skip listed (same.trans zero))
    · rw [if_neg zero]
      exact ih (i + 1) _ _ left listed (assigned.give fits listed same (by omega))

theorem assign_maxcode (lengths : List Nat) : ∀ (i : Nat) (nextCode : Nat → Nat) (h : Huff),
    (assign lengths i nextCode h).maxcode = h.maxcode := by
  induction lengths with
  | nil =>
    intro i nextCode h
    rfl
  | cons len rest ih =>
    intro i nextCode h
    rw [assign]
    split
    · exact ih _ _ _
    · exact ih _ _ _

theorem makesCode_iff (lengths : List Nat) : Deflate.makesCode lengths = true ↔ Fits lengths rinfMaxBits := by
  unfold Deflate.makesCode Fits
  simp only [Bool.and_eq_true, all_eq_true, decide_eq_true_eq, mem_range'_1]
  constructor
  · exact fun ⟨short, room⟩ => ⟨short, fun len least most => room len ⟨least, by
      show len < 1 + 15
      have bound : len ≤ 15 := most
      omega⟩⟩
  · exact fun ⟨short, room⟩ => ⟨short, fun len ⟨least, most⟩ => room len least (by
      show len ≤ 15
      have bound : len < 1 + 15 := most
      omega)⟩

/-- A table is built exactly from lengths that make a code, and then says what the code says. -/
theorem rinfBuild_spec (h : Huff) (lengths : List Nat) : (rinfBuild h lengths).1 = Deflate.makesCode lengths ∧
      (Deflate.makesCode lengths = true → Built (rinfBuild h lengths).2 lengths) := by
  have checked := leftOver_spec lengths rinfMaxBits 0 1 rfl
  have fits := makesCode_iff lengths
  unfold rinfBuild
  dsimp only
  by_cases long : lengths.any (decide <| rinfMaxBits < ·) = true
  · -- A length is too long.
    rw [if_pos long]
    have wrong : ¬Fits lengths rinfMaxBits := by
      intro fits
      obtain ⟨len, listed, beyond⟩ := any_eq_true.mp long
      have short := fits.1 len listed
      simp only [decide_eq_true_eq] at beyond
      omega
    rw [← fits] at wrong
    simp only [Bool.not_eq_true] at wrong
    exact ⟨wrong.symm, fun right => by rw [wrong] at right; cases right⟩
  rw [if_neg long]
  have short : ∀ len ∈ lengths, len ≤ rinfMaxBits := by
    intro len listed
    by_contra beyond
    exact long (any_eq_true.mpr ⟨len, listed, by simpa using beyond⟩)
  by_cases many : leftOver (sizes lengths) rinfMaxBits 1 1 = none
  · rw [if_pos many]
    have wrong : ¬Fits lengths rinfMaxBits := by
      intro fits
      apply checked.mpr _ many
      intro longer less most
      exact fits.2 longer less (by omega)
    rw [← fits] at wrong
    simp only [Bool.not_eq_true] at wrong
    exact ⟨wrong.symm, fun right => by rw [wrong] at right; cases right⟩
  rw [if_neg many]
  have right : Fits lengths rinfMaxBits := ⟨short, fun len least most => checked.mp many len least (by omega)⟩
  refine ⟨(fits.mpr right).symm, fun _ => ?_⟩
  have power : ∀ len, len ≤ rinfMaxBits → 2 ^ len ≤ 2 ^ rinfMaxBits := fun len most =>
    Nat.pow_le_pow_right (by decide) most
  have small : ∀ len, 1 ≤ len → len ≤ rinfMaxBits → first lengths len + count lengths len < 2 ^ 16 := by
    intro len least most
    have room := right.2 len least most
    have bound := power len most
    have top : 2 ^ rinfMaxBits = 32768 := rfl
    omega
  -- Before the first symbol, the codes of every length start from the first.
  have start : Assigned lengths 0 (codeAt (sizes lengths))
      { fast := fun _ => 0, pfast := h.pfast
        firstcode := overLengths (fun len => codeAt (sizes lengths) len % 2 ^ 16) h.firstcode
        firstsym := overLengths (symAt (sizes lengths)) h.firstsym
        maxcode := update (overLengths
          (fun len => (codeAt (sizes lengths) len + sizes lengths len) % 2 ^ 16) h.maxcode)
          (rinfMaxBits + 1) 0xFFFF
        size := h.size, value := h.value, numSymbols := lengths.length } := by
    refine ⟨?_, ?_, ?_, nofun, nofun, fun _ some => absurd rfl some⟩
    · intro len _ _
      rw [codeAt_eq, take_zero, count_nil, add_zero]
    · intro len least most
      have bound := small len least most
      dsimp only
      rw [overLengths, if_pos ⟨least, most⟩, codeAt_eq, mod_eq_of_lt (by omega)]
    · intro len least most
      dsimp only
      rw [overLengths, if_pos ⟨least, most⟩, symAt_eq]
  obtain ⟨last, assigned⟩ := assign_assigned right lengths 0 _ _ rfl (zero_le _) start
  have kept := assign_maxcode lengths 0 (codeAt (sizes lengths))
  refine ⟨right, assigned.firstcode, ?_, ?_, ?_, assigned.fastOnly⟩
  · intro len least most
    have bound := small len least most
    have size : sizes lengths len = count lengths len := rfl
    have inside : ¬len = rinfMaxBits + 1 := by omega
    rw [kept]
    dsimp only
    rw [update, if_neg inside, overLengths, if_pos ⟨least, most⟩, codeAt_eq, size, mod_eq_of_lt bound]
  · intro sym coded
    have most : lengths.getD sym 0 ≤ rinfMaxBits := by
      rw [getD_eq_getElem _ _ coded.listed]
      exact short _ (getElem_mem coded.listed)
    rw [assigned.firstsym _ coded.positive most]
    exact assigned.value sym coded.listed coded
  · intro sym coded
    exact assigned.fast sym coded.listed coded

end Libretro.Inflate
