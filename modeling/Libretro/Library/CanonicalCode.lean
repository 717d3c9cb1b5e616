import Libretro.Library.BitString
import Libretro.Library.Kraft

/-! Canonical prefix codes: the codes that code lengths alone determine, and how they are read. -/

namespace CanonicalCode

open BitString Nat
open List hiding drop_length

/-- How many symbols have a code of each length; length zero means no code. -/
def count (lengths : List Nat) (len : Nat) : Nat := if len = 0 then 0 else lengths.count len

/-- The first code of each length. -/
def first (lengths : List Nat) : Nat → Nat
  | 0 => 0
  | len + 1 => 2 * (first lengths len + count lengths len)

/-- The symbols with shorter codes. -/
def shorter (lengths : List Nat) : Nat → Nat
  | 0 => 0
  | len + 1 => shorter lengths len + count lengths len

/-- A symbol's place among those whose codes are as long as its own. -/
def rank (lengths : List Nat) (sym : Nat) : Nat := (lengths.take sym).count (lengths.getD sym 0)

/-- The code of a symbol. -/
def code (lengths : List Nat) (sym : Nat) : Nat := first lengths (lengths.getD sym 0) + rank lengths sym

/-- No length has more codes than are left for it. -/
def Fits (lengths : List Nat) (maxBits : Nat) : Prop :=
  (∀ len ∈ lengths, len ≤ maxBits) ∧
    ∀ len, 1 ≤ len → len ≤ maxBits → first lengths len + count lengths len ≤ 2 ^ len

/-- The symbol that has a given code of a given length. -/
def symbol (lengths : List Nat) (len value : Nat) : Option Nat :=
  (List.range lengths.length).find? fun sym =>
    lengths.getD sym 0 = len ∧ code lengths sym = value

/-- The lengths from one on are tried until the bits read are a code. -/
@[simp] def readFrom (lengths : List Nat) : Nat → Nat → Parser Nat
  | 0, _ => Parser.never
  | n + 1, len => fun bits =>
    if bits.length < len then .short
    else
      match symbol lengths len (reversed bits.value len) with
      | some sym => .read sym (bits.drop len)
      | none => readFrom lengths n (len + 1) bits

/-- A symbol, by its code. -/
def read (lengths : List Nat) (maxBits : Nat) : Parser Nat := readFrom lengths maxBits 1

variable {lengths : List Nat}

/-- A symbol with a code. -/
structure Coded (lengths : List Nat) (sym : Nat) : Prop where
  listed : sym < lengths.length
  positive : 1 ≤ lengths.getD sym 0

variable {sym : Nat}

theorem rank_lt (coded : Coded lengths sym) : rank lengths sym < count lengths (lengths.getD sym 0) := by
  -- The symbol itself is counted behind those in front of it.
  have split : lengths.count (lengths.getD sym 0) = (lengths.take sym).count (lengths.getD sym 0) +
        (lengths.drop sym).count (lengths.getD sym 0) := by
    rw [← count_append, take_append_drop]
  have itself : 0 < (lengths.drop sym).count (lengths.getD sym 0) := by
    rw [drop_eq_getElem_cons coded.listed, getD_eq_getElem _ _ coded.listed, count_cons_self]
    omega
  have positive := coded.positive
  rw [count, if_neg (by omega), rank]
  omega

variable {other : Nat}

theorem rank_strict (listed : sym < lengths.length) (before : sym < other)
    (same : lengths.getD other 0 = lengths.getD sym 0) :
    rank lengths sym < rank lengths other := by
  have longer : (lengths.take other).take (sym + 1) = lengths.take (sym + 1) := by
    rw [take_take, min_eq_left before]
  have within : (lengths.take (sym + 1)).count (lengths.getD sym 0) ≤
      (lengths.take other).count (lengths.getD sym 0) := by
    rw [← longer]
    exact List.Sublist.count_le _ (take_sublist _ _)
  have itself : (lengths.take (sym + 1)).count (lengths.getD sym 0) =
      (lengths.take sym).count (lengths.getD sym 0) + 1 := by
    rw [take_succ_eq_append_getElem listed, count_append, getD_eq_getElem _ _ listed]
    simp
  rw [rank, rank, same]
  omega

theorem rank_injective (listed : sym < lengths.length)
    (listedToo : other < lengths.length) (same : lengths.getD other 0 = lengths.getD sym 0)
    (ranks : rank lengths sym = rank lengths other) : sym = other := by
  rcases lt_trichotomy sym other with before | equal | after
  · have strict := rank_strict listed before same
    omega
  · exact equal
  · have strict := rank_strict listedToo after same.symm
    omega

theorem first_far (lengths : List Nat) (len : Nat) : ∀ more,
    (first lengths len + count lengths len) * 2 ^ (more + 1) ≤ first lengths (len + more + 1) := by
  intro more
  induction more with
  | zero =>
    rw [first]
    omega
  | succ more ih =>
    calc (first lengths len + count lengths len) * 2 ^ (more + 1 + 1)
        = 2 * ((first lengths len + count lengths len) * 2 ^ (more + 1)) := by ring
      _ ≤ 2 * (first lengths (len + more + 1) + count lengths (len + more + 1)) := by omega
      _ = first lengths (len + (more + 1) + 1) := rfl

theorem reversed_div (value n more : Nat) : reversed value (n + more) / 2 ^ more = reversed value n := by
  induction more with
  | zero => simp
  | succ more ih =>
    rw [← add_assoc, reversed, pow_succ, mul_comm (2 ^ more), ← Nat.div_div_eq_div_mul]
    have half : (2 * reversed value (n + more) + value / 2 ^ (n + more) % 2) / 2 =
        reversed value (n + more) := by omega
    rw [half, ih]

variable {value : Nat}

/-- No code begins with the code of another symbol. -/
theorem code_prefixFree (coded : Coded lengths sym) (codedToo : Coded lengths other)
    (found : reversed value (lengths.getD sym 0) = code lengths sym)
    (foundToo : reversed value (lengths.getD other 0) = code lengths other) : sym = other := by
  have ranked := rank_lt coded
  have rankedToo := rank_lt codedToo
  -- The longer code lies behind every continuation of the shorter length's codes.
  have apart : ∀ {short long : Nat}, Coded lengths short → lengths.getD short 0 < lengths.getD long 0 →
      reversed value (lengths.getD short 0) = code lengths short →
      reversed value (lengths.getD long 0) = code lengths long → False := by
    intro short long coded less found foundToo
    obtain ⟨more, gap⟩ := Nat.exists_eq_add_of_lt less
    have far := first_far lengths (lengths.getD short 0) more
    have ranked := rank_lt coded
    have front := reversed_div value (lengths.getD short 0) (more + 1)
    rw [← add_assoc, ← gap, found, foundToo] at front
    rw [← gap] at far
    have below : code lengths long < (code lengths short + 1) * 2 ^ (more + 1) := by
      rw [← front]
      exact lt_mul_of_div_lt (lt_succ_self _) (Nat.two_pow_pos _)
    have least : first lengths (lengths.getD short 0) + count lengths (lengths.getD short 0) ≤
        code lengths short := by
      have start : first lengths (lengths.getD long 0) ≤ code lengths long := le_add_right _ _
      have bound := Nat.lt_of_le_of_lt (far.trans start) below
      exact Nat.lt_succ_iff.mp (Nat.lt_of_mul_lt_mul_right bound)
    rw [code] at least
    omega
  rcases lt_trichotomy (lengths.getD sym 0) (lengths.getD other 0) with less | same | more
  · exact (apart coded less found foundToo).elim
  · have codes : code lengths sym = code lengths other := by rw [← found, ← foundToo, same]
    rw [code, code, same] at codes
    exact rank_injective coded.listed codedToo.listed same.symm (by omega)
  · exact (apart codedToo more foundToo found).elim

variable {len : Nat}

theorem shorter_le (lengths : List Nat) {longer : Nat} (less : len < longer) :
    shorter lengths len + count lengths len ≤ shorter lengths longer := by
  obtain ⟨more, rfl⟩ := Nat.exists_eq_add_of_lt less
  induction more with
  | zero => exact le_refl _
  | succ more ih => exact (ih (by omega)).trans (le_add_right _ _)

theorem place_injective (coded : Coded lengths sym) (codedToo : Coded lengths other)
    (same : shorter lengths (lengths.getD sym 0) + rank lengths sym =
      shorter lengths (lengths.getD other 0) + rank lengths other) : sym = other := by
  have ranked := rank_lt coded
  have rankedToo := rank_lt codedToo
  rcases lt_trichotomy (lengths.getD sym 0) (lengths.getD other 0) with less | equal | more
  · have later := shorter_le lengths less
    omega
  · rw [equal] at same
    exact rank_injective coded.listed codedToo.listed equal.symm (by omega)
  · have later := shorter_le lengths more
    omega

theorem code_lt (fits : Fits lengths maxBits) (coded : Coded lengths sym) :
    code lengths sym < 2 ^ lengths.getD sym 0 := by
  have most : lengths.getD sym 0 ≤ maxBits := by
    rw [getD_eq_getElem _ _ coded.listed]
    exact fits.1 _ (getElem_mem coded.listed)
  have room := fits.2 _ coded.positive most
  have ranked := rank_lt coded
  rw [code]
  omega

theorem symbol_some (found : symbol lengths len value = some sym) :
    sym < lengths.length ∧ lengths.getD sym 0 = len ∧ code lengths sym = value := by
  have right := find?_some found
  have listed := mem_of_find?_eq_some found
  simp only [decide_eq_true_eq] at right
  exact ⟨mem_range.mp listed, right⟩

theorem symbol_none (missing : symbol lengths len value = none)
    (listed : sym < lengths.length) (same : lengths.getD sym 0 = len) :
    code lengths sym ≠ value := by
  have wrong := find?_eq_none.mp missing sym (mem_range.mpr listed)
  simp only [decide_eq_true_eq, not_and] at wrong
  exact wrong same

theorem symbol_code (coded : Coded lengths sym) :
    symbol lengths (lengths.getD sym 0) (code lengths sym) = some sym := by
  cases found : symbol lengths (lengths.getD sym 0) (code lengths sym) with
  | none => exact absurd rfl (symbol_none found coded.listed rfl)
  | some other =>
    obtain ⟨listed, same, codes⟩ := symbol_some found
    rw [code, code, same] at codes
    rw [rank_injective listed coded.listed same.symm (by omega)]

theorem rank_surjective (lengths : List Nat) (len r : Nat) : ∀ n ≤ lengths.length,
    r < (lengths.take n).count len → ∃ sym < n, lengths.getD sym 0 = len ∧ rank lengths sym = r := by
  -- The count grows by one at the symbols of this length, so it passes the rank at one of them.
  intro n
  induction n with
  | zero =>
    intro _ below
    simp at below
  | succ n ih =>
    intro within below
    have listed : n < lengths.length := within
    by_cases earlier : r < (lengths.take n).count len
    · obtain ⟨sym, before, found⟩ := ih (by omega) earlier
      exact ⟨sym, by omega, found⟩
    · rw [take_succ_eq_append_getElem listed, count_append, count_singleton] at below
      by_cases same : lengths[n] = len
      · have here : lengths.getD n 0 = len := by rw [getD_eq_getElem _ _ listed, same]
        refine ⟨n, by omega, here, ?_⟩
        rw [rank, here]
        simp only [same, beq_self_eq_true, if_true] at below
        omega
      · simp only [beq_iff_eq, same, if_false] at below
        omega

theorem symbol_within (positive : 1 ≤ len) (least : first lengths len ≤ value)
    (most : value < first lengths len + count lengths len) :
    ∃ sym, symbol lengths len value = some sym := by
  rw [count, if_neg (by omega)] at most
  obtain ⟨sym, listed, same, ranked⟩ := rank_surjective lengths len (value - first lengths len)
    lengths.length (le_refl _) (by rw [take_length]; omega)
  have coded : Coded lengths sym := ⟨listed, by omega⟩
  have codes : code lengths sym = value := by
    rw [code, same, ranked]
    omega
  have found := symbol_code coded
  rw [same, codes] at found
  exact ⟨sym, found⟩

theorem symbol_behind (positive : 1 ≤ len) (behind : first lengths len + count lengths len ≤ value) :
    symbol lengths len value = none := by
  cases found : symbol lengths len value with
  | none => rfl
  | some sym =>
    obtain ⟨listed, same, codes⟩ := symbol_some found
    have coded : Coded lengths sym := ⟨listed, by omega⟩
    have ranked := rank_lt coded
    rw [code, same] at codes
    rw [same] at ranked
    omega

/-- A symbol is read where its code stands, however many shorter lengths are tried first. -/
theorem readFrom_code (coded : Coded lengths sym) {bits : BitString}
    (found : reversed bits.value (lengths.getD sym 0) = code lengths sym) (n : Nat) :
    ∀ len, 1 ≤ len → len ≤ lengths.getD sym 0 → lengths.getD sym 0 < len + n → readFrom lengths n len bits =
        if bits.length < lengths.getD sym 0 then .short
        else .read sym (bits.drop (lengths.getD sym 0)) := by
  induction n with
  | zero =>
    intro len _ least most
    omega
  | succ n ih =>
    intro len positive least most
    simp only [readFrom]
    by_cases short : bits.length < len
    · rw [if_pos short, if_pos (by omega)]
    rw [if_neg short]
    by_cases here : len = lengths.getD sym 0
    · rw [here, found, symbol_code coded, if_neg (by omega)]
    · -- A shorter code that matched would be another symbol's, in front of this one's code.
      have missing : symbol lengths len (reversed bits.value len) = none := by
        cases early : symbol lengths len (reversed bits.value len) with
        | none => rfl
        | some other =>
          obtain ⟨listed, same, codes⟩ := symbol_some early
          have codedToo : Coded lengths other := ⟨listed, by omega⟩
          obtain rfl := code_prefixFree coded codedToo found (by rw [same, codes])
          exact absurd same.symm here
      rw [missing]
      exact ih (len + 1) (by omega) (by omega) (by omega)

theorem readFrom_stable (lengths : List Nat) (n : Nat) : ∀ len, (readFrom lengths n len).Stable := by
  induction n with
  | zero => exact fun _ => Parser.never_stable
  | succ n ih =>
    intro len bits bytes
    by_cases short : bits.length < len
    · constructor <;> simp [short]
    have longer : ¬(bits ++ ofBytes bytes).length < len := by
      rw [append_length]
      omega
    have front : reversed (bits ++ ofBytes bytes).value len = reversed bits.value len := by
      have low := low_append (not_lt.mp short) (ofBytes bytes)
      rw [← reversed_mod _ (le_refl len), ← reversed_mod bits.value (le_refl len)]
      exact congrArg (reversed · len) low
    simp only [readFrom, if_neg short, if_neg longer, front]
    cases symbol lengths len (reversed bits.value len) with
    | none => exact ih (len + 1) bits bytes
    | some sym =>
      refine ⟨nofun, ?_⟩
      intro value rest read
      cases read
      rw [drop_append (not_lt.mp short)]

theorem read_stable (lengths : List Nat) (maxBits : Nat) : (read lengths maxBits).Stable :=
  readFrom_stable lengths maxBits 1

/-- A symbol that is read takes the bits of its code, which are there. -/
theorem readFrom_drop {n : Nat} {bits rest : BitString} (positive : 1 ≤ len)
    (read : readFrom lengths n len bits = .read sym rest) :
    ∃ taken, 1 ≤ taken ∧ taken ≤ bits.length ∧ rest = bits.drop taken := by
  induction n generalizing len with
  | zero => cases read
  | succ n ih =>
    simp only [readFrom] at read
    by_cases short : bits.length < len
    · rw [if_pos short] at read
      cases read
    rw [if_neg short] at read
    cases found : symbol lengths len (reversed bits.value len) with
    | none =>
      rw [found] at read
      exact ih (by omega) read
    | some sym =>
      rw [found] at read
      cases read
      exact ⟨len, positive, not_lt.mp short, rfl⟩

theorem readFrom_length {n : Nat} {bits rest : BitString} (positive : 1 ≤ len)
    (read : readFrom lengths n len bits = .read sym rest) : rest.length < bits.length := by
  obtain ⟨taken, some, within, rfl⟩ := readFrom_drop positive read
  rw [drop_length]
  omega

variable {lengths : List Nat} {maxBits : Nat}

/-- The lengths that codes have up to some length. -/
def upTo (lengths : List Nat) (len : Nat) : List Nat := lengths.filter fun other => other ≠ 0 ∧ other ≤ len

theorem sum_upTo_succ (len : Nat) : Kraft.sum (upTo lengths (len + 1)) =
      Kraft.sum (upTo lengths len) + count lengths (len + 1) * (1 / 2) ^ (len + 1) := by
  rw [count, if_neg (succ_ne_zero len)]
  induction lengths with
  | nil => simp [upTo]
  | cons other lengths ih =>
    simp only [upTo] at ih ⊢
    rw [filter_cons, filter_cons, count_cons]
    by_cases here : other = len + 1
    · subst here
      rw [if_pos (by simp), if_neg (by simp), Kraft.sum_cons, ih, beq_self_eq_true, if_pos rfl,
        cast_add, cast_one]
      generalize (1 / 2 : ℚ) ^ (len + 1) = share
      ring
    · have same : decide (other ≠ 0 ∧ other ≤ len + 1) = decide (other ≠ 0 ∧ other ≤ len) := by
        rw [decide_eq_decide]
        omega
      have counted : ¬(other == len + 1) = true := by simpa using here
      simp only [same, if_neg counted, add_zero]
      split
      · rw [Kraft.sum_cons, Kraft.sum_cons, ih, add_assoc]
      · exact ih

theorem first_add_count (len : Nat) : ((first lengths len + count lengths len : Nat) : ℚ) =
      2 ^ len * Kraft.sum (upTo lengths len) := by
  induction len with
  | zero =>
    have none : upTo lengths 0 = [] := by
      rw [upTo, filter_eq_nil_iff]
      intro other _
      simp
    simp [first, count, none]
  | succ len ih =>
    -- Every further bit doubles what there is in front.
    have power : (2 : ℚ) ^ (len + 1) * (1 / 2) ^ (len + 1) = 1 := by
      rw [← mul_pow]
      norm_num
    calc ((first lengths (len + 1) + count lengths (len + 1) : Nat) : ℚ)
        = 2 * ((first lengths len + count lengths len : Nat) : ℚ) + count lengths (len + 1) := by
          rw [first, cast_add, cast_mul, cast_ofNat]
      _ = 2 ^ (len + 1) * Kraft.sum (upTo lengths len) +
          count lengths (len + 1) * (2 ^ (len + 1) * (1 / 2) ^ (len + 1)) := by
          rw [ih, power, pow_succ]
          ring
      _ = 2 ^ (len + 1) * Kraft.sum (upTo lengths (len + 1)) := by rw [sum_upTo_succ, mul_add, mul_left_comm]

theorem sum_upTo_le (len : Nat) : Kraft.sum (upTo lengths len) ≤ Kraft.sum (lengths.filter (· ≠ 0)) := by
  have split : upTo lengths len = (lengths.filter (· ≠ 0)).filter (· ≤ len) := by
    rw [upTo, filter_filter]
    congr 1
    funext other
    rw [← Bool.decide_and]
    exact decide_eq_decide.2 and_comm
  rw [split, ← Kraft.sum_perm ((lengths.filter (· ≠ 0)).filter_append_perm (· ≤ len)), Kraft.sum_append]
  exact le_add_of_nonneg_right Kraft.sum_nonneg

theorem fits_of_sum_le (short : ∀ len ∈ lengths, len ≤ maxBits)
    (room : Kraft.sum (lengths.filter (· ≠ 0)) ≤ 1) : Fits lengths maxBits := by
  refine ⟨short, fun len _ _ => ?_⟩
  have share := (@sum_upTo_le lengths len).trans room
  have power : (0 : ℚ) < 2 ^ len := by positivity
  have cast : ((first lengths len + count lengths len : Nat) : ℚ) ≤ ((2 ^ len : Nat) : ℚ) := by
    rw [first_add_count, cast_pow, cast_ofNat]
    nlinarith
  exact_mod_cast cast

end CanonicalCode
