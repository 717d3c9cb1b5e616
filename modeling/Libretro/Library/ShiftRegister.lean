import Mathlib.Algebra.GroupWithZero.Nat
import Mathlib.Data.List.Basic
import Mathlib.Logic.Function.Iterate

/-! Shift registers that divide by a polynomial over two elements, and carry-less products as messages. -/

namespace ShiftRegister

open List Nat Function
open BitVec hiding getElem_append getElem_replicate mul_succ replicate_succ reverse_append shiftLeft_add shiftLeft_xor_distrib shiftRight_add xor_self xor_zero zero_xor

/-- A map that carries over exclusive or. -/
def XorLinear {m n : Nat} (f : BitVec m → BitVec n) : Prop := ∀ x y, f (x ^^^ y) = f x ^^^ f y

section Linear

variable {m n k : Nat} {f g : BitVec m → BitVec n}

theorem XorLinear.zero (linear : XorLinear f) : f 0#m = 0#n := by
  -- Nothing is its own difference.
  have twice := linear 0#m 0#m
  rwa [BitVec.xor_self, BitVec.xor_self] at twice

theorem XorLinear.comp {h : BitVec n → BitVec k} (second : XorLinear h) (first : XorLinear f) :
    XorLinear fun x => h (f x) := by
  intro x y
  show h (f (x ^^^ y)) = h (f x) ^^^ h (f y)
  rw [first, second]

theorem XorLinear.iterate {f : BitVec m → BitVec m} (linear : XorLinear f) (count : Nat) :
    XorLinear (f^[count]) := by
  induction count with
  | zero => exact fun _ _ => rfl
  | succ count ih =>
    intro x y
    rw [iterate_succ_apply, iterate_succ_apply, iterate_succ_apply, linear, ih]

theorem xorLinear_ushiftRight (count : Nat) : XorLinear fun x : BitVec m => x >>> count :=
  fun x y => ushiftRight_xor_distrib x y count

theorem xorLinear_shiftLeft (count : Nat) : XorLinear fun x : BitVec m => x <<< count :=
  fun x y => BitVec.shiftLeft_xor_distrib x y count

theorem xorLinear_setWidth (width : Nat) : XorLinear fun x : BitVec m => x.setWidth width :=
  fun _ _ => setWidth_xor

/-- Two linear maps are the same when they agree on every single bit. -/
theorem XorLinear.ext (first : XorLinear f) (second : XorLinear g)
    (agree : ∀ i < m, f (BitVec.twoPow m i) = g (BitVec.twoPow m i)) : f = g := by
  -- The bits below a bound are taken away one by one, the highest first.
  have below (bound : Nat) (inside : bound ≤ m) (x : BitVec m)
      (small : ∀ i, bound ≤ i → x.getLsbD i = false) : f x = g x := by
    induction bound generalizing x with
    | zero =>
      have none : x = 0#m := by
        apply eq_of_getLsbD_eq
        intro i _
        rw [small i (zero_le _), getLsbD_zero]
      rw [none, first.zero, second.zero]
    | succ bound ih =>
      by_cases set : x.getLsbD bound = true
      · have split : x = (x ^^^ BitVec.twoPow m bound) ^^^ BitVec.twoPow m bound := by
          rw [xor_assoc, BitVec.xor_self, BitVec.xor_zero]
        have rest : f (x ^^^ BitVec.twoPow m bound) = g (x ^^^ BitVec.twoPow m bound) := by
          apply ih (le_of_succ_le inside)
          intro i high
          rw [getLsbD_xor, getLsbD_twoPow]
          by_cases top : i = bound
          · subst top
            simp [set, lt_of_succ_le inside]
          · rw [small i (by omega)]
            simp [Ne.symm top]
        rw [split, first, second, rest, agree bound (lt_of_succ_le inside)]
      · apply ih (le_of_succ_le inside)
        intro i high
        rcases Nat.eq_or_lt_of_le high with top | above
        · rw [← top]
          exact Bool.eq_false_iff.mpr set
        · exact small i above
  funext x
  apply below m (Nat.le_refl m)
  intro i outside
  exact getLsbD_of_ge x i outside

/-- All the sums of some words, counted up with the last word as the lowest bit. -/
def sums {n : Nat} : List (BitVec n) → List (BitVec n)
  | [] => [0#n]
  | word :: words => sums words ++ (sums words).map (word ^^^ ·)

/-- All the sums of some numbers, counted up with the last one as the lowest bit. -/
def numberSums : List Nat → List Nat
  | [] => [0]
  | number :: numbers => numberSums numbers ++ (numberSums numbers).map (number ^^^ ·)

theorem map_toNat_sums {n : Nat} (words : List (BitVec n)) :
    (sums words).map BitVec.toNat = numberSums (words.map BitVec.toNat) := by
  induction words with
  | nil => rfl
  | cons word words ih =>
    rw [sums, map_append, map_map, map_cons, numberSums, ← ih, map_map]
    rfl

theorem XorLinear.map_range {f : BitVec 8 → BitVec n} (linear : XorLinear f) {count : Nat}
    (inside : count ≤ 8) :
    (range (2 ^ count)).map (fun byte => f (.ofNat 8 byte)) =
      sums ((range count).reverse.map fun place => f (BitVec.twoPow 8 place)) := by
  induction count with
  | zero =>
    show [f 0#8] = [0#n]
    rw [linear.zero]
  | succ count ih =>
    -- A byte with the next bit is that bit and a byte without it.
    have bit : ∀ count < 8, ∀ byte < 2 ^ count,
        BitVec.ofNat 8 (2 ^ count + byte) = BitVec.twoPow 8 count ^^^ BitVec.ofNat 8 byte := by
      decide
    rw [pow_succ, Nat.mul_two, range_add, map_append, map_map, range_succ,
      reverse_append, reverse_singleton, singleton_append, map_cons, sums,
      ← ih (by omega), map_map]
    congr 1
    apply map_congr_left
    intro byte low
    rw [mem_range] at low
    show f (.ofNat 8 (2 ^ count + byte)) = f (BitVec.twoPow 8 count) ^^^ f (.ofNat 8 byte)
    rw [bit count (by omega) byte low, linear]

end Linear

/-- A register that moves on by a bit, and the place where a byte is added to it. -/
structure Register (w : Nat) where
  shift : BitVec w → BitVec w
  place : BitVec 8 → BitVec w
  shift_linear : XorLinear shift
  place_linear : XorLinear place

namespace Register

variable {w : Nat} (r : Register w)

/-- The register moved on by so many bits. -/
def skip (count : Nat) (crc : BitVec w) : BitVec w := r.shift^[count] crc

/-- One byte taken in. -/
def take (crc : BitVec w) (byte : UInt8) : BitVec w := r.skip 8 (crc ^^^ r.place byte.toBitVec)

/-- A string taken in. -/
def run (crc : BitVec w) (bytes : List UInt8) : BitVec w := bytes.foldl r.take crc

/-- What a byte leaves in the register, so many bytes later. -/
def entry (behind : Nat) (byte : BitVec 8) : BitVec w := r.skip (8 * (behind + 1)) (r.place byte)

theorem skip_linear (count : Nat) : XorLinear (r.skip count) := r.shift_linear.iterate count

theorem skip_add (first second : Nat) (crc : BitVec w) :
    r.skip (first + second) crc = r.skip first (r.skip second crc) :=
  iterate_add_apply r.shift first second crc

theorem skip_xor (count : Nat) (first second : BitVec w) :
    r.skip count (first ^^^ second) = r.skip count first ^^^ r.skip count second :=
  r.skip_linear count first second

theorem skip_skip (first second : Nat) (crc : BitVec w) :
    r.skip first (r.skip second crc) = r.skip (first + second) crc :=
  (r.skip_add first second crc).symm

theorem skip_zero (count : Nat) : r.skip count 0#w = 0#w := (r.skip_linear count).zero

theorem run_nil (crc : BitVec w) : r.run crc [] = crc := rfl

theorem run_append (crc : BitVec w) (front back : List UInt8) :
    r.run crc (front ++ back) = r.run (r.run crc front) back :=
  foldl_append

/-- A step over a block and a loop over the blocks behind it make a loop over one block more. -/
theorem run_blocks {size turns : Nat} {start middle stop : BitVec w} {data rest : List UInt8}
    (step : middle = r.run start (data.take size))
    (value : stop = r.run middle ((data.drop size).take (size * turns)))
    (left : rest = (data.drop size).drop (size * turns)) :
    stop = r.run start (data.take (size * (turns + 1))) ∧ rest = data.drop (size * (turns + 1)) := by
  rw [value, step, left, drop_drop, ← run_append, ← take_add, Nat.mul_succ, Nat.add_comm]
  exact ⟨rfl, rfl⟩

theorem run_xor (first second : BitVec w) (bytes : List UInt8) :
    r.run (first ^^^ second) bytes = r.skip (8 * bytes.length) first ^^^ r.run second bytes := by
  induction bytes generalizing first second with
  | nil => rfl
  | cons byte bytes ih =>
    have taken : r.take (first ^^^ second) byte = r.skip 8 first ^^^ r.take second byte := by
      rw [take, xor_assoc, r.skip_linear 8, take]
    rw [run, foldl_cons, taken, ← run, ih, ← skip_add, length_cons, mul_succ]
    rfl

theorem run_split (crc : BitVec w) (bytes : List UInt8) :
    r.run crc bytes = r.skip (8 * bytes.length) crc ^^^ r.run 0#w bytes := by
  rw [← run_xor, BitVec.xor_zero]

/-- A register taken apart: its first byte, and what eight bits later is left of the others. -/
structure Splits (head : BitVec w → BitVec 8) (rest : BitVec w → BitVec w) : Prop where
  eight : ∀ crc, r.skip 8 crc = r.skip 8 (r.place (head crc)) ^^^ rest crc

section Splits

variable {r} {head : BitVec w → BitVec 8} {rest : BitVec w → BitVec w}

theorem Splits.take_eq (splits : r.Splits head rest) (crc : BitVec w) (byte : UInt8) :
    r.take crc byte = r.entry 0 (head crc ^^^ byte.toBitVec) ^^^ rest crc := by
  rw [take, r.skip_linear, splits.eight, entry, r.place_linear, r.skip_linear]
  ac_rfl

theorem Splits.run_cons (splits : r.Splits head rest) (crc : BitVec w) (byte : UInt8) (bytes : List UInt8) :
    r.run crc (byte :: bytes) =
      r.entry bytes.length (head crc ^^^ byte.toBitVec) ^^^ r.run (rest crc) bytes := by
  rw [run, foldl_cons, splits.take_eq, ← run, run_xor, entry, ← skip_add, entry]
  rfl

end Splits

/-- The slice of the entries for so many bytes behind, as a table of 256 numbers. -/
def slice (behind : Nat) : List Nat := (List.range 256).map fun byte => (r.entry behind (.ofNat 8 byte)).toNat

theorem slice_eq_sums (behind : Nat) : r.slice behind = (sums ((range 8).reverse.map fun place =>
      r.entry behind (BitVec.twoPow 8 place))).map BitVec.toNat := by
  have linear : XorLinear (r.entry behind) := (r.skip_linear _).comp r.place_linear
  rw [← linear.map_range (Nat.le_refl 8), map_map]
  rfl

/-- A slice in numbers, from the entries of its eight single bits. -/
def sliceNumbers (behind : Nat) : List Nat :=
  numberSums ((List.range 8).reverse.map fun place => (r.entry behind (BitVec.twoPow 8 place)).toNat)

theorem slice_eq_sliceNumbers (behind : Nat) : r.slice behind = r.sliceNumbers behind := by
  rw [slice_eq_sums, map_toNat_sums, map_map]
  rfl

theorem slice_getD (behind : Nat) (byte : BitVec 8) :
    BitVec.ofNat w ((r.slice behind).getD byte.toNat 0) = r.entry behind byte := by
  have inside : byte.toNat < 256 := byte.isLt
  rw [slice, getD_eq_getElem?_getD, getElem?_map, getElem?_range inside,
    Option.map_some, Option.getD_some, ofNat_toNat, setWidth_eq, ofNat_toNat,
    setWidth_eq]

/-- A way to feed a register one bit, in step with its own: the first bit of a byte and the others. -/
structure Serial (bitIn : BitVec w → Bool → BitVec w) (bit : BitVec 8 → Nat → Bool)
    (next : BitVec 8 → BitVec 8) : Prop where
  step : ∀ crc byte, r.shift (crc ^^^ r.place byte) = bitIn crc (bit byte 0) ^^^ r.place (next byte)
  bits : ∀ byte i, bit (next byte) i = bit byte (i + 1)
  empty : ∀ byte, next^[8] byte = 0#8

section Serial

variable {r} {bitIn : BitVec w → Bool → BitVec w} {bit : BitVec 8 → Nat → Bool} {next : BitVec 8 → BitVec 8}

theorem Serial.skip_place (serial : r.Serial bitIn bit next) (count : Nat) (crc : BitVec w)
    (byte : BitVec 8) :
    r.skip count (crc ^^^ r.place byte) =
      ((range count).map (bit byte)).foldl bitIn crc ^^^ r.place (next^[count] byte) := by
  induction count generalizing crc byte with
  | zero => rfl
  | succ count ih =>
    rw [skip, iterate_succ_apply, serial.step, ← skip, ih, range_succ_eq_map,
      map_cons, foldl_cons, map_map, iterate_succ_apply]
    congr 3
    funext i
    exact serial.bits byte i

theorem Serial.take_eq (serial : r.Serial bitIn bit next) (crc : BitVec w) (byte : UInt8) :
    r.take crc byte = ((range 8).map (bit byte.toBitVec)).foldl bitIn crc := by
  rw [take, serial.skip_place, serial.empty, r.place_linear.zero, BitVec.xor_zero]

theorem Serial.run_eq (serial : r.Serial bitIn bit next) (crc : BitVec w) (bytes : List UInt8) :
    r.run crc bytes = (bytes.flatMap fun byte => (range 8).map (bit byte.toBitVec)).foldl bitIn crc := by
  induction bytes generalizing crc with
  | nil => rfl
  | cons byte bytes ih =>
    rw [flatMap_cons, foldl_append, ← serial.take_eq, ← ih]
    rfl

end Serial

end Register

section Reflected

variable {w : Nat} (poly : BitVec w)

/-- One bit of the division: what leaves the register's low end decides on the polynomial. -/
def reflectedBit (crc : BitVec w) (bit : Bool) : BitVec w :=
  if crc.getLsbD 0 ^^ bit then crc >>> 1 ^^^ poly else crc >>> 1

/-- The bits of a string, the lowest of each byte first. -/
def lowFirst (bytes : List UInt8) : List Bool :=
  bytes.flatMap fun byte => (List.range 8).map byte.toBitVec.getLsbD

/-- The register moved on by a bit. -/
def reflectedShift (crc : BitVec w) : BitVec w := if crc.getLsbD 0 then crc >>> 1 ^^^ poly else crc >>> 1

theorem xor_selected {n : Nat} (x y term : BitVec n) (one other : Bool) :
    (if one ^^ other then x ^^^ y ^^^ term else x ^^^ y) =
      (if one then x ^^^ term else x) ^^^ if other then y ^^^ term else y := by
  -- The term comes in on one side, on both or on neither.
  cases one <;> cases other
  · rfl
  · simp only [Bool.false_xor, if_true, Bool.false_eq_true, if_false]
    ac_rfl
  · simp only [Bool.true_xor, Bool.not_false, if_true, Bool.false_eq_true, if_false]
    ac_rfl
  · have cancel : x ^^^ term ^^^ (y ^^^ term) = x ^^^ y ^^^ (term ^^^ term) := by ac_rfl
    simp only [Bool.true_xor, Bool.not_true, if_true, Bool.false_eq_true, if_false]
    rw [cancel, BitVec.xor_self, BitVec.xor_zero]

theorem reflectedShift_linear : XorLinear (reflectedShift poly) := by
  intro x y
  unfold reflectedShift
  rw [getLsbD_xor, ushiftRight_xor_distrib]
  exact xor_selected ..

theorem reflectedShift_eq_zero (odd : poly.getLsbD (w - 1) = true) {crc : BitVec w}
    (gone : reflectedShift poly crc = 0#w) : crc = 0#w := by
  rw [reflectedShift] at gone
  split at gone
  · -- The polynomial would leave its last coefficient.
    have last := congrArg (fun x : BitVec w => x.getLsbD (w - 1)) gone
    simp only [getLsbD_xor, getLsbD_ushiftRight, odd, getLsbD_zero] at last
    have positive : 0 < w := by
      rcases Nat.eq_zero_or_pos w with zero | positive
      · subst zero
        simp at odd
      · exact positive
    rw [getLsbD_of_ge crc _ (by omega)] at last
    simp at last
  · rename_i clear
    apply eq_of_getLsbD_eq
    intro i inside
    rw [getLsbD_zero]
    cases i with
    | zero => exact Bool.eq_false_iff.mpr clear
    | succ i =>
      have bit := congrArg (fun x : BitVec w => x.getLsbD i) gone
      simpa [getLsbD_ushiftRight, add_comm] using bit

/-- The register with its bytes added at the low end. -/
def reflected : Register w where
  shift := reflectedShift poly
  place byte := byte.setWidth w
  shift_linear := reflectedShift_linear poly
  place_linear := xorLinear_setWidth w

theorem reflected_skip_injective (odd : poly.getLsbD (w - 1) = true) {count : Nat} {first second : BitVec w}
    (same : (reflected poly).skip count first = (reflected poly).skip count second) :
    first = second := by
  have gone : (reflected poly).skip count (first ^^^ second) = 0#w := by
    rw [Register.skip_xor, same, BitVec.xor_self]
  have none : first ^^^ second = 0#w := by
    clear same
    induction count generalizing first second with
    | zero => exact gone
    | succ count ih =>
      rw [Register.skip, iterate_succ_apply', ← Register.skip] at gone
      exact ih (reflectedShift_eq_zero poly odd gone)
  have back : first ^^^ second ^^^ second = second := by rw [none, BitVec.zero_xor]
  rwa [xor_assoc, BitVec.xor_self, BitVec.xor_zero] at back

theorem reflectedShift_clear {crc : BitVec w} (clear : crc.getLsbD 0 = false) :
    reflectedShift poly crc = crc >>> 1 := by
  rw [reflectedShift, clear]
  rfl

theorem reflected_skip_shiftLeft (count : Nat) {crc : BitVec w}
    (small : ∀ i, w ≤ i + count → crc.getLsbD i = false) :
    (reflected poly).skip count (crc <<< count) = crc := by
  induction count with
  | zero => exact shiftLeft_zero crc
  | succ count ih =>
    have clear : (crc <<< (count + 1)).getLsbD 0 = false := by simp [getLsbD_shiftLeft]
    have down : (crc <<< (count + 1)) >>> 1 = crc <<< count := by
      apply eq_of_getLsbD_eq
      intro i inside
      rw [getLsbD_ushiftRight, getLsbD_shiftLeft, getLsbD_shiftLeft]
      by_cases low : i < count
      · simp [low, show 1 + i < count + 1 by omega]
      · have same : 1 + i - (count + 1) = i - count := by omega
        by_cases top : 1 + i < w
        · simp [low, top, inside, same, show ¬ 1 + i < count + 1 by omega]
        · simp [low, top, inside, small (i - count) (by omega)]
    rw [Register.skip, iterate_succ_apply]
    show (reflected poly).skip count (reflectedShift poly (crc <<< (count + 1))) = crc
    rw [reflectedShift_clear poly clear, down, ih]
    intro i high
    exact small i (by omega)

/-- The low byte goes through the division and the others move down by a byte. -/
theorem reflected_splits : (reflected poly).Splits (fun crc => crc.setWidth 8) fun crc => crc >>> 8 := by
  constructor
  intro crc
  have parts : crc = (crc.setWidth 8).setWidth w ^^^ (crc >>> 8) <<< 8 := by
    apply eq_of_getLsbD_eq
    intro i inside
    rw [getLsbD_xor, getLsbD_setWidth, getLsbD_setWidth, getLsbD_shiftLeft, getLsbD_ushiftRight]
    by_cases low : i < 8
    · simp [low, inside]
    · simp [low, inside, show 8 + (i - 8) = i by omega]
  have back : (reflected poly).skip 8 ((crc >>> 8) <<< 8) = crc >>> 8 := by
    apply reflected_skip_shiftLeft
    intro i high
    rw [getLsbD_ushiftRight]
    exact getLsbD_of_ge crc _ (by omega)
  calc (reflected poly).skip 8 crc
      = (reflected poly).skip 8 ((crc.setWidth 8).setWidth w ^^^ (crc >>> 8) <<< 8) := by rw [← parts]
    _ = _ := by
        rw [(reflected poly).skip_linear 8, back]
        rfl

theorem reflected_serial (wide : 8 ≤ w) :
    (reflected poly).Serial (reflectedBit poly) getLsbD fun byte => byte >>> 1 := by
  refine ⟨?_, ?_, fun byte => ?_⟩
  · intro crc byte
    have shifted : byte.setWidth w >>> 1 = (byte >>> 1).setWidth w := by
      apply eq_of_getLsbD_eq
      intro i inside
      rw [getLsbD_ushiftRight, getLsbD_setWidth, getLsbD_setWidth, getLsbD_ushiftRight]
      by_cases top : 1 + i < w
      · simp [top, inside]
      · rw [getLsbD_of_ge byte (1 + i) (by omega), Bool.and_false, Bool.and_false]
    have out : (crc ^^^ byte.setWidth w).getLsbD 0 = (crc.getLsbD 0 ^^ byte.getLsbD 0) := by
      rw [getLsbD_xor, getLsbD_setWidth]
      simp [show 0 < w by omega]
    show reflectedShift poly (crc ^^^ byte.setWidth w) =
      reflectedBit poly crc (byte.getLsbD 0) ^^^ (byte >>> 1).setWidth w
    rw [reflectedShift, reflectedBit, out, ushiftRight_xor_distrib, shifted]
    split
    · ac_rfl
    · rfl
  · intro byte i
    show (byte >>> 1).getLsbD i = byte.getLsbD (i + 1)
    rw [getLsbD_ushiftRight, add_comm]
  · -- After eight moves nothing of the byte is left.
    show (byte >>> 1 >>> 1 >>> 1 >>> 1 >>> 1 >>> 1 >>> 1 >>> 1) = 0#8
    simp only [← BitVec.shiftRight_add]
    exact ushiftRight_eq_zero (Nat.le_refl _)

theorem reflected_run (wide : 8 ≤ w) (crc : BitVec w) (bytes : List UInt8) :
    (reflected poly).run crc bytes = (lowFirst bytes).foldl (reflectedBit poly) crc :=
  (reflected_serial poly wide).run_eq crc bytes

end Reflected

section Forward

variable {w : Nat} (poly : BitVec w)

/-- One bit of the division: what leaves the register's high end decides on the polynomial. -/
def forwardBit (crc : BitVec w) (bit : Bool) : BitVec w :=
  if crc.getMsbD 0 ^^ bit then crc <<< 1 ^^^ poly else crc <<< 1

/-- The bits of a string, the highest of each byte first. -/
def highFirst (bytes : List UInt8) : List Bool :=
  bytes.flatMap fun byte => (List.range 8).map byte.toBitVec.getMsbD

/-- The register moved on by a bit. -/
def forwardShift (crc : BitVec w) : BitVec w := if crc.getMsbD 0 then crc <<< 1 ^^^ poly else crc <<< 1

theorem forwardShift_linear : XorLinear (forwardShift poly) := by
  intro x y
  unfold forwardShift
  rw [getMsbD_xor, BitVec.shiftLeft_xor_distrib]
  exact xor_selected ..

/-- The register with its bytes added at the high end. -/
def forward : Register w where
  shift := forwardShift poly
  place byte := byte.setWidth w <<< (w - 8)
  shift_linear := forwardShift_linear poly
  place_linear := (xorLinear_shiftLeft (w - 8)).comp (xorLinear_setWidth w)

theorem forwardShift_clear {crc : BitVec w} (clear : crc.getMsbD 0 = false) :
    forwardShift poly crc = crc <<< 1 := by
  rw [forwardShift, clear]
  rfl

theorem forward_skip_ushiftRight (count : Nat) {crc : BitVec w} (small : ∀ i < count, crc.getLsbD i = false) :
    (forward poly).skip count (crc >>> count) = crc := by
  induction count with
  | zero => exact ushiftRight_zero crc
  | succ count ih =>
    have clear : (crc >>> (count + 1)).getMsbD 0 = false := by
      rw [getMsbD_eq_getLsbD, getLsbD_ushiftRight, getLsbD_of_ge crc _ (by omega), Bool.and_false]
    have up : (crc >>> (count + 1)) <<< 1 = crc >>> count := by
      apply eq_of_getLsbD_eq
      intro i inside
      rw [getLsbD_shiftLeft, getLsbD_ushiftRight, getLsbD_ushiftRight]
      by_cases low : i < 1
      · have first : i = 0 := by omega
        subst first
        simp [small count (lt_succ_self _)]
      · have same : count + 1 + (i - 1) = count + i := by omega
        simp [low, inside, same]
    rw [Register.skip, iterate_succ_apply]
    show (forward poly).skip count (forwardShift poly (crc >>> (count + 1))) = crc
    rw [forwardShift_clear poly clear, up, ih]
    intro i low
    exact small i (by omega)

/-- The high byte goes through the division and the others move up by a byte. -/
theorem forward_splits (wide : 8 ≤ w) :
    (forward poly).Splits (fun crc => (crc >>> (w - 8)).setWidth 8) fun crc => crc <<< 8 := by
  constructor
  intro crc
  have parts : crc = ((crc >>> (w - 8)).setWidth 8).setWidth w <<< (w - 8) ^^^ (crc <<< 8) >>> 8 := by
    apply eq_of_getLsbD_eq
    intro i inside
    rw [getLsbD_xor, getLsbD_shiftLeft, getLsbD_setWidth,
      getLsbD_setWidth, getLsbD_ushiftRight, getLsbD_ushiftRight,
      getLsbD_shiftLeft]
    by_cases low : i < w - 8
    · simp [low, inside, show 8 + i < w by omega]
    · simp [low, inside, show ¬ 8 + i < w by omega, show i - (w - 8) < w by omega,
        show i - (w - 8) < 8 by omega, show w - 8 + (i - (w - 8)) = i by omega]
  have back : (forward poly).skip 8 ((crc <<< 8) >>> 8) = crc <<< 8 := by
    apply forward_skip_ushiftRight
    intro i low
    rw [getLsbD_shiftLeft]
    simp [low]
  calc (forward poly).skip 8 crc
      = (forward poly).skip 8
          (((crc >>> (w - 8)).setWidth 8).setWidth w <<< (w - 8) ^^^ (crc <<< 8) >>> 8) := by
        rw [← parts]
    _ = _ := by
        rw [(forward poly).skip_linear 8, back]
        rfl

theorem forward_serial (wide : 8 ≤ w) :
    (forward poly).Serial (forwardBit poly) getMsbD fun byte => byte <<< 1 := by
  refine ⟨?_, ?_, fun byte => ?_⟩
  · intro crc byte
    have shifted : (byte.setWidth w <<< (w - 8)) <<< 1 = (byte <<< 1).setWidth w <<< (w - 8) := by
      apply eq_of_getLsbD_eq
      intro i inside
      rw [getLsbD_shiftLeft, getLsbD_shiftLeft, getLsbD_shiftLeft,
        getLsbD_setWidth, getLsbD_setWidth, getLsbD_shiftLeft]
      by_cases low : i < w - 8 + 1
      · by_cases first : i < w - 8
        · simp [first, inside]
          omega
        · have last : i = w - 8 := by omega
          subst last
          simp [inside]
          omega
      · simp [inside, show ¬ i < w - 8 by omega, show ¬ i < 1 by omega,
          show ¬ i - 1 < w - 8 by omega,
          show i - 1 < w by omega, show i - (w - 8) < w by omega, show i - (w - 8) < 8 by omega,
          show ¬ i - (w - 8) = 0 by omega, show i - 1 - (w - 8) = i - (w - 8) - 1 by omega,
          show i - (w - 8) - 1 < w by omega]
    have out : (crc ^^^ byte.setWidth w <<< (w - 8)).getMsbD 0 = (crc.getMsbD 0 ^^ byte.getMsbD 0) := by
      rw [getMsbD_xor]
      congr 1
      rw [getMsbD_eq_getLsbD, getMsbD_eq_getLsbD, getLsbD_shiftLeft, getLsbD_setWidth]
      simp [show 0 < w by omega, show ¬ w - 1 < w - 8 by omega, show w - 1 - (w - 8) = 7 by omega,
        show 7 < w by omega, show w - 1 < w by omega]
    show forwardShift poly (crc ^^^ byte.setWidth w <<< (w - 8)) =
      forwardBit poly crc (byte.getMsbD 0) ^^^ (byte <<< 1).setWidth w <<< (w - 8)
    rw [forwardShift, forwardBit, out, BitVec.shiftLeft_xor_distrib, shifted]
    split
    · ac_rfl
    · rfl
  · intro byte i
    show (byte <<< 1).getMsbD i = byte.getMsbD (i + 1)
    rw [getMsbD_shiftLeft]
  · -- After eight moves nothing of the byte is left.
    show (byte <<< 1 <<< 1 <<< 1 <<< 1 <<< 1 <<< 1 <<< 1 <<< 1) = 0#8
    simp only [← BitVec.shiftLeft_add]
    exact shiftLeft_eq_zero (Nat.le_refl _)

theorem forward_run (wide : 8 ≤ w) (crc : BitVec w) (bytes : List UInt8) :
    (forward poly).run crc bytes = (highFirst bytes).foldl (forwardBit poly) crc :=
  (forward_serial poly wide).run_eq crc bytes

end Forward

/-- The carry-less product: the second factor added at every place where the first has a bit. -/
def clmul {n : Nat} (x y : BitVec n) : BitVec (n + n) :=
  (List.range n).foldl (fun acc i => if x.getLsbD i then acc ^^^ y.setWidth (n + n) <<< i else acc) 0#(n + n)

theorem foldl_bits_linear {m n : Nat} (term : Nat → BitVec n) (places : List Nat) (x y : BitVec m)
    (first second : BitVec n) :
    places.foldl (fun acc i => if (x ^^^ y).getLsbD i then acc ^^^ term i else acc) (first ^^^ second) =
      places.foldl (fun acc i => if x.getLsbD i then acc ^^^ term i else acc) first ^^^
        places.foldl (fun acc i => if y.getLsbD i then acc ^^^ term i else acc) second := by
  induction places generalizing first second with
  | nil => rfl
  | cons place places ih =>
    rw [foldl_cons, foldl_cons, foldl_cons, ← ih, getLsbD_xor]
    congr 1
    exact xor_selected ..

theorem clmul_linear {n : Nat} (y : BitVec n) : XorLinear fun x => clmul x y := by
  intro x z
  have sum := foldl_bits_linear (fun i => y.setWidth (n + n) <<< i) (range n) x z 0#(n + n) 0#(n + n)
  rwa [BitVec.xor_zero] at sum

theorem foldl_twoPow {m n : Nat} (term : Nat → BitVec n) {place count : Nat} (inside : place < m)
    (known : place < count) :
    (range count).foldl (fun acc i => if (BitVec.twoPow m place).getLsbD i then acc ^^^ term i else acc) 0#n =
      term place := by
  have before (count : Nat) (low : count ≤ place) : (range count).foldl
        (fun acc i => if (BitVec.twoPow m place).getLsbD i then acc ^^^ term i else acc) 0#n =
        0#n := by
    induction count with
    | zero => rfl
    | succ count ih =>
      rw [range_succ, foldl_append, ih (by omega)]
      simp [getLsbD_twoPow, show place ≠ count by omega]
  induction count with
  | zero => omega
  | succ count ih =>
    rw [range_succ, foldl_append]
    by_cases last : place = count
    · subst last
      rw [before place (Nat.le_refl _)]
      simp [getLsbD_twoPow, inside]
    · rw [ih (by omega)]
      simp [getLsbD_twoPow, last]

theorem clmul_twoPow {n : Nat} (y : BitVec n) {place : Nat} (inside : place < n) :
    clmul (BitVec.twoPow n place) y = y.setWidth (n + n) <<< place :=
  foldl_twoPow (fun i => y.setWidth (n + n) <<< i) inside inside

/-- The product of words with few bits has few bits. -/
theorem clmul_small {n a b : Nat} {x y : BitVec n} (first : ∀ i, a ≤ i → x.getLsbD i = false)
    (second : ∀ i, b ≤ i → y.getLsbD i = false) {i : Nat} (high : a + b ≤ i + 1) :
    (clmul x y).getLsbD i = false := by
  -- Every term that is added ends before the place.
  have terms (places : List Nat) (acc : BitVec (n + n)) (none : acc.getLsbD i = false) :
      (places.foldl (fun acc place =>
        if x.getLsbD place then acc ^^^ y.setWidth (n + n) <<< place else acc) acc).getLsbD i =
        false := by
    induction places generalizing acc with
    | nil => exact none
    | cons place places ih =>
      rw [foldl_cons]
      apply ih
      split
      · rename_i set
        have low : place < a := by
          by_contra above
          rw [first place (by omega)] at set
          cases set
        rw [getLsbD_xor, none, getLsbD_shiftLeft, getLsbD_setWidth, second (i - place) (by omega)]
        simp
      · exact none
  exact terms _ _ getLsbD_zero

/-- Feeding one bit is linear, and a clear bit moves the register on. -/
structure Register.Feeds {w : Nat} (r : Register w) (bitIn : BitVec w → Bool → BitVec w) : Prop where
  linear : ∀ x y s t, bitIn (x ^^^ y) (s ^^ t) = bitIn x s ^^^ bitIn y t
  clear : ∀ x, bitIn x false = r.shift x

/-- What a message leaves in an empty register. -/
def value {w : Nat} (bitIn : BitVec w → Bool → BitVec w) (bits : List Bool) : BitVec w := bits.foldl bitIn 0#w

section Feeds

variable {w : Nat} {r : Register w} {bitIn : BitVec w → Bool → BitVec w}

variable (feeds : r.Feeds bitIn)
include feeds

theorem Register.Feeds.foldl_clear (count : Nat) (crc : BitVec w) :
    (replicate count false).foldl bitIn crc = r.skip count crc := by
  induction count generalizing crc with
  | zero => rfl
  | succ count ih =>
    rw [replicate_succ, foldl_cons, feeds.clear, ih, Register.skip, Register.skip,
      iterate_succ_apply]

theorem Register.Feeds.foldl_xor (first second : BitVec w) (bits : List Bool) :
    bits.foldl bitIn (first ^^^ second) = r.skip bits.length first ^^^ bits.foldl bitIn second := by
  induction bits generalizing first second with
  | nil => rfl
  | cons bit bits ih =>
    have fed : bitIn (first ^^^ second) bit = r.shift first ^^^ bitIn second bit := by
      rw [← feeds.clear, ← feeds.linear, Bool.false_xor]
    rw [foldl_cons, fed, ih, foldl_cons, Register.skip, Register.skip, length_cons,
      iterate_succ_apply]

theorem Register.Feeds.value_append (front back : List Bool) :
    value bitIn (front ++ back) = r.skip back.length (value bitIn front) ^^^ value bitIn back := by
  have split := feeds.foldl_xor (value bitIn front) 0#w back
  rw [BitVec.xor_zero] at split
  rw [value, foldl_append, ← value, split, value, value]

theorem Register.Feeds.value_between (before after : Nat) (bits : List Bool) :
    value bitIn (replicate before false ++ bits ++ replicate after false) =
      r.skip after (value bitIn bits) := by
  have nothing (count : Nat) : value bitIn (replicate count false) = 0#w := by
    rw [value, feeds.foldl_clear, r.skip_zero]
  rw [feeds.value_append, feeds.value_append, nothing before, nothing after, r.skip_zero,
    BitVec.zero_xor, BitVec.xor_zero, length_replicate]

theorem Register.Feeds.value_linear {n : Nat} (place : Nat → Nat) (places : List Nat) :
    XorLinear fun x : BitVec n => value bitIn (places.map fun i => x.getLsbD (place i)) := by
  intro x y
  have run (first second : BitVec w) :
      (places.map fun i => (x ^^^ y).getLsbD (place i)).foldl bitIn (first ^^^ second) =
        (places.map fun i => x.getLsbD (place i)).foldl bitIn first ^^^
          (places.map fun i => y.getLsbD (place i)).foldl bitIn second := by
    induction places generalizing first second with
    | nil => rfl
    | cons i places ih =>
      rw [map_cons, foldl_cons, getLsbD_xor, feeds.linear, ih]
      rfl
  have both := run 0#w 0#w
  rwa [BitVec.xor_zero] at both

end Feeds

theorem reflectedBit_eq {w : Nat} (poly crc : BitVec w) (bit : Bool) :
    reflectedBit poly crc bit = reflectedShift poly crc ^^^ if bit then poly else 0#w := by
  unfold reflectedBit reflectedShift
  -- A set bit turns the choice around, and the polynomial added twice is gone.
  cases crc.getLsbD 0 <;> cases bit <;> simp [xor_assoc]

theorem reflected_feeds {w : Nat} (poly : BitVec w) : (reflected poly).Feeds (reflectedBit poly) := by
  refine ⟨fun x y s t => ?_, fun x => ?_⟩
  · rw [reflectedBit_eq, reflectedBit_eq, reflectedBit_eq, reflectedShift_linear]
    cases s <;> cases t <;> simp [BitVec.xor_assoc, BitVec.xor_comm poly]
  · rw [reflectedBit_eq]
    exact BitVec.xor_zero

theorem forwardBit_eq {w : Nat} (poly crc : BitVec w) (bit : Bool) :
    forwardBit poly crc bit = forwardShift poly crc ^^^ if bit then poly else 0#w := by
  unfold forwardBit forwardShift
  cases crc.getMsbD 0 <;> cases bit <;> simp [xor_assoc]

theorem forward_feeds {w : Nat} (poly : BitVec w) : (forward poly).Feeds (forwardBit poly) := by
  refine ⟨fun x y s t => ?_, fun x => ?_⟩
  · rw [forwardBit_eq, forwardBit_eq, forwardBit_eq, forwardShift_linear]
    cases s <;> cases t <;> simp [BitVec.xor_assoc, BitVec.xor_comm poly]
  · rw [forwardBit_eq]
    exact BitVec.xor_zero

section Low

variable {n w : Nat} {r : Register w} {bitIn : BitVec w → Bool → BitVec w}

/-- The bits of a word, the lowest first. -/
def lowBits (x : BitVec n) : List Bool := (List.range n).map x.getLsbD

theorem Register.Feeds.low_linear (feeds : r.Feeds bitIn) :
    XorLinear fun x : BitVec n => value bitIn (lowBits x) :=
  feeds.value_linear id (range n)

/-- A word moved up in a wider one comes after clear bits and before others. -/
theorem lowBits_shiftLeft (x : BitVec n) {m place : Nat} (room : n + place ≤ m) :
    lowBits (x.setWidth m <<< place) =
      replicate place false ++ lowBits x ++ replicate (m - n - place) false := by
  apply ext_getElem
  · simp only [lowBits, length_map, length_range, length_append,
      length_replicate]
    omega
  · intro i inside _
    simp only [lowBits, length_map, length_range] at inside
    simp only [lowBits, getElem_map, getElem_range, getElem_append,
      length_map, length_range, length_append, length_replicate,
      getElem_replicate, getLsbD_shiftLeft, getLsbD_setWidth]
    split
    · split
      · rename_i early
        simp [early]
      · rename_i late
        simp [inside, late, show i - place < m by omega]
    · simp [getLsbD_of_ge x (i - place) (by omega)]

theorem Register.Feeds.low_twoPow (feeds : r.Feeds bitIn) {place : Nat} (inside : place < n) :
    value bitIn (lowBits (BitVec.twoPow n place)) = r.skip (n - 1 - place) (bitIn 0#w true) := by
  have single : BitVec.twoPow n place = (1#1).setWidth n <<< place := by
    apply eq_of_getLsbD_eq
    intro i known
    rw [getLsbD_twoPow, getLsbD_shiftLeft, getLsbD_setWidth]
    by_cases same : place = i
    · subst same
      simp [inside]
      omega
    · by_cases low : i < place
      · simp [same, low]
      · simp [same, low, inside, known]
        omega
  rw [single, lowBits_shiftLeft _ (by omega), feeds.value_between]
  rfl

theorem Register.Feeds.low_clmul (feeds : r.Feeds bitIn) {k : BitVec n} {moves : Nat}
    (stands : value bitIn (lowBits k) = r.skip moves (bitIn 0#w true)) (x : BitVec n) :
    value bitIn (lowBits (clmul x k)) = r.skip (moves + 1) (value bitIn (lowBits x)) := by
  have agree : (fun x : BitVec n => value bitIn (lowBits (clmul x k))) =
      fun x => r.skip (moves + 1) (value bitIn (lowBits x)) := by
    apply XorLinear.ext (feeds.low_linear.comp (clmul_linear k)) ((r.skip_linear _).comp feeds.low_linear)
    intro place inside
    -- One bit moves the factor up, which leaves it fewer moves behind it.
    rw [clmul_twoPow k inside, lowBits_shiftLeft k (by omega), feeds.value_between, stands,
      feeds.low_twoPow inside, ← r.skip_add, ← r.skip_add]
    congr 1
    omega
  exact congrFun agree x

end Low

section High

variable {n w : Nat} {r : Register w} {bitIn : BitVec w → Bool → BitVec w}

/-- The bits of a word, the highest first. -/
def highBits (x : BitVec n) : List Bool := (List.range n).map fun i => x.getLsbD (n - 1 - i)

theorem Register.Feeds.high_linear (feeds : r.Feeds bitIn) :
    XorLinear fun x : BitVec n => value bitIn (highBits x) :=
  feeds.value_linear (fun i => n - 1 - i) (range n)

/-- A word moved up in a wider one comes after clear bits and before others. -/
theorem highBits_shiftLeft (x : BitVec n) {m place : Nat} (room : n + place ≤ m) :
    highBits (x.setWidth m <<< place) =
      replicate (m - n - place) false ++ highBits x ++ replicate place false := by
  apply ext_getElem
  · simp only [highBits, length_map, length_range, length_append,
      length_replicate]
    omega
  · intro i inside _
    simp only [highBits, length_map, length_range] at inside
    simp only [highBits, getElem_map, getElem_range, getElem_append,
      length_map, length_range, length_append, length_replicate,
      getElem_replicate, getLsbD_shiftLeft, getLsbD_setWidth]
    split
    · split
      · simp [getLsbD_of_ge x (m - 1 - i - place) (by omega)]
      · have same : m - 1 - i - place = n - 1 - (i - (m - n - place)) := by omega
        simp [same, show m - 1 - i < m by omega, show ¬ m - 1 - i < place by omega]
        omega
    · simp [show m - 1 - i < place by omega]

theorem Register.Feeds.high_twoPow (feeds : r.Feeds bitIn) {place : Nat} (inside : place < n) :
    value bitIn (highBits (BitVec.twoPow n place)) = r.skip place (bitIn 0#w true) := by
  have single : BitVec.twoPow n place = (1#1).setWidth n <<< place := by
    apply eq_of_getLsbD_eq
    intro i known
    rw [getLsbD_twoPow, getLsbD_shiftLeft, getLsbD_setWidth]
    by_cases same : place = i
    · subst same
      simp [inside]
      omega
    · by_cases low : i < place
      · simp [same, low]
      · simp [same, low, inside, known]
        omega
  rw [single, highBits_shiftLeft _ (by omega), feeds.value_between]
  rfl

theorem Register.Feeds.high_clmul (feeds : r.Feeds bitIn) {k : BitVec n} {moves : Nat}
    (stands : value bitIn (highBits k) = r.skip moves (bitIn 0#w true)) (x : BitVec n) :
    value bitIn (highBits (clmul x k)) = r.skip moves (value bitIn (highBits x)) := by
  have agree : (fun x : BitVec n => value bitIn (highBits (clmul x k))) =
      fun x => r.skip moves (value bitIn (highBits x)) := by
    apply XorLinear.ext (feeds.high_linear.comp (clmul_linear k)) ((r.skip_linear _).comp feeds.high_linear)
    intro place inside
    -- One bit moves the factor up, which leaves it as many more moves behind it.
    rw [clmul_twoPow k inside, highBits_shiftLeft k (by omega), feeds.value_between, stands,
      feeds.high_twoPow inside, ← r.skip_add, ← r.skip_add, Nat.add_comm]
  exact congrFun agree x

end High

end ShiftRegister
