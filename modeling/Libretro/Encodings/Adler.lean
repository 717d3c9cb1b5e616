import Libretro.Encodings.Inflate
import Libretro.Library.WordPeak
import Mathlib.Tactic.Linarith
import Mathlib.Tactic.Ring

/-! The Adler-32 kernel in blocks and lanes gives the checksum of the octets one at a time. -/

namespace Libretro.Adler

open WordPeak UInt8

/-- `RD_ADLER_MODULUS`. -/
def rdAdlerModulus : Nat := 65521

/-- `RD_ADLER_NMAX`. -/
def rdAdlerNmax : Nat := 5552

/-- A sum, a product or a shift in a `uint32_t`. -/
abbrev uint32 : Nat → Peak Nat := word 32

/-- `_mm_add_epi32`, and the same of the other widths. -/
def addEpi32 (left right : List Nat) : Peak (List Nat) := words 32 (List.zipWith (· + ·) left right)

/-- `_mm_shuffle_epi32`, with the lane that each one takes. -/
def shuffleEpi32 (order lanes : List Nat) : List Nat := order.map fun lane => lanes.getD lane 0

/-- `_mm_sad_epu8` against zero: the sum of each eight octets, over the lanes of 64 bits. -/
def sadEpu8 : Nat → List Nat → List Nat
  | 0, _ => []
  | groups + 1, v => (v.take 8).sum :: 0 :: sadEpu8 groups (v.drop 8)

/-- The sums of two products next to each other. -/
def pairProducts : List Nat → List Nat → List Nat
  | x :: y :: v, p :: q :: w => (x * p + y * q) :: pairProducts v w
  | _, _ => []

/-- The sums of two numbers next to each other. -/
def pairSums : List Nat → List Nat
  | x :: y :: v => (x + y) :: pairSums v
  | _ => []

/-- `_mm_madd_epi16`. -/
def maddEpi16 (v w : List Nat) : Peak (List Nat) := words 32 (pairProducts v w)

/-- `_mm256_maddubs_epi16`, which saturates at the greatest signed 16-bit number. -/
def maddubsEpi16 (v w : List Nat) : List Nat := (pairProducts v w).map (min 32767)

/-- `vmull_u8` of the low octets, and `vmlal_u8` of the high ones onto it, in 16 bits. -/
def mullMlal (v w : List Nat) : List Nat :=
  let p := List.zipWith (fun x q => x * q % 2 ^ 16) (v.take 8) (w.take 8)
  List.zipWith (· + ·) p (List.zipWith (· * ·) (v.drop 8) (w.drop 8)) |>.map (· % 2 ^ 16)

/-- `rd_adler_hsum` of the SSE2 build. -/
def rdAdlerHsum (v : List Nat) : Peak Nat := do
  let v ← addEpi32 v (shuffleEpi32 [2, 3, 0, 1] v)
  let v ← addEpi32 v (shuffleEpi32 [1, 0, 3, 2] v)
  pure (v.getD 0 0)

/-- `rd_adler_hsum` of the two halves of a 256-bit register. -/
def hsum256 (v : List Nat) : Peak Nat := do
  let half ← addEpi32 (v.take 4) (v.drop 4)
  rdAdlerHsum half

/-- `_mm512_reduce_add_epi32`. -/
def reduceAddEpi32 (v : List Nat) : Peak Nat := do
  let half ← addEpi32 (v.take 8) (v.drop 8)
  hsum256 half

/-- `rd_adler_hsum` of the NEON build. -/
def rdAdlerHsumNeon (v : List Nat) : Peak Nat := do
  let s ← addEpi32 (v.take 2) (v.drop 2)
  let s ← words 32 [s.getD 0 0 + s.getD 1 0, s.getD 0 0 + s.getD 1 0]
  pure (s.getD 0 0)

/-- What the vector forms of the block loop do differently. -/
structure Form where
  shift : Nat
  lanes : Nat
  addSums : List Nat → List Nat → Peak (List Nat)
  addWeighted : List Nat → List Nat → Peak (List Nat)
  hsum : List Nat → Peak Nat

/-- The octets of a block. -/
def Form.width (form : Form) : Nat := 1 <<< form.shift

/-- The loop over the blocks, with `vps` sampled before `vs1` takes its block. -/
def Form.loop (form : Form) : Nat → List UInt8 → List Nat → List Nat → List Nat →
    Peak (List Nat × List Nat × List Nat)
  | 0, _, vs1, vps, vs2 => pure (vs1, vps, vs2)
  | n + 1, buf, vs1, vps, vs2 => do
    let v := (buf.take form.width).map toNat
    let vps ← addEpi32 vps vs1
    let vs1 ← form.addSums vs1 v
    let vs2 ← form.addWeighted vs2 v
    form.loop n (buf.drop form.width) vs1 vps vs2

/-- The loop over whole blocks and the sums it is for. -/
def Form.blocks (form : Form) (a b : Nat) (buf : List UInt8) (blocks : Nat) : Peak (Nat × Nat) := do
  let zero := List.replicate form.lanes 0
  let (vs1, vps, vs2) ← form.loop blocks buf zero zero zero
  let octets ← uint32 (blocks <<< form.shift)
  let lead ← uint32 (octets * a)
  let b ← uint32 (b + lead)
  let before ← form.hsum vps
  let before ← uint32 (before <<< form.shift)
  let b ← uint32 (b + before)
  let weighted ← form.hsum vs2
  let b ← uint32 (b + weighted)
  let sums ← form.hsum vs1
  let a ← uint32 (a + sums)
  pure (a, b)

/-- The instructions of the SSE2 build. -/
def sse2 : Form where
  shift := 4
  lanes := 4
  addSums vs1 v := addEpi32 vs1 (sadEpu8 2 v)
  addWeighted vs2 v := do
    let low ← maddEpi16 (v.take 8) [16, 15, 14, 13, 12, 11, 10, 9]
    let high ← maddEpi16 (v.drop 8) [8, 7, 6, 5, 4, 3, 2, 1]
    let both ← addEpi32 low high
    addEpi32 vs2 both
  hsum := rdAdlerHsum

/-- The instructions of AVX2. -/
def avx2 : Form where
  shift := 5
  lanes := 8
  addSums vs1 v := addEpi32 vs1 (sadEpu8 4 v)
  addWeighted vs2 v := do
    let w := [32, 31, 30, 29, 28, 27, 26, 25, 24, 23, 22, 21, 20, 19, 18, 17, 16, 15, 14, 13, 12,
      11, 10, 9, 8, 7, 6, 5, 4, 3, 2, 1]
    let both ← maddEpi16 (maddubsEpi16 v w) (List.replicate 16 1)
    addEpi32 vs2 both
  hsum := hsum256

/-- The instructions of AVX-512. -/
def avx512 : Form where
  shift := 6
  lanes := 16
  addSums vs1 v := addEpi32 vs1 (sadEpu8 8 v)
  addWeighted vs2 v := do
    let w := [1, 2, 3, 4, 5, 6, 7, 8, 9, 10, 11, 12, 13, 14, 15, 16, 17, 18, 19, 20, 21, 22, 23,
      24, 25, 26, 27, 28, 29, 30, 31, 32, 33, 34, 35, 36, 37, 38, 39, 40, 41, 42, 43, 44, 45, 46,
      47, 48, 49, 50, 51, 52, 53, 54, 55, 56, 57, 58, 59, 60, 61, 62, 63, 64].reverse
    let both ← maddEpi16 (maddubsEpi16 v w) (List.replicate 32 1)
    addEpi32 vs2 both
  hsum := reduceAddEpi32

/-- The instructions of the NEON build. -/
def neon : Form where
  shift := 4
  lanes := 4
  addSums vs1 v := addEpi32 vs1 (pairSums (pairSums v))
  addWeighted vs2 v :=
    let w := [16, 15, 14, 13, 12, 11, 10, 9, 8, 7, 6, 5, 4, 3, 2, 1]
    addEpi32 vs2 (pairSums (mullMlal v w))
  hsum := rdAdlerHsumNeon

/-- `rd_adler_blocks` of the SSE2 build. -/
def rdAdlerBlocks : Nat → Nat → List UInt8 → Nat → Peak (Nat × Nat) := sse2.blocks

/-- `rd_adler_blocks32`. -/
def rdAdlerBlocks32 : Nat → Nat → List UInt8 → Nat → Peak (Nat × Nat) := avx2.blocks

/-- `rd_adler_blocks64`. -/
def rdAdlerBlocks64 : Nat → Nat → List UInt8 → Nat → Peak (Nat × Nat) := avx512.blocks

/-- `rd_adler_blocks` of the NEON build. -/
def rdAdlerBlocksNeon : Nat → Nat → List UInt8 → Nat → Peak (Nat × Nat) := neon.blocks

/-- The two sums over one block, with the weight that its first octet has. -/
def scalarSums : Nat → List UInt8 → Nat → Nat → Peak (Nat × Nat)
  | 0, _, sum, wsum => pure (sum, wsum)
  | weight + 1, buf, sum, wsum => do
    let octet := (buf.headD 0).toNat
    let sum ← uint32 (sum + octet)
    let product ← uint32 ((weight + 1) * octet)
    let wsum ← uint32 (wsum + product)
    scalarSums weight buf.tail sum wsum

/-- `rd_adler_blocks` of a build with no vector instructions. -/
def rdAdlerBlocksScalar (a b : Nat) (buf : List UInt8) : Nat → Peak (Nat × Nat)
  | 0 => pure (a, b)
  | blocks + 1 => do
    let (sum, wsum) ← scalarSums 32 buf 0 0
    let lead ← uint32 (32 * a)
    let step ← uint32 (lead + wsum)
    let b ← uint32 (b + step)
    let a ← uint32 (a + sum)
    rdAdlerBlocksScalar a b (buf.drop 32) blocks

/-- The builds of the kernel, by the instructions they may use. -/
inductive Build where
  | sse2
  | avx2
  | avx512
  | neon
  | scalar
  deriving DecidableEq

/-- `RD_ADLER_AVX2` is defined. -/
def Build.hasAvx2 (build : Build) : Bool := build = .avx2 ∨ build = .avx512

/-- `RD_ADLER_BLOCK`. -/
def Build.block : Build → Nat
  | .scalar => 32
  | _ => 16

/-- The build's `rd_adler_blocks`. -/
def Build.blocks : Build → Nat → Nat → List UInt8 → Nat → Peak (Nat × Nat)
  | .neon => rdAdlerBlocksNeon
  | .scalar => rdAdlerBlocksScalar
  | _ => rdAdlerBlocks

/-- A width no wider than the build has blocks for; where it has one width, none is asked for. -/
def Build.Takes (wide : Nat) : Build → Prop
  | .avx512 => wide = 16 ∨ wide = 32 ∨ wide = 64
  | .avx2 => wide = 16 ∨ wide = 32
  | _ => True

/-- The wide blocks of `rd_adler_run`. -/
def rdAdlerRunWide (build : Build) (a b : Nat) (buf : List UInt8) (wide : Nat) :
    Peak (Nat × Nat × List UInt8) :=
  if build.hasAvx2 ∧ 16 < wide ∧ wide ≤ buf.length then do
    let blocks := buf.length / wide
    let (a, b) ←
      if build = .avx512 ∧ wide = 64 then rdAdlerBlocks64 a b buf blocks
      else rdAdlerBlocks32 a b buf blocks
    pure (a, b, buf.drop (blocks * wide))
  else pure (a, b, buf)

/-- The narrow blocks of `rd_adler_run`. -/
def rdAdlerRunNarrow (build : Build) (a b : Nat) (buf : List UInt8) : Peak (Nat × Nat × List UInt8) :=
  if build.block ≤ buf.length then do
    let blocks := buf.length / build.block
    let (a, b) ← build.blocks a b buf blocks
    pure (a, b, buf.drop (blocks * build.block))
  else pure (a, b, buf)

/-- The bytes that `rd_adler_run` takes one at a time. -/
def rdAdlerRunBytes : Nat → Nat → List UInt8 → Peak (Nat × Nat)
  | a, b, [] => pure (a, b)
  | a, b, octet :: buf => do
    let a ← uint32 (a + octet.toNat)
    let b ← uint32 (b + a)
    rdAdlerRunBytes a b buf

/-- `rd_adler_run`. -/
def rdAdlerRun (build : Build) (a b : Nat) (buf : List UInt8) (wide : Nat) : Peak (Nat × Nat) := do
  let (a, b, buf) ← rdAdlerRunWide build a b buf wide
  let (a, b, buf) ← rdAdlerRunNarrow build a b buf
  rdAdlerRunBytes a b buf

/-- The loop of `rd_adler32_on`, a remainder after each run. -/
def rdAdlerRuns (build : Build) (wide a b : Nat) (buf : List UInt8) : Peak (Nat × Nat) :=
  if h : buf = [] then pure (a, b)
  else do
    let n := if rdAdlerNmax < buf.length then rdAdlerNmax else buf.length
    let (a, b) ← rdAdlerRun build a b (buf.take n) wide
    rdAdlerRuns build wide (a % rdAdlerModulus) (b % rdAdlerModulus) (buf.drop n)
termination_by buf.length
decreasing_by
  have := List.length_pos_of_ne_nil h
  have : 0 < rdAdlerNmax := by decide
  rw [List.length_drop]
  split_ifs <;> omega

/-- `rd_adler32_on`. -/
def rdAdler32On (build : Build) (adler : UInt32) (buf : List UInt8) (wide : Nat) : Peak UInt32 := do
  let (a, b) ← rdAdlerRuns build wide (adler.toNat &&& 0xFFFF) (adler.toNat >>> 16 &&& 0xFFFF) buf
  pure (UInt32.ofNat (b <<< 16 ||| a))

/-- `rd_adler32_update`: long strings go through the widest blocks that the processor takes. -/
def rdAdler32UpdateOn (build : Build) (widest : Nat) (adler : UInt32) (buf : List UInt8) : Peak UInt32 :=
  if build.hasAvx2 ∧ 128 ≤ buf.length then rdAdler32On build adler buf widest
  else rdAdler32On build adler buf 16

open List

/-- The sum weighted by the place from the end, the last one's weight being one. -/
def weigh : List Nat → Nat
  | [] => 0
  | x :: v => (v.length + 1) * x + weigh v

/-- The textbook loop over octets, with no remainder taken. -/
def octetLoop : Nat → Nat → List UInt8 → Nat × Nat
  | a, b, [] => (a, b)
  | a, b, octet :: buf => octetLoop (a + octet.toNat) (b + (a + octet.toNat)) buf

theorem octetLoop_eq (a b : Nat) (buf : List UInt8) : octetLoop a b buf = (a + (buf.map toNat).sum,
      b + buf.length * a + weigh (buf.map toNat)) := by
  -- An octet counts once in the first sum, and in the second once for each place up to the end.
  induction buf generalizing a b with
  | nil => simp [octetLoop, weigh]
  | cons octet buf ih =>
    simp only [octetLoop, ih, map_cons, sum_cons, weigh, length_map, length_cons, Prod.mk.injEq]
    constructor <;> ring

theorem octetLoop_append (a b : Nat) (front back : List UInt8) : octetLoop a b (front ++ back) =
      octetLoop (octetLoop a b front).1 (octetLoop a b front).2 back := by
  induction front generalizing a b with
  | nil => rfl
  | cons octet front ih => exact ih _ _

theorem octetLoop_mono (a b : Nat) (front back : List UInt8) :
    (octetLoop a b front).1 ≤ (octetLoop a b (front ++ back)).1 ∧
      (octetLoop a b front).2 ≤ (octetLoop a b (front ++ back)).2 := by
  rw [octetLoop_append, octetLoop_eq _ _ back]
  constructor <;> dsimp only <;> omega

theorem weigh_append (front back : List Nat) :
    weigh (front ++ back) = weigh front + back.length * front.sum + weigh back := by
  induction front with
  | nil => simp [weigh]
  | cons x front ih =>
    simp only [cons_append, weigh, ih, length_append, sum_cons]
    ring

theorem weigh_le (v : List Nat) (low : ∀ x ∈ v, x ≤ 255) :
    2 * weigh v ≤ 255 * (v.length * (v.length + 1)) := by
  induction v with
  | nil => simp [weigh]
  | cons x v ih =>
    have first : x ≤ 255 := low x mem_cons_self
    have rest := ih fun y inside => low y (mem_cons_of_mem x inside)
    have here : (v.length + 1) * x ≤ (v.length + 1) * 255 := Nat.mul_le_mul_left _ first
    simp only [weigh, length_cons]
    nlinarith

theorem octets_le (buf : List UInt8) : ∀ x ∈ buf.map toNat, x ≤ 255 := by
  intro x inside
  obtain ⟨octet, -, rfl⟩ := mem_map.mp inside
  have := octet.toNat_lt
  omega

theorem sum_zipWith_add (left right : List Nat) (same : left.length = right.length) :
    (zipWith (· + ·) left right).sum = left.sum + right.sum := by
  induction left generalizing right with
  | nil => simp [length_eq_zero_iff.mp same.symm]
  | cons x left ih =>
    obtain - | ⟨y, right⟩ := right
    · simp at same
    · simp only [zipWith_cons_cons, sum_cons, ih right (by simpa using same)]
      omega

theorem addEpi32_fits {left right : List Nat} (same : left.length = right.length)
    (low : left.sum + right.sum < 2 ^ 32) :
    ∃ sum : List Nat, sum.length = left.length ∧ sum.sum = left.sum + right.sum ∧
      Fits 32 (addEpi32 left right) sum := by
  refine ⟨zipWith (· + ·) left right, ?_, sum_zipWith_add left right same, ?_⟩
  · simp [same]
  · apply Fits.words_of_sum
    rwa [sum_zipWith_add left right same]

variable {v : List Nat}

theorem fold_fits (half : Nat) (lanes : v.length = 2 * half) (low : v.sum < 2 ^ 32) :
    ∃ sum : List Nat, sum.length = half ∧ sum.sum = v.sum ∧
      Fits 32 (addEpi32 (v.take half) (v.drop half)) sum := by
  have parts : (v.take half).sum + (v.drop half).sum = v.sum := by rw [← sum_append, take_append_drop]
  obtain ⟨sum, size, total, fits⟩ := @addEpi32_fits (v.take half) (v.drop half) (by simp; omega) (by omega)
  exact ⟨sum, by simp at size; omega, by omega, fits⟩

theorem rdAdlerHsum_fits (lanes : v.length = 4) (low : v.sum < 2 ^ 32) : Fits 32 (rdAdlerHsum v) v.sum := by
  obtain ⟨x0, x1, x2, x3, rfl⟩ : ∃ x0 x1 x2 x3, v = [x0, x1, x2, x3] := by
    match v, lanes with
    | [x0, x1, x2, x3], _ => exact ⟨x0, x1, x2, x3, rfl⟩
  simp only [sum_cons, sum_nil] at low
  -- The first addition pairs the lanes two apart, the second the two pairs.
  have first : Fits 32 (addEpi32 [x0, x1, x2, x3] (shuffleEpi32 [2, 3, 0, 1] [x0, x1, x2, x3]))
      [x0 + x2, x1 + x3, x2 + x0, x3 + x1] := by
    apply Fits.words
    intro value inside
    simp [shuffleEpi32] at inside
    omega
  apply first.bind
  have second : Fits 32 (addEpi32 [x0 + x2, x1 + x3, x2 + x0, x3 + x1]
      (shuffleEpi32 [1, 0, 3, 2] [x0 + x2, x1 + x3, x2 + x0, x3 + x1]))
      [x0 + x2 + (x1 + x3), x1 + x3 + (x0 + x2), x2 + x0 + (x3 + x1), x3 + x1 + (x2 + x0)] := by
    apply Fits.words
    intro value inside
    simp [shuffleEpi32] at inside
    omega
  apply second.bind
  have total : [x0, x1, x2, x3].sum = x0 + x2 + (x1 + x3) := by simp; omega
  rw [total]
  exact Fits.pure _

theorem hsum256_fits (lanes : v.length = 8) (low : v.sum < 2 ^ 32) : Fits 32 (hsum256 v) v.sum := by
  obtain ⟨half, size, total, fits⟩ := fold_fits 4 lanes low
  rw [← total] at low ⊢
  exact fits.bind (rdAdlerHsum_fits size low)

theorem reduceAddEpi32_fits (lanes : v.length = 16) (low : v.sum < 2 ^ 32) :
    Fits 32 (reduceAddEpi32 v) v.sum := by
  obtain ⟨half, size, total, fits⟩ := fold_fits 8 lanes low
  rw [← total] at low ⊢
  exact fits.bind (hsum256_fits size low)

theorem rdAdlerHsumNeon_fits (lanes : v.length = 4) (low : v.sum < 2 ^ 32) :
    Fits 32 (rdAdlerHsumNeon v) v.sum := by
  obtain ⟨half, size, total, fits⟩ := fold_fits 2 lanes low
  rw [← total] at low ⊢
  apply fits.bind
  obtain ⟨x, y, rfl⟩ : ∃ x y, half = [x, y] := by
    match half, size with
    | [x, y], _ => exact ⟨x, y, rfl⟩
  simp only [sum_cons, sum_nil] at low ⊢
  have pair : Fits 32 (words 32 [x + y, x + y]) [x + y, x + y] := by
    apply Fits.words
    intro value inside
    simp at inside
    omega
  exact pair.bind (Fits.pure _)

theorem sadEpu8_sum (groups : Nat) (v : List Nat) (size : v.length = 8 * groups) :
    (sadEpu8 groups v).sum = v.sum ∧ (sadEpu8 groups v).length = 2 * groups := by
  induction groups generalizing v with
  | zero => simp [sadEpu8, length_eq_zero_iff.mp size]
  | succ groups ih =>
    obtain ⟨sums, lanes⟩ := ih (v.drop 8) (by simp; omega)
    have parts : (v.take 8).sum + (v.drop 8).sum = v.sum := by rw [← sum_append, take_append_drop]
    simp only [sadEpu8, sum_cons, length_cons, sums, lanes]
    omega

theorem pairSums_sum (half : Nat) (v : List Nat) (size : v.length = 2 * half) :
    (pairSums v).sum = v.sum ∧ (pairSums v).length = half := by
  induction half generalizing v with
  | zero => simp [pairSums, length_eq_zero_iff.mp size]
  | succ half ih =>
    match v, size with
    | x :: y :: v, size =>
      obtain ⟨sums, lanes⟩ := ih v (by simp at size; omega)
      simp [pairSums, sums, lanes, Nat.add_assoc]

theorem pairProducts_eq (v w : List Nat) : pairProducts v w = pairSums (zipWith (· * ·) v w) := by
  fun_induction pairProducts v w with
  | case1 x y v p q w ih => simp [pairSums, ih]
  | case2 v w short =>
    match v, w, short with
    | [], _, _ => simp [pairSums]
    | [_], [], _ => simp [pairSums]
    | [_], _ :: _, _ => simp [pairSums]
    | _ :: _ :: _, [], _ => simp [pairSums]
    | _ :: _ :: _, [_], _ => simp [pairSums]
    | x :: y :: v, p :: q :: w, short => exact (short x y v p q w rfl rfl).elim

theorem pairProducts_sum (half : Nat) (v w : List Nat) (size : v.length = 2 * half)
    (wide : w.length = 2 * half) :
    (pairProducts v w).sum = (zipWith (· * ·) v w).sum ∧ (pairProducts v w).length = half := by
  rw [pairProducts_eq]
  exact pairSums_sum half _ (by simp [size, wide])

/-- The weights that go down to one. -/
def weights : Nat → List Nat
  | 0 => []
  | n + 1 => (n + 1) :: weights n

@[simp] theorem weights_length (n : Nat) : (weights n).length = n := by
  induction n with
  | zero => rfl
  | succ n ih => simp [weights, ih]

theorem zipWith_weights (v : List Nat) : (zipWith (· * ·) v (weights v.length)).sum = weigh v := by
  induction v with
  | nil => rfl
  | cons x v ih => simp [weights, weigh, ih, Nat.mul_comm]

variable {w : List Nat}

theorem pairProducts_le {most : Nat} (octets : ∀ x ∈ v, x ≤ 255)
    (few : ∀ q ∈ w, q ≤ most) : ∀ sum ∈ pairProducts v w, sum ≤ 2 * (255 * most) := by
  fun_induction pairProducts v w with
  | case1 x y v p q w ih =>
    intro sum inside
    simp only [mem_cons, forall_eq_or_imp] at octets few inside
    obtain ⟨xLow, yLow, octets⟩ := octets
    obtain ⟨pLow, qLow, few⟩ := few
    obtain rfl | inside := inside
    · have := Nat.mul_le_mul xLow pLow
      have := Nat.mul_le_mul yLow qLow
      omega
    · exact ih octets few sum inside
  | case2 => simp

theorem maddubsEpi16_eq (octets : ∀ x ∈ v, x ≤ 255) (few : ∀ q ∈ w, q ≤ 64) :
    maddubsEpi16 v w = pairProducts v w := by
  have same : ∀ sum ∈ pairProducts v w, min 32767 sum = sum := by
    intro sum inside
    have := pairProducts_le octets few sum inside
    omega
  exact (map_congr_left same).trans (map_id' _)

theorem zipWith_ones (v : List Nat) (n : Nat) (size : v.length = n) :
    zipWith (· * ·) v (replicate n 1) = v := by
  subst size
  induction v with
  | nil => rfl
  | cons x v ih => simp [replicate_succ, ih]

theorem maddOnes_fits (half : Nat) (row : w = weights v.length)
    (octets : ∀ x ∈ v, x ≤ 255) (few : ∀ q ∈ w, q ≤ 64) (size : v.length = 2 * (2 * half))
    (low : weigh v < 2 ^ 32) :
    ∃ sums : List Nat, sums.length = half ∧ sums.sum = weigh v ∧
      Fits 32 (maddEpi16 (maddubsEpi16 v w) (replicate (2 * half) 1)) sums := by
  have wide : w.length = v.length := by rw [row, weights_length]
  -- Two rounds of adding neighbours keep the sum, and leave a quarter of the lanes.
  obtain ⟨total, lanes⟩ := pairProducts_sum (2 * half) v w size (wide.trans size)
  obtain ⟨again, quarter⟩ := pairProducts_sum half (pairProducts v w) (replicate (2 * half) 1) lanes (by simp)
  rw [zipWith_ones _ _ lanes, total, row, zipWith_weights, ← row] at again
  refine ⟨_, quarter, again, ?_⟩
  rw [maddEpi16, maddubsEpi16_eq octets few]
  exact Fits.words_of_sum (again.trans_lt low)

theorem mullMlal_eq (octets : ∀ x ∈ v, x ≤ 255) (few : ∀ q ∈ w, q ≤ 64) :
    mullMlal v w = zipWith (· + ·) (zipWith (· * ·) (v.take 8) (w.take 8))
      (zipWith (· * ·) (v.drop 8) (w.drop 8)) := by
  have product : ∀ x ≤ 255, ∀ q ≤ 64, x * q ≤ 255 * 64 := fun x xLow q qLow =>
    Nat.mul_le_mul xLow qLow
  have inTake : ∀ x ∈ v.take 8, ∀ q ∈ w.take 8, x * q ≤ 255 * 64 := fun x hx q hq =>
    product x (octets x (mem_of_mem_take hx)) q (few q (mem_of_mem_take hq))
  have inDrop : ∀ x ∈ v.drop 8, ∀ q ∈ w.drop 8, x * q ≤ 255 * 64 := fun x hx q hq =>
    product x (octets x (mem_of_mem_drop hx)) q (few q (mem_of_mem_drop hq))
  unfold mullMlal
  generalize v.take 8 = v1 at inTake ⊢
  generalize w.take 8 = w1 at inTake ⊢
  generalize v.drop 8 = v2 at inDrop ⊢
  generalize w.drop 8 = w2 at inDrop ⊢
  apply ext_getElem
  · simp
  · intro i _ inside
    simp only [length_zipWith] at inside
    -- Each of the two products is of entries that stand at the place.
    have inside1 : i < v1.length ∧ i < w1.length := by omega
    have inside2 : i < v2.length ∧ i < w2.length := by omega
    have low := inTake _ (getElem_mem inside1.1) _ (getElem_mem inside1.2)
    have high := inDrop _ (getElem_mem inside2.1) _ (getElem_mem inside2.2)
    simp only [getElem_map, getElem_zipWith]
    generalize v1[i] * w1[i] = first at low ⊢
    generalize v2[i] * w2[i] = second at high ⊢
    omega

theorem halves_sum (v w : List Nat) (n : Nat) (same : v.length = w.length) :
    (zipWith (· * ·) (v.take n) (w.take n)).sum +
      (zipWith (· * ·) (v.drop n) (w.drop n)).sum = (zipWith (· * ·) v w).sum := by
  rw [← sum_append, ← zipWith_append (by simp [same]), take_append_drop,
    take_append_drop]

/-- What the block loop relies on: each instruction adds to the sums of its lanes. -/
structure Form.Sound (form : Form) : Prop where
  sums : ∀ vs1 v : List Nat, vs1.length = form.lanes → v.length = form.width →
    vs1.sum + v.sum < 2 ^ 32 → ∃ next : List Nat, next.length = form.lanes ∧
      next.sum = vs1.sum + v.sum ∧ Fits 32 (form.addSums vs1 v) next
  weighted : ∀ vs2 v : List Nat, vs2.length = form.lanes → v.length = form.width →
    (∀ x ∈ v, x ≤ 255) → vs2.sum + weigh v < 2 ^ 32 → ∃ next : List Nat,
      next.length = form.lanes ∧ next.sum = vs2.sum + weigh v ∧
      Fits 32 (form.addWeighted vs2 v) next
  hsum : ∀ lanes : List Nat, lanes.length = form.lanes → lanes.sum < 2 ^ 32 →
    Fits 32 (form.hsum lanes) lanes.sum

theorem addLanes_fits {acc row : List Nat} {lanes total : Nat} (size : acc.length = lanes)
    (wide : row.length = lanes) (sum : row.sum = total) (low : acc.sum + total < 2 ^ 32) :
    ∃ next : List Nat, next.length = lanes ∧ next.sum = acc.sum + total ∧
      Fits 32 (addEpi32 acc row) next := by
  obtain ⟨next, long, sums, fits⟩ := addEpi32_fits (size.trans wide.symm) (by omega)
  exact ⟨next, by omega, by omega, fits⟩

theorem bindLanes_fits {run : Peak (List Nat)} {acc row : List Nat} {lanes total : Nat}
    (fits : Fits 32 run row) (size : acc.length = lanes) (wide : row.length = lanes)
    (sum : row.sum = total) (low : acc.sum + total < 2 ^ 32) :
    ∃ next : List Nat, next.length = lanes ∧ next.sum = acc.sum + total ∧
      Fits 32 (run >>= addEpi32 acc) next := by
  obtain ⟨next, long, sums, added⟩ := addLanes_fits size wide sum low
  exact ⟨next, long, sums, fits.bind added⟩

theorem avx2_sound : avx2.Sound where
  sums vs1 v size block low :=
    have ⟨sums, lanes⟩ := sadEpu8_sum 4 v block
    addLanes_fits size lanes sums low
  weighted vs2 v size block octets low := by
    have ⟨row, lanes, sum, fits⟩ := @maddOnes_fits v
      [32, 31, 30, 29, 28, 27, 26, 25, 24, 23, 22, 21, 20, 19, 18, 17, 16, 15, 14, 13, 12,
        11, 10, 9, 8, 7, 6, 5, 4, 3, 2, 1] 8 (by rw [block]; rfl) octets (by decide) block (by omega)
    exact bindLanes_fits fits size lanes sum low
  hsum _ lanes low := hsum256_fits lanes low

theorem avx512_sound : avx512.Sound where
  sums vs1 v size block low :=
    have ⟨sums, lanes⟩ := sadEpu8_sum 8 v block
    addLanes_fits size lanes sums low
  weighted vs2 v size block octets low := by
    have ⟨row, lanes, sum, fits⟩ := @maddOnes_fits v (weights 64) 16
      (by rw [block]; rfl) octets (by decide) block (by omega)
    exact bindLanes_fits fits size lanes sum low
  hsum _ lanes low := reduceAddEpi32_fits lanes low

/-- The instructions of the SSE2 build. -/
theorem sse2_sound : sse2.Sound where
  sums vs1 v size block low :=
    have ⟨sums, lanes⟩ := sadEpu8_sum 2 v block
    addLanes_fits size lanes sums low
  weighted vs2 v size block octets low := by
    have block : v.length = 16 := block
    have whole := halves_sum v (weights 16) 8 (by rw [block, weights_length])
    rw [← block, zipWith_weights, block] at whole
    -- The low octets and the high ones have registers of their own, and are added lane by lane.
    have ⟨lowSum, lowLanes⟩ := pairProducts_sum 4 (v.take 8) ((weights 16).take 8) (by simp [block]) (by simp)
    have ⟨highSum, highLanes⟩ := pairProducts_sum 4 (v.drop 8) ((weights 16).drop 8)
      (by simp [block]) (by simp)
    have ⟨both, lanes, sum, added⟩ := addEpi32_fits (lowLanes.trans highLanes.symm) (by omega)
    have ⟨next, long, total, last⟩ := @addLanes_fits vs2 both 4 (weigh v) size
      (lanes.trans lowLanes) (by omega) low
    refine ⟨next, long, total, ?_⟩
    apply (Fits.words_of_sum (lowSum.trans_lt (by omega))).bind
    apply (Fits.words_of_sum (highSum.trans_lt (by omega))).bind
    exact added.bind last
  hsum _ lanes low := rdAdlerHsum_fits lanes low

/-- The instructions of the NEON build. -/
theorem neon_sound : neon.Sound where
  sums vs1 v size block low :=
    have ⟨pairs, half⟩ := pairSums_sum 8 v block
    have ⟨sums, lanes⟩ := pairSums_sum 4 (pairSums v) half
    addLanes_fits size lanes (sums.trans pairs) low
  weighted vs2 v size block octets low := by
    have block : v.length = 16 := block
    have whole := halves_sum v (weights 16) 8 (by rw [block, weights_length])
    rw [← block, zipWith_weights, block] at whole
    have row : mullMlal v (weights 16) = _ := mullMlal_eq octets (by decide)
    have total := sum_zipWith_add (zipWith (· * ·) (v.take 8) ((weights 16).take 8))
      (zipWith (· * ·) (v.drop 8) ((weights 16).drop 8)) (by simp [block])
    rw [← row, whole] at total
    have ⟨sums, lanes⟩ := pairSums_sum 4 (mullMlal v (weights 16)) (by rw [row]; simp [block])
    exact addLanes_fits size lanes (sums.trans total) low
  hsum _ lanes low := rdAdlerHsumNeon_fits lanes low

open Nat
open Libretro.Inflate (rdAdler32Update)

theorem Form.Sound.loop {form : Form} (sound : form.Sound) (n : Nat) (buf : List UInt8)
    (vs1 vps vs2 : List Nat) (size1 : vs1.length = form.lanes) (sizep : vps.length = form.lanes)
    (size2 : vs2.length = form.lanes) (enough : n * form.width ≤ buf.length)
    (lowSum : vs1.sum + ((buf.take (n * form.width)).map toNat).sum < 2 ^ 32)
    (low : form.width * (vps.sum + n * vs1.sum) + vs2.sum +
      weigh ((buf.take (n * form.width)).map toNat) < 2 ^ 32) :
    ∃ last1 lastp last2 : List Nat, last1.length = form.lanes ∧ lastp.length = form.lanes ∧
      last2.length = form.lanes ∧
      last1.sum = vs1.sum + ((buf.take (n * form.width)).map toNat).sum ∧
      form.width * lastp.sum + last2.sum = form.width * (vps.sum + n * vs1.sum) + vs2.sum +
        weigh ((buf.take (n * form.width)).map toNat) ∧
      Fits 32 (form.loop n buf vs1 vps vs2) (last1, lastp, last2) := by
  induction n generalizing buf vs1 vps vs2 with
  | zero => exact ⟨vs1, vps, vs2, size1, sizep, size2, by simp, by simp [weigh], Fits.pure _⟩
  | succ n ih =>
    have positive : 0 < form.width := by simp [Form.width, shiftLeft_eq]
    have long : form.width + n * form.width ≤ buf.length := by
      rw [succ_mul] at enough
      omega
    have split : buf.take ((n + 1) * form.width) =
        buf.take form.width ++ (buf.drop form.width).take (n * form.width) := by
      rw [succ_mul, add_comm, take_add]
    rw [split, map_append] at lowSum low ⊢
    rw [sum_append] at lowSum ⊢
    rw [weigh_append] at low ⊢
    have octets := octets_le (buf.take form.width)
    have block : ((buf.take form.width).map toNat).length = form.width := by simp; omega
    have behind : (((buf.drop form.width).take (n * form.width)).map toNat).length =
        n * form.width := by
      simp; omega
    rw [behind] at low ⊢
    -- The sum of all, with each octet weighted, is the same before and after the block.
    have kept : ∀ a p q s : Nat, ∀ v t : Nat, form.width * (p + a + n * (a + s)) + (q + v) + t =
          form.width * (p + (n + 1) * a) + q + (v + n * form.width * s + t) := by
      intro a p q s v t
      ring
    have before : vps.sum + vs1.sum ≤ form.width * (vps.sum + (n + 1) * vs1.sum) := by
      calc vps.sum + vs1.sum ≤ vps.sum + (n + 1) * vs1.sum := by
            rw [succ_mul]
            omega
        _ ≤ form.width * (vps.sum + (n + 1) * vs1.sum) := Nat.le_mul_of_pos_left _ positive
    have smaller : vs2.sum ≤ form.width * (vps.sum + (n + 1) * vs1.sum) + vs2.sum := by omega
    obtain ⟨nextp, sizep', sump, fitsp⟩ := addEpi32_fits (sizep.trans size1.symm) (by omega)
    obtain ⟨next1, size1', sum1, fits1⟩ := sound.sums vs1 _ size1 block (by omega)
    obtain ⟨next2, size2', sum2, fits2⟩ := sound.weighted vs2 _ size2 block octets (by omega)
    obtain ⟨last1, lastp, last2, long1, longp, long2, total1, total, onward⟩ :=
      ih (buf.drop form.width) next1 nextp next2 size1' (sizep'.trans sizep) size2'
        (by rw [length_drop]; omega) (by omega) (by
          rw [sump, sum1, sum2, kept]
          exact low)
    refine ⟨last1, lastp, last2, long1, longp, long2, by omega, ?_, ?_⟩
    · rw [total, sump, sum1, sum2, kept]
    · apply fitsp.bind
      apply fits1.bind
      exact fits2.bind onward

/-- What a function over whole blocks is for: the octets' sums, with no number beyond a word. -/
def Folds (width : Nat) (blocks : Nat → Nat → List UInt8 → Nat → Peak (Nat × Nat)) : Prop :=
  ∀ a b buf n, n * width ≤ buf.length → n * width < 2 ^ 32 →
    (octetLoop a b (buf.take (n * width))).1 < 2 ^ 32 →
    (octetLoop a b (buf.take (n * width))).2 < 2 ^ 32 →
    Fits 32 (blocks a b buf n) (octetLoop a b (buf.take (n * width)))

theorem Form.Sound.folds {form : Form} (sound : form.Sound) : Folds form.width form.blocks := by
  intro a b buf n enough few low1 low2
  have positive : 0 < form.width := by simp [Form.width, shiftLeft_eq]
  rw [octetLoop_eq] at low1 low2 ⊢
  have size : (buf.take (n * form.width)).length = n * form.width := by simp; omega
  rw [size] at low2 ⊢
  have zero : (replicate form.lanes 0).length = form.lanes := by simp
  have none : (replicate form.lanes 0).sum = 0 := by simp
  obtain ⟨vs1, vps, vs2, size1, sizep, size2, sum1, total, fits⟩ :=
    sound.loop n buf _ _ _ zero zero zero enough (by omega) (by rw [none]; omega)
  rw [none] at sum1 total
  generalize ((buf.take (n * form.width)).map toNat).sum = sum at *
  generalize weigh ((buf.take (n * form.width)).map toNat) = weighted at *
  have shift : ∀ x, x <<< form.shift = form.width * x := by
    intro x
    simp [Form.width, shiftLeft_eq, mul_comm]
  dsimp only at low1 low2 ⊢
  have value : (a + sum, b + n * form.width * a + weighted) =
      (a + vs1.sum, b + n * form.width * a + form.width * vps.sum + vs2.sum) := by
    rw [Prod.mk.injEq]
    omega
  have samples : vps.sum ≤ form.width * vps.sum := Nat.le_mul_of_pos_left _ positive
  rw [value]
  unfold Form.blocks
  -- Each sum on the way is a part of the last one.
  apply fits.bind
  dsimp only
  rw [shift, mul_comm form.width n]
  apply (Fits.word few).bind
  apply (Fits.word (by omega)).bind
  apply (Fits.word (by omega)).bind
  apply (sound.hsum vps sizep (by omega)).bind
  rw [shift]
  apply (Fits.word (by omega)).bind
  apply (Fits.word (by omega)).bind
  apply (sound.hsum vs2 size2 (by omega)).bind
  apply (Fits.word (by omega)).bind
  apply (sound.hsum vs1 size1 (by omega)).bind
  apply (Fits.word (by omega)).bind
  exact Fits.pure _

theorem scalarSums_fits (weight : Nat) (buf : List UInt8) (sum wsum : Nat) (enough : weight ≤ buf.length)
    (low : sum + ((buf.take weight).map toNat).sum < 2 ^ 32)
    (lowWeighted : wsum + weigh ((buf.take weight).map toNat) < 2 ^ 32) :
    Fits 32 (scalarSums weight buf sum wsum) (sum + ((buf.take weight).map toNat).sum,
      wsum + weigh ((buf.take weight).map toNat)) := by
  induction weight generalizing buf sum wsum with
  | zero => exact Fits.pure _
  | succ weight ih =>
    obtain - | ⟨octet, buf⟩ := buf
    · simp at enough
    have size : ((buf.take weight).map toNat).length = weight := by
      simp at enough ⊢
      omega
    simp only [take_succ_cons, map_cons, sum_cons, weigh, size] at low lowWeighted ⊢
    apply (Fits.word (by simp only [headD_cons]; omega)).bind
    apply (Fits.word (by simp only [headD_cons]; omega)).bind
    apply (Fits.word (by simp only [headD_cons]; omega)).bind
    simp only [headD_cons, tail_cons]
    have onward := ih buf (sum + octet.toNat) (wsum + (weight + 1) * octet.toNat)
      (by simpa using enough) (by omega) (by omega)
    rw [add_assoc, add_assoc] at onward
    exact onward

theorem rdAdlerBlocksScalar_folds : Folds 32 rdAdlerBlocksScalar := by
  intro a b buf n enough few low1 low2
  induction n generalizing a b buf with
  | zero =>
    have none : buf.take (0 * 32) = [] := by simp
    rw [none]
    exact Fits.pure _
  | succ n ih =>
    have split : buf.take ((n + 1) * 32) = buf.take 32 ++ (buf.drop 32).take (n * 32) := by
      rw [succ_mul, add_comm, take_add]
    rw [split] at low1 low2 ⊢
    have partly := octetLoop_mono a b (buf.take 32) ((buf.drop 32).take (n * 32))
    rw [octetLoop_append] at low1 low2 partly ⊢
    have size : (buf.take 32).length = 32 := by simp; omega
    have block := octetLoop_eq a b (buf.take 32)
    rw [size] at block
    generalize octetLoop a b (buf.take 32) = after at *
    subst block
    dsimp only at partly low1 low2 ⊢
    apply (scalarSums_fits 32 buf 0 0 (by omega) (by omega) (by omega)).bind
    dsimp only
    apply (Fits.word (by omega)).bind
    apply (Fits.word (by omega)).bind
    apply (Fits.word (by omega)).bind
    apply (Fits.word (by omega)).bind
    simp only [zero_add, ← add_assoc]
    exact ih _ _ (buf.drop 32) (by rw [length_drop]; omega) (by omega) low1 low2

/-- Octets whose sums stay within a word, and that are fewer than a word counts. -/
structure Low (a b : Nat) (buf : List UInt8) : Prop where
  few : buf.length < 2 ^ 32
  first : (octetLoop a b buf).1 < 2 ^ 32
  second : (octetLoop a b buf).2 < 2 ^ 32

/-- Part of a run is done with: the sums of what is left, from those reached, are the run's. -/
def Onward (run : Peak (Nat × Nat × List UInt8)) (a b : Nat) (buf : List UInt8) : Prop :=
  ∃ nextA nextB rest, Fits 32 run (nextA, nextB, rest) ∧ Low nextA nextB rest ∧
    octetLoop nextA nextB rest = octetLoop a b buf

variable {a b : Nat} {buf : List UInt8}

theorem Onward.rfl (low : Low a b buf) : Onward (pure (a, b, buf)) a b buf :=
  ⟨a, b, buf, Fits.pure _, low, Eq.refl _⟩

theorem Folds.onward {width : Nat} {blocks : Nat → Nat → List UInt8 → Nat → Peak (Nat × Nat)}
    (folds : Folds width blocks) (low : Low a b buf) :
    Onward (do
      let (nextA, nextB) ← blocks a b buf (buf.length / width)
      pure (nextA, nextB, buf.drop (buf.length / width * width))) a b buf := by
  have enough := div_mul_le_self buf.length width
  generalize buf.length / width = n at enough ⊢
  have partly := octetLoop_mono a b (buf.take (n * width)) (buf.drop (n * width))
  have whole := octetLoop_append a b (buf.take (n * width)) (buf.drop (n * width))
  rw [take_append_drop] at partly whole
  have few := low.few
  have fits := folds a b buf n enough (by omega) (partly.1.trans_lt low.first)
    (partly.2.trans_lt low.second)
  refine ⟨_, _, _, fits.bind (Fits.pure _), ⟨?_, ?_, ?_⟩, whole.symm⟩
  · rw [length_drop]
    omega
  · exact whole ▸ low.first
  · exact whole ▸ low.second

variable {build : Build} {wide : Nat}

theorem rdAdlerRunWide_onward (takes : build.Takes wide) (low : Low a b buf) :
    Onward (rdAdlerRunWide build a b buf wide) a b buf := by
  unfold rdAdlerRunWide
  split
  · next wider =>
    split
    · next both =>
      obtain ⟨-, rfl⟩ := both
      exact avx512_sound.folds.onward low
    -- A width below the greatest is 32, in either build.
    · next narrow =>
      have width : wide = 32 := by
        cases build <;> simp [Build.hasAvx2, Build.Takes] at * <;> omega
      subst width
      exact avx2_sound.folds.onward low
  · exact Onward.rfl low

theorem rdAdlerRunNarrow_onward (build : Build)
    (low : Low a b buf) : Onward (rdAdlerRunNarrow build a b buf) a b buf := by
  unfold rdAdlerRunNarrow
  split
  · cases build with
    | neon => exact neon_sound.folds.onward low
    | scalar => exact rdAdlerBlocksScalar_folds.onward low
    | sse2 => exact sse2_sound.folds.onward low
    | avx2 => exact sse2_sound.folds.onward low
    | avx512 => exact sse2_sound.folds.onward low
  · exact Onward.rfl low

theorem rdAdlerRunBytes_fits (low : Low a b buf) : Fits 32 (rdAdlerRunBytes a b buf) (octetLoop a b buf) := by
  induction buf generalizing a b with
  | nil => exact Fits.pure _
  | cons octet buf ih =>
    have partly := octetLoop_mono a b [octet] buf
    have rest : Low (a + octet.toNat) (b + (a + octet.toNat)) buf :=
      ⟨(lt_succ_self _).trans low.few, low.first, low.second⟩
    apply (Fits.word (partly.1.trans_lt low.first)).bind
    apply (Fits.word (partly.2.trans_lt low.second)).bind
    exact ih rest

theorem rdAdlerRun_fits (takes : build.Takes wide) (low : Low a b buf) :
    Fits 32 (rdAdlerRun build a b buf wide) (octetLoop a b buf) := by
  obtain ⟨nextA, nextB, rest, fits, low, same⟩ := rdAdlerRunWide_onward takes low
  rw [← same]
  apply fits.bind
  obtain ⟨nextA, nextB, rest, fits, low, same⟩ := rdAdlerRunNarrow_onward build low
  rw [← same]
  apply fits.bind
  exact rdAdlerRunBytes_fits low

theorem low_of_run (lowA : a < rdAdlerModulus)
    (lowB : b < rdAdlerModulus) (short : buf.length ≤ rdAdlerNmax) : Low a b buf := by
  unfold rdAdlerModulus at lowA lowB
  unfold rdAdlerNmax at short
  have sums : (buf.map toNat).sum ≤ buf.length * 255 := by
    simpa using sum_le_card_nsmul (buf.map toNat) 255 (octets_le buf)
  have weighed := weigh_le _ (octets_le buf)
  have triangle : buf.length * (buf.length + 1) ≤ 5552 * 5553 := Nat.mul_le_mul short (by omega)
  have lead : buf.length * a ≤ 5552 * 65520 := Nat.mul_le_mul short (by omega)
  rw [length_map] at weighed
  refine ⟨by omega, ?_, ?_⟩ <;> rw [octetLoop_eq] <;> dsimp only <;> omega

/-- One octet of the checksum, both remainders taken. -/
def octetStep : Nat × Nat → UInt8 → Nat × Nat :=
  fun (a, b) octet =>
    let a := (a + octet.toNat) % 65521
    (a, (b + a) % 65521)

theorem foldl_octetStep (a b : Nat) (buf : List UInt8) :
    buf.foldl octetStep (a % rdAdlerModulus, b % rdAdlerModulus) =
      ((octetLoop a b buf).1 % rdAdlerModulus, (octetLoop a b buf).2 % rdAdlerModulus) := by
  induction buf generalizing a b with
  | nil => rfl
  | cons octet buf ih =>
    rw [foldl_cons]
    refine Eq.trans ?_ (ih (a + octet.toNat) (b + (a + octet.toNat)))
    simp only [octetStep, rdAdlerModulus]
    congr 2 <;> omega

theorem rdAdlerRuns_fits (takes : build.Takes wide)
    (lowA : a < rdAdlerModulus) (lowB : b < rdAdlerModulus) (buf : List UInt8) :
    Fits 32 (rdAdlerRuns build wide a b buf) (buf.foldl octetStep (a, b)) := by
  have positive : 0 < rdAdlerModulus := by decide
  -- The induction is on the octets left; a run takes at least one of them.
  induction size : buf.length using Nat.strongRecOn generalizing a b buf with
  | ind left ih =>
    rw [rdAdlerRuns]
    by_cases none : buf = []
    · rw [dif_pos none, none]
      exact Fits.pure _
    rw [dif_neg none]
    have some := length_pos_of_ne_nil none
    dsimp only
    have part : (if rdAdlerNmax < buf.length then rdAdlerNmax else buf.length) ≤ rdAdlerNmax ∧
        0 < if rdAdlerNmax < buf.length then rdAdlerNmax else buf.length := by
      have : 0 < rdAdlerNmax := by decide
      split_ifs <;> omega
    generalize (if rdAdlerNmax < buf.length then rdAdlerNmax else buf.length) = n at part ⊢
    obtain ⟨short, more⟩ := part
    have low := low_of_run lowA lowB ((length_take_le n buf).trans short)
    apply (rdAdlerRun_fits takes low).bind
    -- The octets up to here fold to the remainders that the next run starts from.
    have here := foldl_octetStep a b (buf.take n)
    rw [mod_eq_of_lt lowA, mod_eq_of_lt lowB] at here
    have whole : buf.foldl octetStep (a, b) =
        (buf.drop n).foldl octetStep ((buf.take n).foldl octetStep (a, b)) := by
      rw [← foldl_append, take_append_drop]
    rw [whole, here]
    exact ih (buf.drop n).length (by rw [length_drop]; omega) (mod_lt _ positive)
      (mod_lt _ positive) _ rfl

theorem rdAdler32On_fits (takes : build.Takes wide)
    (adler : UInt32) (low : adler.toNat &&& 0xFFFF < rdAdlerModulus)
    (high : adler.toNat >>> 16 &&& 0xFFFF < rdAdlerModulus) (buf : List UInt8) :
    Fits 32 (rdAdler32On build adler buf wide) (rdAdler32Update adler buf) := by
  apply (rdAdlerRuns_fits takes low high buf).bind
  exact Fits.pure _

theorem rdAdler32UpdateOn_fits {widest : Nat} (takes : build.Takes widest)
    (adler : UInt32) (low : adler.toNat &&& 0xFFFF < rdAdlerModulus)
    (high : adler.toNat >>> 16 &&& 0xFFFF < rdAdlerModulus) (buf : List UInt8) :
    Fits 32 (rdAdler32UpdateOn build widest adler buf) (rdAdler32Update adler buf) := by
  unfold rdAdler32UpdateOn
  split
  · exact rdAdler32On_fits takes adler low high buf
  -- Every build takes blocks of sixteen.
  · have narrow : build.Takes 16 := by
      cases build <;> simp [Build.Takes]
    exact rdAdler32On_fits narrow adler low high buf

/-- In blocks of any width the checksum is that of the octets one at a time, in 32 bits. -/
theorem rdAdler32On_octets {build : Build} {wide : Nat} (takes : build.Takes wide)
    (adler : UInt32) (low : adler.toNat &&& 0xFFFF < rdAdlerModulus)
    (high : adler.toNat >>> 16 &&& 0xFFFF < rdAdlerModulus) (buf : List UInt8) :
    ∃ peak < 2 ^ 32, rdAdler32On build adler buf wide 0 = (rdAdler32Update adler buf, peak) :=
  rdAdler32On_fits takes adler low high buf 0 (by decide)

/-- Worst-case octets in the widest blocks, from the greatest halves. -/
theorem rdAdler32On_octets_worst :
    ∃ peak < 2 ^ 32, rdAdler32On .avx512 0xFFF0FFF0 (List.replicate 5552 0xFF) 64 0 =
      (rdAdler32Update 0xFFF0FFF0 (List.replicate 5552 0xFF), peak) :=
  @rdAdler32On_octets .avx512 64 (Or.inr (Or.inr rfl)) 0xFFF0FFF0 (by decide) (by decide) _

end Libretro.Adler
