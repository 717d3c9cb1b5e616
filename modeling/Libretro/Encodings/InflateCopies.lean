import Libretro.Encodings.Inflate
import Libretro.Library.Deflate
import Mathlib.Tactic.IntervalCases

/-! The match copies, of any shape, and the history ring that they read. -/

namespace Libretro.Inflate

open BackReference List Nat

variable {out : List UInt8}

theorem store_length {start : Nat} (inside : start ≤ out.length) (bytes : List UInt8) :
    (store out start bytes).length = max out.length (start + bytes.length) := by
  simp only [store, length_append, length_take, length_drop]
  omega

theorem store_take {start : Nat} (inside : start ≤ out.length) (bytes : List UInt8) :
    (store out start bytes).take (start + bytes.length) = out.take start ++ bytes := by
  have width : (out.take start ++ bytes).length = start + bytes.length := by
    rw [length_append, length_take, min_eq_left inside]
  rw [store, ← width, take_left]

theorem store_before {start : Nat} (inside : start ≤ out.length)
    (bytes : List UInt8) {n : Nat} (before : n ≤ start) :
    (store out start bytes).take n = out.take n := by
  have part := congrArg (List.take n) (store_take inside bytes)
  rw [take_take, min_eq_left (by omega), take_append_of_le_length, take_take,
    min_eq_left before] at part
  · exact part
  · rw [length_take]
    omega

variable {dist dst : Nat}

theorem source_eq {w : Nat} (back : dist ≤ dst) (within : w ≤ dist) :
    (out.drop (dst - dist)).take w = ((out.take dst).drop (dst - dist)).take w := by
  rw [drop_take, take_take, min_eq_left (by omega)]

theorem source_length {w : Nat} (inside : dst ≤ out.length) (back : dist ≤ dst) (within : w ≤ dist) :
    ((out.drop (dst - dist)).take w).length = w := by
  rw [length_take, length_drop]
  omega

theorem copyStep_take {w : Nat} (inside : dst ≤ out.length) (back : dist ≤ dst) (within : w ≤ dist) :
    (store out dst ((out.drop (dst - dist)).take w)).take (dst + w) = copyBack dist w (out.take dst) := by
  have width : (out.take dst).length = dst := by rw [length_take, min_eq_left inside]
  have stored := store_take inside ((out.drop (dst - dist)).take w)
  rw [source_length inside back within] at stored
  rw [stored, copyBack_within within (by omega), width, source_eq back within]

/-- A copy in steps no wider than its distance is a copy of single bytes. -/
theorem copySteps_spec {w : Nat} (within : w ≤ dist) (n : Nat) :
    ∀ (dst : Nat) (out : List UInt8), dst ≤ out.length → dist ≤ dst →
      (copySteps w dist n dst out).length = max out.length (dst + n * w) ∧
      (copySteps w dist n dst out).take (dst + n * w) = copyBack dist (n * w) (out.take dst) := by
  -- Each step leaves a buffer whose front is the copy so far.
  induction n with
  | zero =>
    intro dst out inside _
    simp only [copySteps, zero_mul, add_zero, copyBack]
    exact ⟨by omega, trivial⟩
  | succ n ih =>
    intro dst out inside back
    have reach := store_length inside ((out.drop (dst - dist)).take w)
    rw [source_length inside back within] at reach
    obtain ⟨length, front⟩ := ih (dst + w) (store out dst ((out.drop (dst - dist)).take w))
      (by omega) (by omega)
    have total : dst + w + n * w = dst + (n + 1) * w := by
      rw [succ_mul]
      omega
    rw [total] at length front
    refine ⟨?_, ?_⟩
    · rw [copySteps, length, reach]
      have grows : dst + w ≤ dst + (n + 1) * w := by omega
      omega
    · rw [copySteps, front, copyStep_take inside back within, ← copyBack_add, succ_mul,
        add_comm w]

theorem take_of_take {n m : Nat} {front : List UInt8} (inside : dst ≤ out.length) (shorter : n ≤ m)
    (copied : front.take (dst + m) = copyBack dist m (out.take dst)) :
    front.take (dst + n) = copyBack dist n (out.take dst) := by
  have width : (copyBack dist n (out.take dst)).length = dst + n := by
    rw [copyBack_length, length_take, min_eq_left inside]
  obtain ⟨rest, rfl⟩ := Nat.exists_eq_add_of_le shorter
  have part := congrArg (List.take (dst + n)) copied
  rw [take_take, min_eq_left (by omega), copyBack_add] at part
  rw [part, ← width]
  exact (prefix_iff_eq_take.mp (copyBack_extends dist rest _)).symm

theorem broadcast_eq (inside : dst ≤ out.length) (some : 0 < dist) (back : dist ≤ dst) :
    broadcast out dst dist = (List.range 16).map fun k =>
      (out.take dst).getD ((out.take dst).length - dist + k % dist) default := by
  have width : (out.take dst).length = dst := by rw [length_take, min_eq_left inside]
  apply map_congr_left
  intro k _
  have early : dst - dist + k % dist < dst := by
    have := mod_lt k some
    omega
  rw [width, getD_eq_getElem?_getD, getD_eq_getElem?_getD, getElem?_take, if_pos early]
  rfl

theorem patternSteps_spec {pattern history : List UInt8} {width : Nat} (some : 0 < dist)
    (back : dist ≤ history.length) (divides : dist ∣ width)
    (period : pattern = (List.range width).map fun k =>
      history.getD (history.length - dist + k % dist) default) (n : Nat) :
    ∀ (m : Nat) (out : List UInt8), history.length + m * width ≤ out.length →
      out.take (history.length + m * width) = copyBack dist (m * width) history →
      (patternSteps pattern n (history.length + m * width) out).length =
        max out.length (history.length + (m + n) * width) ∧
      (patternSteps pattern n (history.length + m * width) out).take
        (history.length + (m + n) * width) = copyBack dist ((m + n) * width) history := by
  have wide : pattern.length = width := by rw [period, length_map, length_range]
  induction n with
  | zero =>
    intro m out inside front
    simp only [patternSteps, add_zero]
    exact ⟨by omega, front⟩
  | succ n ih =>
    intro m out inside front
    have next : history.length + m * width + width = history.length + (m + 1) * width := by
      rw [succ_mul]
      omega
    have reach := store_length inside pattern
    have stored := store_take inside pattern
    rw [wide, next] at reach stored
    -- What stands before the next store is one block longer.
    rw [front, period, copyBack_block some back divides, ← period] at stored
    have after : m + 1 + n = m + (n + 1) := by omega
    obtain ⟨length, copied⟩ := ih (m + 1) (store out (history.length + m * width) pattern) (by omega) stored
    rw [after] at length copied
    rw [patternSteps, wide, next]
    refine ⟨?_, copied⟩
    rw [length, reach]
    have grows : (m + 1) * width ≤ (m + (n + 1)) * width := mul_le_mul_right _ (by omega)
    omega

/-- How far the fast copy stores, and that the match is in front of it. -/
theorem fastCopy_spec (inside : dst ≤ out.length) (some : 0 < dist) (back : dist ≤ dst) (length : Nat) :
    ∃ stored, length ≤ stored ∧ stored < length + 16 ∧
      (fastCopy out dst dist length).length = max out.length (dst + stored) ∧
      (fastCopy out dst dist length).take (dst + length) = copyBack dist length (out.take dst) := by
  -- Each shape stores whole steps, the last of which begins before the match's end.
  have width : (out.take dst).length = dst := by rw [length_take, min_eq_left inside]
  unfold fastCopy
  by_cases wide : 16 ≤ dist
  · obtain ⟨reach, copied⟩ := copySteps_spec wide ((length + 15) / 16) dst out inside back
    rw [if_pos wide]
    exact ⟨(length + 15) / 16 * 16, by omega, by omega, reach,
      take_of_take inside (by omega) copied⟩
  rw [if_neg wide]
  by_cases eight : 8 ≤ dist
  · obtain ⟨reach, copied⟩ := copySteps_spec eight ((length + 7) / 8) dst out inside back
    rw [if_pos eight]
    exact ⟨(length + 7) / 8 * 8, by omega, by omega, reach,
      take_of_take inside (by omega) copied⟩
  rw [if_neg eight]
  by_cases pattern : dist = 1 ∨ dist = 2 ∨ dist = 4
  · have divides : dist ∣ 16 := by
      obtain rfl | rfl | rfl := pattern <;> decide
    have steps := patternSteps_spec some (by omega) divides (broadcast_eq inside some back)
      ((length + 15) / 16) 0 out (by omega)
    simp only [width, zero_mul, add_zero, zero_add, copyBack, true_implies] at steps
    rw [if_pos pattern]
    exact ⟨(length + 15) / 16 * 16, by omega, by omega, steps.1,
      take_of_take inside (by omega) steps.2⟩
  rw [if_neg pattern]
  -- The first bytes are copied singly, and the rest eight at a time from whole periods back.
  obtain ⟨reach, copied⟩ := copySteps_spec (w := 1) some (if length < 16 then length else 16)
    dst out inside back
  rw [mul_one] at reach copied
  by_cases short : length < 16
  · rw [if_pos short] at reach copied
    simp only [if_pos short, if_neg (by omega : ¬16 < length)]
    exact ⟨length, by omega, by omega, reach, copied⟩
  rw [if_neg short] at reach copied
  simp only [if_neg short]
  by_cases exact : 16 < length
  · have periods : 8 ≤ dist * (16 / dist) ∧ dist * (16 / dist) ≤ 16 := by
      have small : dist < 8 := by omega
      interval_cases dist <;> simp at pattern ⊢
    obtain ⟨far, rest⟩ := copySteps_spec periods.1 ((length - 16 + 7) / 8) (dst + 16)
      (copySteps 1 dist 16 dst out) (by omega) (by omega)
    rw [copied, copyBack_multiple some (by omega) (div_pos (by omega) some) _ _ (by omega),
      add_assoc] at rest
    rw [if_pos exact]
    refine ⟨16 + (length - 16 + 7) / 8 * 8, by omega, by omega, ?_,
      take_of_take inside (by omega) rest⟩
    rw [far, reach]
    omega
  · have whole : length = 16 := by omega
    subst whole
    rw [if_neg exact]
    exact ⟨16, by omega, by omega, reach, copied⟩

theorem packed_eq (len mid hi : Nat) (short : len < 16) (small : mid < 4096) :
    len ||| mid <<< 4 ||| hi <<< 16 = len + 16 * mid + 65536 * hi := by
  have low : len ||| mid <<< 4 = mid <<< 4 + len := by rw [Nat.shiftLeft_add_eq_or_of_lt short, Nat.or_comm]
  have bound : mid <<< 4 + len < 2 ^ 16 := by
    rw [Nat.shiftLeft_eq]
    omega
  rw [low, Nat.or_comm, ← Nat.shiftLeft_add_eq_or_of_lt bound, Nat.shiftLeft_eq, Nat.shiftLeft_eq]
  omega

theorem flag_iff (e n : Nat) : e &&& 1 <<< n ≠ 0 ↔ e / 2 ^ n % 2 = 1 := by
  rw [one_shiftLeft, and_two_pow, testBit_eq_decide_div_mod_eq]
  by_cases set : e / 2 ^ n % 2 = 1 <;> simp [set]

theorem noFlag_iff (e n : Nat) : e &&& 1 <<< n = 0 ↔ e / 2 ^ n % 2 = 0 := by
  have set := flag_iff e n
  have digit := mod_two_eq_zero_or_one (e / 2 ^ n)
  rw [← not_iff_not, ← ne_eq, set]
  omega

theorem flag_packed (x hi : Nat) {n : Nat} (low : n ≤ 15) : (x + 65536 * hi) / 2 ^ n % 2 = x / 2 ^ n % 2 := by
  have power : 65536 * hi = 2 ^ n * (2 * (2 ^ (15 - n) * hi)) := by
    have whole : 2 ^ n * (2 * 2 ^ (15 - n)) = 65536 := by
      rw [← Nat.pow_succ', ← Nat.pow_add]
      have sum : n + (15 - n).succ = 16 := by omega
      rw [sum]
    rw [← whole]
    simp only [mul_assoc]
  rw [power, Nat.add_mul_div_left _ _ (Nat.two_pow_pos n), Nat.add_mul_mod_self_left]

theorem low_field (e : Nat) : e &&& 15 = e % 16 := and_two_pow_sub_one_eq_mod e 4

theorem total_field (e : Nat) : e >>> 4 &&& 31 = e / 16 % 32 := by
  rw [and_two_pow_sub_one_eq_mod (e >>> 4) 5, shiftRight_eq_div_pow]

theorem high_field (e : Nat) : e >>> 16 = e / 65536 := shiftRight_eq_div_pow e 16

theorem packed_fields (len mid hi : Nat) (short : len < 16) (small : mid < 4096) :
    (len + 16 * mid + 65536 * hi) % 16 = len ∧ (len + 16 * mid + 65536 * hi) / 16 % 32 = mid % 32 ∧
      (len + 16 * mid + 65536 * hi) / 65536 = hi := by
  refine ⟨by omega, by omega, by omega⟩

variable {len : Nat}

theorem fastEntry_fields (sym : Nat) (short : len ≤ 11) :
    (sym <<< 4 ||| len) >>> 4 = sym ∧ (sym <<< 4 ||| len) &&& 15 = len := by
  have apart : sym <<< 4 ||| len = sym * 16 + len := by
    rw [← Nat.shiftLeft_add_eq_or_of_lt (by omega), Nat.shiftLeft_eq]
  rw [low_field, shiftRight_eq_div_pow, apart]
  omega

variable {sym : Nat}

theorem fastEntry_ne_zero (some : 1 ≤ len) (short : len ≤ 11) : sym <<< 4 ||| len ≠ 0 := by
  intro zero
  have fields := fastEntry_fields sym short
  rw [zero, zero_and] at fields
  omega

theorem packLen_literal (some : 1 ≤ len) (short : len ≤ 11) (small : sym < 256) :
    packLen (sym <<< 4 ||| len) = len + 16 * 32 + 65536 * sym := by
  obtain ⟨high, low⟩ := fastEntry_fields sym short
  rw [packLen, if_neg (fastEntry_ne_zero some short)]
  simp only [high, low, if_pos small]
  exact packed_eq _ _ _ (by omega) (by decide)

theorem packLen_eob (some : 1 ≤ len) (short : len ≤ 11) : packLen (256 <<< 4 ||| len) = len + 16 * 64 := by
  obtain ⟨high, low⟩ := fastEntry_fields 256 short
  rw [packLen, if_neg (fastEntry_ne_zero some short)]
  simp only [high, low, lt_irrefl, if_false, if_true]
  have packed := packed_eq len 64 0 (by omega) (by decide)
  rwa [zero_shiftLeft, or_zero] at packed

theorem lenExtra_le (sym : Nat) : rinfLenExtra.getD sym 0 ≤ 5 := by
  have listed : ∀ sym < 29, rinfLenExtra.getD sym 0 ≤ 5 := by decide
  by_cases isLength : sym < 29
  · exact listed sym isLength
  · rw [getD_eq_default _ _ (by show 29 ≤ sym; omega)]
    decide

theorem packLen_length (some : 1 ≤ len) (short : len ≤ 11) (isLength : sym < 29) :
    packLen ((sym + 257) <<< 4 ||| len) =
      len + 16 * (len + rinfLenExtra.getD sym 0) + 65536 * rinfLenBase.getD sym 0 := by
  obtain ⟨high, low⟩ := fastEntry_fields (sym + 257) short
  have few := lenExtra_le sym
  rw [packLen, if_neg (fastEntry_ne_zero some short)]
  simp only [high, low, Nat.add_sub_cancel, if_pos isLength,
    if_neg (by omega : ¬sym + 257 < 256), if_neg (by omega : ¬sym + 257 = 256)]
  exact packed_eq _ _ _ (by omega) (by omega)

theorem packLen_bad (some : 1 ≤ len) (short : len ≤ 11) (high : 286 ≤ sym) :
    packLen (sym <<< 4 ||| len) = len + 16 * 128 := by
  obtain ⟨top, low⟩ := fastEntry_fields sym short
  rw [packLen, if_neg (fastEntry_ne_zero some short)]
  simp only [top, low, if_neg (by omega : ¬sym < 256), if_neg (by omega : ¬sym = 256),
    if_neg (by omega : ¬sym - 257 < 29)]
  have packed := packed_eq len 128 0 (by omega) (by decide)
  rwa [zero_shiftLeft, or_zero] at packed

theorem distExtra_le (sym : Nat) : rinfDistExtra.getD sym 0 ≤ 13 := by
  have listed : ∀ sym < 30, rinfDistExtra.getD sym 0 ≤ 13 := by decide
  by_cases isDist : sym < 30
  · exact listed sym isDist
  · rw [getD_eq_default _ _ (by show 30 ≤ sym; omega)]
    decide

theorem packDist_dist (some : 1 ≤ len) (short : len ≤ 11) (isDist : sym < 30) : packDist (sym <<< 4 ||| len) =
      len + 16 * (len + rinfDistExtra.getD sym 0) + 65536 * rinfDistBase.getD sym 0 := by
  obtain ⟨high, low⟩ := fastEntry_fields sym short
  have few := distExtra_le sym
  rw [packDist, if_neg (fastEntry_ne_zero some short)]
  simp only [high, low, if_pos isDist]
  exact packed_eq _ _ _ (by omega) (by omega)

theorem packDist_bad (some : 1 ≤ len) (short : len ≤ 11) (high : 30 ≤ sym) :
    packDist (sym <<< 4 ||| len) = len + 16 * 128 := by
  obtain ⟨top, low⟩ := fastEntry_fields sym short
  rw [packDist, if_neg (fastEntry_ne_zero some short)]
  simp only [top, low, if_neg (by omega : ¬sym < 30)]
  have packed := packed_eq len 128 0 (by omega) (by decide)
  rwa [zero_shiftLeft, or_zero] at packed

/-- What an entry of the literal and length table says. -/
inductive LenEntry : Nat → Prop
  | none : LenEntry 0
  | literal {sym len : Nat} (some : 1 ≤ len) (short : len ≤ 11) (small : sym < 256) :
      LenEntry (len + 16 * 32 + 65536 * sym)
  | eob {len : Nat} (some : 1 ≤ len) (short : len ≤ 11) : LenEntry (len + 16 * 64)
  | length {sym len : Nat} (short : len ≤ 11) (isLength : sym < 29) :
      LenEntry (len + 16 * (len + rinfLenExtra.getD sym 0) + 65536 * rinfLenBase.getD sym 0)
  | bad {len : Nat} (some : 1 ≤ len) (short : len ≤ 11) : LenEntry (len + 16 * 128)

/-- What an entry of the distance table says. -/
inductive DistEntry : Nat → Prop
  | none : DistEntry 0
  | dist {sym len : Nat} (some : 1 ≤ len) (short : len ≤ 11) (isDist : sym < 30) :
      DistEntry (len + 16 * (len + rinfDistExtra.getD sym 0) + 65536 * rinfDistBase.getD sym 0)
  | bad {len : Nat} (some : 1 ≤ len) (short : len ≤ 11) : DistEntry (len + 16 * 128)

/-- A ring that holds the last bytes of a history, the newest in front of its next position. -/
structure Ring (window : Nat → UInt8) (wnext whave : Nat) (history : List UInt8) : Prop where
  next : wnext < 32768
  held : whave = min 32768 history.length
  bytes : ∀ j, 1 ≤ j → j ≤ whave → window ((wnext + 32768 - j) % 32768) = history.getD (history.length - j) 0

/-- Bytes put into the ring, in two parts when they run over its end. -/
def putRing (window : Nat → UInt8) (wnext : Nat) (src : List UInt8) : Nat → UInt8 :=
  let first := min src.length (32768 - wnext)
  let window := putWindow window wnext (src.take first)
  if first < src.length then putWindow window 0 (src.drop first) else window

theorem putRing_get {window : Nat → UInt8} {wnext : Nat} {src : List UInt8}
    (next : wnext < 32768) (fits : src.length ≤ 32768) {i : Nat} (inside : i < 32768) :
    putRing window wnext src i = if (i + 32768 - wnext) % 32768 < src.length then
        src.getD ((i + 32768 - wnext) % 32768) 0
      else window i := by
  have width : (src.take (min src.length (32768 - wnext))).length = min src.length (32768 - wnext) := by
    rw [length_take]
    omega
  have left : ∀ k, k < min src.length (32768 - wnext) →
      (src.take (min src.length (32768 - wnext))).getD k 0 = src.getD k 0 := by
    intro k early
    rw [getD_eq_getElem?_getD, getD_eq_getElem?_getD, getElem?_take, if_pos early]
  have right : ∀ k, (src.drop (min src.length (32768 - wnext))).getD k 0 =
      src.getD (min src.length (32768 - wnext) + k) 0 := by
    intro k
    rw [getD_eq_getElem?_getD, getD_eq_getElem?_getD, getElem?_drop]
  simp only [putRing]
  by_cases wraps : min src.length (32768 - wnext) < src.length
  · rw [if_pos wraps]
    simp only [putWindow, width, length_drop]
    by_cases behind : wnext ≤ i
    · -- At or behind the next position, only the first part stores.
      have place : (i + 32768 - wnext) % 32768 = i - wnext := by omega
      rw [place, if_neg (by omega), if_pos ⟨behind, by omega⟩, if_pos (by omega),
        left _ (by omega)]
    · -- In front of it, only what runs over the end stores.
      have place : (i + 32768 - wnext) % 32768 = i + 32768 - wnext := by omega
      rw [place]
      by_cases early : i + 32768 - wnext < src.length
      · rw [if_pos ⟨by omega, by omega⟩, if_pos early, right]
        congr 1
        omega
      · rw [if_neg (by omega), if_neg early, if_neg (by omega)]
  · rw [if_neg wraps]
    simp only [putWindow, width]
    by_cases hit : wnext ≤ i ∧ i < wnext + src.length
    · have place : (i + 32768 - wnext) % 32768 = i - wnext := by omega
      rw [place, if_pos (by omega), if_pos (by omega), left _ (by omega)]
    · rw [if_neg (by omega), if_neg (by omega)]

/-- Putting the newest bytes into the ring keeps it the ring of the longer history. -/
theorem Ring.put {window : Nat → UInt8} {wnext whave : Nat} {history longer src : List UInt8}
    (ring : Ring window wnext whave history) (fits : src.length ≤ 32768)
    (newest : ∃ front, longer = front ++ src ∧ (front = history ∨ src.length = 32768)) :
    Ring (putRing window wnext src) ((wnext + src.length) % 32768)
      (min (whave + src.length) 32768) longer := by
  obtain ⟨front, rfl, source⟩ := newest
  have next := ring.next
  have held := ring.held
  have total : min (whave + src.length) 32768 = min 32768 (front ++ src).length := by
    rw [length_append]
    rcases source with rfl | full <;> omega
  refine ⟨mod_lt _ (by decide), total, ?_⟩
  intro j least most
  rw [putRing_get next fits (mod_lt _ (by decide))]
  by_cases fresh : j ≤ src.length
  · -- The newest bytes were just put.
    have place : (((wnext + src.length) % 32768 + 32768 - j) % 32768 + 32768 - wnext) % 32768 =
        src.length - j := by omega
    rw [place, if_pos (by omega), getD_append_right _ _ _ _ (by rw [length_append]; omega)]
    congr 1
    rw [length_append]
    omega
  · -- The others were there before, as many places further from the next position.
    have full : src.length ≠ 32768 := by omega
    have same := source.resolve_right full
    subst same
    have place : ¬(((wnext + src.length) % 32768 + 32768 - j) % 32768 + 32768 - wnext) % 32768 <
        src.length := by omega
    have before := ring.bytes (j - src.length) (by omega) (by omega)
    have index : ((wnext + src.length) % 32768 + 32768 - j) % 32768 =
        (wnext + 32768 - (j - src.length)) % 32768 := by omega
    rw [if_neg place, index, before, getD_append _ _ _ _ (by rw [length_append]; omega)]
    congr 1
    rw [length_append]
    omega

/--
A history in front of a bound buffer: what was produced before, and how much of the buffer's output
is in the ring.
-/
structure HistoryParts (out : List UInt8) (outPos : Nat) (window : Nat → UInt8)
    (wnext whave wcur wprior : Nat) (prior : List UInt8) (committed : Nat) : Prop where
  inside : outPos ≤ out.length
  before : committed ≤ outPos
  ring : Ring window wnext whave (prior ++ out.take committed)
  current : wcur = committed % 2 ^ 32
  earlier : wprior = if wcur < whave then whave - wcur else 0

/-- The decoder's history. -/
abbrev History (s : State) (prior : List UInt8) (committed : Nat) : Prop :=
  HistoryParts s.out s.outPos s.window s.wnext s.whave s.wcur s.wprior prior committed

variable {s : State} {prior : List UInt8} {committed : Nat}

/-- The produced output. -/
def State.produced (s : State) (prior : List UInt8) : List UInt8 := prior ++ s.out.take s.outPos

variable (history : History s prior committed)
include history

theorem History.length : (s.produced prior).length = prior.length + s.outPos := by
  rw [State.produced, length_append, length_take, min_eq_left history.inside]

theorem History.held : s.whave = min 32768 (prior.length + committed) := by
  have inside := history.inside
  have before := history.before
  rw [history.ring.held, length_append, length_take]
  omega

theorem History.reach {dist : Nat} (near : dist ≤ 32768) :
    s.outPos + s.wprior < dist ↔ prior.length + s.outPos < dist := by
  have held := history.held
  have before := history.before
  have wcur := history.current
  rw [history.earlier]
  split <;> omega

/-- A byte a distance back is that of the produced output. -/
theorem History.back {dist : Nat} (near : dist ≤ 32768)
    (some : 0 < dist) (reached : dist ≤ prior.length + s.outPos) :
    rinfBack s dist = (s.produced prior).getD ((s.produced prior).length - dist) 0 := by
  have inside := history.inside
  have before := history.before
  rw [history.length, State.produced, rinfBack]
  by_cases early : s.outPos < dist
  · -- The byte is in the ring, in front of the buffer.
    have wcur : s.wcur = committed := by rw [history.current, mod_eq_of_lt (by omega)]
    have held := history.held
    have next := history.ring.next
    have back : (dist + 2 ^ 32 - s.outPos % 2 ^ 32 + s.wcur) % 2 ^ 32 = dist - s.outPos + committed := by
      rw [wcur]
      omega
    have index : (s.wnext + 32768 + 2 ^ 32 - (dist - s.outPos + committed)) % 2 ^ 32 &&& 32767 =
        (s.wnext + 32768 - (dist - s.outPos + committed)) % 32768 := by
      rw [and_two_pow_sub_one_eq_mod _ 15]
      omega
    have length : (prior ++ s.out.take committed).length = prior.length + committed := by
      rw [length_append, length_take, min_eq_left (by omega)]
    rw [if_pos early]
    simp only [back, index]
    rw [history.ring.bytes _ (by omega) (by omega), length,
      getD_append _ _ _ _ (by omega), getD_append _ _ _ _ (by omega)]
    congr 1
    omega
  · rw [if_neg early, getD_append_right _ _ _ _ (by omega), getD_eq_getElem?_getD,
      getD_eq_getElem?_getD, getElem?_take, if_pos (by omega)]
    congr 2
    omega

theorem History.newest : ∃ front, s.produced prior = front ++ ((s.out.take s.outPos).drop s.wcur).drop
          (((s.out.take s.outPos).drop s.wcur).length - 32768) ∧
      (front = prior ++ s.out.take committed ∨ (((s.out.take s.outPos).drop s.wcur).drop
          (((s.out.take s.outPos).drop s.wcur).length - 32768)).length = 32768) := by
  have inside := history.inside
  have before := history.before
  have wcur := history.current
  have width : (s.out.take s.outPos).length = s.outPos := by rw [length_take, min_eq_left inside]
  rw [List.drop_drop]
  simp only [length_drop, width]
  refine ⟨prior ++ (s.out.take s.outPos).take (s.wcur + (s.outPos - s.wcur - 32768)), ?_, ?_⟩
  · rw [State.produced, List.append_assoc, take_append_drop]
  · -- Either nothing was left out, or the whole ring is stored anew.
    by_cases few : s.outPos - s.wcur ≤ 32768
    · left
      have start : s.wcur + (s.outPos - s.wcur - 32768) = committed := by omega
      rw [start, take_take, min_eq_left before]
    · right
      omega

omit history

theorem commit_next {wnext n : Nat} (next : wnext < 32768) (fits : n ≤ 32768) :
    (if min n (32768 - wnext) < n then n - min n (32768 - wnext)
      else if wnext + min n (32768 - wnext) = 32768 then 0
      else wnext + min n (32768 - wnext)) = (wnext + n) % 32768 := by
  split
  · omega
  · split <;> omega

include history

/-- Committing puts all produced output into the ring. -/
theorem History.commit : History (rinfWindowCommit s) prior s.outPos := by
  have inside := history.inside
  have before := history.before
  have wcur := history.current
  have width : (s.out.take s.outPos).length = s.outPos := by rw [length_take, min_eq_left inside]
  unfold rinfWindowCommit
  by_cases nothing : ((s.out.take s.outPos).drop s.wcur).length = 0
  · have all : committed = s.outPos := by
      rw [length_drop, width] at nothing
      omega
    simp only [nothing, if_true]
    exact all ▸ history
  · simp only [nothing, if_false]
    have newest := history.newest
    have fits : (((s.out.take s.outPos).drop s.wcur).drop
        (((s.out.take s.outPos).drop s.wcur).length - 32768)).length ≤ 32768 := by
      rw [length_drop]
      omega
    generalize ((s.out.take s.outPos).drop s.wcur).drop
      (((s.out.take s.outPos).drop s.wcur).length - 32768) = src at newest fits ⊢
    have ring := history.ring.put fits newest
    refine ⟨inside, le_refl _, ?_, rfl, rfl⟩
    dsimp only
    rw [commit_next history.ring.next fits]
    exact ring

omit history

theorem History.setOut (history : History s prior s.outPos) (size : Nat) :
    History (rinflateSetOut s size) (s.produced prior) 0 := by
  refine ⟨zero_le _, zero_le _, ?_, rfl, ?_⟩
  · show Ring s.window s.wnext s.whave (s.produced prior ++ [].take 0)
    rw [take_nil, append_nil]
    exact history.ring
  · show s.whave = if 0 < s.whave then s.whave - 0 else 0
    split <;> omega

include history

theorem History.extendOut (size : Nat) : History (rinflateExtendOut s size) prior committed ∧
      (rinflateExtendOut s size).produced prior = s.produced prior := by
  unfold rinflateExtendOut
  split
  · have inside := history.inside
    have before := history.before
    refine ⟨⟨?_, before, ?_, history.current, history.earlier⟩, ?_⟩
    · show s.outPos ≤ (s.out.take s.outPos).length
      rw [length_take, min_eq_left inside]
    · show Ring s.window s.wnext s.whave (prior ++ (s.out.take s.outPos).take committed)
      rw [take_take, min_eq_left before]
      exact history.ring
    · show prior ++ (s.out.take s.outPos).take s.outPos = prior ++ s.out.take s.outPos
      rw [take_take, min_self]
  · exact ⟨history, rfl⟩

omit history

theorem rinflateNew_history (windowBits : Int) : History (rinflateNew windowBits) [] 0 :=
  ⟨le_refl _, le_refl _, ⟨(by decide : 0 < 32768), rfl, fun j least most => by
    have none : j ≤ 0 := most
    omega⟩, rfl, rfl⟩

theorem putWindow_ring (window : Nat → UInt8) {recent : List UInt8} (short : recent.length ≤ 32768) :
    Ring (putWindow window 0 recent) (recent.length &&& 32767) recent.length recent := by
  have next : recent.length &&& 32767 = recent.length % 32768 := and_two_pow_sub_one_eq_mod _ 15
  rw [next]
  refine ⟨mod_lt _ (by decide), by omega, fun j least most => ?_⟩
  have place : (recent.length % 32768 + 32768 - j) % 32768 = recent.length - j := by omega
  rw [place, putWindow, if_pos (by omega), Nat.sub_zero]

theorem rinflateSetDictionary_history (unused : s.outPos = 0) (dict : List UInt8) :
    History (rinflateSetDictionary s dict) (dict.drop (dict.length - 32768)) 0 := by
  have short : (dict.drop (dict.length - 32768)).length ≤ 32768 := by
    rw [length_drop]
    omega
  unfold rinflateSetDictionary
  dsimp only
  generalize dict.drop (dict.length - 32768) = recent at short ⊢
  refine ⟨?_, zero_le _, ?_, rfl, ?_⟩
  · show s.outPos ≤ s.out.length
    omega
  · rw [take_zero, append_nil]
    exact putWindow_ring s.window short
  · show recent.length = if 0 < recent.length then recent.length - 0 else 0
    split <;> omega

end Libretro.Inflate
