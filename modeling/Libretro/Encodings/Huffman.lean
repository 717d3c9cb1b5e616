import Libretro.Library.MsbBits
import Mathlib.Data.List.Basic

/-! The canonical Huffman decoder: its bit reader in any order of calls, its table and its symbols. -/

namespace Libretro.Huffman

open List

/-- Bits are read from a buffer, the highest of each byte first. -/
structure Bits where
  data : List UInt8
  offset : Nat := 0
  used : Nat := 0
  -- The cache is a word of 32 bits whose highest bit is next.
  cache : Nat := 0
  bits : Nat := 0
  overflow : Bool := false
deriving DecidableEq

/-- Bits held in the cache before a refill stops. -/
def cacheMin : Nat := 24

/-- A reader at the start of a buffer. -/
def rhuffBitsInit (data : List UInt8) : Bits := { data := data }

/-- A byte goes under the bits that the cache holds; past the end it is a zero. -/
def fillByte (b : Bits) : Bits :=
  { b with
    cache := if b.offset < b.data.length
      then b.cache ||| (b.data.getD b.offset 0).toNat <<< (cacheMin - b.bits) else b.cache
    offset := b.offset + 1
    bits := b.bits + 8 }

/-- Bytes are pulled in while the cache has room for one; four fill it. -/
def fillLoop : Nat → Bits → Bits
  | 0, b => b
  | n + 1, b => if b.bits ≤ cacheMin then fillLoop n (fillByte b) else b

/-- The cache holds more than a peek can ask for. -/
def rhuffBitsFill (b : Bits) : Bits := fillLoop 4 b

/-- The cache holds as many bits as are asked for. -/
def Bits.filled (b : Bits) (numbits : Nat) : Bits := if b.bits < numbits then rhuffBitsFill b else b

/-- The next bits, which stay unread. -/
def rhuffBitsPeek (b : Bits) (numbits : Nat) : Nat × Bits :=
  if numbits = 0 then (0, b)
  else
    let n := min numbits cacheMin
    let b := b.filled n
    (b.cache >>> (32 - n), b)

/-- The next bits are consumed. -/
def rhuffBitsRemove (b : Bits) (numbits : Nat) : Bits :=
  if numbits = 0 then b
  else
    let n := min numbits cacheMin
    let b := b.filled n
    let used := b.used + n
    { b with
      cache := b.cache <<< n % 2 ^ 32
      bits := b.bits - n
      used := used
      overflow := b.overflow || b.data.length * 8 < used }

/-- The largest alphabet. -/
def maxCodes : Nat := 2048

/-- The longest code. -/
def maxBitsLimit : Nat := 16

/-- Bits of a table entry that hold a length. -/
def lookupLenBits : Nat := 5

/-- A decoder as its initialisation leaves it: the lengths of an alphabet and a table to fill. -/
structure Dec where
  lookup : List Nat
  maxBits : Nat
  lengths : List UInt8
  codes : 0 < lengths.length ∧ lengths.length ≤ maxCodes
  bits : 0 < maxBits ∧ maxBits ≤ maxBitsLimit
  room : 2 ^ maxBits ≤ lookup.length

/-- A decoder is initialised within the limits of its alphabet, its codes and its table. -/
def rhuffDecInit (numCodes maxBits : Nat) (lookup : List Nat) : Option Dec :=
  if codes : 0 < numCodes ∧ numCodes ≤ maxCodes then
    if bits : 0 < maxBits ∧ maxBits ≤ maxBitsLimit then
      if room : 2 ^ maxBits ≤ lookup.length then
        some {
          lookup := lookup
          maxBits := maxBits
          lengths := List.replicate numCodes 0
          codes := by rwa [List.length_replicate]
          bits := bits
          room := room }
      else none
    else none
  else none

/-- What a build returns. -/
inductive Status where
  | ok | errorData
deriving DecidableEq

/-- The code lengths as numbers. -/
def Dec.lens (d : Dec) : List Nat := d.lengths.map UInt8.toNat

/-- How many codes there are of each length, unless one is too long. -/
def countLengths (maxBits : Nat) : List Nat → List Nat → Option (List Nat)
  | [], histo => some histo
  | len :: rest, histo => if maxBits < len then none else countLengths maxBits rest (histo.modify len (· + 1))

/-- The first code of each length, from the longest down, in place of the count of that length. -/
def firstCodes : Nat → Nat → List Nat → Option (List Nat)
  | 0, _, histo => some histo
  | len + 1, curstart, histo =>
    let total := curstart + histo.getD (len + 1) 0
    -- An odd total cannot be halved, except at the last length.
    if len + 1 ≠ 1 ∧ total % 2 ≠ 0 then none
    else firstCodes len (total / 2) (histo.set (len + 1) curstart)

/-- Each symbol takes the next code of its length. -/
def assignCodes : List Nat → List Nat → List Nat
  | [], _ => []
  | len :: rest, histo =>
    if len = 0 then 0 :: assignCodes rest histo
    else histo.getD len 0 % 2 ^ 16 :: assignCodes rest (histo.modify len (· + 1))

/-- How many entries the codes claim, up to the size of the table. -/
def coveredEntries (maxBits entries : Nat) : List Nat → Nat → Nat
  | [], covered => covered
  | len :: rest, covered =>
    if len = 0 then coveredEntries maxBits entries rest covered
    else
      let covered := covered + 1 <<< (maxBits - len)
      if entries ≤ covered then covered else coveredEntries maxBits entries rest covered

/-- Entries of the table get one value. -/
def fillRun (table : List Nat) (dest : Nat) : Nat → Nat → List Nat
  | 0, _ => table
  | count + 1, value => fillRun (table.set dest value) (dest + 1) count value

/-- What an entry holds: a symbol over the length of its code. -/
def entry (i len : Nat) : Nat := (i <<< lookupLenBits ||| len) % 2 ^ 16

/-- Every code fills its entries, as long as they are inside the table. -/
def fillTable (maxBits : Nat) : Nat → List (Nat × Nat) → List Nat → List Nat × Status
  | _, [], table => (table, .ok)
  | i, (len, code) :: rest, table =>
    if len = 0 then fillTable maxBits (i + 1) rest table
    else
      let shift := maxBits - len
      let dest := code <<< shift % 2 ^ 32
      let count := 1 <<< shift
      if table.length < dest + count then (table, .errorData)
      else fillTable maxBits (i + 1) rest (fillRun table dest count (entry i len))

/-- The codes of the symbols, unless the lengths do not make a tree. -/
def Dec.assigned (d : Dec) : Option (List Nat) := do
  let histo ← countLengths d.maxBits d.lens (List.replicate (maxBitsLimit + 1) 0)
  let histo ← firstCodes d.maxBits 0 histo
  return assignCodes d.lens histo

/-- The table before it is filled, cleared unless the codes claim every entry. -/
def Dec.cleared (d : Dec) : List Nat :=
  if coveredEntries d.maxBits d.lookup.length d.lens 0 < d.lookup.length
  then List.replicate d.lookup.length 0 else d.lookup

/-- The table that a build leaves and whether it succeeded. -/
def Dec.table (d : Dec) : List Nat × Status :=
  match d.assigned with
  | none => (d.lookup, .errorData)
  | some codes => fillTable d.maxBits 0 (d.lens.zip codes) d.cleared

@[simp] theorem length_fillRun (table : List Nat) (dest count value : Nat) :
    (fillRun table dest count value).length = table.length := by
  induction count generalizing table dest with
  | zero => rfl
  | succ count ih => rw [fillRun, ih, length_set]

@[simp] theorem length_fillTable (maxBits i : Nat) (codes : List (Nat × Nat)) (table : List Nat) :
    (fillTable maxBits i codes table).1.length = table.length := by
  induction codes generalizing i table with
  | nil => rfl
  | cons head rest ih =>
    obtain ⟨len, code⟩ := head
    simp only [fillTable]
    split_ifs
    · exact ih _ _
    · rfl
    · rw [ih, length_fillRun]

theorem Dec.length_table (d : Dec) : d.table.1.length = d.lookup.length := by
  rw [Dec.table]
  split
  · rfl
  · rw [length_fillTable, Dec.cleared]
    split
    · exact length_replicate
    · rfl

/-- The table is built from the code lengths. -/
def rhuffDecBuild (d : Dec) : Dec × Status :=
  ({ d with lookup := d.table.1, room := d.length_table ▸ d.room }, d.table.2)

/-- One symbol is read, or one bit is skipped where the tree has no code. -/
def rhuffDecDecodeOne (d : Dec) (b : Bits) : Nat × Bits :=
  let (peeked, b) := rhuffBitsPeek b d.maxBits
  let value := d.lookup.getD peeked 0
  let length := value % 2 ^ lookupLenBits
  if length = 0 then (0, rhuffBitsRemove { b with overflow := true } 1)
  else (value >>> lookupLenBits, rhuffBitsRemove b length)

/-- Symbols are read one after another. -/
def decodeSymbols (d : Dec) : Nat → Bits → List Nat × Bits
  | 0, b => ([], b)
  | n + 1, b =>
    let (sym, b) := rhuffDecDecodeOne d b
    let (syms, b) := decodeSymbols d n b
    (sym :: syms, b)

open MsbBits Nat

/-- A reader that stands at a bit of its buffer: the cache is the window from there, left-aligned. -/
structure Bits.Stands (b : Bits) (place : Nat) : Prop where
  ahead : 8 * b.offset = place + b.bits
  room : b.bits ≤ 32
  cache : b.cache = window b.data place b.bits * 2 ^ (32 - b.bits)

section Reader

variable {b : Bits} {place : Nat}

theorem rhuffBitsInit_stands (data : List UInt8) : (rhuffBitsInit data).Stands 0 :=
  ⟨rfl, zero_le _, by simp [rhuffBitsInit, window]⟩

variable (stands : b.Stands place)
include stands

theorem fillByte_stands (room : b.bits ≤ cacheMin) : (fillByte b).Stands place := by
  have room : b.bits ≤ 24 := room
  refine ⟨?_, ?_, ?_⟩
  · have := stands.ahead
    simp only [fillByte]
    omega
  · simp only [fillByte]
    omega
  · have next : window b.data (place + b.bits) 8 = (b.data.getD b.offset 0).toNat := by
      rw [← stands.ahead, window_byte]
    have wider : 2 ^ (32 - b.bits) = 2 ^ 8 * 2 ^ (24 - b.bits) := by
      rw [← pow_add]
      congr 1
      omega
    have same : 32 - (b.bits + 8) = 24 - b.bits := by omega
    -- The byte takes eight of the bits below the window, which are zero.
    have joined : b.cache ||| (b.data.getD b.offset 0).toNat <<< (24 - b.bits) =
        window b.data place (b.bits + 8) * 2 ^ (32 - (b.bits + 8)) := by
      have small : (b.data.getD b.offset 0).toNat <<< (24 - b.bits) < 2 ^ (32 - b.bits) := by
        rw [wider, shiftLeft_eq]
        exact Nat.mul_lt_mul_of_pos_right (UInt8.toNat_lt _) (Nat.two_pow_pos _)
      rw [stands.cache, ← shiftLeft_eq, ← shiftLeft_add_eq_or_of_lt small, shiftLeft_eq,
        shiftLeft_eq, window_add, next, same, wider, add_mul, mul_assoc]
    simp only [fillByte, cacheMin]
    split
    · exact joined
    · rename_i outside
      have zero : (b.data.getD b.offset 0).toNat = 0 := by
        rw [getD_eq_getElem?_getD, getElem?_eq_none (Nat.le_of_not_lt outside)]
        rfl
      rw [zero, zero_shiftLeft, or_zero] at joined
      exact joined

theorem fillLoop_stands {n : Nat} (enough : 25 ≤ b.bits + 8 * n) :
    (fillLoop n b).Stands place ∧ 25 ≤ (fillLoop n b).bits ∧ (fillLoop n b).data = b.data ∧
      (fillLoop n b).used = b.used ∧ (fillLoop n b).overflow = b.overflow := by
  induction n generalizing b with
  | zero => exact ⟨stands, enough, rfl, rfl, rfl⟩
  | succ n ih =>
    rw [fillLoop]
    split
    · rename_i room
      exact ih (fillByte_stands stands room) (by simp only [fillByte]; omega)
    · rename_i full
      simp only [cacheMin] at full
      exact ⟨stands, by omega, rfl, rfl, rfl⟩

theorem Bits.filled_stands {n : Nat} (small : n ≤ 24) :
    (b.filled n).Stands place ∧ n ≤ (b.filled n).bits ∧ (b.filled n).data = b.data ∧
      (b.filled n).used = b.used ∧ (b.filled n).overflow = b.overflow := by
  rw [Bits.filled]
  split
  · obtain ⟨stands, full, rest⟩ := fillLoop_stands (n := 4) stands (by omega)
    exact ⟨stands, le_trans small (le_of_succ_le full), rest⟩
  · exact ⟨stands, by omega, rfl, rfl, rfl⟩

/-- A peek gives the window that follows and leaves the reader where it stands. -/
theorem rhuffBitsPeek_stands {n : Nat} (positive : 0 < n) (small : n ≤ 24) :
    (rhuffBitsPeek b n).1 = window b.data place n ∧ (rhuffBitsPeek b n).2.Stands place ∧
      (rhuffBitsPeek b n).2.data = b.data ∧ (rhuffBitsPeek b n).2.used = b.used ∧
      (rhuffBitsPeek b n).2.overflow = b.overflow := by
  obtain ⟨after, enough, data, used, overflow⟩ := Bits.filled_stands stands small
  have width : min n cacheMin = n := min_eq_left small
  rw [rhuffBitsPeek, if_neg (by omega)]
  simp only [width]
  refine ⟨?_, after, data, used, overflow⟩
  have room := after.room
  have split : (b.filled n).bits = n + ((b.filled n).bits - n) := by omega
  have low := @window_lt b.data (place + n) ((b.filled n).bits - n)
  have widths : 2 ^ (32 - n) = 2 ^ ((b.filled n).bits - n) * 2 ^ (32 - (b.filled n).bits) := by
    rw [← pow_add]
    congr 1
    omega
  rw [after.cache, data, shiftRight_eq_div_pow, widths,
    Nat.mul_div_mul_right _ _ (Nat.two_pow_pos _), split, window_add, ← split,
    mul_comm, mul_add_div (Nat.two_pow_pos _), div_eq_of_lt low, add_zero]

/-- Removing bits moves the reader past them. -/
theorem rhuffBitsRemove_stands {n : Nat} (small : n ≤ 24) :
    (rhuffBitsRemove b n).Stands (place + n) ∧ (rhuffBitsRemove b n).data = b.data ∧
      (rhuffBitsRemove b n).used = b.used + n := by
  rw [rhuffBitsRemove]
  split
  · rename_i none
    subst none
    exact ⟨stands, rfl, rfl⟩
  · obtain ⟨after, enough, data, used, _⟩ := Bits.filled_stands stands small
    have width : min n cacheMin = n := min_eq_left small
    have room := after.room
    have ahead := after.ahead
    simp only [width]
    refine ⟨⟨?_, ?_, ?_⟩, data, by rw [used]⟩
    · simp only
      omega
    · simp only
      omega
    · -- The bits before the new place leave the word at its top.
      have split : (b.filled n).bits = n + ((b.filled n).bits - n) := by omega
      have top : 2 ^ (32 - (b.filled n).bits) * 2 ^ n = 2 ^ (32 - ((b.filled n).bits - n)) := by
        rw [← pow_add]
        congr 1
        omega
      have whole : 2 ^ ((b.filled n).bits - n) * 2 ^ (32 - ((b.filled n).bits - n)) = 2 ^ 32 := by
        rw [← pow_add]
        congr 1
        omega
      have low := @window_lt b.data (place + n) ((b.filled n).bits - n)
      have inside : window b.data (place + n) ((b.filled n).bits - n) *
          2 ^ (32 - ((b.filled n).bits - n)) < 2 ^ 32 := by
        rw [← whole]
        exact Nat.mul_lt_mul_of_pos_right low (Nat.two_pow_pos _)
      simp only [data]
      rw [after.cache, data, shiftLeft_eq, mul_assoc, top]
      conv_lhs => rw [split, window_add]
      rw [← split, add_mul, mul_assoc, whole, mul_comm _ (2 ^ 32), mul_add_mod, mod_eq_of_lt inside]

end Reader

open MsbBits Nat

/-- The next bits are given and consumed. -/
def rhuffBitsRead (b : Bits) (numbits : Nat) : Nat × Bits :=
  let (value, b) := rhuffBitsPeek b numbits
  (value, rhuffBitsRemove b numbits)

/-- Whole bytes are given back while the cache holds any. -/
def unfillLoop : Nat → Bits → Bits
  | 0, b => b
  | n + 1, b =>
    if 8 ≤ b.bits ∧ 0 < b.offset then
      unfillLoop n { b with offset := b.offset - 1, bits := b.bits - 8 }
    else b

/-- The byte that is partly consumed and the bytes in the cache are discarded, and the reader is
positioned at the next byte, or at the end. -/
def rhuffBitsFlush (b : Bits) : Nat × Bits :=
  let b := unfillLoop b.bits b
  let b := { b with bits := 0, cache := 0 }
  let b := if b.data.length < b.offset then { b with offset := b.data.length } else b
  (b.offset, b)

/-- Whether the reader reports that it ran past the end. -/
def rhuffBitsOverflow (b : Bits) : Bool := b.overflow

/-- An operation on the reader. -/
inductive Op where
  | peek (numbits : Nat)
  | remove (numbits : Nat)
  | read (numbits : Nat)
  | flush
deriving DecidableEq

/-- What an operation returns, if anything, and the reader it leaves. -/
def Op.apply (b : Bits) : Op → List Nat × Bits
  | .peek numbits =>
    let (value, b) := rhuffBitsPeek b numbits
    ([value], b)
  | .remove numbits => ([], rhuffBitsRemove b numbits)
  | .read numbits =>
    let (value, b) := rhuffBitsRead b numbits
    ([value], b)
  | .flush =>
    let (offset, b) := rhuffBitsFlush b
    ([offset], b)

/-- What the operations return, one after another, and the reader they leave. -/
def runOps (b : Bits) : List Op → List Nat × Bits
  | [] => ([], b)
  | op :: ops =>
    let (values, b) := op.apply b
    let (later, b) := runOps b ops
    (values ++ later, b)

/-- The widths that a peek, a remove or a read may be asked for. -/
def Op.Admissible : Op → Prop
  | .peek numbits => numbits ≤ cacheMin
  | .remove numbits => numbits ≤ cacheMin
  | .read numbits => numbits ≤ cacheMin
  | .flush => True

/-- How many bits an operation removes. -/
def Op.width : Op → Nat
  | .peek _ => 0
  | .remove numbits => numbits
  | .read numbits => numbits
  | .flush => 0

/-- Where the reader stands after an operation. -/
def Op.next (size place : Nat) : Op → Nat
  | .flush => 8 * min ((place + 7) / 8) size
  | op => place + op.width

/-- What an operation should return: the bits ahead, or the byte it goes on at. -/
def Op.value (data : List UInt8) (place : Nat) : Op → List Nat
  | .peek numbits => [window data place numbits]
  | .remove _ => []
  | .read numbits => [window data place numbits]
  | .flush => [min ((place + 7) / 8) data.length]

/-- What the operations should return. -/
def values (data : List UInt8) : Nat → List Op → List Nat
  | _, [] => []
  | place, op :: ops => op.value data place ++ values data (op.next data.length place) ops

/-- Whether an operation consumes bits beyond the end of the buffer. -/
def beyond (size : Nat) : Nat → List Op → Bool
  | _, [] => false
  | place, op :: ops => (0 < op.width && 8 * size < place + op.width) || beyond size (op.next size place) ops

/-- How many bits the operations remove. -/
def removed (ops : List Op) : Nat := (ops.map Op.width).sum

section Operations

variable {b : Bits} {place : Nat}

theorem unfillLoop_ahead {n : Nat} (ahead : 8 * b.offset = place + b.bits) (enough : b.bits ≤ n) :
    8 * (unfillLoop n b).offset = place + (unfillLoop n b).bits ∧ (unfillLoop n b).bits < 8 ∧
      (unfillLoop n b).data = b.data ∧ (unfillLoop n b).used = b.used ∧
      (unfillLoop n b).overflow = b.overflow := by
  -- Every turn gives back eight bits.
  induction n generalizing b with
  | zero => exact ⟨ahead, by simp only [unfillLoop]; omega, rfl, rfl, rfl⟩
  | succ n ih =>
    rw [unfillLoop]
    split
    · exact ih (by simp only; omega) (by simp only; omega)
    · exact ⟨ahead, by omega, rfl, rfl, rfl⟩

theorem rhuffBitsFlush_stands (stands : b.Stands place) :
    (rhuffBitsFlush b).1 = min ((place + 7) / 8) b.data.length ∧
      (rhuffBitsFlush b).2.Stands (8 * min ((place + 7) / 8) b.data.length) ∧
      (rhuffBitsFlush b).2.data = b.data ∧ (rhuffBitsFlush b).2.used = b.used ∧
      (rhuffBitsFlush b).2.overflow = b.overflow := by
  -- Less than a byte is left, so that the offset is the place rounded up to a byte.
  obtain ⟨ahead, small, data, used, overflow⟩ := unfillLoop_ahead stands.ahead (le_refl b.bits)
  have byte : (unfillLoop b.bits b).offset = (place + 7) / 8 := by omega
  unfold rhuffBitsFlush
  dsimp only
  rw [data, byte]
  split
  · rename_i past
    rw [min_eq_right (le_of_lt past)]
    exact ⟨rfl, ⟨rfl, zero_le _, by simp [window]⟩, rfl, used, overflow⟩
  · rename_i inside
    rw [Nat.min_eq_left (Nat.le_of_not_lt inside)]
    exact ⟨rfl, ⟨rfl, zero_le _, by simp [window]⟩, rfl, used, overflow⟩

theorem peek_stands {n : Nat} (stands : b.Stands place) (small : n ≤ cacheMin) :
    (rhuffBitsPeek b n).1 = window b.data place n ∧ (rhuffBitsPeek b n).2.Stands place ∧
      (rhuffBitsPeek b n).2.data = b.data ∧ (rhuffBitsPeek b n).2.used = b.used ∧
      (rhuffBitsPeek b n).2.overflow = b.overflow := by
  cases n with
  | zero => exact ⟨rfl, stands, rfl, rfl, rfl⟩
  | succ n => exact rhuffBitsPeek_stands stands (succ_pos n) small

/-- The overflow is what the count of the removed bits says. -/
def Bits.Counted (b : Bits) : Prop := b.overflow = true ↔ 8 * b.data.length < b.used

theorem rhuffBitsRemove_counted {n : Nat} (stands : b.Stands place) (counted : b.Counted)
    (small : n ≤ cacheMin) : (rhuffBitsRemove b n).Counted := by
  -- The count only grows, so that an overflow that was reported stays justified.
  obtain ⟨-, -, data, used, overflow⟩ := Bits.filled_stands stands small
  unfold Bits.Counted at counted ⊢
  unfold rhuffBitsRemove
  split
  · exact counted
  · dsimp only
    rw [Nat.min_eq_left small, data, used, overflow, Bool.or_eq_true, counted, decide_eq_true_eq]
    omega

theorem Op.apply_stands {op : Op} (stands : b.Stands place) (counted : b.Counted)
    (admissible : op.Admissible) :
    (op.apply b).1 = op.value b.data place ∧ (op.apply b).2.Stands (op.next b.data.length place) ∧
      (op.apply b).2.Counted ∧ (op.apply b).2.data = b.data ∧
      (op.apply b).2.used = b.used + op.width := by
  -- Each operation has its lemma, and only a remove and a read touch the count.
  cases op with
  | peek n =>
    obtain ⟨value, after, data, used, overflow⟩ := peek_stands stands admissible
    refine ⟨congrArg (fun value => [value]) value, after, ?_, data, used⟩
    unfold Bits.Counted at counted ⊢
    simp only [Op.apply]
    rw [overflow, data, used]
    exact counted
  | remove n =>
    obtain ⟨after, data, used⟩ := rhuffBitsRemove_stands stands admissible
    exact ⟨rfl, after, rhuffBitsRemove_counted stands counted admissible, data, used⟩
  | read n =>
    obtain ⟨value, after, data, used, overflow⟩ := peek_stands stands admissible
    have still : (rhuffBitsPeek b n).2.Counted := by
      unfold Bits.Counted at counted ⊢
      rw [overflow, data, used]
      exact counted
    obtain ⟨last, lastData, lastUsed⟩ := rhuffBitsRemove_stands after admissible
    refine ⟨congrArg (fun value => [value]) value, last,
      rhuffBitsRemove_counted after still admissible, lastData.trans data, ?_⟩
    exact lastUsed.trans (by rw [used]; rfl)
  | flush =>
    obtain ⟨value, after, data, used, overflow⟩ := rhuffBitsFlush_stands stands
    refine ⟨congrArg (fun value => [value]) value, after, ?_, data, used⟩
    unfold Bits.Counted at counted ⊢
    simp only [Op.apply]
    rw [overflow, data, used]
    exact counted

theorem runOps_stands {ops : List Op} (stands : b.Stands place) (counted : b.Counted)
    (admissible : ∀ op ∈ ops, op.Admissible) :
    (runOps b ops).1 = values b.data place ops ∧
      ((runOps b ops).2.overflow = true ↔ 8 * b.data.length < b.used + removed ops) := by
  -- The reader goes on where the first operation leaves it.
  induction ops generalizing b place with
  | nil => exact ⟨rfl, counted⟩
  | cons op ops ih =>
    obtain ⟨value, after, still, data, used⟩ := Op.apply_stands stands counted (admissible op mem_cons_self)
    obtain ⟨later, overflow⟩ := ih after still fun op listed => admissible op (mem_cons_of_mem _ listed)
    rw [data] at later overflow
    constructor
    · simp only [runOps, values]
      rw [value, later]
    · rw [used, add_assoc] at overflow
      simpa only [runOps, removed, map_cons, sum_cons] using overflow

end Operations

theorem removed_le {size place : Nat} {ops : List Op} (inside : place ≤ 8 * size)
    (within : beyond size place ops = false) : place + removed ops ≤ 8 * size := by
  -- A flush only moves forward as long as the place is inside the buffer.
  induction ops generalizing place with
  | nil => exact inside
  | cons op ops ih =>
    simp only [beyond, Bool.or_eq_false_iff] at within
    obtain ⟨here, later⟩ := within
    have fits : place + op.width ≤ 8 * size := by
      by_cases moves : 0 < op.width
      · have := here
        simp only [moves, decide_true, Bool.true_and, decide_eq_false_iff_not] at this
        omega
      · omega
    have moved : place + op.width ≤ op.next size place ∧ op.next size place ≤ 8 * size := by
      cases op with
      | flush =>
        simp only [Op.next, Op.width]
        omega
      | peek n => exact ⟨le_refl _, fits⟩
      | remove n => exact ⟨le_refl _, fits⟩
      | read n => exact ⟨le_refl _, fits⟩
    have rest := ih moved.2 later
    simp only [removed, map_cons, sum_cons] at rest ⊢
    omega

/-- The operations return the bits of the buffer in order, and the overflow is reported as it should
be exactly if more bits than the buffer has are removed once a bit beyond its end is consumed. -/
theorem runOps_settles (data : List UInt8) {ops : List Op} (admissible : ∀ op ∈ ops, op.Admissible) :
    (runOps (rhuffBitsInit data) ops).1 = values data 0 ops ∧
      ((rhuffBitsOverflow (runOps (rhuffBitsInit data) ops).2 = true ↔ beyond data.length 0 ops = true) ↔
        (beyond data.length 0 ops = true → 8 * data.length < removed ops)) := by
  have fresh : (rhuffBitsInit data).Counted := by simp [Bits.Counted, rhuffBitsInit]
  obtain ⟨returned, overflow⟩ := runOps_stands (rhuffBitsInit_stands data) fresh admissible
  refine ⟨returned, ?_⟩
  -- What is reported is that more bits were removed than there are, whatever flushes discarded.
  have reported : rhuffBitsOverflow (runOps (rhuffBitsInit data) ops).2 = true ↔
      8 * data.length < removed ops := by
    rw [rhuffBitsOverflow, overflow]
    simp [rhuffBitsInit]
  rw [reported]
  constructor
  · exact fun agrees => agrees.2
  · intro counted
    refine ⟨fun more => ?_, counted⟩
    by_contra within
    have fits := removed_le (zero_le _) (Bool.eq_false_iff.mpr within)
    omega

/-- A bit, the rest of its byte and a byte of the next two. -/
theorem runOps_settles_bytes :
    (runOps (rhuffBitsInit [0xA5, 0x3C]) [.read 1, .flush, .peek 3, .read 8]).1 = [1, 1, 1, 0x3C] :=
  (@runOps_settles [0xA5, 0x3C] [.read 1, .flush, .peek 3, .read 8] (by simp [Op.Admissible, cacheMin])).1

/-- One bit of the only byte is read, the others are discarded, and one more is read. -/
theorem flush_uncounted :
    ¬(rhuffBitsOverflow (runOps (rhuffBitsInit [0xFF]) [.read 1, .flush, .read 1]).2 = true ↔
      beyond 1 0 [.read 1, .flush, .read 1] = true) := by
  decide

end Libretro.Huffman
