import Libretro.Encodings.Huffman

/-! A block of bytes behind its tree: the fused loop decodes what the plain one decodes. -/

namespace Libretro.Huffman

open List

/-- Alphabet of the tree that codes the lengths: a run and one symbol for each length. -/
def smallCodes : Nat := 24

/-- The longest code of the small tree. -/
def smallBits : Nat := 6

/-- Width of a length of the small tree. -/
def smallWidth : Nat := 3

/-- The length that ends the list. -/
def smallEnd : Nat := 7

/-- The small tree before its lengths are read; its initialisation is within all limits. -/
def smallInit : Dec where
  lookup := List.replicate (2 ^ smallBits) 0
  maxBits := smallBits
  lengths := List.replicate smallCodes 0
  codes := by decide
  bits := by decide
  room := by decide

/-- Lengths of the small tree are read one after another, until one ends the list. -/
def smallLengths : Nat → Nat → List UInt8 → Bits → List UInt8 × Bits
  | 0, _, lengths, b => (lengths, b)
  | fuel + 1, index, lengths, b =>
    if index < smallCodes then
      let (value, b) := rhuffBitsRead b smallWidth
      if value = smallEnd then (lengths, b)
      else smallLengths fuel (index + 1) (lengths.set index (.ofNat value)) b
    else (lengths, b)

/-- The lengths of the small tree: the first one, where the others begin, and the others. -/
def readSmall (b : Bits) : List UInt8 × Bits :=
  let (first, b) := rhuffBitsRead b smallWidth
  let lengths := smallInit.lengths.set 0 (.ofNat first)
  let (start, b) := rhuffBitsRead b smallWidth
  smallLengths smallCodes (start + 1) lengths b

theorem length_smallLengths (fuel index : Nat) (lengths : List UInt8) (b : Bits) :
    (smallLengths fuel index lengths b).1.length = lengths.length := by
  induction fuel generalizing index lengths b with
  | zero => rfl
  | succ fuel ih =>
    unfold smallLengths
    split
    · dsimp only
      split
      · rfl
      · rw [ih, length_set]
    · rfl

theorem length_readSmall (b : Bits) : (readSmall b).1.length = smallCodes := by
  unfold readSmall
  dsimp only
  rw [length_smallLengths, length_set]
  rfl

/-- The small tree with its lengths. -/
def smallDec (b : Bits) : Dec :=
  { smallInit with
    lengths := (readSmall b).1
    codes := by rw [length_readSmall]; decide }

/-- Width of a long run's count, which is scaled to the alphabet: the bits of its span. -/
def runBits (numCodes : Nat) : Nat := Nat.log2 (if 9 < numCodes then numCodes - 9 else 1) + 1

/-- A run of lengths, as far as there are symbols left. -/
def writeRun (last : UInt8) : Nat → Nat → List UInt8 → List UInt8 × Nat
  | 0, curcode, lengths => (lengths, curcode)
  | count + 1, curcode, lengths =>
    if curcode < lengths.length then
      writeRun last count (curcode + 1) (lengths.set curcode last)
    else (lengths, curcode)

/-- The lengths are decoded symbol by symbol, or run by run; every turn writes a length. -/
def treeLengths (small : Dec) (runbits : Nat) :
    Nat → Nat → Nat → List UInt8 → Bits → Status × List UInt8 × Bits
  | 0, _, _, lengths, b => (.ok, lengths, b)
  | fuel + 1, curcode, last, lengths, b =>
    if curcode < lengths.length then
      let (value, b) := rhuffDecDecodeOne small b
      if rhuffBitsOverflow b then (.errorData, lengths, b)
      else if value ≠ 0 then
        -- Lengths are stored one above their value; zero means a run.
        treeLengths small runbits fuel (curcode + 1) (value - 1) (lengths.set curcode (.ofNat (value - 1))) b
      else
        let (bias, b) := rhuffBitsRead b 3
        let (more, b) := if bias + 2 = 9 then rhuffBitsRead b runbits else (0, b)
        let (lengths, curcode) := writeRun (.ofNat last) (bias + 2 + more) curcode lengths
        treeLengths small runbits fuel curcode last lengths b
    else (.ok, lengths, b)

open Nat

theorem length_writeRun (last : UInt8) (count curcode : Nat) (lengths : List UInt8) :
    (writeRun last count curcode lengths).1.length = lengths.length := by
  induction count generalizing curcode lengths with
  | zero => rfl
  | succ count ih =>
    unfold writeRun
    split
    · rw [ih, length_set]
    · rfl

theorem length_treeLengths (small : Dec) (runbits fuel curcode last : Nat) (lengths : List UInt8) (b : Bits) :
    (treeLengths small runbits fuel curcode last lengths b).2.1.length = lengths.length := by
  induction fuel generalizing curcode last lengths b with
  | zero => rfl
  | succ fuel ih =>
    unfold treeLengths
    split
    · dsimp only
      split
      · rfl
      · split
        · rw [ih, length_set]
        · rw [ih, length_writeRun]
    · rfl

/-- The lengths of the main tree and the reader behind them. -/
def readLengths (d : Dec) (small : Dec) (b : Bits) : Status × List UInt8 × Bits :=
  treeLengths small (runBits d.lengths.length) d.lengths.length 0 0 (List.replicate d.lengths.length 0) b

theorem length_readLengths (d small : Dec) (b : Bits) :
    (readLengths d small b).2.1.length = d.lengths.length := by
  rw [readLengths, length_treeLengths, length_replicate]

/-- The tree that stands in front of a block is read and built. -/
def rhuffReadTreePacked (d : Dec) (b : Bits) : Status × Dec × Bits :=
  let behind := (readSmall b).2
  if rhuffBitsOverflow behind then (.errorData, d, behind)
  else
    match rhuffDecBuild (smallDec b) with
    | (_, .errorData) => (.errorData, d, behind)
    | (small, .ok) =>
      let d' : Dec := { d with
        lengths := (readLengths d small behind).2.1
        codes := by rw [length_readLengths]; exact d.codes }
      match (readLengths d small behind).1 with
      | .errorData => (.errorData, d', (readLengths d small behind).2.2)
      | .ok =>
        let (d', status) := rhuffDecBuild d'
        (status, d', (readLengths d small behind).2.2)

/-- The reader's state that the fused loop keeps to itself, and the bits it has consumed. -/
structure Local where
  offset : Nat
  cache : Nat
  bits : Nat
  overflow : Bool
  consumed : Nat := 0
deriving DecidableEq

/-- Bytes are pulled in while the cache has room for one; four fill it. -/
def Local.refill (data : List UInt8) : Nat → Local → Local
  | 0, l => l
  | n + 1, l =>
    if l.bits ≤ cacheMin then
      Local.refill data n { l with
        cache := if l.offset < data.length
          then l.cache ||| (data.getD l.offset 0).toNat <<< (cacheMin - l.bits) else l.cache
        offset := l.offset + 1
        bits := l.bits + 8 }
    else l

/-- The cache holds as many bits as are asked for. -/
def Local.filled (data : List UInt8) (numbits : Nat) (l : Local) : Local :=
  if l.bits < numbits then l.refill data 4 else l

/-- One turn of the fused loop: the byte it writes and what it leaves. -/
def blockTurn (d : Dec) (data : List UInt8) (l : Local) : UInt8 × Local :=
  let l := l.filled data d.maxBits
  let value := d.lookup.getD (l.cache >>> (32 - d.maxBits)) 0
  let length := value % 2 ^ lookupLenBits
  -- A pattern without a code latches the overflow and takes one bit.
  let l := { l with overflow := if length = 0 then true else l.overflow }
  let value := if length = 0 then 0 else value
  let length := if length = 0 then 1 else min length cacheMin
  let l := l.filled data length
  (.ofNat (value >>> lookupLenBits),
    { l with
      cache := l.cache <<< length % 2 ^ 32
      bits := l.bits - length
      consumed := l.consumed + length })

/-- The fused loop writes its bytes. -/
def blockLoop (d : Dec) (data : List UInt8) : Nat → Local → List UInt8 × Local
  | 0, l => ([], l)
  | n + 1, l =>
    let (byte, l) := blockTurn d data l
    let (bytes, l) := blockLoop d data n l
    (byte :: bytes, l)

/-- What the fused loop leaves goes back to the reader. -/
def Local.store (l : Local) (b : Bits) : Bits :=
  { b with
    offset := l.offset
    cache := l.cache
    bits := l.bits
    used := b.used + l.consumed
    overflow := l.overflow || b.data.length * 8 < b.used + l.consumed }

/-- What a block leaves: the code it returns, the bytes it wrote, the decoder and the reader. -/
structure Decoded where
  status : Status
  bytes : List UInt8
  dec : Dec
  reader : Bits

/-- The tree and the bytes of a block are decoded. -/
def rhuffDecodeBlock (d : Dec) (b : Bits) (dstLen : Nat) : Decoded :=
  match rhuffReadTreePacked d b with
  | (.errorData, d, b) => ⟨.errorData, [], d, b⟩
  | (.ok, d, b) =>
    let (bytes, l) := blockLoop d b.data dstLen
      { offset := b.offset, cache := b.cache, bits := b.bits, overflow := b.overflow }
    let b := l.store b
    ⟨if rhuffBitsOverflow b then .errorData else .ok, bytes, d, b⟩

/-- The plain path: the tree is read, and each byte is one symbol of the plain decoder. -/
def decodePlainly (d : Dec) (b : Bits) (dstLen : Nat) : Decoded :=
  match rhuffReadTreePacked d b with
  | (.errorData, d, b) => ⟨.errorData, [], d, b⟩
  | (.ok, d, b) =>
    let (symbols, b) := decodeSymbols d dstLen b
    ⟨if rhuffBitsOverflow b then .errorData else .ok, symbols.map .ofNat, d, b⟩

section Agreement

theorem refill_store (n : Nat) (l : Local) (b : Bits) :
    (l.refill b.data n).store b = fillLoop n (l.store b) := by
  induction n generalizing l with
  | zero => rfl
  | succ n ih =>
    unfold Local.refill fillLoop
    by_cases room : l.bits ≤ cacheMin
    · rw [if_pos room, if_pos (show (l.store b).bits ≤ cacheMin from room)]
      exact ih _
    · rw [if_neg room, if_neg (show ¬(l.store b).bits ≤ cacheMin from room)]

theorem filled_store (numbits : Nat) (l : Local) (b : Bits) :
    (l.filled b.data numbits).store b = (l.store b).filled numbits := by
  unfold Local.filled Bits.filled rhuffBitsFill
  by_cases few : l.bits < numbits
  · rw [if_pos few, if_pos (show (l.store b).bits < numbits from few)]
    exact refill_store 4 l b
  · rw [if_neg few, if_neg (show ¬(l.store b).bits < numbits from few)]

theorem peek_store (d : Dec) (l : Local) (b : Bits) : rhuffBitsPeek (l.store b) d.maxBits =
      ((l.filled b.data d.maxBits).cache >>> (32 - d.maxBits), (l.filled b.data d.maxBits).store b) := by
  have short : min d.maxBits cacheMin = d.maxBits := min_eq_left (le_trans d.bits.2 (by decide))
  unfold rhuffBitsPeek
  dsimp only
  rw [if_neg (ne_of_gt d.bits.1), short, ← filled_store]
  rfl

theorem remove_store {length : Nat} (positive : 0 < length) (short : length ≤ cacheMin) (l : Local)
    (b : Bits) :
    rhuffBitsRemove (l.store b) length =
      ({ l.filled b.data length with
          cache := (l.filled b.data length).cache <<< length % 2 ^ 32
          bits := (l.filled b.data length).bits - length
          consumed := (l.filled b.data length).consumed + length } : Local).store b := by
  -- An earlier overflow stays an overflow, for the count only grows.
  have grows : ∀ total : Nat, ∀ overflow : Bool, ((overflow || decide (b.data.length * 8 < total)) ||
        decide (b.data.length * 8 < total + length)) =
          (overflow || decide (b.data.length * 8 < total + length)) := by
    intro total overflow
    rw [Bool.or_assoc]
    congr 1
    by_cases past : b.data.length * 8 < total
    · simp [past, Nat.lt_add_right length past]
    · simp [past]
  unfold rhuffBitsRemove
  dsimp only
  rw [if_neg (ne_of_gt positive), min_eq_left short, ← filled_store]
  simp only [Local.store, add_assoc]
  congr 1
  rw [← add_assoc]
  exact grows _ _

theorem rhuffBitsRemove_min (b : Bits) (numbits : Nat) :
    rhuffBitsRemove b numbits = rhuffBitsRemove b (min numbits cacheMin) := by
  unfold rhuffBitsRemove
  by_cases none : numbits = 0
  · subst none
    rfl
  · have some : min numbits cacheMin ≠ 0 := by
      simp only [cacheMin]
      omega
    rw [if_neg none, if_neg some, min_assoc, min_self]

theorem blockTurn_store (d : Dec) (l : Local) (b : Bits) : rhuffDecDecodeOne d (l.store b) =
      ((rhuffDecDecodeOne d (l.store b)).1, (blockTurn d b.data l).2.store b) ∧
    (blockTurn d b.data l).1 = .ofNat (rhuffDecDecodeOne d (l.store b)).1 := by
  unfold rhuffDecDecodeOne blockTurn
  rw [peek_store]
  dsimp only
  generalize l.filled b.data d.maxBits = filled
  generalize d.lookup.getD (filled.cache >>> (32 - d.maxBits)) 0 = value
  by_cases unmapped : value % 2 ^ lookupLenBits = 0
  · -- The pattern has no code.
    simp only [if_pos unmapped]
    refine ⟨congrArg _ ?_, by simp⟩
    have latched : ({ filled.store b with overflow := true } : Bits) =
        ({ filled with overflow := true } : Local).store b := by
      simp [Local.store]
    rw [latched]
    exact remove_store one_pos (by decide) _ b
  · -- The symbol's bits are taken, as many as a cache holds.
    simp only [if_neg unmapped]
    refine ⟨congrArg _ ?_, trivial⟩
    rw [rhuffBitsRemove_min]
    have positive : 0 < min (value % 2 ^ lookupLenBits) cacheMin :=
      Nat.lt_min.mpr ⟨pos_of_ne_zero unmapped, by decide⟩
    exact remove_store positive (min_le_right _ _) filled b

theorem blockLoop_store (d : Dec) (n : Nat) (l : Local) (b : Bits) : decodeSymbols d n (l.store b) =
      ((decodeSymbols d n (l.store b)).1, (blockLoop d b.data n l).2.store b) ∧
    (blockLoop d b.data n l).1 = (decodeSymbols d n (l.store b)).1.map .ofNat := by
  induction n generalizing l with
  | zero => exact ⟨rfl, rfl⟩
  | succ n ih =>
    obtain ⟨one, byte⟩ := blockTurn_store d l b
    obtain ⟨others, bytes⟩ := ih (blockTurn d b.data l).2
    unfold decodeSymbols blockLoop
    rw [one]
    dsimp only
    rw [others]
    exact ⟨rfl, by rw [map_cons, byte, bytes]⟩

/-- A count beyond the buffer has been reported. -/
def Bits.Latched (b : Bits) : Prop := b.data.length * 8 < b.used → b.overflow = true

variable {b : Bits}

theorem fillLoop_same (n : Nat) (b : Bits) : (fillLoop n b).data = b.data ∧
    (fillLoop n b).used = b.used ∧ (fillLoop n b).overflow = b.overflow := by
  induction n generalizing b with
  | zero => exact ⟨rfl, rfl, rfl⟩
  | succ n ih =>
    unfold fillLoop
    split
    · exact ih _
    · exact ⟨rfl, rfl, rfl⟩

theorem filled_same (numbits : Nat) (b : Bits) : (b.filled numbits).data = b.data ∧
    (b.filled numbits).used = b.used ∧ (b.filled numbits).overflow = b.overflow := by
  unfold Bits.filled
  split
  · exact fillLoop_same 4 b
  · exact ⟨rfl, rfl, rfl⟩

theorem latched_remove {numbits : Nat} (positive : 0 < numbits) : (rhuffBitsRemove b numbits).Latched := by
  obtain ⟨data, -, -⟩ := filled_same (min numbits cacheMin) b
  unfold rhuffBitsRemove Bits.Latched
  rw [if_neg (ne_of_gt positive)]
  intro past
  simp only [Bool.or_eq_true, decide_eq_true_eq]
  exact .inr past

theorem latched_read {numbits : Nat} (positive : 0 < numbits) : (rhuffBitsRead b numbits).2.Latched :=
  latched_remove positive

theorem latched_decodeOne (d : Dec) (b : Bits) : (rhuffDecDecodeOne d b).2.Latched := by
  unfold rhuffDecDecodeOne
  dsimp only
  split
  · exact latched_remove one_pos
  · rename_i mapped
    exact latched_remove (pos_of_ne_zero mapped)

theorem latched_smallLengths (fuel index : Nat) (lengths : List UInt8) (latched : b.Latched) :
    (smallLengths fuel index lengths b).2.Latched := by
  induction fuel generalizing index lengths b with
  | zero => exact latched
  | succ fuel ih =>
    have read : (rhuffBitsRead b smallWidth).2.Latched := latched_read (by decide)
    unfold smallLengths
    split
    · dsimp only
      split
      · exact read
      · exact ih _ _ read
    · exact latched

theorem latched_treeLengths (small : Dec) {runbits : Nat} (positive : 0 < runbits)
    (fuel curcode last : Nat) (lengths : List UInt8) (latched : b.Latched) :
    (treeLengths small runbits fuel curcode last lengths b).2.2.Latched := by
  induction fuel generalizing curcode last lengths b with
  | zero => exact latched
  | succ fuel ih =>
    have one := latched_decodeOne small b
    unfold treeLengths
    split
    · dsimp only
      split
      · exact one
      · split
        · exact ih _ _ _ one
        · have bias : (rhuffBitsRead (rhuffDecDecodeOne small b).2 3).2.Latched := latched_read (by decide)
          refine ih _ _ _ ?_
          split
          · exact latched_read positive
          · exact bias
    · exact latched

theorem latched_readTree (d : Dec) (b : Bits) : (rhuffReadTreePacked d b).2.2.Latched := by
  have behind : (readSmall b).2.Latched := latched_smallLengths _ _ _ (latched_read (by decide))
  have lengths : (readLengths d (rhuffDecBuild (smallDec b)).1 (readSmall b).2).2.2.Latched :=
    latched_treeLengths _ (succ_pos _) _ _ _ _ behind
  unfold rhuffReadTreePacked
  dsimp only
  split
  · exact behind
  · split
    · exact behind
    · rename_i small built
      rw [built] at lengths
      dsimp only at lengths
      split
      · exact lengths
      · exact lengths

theorem store_self (latched : b.Latched) :
    ({ offset := b.offset, cache := b.cache, bits := b.bits, overflow := b.overflow } :
      Local).store b = b := by
  have reported : (b.overflow || decide (b.data.length * 8 < b.used)) = b.overflow := by
    by_cases past : b.data.length * 8 < b.used
    · rw [latched past]
      rfl
    · simp [past]
  simp only [Local.store, add_zero]
  rw [reported]

/-- The block decoder returns, writes and consumes what the plain path does. -/
theorem rhuffDecodeBlock_eq (d : Dec) (b : Bits) (dstLen : Nat) :
    rhuffDecodeBlock d b dstLen = decodePlainly d b dstLen := by
  have latched := latched_readTree d b
  unfold rhuffDecodeBlock decodePlainly
  generalize rhuffReadTreePacked d b = read at latched ⊢
  rcases read with ⟨status, tree, behind⟩
  cases status with
  | errorData => rfl
  | ok =>
    -- The copy starts as the reader is, and the loop keeps it what the reader would be.
    dsimp only
    obtain ⟨symbols, bytes⟩ := blockLoop_store tree dstLen
      { offset := behind.offset, cache := behind.cache, bits := behind.bits,
        overflow := behind.overflow } behind
    rw [store_self latched] at symbols bytes
    rw [symbols, bytes]

end Agreement

end Libretro.Huffman
