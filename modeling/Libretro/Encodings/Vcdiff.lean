import Mathlib.Algebra.GroupWithZero.Nat
import Mathlib.Data.List.Basic

/-! The VCDIFF decoder: its integers, its address caches, its windows, and the ways to drive it. -/

namespace Libretro.Vcdiff

/-- Five digits of seven bits are read at most, and none that 32 bits have no room for. -/
def varintLoop : Nat → Nat → List UInt8 → Option (Nat × List UInt8)
  | 0, _, _ => none
  | _ + 1, _, [] => none
  | n + 1, v, b :: rest =>
    if 0x01FFFFFF < v then none
    else
      let v := v * 128 + b.toNat % 128
      if b.toNat < 128 then some (v, rest) else varintLoop n v rest

/-- An integer in base 128, the highest digit first. -/
def vcdVarint (p : List UInt8) : Option (Nat × List UInt8) := varintLoop 5 0 p

/-- The instruction types. -/
inductive Kind where
  | noop | add | run | copy
deriving DecidableEq

/-- One instruction of a pair. -/
structure Half where
  kind : Kind
  size : Nat
  mode : Nat
deriving DecidableEq

/-- The size of an instruction: its own, or the integer that follows its code. -/
def Half.read (half : Half) (inst : List UInt8) : Option (Nat × List UInt8) :=
  if half.size = 0 then vcdVarint inst else some (half.size, inst)

/-- A code stands for a pair of instructions. -/
structure Inst where
  first : Half
  second : Half
deriving DecidableEq

/-- An instruction type by its number. -/
def kindOf : Nat → Kind
  | 0 => .noop
  | 1 => .add
  | 2 => .run
  | _ => .copy

/-- The default code table: type, size and mode of both instructions of each code. -/
def vcdRows : List (Nat × Nat × Nat × Nat × Nat × Nat) :=
  [(2, 0, 0, 0, 0, 0), (1, 0, 0, 0, 0, 0), (1, 1, 0, 0, 0, 0), (1, 2, 0, 0, 0, 0),
    (1, 3, 0, 0, 0, 0), (1, 4, 0, 0, 0, 0), (1, 5, 0, 0, 0, 0), (1, 6, 0, 0, 0, 0),
    (1, 7, 0, 0, 0, 0), (1, 8, 0, 0, 0, 0), (1, 9, 0, 0, 0, 0), (1, 10, 0, 0, 0, 0),
    (1, 11, 0, 0, 0, 0), (1, 12, 0, 0, 0, 0), (1, 13, 0, 0, 0, 0), (1, 14, 0, 0, 0, 0),
    (1, 15, 0, 0, 0, 0), (1, 16, 0, 0, 0, 0), (1, 17, 0, 0, 0, 0), (3, 0, 0, 0, 0, 0),
    (3, 4, 0, 0, 0, 0), (3, 5, 0, 0, 0, 0), (3, 6, 0, 0, 0, 0), (3, 7, 0, 0, 0, 0),
    (3, 8, 0, 0, 0, 0), (3, 9, 0, 0, 0, 0), (3, 10, 0, 0, 0, 0), (3, 11, 0, 0, 0, 0),
    (3, 12, 0, 0, 0, 0), (3, 13, 0, 0, 0, 0), (3, 14, 0, 0, 0, 0), (3, 15, 0, 0, 0, 0),
    (3, 16, 0, 0, 0, 0), (3, 17, 0, 0, 0, 0), (3, 18, 0, 0, 0, 0), (3, 0, 1, 0, 0, 0),
    (3, 4, 1, 0, 0, 0), (3, 5, 1, 0, 0, 0), (3, 6, 1, 0, 0, 0), (3, 7, 1, 0, 0, 0),
    (3, 8, 1, 0, 0, 0), (3, 9, 1, 0, 0, 0), (3, 10, 1, 0, 0, 0), (3, 11, 1, 0, 0, 0),
    (3, 12, 1, 0, 0, 0), (3, 13, 1, 0, 0, 0), (3, 14, 1, 0, 0, 0), (3, 15, 1, 0, 0, 0),
    (3, 16, 1, 0, 0, 0), (3, 17, 1, 0, 0, 0), (3, 18, 1, 0, 0, 0), (3, 0, 2, 0, 0, 0),
    (3, 4, 2, 0, 0, 0), (3, 5, 2, 0, 0, 0), (3, 6, 2, 0, 0, 0), (3, 7, 2, 0, 0, 0),
    (3, 8, 2, 0, 0, 0), (3, 9, 2, 0, 0, 0), (3, 10, 2, 0, 0, 0), (3, 11, 2, 0, 0, 0),
    (3, 12, 2, 0, 0, 0), (3, 13, 2, 0, 0, 0), (3, 14, 2, 0, 0, 0), (3, 15, 2, 0, 0, 0),
    (3, 16, 2, 0, 0, 0), (3, 17, 2, 0, 0, 0), (3, 18, 2, 0, 0, 0), (3, 0, 3, 0, 0, 0),
    (3, 4, 3, 0, 0, 0), (3, 5, 3, 0, 0, 0), (3, 6, 3, 0, 0, 0), (3, 7, 3, 0, 0, 0),
    (3, 8, 3, 0, 0, 0), (3, 9, 3, 0, 0, 0), (3, 10, 3, 0, 0, 0), (3, 11, 3, 0, 0, 0),
    (3, 12, 3, 0, 0, 0), (3, 13, 3, 0, 0, 0), (3, 14, 3, 0, 0, 0), (3, 15, 3, 0, 0, 0),
    (3, 16, 3, 0, 0, 0), (3, 17, 3, 0, 0, 0), (3, 18, 3, 0, 0, 0), (3, 0, 4, 0, 0, 0),
    (3, 4, 4, 0, 0, 0), (3, 5, 4, 0, 0, 0), (3, 6, 4, 0, 0, 0), (3, 7, 4, 0, 0, 0),
    (3, 8, 4, 0, 0, 0), (3, 9, 4, 0, 0, 0), (3, 10, 4, 0, 0, 0), (3, 11, 4, 0, 0, 0),
    (3, 12, 4, 0, 0, 0), (3, 13, 4, 0, 0, 0), (3, 14, 4, 0, 0, 0), (3, 15, 4, 0, 0, 0),
    (3, 16, 4, 0, 0, 0), (3, 17, 4, 0, 0, 0), (3, 18, 4, 0, 0, 0), (3, 0, 5, 0, 0, 0),
    (3, 4, 5, 0, 0, 0), (3, 5, 5, 0, 0, 0), (3, 6, 5, 0, 0, 0), (3, 7, 5, 0, 0, 0),
    (3, 8, 5, 0, 0, 0), (3, 9, 5, 0, 0, 0), (3, 10, 5, 0, 0, 0), (3, 11, 5, 0, 0, 0),
    (3, 12, 5, 0, 0, 0), (3, 13, 5, 0, 0, 0), (3, 14, 5, 0, 0, 0), (3, 15, 5, 0, 0, 0),
    (3, 16, 5, 0, 0, 0), (3, 17, 5, 0, 0, 0), (3, 18, 5, 0, 0, 0), (3, 0, 6, 0, 0, 0),
    (3, 4, 6, 0, 0, 0), (3, 5, 6, 0, 0, 0), (3, 6, 6, 0, 0, 0), (3, 7, 6, 0, 0, 0),
    (3, 8, 6, 0, 0, 0), (3, 9, 6, 0, 0, 0), (3, 10, 6, 0, 0, 0), (3, 11, 6, 0, 0, 0),
    (3, 12, 6, 0, 0, 0), (3, 13, 6, 0, 0, 0), (3, 14, 6, 0, 0, 0), (3, 15, 6, 0, 0, 0),
    (3, 16, 6, 0, 0, 0), (3, 17, 6, 0, 0, 0), (3, 18, 6, 0, 0, 0), (3, 0, 7, 0, 0, 0),
    (3, 4, 7, 0, 0, 0), (3, 5, 7, 0, 0, 0), (3, 6, 7, 0, 0, 0), (3, 7, 7, 0, 0, 0),
    (3, 8, 7, 0, 0, 0), (3, 9, 7, 0, 0, 0), (3, 10, 7, 0, 0, 0), (3, 11, 7, 0, 0, 0),
    (3, 12, 7, 0, 0, 0), (3, 13, 7, 0, 0, 0), (3, 14, 7, 0, 0, 0), (3, 15, 7, 0, 0, 0),
    (3, 16, 7, 0, 0, 0), (3, 17, 7, 0, 0, 0), (3, 18, 7, 0, 0, 0), (3, 0, 8, 0, 0, 0),
    (3, 4, 8, 0, 0, 0), (3, 5, 8, 0, 0, 0), (3, 6, 8, 0, 0, 0), (3, 7, 8, 0, 0, 0),
    (3, 8, 8, 0, 0, 0), (3, 9, 8, 0, 0, 0), (3, 10, 8, 0, 0, 0), (3, 11, 8, 0, 0, 0),
    (3, 12, 8, 0, 0, 0), (3, 13, 8, 0, 0, 0), (3, 14, 8, 0, 0, 0), (3, 15, 8, 0, 0, 0),
    (3, 16, 8, 0, 0, 0), (3, 17, 8, 0, 0, 0), (3, 18, 8, 0, 0, 0), (1, 1, 0, 3, 4, 0),
    (1, 1, 0, 3, 5, 0), (1, 1, 0, 3, 6, 0), (1, 2, 0, 3, 4, 0), (1, 2, 0, 3, 5, 0),
    (1, 2, 0, 3, 6, 0), (1, 3, 0, 3, 4, 0), (1, 3, 0, 3, 5, 0), (1, 3, 0, 3, 6, 0),
    (1, 4, 0, 3, 4, 0), (1, 4, 0, 3, 5, 0), (1, 4, 0, 3, 6, 0), (1, 1, 0, 3, 4, 1),
    (1, 1, 0, 3, 5, 1), (1, 1, 0, 3, 6, 1), (1, 2, 0, 3, 4, 1), (1, 2, 0, 3, 5, 1),
    (1, 2, 0, 3, 6, 1), (1, 3, 0, 3, 4, 1), (1, 3, 0, 3, 5, 1), (1, 3, 0, 3, 6, 1),
    (1, 4, 0, 3, 4, 1), (1, 4, 0, 3, 5, 1), (1, 4, 0, 3, 6, 1), (1, 1, 0, 3, 4, 2),
    (1, 1, 0, 3, 5, 2), (1, 1, 0, 3, 6, 2), (1, 2, 0, 3, 4, 2), (1, 2, 0, 3, 5, 2),
    (1, 2, 0, 3, 6, 2), (1, 3, 0, 3, 4, 2), (1, 3, 0, 3, 5, 2), (1, 3, 0, 3, 6, 2),
    (1, 4, 0, 3, 4, 2), (1, 4, 0, 3, 5, 2), (1, 4, 0, 3, 6, 2), (1, 1, 0, 3, 4, 3),
    (1, 1, 0, 3, 5, 3), (1, 1, 0, 3, 6, 3), (1, 2, 0, 3, 4, 3), (1, 2, 0, 3, 5, 3),
    (1, 2, 0, 3, 6, 3), (1, 3, 0, 3, 4, 3), (1, 3, 0, 3, 5, 3), (1, 3, 0, 3, 6, 3),
    (1, 4, 0, 3, 4, 3), (1, 4, 0, 3, 5, 3), (1, 4, 0, 3, 6, 3), (1, 1, 0, 3, 4, 4),
    (1, 1, 0, 3, 5, 4), (1, 1, 0, 3, 6, 4), (1, 2, 0, 3, 4, 4), (1, 2, 0, 3, 5, 4),
    (1, 2, 0, 3, 6, 4), (1, 3, 0, 3, 4, 4), (1, 3, 0, 3, 5, 4), (1, 3, 0, 3, 6, 4),
    (1, 4, 0, 3, 4, 4), (1, 4, 0, 3, 5, 4), (1, 4, 0, 3, 6, 4), (1, 1, 0, 3, 4, 5),
    (1, 1, 0, 3, 5, 5), (1, 1, 0, 3, 6, 5), (1, 2, 0, 3, 4, 5), (1, 2, 0, 3, 5, 5),
    (1, 2, 0, 3, 6, 5), (1, 3, 0, 3, 4, 5), (1, 3, 0, 3, 5, 5), (1, 3, 0, 3, 6, 5),
    (1, 4, 0, 3, 4, 5), (1, 4, 0, 3, 5, 5), (1, 4, 0, 3, 6, 5), (1, 1, 0, 3, 4, 6),
    (1, 2, 0, 3, 4, 6), (1, 3, 0, 3, 4, 6), (1, 4, 0, 3, 4, 6), (1, 1, 0, 3, 4, 7),
    (1, 2, 0, 3, 4, 7), (1, 3, 0, 3, 4, 7), (1, 4, 0, 3, 4, 7), (1, 1, 0, 3, 4, 8),
    (1, 2, 0, 3, 4, 8), (1, 3, 0, 3, 4, 8), (1, 4, 0, 3, 4, 8), (3, 4, 0, 1, 1, 0),
    (3, 4, 1, 1, 1, 0), (3, 4, 2, 1, 1, 0), (3, 4, 3, 1, 1, 0), (3, 4, 4, 1, 1, 0),
    (3, 4, 5, 1, 1, 0), (3, 4, 6, 1, 1, 0), (3, 4, 7, 1, 1, 0), (3, 4, 8, 1, 1, 0)]

/-- The pair of instructions that a code stands for. -/
def vcdTable : List Inst :=
  vcdRows.map fun (type1, size1, mode1, type2, size2, mode2) =>
    ⟨⟨kindOf type1, size1, mode1⟩, ⟨kindOf type2, size2, mode2⟩⟩

/-- Slots of the near cache. -/
def vcdNear : Nat := 4

/-- Pages of 256 slots of the same cache. -/
def vcdSame : Nat := 3

/-- The addresses of earlier copies. -/
structure Cache where
  nearCache : List Nat
  same : List Nat
  nextSlot : Nat
deriving DecidableEq

/-- Every window starts with empty caches. -/
def vcdCacheReset : Cache := ⟨List.replicate vcdNear 0, List.replicate (vcdSame * 256) 0, 0⟩

/-- An address goes into both caches. -/
def vcdCacheUpdate (cache : Cache) (addr : Nat) : Cache where
  same := cache.same.set (addr % (vcdSame * 256)) addr
  nearCache := cache.nearCache.set cache.nextSlot addr
  nextSlot := (cache.nextSlot + 1) % vcdNear

/-- The address that a mode and the address section give, before it goes into the caches. -/
def addrValue (cache : Cache) (mode here : Nat) (ap : List UInt8) : Option (Nat × List UInt8) :=
  if mode = 0 then vcdVarint ap
  else if mode = 1 then do
    let (v, ap) ← vcdVarint ap
    if here < v then none else some (here - v, ap)
  else if mode < 2 + vcdNear then do
    let base := cache.nearCache.getD (mode - 2) 0
    let (off, ap) ← vcdVarint ap
    if 0xFFFFFFFF - base < off then none else some (base + off, ap)
  else
    match ap with
    | [] => none
    | b :: ap => some (cache.same.getD ((mode - (2 + vcdNear)) * 256 + b.toNat) 0, ap)

/-- One address is decoded, for a copy whose target position is known. -/
def vcdAddr (cache : Cache) (mode here : Nat) (ap : List UInt8) : Option (Nat × Cache × List UInt8) := do
  let (v, ap) ← addrValue cache mode here ap
  return (v, vcdCacheUpdate cache v, ap)

/-- The largest size. -/
def sizeMax : Nat := 2 ^ 64 - 1

/-- The target being built: what has been produced, the room for it, and the number of its
allocation. -/
structure Out where
  bytes : List UInt8 := []
  cap : Nat := 0
  generation : Nat := 0
deriving DecidableEq

/-- The room doubles until it is enough, as long as its size can be told. -/
def doubled : Nat → Nat → Nat → Option Nat
  | 0, _, _ => none
  | n + 1, cap, need =>
    if need ≤ cap then some cap
    else if sizeMax / 2 < cap then none
    else doubled n (2 * cap) need

/-- Room is made in a new allocation when there is not enough. -/
def vcdReserve (out : Out) (need : Nat) : Option Out :=
  if need ≤ out.cap then some out
  else
    (if out.cap = 0 then some need else doubled 65 out.cap need).map fun cap =>
      { out with cap := cap, generation := out.generation + 1 }

/-- Where the segment pointer of a window points. -/
inductive Origin where
  | none
  | source (pos : Nat)
  | target (pos generation : Nat)
deriving DecidableEq

/-- A copy that was executed: the segment pointer, the allocation current at that moment, the mode
of its address, its target position and its address. -/
structure Copied where
  origin : Origin
  generation : Nat
  mode : Nat
  place : Nat
  addr : Nat
deriving DecidableEq

/-- The decoder between two windows. -/
structure Stream where
  left : List UInt8
  src : List UInt8 := []
  srcLen : Nat
  failed : Bool := false
  out : Out := {}
  cache : Cache := vcdCacheReset
  copies : List Copied := []
deriving DecidableEq

/-- What a window's header says. -/
structure Window where
  origin : Origin
  segLen : Nat
  start : Nat
  tgtLen : Nat
deriving DecidableEq

/-- Where a window's target ends in the output. -/
def Window.stop (win : Window) : Nat := win.start + win.tgtLen

/-- What is left of a window's sections, and what the window has added to so far. -/
structure Work where
  out : Out
  cache : Cache
  copies : List Copied
  data : List UInt8
  inst : List UInt8
  addr : List UInt8
deriving DecidableEq

/-- Bytes are put at the end of the output. -/
def Work.append (work : Work) (bytes : List UInt8) : Work :=
  { work with out := { work.out with bytes := work.out.bytes ++ bytes } }

section Decoder

-- What is read through a pointer into an allocation that has been given back.
variable (freed : Nat → Nat → UInt8)

/-- Bytes of the segment, from wherever its pointer points. -/
def segmentBytes (src : List UInt8) (out : Out) (origin : Origin) (addr len : Nat) : List UInt8 :=
  match origin with
  | .none => []
  | .source pos => (src.drop (pos + addr)).take len
  | .target pos generation =>
    if generation = out.generation then (out.bytes.drop (pos + addr)).take len
    else (List.range len).map fun i => freed generation (pos + addr + i)

/-- A copy that overlaps its own output goes in chunks as wide as the distance. -/
def chunkLoop (dist : Nat) : Nat → Nat → List UInt8 → List UInt8
  | 0, _, bytes => bytes
  | n + 1, len, bytes =>
    if len = 0 then bytes
    else
      let chunk := min len dist
      chunkLoop dist n (len - chunk) (bytes ++ (bytes.drop (bytes.length - dist)).take chunk)

/-- A copy from the segment or from the target of the window. -/
def vcdCopy (src : List UInt8) (out : Out) (win : Window) (addr len : Nat) : Option (List UInt8) :=
  let bytes := out.bytes
  if addr < win.segLen then
    if win.segLen - addr < len then none
    else some (bytes ++ segmentBytes freed src out win.origin addr len)
  else
    let produced := bytes.length - win.start
    let off := addr - win.segLen
    if produced ≤ off then none
    else
      let first := win.start + off
      if first + len ≤ bytes.length then some (bytes ++ (bytes.drop first).take len)
      else
        let dist := bytes.length - first
        if dist = 1 then some (bytes ++ List.replicate len (bytes.getD first 0))
        else some (chunkLoop dist len len bytes)

/-- The copy instruction: its address, and what it copies. -/
def vcdCopyInst (src : List UInt8) (win : Window) (work : Work) (mode size : Nat) : Work × Bool :=
  let place := win.segLen + (work.out.bytes.length - win.start)
  match vcdAddr work.cache mode (place % 2 ^ 32) work.addr with
  | none => (work, false)
  | some (addr, cache, ap) =>
    let work := { work with
      cache := cache
      addr := ap
      copies := work.copies ++ [⟨win.origin, work.out.generation, mode, place, addr⟩] }
    match vcdCopy freed src work.out win addr size with
    | none => (work, false)
    | some bytes => ({ work with out := { work.out with bytes := bytes } }, true)

/-- An instruction of a known size, which has to fit in the window's target. -/
def vcdSized (src : List UInt8) (win : Window) (work : Work) (half : Half) (size : Nat) : Work × Bool :=
  if size = 0 ∨ win.stop - work.out.bytes.length < size then (work, false)
  else
    match half.kind with
    | .noop => (work, true)
    | .add =>
      if work.data.length < size then (work, false)
      else ({ work with data := work.data.drop size }.append (work.data.take size), true)
    | .run =>
      match work.data with
      | [] => (work, false)
      | b :: data => ({ work with data := data }.append (List.replicate size b), true)
    | .copy => vcdCopyInst freed src win work half.mode size

/-- One instruction, unless it does nothing. -/
def vcdHalf (src : List UInt8) (win : Window) (work : Work) (half : Half) : Work × Bool :=
  if half.kind = .noop then (work, true)
  else
    match half.read work.inst with
    | none => (work, false)
    | some (size, inst) => vcdSized freed src win { work with inst := inst } half size

/-- Both instructions of a code. -/
def vcdPair (src : List UInt8) (win : Window) (work : Work) (code : UInt8) : Work × Bool :=
  match vcdTable[code.toNat]? with
  | none => (work, false)
  | some pair =>
    match vcdHalf freed src win work pair.first with
    | (work, false) => (work, false)
    | (work, true) => vcdHalf freed src win work pair.second

/-- Codes are executed until the target is complete; the count bounds the codes left. -/
def vcdInstructions (src : List UInt8) (win : Window) : Nat → Work → Work × Bool
  | 0, work => (work, work.out.bytes.length == win.stop)
  | n + 1, work =>
    if work.out.bytes.length < win.stop then
      match work.inst with
      | [] => (work, false)
      | code :: inst =>
        match vcdPair freed src win { work with inst := inst } code with
        | (work, false) => (work, false)
        | (work, true) => vcdInstructions src win n work
    else (work, work.out.bytes.length == win.stop)

/-- A window decodes, or waits for source it has not been given yet, or is malformed. -/
inductive Win where
  | ok | wait | error
deriving DecidableEq

/-- The segment that a window's indicator announces, its length, and what follows in the header. -/
def vcdSegment (s : Stream) (winInd : UInt8) (p : List UInt8) : Except Win (Origin × Nat × List UInt8) :=
  if winInd.toNat % 4 = 0 then .ok (.none, 0, p)
  else
    match vcdVarint p with
    | none => .error .error
    | some (segLen, p) =>
      match vcdVarint p with
      | none => .error .error
      | some (segPos, p) =>
        if winInd.toNat % 2 = 1 then
          if s.srcLen < segPos ∨ s.srcLen - segPos < segLen then .error .error
          -- The segment may not have arrived yet, and nothing has been consumed.
          else if s.src.length < segPos + segLen then .error .wait
          else .ok (.source segPos, segLen, p)
        else if s.out.bytes.length < segPos ∨ s.out.bytes.length - segPos < segLen then
          .error .error
        else .ok (.target segPos s.out.generation, segLen, p)

/-- The length of a window's target, its three sections, and what follows the window. -/
structure Sections where
  tgtLen : Nat
  data : List UInt8
  inst : List UInt8
  addr : List UInt8
  rest : List UInt8
deriving DecidableEq

/-- The lengths of a window, none of whose sections may be compressed, and its sections. -/
def vcdSections (p : List UInt8) : Option Sections := do
  let (_, p) ← vcdVarint p
  let (tgtLen, p) ← vcdVarint p
  match p with
  | [] => none
  | deltaInd :: p =>
    if deltaInd ≠ 0 then none
    else
      let (dataLen, p) ← vcdVarint p
      let (instLen, p) ← vcdVarint p
      let (addrLen, p) ← vcdVarint p
      if p.length < dataLen ∨ p.length - dataLen < instLen ∨ p.length - dataLen - instLen < addrLen then none
      else
        return {
          tgtLen := tgtLen
          data := p.take dataLen
          inst := (p.drop dataLen).take instLen
          addr := (p.drop (dataLen + instLen)).take addrLen
          rest := p.drop (dataLen + instLen + addrLen) }

/-- The window whose header has been read. -/
def Stream.window (s : Stream) (origin : Origin) (segLen : Nat) (sections : Sections) : Window :=
  ⟨origin, segLen, s.out.bytes.length, sections.tgtLen⟩

/-- The work that a window's sections are, with empty caches and room made for the target. -/
def Stream.work (s : Stream) (out : Out) (sections : Sections) : Work :=
  ⟨out, vcdCacheReset, s.copies, sections.data, sections.inst, sections.addr⟩

/-- What the work on a window leaves. -/
def Stream.leave (s : Stream) (work : Work) : Stream :=
  { s with out := work.out, cache := work.cache, copies := work.copies }

/-- Room is made for the target of a window whose header has been read, and its codes are
executed. -/
def vcdTarget (s : Stream) (origin : Origin) (segLen : Nat) (sections : Sections) : Win × Stream :=
  let win := s.window origin segLen sections
  if sizeMax - win.start < win.tgtLen then (.error, s)
  else
    match vcdReserve s.out win.stop with
    | none => (.error, s)
    | some out =>
      match vcdInstructions freed s.src win sections.inst.length (s.work out sections) with
      | (work, true) => (.ok, { s.leave work with left := sections.rest })
      | (work, false) => (.error, s.leave work)

/-- The window at the front of what is left of the patch. -/
def vcdWindow (s : Stream) : Win × Stream :=
  match s.left with
  | [] => (.error, s)
  | winInd :: p =>
    match vcdSegment s winInd p with
    | .error result => (result, s)
    | .ok (origin, segLen, p) =>
      match vcdSections p with
      | none => (.error, s)
      | some sections => vcdTarget freed s origin segLen sections

/-- Every window whose source has arrived is decoded; the count bounds the bytes left. -/
def vcdDrain : Nat → Stream → Stream × Bool
  | 0, s => (s, true)
  | n + 1, s =>
    if s.left = [] then (s, true)
    else
      match vcdWindow freed s with
      | (.ok, s) => vcdDrain n s
      | (.wait, s) => (s, true)
      | (.error, s) => ({ s with failed := true }, false)

end Decoder

/-- The segment that a window's indicator announces is passed over. -/
def skipSegment (winInd : UInt8) (p : List UInt8) : Option (List UInt8) :=
  if winInd.toNat % 4 = 0 then some p
  else do
    let (_, p) ← vcdVarint p
    let (_, p) ← vcdVarint p
    return p

/-- The windows' target lengths are summed without decoding them; the count bounds the bytes left,
and a patch that cannot be followed gives none. -/
def totalLoop : Nat → Nat → List UInt8 → Option Nat
  | 0, total, _ => some total
  | _ + 1, total, [] => some total
  | n + 1, total, winInd :: p => do
    let p ← skipSegment winInd p
    let (_, p) ← vcdVarint p
    let (tgtLen, p) ← vcdVarint p
    match p with
    | [] => none
    | _ :: p =>
      let (dataLen, p) ← vcdVarint p
      let (instLen, p) ← vcdVarint p
      let (addrLen, p) ← vcdVarint p
      if p.length < dataLen ∨ p.length - dataLen < instLen ∨ p.length - dataLen - instLen < addrLen then none
      else if sizeMax - tgtLen < total then none
      else totalLoop n (total + tgtLen) (p.drop (dataLen + instLen + addrLen))

/-- The total of the target lengths, or zero when it cannot be told. -/
def vcdTotalTarget (p : List UInt8) : Nat := (totalLoop p.length 0 p).getD 0

/-- What follows the header of a patch that this decoder reads. -/
def vcdHeader : List UInt8 → Option (List UInt8)
  | 0xD6 :: 0xC3 :: 0xC4 :: 0x00 :: hdr :: p =>
    if hdr.toNat % 4 ≠ 0 then none
    else if hdr.toNat / 4 % 2 = 1 then do
      let (alen, p) ← vcdVarint p
      if p.length < alen then none else some (p.drop alen)
    else some p
  | _ => none

/-- An output with room for what the windows need, when that can be told. -/
def vcdRoom (hint : Nat) : Option Out := if hint = 0 then some {} else vcdReserve {} hint

/-- A decoder is opened for a patch and the length of its source. -/
def vcdiffStreamOpen (patch : List UInt8) (srcLen : Nat) : Option Stream := do
  let p ← vcdHeader patch
  let out ← vcdRoom (vcdTotalTarget p)
  return { left := p, srcLen := srcLen, out := out }

section Drivers

variable (freed : Nat → Nat → UInt8)

/-- More of the source arrives, and every window that can be is decoded. -/
def vcdiffStreamFeed (s : Stream) (chunk : List UInt8) : Nat × Stream :=
  if chunk = [] ∨ s.failed then (0, s)
  else
    let s := { s with src := s.src ++ chunk }
    match vcdDrain freed s.left.length s with
    | (s, true) => (chunk.length, s)
    | (s, false) => (0, s)

/-- The target, when the whole source has arrived and every window is decoded. -/
def vcdiffStreamFinish (s : Stream) : Option (List UInt8) :=
  if s.failed ∨ s.src.length < s.srcLen then none
  else
    match vcdDrain freed s.left.length s with
    | (s, true) => if s.left = [] then some s.out.bytes else none
    | (_, false) => none

/-- The decoder after a patch has been decoded against a whole source, and whether it could be. -/
def decodeStream (patch src : List UInt8) : Option (Stream × Bool) := do
  let s ← vcdiffStreamOpen patch src.length
  let (s, complete) := vcdDrain freed s.left.length { s with src := src }
  return (s, complete && s.left == [])

/-- A patch is decoded against a whole source. -/
def vcdiffDecode (patch src : List UInt8) : Option (List UInt8) := do
  let (s, complete) ← decodeStream freed patch src
  if complete then some s.out.bytes else none

end Drivers

end Libretro.Vcdiff
