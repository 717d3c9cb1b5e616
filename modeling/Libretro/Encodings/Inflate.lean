import Libretro.Library.BitString

/-! The inflate decoder: its data, and `rinflate_process`, one pass of its loops at a time. -/

namespace Libretro.Inflate

/-- Container selection. -/
inductive Wrap where
  | raw | zlib | gzip | auto
deriving DecidableEq

/-- `rinf_wrap_from_bits`. -/
def rinfWrapFromBits (windowBits : Int) : Wrap :=
  if windowBits < 0 then .raw
  else if windowBits ≤ 15 then .zlib
  else if windowBits ≤ 31 then .gzip
  else .auto

/-- Decoder phases. -/
inductive Phase where
  | hdrSniff | zheader | gzheader | gzExtra | gzName | gzComment | gzHcrc | gzcrc
  | blockHdr | storedLen | storedData | dynTable | blockData | adler | done
deriving DecidableEq

/-- `rinf_end_phase`. -/
def rinfEndPhase : Wrap → Phase
  | .zlib => .adler
  | .gzip => .gzcrc
  | _ => .done

/-- `rinf_start_phase`. -/
def rinfStartPhase : Wrap → Phase
  | .zlib => .zheader
  | .gzip => .gzheader
  | .auto => .hdrSniff
  | .raw => .blockHdr

/-- The bit buffer and the input window: `unread` is `in` from `in_pos` to `in_size`. -/
structure Bits where
  bitbuf : Nat
  bitcnt : Nat
  inPos : Nat
  unread : List UInt8
deriving DecidableEq

/-- The loop that `rinf_need` and `rinf_decode` read whole bytes with. -/
def fill (limit : Nat) : List UInt8 → Bits → Bits
  | [], bits => bits
  | byte :: rest, bits =>
    if bits.bitcnt < limit then
      fill limit rest
        { bitbuf := bits.bitbuf ||| byte.toNat <<< bits.bitcnt
          bitcnt := bits.bitcnt + 8
          inPos := bits.inPos + 1
          unread := rest }
    else bits

/-- `rinf_need`: whether `n` bits are there, and the bits after it looked. -/
def rinfNeed (n : Nat) (bits : Bits) : Bool × Bits :=
  let filled := fill n bits.unread bits
  (decide (n ≤ filled.bitcnt), filled)

/-- The lowest bits of the buffer. -/
def Bits.peek (bits : Bits) (n : Nat) : Nat := bits.bitbuf &&& ((1 <<< n) - 1)

/-- Bits leave the buffer. -/
def Bits.shift (bits : Bits) (n : Nat) : Bits :=
  { bits with bitbuf := bits.bitbuf >>> n, bitcnt := bits.bitcnt - n }

/-- `rinf_getbits`. -/
def rinfGetbits (n : Nat) (bits : Bits) : Nat × Bits := (bits.peek n, bits.shift n)

/-- The bits up to the next byte boundary of the input leave the buffer. -/
def Bits.align (bits : Bits) : Bits := bits.shift (bits.bitcnt &&& 7)

/-- `RINF_FAST_BITS`. -/
def rinfFastBits : Nat := 11

/-- `RINF_MAX_BITS`. -/
def rinfMaxBits : Nat := 15

/-- `struct rinf_huff`, its arrays as functions of the index. -/
structure Huff where
  fast : Nat → Nat
  pfast : Nat → Nat
  firstcode : Nat → Nat
  firstsym : Nat → Nat
  maxcode : Nat → Nat
  size : Nat → Nat
  value : Nat → Nat
  numSymbols : Nat

/-- A table as `calloc` leaves it. -/
def Huff.zero : Huff :=
  { fast := fun _ => 0, pfast := fun _ => 0, firstcode := fun _ => 0, firstsym := fun _ => 0
    maxcode := fun _ => 0, size := fun _ => 0, value := fun _ => 0, numSymbols := 0 }

/-- One element of an array is stored to. -/
def update (array : Nat → Nat) (index new : Nat) : Nat → Nat :=
  fun other => if other = index then new else array other

/-- How many symbols have a code of each length; length zero means no code. -/
def sizes (lengths : List Nat) (len : Nat) : Nat := if len = 0 then 0 else lengths.count len

/-- The codes left after each of the next lengths; `none` when a length has too many. -/
def leftOver (sizes : Nat → Nat) : Nat → Nat → Nat → Option Nat
  | 0, _, left => some left
  | n + 1, len, left =>
    if left <<< 1 < sizes len then none
    else leftOver sizes n (len + 1) (left <<< 1 - sizes len)

/-- `code` as the loop over the lengths starts on length `i`, from one on. -/
def codeAt (sizes : Nat → Nat) : Nat → Nat
  | 0 => 0
  | i + 1 => (codeAt sizes i + sizes i) <<< 1

/-- `k` as the loop over the lengths starts on length `i`, from one on. -/
def symAt (sizes : Nat → Nat) : Nat → Nat
  | 0 => 0
  | i + 1 => symAt sizes i + sizes i

/-- An array indexed by code length takes new values at the lengths a code can have. -/
def overLengths (new old : Nat → Nat) (len : Nat) : Nat :=
  if 1 ≤ len ∧ len ≤ rinfMaxBits then new len else old len

/-- The splat of one code: every index whose lowest `len` bits are the reversed code. -/
def splat (fast : Nat → Nat) (len rev entry : Nat) : Nat → Nat :=
  fun j => if j % 2 ^ len = rev then entry else fast j

/-- The loop that gives the symbols from `i` on their codes. -/
def assign : List Nat → Nat → (Nat → Nat) → Huff → Huff
  | [], _, _, h => h
  | len :: rest, i, nextCode, h =>
    if len = 0 then assign rest (i + 1) nextCode h
    else
      let c := nextCode len
      let sym := h.firstsym len + (c - h.firstcode len)
      let fast := if len ≤ rinfFastBits then
        splat h.fast len (BitString.reversed c len) (i <<< 4 ||| len) else h.fast
      assign rest (i + 1) (update nextCode len (c + 1))
        { h with size := update h.size sym len, value := update h.value sym i, fast := fast }

/-- `rinf_build`: the table, and whether the lengths made a code. -/
def rinfBuild (h : Huff) (lengths : List Nat) : Bool × Huff :=
  let h := { h with fast := fun _ => 0 }
  let sizes := sizes lengths
  if lengths.any (decide <| rinfMaxBits < ·) then (false, h)
  else if leftOver sizes rinfMaxBits 1 1 = none then (false, h)
  else
    let firstcode := fun len => codeAt sizes len % 2 ^ 16
    let maxcode := fun len => (codeAt sizes len + sizes len) % 2 ^ 16
    (true, assign lengths 0 (codeAt sizes)
      { h with
        firstcode := overLengths firstcode h.firstcode
        firstsym := overLengths (symAt sizes) h.firstsym
        maxcode := update (overLengths maxcode h.maxcode) (rinfMaxBits + 1) 0xFFFF
        numSymbols := lengths.length })

/-- What `rinf_decode` returns: a symbol, `-1` or `-2`. -/
inductive Decoded where
  | sym (value : Nat) | short | invalid
deriving DecidableEq

/-- The slow path of `rinf_decode`, with the lengths that are left to try. -/
def decodeSlow (h : Huff) : Nat → Nat → Nat → Bits → Decoded × Bits
  | 0, _, _, bits => (.invalid, bits)
  | n + 1, len, rev, bits =>
    let (enough, bits) := rinfNeed len bits
    if enough then
      let rev := rev <<< 1 ||| bits.bitbuf >>> (len - 1) &&& 1
      if rev < h.maxcode len then
        (.sym (h.value (h.firstsym len + (rev - h.firstcode len))), bits.shift len)
      else decodeSlow h n (len + 1) rev bits
    else (.short, bits)

/-- `rinf_decode`. -/
def rinfDecode (h : Huff) (bits : Bits) : Decoded × Bits :=
  let bits := fill 57 bits.unread bits
  let f := h.fast (bits.peek rinfFastBits)
  if f ≠ 0 then
    let len := f &&& 15
    if len ≤ bits.bitcnt then (.sym (f >>> 4), bits.shift len) else (.short, bits)
  else decodeSlow h rinfMaxBits 1 0 bits

/-- `rinf_len_base`. -/
def rinfLenBase : List Nat :=
  [3, 4, 5, 6, 7, 8, 9, 10, 11, 13, 15, 17, 19, 23, 27, 31, 35, 43, 51, 59,
   67, 83, 99, 115, 131, 163, 195, 227, 258]

/-- `rinf_len_extra`. -/
def rinfLenExtra : List Nat :=
  [0, 0, 0, 0, 0, 0, 0, 0, 1, 1, 1, 1, 2, 2, 2, 2, 3, 3, 3, 3, 4, 4, 4, 4, 5, 5, 5, 5, 0]

/-- `rinf_dist_base`. -/
def rinfDistBase : List Nat :=
  [1, 2, 3, 4, 5, 7, 9, 13, 17, 25, 33, 49, 65, 97, 129, 193, 257, 385, 513, 769,
   1025, 1537, 2049, 3073, 4097, 6145, 8193, 12289, 16385, 24577]

/-- `rinf_dist_extra`. -/
def rinfDistExtra : List Nat :=
  [0, 0, 0, 0, 1, 1, 2, 2, 3, 3, 4, 4, 5, 5, 6, 6, 7, 7, 8, 8, 9, 9, 10, 10, 11, 11, 12, 12, 13, 13]

/-- `rinf_clc_order`. -/
def rinfClcOrder : List Nat := [16, 17, 18, 0, 8, 7, 9, 6, 10, 5, 11, 4, 12, 3, 13, 2, 14, 1, 15]

/-- `RINF_PF_LIT`. -/
def rinfPfLit : Nat := 1 <<< 9

/-- `RINF_PF_EOB`. -/
def rinfPfEob : Nat := 1 <<< 10

/-- `RINF_PF_BAD`. -/
def rinfPfBad : Nat := 1 <<< 11

/-- The packed entry that `rinf_pack_len` makes of a fast entry. -/
def packLen (f : Nat) : Nat :=
  if f = 0 then 0
  else
    let sym := f >>> 4
    let len := f &&& 15
    if sym < 256 then len ||| rinfPfLit ||| sym <<< 16
    else if sym = 256 then len ||| rinfPfEob
    else if sym - 257 < 29 then
      len ||| (len + rinfLenExtra.getD (sym - 257) 0) <<< 4
        ||| rinfLenBase.getD (sym - 257) 0 <<< 16
    else len ||| rinfPfBad

/-- The packed entry that `rinf_pack_dist` makes of a fast entry. -/
def packDist (f : Nat) : Nat :=
  if f = 0 then 0
  else
    let sym := f >>> 4
    let len := f &&& 15
    if sym < 30 then
      len ||| (len + rinfDistExtra.getD sym 0) <<< 4 ||| rinfDistBase.getD sym 0 <<< 16
    else len ||| rinfPfBad

/-- `rinf_pack_len`. -/
def rinfPackLen (h : Huff) : Huff := { h with pfast := fun j => packLen (h.fast j) }

/-- `rinf_pack_dist`. -/
def rinfPackDist (h : Huff) : Huff := { h with pfast := fun j => packDist (h.fast j) }

/-- `rd_adler32_update`, with the remainders taken after every byte. -/
def rdAdler32Update (adler : UInt32) (bytes : List UInt8) : UInt32 :=
  let (a, b) := bytes.foldl (fun (a, b) byte =>
      let a := (a + byte.toNat) % 65521
      (a, (b + a) % 65521))
    (adler.toNat &&& 0xFFFF, adler.toNat >>> 16 &&& 0xFFFF)
  UInt32.ofNat (b <<< 16 ||| a)

/-- One bit of the reflected division by the checksum's polynomial. -/
def crcBit (crc : UInt32) : UInt32 := if crc &&& 1 = 1 then crc >>> 1 ^^^ 0xEDB88320 else crc >>> 1

/-- One byte of the checksum, bit by bit where the source looks its table up. -/
def crcByte (crc : UInt32) (byte : UInt8) : UInt32 :=
  let index := (crc ^^^ byte.toUInt32) &&& 0xFF
  Nat.iterate crcBit 8 index ^^^ crc >>> 8

/-- `encoding_crc32`. -/
def encodingCrc32 (crc : UInt32) (bytes : List UInt8) : UInt32 := ~~~(bytes.foldl crcByte (~~~crc))

/--
`struct rinflate`.

`out` holds the bytes stored into the output buffer since it was bound, so its length is one past
the furthest of them; past `outPos` it holds what the copies wrote over their end.
-/
structure State where
  phase : Phase
  bits : Bits
  out : List UInt8
  outSize : Nat
  outPos : Nat
  window : Nat → UInt8
  whave : Nat
  wnext : Nat
  wprior : Nat
  wcur : Nat
  wrap : Wrap
  wrapped : Bool
  stopAtBlock : Bool
  blockReady : Bool
  firstBlockReported : Bool
  skipBits : Nat
  bfinal : Bool
  btype : Nat
  storedLen : Nat
  lencode : Huff
  distcode : Huff
  fixedLoaded : Bool
  haveTables : Bool
  hlit : Int
  hdist : Int
  hclen : Int
  clcode : Huff
  clLengths : List Nat
  lengths : List Nat
  lengthsHave : Nat
  clcodesRead : Nat
  clcodeBuilt : Bool
  clPendingSym : Int
  copyLen : Nat
  copyDist : Nat
  copyActive : Bool
  ldStep : Nat
  ldLensym : Nat
  ldLength : Nat
  ldDistsym : Nat
  pendingLit : UInt8
  havePendingLit : Bool
  adler : UInt32
  adlerRead : UInt32
  adlerHave : Nat
  crc : UInt32
  totalOut : UInt32
  gzFlg : Nat
  gzCount : Nat
  gzStep : Nat
  error : Bool

/-- `rinflate_new`. -/
def rinflateNew (windowBits : Int) : State :=
  let wrap := rinfWrapFromBits windowBits
  { phase := rinfStartPhase wrap
    bits := { bitbuf := 0, bitcnt := 0, inPos := 0, unread := [] }
    out := [], outSize := 0, outPos := 0
    window := fun _ => 0, whave := 0, wnext := 0, wprior := 0, wcur := 0
    wrap := wrap, wrapped := wrap ≠ .raw
    stopAtBlock := false, blockReady := false, firstBlockReported := false
    skipBits := 0, bfinal := false, btype := 0, storedLen := 0
    lencode := .zero, distcode := .zero, fixedLoaded := false, haveTables := false
    hlit := 0, hdist := 0, hclen := 0
    clcode := .zero, clLengths := List.replicate 19 0, lengths := List.replicate (288 + 32) 0
    lengthsHave := 0, clcodesRead := 0, clcodeBuilt := false, clPendingSym := 0
    copyLen := 0, copyDist := 0, copyActive := false
    ldStep := 0, ldLensym := 0, ldLength := 0, ldDistsym := 0
    pendingLit := 0, havePendingLit := false
    adler := 1, adlerRead := 0, adlerHave := 0
    crc := encodingCrc32 0 [], totalOut := 0, gzFlg := 0, gzCount := 0, gzStep := 0
    error := false }

/-- `rinflate_reset`, which leaves the window, the tables and the block stops as they are. -/
def rinflateReset (s : State) (windowBits : Int) : State :=
  { rinflateNew windowBits with
    window := s.window, lencode := s.lencode, distcode := s.distcode, clcode := s.clcode
    stopAtBlock := s.stopAtBlock, firstBlockReported := s.firstBlockReported }

/-- `rinflate_set_in`. -/
def rinflateSetIn (s : State) (bytes : List UInt8) : State :=
  { s with bits := { s.bits with inPos := 0, unread := bytes } }

/-- `rinflate_set_out`. -/
def rinflateSetOut (s : State) (size : Nat) : State :=
  { s with out := [], outSize := size, outPos := 0, wcur := 0, wprior := s.whave }

/-- `rinflate_extend_out`; what copies wrote past `outPos` counts afresh. -/
def rinflateExtendOut (s : State) (size : Nat) : State :=
  if s.outPos ≤ size then { s with outSize := size, out := s.out.take s.outPos } else s

/-- Bytes are copied into the ring, which they do not run over the end of. -/
def putWindow (window : Nat → UInt8) (start : Nat) (bytes : List UInt8) : Nat → UInt8 :=
  fun i => if start ≤ i ∧ i < start + bytes.length then bytes.getD (i - start) 0 else window i

/-- `rinflate_set_dictionary`. -/
def rinflateSetDictionary (s : State) (dict : List UInt8) : State :=
  let dict := dict.drop (dict.length - 32768)
  { s with
    window := putWindow s.window 0 dict
    whave := dict.length
    wnext := dict.length &&& 32767
    wcur := 0
    wprior := dict.length }

/-- `rinflate_set_stop_at_block`. -/
def rinflateSetStopAtBlock (s : State) (stop : Bool) : State := { s with stopAtBlock := stop }

/-- `rinflate_tell_bits`. -/
def rinflateTellBits (s : State) : Nat := s.bits.inPos * 8 - s.bits.bitcnt

/-- `rinflate_set_start_bit`. -/
def rinflateSetStartBit (s : State) (bits : Nat) : State := { s with skipBits := bits &&& 7 }

/-- The code lengths of the fixed literal and length code, `ll`. -/
def fixedLitLengths : List Nat :=
  List.replicate 144 8 ++ List.replicate 112 9 ++ List.replicate 24 7 ++ List.replicate 8 8

/-- The code lengths of the fixed distance code, `dd`. -/
def fixedDistLengths : List Nat := List.replicate 30 5

/-- `rinf_fixed_tables`. -/
def rinfFixedTables (s : State) : State :=
  if s.fixedLoaded then { s with haveTables := true }
  else
    { s with
      lencode := rinfPackLen (rinfBuild s.lencode fixedLitLengths).2
      distcode := rinfPackDist (rinfBuild s.distcode fixedDistLengths).2
      haveTables := true
      fixedLoaded := true }

/-- Bytes are stored into the output buffer. -/
def store (out : List UInt8) (start : Nat) (bytes : List UInt8) : List UInt8 :=
  out.take start ++ bytes ++ out.drop (start + bytes.length)

/-- `rinf_emit`; `none` when the output is full. -/
def rinfEmit (s : State) (b : UInt8) : Option State :=
  if s.outSize ≤ s.outPos then none
  else some { s with out := store s.out s.outPos [b], outPos := s.outPos + 1 }

/-- `rinf_back`. -/
def rinfBack (s : State) (dist : Nat) : UInt8 :=
  if s.outPos < dist then
    let back := (dist + 2 ^ 32 - s.outPos % 2 ^ 32 + s.wcur) % 2 ^ 32
    s.window ((s.wnext + 32768 + 2 ^ 32 - back) % 2 ^ 32 &&& 32767)
  else s.out.getD (s.outPos - dist) 0

/-- `rinf_window_commit`. -/
def rinfWindowCommit (s : State) : State :=
  let made := (s.out.take s.outPos).drop s.wcur
  if made.length = 0 then s
  else
    let src := made.drop (made.length - 32768)
    let first := min src.length (32768 - s.wnext)
    let wraps := first < src.length
    let window := putWindow s.window s.wnext (src.take first)
    let window := if wraps then putWindow window 0 (src.drop first) else window
    let wnext := if s.wnext + first = 32768 then 0 else s.wnext + first
    let wnext := if wraps then src.length - first else wnext
    let whave := min (s.whave + src.length) 32768
    let wcur := s.outPos % 2 ^ 32
    { s with
      window := window
      wnext := wnext
      whave := whave
      wcur := wcur
      wprior := if wcur < whave then whave - wcur else 0 }

/-- What a call of `rinflate_process` returns. -/
inductive Status where
  | next | block | done | error
deriving DecidableEq

/-- The locals of the fast loop; `pre` is the preloaded entry while there is one. -/
structure Locals where
  bits : Bits
  outPos : Nat
  pre : Option Nat
deriving DecidableEq

/-- Where a call stands: at the loops' heads, and in a round of the fast loop behind its load. -/
inductive Pc where
  | enter
  | dispatch
  | storedBytes
  | fastAgain
  | fast (locals : Locals)
  | chain (locals : Locals) (e : Nat)
  | careful
deriving DecidableEq

/-- A call that has not returned: the decoder and the call's own locals. -/
structure Call where
  s : State
  pc : Pc
  inStart : Nat
  outStart : Nat
  foldStart : Nat

/-- A pass leads on to the next one or out of the call. -/
inductive Turn where
  | on (call : Call)
  | back (status : Status) (s : State) (read wrote : Nat)

/-- The output that the checksum has not been folded over yet. -/
def Call.unfolded (c : Call) : List UInt8 := (c.s.out.take c.s.outPos).drop c.foldStart

/-- The `done` label. -/
def finish (c : Call) (status : Status) : Turn :=
  let s := rinfWindowCommit c.s
  let s := if c.foldStart < s.outPos then
      match s.wrap with
      | .zlib => { s with adler := rdAdler32Update s.adler c.unfolded }
      | .gzip =>
        { s with
          crc := encodingCrc32 s.crc c.unfolded
          totalOut := s.totalOut + UInt32.ofNat (s.outPos - c.foldStart) }
      | _ => s
    else s
  .back status s (s.bits.inPos - c.inStart) (s.outPos - c.outStart)

/-- The `suspend` label. -/
def suspend (c : Call) : Turn := finish c .next

/-- The `error` label, with the flag that every way to it has set. -/
def fail (c : Call) : Turn :=
  let s := { c.s with error := true }
  let s := if s.wrapped ∧ c.foldStart < s.outPos then
    { s with adler := rdAdler32Update s.adler c.unfolded } else s
  .back .error s (s.bits.inPos - c.inStart) (s.outPos - c.outStart)

/-- The call goes on from another place. -/
def Call.goto (c : Call) (pc : Pc) : Turn := .on { c with pc := pc }

/-- The call goes on in another phase. -/
def Call.enterPhase (c : Call) (phase : Phase) : Turn :=
  .on { c with s := { c.s with phase := phase }, pc := .dispatch }

/-- The decoder's bits change. -/
def Call.setBits (c : Call) (bits : Bits) : Call := { c with s := { c.s with bits := bits } }

/-- What follows once `n` bits are there; the call is suspended when they are not. -/
def needing (n : Nat) (c : Call) (next : Call → Turn) : Turn :=
  let (enough, bits) := rinfNeed n c.s.bits
  if enough then next (c.setBits bits) else suspend (c.setBits bits)

/-- What follows with the next `n` bits, which are there. -/
def getting (n : Nat) (c : Call) (next : Nat → Call → Turn) : Turn :=
  let (v, bits) := rinfGetbits n c.s.bits
  next v (c.setBits bits)

/-- The bits that `rinflate_set_start_bit` skips. -/
def skipping (c : Call) : Turn :=
  if c.s.skipBits ≠ 0 then
    needing c.s.skipBits c fun c => getting c.s.skipBits c fun _ c =>
      .on { c with s := { c.s with skipBits := 0 }, pc := .dispatch }
  else c.goto .dispatch

/-- `RINF_HDR_SNIFF`. -/
def hdrSniff (c : Call) : Turn :=
  needing 8 c fun c =>
    let wrap := if c.s.bits.bitbuf &&& 0xFF = 0x1F then .gzip else .zlib
    .on { c with s := { c.s with wrap := wrap, phase := rinfStartPhase wrap } }

/-- The six bytes of the gzip header that nothing is read from. -/
def gzSkip : Nat → Call → Turn
  | 0, c => .on { c with s := { c.s with gzStep := 0, gzCount := 0, phase := .gzExtra } }
  | n + 1, c => needing 8 c fun c => getting 8 c fun _ c => gzSkip n c

/-- `RINF_GZHEADER`. -/
def gzHeader (c : Call) : Turn :=
  needing 16 c fun c => getting 8 c fun id1 c => getting 8 c fun id2 c =>
    if id1 ≠ 0x1F ∨ id2 ≠ 0x8B then fail c
    else needing 16 c fun c => getting 8 c fun cm c => getting 8 c fun flg c =>
      let c := { c with s := { c.s with gzFlg := flg } }
      if cm ≠ 8 then fail c
      else if flg &&& 0xE0 ≠ 0 then fail c
      else gzSkip 6 c

/-- `RINF_GZ_EXTRA`; a pass of its loop comes back through the switch. -/
def gzExtra (c : Call) : Turn :=
  if c.s.gzFlg &&& 0x04 = 0 then c.enterPhase .gzName
  else if c.s.gzStep = 0 then
    needing 16 c fun c => getting 8 c fun low c => getting 8 c fun high c =>
      .on { c with s := { c.s with gzCount := low ||| high <<< 8, gzStep := 1 } }
  else if c.s.gzCount ≠ 0 then
    needing 8 c fun c => getting 8 c fun _ c =>
      .on { c with s := { c.s with gzCount := c.s.gzCount - 1 } }
  else .on { c with s := { c.s with gzStep := 0, phase := .gzName } }

/-- `RINF_GZ_NAME` and `RINF_GZ_COMMENT`: bytes up to a zero, when the header's flag is set. -/
def gzText (flag : Nat) (after : Phase) (c : Call) : Turn :=
  if c.s.gzFlg &&& flag = 0 then c.enterPhase after
  else needing 8 c fun c => getting 8 c fun byte c =>
    if byte = 0 then c.enterPhase after else c.goto .dispatch

/-- `RINF_GZ_NAME`. -/
def gzName : Call → Turn := gzText 0x08 .gzComment

/-- `RINF_GZ_COMMENT`. -/
def gzComment : Call → Turn := gzText 0x10 .gzHcrc

/-- `RINF_GZ_HCRC`. -/
def gzHcrc (c : Call) : Turn :=
  if c.s.gzFlg &&& 0x02 ≠ 0 then
    needing 16 c fun c => getting 8 c fun _ c => getting 8 c fun _ c => c.enterPhase .blockHdr
  else c.enterPhase .blockHdr

/-- `RINF_ZHEADER`. -/
def zHeader (c : Call) : Turn :=
  needing 16 c fun c => getting 8 c fun cmf c => getting 8 c fun flg c =>
    if cmf &&& 0x0F ≠ 8 then fail c
    else if (cmf <<< 8 ||| flg) % 31 ≠ 0 then fail c
    else if flg &&& 0x20 ≠ 0 then fail c
    else c.enterPhase .blockHdr

/-- The gzip checksum is folded over what this call has produced. -/
def foldCrc (c : Call) : Call :=
  if c.foldStart < c.s.outPos then
    { c with
      s := { c.s with
        crc := encodingCrc32 c.s.crc c.unfolded
        totalOut := c.s.totalOut + UInt32.ofNat (c.s.outPos - c.foldStart) }
      foldStart := c.s.outPos }
  else c

/-- `RINF_GZCRC`; a pass of its loop comes back through the switch. -/
def gzCrc (c : Call) : Turn :=
  let c := foldCrc c
  let c := c.setBits c.s.bits.align
  if c.s.adlerHave < 8 then
    needing 8 c fun c => getting 8 c fun byte c =>
      let read := c.s.adlerRead ||| UInt32.ofNat (byte <<< ((c.s.adlerHave &&& 3) * 8))
      let have' := c.s.adlerHave + 1
      if have' = 4 then
        if read ≠ c.s.crc then
          fail { c with s := { c.s with adlerRead := read, adlerHave := have' } }
        else .on { c with s := { c.s with adlerRead := 0, adlerHave := have' } }
      else .on { c with s := { c.s with adlerRead := read, adlerHave := have' } }
  else if c.s.adlerRead ≠ c.s.totalOut then fail c
  else c.enterPhase .done

/-- The zlib checksum is folded over what this call has produced. -/
def foldAdler (c : Call) : Call :=
  if c.foldStart < c.s.outPos then
    { c with
      s := { c.s with adler := rdAdler32Update c.s.adler c.unfolded }
      foldStart := c.s.outPos }
  else c

/-- `RINF_ADLER`; a pass of its loop comes back through the switch. -/
def adlerTrailer (c : Call) : Turn :=
  let c := foldAdler c
  let c := c.setBits c.s.bits.align
  if c.s.adlerHave < 4 then
    needing 8 c fun c => getting 8 c fun byte c =>
      .on { c with s := { c.s with
        adlerRead := c.s.adlerRead <<< 8 ||| UInt32.ofNat byte
        adlerHave := c.s.adlerHave + 1 } }
  else if c.s.adlerRead ≠ c.s.adler then fail c
  else c.enterPhase .done

/-- `RINF_BLOCK_HDR`. -/
def blockHdr (c : Call) : Turn :=
  if c.s.stopAtBlock ∧ ¬c.s.firstBlockReported then
    finish { c with s := { c.s with firstBlockReported := true } } .block
  else if c.s.blockReady then finish { c with s := { c.s with blockReady := false } } .block
  else needing 3 c fun c => getting 1 c fun bfinal c => getting 2 c fun btype c =>
    let c := { c with s := { c.s with bfinal := bfinal ≠ 0, btype := btype } }
    if btype = 0 then (c.setBits c.s.bits.align).enterPhase .storedLen
    else if btype = 1 then
      .on { c with s := { rinfFixedTables c.s with copyActive := false, phase := .blockData } }
    else if btype = 2 then
      .on { c with s := { c.s with
        lengthsHave := 0, clcodesRead := 0, hlit := -1, hdist := -1, hclen := -1
        phase := .dynTable } }
    else fail c

/-- A block is over. -/
def blockEnd (c : Call) : Turn :=
  .on { c with
    s := { c.s with
      phase := if c.s.bfinal then rinfEndPhase c.s.wrap else .blockHdr
      blockReady := (¬c.s.bfinal ∧ c.s.stopAtBlock) ∨ c.s.blockReady }
    pc := .dispatch }

/-- `RINF_STORED_LEN`. -/
def storedLen (c : Call) : Turn :=
  needing 32 c fun c => getting 16 c fun len c => getting 16 c fun nlen c =>
    if len ^^^ 0xFFFF ≠ nlen then fail c
    else .on { c with s := { c.s with storedLen := len, phase := .storedData } }

/-- The bulk copy of `RINF_STORED_DATA`. -/
def storedBulk (c : Call) : Turn :=
  if 0 < c.s.storedLen ∧ c.s.bits.bitcnt = 0 then
    let bits := c.s.bits
    let n := min (min c.s.storedLen bits.unread.length) (c.s.outSize - c.s.outPos)
    let c := { c with s := { c.s with
      out := store c.s.out c.s.outPos (bits.unread.take n)
      outPos := c.s.outPos + n
      bits := { bits with inPos := bits.inPos + n, unread := bits.unread.drop n }
      storedLen := c.s.storedLen - n } }
    if 0 < c.s.storedLen then suspend c else c.goto .storedBytes
  else c.goto .storedBytes

/-- `RINF_STORED_DATA`, up to its second loop. -/
def storedData (c : Call) : Turn :=
  if c.s.havePendingLit then
    match rinfEmit c.s c.s.pendingLit with
    | none => suspend c
    | some s => storedBulk { c with s := { s with havePendingLit := false, storedLen := s.storedLen - 1 } }
  else storedBulk c

/-- A pass of the second loop of `RINF_STORED_DATA`, or what follows it. -/
def storedBytes (c : Call) : Turn :=
  if 0 < c.s.storedLen then
    needing 8 c fun c => getting 8 c fun v c =>
      let b := UInt8.ofNat v
      match rinfEmit c.s b with
      | none => suspend { c with s := { c.s with pendingLit := b, havePendingLit := true } }
      | some s => .on { c with s := { s with storedLen := s.storedLen - 1 } }
  else blockEnd c

/-- The counts at the head of `RINF_DYN_TABLE`. -/
def dynCounts (c : Call) : Turn :=
  needing 14 c fun c => getting 5 c fun hlit c => getting 5 c fun hdist c =>
    getting 4 c fun hclen c =>
      .on { c with s := { c.s with
        hlit := hlit + 257, hdist := hdist + 1, hclen := hclen + 4
        clcodesRead := 0, clcodeBuilt := false, clPendingSym := -1
        lengths := List.replicate (288 + 32) 0, clLengths := List.replicate 19 0 } }

/-- A code length is stored over and over. -/
def storeLengths (val : Nat) : Nat → Nat → List Nat → List Nat
  | 0, _, lengths => lengths
  | n + 1, have', lengths => storeLengths val n (have' + 1) (lengths.set have' val)

/-- A code length's repetitions, once their count has been read. -/
def dynRepeat (val times : Nat) (c : Call) : Turn :=
  let c := { c with s := { c.s with clPendingSym := -1 } }
  if c.s.hlit + c.s.hdist < Int.ofNat (c.s.lengthsHave + times) then fail c
  else .on { c with s := { c.s with
    lengths := storeLengths val times c.s.lengthsHave c.s.lengths
    lengthsHave := c.s.lengthsHave + times } }

/-- What a symbol of the code length code stands for. -/
def dynSymbol (sym : Nat) (c : Call) : Turn :=
  if sym < 16 then
    .on { c with s := { c.s with
      clPendingSym := -1
      lengths := c.s.lengths.set c.s.lengthsHave sym
      lengthsHave := c.s.lengthsHave + 1 } }
  else
    let c := { c with s := { c.s with clPendingSym := sym } }
    if sym = 16 then
      if c.s.lengthsHave = 0 then fail c
      else needing 2 c fun c => getting 2 c fun v c =>
        dynRepeat (c.s.lengths.getD (c.s.lengthsHave - 1) 0) (3 + v) c
    else if sym = 17 then needing 3 c fun c => getting 3 c fun v c => dynRepeat 0 (3 + v) c
    else needing 7 c fun c => getting 7 c fun v c => dynRepeat 0 (11 + v) c

/-- Both tables are built from the code lengths. -/
def dynBuild (c : Call) : Turn :=
  let lit := rinfBuild c.s.lencode (c.s.lengths.take c.s.hlit.toNat)
  let c := { c with s := { c.s with fixedLoaded := false, lencode := lit.2 } }
  if lit.1 then
    let dist := rinfBuild c.s.distcode ((c.s.lengths.drop c.s.hlit.toNat).take c.s.hdist.toNat)
    if dist.1 then
      .on { c with s := { c.s with
        lencode := rinfPackLen c.s.lencode
        distcode := rinfPackDist dist.2
        haveTables := true, copyActive := false, phase := .blockData } }
    else fail { c with s := { c.s with distcode := dist.2 } }
  else fail c

/-- `RINF_DYN_TABLE`; a pass of its loops comes back through the switch. -/
def dynTable (c : Call) : Turn :=
  if c.s.hlit < 0 then dynCounts c
  else if c.s.clcodesRead < c.s.hclen then
    needing 3 c fun c => getting 3 c fun v c =>
      .on { c with s := { c.s with
        clLengths := c.s.clLengths.set (rinfClcOrder.getD c.s.clcodesRead 0) v
        clcodesRead := c.s.clcodesRead + 1 } }
  else if ¬c.s.clcodeBuilt then
    let built := rinfBuild c.s.clcode c.s.clLengths
    let c := { c with s := { c.s with clcode := built.2 } }
    if built.1 then .on { c with s := { c.s with clcodeBuilt := true } } else fail c
  else if c.s.lengthsHave < c.s.hlit + c.s.hdist then
    if c.s.clPendingSym < 0 then
      let (sym, bits) := rinfDecode c.s.clcode c.s.bits
      let c := c.setBits bits
      match sym with
      | .short => suspend c
      | .invalid => fail c
      | .sym sym => dynSymbol sym c
    else dynSymbol c.s.clPendingSym.toNat c
  else dynBuild c

/-- The eight bytes that are loaded at once, as a number. -/
def littleEndian : List UInt8 → Nat
  | [] => 0
  | byte :: rest => byte.toNat ||| littleEndian rest <<< 8

/-- The refill at the head of a round. -/
def fastRefill (bits : Bits) : Bits :=
  let nb := (63 - bits.bitcnt) >>> 3
  let keep := (1 <<< (8 * nb)) - 1
  { bitbuf := bits.bitbuf ||| (littleEndian (bits.unread.take 8) &&& keep) <<< bits.bitcnt
    bitcnt := bits.bitcnt + nb * 8
    inPos := bits.inPos + nb
    unread := bits.unread.drop nb }

/-- Copies of `w` bytes at a time from `dist` back. -/
def copySteps (w dist : Nat) : Nat → Nat → List UInt8 → List UInt8
  | 0, _, out => out
  | n + 1, dst, out => copySteps w dist n (dst + w) (store out dst ((out.drop (dst - dist)).take w))

/-- Stores of one pattern after another. -/
def patternSteps (pattern : List UInt8) : Nat → Nat → List UInt8 → List UInt8
  | 0, _, out => out
  | n + 1, dst, out => patternSteps pattern n (dst + pattern.length) (store out dst pattern)

/-- Two words of the last `dist` bytes over and over. -/
def broadcast (out : List UInt8) (dst dist : Nat) : List UInt8 :=
  (List.range 16).map fun k => out.getD (dst - dist + k % dist) 0

/-- The match copy of the fast loop, with the rounds its loops make for the length. -/
def fastCopy (out : List UInt8) (dst dist length : Nat) : List UInt8 :=
  if 16 ≤ dist then copySteps 16 dist ((length + 15) / 16) dst out
  else if 8 ≤ dist then copySteps 8 dist ((length + 7) / 8) dst out
  else if dist = 1 ∨ dist = 2 ∨ dist = 4 then
    patternSteps (broadcast out dst dist) ((length + 15) / 16) dst out
  else
    let out := copySteps 1 dist (if length < 16 then length else 16) dst out
    if 16 < length then
      copySteps 8 (dist * (16 / dist)) ((length - 16 + 7) / 8) (dst + 16) out
    else out

/-- The locals are written back. -/
def Call.writeBack (c : Call) (l : Locals) : Call :=
  { c with s := { c.s with bits := l.bits, outPos := l.outPos } }

/-- The fast loop is left for the careful path. -/
def leaveFast (l : Locals) (c : Call) : Turn := (c.writeBack l).goto .careful

/-- An error in the fast loop, which writes nothing back but the output position. -/
def failFast (l : Locals) (c : Call) : Turn := fail { c with s := { c.s with outPos := l.outPos } }

/-- The match copy, and the entry preloaded behind it. -/
def fastMatch (l : Locals) (length dist : Nat) (c : Call) : Turn :=
  if l.outPos + c.s.wprior < dist then failFast l c
  else if dist ≤ l.outPos then
    .on { c with
      s := { c.s with out := fastCopy c.s.out l.outPos dist length }
      pc := .fast
        { l with
          outPos := l.outPos + length
          pre := if 15 ≤ l.bits.bitcnt then
            some (c.s.lencode.pfast (l.bits.peek rinfFastBits)) else none } }
  else
    leaveFast l { c with s := { c.s with copyLen := length, copyDist := dist, copyActive := true } }

/-- A distance that the shared decoder has to find. -/
def fastLongDist (l : Locals) (length : Nat) (c : Call) : Turn :=
  let (dsym, bits) := rinfDecode c.s.distcode l.bits
  let c := c.setBits bits
  let l := { l with bits := bits }
  match dsym with
  | .short => leaveFast l { c with s := { c.s with ldLength := length, ldStep := 2 } }
  | .invalid => failFast l c
  | .sym dsym =>
    if 30 ≤ dsym then failFast l c
    else
      let ei := rinfDistExtra.getD dsym 0
      let base := rinfDistBase.getD dsym 0
      if ei ≠ 0 then
        if l.bits.bitcnt < ei then
          leaveFast l { c with s := { c.s with ldLength := length, ldDistsym := dsym, ldStep := 3 } }
        else fastMatch { l with bits := l.bits.shift ei } length (base + l.bits.peek ei) c
      else fastMatch l length base c

/-- The distance of a match. -/
def fastDist (l : Locals) (length : Nat) (c : Call) : Turn :=
  let d := c.s.distcode.pfast (l.bits.peek rinfFastBits)
  if d &&& rinfPfBad ≠ 0 then failFast l c
  else if d ≠ 0 then
    let dl := d &&& 15
    let dt := d >>> 4 &&& 31
    fastMatch { l with bits := l.bits.shift dt } length
      (d >>> 16 + (l.bits.shift dl).peek (dt - dl)) c
  else fastLongDist l length c

/-- The group of an entry that is no literal. -/
def fastGroup (l : Locals) (e : Nat) (c : Call) : Turn :=
  if e &&& rinfPfEob ≠ 0 then
    blockEnd (c.writeBack { l with bits := l.bits.shift (e &&& 15) })
  else if e &&& rinfPfBad ≠ 0 then failFast l c
  else
    let len := e &&& 15
    let t := e >>> 4 &&& 31
    fastDist { l with bits := l.bits.shift t } (e >>> 16 + (l.bits.shift len).peek (t - len)) c

/-- A code that the shared decoder has to find. -/
def fastLong (l : Locals) (c : Call) : Turn :=
  let (sym, bits) := rinfDecode c.s.lencode l.bits
  let c := c.setBits bits
  let l := { l with bits := bits }
  match sym with
  | .invalid => failFast l c
  | .short => leaveFast l c
  | .sym sym =>
    if sym < 256 then
      .on { c with
        s := { c.s with out := store c.s.out l.outPos [UInt8.ofNat sym] }
        pc := .fast { l with outPos := l.outPos + 1 } }
    else if sym = 256 then blockEnd (c.writeBack l)
    else if 29 ≤ sym - 257 then failFast l c
    else if l.bits.bitcnt < 33 then
      leaveFast l { c with s := { c.s with ldLensym := sym - 257, ldStep := 1 } }
    else
      fastGroup l (rinfLenExtra.getD (sym - 257) 0 <<< 4 ||| rinfLenBase.getD (sym - 257) 0 <<< 16) c

/-- The head of the fast loop: its guard, the refill and the entry of the next code. -/
def fastHead (l : Locals) (c : Call) : Turn :=
  if 8 ≤ l.bits.unread.length ∧ l.outPos + 258 + 16 ≤ c.s.outSize then
    let bits := if l.bits.bitcnt < 48 then fastRefill l.bits else l.bits
    let e := match l.pre with
      | some e => e
      | none => c.s.lencode.pfast (bits.peek rinfFastBits)
    c.goto (.chain { l with bits := bits, pre := none } e)
  else leaveFast l c

/-- A literal of the chain, or what follows the chain. -/
def fastChain (l : Locals) (e : Nat) (c : Call) : Turn :=
  if e &&& rinfPfLit ≠ 0 then
    let bits := l.bits.shift (e &&& 15)
    let c := { c with s := { c.s with out := store c.s.out l.outPos [UInt8.ofNat (e >>> 16)] } }
    let l := { l with bits := bits, outPos := l.outPos + 1 }
    if bits.bitcnt < 15 then c.goto (.fast l)
    else c.goto (.chain l (c.s.lencode.pfast (bits.peek rinfFastBits)))
  else if l.bits.bitcnt < 48 ∧ e ≠ 0 then c.goto (.fast l)
  else if e = 0 then fastLong l c
  else fastGroup l e c

/-- The fast loop is entered when nothing is pending. -/
def enterFast (c : Call) : Turn :=
  if ¬c.s.copyActive ∧ c.s.ldStep = 0 then
    c.goto (.fast { bits := c.s.bits, outPos := c.s.outPos, pre := none })
  else c.goto .careful

/-- The `fast_again` label. -/
def fastAgain (c : Call) : Turn :=
  if c.s.havePendingLit then
    match rinfEmit c.s c.s.pendingLit with
    | none => suspend c
    | some s => enterFast { c with s := { s with havePendingLit := false } }
  else enterFast c

/-- A distance's extra bits. -/
def ldDistExtra (c : Call) : Turn :=
  let copy (dist : Nat) (c : Call) : Turn :=
    .on { c with
      s := { c.s with
        copyDist := dist, copyLen := c.s.ldLength, copyActive := true, ldStep := 0 }
      pc := .careful }
  let ei := rinfDistExtra.getD c.s.ldDistsym 0
  let base := rinfDistBase.getD c.s.ldDistsym 0
  if ei ≠ 0 then needing ei c fun c => getting ei c fun v c => copy (base + v) c
  else copy base c

/-- A distance's symbol. -/
def ldDist (c : Call) : Turn :=
  let (dsym, bits) := rinfDecode c.s.distcode c.s.bits
  let c := c.setBits bits
  match dsym with
  | .short => suspend c
  | .invalid => fail c
  | .sym dsym =>
    if 30 ≤ dsym then fail c
    else ldDistExtra { c with s := { c.s with ldDistsym := dsym, ldStep := 3 } }

/-- A length's extra bits. -/
def ldLenExtra (c : Call) : Turn :=
  let length (length : Nat) (c : Call) : Turn :=
    ldDist { c with s := { c.s with ldLength := length, ldStep := 2 } }
  let ei := rinfLenExtra.getD c.s.ldLensym 0
  let base := rinfLenBase.getD c.s.ldLensym 0
  if ei ≠ 0 then needing ei c fun c => getting ei c fun v c => length (base + v) c
  else length base c

/-- A literal or length symbol. -/
def ldSymbol (c : Call) : Turn :=
  let (sym, bits) := rinfDecode c.s.lencode c.s.bits
  let c := c.setBits bits
  match sym with
  | .short => suspend c
  | .invalid => fail c
  | .sym sym =>
    if sym < 256 then
      match rinfEmit c.s (UInt8.ofNat sym) with
      | none => suspend { c with s := { c.s with pendingLit := UInt8.ofNat sym, havePendingLit := true } }
      | some s => .on { c with s := s, pc := .careful }
    else if sym = 256 then blockEnd c
    else
      let c := { c with s := { c.s with ldLensym := sym - 257 } }
      if 29 ≤ sym - 257 then fail c
      else ldLenExtra { c with s := { c.s with ldStep := 1 } }

/-- The group goes on where it was left. -/
def ldGroup (c : Call) : Turn :=
  if c.s.ldStep = 0 then ldSymbol c
  else if c.s.ldStep = 1 then ldLenExtra c
  else if c.s.ldStep = 2 then ldDist c
  else if c.s.ldStep = 3 then ldDistExtra c
  else c.goto .careful

/-- The copy is over. -/
def copyDone (c : Call) : Turn := ldGroup { c with s := { c.s with copyActive := false, ldStep := 0 } }

/-- The copy whose source starts in the ring. -/
def carefulRing : Nat → Call → Turn
  | 0, c => copyDone c
  | n + 1, c =>
    if c.s.outPos + c.s.wprior < c.s.copyDist then fail c
    else
      match rinfEmit c.s (rinfBack c.s c.s.copyDist) with
      | none => suspend c
      | some s => carefulRing n { c with s := { s with copyLen := n } }

/-- The pending copy; a second pass of its first loop finds it over or the output full. -/
def carefulCopy (c : Call) : Turn :=
  if c.s.copyDist ≤ c.s.outPos then
    let chunk := min c.s.copyLen (c.s.outSize - c.s.outPos)
    let out := if chunk ≤ c.s.copyDist then copySteps chunk c.s.copyDist 1 c.s.outPos c.s.out
      else copySteps 1 c.s.copyDist chunk c.s.outPos c.s.out
    let c := { c with s := { c.s with
      out := out, outPos := c.s.outPos + chunk, copyLen := c.s.copyLen - chunk } }
    if 0 < c.s.copyLen then suspend c else copyDone c
  else carefulRing c.s.copyLen c

/-- A pass of the careful loop. -/
def careful (c : Call) : Turn :=
  if ¬c.s.copyActive ∧ c.s.ldStep = 0 ∧ ¬c.s.havePendingLit
      ∧ 8 ≤ c.s.bits.unread.length ∧ c.s.outPos + 258 + 16 ≤ c.s.outSize then
    c.goto .fastAgain
  else if c.s.copyActive then carefulCopy c
  else ldGroup c

/-- The switch over the phases. -/
def dispatch (c : Call) : Turn :=
  match c.s.phase with
  | .hdrSniff => hdrSniff c
  | .zheader => zHeader c
  | .gzheader => gzHeader c
  | .gzExtra => gzExtra c
  | .gzName => gzName c
  | .gzComment => gzComment c
  | .gzHcrc => gzHcrc c
  | .gzcrc => gzCrc c
  | .blockHdr => blockHdr c
  | .storedLen => storedLen c
  | .storedData => storedData c
  | .dynTable => dynTable c
  | .blockData => c.goto .fastAgain
  | .adler => adlerTrailer c
  | .done => finish c .done

/-- One pass from where the call stands. -/
def Call.step (c : Call) : Turn :=
  match c.pc with
  | .enter => skipping c
  | .dispatch => dispatch c
  | .storedBytes => storedBytes c
  | .fastAgain => fastAgain c
  | .fast l => fastHead l c
  | .chain l e => fastChain l e c
  | .careful => careful c

/-- A call of `rinflate_process` as it starts. -/
def rinflateEnter (s : State) : Call :=
  { s := s, pc := .enter
    inStart := s.bits.inPos, outStart := s.outPos, foldStart := s.outPos }

/-- What a call has returned after some passes: status, decoder, bytes read and written. -/
def Call.run : Nat → Call → Option (Status × State × Nat × Nat)
  | 0, _ => none
  | n + 1, c =>
    match c.step with
    | .on c => c.run n
    | .back status s read wrote => some (status, s, read, wrote)

/-- `rinflate_process`, with the passes it may take. -/
def rinflateProcess (passes : Nat) (s : State) : Option (Status × State × Nat × Nat) :=
  (rinflateEnter s).run passes

/-- A call returns one thing, however many passes it may take. -/
theorem run_unique (passes : Nat) : ∀ (others : Nat) (c : Call) {one other : Status × State × Nat × Nat},
    c.run passes = some one → c.run others = some other → one = other := by
  -- Both take the same turns until the one that returns.
  induction passes with
  | zero =>
    intro others c one other ran
    cases ran
  | succ passes ih =>
    intro others c one other ran ranToo
    cases others with
    | zero => cases ranToo
    | succ others =>
      rw [Call.run] at ran ranToo
      cases turn : c.step with
      | on next =>
        rw [turn] at ran ranToo
        exact ih others next ran ranToo
      | back status after read wrote =>
        rw [turn] at ran ranToo
        exact Option.some.inj (ran.symm.trans ranToo)

end Libretro.Inflate
