import Libretro.Encodings.VcdiffRoom
import Libretro.Library.Deflate

/-! The meaning of a patch, one byte at a time: what the format says a decoder produces. -/

namespace Libretro.Vcdiff.Reference

/-- An integer goes on in base 128 until a byte below 128. -/
def intFrom : Nat → List UInt8 → Option (Nat × List UInt8)
  | _, [] => none
  | v, b :: rest =>
    if b.toNat < 128 then some (v * 128 + b.toNat, rest)
    else intFrom (v * 128 + (b.toNat - 128)) rest

/-- An integer of any size. -/
def readInt (text : List UInt8) : Option (Nat × List UInt8) := intFrom 0 text

/-- An instruction alone. -/
def alone (kind : Kind) (size mode : Nat) : Inst := ⟨⟨kind, size, mode⟩, ⟨.noop, 0, 0⟩⟩

/-- The default code table, by the rules that define it: a run; additions of a size that follows or
up to 17; copies for each mode, of a size that follows or of 4 up to 18; additions before copies;
copies before additions. -/
def codeTable : List Inst :=
  [alone .run 0 0] ++ (List.range 18).map (alone .add · 0) ++ ((List.range 9).flatMap fun mode =>
      alone .copy 0 mode :: (List.range 15).map fun k => alone .copy (k + 4) mode) ++
    ((List.range 6).flatMap fun mode => (List.range 4).flatMap fun k =>
      (List.range 3).map fun m => ⟨⟨.add, k + 1, 0⟩, ⟨.copy, m + 4, mode⟩⟩) ++
    ((List.range 3).flatMap fun m => (List.range 4).map fun k =>
      ⟨⟨.add, k + 1, 0⟩, ⟨.copy, 4, m + 6⟩⟩) ++
    (List.range 9).map fun mode => ⟨⟨.copy, 4, mode⟩, ⟨.add, 1, 0⟩⟩

/-- The last four addresses in turn, and the last address of each remainder by 768. -/
structure Caches where
  near : Nat → Nat
  same : Nat → Nat
  slot : Nat

/-- Every window starts with caches of zeros. -/
def Caches.empty : Caches := ⟨fun _ => 0, fun _ => 0, 0⟩

/-- An address is remembered by both caches. -/
def Caches.update (caches : Caches) (addr : Nat) : Caches where
  near := fun slot => if slot = caches.slot then addr else caches.near slot
  same := fun slot => if slot = addr % 768 then addr else caches.same slot
  slot := (caches.slot + 1) % 4

/-- An address in one of the modes: as it is, back from here, on from a near one, or one that
was used before. -/
def readAddress (caches : Caches) (mode here : Nat) (text : List UInt8) : Option (Nat × List UInt8) :=
  match mode with
  | 0 => readInt text
  | 1 => (readInt text).bind fun (v, text) => if v ≤ here then some (here - v, text) else none
  | m + 2 =>
    if m < 4 then (readInt text).map fun (v, text) => (caches.near m + v, text)
    else
      match text with
      | [] => none
      | b :: text => some (caches.same ((m - 4) * 256 + b.toNat), text)

/-- Bytes of the superstring of segment and target are put at the end of the target, one at a time,
so that each may be read again right away. -/
def copyBytes (segment : List UInt8) : Nat → Nat → List UInt8 → Option (List UInt8)
  | 0, _, target => some target
  | n + 1, addr, target =>
    match (segment ++ target)[addr]? with
    | none => none
    | some b => copyBytes segment n (addr + 1) (target ++ [b])

/-- A window being decoded: its target so far, what is left of its sections, and the addresses of
all copies until now. -/
structure State where
  caches : Caches
  target : List UInt8
  data : List UInt8
  inst : List UInt8
  addr : List UInt8
  addresses : List Nat

/-- What an instruction of a known size does. -/
def execSized (segment : List UInt8) (kind : Kind) (size mode : Nat) (s : State) : Option State :=
  match kind with
  | .noop => some s
  | .add =>
    if size ≤ s.data.length then
      some { s with target := s.target ++ s.data.take size, data := s.data.drop size }
    else none
  | .run =>
    match s.data with
    | [] => none
    | b :: data => some { s with target := s.target ++ List.replicate size b, data := data }
  | .copy =>
    (readAddress s.caches mode (segment.length + s.target.length) s.addr).bind fun (a, addr) =>
      (copyBytes segment size a s.target).map fun target =>
        { s with
          target := target
          addr := addr
          caches := s.caches.update a
          addresses := s.addresses ++ [a] }

/-- One instruction, whose size may follow its code. -/
def execHalf (segment : List UInt8) (half : Half) (s : State) : Option State :=
  if half.kind = .noop then some s
  else if half.size = 0 then
    (readInt s.inst).bind fun (size, inst) =>
      execSized segment half.kind size half.mode { s with inst := inst }
  else execSized segment half.kind half.size half.mode s

/-- Codes are executed until the target is complete; the count bounds the codes left. -/
def execCodes (segment : List UInt8) (size : Nat) : Nat → State → Option State
  | 0, s => if s.target.length = size then some s else none
  | n + 1, s =>
    if s.target.length = size then some s
    else
      match s.inst with
      | [] => none
      | code :: inst =>
        codeTable[code.toNat]?.bind fun pair =>
          (execHalf segment pair.first { s with inst := inst }).bind fun s =>
            (execHalf segment pair.second s).bind (execCodes segment size n)

/-- The segment of a window: a part of the source, a part of the target, or nothing. -/
def readSegment (source produced : List UInt8) (indicator : Nat) (text : List UInt8) :
    Option (List UInt8 × List UInt8) :=
  if indicator % 4 = 0 then some ([], text)
  else
    (readInt text).bind fun (len, text) => (readInt text).bind fun (pos, text) =>
      let whole := if indicator % 2 = 1 then source else produced
      if pos + len ≤ whole.length then some ((whole.drop pos).take len, text) else none

/-- The sections of a window and the size of its target. -/
def readSections (addresses : List Nat) (text : List UInt8) : Option (Nat × State × List UInt8) :=
  (readInt text).bind fun (_, text) => (readInt text).bind fun (size, text) =>
    match text with
    | [] => none
    | indicator :: text =>
      if indicator = 0 then
        (readInt text).bind fun (data, text) => (readInt text).bind fun (inst, text) =>
          (readInt text).bind fun (addr, text) =>
            if data + inst + addr ≤ text.length then
              some (size,
                { caches := .empty
                  target := []
                  data := text.take data
                  inst := (text.drop data).take inst
                  addr := (text.drop (data + inst)).take addr
                  addresses := addresses },
                text.drop (data + inst + addr))
            else none
      else none

/-- The windows one after another; the count bounds the bytes left. -/
def decodeWindows (source : List UInt8) :
    Nat → List UInt8 → List Nat → List UInt8 → Option (List UInt8 × List Nat)
  | _, produced, addresses, [] => some (produced, addresses)
  | 0, _, _, _ :: _ => none
  | n + 1, produced, addresses, indicator :: text =>
    (readSegment source produced indicator.toNat text).bind fun (segment, text) =>
      (readSections addresses text).bind fun (size, state, rest) =>
        (execCodes segment size state.inst.length state).bind fun state =>
          decodeWindows source n (produced ++ state.target) state.addresses rest

/-- What a patch makes of a source, and the addresses of its copies. -/
def decode (patch source : List UInt8) : Option (List UInt8 × List Nat) :=
  (vcdHeader patch).bind fun windows => decodeWindows source windows.length [] [] windows

end Libretro.Vcdiff.Reference

namespace Libretro.Vcdiff

open BackReference List Reference Option

variable {read : Nat × List UInt8}

theorem varintLoop_intFrom {n v : Nat} {p : List UInt8}
    (given : varintLoop n v p = some read) : intFrom v p = some read := by
  induction n generalizing v p with
  | zero => cases given
  | succ n ih =>
    cases p with
    | nil => cases given
    | cons b rest =>
      rw [varintLoop] at given
      rw [intFrom]
      split at given
      · cases given
      · -- A byte from 128 on goes on with its lower seven bits.
        have byte := b.toNat_lt
        simp only at given
        split_ifs at given ⊢ with last
        · rwa [Nat.mod_eq_of_lt last] at given
        · rw [show b.toNat - 128 = b.toNat % 128 by omega]
          exact ih given

theorem vcdVarint_readInt {p : List UInt8}
    (given : vcdVarint p = some read) : readInt p = some read :=
  varintLoop_intFrom given

theorem vcdTable_eq : vcdTable = codeTable := by decide +kernel

/-- The slots of the caches hold what the caches remember. -/
structure Cache.Means (cache : Cache) (caches : Caches) : Prop where
  near : ∀ k, caches.near k = cache.nearCache.getD k 0
  same : ∀ k, caches.same k = cache.same.getD k 0
  slot : caches.slot = cache.nextSlot
  nearLength : cache.nearCache.length = vcdNear
  sameLength : cache.same.length = vcdSame * 256
  within : cache.nextSlot < vcdNear

theorem vcdCacheReset_means : vcdCacheReset.Means .empty where
  near k := by
    rw [vcdCacheReset, getD_eq_getElem?_getD, getElem?_replicate]
    split <;> rfl
  same k := by
    rw [vcdCacheReset, getD_eq_getElem?_getD, getElem?_replicate]
    split <;> rfl
  slot := rfl
  nearLength := length_replicate
  sameLength := length_replicate
  within := by decide

theorem getD_set {list : List Nat} {slot k value : Nat} (within : slot < list.length) :
    (list.set slot value).getD k 0 = if k = slot then value else list.getD k 0 := by
  rw [getD_eq_getElem?_getD, getElem?_set]
  split_ifs with here there
  · rfl
  · omega
  · omega
  · rw [getD_eq_getElem?_getD]

variable {caches : Caches}

/-- Both caches remember an address. -/
theorem Cache.Means.update {cache : Cache} (means : cache.Means caches) (addr : Nat) :
    (vcdCacheUpdate cache addr).Means (caches.update addr) where
  near k := by
    rw [vcdCacheUpdate, getD_set (means.nearLength ▸ means.within), ← means.near, ← means.slot]
    rfl
  same k := by
    have within : addr % (vcdSame * 256) < cache.same.length := by
      rw [means.sameLength]
      exact Nat.mod_lt _ (by decide)
    rw [vcdCacheUpdate, getD_set within, ← means.same]
    rfl
  slot := by
    rw [vcdCacheUpdate, ← means.slot]
    rfl
  nearLength := length_set.trans means.nearLength
  sameLength := length_set.trans means.sameLength
  within := Nat.mod_lt _ (by decide)

/-- An address that does not count back from a position of more than 32 bits is the one that the
format defines. -/
theorem addrValue_readAddress {cache : Cache}
    (means : cache.Means caches) {mode place : Nat} {ap : List UInt8}
    (given : addrValue cache mode (place % 2 ^ 32) ap = some read) (near : mode = 1 → place < 2 ^ 32) :
    readAddress caches mode place ap = some read := by
  unfold addrValue at given
  match mode with
  | 0 => exact vcdVarint_readInt (by simpa using given)
  | 1 =>
    rw [if_neg (by decide), if_pos rfl, Nat.mod_eq_of_lt (near rfl)] at given
    obtain ⟨⟨v, rest⟩, back, given⟩ := bind_eq_some_iff.1 given
    show (readInt ap).bind _ = _
    rw [vcdVarint_readInt back, bind_some]
    simp only at given ⊢
    split_ifs at given with far
    rw [if_pos (Nat.not_lt.1 far), given]
  | m + 2 =>
    rw [if_neg (by omega), if_neg (by omega)] at given
    show (if m < 4 then _ else _) = _
    by_cases short : m < 4
    · rw [if_pos (by rw [vcdNear]; omega)] at given
      obtain ⟨⟨v, rest⟩, on, given⟩ := bind_eq_some_iff.1 given
      simp only at given
      split_ifs at given
      rw [if_pos short, vcdVarint_readInt on, map_some, means.near]
      exact given
    · rw [if_neg (by rw [vcdNear]; omega)] at given
      rw [if_neg short]
      cases ap with
      | nil => cases given
      | cons b ap =>
        obtain rfl := some.inj given
        simp only
        rw [means.same, show m + 2 - (2 + vcdNear) = m - 4 by rw [vcdNear]; omega]

theorem addrValue_far {cache : Cache} {place : Nat} {ap : List UInt8}
    {real : Nat × List UInt8} (given : addrValue cache 1 (place % 2 ^ 32) ap = some read)
    (far : 2 ^ 32 ≤ place) (defined : readAddress caches 1 place ap = some real) :
    read.1 ≠ real.1 := by
  unfold addrValue at given
  rw [if_neg (by decide), if_pos rfl] at given
  obtain ⟨⟨v, rest⟩, back, given⟩ := bind_eq_some_iff.1 given
  have defined : (readInt ap).bind _ = some real := defined
  rw [vcdVarint_readInt back, bind_some] at defined
  simp only at given defined
  split_ifs at given defined
  obtain rfl := some.inj given
  obtain rfl := some.inj defined
  simp only
  have least := Nat.mod_lt place (show 0 < 2 ^ 32 by decide)
  omega

/-- Chunks as wide as the distance repeat what lies behind them. -/
theorem chunkLoop_eq {dist : Nat} (back : 0 < dist) {n len : Nat} {bytes : List UInt8}
    (inside : dist ≤ bytes.length) (enough : len ≤ n) :
    chunkLoop dist n len bytes = copyBack dist len bytes := by
  induction n generalizing len bytes with
  | zero =>
    obtain rfl := Nat.le_zero.1 enough
    rfl
  | succ n ih =>
    rw [chunkLoop]
    split_ifs with none
    · rw [none, copyBack]
    · -- One chunk is a copy that stays within its distance, and the rest follows it.
      have chunk : 0 < min len dist := Nat.lt_min.2 ⟨Nat.pos_of_ne_zero none, back⟩
      simp only
      rw [← copyBack_within (Nat.min_le_right len dist) inside,
        ih (by rw [copyBack_length]; omega) (by omega), ← copyBack_add]
      congr 1
      omega

theorem copyBytes_segment {segment : List UInt8} {n addr : Nat} {target : List UInt8}
    (inside : addr + n ≤ segment.length) :
    copyBytes segment n addr target = some (target ++ (segment.drop addr).take n) := by
  induction n generalizing addr target with
  | zero => rw [copyBytes, take_zero, append_nil]
  | succ n ih =>
    have here : addr < segment.length := by omega
    rw [copyBytes, getElem?_append_left here, getElem?_eq_getElem here]
    simp only
    rw [ih (by omega), append_assoc, drop_eq_getElem_cons here, take_succ_cons]
    rfl

theorem copyBytes_target {segment : List UInt8} {n off : Nat} {target : List UInt8}
    (inside : off < target.length) :
    copyBytes segment n (segment.length + off) target =
      some (copyBack (target.length - off) n target) := by
  induction n generalizing off target with
  | zero => rfl
  | succ n ih =>
    have back : target.length - (target.length - off) = off := by omega
    have dist : (target ++ [target[off]]).length - (off + 1) = target.length - off := by
      rw [length_append, length_singleton]
      omega
    rw [copyBytes, getElem?_append_right (Nat.le_add_right _ _),
      Nat.add_sub_cancel_left, getElem?_eq_getElem inside]
    simp only
    rw [Nat.add_assoc, ih (by rw [length_append, length_singleton]; omega), dist,
      copyBack, back, getD_eq_getElem _ _ inside]

end Libretro.Vcdiff
