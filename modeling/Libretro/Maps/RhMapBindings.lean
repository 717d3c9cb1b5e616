import Libretro.Library.LinearProbing
import Mathlib.Data.BitVec

/-! The type-safe hash map: lookups, additions and deletions, and the bindings that it stands for. -/

namespace Libretro.RhMap

open Nat

universe u v

variable {κ : Type u} {V : Type v}

/-- A map's header and its three arrays. Cell zero is the null value in front of the values, and
cell `i + 1` is the value of slot `i`. A key string is its contents, `none` is a null pointer. -/
structure Header (κ : Type u) (V : Type v) where
  len : Nat
  maxlen : Nat
  keys : Nat → BitVec 32
  keyStrs : Nat → Option κ
  cells : Nat → V

/-- The map a caller's pointer stands for; `none` is the null pointer. -/
abbrev Map (κ : Type u) (V : Type v) := Option (Header κ V)

/-- The hash of a key string, where zero is left to mark an empty slot. -/
def rhmapHashString (str : List (BitVec 8)) : BitVec 32 :=
  let hash := str.foldl (fun hash c => hash * 0x01000193#32 ^^^ c.setWidth 32) 0x811c9dc5#32
  if hash = 0#32 then 1#32 else hash

/-- A hash for every key string, never zero. -/
structure Hashing (κ : Type u) where
  hash : κ → BitVec 32
  nonzero : ∀ key, hash key ≠ 0#32

/-- The map's own hash of its strings. -/
def stringHashing : Hashing (List (BitVec 8)) where
  hash := rhmapHashString
  nonzero := by
    intro str
    simp only [rhmapHashString]
    split <;> simp_all

/-- A 32-bit slot index, masked by the number of the last slot. -/
def mask (i : BitVec 32) (maxlen : Nat) : BitVec 32 := BitVec.ofNat 32 (i.toNat &&& maxlen)

/-- The slots a 32-bit index gets to; a loop that has looked at so many in a row looks at the same
ones again and never ends. -/
def slotCount (maxlen : Nat) : Nat := min (maxlen + 1) (2 ^ 32)

/-- The host's size type and the sizes of a header and of a value, in bytes. -/
structure Layout where
  sizeBits : Nat
  headerSize : Nat
  elemSize : Nat
  wide : 16 ≤ sizeBits
  positive : 0 < elemSize

/-- The bytes of a header and of its values, the null value included. -/
def Layout.tableBytes (layout : Layout) (maxlen : Nat) : Nat :=
  layout.headerSize + (maxlen + 2) * layout.elemSize

/-- The last slot's number after enough doublings, `none` when it can double no further. Each turn
shifts one more bit in, so a size has fewer turns than bits. -/
def growMax (sizeBits reserve : Nat) : Nat → Nat → Option Nat
  | 0, _ => none
  | turns + 1, newMax =>
    if newMax / 2 ≤ reserve then
      if newMax = 2 ^ sizeBits - 1 then none else growMax sizeBits reserve turns (newMax * 2 + 1)
    else some newMax

/-- The first empty slot from an index on, `none` when there is none to come to. -/
def placeLoop (keys : Nat → BitVec 32) (maxlen : Nat) : Nat → BitVec 32 → Option (BitVec 32)
  | 0, _ => none
  | turns + 1, i =>
    let j := mask i maxlen
    if keys j.toNat = 0#32 then some j else placeLoop keys maxlen turns (j + 1#32)

/-- Taking one slot of the old table over into the new one. -/
def moveEntry (old new : Header κ V) (i : Nat) : Option (Header κ V) :=
  if old.keys i = 0#32 then some new
  else
    (placeLoop new.keys new.maxlen (slotCount new.maxlen) (old.keys i)).map fun j =>
      { new with
        keys := Function.update new.keys j.toNat (old.keys i)
        keyStrs := Function.update new.keyStrs j.toNat (old.keyStrs i)
        cells := Function.update new.cells (j.toNat + 1) (old.cells (i + 1)) }

/-- Taking the first slots of the old table over, in their order. -/
def rehash (old : Header κ V) : Nat → Header κ V → Option (Header κ V)
  | 0, new => some new
  | count + 1, new => (rehash old count new).bind fun new => moveEntry old new count

/-- The last slot's number that growing starts from. -/
def growStart (map : Map κ V) : Nat :=
  match map with
  | none => 15
  | some old => old.maxlen * 2 + 1

/-- Growing to a table with room for a reserve. The allocations succeed; `block` is what the
memory for the values holds before anything is written there. When the size can double no further
the map stays as it is. When the table's bytes overflow the size type the memory is too short for
the table, which is the `none` outside. -/
def rhmapGrow (layout : Layout) (zero : V) (block : Nat → V) (map : Map κ V) (reserve : Nat) :
    Option (Map κ V) :=
  match growMax layout.sizeBits reserve layout.sizeBits (growStart map) with
  | none => some map
  | some newMax =>
    if 2 ^ layout.sizeBits ≤ layout.tableBytes newMax then none
    else
      match map with
      | none =>
        some (some
          { len := 0, maxlen := newMax, keys := fun _ => 0#32, keyStrs := fun _ => none
            cells := Function.update block 0 zero })
      | some old =>
        let new : Header κ V :=
          { len := old.len, maxlen := newMax, keys := fun _ => 0#32, keyStrs := fun _ => none
            cells := block }
        (rehash old (old.maxlen + 1) new).map fun new =>
          some { new with cells := Function.update new.cells 0 (old.cells 0) }

/-- Making room for one more key: the table is at most half full before it is added. -/
def fit1 (layout : Layout) (zero : V) (block : Nat → V) (map : Map κ V) : Option (Map κ V) :=
  match map with
  | none => rhmapGrow layout zero block none 0
  | some header =>
    if header.len * 2 % 2 ^ layout.sizeBits ≤ header.maxlen then some (some header)
    else rhmapGrow layout zero block (some header) 0

/-- Making room for a number of keys. -/
def fit (layout : Layout) (zero : V) (block : Nat → V) (map : Map κ V) (n : Nat) : Option (Map κ V) :=
  match map with
  | none => if n = 0 then some none else rhmapGrow layout zero block none n
  | some header =>
    if n = 0 ∨ n * 2 % 2 ^ layout.sizeBits ≤ header.maxlen then some (some header)
    else rhmapGrow layout zero block (some header) n

variable [DecidableEq κ]

/-- Whether a slot holds a key: the hashes agree, and so do the strings where both are there. -/
def Header.hit (header : Header κ V) (key : BitVec 32) (str : Option κ) (i : Nat) : Bool :=
  header.keys i = key ∧ (header.keyStrs i = none ∨ str = none ∨ header.keyStrs i = str)

/-- The probe loop: the first slot that holds the key or nothing, and whether it holds the key. -/
def probeLoop (header : Header κ V) (key : BitVec 32) (str : Option κ) :
    Nat → BitVec 32 → Option (Bool × BitVec 32)
  | 0, _ => none
  | turns + 1, i =>
    let i := mask i header.maxlen
    if header.hit key str i.toNat then some (true, i)
    else if header.keys i.toNat = 0#32 then some (false, i)
    else probeLoop header key str turns (i + 1#32)

/-- Claiming an empty slot for a key, except the table's last one. -/
def Header.claim (header : Header κ V) (key : BitVec 32) (str : Option κ) (i : BitVec 32) : Header κ V :=
  if header.len ≥ header.maxlen then header
  else
    { header with
      len := header.len + 1
      keys := Function.update header.keys i.toNat key
      keyStrs := if str.isSome then Function.update header.keyStrs i.toNat str else header.keyStrs }

/-- Looking a key up without deleting: its slot, a claimed one when `add` is set, or none. -/
def rhmapIdx (header : Header κ V) (key : BitVec 32) (str : Option κ) (add : Bool) :
    Option (Header κ V × Option (BitVec 32)) :=
  if key = 0#32 then some (header, none)
  else
    (probeLoop header key str (slotCount header.maxlen) key).map fun (hit, i) =>
      if hit then (header, some i)
      else if add then (header.claim key str i, some i)
      else (header, none)

/-- Emptying a slot. -/
def Header.vacate (header : Header κ V) (i : BitVec 32) : Header κ V :=
  { header with
    len := header.len - 1
    keys := Function.update header.keys i.toNat 0#32
    keyStrs := Function.update header.keyStrs i.toNat none }

/-- The deletion's walk: each entry from a slot on, up to the next empty one, is added again and
its old slot emptied when it went elsewhere. Both cell numbers are 32-bit sums. -/
def shiftLoop : Nat → Header κ V → BitVec 32 → Option (Header κ V)
  | 0, _, _ => none
  | turns + 1, header, i =>
    if header.keys i.toNat = 0#32 then some header
    else
      (rhmapIdx header (header.keys i.toNat) (header.keyStrs i.toNat) true).bind fun (header, added) =>
          let key := added.getD (-1#32)
          let next := mask (i + 1#32) header.maxlen
          if key = i then shiftLoop turns header next
          else
            let vacated := header.vacate i
            shiftLoop turns { vacated with
              cells := Function.update vacated.cells (key + 1#32).toNat (vacated.cells (i + 1#32).toNat) }
              next

/-- Deleting a key: its slot is emptied and the entries after it are shifted back. -/
def rhmapIdxDel (header : Header κ V) (key : BitVec 32) (str : Option κ) : Option (Header κ V × Bool) :=
  if key = 0#32 then some (header, false)
  else
    (probeLoop header key str (slotCount header.maxlen) key).bind fun (hit, i) =>
      if hit then
        (shiftLoop (slotCount header.maxlen) (header.vacate i) (mask (i + 1#32) header.maxlen)).map
          fun header => (header, true)
      else some (header, false)

/-- The operations of the string-keyed interface. -/
inductive Operation (κ : Type u) (V : Type v)
  | set (key : κ) (val : V)
  | get (key : κ)
  | has (key : κ)
  | del (key : κ)
  | fit (n : Nat)
  | clear

/-- What an operation evaluates to. -/
inductive Returned (V : Type v)
  | nothing
  | value (val : V)
  | truth (answer : Bool)
deriving DecidableEq

/-- The number of keys. -/
def rhmapLen (map : Map κ V) : Nat :=
  match map with
  | none => 0
  | some header => header.len

/-- The cell an index stands for; the missing index is the one before the values. -/
def cellOf (index : Option (BitVec 32)) : Nat :=
  match index with
  | none => 0
  | some i => i.toNat + 1

/-- One operation, `none` when it follows a null pointer or never ends. -/
def Map.step (layout : Layout) (hashing : Hashing κ) (zero : V) (map : Map κ V) (block : Nat → V) :
    Operation κ V → Option (Map κ V × Returned V)
  | .set key val =>
    (fit1 layout zero block map).bind fun fitted =>
      fitted.bind fun header =>
        (rhmapIdx header (hashing.hash key) (some key) true).map fun (header, index) =>
          (some { header with cells := Function.update header.cells (cellOf index) val }, .nothing)
  | .get key =>
    (fit1 layout zero block map).bind fun fitted =>
      fitted.bind fun header =>
        (rhmapIdx header (hashing.hash key) (some key) false).map fun (header, index) =>
          (some header, .value (header.cells (cellOf index)))
  | .has key =>
    match map with
    | none => some (none, .truth false)
    | some header =>
      (rhmapIdx header (hashing.hash key) (some key) false).map fun (header, index) =>
        (some header, .truth index.isSome)
  | .del key =>
    match map with
    | none => some (none, .truth false)
    | some header =>
      (rhmapIdxDel header (hashing.hash key) (some key)).map fun (header, removed) =>
        (some header, .truth removed)
  | .fit n => (fit layout zero block map n).map fun map => (map, .nothing)
  | .clear =>
    match map with
    | none => some (none, .nothing)
    | some header =>
      some (some { header with
        len := 0
        keys := fun i => if i ≤ header.maxlen then 0#32 else header.keys i }, .nothing)

/-- The operations one after the other, each with the memory its growth finds. -/
def Map.run (layout : Layout) (hashing : Hashing κ) (zero : V) (map : Map κ V) :
    List (Operation κ V × (Nat → V)) → Option (Map κ V × List (Returned V))
  | [] => some (map, [])
  | (operation, block) :: rest =>
    (map.step layout hashing zero block operation).bind fun (next, returned) =>
      (Map.run layout hashing zero next rest).map fun (final, later) => (final, returned :: later)

open LinearProbing

variable {κ : Type u} {V : Type v} {hashing : Hashing κ} {header : Header κ V}

/-- The key string each slot shows. -/
def Header.slots (header : Header κ V) (i : Nat) : Option κ :=
  if header.keys i = 0#32 then none else header.keyStrs i

/-- Where a key's probe starts, before it is masked. -/
def Hashing.home (hashing : Hashing κ) (key : κ) : Nat := (hashing.hash key).toNat

/-- The table's size is a power of two, and each key string stands under its own hash. -/
structure Header.Formed (hashing : Hashing κ) (header : Header κ V) : Prop where
  log : ∃ log, header.maxlen + 1 = 2 ^ log
  keyed : ∀ i, header.keys i ≠ 0#32 → ∃ key, header.keyStrs i = some key ∧ header.keys i = hashing.hash key

variable {maxlen log : Nat}

variable (size : maxlen + 1 = 2 ^ log)
include size

theorem slotCount_eq : slotCount maxlen = 2 ^ min log 32 := by
  rw [slotCount, size]
  rcases le_total log 32 with small | large
  · rw [min_eq_left small, min_eq_left (Nat.pow_le_pow_right (by omega) small)]
  · rw [min_eq_right large, min_eq_right (Nat.pow_le_pow_right (by omega) large)]

theorem mask_toNat (i : BitVec 32) : (mask i maxlen).toNat = i.toNat % slotCount maxlen := by
  have low : maxlen = 2 ^ log - 1 := by omega
  rw [mask, BitVec.toNat_ofNat, low, and_two_pow_sub_one_eq_mod, ← low, slotCount_eq size]
  rcases le_total log 32 with small | large
  · -- A table of at most the index's range masks to below that range.
    rw [min_eq_left small]
    refine mod_eq_of_lt (lt_of_lt_of_le (mod_lt _ (Nat.two_pow_pos log)) ?_)
    exact Nat.pow_le_pow_right (by omega) small
  · -- A larger table masks nothing away.
    rw [min_eq_right large]
    have below : i.toNat < 2 ^ log := lt_of_lt_of_le i.isLt (Nat.pow_le_pow_right (by omega) large)
    rw [mod_eq_of_lt below]

theorem mask_succ_toNat (i : BitVec 32) :
    (mask (i + 1#32) maxlen).toNat = (i.toNat + 1) % slotCount maxlen := by
  rw [mask_toNat size, BitVec.toNat_add, slotCount_eq size,
    mod_mod_of_dvd _ (pow_dvd_pow 2 (min_le_right log 32))]
  rfl

theorem mask_turn (i : BitVec 32) : (mask i maxlen + 1#32).toNat % slotCount maxlen =
      (i.toNat % slotCount maxlen + 1) % slotCount maxlen := by
  rw [← mask_toNat size (mask i maxlen + 1#32), mask_succ_toNat size, mask_toNat size]

omit size

theorem slotCount_le (maxlen : Nat) : slotCount maxlen ≤ 2 ^ 32 := min_le_right _ _

theorem slotCount_mono {less more : Nat} (ordered : less ≤ more) : slotCount less ≤ slotCount more := by
  refine Nat.le_min.mpr ⟨?_, slotCount_le less⟩
  exact Nat.le_trans (Nat.min_le_left _ _) (by omega)

theorem slotCount_pos (maxlen : Nat) : 0 < slotCount maxlen := by
  rw [slotCount]
  omega

include size

theorem ofNat_mask (i : BitVec 32) : BitVec.ofNat 32 (i.toNat % slotCount maxlen) = mask i maxlen := by
  rw [← mask_toNat size, BitVec.ofNat_toNat, BitVec.setWidth_eq]

variable (formed : header.Formed hashing)
omit size

include formed

theorem Header.Formed.slots_none (i : Nat) : header.slots i = none ↔ header.keys i = 0#32 := by
  rw [Header.slots]
  split
  · simp_all
  · rename_i occupied
    obtain ⟨key, string, -⟩ := formed.keyed i occupied
    simpa [string] using occupied

theorem Header.Formed.slots_some {i : Nat} {key : κ} :
    header.slots i = some key ↔ header.keys i = hashing.hash key ∧ header.keyStrs i = some key := by
  rw [Header.slots]
  split
  · rename_i empty
    simp [empty, Ne.symm (hashing.nonzero key)]
  · rename_i occupied
    obtain ⟨other, string, hash⟩ := formed.keyed i occupied
    rw [string, hash, Option.some.injEq]
    constructor
    · rintro rfl
      exact ⟨rfl, rfl⟩
    · exact fun both => both.2

variable [DecidableEq κ]

theorem Header.Formed.hit_iff (i : Nat) (key : κ) :
    header.hit (hashing.hash key) (some key) i = decide (header.slots i = some key) := by
  rw [Header.hit, decide_eq_decide, formed.slots_some]
  constructor
  · rintro ⟨hash, string⟩
    obtain ⟨other, stored, -⟩ := formed.keyed i (hash ▸ hashing.nonzero key)
    simp_all
  · rintro ⟨hash, string⟩
    exact ⟨hash, .inr (.inr string)⟩

/-- The probe loop probes the table of key strings. -/
theorem Header.Formed.probeLoop (key : κ) :
    ∀ turns (i : BitVec 32), probeLoop header (hashing.hash key) (some key) turns i =
      (probe (slotCount header.maxlen) header.slots key turns
        (i.toNat % slotCount header.maxlen)).map fun position =>
          (decide (header.slots position = some key), BitVec.ofNat 32 position) := by
  obtain ⟨log, size⟩ := formed.log
  intro turns
  induction turns with
  | zero => exact fun _ => rfl
  | succ turns ih =>
    intro i
    simp only [RhMap.probeLoop, probe, mask_toNat size, formed.hit_iff, ← formed.slots_none,
      ih (mask i header.maxlen + 1#32), decide_eq_true_eq]
    by_cases found : header.slots (i.toNat % slotCount header.maxlen) = some key
    · simp [found, ofNat_mask size]
    · by_cases empty : header.slots (i.toNat % slotCount header.maxlen) = none
      · simp [empty, ofNat_mask size]
      · simp only [found, empty, if_false, or_self, mask_turn size]

theorem Header.Formed.placeLoop {key : κ} (absent : ∀ i, header.slots i ≠ some key) :
    ∀ turns (i : BitVec 32), placeLoop header.keys header.maxlen turns i =
      (probe (slotCount header.maxlen) header.slots key turns
        (i.toNat % slotCount header.maxlen)).map (BitVec.ofNat 32) := by
  obtain ⟨log, size⟩ := formed.log
  intro turns
  induction turns with
  | zero => exact fun _ => rfl
  | succ turns ih =>
    intro i
    simp only [RhMap.placeLoop, probe, mask_toNat size, ← formed.slots_none,
      ih (mask i header.maxlen + 1#32), absent, false_or]
    by_cases empty : header.slots (i.toNat % slotCount header.maxlen) = none
    · simp [empty, ofNat_mask size]
    · simp only [empty, if_false, mask_turn size]

omit formed

omit [DecidableEq κ] in
theorem slots_write (key : κ) (i : Nat) (len : Nat) (cells : Nat → V) :
    Header.slots { header with
      len, cells
      keys := Function.update header.keys i (hashing.hash key)
      keyStrs := Function.update header.keyStrs i (some key) } =
      Function.update header.slots i (some key) := by
  funext other
  by_cases here : other = i
  · simp [Header.slots, here, hashing.nonzero]
  · simp [Header.slots, here]

omit [DecidableEq κ] in
theorem slots_vacate (i : BitVec 32) :
    (header.vacate i).slots = Function.update header.slots i.toNat none := by
  funext other
  by_cases here : other = i.toNat
  · simp [Header.slots, Header.vacate, here]
  · simp [Header.slots, Header.vacate, here]

omit [DecidableEq κ] in
theorem Header.Formed.write (formed : header.Formed hashing) (key : κ) (i : Nat) (len : Nat)
    (cells : Nat → V) :
    Header.Formed hashing { header with
      len, cells
      keys := Function.update header.keys i (hashing.hash key)
      keyStrs := Function.update header.keyStrs i (some key) } where
  log := formed.log
  keyed := by
    intro other occupied
    by_cases here : other = i
    · exact ⟨key, by simp [here], by simp [here]⟩
    · simpa [here] using formed.keyed other (by simpa [here] using occupied)

omit [DecidableEq κ] in
theorem Header.Formed.vacate (formed : header.Formed hashing) (i : BitVec 32) :
    (header.vacate i).Formed hashing where
  log := formed.log
  keyed := by
    intro other occupied
    by_cases here : other = i.toNat
    · simp [Header.vacate, here] at occupied
    · simpa [Header.vacate, here] using
        formed.keyed other (by simpa [Header.vacate, here] using occupied)

open Function LinearProbing Option

variable {κ : Type u} {V : Type v} [DecidableEq κ] {hashing : Hashing κ} {header : Header κ V}

/-- The table of key strings is sound under the hashes. -/
abbrev Header.Sound (hashing : Hashing κ) (header : Header κ V) : Prop :=
  LinearProbing.Sound (slotCount header.maxlen) hashing.home header.slots

theorem Header.Formed.rhmapIdx_eq (formed : header.Formed hashing) {key : κ} {position : Nat}
    (found : probe (slotCount header.maxlen) header.slots key (slotCount header.maxlen)
      (hashing.home key % slotCount header.maxlen) = some position) (add : Bool) :
    rhmapIdx header (hashing.hash key) (some key) add =
      if header.slots position = some key then some (header, some (BitVec.ofNat 32 position))
      else if add then some (header.claim (hashing.hash key) (some key) (BitVec.ofNat 32 position),
        some (BitVec.ofNat 32 position))
      else some (header, none) := by
  rw [rhmapIdx, if_neg (hashing.nonzero key), formed.probeLoop, ← Hashing.home, found]
  by_cases here : header.slots position = some key
  · simp [here]
  · cases add <;> simp [here]

omit [DecidableEq κ] in
theorem claim_eq (room : header.len < header.maxlen) (key : κ) (i : BitVec 32) :
    header.claim (hashing.hash key) (some key) i =
      { header with
        len := header.len + 1
        keys := Function.update header.keys i.toNat (hashing.hash key)
        keyStrs := Function.update header.keyStrs i.toNat (some key) } := by
  simp [Header.claim, not_le.mpr room]

theorem toNat_slot {maxlen position : Nat} (inside : position < slotCount maxlen) :
    (BitVec.ofNat 32 position).toNat = position := by
  rw [BitVec.toNat_ofNat, mod_eq_of_lt (lt_of_lt_of_le inside (slotCount_le maxlen))]

theorem cell_toNat {i : BitVec 32} (notLast : i.toNat ≠ 2 ^ 32 - 1) : (i + 1#32).toNat = i.toNat + 1 := by
  rw [BitVec.toNat_add]
  exact mod_eq_of_lt (by have := i.isLt; simp at *; omega)

/-- The moves avoid the last index there is. -/
def AvoidLast (moves : List (Nat × Nat)) : Prop := ∀ move ∈ moves, move.1 ≠ 2 ^ 32 - 1 ∧ move.2 ≠ 2 ^ 32 - 1

/-- What the deletion's walk leaves: the closed table, with every value under its key. -/
structure Header.Shifted (hashing : Hashing κ) (before after : Header κ V)
    (closed : Nat → Option κ) : Prop where
  formed : after.Formed hashing
  slots : after.slots = closed
  len : after.len = before.len
  maxlen : after.maxlen = before.maxlen
  nullCell : after.cells 0 = before.cells 0
  values : ∀ content : κ → V, (∀ i key, before.slots i = some key → content key = before.cells (i + 1)) →
    ∀ i key, closed i = some key → content key = after.cells (i + 1)

/-- Moving an entry from one slot to an empty one, its value taken along. -/
def Header.carry (hashing : Hashing κ) (header : Header κ V) (key : κ) (i : BitVec 32)
    (found : Nat) : Header κ V :=
  { header with
    keys := Function.update (Function.update header.keys found (hashing.hash key)) i.toNat 0#32
    keyStrs := Function.update (Function.update header.keyStrs found (some key)) i.toNat none
    cells := Function.update header.cells (found + 1) (header.cells (i.toNat + 1)) }

omit [DecidableEq κ] in
theorem slots_carry (key : κ) (i : BitVec 32) (found : Nat) : (header.carry hashing key i found).slots =
      Function.update (Function.update header.slots found (some key)) i.toNat none := by
  funext other
  by_cases left : other = i.toNat
  · simp [Header.slots, Header.carry, left]
  · by_cases here : other = found
    · subst here
      simp [Header.slots, Header.carry, left, hashing.nonzero]
    · simp [Header.slots, Header.carry, left, here]

omit [DecidableEq κ] in
theorem Header.Formed.carry (formed : header.Formed hashing) (key : κ) (i : BitVec 32)
    (found : Nat) : (header.carry hashing key i found).Formed hashing := by
  have written := (formed.write key found header.len header.cells).vacate i
  exact ⟨written.log, written.keyed⟩

omit [DecidableEq κ] in
theorem Header.Shifted.carry {before after : Header κ V} {closed : Nat → Option κ} {key : κ}
    {i : BitVec 32} {found : Nat} (at_ : before.slots i.toNat = some key)
    (empty : before.slots found = none)
    (shifted : (before.carry hashing key i found).Shifted hashing after closed) :
    before.Shifted hashing after closed where
  formed := shifted.formed
  slots := shifted.slots
  len := shifted.len
  maxlen := shifted.maxlen
  nullCell := by
    rw [shifted.nullCell]
    simp [Header.carry]
  values := by
    intro content shows
    refine shifted.values content fun slot shown shownAt => ?_
    rw [slots_carry] at shownAt
    by_cases left : slot = i.toNat
    · simp [left] at shownAt
    · rw [update_of_ne left] at shownAt
      by_cases here : slot = found
      · -- The slot that was filled shows the value of the slot that was left.
        subst here
        rw [update_self, some.injEq] at shownAt
        subst shownAt
        simpa [Header.carry] using shows i.toNat key at_
      · rw [update_of_ne here] at shownAt
        simpa [Header.carry, here] using shows slot shown shownAt

theorem shiftLoop_closes {turns : Nat} : ∀ {header : Header κ V} {i : BitVec 32}
    {closed : Nat → Option κ} {moves : List (Nat × Nat)}, header.Formed hashing →
    header.len < header.maxlen → i.toNat < slotCount header.maxlen →
    closeGap (slotCount header.maxlen) hashing.home turns header.slots i.toNat =
      some (closed, moves) → AvoidLast moves →
    ∃ after, shiftLoop turns header i = some after ∧ header.Shifted hashing after closed := by
  induction turns with
  | zero => simp [closeGap]
  | succ turns ih =>
    intro header i closed moves formed room inside closes avoids
    obtain ⟨log, size⟩ := formed.log
    have next := mask_succ_toNat size i
    have nextInside : (mask (i + 1#32) header.maxlen).toNat < slotCount header.maxlen :=
      next ▸ mod_lt _ (slotCount_pos _)
    rw [closeGap] at closes
    cases at_ : header.slots i.toNat with
    | none =>
      simp only [at_, some.injEq, Prod.mk.injEq] at closes
      obtain ⟨rfl, rfl⟩ := closes
      refine ⟨header, ?_, formed, rfl, rfl, rfl, rfl, fun content shows => shows⟩
      rw [shiftLoop, if_pos ((formed.slots_none _).mp at_)]
    | some key =>
      simp only [at_, bind_eq_some_iff] at closes
      obtain ⟨found, probed, closes⟩ := closes
      obtain ⟨hash, string⟩ := formed.slots_some.mp at_
      have occupied : header.keys i.toNat ≠ 0#32 := hash ▸ hashing.nonzero key
      have foundInside := probe_lt (mod_lt _ (slotCount_pos _)) probed
      have added := formed.rhmapIdx_eq probed true
      rw [shiftLoop, if_neg occupied, hash, string, added]
      by_cases stays : found = i.toNat
      · -- The entry is found where it is.
        subst stays
        rw [if_pos rfl, ← next] at closes
        obtain ⟨after, ran, shifted⟩ := ih formed room nextInside closes avoids
        refine ⟨after, ?_, shifted⟩
        simpa [at_] using ran
      · rw [if_neg stays] at closes
        split at closes
        · rename_i empty
          -- The entry goes to the empty slot, and its value with it.
          obtain ⟨⟨rest, later⟩, closesRest, same⟩ := map_eq_some_iff.mp closes
          obtain ⟨rfl, rfl⟩ : rest = closed ∧ (i.toNat, found) :: later = moves := by simpa using same
          have notLast := avoids (i.toNat, found) (by simp)
          rw [← next, ← @slots_carry _ _ hashing header] at closesRest
          obtain ⟨after, ran, shifted⟩ := ih (formed.carry key i found) room nextInside closesRest
            fun move inside => avoids move (by simp [inside])
          refine ⟨after, ?_, shifted.carry at_ empty⟩
          have differ : BitVec.ofNat 32 found ≠ i := by
            intro equal
            exact stays (by rw [← equal, toNat_slot foundInside])
          have target : (BitVec.ofNat 32 found + 1#32).toNat = found + 1 := by
            rw [cell_toNat (by rw [toNat_slot foundInside]; exact notLast.2),
              toNat_slot foundInside]
          simp only [empty, if_true, claim_eq room, bind_some, getD_some, differ,
            if_false, reduceCtorEq, Header.vacate, target, cell_toNat notLast.1,
            toNat_slot foundInside]
          exact ran
        · simp at closes

/-- The moves that a deletion makes in the table of key strings once a slot is emptied. -/
def Header.deletionMoves (hashing : Hashing κ) (header : Header κ V) (i : Nat) : List (Nat × Nat) :=
  ((closeGap (slotCount header.maxlen) hashing.home (slotCount header.maxlen)
    (Function.update header.slots i none) ((i + 1) % slotCount header.maxlen)).map Prod.snd).getD []

/-- Deleting a key empties its slot and closes the gap. -/
theorem Header.Formed.rhmapIdxDel_present (formed : header.Formed hashing)
    (sound : header.Sound hashing) {key : κ} {position : Nat}
    (found : header.slots position = some key) (few : header.len ≤ header.maxlen)
    (counted : 0 < header.len)
    (room : ∃ other < slotCount header.maxlen, other ≠ position ∧ header.slots other = none)
    (avoids : AvoidLast (header.deletionMoves hashing position)) :
    ∃ after closed, rhmapIdxDel header (hashing.hash key) (some key) = some (after, true) ∧
      (header.vacate (BitVec.ofNat 32 position)).Shifted hashing after closed ∧
      after.Sound hashing ∧ ∀ other, (∃ i, closed i = some other) ↔
        ∃ i, Function.update header.slots position none i = some other := by
  obtain ⟨log, size⟩ := formed.log
  have inside := sound.bounded position key found
  have self : (BitVec.ofNat 32 position).toNat = position := toNat_slot inside
  have next := mask_succ_toNat size (BitVec.ofNat 32 position)
  rw [self] at next
  obtain ⟨other, otherInside, apart, empty⟩ := room
  obtain ⟨reach, below, reached⟩ := exists_offset position otherInside
  -- The other empty slot is at least one step on from the one that is emptied.
  have ahead : 1 ≤ reach := by
    rcases Nat.eq_zero_or_pos reach with rfl | positive
    · rw [add_zero, mod_eq_of_lt inside] at reached
      exact absurd reached apart
    · exact positive
  have gap := sound.remove inside
  obtain ⟨closed, moves, closes, soundClosed, same⟩ := gap.close (by omega) ahead below
    (by rw [← reached, update_of_ne apart, empty]) (by omega : reach - 1 < slotCount header.maxlen)
  have planned : header.deletionMoves hashing position = moves := by
    rw [Header.deletionMoves, closes]
    rfl
  have vacated := @slots_vacate _ _ header (BitVec.ofNat 32 position)
  rw [self] at vacated
  have formedVacated := formed.vacate (BitVec.ofNat 32 position)
  have smaller : (header.vacate (BitVec.ofNat 32 position)).len <
      (header.vacate (BitVec.ofNat 32 position)).maxlen := by
    simp only [Header.vacate]
    omega
  rw [← vacated, ← next] at closes
  obtain ⟨after, ran, shifted⟩ := shiftLoop_closes formedVacated smaller
    (next ▸ mod_lt _ (slotCount_pos _)) closes (planned ▸ avoids)
  refine ⟨after, closed, ?_, shifted, ?_, same⟩
  · have probed := formed.probeLoop key (slotCount header.maxlen) (hashing.hash key)
    rw [← Hashing.home, sound.probe_present found] at probed
    rw [rhmapIdxDel, if_neg (hashing.nonzero key), probed]
    simp only [map_some, found, decide_true, bind_some, if_true]
    rw [ran, map_some]
  · rw [Header.Sound, shifted.slots, shifted.maxlen]
    exact soundClosed

variable {κ : Type u} {V : Type v} [DecidableEq κ] {hashing : Hashing κ}

/-- What the new table shows once the first slots of the old one are taken over. -/
structure Header.Taken (hashing : Hashing κ) (old : Header κ V) (count : Nat)
    (start new : Header κ V) : Prop where
  formed : new.Formed hashing
  sound : new.Sound hashing
  maxlen : new.maxlen = start.maxlen
  len : new.len = start.len
  from_ : ∀ j key, new.slots j = some key →
    ∃ i < count, old.slots i = some key ∧ new.cells (j + 1) = old.cells (i + 1)
  into : ∀ i < count, ∀ key, old.slots i = some key → ∃ j, new.slots j = some key

theorem Header.Taken.moveEntry {old start new : Header κ V} {count : Nat} {keys : Finset κ}
    (taken : old.Taken hashing count start new) (formed : old.Formed hashing)
    (unique : ∀ left right key, old.slots left = some key → old.slots right = some key →
      left = right) (holds : ∀ i key, old.slots i = some key → key ∈ keys)
    (fewer : keys.card < slotCount start.maxlen) :
    ∃ next, moveEntry old new count = some next ∧ old.Taken hashing (count + 1) start next := by
  cases at_ : old.slots count with
  | none =>
    -- An empty slot has nothing to take over.
    refine ⟨new, by rw [RhMap.moveEntry, if_pos ((formed.slots_none _).mp at_)],
      taken.formed, taken.sound, taken.maxlen, taken.len, ?_, ?_⟩
    · intro j key found
      obtain ⟨i, before, same⟩ := taken.from_ j key found
      exact ⟨i, by omega, same⟩
    · intro i before key found
      rcases lt_or_ge i count with earlier | last
      · exact taken.into i earlier key found
      · have here : i = count := by omega
        simp [here, at_] at found
  | some key =>
    obtain ⟨hash, string⟩ := formed.slots_some.mp at_
    have absent : ∀ j, new.slots j ≠ some key := by
      intro j found
      obtain ⟨i, before, same, -⟩ := taken.from_ j key found
      have equal := unique i count key same at_
      omega
    have inKeys : ∀ j shown, new.slots j = some shown → shown ∈ keys := by
      intro j shown found
      obtain ⟨i, -, same, -⟩ := taken.from_ j shown found
      exact holds i shown same
    have room := taken.sound.exists_empty inKeys (taken.maxlen ▸ fewer)
    obtain ⟨position, inside, probed, empty, leads⟩ :=
      @Sound.probe_absent κ _ _ hashing.home _ key absent room
    have placed := taken.formed.placeLoop absent (slotCount new.maxlen) (old.keys count)
    rw [hash, ← Hashing.home, probed, map_some] at placed
    have self : (BitVec.ofNat 32 position).toNat = position := toNat_slot inside
    let cells := Function.update new.cells (position + 1) (old.cells (count + 1))
    have shown := @slots_write _ _ hashing new key position new.len cells
    refine ⟨{ new with
        cells
        keys := Function.update new.keys position (hashing.hash key)
        keyStrs := Function.update new.keyStrs position (some key) },
      ?_, taken.formed.write key position new.len cells, ?_, taken.maxlen, taken.len, ?_, ?_⟩
    · have occupied : old.keys count ≠ 0#32 := hash ▸ hashing.nonzero key
      rw [RhMap.moveEntry, if_neg occupied, hash, placed, map_some]
      simp only [self, string, cells]
    · rw [Header.Sound, shown]
      exact taken.sound.add inside absent leads
    · intro j other found
      rw [shown] at found
      by_cases here : j = position
      · subst here
        rw [update_self, some.injEq] at found
        subst found
        exact ⟨count, by omega, at_, by simp [cells]⟩
      · rw [update_of_ne here] at found
        obtain ⟨i, before, same, value⟩ := taken.from_ j other found
        exact ⟨i, by omega, same, by simpa [cells, here] using value⟩
    · intro i before other found
      rw [shown]
      rcases lt_or_ge i count with earlier | last
      · obtain ⟨j, moved⟩ := taken.into i earlier other found
        have away : j ≠ position := by
          rintro rfl
          simp [empty] at moved
        exact ⟨j, by rw [update_of_ne away, moved]⟩
      · obtain rfl : i = count := by omega
        rw [at_, some.injEq] at found
        exact ⟨position, by rw [update_self, found]⟩

theorem rehash_taken {old start : Header κ V} {keys : Finset κ} (formed : old.Formed hashing)
    (unique : ∀ left right key, old.slots left = some key → old.slots right = some key →
      left = right) (holds : ∀ i key, old.slots i = some key → key ∈ keys)
    (fewer : keys.card < slotCount start.maxlen) (begun : old.Taken hashing 0 start start)
    (count : Nat) :
    ∃ new, rehash old count start = some new ∧ old.Taken hashing count start new := by
  induction count with
  | zero => exact ⟨start, rfl, begun⟩
  | succ count ih =>
    obtain ⟨new, ran, taken⟩ := ih
    obtain ⟨next, moved, takenNext⟩ := taken.moveEntry formed unique holds fewer
    exact ⟨next, by rw [rehash, ran, bind_some, moved], takenNext⟩

/-- Doubling keeps the size a power of two and never shrinks it. -/
theorem growMax_spec {sizeBits reserve : Nat} {newMax : Nat} : ∀ {turns start log : Nat},
    start + 1 = 2 ^ log → growMax sizeBits reserve turns start = some newMax →
    start ≤ newMax ∧ ∃ log, newMax + 1 = 2 ^ log := by
  intro turns
  induction turns with
  | zero => simp [growMax]
  | succ turns ih =>
    intro start log size grew
    rw [growMax] at grew
    split at grew
    · split at grew
      · simp at grew
      · have doubled : start * 2 + 1 + 1 = 2 ^ (log + 1) := by
          rw [pow_succ, ← size]
          omega
        obtain ⟨larger, power⟩ := ih doubled grew
        exact ⟨by omega, power⟩
    · cases grew
      exact ⟨le_refl _, log, size⟩

theorem growMax_zero {sizeBits turns start : Nat} (some_ : 0 < turns) (larger : 2 ≤ start) :
    growMax sizeBits 0 turns start = some start := by
  obtain ⟨turns, rfl⟩ : ∃ rest, turns = rest + 1 := ⟨turns - 1, by omega⟩
  rw [growMax, if_neg (by omega)]

variable {κ : Type u} {V : Type v} [DecidableEq κ]

/-- The value each key is bound to, if any. -/
abbrev Bindings (κ : Type u) (V : Type v) := κ → Option V

/-- One operation on the bindings; a key that is not bound reads as the null value. -/
def Bindings.step (zero : V) (bindings : Bindings κ V) : Operation κ V → Bindings κ V × Returned V
  | .set key val => (Function.update bindings key (some val), .nothing)
  | .get key => (bindings, .value ((bindings key).getD zero))
  | .has key => (bindings, .truth (bindings key).isSome)
  | .del key => (Function.update bindings key none, .truth (bindings key).isSome)
  | .fit _ => (bindings, .nothing)
  | .clear => (fun _ => none, .nothing)

/-- The operations one after the other. -/
def Bindings.run (zero : V) (bindings : Bindings κ V) :
    List (Operation κ V × (Nat → V)) → Bindings κ V × List (Returned V)
  | [] => (bindings, [])
  | (operation, _) :: rest =>
    let (next, returned) := bindings.step zero operation
    let (final, later) := Bindings.run zero next rest
    (final, returned :: later)

/-- The map shows the bindings: it counts the bound keys, probing from its home leads to each of
them, and an empty slot ends every probe. -/
structure Map.Mirrors (hashing : Hashing κ) (map : Map κ V) (bindings : Bindings κ V) : Prop where
  len : ∃ keys : Finset κ, (∀ key, key ∈ keys ↔ bindings key ≠ none) ∧ keys.card = rhmapLen map
  reachable : ∀ key, bindings key ≠ none → ∃ header i, map = some header ∧ header.slots i = some key ∧
    Leads (slotCount header.maxlen) header.slots (hashing.home key) i
  room : ∀ header, map = some header → ∃ i < slotCount header.maxlen, header.slots i = none

/-- A table grown for a reserve has its bytes counted by the size type. -/
def Map.GrowthFits (layout : Layout) (map : Map κ V) (reserve : Nat) : Prop :=
  ∀ newMax, growMax layout.sizeBits reserve layout.sizeBits (growStart map) = some newMax →
    layout.tableBytes newMax < 2 ^ layout.sizeBits

/-- Whether one more key makes the map grow first. -/
def Map.Tight (layout : Layout) (map : Map κ V) : Prop :=
  match map with
  | none => True
  | some header => header.maxlen < header.len * 2 % 2 ^ layout.sizeBits

/-- Whether a number of keys makes the map grow first. -/
def Map.Short (layout : Layout) (map : Map κ V) (n : Nat) : Prop :=
  n ≠ 0 ∧ match map with
    | none => True
    | some header => header.maxlen < n * 2 % 2 ^ layout.sizeBits

/-- Whether a key is in the table. -/
def Map.Has (map : Map κ V) (key : κ) : Prop := ∃ header i, map = some header ∧ header.slots i = some key

/-- The operation asks for no table whose bytes overflow, adds no key beyond what a 32-bit index
can tell apart, and moves no entry into or out of the last slot such an index gets to. -/
def Operation.Safe (layout : Layout) (hashing : Hashing κ) (map : Map κ V) : Operation κ V → Prop
  | .set key _ => (map.Tight layout → map.GrowthFits layout 0) ∧
      (rhmapLen map + 1 < 2 ^ 32 ∨ map.Has key)
  | .get _ => map.Tight layout → map.GrowthFits layout 0
  | .has _ => True
  | .del key => ∀ header i, map = some header → header.slots i = some key →
      AvoidLast (header.deletionMoves hashing i)
  | .fit n => map.Short layout n → map.GrowthFits layout n
  | .clear => True

/-- Every operation of a run is safe in the state it finds. -/
def Map.RunSafe (layout : Layout) (hashing : Hashing κ) (zero : V) (map : Map κ V) :
    List (Operation κ V × (Nat → V)) → Prop
  | [] => True
  | (operation, block) :: rest => operation.Safe layout hashing map ∧
      ∀ next returned, map.step layout hashing zero block operation = some (next, returned) →
        Map.RunSafe layout hashing zero next rest

variable {layout : Layout} {hashing : Hashing κ} {zero : V} {header : Header κ V} {bindings : Bindings κ V}

/-- A header whose sound table shows exactly the bindings and is at most half full. -/
structure Header.Valid (layout : Layout) (hashing : Hashing κ) (zero : V) (header : Header κ V)
    (bindings : Bindings κ V) : Prop where
  formed : header.Formed hashing
  sound : header.Sound hashing
  within : header.maxlen + 1 < 2 ^ layout.sizeBits
  large : 15 ≤ header.maxlen
  shows : ∀ i key, header.slots i = some key → bindings key = some (header.cells (i + 1))
  only : ∀ key, bindings key ≠ none → ∃ i, header.slots i = some key
  count : ∃ keys : Finset κ, (∀ key, key ∈ keys ↔ bindings key ≠ none) ∧ keys.card = header.len
  half : 2 * header.len ≤ header.maxlen + 1
  few : header.len < 2 ^ 32
  nullCell : header.cells 0 = zero

/-- A null map shows no bindings, any other one its own. -/
def Map.Shows (layout : Layout) (hashing : Hashing κ) (zero : V) (map : Map κ V)
    (bindings : Bindings κ V) : Prop :=
  match map with
  | none => bindings = fun _ => none
  | some header => header.Valid layout hashing zero bindings

omit [DecidableEq κ] in
theorem Header.Valid.bound_iff (valid : header.Valid layout hashing zero bindings) (key : κ) :
    bindings key ≠ none ↔ ∃ i, header.slots i = some key := by
  refine ⟨valid.only key, ?_⟩
  rintro ⟨i, found⟩
  simp [valid.shows i key found]

omit [DecidableEq κ] in
theorem Header.Valid.len_lt (valid : header.Valid layout hashing zero bindings) :
    header.len < slotCount header.maxlen := by
  have half := valid.half
  have few := valid.few
  rw [slotCount]
  omega

omit [DecidableEq κ] in
theorem Header.Valid.room (valid : header.Valid layout hashing zero bindings) :
    ∃ i < slotCount header.maxlen, header.slots i = none := by
  obtain ⟨keys, bound, size⟩ := valid.count
  have holds : ∀ i key, header.slots i = some key → key ∈ keys := fun i key found =>
    (bound key).mpr ((valid.bound_iff key).mpr ⟨i, found⟩)
  exact valid.sound.exists_empty holds (size ▸ valid.len_lt)

omit [DecidableEq κ] in
theorem Map.Shows.mirrors {map : Map κ V} (shows : map.Shows layout hashing zero bindings) :
    map.Mirrors hashing bindings := by
  cases map with
  | none =>
    obtain rfl : bindings = fun _ => none := shows
    exact ⟨⟨∅, by simp, rfl⟩, by simp, by simp⟩
  | some header =>
    have valid : header.Valid layout hashing zero bindings := shows
    refine ⟨valid.count, ?_, ?_⟩
    · intro key bound
      obtain ⟨i, found⟩ := valid.only key bound
      exact ⟨header, i, rfl, found, valid.sound.leads i key found⟩
    · rintro _ ⟨⟩
      exact valid.room

omit [DecidableEq κ] in
theorem fresh_begun {old : Header κ V} {maxlen log : Nat} (size : maxlen + 1 = 2 ^ log) (len : Nat)
    (cells : Nat → V) :
    let fresh : Header κ V := ⟨len, maxlen, fun _ => 0#32, fun _ => none, cells⟩
    old.Taken hashing 0 fresh fresh := by
  have shown : Header.slots (⟨len, maxlen, fun _ => 0#32, fun _ => none, cells⟩ : Header κ V) =
      fun _ => none := funext fun _ => rfl
  refine ⟨⟨⟨log, size⟩, fun _ occupied => absurd rfl occupied⟩, ?_, rfl, rfl, ?_, ?_⟩
  · rw [Header.Sound, shown]
    exact sound_empty
  · simp [shown]
  · intro i before
    omega

/-- Growing a map keeps its bindings. -/
theorem Header.Valid.grow (valid : header.Valid layout hashing zero bindings) {reserve : Nat}
    (fits : Map.GrowthFits layout (some header) reserve) (block : Nat → V) :
    ∃ grown, rhmapGrow layout zero block (some header) reserve = some (some grown) ∧
      grown.Valid layout hashing zero bindings ∧ grown.len = header.len ∧
      (reserve = 0 → grown.maxlen = header.maxlen * 2 + 1) := by
  obtain ⟨log, size⟩ := valid.formed.log
  have wide := layout.wide
  have large := valid.large
  have doubled : header.maxlen * 2 + 1 + 1 = 2 ^ (log + 1) := by
    rw [Nat.pow_succ, ← size]
    omega
  cases grew : growMax layout.sizeBits reserve layout.sizeBits (header.maxlen * 2 + 1) with
  | none =>
    refine ⟨header, by simp [rhmapGrow, growStart, grew], valid, rfl, ?_⟩
    rintro rfl
    rw [growMax_zero (by omega) (by omega)] at grew
    simp at grew
  | some newMax =>
    obtain ⟨larger, newLog, newSize⟩ := growMax_spec doubled grew
    have bytes := fits newMax grew
    obtain ⟨keys, bound, counted⟩ := valid.count
    have holds : ∀ i key, header.slots i = some key → key ∈ keys := fun i key found =>
      (bound key).mpr ((valid.bound_iff key).mpr ⟨i, found⟩)
    have fewer : keys.card < slotCount newMax := by
      rw [counted]
      exact Nat.lt_of_lt_of_le valid.len_lt (slotCount_mono (by omega))
    obtain ⟨new, ran, taken⟩ := rehash_taken valid.formed valid.sound.unique holds fewer
      (fresh_begun newSize header.len block) (header.maxlen + 1)
    have maxlen : new.maxlen = newMax := taken.maxlen
    have len : new.len = header.len := taken.len
    refine ⟨{ new with cells := Function.update new.cells 0 (header.cells 0) }, ?_, ?_, len, ?_⟩
    · simp only [rhmapGrow, growStart, grew]
      rw [if_neg (by omega), ran, Option.map_some]
    · -- The slots of the new header are the ones that were taken over.
      have past : ∀ i key, header.slots i = some key → i < header.maxlen + 1 := fun i key found =>
        Nat.lt_of_lt_of_le (valid.sound.bounded i key found) (Nat.min_le_left _ _)
      refine ⟨⟨taken.formed.log, taken.formed.keyed⟩, taken.sound, ?_, ?_, ?_, ?_, ?_, ?_, ?_, ?_⟩
      · have elem := Nat.le_mul_of_pos_right (newMax + 2) layout.positive
        simp only [Layout.tableBytes, maxlen] at bytes ⊢
        omega
      · simp only [maxlen]
        omega
      · intro j key found
        obtain ⟨i, -, same, value⟩ := taken.from_ j key found
        rw [valid.shows i key same, ← value]
        simp
      · intro key bound
        obtain ⟨i, found⟩ := valid.only key bound
        exact taken.into i (past i key found) key found
      · exact ⟨keys, bound, counted.trans len.symm⟩
      · have half := valid.half
        simp only [maxlen, len]
        omega
      · simpa only [len] using valid.few
      · simp [valid.nullCell]
    · rintro rfl
      rw [growMax_zero (by omega) (by omega)] at grew
      cases grew
      exact maxlen

omit [DecidableEq κ] in
/-- Growing a null map makes an empty one. -/
theorem grow_null {reserve : Nat} (fits : Map.GrowthFits layout (none : Map κ V) reserve) (block : Nat → V) :
    ∃ grown, rhmapGrow layout zero block (none : Map κ V) reserve = some grown ∧
      grown.Shows layout hashing zero (fun _ => none) ∧ rhmapLen grown = 0 ∧
      (reserve = 0 → ∃ header, grown = some header) := by
  cases grew : growMax layout.sizeBits reserve layout.sizeBits 15 with
  | none =>
    refine ⟨none, by simp [rhmapGrow, growStart, grew], rfl, rfl, ?_⟩
    rintro rfl
    have wide := layout.wide
    rw [growMax_zero (by omega) (by omega)] at grew
    simp at grew
  | some newMax =>
    obtain ⟨larger, log, size⟩ := growMax_spec (show 15 + 1 = 2 ^ 4 from rfl) grew
    have bytes := fits newMax grew
    let fresh : Header κ V := ⟨0, newMax, fun _ => 0#32, fun _ => none, Function.update block 0 zero⟩
    have begun : fresh.Taken hashing 0 fresh fresh := fresh_begun size 0 _
    refine ⟨some fresh, ?_, ?_,
      rfl, fun _ => ⟨_, rfl⟩⟩
    · simp only [rhmapGrow, growStart, grew]
      rw [if_neg (by omega)]
    · refine ⟨begun.formed, begun.sound, ?_, larger, ?_, by simp, ⟨∅, by simp, rfl⟩, by simp [fresh],
        by simp [fresh], by simp [fresh]⟩
      · have elem := Nat.le_mul_of_pos_right (newMax + 2) layout.positive
        simp only [Layout.tableBytes, fresh] at bytes ⊢
        omega
      · intro j key found
        simp [fresh, Header.slots] at found

end Libretro.RhMap
