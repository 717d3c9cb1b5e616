import Libretro.Library.LinkedChain
import Mathlib.Algebra.GroupWithZero.Nat
import Mathlib.Data.List.Nodup
import Mathlib.Data.List.Pairwise
import Mathlib.Data.List.Perm.Basic

/-! An allocator of blocks of one size, taken from chunks of doubling size. -/

namespace Libretro.Mempool

open LinkedChain List Nat Function

/-- What the platform says of sizes: how wide they are, how large and how aligned a node of the free
list is, and where the blocks of a chunk begin. -/
structure Platform where
  bits : Nat
  nodeLog : Nat
  nodeAlign : Nat
  chunkHdr : Nat
  node_fits : nodeLog < bits
  align_node : nodeAlign ∣ 2 ^ nodeLog
  align_hdr : nodeAlign ∣ chunkHdr

/-- The size of a node of the free list, a power of two. -/
def Platform.nodeSize (p : Platform) : Nat := 2 ^ p.nodeLog

/-- A chunk and how many blocks it was asked for. -/
structure Chunk where
  addr : Nat
  blocks : Nat
deriving DecidableEq

/-- A pool: its chunks, the newest first, the head of its free list, and the links that the memory
of blocks holds. -/
structure Pool where
  chunks : List Chunk
  freeList : Option Nat
  blockSize : Nat
  blocks : Nat
  live : Nat
  links : Nat → Option Nat

/-- The block size rounded up to a multiple of the node's. -/
def stride (p : Platform) (blockSize : BitVec p.bits) : BitVec p.bits :=
  let nodeSize := BitVec.ofNat p.bits p.nodeSize
  let blockSize := if blockSize < nodeSize then nodeSize else blockSize
  (blockSize + nodeSize - 1) &&& ~~~(nodeSize - 1)

/-- A pool before anything is allocated; memory holds what it holds. -/
def mempoolInit (p : Platform) (blockSize blocks : BitVec p.bits) (links : Nat → Option Nat) : Pool :=
  { chunks := [], freeList := none, blockSize := (stride p blockSize).toNat
    blocks := if blocks.toNat ≠ 0 then blocks.toNat else 64, live := 0, links }

/-- From the last block of a chunk to its first, each becomes the head of the free list. -/
def thread (base blockSize : Nat) : Nat → (Nat → Option Nat) → Option Nat → (Nat → Option Nat) × Option Nat
  | 0, links, freeList => (links, freeList)
  | i + 1, links, freeList =>
    let node := base + i * blockSize
    thread base blockSize i (update links node freeList) (some node)

/-- What taking a chunk comes to. -/
inductive Grown
  | fault
  | refused
  | grown (pool : Pool)

/-- Taking a chunk, given the allocator's answer. A chunk whose size would wrap is refused, and a
block size of zero divides by zero. -/
def mempoolGrow (p : Platform) (pool : Pool) (answer : Option Nat) : Grown :=
  if pool.blockSize = 0 then .fault
  else if (2 ^ p.bits - 1 - p.chunkHdr) / pool.blockSize < pool.blocks then .refused
  else
    match answer with
    | none => .refused
    | some chunk =>
      let (links, freeList) := thread (chunk + p.chunkHdr) pool.blockSize pool.blocks pool.links pool.freeList
      .grown
        { pool with
          chunks := ⟨chunk, pool.blocks⟩ :: pool.chunks
          links
          freeList
          blocks := if pool.blocks < 2 ^ 16 then pool.blocks * 2 else pool.blocks }

/-- Taking the head of the free list; there is a fault when it is missing. -/
def Pool.take (pool : Pool) : Option (Pool × Option Nat) :=
  pool.freeList.map fun node =>
    ({ pool with freeList := pool.links node, live := pool.live + 1 }, some node)

/-- Taking one block, given the allocator's answer for the case that a chunk is needed. The block
is missing when a chunk is needed and cannot be had; there is no result at a fault. -/
def mempoolAlloc (p : Platform) (pool : Pool) (answer : Option Nat) : Option (Pool × Option Nat) :=
  if pool.freeList.isNone then
    match mempoolGrow p pool answer with
    | .fault => none
    | .refused => some (pool, none)
    | .grown pool => pool.take
  else pool.take

/-- Giving one block back, unless it is null. -/
def mempoolFree (pool : Pool) (block : Option Nat) : Pool :=
  match block with
  | none => pool
  | some node =>
    { pool with
      links := update pool.links node pool.freeList
      freeList := some node
      live := pool.live - 1 }

/-- Two stretches of memory have no byte in common. -/
def Apart (start size other otherSize : Nat) : Prop := start + size ≤ other ∨ other + otherSize ≤ start

/-- How large a chunk is. -/
def Pool.chunkSize (p : Platform) (pool : Pool) (chunk : Chunk) : Nat :=
  p.chunkHdr + pool.blockSize * chunk.blocks

/-- The blocks of a chunk. -/
def Pool.slots (p : Platform) (pool : Pool) (chunk : Chunk) : List Nat :=
  (List.range chunk.blocks).map fun i => chunk.addr + p.chunkHdr + i * pool.blockSize

/-- The blocks of all chunks. -/
def Pool.allSlots (p : Platform) (pool : Pool) : List Nat := pool.chunks.flatMap (pool.slots p)

/-- What an allocator promises of the memory for the next chunk: it is aligned, inside what an
address can name, and apart from the chunks that are there. -/
def Grants (p : Platform) (pool : Pool) (addr : Nat) : Prop :=
  p.nodeAlign ∣ addr ∧ addr + (p.chunkHdr + pool.blockSize * pool.blocks) ≤ 2 ^ p.bits ∧
    ∀ chunk ∈ pool.chunks, Apart addr (p.chunkHdr + pool.blockSize * pool.blocks) chunk.addr
      (pool.chunkSize p chunk)

/-- A client that writes to its own blocks and outside the chunks leaves a link as it is whose bytes
are all in chunks and in none of its blocks. -/
def Leaves (p : Platform) (pool : Pool) (live : List Nat) (links : Nat → Option Nat) : Prop :=
  ∀ node, (∀ byte, node ≤ byte → byte < node + p.nodeSize →
      (∃ chunk ∈ pool.chunks, chunk.addr ≤ byte ∧ byte < chunk.addr + pool.chunkSize p chunk) ∧
        ∀ block ∈ live, byte < block ∨ block + pool.blockSize ≤ byte) →
      links node = pool.links node

/-- The pools that a client's calls and writes lead to, with the blocks it holds. -/
inductive Reaches (p : Platform) (blockSize blocks : BitVec p.bits) : Pool → List Nat → Prop
  | init (links : Nat → Option Nat) :
    Reaches p blockSize blocks (mempoolInit p blockSize blocks links) []
  | alloc {pool next : Pool} {live : List Nat} {answer block : Option Nat}
      (before : Reaches p blockSize blocks pool live)
      (grants : ∀ addr, answer = some addr → Grants p pool addr)
      (ran : mempoolAlloc p pool answer = some (next, block)) :
    Reaches p blockSize blocks next (block.toList ++ live)
  | free {pool : Pool} {live : List Nat} {block : Nat}
      (before : Reaches p blockSize blocks pool live) (held : block ∈ live) :
    Reaches p blockSize blocks (mempoolFree pool (some block)) (live.erase block)
  | write {pool : Pool} {live : List Nat} {links : Nat → Option Nat}
      (before : Reaches p blockSize blocks pool live) (leaves : Leaves p pool live links) :
    Reaches p blockSize blocks { pool with links } live

/-- The free list threads the blocks that are free, these and the client's are the blocks of all
chunks, and the chunks are apart, aligned and inside what an address can name. -/
structure Valid (p : Platform) (pool : Pool) (live : List Nat) : Prop where
  free : ∃ free, Chain pool.links pool.freeList free ∧ (free ++ live).Perm (pool.allSlots p)
  count : pool.live = live.length
  stride : 2 ^ p.nodeLog ∣ pool.blockSize
  used : pool.chunks ≠ [] → 0 < pool.blockSize
  blocks : 0 < pool.blocks
  apart : pool.chunks.Pairwise fun a b =>
    Apart a.addr (pool.chunkSize p a) b.addr (pool.chunkSize p b)
  aligned : ∀ chunk ∈ pool.chunks, p.nodeAlign ∣ chunk.addr
  inside : ∀ chunk ∈ pool.chunks, chunk.addr + pool.chunkSize p chunk ≤ 2 ^ p.bits

variable {p : Platform} {pool next : Pool} {live : List Nat} {chunk : Chunk} {slot : Nat}

theorem mem_slots : slot ∈ pool.slots p chunk ↔
    ∃ i < chunk.blocks, chunk.addr + p.chunkHdr + i * pool.blockSize = slot := by
  simp [Pool.slots]

theorem slot_inside (listed : slot ∈ pool.slots p chunk) : chunk.addr + p.chunkHdr ≤ slot ∧
      slot + pool.blockSize ≤ chunk.addr + pool.chunkSize p chunk := by
  obtain ⟨i, before, rfl⟩ := mem_slots.1 listed
  -- The block's end is the next one's beginning.
  have ends : (i + 1) * pool.blockSize ≤ chunk.blocks * pool.blockSize := mul_le_mul_right _ before
  rw [succ_mul, mul_comm chunk.blocks] at ends
  refine ⟨le_add_right _ _, ?_⟩
  rw [Pool.chunkSize]
  omega

theorem slot_aligned (aligned : p.nodeAlign ∣ chunk.addr) (strides : 2 ^ p.nodeLog ∣ pool.blockSize)
    (listed : slot ∈ pool.slots p chunk) : p.nodeAlign ∣ slot := by
  obtain ⟨i, -, rfl⟩ := mem_slots.1 listed
  exact Nat.dvd_add (Nat.dvd_add aligned p.align_hdr)
    (Nat.dvd_mul_left_of_dvd (Nat.dvd_trans p.align_node strides) i)

theorem slots_apart {other : Nat} (listed : slot ∈ pool.slots p chunk)
    (listedOther : other ∈ pool.slots p chunk) (differ : slot ≠ other) :
    Apart slot pool.blockSize other pool.blockSize := by
  obtain ⟨i, -, rfl⟩ := mem_slots.1 listed
  obtain ⟨j, -, rfl⟩ := mem_slots.1 listedOther
  -- The one with the smaller number ends before the other one begins.
  rcases Nat.lt_trichotomy i j with before | rfl | behind
  · have ends : (i + 1) * pool.blockSize ≤ j * pool.blockSize := mul_le_mul_right _ before
    rw [succ_mul] at ends
    exact .inl (by omega)
  · exact absurd rfl differ
  · have ends : (j + 1) * pool.blockSize ≤ i * pool.blockSize := mul_le_mul_right _ behind
    rw [succ_mul] at ends
    exact .inr (by omega)

theorem Valid.slots_apart (valid : Valid p pool live) {other : Nat}
    (listed : slot ∈ pool.allSlots p) (listedOther : other ∈ pool.allSlots p)
    (differ : slot ≠ other) : Apart slot pool.blockSize other pool.blockSize := by
  obtain ⟨chunk, there, listed⟩ := mem_flatMap.1 listed
  obtain ⟨chunk', there', listedOther⟩ := mem_flatMap.1 listedOther
  by_cases same : chunk = chunk'
  · subst same
    exact Mempool.slots_apart listed listedOther differ
  · -- Blocks of two chunks are apart as the chunks are.
    have symm : Std.Symm fun a b : Chunk =>
        Apart a.addr (pool.chunkSize p a) b.addr (pool.chunkSize p b) :=
      ⟨fun _ _ apart => Or.symm apart⟩
    have apart := valid.apart.forall there there' same
    have inside := slot_inside listed
    have inside' := slot_inside listedOther
    rcases apart with before | behind
    · exact .inl (by omega)
    · exact .inr (by omega)

theorem slots_nodup (some : 0 < pool.blockSize) : (pool.slots p chunk).Nodup := by
  refine List.Nodup.map (fun i j same => ?_) nodup_range
  have equal : i * pool.blockSize = j * pool.blockSize := add_left_cancel same
  exact eq_of_mul_eq_mul_right some equal

theorem Valid.nodup (valid : Valid p pool live) : (pool.allSlots p).Nodup := by
  -- A block of two chunks would lie in both.
  refine nodup_flatMap.2 ⟨fun chunk there => slots_nodup (valid.used (ne_nil_of_mem there)), ?_⟩
  refine valid.apart.imp_of_mem ?_
  intro a b listed _ apart slot inA inB
  have some := valid.used (ne_nil_of_mem listed)
  have inside := slot_inside inA
  have inside' := slot_inside inB
  rcases apart with before | behind <;> omega

theorem Valid.live_mem (valid : Valid p pool live) (held : slot ∈ live) : slot ∈ pool.allSlots p := by
  obtain ⟨free, -, perm⟩ := valid.free
  exact perm.mem_iff.1 (mem_append_right _ held)

theorem thread_chain {base blockSize : Nat} (some : 0 < blockSize) (count : Nat)
    {links : Nat → Option Nat} {freeList : Option Nat} {free : List Nat}
    (chain : Chain links freeList free) (outside : ∀ i < count, base + i * blockSize ∉ free) :
    Chain (thread base blockSize count links freeList).1 (thread base blockSize count links freeList).2
      ((List.range count).map (fun i => base + i * blockSize) ++ free) := by
  -- The induction follows the loop, from the last block to the first.
  induction count generalizing links freeList free with
  | zero => exact chain
  | succ count ih =>
    have pushed := chain.push (outside count (lt_succ_self count))
    have after := ih pushed fun i before => by
      rw [mem_cons, not_or]
      refine ⟨fun same => ?_, outside i (lt_succ_of_lt before)⟩
      have equal : i * blockSize = count * blockSize := add_left_cancel same
      exact absurd (eq_of_mul_eq_mul_right some equal) (Nat.ne_of_lt before)
    rw [thread, range_succ, map_append, List.append_assoc]
    exact after

theorem Valid.take (valid : Valid p pool live) {block : Option Nat} (ran : pool.take = some (next, block)) :
    ∃ node, block = some node ∧ node ∉ live ∧ node ∈ pool.allSlots p ∧
      Valid p next (node :: live) ∧ next.allSlots p = pool.allSlots p := by
  obtain ⟨node, head, same⟩ := Option.map_eq_some_iff.1 ran
  rw [Prod.mk.injEq] at same
  obtain ⟨rfl, rfl⟩ := same
  obtain ⟨free, chain, perm⟩ := valid.free
  rw [head] at chain
  obtain ⟨rest, rfl, behind⟩ := chain_some chain
  have nodup := perm.nodup_iff.2 valid.nodup
  rw [cons_append, nodup_cons, mem_append, not_or] at nodup
  refine ⟨node, rfl, nodup.1.2, perm.mem_iff.1 mem_cons_self, ?_, rfl⟩
  exact
    { free := ⟨rest, behind, perm_middle.trans perm⟩
      count := congrArg (· + 1) valid.count
      stride := valid.stride
      used := valid.used
      blocks := valid.blocks
      apart := valid.apart
      aligned := valid.aligned
      inside := valid.inside }

theorem Valid.grow (valid : Valid p pool live) {answer : Option Nat}
    (grants : ∀ addr, answer = some addr → Grants p pool addr)
    (ran : mempoolGrow p pool answer = .grown next) : Valid p next live := by
  unfold mempoolGrow at ran
  split at ran
  · cases ran
  rename_i nonzero
  have some := Nat.pos_of_ne_zero nonzero
  split at ran
  · cases ran
  cases answer with
  | none => cases ran
  | some addr =>
    obtain ⟨aligned, inside, apart⟩ := grants addr rfl
    cases ran
    obtain ⟨free, chain, perm⟩ := valid.free
    -- A block of the new chunk is none of the old ones.
    have fresh : ∀ i < pool.blocks, addr + p.chunkHdr + i * pool.blockSize ∉ free := by
      intro i before old
      have slot := perm.mem_iff.1 (mem_append_left live old)
      obtain ⟨chunk, there, listed⟩ := mem_flatMap.1 slot
      have within := slot_inside listed
      have new : addr + p.chunkHdr + i * pool.blockSize ∈ pool.slots p ⟨addr, pool.blocks⟩ :=
        mem_slots.2 ⟨i, before, rfl⟩
      have withinNew := slot_inside new
      simp only [Pool.chunkSize] at within withinNew
      have parts := apart chunk there
      simp only [Apart, Pool.chunkSize] at parts
      omega
    have threaded := thread_chain some pool.blocks chain fresh
    exact
      { free := ⟨_, threaded, by
          rw [List.append_assoc]
          exact List.Perm.append_left _ perm⟩
        count := valid.count
        stride := valid.stride
        used := fun _ => some
        blocks := by
          have positive := valid.blocks
          dsimp only
          split <;> omega
        apart := pairwise_cons.2 ⟨apart, valid.apart⟩
        aligned := forall_mem_cons.2 ⟨aligned, valid.aligned⟩
        inside := forall_mem_cons.2 ⟨inside, valid.inside⟩ }

theorem Valid.give (valid : Valid p pool live) (held : slot ∈ live) :
    Valid p (mempoolFree pool (some slot)) (live.erase slot) := by
  obtain ⟨free, chain, perm⟩ := valid.free
  -- A block of the client's is not free.
  have nodup := perm.nodup_iff.2 valid.nodup
  have outside : slot ∉ free := fun listed => (nodup_append.1 nodup).2.2 slot listed slot held rfl
  have positive := length_pos_of_mem held
  exact
    { free := ⟨slot :: free, chain.push outside,
        (perm_middle.symm.trans
          (List.Perm.append_left free (perm_cons_erase held).symm)).trans perm⟩
      count := by
        rw [length_erase_of_mem held, ← valid.count]
        rfl
      stride := valid.stride
      used := valid.used
      blocks := valid.blocks
      apart := valid.apart
      aligned := valid.aligned
      inside := valid.inside }

theorem Valid.write (valid : Valid p pool live) {links : Nat → Option Nat}
    (leaves : Leaves p pool live links) : Valid p { pool with links } live := by
  obtain ⟨free, chain, perm⟩ := valid.free
  have nodup := perm.nodup_iff.2 valid.nodup
  refine
    { free := ⟨free, chain.frame fun node listed => leaves node ?_, perm⟩
      count := valid.count
      stride := valid.stride
      used := valid.used
      blocks := valid.blocks
      apart := valid.apart
      aligned := valid.aligned
      inside := valid.inside }
  intro byte from_ below
  have slot := perm.mem_iff.1 (mem_append_left live listed)
  obtain ⟨chunk, there, inChunk⟩ := mem_flatMap.1 slot
  have some := valid.used (ne_nil_of_mem there)
  -- The link lies in its block, and the block in its chunk.
  have fits : p.nodeSize ≤ pool.blockSize := le_of_dvd some valid.stride
  have within := slot_inside inChunk
  refine ⟨⟨chunk, there, by omega, by omega⟩, fun block held => ?_⟩
  have differ : node ≠ block := fun same =>
    (nodup_append.1 nodup).2.2 node listed block held same
  have apart := valid.slots_apart slot (valid.live_mem held) differ
  simp only [Apart] at apart
  omega

theorem Valid.alloc (valid : Valid p pool live) {answer block : Option Nat}
    (grants : ∀ addr, answer = some addr → Grants p pool addr)
    (ran : mempoolAlloc p pool answer = some (next, block)) :
    Valid p next (block.toList ++ live) ∧ ∀ node, block = some node → node ∉ live ∧ node ∈ next.allSlots p ∧
        ∀ other ∈ live, other ∈ next.allSlots p := by
  have taken {before : Pool} (validBefore : Valid p before live) (took : before.take = some (next, block)) :
      Valid p next (block.toList ++ live) ∧ ∀ node, block = some node → node ∉ live ∧ node ∈ next.allSlots p ∧
          ∀ other ∈ live, other ∈ next.allSlots p := by
    obtain ⟨node, rfl, fresh, there, after, same⟩ := validBefore.take took
    refine ⟨after, ?_⟩
    rintro _ ⟨⟩
    exact ⟨fresh, same ▸ there, fun other held => same ▸ validBefore.live_mem held⟩
  unfold mempoolAlloc at ran
  split at ran
  · -- The free list is empty, and a chunk is asked for.
    split at ran
    · cases ran
    · cases ran
      exact ⟨valid, nofun⟩
    · rename_i grown
      exact taken (valid.grow grants grown) ran
  · exact taken valid ran

theorem toNat_mask {w k : Nat} (fits : k < w) (x : BitVec w) :
    (x &&& ~~~(BitVec.ofNat w (2 ^ k) - 1)).toNat = 2 ^ k * (x.toNat / 2 ^ k) := by
  have below : 2 ^ k < 2 ^ w := Nat.pow_lt_pow_right (by decide) fits
  have positive : 0 < 2 ^ k := Nat.two_pow_pos k
  have mask : BitVec.ofNat w (2 ^ k) - 1 = BitVec.ofNat w (2 ^ k - 1) :=
    BitVec.ofNat_sub_ofNat_of_le (2 ^ k) 1 (Nat.lt_of_le_of_lt positive below) positive
  -- None of the low bits is kept, and all of the others are.
  refine eq_of_testBit_eq fun i => ?_
  rw [testBit_two_pow_mul, testBit_div_two_pow, BitVec.testBit_toNat, BitVec.getLsbD_and,
    BitVec.getLsbD_not, mask, BitVec.getLsbD_ofNat, testBit_two_pow_sub_one]
  by_cases low : i < k
  · simp [low, Nat.lt_trans low fits, Nat.not_le_of_lt low]
  · have high : k ≤ i := Nat.le_of_not_lt low
    by_cases inside : i < w
    · simp [low, high, inside, Nat.sub_add_cancel high, BitVec.testBit_toNat]
    · simp [low, high, inside, Nat.sub_add_cancel high, BitVec.testBit_toNat,
        BitVec.getLsbD_of_ge _ _ (Nat.le_of_not_lt inside)]

theorem stride_spec (p : Platform) (blockSize : BitVec p.bits) :
    2 ^ p.nodeLog ∣ (stride p blockSize).toNat ∧ (blockSize.toNat + p.nodeSize ≤ 2 ^ p.bits →
        blockSize.toNat ≤ (stride p blockSize).toNat ∧ 0 < (stride p blockSize).toNat) := by
  have positive : 0 < 2 ^ p.nodeLog := Nat.two_pow_pos _
  have doubled : 2 ^ p.nodeLog * 2 ≤ 2 ^ p.bits := by
    rw [← pow_succ]
    exact Nat.pow_le_pow_right (by decide) p.node_fits
  have node : (BitVec.ofNat p.bits p.nodeSize).toNat = 2 ^ p.nodeLog := by
    rw [BitVec.toNat_ofNat, Platform.nodeSize, mod_eq_of_lt (by omega)]
  rw [Platform.nodeSize] at node
  rw [stride, Platform.nodeSize, toNat_mask p.node_fits]
  refine ⟨Nat.dvd_mul_right _ _, fun room => ?_⟩
  -- At least one node is asked for, and the sum does not wrap.
  obtain ⟨size, same, small, large, enough⟩ : ∃ size,
      (if blockSize < BitVec.ofNat p.bits (2 ^ p.nodeLog) then BitVec.ofNat p.bits (2 ^ p.nodeLog)
        else blockSize).toNat = size ∧ blockSize.toNat ≤ size ∧ 2 ^ p.nodeLog ≤ size ∧
          size + 2 ^ p.nodeLog ≤ 2 ^ p.bits := by
    refine ⟨_, rfl, ?_⟩
    split
    · rename_i less
      rw [BitVec.lt_def, node] at less
      rw [node]
      omega
    · rename_i less
      rw [BitVec.lt_def, node] at less
      omega
  have one : BitVec.toNat (1 : BitVec p.bits) = 1 := by
    exact (BitVec.toNat_ofNat 1 p.bits).trans (mod_eq_of_lt (by omega))
  have sum : (2 ^ p.bits - 1 + (size + 2 ^ p.nodeLog) % 2 ^ p.bits) % 2 ^ p.bits =
      size + 2 ^ p.nodeLog - 1 := by
    rw [add_mod_mod]
    have turned : 2 ^ p.bits - 1 + (size + 2 ^ p.nodeLog) = size + 2 ^ p.nodeLog - 1 + 2 ^ p.bits := by omega
    rw [turned, add_mod_right, mod_eq_of_lt (by omega)]
  rw [BitVec.toNat_sub, BitVec.toNat_add, same, node, one, sum]
  have above := lt_mul_div_succ (size + 2 ^ p.nodeLog - 1) positive
  rw [Nat.mul_add, Nat.mul_one] at above
  omega

theorem init_valid (p : Platform) (blockSize blocks : BitVec p.bits) (links : Nat → Option Nat) :
    Valid p (mempoolInit p blockSize blocks links) [] where
  free := ⟨[], rfl, List.Perm.refl _⟩
  count := rfl
  stride := (stride_spec p blockSize).1
  used := fun some => absurd rfl some
  blocks := by
    rw [mempoolInit]
    dsimp only
    split <;> omega
  apart := List.Pairwise.nil
  aligned := nofun
  inside := nofun

theorem Reaches.valid {blockSize blocks : BitVec p.bits}
    (reaches : Reaches p blockSize blocks pool live) : Valid p pool live := by
  -- The induction follows the client's calls and writes.
  induction reaches with
  | init links => exact init_valid p blockSize blocks links
  | alloc before grants ran ih => exact (ih.alloc grants ran).1
  | free before held ih => exact ih.give held
  | write before leaves ih => exact ih.write leaves

theorem alloc_blockSize {answer block : Option Nat}
    (ran : mempoolAlloc p pool answer = some (next, block)) : next.blockSize = pool.blockSize := by
  have taken {before : Pool} (took : before.take = some (next, block)) :
      next.blockSize = before.blockSize := by
    obtain ⟨node, -, same⟩ := Option.map_eq_some_iff.1 took
    cases same
    rfl
  unfold mempoolAlloc at ran
  split at ran
  · split at ran
    · cases ran
    · cases ran
      rfl
    · rename_i grown
      refine (taken ran).trans ?_
      unfold mempoolGrow at grown
      split at grown
      · cases grown
      split at grown
      · cases grown
      cases answer with
      | none => cases grown
      | some addr =>
        cases grown
        rfl
  · exact taken ran

theorem Reaches.blockSize_eq {blockSize blocks : BitVec p.bits}
    (reaches : Reaches p blockSize blocks pool live) :
    pool.blockSize = (stride p blockSize).toNat := by
  induction reaches with
  | init links => rfl
  | alloc before grants ran ih => exact (alloc_blockSize ran).trans ih
  | free before held ih => exact ih
  | write before leaves ih => exact ih

theorem Valid.alloc_isSome (valid : Valid p pool live) (some : 0 < pool.blockSize)
    (answer : Option Nat) : (mempoolAlloc p pool answer).isSome := by
  unfold mempoolAlloc
  split
  · rename_i empty
    have nonzero : pool.blockSize ≠ 0 := Nat.ne_of_gt some
    unfold mempoolGrow
    rw [if_neg nonzero]
    by_cases wraps : (2 ^ p.bits - 1 - p.chunkHdr) / pool.blockSize < pool.blocks
    · rw [if_pos wraps]
      rfl
    rw [if_neg wraps]
    cases answer with
    | none => rfl
    | some addr =>
      -- The chunk's first block is the head of the free list.
      obtain ⟨count, more⟩ := Nat.exists_eq_succ_of_ne_zero (Nat.ne_of_gt valid.blocks)
      have threads (base : Nat) (links : Nat → Option Nat) (freeList : Option Nat) :
          (thread base pool.blockSize pool.blocks links freeList).2.isSome := by
        rw [more]
        clear more
        induction count generalizing links freeList with
        | zero => rfl
        | succ count ih => exact ih _ _
      simpa [Pool.take] using threads _ _ _
  · rename_i filled
    rw [Pool.take, Option.isSome_map]
    cases head : pool.freeList with
    | none => exact absurd (by rw [head]; rfl) filled
    | some node => rfl

/-- Whatever a client allocates, frees and writes, its blocks and those of the free list are the
blocks of all chunks, each once; a block lies inside its chunk, is aligned and has room for what
the pool was made for. A block that is handed out is none of the client's and apart from all of
them, also when it is one that was given back just before. -/
theorem reaches_partition {blockSize blocks : BitVec p.bits}
    (reaches : Reaches p blockSize blocks pool live) :
    (∃ free, Chain pool.links pool.freeList free ∧ (free ++ live).Perm (pool.allSlots p)) ∧
      (pool.allSlots p).Nodup ∧ pool.live = live.length ∧
      (∀ chunk ∈ pool.chunks, ∀ slot ∈ pool.slots p chunk, chunk.addr + p.chunkHdr ≤ slot ∧
          slot + pool.blockSize ≤ chunk.addr + pool.chunkSize p chunk ∧ p.nodeAlign ∣ slot) ∧
      (∀ answer next block, (∀ addr, answer = some addr → Grants p pool addr) →
        mempoolAlloc p pool answer = some (next, some block) →
          block ∉ live ∧ ∀ other ∈ live, Apart block pool.blockSize other pool.blockSize) ∧
      (∀ freed ∈ live, ∀ answer next block,
        (∀ addr, answer = some addr → Grants p (mempoolFree pool (some freed)) addr) →
        mempoolAlloc p (mempoolFree pool (some freed)) answer = some (next, some block) →
          ∀ other ∈ live, other ≠ freed → Apart block pool.blockSize other pool.blockSize) ∧
      (blockSize.toNat + p.nodeSize ≤ 2 ^ p.bits →
        blockSize.toNat ≤ pool.blockSize ∧ ∀ answer, (mempoolAlloc p pool answer).isSome) := by
  have valid := reaches.valid
  -- What is handed out of a valid pool is apart from what its client holds.
  have handed {pool : Pool} {live : List Nat} (valid : Valid p pool live)
      {answer : Option Nat} {next : Pool} {block : Nat}
      (grants : ∀ addr, answer = some addr → Grants p pool addr)
      (ran : mempoolAlloc p pool answer = some (next, some block)) :
      block ∉ live ∧ ∀ other ∈ live, Apart block pool.blockSize other pool.blockSize := by
    obtain ⟨after, fresh⟩ := valid.alloc grants ran
    obtain ⟨new, there, others⟩ := fresh block rfl
    refine ⟨new, fun other held => ?_⟩
    have differ : block ≠ other := fun same => new (same ▸ held)
    exact alloc_blockSize ran ▸ after.slots_apart there (others other held) differ
  refine ⟨valid.free, valid.nodup, valid.count, ?_, ?_, ?_, ?_⟩
  · intro chunk there slot listed
    obtain ⟨begins, ends⟩ := slot_inside listed
    exact ⟨begins, ends, slot_aligned (valid.aligned chunk there) valid.stride listed⟩
  · intro answer next block grants ran
    exact handed valid grants ran
  · intro freed held answer next block grants ran other heldOther differ
    have left : other ∈ live.erase freed := (mem_erase_of_ne differ).2 heldOther
    exact (handed (valid.give held) grants ran).2 other left
  · intro room
    obtain ⟨-, spec⟩ := stride_spec p blockSize
    obtain ⟨large, some⟩ := spec room
    rw [← reaches.blockSize_eq] at large some
    exact ⟨large, fun answer => valid.alloc_isSome some answer⟩

/-- A platform with addresses of 64 bits. -/
def wide : Platform where
  bits := 64
  nodeLog := 3
  nodeAlign := 8
  chunkHdr := 8
  node_fits := by decide
  align_node := by decide
  align_hdr := by decide

/-- After one allocation from a pool of thirteen bytes, the free list has the second block of the
first chunk. -/
theorem reaches_partition_first : ∃ free, Chain
    (update (update (fun _ => none) 4120 none) 4104 (some 4120)) (some 4120) free ∧
      (free ++ [4104]).Perm [4104, 4120] := by
  have ran : mempoolAlloc wide (mempoolInit wide 13#64 2#64 fun _ => none) (some 4096) =
      some (⟨[⟨4096, 2⟩], some 4120, 16, 4, 1,
        update (update (fun _ => none) 4120 none) 4104 (some 4120)⟩, some 4104) :=
    rfl
  have grants : ∀ addr, some 4096 = some addr →
      Grants wide (mempoolInit wide 13#64 2#64 fun _ => none) addr := by
    rintro _ ⟨⟩
    exact ⟨by decide, by decide, nofun⟩
  exact (reaches_partition (.alloc (.init fun _ => none) grants ran)).1

end Libretro.Mempool
