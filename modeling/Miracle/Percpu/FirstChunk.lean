import Miracle.Percpu.Creation

/-! # The memory of the first chunk

`pcpu_alloc_first_chunk` asks for four pieces of boot memory whose sizes it works out from the
region.  The maps and the summaries have room for all of their indices.  The chunk itself gets
a byte, not a word, for every word of its bitmap of populated pages.  Numbers are natural
numbers: the size of the region fits in an `int`, and so do all the others.
-/

namespace Miracle.Percpu

open BitScan

/-- `BITS_TO_LONGS`. -/
def bitsToLongs (bits : Nat) : Nat := (bits + 63) / 64

/-- `sizeof(u64)`. -/
def longSize : Nat := 8

/-- `sizeof(struct pcpu_chunk)`; `populated` begins there. -/
def chunkSize : Nat := 104

/-- `sizeof(struct pcpu_block_md)`. -/
def blockMdSize : Nat := 20

/-- The bytes that are asked for. -/
structure FirstChunkMemory where
  chunk : Nat
  allocMap : Nat
  boundMap : Nat
  mdBlocks : Nat
deriving DecidableEq, Repr

/-- The calls of `memblock_alloc` in `pcpu_alloc_first_chunk`. -/
def pcpuAllocFirstChunkMemory (tmpAddr mapSize : Nat) : FirstChunkMemory :=
  let startOffset := tmpAddr % pageSize
  let regionSize := align (startOffset + mapSize) pageSize
  let nrPages := regionSize / pageSize
  let regionBits := nrPages * pageSize / minAllocSize
  { chunk := chunkSize + bitsToLongs nrPages
    allocMap := bitsToLongs regionBits * longSize
    boundMap := bitsToLongs (regionBits + 1) * longSize
    mdBlocks := nrPages * pageSize / (blockBits * minAllocSize) * blockMdSize }

/-- A piece of memory has the byte of every one of the first `bits` bits. -/
def HoldsBits (bytes bits : Nat) : Prop := ∀ i, i < bits → i / 8 < bytes

/-- Every bit and every block that the chunk is used with has its place. -/
structure FirstChunkMemory.Holds (memory : FirstChunkMemory) (chunk : PcpuChunk) : Prop where
  populated : HoldsBits (memory.chunk - chunkSize) chunk.nrPages
  allocMap : HoldsBits memory.allocMap chunk.mapBits
  boundMap : HoldsBits memory.boundMap (chunk.mapBits + 1)
  mdBlocks : ∀ i, i < chunk.nrBlocks → (i + 1) * blockMdSize ≤ memory.mdBlocks

theorem holdsBits_longs (bits : Nat) : HoldsBits (bitsToLongs bits * longSize) bits := by
  intro i below
  unfold bitsToLongs longSize
  omega

/-- A byte for every word is enough for eight bits and no more. -/
theorem holdsBits_bytes_iff {bits : Nat} : HoldsBits (bitsToLongs bits) bits ↔ bits ≤ 8 := by
  constructor
  · intro holds
    by_contra more
    have last := holds (bits - 1) (by omega)
    unfold bitsToLongs at last
    omega
  · intro few i below
    unfold bitsToLongs
    omega

/-! ## The chunk -/

theorem first_sizes (tmpAddr mapSize : Nat) (beyond : Bitmap) :
    SameRegion (firstZeroed tmpAddr mapSize beyond) (pcpuAllocFirstChunk tmpAddr mapSize beyond) := by
  rw [first_eq]
  have head := hideHead_region (firstZeroed tmpAddr mapSize beyond)
  have tail := hideTail_region (hideHead (firstZeroed tmpAddr mapSize beyond)) mapSize
  exact ⟨tail.start.trans head.start, tail.stop.trans head.stop, tail.pages.trans head.pages,
    tail.free.trans head.free⟩

/-- The chunk serves the region and no more of it than that, all of which is free. -/
structure ServesRegion (chunk : PcpuChunk) (tmpAddr mapSize : Nat) : Prop where
  summaries : ChunkOk chunk
  hint : HintOk chunk
  bytes : chunk.freeBytes = mapSize
  counted : chunk.freeBytes = minAllocSize * clearBits chunk.allocMap chunk.mapBits
  bits : ∀ i, i < chunk.mapBits → (chunk.allocMap i = false ↔
    tmpAddr % pageSize ≤ i * minAllocSize ∧ i * minAllocSize < tmpAddr % pageSize + mapSize)

/-- The region ends where the hidden bits at the end of the map begin. -/
theorem first_regionEnd (tmpAddr mapSize : Nat) (beyond : Bitmap) :
    (pcpuAllocFirstChunk tmpAddr mapSize beyond).regionEnd = tmpAddr % pageSize + mapSize := by
  have region := first_sizes tmpAddr mapSize beyond
  obtain ⟨pages, multiple⟩ := align_dvd (tmpAddr % pageSize + mapSize) (show 0 < pageSize by decide)
  have above := le_align (tmpAddr % pageSize + mapSize) pageSize
  unfold PcpuChunk.regionEnd
  rw [region.pages, region.stop]
  change align (tmpAddr % pageSize + mapSize) pageSize / pageSize * pageSize -
    (align (tmpAddr % pageSize + mapSize) pageSize - tmpAddr % pageSize - mapSize) = _
  rw [Nat.div_mul_cancel ⟨pages, multiple⟩]
  omega

theorem first_serves {tmpAddr mapSize : Nat} (beyond : Bitmap) (addr : minAllocSize ∣ tmpAddr) (size : minAllocSize ∣ mapSize) :
    ServesRegion (pcpuAllocFirstChunk tmpAddr mapSize beyond) tmpAddr mapSize := by
  obtain ⟨summaries, areas, hint⟩ := first_ok beyond addr size
  have region := first_sizes tmpAddr mapSize beyond
  refine ⟨summaries, hint, region.free, areas.free, fun i below => ?_⟩
  have stop := first_regionEnd tmpAddr mapSize beyond
  have start : (pcpuAllocFirstChunk tmpAddr mapSize beyond).startOffset = tmpAddr % pageSize := region.start
  have hidden := areas.bits i below
  simp only [List.not_mem_nil, false_and, exists_false, or_false, PcpuChunk.Hidden, stop, start] at hidden
  rw [← Bool.not_eq_true, hidden]
  omega

/-! ## The sizes -/

theorem first_nrPages (tmpAddr mapSize : Nat) (beyond : Bitmap) :
    (pcpuAllocFirstChunk tmpAddr mapSize beyond).nrPages = align (tmpAddr % pageSize + mapSize) pageSize / pageSize :=
  (first_sizes tmpAddr mapSize beyond).pages

/-- Everything but the bitmap of populated pages has its room. -/
theorem first_maps_hold (tmpAddr mapSize : Nat) (beyond : Bitmap) :
    HoldsBits (pcpuAllocFirstChunkMemory tmpAddr mapSize).allocMap (pcpuAllocFirstChunk tmpAddr mapSize beyond).mapBits ∧
      HoldsBits (pcpuAllocFirstChunkMemory tmpAddr mapSize).boundMap
        ((pcpuAllocFirstChunk tmpAddr mapSize beyond).mapBits + 1) ∧
      ∀ i, i < (pcpuAllocFirstChunk tmpAddr mapSize beyond).nrBlocks →
        (i + 1) * blockMdSize ≤ (pcpuAllocFirstChunkMemory tmpAddr mapSize).mdBlocks := by
  unfold PcpuChunk.mapBits PcpuChunk.nrBlocks
  rw [first_nrPages]
  unfold pcpuAllocFirstChunkMemory
  simp only
  generalize align (tmpAddr % pageSize + mapSize) pageSize / pageSize = pages
  have bits : pages * pageSize / minAllocSize = pages * blockBits := by
    unfold pageSize minAllocSize blockBits
    omega
  have blocks : pages * pageSize / (blockBits * minAllocSize) = pages := by
    unfold pageSize minAllocSize blockBits
    omega
  rw [bits, blocks]
  exact ⟨holdsBits_longs _, holdsBits_longs _, fun i below => Nat.mul_le_mul_right blockMdSize below⟩

end Miracle.Percpu
