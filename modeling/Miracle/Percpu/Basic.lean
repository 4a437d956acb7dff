import Miracle.Lib.Word
import Miracle.Lib.BitRun

/-! # The per-CPU allocator's chunk

A chunk is managed in units of four bytes: `alloc_map` has a bit for every unit, `bound_map`
a bit where an area begins or ends, and every block of `PCPU_BITMAP_BLOCK_BITS` units has a
summary of its free runs.  Bit numbers are natural numbers; the bits of `alloc_map` past the
chunk's own are whatever memory lies behind the map.
-/

namespace Miracle.Percpu

open BitScan

def pageSize : Nat := 4096

/-- `PCPU_MIN_ALLOC_SIZE`. -/
def minAllocSize : Nat := 4

/-- `PCPU_MIN_UNIT_SIZE`. -/
def minUnitSize : Nat := 32 * 1024

/-- `PCPU_BITMAP_BLOCK_BITS`, which is `PCPU_BITS_PER_PAGE` as well. -/
def blockBits : Nat := 1024

structure PcpuBlockMd where
  contigHint : Nat
  contigHintStart : Nat
  leftFree : Nat
  rightFree : Nat
  firstFree : Nat
deriving DecidableEq, Repr

structure PcpuChunk where
  freeBytes : Int
  contigBits : Nat
  contigBitsStart : Nat
  allocMap : Bitmap
  boundMap : Bitmap
  mdBlocks : Nat → PcpuBlockMd
  firstBit : Nat
  startOffset : Nat
  endOffset : Nat
  nrPages : Nat
  nrEmptyPopPages : Nat
  populated : Bitmap

/-- `pcpu_chunk_nr_blocks`. -/
def PcpuChunk.nrBlocks (chunk : PcpuChunk) : Nat := chunk.nrPages

/-- `pcpu_chunk_map_bits`. -/
def PcpuChunk.mapBits (chunk : PcpuChunk) : Nat := chunk.nrPages * blockBits

/-- `ALIGN` with the mask `align - 1` of a power of two. -/
def alignMask (x mask : Nat) : Nat := (x + mask) / (mask + 1) * (mask + 1)

def align (x a : Nat) : Nat := alignMask x (a - 1)

/-- Trailing zeros of a word that is not zero. -/
def ffs : Nat → Nat → Nat
  | 0, _ => 0
  | k + 1, x => if x % 2 = 1 then 0 else ffs k (x / 2) + 1

def pcpuIndexAllocMap (chunk : PcpuChunk) (index : Nat) : Bitmap := fun i =>
  chunk.allocMap (index * blockBits + i)

def pcpuOffToBlockIndex (off : Nat) : Nat := off / blockBits

def pcpuOffToBlockOff (off : Nat) : Nat := off % blockBits

def pcpuBlockOffToOff (index off : Nat) : Nat := index * blockBits + off

/-! ## Summaries of blocks -/

/-- Updates a summary for the free area `[start, stop)` of the block. -/
def pcpuBlockUpdate (block : PcpuBlockMd) (start stop : Nat) : PcpuBlockMd :=
  let contig := stop - start
  let block := { block with firstFree := min block.firstFree start }
  let block := if start = 0 then { block with leftFree := contig } else block
  let block := if stop = blockBits then { block with rightFree := contig } else block
  if block.contigHint < contig then
    { block with contigHintStart := start, contigHint := contig }
  else if block.contigHintStart ≠ 0 ∧ contig = block.contigHint ∧
      (start = 0 ∨ ffs 64 block.contigHintStart < ffs 64 start) then
    { block with contigHintStart := start }
  else block

/-- `pcpu_next_unpop`: the next region of clear bits from `rs` on. -/
def pcpuNextUnpop (m : Bitmap) (rs stop : Nat) : Nat × Nat :=
  let rs := findNextZeroBit m stop rs
  (rs, findNextBit m stop (rs + 1))

/-- The loop of `pcpu_for_each_unpop_region` over a block. -/
def updateRegions (m : Bitmap) : Nat → Nat → PcpuBlockMd → PcpuBlockMd
  | 0, _, block => block
  | fuel + 1, rs, block =>
    let region := pcpuNextUnpop m rs blockBits
    if region.1 < region.2 then
      updateRegions m fuel (region.2 + 1) (pcpuBlockUpdate block region.1 region.2)
    else block

/-- Scans a block from its first free bit.  Every region takes two bits at least, so the
    loop ends before `blockBits` rounds. -/
def pcpuBlockRefreshHint (m : Bitmap) (block : PcpuBlockMd) : PcpuBlockMd :=
  updateRegions m (blockBits + 1) block.firstFree
    { block with contigHint := 0, leftFree := 0, rightFree := 0 }

/-! ## The chunk's hint -/

/-- `bitmap_weight`. -/
def bitmapWeight (m : Bitmap) (bits : Nat) : Nat := (List.range bits).countP m

def pcpuCntPopPages (chunk : PcpuChunk) (bitOff bits : Nat) : Nat :=
  let pageStart := (bitOff * minAllocSize + (pageSize - 1)) / pageSize
  let pageEnd := (bitOff + bits) * minAllocSize / pageSize
  if pageEnd ≤ pageStart then 0
  else bitmapWeight chunk.populated pageEnd - bitmapWeight chunk.populated pageStart

/-- The loop of `pcpu_next_md_free_region` over the blocks from `i` on; `bits` is the length
    of the free area carried over from the blocks before. -/
def nextMdFreeLoop (chunk : PcpuChunk) : Nat → Nat → Nat → Nat → Nat → Nat × Nat
  | 0, _, _, bitOff, bits => (bitOff, bits)
  | left + 1, i, blockOff, bitOff, bits =>
    let block := chunk.mdBlocks i
    if bits ≠ 0 then
      if block.leftFree = blockBits then
        nextMdFreeLoop chunk left (i + 1) blockOff bitOff (bits + block.leftFree)
      else (bitOff, bits + block.leftFree)
    else if block.contigHint ≠ 0 ∧ blockOff ≤ block.contigHintStart ∧
        block.contigHint + block.contigHintStart < blockBits then
      (pcpuBlockOffToOff i block.contigHintStart, block.contigHint)
    else
      nextMdFreeLoop chunk left (i + 1) 0 ((i + 1) * blockBits - block.rightFree) block.rightFree

def pcpuNextMdFreeRegion (chunk : PcpuChunk) (bitOff : Nat) : Nat × Nat :=
  let i := pcpuOffToBlockIndex bitOff
  nextMdFreeLoop chunk (chunk.nrBlocks - i) i (pcpuOffToBlockOff bitOff) bitOff 0

def pcpuChunkUpdate (chunk : PcpuChunk) (bitOff bits : Nat) : PcpuChunk :=
  if chunk.contigBits < bits then
    { chunk with contigBitsStart := bitOff, contigBits := bits }
  else if bits = chunk.contigBits ∧ chunk.contigBitsStart ≠ 0 ∧
      (bitOff = 0 ∨ ffs 64 chunk.contigBitsStart < ffs 64 bitOff) then
    { chunk with contigBitsStart := bitOff }
  else chunk

/-- The loop of `pcpu_for_each_md_free_region`. -/
def refreshLoop : Nat → PcpuChunk → Nat → Nat → PcpuChunk × Nat
  | 0, chunk, _, pages => (chunk, pages)
  | fuel + 1, chunk, bitOff, pages =>
    let region := pcpuNextMdFreeRegion chunk bitOff
    if region.1 < chunk.mapBits then
      refreshLoop fuel (pcpuChunkUpdate chunk region.1 region.2) (region.1 + region.2 + 1)
        (pages + pcpuCntPopPages chunk region.1 region.2)
    else (chunk, pages)

def pcpuChunkRefreshHint (chunk : PcpuChunk) : PcpuChunk :=
  let result := refreshLoop (chunk.mapBits + 1) { chunk with contigBits := 0 } chunk.firstBit 0
  { result.1 with nrEmptyPopPages := result.2 }

/-! ## Hints on the allocation path -/

/-- The first block of an allocation; `inner` says that it is the last one as well. -/
def allocFirstBlock (m : Bitmap) (inner : Bool) (sOff eOff bits : Nat) (block : PcpuBlockMd) : PcpuBlockMd :=
  let block := if sOff = block.firstFree then
    { block with firstFree := findNextZeroBit m blockBits (sOff + bits) } else block
  if block.contigHintStart ≤ sOff ∧ sOff < block.contigHintStart + block.contigHint then
    pcpuBlockRefreshHint m block
  else
    { block with
      leftFree := min block.leftFree sOff
      rightFree := if inner then min block.rightFree (blockBits - eOff) else 0 }

/-- A block that an allocation takes whole. -/
def allocInnerBlock (block : PcpuBlockMd) : PcpuBlockMd :=
  { block with contigHint := 0, leftFree := 0, rightFree := 0 }

/-- The last block of an allocation that begins in an earlier one. -/
def allocLastBlock (m : Bitmap) (eOff : Nat) (block : PcpuBlockMd) : PcpuBlockMd :=
  let block := { block with firstFree := findNextZeroBit m blockBits eOff }
  if eOff = blockBits then allocInnerBlock block
  else if block.contigHintStart < eOff then pcpuBlockRefreshHint m block
  else { block with leftFree := 0, rightFree := min block.rightFree (blockBits - eOff) }

def allocBlocks (chunk : PcpuChunk) (bitOff bits : Nat) : Nat → PcpuBlockMd := fun i =>
  let sIndex := pcpuOffToBlockIndex bitOff
  let eIndex := pcpuOffToBlockIndex (bitOff + bits - 1)
  let sOff := pcpuOffToBlockOff bitOff
  let eOff := pcpuOffToBlockOff (bitOff + bits - 1) + 1
  if i = sIndex then
    allocFirstBlock (pcpuIndexAllocMap chunk i) (sIndex == eIndex) sOff eOff bits (chunk.mdBlocks i)
  else if sIndex < i ∧ i < eIndex then allocInnerBlock (chunk.mdBlocks i)
  else if i = eIndex then allocLastBlock (pcpuIndexAllocMap chunk i) eOff (chunk.mdBlocks i)
  else chunk.mdBlocks i

def pcpuBlockUpdateHintAlloc (chunk : PcpuChunk) (bitOff bits : Nat) : PcpuChunk :=
  let chunk := { chunk with mdBlocks := allocBlocks chunk bitOff bits }
  if chunk.contigBitsStart ≤ bitOff ∧ bitOff < chunk.contigBitsStart + chunk.contigBits then
    pcpuChunkRefreshHint chunk
  else chunk

/-! ## Hints on the free path -/

/-- Where the free area around a freed one begins in its first block. -/
def freeStart (m : Bitmap) (sOff : Nat) (block : PcpuBlockMd) : Nat :=
  if sOff = block.contigHint + block.contigHintStart then block.contigHintStart
  else
    let lBit := findLastBit m sOff
    if sOff = lBit then 0 else lBit + 1

/-- Where it ends in its last block. -/
def freeStop (m : Bitmap) (eOff : Nat) (block : PcpuBlockMd) : Nat :=
  if eOff = block.contigHintStart then block.contigHintStart + block.contigHint
  else findNextBit m blockBits eOff

/-- A block that a free empties. -/
def freeInnerBlock : PcpuBlockMd :=
  { contigHint := blockBits, contigHintStart := 0, leftFree := blockBits, rightFree := blockBits, firstFree := 0 }

def freeBlocks (chunk : PcpuChunk) (sIndex eIndex start stop : Nat) : Nat → PcpuBlockMd := fun i =>
  if i = sIndex then
    pcpuBlockUpdate (chunk.mdBlocks i) start (if sIndex = eIndex then stop else blockBits)
  else if i = eIndex then pcpuBlockUpdate (chunk.mdBlocks i) 0 stop
  else if sIndex < i ∧ i < eIndex then freeInnerBlock
  else chunk.mdBlocks i

def pcpuBlockUpdateHintFree (chunk : PcpuChunk) (bitOff bits : Nat) : PcpuChunk :=
  let sIndex := pcpuOffToBlockIndex bitOff
  let eIndex := pcpuOffToBlockIndex (bitOff + bits - 1)
  let sOff := pcpuOffToBlockOff bitOff
  let eOff := pcpuOffToBlockOff (bitOff + bits - 1) + 1
  let start := freeStart (pcpuIndexAllocMap chunk sIndex) sOff (chunk.mdBlocks sIndex)
  let stop := freeStop (pcpuIndexAllocMap chunk eIndex) eOff (chunk.mdBlocks eIndex)
  let chunk := { chunk with mdBlocks := freeBlocks chunk sIndex eIndex start stop }
  if align start blockBits < stop / blockBits * blockBits ∨ sIndex ≠ eIndex then
    pcpuChunkRefreshHint chunk
  else
    pcpuChunkUpdate chunk (pcpuBlockOffToOff sIndex start) (chunk.mdBlocks sIndex).contigHint

/-- Frees the area at the byte offset `off`; its end is the next bit of `bound_map`. -/
def pcpuFreeArea (chunk : PcpuChunk) (off : Nat) : PcpuChunk :=
  let bitOff := off / minAllocSize
  let stop := findNextBit chunk.boundMap chunk.mapBits (bitOff + 1)
  let bits := stop - bitOff
  let chunk := { chunk with
    allocMap := bitmapClear chunk.allocMap bitOff bits
    freeBytes := chunk.freeBytes + bits * minAllocSize
    firstBit := min chunk.firstBit bitOff }
  pcpuBlockUpdateHintFree chunk bitOff bits

/-! ## The search for an area -/

/-- The loop of `pcpu_next_fit_region` over the blocks from `i` on. -/
def nextFitLoop (chunk : PcpuChunk) (allocBits a : Nat) : Nat → Nat → Nat → Nat → Nat → Nat × Nat
  | 0, _, _, _, bits => (chunk.mapBits, bits)
  | left + 1, i, blockOff, bitOff, bits =>
    let block := chunk.mdBlocks i
    if bits ≠ 0 ∧ allocBits ≤ bits + block.leftFree then (bitOff, bits + block.leftFree)
    else if bits ≠ 0 ∧ block.leftFree = blockBits then
      nextFitLoop chunk allocBits a left (i + 1) blockOff bitOff (bits + block.leftFree)
    else
      let pad := align block.contigHintStart a - block.contigHintStart
      if block.contigHint ≠ 0 ∧ blockOff ≤ block.contigHintStart ∧ pad + allocBits ≤ block.contigHint then
        (pcpuBlockOffToOff i block.firstFree, pad + (allocBits + block.contigHintStart - block.firstFree))
      else
        let off := align (blockBits - block.rightFree) a
        if allocBits ≤ blockBits - off then (pcpuBlockOffToOff i off, blockBits - off)
        else nextFitLoop chunk allocBits a left (i + 1) 0 (pcpuBlockOffToOff i off) (blockBits - off)

def pcpuNextFitRegion (chunk : PcpuChunk) (allocBits a bitOff : Nat) : Nat × Nat :=
  let i := pcpuOffToBlockIndex bitOff
  nextFitLoop chunk allocBits a (chunk.nrBlocks - i) i (pcpuOffToBlockOff bitOff) bitOff 0

/-- `none` when the pages of the region are populated, else the offset after the first
    region of pages that are not. -/
def pcpuIsPopulated (chunk : PcpuChunk) (bitOff bits : Nat) : Option Nat :=
  let pageStart := bitOff * minAllocSize / pageSize
  let pageEnd := ((bitOff + bits) * minAllocSize + (pageSize - 1)) / pageSize
  let region := pcpuNextUnpop chunk.populated pageStart pageEnd
  if pageEnd ≤ region.1 then none else some (region.2 * pageSize / minAllocSize)

/-- The loop of `pcpu_for_each_fit_region` with the body of `pcpu_find_block_fit`.  The
    offset moves on by a block at least in every round. -/
def findFitLoop (chunk : PcpuChunk) (allocBits a : Nat) (popOnly : Bool) : Nat → Nat → Nat
  | 0, _ => chunk.mapBits
  | fuel + 1, bitOff =>
    let region := pcpuNextFitRegion chunk allocBits a bitOff
    if region.1 < chunk.mapBits then
      if popOnly then
        match pcpuIsPopulated chunk region.1 region.2 with
        | none => region.1
        | some nextOff => findFitLoop chunk allocBits a popOnly fuel nextOff
      else region.1
    else region.1

def pcpuFindBlockFit (chunk : PcpuChunk) (allocBits a : Nat) (popOnly : Bool) : Option Nat :=
  let pad := align chunk.contigBitsStart a - chunk.contigBitsStart
  if chunk.contigBits < pad + allocBits then none
  else
    let bitOff := findFitLoop chunk allocBits a popOnly (chunk.nrBlocks + 1) chunk.firstBit
    if bitOff = chunk.mapBits then none else some bitOff

/-- The loop of `bitmap_find_next_zero_area_off`; every round begins past the set bit that
    ended the last one. -/
def findZeroAreaLoop (m : Bitmap) (size nr mask : Nat) : Nat → Nat → Nat
  | 0, start => start + size + nr
  | fuel + 1, start =>
    let index := alignMask (findNextZeroBit m size start) mask
    if size < index + nr then index + nr
    else
      let i := findNextBit m (index + nr) index
      if i < index + nr then findZeroAreaLoop m size nr mask fuel (i + 1) else index

def bitmapFindNextZeroArea (m : Bitmap) (size start nr mask : Nat) : Nat :=
  findZeroAreaLoop m size nr mask (size + 1) start

/-- The byte offset of the area and the chunk after it is taken, or `none` for `-1`. -/
def pcpuAllocArea (chunk : PcpuChunk) (allocBits a start : Nat) : Option (Nat × PcpuChunk) :=
  let mask := if a ≠ 0 then a - 1 else 0
  let stop := start + allocBits + blockBits
  let bitOff := bitmapFindNextZeroArea chunk.allocMap stop start allocBits mask
  if stop ≤ bitOff then none
  else
    let allocMap := bitmapSet chunk.allocMap bitOff allocBits
    let chunk := { chunk with
      allocMap := allocMap
      boundMap := setBit (bitmapClear (setBit chunk.boundMap bitOff) (bitOff + 1) (allocBits - 1)) (bitOff + allocBits)
      freeBytes := chunk.freeBytes - allocBits * minAllocSize
      firstBit := if bitOff = chunk.firstBit then
        findNextZeroBit allocMap chunk.mapBits (bitOff + allocBits) else chunk.firstBit }
    some (bitOff * minAllocSize, pcpuBlockUpdateHintAlloc chunk bitOff allocBits)

def isPowerOf2 (n : Nat) : Bool := n ≠ 0 && (n &&& (n - 1)) == 0

/-- The size and alignment that `pcpu_alloc` works with, if its check lets them through. -/
def pcpuAllocRequest (size a : Nat) : Option (Nat × Nat) :=
  let a := if a < minAllocSize then minAllocSize else a
  let size := u64 (size + 3) / minAllocSize * minAllocSize
  if size = 0 ∨ minUnitSize < size ∨ pageSize < a ∨ isPowerOf2 a = false then none else some (size, a)

/-- `pcpu_alloc` on one chunk: the search and the allocation under `pcpu_lock`. -/
def pcpuAlloc (chunk : PcpuChunk) (size a : Nat) (atomic : Bool) : Option (Nat × PcpuChunk) := do
  let (size, a) ← pcpuAllocRequest size a
  let bits := size / minAllocSize
  let bitAlign := a / minAllocSize
  let off ← pcpuFindBlockFit chunk bits bitAlign atomic
  pcpuAllocArea chunk bits bitAlign off

/-! ## Creating a chunk -/

/-- `pcpu_init_md_blocks` on zeroed memory. -/
def pcpuInitMdBlocks : Nat → PcpuBlockMd := fun _ =>
  { contigHint := blockBits, contigHintStart := 0, leftFree := blockBits, rightFree := blockBits, firstFree := 0 }

/-- A zeroed map of `bits` bits in front of other memory. -/
def zeroedMap (bits : Nat) (beyond : Bitmap) : Bitmap := fun i => if i < bits then false else beyond i

/-- `pcpu_alloc_chunk`, with `nrPages` for `pcpu_unit_pages`. -/
def pcpuAllocChunk (nrPages : Nat) (beyond : Bitmap) : PcpuChunk where
  freeBytes := nrPages * pageSize
  contigBits := nrPages * blockBits
  contigBitsStart := 0
  allocMap := zeroedMap (nrPages * blockBits) beyond
  boundMap := fun _ => false
  mdBlocks := pcpuInitMdBlocks
  firstBit := 0
  startOffset := 0
  endOffset := 0
  nrPages := nrPages
  nrEmptyPopPages := 0
  populated := fun _ => false

/-- Hides the `offsetBits` bits before the area of the first chunk. -/
def hideHead (chunk : PcpuChunk) : PcpuChunk :=
  if chunk.startOffset ≠ 0 then
    let offsetBits := chunk.startOffset / minAllocSize
    let chunk := { chunk with
      allocMap := bitmapSet chunk.allocMap 0 offsetBits
      boundMap := setBit (setBit chunk.boundMap 0) offsetBits
      firstBit := offsetBits }
    pcpuBlockUpdateHintAlloc chunk 0 offsetBits
  else chunk

/-- Hides the bits after it. -/
def hideTail (chunk : PcpuChunk) (mapSize : Nat) : PcpuChunk :=
  if chunk.endOffset ≠ 0 then
    let offsetBits := chunk.endOffset / minAllocSize
    let chunk := { chunk with
      allocMap := bitmapSet chunk.allocMap (chunk.mapBits - offsetBits) offsetBits
      boundMap := setBit (setBit chunk.boundMap ((chunk.startOffset + mapSize) / minAllocSize)) chunk.mapBits }
    pcpuBlockUpdateHintAlloc chunk (chunk.mapBits - offsetBits) offsetBits
  else chunk

def pcpuAllocFirstChunk (tmpAddr mapSize : Nat) (beyond : Bitmap) : PcpuChunk :=
  let startOffset := tmpAddr % pageSize
  let regionSize := align (startOffset + mapSize) pageSize
  let nrPages := regionSize / pageSize
  let chunk : PcpuChunk := {
    freeBytes := mapSize
    contigBits := mapSize / minAllocSize
    contigBitsStart := 0
    allocMap := zeroedMap (nrPages * blockBits) beyond
    boundMap := fun _ => false
    mdBlocks := pcpuInitMdBlocks
    firstBit := 0
    startOffset := startOffset
    endOffset := regionSize - startOffset - mapSize
    nrPages := nrPages
    nrEmptyPopPages := 0
    populated := fun i => decide (i < nrPages) }
  let pages := pcpuCntPopPages chunk (startOffset / minAllocSize) (mapSize / minAllocSize)
  let chunk := { chunk with nrEmptyPopPages := pages }
  hideTail (hideHead chunk) mapSize

/-! ## Runs -/

/-- An area handed out: its byte offset and size in the chunk and the alignment asked for. -/
structure Area where
  off : Nat
  size : Nat
  alignment : Nat
deriving DecidableEq, Repr

/-- A chunk together with the areas that were handed out and not freed yet. -/
structure State where
  chunk : PcpuChunk
  live : List Area

inductive Op where
  /-- `pcpu_alloc` of a size and alignment, atomic or not. -/
  | alloc (size a : Nat) (atomic : Bool)
  /-- `pcpu_free_area`, from `free_percpu` or a failed population. -/
  | free (area : Area)
  /-- Pages of the chunk are populated or depopulated. -/
  | populate (populated : Bitmap)
  /-- The memory behind `alloc_map` changes. -/
  | elsewhere (beyond : Bitmap)

/-- One critical section of `pcpu_lock`; a free is of a live area. -/
def step (s : State) : Op → Option State
  | .alloc size a atomic =>
    match pcpuAllocRequest size a, pcpuAlloc s.chunk size a atomic with
    | some request, some (off, chunk) => some ⟨chunk, ⟨off, request.1, a⟩ :: s.live⟩
    | _, _ => some s
  | .free area => if area ∈ s.live then some ⟨pcpuFreeArea s.chunk area.off, s.live.erase area⟩ else none
  | .populate populated => some { s with chunk := { s.chunk with populated := populated } }
  | .elsewhere beyond =>
    let allocMap := fun i => if i < s.chunk.mapBits then s.chunk.allocMap i else beyond i
    some { s with chunk := { s.chunk with allocMap := allocMap } }

/-- A chunk as it is made: for the regions of the first chunk, whose ends are multiples of the
    smallest area, or at run time. -/
inductive Created : PcpuChunk → Prop where
  | first (tmpAddr mapSize : Nat) (beyond : Bitmap) (addr : minAllocSize ∣ tmpAddr) (size : minAllocSize ∣ mapSize)
      (nonempty : 0 < mapSize) : Created (pcpuAllocFirstChunk tmpAddr mapSize beyond)
  | later (nrPages : Nat) (beyond : Bitmap) : Created (pcpuAllocChunk nrPages beyond)

/-- The states that runs reach whose steps all meet a condition. -/
inductive Reachable (ok : State → Op → Prop) : State → Prop where
  | created {chunk : PcpuChunk} (h : Created chunk) : Reachable ok ⟨chunk, []⟩
  | step {s s' : State} (op : Op) (run : Reachable ok s) (meets : ok s op) (taken : step s op = some s') :
      Reachable ok s'

end Miracle.Percpu
