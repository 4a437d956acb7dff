import Miracle.Percpu.AllocInfo
import Miracle.Percpu.Creation

/-! # The system of chunks

The chunks of the allocator, the lists they are on and the counts over all of them.  A step is
one critical section of `pcpu_lock`: the search for an area, a free, the bookkeeping after pages
were populated or depopulated, or a chunk that comes or goes.  Steps of several callers follow
each other in any order.  A chunk's address is a number, which a new chunk may take over from
one that is gone.
-/

namespace Miracle.Percpu

open BitScan

/-- `PCPU_SLOT_BASE_SHIFT`. -/
def slotBaseShift : Nat := 5

/-- `struct pcpu_chunk` at its address, with the areas that were handed out and not freed yet. -/
structure ManagedChunk where
  id : Nat
  chunk : PcpuChunk
  immutable : Bool
  nrPopulated : Nat
  live : List Area

/-- The variables of the allocator.  `toFree` is the list of `pcpu_balance_workfn`, and
    `reclaimAt` the place that the loop over the pages of its first chunk has reached. -/
structure System where
  unitPages : Nat
  chunks : List ManagedChunk
  pcpuSlot : Nat → List Nat
  toFree : List Nat
  reclaimAt : Nat
  reservedChunk : Option Nat
  nrEmptyPopPages : Int
  nrPopulated : Int

namespace System

/-- `pcpu_unit_size`. -/
def unitSize (sys : System) : Nat := sys.unitPages * pageSize

/-- `__pcpu_size_to_slot`. -/
def sizeToSlot (size : Nat) : Nat := max (fls size + 2 - slotBaseShift) 1

/-- `pcpu_nr_slots`. -/
def nrSlots (sys : System) : Nat := sizeToSlot sys.unitSize + 2

def pcpuSizeToSlot (sys : System) (size : Nat) : Nat :=
  if size = sys.unitSize then sys.nrSlots - 1 else sizeToSlot size

def pcpuChunkSlot (sys : System) (chunk : PcpuChunk) : Nat :=
  if chunk.freeBytes < minAllocSize ∨ chunk.contigBits = 0 then 0 else sys.pcpuSizeToSlot chunk.freeBytes.toNat

def find (sys : System) (id : Nat) : Option ManagedChunk := sys.chunks.find? fun c => c.id = id

def setChunk (sys : System) (c : ManagedChunk) : System :=
  { sys with chunks := sys.chunks.map fun d => if d.id = c.id then c else d }

/-! ## Lists -/

/-- `list_move` to the slot, or `list_move_tail`. -/
def listMove (sys : System) (id slot : Nat) (head : Bool) : System :=
  { sys with
    toFree := sys.toFree.erase id
    pcpuSlot := fun i =>
      let rest := (sys.pcpuSlot i).erase id
      if i = slot then if head then id :: rest else rest ++ [id] else rest }

def pcpuChunkRelocate (sys : System) (id : Nat) (chunk : PcpuChunk) (oslot : Int) : System :=
  let nslot := sys.pcpuChunkSlot chunk
  if sys.reservedChunk ≠ some id ∧ oslot ≠ nslot then sys.listMove id nslot (oslot < nslot) else sys

/-- What `pcpu_alloc_area` and `pcpu_free_area` do beside the chunk, which they turn into
    `chunk`.  The count of a chunk is written by `pcpu_chunk_refresh_hint` only, which adds the
    difference to the count of the system unless the chunk is the reserved one. -/
def changed (sys : System) (c : ManagedChunk) (chunk : PcpuChunk) (live : List Area) : System :=
  let oslot := sys.pcpuChunkSlot c.chunk
  let sys := { sys.setChunk { c with chunk := chunk, live := live } with
    nrEmptyPopPages :=
      if sys.reservedChunk ≠ some c.id then sys.nrEmptyPopPages + (chunk.nrEmptyPopPages - c.chunk.nrEmptyPopPages)
      else sys.nrEmptyPopPages }
  sys.pcpuChunkRelocate c.id chunk oslot

/-! ## Areas -/

/-- The body of the loops of `pcpu_alloc` over the chunks. -/
def tryChunk (sys : System) (size a alignment : Nat) (isAtomic : Bool) (id : Nat) : Option (Nat × Nat × System) := do
  let bits := size / minAllocSize
  let bitAlign := a / minAllocSize
  let c ← sys.find id
  let off ← pcpuFindBlockFit c.chunk bits bitAlign isAtomic
  let (off, chunk) ← pcpuAllocArea c.chunk bits bitAlign off
  return (id, off, sys.changed c chunk (⟨off, size, alignment⟩ :: c.live))

/-- The search through the normal chunks, from the label `restart` on. -/
def searchSlots (sys : System) (size a alignment : Nat) (isAtomic : Bool) : Option (Nat × Nat × System) :=
  let slot := sys.pcpuSizeToSlot size
  (List.range' slot (sys.nrSlots - slot)).findSome? fun slot =>
    (sys.pcpuSlot slot).findSome? (sys.tryChunk size a alignment isAtomic)

/-- `pcpu_alloc` from the taking of the lock to `area_found`, for a size and an alignment that
    passed the check; `alignment` is the one that was asked for. -/
def search (sys : System) (size a alignment : Nat) (reserved isAtomic : Bool) : Option (Nat × Nat × System) :=
  match reserved, sys.reservedChunk with
  | true, some id => sys.tryChunk size a alignment isAtomic id
  | _, _ => sys.searchSlots size a alignment isAtomic

def freeArea (sys : System) (c : ManagedChunk) (area : Area) : System :=
  sys.changed c (pcpuFreeArea c.chunk area.off) (c.live.erase area)

/-! ## Pages -/

def pcpuChunkPopulated (sys : System) (c : ManagedChunk) (pageStart pageEnd : Nat) (forAlloc : Bool) : System :=
  let nr := pageEnd - pageStart
  let empty := if forAlloc then 0 else nr
  { sys.setChunk { c with
      chunk := { c.chunk with
        populated := bitmapSet c.chunk.populated pageStart nr
        nrEmptyPopPages := c.chunk.nrEmptyPopPages + empty }
      nrPopulated := c.nrPopulated + nr } with
    nrPopulated := sys.nrPopulated + nr
    nrEmptyPopPages := sys.nrEmptyPopPages + empty }

def pcpuChunkDepopulated (sys : System) (c : ManagedChunk) (pageStart pageEnd : Nat) : System :=
  let nr := pageEnd - pageStart
  { sys.setChunk { c with
      chunk := { c.chunk with
        populated := bitmapClear c.chunk.populated pageStart nr
        nrEmptyPopPages := c.chunk.nrEmptyPopPages - nr }
      nrPopulated := c.nrPopulated - nr } with
    nrPopulated := sys.nrPopulated - nr
    nrEmptyPopPages := sys.nrEmptyPopPages - nr }

def pcpuNextPop (m : Bitmap) (rs stop : Nat) : Nat × Nat :=
  let rs := findNextBit m stop rs
  (rs, findNextZeroBit m stop (rs + 1))

/-! ## Chunks -/

/-- `pcpu_create_chunk`, and the lock section that puts the chunk on a list. -/
def createChunk (sys : System) (id : Nat) (beyond : Bitmap) : System :=
  let chunk := pcpuAllocChunk sys.unitPages beyond
  let sys := { sys with chunks := ⟨id, chunk, false, 0, []⟩ :: sys.chunks }
  sys.pcpuChunkRelocate id chunk (-1)

/-- The first loop of `pcpu_balance_workfn`: all fully free chunks but the first one move to the
    head of `to_free`, one after another. -/
def spareFirst (sys : System) : System :=
  match sys.pcpuSlot (sys.nrSlots - 1) with
  | [] => sys
  | first :: rest =>
      { sys with
        pcpuSlot := fun i => if i = sys.nrSlots - 1 then [first] else sys.pcpuSlot i
        toFree := rest.reverse ++ sys.toFree
        reclaimAt := 0 }

def pcpuDestroyChunk (sys : System) (id : Nat) : System :=
  { sys with chunks := sys.chunks.filter fun c => c.id ≠ id, toFree := sys.toFree.erase id, reclaimAt := 0 }

/-- The memory behind the map of a chunk changes. -/
def elsewhere (sys : System) (c : ManagedChunk) (beyond : Bitmap) : System :=
  sys.setChunk { c with chunk := { c.chunk with
    allocMap := fun i => if i < c.chunk.mapBits then c.chunk.allocMap i else beyond i } }

/-! ## Steps -/

/-- The pages from `rs` to `re` are not populated. -/
def Unpopulated (chunk : PcpuChunk) (rs re : Nat) : Prop :=
  rs < re ∧ re ≤ chunk.nrPages ∧ ∀ i, rs ≤ i → i < re → chunk.populated i = false

inductive Step : System → System → Prop where
  /-- `pcpu_alloc` finds an area. -/
  | alloc {sys sys' : System} {size a id off : Nat} {request : Nat × Nat} {reserved isAtomic : Bool}
      (accepted : pcpuAllocRequest size a = some request)
      (found : sys.search request.1 request.2 a reserved isAtomic = some (id, off, sys')) : Step sys sys'
  /-- `free_percpu`, or `pcpu_alloc` when it could not populate the area. -/
  | free {sys : System} {c : ManagedChunk} {area : Area} (member : c ∈ sys.chunks) (live : area ∈ c.live) :
      Step sys (sys.freeArea c area)
  /-- `pcpu_alloc` has populated pages of an area it has found. -/
  | populateArea {sys : System} {c : ManagedChunk} {area : Area} {rs re : Nat} (member : c ∈ sys.chunks)
      (live : area ∈ c.live) (pages : Unpopulated c.chunk rs re)
      (inArea : area.off / pageSize ≤ rs ∧ re ≤ (area.off + area.size + (pageSize - 1)) / pageSize) :
      Step sys (sys.pcpuChunkPopulated c rs re true)
  /-- `pcpu_balance_workfn` has populated pages of a chunk that is on a slot. -/
  | populate {sys : System} {c : ManagedChunk} {slot rs re : Nat} (member : c ∈ sys.chunks)
      (listed : c.id ∈ sys.pcpuSlot slot) (pages : Unpopulated c.chunk rs re) :
      Step sys (sys.pcpuChunkPopulated c rs re false)
  | create {sys : System} {id : Nat} (beyond : Bitmap) (unused : ∀ c ∈ sys.chunks, c.id ≠ id) :
      Step sys (sys.createChunk id beyond)
  /-- The work starts: no earlier work is under way. -/
  | spareFirst {sys : System} (idle : sys.toFree = []) : Step sys sys.spareFirst
  | depopulate {sys : System} {c : ManagedChunk} {rest : List Nat} {rs re : Nat} (member : c ∈ sys.chunks)
      (first : sys.toFree = c.id :: rest) (region : pcpuNextPop c.chunk.populated sys.reclaimAt c.chunk.nrPages = (rs, re))
      (some : rs < re) : Step sys { sys.pcpuChunkDepopulated c rs re with reclaimAt := re + 1 }
  | destroy {sys : System} {c : ManagedChunk} {rest : List Nat} {rs re : Nat} (member : c ∈ sys.chunks)
      (first : sys.toFree = c.id :: rest) (region : pcpuNextPop c.chunk.populated sys.reclaimAt c.chunk.nrPages = (rs, re))
      (none : ¬ rs < re) : Step sys (sys.pcpuDestroyChunk c.id)
  | elsewhere {sys : System} {c : ManagedChunk} (beyond : Bitmap) (member : c ∈ sys.chunks) :
      Step sys (sys.elsewhere c beyond)

/-! ## The start -/

/-- The sizes that `pcpu_setup_first_chunk` is called with, as far as its checks and
    `pcpu_build_alloc_info` ensure them. -/
structure Sizes where
  unitPages : Nat
  staticSize : Nat
  reservedSize : Nat
  dynSize : Nat
  static_pos : 0 < staticSize
  minUnit : minUnitSize ≤ unitPages * pageSize
  room : staticSize + reservedSize + dynSize ≤ unitPages * pageSize
  reservedUnits : minAllocSize ∣ reservedSize
  pages : pageSize ∣ staticSize + reservedSize + dynSize
  early : dynamicEarlySize ≤ dynSize

/-- A chunk for a region of the first chunk. -/
def firstChunk (id tmpAddr mapSize : Nat) (beyond : Bitmap) : ManagedChunk :=
  let chunk := pcpuAllocFirstChunk tmpAddr mapSize beyond
  ⟨id, chunk, true, chunk.nrPages, []⟩

/-- `pcpu_setup_first_chunk` after its checks; the chunks are at 0 and 1. -/
def setupFirstChunk (sizes : Sizes) (baseAddr : Nat) (beyond : Bitmap) : System :=
  let staticSize := align sizes.staticSize minAllocSize
  let dynSize := sizes.dynSize - (staticSize - sizes.staticSize)
  let tmpAddr := baseAddr + staticSize
  let nrPopulated := (sizes.staticSize + sizes.reservedSize + sizes.dynSize) / pageSize
  let sys : System := { unitPages := sizes.unitPages, chunks := [], pcpuSlot := fun _ => [], toFree := [], reclaimAt := 0
                        reservedChunk := none, nrEmptyPopPages := 0, nrPopulated := nrPopulated }
  let first := firstChunk 0 (tmpAddr + sizes.reservedSize) dynSize beyond
  let sys :=
    if sizes.reservedSize ≠ 0 then
      { sys with reservedChunk := some 1, chunks := [first, firstChunk 1 tmpAddr sizes.reservedSize beyond] }
    else { sys with chunks := [first] }
  { sys with nrEmptyPopPages := first.chunk.nrEmptyPopPages }.pcpuChunkRelocate 0 first.chunk (-1)

/-- The states that runs reach from a setup at a page-aligned address. -/
inductive Reachable : System → Prop where
  | setup (sizes : Sizes) {baseAddr : Nat} (beyond : Bitmap) (aligned : pageSize ∣ baseAddr) :
      Reachable (setupFirstChunk sizes baseAddr beyond)
  | step {sys sys' : System} (run : Reachable sys) (taken : Step sys sys') : Reachable sys'

end System

end Miracle.Percpu
