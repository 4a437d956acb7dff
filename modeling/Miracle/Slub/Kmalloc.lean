import Miracle.Slub.MergeRuns

/-! # Size classes of `kmalloc`

The class of a small size is found at run time in a table that boot patches for the smallest
object, and at compile time by a ladder of comparisons.  Larger sizes go to the page
allocator.
-/

namespace Miracle.Slub

inductive KmallocType where
  | normal
  | dma
  deriving DecidableEq, Repr

/-- `KMALLOC_SHIFT_HIGH`. -/
def kmallocShiftHigh : Nat := 13

def kmallocMaxCacheSize : Nat := 1 <<< kmallocShiftHigh

def kmallocType (gfp : BitVec 32) : KmallocType := if gfp &&& gfpDma = 0 then .normal else .dma

/-- The sizes of `kmalloc_info`. -/
def kmallocInfo : List Nat :=
  [0, 96, 192, 8, 16, 32, 64, 128, 256, 512, 1024, 2048, 4096, 8192, 16384, 32768, 65536, 131072, 262144, 524288,
    1048576, 2097152, 4194304, 8388608, 16777216, 33554432, 67108864]

section Tables

/-! The constants `KMALLOC_SHIFT_LOW` and `KMALLOC_MIN_SIZE = 1 << KMALLOC_SHIFT_LOW` choose the tables. -/

variable (shiftLow : Nat)

def kmallocSize (n : Nat) : Nat :=
  if 2 < n then u32 (1 <<< n)
  else if n = 1 ∧ 1 <<< shiftLow ≤ 32 then 96
  else if n = 2 ∧ 1 <<< shiftLow ≤ 64 then 192
  else 0

/-- `kmalloc_index`; `none` is `BUG()`. -/
def kmallocIndex (size : Nat) : Option Nat :=
  let minSize := 1 <<< shiftLow
  if size = 0 then some 0
  else if size ≤ minSize then some shiftLow
  else if minSize ≤ 32 ∧ 64 < size ∧ size ≤ 96 then some 1
  else if minSize ≤ 64 ∧ 128 < size ∧ size ≤ 192 then some 2
  else if size ≤ 8 then some 3
  else if size ≤ 16 then some 4
  else if size ≤ 32 then some 5
  else if size ≤ 64 then some 6
  else if size ≤ 128 then some 7
  else if size ≤ 256 then some 8
  else if size ≤ 512 then some 9
  else if size ≤ 1024 then some 10
  else if size ≤ 2 * 1024 then some 11
  else if size ≤ 4 * 1024 then some 12
  else if size ≤ 8 * 1024 then some 13
  else if size ≤ 16 * 1024 then some 14
  else if size ≤ 32 * 1024 then some 15
  else if size ≤ 64 * 1024 then some 16
  else if size ≤ 128 * 1024 then some 17
  else if size ≤ 256 * 1024 then some 18
  else if size ≤ 512 * 1024 then some 19
  else if size ≤ 1024 * 1024 then some 20
  else if size ≤ 2 * 1024 * 1024 then some 21
  else if size ≤ 4 * 1024 * 1024 then some 22
  else if size ≤ 8 * 1024 * 1024 then some 23
  else if size ≤ 16 * 1024 * 1024 then some 24
  else if size ≤ 32 * 1024 * 1024 then some 25
  else if size ≤ 64 * 1024 * 1024 then some 26
  else none

/-- `size_index` as the source initialises it. -/
def sizeIndexInit : List Nat := [3, 4, 5, 5, 6, 6, 6, 6, 1, 1, 1, 1, 7, 7, 7, 7, 2, 2, 2, 2, 2, 2, 2, 2]

def sizeIndexElem (bytes : Nat) : Nat := (bytes - 1) / 8

/-- `for (i = 8; i < KMALLOC_MIN_SIZE; i += 8)`, with the number of rounds left. -/
def patchLow : Nat → Nat → List Nat → List Nat
  | 0, _, table => table
  | n + 1, i, table =>
      if table.length ≤ sizeIndexElem i then table
      else patchLow n (i + 8) (table.set (sizeIndexElem i) shiftLow)

/-- A loop that writes one value for the sizes `i`, `i + 8`, ..., with the number of rounds left. -/
def patchWith (value : Nat) : Nat → Nat → List Nat → List Nat
  | 0, _, table => table
  | n + 1, i, table => patchWith value n (i + 8) (table.set (sizeIndexElem i) value)

/-- `setup_kmalloc_cache_index_table`. -/
def setupKmallocCacheIndexTable : List Nat :=
  let minSize := 1 <<< shiftLow
  let table := patchLow shiftLow ((minSize - 1) / 8) 8 sizeIndexInit
  -- The 96 byte size cache is not used if the alignment is 64 byte.
  let table := if 64 ≤ minSize then patchWith 7 4 (64 + 8) table else table
  -- The 192 byte sized cache is not used if the alignment is 128 byte.
  if 128 ≤ minSize then patchWith 8 8 (128 + 8) table else table

end Tables

/-! ## Boot -/

/-- The caches, `kmalloc_caches` with positions in that list, and `size_index`. -/
structure KmallocState where
  caches : List KmemCache
  kmallocCaches : KmallocType → Nat → Option Nat
  sizeIndex : List Nat

namespace KmallocState

/-- Adds a cache and enters it in `kmalloc_caches`. -/
def enter (st : KmallocState) (type : KmallocType) (idx : Nat) (s : KmemCache) : KmallocState :=
  { st with
    caches := st.caches ++ [s]
    kmallocCaches := fun t i => if t = type ∧ i = idx then some st.caches.length else st.kmallocCaches t i }

end KmallocState

/-- At boot a failed allocation ends in `panic`, so the allocations succeed. -/
def bootMemory : Memory := ⟨true, true, true⟩

section Boot

variable (cfg : Config)

/-- `new_kmalloc_cache` for the type `KMALLOC_NORMAL`. -/
def newKmallocCache (flags : SlabFlags) (st : KmallocState) (idx : Nat) : Except Fault KmallocState := do
  let size := kmallocInfo.getD idx 0
  let s ← createKmallocCache cfg bootMemory size flags 0 size
  return st.enter .normal idx s

/-- `new_kmalloc_cache` where it is wanted and there is no cache. -/
def ensureCache (flags : SlabFlags) (st : KmallocState) (idx : Nat) (wanted : Bool) : Except Fault KmallocState :=
  if wanted = true ∧ st.kmallocCaches .normal idx = none then newKmallocCache cfg flags st idx else .ok st

/-- One round of the first loop of `create_kmalloc_caches`. -/
def createClass (flags : SlabFlags) (st : KmallocState) (i : Nat) : Except Fault KmallocState := do
  let st ← ensureCache cfg flags st i true
  -- Caches that are not of the two-to-the-power-of size.
  let st ← ensureCache cfg flags st 1 (decide (cfg.kmallocMinSize ≤ 32) && decide (i = 6))
  ensureCache cfg flags st 2 (decide (cfg.kmallocMinSize ≤ 64) && decide (i = 7))

/-- One round of the second loop, for `KMALLOC_DMA`. -/
def createDmaClass (flags : SlabFlags) (st : KmallocState) (i : Nat) : Except Fault KmallocState :=
  match st.kmallocCaches .normal i with
  | none => .ok st
  | some _ => do
      let s ← createKmallocCache cfg bootMemory (kmallocSize cfg.kmallocShiftLow i) (slabCacheDma ||| flags) 0 0
      return st.enter .dma i s

def createKmallocCaches (flags : SlabFlags) (st : KmallocState) : Except Fault KmallocState := do
  let st ← (List.range' cfg.kmallocShiftLow (kmallocShiftHigh + 1 - cfg.kmallocShiftLow)).foldlM (createClass cfg flags) st
  (List.range (kmallocShiftHigh + 1)).foldlM (createDmaClass cfg flags) st

/-- The caches that `kmem_cache_init` describes, with the lengths of `struct kmem_cache_node` and of
    `struct kmem_cache`; `bootstrap` is to enter copies of the two caches of boot. -/
def kmemCacheInit : Except Fault KmallocState := do
  let node ← createBootCache cfg bootMemory 32 slabHwcacheAlign 0 0
  let cache ← createBootCache cfg bootMemory 120 slabHwcacheAlign 0 0
  createKmallocCaches cfg 0
    { caches := [cache, node]
      kmallocCaches := fun _ _ => none
      sizeIndex := setupKmallocCacheIndexTable cfg.kmallocShiftLow }

end Boot

/-! ## Allocation -/

/-- Where an allocation goes: to the page allocator, to a cache, or nowhere.  `nullCache` is
    `kmem_cache_alloc` on `NULL`. -/
inductive Chosen where
  | large (order : Nat)
  | zeroSize
  | null
  | cache (i : Nat)
  | nullCache
  | bug
  deriving DecidableEq, Repr

/-- The cache of `kmalloc_caches[type][index]`; `missing` is what becomes of a `NULL` there. -/
def KmallocState.entry (st : KmallocState) (type : KmallocType) (index : Nat) (missing : Chosen) : Chosen :=
  match st.kmallocCaches type index with
  | none => missing
  | some i => .cache i

/-- `kmalloc_slab`. -/
def KmallocState.kmallocSlab (st : KmallocState) (size : Nat) (gfp : BitVec 32) : Chosen :=
  if size ≤ 192 then
    if size = 0 then .zeroSize
    else st.entry (kmallocType gfp) (st.sizeIndex.getD (sizeIndexElem size) 0) .null
  else if kmallocMaxCacheSize < size then .null
  else st.entry (kmallocType gfp) (fls (size - 1)) .null

/-- `__kmalloc`. -/
def KmallocState.kmallocRunTime (st : KmallocState) (size : Nat) (gfp : BitVec 32) : Chosen :=
  if kmallocMaxCacheSize < size then .large (getOrder size) else st.kmallocSlab size gfp

/-- `get_order` of a constant; `ilog2(n - 1) - PAGE_SHIFT + 1` is an `int`. -/
def getOrderConst (n : Nat) : Nat := if n = 0 then 64 - 12 else if n < 1 <<< 12 then 0 else (n - 1).log2 + 1 - 12

/-- `kmalloc` of a constant size. -/
def KmallocState.kmallocConstant (cfg : Config) (st : KmallocState) (size : Nat) (gfp : BitVec 32) : Chosen :=
  if kmallocMaxCacheSize < size then .large (getOrderConst size)
  else
    match kmallocIndex cfg.kmallocShiftLow size with
    | none => .bug
    | some 0 => .zeroSize
    | some index => st.entry (kmallocType gfp) index .nullCache

/-- `slab_ksize`. -/
def slabKsize (s : KmemCache) : Nat := if s.flags &&& slabStoreUser ≠ 0 then s.inuse else s.size

end Miracle.Slub
