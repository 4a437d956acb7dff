import Miracle.Lib.Word
import Miracle.Lib.Extent

/-! # The memblock region arrays

`struct memblock` keeps two arrays of physical memory regions, `memory` and
`reserved`.  This module has the data model and the functions that edit one
array in place.  A `BUG_ON` is an error of the `Except` monad that names its site.
-/

namespace Miracle.Memblock

/-- `PHYS_ADDR_MAX`, also the value of `MEMBLOCK_ALLOC_ANYWHERE`. -/
def physAddrMax : Nat := 2 ^ 64 - 1

def pageSize : Nat := 4096

/-- `INIT_MEMBLOCK_REGIONS` and `INIT_MEMBLOCK_RESERVED_REGIONS`. -/
def initMemblockRegions : Nat := 128

/-- `sizeof(struct memblock_region)`. -/
def sizeofRegion : Nat := 24

def enomem : Int := 12

/-- `enum memblock_flags`, whose values the code combines bit by bit. -/
abbrev Flags := BitVec 32

namespace Flags

def none : Flags := 0x0
def nomap : Flags := 0x1
def dma : Flags := 0x2
def movable : Flags := 0x3

end Flags

/-- `struct memblock_region`; the extent's tag holds the flags. -/
abbrev Region := Extent Flags

/-- The empty dummy entry of an array without regions. -/
def Region.dummy : Region := ⟨0, 0, Flags.none⟩

/-- `rgn->base + rgn->size` as the code computes it. -/
def Region.limit (r : Region) : Nat := u64 (r.base + r.size)

def memblockIsNomap (r : Region) : Bool := r.tag &&& Flags.nomap != 0

/-- Places at which the code stops.  The last two are not `BUG_ON`s: in
    `arrayOverlap` a doubled array is written over storage that is not its own, and
    `outOfFuel` marks a loop of the model that was cut off. -/
inductive Bug where
  | insertRegion
  | mergeRegions
  | doubleArray
  | arrayOverlap
  | outOfFuel
  deriving DecidableEq, Repr

/-- `struct memblock_type`.  `regions` lists the entries below `cnt`; `array` is
    the physical address of the storage, `none` for the static initial array. -/
structure MemblockType where
  regions : List Region
  max : Nat
  totalSize : Nat
  array : Option Nat
  inSlab : Bool
  deriving DecidableEq, Repr

def MemblockType.cnt (t : MemblockType) : Nat := t.regions.length

def MemblockType.rgn (t : MemblockType) (i : Nat) : Region := t.regions.getD i Region.dummy

/-- Which of the two arrays an operation works on. -/
inductive TypeId where
  | memory
  | reserved
  deriving DecidableEq, Repr

/-- `struct memblock` together with the file's own flag `memblock_can_resize`. -/
structure State where
  bottomUp : Bool
  currentLimit : BitVec 64
  memory : MemblockType
  reserved : MemblockType
  canResize : Bool
  deriving DecidableEq, Repr

namespace State

def type (mb : State) : TypeId → MemblockType
  | .memory => mb.memory
  | .reserved => mb.reserved

def setType (mb : State) : TypeId → MemblockType → State
  | .memory, t => { mb with memory := t }
  | .reserved, t => { mb with reserved := t }

end State

def MemblockType.init : MemblockType :=
  { regions := [Region.dummy], max := initMemblockRegions, totalSize := 0,
    array := none, inSlab := false }

/-- The statically initialised `struct memblock memblock`. -/
def State.init : State :=
  { bottomUp := false, currentLimit := .ofNat 64 physAddrMax, memory := .init, reserved := .init,
    canResize := false }

/-- Adjust `size` so that `base + size` does not overflow. -/
def memblockCapSize (base size : Nat) : Nat := min size (physAddrMax - base)

def memblockRemoveRegion (t : MemblockType) (r : Nat) : MemblockType :=
  let regions := t.regions.eraseIdx r
  { t with
    totalSize := u64Sub t.totalSize (t.rgn r).size
    -- an array never becomes empty: the dummy entry takes the place of the last region
    regions := if regions.length = 0 then [Region.dummy] else regions }

def memblockInsertRegion (t : MemblockType) (idx base size : Nat) (flags : Flags) :
    Except Bug MemblockType :=
  if t.cnt ≥ t.max then .error .insertRegion
  else .ok { t with
    regions := t.regions.insertIdx idx ⟨base, size, flags⟩
    totalSize := u64 (t.totalSize + size) }

/-- The loop of `memblock_merge_regions` from index `i` on. -/
def memblockMergeLoop : Nat → MemblockType → Nat → Except Bug MemblockType
  | 0, _, _ => .error .outOfFuel
  | fuel + 1, t, i =>
      if i + 1 < t.cnt then
        let this := t.rgn i
        let next := t.rgn (i + 1)
        if this.limit ≠ next.base ∨ this.tag ≠ next.tag then
          if this.limit > next.base then .error .mergeRegions
          else memblockMergeLoop fuel t (i + 1)
        else
          let merged := { this with size := u64 (this.size + next.size) }
          memblockMergeLoop fuel { t with regions := (t.regions.set i merged).eraseIdx (i + 1) } i
      else .ok t

def memblockMergeRegions (t : MemblockType) : Except Bug MemblockType :=
  memblockMergeLoop (t.cnt + 1) t 0

/-! ## Searching for free boot memory

The iterators over `memory && !reserved` and the searches built on them.  The
iterators keep two array indices packed in one `u64`; the value `ULLONG_MAX`
ends an iteration.
-/

/-- `__round_mask` and `round_down` of `u64` operands. -/
def roundDown (x y : Nat) : Nat := x &&& (physAddrMax - u64Sub y 1)

def roundUp (x y : Nat) : Nat := u64 ((u64Sub x 1 ||| u64Sub y 1) + 1)

def clamp (val lo hi : Nat) : Nat := min (max val lo) hi

def pageAlign (n : Nat) : Nat := roundDown (u64 (n + (pageSize - 1))) pageSize

def ullongMax : Nat := 2 ^ 64 - 1

/-- `(u32)idx_a | (u64)idx_b << 32`. -/
def packIdx (idxA idxB : Int) : Nat :=
  (idxA % 2 ^ 32).toNat ||| ((idxB % 2 ^ 32).toNat <<< 32)

/-- A 32 bit pattern read back as an `int`. -/
def toInt32 (n : Nat) : Int := if n < 2 ^ 31 then n else (n : Int) - 2 ^ 32

def idxA (idx : Nat) : Int := toInt32 (idx &&& 0xffffffff)
def idxB (idx : Nat) : Int := toInt32 (idx >>> 32)

/-- A range produced by an iterator with the index to continue from. -/
structure MemRange where
  idx : Nat
  outStart : Nat
  outEnd : Nat
  deriving DecidableEq, Repr

/-- `r[-1].base + r[-1].size`, the start of the gap before entry `i` of `type_b`. -/
def gapStart (tb : MemblockType) (i : Nat) : Nat := if i = 0 then 0 else (tb.rgn (i - 1)).limit

/-- The base of entry `i` of `type_b`, the end of the gap before it. -/
def gapEnd (tb : MemblockType) (i : Nat) : Nat :=
  if i < tb.cnt then (tb.rgn i).base else physAddrMax

/-- The inner loop of `__next_mem_range`: `type_b` is scanned upwards from `b`.
    Either a range is found or the scan stops at some index. -/
def nextMemRangeGaps (tb : MemblockType) (a mStart mEnd : Nat) : Nat → Nat → MemRange ⊕ Nat
  | 0, b => .inr b
  | fuel + 1, b =>
      if b < tb.cnt + 1 then
        let rStart := gapStart tb b
        let rEnd := gapEnd tb b
        -- `idx_b` advanced past `idx_a`
        if rStart ≥ mEnd then .inr b
        else if mStart < rEnd then
          .inl {
            -- the region which ends first is advanced for the next iteration
            idx := if mEnd ≤ rEnd then packIdx (a + 1) b else packIdx a (b + 1)
            outStart := max mStart rStart
            outEnd := min mEnd rEnd }
        else nextMemRangeGaps tb a mStart mEnd fuel (b + 1)
      else .inr b

/-- The outer loop of `__next_mem_range`, from index `a` of `type_a`. -/
def nextMemRangeLoop (flags : Flags) (ta : MemblockType) (tb : Option MemblockType) :
    Nat → Nat → Nat → Option MemRange
  | 0, _, _ => none
  | fuel + 1, a, b =>
      if a < ta.cnt then
        let m := ta.rgn a
        if flags &&& Flags.nomap = 0 ∧ memblockIsNomap m then
          nextMemRangeLoop flags ta tb fuel (a + 1) b
        else match tb with
          | none => some { idx := packIdx (a + 1) b, outStart := m.base, outEnd := m.limit }
          | some tb =>
              match nextMemRangeGaps tb a m.base m.limit (tb.cnt + 1 - b) b with
              | .inl range => some range
              | .inr b => nextMemRangeLoop flags ta (some tb) fuel (a + 1) b
      else none

/-- A signed loop index compared with an unsigned count: a negative one is above it. -/
def belowOrEnd (idx : Int) (cnt : Nat) : Nat := if idx < 0 then cnt else idx.toNat

/-- `__next_mem_range`; `none` stands for `*idx == ULLONG_MAX` on return. -/
def nextMemRange (idx : Nat) (flags : Flags) (ta : MemblockType) (tb : Option MemblockType) :
    Option MemRange :=
  let a := belowOrEnd (idxA idx) ta.cnt
  let b := belowOrEnd (idxB idx) (match tb with | some tb => tb.cnt + 1 | none => 0)
  nextMemRangeLoop flags ta tb (ta.cnt + 1 - a) a b

/-- The inner loop of `__next_mem_range_rev`, where `idx_b` is one less than the
    first argument. -/
def nextMemRangeRevGaps (tb : MemblockType) (a mStart mEnd : Nat) : Nat → MemRange ⊕ Nat
  | 0 => .inr 0
  | b + 1 =>
      let rStart := gapStart tb b
      let rEnd := gapEnd tb b
      if rEnd ≤ mStart then .inr (b + 1)
      else if mEnd > rStart then
        .inl {
          idx := if mStart ≥ rStart then packIdx ((a : Int) - 1) b else packIdx a ((b : Int) - 1)
          outStart := max mStart rStart
          outEnd := min mEnd rEnd }
      else nextMemRangeRevGaps tb a mStart mEnd b

/-- The outer loop of `__next_mem_range_rev`; both index arguments are one more
    than the source's `idx_a` and `idx_b`. -/
def nextMemRangeRevLoop (flags : Flags) (ta : MemblockType) (tb : Option MemblockType) :
    Nat → Nat → Option MemRange
  | 0, _ => none
  | a + 1, b =>
      let m := ta.rgn a
      if flags &&& Flags.nomap = 0 ∧ memblockIsNomap m then nextMemRangeRevLoop flags ta tb a b
      else match tb with
        | none =>
            some { idx := packIdx ((a : Int) - 1) ((b : Int) - 1), outStart := m.base,
                   outEnd := m.limit }
        | some tb =>
            match nextMemRangeRevGaps tb a m.base m.limit b with
            | .inl range => some range
            | .inr b => nextMemRangeRevLoop flags ta (some tb) a b

/-- `__next_mem_range_rev`; `none` stands for `*idx == ULLONG_MAX` on return. -/
def nextMemRangeRev (idx : Nat) (flags : Flags) (ta : MemblockType) (tb : Option MemblockType) :
    Option MemRange :=
  if idx = ullongMax then
    -- the counts are truncated to `int`
    let a := toInt32 (u64Sub ta.cnt 1 % 2 ^ 32)
    let b := match tb with | some tb => toInt32 (tb.cnt % 2 ^ 32) | none => 0
    nextMemRangeRevLoop flags ta tb (a + 1).toNat (b + 1).toNat
  else nextMemRangeRevLoop flags ta tb (idxA idx + 1).toNat (idxB idx + 1).toNat

/-- The body of `__memblock_find_range_bottom_up` on one free range. -/
def fitBottomUp (start end_ size align : Nat) (r : MemRange) : Option Nat :=
  let thisStart := clamp r.outStart start end_
  let thisEnd := clamp r.outEnd start end_
  let cand := roundUp thisStart align
  if cand < thisEnd ∧ thisEnd - cand ≥ size then some cand else none

/-- The body of `__memblock_find_range_top_down` on one free range. -/
def fitTopDown (start end_ size align : Nat) (r : MemRange) : Option Nat :=
  let thisStart := clamp r.outStart start end_
  let thisEnd := clamp r.outEnd start end_
  if thisEnd < size then none
  else
    let cand := roundDown (thisEnd - size) align
    if cand ≥ thisStart then some cand else none

/-- A `for_each_free_mem_range` loop that returns at the first range accepted by
    `fit`; `range` is the range the iterator produced last. -/
def findLoop (next : Nat → Option MemRange) (fit : MemRange → Option Nat) :
    Nat → Option MemRange → Nat
  | 0, _ => 0
  | _ + 1, none => 0
  | fuel + 1, some range =>
      if range.idx = ullongMax then 0
      else match fit range with
        | some cand => cand
        | none => findLoop next fit fuel (next range.idx)

/-- Every call of an iterator moves one of its two indices. -/
def iterations (mb : State) : Nat := mb.memory.cnt + mb.reserved.cnt + 2

def memblockFindRangeBottomUp (mb : State) (start end_ size align : Nat) (flags : Flags) : Nat :=
  let next := fun idx => nextMemRange idx flags mb.memory (some mb.reserved)
  findLoop next (fitBottomUp start end_ size align) (iterations mb) (next 0)

def memblockFindRangeTopDown (mb : State) (start end_ size align : Nat) (flags : Flags) : Nat :=
  let next := fun idx => nextMemRangeRev idx flags mb.memory (some mb.reserved)
  findLoop next (fitTopDown start end_ size align) (iterations mb) (next ullongMax)

/-- `KMALLOC_MAX_SIZE`, one block of the largest order of the page allocator. -/
def kmallocMaxSize : Nat := 2 ^ 22

/-- What the boot environment provides: whether `slab_is_available()`, the
    physical address of `kmalloc(size)` for a doubled array (zero on failure) and
    `__pa_symbol(_end)`. -/
structure Env where
  slabIsAvailable : Bool
  kmalloc : TypeId → Nat → Nat
  kmalloc_le : ∀ ty size, kmalloc ty size ≠ 0 → size ≤ kmallocMaxSize
  kernelEnd : Nat

/-- `__memblock_find_in_range`; zero means that nothing was found. -/
def memblockFindInRange' (env : Env) (mb : State) (size align start end_ : Nat) (flags : Flags) :
    Nat :=
  -- `MEMBLOCK_ALLOC_ACCESSIBLE` is zero and is pumped up to the limit
  let end_ := if end_ = 0 then mb.currentLimit.toNat else end_
  let start := max start pageSize
  let end_ := max start end_
  if mb.bottomUp ∧ end_ > env.kernelEnd then
    let ret := memblockFindRangeBottomUp mb (max start env.kernelEnd) end_ size align flags
    if ret ≠ 0 then ret else memblockFindRangeTopDown mb start end_ size align flags
  else memblockFindRangeTopDown mb start end_ size align flags

/-- `memblock_find_in_range` with the flags of `choose_memblock_flags`. -/
def memblockFindInRange (env : Env) (mb : State) (start end_ size align : Nat) : Nat :=
  memblockFindInRange' env mb size align start end_ Flags.none

end Miracle.Memblock
