import Miracle.Memblock.Basic

/-! # Updating the region arrays

`memblock_add_range`, `memblock_isolate_range` and `memblock_double_array` call
each other: an update that finds its array full doubles it, and the doubling frees
the old array and reserves the new one.  The updates take the doubling as an
argument, and `memblockDoubleArray` closes the recursion.  Only the growth of
`memory` can need a growth of `reserved` inside it, so the nesting is bounded.
-/

namespace Miracle.Memblock

/-- `memblock_double_array(type, new_area_start, new_area_size)`. -/
abbrev Doubling := State → TypeId → Nat → Nat → Except Bug (State × Int)

/-- `while (type->cnt + need > type->max) if (memblock_double_array(..) < 0) ..`;
    the flag tells whether there is room at the end. -/
def growWhile (double : Doubling) (ty : TypeId) (need start size : Nat) :
    Nat → State → Except Bug (State × Bool)
  | 0, _ => .error .outOfFuel
  | fuel + 1, mb =>
      if (mb.type ty).cnt + need > (mb.type ty).max then do
        let (mb, ret) ← double mb ty start size
        if ret < 0 then return (mb, false) else growWhile double ty need start size fuel mb
      else return (mb, true)

/-- `max` is a `u64` and doubles with every round. -/
def growRounds : Nat := 64

/-- The variables of one round of `memblock_add_range`. -/
structure AddRound where
  type : MemblockType
  idx : Nat
  base : Nat
  nrNew : Nat

/-- `nr_new++; if (insert) memblock_insert_region(type, idx, base, stop - base, flags)`. -/
def AddRound.place (insert : Bool) (stop : Nat) (flags : Flags) (s : AddRound) :
    Except Bug AddRound :=
  if insert then do
    let t ← memblockInsertRegion s.type s.idx s.base (stop - s.base) flags
    return { s with type := t, idx := s.idx + 1, nrNew := s.nrNew + 1 }
  else return { s with nrNew := s.nrNew + 1 }

/-- The loop over the regions in one round of `memblock_add_range`. -/
def addRoundLoop (insert : Bool) (end_ : Nat) (flags : Flags) :
    Nat → AddRound → Except Bug AddRound
  | 0, _ => .error .outOfFuel
  | fuel + 1, s =>
      if s.idx < s.type.cnt then
        let rbase := (s.type.rgn s.idx).base
        let rend := (s.type.rgn s.idx).limit
        if rbase ≥ end_ then .ok s
        else if rend ≤ s.base then addRoundLoop insert end_ flags fuel { s with idx := s.idx + 1 }
        else do
          -- the region separates the lower part of the new area
          let s ← if rbase > s.base then s.place insert rbase flags else .ok s
          addRoundLoop insert end_ flags fuel { s with base := min rend end_, idx := s.idx + 1 }
      else .ok s

/-- One round: count the missing pieces and, with `insert`, put them in place. -/
def addRound (insert : Bool) (t : MemblockType) (base end_ : Nat) (flags : Flags) :
    Except Bug AddRound := do
  let s ← addRoundLoop insert end_ flags (t.cnt + 1) ⟨t, 0, base, 0⟩
  if s.base < end_ then s.place insert end_ flags else return s

/-- The second round, with the merging that ends it. -/
def addInsert (t : MemblockType) (base end_ : Nat) (flags : Flags) : Except Bug MemblockType := do
  let s ← addRound true t base end_ flags
  if s.nrNew = 0 then return s.type else memblockMergeRegions s.type

def addRangeWith (double : Doubling) (mb : State) (ty : TypeId) (base size : Nat) (flags : Flags) :
    Except Bug (State × Int) :=
  let size := memblockCapSize base size
  let end_ := u64 (base + size)
  let t := mb.type ty
  if size = 0 then .ok (mb, 0)
  -- special case for an empty array
  else if (t.rgn 0).size = 0 then
    .ok (mb.setType ty { t with regions := t.regions.set 0 ⟨base, size, flags⟩, totalSize := size }, 0)
  else do
    let first ← addRound false t base end_ flags
    if first.nrNew = 0 then return (mb, 0)
    let (mb, room) ← growWhile double ty first.nrNew base size growRounds mb
    if room then
      let t ← addInsert (mb.type ty) base end_ flags
      return (mb.setType ty t, 0)
    else return (mb, -enomem)

/-- The variables of the loop of `memblock_isolate_range`. -/
structure Isolate where
  type : MemblockType
  idx : Nat
  startRgn : Nat
  endRgn : Nat

/-- `rgn->base = at; rgn->size -= at - rbase;` and the lower part inserted before it. -/
def splitRegion (t : MemblockType) (idx cut : Nat) : Except Bug MemblockType :=
  let r := t.rgn idx
  let lower := cut - r.base
  memblockInsertRegion
    { t with
      regions := t.regions.set idx ⟨cut, u64Sub r.size lower, r.tag⟩
      totalSize := u64Sub t.totalSize lower }
    idx r.base lower r.tag

def isolateLoop (base end_ : Nat) : Nat → Isolate → Except Bug Isolate
  | 0, _ => .error .outOfFuel
  | fuel + 1, s =>
      if s.idx < s.type.cnt then
        let rbase := (s.type.rgn s.idx).base
        let rend := (s.type.rgn s.idx).limit
        if rbase ≥ end_ then .ok s
        else if rend ≤ base then isolateLoop base end_ fuel { s with idx := s.idx + 1 }
        else if rbase < base then do
          -- intersects from below: continue with the new top half
          let t ← splitRegion s.type s.idx base
          isolateLoop base end_ fuel { s with type := t, idx := s.idx + 1 }
        else if rend > end_ then do
          -- intersects from above: redo the new bottom half
          let t ← splitRegion s.type s.idx end_
          isolateLoop base end_ fuel { s with type := t }
        else
          isolateLoop base end_ fuel
            { s with
              idx := s.idx + 1
              startRgn := if s.endRgn = 0 then s.idx else s.startRgn
              endRgn := s.idx + 1 }
      else .ok s

/-- `memblock_isolate_range`: return value, `*start_rgn` and `*end_rgn`. -/
def isolateRangeWith (double : Doubling) (mb : State) (ty : TypeId) (base size : Nat) :
    Except Bug (State × Int × Nat × Nat) :=
  let size := memblockCapSize base size
  let end_ := u64 (base + size)
  if size = 0 then .ok (mb, 0, 0, 0)
  else do
    -- at most two more regions are created
    let (mb, room) ← growWhile double ty 2 base size growRounds mb
    if room then
      let t := mb.type ty
      let s ← isolateLoop base end_ (t.cnt + 3) ⟨t, 0, 0, 0⟩
      return (mb.setType ty s.type, 0, s.startRgn, s.endRgn)
    else return (mb, -enomem, 0, 0)

/-- `for (i = end_rgn - 1; i >= start_rgn; i--) memblock_remove_region(type, i)`,
    with the number of regions still to remove. -/
def removeRegions (t : MemblockType) (startRgn : Nat) : Nat → MemblockType
  | 0 => t
  | n + 1 => removeRegions (memblockRemoveRegion t (startRgn + n)) startRgn n

def removeRangeWith (double : Doubling) (mb : State) (ty : TypeId) (base size : Nat) :
    Except Bug (State × Int) := do
  let (mb, ret, startRgn, endRgn) ← isolateRangeWith double mb ty base size
  if ret ≠ 0 then return (mb, ret)
  else return (mb.setType ty (removeRegions (mb.type ty) startRgn (endRgn - startRgn)), 0)

/-- Bytes of the page aligned block that holds an array of `max` regions. -/
def arrayAllocSize (max : Nat) : Nat := pageAlign (max * sizeofRegion)

/-- Does writing `[addr, addr + size)` touch the storage of this array? -/
def coversArray (addr size : Nat) (t : MemblockType) : Bool :=
  match t.array with
  | none => false
  | some pa => decide (addr < pa + t.max * sizeofRegion ∧ pa < addr + size)

/-- `memcpy` and `memset` write the new array while the arrays are in use: does that
    leave the block that was found, or touch an array? -/
def overruns (mb : State) (addr size : Nat) : Bool :=
  decide (pageAlign size < size) || coversArray addr size mb.memory ||
    coversArray addr size mb.reserved

/-- The address of the doubled array's storage, zero if there is none. -/
def findNewArray (env : Env) (mb : State) (ty : TypeId) (newAreaStart newAreaSize : Nat) : Nat :=
  let newSize := (mb.type ty).max * sizeofRegion * 2
  if env.slabIsAvailable then env.kmalloc ty newSize
  else
    -- only exclude the range when doubling `reserved.regions`
    let (newAreaStart, newAreaSize) :=
      if ty = .reserved then (newAreaStart, newAreaSize) else (0, 0)
    let addr := memblockFindInRange env mb (u64 (newAreaStart + newAreaSize)) mb.currentLimit.toNat
      (pageAlign newSize) pageSize
    if addr = 0 ∧ newAreaSize ≠ 0 then
      memblockFindInRange env mb 0 (min newAreaStart mb.currentLimit.toNat) (pageAlign newSize) pageSize
    else addr

/-- `kfree` or `memblock_free` of the array `old` was using; the static array is kept. -/
def freeOldArray (double : Doubling) (mb : State) (old : MemblockType) : Except Bug State :=
  match old.inSlab, old.array with
  | false, some pa => do
      let (mb, _) ← removeRangeWith double mb .reserved pa (arrayAllocSize old.max)
      return mb
  | _, _ => .ok mb

/-- `if (!use_slab) BUG_ON(memblock_reserve(addr, new_alloc_size))`. -/
def reserveNewArray (env : Env) (double : Doubling) (mb : State) (addr max : Nat) :
    Except Bug State :=
  if env.slabIsAvailable then .ok mb
  else do
    let (mb, ret) ← addRangeWith double mb .reserved addr (arrayAllocSize max) Flags.none
    if ret ≠ 0 then .error .doubleArray else return mb

/-- `memblock_double_array`.  `depth` bounds the nesting of doublings. -/
def memblockDoubleArray (env : Env) : Nat → Doubling
  | 0, _, _, _, _ => .error .outOfFuel
  | depth + 1, mb, ty, newAreaStart, newAreaSize =>
      if mb.canResize = false then .ok (mb, -1)
      else
        let old := mb.type ty
        let addr := findNewArray env mb ty newAreaStart newAreaSize
        if addr = 0 then .ok (mb, -1)
        else if env.slabIsAvailable = false ∧ overruns mb addr (old.max * sizeofRegion * 2) then
          .error .arrayOverlap
        else do
          let mb := mb.setType ty { old with max := old.max * 2, array := some addr }
          let mb ← freeOldArray (memblockDoubleArray env depth) mb old
          let mb ← reserveNewArray env (memblockDoubleArray env depth) mb addr (old.max * 2)
          return (mb.setType ty { mb.type ty with inSlab := env.slabIsAvailable }, 0)

/-- A doubling of `memory` can contain one of `reserved`, which contains none. -/
def nesting : Nat := 2

/-! ## The memblock operations

The public operations, as functions of the boot environment and the memblock
state, and runs of them.
-/

section

variable (env : Env)

def memblockAddRange (mb : State) (ty : TypeId) (base size : Nat) (flags : Flags) :
    Except Bug (State × Int) :=
  addRangeWith (memblockDoubleArray env nesting) mb ty base size flags

def memblockIsolateRange (mb : State) (ty : TypeId) (base size : Nat) :
    Except Bug (State × Int × Nat × Nat) :=
  isolateRangeWith (memblockDoubleArray env nesting) mb ty base size

def memblockRemoveRange (mb : State) (ty : TypeId) (base size : Nat) : Except Bug (State × Int) :=
  removeRangeWith (memblockDoubleArray env nesting) mb ty base size

def memblockAdd (mb : State) (base size : Nat) : Except Bug (State × Int) :=
  memblockAddRange env mb .memory base size Flags.none

def memblockRemove (mb : State) (base size : Nat) : Except Bug (State × Int) :=
  memblockRemoveRange env mb .memory base size

def memblockFree (mb : State) (base size : Nat) : Except Bug (State × Int) :=
  memblockRemoveRange env mb .reserved base size

def memblockReserve (mb : State) (base size : Nat) : Except Bug (State × Int) :=
  memblockAddRange env mb .reserved base size Flags.none

/-- `memblock_set_region_flags` or `memblock_clear_region_flags`. -/
def setclr (set : Bool) (flag : Flags) (r : Region) : Region :=
  { r with tag := if set then r.tag ||| flag else r.tag &&& ~~~flag }

/-- `for (i = start_rgn; i < end_rgn; i++)` with the number of rounds left. -/
def setclrRegions (set : Bool) (flag : Flags) (t : MemblockType) (i : Nat) : Nat → MemblockType
  | 0 => t
  | n + 1 =>
      setclrRegions set flag { t with regions := t.regions.modify i (setclr set flag) } (i + 1) n

def memblockSetclrFlag (mb : State) (base size : Nat) (set : Bool) (flag : Flags) :
    Except Bug (State × Int) := do
  let (mb, ret, startRgn, endRgn) ← memblockIsolateRange env mb .memory base size
  if ret ≠ 0 then return (mb, ret)
  let t ← memblockMergeRegions (setclrRegions set flag mb.memory startRgn (endRgn - startRgn))
  return ({ mb with memory := t }, 0)

def memblockMarkNomap (mb : State) (base size : Nat) : Except Bug (State × Int) :=
  memblockSetclrFlag env mb base size true Flags.nomap

def memblockClearNomap (mb : State) (base size : Nat) : Except Bug (State × Int) :=
  memblockSetclrFlag env mb base size false Flags.nomap

def memblockMarkDma (mb : State) (base size : Nat) : Except Bug (State × Int) :=
  memblockSetclrFlag env mb base size true Flags.dma

def memblockClearDma (mb : State) (base size : Nat) : Except Bug (State × Int) :=
  memblockSetclrFlag env mb base size false Flags.dma

def memblockMarkMovable (mb : State) (base size : Nat) : Except Bug (State × Int) :=
  memblockSetclrFlag env mb base size true Flags.movable

def memblockClearMovable (mb : State) (base size : Nat) : Except Bug (State × Int) :=
  memblockSetclrFlag env mb base size false Flags.movable

/-- The loop of `__find_max_addr` over the regions. -/
def findMaxAddrLoop : List Region → Nat → Nat
  | [], _ => physAddrMax
  | r :: rest, limit =>
      if limit ≤ r.size then u64 (r.base + limit) else findMaxAddrLoop rest (limit - r.size)

def findMaxAddr (mb : State) (limit : Nat) : Nat := findMaxAddrLoop mb.memory.regions limit

def memblockEnforceMemoryLimit (mb : State) (limit : Nat) : Except Bug State :=
  if limit = 0 then .ok mb
  else
    let maxAddr := findMaxAddr mb limit
    if maxAddr = physAddrMax then .ok mb
    else do
      let (mb, _) ← memblockRemoveRange env mb .memory maxAddr physAddrMax
      let (mb, _) ← memblockRemoveRange env mb .reserved maxAddr physAddrMax
      return mb

/-- The removal loops of `memblock_cap_memory_range`: the mapped regions with
    indices in `[lo, lo + n)` are removed from the top down. -/
def removeMapped (t : MemblockType) (lo : Nat) : Nat → MemblockType
  | 0 => t
  | n + 1 =>
      removeMapped (if memblockIsNomap (t.rgn (lo + n)) then t else memblockRemoveRegion t (lo + n))
        lo n

def memblockCapMemoryRange (mb : State) (base size : Nat) : Except Bug State :=
  if size = 0 then .ok mb
  else do
    let (mb, ret, startRgn, endRgn) ← memblockIsolateRange env mb .memory base size
    if ret ≠ 0 then return mb
    let above := removeMapped mb.memory endRgn (mb.memory.cnt - endRgn)
    let mb := { mb with memory := removeMapped above 0 startRgn }
    let (mb, _) ← memblockRemoveRange env mb .reserved 0 base
    let (mb, _) ← memblockRemoveRange env mb .reserved (u64 (base + size)) physAddrMax
    return mb

def memblockMemLimitRemoveMap (mb : State) (limit : Nat) : Except Bug State :=
  if limit = 0 then .ok mb
  else
    let maxAddr := findMaxAddr mb limit
    if maxAddr = physAddrMax then .ok mb else memblockCapMemoryRange env mb 0 maxAddr

end

/-- The attribute that a mark or clear operation changes. -/
inductive Attribute where
  | nomap
  | dma
  | movable
  deriving DecidableEq, Repr

/-- The operations of a run, with arguments of the source's 64 bit type.  The last
    three change what a later doubling of an array can do. -/
inductive Op where
  | add (base size : BitVec 64)
  | remove (base size : BitVec 64)
  | reserve (base size : BitVec 64)
  | free (base size : BitVec 64)
  | mark (attr : Attribute) (base size : BitVec 64)
  | clear (attr : Attribute) (base size : BitVec 64)
  | capMemoryRange (base size : BitVec 64)
  | enforceMemoryLimit (limit : BitVec 64)
  | memLimitRemoveMap (limit : BitVec 64)
  | allowResize
  | setCurrentLimit (limit : BitVec 64)
  | setBottomUp (enable : Bool)
  deriving DecidableEq, Repr

def discard (r : Except Bug (State × Int)) : Except Bug State := r.map Prod.fst

/-- One operation; the return value is dropped. -/
def step (env : Env) (mb : State) : Op → Except Bug State
  | .add base size => discard (memblockAdd env mb base.toNat size.toNat)
  | .remove base size => discard (memblockRemove env mb base.toNat size.toNat)
  | .reserve base size => discard (memblockReserve env mb base.toNat size.toNat)
  | .free base size => discard (memblockFree env mb base.toNat size.toNat)
  | .mark .nomap base size => discard (memblockMarkNomap env mb base.toNat size.toNat)
  | .mark .dma base size => discard (memblockMarkDma env mb base.toNat size.toNat)
  | .mark .movable base size => discard (memblockMarkMovable env mb base.toNat size.toNat)
  | .clear .nomap base size => discard (memblockClearNomap env mb base.toNat size.toNat)
  | .clear .dma base size => discard (memblockClearDma env mb base.toNat size.toNat)
  | .clear .movable base size => discard (memblockClearMovable env mb base.toNat size.toNat)
  | .capMemoryRange base size => memblockCapMemoryRange env mb base.toNat size.toNat
  | .enforceMemoryLimit limit => memblockEnforceMemoryLimit env mb limit.toNat
  | .memLimitRemoveMap limit => memblockMemLimitRemoveMap env mb limit.toNat
  | .allowResize => .ok { mb with canResize := true }
  | .setCurrentLimit limit => .ok { mb with currentLimit := limit }
  | .setBottomUp enable => .ok { mb with bottomUp := enable }

/-- A run: the environment may differ from operation to operation. -/
def run (mb : State) : List (Env × Op) → Except Bug State
  | [] => .ok mb
  | (env, op) :: ops => do
      let mb ← step env mb op
      run mb ops

end Miracle.Memblock
