import Miracle.Lib.Word
import Miracle.Lib.Outcome
import Miracle.Lib.SearchTree

/-! # The set of vmap areas

Areas of kernel virtual addresses live in a red-black tree and in a list sorted by address.
An area is identified with its range: areas are not empty and do not overlap, which is what
is proved about them.  What the tree's rebalancing does is a parameter; it keeps the order of
the nodes.
-/

namespace Miracle.Vmalloc

open SearchTree

def pageSize : Nat := 4096

/-- `VMALLOC_START`, for 48 bits of virtual addresses. -/
def vmallocStart : Nat := 2 ^ 64 - 2 ^ 48

/-- `VMALLOC_END`: below the linear map, a page upper directory entry, the page array and
    64 KiB. -/
def vmallocEnd : Nat := 2 ^ 64 - 2 ^ 47 - 2 ^ 30 - 2 ^ 41 - 2 ^ 16

structure VmapArea where
  vaStart : Nat
  vaEnd : Nat
deriving DecidableEq, Repr

/-- `rb_insert_color` after a node was linked, and `rb_erase`. -/
structure Rebalancing where
  insertColor : BinTree VmapArea → BinTree VmapArea
  erase : VmapArea → BinTree VmapArea → BinTree VmapArea
  insertColor_inorder : ∀ t, (insertColor t).inorder = t.inorder
  erase_inorder : ∀ va t, (erase va t).inorder = t.inorder.erase va

/-- The `BUG_ON`s that end the run of the kernel. -/
inductive Bug where
  | insert
  | emptyNode
  | badRequest
  | badResult
  | badOffsets
  | badScan
  | badFree
  | badEarly
deriving DecidableEq, Repr

inductive Errno where
  | enomem
  | ebusy
deriving DecidableEq, Repr

structure Vmap where
  /-- `vmap_area_root` -/
  root : BinTree VmapArea
  /-- `vmap_area_list` -/
  areaList : List VmapArea
  /-- `free_vmap_cache` -/
  freeCache : Option VmapArea
  cachedHoleSize : Nat
  cachedVstart : Nat
  cachedAlign : Nat
  /-- `vmap_area_pcpu_hole` -/
  pcpuHole : Nat
  /-- The areas with the flag `VM_VM_AREA`. -/
  vmFlag : VmapArea → Bool
  /-- `vmap_purge_list` -/
  purgeList : List VmapArea
  /-- `vmap_lazy_nr`, an `int` -/
  lazyNr : Int

/-- `ALIGN` on `u64` values, for a power of two. -/
def alignUp (x a : Nat) : Nat := u64 ((x + (a - 1)) / a * a)

/-- `x & ~(a - 1)`. -/
def alignDown (x a : Nat) : Nat := x / a * a

def isPowerOf2 (n : Nat) : Bool := n ≠ 0 && (n &&& (n - 1)) == 0

/-! ## Insertion and removal -/

def insertDir (va tmp : VmapArea) : Dir :=
  if va.vaStart < tmp.vaEnd then .left
  else if tmp.vaStart < va.vaEnd then .right
  else .stop

/-- `__insert_vmap_area`. -/
def insertVmapArea (rb : Rebalancing) (s : Vmap) (va : VmapArea) : Except Bug Vmap :=
  match link (insertDir va) va s.root with
  | none => .error .insert
  | some linked =>
    let root := rb.insertColor linked
    let areaList := match prevIn root.inorder va with
      | some prev => insertAfter prev va s.areaList
      | none => va :: s.areaList
    .ok { s with root := root, areaList := areaList }

/-- The cache after an area is freed. -/
def freedCache (s : Vmap) (va : VmapArea) : Option VmapArea :=
  match s.freeCache with
  | none => none
  | some cache =>
    if va.vaEnd < s.cachedVstart then none
    else if va.vaStart ≤ cache.vaStart then prevIn s.root.inorder va
    else some cache

/-- `__free_vmap_area`. -/
def freeVmapArea (rb : Rebalancing) (s : Vmap) (va : VmapArea) : Except Bug Vmap :=
  if va ∈ s.root.inorder then
    .ok { s with
      freeCache := freedCache s va
      root := rb.erase va s.root
      areaList := s.areaList.erase va
      pcpuHole := if vmallocStart < va.vaEnd ∧ va.vaEnd ≤ vmallocEnd then max s.pcpuHole va.vaEnd else s.pcpuHole }
  else .error .emptyNode

/-- The pages of an area. -/
def nrPages (va : VmapArea) : Nat := (va.vaEnd - va.vaStart) / pageSize

/-- The value of an `int` after an addition. -/
def int32 (n : Int) : Int := n.bmod (2 ^ 32)

/-- The loop of `__purge_vmap_area_lazy` over the areas taken from the list. -/
def purgeAreas (rb : Rebalancing) : List VmapArea → Vmap → Except Bug Vmap
  | [], s => .ok s
  | va :: rest, s => do
    let s ← freeVmapArea rb s va
    purgeAreas rb rest { s with lazyNr := int32 (s.lazyNr - nrPages va) }

/-- `__purge_vmap_area_lazy`. -/
def purgeVmapAreaLazy (rb : Rebalancing) (s : Vmap) : Except Bug Vmap :=
  purgeAreas rb s.purgeList { s with purgeList := [] }

/-! ## Allocation -/

/-- The walk from `first` on: the address of a hole, or `none` for an overflow, and the size
    of the largest hole passed over. -/
def walkAreas (size a vend : Nat) : List VmapArea → Nat → Nat → Option Nat × Nat
  | [], addr, hole => (some addr, hole)
  | first :: rest, addr, hole =>
    if first.vaStart < addr + size ∧ addr + size ≤ vend then
      let hole := if u64 (addr + hole) < first.vaStart then first.vaStart - addr else hole
      let addr := alignUp first.vaEnd a
      if 2 ^ 64 ≤ addr + size then (none, hole)
      else if rest = [] then (some addr, hole)
      else walkAreas size a vend rest addr hole
    else (some addr, hole)

/-- The search without the cache, from `vstart` on. -/
def searchNocache (s : Vmap) (size a vstart vend : Nat) : Option Nat × Vmap :=
  let s := { s with cachedHoleSize := 0, freeCache := none, cachedVstart := vstart, cachedAlign := a }
  let addr := alignUp vstart a
  if 2 ^ 64 ≤ addr + size then (none, s)
  else
    match firstKept (fun tmp => decide (addr ≤ tmp.vaEnd)) (fun tmp => decide (tmp.vaStart ≤ addr)) s.root none with
    | none => (some addr, s)
    | some first =>
      let found := walkAreas size a vend (suffixFrom first s.areaList) addr s.cachedHoleSize
      (found.1, { s with cachedHoleSize := found.2 })

/-- The search of `alloc_vmap_area`, from the cached area on where it is permitted. -/
def searchAreas (s : Vmap) (size a vstart vend : Nat) : Option Nat × Vmap :=
  match s.freeCache with
  | none => searchNocache s size a vstart vend
  | some first =>
    if size < s.cachedHoleSize ∨ vstart < s.cachedVstart ∨ a < s.cachedAlign then
      searchNocache s size a vstart vend
    else
      let addr := alignUp first.vaEnd a
      if addr < vstart then searchNocache s size a vstart vend
      else
        let s := { s with cachedVstart := vstart, cachedAlign := a }
        if 2 ^ 64 ≤ addr + size then (none, s)
        else
          let found := walkAreas size a vend (suffixFrom first s.areaList) addr s.cachedHoleSize
          (found.1, { s with cachedHoleSize := found.2 })

/-- One pass of `alloc_vmap_area` under the lock: the area, or `none` for an overflow. -/
def tryAllocVmapArea (rb : Rebalancing) (s : Vmap) (size a vstart vend : Nat) :
    Except Bug (Option VmapArea × Vmap) :=
  match searchAreas s size a vstart vend with
  | (none, s) => .ok (none, s)
  | (some addr, s) =>
    if vend < addr + size then .ok (none, s)
    else do
      let va : VmapArea := ⟨addr, addr + size⟩
      let s ← insertVmapArea rb s va
      if va.vaStart % a ≠ 0 ∨ va.vaStart < vstart ∨ vend < va.vaEnd then .error .badResult
      else .ok (some va, { s with freeCache := some va, vmFlag := Function.update s.vmFlag va false })

/-- `alloc_vmap_area`; `mem` says whether the memory for the area could be had. -/
def allocVmapArea (rb : Rebalancing) (s : Vmap) (size a vstart vend : Nat) (mem : Bool) :
    Except Bug (Except Errno VmapArea × Vmap) :=
  if size = 0 ∨ size % pageSize ≠ 0 ∨ isPowerOf2 a = false then .error .badRequest
  else if mem = false then .ok (.error .enomem, s)
  else do
    let (first, s) ← tryAllocVmapArea rb s size a vstart vend
    match first with
    | some va => .ok (.ok va, s)
    | none =>
      let s ← purgeVmapAreaLazy rb s
      let (second, s) ← tryAllocVmapArea rb s size a vstart vend
      match second with
      | some va => .ok (.ok va, s)
      | none => .ok (.error .ebusy, s)

/-- `setup_vmalloc_vm`. -/
def setupVmallocVm (s : Vmap) (va : VmapArea) : Vmap := { s with vmFlag := Function.update s.vmFlag va true }

/-! ## Freeing -/

/-- `__find_vmap_area`. -/
def findVmapArea (addr : Nat) : BinTree VmapArea → Option VmapArea
  | .leaf => none
  | .node l va r =>
    if addr < va.vaStart then findVmapArea addr l
    else if va.vaEnd ≤ addr then findVmapArea addr r
    else some va

/-- `free_vmap_area_noflush`, with `lazyMax` for `lazy_max_pages`.  The comparison is one of
    `u64` values, in which a negative count is large. -/
def freeVmapAreaNoflush (rb : Rebalancing) (lazyMax : Nat) (s : Vmap) (va : VmapArea) : Except Bug Vmap :=
  let s := { s with
    lazyNr := int32 (s.lazyNr + nrPages va)
    purgeList := va :: s.purgeList }
  if s.lazyNr < 0 ∨ (lazyMax : Int) < s.lazyNr then purgeVmapAreaLazy rb s else .ok s

/-- `remove_vm_area`: the area that was removed. -/
def removeVmArea (rb : Rebalancing) (lazyMax : Nat) (s : Vmap) (addr : Nat) :
    Except Bug (Option VmapArea × Vmap) :=
  match findVmapArea addr s.root with
  | none => .ok (none, s)
  | some va =>
    if s.vmFlag va then do
      let s := { s with vmFlag := Function.update s.vmFlag va false }
      let s ← freeVmapAreaNoflush rb lazyMax s va
      .ok (some va, s)
    else .ok (none, s)

/-- `pcpu_free_vm_areas`. -/
def pcpuFreeVmAreas (rb : Rebalancing) (lazyMax : Nat) : List VmapArea → Vmap → Except Bug Vmap
  | [], s => .ok s
  | vm :: rest, s => do
    let (removed, s) ← removeVmArea rb lazyMax s vm.vaStart
    if removed ≠ some vm then .error .badFree else pcpuFreeVmAreas rb lazyMax rest s

/-! ## Areas for the per-CPU allocator -/

def pvmDir (stop : Nat) (va : VmapArea) : Dir :=
  if stop < va.vaEnd then .left else if va.vaEnd < stop then .right else .stop

/-- The areas around an address: `next` ends above it, `prev` does not. -/
structure Around where
  next : Option VmapArea
  prev : Option VmapArea

/-- `pvm_find_next_prev`. -/
def pvmFindNextPrev (root : BinTree VmapArea) (stop : Nat) : Option Around :=
  (lastVisited (pvmDir stop) root).map fun va =>
    if stop < va.vaEnd then ⟨some va, prevIn root.inorder va⟩ else ⟨nextIn root.inorder va, some va⟩

/-- The loop of `pvm_determine_end`, down from the areas around; `areas` are those before
    `next`, the nearest first. -/
def lowerAround (addr : Nat) : List VmapArea → Option VmapArea → Around
  | [], next => ⟨next, none⟩
  | prev :: rest, next => if addr < prev.vaEnd then lowerAround addr rest (some prev) else ⟨next, some prev⟩

/-- The areas up to `prev`, downwards. -/
def downFrom (l : List VmapArea) : Option VmapArea → List VmapArea
  | none => []
  | some prev => suffixFrom prev l.reverse

/-- `pvm_determine_end`. -/
def pvmDetermineEnd (root : BinTree VmapArea) (around : Around) (a : Nat) : Nat × Around :=
  let limit := alignDown vmallocEnd a
  let addr := match around.next with
    | some next => min (alignDown next.vaStart a) limit
    | none => limit
  (addr, lowerAround addr (downFrom root.inorder around.prev) around.next)

/-- An offset and a size that are asked for together. -/
structure Part where
  offset : Nat
  size : Nat
deriving DecidableEq, Repr

def Part.stop (p : Part) : Nat := p.offset + p.size

/-- The place of the part with the highest offset, the first one of them. -/
def lastArea (parts : List Part) : Nat :=
  (List.range parts.length).foldl (fun last area =>
    if (parts.getD last ⟨0, 0⟩).offset < (parts.getD area ⟨0, 0⟩).offset then area else last) 0

/-- The state of the top-down scan. -/
structure Scan where
  base : Nat
  area : Nat
  termArea : Nat
  around : Around

inductive ScanStep where
  | next (scan : Scan)
  | found (base : Nat)
  | low

/-- The scan after its base was moved down to fit below the areas around. -/
def lowerScan (root : BinTree VmapArea) (a : Nat) (part : Part) (scan : Scan) (around : Around) : Scan :=
  let lowered := pvmDetermineEnd root around a
  { scan with base := u64Sub lowered.1 part.stop, termArea := scan.area, around := lowered.2 }

/-- One round of the scan's loop. -/
def scanRound (root : BinTree VmapArea) (parts : List Part) (a lastEnd : Nat) (scan : Scan) : Except Bug ScanStep :=
  let part := parts.getD scan.area ⟨0, 0⟩
  let top := u64 (scan.base + part.stop)
  if scan.around.next.any (fun next => next.vaEnd ≤ top) ∨ scan.around.prev.any (fun prev => top < prev.vaEnd) then
    .error .badScan
  else if u64 (scan.base + lastEnd) < u64 (alignUp vmallocStart a + lastEnd) then .ok .low
  else if scan.around.next.any (fun next => next.vaStart < top) then
    .ok (.next (lowerScan root a part scan scan.around))
  else
    match scan.around.prev.filter (fun prev => u64 (scan.base + part.offset) < prev.vaEnd) with
    | some prev => .ok (.next (lowerScan root a part scan ⟨some prev, prevIn root.inorder prev⟩))
    | none =>
      let area := (scan.area + parts.length - 1) % parts.length
      if area = scan.termArea then .ok (.found scan.base)
      else
        let stop := u64 (scan.base + (parts.getD area ⟨0, 0⟩).stop)
        .ok (.next { scan with area := area, around := (pvmFindNextPrev root stop).getD scan.around })

/-- The scan's loop, for as many rounds as are given: `none` while it is still running, else
    the base, if there is one. -/
def scanLoop (root : BinTree VmapArea) (parts : List Part) (a lastEnd : Nat) : Nat → Scan → Except Bug (Option (Option Nat))
  | 0, _ => .ok none
  | rounds + 1, scan => do
    match ← scanRound root parts a lastEnd scan with
    | .next scan => scanLoop root parts a lastEnd rounds scan
    | .found base => .ok (some (some base))
    | .low => .ok (some none)

/-- The base for all parts, found from the top of the address range. -/
def findBase (s : Vmap) (parts : List Part) (a rounds : Nat) : Except Bug (Option (Option Nat)) :=
  let last := lastArea parts
  let part := parts.getD last ⟨0, 0⟩
  match pvmFindNextPrev s.root s.pcpuHole with
  | none => .ok (some (some (u64Sub (alignDown vmallocEnd a) part.stop)))
  | some around =>
    scanLoop s.root parts a part.stop rounds (lowerScan s.root a part ⟨0, last, last, around⟩ around)

/-- Inserts the area of every part. -/
def insertParts (rb : Rebalancing) (base : Nat) : List Part → Vmap → Except Bug Vmap
  | [], s => .ok s
  | part :: rest, s => do
    let start := u64 (base + part.offset)
    let s ← insertVmapArea rb s ⟨start, u64 (start + part.size)⟩
    insertParts rb base rest s

/-- The areas that the parts get. -/
def partAreas (base : Nat) (parts : List Part) : List VmapArea :=
  parts.map fun part => ⟨u64 (base + part.offset), u64 (u64 (base + part.offset) + part.size)⟩

/-- The end of `pcpu_get_vm_areas`, when all parts fit at the base. -/
def placeParts (rb : Rebalancing) (s : Vmap) (parts : List Part) (base : Nat) :
    Except Bug (Option (Option (List VmapArea) × Vmap)) := do
  let s ← insertParts rb base parts s
  let s := { s with pcpuHole := u64 (base + (parts.getD (lastArea parts) ⟨0, 0⟩).offset) }
  .ok (some (some (partAreas base parts), (partAreas base parts).foldl setupVmallocVm s))

/-- The checks of `pcpu_get_vm_areas` on its arguments. -/
def partsValid (parts : List Part) (a : Nat) : Bool :=
  decide (a % pageSize = 0) && isPowerOf2 a &&
    parts.all (fun part => part.offset % a == 0 && part.size % a == 0) &&
    decide (parts.Pairwise fun p q => ¬(q.offset < p.stop ∧ p.offset < q.stop))

/-- `pcpu_get_vm_areas`: the areas or `NULL`, or `none` while the scans are still running.
    `mem` says whether the memory for the areas could be had. -/
def pcpuGetVmAreas (rb : Rebalancing) (s : Vmap) (parts : List Part) (a : Nat) (mem : Bool) (rounds : Nat) :
    Except Bug (Option (Option (List VmapArea) × Vmap)) :=
  let lastEnd := (parts.getD (lastArea parts) ⟨0, 0⟩).stop
  if partsValid parts a = false then .error .badOffsets
  else if u64Sub (alignDown vmallocEnd a) (alignUp vmallocStart a) < lastEnd ∨ mem = false then .ok (some (none, s))
  else do
    match ← findBase s parts a rounds with
    | none => .ok none
    | some (some base) => placeParts rb s parts base
    | some none =>
      let s ← purgeVmapAreaLazy rb s
      match ← findBase s parts a rounds with
      | none => .ok none
      | some (some base) => placeParts rb s parts base
      | some none => .ok (some (none, s))

/-! ## Early areas -/

/-- `vm_area_add_early`: the list of early areas with one more. -/
def vmAreaAddEarly (vm : VmapArea) : List VmapArea → Except Bug (List VmapArea)
  | [] => .ok [vm]
  | tmp :: rest =>
    if vm.vaStart ≤ tmp.vaStart then
      if tmp.vaStart < vm.vaEnd then .error .badEarly else .ok (vm :: tmp :: rest)
    else if vm.vaStart < tmp.vaEnd then .error .badEarly
    else do
      let rest ← vmAreaAddEarly vm rest
      .ok (tmp :: rest)

/-- The early areas and `vm_init_off`. -/
structure Early where
  vmlist : List VmapArea
  vmInitOff : Nat

/-- `vm_area_register_early`. -/
def vmAreaRegisterEarly (early : Early) (size a : Nat) : Except Bug Early := do
  let addr := alignUp (u64 (vmallocStart + early.vmInitOff)) a
  let vmInitOff := u64Sub (alignUp (u64 (addr + size)) pageSize) vmallocStart
  let vmlist ← vmAreaAddEarly ⟨addr, addr + size⟩ early.vmlist
  .ok ⟨vmlist, vmInitOff⟩

/-- The import of the early areas in `vmalloc_init`. -/
def importEarly (rb : Rebalancing) : List VmapArea → Vmap → Except Bug Vmap
  | [], s => .ok s
  | tmp :: rest, s => do
    let s ← insertVmapArea rb s tmp
    importEarly rb rest (setupVmallocVm s tmp)

def emptyVmap : Vmap where
  root := .leaf
  areaList := []
  freeCache := none
  cachedHoleSize := 0
  cachedVstart := 0
  cachedAlign := 0
  pcpuHole := 0
  vmFlag := fun _ => false
  purgeList := []
  lazyNr := 0

/-- `vmalloc_init`. -/
def vmallocInit (rb : Rebalancing) (early : Early) : Except Bug Vmap := do
  let s ← importEarly rb early.vmlist emptyVmap
  .ok { s with pcpuHole := vmallocEnd }

end Miracle.Vmalloc
