import Miracle.Vmalloc.PageArray

/-! # Areas with their memory

An area of the set points to its `vm_struct`, which has the array of the pages behind the
area.  Memory that was handed out is named by a number; what is held is the set of the names
that were not given back.  The memory of the `vmap_area`s themselves is accounted for by the
set of areas.
-/

namespace Miracle.Vmalloc

/-- How a run can end: in a `BUG_ON` of the area set; in a `NULL` that is dereferenced; in the
    `BUG_ON` for a page; in a write past the array; in a free of what is not held.  `tooDeep` is
    the end of the model's recursion. -/
inductive Fault where
  | bug (bug : Bug)
  | nullArea
  | nullPage
  | overrun
  | badFree
  | tooDeep
deriving DecidableEq, Repr

/-- `area->pages`. -/
inductive PageArray where
  | null
  /-- `ZERO_SIZE_PTR` -/
  | zeroSize
  | object (ref : Nat)
  | area (addr : Nat)
deriving DecidableEq, Repr

structure VmStruct where
  addr : Nat
  size : Nat
  /-- `VM_NO_GUARD` -/
  noGuard : Bool
  nrPages : Nat
  pages : PageArray
  /-- The array, as far as it was filled. -/
  slots : List Nat
deriving DecidableEq, Repr

/-- `get_vm_area_size`. -/
def VmStruct.areaSize (s : VmStruct) : Nat := if s.noGuard then s.size else u64Sub s.size pageSize

structure VmFlags where
  /-- `VM_IOREMAP` -/
  ioremap : Bool
  /-- `VM_NO_GUARD` -/
  noGuard : Bool
deriving DecidableEq, Repr

structure Machine where
  rb : Rebalancing
  /-- `lazy_max_pages` -/
  lazyMax : Nat
  /-- `totalram_pages` -/
  totalram : Nat
  ksize : Nat → Nat
  room : KmallocRoom ksize

structure Kernel where
  vmap : Vmap
  /-- `va->vm` -/
  vm : VmapArea → Option Nat
  structs : Nat → VmStruct
  held : Finset Nat
  next : Nat

/-- Which allocations succeed while one area is built, and whether the pages can be mapped. -/
structure Attempt where
  vmStruct : Bool
  vmapArea : Bool
  array : Bool
  pages : Nat → Bool
  mapping : Bool

namespace Kernel

/-- Memory is handed out under a new name. -/
def take (k : Kernel) : Nat × Kernel := (k.next, { k with held := insert k.next k.held, next := k.next + 1 })

/-- Memory is given back. -/
def give (k : Kernel) (ref : Nat) : Except Fault Kernel :=
  if ref ∈ k.held then .ok { k with held := k.held.erase ref } else .error .badFree

def modify (k : Kernel) (ref : Nat) (f : VmStruct → VmStruct) : Kernel :=
  { k with structs := Function.update k.structs ref (f (k.structs ref)) }

/-- `setup_vmalloc_vm` for a `vm_struct` of zeroes. -/
def setup (k : Kernel) (ref : Nat) (va : VmapArea) (flags : VmFlags) : Kernel :=
  { k with
    vmap := setupVmallocVm k.vmap va
    vm := Function.update k.vm va (some ref)
    structs := Function.update k.structs ref
      { addr := va.vaStart, size := va.vaEnd - va.vaStart, noGuard := flags.noGuard, nrPages := 0, pages := .null, slots := [] } }

/-- `remove_vm_area`: the `vm_struct` of the area. -/
def removeVmArea (m : Machine) (k : Kernel) (addr : Nat) : Except Fault (Option Nat × Kernel) :=
  match findVmapArea addr k.vmap.root with
  | none => .ok (none, k)
  | some va =>
    if k.vmap.vmFlag va then do
      let (_, vmap) ← (Vmalloc.removeVmArea m.rb m.lazyMax k.vmap addr).mapError .bug
      .ok (k.vm va, { k with vmap := vmap, vm := Function.update k.vm va none })
    else .ok (none, k)

end Kernel

/-! ## Allocation of an area -/

def ioremapMaxOrder : Nat := 30

/-- `__get_vm_area_node`: the new `vm_struct`. -/
def getVmAreaNode (m : Machine) (k : Kernel) (size align : Nat) (flags : VmFlags) (start stop : Nat) (a : Attempt) :
    Except Fault (Option Nat × Kernel) :=
  let size := pageAlign size
  if size = 0 then .ok (none, k)
  else
    let align := if flags.ioremap then 2 ^ min (max (Nat.clog 2 size) 12) ioremapMaxOrder else align
    if a.vmStruct = false then .ok (none, k)
    else do
      let (area, k) := k.take
      let size := if flags.noGuard then size else u64 (size + pageSize)
      let (result, vmap) ← (allocVmapArea m.rb k.vmap size align start stop a.vmapArea).mapError .bug
      let k := { k with vmap := vmap }
      match result with
      | .error _ => do
        let k ← k.give area
        .ok (none, k)
      | .ok va => .ok (some area, k.setup area va flags)

/-! ## Freeing -/

inductive Report where
  | done
  | warned
deriving DecidableEq, Repr

/-- The loop of `__vunmap` over the pages. -/
def freePages : Nat → List Nat → Kernel → Except Fault Kernel
  | 0, _, k => .ok k
  | _ + 1, [], _ => .error .nullPage
  | n + 1, page :: slots, k => do
    let k ← k.give page
    freePages n slots k

/-- `kvfree` of an array, with `vfree` for an area. -/
def kvfree (vfree : Kernel → Nat → Except Fault (Report × Kernel)) (k : Kernel) : PageArray → Except Fault Kernel
  | .null => .ok k
  | .zeroSize => .ok k
  | .object ref => k.give ref
  | .area addr =>
    if vmallocStart ≤ addr ∧ addr < vmallocEnd then do
      let (_, k) ← vfree k addr
      .ok k
    else .error .badFree

/-- `__vunmap`, where arrays that are areas are at most so deep. -/
def vunmapArea (m : Machine) : Nat → Bool → Kernel → Nat → Except Fault (Report × Kernel)
  | 0, _, _, _ => .error .tooDeep
  | depth + 1, deallocatePages, k, addr =>
    if addr = 0 then .ok (.done, k)
    else if addr % pageSize ≠ 0 then .ok (.warned, k)
    else
      match findVmapArea addr k.vmap.root with
      | none => .error .nullArea
      | some va =>
        match k.vm va with
        | none => .ok (.warned, k)
        | some area => do
          let (_, k) ← k.removeVmArea m addr
          let s := k.structs area
          let k ← if deallocatePages then do
              let k ← freePages s.nrPages s.slots k
              kvfree (vunmapArea m depth true) k s.pages
            else .ok k
          let k ← k.give area
          .ok (.done, k)

/-- `vfree`, in process context. -/
def vfree (m : Machine) (depth : Nat) (k : Kernel) (addr : Nat) : Except Fault (Report × Kernel) :=
  if addr = 0 then .ok (.done, k) else vunmapArea m depth true k addr

/-- `vunmap`. -/
def vunmap (m : Machine) (depth : Nat) (k : Kernel) (addr : Nat) : Except Fault (Report × Kernel) :=
  if addr = 0 then .ok (.done, k) else vunmapArea m depth false k addr

/-! ## Allocation of pages for an area -/

/-- The array for an area of so many bytes, with `vmallocNode` for `__vmalloc_node`. -/
def allocArray (a : Attempt) (vmallocNode : Nat → Kernel → Except Fault (Option Nat × Kernel)) (bytes : Nat) (k : Kernel) :
    Except Fault (PageArray × Kernel) :=
  if pageSize < arraySize bytes then do
    let (addr, k) ← vmallocNode (arraySize bytes) k
    match addr with
    | none => .ok (.null, k)
    | some addr => .ok (.area addr, k)
  else if arraySize bytes = 0 then .ok (.zeroSize, k)
  else if a.array = false then .ok (.null, k)
  else
    let (array, k) := k.take
    .ok (.object array, k)

/-- The loop of `__vmalloc_area_node`, from page `i` on with `n` pages left, and whether it got
    them all. -/
def fillPages (a : Attempt) (area room : Nat) : Nat → Nat → Kernel → Except Fault (Bool × Kernel)
  | 0, _, k => .ok (true, k)
  | n + 1, i, k =>
    if a.pages i = false then .ok (false, k.modify area fun s => { s with nrPages := i })
    else
      let (page, k) := k.take
      if room < 8 * (i + 1) then .error .overrun
      else fillPages a area room n (i + 1) (k.modify area fun s => { s with slots := s.slots ++ [page] })

/-- The end of `__vmalloc_area_node`, when there is an array. -/
def mapPages (m : Machine) (depth : Nat) (a : Attempt) (bytes area : Nat) (k : Kernel) :
    Except Fault (Option Nat × Kernel) := do
  let (filled, k) ← fillPages a area (arrayRoom m.ksize bytes) (pageCount bytes) 0 k
  if filled && a.mapping then .ok (some (k.structs area).addr, k)
  else do
    let (_, k) ← vfree m depth k (k.structs area).addr
    .ok (none, k)

/-- `__vmalloc_area_node`. -/
def vmallocAreaNode (m : Machine) (depth : Nat) (a : Attempt) (vmallocNode : Nat → Kernel → Except Fault (Option Nat × Kernel))
    (k : Kernel) (area : Nat) : Except Fault (Option Nat × Kernel) := do
  let bytes := (k.structs area).areaSize
  let k := k.modify area fun s => { s with nrPages := pageCount bytes }
  let (pages, k) ← allocArray a vmallocNode bytes k
  let k := k.modify area fun s => { s with pages := pages }
  if pages = .null then do
    let (_, k) ← k.removeVmArea m (k.structs area).addr
    let k ← k.give area
    .ok (none, k)
  else mapPages m depth a bytes area k

/-- `__vmalloc_node_range`, where arrays that are areas are less than so deep; `env` has an
    attempt for every depth. -/
def vmallocNodeRange (m : Machine) : Nat → (Nat → Attempt) → Kernel → Nat → Nat → Nat → Nat → VmFlags →
    Except Fault (Option Nat × Kernel)
  | 0, _, _, _, _, _, _, _ => .error .tooDeep
  | depth + 1, env, k, size, align, start, stop, flags =>
    if admitted m.totalram size = false then .ok (none, k)
    else do
      let (area, k) ← getVmAreaNode m k (pageAlign size) align flags start stop (env 0)
      match area with
      | none => .ok (none, k)
      | some area =>
        -- the array comes from `__vmalloc_node`
        vmallocAreaNode m (depth + 1) (env 0)
          (fun size k => vmallocNodeRange m depth (fun n => env (n + 1)) k size 1 vmallocStart vmallocEnd ⟨false, false⟩) k area

end Miracle.Vmalloc
