import Miracle.Lib.Outcome
import Miracle.Lib.Linked

/-! # The slab allocator

A cache carves pages into slots of one size.  A free slot holds the pointer to the next
free one, so that a freelist is threaded through the slots.  Each cpu allocates from the
freelist of its own frozen page; frees from other cpus go to the freelist of the page.
Operations run one at a time, so compare and exchange succeeds.
-/

namespace Miracle.Slub

/-- A slot of a slab page: the page's frame number and the index of the slot. -/
structure Slot where
  page : Nat
  idx : Nat
  deriving DecidableEq, Repr

/-- `order_objects`. -/
def orderObjects (order size : Nat) : Nat := (4096 <<< order) / size

/-- What the code uses of `struct kmem_cache`.  `fpInside` says that the free pointer is part
    of the object, at offset zero. -/
structure Cache where
  size : Nat
  order : Nat
  minOrder : Nat
  minPartial : Nat
  fpInside : Bool
  /-- `calculate_sizes` and the 15 bits of `objects`. -/
  objects_bounds : ∀ o, o = order ∨ o = minOrder → 0 < orderObjects o size ∧ orderObjects o size ≤ 32767

/-- The fields of `struct page` that a slab uses. -/
structure SlabPage where
  freelist : Option Slot
  inuse : Nat
  objects : Nat
  frozen : Bool
  deriving DecidableEq, Repr

/-- `struct kmem_cache_cpu`. -/
structure CpuSlab where
  freelist : Option Slot
  page : Option Nat
  deriving DecidableEq, Repr

/-- The cache with its memory.  `fp` is the word of each slot that holds the free pointer and
    `slabs` the blocks that the page allocator has given, with their order. -/
structure State where
  fp : Slot → Option Slot
  pages : Nat → SlabPage
  cpus : Nat → CpuSlab
  partials : List Nat
  nrPartial : Nat
  slabs : List (Nat × Nat)

/-- The `BUG_ON`s, a `c->page` that is `NULL`, and a freelist that does not end. -/
inductive Bug where
  | getFreelist
  | acquireSlab
  | drainFreelist
  | unfreeze
  | loadFreelist
  | noPage
  | endless
  deriving DecidableEq, Repr

namespace State

def setFreepointer (st : State) (object : Slot) (fp : Option Slot) : State :=
  { st with fp := Function.update st.fp object fp }

def setPage (st : State) (page : Nat) (p : SlabPage) : State :=
  { st with pages := Function.update st.pages page p }

def setCpu (st : State) (cpu : Nat) (c : CpuSlab) : State :=
  { st with cpus := Function.update st.cpus cpu c }

/-- `add_partial`, at the tail or at the head. -/
def addPartial (st : State) (page : Nat) (tail : Bool) : State :=
  { st with
    nrPartial := st.nrPartial + 1
    partials := if tail then st.partials ++ [page] else page :: st.partials }

def removePartial (st : State) (page : Nat) : State :=
  { st with partials := st.partials.erase page, nrPartial := st.nrPartial - 1 }

/-- `discard_slab`: the block goes back to the page allocator. -/
def discardSlab (st : State) (page : Nat) : State :=
  { st with slabs := st.slabs.filter (fun b => b.1 != page) }

def init : State :=
  { fp := fun _ => none
    pages := fun _ => { freelist := none, inuse := 0, objects := 0, frozen := false }
    cpus := fun _ => { freelist := none, page := none }
    partials := []
    nrPartial := 0
    slabs := [] }

end State

/-- `new.inuse--` on a field of 16 bits. -/
def decInuse (n : Nat) : Nat := (n + (2 ^ 16 - 1)) % 2 ^ 16

/-! ## Allocation -/

/-- The loop of `allocate_slab` that threads the freelist, with the number of rounds left. -/
def threadSlots (page : Nat) : Nat → Nat → State → State
  | 0, idx, st => st.setFreepointer ⟨page, idx⟩ none
  | n + 1, idx, st => threadSlots page n (idx + 1) (st.setFreepointer ⟨page, idx⟩ (some ⟨page, idx + 1⟩))

/-- The rest of `allocate_slab` once the page allocator has given a block. -/
def setupSlab (st : State) (page order objects : Nat) : State :=
  let st := { st with slabs := (page, order) :: st.slabs }
  let st := threadSlots page (objects - 1) 0 st
  st.setPage page { freelist := some ⟨page, 0⟩, inuse := objects, objects := objects, frozen := true }

/-- `allocate_slab`; `got` and `gotMin` are what the page allocator returns for the usual and
    for the minimum order. -/
def allocateSlab (s : Cache) (st : State) (got gotMin : Option Nat) : State × Option Nat :=
  match got with
  | some page => (setupSlab st page s.order (orderObjects s.order s.size), some page)
  | none =>
      match gotMin with
      | some page => (setupSlab st page s.minOrder (orderObjects s.minOrder s.size), some page)
      | none => (st, none)

def getFreelist (st : State) (page : Nat) : Except Bug (State × Option Slot) :=
  let p := st.pages page
  if p.frozen = false then .error .getFreelist
  else .ok (st.setPage page
    { p with freelist := none, inuse := p.objects, frozen := p.freelist.isSome }, p.freelist)

/-- `acquire_slab`: the freelist and the number of objects on it. -/
def acquireSlab (st : State) (page : Nat) (mode : Bool) : Except Bug (State × Option Slot × Nat) :=
  let p := st.pages page
  let objects := p.objects - p.inuse
  let new := if mode then { p with inuse := p.objects, freelist := none } else p
  if p.frozen then .error .acquireSlab
  else .ok ((st.setPage page { new with frozen := true }).removePartial page, p.freelist, objects)

/-- `slub_cpu_partial`. -/
def slubCpuPartial : Nat := 0

/-- The loop of `get_partial_node` over the partial list. -/
def getPartialLoop (cpu : Nat) : List Nat → State → Option Slot → Nat → Except Bug (State × Option Slot)
  | [], st, object, _ => .ok (st, object)
  | page :: rest, st, object, available => do
      let (st, t, objects) ← acquireSlab st page object.isNone
      match t with
      | none => return (st, object)
      | some t =>
          let available := available + objects
          let (st, object) :=
            match object with
            | none => (st.setCpu cpu { st.cpus cpu with page := some page }, some t)
            | some object => (st, some object)
          if available > slubCpuPartial / 2 then return (st, object)
          else getPartialLoop cpu rest st object available

def getPartialNode (st : State) (cpu : Nat) : Except Bug (State × Option Slot) :=
  if st.nrPartial = 0 then .ok (st, none) else getPartialLoop cpu st.partials st none 0

/-- The first stage of `deactivate_slab` gives all but the last object back to the page. -/
def drainFreelist (page : Nat) : Nat → State → Slot → Except Bug (State × Slot)
  | 0, _, _ => .error .endless
  | fuel + 1, st, freelist =>
      match st.fp freelist with
      | none => .ok (st, freelist)
      | some nextfree =>
          let p := st.pages page
          let st := st.setFreepointer freelist p.freelist
          if p.frozen = false then .error .drainFreelist
          else
            drainFreelist page fuel
              (st.setPage page { p with freelist := some freelist, inuse := decInuse p.inuse }) nextfree

/-- A page has at most 2^15 - 1 objects. -/
def drainRounds : Nat := 2 ^ 15

/-- The second stage of `deactivate_slab`. -/
def unfreeze (s : Cache) (st : State) (page : Nat) (freelist : Option Slot) (tail : Bool) :
    Except Bug State :=
  let old := st.pages page
  if old.frozen = false then .error .unfreeze
  else
    let (st, new) :=
      match freelist with
      | some object =>
          (st.setFreepointer object old.freelist,
            { old with inuse := decInuse old.inuse, freelist := some object, frozen := false })
      | none => (st, { old with frozen := false })
    if new.inuse = 0 ∧ st.nrPartial ≥ s.minPartial then .ok ((st.setPage page new).discardSlab page)
    else if new.freelist ≠ none then .ok ((st.addPartial page tail).setPage page new)
    else .ok (st.setPage page new)

def deactivateSlab (s : Cache) (st : State) (page : Nat) (freelist : Option Slot) (cpu : Nat) :
    Except Bug State := do
  let tail := (st.pages page).freelist.isSome
  let (st, freelist) ←
    match freelist with
    | none => pure (st, none)
    | some object => do
        let (st, last) ← drainFreelist page drainRounds st object
        pure (st, some last)
  let st ← unfreeze s st page freelist tail
  return st.setCpu cpu { freelist := none, page := none }

def flushSlab (s : Cache) (st : State) (cpu : Nat) : Except Bug State :=
  match (st.cpus cpu).page with
  | none => .error .noPage
  | some page => deactivateSlab s st page (st.cpus cpu).freelist cpu

/-- `__flush_cpu_slab`. -/
def flushCpuSlab (s : Cache) (st : State) (cpu : Nat) : Except Bug State :=
  if (st.cpus cpu).page = none then .ok st else flushSlab s st cpu

def newSlabObjects (s : Cache) (st : State) (cpu : Nat) (got gotMin : Option Nat) :
    Except Bug (State × Option Slot) := do
  let (st, freelist) ← getPartialNode st cpu
  match freelist with
  | some freelist => return (st, some freelist)
  | none =>
      let (st, page) := allocateSlab s st got gotMin
      match page with
      | none => return (st, none)
      | some page => do
          let st ← flushCpuSlab s st cpu
          let p := st.pages page
          let st := st.setPage page { p with freelist := none }
          let st := st.setCpu cpu { st.cpus cpu with page := some page }
          return (st, p.freelist)

/-- `load_freelist:` in `___slab_alloc`. -/
def loadFreelist (st : State) (cpu : Nat) (freelist : Slot) : Except Bug (State × Option Slot) :=
  let c := st.cpus cpu
  match c.page with
  | none => .error .noPage
  | some page =>
      if (st.pages page).frozen = false then .error .loadFreelist
      else .ok (st.setCpu cpu { c with freelist := st.fp freelist }, some freelist)

/-- `new_slab:` in `___slab_alloc`. -/
def allocFromNewSlab (s : Cache) (st : State) (cpu : Nat) (got gotMin : Option Nat) :
    Except Bug (State × Option Slot) := do
  let (st, freelist) ← newSlabObjects s st cpu got gotMin
  match freelist with
  | none => return (st, none)
  | some freelist => loadFreelist st cpu freelist

/-- `___slab_alloc`. -/
def slabAlloc (s : Cache) (st : State) (cpu : Nat) (got gotMin : Option Nat) :
    Except Bug (State × Option Slot) :=
  let c := st.cpus cpu
  match c.page with
  | none => allocFromNewSlab s st cpu got gotMin
  | some page =>
      match c.freelist with
      | some freelist => loadFreelist st cpu freelist
      | none => do
          let (st, freelist) ← getFreelist st page
          match freelist with
          | none => allocFromNewSlab s (st.setCpu cpu { st.cpus cpu with page := none }) cpu got gotMin
          | some freelist => loadFreelist st cpu freelist

/-- `slab_alloc_node`; `zero` is `__GFP_ZERO`. -/
def slabAllocNode (s : Cache) (st : State) (cpu : Nat) (zero : Bool) (got gotMin : Option Nat) :
    Except Bug (State × Option Slot) := do
  let c := st.cpus cpu
  let (st, object) ←
    match c.freelist with
    | none => slabAlloc s st cpu got gotMin
    | some object => pure (st.setCpu cpu { c with freelist := st.fp object }, some object)
  match object with
  | none => return (st, none)
  | some object =>
      if zero ∧ s.fpInside then return (st.setFreepointer object none, some object)
      else return (st, some object)

/-! ## Freeing -/

/-- `__slab_free` of one object. -/
def slabFree (s : Cache) (st : State) (page : Nat) (object : Slot) : State :=
  let p := st.pages page
  let prior := p.freelist
  let new := { p with freelist := some object, inuse := decInuse p.inuse }
  let st := (st.setFreepointer object prior).setPage page new
  if (new.inuse = 0 ∨ prior = none) ∧ p.frozen = false then
    if new.inuse = 0 ∧ st.nrPartial ≥ s.minPartial then
      if prior ≠ none then (st.removePartial page).discardSlab page else st.discardSlab page
    else if prior = none then st.addPartial page true
    else st
  else st

/-- `do_slab_free` for `kmem_cache_free(s, object)` on a cpu. -/
def doSlabFree (s : Cache) (st : State) (cpu : Nat) (object : Slot) : State :=
  let c := st.cpus cpu
  let page := object.page
  if c.page = some page then
    (st.setFreepointer object c.freelist).setCpu cpu { c with freelist := some object }
  else slabFree s st page object

/-! ## Runs -/

/-- `early_kmem_cache_node_alloc`: the first object is taken by hand. -/
def earlyNodeAlloc (s : Cache) (st : State) (page : Nat) : State :=
  let st := setupSlab st page s.order (orderObjects s.order s.size)
  let p := st.pages page
  (st.setPage page { p with freelist := st.fp ⟨page, 0⟩, inuse := 1, frozen := false }).addPartial page false

/-- The operations of a run.  `write` is the owner of an object writing to it. -/
inductive Op where
  | early (page : Nat)
  | alloc (cpu : Nat) (zero : Bool) (got gotMin : Option Nat)
  | free (cpu : Nat) (object : Slot)
  | flush (cpu : Nat)
  | write (object : Slot) (word : Option Slot)
  deriving DecidableEq, Repr

/-- The cache with the objects that are in use. -/
structure System where
  st : State
  live : List Slot

def System.init : System := { st := .init, live := [] }

def step (s : Cache) (sys : System) : Op → Except Bug System
  | .early page => .ok { st := earlyNodeAlloc s sys.st page, live := ⟨page, 0⟩ :: sys.live }
  | .alloc cpu zero got gotMin => do
      let (st, object) ← slabAllocNode s sys.st cpu zero got gotMin
      match object with
      | none => return { sys with st := st }
      | some object => return { st := st, live := object :: sys.live }
  | .free cpu object => .ok { st := doSlabFree s sys.st cpu object, live := sys.live.erase object }
  | .flush cpu => do
      let st ← flushCpuSlab s sys.st cpu
      return { sys with st := st }
  | .write object word =>
      .ok { sys with st := if s.fpInside then sys.st.setFreepointer object word else sys.st }

/-- The block of the given order at `page` overlaps no slab of the cache: what the page
    allocator promises about the blocks it gives. -/
def Fresh (st : State) (page order : Nat) : Prop :=
  ∀ b ∈ st.slabs, page + 2 ^ order ≤ b.1 ∨ b.1 + 2 ^ b.2 ≤ page

/-- Callers free and write objects they have, and the page allocator gives blocks that are not
    in use.  The cache of nodes starts with a slab of several objects. -/
def Legal (s : Cache) (sys : System) : Op → Prop
  | .early _ => sys.st.slabs = [] ∧ sys.live = [] ∧ 1 < orderObjects s.order s.size
  | .alloc _ _ got gotMin =>
      (∀ page, got = some page → Fresh sys.st page s.order) ∧
        ∀ page, gotMin = some page → Fresh sys.st page s.minOrder
  | .free _ object => object ∈ sys.live
  | .flush _ => True
  | .write object _ => object ∈ sys.live

inductive Reachable (s : Cache) : System → Prop where
  | init : Reachable s .init
  | step {sys sys' : System} {op : Op} : Reachable s sys → Legal s sys op →
      step s sys op = .ok sys' → Reachable s sys'

end Miracle.Slub
