import Miracle.Slub.Create

/-! # The boot of the slab allocator

The objects of `kmem_cache` and `kmem_cache_node` describe caches, those two included.  Boot
starts with two static descriptions, carves the first node out of a page by hand, and then
copies each static description to an object of its own.
-/

namespace Miracle.Slub

/-- The two caches of boot. -/
inductive BootCache where
  | kmemCacheNode
  | kmemCache
  deriving DecidableEq, Repr

/-- A `struct kmem_cache`: a static one of boot, or an object of `kmem_cache`. -/
inductive CacheRef where
  | static (b : BootCache)
  | object (o : Slot)
  deriving DecidableEq, Repr

/-- What stops boot.  `nullNode` and `nullCache` are reads through a `NULL` pointer to a node and
    to a cache, `noNode` is a `BUG_ON` of `early_kmem_cache_node_alloc`, and `layout` stands for
    sizes that `calculate_sizes` does not set. -/
inductive BootFault where
  | create (f : CreateFault)
  | noNode
  | nullCache
  | nullNode
  | layout
  deriving DecidableEq, Repr

/-- The boot cpu and the allocators that boot asks: the blocks of the page allocator for each
    request and order, and the percpu areas. -/
structure Machine where
  cfg : Config
  cpu : Nat
  pages : Nat → Nat → Option Nat
  areas : Nat → Option Nat

/-- The allocator during boot.  `sys` has the slabs and the lists of the two caches, `static` and
    `objects` the contents of the descriptions, and `pagesAsked` counts the requests for blocks. -/
structure Boot where
  sys : BootCache → System
  static : BootCache → CacheObject
  objects : Slot → CacheObject
  kmemCacheNode : CacheRef
  kmemCache : CacheRef
  slabCache : Nat → Option CacheRef
  slabCaches : List CacheRef
  down : Bool
  pagesAsked : Nat
  areasAsked : Nat

/-- A description that is all zero. -/
def zeroObject : CacheObject :=
  { toKmemCache := newCache 0 0 false 0 0, name := .rodata, node := none, cpuSlab := none }

/-- The cache of the slab model that a description stands for. -/
def KmemCache.layout (s : KmemCache) : Option Cache :=
  if bounds : ∀ o ∈ [Sizing.ooOrder s.oo, Sizing.ooOrder s.min], 0 < orderObjects o s.size ∧ orderObjects o s.size ≤ 32767 then
    some
      { size := s.size
        order := Sizing.ooOrder s.oo
        minOrder := Sizing.ooOrder s.min
        minPartial := s.minPartial
        fpInside := !decide s.Relocates
        objects_bounds := fun o cases => bounds o (by simpa using cases) }
  else none

namespace Boot

def init : Boot :=
  { sys := fun _ => .init
    static := fun _ => zeroObject
    objects := fun _ => zeroObject
    kmemCacheNode := .static .kmemCacheNode
    kmemCache := .static .kmemCache
    slabCache := fun _ => none
    slabCaches := []
    down := true
    pagesAsked := 0
    areasAsked := 0 }

/-- The description behind a pointer. -/
def deref (b : Boot) : CacheRef → CacheObject
  | .static c => b.static c
  | .object o => b.objects o

def store (b : Boot) (ref : CacheRef) (s : CacheObject) : Boot :=
  match ref with
  | .static c => { b with static := Function.update b.static c s }
  | .object o => { b with objects := Function.update b.objects o s }

/-- The pointer to one of the two caches that the allocator uses. -/
def pointer (b : Boot) : BootCache → CacheRef
  | .kmemCacheNode => b.kmemCacheNode
  | .kmemCache => b.kmemCache

def setSys (b : Boot) (c : BootCache) (sys : System) : Boot := { b with sys := Function.update b.sys c sys }

/-- `allocate_slab` sets `slab_cache` of the pages that a cache gets. -/
def ownPages (b : Boot) (c : BootCache) (sys : System) : Boot :=
  { b with slabCache := fun p =>
      if p ∈ sys.st.slabs.map Prod.fst ∧ p ∉ (b.sys c).st.slabs.map Prod.fst then some (b.pointer c) else b.slabCache p }

/-- What a request of a cache leaves, which may have asked for two blocks. -/
def grant (b : Boot) (c : BootCache) (sys : System) : Boot :=
  { (b.ownPages c sys).setSys c sys with pagesAsked := b.pagesAsked + 2 }

/-- The partial list of the node at an object. -/
def partialOf (b : Boot) (n : Slot) : List Nat :=
  if (b.static .kmemCacheNode).node = some n then (b.sys .kmemCacheNode).st.partials
  else if (b.static .kmemCache).node = some n then (b.sys .kmemCache).st.partials
  else []

section Booting

variable (m : Machine)

/-- What the page allocator answers to the next request of a cache. -/
def attempt (b : Boot) (s : Cache) : Attempt :=
  ⟨m.cpu, m.pages b.pagesAsked s.order, m.pages (b.pagesAsked + 1) s.minOrder⟩

/-- `kmem_cache_alloc` on one of the two caches. -/
def allocate (b : Boot) (c : BootCache) (zero : Bool) : Except BootFault (Boot × Option Slot) :=
  match (b.deref (b.pointer c)).toKmemCache.layout with
  | none => .error .layout
  | some s => do
      let (sys, object) ← (kmemCacheAlloc s (b.sys c) (b.attempt m s) zero).mapError .create
      return (b.grant c sys, object)

/-- The rest of `early_kmem_cache_node_alloc` for the first object of a new page. -/
def carveNode (b : Boot) (st : State) (page : Nat) (n : Slot) : Boot :=
  let st := (st.setPage page
    { st.pages page with freelist := st.fp n, inuse := 1, frozen := false }).addPartial page false
  let sys := { st := st, live := n :: (b.sys .kmemCacheNode).live }
  let b := b.grant .kmemCacheNode sys
  b.store b.kmemCacheNode { b.deref b.kmemCacheNode with node := some n }

/-- `early_kmem_cache_node_alloc`: the node comes from a new page, by hand. -/
def earlyKmemCacheNodeAlloc (b : Boot) : Except BootFault Boot :=
  let node := (b.deref b.kmemCacheNode).toKmemCache
  if node.size < 32 then .error .noNode
  else
    match node.layout with
    | none => .error .layout
    | some s =>
        let a := b.attempt m s
        match allocateSlab s (b.sys .kmemCacheNode).st a.got a.gotMin with
        | (_, none) => .error .noNode
        | (st, some page) =>
            match (st.pages page).freelist with
            | none => .error .noNode
            | some n => .ok (b.carveNode st page n)

def freeKmemCacheNodes (b : Boot) (ref : CacheRef) : Except BootFault Boot :=
  match (b.deref b.kmemCacheNode).toKmemCache.layout with
  | none => .error .layout
  | some s => do
      let sys ← (kmemCacheFree s (b.sys .kmemCacheNode) m.cpu (b.deref ref).node).mapError .create
      return (b.setSys .kmemCacheNode sys).store ref { b.deref ref with node := none }

/-- `init_kmem_cache_nodes`. -/
def initKmemCacheNodes (b : Boot) (ref : CacheRef) : Except BootFault (Boot × Bool) :=
  if b.down = true then do
    let b ← b.earlyKmemCacheNodeAlloc m
    return (b, true)
  else do
    let (b, n) ← b.allocate m .kmemCacheNode false
    match n with
    | none => do
        let b ← b.freeKmemCacheNodes m ref
        return (b, false)
    | some n => return (b.store ref { b.deref ref with node := some n }, true)

/-- `alloc_kmem_cache_cpus`. -/
def allocKmemCacheCpus (b : Boot) (ref : CacheRef) : Boot × Bool :=
  let area := m.areas b.areasAsked
  ({ b.store ref { b.deref ref with cpuSlab := area } with areasAsked := b.areasAsked + 1 }, area.isSome)

/-- `create_boot_cache`; every error ends in `panic`. -/
def createBootCache (b : Boot) (ref : CacheRef) (size : Nat) (flags : SlabFlags) (useroffset usersize : Nat) :
    Except BootFault Boot := do
  let align ← (calculateAlignment m.cfg.cacheLineSize flags m.cfg.archKmallocMinalign size).mapError (.create ∘ .fault)
  let s := { newCache size align false useroffset usersize with flags := flags }
  let (sized, accepted) ← (calculateSizes m.cfg.nrPossibleCpuIds s (-1)).mapError (.create ∘ .fault)
  if accepted = false then .error (.create (.fault .panic))
  else
    let opened := { b.deref ref with toKmemCache := Allocator.enableFastMode m.cfg sized }
    let (b, ok) ← (b.store ref opened).initKmemCacheNodes m ref
    if ok = false then .error (.create (.fault .panic))
    else
      let (b, ok) := b.allocKmemCacheCpus m ref
      if ok = false then do
        let _ ← b.freeKmemCacheNodes m ref
        throw (.create (.fault .panic))
      else return b.store ref { b.deref ref with refcount := -1 }

/-- `bootstrap`, with the object that the static description moves to. -/
def bootstrap (b : Boot) (c : BootCache) : Except BootFault (Boot × CacheRef) := do
  let (b, object) ← b.allocate m .kmemCache true
  match object with
  | none => .error .nullCache
  | some s =>
      -- __GFP_ZERO clears the object up to its last field, which is the pointer to the node
      let b := b.store (.object s) zeroObject
      let n := (b.deref (.object s)).node
      let b := b.store (.object s) (b.static c)
      match (b.deref (.object s)).toKmemCache.layout with
      | none => .error .layout
      | some cache => do
          let st ← (flushCpuSlab cache (b.sys c).st m.cpu).mapError (.create ∘ .bug)
          let b := b.setSys c { b.sys c with st := st }
          match n with
          | none => .error .nullNode
          | some n =>
              let pages := b.partialOf n
              let b := { b with slabCache := fun p => if p ∈ pages then some (.object s) else b.slabCache p }
              return ({ b with slabCaches := .object s :: b.slabCaches }, .object s)

/-- `kmem_cache_init`, with the lengths of `struct kmem_cache_node` and of `struct kmem_cache` up
    to its pointer to the node.  `rest` makes the caches of `kmalloc`. -/
def kmemCacheInit (rest : Boot → Except BootFault Boot) : Except BootFault Boot := do
  let b ← init.createBootCache m (.static .kmemCacheNode) 32 slabHwcacheAlign 0 0
  -- Able to allocate the per node structures
  let b := { b with down := false }
  let b ← b.createBootCache m (.static .kmemCache) 120 slabHwcacheAlign 0 0
  let (b, s) ← b.bootstrap m .kmemCache
  let b := { b with kmemCache := s }
  let (b, s) ← b.bootstrap m .kmemCacheNode
  rest { b with kmemCacheNode := s }

end Booting

end Boot

end Miracle.Slub
