import Miracle.Slub.Kmalloc

/-! # Creating a cache from the allocator's own objects

A new cache needs a copy of its name, an object of `kmem_cache`, an object of
`kmem_cache_node` and a percpu area.  They come from the caches that the allocator keeps for
itself, and a creation that fails gives them back.
-/

namespace Miracle.Slub

/-- What stops a creation.  `nullObject` is the write of `set_freepointer` through a `NULL`
    object. -/
inductive CreateFault where
  | fault (f : Fault)
  | bug (b : Bug)
  | nullObject
  deriving DecidableEq, Repr

/-- The cpu that an allocation runs on and what the page allocator returns to it, for the usual
    and for the minimum order. -/
structure Attempt where
  cpu : Nat
  got : Option Nat
  gotMin : Option Nat
  deriving DecidableEq, Repr

/-- The string that a creation is given. -/
inductive NameArg where
  | null
  | rodata
  | string (length : Nat)
  deriving DecidableEq, Repr

/-- The name of a cache: the caller's string, a copy in an object of `kmalloc`, or a copy in a
    block of the page allocator. -/
inductive Name where
  | rodata
  | object (i : Nat) (o : Slot)
  | block (page order : Nat)
  deriving DecidableEq, Repr

/-- A `struct kmem_cache` with its pointers. -/
structure CacheObject extends KmemCache where
  name : Name
  node : Option Slot
  cpuSlab : Option Nat

/-- The configuration, the caches that serve the allocator itself, and the tables of `kmalloc`. -/
structure Kit where
  cfg : Config
  kmemCache : Cache
  kmemCacheNode : Cache
  kmallocCache : Nat → Cache
  kmalloc : KmallocState

/-- The objects of these caches, the blocks of `kmalloc_large`, and `slab_caches` in the order
    of creation. -/
structure Allocator where
  kmemCache : System
  kmemCacheNode : System
  kmalloc : Nat → System
  large : List (Nat × Nat)
  slabCaches : List (Slot × CacheObject)

/-- A call of `kmem_cache_create_usercopy` and what happens to its allocations: `nameBlock` is
    the block that the page allocator returns for a long name, and `cpus` the percpu area. -/
structure Creation where
  name : NameArg
  request : Request
  nameObject : Attempt
  nameBlock : Option Nat
  cache : Attempt
  node : Attempt
  cpus : Option Nat
  /-- the cpus that free the node, the cache and the name -/
  nodeCpu : Nat
  cacheCpu : Nat
  nameCpu : Nat

/-! ## Objects -/

def kmemCacheAlloc (s : Cache) (sys : System) (a : Attempt) (zero : Bool) :
    Except CreateFault (System × Option Slot) :=
  match slabAllocNode s sys.st a.cpu zero a.got a.gotMin with
  | .error bug => .error (.bug bug)
  | .ok (st, none) => .ok ({ sys with st := st }, none)
  | .ok (st, some object) => .ok ({ st := st, live := object :: sys.live }, some object)

/-- `kmem_cache_free`, for a cache without `SLAB_CONSISTENCY_CHECKS`. -/
def kmemCacheFree (s : Cache) (sys : System) (cpu : Nat) (x : Option Slot) : Except CreateFault System :=
  match x with
  | none => .error .nullObject
  | some object => .ok { st := doSlabFree s sys.st cpu object, live := sys.live.erase object }

/-- A store to the first word of an object. -/
def storeWord (s : Cache) (sys : System) (object : Slot) (word : Option Slot) : System :=
  { sys with st := if s.fpInside then sys.st.setFreepointer object word else sys.st }

/-- `GFP_KERNEL`. -/
def gfpKernel : BitVec 32 := 2

namespace Allocator

def setKmalloc (al : Allocator) (i : Nat) (sys : System) : Allocator :=
  { al with kmalloc := Function.update al.kmalloc i sys }

section Creating

variable (k : Kit)

/-! ## The name -/

/-- `kstrdup` of a string, with `__kmalloc_track_caller`. -/
def kstrdup (al : Allocator) (c : Creation) (length : Nat) : Except CreateFault (Allocator × Option Name) :=
  match k.kmalloc.kmallocRunTime (length + 1) gfpKernel with
  | .large order =>
      match c.nameBlock with
      | none => .ok (al, none)
      | some page => .ok ({ al with large := (page, order) :: al.large }, some (.block page order))
  | .cache i => do
      let (sys, object) ← kmemCacheAlloc (k.kmallocCache i) (al.kmalloc i) c.nameObject false
      match object with
      | none => return (al.setKmalloc i sys, none)
      | some o => return (al.setKmalloc i (storeWord (k.kmallocCache i) sys o none), some (.object i o))
  | _ => .ok (al, none)

def kstrdupConst (al : Allocator) (c : Creation) : Except CreateFault (Allocator × Option Name) :=
  match c.name with
  | .null => .ok (al, none)
  | .rodata => .ok (al, some .rodata)
  | .string length => kstrdup k al c length

def kfreeConst (al : Allocator) (cpu : Nat) : Name → Except CreateFault Allocator
  | .rodata => .ok al
  | .block page order => .ok { al with large := al.large.erase (page, order) }
  | .object i o => do
      let sys ← kmemCacheFree (k.kmallocCache i) (al.kmalloc i) cpu (some o)
      return al.setKmalloc i sys

/-! ## The node and the percpu area -/

def freeKmemCacheNodes (al : Allocator) (cpu : Nat) (s : CacheObject) : Except CreateFault (Allocator × CacheObject) := do
  let sys ← kmemCacheFree k.kmemCacheNode al.kmemCacheNode cpu s.node
  return ({ al with kmemCacheNode := sys }, { s with node := none })

/-- `init_kmem_cache_nodes` once objects can be allocated. -/
def initKmemCacheNodes (al : Allocator) (c : Creation) (s : CacheObject) :
    Except CreateFault (Allocator × CacheObject × Bool) := do
  let (sys, n) ← kmemCacheAlloc k.kmemCacheNode al.kmemCacheNode c.node false
  match n with
  | none => do
      let (al, s) ← freeKmemCacheNodes k { al with kmemCacheNode := sys } c.nodeCpu s
      return (al, s, false)
  | some n =>
      -- init_kmem_cache_node starts with the lock
      return ({ al with kmemCacheNode := storeWord k.kmemCacheNode sys n none }, { s with node := some n }, true)

def allocKmemCacheCpus (c : Creation) (s : CacheObject) : CacheObject × Bool :=
  ({ s with cpuSlab := c.cpus }, c.cpus.isSome)

/-! ## The cache -/

/-- `error:` in `kmem_cache_open`. -/
def openError (flags : SlabFlags) (al : Allocator) (s : CacheObject) :
    Except CreateFault (Allocator × CacheObject × Bool) :=
  if flags &&& slabPanic ≠ 0 then .error (.fault .panic) else .ok (al, s, false)

/-- What `kmem_cache_open` sets once the sizes are accepted. -/
def enableFastMode (cfg : Config) (s : KmemCache) : KmemCache :=
  { s with
    flags := if cfg.cmpxchgDouble = true ∧ s.flags &&& slabNoCmpxchg = 0 then s.flags ||| cmpxchgDoubleFlag else s.flags
    minPartial := minPartialOf s.size }

/-- `kmem_cache_open`; the last component is false for `-EINVAL`. -/
def kmemCacheOpen (al : Allocator) (c : Creation) (s : CacheObject) (flags : SlabFlags) :
    Except CreateFault (Allocator × CacheObject × Bool) := do
  let (sized, accepted) ← (calculateSizes k.cfg.nrPossibleCpuIds { s.toKmemCache with flags := flags } (-1)).mapError .fault
  let s := { s with toKmemCache := sized }
  if accepted = false then openError flags al s
  else
    let s := { s with toKmemCache := enableFastMode k.cfg s.toKmemCache }
    let (al, s, ok) ← initKmemCacheNodes k al c s
    if ok = false then openError flags al s
    else
      let (s, ok) := allocKmemCacheCpus c s
      if ok = true then return (al, s, true)
      else do
        let (al, s) ← freeKmemCacheNodes k al c.nodeCpu s
        openError flags al s

/-- The user region of a request, offset and size; bad values are closed. -/
def userRegion (r : Request) : Nat × Nat :=
  if (r.usersize = 0 ∧ r.useroffset ≠ 0) ∨ r.size < r.usersize ∨ r.size - r.usersize < r.useroffset then (0, 0)
  else (r.useroffset, r.usersize)

/-- The fields that `create_cache` sets in a cleared object. -/
def newObject (r : Request) (align : Nat) (region : Nat × Nat) : KmemCache :=
  let region := if r.size < u32 (region.1 + region.2) then (0, 0) else region
  newCache r.size align r.ctor region.1 region.2

/-- `create_cache`; `none` is an error. -/
def createCache (al : Allocator) (c : Creation) (name : Name) (align : Nat) (flags : SlabFlags) (region : Nat × Nat) :
    Except CreateFault (Allocator × Option Slot) := do
  let (sys, object) ← kmemCacheAlloc k.kmemCache al.kmemCache c.cache true
  match object with
  | none => return ({ al with kmemCache := sys }, none)
  | some o => do
      let new : CacheObject :=
        { toKmemCache := newObject c.request align region, name := name, node := none, cpuSlab := none }
      let (al, s, ok) ← kmemCacheOpen k { al with kmemCache := sys } c new flags
      if ok = true then
        let s := { s with refcount := 1 }
        return ({ al with slabCaches := al.slabCaches ++ [(o, s)] }, some o)
      else do
        let sys ← kmemCacheFree k.kmemCache al.kmemCache c.cacheCpu (some o)
        return ({ al with kmemCache := sys }, none)

/-- `__kmem_cache_alias`. -/
def kmemCacheAlias (al : Allocator) (r : Request) (flags : SlabFlags) : Except CreateFault (Allocator × Option Slot) := do
  let caches := al.slabCaches.map (fun s => s.2.toKmemCache)
  match ← (findMergeable k.cfg caches r.size r.align flags r.ctor).mapError .fault with
  | none => return (al, none)
  | some i =>
      return ({ al with
        slabCaches := al.slabCaches.modify i (fun s => (s.1, { s.2 with toKmemCache := s.2.toKmemCache.merged r.size })) },
        al.slabCaches[i]?.map Prod.fst)

/-- The error path of `kmem_cache_create_usercopy`. -/
def createFailed (flags : SlabFlags) (al : Allocator) : Except CreateFault (Allocator × Option Slot) :=
  if flags &&& slabPanic ≠ 0 then .error (.fault .panic) else .ok (al, none)

/-- `kmem_cache_create_usercopy` after the search for a cache to merge with. -/
def createNew (al : Allocator) (c : Creation) (flags : SlabFlags) : Except CreateFault (Allocator × Option Slot) := do
  let (al, name) ← kstrdupConst k al c
  match name with
  | none => createFailed flags al
  | some name => do
      let align ← (calculateAlignment k.cfg.cacheLineSize flags c.request.align c.request.size).mapError .fault
      let (al, s) ← createCache k al c name align flags (userRegion c.request)
      match s with
      | some s => return (al, some s)
      | none => do
          let al ← kfreeConst k al c.nameCpu name
          createFailed flags al

/-- `kmem_cache_create_usercopy`, with the object of the cache that it returns. -/
def kmemCacheCreateUsercopy (al : Allocator) (c : Creation) : Except CreateFault (Allocator × Option Slot) := do
  let r := c.request
  if r.flags &&& ~~~slabFlagsPermitted ≠ 0 then createFailed r.flags al
  else
    let flags := r.flags &&& cacheCreateMask
    if (userRegion r).2 = 0 then do
      let (al, s) ← kmemCacheAlias k al r flags
      match s with
      | some s => return (al, some s)
      | none => createNew k al c flags
    else createNew k al c flags

end Creating

end Allocator

end Miracle.Slub
