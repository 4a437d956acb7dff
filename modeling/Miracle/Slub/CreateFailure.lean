import Miracle.Slub.Create

/-! # Creations that fail

A creation whose allocation of the name, of the cache or of the percpu area fails gives back
everything that it took.  When the node cannot be allocated, the unwinding frees the node that
was never there.
-/

namespace Miracle.Slub

/-! ## One cache -/

section Objects

variable {s : Cache} {sys : System}

/-- What the page allocator answers is legal for the cache. -/
abbrev Attempt.Legal (a : Attempt) (s : Cache) (sys : System) : Prop := Slub.Legal s sys (.alloc a.cpu true a.got a.gotMin)

abbrev Attempt.Fails (a : Attempt) (sys : System) : Prop := OutOfObjects sys.st a.cpu a.got a.gotMin

theorem kmemCacheAlloc_cases (h : Reachable s sys) (a : Attempt) (legal : a.Legal s sys) (zero : Bool) :
    (a.Fails sys ∧ ∃ sys', kmemCacheAlloc s sys a zero = .ok (sys', none) ∧ sys'.live = sys.live ∧ Reachable s sys') ∨
    (¬a.Fails sys ∧ ∃ sys' o, kmemCacheAlloc s sys a zero = .ok (sys', some o) ∧ sys'.live = o :: sys.live ∧
      Reachable s sys') := by
  obtain ⟨place, inv⟩ := h.inv
  have legal' : Slub.Legal s sys (.alloc a.cpu zero a.got a.gotMin) := legal
  obtain ⟨out, st', place', done, -⟩ | ⟨out, st', o, place', done, -⟩ :=
    slabAllocNode_cases inv a.cpu zero legal.1 legal.2
  · refine .inl ⟨out, { sys with st := st' }, by rw [kmemCacheAlloc, done], rfl, h.step legal' ?_⟩
    simp [step, done, bind, Except.bind, pure, Except.pure]
  · refine .inr ⟨out, ⟨st', o :: sys.live⟩, o, by rw [kmemCacheAlloc, done], rfl, h.step legal' ?_⟩
    simp [step, done, bind, Except.bind, pure, Except.pure]

theorem kmemCacheFree_ok (h : Reachable s sys) (cpu : Nat) {o : Slot} {live : List Slot} (owned : sys.live = o :: live) :
    ∃ sys', kmemCacheFree s sys cpu (some o) = .ok sys' ∧ sys'.live = live ∧ Reachable s sys' := by
  have legal : Slub.Legal s sys (.free cpu o) := by
    change o ∈ sys.live
    simp [owned]
  exact ⟨_, rfl, by simp [owned], h.step legal rfl⟩

theorem storeWord_ok (h : Reachable s sys) {o : Slot} {live : List Slot} (owned : sys.live = o :: live) (word : Option Slot) :
    (storeWord s sys o word).live = o :: live ∧ Reachable s (storeWord s sys o word) := by
  have legal : Slub.Legal s sys (.write o word) := by
    change o ∈ sys.live
    simp [owned]
  exact ⟨owned, h.step legal rfl⟩

end Objects

/-! ## What an allocator has handed out -/

structure Holdings where
  kmemCache : List Slot
  kmemCacheNode : List Slot
  kmalloc : Nat → List Slot
  large : List (Nat × Nat)

/-- What is held once the memory of a name is held too. -/
def Holdings.withName (h : Holdings) : Name → Holdings
  | .rodata => h
  | .object i o => { h with kmalloc := Function.update h.kmalloc i (o :: h.kmalloc i) }
  | .block page order => { h with large := (page, order) :: h.large }

namespace Allocator

def held (al : Allocator) : Holdings :=
  { kmemCache := al.kmemCache.live
    kmemCacheNode := al.kmemCacheNode.live
    kmalloc := fun i => (al.kmalloc i).live
    large := al.large }

/-- Every cache is in a state that its operations can reach, so that its freelists are sound. -/
structure Sound (k : Kit) (al : Allocator) : Prop where
  kmemCache : Reachable k.kmemCache al.kmemCache
  kmemCacheNode : Reachable k.kmemCacheNode al.kmemCacheNode
  kmalloc : ∀ i, Reachable (k.kmallocCache i) (al.kmalloc i)

/-- The state after a failed creation is as before: the same objects in every cache, the same
    `slab_caches`, and sound freelists. -/
structure Restored (k : Kit) (al al' : Allocator) : Prop where
  held : al'.held = al.held
  slabCaches : al'.slabCaches = al.slabCaches
  sound : Sound k al'

variable {k : Kit} {al : Allocator}

theorem held_setKmalloc (i : Nat) (sys : System) :
    (al.setKmalloc i sys).held = { al.held with kmalloc := Function.update al.held.kmalloc i sys.live } := by
  simp only [held, setKmalloc, Holdings.mk.injEq, true_and, and_true]
  funext j
  exact Function.apply_update (fun _ sys => sys.live) al.kmalloc i sys j

theorem Sound.setKmalloc (sound : Sound k al) {i : Nat} {sys : System} (h : Reachable (k.kmallocCache i) sys) :
    Sound k (al.setKmalloc i sys) where
  kmemCache := sound.kmemCache
  kmemCacheNode := sound.kmemCacheNode
  kmalloc := (Function.forall_update_iff al.kmalloc (fun i sys => Reachable (k.kmallocCache i) sys)).mpr
    ⟨h, fun j _ => sound.kmalloc j⟩

/-! ## The name -/

end Allocator

namespace Creation

open Allocator

/-- The copy of the name cannot be allocated. -/
def NameFails (k : Kit) (al : Allocator) (c : Creation) : Prop :=
  match c.name with
  | .null => True
  | .rodata => False
  | .string length =>
      match k.kmalloc.kmallocRunTime (length + 1) gfpKernel with
      | .large _ => c.nameBlock = none
      | .cache i => c.nameObject.Fails (al.kmalloc i)
      | _ => True

/-- The page allocator gives blocks that the caches do not use. -/
structure Legal (k : Kit) (al : Allocator) (c : Creation) : Prop where
  name : ∀ length i, c.name = .string length → k.kmalloc.kmallocRunTime (length + 1) gfpKernel = .cache i →
    c.nameObject.Legal (k.kmallocCache i) (al.kmalloc i)
  cache : c.cache.Legal k.kmemCache al.kmemCache
  node : c.node.Legal k.kmemCacheNode al.kmemCacheNode

end Creation

namespace Allocator

variable {k : Kit} {al : Allocator} {c : Creation}

/-- What `kstrdup_const` changes: the memory of the name only. -/
structure Named (k : Kit) (al al' : Allocator) (h : Holdings) : Prop where
  held : al'.held = h
  kmemCache : al'.kmemCache = al.kmemCache
  kmemCacheNode : al'.kmemCacheNode = al.kmemCacheNode
  slabCaches : al'.slabCaches = al.slabCaches
  sound : Sound k al'

theorem Named.refl (sound : Sound k al) : Named k al al al.held := ⟨rfl, rfl, rfl, rfl, sound⟩

theorem Named.restored {al' : Allocator} (h : Named k al al' al.held) : Restored k al al' :=
  ⟨h.held, h.slabCaches, h.sound⟩

theorem kstrdup_cases (sound : Sound k al) {length : Nat}
    (legal : ∀ i, k.kmalloc.kmallocRunTime (length + 1) gfpKernel = .cache i →
      c.nameObject.Legal (k.kmallocCache i) (al.kmalloc i)) :
    (({ c with name := .string length } : Creation).NameFails k al ∧
      ∃ al', kstrdup k al c length = .ok (al', none) ∧ Named k al al' al.held) ∨
    (¬({ c with name := .string length } : Creation).NameFails k al ∧
      ∃ al' name, kstrdup k al c length = .ok (al', some name) ∧ Named k al al' (al.held.withName name)) := by
  unfold kstrdup
  simp only [Creation.NameFails]
  cases chosen : k.kmalloc.kmallocRunTime (length + 1) gfpKernel with
  | large order =>
      cases block : c.nameBlock with
      | none => exact .inl ⟨rfl, al, rfl, .refl sound⟩
      | some page =>
          exact .inr ⟨by simp, _, _, rfl, ⟨rfl, rfl, rfl, rfl, ⟨sound.kmemCache, sound.kmemCacheNode, sound.kmalloc⟩⟩⟩
  | cache i =>
      obtain ⟨out, sys', done, live, reach⟩ | ⟨out, sys', o, done, live, reach⟩ :=
        kmemCacheAlloc_cases (sound.kmalloc i) c.nameObject (legal i chosen) false
      · refine .inl ⟨out, al.setKmalloc i sys', by simp [done, bind, Except.bind, pure, Except.pure], ?_⟩
        refine ⟨?_, rfl, rfl, rfl, sound.setKmalloc reach⟩
        have same : Function.update al.held.kmalloc i sys'.live = al.held.kmalloc := by
          rw [live]
          exact Function.update_eq_self i al.held.kmalloc
        rw [held_setKmalloc, same]
      · obtain ⟨stored, reach⟩ := storeWord_ok reach live none
        refine .inr ⟨out, al.setKmalloc i (storeWord (k.kmallocCache i) sys' o none), .object i o,
          by simp [done, bind, Except.bind, pure, Except.pure], ?_⟩
        refine ⟨?_, rfl, rfl, rfl, sound.setKmalloc reach⟩
        rw [held_setKmalloc, stored]
        rfl
  | zeroSize => exact .inl ⟨trivial, al, rfl, .refl sound⟩
  | null => exact .inl ⟨trivial, al, rfl, .refl sound⟩
  | nullCache => exact .inl ⟨trivial, al, rfl, .refl sound⟩
  | bug => exact .inl ⟨trivial, al, rfl, .refl sound⟩

theorem kstrdupConst_cases (sound : Sound k al) (legal : c.Legal k al) :
    (c.NameFails k al ∧ ∃ al', kstrdupConst k al c = .ok (al', none) ∧ Named k al al' al.held) ∨
    (¬c.NameFails k al ∧ ∃ al' name, kstrdupConst k al c = .ok (al', some name) ∧
      Named k al al' (al.held.withName name)) := by
  cases given : c.name with
  | null => exact .inl ⟨by simp [Creation.NameFails, given], al, by simp [kstrdupConst, given], .refl sound⟩
  | rodata =>
      exact .inr ⟨by simp [Creation.NameFails, given], al, .rodata, by simp [kstrdupConst, given], .refl sound⟩
  | string length =>
      have same : ({ c with name := .string length } : Creation) = c := by rw [← given]
      have copied := kstrdup_cases sound (c := c) (fun i => legal.name length i given)
      rw [same] at copied
      simpa only [kstrdupConst, given] using copied

/-- Freeing the name gives its memory back, whatever else is held. -/
theorem kfreeConst_ok (sound : Sound k al) (cpu : Nat) {name : Name} {h : Holdings} (held : al.held = h.withName name) :
    ∃ al', kfreeConst k al cpu name = .ok al' ∧ al'.held = h ∧ al'.slabCaches = al.slabCaches ∧ Sound k al' := by
  cases name with
  | rodata => exact ⟨al, rfl, held, rfl, sound⟩
  | block page order =>
      refine ⟨_, rfl, ?_, rfl, ⟨sound.kmemCache, sound.kmemCacheNode, sound.kmalloc⟩⟩
      have large : al.large = (page, order) :: h.large := congrArg Holdings.large held
      rw [Holdings.withName, Allocator.held, Holdings.mk.injEq] at held
      obtain ⟨caches, nodes, kmalloc, -⟩ := held
      simp [Allocator.held, large, caches, nodes, kmalloc]
  | object i o =>
      have live : (al.kmalloc i).live = o :: h.kmalloc i := by
        have := congrFun (congrArg Holdings.kmalloc held) i
        simpa [Allocator.held, Holdings.withName] using this
      obtain ⟨sys', done, live', reach⟩ := kmemCacheFree_ok (sound.kmalloc i) cpu live
      refine ⟨al.setKmalloc i sys', by simp [kfreeConst, done, bind, Except.bind, pure, Except.pure], ?_, rfl,
        sound.setKmalloc reach⟩
      rw [held_setKmalloc, held, live']
      simp [Holdings.withName]

/-! ## The node and the percpu area -/

/-- Without an object for the node there is nothing to free, but the unwinding frees it. -/
theorem initKmemCacheNodes_fails (sound : Sound k al) (legal : c.node.Legal k.kmemCacheNode al.kmemCacheNode)
    (fails : c.node.Fails al.kmemCacheNode) {s : CacheObject} (without : s.node = none) :
    initKmemCacheNodes k al c s = .error .nullObject := by
  obtain ⟨-, sys', done, -, -⟩ | ⟨out, -⟩ := kmemCacheAlloc_cases sound.kmemCacheNode c.node legal false
  · simp [initKmemCacheNodes, done, freeKmemCacheNodes, without, kmemCacheFree, bind, Except.bind]
  · exact absurd fails out

theorem initKmemCacheNodes_ok (sound : Sound k al) (legal : c.node.Legal k.kmemCacheNode al.kmemCacheNode)
    (some : ¬c.node.Fails al.kmemCacheNode) (s : CacheObject) :
    ∃ sys n, initKmemCacheNodes k al c s = .ok ({ al with kmemCacheNode := sys }, { s with node := .some n }, true) ∧
      sys.live = n :: al.kmemCacheNode.live ∧ Reachable k.kmemCacheNode sys := by
  obtain ⟨out, -⟩ | ⟨-, sys', n, done, live, reach⟩ := kmemCacheAlloc_cases sound.kmemCacheNode c.node legal false
  · exact absurd out some
  · obtain ⟨stored, reach⟩ := storeWord_ok reach live none
    exact ⟨_, n, by simp [initKmemCacheNodes, done, bind, Except.bind, pure, Except.pure], stored, reach⟩

theorem freeKmemCacheNodes_ok (al : Allocator) {sys : System} (reach : Reachable k.kmemCacheNode sys) {n : Slot} {live : List Slot}
    (owned : sys.live = n :: live) (cpu : Nat) {s : CacheObject} (node : s.node = some n) :
    ∃ sys', freeKmemCacheNodes k { al with kmemCacheNode := sys } cpu s =
        .ok ({ al with kmemCacheNode := sys' }, { s with node := none }) ∧
      sys'.live = live ∧ Reachable k.kmemCacheNode sys' := by
  obtain ⟨sys', done, live', reach'⟩ := kmemCacheFree_ok reach cpu owned
  exact ⟨sys', by simp [freeKmemCacheNodes, node, done, bind, Except.bind, pure, Except.pure], live', reach'⟩

section Opening

variable {s : CacheObject} {sized : KmemCache} {flags : SlabFlags}
  (accepted : calculateSizes k.cfg.nrPossibleCpuIds { s.toKmemCache with flags := flags } (-1) = .ok (sized, true))

include accepted

theorem kmemCacheOpen_node (sound : Sound k al) (legal : c.node.Legal k.kmemCacheNode al.kmemCacheNode)
    (fails : c.node.Fails al.kmemCacheNode) (without : s.node = none) :
    kmemCacheOpen k al c s flags = .error .nullObject := by
  have failed (t : KmemCache) : initKmemCacheNodes k al c { s with toKmemCache := t } = .error .nullObject :=
    initKmemCacheNodes_fails sound legal fails without
  simp [kmemCacheOpen, accepted, Except.mapError, failed, bind, Except.bind]

/-- Without a percpu area the node goes back. -/
theorem kmemCacheOpen_cpus (sound : Sound k al) (legal : c.node.Legal k.kmemCacheNode al.kmemCacheNode)
    (some : ¬c.node.Fails al.kmemCacheNode) (none : c.cpus = .none) :
    ∃ sys s', kmemCacheOpen k al c s flags = openError flags { al with kmemCacheNode := sys } s' ∧
      sys.live = al.kmemCacheNode.live ∧ Reachable k.kmemCacheNode sys := by
  obtain ⟨sys, n, done, owned, reach⟩ :=
    initKmemCacheNodes_ok sound legal some { s with toKmemCache := enableFastMode k.cfg sized }
  obtain ⟨sys', freed, live, reach'⟩ := freeKmemCacheNodes_ok al reach owned c.nodeCpu
    (s := { s with toKmemCache := enableFastMode k.cfg sized, node := .some n, cpuSlab := .none }) rfl
  refine ⟨sys', { s with toKmemCache := enableFastMode k.cfg sized, node := .none, cpuSlab := .none }, ?_, live, reach'⟩
  simp [kmemCacheOpen, accepted, Except.mapError, done, allocKmemCacheCpus, none, freed, bind, Except.bind]

end Opening

/-! ## The cache -/

variable {name : Name} {align : Nat} {flags : SlabFlags} {region : Nat × Nat}

theorem createCache_cache (sound : Sound k al) (legal : c.cache.Legal k.kmemCache al.kmemCache) (fails : c.cache.Fails al.kmemCache) :
    ∃ al', createCache k al c name align flags region = .ok (al', none) ∧ Restored k al al' := by
  obtain ⟨-, sys', done, live, reach⟩ | ⟨out, -⟩ := kmemCacheAlloc_cases sound.kmemCache c.cache legal true
  · refine ⟨{ al with kmemCache := sys' }, by simp [createCache, done, bind, Except.bind, pure, Except.pure], ?_, rfl,
      reach, sound.kmemCacheNode, sound.kmalloc⟩
    simp [held, live]
  · exact absurd fails out

section Sized

variable {sized : KmemCache}
  (accepted : calculateSizes k.cfg.nrPossibleCpuIds { newObject c.request align region with flags := flags } (-1) =
    .ok (sized, true))

include accepted

theorem createCache_node (sound : Sound k al) (legal : c.cache.Legal k.kmemCache al.kmemCache)
    (legalNode : c.node.Legal k.kmemCacheNode al.kmemCacheNode) (some : ¬c.cache.Fails al.kmemCache)
    (fails : c.node.Fails al.kmemCacheNode) :
    createCache k al c name align flags region = .error .nullObject := by
  obtain ⟨out, -⟩ | ⟨-, sys', o, done, -, reach⟩ := kmemCacheAlloc_cases sound.kmemCache c.cache legal true
  · exact absurd out some
  · have sound' : Sound k { al with kmemCache := sys' } := ⟨reach, sound.kmemCacheNode, sound.kmalloc⟩
    have opened := kmemCacheOpen_node
      (s := { toKmemCache := newObject c.request align region, name := name, node := none, cpuSlab := none })
      accepted sound' legalNode fails rfl
    simp [createCache, done, opened, bind, Except.bind]

theorem createCache_cpus (sound : Sound k al) (legal : c.cache.Legal k.kmemCache al.kmemCache)
    (legalNode : c.node.Legal k.kmemCacheNode al.kmemCacheNode) (some : ¬c.cache.Fails al.kmemCache)
    (someNode : ¬c.node.Fails al.kmemCacheNode) (none : c.cpus = .none) :
    (flags &&& slabPanic ≠ 0 ∧ createCache k al c name align flags region = .error (.fault .panic)) ∨
    (¬flags &&& slabPanic ≠ 0 ∧
      ∃ al', createCache k al c name align flags region = .ok (al', .none) ∧ Restored k al al') := by
  obtain ⟨out, -⟩ | ⟨-, sys', o, done, owned, reach⟩ := kmemCacheAlloc_cases sound.kmemCache c.cache legal true
  · exact absurd out some
  · have sound' : Sound k { al with kmemCache := sys' } := ⟨reach, sound.kmemCacheNode, sound.kmalloc⟩
    obtain ⟨nodes, s', opened, live, reachNode⟩ := kmemCacheOpen_cpus
      (s := { toKmemCache := newObject c.request align region, name := name, node := .none, cpuSlab := .none })
      accepted sound' legalNode someNode none
    by_cases panics : flags &&& slabPanic ≠ 0
    · refine .inl ⟨panics, ?_⟩
      rw [openError, if_pos panics] at opened
      simp [createCache, done, opened, bind, Except.bind]
    · obtain ⟨sys'', freed, live', reach'⟩ := kmemCacheFree_ok reach c.cacheCpu owned
      refine .inr ⟨panics, { al with kmemCache := sys'', kmemCacheNode := nodes }, ?_, ?_, rfl, reach', reachNode,
        sound.kmalloc⟩
      · rw [openError, if_neg panics] at opened
        simp [createCache, done, opened, freed, bind, Except.bind, pure, Except.pure]
      · simp [held, live, live']

end Sized

end Allocator

/-! ## The points of failure -/

namespace Creation

open Allocator

/-- The allocations of a creation, in their order. -/
inductive Point where
  | name
  | cache
  | node
  | cpus
  deriving DecidableEq, Repr

def flags (c : Creation) : SlabFlags := c.request.flags &&& cacheCreateMask

/-- There is no cache to merge with. -/
def SearchesInVain (k : Kit) (al : Allocator) (c : Creation) : Prop :=
  (userRegion c.request).2 ≠ 0 ∨
    findMergeable k.cfg (al.slabCaches.map (fun s => s.2.toKmemCache)) c.request.size c.request.align c.flags
      c.request.ctor = .ok none

def Aligns (k : Kit) (c : Creation) (align : Nat) : Prop :=
  calculateAlignment k.cfg.cacheLineSize c.flags c.request.align c.request.size = .ok align

/-- `calculate_sizes` accepts the cache. -/
def Sizes (k : Kit) (c : Creation) : Prop :=
  ∃ align sized, c.Aligns k align ∧
    calculateSizes k.cfg.nrPossibleCpuIds
      { newObject c.request align (userRegion c.request) with flags := c.flags } (-1) = .ok (sized, true)

/-- The creation comes to one of its allocations. -/
def Reaches (k : Kit) (al : Allocator) (c : Creation) (p : Point) : Prop :=
  c.request.flags &&& ~~~slabFlagsPermitted = 0 ∧ c.SearchesInVain k al ∧
    match p with
    | .name => True
    | .cache => ¬c.NameFails k al ∧ ∃ align, c.Aligns k align
    | .node => ¬c.NameFails k al ∧ ¬c.cache.Fails al.kmemCache ∧ c.Sizes k
    | .cpus => ¬c.NameFails k al ∧ ¬c.cache.Fails al.kmemCache ∧ c.Sizes k ∧ ¬c.node.Fails al.kmemCacheNode

/-- The creation comes to one of its allocations, and it fails. -/
def FailsAt (k : Kit) (al : Allocator) (c : Creation) (p : Point) : Prop :=
  c.Reaches k al p ∧
    match p with
    | .name => c.NameFails k al
    | .cache => c.cache.Fails al.kmemCache
    | .node => c.node.Fails al.kmemCacheNode
    | .cpus => c.cpus = none

end Creation

namespace Allocator

variable {k : Kit} {al : Allocator} {c : Creation}

/-- The creation returns `NULL` and leaves the state as before, or it panics as `SLAB_PANIC` asks. -/
def FailsCleanly (k : Kit) (al : Allocator) (c : Creation) : Except CreateFault (Allocator × Option Slot) → Prop
  | .ok (al', s) => s = none ∧ Restored k al al'
  | .error fault => fault = .fault .panic ∧ c.request.flags &&& slabPanic ≠ 0

theorem Restored.refl (sound : Sound k al) : Restored k al al := ⟨rfl, rfl, sound⟩

/-! The name is there, and the cache is aligned as the request asks. -/

section Named

variable {al' : Allocator} {name : Name} {align : Nat} {flags : SlabFlags}
  (named : kstrdupConst k al c = .ok (al', some name))
  (aligned : calculateAlignment k.cfg.cacheLineSize flags c.request.align c.request.size = .ok align)

include named aligned

theorem createNew_stops {fault : CreateFault}
    (created : createCache k al' c name align flags (userRegion c.request) = .error fault) :
    createNew k al c flags = .error fault := by
  rw [createNew, named]
  simp only [aligned, Except.mapError, created, bind, Except.bind]

/-- A failed `create_cache` is followed by freeing the name. -/
theorem createNew_freesName {al'' : Allocator} (holds : Named k al al' (al.held.withName name))
    (created : createCache k al' c name align flags (userRegion c.request) = .ok (al'', none))
    (restored : Restored k al' al'') :
    ∃ al₃, createNew k al c flags = createFailed flags al₃ ∧ Restored k al al₃ := by
  obtain ⟨al₃, freed, held, slabCaches, sound⟩ :=
    kfreeConst_ok restored.sound c.nameCpu (restored.held.trans holds.held)
  refine ⟨al₃, ?_, held, ?_, sound⟩
  · rw [createNew, named]
    simp only [aligned, Except.mapError, created, freed, bind, Except.bind]
  · rw [slabCaches, restored.slabCaches, holds.slabCaches]

end Named

/-- Every failure but that of the node ends in the error path with the state as before. -/
theorem createNew_fails (sound : Sound k al) (legal : c.Legal k al) {p : Creation.Point}
    (fails : c.FailsAt k al p) (other : p ≠ .node) :
    ∃ al', createNew k al c c.flags = createFailed c.flags al' ∧ Restored k al al' := by
  obtain ⟨⟨-, -, reached⟩, fails⟩ := fails
  obtain ⟨nameFails, al', named, holds⟩ | ⟨hasName, al', name, named, holds⟩ := kstrdupConst_cases sound legal
  · exact ⟨al', by simp only [createNew, named, bind, Except.bind], holds.restored⟩
  · have legalCache := legal.cache
    have legalNode := legal.node
    rw [← holds.kmemCache] at legalCache
    rw [← holds.kmemCacheNode] at legalNode
    cases p with
    | name => exact absurd fails hasName
    | cache =>
        obtain ⟨-, align, aligned⟩ := reached
        have cacheFails : c.cache.Fails al'.kmemCache := by
          rw [holds.kmemCache]
          exact fails
        obtain ⟨al'', created, restored⟩ := createCache_cache
          holds.sound legalCache cacheFails
        exact createNew_freesName named aligned holds created restored
    | node => exact absurd rfl other
    | cpus =>
        obtain ⟨-, hasCache, ⟨align, sized, aligned, accepted⟩, hasNode⟩ := reached
        rw [← holds.kmemCache] at hasCache
        rw [← holds.kmemCacheNode] at hasNode
        obtain ⟨panics, created⟩ | ⟨-, al'', created, restored⟩ :=
          createCache_cpus accepted holds.sound legalCache legalNode hasCache hasNode fails
        · refine ⟨al, ?_, Restored.refl sound⟩
          rw [createNew_stops named aligned created, createFailed, if_pos panics]
        · exact createNew_freesName named aligned holds created restored

theorem createNew_node (sound : Sound k al) (legal : c.Legal k al) (fails : c.FailsAt k al .node) :
    createNew k al c c.flags = .error .nullObject := by
  obtain ⟨⟨-, -, hasName, hasCache, align, sized, aligned, accepted⟩, fails⟩ := fails
  obtain ⟨nameFails, -⟩ | ⟨-, al', name, named, holds⟩ := kstrdupConst_cases sound legal
  · exact absurd nameFails hasName
  · have legalCache := legal.cache
    have legalNode := legal.node
    rw [← holds.kmemCache] at legalCache hasCache
    rw [← holds.kmemCacheNode] at legalNode
    have nodeFails : c.node.Fails al'.kmemCacheNode := by
      rw [holds.kmemCacheNode]
      exact fails
    exact createNew_stops named aligned
      (createCache_node accepted holds.sound legalCache legalNode hasCache nodeFails)

/-- A creation that comes to its first allocation merges with no cache. -/
theorem kmemCacheCreateUsercopy_new (permitted : c.request.flags &&& ~~~slabFlagsPermitted = 0)
    (vain : c.SearchesInVain k al) : kmemCacheCreateUsercopy k al c = createNew k al c c.flags := by
  simp only [kmemCacheCreateUsercopy, permitted, ne_eq, not_true_eq_false, if_false]
  split
  next unused =>
    obtain used | none := vain
    · exact absurd unused used
    · have search : kmemCacheAlias k al c.request c.flags = .ok (al, Option.none) := by
        simp only [kmemCacheAlias, none, Except.mapError, bind, Except.bind]
        rfl
      change (kmemCacheAlias k al c.request c.flags >>= _) = _
      rw [search]
      rfl
  next => rfl

theorem createFailed_clean {al' : Allocator} (restored : Restored k al al') :
    FailsCleanly k al c (createFailed c.flags al') := by
  rw [createFailed]
  split
  next panics =>
    refine ⟨rfl, fun none => panics ?_⟩
    rw [Creation.flags, BitVec.and_assoc, show cacheCreateMask &&& slabPanic = slabPanic by decide, none]
  next => exact ⟨rfl, restored⟩

/-- A creation whose allocation fails leaves the allocator as it was, at every point but the
    allocation of the node. -/
theorem creation_fails_cleanly_iff (sound : Sound k al) (legal : c.Legal k al) {p : Creation.Point}
    (fails : c.FailsAt k al p) : FailsCleanly k al c (kmemCacheCreateUsercopy k al c) ↔ p ≠ .node := by
  rw [kmemCacheCreateUsercopy_new fails.1.1 fails.1.2.1]
  constructor
  · rintro clean rfl
    rw [createNew_node sound legal fails] at clean
    cases clean.1
  · intro other
    obtain ⟨al', failed, restored⟩ := createNew_fails sound legal fails other
    rw [failed]
    exact createFailed_clean restored

end Allocator

/-- The caches of the allocator's own objects on `smallMachine`, with slabs of one page. -/
def wholeLines : Cache where
  size := 128
  order := 0
  minOrder := 0
  minPartial := 5
  fpInside := true
  objects_bounds := by rintro o (rfl | rfl) <;> decide

def smallKit : Kit where
  cfg := smallMachine
  kmemCache := wholeLines
  kmemCacheNode := wholeLines
  kmallocCache := fun _ => wholeLines
  kmalloc := { caches := [], kmallocCaches := fun _ _ => none, sizeIndex := [] }

def smallAllocator (nodes : System) : Allocator :=
  { kmemCache := .init, kmemCacheNode := nodes, kmalloc := fun _ => .init, large := [], slabCaches := [] }

/-- `kmem_cache_create("...", 96, 0, 0, NULL)` with a block for the cache. -/
def smallCreation (node : Option Nat) : Creation where
  name := .rodata
  request := nodeRequest
  nameObject := ⟨0, none, none⟩
  nameBlock := none
  cache := ⟨0, some 8, none⟩
  node := ⟨0, node, none⟩
  cpus := none
  nodeCpu := 0
  cacheCpu := 0
  nameCpu := 0

/-- The page of boot, with all of its objects handed out on one cpu. -/
def allNodesUsed : List Op := .early 4 :: List.replicate 31 (.alloc 0 false none none)

theorem smallCreation_sizes (node : Option Nat) : (smallCreation node).Sizes smallKit := by
  refine ⟨8, { nodeCache with flags := 0, minPartial := 0, refcount := 0 }, ?_, ?_⟩
  · change calculateAlignment smallMachine.cacheLineSize (nodeRequest.flags &&& cacheCreateMask) 0 96 = .ok 8
    decide +kernel
  · change calculateSizes 8 { Allocator.newObject nodeRequest 8 (Allocator.userRegion nodeRequest) with
      flags := nodeRequest.flags &&& cacheCreateMask } (-1) = _
    decide +kernel

theorem smallCreation_reaches (node : Option Nat) (nodes : System) :
    (smallCreation node).Reaches smallKit (smallAllocator nodes) .node := by
  have permitted : nodeRequest.flags &&& ~~~slabFlagsPermitted = 0 := by decide
  refine ⟨permitted, .inr ?_, by simp [Creation.NameFails, smallCreation], ?_, smallCreation_sizes node⟩
  · change findMergeable smallMachine [] 96 0 (nodeRequest.flags &&& cacheCreateMask) false = .ok none
    decide +kernel
  · simp [OutOfObjects, OutOfPages, smallCreation]

theorem smallCreation_legal {node : Option Nat} {nodes : System}
    (fresh : ∀ page, node = some page → Fresh nodes.st page 0) :
    (smallCreation node).Legal smallKit (smallAllocator nodes) where
  name _ _ given _ := by cases given
  cache := ⟨fun _ _ b slab => (by cases slab), fun _ given => (by cases given)⟩
  node := ⟨fresh, fun _ given => by cases given⟩

theorem smallAllocator_sound {nodes : System} (reach : Reachable wholeLines nodes) :
    (smallAllocator nodes).Sound smallKit :=
  ⟨.init, reach, fun _ => .init⟩

/-- When every node is in use and there is no page for another, the creation does not return. -/
theorem nodes_used_up_crash : ∃ al, al.Sound smallKit ∧ (smallCreation none).Legal smallKit al ∧
    (smallCreation none).FailsAt smallKit al .node ∧
    Allocator.kmemCacheCreateUsercopy smallKit al (smallCreation none) = .error .nullObject ∧
    ¬Allocator.FailsCleanly smallKit al (smallCreation none)
      (Allocator.kmemCacheCreateUsercopy smallKit al (smallCreation none)) := by
  have used : (run wholeLines allNodesUsed .init).map
      (fun sys => (sys.st.cpus 0, (sys.st.pages 4).freelist, sys.st.partials)) = some (⟨none, some 4⟩, none, []) := by
    decide +kernel
  obtain ⟨sys, done, facts⟩ := Option.map_eq_some_iff.mp used
  simp only [Prod.mk.injEq] at facts
  obtain ⟨cpu, full, partials⟩ := facts
  have sound := smallAllocator_sound (Reachable.init.run done)
  have legal : (smallCreation none).Legal smallKit (smallAllocator sys) := smallCreation_legal (by simp)
  have fails : (smallCreation none).FailsAt smallKit (smallAllocator sys) .node := by
    refine ⟨smallCreation_reaches none sys, ?_, ?_, partials, rfl, rfl⟩
    · change (sys.st.cpus 0).freelist = none
      rw [cpu]
    · intro p has
      change (sys.st.cpus 0).page = some p at has
      change (sys.st.pages p).freelist = none
      rw [cpu] at has
      obtain rfl := Option.some.inj has
      exact full
  have crash : Allocator.kmemCacheCreateUsercopy smallKit (smallAllocator sys) (smallCreation none) =
      .error .nullObject := by
    rw [Allocator.kmemCacheCreateUsercopy_new fails.1.1 fails.1.2.1, Allocator.createNew_node sound legal fails]
  refine ⟨_, sound, legal, fails, crash, fun clean => ?_⟩
  rw [crash] at clean
  cases clean.1

/-- The percpu area cannot be allocated: the node, the cache and the name go back. -/
theorem smallCreation_fails_cleanly :
    Allocator.FailsCleanly smallKit (smallAllocator .init) (smallCreation (some 12))
      (Allocator.kmemCacheCreateUsercopy smallKit (smallAllocator .init) (smallCreation (some 12))) := by
  have fails : (smallCreation (some 12)).FailsAt smallKit (smallAllocator .init) .cpus := by
    obtain ⟨permitted, vain, name, cache, sizes⟩ := smallCreation_reaches (some 12) .init
    exact ⟨⟨permitted, vain, name, cache, sizes, by simp [OutOfObjects, OutOfPages, smallCreation]⟩, rfl⟩
  exact (Allocator.creation_fails_cleanly_iff (smallAllocator_sound .init)
    (smallCreation_legal (fun _ _ b slab => by cases slab)) fails).mpr (by decide)

end Miracle.Slub
