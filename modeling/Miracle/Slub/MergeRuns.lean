import Miracle.Slub.Merge

/-! # Runs of creations

Caches are created and merged, and slabs are allocated from them, in any order.  A user of a
cache is a request that was answered with it.
-/

namespace Miracle.Slub

open Sizing

/-- The caches in the order of their creation, the slabs and the users. -/
structure CacheSystem where
  caches : List KmemCache
  slabs : List Slab
  users : List (Nat × Request)

/-- Before the first cache. -/
def CacheSystem.empty : CacheSystem := { caches := [], slabs := [], users := [] }

/-- One step: a call of `kmem_cache_create`, a cache made at boot, a `kmalloc` cache, or a slab in
    a block that the page allocator gives, which is aligned to its length. -/
inductive CacheStep (cfg : Config) : CacheSystem → CacheSystem → Prop
  | create {sys caches i} (mem : Memory) (r : Request) (asked : AskedAlign r.align) (word : r.size < 2 ^ 32)
      (done : kmemCacheCreateUsercopy cfg mem sys.caches r = .ok (caches, some i)) :
      CacheStep cfg sys { sys with caches := caches, users := (i, r) :: sys.users }
  | refused {sys caches} (mem : Memory) (r : Request)
      (done : kmemCacheCreateUsercopy cfg mem sys.caches r = .ok (caches, none)) :
      CacheStep cfg sys { sys with caches := caches }
  | boot {sys s} (mem : Memory) (size : Nat) (flags : SlabFlags) (useroffset usersize : Nat) (word : size < 2 ^ 32)
      (done : createBootCache cfg mem size flags useroffset usersize = .ok s) :
      CacheStep cfg sys { sys with caches := sys.caches ++ [s] }
  | kmalloc {sys s} (mem : Memory) (size : Nat) (flags : SlabFlags) (useroffset usersize : Nat) (word : size < 2 ^ 32)
      (done : createKmallocCache cfg mem size flags useroffset usersize = .ok s) :
      CacheStep cfg sys { sys with
        caches := sys.caches ++ [s]
        users := (sys.caches.length, ⟨size, cfg.archKmallocMinalign, flags, useroffset, usersize, false⟩) :: sys.users }
  | slab {sys s} (i : Nat) (fallback : Bool) (gfp : BitVec 32) (start : Nat) (cache : sys.caches[i]? = some s)
      (block : pageSize <<< ooOrder (slabAt s i fallback gfp start).oo ∣ start)
      (memory : start + pageSize <<< ooOrder (slabAt s i fallback gfp start).oo ≤ 2 ^ 64) :
      CacheStep cfg sys { sys with slabs := slabAt s i fallback gfp start :: sys.slabs }

abbrev CacheRun (cfg : Config) : CacheSystem → CacheSystem → Prop := Relation.ReflTransGen (CacheStep cfg)

/-- The slab is as `allocate_slab` made it from the cache. -/
structure SlabOk (s : KmemCache) (slab : Slab) : Prop where
  oo : slab.oo = s.oo ∨ slab.oo = s.min
  block : pageSize <<< ooOrder slab.oo ∣ slab.start
  memory : slab.start + pageSize <<< ooOrder slab.oo ≤ 2 ^ 64
  objects : slab.objects = slabFreelist s slab.oo slab.start
  zone : slab.zone = PageAlloc.gfpZone (slab.gfp ||| s.allocflags)

structure CachesInv (cfg : Config) (sys : CacheSystem) : Prop where
  caches : ∀ (i : Nat) s, sys.caches[i]? = some s → CacheOk s
  users : ∀ (i : Nat) r, (i, r) ∈ sys.users → ∃ s, sys.caches[i]? = some s ∧ Serves cfg s r
  slabs : ∀ slab ∈ sys.slabs, ∃ s, sys.caches[slab.cache]? = some s ∧ SlabOk s slab

/-- What later calls keep of a cache. -/
structure Kept (s s' : KmemCache) : Prop where
  size : s'.size = s.size
  oo : s'.oo = s.oo
  min : s'.min = s.min
  flags : s'.flags = s.flags
  allocflags : s'.allocflags = s.allocflags
  ctor : s'.ctor = s.ctor
  objectSize : s.objectSize ≤ s'.objectSize

namespace Kept

variable {s s' s'' : KmemCache}

theorem refl (s : KmemCache) : Kept s s := ⟨rfl, rfl, rfl, rfl, rfl, rfl, le_rfl⟩

theorem trans (h : Kept s s') (h' : Kept s' s'') : Kept s s'' where
  size := h'.size.trans h.size
  oo := h'.oo.trans h.oo
  min := h'.min.trans h.min
  flags := h'.flags.trans h.flags
  allocflags := h'.allocflags.trans h.allocflags
  ctor := h'.ctor.trans h.ctor
  objectSize := h.objectSize.trans h'.objectSize

theorem merged (s : KmemCache) (size : Nat) : Kept s (s.merged size) :=
  ⟨rfl, rfl, rfl, rfl, rfl, rfl, Nat.le_max_left _ _⟩

theorem relocates (h : Kept s s') (moved : s'.Relocates) : s.Relocates := by
  unfold KmemCache.Relocates at moved ⊢
  rw [h.flags, h.ctor] at moved
  exact moved

theorem serves {cfg : Config} {r : Request} (h : Kept s s') (serves : Serves cfg s r) : Serves cfg s' r where
  size := serves.size.trans h.objectSize
  align := by rw [h.size]; exact serves.align
  dma := by rw [h.flags]; exact serves.dma

theorem slabOk {slab : Slab} (h : Kept s s') (ok : SlabOk s slab) : SlabOk s' slab where
  oo := by rw [h.oo, h.min]; exact ok.oo
  block := ok.block
  memory := ok.memory
  objects := by rw [ok.objects, slabFreelist, slabFreelist, h.size]
  zone := by rw [h.allocflags]; exact ok.zone

end Kept

/-- The caches afterwards are the caches before, merged or not, and perhaps new ones. -/
def Extends (caches caches' : List KmemCache) : Prop :=
  ∀ (i : Nat) s, caches[i]? = some s → ∃ s', caches'[i]? = some s' ∧ Kept s s'

theorem Extends.refl (caches : List KmemCache) : Extends caches caches := fun _ s here => ⟨s, here, Kept.refl s⟩

theorem Extends.append (caches more : List KmemCache) : Extends caches (caches ++ more) := by
  intro i s here
  have lt : i < caches.length := (List.getElem?_eq_some_iff.mp here).1
  exact ⟨s, by rw [List.getElem?_append_left lt, here], Kept.refl s⟩

theorem Extends.merge (caches : List KmemCache) (i size : Nat) :
    Extends caches (caches.modify i (fun s => s.merged size)) := by
  intro j s here
  have there : (caches.modify i (fun s => s.merged size))[j]? = some (if i = j then s.merged size else s) := by
    rw [List.getElem?_modify, here]
    rfl
  refine ⟨_, there, ?_⟩
  split
  · exact Kept.merged s size
  · exact Kept.refl s

section Invariant

variable {cfg : Config} {sys : CacheSystem} {caches : List KmemCache}

/-- Users and slabs stay valid when the caches are extended. -/
theorem CachesInv.extend (inv : CachesInv cfg sys) (kept : Extends sys.caches caches)
    (ok : ∀ (i : Nat) s, caches[i]? = some s → CacheOk s) : CachesInv cfg { sys with caches := caches } where
  caches := ok
  users := by
    intro i r user
    obtain ⟨s, here, serves⟩ := inv.users i r user
    obtain ⟨s', there, keeps⟩ := kept i s here
    exact ⟨s', there, keeps.serves serves⟩
  slabs := by
    intro slab mem
    obtain ⟨s, here, slabOk⟩ := inv.slabs slab mem
    obtain ⟨s', there, keeps⟩ := kept slab.cache s here
    exact ⟨s', there, keeps.slabOk slabOk⟩

theorem CachesInv.addUser (inv : CachesInv cfg sys) {i : Nat} {r : Request} {s : KmemCache}
    (here : sys.caches[i]? = some s) (serves : Serves cfg s r) :
    CachesInv cfg { sys with users := (i, r) :: sys.users } where
  caches := inv.caches
  users := by
    intro j r' user
    cases user with
    | head => exact ⟨s, here, serves⟩
    | tail _ user => exact inv.users j r' user
  slabs := inv.slabs

theorem CachesInv.append (inv : CachesInv cfg sys) {s : KmemCache} (ok : CacheOk s) :
    CachesInv cfg { sys with caches := sys.caches ++ [s] } := by
  apply inv.extend (Extends.append sys.caches [s])
  intro i s' here
  rcases List.mem_append.mp (List.mem_of_getElem? here) with old | new
  · obtain ⟨j, there⟩ := List.mem_iff_getElem?.mp old
    exact inv.caches j s' there
  · rw [List.mem_singleton.mp new]
    exact ok

theorem CacheOk.merged {s : KmemCache} {size align : Nat} {flags : SlabFlags} (ok : CacheOk s)
    (fits : Fits cfg s size align flags) : CacheOk (s.merged size) where
  pow := ok.pow
  unit := ok.unit
  words := ok.words
  pos := ok.pos
  word := ok.word
  packs := ok.packs
  packsMin := ok.packsMin
  dma := ok.dma
  covers := by
    intro plain
    obtain ⟨covers, room⟩ := ok.covers plain
    have here := fits.covers
    have room' := fits.room
    exact ⟨by simp only [KmemCache.merged]; omega, by simp only [KmemCache.merged]; omega⟩

/-- `__kmem_cache_alias` keeps the invariant, and the cache that it returns serves the request. -/
theorem CachesInv.alias (inv : CachesInv cfg sys) {r : Request} {flags : SlabFlags} {i : Nat} (asked : AskedAlign r.align)
    (word : r.size < 2 ^ 32) (same : flags &&& cacheCreateMask = r.flags &&& cacheCreateMask)
    (merged : kmemCacheAlias cfg sys.caches r.size r.align flags r.ctor = .ok (caches, some i)) :
    CachesInv cfg { sys with caches := caches, users := (i, r) :: sys.users } ∧ Extends sys.caches caches ∧
      ∃ s, caches[i]? = some s ∧ ¬s.Relocates := by
  obtain ⟨found, search, done⟩ := bind_eq_ok merged
  cases found with
  | none => cases done
  | some j =>
      cases done
      obtain ⟨a, s, computed, here, test⟩ := findMergeable_some search
      have ok := inv.caches _ s here
      have fits := ok.fits asked word computed test
      have there : (sys.caches.modify i (fun s => s.merged r.size))[i]? = some (s.merged r.size) := by
        rw [List.getElem?_modify, here]
        simp
      have extended := Extends.merge sys.caches i r.size
      have serves : Serves cfg (s.merged r.size) r := by
        constructor
        case size => exact Nat.le_max_right _ _
        case align =>
            obtain ⟨b, direct, pow, unit⟩ := fits.aligned
            rw [← calculateAlignment_masked, same, calculateAlignment_masked] at direct
            exact ⟨b, direct, pow, unit⟩
        case dma =>
            have bit : ∀ f : SlabFlags, f &&& slabCacheDma = f &&& cacheCreateMask &&& slabCacheDma := by
              intro f
              rw [BitVec.and_assoc]
              rfl
            exact fits.dma.trans (by rw [bit flags, same, ← bit])
      have ok' : ∀ (j : Nat) s', (sys.caches.modify i (fun s => s.merged r.size))[j]? = some s' → CacheOk s' := by
        intro j s' at_j
        rw [List.getElem?_modify] at at_j
        obtain ⟨t, old, rfl⟩ := Option.map_eq_some_iff.mp at_j
        split
        · rename_i equal
          subst equal
          rw [here] at old
          cases old
          exact ok.merged fits
        · exact inv.caches j t old
      exact ⟨(inv.extend extended ok').addUser there serves, extended, _, there, fits.plain⟩

/-! ## Steps -/

theorem createFailed_none {flags : SlabFlags} {caches' : List KmemCache} {found : Option Nat}
    (done : createFailed flags caches = .ok (caches', found)) : caches' = caches ∧ found = none := by
  unfold createFailed at done
  split at done
  · cases done
  · cases done
    exact ⟨rfl, rfl⟩

/-- A search that finds nothing, or is not made, changes nothing. -/
theorem kmemCacheAlias_or {p : Prop} [Decidable p] {size align : Nat} {flags : SlabFlags} {ctor : Bool}
    {list : List KmemCache} {served : Option Nat}
    (searched : (if p then kmemCacheAlias cfg caches size align flags ctor else .ok (caches, none)) = .ok (list, served)) :
    (list = caches ∧ served = none) ∨
    (kmemCacheAlias cfg caches size align flags ctor = .ok (list, served) ∧ served ≠ none) := by
  split at searched
  · cases served with
    | some i => exact Or.inr ⟨searched, nofun⟩
    | none =>
        obtain ⟨found, search, ended⟩ := bind_eq_ok searched
        cases found with
        | some j => cases ended
        | none =>
            cases ended
            exact Or.inl ⟨rfl, rfl⟩
  · cases searched
    exact Or.inl ⟨rfl, rfl⟩

/-- How `kmem_cache_create_usercopy` ends: with a cache that serves another request already, with
    a new cache or with nothing done. -/
theorem kmemCacheCreateUsercopy_ok {mem : Memory} {r : Request} {caches' : List KmemCache} {found : Option Nat}
    (done : kmemCacheCreateUsercopy cfg mem caches r = .ok (caches', found)) :
    (caches' = caches ∧ found = none) ∨
    (kmemCacheAlias cfg caches r.size r.align (r.flags &&& cacheCreateMask) r.ctor = .ok (caches', found) ∧ found ≠ none) ∨
    ∃ align useroffset usersize s,
      calculateAlignment cfg.cacheLineSize (r.flags &&& cacheCreateMask) r.align r.size = .ok align ∧
      createCache cfg mem r.size align (r.flags &&& cacheCreateMask) useroffset usersize r.ctor = .ok (some s) ∧
      caches' = caches ++ [s] ∧ found = some caches.length := by
  by_cases permitted : r.flags &&& ~~~slabFlagsPermitted ≠ 0
  · simp only [kmemCacheCreateUsercopy, if_pos permitted] at done
    exact Or.inl (createFailed_none done)
  · simp only [kmemCacheCreateUsercopy, if_neg permitted] at done
    obtain ⟨⟨list, served⟩, searched, ended⟩ := bind_eq_ok done
    have result := kmemCacheAlias_or searched
    cases served with
    | some i =>
        cases ended
        rcases result with ⟨-, none⟩ | result
        · cases none
        · exact Or.inr (Or.inl result)
    | none =>
        obtain ⟨rfl, -⟩ | ⟨-, some⟩ := result
        · by_cases named : mem.name = false
          · simp only [if_pos named] at ended
            exact Or.inl (createFailed_none ended)
          · simp only [if_neg named] at ended
            obtain ⟨align, computed, ended⟩ := bind_eq_ok ended
            obtain ⟨made, created, ended⟩ := bind_eq_ok ended
            cases made with
            | none => exact Or.inl (createFailed_none ended)
            | some s =>
                cases ended
                exact Or.inr (Or.inr ⟨align, _, _, s, computed, created, rfl, rfl⟩)
        · exact absurd rfl some

/-- A step keeps the invariant and every cache, up to merging. -/
theorem CacheStep.keeps {sys' : CacheSystem} (inv : CachesInv cfg sys) (step : CacheStep cfg sys sys') :
    CachesInv cfg sys' ∧ Extends sys.caches sys'.caches := by
  cases step with
  | create mem r asked word done =>
      rcases kmemCacheCreateUsercopy_ok done with ⟨-, none⟩ | ⟨merged, -⟩ | ⟨align, uo, us, s, computed, created, rfl, found⟩
      · cases none
      · have masked : r.flags &&& cacheCreateMask &&& cacheCreateMask = r.flags &&& cacheCreateMask := by
          rw [BitVec.and_assoc, BitVec.and_self]
        obtain ⟨inv', extended, -⟩ := inv.alias asked word masked merged
        exact ⟨inv', extended⟩
      · cases found
        obtain ⟨ok, serves⟩ := createCache_ok asked word computed created
        exact ⟨(inv.append ok).addUser List.getElem?_concat_length serves, Extends.append _ _⟩
  | refused mem r done =>
      rcases kmemCacheCreateUsercopy_ok done with ⟨rfl, -⟩ | ⟨-, some⟩ | ⟨-, -, -, -, -, -, -, some⟩
      · exact ⟨inv, Extends.refl _⟩
      · exact absurd rfl some
      · cases some
  | boot mem size flags uo us word done => exact ⟨inv.append (createBootCache_ok word done).ok, Extends.append _ _⟩
  | kmalloc mem size flags uo us word done =>
      have made := createKmallocCache_ok word done
      exact ⟨(inv.append made.ok).addUser List.getElem?_concat_length made.serves, Extends.append _ _⟩
  | slab i fallback gfp start here block memory =>
      refine ⟨⟨inv.caches, inv.users, ?_⟩, Extends.refl _⟩
      intro slab mem
      cases mem with
      | head =>
          refine ⟨_, here, ?_, block, memory, rfl, rfl⟩
          cases fallback with
          | true => exact Or.inr rfl
          | false => exact Or.inl rfl
      | tail _ mem => exact inv.slabs slab mem

theorem CacheRun.keeps {sys' : CacheSystem} (inv : CachesInv cfg sys) (run : CacheRun cfg sys sys') :
    CachesInv cfg sys' ∧ Extends sys.caches sys'.caches := by
  induction run with
  | refl => exact ⟨inv, Extends.refl _⟩
  | tail _ step ih =>
      obtain ⟨inv', extended⟩ := ih
      obtain ⟨inv'', extended'⟩ := step.keeps inv'
      refine ⟨inv'', fun i s here => ?_⟩
      obtain ⟨s', there, kept⟩ := extended i s here
      obtain ⟨s'', last, kept'⟩ := extended' i s' there
      exact ⟨s'', last, kept.trans kept'⟩

theorem CachesInv.init : CachesInv cfg CacheSystem.empty where
  caches := by
    intro i s here
    cases here
  users := by
    intro i r user
    cases user
  slabs := by
    intro slab mem
    cases mem

/-- Users and slabs are never forgotten. -/
theorem CacheRun.remembers {sys' : CacheSystem} (run : CacheRun cfg sys sys') :
    (∀ user ∈ sys.users, user ∈ sys'.users) ∧ ∀ slab ∈ sys.slabs, slab ∈ sys'.slabs := by
  induction run with
  | refl => exact ⟨fun _ mem => mem, fun _ mem => mem⟩
  | tail _ step ih =>
      obtain ⟨users, slabs⟩ := ih
      cases step with
      | create | kmalloc => exact ⟨fun user mem => List.mem_cons_of_mem _ (users user mem), slabs⟩
      | refused | boot => exact ⟨users, slabs⟩
      | slab => exact ⟨users, fun slab mem => List.mem_cons_of_mem _ (slabs slab mem)⟩

end Invariant

/-! ## What users get -/

theorem SlabOk.packs {s : KmemCache} {slab : Slab} (ok : SlabOk s slab) (cache : CacheOk s) : Packs slab.oo s.size := by
  rcases ok.oo with eq | eq
  · rw [eq]
    exact cache.packs
  · rw [eq]
    exact cache.packsMin

theorem SlabOk.dmaZone {s : KmemCache} {slab : Slab} (ok : SlabOk s slab) (cache : CacheOk s) :
    (s.flags &&& slabCacheDma ≠ 0 → slab.zone = .dma) ∧
    (s.flags &&& slabCacheDma = 0 → slab.zone = PageAlloc.gfpZone slab.gfp) := by
  rw [ok.zone, cache.dma]
  constructor
  · intro dma
    have low : (slab.gfp ||| gfpDma).getLsbD 0 = true := by
      rw [BitVec.getLsbD_or]
      simp [gfpDma]
    rw [if_pos dma, PageAlloc.gfpZone, low]
    rfl
  · intro plain
    rw [if_neg (not_not.mpr plain)]
    exact congrArg PageAlloc.gfpZone BitVec.or_zero

/-- When `__kmem_cache_alias` returns a cache, then from that call on the object size of the cache
    covers all its users, it stays inside the slots, and every slab of the cache, old or new,
    has objects of that size with the alignment and from the memory that each user asked for. -/
theorem merged_cache_serves (cfg : Config) {sys : CacheSystem} (reach : CacheRun cfg CacheSystem.empty sys) {r : Request}
    (asked : AskedAlign r.align) (word : r.size < 2 ^ 32) {caches : List KmemCache} {i : Nat}
    (merged : kmemCacheAlias cfg sys.caches r.size r.align r.flags r.ctor = .ok (caches, some i)) {later : CacheSystem}
    (run : CacheRun cfg { sys with caches := caches, users := (i, r) :: sys.users } later) :
    (i, r) ∈ later.users ∧ (∀ slab ∈ sys.slabs, slab ∈ later.slabs) ∧
    ∃ s, later.caches[i]? = some s ∧ s.objectSize ≤ s.inuse ∧ s.inuse ≤ s.size ∧
      ∀ r', (i, r') ∈ later.users → r'.size ≤ s.objectSize ∧
        ∃ a, calculateAlignment cfg.cacheLineSize r'.flags r'.align r'.size = .ok a ∧
          ∀ slab ∈ later.slabs, slab.cache = i →
            WellLaid s.size a (pageSize <<< ooOrder slab.oo) slab.start slab.objects ∧
            (r'.flags &&& slabCacheDma ≠ 0 → slab.zone = .dma) ∧
            (r'.flags &&& slabCacheDma = 0 → slab.zone = PageAlloc.gfpZone slab.gfp) := by
  obtain ⟨inv, -⟩ := CacheRun.keeps CachesInv.init reach
  obtain ⟨inv', -, t, there, plain⟩ := inv.alias asked word rfl merged
  obtain ⟨inv'', extended⟩ := CacheRun.keeps inv' run
  obtain ⟨users, slabs⟩ := CacheRun.remembers run
  obtain ⟨s, here, kept⟩ := extended i t there
  have ok := inv''.caches i s here
  obtain ⟨covers, room⟩ := ok.covers (fun moved => plain (kept.relocates moved))
  refine ⟨users _ List.mem_cons_self, slabs, s, here, covers, room, fun r' user => ?_⟩
  obtain ⟨s', same, serves⟩ := inv''.users i r' user
  rw [here] at same
  cases same
  obtain ⟨a, computed, pow, unit⟩ := serves.align
  refine ⟨serves.size, a, computed, fun slab mem at_i => ?_⟩
  obtain ⟨s', same, slabOk⟩ := inv''.slabs slab mem
  rw [at_i, here] at same
  cases same
  obtain ⟨-, laid⟩ := Packs.wellLaid (slabOk.packs ok) pow unit ok.pos slabOk.block slabOk.memory
  rw [← slabOk.objects] at laid
  have zone := slabOk.dmaZone ok
  rw [serves.dma] at zone
  exact ⟨laid, zone⟩

/-- Lines of 64 bytes, eight cpus and `kmalloc` objects of at least 128 bytes. -/
def smallMachine : Config where
  cwg := 4
  nomerge := false
  nrPossibleCpuIds := 8
  cmpxchgDouble := true
  kmallocShiftLow := 7
  shiftLow_le := by decide

def nodeRequest : Request := ⟨96, 0, 0, 0, 0, false⟩

def listRequest : Request := ⟨90, 8, slabPanic, 0, 0, false⟩

/-- The cache of ninety-six bytes that serves both requests. -/
def nodeCache : KmemCache where
  flags := cmpxchgDoubleFlag
  minPartial := 5
  size := 96
  objectSize := 96
  offset := 0
  oo := ⟨42⟩
  max := ⟨42⟩
  min := ⟨42⟩
  allocflags := 0
  refcount := 1
  ctor := false
  inuse := 96
  align := 8
  useroffset := 0
  usersize := 0

theorem nodeCache_serves :
    ∃ s, (kmemCacheAlias smallMachine [nodeCache] 90 8 slabPanic false = .ok ([s], some 0)) ∧
      s.objectSize ≤ s.inuse ∧ s.inuse ≤ s.size ∧ 90 ≤ s.objectSize := by
  have created : kmemCacheCreateUsercopy smallMachine ⟨true, true, true⟩ [] nodeRequest = .ok ([nodeCache], some 0) := by
    decide +kernel
  have merged : kmemCacheAlias smallMachine [nodeCache] listRequest.size listRequest.align listRequest.flags
      listRequest.ctor = .ok ([nodeCache.merged 90], some 0) := by decide +kernel
  have first : CacheStep smallMachine CacheSystem.empty { caches := [nodeCache], slabs := [], users := [(0, nodeRequest)] } :=
    CacheStep.create ⟨true, true, true⟩ nodeRequest (Or.inl rfl) (by decide) created
  have asked : AskedAlign listRequest.align := Or.inr (powAlign_two_pow (k := 3) (by decide))
  obtain ⟨user, -, s, here, covers, room, users⟩ :=
    merged_cache_serves smallMachine (Relation.ReflTransGen.single first) asked (by decide) merged Relation.ReflTransGen.refl
  cases here
  exact ⟨_, merged, covers, room, (users listRequest user).1⟩

end Miracle.Slub
