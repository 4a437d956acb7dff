import Miracle.Slub.Boot
import Miracle.Slub.CreateFailure
import Miracle.Slub.KmallocBoot

/-! # What stops the boot of the slab allocator

The two static descriptions open, and the first node and the first description are allocated.
`bootstrap` has read the pointer to the node by then, from an object that was still clear, and
walks the list of a node that is `NULL`.
-/

namespace Miracle.Slub

/-! ## Descriptions that open -/

theorem halveLine_lt {size line r : Nat} (done : halveLine size line = .ok r) : r / 2 < size := by
  fun_induction halveLine size line with
  | case1 => cases done
  | case2 line fits nonzero ih => exact ih done
  | case3 line above =>
      cases done
      omega

/-- The alignment of the caches of boot is small, however long the cache lines are. -/
theorem bootAlignment_lt {cfg : Config} {size a : Nat} (small : size ≤ 128)
    (aligned : calculateAlignment cfg.cacheLineSize slabHwcacheAlign cfg.archKmallocMinalign size = .ok a) : a < 264 := by
  obtain ⟨line, halved, done⟩ := bind_eq_ok aligned
  have short := halveLine_lt halved
  have minalign := cfg.archKmallocMinalign_le
  cases done
  have raised : (if max cfg.archKmallocMinalign line < archSlabMinalign then archSlabMinalign
      else max cfg.archKmallocMinalign line) ≤ 256 := by
    unfold archSlabMinalign
    split <;> omega
  exact Nat.lt_of_lt_of_le (alignWord_lt (k := 3) (by decide)) (Nat.add_le_add_right raised (2 ^ 3))

theorem Packs.bounds {oo : OrderObjects} {size : Nat} (packs : Packs oo size) :
    0 < orderObjects (Sizing.ooOrder oo) size ∧ orderObjects (Sizing.ooOrder oo) size ≤ 32767 := by
  rw [← packs.objects]
  exact ⟨packs.some, packs.few⟩

theorem KmemCache.layout_toCache {s : KmemCache} (packs : Packs s.oo s.size) (packsMin : Packs s.min s.size) :
    s.layout = some (s.toCache packs packsMin) := by
  rw [layout, dif_pos]
  · rfl
  · intro o member
    simp only [List.mem_cons, List.not_mem_nil, or_false] at member
    obtain rfl | rfl := member
    · exact packs.bounds
    · exact packsMin.bounds

/-- A description of boot opens, and its slabs have several objects. -/
theorem description_opens (cfg : Config) {size : Nat} (some : 0 < size) (small : size ≤ 128) :
    ∃ a sized cache, calculateAlignment cfg.cacheLineSize slabHwcacheAlign cfg.archKmallocMinalign size = .ok a ∧
      calculateSizes cfg.nrPossibleCpuIds { newCache size a false 0 0 with flags := slabHwcacheAlign } (-1) =
        .ok (sized, true) ∧
      (Allocator.enableFastMode cfg sized).layout = .some cache ∧ size ≤ (Allocator.enableFastMode cfg sized).size ∧
      1 < orderObjects cache.order cache.size ∧ cache.order < maxOrder := by
  obtain ⟨a, aligned, -, pow, -⟩ :=
    calculateAlignment_spec cfg slabHwcacheAlign (Or.inr cfg.archKmallocMinalign_pow) some le_rfl (fun _ _ le => le)
  have short := bootAlignment_lt small aligned
  obtain ⟨s, description⟩ : ∃ s : KmemCache, { newCache size a false 0 0 with flags := slabHwcacheAlign } = s := ⟨_, rfl⟩
  have plain : ¬s.Relocates := by
    subst description
    simp [KmemCache.Relocates, newCache, slabHwcacheAlign, slabPoison]
  have objectSize : s.objectSize = size := by rw [← description]; rfl
  have align : s.align = a := by rw [← description]; rfl
  rw [← align] at pow
  obtain ⟨oo, min, sized, packs, packsMin⟩ := calculateSizes_made cfg.nrPossibleCpuIds pow (by omega) (by omega) (by omega) plain
  have near := KmemCache.slotSize_near pow plain
  have ⟨_, room⟩ := KmemCache.slotSize_room pow (by omega)
  unfold wordSize at near
  refine ⟨a, s.ordered oo min, _, aligned, by rw [description]; exact sized,
    (Allocator.enableFastMode cfg (s.ordered oo min)).layout_toCache packs packsMin, ?_, ?_, packs.order⟩
  · change size ≤ s.slotSize
    omega
  · change 1 < Slub.orderObjects (Sizing.ooOrder oo) s.slotSize
    have pos : 0 < s.slotSize := by omega
    rw [Slub.orderObjects, Nat.lt_iff_add_one_le, Nat.le_div_iff_mul_le pos]
    have page : 4096 ≤ 4096 <<< Sizing.ooOrder oo := by
      rw [Nat.shiftLeft_eq]
      exact Nat.le_mul_of_pos_right _ (Nat.two_pow_pos _)
    omega

namespace Boot

variable {m : Machine} {b : Boot}

section Store

variable (b : Boot) (ref : CacheRef) (s : CacheObject)

@[simp]
theorem store_deref : (b.store ref s).deref ref = s := by
  cases ref <;> simp [store, deref]

@[simp]
theorem store_sys : (b.store ref s).sys = b.sys := by cases ref <;> rfl

@[simp]
theorem store_pointer (c : BootCache) : (b.store ref s).pointer c = b.pointer c := by
  cases ref <;> cases c <;> rfl

@[simp]
theorem store_kmemCacheNode : (b.store ref s).kmemCacheNode = b.kmemCacheNode := store_pointer b ref s .kmemCacheNode

@[simp]
theorem store_kmemCache : (b.store ref s).kmemCache = b.kmemCache := store_pointer b ref s .kmemCache

@[simp]
theorem store_down : (b.store ref s).down = b.down := by cases ref <;> rfl

@[simp]
theorem store_pagesAsked : (b.store ref s).pagesAsked = b.pagesAsked := by cases ref <;> rfl

@[simp]
theorem store_static (o : Slot) : (b.store (.object o) s).static = b.static := rfl

end Store

section Grant

variable (b : Boot) (c : BootCache) (sys : System)

@[simp]
theorem grant_sys : (b.grant c sys).sys = Function.update b.sys c sys := rfl

@[simp]
theorem grant_deref (ref : CacheRef) : (b.grant c sys).deref ref = b.deref ref := by cases ref <;> rfl

@[simp]
theorem grant_static : (b.grant c sys).static = b.static := rfl

@[simp]
theorem grant_kmemCacheNode : (b.grant c sys).kmemCacheNode = b.kmemCacheNode := rfl

@[simp]
theorem grant_kmemCache : (b.grant c sys).kmemCache = b.kmemCache := rfl

@[simp]
theorem grant_pagesAsked : (b.grant c sys).pagesAsked = b.pagesAsked + 2 := rfl

end Grant

/-- Blocks are there for every request, apart from each other, and so are percpu areas. -/
structure Serves (m : Machine) : Prop where
  pages : ∀ n k, k < maxOrder → ∃ p, m.pages n k = some p
  apart : ∀ n n' k k' p p', n ≠ n' → m.pages n k = some p → m.pages n' k' = some p' → Apart (p, k) (p', k')
  areas : ∀ n, ∃ a, m.areas n = some a

/-! ## The node that is `NULL` -/

/-- `bootstrap` reads the node of the object before the description is copied there. -/
theorem bootstrap_ne_ok (c : BootCache) (r : Boot × CacheRef) : b.bootstrap m c ≠ .ok r := by
  intro done
  obtain ⟨⟨b', object⟩, -, done⟩ := bind_eq_ok done
  cases object with
  | none => cases done
  | some s =>
      dsimp only at done
      split at done
      next => cases done
      next cache layout =>
        obtain ⟨st, -, done⟩ := bind_eq_ok done
        rw [store_deref] at done
        cases done

theorem kmemCacheInit_ne_ok (rest : Boot → Except BootFault Boot) : kmemCacheInit m rest ≠ .ok b := by
  intro done
  obtain ⟨b₁, -, done⟩ := bind_eq_ok done
  obtain ⟨b₂, -, done⟩ := bind_eq_ok done
  obtain ⟨⟨b₃, s⟩, moved, -⟩ := bind_eq_ok done
  exact bootstrap_ne_ok _ _ moved

/-! ## How far boot comes -/

theorem attempt_served (serves : Serves m) (b : Boot) {s : Cache} (order : s.order < maxOrder) :
    (b.attempt m s).got ≠ none := by
  obtain ⟨p, given⟩ := serves.pages b.pagesAsked s.order order
  simp [attempt, given]

theorem allocate_ok {c : BootCache} {s : Cache} (layout : (b.deref (b.pointer c)).toKmemCache.layout = some s)
    (reach : Reachable s (b.sys c)) (legal : (b.attempt m s).Legal s (b.sys c)) (served : (b.attempt m s).got ≠ none)
    (zero : Bool) :
    ∃ sys o, b.allocate m c zero =
        .ok (b.grant c sys, some o) ∧ Reachable s sys := by
  obtain ⟨out, -⟩ | ⟨-, sys, o, done, -, reach'⟩ := kmemCacheAlloc_cases reach (b.attempt m s) legal zero
  · exact absurd out.2.2.2.1 served
  · exact ⟨sys, o, by simp only [allocate, layout, done, Except.mapError, ok_bind, pure_eq_ok], reach'⟩

/-- The cache of nodes works, and `kmem_cache` has no slab yet. -/
structure NodesWork (m : Machine) (b : Boot) : Prop where
  pointer : b.kmemCache = .static .kmemCache
  node : ∃ s, (b.deref b.kmemCacheNode).toKmemCache.layout = some s ∧ s.order < maxOrder ∧
    Reachable s (b.sys .kmemCacheNode) ∧ ∀ n, b.pagesAsked ≤ n → ∀ k p, m.pages n k = some p → Fresh (b.sys .kmemCacheNode).st p k
  untouched : b.sys .kmemCache = .init

theorem NodesWork.legal (h : NodesWork m b) {s : Cache} (layout : (b.deref b.kmemCacheNode).toKmemCache.layout = some s) :
    (b.attempt m s).Legal s (b.sys .kmemCacheNode) ∧ Reachable s (b.sys .kmemCacheNode) := by
  obtain ⟨s', layout', -, reach, fresh⟩ := h.node
  rw [layout] at layout'
  obtain rfl := Option.some.inj layout'
  exact ⟨⟨fun p given => fresh _ le_rfl _ p given, fun p given => fresh _ (Nat.le_succ _) _ p given⟩, reach⟩

@[simp]
theorem earlyNodeAlloc_slabs (s : Cache) (st : State) (p : Nat) : (earlyNodeAlloc s st p).slabs = (p, s.order) :: st.slabs := by
  obtain ⟨fp, threaded, -⟩ := threadSlots_frame p (orderObjects s.order s.size - 1) 0
    { st with slabs := (p, s.order) :: st.slabs }
  simp only [earlyNodeAlloc, setupSlab, threaded]
  rfl

/-- The first node comes from the first page. -/
theorem earlyKmemCacheNodeAlloc_ok (serves : Serves m) {s : Cache} (fits : 32 ≤ (b.deref b.kmemCacheNode).size)
    (layout : (b.deref b.kmemCacheNode).toKmemCache.layout = some s) (several : 1 < orderObjects s.order s.size)
    (order : s.order < maxOrder) (first : b.sys = fun _ => .init) (pointer : b.kmemCache = .static .kmemCache) :
    ∃ b', b.earlyKmemCacheNodeAlloc m = .ok b' ∧ NodesWork m b' ∧ b'.kmemCacheNode = b.kmemCacheNode := by
  obtain ⟨p, given⟩ := serves.pages b.pagesAsked s.order order
  have freelist : ((setupSlab State.init p s.order (orderObjects s.order s.size)).pages p).freelist = some ⟨p, 0⟩ := by
    simp [setupSlab, State.setPage]
  have legal : Legal s System.init (.early p) := ⟨rfl, rfl, several⟩
  have reach : Reachable s ⟨earlyNodeAlloc s .init p, [⟨p, 0⟩]⟩ := Reachable.init.step legal rfl
  refine ⟨b.carveNode (setupSlab State.init p s.order (orderObjects s.order s.size)) p ⟨p, 0⟩, ?_, ?_, ?_⟩
  · simp only [earlyKmemCacheNodeAlloc, Nat.not_lt.mpr fits, if_false, layout, attempt, given, allocateSlab, first,
      System.init, freelist]
  · have sys : (b.carveNode (setupSlab State.init p s.order (orderObjects s.order s.size)) p ⟨p, 0⟩).sys .kmemCacheNode =
        ⟨earlyNodeAlloc s .init p, [⟨p, 0⟩]⟩ := by
      simp [carveNode, first, earlyNodeAlloc, System.init]
    constructor
    case pointer => simp [carveNode, pointer]
    case node =>
        refine ⟨s, ?_, order, ?_, ?_⟩
        · have same : (b.carveNode (setupSlab State.init p s.order (orderObjects s.order s.size)) p ⟨p, 0⟩).deref
              b.kmemCacheNode = { b.deref b.kmemCacheNode with node := some ⟨p, 0⟩ } := store_deref _ _ _
          have pointer' : (b.carveNode (setupSlab State.init p s.order (orderObjects s.order s.size)) p
              ⟨p, 0⟩).kmemCacheNode = b.kmemCacheNode := by simp [carveNode]
          rw [pointer', same]
          exact layout
        · rwa [sys]
        · intro n later k q given'
          have ne : n ≠ b.pagesAsked := by
            simp only [carveNode, store_pagesAsked, grant_pagesAsked] at later
            omega
          rw [sys]
          intro block member
          obtain rfl : block = (p, s.order) := by simpa [State.init] using member
          exact (serves.apart n _ k s.order q p ne given' given).imp id id
    case untouched => simp [carveNode, first]
  · simp [carveNode]

theorem store_deref_ne {ref other : CacheRef} (ne : other ≠ ref) (s : CacheObject) :
    (b.store ref s).deref other = b.deref other := by
  cases ref <;> cases other <;> simp_all [store, deref]

theorem NodesWork.store (h : NodesWork m b) {ref : CacheRef} {s : CacheObject}
    (same : ref = b.kmemCacheNode → s.toKmemCache.layout = (b.deref ref).toKmemCache.layout) : NodesWork m (b.store ref s) := by
  obtain ⟨pointer, ⟨cache, layout, order, reach, fresh⟩, untouched⟩ := h
  refine ⟨by simpa using pointer, ⟨cache, ?_, order, by simpa using reach, by simpa using fresh⟩, by simpa using untouched⟩
  rw [store_kmemCacheNode]
  by_cases here : ref = b.kmemCacheNode
  · subst here
    rw [store_deref, same rfl, layout]
  · rw [store_deref_ne (Ne.symm here), layout]

/-- A description that has been opened, so that slabs can be laid out. -/
structure OpenedAs (size : Nat) (s : CacheObject) : Prop where
  layout : ∃ cache, s.toKmemCache.layout = some cache ∧ 1 < orderObjects cache.order cache.size ∧ cache.order < maxOrder
  size : size ≤ s.size

/-- What `create_boot_cache` does once the node is there. -/
def finish (m : Machine) (b : Boot) (ref : CacheRef) : Boot :=
  let b := (b.allocKmemCacheCpus m ref).1
  b.store ref { b.deref ref with refcount := -1 }

theorem createBootCache_ok (serves : Serves m) (ref : CacheRef) (size : Nat) (some : 0 < size) (small : size ≤ 128)
    {P : Boot → Prop}
    (nodes : ∀ s, OpenedAs size s → ∃ b', (b.store ref s).initKmemCacheNodes m ref = .ok (b', true) ∧ P b') :
    ∃ b', b.createBootCache m ref size slabHwcacheAlign 0 0 = .ok (b'.finish m ref) ∧ P b' := by
  obtain ⟨a, sized, cache, aligned, accepted, layout, fits, several, order⟩ := description_opens m.cfg some small
  obtain ⟨b', done, holds⟩ :=
    nodes { b.deref ref with toKmemCache := Allocator.enableFastMode m.cfg sized } ⟨⟨cache, layout, several, order⟩, fits⟩
  obtain ⟨area, given⟩ := serves.areas b'.areasAsked
  refine ⟨b', ?_, holds⟩
  simp only [createBootCache, aligned, accepted, Except.mapError, ok_bind, Bool.true_eq_false, if_false, done,
    allocKmemCacheCpus, given, Option.isSome, finish, pure_eq_ok]

theorem NodesWork.finish (h : NodesWork m b) (ref : CacheRef) : NodesWork m (b.finish m ref) := by
  have stored : NodesWork m (b.allocKmemCacheCpus m ref).1 := by
    obtain ⟨pointer, node, untouched⟩ := h.store
      (s := { b.deref ref with cpuSlab := m.areas b.areasAsked }) (fun _ => rfl)
    exact ⟨pointer, node, untouched⟩
  exact stored.store (fun _ => rfl)

/-- `kmem_cache` is described and has no slab yet. -/
structure CacheReady (b : Boot) : Prop where
  pointer : b.kmemCache = .static .kmemCache
  layout : ∃ s, (b.static .kmemCache).toKmemCache.layout = some s ∧ s.order < maxOrder
  untouched : b.sys .kmemCache = .init

theorem CacheReady.finish (h : CacheReady b) : CacheReady (b.finish m (.static .kmemCache)) where
  pointer := by simpa [Boot.finish, allocKmemCacheCpus] using h.pointer
  layout := by
    obtain ⟨s, layout, order⟩ := h.layout
    refine ⟨s, ?_, order⟩
    simp only [Boot.finish, allocKmemCacheCpus, store, deref, Function.update_self]
    exact layout
  untouched := by simpa [Boot.finish, allocKmemCacheCpus] using h.untouched

theorem firstCache_ok (serves : Serves m) :
    ∃ b', init.createBootCache m (.static .kmemCacheNode) 32 slabHwcacheAlign 0 0 = .ok b' ∧ NodesWork m b' ∧
      b'.kmemCacheNode = .static .kmemCacheNode := by
  obtain ⟨b', done, works, pointer⟩ := createBootCache_ok (b := init) serves (.static .kmemCacheNode) 32
    (P := fun b' => NodesWork m b' ∧ b'.kmemCacheNode = .static .kmemCacheNode) (by decide) (by decide) (by
      rintro s ⟨⟨cache, layout, several, order⟩, size⟩
      obtain ⟨b', early, works, pointer⟩ := earlyKmemCacheNodeAlloc_ok (b := init.store (.static .kmemCacheNode) s) serves
        (by simpa [init] using size) (by simpa [init] using layout) several order rfl rfl
      refine ⟨b', ?_, works, pointer⟩
      have down : (init.store (.static .kmemCacheNode) s).down = true := rfl
      simp only [initKmemCacheNodes, down, if_true, early, ok_bind, pure_eq_ok])
  exact ⟨_, done, works.finish _, by simpa [Boot.finish, allocKmemCacheCpus] using pointer⟩

theorem secondCache_ok (serves : Serves m) (works : NodesWork m b) (pointer : b.kmemCacheNode = .static .kmemCacheNode)
    (up : b.down = false) :
    ∃ b', b.createBootCache m (.static .kmemCache) 120 slabHwcacheAlign 0 0 = .ok b' ∧ CacheReady b' := by
  obtain ⟨b', done, ready⟩ := createBootCache_ok (b := b) serves (.static .kmemCache) 120 (P := CacheReady)
    (by decide) (by decide) (by
      rintro s ⟨⟨cache, layout, several, order⟩, size⟩
      have works' : NodesWork m (b.store (.static .kmemCache) s) := works.store (by simp [pointer])
      obtain ⟨node, nodeLayout, nodeOrder, -⟩ := works'.node
      obtain ⟨legal, reach⟩ := works'.legal nodeLayout
      obtain ⟨sys, n, allocated, -⟩ := allocate_ok (m := m) (c := .kmemCacheNode) nodeLayout reach legal
        (attempt_served serves _ nodeOrder) false
      refine ⟨((b.store (.static .kmemCache) s).grant .kmemCacheNode sys).store (.static .kmemCache)
        { s with node := some n }, ?_, ?_⟩
      · have same : ((b.store (.static .kmemCache) s).grant .kmemCacheNode sys).deref (.static .kmemCache) = s :=
          store_deref b (.static .kmemCache) s
        simp only [initKmemCacheNodes, store_down, up, Bool.false_eq_true, if_false, allocated, ok_bind, pure_eq_ok,
          same]
      · constructor
        case pointer => simpa using works.pointer
        case layout =>
            refine ⟨cache, ?_, order⟩
            simp only [store, grant_static, Function.update_self]
            exact layout
        case untouched => simpa using works.untouched)
  exact ⟨_, done, ready.finish⟩

/-- The first `bootstrap` allocates the object, flushes the cpu slab, and then walks the list of a
    node that is `NULL`. -/
theorem bootstrap_nullNode (serves : Serves m) (ready : CacheReady b) : b.bootstrap m .kmemCache = .error .nullNode := by
  obtain ⟨s, layout, order⟩ := ready.layout
  have reach : Reachable s (b.sys .kmemCache) := by
    rw [ready.untouched]
    exact .init
  obtain ⟨sys, o, allocated, reach'⟩ := allocate_ok (m := m) (c := .kmemCache) (s := s)
    (by simpa [Boot.pointer, ready.pointer, deref] using layout) reach
    (by rw [ready.untouched]; exact ⟨fun _ _ _ member => (by cases member), fun _ _ _ member => (by cases member)⟩)
    (attempt_served serves b order) true
  obtain ⟨place, inv⟩ := reach'.inv
  obtain ⟨st, -, flushed, -⟩ := flushCpuSlab_ok inv m.cpu
  simp only [bootstrap, allocated, ok_bind, store_deref, store_static, store_sys, grant_static, grant_sys, layout,
    Function.update_self, flushed, Except.mapError, zeroObject]

theorem kmemCacheInit_nullNode (serves : Serves m) (rest : Boot → Except BootFault Boot) :
    kmemCacheInit m rest = .error .nullNode := by
  obtain ⟨b₁, first, works, pointer⟩ := firstCache_ok serves
  have works' : NodesWork m { b₁ with down := false } := ⟨works.pointer, works.node, works.untouched⟩
  obtain ⟨b₂, second, ready⟩ := secondCache_ok serves works' pointer rfl
  simp only [kmemCacheInit, first, ok_bind, second, bootstrap_nullNode serves ready]
  rfl

/-- Each request gets a block of its own, on a machine with the configuration of `smallMachine`. -/
def steadyMachine : Machine where
  cfg := smallMachine
  cpu := 0
  pages n k := if k < maxOrder then some (2 ^ maxOrder * (n + 1)) else none
  areas n := some n

theorem steadyMachine_serves : Serves steadyMachine where
  pages n k small := ⟨_, if_pos small⟩
  apart n n' k k' p p' ne given given' := by
    obtain ⟨small, block⟩ := Option.ite_none_right_eq_some.mp given
    obtain ⟨small', block'⟩ := Option.ite_none_right_eq_some.mp given'
    obtain rfl := Option.some.inj block
    obtain rfl := Option.some.inj block'
    have short := Nat.pow_le_pow_right (n := 2) (by decide) small.le
    have short' := Nat.pow_le_pow_right (n := 2) (by decide) small'.le
    simp only [Apart, maxOrder] at short short' ⊢
    omega
  areas n := ⟨n, rfl⟩

end Boot

end Miracle.Slub
