import Miracle.PageAlloc.Blocks

/-! # Every page is in one place

The invariant holds after every operation, with every page that boot has handed over in a
free block, on a per-cpu list or in a live allocation.
-/

namespace Miracle.PageAlloc

open PowBlock

/-- The invariant between operations. -/
structure SysInv (env : Env) (sys : System) (owner : Nat → Owner) : Prop where
  inv : Inv env sys.st sys.live owner
  home : Home sys.st owner
  settled : ∀ a z, owner a ≠ .raw z
  handed : ∀ a, Covered sys.handed a ↔ owner a ≠ .unmanaged

theorem Owner.Pooled.facts {o : Owner} (h : o.Pooled) : o ≠ .unmanaged ∧ ∀ z, o ≠ .raw z := by
  rcases h with ⟨_, _, _, rfl⟩ | ⟨_, _, _, rfl⟩ <;> simp

theorem Owner.IsLive.facts {o : Owner} (h : o.IsLive) : o ≠ .unmanaged ∧ ∀ z, o ≠ .raw z := by
  obtain ⟨_, _, _, rfl⟩ := h
  simp

theorem Settled.facts {o o' : Owner} (h : Settled o o') (loose : ∀ z, o ≠ .raw z) :
    (o' ≠ .unmanaged ↔ o ≠ .unmanaged) ∧ ∀ z, o' ≠ .raw z := by
  rcases h with rfl | ⟨pool, pool'⟩
  · exact ⟨Iff.rfl, loose⟩
  · exact ⟨iff_of_true pool'.facts.1 pool.facts.1, pool'.facts.2⟩

theorem covered_cons (pfn order : Nat) (blocks : List (Nat × Nat)) (a : Nat) :
    Covered ((pfn, order) :: blocks) a ↔ InBlock pfn order a ∨ Covered blocks a := by
  simp [Covered]

section

variable {env : Env} {sys : System} {owner : Nat → Owner}

/-! ## The initial system -/

theorem SysInv.init (env : Env) : SysInv env (.init env) (fun _ => .unmanaged) where
  inv :=
    { blocked := by
        intro a pfn order block
        cases block
      pages := fun _ => rfl
      freeLists := ⟨by simp [System.init, State.init, zoneInitFreeLists],
        fun _ _ => List.nodup_nil, fun _ _ => rfl⟩
      pcpLists := ⟨by simp [System.init, State.init, setupPageset], fun _ _ => List.nodup_nil,
        fun _ _ => rfl, fun _ _ => .inr ⟨rfl, rfl⟩, fun _ => ⟨rfl, rfl⟩⟩
      liveList := ⟨by simp [System.init], List.nodup_nil⟩
      coalesced := by
        intro z order pfn _ held
        cases held
      valid := fun _ managed => absurd rfl managed
      initialized := by
        intro a z zone
        cases zone
      zones := fun _ => rfl }
  home := ⟨fun _ _ _ _ held => (by cases held), fun _ => .inl rfl⟩
  settled := by simp
  handed := by simp [System.init, Covered]

/-! ## Calls of `__free_pages` -/

/-- A step calls `__free_pages` in the state `st`, on a cpu, for a block of pages. -/
inductive FreeCall (sys : System) : Op → State → Nat → Nat → Nat → Prop where
  | bootFree {st1 st2 : State} {cpu pfn order : Nat} :
      bootPages pfn (1 <<< order) 0 sys.st = .ok st1 →
      (st1.modifyZone (st1.pages pfn).zone (fun zone =>
        { zone with managedPages := zone.managedPages + 1 <<< order })).setPageRefcounted pfn = .ok st2 →
      FreeCall sys (.bootFree cpu pfn order) st2 cpu pfn order
  | freeReserved {cpu pfn : Nat} :
      FreeCall sys (.freeReserved cpu pfn) (sys.st.modifyPage pfn
        (fun p => { p with flags := { p.flags with reserved := false }, refcount := 1 })) cpu pfn 0
  | free {cpu pfn order : Nat} : FreeCall sys (.free cpu pfn order) sys.st cpu pfn order

/-- The system after the call has returned. -/
def System.freed (sys : System) (st : State) : Op → System
  | .bootFree _ pfn order => { sys with st := st, handed := (pfn, order) :: sys.handed }
  | .freeReserved _ pfn => { sys with st := st, handed := (pfn, 0) :: sys.handed }
  | .free _ pfn order => { sys with st := st, live := sys.live.erase (pfn, order) }
  | _ => { sys with st := st }

/-- The block is ready for `__free_pages`, and all other pages are where they were. -/
structure Release (env : Env) (sys : System) (owner : Nat → Owner) (op : Op) (st : State)
    (z : ZoneType) (pfn order : Nat) (owner₁ : Nat → Owner) : Prop where
  releasing : Releasing env (sys.freed st op).live st z pfn order owner₁
  outside : ∀ a, ¬ InBlock pfn order a → owner₁ a = owner a
  handed : ∀ a, Covered (sys.freed st op).handed a ↔ InBlock pfn order a ∨ owner a ≠ .unmanaged

theorem Release.keeps (h : SysInv env sys owner) {op : Op} {st : State} {z : ZoneType} {pfn order : Nat}
    {owner₁ : Nat → Owner} (rel : Release env sys owner op st z pfn order owner₁) (cpu : Nat) :
    ∃ st', freePages env st cpu pfn order = .ok st' ∧ ∃ owner', SysInv env (sys.freed st' op) owner' := by
  obtain ⟨st', owner', done, inv, home, pooled, rest⟩ := rel.releasing.freePages_spec cpu
  have kept (a : Nat) (out : ¬ InBlock pfn order a) : Settled (owner a) (owner' a) :=
    rel.outside a out ▸ rest a out
  have sys_eq : (sys.freed st' op).st = st' ∧ (sys.freed st' op).live = (sys.freed st op).live ∧
      (sys.freed st' op).handed = (sys.freed st op).handed := by
    cases op <;> exact ⟨rfl, rfl, rfl⟩
  refine ⟨st', done, owner', ?_, ?_, fun a z' => ?_, fun a => ?_⟩
  · rw [sys_eq.1, sys_eq.2.1]
    exact inv
  · rw [sys_eq.1]
    exact home
  · by_cases hit : InBlock pfn order a
    · exact (pooled a hit).facts.2 z'
    · exact ((kept a hit).facts (h.settled a)).2 z'
  · rw [sys_eq.2.2, rel.handed]
    by_cases hit : InBlock pfn order a
    · exact iff_of_true (.inl hit) (pooled a hit).facts.1
    · rw [((kept a hit).facts (h.settled a)).1]
      exact or_iff_right hit

/-! ## Frames that boot hands over -/

/-- A block that boot has prepared. -/
theorem SysInv.bootRelease (h : SysInv env sys owner) {pfn order : Nat} (fresh : Fresh env sys pfn order)
    {st : State} (areas : ∀ z, (st.zones z).freeArea = (sys.st.zones z).freeArea)
    (initialized : ∀ z, (st.zones z).initialized = (sys.st.zones z).initialized)
    (pageset : ∀ z, (st.zones z).pageset = (sys.st.zones z).pageset)
    (pagesets : st.pagesets = sys.st.pagesets)
    (outside : ∀ a, ¬ InBlock pfn order a → st.pages a = sys.st.pages a)
    (inside : ∀ a, InBlock pfn order a →
      st.pages a = { Page.initSingle (env.zoneOf pfn) with refcount := if a = pfn then 1 else 0 }) :
    Releasing env sys.live st (env.zoneOf pfn) pfn order (assign owner pfn order (.raw (env.zoneOf pfn))) := by
  have self := inBlock_self pfn order
  have unowned (a : Nat) (hit : InBlock pfn order a) : owner a = .unmanaged := by
    by_contra managed
    exact fresh.new a hit ((h.handed a).mpr managed)
  have ready : (sys.st.zones (env.zoneOf pfn)).initialized = true :=
    (h.inv.zones _).trans (env.spanned pfn (fresh.valid pfn self))
  have base : Inv env { sys.st with zones := st.zones } sys.live owner :=
    h.inv.congrZones areas initialized
  refine ⟨⟨false, ?_⟩, fresh.order_lt, fresh.aligned, fun st' clean => ?_,
    h.home.of_noneListed pageset (noneListed_assign (not_isPcp_raw _)), fun a hit => assign_inside hit⟩
  · refine ⟨fun a hit => by rw [inside a hit]; rfl, by rw [inside pfn self]; simp,
      by rw [inside pfn self]; rfl, by rw [inside pfn self]; rfl, fun a hit ne => ?_,
      fun _ a hit => by rw [inside a hit]; rfl, by simp⟩
    rw [inside a hit]
    exact ⟨by simp [ne], rfl, by simp⟩
  · refine base.handOver unowned clean.zones (clean.pagesets.trans pagesets) (fun a out => ?_)
      clean.inside fresh.order_lt fresh.aligned fresh.valid ((initialized _).trans ready)
    rw [clean.outside a out, outside a out]

theorem SysInv.handed_cons (h : SysInv env sys owner) (pfn order a : Nat) :
    Covered ((pfn, order) :: sys.handed) a ↔ InBlock pfn order a ∨ owner a ≠ .unmanaged := by
  rw [covered_cons, h.handed a]

theorem SysInv.freshPage (h : SysInv env sys owner) {pfn order : Nat} (fresh : Fresh env sys pfn order)
    {a : Nat} (hit : InBlock pfn order a) : sys.st.pages a = Page.initSingle (env.zoneOf pfn) := by
  have unowned : owner a = .unmanaged := by
    by_contra managed
    exact fresh.new a hit ((h.handed a).mpr managed)
  have ok : PageOk env a (sys.st.pages a) .unmanaged := unowned ▸ h.inv.pages a
  rw [← fresh.zone a hit]
  exact ok

theorem freePagesBootCore_call (h : SysInv env sys owner) {pfn order : Nat}
    (fresh : Fresh env sys pfn order) (cpu : Nat) :
    ∃ st, FreeCall sys (.bootFree cpu pfn order) st cpu pfn order ∧
      freePagesBootCore env sys.st cpu pfn order = freePages env st cpu pfn order ∧
      Release env sys owner (.bootFree cpu pfn order) st (env.zoneOf pfn) pfn order
        (assign owner pfn order (.raw (env.zoneOf pfn))) := by
  have self := inBlock_self pfn order
  have block (a : Nat) : pfn + 0 ≤ a ∧ a < pfn + 0 + 1 <<< order ↔ InBlock pfn order a := by
    simp [InBlock, Nat.one_shiftLeft]
  obtain ⟨st1, boot, zones, pagesets, pages⟩ := bootPages_spec (1 <<< order)
    (fun a low high => by
      rw [h.freshPage fresh ((block a).mp ⟨low, high⟩)]
      rfl)
  have inside (a : Nat) (hit : InBlock pfn order a) :
      st1.pages a = { Page.initSingle (env.zoneOf pfn) with refcount := 0 } := by
    rw [pages, if_pos ((block a).mpr hit), h.freshPage fresh hit]
    rfl
  have outside (a : Nat) (out : ¬ InBlock pfn order a) : st1.pages a = sys.st.pages a := by
    rw [pages, if_neg (fun hit => out ((block a).mp hit))]
  generalize step : st1.modifyZone (st1.pages pfn).zone (fun zone =>
    { zone with managedPages := zone.managedPages + 1 <<< order }) = st2
  have pages2 : st2.pages = st1.pages := by rw [← step]; rfl
  have counted : st2.setPageRefcounted pfn =
      .ok (st2.modifyPage pfn (fun p => { p with refcount := 1 })) := by
    rw [State.setPageRefcounted, pages2, inside pfn self]
    rfl
  have zone2 (z : ZoneType) : (st2.zones z).freeArea = (sys.st.zones z).freeArea ∧
      (st2.zones z).initialized = (sys.st.zones z).initialized ∧
      (st2.zones z).pageset = (sys.st.zones z).pageset := by
    rw [← step, ← zones]
    by_cases same : z = (st1.pages pfn).zone
    · subst same
      simp [State.modifyZone]
    · simp [State.modifyZone, same]
  refine ⟨st2.modifyPage pfn (fun p => { p with refcount := 1 }), .bootFree boot (step ▸ counted), ?_, ?_,
    fun a out => assign_outside out, h.handed_cons pfn order⟩
  · rw [freePagesBootCore]
    simp only [boot, ok_bind, step, counted]
  · refine h.bootRelease fresh (fun z => (zone2 z).1) (fun z => (zone2 z).2.1) (fun z => (zone2 z).2.2)
      (by rw [← pagesets, ← step]; rfl) (fun a out => ?_) (fun a hit => ?_)
    · have ne : a ≠ pfn := fun same => out (same ▸ self)
      rw [modifyPage_pages, if_neg ne, pages2, outside a out]
    · rw [modifyPage_pages, pages2]
      by_cases same : a = pfn
      · rw [if_pos same, if_pos same, inside pfn self]
      · rw [if_neg same, if_neg same, inside a hit]

theorem freeReservedPage_call (h : SysInv env sys owner) {pfn : Nat} (fresh : Fresh env sys pfn 0)
    (cpu : Nat) :
    ∃ st, FreeCall sys (.freeReserved cpu pfn) st cpu pfn 0 ∧
      freeReservedPage env sys.st cpu pfn = freePages env st cpu pfn 0 ∧
      Release env sys owner (.freeReserved cpu pfn) st (env.zoneOf pfn) pfn 0
        (assign owner pfn 0 (.raw (env.zoneOf pfn))) := by
  have page := h.freshPage fresh (inBlock_self pfn 0)
  refine ⟨_, .freeReserved, ?_, ?_, fun a out => assign_outside out, h.handed_cons pfn 0⟩
  · have single : (sys.st.pages pfn).pageCompound = false := by rw [page]; rfl
    rw [freeReservedPage, single]
    rfl
  · refine h.bootRelease fresh (fun _ => rfl) (fun _ => rfl) (fun _ => rfl) rfl (fun a out => ?_)
      (fun a hit => ?_)
    · have ne : a ≠ pfn := fun same => out ((inBlock_zero pfn a).mpr same)
      rw [modifyPage_pages, if_neg ne]
    · obtain rfl := (inBlock_zero pfn a).mp hit
      rw [modifyPage_pages, if_pos rfl, if_pos rfl, page]
      rfl

/-! ## Blocks that callers give back -/

theorem free_release (h : SysInv env sys owner) {pfn order : Nat} (listed : (pfn, order) ∈ sys.live)
    (clear : ∀ a, InBlock pfn order a → (sys.st.pages a).flags.checkAtFree = false) (cpu : Nat) :
    ∃ z, Release env sys owner (.free cpu pfn order) sys.st z pfn order (assign owner pfn order (.raw z)) := by
  obtain ⟨z, held⟩ := (h.inv.liveList.mem_iff pfn order).mp listed
  have block := h.inv.blocked pfn pfn order (by rw [held]; rfl)
  refine ⟨z, ⟨⟨_, h.inv.releasable held clear⟩, block.1, block.2.1, fun st' clean => ?_,
    h.home.of_noneListed (fun _ => rfl) (noneListed_assign (not_isPcp_raw z)), fun a hit => assign_inside hit⟩,
    fun a out => assign_outside out, fun a => ?_⟩
  · exact h.inv.giveBack held clean.zones clean.pagesets clean.outside clean.inside
  · refine (h.handed a).trans (or_iff_right_of_imp (fun hit => ?_)).symm
    rw [block.2.2.2 a hit, held]
    simp

/-! ## Pagesets -/

/-- A zone gets pagesets of its own, which all start as `pcp`. -/
def State.ownPageset (st : State) (z : ZoneType) (pcp : Pcp) : State :=
  { st with pagesets := Function.update st.pagesets (.own z) (fun _ => pcp) }.modifyZone z
    (fun zone => { zone with pageset := .own z })

theorem setupZonePageset_eq (st : State) (z : ZoneType) : setupZonePageset st z =
    st.ownPageset z (setupPageset (zoneBatchsize (st.zones z).managedPages)) := rfl

theorem ownPageset_pagesets (st : State) (z : ZoneType) (pcp : Pcp) (id : PagesetId) (cpu : Nat) :
    (st.ownPageset z pcp).pagesets id cpu = if id = .own z then pcp else st.pagesets id cpu := by
  by_cases same : id = .own z
  · subst same
    simp [State.ownPageset, State.modifyZone]
  · simp [State.ownPageset, State.modifyZone, same]

theorem ownPageset_zones (st : State) (z : ZoneType) (pcp : Pcp) (z' : ZoneType) :
    ((st.ownPageset z pcp).zones z').freeArea = (st.zones z').freeArea ∧
      ((st.ownPageset z pcp).zones z').initialized = (st.zones z').initialized ∧
      ((st.ownPageset z pcp).zones z').pageset = if z' = z then .own z else (st.zones z').pageset := by
  by_cases same : z' = z
  · subst same
    simp [State.ownPageset, State.modifyZone]
  · simp [State.ownPageset, State.modifyZone, same]

/-- A pageset that is ready for use. -/
structure Pcp.Ready (pcp : Pcp) : Prop where
  empty : pcp.lists = []
  count : pcp.count = 0
  batch : pcp.high = 6 * pcp.batch ∨ (pcp.high = 0 ∧ pcp.batch = 1)

theorem setupPageset_ready (batch : Nat) : (setupPageset batch).Ready :=
  ⟨rfl, rfl, by simp only [setupPageset]; omega⟩

/-- A zone that uses the boot pageset gets its own. -/
theorem ownPageset_spec {st : State} {live : List (Nat × Nat)} (h : Inv env st live owner)
    (home : Home st owner) {z : ZoneType} (boot : (st.zones z).pageset = .boot) {pcp : Pcp} (ready : pcp.Ready) :
    Inv env (st.ownPageset z pcp) live owner ∧ Home (st.ownPageset z pcp) owner := by
  -- nobody has put a page on the new lists
  have unused (a cpu : Nat) (z' : ZoneType) : owner a ≠ .pcp (.own z) cpu z' := by
    intro held
    obtain ⟨own, uses⟩ := home.homed a _ cpu z' held
    cases own
    rw [boot] at uses
    cases uses
  have lists : PcpLists (st.ownPageset z pcp).pagesets owner := by
    refine ⟨fun id cpu pfn => ?_, fun id cpu => ?_, fun id cpu => ?_, fun id cpu => ?_, fun cpu => ?_⟩
    · rw [ownPageset_pagesets]
      split
      · rename_i same
        subst same
        exact iff_of_false (by simp [ready.empty]) (fun ⟨z', held⟩ => unused pfn cpu z' held)
      · exact h.pcpLists.mem_iff id cpu pfn
    · rw [ownPageset_pagesets]
      split
      · rw [ready.empty]
        exact List.nodup_nil
      · exact h.pcpLists.nodup id cpu
    · rw [ownPageset_pagesets]
      split
      · rw [ready.empty, ready.count]
        rfl
      · exact h.pcpLists.count id cpu
    · rw [ownPageset_pagesets]
      split
      · exact ready.batch
      · exact h.pcpLists.batch id cpu
    · rw [ownPageset_pagesets, if_neg (by simp)]
      exact h.pcpLists.boot cpu
  have zones := ownPageset_zones st z pcp
  refine ⟨?_, ⟨fun a id cpu z' held => ?_, fun z' => ?_⟩⟩
  · have moved := @Inv.moveLoose env st live owner z owner _ h (fun _ => .inl rfl) lists
    exact moved.congrZones (fun z' => (zones z').1) (fun z' => (zones z').2.1)
  · obtain ⟨own, uses⟩ := home.homed a id cpu z' held
    refine ⟨own, ?_⟩
    rw [(zones z').2.2]
    split
    · rename_i same
      rw [same]
    · exact uses
  · rw [(zones z').2.2]
    split
    · rename_i same
      exact .inr (by rw [same])
    · exact home.pageset z'

theorem setupPerCpuPageset_spec {st : State} {live : List (Nat × Nat)} (h : Inv env st live owner)
    (home : Home st owner) (boot : ∀ z, (st.zones z).pageset = .boot) :
    Inv env (setupPerCpuPageset env st) live owner ∧ Home (setupPerCpuPageset env st) owner := by
  have one {st : State} (h : Inv env st live owner) (home : Home st owner) {z : ZoneType}
      (boot : (st.zones z).pageset = .boot) :
      let st' := if env.populated z then setupZonePageset st z else st
      Inv env st' live owner ∧ Home st' owner ∧
        ∀ z', z' ≠ z → (st'.zones z').pageset = (st.zones z').pageset := by
    simp only
    split
    · obtain ⟨inv, home⟩ := ownPageset_spec h home boot (setupPageset_ready (zoneBatchsize (st.zones z).managedPages))
      exact ⟨inv, home, fun z' ne => (ownPageset_zones st z _ z').2.2.trans (if_neg ne)⟩
    · exact ⟨h, home, fun _ _ => rfl⟩
  simp only [setupPerCpuPageset, List.foldl]
  obtain ⟨h1, home1, rest1⟩ := one h home (boot .dma)
  obtain ⟨h2, home2, rest2⟩ := one h1 home1 ((rest1 .normal (by simp)).trans (boot .normal))
  obtain ⟨h3, home3, -⟩ := one h2 home2
    ((rest2 .movable (by simp)).trans ((rest1 .movable (by simp)).trans (boot .movable)))
  exact ⟨h3, home3⟩

/-! ## Steps and runs -/

/-- Who frees a block has cleared the flags that are checked. -/
def Returned (sys : System) : Op → Prop
  | .free _ pfn order => ∀ a, InBlock pfn order a → (sys.st.pages a).flags.checkAtFree = false
  | _ => True

/-- Every call of `__free_pages` is for a block that is ready for it. -/
theorem FreeCall.release (h : SysInv env sys owner) {op : Op} (legal : Legal env sys op)
    (returned : Returned sys op) {st : State} {cpu pfn order : Nat} (call : FreeCall sys op st cpu pfn order) :
    ∃ z owner₁, Release env sys owner op st z pfn order owner₁ ∧
      step env sys op = (freePages env st cpu pfn order).map (sys.freed · op) := by
  cases call with
  | bootFree boot counted =>
      obtain ⟨st', call, done, rel⟩ := freePagesBootCore_call h legal cpu
      cases call with
      | bootFree boot' counted' =>
          rw [boot'] at boot
          cases boot
          rw [counted'] at counted
          cases counted
          refine ⟨_, _, rel, ?_⟩
          rw [step, done]
          cases freePages env st cpu pfn order <;> rfl
  | freeReserved =>
      obtain ⟨st', call, done, rel⟩ := freeReservedPage_call h legal cpu
      cases call with
      | freeReserved =>
          refine ⟨_, _, rel, ?_⟩
          rw [step, done]
          generalize freePages env _ cpu pfn 0 = result
          cases result <;> rfl
  | free =>
      obtain ⟨z, rel⟩ := free_release h legal returned cpu
      refine ⟨z, _, rel, ?_⟩
      rw [step]
      cases freePages env sys.st cpu pfn order <;> rfl

theorem FreeCall.keeps (h : SysInv env sys owner) {op : Op} (legal : Legal env sys op)
    (returned : Returned sys op) {st : State} {cpu pfn order : Nat} (call : FreeCall sys op st cpu pfn order) :
    ∃ st', freePages env st cpu pfn order = .ok st' ∧ step env sys op = .ok (sys.freed st' op) ∧
      ∃ owner', SysInv env (sys.freed st' op) owner' := by
  obtain ⟨z, owner₁, rel, step_eq⟩ := call.release h legal returned
  obtain ⟨st', done, kept⟩ := rel.keeps h cpu
  exact ⟨st', done, by rw [step_eq, done]; rfl, kept⟩

/-- Only an allocation can stop. -/
theorem step_ok (h : SysInv env sys owner) {op : Op} (legal : Legal env sys op) (returned : Returned sys op)
    (not : ∀ cpu gfp order, op ≠ .alloc cpu gfp order) :
    ∃ sys', step env sys op = .ok sys' ∧ ∃ owner', SysInv env sys' owner' := by
  have freeing {st : State} {cpu pfn order : Nat} (call : FreeCall sys op st cpu pfn order) :
      ∃ sys', step env sys op = .ok sys' ∧ ∃ owner', SysInv env sys' owner' := by
    obtain ⟨st', -, done, kept⟩ := call.keeps h legal returned
    exact ⟨_, done, kept⟩
  cases op with
  | bootFree cpu pfn order =>
      obtain ⟨st, call, -⟩ := freePagesBootCore_call h legal cpu
      exact freeing call
  | freeReserved cpu pfn => exact freeing .freeReserved
  | setupPagesets =>
      obtain ⟨inv, home⟩ := setupPerCpuPageset_spec h.inv h.home legal
      exact ⟨_, rfl, owner, inv, home, h.settled, h.handed⟩
  | alloc cpu gfp order => exact absurd rfl (not cpu gfp order)
  | free cpu pfn order => exact freeing .free

theorem step_keeps (h : SysInv env sys owner) {op : Op} (legal : Legal env sys op)
    (returned : Returned sys op) :
    Outcome InUninitialized (fun sys' => ∃ owner', SysInv env sys' owner') (step env sys op) := by
  have total (not : ∀ cpu gfp order, op ≠ .alloc cpu gfp order) :
      Outcome InUninitialized (fun sys' => ∃ owner', SysInv env sys' owner') (step env sys op) := by
    obtain ⟨sys', done, kept⟩ := step_ok h legal returned not
    rw [done]
    exact kept
  cases op with
  | bootFree | freeReserved | setupPagesets | free => exact total (fun _ _ _ => nofun)
  | alloc cpu gfp order =>
      rw [step]
      refine (allocPages_spec h.inv h.home cpu gfp order).bind ?_
      rintro ⟨st', found⟩ (⟨none, owner', inv, home, moved⟩ | ⟨page, owner', some, inv, home, inside, moved⟩)
      · simp only at none
        subst none
        refine ⟨owner', inv, home, fun a z => ((moved a).facts (h.settled a)).2 z, fun a => ?_⟩
        rw [((moved a).facts (h.settled a)).1]
        exact h.handed a
      · simp only at some
        subst some
        refine ⟨owner', inv, home, fun a z => ?_, fun a => ?_⟩
        · by_cases hit : InBlock page order a
          · exact (inside a hit).2.facts.2 z
          · exact ((moved a hit).facts (h.settled a)).2 z
        · by_cases hit : InBlock page order a
          · exact iff_of_true ((h.handed a).mpr (inside a hit).1.facts.1) (inside a hit).2.facts.1
          · rw [((moved a hit).facts (h.settled a)).1]
            exact h.handed a

theorem setupPerCpuPageset_pages (env : Env) (st : State) : (setupPerCpuPageset env st).pages = st.pages := by
  have one (st : State) (z : ZoneType) : (if env.populated z then setupZonePageset st z else st).pages = st.pages := by
    split
    · rfl
    · rfl
  rw [setupPerCpuPageset]
  simp only [List.foldl, one]

theorem step_steady {op : Op} (not : op ≠ .setupPagesets) {sys' : System} (done : step env sys op = .ok sys') :
    Steady sys.st sys'.st := by
  cases op with
  | bootFree cpu pfn order =>
      obtain ⟨st, freed, done⟩ := bind_eq_ok done
      cases done
      exact freePagesBootCore_steady freed
  | freeReserved cpu pfn =>
      obtain ⟨st, freed, done⟩ := bind_eq_ok done
      cases done
      exact freeReservedPage_steady freed
  | setupPagesets => exact absurd rfl not
  | alloc cpu gfp order =>
      obtain ⟨⟨st, found⟩, allocated, done⟩ := bind_eq_ok done
      have steady := allocPages_steady allocated
      cases found with
      | none =>
          cases done
          exact steady
      | some page =>
          cases done
          exact steady
  | free cpu pfn order =>
      obtain ⟨st, freed, done⟩ := bind_eq_ok done
      cases done
      exact freePages_steady freed

/-- A step sets no flag that is checked on free. -/
theorem step_pages {op : Op} {sys' : System} (done : step env sys op = .ok sys') (a : Nat) :
    (sys.st.pages a).Steady (sys'.st.pages a) := by
  by_cases setup : op = .setupPagesets
  · subst setup
    cases done
    change (sys.st.pages a).Steady ((setupPerCpuPageset env sys.st).pages a)
    rw [setupPerCpuPageset_pages]
    exact ⟨rfl, id⟩
  · exact (step_steady setup done).pages a

theorem Reachable.clear (h : Reachable env sys) (a : Nat) : (sys.st.pages a).flags.checkAtFree = false := by
  induction h with
  | init => rfl
  | step _ _ done ih => exact (step_pages done a).clear ih

/-- Callers that set no flags have none to clear. -/
theorem Reachable.returned (h : Reachable env sys) (op : Op) : Returned sys op := by
  cases op with
  | free cpu pfn order => exact fun a _ => h.clear a
  | _ => trivial

theorem Reachable.inv (h : Reachable env sys) : ∃ owner, SysInv env sys owner := by
  induction h with
  | init => exact ⟨_, .init env⟩
  | step reach legal done ih =>
      obtain ⟨owner, inv⟩ := ih
      have kept := step_keeps inv legal (reach.returned _)
      rw [done] at kept
      exact kept

/-! ## The buddy lists -/

/-- A page frame of a free block has that block as its owner. -/
theorem SysInv.freeBlock (h : SysInv env sys owner) {z : ZoneType} {k p a : Nat}
    (listed : p ∈ sys.st.freeList z k) (inside : InBlock p k a) : owner a = .free z k p := by
  have held := (h.inv.freeLists.mem_iff z k p).mp listed
  rw [(h.inv.blocked p p k (by rw [held]; rfl)).2.2.2 a inside, held]

theorem SysInv.liveBlock (h : SysInv env sys owner) {k p a : Nat}
    (listed : (p, k) ∈ sys.live) (inside : InBlock p k a) : ∃ z, owner a = .live z p k := by
  obtain ⟨z, held⟩ := (h.inv.liveList.mem_iff p k).mp listed
  refine ⟨z, ?_⟩
  rw [(h.inv.blocked p p k (by rw [held]; rfl)).2.2.2 a inside, held]

/-- The free lists of a zone describe aligned, disjoint and fully coalesced blocks, and
    `PG_buddy` marks their heads and no other page of the zone. -/
theorem buddy_lists_invariant (reach : Reachable env sys) (z : ZoneType) :
    (∀ k, k < maxOrder →
      ((sys.st.zones z).freeArea k).nrFree = (sys.st.freeList z k).length ∧
      (sys.st.freeList z k).Nodup ∧
      (∀ p ∈ sys.st.freeList z k, 2 ^ k ∣ p ∧ (sys.st.pages p).flags.buddy = true ∧
        (sys.st.pages p).priv = k ∧ (sys.st.pages p).zone = z)) ∧
    (∀ a, (sys.st.pages a).zone = z → (sys.st.pages a).flags.buddy = true →
      ∃ k, k < maxOrder ∧ a ∈ sys.st.freeList z k) ∧
    (∀ k k' p q, p ∈ sys.st.freeList z k → q ∈ sys.st.freeList z k' → (k, p) ≠ (k', q) →
      ∀ a, ¬ (InBlock p k a ∧ InBlock q k' a)) ∧
    (∀ k p, k < maxOrder - 1 → p ∈ sys.st.freeList z k → findBuddyPfn p k ∉ sys.st.freeList z k) := by
  obtain ⟨owner, h⟩ := reach.inv
  refine ⟨fun k _ => ⟨h.inv.freeLists.nrFree z k, h.inv.freeLists.nodup z k, fun p listed => ?_⟩,
    fun a zone flag => ?_, fun k k' p q left right ne a hit => ?_, fun k p lt listed other => ?_⟩
  · have held := (h.inv.freeLists.mem_iff z k p).mp listed
    obtain ⟨zone, -, -, flag, priv⟩ := h.inv.freePage held
    exact ⟨(h.inv.blocked p p k (by rw [held]; rfl)).2.1, flag, priv, zone⟩
  · obtain ⟨z', k, held⟩ := h.inv.buddyFlag flag
    obtain rfl : z' = z := (h.inv.freePage held).1.symm.trans zone
    exact ⟨k, (h.inv.blocked a a k (by rw [held]; rfl)).1, (h.inv.freeLists.mem_iff z' k a).mpr held⟩
  · have first := h.freeBlock left hit.1
    rw [h.freeBlock right hit.2] at first
    cases first
    exact ne rfl
  · have held := (h.inv.freeLists.mem_iff z k p).mp listed
    rw [findBuddyPfn, Nat.one_shiftLeft] at other
    exact h.inv.coalesced z k p (by omega) held ((h.inv.freeLists.mem_iff z k _).mp other)

/-! ## The places of a page -/

/-- Where the allocator can keep a page frame. -/
inductive Place where
  | free (z : ZoneType) (order pfn : Nat)
  | pcp (id : PagesetId) (cpu : Nat)
  | live (pfn order : Nat)
  deriving DecidableEq, Repr

/-- The page frame is in the place. -/
def At (sys : System) (a : Nat) : Place → Prop
  | .free z order pfn => pfn ∈ sys.st.freeList z order ∧ InBlock pfn order a
  | .pcp id cpu => a ∈ (sys.st.pagesets id cpu).lists
  | .live pfn order => (pfn, order) ∈ sys.live ∧ InBlock pfn order a

/-- The place that an owner stands for. -/
def Owner.place : Owner → Option Place
  | .free z order pfn => some (.free z order pfn)
  | .pcp id cpu _ => some (.pcp id cpu)
  | .live _ pfn order => some (.live pfn order)
  | _ => none

theorem SysInv.at_iff (h : SysInv env sys owner) (a : Nat) (place : Place) :
    At sys a place ↔ (owner a).place = some place := by
  constructor
  · intro here
    cases place with
    | free z order pfn => rw [h.freeBlock here.1 here.2]; rfl
    | pcp id cpu =>
        obtain ⟨z, held⟩ := (h.inv.pcpLists.mem_iff id cpu a).mp here
        rw [held]
        rfl
    | live pfn order =>
        obtain ⟨z, held⟩ := h.liveBlock here.1 here.2
        rw [held]
        rfl
  · intro held
    cases own : owner a with
    | unmanaged | raw => rw [own] at held; cases held
    | free z order pfn =>
        rw [own] at held
        cases held
        obtain ⟨-, -, inside, same⟩ := h.inv.blocked a pfn order (by rw [own]; rfl)
        exact ⟨(h.inv.freeLists.mem_iff z order pfn).mpr ((same pfn (inBlock_self _ _)).trans own), inside⟩
    | pcp id cpu z =>
        rw [own] at held
        cases held
        exact (h.inv.pcpLists.mem_iff id cpu a).mpr ⟨z, own⟩
    | live z pfn order =>
        rw [own] at held
        cases held
        obtain ⟨-, -, inside, same⟩ := h.inv.blocked a pfn order (by rw [own]; rfl)
        exact ⟨(h.inv.liveList.mem_iff pfn order).mpr ⟨z, (same pfn (inBlock_self _ _)).trans own⟩, inside⟩

theorem SysInv.one_place (h : SysInv env sys owner) {a : Nat} (handed : Covered sys.handed a) :
    ∃! place, At sys a place := by
  have managed := (h.handed a).mp handed
  have some : ∃ place, (owner a).place = some place := by
    cases own : owner a with
    | unmanaged => exact absurd own managed
    | raw z => exact absurd own (h.settled a z)
    | free | pcp | live => exact ⟨_, rfl⟩
  obtain ⟨place, held⟩ := some
  refine ⟨place, (h.at_iff a place).mpr held, fun other here => ?_⟩
  have := (h.at_iff a other).mp here
  rw [held] at this
  exact (Option.some.inj this).symm

theorem SysInv.handed_of_at (h : SysInv env sys owner) {a : Nat} {place : Place} (here : At sys a place) :
    Covered sys.handed a := by
  rw [h.handed]
  intro own
  have held := (h.at_iff a place).mp here
  rw [own] at held
  cases held

/-- An allocation that finds nothing is a step that leaves the live blocks alone. -/
theorem reachable_failedAlloc (reach : Reachable env sys) {cpu : Nat} {gfp : BitVec 32} {order : Nat}
    {st : State} (failed : allocPages sys.st cpu gfp order = .ok (st, none)) :
    Reachable env { sys with st := st } := by
  have done : step env sys (.alloc cpu gfp order) = .ok { sys with st := st } := by
    rw [step, failed]
    rfl
  exact reach.step (show Legal env sys (.alloc cpu gfp order) from trivial) done

/-- Every page handed over at boot is in one free block, on one per-cpu list or in one live
    block, also after an allocation that returns nothing, and no operation stops in a zone
    that boot has initialised. -/
theorem pages_conserved (reach : Reachable env sys) :
    (∀ a, Covered sys.handed a → ∃! place, At sys a place) ∧
    (∀ a place, At sys a place → Covered sys.handed a) ∧
    ((∀ z k, (sys.st.freeList z k).Nodup) ∧ (∀ id cpu, (sys.st.pagesets id cpu).lists.Nodup) ∧
      sys.live.Nodup) ∧
    (∀ b ∈ sys.live, b.2 < maxOrder ∧ 2 ^ b.2 ∣ b.1) ∧
    (∀ b ∈ sys.live, ∀ c ∈ sys.live, b ≠ c → ∀ a, ¬ (InBlock b.1 b.2 a ∧ InBlock c.1 c.2 a)) ∧
    (∀ b ∈ sys.live, ∀ a, InBlock b.1 b.2 a →
      (∀ z k, ∀ p ∈ sys.st.freeList z k, ¬ InBlock p k a) ∧
        ∀ id cpu, a ∉ (sys.st.pagesets id cpu).lists) ∧
    (∀ cpu gfp order st, allocPages sys.st cpu gfp order = .ok (st, none) →
      ∀ a, Covered sys.handed a → ∃! place, At { sys with st := st } a place) ∧
    (∀ op, Legal env sys op → (∃ sys', step env sys op = .ok sys') ∨
      step env sys op = .error .uninitializedList) := by
  obtain ⟨owner, h⟩ := reach.inv
  refine ⟨fun a handed => h.one_place handed, fun a place here => h.handed_of_at here,
    ⟨h.inv.freeLists.nodup, h.inv.pcpLists.nodup, h.inv.liveList.nodup⟩, fun b listed => ?_,
    fun b left c right ne a hit => ?_, fun b listed a hit => ⟨fun z k p free inside => ?_,
    fun id cpu pooled => ?_⟩, fun cpu gfp order st failed a handed => ?_, fun op legal => ?_⟩
  · obtain ⟨z, held⟩ := (h.inv.liveList.mem_iff b.1 b.2).mp listed
    obtain ⟨lt, aligned, -⟩ := h.inv.blocked b.1 b.1 b.2 (by rw [held]; rfl)
    exact ⟨lt, aligned⟩
  · obtain ⟨z, first⟩ := h.liveBlock left hit.1
    obtain ⟨z', second⟩ := h.liveBlock right hit.2
    rw [first] at second
    injection second with _ start order
    exact ne (Prod.ext start order)
  · obtain ⟨z', held⟩ := h.liveBlock listed hit
    rw [h.freeBlock free inside] at held
    cases held
  · obtain ⟨z, held⟩ := h.liveBlock listed hit
    obtain ⟨z', own⟩ := (h.inv.pcpLists.mem_iff id cpu a).mp pooled
    rw [own] at held
    cases held
  · obtain ⟨owner', kept⟩ := (reachable_failedAlloc reach failed).inv
    exact kept.one_place handed
  · have kept := step_keeps h legal (reach.returned op)
    cases done : step env sys op with
    | ok sys' => exact .inl ⟨sys', rfl⟩
    | error bug =>
        rw [done] at kept
        exact .inr (congrArg _ kept)

end

/-! ## A small machine -/

/-- All frames are memory of the normal zone. -/
def flatEnv : Env :=
  { pfnValid := fun _ => true, zoneOf := fun _ => .normal, initialized := fun _ => true,
    populated := fun z => z == .normal, spanned := fun _ _ => rfl }

/-- Boot hands over eight frames and a caller takes two of them. -/
def flatRun : Except Bug System := do
  let sys ← step flatEnv (.init flatEnv) (.bootFree 0 8 3)
  step flatEnv sys (.alloc 0 0 1)

theorem flatFresh : Fresh flatEnv (.init flatEnv) 8 3 :=
  ⟨by decide, ⟨1, rfl⟩, fun _ _ => rfl, fun _ _ => rfl, fun _ _ ⟨_, listed, _⟩ => nomatch listed⟩

theorem flatRun_reachable {sys : System} (done : flatRun = .ok sys) : Reachable flatEnv sys := by
  obtain ⟨booted, first, second⟩ := bind_eq_ok done
  have boot : Legal flatEnv (.init flatEnv) (.bootFree 0 8 3) := flatFresh
  exact (Reachable.init.step boot first).step (show Legal flatEnv booted (.alloc 0 0 1) from trivial) second

theorem flatRun_returns : ∃ sys, flatRun = .ok sys ∧ sys.live = [(8, 1)] ∧ sys.handed = [(8, 3)] ∧
    sys.st.freeList .normal 1 = [10] ∧ sys.st.freeList .normal 2 = [12] := by
  have shape : (match flatRun with
      | .ok sys => decide (sys.live = [(8, 1)] ∧ sys.handed = [(8, 3)] ∧
          sys.st.freeList .normal 1 = [10] ∧ sys.st.freeList .normal 2 = [12])
      | .error _ => false) = true := by
    decide +kernel
  cases done : flatRun with
  | error bug =>
      rw [done] at shape
      cases shape
  | ok sys =>
      rw [done] at shape
      exact ⟨sys, rfl, of_decide_eq_true shape⟩

theorem flatRun_buddy_lists : ∃ sys, flatRun = .ok sys ∧ sys.st.freeList .normal 1 = [10] ∧
    findBuddyPfn 10 1 ∉ sys.st.freeList .normal 1 := by
  obtain ⟨sys, done, -, -, ones, -⟩ := flatRun_returns
  have lists := buddy_lists_invariant (flatRun_reachable done) .normal
  exact ⟨sys, done, ones, lists.2.2.2 1 10 (by decide) (by rw [ones]; decide)⟩

theorem flatRun_conserves : ∃ sys, flatRun = .ok sys ∧ sys.live = [(8, 1)] ∧
    ∃! place, At sys 13 place := by
  obtain ⟨sys, done, live, handed, -, -⟩ := flatRun_returns
  have conserved := pages_conserved (flatRun_reachable done)
  exact ⟨sys, done, live, conserved.1 13 ⟨(8, 3), by rw [handed]; decide, by decide⟩⟩

end Miracle.PageAlloc
