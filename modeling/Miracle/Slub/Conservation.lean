import Miracle.Slub.Handover

/-! # Objects of a cache are conserved

Each function of the allocator is a composition of the moves, so that every legal operation
returns and keeps the invariant.
-/

namespace Miracle.Slub

variable {s : Cache} {st : State} {live : List Slot} {place : Slot → Place}

/-! ## Freeing -/

theorem addPartial_removePartial {p : Nat} (tail : Bool) (out : p ∉ st.partials) :
    (st.addPartial p tail).removePartial p = st := by
  cases tail
  · simp [State.addPartial, State.removePartial]
  · simp [State.addPartial, State.removePartial, List.erase_append_right _ out]

/-- `__slab_free` puts the object on the freelist of its page, and gives the page back when it
    is empty and there are enough pages. -/
theorem slabFree_eq (h : Inv s st live place) {o : Slot} (owned : place o = .live) :
    slabFree s st o.page o = st.pushPage o ∨
      (o.page ∈ (st.pushPage o).partials ∧ ((st.pushPage o).pages o.page).inuse = 0 ∧
        slabFree s st o.page o = ((st.pushPage o).removePartial o.page).discardSlab o.page) := by
  have dec := h.decInuse_eq (o := o) (by simp [owned]) (by simp [owned])
  obtain ⟨k, slab⟩ := h.slab_of (o := o) (by simp [owned])
  have mem := (h.partials.pushPage slab).mem_iff o.page
  obtain ⟨slabs, -, -, pages⟩ := st.pushPage_fields o
  rw [slabs, pages, Function.update_self] at mem
  simp only [slabFree, dec]
  split
  next slow =>
    obtain ⟨-, free⟩ := slow
    have there : o.page ∈ (st.pushPage o).partials := mem.mpr ⟨⟨k, slab⟩, free, by simp⟩
    by_cases full : (st.pages o.page).freelist = none
    · have out : o.page ∉ st.partials := fun member => ((h.partials.mem_iff _).mp member).2.2 full
      split
      next empty =>
        refine .inr ⟨there, by rw [pages]; simpa using empty.1, ?_⟩
        simp only [State.pushPage, free, full, and_self, if_true, ne_eq, not_true_eq_false, if_false]
        rw [addPartial_removePartial]
        exact out
      next => exact .inl (by simp [State.pushPage, free, full])
    · split
      next empty =>
        refine .inr ⟨there, by rw [pages]; simpa using empty.1, ?_⟩
        simp [State.pushPage, free, full]
      next => exact .inl (by simp [State.pushPage, free, full])
  next fast =>
    refine .inl ?_
    have stays : ¬ ((st.pages o.page).frozen = false ∧ (st.pages o.page).freelist = none) :=
      fun both => fast ⟨.inr both.2, both.1⟩
    simp [State.pushPage, stays]

theorem doSlabFree_inv (h : Inv s st live place) (cpu : Nat) {o : Slot} (owned : place o = .live) :
    ∃ place', Inv s (doSlabFree s st cpu o) (live.erase o) place' := by
  simp only [doSlabFree]
  split
  next own => exact ⟨_, h.pushCpu owned own⟩
  next =>
    obtain same | ⟨member, empty, same⟩ := slabFree_eq h owned
    · rw [same]
      exact ⟨_, h.pushPage owned⟩
    · rw [same]
      exact ⟨_, ((h.pushPage owned).discard member empty).1⟩

/-! ## Leaving a page -/

theorem setCpu_self {c : Nat} {x : CpuSlab} (same : st.cpus c = x) : st.setCpu c x = st := by
  subst same
  simp [State.setCpu]

@[simp]
theorem setCpu_pages (c : Nat) (x : CpuSlab) : (st.setCpu c x).pages = st.pages := rfl

theorem release_setCpu (c p : Nat) (x : CpuSlab) (tail : Bool) :
    (st.setCpu c x).release c p tail = st.release c p tail := by
  simp [State.release, State.setCpu, State.setPage]

/-- One object goes from the freelist of a cpu to the freelist of its page. -/
theorem Inv.giveBack {c p : Nat} {o : Slot} (h : Inv s (st.setCpu c { freelist := some o, page := some p }) live place) :
    (∃ place', Inv s (((st.setFreepointer o (st.pages p).freelist).setPage p
        { st.pages p with freelist := some o, inuse := (st.pages p).inuse - 1 }).setCpu c
        { freelist := st.fp o, page := some p }) live place') ∧
      (st.pages p).frozen = true ∧ decInuse (st.pages p).inuse = (st.pages p).inuse - 1 := by
  obtain ⟨popped, here⟩ := h.popCpu (c := c) (o := o) (by simp [State.setCpu])
  have frozen : (st.pages p).frozen = true := (h.owners.cpuPage c p (by simp [State.setCpu])).2
  have page : o.page = p := by
    obtain ⟨l, linked, -, mem, page⟩ := h.cpuLists c
    have := page o ((mem o).mpr here)
    simpa [State.setCpu] using this.symm
  subst page
  have pushed := popped.pushPage (o := o) (by simp)
  refine ⟨⟨Function.update (Function.update place o .live) o .page, ?_⟩, frozen,
    h.decInuse_eq (by simp [here]) (by simp [here])⟩
  rw [List.erase_cons_head] at pushed
  convert pushed using 1
  simp [State.pushPage, State.setCpu, State.setPage, State.setFreepointer, frozen]

/-- The freelist of a cpu has no more objects than a page. -/
theorem Inv.cpu_length (h : Inv s st live place) {c p : Nat} (has : (st.cpus c).page = some p) :
    ∃ l, Linked st.fp (st.cpus c).freelist l ∧ l.Nodup ∧ l.length ≤ 32767 := by
  obtain ⟨⟨k, slab⟩, -⟩ := h.owners.cpuPage c p has
  obtain ⟨l, linked, nodup, mem, page⟩ := h.cpuLists c
  refine ⟨l, linked, nodup, ?_⟩
  have bound := (s.objects_bounds k (h.orders _ slab)).2
  have : l.length ≤ orderObjects k s.size := by
    refine slots_length_le nodup (p := p) (fun o member => ?_)
    have here : o.page = p := Option.some.inj ((page o member).symm.trans has)
    refine ⟨here, ?_⟩
    rw [← here] at slab
    exact h.idx_lt slab (by simp [(mem o).mp member])
  omega

theorem drainFreelist_ok {c p : Nat} {l : List Slot} {o : Slot} (fuel : Nat)
    (h : Inv s (st.setCpu c { freelist := some o, page := some p }) live place)
    (linked : Linked st.fp (some o) l) (nodup : l.Nodup) (bound : l.length ≤ fuel) :
    ∃ st' last place', drainFreelist p fuel st o = .ok (st', last) ∧ st'.fp last = none ∧
      Inv s (st'.setCpu c { freelist := some last, page := some p }) live place' := by
  -- the cpu keeps its old freelist in memory; the invariant holds for the part that is left
  induction l generalizing st o place fuel with
  | nil => exact absurd (linked.eq_nil_iff.mp rfl) (by simp)
  | cons a rest ih =>
      obtain ⟨_, same, tail⟩ := Linked.some_iff.mp linked
      obtain ⟨rfl, rfl⟩ := List.cons.inj same
      obtain ⟨fuel, rfl⟩ := Nat.exists_eq_succ_of_ne_zero (n := fuel) (by simp at bound; omega)
      cases next : st.fp a with
      | none => exact ⟨st, a, place, by simp [drainFreelist, next], next, h⟩
      | some b =>
          obtain ⟨⟨place', kept⟩, frozen, dec⟩ := h.giveBack
          have out := (List.nodup_cons.mp nodup).1
          rw [next] at tail kept
          obtain ⟨st', last, place'', done, rest⟩ := ih fuel (o := b) kept
            (by simpa [State.setPage, State.setFreepointer] using tail.update out _)
            (List.nodup_cons.mp nodup).2 (by simpa using bound)
          refine ⟨st', last, place'', ?_, rest⟩
          simp only [drainFreelist, next, dec]
          rw [if_neg (by simp [frozen])]
          exact done

/-- What `deactivate_slab` does with the page once the objects are back on it. -/
def settle (s : Cache) (st : State) (p : Nat) (tail : Bool) : State :=
  let new := { st.pages p with frozen := false }
  if new.inuse = 0 ∧ st.nrPartial ≥ s.minPartial then (st.setPage p new).discardSlab p
  else if new.freelist ≠ none then (st.addPartial p tail).setPage p new
  else st.setPage p new

theorem Inv.settle {c p : Nat} (h : Inv s (st.setCpu c { freelist := none, page := some p }) live place)
    (tail : Bool) :
    ∃ place', Inv s ((settle s st p tail).setCpu c { freelist := none, page := none }) live place' := by
  obtain ⟨⟨k, slab⟩, frozen⟩ := h.owners.cpuPage c p (by simp [State.setCpu])
  have released := h.release (c := c) (p := p) (by simp [State.setCpu]) (by simp [State.setCpu])
  simp only [release_setCpu] at released
  rw [setCpu_pages] at frozen
  simp only [Slub.settle]
  split_ifs with empty some
  · have free : (st.pages p).freelist ≠ none := by
      intro full
      have := h.inuse_eq_objects slab full
      have := h.objects_bound slab
      simp only [setCpu_pages] at *
      omega
    have out : p ∉ st.partials := fun member => by simpa [frozen] using (h.partials.mem_iff p).mp member
    have discarded := ((released true).discard (p := p) ?_ ?_).1
    · refine ⟨fun o => if o.page = p then .outside else place o, ?_⟩
      convert discarded using 1
      simp only [State.release, free, if_false]
      rw [addPartial_removePartial]
      · rfl
      · exact out
    · simp [State.release, free, mem_addPartial]
    · obtain ⟨-, -, -, pages⟩ := st.release_fields c p true
      simpa [pages] using empty.1
  · refine ⟨place, ?_⟩
    convert released tail using 1
    simp only [State.release, some, if_false]
    rfl
  · refine ⟨place, ?_⟩
    convert released tail using 1
    simp only [ne_eq, not_not] at some
    simp only [State.release, some, if_true]

theorem unfreeze_none {p : Nat} (tail : Bool) (frozen : (st.pages p).frozen = true) :
    unfreeze s st p none tail = .ok (settle s st p tail) := by
  simp only [unfreeze, frozen, Bool.true_eq_false, if_false, settle]
  split_ifs <;> rfl

theorem unfreeze_some {p : Nat} {o : Slot} (tail : Bool) (frozen : (st.pages p).frozen = true) :
    unfreeze s st p (some o) tail = .ok (settle s ((st.setFreepointer o (st.pages p).freelist).setPage p
      { st.pages p with freelist := some o, inuse := decInuse (st.pages p).inuse }) p tail) := by
  simp only [unfreeze, frozen, Bool.true_eq_false, if_false, settle, State.setPage, State.setFreepointer,
    Function.update_self, Function.update_idem, State.addPartial]
  generalize decInuse (st.pages p).inuse = inuse
  by_cases empty : inuse = 0 ∧ st.nrPartial ≥ s.minPartial
  · rw [if_pos empty]
    exact if_pos empty
  · rw [if_neg empty]
    exact (if_neg empty).trans (by simp)

theorem unfreeze_ok {c p : Nat} {freelist : Option Slot}
    (h : Inv s (st.setCpu c { freelist := freelist, page := some p }) live place)
    (last : ∀ o, freelist = some o → st.fp o = none) (tail : Bool) :
    ∃ st' place', unfreeze s st p freelist tail = .ok st' ∧
      Inv s (st'.setCpu c { freelist := none, page := none }) live place' := by
  cases freelist with
  | none =>
      obtain ⟨place', settled⟩ := h.settle tail
      exact ⟨_, place', unfreeze_none tail (h.owners.cpuPage c p (by simp [State.setCpu])).2, settled⟩
  | some o =>
      obtain ⟨⟨place', kept⟩, frozen, dec⟩ := h.giveBack
      rw [last o rfl] at kept
      obtain ⟨place'', settled⟩ := kept.settle tail
      refine ⟨_, place'', unfreeze_some tail frozen, ?_⟩
      rw [dec]
      exact settled

theorem deactivateSlab_ok (h : Inv s st live place) {c p : Nat} (has : (st.cpus c).page = some p) :
    ∃ st' place', deactivateSlab s st p (st.cpus c).freelist c = .ok st' ∧ Inv s st' live place' := by
  simp only [deactivateSlab]
  generalize (st.pages p).freelist.isSome = tail
  have here : Inv s (st.setCpu c { freelist := (st.cpus c).freelist, page := some p }) live place := by
    rw [← has]
    simpa [setCpu_self] using h
  cases first : (st.cpus c).freelist with
  | none =>
      rw [first] at here
      obtain ⟨st', place', done, kept⟩ := unfreeze_ok here (by simp) tail
      refine ⟨_, place', ?_, kept⟩
      simp only [pure_bind, done]
      rfl
  | some o =>
      obtain ⟨l, linked, nodup, bound⟩ := h.cpu_length has
      rw [first] at linked here
      obtain ⟨st', last, place', drained, ends, kept⟩ := drainFreelist_ok drainRounds here linked nodup
        (by simp only [drainRounds]; omega)
      obtain ⟨st'', place'', done, kept⟩ := unfreeze_ok kept (by simpa using ends) tail
      refine ⟨_, place'', ?_, kept⟩
      simp only [drained, bind, Except.bind, pure, Except.pure, done]

theorem flushCpuSlab_ok (h : Inv s st live place) (c : Nat) :
    ∃ st' place', flushCpuSlab s st c = .ok st' ∧ Inv s st' live place' := by
  simp only [flushCpuSlab]
  split
  next => exact ⟨st, place, rfl, h⟩
  next has =>
    obtain ⟨p, has⟩ := Option.ne_none_iff_exists'.mp has
    simp only [flushSlab, has]
    exact deactivateSlab_ok h has

/-! ## Allocation -/

/-- What an allocation leaves: nothing is handed out, or an object that was free. -/
def Allocated (s : Cache) (live : List Slot) (r : Except Bug (State × Option Slot)) : Prop :=
  (∃ st place, r = .ok (st, none) ∧ Inv s st live place) ∨
  ∃ st o place, r = .ok (st, some o) ∧ Inv s st (o :: live) place

/-- An object that was free is handed out. -/
def Handed (s : Cache) (live : List Slot) (r : Except Bug (State × Option Slot)) : Prop :=
  ∃ st o place, r = .ok (st, some o) ∧ Inv s st (o :: live) place

/-- Neither the partial list nor the page allocator has a page with free objects. -/
def OutOfPages (st : State) (got gotMin : Option Nat) : Prop := st.partials = [] ∧ got = none ∧ gotMin = none

/-- A cpu has no free object at hand, and there is no other page for it. -/
def OutOfObjects (st : State) (c : Nat) (got gotMin : Option Nat) : Prop :=
  (st.cpus c).freelist = none ∧ (∀ p, (st.cpus c).page = some p → (st.pages p).freelist = none) ∧
    OutOfPages st got gotMin

theorem getPartial_none (h : Inv s st live place) (c : Nat) (empty : st.partials = []) :
    getPartialNode st c = .ok (st, none) := by
  simp [getPartialNode, h.partials.count, empty]

/-- A cpu without a page takes one from the partial list, with all its free objects. -/
theorem getPartial_some (h : Inv s st live place) {c : Nat} (without : (st.cpus c).page = none)
    (some : st.partials ≠ []) :
    ∃ st' o, getPartialNode st c = .ok (st', .some o) ∧ Handed s live (loadFreelist st' c o) := by
  simp only [getPartialNode, h.partials.count, List.length_eq_zero_iff, some, if_false]
  obtain ⟨p, rest, pages⟩ := List.exists_cons_of_ne_nil some
  obtain ⟨⟨k, slab⟩, free, has⟩ := (h.partials.mem_iff p).mp (by simp [pages])
  obtain ⟨o, first⟩ := Option.ne_none_iff_exists'.mp has
  have claimed := h.claim without (p := p) (by simp [pages])
  have pos : 0 < (st.pages p).objects - (st.pages p).inuse := by
    obtain ⟨l, linked, -, -, count⟩ := h.pageLists p k slab
    rw [first] at linked
    obtain ⟨m, rfl, -⟩ := Linked.some_iff.mp linked
    simp only [List.length_cons] at count
    omega
  obtain ⟨taken, -⟩ := claimed.takePage (c := c) (p := p) (o := o) (by simp [State.claim, State.setCpu])
    (by simpa [State.claim, State.setCpu] using h.freelist_none without)
    (by simpa [State.claim, State.setCpu, State.setPage, State.removePartial] using first)
  refine ⟨(((st.setPage p { st.pages p with freelist := none, inuse := (st.pages p).objects, frozen := true
    }).removePartial p).setCpu c { st.cpus c with page := .some p }), o, ?_, ⟨_, o, _, ?_, taken⟩⟩
  · have many : slubCpuPartial / 2 < (st.pages p).objects - (st.pages p).inuse := by
      simpa [slubCpuPartial] using pos
    simp [pages, getPartialLoop, acquireSlab, free, first, many, bind, Except.bind, pure, Except.pure]
    rfl
  · simp [loadFreelist, State.takePage, State.claim, State.setCpu, State.setPage, State.removePartial]

/-- A fresh page becomes the page of a cpu that has none. -/
theorem newSlab_ok (h : Inv s st live place) {c p k : Nat} (without : (st.cpus c).page = none)
    (fresh : Fresh st p k) (order : k = s.order ∨ k = s.minOrder) {got gotMin : Option Nat}
    (unlisted : getPartialNode st c = .ok (st, none))
    (given : allocateSlab s st got gotMin = (setupSlab st p k (orderObjects k s.size), some p)) :
    Handed s live (allocFromNewSlab s st c got gotMin) := by
  obtain ⟨-, cpus, pages, partials, -⟩ := st.addSlab_fields p k (orderObjects k s.size)
  have added := h.addSlab fresh order
  have claimed := added.claim (c := c) (p := p) (by rwa [cpus]) (by rw [partials, mem_addPartial]; exact .inl rfl)
  obtain ⟨taken, -⟩ := claimed.takePage (c := c) (p := p) (o := ⟨p, 0⟩) (by simp [State.claim, State.setCpu])
    (by simpa [State.claim, State.setCpu, cpus] using h.freelist_none without)
    (by simp [State.claim, State.setCpu, State.setPage, State.removePartial, pages])
  obtain ⟨fp, threaded, -, -⟩ :=
    threadSlots_frame p (orderObjects k s.size - 1) 0 { st with slabs := (p, k) :: st.slabs }
  refine ⟨_, ⟨p, 0⟩, _, ?_, taken⟩
  simp only [allocFromNewSlab, newSlabObjects, unlisted, given, bind, Except.bind, pure, Except.pure]
  simp [flushCpuSlab, setupSlab, threaded, without, loadFreelist, State.takePage, State.claim, State.setCpu,
    State.setPage, State.removePartial, State.addSlab, State.addPartial]

theorem allocFromNewSlab_none (h : Inv s st live place) (c : Nat) {got gotMin : Option Nat}
    (out : OutOfPages st got gotMin) : allocFromNewSlab s st c got gotMin = .ok (st, none) := by
  obtain ⟨empty, rfl, rfl⟩ := out
  simp [allocFromNewSlab, newSlabObjects, getPartial_none h c empty, allocateSlab, bind, Except.bind, pure, Except.pure]

theorem allocFromNewSlab_some (h : Inv s st live place) {c : Nat} (without : (st.cpus c).page = none)
    {got gotMin : Option Nat} (fresh : ∀ p, got = some p → Fresh st p s.order)
    (freshMin : ∀ p, gotMin = some p → Fresh st p s.minOrder) (some : ¬OutOfPages st got gotMin) :
    Handed s live (allocFromNewSlab s st c got gotMin) := by
  by_cases empty : st.partials = []
  · have unlisted := getPartial_none h c empty
    cases got with
    | some p => exact newSlab_ok h without (fresh p rfl) (.inl rfl) unlisted rfl
    | none =>
        cases gotMin with
        | some p => exact newSlab_ok h without (freshMin p rfl) (.inr rfl) unlisted rfl
        | none => exact absurd ⟨empty, rfl, rfl⟩ some
  · obtain ⟨st', o, done, loaded⟩ := getPartial_some h without empty
    simpa [allocFromNewSlab, newSlabObjects, done, bind, Except.bind, pure, Except.pure] using loaded

/-- A cpu whose page is full leaves it to the frees that will come. -/
theorem Inv.releaseFull (h : Inv s st live place) {c p : Nat} (empty : (st.cpus c).freelist = none)
    (has : (st.cpus c).page = some p) (first : (st.pages p).freelist = none) :
    Inv s ((st.setPage p { st.pages p with
        freelist := none, inuse := (st.pages p).objects, frozen := false }).setCpu c
        { st.cpus c with page := none }) live place := by
  obtain ⟨⟨k, slab⟩, frozen⟩ := h.owners.cpuPage c p has
  have released := h.release has empty true
  have same : st.release c p true = (st.setPage p { st.pages p with
      freelist := none, inuse := (st.pages p).objects, frozen := false }).setCpu c
      { st.cpus c with page := none } := by
    have full := h.inuse_eq_objects slab first
    simp [State.release, first, full, empty]
  rwa [same] at released

/-- `___slab_alloc` on an empty freelist: nothing is handed out when there are no objects. -/
theorem slabAlloc_ok (h : Inv s st live place) {c : Nat} (empty : (st.cpus c).freelist = none)
    {got gotMin : Option Nat} (fresh : ∀ p, got = some p → Fresh st p s.order)
    (freshMin : ∀ p, gotMin = some p → Fresh st p s.minOrder) :
    (OutOfObjects st c got gotMin ∧
      ∃ st' place', slabAlloc s st c got gotMin = .ok (st', none) ∧ Inv s st' live place') ∨
    (¬OutOfObjects st c got gotMin ∧ Handed s live (slabAlloc s st c got gotMin)) := by
  simp only [slabAlloc]
  cases has : (st.cpus c).page with
  | none =>
      have same : OutOfObjects st c got gotMin ↔ OutOfPages st got gotMin := by simp [OutOfObjects, empty, has]
      rw [same]
      by_cases out : OutOfPages st got gotMin
      · exact .inl ⟨out, st, place, allocFromNewSlab_none h c out, h⟩
      · exact .inr ⟨out, allocFromNewSlab_some h has fresh freshMin out⟩
  | some p =>
      have frozen := (h.owners.cpuPage c p has).2
      simp only [empty, getFreelist, frozen, Bool.true_eq_false, if_false, bind, Except.bind]
      cases first : (st.pages p).freelist with
      | some o =>
          obtain ⟨taken, -⟩ := h.takePage has empty first
          refine .inr ⟨fun out => by simpa [first] using out.2.1 p has, _, o, _, ?_, taken⟩
          simp [loadFreelist, State.setPage, State.setCpu, State.takePage, has, frozen]
      | none =>
          have released := h.releaseFull empty has first
          have same : OutOfObjects st c got gotMin ↔ OutOfPages st got gotMin := by
            simp [OutOfObjects, empty, has, first]
          rw [same]
          by_cases out : OutOfPages st got gotMin
          · exact .inl ⟨out, _, place, allocFromNewSlab_none released c out, released⟩
          · exact .inr ⟨out, allocFromNewSlab_some released (by simp [State.setCpu]) fresh freshMin out⟩

/-- Clearing the object that was handed out. -/
theorem Handed.zeroed {r : Except Bug (State × Option Slot)} (h : Handed s live r) (zero : Bool) :
    Handed s live (do
      let (st, object) ← r
      match object with
      | none => return (st, none)
      | some object =>
          if zero ∧ s.fpInside then return (st.setFreepointer object none, some object)
          else return (st, some object)) := by
  obtain ⟨st', o, place', rfl, kept⟩ := h
  by_cases both : zero = true ∧ s.fpInside = true
  · refine ⟨st'.setFreepointer o none, o, place', ?_, kept.write ((kept.liveList.mem_iff o).mp (by simp)) none⟩
    simp [bind, Except.bind, both, pure, Except.pure]
  · refine ⟨st', o, place', ?_, kept⟩
    simp [bind, Except.bind, both, pure, Except.pure]

/-- `slab_alloc_node` hands out an object unless there are none. -/
theorem slabAllocNode_cases (h : Inv s st live place) (c : Nat) (zero : Bool)
    {got gotMin : Option Nat} (fresh : ∀ p, got = some p → Fresh st p s.order)
    (freshMin : ∀ p, gotMin = some p → Fresh st p s.minOrder) :
    (OutOfObjects st c got gotMin ∧
      ∃ st' place', slabAllocNode s st c zero got gotMin = .ok (st', none) ∧ Inv s st' live place') ∨
    (¬OutOfObjects st c got gotMin ∧ Handed s live (slabAllocNode s st c zero got gotMin)) := by
  simp only [slabAllocNode]
  cases first : (st.cpus c).freelist with
  | none =>
      obtain ⟨out, st', place', done, kept⟩ | ⟨out, handed⟩ := slabAlloc_ok h first fresh freshMin
      · exact .inl ⟨out, st', place', by simp [done, bind, Except.bind, pure, Except.pure], kept⟩
      · exact .inr ⟨out, handed.zeroed zero⟩
  | some o =>
      have popped : Handed s live (.ok (st.setCpu c { st.cpus c with freelist := st.fp o }, some o)) :=
        ⟨_, o, _, rfl, (h.popCpu first).1⟩
      exact .inr ⟨fun out => by simp [out.1] at first, popped.zeroed zero⟩

theorem slabAllocNode_ok (h : Inv s st live place) (c : Nat) (zero : Bool)
    {got gotMin : Option Nat} (fresh : ∀ p, got = some p → Fresh st p s.order)
    (freshMin : ∀ p, gotMin = some p → Fresh st p s.minOrder) :
    Allocated s live (slabAllocNode s st c zero got gotMin) := by
  obtain ⟨-, none⟩ | ⟨-, handed⟩ := slabAllocNode_cases h c zero fresh freshMin
  · exact .inl none
  · exact .inr handed

/-- The first slab of the cache of nodes. -/
theorem earlyNodeAlloc_ok (h : Inv s st live place) {p : Nat} (fresh : Fresh st p s.order)
    (several : 1 < orderObjects s.order s.size) :
    ∃ place', Inv s (earlyNodeAlloc s st p) (⟨p, 0⟩ :: live) place' := by
  obtain ⟨slabs, -, pages, -, -, -, linked⟩ := st.addSlab_fields p s.order (orderObjects s.order s.size)
  have added := h.addSlab fresh (.inl rfl)
  have next : (st.addSlab p s.order (orderObjects s.order s.size)).fp ⟨p, 0⟩ ≠ none := by
    intro ends
    obtain ⟨rest, same, tail⟩ := Linked.some_iff.mp (linked (by omega))
    rw [ends] at tail
    obtain rfl := Linked.none_iff.mp tail
    have := congrArg List.length same
    simp only [List.length_map, List.length_range, List.length_cons, List.length_nil] at this
    omega
  have popped := added.popPage (p := p) (k := s.order) (o := ⟨p, 0⟩) (by simp [slabs]) (by simp [pages]) next
  have same : earlyNodeAlloc s st p = (st.addSlab p s.order (orderObjects s.order s.size)).popPage p ⟨p, 0⟩ := by
    obtain ⟨fp, threaded, -, -⟩ := threadSlots_frame p (orderObjects s.order s.size - 1) 0
      { st with slabs := (p, s.order) :: st.slabs }
    simp [earlyNodeAlloc, setupSlab, threaded, State.popPage, State.addSlab, State.addPartial, State.setPage]
  rw [same]
  exact ⟨_, popped⟩

/-! ## Runs -/

theorem Inv.init (s : Cache) : Inv s .init [] (fun _ => .outside) where
  apart := List.Pairwise.nil
  orders := by simp [State.init]
  objects := by simp [State.init]
  slots := by simp [State.init]
  pageLists := by simp [State.init]
  cpuLists c := ⟨[], .nil, List.nodup_nil, by simp, by simp⟩
  owners := ⟨by simp [State.init], by simp [State.init], by simp [State.init]⟩
  partials := ⟨List.nodup_nil, by simp [State.init], rfl⟩
  liveList := ⟨List.nodup_nil, by simp⟩

/-- A legal operation meets no `BUG_ON` and keeps the invariant. -/
theorem step_keeps {sys : System} (h : Inv s sys.st sys.live place) {op : Op} (legal : Legal s sys op) :
    ∃ sys' place', step s sys op = .ok sys' ∧ Inv s sys'.st sys'.live place' := by
  cases op with
  | early page =>
      obtain ⟨no_slab, -, several⟩ := legal
      obtain ⟨place', kept⟩ := earlyNodeAlloc_ok h (p := page) (by simp [Fresh, no_slab]) several
      exact ⟨_, place', rfl, kept⟩
  | alloc cpu zero got gotMin =>
      obtain ⟨st', place', done, kept⟩ | ⟨st', o, place', done, kept⟩ :=
        slabAllocNode_ok h cpu zero legal.1 legal.2
      · exact ⟨⟨st', sys.live⟩, place', by simp [step, done, bind, Except.bind, pure, Except.pure], kept⟩
      · exact ⟨⟨st', o :: sys.live⟩, place', by simp [step, done, bind, Except.bind, pure, Except.pure], kept⟩
  | free cpu object =>
      obtain ⟨place', kept⟩ := doSlabFree_inv h cpu ((h.liveList.mem_iff object).mp legal)
      exact ⟨_, place', rfl, kept⟩
  | flush cpu =>
      obtain ⟨st', place', done, kept⟩ := flushCpuSlab_ok h cpu
      exact ⟨⟨st', sys.live⟩, place', by simp [step, done, bind, Except.bind, pure, Except.pure], kept⟩
  | write object word =>
      refine ⟨_, place, rfl, ?_⟩
      dsimp only
      split
      · exact h.write ((h.liveList.mem_iff object).mp legal) word
      · exact h

theorem Reachable.inv {sys : System} (h : Reachable s sys) : ∃ place, Inv s sys.st sys.live place := by
  induction h with
  | init => exact ⟨_, Inv.init s⟩
  | step _ legal done ih =>
      obtain ⟨place, before⟩ := ih
      obtain ⟨sys', place', same, after⟩ := step_keeps before legal
      rw [done] at same
      obtain rfl := Except.ok.inj same
      exact ⟨place', after⟩

end Miracle.Slub
