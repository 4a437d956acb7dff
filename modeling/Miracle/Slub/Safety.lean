import Miracle.Slub.Conservation

/-! # What holds of every run of the slab allocator

Slots are in one place each, objects in use do not overlap, and the flags, the counters and
the partial list agree with the freelists.
-/

namespace Miracle.Slub

variable {s : Cache} {sys : System}

/-! ## Runs on fixed operations -/

instance (s : Cache) (sys : System) (op : Op) : Decidable (Legal s sys op) :=
  match op with
  | .early _ => inferInstanceAs (Decidable (sys.st.slabs = [] ∧ sys.live = [] ∧ 1 < orderObjects s.order s.size))
  | .alloc _ _ got gotMin =>
      have (st : State) (page order : Nat) : Decidable (Fresh st page order) :=
        inferInstanceAs (Decidable (∀ b ∈ st.slabs, page + 2 ^ order ≤ b.1 ∨ b.1 + 2 ^ b.2 ≤ page))
      inferInstanceAs (Decidable ((∀ page ∈ got, Fresh sys.st page s.order) ∧
        ∀ page ∈ gotMin, Fresh sys.st page s.minOrder))
  | .free _ object => inferInstanceAs (Decidable (object ∈ sys.live))
  | .flush _ => inferInstanceAs (Decidable True)
  | .write object _ => inferInstanceAs (Decidable (object ∈ sys.live))

/-- The system after the operations, when each of them is legal. -/
def run (s : Cache) : List Op → System → Option System
  | [], sys => some sys
  | op :: ops, sys =>
      if Legal s sys op then
        match step s sys op with
        | .ok sys' => run s ops sys'
        | .error _ => none
      else none

theorem Reachable.run {ops : List Op} {sys' : System} (h : Reachable s sys) (done : run s ops sys = some sys') :
    Reachable s sys' := by
  induction ops generalizing sys with
  | nil =>
      obtain rfl := Option.some.inj done
      exact h
  | cons op ops ih =>
      simp only [Slub.run] at done
      split at done
      next legal =>
        cases next : Slub.step s sys op with
        | ok mid =>
            rw [next] at done
            exact ih (h.step legal next) done
        | error bug =>
            rw [next] at done
            cases done
      next => cases done

/-! ## Objects -/

/-- Where a slot is found by following the freelists. -/
def RestsAt (sys : System) (o : Slot) : Place → Prop
  | .outside => False
  | .page => ∃ l, Linked sys.st.fp (sys.st.pages o.page).freelist l ∧ o ∈ l
  | .cpu c => (sys.st.cpus c).page = some o.page ∧ ∃ l, Linked sys.st.fp (sys.st.cpus c).freelist l ∧ o ∈ l
  | .live => o ∈ sys.live

theorem Inv.restsAt_iff {place : Slot → Place} (h : Inv s sys.st sys.live place) {o : Slot}
    (inside : place o ≠ .outside) (w : Place) : RestsAt sys o w ↔ place o = w := by
  cases w with
  | outside => exact iff_of_false id inside
  | page =>
      obtain ⟨k, slab⟩ := h.slab_of inside
      obtain ⟨l, linked, -, mem, -⟩ := h.pageLists _ k slab
      constructor
      · rintro ⟨m, linked', member⟩
        rw [linked'.unique linked] at member
        exact ((mem o).mp member).2
      · intro here
        exact ⟨l, linked, (mem o).mpr ⟨rfl, here⟩⟩
  | cpu c =>
      obtain ⟨l, linked, -, mem, page⟩ := h.cpuLists c
      constructor
      · rintro ⟨-, m, linked', member⟩
        rw [linked'.unique linked] at member
        exact (mem o).mp member
      · intro here
        have member := (mem o).mpr here
        exact ⟨page o member, l, linked, member⟩
  | live => exact h.liveList.mem_iff o

/-- The address of the first byte of a slot. -/
def Slot.address (s : Cache) (o : Slot) : Nat := o.page * 4096 + o.idx * s.size

theorem slot_end {s : Cache} {o : Slot} {k : Nat} (inside : o.idx < orderObjects k s.size) :
    o.address s + s.size ≤ (o.page + 2 ^ k) * 4096 := by
  have le : (o.idx + 1) * s.size ≤ 4096 <<< k :=
    (Nat.mul_le_mul_right _ inside).trans (Nat.div_mul_le_self _ _)
  rw [Nat.shiftLeft_eq] at le
  simp only [Slot.address]
  nlinarith

theorem Inv.disjoint {st : State} {live : List Slot} {place : Slot → Place} (h : Inv s st live place)
    {a b : Slot} (first : place a ≠ .outside) (second : place b ≠ .outside) (ne : a ≠ b) :
    a.address s + s.size ≤ b.address s ∨ b.address s + s.size ≤ a.address s := by
  obtain ⟨k, slab, lt⟩ := (h.slots a).mp first
  obtain ⟨k', slab', lt'⟩ := (h.slots b).mp second
  by_cases page : a.page = b.page
  · have idx : a.idx ≠ b.idx := by
      intro same
      cases a
      cases b
      simp_all
    simp only [Slot.address, page]
    rcases Nat.lt_or_gt_of_ne idx with less | less
    · left
      have := Nat.mul_le_mul_right s.size less
      rw [Nat.succ_mul] at this
      omega
    · right
      have := Nat.mul_le_mul_right s.size less
      rw [Nat.succ_mul] at this
      omega
  · have symm : Std.Symm (fun b c => Apart b c) := ⟨fun b c => Or.symm⟩
    have apart : Apart (a.page, k) (b.page, k') := h.apart.forall slab slab' (by simp [page])
    have := slot_end lt
    have := slot_end lt'
    have start : ∀ o : Slot, o.page * 4096 ≤ o.address s := fun o => Nat.le_add_right _ _
    have := start a
    have := start b
    simp only [Apart] at apart
    omega

/-- In every reachable state each slot of each slab is on the freelist of the cpu that has the
    page, on the freelist of the page, or in use, and in one of these only.  Freelists are
    finite and stay on one page; objects in use do not overlap, and an allocation gives an
    object that is not in use. -/
theorem objects_conserved (s : Cache) (sys : System) (reachable : Reachable s sys) :
    (∀ p k, (p, k) ∈ sys.st.slabs → ∀ i < orderObjects k s.size, ∃! w, RestsAt sys ⟨p, i⟩ w) ∧
    (∀ c, ∃ l, Linked sys.st.fp (sys.st.cpus c).freelist l ∧ l.Nodup ∧
      ∀ o ∈ l, (sys.st.cpus c).page = some o.page ∧ ∃ k, (o.page, k) ∈ sys.st.slabs ∧ o.idx < orderObjects k s.size) ∧
    (∀ p k, (p, k) ∈ sys.st.slabs → ∃ l, Linked sys.st.fp (sys.st.pages p).freelist l ∧ l.Nodup ∧
      ∀ o ∈ l, o.page = p ∧ o.idx < orderObjects k s.size) ∧
    sys.live.Nodup ∧
    (∀ o ∈ sys.live, ∃ k, (o.page, k) ∈ sys.st.slabs ∧ o.idx < orderObjects k s.size) ∧
    (∀ a ∈ sys.live, ∀ b ∈ sys.live, a ≠ b →
      a.address s + s.size ≤ b.address s ∨ b.address s + s.size ≤ a.address s) ∧
    (∀ op, Legal s sys op → ∃ sys', step s sys op = .ok sys') ∧
    (∀ cpu zero got gotMin st' o, Legal s sys (.alloc cpu zero got gotMin) →
      slabAllocNode s sys.st cpu zero got gotMin = .ok (st', some o) → o ∉ sys.live) := by
  obtain ⟨place, h⟩ := reachable.inv
  refine ⟨fun p k slab i lt => ?_, fun c => ?_, fun p k slab => ?_, h.liveList.nodup, fun o member => ?_,
    fun a first b second ne => ?_, fun op legal => ?_, fun cpu zero got gotMin st' o legal done => ?_⟩
  · have inside : place ⟨p, i⟩ ≠ .outside := (h.slots _).mpr ⟨k, slab, lt⟩
    exact ⟨place ⟨p, i⟩, (h.restsAt_iff inside _).mpr rfl, fun w rests => ((h.restsAt_iff inside w).mp rests).symm⟩
  · obtain ⟨l, linked, nodup, mem, page⟩ := h.cpuLists c
    exact ⟨l, linked, nodup, fun o member => ⟨page o member, (h.slots o).mp (by simp [(mem o).mp member])⟩⟩
  · obtain ⟨l, linked, nodup, mem, -⟩ := h.pageLists p k slab
    refine ⟨l, linked, nodup, fun o member => ?_⟩
    obtain ⟨rfl, there⟩ := (mem o).mp member
    exact ⟨rfl, h.idx_lt slab (by simp [there])⟩
  · exact (h.slots o).mp (by simp [(h.liveList.mem_iff o).mp member])
  · exact h.disjoint (by simp [(h.liveList.mem_iff a).mp first]) (by simp [(h.liveList.mem_iff b).mp second]) ne
  · obtain ⟨sys', -, done, -⟩ := step_keeps h legal
    exact ⟨sys', done⟩
  · obtain ⟨_, _, same, -⟩ | ⟨_, _, place', same, kept⟩ := slabAllocNode_ok h cpu zero legal.1 legal.2
    · rw [done] at same
      simp at same
    · rw [done] at same
      simp only [Except.ok.injEq, Prod.mk.injEq, Option.some.injEq] at same
      obtain ⟨rfl, rfl⟩ := same
      exact (List.nodup_cons.mp kept.liveList.nodup).1

/-- A cache of objects of a kilobyte. -/
def kilobytes : Cache where
  size := 1024
  order := 1
  minOrder := 0
  minPartial := 5
  fpInside := true
  objects_bounds := by rintro o (rfl | rfl) <;> decide

/-- Two objects are allocated on one cpu and the first is freed on another. -/
def remoteFree : List Op := [.alloc 0 false (some 8) none, .alloc 0 false none none, .free 1 ⟨8, 0⟩]

theorem remoteFree_conserves :
    ∃ sys, run kilobytes remoteFree .init = some sys ∧ sys.live = [⟨8, 1⟩] ∧ (8, 1) ∈ sys.st.slabs ∧
      ∀ i < 8, ∃! w, RestsAt sys ⟨8, i⟩ w := by
  have live : (run kilobytes remoteFree .init).map System.live = some [⟨8, 1⟩] := by decide +kernel
  have slabs : (run kilobytes remoteFree .init).map (fun sys => sys.st.slabs) = some [(8, 1)] := by decide +kernel
  obtain ⟨sys, done, live⟩ := Option.map_eq_some_iff.mp live
  have slab : (8, 1) ∈ sys.st.slabs := by
    rw [done] at slabs
    simp_all
  exact ⟨sys, done, live, slab, (objects_conserved kilobytes sys (Reachable.init.run done)).1 8 1 slab⟩

/-! ## Pages -/

/-- A free on a full page that no cpu has puts it on the partial list, unless it was the only
    object of the page and the list is long enough. -/
theorem doSlabFree_full {st : State} {live : List Slot} {place : Slot → Place} (h : Inv s st live place) (cpu : Nat)
    {o : Slot} (owned : place o = .live) (free : (st.pages o.page).frozen = false)
    (full : (st.pages o.page).freelist = none) :
    o.page ∈ (doSlabFree s st cpu o).partials ∨
      ((st.pages o.page).objects = 1 ∧ s.minPartial ≤ st.nrPartial ∧ ∀ k, (o.page, k) ∉ (doSlabFree s st cpu o).slabs) := by
  obtain ⟨k, slab⟩ := h.slab_of (o := o) (by simp [owned])
  have other : (st.cpus cpu).page ≠ some o.page := fun has => by
    simpa [free] using (h.owners.cpuPage cpu o.page has).2
  have dec := h.decInuse_eq (o := o) (by simp [owned]) (by simp [owned])
  have count := h.inuse_eq_objects slab full
  have pos := (h.objects_bound slab).1
  rw [count] at dec
  simp only [doSlabFree, if_neg other, slabFree, dec, count, free, full]
  simp only [or_true, and_self, if_true, ne_eq, not_true_eq_false, if_false]
  split_ifs with empty
  · refine .inr ⟨by omega, empty.2, fun k' => ?_⟩
    simp [State.discardSlab, State.setPage, State.setFreepointer]
  · exact .inl (mem_addPartial.mpr (.inl rfl))

/-- In every reachable state the flags, counters and the partial list agree with the freelists,
    a full page comes back at its next free, or goes when that free was of its only object and
    there are enough pages on the list, a page that was given back has no object in use, and
    no `BUG_ON` is reached. -/
theorem slab_pages_consistent (s : Cache) (sys : System) (reachable : Reachable s sys) :
    (∀ p k, (p, k) ∈ sys.st.slabs →
      ((sys.st.pages p).frozen = true ↔ ∃ c, (sys.st.cpus c).page = some p) ∧
      (∃ l, Linked sys.st.fp (sys.st.pages p).freelist l ∧
        (sys.st.pages p).inuse + l.length = (sys.st.pages p).objects) ∧
      (p ∈ sys.st.partials ↔ (sys.st.pages p).frozen = false ∧ (sys.st.pages p).freelist ≠ none) ∧
      ((sys.st.pages p).frozen = false → (sys.st.pages p).freelist = none → p ∉ sys.st.partials ∧
        ∀ cpu o, o ∈ sys.live → o.page = p → ∀ sys', step s sys (.free cpu o) = .ok sys' →
          p ∈ sys'.st.partials ∨ ((sys.st.pages p).objects = 1 ∧ s.minPartial ≤ sys.st.nrPartial ∧
            ∀ k', (p, k') ∉ sys'.st.slabs))) ∧
    (∀ c p, (sys.st.cpus c).page = some p → ∃ k, (p, k) ∈ sys.st.slabs) ∧
    (∀ p ∈ sys.st.partials, ∃ k, (p, k) ∈ sys.st.slabs) ∧
    sys.st.partials.Nodup ∧ sys.st.nrPartial = sys.st.partials.length ∧
    (∀ c, (sys.st.cpus c).page = none → (sys.st.cpus c).freelist = none) ∧
    (∀ op, Legal s sys op → ∃ sys', step s sys op = .ok sys' ∧
      ∀ p k, (p, k) ∈ sys.st.slabs → (∀ k', (p, k') ∉ sys'.st.slabs) → ∀ o ∈ sys'.live, o.page ≠ p) := by
  obtain ⟨place, h⟩ := reachable.inv
  refine ⟨fun p k slab => ⟨?_, ?_, ?_, fun free full => ⟨?_, ?_⟩⟩, fun c p has => (h.owners.cpuPage c p has).1,
    fun p member => ((h.partials.mem_iff p).mp member).1, h.partials.nodup, h.partials.count,
    fun c => h.freelist_none, fun op legal => ?_⟩
  · exact ⟨h.owners.frozen p k slab, fun ⟨c, has⟩ => (h.owners.cpuPage c p has).2⟩
  · obtain ⟨l, linked, -, -, count⟩ := h.pageLists p k slab
    exact ⟨l, linked, by omega⟩
  · exact (h.partials.mem_iff p).trans (and_iff_right ⟨k, slab⟩)
  · exact fun member => ((h.partials.mem_iff p).mp member).2.2 full
  · rintro cpu o member rfl sys' done
    obtain rfl := Except.ok.inj done
    exact doSlabFree_full h cpu ((h.liveList.mem_iff o).mp member) free full
  · obtain ⟨sys', place', done, kept⟩ := step_keeps h legal
    refine ⟨sys', done, fun p k _ gone o member page => ?_⟩
    obtain ⟨k', slab⟩ := kept.slab_of (o := o) (by simp [(kept.liveList.mem_iff o).mp member])
    exact gone k' (page ▸ slab)

theorem remoteFree_consistent :
    ∃ sys, run kilobytes remoteFree .init = some sys ∧ (8, 1) ∈ sys.st.slabs ∧
      ((sys.st.pages 8).frozen = true ↔ ∃ c, (sys.st.cpus c).page = some 8) := by
  have slabs : (run kilobytes remoteFree .init).map (fun sys => sys.st.slabs) = some [(8, 1)] := by decide +kernel
  obtain ⟨sys, done, slabs⟩ := Option.map_eq_some_iff.mp slabs
  have slab : (8, 1) ∈ sys.st.slabs := by simp [slabs]
  exact ⟨sys, done, slab, ((slab_pages_consistent kilobytes sys (Reachable.init.run done)).1 8 1 slab).1⟩

/-- A cache of objects of a page, whose smallest slabs have one object each. -/
def wholePages : Cache where
  size := 4096
  order := 3
  minOrder := 0
  minPartial := 6
  fpInside := true
  objects_bounds := by rintro o (rfl | rfl) <;> decide

/-- Eight slabs of one object, of which six become empty. -/
def sixEmpty : List Op :=
  (List.range 8).map (fun p => .alloc 0 false none (some p)) ++ (List.range 6).map (fun p => .free 0 ⟨p, 0⟩)

/-- The next full page does not come back to the partial list at its next free. -/
theorem sixEmpty_discards :
    ∃ sys sys', Reachable wholePages sys ∧ (6, 0) ∈ sys.st.slabs ∧ (sys.st.pages 6).frozen = false ∧
      (sys.st.pages 6).freelist = none ∧ ⟨6, 0⟩ ∈ sys.live ∧
      step wholePages sys (.free 0 ⟨6, 0⟩) = .ok sys' ∧ 6 ∉ sys'.st.partials := by
  have before : (run wholePages sixEmpty .init).map (fun sys => (decide ((6, 0) ∈ sys.st.slabs), sys.st.pages 6,
      decide (⟨6, 0⟩ ∈ sys.live), decide (6 ∈ (doSlabFree wholePages sys.st 0 ⟨6, 0⟩).partials))) =
      some (true, { freelist := none, inuse := 1, objects := 1, frozen := false }, true, false) := by decide +kernel
  obtain ⟨sys, done, facts⟩ := Option.map_eq_some_iff.mp before
  simp only [Prod.mk.injEq, decide_eq_true_eq, decide_eq_false_iff_not] at facts
  obtain ⟨slab, page, live, gone⟩ := facts
  exact ⟨sys, _, Reachable.init.run done, slab, by rw [page], by rw [page], live, rfl, gone⟩

end Miracle.Slub
