import Miracle.Slub.Invariant

/-! # Slab pages change hands

A cpu takes the freelist of its page, leaves its page or takes one from the partial list, and
pages come from and go back to the page allocator.
-/

namespace Miracle.Slub

variable {s : Cache} {st : State} {live : List Slot} {place : Slot → Place}

/-- A cpu without a page has no objects. -/
theorem Inv.freelist_none (h : Inv s st live place) {c : Nat} (without : (st.cpus c).page = none) :
    (st.cpus c).freelist = none := by
  obtain ⟨l, linked, -, -, page⟩ := h.cpuLists c
  cases l with
  | nil => exact linked.eq_nil_iff.mp rfl
  | cons o rest =>
      have := page o (by simp)
      simp [without] at this

/-- Nothing is in place at a cpu with an empty freelist. -/
theorem Inv.not_at_cpu (h : Inv s st live place) {c : Nat} (empty : (st.cpus c).freelist = none) (o : Slot) :
    place o ≠ .cpu c := by
  obtain ⟨l, linked, -, mem, -⟩ := h.cpuLists c
  rw [empty] at linked
  obtain rfl := Linked.none_iff.mp linked
  simpa using (mem o).not.mp

/-- A full page has no slot in place. -/
theorem Inv.inuse_eq_objects (h : Inv s st live place) {p k : Nat} (slab : (p, k) ∈ st.slabs)
    (empty : (st.pages p).freelist = none) : (st.pages p).inuse = (st.pages p).objects := by
  obtain ⟨l, linked, -, -, count⟩ := h.pageLists p k slab
  rw [empty] at linked
  obtain rfl := Linked.none_iff.mp linked
  simpa using count

/-! ## The freelist of a page -/

/-- The slots of the page go to the cpu, the first one to the caller. -/
def takePlace (place : Slot → Place) (p c : Nat) (o q : Slot) : Place :=
  if q = o then .live else if q.page = p ∧ place q = .page then .cpu c else place q

theorem takePlace_cases (place : Slot → Place) (p c : Nat) (o q : Slot) :
    (q = o ∧ takePlace place p c o q = .live) ∨
    (q ≠ o ∧ (q.page = p ∧ place q = .page) ∧ takePlace place p c o q = .cpu c) ∨
    (q ≠ o ∧ ¬ (q.page = p ∧ place q = .page) ∧ takePlace place p c o q = place q) := by
  simp only [takePlace]
  split_ifs <;> simp_all

/-- A cpu takes the freelist of its page and hands the first object out. -/
def State.takePage (st : State) (c p : Nat) (o : Slot) : State :=
  (st.setPage p { st.pages p with freelist := none, inuse := (st.pages p).objects }).setCpu c
    { st.cpus c with freelist := st.fp o }

theorem Inv.takePage (h : Inv s st live place) {c p : Nat} {o : Slot} (has : (st.cpus c).page = some p)
    (empty : (st.cpus c).freelist = none) (first : (st.pages p).freelist = some o) :
    Inv s (st.takePage c p o) (o :: live) (takePlace place p c o) ∧ place o = .page := by
  obtain ⟨⟨k, slab⟩, frozen⟩ := h.owners.cpuPage c p has
  obtain ⟨l, linked, nodup, mem, count⟩ := h.pageLists p k slab
  rw [first] at linked
  obtain ⟨rest, rfl, tail⟩ := Linked.some_iff.mp linked
  obtain ⟨page, here⟩ := (mem o).mp (by simp)
  have cases := takePlace_cases place p c o
  have nowhere := h.not_at_cpu empty
  refine ⟨
    { h with
      objects := fun q k slab => ?_
      slots := fun q => ?_
      pageLists := fun q k slab => ?_
      cpuLists := forall_setCpu ?_ (fun d ne => ?_)
      owners := h.owners.congr rfl (field_update CpuSlab.page rfl) (field_update SlabPage.frozen rfl)
      partials := h.partials.congr rfl (fun q k slab => ?_) rfl rfl
      liveList := ⟨List.nodup_cons.mpr ⟨fun member => ?_, h.liveList.nodup⟩, fun q => ?_⟩ }, here⟩
  · rw [← h.objects q k slab]
    apply field_update SlabPage.objects
    rfl
  · refine Iff.trans ?_ (h.slots q)
    have := cases q
    grind
  · by_cases same : q = p
    · subst same
      refine ⟨[], ?_, List.nodup_nil, fun r => ?_, ?_⟩
      · simpa [State.takePage, State.setPage, State.setCpu] using Linked.nil
      · have := cases r
        grind
      · simp [State.takePage, State.setPage, State.setCpu]
    · have unchanged : (st.takePage c p o).pages q = st.pages q := Function.update_of_ne same _ _
      rw [unchanged]
      refine (h.pageLists q k slab).congr (fun r at_q => ?_) (fun _ _ _ => rfl) rfl rfl rfl
      have := cases r
      grind
  · refine ⟨rest, tail, (List.nodup_cons.mp nodup).2, fun q => ?_, fun q member => ?_⟩
    · have := cases q
      have := mem q
      have := nowhere q
      have := (List.nodup_cons.mp nodup).1
      grind
    · rw [has, ((mem q).mp (by simp [member])).1]
  · refine (h.cpuLists d).congr (fun q => ?_) (fun _ _ => rfl)
    have := cases q
    grind
  · by_cases same : q = p
    · subst same
      simp [State.takePage, State.setPage, State.setCpu, frozen]
    · have unchanged : (st.takePage c p o).pages q = st.pages q := Function.update_of_ne same _ _
      rw [unchanged]
  · simp [(h.liveList.mem_iff o).mp member] at here
  · have := cases q
    have := h.liveList.mem_iff q
    grind

/-! ## The page of a cpu -/

/-- A cpu with an empty freelist leaves its page. -/
def State.release (st : State) (c p : Nat) (tail : Bool) : State :=
  let new := (st.setPage p { st.pages p with frozen := false }).setCpu c { freelist := none, page := none }
  if (st.pages p).freelist = none then new else new.addPartial p tail

theorem State.release_fields (st : State) (c p : Nat) (tail : Bool) :
    (st.release c p tail).slabs = st.slabs ∧ (st.release c p tail).fp = st.fp ∧
    (st.release c p tail).cpus = Function.update st.cpus c { freelist := none, page := none } ∧
    (st.release c p tail).pages = Function.update st.pages p { st.pages p with frozen := false } := by
  simp only [State.release]
  split <;> exact ⟨rfl, rfl, rfl, rfl⟩

theorem Owners.release (h : Owners st) {c p : Nat} (has : (st.cpus c).page = some p) {st' : State}
    (slabs : st'.slabs = st.slabs)
    (cpus : st'.cpus = Function.update st.cpus c { freelist := none, page := none })
    (pages : st'.pages = Function.update st.pages p { st.pages p with frozen := false }) : Owners st' := by
  have owns {d q : Nat} (owner : (st'.cpus d).page = some q) : d ≠ c ∧ (st.cpus d).page = some q := by
    rw [cpus, Function.update_apply] at owner
    split at owner
    · simp at owner
    · exact ⟨by assumption, owner⟩
  refine ⟨fun d q owner => ?_, fun q k slab frozen => ?_, fun d e q first second =>
    h.one d e q (owns first).2 (owns second).2⟩
  · obtain ⟨other, before⟩ := owns owner
    have ne : q ≠ p := by
      rintro rfl
      exact other (h.one d c q before has)
    rw [slabs, pages, Function.update_of_ne ne]
    exact h.cpuPage d q before
  · have ne : q ≠ p := by
      rintro rfl
      simp [pages] at frozen
    rw [pages, Function.update_of_ne ne] at frozen
    rw [slabs] at slab
    obtain ⟨d, before⟩ := h.frozen q k slab frozen
    refine ⟨d, ?_⟩
    rw [cpus, Function.update_of_ne]
    · exact before
    · rintro rfl
      rw [has] at before
      exact ne (Option.some.inj before).symm

theorem Inv.release (h : Inv s st live place) {c p : Nat} (has : (st.cpus c).page = some p)
    (empty : (st.cpus c).freelist = none) (tail : Bool) : Inv s (st.release c p tail) live place := by
  obtain ⟨⟨k, slab⟩, frozen⟩ := h.owners.cpuPage c p has
  obtain ⟨slabs, fp, cpus, pages⟩ := st.release_fields c p tail
  have out : p ∉ st.partials := fun member => by simpa [frozen] using (h.partials.mem_iff p).mp member
  refine
    { apart := by rw [slabs]; exact h.apart
      orders := by rw [slabs]; exact h.orders
      objects := fun q k slab => ?_
      slots := by rw [slabs]; exact h.slots
      pageLists := fun q k slab => ?_
      cpuLists := ?_
      owners := h.owners.release has slabs cpus pages
      partials := ?_
      liveList := h.liveList }
  · rw [slabs] at slab
    rw [pages, ← h.objects q k slab]
    apply field_update SlabPage.objects
    rfl
  · rw [slabs] at slab
    rw [fp, pages]
    refine (h.pageLists q k slab).congr (fun _ _ => Iff.rfl) (fun _ _ _ => rfl) ?_ ?_ ?_
    · apply field_update SlabPage.freelist
      rfl
    · apply field_update SlabPage.inuse
      rfl
    · apply field_update SlabPage.objects
      rfl
  · rw [fp, cpus]
    exact forall_setCpu ((h.cpuLists c).empty empty (fun _ => Iff.rfl) none) (fun d _ => h.cpuLists d)
  · have others (q : Nat) (ne : q ≠ p) : (st.release c p tail).pages q = st.pages q := by
      rw [pages, Function.update_of_ne ne]
    by_cases full : (st.pages p).freelist = none
    · refine h.partials.congr slabs (fun q k slab => ?_) (by simp [State.release, full, State.setPage, State.setCpu])
        (by simp [State.release, full, State.setPage, State.setCpu])
      by_cases same : q = p
      · subst same
        simp [pages, full]
      · rw [others q same]
    · refine h.partials.add tail out (fun q _ => by rw [slabs]) others ⟨⟨k, by rwa [slabs]⟩, ?_⟩
        (by simp [State.release, full, State.setPage, State.setCpu, State.addPartial])
        (by simp [State.release, full, State.setPage, State.setCpu, State.addPartial])
      simp [pages, full]

/-- A cpu without a page takes one from the partial list. -/
def State.claim (st : State) (c p : Nat) : State :=
  ((st.setPage p { st.pages p with frozen := true }).removePartial p).setCpu c
    { st.cpus c with page := some p }

theorem Owners.claim (h : Owners st) {c p k : Nat} (without : (st.cpus c).page = none)
    (slab : (p, k) ∈ st.slabs) (free : (st.pages p).frozen = false) : Owners (st.claim c p) := by
  have owns {d q : Nat} (owner : ((st.claim c p).cpus d).page = some q) :
      (d = c ∧ q = p) ∨ (d ≠ c ∧ q ≠ p ∧ (st.cpus d).page = some q) := by
    simp only [State.claim, State.setCpu, State.removePartial, State.setPage, Function.update_apply] at owner
    split at owner
    · exact .inl ⟨by assumption, (Option.some.inj owner).symm⟩
    · refine .inr ⟨by assumption, ?_, owner⟩
      rintro rfl
      simpa [free] using (h.cpuPage d q owner).2
  have others {q : Nat} (ne : q ≠ p) : (st.claim c p).pages q = st.pages q := Function.update_of_ne ne _ _
  refine ⟨fun d q owner => ?_, fun q k' slab' frozen => ?_, fun d e q first second => ?_⟩
  · obtain ⟨-, rfl⟩ | ⟨-, ne, before⟩ := owns owner
    · exact ⟨⟨k, slab⟩, by simp [State.claim, State.setCpu, State.removePartial, State.setPage]⟩
    · rw [others ne]
      exact h.cpuPage d q before
  · by_cases same : q = p
    · subst same
      exact ⟨c, by simp [State.claim, State.setCpu]⟩
    · rw [others same] at frozen
      obtain ⟨d, before⟩ := h.frozen q k' slab' frozen
      have ne : d ≠ c := by
        rintro rfl
        simp [without] at before
      exact ⟨d, by simpa [State.claim, State.setCpu, State.removePartial, State.setPage, ne] using before⟩
  · obtain ⟨rfl, rfl⟩ | ⟨_, ne, before⟩ := owns first
    · obtain ⟨rfl, -⟩ | ⟨-, ne, -⟩ := owns second
      · rfl
      · exact absurd rfl ne
    · obtain ⟨-, same⟩ | ⟨-, -, before'⟩ := owns second
      · exact absurd same ne
      · exact h.one d e q before before'

theorem Inv.claim (h : Inv s st live place) {c p : Nat} (without : (st.cpus c).page = none)
    (member : p ∈ st.partials) : Inv s (st.claim c p) live place := by
  obtain ⟨⟨k, slab⟩, free, -⟩ := (h.partials.mem_iff p).mp member
  refine
    { h with
      objects := fun q k slab => ?_
      pageLists := fun q k slab => (h.pageLists q k slab).congr (fun _ _ => Iff.rfl) (fun _ _ _ => rfl) ?_ ?_ ?_
      cpuLists := forall_setCpu ?_ (fun d _ => h.cpuLists d)
      owners := h.owners.claim without slab free
      partials := h.partials.remove member (fun _ _ => Iff.rfl) (fun q ne => Function.update_of_ne ne _ _) ?_
        rfl rfl }
  · rw [← h.objects q k slab]
    apply field_update SlabPage.objects
    rfl
  · apply field_update SlabPage.freelist
    rfl
  · apply field_update SlabPage.inuse
    rfl
  · apply field_update SlabPage.objects
    rfl
  · simp only [h.freelist_none without]
    exact (h.cpuLists c).empty (h.freelist_none without) (fun _ => Iff.rfl) _
  · simp [State.claim, State.setCpu, State.removePartial, State.setPage]

/-! ## New pages -/

/-- The first free object of a page that keeps others. -/
def State.popPage (st : State) (p : Nat) (o : Slot) : State :=
  st.setPage p { st.pages p with freelist := st.fp o, inuse := (st.pages p).inuse + 1 }

theorem Inv.popPage (h : Inv s st live place) {p k : Nat} {o : Slot} (slab : (p, k) ∈ st.slabs)
    (first : (st.pages p).freelist = some o) (more : st.fp o ≠ none) :
    Inv s (st.popPage p o) (o :: live) (Function.update place o .live) := by
  obtain ⟨l, linked, nodup, mem, count⟩ := h.pageLists p k slab
  rw [first] at linked
  obtain ⟨rest, rfl, tail⟩ := Linked.some_iff.mp linked
  obtain ⟨page, here⟩ := (mem o).mp (by simp)
  have others {q : Nat} (ne : q ≠ p) : (st.popPage p o).pages q = st.pages q := Function.update_of_ne ne _ _
  refine
    { h with
      objects := fun q k slab => ?_
      slots := h.slots_update (by simp [here]) (by simp)
      pageLists := fun q k slab => ?_
      cpuLists := fun d => (h.cpuLists d).congr (fun q => update_place_iff (by simp [here]) (by simp))
        (fun _ _ => rfl)
      owners := h.owners.congr rfl (fun _ => rfl) (field_update SlabPage.frozen rfl)
      partials := h.partials.congr rfl (fun q k slab => ?_) rfl rfl
      liveList := h.liveList.cons (by simp [here]) }
  · rw [← h.objects q k slab]
    apply field_update SlabPage.objects
    rfl
  · by_cases same : q = p
    · subst same
      have unchanged : (st.popPage q o).pages q =
          { st.pages q with freelist := st.fp o, inuse := (st.pages q).inuse + 1 } := Function.update_self _ _ _
      rw [unchanged]
      refine ⟨rest, tail, (List.nodup_cons.mp nodup).2, fun r => ?_, ?_⟩
      · have := mem r
        have := (List.nodup_cons.mp nodup).1
        by_cases same : r = o
        · subst same
          simp [this]
        · rw [Function.update_of_ne same, ← mem]
          simp [same]
      · simp only [List.length_cons] at count
        simp only
        omega
    · rw [others same]
      refine (h.pageLists q k slab).congr (fun r at_q => ?_) (fun _ _ _ => rfl) rfl rfl rfl
      rw [Function.update_of_ne]
      rintro rfl
      exact same (at_q.symm.trans page)
  · by_cases same : q = p
    · subst same
      simp [State.popPage, State.setPage, first, more]
    · rw [others same]

theorem threadSlots_frame (page n idx : Nat) (st : State) :
    ∃ fp, threadSlots page n idx st = { st with fp := fp } ∧
      (∀ o, o.page ≠ page ∨ o.idx < idx → fp o = st.fp o) ∧
      Linked fp (some ⟨page, idx⟩) ((List.range' idx (n + 1)).map (Slot.mk page)) := by
  -- each round writes the word of its slot, and no later round does
  induction n generalizing idx st with
  | zero =>
      refine ⟨_, rfl, fun o other => Function.update_of_ne ?_ _ _, .cons ?_⟩
      · rintro rfl
        simp at other
      · simpa using Linked.nil
  | succ n ih =>
      obtain ⟨fp, same, frame, linked⟩ := ih (idx + 1) (st.setFreepointer ⟨page, idx⟩ (some ⟨page, idx + 1⟩))
      refine ⟨fp, same, fun o other => ?_, ?_⟩
      · rw [frame o (by omega)]
        refine Function.update_of_ne ?_ _ _
        rintro rfl
        simp at other
      · rw [List.range'_succ, List.map_cons]
        refine .cons ?_
        rw [frame _ (by simp)]
        simpa [State.setFreepointer] using linked

/-- A page that comes from the page allocator, with its slots on its freelist. -/
def State.addSlab (st : State) (p k n : Nat) : State :=
  let st := threadSlots p (n - 1) 0 { st with slabs := (p, k) :: st.slabs }
  (st.setPage p { freelist := some ⟨p, 0⟩, inuse := 0, objects := n, frozen := false }).addPartial p false

theorem State.addSlab_fields (st : State) (p k n : Nat) :
    (st.addSlab p k n).slabs = (p, k) :: st.slabs ∧ (st.addSlab p k n).cpus = st.cpus ∧
    (st.addSlab p k n).pages = Function.update st.pages p
      { freelist := some ⟨p, 0⟩, inuse := 0, objects := n, frozen := false } ∧
    (st.addSlab p k n).partials = (st.addPartial p false).partials ∧
    (st.addSlab p k n).nrPartial = st.nrPartial + 1 ∧
    (∀ o, o.page ≠ p → (st.addSlab p k n).fp o = st.fp o) ∧
    (0 < n → Linked (st.addSlab p k n).fp (some ⟨p, 0⟩) ((List.range n).map (Slot.mk p))) := by
  obtain ⟨fp, same, frame, linked⟩ := threadSlots_frame p (n - 1) 0 { st with slabs := (p, k) :: st.slabs }
  simp only [State.addSlab, same, State.setPage, State.addPartial, true_and]
  refine ⟨fun o other => frame o (.inl other), fun pos => ?_⟩
  rwa [Nat.sub_add_cancel pos, ← List.range_eq_range'] at linked

theorem Fresh.new {p k : Nat} (fresh : Fresh st p k) (k' : Nat) : (p, k') ∉ st.slabs := by
  intro slab
  have := fresh _ slab
  have := Nat.two_pow_pos k
  have := Nat.two_pow_pos k'
  grind

theorem Inv.addSlab (h : Inv s st live place) {p k : Nat} (fresh : Fresh st p k)
    (order : k = s.order ∨ k = s.minOrder) :
    Inv s (st.addSlab p k (orderObjects k s.size)) live
      (fun o => if o.page = p ∧ o.idx < orderObjects k s.size then .page else place o) := by
  obtain ⟨slabs, cpus, pages, partials, count, frame, linked⟩ := st.addSlab_fields p k (orderObjects k s.size)
  have old {q k' : Nat} (slab : (q, k') ∈ (st.addSlab p k (orderObjects k s.size)).slabs) :
      (q = p ∧ k' = k) ∨ (q ≠ p ∧ (q, k') ∈ st.slabs) := by
    rw [slabs, List.mem_cons] at slab
    obtain same | slab := slab
    · exact .inl (by simpa using same)
    · refine .inr ⟨?_, slab⟩
      rintro rfl
      exact fresh.new k' slab
  have outside {o : Slot} (page : o.page = p) : place o = .outside := by
    by_contra inside
    obtain ⟨k', slab⟩ := h.slab_of inside
    rw [page] at slab
    exact fresh.new k' slab
  have owner {d q : Nat} (has : (st.cpus d).page = some q) : q ≠ p := by
    rintro rfl
    obtain ⟨⟨k', slab⟩, -⟩ := h.owners.cpuPage d q has
    exact fresh.new k' slab
  have others {q : Nat} (ne : q ≠ p) : (st.addSlab p k (orderObjects k s.size)).pages q = st.pages q := by
    rw [pages, Function.update_of_ne ne]
  refine
    { apart := by rw [slabs]; exact List.pairwise_cons.mpr ⟨fun b slab => fresh b slab, h.apart⟩
      orders := by rw [slabs]; simpa [order] using h.orders
      objects := fun q k' slab => ?_
      slots := fun o => ?_
      pageLists := fun q k' slab => ?_
      cpuLists := fun d => ?_
      owners := ⟨fun d q has => ?_, fun q k' slab frozen => ?_, by rw [cpus]; exact h.owners.one⟩
      partials := h.partials.add false (fun member => ?_) (fun q ne => ?_) (fun q ne => others ne) ?_ partials count
      liveList := ⟨h.liveList.nodup, fun o => ?_⟩ }
  · obtain ⟨rfl, rfl⟩ | ⟨ne, slab⟩ := old slab
    · simp [pages]
    · rw [others ne]
      exact h.objects q k' slab
  · have before := h.slots o
    by_cases page : o.page = p
    · have := fresh.new
      simp only [outside page, slabs]
      grind
    · simp only [page, slabs]
      grind
  · obtain ⟨rfl, rfl⟩ | ⟨ne, slab⟩ := old slab
    · rw [pages, Function.update_self]
      refine ⟨_, linked (s.objects_bounds k' order).1, List.Nodup.map (fun a b same => by simpa using same)
        List.nodup_range, fun o => ?_, by simp⟩
      have := outside (o := o)
      cases o
      grind
    · rw [others ne]
      refine (h.pageLists q k' slab).congr (fun o page => ?_) (fun o page _ => frame o (by grind)) rfl rfl rfl
      grind
  · rw [cpus]
    have inside (o : Slot) (there : place o = .cpu d) : o.page ≠ p := by
      intro page
      simp [outside page] at there
    refine (h.cpuLists d).congr (fun o => ?_) (fun o there => frame o (inside o there))
    have := inside o
    grind
  · rw [cpus] at has
    rw [others (owner has), slabs]
    obtain ⟨⟨k', slab⟩, frozen⟩ := h.owners.cpuPage d q has
    exact ⟨⟨k', by simp [slab]⟩, frozen⟩
  · obtain ⟨rfl, rfl⟩ | ⟨ne, slab⟩ := old slab
    · simp [pages] at frozen
    · rw [others ne] at frozen
      rw [cpus]
      exact h.owners.frozen q k' slab frozen
  · obtain ⟨⟨k', slab⟩, -⟩ := (h.partials.mem_iff p).mp member
    exact fresh.new k' slab
  · rw [slabs]
    simp [ne]
  · exact ⟨⟨k, by simp [slabs]⟩, by simp [pages]⟩
  · have := h.liveList.mem_iff o
    have := outside (o := o)
    grind

/-- An empty page goes back to the page allocator. -/
theorem Inv.discard (h : Inv s st live place) {p : Nat} (member : p ∈ st.partials)
    (empty : (st.pages p).inuse = 0) :
    Inv s ((st.removePartial p).discardSlab p) live (fun o => if o.page = p then .outside else place o) ∧
      ∀ o, o.page = p → place o = .page ∨ place o = .outside := by
  obtain ⟨⟨k, slab⟩, free, -⟩ := (h.partials.mem_iff p).mp member
  obtain ⟨l, linked, nodup, mem, count⟩ := h.pageLists p k slab
  have inPlace (o : Slot) (page : o.page = p) : place o = .page ∨ place o = .outside := by
    by_contra other
    push Not at other
    have := h.inuse_pos other.2 other.1
    rw [page] at this
    omega
  have slabs {q k' : Nat} : (q, k') ∈ ((st.removePartial p).discardSlab p).slabs ↔ q ≠ p ∧ (q, k') ∈ st.slabs := by
    simp [State.discardSlab, State.removePartial, and_comm]
  have owner {d q : Nat} (has : (st.cpus d).page = some q) : q ≠ p := by
    rintro rfl
    simpa [free] using (h.owners.cpuPage d q has).2
  refine ⟨
    { apart := h.apart.sublist List.filter_sublist
      orders := fun b slab => h.orders b (List.mem_of_mem_filter slab)
      objects := fun q k' slab => h.objects q k' (slabs.mp slab).2
      slots := fun o => ?_
      pageLists := fun q k' slab => (h.pageLists q k' (slabs.mp slab).2).congr (fun o page => ?_)
        (fun _ _ _ => rfl) rfl rfl rfl
      cpuLists := fun d => (h.cpuLists d).congr (fun o => ?_) (fun _ _ => rfl)
      owners := ⟨fun d q has => ?_, fun q k' slab frozen => h.owners.frozen q k' (slabs.mp slab).2 frozen,
        h.owners.one⟩
      partials := h.partials.remove member (fun q ne => ?_) (fun _ _ => rfl) ?_ rfl rfl
      liveList := ⟨h.liveList.nodup, fun o => ?_⟩ }, inPlace⟩
  · have := h.slots o
    simp only [slabs]
    grind
  · have := (slabs.mp slab).1
    grind
  · have := inPlace o
    grind
  · obtain ⟨⟨k', slab⟩, frozen⟩ := h.owners.cpuPage d q has
    exact ⟨⟨k', slabs.mpr ⟨owner has, slab⟩⟩, frozen⟩
  · simp [slabs, ne]
  · simp [slabs]
  · have := h.liveList.mem_iff o
    have := inPlace o
    grind

end Miracle.Slub
