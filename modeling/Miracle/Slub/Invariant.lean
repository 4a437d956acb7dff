import Miracle.Slub.Basic

/-! # Where the slots of a cache are

Every slot of a slab page is in one place: on the freelist of its page, on the freelist of
the cpu that has the page, or in the hands of a caller.  The invariant ties the freelists,
the counters and the partial list to these places.  Operations are made of a few moves that
keep it.
-/

namespace Miracle.Slub

inductive Place where
  | outside
  | page
  | cpu (c : Nat)
  | live
  deriving DecidableEq, Repr

/-- The freelist of a page holds the slots that are in place there. -/
def PageList (fp : Slot → Option Slot) (place : Slot → Place) (page : Nat) (p : SlabPage) : Prop :=
  ∃ l, Linked fp p.freelist l ∧ l.Nodup ∧ (∀ o, o ∈ l ↔ o.page = page ∧ place o = .page) ∧
    l.length + p.inuse = p.objects

def CpuList (fp : Slot → Option Slot) (place : Slot → Place) (cpu : Nat) (c : CpuSlab) : Prop :=
  ∃ l, Linked fp c.freelist l ∧ l.Nodup ∧ (∀ o, o ∈ l ↔ place o = .cpu cpu) ∧
    ∀ o ∈ l, c.page = some o.page

/-- The partial list has the pages with free slots that no cpu has. -/
structure PartialList (st : State) : Prop where
  nodup : st.partials.Nodup
  mem_iff : ∀ p, p ∈ st.partials ↔
    (∃ k, (p, k) ∈ st.slabs) ∧ (st.pages p).frozen = false ∧ (st.pages p).freelist ≠ none
  count : st.nrPartial = st.partials.length

structure LiveList (live : List Slot) (place : Slot → Place) : Prop where
  nodup : live.Nodup
  mem_iff : ∀ o, o ∈ live ↔ place o = .live

/-- The blocks of the cache do not overlap. -/
def Apart (b c : Nat × Nat) : Prop := b.1 + 2 ^ b.2 ≤ c.1 ∨ c.1 + 2 ^ c.2 ≤ b.1

/-- A page is frozen when it is the page of a cpu, and of one cpu only. -/
structure Owners (st : State) : Prop where
  cpuPage : ∀ c p, (st.cpus c).page = some p → (∃ k, (p, k) ∈ st.slabs) ∧ (st.pages p).frozen = true
  frozen : ∀ p k, (p, k) ∈ st.slabs → (st.pages p).frozen = true → ∃ c, (st.cpus c).page = some p
  one : ∀ c d p, (st.cpus c).page = some p → (st.cpus d).page = some p → c = d

structure Inv (s : Cache) (st : State) (live : List Slot) (place : Slot → Place) : Prop where
  apart : st.slabs.Pairwise Apart
  orders : ∀ b ∈ st.slabs, b.2 = s.order ∨ b.2 = s.minOrder
  objects : ∀ p k, (p, k) ∈ st.slabs → (st.pages p).objects = orderObjects k s.size
  slots : ∀ o, place o ≠ .outside ↔ ∃ k, (o.page, k) ∈ st.slabs ∧ o.idx < orderObjects k s.size
  pageLists : ∀ p k, (p, k) ∈ st.slabs → PageList st.fp place p (st.pages p)
  cpuLists : ∀ c, CpuList st.fp place c (st.cpus c)
  owners : Owners st
  partials : PartialList st
  liveList : LiveList live place

/-! ## Frames -/

theorem PageList.congr {fp fp' : Slot → Option Slot} {place place' : Slot → Place} {page : Nat}
    {p p' : SlabPage} (h : PageList fp place page p)
    (places : ∀ o, o.page = page → (place' o = .page ↔ place o = .page))
    (words : ∀ o, o.page = page → place o = .page → fp' o = fp o)
    (freelist : p'.freelist = p.freelist) (inuse : p'.inuse = p.inuse) (objects : p'.objects = p.objects) :
    PageList fp' place' page p' := by
  obtain ⟨l, linked, nodup, mem, count⟩ := h
  refine ⟨l, ?_, nodup, fun o => ?_, by rw [inuse, objects, count]⟩
  · rw [freelist]
    exact linked.congr (fun o member => words o ((mem o).mp member).1 ((mem o).mp member).2)
  · rw [mem]
    constructor
    · rintro ⟨here, there⟩
      exact ⟨here, (places o here).mpr there⟩
    · rintro ⟨here, there⟩
      exact ⟨here, (places o here).mp there⟩

theorem CpuList.congr {fp fp' : Slot → Option Slot} {place place' : Slot → Place} {cpu : Nat} {c : CpuSlab}
    (h : CpuList fp place cpu c) (places : ∀ o, place' o = .cpu cpu ↔ place o = .cpu cpu)
    (words : ∀ o, place o = .cpu cpu → fp' o = fp o) : CpuList fp' place' cpu c := by
  obtain ⟨l, linked, nodup, mem, page⟩ := h
  exact ⟨l, linked.congr (fun o member => words o ((mem o).mp member)), nodup,
    fun o => (mem o).trans (places o).symm, page⟩

/-- A cpu list that changes nothing but the page of its empty list. -/
theorem CpuList.empty {fp fp' : Slot → Option Slot} {place place' : Slot → Place} {cpu : Nat} {c : CpuSlab}
    (h : CpuList fp place cpu c) (empty : c.freelist = none)
    (places : ∀ o, place' o = .cpu cpu ↔ place o = .cpu cpu) (page : Option Nat) :
    CpuList fp' place' cpu { freelist := none, page := page } := by
  obtain ⟨l, linked, -, mem, -⟩ := h
  rw [empty] at linked
  obtain rfl := Linked.none_iff.mp linked
  exact ⟨[], .nil, List.nodup_nil, fun o => (mem o).trans (places o).symm, by simp⟩

/-- A field that an update leaves alone. -/
theorem field_update {α β γ : Type} [DecidableEq α] (f : β → γ) {g : α → β} {a : α} {b : β}
    (same : f b = f (g a)) (x : α) : f (Function.update g a b x) = f (g x) := by
  rw [Function.apply_update (fun _ => f) g a b x, same, Function.update_apply]
  split <;> simp_all

theorem Owners.congr {st st' : State} (h : Owners st) (slabs : st'.slabs = st.slabs)
    (page : ∀ c, (st'.cpus c).page = (st.cpus c).page)
    (frozen : ∀ p, (st'.pages p).frozen = (st.pages p).frozen) : Owners st' where
  cpuPage c p has := by
    rw [slabs, frozen]
    exact h.cpuPage c p ((page c).symm.trans has)
  frozen p k slab isFrozen := by
    rw [slabs] at slab
    obtain ⟨c, has⟩ := h.frozen p k slab ((frozen p).symm.trans isFrozen)
    exact ⟨c, (page c).trans has⟩
  one c d p first second := h.one c d p ((page c).symm.trans first) ((page d).symm.trans second)

theorem PartialList.congr {st st' : State} (h : PartialList st) (slabs : st'.slabs = st.slabs)
    (same : ∀ p k, (p, k) ∈ st.slabs → ((st'.pages p).frozen = false ∧ (st'.pages p).freelist ≠ none ↔
      (st.pages p).frozen = false ∧ (st.pages p).freelist ≠ none))
    (partials : st'.partials = st.partials) (count : st'.nrPartial = st.nrPartial) : PartialList st' where
  nodup := by rw [partials]; exact h.nodup
  mem_iff p := by
    rw [partials, slabs, h.mem_iff]
    constructor
    · rintro ⟨⟨k, slab⟩, rest⟩
      exact ⟨⟨k, slab⟩, (same p k slab).mpr rest⟩
    · rintro ⟨⟨k, slab⟩, rest⟩
      exact ⟨⟨k, slab⟩, (same p k slab).mp rest⟩
  count := by rw [partials, count, h.count]

theorem mem_addPartial {st : State} {p q : Nat} {tail : Bool} :
    q ∈ (st.addPartial p tail).partials ↔ q = p ∨ q ∈ st.partials := by
  cases tail
  · simp [State.addPartial]
  · simp [State.addPartial, or_comm]

theorem nodup_addPartial {st : State} {p : Nat} (tail : Bool) (nodup : st.partials.Nodup)
    (out : p ∉ st.partials) : (st.addPartial p tail).partials.Nodup := by
  cases tail
  · exact List.nodup_cons.mpr ⟨out, nodup⟩
  · simp only [State.addPartial, if_true]
    refine List.nodup_append.mpr ⟨nodup, List.nodup_singleton _, ?_⟩
    rintro a first b second rfl
    rw [List.mem_singleton.mp second] at first
    exact out first

/-- A page with free slots joins the list. -/
theorem PartialList.add {st st' : State} (h : PartialList st) {p : Nat} (tail : Bool) (out : p ∉ st.partials)
    (slabs : ∀ q, q ≠ p → ((∃ k, (q, k) ∈ st'.slabs) ↔ ∃ k, (q, k) ∈ st.slabs))
    (pages : ∀ q, q ≠ p → st'.pages q = st.pages q)
    (here : (∃ k, (p, k) ∈ st'.slabs) ∧ (st'.pages p).frozen = false ∧ (st'.pages p).freelist ≠ none)
    (partials : st'.partials = (st.addPartial p tail).partials) (count : st'.nrPartial = st.nrPartial + 1) :
    PartialList st' where
  nodup := by
    rw [partials]
    exact nodup_addPartial tail h.nodup out
  mem_iff q := by
    rw [partials, mem_addPartial]
    by_cases same : q = p
    · subst same
      exact iff_of_true (.inl rfl) here
    · rw [slabs q same, pages q same, h.mem_iff]
      exact or_iff_right same
  count := by
    rw [partials, count, h.count]
    cases tail <;> simp [State.addPartial]

/-- A page leaves the list. -/
theorem PartialList.remove {st st' : State} (h : PartialList st) {p : Nat} (member : p ∈ st.partials)
    (slabs : ∀ q, q ≠ p → ((∃ k, (q, k) ∈ st'.slabs) ↔ ∃ k, (q, k) ∈ st.slabs))
    (pages : ∀ q, q ≠ p → st'.pages q = st.pages q)
    (gone : ¬ ((∃ k, (p, k) ∈ st'.slabs) ∧ (st'.pages p).frozen = false ∧ (st'.pages p).freelist ≠ none))
    (partials : st'.partials = st.partials.erase p) (count : st'.nrPartial = st.nrPartial - 1) :
    PartialList st' where
  nodup := by
    rw [partials]
    exact h.nodup.erase p
  mem_iff q := by
    rw [partials, h.nodup.mem_erase_iff]
    by_cases same : q = p
    · subst same
      exact iff_of_false (fun both => both.1 rfl) gone
    · rw [slabs q same, pages q same, h.mem_iff]
      exact and_iff_right same
  count := by rw [partials, count, h.count, List.length_erase_of_mem member]

section

variable {s : Cache} {st : State} {live : List Slot} {place : Slot → Place}

theorem Inv.slab_unique (h : Inv s st live place) {p k k' : Nat} (first : (p, k) ∈ st.slabs)
    (second : (p, k') ∈ st.slabs) : k = k' := by
  by_contra ne
  have apart : Apart (p, k) (p, k') := by
    have symm : Std.Symm (fun b c => Apart b c) := ⟨fun b c => Or.symm⟩
    exact h.apart.forall first second (by simp [ne])
  have := Nat.two_pow_pos k
  have := Nat.two_pow_pos k'
  simp only [Apart] at apart
  omega

/-- The cpu lists after a change of one cpu. -/
theorem forall_setCpu {P : Nat → CpuSlab → Prop} {cpus : Nat → CpuSlab} {cpu : Nat} {c : CpuSlab}
    (changed : P cpu c) (rest : ∀ d, d ≠ cpu → P d (cpus d)) (d : Nat) :
    P d (Function.update cpus cpu c d) := by
  by_cases same : d = cpu
  · subst same
    rwa [Function.update_self]
  · rw [Function.update_of_ne same]
    exact rest d same

/-- A slot that moves between places inside its slab. -/
theorem Inv.slots_update (h : Inv s st live place) {o : Slot} (here : place o ≠ .outside) {x : Place}
    (there : x ≠ .outside) (q : Slot) : Function.update place o x q ≠ .outside ↔
      ∃ k, (q.page, k) ∈ st.slabs ∧ q.idx < orderObjects k s.size := by
  by_cases same : q = o
  · subst same
    rw [Function.update_self]
    exact iff_of_true there ((h.slots q).mp here)
  · rw [Function.update_of_ne same]
    exact h.slots q

theorem update_place_iff {o q : Slot} {x y : Place} (before : place o ≠ y) (after : x ≠ y) :
    Function.update place o x q = y ↔ place q = y := by
  by_cases same : q = o
  · subst same
    rw [Function.update_self]
    exact iff_of_false after before
  · rw [Function.update_of_ne same]

theorem LiveList.cons (h : LiveList live place) {o : Slot} (free : place o ≠ .live) :
    LiveList (o :: live) (Function.update place o .live) := by
  refine ⟨List.nodup_cons.mpr ⟨fun member => free ((h.mem_iff o).mp member), h.nodup⟩, fun q => ?_⟩
  by_cases same : q = o
  · subst same
    simp
  · rw [List.mem_cons, Function.update_of_ne same, h.mem_iff]
    exact or_iff_right same

theorem LiveList.erase (h : LiveList live place) (o : Slot) {x : Place} (free : x ≠ .live) :
    LiveList (live.erase o) (Function.update place o x) := by
  refine ⟨h.nodup.erase o, fun q => ?_⟩
  rw [h.nodup.mem_erase_iff, h.mem_iff]
  by_cases same : q = o
  · subst same
    simp [free]
  · rw [Function.update_of_ne same]
    exact and_iff_right same

/-! ## Counting -/

private theorem idx_nodup {l : List Slot} {p : Nat} (nodup : l.Nodup) (here : ∀ o ∈ l, o.page = p) :
    (l.map Slot.idx).Nodup := by
  refine (List.nodup_map_iff_inj_on nodup).mpr (fun a first b second same => ?_)
  have pages := (here a first).trans (here b second).symm
  cases a
  cases b
  simp_all

theorem slots_length_le {l : List Slot} {p n : Nat} (nodup : l.Nodup)
    (here : ∀ o ∈ l, o.page = p ∧ o.idx < n) : l.length ≤ n := by
  have subset : l.map Slot.idx ⊆ List.range n := by
    intro i member
    obtain ⟨o, inside, rfl⟩ := List.mem_map.mp member
    exact List.mem_range.mpr (here o inside).2
  have := ((idx_nodup nodup (fun o member => (here o member).1)).subperm subset).length_le
  simpa using this

theorem Inv.idx_lt (h : Inv s st live place) {o : Slot} {k : Nat} (slab : (o.page, k) ∈ st.slabs)
    (inside : place o ≠ .outside) : o.idx < orderObjects k s.size := by
  obtain ⟨k', slab', lt⟩ := (h.slots o).mp inside
  rwa [h.slab_unique slab slab']

theorem Inv.slab_of (h : Inv s st live place) {o : Slot} (inside : place o ≠ .outside) :
    ∃ k, (o.page, k) ∈ st.slabs := by
  obtain ⟨k, slab, -⟩ := (h.slots o).mp inside
  exact ⟨k, slab⟩

theorem Inv.objects_bound (h : Inv s st live place) {p k : Nat} (slab : (p, k) ∈ st.slabs) :
    0 < (st.pages p).objects ∧ (st.pages p).objects ≤ 32767 := by
  rw [h.objects p k slab]
  exact s.objects_bounds k (h.orders _ slab)

/-- A page with an object that is not on its freelist has one in use. -/
theorem Inv.inuse_pos (h : Inv s st live place) {o : Slot} (inside : place o ≠ .outside)
    (off : place o ≠ .page) : 0 < (st.pages o.page).inuse := by
  obtain ⟨k, slab⟩ := h.slab_of inside
  obtain ⟨l, -, nodup, mem, count⟩ := h.pageLists _ k slab
  have more : (o :: l).length ≤ orderObjects k s.size := by
    have out : o ∉ l := fun member => off ((mem o).mp member).2
    refine slots_length_le (List.nodup_cons.mpr ⟨out, nodup⟩) (p := o.page) (fun q member => ?_)
    obtain rfl | member := List.mem_cons.mp member
    · exact ⟨rfl, h.idx_lt slab inside⟩
    · obtain ⟨page, there⟩ := (mem q).mp member
      rw [← page] at slab
      exact ⟨page, h.idx_lt slab (by simp [there])⟩
  rw [h.objects _ k slab] at count
  simp only [List.length_cons] at more
  omega

theorem decInuse_of_pos {n : Nat} (pos : 0 < n) (bound : n ≤ 32767) : decInuse n = n - 1 := by
  simp only [decInuse]
  omega

theorem Inv.inuse_le (h : Inv s st live place) {p k : Nat} (slab : (p, k) ∈ st.slabs) :
    (st.pages p).inuse ≤ (st.pages p).objects := by
  obtain ⟨l, -, -, -, count⟩ := h.pageLists p k slab
  omega

theorem Inv.decInuse_eq (h : Inv s st live place) {o : Slot} (inside : place o ≠ .outside)
    (off : place o ≠ .page) : decInuse (st.pages o.page).inuse = (st.pages o.page).inuse - 1 := by
  obtain ⟨k, slab⟩ := h.slab_of inside
  have := h.inuse_le slab
  have := h.objects_bound slab
  exact decInuse_of_pos (h.inuse_pos inside off) (by omega)

/-! ## Moves -/

/-- The first object of a cpu's freelist is handed out. -/
theorem Inv.popCpu (h : Inv s st live place) {c : Nat} {o : Slot} (first : (st.cpus c).freelist = some o) :
    Inv s (st.setCpu c { st.cpus c with freelist := st.fp o }) (o :: live) (Function.update place o .live) ∧
      place o = .cpu c := by
  obtain ⟨l, linked, nodup, mem, page⟩ := h.cpuLists c
  rw [first] at linked
  obtain ⟨rest, rfl, tail⟩ := Linked.some_iff.mp linked
  have here : place o = .cpu c := (mem o).mp (by simp)
  refine ⟨{ h with
    slots := h.slots_update (by simp [here]) (by simp)
    pageLists := fun p k slab => (h.pageLists p k slab).congr
      (fun q _ => update_place_iff (by simp [here]) (by simp)) (fun _ _ _ => rfl) rfl rfl rfl
    cpuLists := ?_
    owners := h.owners.congr rfl (field_update CpuSlab.page rfl) (fun _ => rfl)
    partials := ⟨h.partials.nodup, h.partials.mem_iff, h.partials.count⟩
    liveList := h.liveList.cons (by simp [here]) }, here⟩
  refine forall_setCpu ⟨rest, tail, (List.nodup_cons.mp nodup).2, fun q => ?_,
    fun q member => page q (by simp [member])⟩ (fun d ne => ?_)
  · have old := mem q
    by_cases same : q = o
    · subst same
      simp [(List.nodup_cons.mp nodup).1]
    · rw [Function.update_of_ne same, ← old]
      simp [same]
  · exact (h.cpuLists d).congr (fun q => update_place_iff (by simp [here, Ne.symm ne]) (by simp))
      (fun _ _ => rfl)

/-- The owner of an object writes to it. -/
theorem Inv.write (h : Inv s st live place) {o : Slot} (owned : place o = .live) (word : Option Slot) :
    Inv s (st.setFreepointer o word) live place := by
  have words {q : Slot} (other : place q ≠ .live) : Function.update st.fp o word q = st.fp q := by
    rw [Function.update_of_ne]
    rintro rfl
    exact other owned
  exact { h with
    pageLists := fun p k slab => (h.pageLists p k slab).congr (fun _ _ => Iff.rfl)
      (fun q _ there => words (by simp [there])) rfl rfl rfl
    cpuLists := fun d => (h.cpuLists d).congr (fun _ => Iff.rfl) (fun q there => words (by simp [there]))
    owners := h.owners.congr rfl (fun _ => rfl) (fun _ => rfl)
    partials := h.partials.congr rfl (fun _ _ _ => Iff.rfl) rfl rfl }

/-- An object is put on the freelist of the page of a cpu. -/
theorem Inv.pushCpu (h : Inv s st live place) {c : Nat} {o : Slot} (owned : place o = .live)
    (page : (st.cpus c).page = some o.page) :
    Inv s ((st.setFreepointer o (st.cpus c).freelist).setCpu c { st.cpus c with freelist := some o })
      (live.erase o) (Function.update place o (.cpu c)) := by
  have words {q : Slot} (other : place q ≠ .live) {word : Option Slot} :
      Function.update st.fp o word q = st.fp q := by
    rw [Function.update_of_ne]
    rintro rfl
    exact other owned
  exact { h with
    slots := h.slots_update (by simp [owned]) (by simp)
    pageLists := fun p k slab => (h.pageLists p k slab).congr
      (fun q _ => update_place_iff (by simp [owned]) (by simp)) (fun q _ there => words (by simp [there]))
      rfl rfl rfl
    cpuLists := by
      refine forall_setCpu ?_ (fun d ne => ?_)
      · obtain ⟨l, linked, nodup, mem, pages⟩ := h.cpuLists c
        have out : o ∉ l := fun member => by simpa [owned] using (mem o).mp member
        refine ⟨o :: l, linked.push out, List.nodup_cons.mpr ⟨out, nodup⟩, fun q => ?_, ?_⟩
        · by_cases same : q = o
          · subst same
            simp
          · rw [Function.update_of_ne same, ← mem]
            simp [same]
        · simpa [page] using pages
      · exact (h.cpuLists d).congr (fun q => update_place_iff (by simp [owned]) (by simp [Ne.symm ne]))
          (fun q there => words (by simp [there]))
    owners := h.owners.congr rfl (field_update CpuSlab.page rfl) (fun _ => rfl)
    partials := h.partials.congr rfl (fun _ _ _ => Iff.rfl) rfl rfl
    liveList := h.liveList.erase o (by simp) }

/-- The state after an object went to the freelist of its page. -/
def State.pushPage (st : State) (o : Slot) : State :=
  let p := st.pages o.page
  let new := (st.setFreepointer o p.freelist).setPage o.page
    { p with freelist := some o, inuse := p.inuse - 1 }
  if p.frozen = false ∧ p.freelist = none then new.addPartial o.page true else new

theorem PartialList.pushPage (h : PartialList st) {o : Slot} {k : Nat} (slab : (o.page, k) ∈ st.slabs) :
    PartialList (st.pushPage o) := by
  have others {q : Nat} (ne : q ≠ o.page) {p : SlabPage} : Function.update st.pages o.page p q = st.pages q :=
    Function.update_of_ne ne _ _
  simp only [State.pushPage]
  split
  next both =>
    obtain ⟨free, empty⟩ := both
    refine h.add true (fun member => ((h.mem_iff _).mp member).2.2 empty) (fun _ _ => Iff.rfl)
      (fun q ne => others ne) ⟨⟨k, slab⟩, ?_⟩ rfl rfl
    simp [State.addPartial, State.setPage, State.setFreepointer, free]
  next stays =>
    refine h.congr rfl (fun q k' slab' => ?_) rfl rfl
    by_cases same : q = o.page
    · subst same
      simp only [State.setPage, State.setFreepointer, Function.update_self]
      simp only [not_and] at stays
      simp only [ne_eq, reduceCtorEq, not_false_eq_true, and_true]
      exact ⟨fun free => ⟨free, stays free⟩, And.left⟩
    · simp only [State.setPage, State.setFreepointer, others same]

theorem State.pushPage_fields (st : State) (o : Slot) :
    (st.pushPage o).slabs = st.slabs ∧ (st.pushPage o).cpus = st.cpus ∧
    (st.pushPage o).fp = Function.update st.fp o (st.pages o.page).freelist ∧
    (st.pushPage o).pages = Function.update st.pages o.page
      { st.pages o.page with freelist := some o, inuse := (st.pages o.page).inuse - 1 } := by
  simp only [State.pushPage]
  split <;> exact ⟨rfl, rfl, rfl, rfl⟩

theorem Inv.pushPage (h : Inv s st live place) {o : Slot} (owned : place o = .live) :
    Inv s (st.pushPage o) (live.erase o) (Function.update place o .page) := by
  obtain ⟨k, slab⟩ := h.slab_of (o := o) (by simp [owned])
  have pos := h.inuse_pos (o := o) (by simp [owned]) (by simp [owned])
  obtain ⟨slabs, cpus, fp, pages⟩ := st.pushPage_fields o
  have words {q : Slot} (other : place q ≠ .live) : (st.pushPage o).fp q = st.fp q := by
    rw [fp, Function.update_of_ne]
    rintro rfl
    exact other owned
  refine
    { apart := by rw [slabs]; exact h.apart
      orders := by rw [slabs]; exact h.orders
      objects := fun p k slab => ?_
      slots := by rw [slabs]; exact h.slots_update (by simp [owned]) (by simp)
      pageLists := fun p k slab => ?_
      cpuLists := fun d => ?_
      owners := h.owners.congr slabs (fun d => by rw [cpus]) (fun p => by
        rw [pages]
        apply field_update SlabPage.frozen
        rfl)
      partials := h.partials.pushPage slab
      liveList := h.liveList.erase o (by simp) }
  · rw [slabs] at slab
    rw [pages, ← h.objects p k slab]
    apply field_update SlabPage.objects
    rfl
  · rw [slabs] at slab
    by_cases same : p = o.page
    · subst same
      obtain ⟨l, linked, nodup, mem, count⟩ := h.pageLists _ k slab
      have out : o ∉ l := fun member => by simpa [owned] using ((mem o).mp member).2
      rw [fp, pages, Function.update_self]
      refine ⟨o :: l, linked.push out, List.nodup_cons.mpr ⟨out, nodup⟩, fun q => ?_, ?_⟩
      · by_cases same : q = o
        · subst same
          simp
        · rw [Function.update_of_ne same, ← mem]
          simp [same]
      · simp only [List.length_cons]
        omega
    · rw [pages, Function.update_of_ne same]
      refine (h.pageLists p k slab).congr (fun q page => ?_) (fun q _ there => words (by simp [there]))
        rfl rfl rfl
      rw [Function.update_of_ne]
      rintro rfl
      exact same page.symm
  · rw [cpus]
    exact (h.cpuLists d).congr (fun q => update_place_iff (by simp [owned]) (by simp))
      (fun q there => words (by simp [there]))

end

end Miracle.Slub
