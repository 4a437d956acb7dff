import Miracle.PageAlloc.History

/-! # What an allocation takes

A block comes from the least order that has one and is split down to the order asked for.  A single page comes from the
list of the cpu, which is filled first when it is empty.  So there is a block exactly when the lists hold one.
-/

namespace Miracle.PageAlloc

open PowBlock

/-- `j` is the least order from `k` on with a free block. -/
structure LeastFree (st : State) (z : ZoneType) (k j : Nat) : Prop where
  le : k ≤ j
  lt : j < maxOrder
  some : st.freeList z j ≠ []
  least : ∀ i, k ≤ i → i < j → st.freeList z i = []

/-- The first block of order `j` has left the lists, and its upper halves down to order `k` are on them. -/
structure Split (st st' : State) (z : ZoneType) (k j page : Nat) : Prop where
  taken : st.freeList z j = page :: st'.freeList z j
  added : ∀ i, k ≤ i → i < j → st'.freeList z i = (page + 2 ^ i) :: st.freeList z i
  kept : ∀ z' i, ¬ (z' = z ∧ k ≤ i ∧ i ≤ j) → st'.freeList z' i = st.freeList z' i

/-- A list that a request for a block of order `k` may use is not empty. -/
def Servable (st : State) (cpu : Nat) (z : ZoneType) (k : Nat) : Prop :=
  (∃ j, k ≤ j ∧ j < maxOrder ∧ st.freeList z j ≠ []) ∨
    (k = 0 ∧ (st.pagesets (st.zones z).pageset cpu).lists ≠ [])

theorem exists_leastFree {st : State} {z : ZoneType} {k j : Nat} (le : k ≤ j) (lt : j < maxOrder)
    (some : st.freeList z j ≠ []) : ∃ j, LeastFree st z k j := by
  classical
  have found : ∃ j, k ≤ j ∧ j < maxOrder ∧ st.freeList z j ≠ [] := ⟨j, le, lt, some⟩
  obtain ⟨le', lt', some'⟩ := Nat.find_spec found
  refine ⟨Nat.find found, le', lt', some', fun i low below => ?_⟩
  by_contra other
  exact Nat.find_min found below ⟨low, below.trans lt', other⟩

/-! ## The buddy lists -/

theorem addFree_freeList (st : State) (z : ZoneType) (k p : Nat) (z' : ZoneType) (i : Nat) :
    (st.addFree z k p false).freeList z' i = if z' = z ∧ i = k then p :: st.freeList z k else st.freeList z' i := by
  rw [State.freeList, State.addFree, modifyArea_freeArea]
  split
  · rfl
  · rfl

theorem delFree_freeList (st : State) (z : ZoneType) (k p : Nat) (z' : ZoneType) (i : Nat) :
    (st.delFree z k p).freeList z' i = if z' = z ∧ i = k then (st.freeList z k).erase p else st.freeList z' i := by
  rw [State.freeList, State.delFree, modifyArea_freeArea]
  split
  · rfl
  · rfl

/-- `expand` adds one block to the list of each order it passes. -/
theorem expand_freeList (z : ZoneType) (page low : Nat) : ∀ (high : Nat) (st : State) (z' : ZoneType) (i : Nat),
    (expand z page low high st).freeList z' i =
      if z' = z ∧ low ≤ i ∧ i < high then (page + 2 ^ i) :: st.freeList z i else st.freeList z' i := by
  intro high
  induction high with
  | zero =>
      intro st z' i
      rw [if_neg (by omega)]
      rfl
  | succ high ih =>
      intro st z' i
      rw [expand]
      split
      · have added (z' : ZoneType) (i : Nat) :
            ((st.addFree z high (page + 1 <<< high) false).setPageOrder (page + 1 <<< high) high).freeList z' i =
              if z' = z ∧ i = high then (page + 1 <<< high) :: st.freeList z high else st.freeList z' i :=
          addFree_freeList st z high _ z' i
        rw [ih, added, added, Nat.one_shiftLeft]
        by_cases here : z' = z ∧ i = high
        · obtain ⟨rfl, rfl⟩ := here
          simp
          omega
        · by_cases zone : z' = z
          · subst zone
            have ne : i ≠ high := fun same => here ⟨rfl, same⟩
            have below : i < high + 1 ↔ i < high := by omega
            simp only [ne, below, and_false, if_false, true_and]
          · simp only [zone, false_and, if_false]
      · rw [if_neg (by omega)]

theorem expand_pagesets (z : ZoneType) (page low : Nat) : ∀ (high : Nat) (st : State),
    (expand z page low high st).pagesets = st.pagesets := by
  intro high
  induction high with
  | zero => exact fun _ => rfl
  | succ high ih =>
      intro st
      rw [expand]
      split
      · exact ih _
      · rfl

theorem rmqueueSmallestLoop_none {st : State} {z : ZoneType} {order : Nat} : ∀ {n currentOrder : Nat},
    (∀ i, currentOrder ≤ i → i < currentOrder + n → st.freeList z i = []) →
      rmqueueSmallestLoop z order n currentOrder st = (st, none) := by
  intro n
  induction n with
  | zero => exact fun _ => rfl
  | succ n ih =>
      intro currentOrder empty
      rw [rmqueueSmallestLoop, empty currentOrder le_rfl (by omega)]
      exact ih (fun i low high => empty i (by omega) (by omega))

theorem rmqueueSmallestLoop_some {st : State} {z : ZoneType} {order j page : Nat} {rest : List Nat}
    (list : st.freeList z j = page :: rest) : ∀ {n currentOrder : Nat}, currentOrder ≤ j → j < currentOrder + n →
      (∀ i, currentOrder ≤ i → i < j → st.freeList z i = []) →
      rmqueueSmallestLoop z order n currentOrder st =
        (expand z page order j ((st.delFree z j page).rmvPageOrder page), some page) := by
  intro n
  induction n with
  | zero =>
      intro currentOrder le lt
      omega
  | succ n ih =>
      intro currentOrder le lt empty
      rw [rmqueueSmallestLoop]
      by_cases here : currentOrder = j
      · subst here
        rw [list]
      · rw [empty currentOrder le_rfl (by omega)]
        exact ih (by omega) (by omega) (fun i low high => empty i (by omega) high)

section

variable {env : Env} {st : State} {live : List (Nat × Nat)} {owner : Nat → Owner} {z : ZoneType} {k : Nat}

theorem rmqueueSmallest_none (ready : (st.zones z).initialized = true) (lt : k < maxOrder)
    (empty : ∀ j, k ≤ j → j < maxOrder → st.freeList z j = []) : rmqueueSmallest st z k = .ok (st, none) := by
  rw [rmqueueSmallest, if_neg (by simp [ready]), rmqueueSmallestLoop_none]
  intro i low high
  exact empty i low (by omega)

/-- The block comes from the least order and is split. -/
theorem rmqueueSmallest_some (ready : (st.zones z).initialized = true) {j : Nat} (least : LeastFree st z k j) :
    ∃ st' page, rmqueueSmallest st z k = .ok (st', some page) ∧ Split st st' z k j page ∧ st'.pagesets = st.pagesets := by
  obtain ⟨page, rest, list⟩ := List.exists_cons_of_ne_nil least.some
  have erased (z' : ZoneType) (i : Nat) : ((st.delFree z j page).rmvPageOrder page).freeList z' i =
      if z' = z ∧ i = j then rest else st.freeList z' i := by
    have deleted := delFree_freeList st z j page z' i
    rw [list, List.erase_cons_head] at deleted
    exact deleted
  refine ⟨expand z page k j ((st.delFree z j page).rmvPageOrder page), page, ?_, ⟨?_, ?_, ?_⟩, expand_pagesets ..⟩
  · have le := least.le
    have lt := least.lt
    rw [rmqueueSmallest, if_neg (by simp [ready]), rmqueueSmallestLoop_some list le (by omega) least.least]
  · rw [expand_freeList, if_neg (by omega), erased, if_pos ⟨rfl, rfl⟩, list]
  · intro i low below
    rw [expand_freeList, if_pos ⟨rfl, low, below⟩, erased, if_neg (by omega)]
  · intro z' i out
    have le := least.le
    rw [expand_freeList, if_neg (fun hit => out ⟨hit.1, hit.2.1, by omega⟩), erased,
      if_neg (fun hit => out ⟨hit.1, by omega, by omega⟩)]

/-! ## Single pages -/

theorem rmqueueBulk_ok {order count : Nat} : ∀ {st : State} {list : List Nat} {alloced : Nat},
    (st.zones z).initialized = true → ∃ r, rmqueueBulk z order count st list alloced = .ok r ∧
      list.length ≤ r.2.1.length := by
  induction count with
  | zero => exact fun _ => ⟨_, rfl, le_rfl⟩
  | succ count ih =>
      intro st list alloced ready
      have first : rmqueueSmallest st z order = .ok (rmqueueSmallestLoop z order (maxOrder - order) order st) := by
        rw [rmqueueSmallest, if_neg (by simp [ready])]
      have ready' : ((rmqueueSmallestLoop z order (maxOrder - order) order st).1.zones z).initialized = true :=
        ((rmqueueSmallest_steady first).zones z).1.trans ready
      rw [rmqueueBulk, first, ok_bind]
      generalize rmqueueSmallestLoop z order (maxOrder - order) order st = result at ready'
      obtain ⟨st1, found⟩ := result
      cases found with
      | none => exact ⟨_, rfl, le_rfl⟩
      | some page =>
          simp only
          split
          · exact ih ready'
          · obtain ⟨r, done, long⟩ := @ih st1 (list ++ [page]) (alloced + 1) ready'
            rw [List.length_append] at long
            exact ⟨r, done, by omega⟩

theorem popPcp_some {id : PagesetId} {cpu : Nat} (some : (st.pagesets id cpu).lists ≠ []) :
    ∃ st' page, popPcp st id cpu = (st', .some page) := by
  obtain ⟨page, rest, list⟩ := List.exists_cons_of_ne_nil some
  rw [popPcp, list]
  exact ⟨_, page, rfl⟩

/-- The list of the cpu has a page. -/
theorem rmqueuePcplist_listed {cpu : Nat} (some : (st.pagesets (st.zones z).pageset cpu).lists ≠ []) :
    ∃ st' page, rmqueuePcplist st cpu z = .ok (st', .some page) := by
  obtain ⟨st', page, popped⟩ := popPcp_some some
  refine ⟨st', page, ?_⟩
  rw [rmqueuePcplist]
  simp only [if_neg some, pure_eq_ok, ok_bind, popped]

/-- The list of the cpu is empty and a free list is not. -/
theorem rmqueuePcplist_refilled (h : Inv env st live owner) {cpu j : Nat} (ready : (st.zones z).initialized = true)
    (empty : (st.pagesets (st.zones z).pageset cpu).lists = [])
    (refills : 1 ≤ (st.pagesets (st.zones z).pageset cpu).batch) (lt : j < maxOrder) (some : st.freeList z j ≠ []) :
    ∃ st' page, rmqueuePcplist st cpu z = .ok (st', .some page) := by
  obtain ⟨i, least⟩ := exists_leastFree (Nat.zero_le j) lt some
  obtain ⟨st1, page, taken, -, -⟩ := rmqueueSmallest_some ready least
  obtain ⟨owner1, got⟩ := h.taken (by decide) taken
  have clean : Clean z (st1.pages page) := (got.inside page (inBlock_self _ _) ▸ got.inv.pages page :)
  obtain ⟨count, batch⟩ := Nat.exists_eq_add_of_le' refills
  obtain ⟨⟨st2, list, alloced⟩, rest, long⟩ := @rmqueueBulk_ok z 0 count st1 [page] 1
    (((rmqueueSmallest_steady taken).zones z).1.trans ready)
  have bulk : rmqueueBulk z 0 (st.pagesets (st.zones z).pageset cpu).batch st [] 0 = .ok (st2, list, alloced) := by
    rw [batch, rmqueueBulk, taken, ok_bind]
    simp only [clean.checkNewPage, Bool.false_eq_true, if_false]
    exact rest
  have filled : ((st2.modifyPcp (st.zones z).pageset cpu (fun pcp =>
      { pcp with lists := list, count := pcp.count + alloced })).pagesets (st.zones z).pageset cpu).lists ≠ [] := by
    rw [modifyPcp_pagesets, if_pos ⟨rfl, rfl⟩]
    intro none
    rw [show list = [] from none] at long
    simp at long
  obtain ⟨st', page', popped⟩ := popPcp_some filled
  refine ⟨st', page', ?_⟩
  rw [rmqueuePcplist]
  simp only [empty, if_true, bulk, ok_bind, popped, pure_eq_ok]

/-- There is no page: nothing has changed. -/
theorem rmqueuePcplist_none {cpu : Nat} (ready : (st.zones z).initialized = true)
    (empty : (st.pagesets (st.zones z).pageset cpu).lists = []) (none : ∀ j, j < maxOrder → st.freeList z j = []) :
    rmqueuePcplist st cpu z = .ok (st, .none) := by
  have bulk (count : Nat) : rmqueueBulk z 0 count st [] 0 = .ok (st, [], 0) := by
    cases count with
    | zero => rfl
    | succ count =>
        rw [rmqueueBulk, rmqueueSmallest_none ready (by decide) (fun j _ lt => none j lt), ok_bind]
        rfl
  have same : st.modifyPcp (st.zones z).pageset cpu (fun pcp =>
      { pcp with lists := [], count := pcp.count + (0 : Nat) }) = st := by
    have stays : ({ st.pagesets (st.zones z).pageset cpu with
        lists := [], count := (st.pagesets (st.zones z).pageset cpu).count + (0 : Nat) } : Pcp) =
          st.pagesets (st.zones z).pageset cpu := by
      rw [← empty]
      simp
    rw [State.modifyPcp, stays, Function.update_eq_self, Function.update_eq_self]
  rw [rmqueuePcplist]
  simp only [empty, if_true, bulk, ok_bind, same, popPcp, pure_eq_ok]

/-! ## Allocations -/

theorem rmqueue_large (h : Inv env st live owner) {cpu : Nat} (large : k ≠ 0) (lt : k < maxOrder) :
    rmqueue st cpu z k = rmqueueSmallest st z k := by
  rw [rmqueue, if_neg large]
  exact rmqueueLoop_eq (2 ^ 64 - 1) h lt

theorem allocPages_none {cpu : Nat} {gfp : BitVec 32} (lt : k < maxOrder)
    (none : rmqueue st cpu (gfpZone gfp) k = .ok (st, .none)) : allocPages st cpu gfp k = .ok (st, .none) := by
  rw [allocPages, if_neg (by omega), none]
  rfl

/-- The block that is found is prepared and returned. -/
theorem allocPages_some (h : Inv env st live owner) (home : Home st owner) {cpu : Nat} {gfp : BitVec 32}
    (lt : k < maxOrder) {st1 : State} {page : Nat} (found : rmqueue st cpu (gfpZone gfp) k = .ok (st1, some page)) :
    ∃ st', allocPages st cpu gfp k = .ok (st', some page) ∧ st'.zones = st1.zones ∧ st'.pagesets = st1.pagesets := by
  have spec := @rmqueue_spec env st live owner (gfpZone gfp) k h home cpu lt
  rw [found] at spec
  rcases spec with ⟨none, -⟩ | ⟨page', owner1, same, inv, -, -, inside, -⟩
  · cases none
  · cases same
    obtain ⟨st', prep, zones, pagesets, -⟩ := @prepNewPage_spec env st1 (gfpZone gfp) page k
      (fun a hit => ((inside a hit).1 ▸ inv.pages a :))
    refine ⟨st', ?_, zones, pagesets⟩
    rw [allocPages, if_neg (by omega), found, ok_bind]
    simp only [prep, ok_bind, pure_eq_ok]

/-- A zone that was never set up has no page to give. -/
theorem Inv.unready (h : Inv env st live owner) (home : Home st owner) (unready : ¬ (st.zones z).initialized = true) :
    (∀ j, st.freeList z j = []) ∧ ∀ cpu, (st.pagesets (st.zones z).pageset cpu).lists = [] := by
  constructor
  · intro j
    apply List.eq_nil_iff_forall_not_mem.mpr
    intro p listed
    have held := (h.freeLists.mem_iff z j p).mp listed
    exact unready (h.initialized p z (by rw [held]; rfl))
  · intro cpu
    apply List.eq_nil_iff_forall_not_mem.mpr
    intro p listed
    have held := (home.list h cpu p listed).1
    exact unready (h.initialized p z (by rw [held]; rfl))

theorem rmqueue_unready (h : Inv env st live owner) (home : Home st owner) {cpu : Nat} (refills : Refills st)
    (unready : ¬ (st.zones z).initialized = true) (lt : k < maxOrder) :
    rmqueue st cpu z k = .error .uninitializedList := by
  have stops (order : Nat) : rmqueueSmallest st z order = .error .uninitializedList := if_pos (by simpa using unready)
  by_cases single : k = 0
  · subst single
    obtain ⟨count, batch⟩ := Nat.exists_eq_add_of_le' (refills (st.zones z).pageset cpu)
    rw [rmqueue, if_pos rfl, rmqueuePcplist]
    simp only [(h.unready home unready).2 cpu, if_true, batch]
    rw [rmqueueBulk, stops]
    rfl
  · rw [rmqueue_large h single lt, stops]

/-- The four ways in which an allocation goes. -/
inductive AllocCase (st : State) (cpu : Nat) (gfp : BitVec 32) (k : Nat) : Except Bug (State × Option Nat) → Prop where
  | block {j page : Nat} {st' : State} : k ≠ 0 → LeastFree st (gfpZone gfp) k j → Split st st' (gfpZone gfp) k j page →
      st'.pagesets = st.pagesets → AllocCase st cpu gfp k (.ok (st', some page))
  | single {page : Nat} {st' : State} : k = 0 → Servable st cpu (gfpZone gfp) k →
      AllocCase st cpu gfp k (.ok (st', some page))
  | none : ¬ Servable st cpu (gfpZone gfp) k → AllocCase st cpu gfp k (.ok (st, none))
  | unready : ¬ Servable st cpu (gfpZone gfp) k → ¬ (st.zones (gfpZone gfp)).initialized = true →
      AllocCase st cpu gfp k (.error .uninitializedList)

theorem allocPages_case (h : Inv env st live owner) (home : Home st owner) (refills : Refills st) (cpu : Nat)
    (gfp : BitVec 32) (lt : k < maxOrder) : AllocCase st cpu gfp k (allocPages st cpu gfp k) := by
  by_cases ready : (st.zones (gfpZone gfp)).initialized = true
  · by_cases single : k = 0
    · subst single
      have single_eq : rmqueue st cpu (gfpZone gfp) 0 = rmqueuePcplist st cpu (gfpZone gfp) := if_pos rfl
      have served {st1 : State} {page : Nat} (able : Servable st cpu (gfpZone gfp) 0)
          (found : rmqueuePcplist st cpu (gfpZone gfp) = .ok (st1, some page)) :
          AllocCase st cpu gfp 0 (allocPages st cpu gfp 0) := by
        obtain ⟨st', done, -⟩ := allocPages_some h home (by decide) (single_eq.trans found)
        rw [done]
        exact .single rfl able
      by_cases listed : (st.pagesets (st.zones (gfpZone gfp)).pageset cpu).lists = []
      · by_cases free : ∃ j, 0 ≤ j ∧ j < maxOrder ∧ st.freeList (gfpZone gfp) j ≠ []
        · obtain ⟨j, -, below, some⟩ := free
          obtain ⟨st1, page, found⟩ := rmqueuePcplist_refilled h ready listed (refills _ cpu) below some
          exact served (.inl ⟨j, Nat.zero_le j, below, some⟩) found
        · have empty (j : Nat) (below : j < maxOrder) : st.freeList (gfpZone gfp) j = [] := by
            by_contra some
            exact free ⟨j, Nat.zero_le j, below, some⟩
          rw [allocPages_none lt (single_eq.trans (rmqueuePcplist_none ready listed empty))]
          apply AllocCase.none
          rintro (able | ⟨-, able⟩)
          · exact free able
          · exact able listed
      · obtain ⟨st1, page, found⟩ := rmqueuePcplist_listed listed
        exact served (.inr ⟨rfl, listed⟩) found
    · have large := @rmqueue_large env st live owner (gfpZone gfp) k h cpu single lt
      by_cases free : ∃ j, k ≤ j ∧ j < maxOrder ∧ st.freeList (gfpZone gfp) j ≠ []
      · obtain ⟨j, le, below, some⟩ := free
        obtain ⟨i, least⟩ := exists_leastFree le below some
        obtain ⟨st1, page, found, split, pagesets⟩ := rmqueueSmallest_some ready least
        obtain ⟨st', done, zones, pagesets'⟩ := allocPages_some h home lt (large.trans found)
        have lists (z : ZoneType) (i : Nat) : st'.freeList z i = st1.freeList z i := by
          rw [State.freeList, zones]
          rfl
        rw [done]
        refine .block single least ⟨?_, fun i low high => ?_, fun z i out => ?_⟩ (pagesets'.trans pagesets)
        · rw [lists]
          exact split.taken
        · rw [lists]
          exact split.added i low high
        · rw [lists]
          exact split.kept z i out
      · have empty (j : Nat) (le : k ≤ j) (below : j < maxOrder) : st.freeList (gfpZone gfp) j = [] := by
          by_contra some
          exact free ⟨j, le, below, some⟩
        rw [allocPages_none lt (large.trans (rmqueueSmallest_none ready lt empty))]
        apply AllocCase.none
        rintro (able | ⟨zero, -⟩)
        · exact free able
        · exact single zero
  · have stops : allocPages st cpu gfp k = .error .uninitializedList := by
      rw [allocPages, if_neg (by omega), rmqueue_unready h home refills ready lt]
      rfl
    obtain ⟨empty, empty'⟩ := h.unready home ready
    rw [stops]
    apply AllocCase.unready _ ready
    rintro (⟨j, -, -, able⟩ | ⟨-, able⟩)
    · exact able (empty j)
    · exact able (empty' cpu)

end

/-- Page allocation succeeds whenever the lists that it may use hold a page, takes the block from the least order that has
    one, and changes nothing when it fails. -/
theorem alloc_pages_serves {env : Env} {sys : System} (h : History env sys) (cpu : Nat) (gfp : BitVec 32) {k : Nat}
    (lt : k < maxOrder) :
    ((∃ st' page, allocPages sys.st cpu gfp k = .ok (st', some page)) ↔ Servable sys.st cpu (gfpZone gfp) k) ∧
    (∀ st' page, k ≠ 0 → allocPages sys.st cpu gfp k = .ok (st', some page) →
      ∃ j, LeastFree sys.st (gfpZone gfp) k j ∧ Split sys.st st' (gfpZone gfp) k j page ∧
        (∀ z i, ((st'.zones z).freeArea i).nrFree = (st'.freeList z i).length) ∧ st'.pagesets = sys.st.pagesets) ∧
    (∀ st', allocPages sys.st cpu gfp k = .ok (st', none) → st' = sys.st) ∧
    ((sys.st.zones (gfpZone gfp)).initialized = true → ∃ r, allocPages sys.st cpu gfp k = .ok r) := by
  obtain ⟨owner, inv⟩ := h.inv
  have counted (st' : State) (page : Nat) (done : allocPages sys.st cpu gfp k = .ok (st', some page)) (z : ZoneType)
      (i : Nat) : ((st'.zones z).freeArea i).nrFree = (st'.freeList z i).length := by
    have stepped : step env sys (.alloc cpu gfp k) = .ok { sys with st := st', live := (page, k) :: sys.live } := by
      rw [step, done]
      rfl
    have legal : Legal env sys (.alloc cpu gfp k) := trivial
    have returned : Returned sys (.alloc cpu gfp k) := trivial
    obtain ⟨owner', inv'⟩ := (h.step legal returned stepped).inv
    exact inv'.inv.freeLists.nrFree z i
  have outcome := allocPages_case inv.inv inv.home h.refills cpu gfp lt
  generalize allocPages sys.st cpu gfp k = result at outcome counted
  cases outcome with
  | @block j page st' large least split pagesets =>
      refine ⟨iff_of_true ⟨st', page, rfl⟩ (.inl ⟨j, least.le, least.lt, least.some⟩), ?_, ?_, fun _ => ⟨_, rfl⟩⟩
      · intro st'' page' _ same
        cases same
        exact ⟨j, least, split, counted st' page rfl, pagesets⟩
      · intro st'' same
        cases same
  | @single page st' zero able =>
      refine ⟨iff_of_true ⟨st', page, rfl⟩ able, fun _ _ large => absurd zero large, ?_, fun _ => ⟨_, rfl⟩⟩
      intro st'' same
      cases same
  | none unable =>
      have nothing {st' : State} {page : Nat} :
          (Except.ok (sys.st, Option.none) : Except Bug (State × Option Nat)) ≠ .ok (st', some page) := by
        intro same
        cases same
      refine ⟨iff_of_false ?_ unable, fun _ _ _ same => absurd same nothing, ?_, fun _ => ⟨_, rfl⟩⟩
      · rintro ⟨st', page, same⟩
        exact nothing same
      · intro st' same
        cases same
        rfl
  | unready unable not =>
      refine ⟨iff_of_false ?_ unable, ?_, ?_, fun ready => absurd ready not⟩
      · rintro ⟨st', page, same⟩
        cases same
      · intro st' page _ same
        cases same
      · intro st' same
        cases same

/-- Two of the eight frames that boot has handed over. -/
theorem flatRun_serves : ∃ sys, flatRun = .ok sys ∧ ∃ st' page, allocPages sys.st 0 0 2 = .ok (st', some page) := by
  obtain ⟨sys, done, -, -, -, twos⟩ := flatRun_returns
  have able : Servable sys.st 0 (gfpZone 0) 2 := .inl ⟨2, le_rfl, by decide, by
    change sys.st.freeList .normal 2 ≠ []
    simp [twos]⟩
  exact ⟨sys, done, (alloc_pages_serves (flatRun_reachable done).history 0 0 (by decide)).1.mpr able⟩

end Miracle.PageAlloc
