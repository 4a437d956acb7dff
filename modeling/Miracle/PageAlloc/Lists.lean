import Miracle.PageAlloc.Steady

/-! # The per-cpu lists

Pages of a zone's own pageset stay on its lists between operations.  The boot pageset is
shared by the zones and drained by every operation, so no page is left on it.
-/

namespace Miracle.PageAlloc

open PowBlock

/-- Held by the allocator, in a free block or on a per-cpu list. -/
def Owner.Pooled (o : Owner) : Prop := o.IsFree ∨ o.IsPcp

/-- The page stays with its owner or moves inside the allocator. -/
def Settled (o o' : Owner) : Prop := o' = o ∨ (o.Pooled ∧ o'.Pooled)

theorem Kept.settled {o o' : Owner} (h : Kept o o') : Settled o o' := by
  rcases h with same | ⟨free, free'⟩
  · exact .inl same
  · exact .inr ⟨.inl free, .inl free'⟩

theorem Settled.pooled {o o' : Owner} (h : Settled o o') (pool : o.Pooled) : o'.Pooled := by
  rcases h with rfl | ⟨-, pool'⟩
  · exact pool
  · exact pool'

/-- Pages on per-cpu lists are in the pageset of their own zone, which the zone uses. -/
structure Home (st : State) (owner : Nat → Owner) : Prop where
  homed : ∀ a id cpu z, owner a = .pcp id cpu z → id = .own z ∧ (st.zones z).pageset = .own z
  pageset : ∀ z, (st.zones z).pageset = .boot ∨ (st.zones z).pageset = .own z

/-- Pages have left the lists, but none has come. -/
theorem Home.of_noneListed {st st' : State} {owner owner' : Nat → Owner} (home : Home st owner)
    (pageset : ∀ z, (st'.zones z).pageset = (st.zones z).pageset) (none : NoneListed owner owner') : Home st' owner' := by
  refine ⟨fun a id cpu z held => ?_, fun z => ?_⟩
  · rw [pageset]
    exact home.homed a id cpu z (none a id cpu z held)
  · rw [pageset]
    exact home.pageset z

section

variable {env : Env} {st : State} {live : List (Nat × Nat)} {owner : Nat → Owner} {z : ZoneType}

/-- The pages on the list that an operation on the zone works with. -/
theorem Home.list (home : Home st owner) (h : Inv env st live owner) (cpu a : Nat)
    (member : a ∈ (st.pagesets (st.zones z).pageset cpu).lists) :
    owner a = .pcp (st.zones z).pageset cpu z ∧ (st.zones z).pageset = .own z := by
  obtain ⟨z', held⟩ := (h.pcpLists.mem_iff _ cpu a).mp member
  obtain ⟨own, -⟩ := home.homed a _ cpu z' held
  rcases home.pageset z with boot | mine
  · rw [boot] at own
    cases own
  · rw [mine] at own
    cases own
    exact ⟨held, mine⟩

/-! ## Draining -/

theorem freeEach_spec {pages : List Nat} (h : Inv env st live owner) (nodup : pages.Nodup)
    (loose : ∀ a ∈ pages, owner a = .raw z) :
    ∃ st' owner', freeEach env z pages st = .ok st' ∧ Inv env st' live owner' ∧ Frame st st' ∧
      (∀ a ∈ pages, (owner' a).IsFree) ∧ ∀ a, a ∉ pages → Kept (owner a) (owner' a) := by
  induction pages generalizing st owner with
  | nil => exact ⟨st, owner, rfl, h, .refl st, by simp, fun _ _ => .inl rfl⟩
  | cons page rest ih =>
      obtain ⟨absent, nodup⟩ := List.nodup_cons.mp nodup
      obtain ⟨st1, owner1, free, done⟩ := freeOnePage_spec h
        (fun a hit => by rw [(inBlock_zero page a).mp hit]; exact loose page (by simp))
        (by decide) (aligned_zero page)
      have other {a : Nat} (ne : a ≠ page) : Kept (owner a) (owner1 a) :=
        done.outside a (fun hit => ne ((inBlock_zero page a).mp hit))
      have loose1 : ∀ a ∈ rest, owner1 a = .raw z := fun a member => by
        have raw := loose a (by simp [member])
        rw [(other (fun same => absent (same ▸ member))).eq (by simp [raw]), raw]
      obtain ⟨st2, owner2, frees, inv, frame, inside, outside⟩ := ih done.inv nodup loose1
      refine ⟨st2, owner2, ?_, inv, done.frame.trans frame, fun a member => ?_, fun a out => ?_⟩
      · rw [freeEach, free, ok_bind, frees]
      · rcases List.mem_cons.mp member with rfl | member
        · have first := done.inside a (inBlock_self _ _)
          rcases outside a absent with same | ⟨-, free⟩
          · rw [same]
            exact first
          · exact free
        · exact inside a member
      · rw [List.mem_cons, not_or] at out
        exact (other out.1).trans (outside a out.2)

/-- The pages that a drain takes: from the end of the list, the last one first. -/
def Pcp.last (count : Nat) (pcp : Pcp) : List Nat := (pcp.lists.drop (pcp.lists.length - count)).reverse

/-- The list after a drain. -/
def Pcp.drain (count : Nat) (pcp : Pcp) : Pcp :=
  { pcp with lists := pcp.lists.take (pcp.lists.length - count), count := pcp.count - count }

/-- Pages that are clean are all taken. -/
theorem takePcpPages_eq {pages : Nat → Page} {count : Nat} {lists : List Nat} (head : List Nat)
    (clean : ∀ a ∈ lists, (pages a).freePagesCheck = 0) (enough : count ≤ lists.length) :
    takePcpPages pages count lists head =
      .ok (lists.take (lists.length - count), head ++ (lists.drop (lists.length - count)).reverse) := by
  induction count generalizing lists head with
  | zero => simp [takePcpPages]
  | succ count ih =>
      induction lists using List.reverseRecOn with
      | nil => simp at enough
      | append_singleton front page _ =>
          have good : (pages page).freePagesCheck = 0 := clean page (by simp)
          have front_clean : ∀ a ∈ front, (pages a).freePagesCheck = 0 :=
            fun a member => clean a (by simp [member])
          have few : count ≤ front.length := by simpa using enough
          have rest := ih (head ++ [page]) front_clean few
          have left : (front ++ [page]).length - (count + 1) = front.length - count := by simp
          simp only [takePcpPages, List.getLast?_append, List.getLast?_singleton, Option.some_or,
            List.dropLast_concat, good, ne_eq, not_true_eq_false, if_false]
          rw [rest, left, List.take_append_of_le_length (by omega), List.drop_append_of_le_length (by omega),
            List.reverse_append, List.append_assoc]
          rfl

/-- What a drain of `count` pages does: it takes them from the end of the list and frees each of them. -/
structure Drained (env : Env) (z : ZoneType) (id : PagesetId) (cpu count : Nat) (st st' : State) : Prop where
  enough : (count : Int) ≤ (st.pagesets id cpu).count
  length : ((st.pagesets id cpu).last count).length = count
  nodup : ((st.pagesets id cpu).last count).Nodup
  freed : freeEach env z ((st.pagesets id cpu).last count) (st.modifyPcp id cpu (Pcp.drain count)) = .ok st'
  pagesets : st'.pagesets = (st.modifyPcp id cpu (Pcp.drain count)).pagesets
  inBuddy : ∀ a ∈ (st.pagesets id cpu).last count, ∃ k p, p ∈ st'.freeList z k ∧ InBlock p k a

/-- What happens when a page has been put on a list: nothing more, or a drain of the batch. -/
structure Committed (env : Env) (z : ZoneType) (id : PagesetId) (cpu : Nat) (pushed st' : State) : Prop where
  stays : (pushed.pagesets id cpu).count < (pushed.pagesets id cpu).high → st' = pushed
  drains : (pushed.pagesets id cpu).high ≤ (pushed.pagesets id cpu).count →
    freePcppagesBulk env pushed z (pushed.pagesets id cpu).batch id cpu = .ok st' ∧
      Drained env z id cpu (pushed.pagesets id cpu).batch pushed st'

theorem Clean.freePagesCheck {page : Page} (h : Clean z page) : page.freePagesCheck = 0 := by
  simp [Page.freePagesCheck, Page.expectedState, h.refcount, h.flags, PageFlags.checkAtFree,
    PageFlags.none]

theorem Clean.checkNewPage {page : Page} (h : Clean z page) : page.checkNewPage = false := by
  simp [Page.checkNewPage, Page.expectedState, h.refcount, h.flags, PageFlags.checkAtPrep,
    PageFlags.none]

/-- The drain frees `count` pages of the list and leaves the others on it. -/
theorem freePcppagesBulk_spec {id : PagesetId} {cpu count : Nat} (h : Inv env st live owner)
    (home : ∀ a ∈ (st.pagesets id cpu).lists, owner a = .pcp id cpu z)
    (enough : count ≤ (st.pagesets id cpu).lists.length) :
    ∃ st' owner', freePcppagesBulk env st z count id cpu = .ok st' ∧ Inv env st' live owner' ∧
      (∀ z, (st'.zones z).pageset = (st.zones z).pageset) ∧ Drained env z id cpu count st st' ∧
      (∀ a, Settled (owner a) (owner' a)) ∧ NoneListed owner owner' := by
  have clean : ∀ a ∈ (st.pagesets id cpu).lists, (st.pages a).freePagesCheck = 0 := by
    intro a member
    have ok : PageOk env a (st.pages a) (.pcp id cpu z) := home a member ▸ h.pages a
    exact Clean.freePagesCheck ok
  have take := takePcpPages_eq [] clean enough
  rw [List.nil_append] at take
  have parts := List.take_append_drop ((st.pagesets id cpu).lists.length - count) (st.pagesets id cpu).lists
  have nodup := h.pcpLists.nodup id cpu
  rw [← parts] at nodup
  obtain ⟨nodupRest, nodupTaken, disjoint⟩ := List.nodup_append'.mp nodup
  have member (a : Nat) : a ∈ (st.pagesets id cpu).lists ↔
      a ∈ ((st.pagesets id cpu).drain count).lists ∨ a ∈ (st.pagesets id cpu).last count := by
    rw [Pcp.last, List.mem_reverse, Pcp.drain, ← List.mem_append, parts]
  have apart {a : Nat} (hit : a ∈ (st.pagesets id cpu).last count) :
      a ∉ ((st.pagesets id cpu).drain count).lists :=
    fun also => disjoint also (List.mem_reverse.mp hit)
  have count_eq := h.pcpLists.count id cpu
  have shrunk : Inv env (st.modifyPcp id cpu (Pcp.drain count)) live
      (relist owner id cpu z ((st.pagesets id cpu).drain count).lists) :=
    h.setPcp home (fun a hit => .inl ((member a).mpr (.inl hit))) nodupRest (by
      simp only [Pcp.drain, count_eq, Pcp.mk.injEq, and_true, List.length_take]
      omega)
  have raw : ∀ a ∈ (st.pagesets id cpu).last count,
      relist owner id cpu z ((st.pagesets id cpu).drain count).lists a = .raw z := by
    intro a hit
    rw [relist, if_neg (apart hit), if_pos (home a ((member a).mpr (.inr hit)))]
  have nodupLast : ((st.pagesets id cpu).last count).Nodup := List.nodup_reverse.mpr nodupTaken
  obtain ⟨st', owner', frees, inv, frame, inside, outside⟩ := freeEach_spec shrunk nodupLast raw
  have bulk : freePcppagesBulk env st z count id cpu = .ok st' := by
    rw [freePcppagesBulk, take, ok_bind]
    exact frees
  have rest {a : Nat} (out : a ∉ (st.pagesets id cpu).last count) : Kept (owner a) (owner' a) := by
    have same : relist owner id cpu z ((st.pagesets id cpu).drain count).lists a = owner a := by
      unfold relist
      by_cases stays : a ∈ ((st.pagesets id cpu).drain count).lists
      · rw [if_pos stays, home a ((member a).mpr (.inl stays))]
      · rw [if_neg stays, if_neg]
        intro was
        have := (h.pcpLists.mem_iff id cpu a).mpr ⟨z, was⟩
        exact ((member a).mp this).elim stays out
    exact same ▸ outside a out
  refine ⟨st', owner', bulk, inv, frame.pageset,
    ⟨?_, ?_, nodupLast, frees, frame.pagesets, fun a hit => ?_⟩, fun a => ?_, fun a id' cpu' z' held => ?_⟩
  · rw [count_eq]
    omega
  · rw [Pcp.last, List.length_reverse, List.length_drop]
    omega
  · obtain ⟨z', k, p, free⟩ := inside a hit
    have was : Clean z (st.pages a) := (home a ((member a).mpr (.inr hit)) ▸ h.pages a :)
    have now : PageOk env a (st'.pages a) (.free z' k p) := free ▸ inv.pages a
    obtain rfl : z' = z := now.1.symm.trans (((freePcppagesBulk_steady bulk).pages a).zone.trans was.zone)
    obtain ⟨-, -, here, same⟩ := inv.blocked a p k (by rw [free]; rfl)
    exact ⟨k, p, (inv.freeLists.mem_iff z' k p).mpr ((same p (inBlock_self p k)).trans free), here⟩
  · by_cases hit : a ∈ (st.pagesets id cpu).last count
    · have was := home a ((member a).mpr (.inr hit))
      exact .inr ⟨.inr (was ▸ ⟨_, _, _, rfl⟩), .inl (inside a hit)⟩
    · exact (rest hit).settled
  · by_cases hit : a ∈ (st.pagesets id cpu).last count
    · obtain ⟨_, _, _, free⟩ := inside a hit
      rw [free] at held
      cases held
    · exact (rest hit).noneListed held

/-- Freeing a single loose page through the per-cpu list. -/
theorem freeUnrefPageCommit_spec {page : Nat} (h : Inv env st live owner) (home : Home st owner)
    (loose : owner page = .raw z) (cpu : Nat) :
    ∃ st' owner', freeUnrefPageCommit env st cpu page = .ok st' ∧ Inv env st' live owner' ∧
      Home st' owner' ∧ (owner' page).Pooled ∧ (∀ a, a ≠ page → Settled (owner a) (owner' a)) ∧
      Committed env z (st.zones z).pageset cpu (st.modifyPcp (st.zones z).pageset cpu (Pcp.push page)) st' := by
  have clean : Clean z (st.pages page) := (loose ▸ h.pages page :)
  have list (a : Nat) (member : a ∈ (st.pagesets (st.zones z).pageset cpu).lists) :=
    home.list h cpu a member
  have absent : page ∉ (st.pagesets (st.zones z).pageset cpu).lists := by
    intro member
    have held := (list page member).1
    rw [loose] at held
    cases held
  have count_eq := h.pcpLists.count (st.zones z).pageset cpu
  have added : Inv env (st.modifyPcp (st.zones z).pageset cpu (Pcp.push page)) live
      (relist owner (st.zones z).pageset cpu z
        (page :: (st.pagesets (st.zones z).pageset cpu).lists)) := h.setPcp
    (fun a member => (list a member).1)
    (fun a member => (List.mem_cons.mp member).elim (fun same => .inr (same ▸ loose)) .inl)
    (List.nodup_cons.mpr ⟨absent, h.pcpLists.nodup _ cpu⟩) (by simp [Pcp.push, count_eq])
  generalize idEq : (st.zones z).pageset = id at *
  have inList (a : Nat) : relist owner id cpu z (page :: (st.pagesets id cpu).lists) a =
      if a = page then .pcp id cpu z else owner a := by
    unfold relist
    by_cases same : a = page
    · simp [same]
    · by_cases member : a ∈ (st.pagesets id cpu).lists
      · simp [member, (list a member).1]
      · have other : owner a ≠ .pcp id cpu z := by
          intro was
          exact member ((h.pcpLists.mem_iff id cpu a).mpr ⟨z, was⟩)
        simp [same, member, other]
  have pcp : (st.modifyPcp id cpu (Pcp.push page)).pagesets id cpu =
      (st.pagesets id cpu).push page := by
    rw [modifyPcp_pagesets, if_pos ⟨rfl, rfl⟩]
  have mine : (relist owner id cpu z (page :: (st.pagesets id cpu).lists) page).Pooled := by
    rw [inList, if_pos rfl]
    exact .inr ⟨_, _, _, rfl⟩
  have theirs (a : Nat) (ne : a ≠ page) :
      relist owner id cpu z (page :: (st.pagesets id cpu).lists) a = owner a := by
    rw [inList, if_neg ne]
  have cases_eq {st' : State} (stays : ((st.pagesets id cpu).push page).count < ((st.pagesets id cpu).push page).high →
        st' = st.modifyPcp id cpu (Pcp.push page))
      (drains : ((st.pagesets id cpu).push page).high ≤ ((st.pagesets id cpu).push page).count →
        freePcppagesBulk env (st.modifyPcp id cpu (Pcp.push page)) z ((st.pagesets id cpu).push page).batch id cpu =
          .ok st' ∧
        Drained env z id cpu ((st.pagesets id cpu).push page).batch (st.modifyPcp id cpu (Pcp.push page)) st') :
      Committed env z id cpu (st.modifyPcp id cpu (Pcp.push page)) st' :=
    ⟨by rw [pcp]; exact stays, by rw [pcp]; exact drains⟩
  simp only [freeUnrefPageCommit, clean.zone, idEq, pcp]
  by_cases drain : ((st.pagesets id cpu).push page).count ≥ ((st.pagesets id cpu).push page).high
  · rw [if_pos drain]
    have full : (st.pagesets id cpu).count + 1 ≥ (st.pagesets id cpu).high := drain
    have length : (st.pagesets id cpu).count = ((st.pagesets id cpu).lists.length : Int) := count_eq
    have enough : (st.pagesets id cpu).batch ≤ (page :: (st.pagesets id cpu).lists).length := by
      have := h.pcpLists.batch id cpu
      rw [List.length_cons]
      omega
    have listed : ∀ a ∈ ((st.modifyPcp id cpu (Pcp.push page)).pagesets id cpu).lists,
        relist owner id cpu z (page :: (st.pagesets id cpu).lists) a = .pcp id cpu z := by
      intro a member
      rw [pcp] at member
      exact if_pos member
    have enough' : ((st.pagesets id cpu).push page).batch ≤
        ((st.modifyPcp id cpu (Pcp.push page)).pagesets id cpu).lists.length := by
      rw [pcp]
      exact enough
    obtain ⟨st', owner', bulk, inv, pageset, drained, moved, none⟩ := freePcppagesBulk_spec added listed enough'
    refine ⟨st', owner', bulk, inv, ⟨fun a id' cpu' z' held => ?_, fun z' => ?_⟩,
      (moved page).pooled mine, fun a ne => ?_, cases_eq (fun less => absurd drain (by omega)) (fun _ => ⟨bulk, drained⟩)⟩
    · have before := none a id' cpu' z' held
      rw [pageset z']
      by_cases same : a = page
      · rw [same, inList, if_pos rfl] at before
        cases before
        rcases home.pageset z with boot | own
        · -- the boot list had no page before and none is left
          rw [idEq] at boot
          subst boot
          have empty : (st.pagesets .boot cpu).lists = [] := by
            refine List.eq_nil_iff_forall_not_mem.mpr (fun a member => ?_)
            have := (list a member).2
            cases this
          have member := (inv.pcpLists.mem_iff .boot cpu a).mpr ⟨z, held⟩
          have left : (st'.pagesets .boot cpu).lists = [] := by
            rw [drained.pagesets, modifyPcp_pagesets, if_pos ⟨rfl, rfl⟩, pcp]
            simp [Pcp.drain, Pcp.push, empty, (h.pcpLists.boot cpu).2]
          rw [left] at member
          cases member
        · rw [idEq] at own
          exact ⟨own, idEq.trans own⟩
      · rw [theirs a same] at before
        exact home.homed a id' cpu' z' before
    · rw [pageset z']
      exact home.pageset z'
    · rw [← theirs a ne]
      exact moved a
  · rw [if_neg drain]
    have own : id = .own z := by
      rcases home.pageset z with boot | own
      · rw [idEq] at boot
        subst boot
        have low : ¬ (st.pagesets .boot cpu).count + 1 ≥ (st.pagesets .boot cpu).high := drain
        have := (h.pcpLists.boot cpu).1
        have length : (st.pagesets .boot cpu).count =
          ((st.pagesets .boot cpu).lists.length : Int) := count_eq
        omega
      · exact idEq.symm.trans own
    refine ⟨_, _, rfl, added, ⟨fun a id' cpu' z' held => ?_, home.pageset⟩, mine, fun a ne => ?_,
      cases_eq (fun _ => rfl) (fun more => absurd more drain)⟩
    · by_cases same : a = page
      · rw [same, inList, if_pos rfl] at held
        cases held
        exact ⟨own, idEq.trans own⟩
      · rw [theirs a same] at held
        exact home.homed a id' cpu' z' held
    · rw [theirs a ne]
      exact .inl rfl

/-! ## Refilling -/

/-- The list after a refill: its pages are loose and come from free blocks. -/
structure Refilled (env : Env) (live : List (Nat × Nat)) (z : ZoneType) (st : State)
    (owner : Nat → Owner) (st' : State) (owner' : Nat → Owner) (list : List Nat) : Prop where
  inv : Inv env st' live owner'
  frame : Frame st st'
  nodup : list.Nodup
  loose : ∀ a ∈ list, owner' a = .raw z
  was : ∀ a ∈ list, (owner a).IsFree
  outside : ∀ a, a ∉ list → Kept (owner a) (owner' a)

theorem rmqueueBulk_spec {st₀ : State} {owner₀ : Nat → Owner} {list : List Nat} {count alloced : Nat}
    (h : Refilled env live z st₀ owner₀ st owner list) :
    Outcome InUninitialized (fun r => ∃ owner', Refilled env live z st₀ owner₀ r.1 owner' r.2.1 ∧
        r.2.1.length ≤ list.length + count ∧ r.2.2 + list.length = alloced + r.2.1.length)
      (rmqueueBulk z 0 count st list alloced) := by
  induction count generalizing st owner list alloced with
  | zero => exact ⟨owner, h, by simp, rfl⟩
  | succ count ih =>
      rw [rmqueueBulk]
      refine (rmqueueSmallest_spec h.inv (by decide)).bind ?_
      rintro ⟨st', found⟩ (none | ⟨page, owner', some, taken⟩)
      · cases none
        exact ⟨owner, h, by simp only; omega, rfl⟩
      · simp only at some taken
        subst some
        have raw := taken.inside page (inBlock_self _ _)
        have other {a : Nat} (ne : a ≠ page) : Kept (owner a) (owner' a) :=
          taken.outside a (fun hit => ne ((inBlock_zero page a).mp hit))
        have absent : page ∉ list := by
          intro member
          have free := taken.was page (inBlock_self _ _)
          rw [h.loose page member] at free
          simp at free
        have clean : Clean z (st'.pages page) := (raw ▸ taken.inv.pages page :)
        simp only [clean.checkNewPage, Bool.false_eq_true, if_false]
        have next : Refilled env live z st₀ owner₀ st' owner' (list ++ [page]) := by
          refine ⟨taken.inv, h.frame.trans taken.frame, ?_, fun a member => ?_, fun a member => ?_,
            fun a out => ?_⟩
          · exact h.nodup.append (List.nodup_singleton _) (List.disjoint_singleton.mpr absent)
          · rcases List.mem_append.mp member with member | member
            · have raw := h.loose a member
              rw [(other (fun same => absent (same ▸ member))).eq (by simp [raw]), raw]
            · rw [List.mem_singleton.mp member, raw]
          · rcases List.mem_append.mp member with member | member
            · exact h.was a member
            · obtain rfl := List.mem_singleton.mp member
              rcases h.outside a absent with same | ⟨free, -⟩
              · rw [← same]
                exact taken.was a (inBlock_self _ _)
              · exact free
          · rw [List.mem_append, List.mem_singleton, not_or] at out
            exact (h.outside a out.1).trans (other out.2)
        refine (ih next).mono ?_
        rintro ⟨st'', list', alloced'⟩ ⟨owner'', filled, few, counted⟩
        refine ⟨owner'', filled, ?_, ?_⟩
        · simp only [List.length_append, List.length_singleton] at few ⊢
          omega
        · simp only [List.length_append, List.length_singleton] at counted ⊢
          omega

/-- The outcome of a request for pages: none, or a loose block of the zone. -/
def Got (env : Env) (live : List (Nat × Nat)) (z : ZoneType) (order : Nat) (owner : Nat → Owner)
    (r : State × Option Nat) : Prop :=
  (r.2 = none ∧ ∃ owner', Inv env r.1 live owner' ∧ Home r.1 owner' ∧
    ∀ a, Settled (owner a) (owner' a)) ∨
  ∃ page owner', r.2 = some page ∧ Inv env r.1 live owner' ∧ Home r.1 owner' ∧ Aligned page order ∧
    (∀ a, InBlock page order a → owner' a = .raw z ∧ (owner a).Pooled) ∧
    ∀ a, ¬ InBlock page order a → Settled (owner a) (owner' a)

/-- Taking the first page off a per-cpu list, which is left on the list of the zone. -/
theorem popPcp_got {id : PagesetId} {cpu : Nat} {owner₀ : Nat → Owner} (h : Inv env st live owner)
    (idEq : (st.zones z).pageset = id)
    (list : ∀ a ∈ (st.pagesets id cpu).lists, owner a = .pcp id cpu z)
    (home : ∀ a id' cpu' z', owner a = .pcp id' cpu' z' → a ∉ (st.pagesets id cpu).lists →
      id' = .own z' ∧ (st.zones z').pageset = .own z')
    (pageset : ∀ z, (st.zones z).pageset = .boot ∨ (st.zones z).pageset = .own z)
    (short : id = .boot → (st.pagesets id cpu).lists.length ≤ 1)
    (settled : ∀ a, Settled (owner₀ a) (owner a)) (pooled : ∀ a ∈ (st.pagesets id cpu).lists,
      (owner₀ a).Pooled) :
    Got env live z 0 owner₀ (popPcp st id cpu) := by
  unfold popPcp
  have own (ne : id ≠ .boot) : id = .own z := by
    rcases pageset z with boot | own
    · exact absurd (idEq.symm.trans boot) ne
    · exact idEq.symm.trans own
  cases pages : (st.pagesets id cpu).lists with
  | nil =>
      rw [pages] at home
      exact .inl ⟨rfl, owner, h, ⟨fun a id' cpu' z' held => home a id' cpu' z' held (by simp), pageset⟩,
        settled⟩
  | cons page rest =>
      rw [pages] at list home short pooled
      have nodup := h.pcpLists.nodup id cpu
      rw [pages] at nodup
      obtain ⟨absent, nodup⟩ := List.nodup_cons.mp nodup
      have count_eq := h.pcpLists.count id cpu
      rw [pages] at count_eq
      have popped : Inv env
          (st.modifyPcp id cpu (fun pcp => { pcp with lists := rest, count := pcp.count - 1 })) live
          (relist owner id cpu z rest) :=
        h.setPcp (fun a member => list a (pages ▸ member))
          (fun a member => .inl (pages ▸ List.mem_cons_of_mem page member)) nodup
          (by simp [count_eq])
      have theirs {a : Nat} (ne : a ≠ page) : relist owner id cpu z rest a = owner a := by
        unfold relist
        by_cases member : a ∈ rest
        · rw [if_pos member, list a (List.mem_cons_of_mem page member)]
        · rw [if_neg member, if_neg]
          intro was
          have := (h.pcpLists.mem_iff id cpu a).mpr ⟨z, was⟩
          rw [pages] at this
          exact (List.mem_cons.mp this).elim ne member
      have mine : relist owner id cpu z rest page = .raw z := by
        rw [relist, if_neg absent, if_pos (list page (by simp))]
      refine .inr ⟨page, _, rfl, popped, ⟨fun a id' cpu' z' held => ?_, pageset⟩, aligned_zero page,
        fun a hit => ?_, fun a out => ?_⟩
      · by_cases same : a = page
        · rw [same, mine] at held
          cases held
        · rw [theirs same] at held
          by_cases member : a ∈ rest
          · rw [list a (List.mem_cons_of_mem page member)] at held
            cases held
            have ne : id ≠ .boot := by
              intro boot
              have := short boot
              have := List.length_pos_of_mem member
              rw [List.length_cons] at *
              omega
            exact ⟨own ne, idEq.trans (own ne)⟩
          · exact home a id' cpu' z' held (fun hit => (List.mem_cons.mp hit).elim same member)
      · obtain rfl := (inBlock_zero page a).mp hit
        exact ⟨mine, pooled a (by simp)⟩
      · rw [theirs (fun same => out ((inBlock_zero page a).mpr same))]
        exact settled a

theorem rmqueuePcplist_spec (h : Inv env st live owner) (home : Home st owner) (cpu : Nat) :
    Outcome InUninitialized (Got env live z 0 owner) (rmqueuePcplist st cpu z) := by
  have list (a : Nat) (member : a ∈ (st.pagesets (st.zones z).pageset cpu).lists) :=
    home.list h cpu a member
  unfold rmqueuePcplist
  simp only
  generalize idEq : (st.zones z).pageset = id at *
  by_cases empty : (st.pagesets id cpu).lists = []
  · rw [if_pos empty, empty]
    have start : Refilled env live z st owner st owner [] :=
      ⟨h, .refl st, List.nodup_nil, by simp, by simp, fun _ _ => .inl rfl⟩
    refine (rmqueueBulk_spec start).bind ?_
    rintro ⟨st', pages, alloced⟩ ⟨owner', filled, few, counted⟩
    simp only [List.length_nil, Nat.zero_add, Nat.add_zero] at filled few counted
    have pcp : st'.pagesets id cpu = st.pagesets id cpu := by rw [filled.frame.pagesets]
    have refill : Inv env (st'.modifyPcp id cpu
        (fun pcp => { pcp with lists := pages, count := pcp.count + alloced })) live
        (relist owner' id cpu z pages) := by
      refine filled.inv.setPcp (fun a member => ?_) (fun a member => .inr (filled.loose a member))
        filled.nodup ?_
      · rw [pcp, empty] at member
        cases member
      · have count := h.pcpLists.count id cpu
        rw [empty] at count
        simp [pcp, count, counted]
    have lists : ((st'.modifyPcp id cpu
        (fun pcp => { pcp with lists := pages, count := pcp.count + alloced })).pagesets id cpu).lists =
        pages := by rw [modifyPcp_pagesets, if_pos ⟨rfl, rfl⟩]
    have fresh {a id' cpu' z'} (out : a ∉ pages) (held : owner' a = .pcp id' cpu' z') :
        owner a = .pcp id' cpu' z' := (filled.outside a out).noneListed held
    have none {a : Nat} (out : a ∉ pages) : owner' a ≠ .pcp id cpu z := by
      intro held
      have := (h.pcpLists.mem_iff id cpu a).mpr ⟨z, fresh out held⟩
      rw [empty] at this
      cases this
    have rest {a : Nat} (out : a ∉ pages) : relist owner' id cpu z pages a = owner' a := by
      rw [relist, if_neg out, if_neg (none out)]
    refine popPcp_got refill (filled.frame.pageset z ▸ idEq) (fun a member => ?_)
      (fun a id' cpu' z' held out => ?_) (fun z' => ?_) (fun boot => ?_) (fun a => ?_)
      (fun a member => ?_)
    · rw [lists] at member
      exact if_pos member
    · rw [lists] at out
      rw [rest out] at held
      show id' = _ ∧ (st'.zones z').pageset = _
      rw [filled.frame.pageset]
      exact home.homed a id' cpu' z' (fresh out held)
    · show (st'.zones z').pageset = _ ∨ (st'.zones z').pageset = _
      rw [filled.frame.pageset]
      exact home.pageset z'
    · subst boot
      rw [lists]
      rw [(h.pcpLists.boot cpu).2] at few
      exact few
    · by_cases member : a ∈ pages
      · rw [relist, if_pos member]
        exact .inr ⟨.inl (filled.was a member), .inr ⟨_, _, _, rfl⟩⟩
      · rw [rest member]
        exact (filled.outside a member).settled
    · rw [lists] at member
      exact .inl (filled.was a member)
  · rw [if_neg empty]
    refine popPcp_got h idEq (fun a member => (list a member).1)
      (fun a id' cpu' z' held _ => home.homed a id' cpu' z' held) home.pageset (fun boot => ?_)
      (fun a => .inl rfl) (fun a member => ?_)
    · obtain ⟨page, member⟩ := List.exists_mem_of_ne_nil _ empty
      rw [boot] at list member
      cases (list page member).2
    · rw [(list a member).1]
      exact .inr ⟨_, _, _, rfl⟩

end

end Miracle.PageAlloc
