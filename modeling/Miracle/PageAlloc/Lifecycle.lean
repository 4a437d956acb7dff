import Mathlib.Logic.Relation
import Miracle.PageAlloc.RefCount
import Miracle.PageAlloc.Splitting

/-! # The life of a `struct page`

A page of the allocator has no reference and no flag but `PG_buddy`.  An allocation ties the pages of a block to its head
and a free unties them.  So no check of the allocator ever finds a bad page.
-/

namespace Miracle.PageAlloc

open PowBlock

section

variable {env : Env} {st : State} {live : List (Nat × Nat)} {owner : Nat → Owner}

/-- A page of the allocator belongs to no compound page. -/
theorem Inv.pooledPage (h : Inv env st live owner) {a : Nat} (pooled : (owner a).Pooled) :
    (st.pages a).pageTail = false ∧ (st.pages a).flags.head = false := by
  rcases pooled with ⟨z, k, p, free⟩ | ⟨id, cpu, z, listed⟩
  · obtain ⟨-, -, tail, flags, -⟩ : PageOk env a (st.pages a) (.free z k p) := free ▸ h.pages a
    exact ⟨by rw [Page.pageTail, tail]; rfl, by rw [flags]; rfl⟩
  · have clean : Clean z (st.pages a) := (listed ▸ h.pages a :)
    exact ⟨by rw [Page.pageTail, clean.compoundHead]; rfl, by rw [clean.flags]; rfl⟩

/-- One block is taken from the buddy lists of the zone. -/
def Takes (z : ZoneType) (order : Nat) (st st' : State) : Prop :=
  ∃ page, rmqueueSmallest st z order = .ok (st', some page)

theorem Inv.takes {z : ZoneType} {order : Nat} (lt : order < maxOrder) (h : Inv env st live owner) {st1 : State}
    (run : Relation.ReflTransGen (Takes z order) st st1) : ∃ owner1, Inv env st1 live owner1 := by
  induction run with
  | refl => exact ⟨owner, h⟩
  | tail _ taken ih =>
      obtain ⟨owner1, h1⟩ := ih
      obtain ⟨page, taken⟩ := taken
      obtain ⟨owner2, got⟩ := h1.taken lt taken
      exact ⟨owner2, got.inv⟩

/-- The block is found good, and so is every page of the list that a single page goes to. -/
theorem Releasing.good {z : ZoneType} {page order : Nat} (rel : Releasing env live st z page order owner) (cpu : Nat)
    (checkFree : Bool) : ∃ mid, freePagesPrepare (st.pageRefDec page) page order checkFree = .ok (mid, true) ∧
      ∀ a, a = page ∨ a ∈ (mid.pagesets (mid.zones (mid.pages page).zone).pageset cpu).lists →
        (mid.pages a).freePagesCheck = 0 := by
  obtain ⟨mid, done, clean⟩ := rel.prepare checkFree
  have self := clean.inside page (inBlock_self _ _)
  have h := rel.inv mid clean
  refine ⟨mid, done, fun a member => ?_⟩
  rcases member with rfl | member
  · exact self.freePagesCheck
  · rw [self.zone] at member
    have held := ((rel.home_cleaned clean).list h cpu a member).1
    have ok : PageOk env a (mid.pages a) (.pcp _ cpu z) := held ▸ h.pages a
    exact Clean.freePagesCheck ok

end

theorem step_ok_or_unready {env : Env} {sys : System} (h : History env sys) {op : Op} (legal : Legal env sys op)
    (returned : Returned sys op) : (∃ sys', step env sys op = .ok sys') ∨
      ∃ cpu gfp order, op = .alloc cpu gfp order ∧ ¬ (sys.st.zones (gfpZone gfp)).initialized = true := by
  obtain ⟨owner, inv⟩ := h.inv
  by_cases alloc : ∃ cpu gfp order, op = .alloc cpu gfp order
  · obtain ⟨cpu, gfp, order, rfl⟩ := alloc
    by_cases ready : (sys.st.zones (gfpZone gfp)).initialized = true
    · have served : ∃ r, allocPages sys.st cpu gfp order = .ok r := by
        by_cases large : order ≥ maxOrder
        · exact ⟨_, if_pos large⟩
        · have outcome := allocPages_case inv.inv inv.home h.refills cpu gfp (Nat.lt_of_not_ge large)
          generalize allocPages sys.st cpu gfp order = result at outcome
          cases outcome with
          | unready _ not => exact absurd ready not
          | _ => exact ⟨_, rfl⟩
      obtain ⟨⟨st, found⟩, done⟩ := served
      rw [step, done]
      cases found with
      | none => exact .inl ⟨_, rfl⟩
      | some page => exact .inl ⟨_, rfl⟩
    · exact .inr ⟨cpu, gfp, order, rfl, ready⟩
  · obtain ⟨sys', done, -⟩ := step_ok inv legal returned (fun cpu gfp order same => alloc ⟨cpu, gfp, order, same⟩)
    exact .inl ⟨sys', done⟩

/-- Pages in the hands of the allocator are clean, an allocation makes one compound page and a free takes it apart.  No
    check stops an operation, and none reports a bad page. -/
theorem page_lifecycle {env : Env} {sys : System} (h : History env sys) :
    (∀ z k p a, p ∈ sys.st.freeList z k → InBlock p k a → (sys.st.pages a).refcount = 0 ∧
      (sys.st.pages a).flags = { PageFlags.none with buddy := decide (a = p) }) ∧
    (∀ id cpu a, a ∈ (sys.st.pagesets id cpu).lists → (sys.st.pages a).refcount = 0 ∧
      (sys.st.pages a).flags = PageFlags.none) ∧
    (∀ cpu gfp k st' page, k ≠ 0 → allocPages sys.st cpu gfp k = .ok (st', some page) →
      ∀ i, 1 ≤ i → i < 2 ^ k → st'.headOf (page + i) = page ∧ st'.compoundOrder page = k) ∧
    (∀ op st cpu page order, Legal env sys op → Returned sys op → FreeCall sys op st cpu page order →
      ∃ st', freePages env st cpu page order = .ok st' ∧ step env sys op = .ok (sys.freed st' op) ∧
        ∀ a, InBlock page order a → (st'.pages a).pageTail = false ∧ (st'.pages a).flags.head = false) ∧
    (∀ op, Legal env sys op → Returned sys op → (∃ sys', step env sys op = .ok sys') ∨
      ∃ cpu gfp order, op = .alloc cpu gfp order ∧ ¬ (sys.st.zones (gfpZone gfp)).initialized = true) ∧
    (∀ op st cpu page order checkFree, Legal env sys op → Returned sys op → FreeCall sys op st cpu page order →
      ∃ mid, freePagesPrepare (st.pageRefDec page) page order checkFree = .ok (mid, true) ∧
        ∀ a, a = page ∨ a ∈ (mid.pagesets (mid.zones (mid.pages page).zone).pageset cpu).lists →
          (mid.pages a).freePagesCheck = 0) ∧
    (∀ z k, k < maxOrder → ∀ st1, Relation.ReflTransGen (Takes z k) sys.st st1 → ∀ st2 page,
      rmqueueSmallest st1 z k = .ok (st2, some page) → checkNewPages st2 page (1 <<< k) 0 = false) := by
  obtain ⟨owner, inv⟩ := h.inv
  refine ⟨?_, ?_, ?_, ?_, fun op legal returned => step_ok_or_unready h legal returned, ?_, ?_⟩
  · intro z k p a listed inside
    obtain ⟨-, ref, -, flags, -⟩ : PageOk env a (sys.st.pages a) (.free z k p) :=
      inv.freeBlock listed inside ▸ inv.inv.pages a
    exact ⟨ref, flags⟩
  · intro id cpu a listed
    obtain ⟨z, held⟩ := (inv.inv.pcpLists.mem_iff id cpu a).mp listed
    have clean : Clean z (sys.st.pages a) := (held ▸ inv.inv.pages a :)
    exact ⟨clean.refcount, clean.flags⟩
  · intro cpu gfp k st' page large done i low high
    have stepped : step env sys (.alloc cpu gfp k) = .ok { sys with st := st', live := (page, k) :: sys.live } := by
      rw [step, done]
      rfl
    have legal : Legal env sys (.alloc cpu gfp k) := trivial
    have returned : Returned sys (.alloc cpu gfp k) := trivial
    obtain ⟨owner', inv'⟩ := (h.step legal returned stepped).inv
    have allocated : (page, k) ∈ (page, k) :: sys.live := List.mem_cons_self
    exact ⟨inv'.headOf allocated ⟨by omega, by omega⟩, inv'.compoundOrder allocated⟩
  · intro op st cpu page order legal returned call
    obtain ⟨z, owner₁, rel, step_eq⟩ := call.release inv legal returned
    obtain ⟨st', owner', done, inv', -, pooled, -⟩ := rel.releasing.freePages_spec cpu
    refine ⟨st', done, by rw [step_eq, done]; rfl, fun a hit => inv'.pooledPage (pooled a hit)⟩
  · intro op st cpu page order checkFree legal returned call
    obtain ⟨z, owner₁, rel, -⟩ := call.release inv legal returned
    exact rel.releasing.good cpu checkFree
  · intro z k lt st1 run st2 page taken
    obtain ⟨owner1, h1⟩ := inv.inv.takes lt run
    exact h1.taken_good lt taken

/-- The two pages at frame 8 are freed. -/
theorem flatRun_lifecycle : ∃ sys, flatRun = .ok sys ∧ ∃ st', freePages flatEnv sys.st 0 8 1 = .ok st' ∧
    (st'.pages 9).pageTail = false := by
  obtain ⟨sys, done, live, -⟩ := flatRun_returns
  have reach := flatRun_reachable done
  have legal : Legal flatEnv sys (.free 0 8 1) := by
    change (8, 1) ∈ sys.live
    rw [live]
    decide
  obtain ⟨st', freed, -, apart⟩ := (page_lifecycle reach.history).2.2.2.1 _ _ 0 8 1 legal (reach.returned _) .free
  exact ⟨sys, done, st', freed, (apart 9 (by decide)).1⟩

end Miracle.PageAlloc
