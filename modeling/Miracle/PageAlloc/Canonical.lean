import Miracle.PageAlloc.Conservation

/-! # The free blocks are determined by the free pages

Free blocks are aligned, disjoint and have no free buddy to be joined with.  There is one set of such blocks for a set of
pages, so the order in which blocks are freed leaves no trace in it.
-/

namespace Miracle.PageAlloc

open PowBlock

/-- The blocks on the free lists of a zone: the first frame and the order. -/
def freeBlocks (st : State) (z : ZoneType) : Set (Nat × Nat) := {b | b.1 ∈ st.freeList z b.2}

/-- The buddy invariant of a zone. -/
def BuddyInv (st : State) (z : ZoneType) : Prop := Joined maxOrder (freeBlocks st z)

/-- The frames in the free blocks of a zone. -/
def freePfns (st : State) (z : ZoneType) : Set Nat := elements (freeBlocks st z)

section

variable {env : Env} {st : State} {live : List (Nat × Nat)} {owner : Nat → Owner} {z : ZoneType}

theorem Inv.mem_freeBlocks (h : Inv env st live owner) {p k : Nat} :
    (p, k) ∈ freeBlocks st z ↔ owner p = .free z k p := h.freeLists.mem_iff z k p

theorem Inv.free_of_inBlock (h : Inv env st live owner) {p k a : Nat} (member : (p, k) ∈ freeBlocks st z)
    (inside : InBlock p k a) : owner a = .free z k p := by
  have held := h.mem_freeBlocks.mp member
  rw [(h.blocked p p k (by rw [held]; rfl)).2.2.2 a inside, held]

theorem Inv.buddyInv (h : Inv env st live owner) (z : ZoneType) : BuddyInv st z where
  order_lt := by
    intro p k member
    exact (h.blocked p p k (by rw [h.mem_freeBlocks.mp member]; rfl)).1
  aligned := by
    intro p k member
    exact (h.blocked p p k (by rw [h.mem_freeBlocks.mp member]; rfl)).2.1
  apart := by
    intro p k q j a member member' inside inside'
    have held := h.free_of_inBlock member inside
    rw [h.free_of_inBlock member' inside'] at held
    cases held
    rfl
  alone := by
    intro p k lt member other
    exact h.coalesced z k p lt (h.mem_freeBlocks.mp member) (h.mem_freeBlocks.mp other)

/-- The frames of the free blocks are the free frames of the zone. -/
theorem Inv.mem_freePfns (h : Inv env st live owner) (a : Nat) :
    a ∈ freePfns st z ↔ (owner a).IsFree ∧ (st.pages a).zone = z := by
  constructor
  · rintro ⟨p, k, member, inside⟩
    have held := h.free_of_inBlock member inside
    have ok : PageOk env a (st.pages a) (.free z k p) := held ▸ h.pages a
    exact ⟨⟨z, k, p, held⟩, ok.1⟩
  · rintro ⟨⟨z', k, p, held⟩, zone⟩
    have ok : PageOk env a (st.pages a) (.free z' k p) := held ▸ h.pages a
    obtain rfl : z' = z := ok.1.symm.trans zone
    obtain ⟨-, -, inside, same⟩ := h.blocked a p k (by rw [held]; rfl)
    exact ⟨p, k, h.mem_freeBlocks.mpr ((same p (inBlock_self p k)).trans held), inside⟩

end

/-! ## Freeing many blocks -/

/-- `__free_one_page` for one block after the other -/
def freeBlocksOf (env : Env) (z : ZoneType) : List (Nat × Nat) → State → Except Bug State
  | [], st => .ok st
  | (pfn, order) :: rest, st => do
      let st ← freeOnePage env st pfn z order
      freeBlocksOf env z rest st

/-- Disjoint aligned blocks whose pages are on their way to the buddy lists. -/
structure InHand (owner : Nat → Owner) (z : ZoneType) (blocks : List (Nat × Nat)) : Prop where
  order_lt : ∀ b ∈ blocks, b.2 < maxOrder
  aligned : ∀ b ∈ blocks, Aligned b.1 b.2
  raw : ∀ b ∈ blocks, ∀ a, InBlock b.1 b.2 a → owner a = .raw z
  apart : blocks.Pairwise fun b c => ∀ a, ¬ (InBlock b.1 b.2 a ∧ InBlock c.1 c.2 a)

section

variable {env : Env} {st : State} {live : List (Nat × Nat)} {owner : Nat → Owner} {z : ZoneType}

theorem Inv.raw_zone (h : Inv env st live owner) {a : Nat} (raw : owner a = .raw z) : (st.pages a).zone = z :=
  Clean.zone (raw ▸ h.pages a :)

/-- The free pages after a block has been freed. -/
theorem Freed.freePfns (h : Inv env st live owner) {pfn order : Nat} {st' : State} {owner' : Nat → Owner}
    (freed : Freed env live pfn order st owner st' owner') (steady : Steady st st')
    (raw : ∀ a, InBlock pfn order a → owner a = .raw z) (a : Nat) :
    a ∈ PageAlloc.freePfns st' z ↔ a ∈ PageAlloc.freePfns st z ∨ InBlock pfn order a := by
  rw [freed.inv.mem_freePfns, h.mem_freePfns, (steady.pages a).zone]
  by_cases inside : InBlock pfn order a
  · exact iff_of_true ⟨freed.inside a inside, h.raw_zone (raw a inside)⟩ (.inr inside)
  · have kept := freed.outside a inside
    have same : (owner' a).IsFree ↔ (owner a).IsFree := by
      rcases kept with same | ⟨free, free'⟩
      · rw [same]
      · exact iff_of_true free' free
    rw [same, or_iff_left inside]

theorem freeBlocksOf_spec {blocks : List (Nat × Nat)} : ∀ {st : State} {owner : Nat → Owner},
    Inv env st live owner → InHand owner z blocks → ∃ st' owner', freeBlocksOf env z blocks st = .ok st' ∧
      Inv env st' live owner' ∧
      ∀ a, a ∈ freePfns st' z ↔ a ∈ freePfns st z ∨ ∃ b ∈ blocks, InBlock b.1 b.2 a := by
  induction blocks with
  | nil =>
      intro st owner h _
      exact ⟨st, owner, rfl, h, fun a => by simp⟩
  | cons b rest ih =>
      intro st owner h loose
      obtain ⟨apart, apart'⟩ := List.pairwise_cons.mp loose.apart
      have raw := loose.raw b (by simp)
      obtain ⟨st1, owner1, done, freed⟩ := freeOnePage_spec h raw (loose.order_lt b (by simp))
        (loose.aligned b (by simp))
      have steady := freeOnePage_steady done
      have loose1 : InHand owner1 z rest := by
        refine ⟨fun c member => loose.order_lt c (List.mem_cons_of_mem b member),
          fun c member => loose.aligned c (List.mem_cons_of_mem b member), fun c member a inside => ?_, apart'⟩
        have before := loose.raw c (List.mem_cons_of_mem b member) a inside
        have out : ¬ InBlock b.1 b.2 a := fun hit => apart c member a ⟨hit, inside⟩
        rw [(freed.outside a out).eq (by rw [before]; simp), before]
      obtain ⟨st2, owner2, done2, h2, free⟩ := ih freed.inv loose1
      refine ⟨st2, owner2, ?_, h2, fun a => ?_⟩
      · rw [freeBlocksOf, done, ok_bind]
        exact done2
      · rw [free, freed.freePfns h steady raw, or_assoc, List.exists_mem_cons_iff]

theorem InHand.perm {blocks blocks' : List (Nat × Nat)} (perm : blocks.Perm blocks') (loose : InHand owner z blocks) :
    InHand owner z blocks' := by
  refine ⟨fun b member => loose.order_lt b (perm.mem_iff.mpr member),
    fun b member => loose.aligned b (perm.mem_iff.mpr member),
    fun b member => loose.raw b (perm.mem_iff.mpr member), ?_⟩
  apply loose.apart.perm perm
  intro b c apart a both
  exact apart a both.symm

/-- A block that has been taken from the lists and is given back. -/
theorem takeAndFree {order page : Nat} (h : Inv env st live owner) (lt : order < maxOrder) {st1 : State}
    (taken : rmqueueSmallest st z order = .ok (st1, some page)) :
    ∃ st2, freeOnePage env st1 page z order = .ok st2 ∧ freeBlocks st2 z = freeBlocks st z := by
  obtain ⟨owner1, got⟩ := h.taken lt taken
  obtain ⟨st2, owner2, done, freed⟩ := freeOnePage_spec got.inv got.inside lt got.aligned
  have steady := rmqueueSmallest_steady taken
  refine ⟨st2, done, Joined.unique (freed.inv.buddyInv z) (h.buddyInv z) ?_⟩
  ext a
  change a ∈ freePfns st2 z ↔ a ∈ freePfns st z
  rw [freed.freePfns got.inv (freeOnePage_steady done) got.inside, got.inv.mem_freePfns, h.mem_freePfns, (steady.pages a).zone]
  by_cases inside : InBlock page order a
  · refine iff_of_true (.inr inside) ⟨got.was a inside, ?_⟩
    rw [← (steady.pages a).zone]
    exact got.inv.raw_zone (got.inside a inside)
  · rw [or_iff_left inside]
    rcases got.outside a inside with same | ⟨free, free'⟩
    · rw [same]
    · exact and_congr_left' (iff_of_true free' free)

end

/-! ## The canonical form -/

/-- The free frames of a zone determine its free blocks.  So the order in which blocks are freed does not matter, and a
    block that is allocated and freed again leaves the blocks as they were. -/
theorem free_blocks_canonical (z : ZoneType) :
    (∀ env sys, Reachable env sys → BuddyInv sys.st z) ∧
    (∀ st st', BuddyInv st z → BuddyInv st' z → freePfns st z = freePfns st' z → freeBlocks st z = freeBlocks st' z) ∧
    (∀ env st live owner, Inv env st live owner → ∀ blocks blocks', InHand owner z blocks → blocks.Perm blocks' →
      ∃ st1 st2, freeBlocksOf env z blocks st = .ok st1 ∧ freeBlocksOf env z blocks' st = .ok st2 ∧
        freeBlocks st1 z = freeBlocks st2 z) ∧
    (∀ env st live owner, Inv env st live owner → ∀ order, order < maxOrder → ∀ st1 page,
      rmqueueSmallest st z order = .ok (st1, some page) →
      ∃ st2, freeOnePage env st1 page z order = .ok st2 ∧ freeBlocks st2 z = freeBlocks st z) := by
  refine ⟨?_, ?_, ?_, ?_⟩
  · intro env sys reach
    obtain ⟨owner, h⟩ := reach.inv
    exact h.inv.buddyInv z
  · intro st st' h h' same
    exact Joined.unique h h' same
  · intro env st live owner h blocks blocks' hand perm
    obtain ⟨st1, owner1, done1, h1, free1⟩ := freeBlocksOf_spec h hand
    obtain ⟨st2, owner2, done2, h2, free2⟩ := freeBlocksOf_spec h (hand.perm perm)
    refine ⟨st1, st2, done1, done2, Joined.unique (h1.buddyInv z) (h2.buddyInv z) ?_⟩
    ext a
    change a ∈ freePfns st1 z ↔ a ∈ freePfns st2 z
    rw [free1, free2]
    simp only [perm.mem_iff]
  · intro env st live owner h order lt st1 page taken
    exact takeAndFree h lt taken

/-- The two pages at frame 10 are allocated and freed again. -/
theorem flatRun_takeAndFree : ∃ sys st1 st2, flatRun = .ok sys ∧ rmqueueSmallest sys.st .normal 1 = .ok (st1, some 10) ∧
    freeOnePage flatEnv st1 10 .normal 1 = .ok st2 ∧ freeBlocks st2 .normal = freeBlocks sys.st .normal := by
  obtain ⟨sys, done, -, -, ones, -⟩ := flatRun_returns
  obtain ⟨owner, h⟩ := (flatRun_reachable done).inv
  have ready : ¬ (sys.st.zones .normal).initialized = false := by
    rw [h.inv.zones]
    decide
  have taken : ∃ st1, rmqueueSmallest sys.st .normal 1 = .ok (st1, some 10) := by
    rw [rmqueueSmallest, if_neg ready, maxOrder, rmqueueSmallestLoop, ones]
    exact ⟨_, rfl⟩
  obtain ⟨st1, taken⟩ := taken
  obtain ⟨st2, freed, same⟩ := (free_blocks_canonical .normal).2.2.2 flatEnv sys.st sys.live owner h.inv 1 (by decide)
    st1 10 taken
  exact ⟨sys, st1, st2, done, taken, freed, same⟩

/-! ## Testing a page -/

/-- The loop of `is_free_buddy_page`, with the number of orders left; the order at its end. -/
def freeBuddyLoop (st : State) (pfn : Nat) : Nat → Nat → Nat
  | 0, order => order
  | n + 1, order =>
      let pageHead := pfn - (pfn &&& ((1 <<< order) - 1))
      if (st.pages pageHead).flags.buddy && decide ((st.pages pageHead).priv ≥ order) then order
      else freeBuddyLoop st pfn n (order + 1)

def isFreeBuddyPage (st : State) (pfn : Nat) : Bool := decide (freeBuddyLoop st pfn maxOrder 0 < maxOrder)

/-- The test of one round: the head of the block that would hold the page. -/
def HeadsBlock (st : State) (pfn order : Nat) : Prop :=
  (st.pages (pfn / 2 ^ order * 2 ^ order)).flags.buddy = true ∧ order ≤ (st.pages (pfn / 2 ^ order * 2 ^ order)).priv

theorem head_eq (pfn order : Nat) : pfn - (pfn &&& ((1 <<< order) - 1)) = pfn / 2 ^ order * 2 ^ order := by
  have digits := Nat.div_add_mod pfn (2 ^ order)
  rw [Nat.one_shiftLeft, Nat.and_two_pow_sub_one_eq_mod, Nat.mul_comm]
  omega

theorem freeBuddyLoop_lt (st : State) (pfn : Nat) : ∀ n order : Nat,
    freeBuddyLoop st pfn n order < order + n ↔ ∃ k, order ≤ k ∧ k < order + n ∧ HeadsBlock st pfn k := by
  intro n
  induction n with
  | zero =>
      intro order
      refine iff_of_false (lt_irrefl _) ?_
      rintro ⟨k, low, high, -⟩
      omega
  | succ n ih =>
      intro order
      rw [freeBuddyLoop]
      simp only [head_eq, Bool.and_eq_true, decide_eq_true_eq]
      split
      · rename_i here
        exact iff_of_true (by omega) ⟨order, le_rfl, by omega, here⟩
      · rename_i no
        have next := ih (order + 1)
        rw [show order + 1 + n = order + (n + 1) by omega] at next
        rw [next]
        constructor
        · rintro ⟨k, low, high, here⟩
          exact ⟨k, by omega, high, here⟩
        · rintro ⟨k, low, high, here⟩
          have ne : order ≠ k := by
            rintro rfl
            exact no here
          exact ⟨k, by omega, high, here⟩

theorem inBlock_head (pfn order : Nat) : InBlock (pfn / 2 ^ order * 2 ^ order) order pfn :=
  ⟨Nat.div_mul_le_self _ _, Nat.lt_div_mul_add (Nat.two_pow_pos order)⟩

end Miracle.PageAlloc
