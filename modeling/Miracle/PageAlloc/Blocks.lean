import Miracle.PageAlloc.Lists

/-! # Allocated blocks

Allocating a block marks its pages as one compound page, freeing it checks and clears
them, and boot hands over blocks that have never been marked.
-/

namespace Miracle.PageAlloc

open PowBlock

/-! ## Freeing -/

/-- A tail page after its round in `free_pages_prepare`. -/
def Page.untailed (compound : Bool) (p : Page) : Page :=
  Page.clearCheckAtPrep (if compound then { p with compoundHead := none } else p)

/-- A page that the rounds of `free_pages_prepare` find nothing wrong with. -/
structure GoodTail (compound : Bool) (page : Nat) (p : Page) : Prop where
  refcount : p.refcount = 0
  flags : p.flags = PageFlags.none
  head : compound = true → p.compoundHead = some page

theorem prepareTails_spec {compound : Bool} {page : Nat} (n : Nat) {i : Nat} {st : State} (bad : Nat)
    (good : ∀ a, page + i ≤ a → a < page + i + n → GoodTail compound page (st.pages a)) :
    ∃ st', prepareTails compound page n i st bad = (st', bad) ∧ st'.zones = st.zones ∧
      st'.pagesets = st.pagesets ∧
      ∀ a, st'.pages a = if page + i ≤ a ∧ a < page + i + n then (st.pages a).untailed compound
        else st.pages a := by
  induction n generalizing i st with
  | zero => exact ⟨st, rfl, rfl, rfl, fun a => by rw [if_neg (by omega)]⟩
  | succ n ih =>
      have first := good (page + i) (by omega) (by omega)
      have round : prepareTails compound page (n + 1) i st bad = prepareTails compound page n (i + 1)
          (st.modifyPage (page + i) (Page.untailed compound)) bad := by
        have clean (p : Page) (ref : p.refcount = 0) (flags : p.flags = PageFlags.none) :
            p.freePagesCheck = 0 := by
          simp [Page.freePagesCheck, Page.expectedState, ref, flags, PageFlags.checkAtFree,
            PageFlags.none]
        cases compound with
        | false =>
            rw [prepareTails]
            simp [clean _ first.refcount first.flags]
            rfl
        | true =>
            have tail := first.head rfl
            rw [prepareTails]
            simp [freeTailPagesCheck, Page.pageTail, tail, clean, first.refcount, first.flags]
            congr 1
            simp [State.modifyPage, Page.untailed]
      have rest : ∀ a, page + (i + 1) ≤ a → a < page + (i + 1) + n →
          GoodTail compound page ((st.modifyPage (page + i) (Page.untailed compound)).pages a) := by
        intro a low high
        rw [modifyPage_pages, if_neg (by omega)]
        exact good a (by omega) (by omega)
      obtain ⟨st', done, zones, pagesets, pages⟩ := ih rest
      refine ⟨st', round.trans done, zones, pagesets, fun a => ?_⟩
      rw [pages, modifyPage_pages]
      by_cases same : a = page + i
      · subst same
        rw [if_neg (by omega), if_pos rfl, if_pos (by omega)]
      · rw [if_neg same]
        by_cases hit : page + (i + 1) ≤ a ∧ a < page + (i + 1) + n
        · rw [if_pos hit, if_pos (by omega)]
        · rw [if_neg hit, if_neg (by omega)]

/-- A block that `free_pages_prepare` accepts; the head has `refs` references. -/
structure Releasable (refs : Nat) (st : State) (z : ZoneType) (page order : Nat) (compound : Bool) :
    Prop where
  zone : ∀ a, InBlock page order a → (st.pages a).zone = z
  refcount : (st.pages page).refcount = refs
  single : (st.pages page).compoundHead = none
  flags : (st.pages page).flags = { PageFlags.none with head := compound }
  tails : ∀ a, InBlock page order a → a ≠ page → GoodTail compound page (st.pages a)
  heads : compound = false → ∀ a, InBlock page order a → (st.pages a).compoundHead = none
  order : compound = true → order ≠ 0 ∧ (st.pages (page + 1)).compoundOrder = order

/-- All pages of the block have been cleaned, and nothing else has changed. -/
structure Cleaned (z : ZoneType) (page order : Nat) (st st' : State) : Prop where
  zones : st'.zones = st.zones
  pagesets : st'.pagesets = st.pagesets
  outside : ∀ a, ¬ InBlock page order a → st'.pages a = st.pages a
  inside : ∀ a, InBlock page order a → Clean z (st'.pages a)

section

variable {env : Env} {st : State} {live : List (Nat × Nat)} {owner : Nat → Owner} {z : ZoneType}
  {page order : Nat} {compound : Bool}

theorem tails_of_block {a : Nat} (hit : InBlock page order a) (ne : a ≠ page) :
    page + 1 ≤ a ∧ a < page + 1 + (2 ^ order - 1) := by
  have := Nat.two_pow_pos order
  simp only [InBlock] at hit
  omega

theorem Releasable.tails_spec (rel : Releasable 0 st z page order compound) :
    ∃ st', prepareTails compound page (2 ^ order - 1) 1 st 0 = (st', 0) ∧ st'.zones = st.zones ∧
      st'.pagesets = st.pagesets ∧ st'.pages page = st.pages page ∧
      (∀ a, ¬ InBlock page order a → st'.pages a = st.pages a) ∧
      (∀ a, InBlock page order a → a ≠ page → Clean z (st'.pages a)) := by
  have pos := Nat.two_pow_pos order
  have good (a : Nat) (low : page + 1 ≤ a) (high : a < page + 1 + (2 ^ order - 1)) :
      GoodTail compound page (st.pages a) := rel.tails a ⟨by omega, by omega⟩ (by omega)
  obtain ⟨st', done, zones, pagesets, pages⟩ := prepareTails_spec (2 ^ order - 1) 0 good
  refine ⟨st', done, zones, pagesets, ?_, fun a out => ?_, fun a hit ne => ?_⟩
  · rw [pages, if_neg (by omega)]
  · rw [pages, if_neg]
    intro hit
    exact out ⟨by omega, by omega⟩
  · rw [pages, if_pos (tails_of_block hit ne)]
    have good := rel.tails a hit ne
    cases compound with
    | false => exact ⟨rel.zone a hit, good.refcount, rfl, rel.heads rfl a hit⟩
    | true => exact ⟨rel.zone a hit, good.refcount, rfl, rfl⟩

theorem freePagesPrepare_spec (rel : Releasable 0 st z page order compound) (checkFree : Bool) :
    ∃ st', freePagesPrepare st page order checkFree = .ok (st', true) ∧ Cleaned z page order st st' := by
  have notTail : (st.pages page).pageTail = false := by rw [Page.pageTail, rel.single]; rfl
  have self := inBlock_self page order
  have good {p : Page} (same : p = st.pages page) : p.freePagesCheck = 0 := by
    simp [same, Page.freePagesCheck, Page.expectedState, rel.refcount, rel.flags,
      PageFlags.checkAtFree, PageFlags.none]
  -- what is left to do once the tails are clean
  have finish {st1 : State} (zones : st1.zones = st.zones) (pagesets : st1.pagesets = st.pagesets)
      (head : st1.pages page = st.pages page)
      (outside : ∀ a, ¬ InBlock page order a → st1.pages a = st.pages a)
      (inside : ∀ a, InBlock page order a → a ≠ page → Clean z (st1.pages a)) :
      Cleaned z page order st (st1.modifyPage page Page.clearCheckAtPrep) := by
    refine ⟨zones, pagesets, fun a out => ?_, fun a hit => ?_⟩
    · have ne : a ≠ page := fun same => out (same ▸ self)
      rw [modifyPage_pages, if_neg ne, outside a out]
    · rw [modifyPage_pages]
      by_cases same : a = page
      · rw [if_pos same, head]
        exact ⟨rel.zone page self, rel.refcount, rfl, rel.single⟩
      · rw [if_neg same]
        exact inside a hit same
  unfold freePagesPrepare
  rw [if_neg (by simp [notTail])]
  by_cases zero : order = 0
  · subst zero
    have alone (a : Nat) (hit : InBlock page 0 a) (ne : a ≠ page) : Clean z (st.pages a) :=
      absurd ((inBlock_zero page a).mp hit) ne
    refine ⟨_, ?_, finish rfl rfl rfl (fun _ _ => rfl) alone⟩
    cases checkFree <;> simp [good rfl]
  · have compound_eq : (st.pages page).pageCompound = compound := by
      simp [Page.pageCompound, rel.flags, notTail]
    have order_eq : ¬ (compound = true ∧ st.compoundOrder page ≠ order) := by
      rintro ⟨is, ne⟩
      refine ne ?_
      rw [State.compoundOrder, rel.flags, if_pos is]
      exact (rel.order is).2
    obtain ⟨st1, tails, zones, pagesets, head, outside, inside⟩ := rel.tails_spec
    refine ⟨_, ?_, finish zones pagesets head outside inside⟩
    rw [if_pos zero]
    simp only [compound_eq, if_neg order_eq, Nat.one_shiftLeft, tails, ok_bind]
    cases checkFree <;> simp [good head]

/-- The last reference to a block is dropped. -/
def State.pageRefDec (st : State) (page : Nat) : State :=
  st.modifyPage page (fun p => { p with refcount := p.refcount - 1 })

theorem Releasable.dropped (rel : Releasable 1 st z page order compound) :
    Releasable 0 (st.pageRefDec page) z page order compound := by
  have other {a : Nat} (ne : a ≠ page) : (st.pageRefDec page).pages a = st.pages a := by
    rw [State.pageRefDec, modifyPage_pages, if_neg ne]
  have self : (st.pageRefDec page).pages page = { st.pages page with refcount := 0 } := by
    simp [State.pageRefDec, rel.refcount]
  refine ⟨fun a hit => ?_, by rw [self], by rw [self]; exact rel.single, by rw [self]; exact rel.flags,
    fun a hit ne => ?_, fun is a hit => ?_, fun is => ?_⟩
  · by_cases same : a = page
    · rw [same, self]
      exact rel.zone page (inBlock_self _ _)
    · rw [other same]
      exact rel.zone a hit
  · rw [other ne]
    exact rel.tails a hit ne
  · by_cases same : a = page
    · rw [same, self]
      exact rel.single
    · rw [other same]
      exact rel.heads is a hit
  · rw [other (by omega)]
    exact rel.order is

/-- A block that `__free_pages` gives back.  `owner` has its pages in the hands of the code. -/
structure Releasing (env : Env) (live : List (Nat × Nat)) (st : State) (z : ZoneType) (page order : Nat)
    (owner : Nat → Owner) : Prop where
  block : ∃ compound, Releasable 1 st z page order compound
  order_lt : order < maxOrder
  aligned : Aligned page order
  inv : ∀ st', Cleaned z page order st st' → Inv env st' live owner
  home : Home st owner
  raw : ∀ a, InBlock page order a → owner a = .raw z

namespace Releasing

/-- The pages of the block pass the checks and are cleaned. -/
theorem prepare (rel : Releasing env live st z page order owner) (checkFree : Bool) :
    ∃ st1, freePagesPrepare (st.pageRefDec page) page order checkFree = .ok (st1, true) ∧
      Cleaned z page order st st1 := by
  obtain ⟨compound, block⟩ := rel.block
  obtain ⟨st1, done, clean⟩ := freePagesPrepare_spec block.dropped checkFree
  refine ⟨st1, done, clean.zones, clean.pagesets, fun a out => ?_, clean.inside⟩
  have ne : a ≠ page := fun same => out (same ▸ inBlock_self _ _)
  rw [clean.outside a out, State.pageRefDec, modifyPage_pages, if_neg ne]

theorem home_cleaned (rel : Releasing env live st z page order owner) {st1 : State}
    (clean : Cleaned z page order st st1) : Home st1 owner :=
  ⟨by rw [clean.zones]; exact rel.home.homed, by rw [clean.zones]; exact rel.home.pageset⟩

/-- A single page goes to the list of the cpu, a larger block to the buddy lists. -/
theorem freePages_eq (rel : Releasing env live st z page order owner) (cpu : Nat) :
    ∃ st1, Cleaned z page order st st1 ∧ freePages env st cpu page order =
      if order = 0 then freeUnrefPageCommit env st1 cpu page else freeOnePage env st1 page z order := by
  obtain ⟨compound, block⟩ := rel.block
  have zero : ((st.pageRefDec page).pages page).refcount = 0 := block.dropped.refcount
  rw [freePages, if_neg (by simp [block.refcount])]
  change ∃ st1, _ ∧ (if ((st.pageRefDec page).pages page).refcount = 0 then _ else _) = _
  rw [if_pos zero]
  by_cases single : order = 0
  · subst single
    obtain ⟨st1, prepare, clean⟩ := rel.prepare false
    refine ⟨st1, clean, ?_⟩
    rw [if_pos rfl, if_pos rfl, freeUnrefPage]
    exact congrArg (· >>= _) prepare
  · obtain ⟨st1, prepare, clean⟩ := rel.prepare true
    refine ⟨st1, clean, ?_⟩
    rw [if_neg single, if_neg single, freePagesOk]
    refine (congrArg (· >>= _) prepare).trans ?_
    simp only [ok_bind, Bool.true_eq_false, if_false, (clean.inside page (inBlock_self _ _)).zone]

/-- Freeing a block whose last reference is dropped: its pages end up in the allocator. -/
theorem freePages_spec (rel : Releasing env live st z page order owner) (cpu : Nat) :
    ∃ st' owner', freePages env st cpu page order = .ok st' ∧ Inv env st' live owner' ∧
      Home st' owner' ∧ (∀ a, InBlock page order a → (owner' a).Pooled) ∧
      ∀ a, ¬ InBlock page order a → Settled (owner a) (owner' a) := by
  obtain ⟨st1, clean, free_eq⟩ := rel.freePages_eq cpu
  rw [free_eq]
  by_cases single : order = 0
  · subst single
    obtain ⟨st', owner', commit, inv', home', pooled, rest, -⟩ :=
      freeUnrefPageCommit_spec (rel.inv st1 clean) (rel.home_cleaned clean)
        (rel.raw page (inBlock_self _ _)) cpu
    refine ⟨st', owner', (if_pos rfl).trans commit, inv', home', fun a hit => ?_, fun a out => ?_⟩
    · rw [(inBlock_zero page a).mp hit]
      exact pooled
    · exact rest a (fun same => out ((inBlock_zero page a).mpr same))
  · obtain ⟨st', owner', free, done⟩ := freeOnePage_spec (rel.inv st1 clean) rel.raw rel.order_lt rel.aligned
    exact ⟨st', owner', (if_neg single).trans free, done.inv,
      (rel.home_cleaned clean).of_noneListed done.frame.pageset done.noneListed,
      fun a hit => .inl (done.inside a hit), fun a out => (done.outside a out).settled⟩

end Releasing

/-- A live block is what `__free_pages` accepts, once its flags have been cleared. -/
theorem Inv.releasable (h : Inv env st live owner) (held : owner page = .live z page order)
    (clear : ∀ a, InBlock page order a → (st.pages a).flags.checkAtFree = false) :
    Releasable 1 st z page order (decide (order ≠ 0)) := by
  have block := h.blocked page page order (by rw [held]; rfl)
  have ok (a : Nat) (hit : InBlock page order a) : PageOk env a (st.pages a) (.live z page order) :=
    ((block.2.2.2 a hit).trans held) ▸ h.pages a
  have flags_eq (a : Nat) (hit : InBlock page order a) :
      (st.pages a).flags = { PageFlags.none with head := decide (a = page ∧ order ≠ 0) } := by
    have unmarked := clear a hit
    rw [PageFlags.checkAtFree, Bool.or_eq_false_iff] at unmarked
    rw [(ok a hit).2.2.2.1, unmarked.1, unmarked.2]
    rfl
  obtain ⟨-, ref, single, -⟩ := ok page (inBlock_self _ _)
  refine ⟨fun a hit => (ok a hit).1, by simpa using ref, by simpa using single, ?_, fun a hit ne => ?_,
    fun no a hit => ?_, fun is => ?_⟩
  · simpa using flags_eq page (inBlock_self _ _)
  · obtain ⟨-, ref, head, -⟩ := ok a hit
    exact ⟨by simpa [ne] using ref, by simpa [ne, PageFlags.none] using flags_eq a hit,
      fun _ => by simpa [ne] using head⟩
  · have zero : order = 0 := by simpa using no
    subst zero
    rw [(inBlock_zero page a).mp hit]
    simpa using single
  · have ne : order ≠ 0 := by simpa using is
    refine ⟨ne, ?_⟩
    have hit : InBlock page order (page + 1) := by
      have : 2 ^ 1 ≤ 2 ^ order := Nat.pow_le_pow_right (by decide) (by omega)
      simp only [InBlock]
      omega
    exact (ok (page + 1) hit).2.2.2.2 rfl

/-! ## Allocating -/

theorem checkNewPages_spec {n i : Nat} (clean : ∀ a, page + i ≤ a → a < page + i + n → Clean z (st.pages a)) :
    checkNewPages st page n i = false := by
  induction n generalizing i with
  | zero => rfl
  | succ n ih =>
      rw [checkNewPages, (clean (page + i) (by omega) (by omega)).checkNewPage, Bool.false_or]
      exact ih (fun a low high => clean a (by omega) (by omega))

/-- Nothing is wrong with a block from the buddy lists. -/
theorem Inv.taken_good (h : Inv env st live owner) (lt : order < maxOrder) {st' : State}
    (taken : rmqueueSmallest st z order = .ok (st', some page)) : checkNewPages st' page (1 <<< order) 0 = false := by
  obtain ⟨owner', got⟩ := h.taken lt taken
  have clean (a : Nat) (low : page + 0 ≤ a) (high : a < page + 0 + 1 <<< order) : Clean z (st'.pages a) := by
    rw [Nat.one_shiftLeft] at high
    exact (got.inside a ⟨by omega, by omega⟩ ▸ got.inv.pages a :)
  exact checkNewPages_spec clean

/-- The loop of `rmqueue` accepts the first block it gets. -/
theorem rmqueueLoop_eq (fuel : Nat) (h : Inv env st live owner) (lt : order < maxOrder) :
    rmqueueLoop z order (fuel + 1) st = rmqueueSmallest st z order := by
  rw [rmqueueLoop]
  cases taken : rmqueueSmallest st z order with
  | error bug => rfl
  | ok r =>
      obtain ⟨st', found⟩ := r
      cases found with
      | none => rfl
      | some page => simp only [ok_bind, h.taken_good lt taken, Bool.false_eq_true, if_false, pure_eq_ok]

theorem rmqueueLoop_spec (fuel : Nat) (h : Inv env st live owner) (home : Home st owner)
    (lt : order < maxOrder) :
    Outcome InUninitialized (Got env live z order owner) (rmqueueLoop z order (fuel + 1) st) := by
  rw [rmqueueLoop_eq fuel h lt]
  refine (rmqueueSmallest_spec h lt).mono ?_
  rintro ⟨st', found⟩ (none | ⟨page, owner', some, taken⟩)
  · cases none
    exact .inl ⟨rfl, owner, h, home, fun _ => .inl rfl⟩
  · simp only at some taken
    subst some
    exact .inr ⟨page, owner', rfl, taken.inv, home.of_noneListed taken.frame.pageset taken.noneListed, taken.aligned,
      fun a hit => ⟨taken.inside a hit, .inl (taken.was a hit)⟩,
      fun a out => (taken.outside a out).settled⟩

theorem rmqueue_spec (h : Inv env st live owner) (home : Home st owner) (cpu : Nat)
    (lt : order < maxOrder) :
    Outcome InUninitialized (Got env live z order owner) (rmqueue st cpu z order) := by
  unfold rmqueue
  split
  · rename_i zero
    rw [zero]
    exact rmqueuePcplist_spec h home cpu
  · exact rmqueueLoop_spec (2 ^ 64 - 1) h home lt

theorem prepTails_pages (n : Nat) (i : Nat) (st : State) :
    (prepTails page n i st).zones = st.zones ∧ (prepTails page n i st).pagesets = st.pagesets ∧
      ∀ a, (prepTails page n i st).pages a =
        if page + i ≤ a ∧ a < page + i + n then
          { st.pages a with refcount := 0, compoundHead := some page }
        else st.pages a := by
  induction n generalizing i st with
  | zero => exact ⟨rfl, rfl, fun a => by rw [if_neg (by omega)]; rfl⟩
  | succ n ih =>
      obtain ⟨zones, pagesets, pages⟩ := ih (i + 1) (st.modifyPage (page + i)
        (fun p => { p with refcount := 0, compoundHead := some page }))
      refine ⟨zones, pagesets, fun a => ?_⟩
      rw [prepTails, pages, modifyPage_pages]
      by_cases same : a = page + i
      · subst same
        rw [if_neg (by omega), if_pos rfl, if_pos (by omega)]
      · rw [if_neg same]
        by_cases hit : page + (i + 1) ≤ a ∧ a < page + (i + 1) + n
        · rw [if_pos hit, if_pos (by omega)]
        · rw [if_neg hit, if_neg (by omega)]

theorem prepNewPage_spec (clean : ∀ a, InBlock page order a → Clean z (st.pages a)) :
    ∃ st', prepNewPage st page order = .ok st' ∧ st'.zones = st.zones ∧ st'.pagesets = st.pagesets ∧
      (∀ a, ¬ InBlock page order a → st'.pages a = st.pages a) ∧
      ∀ a, InBlock page order a → PageOk env a (st'.pages a) (.live z page order) := by
  have self := inBlock_self page order
  have head := clean page self
  have counted : (st.modifyPage page (fun p => { p with priv := 0 })).setPageRefcounted page =
      .ok ((st.modifyPage page (fun p => { p with priv := 0 })).modifyPage page
        (fun p => { p with refcount := 1 })) := by
    rw [State.setPageRefcounted, if_neg, if_neg]
    · simp [head.refcount]
    · simp [Page.pageTail, head.compoundHead]
  simp only [prepNewPage, counted, ok_bind]
  generalize step : (st.modifyPage page (fun p => { p with priv := 0 })).modifyPage page
    (fun p => { p with refcount := 1 }) = st1
  have zones1 : st1.zones = st.zones := by rw [← step]; rfl
  have pagesets1 : st1.pagesets = st.pagesets := by rw [← step]; rfl
  have pages1 (a : Nat) : st1.pages a =
      if a = page then { st.pages page with priv := 0, refcount := 1 } else st.pages a := by
    rw [← step]
    by_cases same : a = page <;> simp [same]
  by_cases single : order = 0
  · subst single
    refine ⟨st1, by simp, zones1, pagesets1, fun a out => ?_, fun a hit => ?_⟩
    · rw [pages1, if_neg (fun same => out ((inBlock_zero page a).mpr same))]
    · obtain rfl := (inBlock_zero page a).mp hit
      rw [pages1, if_pos rfl]
      exact ⟨head.zone, by simp, by simp [head.compoundHead], by simp [head.flags, PageFlags.none],
        fun same => by omega⟩
  · have pos : 2 ≤ 2 ^ order := by
      calc 2 = 2 ^ 1 := rfl
        _ ≤ 2 ^ order := Nat.pow_le_pow_right (by decide) (by omega)
    refine ⟨prepCompoundPage st1 page order, by simp [single], ?_⟩
    rw [prepCompoundPage]
    obtain ⟨zones, pagesets, pages⟩ := @prepTails_pages page ((1 <<< order) - 1) 1
      ((st1.modifyPage (page + 1) (fun p => { p with compoundOrder := order })).modifyPage page
        (fun p => { p with flags := { p.flags with head := true } }))
    refine ⟨zones.trans zones1, pagesets.trans pagesets1, fun a out => ?_, fun a hit => ?_⟩
    · have ne : a ≠ page := fun same => out (same ▸ self)
      have ne' : a ≠ page + 1 := fun same => out (by rw [same]; simp only [InBlock]; omega)
      rw [pages, if_neg, modifyPage_pages, if_neg ne, modifyPage_pages, if_neg ne', pages1, if_neg ne]
      rw [Nat.one_shiftLeft]
      rintro ⟨low, high⟩
      exact out ⟨by omega, by omega⟩
    · rw [pages, Nat.one_shiftLeft]
      by_cases same : a = page
      · subst same
        rw [if_neg (by omega), modifyPage_pages, if_pos rfl, modifyPage_pages, if_neg (by omega), pages1,
          if_pos rfl]
        exact ⟨head.zone, by simp, by simp [head.compoundHead], by simp [head.flags, single],
          fun same => by omega⟩
      · have own := clean a hit
        rw [if_pos (tails_of_block hit same), modifyPage_pages, if_neg same, modifyPage_pages]
        by_cases next : a = page + 1
        · subst next
          rw [if_pos rfl, pages1, if_neg (by omega)]
          exact ⟨own.zone, by simp, by simp, by simp [own.flags, PageFlags.none], fun _ => rfl⟩
        · rw [if_neg next, pages1, if_neg same]
          exact ⟨own.zone, by simp [same], by simp [same], by simp [own.flags, PageFlags.none, same],
            fun eq => absurd eq next⟩

/-- `__alloc_pages`: nothing, or a block that was in the allocator and is live now. -/
theorem allocPages_spec (h : Inv env st live owner) (home : Home st owner) (cpu : Nat)
    (gfp : BitVec 32) (order : Nat) :
    Outcome InUninitialized (fun r =>
        (r.2 = none ∧ ∃ owner', Inv env r.1 live owner' ∧ Home r.1 owner' ∧
          ∀ a, Settled (owner a) (owner' a)) ∨
        ∃ page owner', r.2 = some page ∧ Inv env r.1 ((page, order) :: live) owner' ∧ Home r.1 owner' ∧
          (∀ a, InBlock page order a → (owner a).Pooled ∧ (owner' a).IsLive) ∧
          ∀ a, ¬ InBlock page order a → Settled (owner a) (owner' a))
      (allocPages st cpu gfp order) := by
  unfold allocPages
  by_cases large : order ≥ maxOrder
  · rw [if_pos large]
    exact .inl ⟨rfl, owner, h, home, fun _ => .inl rfl⟩
  rw [if_neg large]
  have lt : order < maxOrder := by omega
  refine (rmqueue_spec h home cpu lt).bind ?_
  rintro ⟨st', found⟩ (⟨none, nothing⟩ | ⟨page, owner', some, inv, home', aligned, inside, outside⟩)
  · simp only at none
    subst none
    exact .inl ⟨rfl, nothing⟩
  · simp only at some inv home'
    subst some
    obtain ⟨st'', prep, zones, pagesets, same, marked⟩ := @prepNewPage_spec env st' (gfpZone gfp) page
      order (fun a hit => ((inside a hit).1 ▸ inv.pages a :))
    simp only [prep, ok_bind]
    have live' := inv.allocate (fun a hit => (inside a hit).1) lt aligned zones pagesets same marked
    have home'' : Home st'' (assign owner' page order (.live (gfpZone gfp) page order)) :=
      home'.of_noneListed (by rw [zones]; exact fun _ => rfl) (noneListed_assign (not_isPcp_live _ _ _))
    refine .inr ⟨page, _, rfl, live', home'', fun a hit => ?_, fun a out => ?_⟩
    · rw [assign_inside hit]
      exact ⟨(inside a hit).2, _, _, _, rfl⟩
    · rw [assign_outside out]
      exact outside a out

/-! ## Boot -/

theorem bootPages_spec (n : Nat) {i : Nat} {st : State}
    (fresh : ∀ a, page + i ≤ a → a < page + i + n → (st.pages a).pageCompound = false) :
    ∃ st', bootPages page n i st = .ok st' ∧ st'.zones = st.zones ∧ st'.pagesets = st.pagesets ∧
      ∀ a, st'.pages a = if page + i ≤ a ∧ a < page + i + n then
          { st.pages a with flags := { (st.pages a).flags with reserved := false }, refcount := 0 }
        else st.pages a := by
  induction n generalizing i st with
  | zero => exact ⟨st, rfl, rfl, rfl, fun a => by rw [if_neg (by omega)]⟩
  | succ n ih =>
      have first := fresh (page + i) (by omega) (by omega)
      obtain ⟨st', done, zones, pagesets, pages⟩ := @ih (i + 1) (st.modifyPage (page + i)
        (fun p => { p with flags := { p.flags with reserved := false }, refcount := 0 }))
        (fun a low high => by
          rw [modifyPage_pages, if_neg (by omega)]
          exact fresh a (by omega) (by omega))
      refine ⟨st', ?_, zones, pagesets, fun a => ?_⟩
      · rw [bootPages, first]
        exact done
      · rw [pages, modifyPage_pages]
        by_cases same : a = page + i
        · subst same
          rw [if_neg (by omega), if_pos rfl, if_pos (by omega)]
        · rw [if_neg same]
          by_cases hit : page + (i + 1) ≤ a ∧ a < page + (i + 1) + n
          · rw [if_pos hit, if_pos (by omega)]
          · rw [if_neg hit, if_neg (by omega)]

end

end Miracle.PageAlloc
