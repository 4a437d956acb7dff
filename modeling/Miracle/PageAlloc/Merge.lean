import Miracle.Lib.Outcome
import Miracle.PageAlloc.Ownership

/-! # Merging and splitting keep the invariant

A freed block ends up free together with the buddies it was merged with, and an allocation
takes its pages from one free block.  All other pages stay where they are.
-/

namespace Miracle.PageAlloc

open PowBlock

/-- The page stays with its owner, or moves from one free block to another. -/
def Kept (o o' : Owner) : Prop := o' = o ∨ (o.IsFree ∧ o'.IsFree)

theorem Kept.trans {o o' o'' : Owner} (h : Kept o o') (h' : Kept o' o'') : Kept o o'' := by
  rcases h' with rfl | ⟨free, free'⟩
  · exact h
  · rcases h with rfl | ⟨first, -⟩
    · exact .inr ⟨free, free'⟩
    · exact .inr ⟨first, free'⟩

theorem Kept.eq {o o' : Owner} (h : Kept o o') (not : ¬ o.IsFree) : o' = o := by
  rcases h with same | ⟨free, -⟩
  · exact same
  · exact absurd free not

/-- No page has come to a per-cpu list. -/
def NoneListed (owner owner' : Nat → Owner) : Prop :=
  ∀ a id cpu z, owner' a = .pcp id cpu z → owner a = .pcp id cpu z

theorem Kept.noneListed {o o' : Owner} (h : Kept o o') {id : PagesetId} {cpu : Nat} {z : ZoneType}
    (held : o' = .pcp id cpu z) : o = .pcp id cpu z := by
  rcases h with same | ⟨-, _, _, _, free⟩
  · rw [← same, held]
  · rw [free] at held
    cases held

theorem NoneListed.of_block {owner owner' : Nat → Owner} {pfn order : Nat}
    (inside : ∀ a, InBlock pfn order a → ¬ (owner' a).IsPcp)
    (outside : ∀ a, ¬ InBlock pfn order a → Kept (owner a) (owner' a)) : NoneListed owner owner' := by
  intro a id cpu z held
  by_cases hit : InBlock pfn order a
  · exact absurd ⟨id, cpu, z, held⟩ (inside a hit)
  · exact (outside a hit).noneListed held

theorem noneListed_assign {owner : Nat → Owner} {pfn order : Nat} {o : Owner} (not : ¬ o.IsPcp) :
    NoneListed owner (assign owner pfn order o) :=
  .of_block (fun a hit => by rw [assign_inside hit]; exact not) (fun a out => .inl (assign_outside out))

/-- What the buddy lists have no part in. -/
structure Frame (st st' : State) : Prop where
  pagesets : st'.pagesets = st.pagesets
  pageset : ∀ z, (st'.zones z).pageset = (st.zones z).pageset
  initialized : ∀ z, (st'.zones z).initialized = (st.zones z).initialized

theorem Frame.refl (st : State) : Frame st st := ⟨rfl, fun _ => rfl, fun _ => rfl⟩

theorem Frame.trans {st st' st'' : State} (h : Frame st st') (h' : Frame st' st'') : Frame st st'' :=
  ⟨h'.pagesets.trans h.pagesets, fun z => (h'.pageset z).trans (h.pageset z),
    fun z => (h'.initialized z).trans (h.initialized z)⟩

theorem Frame.modifyPage (st : State) (pfn : Nat) (f : Page → Page) : Frame st (st.modifyPage pfn f) :=
  ⟨rfl, fun _ => rfl, fun _ => rfl⟩

theorem Frame.modifyArea (st : State) (z : ZoneType) (k : Nat) (f : FreeArea → FreeArea) :
    Frame st (st.modifyArea z k f) :=
  ⟨rfl, fun z' => (modifyArea_zones st z k f z').2, fun z' => (modifyArea_zones st z k f z').1⟩

theorem Frame.takeFree (st : State) (z : ZoneType) (k p : Nat) :
    Frame st ((st.delFree z k p).rmvPageOrder p) :=
  (Frame.modifyArea st z k _).trans (Frame.modifyPage (st.delFree z k p) p _)

theorem Frame.putFree (st : State) (z : ZoneType) (k p : Nat) (tail : Bool) :
    Frame st ((st.setPageOrder p k).addFree z k p tail) :=
  (Frame.modifyPage st p _).trans (Frame.modifyArea (st.setPageOrder p k) z k _)

section

variable {env : Env} {st : State} {live : List (Nat × Nat)} {owner : Nat → Owner} {z : ZoneType}

theorem Inv.freePage (h : Inv env st live owner) {k p : Nat} (held : owner p = .free z k p) :
    (st.pages p).zone = z ∧ (st.pages p).refcount = 0 ∧ (st.pages p).compoundHead = none ∧
      (st.pages p).flags.buddy = true ∧ (st.pages p).priv = k := by
  obtain ⟨zone, ref, tail, flags, priv⟩ : PageOk env p (st.pages p) (.free z k p) := held ▸ h.pages p
  exact ⟨zone, ref, tail, by simp [flags], priv rfl⟩

/-- `PG_buddy` marks the heads of the free blocks. -/
theorem Inv.buddyFlag (h : Inv env st live owner) {a : Nat} (flag : (st.pages a).flags.buddy = true) :
    ∃ z k, owner a = .free z k a := by
  have ok := h.pages a
  cases held : owner a with
  | unmanaged =>
      rw [held] at ok
      simp only [PageOk] at ok
      rw [ok] at flag
      cases flag
  | raw z | pcp id cpu z =>
      rw [held] at ok
      have flags := Clean.flags ok
      rw [flags] at flag
      cases flag
  | free z k p =>
      rw [held] at ok
      obtain ⟨-, -, -, flags, -⟩ := ok
      rw [flags] at flag
      simp only [decide_eq_true_eq] at flag
      exact ⟨z, k, by rw [← flag]⟩
  | live z p k =>
      rw [held] at ok
      obtain ⟨-, -, -, flags, -⟩ := ok
      rw [flags] at flag
      simp [PageFlags.none] at flag

theorem pageIsBuddy_spec (h : Inv env st live owner) (page buddy order : Nat) :
    ∃ b, pageIsBuddy st page buddy order = .ok b ∧
      (b = true ↔ owner buddy = .free (st.pages page).zone order buddy) := by
  unfold pageIsBuddy
  by_cases marked : (st.pages buddy).flags.buddy = true ∧ (st.pages buddy).priv = order
  · obtain ⟨z, k, held⟩ := h.buddyFlag marked.1
    obtain ⟨zone, ref, tail, -, priv⟩ := h.freePage held
    have count : st.pageCount buddy = 0 := by
      rw [State.pageCount, tail]
      exact ref
    have order : k = order := priv.symm.trans marked.2
    rw [if_pos marked]
    by_cases same : (st.pages page).zone = (st.pages buddy).zone
    · refine ⟨true, by rw [if_neg (not_not_intro same), if_neg (not_not_intro count)], ?_⟩
      rw [same, zone, held, order]
      simp
    · refine ⟨false, if_pos same, iff_of_false (by simp) (fun eq => same ?_)⟩
      rw [held] at eq
      cases eq
      exact zone.symm
  · refine ⟨false, if_neg marked, iff_of_false (by simp) (fun held => marked ?_)⟩
    obtain ⟨-, -, -, flag, priv⟩ := h.freePage held
    exact ⟨flag, priv⟩

theorem findBuddyPfn_eq (pfn order : Nat) : findBuddyPfn pfn order = buddy pfn order := by
  rw [findBuddyPfn, buddy, Nat.one_shiftLeft]

/-- What holds when merging has ended: the block of `m` is loose, holds the freed block and
    otherwise only pages that were free, and its buddy is not free. -/
structure MergedOk (env : Env) (live : List (Nat × Nat)) (z : ZoneType) (st : State)
    (owner : Nat → Owner) (pfn order : Nat) (m : Merged) (owner' : Nat → Owner) : Prop where
  inv : Inv env m.st live owner'
  frame : Frame st m.st
  loose : ∀ a, InBlock m.pfn m.order a → owner' a = .raw z
  order_lt : m.order < maxOrder
  aligned : Aligned m.pfn m.order
  inside : ∀ a, InBlock pfn order a → InBlock m.pfn m.order a
  merged : ∀ a, InBlock m.pfn m.order a → InBlock pfn order a ∨ (owner a).IsFree
  outside : ∀ a, ¬ InBlock m.pfn m.order a → owner' a = owner a

theorem mergeLoop_spec {m : Merged} {owner' : Nat → Owner} {pfn order fuel : Nat}
    (ok : MergedOk env live z st owner pfn order m owner') (fueled : maxOrder ≤ fuel + m.order) :
    ∃ m' owner'', mergeLoop env z (fuel + 1) maxOrder m = .ok m' ∧
      MergedOk env live z st owner pfn order m' owner'' ∧
      (m'.order + 1 < maxOrder →
        owner'' (buddy m'.pfn m'.order) ≠ .free z m'.order (buddy m'.pfn m'.order)) := by
  induction fuel generalizing m owner' with
  | zero =>
      have := ok.order_lt
      omega
  | succ fuel ih =>
      rw [mergeLoop]
      by_cases top : m.order < maxOrder - 1
      · rw [if_pos top]
        simp only [findBuddyPfn_eq]
        obtain ⟨isBuddy, tested, meaning⟩ := pageIsBuddy_spec ok.inv m.pfn (buddy m.pfn m.order) m.order
        have clean : Clean z (m.st.pages m.pfn) :=
          (ok.loose m.pfn (inBlock_self _ _) ▸ ok.inv.pages m.pfn :)
        rw [clean.zone] at meaning
        by_cases hole : env.pfnValid (buddy m.pfn m.order) = false
        · rw [if_pos hole]
          refine ⟨_, owner', rfl, ⟨ok.inv, ok.frame, ok.loose, ok.order_lt, ok.aligned, ok.inside,
            ok.merged, ok.outside⟩, fun _ held => ?_⟩
          rw [ok.inv.valid _ (by simp only [ne_eq]; rw [held]; simp)] at hole
          cases hole
        · rw [if_neg hole, tested, ok_bind]
          by_cases free : isBuddy = true
          · have held := meaning.mp free
            have taken := ok.inv.takeFree held
            have all : ∀ a, InBlock (buddy m.pfn m.order) m.order a →
                owner' a = .free z m.order (buddy m.pfn m.order) := fun a hit =>
              ((ok.inv.blocked _ _ _ (by rw [held]; rfl)).2.2.2 a hit).trans held
            have both := inBlock_combined ok.aligned
            rw [if_neg (by simp [free])]
            refine ih (m := ⟨_, _, _, _⟩) ⟨taken, ?_, ?_, by simp only; omega, ?_, ?_, ?_, ?_⟩
              (by simp only; omega)
            · exact ok.frame.trans (.takeFree ..)
            · intro a hit
              rw [Nat.and_comm, both] at hit
              rcases hit with hit | hit
              · rw [assign_outside (not_inBlock_buddy ok.aligned hit), ok.loose a hit]
              · exact assign_inside hit
            · rw [Nat.and_comm]
              exact ok.aligned.combined
            · intro a hit
              rw [Nat.and_comm, both]
              exact .inl (ok.inside a hit)
            · intro a hit
              rw [Nat.and_comm, both] at hit
              rcases hit with hit | hit
              · exact ok.merged a hit
              · have out : ¬ InBlock m.pfn m.order a := by
                  intro own
                  exact not_inBlock_buddy ok.aligned own hit
                refine .inr ⟨z, m.order, buddy m.pfn m.order, ?_⟩
                rw [← ok.outside a out, all a hit]
            · intro a out
              rw [Nat.and_comm, both, not_or] at out
              rw [assign_outside out.2, ok.outside a out.1]
          · have no : isBuddy = false := by simpa using free
            rw [if_pos no]
            refine ⟨_, owner', rfl, ⟨ok.inv, ok.frame, ok.loose, ok.order_lt, ok.aligned, ok.inside,
              ok.merged, ok.outside⟩, fun _ held => free (meaning.mpr held)⟩
      · rw [if_neg top, if_neg (lt_irrefl _)]
        refine ⟨m, owner', rfl, ok, fun below => absurd below ?_⟩
        omega

/-- A loose block has been freed. -/
structure Freed (env : Env) (live : List (Nat × Nat)) (pfn order : Nat) (st : State)
    (owner : Nat → Owner) (st' : State) (owner' : Nat → Owner) : Prop where
  inv : Inv env st' live owner'
  frame : Frame st st'
  inside : ∀ a, InBlock pfn order a → (owner' a).IsFree
  outside : ∀ a, ¬ InBlock pfn order a → Kept (owner a) (owner' a)

theorem Freed.noneListed {pfn order : Nat} {st' : State} {owner' : Nat → Owner}
    (freed : Freed env live pfn order st owner st' owner') : NoneListed owner owner' := by
  refine .of_block (fun a hit => ?_) freed.outside
  obtain ⟨z, k, p, free⟩ := freed.inside a hit
  rw [free]
  exact not_isPcp_free z k p

theorem freeOnePage_spec {pfn order : Nat} (h : Inv env st live owner)
    (loose : ∀ a, InBlock pfn order a → owner a = .raw z) (lt : order < maxOrder)
    (aligned : Aligned pfn order) :
    ∃ st' owner', freeOnePage env st pfn z order = .ok st' ∧
      Freed env live pfn order st owner st' owner' := by
  have self := loose pfn (inBlock_self _ _)
  have clean : Clean z (st.pages pfn) := (self ▸ h.pages pfn :)
  have init : (st.zones z).initialized = true := h.initialized pfn z (by rw [self]; rfl)
  have low : pfn &&& ((1 <<< order) - 1) = 0 := by
    rw [Nat.one_shiftLeft, Nat.and_two_pow_sub_one_eq_mod]
    exact Nat.mod_eq_zero_of_dvd aligned
  obtain ⟨m, owner', merge, ok, alone⟩ := @mergeLoop_spec env st live owner z ⟨st, pfn, order, none⟩
    owner pfn order 21 ⟨h, .refl st, loose, lt, aligned, fun _ => id, fun _ => .inl, fun _ _ => rfl⟩
    (by simp only [maxOrder]; omega)
  have done (tail : Bool) := ok.inv.putFree ok.loose ok.order_lt ok.aligned alone tail
  -- the look at the next higher buddy reads pages only
  obtain ⟨tail, looked⟩ : ∃ tail, higherBuddyFree env (m.st.setPageOrder m.pfn m.order) m.pfn m.order
      m.buddyPfn = .ok tail := by
    unfold higherBuddyFree
    split
    · exact ⟨false, rfl⟩
    · split
      · dsimp only
        split
        · obtain ⟨b, tested, -⟩ := pageIsBuddy_spec (done false) (_ &&& m.pfn)
            (findBuddyPfn (_ &&& m.pfn) (m.order + 1)) (m.order + 1)
          exact ⟨b, tested⟩
        · exact ⟨false, rfl⟩
      · exact ⟨false, rfl⟩
  refine ⟨_, _, ?_, done tail, ?_, fun a hit => ?_, fun a out => ?_⟩
  · have bound : min maxOrder (pageblockOrder + 1) = maxOrder := by decide
    have noFlags : (st.pages pfn).flags.checkAtPrep = false := by rw [clean.flags]; rfl
    rw [freeOnePage, if_neg (by simp [init]), if_neg (by simp [noFlags]), if_neg (not_not_intro low), bound,
      show 2 * maxOrder = 21 + 1 from rfl, merge, ok_bind]
    simp only [looked, ok_bind, pure_eq_ok]
  · exact ok.frame.trans (.putFree ..)
  · rw [assign_inside (ok.inside a hit)]
    exact ⟨_, _, _, rfl⟩
  · by_cases hit : InBlock m.pfn m.order a
    · rw [assign_inside hit]
      exact .inr ⟨(ok.merged a hit).resolve_left out, _, _, _, rfl⟩
    · rw [assign_outside hit]
      exact .inl (ok.outside a hit)

/-! ## Splitting -/

/-- Pages have been taken out of a free block. -/
structure Taken (env : Env) (live : List (Nat × Nat)) (z : ZoneType) (pfn order : Nat) (st : State)
    (owner : Nat → Owner) (st' : State) (owner' : Nat → Owner) : Prop where
  inv : Inv env st' live owner'
  frame : Frame st st'
  inside : ∀ a, InBlock pfn order a → owner' a = .raw z
  was : ∀ a, InBlock pfn order a → (owner a).IsFree
  outside : ∀ a, ¬ InBlock pfn order a → Kept (owner a) (owner' a)
  aligned : Aligned pfn order

theorem Taken.noneListed {pfn order : Nat} {st' : State} {owner' : Nat → Owner}
    (taken : Taken env live z pfn order st owner st' owner') : NoneListed owner owner' :=
  .of_block (fun a hit => by rw [taken.inside a hit]; exact not_isPcp_raw z) taken.outside

theorem expand_spec {page low high : Nat} (h : Inv env st live owner) (le : low ≤ high)
    (lt : high < maxOrder) (aligned : Aligned page high)
    (loose : ∀ a, InBlock page high a → owner a = .raw z) :
    ∃ owner', Inv env (expand z page low high st) live owner' ∧ Frame st (expand z page low high st) ∧
      Aligned page low ∧ (∀ a, InBlock page low a → InBlock page high a ∧ owner' a = .raw z) ∧
      (∀ a, InBlock page high a → ¬ InBlock page low a → (owner' a).IsFree) ∧
      (∀ a, ¬ InBlock page high a → owner' a = owner a) := by
  induction high generalizing st owner with
  | zero =>
      obtain rfl : low = 0 := by omega
      exact ⟨owner, h, .refl st, aligned, fun a hit => ⟨hit, loose a hit⟩,
        fun a hit out => absurd hit out, fun _ _ => rfl⟩
  | succ high ih =>
      rw [expand]
      by_cases more : high + 1 > low
      · rw [if_pos more, Nat.one_shiftLeft]
        have halves := inBlock_halves page high
        have upper : ∀ a, InBlock (page + 2 ^ high) high a → owner a = .raw z :=
          fun a hit => loose a ((halves a).mpr (.inr hit))
        -- the buddy of the upper half is loose
        have alone : high + 1 < maxOrder → owner (buddy (page + 2 ^ high) high) ≠
            .free z high (buddy (page + 2 ^ high) high) := by
          intro _
          rw [buddy_upper aligned, loose page ((halves page).mpr (.inl (inBlock_self _ _)))]
          simp
        have put := h.putFree upper (by omega) aligned.upper alone false
        have apart {a : Nat} (hit : InBlock page high a) : ¬ InBlock (page + 2 ^ high) high a := by
          simp only [InBlock] at *
          omega
        obtain ⟨owner', inv, frame, low', inside, rest, outside⟩ := ih put (by omega) (by omega)
          aligned.of_succ (fun a hit => by
            rw [assign_outside (apart hit)]
            exact loose a ((halves a).mpr (.inl hit)))
        refine ⟨owner', inv, ?_, low', fun a hit => ?_, fun a hit out => ?_, fun a out => ?_⟩
        · exact (Frame.putFree st z high (page + 2 ^ high) false).trans frame
        · obtain ⟨hit', raw⟩ := inside a hit
          exact ⟨(halves a).mpr (.inl hit'), raw⟩
        · by_cases hit' : InBlock page high a
          · exact rest a hit' out
          · rw [outside a hit', assign_inside (((halves a).mp hit).resolve_left hit')]
            exact ⟨_, _, _, rfl⟩
        · rw [halves, not_or] at out
          rw [outside a out.1, assign_outside out.2]
      · obtain rfl : low = high + 1 := by omega
        rw [if_neg more]
        exact ⟨owner, h, .refl st, aligned, fun a hit => ⟨hit, loose a hit⟩,
          fun a hit out => absurd hit out, fun _ _ => rfl⟩

theorem rmqueueSmallestLoop_spec {order n currentOrder : Nat} (h : Inv env st live owner)
    (le : order ≤ currentOrder) (bound : currentOrder + n ≤ maxOrder) :
    (rmqueueSmallestLoop z order n currentOrder st = (st, none)) ∨
      ∃ st' page owner', rmqueueSmallestLoop z order n currentOrder st = (st', some page) ∧
        Taken env live z page order st owner st' owner' := by
  induction n generalizing currentOrder with
  | zero => exact .inl rfl
  | succ n ih =>
      rw [rmqueueSmallestLoop]
      cases list : st.freeList z currentOrder with
      | nil => exact ih (by omega) (by omega)
      | cons page rest =>
          have held : owner page = .free z currentOrder page := by
            rw [← h.freeLists.mem_iff]
            show page ∈ st.freeList z currentOrder
            simp [list]
          have block := h.blocked page page currentOrder (by rw [held]; rfl)
          have all : ∀ a, InBlock page currentOrder a → owner a = .free z currentOrder page :=
            fun a hit => (block.2.2.2 a hit).trans held
          obtain ⟨owner', inv, frame, aligned, inside, split, outside⟩ :=
            expand_spec (h.takeFree held) le block.1 block.2.1 (fun a hit => assign_inside hit)
          refine .inr ⟨_, page, owner', rfl, inv, ?_, fun a hit => (inside a hit).2,
            fun a hit => ?_, fun a out => ?_, aligned⟩
          · exact (Frame.takeFree st z currentOrder page).trans frame
          · rw [all a (inside a hit).1]
            exact ⟨_, _, _, rfl⟩
          · by_cases hit : InBlock page currentOrder a
            · refine .inr ⟨?_, split a hit out⟩
              rw [all a hit]
              exact ⟨_, _, _, rfl⟩
            · rw [outside a hit, assign_outside hit]
              exact .inl rfl

/-- The one way in which taking pages can stop: the lists of the zone were never set up. -/
def InUninitialized (bug : Bug) : Prop := bug = .uninitializedList

theorem rmqueueSmallest_spec {order : Nat} (h : Inv env st live owner) (lt : order < maxOrder) :
    Outcome InUninitialized (fun r => r = (st, none) ∨
        ∃ page owner', r.2 = some page ∧ Taken env live z page order st owner r.1 owner')
      (rmqueueSmallest st z order) := by
  unfold rmqueueSmallest
  split
  · rfl
  · rcases @rmqueueSmallestLoop_spec env st live owner z order (maxOrder - order) order h le_rfl
      (by omega) with none | ⟨st', page, owner', some, taken⟩
    · exact .inl none
    · rw [some]
      exact .inr ⟨page, owner', rfl, taken⟩

theorem Inv.taken {order page : Nat} {st' : State} (h : Inv env st live owner) (lt : order < maxOrder)
    (taken : rmqueueSmallest st z order = .ok (st', some page)) :
    ∃ owner', Taken env live z page order st owner st' owner' := by
  have spec := @rmqueueSmallest_spec env st live owner z order h lt
  rw [taken] at spec
  rcases spec with none | ⟨page', owner', same, got⟩
  · cases none
  · cases same
    exact ⟨owner', got⟩

end

end Miracle.PageAlloc
