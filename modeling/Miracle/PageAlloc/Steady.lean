import Miracle.PageAlloc.Merge

/-! # What the allocator leaves alone

No operation moves a page to another zone, sets a flag that the free path checks, changes the sizes of a per-cpu list or
gives a zone another pageset.
This needs no invariant: it is read off the functions one by one.
-/

namespace Miracle.PageAlloc

/-- The page keeps its zone, and a flag that is checked on free is not set. -/
structure Page.Steady (p p' : Page) : Prop where
  zone : p'.zone = p.zone
  clear : p.flags.checkAtFree = false → p'.flags.checkAtFree = false

theorem Page.Steady.of_eq {p p' : Page} (zone : p'.zone = p.zone) (flags : p'.flags.checkAtFree = p.flags.checkAtFree) :
    p.Steady p' := ⟨zone, fun clear => flags.trans clear⟩

structure Steady (st st' : State) : Prop where
  pages : ∀ a, (st.pages a).Steady (st'.pages a)
  sizes : ∀ id cpu, (st'.pagesets id cpu).high = (st.pagesets id cpu).high ∧
    (st'.pagesets id cpu).batch = (st.pagesets id cpu).batch
  zones : ∀ z, (st'.zones z).initialized = (st.zones z).initialized ∧ (st'.zones z).pageset = (st.zones z).pageset

namespace Steady

theorem refl (st : State) : Steady st st := ⟨fun _ => ⟨rfl, id⟩, fun _ _ => ⟨rfl, rfl⟩, fun _ => ⟨rfl, rfl⟩⟩

theorem trans {st st' st'' : State} (h : Steady st st') (h' : Steady st' st'') : Steady st st'' where
  pages := by
    intro a
    exact ⟨(h'.pages a).zone.trans (h.pages a).zone, fun clear => (h'.pages a).clear ((h.pages a).clear clear)⟩
  sizes := by
    intro id cpu
    exact ⟨(h'.sizes id cpu).1.trans (h.sizes id cpu).1, (h'.sizes id cpu).2.trans (h.sizes id cpu).2⟩
  zones := by
    intro z
    exact ⟨(h'.zones z).1.trans (h.zones z).1, (h'.zones z).2.trans (h.zones z).2⟩

theorem modifyPage (st : State) (pfn : Nat) {f : Page → Page} (keep : ∀ p : Page, p.Steady (f p)) :
    Steady st (st.modifyPage pfn f) where
  pages := by
    intro a
    rw [modifyPage_pages]
    split
    · rename_i here
      rw [here]
      exact keep _
    · exact ⟨rfl, id⟩
  sizes := fun _ _ => ⟨rfl, rfl⟩
  zones := fun _ => ⟨rfl, rfl⟩

theorem modifyZone (st : State) (z : ZoneType) {f : Zone → Zone}
    (keep : ∀ zone, (f zone).initialized = zone.initialized ∧ (f zone).pageset = zone.pageset) :
    Steady st (st.modifyZone z f) where
  pages := fun _ => ⟨rfl, id⟩
  sizes := fun _ _ => ⟨rfl, rfl⟩
  zones := by
    intro z'
    by_cases same : z' = z
    · subst same
      simp only [State.modifyZone, Function.update_self]
      exact keep _
    · have other : (st.modifyZone z f).zones z' = st.zones z' := Function.update_of_ne same _ _
      rw [other]
      exact ⟨rfl, rfl⟩

theorem modifyPcp (st : State) (id : PagesetId) (cpu : Nat) {f : Pcp → Pcp}
    (keep : ∀ pcp, (f pcp).high = pcp.high ∧ (f pcp).batch = pcp.batch) : Steady st (st.modifyPcp id cpu f) where
  pages := fun _ => ⟨rfl, fun clear => clear⟩
  sizes := by
    intro id' cpu'
    rw [modifyPcp_pagesets]
    split
    · rename_i here
      rw [here.1, here.2]
      exact keep _
    · exact ⟨rfl, rfl⟩
  zones := fun _ => ⟨rfl, rfl⟩

theorem modifyArea (st : State) (z : ZoneType) (k : Nat) (f : FreeArea → FreeArea) : Steady st (st.modifyArea z k f) := by
  apply modifyZone
  intro zone
  exact ⟨rfl, rfl⟩

theorem setPageOrder (st : State) (p k : Nat) : Steady st (st.setPageOrder p k) := by
  apply modifyPage
  intro page
  exact .of_eq rfl rfl

theorem rmvPageOrder (st : State) (p : Nat) : Steady st (st.rmvPageOrder p) := by
  apply modifyPage
  intro page
  exact .of_eq rfl rfl

theorem takeFree (st : State) (z : ZoneType) (k p : Nat) : Steady st ((st.delFree z k p).rmvPageOrder p) :=
  (modifyArea st z k _).trans (rmvPageOrder (st.delFree z k p) p)

theorem putFree (st : State) (z : ZoneType) (k p : Nat) (tail : Bool) :
    Steady st ((st.setPageOrder p k).addFree z k p tail) :=
  (setPageOrder st p k).trans (modifyArea (st.setPageOrder p k) z k _)

end Steady

/-! ## Freeing -/

section

variable {env : Env} {z : ZoneType} {cpu page order : Nat}

theorem mergeLoop_steady {fuel bound : Nat} : ∀ {m m' : Merged},
    mergeLoop env z fuel bound m = .ok m' → Steady m.st m'.st := by
  induction fuel generalizing bound with
  | zero => exact nofun
  | succ fuel ih =>
      intro m m' done
      rw [mergeLoop] at done
      split at done
      · simp only at done
        split at done
        · cases done
          exact .refl _
        · obtain ⟨isBuddy, -, done⟩ := bind_eq_ok done
          split at done
          · cases done
            exact .refl _
          · exact (Steady.takeFree m.st z m.order _).trans (ih done)
      · split at done
        · exact ih done
        · cases done
          exact .refl _

theorem freeOnePage_steady {st st' : State} (done : freeOnePage env st page z order = .ok st') : Steady st st' := by
  rw [freeOnePage] at done
  split at done
  · cases done
  · split at done
    · cases done
    · split at done
      · cases done
      · obtain ⟨m, merged, done⟩ := bind_eq_ok done
        obtain ⟨tail, -, done⟩ := bind_eq_ok done
        cases done
        exact (mergeLoop_steady merged).trans (Steady.putFree m.st z m.order m.pfn tail)

theorem freeEach_steady {pages : List Nat} : ∀ {st st' : State}, freeEach env z pages st = .ok st' → Steady st st' := by
  induction pages with
  | nil =>
      intro st st' done
      cases done
      exact .refl _
  | cons page rest ih =>
      intro st st' done
      obtain ⟨st1, first, done⟩ := bind_eq_ok done
      exact (freeOnePage_steady first).trans (ih done)

theorem freePcppagesBulk_steady {st st' : State} {count : Nat} {id : PagesetId}
    (done : freePcppagesBulk env st z count id cpu = .ok st') : Steady st st' := by
  obtain ⟨⟨lists, head⟩, -, done⟩ := bind_eq_ok done
  simp only at done
  apply Steady.trans _ (freeEach_steady done)
  apply Steady.modifyPcp
  intro pcp
  exact ⟨rfl, rfl⟩

theorem freeUnrefPageCommit_steady {st st' : State} (done : freeUnrefPageCommit env st cpu page = .ok st') :
    Steady st st' := by
  have push : Steady st (st.modifyPcp (st.zones (st.pages page).zone).pageset cpu (Pcp.push page)) := by
    apply Steady.modifyPcp
    intro pcp
    exact ⟨rfl, rfl⟩
  unfold freeUnrefPageCommit at done
  extract_lets at done
  split at done
  · exact push.trans (freePcppagesBulk_steady done)
  · rw [← Except.ok.inj done]
    exact push

theorem Page.clearCheckAtPrep_steady (p : Page) : p.Steady p.clearCheckAtPrep := ⟨rfl, fun _ => rfl⟩

theorem freeTailPagesCheck_steady (st : State) (headPage page : Nat) :
    Steady st (freeTailPagesCheck st headPage page).1 := by
  have cleared : Steady st (st.modifyPage page fun p => { p with compoundHead := none }) := by
    apply Steady.modifyPage
    intro p
    exact .of_eq rfl rfl
  exact cleared

theorem prepareTails_steady {compound : Bool} {n : Nat} : ∀ {i bad : Nat} {st : State},
    Steady st (prepareTails compound page n i st bad).1 := by
  induction n with
  | zero => exact .refl _
  | succ n ih =>
      intro i bad st
      have rest (st1 : State) (bad1 : Nat) (first : Steady st st1) : Steady st
          (if (st1.pages (page + i)).freePagesCheck ≠ 0 then prepareTails compound page n (i + 1) st1 (bad1 + 1)
            else prepareTails compound page n (i + 1) (st1.modifyPage (page + i) Page.clearCheckAtPrep) bad1).1 := by
        split
        · exact first.trans ih
        · exact first.trans ((Steady.modifyPage st1 _ Page.clearCheckAtPrep_steady).trans ih)
      rw [prepareTails]
      cases compound with
      | false => exact rest _ _ (.refl st)
      | true => exact rest _ _ (freeTailPagesCheck_steady st page (page + i))

theorem freePagesPrepare_steady {st : State} {checkFree : Bool} {result : State × Bool}
    (done : freePagesPrepare st page order checkFree = .ok result) : Steady st result.1 := by
  rw [freePagesPrepare] at done
  split at done
  · cases done
  · have finish {st1 : State} {bad : Nat} (first : Steady st st1) (done :
        (if bad ≠ 0 then .ok (st1, false) else .ok (st1.modifyPage page Page.clearCheckAtPrep, true)) =
          (.ok result : Except Bug (State × Bool))) : Steady st result.1 := by
      split at done
      · cases done
        exact first
      · cases done
        exact first.trans (Steady.modifyPage st1 page Page.clearCheckAtPrep_steady)
    simp only at done
    split at done
    · split at done
      · cases done
      · exact finish prepareTails_steady done
    · exact finish (.refl st) done

theorem freePages_steady {st st' : State} (done : freePages env st cpu page order = .ok st') : Steady st st' := by
  have drop : Steady st (st.modifyPage page fun p => { p with refcount := p.refcount - 1 }) := by
    apply Steady.modifyPage
    intro p
    exact .of_eq rfl rfl
  rw [freePages] at done
  split at done
  · cases done
  · simp only at done
    split at done
    · split at done
      · obtain ⟨⟨st1, good⟩, prepare, done⟩ := bind_eq_ok done
        have first := drop.trans (freePagesPrepare_steady prepare)
        simp only at done
        split at done
        · cases done
          exact first
        · exact first.trans (freeUnrefPageCommit_steady done)
      · obtain ⟨⟨st1, good⟩, prepare, done⟩ := bind_eq_ok done
        have first := drop.trans (freePagesPrepare_steady prepare)
        simp only at done
        split at done
        · cases done
          exact first
        · exact first.trans (freeOnePage_steady done)
    · cases done
      exact drop

theorem bootPages_steady {n : Nat} : ∀ {i : Nat} {st st' : State}, bootPages page n i st = .ok st' → Steady st st' := by
  induction n with
  | zero =>
      intro i st st' done
      cases done
      exact .refl st
  | succ n ih =>
      intro i st st' done
      rw [bootPages] at done
      split at done
      · cases done
      · apply Steady.trans _ (ih done)
        apply Steady.modifyPage
        intro p
        exact ⟨rfl, fun clear => (Bool.or_eq_false_iff.mp clear).2⟩

theorem setPageRefcounted_steady {st st' : State} (done : st.setPageRefcounted page = .ok st') : Steady st st' := by
  rw [State.setPageRefcounted] at done
  split at done
  · cases done
  · split at done
    · cases done
    · cases done
      apply Steady.modifyPage
      intro p
      exact .of_eq rfl rfl

theorem freePagesBootCore_steady {st st' : State} (done : freePagesBootCore env st cpu page order = .ok st') :
    Steady st st' := by
  obtain ⟨st1, boot, done⟩ := bind_eq_ok done
  obtain ⟨st2, counted, done⟩ := bind_eq_ok done
  apply ((bootPages_steady boot).trans _).trans ((setPageRefcounted_steady counted).trans (freePages_steady done))
  apply Steady.modifyZone
  intro zone
  exact ⟨rfl, rfl⟩

theorem freeReservedPage_steady {st st' : State} (done : freeReservedPage env st cpu page = .ok st') : Steady st st' := by
  rw [freeReservedPage] at done
  split at done
  · cases done
  · apply Steady.trans _ (freePages_steady done)
    apply Steady.modifyPage
    intro p
    exact ⟨rfl, fun clear => (Bool.or_eq_false_iff.mp clear).2⟩

/-! ## Allocating -/

theorem expand_steady {low : Nat} : ∀ {high : Nat} (st : State), Steady st (expand z page low high st) := by
  intro high
  induction high with
  | zero => exact fun st => .refl st
  | succ high ih =>
      intro st
      rw [expand]
      split
      · have put := (Steady.modifyArea st z high _).trans (Steady.setPageOrder (st.addFree z high (page + (1 <<< high)) false)
          (page + (1 <<< high)) high)
        exact put.trans (ih _)
      · exact .refl st

theorem rmqueueSmallestLoop_steady {st : State} : ∀ {n currentOrder : Nat},
    Steady st (rmqueueSmallestLoop z order n currentOrder st).1 := by
  intro n
  induction n with
  | zero => exact .refl st
  | succ n ih =>
      intro currentOrder
      rw [rmqueueSmallestLoop]
      split
      · exact ih
      · exact (Steady.takeFree st z currentOrder _).trans (expand_steady _)

theorem rmqueueSmallest_steady {st : State} {result : State × Option Nat}
    (done : rmqueueSmallest st z order = .ok result) : Steady st result.1 := by
  rw [rmqueueSmallest] at done
  split at done
  · cases done
  · cases done
    exact rmqueueSmallestLoop_steady

theorem rmqueueBulk_steady {count : Nat} : ∀ {st : State} {list : List Nat} {alloced : Nat} {result : State × List Nat × Nat},
    rmqueueBulk z order count st list alloced = .ok result → Steady st result.1 := by
  induction count with
  | zero =>
      intro st list alloced result done
      cases done
      exact .refl st
  | succ count ih =>
      intro st list alloced result done
      obtain ⟨⟨st1, found⟩, first, done⟩ := bind_eq_ok done
      have one := rmqueueSmallest_steady first
      cases found with
      | none =>
          cases done
          exact one
      | some page =>
          simp only at done
          split at done
          · exact one.trans (ih done)
          · exact one.trans (ih done)

theorem popPcp_steady (st : State) (id : PagesetId) (cpu : Nat) : Steady st (popPcp st id cpu).1 := by
  rw [popPcp]
  split
  · exact .refl st
  · simp only
    apply Steady.modifyPcp
    intro pcp
    exact ⟨rfl, rfl⟩

theorem rmqueuePcplist_steady {st : State} {result : State × Option Nat}
    (done : rmqueuePcplist st cpu z = .ok result) : Steady st result.1 := by
  rw [rmqueuePcplist] at done
  simp only at done
  split at done
  · obtain ⟨⟨st2, list, alloced⟩, bulk, done⟩ := bind_eq_ok done
    cases done
    apply ((rmqueueBulk_steady bulk).trans _).trans (popPcp_steady _ _ cpu)
    apply Steady.modifyPcp
    intro pcp
    exact ⟨rfl, rfl⟩
  · cases done
    exact popPcp_steady st _ cpu

theorem rmqueueLoop_steady {fuel : Nat} : ∀ {st : State} {result : State × Option Nat},
    rmqueueLoop z order fuel st = .ok result → Steady st result.1 := by
  induction fuel with
  | zero => exact nofun
  | succ fuel ih =>
      intro st result done
      obtain ⟨⟨st1, found⟩, first, done⟩ := bind_eq_ok done
      have one := rmqueueSmallest_steady first
      cases found with
      | none =>
          cases done
          exact one
      | some page =>
          simp only at done
          split at done
          · exact one.trans (ih done)
          · cases done
            exact one

theorem rmqueue_steady {st : State} {result : State × Option Nat} (done : rmqueue st cpu z order = .ok result) :
    Steady st result.1 := by
  rw [rmqueue] at done
  split at done
  · exact rmqueuePcplist_steady done
  · exact rmqueueLoop_steady done

theorem prepTails_steady {n : Nat} : ∀ {i : Nat} (st : State), Steady st (prepTails page n i st) := by
  induction n with
  | zero => exact fun st => .refl st
  | succ n ih =>
      intro i st
      rw [prepTails]
      apply Steady.trans _ (ih _)
      apply Steady.modifyPage
      intro p
      exact .of_eq rfl rfl

theorem prepCompoundPage_steady (st : State) : Steady st (prepCompoundPage st page order) := by
  have ordered : Steady st (st.modifyPage (page + 1) fun p => { p with compoundOrder := order }) := by
    apply Steady.modifyPage
    intro p
    exact .of_eq rfl rfl
  rw [prepCompoundPage]
  apply (ordered.trans _).trans (prepTails_steady _)
  apply Steady.modifyPage
  intro p
  exact .of_eq rfl rfl

theorem prepNewPage_steady {st st' : State} (done : prepNewPage st page order = .ok st') : Steady st st' := by
  have start : Steady st (st.modifyPage page fun p => { p with priv := 0 }) := by
    apply Steady.modifyPage
    intro p
    exact .of_eq rfl rfl
  obtain ⟨st1, counted, done⟩ := bind_eq_ok done
  have one := start.trans (setPageRefcounted_steady counted)
  split at done
  · cases done
    exact one.trans (prepCompoundPage_steady st1)
  · cases done
    exact one

theorem allocPages_steady {st : State} {gfp : BitVec 32} {result : State × Option Nat}
    (done : allocPages st cpu gfp order = .ok result) : Steady st result.1 := by
  rw [allocPages] at done
  split at done
  · cases done
    exact .refl st
  · obtain ⟨⟨st1, found⟩, first, done⟩ := bind_eq_ok done
    have one := rmqueue_steady first
    cases found with
    | none =>
        cases done
        exact one
    | some page =>
        obtain ⟨st2, prep, done⟩ := bind_eq_ok done
        cases done
        exact one.trans (prepNewPage_steady prep)

end

end Miracle.PageAlloc
