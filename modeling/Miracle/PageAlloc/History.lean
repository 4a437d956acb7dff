import Miracle.PageAlloc.Conservation

/-! # Runs in which callers use their pages

Whoever holds a block may set `PG_slab` and `PG_reserved` on its pages and write the words that a slab overlays, as long
as the two flags are clear when the block is freed.  A pageset may be configured with a batch of any size.
-/

namespace Miracle.PageAlloc

open PowBlock

/-- What the holder of a page writes.  The free list of a slab is kept in the word of `private`, and the words of `lru`
    hold `compound_order` in the first tail page. -/
def Page.ownerWrite (slab reserved : Bool) (priv lru : Nat) (p : Page) : Page :=
  { p with
    flags := { p.flags with slab := slab, reserved := reserved }
    priv := priv
    compoundOrder := if p.pageTail then p.compoundOrder else lru }

/-- `pageset_init`. -/
def pagesetInit : Pcp := { count := 0, high := 0, batch := 0, lists := [] }

/-- `pageset_update`.  The fields are `int`, the arguments are not. -/
def pagesetUpdate (pcp : Pcp) (high batch : BitVec 64) : Pcp :=
  { pcp with high := (high.setWidth 32).toInt, batch := (batch.setWidth 32).toNat }

def pagesetSetBatch (pcp : Pcp) (batch : BitVec 64) : Pcp :=
  pagesetUpdate pcp (6 * batch) (if 1 * batch < 1 then 1 else 1 * batch)

/-- `setup_zone_pageset` with a batch that need not come from `zone_batchsize`. -/
def State.configurePageset (st : State) (z : ZoneType) (batch : BitVec 64) : State :=
  st.ownPageset z (pagesetSetBatch pagesetInit batch)

/-- The systems that callers, boot and the holders of pages lead to. -/
inductive History (env : Env) : System → Prop where
  | init : History env (.init env)
  | step {sys sys' : System} {op : Op} : History env sys → Legal env sys op → Returned sys op →
      step env sys op = .ok sys' → History env sys'
  | write {sys : System} {pfn order a : Nat} (slab reserved : Bool) (priv lru : Nat) : History env sys →
      (pfn, order) ∈ sys.live → InBlock pfn order a →
      History env { sys with st := sys.st.modifyPage a (Page.ownerWrite slab reserved priv lru) }
  | configure {sys : System} {z : ZoneType} {batch : BitVec 64} : History env sys →
      (sys.st.zones z).pageset = .boot → 6 * batch.toNat < 2 ^ 31 →
      History env { sys with st := sys.st.configurePageset z batch }

theorem Reachable.history {env : Env} {sys : System} (h : Reachable env sys) : History env sys := by
  induction h with
  | init => exact .init
  | step reach legal done ih => exact ih.step legal (reach.returned _) done

/-! ## Batches -/

/-- A batch whose high mark fits is stored as it is. -/
theorem pagesetSetBatch_eq {batch : BitVec 64} (fits : 6 * batch.toNat < 2 ^ 31) :
    pagesetSetBatch pagesetInit batch = setupPageset batch.toNat := by
  have high : (6 * batch).toNat = 6 * batch.toNat := by
    rw [BitVec.toNat_mul]
    exact Nat.mod_eq_of_lt (by simp; omega)
  have stored : (((6 * batch).setWidth 32).toInt : Int) = 6 * batch.toNat := by
    rw [BitVec.toInt_eq_toNat_cond, BitVec.toNat_setWidth, high, Nat.mod_eq_of_lt (by omega), if_pos (by omega)]
    rfl
  have chunk : ((if 1 * batch < 1 then 1 else 1 * batch).setWidth 32).toNat = max 1 (1 * batch.toNat) := by
    have one : (1 : BitVec 64) * batch = batch := BitVec.one_mul batch
    rw [BitVec.toNat_setWidth, one, Nat.one_mul]
    split
    · rename_i zero
      have none : batch.toNat < 1 := zero
      rw [Nat.max_eq_left (by omega)]
      rfl
    · rename_i some
      have pos : ¬ batch.toNat < 1 := some
      rw [Nat.max_eq_right (by omega), Nat.mod_eq_of_lt (by omega)]
  rw [pagesetSetBatch, pagesetUpdate, stored, chunk]
  rfl

theorem setupPageset_batch_pos (batch : Nat) : 1 ≤ (setupPageset batch).batch := Nat.le_max_left _ _

/-! ## The invariant of a history -/

section

variable {env : Env} {sys : System} {owner : Nat → Owner}

/-- A page changes in a way that its owner allows. -/
theorem Inv.modifyPage {st : State} {live : List (Nat × Nat)} (h : Inv env st live owner) {a : Nat} {f : Page → Page}
    (ok : PageOk env a (f (st.pages a)) (owner a)) : Inv env (st.modifyPage a f) live owner := by
  refine ⟨h.blocked, fun b => ?_, h.freeLists, h.pcpLists, h.liveList, h.coalesced, h.valid, h.initialized, h.zones⟩
  rw [modifyPage_pages]
  split
  · rename_i here
    rw [here]
    exact ok
  · exact h.pages b

theorem ownerWrite_ok {slab reserved : Bool} {priv lru a pfn order : Nat} {z : ZoneType} {p : Page}
    (ok : PageOk env a p (.live z pfn order)) :
    PageOk env a (p.ownerWrite slab reserved priv lru) (.live z pfn order) := by
  obtain ⟨zone, ref, head, flags, order_eq⟩ := ok
  refine ⟨zone, ref, head, ?_, fun next => ?_⟩
  · rw [Page.ownerWrite]
    simp only
    rw [flags]
  · have tail : p.pageTail = true := by
      rw [Page.pageTail, head, if_neg (by omega)]
      rfl
    rw [Page.ownerWrite]
    simp only [tail, if_true]
    exact order_eq next

theorem SysInv.write (h : SysInv env sys owner) {pfn order a : Nat} (listed : (pfn, order) ∈ sys.live)
    (inside : InBlock pfn order a) (slab reserved : Bool) (priv lru : Nat) :
    SysInv env { sys with st := sys.st.modifyPage a (Page.ownerWrite slab reserved priv lru) } owner := by
  obtain ⟨z, held⟩ := h.liveBlock listed inside
  have ok : PageOk env a (sys.st.pages a) (.live z pfn order) := held ▸ h.inv.pages a
  refine ⟨h.inv.modifyPage ?_, ⟨h.home.homed, h.home.pageset⟩, h.settled, h.handed⟩
  rw [held]
  exact ownerWrite_ok ok

theorem History.inv (h : History env sys) : ∃ owner, SysInv env sys owner := by
  induction h with
  | init => exact ⟨_, .init env⟩
  | step _ legal returned done ih =>
      obtain ⟨owner, inv⟩ := ih
      have kept := step_keeps inv legal returned
      rw [done] at kept
      exact kept
  | write slab reserved priv lru _ listed inside ih =>
      obtain ⟨owner, inv⟩ := ih
      exact ⟨owner, inv.write listed inside slab reserved priv lru⟩
  | @configure _ _ batch _ boot fits ih =>
      obtain ⟨owner, inv⟩ := ih
      have ready := setupPageset_ready batch.toNat
      rw [← pagesetSetBatch_eq fits] at ready
      obtain ⟨inv', home⟩ := ownPageset_spec inv.inv inv.home boot ready
      exact ⟨owner, inv', home, inv.settled, inv.handed⟩

/-- Every pageset takes at least one page at a time from the buddy lists. -/
def Refills (st : State) : Prop := ∀ id cpu, 1 ≤ (st.pagesets id cpu).batch

theorem Refills.steady {st st' : State} (h : Refills st) (steady : Steady st st') : Refills st' := by
  intro id cpu
  rw [(steady.sizes id cpu).2]
  exact h id cpu

theorem Refills.ownPageset {st : State} (h : Refills st) (z : ZoneType) {pcp : Pcp} (pos : 1 ≤ pcp.batch) :
    Refills (st.ownPageset z pcp) := by
  intro id cpu
  rw [ownPageset_pagesets]
  split
  · exact pos
  · exact h id cpu

theorem Refills.setupPerCpuPageset {st : State} (h : Refills st) : Refills (setupPerCpuPageset env st) := by
  have one {st : State} (h : Refills st) (z : ZoneType) : Refills (if env.populated z then setupZonePageset st z else st) := by
    split
    · rw [setupZonePageset_eq]
      exact h.ownPageset z (setupPageset_batch_pos _)
    · exact h
  exact one (one (one h .dma) .normal) .movable

theorem History.refills (h : History env sys) : Refills sys.st := by
  induction h with
  | init => exact fun _ _ => setupPageset_batch_pos 0
  | @step sys sys' op _ _ _ done ih =>
      by_cases setup : op = .setupPagesets
      · subst setup
        cases done
        exact ih.setupPerCpuPageset
      · exact ih.steady (step_steady setup done)
  | write slab reserved priv lru _ _ _ ih => exact ih
  | configure _ _ fits ih =>
      apply ih.ownPageset
      rw [pagesetSetBatch_eq fits]
      exact setupPageset_batch_pos _

end

/-! ## Draining the per-cpu lists

A list is drained by a batch when its count reaches the high mark.  The mark is six batches, or the list has just got a
page and the batch is one, so there is always enough to take.
-/

/-! ## The batch of a zone -/

/-- `zone_batchsize` in the `int` arithmetic of the code. -/
def zoneBatchsizeInt (managed : BitVec 64) : BitVec 32 :=
  let batch := (managed / 1024).setWidth 32
  let batch := if batch.signExtend 64 * 4096 > 1024 * 1024 then (1024 * 1024 / 4096 : BitVec 64).setWidth 32 else batch
  let batch := batch.sdiv 4
  let batch := if batch.slt 1 then 1 else batch
  BitVec.ofNat 32 (2 ^ Nat.log2 ((batch + batch.sdiv 2).signExtend 64).toNat) - 1

/-- The value that is no more than a meg is not negative. -/
theorem clamp_le {batch : BitVec 32} (small : ¬ batch.signExtend 64 * 4096 > 1024 * 1024) : batch.toNat ≤ 256 := by
  have bound : (batch.signExtend 64 * 4096).toNat ≤ 1024 * 1024 := Nat.le_of_not_lt small
  have below := batch.isLt
  rw [BitVec.toNat_mul, BitVec.toNat_signExtend, BitVec.toNat_setWidth] at bound
  have page : (4096 : BitVec 64).toNat = 4096 := rfl
  rw [page] at bound
  split at bound
  · rename_i negative
    have high := BitVec.msb_eq_true_iff_two_mul_ge.mp negative
    omega
  · omega

/-- What follows the clamp, for the values that it leaves. -/
theorem zoneBatchsizeInt_table : ∀ n, n < 257 →
    ((let batch := (BitVec.ofNat 32 n).sdiv 4
      let batch := if batch.slt 1 then 1 else batch
      BitVec.ofNat 32 (2 ^ Nat.log2 ((batch + batch.sdiv 2).signExtend 64).toNat) - 1) : BitVec 32).toNat ≤ 63 := by
  decide +kernel

theorem zoneBatchsizeInt_le (managed : BitVec 64) : (zoneBatchsizeInt managed).toNat ≤ 63 := by
  have table (batch : BitVec 32) (small : batch.toNat ≤ 256) := zoneBatchsizeInt_table batch.toNat (by omega)
  simp only [BitVec.ofNat_toNat, BitVec.setWidth_eq] at table
  rw [zoneBatchsizeInt]
  apply table
  split
  · decide
  · rename_i small
    exact clamp_le small

/-- The batch of any zone fits, as `pageset_set_batch` gets it. -/
theorem zoneBatchsizeInt_fits (managed : BitVec 64) : 6 * ((zoneBatchsizeInt managed).signExtend 64).toNat < 2 ^ 31 := by
  have le := zoneBatchsizeInt_le managed
  have positive : (zoneBatchsizeInt managed).msb = false := by
    rw [BitVec.msb_eq_false_iff_two_mul_lt]
    omega
  rw [BitVec.toNat_signExtend, positive, BitVec.toNat_setWidth]
  simp
  omega

/-! ## Drains -/

/-- The state in which `free_unref_page_commit` looks at the count. -/
def State.pushPage (st : State) (cpu page : Nat) : State :=
  st.modifyPcp (st.zones (st.pages page).zone).pageset cpu (Pcp.push page)

/-- No page is left on the boot pageset, which the zones share. -/
theorem Home.boot_empty {env : Env} {st : State} {live : List (Nat × Nat)} {owner : Nat → Owner} (home : Home st owner)
    (h : Inv env st live owner) (cpu : Nat) : (st.pagesets .boot cpu).lists = [] := by
  apply List.eq_nil_iff_forall_not_mem.mpr
  intro a member
  obtain ⟨z, held⟩ := (h.pcpLists.mem_iff .boot cpu a).mp member
  cases (home.homed a .boot cpu z held).1

/-- What the free of a single page does with the list of the cpu, from the state `mid` in which its page is ready. -/
structure SingleFree (env : Env) (cpu page : Nat) (st mid st' : State) : Prop where
  call : freePages env st cpu page 0 = freeUnrefPageCommit env mid cpu page
  done : freeUnrefPageCommit env mid cpu page = .ok st'
  pagesets : mid.pagesets = st.pagesets
  committed : Committed env (mid.pages page).zone (mid.zones (mid.pages page).zone).pageset cpu (mid.pushPage cpu page) st'
  boot : ∀ cpu, (st'.pagesets .boot cpu).lists = []

theorem Releasing.singleFree {env : Env} {live : List (Nat × Nat)} {st : State} {z : ZoneType} {page : Nat}
    {owner : Nat → Owner} (rel : Releasing env live st z page 0 owner) (cpu : Nat) :
    ∃ mid st', SingleFree env cpu page st mid st' := by
  obtain ⟨mid, clean, call⟩ := rel.freePages_eq cpu
  rw [if_pos rfl] at call
  obtain ⟨st', owner', done, inv, home, -, -, committed⟩ := freeUnrefPageCommit_spec (rel.inv mid clean)
    (rel.home_cleaned clean) (rel.raw page (inBlock_self _ _)) cpu
  have zone : (mid.pages page).zone = z := (clean.inside page (inBlock_self _ _)).zone
  refine ⟨mid, st', call, done, clean.pagesets, ?_, home.boot_empty inv⟩
  rw [State.pushPage, zone]
  exact committed

/-- The count of a per-cpu list is its length, and each drain takes the batch from the end of the list and frees every
    page of it once.  Nothing is left on the boot pageset. -/
theorem pcp_drains {env : Env} {sys : System} (h : History env sys) :
    (∀ id cpu, (sys.st.pagesets id cpu).count = (sys.st.pagesets id cpu).lists.length) ∧
    (∀ cpu, (sys.st.pagesets .boot cpu).lists = []) ∧
    (∀ op st cpu page, Legal env sys op → Returned sys op → FreeCall sys op st cpu page 0 →
      ∃ mid st', step env sys op = .ok (sys.freed st' op) ∧ SingleFree env cpu page st mid st') ∧
    (∀ managed : BitVec 64, 6 * ((zoneBatchsizeInt managed).signExtend 64).toNat < 2 ^ 31) := by
  obtain ⟨owner, inv⟩ := h.inv
  refine ⟨inv.inv.pcpLists.count, inv.home.boot_empty inv.inv, ?_, zoneBatchsizeInt_fits⟩
  intro op st cpu page legal returned call
  obtain ⟨z, owner₁, rel, step_eq⟩ := call.release inv legal returned
  obtain ⟨mid, st', free⟩ := rel.releasing.singleFree cpu
  refine ⟨mid, st', ?_, free⟩
  rw [step_eq, free.call, free.done]
  rfl

/-! ## A small machine -/

/-- Boot hands over eight frames and a caller takes one of them. -/
def singleRun : Except Bug System := do
  let sys ← step flatEnv (.init flatEnv) (.bootFree 0 8 3)
  step flatEnv sys (.alloc 0 0 0)

theorem singleRun_reachable {sys : System} (done : singleRun = .ok sys) : Reachable flatEnv sys := by
  obtain ⟨booted, first, second⟩ := bind_eq_ok done
  have boot : Legal flatEnv (.init flatEnv) (.bootFree 0 8 3) := flatFresh
  exact (Reachable.init.step boot first).step (show Legal flatEnv booted (.alloc 0 0 0) from trivial) second

/-- The caller gives its page back after the zone has got pagesets for `batch`. -/
def freeWithBatch (sys : System) (batch : BitVec 64) : Except Bug System :=
  step flatEnv { sys with st := sys.st.configurePageset .normal batch } (.free 0 8 0)

theorem singleRun_returns : ∃ sys, singleRun = .ok sys ∧ sys.live = [(8, 0)] ∧
    (sys.st.zones .normal).pageset = .boot ∧ freeWithBatch sys 0x20000000 = .error .emptyPcp := by
  have shape : (match singleRun with
      | .ok sys => decide (sys.live = [(8, 0)] ∧ (sys.st.zones .normal).pageset = .boot) &&
          (match freeWithBatch sys 0x20000000 with
            | .error bug => decide (bug = .emptyPcp)
            | .ok _ => false)
      | .error _ => false) = true := by
    decide +kernel
  cases done : singleRun with
  | error bug =>
      rw [done] at shape
      cases shape
  | ok sys =>
      rw [done] at shape
      simp only [Bool.and_eq_true, decide_eq_true_eq] at shape
      obtain ⟨⟨live, boot⟩, spins⟩ := shape
      refine ⟨sys, rfl, live, boot, ?_⟩
      cases result : freeWithBatch sys 0x20000000 with
      | error bug =>
          rw [result] at spins
          rw [of_decide_eq_true spins]
      | ok sys' =>
          rw [result] at spins
          cases spins

/-- The drain that follows the free of the page at frame 8. -/
theorem singleRun_drains : ∃ sys, singleRun = .ok sys ∧ ∃ mid st',
    step flatEnv sys (.free 0 8 0) = .ok (sys.freed st' (.free 0 8 0)) ∧ SingleFree flatEnv 0 8 sys.st mid st' := by
  obtain ⟨sys, done, live, -⟩ := singleRun_returns
  have reach := singleRun_reachable done
  have legal : Legal flatEnv sys (.free 0 8 0) := by
    change (8, 0) ∈ sys.live
    rw [live]
    decide
  exact ⟨sys, done, (pcp_drains reach.history).2.2.1 _ _ 0 8 legal (reach.returned _) .free⟩

/-- With a batch of 2^29 the high mark does not fit into an `int` and becomes negative.  The first page that is put on the
    list is followed by a drain that asks for 2^29 pages. -/
theorem hugeBatch_spins : ∃ sys, singleRun = .ok sys ∧ (8, 0) ∈ sys.live ∧ (sys.st.zones .normal).pageset = .boot ∧
    pagesetSetBatch pagesetInit 0x20000000 = { count := 0, high := -2 ^ 30, batch := 2 ^ 29, lists := [] } ∧
    freeWithBatch sys 0x20000000 = .error .emptyPcp ∧
    ¬ ∀ batch : BitVec 64, ∃ sys', freeWithBatch sys batch = .ok sys' := by
  obtain ⟨sys, done, live, boot, spins⟩ := singleRun_returns
  refine ⟨sys, done, by rw [live]; decide, boot, by decide, spins, ?_⟩
  intro all
  obtain ⟨sys', ends⟩ := all 0x20000000
  rw [spins] at ends
  cases ends

end Miracle.PageAlloc
