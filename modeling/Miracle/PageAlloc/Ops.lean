import Miracle.PageAlloc.Basic
import Miracle.Lib.PowBlock

/-! # Allocating and freeing pages

Single pages go through the per-cpu lists, larger blocks straight to the buddy lists.
A run keeps, beside the state, the blocks that are allocated and the blocks that boot has
handed over.
-/

namespace Miracle.PageAlloc

variable (env : Env)

/-! ## Freeing -/

def freeTailPagesCheck (st : State) (headPage page : Nat) : State × Nat :=
  let p := st.pages page
  let ret := if p.pageTail = false then 1 else if p.compoundHead.getD page ≠ headPage then 1 else 0
  (st.modifyPage page (fun p => { p with compoundHead := none }), ret)

/-- The loop over the tail pages in `free_pages_prepare`, with the number of rounds left. -/
def prepareTails (compound : Bool) (page : Nat) : Nat → Nat → State → Nat → State × Nat
  | 0, _, st, bad => (st, bad)
  | n + 1, i, st, bad =>
      let (st, bad) :=
        if compound then
          let (st, ret) := freeTailPagesCheck st page (page + i)
          (st, bad + ret)
        else (st, bad)
      if (st.pages (page + i)).freePagesCheck ≠ 0 then prepareTails compound page n (i + 1) st (bad + 1)
      else prepareTails compound page n (i + 1) (st.modifyPage (page + i) Page.clearCheckAtPrep) bad

/-- `free_pages_prepare`; a page that looks bad is not freed. -/
def freePagesPrepare (st : State) (page order : Nat) (checkFree : Bool) : Except Bug (State × Bool) :=
  if (st.pages page).pageTail then .error .tailPage
  else do
    let (st, bad) ←
      if order ≠ 0 then
        let compound := (st.pages page).pageCompound
        if compound = true ∧ st.compoundOrder page ≠ order then .error .compoundOrder
        else .ok (prepareTails compound page ((1 <<< order) - 1) 1 st 0)
      else .ok (st, 0)
    let bad := if checkFree then bad + (st.pages page).freePagesCheck else bad
    if bad ≠ 0 then return (st, false)
    else return (st.modifyPage page Page.clearCheckAtPrep, true)

/-- The nested loops of `free_pcppages_bulk` take one page from the end of the list in
    each round; `batch_free` has no effect with a single list. -/
def takePcpPages (pages : Nat → Page) : Nat → List Nat → List Nat → Except Bug (List Nat × List Nat)
  | 0, lists, head => .ok (lists, head)
  | count + 1, lists, head =>
      match lists.getLast? with
      | none => .error .emptyPcp
      | some page =>
          takePcpPages pages count lists.dropLast
            (if (pages page).freePagesCheck ≠ 0 then head else head ++ [page])

def freeEach (z : ZoneType) : List Nat → State → Except Bug State
  | [], st => .ok st
  | page :: rest, st => do
      let st ← freeOnePage env st page z 0
      freeEach z rest st

def freePcppagesBulk (st : State) (z : ZoneType) (count : Nat) (id : PagesetId) (cpu : Nat) :
    Except Bug State := do
  let (lists, head) ← takePcpPages st.pages count (st.pagesets id cpu).lists []
  let st := st.modifyPcp id cpu (fun pcp => { pcp with lists := lists, count := pcp.count - count })
  freeEach env z head st

/-- `list_add(&page->lru, &pcp->lists)` and `pcp->count++`. -/
def Pcp.push (page : Nat) (pcp : Pcp) : Pcp :=
  { pcp with lists := page :: pcp.lists, count := pcp.count + 1 }

def freeUnrefPageCommit (st : State) (cpu page : Nat) : Except Bug State :=
  let z := (st.pages page).zone
  let id := (st.zones z).pageset
  let st := st.modifyPcp id cpu (Pcp.push page)
  let pcp := st.pagesets id cpu
  if pcp.count ≥ pcp.high then freePcppagesBulk env st z pcp.batch id cpu else .ok st

def freeUnrefPage (st : State) (cpu page : Nat) : Except Bug State := do
  let (st, good) ← freePagesPrepare st page 0 false
  if good = false then return st else freeUnrefPageCommit env st cpu page

def freePagesOk (st : State) (page order : Nat) : Except Bug State := do
  let (st, good) ← freePagesPrepare st page order true
  if good = false then return st else freeOnePage env st page (st.pages page).zone order

/-- `__free_pages`. -/
def freePages (st : State) (cpu page order : Nat) : Except Bug State :=
  if (st.pages page).refcount = 0 then .error .refcountZero
  else
    let st := st.modifyPage page (fun p => { p with refcount := p.refcount - 1 })
    if (st.pages page).refcount = 0 then
      if order = 0 then freeUnrefPage env st cpu page else freePagesOk env st page order
    else .ok st

/-- The loop of `__free_pages_boot_core`, with the number of pages left. -/
def bootPages (page : Nat) : Nat → Nat → State → Except Bug State
  | 0, _, st => .ok st
  | n + 1, i, st =>
      if (st.pages (page + i)).pageCompound then .error .reservedCompound
      else
        bootPages page n (i + 1) (st.modifyPage (page + i)
          (fun p => { p with flags := { p.flags with reserved := false }, refcount := 0 }))

def freePagesBootCore (st : State) (cpu page order : Nat) : Except Bug State := do
  let nrPages := 1 <<< order
  let st ← bootPages page nrPages 0 st
  let st := st.modifyZone (st.pages page).zone (fun zone =>
    { zone with managedPages := zone.managedPages + nrPages })
  let st ← st.setPageRefcounted page
  freePages env st cpu page order

/-- `free_reserved_page`. -/
def freeReservedPage (st : State) (cpu page : Nat) : Except Bug State :=
  if (st.pages page).pageCompound then .error .reservedCompound
  else
    freePages env (st.modifyPage page
      (fun p => { p with flags := { p.flags with reserved := false }, refcount := 1 })) cpu page 0

/-! ## Allocating -/

/-- The loop of `rmqueue_bulk`, with the list it fills. -/
def rmqueueBulk (z : ZoneType) (order : Nat) : Nat → State → List Nat → Nat →
    Except Bug (State × List Nat × Nat)
  | 0, st, list, alloced => .ok (st, list, alloced)
  | count + 1, st, list, alloced => do
      let (st, page) ← rmqueueSmallest st z order
      match page with
      | none => return (st, list, alloced)
      | some page =>
          if (st.pages page).checkNewPage then rmqueueBulk z order count st list alloced
          else rmqueueBulk z order count st (list ++ [page]) (alloced + 1)

/-- The first page of a per-cpu list is taken, or there is none. -/
def popPcp (st : State) (id : PagesetId) (cpu : Nat) : State × Option Nat :=
  match (st.pagesets id cpu).lists with
  | [] => (st, none)
  | page :: rest =>
      (st.modifyPcp id cpu (fun pcp => { pcp with lists := rest, count := pcp.count - 1 }), some page)

/-- `rmqueue_pcplist`; `check_new_pcp` is always false. -/
def rmqueuePcplist (st : State) (cpu : Nat) (z : ZoneType) : Except Bug (State × Option Nat) := do
  let id := (st.zones z).pageset
  let pcp := st.pagesets id cpu
  let st ←
    if pcp.lists = [] then do
      let (st, list, alloced) ← rmqueueBulk z 0 pcp.batch st pcp.lists 0
      pure (st.modifyPcp id cpu (fun pcp => { pcp with lists := list, count := pcp.count + alloced }))
    else pure st
  return popPcp st id cpu

/-- `check_new_pages`, with the number of pages left. -/
def checkNewPages (st : State) (page : Nat) : Nat → Nat → Bool
  | 0, _ => false
  | n + 1, i => (st.pages (page + i)).checkNewPage || checkNewPages st page n (i + 1)

/-- The loop of `rmqueue` drops blocks with a bad page. -/
def rmqueueLoop (z : ZoneType) (order : Nat) : Nat → State → Except Bug (State × Option Nat)
  | 0, _ => .error .badBlocks
  | fuel + 1, st => do
      let (st, page) ← rmqueueSmallest st z order
      match page with
      | none => return (st, none)
      | some page =>
          if checkNewPages st page (1 <<< order) 0 then rmqueueLoop z order fuel st
          else return (st, some page)

def rmqueue (st : State) (cpu : Nat) (z : ZoneType) (order : Nat) : Except Bug (State × Option Nat) :=
  if order = 0 then rmqueuePcplist st cpu z else rmqueueLoop z order (2 ^ 64) st

/-- The loop of `prep_compound_page`, with the number of tail pages left. -/
def prepTails (page : Nat) : Nat → Nat → State → State
  | 0, _, st => st
  | n + 1, i, st =>
      prepTails page n (i + 1) (st.modifyPage (page + i)
        (fun p => { p with refcount := 0, compoundHead := some page }))

def prepCompoundPage (st : State) (page order : Nat) : State :=
  let st := st.modifyPage (page + 1) (fun p => { p with compoundOrder := order })
  let st := st.modifyPage page (fun p => { p with flags := { p.flags with head := true } })
  prepTails page ((1 <<< order) - 1) 1 st

/-- `prep_new_page`; what `__GFP_ZERO` clears is the memory of the pages. -/
def prepNewPage (st : State) (page order : Nat) : Except Bug State := do
  let st := st.modifyPage page (fun p => { p with priv := 0 })
  let st ← st.setPageRefcounted page
  if order ≠ 0 then return prepCompoundPage st page order else return st

/-- `gfp_zone`: `___GFP_DMA` is bit 0 and `___GFP_MOVABLE` bit 2. -/
def gfpZone (gfp : BitVec 32) : ZoneType :=
  if gfp.getLsbD 0 then .dma else if gfp.getLsbD 2 then .movable else .normal

/-- `__alloc_pages`; the slow path returns nothing. -/
def allocPages (st : State) (cpu : Nat) (gfp : BitVec 32) (order : Nat) :
    Except Bug (State × Option Nat) :=
  if order ≥ maxOrder then .ok (st, none)
  else do
    let (st, page) ← rmqueue st cpu (gfpZone gfp) order
    match page with
    | none => return (st, none)
    | some page => do
        let st ← prepNewPage st page order
        return (st, some page)

/-! ## Runs -/

def zoneBatchsize (managed : Nat) : Nat :=
  let batch := managed / 1024
  let batch := if batch * 4096 > 1024 * 1024 then 1024 * 1024 / 4096 else batch
  let batch := batch / 4
  let batch := if batch < 1 then 1 else batch
  2 ^ Nat.log2 (batch + batch / 2) - 1

/-- `setup_zone_pageset`. -/
def setupZonePageset (st : State) (z : ZoneType) : State :=
  let batch := zoneBatchsize (st.zones z).managedPages
  let st := { st with
    pagesets := Function.update st.pagesets (.own z) (fun _ => setupPageset batch) }
  st.modifyZone z (fun zone => { zone with pageset := .own z })

/-- `setup_per_cpu_pageset`. -/
def setupPerCpuPageset (st : State) : State :=
  [ZoneType.dma, .normal, .movable].foldl
    (fun st z => if env.populated z then setupZonePageset st z else st) st

/-- The operations of a run, each on some cpu. -/
inductive Op where
  | bootFree (cpu pfn order : Nat)
  | freeReserved (cpu pfn : Nat)
  | setupPagesets
  | alloc (cpu : Nat) (gfp : BitVec 32) (order : Nat)
  | free (cpu pfn order : Nat)
  deriving DecidableEq, Repr

/-- The state with the live allocations and the blocks handed over at boot. -/
structure System where
  st : State
  live : List (Nat × Nat)
  handed : List (Nat × Nat)

def System.init (env : Env) : System := { st := .init env, live := [], handed := [] }

/-- One of the blocks of the list holds the page. -/
def Covered (blocks : List (Nat × Nat)) (a : Nat) : Prop := ∃ b ∈ blocks, PowBlock.InBlock b.1 b.2 a

/-- What boot promises about a block it hands over. -/
structure Fresh (sys : System) (pfn order : Nat) : Prop where
  order_lt : order < maxOrder
  aligned : PowBlock.Aligned pfn order
  valid : ∀ a, PowBlock.InBlock pfn order a → env.pfnValid a = true
  zone : ∀ a, PowBlock.InBlock pfn order a → env.zoneOf a = env.zoneOf pfn
  new : ∀ a, PowBlock.InBlock pfn order a → ¬ Covered sys.handed a

/-- Callers free what they have allocated, with its order, and the pagesets are set up once. -/
def Legal (sys : System) : Op → Prop
  | .bootFree _ pfn order => Fresh env sys pfn order
  | .freeReserved _ pfn => Fresh env sys pfn 0
  | .setupPagesets => ∀ z, (sys.st.zones z).pageset = .boot
  | .alloc _ _ _ => True
  | .free _ pfn order => (pfn, order) ∈ sys.live

def step (sys : System) : Op → Except Bug System
  | .bootFree cpu pfn order => do
      let st ← freePagesBootCore env sys.st cpu pfn order
      return { sys with st := st, handed := (pfn, order) :: sys.handed }
  | .freeReserved cpu pfn => do
      let st ← freeReservedPage env sys.st cpu pfn
      return { sys with st := st, handed := (pfn, 0) :: sys.handed }
  | .setupPagesets => .ok { sys with st := setupPerCpuPageset env sys.st }
  | .alloc cpu gfp order => do
      let (st, page) ← allocPages sys.st cpu gfp order
      match page with
      | none => return { sys with st := st }
      | some pfn => return { sys with st := st, live := (pfn, order) :: sys.live }
  | .free cpu pfn order => do
      let st ← freePages env sys.st cpu pfn order
      return { sys with st := st, live := sys.live.erase (pfn, order) }

/-- The systems that operations of callers and of boot lead to. -/
inductive Reachable : System → Prop where
  | init : Reachable (.init env)
  | step {sys sys' : System} {op : Op} : Reachable sys → Legal env sys op →
      step env sys op = .ok sys' → Reachable sys'

end Miracle.PageAlloc
