import Mathlib.Logic.Function.Basic

/-! # Pages, zones and per-cpu page lists

The data of the page allocator and the helpers that work on one `struct page`.  A page
is named by its frame number.  `flags` has one field for each bit of `enum pageflags`,
and the zone number, which the word also holds, is a field of the page.
-/

namespace Miracle.PageAlloc

/-- `MAX_ORDER`. -/
def maxOrder : Nat := 11

def pageblockOrder : Nat := maxOrder - 1

inductive ZoneType where
  | dma
  | normal
  | movable
  deriving DecidableEq, Repr

/-- `enum pageflags`. -/
structure PageFlags where
  locked : Bool
  head : Bool
  buddy : Bool
  slab : Bool
  arch : Bool
  table : Bool
  reserved : Bool
  deriving DecidableEq, Repr

namespace PageFlags

def none : PageFlags :=
  { locked := false, head := false, buddy := false, slab := false, arch := false, table := false,
    reserved := false }

/-- `flags & PAGE_FLAGS_CHECK_AT_FREE`. -/
def checkAtFree (f : PageFlags) : Bool := f.reserved || f.slab

/-- `flags & PAGE_FLAGS_CHECK_AT_PREP`; `__PG_HWPOISON` is zero. -/
def checkAtPrep (f : PageFlags) : Bool :=
  f.locked || f.head || f.buddy || f.slab || f.arch || f.table || f.reserved

end PageFlags

/-- `struct page`.  `compoundHead` is the head of a tail page, whose bit zero is set; the
    fields of the union that overlap it are not used on tail pages. -/
structure Page where
  flags : PageFlags
  zone : ZoneType
  priv : Nat
  compoundHead : Option Nat
  compoundOrder : Nat
  refcount : Nat
  deriving DecidableEq, Repr

namespace Page

def pageTail (p : Page) : Bool := p.compoundHead.isSome

def pageCompound (p : Page) : Bool := p.flags.head || p.pageTail

/-- `page->flags &= ~PAGE_FLAGS_CHECK_AT_PREP`. -/
def clearCheckAtPrep (p : Page) : Page := { p with flags := PageFlags.none }

/-- `page_expected_state`. -/
def expectedState (p : Page) (bad : Bool) : Bool := p.refcount == 0 && !bad

def freePagesCheck (p : Page) : Nat := if p.expectedState p.flags.checkAtFree then 0 else 1

def checkNewPage (p : Page) : Bool := !p.expectedState p.flags.checkAtPrep

/-- `__init_single_page`. -/
def initSingle (zone : ZoneType) : Page :=
  { flags := PageFlags.none, zone := zone, priv := 0, compoundHead := none, compoundOrder := 0,
    refcount := 1 }

end Page

structure FreeArea where
  freeList : List Nat
  nrFree : Int
  deriving DecidableEq, Repr

/-- `struct per_cpu_pages`. -/
structure Pcp where
  count : Int
  high : Int
  batch : Nat
  lists : List Nat
  deriving DecidableEq, Repr

/-- What `zone->pageset` points to: the boot pageset, which the zones share, or the zone's own. -/
inductive PagesetId where
  | boot
  | own (zone : ZoneType)
  deriving DecidableEq, Repr

structure Zone where
  managedPages : Nat
  initialized : Bool
  freeArea : Nat → FreeArea
  pageset : PagesetId

structure State where
  pages : Nat → Page
  zones : ZoneType → Zone
  pagesets : PagesetId → Nat → Pcp

/-- What boot has found out about the memory: which frames are mapped memory, the zone of
    each frame, and the zones that have frames. -/
structure Env where
  pfnValid : Nat → Bool
  zoneOf : Nat → ZoneType
  initialized : ZoneType → Bool
  populated : ZoneType → Bool
  spanned : ∀ pfn, pfnValid pfn = true → initialized (zoneOf pfn) = true

/-- Places at which the code stops.  `emptyPcp` and `badBlocks` are loops that do not end,
    and `uninitializedList` is a walk of a list head that was never initialised. -/
inductive Bug where
  | tailPage
  | compoundOrder
  | zoneInitialized
  | checkAtPrep
  | alignment
  | buddyCount
  | refcounted
  | refcountZero
  | reservedCompound
  | emptyPcp
  | badBlocks
  | uninitializedList
  deriving DecidableEq, Repr

namespace State

def modifyPage (st : State) (pfn : Nat) (f : Page → Page) : State :=
  { st with pages := Function.update st.pages pfn (f (st.pages pfn)) }

def modifyZone (st : State) (z : ZoneType) (f : Zone → Zone) : State :=
  { st with zones := Function.update st.zones z (f (st.zones z)) }

def modifyArea (st : State) (z : ZoneType) (order : Nat) (f : FreeArea → FreeArea) : State :=
  st.modifyZone z (fun zone =>
    { zone with freeArea := Function.update zone.freeArea order (f (zone.freeArea order)) })

def modifyPcp (st : State) (id : PagesetId) (cpu : Nat) (f : Pcp → Pcp) : State :=
  { st with
    pagesets := Function.update st.pagesets id
      (Function.update (st.pagesets id) cpu (f (st.pagesets id cpu))) }

def freeList (st : State) (z : ZoneType) (order : Nat) : List Nat :=
  ((st.zones z).freeArea order).freeList

/-- The pages on `list_add` and `list_add_tail`, with `nr_free++`. -/
def addFree (st : State) (z : ZoneType) (order pfn : Nat) (tail : Bool) : State :=
  st.modifyArea z order (fun area =>
    { freeList := if tail then area.freeList ++ [pfn] else pfn :: area.freeList
      nrFree := area.nrFree + 1 })

/-- `list_del(&page->lru)` of a page on the list, with `nr_free--`. -/
def delFree (st : State) (z : ZoneType) (order pfn : Nat) : State :=
  st.modifyArea z order (fun area =>
    { freeList := area.freeList.erase pfn, nrFree := area.nrFree - 1 })

/-- `compound_order`. -/
def compoundOrder (st : State) (page : Nat) : Nat :=
  if (st.pages page).flags.head then (st.pages (page + 1)).compoundOrder else 0

/-- `page_count`. -/
def pageCount (st : State) (page : Nat) : Nat :=
  (st.pages ((st.pages page).compoundHead.getD page)).refcount

def setPageOrder (st : State) (pfn order : Nat) : State :=
  st.modifyPage pfn (fun p => { p with priv := order, flags := { p.flags with buddy := true } })

def rmvPageOrder (st : State) (pfn : Nat) : State :=
  st.modifyPage pfn (fun p => { p with priv := 0, flags := { p.flags with buddy := false } })

/-- `set_page_refcounted`. -/
def setPageRefcounted (st : State) (pfn : Nat) : Except Bug State :=
  if (st.pages pfn).pageTail then .error .tailPage
  else if (st.pages pfn).refcount ≠ 0 then .error .refcounted
  else .ok (st.modifyPage pfn (fun p => { p with refcount := 1 }))

end State

def findBuddyPfn (pagePfn order : Nat) : Nat := pagePfn ^^^ (1 <<< order)

def zoneInitFreeLists : Nat → FreeArea := fun _ => { freeList := [], nrFree := 0 }

/-- `pageset_init` and `pageset_set_batch`. -/
def setupPageset (batch : Nat) : Pcp :=
  { count := 0, high := 6 * batch, batch := max 1 (1 * batch), lists := [] }

/-- The state before memory is handed over: `free_area_init_core` and `build_all_zone`. -/
def State.init (env : Env) : State :=
  { pages := fun pfn => Page.initSingle (env.zoneOf pfn)
    zones := fun z =>
      { managedPages := 0, initialized := env.initialized z, freeArea := zoneInitFreeLists,
        pageset := .boot }
    pagesets := fun _ _ => setupPageset 0 }

/-! ## The buddy lists

Freeing a block merges it with free buddies, and allocating one splits a larger block.
-/

variable (env : Env)

def pageIsBuddy (st : State) (page buddy order : Nat) : Except Bug Bool :=
  if (st.pages buddy).flags.buddy ∧ (st.pages buddy).priv = order then
    -- the zone check is done late
    if (st.pages page).zone ≠ (st.pages buddy).zone then .ok false
    else if st.pageCount buddy ≠ 0 then .error .buddyCount
    else .ok true
  else .ok false

/-- The variables at `done_merging`; `buddyPfn` is unset when no buddy was looked at. -/
structure Merged where
  st : State
  pfn : Nat
  order : Nat
  buddyPfn : Option Nat

/-- The loop at `continue_merging`. -/
def mergeLoop (z : ZoneType) : Nat → Nat → Merged → Except Bug Merged
  | 0, _, _ => .error .badBlocks
  | fuel + 1, bound, m =>
      if m.order < bound - 1 then
        let buddyPfn := findBuddyPfn m.pfn m.order
        if env.pfnValid buddyPfn = false then .ok { m with buddyPfn := some buddyPfn }
        else do
          let isBuddy ← pageIsBuddy m.st m.pfn buddyPfn m.order
          if isBuddy = false then return { m with buddyPfn := some buddyPfn }
          else
            mergeLoop z fuel bound
              { st := (m.st.delFree z m.order buddyPfn).rmvPageOrder buddyPfn
                pfn := buddyPfn &&& m.pfn
                order := m.order + 1
                buddyPfn := some buddyPfn }
      else if bound < maxOrder then mergeLoop z fuel (bound + 1) m
      else .ok m

/-- Is the block that could be merged next free already?  Then the page goes to the tail. -/
def higherBuddyFree (st : State) (pfn order : Nat) (buddyPfn : Option Nat) : Except Bug Bool :=
  match buddyPfn with
  | none => .ok false
  | some buddyPfn =>
      if order < maxOrder - 2 ∧ env.pfnValid buddyPfn then
        let combinedPfn := buddyPfn &&& pfn
        let higherBuddy := findBuddyPfn combinedPfn (order + 1)
        if env.pfnValid higherBuddy then pageIsBuddy st combinedPfn higherBuddy (order + 1)
        else .ok false
      else .ok false

/-- `__free_one_page`. -/
def freeOnePage (st : State) (pfn : Nat) (z : ZoneType) (order : Nat) : Except Bug State :=
  if (st.zones z).initialized = false then .error .zoneInitialized
  else if (st.pages pfn).flags.checkAtPrep then .error .checkAtPrep
  else if pfn &&& ((1 <<< order) - 1) ≠ 0 then .error .alignment
  else do
    let m ← mergeLoop env z (2 * maxOrder) (min maxOrder (pageblockOrder + 1)) ⟨st, pfn, order, none⟩
    let st := m.st.setPageOrder m.pfn m.order
    let tail ← higherBuddyFree env st m.pfn m.order m.buddyPfn
    return st.addFree z m.order m.pfn tail

/-- The loop of `expand` with `high` counting down to `low`. -/
def expand (z : ZoneType) (page low : Nat) : Nat → State → State
  | 0, st => st
  | high + 1, st =>
      if high + 1 > low then
        let half := page + (1 <<< high)
        expand z page low high ((st.addFree z high half false).setPageOrder half high)
      else st

/-- The loop of `__rmqueue_smallest` with the number of orders left. -/
def rmqueueSmallestLoop (z : ZoneType) (order : Nat) : Nat → Nat → State → State × Option Nat
  | 0, _, st => (st, none)
  | n + 1, currentOrder, st =>
      match st.freeList z currentOrder with
      | [] => rmqueueSmallestLoop z order n (currentOrder + 1) st
      | page :: _ =>
          let st := (st.delFree z currentOrder page).rmvPageOrder page
          (expand z page order currentOrder st, some page)

def rmqueueSmallest (st : State) (z : ZoneType) (order : Nat) : Except Bug (State × Option Nat) :=
  if (st.zones z).initialized = false then .error .uninitializedList
  else .ok (rmqueueSmallestLoop z order (maxOrder - order) order st)

end Miracle.PageAlloc
