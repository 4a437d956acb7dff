import Mathlib.Tactic
import Miracle.Lib.Word

/-! # Early mappings of devices

`__early_ioremap` and `early_iounmap` over the fixmap's temporary entries: seven slots of
sixty-four pages.  A fixmap entry holds the physical address it was set with.  An index counts
pages down from the top of the fixmap.
-/

namespace Miracle.EarlyIoremap

def pageSize : Nat := 4096

/-- `NR_FIX_BTMAPS`. -/
def nrFixBtmaps : Nat := 64

/-- `FIX_BTMAPS_SLOTS`. -/
def fixBtmapsSlots : Nat := 7

/-- `FIX_BTMAP_END`. -/
def fixBtmapEnd : Nat := 1026

/-- `FIX_BTMAP_BEGIN`. -/
def fixBtmapBegin : Nat := fixBtmapEnd + nrFixBtmaps * fixBtmapsSlots - 1

/-- Where the fixmap is: `FIXADDR_TOP` is the address of a page in the last of the words, with
    room below it for the entries. -/
structure Layout where
  topPage : Nat
  room : fixBtmapBegin < topPage
  word : topPage < 2 ^ 52

variable (L : Layout)

/-- `FIXADDR_TOP`. -/
def Layout.fixaddrTop : Nat := L.topPage * pageSize

def fixToVirt (idx : Nat) : Nat := L.fixaddrTop - idx * pageSize

def virtToFix (virt : Nat) : Nat := (L.fixaddrTop - virt / pageSize * pageSize) / pageSize

abbrev Slot : Type := Fin fixBtmapsSlots

/-- The index of a slot's first page. -/
def slotIdx (slot : Slot) : Nat := fixBtmapBegin - nrFixBtmaps * slot

/-- `slot_virt`, as `early_ioremap_setup` fills it. -/
def slotVirt (slot : Slot) : Nat := fixToVirt L (slotIdx slot)

/-- The entries of the fixmap, and what is kept of each slot: the address that was handed out,
    or zero, and the size asked for. -/
structure State where
  fixmap : Nat → Option Nat
  prevMap : Slot → Nat
  prevSize : Slot → Nat

/-- The first slot whose address is `addr`. -/
def findSlot (s : State) (addr : Nat) : Option Slot := (List.finRange fixBtmapsSlots).find? fun i => s.prevMap i = addr

/-- `PAGE_ALIGN`. -/
def pageAlign (x : Nat) : Nat := u64 (x + (pageSize - 1)) / pageSize * pageSize

/-- The conversion to `unsigned int`. -/
def u32 (x : Nat) : Nat := x % 2 ^ 32

/-- The loop of `__early_ioremap`: maps `nrpages` pages from `physAddr` on at `idx` and the
    indices below it. -/
def setPages (fixmap : Nat → Option Nat) (idx physAddr : Nat) : Nat → Nat → Option Nat
  | 0 => fixmap
  | nrpages + 1 => setPages (Function.update fixmap idx (some physAddr)) (idx - 1) (u64 (physAddr + pageSize)) nrpages

/-- The loop of `early_iounmap`. -/
def clearPages (fixmap : Nat → Option Nat) (idx : Nat) : Nat → Nat → Option Nat
  | 0 => fixmap
  | nrpages + 1 => clearPages (Function.update fixmap idx none) (idx - 1) nrpages

/-- `__early_ioremap`. -/
def earlyIoremap (s : State) (physAddr size : Nat) : State × Option Nat :=
  match findSlot s 0 with
  | none => (s, none)
  | some slot =>
    let lastAddr := u64Sub (u64 (physAddr + size)) 1
    if size = 0 ∨ lastAddr < physAddr then (s, none)
    else
      let s := { s with prevSize := Function.update s.prevSize slot size }
      let offset := physAddr % pageSize
      let physPage := physAddr / pageSize * pageSize
      let size := u64Sub (pageAlign (u64 (lastAddr + 1))) physPage
      let nrpages := u32 (size / pageSize)
      if nrFixBtmaps < nrpages then (s, none)
      else
        let addr := u64 (offset + slotVirt L slot)
        ({ s with
          fixmap := setPages s.fixmap (slotIdx slot) physPage nrpages
          prevMap := Function.update s.prevMap slot addr }, some addr)

/-- `early_iounmap`. -/
def earlyIounmap (s : State) (addr size : Nat) : State :=
  match findSlot s addr with
  | none => s
  | some slot =>
    if s.prevSize slot ≠ size then s
    else if addr < fixToVirt L fixBtmapBegin then s
    else
      let offset := addr % pageSize
      let nrpages := u32 (pageAlign (u64 (offset + size)) / pageSize)
      { s with
        fixmap := clearPages s.fixmap (slotIdx slot) nrpages
        prevMap := Function.update s.prevMap slot 0 }

/-! ## Runs -/

/-- A mapping that was handed out: its address and the arguments of the call. -/
structure Mapping where
  addr : Nat
  physAddr : Nat
  size : Nat
deriving DecidableEq, Repr

/-- The state together with the mappings that were not given back yet. -/
structure System where
  state : State
  live : List Mapping

inductive Call where
  | ioremap (physAddr size : Nat)
  | iounmap (addr size : Nat)

/-- The arguments are words. -/
def Call.Words : Call → Prop
  | .ioremap physAddr size => physAddr < 2 ^ 64 ∧ size < 2 ^ 64
  | .iounmap addr size => addr < 2 ^ 64 ∧ size < 2 ^ 64

def step (sys : System) : Call → System
  | .ioremap physAddr size =>
    let (state, result) := earlyIoremap L sys.state physAddr size
    { state := state
      live := (result.map (Mapping.mk · physAddr size)).toList ++ sys.live }
  | .iounmap addr size =>
    { state := earlyIounmap L sys.state addr size
      live := sys.live.filter fun m => ¬(m.addr = addr ∧ m.size = size) }

/-- The states after `early_ioremap_setup` and calls that all meet a condition. -/
inductive Reachable (ok : System → Call → Prop) : System → Prop where
  | setup (fixmap : Nat → Option Nat) (prevSize : Slot → Nat) : Reachable ok ⟨⟨fixmap, fun _ => 0, prevSize⟩, []⟩
  | step {sys : System} (call : Call) (run : Reachable ok sys) (words : call.Words) (meets : ok sys call) :
      Reachable ok (step L sys call)

end Miracle.EarlyIoremap
