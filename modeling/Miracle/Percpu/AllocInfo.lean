import Miracle.Lib.Outcome
import Miracle.Percpu.Basic

/-! # The layout of the percpu areas

`pcpu_build_alloc_info` puts the possible cpus into groups, finds out how many units share
an allocation, and lists the cpu of each unit.  `pcpu_setup_first_chunk` checks the result
before it uses it.  An access outside an array, a division by zero, an `int` that overflows
and the use of a variable that was never set are faults.
-/

namespace Miracle.Percpu

/-- The conditions of `PCPU_SETUP_BUG_ON`, in the order of the source. -/
inductive SetupCheck where
  | nrGroups
  | staticSize
  | perCpuStart
  | baseAddr
  | baseAddrOffset
  | unitSizeSum
  | unitSizeOffset
  | minUnitSize
  | unitSizeAligned
  | dynamicEarlySize
  | dynSize
  | reservedSize
  | bitmapBlockSize
  | cpuId
  | cpuPossible
  | unitMapTaken
  | unitMapMissing
  deriving DecidableEq, Repr

inductive Fault where
  | outside
  | divByZero
  | intOverflow
  | uninitialized
  | outOfFuel
  | unitCount
  | setup (check : SetupCheck)
  deriving DecidableEq, Repr

/-- An element of an array. -/
def at_ {α : Type} (l : List α) (i : Nat) : Except Fault α :=
  match l[i]? with
  | some a => .ok a
  | none => .error .outside

/-- An assignment to an element of an array. -/
def put {α : Type} (l : List α) (i : Nat) (a : α) : Except Fault (List α) :=
  if i < l.length then .ok (l.set i a) else .error .outside

/-- A value that an `int` has to hold. -/
def int (n : Nat) : Except Fault Nat := if n < 2 ^ 31 then .ok n else .error .intOverflow

def intMax : Nat := 2 ^ 31 - 1

/-- `LOCAL_DISTANCE`. -/
def localDistance : Int := 10

/-- `PERCPU_DYNAMIC_EARLY_SIZE`. -/
def dynamicEarlySize : Nat := 12 * 1024

/-- `PCPU_BITMAP_BLOCK_SIZE`. -/
def bitmapBlockSize : Nat := pageSize

def pageMask : Nat := 2 ^ 64 - pageSize

def pfnAlign (x : Nat) : Nat := u64 (x + (pageSize - 1)) &&& pageMask

def offsetInPage (x : Nat) : Nat := x &&& (pageSize - 1)

/-- The arguments, together with what the function finds in global variables: `NR_CPUS`, the
    possible cpus in ascending order and the section of the static variables. -/
structure LayoutRequest where
  nrCpus : Nat
  possible : List Nat
  perCpuStart : Nat
  staticSize : Nat
  reservedSize : Nat
  dynSize : Nat
  atomSize : Nat
  cpuDistanceFn : Option (Nat → Nat → Int)
  nrCpus_pos : 0 < nrCpus
  sorted : possible.Pairwise (· < ·)
  inRange : ∀ cpu ∈ possible, cpu < nrCpus

/-- `nr_possible_cpu_ids` is the weight of the mask. -/
def LayoutRequest.nrPossibleCpuIds (req : LayoutRequest) : Nat := req.possible.length

/-- `struct pcpu_group_info`; `cpuMap` is the index in the common array at which the map of
    the group starts. -/
structure PcpuGroupInfo where
  nrUnits : Nat
  baseOffset : Nat
  cpuMap : Nat
  deriving DecidableEq, Repr

/-- `struct pcpu_alloc_info` with the array that follows it. -/
structure PcpuAllocInfo where
  staticSize : Nat
  reservedSize : Nat
  dynSize : Nat
  unitSize : Nat
  atomSize : Nat
  allocSize : Nat
  aiSize : Nat
  groups : List PcpuGroupInfo
  cpuMap : List Nat
  deriving DecidableEq, Repr

def PcpuAllocInfo.nrGroups (ai : PcpuAllocInfo) : Nat := ai.groups.length

/-! ## Grouping -/

/-- The cpus are too far from each other in one of the two directions. -/
def conflict (req : LayoutRequest) (cpu tcpu : Nat) : Bool :=
  match req.cpuDistanceFn with
  | none => false
  | some distance => distance cpu tcpu > localDistance || distance tcpu cpu > localDistance

/-- The inner loop over `tcpu`: does it jump to `next_group`? -/
def scanGroup (req : LayoutRequest) (groupMap : List Nat) (cpu group : Nat) : List Nat → Except Fault Bool
  | [] => .ok false
  | tcpu :: rest =>
      if cpu = tcpu then .ok false
      else do
        let g ← at_ groupMap tcpu
        if g = group ∧ conflict req cpu tcpu then .ok true
        else scanGroup req groupMap cpu group rest

/-- The rounds from the label `next_group` on; the result is `group` with `nr_groups`. -/
def nextGroup (req : LayoutRequest) (groupMap : List Nat) (cpu : Nat) : Nat → Nat → Nat → Except Fault (Nat × Nat)
  | 0, _, _ => .error .outOfFuel
  | fuel + 1, group, nrGroups => do
      if ← scanGroup req groupMap cpu group req.possible then
        nextGroup req groupMap cpu fuel (group + 1) (max nrGroups (group + 1 + 1))
      else .ok (group, nrGroups)

/-- The arrays `group_map` and `group_cnt` and the variable `nr_groups`. -/
structure Grouping where
  groupMap : List Nat
  groupCnt : List Nat
  nrGroups : Nat
  deriving DecidableEq, Repr

/-- `for_each_possible_cpu(cpu)` over the cpus that are left. -/
def groupCpus (req : LayoutRequest) : Grouping → List Nat → Except Fault Grouping
  | s, [] => .ok s
  | s, cpu :: rest => do
      let (group, nrGroups) ← nextGroup req s.groupMap cpu (req.nrCpus + 1) 0 s.nrGroups
      let groupMap ← put s.groupMap cpu group
      let cnt ← at_ s.groupCnt group
      let groupCnt ← put s.groupCnt group (cnt + 1)
      groupCpus req ⟨groupMap, groupCnt, nrGroups⟩ rest

/-! ## Units per allocation -/

/-- `while (alloc_size % upa || (offset_in_page(alloc_size / upa))) upa--;` -/
def maxUpa (allocSize : Nat) : Nat → Except Fault Nat
  | 0 => .error .divByZero
  | upa + 1 =>
      if allocSize % (upa + 1) ≠ 0 ∨ offsetInPage (allocSize / (upa + 1)) ≠ 0 then maxUpa allocSize upa
      else .ok (upa + 1)

def divRoundUp (n d : Nat) : Except Fault Nat := do
  let sum ← int (n + d - 1)
  return sum / d

def roundup (x y : Nat) : Except Fault Nat := do
  let sum ← int (x + (y - 1))
  int (sum / y * y)

/-- The inner loop over the groups; `n` are left. -/
def wasteLoop (groupCnt : List Nat) (upa group : Nat) : Nat → Nat → Nat → Except Fault (Nat × Nat)
  | 0, allocs, wasted => .ok (allocs, wasted)
  | n + 1, allocs, wasted => do
      let cnt ← at_ groupCnt group
      let thisAllocs ← divRoundUp cnt upa
      let allocs ← int (allocs + thisAllocs)
      let units ← int (thisAllocs * upa)
      let wasted ← int (wasted + (units - cnt))
      wasteLoop groupCnt upa (group + 1) n allocs wasted

/-- `for (upa = max_upa; upa; upa--)` with `best_upa`, none while it is not set. -/
def bestUpa (req : LayoutRequest) (allocSize : Nat) (s : Grouping) : Nat → Nat → Option Nat → Except Fault (Option Nat)
  | 0, _, best => .ok best
  | upa + 1, lastAllocs, best =>
      if allocSize % (upa + 1) ≠ 0 ∨ offsetInPage (allocSize / (upa + 1)) ≠ 0 then
        bestUpa req allocSize s upa lastAllocs best
      else do
        let (allocs, wasted) ← wasteLoop s.groupCnt (upa + 1) 0 s.nrGroups 0 0
        if wasted > req.nrPossibleCpuIds / 3 then bestUpa req allocSize s upa lastAllocs best
        else if allocs > lastAllocs then .ok best
        else bestUpa req allocSize s upa allocs (some (upa + 1))

/-! ## Filling in -/

/-- `nr_units += roundup(group_cnt[group], upa)` over the groups; `n` are left. -/
def countUnits (groupCnt : List Nat) (upa group : Nat) : Nat → Nat → Except Fault Nat
  | 0, nrUnits => .ok nrUnits
  | n + 1, nrUnits => do
      let cnt ← at_ groupCnt group
      let units ← roundup cnt upa
      let nrUnits ← int (nrUnits + units)
      countUnits groupCnt upa (group + 1) n nrUnits

/-- `pcpu_alloc_alloc_info` when memblock has the memory.  The sizes are those of
    `struct pcpu_alloc_info`, `struct pcpu_group_info` and `unsigned int`. -/
def pcpuAllocAllocInfo (nrCpus nrGroups nrUnits : Nat) : PcpuAllocInfo :=
  let baseSize := align (64 + nrGroups * 24) 4
  let aiSize := baseSize + nrUnits * 4
  { staticSize := 0, reservedSize := 0, dynSize := 0, unitSize := 0, atomSize := 0, allocSize := 0
    aiSize := pfnAlign aiSize
    groups := List.replicate nrGroups ⟨0, 0, 0⟩
    cpuMap := List.replicate nrUnits nrCpus }

/-- The loop that lays the maps of the groups one behind another. -/
def placeMaps (groupCnt : List Nat) (upa group cpuMap : Nat) :
    Nat → List PcpuGroupInfo → Except Fault (List PcpuGroupInfo)
  | 0, groups => .ok groups
  | n + 1, groups => do
      let gi ← at_ groups group
      let groups ← put groups group { gi with cpuMap := cpuMap }
      let cnt ← at_ groupCnt group
      let units ← roundup cnt upa
      placeMaps groupCnt upa (group + 1) (cpuMap + units) n groups

/-- `if (group_map[cpu] == group) gi->cpu_map[gi->nr_units++] = cpu;` over the cpus that are left. -/
def fillGroup (groupMap : List Nat) (group : Nat) :
    List Nat → PcpuGroupInfo → List Nat → Except Fault (PcpuGroupInfo × List Nat)
  | [], gi, cpuMap => .ok (gi, cpuMap)
  | cpu :: rest, gi, cpuMap => do
      let g ← at_ groupMap cpu
      if g = group then
        let cpuMap ← put cpuMap (gi.cpuMap + gi.nrUnits) cpu
        fillGroup groupMap group rest { gi with nrUnits := gi.nrUnits + 1 } cpuMap
      else fillGroup groupMap group rest gi cpuMap

/-- `for (group = 0, unit = 0; group_cnt[group]; group++)`; the result has `unit`. -/
def fillLoop (req : LayoutRequest) (s : Grouping) (upa : Nat) :
    Nat → Nat → Nat → PcpuAllocInfo → Except Fault (PcpuAllocInfo × Nat)
  | 0, _, _, _ => .error .outOfFuel
  | fuel + 1, group, unit, ai => do
      let cnt ← at_ s.groupCnt group
      if cnt = 0 then .ok (ai, unit)
      else
        let gi ← at_ ai.groups group
        let gi := { gi with baseOffset := u64 (unit * ai.unitSize) }
        let (gi, cpuMap) ← fillGroup s.groupMap group req.possible gi ai.cpuMap
        let nrUnits ← roundup gi.nrUnits upa
        let groups ← put ai.groups group { gi with nrUnits := nrUnits }
        let unit ← int (unit + nrUnits)
        fillLoop req s upa fuel (group + 1) unit { ai with groups := groups, cpuMap := cpuMap }

/-- `pcpu_build_alloc_info`.  `memory` says whether memblock has the memory for the result; if
    not, the function returns `-ENOMEM`, here none. -/
def pcpuBuildAllocInfo (req : LayoutRequest) (memory : Bool) : Except Fault (Option PcpuAllocInfo) := do
  let sizeSum := pfnAlign (u64 (u64 (req.staticSize + req.reservedSize) + max req.dynSize dynamicEarlySize))
  let dynSize := u64Sub (u64Sub sizeSum req.staticSize) req.reservedSize
  let minSize := max sizeSum (pfnAlign minUnitSize)
  let allocSize := u64 (u64 (minSize + (req.atomSize - 1)) / req.atomSize * req.atomSize)
  let upa ← int (allocSize / minSize)
  let maxUpa ← maxUpa allocSize upa
  let s ← groupCpus req
    { groupMap := List.replicate req.nrCpus 0, groupCnt := List.replicate req.nrCpus 0, nrGroups := 1 }
    req.possible
  match ← bestUpa req allocSize s maxUpa intMax none with
  | none => .error .uninitialized
  | some upa => do
      let nrUnits ← countUnits s.groupCnt upa 0 s.nrGroups 0
      if memory then
        let ai := pcpuAllocAllocInfo req.nrCpus s.nrGroups nrUnits
        let groups ← placeMaps s.groupCnt upa 0 0 s.nrGroups ai.groups
        let ai := { ai with
          staticSize := req.staticSize, reservedSize := req.reservedSize, dynSize := dynSize
          unitSize := allocSize / upa, atomSize := req.atomSize, allocSize := allocSize, groups := groups }
        let (ai, unit) ← fillLoop req s upa (req.nrCpus + 1) 0 0 ai
        if unit ≠ nrUnits then .error .unitCount else return some ai
      else return none

/-! ## The checks of the first chunk -/

/-- `PCPU_SETUP_BUG_ON`. -/
def setupBugOn (cond : Prop) [Decidable cond] (check : SetupCheck) : Except Fault Unit :=
  if cond then .error (.setup check) else .ok ()

/-- The tables that the units are entered in; an entry of `unitMap` is none for `UINT_MAX`,
    and `lowUnitCpu` and `highUnitCpu` are none for `NR_CPUS`. -/
structure UnitTables where
  unitMap : List (Option Nat)
  unitOff : List Nat
  lowUnitCpu : Option Nat
  highUnitCpu : Option Nat
  deriving DecidableEq, Repr

/-- `unit_off[cpu]` lies on the side `beyond` of the one that is recorded, or none is. -/
def furthest (beyond : Nat → Nat → Prop) [DecidableRel beyond] (unitOff : List Nat) (cpu : Nat) (recorded : Option Nat) :
    Except Fault (Option Nat) :=
  match recorded with
  | none => .ok (some cpu)
  | some other => do
      let off ← at_ unitOff cpu
      let otherOff ← at_ unitOff other
      return some (if beyond off otherOff then cpu else other)

/-- The loop over the units of a group; `n` are left. -/
def enterUnits (req : LayoutRequest) (ai : PcpuAllocInfo) (gi : PcpuGroupInfo) (unit : Nat) :
    Nat → Nat → UnitTables → Except Fault UnitTables
  | 0, _, t => .ok t
  | n + 1, i, t => do
      let cpu ← at_ ai.cpuMap (gi.cpuMap + i)
      if cpu = req.nrCpus then enterUnits req ai gi unit n (i + 1) t
      else
        setupBugOn (cpu ≥ req.nrPossibleCpuIds) .cpuId
        setupBugOn (cpu ∉ req.possible) .cpuPossible
        let old ← at_ t.unitMap cpu
        setupBugOn (old ≠ none) .unitMapTaken
        let unitMap ← put t.unitMap cpu (some (unit + i))
        let unitOff ← put t.unitOff cpu (u64 (gi.baseOffset + i * ai.unitSize))
        let low ← furthest (· < ·) unitOff cpu t.lowUnitCpu
        let high ← furthest (· > ·) unitOff cpu t.highUnitCpu
        enterUnits req ai gi unit n (i + 1) ⟨unitMap, unitOff, low, high⟩

/-- The loop over the groups that are left; the result has `pcpu_nr_units`. -/
def enterGroups (req : LayoutRequest) (ai : PcpuAllocInfo) :
    List PcpuGroupInfo → Nat → UnitTables → Except Fault (Nat × UnitTables)
  | [], unit, t => .ok (unit, t)
  | gi :: rest, unit, t => do
      let t ← enterUnits req ai gi unit gi.nrUnits 0 t
      enterGroups req ai rest (unit + gi.nrUnits) t

/-- `for_each_possible_cpu(cpu) PCPU_SETUP_BUG_ON(unit_map[cpu] == UINT_MAX)`. -/
def checkMapped (unitMap : List (Option Nat)) : List Nat → Except Fault Unit
  | [] => .ok ()
  | cpu :: rest => do
      let unit ← at_ unitMap cpu
      setupBugOn (unit = none) .unitMapMissing
      checkMapped unitMap rest

/-- `pcpu_setup_first_chunk` up to the end of its checks. -/
def pcpuSetupFirstChunkChecks (req : LayoutRequest) (ai : PcpuAllocInfo) (baseAddr : Nat) :
    Except Fault (Nat × UnitTables) := do
  let sizeSum := u64 (ai.staticSize + ai.reservedSize + ai.dynSize)
  setupBugOn (ai.nrGroups ≤ 0) .nrGroups
  setupBugOn (ai.staticSize = 0) .staticSize
  setupBugOn (offsetInPage req.perCpuStart ≠ 0) .perCpuStart
  setupBugOn (baseAddr = 0) .baseAddr
  setupBugOn (offsetInPage baseAddr ≠ 0) .baseAddrOffset
  setupBugOn (ai.unitSize < sizeSum) .unitSizeSum
  setupBugOn (offsetInPage ai.unitSize ≠ 0) .unitSizeOffset
  setupBugOn (ai.unitSize < pfnAlign minUnitSize) .minUnitSize
  setupBugOn (ai.unitSize % bitmapBlockSize ≠ 0) .unitSizeAligned
  setupBugOn (ai.dynSize < dynamicEarlySize) .dynamicEarlySize
  setupBugOn (ai.dynSize = 0) .dynSize
  setupBugOn (ai.reservedSize % minAllocSize ≠ 0) .reservedSize
  setupBugOn (¬ (bitmapBlockSize % pageSize = 0 ∨ pageSize % bitmapBlockSize = 0)) .bitmapBlockSize
  let ids := req.nrPossibleCpuIds
  let (nrUnits, t) ← enterGroups req ai ai.groups 0
    { unitMap := List.replicate ids none, unitOff := List.replicate ids 0, lowUnitCpu := none, highUnitCpu := none }
  checkMapped t.unitMap req.possible
  return (nrUnits, t)

end Miracle.Percpu
