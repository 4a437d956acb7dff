import Miracle.Percpu.UnitMap

/-! # The layout passes the checks

The sizes are rounded up to pages and to the atom, so that a divisor of the allocation always
leaves units that are large enough.  The fill loop finds the end of the groups by a count of
zero, which is not there when every cpu of the kernel has a group of its own; the setup
indexes its tables by cpu but makes them as long as there are possible cpus.
-/

namespace Miracle.Percpu

open Greedy

/-! ## Sizes -/

def sizeSum (req : LayoutRequest) : Nat :=
  pfnAlign (u64 (u64 (req.staticSize + req.reservedSize) + max req.dynSize dynamicEarlySize))

def minSize (req : LayoutRequest) : Nat := max (sizeSum req) (pfnAlign minUnitSize)

def allocSizeOf (req : LayoutRequest) : Nat :=
  u64 (u64 (minSize req + (req.atomSize - 1)) / req.atomSize * req.atomSize)

/-- No sum of the sizes leaves its type, and no count of units leaves an `int`. -/
structure NoOverflow (req : LayoutRequest) : Prop where
  sum : req.staticSize + req.reservedSize + max req.dynSize dynamicEarlySize + (pageSize - 1) < 2 ^ 64
  round : minSize req + (req.atomSize - 1) < 2 ^ 64
  units : req.nrCpus * (allocSizeOf req / minSize req) < 2 ^ 31

theorem pfnAlign_eq {x : Nat} (room : x + (pageSize - 1) < 2 ^ 64) :
    pfnAlign x = (x + (pageSize - 1)) / pageSize * pageSize := by
  have aligned := alignWord_of_room (w := 64) (k := 12) (x := x) (by decide) room
  exact aligned

theorem minUnit_aligned : pfnAlign minUnitSize = minUnitSize := by decide

section

variable {req : LayoutRequest} (fits : NoOverflow req)

include fits

theorem sizeSum_eq : sizeSum req =
    (req.staticSize + req.reservedSize + max req.dynSize dynamicEarlySize + (pageSize - 1)) / pageSize * pageSize := by
  have sum := fits.sum
  have inner : u64 (req.staticSize + req.reservedSize) = req.staticSize + req.reservedSize :=
    Nat.mod_eq_of_lt (by omega)
  have outer : u64 (req.staticSize + req.reservedSize + max req.dynSize dynamicEarlySize) =
      req.staticSize + req.reservedSize + max req.dynSize dynamicEarlySize := Nat.mod_eq_of_lt (by omega)
  rw [sizeSum, inner, outer, pfnAlign_eq sum]

theorem sizeSum_bounds :
    req.staticSize + req.reservedSize + max req.dynSize dynamicEarlySize ≤ sizeSum req ∧
      sizeSum req < 2 ^ 64 ∧ sizeSum req % pageSize = 0 := by
  have sum := fits.sum
  rw [sizeSum_eq fits]
  simp only [pageSize] at *
  omega

theorem minSize_bounds : sizeSum req ≤ minSize req ∧ minUnitSize ≤ minSize req ∧ minSize req % pageSize = 0 := by
  obtain ⟨-, -, pages⟩ := sizeSum_bounds fits
  rw [minSize, minUnit_aligned]
  refine ⟨Nat.le_max_left _ _, Nat.le_max_right _ _, ?_⟩
  rcases Nat.le_total (sizeSum req) minUnitSize with le | le
  · rw [Nat.max_eq_right le]
    rfl
  · rw [Nat.max_eq_left le, pages]

theorem allocSizeOf_eq : allocSizeOf req = (minSize req + (req.atomSize - 1)) / req.atomSize * req.atomSize := by
  have round := fits.round
  have le := Nat.div_mul_le_self (minSize req + (req.atomSize - 1)) req.atomSize
  have inner : u64 (minSize req + (req.atomSize - 1)) = minSize req + (req.atomSize - 1) := Nat.mod_eq_of_lt round
  rw [allocSizeOf, inner]
  exact Nat.mod_eq_of_lt (lt_of_le_of_lt le round)

theorem allocSize_pages (pages : req.atomSize % pageSize = 0) : allocSizeOf req % pageSize = 0 := by
  rw [allocSizeOf_eq fits]
  exact Nat.mod_eq_zero_of_dvd ((Nat.dvd_of_mod_eq_zero pages).mul_left _)

theorem units_small : allocSizeOf req / minSize req < 2 ^ 31 :=
  lt_of_le_of_lt (Nat.le_mul_of_pos_left _ req.nrCpus_pos) fits.units

variable (atom : 0 < req.atomSize)

include atom

theorem minSize_le_allocSize : minSize req ≤ allocSizeOf req := by
  have := Nat.lt_div_mul_add atom (a := minSize req + (req.atomSize - 1))
  rw [allocSizeOf_eq fits]
  omega

/-- At least one unit fits. -/
theorem units_pos : 0 < allocSizeOf req / minSize req := by
  have := (minSize_bounds fits).2.1
  simp only [minUnitSize] at this
  exact Nat.div_pos (minSize_le_allocSize fits atom) (by omega)

end

/-! ## The result of the function -/

/-- The record before the groups are filled. -/
def startInfo (req : LayoutRequest) (upa nrUnits nrGroups : Nat) : PcpuAllocInfo :=
  { pcpuAllocAllocInfo req.nrCpus nrGroups nrUnits with
    staticSize := req.staticSize, reservedSize := req.reservedSize
    dynSize := u64Sub (u64Sub (sizeSum req) req.staticSize) req.reservedSize
    unitSize := allocSizeOf req / upa, atomSize := req.atomSize, allocSize := allocSizeOf req }

/-- The record that is returned. -/
def builtInfo (req : LayoutRequest) (s : Grouping) (placed : List (Nat × Nat)) (upa : Nat) : PcpuAllocInfo :=
  filledTo req s placed upa s.nrGroups (startInfo req upa (unitsBelow (countOf placed) upa s.nrGroups) s.nrGroups)
    s.nrGroups

theorem pcpuBuildAllocInfo_def (req : LayoutRequest) (memory : Bool) : pcpuBuildAllocInfo req memory = (do
    let upa ← int (allocSizeOf req / minSize req)
    let maxUpa ← maxUpa (allocSizeOf req) upa
    let s ← groupCpus req
      { groupMap := List.replicate req.nrCpus 0, groupCnt := List.replicate req.nrCpus 0, nrGroups := 1 } req.possible
    match ← bestUpa req (allocSizeOf req) s maxUpa intMax none with
    | none => .error .uninitialized
    | some upa => do
        let nrUnits ← countUnits s.groupCnt upa 0 s.nrGroups 0
        if memory then
          let groups ← placeMaps s.groupCnt upa 0 0 s.nrGroups (List.replicate s.nrGroups ⟨0, 0, 0⟩)
          let (ai, unit) ← fillLoop req s upa (req.nrCpus + 1) 0 0
            { startInfo req upa nrUnits s.nrGroups with groups := groups }
          if unit ≠ nrUnits then .error .unitCount else return some ai
        else return none) := rfl

/-- What the loops come to: the cpus are placed, and `upa` units share an allocation. -/
structure Built (req : LayoutRequest) (s : Grouping) (placed : List (Nat × Nat)) (upa : Nat) : Prop where
  represents : Represents req s placed
  names : placed.map Prod.fst = req.possible.reverse
  counts : Counts s.groupCnt (countOf placed) s.nrGroups upa
  divides : Divides (allocSizeOf req) upa
  le : upa ≤ allocSizeOf req / minSize req

theorem pcpuBuildAllocInfo_eq {req : LayoutRequest} (fits : NoOverflow req) (atom : 0 < req.atomSize)
    (pages : req.atomSize % pageSize = 0) :
    ∃ s placed upa, Built req s placed upa ∧ pcpuBuildAllocInfo req false = .ok none ∧
      pcpuBuildAllocInfo req true =
        if groups placed < req.nrCpus then .ok (some (builtInfo req s placed upa)) else .error .outside := by
  have one := req.nrCpus_pos
  obtain ⟨maxUnits, searched, maxPos, maxLe, -⟩ :=
    maxUpa_ok (allocSize_pages fits pages) (units_pos fits atom)
  obtain ⟨s, placed, grouped, h, names⟩ := groupCpus_ok req
  have counts (upa : Nat) (pos : 0 < upa) (le : upa ≤ maxUnits) :
      Counts s.groupCnt (countOf placed) s.nrGroups upa :=
    counts_of_fits h names pos
      (lt_of_le_of_lt (Nat.mul_le_mul_left req.nrCpus (le.trans maxLe)) fits.units)
  obtain ⟨upa, best, pos, le, divides⟩ := bestUpa_ok req (allocSize_pages fits pages) counts
    intMax none (le_refl maxUnits) (fun _ => ⟨maxPos, rfl⟩) (fun b none => by cases none)
  have mine := counts upa pos le
  have nrUnits := mine.countUnits_eq (Nat.zero_add s.nrGroups)
  have place := mine.placeMaps_eq (Nat.zero_add s.nrGroups)
  simp only [unitsBelow, List.range_zero, List.map_nil, List.nil_append] at nrUnits place
  have fill := fillLoop_eq h names mine (startInfo req upa (unitsBelow (countOf placed) upa s.nrGroups) s.nrGroups)
  refine ⟨s, placed, upa, ⟨h, names, mine, divides, le.trans maxLe⟩, ?_, ?_⟩ <;>
    rw [pcpuBuildAllocInfo_def, int_of_lt (units_small fits), ok_bind, searched, ok_bind, grouped, ok_bind, best, ok_bind] <;>
    simp only [nrUnits, ok_bind]
  · rfl
  · rw [if_pos trivial, place, ok_bind]
    have start : filledTo req s placed upa s.nrGroups
          (startInfo req upa (unitsBelow (countOf placed) upa s.nrGroups) s.nrGroups) 0 =
        { startInfo req upa (unitsBelow (countOf placed) upa s.nrGroups) s.nrGroups with
          groups := (List.range s.nrGroups).map (emptyGroup (countOf placed) upa) } := by
      simp [filledTo, blocks, unitsBelow, startInfo, pcpuAllocAllocInfo, List.range_eq_range']
    rw [start] at fill
    rw [fill]
    split
    · simp [builtInfo]
    · rfl

/-! ## The setup of the first chunk

The setup enters the unit of every cpu into a table.  Each cpu of a group that was filled is
entered once, into an entry that was free, so the loops run to their ends.
-/

theorem setupBugOn_bind {α : Type} {cond : Prop} [Decidable cond] {check : SetupCheck} {f : Unit → Except Fault α} {a : α} :
    (setupBugOn cond check >>= f) = .ok a ↔ ¬ cond ∧ f () = .ok a := by
  rw [setupBugOn]
  by_cases h : cond
  · rw [if_pos h]
    constructor
    · intro run
      cases run
    · exact fun both => absurd h both.1
  · rw [if_neg h, ok_bind]
    exact ⟨fun run => ⟨h, run⟩, fun both => both.2⟩

theorem setupBugOn_of_not {cond : Prop} [Decidable cond] (h : ¬ cond) (check : SetupCheck) :
    setupBugOn cond check = .ok () := if_neg h

/-! ## The tables -/

/-- The tables when the cpus in `seen` have been entered. -/
structure Entered (req : LayoutRequest) (t : UnitTables) (seen : Nat → Prop) : Prop where
  mapLength : t.unitMap.length = req.nrPossibleCpuIds
  offLength : t.unitOff.length = req.nrPossibleCpuIds
  low : ∀ cpu, t.lowUnitCpu = some cpu → cpu < req.nrPossibleCpuIds
  high : ∀ cpu, t.highUnitCpu = some cpu → cpu < req.nrPossibleCpuIds
  free : ∀ cpu, cpu < req.nrPossibleCpuIds → (t.unitMap[cpu]? = some none ↔ ¬ seen cpu)

theorem furthest_ok (beyond : Nat → Nat → Prop) [DecidableRel beyond] (recorded : Option Nat) {unitOff : List Nat} {cpu : Nat}
    (lt : cpu < unitOff.length) (inside : ∀ other, recorded = some other → other < unitOff.length) :
    ∃ r, furthest beyond unitOff cpu recorded = .ok (some r) ∧ r < unitOff.length := by
  cases recorded with
  | none => exact ⟨cpu, rfl, lt⟩
  | some other =>
      have otherLt := inside other rfl
      have off : at_ unitOff cpu = .ok unitOff[cpu] := at_of_some (List.getElem?_eq_getElem lt)
      have otherOff : at_ unitOff other = .ok unitOff[other] := at_of_some (List.getElem?_eq_getElem otherLt)
      refine ⟨if beyond unitOff[cpu] unitOff[other] then cpu else other, ?_, ?_⟩
      · rw [furthest, off, ok_bind, otherOff, ok_bind]
        rfl
      · split
        · exact lt
        · exact otherLt

section

variable {req : LayoutRequest} {ai : PcpuAllocInfo} {gi : PcpuGroupInfo} {unit i : Nat} {t : UnitTables} {seen : Nat → Prop}

/-- A cpu that has not been seen is entered. -/
theorem Entered.enter (h : Entered req t seen) {cpu : Nat} (lt : cpu < req.nrPossibleCpuIds) (value off : Nat)
    (low high : Option Nat) (lowLt : ∀ c, low = some c → c < req.nrPossibleCpuIds)
    (highLt : ∀ c, high = some c → c < req.nrPossibleCpuIds) :
    Entered req ⟨t.unitMap.set cpu (some value), t.unitOff.set cpu off, low, high⟩ (fun c => seen c ∨ c = cpu) := by
  refine ⟨?_, ?_, lowLt, highLt, fun c below => ?_⟩
  · rw [List.length_set, h.mapLength]
  · rw [List.length_set, h.offLength]
  · by_cases same : cpu = c
    · subst same
      rw [List.getElem?_set_self (by rw [h.mapLength]; exact lt)]
      simp
    · rw [List.getElem?_set_ne same, h.free c below]
      have other : ¬ c = cpu := fun e => same e.symm
      simp [other]

theorem Entered.congr (h : Entered req t seen) (seen' : Nat → Prop)
    (same : ∀ cpu, cpu < req.nrPossibleCpuIds → (seen cpu ↔ seen' cpu)) : Entered req t seen' :=
  ⟨h.mapLength, h.offLength, h.low, h.high, fun cpu lt => (h.free cpu lt).trans (not_congr (same cpu lt))⟩

/-- The units of a group in which the cpus are possible and new. -/
theorem enterUnits_ok (ai : PcpuAllocInfo) (gi : PcpuGroupInfo) (unit : Nat) (h : Entered req t seen) (dense : ∀ cpu ∈ req.possible, cpu < req.nrPossibleCpuIds) {l : List Nat}
    (units : ∀ j, j < l.length → ai.cpuMap[gi.cpuMap + (i + j)]? = l[j]?)
    (fresh : ∀ cpu ∈ l, cpu = req.nrCpus ∨ cpu ∈ req.possible ∧ ¬ seen cpu)
    (once : l.Pairwise (fun a b => a ≠ req.nrCpus → b ≠ a)) :
    ∃ t', enterUnits req ai gi unit l.length i t = .ok t' ∧ Entered req t' (fun cpu => seen cpu ∨ cpu ∈ l) := by
  induction l generalizing i t seen with
  | nil => exact ⟨t, rfl, h.congr _ (by simp)⟩
  | cons cpu l ih =>
      have here : ai.cpuMap[gi.cpuMap + i]? = some cpu := units 0 (Nat.succ_pos _)
      have later (j : Nat) (lt : j < l.length) : ai.cpuMap[gi.cpuMap + (i + 1 + j)]? = l[j]? := by
        have next := units (j + 1) (Nat.succ_lt_succ lt)
        rwa [List.getElem?_cons_succ, ← Nat.add_assoc i, Nat.add_right_comm] at next
      obtain ⟨new, once'⟩ := List.pairwise_cons.mp once
      rw [List.length_cons, enterUnits, at_of_some here, ok_bind]
      by_cases empty : cpu = req.nrCpus
      · obtain ⟨t', run, entered⟩ := ih h later (fun c member => fresh c (List.mem_cons_of_mem _ member)) once'
        refine ⟨t', by rw [if_pos empty, run], entered.congr _ (fun c lt => ?_)⟩
        have few := length_possible_le req
        have other : ¬ c = cpu := by
          rw [LayoutRequest.nrPossibleCpuIds] at lt
          omega
        simp [other]
      · obtain ⟨possible, unseen⟩ := (fresh cpu List.mem_cons_self).resolve_left empty
        have lt := dense cpu possible
        have free := (h.free cpu lt).mpr unseen
        have mapLt : cpu < t.unitMap.length := by rwa [h.mapLength]
        have offLt : cpu < t.unitOff.length := by rwa [h.offLength]
        have newLength : (t.unitOff.set cpu (u64 (gi.baseOffset + i * ai.unitSize))).length = req.nrPossibleCpuIds := by
          rw [List.length_set, h.offLength]
        obtain ⟨low, foundLow, lowLt⟩ := furthest_ok (· < ·) t.lowUnitCpu
          (newLength.symm ▸ lt) (fun other is => newLength.symm ▸ h.low other is)
        obtain ⟨high, foundHigh, highLt⟩ := furthest_ok (· > ·) t.highUnitCpu
          (newLength.symm ▸ lt) (fun other is => newLength.symm ▸ h.high other is)
        have next := h.enter lt (unit + i) (u64 (gi.baseOffset + i * ai.unitSize)) (some low) (some high)
          (by rintro c ⟨⟩; exact newLength ▸ lowLt) (by rintro c ⟨⟩; exact newLength ▸ highLt)
        obtain ⟨t', run, entered⟩ := ih next later
          (fun c member => (fresh c (List.mem_cons_of_mem _ member)).imp_right (fun both =>
            ⟨both.1, fun old => old.elim both.2 (new c member empty)⟩)) once'
        refine ⟨t', ?_, entered.congr _ (fun c _ => by simp [or_assoc])⟩
        rw [if_neg empty, setupBugOn_of_not (Nat.not_le.mpr lt), ok_bind, setupBugOn_of_not (not_not.mpr possible), ok_bind,
          at_of_some free, ok_bind, setupBugOn_of_not (not_not.mpr rfl), ok_bind, put_of_lt mapLt, ok_bind,
          put_of_lt offLt, ok_bind, foundLow, ok_bind, foundHigh, ok_bind]
        exact run

/-! ## The table keeps its length -/

theorem put_length {α : Type} {l l' : List α} {i : Nat} {a : α} (h : put l i a = .ok l') : l'.length = l.length := by
  rw [put] at h
  split at h
  · cases h
    exact List.length_set
  · cases h

theorem enterUnits_length {n : Nat} {t' : UnitTables} (run : enterUnits req ai gi unit n i t = .ok t') :
    t'.unitMap.length = t.unitMap.length := by
  induction n generalizing i t with
  | zero =>
      cases run
      rfl
  | succ n ih =>
      obtain ⟨cpu, -, run⟩ := bind_eq_ok run
      split at run
      · exact ih run
      · obtain ⟨-, run⟩ := setupBugOn_bind.mp run
        obtain ⟨-, run⟩ := setupBugOn_bind.mp run
        obtain ⟨old, -, run⟩ := bind_eq_ok run
        obtain ⟨-, run⟩ := setupBugOn_bind.mp run
        obtain ⟨unitMap, written, run⟩ := bind_eq_ok run
        obtain ⟨unitOff, -, run⟩ := bind_eq_ok run
        obtain ⟨low, -, run⟩ := bind_eq_ok run
        obtain ⟨high, -, run⟩ := bind_eq_ok run
        exact (ih run).trans (put_length written)

theorem enterGroups_length {l : List PcpuGroupInfo} {n : Nat} {t' : UnitTables}
    (run : enterGroups req ai l unit t = .ok (n, t')) : t'.unitMap.length = t.unitMap.length := by
  induction l generalizing unit t with
  | nil =>
      cases run
      rfl
  | cons gi l ih =>
      obtain ⟨next, units, run⟩ := bind_eq_ok run
      exact (ih run).trans (enterUnits_length units)

theorem checkMapped_iff {unitMap : List (Option Nat)} {l : List Nat} :
    checkMapped unitMap l = .ok () ↔ ∀ cpu ∈ l, ∃ unit, unitMap[cpu]? = some (some unit) := by
  induction l with
  | nil => simp [checkMapped]
  | cons cpu l ih =>
      rw [checkMapped, List.forall_mem_cons, ← ih]
      cases found : unitMap[cpu]? with
      | none => simp [at_, found]
      | some entry =>
          rw [at_of_some found, ok_bind, setupBugOn_bind]
          cases entry <;> simp

end

end Miracle.Percpu
