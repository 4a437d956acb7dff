import Miracle.Percpu.Layout

/-! # The layout of the possible cpus

The record that is returned has every possible cpu in one unit of one group, and the setup of
the first chunk accepts it, unless every cpu of the kernel has a group of its own, a possible
cpu is not below their number, or there are no static variables.
-/

namespace Miracle.Percpu

open Greedy

/-! ## The units of the result -/

/-- The cpu of a unit of a group. -/
def PcpuAllocInfo.cpuAt (ai : PcpuAllocInfo) (g i : Nat) : Option Nat :=
  match ai.groups[g]? with
  | some gi => if i < gi.nrUnits then ai.cpuMap[gi.cpuMap + i]? else none
  | none => none

section

variable {req : LayoutRequest} {s : Grouping} {placed : List (Nat × Nat)} {upa : Nat} (h : Built req s placed upa)

include h

omit h in
theorem builtInfo_groups : (builtInfo req s placed upa).groups =
    (List.range' 0 s.nrGroups).map (fullGroup (countOf placed) upa (allocSizeOf req / upa)) := by
  simp [builtInfo, filledTo, startInfo, List.range_eq_range']

omit h in
theorem builtInfo_cpuMap : (builtInfo req s placed upa).cpuMap = blocks req s (countOf placed) upa s.nrGroups := by
  simp [builtInfo, filledTo]

omit h in
variable (req s placed upa) in
theorem blocks_split {g n : Nat} (lt : g < n) : ∃ rest, blocks req s (countOf placed) upa n =
    blocks req s (countOf placed) upa g ++ (block req s (countOf placed) upa g ++ rest) := by
  induction n with
  | zero => cases lt
  | succ n ih =>
      rw [blocks_succ]
      by_cases last : g = n
      · rw [last]
        exact ⟨[], by rw [List.append_nil]⟩
      · obtain ⟨rest, split⟩ := ih (by omega)
        exact ⟨rest ++ block req s (countOf placed) upa n, by rw [split]; simp only [List.append_assoc]⟩

theorem Built.length_block (g : Nat) :
    (block req s (countOf placed) upa g).length = unitsOf upa (countOf placed g) :=
  Percpu.length_block h.represents h.names h.counts.pos g

theorem Built.unit_eq {g i : Nat} (lt : g < s.nrGroups) (inside : i < unitsOf upa (countOf placed g)) :
    (builtInfo req s placed upa).cpuMap[unitsBelow (countOf placed) upa g + i]? =
      (block req s (countOf placed) upa g)[i]? := by
  obtain ⟨rest, split⟩ := blocks_split req s placed upa lt
  have start := length_blocks h.represents h.names h.counts.pos g
  rw [builtInfo_cpuMap, split, List.getElem?_append_right (by omega), start, Nat.add_sub_cancel_left,
    List.getElem?_append_left (by rw [h.length_block]; exact inside)]

theorem Built.cpuAt_eq (g i : Nat) : (builtInfo req s placed upa).cpuAt g i =
    if g < s.nrGroups then (block req s (countOf placed) upa g)[i]? else none := by
  rw [PcpuAllocInfo.cpuAt, builtInfo_groups, List.getElem?_map, ← List.range_eq_range']
  by_cases lt : g < s.nrGroups
  · rw [List.getElem?_range lt, if_pos lt]
    simp only [Option.map_some, fullGroup]
    split
    · rename_i inside
      exact h.unit_eq lt inside
    · rename_i outside
      rw [List.getElem?_eq_none]
      rw [h.length_block]
      omega
  · rw [List.getElem?_eq_none (by rw [List.length_range]; omega), if_neg lt]
    rfl

omit h in
/-- The cpus of a group come before its empty units. -/
theorem mem_block {g cpu : Nat} (member : cpu ∈ block req s (countOf placed) upa g) :
    cpu = req.nrCpus ∨ cpu ∈ req.possible ∧ groupOf s cpu = g := by
  rw [block, List.mem_append] at member
  rcases member with cpus | empty
  · rw [members, List.mem_filter, decide_eq_true_eq] at cpus
    exact .inr cpus
  · exact .inl (List.eq_of_mem_replicate empty)

omit h in
variable (s placed upa) in
theorem mem_block_of_possible {cpu : Nat} (possible : cpu ∈ req.possible) :
    cpu ∈ block req s (countOf placed) upa (groupOf s cpu) :=
  List.mem_append_left _ (List.mem_filter.mpr ⟨possible, by simp⟩)

omit h in
variable (req s placed upa) in
theorem block_once (g : Nat) :
    (block req s (countOf placed) upa g).Pairwise (fun a b => a ≠ req.nrCpus → b ≠ a) := by
  refine List.pairwise_append.mpr ⟨?_, ?_, fun a cpu b empty some => ?_⟩
  · have sorted := req.sorted.filter (fun cpu => groupOf s cpu = g)
    exact sorted.imp (S := fun a b => a ≠ req.nrCpus → b ≠ a) (fun lt _ => (Nat.ne_of_lt lt).symm)
  · exact List.pairwise_replicate.mpr (.inr (fun none => absurd rfl none))
  · rw [List.eq_of_mem_replicate empty]
    exact some.symm

theorem Built.groupOf_lt {cpu : Nat} (possible : cpu ∈ req.possible) : groupOf s cpu < s.nrGroups := by
  have placedAt := lt_groups (placed_of_possible h.represents h.names possible)
  rw [h.represents.nrGroups]
  omega

/-! ## The groups are entered -/

theorem Built.enterGroups_ok (dense : ∀ cpu ∈ req.possible, cpu < req.nrPossibleCpuIds) (unit : Nat) {g k : Nat}
    (ends : g + k = s.nrGroups) {t : UnitTables}
    (entered : Entered req t (fun cpu => cpu ∈ req.possible ∧ groupOf s cpu < g)) :
    ∃ n t', enterGroups req (builtInfo req s placed upa)
        ((List.range' g k).map (fullGroup (countOf placed) upa (allocSizeOf req / upa))) unit t = .ok (n, t') ∧
      Entered req t' (fun cpu => cpu ∈ req.possible ∧ groupOf s cpu < s.nrGroups) := by
  induction k generalizing g unit t with
  | zero =>
      have last : g = s.nrGroups := ends
      exact ⟨unit, t, rfl, last ▸ entered⟩
  | succ k ih =>
      have lt : g < s.nrGroups := by omega
      have length := h.length_block g
      obtain ⟨t', run, next⟩ := enterUnits_ok (builtInfo req s placed upa)
        (fullGroup (countOf placed) upa (allocSizeOf req / upa) g) unit (i := 0) entered dense
        (l := block req s (countOf placed) upa g)
        (fun j inside => by
          rw [Nat.zero_add]
          exact h.unit_eq lt (length ▸ inside))
        (fun cpu member => (mem_block member).imp_right (fun both =>
          ⟨both.1, fun old => absurd both.2 (Nat.ne_of_lt old.2)⟩))
        (block_once req s placed upa g)
      have grown := next.congr (fun cpu => cpu ∈ req.possible ∧ groupOf s cpu < g + 1) (fun cpu below => by
        have few := length_possible_le req
        constructor
        · rintro (⟨possible, old⟩ | member)
          · exact ⟨possible, by omega⟩
          · rcases mem_block member with empty | ⟨possible, here⟩
            · rw [LayoutRequest.nrPossibleCpuIds] at below
              omega
            · exact ⟨possible, by omega⟩
        · rintro ⟨possible, le⟩
          by_cases here : groupOf s cpu = g
          · exact .inr (here ▸ mem_block_of_possible s placed upa possible)
          · exact .inl ⟨possible, by omega⟩)
      obtain ⟨n, last, rest, done⟩ := ih
        (unit + (fullGroup (countOf placed) upa (allocSizeOf req / upa) g).nrUnits) (by omega) grown
      refine ⟨n, last, ?_, done⟩
      rw [length] at run
      rw [List.range'_succ, List.map_cons, enterGroups]
      simp only [fullGroup] at run rest ⊢
      rw [run, ok_bind]
      exact rest

/-- The setup enters all units, and finds every possible cpu in its table, if it has an entry for each. -/
theorem Built.tables_iff :
    (∃ r, (do
      let (nrUnits, t) ← enterGroups req (builtInfo req s placed upa) (builtInfo req s placed upa).groups 0
        { unitMap := List.replicate req.nrPossibleCpuIds none, unitOff := List.replicate req.nrPossibleCpuIds 0
          lowUnitCpu := none, highUnitCpu := none }
      checkMapped t.unitMap req.possible
      return (nrUnits, t)) = .ok r) ↔ ∀ cpu ∈ req.possible, cpu < req.nrPossibleCpuIds := by
  constructor
  · rintro ⟨r, run⟩ cpu possible
    obtain ⟨⟨nrUnits, t⟩, entered, run⟩ := bind_eq_ok run
    obtain ⟨⟨⟩, mapped, -⟩ := bind_eq_ok run
    obtain ⟨unit, found⟩ := checkMapped_iff.mp mapped cpu possible
    have lt := (List.getElem?_eq_some_iff.mp found).1
    rwa [enterGroups_length entered, List.length_replicate] at lt
  · intro dense
    have start : Entered req
        { unitMap := List.replicate req.nrPossibleCpuIds none, unitOff := List.replicate req.nrPossibleCpuIds 0
          lowUnitCpu := none, highUnitCpu := none } (fun cpu => cpu ∈ req.possible ∧ groupOf s cpu < 0) := by
      refine ⟨List.length_replicate, List.length_replicate, ?_, ?_, fun cpu lt => ?_⟩
      · intro cpu none
        cases none
      · intro cpu none
        cases none
      · simp [lt]
    obtain ⟨n, t, run, entered⟩ := h.enterGroups_ok dense 0 (Nat.zero_add s.nrGroups) start
    have mapped : checkMapped t.unitMap req.possible = .ok () := by
      refine checkMapped_iff.mpr (fun cpu possible => ?_)
      have lt := dense cpu possible
      have inside : cpu < t.unitMap.length := by rwa [entered.mapLength]
      have taken : t.unitMap[cpu]? ≠ some none := fun free =>
        (entered.free cpu lt).mp free ⟨possible, h.groupOf_lt possible⟩
      rw [List.getElem?_eq_getElem inside] at taken ⊢
      cases entry : t.unitMap[cpu] with
      | none => exact absurd (congrArg some entry) taken
      | some unit => exact ⟨unit, rfl⟩
    refine ⟨(n, t), ?_⟩
    rw [builtInfo_groups, run, ok_bind]
    simp only
    rw [mapped, ok_bind]
    rfl

end

/-! ## The sizes of the result -/

section

variable {req : LayoutRequest} {s : Grouping} {placed : List (Nat × Nat)} {upa : Nat} (h : Built req s placed upa)
  (fits : NoOverflow req)

include h in
theorem Built.minSize_le : minSize req ≤ allocSizeOf req / upa := by
  rw [Nat.le_div_iff_mul_le h.counts.pos, Nat.mul_comm]
  exact (Nat.mul_le_mul_right _ h.le).trans (Nat.div_mul_le_self _ _)

include fits in
variable (s placed upa) in
theorem builtInfo_dynSize : (builtInfo req s placed upa).dynSize = sizeSum req - req.staticSize - req.reservedSize := by
  obtain ⟨le, lt, -⟩ := sizeSum_bounds fits
  change u64Sub (u64Sub (sizeSum req) req.staticSize) req.reservedSize = _
  simp only [u64Sub]
  omega

include h fits in
/-- The checks of the sizes pass, but for the size of the static variables. -/
theorem Built.checks_iff (reserved : req.reservedSize % minAllocSize = 0) (section_ : offsetInPage req.perCpuStart = 0)
    {base : Nat} (basePos : base ≠ 0) (basePages : offsetInPage base = 0) :
    (∃ r, pcpuSetupFirstChunkChecks req (builtInfo req s placed upa) base = .ok r) ↔
      req.staticSize ≠ 0 ∧ ∀ cpu ∈ req.possible, cpu < req.nrPossibleCpuIds := by
  obtain ⟨le, lt, -⟩ := sizeSum_bounds fits
  obtain ⟨sumLe, unitLe, -⟩ := minSize_bounds fits
  have unitSize : minSize req ≤ (builtInfo req s placed upa).unitSize := h.minSize_le
  have dynSize := builtInfo_dynSize s placed upa fits
  have early : dynamicEarlySize ≤ max req.dynSize dynamicEarlySize := Nat.le_max_right _ _
  have unitPages : (builtInfo req s placed upa).unitSize % pageSize = 0 := h.divides.2
  have total : u64 ((builtInfo req s placed upa).staticSize + (builtInfo req s placed upa).reservedSize +
      (builtInfo req s placed upa).dynSize) = sizeSum req := by
    rw [dynSize]
    change u64 (req.staticSize + req.reservedSize + _) = _
    rw [u64]
    omega
  have groups : 0 < (builtInfo req s placed upa).nrGroups := by
    have one := h.represents.nrGroups
    rw [PcpuAllocInfo.nrGroups, builtInfo_groups]
    simp
    omega
  have enough : dynamicEarlySize ≤ (builtInfo req s placed upa).dynSize := by
    rw [dynSize]
    omega
  have earlyPos : 0 < dynamicEarlySize := by decide
  have reserved' : (builtInfo req s placed upa).reservedSize % minAllocSize = 0 := reserved
  rw [← h.tables_iff]
  simp only [pcpuSetupFirstChunkChecks, setupBugOn_bind, total, minUnit_aligned]
  constructor
  · rintro ⟨r, -, static, -, -, -, -, -, -, -, -, -, -, -, run⟩
    exact ⟨static, r, run⟩
  · rintro ⟨static, r, run⟩
    refine ⟨r, Nat.not_le.mpr groups, static, not_not.mpr section_, basePos, not_not.mpr basePages,
      Nat.not_lt.mpr (sumLe.trans unitSize), ?_, Nat.not_lt.mpr (unitLe.trans unitSize), not_not.mpr unitPages,
      Nat.not_lt.mpr enough, (earlyPos.trans_le enough).ne', not_not.mpr reserved', by decide, run⟩
    rw [offsetInPage_eq]
    exact not_not.mpr unitPages

end

/-! ## The layout -/

/-- Every possible cpu has one unit, and the units and groups are as the setup wants them. -/
structure Layout (req : LayoutRequest) (ai : PcpuAllocInfo) : Prop where
  once : ∀ cpu ∈ req.possible, ∃! unit : Nat × Nat, ai.cpuAt unit.1 unit.2 = some cpu
  possible : ∀ g i cpu, ai.cpuAt g i = some cpu → cpu = req.nrCpus ∨ cpu ∈ req.possible
  inside : ∀ gi ∈ ai.groups, gi.cpuMap + gi.nrUnits ≤ ai.cpuMap.length
  near : ∀ g i j a b, ai.cpuAt g i = some a → ai.cpuAt g j = some b → a ∈ req.possible → b ∈ req.possible → a ≠ b →
    ∀ distance, req.cpuDistanceFn = some distance → distance a b ≤ localDistance ∧ distance b a ≤ localDistance
  noGaps : req.possible ≠ [] → ∀ g, g < ai.nrGroups → ∃ i, ∃ cpu ∈ req.possible, ai.cpuAt g i = some cpu
  unitsPerAlloc : ∃ upa, 0 < upa ∧ (∀ gi ∈ ai.groups, upa ∣ gi.nrUnits) ∧ ai.unitSize * upa = ai.allocSize
  sizes : ai.staticSize = req.staticSize ∧ ai.reservedSize = req.reservedSize ∧ req.dynSize ≤ ai.dynSize
  unitSize : ai.staticSize + ai.reservedSize + ai.dynSize ≤ ai.unitSize

/-- The function ends without a fault, and with memory its result has a layout that the setup
    accepts. -/
structure LaidOut (req : LayoutRequest) (base : Nat) : Prop where
  noMemory : pcpuBuildAllocInfo req false = .ok none
  memory : ∃ ai, pcpuBuildAllocInfo req true = .ok (some ai) ∧
    (∃ r, pcpuSetupFirstChunkChecks req ai base = .ok r) ∧ Layout req ai

/-- All cpus of the kernel are possible, and no two of them are near each other. -/
def Scattered (req : LayoutRequest) : Prop :=
  req.possible.length = req.nrCpus ∧ req.possible.Pairwise (fun a b => conflict req a b = true)

instance (req : LayoutRequest) : Decidable (Scattered req) := inferInstanceAs (Decidable (_ ∧ _))

theorem conflict_comm (req : LayoutRequest) (a b : Nat) : conflict req a b = conflict req b a := by
  rw [conflict, conflict]
  cases req.cpuDistanceFn with
  | none => rfl
  | some distance => exact Bool.or_comm _ _

theorem near_of_not_conflict {req : LayoutRequest} {a b : Nat} (quiet : conflict req a b = false)
    {distance : Nat → Nat → Int} (used : req.cpuDistanceFn = some distance) :
    distance a b ≤ localDistance ∧ distance b a ≤ localDistance := by
  simp only [conflict, used, Bool.or_eq_false_iff, decide_eq_false_iff_not] at quiet
  exact ⟨by omega, by omega⟩

section

variable {req : LayoutRequest} {s : Grouping} {placed : List (Nat × Nat)} {upa : Nat} (h : Built req s placed upa)

include h

/-- Every cpu has a group of its own exactly if the cpus are scattered. -/
theorem Built.scattered_iff : ¬ groups placed < req.nrCpus ↔ Scattered req := by
  have few := length_possible_le req
  have count : placed.length = req.possible.length := by
    rw [← List.length_map (f := Prod.fst), h.names, List.length_reverse]
  have le := h.represents.grouped.groups_le
  have clashes : placed.Pairwise (fun x y => conflict req x.1 y.1 = true) ↔
      req.possible.Pairwise (fun a b => conflict req a b = true) := by
    have mapped := List.pairwise_map (f := Prod.fst) (l := placed) (R := fun a b => conflict req a b = true)
    rw [← mapped, h.names, List.pairwise_reverse]
    simp only [conflict_comm]
  rw [Scattered, ← clashes, ← h.represents.grouped.groups_eq_length_iff]
  constructor
  · intro full
    exact ⟨by omega, by omega⟩
  · rintro ⟨all, full⟩
    omega

/-- Two cpus of a group are near each other. -/
theorem Built.near {a b : Nat} (ha : a ∈ req.possible) (hb : b ∈ req.possible) (other : a ≠ b)
    (same : groupOf s a = groupOf s b) : conflict req a b = false := by
  have symm : Std.Symm fun x y : Nat × Nat => x.2 = y.2 → conflict req x.1 y.1 = false :=
    ⟨fun x y apart same => (conflict_comm req y.1 x.1).trans (apart same.symm)⟩
  exact h.represents.grouped.apart.forall (placed_of_possible h.represents h.names ha)
    (placed_of_possible h.represents h.names hb) (fun e => other (congrArg Prod.fst e)) same

theorem Built.cpuAt_some {g i cpu : Nat} (found : (builtInfo req s placed upa).cpuAt g i = some cpu) :
    g < s.nrGroups ∧ (block req s (countOf placed) upa g)[i]? = some cpu := by
  rw [h.cpuAt_eq] at found
  split at found
  · rename_i lt
    exact ⟨lt, found⟩
  · cases found

/-- The group of a unit with a possible cpu. -/
theorem Built.groupOf_cpuAt {g i cpu : Nat} (found : (builtInfo req s placed upa).cpuAt g i = some cpu)
    (possible : cpu ∈ req.possible) : groupOf s cpu = g := by
  rcases mem_block (List.mem_of_getElem? (h.cpuAt_some found).2) with empty | ⟨-, here⟩
  · have := req.inRange cpu possible
    omega
  · exact here

theorem Built.once {cpu : Nat} (possible : cpu ∈ req.possible) :
    ∃! unit : Nat × Nat, (builtInfo req s placed upa).cpuAt unit.1 unit.2 = some cpu := by
  have inRange := req.inRange cpu possible
  obtain ⟨i, here⟩ := List.mem_iff_getElem?.mp (mem_block_of_possible s placed upa possible)
  refine ⟨(groupOf s cpu, i), ?_, ?_⟩
  · simp only
    rw [h.cpuAt_eq, if_pos (h.groupOf_lt possible), here]
  · rintro ⟨g, j⟩ found
    simp only at found
    have same := h.groupOf_cpuAt found possible
    obtain ⟨-, there⟩ := h.cpuAt_some found
    subst same
    refine congrArg _ ?_
    obtain ⟨iLt, iIs⟩ := List.getElem?_eq_some_iff.mp here
    obtain ⟨jLt, jIs⟩ := List.getElem?_eq_some_iff.mp there
    have apart := List.pairwise_iff_getElem.mp (block_once req s placed upa (groupOf s cpu))
    rcases Nat.lt_trichotomy i j with lt | eq | lt
    · exact absurd (jIs.trans iIs.symm) (apart i j iLt jLt lt (by rw [iIs]; omega))
    · exact eq.symm
    · exact absurd (iIs.trans jIs.symm) (apart j i jLt iLt lt (by rw [jIs]; omega))

theorem Built.layout (fits : NoOverflow req) : Layout req (builtInfo req s placed upa) where
  once := fun cpu possible => h.once possible
  possible := fun g i cpu found =>
    (mem_block (List.mem_of_getElem? (h.cpuAt_some found).2)).imp_right And.left
  inside := by
    intro gi member
    rw [builtInfo_groups, ← List.range_eq_range'] at member
    obtain ⟨g, lt, rfl⟩ := List.mem_map.mp member
    have upper := unitsBelow_mono (countOf placed) upa (Nat.succ_le_of_lt (List.mem_range.mp lt))
    rw [builtInfo_cpuMap, length_blocks h.represents h.names h.counts.pos]
    simp only [unitsBelow] at upper
    exact upper
  near := fun g i j a b foundA foundB ha hb other distance used =>
    near_of_not_conflict (h.near ha hb other
      ((h.groupOf_cpuAt foundA ha).trans (h.groupOf_cpuAt foundB hb).symm)) used
  noGaps := by
    intro some g lt
    have one := h.represents.nrGroups
    rw [PcpuAllocInfo.nrGroups, builtInfo_groups, List.length_map, List.length_range'] at lt
    have placedSome : 0 < groups placed := by
      obtain ⟨cpu, possible⟩ := List.exists_mem_of_ne_nil _ some
      have := lt_groups (placed_of_possible h.represents h.names possible)
      omega
    obtain ⟨cpu, member⟩ := h.represents.grouped.exists_of_lt (by omega : g < groups placed)
    have possible : cpu ∈ req.possible := by
      rw [← List.mem_reverse, ← h.names]
      exact List.mem_map.mpr ⟨_, member, rfl⟩
    have here := groupOf_placed h.represents member
    obtain ⟨⟨g', i⟩, found, -⟩ := h.once possible
    simp only at found
    have same := h.groupOf_cpuAt found possible
    exact ⟨i, cpu, possible, by rw [← here, same, found]⟩
  unitsPerAlloc := by
    refine ⟨upa, h.counts.pos, fun gi member => ?_, Nat.div_mul_cancel (Nat.dvd_of_mod_eq_zero h.divides.1)⟩
    rw [builtInfo_groups] at member
    obtain ⟨g, -, rfl⟩ := List.mem_map.mp member
    exact dvd_unitsOf upa _
  sizes := by
    obtain ⟨le, -, -⟩ := sizeSum_bounds fits
    refine ⟨rfl, rfl, ?_⟩
    rw [builtInfo_dynSize s placed upa fits]
    have := Nat.le_max_left req.dynSize dynamicEarlySize
    omega
  unitSize := by
    obtain ⟨le, -, -⟩ := sizeSum_bounds fits
    obtain ⟨sumLe, -, -⟩ := minSize_bounds fits
    rw [builtInfo_dynSize s placed upa fits]
    have unit := h.minSize_le
    change req.staticSize + req.reservedSize + _ ≤ allocSizeOf req / upa
    omega

end

/-- The layout is built and accepted exactly if there are static variables, every possible cpu
    is below the number of possible cpus, and the cpus are not scattered. -/
theorem pcpu_layout_ok_iff {req : LayoutRequest} {base : Nat} (fits : NoOverflow req) (atom : 0 < req.atomSize)
    (pages : req.atomSize % pageSize = 0) (reserved : req.reservedSize % minAllocSize = 0)
    (linked : offsetInPage req.perCpuStart = 0) (basePos : base ≠ 0) (basePages : offsetInPage base = 0) :
    LaidOut req base ↔
      req.staticSize ≠ 0 ∧ (∀ cpu ∈ req.possible, cpu < req.possible.length) ∧ ¬ Scattered req := by
  obtain ⟨s, placed, upa, h, noMemory, memory⟩ := pcpuBuildAllocInfo_eq fits atom pages
  have checks := h.checks_iff fits reserved linked basePos basePages
  rw [← h.scattered_iff, not_not]
  constructor
  · rintro ⟨-, ai, built, accepted, -⟩
    rw [memory] at built
    split at built
    · rename_i lt
      cases built
      obtain ⟨static, dense⟩ := checks.mp accepted
      exact ⟨static, dense, lt⟩
    · cases built
  · rintro ⟨static, dense, lt⟩
    rw [if_pos lt] at memory
    exact ⟨noMemory, _, memory, checks.mpr ⟨static, dense⟩, h.layout fits⟩

/-- A kernel for two cpus that are `distance` apart. -/
def twoCpus (distance : Int) : LayoutRequest where
  nrCpus := 2
  possible := [0, 1]
  perCpuStart := 0x10000
  staticSize := 0x6000
  reservedSize := 0x2000
  dynSize := 0x5000
  atomSize := 0x200000
  cpuDistanceFn := some (fun a b => if a = b then localDistance else distance)
  nrCpus_pos := by decide
  sorted := by decide
  inRange := by decide

theorem near_cpus_laid_out : LaidOut (twoCpus 10) 0x1000000 :=
  (pcpu_layout_ok_iff ⟨by decide, by decide, by decide⟩ (by decide) (by decide) (by decide) (by decide) (by decide) (by decide)).mpr
    ⟨by decide, by decide, by decide⟩

/-- With a group for each of the two cpus of the kernel the fill loop leaves the array of counts. -/
theorem remote_cpus_outside : NoOverflow (twoCpus 20) ∧
    pcpuBuildAllocInfo (twoCpus 20) true = .error .outside ∧
    ¬ LaidOut (twoCpus 20) 0x1000000 := by
  have outside : pcpuBuildAllocInfo (twoCpus 20) true = .error .outside := by decide +kernel
  refine ⟨⟨by decide, by decide, by decide⟩, outside, ?_⟩
  rintro ⟨-, ai, built, -⟩
  rw [outside] at built
  cases built

end Miracle.Percpu
