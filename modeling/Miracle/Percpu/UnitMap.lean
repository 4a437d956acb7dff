import Miracle.Percpu.Grouping

/-! # The map from units to cpus

The groups lie one behind another in a common array.  The filling writes the cpus of each
group to the start of its part and leaves the rest of the part empty.
-/

namespace Miracle.Percpu

open Greedy

theorem at_append {α : Type} (pre rest : List α) (a : α) : at_ (pre ++ a :: rest) pre.length = .ok a :=
  at_of_some (by simp)

theorem put_append {α : Type} (pre rest : List α) (a b : α) :
    put (pre ++ a :: rest) pre.length b = .ok (pre ++ b :: rest) := by
  rw [put_of_lt (by simp)]
  simp

section

variable (req : LayoutRequest) (s : Grouping) (cnt : Nat → Nat) (upa unitSize : Nat)

/-- The group that a cpu was put into. -/
def groupOf (cpu : Nat) : Nat := s.groupMap.getD cpu 0

def members (g : Nat) : List Nat := req.possible.filter (fun cpu => groupOf s cpu = g)

/-- The part of a group in the common array. -/
def block (g : Nat) : List Nat :=
  members req s g ++ List.replicate (unitsOf upa (cnt g) - cnt g) req.nrCpus

def blocks (g : Nat) : List Nat := (List.range g).flatMap (block req s cnt upa)

def emptyGroup (g : Nat) : PcpuGroupInfo := ⟨0, 0, unitsBelow cnt upa g⟩

def fullGroup (g : Nat) : PcpuGroupInfo :=
  ⟨unitsOf upa (cnt g), u64 (unitsBelow cnt upa g * unitSize), unitsBelow cnt upa g⟩

end

theorem blocks_succ (req : LayoutRequest) (s : Grouping) (cnt : Nat → Nat) (upa g : Nat) :
    blocks req s cnt upa (g + 1) = blocks req s cnt upa g ++ block req s cnt upa g := by
  simp [blocks, List.range_succ]

/-! ## Placing the maps -/

theorem Counts.placeMaps_eq {groupCnt : List Nat} {cnt : Nat → Nat} {n upa : Nat} (h : Counts groupCnt cnt n upa)
    {g k : Nat} (ends : g + k = n) :
    placeMaps groupCnt upa g (unitsBelow cnt upa g) k
        ((List.range g).map (emptyGroup cnt upa) ++ List.replicate k ⟨0, 0, 0⟩) =
      .ok ((List.range n).map (emptyGroup cnt upa)) := by
  induction k generalizing g with
  | zero =>
      rw [← ends]
      simp [placeMaps]
  | succ k ih =>
      have lt : g < n := by omega
      have length : ((List.range g).map (emptyGroup cnt upa)).length = g := by simp
      have element := at_append ((List.range g).map (emptyGroup cnt upa)) (List.replicate k ⟨0, 0, 0⟩) ⟨0, 0, 0⟩
      have written := put_append ((List.range g).map (emptyGroup cnt upa)) (List.replicate k ⟨0, 0, 0⟩) ⟨0, 0, 0⟩
        (emptyGroup cnt upa g)
      rw [length] at element written
      have next := ih (g := g + 1) (by omega)
      rw [List.range_succ, List.map_append, List.append_assoc] at next
      rw [placeMaps, List.replicate_succ, element, ok_bind]
      simp only
      change (put _ g (emptyGroup cnt upa g) >>= _) = _
      rw [written, ok_bind, at_of_some (h.counted g lt), ok_bind, h.roundup_eq lt, ok_bind]
      exact next

/-! ## Filling a group -/

theorem fillGroup_eq {s : Grouping} {g : Nat} (pre : List Nat) {x : Nat} {l : List Nat}
    (mapped : ∀ cpu ∈ l, s.groupMap[cpu]? = some (groupOf s cpu)) (gi : PcpuGroupInfo) (written : List Nat) (room : Nat)
    (start : gi.cpuMap = pre.length) (count : gi.nrUnits = written.length)
    (fits : (l.filter (fun cpu => groupOf s cpu = g)).length ≤ room) :
    fillGroup s.groupMap g l gi (pre ++ (written ++ List.replicate room x)) =
      .ok ({ gi with nrUnits := gi.nrUnits + (l.filter (fun cpu => groupOf s cpu = g)).length },
        pre ++ (written ++ l.filter (fun cpu => groupOf s cpu = g) ++
          List.replicate (room - (l.filter (fun cpu => groupOf s cpu = g)).length) x)) := by
  induction l generalizing gi written room with
  | nil => simp [fillGroup]
  | cons cpu l ih =>
      have mapped' := fun c member => mapped c (List.mem_cons_of_mem cpu member)
      rw [fillGroup, at_of_some (mapped cpu List.mem_cons_self), ok_bind]
      by_cases here : groupOf s cpu = g
      · have filter : (cpu :: l).filter (fun cpu => groupOf s cpu = g) = cpu :: l.filter (fun cpu => groupOf s cpu = g) := by
          simp [here]
        rw [filter, List.length_cons] at fits
        obtain ⟨room, rfl⟩ := Nat.exists_eq_succ_of_ne_zero (by omega : room ≠ 0)
        have write := put_append (pre ++ written) (List.replicate room x) x cpu
        rw [List.length_append, ← start, ← count, List.append_assoc, ← List.replicate_succ, List.append_assoc] at write
        rw [if_pos here, write, ok_bind]
        have next := ih mapped' { gi with nrUnits := gi.nrUnits + 1 } (written ++ [cpu]) room
          start (by simp [count]) (by omega)
        simp only [List.append_assoc, List.singleton_append] at next
        rw [next, filter]
        simp only [List.length_cons, List.append_assoc, List.cons_append, Nat.succ_eq_add_one]
        refine congrArg Except.ok ?_
        have sum : gi.nrUnits + 1 + (l.filter (fun cpu => groupOf s cpu = g)).length =
            gi.nrUnits + ((l.filter (fun cpu => groupOf s cpu = g)).length + 1) := by omega
        rw [sum, Nat.add_sub_add_right]
      · have filter : (cpu :: l).filter (fun cpu => groupOf s cpu = g) = l.filter (fun cpu => groupOf s cpu = g) := by
          simp [here]
        rw [filter] at fits ⊢
        rw [if_neg here]
        exact ih mapped' gi written room start count fits

/-- The number of cpus in a group. -/
def countOf (placed : List (Nat × Nat)) (g : Nat) : Nat := placed.countP (fun x => x.2 = g)

section

variable {req : LayoutRequest} {s : Grouping} {placed : List (Nat × Nat)} (h : Represents req s placed)
  (names : placed.map Prod.fst = req.possible.reverse)

include h

theorem groupOf_placed {t g : Nat} (member : (t, g) ∈ placed) : groupOf s t = g := by
  rw [groupOf, List.getD_eq_getElem?_getD, h.map t g member]
  rfl

include names

theorem placed_of_possible {cpu : Nat} (member : cpu ∈ req.possible) : (cpu, groupOf s cpu) ∈ placed := by
  obtain ⟨g, here⟩ := (mem_done names).mp member
  rwa [groupOf_placed h here]

theorem mapped_possible (cpu : Nat) (member : cpu ∈ req.possible) : s.groupMap[cpu]? = some (groupOf s cpu) :=
  h.map cpu _ (placed_of_possible h names member)

theorem length_members (g : Nat) : (members req s g).length = countOf placed g := by
  have reversed : (members req s g).length = (req.possible.reverse.filter (fun cpu => groupOf s cpu = g)).length := by
    rw [List.filter_reverse, List.length_reverse, members]
  rw [reversed, ← names, List.filter_map, List.length_map, ← List.countP_eq_length_filter, countOf]
  refine List.countP_congr (fun x member => ?_)
  have same := groupOf_placed h (t := x.1) (g := x.2) member
  simp [same]

theorem counts_of_fits {upa : Nat} (pos : 0 < upa) (fits : req.nrCpus * upa < 2 ^ 31) :
    Counts s.groupCnt (countOf placed) s.nrGroups upa := by
  have few := length_possible_le req
  have count : placed.length = req.possible.length := by
    rw [← List.length_map (f := Prod.fst), names, List.length_reverse]
  have le := h.grouped.groups_le
  have one := req.nrCpus_pos
  refine ⟨fun g lt => ?_, pos, ?_, ?_⟩
  · refine h.cnt g ?_
    rw [h.nrGroups] at lt
    omega
  · have := Nat.le_mul_of_pos_left upa one
    omega
  · have total := cpusBelow_countP placed s.nrGroups
    have cpus : cpusBelow (countOf placed) s.nrGroups ≤ req.nrCpus := by
      have all := List.countP_le_length (p := fun x : Nat × Nat => x.2 < s.nrGroups) (l := placed)
      change cpusBelow (fun g => placed.countP (fun x => x.2 = g)) _ ≤ _
      omega
    exact lt_of_le_of_lt (Nat.mul_le_mul_right upa cpus) fits

theorem length_block {upa : Nat} (pos : 0 < upa) (g : Nat) :
    (block req s (countOf placed) upa g).length = unitsOf upa (countOf placed g) := by
  have le := le_unitsOf pos (countOf placed g)
  rw [block, List.length_append, length_members h names, List.length_replicate]
  omega

theorem length_blocks {upa : Nat} (pos : 0 < upa) (g : Nat) :
    (blocks req s (countOf placed) upa g).length = unitsBelow (countOf placed) upa g := by
  induction g with
  | zero => rfl
  | succ g ih => rw [blocks_succ, List.length_append, ih, length_block h names pos, unitsBelow]

/-! ## Filling all groups -/

/-- The result when the groups below `g` have been filled. -/
def filledTo (req : LayoutRequest) (s : Grouping) (placed : List (Nat × Nat)) (upa n : Nat) (ai : PcpuAllocInfo) (g : Nat) :
    PcpuAllocInfo :=
  { ai with
    groups := (List.range g).map (fullGroup (countOf placed) upa ai.unitSize) ++
      (List.range' g (n - g)).map (emptyGroup (countOf placed) upa)
    cpuMap := blocks req s (countOf placed) upa g ++
      List.replicate (unitsBelow (countOf placed) upa n - unitsBelow (countOf placed) upa g) req.nrCpus }

theorem fillLoop_step {upa : Nat} (counts : Counts s.groupCnt (countOf placed) s.nrGroups upa) (ai : PcpuAllocInfo)
    {g fuel : Nat} (lt : g < s.nrGroups) (filled : countOf placed g ≠ 0) :
    fillLoop req s upa (fuel + 1) g (unitsBelow (countOf placed) upa g) (filledTo req s placed upa s.nrGroups ai g) =
      fillLoop req s upa fuel (g + 1) (unitsBelow (countOf placed) upa (g + 1))
        (filledTo req s placed upa s.nrGroups ai (g + 1)) := by
  have pos := counts.pos
  have upper := unitsBelow_mono (countOf placed) upa (Nat.succ_le_of_lt lt)
  have le := le_unitsOf pos (countOf placed g)
  have total := unitsBelow_le (countOf placed) pos s.nrGroups
  have room := counts.room
  rw [unitsBelow] at upper
  have small : unitsBelow (countOf placed) upa g + unitsOf upa (countOf placed g) < 2 ^ 31 := by omega
  have groups : (List.range' g (s.nrGroups - g)).map (emptyGroup (countOf placed) upa) =
      emptyGroup (countOf placed) upa g :: (List.range' (g + 1) (s.nrGroups - (g + 1))).map (emptyGroup (countOf placed) upa) := by
    have split : s.nrGroups - g = s.nrGroups - (g + 1) + 1 := by omega
    rw [split, List.range'_succ, List.map_cons]
  have length : ((List.range g).map (fullGroup (countOf placed) upa ai.unitSize)).length = g := by simp
  have element := at_append ((List.range g).map (fullGroup (countOf placed) upa ai.unitSize))
    ((List.range' (g + 1) (s.nrGroups - (g + 1))).map (emptyGroup (countOf placed) upa)) (emptyGroup (countOf placed) upa g)
  have written := put_append ((List.range g).map (fullGroup (countOf placed) upa ai.unitSize))
    ((List.range' (g + 1) (s.nrGroups - (g + 1))).map (emptyGroup (countOf placed) upa)) (emptyGroup (countOf placed) upa g)
    (fullGroup (countOf placed) upa ai.unitSize g)
  rw [length] at element written
  have fill := fillGroup_eq (s := s) (g := g) (blocks req s (countOf placed) upa g) (x := req.nrCpus)
    (mapped_possible h names)
    { emptyGroup (countOf placed) upa g with
      baseOffset := u64 (unitsBelow (countOf placed) upa g * ai.unitSize) }
    [] (unitsBelow (countOf placed) upa s.nrGroups - unitsBelow (countOf placed) upa g)
    (length_blocks h names pos g).symm rfl
    (by
      have := length_members h names g
      rw [members] at this
      omega)
  rw [← members, length_members h names g] at fill
  simp only [List.nil_append, emptyGroup, Nat.zero_add] at fill
  rw [fillLoop, at_of_some (counts.counted g lt), ok_bind, if_neg filled]
  simp only [filledTo, groups, element, ok_bind]
  simp only [emptyGroup, fill, ok_bind, counts.roundup_eq lt]
  simp only [emptyGroup, fullGroup] at written
  rw [written, ok_bind, int_of_lt small, ok_bind]
  -- the part that the cpus leave is what is left of the group and of the groups above it
  have rest : unitsBelow (countOf placed) upa s.nrGroups - unitsBelow (countOf placed) upa g - countOf placed g =
      (unitsOf upa (countOf placed g) - countOf placed g) +
        (unitsBelow (countOf placed) upa s.nrGroups - unitsBelow (countOf placed) upa (g + 1)) := by
    rw [unitsBelow]
    omega
  rw [rest, List.replicate_add, blocks_succ, block, List.range_succ, List.map_append]
  simp only [List.append_assoc, List.map_cons, List.map_nil, List.singleton_append, fullGroup, unitsBelow]

/-- The groups with cpus are filled one after another. -/
theorem fillLoop_run {upa : Nat} (counts : Counts s.groupCnt (countOf placed) s.nrGroups upa) (ai : PcpuAllocInfo)
    (fuel : Nat) {g k : Nat} (ends : g + k = groups placed) :
    fillLoop req s upa (fuel + k) g (unitsBelow (countOf placed) upa g) (filledTo req s placed upa s.nrGroups ai g) =
      fillLoop req s upa fuel (groups placed) (unitsBelow (countOf placed) upa (groups placed))
        (filledTo req s placed upa s.nrGroups ai (groups placed)) := by
  induction k generalizing g with
  | zero =>
      have last : g = groups placed := ends
      rw [last, Nat.add_zero]
  | succ k ih =>
      have filled : countOf placed g ≠ 0 := by
        obtain ⟨t, member⟩ := h.grouped.exists_of_lt (by omega : g < groups placed)
        have pos : 0 < countOf placed g := List.countP_pos_iff.mpr ⟨_, member, by simp⟩
        omega
      have lt : g < s.nrGroups := by
        rw [h.nrGroups]
        omega
      rw [← Nat.add_assoc, fillLoop_step h names counts ai lt filled]
      exact ih (by omega)

omit h names in
theorem countOf_groups (placed : List (Nat × Nat)) : countOf placed (groups placed) = 0 := by
  refine List.countP_eq_zero.mpr (fun x member => ?_)
  have := lt_groups (t := x.1) (g := x.2) member
  simp only [decide_eq_true_eq]
  omega

/-- Without a cpu the one group stays as it is. -/
theorem filledTo_groups {upa : Nat} (pos : 0 < upa) (ai : PcpuAllocInfo) :
    filledTo req s placed upa s.nrGroups ai (groups placed) = filledTo req s placed upa s.nrGroups ai s.nrGroups ∧
      unitsBelow (countOf placed) upa (groups placed) = unitsBelow (countOf placed) upa s.nrGroups := by
  by_cases some : groups placed = s.nrGroups
  · rw [some]
    exact ⟨rfl, rfl⟩
  · have none : groups placed = 0 := by
      have := h.nrGroups
      omega
    have one : s.nrGroups = 1 := by
      have := h.nrGroups
      omega
    have empty : countOf placed 0 = 0 := by
      have := countOf_groups placed
      rwa [none] at this
    have nothing : (upa - 1) / upa = 0 := Nat.div_eq_of_lt (by omega)
    have alone : members req s 0 = [] := List.eq_nil_of_length_eq_zero ((length_members h names 0).trans empty)
    rw [none, one]
    simp [filledTo, blocks, block, unitsBelow, unitsOf, empty, nothing, alone, emptyGroup, fullGroup, u64]

/-- The loop reads one count behind the last group. -/
theorem fillLoop_eq {upa : Nat} (counts : Counts s.groupCnt (countOf placed) s.nrGroups upa) (ai : PcpuAllocInfo) :
    fillLoop req s upa (req.nrCpus + 1) 0 0 (filledTo req s placed upa s.nrGroups ai 0) =
      if groups placed < req.nrCpus then
        .ok (filledTo req s placed upa s.nrGroups ai s.nrGroups, unitsBelow (countOf placed) upa s.nrGroups)
      else .error .outside := by
  have few := length_possible_le req
  have count : placed.length = req.possible.length := by
    rw [← List.length_map (f := Prod.fst), names, List.length_reverse]
  have le := h.grouped.groups_le
  obtain ⟨fuel, enough⟩ : ∃ fuel, req.nrCpus + 1 = fuel + 1 + groups placed := ⟨req.nrCpus - groups placed, by omega⟩
  have run := fillLoop_run h names counts ai (fuel + 1) (g := 0) (k := groups placed) (Nat.zero_add _)
  rw [unitsBelow] at run
  obtain ⟨same, units⟩ := filledTo_groups h names counts.pos ai
  rw [enough, run, fillLoop]
  split
  · rename_i lt
    have zero : s.groupCnt[groups placed]? = some 0 := by
      rw [h.cnt _ lt]
      exact congrArg _ (countOf_groups placed)
    rw [at_of_some zero, ok_bind, if_pos rfl, same, units]
  · rename_i full
    have beyond : s.groupCnt[groups placed]? = none := List.getElem?_eq_none (by rw [h.cntLength]; omega)
    rw [at_, beyond]
    rfl

end

end Miracle.Percpu
