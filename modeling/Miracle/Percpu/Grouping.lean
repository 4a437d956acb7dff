import Miracle.Lib.Greedy
import Miracle.Percpu.AllocInfo

/-! # The groups of the possible cpus

The grouping loop is the greedy grouping of the cpus in ascending order.  Its restarts end
at the first group without a cpu that is too far away, and no access leaves the arrays.
-/

namespace Miracle.Percpu

open Greedy

theorem at_of_some {α : Type} {l : List α} {i : Nat} {a : α} (h : l[i]? = some a) : at_ l i = .ok a := by
  rw [at_, h]

theorem put_of_lt {α : Type} {l : List α} {i : Nat} (h : i < l.length) (a : α) : put l i a = .ok (l.set i a) :=
  if_pos h

variable {req : LayoutRequest}

theorem possible_nodup (req : LayoutRequest) : req.possible.Nodup := req.sorted.imp Nat.ne_of_lt

theorem length_possible_le (req : LayoutRequest) : req.possible.length ≤ req.nrCpus := by
  have sub : req.possible ⊆ List.range req.nrCpus := fun cpu member => List.mem_range.mpr (req.inRange cpu member)
  have le := ((possible_nodup req).subperm sub).length_le
  rwa [List.length_range] at le

/-- The arrays hold the groups of the cpus that are placed. -/
structure Represents (req : LayoutRequest) (s : Grouping) (placed : List (Nat × Nat)) : Prop where
  grouped : Grouped (conflict req) placed
  mapLength : s.groupMap.length = req.nrCpus
  cntLength : s.groupCnt.length = req.nrCpus
  map : ∀ t g, (t, g) ∈ placed → s.groupMap[t]? = some g
  cnt : ∀ g, g < req.nrCpus → s.groupCnt[g]? = some (placed.countP (fun x => x.2 = g))
  nrGroups : s.nrGroups = max 1 (groups placed)

/-- The inner loop ends at the cpu itself, so it looks at the cpus that are placed. -/
theorem scanGroup_eq {groupMap : List Nat} {cpu group : Nat} (rest : List Nat) {l : List Nat}
    (other : ∀ t ∈ l, t ≠ cpu) (mapped : ∀ t ∈ l, (groupMap[t]?).isSome) :
    scanGroup req groupMap cpu group (l ++ cpu :: rest) =
      .ok (l.any fun t => groupMap[t]? = some group && conflict req cpu t) := by
  induction l with
  | nil => simp [scanGroup]
  | cons t l ih =>
      obtain ⟨g, found⟩ := Option.isSome_iff_exists.mp (mapped t List.mem_cons_self)
      have next := ih (fun t member => other t (List.mem_cons_of_mem _ member))
        (fun t member => mapped t (List.mem_cons_of_mem _ member))
      rw [List.cons_append, scanGroup, if_neg (other t List.mem_cons_self).symm, at_of_some found, ok_bind, next]
      by_cases hit : g = group ∧ conflict req cpu t = true
      · rw [if_pos hit]
        simp [found, hit.1, hit.2]
      · rw [if_neg hit]
        by_cases same : g = group
        · have quiet : conflict req cpu t = false := by simpa [same] using hit
          simp [found, same, quiet]
        · simp [found, same]

section

variable {s : Grouping} {placed : List (Nat × Nat)} {done rest : List Nat} {cpu : Nat}
  (h : Represents req s placed) (names : placed.map Prod.fst = done.reverse)
  (split : req.possible = done ++ cpu :: rest)

include h names split

omit h split in
theorem mem_done {t : Nat} : t ∈ done ↔ ∃ g, (t, g) ∈ placed := by
  rw [← List.mem_reverse, ← names, List.mem_map]
  constructor
  · rintro ⟨⟨t', g⟩, member, rfl⟩
    exact ⟨g, member⟩
  · rintro ⟨g, member⟩
    exact ⟨(t, g), member, rfl⟩

theorem scanGroup_placed (group : Nat) :
    ∃ b, scanGroup req s.groupMap cpu group req.possible = .ok b ∧
      (b = true ↔ ∃ t, (t, group) ∈ placed ∧ conflict req cpu t = true) := by
  have nodup := possible_nodup req
  rw [split] at nodup
  have other (t : Nat) (member : t ∈ done) : t ≠ cpu := by
    rintro rfl
    exact (List.nodup_append.mp nodup).2.2 t member t List.mem_cons_self rfl
  have mapped (t : Nat) (member : t ∈ done) : (s.groupMap[t]?).isSome := by
    obtain ⟨g, found⟩ := (mem_done names).mp member
    rw [h.map t g found]
    rfl
  refine ⟨_, by rw [split]; exact scanGroup_eq rest other mapped, ?_⟩
  simp only [List.any_eq_true, Bool.and_eq_true, decide_eq_true_eq]
  constructor
  · rintro ⟨t, member, found, clash⟩
    obtain ⟨g, here⟩ := (mem_done names).mp member
    rw [h.map t g here] at found
    cases found
    exact ⟨t, here, clash⟩
  · rintro ⟨t, here, clash⟩
    exact ⟨t, (mem_done names).mpr ⟨group, here⟩, h.map t group here, clash⟩

/-- The restarts lead to the first free group. -/
theorem nextGroup_eq {g : Nat} (first : FirstFree (conflict req) placed cpu g) (fuel : Nat) {group n : Nat} (le : group ≤ g)
    (enough : g < group + fuel) (low : group + 1 ≤ n) :
    nextGroup req s.groupMap cpu fuel group n = .ok (g, max n (g + 1)) := by
  induction fuel generalizing group n with
  | zero => omega
  | succ fuel ih =>
      obtain ⟨b, scan, clash⟩ := scanGroup_placed h names split group
      rw [nextGroup, scan, ok_bind]
      by_cases stop : group = g
      · have quiet : b = false := by
          rw [← Bool.not_eq_true, clash]
          rintro ⟨t, member, clashes⟩
          rw [first.free t (stop ▸ member)] at clashes
          cases clashes
        subst stop
        rw [quiet, if_neg (by decide), Nat.max_eq_left low]
      · have hit : b = true := clash.mpr (first.below group (by omega))
        rw [hit, if_pos rfl, ih (by omega) (by omega) (by omega)]
        refine congrArg Except.ok (congrArg _ ?_)
        omega

/-- One cpu is placed. -/
theorem groupCpus_step : ∃ s' g, Represents req s' ((cpu, g) :: placed) ∧
    groupCpus req s (cpu :: rest) = groupCpus req s' rest := by
  have nodup := possible_nodup req
  have inRange := req.inRange cpu (by simp [split])
  have few := length_possible_le req
  have count : placed.length = done.length := by
    rw [← List.length_map (f := Prod.fst), names, List.length_reverse]
  have total : req.possible.length = done.length + (rest.length + 1) := by
    rw [split, List.length_append, List.length_cons]
  obtain ⟨g, first⟩ := exists_firstFree (conflict req) placed cpu
  have low := first.le_groups
  have le := h.grouped.groups_le
  have room : g < req.nrCpus := by omega
  have next := nextGroup_eq h names split first (req.nrCpus + 1) (n := s.nrGroups) (Nat.zero_le g)
    (by omega) (by rw [h.nrGroups]; omega)
  have fresh {t k : Nat} (member : (t, k) ∈ placed) : cpu ≠ t := by
    rintro rfl
    rw [split] at nodup
    exact (List.nodup_append.mp nodup).2.2 cpu ((mem_done names).mpr ⟨k, member⟩) cpu List.mem_cons_self rfl
  refine ⟨⟨s.groupMap.set cpu g, s.groupCnt.set g (placed.countP (fun x => x.2 = g) + 1), max s.nrGroups (g + 1)⟩, g, ?_, ?_⟩
  · refine ⟨h.grouped.place first, ?_, ?_, fun t k member => ?_, fun k lt => ?_, ?_⟩
    · rw [List.length_set, h.mapLength]
    · rw [List.length_set, h.cntLength]
    · rcases List.mem_cons.mp member with here | there
      · cases here
        exact List.getElem?_set_self (by rw [h.mapLength]; exact inRange)
      · rw [List.getElem?_set_ne (fresh there)]
        exact h.map t k there
    · by_cases same : g = k
      · subst same
        rw [List.getElem?_set_self (by rw [h.cntLength]; exact lt)]
        simp
      · rw [List.getElem?_set_ne same, h.cnt k lt]
        simp [same]
    · change max s.nrGroups (g + 1) = max 1 (max (groups placed) (g + 1))
      rw [h.nrGroups]
      omega
  · rw [groupCpus, next, ok_bind]
    simp only [put_of_lt (by rw [h.mapLength]; exact inRange : cpu < s.groupMap.length), ok_bind,
      at_of_some (h.cnt g room), put_of_lt (by rw [h.cntLength]; exact room : g < s.groupCnt.length)]

end

/-- All cpus are placed. -/
theorem groupCpus_run {s : Grouping} {placed : List (Nat × Nat)} (done : List Nat) {rest : List Nat} (h : Represents req s placed)
    (names : placed.map Prod.fst = done.reverse) (split : req.possible = done ++ rest) :
    ∃ s' placed', groupCpus req s rest = .ok s' ∧ Represents req s' placed' ∧
      placed'.map Prod.fst = req.possible.reverse := by
  induction rest generalizing s placed done with
  | nil =>
      refine ⟨s, placed, rfl, h, ?_⟩
      rw [names, split, List.append_nil]
  | cons cpu rest ih =>
      obtain ⟨s', g, h', step⟩ := groupCpus_step h names split
      obtain ⟨last, placed', run, result⟩ := ih (done ++ [cpu]) h' (by simp [names]) (by simp [split])
      exact ⟨last, placed', step.trans run, result⟩

theorem groupCpus_ok (req : LayoutRequest) :
    ∃ s placed, groupCpus req
        { groupMap := List.replicate req.nrCpus 0, groupCnt := List.replicate req.nrCpus 0, nrGroups := 1 }
        req.possible = .ok s ∧
      Represents req s placed ∧ placed.map Prod.fst = req.possible.reverse := by
  refine @groupCpus_run req _ [] [] _ ⟨.nil, ?_, ?_, ?_, ?_, rfl⟩ rfl rfl
  · exact List.length_replicate
  · exact List.length_replicate
  · intro t g member
    cases member
  · intro g lt
    rw [List.getElem?_replicate_of_lt lt]
    rfl

/-! ## Units per allocation

The search settles on a divisor of the allocation size that leaves units of whole pages.
One unit per allocation always passes, so the search does not end without a result, and
while the cpus times the largest divisor fit in an `int` no sum overflows.
-/

open Greedy

variable {req : LayoutRequest}

/-- The allocation is divided into `upa` units of whole pages. -/
def Divides (allocSize upa : Nat) : Prop := allocSize % upa = 0 ∧ allocSize / upa % pageSize = 0

instance (allocSize upa : Nat) : Decidable (Divides allocSize upa) := inferInstanceAs (Decidable (_ ∧ _))

theorem offsetInPage_eq (x : Nat) : offsetInPage x = x % pageSize := Nat.and_two_pow_sub_one_eq_mod x 12

theorem skips_iff {allocSize upa : Nat} :
    (allocSize % upa ≠ 0 ∨ offsetInPage (allocSize / upa) ≠ 0) ↔ ¬ Divides allocSize upa := by
  rw [offsetInPage_eq, Divides, not_and_or]

theorem divides_one {allocSize : Nat} (pages : allocSize % pageSize = 0) : Divides allocSize 1 := by
  simp [Divides, Nat.mod_one, pages]

theorem maxUpa_ok {allocSize : Nat} (pages : allocSize % pageSize = 0) {upa : Nat} (pos : 0 < upa) :
    ∃ m, maxUpa allocSize upa = .ok m ∧ 0 < m ∧ m ≤ upa ∧ Divides allocSize m := by
  induction upa with
  | zero => cases pos
  | succ upa ih =>
      rw [maxUpa]
      simp only [skips_iff]
      by_cases divides : Divides allocSize (upa + 1)
      · exact ⟨upa + 1, if_neg (not_not.mpr divides), pos, le_rfl, divides⟩
      · have more : 0 < upa := by
          by_contra zero
          rw [Nat.eq_zero_of_not_pos zero] at divides
          exact divides (divides_one pages)
        obtain ⟨m, found, low, high, works⟩ := ih more
        exact ⟨m, by rw [if_pos divides, found], low, by omega, works⟩

/-! ## Counting units -/

/-- The units of a group of `cnt` cpus. -/
def unitsOf (upa cnt : Nat) : Nat := (cnt + (upa - 1)) / upa * upa

/-- The cpus in the groups below `g`. -/
def cpusBelow (cnt : Nat → Nat) : Nat → Nat
  | 0 => 0
  | g + 1 => cpusBelow cnt g + cnt g

/-- The unit at which a group starts. -/
def unitsBelow (cnt : Nat → Nat) (upa : Nat) : Nat → Nat
  | 0 => 0
  | g + 1 => unitsBelow cnt upa g + unitsOf upa (cnt g)

theorem le_unitsOf {upa : Nat} (pos : 0 < upa) (cnt : Nat) : cnt ≤ unitsOf upa cnt := by
  have := Nat.lt_div_mul_add pos (a := cnt + (upa - 1))
  unfold unitsOf
  omega

theorem unitsOf_le {upa : Nat} (pos : 0 < upa) (cnt : Nat) : unitsOf upa cnt ≤ cnt * upa := by
  unfold unitsOf
  apply Nat.mul_le_mul_right
  rw [Nat.div_le_iff_le_mul_add_pred pos]
  cases cnt with
  | zero => omega
  | succ cnt =>
      have := Nat.le_mul_of_pos_left (cnt + 1) pos
      omega

theorem dvd_unitsOf (upa cnt : Nat) : upa ∣ unitsOf upa cnt := Nat.dvd_mul_left _ _

theorem unitsBelow_le (cnt : Nat → Nat) {upa : Nat} (pos : 0 < upa) (g : Nat) :
    unitsBelow cnt upa g ≤ cpusBelow cnt g * upa := by
  induction g with
  | zero => exact Nat.zero_le _
  | succ g ih =>
      have := unitsOf_le pos (cnt g)
      rw [unitsBelow, cpusBelow, Nat.add_mul]
      omega

theorem cpusBelow_mono (cnt : Nat → Nat) {g n : Nat} (le : g ≤ n) : cpusBelow cnt g ≤ cpusBelow cnt n := by
  induction le with
  | refl => exact le_rfl
  | step _ ih => exact ih.trans (Nat.le_add_right _ _)

theorem unitsBelow_mono (cnt : Nat → Nat) (upa : Nat) {g n : Nat} (le : g ≤ n) :
    unitsBelow cnt upa g ≤ unitsBelow cnt upa n := by
  induction le with
  | refl => exact le_rfl
  | step _ ih => exact ih.trans (Nat.le_add_right _ _)

theorem countP_lt_succ (placed : List (Nat × Nat)) (n : Nat) :
    placed.countP (fun x => x.2 < n) + placed.countP (fun x => x.2 = n) = placed.countP (fun x => x.2 < n + 1) := by
  induction placed with
  | nil => rfl
  | cons x placed ih =>
      simp only [List.countP_cons, decide_eq_true_eq]
      split <;> split <;> split <;> omega

/-- The counts of the groups add up to the cpus. -/
theorem cpusBelow_countP (placed : List (Nat × Nat)) (n : Nat) :
    cpusBelow (fun g => placed.countP (fun x => x.2 = g)) n = placed.countP (fun x => x.2 < n) := by
  induction n with
  | zero => simp [cpusBelow]
  | succ n ih => rw [cpusBelow, ih, countP_lt_succ]

/-! ## The loops over the groups -/

theorem int_of_lt {n : Nat} (h : n < 2 ^ 31) : int n = .ok n := if_pos h

/-- The numbers of cpus in the groups, and the bound under which no `int` overflows. -/
structure Counts (groupCnt : List Nat) (cnt : Nat → Nat) (groups upa : Nat) : Prop where
  counted : ∀ g, g < groups → groupCnt[g]? = some (cnt g)
  pos : 0 < upa
  small : upa < 2 ^ 31
  room : cpusBelow cnt groups * upa < 2 ^ 31

section

variable {groupCnt : List Nat} {cnt : Nat → Nat} {n upa : Nat} (h : Counts groupCnt cnt n upa)

include h

theorem Counts.below {g : Nat} (lt : g < n) : (cpusBelow cnt g + cnt g) * upa < 2 ^ 31 :=
  (Nat.mul_le_mul_right upa (cpusBelow_mono cnt (Nat.succ_le_of_lt lt))).trans_lt h.room

theorem Counts.sum_lt {g : Nat} (lt : g < n) : cnt g + (upa - 1) < 2 ^ 31 := by
  have below := h.below lt
  have pos := h.pos
  have small := h.small
  cases count : cnt g with
  | zero => omega
  | succ c =>
      rw [count] at below
      have one : c + upa ≤ (c + 1) * upa := by
        have := Nat.le_mul_of_pos_right c pos
        rw [Nat.succ_mul]
        omega
      have more : (c + 1) * upa ≤ (cpusBelow cnt g + (c + 1)) * upa := Nat.mul_le_mul_right _ (Nat.le_add_left _ _)
      omega

theorem Counts.roundup_eq {g : Nat} (lt : g < n) : roundup (cnt g) upa = .ok (unitsOf upa (cnt g)) := by
  have below := h.below lt
  have le := unitsOf_le h.pos (cnt g)
  have more : cnt g * upa ≤ (cpusBelow cnt g + cnt g) * upa := Nat.mul_le_mul_right _ (Nat.le_add_left _ _)
  rw [roundup, int_of_lt (h.sum_lt lt), ok_bind]
  exact int_of_lt (lt_of_le_of_lt (le.trans more) below)

/-- One unit per allocation wastes nothing. -/
theorem Counts.wasteLoop_ok {g k allocs wasted : Nat} (ends : g + k = n)
    (a : allocs ≤ cpusBelow cnt g * upa) (w : wasted ≤ cpusBelow cnt g * upa) :
    ∃ allocs' wasted', wasteLoop groupCnt upa g k allocs wasted = .ok (allocs', wasted') ∧ allocs' < 2 ^ 31 ∧
      (upa = 1 → wasted' = wasted) := by
  induction k generalizing g allocs wasted with
  | zero =>
      have last : g = n := ends
      rw [last] at a
      exact ⟨allocs, wasted, rfl, lt_of_le_of_lt a h.room, fun _ => rfl⟩
  | succ k ih =>
      have lt : g < n := by omega
      have below := h.below lt
      have units : (cnt g + (upa - 1)) / upa * upa ≤ cnt g * upa := unitsOf_le h.pos (cnt g)
      have allocsLe : (cnt g + (upa - 1)) / upa ≤ cnt g * upa := (Nat.le_mul_of_pos_right _ h.pos).trans units
      rw [Nat.add_mul] at below
      have div : divRoundUp (cnt g) upa = .ok ((cnt g + (upa - 1)) / upa) := by
        have sum := h.sum_lt lt
        rw [divRoundUp, Nat.add_sub_assoc h.pos, int_of_lt sum]
        rfl
      rw [wasteLoop, at_of_some (h.counted g lt), ok_bind, div, ok_bind, int_of_lt (by omega), ok_bind,
        int_of_lt (by omega), ok_bind, int_of_lt (by omega), ok_bind]
      obtain ⟨allocs', wasted', loop, small, one⟩ := @ih (g + 1) (allocs + (cnt g + (upa - 1)) / upa)
        (wasted + ((cnt g + (upa - 1)) / upa * upa - cnt g)) (by omega)
        (by rw [cpusBelow, Nat.add_mul]; omega) (by rw [cpusBelow, Nat.add_mul]; omega)
      refine ⟨allocs', wasted', loop, small, fun single => ?_⟩
      rw [one single]
      subst single
      simp

theorem Counts.countUnits_eq {g k : Nat} (ends : g + k = n) :
    countUnits groupCnt upa g k (unitsBelow cnt upa g) = .ok (unitsBelow cnt upa n) := by
  induction k generalizing g with
  | zero =>
      rw [← ends]
      rfl
  | succ k ih =>
      have lt : g < n := by omega
      have total := unitsBelow_le cnt h.pos (g + 1)
      have below := h.below lt
      rw [unitsBelow, cpusBelow] at total
      rw [countUnits, at_of_some (h.counted g lt), ok_bind, h.roundup_eq lt, ok_bind,
        int_of_lt (lt_of_le_of_lt total below), ok_bind]
      exact ih (g := g + 1) (by omega)

end

/-! ## The search -/

/-- The search returns a divisor that is not above the first one tried. -/
theorem bestUpa_ok (req : LayoutRequest) {allocSize : Nat} (pages : allocSize % pageSize = 0) {s : Grouping} {cnt : Nat → Nat} {max : Nat}
    (counts : ∀ upa, 0 < upa → upa ≤ max → Counts s.groupCnt cnt s.nrGroups upa) {upa : Nat} (last : Nat) (best : Option Nat) (le : upa ≤ max)
    (start : best = none → 0 < upa ∧ last = intMax)
    (good : ∀ b, best = some b → 0 < b ∧ b ≤ max ∧ Divides allocSize b) :
    ∃ b, bestUpa req allocSize s upa last best = .ok (some b) ∧ 0 < b ∧ b ≤ max ∧ Divides allocSize b := by
  induction upa generalizing last best with
  | zero =>
      cases best with
      | none => exact absurd (start rfl).1 (Nat.lt_irrefl 0)
      | some b => exact ⟨b, rfl, good b rfl⟩
  | succ upa ih =>
      rw [bestUpa]
      simp only [skips_iff]
      by_cases divides : Divides allocSize (upa + 1)
      · obtain ⟨allocs, wasted, loop, small, one⟩ := (counts (upa + 1) (Nat.succ_pos _) le).wasteLoop_ok
          (Nat.zero_add s.nrGroups) (Nat.zero_le _) (Nat.zero_le _)
        rw [if_neg (not_not.mpr divides), loop, ok_bind]
        simp only
        by_cases waste : wasted > req.nrPossibleCpuIds / 3
        · rw [if_pos waste]
          refine ih _ _ (by omega) (fun none => ⟨?_, (start none).2⟩) good
          by_contra zero
          have single := one (by omega)
          omega
        · rw [if_neg waste]
          by_cases more : allocs > last
          · rw [if_pos more]
            cases best with
            | none =>
                have := (start rfl).2
                simp only [intMax] at this
                omega
            | some b => exact ⟨b, rfl, good b rfl⟩
          · rw [if_neg more]
            refine ih _ _ (by omega) (fun none => by cases none) ?_
            rintro b ⟨⟩
            exact ⟨Nat.succ_pos _, le, divides⟩
      · rw [if_pos divides]
        refine ih _ _ (by omega) (fun none => ⟨?_, (start none).2⟩) good
        by_contra zero
        rw [Nat.eq_zero_of_not_pos zero] at divides
        exact divides (divides_one pages)

end Miracle.Percpu
