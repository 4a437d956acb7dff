import Miracle.Vmalloc.Place

/-! # The area set over whole runs

A run registers early areas, imports them in `vmalloc_init` and then allocates, frees and
purges in any order.  A run that meets a `BUG_ON` ends there.
-/

namespace Miracle.Vmalloc

open SearchTree

/-- What `vm_area_add_early` and `vm_area_register_early` can build before `vmalloc_init`. -/
inductive EarlyRun : Early → Prop
  | start : EarlyRun ⟨[], 0⟩
  | add {early : Early} {vm : VmapArea} {vmlist : List VmapArea} (run : EarlyRun early)
      (proper : vm.vaStart < vm.vaEnd) (word : vm.vaEnd < 2 ^ 64)
      (added : vmAreaAddEarly vm early.vmlist = .ok vmlist) : EarlyRun { early with vmlist := vmlist }
  | register {early early' : Early} {size a : Nat} (run : EarlyRun early) (pos : 0 < size)
      (room : alignUp (u64 (vmallocStart + early.vmInitOff)) a + size < 2 ^ 64)
      (registered : vmAreaRegisterEarly early size a = .ok early') : EarlyRun early'

/-- One operation on the area set. -/
inductive Step (rb : Rebalancing) (lazyMax : Nat) (s : Vmap) : Vmap → Prop
  | alloc {s' : Vmap} {size a vstart vend : Nat} {mem : Bool} {result : Except Errno VmapArea} (word : a < 2 ^ 64)
      (lower : vmallocStart ≤ vstart) (upper : vend ≤ vmallocEnd)
      (done : allocVmapArea rb s size a vstart vend mem = .ok (result, s')) : Step rb lazyMax s s'
  /-- `alloc_vmap_area` and `setup_vmalloc_vm`, as in `__get_vm_area_node`. -/
  | allocSetup {s' : Vmap} {size a vstart vend : Nat} {mem : Bool} {va : VmapArea} (word : a < 2 ^ 64)
      (lower : vmallocStart ≤ vstart) (upper : vend ≤ vmallocEnd)
      (done : allocVmapArea rb s size a vstart vend mem = .ok (.ok va, s')) :
      Step rb lazyMax s (setupVmallocVm s' va)
  | remove {s' : Vmap} {addr : Nat} {removed : Option VmapArea}
      (done : removeVmArea rb lazyMax s addr = .ok (removed, s')) : Step rb lazyMax s s'
  | purge {s' : Vmap} (done : purgeVmapAreaLazy rb s = .ok s') : Step rb lazyMax s s'
  | pcpuGet {s' : Vmap} {parts : List Part} {a rounds : Nat} {mem : Bool} {result : Option (List VmapArea)}
      (word : a < 2 ^ 64) (some_parts : parts ≠ []) (sizes : ∀ p ∈ parts, 0 < p.size)
      (stops : ∀ p ∈ parts, p.stop < 2 ^ 64)
      (done : pcpuGetVmAreas rb s parts a mem rounds = .ok (some (result, s'))) : Step rb lazyMax s s'
  | pcpuFree {s' : Vmap} {vms : List VmapArea} (done : pcpuFreeVmAreas rb lazyMax vms s = .ok s') :
      Step rb lazyMax s s'

inductive Reachable (rb : Rebalancing) (lazyMax : Nat) : Vmap → Prop
  | init {early : Early} {s : Vmap} (run : EarlyRun early) (done : vmallocInit rb early = .ok s) :
      Reachable rb lazyMax s
  | step {s s' : Vmap} (run : Reachable rb lazyMax s) (step : Step rb lazyMax s s') : Reachable rb lazyMax s'

theorem EarlyRun.ok {early : Early} (run : EarlyRun early) : EarlyOk early.vmlist := by
  induction run with
  | start => exact ⟨nofun, nofun, List.Pairwise.nil⟩
  | add run proper word added ih => exact vmAreaAddEarly_ok ih proper word added
  | register run pos room registered ih => exact vmAreaRegisterEarly_ok ih pos room registered

theorem vmallocStart_pos : 0 < vmallocStart := by decide

theorem Step.ok {rb : Rebalancing} {lazyMax : Nat} {s s' : Vmap} (ok : AreasOk s) (step : Step rb lazyMax s s') :
    AreasOk s' := by
  cases step with
  | alloc word lower upper done =>
      exact (allocVmapArea_ok rb ok word (vmallocStart_pos.trans_le lower) done).1
  | allocSetup word lower upper done =>
      obtain ⟨ok', returned⟩ := allocVmapArea_ok rb ok word (vmallocStart_pos.trans_le lower) done
      exact setup_ok ok' (returned _ rfl).unlisted
  | @remove s' addr removed done =>
      obtain ⟨removed', s'', done', ok'⟩ := @removeVmArea_ok rb lazyMax addr s ok
      obtain ⟨-, rfl⟩ := Prod.mk.inj (Except.ok.inj (done.symm.trans done'))
      exact ok'
  | purge done =>
      obtain ⟨s'', done', ok', -⟩ := purgeVmapAreaLazy_ok rb ok
      obtain rfl := Except.ok.inj (done.symm.trans done')
      exact ok'
  | pcpuGet word some_parts sizes stops done => exact pcpuGetVmAreas_ok rb ok word some_parts sizes done
  | pcpuFree done => exact pcpuFreeVmAreas_ok rb ok done

theorem Reachable.ok {rb : Rebalancing} {lazyMax : Nat} {s : Vmap} (reach : Reachable rb lazyMax s) : AreasOk s := by
  induction reach with
  | init run done =>
      obtain ⟨s', done', ok⟩ := vmallocInit_ok rb run.ok
      obtain rfl := Except.ok.inj (done.symm.trans done')
      exact ok
  | step run step ih => exact step.ok ih

/-- The areas of a reachable set are not empty, do not overlap and are in order, in the tree
    as in the list; the cache is one of them; and what is allocated is aligned and in range. -/
theorem vmap_areas_sound (rb : Rebalancing) (lazyMax : Nat) {s : Vmap} (reach : Reachable rb lazyMax s) :
    s.root.inorder.Pairwise Apart ∧
      (∀ va ∈ s.root.inorder, va.vaStart < va.vaEnd) ∧
      s.root.inorder = s.areaList ∧
      s.areaList.Pairwise (fun a b => a.vaStart < b.vaStart) ∧
      (∀ va, s.freeCache = some va → va ∈ s.root.inorder) ∧
      ∀ (size a vstart vend : Nat) (mem : Bool) (va : VmapArea) (s' : Vmap), a < 2 ^ 64 → vmallocStart ≤ vstart →
        vend ≤ vmallocEnd → allocVmapArea rb s size a vstart vend mem = .ok (.ok va, s') →
          va.vaEnd = va.vaStart + size ∧ a ∣ va.vaStart ∧ vstart ≤ va.vaStart ∧ va.vaEnd ≤ vend ∧
            va ∈ s'.root.inorder := by
  have ok := reach.ok
  have sorted : s.areaList.Pairwise fun a b => a.vaStart < b.vaStart := by
    apply ok.sorted.imp_of_mem
    intro a b memA _ before
    exact lt_of_lt_of_le (ok.nonempty a memA) before
  refine ⟨?_, ?_, ok.tree, sorted, ?_, ?_⟩
  · rw [ok.tree]
    exact ok.sorted.imp fun before => .inl before
  · rw [ok.tree]
    exact ok.nonempty
  · rw [ok.tree]
    exact ok.cache
  · intro size a vstart vend mem va s' word lower upper done
    obtain ⟨ok', returned⟩ := allocVmapArea_ok rb ok word (vmallocStart_pos.trans_le lower) done
    have result := returned va rfl
    rw [ok'.tree]
    exact ⟨result.size, result.aligned, result.lower, result.upper, result.present⟩

/-- A tree that is a list. -/
def spine : List VmapArea → BinTree VmapArea
  | [] => .leaf
  | va :: rest => .node .leaf va (spine rest)

theorem spine_inorder (l : List VmapArea) : (spine l).inorder = l := by
  induction l with
  | nil => rfl
  | cons va rest ih => simp only [spine, BinTree.inorder, ih, List.nil_append]

/-- Without rotations. -/
def plain : Rebalancing where
  insertColor := id
  erase va t := spine (t.inorder.erase va)
  insertColor_inorder _ := rfl
  erase_inorder va t := spine_inorder (t.inorder.erase va)

/-- An early area of two pages, and a page allocated behind it. -/
theorem sound_after_alloc :
    ∃ s, Reachable plain 8192 s ∧
      s.areaList = [⟨vmallocStart, vmallocStart + 8192⟩, ⟨vmallocStart + 8192, vmallocStart + 12288⟩] ∧
      s.root.inorder.Pairwise Apart := by
  have registered : vmAreaRegisterEarly ⟨[], 0⟩ 8192 4096 = .ok ⟨[⟨vmallocStart, vmallocStart + 8192⟩], 8192⟩ := by
    rfl
  have first : EarlyRun ⟨[⟨vmallocStart, vmallocStart + 8192⟩], 8192⟩ :=
    .register .start (by decide) (by decide) registered
  obtain ⟨s, initial, -⟩ := vmallocInit_ok plain first.ok
  have reach : Reachable plain 8192 s := .init first initial
  have run : ((vmallocInit plain ⟨[⟨vmallocStart, vmallocStart + 8192⟩], 8192⟩).bind fun s =>
      (allocVmapArea plain s 4096 4096 vmallocStart vmallocEnd true).map fun r => r.2.areaList) =
      .ok [⟨vmallocStart, vmallocStart + 8192⟩, ⟨vmallocStart + 8192, vmallocStart + 12288⟩] := by
    rfl
  rw [initial] at run
  change (allocVmapArea plain s 4096 4096 vmallocStart vmallocEnd true).map (fun r => r.2.areaList) = _ at run
  cases done : allocVmapArea plain s 4096 4096 vmallocStart vmallocEnd true with
  | error bug =>
      rw [done] at run
      exact absurd run nofun
  | ok result =>
      rw [done] at run
      have reach' : Reachable plain 8192 result.2 := .step reach (.alloc (by decide) le_rfl le_rfl done)
      exact ⟨result.2, reach', Except.ok.inj run, (vmap_areas_sound plain 8192 reach').1⟩

/-! ## Congruent areas for the per-CPU allocator

For an alignment of at most 256 TiB, which divides `VMALLOC_START`, `pcpu_get_vm_areas` ends
with areas in the vmalloc range or with `NULL`.  The start of the range is not rounded to a
larger alignment but to zero, and then the check that there is room does not keep the areas
in the range.
-/

section Congruent

variable {parts : List Part} {a : Nat}

/-- The areas are those of the parts at one aligned base, inside the vmalloc range, apart from
    one another and from all other areas that are left. -/
structure Congruent (s s' : Vmap) (parts : List Part) (a : Nat) (areas : List VmapArea) : Prop where
  base : ∃ base, a ∣ base ∧ areas = parts.map fun p => ⟨base + p.offset, base + p.offset + p.size⟩
  range : ∀ va ∈ areas, vmallocStart ≤ va.vaStart ∧ va.vaEnd ≤ vmallocEnd
  disjoint : areas.Pairwise Apart
  others : ∃ mid, Settled s mid ∧ (∀ va, va ∈ s'.areaList ↔ va ∈ areas ∨ va ∈ mid.areaList) ∧
    ∀ va ∈ mid.areaList, ∀ new ∈ areas, Apart va new

/-- What is asked of a call, for all area sets: given rounds enough it ends, without meeting a
    `BUG_ON`, and returns congruent areas, or `NULL` with no area lost but those that waited to be
    purged. -/
def CongruentAreas (rb : Rebalancing) (parts : List Part) (a : Nat) : Prop :=
  ∀ (s : Vmap) (mem : Bool), AreasOk s → ∃ enough, ∀ rounds, enough ≤ rounds → ∃ result s',
    pcpuGetVmAreas rb s parts a mem rounds = .ok (some (result, s')) ∧
      match result with
      | none => Settled s s'
      | some areas => Congruent s s' parts a areas

theorem part_areas_apart {base : Nat} (apart : parts.Pairwise fun p q => ¬(q.offset < p.stop ∧ p.offset < q.stop)) :
    (parts.map (Part.area base)).Pairwise Apart := by
  rw [List.pairwise_map]
  apply apart.imp
  intro p q disjoint
  unfold Apart Before Part.area
  simp only
  omega

/-- A large alignment: what is left of the range starts at zero. -/
theorem large_alignment (power : isPowerOf2 a = true) (word : a < 2 ^ 64) (large : 2 ^ 48 < a) :
    alignUp vmallocStart a = 0 ∧ alignDown vmallocEnd a + a = 2 ^ 64 := by
  simp only [isPowerOf2, Bool.and_eq_true, decide_eq_true_eq, beq_iff_eq] at power
  obtain ⟨k, rfl⟩ := (Nat.and_sub_one_eq_zero_iff_isPowerOfTwo power.1).mp power.2
  have small : k < 64 := (Nat.pow_lt_pow_iff_right (by decide)).mp word
  have above : 48 < k := (Nat.pow_lt_pow_iff_right (by decide)).mp large
  interval_cases k <;> decide

theorem small_alignment (power : isPowerOf2 a = true) (small : a ≤ 2 ^ 48) : vmallocStart ≤ alignUp vmallocStart a := by
  simp only [isPowerOf2, Bool.and_eq_true, decide_eq_true_eq, beq_iff_eq] at power
  obtain ⟨k, rfl⟩ := (Nat.and_sub_one_eq_zero_iff_isPowerOfTwo power.1).mp power.2
  have fits : k ≤ 48 := (Nat.pow_le_pow_iff_right (by decide)).mp small
  interval_cases k <;> decide

theorem BaseOk.congruent {s s' mid : Vmap} {base : Nat} (partsOk : PartsOk parts a) (small : a ≤ 2 ^ 48)
    (settled : Settled s mid) (good : BaseOk mid.areaList parts a (partAt parts (lastArea parts)).stop base)
    (placed : PartsPlaced mid s' parts base) : Congruent s s' parts a (parts.map (Part.area base)) where
  base := by
    refine ⟨base, good.aligned, ?_⟩
    simp only [Nat.add_assoc]
    rfl
  range := by
    intro va mem
    obtain ⟨p, memP, rfl⟩ := List.mem_map.mp mem
    have lower := (small_alignment partsOk.power small).trans good.lower
    have upper := good.small partsOk memP
    have limit : alignDown vmallocEnd a ≤ vmallocEnd := Nat.div_mul_le_self vmallocEnd a
    unfold Part.area
    simp only
    omega
  disjoint := part_areas_apart partsOk.apart
  others := by
    refine ⟨mid, settled, placed.members, fun va mem new isNew => ?_⟩
    obtain ⟨p, memP, rfl⟩ := List.mem_map.mp isNew
    exact good.good.2 p memP va mem

/-- The set after `vmalloc_init`, when there were no early areas. -/
def initialVmap : Vmap := { emptyVmap with pcpuHole := vmallocEnd }

theorem vmallocInit_none (rb : Rebalancing) : vmallocInit rb ⟨[], 0⟩ = .ok initialVmap := rfl

theorem initialVmap_ok : AreasOk initialVmap := { emptyVmap_ok with }

/-- Where nothing is mapped the areas are placed at the top of what is left of the range. -/
theorem empty_placed (rb : Rebalancing) (partsOk : PartsOk parts a)
    (room : (partAt parts (lastArea parts)).stop ≤ u64Sub (alignDown vmallocEnd a) (alignUp vmallocStart a)) (rounds : Nat) :
    ∃ s' base, pcpuGetVmAreas rb initialVmap parts a true rounds = .ok (some (some (parts.map (Part.area base)), s')) ∧
      ∀ p ∈ parts, base + p.stop ≤ alignDown vmallocEnd a := by
  have nothing : findBase initialVmap parts a rounds =
      .ok (some (some (u64Sub (alignDown vmallocEnd a) (partAt parts (lastArea parts)).stop))) := rfl
  obtain ⟨found, scan, -, right⟩ := findBase_spec initialVmap_ok partsOk room rounds
  have good := right _ (Except.ok.inj (scan.symm.trans nothing))
  obtain ⟨s', placed, -, -⟩ := placeParts_ok rb initialVmap_ok partsOk good
  refine ⟨s', _, ?_, fun p mem => good.small partsOk mem⟩
  have accepted : ¬(u64Sub (alignDown vmallocEnd a) (alignUp vmallocStart a) < (parts.getD (lastArea parts) ⟨0, 0⟩).stop ∨
      true = false) := by
    unfold partAt at room
    simp only [Bool.true_eq_false, or_false, not_lt]
    exact room
  simp only [pcpuGetVmAreas, partsOk.valid, Bool.true_eq_false, if_false]
  rw [if_neg (by simpa using accepted), nothing, ok_bind]
  exact placed

/-- The ranges of the parts are ranges of addresses: a call does what is asked of it, whatever
    the areas are, exactly where the alignment does not exceed that of `VMALLOC_START`. -/
theorem congruent_areas_iff (rb : Rebalancing) (partsOk : PartsOk parts a) (stops : ∀ p ∈ parts, p.stop < 2 ^ 64) :
    CongruentAreas rb parts a ↔ a ≤ 2 ^ 48 := by
  constructor
  · intro congruent
    by_contra large
    obtain ⟨zero, top⟩ := large_alignment partsOk.power partsOk.word (not_le.mp large)
    obtain ⟨inRange, -⟩ := lastArea_spec partsOk.some_parts
    have memLast := partAt_mem inRange
    have room : (partAt parts (lastArea parts)).stop ≤ alignDown vmallocEnd a := by
      -- a multiple of the alignment below the end of the address space
      obtain ⟨n, product⟩ := partsOk.unit
      obtain ⟨k, stop⟩ := (partsOk.units memLast).2
      have bound := stops _ memLast
      rw [stop, product] at bound
      have less : k < n := Nat.lt_of_mul_lt_mul_left bound
      have whole : a * k + a ≤ 2 ^ 64 := by
        rw [product, ← Nat.mul_succ]
        exact Nat.mul_le_mul_left a less
      omega
    have word := vmallocEnd_lt a
    obtain ⟨enough, all⟩ := congruent initialVmap true initialVmap_ok
    obtain ⟨result, s', done, holds⟩ := all enough le_rfl
    obtain ⟨s'', base, placed, below⟩ := empty_placed rb partsOk
      (by rw [zero, u64Sub_of_le word (Nat.zero_le _)]; exact room) enough
    obtain ⟨rfl, rfl⟩ := Prod.mk.inj (Option.some.inj (Except.ok.inj (done.symm.trans placed)))
    have within := (holds.range _ (List.mem_map_of_mem memLast)).1
    have under := below _ memLast
    have start : vmallocStart + 2 ^ 48 = 2 ^ 64 := by decide
    change vmallocStart ≤ base + (partAt parts (lastArea parts)).offset at within
    unfold Part.stop at under
    omega
  · intro small s mem ok
    refine ⟨roundsEnough parts, fun rounds enough => ?_⟩
    obtain ⟨out, done, ends, right⟩ := pcpuGetVmAreas_spec rb ok partsOk mem rounds
    cases out with
    | none => exact absurd rfl (ends enough)
    | some out =>
        obtain ⟨result, s'⟩ := out
        refine ⟨result, s', done, ?_⟩
        obtain ⟨-, holds⟩ := right result s' rfl
        cases result with
        | none => exact holds
        | some areas =>
            obtain ⟨mid, base, settled, good, rfl, placed⟩ := holds
            exact good.congruent partsOk small settled placed

end Congruent

/-- Two units of two pages, four pages apart. -/
theorem two_units_congruent :
    CongruentAreas plain [⟨0, 8192⟩, ⟨16384, 8192⟩] 4096 ↔ 4096 ≤ 2 ^ 48 :=
  congruent_areas_iff plain ⟨by decide, by decide, by decide, by decide⟩ (by decide)

/-- One unit of 512 TiB is put below `VMALLOC_START`. -/
theorem half_pebibyte_below_start :
    (∃ s', pcpuGetVmAreas plain initialVmap [⟨0, 2 ^ 49⟩] (2 ^ 49) true 1 =
        .ok (some (some [⟨2 ^ 64 - 2 ^ 50, 2 ^ 64 - 2 ^ 49⟩], s'))) ∧
      2 ^ 64 - 2 ^ 49 ≤ vmallocStart ∧ ¬CongruentAreas plain [⟨0, 2 ^ 49⟩] (2 ^ 49) := by
  refine ⟨⟨_, rfl⟩, by decide, fun congruent => ?_⟩
  obtain ⟨enough, all⟩ := congruent initialVmap true initialVmap_ok
  obtain ⟨result, s', done, holds⟩ := all enough le_rfl
  have placed : ∃ s'', pcpuGetVmAreas plain initialVmap [⟨0, 2 ^ 49⟩] (2 ^ 49) true enough =
      .ok (some (some [⟨2 ^ 64 - 2 ^ 50, 2 ^ 64 - 2 ^ 49⟩], s'')) := ⟨_, rfl⟩
  obtain ⟨s'', placed⟩ := placed
  obtain ⟨rfl, rfl⟩ := Prod.mk.inj (Option.some.inj (Except.ok.inj (done.symm.trans placed)))
  have within := (holds.range _ List.mem_cons_self).1
  revert within
  decide

end Miracle.Vmalloc
