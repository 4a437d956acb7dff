import Miracle.Vmalloc.FailurePaths

/-! # Whole runs with the areas' memory

A run starts after `vmalloc_init` and allocates, maps and frees in any order, also at wrong
addresses.  A run that ends in a fault ends there.
-/

namespace Miracle.Vmalloc

namespace Kernel

/-! ## The other operations -/

/-- After `vmalloc_init`: the early areas have their own `vm_struct`s, which were never
    allocated. -/
def boot (vmlist : List VmapArea) (flags : VmapArea → VmFlags) (vmap : Vmap) : Kernel where
  vmap := vmap
  vm va := if va ∈ vmlist then some (vmlist.idxOf va) else none
  structs n :=
    let va := vmlist.getD n ⟨0, 0⟩
    { addr := va.vaStart, size := va.vaEnd - va.vaStart, noGuard := (flags va).noGuard, nrPages := 0, pages := .null, slots := [] }
  held := ∅
  next := vmlist.length

/-- `vmap` of so many pages. -/
def mapArray (m : Machine) (depth : Nat) (k : Kernel) (count : Nat) (flags : VmFlags) (a : Attempt) :
    Except Fault (Option Nat × Kernel) :=
  if m.totalram < count then .ok (none, k)
  else do
    let (area, k) ← getVmAreaNode m k (u64 (count * pageSize)) 1 flags vmallocStart vmallocEnd a
    match area with
    | none => .ok (none, k)
    | some area =>
      if a.mapping then .ok (some (k.structs area).addr, k)
      else do
        let (_, k) ← vunmap m depth k (k.structs area).addr
        .ok (none, k)

/-- `free_vm_area`. -/
def freeVmArea (m : Machine) (k : Kernel) (area : Nat) : Except Fault Kernel := do
  let (ret, k) ← k.removeVmArea m (k.structs area).addr
  if ret = some area then k.give area else .error (.bug .badFree)

/-- A new `vm_struct` for each of the areas. -/
def adopt : List VmapArea → Kernel → List Nat × Kernel
  | [], k => ([], k)
  | va :: rest, k =>
    let (area, k) := k.take
    let (areas, k) := adopt rest { k with
      vm := Function.update k.vm va (some area)
      structs := Function.update k.structs area
        { addr := va.vaStart, size := va.vaEnd - va.vaStart, noGuard := false, nrPages := 0, pages := .null, slots := [] } }
    (area :: areas, k)

/-- The `vms` of `pcpu_get_vm_areas`: an array and the `vm_struct`s in it. -/
structure PcpuAreas where
  array : Nat
  areas : List Nat

/-- `pcpu_get_vm_areas`; what it allocates for itself is given back. -/
def pcpuGet (m : Machine) (k : Kernel) (parts : List Part) (a : Nat) (mem : Bool) (rounds : Nat) :
    Except Fault (Option (Option PcpuAreas × Kernel)) := do
  match ← (pcpuGetVmAreas m.rb k.vmap parts a mem rounds).mapError .bug with
  | none => .ok none
  | some (none, vmap) => .ok (some (none, { k with vmap := vmap }))
  | some (some vas, vmap) =>
    let (array, k) := k.take
    let (areas, k) := adopt vas { k with vmap := vmap }
    .ok (some (some ⟨array, areas⟩, k))

def freeVmAreas (m : Machine) : List Nat → Kernel → Except Fault Kernel
  | [], k => .ok k
  | area :: rest, k => do
    let k ← freeVmArea m k area
    freeVmAreas m rest k

/-- `pcpu_free_vm_areas`. -/
def pcpuFree (m : Machine) (k : Kernel) (vms : PcpuAreas) : Except Fault Kernel := do
  let k ← freeVmAreas m vms.areas k
  k.give vms.array

/-! ## Runs -/

/-- One operation.  An area that is an array is at most the third one behind another. -/
inductive Step (m : Machine) (k : Kernel) : Kernel → Prop
  | getVmArea {k' : Kernel} {size align start stop : Nat} {flags : VmFlags} {a : Attempt} {result : Option Nat}
      (window : Window start align) (done : getVmAreaNode m k size align flags start stop a = .ok (result, k')) : Step m k k'
  | vmalloc {k' : Kernel} {depth size align start stop : Nat} {flags : VmFlags} {env : Nat → Attempt} {result : Option Nat}
      (window : Window start align)
      (done : vmallocNodeRange m (depth + 4) env k size align start stop flags = .ok (result, k')) : Step m k k'
  | vmap {k' : Kernel} {depth count : Nat} {flags : VmFlags} {a : Attempt} {result : Option Nat}
      (done : mapArray m depth k count flags a = .ok (result, k')) : Step m k k'
  | vfree {k' : Kernel} {depth addr : Nat} {report : Report} (done : vfree m depth k addr = .ok (report, k')) : Step m k k'
  | vunmap {k' : Kernel} {depth addr : Nat} {report : Report} (done : vunmap m depth k addr = .ok (report, k')) : Step m k k'
  | removeVmArea {k' : Kernel} {addr : Nat} {area : Option Nat} (done : k.removeVmArea m addr = .ok (area, k')) : Step m k k'
  | freeVmArea {k' : Kernel} {area : Nat} (done : freeVmArea m k area = .ok k') : Step m k k'
  | pcpuGet {k' : Kernel} {parts : List Part} {a rounds : Nat} {mem : Bool} {result : Option PcpuAreas} (word : a < 2 ^ 64)
      (some_parts : parts ≠ []) (sizes : ∀ p ∈ parts, 0 < p.size)
      (done : pcpuGet m k parts a mem rounds = .ok (some (result, k'))) : Step m k k'
  | pcpuFree {k' : Kernel} {vms : PcpuAreas} (done : pcpuFree m k vms = .ok k') : Step m k k'

/-- Early areas are of whole pages, as their one caller asserts. -/
inductive Reachable (m : Machine) : Kernel → Prop
  | boot {early : Early} {flags : VmapArea → VmFlags} {vmap : Vmap} (run : EarlyRun early)
      (whole : ∀ va ∈ early.vmlist, pageSize ∣ va.vaStart ∧ pageSize ∣ va.vaEnd) (done : vmallocInit m.rb early = .ok vmap) :
      Reachable m (boot early.vmlist flags vmap)
  | step {k k' : Kernel} (run : Reachable m k) (step : Step m k k') : Reachable m k'

end Kernel

/-! ## Every step keeps the areas sound -/

section Sound

variable {m : Machine} {k k' : Kernel}

theorem boot_sound {rb : Rebalancing} {early : Early} {s : Vmap} (flags : VmapArea → VmFlags) (run : EarlyRun early)
    (whole : ∀ va ∈ early.vmlist, pageSize ∣ va.vaStart ∧ pageSize ∣ va.vaEnd) (done : vmallocInit rb early = .ok s) :
    Sound (Kernel.boot early.vmlist flags s) := by
  obtain ⟨s', done', ok, imported⟩ := vmallocInit_spec rb run.ok
  obtain rfl := Except.ok.inj (done'.symm.trans done)
  have members (va : VmapArea) : va ∈ s'.areaList ↔ va ∈ early.vmlist := by
    rw [imported.members]
    simp [emptyVmap]
  have flag (va : VmapArea) : s'.vmFlag va = decide (va ∈ early.vmlist) := by
    rw [imported.vmFlag]
    simp [emptyVmap]
  refine ⟨⟨ok, fun va => ?_, fun va mem unset => ?_⟩, nofun, fun va mem => whole va ((members va).mp mem)⟩
  · change (if va ∈ early.vmlist then some (early.vmlist.idxOf va) else none).isSome = true ↔ va ∈ s'.areaList ∧ s'.vmFlag va = true
    rw [members, flag]
    split <;> simp_all
  · change s'.vmFlag va = false at unset
    rw [flag, decide_eq_false_iff_not] at unset
    exact absurd ((members va).mp mem) unset

theorem give_sound {ref : Nat} (sound : Sound k) (done : k.give ref = .ok k') : Sound k' := by
  unfold Kernel.give at done
  split at done
  · obtain rfl := Except.ok.inj done
    exact sound.shrink (Finset.erase_subset ref k.held)
  · exact absurd done nofun

theorem removeVmArea_sound {addr : Nat} {area : Option Nat} (sound : Sound k) (done : k.removeVmArea m addr = .ok (area, k')) :
    Sound k' := by
  cases found : findVmapArea addr k.vmap.root with
  | none =>
      simp only [Kernel.removeVmArea, found] at done
      obtain ⟨-, rfl⟩ := Prod.mk.inj (Except.ok.inj done)
      exact sound
  | some va =>
      obtain ⟨mem, lower, upper⟩ := sound.areas.find_iff.mp found
      cases flag : k.vmap.vmFlag va with
      | false =>
          simp only [Kernel.removeVmArea, found, flag, Bool.false_eq_true, if_false] at done
          obtain ⟨-, rfl⟩ := Prod.mk.inj (Except.ok.inj done)
          exact sound
      | true =>
          obtain ⟨ref, points⟩ := Option.isSome_iff_exists.mp ((sound.live va).mpr ⟨mem, flag⟩)
          obtain ⟨s, removed, linked, fewer, -⟩ := sound.toLinked.removeVmArea m points lower upper
          obtain ⟨-, rfl⟩ := Prod.mk.inj (Except.ok.inj (removed.symm.trans done))
          exact sound.removed linked fewer

theorem freePages_sound {n : Nat} {slots : List Nat} (sound : Sound k) (done : freePages n slots k = .ok k') : Sound k' := by
  induction n generalizing slots k with
  | zero =>
      obtain rfl := Except.ok.inj done
      exact sound
  | succ n ih =>
      cases slots with
      | nil => exact absurd done nofun
      | cons page rest =>
          obtain ⟨k1, given, rest⟩ := bind_eq_ok done
          exact ih (give_sound sound given) rest

theorem kvfree_sound {free : Kernel → Nat → Except Fault (Report × Kernel)} {pages : PageArray} (sound : Sound k)
    (frees : ∀ k addr report k', Sound k → free k addr = .ok (report, k') → Sound k') (done : kvfree free k pages = .ok k') :
    Sound k' := by
  cases pages with
  | null =>
      obtain rfl := Except.ok.inj done
      exact sound
  | zeroSize =>
      obtain rfl := Except.ok.inj done
      exact sound
  | object ref => exact give_sound sound done
  | area addr =>
      rw [kvfree] at done
      split at done
      · obtain ⟨⟨report, k1⟩, freed, rest⟩ := bind_eq_ok done
        obtain rfl := Except.ok.inj rest
        exact frees k addr report k1 sound freed
      · cases done

theorem vunmapArea_sound {depth addr : Nat} {deallocatePages : Bool} {report : Report} (sound : Sound k)
    (done : vunmapArea m depth deallocatePages k addr = .ok (report, k')) : Sound k' := by
  induction depth generalizing deallocatePages k addr report k' with
  | zero => cases done
  | succ depth ih =>
      rw [vunmapArea] at done
      split at done
      · obtain ⟨-, rfl⟩ := Prod.mk.inj (Except.ok.inj done)
        exact sound
      · split at done
        · obtain ⟨-, rfl⟩ := Prod.mk.inj (Except.ok.inj done)
          exact sound
        · split at done
          · cases done
          · split at done
            · obtain ⟨-, rfl⟩ := Prod.mk.inj (Except.ok.inj done)
              exact sound
            · obtain ⟨⟨ref, k1⟩, removed, rest⟩ := bind_eq_ok done
              have sound1 := removeVmArea_sound sound removed
              -- with the pages or without, the `vm_struct` is given back last
              cases deallocatePages with
              | true =>
                  obtain ⟨k2, freed, rest⟩ := bind_eq_ok rest
                  obtain ⟨k3, array, rest⟩ := bind_eq_ok rest
                  obtain ⟨k4, given, rest⟩ := bind_eq_ok rest
                  obtain ⟨-, rfl⟩ := Prod.mk.inj (Except.ok.inj rest)
                  have sound3 := kvfree_sound (freePages_sound sound1 freed) (fun _ _ _ _ sound done => ih sound done) array
                  exact give_sound sound3 given
              | false =>
                  obtain ⟨k2, same, rest⟩ := bind_eq_ok rest
                  obtain rfl := Except.ok.inj same
                  obtain ⟨k4, given, rest⟩ := bind_eq_ok rest
                  obtain ⟨-, rfl⟩ := Prod.mk.inj (Except.ok.inj rest)
                  exact give_sound sound1 given

theorem vunmap_sound {depth addr : Nat} {report : Report} (sound : Sound k) (done : vunmap m depth k addr = .ok (report, k')) :
    Sound k' := by
  unfold vunmap at done
  split at done
  · obtain ⟨-, rfl⟩ := Prod.mk.inj (Except.ok.inj done)
    exact sound
  · exact vunmapArea_sound sound done

theorem vfree_sound {depth addr : Nat} {report : Report} (sound : Sound k) (done : vfree m depth k addr = .ok (report, k')) :
    Sound k' := by
  unfold vfree at done
  split at done
  · obtain ⟨-, rfl⟩ := Prod.mk.inj (Except.ok.inj done)
    exact sound
  · exact vunmapArea_sound sound done

theorem getVmAreaNode_sound {size align start stop : Nat} {flags : VmFlags} {a : Attempt} {result : Option Nat} (sound : Sound k)
    (window : Window start align) (done : getVmAreaNode m k size align flags start stop a = .ok (result, k')) : Sound k' := by
  rcases getVmAreaNode_cases sound window done with ⟨-, ext⟩ | ⟨va, area, -, new⟩
  · exact ext.sound
  · exact new.ext.sound

theorem NodeOutcome.sound {depth start stop : Nat} {out : Except Fault (Option Nat × Kernel)} {result : Option Nat}
    (outcome : NodeOutcome depth start stop k out) (done : out = .ok (result, k')) : Sound k' := by
  rcases outcome with ⟨b, rfl⟩ | ⟨k1, rfl, ext⟩ | ⟨addr, k1, vas, refs, rfl, ext, -⟩
  · exact absurd done nofun
  · obtain ⟨-, rfl⟩ := Prod.mk.inj (Except.ok.inj done)
    exact ext.sound
  · obtain ⟨-, rfl⟩ := Prod.mk.inj (Except.ok.inj done)
    exact ext.sound

theorem vmallocNodeRange_sound {depth size align start stop : Nat} {flags : VmFlags} {env : Nat → Attempt} {result : Option Nat}
    (sound : Sound k) (window : Window start align)
    (done : vmallocNodeRange m (depth + 4) env k size align start stop flags = .ok (result, k')) : Sound k' := by
  have step : NodeOutcome (depth + 4) start stop k (vmallocNodeRange m (depth + 4) env k size align start stop flags) ∨ _ :=
    vmallocNodeRange_step (depth + 3) env sound window fun _ k1 sound1 => vmallocNodeRange_array depth _ _ sound1
  rcases step with outcome | ⟨-, overrun⟩
  · exact outcome.sound done
  · exact absurd (overrun.symm.trans done) nofun

theorem mapArray_sound {depth count : Nat} {flags : VmFlags} {a : Attempt} {result : Option Nat} (sound : Sound k)
    (done : Kernel.mapArray m depth k count flags a = .ok (result, k')) : Sound k' := by
  unfold Kernel.mapArray at done
  split at done
  · obtain ⟨-, rfl⟩ := Prod.mk.inj (Except.ok.inj done)
    exact sound
  · obtain ⟨⟨area, k1⟩, got, rest⟩ := bind_eq_ok done
    have sound1 := getVmAreaNode_sound sound window_one got
    cases area with
    | none =>
        obtain ⟨-, rfl⟩ := Prod.mk.inj (Except.ok.inj rest)
        exact sound1
    | some area =>
        simp only at rest
        split at rest
        · obtain ⟨-, rfl⟩ := Prod.mk.inj (Except.ok.inj rest)
          exact sound1
        · obtain ⟨⟨report, k2⟩, unmapped, rest⟩ := bind_eq_ok rest
          obtain ⟨-, rfl⟩ := Prod.mk.inj (Except.ok.inj rest)
          exact vunmap_sound sound1 unmapped

theorem freeVmArea_sound {area : Nat} (sound : Sound k) (done : Kernel.freeVmArea m k area = .ok k') : Sound k' := by
  obtain ⟨⟨ret, k1⟩, removed, rest⟩ := bind_eq_ok done
  simp only at rest
  split at rest
  · exact give_sound (removeVmArea_sound sound removed) rest
  · exact absurd rest nofun

theorem freeVmAreas_sound {areas : List Nat} (sound : Sound k) (done : Kernel.freeVmAreas m areas k = .ok k') : Sound k' := by
  induction areas generalizing k with
  | nil =>
      obtain rfl := Except.ok.inj done
      exact sound
  | cons area rest ih =>
      obtain ⟨k1, first, later⟩ := bind_eq_ok done
      exact ih (freeVmArea_sound sound first) later

theorem pcpuFree_sound {vms : Kernel.PcpuAreas} (sound : Sound k) (done : Kernel.pcpuFree m k vms = .ok k') : Sound k' := by
  obtain ⟨k1, freed, given⟩ := bind_eq_ok done
  exact give_sound (freeVmAreas_sound sound freed) given

/-- The areas get `vm_struct`s, and nothing else changes. -/
theorem adopt_spec (vas : List VmapArea) (fresh : ∀ ref ∈ k.held, ref < k.next) :
    (Kernel.adopt vas k).2.vmap = k.vmap ∧
      (∀ va, ((Kernel.adopt vas k).2.vm va).isSome = (decide (va ∈ vas) || (k.vm va).isSome)) ∧
      ∀ ref ∈ (Kernel.adopt vas k).2.held, ref < (Kernel.adopt vas k).2.next := by
  induction vas generalizing k with
  | nil => exact ⟨rfl, fun va => by simp [Kernel.adopt], fresh⟩
  | cons va rest ih =>
      rw [Kernel.adopt]
      obtain ⟨vmap, vm, fresh'⟩ := ih (k := { k.take.2 with
        vm := Function.update k.take.2.vm va (some k.take.1)
        structs := Function.update k.take.2.structs k.take.1
          { addr := va.vaStart, size := va.vaEnd - va.vaStart, noGuard := false, nrPages := 0, pages := .null, slots := [] } })
        (fun ref mem => by
          rcases Finset.mem_insert.mp mem with rfl | old
          · exact Nat.lt_succ_self _
          · exact (fresh ref old).trans (Nat.lt_succ_self _))
      refine ⟨vmap, fun tmp => ?_, fresh'⟩
      refine (vm tmp).trans ?_
      by_cases same : tmp = va
      · simp [same]
      · simp [same, Kernel.take]

/-- The parts of an area set are whole pages, as the base and the alignment are. -/
theorem PartsOk.whole {parts : List Part} {a base : Nat} (partsOk : PartsOk parts a) (aligned : a ∣ base) {p : Part}
    (mem : p ∈ parts) : pageSize ∣ (p.area base).vaStart ∧ pageSize ∣ (p.area base).vaEnd := by
  have valid := partsOk.valid
  simp only [partsValid, Bool.and_eq_true, decide_eq_true_eq] at valid
  have page : pageSize ∣ a := Nat.dvd_of_mod_eq_zero valid.1.1.1
  obtain ⟨offset, stop⟩ := partsOk.units mem
  exact ⟨page.trans (Nat.dvd_add aligned offset), page.trans (Nat.dvd_add aligned stop)⟩

theorem pcpuGet_sound {parts : List Part} {a rounds : Nat} {mem : Bool} {result : Option Kernel.PcpuAreas} (sound : Sound k)
    (word : a < 2 ^ 64) (some_parts : parts ≠ []) (sizes : ∀ p ∈ parts, 0 < p.size)
    (done : Kernel.pcpuGet m k parts a mem rounds = .ok (some (result, k'))) : Sound k' := by
  cases valid : partsValid parts a with
  | false =>
      rw [Kernel.pcpuGet, pcpuGetVmAreas, if_pos valid] at done
      cases done
  | true =>
      have partsOk : PartsOk parts a := ⟨some_parts, sizes, valid, word⟩
      obtain ⟨out, got, -, right⟩ := pcpuGetVmAreas_spec m.rb sound.areas partsOk mem rounds
      simp only [Kernel.pcpuGet, got, Except.mapError, ok_bind] at done
      rcases out with _ | ⟨_ | vas, s⟩
      · cases done
      · obtain ⟨ok, settled⟩ := right none s rfl
        obtain ⟨-, rfl⟩ := Prod.mk.inj (Option.some.inj (Except.ok.inj done))
        exact { sound.toLinked.settled ok settled with
          fresh := sound.fresh
          whole := fun va mem => sound.whole va (settled.fewer va mem) }
      · obtain ⟨ok, mid, base, settled, good, rfl, placed⟩ := right (some vas) s rfl
        obtain ⟨-, rfl⟩ := Prod.mk.inj (Option.some.inj (Except.ok.inj done))
        obtain ⟨vmap, vm, fresh⟩ := adopt_spec (k := { k.take.2 with vmap := s }) (parts.map (Part.area base)) sound.take.sound.fresh
        have isNew : ∀ va ∈ parts.map (Part.area base), pageSize ∣ va.vaStart ∧ pageSize ∣ va.vaEnd := by
          intro va mem
          obtain ⟨p, memP, rfl⟩ := List.mem_map.mp mem
          exact partsOk.whole good.aligned memP
        refine { areas := vmap ▸ ok, live := fun va => ?_, waiting := fun va mem flag => ?_, fresh := fresh, whole := fun va mem => ?_ }
        · rw [vm, vmap]
          simp only [placed.members, placed.vmFlag]
          by_cases new : va ∈ parts.map (Part.area base)
          · simp [new]
          · simpa [new, Kernel.take] using sound.toLinked.settled_live settled va
        · rw [vmap] at mem flag ⊢
          simp only [placed.vmFlag, Bool.or_eq_false_iff, decide_eq_false_iff_not] at flag
          simp only [placed.purgeList]
          exact sound.toLinked.settled_waiting settled (((placed.members va).mp mem).resolve_left flag.1) flag.2
        · rw [vmap] at mem
          rcases (placed.members va).mp mem with new | old
          · exact isNew va new
          · exact sound.whole va (settled.fewer va old)

theorem Kernel.Step.sound (sound : Sound k) (step : Kernel.Step m k k') : Sound k' := by
  cases step with
  | getVmArea window done => exact getVmAreaNode_sound sound window done
  | vmalloc window done => exact vmallocNodeRange_sound sound window done
  | vmap done => exact mapArray_sound sound done
  | vfree done => exact vfree_sound sound done
  | vunmap done => exact vunmap_sound sound done
  | removeVmArea done => exact removeVmArea_sound sound done
  | freeVmArea done => exact freeVmArea_sound sound done
  | pcpuGet word some_parts sizes done => exact pcpuGet_sound sound word some_parts sizes done
  | pcpuFree done => exact pcpuFree_sound sound done

/-- In every reachable state the areas and what is held are sound. -/
theorem Kernel.Reachable.sound (reach : Kernel.Reachable m k) : Sound k := by
  induction reach with
  | boot run whole done => exact boot_sound _ run whole done
  | step run step ih => exact step.sound ih

end Sound

end Miracle.Vmalloc
