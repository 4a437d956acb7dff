import Miracle.Vmalloc.Runs

/-! # Frees at wrong addresses

`find_vmap_area` finds any area that an address is in.  `__vunmap` takes the `vm_struct` of
what it finds, whether it found an area or not, and whether the area begins there or not.
-/

namespace Miracle.Vmalloc

section BadAddress

variable {m : Machine} {k : Kernel} {addr : Nat}

/-- An area in use begins at the address. -/
def StartsArea (k : Kernel) (addr : Nat) : Prop := ∃ va ∈ k.vmap.areaList, k.vm va ≠ none ∧ va.vaStart = addr

/-- The address is in an area that was removed and waits to be purged. -/
def InRemoved (k : Kernel) (addr : Nat) : Prop := ∃ va ∈ k.vmap.areaList, k.vm va = none ∧ va.vaStart ≤ addr ∧ addr < va.vaEnd

/-- The address is refused: `vfree` and `vunmap` warn, `remove_vm_area` gives `NULL`, and
    nothing changes. -/
structure Refused (m : Machine) (depth : Nat) (k : Kernel) (addr : Nat) : Prop where
  vfree : vfree m (depth + 1) k addr = .ok (.warned, k)
  vunmap : vunmap m (depth + 1) k addr = .ok (.warned, k)
  removeVmArea : k.removeVmArea m addr = .ok (none, k)

/-! ## The three ways a lookup can go -/

theorem unmapped_crashes (page : pageSize ∣ addr) (nonzero : addr ≠ 0) (found : findVmapArea addr k.vmap.root = none)
    (depth : Nat) : vfree m (depth + 1) k addr = .error .nullArea := by
  have aligned := Nat.mod_eq_zero_of_dvd page
  simp only [vfree, vunmapArea, nonzero, aligned, found, if_false, ne_eq, not_true_eq_false]

theorem refused_removed (linked : Linked k) (page : pageSize ∣ addr) (nonzero : addr ≠ 0) {va : VmapArea}
    (found : findVmapArea addr k.vmap.root = some va) (none : k.vm va = none) (depth : Nat) : Refused m depth k addr := by
  have aligned := Nat.mod_eq_zero_of_dvd page
  have mem := (linked.areas.find_iff.mp found).1
  have flag : k.vmap.vmFlag va = false := by
    by_contra set
    have some := (linked.live va).mpr ⟨mem, Bool.eq_true_of_not_eq_false set⟩
    rw [none] at some
    exact absurd some Bool.false_ne_true
  constructor
  · simp only [vfree, vunmapArea, nonzero, aligned, found, none, if_false, ne_eq, not_true_eq_false]
  · simp only [vunmap, vunmapArea, nonzero, aligned, found, none, if_false, ne_eq, not_true_eq_false]
  · simp only [Kernel.removeVmArea, found, flag, Bool.false_eq_true, if_false]

/-- The area is removed, wherever in it the address is. -/
theorem live_removed (linked : Linked k) {va : VmapArea} {area : Nat} (found : findVmapArea addr k.vmap.root = some va)
    (points : k.vm va = some area) : ∃ k', k.removeVmArea m addr = .ok (some area, k') ∧ k'.vm va = none := by
  obtain ⟨-, lower, upper⟩ := linked.areas.find_iff.mp found
  obtain ⟨s, removed, -⟩ := linked.removeVmArea m points lower upper
  exact ⟨_, removed, Function.update_self va none k.vm⟩

/-- Of all addresses those are refused where an area that was removed is not yet purged. -/
theorem address_refused_iff (reach : Kernel.Reachable m k) (depth : Nat) (page : pageSize ∣ addr) (nonzero : addr ≠ 0) :
    Refused m depth k addr ↔ InRemoved k addr := by
  have linked := reach.sound.toLinked
  constructor
  · intro refused
    cases found : findVmapArea addr k.vmap.root with
    | none =>
        have crashed := unmapped_crashes (m := m) page nonzero found depth
        exact absurd (crashed.symm.trans refused.vfree) nofun
    | some va =>
        cases points : k.vm va with
        | none =>
            obtain ⟨mem, lower, upper⟩ := linked.areas.find_iff.mp found
            exact ⟨va, mem, points, lower, upper⟩
        | some area =>
            obtain ⟨k', removed, -⟩ := live_removed (m := m) linked found points
            exact absurd (removed.symm.trans refused.removeVmArea) (by simp)
  · rintro ⟨va, mem, none, lower, upper⟩
    exact refused_removed linked page nonzero (linked.areas.find_iff.mpr ⟨mem, lower, upper⟩) none depth

end BadAddress

/-! ## A machine with nothing mapped -/

/-- Two tebibytes of memory. -/
def plainMachine : Machine where
  rb := plain
  lazyMax := 8192
  totalram := 2 ^ 29
  ksize := classKsize
  room := classKsize_room

/-- No early areas. -/
def initialKernel : Kernel := .boot [] (fun _ => ⟨false, false⟩) initialVmap

theorem initialKernel_reachable : Kernel.Reachable plainMachine initialKernel :=
  .boot .start nofun (vmallocInit_none plain)

theorem initial_address_refused_iff : Refused plainMachine 3 initialKernel vmallocStart ↔ InRemoved initialKernel vmallocStart :=
  address_refused_iff initialKernel_reachable 3 (by decide) (by decide)

/-- An address where nothing was ever mapped is no area's start, and `vfree` of it is a
    crash. -/
theorem unmapped_not_refused :
    Kernel.Reachable plainMachine initialKernel ∧ pageSize ∣ vmallocStart ∧ vmallocStart ≠ 0 ∧
      ¬StartsArea initialKernel vmallocStart ∧ vfree plainMachine 4 initialKernel vmallocStart = .error .nullArea ∧
      ¬Refused plainMachine 3 initialKernel vmallocStart := by
  have crashed : vfree plainMachine 4 initialKernel vmallocStart = .error .nullArea :=
    unmapped_crashes (by decide) (by decide) rfl 3
  refine ⟨initialKernel_reachable, by decide, by decide, ?_, crashed, fun refused => ?_⟩
  · rintro ⟨va, mem, -⟩
    exact absurd mem List.not_mem_nil
  · exact absurd (crashed.symm.trans refused.vfree) nofun

/-! ## A failed allocation leaves nothing behind

`__vmalloc_node_range` can fail for want of a `vm_struct`, of an address range, of an array, of
a page or of a mapping.
-/

structure Request where
  size : Nat
  align : Nat
  start : Nat
  stop : Nat
  flags : VmFlags

inductive Point where
  | vmStruct
  | vmapArea
  | array
  | page (i : Nat)
  | mapping
deriving DecidableEq, Repr

section Atomic

variable {m : Machine} {k : Kernel} {depth : Nat} {env : Nat → Attempt} {r : Request} {p : Point}

def Request.bytes (r : Request) : Nat := pageAlign r.size

/-- `__vmalloc_node` for the array. -/
def nestedNode (m : Machine) (depth : Nat) (env : Nat → Attempt) (size : Nat) (k : Kernel) : Except Fault (Option Nat × Kernel) :=
  vmallocNodeRange m depth (fun n => env (n + 1)) k size 1 vmallocStart vmallocEnd ⟨false, false⟩

/-- The area was had, in state `k1`. -/
def AreaGiven (m : Machine) (env : Nat → Attempt) (k : Kernel) (r : Request) (area : Nat) (k1 : Kernel) : Prop :=
  getVmAreaNode m k r.bytes r.align r.flags r.start r.stop (env 0) = .ok (some area, k1)

/-- What came of the array, which is asked for when the pages are counted. -/
def ArrayAsked (m : Machine) (depth : Nat) (env : Nat → Attempt) (r : Request) (area : Nat) (k1 : Kernel) (pages : PageArray)
    (k3 : Kernel) : Prop :=
  allocArray (env 0) (nestedNode m depth env) r.bytes (counted k1 area r.bytes) = .ok (pages, k3)

/-- All went well up to a point, and there it failed. -/
inductive FailsAt (m : Machine) (depth : Nat) (env : Nat → Attempt) (k : Kernel) (r : Request) : Point → Prop
  | vmStruct (legal : admitted m.totalram r.size = true) (fails : (env 0).vmStruct = false) : FailsAt m depth env k r .vmStruct
  | vmapArea {k1 : Kernel} (legal : admitted m.totalram r.size = true) (given : (env 0).vmStruct = true)
      (fails : getVmAreaNode m k r.bytes r.align r.flags r.start r.stop (env 0) = .ok (none, k1)) :
      FailsAt m depth env k r .vmapArea
  | array {area : Nat} {k1 k3 : Kernel} (legal : admitted m.totalram r.size = true) (given : AreaGiven m env k r area k1)
      (fails : ArrayAsked m depth env r area k1 .null k3) : FailsAt m depth env k r .array
  | page {area i : Nat} {k1 k3 : Kernel} {pages : PageArray} (legal : admitted m.totalram r.size = true)
      (given : AreaGiven m env k r area k1) (array : ArrayAsked m depth env r area k1 pages k3) (some : pages ≠ .null)
      (inside : i < pageCount r.bytes) (before : ∀ j, j < i → (env 0).pages j = true) (fails : (env 0).pages i = false) :
      FailsAt m depth env k r (.page i)
  | mapping {area : Nat} {k1 k3 : Kernel} {pages : PageArray} (legal : admitted m.totalram r.size = true)
      (given : AreaGiven m env k r area k1) (array : ArrayAsked m depth env r area k1 pages k3) (some : pages ≠ .null)
      (before : ∀ j, j < pageCount r.bytes → (env 0).pages j = true) (fails : (env 0).mapping = false) :
      FailsAt m depth env k r .mapping

/-- The pages that were had before the failure. -/
def Point.pages (r : Request) : Point → Nat
  | .page i => i
  | .mapping => pageCount r.bytes
  | _ => 0

/-- The array has room for them. -/
def Point.Fits (m : Machine) (r : Request) (p : Point) : Prop := 8 * p.pages r ≤ arrayRoom m.ksize r.bytes

/-- Nothing is left: the same memory is held, the same areas are in use as they were, and every
    other area of the set waits to be purged. -/
structure Restored (k k' : Kernel) : Prop where
  held : k'.held = k.held
  vm : k'.vm = k.vm
  structs : ∀ ref ∈ k.held, k'.structs ref = k.structs ref
  live : ∀ va, k.vm va ≠ none → va ∈ k'.vmap.areaList
  waiting : ∀ va ∈ k'.vmap.areaList, k.vm va = none → va ∈ k'.vmap.purgeList

theorem Extends.restored {k' : Kernel} (sound : Sound k) (ext : Extends k k' [] ∅) : Restored k k' := by
  have vm : k'.vm = k.vm := by
    funext va
    exact ext.vm va List.not_mem_nil
  refine ⟨by rw [ext.held, Finset.union_empty], vm, fun ref mem => ext.structs ref (sound.fresh ref mem), fun va used => ?_,
    fun va mem none => ?_⟩
  · rw [← vm] at used
    exact ((ext.sound.live va).mp (Option.isSome_iff_ne_none.mpr used)).1
  · rw [← vm] at none
    exact ext.sound.toLinked.waits mem none

/-- The allocation gives `NULL`, and nothing is left of it. -/
def FailsCleanly (m : Machine) (depth : Nat) (env : Nat → Attempt) (k : Kernel) (r : Request) : Prop :=
  ∃ k', vmallocNodeRange m depth env k r.size r.align r.start r.stop r.flags = .ok (none, k') ∧ Restored k k'

/-! ## Before the pages -/

theorem vmallocNodeRange_none (legal : admitted m.totalram r.size = true) {k1 : Kernel}
    (fails : getVmAreaNode m k r.bytes r.align r.flags r.start r.stop (env 0) = .ok (none, k1)) :
    vmallocNodeRange m (depth + 1) env k r.size r.align r.start r.stop r.flags = .ok (none, k1) := by
  unfold Request.bytes at fails
  rw [vmallocNodeRange, if_neg (by rw [legal]; decide), fails, ok_bind]

theorem vmallocNodeRange_some (legal : admitted m.totalram r.size = true) {area : Nat} {k1 : Kernel}
    (given : AreaGiven m env k r area k1) :
    vmallocNodeRange m (depth + 1) env k r.size r.align r.start r.stop r.flags =
      vmallocAreaNode m (depth + 1) (env 0) (nestedNode m depth env) k1 area := by
  unfold AreaGiven Request.bytes at given
  rw [vmallocNodeRange, if_neg (by rw [legal]; decide), given, ok_bind]
  rfl

theorem getVmAreaNode_noStruct {size align start stop : Nat} {flags : VmFlags} {a : Attempt} (fails : a.vmStruct = false) :
    getVmAreaNode m k size align flags start stop a = .ok (none, k) := by
  unfold getVmAreaNode
  simp only [fails, if_true]
  split <;> rfl

theorem area_fails_cleanly (sound : Sound k) (window : Window r.start r.align) (legal : admitted m.totalram r.size = true)
    {k1 : Kernel} (fails : getVmAreaNode m k r.bytes r.align r.flags r.start r.stop (env 0) = .ok (none, k1)) :
    FailsCleanly m (depth + 1) env k r := by
  rcases getVmAreaNode_cases sound window fails with ⟨-, ext⟩ | ⟨va, area, some, -⟩
  · exact ⟨k1, vmallocNodeRange_none legal fails, ext.restored sound⟩
  · exact absurd some nofun

/-- What came of the array. -/
theorem arrayAsked_cases (sound : Sound k) (window : Window r.start r.align) {area : Nat} {k1 k3 : Kernel} {pages : PageArray}
    (given : AreaGiven m env k r area k1) (asked : ArrayAsked m (depth + 3) env r area k1 pages k3) :
    ∃ va, NewArea k k1 va area r.bytes r.start r.stop r.flags.noGuard ∧ (k1.structs area).areaSize = r.bytes ∧
      ((pages = .null ∧ Extends (counted k1 area r.bytes) k3 [] ∅) ∨
        ∃ vas owned, pages ≠ .null ∧ vas.length ≤ depth + 3 ∧ Extends (counted k1 area r.bytes) k3 vas owned ∧
          ArrayOwned k3 vas owned pages) := by
  obtain ⟨va, new, size⟩ := getVmAreaNode_new sound window given
  refine ⟨va, new, size, ?_⟩
  have countedSound : Sound (counted k1 area r.bytes) := new.counted.sound
  rcases allocArray_cases (env 0) (nestedNode m (depth + 3) env) countedSound
      (fun _ => vmallocNodeRange_array depth (fun n => env (n + 1)) r.bytes countedSound) with
    ⟨b, failed⟩ | ⟨k4, refused, ext⟩ | ⟨pages', k4, vas, owned, done, some, ext, isOwned, deep⟩
  · exact absurd (failed.symm.trans asked) nofun
  · obtain ⟨rfl, rfl⟩ := Prod.mk.inj (Except.ok.inj (refused.symm.trans asked))
    exact .inl ⟨rfl, ext⟩
  · obtain ⟨rfl, rfl⟩ := Prod.mk.inj (Except.ok.inj (done.symm.trans asked))
    exact .inr ⟨vas, owned, some, deep, ext, isOwned⟩

theorem array_fails_cleanly (sound : Sound k) (window : Window r.start r.align) (legal : admitted m.totalram r.size = true)
    {area : Nat} {k1 k3 : Kernel} (given : AreaGiven m env k r area k1)
    (fails : ArrayAsked m (depth + 3) env r area k1 .null k3) : FailsCleanly m (depth + 4) env k r := by
  obtain ⟨va, new, size, ⟨-, ext⟩ | ⟨vas, owned, some, -⟩⟩ := arrayAsked_cases sound window given fails
  · obtain ⟨k5, done, ext'⟩ := vmallocAreaNode_refused m (depth + 4) sound new size fails ext
    exact ⟨k5, (vmallocNodeRange_some legal given).trans done, ext'.restored sound⟩
  · exact absurd rfl some

/-! ## The pages -/

/-- With an array the rest of the allocation is up to `mapPages`. -/
theorem pages_asked (sound : Sound k) (window : Window r.start r.align) (legal : admitted m.totalram r.size = true)
    {area : Nat} {k1 k3 : Kernel} {pages : PageArray} (given : AreaGiven m env k r area k1)
    (array : ArrayAsked m (depth + 3) env r area k1 pages k3) (some : pages ≠ .null) :
    ∃ va vas owned k4, vas.length + 1 ≤ depth + 4 ∧ Ready k k4 va area vas owned pages [] ∧
      (k4.structs area).nrPages = pageCount r.bytes ∧
      vmallocNodeRange m (depth + 4) env k r.size r.align r.start r.stop r.flags = mapPages m (depth + 4) (env 0) r.bytes area k4 := by
  obtain ⟨va, new, size, ⟨null, -⟩ | ⟨vas, owned, -, deep, ext, isOwned⟩⟩ := arrayAsked_cases sound window given array
  · exact absurd null some
  · obtain ⟨ready, count⟩ := new.ready ext isOwned
    exact ⟨va, vas, owned, _, Nat.succ_le_succ deep, ready, count,
      (vmallocNodeRange_some legal given).trans (vmallocAreaNode_eq size array some)⟩

/-- A failed allocation is undone, exactly where the pages it got have room in the array. -/
theorem vmalloc_fails_cleanly_iff (reach : Kernel.Reachable m k) (window : Window r.start r.align)
    (fails : FailsAt m (depth + 3) env k r p) : FailsCleanly m (depth + 4) env k r ↔ p.Fits m r := by
  have sound := reach.sound
  cases fails with
  | vmStruct legal fails =>
      exact iff_of_true (area_fails_cleanly sound window legal (getVmAreaNode_noStruct fails)) (Nat.zero_le _)
  | vmapArea legal given fails =>
      exact iff_of_true (area_fails_cleanly sound window legal fails) (Nat.zero_le _)
  | array legal given fails =>
      exact iff_of_true (array_fails_cleanly sound window legal given fails) (Nat.zero_le _)
  | @page area i k1 k3 pages legal given array some inside before fails =>
      obtain ⟨va, vas, owned, k4, deep, ready, -, same⟩ := pages_asked sound window legal given array some
      constructor
      · rintro ⟨k', done, -⟩
        by_contra beyond
        have overrun : mapPages m (depth + 4) (env 0) r.bytes area k4 = .error .overrun :=
          mapPages_overrun before inside.le (not_le.mp beyond)
        exact absurd ((same.trans overrun).symm.trans done) nofun
      · intro fits
        obtain ⟨k', done, ext⟩ := mapPages_page ready sound deep inside before fails fits
        exact ⟨k', same.trans done, ext.restored sound⟩
  | @mapping area k1 k3 pages legal given array some before fails =>
      obtain ⟨va, vas, owned, k4, deep, ready, count, same⟩ := pages_asked sound window legal given array some
      constructor
      · rintro ⟨k', done, -⟩
        by_contra beyond
        have overrun : mapPages m (depth + 4) (env 0) r.bytes area k4 = .error .overrun :=
          mapPages_overrun before le_rfl (not_le.mp beyond)
        exact absurd ((same.trans overrun).symm.trans done) nofun
      · intro fits
        obtain ⟨k', done, ext⟩ := mapPages_mapping ready sound deep before fails fits count
        exact ⟨k', same.trans done, ext.restored sound⟩

end Atomic

/-! ## A second page that is missing -/

def secondMissing : Attempt where
  vmStruct := true
  vmapArea := true
  array := true
  pages i := decide (i < 1)
  mapping := true

/-- A `vmalloc` of so many bytes. -/
def anywhere (size : Nat) : Request := ⟨size, 1, vmallocStart, vmallocEnd, ⟨false, false⟩⟩

/-- Where nothing is mapped there is an area. -/
theorem initial_given {size bytes : Nat} {a : Attempt} {s : Vmap} (given : a.vmStruct = true ∧ a.vmapArea = true)
    (isBytes : pageAlign (pageAlign size) = bytes) (positive : 0 < bytes) (small : bytes < 2 ^ 63)
    (done : allocVmapArea plain initialVmap (bytes + pageSize) 1 vmallocStart vmallocEnd true =
      .ok (.ok ⟨vmallocStart, vmallocStart + (bytes + pageSize)⟩, s)) :
    ∃ k1, AreaGiven plainMachine (fun _ => a) initialKernel (anywhere size) 0 k1 := by
  have nonzero : pageAlign (pageAlign size) ≠ 0 := by omega
  have placed : allocVmapArea plain initialVmap (u64 (pageAlign (pageAlign size) + pageSize)) 1 vmallocStart vmallocEnd a.vmapArea =
      .ok (.ok ⟨vmallocStart, vmallocStart + (bytes + pageSize)⟩, s) := by
    rw [isBytes, given.2, u64_of_lt (by unfold pageSize; omega)]
    exact done
  exact ⟨_, getVmAreaNode_given nonzero given.1 placed⟩

/-- Two pages are asked for: the one that was had goes back. -/
theorem two_pages_fail_cleanly : FailsCleanly plainMachine 4 (fun _ => secondMissing) initialKernel (anywhere 8192) ↔
    (Point.page 1).Fits plainMachine (anywhere 8192) := by
  have whole : pageAlign (pageAlign 8192) = 8192 := by decide
  obtain ⟨k1, given⟩ := @initial_given _ _ secondMissing _ ⟨rfl, rfl⟩ whole (by decide) (by decide) rfl
  have array : ArrayAsked plainMachine 3 (fun _ => secondMissing) (anywhere 8192) 0 k1 (.object k1.next)
      (counted k1 0 8192).take.2 := by
    rw [ArrayAsked, allocArray, if_neg (by decide), if_neg (by decide), if_neg (by decide)]
    rfl
  exact vmalloc_fails_cleanly_iff initialKernel_reachable window_one
    (.page (by decide) given array nofun (by decide) (fun _ below => decide_eq_true below) rfl)

/-- Two tebibytes are asked for: the array has no room for the one page that was had. -/
theorem two_tebibytes_overrun : Kernel.Reachable plainMachine initialKernel ∧
    FailsAt plainMachine 3 (fun _ => secondMissing) initialKernel (anywhere (2 ^ 41)) (.page 1) ∧
      ¬FailsCleanly plainMachine 4 (fun _ => secondMissing) initialKernel (anywhere (2 ^ 41)) := by
  have whole : pageAlign (pageAlign (2 ^ 41)) = 2 ^ 41 := by decide
  obtain ⟨k1, given⟩ := @initial_given _ _ secondMissing _ ⟨rfl, rfl⟩ whole (by decide) (by decide) rfl
  have array : ArrayAsked plainMachine 3 (fun _ => secondMissing) (anywhere (2 ^ 41)) 0 k1 .zeroSize (counted k1 0 (2 ^ 41)) := by
    rw [ArrayAsked, allocArray, if_neg (by decide), if_pos (by decide)]
    rfl
  refine ⟨initialKernel_reachable, .page (by decide) given array nofun (by decide) (fun _ below => decide_eq_true below) rfl, ?_⟩
  rintro ⟨k', done, -⟩
  obtain ⟨va, vas, owned, k4, -, -, -, same⟩ := pages_asked initialKernel_reachable.sound window_one (by decide) given
    array nofun
  have overrun : mapPages plainMachine 4 secondMissing (2 ^ 41) 0 k4 = .error .overrun :=
    mapPages_overrun (i := 1) (fun _ below => decide_eq_true below) (by decide) (by decide)
  exact absurd ((same.trans overrun).symm.trans done) nofun

end Miracle.Vmalloc
