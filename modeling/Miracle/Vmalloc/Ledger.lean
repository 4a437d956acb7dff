import Miracle.Vmalloc.Memory
import Miracle.Vmalloc.Search

/-! # What is held, and what an area owns

An area that has a `vm_struct` is in use; every other area waits to be purged.  A step may
extend what is held by memory of its own, and freeing an area gives back what it owns: its
`vm_struct`, its pages, and the array, which may be an area again.
-/

namespace Miracle.Vmalloc

/-! ## Areas and their `vm_struct`s -/

structure Linked (k : Kernel) : Prop where
  areas : AreasOk k.vmap
  live : ∀ va, (k.vm va).isSome = true ↔ va ∈ k.vmap.areaList ∧ k.vmap.vmFlag va = true
  waiting : ∀ va ∈ k.vmap.areaList, k.vmap.vmFlag va = false → va ∈ k.vmap.purgeList

section Linked

variable {k : Kernel} {va : VmapArea} {area : Nat}

theorem Linked.unlisted (linked : Linked k) (points : k.vm va = some area) : va ∉ k.vmap.purgeList := by
  intro listed
  obtain ⟨-, flag⟩ := (linked.live va).mp (by rw [points]; rfl)
  rw [(linked.areas.purge va listed).2] at flag
  exact absurd flag Bool.false_ne_true

theorem Linked.waits (linked : Linked k) (mem : va ∈ k.vmap.areaList) (none : k.vm va = none) : va ∈ k.vmap.purgeList := by
  apply linked.waiting va mem
  by_contra flag
  have some := (linked.live va).mpr ⟨mem, by simpa using flag⟩
  rw [none] at some
  exact absurd some Bool.false_ne_true

/-- A purge takes no area that is in use. -/
theorem Linked.settled_live (linked : Linked k) {s : Vmap} (settled : Settled k.vmap s) (va : VmapArea) :
    (k.vm va).isSome = true ↔ va ∈ s.areaList ∧ s.vmFlag va = true := by
  rw [linked.live, settled.vmFlag]
  constructor
  · rintro ⟨mem, flag⟩
    refine ⟨settled.kept va mem fun listed => ?_, flag⟩
    rw [(linked.areas.purge va listed).2] at flag
    exact absurd flag Bool.false_ne_true
  · rintro ⟨mem, flag⟩
    exact ⟨settled.fewer va mem, flag⟩

theorem Linked.settled_waiting (linked : Linked k) {s : Vmap} (settled : Settled k.vmap s) {va : VmapArea}
    (mem : va ∈ s.areaList) (flag : s.vmFlag va = false) : va ∈ s.purgeList := by
  rw [settled.vmFlag] at flag
  exact settled.still va mem (linked.waiting va (settled.fewer va mem) flag)

theorem Linked.settled (linked : Linked k) {s : Vmap} (ok : AreasOk s) (settled : Settled k.vmap s) :
    Linked { k with vmap := s } :=
  ⟨ok, linked.settled_live settled, fun _ mem flag => linked.settled_waiting settled mem flag⟩

/-- An area that is added and set up is in use. -/
theorem Linked.grown (linked : Linked k) {s : Vmap} (ok : AreasOk s) (grown : Grown k.vmap s va) (area : Nat) (flags : VmFlags) :
    Linked (({ k with vmap := s } : Kernel).setup area va flags) ∧ k.vm va = none := by
  have unused : k.vm va = none := by
    by_contra some
    exact grown.fresh ((linked.live va).mp (Option.isSome_iff_ne_none.mpr some)).1
  have unlisted : va ∉ s.purgeList := by
    rw [grown.purgeList]
    exact fun listed => grown.fresh (linked.areas.purge va listed).1
  refine ⟨⟨setup_ok ok unlisted, fun tmp => ?_, fun tmp mem flag => ?_⟩, unused⟩
  · change (Function.update k.vm va (some area) tmp).isSome = true ↔
      tmp ∈ s.areaList ∧ Function.update s.vmFlag va true tmp = true
    by_cases same : tmp = va
    · subst same
      simp [(grown.members tmp).mpr (.inl rfl)]
    · rw [Function.update_of_ne same, Function.update_of_ne same, grown.vmFlag, Function.update_of_ne same, linked.live,
        grown.members]
      simp [same]
  · change tmp ∈ s.purgeList
    change Function.update s.vmFlag va true tmp = false at flag
    by_cases same : tmp = va
    · subst same
      simp at flag
    · rw [Function.update_of_ne same, grown.vmFlag, Function.update_of_ne same] at flag
      rw [grown.purgeList]
      exact linked.waiting tmp (((grown.members tmp).mp mem).resolve_left same) flag

/-- `remove_vm_area` of an area in use. -/
theorem Linked.removeVmArea (linked : Linked k) (m : Machine) (points : k.vm va = some area) {addr : Nat}
    (lower : va.vaStart ≤ addr) (upper : addr < va.vaEnd) :
    ∃ s, k.removeVmArea m addr = .ok (some area, { k with vmap := s, vm := Function.update k.vm va none }) ∧
      Linked { k with vmap := s, vm := Function.update k.vm va none } ∧ (∀ tmp ∈ s.areaList, tmp ∈ k.vmap.areaList) ∧
      (∀ tmp ∈ k.vmap.areaList, k.vm tmp ≠ none → tmp ≠ va → tmp ∈ s.areaList) := by
  obtain ⟨mem, flag⟩ := (linked.live va).mp (by rw [points]; rfl)
  have found := linked.areas.find_iff.mpr ⟨mem, lower, upper⟩
  obtain ⟨s, removed, ok, settled⟩ := removeVmArea_some m.rb m.lazyMax linked.areas found flag
  have kept : ∀ tmp ∈ k.vmap.areaList, k.vm tmp ≠ none → tmp ≠ va → tmp ∈ s.areaList := by
    intro tmp memTmp used other
    apply settled.kept tmp memTmp
    change tmp ∉ va :: k.vmap.purgeList
    rw [List.mem_cons, not_or]
    obtain ⟨ref, some⟩ := Option.ne_none_iff_exists'.mp used
    exact ⟨other, linked.unlisted some⟩
  refine ⟨s, ?_, ⟨ok, fun tmp => ?_, fun tmp memTmp flagTmp => ?_⟩, settled.fewer, kept⟩
  · simp only [Kernel.removeVmArea, found, flag, if_true, removed, Except.mapError, ok_bind, points]
  · change (Function.update k.vm va none tmp).isSome = true ↔ tmp ∈ s.areaList ∧ s.vmFlag tmp = true
    rw [settled.vmFlag]
    change _ ↔ _ ∧ Function.update k.vmap.vmFlag va false tmp = true
    by_cases same : tmp = va
    · subst same
      simp
    · rw [Function.update_of_ne same, Function.update_of_ne same, linked.live]
      constructor
      · rintro ⟨memTmp, flagTmp⟩
        exact ⟨kept tmp memTmp (Option.isSome_iff_ne_none.mp ((linked.live tmp).mpr ⟨memTmp, flagTmp⟩)) same, flagTmp⟩
      · rintro ⟨memTmp, flagTmp⟩
        exact ⟨settled.fewer tmp memTmp, flagTmp⟩
  · apply settled.still tmp memTmp
    change s.vmFlag tmp = false at flagTmp
    rw [settled.vmFlag] at flagTmp
    change Function.update k.vmap.vmFlag va false tmp = false at flagTmp
    change tmp ∈ va :: k.vmap.purgeList
    by_cases same : tmp = va
    · rw [same]
      exact List.mem_cons_self
    · rw [Function.update_of_ne same] at flagTmp
      exact List.mem_cons_of_mem va (linked.waiting tmp (settled.fewer tmp memTmp) flagTmp)

end Linked

/-! ## What is held -/

/-- Moreover new names are new, and areas are made of whole pages. -/
structure Sound (k : Kernel) : Prop extends Linked k where
  fresh : ∀ ref ∈ k.held, ref < k.next
  whole : ∀ va ∈ k.vmap.areaList, pageSize ∣ va.vaStart ∧ pageSize ∣ va.vaEnd

/-- From `k` to `k'` the areas `vas` came into use and the memory `refs` was taken; what was
    there before is as it was. -/
structure Extends (k k' : Kernel) (vas : List VmapArea) (refs : Finset Nat) : Prop where
  sound : Sound k'
  held : k'.held = k.held ∪ refs
  fresh : ∀ ref ∈ refs, k.next ≤ ref
  next : k.next ≤ k'.next
  structs : ∀ ref, ref < k.next → k'.structs ref = k.structs ref
  vm : ∀ va, va ∉ vas → k'.vm va = k.vm va
  unused : ∀ va ∈ vas, k.vm va = none

section Extends

variable {k mid k' : Kernel} {vas vas' : List VmapArea} {refs refs' : Finset Nat}

theorem Extends.refl (sound : Sound k) : Extends k k [] ∅ :=
  ⟨sound, by simp, by simp, le_rfl, fun _ _ => rfl, fun _ _ => rfl, nofun⟩

theorem Extends.trans (first : Extends k mid vas refs) (last : Extends mid k' vas' refs') :
    Extends k k' (vas ++ vas') (refs ∪ refs') where
  sound := last.sound
  held := by rw [last.held, first.held, Finset.union_assoc]
  fresh := by
    intro ref mem
    rcases Finset.mem_union.mp mem with early | late
    · exact first.fresh ref early
    · exact first.next.trans (last.fresh ref late)
  next := first.next.trans last.next
  structs ref old := (last.structs ref (old.trans_le first.next)).trans (first.structs ref old)
  vm va other := by
    rw [List.mem_append, not_or] at other
    rw [last.vm va other.2, first.vm va other.1]
  unused := by
    intro va mem
    rcases List.mem_append.mp mem with early | late
    · exact first.unused va early
    · have none := last.unused va late
      by_cases early : va ∈ vas
      · exact first.unused va early
      · rwa [first.vm va early] at none

theorem Extends.modify (step : Extends k k' vas refs) {ref : Nat} (new : k.next ≤ ref) (f : VmStruct → VmStruct) :
    Extends k (k'.modify ref f) vas refs :=
  ⟨{ step.sound with }, step.held, step.fresh, step.next, fun other old => by
    change Function.update k'.structs ref _ other = _
    rw [Function.update_of_ne (by omega)]
    exact step.structs other old, step.vm, step.unused⟩

theorem Sound.take (sound : Sound k) : Extends k k.take.2 [] {k.next} where
  sound := by
    refine { sound with fresh := fun ref mem => ?_ }
    rcases Finset.mem_insert.mp mem with rfl | old
    · exact Nat.lt_succ_self _
    · exact (sound.fresh ref old).trans (Nat.lt_succ_self _)
  held := by
    simp only [Kernel.take]
    rw [Finset.insert_eq, Finset.union_comm]
  fresh := by simp
  next := Nat.le_succ _
  structs _ _ := rfl
  vm _ _ := rfl
  unused := nofun

theorem Sound.not_held (sound : Sound k) {ref : Nat} (new : k.next ≤ ref) : ref ∉ k.held := fun mem =>
  absurd (sound.fresh ref mem) (not_lt.mpr new)

end Extends

/-- From `k` to `k'` the areas `vas` went out of use and the memory `refs` was given back. -/
structure Freed (k k' : Kernel) (vas : List VmapArea) (refs : Finset Nat) : Prop where
  sound : Sound k'
  held : k'.held = k.held \ refs
  structs : k'.structs = k.structs
  vm : ∀ va, k'.vm va = if va ∈ vas then none else k.vm va
  next : k'.next = k.next

/-- What was taken is given back: all is as it was. -/
theorem Extends.freed {k mid k' : Kernel} {vas : List VmapArea} {refs : Finset Nat} (sound : Sound k)
    (step : Extends k mid vas refs) (freed : Freed mid k' vas refs) : Extends k k' [] ∅ where
  sound := freed.sound
  held := by
    rw [freed.held, step.held, Finset.union_empty, Finset.union_sdiff_right]
    apply Finset.sdiff_eq_self_of_disjoint
    rw [Finset.disjoint_left]
    exact fun ref old new => sound.not_held (step.fresh ref new) old
  fresh := by simp
  next := by rw [freed.next]; exact step.next
  structs ref old := by rw [freed.structs]; exact step.structs ref old
  vm va _ := by
    rw [freed.vm]
    split
    · rename_i mem
      exact (step.unused va mem).symm
    · rename_i other
      exact step.vm va other
  unused := nofun

/-! ## What an area owns -/

/-- The area and its `vm_struct`, with pages that are apart from the array. -/
structure Head (k : Kernel) (va : VmapArea) (area : Nat) (vas : List VmapArea) (array : Finset Nat) : Prop where
  listed : va ∈ k.vmap.areaList
  points : k.vm va = some area
  positive : 0 < va.vaStart
  count : (k.structs area).nrPages = (k.structs area).slots.length
  nodup : (area :: (k.structs area).slots).Nodup
  apart : ∀ ref ∈ area :: (k.structs area).slots, ref ∉ array
  other : va ∉ vas

def ownRefs (k : Kernel) (area : Nat) (array : Finset Nat) : Finset Nat :=
  insert area ((k.structs area).slots.toFinset ∪ array)

/-- The areas and the memory behind an address. -/
inductive Owned (k : Kernel) : Nat → List VmapArea → Finset Nat → Prop
  | none {va : VmapArea} {area : Nat} (head : Head k va area [] ∅)
      (pages : (k.structs area).pages = .null ∨ (k.structs area).pages = .zeroSize) :
      Owned k va.vaStart [va] (ownRefs k area ∅)
  | object {va : VmapArea} {area ref : Nat} (head : Head k va area [] {ref})
      (pages : (k.structs area).pages = .object ref) : Owned k va.vaStart [va] (ownRefs k area {ref})
  | area {va : VmapArea} {area addr : Nat} {vas : List VmapArea} {array : Finset Nat} (head : Head k va area vas array)
      (pages : (k.structs area).pages = .area addr) (lower : vmallocStart ≤ addr) (upper : addr < vmallocEnd)
      (inner : Owned k addr vas array) : Owned k va.vaStart (va :: vas) (ownRefs k area array)

section Owned

variable {k k' : Kernel} {addr : Nat} {vas : List VmapArea} {refs : Finset Nat}

theorem Head.mono {va : VmapArea} {area : Nat} {array : Finset Nat} (head : Head k va area vas array)
    (listed : va ∈ k'.vmap.areaList) (vm : k'.vm va = k.vm va) (structs : k'.structs area = k.structs area) :
    Head k' va area vas array :=
  ⟨listed, vm.trans head.points, head.positive, by rw [structs]; exact head.count, by rw [structs]; exact head.nodup,
    by rw [structs]; exact head.apart, head.other⟩

/-- What is owned does not depend on anything else. -/
theorem Owned.mono (owned : Owned k addr vas refs) (listed : ∀ va ∈ vas, va ∈ k'.vmap.areaList)
    (vm : ∀ va ∈ vas, k'.vm va = k.vm va) (structs : ∀ ref ∈ refs, k'.structs ref = k.structs ref) :
    Owned k' addr vas refs := by
  induction owned with
  | @none va area head pages =>
      have same := structs area (Finset.mem_insert_self _ _)
      have kept := head.mono (listed va List.mem_cons_self) (vm va List.mem_cons_self) same
      have refs : ownRefs k' area ∅ = ownRefs k area ∅ := by rw [ownRefs, same, ownRefs]
      exact refs ▸ .none kept (by rw [same]; exact pages)
  | @object va area ref head pages =>
      have same := structs area (Finset.mem_insert_self _ _)
      have kept := head.mono (listed va List.mem_cons_self) (vm va List.mem_cons_self) same
      have refs : ownRefs k' area {ref} = ownRefs k area {ref} := by rw [ownRefs, same, ownRefs]
      exact refs ▸ .object kept (by rw [same]; exact pages)
  | @area va area addr vas array head pages lower upper inner ih =>
      have same := structs area (Finset.mem_insert_self _ _)
      have kept := head.mono (listed va List.mem_cons_self) (vm va List.mem_cons_self) same
      have refs : ownRefs k' area array = ownRefs k area array := by rw [ownRefs, same, ownRefs]
      have inner' := ih (fun va mem => listed va (List.mem_cons_of_mem _ mem))
        (fun va mem => vm va (List.mem_cons_of_mem _ mem))
        fun ref mem => structs ref (Finset.mem_insert_of_mem (Finset.mem_union_right _ mem))
      exact refs ▸ .area kept (by rw [same]; exact pages) lower upper inner'

theorem Owned.used (owned : Owned k addr vas refs) : ∀ va ∈ vas, va ∈ k.vmap.areaList ∧ k.vm va ≠ .none := by
  induction owned with
  | none head pages =>
      intro va mem
      obtain rfl := List.mem_singleton.mp mem
      exact ⟨head.listed, by rw [head.points]; exact Option.some_ne_none _⟩
  | object head pages =>
      intro va mem
      obtain rfl := List.mem_singleton.mp mem
      exact ⟨head.listed, by rw [head.points]; exact Option.some_ne_none _⟩
  | area head pages lower upper inner ih =>
      intro va mem
      rcases List.mem_cons.mp mem with rfl | later
      · exact ⟨head.listed, by rw [head.points]; exact Option.some_ne_none _⟩
      · exact ih va later

end Owned

/-! ## Freeing an area gives back what it owns -/

section Release

variable {k k' : Kernel} {vas : List VmapArea} {array : Finset Nat}

theorem Sound.shrink (sound : Sound k) {held : Finset Nat} (fewer : held ⊆ k.held) : Sound { k with held := held } :=
  { sound with fresh := fun ref mem => sound.fresh ref (fewer mem) }

theorem Sound.removed (sound : Sound k) {va : VmapArea} {s : Vmap}
    (linked : Linked { k with vmap := s, vm := Function.update k.vm va none })
    (fewer : ∀ tmp ∈ s.areaList, tmp ∈ k.vmap.areaList) : Sound { k with vmap := s, vm := Function.update k.vm va none } :=
  { linked with
    fresh := sound.fresh
    whole := fun tmp mem => sound.whole tmp (fewer tmp mem) }

theorem give_held {ref : Nat} (mem : ref ∈ k.held) : k.give ref = .ok { k with held := k.held.erase ref } := if_pos mem

theorem freePages_all {slots : List Nat} (nodup : slots.Nodup) (held : ∀ page ∈ slots, page ∈ k.held) :
    freePages slots.length slots k = .ok { k with held := k.held \ slots.toFinset } := by
  induction slots generalizing k with
  | nil => simp [freePages]
  | cons page rest ih =>
      obtain ⟨fresh, nodup'⟩ := List.nodup_cons.mp nodup
      rw [List.length_cons, freePages, give_held (held page List.mem_cons_self), ok_bind, ih nodup']
      · congr 2
        ext ref
        simp only [Finset.mem_sdiff, Finset.mem_erase, List.toFinset_cons, Finset.mem_insert]
        tauto
      · intro other mem
        refine Finset.mem_erase.mpr ⟨fun same => fresh (same ▸ mem), held other (List.mem_cons_of_mem page mem)⟩

/-- What an array owns. -/
def ArrayOwned (k : Kernel) (vas : List VmapArea) (array : Finset Nat) : PageArray → Prop
  | .null => vas = [] ∧ array = ∅
  | .zeroSize => vas = [] ∧ array = ∅
  | .object ref => vas = [] ∧ array = {ref}
  | .area addr => vmallocStart ≤ addr ∧ addr < vmallocEnd ∧ Owned k addr vas array

theorem Head.owned {va : VmapArea} {area : Nat} (head : Head k va area vas array)
    (inner : ArrayOwned k vas array (k.structs area).pages) : Owned k va.vaStart (va :: vas) (ownRefs k area array) := by
  cases pages : (k.structs area).pages with
  | null =>
      rw [pages] at inner
      obtain ⟨rfl, rfl⟩ := inner
      exact .none head (.inl pages)
  | zeroSize =>
      rw [pages] at inner
      obtain ⟨rfl, rfl⟩ := inner
      exact .none head (.inr pages)
  | object ref =>
      rw [pages] at inner
      obtain ⟨rfl, rfl⟩ := inner
      exact .object head pages
  | area addr =>
      rw [pages] at inner
      obtain ⟨lower, upper, owned⟩ := inner
      exact .area head pages lower upper owned

theorem Owned.split {addr : Nat} {refs : Finset Nat} (owned : Owned k addr vas refs) :
    ∃ va area rest array, Head k va area rest array ∧ ArrayOwned k rest array (k.structs area).pages ∧ addr = va.vaStart ∧
      vas = va :: rest ∧ refs = ownRefs k area array := by
  cases owned with
  | none head pages =>
      refine ⟨_, _, _, _, head, ?_, rfl, rfl, rfl⟩
      rcases pages with pages | pages <;> rw [pages] <;> exact ⟨rfl, rfl⟩
  | object head pages =>
      refine ⟨_, _, _, _, head, ?_, rfl, rfl, rfl⟩
      rw [pages]
      exact ⟨rfl, rfl⟩
  | area head pages lower upper inner =>
      refine ⟨_, _, _, _, head, ?_, rfl, rfl, rfl⟩
      rw [pages]
      exact ⟨lower, upper, inner⟩

theorem ArrayOwned.mono {pages : PageArray} (owned : ArrayOwned k vas array pages)
    (listed : ∀ va ∈ vas, k.vm va ≠ none → va ∈ k.vmap.areaList → va ∈ k'.vmap.areaList)
    (vm : ∀ va ∈ vas, k'.vm va = k.vm va) (structs : ∀ ref ∈ array, k'.structs ref = k.structs ref) :
    ArrayOwned k' vas array pages := by
  cases pages with
  | null => exact owned
  | zeroSize => exact owned
  | object ref => exact owned
  | area addr =>
      obtain ⟨lower, upper, owned⟩ := owned
      exact ⟨lower, upper, owned.mono (fun va mem => listed va mem (owned.used va mem).2 (owned.used va mem).1) vm structs⟩

/-- An array is freed with what it owns, when the areas in it are. -/
theorem kvfree_ok (free : Kernel → Nat → Except Fault (Report × Kernel)) (sound : Sound k) {pages : PageArray}
    (owned : ArrayOwned k vas array pages) (held : array ⊆ k.held)
    (frees : ∀ addr, pages = .area addr → Owned k addr vas array → ∃ k', free k addr = .ok (.done, k') ∧ Freed k k' vas array) :
    ∃ k', kvfree free k pages = .ok k' ∧ Freed k k' vas array := by
  have nothing : vas = [] → array = ∅ → Freed k k vas array := by
    rintro rfl rfl
    exact ⟨sound, by simp, rfl, by simp, rfl⟩
  cases pages with
  | null => exact ⟨k, rfl, nothing owned.1 owned.2⟩
  | zeroSize => exact ⟨k, rfl, nothing owned.1 owned.2⟩
  | object ref =>
      obtain ⟨rfl, rfl⟩ := owned
      have mem : ref ∈ k.held := held (Finset.mem_singleton_self ref)
      exact ⟨_, give_held mem, sound.shrink (Finset.erase_subset ref k.held), Finset.erase_eq _ _, rfl, by simp, rfl⟩
  | area addr =>
      obtain ⟨lower, upper, owned⟩ := owned
      obtain ⟨k', done, freed⟩ := frees addr rfl owned
      exact ⟨k', by simp only [kvfree, lower, upper, and_self, if_true, done, ok_bind], freed⟩

/-- `__vunmap` of an area in use gives back the area, its pages and all of its array. -/
theorem vunmapArea_ok (m : Machine) (depth : Nat) {addr : Nat} {refs : Finset Nat} (sound : Sound k)
    (owned : Owned k addr vas refs) (held : refs ⊆ k.held) (deep : vas.length ≤ depth) :
    ∃ k', vunmapArea m depth true k addr = .ok (.done, k') ∧ Freed k k' vas refs := by
  induction depth generalizing k addr vas refs with
  | zero =>
      obtain ⟨va, area, rest, array, -, -, -, rfl, -⟩ := owned.split
      simp at deep
  | succ depth ih =>
      obtain ⟨va, area, rest, array, head, inner, rfl, rfl, rfl⟩ := owned.split
      have proper := sound.areas.nonempty va head.listed
      obtain ⟨s, removed, linked, fewer, kept⟩ := sound.toLinked.removeVmArea m head.points le_rfl proper
      have removedSound := sound.removed linked fewer
      -- the pages
      obtain ⟨freshArea, nodup⟩ := List.nodup_cons.mp head.nodup
      have slotsHeld : ∀ page ∈ (k.structs area).slots, page ∈ k.held := fun page mem =>
        held (Finset.mem_insert_of_mem (Finset.mem_union_left _ (List.mem_toFinset.mpr mem)))
      have pages := freePages_all (k := { k with vmap := s, vm := Function.update k.vm va none }) nodup slotsHeld
      -- the array
      have midSound : Sound { k with
          vmap := s
          vm := Function.update k.vm va none
          held := k.held \ (k.structs area).slots.toFinset } := removedSound.shrink Finset.sdiff_subset
      have inner' : ArrayOwned { k with
          vmap := s
          vm := Function.update k.vm va none
          held := k.held \ (k.structs area).slots.toFinset } rest array (k.structs area).pages := by
        apply inner.mono
        · intro tmp mem used listed
          exact kept tmp listed used fun same => head.other (same ▸ mem)
        · intro tmp mem
          exact Function.update_of_ne (fun same : tmp = va => head.other (same ▸ mem)) none k.vm
        · exact fun ref _ => rfl
      have arrayHeld : array ⊆ k.held \ (k.structs area).slots.toFinset := by
        intro ref mem
        refine Finset.mem_sdiff.mpr ⟨held (Finset.mem_insert_of_mem (Finset.mem_union_right _ mem)), fun isSlot => ?_⟩
        exact head.apart ref (List.mem_cons_of_mem area (List.mem_toFinset.mp isSlot)) mem
      obtain ⟨k3, freedArray, freed⟩ := kvfree_ok (vunmapArea m depth true) midSound inner' arrayHeld
        fun addr _ owned => ih midSound owned arrayHeld (Nat.le_of_succ_le_succ deep)
      -- the `vm_struct`
      have areaHeld : area ∈ k3.held := by
        rw [freed.held]
        refine Finset.mem_sdiff.mpr ⟨Finset.mem_sdiff.mpr ⟨held (Finset.mem_insert_self _ _), fun isSlot => ?_⟩, ?_⟩
        · exact freshArea (List.mem_toFinset.mp isSlot)
        · exact head.apart area List.mem_cons_self
      refine ⟨{ k3 with held := k3.held.erase area }, ?_, freed.sound.shrink (Finset.erase_subset _ _), ?_,
        freed.structs, ?_, freed.next⟩
      · have whole := Nat.mod_eq_zero_of_dvd (sound.whole va head.listed).1
        have found := sound.areas.find_iff.mpr ⟨head.listed, le_rfl, proper⟩
        simp only [vunmapArea, if_neg head.positive.ne', whole, ne_eq, not_true_eq_false, if_false, found, head.points, removed,
          ok_bind, if_true, head.count, pages, freedArray, give_held areaHeld]
      · rw [freed.held]
        ext ref
        simp only [ownRefs, Finset.mem_erase, Finset.mem_sdiff, Finset.mem_insert, Finset.mem_union]
        tauto
      · intro tmp
        change k3.vm tmp = _
        rw [freed.vm]
        by_cases mem : tmp ∈ rest
        · simp [mem]
        · simp only [mem, if_false, List.mem_cons, or_false]
          by_cases same : tmp = va
          · simp [same]
          · rw [if_neg same]
            exact Function.update_of_ne same none k.vm

end Release

end Miracle.Vmalloc
