import Miracle.Vmalloc.Alloc

/-! # What the operations on areas leave

An operation may purge: areas that wait for it go.  All others stay.
-/

namespace Miracle.Vmalloc

open SearchTree

/-- Nothing has changed but that waiting areas may be gone. -/
structure Settled (s s' : Vmap) : Prop where
  fewer : ∀ va ∈ s'.areaList, va ∈ s.areaList
  kept : ∀ va ∈ s.areaList, va ∉ s.purgeList → va ∈ s'.areaList
  vmFlag : s'.vmFlag = s.vmFlag
  waiting : ∀ va ∈ s'.purgeList, va ∈ s.purgeList
  still : ∀ va ∈ s'.areaList, va ∈ s.purgeList → va ∈ s'.purgeList

theorem Settled.refl (s : Vmap) : Settled s s :=
  ⟨fun _ mem => mem, fun _ mem _ => mem, rfl, fun _ mem => mem, fun _ _ mem => mem⟩

theorem Settled.trans {s mid s' : Vmap} (first : Settled s mid) (last : Settled mid s') : Settled s s' where
  fewer va mem := first.fewer va (last.fewer va mem)
  kept va mem unlisted := last.kept va (first.kept va mem unlisted) fun listed => unlisted (first.waiting va listed)
  vmFlag := last.vmFlag.trans first.vmFlag
  waiting va mem := first.waiting va (last.waiting va mem)
  still va mem listed := last.still va mem (first.still va (last.fewer va mem) listed)

theorem SameAreas.settled {s s' : Vmap} (same : SameAreas s s') : Settled s s' where
  fewer va mem := by rwa [same.areaList] at mem
  kept va mem _ := by rwa [same.areaList]
  vmFlag := same.vmFlag
  waiting va mem := by rwa [same.purgeList] at mem
  still va _ listed := by rwa [same.purgeList]

/-! ## Purging -/

/-- The areas that are purged are gone, the others are there. -/
theorem purgeAreas_mem (rb : Rebalancing) {waiting : List VmapArea} {s s' : Vmap} (ok : AreasOk s)
    (nodup : waiting.Nodup) (present : ∀ va ∈ waiting, va ∈ s.areaList) (empty : s.purgeList = [])
    (done : purgeAreas rb waiting s = .ok s') (tmp : VmapArea) :
    tmp ∈ s'.areaList ↔ tmp ∈ s.areaList ∧ tmp ∉ waiting := by
  induction waiting generalizing s with
  | nil =>
      obtain rfl := Except.ok.inj done
      simp
  | cons va rest ih =>
      obtain ⟨fresh, nodup'⟩ := List.nodup_cons.mp nodup
      obtain ⟨mid, freed, midOk, shape, -, listed⟩ := freeVmapArea_ok rb ok (present va List.mem_cons_self)
        (by rw [empty]; exact List.not_mem_nil)
      simp only [purgeAreas, freed, ok_bind] at done
      have members (x : VmapArea) : x ∈ mid.areaList ↔ x ≠ va ∧ x ∈ s.areaList := by
        rw [shape, (sorted_nodup ok.nonempty ok.sorted).mem_erase_iff]
      have midOk' : AreasOk { mid with lazyNr := int32 (mid.lazyNr - nrPages va) } := { midOk with }
      have present' : ∀ x ∈ rest, x ∈ mid.areaList := by
        intro x mem
        rw [members]
        exact ⟨fun same => fresh (same ▸ mem), present x (List.mem_cons_of_mem va mem)⟩
      rw [ih midOk' nodup' present' (listed.trans empty) done]
      change tmp ∈ mid.areaList ∧ tmp ∉ rest ↔ _
      rw [members, List.mem_cons]
      tauto

theorem purgeVmapAreaLazy_mem (rb : Rebalancing) {s s' : Vmap} (ok : AreasOk s) (done : purgeVmapAreaLazy rb s = .ok s')
    (tmp : VmapArea) : tmp ∈ s'.areaList ↔ tmp ∈ s.areaList ∧ tmp ∉ s.purgeList := by
  have ok' : AreasOk { s with purgeList := [] } :=
    ⟨ok.nonempty, ok.word, ok.sorted, ok.tree, ok.cache, List.nodup_nil, nofun⟩
  exact purgeAreas_mem rb ok' ok.purgeNodup (fun va mem => (ok.purge va mem).1) rfl done tmp

theorem purgeVmapAreaLazy_settled (rb : Rebalancing) {s s' : Vmap} (ok : AreasOk s)
    (done : purgeVmapAreaLazy rb s = .ok s') : AreasOk s' ∧ Settled s s' := by
  obtain ⟨s'', done', ok', -, flags, empty⟩ := purgeVmapAreaLazy_ok rb ok
  obtain rfl := Except.ok.inj (done'.symm.trans done)
  have members := purgeVmapAreaLazy_mem rb ok done
  refine ⟨ok', fun va mem => ((members va).mp mem).1, fun va mem unlisted => (members va).mpr ⟨mem, unlisted⟩, flags,
    fun va listed => ?_, fun va mem listed => absurd listed ((members va).mp mem).2⟩
  rw [empty] at listed
  exact absurd listed List.not_mem_nil

/-! ## Allocation -/

/-- The areas with one more, which has no flag. -/
structure Grown (s s' : Vmap) (va : VmapArea) : Prop where
  members : ∀ tmp, tmp ∈ s'.areaList ↔ tmp = va ∨ tmp ∈ s.areaList
  fresh : va ∉ s.areaList
  vmFlag : s'.vmFlag = Function.update s.vmFlag va false
  purgeList : s'.purgeList = s.purgeList

/-- One pass of an allocation: the search fails, or the area at the place it found is added and
    becomes the cached one. -/
theorem tryAllocVmapArea_cases (rb : Rebalancing) {s s' : Vmap} {size a vstart vend : Nat} {result : Option VmapArea}
    (ok : AreasOk s) (unit : a ∣ 2 ^ 64) (pos : 0 < size) (start : 0 < vstart)
    (done : tryAllocVmapArea rb s size a vstart vend = .ok (result, s')) :
    (result = none ∧ s' = (searchAreas s size a vstart vend).2 ∧
        ∀ found, (searchAreas s size a vstart vend).1 = some found → vend < found + size) ∨
      ∃ addr, (searchAreas s size a vstart vend).1 = some addr ∧ result = some ⟨addr, addr + size⟩ ∧
        Grown s s' ⟨addr, addr + size⟩ ∧ s'.freeCache = some ⟨addr, addr + size⟩ ∧
        s'.cachedHoleSize = (searchAreas s size a vstart vend).2.cachedHoleSize ∧
        s'.cachedVstart = (searchAreas s size a vstart vend).2.cachedVstart ∧
        s'.cachedAlign = (searchAreas s size a vstart vend).2.cachedAlign := by
  obtain ⟨same, room⟩ := @searchAreas_room s size a vstart vend ok unit
  unfold tryAllocVmapArea at done
  split at done
  · rename_i mid searched
    obtain ⟨rfl, rfl⟩ := Prod.mk.inj (Except.ok.inj done)
    rw [searched]
    exact .inl ⟨rfl, rfl, nofun⟩
  · rename_i addr mid searched
    rw [searched] at same room ⊢
    have midOk := same.ok ok
    split at done
    · rename_i beyond
      obtain ⟨rfl, rfl⟩ := Prod.mk.inj (Except.ok.inj done)
      refine .inl ⟨rfl, rfl, fun found here => ?_⟩
      obtain rfl := Option.some.inj here
      exact beyond
    · rename_i below
      obtain ⟨inserted, insertion, rest⟩ := bind_eq_ok done
      simp only at rest
      split at rest
      · exact absurd rest nofun
      · rename_i good
        push Not at good
        obtain ⟨aligned, lower, upper⟩ := good
        obtain ⟨rfl, rfl⟩ := Prod.mk.inj (Except.ok.inj rest)
        obtain ⟨word, clear⟩ := room addr rfl
        have apart := (clear (not_lt.mp below)).resolve_left (by omega)
        have apart' := apart
        rw [← same.areaList] at apart
        obtain ⟨root, pre, post, shape, -, -, -, insertion'⟩ := insertVmapArea_spec rb midOk
          (show addr < addr + size by omega) apart
        obtain ⟨next, insertion'', -, members, flags, purge, -⟩ := insertVmapArea_ok rb midOk
          (show addr < addr + size by omega) word apart
        obtain rfl := Except.ok.inj (insertion.symm.trans insertion'')
        obtain rfl := Except.ok.inj (insertion.symm.trans insertion')
        refine .inr ⟨addr, rfl, rfl, ⟨fun tmp => ?_, fun mem => ?_, ?_, purge.trans same.purgeList⟩, rfl, rfl, rfl, rfl⟩
        · rw [← same.areaList]
          exact members tmp
        · rcases apart' _ mem with first | first <;> (unfold Before at first; simp only at first; omega)
        · change Function.update mid.vmFlag _ false = _
          rw [same.vmFlag]

theorem tryAllocVmapArea_frame (rb : Rebalancing) {s s' : Vmap} {size a vstart vend : Nat} {result : Option VmapArea}
    (ok : AreasOk s) (unit : a ∣ 2 ^ 64) (pos : 0 < size) (start : 0 < vstart)
    (done : tryAllocVmapArea rb s size a vstart vend = .ok (result, s')) :
    (result = none → SameAreas s s') ∧ ∀ va, result = some va → Grown s s' va := by
  rcases tryAllocVmapArea_cases rb ok unit pos start done with ⟨rfl, rfl, -⟩ | ⟨addr, -, rfl, grown, -⟩
  · exact ⟨fun _ => (searchAreas_room ok unit).1, nofun⟩
  · refine ⟨nofun, fun va same => ?_⟩
    obtain rfl := Option.some.inj same
    exact grown

/-- An allocation may purge, and adds its area or none. -/
theorem allocVmapArea_frame (rb : Rebalancing) {s s' : Vmap} {size a vstart vend : Nat} {mem : Bool}
    {result : Except Errno VmapArea} (ok : AreasOk s) (word : a < 2 ^ 64) (start : 0 < vstart)
    (done : allocVmapArea rb s size a vstart vend mem = .ok (result, s')) :
    (∃ mid, AreasOk mid ∧ Settled s mid ∧ ∀ va, result = .ok va → Grown mid s' va) ∧
      ((∀ va, result ≠ .ok va) → Settled s s') := by
  unfold allocVmapArea at done
  split at done
  · exact absurd done nofun
  · rename_i valid
    push Not at valid
    obtain ⟨nonzero, -, power⟩ := valid
    have unit := isPowerOf2_dvd (Bool.eq_true_of_not_eq_false power) word
    have pos := Nat.pos_of_ne_zero nonzero
    split at done
    · obtain ⟨rfl, rfl⟩ := Prod.mk.inj (Except.ok.inj done)
      exact ⟨⟨s, ok, .refl s, nofun⟩, fun _ => .refl s⟩
    · obtain ⟨⟨first, mid⟩, tried, rest⟩ := bind_eq_ok done
      obtain ⟨midOk, -⟩ := tryAllocVmapArea_ok rb ok unit pos start tried
      obtain ⟨without, grown⟩ := tryAllocVmapArea_frame rb ok unit pos start tried
      cases first with
      | some va =>
          obtain ⟨rfl, rfl⟩ := Prod.mk.inj (Except.ok.inj rest)
          refine ⟨⟨s, ok, .refl s, fun other same => ?_⟩, fun none => absurd rfl (none va)⟩
          obtain rfl := Except.ok.inj same
          exact grown va rfl
      | none =>
          obtain ⟨purged, purging, rest⟩ := bind_eq_ok rest
          obtain ⟨purgedOk, purgedSettled⟩ := purgeVmapAreaLazy_settled rb midOk purging
          have settled := (without rfl).settled.trans purgedSettled
          obtain ⟨⟨second, last⟩, tried', rest⟩ := bind_eq_ok rest
          obtain ⟨without', grown'⟩ := tryAllocVmapArea_frame rb purgedOk unit pos start tried'
          cases second with
          | some va =>
              obtain ⟨rfl, rfl⟩ := Prod.mk.inj (Except.ok.inj rest)
              refine ⟨⟨purged, purgedOk, settled, fun other same => ?_⟩, fun none => absurd rfl (none va)⟩
              obtain rfl := Except.ok.inj same
              exact grown' va rfl
          | none =>
              obtain ⟨rfl, rfl⟩ := Prod.mk.inj (Except.ok.inj rest)
              have all := settled.trans (without' rfl).settled
              exact ⟨⟨purged, purgedOk, settled, nofun⟩, fun _ => all⟩

/-! ## Lookup and removal -/

/-- An address inside an area of the set leads to that area. -/
theorem findVmapArea_of_mem {addr : Nat} {t : BinTree VmapArea} {va : VmapArea}
    (nonempty : ∀ tmp ∈ t.inorder, tmp.vaStart < tmp.vaEnd) (sorted : t.inorder.Pairwise Before)
    (mem : va ∈ t.inorder) (lower : va.vaStart ≤ addr) (upper : addr < va.vaEnd) :
    findVmapArea addr t = some va := by
  induction t with
  | leaf => exact absurd mem List.not_mem_nil
  | node l tmp r ihl ihr =>
      simp only [BinTree.inorder] at nonempty sorted mem
      obtain ⟨sortedL, sortedR, across⟩ := List.pairwise_append.mp sorted
      obtain ⟨after, sortedR⟩ := List.pairwise_cons.mp sortedR
      have proper := nonempty tmp (by simp)
      rw [findVmapArea]
      rcases List.mem_append.mp mem with left | right
      · have before : va.vaEnd ≤ tmp.vaStart := across va left tmp List.mem_cons_self
        rw [if_pos (by omega)]
        exact ihl (fun x h => nonempty x (by simp [h])) sortedL left
      · rcases List.mem_cons.mp right with rfl | right
        · rw [if_neg (by omega), if_neg (by omega)]
        · have before : tmp.vaEnd ≤ va.vaStart := after va right
          rw [if_neg (by omega), if_pos (by omega)]
          exact ihr (fun x h => nonempty x (by simp [h])) sortedR right

theorem AreasOk.find_iff {s : Vmap} (ok : AreasOk s) {addr : Nat} {va : VmapArea} :
    findVmapArea addr s.root = some va ↔ va ∈ s.areaList ∧ va.vaStart ≤ addr ∧ addr < va.vaEnd := by
  constructor
  · intro found
    refine ⟨ok.tree ▸ findVmapArea_mem found, ?_⟩
    generalize s.root = t at found
    induction t with
    | leaf => exact absurd found nofun
    | node l tmp r ihl ihr =>
        simp only [findVmapArea] at found
        split at found
        · exact ihl found
        · split at found
          · exact ihr found
          · obtain rfl := Option.some.inj found
            omega
  · rintro ⟨mem, lower, upper⟩
    rw [← ok.tree] at mem
    exact findVmapArea_of_mem (by rw [ok.tree]; exact ok.nonempty) (by rw [ok.tree]; exact ok.sorted) mem lower upper

/-- An area that `remove_vm_area` finds with its flag set waits to be purged, or is gone. -/
theorem removeVmArea_some (rb : Rebalancing) (lazyMax : Nat) {addr : Nat} {s : Vmap} {va : VmapArea} (ok : AreasOk s)
    (found : findVmapArea addr s.root = some va) (flag : s.vmFlag va = true) :
    ∃ s', removeVmArea rb lazyMax s addr = .ok (some va, s') ∧ AreasOk s' ∧
      Settled { s with vmFlag := Function.update s.vmFlag va false, purgeList := va :: s.purgeList } s' := by
  have mem : va ∈ s.areaList := ok.tree ▸ findVmapArea_mem found
  obtain ⟨s', freed, ok'⟩ := @freeVmapAreaNoflush_ok rb lazyMax s va ok mem flag
  refine ⟨s', by simp only [removeVmArea, found, flag, if_true, freed, ok_bind], ok', ?_⟩
  unfold freeVmapAreaNoflush at freed
  simp only at freed
  have queued : AreasOk { s with
      vmFlag := Function.update s.vmFlag va false
      lazyNr := int32 (s.lazyNr + nrPages va)
      purgeList := va :: s.purgeList } := { queued_ok ok mem flag with }
  split at freed
  · exact { (purgeVmapAreaLazy_settled rb queued freed).2 with }
  · obtain rfl := Except.ok.inj freed
    exact ⟨fun _ h => h, fun _ h _ => h, rfl, fun _ h => h, fun _ _ h => h⟩

end Miracle.Vmalloc
